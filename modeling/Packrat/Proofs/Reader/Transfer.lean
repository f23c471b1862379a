import Mathlib.Data.Option.Basic
import Mathlib.Data.Prod.Basic
import Packrat.Proofs.Reader.Sequence

/-!
# Readers of other values

Readers that are put together in one way from readers of `f x` instead of `x` read `f x` instead of
`x` as well.  So a grammar may be read into the payloads of its parsers or into the values that
these stand for.
-/

namespace Packrat.Reader

open Text (byteLength)

variable {β γ : Type} {f : β → γ}

/-- The operator does to images what the other operator does to the values themselves. -/
structure Binary.Over (f : β → γ) (operator : Binary β) (image : Binary γ) : Prop where
  symbol_eq : image.symbol = operator.symbol
  join_eq : ∀ x y, image.join (f x) (f y) = f (operator.join x y)

/-- The operator does to images what the other operator does to the values themselves. -/
structure Unary.Over (f : β → γ) (operator : Unary β) (image : Unary γ) : Prop where
  symbol_eq : image.symbol = operator.symbol
  apply_eq : ∀ x, image.apply (f x) = f (operator.apply x)

section Operators

variable {operand : Reader β} {rest : List Char}

theorem Binary.after_map {operator : Binary β} {image : Binary γ} (h : operator.Over f image)
    (x : β) : image.after (map f operand) (f x) rest =
      (operator.after operand x rest).map (Prod.map f id) := by
  simp only [Binary.after, map, h.symbol_eq, Option.map_bind]
  refine Option.bind_congr fun shorter _ => ?_
  simp only [Function.comp_def, Option.map_map]
  refine Option.map_congr fun found _ => ?_
  obtain ⟨y, rest⟩ := found
  simp only [Prod.map_apply, h.join_eq]

theorem Unary.before_map {operator : Unary β} {image : Unary γ} (h : operator.Over f image) :
    image.before (map f operand) rest = (operator.before operand rest).map (Prod.map f id) := by
  simp only [Unary.before, map, h.symbol_eq, Option.map_bind]
  refine Option.bind_congr fun shorter _ => ?_
  simp only [Function.comp_def, Option.map_map]
  refine Option.map_congr fun found _ => ?_
  obtain ⟨y, rest⟩ := found
  simp only [Prod.map_apply, h.apply_eq]

theorem map_map {δ : Type} (g : γ → δ) : map g (map f operand) = map (g ∘ f) operand := by
  funext rest
  rw [map, map, Option.map_map]
  rfl

/-- Readers are the same if their images are. -/
theorem map_injective (hinjective : Function.Injective f) :
    Function.Injective (map f : Reader β → Reader γ) := by
  intro reader reader' h
  funext rest
  have hpair : Function.Injective (Prod.map f (id : List Char → List Char)) :=
    hinjective.prodMap Function.injective_id
  exact Option.map_injective hpair (congrFun h rest)

theorem first_map (readers : List (Reader β)) :
    first (readers.map (map f)) = map f (first readers) := by
  funext rest
  induction readers with
  | nil => rfl
  | cons reader readers ih =>
      simp only [map] at ih
      simp only [List.map_cons, first, map, ih, Option.map_or]

theorem padded_map : padded (map f operand) = map f (padded operand) := by
  funext rest
  simp only [padded, map, Option.map_map]
  rfl

theorem between_map (opening closing : String) :
    between opening closing (map f operand) = map f (between opening closing operand) := by
  funext rest
  simp only [between, map, Option.map_bind]
  refine Option.bind_congr fun shorter _ => ?_
  simp only [Function.comp_apply]
  cases operand shorter with
  | none => rfl
  | some found => cases h : behind closing found.2 <;> simp [h]

theorem signed_map {operators : List (Unary β)} {images : List (Unary γ)} {bare : Reader β}
    (h : List.Forall₂ (Unary.Over f) operators images) :
    signed images (map f operand) (map f bare) = map f (signed operators operand bare) := by
  funext rest
  induction h with
  | nil => simp [signed, first, map]
  | cons hhead _ ih =>
      simp only [signed, List.map_cons, List.cons_append, first, map] at ih ⊢
      rw [Option.map_or, ih, ← Unary.before_map hhead]

theorem joined_map {operators : List (Binary β)} {images : List (Binary γ)}
    (h : List.Forall₂ (Binary.Over f) operators images) (x : β) (rest : List Char) :
    joined images (map f operand) (f x) rest =
      (joined operators operand x rest).map (Prod.map f id) := by
  induction h with
  | nil => rfl
  | cons hhead _ ih =>
      simp only [joined, List.map_cons, first] at ih ⊢
      rw [Option.map_or, ih, Binary.after_map hhead]

theorem foldFrom_map {step : β → Reader β} {image : γ → Reader γ}
    (h : ∀ x rest, image (f x) rest = (step x rest).map (Prod.map f id)) (x : β)
    (rest : List Char) : foldFrom image (f x) rest = Prod.map f id (foldFrom step x rest) := by
  fun_induction foldFrom step x rest with
  | case1 x rest hnone =>
      rw [foldFrom_of_none (by rw [h, hnone]; rfl)]
      rfl
  | case2 x rest y shorter hsome hlt ih =>
      rw [foldFrom_of_some (by rw [h, hsome]; rfl) hlt, ih]
  | case3 x rest y shorter hsome hlt =>
      rw [foldFrom, h, hsome]
      exact if_neg hlt

end Operators

theorem many_map {reader : Reader β} (rest : List Char) :
    many (map f reader) rest = Prod.map (List.map f) id (many reader rest) := by
  fun_induction many reader rest with
  | case1 rest hnone => rw [many_of_none (by rw [map, hnone]; rfl)]; rfl
  | case2 rest x shorter hread hlt ih =>
      rw [many_of_some (by rw [map, hread]; rfl) hlt, ih]
      rfl
  | case3 rest x shorter hread hlt =>
      rw [many_of_stuck (by rw [map, hread]; rfl) hlt]
      rfl

/-! ## Levels -/

theorem recursive_map {body : Reader β → Reader β} {image : Reader γ → Reader γ}
    (h : ∀ reader, image (map f reader) = map f (body reader)) :
    recursive image = map f (recursive body) := by
  funext rest
  induction hbytes : byteLength rest using Nat.strongRecOn generalizing rest with
  | ind bytes ih =>
      subst hbytes
      have hbelow : below rest (recursive image) = map f (below rest (recursive body)) := by
        funext shorter
        simp only [below, map]
        split
        · exact ih _ ‹_› shorter rfl
        · rfl
      rw [recursive_eq_below, hbelow, h, map, map, recursive_eq_below body]

variable {operand : Reader β}

theorem leftAssociative_map {operators : List (Binary β)} {images : List (Binary γ)}
    (h : List.Forall₂ (Binary.Over f) operators images) :
    leftAssociative images (map f operand) = map f (leftAssociative operators operand) := by
  funext rest
  simp only [leftAssociative, map, Option.map_map]
  refine Option.map_congr fun found _ => ?_
  exact foldFrom_map (joined_map h) found.1 found.2

theorem prefixed_map {operators : List (Unary β)} {images : List (Unary γ)}
    (h : List.Forall₂ (Unary.Over f) operators images) :
    prefixed images (map f operand) = map f (prefixed operators operand) :=
  recursive_map fun _ => signed_map h

theorem rightAssociative_map {operator : Binary β} {image : Binary γ} {signs : List (Unary β)}
    {images : List (Unary γ)} (hoperator : operator.Over f image)
    (hsigns : List.Forall₂ (Unary.Over f) signs images) :
    rightAssociative image images (map f operand) =
      map f (rightAssociative operator signs operand) := by
  refine recursive_map fun power => ?_
  funext rest
  simp only [map, Option.map_map]
  refine Option.map_congr fun found _ => ?_
  obtain ⟨x, rest'⟩ := found
  have hafter : image.after (signed images (map f power) (map f power)) (f x) rest' =
      (operator.after (signed signs power power) x rest').map (Prod.map f id) := by
    rw [signed_map hsigns]
    exact Binary.after_map hoperator x
  simp only [Function.comp_def, Prod.map_apply, id_eq]
  rw [hafter]
  cases operator.after (signed signs power power) x rest' <;> rfl

end Packrat.Reader
