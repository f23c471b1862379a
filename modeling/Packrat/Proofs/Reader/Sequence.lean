import Mathlib.Data.List.Forall2
import Packrat.Proofs.Reader.Basic

/-!
# Sequences of readers

What readers read one after another, over and over, or perhaps.
-/

namespace Packrat.Reader

open Text (byteLength)

variable {β γ : Type}

/-- The values of readers, one behind another. -/
def all : List (Reader β) → Reader (List β)
  | [], rest => some ([], rest)
  | reader :: readers, rest =>
      (reader rest).bind fun (x, rest) => (all readers rest).map (Prod.map (x :: ·) id)

/-- The values of a reader as often as it reads any; one that does not lead ahead is the last. -/
def many (reader : Reader β) (rest : List Char) : List β × List Char :=
  match reader rest with
  | none => ([], rest)
  | some (x, shorter) =>
      if byteLength shorter < byteLength rest then Prod.map (x :: ·) id (many reader shorter)
      else ([x], shorter)
termination_by byteLength rest

/-- What becomes of the value of a reader, or of none. -/
def optional (wrap : Option β → γ) (reader : Reader β) : Reader γ := fun rest =>
  match reader rest with
  | some (x, shorter) => some (wrap (some x), shorter)
  | none => some (wrap none, rest)

variable {reader reader' first : Reader β} {readers readers' : List (Reader β)}
  {rest : List Char} {limit : Nat}

theorem many_of_none (h : reader rest = none) : many reader rest = ([], rest) := by
  rw [many, h]

theorem many_of_some {x : β} {shorter : List Char} (h : reader rest = some (x, shorter))
    (hlt : byteLength shorter < byteLength rest) :
    many reader rest = Prod.map (x :: ·) id (many reader shorter) := by
  rw [many, h]
  exact if_pos hlt

theorem many_of_stuck {x : β} {shorter : List Char} (h : reader rest = some (x, shorter))
    (hlt : ¬ byteLength shorter < byteLength rest) : many reader rest = ([x], shorter) := by
  rw [many, h]
  exact if_neg hlt

/-! ## What is read lies ahead -/

theorem map_shrinks {f : β → γ} (h : Shrinks reader) : Shrinks (map f reader) := by
  intro rest y shorter hread
  obtain ⟨⟨x, shorter'⟩, hread', heq⟩ := Option.map_eq_some_iff.mp hread
  cases heq
  exact h _ _ _ hread'

/-- What is read of payloads lies ahead if what is made of them does. -/
theorem shrinks_of_map {f : β → γ} (h : Shrinks (map f reader)) : Shrinks reader := by
  intro rest x shorter hread
  apply h rest (f x) shorter
  rw [map, hread]
  rfl

theorem all_shrinks (h : ∀ reader ∈ readers, Shrinks reader) : Shrinks (all readers) := by
  induction readers with
  | nil =>
      intro rest xs shorter hread
      cases hread
      exact Nat.le_refl _
  | cons reader readers ih =>
      obtain ⟨hhead, htail⟩ := List.forall_mem_cons.mp h
      intro rest xs shorter hread
      obtain ⟨⟨x, rest'⟩, hread', hothers⟩ := Option.bind_eq_some_iff.mp hread
      obtain ⟨⟨xs', rest''⟩, hall, heq⟩ := Option.map_eq_some_iff.mp hothers
      cases heq
      exact Nat.le_trans (ih htail _ _ _ hall) (hhead _ _ _ hread')

theorem many_le (h : Shrinks reader) (rest : List Char) :
    byteLength (many reader rest).2 ≤ byteLength rest := by
  fun_induction many reader rest with
  | case1 => exact Nat.le_refl _
  | case2 rest x shorter hread hlt ih => exact Nat.le_trans ih (Nat.le_of_lt hlt)
  | case3 rest x shorter hread hlt => exact h _ _ _ hread

theorem optional_shrinks {wrap : Option β → γ} (h : Shrinks reader) :
    Shrinks (optional wrap reader) := by
  intro rest y shorter hread
  rw [optional] at hread
  cases hfound : reader rest with
  | none =>
      rw [hfound] at hread
      cases hread
      exact Nat.le_refl _
  | some found =>
      rw [hfound] at hread
      cases hread
      exact h _ _ _ hfound

/-! ## What is read depends on what lies ahead -/

theorem map_agree {f : β → γ} (h : Agree limit reader reader') :
    Agree limit (map f reader) (map f reader') := by
  intro rest hrest
  rw [map, map, h rest hrest]

theorem all_agree (hshrinks : ∀ reader ∈ readers, Shrinks reader)
    (h : List.Forall₂ (Agree limit) readers readers') :
    Agree limit (all readers) (all readers') := by
  induction h with
  | nil => exact fun _ _ => rfl
  | @cons reader reader' readers readers' hhead _ ih =>
      obtain ⟨hfirst, hothers⟩ := List.forall_mem_cons.mp hshrinks
      intro rest hrest
      rw [all, all, ← hhead rest hrest]
      refine Option.bind_congr fun (x, shorter) hread => ?_
      dsimp only
      rw [ih hothers shorter (Nat.lt_of_le_of_lt (hfirst _ _ _ hread) hrest)]

/-- Behind a reader that leads ahead, only what lies ahead counts. -/
theorem all_cons_congr (hfirst : ∀ x shorter, first rest = some (x, shorter) →
      byteLength shorter < byteLength rest)
    (h : Agree (byteLength rest) (all readers) (all readers')) :
    all (first :: readers) rest = all (first :: readers') rest := by
  rw [all, all]
  refine Option.bind_congr fun (x, shorter) hread => ?_
  dsimp only
  rw [h shorter (hfirst _ _ hread)]

theorem many_congr
    (h : ∀ shorter, byteLength shorter ≤ byteLength rest → reader shorter = reader' shorter) :
    many reader rest = many reader' rest := by
  fun_induction many reader rest with
  | case1 rest hnone => rw [many_of_none (by rw [← h rest (Nat.le_refl _), hnone])]
  | case2 rest x shorter hread hlt ih =>
      rw [many_of_some (by rw [← h rest (Nat.le_refl _), hread]) hlt,
        ih fun shorter' hle => h shorter' (Nat.le_trans hle (Nat.le_of_lt hlt))]
  | case3 rest x shorter hread hlt =>
      rw [many_of_stuck (by rw [← h rest (Nat.le_refl _), hread]) hlt]

theorem optional_agree {wrap : Option β → γ} (h : Agree limit reader reader') :
    Agree limit (optional wrap reader) (optional wrap reader') := by
  intro rest hrest
  rw [optional, optional, h rest hrest]

end Packrat.Reader
