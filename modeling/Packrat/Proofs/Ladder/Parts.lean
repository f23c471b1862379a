import Mathlib.Data.List.Forall2
import Packrat.Proofs.Ladder.Calls

/-!
# Parts of rules

Sequences and alternatives with nothing to their left, whose parts match what readers read.  Calls
of the whole grammar stand behind at least one symbol in them, so it is enough to know what such
calls yield in front of shorter texts (`Later`).
-/

namespace Packrat.Ladder

open Engine
open Text (byteLength)

variable {α : Type} {ladder : Ladder α} {source : Source} {cursor : Cursor α} {rest : List Char}
  {engine engine' : Engine α} {parser : Parser α} {parsers : List (Parser α)}
  {offset threshold fuel bound bytes i : Nat} {same : Reader α}

/-! ## Sequences -/

/-- The payloads and the place behind a sequence are what was read. -/
def MatchesAll (source : Source) :
    Option (List α × List Char) → Option (List α × Cursor α) → Prop
  | none, none => True
  | some (payloads, rest), some (payloads', next) =>
      payloads' = payloads ∧ next.At source rest ∧ next.left = .empty
  | _, _ => False

theorem MatchesAll.none_iff {result : Option (List α × Cursor α)} :
    MatchesAll source none result ↔ result = none := by
  cases result <;> simp [MatchesAll]

theorem MatchesAll.some_iff {payloads : List α} {result : Option (List α × Cursor α)} :
    MatchesAll source (some (payloads, rest)) result ↔
      ∃ next : Cursor α, result = some (payloads, next) ∧ next.At source rest ∧
        next.left = .empty := by
  cases result with
  | none => simp [MatchesAll]
  | some result =>
      constructor
      · rintro ⟨hpayloads, hat, hleft⟩
        exact ⟨result.2, by rw [← hpayloads], hat, hleft⟩
      · rintro ⟨next, heq, hat, hleft⟩
        cases heq
        exact ⟨rfl, hat, hleft⟩

/-- The payloads of a sequence, behind a run from an offset and a threshold on. -/
def Parts (ladder : Ladder α) (source : Source) (offset threshold : Nat) (engine : Engine α)
    (found : Option (List α × List Char)) (result : Option (List α × Cursor α))
    (engine' : Engine α) : Prop :=
  MatchesAll source found result ∧
    Kept ladder.layout source offset threshold engine engine'

theorem yields_parts_nil {call : Call α} (hat : cursor.At source rest)
    (hleft : cursor.left = .empty) :
    Yields (inSequence call [] cursor) engine
      (ladder.Parts source offset threshold engine (some ([], rest))) :=
  yields_inSequence_nil ⟨⟨rfl, hat, hleft⟩, .refl engine⟩

theorem yields_parts_cons {call : Call α} {found : Option (α × List Char)}
    (others : List Char → Option (List α × List Char))
    (h : Yields (call parser cursor) engine
      (ladder.Parses source offset threshold engine found))
    (hothers : ∀ {payload : α} {shorter : List Char} {next : Cursor α} {engine' : Engine α},
      found = some (payload, shorter) → next.At source shorter → next.left = .empty →
      Kept ladder.layout source offset threshold engine engine' →
        Yields (inSequence call parsers next) engine'
          (ladder.Parts source offset threshold engine' (others shorter))) :
    Yields (inSequence call (parser :: parsers) cursor) engine
      (ladder.Parts source offset threshold engine
        (found.bind fun (payload, shorter) =>
          (others shorter).map (Prod.map (payload :: ·) id))) := by
  refine yields_inSequence_cons (h.mono ?_)
  rintro output engine' ⟨hmatches, hkept⟩
  cases found with
  | none =>
      obtain rfl := Matches.none_iff.mp hmatches
      exact ⟨trivial, hkept⟩
  | some found =>
      obtain ⟨payload, shorter⟩ := found
      obtain ⟨next, rfl, hat, hleft⟩ := Matches.some_iff.mp hmatches
      refine (hothers rfl hat hleft hkept).mono ?_
      rintro result engine'' ⟨hall, hkept'⟩
      refine ⟨?_, hkept.trans hkept'⟩
      rw [Option.bind_some]
      dsimp only
      cases hothers : others shorter with
      | none =>
          rw [hothers] at hall
          obtain rfl := MatchesAll.none_iff.mp hall
          trivial
      | some other =>
          obtain ⟨payloads, rest'⟩ := other
          rw [hothers] at hall
          obtain ⟨next', rfl, hat', hleft'⟩ := MatchesAll.some_iff.mp hall
          exact ⟨rfl, hat', hleft'⟩

theorem yields_sequence (bound : Nat) {combine : List α → α} {found : Option (List α × List Char)}
    (hfuel : bound + 1 ≤ fuel)
    (h : ∀ {fuel : Nat}, bound ≤ fuel →
      Yields (inSequence (run ladder.rules fuel) parsers cursor) engine
        (ladder.Parts source offset threshold engine found)) :
    Yields (run ladder.rules fuel (.sequence parsers combine) cursor) engine
      (ladder.Parses source offset threshold engine (found.map (Prod.map combine id))) := by
  obtain ⟨fuel, rfl⟩ := Nat.exists_eq_add_of_le' (Nat.le_of_add_left_le hfuel)
  refine Yields.bind ((h (Nat.le_of_succ_le_succ hfuel)).mono ?_)
  rintro result engine' ⟨hall, hkept⟩
  cases found with
  | none =>
      obtain rfl := MatchesAll.none_iff.mp hall
      exact Yields.pure ⟨trivial, hkept⟩
  | some found =>
      obtain ⟨next, rfl, hat, hleft⟩ := MatchesAll.some_iff.mp hall
      exact Yields.pure ⟨⟨rfl, hat, hleft⟩, hkept⟩

/-! ## Alternatives -/

theorem firstMatch_singleton (call : Call α) (parser : Parser α) (cursor : Cursor α) :
    firstMatch call [parser] cursor = call parser cursor := by
  funext engine
  simp only [firstMatch, Bind.bind, StateT.bind]
  cases call parser cursor engine with
  | error stop => rfl
  | ok result =>
      obtain ⟨output, engine'⟩ := result
      cases output <;> rfl

/-- A single alternative that stands for itself is run like a choice with one alternative. -/
theorem yields_anyOf (bound : Nat) {wrapped : Bool} {post : Option (Output α) → Engine α → Prop}
    (hfuel : bound + 1 ≤ fuel)
    (h : ∀ {fuel : Nat}, bound ≤ fuel →
      Yields (firstMatch (run ladder.rules fuel) parsers cursor) engine post) :
    Yields (run ladder.rules fuel (.anyOf wrapped parsers) cursor) engine post := by
  have hfirst : Yields (run ladder.rules fuel (.firstOf parsers) cursor) engine post := by
    obtain ⟨fuel, rfl⟩ := Nat.exists_eq_add_of_le' (Nat.le_of_add_left_le hfuel)
    exact h (Nat.le_of_succ_le_succ hfuel)
  match parsers, wrapped with
  | [], _ => exact hfirst
  | [parser], true => exact hfirst
  | [parser], false =>
      have hsingle := h (Nat.le_of_succ_le hfuel)
      rwa [firstMatch_singleton] at hsingle
  | _ :: _ :: _, _ => exact hfirst

theorem yields_firstMatch {call : Call α} {readers : List (Reader α)}
    (h : List.Forall₂ (fun parser reader => ∀ {engine' : Engine α},
      Kept ladder.layout source offset threshold engine engine' →
        Yields (call parser cursor) engine'
          (ladder.Parses source offset threshold engine' (reader rest))) parsers readers) :
    Yields (firstMatch call parsers cursor) engine
      (ladder.Parses source offset threshold engine (Reader.first readers rest)) := by
  suffices hall : ∀ engine', Kept ladder.layout source offset threshold engine engine' →
      Yields (firstMatch call parsers cursor) engine'
        (ladder.Parses source offset threshold engine' (Reader.first readers rest)) from
    hall engine (.refl engine)
  induction h with
  | nil => exact fun engine' _ => yields_firstMatch_nil ⟨trivial, .refl engine'⟩
  | @cons parser reader parsers readers hhead htail ih =>
      intro engine₁ hkept₁
      refine yields_firstMatch_cons ((hhead hkept₁).mono ?_)
      rintro output engine' ⟨hmatches, hkept⟩
      rw [Reader.first]
      cases hfound : reader rest with
      | some found =>
          rw [hfound] at hmatches
          obtain ⟨next, rfl, -, -⟩ := Matches.some_iff.mp hmatches
          exact ⟨hmatches, hkept⟩
      | none =>
          rw [hfound] at hmatches
          obtain rfl := Matches.none_iff.mp hmatches
          exact (ih engine' (hkept₁.trans hkept)).mono fun output engine'' hparses =>
            Parses.after hkept hparses

/-! ## Tokens and calls further on -/

theorem yields_token {filler payload : α} {text : String} (hfuel : byteLength rest + 6 < fuel)
    (hat : cursor.At source rest) (hleft : cursor.left = .empty) :
    Yields (run ladder.rules fuel (.token filler text payload) cursor) engine
      (ladder.Parses source offset threshold engine
        ((Reader.behind text rest).map (payload, ·))) :=
  (Parser.run_token hfuel hat hleft).mono fun _ _ hrun => ⟨hrun.1, .of_untouched hrun.2⟩

/-- Calls in front of less than the given number of bytes match what a reader reads. -/
def Later (ladder : Ladder α) (source : Source) (offset threshold bytes : Nat)
    (engine : Engine α) (bound : Nat) (same : Reader α) : Prop :=
  ∀ {next : Cursor α} {shorter : List Char} {engine' : Engine α} {fuel : Nat},
    next.At source shorter → byteLength shorter < bytes → next.left = .empty →
    Kept ladder.layout source offset threshold engine engine' → bound ≤ fuel →
      Yields (run ladder.rules fuel (.call 0) next) engine'
        (ladder.Parses source offset threshold engine' (same shorter))

theorem Later.kept (h : ladder.Later source offset threshold bytes engine bound same)
    (hkept : Kept ladder.layout source offset threshold engine engine') :
    ladder.Later source offset threshold bytes engine' bound same :=
  fun hat hbytes hleft hkept' hfuel => h hat hbytes hleft (hkept.trans hkept') hfuel

/-- Calls further on inside an alternative go on with this alternative. -/
theorem later_inside (hrung : ladder.rungs[i]? = some parser)
    (hrestarts : ∀ {fuel : Nat}, 3 ≤ fuel → restarts ladder.rules fuel parser = .ok false)
    (htop : (engine.climbing.get ladder.node).head? = some i)
    (hclimbs : ∀ fewer, fewer < bytes → ladder.Climbs source fewer i)
    (hat : cursor.At source rest) (hbytes : byteLength rest = bytes)
    (hready : Ready ladder.layout source cursor.offset threshold engine)
    (hbound : ladder.scale * bytes ≤ bound) :
    ladder.Later source cursor.offset threshold bytes engine bound
      (ladder.reads i) := by
  intro next shorter engine' fuel hnext hshorter hleft hkept hfuel
  have hlt := (hat.offset_lt_iff hnext).mpr (hbytes ▸ hshorter)
  have hdepth := ladder.depth_lt hshorter i
  refine (yields_call_inside hrung hrestarts (by rw [hkept.climbing, htop])
    (hclimbs _ hshorter) hnext rfl hleft ((hready.kept hkept).ahead (.of_lt hlt))
    (by omega)).mono ?_
  exact fun output engine'' hparses => hparses.wider (.of_lt hlt)

/-- An expression behind a sign. -/
theorem yields_sign (sign : Sign α)
    (hlater : ladder.Later source offset threshold bytes engine bound same)
    (hat : cursor.At source rest) (hbytes : byteLength rest ≤ bytes)
    (hleft : cursor.left = .empty) (hbound : byteLength rest + 6 < bound)
    (hfuel : bound + 1 ≤ fuel) :
    Yields (run ladder.rules fuel (sign.parser ladder.filler) cursor) engine
      (ladder.Parses source offset threshold engine (sign.unary.before same rest)) := by
  have hreads : sign.unary.before same rest =
      (((Reader.behind sign.text rest).map (sign.payload, ·)).bind fun (payload, shorter) =>
        ((same shorter).bind fun (payload, shorter) =>
          (some ([], shorter)).map (Prod.map (payload :: ·) id)).map
            (Prod.map (payload :: ·) id)).map (Prod.map sign.combine id) := by
    rw [Reader.Unary.before]
    change (Reader.behind sign.text rest).bind _ = _
    cases Reader.behind sign.text rest with
    | none => rfl
    | some shorter => cases hsame : same shorter <;> simp [hsame, Sign.unary, Prod.map]
  rw [hreads]
  refine yields_sequence bound hfuel fun {fuel} hfuel => ?_
  refine yields_parts_cons (fun shorter => (same shorter).bind fun (payload, shorter) =>
    (some ([], shorter)).map (Prod.map (payload :: ·) id))
    (yields_token (by omega) hat hleft) ?_
  intro payload shorter next engine' hfound hnext hleft hkept
  obtain ⟨shorter', hbehind, heq⟩ := Option.map_eq_some_iff.mp hfound
  cases heq
  have hlt := Reader.behind_lt sign.nonempty hbehind
  refine yields_parts_cons (fun shorter => some ([], shorter))
    (hlater hnext (by omega) hleft hkept hfuel) ?_
  exact fun _ hnext hleft _ => yields_parts_nil hnext hleft

/-- An expression with or without a sign in front of it. -/
theorem yields_signedCall (signs : List (Sign α))
    (hlater : ladder.Later source offset threshold bytes engine bound same)
    (hat : cursor.At source rest) (hbytes : byteLength rest < bytes)
    (hleft : cursor.left = .empty) (hbound : byteLength rest + 6 < bound)
    (hfuel : bound + 2 ≤ fuel) :
    Yields (run ladder.rules fuel (.signedCall ladder.filler signs) cursor) engine
      (ladder.Parses source offset threshold engine
        (Reader.signed (signs.map (·.unary)) same same rest)) := by
  have hcall {engine' : Engine α} {fuel : Nat} (hfuel : bound ≤ fuel)
      (hkept : Kept ladder.layout source offset threshold engine engine') :=
    hlater hat hbytes hleft hkept hfuel
  cases signs with
  | nil =>
      simp only [Parser.signedCall, List.map_nil, Reader.signed, List.nil_append, Reader.first,
        Option.or_none]
      exact hcall (by omega) (.refl engine)
  | cons sign signs =>
      rw [Parser.signedCall]
      generalize sign :: signs = signs
      obtain ⟨fuel, rfl⟩ := Nat.exists_eq_add_of_le' (Nat.le_of_add_left_le hfuel)
      refine yields_firstMatch (List.rel_append ?_ (.cons ?_ .nil))
      · rw [List.map_map, List.forall₂_map_left_iff, List.forall₂_map_right_iff]
        refine List.forall₂_same.mpr fun sign _ engine' hkept => ?_
        exact yields_sign sign (hlater.kept hkept) hat (Nat.le_of_lt hbytes) hleft hbound
          (by omega)
      · exact fun hkept => hcall (by omega) hkept

end Packrat.Ladder
