import Packrat.Proofs.Ladder.Climb

/-!
# Atoms and groups

The two kinds of rules above the operators that most grammars have: plain parsers, and whole
expressions between two symbols.
-/

namespace Packrat

open Text (byteLength)

variable {α : Type} {ladder : Ladder α}

namespace Primary

/-- A plain parser as a rule. -/
def atom (memo : Nat) (name : String) (parser : Parser α) : Primary α where
  memo := memo
  name := name
  parser := parser
  reading _ := parser.read

theorem atom_proper (memo : Nat) (name : String) (parser : Parser α) :
    (atom memo name parser).Proper where
  shrinks _ _ := parser.read_shrinks
  ahead _ _ _ _ _ := rfl

theorem atom_runs {memo : Nat} {name : String} {parser : Parser α}
    (hatomic : ladder.Atomic parser) : (atom memo name parser).Runs ladder :=
  Ladder.runs_atomic hatomic rfl

/-- An expression between two symbols, inside which precedence starts over. -/
def group (filler : α) (memo : Nat) (name : String) (opening closing : String)
    (payload payload' : α) : Primary α where
  memo := memo
  name := name
  parser := .nested (.sequence
    [.token filler opening payload, .call 0, .token filler closing payload']
    fun payloads => payloads.getD 1 filler)
  reading := Reader.between opening closing

section Group

variable {filler payload payload' : α} {memo : Nat} {name opening closing : String}

theorem group_proper (hopening : opening ≠ "") :
    (group filler memo name opening closing payload payload').Proper where
  shrinks _ h _ _ _ hread := Nat.le_of_lt (Reader.between_lt hopening h hread)
  ahead _ _ _ _ h := Reader.between_congr hopening h

theorem between_eq_all (filler payload payload' : α) (expression : Reader α) :
    Reader.between opening closing expression =
      .map (fun payloads => payloads.getD 1 filler)
        (.all [(Parser.token filler opening payload).read, expression,
          (Parser.token filler closing payload').read]) := by
  funext rest
  simp only [Reader.between, Reader.map, Reader.all, Parser.read_token]
  cases Reader.behind opening rest with
  | none => rfl
  | some shorter =>
      simp only [Option.bind_some, Option.map_some]
      cases expression shorter with
      | none => rfl
      | some found => cases h : Reader.behind closing found.2 <;> simp [h]

theorem token_lt {text : String} (htext : text ≠ "") {rest shorter : List Char} {x : α}
    (hread : (Parser.token filler text payload).read rest = some (x, shorter)) :
    byteLength shorter < byteLength rest := by
  rw [Parser.read_token] at hread
  obtain ⟨shorter', hbehind, heq⟩ := Option.map_eq_some_iff.mp hread
  cases heq
  exact Reader.behind_lt htext hbehind

theorem group_runs (hopening : opening ≠ "") (hshrinks : Reader.Shrinks ladder.expression) :
    (group filler memo name opening closing payload payload').Runs ladder := by
  refine Ladder.runs_nested rfl (Ladder.leads_sequence (.token filler payload opening)
    (fun _ _ _ => token_lt hopening) (fun hcall => ?_) fun reader hmem => ?_)
    (between_eq_all filler payload payload' _)
  · exact .cons (hcall.lower (Nat.zero_le 1))
      (.cons (Ladder.inside_atomic (.token filler payload' closing)) .nil)
  · rcases List.mem_cons.mp hmem with rfl | hmem
    · exact hshrinks
    · rw [List.mem_singleton.mp hmem]
      exact Parser.read_shrinks _

end Group

end Primary

end Packrat
