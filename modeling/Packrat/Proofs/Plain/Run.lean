import Packrat.Proofs.Plain.Choices
import Packrat.Proofs.Plain.Sequences

/-!
# Running plain parsers

`run_plain` is the main statement: a plain parser, run from any state in which its own guards and
precedence nodes are idle, finds what `Parser.means` says, and leaves all of the state that other
parsers can see as it was.
-/

namespace Packrat

variable {α : Type}

namespace Engine

variable {call : Call α} {limit fuel : Nat} {rules : Rules α} {parser : Parser α}
  {parsers : List (Parser α)} {cursor : Cursor α} {source : Source} {rest : List Char}
  {engine : Engine α}

theorem endOfInput_reads {payload : α} :
    Reads (step rules fuel call) limit (.endOfInput payload) := by
  intro cursor source rest engine hat hlimit hidle
  refine Yields.pure ⟨?_, .refl engine⟩
  cases rest with
  | nil =>
      rw [hat.atEnd_iff.mpr rfl]
      exact ⟨rfl, hat, rfl⟩
  | cons c cs =>
      rw [if_neg (fun hend => by cases hat.atEnd_iff.mp hend)]
      trivial

theorem optional_reads {wrap : Option α → α} (hcall : Reads call limit parser) :
    Reads (step rules fuel call) limit (.optional parser wrap) := by
  intro cursor source rest engine hat hlimit hidle
  refine Yields.bind ((hcall hat hlimit hidle).mono ?_)
  rintro output engine' ⟨hland, hsame⟩
  rw [Parser.means]
  cases hmeans : parser.means cursor.left.content rest with
  | none =>
      rw [hmeans] at hland
      obtain rfl := Lands.none_iff.mp hland
      exact Yields.pure ⟨⟨rfl, hat, rfl⟩, hsame⟩
  | some found =>
      rw [hmeans] at hland
      obtain ⟨next, rfl, hnext, hleft⟩ := Lands.some_iff.mp hland
      exact Yields.pure ⟨⟨rfl, hnext, hleft⟩, hsame⟩

theorem convert_reads {f : α → Option α} (hcall : Reads call limit parser) :
    Reads (step rules fuel call) limit (.convert parser f) := by
  intro cursor source rest engine hat hlimit hidle
  refine Yields.bind ((hcall hat hlimit hidle).mono ?_)
  rintro output engine' ⟨hland, hsame⟩
  rw [Parser.means]
  cases hmeans : parser.means cursor.left.content rest with
  | none =>
      rw [hmeans] at hland
      obtain rfl := Lands.none_iff.mp hland
      exact Yields.pure ⟨trivial, hsame⟩
  | some found =>
      rw [hmeans] at hland
      obtain ⟨next, rfl, hnext, hleft⟩ := Lands.some_iff.mp hland
      refine Yields.pure ⟨?_, hsame⟩
      simp only [Option.bind_some]
      cases f found.payload with
      | none => trivial
      | some payload => exact ⟨rfl, hnext, hleft⟩

theorem guarded_reads {id : Nat} (hcall : Reads call limit parser) (hid : id ∉ parser.guards) :
    Reads (step rules fuel call) limit (.guarded id parser) := by
  intro cursor source rest engine hat hlimit hidle
  have hfree := hidle.free id List.mem_cons_self cursor.offset (Nat.le_refl _)
  refine yields_guardedMatch_free hfree ((hcall hat hlimit
    ((idle_guarded hidle).entered hid cursor.offset)).mono ?_)
  rintro output engine' ⟨hland, hsame⟩
  exact ⟨hland, hsame.freed⟩

theorem logged_reads {name : String} (hcall : Reads call limit parser) :
    Reads (step rules fuel call) limit (.logged name parser) := by
  intro cursor source rest engine hat hlimit hidle
  refine yields_loggedMatch ((hcall hat hlimit (hidle.untouched (.recorded engine _))).mono ?_)
  rintro output engine' ⟨hland, hsame⟩
  exact ⟨hland, ((Untouched.recorded engine _).trans hsame).trans (.recorded engine' _)⟩

/-- A plain node finds what it means if its parts do. -/
theorem step_reads (hplain : parser.plain = true)
    (hparts : ∀ part ∈ parser.children, Reads call limit part) (hfuel : limit < fuel) :
    Reads (step rules fuel call) limit parser := by
  cases parser with
  | satisfy accepts payload =>
      exact fun _ _ _ engine hat _ _ => Yields.pure ⟨takeChar_lands hat _, .refl engine⟩
  | literal chars payload =>
      exact fun _ _ _ engine hat _ _ => Yields.pure ⟨takeLiteral_lands hat _, .refl engine⟩
  | endOfInput payload => exact endOfInput_reads
  | except parser excluded =>
      obtain ⟨hparser, hexcluded⟩ := List.forall_mem_cons.mp hparts
      exact except_reads hparser hexcluded
  | firstOf alternatives => exact fun _ _ _ _ => firstMatch_reads hparts
  | longestOf alternatives =>
      exact fun _ _ _ _ hat hlimit hidle => longestMatch_reads hparts hat hlimit hidle trivial
  | sequence parts combine => exact sequence_reads hparts
  | foldLeft first middle last combine =>
      obtain ⟨hfirst, hmiddle, hlast⟩ := Parser.forall_mem_children_foldLeft.mp hparts
      exact fun _ _ _ _ => foldStep_reads hfirst hmiddle hlast
  | repeated parser atLeast atMost collect =>
      exact repeated_reads (hparts parser List.mem_cons_self) hfuel
  | optional parser wrap => exact optional_reads (hparts parser List.mem_cons_self)
  | convert parser f => exact convert_reads (hparts parser List.mem_cons_self)
  | guarded id parser =>
      exact guarded_reads (hparts parser List.mem_cons_self) (Parser.plain_guarded.mp hplain).2
  | climb id alternatives => exact climb_reads hparts (Parser.plain_climb.mp hplain).2
  | nested parser =>
      have hparser := hparts parser List.mem_cons_self
      exact fun _ _ _ _ hat hlimit hidle => hparser hat hlimit hidle
  | logged name parser => exact logged_reads (hparts parser List.mem_cons_self)
  | memo id cache parser | clearing id cache parser | call rule | redirected move parser =>
      cases hplain

end Engine

open Engine in
/-- Every run of a plain parser finds what the parser means, and leaves the state as it was. -/
theorem run_plain (rules : Rules α) {fuel limit : Nat} {parser : Parser α}
    (hplain : parser.plain = true) (hfuel : parser.size + limit < fuel) :
    Reads (run rules fuel) limit parser := by
  induction fuel generalizing parser with
  | zero => exact absurd hfuel (Nat.not_lt_zero _)
  | succ fuel ih =>
      have hpos := parser.size_pos
      apply step_reads hplain
      · intro part hpart
        have hsize := Parser.size_lt_of_mem_children hpart
        exact ih (Parser.plain_of_mem_children hplain hpart) (by omega)
      · omega

end Packrat
