import Packrat.Proofs.Mirror.Basic
import Packrat.Proofs.Nodes

/-!
# What a node leaves to its parts

Most nodes keep nothing in the engine: whatever happens to the state is the doing of the parts that
they call.  A condition on the state that every call keeps, whatever cursor it begins at, is so kept
by the node; for the nodes that do keep something there is a rule each among those for combinators.
-/

namespace Packrat.Engine

variable {α : Type} {call call' : Call α} {engine : Engine α} {cursor : Cursor α}
  {parser : Parser α} {parsers : List (Parser α)} {inv : Engine α → Prop}

/-- A part that is called at any cursor goes its way in both runs, and keeps the condition. -/
def Kept (inv : Engine α → Prop) (call call' : Call α) (part : Parser α) : Prop :=
  ∀ cursor engine, inv engine →
    Tracks (fun _ => True) (call part cursor) (call' part cursor) engine fun _ => inv

namespace Kept

theorem leaves (hpart : Kept inv call call' parser) (h : inv engine) :
    Tracks (fun _ => True) (call parser cursor) (call' parser cursor) engine
      (Leaves inv fun _ => True) :=
  (hpart cursor engine h).mono fun _ _ hinv => ⟨hinv, fun _ _ => trivial⟩

theorem inSequence (hparts : ∀ part ∈ parsers, Kept inv call call' part) (h : inv engine) :
    Tracks (fun _ => True) (inSequence call parsers cursor) (inSequence call' parsers cursor) engine
      fun _ => inv := by
  apply (tracks_inSequence (fun parsers _ => ∀ part ∈ parsers, Kept inv call call' part)
    (fun _ _ _ _ => True) (fun _ _ => trivial) _ hparts h).mono
  · exact fun _ _ hpost => hpost.1
  · intro parser parsers cursor engine hready h
    obtain ⟨hhead, htail⟩ := List.forall_mem_cons.mp hready
    exact (hhead cursor engine h).mono fun _ _ hinv =>
      ⟨hinv, fun _ _ => ⟨htail, fun _ _ _ => trivial⟩⟩

theorem repeatMatch {atMost : Option Nat} {fuel count : Nat} {payloads : List α}
    (hpart : Kept inv call call' parser) (h : inv engine) :
    Tracks (fun _ => True) (repeatMatch call parser atMost fuel payloads count cursor)
      (repeatMatch call' parser atMost fuel payloads count cursor) engine fun _ => inv := by
  induction fuel generalizing payloads count cursor engine with
  | zero => exact Tracks.throw trivial
  | succ fuel ih =>
      simp only [Engine.repeatMatch]
      cases allows atMost count with
      | false => exact Tracks.pure h
      | true =>
          apply Tracks.bind
          apply (hpart cursor engine h).mono
          rintro (_ | output) engine' hinv
          · exact Tracks.pure hinv
          · by_cases hmoved : cursor.offset < output.next.offset
            · simp only [hmoved, if_true]
              exact ih hinv
            · simp only [hmoved, if_false]
              exact Tracks.pure hinv

theorem leftOperand (hpart : Kept inv call call' parser) (h : inv engine) :
    Tracks (fun _ => True) (leftOperand call parser cursor) (leftOperand call' parser cursor) engine
      fun _ => inv :=
  tracks_leftOperand (fun _ => hpart cursor engine h) (fun _ _ _ => h) fun _ => h

theorem rightOperand (hpart : Kept inv call call' parser) (h : inv engine) :
    Tracks (fun _ => True) (rightOperand call parser cursor) (rightOperand call' parser cursor)
      engine fun _ => inv :=
  tracks_rightOperand (hpart _ engine h)

theorem foldStep {left right : Parser α} {middle : List (Parser α)} {combine : List α → α}
    (hleft : Kept inv call call' left) (hmiddle : ∀ part ∈ middle, Kept inv call call' part)
    (hright : Kept inv call call' right) (htagged : ∀ engine, inv engine → inv engine.tagged)
    (h : inv engine) :
    Tracks (fun _ => True) (foldStep call left middle right combine cursor)
      (foldStep call' left middle right combine cursor) engine fun _ => inv := by
  apply tracks_foldStep
  apply (hleft.leftOperand h).mono
  rintro (_ | first) engine hinv
  · exact hinv
  apply (inSequence hmiddle hinv).mono
  rintro (_ | ⟨payloads, behind⟩) engine hinv
  · exact hinv
  apply (hright.rightOperand hinv).mono
  rintro (_ | last) engine hinv
  · exact hinv
  exact hleft _ _ (htagged engine hinv)

end Kept

variable {rules : Rules α} {fuel : Nat}

/-- A node that keeps nothing in the engine keeps what its calls keep. -/
theorem tracks_stateless (hstateless : parser.Stateless)
    (hcall : ∀ part, rules.Calls parser part → Kept inv call call' part)
    (htagged : ∀ engine, inv engine → inv engine.tagged) (h : inv engine) :
    Tracks (fun _ => True) (step rules fuel call parser cursor)
      (step rules fuel call' parser cursor) engine fun _ => inv := by
  have hparts : ∀ part ∈ parser.children, Kept inv call call' part :=
    fun part hpart => hcall part (.child hpart)
  have hall : ∀ part ∈ parser.children, ∀ engine, inv engine →
      Tracks (fun _ => True) (call part cursor) (call' part cursor) engine
        (Leaves inv fun _ => True) := fun part hpart _ hinv => (hparts part hpart).leaves hinv
  cases parser with
  | satisfy accepts payload => exact Tracks.pure h
  | literal chars payload => exact Tracks.pure h
  | endOfInput payload => exact Tracks.pure h
  | except parser excluded =>
      obtain ⟨hparser, hexcluded⟩ := List.forall_mem_cons.mp hall
      exact (tracks_unlessMatch hexcluded hparser h).mono fun _ _ => And.left
  | firstOf alternatives => exact (tracks_firstMatch hall h).mono fun _ _ => And.left
  | longestOf alternatives =>
      exact (tracks_longestMatch hall (fun _ _ => trivial) h).mono fun _ _ => And.left
  | sequence parts combine =>
      apply Tracks.bind
      apply (Kept.inSequence hparts h).mono
      rintro (_ | ⟨payloads, next⟩) engine hinv <;> exact Tracks.pure hinv
  | foldLeft left middle right combine =>
      obtain ⟨hleft, hmiddle, hright⟩ := Parser.forall_mem_children_foldLeft.mp hparts
      exact Kept.foldStep hleft hmiddle hright htagged h
  | repeated parser atLeast atMost collect =>
      apply Tracks.bind
      apply (Kept.repeatMatch (hparts parser List.mem_cons_self) h).mono
      rintro ⟨payloads, count, next⟩ engine hinv
      by_cases hfew : count < atLeast
      · simp only [hfew, if_true]
        exact Tracks.pure hinv
      · simp only [hfew, if_false]
        exact Tracks.pure hinv
  | optional parser wrap =>
      apply Tracks.bind
      apply (hparts parser List.mem_cons_self cursor engine h).mono
      rintro (_ | output) engine hinv <;> exact Tracks.pure hinv
  | convert parser f =>
      apply Tracks.bind
      apply (hparts parser List.mem_cons_self cursor engine h).mono
      rintro (_ | output) engine hinv <;> exact Tracks.pure hinv
  | nested parser => exact hparts parser List.mem_cons_self cursor engine h
  | call rule =>
      apply tracks_call
      · exact fun body hbody => hcall body (.body hbody) cursor engine h
      · exact fun _ => h
      · exact fun _ => trivial
  | _ => exact hstateless.elim

/-- A node that moves the cursor by hand calls its part somewhere, or stops. -/
theorem tracks_redirected {move : Cursor α → Except Fault (Cursor α)} {allowed : Stop → Prop}
    {post : Option (Output α) → Engine α → Prop}
    (h : ∀ next, Tracks allowed (call parser next) (call' parser next) engine post)
    (hfault : ∀ fault, allowed (.fault fault)) :
    Tracks allowed (step rules fuel call (.redirected move parser) cursor)
      (step rules fuel call' (.redirected move parser) cursor) engine post := by
  simp only [step]
  cases move cursor with
  | ok next => exact h next
  | error fault => exact Tracks.throw (hfault fault)

end Packrat.Engine
