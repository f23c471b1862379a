import Packrat.Trace

/-!
# Calls inside calls

A forest holds calls in order, each with the calls made inside it.  Its events are those that the
logged parsers of a run record, and `draw` writes it without counting what is open: the text of a
trace is the drawing of its forest.  Without the codes of its colors a text is the plain one.
-/

namespace Packrat

/-- Calls in order, each with those that were made inside it. -/
inductive Forest where
  | empty
  /-- A call that stopped at `stop?` if it matched, and the calls after it. -/
  | call (rule : String) (offset : Nat) (left : LeftKey) (stop? : Option Nat)
      (inner later : Forest)

/-- The rule that is called or comes back. -/
def Event.rule : Event → String
  | .entered rule _ _ => rule
  | .returned rule _ _ => rule

namespace Forest

/-- The events of the calls, in the order in which they happen. -/
def events : Forest → List Event
  | .empty => []
  | .call rule offset left stop? inner later =>
      .entered rule offset left :: inner.events ++ .returned rule offset stop? :: later.events

/--
No call is made before `place`, none stops before it began, and none is made before the one that it
lies in.
-/
def Ordered : Nat → Forest → Prop
  | _, .empty => True
  | place, .call _ offset _ stop? inner later =>
      place ≤ offset ∧ (∀ stop, stop? = some stop → offset ≤ stop) ∧ inner.Ordered offset ∧
        later.Ordered place

/-- The calls of one forest and then those of another. -/
def append : Forest → Forest → Forest
  | .empty, others => others
  | .call rule offset left stop? inner later, others =>
      .call rule offset left stop? inner (later.append others)

/--
The lines of the calls.  A call and its return stand at the same depth, and the calls inside it are
one deeper.
-/
def draw (palette : Palette) : Nat → Forest → List String
  | _, .empty => []
  | depth, .call rule offset left stop? inner later =>
      (Trace.indent depth ++ "> " ++ palette.paint palette.rule rule ++ " at " ++
          toString offset ++ palette.paint palette.dim (Trace.marker left) ++ "\n") ::
        inner.draw palette (depth + 1) ++
        (Trace.indent depth ++ "< " ++ palette.paint palette.rule rule ++ " at " ++
          toString offset ++ ": " ++
          (match stop? with
            | some stop =>
                palette.paint palette.matched
                  ("matched " ++ toString offset ++ ".." ++ toString stop)
            | none => palette.paint palette.failed "no match") ++ "\n") ::
        later.draw palette depth

variable {forest others : Forest} {place place' : Nat}

theorem events_append (forest others : Forest) :
    (forest.append others).events = forest.events ++ others.events := by
  induction forest with
  | empty => rfl
  | call rule offset left stop? inner later _ ih =>
      simp only [append, events, ih, List.cons_append, List.append_assoc]

theorem Ordered.mono (h : forest.Ordered place) (hle : place' ≤ place) :
    forest.Ordered place' := by
  induction forest with
  | empty => trivial
  | call rule offset left stop? inner later _ ih =>
      obtain ⟨hplace, hstop, hinner, hlater⟩ := h
      exact ⟨Nat.le_trans hle hplace, hstop, hinner, ih hlater⟩

theorem Ordered.append (h : forest.Ordered place) (hothers : others.Ordered place) :
    (forest.append others).Ordered place := by
  induction forest with
  | empty => exact hothers
  | call rule offset left stop? inner later _ ih =>
      obtain ⟨hplace, hstop, hinner, hlater⟩ := h
      exact ⟨hplace, hstop, hinner, ih hlater⟩

/-- There is one line for each event. -/
theorem length_draw (palette : Palette) (depth : Nat) (forest : Forest) :
    (forest.draw palette depth).length = forest.events.length := by
  induction forest generalizing depth with
  | empty => rfl
  | call rule offset left stop? inner later ihinner ihlater =>
      simp only [draw, events, List.cons_append, List.length_cons, List.length_append, ihinner,
        ihlater]

end Forest

namespace Trace

/-- Behind the events of a forest as many calls are open as before; its lines are drawn. -/
theorem lines_events (palette : Palette) (depth : Nat) (forest : Forest) (rest : List Event) :
    lines palette depth (forest.events ++ rest) =
      forest.draw palette depth ++ lines palette depth rest := by
  induction forest generalizing depth rest with
  | empty => rfl
  | call rule offset left stop? inner later ihinner ihlater =>
      cases stop? <;>
        simp only [Forest.events, Forest.draw, List.cons_append, List.append_assoc, lines, ihinner,
          depthAfter, line, Nat.add_sub_cancel, ihlater]

/-- The text of a trace is the drawing of its calls. -/
theorem callTree_events {trace : Trace} {forest : Forest} (h : trace.toList = forest.events)
    (palette : Palette) : trace.callTree palette = String.join (forest.draw palette 0) := by
  have hlines := lines_events palette 0 forest []
  rw [List.append_nil, lines, List.append_nil] at hlines
  rw [callTree, h, hlines]

end Trace

/-! ## Colors -/

namespace Palette

/-- The text without color codes; a code begins with an escape and ends with an `m`. -/
def uncolored : (inside : Bool) → List Char → List Char
  | _, [] => []
  | true, c :: cs => uncolored (c != 'm') cs
  | false, c :: cs => if c = '\x1b' then uncolored true cs else c :: uncolored false cs

theorem uncolored_append {chars : List Char} (h : '\x1b' ∉ chars) (rest : List Char) :
    uncolored false (chars ++ rest) = chars ++ uncolored false rest := by
  induction chars with
  | nil => rfl
  | cons c cs ih =>
      rw [List.mem_cons, not_or] at h
      rw [List.cons_append, uncolored, if_neg (Ne.symm h.1), ih h.2, List.cons_append]

/-- Without its color codes the first text is the second, whatever stands behind them. -/
def Uncolors (painted text : String) : Prop :=
  ∀ rest, uncolored false (painted.toList ++ rest) = text.toList ++ uncolored false rest

namespace Uncolors

variable {painted painted' text text' code : String}

theorem of_clean (h : '\x1b' ∉ text.toList) : Uncolors text text := uncolored_append h

theorem append (h : Uncolors painted text) (h' : Uncolors painted' text') :
    Uncolors (painted ++ painted') (text ++ text') := by
  intro rest
  rw [String.toList_append, List.append_assoc, h, h', String.toList_append, List.append_assoc]

theorem paint (hcode : Uncolors code "") (h : Uncolors text text) :
    Uncolors (colored.paint code text) (plain.paint "" text) :=
  (hcode.append h).append fun _ => rfl

/-- A number has no color. -/
theorem toString_nat (n : Nat) : Uncolors (toString n) (toString n) := by
  refine of_clean fun hmem => ?_
  rw [Nat.toString_eq_repr, Nat.toList_repr] at hmem
  exact absurd (Nat.isDigit_of_mem_toDigits (by decide) (by decide) hmem) (by decide)

theorem indent (depth : Nat) : Uncolors (Trace.indent depth) (Trace.indent depth) := by
  refine of_clean fun hmem => ?_
  rw [Trace.indent, String.toList_ofList] at hmem
  exact absurd (List.eq_of_mem_replicate hmem) (by decide)

theorem marker (left : LeftKey) :
    Uncolors (colored.paint colored.dim (Trace.marker left))
      (plain.paint plain.dim (Trace.marker left)) := by
  refine paint (fun _ => rfl) (of_clean ?_)
  cases left with
  | empty => decide
  | rightOperand => decide
  | operand tag => exact (by decide : '\x1b' ∉ " (extending)".toList)

/-- The line of an event of a rule whose name has no color codes. -/
theorem line (depth : Nat) {event : Event} (h : '\x1b' ∉ event.rule.toList) :
    Uncolors (Trace.line colored depth event) (Trace.line plain depth event) := by
  have hrule : Uncolors (colored.paint colored.rule event.rule)
      (plain.paint plain.rule event.rule) := paint (fun _ => rfl) (of_clean h)
  have hbreak : Uncolors "\n" "\n" := of_clean (by decide)
  have hat : Uncolors " at " " at " := of_clean (by decide)
  cases event with
  | entered rule offset left =>
      have hopen : Uncolors "> " "> " := of_clean (by decide)
      have hhead := (((indent depth).append hopen).append hrule).append hat
      exact ((hhead.append (toString_nat offset)).append (marker left)).append hbreak
  | returned rule offset stop? =>
      have hopen : Uncolors "< " "< " := of_clean (by decide)
      have hcolon : Uncolors ": " ": " := of_clean (by decide)
      have hhead := (((indent (depth - 1)).append hopen).append hrule).append hat
      refine (((hhead.append (toString_nat offset)).append hcolon).append ?_).append hbreak
      cases stop? with
      | none => exact paint (fun _ => rfl) (of_clean (by decide))
      | some stop =>
          have hmatched : Uncolors "matched " "matched " := of_clean (by decide)
          have hdots : Uncolors ".." ".." := of_clean (by decide)
          exact paint (fun _ => rfl)
            (((hmatched.append (toString_nat offset)).append hdots).append (toString_nat stop))

/-- The text of a trace of rules whose names have no color codes. -/
theorem lines (depth : Nat) {events : List Event}
    (h : ∀ event ∈ events, '\x1b' ∉ event.rule.toList) :
    Uncolors (String.join (Trace.lines colored depth events))
      (String.join (Trace.lines plain depth events)) := by
  induction events generalizing depth with
  | nil => exact fun _ => rfl
  | cons event events ih =>
      obtain ⟨hevent, hevents⟩ := List.forall_mem_cons.mp h
      rw [Trace.lines, Trace.lines, String.join_cons, String.join_cons]
      exact (line depth hevent).append (ih _ hevents)

end Uncolors

end Palette

/-- Where no name of a rule has color codes, a colored trace is the plain one with codes added. -/
theorem Trace.uncolored_callTree {trace : Trace}
    (h : ∀ event ∈ trace.toList, '\x1b' ∉ event.rule.toList) :
    String.ofList (Palette.uncolored false (trace.callTree .colored).toList) =
      trace.callTree .plain := by
  have huncolors := Palette.Uncolors.lines 0 h []
  rw [List.append_nil, Palette.uncolored, List.append_nil] at huncolors
  rw [callTree, huncolors, String.ofList_toList, callTree]

end Packrat
