import Packrat.Proofs.Computation

/-!
# Computations side by side

`Tracks` says of two computations that they end alike from a state, and how: with a result and a
state that meet a condition, or with one of the stops that are allowed.  A run can so be compared
with itself under supervision or with a run that has more room.  With no stop allowed it says that
the run ends; with all stops allowed it speaks of the runs that end.
-/

namespace Packrat

variable {α β γ : Type}

/-- The outcome is a result and a state that meet a condition, or a stop that is allowed. -/
def Ends (allowed : Stop → Prop) (post : β → Engine α → Prop) : Except Stop (β × Engine α) → Prop
  | .ok (result, engine) => post result engine
  | .error stop => allowed stop

/-- Two computations end alike from a state, in the way that is asked for. -/
structure Tracks (allowed : Stop → Prop) (action action' : EngineM α β) (engine : Engine α)
    (post : β → Engine α → Prop) : Prop where
  same : action engine = action' engine
  ends : Ends allowed post (action' engine)

namespace Tracks

variable {allowed : Stop → Prop} {engine : Engine α} {post : β → Engine α → Prop}

theorem pure {result : β} (h : post result engine) :
    Tracks allowed (Pure.pure result : EngineM α β) (Pure.pure result) engine post :=
  ⟨rfl, h⟩

/-- A computation that is known to stop. -/
theorem of_stop {action : EngineM α β} {stop : Stop} (hrun : action engine = .error stop)
    (h : allowed stop) : Tracks allowed action action engine post :=
  ⟨rfl, by rw [hrun]; exact h⟩

theorem throw {stop : Stop} (h : allowed stop) :
    Tracks allowed (MonadExcept.throw stop : EngineM α β) (MonadExcept.throw stop) engine post :=
  of_stop rfl h

/-- A computation whose outcome is known. -/
theorem of_eq {action : EngineM α β} {result : β} {engine' : Engine α}
    (hrun : action engine = .ok (result, engine')) (h : post result engine') :
    Tracks allowed action action engine post :=
  ⟨rfl, by rw [hrun]; exact h⟩

/-- Two computations in a row. -/
theorem bind {action action' : EngineM α β} {next next' : β → EngineM α γ}
    {post : γ → Engine α → Prop}
    (h : Tracks allowed action action' engine fun result engine' =>
      Tracks allowed (next result) (next' result) engine' post) :
    Tracks allowed (action >>= next) (action' >>= next') engine post := by
  obtain ⟨hsame, hends⟩ := h
  have hopen : ∀ (action : EngineM α β) (next : β → EngineM α γ),
      (action >>= next) engine =
        match action engine with
        | .ok (result, engine') => next result engine'
        | .error stop => .error stop := by
    intro action next
    simp only [Bind.bind, StateT.bind, Except.bind]
    cases action engine <;> rfl
  constructor
  · rw [hopen, hopen, hsame]
    cases hrun : action' engine with
    | error stop => rfl
    | ok pair =>
        rw [hrun] at hends
        exact hends.same
  · rw [hopen]
    cases hrun : action' engine with
    | error stop =>
        rw [hrun] at hends
        exact hends
    | ok pair =>
        rw [hrun] at hends
        exact hends.ends

theorem mono {action action' : EngineM α β} {weaker : β → Engine α → Prop}
    (h : Tracks allowed action action' engine post)
    (himp : ∀ result engine', post result engine' → weaker result engine') :
    Tracks allowed action action' engine weaker := by
  refine ⟨h.same, ?_⟩
  have hends := h.ends
  cases hrun : action' engine with
  | error stop =>
      rw [hrun] at hends
      exact hends
  | ok pair =>
      rw [hrun] at hends
      exact himp _ _ hends

/-- What is known of one of the two computations in another way. -/
theorem and {allowed' : Stop → Prop} {action action' action'' : EngineM α β}
    {post' : β → Engine α → Prop} (h : Tracks allowed action action' engine post)
    (h' : Tracks allowed' action'' action' engine post') :
    Tracks allowed action action' engine fun result engine' =>
      post result engine' ∧ post' result engine' := by
  refine ⟨h.same, ?_⟩
  have hends := h.ends
  have hends' := h'.ends
  cases hrun : action' engine with
  | error stop =>
      rw [hrun] at hends
      exact hends
  | ok pair =>
      rw [hrun] at hends hends'
      exact ⟨hends, hends'⟩

/-- What is known of a computation alone. -/
theorem self {action action' : EngineM α β} (h : Tracks allowed action action' engine post) :
    Tracks allowed action' action' engine post :=
  ⟨rfl, h.ends⟩

/-- What a computation is like that ended with a result. -/
theorem of_ok {action action' : EngineM α β} {result : β} {engine' : Engine α}
    (h : Tracks allowed action action' engine post)
      (hrun : action' engine = .ok (result, engine')) :
    post result engine' := by
  have hends := h.ends
  rw [hrun] at hends
  exact hends

/-- A computation that may not stop returns. -/
theorem yields {action action' : EngineM α β}
    (h : Tracks (fun _ => False) action action' engine post) : Yields action' engine post := by
  have hends := h.ends
  cases hrun : action' engine with
  | error stop =>
      rw [hrun] at hends
      exact hends.elim
  | ok pair => exact Yields.of_eq hrun (h.of_ok hrun)

end Tracks

/-- A computation that returns ends as it does itself. -/
theorem Yields.tracks {action : EngineM α β} {engine : Engine α} {post : β → Engine α → Prop}
    {allowed : Stop → Prop} (h : Yields action engine post) :
    Tracks allowed action action engine post := by
  obtain ⟨result, engine', hrun, hpost⟩ := h
  exact Tracks.of_eq hrun hpost

/-- The state meets a condition, and a match, if there is one, is good. -/
def Leaves (inv : Engine α → Prop) (good : Output α → Prop) (found : Option (Output α))
    (engine : Engine α) : Prop :=
  inv engine ∧ ∀ output, found = some output → good output

namespace Leaves

variable {inv : Engine α → Prop} {good : Output α → Prop} {engine : Engine α}

theorem none (h : inv engine) : Leaves inv good none engine :=
  ⟨h, fun _ hfound => by cases hfound⟩

theorem some {output : Output α} (h : inv engine) (hgood : good output) :
    Leaves inv good (some output) engine :=
  ⟨h, fun _ hfound => by cases hfound; exact hgood⟩

theorem good_of_some {output : Output α} (h : Leaves inv good (.some output) engine) :
    good output :=
  h.2 output rfl

theorem mono {inv' : Engine α → Prop} {good' : Output α → Prop} {found : Option (Output α)}
    {engine' : Engine α} (h : Leaves inv good found engine) (hinv : inv engine → inv' engine')
    (hgood : ∀ output, good output → good' output) : Leaves inv' good' found engine' :=
  ⟨hinv h.1, fun output hfound => hgood output (h.2 output hfound)⟩

end Leaves

/-- A match that is good is so under any condition. -/
theorem Tracks.leaves_imp {allowed : Stop → Prop} {action action' : EngineM α (Option (Output α))}
    {engine : Engine α} {inv : Engine α → Prop} {good condition : Output α → Prop}
    (h : Tracks allowed action action' engine (Leaves inv good)) :
    Tracks allowed action action' engine
      (Leaves inv fun output => condition output → good output) :=
  h.mono fun _ _ hleaves => hleaves.mono (fun h => h) fun _ hgood _ => hgood

end Packrat
