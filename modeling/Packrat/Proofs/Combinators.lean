import Packrat.Proofs.Tracking.Combinators

/-!
# Rules for the combinators

One rule for each piece of the interpreter: what has to be known of the calls that a combinator
makes for the combinator to yield a given outcome.  Where the rule for two runs side by side asks
for the same, it is that rule for a run beside itself.
-/

namespace Packrat.Engine

variable {α : Type} {call : Call α} {engine : Engine α} {cursor : Cursor α} {id : Nat}
  {parser : Parser α} {parsers : List (Parser α)}
  {post : Option (Output α) → Engine α → Prop}

/-! ## Alternatives -/

theorem yields_firstMatch_nil (h : post none engine) :
    Yields (firstMatch call [] cursor) engine post :=
  Yields.pure h

theorem yields_firstMatch_cons
    (h : Yields (call parser cursor) engine fun found engine' =>
      match found with
      | some output => post (some output) engine'
      | none => Yields (firstMatch call parsers cursor) engine' post) :
    Yields (firstMatch call (parser :: parsers) cursor) engine post := by
  refine Yields.bind (h.mono fun found engine' hpost => ?_)
  cases found with
  | none => exact hpost
  | some output => exact Yields.pure hpost

theorem yields_longestMatch_nil {best : Option (Output α)} (h : post best engine) :
    Yields (longestMatch call best [] cursor) engine post :=
  Yields.pure h

theorem yields_longestMatch_cons {best : Option (Output α)}
    (h : Yields (call parser cursor) engine fun found engine' =>
      match found with
      | some output =>
          Yields (longestMatch call (some (longer best output)) parsers cursor) engine' post
      | none => Yields (longestMatch call best parsers cursor) engine' post) :
    Yields (longestMatch call best (parser :: parsers) cursor) engine post := by
  refine Yields.bind (h.mono fun found engine' hpost => ?_)
  cases found with
  | none => exact hpost
  | some output => exact hpost

theorem yields_unlessMatch
    (h : Yields (firstMatch call parsers cursor) engine fun found engine' =>
      match found with
      | some _ => post none engine'
      | none => Yields (call parser cursor) engine' post) :
    Yields (unlessMatch call parser parsers cursor) engine post := by
  refine Yields.bind (h.mono fun found engine' hpost => ?_)
  cases found with
  | none => exact hpost
  | some output => exact Yields.pure hpost

/-! ## Sequences and repetition -/

section Sequences

variable {post : Option (List α × Cursor α) → Engine α → Prop}

theorem yields_inSequence_nil (h : post (some ([], cursor)) engine) :
    Yields (inSequence call [] cursor) engine post :=
  Yields.pure h

theorem yields_inSequence_cons
    (h : Yields (call parser cursor) engine fun found engine' =>
      match found with
      | none => post none engine'
      | some output => Yields (inSequence call parsers output.next) engine' fun rest engine'' =>
          post (rest.map fun (payloads, next) => (output.payload :: payloads, next)) engine'') :
    Yields (inSequence call (parser :: parsers) cursor) engine post := by
  refine Yields.bind (h.mono fun found engine' hpost => ?_)
  cases found with
  | none => exact Yields.pure hpost
  | some output =>
      refine Yields.bind (hpost.mono fun rest engine'' hrest => ?_)
      cases rest with
      | none => exact Yields.pure hrest
      | some rest => exact Yields.pure hrest

end Sequences

section Repetition

variable {atMost : Option Nat} {fuel count : Nat} {payloads : List α}
  {post : List α × Nat × Cursor α → Engine α → Prop}

theorem yields_repeatMatch_full (hfull : allows atMost count = false)
    (h : post (payloads, count, cursor) engine) :
    Yields (repeatMatch call parser atMost (fuel + 1) payloads count cursor) engine post := by
  simp only [repeatMatch, hfull]
  exact Yields.pure h

theorem yields_repeatMatch_succ (hroom : allows atMost count = true)
    (h : Yields (call parser cursor) engine fun found engine' =>
      match found with
      | none => post (payloads, count, cursor) engine'
      | some output =>
          if cursor.offset < output.next.offset then
            Yields (repeatMatch call parser atMost fuel (output.payload :: payloads) (count + 1)
              output.next) engine' post
          else post (output.payload :: payloads, count + 1, output.next) engine') :
    Yields (repeatMatch call parser atMost (fuel + 1) payloads count cursor) engine post := by
  simp only [repeatMatch, hroom]
  refine Yields.bind (h.mono fun found engine' hpost => ?_)
  cases found with
  | none => exact Yields.pure hpost
  | some output =>
      by_cases hmoved : cursor.offset < output.next.offset
      · simpa only [hmoved, if_true] using hpost
      · simp only [hmoved, if_false] at hpost ⊢
        exact Yields.pure hpost

end Repetition

theorem yields_repetition {fuel atLeast : Nat} {atMost : Option Nat} {collect : List α → α}
    (h : Yields (repeatMatch call parser atMost fuel [] 0 cursor) engine fun result engine' =>
      post (if result.2.1 < atLeast then none
        else some ⟨collect result.1.reverse, result.2.2⟩) engine') :
    Yields (repetition call fuel parser atLeast atMost collect cursor) engine post := by
  refine Yields.bind (h.mono fun result engine' hpost => ?_)
  by_cases hfew : result.2.1 < atLeast
  · simp only [hfew, if_true] at hpost ⊢
    exact Yields.pure hpost
  · simp only [hfew, if_false] at hpost ⊢
    exact Yields.pure hpost

/-! ## Left recursion -/

theorem yields_rightOperand
    (h : Yields (call parser (cursor.withLeft .rightOperand)) engine fun found engine' =>
      post (found.map fun output => { output with next := output.next.withoutLeft }) engine') :
    Yields (rightOperand call parser cursor) engine post :=
  (tracks_rightOperand h.tracks).yields

theorem yields_foldStep {left right : Parser α} {middle : List (Parser α)} {combine : List α → α}
    (h : Yields (leftOperand call left cursor) engine fun found engine' =>
      match found with
      | none => post none engine'
      | some first =>
          Yields (inSequence call middle first.next) engine' fun found engine' =>
            match found with
            | none => post none engine'
            | some (payloads, behind) =>
                Yields (rightOperand call right behind) engine' fun found engine' =>
                  match found with
                  | none => post none engine'
                  | some last =>
                      let folded := combine (first.payload :: payloads ++ [last.payload])
                      Yields (call left (last.next.withLeft
                          (.operand engine'.nextTag (some folded)))) engine'.tagged
                        fun extended engine' =>
                          post (some (foldResult folded last.next extended)) engine') :
    Yields (foldStep call left middle right combine cursor) engine post := by
  refine (tracks_foldStep (h.tracks.mono ?_)).yields
  rintro (_ | first) engine' hfirst
  · exact hfirst
  refine hfirst.tracks.mono ?_
  rintro (_ | ⟨payloads, behind⟩) engine' hmiddle
  · exact hmiddle
  refine hmiddle.tracks.mono ?_
  rintro (_ | last) engine' hlast
  · exact hlast
  · exact hlast.tracks

theorem yields_guardedMatch_free (hfree : cursor.offset ∉ engine.active.get id)
    (h : Yields (call parser cursor) (engine.entered id cursor.offset) fun found engine' =>
      post found (engine'.freed id cursor.offset)) :
    Yields (guardedMatch call id parser cursor) engine post :=
  (tracks_guardedMatch (fun _ => h.tracks) fun hbusy => absurd hbusy hfree).yields

theorem yields_guardedMatch_busy (hbusy : cursor.offset ∈ engine.active.get id)
    (h : post none engine) : Yields (guardedMatch call id parser cursor) engine post :=
  Yields.bind (Yields.of_eq (enter_of_busy hbusy) (Yields.pure h))

/-! ## Precedence -/

theorem yields_attempt {index : Nat}
    (h : Yields (call parser cursor) (engine.pushed id index) fun found engine' =>
      post found (engine'.popped id)) :
    Yields (attempt call id index parser cursor) engine post :=
  (tracks_attempt h.tracks).yields

theorem yields_attemptAll_nil {index : Nat} (h : post none engine) :
    Yields (attemptAll call id index [] cursor) engine post :=
  Yields.pure h

theorem yields_attemptAll_cons {index : Nat}
    (h : Yields (attempt call id index parser cursor) engine fun found engine' =>
      match found with
      | some output => post (some output) engine'
      | none => Yields (attemptAll call id (index + 1) parsers cursor) engine' post) :
    Yields (attemptAll call id index (parser :: parsers) cursor) engine post := by
  refine Yields.bind (h.mono fun found engine' hpost => ?_)
  cases found with
  | none => exact hpost
  | some output => exact Yields.pure hpost

variable {restarts : Parser α → Except Stop Bool}

/-- A precedence node that tries nothing yet takes all its alternatives. -/
theorem yields_climbMatch_idle (htop : engine.climbing.get id = [])
    (h : if cursor.left.isOperand then post none engine
      else Yields (attemptAll call id 0 parsers cursor.withoutLeft) engine post) :
    Yields (climbMatch call restarts id parsers cursor) engine post := by
  refine Yields.bind (Yields.of_eq (innermost?_eq engine id) ?_)
  simp only [htop, List.head?_nil]
  by_cases hoperand : cursor.left.isOperand = true
  · simp only [hoperand, if_true] at h ⊢
    exact Yields.pure h
  · simp only [hoperand] at h ⊢
    exact h

/-- Inside a group, a precedence node takes all its alternatives as well. -/
theorem yields_climbMatch_restart {active : Nat} {tighter : List (Parser α)}
    (htop : (engine.climbing.get id).head? = some active)
    (hdrop : parsers.drop active = parser :: tighter) (hrestart : restarts parser = .ok true)
    (hleft : cursor.left.isOperand = false)
    (h : Yields (attemptAll call id 0 parsers cursor.withoutLeft) engine post) :
    Yields (climbMatch call restarts id parsers cursor) engine post := by
  refine Yields.bind (Yields.of_eq (innermost?_eq engine id) ?_)
  simp only [htop, hdrop]
  have hanswer : (liftM (restarts parser) : EngineM α Bool) engine = .ok (true, engine) := by
    rw [hrestart]
    rfl
  refine Yields.bind (Yields.of_eq hanswer ?_)
  simp only [hleft, Bool.false_eq_true, if_true, if_false]
  exact h

/-- Inside another alternative, it takes that one first and then the tighter ones. -/
theorem yields_climbMatch_active {active : Nat} {tighter : List (Parser α)}
    (htop : (engine.climbing.get id).head? = some active)
    (hdrop : parsers.drop active = parser :: tighter) (hrestart : restarts parser = .ok false)
    (h : Yields (attempt call id active parser cursor) engine fun found engine' =>
      match found with
      | some output => post (some output) engine'
      | none =>
          if cursor.left.isOperand then post none engine'
          else Yields (attemptAll call id (active + 1) tighter cursor.withoutLeft) engine' post) :
    Yields (climbMatch call restarts id parsers cursor) engine post := by
  refine Yields.bind (Yields.of_eq (innermost?_eq engine id) ?_)
  simp only [htop, hdrop]
  have hanswer : (liftM (restarts parser) : EngineM α Bool) engine = .ok (false, engine) := by
    rw [hrestart]
    rfl
  refine Yields.bind (Yields.of_eq hanswer ?_)
  refine Yields.bind (h.mono fun found engine' hpost => ?_)
  cases found with
  | some output => exact Yields.pure hpost
  | none =>
      by_cases hoperand : cursor.left.isOperand = true
      · simp only [hoperand, if_true] at hpost ⊢
        exact Yields.pure hpost
      · simp only [hoperand] at hpost ⊢
        exact hpost

/-! ## Caches and traces -/

theorem yields_memoMatch_hit {cache : Nat} {result : Option (Output α)}
    (hstored : (engine.caches.get cache).entries[(⟨id, cursor.offset, cursor.left.key⟩ : CacheKey)]?
      = some result)
    (h : post result (engine.counted cache ⟨id, cursor.offset, cursor.left.key⟩)) :
    Yields (memoMatch call id cache parser cursor) engine post := by
  refine Yields.bind (Yields.of_eq (lookup?_eq engine cache _) ?_)
  simp only [hstored]
  exact Yields.pure h

theorem yields_memoMatch_miss {cache : Nat} {key : CacheKey}
    (hkey : key = ⟨id, cursor.offset, cursor.left.key⟩)
    (hmissing : (engine.caches.get cache).entries[key]? = none)
    (h : Yields (call parser cursor) ((engine.counted cache key).stored cache key none)
      fun found engine' => post found (engine'.stored cache key found)) :
    Yields (memoMatch call id cache parser cursor) engine post := by
  refine (tracks_memoMatch hkey (fun found hfound => ?_) fun _ => h.tracks).yields
  exact absurd (hmissing.symm.trans hfound) nofun

theorem yields_clearingMatch {cache : Nat}
    (h : Yields (call parser cursor) (engine.descended id) fun found engine' =>
      post found (if (engine'.ascended id).depth.get id = 0 then (engine'.ascended id).cleared cache
        else engine'.ascended id)) :
    Yields (clearingMatch call id cache parser cursor) engine post :=
  (tracks_clearingMatch h.tracks).yields

theorem yields_loggedMatch {name : String}
    (h : Yields (call parser cursor) (engine.recorded (.entered name cursor.offset cursor.left.key))
      fun found engine' => post found
        (engine'.recorded
          (.returned name cursor.offset (found.map fun output => output.next.offset)))) :
    Yields (loggedMatch call name parser cursor) engine post :=
  (tracks_loggedMatch h.tracks).yields

end Packrat.Engine
