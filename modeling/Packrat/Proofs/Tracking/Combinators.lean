import Packrat.Proofs.Tracking.Basic

/-!
# Combinators side by side

One rule for each piece of the interpreter.  Two functions run the parts of a combinator; where they
track each other on all the calls that it makes, it tracks itself.  A rule for a loop asks for an
invariant of the state and says what is gathered on the way.
-/

namespace Packrat.Engine

variable {α : Type} {allowed : Stop → Prop} {call call' : Call α} {engine : Engine α}
  {cursor : Cursor α} {id : Nat} {parser : Parser α} {parsers : List (Parser α)}
  {inv : Engine α → Prop} {good : Output α → Prop}
  {post : Option (Output α) → Engine α → Prop}

/-! ## Alternatives -/

theorem tracks_firstMatch
    (hcall : ∀ parser ∈ parsers, ∀ engine, inv engine →
      Tracks allowed (call parser cursor) (call' parser cursor) engine (Leaves inv good))
    (h : inv engine) :
    Tracks allowed (firstMatch call parsers cursor) (firstMatch call' parsers cursor) engine
      (Leaves inv good) := by
  induction parsers generalizing engine with
  | nil => exact Tracks.pure (Leaves.none h)
  | cons parser parsers ih =>
      obtain ⟨hhead, htail⟩ := List.forall_mem_cons.mp hcall
      refine Tracks.bind ((hhead engine h).mono ?_)
      rintro (_ | output) engine' hleaves
      · exact ih htail hleaves.1
      · exact Tracks.pure hleaves

/-- The longer of two good matches is good. -/
theorem good_longer {best : Option (Output α)} {output : Output α}
    (hbest : ∀ earlier, best = some earlier → good earlier) (houtput : good output) :
    good (longer best output) := by
  cases best with
  | none => exact houtput
  | some earlier =>
      rw [longer]
      split
      · exact hbest earlier rfl
      · exact houtput

theorem tracks_longestMatch {best : Option (Output α)}
    (hcall : ∀ parser ∈ parsers, ∀ engine, inv engine →
      Tracks allowed (call parser cursor) (call' parser cursor) engine (Leaves inv good))
    (hbest : ∀ earlier, best = some earlier → good earlier) (h : inv engine) :
    Tracks allowed (longestMatch call best parsers cursor) (longestMatch call' best parsers cursor)
      engine (Leaves inv good) := by
  induction parsers generalizing engine best with
  | nil => exact Tracks.pure ⟨h, hbest⟩
  | cons parser parsers ih =>
      obtain ⟨hhead, htail⟩ := List.forall_mem_cons.mp hcall
      refine Tracks.bind ((hhead engine h).mono ?_)
      rintro (_ | output) engine' hleaves
      · exact ih htail hbest hleaves.1
      · refine ih htail ?_ hleaves.1
        rintro earlier ⟨⟩
        exact good_longer hbest hleaves.good_of_some

theorem tracks_unlessMatch
    (hexcluded : ∀ parser ∈ parsers, ∀ engine, inv engine →
      Tracks allowed (call parser cursor) (call' parser cursor) engine
        (Leaves inv fun _ => True))
    (hparser : ∀ engine, inv engine →
      Tracks allowed (call parser cursor) (call' parser cursor) engine (Leaves inv good))
    (h : inv engine) :
    Tracks allowed (unlessMatch call parser parsers cursor)
      (unlessMatch call' parser parsers cursor)
      engine (Leaves inv good) := by
  refine Tracks.bind ((tracks_firstMatch hexcluded h).mono ?_)
  rintro (_ | output) engine' hleaves
  · exact hparser engine' hleaves.1
  · exact Tracks.pure (Leaves.none hleaves.1)

/-! ## Sequences and repetition -/

/--
Parts in a row.  `ready` holds in front of each of the parts that are left, and `gathered` of what
they match.
-/
theorem tracks_inSequence (ready : List (Parser α) → Cursor α → Prop)
    (gathered : List (Parser α) → Cursor α → List α → Cursor α → Prop)
    (hnil : ∀ cursor, ready [] cursor → gathered [] cursor [] cursor)
    (hcons : ∀ parser parsers cursor engine, ready (parser :: parsers) cursor → inv engine →
      Tracks allowed (call parser cursor) (call' parser cursor) engine
        (Leaves inv fun output => ready parsers output.next ∧
          ∀ payloads next, gathered parsers output.next payloads next →
            gathered (parser :: parsers) cursor (output.payload :: payloads) next))
    (hready : ready parsers cursor) (h : inv engine) :
    Tracks allowed (inSequence call parsers cursor) (inSequence call' parsers cursor) engine
      fun found engine' => inv engine' ∧
        ∀ payloads next, found = some (payloads, next) → gathered parsers cursor payloads next := by
  induction parsers generalizing engine cursor with
  | nil =>
      refine Tracks.pure ⟨h, ?_⟩
      rintro payloads next ⟨⟩
      exact hnil cursor hready
  | cons parser parsers ih =>
      refine Tracks.bind ((hcons parser parsers cursor engine hready h).mono ?_)
      rintro (_ | output) engine' hleaves
      · exact Tracks.pure ⟨hleaves.1, fun _ _ hfound => by cases hfound⟩
      · obtain ⟨hready', hgather⟩ := hleaves.good_of_some
        refine Tracks.bind ((ih hready' hleaves.1).mono ?_)
        rintro (_ | ⟨payloads, next⟩) engine'' ⟨hinv, hrest⟩
        · exact Tracks.pure ⟨hinv, fun _ _ hfound => by cases hfound⟩
        · refine Tracks.pure ⟨hinv, ?_⟩
          rintro _ _ ⟨⟩
          exact hgather payloads next (hrest payloads next rfl)

/-- There is room for a loop to the end of the text, or else it may stop for want of room. -/
def Roomy (allowed : Stop → Prop) (cursor : Cursor α) (fuel fuel' : Nat) : Prop :=
  (allowed .tooDeep ∧ fuel = fuel') ∨
    (cursor.source.size - cursor.offset < fuel ∧ cursor.source.size - cursor.offset < fuel')

theorem Roomy.ahead {next : Cursor α} {fuel fuel' : Nat}
    (h : Roomy allowed cursor (fuel + 1) (fuel' + 1)) (hsource : next.source = cursor.source)
    (hoffset : cursor.offset < next.offset) : Roomy allowed next fuel fuel' := by
  have hle := next.offset_le
  rw [hsource] at hle
  rcases h with ⟨hallowed, heq⟩ | ⟨hfuel, hfuel'⟩
  · exact Or.inl ⟨hallowed, Nat.succ.inj heq⟩
  · refine Or.inr ⟨?_, ?_⟩ <;> rw [hsource] <;> omega

/--
One parser over and over.  `gathered` holds of the payloads, newest first, and their number wherever
the parser is called again, and `ended` where it is not.
-/
theorem tracks_repeatMatch {atMost : Option Nat} (gathered ended : List α → Nat → Cursor α → Prop)
    {fuel fuel' count : Nat} {payloads : List α}
    (hended : ∀ payloads count cursor, gathered payloads count cursor →
      ended payloads count cursor)
    (hstep : ∀ payloads count cursor engine, gathered payloads count cursor → inv engine →
      Tracks allowed (call parser cursor) (call' parser cursor) engine
        (Leaves inv fun output => output.next.source = cursor.source ∧
          (cursor.offset < output.next.offset →
            gathered (output.payload :: payloads) (count + 1) output.next) ∧
          ended (output.payload :: payloads) (count + 1) output.next))
    (hroom : Roomy allowed cursor fuel fuel') (hgathered : gathered payloads count cursor)
    (h : inv engine) :
    Tracks allowed (repeatMatch call parser atMost fuel payloads count cursor)
      (repeatMatch call' parser atMost fuel' payloads count cursor) engine
      fun result engine' => inv engine' ∧ ended result.1 result.2.1 result.2.2 := by
  induction fuel generalizing fuel' engine cursor payloads count with
  | zero =>
      rcases hroom with ⟨hallowed, rfl⟩ | ⟨hfuel, -⟩
      · exact Tracks.throw hallowed
      · exact absurd hfuel (Nat.not_lt_zero _)
  | succ fuel ih =>
      cases fuel' with
      | zero =>
          rcases hroom with ⟨-, heq⟩ | ⟨-, hfuel⟩
          · cases heq
          · exact absurd hfuel (Nat.not_lt_zero _)
      | succ fuel' =>
          simp only [repeatMatch]
          cases allows atMost count with
          | false => exact Tracks.pure ⟨h, hended _ _ _ hgathered⟩
          | true =>
              refine Tracks.bind ((hstep payloads count cursor engine hgathered h).mono ?_)
              rintro (_ | output) engine' hleaves
              · exact Tracks.pure ⟨hleaves.1, hended _ _ _ hgathered⟩
              · obtain ⟨hsource, hmore, hlast⟩ := hleaves.good_of_some
                by_cases hmoved : cursor.offset < output.next.offset
                · simp only [hmoved, if_true]
                  exact ih (hroom.ahead hsource hmoved) (hmore hmoved) hleaves.1
                · simp only [hmoved, if_false]
                  exact Tracks.pure ⟨hleaves.1, hlast⟩

theorem tracks_repetition {atLeast : Nat} {atMost : Option Nat} {collect : List α → α}
    {fuel fuel' : Nat} (gathered ended : List α → Nat → Cursor α → Prop)
    (hended : ∀ payloads count cursor, gathered payloads count cursor →
      ended payloads count cursor)
    (hstep : ∀ payloads count cursor engine, gathered payloads count cursor → inv engine →
      Tracks allowed (call parser cursor) (call' parser cursor) engine
        (Leaves inv fun output => output.next.source = cursor.source ∧
          (cursor.offset < output.next.offset →
            gathered (output.payload :: payloads) (count + 1) output.next) ∧
          ended (output.payload :: payloads) (count + 1) output.next))
    (hroom : Roomy allowed cursor fuel fuel') (hgathered : gathered [] 0 cursor) (h : inv engine)
    (hend : ∀ payloads count next, ended payloads count next → atLeast ≤ count →
      good ⟨collect payloads.reverse, next⟩) :
    Tracks allowed (repetition call fuel parser atLeast atMost collect cursor)
      (repetition call' fuel' parser atLeast atMost collect cursor) engine (Leaves inv good) := by
  refine Tracks.bind ((tracks_repeatMatch gathered ended hended hstep hroom hgathered h).mono ?_)
  rintro ⟨payloads, count, next⟩ engine' ⟨hinv, hall⟩
  by_cases hfew : count < atLeast
  · simp only [hfew, if_true]
    exact Tracks.pure (Leaves.none hinv)
  · simp only [hfew, if_false]
    exact Tracks.pure (Leaves.some hinv (hend _ _ _ hall (Nat.le_of_not_lt hfew)))

/-! ## Left recursion -/

theorem tracks_leftOperand
    (hfresh : cursor.left = .empty →
      Tracks allowed (call parser cursor) (call' parser cursor) engine post)
    (hcarried : ∀ tag value, cursor.left = .operand tag (some value) →
      post (some ⟨value, cursor.withoutLeft⟩) engine)
    (hnone : cursor.left ≠ .empty → post none engine) :
    Tracks allowed (leftOperand call parser cursor) (leftOperand call' parser cursor)
      engine post := by
  unfold leftOperand
  cases hleft : cursor.left with
  | empty => exact hfresh hleft
  | rightOperand => exact Tracks.pure (hnone (by rw [hleft]; nofun))
  | operand tag value =>
      cases value with
      | none => exact Tracks.pure (hnone (by rw [hleft]; nofun))
      | some value => exact Tracks.pure (hcarried tag value hleft)

theorem tracks_rightOperand
    (h : Tracks allowed (call parser (cursor.withLeft .rightOperand))
      (call' parser (cursor.withLeft .rightOperand)) engine fun found engine' =>
        post (found.map fun output => { output with next := output.next.withoutLeft }) engine') :
    Tracks allowed (rightOperand call parser cursor) (rightOperand call' parser cursor)
      engine post := by
  refine Tracks.bind (h.mono fun found engine' hpost => ?_)
  cases found with
  | none => exact Tracks.pure hpost
  | some output => exact Tracks.pure hpost

/-- The match of a fold whose folded payload was offered to the left operand's parser. -/
def foldResult (folded : α) (next : Cursor α) : Option (Output α) → Output α
  | some extended => if extended.next.left.isEmpty then extended else ⟨folded, next⟩
  | none => ⟨folded, next⟩

theorem tracks_foldStep {left right : Parser α} {middle : List (Parser α)} {combine : List α → α}
    (h : Tracks allowed (leftOperand call left cursor) (leftOperand call' left cursor) engine
      fun found engine' =>
        match found with
        | none => post none engine'
        | some first =>
            Tracks allowed (inSequence call middle first.next) (inSequence call' middle first.next)
              engine' fun found engine' =>
                match found with
                | none => post none engine'
                | some (payloads, behind) =>
                    Tracks allowed (rightOperand call right behind)
                      (rightOperand call' right behind)
                      engine' fun found engine' =>
                        match found with
                        | none => post none engine'
                        | some last =>
                            let folded := combine (first.payload :: payloads ++ [last.payload])
                            let place := last.next.withLeft (.operand engine'.nextTag (some folded))
                            Tracks allowed (call left place) (call' left place) engine'.tagged
                              fun extended engine' =>
                                post (some (foldResult folded last.next extended)) engine') :
    Tracks allowed (foldStep call left middle right combine cursor)
      (foldStep call' left middle right combine cursor) engine post := by
  refine Tracks.bind (h.mono fun found engine' hpost => ?_)
  cases found with
  | none => exact Tracks.pure hpost
  | some first =>
      refine Tracks.bind (hpost.mono fun found engine' hpost => ?_)
      cases found with
      | none => exact Tracks.pure hpost
      | some pair =>
          refine Tracks.bind (hpost.mono fun found engine' hpost => ?_)
          cases found with
          | none => exact Tracks.pure hpost
          | some last =>
              refine Tracks.bind (Tracks.of_eq (freshTag_eq engine') ?_)
              refine Tracks.bind (hpost.mono fun extended engine' hpost => ?_)
              cases extended with
              | none => exact Tracks.pure hpost
              | some extended =>
                  by_cases hempty : extended.next.left.isEmpty = true
                  · simp only [foldResult, hempty, if_true] at hpost ⊢
                    exact Tracks.pure hpost
                  · simp only [foldResult, hempty] at hpost ⊢
                    exact Tracks.pure hpost

theorem tracks_guardedMatch
    (hfree : cursor.offset ∉ engine.active.get id →
      Tracks allowed (call parser cursor) (call' parser cursor) (engine.entered id cursor.offset)
        fun found engine' => post found (engine'.freed id cursor.offset))
    (hbusy : cursor.offset ∈ engine.active.get id → post none engine) :
    Tracks allowed (guardedMatch call id parser cursor) (guardedMatch call' id parser cursor)
      engine post := by
  by_cases hmem : cursor.offset ∈ engine.active.get id
  · exact Tracks.bind (Tracks.of_eq (enter_of_busy hmem) (Tracks.pure (hbusy hmem)))
  · refine Tracks.bind (Tracks.of_eq (enter_of_free hmem) ?_)
    refine Tracks.bind ((hfree hmem).mono fun found engine' hpost => ?_)
    exact Tracks.bind (Tracks.of_eq (leave_eq _ _ _) (Tracks.pure hpost))

/-! ## Precedence -/

theorem tracks_attempt {index : Nat}
    (h : Tracks allowed (call parser cursor) (call' parser cursor) (engine.pushed id index)
      fun found engine' => post found (engine'.popped id)) :
    Tracks allowed (attempt call id index parser cursor) (attempt call' id index parser cursor)
      engine post := by
  refine Tracks.bind (Tracks.of_eq (pushAlternative_eq _ _ _) ?_)
  refine Tracks.bind (h.mono fun found engine' hpost => ?_)
  exact Tracks.bind (Tracks.of_eq (popAlternative_eq _ _) (Tracks.pure hpost))

theorem tracks_attemptAll {index : Nat}
    (hattempt : ∀ i parser, parsers[i]? = some parser → ∀ engine, inv engine →
      Tracks allowed (attempt call id (index + i) parser cursor)
        (attempt call' id (index + i) parser cursor) engine (Leaves inv good))
    (h : inv engine) :
    Tracks allowed (attemptAll call id index parsers cursor)
      (attemptAll call' id index parsers cursor)
      engine (Leaves inv good) := by
  induction parsers generalizing engine index with
  | nil => exact Tracks.pure (Leaves.none h)
  | cons parser parsers ih =>
      refine Tracks.bind ((hattempt 0 parser rfl engine h).mono ?_)
      rintro (_ | output) engine' hleaves
      · refine ih (fun i parser hparser => ?_) hleaves.1
        rw [Nat.add_assoc, Nat.add_comm 1 i]
        exact hattempt (i + 1) parser hparser
      · exact Tracks.pure hleaves

/--
Why a precedence node may try an alternative on a cursor without a left context: it tries none yet,
or the one that it tries is a group or looser.
-/
def Eligible (restarts : Parser α → Except Stop Bool) (parsers : List (Parser α))
    (active? : Option Nat) (index : Nat) : Prop :=
  ∀ active, active? = some active → ∃ alternative, parsers[active]? = some alternative ∧
    (restarts alternative = .ok true ∨ restarts alternative = .ok false ∧ active < index)

/-- The alternatives from one on, none of them if the cursor carries an operand. -/
theorem tracks_attemptFrom {index : Nat}
    (hattempt : cursor.left.isOperand = false → ∀ engine', inv engine' →
      ∀ i parser, parsers[i]? = some parser → index ≤ i →
        Tracks allowed (attempt call id i parser cursor.withoutLeft)
          (attempt call' id i parser cursor.withoutLeft) engine' (Leaves inv good))
    (h : inv engine) :
    Tracks allowed
      (if cursor.left.isOperand then pure none
        else attemptAll call id index (parsers.drop index) cursor.withoutLeft)
      (if cursor.left.isOperand then pure none
        else attemptAll call' id index (parsers.drop index) cursor.withoutLeft)
      engine (Leaves inv good) := by
  cases hoperand : cursor.left.isOperand with
  | true => exact Tracks.pure (Leaves.none h)
  | false =>
      apply tracks_attemptAll
      · intro i parser hparser engine' hinv
        rw [List.getElem?_drop] at hparser
        exact hattempt hoperand engine' hinv _ parser hparser (Nat.le_add_right index i)
      · exact h

/-- Asking whether a parser marks a group stops, or leaves the state as it is. -/
theorem tracks_restarts {restarts restarts' : Parser α → Except Stop Bool}
    {next next' : Bool → EngineM α (Option (Output α))} (hsame : restarts parser = restarts' parser)
    (hstop : ∀ stop, restarts' parser = .error stop → allowed stop)
    (h : ∀ answer, restarts' parser = .ok answer →
      Tracks allowed (next answer) (next' answer) engine post) :
    Tracks allowed (liftM (restarts parser) >>= next) (liftM (restarts' parser) >>= next') engine
      post := by
  rw [hsame]
  apply Tracks.bind
  cases hanswer : restarts' parser with
  | error stop =>
      exact Tracks.of_stop (show _ = Except.error stop from rfl) (hstop stop hanswer)
  | ok answer =>
      exact Tracks.of_eq (show _ = Except.ok (answer, engine) from rfl) (h answer hanswer)

/-- The active alternative on the cursor as it is, and where it finds nothing the tighter ones. -/
theorem tracks_attemptTighter {active : Nat} {alternative : Parser α} {tighter : List (Parser α)}
    (hdrop : parsers.drop active = alternative :: tighter)
    (hactive : Tracks allowed (attempt call id active alternative cursor)
      (attempt call' id active alternative cursor) engine (Leaves inv good))
    (htighter : cursor.left.isOperand = false → ∀ engine', inv engine' →
      ∀ i parser, parsers[i]? = some parser → active < i →
        Tracks allowed (attempt call id i parser cursor.withoutLeft)
          (attempt call' id i parser cursor.withoutLeft) engine' (Leaves inv good)) :
    Tracks allowed
      (attempt call id active alternative cursor >>= fun
        | some output => pure (some output)
        | none =>
            if cursor.left.isOperand then pure none
            else attemptAll call id (active + 1) tighter cursor.withoutLeft)
      (attempt call' id active alternative cursor >>= fun
        | some output => pure (some output)
        | none =>
            if cursor.left.isOperand then pure none
            else attemptAll call' id (active + 1) tighter cursor.withoutLeft)
      engine (Leaves inv good) := by
  obtain rfl : tighter = parsers.drop (active + 1) := by
    rw [← List.tail_drop, hdrop, List.tail_cons]
  apply Tracks.bind
  apply hactive.mono
  rintro (_ | output) engine' hleaves
  · exact tracks_attemptFrom htighter hleaves.1
  · exact Tracks.pure hleaves

/--
A precedence node tries all eligible alternatives on a cursor without a left context, or the active
one on the cursor as it is, a group only if the cursor carries an operand.
-/
theorem tracks_climbMatch {restarts restarts' : Parser α → Except Stop Bool}
    (hrestarts : ∀ active alternative, (engine.climbing.get id).head? = some active →
      parsers[active]? = some alternative → restarts alternative = restarts' alternative ∧
        ∀ stop, restarts' alternative = .error stop → allowed stop)
    (hall : cursor.left.isOperand = false → ∀ engine', inv engine' →
      ∀ i parser, parsers[i]? = some parser →
        Eligible restarts' parsers (engine.climbing.get id).head? i →
          Tracks allowed (attempt call id i parser cursor.withoutLeft)
            (attempt call' id i parser cursor.withoutLeft) engine' (Leaves inv good))
    (hactive : ∀ active alternative, (engine.climbing.get id).head? = some active →
      parsers[active]? = some alternative →
        (restarts' alternative = .ok true ∧ cursor.left.isOperand = true ∨
          restarts' alternative = .ok false) →
          Tracks allowed (attempt call id active alternative cursor)
            (attempt call' id active alternative cursor) engine (Leaves inv good))
    (h : inv engine) :
    Tracks allowed (climbMatch call restarts id parsers cursor)
      (climbMatch call' restarts' id parsers cursor) engine (Leaves inv good) := by
  apply Tracks.bind
  apply Tracks.of_eq (innermost?_eq engine id)
  cases htop : (engine.climbing.get id).head? with
  | none =>
      rw [htop] at hall
      apply tracks_attemptFrom
      · intro hoperand engine' hinv i parser hparser _
        exact hall hoperand engine' hinv i parser hparser nofun
      · exact h
  | some active =>
      rw [htop] at hall
      simp only
      cases hdrop : parsers.drop active with
      | nil => exact Tracks.pure (Leaves.none h)
      | cons alternative tighter =>
          have hget : parsers[active]? = some alternative := by
            rw [← List.head?_drop, hdrop, List.head?_cons]
          -- an alternative is eligible for what is known of the active one
          have htried : ∀ i, (restarts' alternative = .ok true ∨
              restarts' alternative = .ok false ∧ active < i) →
              Eligible restarts' parsers (some active) i := by
            rintro i hanswer _ ⟨⟩
            exact ⟨alternative, hget, hanswer⟩
          obtain ⟨hsame, hstop⟩ := hrestarts active alternative htop hget
          apply tracks_restarts hsame hstop
          intro answer hanswer
          cases answer with
          | false =>
              apply tracks_attemptTighter hdrop
              · exact hactive active alternative htop hget (Or.inr hanswer)
              · intro hoperand engine' hinv i parser hparser hlt
                exact hall hoperand engine' hinv i parser hparser
                  (htried i (Or.inr ⟨hanswer, hlt⟩))
          | true =>
              cases hoperand : cursor.left.isOperand with
              | true => exact hactive active alternative htop hget (Or.inl ⟨hanswer, hoperand⟩)
              | false =>
                  apply tracks_attemptAll
                  · intro i parser hparser engine' hinv
                    rw [Nat.zero_add]
                    exact hall hoperand engine' hinv i parser hparser (htried i (Or.inl hanswer))
                  · exact h

/-! ## Caches and traces -/

theorem tracks_memoMatch {cache : Nat} {key : CacheKey}
    (hkey : key = ⟨id, cursor.offset, cursor.left.key⟩)
    (hhit : ∀ result, (engine.caches.get cache).entries[key]? = some result →
      post result (engine.counted cache key))
    (hmiss : (engine.caches.get cache).entries[key]? = none →
      Tracks allowed (call parser cursor) (call' parser cursor)
        ((engine.counted cache key).stored cache key none)
        fun found engine' => post found (engine'.stored cache key found)) :
    Tracks allowed (memoMatch call id cache parser cursor) (memoMatch call' id cache parser cursor)
      engine post := by
  subst hkey
  refine Tracks.bind (Tracks.of_eq (lookup?_eq engine cache _) ?_)
  cases hentry : (engine.caches.get cache).entries[(⟨id, cursor.offset, cursor.left.key⟩ :
      CacheKey)]? with
  | some result => exact Tracks.pure (hhit result hentry)
  | none =>
      refine Tracks.bind (Tracks.of_eq (store_eq _ _ _ _) ?_)
      refine Tracks.bind ((hmiss hentry).mono fun found engine' hpost => ?_)
      exact Tracks.bind (Tracks.of_eq (store_eq _ _ _ _) (Tracks.pure hpost))

/-- The state behind a clearing node that comes to its end. -/
def ended (engine : Engine α) (id cache : Nat) : Engine α :=
  if (engine.ascended id).depth.get id = 0 then (engine.ascended id).cleared cache
  else engine.ascended id

section Ended

variable {engine : Engine α} {cache : Nat}

@[simp] theorem active_ended (id : Nat) : (engine.ended id cache).active = engine.active := by
  unfold ended
  split <;> rfl

@[simp] theorem climbing_ended (id : Nat) :
    (engine.ended id cache).climbing = engine.climbing := by
  unfold ended
  split <;> rfl

@[simp] theorem depth_ended (id : Nat) :
    (engine.ended id cache).depth = (engine.ascended id).depth := by
  unfold ended
  split <;> rfl

@[simp] theorem nextTag_ended (id : Nat) : (engine.ended id cache).nextTag = engine.nextTag := by
  unfold ended
  split <;> rfl

@[simp] theorem horizon_ended (id : Nat) : (engine.ended id cache).horizon = engine.horizon := by
  unfold ended
  split <;> rfl

end Ended

theorem ended_eq (id cache : Nat) (found : Option (Output α)) (engine : Engine α) :
    (do if ← ascend id then clear cache
        return found : EngineM α (Option (Output α))) engine =
      .ok (found, engine.ended id cache) := by
  simp only [Bind.bind, StateT.bind, ascend_eq, Except.bind, ended]
  by_cases houtermost : (engine.ascended id).depth.get id = 0
  · simp only [houtermost, beq_self_eq_true, if_true]
    rfl
  · simp only [houtermost, beq_eq_false_iff_ne.mpr houtermost, if_false]
    rfl

theorem tracks_clearingMatch {cache : Nat}
    (h : Tracks allowed (call parser cursor) (call' parser cursor) (engine.descended id)
      fun found engine' => post found (engine'.ended id cache)) :
    Tracks allowed (clearingMatch call id cache parser cursor)
      (clearingMatch call' id cache parser cursor) engine post := by
  refine Tracks.bind (Tracks.of_eq (descend_eq _ _) ?_)
  refine Tracks.bind (h.mono fun found engine' hpost => ?_)
  exact Tracks.of_eq (ended_eq id cache found engine') hpost

theorem tracks_loggedMatch {name : String}
    (h : Tracks allowed (call parser cursor) (call' parser cursor)
      (engine.recorded (.entered name cursor.offset cursor.left.key))
      fun found engine' => post found
        (engine'.recorded
          (.returned name cursor.offset (found.map fun output => output.next.offset)))) :
    Tracks allowed (loggedMatch call name parser cursor)
      (loggedMatch call' name parser cursor) engine
      post := by
  refine Tracks.bind (Tracks.of_eq (record_eq _ _) ?_)
  refine Tracks.bind (h.mono fun found engine' hpost => ?_)
  exact Tracks.bind (Tracks.of_eq (record_eq _ _) (Tracks.pure hpost))

/-! ## Steps -/

section Steps

variable {rules : Rules α} {fuel fuel' : Nat}

theorem tracks_optional {wrap : Option α → α}
    (h : Tracks allowed (call parser cursor) (call' parser cursor) engine
      (Leaves inv fun output => good { output with payload := wrap (some output.payload) }))
    (hnone : good ⟨wrap none, cursor⟩) :
    Tracks allowed (step rules fuel call (.optional parser wrap) cursor)
      (step rules fuel' call' (.optional parser wrap) cursor) engine (Leaves inv good) := by
  refine Tracks.bind (h.mono ?_)
  rintro (_ | output) engine' hleaves
  · exact Tracks.pure (Leaves.some hleaves.1 hnone)
  · exact Tracks.pure (Leaves.some hleaves.1 hleaves.good_of_some)

theorem tracks_convert {f : α → Option α}
    (h : Tracks allowed (call parser cursor) (call' parser cursor) engine
      (Leaves inv fun output =>
        ∀ payload, f output.payload = some payload → good { output with payload })) :
    Tracks allowed (step rules fuel call (.convert parser f) cursor)
      (step rules fuel' call' (.convert parser f) cursor) engine (Leaves inv good) := by
  refine Tracks.bind (h.mono ?_)
  rintro (_ | output) engine' hleaves
  · exact Tracks.pure (Leaves.none hleaves.1)
  · cases hf : f output.payload with
    | none => exact Tracks.pure (by rw [hf]; exact Leaves.none hleaves.1)
    | some payload =>
        exact Tracks.pure (by rw [hf]; exact Leaves.some hleaves.1 (hleaves.good_of_some _ hf))

theorem tracks_call {rule : Nat}
    (hbody : ∀ parser, rules.find rule = .body parser →
      Tracks allowed (call parser cursor) (call' parser cursor) engine post)
    (hmissing : rules.find rule = .missing → post none engine)
    (hpending : rules.find rule = .pending → allowed (.pending rule)) :
    Tracks allowed (step rules fuel call (.call rule) cursor)
      (step rules fuel' call' (.call rule) cursor) engine post := by
  simp only [step]
  cases hfind : rules.find rule with
  | missing => exact Tracks.pure (hmissing hfind)
  | body parser => exact hbody parser hfind
  | pending => exact Tracks.throw (hpending hfind)

end Steps

/-- A run whose bound on the depth of calls fits the longest text so far. -/
theorem tracks_parse {rules : Rules α}
    (h : Tracks allowed
      (run rules (depthBound rules parser (max engine.horizon cursor.source.size)) parser cursor)
      (run rules (depthBound rules parser (max engine.horizon cursor.source.size)) parser cursor)
      { engine with horizon := max engine.horizon cursor.source.size } post) :
    Tracks allowed (parser.parse rules cursor) (parser.parse rules cursor) engine post :=
  ⟨rfl, h.ends⟩

end Packrat.Engine
