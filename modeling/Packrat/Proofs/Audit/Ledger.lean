import Packrat.Proofs.Audit.Run

/-!
# The ledger of a run

While the nodes that empty caches are all under way, no entry is lost.  So the caches hold what the
stages of their keys say, and a run takes them from one stage to another by a chronicle of what an
auditor notes.
-/

namespace Packrat

variable {α : Type} {grammar : Grammar α}

/-- Every node that empties a cache is under way. -/
def Engine.Enclosed (grammar : Grammar α) (engine : Engine α) : Prop :=
  ∀ id cache parser, Parser.clearing id cache parser ∈ grammar.nodes → 0 < engine.depth.get id

/-! ## Ledgers -/

/-- What a run from some stages and counts of the caches on has come to, by its visits so far. -/
structure Ledger (grammar : Grammar α) (first : Stages α) (base : Engine α)
    (visits : List (Visit α)) (last : Stages α) (engine : Engine α) : Prop where
  chronicle : Chronicle first visits last
  prompt : Visit.Prompt visits
  /-- A key at which a run was on or done when it all began is where it was. -/
  stable : ∀ cache key, first cache key ≠ .ahead → last cache key = first cache key
  memo_of_began : ∀ cache key, .began cache key ∈ visits →
    ∃ parser, Parser.memo key.node cache parser ∈ grammar.nodes
  misses : ∀ cache,
    engine.missesIn cache = base.missesIn cache + (Visit.begunIn cache visits).length
  lookups : ∀ cache,
    engine.lookupsIn cache = base.lookupsIn cache + (Visit.askedIn cache visits).length

/-- The caches hold what the stages of their keys say. -/
def Engine.Stands (engine : Engine α) (stages : Stages α) : Prop :=
  ∀ cache key, engine.entryIn cache key = (stages cache key).entry

namespace Engine.Stands

variable {engine : Engine α} {stages : Stages α} {cache : Nat} {key : CacheKey}

theorem congr {engine' : Engine α} (h : engine.Stands stages)
    (hcaches : engine'.caches = engine.caches) : engine'.Stands stages := by
  intro cache key
  rw [entryIn, hcaches]
  exact h cache key

theorem counted (h : engine.Stands stages) (cache : Nat) (key : CacheKey) :
    (engine.counted cache key).Stands stages :=
  fun _ _ => entryIn_counted.trans (h _ _)

/-- What is stored for a key is its new stage. -/
theorem stored {stage : Stage α} (h : engine.Stands stages) (cache : Nat) (key : CacheKey)
    {result : Option (Output α)} (hstage : stage.entry = some result) :
    (engine.stored cache key result).Stands (stages.put cache key stage) := by
  intro cache' key'
  rw [entryIn_stored, Stages.put]
  by_cases hsame : cache' = cache ∧ key' = key
  · rw [if_pos ⟨hsame.1.symm, hsame.2.symm⟩, if_pos hsame, hstage]
  · rw [if_neg fun heq => hsame ⟨heq.1.symm, heq.2.symm⟩, if_neg hsame]
    exact h cache' key'

/-- Nothing has begun where nothing is stored. -/
theorem of_blank (h : engine.Blank) : engine.Stands fun _ _ => .ahead := h

end Engine.Stands

namespace Ledger

variable {first middle last : Stages α} {base engine out : Engine α}
  {visits inner : List (Visit α)} {id cache : Nat} {key : CacheKey} {parser : Parser α}
  {found : Option (Output α)}

theorem refl (grammar : Grammar α) (stages : Stages α) (engine : Engine α) :
    Ledger grammar stages engine [] stages engine where
  chronicle := .nil stages
  prompt := .nil
  stable _ _ _ := rfl
  memo_of_began _ _ hmem := by cases hmem
  misses _ := rfl
  lookups _ := rfl

theorem congr (h : Ledger grammar first base visits last engine)
    (hcounts : ∀ cache, out.missesIn cache = engine.missesIn cache ∧
      out.lookupsIn cache = engine.lookupsIn cache) :
    Ledger grammar first base visits last out where
  chronicle := h.chronicle
  prompt := h.prompt
  stable := h.stable
  memo_of_began := h.memo_of_began
  misses cache := (hcounts cache).1.trans (h.misses cache)
  lookups cache := (hcounts cache).2.trans (h.lookups cache)

theorem trans {more : List (Visit α)} (h : Ledger grammar first base visits middle engine)
    (h' : Ledger grammar middle engine more last out) :
    Ledger grammar first base (visits ++ more) last out where
  chronicle := h.chronicle.append h'.chronicle
  prompt := h.prompt.append h'.prompt
  stable cache key hbegun := by
    have hsame := h.stable cache key hbegun
    exact (h'.stable cache key (hsame ▸ hbegun)).trans hsame
  memo_of_began cache key hmem := by
    rcases List.mem_append.mp hmem with hmem | hmem
    · exact h.memo_of_began cache key hmem
    · exact h'.memo_of_began cache key hmem
  misses cache := by
    rw [h'.misses, h.misses, Visit.begunIn_append, List.length_append, Nat.add_assoc]
  lookups cache := by
    rw [h'.lookups, h.lookups, Visit.askedIn_append, List.length_append, Nat.add_assoc]

/-- A call that is answered from the cache. -/
theorem hit (hstands : engine.Stands first) (h : engine.entryIn cache key = some found) :
    Ledger grammar first engine [.asked cache key, .answered cache key found] first
      (engine.counted cache key) where
  chronicle := by
    refine .cons .asked (.cons ?_ (.nil first))
    rw [hstands] at h
    cases hstage : first cache key with
    | ahead => rw [hstage] at h; cases h
    | running => rw [hstage] at h; cases h; exact .waiting hstage
    | done result => rw [hstage] at h; cases h; exact .answered hstage
  prompt := .recalled .nil
  stable _ _ _ := rfl
  memo_of_began cache' key' hmem := by simp at hmem
  misses cache' := by simp [Engine.missesIn_counted_of_some h, Visit.begunIn, Visit.began?]
  lookups cache' := by
    rw [Engine.lookupsIn_counted]
    by_cases hcache : cache = cache' <;> simp [Visit.askedIn, Visit.asked?, hcache]

/-- A call that runs what it caches, and stores what that has found. -/
theorem missed (hstands : engine.Stands first) (h : engine.entryIn cache key = none)
    (hnode : Parser.memo key.node cache parser ∈ grammar.nodes)
    (hinner : Ledger grammar (first.put cache key .running)
      ((engine.counted cache key).stored cache key none) inner last out) :
    Ledger grammar first engine
      (.asked cache key :: .began cache key :: inner ++
        [.finished cache key found, .answered cache key found])
      (last.put cache key (.done found)) (out.stored cache key found) := by
  have hahead : first cache key = .ahead :=
    Stage.entry_eq_none.mp ((hstands cache key).symm.trans h)
  have hrunning : last cache key = .running := by
    rw [hinner.stable cache key (by rw [Stages.put_self]; nofun), Stages.put_self]
  have hbehind : Chronicle last [.finished cache key found, .answered cache key found]
      (last.put cache key (.done found)) :=
    .cons (.finished hrunning) (.cons (.answered Stages.put_self) (.nil _))
  constructor
  · exact .cons .asked (.cons (.began hahead) (hinner.chronicle.append hbehind))
  · exact .began (hinner.prompt.append (.finished .nil))
  · intro cache' key' hbegun
    have hother : ¬ (cache' = cache ∧ key' = key) := by
      rintro ⟨rfl, rfl⟩
      exact hbegun hahead
    rw [Stages.put_of_ne hother]
    have hsame : first.put cache key .running cache' key' = first cache' key' :=
      Stages.put_of_ne hother
    exact (hinner.stable cache' key' (hsame ▸ hbegun)).trans hsame
  · intro cache' key' hmem
    by_cases hsame : cache' = cache ∧ key' = key
    · obtain ⟨rfl, rfl⟩ := hsame
      exact ⟨parser, hnode⟩
    · refine hinner.memo_of_began cache' key' ?_
      simpa [hsame] using hmem
  · intro cache'
    have hlength : (Visit.begunIn cache' (.asked cache key :: .began cache key :: inner ++
        [.finished cache key found, .answered cache key found])).length =
          (if cache = cache' then 1 else 0) + (Visit.begunIn cache' inner).length := by
      by_cases hcache : cache = cache' <;>
        simp [Visit.begunIn, Visit.began?, List.filterMap_cons, hcache, Nat.add_comm 1]
    rw [Engine.missesIn_stored, hinner.misses, Engine.missesIn_stored,
      Engine.missesIn_counted_of_none h, hlength, Nat.add_assoc]
  · intro cache'
    have hlength : (Visit.askedIn cache' (.asked cache key :: .began cache key :: inner ++
        [.finished cache key found, .answered cache key found])).length =
          (if cache = cache' then 1 else 0) + (Visit.askedIn cache' inner).length := by
      by_cases hcache : cache = cache' <;>
        simp [Visit.askedIn, Visit.asked?, List.filterMap_cons, hcache, Nat.add_comm 1]
    rw [Engine.lookupsIn_stored, hinner.lookups, Engine.lookupsIn_stored,
      Engine.lookupsIn_counted, hlength, Nat.add_assoc]

end Ledger

/-! ## Audited runs -/

/--
A state that a run comes to, with what an auditor has noted since it was in another one: no entry is
lost, and the trace is that of what is in the ledger.
-/
structure Audited (grammar : Grammar α) (auditor : Auditor α) (first : Stages α) (base : Engine α)
    (before : Trace) (engine : Engine α) (trace : Trace) : Prop where
  enclosed : engine.Enclosed grammar
  noted : ∃ visits last, Ledger grammar first base visits last engine ∧ engine.Stands last ∧
    trace = auditor.trace before visits

section Runs

variable {auditor : Auditor α} {first : Stages α} {base engine engine' out : Engine α}
  {before trace : Trace} {found found' : Option (Output α)} {parser part : Parser α}
  {cursor : Cursor α} {fuel id cache : Nat}

namespace Audited

theorem refl (auditor : Auditor α) (henclosed : engine.Enclosed grammar)
    (hstands : engine.Stands first) (trace : Trace) :
    Audited grammar auditor first engine trace engine trace :=
  ⟨henclosed, [], first, .refl grammar first engine, hstands, auditor.trace_nil.symm⟩

/-- What does not touch the caches may happen, if no node that empties one comes to its end. -/
theorem congr (h : Audited grammar auditor first base before engine trace)
    (hcaches : out.caches = engine.caches) (henclosed : out.Enclosed grammar) :
    Audited grammar auditor first base before out trace := by
  obtain ⟨-, visits, last, hledger, hstands, rfl⟩ := h
  refine ⟨henclosed, visits, last, hledger.congr fun cache => ?_, hstands.congr hcaches, rfl⟩
  simp only [Engine.missesIn, Engine.lookupsIn, hcaches, and_self]

theorem same (h : Audited grammar auditor first base before engine trace)
    (hcaches : out.caches = engine.caches) (hdepth : out.depth = engine.depth) :
    Audited grammar auditor first base before out trace := by
  refine h.congr hcaches fun id cache parser hnode => ?_
  rw [hdepth]
  exact h.enclosed id cache parser hnode

theorem descended (h : Audited grammar auditor first base before engine trace) (id : Nat) :
    Audited grammar auditor first base before (engine.descended id) trace :=
  h.congr rfl fun other cache parser hnode =>
    Nat.lt_of_lt_of_le (h.enclosed other cache parser hnode) (engine.depth_le_descended id other)

end Audited

/--
Both runs are at one cursor and in states that differ in their traces only, the second of which
belongs to an audited state.
-/
def Bond.audit (grammar : Grammar α) (auditor : Auditor α) (first : Stages α) (base : Engine α)
    (before : Trace) : Bond α where
  like cursor cursor' := cursor' = cursor
  holds engine engine' := ∃ trace, Audited grammar auditor first base before engine trace ∧
    engine' = engine.withTrace trace
  alike := by
    rintro cursor _ rfl
    exact .refl _
  withLeft := by
    rintro cursor _ left rfl _
    rfl
  consume := by
    rintro cursor _ taken rest rfl hrest
    rfl

theorem Bond.audit_found_iff :
    (Bond.audit grammar auditor first base before).Found found engine found' engine' ↔
      ∃ trace, Audited grammar auditor first base before engine trace ∧ found' = found ∧
        engine' = engine.withTrace trace := by
  rw [found_iff_of_eq Iff.rfl]
  constructor
  · rintro ⟨⟨trace, haudited, rfl⟩, hsame⟩
    exact ⟨trace, haudited, hsame, rfl⟩
  · rintro ⟨trace, haudited, hsame, rfl⟩
    exact ⟨⟨trace, haudited, rfl⟩, hsame⟩

/-- A call from an audited state, and what comes of it. -/
theorem Bond.Mirrored.audited {call call' : Call α}
    {post : Option (Output α) → Engine α → Option (Output α) → Engine α → Prop}
    (h : (Bond.audit grammar auditor first base before).Mirrored call call' call' part)
    (haudited : Audited grammar auditor first base before engine trace)
    (hpost : ∀ found out trace, call part cursor engine = .ok (found, out) →
      Audited grammar auditor first base before out trace →
        post found out found (out.withTrace trace)) :
    Mirrors (call part cursor) engine (call' part cursor) (call' part cursor)
      (engine.withTrace trace) post := by
  intro found out hrun
  apply (h rfl ⟨trace, haudited, rfl⟩ found out hrun).mono
  intro found' out' hfound
  obtain ⟨trace, haudited, rfl, rfl⟩ := Bond.audit_found_iff.mp hfound
  exact hpost _ out trace hrun haudited

/-- A folded payload is offered with the same tag. -/
theorem extends_audit {call call' : Call α}
    (h : (Bond.audit grammar auditor first base before).Mirrored call call' call' parser) :
    Engine.Extends (Bond.audit grammar auditor first base before) call call' call' parser := by
  apply Engine.Extends.of_mirrored h
  rintro cursor _ engine _ value rfl ⟨trace, haudited, rfl⟩
  exact ⟨rfl, trace, haudited.same rfl rfl, rfl⟩

theorem Parser.unlogged_of_stateless (h : parser.Stateless) : parser.unlogged = parser := by
  cases parser <;> first | rfl | exact h.elim

/-- What is under way is no part of what is audited. -/
theorem mirrors_guarded {call call' : Call α}
    (hpart : (Bond.audit grammar auditor first base before).Mirrored call call' call' part)
    (h : Audited grammar auditor first base before engine trace) :
    Mirrors (Engine.guardedMatch call id part cursor) engine
      (Engine.guardedMatch call' id part cursor) (Engine.guardedMatch call' id part cursor)
      (engine.withTrace trace) (Bond.audit grammar auditor first base before).Found := by
  have hentered : Audited grammar auditor first base before (engine.entered id cursor.offset)
      trace := h.same rfl rfl
  apply Engine.mirrors_guardedMatch rfl
  · intro hfree
    apply And.intro hfree
    apply Bond.Mirrored.audited hpart hentered
    intro found out trace _ h
    exact Bond.audit_found_iff.mpr ⟨trace, h.same rfl rfl, rfl, rfl⟩
  · exact fun hbusy => ⟨hbusy, .none ⟨trace, h, rfl⟩⟩

theorem mirrored_attempt {call call' : Call α} {index : Nat}
    (hpart : (Bond.audit grammar auditor first base before).Mirrored call call' call' part) :
    (Bond.audit grammar auditor first base before).Mirrored (Engine.attempt call id index)
      (Engine.attempt call' id index) (Engine.attempt call' id index) part := by
  rintro _ cursor engine _ rfl ⟨trace, h, rfl⟩
  have hpushed : Audited grammar auditor first base before (engine.pushed id index) trace :=
    h.same rfl rfl
  apply Engine.mirrors_attempt
  apply Bond.Mirrored.audited hpart hpushed
  intro found out trace _ h
  exact Bond.audit_found_iff.mpr ⟨trace, h.same rfl rfl, rfl, rfl⟩

/-- A node that logs its calls logs nothing in an audited run. -/
theorem mirrors_logged {name : String} {call call' : Call α}
    (hpart : (Bond.audit grammar auditor first base before).Mirrored call call' call' part)
    (h : Audited grammar auditor first base before engine trace) :
    Mirrors (Engine.loggedMatch call name part cursor) engine (call' part cursor)
      (call' part cursor) (engine.withTrace trace)
      (Bond.audit grammar auditor first base before).Found := by
  intro found out hrun
  obtain ⟨_, mid, hentered, hrest⟩ := bind_eq_ok hrun
  cases hentered
  obtain ⟨found, mid, hcall, hrest⟩ := bind_eq_ok hrest
  obtain ⟨_, _, hreturned, hreturn⟩ := bind_eq_ok hrest
  cases hreturned
  cases hreturn
  have hrecorded : Audited grammar auditor first base before
      (engine.recorded (.entered name cursor.offset cursor.left.key)) trace := h.same rfl rfl
  apply (hpart rfl ⟨trace, hrecorded, rfl⟩ _ mid hcall).mono
  intro found' out' hfound
  obtain ⟨trace, h, rfl, rfl⟩ := Bond.audit_found_iff.mp hfound
  exact Bond.audit_found_iff.mpr ⟨trace, h.same rfl rfl, rfl, rfl⟩

/-- A node that empties a cache does not do so while it is under way further out. -/
theorem mirrors_enclosed (hnode : .clearing id cache part ∈ grammar.nodes)
    (hpart : (Bond.audit grammar auditor first base before).Mirrored
      (Engine.run grammar.rules fuel) (auditor.run grammar.rules fuel)
      (auditor.run grammar.rules fuel) part)
    (h : Audited grammar auditor first base before engine trace) :
    Mirrors (Engine.clearingMatch (Engine.run grammar.rules fuel) id cache part cursor) engine
      (Engine.clearingMatch (auditor.run grammar.rules fuel) id cache part cursor)
      (Engine.clearingMatch (auditor.run grammar.rules fuel) id cache part cursor)
      (engine.withTrace trace) (Bond.audit grammar auditor first base before).Found := by
  apply Engine.mirrors_clearingMatch
  apply Bond.Mirrored.audited hpart (h.descended id)
  intro found out trace hrun hout
  have hbalanced : (engine.descended id).Balanced out := tracks_balanced.of_ok hrun
  have hinner : (out.ascended id).depth.get id ≠ 0 := by
    rw [hbalanced.depth_ascended]
    exact Nat.ne_of_gt (h.enclosed id cache part hnode)
  have hended : out.ended id cache = out.ascended id := if_neg hinner
  rw [Engine.ended_withTrace, hended]
  refine Bond.audit_found_iff.mpr ⟨trace, hout.congr rfl ?_, rfl, rfl⟩
  intro other cache' parser hother
  rw [← hended, (Engine.Balanced.ended hbalanced cache).depth]
  exact h.enclosed other cache' parser hother

/-- The run of what a cached parser wraps, from its first visit to its last. -/
theorem mirrors_attend {call call' : Call α} {stages : Stages α} {key : CacheKey}
    (hpart : (Bond.audit grammar auditor stages engine
      (auditor.trace trace [.began cache key])).Mirrored call call' call' part)
    (henclosed : engine.Enclosed grammar) (hstands : engine.Stands stages) :
    Mirrors (call part cursor) engine (auditor.attend cache key call' part cursor)
      (auditor.attend cache key call' part cursor) (engine.withTrace trace)
      fun found out found' out' => found' = found ∧ out.Enclosed grammar ∧ ∃ visits last,
        Ledger grammar stages engine visits last out ∧ out.Stands last ∧
          out' = out.withTrace
            (auditor.trace trace (.began cache key :: visits ++ [.finished cache key found])) := by
  intro found out hrun
  apply Tracks.bind
  apply Tracks.of_eq (Engine.note_eq _ engine trace)
  apply Tracks.bind
  rw [← Auditor.trace_single]
  apply (hpart rfl ⟨_, .refl auditor henclosed hstands _, rfl⟩ found out hrun).mono
  intro found' out' hfound
  obtain ⟨_, ⟨henclosed, visits, last, hledger, hstands, rfl⟩, rfl, rfl⟩ :=
    Bond.audit_found_iff.mp hfound
  apply Tracks.bind
  apply Tracks.of_eq (Engine.note_eq _ out _)
  refine Tracks.pure ⟨rfl, henclosed, visits, last, hledger, hstands, ?_⟩
  rw [← Auditor.trace_single, ← Auditor.trace_append, ← Auditor.trace_append]
  rfl

/-- A call of a cached parser, after it is noted and before its answer is. -/
theorem mirrors_visit {call call' : Call α} {stages : Stages α} {key : CacheKey}
    (hnode : .memo id cache part ∈ grammar.nodes)
    (hkey : key = ⟨id, cursor.offset, cursor.left.key⟩)
    (hpart : ∀ first base before,
      (Bond.audit grammar auditor first base before).Mirrored call call' call' part)
    (henclosed : engine.Enclosed grammar) (hstands : engine.Stands stages) :
    Mirrors (Engine.memoMatch call id cache part cursor) engine
      (Engine.memoMatch (auditor.attend cache key call') id cache part cursor)
      (Engine.memoMatch (auditor.attend cache key call') id cache part cursor)
      (engine.withTrace (auditor.trace trace [.asked cache key]))
      fun found out found' out' => found' = found ∧ out.Enclosed grammar ∧ ∃ inner last,
        Ledger grammar stages engine (.asked cache key :: inner ++ [.answered cache key found])
          last out ∧ out.Stands last ∧
        out' = out.withTrace (auditor.trace trace (.asked cache key :: inner)) := by
  apply Engine.mirrors_memoMatch hkey hkey
  · intro result hentry
    refine ⟨result, hentry, rfl, henclosed, [], stages, ?_, hstands.counted cache key, rfl⟩
    exact .hit hstands hentry
  · intro hentry
    refine ⟨hentry, ?_⟩
    have hnode' : .memo key.node cache part ∈ grammar.nodes := hkey ▸ hnode
    have hbegun : ((engine.counted cache key).stored cache key none).Stands
        (stages.put cache key .running) := (hstands.counted cache key).stored cache key rfl
    have henclosed' : ((engine.counted cache key).stored cache key none).Enclosed grammar :=
      henclosed
    apply (mirrors_attend (hpart _ _ _) henclosed' hbegun).mono
    rintro _ out found _ ⟨rfl, henclosed, inner, last, hinner, hlast, rfl⟩
    refine ⟨rfl, henclosed, .began cache key :: inner ++ [.finished cache key found],
      last.put cache key (.done found), ?_, hlast.stored cache key rfl, ?_⟩
    · have hmissed : Ledger grammar stages engine
          (.asked cache key :: .began cache key :: inner ++
            [.finished cache key found, .answered cache key found])
          (last.put cache key (.done found)) (out.stored cache key found) :=
        .missed hstands hentry hnode' hinner
      simpa using hmissed
    · exact congrArg (out.stored cache key found).withTrace Auditor.trace_append.symm

/-- A cached parser is called, and runs what it wraps or not. -/
theorem mirrors_memo (hnode : .memo id cache part ∈ grammar.nodes)
    (hpart : ∀ first base before, (Bond.audit grammar auditor first base before).Mirrored
      (Engine.run grammar.rules fuel) (auditor.run grammar.rules fuel)
      (auditor.run grammar.rules fuel) part)
    (h : Audited grammar auditor first base before engine trace) :
    Mirrors (Engine.run grammar.rules (fuel + 1) (.memo id cache part) cursor) engine
      (auditor.run grammar.rules (fuel + 1) (.memo id cache part) cursor)
      (auditor.run grammar.rules (fuel + 1) (.memo id cache part) cursor) (engine.withTrace trace)
      (Bond.audit grammar auditor first base before).Found := by
  obtain ⟨henclosed, visits, stages, hledger, hstands, rfl⟩ := h
  intro found out hrun
  apply Tracks.bind
  apply Tracks.of_eq (Engine.note_eq _ engine _)
  apply Tracks.bind
  rw [← Auditor.trace_single]
  apply (mirrors_visit hnode rfl hpart henclosed hstands found out hrun).mono
  rintro _ _ ⟨rfl, henclosed, inner, last, hvisit, hlast, rfl⟩
  apply Tracks.bind
  apply Tracks.of_eq (Engine.note_eq _ out _)
  refine Tracks.pure (Bond.audit_found_iff.mpr ⟨_, ⟨henclosed, _, last, hledger.trans hvisit,
    hlast, ?_⟩, rfl, rfl⟩)
  rw [← Auditor.trace_single, ← Auditor.trace_append, ← Auditor.trace_append]

/--
An audited run returns what the run returns, and its trace is that of a chronicle, if no cache can
be emptied on the way.
-/
theorem Auditor.mirrored_run (hnode : parser ∈ grammar.nodes) :
    (Bond.audit grammar auditor first base before).Mirrored (Engine.run grammar.rules fuel)
      (auditor.run grammar.rules fuel) (auditor.run grammar.rules fuel) parser := by
  induction fuel generalizing parser first base before with
  | zero =>
      intro cursor cursor' engine engine' _ _
      exact Mirrors.of_stop rfl
  | succ fuel ih =>
      have hmirrored : ∀ part, grammar.rules.Calls parser part →
          (Bond.audit grammar auditor first base before).Mirrored (Engine.run grammar.rules fuel)
            (auditor.run grammar.rules fuel) (auditor.run grammar.rules fuel) part :=
        fun part hpart => ih (Grammar.mem_nodes_of_calls hnode hpart)
      rintro _ cursor engine _ rfl ⟨trace, h, rfl⟩
      have hlike : (Bond.audit grammar auditor first base before).like cursor cursor := rfl
      have hholds : (Bond.audit grammar auditor first base before).holds engine
          (engine.withTrace trace) := ⟨trace, h, rfl⟩
      by_cases hmemo : parser.isMemo
      · obtain ⟨id, cache, part, rfl⟩ := Parser.exists_of_isMemo hmemo
        exact mirrors_memo hnode
          (fun first base before => ih (Grammar.child_mem_nodes hnode List.mem_cons_self)) h
      rw [Auditor.run_succ hmemo]
      by_cases hstateless : parser.Stateless
      · rw [Parser.unlogged_of_stateless hstateless]
        apply Engine.mirrors_step hstateless hmirrored _ (.inl (Nat.le_refl fuel))
          (.inl (Nat.le_refl fuel)) hlike hholds
        rintro left middle right combine rfl
        exact extends_audit (hmirrored left (.child List.mem_cons_self))
      cases parser with
      | guarded id part => exact mirrors_guarded (hmirrored part (.child List.mem_cons_self)) h
      | climb id alternatives =>
          have hclimbing : (engine.withTrace trace).climbing.get id = engine.climbing.get id := rfl
          apply Engine.mirrors_climbMatch hclimbing (fun _ _ _ hanswer => ⟨hanswer, hanswer⟩) _
            hlike hholds
          exact fun index part hpart => mirrored_attempt (hmirrored part (.child hpart))
      | clearing id cache part =>
          exact mirrors_enclosed hnode (hmirrored part (.child List.mem_cons_self)) h
      | logged name part =>
          exact mirrors_logged (hmirrored part (.child List.mem_cons_self)) h
      | redirected move part =>
          simp only [Engine.run, Parser.unlogged, Engine.step]
          cases move cursor with
          | ok next => exact hmirrored part (.child List.mem_cons_self) rfl hholds
          | error fault => exact Mirrors.of_stop rfl
      | memo id cache part => exact absurd rfl hmemo
      | _ => exact absurd trivial hstateless

end Runs

end Packrat
