import Mathlib.Data.List.Dedup
import Packrat.Proofs.Audit.Recorder
import Packrat.Proofs.Reuse

/-!
# One evaluation for each key

Where caches are emptied around the entry only, nothing is lost while a text is parsed: what a
cached parser wraps is run once for each key, and every other call is answered from the cache.  In
the traced grammars the trace lists each of these runs, and no other.
-/

namespace Packrat

variable {α : Type} {grammar : Grammar α} {parser : Parser α} {auditor : Auditor α}
  {first : Stages α} {engine out : Engine α} {trace : Trace} {cursor : Cursor α} {fuel : Nat}
  {names : List String} {history : List (Visit α)}

/-! ## Grammars that are reset at the entry -/

/--
Before a call goes on, all nodes of the grammar that empty caches are under way, given the numbers
of those that are under way already.
-/
inductive Grammar.ResetsFirst (grammar : Grammar α) : List Nat → Parser α → Prop
  | entered {ids : List Nat} {parser : Parser α}
      (h : ∀ id cache part, .clearing id cache part ∈ grammar.nodes → id ∈ ids) :
      ResetsFirst grammar ids parser
  | clearing {ids : List Nat} {id cache : Nat} {part : Parser α}
      (h : grammar.ResetsFirst (id :: ids) part) : ResetsFirst grammar ids (.clearing id cache part)
  | call {ids : List Nat} {rule : Nat} {body : Parser α}
      (hbody : grammar.rules.find rule = .body body) (h : grammar.ResetsFirst ids body) :
      ResetsFirst grammar ids (.call rule)

/-- The grammar empties caches around its entry only. -/
def Grammar.ResetsAtEntry (grammar : Grammar α) : Prop := grammar.ResetsFirst [] grammar.entry

/-- An audited run returns what the run returns, and its trace is that of a chronicle. -/
theorem Grammar.ResetsFirst.mirrors_run {ids : List Nat} (h : grammar.ResetsFirst ids parser)
    (hnode : parser ∈ grammar.nodes) (hdepth : ∀ id ∈ ids, 0 < engine.depth.get id)
    (hstands : engine.Stands first) :
    Mirrors (Engine.run grammar.rules fuel parser cursor) engine
      (auditor.run grammar.rules fuel parser cursor) (auditor.run grammar.rules fuel parser cursor)
      (engine.withTrace trace) fun found out found' out' => found' = found ∧ ∃ history last,
        Ledger grammar first engine history last out ∧
          out' = out.withTrace (auditor.trace trace history) := by
  induction h generalizing fuel engine with
  | entered hids =>
      have henclosed : engine.Enclosed grammar :=
        fun id cache part hmem => hdepth id (hids id cache part hmem)
      intro found out hrun
      apply (Auditor.mirrored_run hnode rfl ⟨trace, .refl auditor henclosed hstands trace, rfl⟩
        found out hrun).mono
      intro found' out' hfound
      obtain ⟨_, ⟨-, history, last, hledger, -, rfl⟩, rfl, rfl⟩ := Bond.audit_found_iff.mp hfound
      exact ⟨rfl, history, last, hledger, rfl⟩
  | @clearing ids id cache part _ ih =>
      cases fuel with
      | zero => exact Mirrors.of_stop rfl
      | succ fuel =>
          have hdepth' : ∀ other ∈ id :: ids, 0 < (engine.descended id).depth.get other := by
            intro other hmem
            rcases List.mem_cons.mp hmem with rfl | hmem
            · exact engine.depth_descended_pos _
            · exact Nat.lt_of_lt_of_le (hdepth other hmem) (engine.depth_le_descended id other)
          apply Engine.mirrors_clearingMatch
          apply (ih (Grammar.child_mem_nodes hnode List.mem_cons_self) hdepth'
            (hstands.congr rfl)).mono
          rintro found out _ _ ⟨rfl, history, last, hledger, rfl⟩
          refine ⟨rfl, history, last, ?_, Engine.ended_withTrace out _ id cache⟩
          exact { hledger with
            misses := fun cache' =>
              (out.counts_ended id cache cache').1.trans (hledger.misses cache')
            lookups := fun cache' =>
              (out.counts_ended id cache cache').2.trans (hledger.lookups cache') }
  | @call ids rule body hbody _ ih =>
      cases fuel with
      | zero => exact Mirrors.of_stop rfl
      | succ fuel =>
          simp only [Engine.run, Auditor.run, Parser.unlogged, Engine.step, hbody]
          exact ih (Grammar.body_mem_nodes hbody) hdepth hstands

/-! ## What an audit finds -/

/--
What is cached is run once for each key that is asked for.  Any further call is answered at once:
with what the run has found, or with no match as long as the run is on.
-/
structure Engine.OncePerKey (engine out : Engine α) (history : List (Visit α)) : Prop where
  nodup : ∀ cache, (Visit.begunIn cache history).Nodup
  begun_iff_asked : ∀ cache key, .began cache key ∈ history ↔ .asked cache key ∈ history
  begins : ∀ {before cache key after}, history = before ++ .asked cache key :: after →
    .began cache key ∉ before → ∃ rest, after = .began cache key :: rest
  recalls : ∀ {before cache key found after}, history = before ++ .asked cache key :: after →
    .finished cache key found ∈ before → ∃ rest, after = .answered cache key found :: rest
  waits : ∀ {before cache key after}, history = before ++ .asked cache key :: after →
    .began cache key ∈ before → (∀ found, .finished cache key found ∉ before) →
      ∃ rest, after = .answered cache key none :: rest
  /-- A key is missed when it is asked for the first time, -/
  misses : ∀ cache,
    out.missesIn cache = engine.missesIn cache + (Visit.askedIn cache history).dedup.length
  /-- and every call is a lookup. -/
  lookups : ∀ cache,
    out.lookupsIn cache = engine.lookupsIn cache + (Visit.askedIn cache history).length

/-- A run that begins with empty caches keeps to the stages of the keys. -/
theorem Ledger.oncePerKey {last : Stages α}
    (h : Ledger grammar (fun _ _ => .ahead) engine history last out) :
    engine.OncePerKey out history := by
  have hbegun : ∀ cache key, .began cache key ∈ history ↔ .asked cache key ∈ history := by
    intro cache key
    refine ⟨h.prompt.asked_of_began, fun hmem => h.chronicle.began_iff.mpr ⟨rfl, ?_⟩⟩
    exact h.chronicle.ne_ahead_of_asked h.prompt hmem
  refine ⟨fun _ => h.chronicle.nodup_begunIn, hbegun, ?_, ?_, ?_, ?_, h.lookups⟩
  · rintro before cache key after rfl hahead
    obtain ⟨middle, rest, hbefore, -, ⟨-, hnext⟩ | ⟨found, hentry, -⟩⟩ :=
      h.chronicle.next_of_asked h.prompt
    · exact ⟨rest, hnext⟩
    · refine absurd (hbefore.began_iff.mpr ⟨rfl, fun hstage => ?_⟩) hahead
      rw [hstage] at hentry
      cases hentry
  · rintro before cache key found after rfl hfinished
    obtain ⟨middle, rest, hbefore, -, ⟨hstage, -⟩ | ⟨found', hentry, hnext⟩⟩ :=
      h.chronicle.next_of_asked h.prompt
    · cases (hbefore.done_of_finished hfinished).symm.trans hstage
    · rw [hbefore.done_of_finished hfinished] at hentry
      cases hentry
      exact ⟨rest, hnext⟩
  · rintro before cache key after rfl hbegan hrunning
    obtain ⟨middle, rest, hbefore, -, ⟨hstage, -⟩ | ⟨found, hentry, hnext⟩⟩ :=
      h.chronicle.next_of_asked h.prompt
    · cases (hbefore.running_of_began hbegan hrunning).symm.trans hstage
    · rw [hbefore.running_of_began hbegan hrunning] at hentry
      cases hentry
      exact ⟨rest, hnext⟩
  · intro cache
    have hkeys : (Visit.begunIn cache history).Perm (Visit.askedIn cache history).dedup := by
      rw [List.perm_ext_iff_of_nodup h.chronicle.nodup_begunIn (List.nodup_dedup _)]
      simp [hbegun]
    rw [h.misses, hkeys.length_eq]

/-- The audit of a run that returns. -/
theorem Grammar.ResetsAtEntry.yields_run (h : grammar.ResetsAtEntry) (hblank : engine.Blank)
    (auditor : Auditor α) (trace : Trace) {found : Option (Output α)}
    (hrun : Engine.run grammar.rules fuel grammar.entry cursor engine = .ok (found, out)) :
    ∃ history last, auditor.run grammar.rules fuel grammar.entry cursor (engine.withTrace trace) =
        .ok (found, out.withTrace (auditor.trace trace history)) ∧
      Ledger grammar (fun _ _ => .ahead) engine history last out := by
  obtain ⟨_, _, haudited, rfl, history, last, hledger, rfl⟩ :=
    (ResetsFirst.mirrors_run h entry_mem_nodes nofun (.of_blank hblank) found out hrun).yields
  exact ⟨history, last, haudited, hledger⟩

/-! ## Traced grammars -/

theorem Arithmetic.records : (Arithmetic.grammar true).Records
    ["plus", "minus", "times", "divide", "negate", "power", "group", "number"] where
  nodup := by decide
  entry := rfl
  nodes := rfl

set_option maxRecDepth 4000 in
theorem Expression.records : (Expression.grammar true).Records
    ["||", "&&", "==", "!=", "+", "-", "*", "/", "%", "unary !", "unary -", "^", "call", "array",
      "group", "integer", "string", "identifier"] where
  nodup := by decide
  entry := rfl
  nodes := rfl

/-- The node empties no cache, unless it is the one of the number. -/
def Parser.clearsAs (id : Nat) : Parser α → Bool
  | .clearing other _ _ => other == id
  | _ => true

/-- A single node around the entry empties all caches. -/
theorem Grammar.ResetsAtEntry.of_clearing {id cache : Nat} {part : Parser α}
    (hentry : grammar.entry = .clearing id cache part)
    (h : grammar.nodes.all (Parser.clearsAs id) = true) : grammar.ResetsAtEntry := by
  rw [ResetsAtEntry, hentry]
  refine .clearing (.entered fun other cache' part' hmem => ?_)
  obtain rfl := beq_iff_eq.mp (List.all_eq_true.mp h _ hmem)
  exact List.mem_cons_self

theorem Arithmetic.resetsAtEntry (traced : Bool) : (Arithmetic.grammar traced).ResetsAtEntry :=
  .of_clearing rfl (by cases traced <;> rfl)

set_option maxRecDepth 2000 in
theorem Expression.resetsAtEntry (traced : Bool) : (Expression.grammar traced).ResetsAtEntry :=
  .of_clearing rfl (by cases traced <;> rfl)

/-- In a grammar that records what it caches, the trace lists every miss once. -/
theorem Grammar.Records.sites (h : grammar.Records names) (hresets : grammar.ResetsAtEntry)
    (hblank : engine.Blank) (htrace : engine.trace = #[]) {found : Option (Output α)}
    (hrun : Engine.run grammar.rules fuel grammar.entry cursor engine = .ok (found, out)) :
    out.missesIn 0 = engine.missesIn 0 + out.trace.sites.length ∧ out.trace.sites.Nodup := by
  obtain ⟨history, last, haudited, hledger⟩ :=
    hresets.yields_run hblank (.recorder names) #[] hrun
  have hsame : engine.withTrace #[] = engine := by rw [← htrace]; rfl
  rw [h.run_eq entry_mem_nodes, Parser.unlogged_of_isLogged h.entry, hsame, hrun] at haudited
  have hout : out.trace = (Auditor.recorder names).trace #[] history :=
    congrArg Engine.trace (Prod.mk.inj (Except.ok.inj haudited)).2
  have hcache : ∀ cache key, Visit.began cache key ∈ history → cache = 0 := by
    intro cache key hmem
    obtain ⟨part, hnode⟩ := hledger.memo_of_began cache key hmem
    exact (Parser.memo_of_recordsIn (List.all_eq_true.mp h.nodes _ hnode)).1
  rw [hout, Auditor.sites_recorder hcache]
  constructor
  · rw [List.length_map, hledger.misses]
  · refine List.Nodup.map_on (fun key hmem key' hmem' hsite => ?_) hledger.chronicle.nodup_begunIn
    obtain ⟨_, hnode⟩ := hledger.memo_of_began 0 key (Visit.mem_begunIn.mp hmem)
    obtain ⟨_, hnode'⟩ := hledger.memo_of_began 0 key' (Visit.mem_begunIn.mp hmem')
    exact h.site_injective hnode hnode' hsite

/-- What a grammar that records what it caches leaves behind for a text. -/
theorem Grammar.Records.observe (h : grammar.Records names) (hresets : grammar.ResetsAtEntry)
    {reader : Reader α} (hreads : grammar.Reads reader) (text : String) :
    ∃ observation, grammar.observe text = .ok observation ∧
      observation.trace.sites.length = observation.misses ∧
        ∀ site, observation.trace.invocations[site]? =
          if site ∈ observation.trace.sites then some 1 else none := by
  obtain ⟨_, hanswer⟩ := parseText_of_observe (hreads.observe text)
  obtain ⟨found, out, hparse, -⟩ := bind_eq_ok hanswer
  have hblank : (Engine.fresh.widened (Source.ofString text).size : Engine α).Blank :=
    Engine.blank_fresh
  obtain ⟨hlength, hnodup⟩ := h.sites hresets hblank rfl ((parse_eq_run _).symm.trans hparse)
  have hfresh : (Engine.fresh.widened (Source.ofString text).size : Engine α).missesIn 0 = 0 :=
    congrArg Cache.misses (Table.get_empty 0)
  rw [hfresh, Nat.zero_add] at hlength
  have htext : grammar.parseText (.ofString text) .fresh =
      .ok ((Source.ofString text).answer found, out) := parseText_of_parse hparse
  refine ⟨⟨(Source.ofString text).answer found, out.trace, (out.caches.get 0).hits,
    (out.caches.get 0).misses⟩, ?_, hlength.symm, Trace.invocations_of_nodup hnodup⟩
  simp only [Grammar.observe, StateT.run, Bind.bind, Except.bind, htext]
  rfl

/--
Where caches are emptied around the entry only, what is cached is run once for each key while a
text is parsed from empty caches on.  The traces of arithmetic and of the expression language have
a call for each miss, and each of these calls is counted once.
-/
theorem evaluates_once :
    (∀ {α : Type} (grammar : Grammar α) (fuel : Nat) (cursor : Cursor α) (engine : Engine α),
      grammar.ResetsAtEntry → engine.Blank → ∀ (auditor : Auditor α) (trace : Trace),
        Ends (fun _ => True)
          (fun found out => ∃ history,
            auditor.run grammar.rules fuel grammar.entry cursor (engine.withTrace trace) =
              .ok (found, out.withTrace (auditor.trace trace history)) ∧
            engine.OncePerKey out history)
          (Engine.run grammar.rules fuel grammar.entry cursor engine)) ∧
      ∀ text,
        (∃ observation, (Arithmetic.grammar true).observe text = .ok observation ∧
          observation.trace.sites.length = observation.misses ∧
            ∀ site, observation.trace.invocations[site]? =
              if site ∈ observation.trace.sites then some 1 else none) ∧
        ∃ observation, (Expression.grammar true).observe text = .ok observation ∧
          observation.trace.sites.length = observation.misses ∧
            ∀ site, observation.trace.invocations[site]? =
              if site ∈ observation.trace.sites then some 1 else none := by
  constructor
  · intro α grammar fuel cursor engine hresets hblank auditor trace
    cases hrun : Engine.run grammar.rules fuel grammar.entry cursor engine with
    | error stop => trivial
    | ok pair =>
        obtain ⟨history, last, haudited, hledger⟩ := hresets.yields_run hblank auditor trace hrun
        exact ⟨history, haudited, hledger.oncePerKey⟩
  · intro text
    exact ⟨Arithmetic.records.observe (Arithmetic.resetsAtEntry true)
        (Arithmetic.reads_evaluation true) text,
      Expression.records.observe (Expression.resetsAtEntry true) (Expression.reads_tree true) text⟩

/-- The parse of a sum returns, and its audit finds that each key was evaluated once. -/
theorem sum_evaluates_once :
    ∃ fuel engine found out history,
      Engine.run (Arithmetic.grammar true).rules fuel (Arithmetic.grammar true).entry
          (.start (.ofString "1-2+3")) engine = .ok (found, out) ∧
        (Auditor.recorder ["plus", "minus"]).run (Arithmetic.grammar true).rules fuel
            (Arithmetic.grammar true).entry (.start (.ofString "1-2+3")) (engine.withTrace #[]) =
          .ok (found, out.withTrace ((Auditor.recorder ["plus", "minus"]).trace #[] history)) ∧
        engine.OncePerKey out history := by
  obtain ⟨fuel, engine, hblank, found, out, hrun⟩ : ∃ fuel engine, engine.Blank ∧ ∃ found out,
      Engine.run (Arithmetic.grammar true).rules fuel (Arithmetic.grammar true).entry
        (.start (.ofString "1-2+3")) engine = .ok (found, out) := by
    obtain ⟨_, hanswer⟩ :=
      Grammar.parseText_of_observe ((Arithmetic.reads_evaluation true).observe "1-2+3")
    obtain ⟨found, out, hparse, -⟩ := bind_eq_ok hanswer
    refine ⟨_, _, ?_, found, out, (parse_eq_run _).symm.trans hparse⟩
    exact Engine.blank_fresh
  have hends := evaluates_once.1 (Arithmetic.grammar true) fuel (.start (.ofString "1-2+3")) engine
    (Arithmetic.resetsAtEntry true) hblank (.recorder ["plus", "minus"]) #[]
  rw [hrun] at hends
  obtain ⟨history, haudited, honce⟩ := hends
  exact ⟨fuel, engine, found, out, history, hrun, haudited, honce⟩

end Packrat
