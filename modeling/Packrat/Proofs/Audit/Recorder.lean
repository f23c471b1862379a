import Packrat.Proofs.Audit.Ledger

/-!
# The trace as a record of runs

In a traced grammar exactly the parsers behind the caches are logged.  Its trace is the one of an
auditor that notes when the run of such a parser begins and ends, so that the trace lists the keys
under which something was run.
-/

namespace Packrat

variable {α : Type} {grammar : Grammar α} {rules : Rules α} {parser part : Parser α}
  {names : List String} {fuel : Nat}

/-! ## Calls that agree -/

/-- A node goes one way with calls that do the same with its parts. -/
theorem Engine.step_congr {call call' : Call α}
    (h : ∀ part, rules.Calls parser part → call part = call' part) :
    step rules fuel call parser = step rules fuel call' parser := by
  have hkept : ∀ part, rules.Calls parser part → Kept (fun _ => True) call call' part := by
    intro part hpart cursor engine _
    rw [h part hpart]
    refine ⟨rfl, ?_⟩
    cases call' part cursor engine <;> trivial
  funext cursor engine
  by_cases hstateless : parser.Stateless
  · exact (tracks_stateless hstateless hkept (fun _ _ => trivial) trivial).same
  cases parser with
  | climb id alternatives =>
      have hclimb : Tracks (fun _ => True) (step rules fuel call (.climb id alternatives) cursor)
          (step rules fuel call' (.climb id alternatives) cursor) engine fun _ _ => True := by
        refine tracks_climb (fun engine' _ index part next hattempts => ?_) trivial
        exact hkept part (.child (List.mem_of_getElem? hattempts.getElem?_eq)) next _ trivial
      exact hclimb.same
  | guarded id part =>
      simp only [step, guardedMatch, h part (.child List.mem_cons_self)]
  | memo id cache part => simp only [step, memoMatch, h part (.child List.mem_cons_self)]
  | clearing id cache part =>
      simp only [step, clearingMatch, h part (.child List.mem_cons_self)]
  | logged name part => simp only [step, loggedMatch, h part (.child List.mem_cons_self)]
  | redirected move part => simp only [step, h part (.child List.mem_cons_self)]
  | _ => exact absurd trivial hstateless

/-! ## The recorder -/

/-- The name under which the runs of a cached parser are recorded. -/
def CacheKey.nameIn (names : List String) (key : CacheKey) : String := names.getD key.node ""

/-- Notes the beginning and the end of every run as a logged parser does. -/
def Auditor.recorder (names : List String) : Auditor α where
  notes
    | .began _ key => [.entered (key.nameIn names) key.offset key.left]
    | .finished _ key found =>
        [.returned (key.nameIn names) key.offset (found.map fun output => output.next.offset)]
    | _ => []

/-- The parser records its calls. -/
def Parser.isLogged : Parser α → Bool
  | .logged _ _ => true
  | _ => false

/-- What is cached is recorded under its own name, and nothing else is recorded. -/
def Parser.recordsIn (rules : Rules α) (names : List String) : Parser α → Bool
  | .memo id cache (.logged name _) => cache == 0 && names[id]? == some name
  | .memo _ _ _ => false
  | .call rule =>
      match rules.find rule with
      | .body part => !part.isLogged
      | _ => true
  | parser => parser.children.all (!·.isLogged)

theorem Parser.memo_of_recordsIn {id cache : Nat}
    (h : (Parser.memo id cache part).recordsIn rules names = true) :
    cache = 0 ∧ ∃ name inner, part = .logged name inner ∧ names[id]? = some name := by
  cases part with
  | logged name inner => simpa [recordsIn] using h
  | _ => cases h

theorem Parser.isLogged_of_recordsIn (h : parser.recordsIn rules names = true)
    (hmemo : ¬ parser.isMemo) (hpart : rules.Calls parser part) : part.isLogged = false := by
  cases hpart with
  | @body rule _ hbody => simpa [recordsIn, hbody] using h
  | child hmem =>
      cases parser with
      | memo id cache part => exact absurd rfl hmemo
      | call rule => cases hmem
      | _ => simpa using List.all_eq_true.mp h part hmem

/-- Exactly the parsers behind the first cache are recorded, each under a name of its own. -/
structure Grammar.Records (grammar : Grammar α) (names : List String) : Prop where
  nodup : names.Nodup
  entry : grammar.entry.isLogged = false
  nodes : grammar.nodes.all (Parser.recordsIn grammar.rules names) = true

theorem Engine.note_nil : (note [] : EngineM α Unit) = pure () := by
  funext engine
  have hsame : engine.withTrace (engine.trace ++ #[]) = engine := by
    rw [Array.append_empty]
    rfl
  exact congrArg (fun engine => Except.ok ((), engine)) hsame

theorem Engine.record_eq_note (event : Event) : (record event : EngineM α Unit) = note [event] := by
  funext engine
  have hsame : engine.withTrace (engine.trace.push event) =
      engine.withTrace (engine.trace ++ #[event]) := by rw [Array.append_singleton]
  exact congrArg (fun engine => Except.ok ((), engine)) hsame

theorem Parser.unlogged_of_isLogged (h : parser.isLogged = false) : parser.unlogged = parser := by
  cases parser <;> first | rfl | cases h

theorem Rules.Calls.of_unlogged (h : rules.Calls parser.unlogged part) :
    rules.Calls parser part := by
  cases parser <;> first | exact h | (cases h with | child hmem => exact .child hmem)

/-- What the recorder notes is what the grammar records. -/
theorem Grammar.Records.run_eq (h : grammar.Records names) (hnode : parser ∈ grammar.nodes) :
    (Auditor.recorder names).run grammar.rules fuel parser =
      Engine.run grammar.rules fuel parser.unlogged := by
  induction fuel generalizing parser with
  | zero => rfl
  | succ fuel ih =>
      have hrecords := List.all_eq_true.mp h.nodes parser hnode
      by_cases hmemo : parser.isMemo
      · obtain ⟨id, cache, part, rfl⟩ := Parser.exists_of_isMemo hmemo
        obtain ⟨rfl, name, inner, rfl, hname⟩ := Parser.memo_of_recordsIn hrecords
        funext cursor
        have hpart : (Auditor.recorder names).attend 0 ⟨id, cursor.offset, cursor.left.key⟩
            ((Auditor.recorder names).run grammar.rules fuel) (.logged name inner) cursor =
              Engine.run grammar.rules fuel (.logged name inner) cursor := by
          have hkey : CacheKey.nameIn names ⟨id, cursor.offset, cursor.left.key⟩ = name := by
            simp [CacheKey.nameIn, hname]
          rw [Auditor.attend, ih (Grammar.child_mem_nodes hnode List.mem_cons_self)]
          cases fuel with
          | zero => rfl
          | succ fuel =>
              simp only [Engine.run, Engine.step, Parser.unlogged, Engine.loggedMatch,
                Engine.record_eq_note, Auditor.recorder, hkey]
        simp only [Auditor.run, Auditor.recorder, Engine.note_nil, pure_bind, bind_pure] at hpart ⊢
        simp only [Engine.run, Engine.step, Parser.unlogged, Engine.memoMatch, hpart]
      · rw [Auditor.run_succ hmemo]
        apply Engine.step_congr
        intro part hpart
        have hcalls := hpart.of_unlogged
        rw [ih (Grammar.mem_nodes_of_calls hnode hcalls), Parser.unlogged_of_isLogged
          (Parser.isLogged_of_recordsIn hrecords hmemo hcalls)]

/-! ## Sites -/

/-- The site at which the run under a key is recorded. -/
def CacheKey.site (names : List String) (key : CacheKey) : Trace.Site :=
  ⟨key.nameIn names, key.offset, key.left⟩

/-- The trace of the recorder lists the keys of all runs. -/
theorem Auditor.sites_recorder {history : List (Visit α)}
    (h : ∀ cache key, .began cache key ∈ history → cache = 0) :
    Trace.sites ((recorder names).trace #[] history) =
      (Visit.begunIn 0 history).map (CacheKey.site names) := by
  simp only [Trace.sites, trace, Array.empty_append]
  induction history with
  | nil => rfl
  | cons visit history ih =>
      have hrest := ih fun cache key hmem => h cache key (List.mem_cons_of_mem _ hmem)
      rw [List.flatMap_cons, List.filterMap_append, hrest]
      cases visit with
      | began cache key =>
          obtain rfl := h cache key List.mem_cons_self
          rfl
      | _ => rfl

/-- Runs under different keys are recorded at different sites. -/
theorem Grammar.Records.site_injective (h : grammar.Records names) {key key' : CacheKey}
    {cache cache' : Nat} (hnode : .memo key.node cache part ∈ grammar.nodes)
    (hnode' : .memo key'.node cache' parser ∈ grammar.nodes)
    (hsite : key.site names = key'.site names) : key = key' := by
  obtain ⟨-, name, -, -, hname⟩ :=
    Parser.memo_of_recordsIn (List.all_eq_true.mp h.nodes _ hnode)
  obtain ⟨-, name', -, -, hname'⟩ :=
    Parser.memo_of_recordsIn (List.all_eq_true.mp h.nodes _ hnode')
  obtain ⟨node, offset, left⟩ := key
  obtain ⟨node', offset', left'⟩ := key'
  simp only [CacheKey.site, CacheKey.nameIn, List.getD_eq_getElem?_getD, hname, hname',
    Option.getD_some, Trace.Site.mk.injEq] at hsite
  obtain ⟨rfl, rfl, rfl⟩ := hsite
  have hbound : node < names.length := (List.getElem?_eq_some_iff.mp hname).1
  have hnodes : node = node' := (List.getElem?_inj hbound h.nodup).mp (hname.trans hname'.symm)
  rw [hnodes]

/-- Where no site is listed twice, the sites that are listed are counted once, and no others. -/
theorem Trace.invocations_of_nodup {trace : Trace} (h : trace.sites.Nodup) (site : Trace.Site) :
    trace.invocations[site]? = if site ∈ trace.sites then some 1 else none := by
  rw [getElem?_invocations]
  split
  · next hmem => rw [List.count_eq_one_of_mem h hmem]
  · rfl

/-- The check of a trace is passed if and only if no site is listed twice. -/
theorem Trace.oncePerSite_iff {trace : Trace} :
    trace.oncePerSite = true ↔ trace.sites.Nodup := by
  rw [oncePerSite, List.all_eq_true, List.nodup_iff_count_eq_one]
  constructor
  · intro h site hmem
    have hcount : trace.invocations[site]? = some (trace.sites.count site) := by
      rw [getElem?_invocations, if_pos hmem]
    exact eq_of_beq (h _ (Std.HashMap.mem_toList_iff_getElem?_eq_some.mpr hcount))
  · rintro h ⟨site, count⟩ hentry
    have hcount := Std.HashMap.mem_toList_iff_getElem?_eq_some.mp hentry
    rw [getElem?_invocations] at hcount
    split at hcount
    · next hmem =>
        cases hcount
        exact beq_iff_eq.mpr (h site hmem)
    · cases hcount

end Packrat
