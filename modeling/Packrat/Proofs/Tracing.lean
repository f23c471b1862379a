import Packrat.Command.Run
import Packrat.Proofs.Expression
import Packrat.Proofs.Reuse
import Packrat.Proofs.Trace
import Packrat.Proofs.Tracing.Run

/-!
# Traces change nothing

Two grammars that are the same without their traces answer alike, and leave the same state but for
what they recorded: the same hits, misses and entries in all caches, the same guards and
alternatives under way.  So a traced run of a language reports what the run without traces does.
-/

namespace Packrat

variable {α : Type}

/-- The parser returns this, and leaves this state, if calls may be nested deep enough. -/
def Parser.Returns (rules : Rules α) (parser : Parser α) (cursor : Cursor α) (engine : Engine α)
    (found : Option (Output α)) (out : Engine α) : Prop :=
  ∃ fuel, Engine.run rules fuel parser cursor engine = .ok (found, out)

section Returns

variable {rules rules' : Rules α} {parser parser' : Parser α} {cursor : Cursor α}
  {engine engine' out out' : Engine α} {found found' : Option (Output α)} {fuel fuel' : Nat}

theorem Engine.Alike.widened (h : engine.Alike engine') (bytes : Nat) :
    (engine.widened bytes).Alike (engine'.widened bytes) :=
  congrArg (Engine.widened · bytes) h

/-- Without its traces a parser returns the same, with as much room. -/
theorem exists_quietRun (h : Engine.run rules fuel parser cursor engine = .ok (found, out))
    (hle : fuel ≤ fuel') (halike : engine.Alike engine') :
    ∃ out', Engine.quietRun rules fuel' parser cursor engine' = .ok (found, out') ∧
      out.Alike out' := by
  obtain ⟨found', out', hrun, hfound⟩ := (mirrored_quietRun hle rfl halike found out h).yields
  obtain ⟨halike, rfl⟩ := Bond.untraced_found_iff.mp hfound
  exact ⟨out', hrun, halike⟩

/-- What returns without traces returns the same with them. -/
theorem returns_of_quietRun
    (h : Engine.quietRun rules fuel parser cursor engine = .ok (found, out))
    (halike : engine.Alike engine') :
    ∃ out', parser.Returns rules cursor engine' found out' ∧ out.Alike out' := by
  let grammar : Grammar α := ⟨rules, parser⟩
  obtain ⟨most, hmost⟩ := grammar.exists_logs_le
  have hnode : parser ∈ grammar.nodes := Grammar.entry_mem_nodes
  have hmirrored : Bond.untraced.Mirrored (Engine.quietRun rules fuel)
      (Engine.run rules (fuel * (most + 1))) (Engine.run rules (fuel * (most + 1))) parser :=
    mirrored_run_of_quiet hmost hnode (Nat.le_refl _)
  obtain ⟨found', out', hrun, hfound⟩ := (hmirrored rfl halike found out h).yields
  obtain ⟨halike, rfl⟩ := Bond.untraced_found_iff.mp hfound
  exact ⟨out', ⟨_, hrun⟩, halike⟩

theorem quietRun_eq (hrules : rules'.untraced = rules.untraced)
    (hparser : parser'.untraced = parser.untraced) :
    Engine.quietRun rules' fuel parser' = Engine.quietRun rules fuel parser := by
  rw [Engine.quietRun, Engine.quietRun, hrules, hparser]

/-- Parsers that are the same without their traces return the same. -/
theorem Parser.Returns.alike (hrules : rules'.untraced = rules.untraced)
    (hparser : parser'.untraced = parser.untraced) (halike : engine.Alike engine')
    (h : parser.Returns rules cursor engine found out) :
    ∃ out', parser'.Returns rules' cursor engine' found out' ∧ out.Alike out' := by
  obtain ⟨fuel, hrun⟩ := h
  obtain ⟨mid, hquiet, hmid⟩ := exists_quietRun hrun (Nat.le_refl _) (.refl engine)
  rw [← quietRun_eq hrules hparser] at hquiet
  obtain ⟨out', hreturns, hout⟩ := returns_of_quietRun hquiet halike
  exact ⟨out', hreturns, hmid.trans hout⟩

/-- What two such parsers return, and leave behind, is the same, however deep calls may go. -/
theorem Parser.Returns.same (hrules : rules'.untraced = rules.untraced)
    (hparser : parser'.untraced = parser.untraced) (halike : engine.Alike engine')
    (h : parser.Returns rules cursor engine found out)
    (h' : parser'.Returns rules' cursor engine' found' out') :
    found' = found ∧ out.Alike out' := by
  obtain ⟨fuel, hrun⟩ := h
  obtain ⟨fuel', hrun'⟩ := h'
  obtain ⟨mid, hquiet, hmid⟩ := exists_quietRun hrun (Nat.le_max_left fuel fuel') (.refl engine)
  obtain ⟨mid', hquiet', hmid'⟩ :=
    exists_quietRun hrun' (Nat.le_max_right fuel fuel') halike.symm
  rw [quietRun_eq hrules hparser, hquiet] at hquiet'
  cases hquiet'
  exact ⟨rfl, hmid.trans hmid'.symm⟩

end Returns

/-! ## Whole texts -/

/-- Two observations with the same answer and the same counts; their traces may differ. -/
structure Grammar.Observation.Same (observation observation' : Grammar.Observation α) : Prop where
  result_eq : observation'.result = observation.result
  hits_eq : observation'.hits = observation.hits
  misses_eq : observation'.misses = observation.misses

theorem Grammar.Observation.Same.shown {observation observation' : Grammar.Observation α}
    (h : observation.Same observation') (display describe : α → String) :
    (observation.shown display describe).Same (observation'.shown display describe) :=
  ⟨by rw [Observation.shown, Observation.shown, h.result_eq], h.hits_eq, h.misses_eq⟩

theorem Grammar.Observation.Same.statistics_eq {observation observation' : Grammar.Observation α}
    (h : observation.Same observation') (palette : Palette) :
    observation'.statistics palette = observation.statistics palette := by
  rw [Observation.statistics, Observation.statistics, h.hits_eq, h.misses_eq]

section Texts

variable {grammar grammar' : Grammar α} {source : Source} {engine engine' out out' : Engine α}
  {answer answer' : Except (Failure α) α}

/-- What is answered for a text is what the entry returns at its start. -/
theorem Grammar.returns_of_parseText
    (h : grammar.parseText source engine = .ok (answer, out)) :
    ∃ found, grammar.entry.Returns grammar.rules (.start source) (engine.widened source.size) found
      out ∧ answer = source.answer found := by
  obtain ⟨found, mid, hparse, -⟩ := bind_eq_ok h
  have hsame := (parseText_of_parse hparse).symm.trans h
  cases hsame
  exact ⟨found, ⟨_, (parse_eq_run engine).symm.trans hparse⟩, rfl⟩

theorem Grammar.parseText_same (hgrammar : grammar'.untraced = grammar.untraced)
    (halike : engine.Alike engine') (h : grammar.parseText source engine = .ok (answer, out))
    (h' : grammar'.parseText source engine' = .ok (answer', out')) :
    answer' = answer ∧ out.Alike out' := by
  obtain ⟨found, hreturns, rfl⟩ := grammar.returns_of_parseText h
  obtain ⟨found', hreturns', rfl⟩ := grammar'.returns_of_parseText h'
  obtain ⟨hrules, hentry⟩ := Grammar.mk.inj hgrammar
  obtain ⟨rfl, hout⟩ := hreturns.same hrules hentry (halike.widened source.size) hreturns'
  exact ⟨rfl, hout⟩

/-- Grammars that are the same without their traces are observed to answer and count the same. -/
theorem Grammar.observe_same {text : String} {observation observation' : Grammar.Observation α}
    (hgrammar : grammar'.untraced = grammar.untraced)
    (h : grammar.observe text = .ok observation) (h' : grammar'.observe text = .ok observation') :
    observation.Same observation' := by
  simp only [Grammar.observe, StateT.run, Bind.bind, Except.bind] at h h'
  cases hparse : grammar.parseText (.ofString text) .fresh with
  | error stop => rw [hparse] at h; cases h
  | ok pair =>
      cases hparse' : grammar'.parseText (.ofString text) .fresh with
      | error stop => rw [hparse'] at h'; cases h'
      | ok pair' =>
          rw [hparse] at h
          rw [hparse'] at h'
          cases h
          cases h'
          obtain ⟨hanswer, hout⟩ :=
            Grammar.parseText_same hgrammar (.refl .fresh) hparse hparse'
          have hcaches : pair'.2.caches = pair.2.caches := hout.caches
          rw [hcaches]
          exact ⟨hanswer, rfl, rfl⟩

end Texts

/-! ## Languages -/

theorem Arithmetic.untraced_grammar (traced traced' : Bool) :
    (Arithmetic.grammar traced).untraced = (Arithmetic.grammar traced').untraced := by
  simp only [Grammar.untraced, Arithmetic.grammar, Rules.untraced_ofBodies]
  cases traced <;> cases traced' <;> rfl

theorem Expression.untraced_grammar (traced traced' : Bool) :
    (Expression.grammar traced).untraced = (Expression.grammar traced').untraced := by
  simp only [Grammar.untraced, Expression.grammar, Rules.untraced_ofBodies]
  cases traced <;> cases traced' <;> rfl

/-- Where a grammar with and without traces answers all texts, it is observed to do the same. -/
theorem Grammar.Reads.exists_same {grammar : Bool → Grammar α} {reader : Reader α}
    (hreads : ∀ traced, (grammar traced).Reads reader)
    (hgrammar : (grammar false).untraced = (grammar true).untraced) (text : String) :
    ∃ traced plain, (grammar true).observe text = .ok traced ∧
      (grammar false).observe text = .ok plain ∧ traced.Same plain := by
  have hobserved : ∀ traced, ∃ observation, (grammar traced).observe text = .ok observation := by
    intro traced
    have hobserve := (hreads traced).observe text
    cases hresult : (grammar traced).observe text with
    | error stop =>
        rw [hresult] at hobserve
        cases hobserve
    | ok observation => exact ⟨observation, rfl⟩
  obtain ⟨traced, htraced⟩ := hobserved true
  obtain ⟨plain, hplain⟩ := hobserved false
  exact ⟨traced, plain, htraced, hplain, Grammar.observe_same hgrammar htraced hplain⟩

/-- A formula is observed with and without traces, with the same answer and the same counts. -/
theorem Language.exists_same (language : Language) (text : String) :
    ∃ traced plain, language.observe true text = .ok traced ∧
      language.observe false text = .ok plain ∧ traced.Same plain := by
  cases language with
  | arithmetic =>
      obtain ⟨traced, plain, htraced, hplain, hsame⟩ :=
        Grammar.Reads.exists_same Arithmetic.reads_evaluation
          (Arithmetic.untraced_grammar false true) text
      refine ⟨_, _, ?_, ?_, hsame.shown Arithmetic.display Arithmetic.Payload.describe⟩
      · rw [observe, htraced]; rfl
      · rw [observe, hplain]; rfl
  | expressions =>
      obtain ⟨traced, plain, htraced, hplain, hsame⟩ :=
        Grammar.Reads.exists_same Expression.reads_tree
          (Expression.untraced_grammar false true) text
      refine ⟨_, _, ?_, ?_, hsame.shown (·.toExpr.display) (·.toExpr.describe)⟩
      · rw [observe, htraced]; rfl
      · rw [observe, hplain]; rfl

/-- The report on a formula with its counts, and behind its trace that of the traced formula. -/
def Command.ReportsSame (language : Language) (text : String)
    (traced plain : Grammar.Observation String) (colored : Bool) : Prop :=
  let counts := plain.statistics (.ofBool colored) ++ "\n"
  let seen := traced.trace.callTree (.ofBool colored) ++ counts
  match plain.result with
  | .ok shown =>
      runEvaluate language text true colored = .success (shown ++ "\n" ++ counts) ∧
        runTrace language text colored = .success (seen ++ (shown ++ "\n"))
  | .error cause =>
      runEvaluate language text true colored = .unparsed "" text none colored cause ∧
        runTrace language text colored = .unparsed seen text none colored cause

/-- Behind its trace, a traced formula is reported as the formula is. -/
theorem Command.reportsSame {language : Language} {text : String}
    {traced plain : Grammar.Observation String} (htraced : language.observe true text = .ok traced)
    (hplain : language.observe false text = .ok plain) (hsame : traced.Same plain)
    (colored : Bool) : ReportsSame language text traced plain colored := by
  have hstatistics := hsame.statistics_eq (.ofBool colored)
  have hresult := hsame.result_eq
  rw [ReportsSame]
  cases hanswer : plain.result with
  | ok shown =>
      rw [hanswer] at hresult
      simp only [runEvaluate, runTrace, htraced, hplain, hanswer, ← hresult, hstatistics, if_true,
        String.append_assoc, true_and]
  | error cause =>
      rw [hanswer] at hresult
      simp only [runEvaluate, runTrace, htraced, hplain, hanswer, ← hresult, hstatistics,
        String.append_assoc, true_and]

/--
Records change nothing.  Grammars that are the same without their traces return the same at every
cursor and answer every text alike, and leave the same guards and alternatives under way, and caches
with the same entries, hits and misses.  Formulas of both languages are observed with traces as they
are without, and the report on a trace repeats the one on the formula.
-/
theorem traces_change_nothing :
    (∀ {α : Type} {grammar grammar' : Grammar α} {engine engine' : Engine α},
      grammar'.untraced = grammar.untraced → engine.Alike engine' →
        (∀ cursor found out, grammar.entry.Returns grammar.rules cursor engine found out →
          (∃ out', grammar'.entry.Returns grammar'.rules cursor engine' found out' ∧
            out.Alike out') ∧
          ∀ found' out', grammar'.entry.Returns grammar'.rules cursor engine' found' out' →
            found' = found ∧ out.Alike out') ∧
        ∀ source answer out, grammar.parseText source engine = .ok (answer, out) →
          (∃ found out', grammar'.entry.Returns grammar'.rules (.start source)
            (engine'.widened source.size) found out' ∧ source.answer found = answer ∧
              out.Alike out') ∧
          ∀ answer' out', grammar'.parseText source engine' = .ok (answer', out') →
            answer' = answer ∧ out.Alike out') ∧
      ∀ (language : Language) (text : String),
        ∃ traced plain, language.observe true text = .ok traced ∧
          language.observe false text = .ok plain ∧ traced.Same plain ∧
            ∀ colored, Command.ReportsSame language text traced plain colored := by
  constructor
  · intro α grammar grammar' engine engine' hgrammar halike
    obtain ⟨hrules, hentry⟩ := Grammar.mk.inj hgrammar
    constructor
    · intro cursor found out h
      exact ⟨h.alike hrules hentry halike, fun _ _ h' => h.same hrules hentry halike h'⟩
    · intro source answer out h
      obtain ⟨found, hreturns, rfl⟩ := grammar.returns_of_parseText h
      obtain ⟨out', hreturns', hout⟩ := hreturns.alike hrules hentry (halike.widened source.size)
      refine ⟨⟨found, out', hreturns', rfl, hout⟩, fun answer' out' h' => ?_⟩
      exact Grammar.parseText_same hgrammar halike h h'
  · intro language text
    obtain ⟨traced, plain, htraced, hplain, hsame⟩ := language.exists_same text
    exact ⟨traced, plain, htraced, hplain, hsame, Command.reportsSame htraced hplain hsame⟩

/-- Sums of letters and groups, whose calls are recorded around and inside of everything. -/
def recordedSums (traced : Bool) : Grammar String :=
  let log (name : String) (parser : Parser String) : Parser String :=
    if traced then .logged name parser else parser
  let combine (payloads : List String) : String := "[" ++ String.join payloads ++ "]"
  let sum : Parser String :=
    .foldLeft (.guarded 0 (log "left" (.call 0))) [.literal ['+'] "+"] (log "right" (.call 0))
      combine
  let group : Parser String :=
    .nested (log "brackets" (.sequence [.literal ['('] "(", .call 0, .literal [')'] ")"] combine))
  { rules := .ofBodies
      [.climb 0 [log "sum" sum, log "group" (log "again" group), .literal ['a'] "a"]]
    entry := log "all" (.clearing 0 0 (.call 0)) }

/-- A sum behind a group, and one of numbers in the cached grammar, with records and without. -/
theorem recordedSums_change_nothing :
    (∃ out out', (recordedSums true).parseText (.ofString "(a+a)+a") .fresh =
        .ok (.ok "[[([a+a])]+a]", out) ∧
      (recordedSums false).parseText (.ofString "(a+a)+a") .fresh =
        .ok (.ok "[[([a+a])]+a]", out') ∧ out.Alike out') ∧
      ∃ answer out out',
        (Arithmetic.grammar true).parseText (.ofString "1-2+3") .fresh = .ok (answer, out) ∧
          (Arithmetic.grammar false).parseText (.ofString "1-2+3") .fresh = .ok (answer, out') ∧
            out.Alike out' := by
  have hgrammar : (recordedSums false).untraced = (recordedSums true).untraced := by
    simp only [Grammar.untraced, recordedSums, Rules.untraced_ofBodies]
    rfl
  have hanswer : ∀ traced, ((recordedSums traced).parseText (.ofString "(a+a)+a")).run' .fresh =
      .ok (.ok "[[([a+a])]+a]") := by
    decide +kernel
  have hreturns : ∀ traced, ∃ out, (recordedSums traced).parseText (.ofString "(a+a)+a") .fresh =
      .ok (.ok "[[([a+a])]+a]", out) := by
    intro traced
    have hresult := hanswer traced
    rw [StateT.run'] at hresult
    cases hrun : (recordedSums traced).parseText (.ofString "(a+a)+a") .fresh with
    | error stop =>
        rw [hrun] at hresult
        cases hresult
    | ok pair =>
        rw [hrun] at hresult
        obtain ⟨result, out⟩ := pair
        obtain rfl : result = .ok "[[([a+a])]+a]" := Except.ok.inj hresult
        exact ⟨out, rfl⟩
  constructor
  · obtain ⟨out, htraced⟩ := hreturns true
    obtain ⟨out', hplain⟩ := hreturns false
    have hsame := (traces_change_nothing.1 hgrammar (.refl .fresh)).2 _ _ _ htraced
    exact ⟨out, out', htraced, hplain, (hsame.2 _ _ hplain).2⟩
  · obtain ⟨out, htraced⟩ :=
      Grammar.parseText_of_observe ((Arithmetic.reads_evaluation true).observe "1-2+3")
    obtain ⟨out', hplain⟩ :=
      Grammar.parseText_of_observe ((Arithmetic.reads_evaluation false).observe "1-2+3")
    have hsame := (traces_change_nothing.1 (Arithmetic.untraced_grammar false true)
      (.refl .fresh)).2 _ _ _ htraced
    exact ⟨_, out, out', htraced, hplain, (hsame.2 _ _ hplain).2⟩

end Packrat
