import Packrat.Proofs.Arithmetic
import Packrat.Proofs.Expression
import Packrat.Proofs.Reuse.Shift

/-!
# One text after another

Where all caches are emptied at the end of every call from outside, a grammar that was used before
answers as one that was not: nothing but the tags that it has given out is left of earlier texts.
-/

namespace Packrat

variable {α : Type} {grammar : Grammar α} {parser part : Parser α} {cache fuel : Nat}
  {cursor : Cursor α} {engine engine' : Engine α} {source : Source}

/-! ## Caches that are emptied in the end -/

/-- The cache is emptied by the node itself, or by one that it wraps without storing anything. -/
inductive Rules.Resets (rules : Rules α) (cache : Nat) : Parser α → Prop
  | here {id : Nat} {parser : Parser α} : Resets rules cache (.clearing id cache parser)
  | behind {parser part : Parser α} (hwrapped : rules.wrapped? parser = some part)
      (hstores : ∀ id cache', parser ≠ .memo id cache' part) (h : Resets rules cache part) :
      Resets rules cache parser

/--
Every cache that is used is emptied by a node around the entry, and a clearing node that comes up
more than once empties one cache.
-/
structure Grammar.ResetsCaches (grammar : Grammar α) : Prop where
  resets : ∀ {id cache parser}, Parser.memo id cache parser ∈ grammar.nodes →
    grammar.rules.Resets cache grammar.entry
  numbered : ∀ {id cache cache' parser parser'}, Parser.clearing id cache parser ∈ grammar.nodes →
    Parser.clearing id cache' parser' ∈ grammar.nodes → cache' = cache

namespace Engine

/-- Nothing is stored in the cache. -/
def Vacant (cache : Nat) (engine : Engine α) : Prop := ∀ key, engine.entryIn cache key = none

/-- A node that empties the cache in the end is under way. -/
def Clearing (grammar : Grammar α) (cache : Nat) (engine : Engine α) : Prop :=
  ∃ id parser, Parser.clearing id cache parser ∈ grammar.nodes ∧ 0 < engine.depth.get id

theorem Vacant.ended (h : engine.Vacant cache) (id cache' : Nat) :
    (engine.ended id cache').Vacant cache := by
  intro key
  rcases entryIn_ended id with hsame | ⟨-, hnone⟩
  · exact hsame.trans (h key)
  · exact hnone

/-- An outermost node that empties the cache has left nothing in it. -/
theorem Balanced.vacant_ended {id : Nat} (h : (engine.descended id).Balanced engine')
    (houtermost : engine.depth.get id = 0) : (engine'.ended id cache).Vacant cache := by
  intro key
  rw [h.entryIn_ended, if_pos ⟨houtermost, rfl⟩]

end Engine

/-- Nothing is stored behind a clearing node if nothing is behind its part, or if it is outermost. -/
theorem Grammar.ResetsCaches.vacant_ended {id cache' : Nat} (hresets : grammar.ResetsCaches)
    (hnode : .clearing id cache' part ∈ grammar.nodes)
    (hbalanced : (engine.descended id).Balanced engine')
    (h : engine'.Vacant cache ∨ (engine.descended id).Clearing grammar cache) :
    (engine'.ended id cache').Vacant cache ∨ engine.Clearing grammar cache := by
  rcases h with hvacant | ⟨other, parser, hother, hdepth⟩
  · exact Or.inl (hvacant.ended id cache')
  -- the node that is under way may be this one
  by_cases hid : other = id
  · subst hid
    obtain rfl := hresets.numbered hnode hother
    rcases Nat.eq_zero_or_pos (engine.depth.get other) with houtermost | hinner
    · exact Or.inl (hbalanced.vacant_ended houtermost)
    · exact Or.inr ⟨other, parser, hother, hinner⟩
  · rw [Engine.depth_descended_of_ne _ (Ne.symm hid)] at hdepth
    exact Or.inr ⟨other, parser, hother, hdepth⟩

/--
A cache in which nothing is stored is as empty behind the run of a parser that resets it, unless a
node that empties it is still under way.
-/
theorem Rules.Resets.tracks_run (h : grammar.rules.Resets cache parser)
    (hresets : grammar.ResetsCaches) (hnode : parser ∈ grammar.nodes)
    (hvacant : engine.Vacant cache) :
    Tracks (fun _ => True) (Engine.run grammar.rules fuel parser cursor)
      (Engine.run grammar.rules fuel parser cursor) engine fun _ out =>
        out.Vacant cache ∨ engine.Clearing grammar cache := by
  induction h generalizing fuel engine with
  | @here id part =>
      cases fuel with
      | zero => exact Tracks.throw trivial
      | succ fuel =>
          apply Engine.tracks_clearingMatch
          apply tracks_balanced.mono
          intro found out hbalanced
          rcases Nat.eq_zero_or_pos (engine.depth.get id) with houtermost | hinner
          · exact Or.inl (hbalanced.vacant_ended houtermost)
          · exact Or.inr ⟨id, part, hnode, hinner⟩
  | @behind parser part hwrapped hstores _ ih =>
      cases fuel with
      | zero => exact Tracks.throw trivial
      | succ fuel =>
          have hpart := Grammar.wrapped_mem_nodes hnode hwrapped
          cases parser with
          | convert part f =>
              obtain rfl := Option.some.inj hwrapped
              apply Tracks.bind
              apply (ih hpart hvacant).mono
              intro found _ hpost
              cases found <;> exact Tracks.pure hpost
          | guarded id part =>
              obtain rfl := Option.some.inj hwrapped
              apply Engine.tracks_guardedMatch
              · exact fun _ => ih hpart hvacant
              · exact fun _ => Or.inl hvacant
          | memo id cache' part =>
              obtain rfl := Option.some.inj hwrapped
              exact absurd rfl (hstores id cache')
          | clearing id cache' part =>
              obtain rfl := Option.some.inj hwrapped
              have hbegun : (engine.descended id).Vacant cache := hvacant
              apply Engine.tracks_clearingMatch
              apply ((ih hpart hbegun).and tracks_balanced).mono
              rintro found out ⟨hleft, hbalanced⟩
              exact hresets.vacant_ended hnode hbalanced hleft
          | logged name part =>
              obtain rfl := Option.some.inj hwrapped
              exact Engine.tracks_loggedMatch (ih hpart hvacant)
          | call rule =>
              simp only [Rules.wrapped?] at hwrapped
              apply Engine.tracks_call
              · intro body hbody
                rw [hbody] at hwrapped
                obtain rfl := Option.some.inj hwrapped
                exact ih hpart hvacant
              · exact fun _ => Or.inl hvacant
              · exact fun _ => trivial
          | _ => cases hwrapped

/-! ## Grammars with one cache -/

/-- The node stores results in no other cache, empties no other one, and moves no cursor by hand. -/
def Parser.keepsTo (cache : Nat) : Parser α → Bool
  | .memo _ other _ | .clearing _ other _ => other == cache
  | .redirected _ _ => false
  | _ => true

theorem direct_of_keepsTo (h : grammar.nodes.all (Parser.keepsTo cache) = true) :
    grammar.Direct := by
  intro move parser hmem
  have hkeeps := List.all_eq_true.mp h _ hmem
  cases hkeeps

/-- A single cache is emptied if the entry empties it. -/
theorem resetsCaches_of_keepsTo {id : Nat} (hentry : grammar.entry = .clearing id cache part)
    (h : grammar.nodes.all (Parser.keepsTo cache) = true) : grammar.ResetsCaches where
  resets hmemo := by
    obtain rfl := beq_iff_eq.mp (List.all_eq_true.mp h _ hmemo)
    rw [hentry]
    exact .here
  numbered hclearing hclearing' := by
    obtain rfl := beq_iff_eq.mp (List.all_eq_true.mp h _ hclearing)
    exact beq_iff_eq.mp (List.all_eq_true.mp h _ hclearing')

theorem Arithmetic.keepsTo (traced : Bool) :
    (Arithmetic.grammar traced).nodes.all (Parser.keepsTo 0) = true := by
  cases traced <;> rfl

set_option maxRecDepth 2000 in
theorem Expression.keepsTo (traced : Bool) :
    (Expression.grammar traced).nodes.all (Parser.keepsTo 0) = true := by
  cases traced <;> rfl

theorem Arithmetic.reads_evaluation (traced : Bool) :
    (Arithmetic.grammar traced).Reads (Reader.map .number evaluation) := by
  rw [← ladder_grammar, ← descents_eq traced]
  exact Ladder.reads_descent (proper traced) (runs traced) (apart traced)

/-! ## A text after others -/

/-- The state is one to begin a text in: nothing is under way, and nothing is stored. -/
structure Engine.Cleared (engine : Engine α) : Prop where
  balanced : Engine.fresh.Balanced engine
  blank : engine.Blank

theorem Engine.cleared_fresh : (Engine.fresh : Engine α).Cleared := ⟨.refl _, blank_fresh⟩

/-- The caches of a cleared state are empty. -/
theorem Engine.Cleared.size_eq_zero (h : engine.Cleared) (cache : Nat) :
    (engine.caches.get cache).size = 0 := by
  have hempty : (engine.caches.get cache).entries.isEmpty = true := by
    rw [Std.HashMap.isEmpty_iff_forall_not_mem]
    intro key hmem
    rw [← Std.HashMap.isSome_getElem?_iff_mem] at hmem
    have hnone : (engine.caches.get cache).entries[key]? = none := h.blank cache key
    rw [hnone] at hmem
    cases hmem
  rw [Std.HashMap.isEmpty_eq_size_eq_zero, beq_iff_eq] at hempty
  exact hempty

/-- The state in which a text is parsed knows how long it is. -/
def Engine.widened (engine : Engine α) (bytes : Nat) : Engine α :=
  { engine with horizon := max engine.horizon bytes }

theorem parse_eq_run (engine : Engine α) :
    grammar.entry.parse grammar.rules cursor engine =
      Engine.run grammar.rules (Engine.depthBound grammar.rules grammar.entry
        (engine.widened cursor.source.size).horizon) grammar.entry cursor
        (engine.widened cursor.source.size) := rfl

/-- A text begins in states that correspond, whether or not other texts came before it. -/
theorem Engine.Cleared.shifts (h : engine.Cleared) (bytes : Nat) :
    Engine.Shifts grammar engine.nextTag (fresh.widened bytes) (fresh.widened bytes)
      (engine.widened bytes) where
  balanced := .refl _
  balanced' := ⟨h.balanced.active, h.balanced.climbing, h.balanced.depth, fun _ _ => False.elim⟩
  nextTag_eq := (Nat.zero_add _).symm
  entryIn_eq cache key := by
    rw [show (fresh.widened bytes).entryIn cache key = none from blank_fresh cache key]
    exact h.blank cache _
  spared cache key _ _ := h.blank cache key

/-- From a cleared state, a text is answered as from a fresh one, and the state is cleared again. -/
theorem Engine.Cleared.yields_parseText (h : engine.Cleared) (hdirect : grammar.Direct)
    (hresets : grammar.ResetsCaches) {answer : Except (Failure α) α} {out : Engine α}
    (hfresh : grammar.parseText source .fresh = .ok (answer, out)) :
    Yields (grammar.parseText source) engine fun answer' engine' =>
      answer' = answer ∧ engine'.Cleared := by
  obtain ⟨found, mid, hparse, -⟩ := bind_eq_ok hfresh
  have hanswer := (parseText_of_parse hparse).symm.trans hfresh
  have hroom : Engine.depthBound grammar.rules grammar.entry
      ((fresh : Engine α).widened source.size).horizon ≤
        Engine.depthBound grammar.rules grammar.entry (engine.widened source.size).horizon :=
    Nat.mul_le_mul_left _ (Nat.succ_le_succ (max_le_max_right _ (Nat.zero_le _)))
  obtain ⟨found', out', hrun', hshifted⟩ := (mirrored_run_shift hdirect Grammar.entry_mem_nodes
    hroom (Cursor.shift_of_plain rfl).symm (h.shifts source.size) found mid hparse).yields
  obtain ⟨hshifts, rfl⟩ := Bond.shift_found_iff.mp hshifted
  have hcleared : out'.Cleared := by
    have hbalanced := hshifts.balanced'
    refine ⟨⟨hbalanced.active, hbalanced.climbing, hbalanced.depth, fun _ _ => False.elim⟩,
      fun cache => ?_⟩
    by_cases hspares : grammar.Spares cache
    · exact fun key => hshifts.spared cache key hspares (blank_fresh cache key)
    · have hused : ∃ id parser, Parser.memo id cache parser ∈ grammar.nodes := by
        simpa [Grammar.Spares] using hspares
      obtain ⟨id, parser, hmemo⟩ := hused
      have hvacant : (engine.widened source.size).Vacant cache := h.blank cache
      have hends := ((hresets.resets hmemo).tracks_run hresets Grammar.entry_mem_nodes
        hvacant).of_ok hrun'
      rcases hends with hvacant | ⟨other, parser, -, hdepth⟩
      · exact hvacant
      · have hnone : (engine.widened source.size).depth.get other = 0 :=
          (h.balanced.depth other).trans (Table.get_empty other)
        omega
  refine Yields.of_eq (parseText_of_parse ((parse_eq_run engine).trans hrun')) ⟨?_, hcleared⟩
  cases hanswer
  cases found <;> rfl

/-- What a grammar that was not used before answers is what its parse of the text returns. -/
theorem Grammar.parseText_of_observe {text : String} {answer : Except (Failure α) α}
    (h : (grammar.observe text).map (·.result) = .ok answer) :
    ∃ out, grammar.parseText (.ofString text) .fresh = .ok (answer, out) := by
  simp only [Grammar.observe, StateT.run, Bind.bind, Except.bind] at h
  cases hparse : grammar.parseText (.ofString text) .fresh with
  | error stop =>
      rw [hparse] at h
      cases h
  | ok pair =>
      rw [hparse] at h
      cases h
      exact ⟨pair.2, rfl⟩

/--
A grammar has no memory.  Where all caches are emptied around the entry, texts that are parsed one
after another get the answers that they get on their own from a grammar that was not used before,
and behind each of them every cache is empty.
-/
theorem answers_afresh (hdirect : grammar.Direct) (hresets : grammar.ResetsCaches)
    {texts : List String} {answer : String → Except (Failure α) α}
    (hfresh : ∀ text ∈ texts, (grammar.observe text).map (·.result) = .ok (answer text)) :
    ∀ earlier, earlier <+: texts →
      Yields (grammar.answerAll (earlier.map .text)) .fresh fun replies engine =>
        replies.map Prod.fst = earlier.map (fun text => .text text (answer text)) ∧
          ∀ cache, (engine.caches.get cache).size = 0 := by
  intro earlier hbegins
  have htext : ∀ text ∈ earlier, ∀ engine : Engine α, engine.Cleared →
      Yields (grammar.parseText (.ofString text)) engine fun result engine' =>
        result = answer text ∧ engine'.Cleared := by
    intro text hmem engine hcleared
    obtain ⟨out, hparse⟩ := Grammar.parseText_of_observe (hfresh text (hbegins.subset hmem))
    exact hcleared.yields_parseText hdirect hresets hparse
  apply (Grammar.yields_answerAll htext Engine.cleared_fresh).mono
  rintro replies engine ⟨hreplies, hcleared⟩
  exact ⟨hreplies, hcleared.size_eq_zero⟩

/-- Arithmetic and the expression language answer a text alike, whatever texts came before it. -/
theorem arithmetic_and_expressions_afresh :
    (∀ earlier, earlier <+: ["1 + 2", "1 +", ")", "1 + 2"] →
      Yields ((Arithmetic.grammar false).answerAll (earlier.map .text)) .fresh
        fun replies engine =>
          replies.map Prod.fst = earlier.map (fun text =>
            .text text ((Reader.map .number Arithmetic.evaluation).answer text.toList)) ∧
              ∀ cache, (engine.caches.get cache).size = 0) ∧
      ∀ earlier, earlier <+: ["f(x) + [1]", "f(x", "!", "f(x) + [1]"] →
        Yields ((Expression.grammar true).answerAll (earlier.map .text)) .fresh
          fun replies engine =>
            replies.map Prod.fst = earlier.map (fun text =>
              .text text ((Reader.map .expr Expression.tree).answer text.toList)) ∧
                ∀ cache, (engine.caches.get cache).size = 0 :=
  ⟨answers_afresh (direct_of_keepsTo (Arithmetic.keepsTo false))
      (resetsCaches_of_keepsTo rfl (Arithmetic.keepsTo false))
      fun _ _ => (Arithmetic.reads_evaluation false).observe _,
    answers_afresh (direct_of_keepsTo (Expression.keepsTo true))
      (resetsCaches_of_keepsTo rfl (Expression.keepsTo true))
      fun _ _ => (Expression.reads_tree true).observe _⟩

end Packrat
