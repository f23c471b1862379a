import Mathlib.Data.List.Nodup
import Mathlib.Data.List.Perm.Subperm
import Packrat.Proofs.Nodes

/-!
# Groups behind wrappers

To tell whether an alternative of a precedence node marks a group, the nodes that only wrap a parser
are looked through.  That search comes to an end exactly if the wrappers do not lead round in a
circle, and then after no more steps than the grammar has nodes.
-/

namespace Packrat

variable {α : Type}

/-- What a node wraps that passes the question on whether it marks a group. -/
def Rules.wrapped? (rules : Rules α) : Parser α → Option (Parser α)
  | .convert parser _ | .guarded _ parser | .memo _ _ parser | .clearing _ _ parser
  | .logged _ parser => some parser
  | .call rule =>
      match rules.find rule with
      | .body parser => some parser
      | _ => none
  | _ => none

/-- After so many wrappers there is a node that is none. -/
inductive Rules.SettlesIn (rules : Rules α) : Nat → Parser α → Prop
  | here {parser : Parser α} (h : rules.wrapped? parser = none) : SettlesIn rules 0 parser
  | behind {parser part : Parser α} {count : Nat} (hpart : rules.wrapped? parser = some part)
      (h : SettlesIn rules count part) : SettlesIn rules (count + 1) parser

/-- The wrappers around a node come to an end. -/
def Rules.Settles (rules : Rules α) (parser : Parser α) : Prop := ∃ count,
    rules.SettlesIn count parser

namespace Rules

variable {rules : Rules α} {parser part : Parser α} {count count' : Nat}

theorem settles_of_none (h : rules.wrapped? parser = none) : rules.Settles parser := ⟨0, .here h⟩

theorem settles_iff_of_some (h : rules.wrapped? parser = some part) :
    rules.Settles parser ↔ rules.Settles part := by
  constructor
  · rintro ⟨count, hcount⟩
    cases hcount with
    | here hnone => rw [h] at hnone; cases hnone
    | @behind _ part' count hpart hrest =>
        obtain rfl := Option.some.inj (h.symm.trans hpart)
        exact ⟨count, hrest⟩
  · rintro ⟨count, hcount⟩
    exact ⟨count + 1, .behind h hcount⟩

theorem SettlesIn.unique (h : rules.SettlesIn count parser) (h' : rules.SettlesIn count' parser) :
    count = count' := by
  induction h generalizing count' with
  | here hnone =>
      cases h' with
      | here _ => rfl
      | behind hpart _ => rw [hnone] at hpart; cases hpart
  | behind hpart _ ih =>
      cases h' with
      | here hnone => rw [hnone] at hpart; cases hpart
      | behind hpart' h' =>
          obtain rfl := Option.some.inj (hpart.symm.trans hpart')
          rw [ih h']

theorem restarts_of_none (h : rules.wrapped? parser = none) :
    ∃ answer, answer ≠ .error .tooDeep ∧
      ∀ fuel, Engine.restarts rules (fuel + 1) parser = answer := by
  cases parser with
  | call rule =>
      simp only [wrapped?] at h
      simp only [Engine.restarts]
      cases hfind : rules.find rule with
      | missing => exact ⟨.ok false, nofun, fun _ => rfl⟩
      | pending => exact ⟨.error (.pending rule), nofun, fun _ => rfl⟩
      | body parser => rw [hfind] at h; cases h
  | convert parser f => cases h
  | guarded id parser => cases h
  | memo id cache parser => cases h
  | clearing id cache parser => cases h
  | logged name parser => cases h
  | nested parser => exact ⟨.ok true, nofun, fun _ => rfl⟩
  | _ => exact ⟨.ok false, nofun, fun _ => rfl⟩

theorem restarts_of_some (h : rules.wrapped? parser = some part) (fuel : Nat) :
    Engine.restarts rules (fuel + 1) parser = Engine.restarts rules fuel part := by
  cases parser with
  | call rule =>
      simp only [wrapped?] at h
      simp only [Engine.restarts]
      cases hfind : rules.find rule with
      | missing => rw [hfind] at h; cases h
      | pending => rw [hfind] at h; cases h
      | body parser => rw [hfind] at h; cases h; rfl
  | convert parser f => cases h; rfl
  | guarded id parser => cases h; rfl
  | memo id cache parser => cases h; rfl
  | clearing id cache parser => cases h; rfl
  | logged name parser => cases h; rfl
  | _ => cases h

/-- The search ends with one answer, given room for all the wrappers. -/
theorem SettlesIn.restarts_eq (h : rules.SettlesIn count parser) :
    ∃ answer, answer ≠ .error .tooDeep ∧
      ∀ fuel, count < fuel → Engine.restarts rules fuel parser = answer := by
  induction h with
  | here hnone =>
      obtain ⟨answer, hanswer, hall⟩ := restarts_of_none hnone
      refine ⟨answer, hanswer, fun fuel hfuel => ?_⟩
      obtain ⟨fuel, rfl⟩ := Nat.exists_eq_succ_of_ne_zero (Nat.ne_of_gt hfuel)
      exact hall fuel
  | behind hpart _ ih =>
      obtain ⟨answer, hanswer, hall⟩ := ih
      refine ⟨answer, hanswer, fun fuel hfuel => ?_⟩
      obtain ⟨fuel, rfl⟩ := Nat.exists_eq_succ_of_ne_zero (Nat.ne_of_gt (Nat.zero_lt_of_lt hfuel))
      rw [restarts_of_some hpart]
      exact hall fuel (Nat.lt_of_succ_lt_succ hfuel)

end Rules

/-! ## Distinct nodes -/

namespace Grammar

variable {grammar : Grammar α} {parser part : Parser α} {count : Nat}

theorem wrapped_mem_nodes (hnode : parser ∈ grammar.nodes)
    (h : grammar.rules.wrapped? parser = some part) : part ∈ grammar.nodes := by
  cases parser with
  | call rule =>
      simp only [Rules.wrapped?] at h
      cases hfind : grammar.rules.find rule with
      | missing => rw [hfind] at h; cases h
      | pending => rw [hfind] at h; cases h
      | body parser => rw [hfind] at h; cases h; exact body_mem_nodes hfind
  | convert parser f => cases h; exact child_mem_nodes hnode List.mem_cons_self
  | guarded id parser => cases h; exact child_mem_nodes hnode List.mem_cons_self
  | memo id cache parser => cases h; exact child_mem_nodes hnode List.mem_cons_self
  | clearing id cache parser => cases h; exact child_mem_nodes hnode List.mem_cons_self
  | logged name parser => cases h; exact child_mem_nodes hnode List.mem_cons_self
  | _ => cases h

/-- A list without repetition of nodes of the grammar is no longer than that of all nodes. -/
theorem length_le_of_nodup {path : List (Parser α)} (hnodup : path.Nodup)
    (hnodes : ∀ node ∈ path, node ∈ grammar.nodes) : path.length ≤ grammar.nodes.length :=
  (hnodup.subperm hnodes).length_le

/--
Wrappers that come to an end are distinct, for different numbers of them are left behind each.
-/
theorem distinct_of_settlesIn (h : grammar.rules.SettlesIn count parser)
    (hnode : parser ∈ grammar.nodes) :
    ∃ path : List (Parser α), path.length = count + 1 ∧ path.Nodup ∧
      ∀ node ∈ path, node ∈ grammar.nodes ∧ ∃ rank ≤ count, grammar.rules.SettlesIn rank node := by
  induction h with
  | @here parser hnone =>
      refine ⟨[parser], rfl, List.nodup_singleton parser, fun node hmem => ?_⟩
      obtain rfl := List.mem_singleton.mp hmem
      exact ⟨hnode, 0, Nat.le_refl _, .here hnone⟩
  | @behind parser part count hpart hrest ih =>
      obtain ⟨path, hlength, hnodup, hall⟩ := ih (wrapped_mem_nodes hnode hpart)
      have hself : grammar.rules.SettlesIn (count + 1) parser := .behind hpart hrest
      refine ⟨parser :: path, by rw [List.length_cons, hlength], List.nodup_cons.mpr ⟨?_, hnodup⟩,
        ?_⟩
      · intro hmem
        obtain ⟨-, rank, hle, hrank⟩ := hall parser hmem
        have hsame := hrank.unique hself
        omega
      · refine List.forall_mem_cons.mpr ⟨⟨hnode, count + 1, Nat.le_refl _, hself⟩, fun node hmem =>
        ?_⟩
        obtain ⟨hnode, rank, hle, hrank⟩ := hall node hmem
        exact ⟨hnode, rank, Nat.le_succ_of_le hle, hrank⟩

/-- With room for all nodes, the search for a group ends alike. -/
theorem restarts_eq_of_settles (h : grammar.rules.Settles parser) (hnode : parser ∈ grammar.nodes)
    {fuel fuel' : Nat} (hfuel : grammar.nodes.length ≤ fuel)
      (hfuel' : grammar.nodes.length ≤ fuel') :
    Engine.restarts grammar.rules fuel parser = Engine.restarts grammar.rules fuel' parser ∧
      Engine.restarts grammar.rules fuel' parser ≠ .error .tooDeep := by
  obtain ⟨count, hcount⟩ := h
  obtain ⟨path, hlength, hnodup, hall⟩ := distinct_of_settlesIn hcount hnode
  have hle := length_le_of_nodup hnodup fun node hmem => (hall node hmem).1
  obtain ⟨answer, hanswer, hsame⟩ := hcount.restarts_eq
  rw [hsame fuel (by omega), hsame fuel' (by omega)]
  exact ⟨rfl, hanswer⟩

end Grammar

end Packrat
