import Mathlib.Data.List.Induction
import Packrat.Proofs.Json.Syntax

/-!
# Objects

Members that are set one after another make the object that lists each key where it occurs first,
with its last value.
-/

namespace Packrat.Json

variable {members object : Members} {key : List Char} {v : Value}

namespace Members

/-- Setting a member keeps the keys, and adds its own at the end if it is new. -/
theorem keys_insert (object : Members) (key : List Char) (v : Value) :
    (object.insert key v).map Prod.fst =
      if key ∈ object.map Prod.fst then object.map Prod.fst else object.map Prod.fst ++ [key] := by
  induction object with
  | nil => rfl
  | cons member object ih =>
      obtain ⟨other, old⟩ := member
      rw [Members.insert]
      by_cases hkey : other = key
      · subst hkey
        simp
      · rw [if_neg hkey, List.map_cons, ih]
        have hne : ¬ key = other := fun h => hkey h.symm
        by_cases hmem : key ∈ object.map Prod.fst
        · rw [if_pos hmem, List.map_cons, if_pos (List.mem_cons_of_mem _ hmem)]
        · rw [if_neg hmem, List.map_cons, if_neg (by simp [hne, hmem]), List.cons_append]

/-- Where keys are distinct, a set member is the only one with its key. -/
theorem mem_insert {other : List Char} {w : Value} (hnodup : (object.map Prod.fst).Nodup)
    (hmem : (other, w) ∈ object.insert key v) :
    other = key ∧ w = v ∨ other ≠ key ∧ (other, w) ∈ object := by
  induction object with
  | nil =>
      obtain ⟨rfl, rfl⟩ := Prod.mk.inj (List.mem_singleton.mp hmem)
      exact .inl ⟨rfl, rfl⟩
  | cons member object ih =>
      obtain ⟨first, old⟩ := member
      rw [List.map_cons, List.nodup_cons] at hnodup
      rw [Members.insert] at hmem
      by_cases hkey : first = key
      · subst hkey
        rw [if_pos rfl] at hmem
        rcases List.mem_cons.mp hmem with heq | hlater
        · obtain ⟨rfl, rfl⟩ := Prod.mk.inj heq
          exact .inl ⟨rfl, rfl⟩
        · refine .inr ⟨?_, List.mem_cons_of_mem _ hlater⟩
          rintro rfl
          exact hnodup.1 (List.mem_map.mpr ⟨(other, w), hlater, rfl⟩)
      · rw [if_neg hkey] at hmem
        rcases List.mem_cons.mp hmem with heq | hmem
        · obtain ⟨rfl, rfl⟩ := Prod.mk.inj heq
          exact .inr ⟨hkey, List.mem_cons_self ..⟩
        · rcases ih hnodup.2 hmem with h | ⟨hne, hmem⟩
          · exact .inl h
          · exact .inr ⟨hne, List.mem_cons_of_mem _ hmem⟩

theorem ofList_append (members : List (List Char × Value)) (member : List Char × Value) :
    ofList (members ++ [member]) = (ofList members).insert member.1 member.2 := by
  rw [ofList, ofList, List.foldl_append]
  rfl

/-- No key stands in an object twice. -/
theorem nodup_keys_ofList (members : List (List Char × Value)) :
    ((ofList members).map Prod.fst).Nodup := by
  induction members using List.reverseRecOn with
  | nil => exact List.nodup_nil
  | append_singleton members member ih =>
      rw [ofList_append, keys_insert]
      by_cases hmem : member.1 ∈ (ofList members).map Prod.fst
      · rwa [if_pos hmem]
      · rw [if_neg hmem]
        refine List.nodup_append.mpr ⟨ih, List.pairwise_singleton _ _, ?_⟩
        intro key hkey other hother heq
        rw [List.mem_singleton.mp hother] at heq
        exact hmem (heq ▸ hkey)

/-- A new key comes last. -/
theorem insert_of_not_mem {key : List Char} (h : key ∉ object.map Prod.fst) (v : Value) :
    object.insert key v = object ++ [(key, v)] := by
  induction object with
  | nil => rfl
  | cons member members ih =>
      obtain ⟨hne, hrest⟩ := List.ne_and_not_mem_of_not_mem_cons h
      rw [insert, if_neg (Ne.symm hne), ih hrest]
      rfl

/-- Members of which no two have the same key are an object already. -/
theorem ofList_of_nodup {members : List (List Char × Value)} (h : (members.map Prod.fst).Nodup) :
    ofList members = members := by
  induction members using List.reverseRecOn with
  | nil => rfl
  | append_singleton members member ih =>
      rw [List.map_append, List.nodup_append] at h
      rw [ofList_append, ih h.1, insert_of_not_mem fun hmem =>
        h.2.2 _ hmem _ (List.mem_singleton_self _) rfl]

theorem ofList_collects (members : List (List Char × Value)) :
    Collects members (ofList members) := by
  induction members using List.reverseRecOn with
  | nil => exact ⟨rfl, fun _ _ hmem => by cases hmem⟩
  | append_singleton members member ih =>
      have hnodup := nodup_keys_ofList members
      rw [ofList_append]
      constructor
      · rw [keys_insert, ih.keys, List.map_append, List.eraseDups_append]
        by_cases hmem : member.1 ∈ members.map Prod.fst
        · simp [List.removeAll, hmem]
        · simp [List.removeAll, hmem, List.eraseDups_cons]
      · intro key v hmem
        rw [List.reverse_append, List.reverse_singleton, List.singleton_append, List.lookup_cons]
        rcases mem_insert hnodup hmem with ⟨rfl, rfl⟩ | ⟨hne, hmem⟩
        · simp
        · rw [beq_eq_false_iff_ne.mpr hne]
          exact ih.last key v hmem

end Members

/-- An object is known by its keys and what each of them has for a value. -/
theorem Collects.unique {members : List (List Char × Value)} {object' : Members}
    (h : Collects members object) (h' : Collects members object') : object = object' := by
  have hvalues : ∀ {object : Members}, Collects members object →
      object = (members.map Prod.fst).eraseDups.map
        fun key => (key, (members.reverse.lookup key).getD .null) := by
    intro object h
    rw [← h.keys, List.map_map]
    refine (List.map_id _).symm.trans (List.map_congr_left ?_)
    rintro ⟨key, v⟩ hmem
    simp [h.last key v hmem]
  rw [hvalues h, hvalues h']

theorem collects_iff {members : List (List Char × Value)} :
    Collects members object ↔ object = Members.ofList members := by
  constructor
  · intro h
    exact h.unique (Members.ofList_collects members)
  · rintro rfl
    exact Members.ofList_collects members

end Packrat.Json
