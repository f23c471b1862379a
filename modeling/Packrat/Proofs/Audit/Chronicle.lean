import Packrat.Engine

/-!
# What happens under a key

A cached parser is called under a key.  What it wraps is run at most once under each, and the key
goes from one stage to the next: the run is ahead, it is on, it is done.  A chronicle lists what
happens in order.  A call begins the run or is answered at once, as the stage of its key says.
-/

namespace Packrat

variable {α : Type}

/-- Something that happens at a cached parser, under a key of its cache. -/
inductive Visit (α : Type) where
  /-- The parser is called. -/
  | asked (cache : Nat) (key : CacheKey)
  /-- A run of what it wraps begins. -/
  | began (cache : Nat) (key : CacheKey)
  /-- The run ends. -/
  | finished (cache : Nat) (key : CacheKey) (found : Option (Output α))
  /-- The call returns. -/
  | answered (cache : Nat) (key : CacheKey) (found : Option (Output α))

namespace Visit

/-- The key under which a parser of the cache is called. -/
def asked? (cache : Nat) : Visit α → Option CacheKey
  | .asked other key => if other = cache then some key else none
  | _ => none

/-- The key under which a run for the cache begins. -/
def began? (cache : Nat) : Visit α → Option CacheKey
  | .began other key => if other = cache then some key else none
  | _ => none

/-- The keys of all calls, in order. -/
def askedIn (cache : Nat) (visits : List (Visit α)) : List CacheKey :=
  visits.filterMap (asked? cache)

/-- The keys of all runs, in order. -/
def begunIn (cache : Nat) (visits : List (Visit α)) : List CacheKey :=
  visits.filterMap (began? cache)

end Visit

/-! ## Stages -/

/-- How far the run under a key has come. -/
inductive Stage (α : Type) where
  | ahead
  | running
  | done (found : Option (Output α))

/-- What a cache holds for a key. -/
def Stage.entry : Stage α → Option (Option (Output α))
  | .ahead => none
  | .running => some none
  | .done found => some found

/-- The stages of the keys of all caches. -/
abbrev Stages (α : Type) := Nat → CacheKey → Stage α

/-- The stages in which the one of a key is another. -/
def Stages.put (stages : Stages α) (cache : Nat) (key : CacheKey) (stage : Stage α) : Stages α :=
  fun cache' key' => if cache' = cache ∧ key' = key then stage else stages cache' key'

namespace Stages

variable {stages : Stages α} {cache cache' : Nat} {key key' : CacheKey} {stage : Stage α}

@[simp] theorem put_self : stages.put cache key stage cache key = stage := if_pos ⟨rfl, rfl⟩

theorem put_of_ne (h : ¬ (cache' = cache ∧ key' = key)) :
    stages.put cache key stage cache' key' = stages cache' key' :=
  if_neg h

end Stages

/-- At which stages something may happen, and to which it leads. -/
inductive Visit.Moves : Stages α → Visit α → Stages α → Prop
  | asked {stages : Stages α} {cache : Nat} {key : CacheKey} :
      Moves stages (.asked cache key) stages
  | began {stages : Stages α} {cache : Nat} {key : CacheKey} (h : stages cache key = .ahead) :
      Moves stages (.began cache key) (stages.put cache key .running)
  | finished {stages : Stages α} {cache : Nat} {key : CacheKey} {found : Option (Output α)}
      (h : stages cache key = .running) :
      Moves stages (.finished cache key found) (stages.put cache key (.done found))
  /-- A call while the run is on is answered at once, with no match. -/
  | waiting {stages : Stages α} {cache : Nat} {key : CacheKey} (h : stages cache key = .running) :
      Moves stages (.answered cache key none) stages
  /-- Any other call is answered with what the run has found. -/
  | answered {stages : Stages α} {cache : Nat} {key : CacheKey} {found : Option (Output α)}
      (h : stages cache key = .done found) : Moves stages (.answered cache key found) stages

/-- What happens from some stages on until others are reached. -/
inductive Chronicle : Stages α → List (Visit α) → Stages α → Prop
  | nil (stages : Stages α) : Chronicle stages [] stages
  | cons {first middle last : Stages α} {visit : Visit α} {visits : List (Visit α)}
      (hmoves : visit.Moves first middle) (h : Chronicle middle visits last) :
      Chronicle first (visit :: visits) last

variable {first middle last : Stages α} {visit : Visit α} {visits before after : List (Visit α)}
  {cache : Nat} {key : CacheKey} {found : Option (Output α)}

/-- All that can happen to a key. -/
theorem Visit.Moves.cases (h : visit.Moves first last) (cache : Nat) (key : CacheKey) :
    last cache key = first cache key ∧ visit ≠ .began cache key ∧
        (∀ found, visit ≠ .finished cache key found) ∨
      visit = .began cache key ∧ first cache key = .ahead ∧ last cache key = .running ∨
      ∃ found, visit = .finished cache key found ∧ first cache key = .running ∧
        last cache key = .done found := by
  cases h with
  | asked => exact Or.inl ⟨rfl, nofun, nofun⟩
  | waiting _ => exact Or.inl ⟨rfl, nofun, nofun⟩
  | answered _ => exact Or.inl ⟨rfl, nofun, nofun⟩
  | @began cache' key' hahead =>
      by_cases hsame : cache = cache' ∧ key = key'
      · obtain ⟨rfl, rfl⟩ := hsame
        exact Or.inr (Or.inl ⟨rfl, hahead, Stages.put_self⟩)
      · refine Or.inl ⟨Stages.put_of_ne hsame, ?_, nofun⟩
        rintro ⟨⟩
        exact hsame ⟨rfl, rfl⟩
  | @finished cache' key' found hrunning =>
      by_cases hsame : cache = cache' ∧ key = key'
      · obtain ⟨rfl, rfl⟩ := hsame
        exact Or.inr (Or.inr ⟨found, rfl, hrunning, Stages.put_self⟩)
      · refine Or.inl ⟨Stages.put_of_ne hsame, nofun, ?_⟩
        rintro found ⟨⟩
        exact hsame ⟨rfl, rfl⟩

namespace Chronicle

theorem append (h : Chronicle first before middle) (h' : Chronicle middle after last) :
    Chronicle first (before ++ after) last := by
  induction h with
  | nil => exact h'
  | cons hmoves _ ih => exact .cons hmoves (ih h')

theorem split (h : Chronicle first (before ++ after) last) :
    ∃ middle, Chronicle first before middle ∧ Chronicle middle after last := by
  induction before generalizing first with
  | nil => exact ⟨first, .nil first, h⟩
  | cons visit before ih =>
      cases h with
      | cons hmoves hrest =>
          obtain ⟨middle, hbefore, hafter⟩ := ih hrest
          exact ⟨middle, .cons hmoves hbefore, hafter⟩

/-- What a run has found stays. -/
theorem done (h : Chronicle first visits last) (hdone : first cache key = .done found) :
    last cache key = .done found := by
  induction h with
  | nil => exact hdone
  | cons hmoves _ ih =>
      rcases hmoves.cases cache key with ⟨hsame, -, -⟩ | ⟨-, hahead, -⟩ | ⟨_, -, hrunning, -⟩
      · exact ih (hsame.trans hdone)
      · cases hahead.symm.trans hdone
      · cases hrunning.symm.trans hdone

/-- A run that is on ends with what is listed as its end. -/
theorem running (h : Chronicle first visits last) (hrunning : first cache key = .running)
    (hlast : ∀ found, Visit.finished cache key found ∉ visits) : last cache key = .running := by
  induction h with
  | nil => exact hrunning
  | cons hmoves _ ih =>
      have hrest := fun found hmem => hlast found (List.mem_cons_of_mem _ hmem)
      rcases hmoves.cases cache key with ⟨hsame, -, -⟩ | ⟨-, hahead, -⟩ | ⟨found, rfl, -, -⟩
      · exact ih (hsame.trans hrunning) hrest
      · cases hahead.symm.trans hrunning
      · exact absurd List.mem_cons_self (hlast found)

theorem ne_ahead (h : Chronicle first visits last) (hbegun : first cache key ≠ .ahead) :
    last cache key ≠ .ahead := by
  induction h with
  | nil => exact hbegun
  | cons hmoves _ ih =>
      rcases hmoves.cases cache key with ⟨hsame, -, -⟩ | ⟨-, hahead, -⟩ | ⟨_, -, -, hdone⟩
      · exact ih (hsame ▸ hbegun)
      · exact absurd hahead hbegun
      · exact ih (by rw [hdone]; nofun)

theorem done_of_finished (h : Chronicle first visits last)
    (hmem : Visit.finished cache key found ∈ visits) : last cache key = .done found := by
  induction h with
  | nil => cases hmem
  | cons hmoves hrest ih =>
      rcases List.mem_cons.mp hmem with rfl | hmem
      · cases hmoves with
        | finished _ => exact hrest.done Stages.put_self
      · exact ih hmem

theorem running_of_began (h : Chronicle first visits last)
    (hmem : Visit.began cache key ∈ visits)
    (hlast : ∀ found, Visit.finished cache key found ∉ visits) : last cache key = .running := by
  induction h with
  | nil => cases hmem
  | cons hmoves hrest ih =>
      have hnone := fun found hmem => hlast found (List.mem_cons_of_mem _ hmem)
      rcases List.mem_cons.mp hmem with rfl | hmem
      · cases hmoves with
        | began _ => exact hrest.running Stages.put_self hnone
      · exact ih hmem hnone

end Chronicle

/-! ## Prompt answers -/

/--
Whatever is called begins its run or is answered at once, and whatever ends its run answers the call
that began it.
-/
inductive Visit.Prompt : List (Visit α) → Prop
  | nil : Prompt []
  | recalled {cache : Nat} {key : CacheKey} {found : Option (Output α)} {visits : List (Visit α)}
      (h : Prompt visits) : Prompt (.asked cache key :: .answered cache key found :: visits)
  | began {cache : Nat} {key : CacheKey} {visits : List (Visit α)} (h : Prompt visits) :
      Prompt (.asked cache key :: .began cache key :: visits)
  | finished {cache : Nat} {key : CacheKey} {found : Option (Output α)} {visits : List (Visit α)}
      (h : Prompt visits) :
      Prompt (.finished cache key found :: .answered cache key found :: visits)

namespace Visit.Prompt

theorem append (h : Prompt before) (h' : Prompt after) : Prompt (before ++ after) := by
  induction h with
  | nil => exact h'
  | recalled _ ih => exact .recalled ih
  | began _ ih => exact .began ih
  | finished _ ih => exact .finished ih

theorem asked_of_began (h : Prompt visits) (hmem : .began cache key ∈ visits) :
    .asked cache key ∈ visits := by
  induction h with
  | nil => cases hmem
  | recalled _ ih => simpa using Or.inr (ih (by simpa using hmem))
  | began _ ih =>
      simp only [List.mem_cons, asked.injEq, began.injEq, reduceCtorEq, false_or] at hmem ⊢
      exact hmem.imp_right ih
  | finished _ ih => simpa using ih (by simpa using hmem)

theorem next_of_asked (h : Prompt (before ++ .asked cache key :: after)) :
    ∃ rest, after = .began cache key :: rest ∨
      ∃ found, after = .answered cache key found :: rest := by
  generalize hvisits : before ++ .asked cache key :: after = visits at h
  induction h generalizing before with
  | nil => simp at hvisits
  | @recalled _ _ found visits _ ih =>
      match before with
      | [] => cases hvisits; exact ⟨visits, Or.inr ⟨found, rfl⟩⟩
      | [_] => cases hvisits
      | _ :: _ :: _ => exact ih (List.cons.inj (List.cons.inj hvisits).2).2
  | @began _ _ visits _ ih =>
      match before with
      | [] => cases hvisits; exact ⟨visits, Or.inl rfl⟩
      | [_] => cases hvisits
      | _ :: _ :: _ => exact ih (List.cons.inj (List.cons.inj hvisits).2).2
  | finished _ ih =>
      match before with
      | [] => cases hvisits
      | [_] => cases hvisits
      | _ :: _ :: _ => exact ih (List.cons.inj (List.cons.inj hvisits).2).2

end Visit.Prompt

/-- A call does what the stage of its key asks for: it begins the run, or is answered at once. -/
theorem Chronicle.next_of_asked (h : Chronicle first (before ++ .asked cache key :: after) last)
    (hprompt : Visit.Prompt (before ++ .asked cache key :: after)) :
    ∃ middle rest, Chronicle first before middle ∧
      Chronicle middle (.asked cache key :: after) last ∧
        (middle cache key = .ahead ∧ after = .began cache key :: rest ∨
          ∃ found, (middle cache key).entry = some found ∧
            after = .answered cache key found :: rest) := by
  obtain ⟨middle, hbefore, hasked⟩ := h.split
  obtain ⟨rest, hnext⟩ := hprompt.next_of_asked
  refine ⟨middle, rest, hbefore, hasked, ?_⟩
  cases hasked with
  | cons hmoves hrest =>
      cases hmoves
      obtain rfl | ⟨found, rfl⟩ := hnext
      · cases hrest with
        | cons hmoves _ =>
            cases hmoves with
            | began hahead => exact Or.inl ⟨hahead, rfl⟩
      · refine Or.inr ⟨found, ?_, rfl⟩
        cases hrest with
        | cons hmoves _ =>
            cases hmoves with
            | waiting hrunning => rw [hrunning]; rfl
            | answered hdone => rw [hdone]; rfl

namespace Stage

variable {stage : Stage α}

theorem entry_eq_none : stage.entry = none ↔ stage = .ahead := by
  cases stage <;> simp [entry]

end Stage

/-! ## Keys -/

namespace Visit

@[simp] theorem began?_eq_some : visit.began? cache = some key ↔ visit = .began cache key := by
  cases visit <;> simp [began?]

@[simp] theorem asked?_eq_some : visit.asked? cache = some key ↔ visit = .asked cache key := by
  cases visit <;> simp [asked?]

theorem begunIn_append : begunIn cache (before ++ after) =
    begunIn cache before ++ begunIn cache after :=
  List.filterMap_append

theorem askedIn_append : askedIn cache (before ++ after) =
    askedIn cache before ++ askedIn cache after :=
  List.filterMap_append

@[simp] theorem mem_begunIn : key ∈ begunIn cache visits ↔ .began cache key ∈ visits := by
  simp [begunIn]

@[simp] theorem mem_askedIn : key ∈ askedIn cache visits ↔ .asked cache key ∈ visits := by
  simp [askedIn]

end Visit

namespace Chronicle

theorem began_iff (h : Chronicle first visits last) :
    .began cache key ∈ visits ↔ first cache key = .ahead ∧ last cache key ≠ .ahead := by
  induction h with
  | nil => simp
  | @cons first middle last visit visits hmoves hrest ih =>
      rw [List.mem_cons, ih]
      rcases hmoves.cases cache key with ⟨hsame, hother, -⟩ | ⟨rfl, hahead, hrunning⟩ |
        ⟨found, rfl, hrunning, hdone⟩
      · rw [hsame]
        exact or_iff_right hother.symm
      · have hlast : last cache key ≠ .ahead := hrest.ne_ahead (by rw [hrunning]; nofun)
        simp [hahead, hlast]
      · simp [hrunning, hdone]

/-- Under a key for which there is a call, a run has begun. -/
theorem ne_ahead_of_asked (h : Chronicle first visits last) (hprompt : Visit.Prompt visits)
    (hmem : .asked cache key ∈ visits) : last cache key ≠ .ahead := by
  obtain ⟨before, after, rfl⟩ := List.append_of_mem hmem
  obtain ⟨middle, rest, -, hasked, ⟨-, rfl⟩ | ⟨found, hentry, -⟩⟩ := h.next_of_asked hprompt
  · exact (h.began_iff.mp (by simp)).2
  · apply hasked.ne_ahead
    intro hahead
    rw [Stage.entry_eq_none.mpr hahead] at hentry
    cases hentry

/-- What is wrapped is run at most once under each key. -/
theorem nodup_begunIn (h : Chronicle first visits last) : (Visit.begunIn cache visits).Nodup := by
  induction h with
  | nil => exact List.nodup_nil
  | @cons first middle last visit visits hmoves hrest ih =>
      rw [Visit.begunIn, List.filterMap_cons]
      cases hbegan : visit.began? cache with
      | none => exact ih
      | some key =>
          refine List.nodup_cons.mpr ⟨fun hmem => ?_, ih⟩
          obtain rfl := Visit.began?_eq_some.mp hbegan
          obtain ⟨hahead, -⟩ := hrest.began_iff.mp (Visit.mem_begunIn.mp hmem)
          cases hmoves with
          | began _ => rw [Stages.put_self] at hahead; cases hahead

end Chronicle

end Packrat
