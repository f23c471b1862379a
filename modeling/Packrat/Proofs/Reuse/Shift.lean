import Packrat.Proofs.Mirror.Combinators
import Packrat.Proofs.Restoration

/-!
# Runs that begin with later tags

Tags are only compared with each other.  A run that begins with later tags than another one, in a
state where as much is under way and the same is stored, under keys with later tags, does the same:
every tag that it gives out is later by as much.
-/

namespace Packrat

variable {α : Type}

/-! ## Later tags -/

def Left.shift (tags : Nat) : Left α → Left α
  | operand tag value => operand (tag + tags) value
  | left => left

def LeftKey.shift (tags : Nat) : LeftKey → LeftKey
  | operand tag => operand (tag + tags)
  | key => key

def CacheKey.shift (tags : Nat) (key : CacheKey) : CacheKey :=
  { key with left := key.left.shift tags }

/-- The same place, where what stands to the left has a later tag. -/
def Cursor.shift (tags : Nat) (cursor : Cursor α) : Cursor α :=
  cursor.withLeft (cursor.left.shift tags)

def Output.shift (tags : Nat) (output : Output α) : Output α :=
  { output with next := output.next.shift tags }

variable {tags : Nat} {cursor : Cursor α} {left : Left α}

theorem Left.shift_of_plain (h : left.isOperand = false) : left.shift tags = left := by
  cases left <;> first | rfl | cases h

@[simp] theorem Left.key_shift : (left.shift tags).key = left.key.shift tags := by
  cases left <;> rfl

@[simp] theorem Left.content_shift : (left.shift tags).content = left.content := by
  cases left <;> rfl

theorem LeftKey.shift_inj {key key' : LeftKey} : key.shift tags = key'.shift tags ↔ key = key' := by
  cases key <;> cases key' <;> simp [shift]

theorem CacheKey.shift_inj {key key' : CacheKey} :
    key.shift tags = key'.shift tags ↔ key = key' := by
  cases key
  cases key'
  simp [shift, LeftKey.shift_inj]

theorem Cursor.like_shift (tags : Nat) (cursor : Cursor α) : cursor.Like (cursor.shift tags) :=
  ⟨rfl, rfl, Left.content_shift⟩

/-- The key that the shifted cursor has for a node. -/
theorem Cursor.key_shift (id : Nat) (cursor : Cursor α) :
    (⟨id, cursor.offset, cursor.left.key⟩ : CacheKey).shift tags =
      ⟨id, (cursor.shift tags).offset, (cursor.shift tags).left.key⟩ := by
  rw [shift, left_withLeft, Left.key_shift]
  rfl

theorem Cursor.shift_of_plain (h : cursor.left.isOperand = false) : cursor.shift tags = cursor := by
  rw [shift, Left.shift_of_plain h]
  rfl

/-- Two outputs correspond if the payloads are the same and the second cursor is shifted. -/
theorem Output.shift_eq {output output' : Output α} (hpayload : output'.payload = output.payload)
    (hnext : output'.next = output.next.shift tags) : output' = output.shift tags := by
  cases output'
  cases hpayload
  cases hnext
  rfl

/-! ## States with later tags -/

/-- No cached parser of the grammar keeps its results in the cache. -/
def Grammar.Spares (grammar : Grammar α) (cache : Nat) : Prop :=
  ∀ id parser, Parser.memo id cache parser ∉ grammar.nodes

/--
The second state has given out more tags, and stores the same as the first one under keys with later
tags.  In both as much is under way as at the start, and a cache that no node uses stays as it was.
-/
structure Engine.Shifts (grammar : Grammar α) (tags : Nat) (start engine engine' : Engine α) :
    Prop where
  balanced : start.Balanced engine
  balanced' : start.Balanced engine'
  nextTag_eq : engine'.nextTag = engine.nextTag + tags
  entryIn_eq : ∀ cache key, engine'.entryIn cache (key.shift tags) =
    (engine.entryIn cache key).map (Option.map (Output.shift tags))
  spared : ∀ cache key, grammar.Spares cache → start.entryIn cache key = none →
    engine'.entryIn cache key = none

namespace Engine.Shifts

variable {grammar : Grammar α} {start engine engine' : Engine α} {id cache offset index : Nat}
  {key : CacheKey}

theorem active_eq (h : Shifts grammar tags start engine engine') (id : Nat) :
    engine'.active.get id = engine.active.get id :=
  (h.balanced'.active id).trans (h.balanced.active id).symm

theorem climbing_eq (h : Shifts grammar tags start engine engine') (id : Nat) :
    engine'.climbing.get id = engine.climbing.get id :=
  (h.balanced'.climbing id).trans (h.balanced.climbing id).symm

theorem entered (h : Shifts grammar tags start engine engine') (id offset : Nat) :
    Shifts grammar tags (start.entered id offset) (engine.entered id offset)
      (engine'.entered id offset) :=
  ⟨h.balanced.entered id offset, h.balanced'.entered id offset, h.nextTag_eq, h.entryIn_eq,
    h.spared⟩

theorem freed (h : Shifts grammar tags (start.entered id offset) engine engine') :
    Shifts grammar tags start (engine.freed id offset) (engine'.freed id offset) :=
  ⟨h.balanced.freed, h.balanced'.freed, h.nextTag_eq, h.entryIn_eq, h.spared⟩

theorem pushed (h : Shifts grammar tags start engine engine') (id index : Nat) :
    Shifts grammar tags (start.pushed id index) (engine.pushed id index)
      (engine'.pushed id index) :=
  ⟨h.balanced.pushed id index, h.balanced'.pushed id index, h.nextTag_eq, h.entryIn_eq, h.spared⟩

theorem popped (h : Shifts grammar tags (start.pushed id index) engine engine') :
    Shifts grammar tags start (engine.popped id) (engine'.popped id) :=
  ⟨h.balanced.popped, h.balanced'.popped, h.nextTag_eq, h.entryIn_eq, h.spared⟩

theorem recorded (h : Shifts grammar tags start engine engine') (event event' : Event) :
    Shifts grammar tags start (engine.recorded event) (engine'.recorded event') :=
  ⟨h.balanced.recorded event, h.balanced'.recorded event', h.nextTag_eq, h.entryIn_eq, h.spared⟩

theorem tagged (h : Shifts grammar tags start engine engine') :
    Shifts grammar tags start engine.tagged engine'.tagged where
  balanced := h.balanced.tagged
  balanced' := h.balanced'.tagged
  nextTag_eq := by
    change engine'.nextTag + 1 = engine.nextTag + 1 + tags
    rw [h.nextTag_eq, Nat.add_right_comm]
  entryIn_eq := h.entryIn_eq
  spared := h.spared

theorem counted (h : Shifts grammar tags start engine engine') (cache : Nat)
    (key key' : CacheKey) :
    Shifts grammar tags start (engine.counted cache key) (engine'.counted cache key') where
  balanced := h.balanced.trans (.counted cache key)
  balanced' := h.balanced'.trans (.counted cache key')
  nextTag_eq := h.nextTag_eq
  entryIn_eq := by simpa only [entryIn_counted] using h.entryIn_eq
  spared := by simpa only [entryIn_counted] using h.spared

theorem stored (h : Shifts grammar tags start engine engine') (hused : ¬ grammar.Spares cache)
    (key : CacheKey) (result : Option (Output α)) :
    Shifts grammar tags start (engine.stored cache key result)
      (engine'.stored cache (key.shift tags) (result.map (Output.shift tags))) where
  balanced := h.balanced.stored cache key result
  balanced' := h.balanced'.stored cache _ _
  nextTag_eq := h.nextTag_eq
  entryIn_eq other key' := by
    simp only [entryIn_stored, CacheKey.shift_inj, h.entryIn_eq]
    split <;> rfl
  spared other key' hspares hnone := by
    have hother : ¬ (cache = other ∧ key.shift tags = key') := by
      rintro ⟨rfl, -⟩
      exact hused hspares
    rw [entryIn_stored, if_neg hother]
    exact h.spared other key' hspares hnone

theorem descended (h : Shifts grammar tags start engine engine') (id : Nat) :
    Shifts grammar tags (start.descended id) (engine.descended id) (engine'.descended id) :=
  ⟨h.balanced.descended id, h.balanced'.descended id, h.nextTag_eq, h.entryIn_eq, h.spared⟩

theorem ended (h : Shifts grammar tags (start.descended id) engine engine') (cache : Nat) :
    Shifts grammar tags start (engine.ended id cache) (engine'.ended id cache) where
  balanced := h.balanced.ended cache
  balanced' := h.balanced'.ended cache
  nextTag_eq := by rw [nextTag_ended, nextTag_ended, h.nextTag_eq]
  entryIn_eq other key := by
    rw [h.balanced.entryIn_ended, h.balanced'.entryIn_ended, h.entryIn_eq]
    split <;> rfl
  spared other key hspares hnone := by
    rw [h.balanced'.entryIn_ended]
    split
    · rfl
    · exact h.spared other key hspares hnone

end Engine.Shifts

/-! ## Runs with later tags -/

/-- The cursors and states of two runs of which the second one has later tags. -/
def Bond.shift (grammar : Grammar α) (tags : Nat) (start : Engine α) : Bond α where
  like cursor cursor' := cursor' = cursor.shift tags
  holds := Engine.Shifts grammar tags start
  alike := by
    rintro cursor _ rfl
    exact cursor.like_shift tags
  withLeft := by
    rintro cursor _ left rfl hplain
    exact (Cursor.shift_of_plain hplain).symm
  consume := by
    rintro cursor _ taken rest rfl hrest
    rfl

section Runs

variable {grammar : Grammar α} {start engine engine' : Engine α}
  {found found' : Option (Output α)} {fuel fuel' : Nat} {parser : Parser α}

theorem Bond.shift_found_iff : (Bond.shift grammar tags start).Found found engine found' engine' ↔
    Engine.Shifts grammar tags start engine engine' ∧ found' = found.map (Output.shift tags) := by
  constructor
  · rintro ⟨hholds, hsame⟩
    refine ⟨hholds, ?_⟩
    cases hsame with
    | none => rfl
    | some hsame => exact congrArg some (Output.shift_eq hsame.payload_eq hsame.next)
  · rintro ⟨hholds, rfl⟩
    refine ⟨hholds, ?_⟩
    cases found with
    | none => exact .none
    | some output => exact .some ⟨rfl, rfl⟩

/-- With more room, what a parser marks is known as well. -/
theorem restarts_of_le {rules : Rules α} {answer : Bool} (hle : fuel ≤ fuel')
    (h : Engine.restarts rules fuel parser = .ok answer) :
    Engine.restarts rules fuel' parser = .ok answer := by
  induction fuel generalizing fuel' parser with
  | zero => cases h
  | succ fuel ih =>
      cases fuel' with
      | zero => cases hle
      | succ fuel' =>
          cases hwrapped : rules.wrapped? parser with
          | none =>
              obtain ⟨answer', -, hall⟩ := Rules.restarts_of_none hwrapped
              rw [hall] at h ⊢
              exact h
          | some part =>
              rw [Rules.restarts_of_some hwrapped] at h ⊢
              exact ih (Nat.le_of_succ_le_succ hle) h

/-- A folded payload is offered with a later tag. -/
theorem extends_shift {call call' : Call α}
    (h : (Bond.shift grammar tags start).Mirrored call call' call' parser) :
    Engine.Extends (Bond.shift grammar tags start) call call' call' parser := by
  apply Engine.Extends.of_mirrored h
  rintro cursor _ engine engine' value rfl hshifts
  have hlike : (cursor.shift tags).withLeft (.operand engine'.nextTag (some value)) =
      (cursor.withLeft (.operand engine.nextTag (some value))).shift tags := by
    rw [hshifts.nextTag_eq]
    rfl
  exact ⟨hlike, hshifts.tagged⟩

/-! ### One step -/

variable {call call' : Call α} {id cache : Nat}

/-- The node is under way in both runs or in neither. -/
theorem mirrors_guarded_shift
    (hpart : ∀ start, (Bond.shift grammar tags start).Mirrored call call' call' parser)
    (h : Engine.Shifts grammar tags start engine engine') :
    Mirrors (Engine.guardedMatch call id parser cursor) engine
      (Engine.guardedMatch call' id parser (cursor.shift tags))
      (Engine.guardedMatch call' id parser (cursor.shift tags)) engine'
      (Bond.shift grammar tags start).Found := by
  apply Engine.mirrors_guardedMatch rfl
  · intro hfree
    rw [h.active_eq]
    apply And.intro hfree
    apply (hpart _ rfl (h.entered id cursor.offset)).mono
    rintro found out found' out' ⟨hholds, hsame⟩
    exact ⟨hholds.freed, hsame⟩
  · intro hbusy
    rw [h.active_eq]
    exact ⟨hbusy, .none h⟩

theorem mirrored_attempt_shift {index : Nat}
    (hpart : ∀ start, (Bond.shift grammar tags start).Mirrored call call' call' parser) :
    (Bond.shift grammar tags start).Mirrored (Engine.attempt call id index)
      (Engine.attempt call' id index) (Engine.attempt call' id index) parser := by
  rintro cursor _ engine engine' rfl h
  apply Engine.mirrors_attempt
  apply (hpart _ rfl (h.pushed id index)).mono
  rintro found out found' out' ⟨hholds, hsame⟩
  exact ⟨hholds.popped, hsame⟩

/-- A result is stored under a key with a later tag, and found under it. -/
theorem mirrors_memo_shift (hnode : .memo id cache parser ∈ grammar.nodes)
    (hpart : (Bond.shift grammar tags start).Mirrored call call' call' parser)
    (h : Engine.Shifts grammar tags start engine engine') :
    Mirrors (Engine.memoMatch call id cache parser cursor) engine
      (Engine.memoMatch call' id cache parser (cursor.shift tags))
      (Engine.memoMatch call' id cache parser (cursor.shift tags)) engine'
      (Bond.shift grammar tags start).Found := by
  have hused : ¬ grammar.Spares cache := fun hspares => hspares id parser hnode
  apply Engine.mirrors_memoMatch rfl (cursor.key_shift id)
  · intro result hentry
    refine ⟨_, (h.entryIn_eq cache _).trans (congrArg _ hentry), ?_⟩
    exact Bond.shift_found_iff.mpr ⟨h.counted _ _ _, rfl⟩
  · intro hentry
    apply And.intro ((h.entryIn_eq cache _).trans (congrArg _ hentry))
    apply (hpart rfl ((h.counted cache _ _).stored hused _ none)).mono
    intro found out found' out' hfound
    obtain ⟨hholds, rfl⟩ := Bond.shift_found_iff.mp hfound
    exact Bond.shift_found_iff.mpr ⟨hholds.stored hused _ found, rfl⟩

theorem mirrors_clearing_shift
    (hpart : ∀ start, (Bond.shift grammar tags start).Mirrored call call' call' parser)
    (h : Engine.Shifts grammar tags start engine engine') :
    Mirrors (Engine.clearingMatch call id cache parser cursor) engine
      (Engine.clearingMatch call' id cache parser (cursor.shift tags))
      (Engine.clearingMatch call' id cache parser (cursor.shift tags)) engine'
      (Bond.shift grammar tags start).Found := by
  apply Engine.mirrors_clearingMatch
  apply (hpart _ rfl (h.descended id)).mono
  rintro found out found' out' ⟨hholds, hsame⟩
  exact ⟨hholds.ended cache, hsame⟩

/-- The events that the two runs record need not be the same. -/
theorem mirrors_logged_shift {name : String}
    (hpart : (Bond.shift grammar tags start).Mirrored call call' call' parser)
    (h : Engine.Shifts grammar tags start engine engine') :
    Mirrors (Engine.loggedMatch call name parser cursor) engine
      (Engine.loggedMatch call' name parser (cursor.shift tags))
      (Engine.loggedMatch call' name parser (cursor.shift tags)) engine'
      (Bond.shift grammar tags start).Found := by
  apply Engine.mirrors_loggedMatch
  intro event event'
  apply (hpart rfl (h.recorded event event')).mono
  rintro found out found' out' ⟨hholds, hsame⟩ event event'
  exact ⟨hholds.recorded event event', hsame⟩

/-- A node does the same with later tags if its parts do, whatever is under way inside it. -/
theorem mirrors_step_shift (hdirect : grammar.Direct) (hnode : parser ∈ grammar.nodes)
    (hle : fuel ≤ fuel')
    (hcalls : ∀ part, grammar.rules.Calls parser part →
      ∀ start, (Bond.shift grammar tags start).Mirrored call call' call' part)
    (h : Engine.Shifts grammar tags start engine engine') :
    Mirrors (Engine.step grammar.rules fuel call parser cursor) engine
      (Engine.step grammar.rules fuel' call' parser (cursor.shift tags))
      (Engine.step grammar.rules fuel' call' parser (cursor.shift tags)) engine'
      (Bond.shift grammar tags start).Found := by
  by_cases hstateless : parser.Stateless
  · apply Engine.mirrors_step hstateless _ _ (.inl hle) (.inl hle) rfl h
    · exact fun part hpart => hcalls part hpart start
    · rintro left middle right combine rfl
      exact extends_shift (hcalls left (.child List.mem_cons_self) start)
  have hparts : ∀ part ∈ parser.children, ∀ start,
      (Bond.shift grammar tags start).Mirrored call call' call' part :=
    fun part hpart => hcalls part (.child hpart)
  cases parser with
  | guarded id part => exact mirrors_guarded_shift (hparts part List.mem_cons_self) h
  | climb id alternatives =>
      apply Engine.mirrors_climbMatch (h.climbing_eq id) _ _ rfl h
      · intro part _ answer hanswer
        exact ⟨restarts_of_le hle hanswer, restarts_of_le hle hanswer⟩
      · exact fun index part hpart => mirrored_attempt_shift (hparts part hpart)
  | memo id cache part => exact mirrors_memo_shift hnode (hparts part List.mem_cons_self start) h
  | clearing id cache part => exact mirrors_clearing_shift (hparts part List.mem_cons_self) h
  | logged name part => exact mirrors_logged_shift (hparts part List.mem_cons_self start) h
  | redirected move part => exact absurd hnode (hdirect move part)
  | _ => exact absurd trivial hstateless

/--
A run that begins with later tags, and has as much room, does the same with later tags, wherever the
other run returns.
-/
theorem mirrored_run_shift (hdirect : grammar.Direct) (hnode : parser ∈ grammar.nodes)
    (hle : fuel ≤ fuel') :
    (Bond.shift grammar tags start).Mirrored (Engine.run grammar.rules fuel)
      (Engine.run grammar.rules fuel') (Engine.run grammar.rules fuel') parser := by
  induction fuel generalizing fuel' parser start with
  | zero =>
      intro cursor cursor' engine engine' _ _
      exact Mirrors.of_stop rfl
  | succ fuel ih =>
      cases fuel' with
      | zero => cases hle
      | succ fuel' =>
          have hle := Nat.le_of_succ_le_succ hle
          rintro cursor _ engine engine' rfl h
          apply mirrors_step_shift hdirect hnode hle _ h
          exact fun part hpart start => ih (Grammar.mem_nodes_of_calls hnode hpart) hle

end Runs

end Packrat
