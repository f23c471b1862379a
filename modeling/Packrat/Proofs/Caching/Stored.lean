import Packrat.Proofs.Caching.Room

/-!
# What caches hold

While a run goes on, a cache holds for every key what the node finds at the cursor with that key,
past all caches, unless the call that stored it is still under way.
-/

namespace Packrat

variable {α : Type}

/-- Both cursors are alike, and the second one follows the cursor of a call. -/
structure Cursor.LikeBehind (call here here' : Cursor α) : Prop where
  like : here.Like here'
  follows : call.Follows here'

namespace Cursor.LikeBehind

variable {call inner here here' : Cursor α} {found found' found'' : Option (Output α)}

theorem sameFound (hsame : Option.Rel (Output.Same call.LikeBehind) found found') :
    SameFound found found' := by
  cases hsame with
  | none => exact .none
  | some hsame => exact .some ⟨hsame.payload_eq, hsame.next.like⟩

/-- What follows a cursor follows all that it follows. -/
theorem of_follows (h : call.Follows inner)
    (hsame : Option.Rel (Output.Same inner.LikeBehind) found found') :
    Option.Rel (Output.Same call.LikeBehind) found found' := by
  cases hsame with
  | none => exact .none
  | some hsame =>
      exact .some ⟨hsame.payload_eq, hsame.next.like, h.trans hsame.next.follows⟩

/-- Something else may be found that is the same but for the tags of operands. -/
theorem of_same (h : SameFound found found')
    (hsame : Option.Rel (Output.Same call.LikeBehind) found' found'') :
    Option.Rel (Output.Same call.LikeBehind) found found'' := by
  cases h with
  | none => exact hsame
  | some hfirst =>
      cases hsame with
      | some hsame =>
          exact .some ⟨hsame.payload_eq.trans hfirst.payload_eq,
            hfirst.next.trans hsame.next.like, hsame.next.follows⟩

end Cursor.LikeBehind

/-- The result is what the parser finds at the cursor. -/
def Rules.Gives (rules : Rules α) (parser : Parser α) (cursor : Cursor α)
    (result : Option (Output α)) : Prop :=
  ∃ found, rules.Finds parser cursor found ∧
    Option.Rel (Output.Same cursor.LikeBehind) found result

/--
What is stored under the key of a cursor in scope was stored by a call of the node on that cursor:
one that is under way, or one that has returned what the node finds.  No tag is used in advance.
-/
structure Engine.Keeps (grammar : Grammar α) (scope : Scope α)
    (around : List (Parser α × Cursor α)) (engine : Engine α) : Prop where
  entry : ∀ {id cache place parser cursor result}, Parser.memo id cache parser ∈ grammar.nodes →
    scope.Covers engine.nextTag place cursor →
      engine.entryIn cache ⟨id, cursor.offset, cursor.left.key⟩ = some result →
        (.memo id cache parser, cursor) ∈ around ∨
          grammar.rules.Gives (.memo id cache parser) cursor result
  sound : engine.Sound grammar (fun _ _ _ _ => True) scope

namespace Engine.Keeps

variable {grammar : Grammar α} {scope : Scope α} {around : List (Parser α × Cursor α)}
  {engine engine' : Engine α} {parser : Parser α} {cursor : Cursor α} {id cache place : Nat}

theorem of_blank (h : engine.Blank) : engine.Keeps grammar scope around where
  entry _ _ hentry := by rw [h] at hentry; cases hentry
  sound := .of_blank h

/-- Entries may go, and the rest of the state may change. -/
theorem of_fewer (h : engine.Keeps grammar scope around) (htag : engine'.nextTag = engine.nextTag)
    (hentry : ∀ cache key, engine'.entryIn cache key = engine.entryIn cache key ∨
      engine'.entryIn cache key = none) : engine'.Keeps grammar scope around where
  entry hmemo hcovers hfound := by
    rcases hentry _ _ with heq | hnone
    · exact h.entry hmemo (htag ▸ hcovers) (heq ▸ hfound)
    · rw [hnone] at hfound
      cases hfound
  sound := h.sound.of_fewer htag hentry

/-- One more call may be under way. -/
theorem cons (h : engine.Keeps grammar scope around) (call : Parser α × Cursor α) :
    engine.Keeps grammar scope (call :: around) where
  entry hmemo hcovers hfound := (h.entry hmemo hcovers hfound).imp_left (List.mem_cons_of_mem call)
  sound := h.sound

/-- When a call returns that stores nothing, no entry depends on it. -/
theorem of_cons (h : engine.Keeps grammar scope ((parser, cursor) :: around))
    (hmemo : ¬ parser.isMemo) : engine.Keeps grammar scope around where
  entry hnode hcovers hfound := by
    refine (h.entry hnode hcovers hfound).imp_left fun hmem => ?_
    rcases List.mem_cons.mp hmem with heq | hmem
    · obtain ⟨rfl, -⟩ := Prod.mk.inj heq
      exact absurd rfl hmemo
    · exact hmem
  sound := h.sound

/-- When a call stores a result, that is what its node finds, or the call is under way still. -/
theorem stored {result : Option (Output α)} (hnumbered : grammar.Numbered)
    (hmemo : Parser.memo id cache parser ∈ grammar.nodes)
    (hcovers : scope.Covers engine.nextTag place cursor)
    (hresult : (.memo id cache parser, cursor) ∈ around ∨
      grammar.rules.Gives (.memo id cache parser) cursor result)
    (h : engine.Keeps grammar scope ((.memo id cache parser, cursor) :: around)) :
    (engine.stored cache ⟨id, cursor.offset, cursor.left.key⟩ result).Keeps grammar scope around
    where
  entry {id' cache' place' parser' cursor' result'} hmemo' hcovers' hfound := by
    rw [entryIn_stored] at hfound
    by_cases hkey : (⟨id, cursor.offset, cursor.left.key⟩ : CacheKey) =
        ⟨id', cursor'.offset, cursor'.left.key⟩
    · -- the entry is the one of this call
      injection hkey with hid hoffset hleft
      subst hid
      obtain ⟨rfl, rfl⟩ := hnumbered.memo hmemo hmemo'
      obtain ⟨rfl, -⟩ := hcovers.unique hcovers' hoffset.symm hleft.symm
      rw [if_pos ⟨rfl, rfl⟩] at hfound
      cases hfound
      exact hresult
    · rw [if_neg fun hboth => hkey hboth.2] at hfound
      refine (h.entry hmemo' hcovers' hfound).imp_left fun hmem => ?_
      rcases List.mem_cons.mp hmem with heq | hmem
      · obtain ⟨hparser, rfl⟩ := Prod.mk.inj heq
        cases hparser
        exact absurd rfl hkey
      · exact hmem
  sound := h.sound.stored hcovers fun _ _ _ _ => trivial

/-- The next tag is given to an operand. -/
theorem tagged (h : engine.Keeps grammar scope around) (value : Option α) (place : Nat) :
    engine.tagged.Keeps grammar (scope.put engine.nextTag value place) around where
  entry hmemo hcovers hfound := h.entry hmemo (h.sound.covers_of_put hcovers hfound) hfound
  sound := h.sound.tagged value place

end Engine.Keeps

/-! ## States that correspond -/

/--
The same guards are busy in both states as at the start, and the caches of the second one hold what
they should, in a scope that knows at least what `scope` knows of the tags below a bound.
-/
structure Engine.Keeping (grammar : Grammar α) (scope : Scope α) (tags : Nat)
    (around : List (Parser α × Cursor α)) (start engine engine' : Engine α) : Prop where
  busy : start.AsBusy engine
  busy' : start.AsBusy engine'
  keeps : ∃ later, scope.Extends tags later ∧ tags ≤ engine'.nextTag ∧
    engine'.Keeps grammar later around

namespace Engine.Keeping

variable {grammar : Grammar α} {scope later : Scope α} {tags tags' : Nat}
  {around : List (Parser α × Cursor α)} {start engine engine' out out' : Engine α}
  {parser : Parser α} {cursor : Cursor α} {id cache place offset : Nat}

/-- Entries may go, and what is under way besides guards may change. -/
theorem of_fewer (h : Keeping grammar scope tags around start engine engine')
    (hbusy : start.AsBusy out) (hbusy' : start.AsBusy out')
    (htag : out'.nextTag = engine'.nextTag)
    (hentry : ∀ cache key, out'.entryIn cache key = engine'.entryIn cache key ∨
      out'.entryIn cache key = none) : Keeping grammar scope tags around start out out' := by
  obtain ⟨later, hextends, hle, hkeeps⟩ := h.keeps
  exact ⟨hbusy, hbusy', later, hextends, htag ▸ hle, hkeeps.of_fewer htag hentry⟩

theorem entered (h : Keeping grammar scope tags around start engine engine') (id offset : Nat) :
    Keeping grammar scope tags around (start.entered id offset) (engine.entered id offset)
      (engine'.entered id offset) := by
  obtain ⟨later, hextends, hle, hkeeps⟩ := h.keeps
  exact ⟨h.busy.entered id offset, h.busy'.entered id offset, later, hextends, hle,
    hkeeps.of_fewer rfl fun _ _ => Or.inl rfl⟩

theorem freed (h : Keeping grammar scope tags around (start.entered id offset) engine engine') :
    Keeping grammar scope tags around start (engine.freed id offset)
      (engine'.freed id offset) := by
  obtain ⟨later, hextends, hle, hkeeps⟩ := h.keeps
  exact ⟨h.busy.freed, h.busy'.freed, later, hextends, hle,
    hkeeps.of_fewer rfl fun _ _ => Or.inl rfl⟩

theorem descended (h : Keeping grammar scope tags around start engine engine') (id : Nat) :
    Keeping grammar scope tags around start (engine.descended id) (engine'.descended id) :=
  h.of_fewer h.busy h.busy' rfl fun _ _ => Or.inl rfl

theorem recorded (h : Keeping grammar scope tags around start engine engine')
    (event event' : Event) :
    Keeping grammar scope tags around start (engine.recorded event) (engine'.recorded event') :=
  h.of_fewer h.busy h.busy' rfl fun _ _ => Or.inl rfl

theorem counted (h : Keeping grammar scope tags around start engine engine') (cache : Nat)
    (key : CacheKey) :
    Keeping grammar scope tags around start engine (engine'.counted cache key) :=
  h.of_fewer h.busy h.busy' rfl fun _ _ => Or.inl entryIn_counted

theorem ended (h : Keeping grammar scope tags around start engine engine') (id cache : Nat) :
    Keeping grammar scope tags around start (engine.ended id cache) (engine'.ended id cache) :=
  h.of_fewer (h.busy.ended cache) (h.busy'.ended cache) (nextTag_ended id)
    fun _ _ => (entryIn_ended id).imp_right And.right

/-- The next tags of both runs are given to an operand, which comes into scope in the second. -/
theorem tagged (h : Keeping grammar scope tags around start engine engine') (value : Option α)
    (place : Nat) :
    ∃ later, scope.Extends tags later ∧ tags ≤ engine'.nextTag ∧
      Keeping grammar (later.put engine'.nextTag value place) (engine'.nextTag + 1) around start
        engine.tagged engine'.tagged := by
  obtain ⟨later, hextends, hle, hkeeps⟩ := h.keeps
  exact ⟨later, hextends, hle, h.busy, h.busy', _, .refl _ _, Nat.le_refl _,
    hkeeps.tagged value place⟩

/-- What a run with a later scope leaves behind serves the run that it belongs to. -/
theorem of_extends (h : Keeping grammar later tags' around start engine engine')
    (hextends : scope.Extends tags later) (hle : tags ≤ tags') :
    Keeping grammar scope tags around start engine engine' := by
  obtain ⟨further, hfurther, hle', hkeeps⟩ := h.keeps
  exact ⟨h.busy, h.busy', further, hextends.trans hfurther hle, Nat.le_trans hle hle', hkeeps⟩

/-- The first run may go on, if the same guards are busy then. -/
theorem of_asBusy (h : Keeping grammar scope tags around start engine engine')
    (hbusy : engine.AsBusy out) : Keeping grammar scope tags around start out engine' :=
  ⟨h.busy.trans hbusy, h.busy', h.keeps⟩

theorem cons (h : Keeping grammar scope tags around start engine engine')
    (call : Parser α × Cursor α) :
    Keeping grammar scope tags (call :: around) start engine engine' := by
  obtain ⟨later, hextends, hle, hkeeps⟩ := h.keeps
  exact ⟨h.busy, h.busy', later, hextends, hle, hkeeps.cons call⟩

theorem of_cons (h : Keeping grammar scope tags ((parser, cursor) :: around) start engine engine')
    (hmemo : ¬ parser.isMemo) : Keeping grammar scope tags around start engine engine' := by
  obtain ⟨later, hextends, hle, hkeeps⟩ := h.keeps
  exact ⟨h.busy, h.busy', later, hextends, hle, hkeeps.of_cons hmemo⟩

/-- When a call stores a result, that is what its node finds, or the call is under way still. -/
theorem stored {result : Option (Output α)} (hnumbered : grammar.Numbered)
    (hmemo : Parser.memo id cache parser ∈ grammar.nodes)
    (hcovers : scope.Covers tags place cursor)
    (hresult : (.memo id cache parser, cursor) ∈ around ∨
      grammar.rules.Gives (.memo id cache parser) cursor result)
    (h : Keeping grammar scope tags ((.memo id cache parser, cursor) :: around) start engine
      engine') :
    Keeping grammar scope tags around start engine
      (engine'.stored cache ⟨id, cursor.offset, cursor.left.key⟩ result) := by
  obtain ⟨later, hextends, hle, hkeeps⟩ := h.keeps
  exact ⟨h.busy, h.busy', later, hextends, hle,
    hkeeps.stored hnumbered hmemo (hcovers.wider hextends hle) hresult⟩

/-- When a call begins, it stores no match in advance. -/
theorem begun (hnumbered : grammar.Numbered)
    (hmemo : Parser.memo id cache parser ∈ grammar.nodes)
    (hcovers : scope.Covers tags place cursor)
    (h : Keeping grammar scope tags around start engine engine') (key : CacheKey) :
    Keeping grammar scope tags ((.memo id cache parser, cursor) :: around) start engine
      ((engine'.counted cache key).stored cache ⟨id, cursor.offset, cursor.left.key⟩ none) :=
  (((h.counted cache key).cons _).cons _).stored hnumbered hmemo hcovers
    (Or.inl List.mem_cons_self)

end Engine.Keeping

/-- Two runs, past the caches and with them, while a call on a cursor is under way. -/
def Bond.cached (grammar : Grammar α) (scope : Scope α) (tags : Nat)
    (around : List (Parser α × Cursor α)) (start : Engine α) (call : Cursor α) : Bond α where
  like := call.LikeBehind
  holds := Engine.Keeping grammar scope tags around start
  alike h := h.like
  withLeft h hplain := ⟨h.like.withLeft rfl, h.follows.withLeft hplain⟩
  consume h hrest := ⟨h.like.consume hrest _, h.follows.consume _⟩

end Packrat
