import Packrat.Proofs.Expression.Operators
import Packrat.Proofs.Expression.Tokens

/-!
# Reading what was written

An expression is written with parentheses around every operator, so each operand is a token, a
list in brackets or a group, and the levels between have nothing to decide.  By induction on the
expression, recursive descent reads each operand back, whatever comes behind it.
-/

namespace Packrat.Expression

open Reader
open Text (byteLength)

/-! ## Expressions that can be read back -/

/--
No number has a sign, all names are names, and texts are made of characters that stand for
themselves.
-/
inductive Readable : Expr → Prop where
  | int {n : Int64} (h : 0 ≤ n) : Readable (.int n)
  | str {chars : List Char} (h : ∀ c ∈ chars, isPlain c = true) : Readable (.str chars)
  | ident {name : List Char} (h : IsName name) : Readable (.ident name)
  | array {items : List Expr} (h : ∀ item ∈ items, Readable item) : Readable (.array items)
  | call {name : List Char} {args : List Expr} (hname : IsName name)
      (h : ∀ arg ∈ args, Readable arg) : Readable (.call name args)
  | unary {op : UnaryOp} {operand : Expr} (h : Readable operand) : Readable (.unary op operand)
  | binary {op : BinaryOp} {left right : Expr} (hleft : Readable left) (hright : Readable right) :
      Readable (.binary op left right)

/-! ## First characters -/

/-- What operands begin with. -/
def begins (c : Char) : Bool := isLetter c || c.isDigit || c == '"' || c == '[' || c == '('

theorem isLetter_range {c : Char} (h : isLetter c = true) : 65 ≤ c.toNat ∧ c.toNat ≤ 122 := by
  simp only [isLetter, Bool.or_eq_true, beq_iff_eq] at h
  rcases h with (hlower | hupper) | rfl
  · obtain ⟨hlow, hhigh⟩ := Bool.and_eq_true_iff.mp hlower
    have hlow : 97 ≤ c.toNat := UInt32.le_iff_toNat_le.mp (of_decide_eq_true hlow)
    have hhigh : c.toNat ≤ 122 := UInt32.le_iff_toNat_le.mp (of_decide_eq_true hhigh)
    omega
  · obtain ⟨hlow, hhigh⟩ := of_decide_eq_true hupper
    have hlow : 65 ≤ c.toNat := UInt32.le_iff_toNat_le.mp hlow
    have hhigh : c.toNat ≤ 90 := UInt32.le_iff_toNat_le.mp hhigh
    omega
  · decide

theorem begins_iff {c : Char} :
    begins c = true ↔
      isLetter c = true ∨ c.isDigit = true ∨ c = '"' ∨ c = '[' ∨ c = '(' := by
  simp only [begins, Bool.or_eq_true, beq_iff_eq, or_assoc]

theorem isBlank_of_begins {c : Char} (h : begins c = true) : Text.isBlank c = false := by
  rcases begins_iff.mp h with hletter | hdigit | rfl | rfl | rfl
  · have hrange := isLetter_range hletter
    exact isBlank_eq_false (by omega) (by omega)
  · have hrange := isDigit_iff_toNat.mp hdigit
    exact isBlank_eq_false (by omega) (by omega)
  · decide
  · decide
  · decide

theorem unsigned_of_begins {c : Char} {cs : List Char} (h : begins c = true) :
    Unsigned (c :: cs) := by
  apply unsigned_cons (isBlank_of_begins h)
  rintro op rfl
  cases op <;> cases h

/-! ## Alternatives -/

section Alternatives

variable {expression : Reader Expr} {c : Char} {cs : List Char}

theorem padded_cons {β : Type} {reader : Reader β} (hc : Text.isBlank c = false) :
    padded reader (c :: cs) = (reader (c :: cs)).map (Prod.map id skipBlanks) := by
  rw [padded, skip_cons hc]

theorem between_cons_ne {β : Type} {opening closing : String} {reader : Reader β} {d : Char}
    (hopening : opening.toList = [d]) (hc : Text.isBlank c = false) (hne : c ≠ d) :
    between opening closing reader (c :: cs) = none := by
  have hunlike : Unlike (· == d) (skipBlanks (c :: cs)) := by
    rw [skip_cons hc, unlike_cons]
    exact beq_eq_false_iff_ne.mpr hne
  rw [between, behind_eq_none hopening hunlike, Option.bind_none]

theorem padded_nameRun_eq_none (hc : Text.isBlank c = false) (h : isLetter c = false) :
    padded nameRun (c :: cs) = none := by
  rw [padded_cons hc, nameRun, h]
  rfl

theorem padded_integerRun_eq_none (hc : Text.isBlank c = false) (h : c.isDigit = false) :
    padded integerRun (c :: cs) = none := by
  rw [padded_cons hc, integerRun, List.takeWhile_cons_of_neg (by rw [h]; decide)]
  rfl

theorem padded_stringRun_eq_none (hc : Text.isBlank c = false) (h : c ≠ '"') :
    padded stringRun (c :: cs) = none := by
  rw [padded_cons hc, stringRun]
  · rfl
  · rintro rest heq
    cases heq
    exact h rfl

theorem map_eq_none {β γ : Type} {f : β → γ} {reader : Reader β} {rest : List Char}
    (h : reader rest = none) : Reader.map f reader rest = none := by
  rw [Reader.map, h, Option.map_none]

theorem callOf_eq_none (hc : Text.isBlank c = false) (h : isLetter c = false) :
    callOf expression (c :: cs) = none := by
  rw [callOf, padded_nameRun_eq_none hc h, Option.bind_none]

theorem isDigit_of_isLetter (h : isLetter c = true) : c.isDigit = false := by
  apply Bool.eq_false_iff.mpr
  intro hdigit
  have hletter := isLetter_range h
  have hrange := isDigit_iff_toNat.mp hdigit
  omega

/-- The first character of an operand tells what it is. -/
theorem atomOf_cons (hc : Text.isBlank c = false) :
    atomOf expression (c :: cs) =
      if isLetter c then
        (callOf expression (c :: cs)).or (Reader.map .ident (padded nameRun) (c :: cs))
      else if c.isDigit then Reader.map .int (padded integerRun) (c :: cs)
      else if c = '"' then Reader.map .str (padded stringRun) (c :: cs)
      else if c = '[' then Reader.map .array (between "[" "]" (itemsOf expression)) (c :: cs)
      else if c = '(' then between "(" ")" expression (c :: cs)
      else none := by
  have hcall : isLetter c = false → callOf expression (c :: cs) = none := callOf_eq_none hc
  have hname : isLetter c = false → Reader.map Expr.ident (padded nameRun) (c :: cs) = none :=
    fun h => map_eq_none (padded_nameRun_eq_none hc h)
  have hint : c.isDigit = false → Reader.map Expr.int (padded integerRun) (c :: cs) = none :=
    fun h => map_eq_none (padded_integerRun_eq_none hc h)
  have hstr : c ≠ '"' → Reader.map Expr.str (padded stringRun) (c :: cs) = none :=
    fun h => map_eq_none (padded_stringRun_eq_none hc h)
  have harray : c ≠ '[' →
      Reader.map Expr.array (between "[" "]" (itemsOf expression)) (c :: cs) = none :=
    fun h => map_eq_none (between_cons_ne rfl hc h)
  have hgroup : c ≠ '(' → between "(" ")" expression (c :: cs) = none := between_cons_ne rfl hc
  simp only [atomOf, Reader.first, Option.or_none]
  by_cases hletter : isLetter c = true
  · have hne : ∀ d, isLetter d = false → c ≠ d := by
      rintro d hd rfl
      rw [hletter] at hd
      cases hd
    rw [if_pos hletter, harray (hne _ rfl), hgroup (hne _ rfl), hint (isDigit_of_isLetter hletter),
      hstr (hne _ rfl), Option.none_or, Option.none_or, Option.none_or, Option.none_or]
  rw [if_neg hletter]
  rw [Bool.not_eq_true] at hletter
  rw [hcall hletter, hname hletter, Option.none_or, Option.or_none]
  by_cases hdigit : c.isDigit = true
  · have hne : ∀ d : Char, d.isDigit = false → c ≠ d := by
      rintro d hd rfl
      rw [hdigit] at hd
      cases hd
    rw [if_pos hdigit, harray (hne _ rfl), hgroup (hne _ rfl), hstr (hne _ rfl), Option.none_or,
      Option.none_or, Option.or_none]
  rw [if_neg hdigit]
  rw [Bool.not_eq_true] at hdigit
  rw [hint hdigit, Option.none_or]
  by_cases hquote : c = '"'
  · subst hquote
    rw [if_pos rfl, harray (by decide), hgroup (by decide), Option.none_or, Option.none_or]
  rw [if_neg hquote, hstr hquote, Option.or_none]
  by_cases hbracket : c = '['
  · subst hbracket
    rw [if_pos rfl, hgroup (by decide), Option.or_none]
  rw [if_neg hbracket, harray hbracket, Option.none_or]
  by_cases hparenthesis : c = '('
  · rw [if_pos hparenthesis]
  · rw [if_neg hparenthesis, hgroup hparenthesis]

end Alternatives

/-! ## Written expressions -/

/-- Items with commas between them. -/
def listText (items : List Expr) : List Char :=
  (String.intercalate ", " (Expr.displayAll items)).toList

/-- The items behind the first one of a list. -/
def tailText (items : List Expr) : List Char :=
  items.flatMap fun item => ',' :: ' ' :: item.display.toList

theorem listText_cons (item : Expr) (items : List Expr) :
    listText (item :: items) = item.display.toList ++ tailText items := by
  induction items generalizing item with
  | nil => simp [listText, tailText, Expr.displayAll]
  | cons next items ih =>
      have hnext := ih next
      rw [listText, Expr.displayAll] at hnext
      rw [listText, Expr.displayAll, Expr.displayAll, String.intercalate_cons_cons,
        String.toList_append, String.toList_append, hnext, tailText, tailText, List.flatMap_cons,
        List.append_assoc]
      rfl

section Display

variable {op : BinaryOp} {sign : UnaryOp} {name : List Char} {items : List Expr} {x y : Expr}

theorem toList_display_array :
    (Expr.array items).display.toList = '[' :: (listText items ++ [']']) := by
  rw [Expr.display, String.toList_append, String.toList_append]
  rfl

theorem toList_display_call :
    (Expr.call name items).display.toList = name ++ '(' :: (listText items ++ [')']) := by
  rw [Expr.display, String.toList_append, String.toList_append, String.toList_append,
    String.toList_ofList, List.append_assoc, List.append_assoc]
  rfl

theorem toList_display_unary :
    (Expr.unary sign x).display.toList =
      '(' :: (sign.symbol.toList ++ (x.display.toList ++ [')'])) := by
  simp [Expr.display]

theorem toList_display_binary :
    (Expr.binary op x y).display.toList =
      '(' :: (x.display.toList ++
        ' ' :: (op.symbol.toList ++ ' ' :: (y.display.toList ++ [')']))) := by
  simp [Expr.display]

end Display

/-- What is written for an expression begins like an operand. -/
theorem Readable.display_cons {e : Expr} (h : Readable e) :
    ∃ c cs, e.display.toList = c :: cs ∧ begins c = true := by
  cases h with
  | @int n h =>
      obtain ⟨c, cs, hcs, hdigit⟩ := toString_cons h
      rw [Expr.display, hcs]
      exact ⟨c, cs, rfl, begins_iff.mpr (.inr (.inl hdigit))⟩
  | str =>
      rw [Expr.display, toList_quoted]
      exact ⟨_, _, rfl, rfl⟩
  | ident h =>
      cases h with
      | @mk c cs hc =>
          rw [Expr.display, String.toList_ofList]
          exact ⟨c, cs, rfl, begins_iff.mpr (.inl hc)⟩
  | array =>
      rw [toList_display_array]
      exact ⟨_, _, rfl, rfl⟩
  | call hname =>
      cases hname with
      | mk hc =>
          rw [toList_display_call]
          exact ⟨_, _, rfl, begins_iff.mpr (.inl hc)⟩
  | unary =>
      rw [toList_display_unary]
      exact ⟨_, _, rfl, rfl⟩
  | binary =>
      rw [toList_display_binary]
      exact ⟨_, _, rfl, rfl⟩

theorem Readable.unsigned {e : Expr} (h : Readable e) (rest : List Char) :
    Unsigned (e.display.toList ++ rest) := by
  obtain ⟨c, cs, hcs, hc⟩ := h.display_cons
  rw [hcs]
  exact unsigned_of_begins hc

theorem Readable.skip {e : Expr} (h : Readable e) (rest : List Char) :
    skipBlanks (e.display.toList ++ rest) = e.display.toList ++ rest := by
  obtain ⟨c, cs, hcs, hc⟩ := h.display_cons
  rw [hcs, List.cons_append, skip_cons (isBlank_of_begins hc)]

/-! ## What stands behind -/

/-- The text neither goes on with a name or number nor has a list of arguments next. -/
structure Ends (rest : List Char) : Prop where
  name : Unlike isLetterOrDigit rest
  list : Unlike (· == '(') (skipBlanks rest)

/-- The text is at its end, or at that of a group or of an item of a list. -/
def Closed (rest : List Char) : Prop := Unlike (fun c => !(c == ')' || c == ']' || c == ',')) rest

theorem Closed.cases {c : Char} {cs : List Char} (h : Closed (c :: cs)) :
    c = ')' ∨ c = ']' ∨ c = ',' := by
  simpa only [Closed, unlike_cons, Bool.not_eq_false', Bool.or_eq_true, beq_iff_eq, or_assoc]
    using h

theorem Closed.skip {rest : List Char} (h : Closed rest) : skipBlanks rest = rest := by
  cases rest with
  | nil => rfl
  | cons c cs => rcases h.cases with rfl | rfl | rfl <;> rfl

theorem Closed.ends {rest : List Char} (h : Closed rest) : Ends rest := by
  constructor
  · cases rest with
    | nil => exact unlike_nil _
    | cons c cs => rcases h.cases with rfl | rfl | rfl <;> exact unlike_cons.mpr rfl
  · rw [h.skip]
    cases rest with
    | nil => exact unlike_nil _
    | cons c cs => rcases h.cases with rfl | rfl | rfl <;> exact unlike_cons.mpr rfl

theorem Closed.free {rest : List Char} (h : Closed rest) : Free rest := by
  cases rest with
  | nil => exact free_nil
  | cons c cs =>
      rcases h.cases with rfl | rfl | rfl
      · exact free_cons rfl fun op => by cases op <;> decide
      · exact free_cons rfl fun op => by cases op <;> decide
      · exact free_cons rfl fun op => by cases op <;> decide

theorem skip_operator (op : BinaryOp) (rest : List Char) :
    skipBlanks (' ' :: (op.symbol.toList ++ rest)) = op.symbol.toList ++ rest := by
  obtain ⟨cs, hcs⟩ := op.symbol_eq
  rw [hcs, List.cons_append]
  exact (List.dropWhile_cons_of_pos (by decide)).trans (skip_cons op.head_visible _)

/-- A blank and an operator end an operand. -/
theorem ends_operator (op : BinaryOp) (rest : List Char) :
    Ends (' ' :: (op.symbol.toList ++ rest)) := by
  constructor
  · exact unlike_cons.mpr rfl
  · obtain ⟨cs, hcs⟩ := op.symbol_eq
    rw [skip_operator, hcs, List.cons_append, unlike_cons]
    cases op <;> rfl

/-! ## Operands -/

/-- What is written for the expression is read as an operand, whatever ends it. -/
def Reads (e : Expr) : Prop :=
  ∀ rest, Ends rest → atomOf tree (e.display.toList ++ rest) = some (e, skipBlanks rest)

/-- An operand with nothing behind it that goes on is an expression. -/
theorem Reads.tree {e : Expr} (h : Reads e) (hreadable : Readable e) {rest : List Char}
    (hrest : Closed rest) : tree (e.display.toList ++ rest) = some (e, rest) := by
  rw [tree_eq]
  apply orOf_of_atom tree_shrinks (hreadable.unsigned rest)
  · rw [h rest hrest.ends, hrest.skip]
  · exact hrest.free

/-! ### Tokens -/

theorem reads_int {n : Int64} (h : 0 ≤ n) : Reads (.int n) := by
  intro rest hrest
  have hread : integerRun ((toString n.toInt).toList ++ rest) = some (n, rest) := by
    apply integerRun_append h
    exact hrest.name.mono fun c hc => by simp [isLetterOrDigit, hc]
  obtain ⟨c, cs, hcs, hdigit⟩ := toString_cons h
  have hblank : Text.isBlank c = false := isBlank_of_begins (begins_iff.mpr (.inr (.inl hdigit)))
  have hletter : ¬ isLetter c = true := fun hletter => by
    rw [isDigit_of_isLetter hletter] at hdigit
    cases hdigit
  rw [hcs, List.cons_append] at hread
  rw [Expr.display, hcs, List.cons_append, atomOf_cons hblank, if_neg hletter, if_pos hdigit,
    Reader.map, padded_cons hblank, hread]
  rfl

theorem reads_str {chars : List Char} (h : ∀ c ∈ chars, isPlain c = true) : Reads (.str chars) := by
  intro rest _
  have hread : stringRun ((Text.quoted (String.ofList chars)).toList ++ rest) =
      some (chars, rest) := stringRun_append h
  rw [toList_quoted, List.cons_append] at hread
  rw [Expr.display, toList_quoted, List.cons_append, atomOf_cons (by decide), if_neg (by decide),
    if_neg (by decide), if_pos rfl, Reader.map, padded_cons (by decide), hread]
  rfl

/-- A name is read as one unless a list of arguments stands behind it. -/
theorem padded_nameRun_append {name rest : List Char} (h : IsName name)
    (hrest : Unlike isLetterOrDigit rest) :
    padded nameRun (name ++ rest) = some (name, skipBlanks rest) := by
  have hread := nameRun_append h hrest
  cases h with
  | mk hc hcs =>
      rw [List.cons_append] at hread ⊢
      rw [padded_cons (isBlank_of_begins (begins_iff.mpr (.inl hc))), hread]
      rfl

theorem atomOf_name {expression : Reader Expr} {name : List Char} (h : IsName name)
    (rest : List Char) :
    atomOf expression (name ++ rest) = (callOf expression (name ++ rest)).or
      (Reader.map .ident (padded nameRun) (name ++ rest)) := by
  cases h with
  | mk hc hcs =>
      rw [List.cons_append, atomOf_cons (isBlank_of_begins (begins_iff.mpr (.inl hc))), if_pos hc]

theorem reads_ident {name : List Char} (h : IsName name) : Reads (.ident name) := by
  intro rest hrest
  have hname := padded_nameRun_append h hrest.name
  have hcall : callOf tree (name ++ rest) = none := by
    have hopening : behind "(" (skipBlanks rest) = none :=
      behind_eq_none rfl (by rw [skip_skipBlanks]; exact hrest.list)
    have hargs : between "(" ")" (itemsOf tree) (skipBlanks rest) = none := by
      rw [between, hopening, Option.bind_none]
    rw [callOf, hname, Option.bind_some]
    dsimp only
    rw [hargs]
    rfl
  rw [Expr.display, String.toList_ofList, atomOf_name h, hcall, Option.none_or, Reader.map, hname]
  rfl

/-! ### Lists -/

theorem closed_tailText (items : List Expr) {rest : List Char} (hrest : Closed rest) :
    Closed (tailText items ++ rest) := by
  cases items with
  | nil => exact hrest
  | cons item items => exact unlike_cons.mpr rfl

/-- What stands behind the last item of a list. -/
def Closing (rest : List Char) : Prop := ∃ c cs, rest = c :: cs ∧ (c = ')' ∨ c = ']')

theorem Closing.closed {rest : List Char} (h : Closing rest) : Closed rest := by
  obtain ⟨c, cs, rfl, rfl | rfl⟩ := h <;> exact unlike_cons.mpr rfl

theorem Closing.tree_eq_none {rest : List Char} (h : Closing rest) : tree rest = none := by
  rw [tree_eq]
  obtain ⟨c, cs, rfl, rfl | rfl⟩ := h
  · exact orOf_eq_none tree_shrinks (unsigned_cons rfl fun op => by cases op <;> decide)
      (atomOf_cons rfl)
  · exact orOf_eq_none tree_shrinks (unsigned_cons rfl fun op => by cases op <;> decide)
      (atomOf_cons rfl)

theorem many_tailText {items : List Expr} (h : ∀ item ∈ items, Readable item ∧ Reads item)
    {rest : List Char} (hrest : Closing rest) :
    Reader.many (fun rest => (behind "," rest).bind tree) (tailText items ++ rest) =
      (items, rest) := by
  induction items with
  | nil =>
      apply many_of_none
      obtain ⟨c, cs, rfl, rfl | rfl⟩ := hrest <;> rfl
  | cons item items ih =>
      obtain ⟨⟨hreadable, hreads⟩, hitems⟩ := List.forall_mem_cons.mp h
      have htext : tailText (item :: items) ++ rest =
          ',' :: ' ' :: (item.display.toList ++ (tailText items ++ rest)) := by
        simp [tailText]
      have hcomma : behind "," (',' :: ' ' :: (item.display.toList ++ (tailText items ++ rest))) =
          some (item.display.toList ++ (tailText items ++ rest)) := by
        rw [behind_cons rfl (by decide)]
        exact congrArg some (hreadable.skip _)
      have hread := hreads.tree hreadable (closed_tailText items hrest.closed)
      rw [htext, many_of_some (by rw [hcomma]; exact hread), ih hitems]
      · rfl
      · exact Nat.lt_of_le_of_lt (tree_shrinks _ _ _ hread) (behind_lt (by decide) hcomma)

theorem itemsOf_listText {items : List Expr} (h : ∀ item ∈ items, Readable item ∧ Reads item)
    {rest : List Char} (hrest : Closing rest) :
    itemsOf tree (listText items ++ rest) = some (items, rest) := by
  cases items with
  | nil =>
      have hnone : tree (listText [] ++ rest) = none := hrest.tree_eq_none
      rw [itemsOf, hnone]
      rfl
  | cons item items =>
      obtain ⟨⟨hreadable, hreads⟩, hitems⟩ := List.forall_mem_cons.mp h
      have hread := hreads.tree hreadable (closed_tailText items hrest.closed)
      rw [listText_cons, List.append_assoc, itemsOf, hread]
      dsimp only
      rw [many_tailText hitems hrest]
      rfl

/-- No blank stands in front of a list. -/
theorem skip_listText {items : List Expr} (h : ∀ item ∈ items, Readable item) {rest : List Char}
    (hrest : Closing rest) : skipBlanks (listText items ++ rest) = listText items ++ rest := by
  cases items with
  | nil => exact hrest.closed.skip
  | cons item items =>
      rw [listText_cons, List.append_assoc]
      exact (h item (List.mem_cons_self ..)).skip _

theorem between_listText {opening closing : String} {c d : Char} {items : List Expr}
    (hopening : opening.toList = [c]) (hclosing : closing.toList = [d])
    (hc : Text.isBlank c = false) (hd : d = ')' ∨ d = ']')
    (h : ∀ item ∈ items, Readable item ∧ Reads item) (rest : List Char) :
    between opening closing (itemsOf tree) (c :: (listText items ++ d :: rest)) =
      some (items, skipBlanks rest) := by
  have hrest : Closing (d :: rest) := ⟨d, rest, rfl, hd⟩
  apply between_cons hopening hclosing hc
  · rcases hd with rfl | rfl <;> decide
  · rw [skip_listText (fun item hmem => (h item hmem).1) hrest]
    exact itemsOf_listText h hrest

theorem reads_array {items : List Expr} (h : ∀ item ∈ items, Readable item ∧ Reads item) :
    Reads (.array items) := by
  intro rest _
  have hread : between "[" "]" (itemsOf tree) ('[' :: (listText items ++ ']' :: rest)) =
      some (items, skipBlanks rest) := between_listText rfl rfl rfl (.inr rfl) h rest
  rw [toList_display_array, List.cons_append, List.append_assoc, atomOf_cons (by decide),
    if_neg (by decide), if_neg (by decide), if_neg (by decide), if_pos rfl, Reader.map]
  exact congrArg (Option.map _) hread

theorem reads_call {name : List Char} {args : List Expr} (hname : IsName name)
    (h : ∀ arg ∈ args, Readable arg ∧ Reads arg) : Reads (.call name args) := by
  intro rest _
  have hread : between "(" ")" (itemsOf tree) ('(' :: (listText args ++ ')' :: rest)) =
      some (args, skipBlanks rest) := between_listText rfl rfl rfl (.inl rfl) h rest
  have hcall : callOf tree (name ++ '(' :: (listText args ++ ')' :: rest)) =
      some (.call name args, skipBlanks rest) := by
    rw [callOf, padded_nameRun_append hname (unlike_cons.mpr rfl), Option.bind_some]
    dsimp only
    rw [skip_cons rfl, hread]
    rfl
  rw [toList_display_call, List.append_assoc, List.cons_append, List.append_assoc]
  refine (atomOf_name hname _).trans ?_
  exact (congrArg (Option.or · _) hcall).trans (Option.some_or)

/-! ### Groups -/

theorem atomOf_group {expression : Reader Expr} {text rest : List Char} {x : Expr}
    (hread : expression (skipBlanks text) = some (x, ')' :: rest)) :
    atomOf expression ('(' :: text) = some (x, skipBlanks rest) := by
  have hbetween : between "(" ")" expression ('(' :: text) = some (x, skipBlanks rest) :=
    between_cons rfl rfl rfl rfl hread
  rw [atomOf_cons rfl]
  exact hbetween

theorem closed_parenthesis (rest : List Char) : Closed (')' :: rest) := unlike_cons.mpr rfl

theorem reads_unary {op : UnaryOp} {operand : Expr} (hreadable : Readable operand)
    (h : Reads operand) : Reads (.unary op operand) := by
  intro rest _
  have hclosed := closed_parenthesis rest
  have hbehind := op.behind_self (operand.display.toList ++ ')' :: rest)
  rw [hreadable.skip] at hbehind
  have hskip : skipBlanks (op.symbol.toList ++ (operand.display.toList ++ ')' :: rest)) =
      op.symbol.toList ++ (operand.display.toList ++ ')' :: rest) := by
    rw [op.symbol_eq]
    exact skip_cons op.head_visible _
  rw [toList_display_unary, List.cons_append, List.append_assoc, List.append_assoc]
  apply atomOf_group
  rw [List.singleton_append, hskip, tree_eq]
  apply orOf_of_unary tree_shrinks _ hbehind (hreadable.unsigned _)
  · rw [h _ hclosed.ends, hclosed.skip]
  · exact hclosed.free
  · exact fun other hne => UnaryOp.behind_other hne _

theorem reads_binary {op : BinaryOp} {left right : Expr} (hleft : Readable left)
    (hright : Readable right) (h : Reads left) (h' : Reads right) :
    Reads (.binary op left right) := by
  intro rest _
  have hclosed := closed_parenthesis rest
  have hread := h _ (ends_operator op (' ' :: (right.display.toList ++ ')' :: rest)))
  rw [skip_operator] at hread
  have hread' := h' _ hclosed.ends
  rw [hclosed.skip] at hread'
  have hbehind : behind op.symbol
      (op.symbol.toList ++ ' ' :: (right.display.toList ++ ')' :: rest)) =
        some (right.display.toList ++ ')' :: rest) := by
    rw [op.behind_self]
    exact congrArg some (hright.skip _)
  rw [toList_display_binary]
  simp only [List.cons_append, List.append_assoc, List.nil_append]
  apply atomOf_group
  rw [hleft.skip, tree_eq]
  exact orOf_of_binary tree_shrinks (hleft.unsigned _) hread
    (fun other hne => BinaryOp.behind_other hne _) hbehind (hright.unsigned _) hread' hclosed.free

/-- By induction on the expression, everything that is written is read back. -/
theorem Readable.reads {e : Expr} (h : Readable e) : Reads e := by
  induction h with
  | int h => exact reads_int h
  | str h => exact reads_str h
  | ident h => exact reads_ident h
  | array h ih => exact reads_array fun item hmem => ⟨h item hmem, ih item hmem⟩
  | call hname h ih => exact reads_call hname fun arg hmem => ⟨h arg hmem, ih arg hmem⟩
  | unary h ih => exact reads_unary h ih
  | binary hleft hright ih ih' => exact reads_binary hleft hright ih ih'

/-! ## Whole texts -/

/--
What is written for an expression is answered with this expression, whether or not the grammar
records its rules: parentheses around every operator leave nothing to precedence.
-/
theorem answers_display (traced : Bool) {e : Expr} (h : Readable e) :
    ((grammar traced).observe e.display).map (·.result) = .ok (.ok (.expr e)) := by
  have hread : tree e.display.toList = some (e, []) := by
    have happend := h.reads.tree h (unlike_nil _)
    rwa [List.append_nil] at happend
  rw [(reads_tree traced).observe, Reader.answer, Reader.map, hread]
  rfl

/-- A call with a power, a sign, a list and an escaped quote in it. -/
theorem call_answers_display :
    ((grammar true).observe "max((a ^ (-b)), [\"\\\"\", 7])").map (·.result) = .ok (.ok (.expr
      (.call ['m', 'a', 'x']
        [.binary .pow (.ident ['a']) (.unary .neg (.ident ['b'])),
          .array [.str ['"'], .int 7]]))) := by
  have ha : IsName ['a'] := .mk rfl (by simp)
  have hb : IsName ['b'] := .mk rfl (by simp)
  have hmax : IsName ['m', 'a', 'x'] := .mk rfl (List.all_eq_true.mp (by decide))
  have hpower : Readable (.binary .pow (.ident ['a']) (.unary .neg (.ident ['b']))) :=
    .binary (.ident ha) (.unary (.ident hb))
  have hquote : Readable (.str ['"']) := .str (List.all_eq_true.mp (by decide))
  have hseven : Readable (.int 7) := .int (by decide)
  have hitems : Readable (.array [.str ['"'], .int 7]) :=
    .array (List.forall_mem_cons.mpr ⟨hquote, List.forall_mem_singleton.mpr hseven⟩)
  have hcall := Readable.call hmax
    (List.forall_mem_cons.mpr ⟨hpower, List.forall_mem_singleton.mpr hitems⟩)
  have hdisplay : (Expr.call ['m', 'a', 'x']
      [.binary .pow (.ident ['a']) (.unary .neg (.ident ['b'])),
        .array [.str ['"'], .int 7]]).display = "max((a ^ (-b)), [\"\\\"\", 7])" := by
    decide +kernel
  have hanswer := answers_display true hcall
  rwa [hdisplay] at hanswer

end Packrat.Expression
