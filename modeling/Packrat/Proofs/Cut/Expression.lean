import Packrat.Proofs.Expression.Display
import Packrat.Proofs.Reader.FirmLevels

/-!
# Expressions in front of other texts

The tree of an expression is firm: what is read of a text, is read again when the text is cut
behind it.  A name that is no call because nothing closes its arguments stays a name, and nothing
else that was tried in vain could be taken for an expression that ends there.
-/

namespace Packrat.Expression

open Reader
open Text (byteLength)

/-! ## Tokens -/

theorem nameRun_token : Token isLetter isLetterOrDigit nameRun := by
  intro rest x shorter hread
  cases rest with
  | nil => cases hread
  | cons c rest =>
      obtain ⟨hc, heq⟩ := Option.ite_none_right_eq_some.mp hread
      cases heq
      refine ⟨c, rest.takeWhile isLetterOrDigit, ?_, hc, fun other hother => ?_⟩
      · rw [List.takeWhile_append_dropWhile]
      · rw [nameRun, if_pos hc,
          hother.takeWhile_append (List.all_eq_true.mp List.all_takeWhile),
          hother.dropWhile_append (List.all_eq_true.mp List.all_takeWhile)]

theorem integerRun_token : Token Char.isDigit Char.isDigit integerRun := by
  intro rest x shorter hread
  obtain ⟨hne, hread⟩ := Option.ite_none_left_eq_some.mp hread
  obtain ⟨n, hn, heq⟩ := Option.map_eq_some_iff.mp hread
  cases heq
  obtain ⟨c, cs, hcs, hrest, hdigits⟩ := exists_run hne
  refine ⟨c, cs, hrest, hdigits c (List.mem_cons_self ..), fun other hother => ?_⟩
  rw [← List.cons_append, integerRun, hother.takeWhile_append hdigits,
    hother.dropWhile_append hdigits, if_neg (List.cons_ne_nil _ _), ← hcs, hn]
  rfl

/-- A character of a text does not depend on what follows it. -/
theorem quotedChar_append_of_eq_some {rest shorter : List Char} {c : Char}
    (h : quotedChar rest = some (c, shorter)) :
    ∃ text, text ≠ [] ∧ rest = text ++ shorter ∧
      ∀ other, quotedChar (text ++ other) = some (c, other) := by
  unfold quotedChar at h
  split at h
  · cases h
    exact ⟨['\\', '"'], List.cons_ne_nil _ _, rfl, fun _ => rfl⟩
  · cases h
    exact ⟨['\\', '\\'], List.cons_ne_nil _ _, rfl, fun _ => rfl⟩
  · obtain ⟨hplain, heq⟩ := Option.ite_none_right_eq_some.mp h
    cases heq
    obtain ⟨hquote, hbackslash⟩ := Bool.and_eq_true_iff.mp hplain
    refine ⟨[c], List.cons_ne_nil _ _, rfl, fun other => ?_⟩
    simp [quotedChar, bne_iff_ne.mp hquote, bne_iff_ne.mp hbackslash]
  · cases h

/-- The characters of a text end at the same quote, whatever stands behind it. -/
theorem many_quotedChar_of_eq {rest shorter : List Char} {chars : List Char}
    (h : many quotedChar rest = (chars, '"' :: shorter)) :
    ∃ text, rest = text ++ '"' :: shorter ∧
      ∀ other, many quotedChar (text ++ '"' :: other) = (chars, '"' :: other) := by
  fun_induction many quotedChar rest generalizing chars with
  | case1 rest hnone =>
      cases h
      exact ⟨[], rfl, fun other => many_of_none rfl⟩
  | case2 rest c inner hread hlt ih =>
      obtain ⟨text, hne, rfl, hfirm⟩ := quotedChar_append_of_eq_some hread
      cases hmany : many quotedChar inner with
      | mk chars' last =>
          rw [hmany] at h
          cases h
          obtain ⟨text', rfl, hfirm'⟩ := ih hmany
          refine ⟨text ++ text', (List.append_assoc _ _ _).symm, fun other => ?_⟩
          have hpos : byteLength text ≠ 0 := fun hzero =>
            hne (Text.byteLength_eq_zero_iff.mp hzero)
          rw [List.append_assoc, many_of_some (hfirm _), hfirm']
          · rfl
          · rw [Text.byteLength_append text]
            omega
  | case3 rest c inner hread hlt =>
      obtain ⟨text, hne, rfl, -⟩ := quotedChar_append_of_eq_some hread
      refine absurd ?_ hlt
      have hpos : byteLength text ≠ 0 := fun hzero => hne (Text.byteLength_eq_zero_iff.mp hzero)
      rw [Text.byteLength_append]
      omega

theorem stringRun_token : Token (· == '"') (fun _ => false) stringRun := by
  intro rest x shorter hread
  unfold stringRun at hread
  split at hread
  · next rest =>
      split at hread
      · next chars behind hmany =>
          cases hread
          obtain ⟨text, rfl, hfirm⟩ := many_quotedChar_of_eq hmany
          refine ⟨'"', text ++ ['"'], by simp, rfl, fun other _ => ?_⟩
          simp [stringRun, hfirm other]
      · cases hread
  · cases hread

/-! ## Operands -/

theorem isLetterOrDigit_of_isBlank (c : Char) (h : Text.isBlank c = true) :
    isLetterOrDigit c = false := by
  refine Bool.eq_false_iff.mpr fun hc => ?_
  have hvisible : Text.isBlank c = false := by
    rcases Bool.or_eq_true_iff.mp hc with hletter | hdigit
    · have hrange := isLetter_range hletter
      exact isBlank_eq_false (by omega) (by omega)
    · have hrange := isDigit_iff_toNat.mp hdigit
      exact isBlank_eq_false (by omega) (by omega)
  rw [h] at hvisible
  cases hvisible

theorem isDigit_of_isBlank (c : Char) (h : Text.isBlank c = true) : c.isDigit = false := by
  have hfalse := isLetterOrDigit_of_isBlank c h
  exact (Bool.or_eq_false_iff.mp hfalse).2

/-- What goes on with an operand, or with operands that some operators are between. -/
def goesOn (operators : List Char) (c : Char) : Bool :=
  isLetterOrDigit c || c == '(' || operators.any (c == ·)

theorem goesOn_append (operators operators' : List Char) (c : Char)
    (h : (goesOn operators c || operators'.any (c == ·)) = true) :
    goesOn (operators ++ operators') c = true := by
  simpa [goesOn, or_assoc] using h

/-- What an expression begins with. -/
def beginsSigned (c : Char) : Bool := c == '!' || c == '-' || begins c

section Items

variable {expression : Reader Expr} {limit : Nat} {goes : Char → Bool}

/-- Expressions with commas between them, perhaps none, up to what goes on with neither. -/
theorem firmAt_itemsOf (h : Firm limit goes expression) (hheads : Heads beginsSigned expression)
    (hcomma : goes ',' = false) {rest : List Char} (hrest : byteLength rest < limit)
    (hblank : Unlike Text.isBlank rest) :
    FirmAt (fun c => goes c || c == ',' || beginsSigned c) (itemsOf expression) rest := by
  intro xs shorter hread
  rw [itemsOf] at hread
  split at hread
  · next hnone =>
      cases hread
      refine ⟨[], rfl, hblank, fun other hother hstop => ?_⟩
      have hnone' : expression other = none :=
        hheads.eq_none hother (hstop.mono fun c hc => by rw [hc, Bool.or_true])
      rw [List.nil_append, itemsOf, hnone']
  · next first inner hfirst =>
      obtain ⟨text, rfl, hinner, hfirm⟩ := h rest hrest _ _ hfirst
      rw [Text.byteLength_append] at hrest
      have hmore : Firm limit goes fun rest => (behind "," rest).bind expression :=
        (firm_behind (show "," ≠ "" by decide) fun rest hrest _ => h rest hrest).wider
          (Nat.le_succ limit)
      have hapart : ∀ c, (c == ',') = true → goes c = false := by
        intro c hc
        rwa [eq_of_beq hc]
      have hinside : byteLength inner < limit := by omega
      obtain ⟨text', htext', hend, hbegins, hmany⟩ := firmAt_many hmore
        (heads_behind (show "," ≠ "" by decide) expression) hapart hinside hinner
      cases hread
      refine ⟨text ++ text', by rw [List.append_assoc, id, ← htext'], hend,
        fun other hother hstop => ?_⟩
      have hstop' : Unlike (fun c => goes c || c == ',') other :=
        hstop.mono fun c hc => by rw [hc, Bool.true_or]
      have hunlike : Unlike Text.isBlank (text' ++ other) := by
        rw [htext'] at hinner
        exact unlike_append hinner hother
      have hgoes : Unlike goes (text' ++ other) :=
        unlike_behind hbegins hunlike hapart (hstop'.mono fun c hc => by rw [hc, Bool.true_or])
      rw [List.append_assoc, itemsOf, hfirm _ hunlike hgoes]
      dsimp only
      rw [hmany other hother hstop']
      rfl

/-- A list in brackets reads to its closing one. -/
theorem firm_list (h : Firm limit goes expression) (hheads : Heads beginsSigned expression)
    (hcomma : goes ',' = false) {opening closing : String} (hopening : opening ≠ "")
    (hclosing : closing ≠ "") (hgoes : goes (front closing) = false)
    (hfront : (front closing == ',') = false) (hbegins : beginsSigned (front closing) = false) :
    Firm (limit + 1) (fun _ => false) (between opening closing (itemsOf expression)) := by
  refine firm_between hopening hclosing
    (fun rest hrest hblank => firmAt_itemsOf h hheads hcomma hrest hblank) ?_
  rw [hgoes, hfront, hbegins]
  rfl

end Items

/-! ### Kinds of operands -/

/-- What stands above the operators apart from calls, with what it begins with. -/
def operands (expression : Reader Expr) : List ((Char → Bool) × Reader Expr) :=
  [ ((· == '['), .map .array (.between "[" "]" (itemsOf expression))),
    ((· == '('), .between "(" ")" expression),
    (Char.isDigit, .map .int (.padded integerRun)),
    ((· == '"'), .map .str (.padded stringRun)),
    (isLetter, .map .ident (.padded nameRun)) ]

section Operands

variable {expression : Reader Expr} {limit : Nat} {goes : Char → Bool}
  {rest inner other : List Char}

theorem atomOf_eq (expression : Reader Expr) :
    atomOf expression = fun rest =>
      (callOf expression rest).or (first ((operands expression).map Prod.snd) rest) :=
  rfl

theorem heads_operands (expression : Reader Expr) :
    ∀ item ∈ operands expression, Heads item.1 item.2 := by
  have hlist : Heads (· == '[') (between "[" "]" (itemsOf expression)) :=
    heads_between (show "[" ≠ "" by decide)
  refine List.forall_mem_cons.mpr ⟨hlist.map _, ?_⟩
  refine List.forall_mem_cons.mpr ⟨heads_between (show "(" ≠ "" by decide), ?_⟩
  refine List.forall_mem_cons.mpr ⟨integerRun_token.heads_padded.map _, ?_⟩
  refine List.forall_mem_cons.mpr ⟨stringRun_token.heads_padded.map _, ?_⟩
  exact List.forall_mem_singleton.mpr (nameRun_token.heads_padded.map _)

/-- Different kinds of operands begin differently. -/
theorem operands_apart (expression : Reader Expr) :
    (operands expression).Pairwise fun item other =>
      ∀ c, item.1 c = true → other.1 c = false := by
  have hdigit : ∀ c : Char, c.isDigit = true → (c == '"') = false ∧ isLetter c = false := by
    intro c hc
    have hrange := isDigit_iff_toNat.mp hc
    refine ⟨beq_eq_false_iff_ne.mpr fun heq => ?_, Bool.eq_false_iff.mpr fun hletter => ?_⟩
    · rw [heq] at hc
      cases hc
    · have hletter := isLetter_range hletter
      omega
  simp only [operands, List.pairwise_cons, List.mem_cons, List.not_mem_nil, or_false,
    forall_eq_or_imp, forall_eq, List.Pairwise.nil, and_true, beq_iff_eq]
  exact ⟨⟨rfl, rfl, rfl, rfl⟩, ⟨rfl, rfl, rfl⟩,
    ⟨fun c hc => (hdigit c hc).1, fun c hc => (hdigit c hc).2⟩, rfl, fun _ hfalse => hfalse.elim⟩

theorem heads_name (expression : Reader Expr) : Heads isLetter (callOf expression) :=
  nameRun_token.heads_padded.bind _

theorem heads_atomOf (expression : Reader Expr) : Heads begins (atomOf expression) := by
  rw [atomOf_eq]
  refine ((heads_name expression).or (heads_first (heads_operands expression))).mono fun c hc => ?_
  simp only [operands, List.any_cons, List.any_nil, Bool.or_false, Bool.or_eq_true,
    beq_iff_eq] at hc
  rw [begins_iff]
  tauto

/-- Where a name is in front, it is what the kinds of operands apart from calls read. -/
theorem first_operands_of_name {name : List Char}
    (hread : padded nameRun rest = some (name, inner)) :
    first ((operands expression).map Prod.snd) rest = some (.ident name, inner) := by
  have hname : Reader.map Expr.ident (padded nameRun) rest = some (.ident name, inner) := by
    rw [Reader.map, hread]
    rfl
  have hmem : (isLetter, Reader.map Expr.ident (padded nameRun)) ∈ operands expression := by
    simp [operands]
  exact first_of_mem (heads_operands expression) (operands_apart expression) hmem hname

theorem firm_operands (h : Firm limit goes expression) (hheads : Heads beginsSigned expression)
    (hcomma : goes ',' = false) (hbracket : goes ']' = false) (hparenthesis : goes ')' = false) :
    Firm (limit + 1) isLetterOrDigit (first ((operands expression).map Prod.snd)) := by
  refine firm_first ?_ (heads_operands expression) (operands_apart expression)
  have hdigit : ∀ c : Char, c.isDigit = true → isLetterOrDigit c = true := by
    intro c hc
    rw [isLetterOrDigit, hc, Bool.or_true]
  have hlist : Firm (limit + 1) isLetterOrDigit (between "[" "]" (itemsOf expression)) :=
    (firm_list h hheads hcomma (show "[" ≠ "" by decide) (show "]" ≠ "" by decide) hbracket
      (by decide) (by decide)).mono fun _ hc => absurd hc Bool.false_ne_true
  have hgroup : Firm (limit + 1) isLetterOrDigit (between "(" ")" expression) :=
    (firm_between (show "(" ≠ "" by decide) (show ")" ≠ "" by decide)
      (fun rest hrest _ => h rest hrest) hparenthesis).mono fun _ hc => absurd hc Bool.false_ne_true
  have hinteger : Firm (limit + 1) isLetterOrDigit (padded integerRun) :=
    (integerRun_token.firm_padded isDigit_of_isBlank).mono hdigit
  have hstring : Firm (limit + 1) isLetterOrDigit (padded stringRun) :=
    (stringRun_token.firm_padded fun _ _ => rfl).mono fun _ hc => absurd hc Bool.false_ne_true
  have hname : Firm (limit + 1) isLetterOrDigit (padded nameRun) :=
    nameRun_token.firm_padded isLetterOrDigit_of_isBlank
  refine List.forall_mem_cons.mpr ⟨hlist.map _, ?_⟩
  refine List.forall_mem_cons.mpr ⟨hgroup, ?_⟩
  refine List.forall_mem_cons.mpr ⟨hinteger.map _, ?_⟩
  refine List.forall_mem_cons.mpr ⟨hstring.map _, ?_⟩
  exact List.forall_mem_singleton.mpr (hname.map _)

/-- A call ends with its bracket. -/
theorem firm_callOf (h : Firm limit goes expression) (hheads : Heads beginsSigned expression)
    (hcomma : goes ',' = false) (hparenthesis : goes ')' = false) :
    Firm (limit + 1) (fun _ => false) (callOf expression) := by
  have hname : Firm (limit + 1) isLetterOrDigit (padded nameRun) :=
    nameRun_token.firm_padded isLetterOrDigit_of_isBlank
  have hlist : Firm (limit + 1) (fun _ => false) (between "(" ")" (itemsOf expression)) :=
    firm_list h hheads hcomma (show "(" ≠ "" by decide) (show ")" ≠ "" by decide) hparenthesis
      (by decide) (by decide)
  have hopens : ∀ name : List Char, Heads (· == '(')
      (Reader.map (Expr.call name) (between "(" ")" (itemsOf expression))) :=
    fun name => Heads.map (heads_between (show "(" ≠ "" by decide)) _
  refine hname.bind (fun name rest hrest _ => (hlist rest hrest).map (Expr.call name)) hopens ?_
  intro c hc
  rw [eq_of_beq hc]
  rfl

/--
An operand is firm in front of whatever goes on neither with a name nor with a call.  A name may be
read because it is no call; it is none either in front of other texts that no bracket begins.
-/
theorem firm_atomOf (h : Firm limit goes expression) (hheads : Heads beginsSigned expression)
    (hcomma : goes ',' = false) (hbracket : goes ']' = false) (hparenthesis : goes ')' = false) :
    Firm (limit + 1) (goesOn []) (atomOf expression) := by
  have hcall := firm_callOf h hheads hcomma hparenthesis
  have hoperands := firm_operands h hheads hcomma hbracket hparenthesis
  rw [atomOf_eq]
  intro rest hrest x shorter hread
  rcases Option.or_eq_some_iff.mp hread with hread | ⟨-, hread⟩
  · obtain ⟨text, htext, hblank, hfirm⟩ := hcall rest hrest x shorter hread
    refine ⟨text, htext, hblank, fun other hother _ => ?_⟩
    beta_reduce
    rw [hfirm other hother fun _ _ => rfl, Option.some_or]
  · obtain ⟨text, htext, hblank, hfirm⟩ := hoperands rest hrest x shorter hread
    refine ⟨text, htext, hblank, fun other hother hstop => ?_⟩
    have hread' := hfirm other hother (hstop.mono fun c hc => by rw [goesOn, hc, Bool.true_or]; rfl)
    have hnone : callOf expression (text ++ other) = none := by
      rw [callOf]
      cases hname : padded nameRun (text ++ other) with
      | none => rfl
      | some found =>
          obtain ⟨name, inner⟩ := found
          rw [first_operands_of_name hname] at hread'
          cases hread'
          have hopen : between "(" ")" (itemsOf expression) other = none :=
            (heads_between (show "(" ≠ "" by decide)).eq_none hother
              (hstop.mono fun c hc => by rw [eq_of_beq hc]; rfl)
          rw [Option.bind_some]
          dsimp only
          rw [hopen]
          rfl
    beta_reduce
    rw [hnone, Option.none_or, hread']

end Operands

/-! ## Levels -/

/-- All operators go on with an expression. -/
def operatorHeads : List Char := ['^', '*', '/', '%', '+', '-', '=', '!', '&', '|']

section Levels

variable {expression : Reader Expr} {limit : Nat}

theorem heads_orOf (h : Shrinks expression) : Heads beginsSigned (orOf expression) := by
  have hfronts : ∀ c, signFronts [UnaryOp.not.reader, UnaryOp.neg.reader] c =
      (c == '!' || (c == '-' || false)) := fun _ => rfl
  have hsigned : Heads beginsSigned (signedOf (atomOf expression)) :=
    (heads_prefixed (heads_rightAssociative (atomOf_shrinks h) (heads_atomOf expression))).mono
      fun c hc => by simpa [beginsSigned, hfronts, or_assoc] using hc
  exact hsigned.map _ |>.map _ |>.map _ |>.map _ |>.map _

/-- An expression is firm if the expressions in its brackets are, each level on top of the next. -/
theorem firm_orOf (hshrinks : Shrinks expression) (hheads : Heads beginsSigned expression)
    (h : Firm limit (goesOn operatorHeads) expression) :
    Firm (limit + 1) (goesOn operatorHeads) (orOf expression) := by
  have hatom : Firm (limit + 1) (goesOn []) (atomOf expression) :=
    firm_atomOf h hheads (by decide) (by decide) (by decide)
  have hatomHeads := heads_atomOf expression
  have hatomShrinks := atomOf_shrinks hshrinks
  have hfront : BinaryOp.pow.reader.front = '^' := rfl
  have hpower : Firm (limit + 1) (goesOn ['^'])
      (rightAssociative BinaryOp.pow.reader [] (atomOf expression)) :=
    firm_rightAssociative hatomShrinks hatom hatomHeads (by decide) (by decide) (by decide)
      fun c hc => by simpa [goesOn, hfront] using hc
  have hsigned : Firm (limit + 1) (goesOn ['^']) (signedOf (atomOf expression)) :=
    firm_prefixed hpower (heads_rightAssociative hatomShrinks hatomHeads) (by decide) (by decide)
  have hproduct : Firm (limit + 1) (goesOn ['^', '*', '/', '%'])
      (chainOf [.mul, .div, .rem] (signedOf (atomOf expression))) :=
    firm_leftAssociative hsigned (by decide) (by decide) (goesOn_append ['^'] ['*', '/', '%'])
  have hsum : Firm (limit + 1) (goesOn ['^', '*', '/', '%', '+', '-']) (chainOf [.add, .sub] _) :=
    firm_leftAssociative hproduct (by decide) (by decide)
      (goesOn_append ['^', '*', '/', '%'] ['+', '-'])
  have hequation : Firm (limit + 1) (goesOn ['^', '*', '/', '%', '+', '-', '=', '!'])
      (chainOf [.eq, .notEq] _) :=
    firm_leftAssociative hsum (by decide) (by decide)
      (goesOn_append ['^', '*', '/', '%', '+', '-'] ['=', '!'])
  have hboth : Firm (limit + 1) (goesOn ['^', '*', '/', '%', '+', '-', '=', '!', '&'])
      (chainOf [.and] _) :=
    firm_leftAssociative hequation (by decide) (by decide)
      (goesOn_append ['^', '*', '/', '%', '+', '-', '=', '!'] ['&'])
  exact firm_leftAssociative hboth (by decide) (by decide)
    (goesOn_append ['^', '*', '/', '%', '+', '-', '=', '!', '&'] ['|'])

end Levels

/-- An expression that a text begins with is read in the same way when the text ends behind it. -/
theorem tree_honest : Honest tree := by
  have hheads : Heads beginsSigned tree := by
    rw [tree_eq]
    exact heads_orOf tree_shrinks
  have hfirm : ∀ limit, Firm limit (goesOn operatorHeads) tree := by
    intro limit
    induction limit with
    | zero => exact firm_zero _ _
    | succ limit ih =>
        rw [tree_eq]
        exact firm_orOf tree_shrinks hheads ih
  exact honest_of_firm hfirm

end Packrat.Expression
