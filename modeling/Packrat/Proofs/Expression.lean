import Packrat.Expression.Grammar
import Packrat.Proofs.Ladder.Descent
import Packrat.Proofs.Ladder.Primaries
import Packrat.Proofs.Reader.Transfer

/-!
# The expression language by recursive descent

`tree` is the textbook parser of the expression language: one level below the other, from `||` down
to calls, arrays, groups and tokens.  The grammar of the language answers every text as it does.
-/

namespace Packrat.Expression

open Packrat.Parser
open Text (byteLength)

/-! ## Tokens by recursive descent -/

/-- A letter or underscore, followed by letters, underscores and digits. -/
def nameRun : Reader (List Char)
  | [] => none
  | c :: rest =>
      if isLetter c then
        some (c :: rest.takeWhile isLetterOrDigit, rest.dropWhile isLetterOrDigit)
      else none

/-- Digits, at least one, that denote a number of at most 63 bits. -/
def integerRun : Reader Int64 := fun rest =>
  if rest.takeWhile Char.isDigit = [] then none
  else (int64OfDigits? (rest.takeWhile Char.isDigit)).map (·, rest.dropWhile Char.isDigit)

/-- A character of a text; a quote or backslash behind a backslash stands for itself. -/
def quotedChar : Reader Char
  | '\\' :: '"' :: rest => some ('"', rest)
  | '\\' :: '\\' :: rest => some ('\\', rest)
  | c :: rest => if c != '"' && c != '\\' then some (c, rest) else none
  | [] => none

/-- A text in double quotes. -/
def stringRun : Reader (List Char)
  | '"' :: rest =>
      match Reader.many quotedChar rest with
      | (chars, '"' :: rest) => some (chars, rest)
      | _ => none
  | _ => none

/-! ## Expressions by recursive descent -/

/-- Any number of expressions with commas between them. -/
def itemsOf (expression : Reader Expr) : Reader (List Expr) := fun rest =>
  match expression rest with
  | none => some ([], rest)
  | some (first, rest) =>
      some (Prod.map (first :: ·) id
        (Reader.many (fun rest => (Reader.behind "," rest).bind expression) rest))

/-- A name with arguments. -/
def callOf (expression : Reader Expr) : Reader Expr := fun rest =>
  (Reader.padded nameRun rest).bind fun (name, rest) =>
    (Reader.between "(" ")" (itemsOf expression) rest).map (Prod.map (.call name) id)

/-- What stands above the operators, given what the expressions in it are. -/
def atomOf (expression : Reader Expr) : Reader Expr :=
  .first
    [ callOf expression,
      .map .array (.between "[" "]" (itemsOf expression)),
      .between "(" ")" expression,
      .map .int (.padded integerRun),
      .map .str (.padded stringRun),
      .map .ident (.padded nameRun) ]

theorem BinaryOp.symbol_ne (op : BinaryOp) : op.symbol ≠ "" := by
  cases op <;> decide

theorem UnaryOp.symbol_ne (op : UnaryOp) : op.symbol ≠ "" := by
  cases op <;> decide

/-- The operator between two trees. -/
def BinaryOp.reader (op : BinaryOp) : Reader.Binary Expr :=
  ⟨op.symbol, .binary op, op.symbol_ne⟩

/-- The operator in front of a tree. -/
def UnaryOp.reader (op : UnaryOp) : Reader.Unary Expr := ⟨op.symbol, .unary op, op.symbol_ne⟩

/-- Operands with operators between them, from the left. -/
def chainOf (ops : List BinaryOp) (operand : Reader Expr) : Reader Expr :=
  .leftAssociative (ops.map BinaryOp.reader) operand

/-- An expression, given what the expressions in its calls, arrays and groups are. -/
def orOf (expression : Reader Expr) : Reader Expr :=
  chainOf [.or] <| chainOf [.and] <| chainOf [.eq, .notEq] <| chainOf [.add, .sub] <|
    chainOf [.mul, .div, .rem] <|
      .prefixed [UnaryOp.not.reader, UnaryOp.neg.reader] <|
        .rightAssociative BinaryOp.pow.reader [] <|
          atomOf expression

/-- The tree of an expression. -/
def tree : Reader Expr := .recursive orOf

/-! ## The grammar as a ladder -/

/-- A binary operator, with the numbers of its guard and its rule. -/
def operator (guard memo : Nat) (op : BinaryOp) : Infix Payload where
  text := op.symbol
  payload := .text op.symbol.toList
  combine := combine op
  nonempty := op.symbol_ne
  guard := guard
  memo := memo
  name := op.symbol

/-- A unary operator, with the number of its rule. -/
def sign (memo : Nat) (op : UnaryOp) : Prefix Payload where
  text := op.symbol
  payload := .text op.symbol.toList
  combine payloads := .expr (.unary op (payloads.getD 1 filler).toExpr)
  nonempty := op.symbol_ne
  memo := memo
  name := "unary " ++ op.symbol

/-- What a list of expressions in brackets is read as. -/
def listReading (opening closing : String) (expression : Reader Payload) : Reader Payload :=
  .between opening closing
    (Ladder.joinedReading .pack Payload.unpack expression (symbol ",").read)

def callRule : Primary Payload where
  memo := 12
  name := "call"
  parser := call
  reading expression :=
    .map (fun payloads =>
        .expr (.call (payloads.getD 0 filler).toChars (payloads.getD 1 filler).toExprs)) <|
      .all [(padded filler identifier).read, listReading "(" ")" expression]

def arrayRule : Primary Payload where
  memo := 13
  name := "array"
  parser := array
  reading expression :=
    .map (fun payload => .expr (.array payload.toExprs)) (listReading "[" "]" expression)

def stringParser : Parser Payload :=
  (padded filler string).map fun payload => .expr (.str payload.toChars)

def identifierParser : Parser Payload :=
  (padded filler identifier).map fun payload => .expr (.ident payload.toChars)

def ladder (traced : Bool) : Ladder Payload where
  node := 0
  cached := true
  traced := traced
  filler := filler
  levels :=
    [ .left false [operator 0 0 .or],
      .left false [operator 1 1 .and],
      .left false [operator 2 2 .eq, operator 3 3 .notEq],
      .left false [operator 4 4 .add, operator 5 5 .sub],
      .left false [operator 6 6 .mul, operator 7 7 .div, operator 8 8 .rem],
      .prefixed false [sign 9 .not, sign 10 .neg],
      .right (operator 9 11 .pow) [] ]
  primaries :=
    [ callRule,
      arrayRule,
      .group filler 14 "group" "(" ")" (.text ['(']) (.text [')']),
      .atom 15 "integer" (padded filler integer),
      .atom 16 "string" stringParser,
      .atom 17 "identifier" identifierParser ]
  around := [10, 11, 12, 13]
  guards_nodup := by decide
  memos_nodup := by decide

theorem ladder_grammar (traced : Bool) : (ladder traced).grammar = grammar traced := by
  cases traced <;> rfl

/-! ## Tokens -/

theorem concat_map_text (chars : List Char) :
    Payload.concat (chars.map fun c => .text [c]) = .text chars := by
  induction chars with
  | nil => rfl
  | cons c chars ih =>
      simp only [Payload.concat, Payload.text.injEq] at ih
      simp [Payload.concat, Payload.toChars, ih]

theorem read_charIn_cons {accepts : Char → Bool} {c : Char} {rest : List Char} :
    (charIn accepts).read (c :: rest) = if accepts c then some (.text [c], rest) else none :=
  read_satisfy

theorem read_identifier : identifier.read = Reader.map .text nameRun := by
  funext rest
  simp only [identifier, read_sequence, List.map_cons, List.map_nil, Reader.map, Reader.all]
  cases rest with
  | nil => rfl
  | cons c rest =>
      rw [read_charIn_cons, nameRun]
      split
      · rw [Option.bind_some, charIn, read_many_satisfy, concat_map_text]
        simp [Payload.concat, Payload.toChars]
      · rfl

theorem read_integer : integer.read = Reader.map (fun n => .expr (.int n)) integerRun := by
  funext rest
  rw [integer, read_convert, charIn, read_many1_satisfy, concat_map_text, Reader.map, integerRun]
  split
  · rfl
  · rw [Option.bind_some]
    cases h : int64OfDigits? (rest.takeWhile Char.isDigit) <;> simp [Payload.toChars, h]

theorem read_quotedChar :
    (Parser.firstOf
      [ .sequence [charIn (· == '\\'), .firstOf [charIn (· == '"'), charIn (· == '\\')]]
          fun payloads => payloads.getD 1 filler,
        charIn fun c => c != '"' && c != '\\' ]).read =
      Reader.map (fun c => .text [c]) quotedChar := by
  funext rest
  simp only [read_firstOf, read_sequence, List.map_cons, List.map_nil, Reader.first, Reader.map,
    Reader.all]
  cases rest with
  | nil => rfl
  | cons c rest =>
      by_cases hescape : c = '\\'
      · subst hescape
        cases rest with
        | nil => rfl
        | cons d rest =>
            by_cases hquote : d = '"'
            · subst hquote
              rfl
            · by_cases hbackslash : d = '\\'
              · subst hbackslash
                rfl
              · simp [read_charIn_cons, hquote, hbackslash, quotedChar]
      · by_cases hquote : c = '"'
        · subst hquote
          simp [read_charIn_cons, quotedChar]
        · simp [read_charIn_cons, hescape, hquote, quotedChar]

theorem read_string : string.read = Reader.map .text stringRun := by
  funext rest
  simp only [string, read_sequence, List.map_cons, List.map_nil, Reader.map, Reader.all]
  cases rest with
  | nil => rfl
  | cons c rest =>
      rw [read_charIn_cons]
      by_cases hquote : c = '"'
      · subst hquote
        rw [if_pos (by decide), Option.bind_some, read_many, read_quotedChar, Reader.many_map,
          stringRun]
        obtain ⟨chars, behind⟩ := Reader.many quotedChar rest
        cases behind with
        | nil => rfl
        | cons d behind =>
            by_cases hend : d = '"'
            · subst hend
              simp [read_charIn_cons, concat_map_text]
            · simp [read_charIn_cons, hend]
      · simp [hquote, stringRun]

/-! ## Rules above the operators -/

theorem nameRun_lt {name rest shorter : List Char} (hread : nameRun rest = some (name, shorter)) :
    byteLength shorter < byteLength rest := by
  cases rest with
  | nil => cases hread
  | cons c rest =>
      rw [nameRun, Option.ite_none_right_eq_some] at hread
      cases hread.2
      have hle := Reader.byteLength_dropWhile_le isLetterOrDigit rest
      have hpos := c.utf8Size_pos
      rw [Text.byteLength_cons]
      omega

theorem read_name_lt {rest shorter : List Char} {x : Payload}
    (hread : (padded filler identifier).read rest = some (x, shorter)) :
    byteLength shorter < byteLength rest := by
  rw [read_padded, read_identifier] at hread
  refine Reader.padded_lt (fun rest x shorter hname => ?_) hread
  obtain ⟨⟨name, behind⟩, hrun, heq⟩ := Option.map_eq_some_iff.mp hname
  cases heq
  exact nameRun_lt hrun

section Lists

variable {expression expression' : Reader Payload} {opening closing : String}

theorem listReading_shrinks (hopening : opening ≠ "") (h : Reader.Shrinks expression) :
    Reader.Shrinks (listReading opening closing expression) := fun _ _ _ hread =>
  Nat.le_of_lt (Reader.between_lt hopening
    (Ladder.joinedReading_shrinks (Parser.read_shrinks _) h) hread)

theorem listReading_congr {rest : List Char} (hopening : opening ≠ "")
    (hshrinks : Reader.Shrinks expression)
    (h : Reader.Agree (byteLength rest) expression expression') :
    listReading opening closing expression rest = listReading opening closing expression' rest :=
  Reader.between_congr hopening
    (Ladder.joinedReading_agree (Parser.read_shrinks _) hshrinks h)

end Lists

theorem callRule_proper : callRule.Proper where
  shrinks expression h := by
    refine Reader.map_shrinks (Reader.all_shrinks (List.forall_mem_cons.mpr ⟨read_shrinks _, ?_⟩))
    exact List.forall_mem_singleton.mpr (listReading_shrinks (by decide) h)
  ahead rest expression expression' hshrinks h := by
    refine congrArg (Option.map _) (Reader.all_cons_congr (fun _ _ => read_name_lt) ?_)
    refine Reader.all_agree ?_ (.cons (fun shorter hshorter => ?_) .nil)
    · exact List.forall_mem_singleton.mpr (listReading_shrinks (by decide) hshrinks)
    · exact listReading_congr (by decide) hshrinks (h.mono (Nat.le_of_lt hshorter))

theorem arrayRule_proper : arrayRule.Proper where
  shrinks _ h := Reader.map_shrinks (listReading_shrinks (by decide) h)
  ahead _ _ _ hshrinks h :=
    congrArg (Option.map _) (listReading_congr (by decide) hshrinks h)

theorem proper (traced : Bool) : ∀ primary ∈ (ladder traced).primaries, primary.Proper := by
  refine List.forall_mem_cons.mpr ⟨callRule_proper, ?_⟩
  refine List.forall_mem_cons.mpr ⟨arrayRule_proper, ?_⟩
  refine List.forall_mem_cons.mpr ⟨Primary.group_proper (by decide), ?_⟩
  refine List.forall_mem_cons.mpr ⟨Primary.atom_proper _ _ _, ?_⟩
  refine List.forall_mem_cons.mpr ⟨Primary.atom_proper _ _ _, ?_⟩
  refine List.forall_mem_cons.mpr ⟨Primary.atom_proper _ _ _, ?_⟩
  exact fun _ hmem => nomatch hmem

section Runs

variable {traced : Bool}

/-- The parts of a list of expressions behind its opening bracket. -/
theorem inside_list {source : Source} {i bytes tailId itemsId : Nat} {closing : String}
    {expression : Reader Payload} (htail : tailId ∈ (ladder traced).around)
    (hitems : itemsId ∈ (ladder traced).around) (hshrinks : Reader.Shrinks expression)
    (hcall : (ladder traced).Inside source i bytes 1 (.call 0) expression) :
    List.Forall₂ ((ladder traced).Inside source i bytes 0)
      [.joined tailId itemsId .pack Payload.unpack Expression.expression (symbol ","),
        symbol closing]
      [Ladder.joinedReading .pack Payload.unpack expression (symbol ",").read,
        (symbol closing).read] :=
  .cons (Ladder.inside_joined htail hitems (.token _ _ _) hshrinks hcall)
    (.cons (Ladder.inside_atomic (.token _ _ _)) .nil)

theorem leads_list {tailId itemsId : Nat} {opening closing : String} (hopening : opening ≠ "")
    (htail : tailId ∈ (ladder traced).around) (hitems : itemsId ∈ (ladder traced).around) :
    (ladder traced).Leads (list tailId itemsId opening closing)
      (listReading opening closing (ladder traced).expression) := by
  have hshrinks := Ladder.expression_shrinks (proper traced)
  rw [listReading, Primary.between_eq_all filler (.text opening.toList) (.text closing.toList)]
  refine Ladder.leads_sequence (.token _ _ _) (fun _ _ _ => Primary.token_lt hopening)
    (inside_list htail hitems hshrinks) ?_
  exact List.forall_mem_cons.mpr ⟨Ladder.joinedReading_shrinks (read_shrinks _) hshrinks,
    List.forall_mem_singleton.mpr (read_shrinks _)⟩

/-- The arguments of a call stand behind its name. -/
theorem leads_call :
    (ladder traced).Leads
      (.sequence [padded filler identifier, list 10 11 "(" ")"] fun payloads =>
        .expr (.call (payloads.getD 0 filler).toChars (payloads.getD 1 filler).toExprs))
      (callRule.reading (ladder traced).expression) := by
  have hshrinks := Ladder.expression_shrinks (proper traced)
  refine Ladder.leads_sequence (.of_bare rfl rfl rfl) (fun _ _ _ => read_name_lt)
    (fun hcall => .cons ?_ .nil) ?_
  · rw [listReading, Primary.between_eq_all filler (.text ['(']) (.text [')'])]
    refine Ladder.inside_sequence (.cons (Ladder.inside_atomic (.token _ _ _))
      (inside_list (by simp [ladder]) (by simp [ladder]) hshrinks hcall)) ?_
    refine List.forall_mem_cons.mpr ⟨read_shrinks _, List.forall_mem_cons.mpr ⟨?_, ?_⟩⟩
    · exact Ladder.joinedReading_shrinks (read_shrinks _) hshrinks
    · exact List.forall_mem_singleton.mpr (read_shrinks _)
  · exact List.forall_mem_singleton.mpr (listReading_shrinks (by decide) hshrinks)

theorem runs (traced : Bool) :
    ∀ primary ∈ (ladder traced).primaries, primary.Runs (ladder traced) := by
  have hshrinks := Ladder.expression_shrinks (proper traced)
  refine List.forall_mem_cons.mpr ⟨Ladder.runs_nested rfl leads_call rfl, ?_⟩
  refine List.forall_mem_cons.mpr ⟨Ladder.runs_nested rfl (Ladder.leads_map
    (leads_list (by decide) (by simp [ladder]) (by simp [ladder]))) rfl, ?_⟩
  refine List.forall_mem_cons.mpr ⟨Primary.group_runs (by decide) hshrinks, ?_⟩
  refine List.forall_mem_cons.mpr ⟨Primary.atom_runs (.of_bare rfl rfl rfl), ?_⟩
  refine List.forall_mem_cons.mpr ⟨Primary.atom_runs (.of_bare rfl rfl rfl), ?_⟩
  refine List.forall_mem_cons.mpr ⟨Primary.atom_runs (.of_bare rfl rfl rfl), ?_⟩
  exact fun _ hmem => nomatch hmem

/-- No operator of a level is a beginning of another one. -/
theorem apart (traced : Bool) : ∀ level ∈ (ladder traced).levels, level.Apart := by
  simp [ladder, Level.Apart, Reader.Apart, operator, Infix.binary, BinaryOp.symbol]

end Runs

/-! ## Trees as payloads -/

section Trees

variable {expression : Reader Expr}

theorem tailReading_map :
    Ladder.tailReading .pack (symbol ",").read (Reader.map .expr expression) =
      Reader.map .expr fun rest => (Reader.behind "," rest).bind expression := by
  funext rest
  simp only [Ladder.tailReading, Reader.map, Reader.all, symbol, read_token, Option.map_bind]
  cases Reader.behind "," rest with
  | none => rfl
  | some shorter =>
      simp only [Option.map_some, Option.bind_some, Function.comp_apply]
      cases expression shorter <;> rfl

/-- Lists of payloads are read as lists of trees are. -/
theorem joinedReading_map :
    Ladder.joinedReading .pack Payload.unpack (Reader.map .expr expression) (symbol ",").read =
      Reader.map .exprs (itemsOf expression) := by
  have hitems (items : List Expr) : (items.map Payload.expr).map Payload.toExpr = items := by
    rw [List.map_map]
    exact List.map_id items
  funext rest
  rw [Ladder.joinedReading, tailReading_map]
  simp only [Reader.optional, Reader.map, Reader.all, itemsOf]
  cases expression rest with
  | none => rfl
  | some found =>
      simp [Reader.many_map, Payload.pack, Payload.unpack, Payload.toExprs, Payload.toExpr, hitems]
      rfl

theorem listReading_map (opening closing : String) :
    listReading opening closing (Reader.map .expr expression) =
      Reader.map .exprs (.between opening closing (itemsOf expression)) := by
  rw [listReading, joinedReading_map, Reader.between_map]

theorem callRule_map :
    callRule.reading (Reader.map .expr expression) = Reader.map .expr (callOf expression) := by
  funext rest
  simp only [callRule, listReading_map, read_padded, read_identifier, Reader.padded_map]
  simp only [Reader.map, Reader.all, callOf]
  cases Reader.padded nameRun rest with
  | none => rfl
  | some found =>
      obtain ⟨name, behind⟩ := found
      simp only [Option.map_some, Option.bind_some, Prod.map_apply, id_eq]
      cases Reader.between "(" ")" (itemsOf expression) behind <;> rfl

/-- Above the operators, the ladder reads what recursive descent reads. -/
theorem bare_eq (traced : Bool) :
    Ladder.bare (ladder traced).primaries (Reader.map .expr expression) =
      Reader.map .expr (atomOf expression) := by
  have harray : arrayRule.reading (Reader.map .expr expression) =
      Reader.map .expr (.map .array (.between "[" "]" (itemsOf expression))) := by
    simp only [arrayRule, listReading_map, Reader.map_map]
    rfl
  have hinteger : (padded filler integer).read =
      Reader.map .expr (.map .int (.padded integerRun)) := by
    rw [read_padded, read_integer, Reader.padded_map, Reader.map_map]
    rfl
  have hstring : stringParser.read = Reader.map .expr (.map .str (.padded stringRun)) := by
    rw [stringParser, read_map, read_padded, read_string, Reader.padded_map, Reader.map_map,
      Reader.map_map]
    rfl
  have hname : identifierParser.read = Reader.map .expr (.map .ident (.padded nameRun)) := by
    rw [identifierParser, read_map, read_padded, read_identifier, Reader.padded_map,
      Reader.map_map, Reader.map_map]
    rfl
  rw [atomOf, ← Reader.first_map]
  change Reader.first [callRule.reading _, arrayRule.reading _,
    Reader.between "(" ")" (Reader.map .expr expression), (padded filler integer).read,
    stringParser.read, identifierParser.read] = _
  rw [callRule_map, harray, Reader.between_map, hinteger, hstring, hname]
  rfl

end Trees

/-! ## The grammar answers as recursive descent does -/

/-- An operator does to payloads what it does to trees. -/
theorem operator_over (guard memo : Nat) (op : BinaryOp) :
    Reader.Binary.Over Payload.expr op.reader (operator guard memo op).binary :=
  ⟨rfl, fun _ _ => rfl⟩

theorem sign_over (memo : Nat) (op : UnaryOp) :
    Reader.Unary.Over Payload.expr op.reader (sign memo op).unary :=
  ⟨rfl, fun _ => rfl⟩

/-- On payloads, an expression is read as it is on trees. -/
theorem orOf_map (traced : Bool) (expression : Reader Expr) :
    Ladder.descents (ladder traced).levels
        (Ladder.bare (ladder traced).primaries (Reader.map .expr expression)) =
      Reader.map Payload.expr (orOf expression) := by
  rw [bare_eq, orOf]
  generalize atomOf expression = bare
  simp only [ladder, Ladder.descents, List.foldr_cons, List.foldr_nil, Level.descent,
    List.map_cons, List.map_nil, chainOf]
  rw [Reader.rightAssociative_map (operator_over 9 11 .pow) .nil,
    Reader.prefixed_map (.cons (sign_over 9 .not) (.cons (sign_over 10 .neg) .nil)),
    Reader.leftAssociative_map (.cons (operator_over 6 6 .mul)
      (.cons (operator_over 7 7 .div) (.cons (operator_over 8 8 .rem) .nil))),
    Reader.leftAssociative_map (.cons (operator_over 4 4 .add)
      (.cons (operator_over 5 5 .sub) .nil)),
    Reader.leftAssociative_map (.cons (operator_over 2 2 .eq)
      (.cons (operator_over 3 3 .notEq) .nil)),
    Reader.leftAssociative_map (.cons (operator_over 1 1 .and) .nil),
    Reader.leftAssociative_map (.cons (operator_over 0 0 .or) .nil)]

/-- On payloads, the ladder reads what recursive descent reads. -/
theorem descents_eq (traced : Bool) :
    (.recursive fun expression => Ladder.descents (ladder traced).levels
        (Ladder.bare (ladder traced).primaries expression)) =
      Reader.map Payload.expr tree :=
  Reader.recursive_map (orOf_map traced)

/-- Calls, arrays and groups hold expressions again. -/
theorem tree_eq : tree = orOf tree := by
  refine Reader.map_injective (f := Payload.expr) (fun x y h => Payload.expr.inj h) ?_
  rw [← orOf_map false, ← descents_eq false]
  exact Ladder.recursive_descents _ (proper false)

theorem reads_tree (traced : Bool) :
    (grammar traced).Reads (Reader.map .expr tree) := by
  rw [← ladder_grammar, ← descents_eq traced]
  exact Ladder.reads_descent (proper traced) (runs traced) (apart traced)

/-- The expression language is answered with the trees of its textbook parser. -/
theorem answers_as_tree (traced : Bool) :
    (grammar traced).Answers (Reader.map .expr tree) := by
  rw [← ladder_grammar, ← descents_eq traced]
  exact (Ladder.reads_descent (proper traced) (runs traced) (apart traced)).answers

end Packrat.Expression
