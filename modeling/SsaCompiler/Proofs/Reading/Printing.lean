import Mathlib.Algebra.Group.Nat.Defs
import SsaCompiler.Program.Parser
import SsaCompiler.Proofs.Reading.Sources

/-!
Printing of programs. A program is printed as tokens with spaces between them. Return types are
written out, expressions of statements stand in parentheses, and inside expressions there are only
the parentheses that precedence and associativity ask for.
-/
namespace SsaCompiler

/-- What can be chosen when a program is printed. -/
structure PrintStyle where
  /-- The texts of floats. -/
  literal : Double → List Char
  /-- Whether foreign functions are announced like others. -/
  announced : Bool
  /-- Whether the two tokens of `!=` stand without a space between them. -/
  tight : Bool

/-- A property of the characters of a list, tested on each. -/
theorem forall_mem_of_all {p : Char → Prop} [DecidablePred p] {l : List Char}
    (h : (l.all fun c => decide (p c)) = true) : ∀ c ∈ l, p c :=
  fun c hc => of_decide_eq_true (List.all_eq_true.mp h c hc)

/-- The text is a float literal with the value `x`: digits with one point that are read as `x`. -/
structure Number.Spells (text : List Char) (x : Double) : Prop where
  chars : ∀ c ∈ text, c = '.' ∨ c.isDigit = true
  point : text.count '.' = 1
  read : Number.read text true = .ok (.float x)

instance (text : List Char) (x : Double) : Decidable (Number.Spells text x) :=
  decidable_of_iff ((text.all fun c => c = '.' || c.isDigit) = true ∧ text.count '.' = 1 ∧
    Number.read text true = .ok (.float x))
    ⟨fun h => ⟨by simpa using h.1, h.2.1, h.2.2⟩, fun h => ⟨by simpa using h.chars, h.point, h.read⟩⟩

/-- A word that is read as an identifier. -/
structure IsIdentifier (name : String) : Prop where
  first : name.toList.head?.any Text.isAlphabetic = true
  chars : ∀ c ∈ name.toList, isWordChar c = true
  free : ∀ k ∈ Keyword.all, k.word ≠ name

instance (name : String) : Decidable (IsIdentifier name) :=
  decidable_of_iff (name.toList.head?.any Text.isAlphabetic = true ∧
    name.toList.all isWordChar = true ∧ ∀ k ∈ Keyword.all, k.word ≠ name)
    ⟨fun h => ⟨h.1, List.all_eq_true.mp h.2.1, h.2.2⟩,
      fun h => ⟨h.first, List.all_eq_true.mpr h.chars, h.free⟩⟩

namespace Operator

def tokens : Operator → List Token
  | add => [.other '+']
  | sub => [.other '-']
  | mul => [.other '*']
  | div => [.other '/']
  | less => [.other '<']
  | greater => [.other '>']
  | equal => [.equal]
  | notEqual => [.other '!', .assign]
  | custom c => [.other c]

/-- Custom operators have one of the signs that the parser takes for them. -/
def Printable : Operator → Prop
  | custom c => c ∈ ['%', '&', '|', '^']
  | _ => True

instance : (op : Operator) → Decidable op.Printable
  | custom c => inferInstanceAs (Decidable (c ∈ ['%', '&', '|', '^']))
  | add | sub | mul | div | less | greater | equal | notEqual => isTrue trivial

end Operator

/-- Tokens in parentheses if need be. -/
def enclosed (needed : Bool) (ts : List Token) : List Token :=
  if needed then .leftParen :: (ts ++ [.rightParen]) else ts

/-- The operator of a binary expression. -/
def Expr.operator? : Expr → Option Operator
  | .binary op _ _ => some op
  | _ => none

mutual

def Expr.tokens : Expr → List Token
  | .string text => [.string text]
  | .number value => [.number value]
  | .bool value => [.keyword (if value then .kwTrue else .kwFalse)]
  | .variable name => [.identifier name]
  | .binary op lhs rhs =>
    enclosed (lhs.operator?.any (·.precedence < op.precedence)) lhs.tokens ++ op.tokens ++
      enclosed (rhs.operator?.any (·.precedence ≤ op.precedence)) rhs.tokens
  | .unary op operand => .other op :: enclosed operand.operator?.isSome operand.tokens
  | .call callee args => .identifier callee :: .leftParen :: (exprsTokens args ++ [.rightParen])
  | .sequence elements => .other '[' :: (exprsTokens elements ++ [.other ']'])

/-- Expressions with commas between them. -/
def exprsTokens : List Expr → List Token
  | [] => []
  | [e] => e.tokens
  | e :: es => e.tokens ++ .other ',' :: exprsTokens es

end

mutual

def Stmt.tokens : Stmt → List Token
  | .expr e => enclosed true e.tokens
  | .ret none => [.keyword .kwReturn]
  | .ret (some e) => .keyword .kwReturn :: enclosed true e.tokens
  | .branch condition thenBlock rest =>
    .keyword .kwIf :: enclosed true condition.tokens ++
      .leftBrace :: (stmtsTokens thenBlock ++ .rightBrace :: rest.tokens)
  | .whileLoop condition body =>
    .keyword .kwFor :: enclosed true condition.tokens ++
      .leftBrace :: (stmtsTokens body ++ [.rightBrace])
  | .forIn index element sequence body =>
    .keyword .kwFor :: (index.elim [] fun i => [.identifier i, .other ',']) ++
      .identifier element :: .keyword .kwIn :: enclosed true sequence.tokens ++
      .leftBrace :: (stmtsTokens body ++ [.rightBrace])

def stmtsTokens : List Stmt → List Token
  | [] => []
  | stmt :: stmts => stmt.tokens ++ stmtsTokens stmts

def ElseChain.tokens : ElseChain → List Token
  | .none => []
  | .otherwise block => .keyword .kwElse :: .leftBrace :: (stmtsTokens block ++ [.rightBrace])
  | .elseIf condition block rest =>
    .keyword .kwElse :: .keyword .kwIf :: enclosed true condition.tokens ++
      .leftBrace :: (stmtsTokens block ++ .rightBrace :: rest.tokens)

end

/-- The operators that functions can define, as names and as tokens. -/
def definableNames : List (String × List Token) :=
  ("==", [.equal]) :: ("!=", [.other '!', .assign]) ::
    Parser.definableOperators.map fun c => (String.singleton c, [.other c])

/-- The names of functions that define operators, as they are stored and as they are written. -/
def operatorNames : List (String × List Token) :=
  ["binary", "unary"].flatMap fun word =>
    definableNames.map fun p => (word ++ "_" ++ p.1, .identifier word :: p.2)

def nameTokens (name : String) : List Token :=
  (operatorNames.lookup name).getD [.identifier name]

def TypeName.tokens (t : TypeName) : List Token :=
  .identifier t.name ::
    t.len.elim [] fun n => [.other '[', .number (.int (Int64.ofNat n)), .other ']']

def Param.tokens (p : Param) : List Token := .identifier p.name :: p.type.tokens

def paramsTokens : List Param → List Token
  | [] => []
  | [p] => p.tokens
  | p :: ps => p.tokens ++ .other ',' :: paramsTokens ps

def Prototype.tokens (p : Prototype) : List Token :=
  nameTokens p.name ++ .leftParen :: (paramsTokens p.params ++ .rightParen :: p.result.tokens)

def Item.tokens (style : PrintStyle) : Item → List Token
  | .function decl =>
    .keyword .kwFun :: decl.proto.tokens ++ .leftBrace :: (stmtsTokens decl.body ++ [.rightBrace])
  | .foreign proto =>
    .atSign :: (if style.announced then [.keyword .kwFun] else []) ++ proto.tokens
  | .statement stmt => stmt.tokens

def programTokens (style : PrintStyle) (items : List Item) : List Token :=
  items.flatMap (Item.tokens style)

namespace PrintStyle

/-- The text of a token. -/
def spell (style : PrintStyle) : Token → List Char
  | .eof => []
  | .identifier name => name.toList
  | .number (.int n) => Nat.toDigits 10 n.toInt.toNat
  | .number (.float x) => style.literal x
  | .string text => '"' :: (text.toList ++ ['"'])
  | .leftParen => ['(']
  | .rightParen => [')']
  | .leftBrace => ['\x7b']
  | .rightBrace => ['\x7d']
  | .atSign => ['@']
  | .assign => ['=']
  | .equal => ['=', '=']
  | .keyword k => k.word.toList
  | .other c => [c]

def glues (style : PrintStyle) (t u : Token) : Bool :=
  style.tight && t = .other '!' && u = .assign

/-- The texts of tokens with spaces between them. -/
def joined (style : PrintStyle) : List Token → List Char
  | [] => []
  | [t] => style.spell t
  | t :: u :: ts =>
    style.spell t ++ (if style.glues t u then [] else [' ']) ++ style.joined (u :: ts)

/-- The text of a program. -/
def text (style : PrintStyle) (items : List Item) : String :=
  String.ofList (style.joined (programTokens style items))

end PrintStyle

section Printable

variable (style : PrintStyle)

mutual

/-- Expressions that can be written. -/
def Expr.Printable : Expr → Prop
  | .string text => ∀ c ∈ text.toList, c ≠ '"' ∧ Source.Plain c
  | .number (.int n) => 0 ≤ n
  | .number (.float x) => Number.Spells (style.literal x) x
  | .bool _ => True
  | .variable name => IsIdentifier name
  | .binary op lhs rhs => op.Printable ∧ lhs.Printable ∧ rhs.Printable
  | .unary op operand => op ∈ Parser.unaryOperators ∧ operand.Printable
  | .call callee args => IsIdentifier callee ∧ ExprsPrintable args
  | .sequence elements => ExprsPrintable elements

def ExprsPrintable : List Expr → Prop
  | [] => True
  | e :: es => e.Printable ∧ ExprsPrintable es

end

def Stmt.isBareReturn : Stmt → Bool
  | .ret none => true
  | _ => false

mutual

/-- Statements that can be written. A return without a value is the last statement of its block. -/
def Stmt.Printable : Stmt → Prop
  | .expr e => e.Printable style
  | .ret none => True
  | .ret (some e) => e.Printable style
  | .branch condition thenBlock rest =>
    condition.Printable style ∧ StmtsPrintable thenBlock ∧ rest.Printable
  | .whileLoop condition body => condition.Printable style ∧ StmtsPrintable body
  | .forIn index element sequence body =>
    (∀ i ∈ index, IsIdentifier i) ∧ IsIdentifier element ∧ sequence.Printable style ∧
      StmtsPrintable body

def StmtsPrintable : List Stmt → Prop
  | [] => True
  | stmt :: stmts =>
    stmt.Printable ∧ (stmt.isBareReturn = true → stmts = []) ∧ StmtsPrintable stmts

def ElseChain.Printable : ElseChain → Prop
  | .none => True
  | .otherwise block => StmtsPrintable block
  | .elseIf condition block rest =>
    condition.Printable style ∧ StmtsPrintable block ∧ rest.Printable

end

/-- An identifier, or `binary_` or `unary_` and an operator. -/
def IsFunctionName (name : String) : Prop :=
  IsIdentifier name ∨ ∃ p ∈ operatorNames, p.1 = name

def TypeName.Printable (t : TypeName) : Prop :=
  IsIdentifier t.name ∧ ∀ n ∈ t.len, n < 2 ^ 63

def Prototype.Printable (p : Prototype) : Prop :=
  IsFunctionName p.name ∧ (∀ q ∈ p.params, IsIdentifier q.name ∧ q.type.Printable) ∧
    p.result.Printable

def Item.Printable : Item → Prop
  | .function decl => decl.proto.Printable ∧ StmtsPrintable style decl.body
  | .foreign proto => proto.Printable
  | .statement stmt => stmt.Printable style

def Item.isBareReturn : Item → Bool
  | .statement stmt => stmt.isBareReturn
  | _ => false

/-- Programs that can be written. A return without a value outside of functions is the last item. -/
def ProgramPrintable : List Item → Prop
  | [] => True
  | item :: items =>
    item.Printable style ∧ (item.isBareReturn = true → items = []) ∧ ProgramPrintable items

end Printable

section Decisions

variable (style : PrintStyle)

mutual

instance Expr.decidePrintable : (e : Expr) → Decidable (e.Printable style)
  | .string text =>
    decidable_of_iff ((text.toList.all fun c => decide (c ≠ '"' ∧ Source.Plain c)) = true)
      ⟨forall_mem_of_all, fun h => List.all_eq_true.mpr fun c hc => decide_eq_true (h c hc)⟩
  | .number (.int n) => inferInstanceAs (Decidable (0 ≤ n))
  | .number (.float x) => inferInstanceAs (Decidable (Number.Spells (style.literal x) x))
  | .bool _ => isTrue trivial
  | .variable name => inferInstanceAs (Decidable (IsIdentifier name))
  | .binary op lhs rhs =>
    have := lhs.decidePrintable
    have := rhs.decidePrintable
    inferInstanceAs (Decidable (op.Printable ∧ lhs.Printable style ∧ rhs.Printable style))
  | .unary op operand =>
    have := operand.decidePrintable
    inferInstanceAs (Decidable (op ∈ Parser.unaryOperators ∧ operand.Printable style))
  | .call callee args =>
    have := decideExprsPrintable args
    inferInstanceAs (Decidable (IsIdentifier callee ∧ ExprsPrintable style args))
  | .sequence elements => decideExprsPrintable elements

instance decideExprsPrintable : (es : List Expr) → Decidable (ExprsPrintable style es)
  | [] => isTrue trivial
  | e :: es =>
    have := e.decidePrintable
    have := decideExprsPrintable es
    inferInstanceAs (Decidable (e.Printable style ∧ ExprsPrintable style es))

end

mutual

instance Stmt.decidePrintable : (stmt : Stmt) → Decidable (stmt.Printable style)
  | .expr e => inferInstanceAs (Decidable (e.Printable style))
  | .ret none => isTrue trivial
  | .ret (some e) => inferInstanceAs (Decidable (e.Printable style))
  | .branch condition thenBlock rest =>
    have := decideStmtsPrintable thenBlock
    have := rest.decidePrintable
    inferInstanceAs (Decidable (condition.Printable style ∧ StmtsPrintable style thenBlock ∧
      rest.Printable style))
  | .whileLoop condition body =>
    have := decideStmtsPrintable body
    inferInstanceAs (Decidable (condition.Printable style ∧ StmtsPrintable style body))
  | .forIn index element sequence body =>
    have := decideStmtsPrintable body
    inferInstanceAs (Decidable ((∀ i ∈ index, IsIdentifier i) ∧ IsIdentifier element ∧
      sequence.Printable style ∧ StmtsPrintable style body))

instance decideStmtsPrintable : (stmts : List Stmt) → Decidable (StmtsPrintable style stmts)
  | [] => isTrue trivial
  | stmt :: stmts =>
    have := stmt.decidePrintable
    have := decideStmtsPrintable stmts
    have := decidable_of_iff _ (List.isEmpty_iff (l := stmts))
    inferInstanceAs (Decidable (stmt.Printable style ∧
      (stmt.isBareReturn = true → stmts = []) ∧ StmtsPrintable style stmts))

instance ElseChain.decidePrintable : (chain : ElseChain) → Decidable (chain.Printable style)
  | .none => isTrue trivial
  | .otherwise block => decideStmtsPrintable block
  | .elseIf condition block rest =>
    have := decideStmtsPrintable block
    have := rest.decidePrintable
    inferInstanceAs (Decidable (condition.Printable style ∧ StmtsPrintable style block ∧
      rest.Printable style))

end

instance (name : String) : Decidable (IsFunctionName name) :=
  inferInstanceAs (Decidable (IsIdentifier name ∨ ∃ p ∈ operatorNames, p.1 = name))

instance (t : TypeName) : Decidable t.Printable :=
  inferInstanceAs (Decidable (IsIdentifier t.name ∧ ∀ n ∈ t.len, n < 2 ^ 63))

instance (p : Prototype) : Decidable p.Printable :=
  inferInstanceAs (Decidable (IsFunctionName p.name ∧
    (∀ q ∈ p.params, IsIdentifier q.name ∧ q.type.Printable) ∧ p.result.Printable))

instance : (item : Item) → Decidable (item.Printable style)
  | .function decl =>
    inferInstanceAs (Decidable (decl.proto.Printable ∧ StmtsPrintable style decl.body))
  | .foreign proto => inferInstanceAs (Decidable proto.Printable)
  | .statement stmt => inferInstanceAs (Decidable (stmt.Printable style))

instance decideProgramPrintable : (items : List Item) → Decidable (ProgramPrintable style items)
  | [] => isTrue trivial
  | item :: items =>
    have := decideProgramPrintable items
    have := decidable_of_iff _ (List.isEmpty_iff (l := items))
    inferInstanceAs (Decidable (item.Printable style ∧
      (item.isBareReturn = true → items = []) ∧ ProgramPrintable style items))

end Decisions

section Names

theorem lookup_operatorNames :
    ∀ p ∈ operatorNames, operatorNames.lookup p.1 = some p.2 := by
  decide +kernel

theorem operatorNames_not_words : ∀ p ∈ operatorNames, p.1.toList.all isWordChar = false := by
  decide +kernel

theorem nameTokens_of_mem {p : String × List Token} (h : p ∈ operatorNames) :
    nameTokens p.1 = p.2 := by
  rw [nameTokens, lookup_operatorNames p h]
  rfl

theorem nameTokens_of_isIdentifier {name : String} (h : IsIdentifier name) :
    nameTokens name = [.identifier name] := by
  have hnone : operatorNames.lookup name = none := by
    rw [List.lookup_eq_none_iff]
    intro p hp
    have hsign := operatorNames_not_words p hp
    rw [bne_iff_ne]
    rintro rfl
    rw [List.all_eq_true.mpr h.chars] at hsign
    cases hsign
  rw [nameTokens, hnone]
  rfl

/-- The name of a function starts with a word. -/
theorem IsFunctionName.nameTokens_eq {name : String} (h : IsFunctionName name) :
    ∃ word ts, nameTokens name = .identifier word :: ts := by
  rcases h with h | ⟨p, hp, rfl⟩
  · exact ⟨name, [], nameTokens_of_isIdentifier h⟩
  · rw [nameTokens_of_mem hp]
    obtain ⟨word, _, hp⟩ := List.mem_flatMap.mp hp
    obtain ⟨q, _, rfl⟩ := List.mem_map.mp hp
    exact ⟨word, q.2, rfl⟩

end Names

end SsaCompiler
