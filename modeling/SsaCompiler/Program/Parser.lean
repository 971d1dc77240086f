import SsaCompiler.Program.ParseState

/-!
The grammar. Expressions are read by precedence climbing. Nested calls draw on an allowance, which
is taken large enough for the tokens that are left.
-/
namespace SsaCompiler.Parser

/-- Signs that may stand before an operand. -/
def unaryOperators : List Char := ['-', '+', '!', '~', '*', '&', '%', '^', '|']

/-- Signs that may be defined as an operator. -/
def definableOperators : List Char :=
  ['+', '-', '*', '/', '<', '>', '!', '~', '%', '&', '|', '^']

/-- The operator that a token starts. A lone `!` can only begin `!=`. -/
def operatorOf? : Token → Option Operator
  | .equal => some .equal
  | .other c => if c = '!' then some .notEqual else Operator.ofSign? c
  | _ => none

/-- Reads past an operator, which has two tokens if it is `!=`. -/
def consumeOperator (op : Operator) : ParseM Unit := do
  let _ ← advance
  if op = .notEqual then consumeToken .assign

mutual

def expression : Nat → ParseM Expr
  | 0 => throw .exhausted
  | n + 1 => do climb n 0 (← unary n)

/-- Extends `lhs` by operators that bind at least as strongly as `least`. -/
def climb : Nat → Nat → Expr → ParseM Expr
  | 0, _, _ => throw .exhausted
  | n + 1, least, lhs => do
    match operatorOf? (← peek) with
    | none => return lhs
    | some op =>
      if op.precedence < least then return lhs
      else
        consumeOperator op
        let rhs ← rightOperand n op
        climb n least (.binary op lhs rhs)

/-- Reads the right operand of `op`, which takes the operators that bind more strongly. -/
def rightOperand : Nat → Operator → ParseM Expr
  | 0, _ => throw .exhausted
  | n + 1, op => do
    let operand ← unary n
    match operatorOf? (← peek) with
    | some next =>
      if op.precedence < next.precedence then climb n (op.precedence + 1) operand
      else return operand
    | none => return operand

def unary : Nat → ParseM Expr
  | 0 => throw .exhausted
  | n + 1 => do
    match ← peek with
    | .other c =>
      if c ∈ unaryOperators then
        let _ ← advance
        return .unary c (← unary n)
      else primary n
    | _ => primary n

def primary : Nat → ParseM Expr
  | 0 => throw .exhausted
  | n + 1 => do
    match ← advance with
    | .number value => return .number value
    | .string text => return .string text
    | .keyword .kwTrue => return .bool true
    | .keyword .kwFalse => return .bool false
    | .identifier name =>
      if ← skipIf .leftParen then return .call name (← arguments n .rightParen)
      else return .variable name
    | .leftParen =>
      let e ← expression n
      consumeToken .rightParen
      return e
    | .other c =>
      if c = '[' then return .sequence (← arguments n (.other ']'))
      else reject (.other c) .expression
    | t => reject t .expression

/-- Reads expressions up to a closing token. -/
def arguments : Nat → Token → ParseM (List Expr)
  | 0, _ => throw .exhausted
  | n + 1, close => do
    if ← skipIf close then return []
    else
      let args ← expressions n
      consumeToken close
      return args

/-- Reads expressions between commas. -/
def expressions : Nat → ParseM (List Expr)
  | 0 => throw .exhausted
  | n + 1 => do
    let e ← expression n
    if ← skipIf (.other ',') then return e :: (← expressions n)
    else return [e]

end

mutual

def statement : Nat → ParseM Stmt
  | 0 => throw .exhausted
  | n + 1 => do
    if ← skipIf (.keyword .kwReturn) then
      if (← isAt .rightBrace) || (← isAt .eof) then return .ret none
      else return .ret (some (← expression n))
    else if ← skipIf (.keyword .kwIf) then
      let condition ← expression n
      let thenBlock ← block n
      return .branch condition thenBlock (← elseChain n)
    else if ← skipIf (.keyword .kwFor) then
      loop n (← expression n)
    else
      return .expr (← expression n)

/-- Reads a loop behind the first expression of its head. A lone variable before a comma or `in`
names what the loop binds. -/
def loop : Nat → Expr → ParseM Stmt
  | 0, _ => throw .exhausted
  | n + 1, head => do
    match head with
    | .variable first =>
      if ← skipIf (.other ',') then
        let element ← identifier
        consumeToken (.keyword .kwIn)
        let sequence ← expression n
        return .forIn (some first) element sequence (← block n)
      else if ← skipIf (.keyword .kwIn) then
        let sequence ← expression n
        return .forIn none first sequence (← block n)
      else
        return .whileLoop head (← block n)
    | _ => return .whileLoop head (← block n)

def elseChain : Nat → ParseM ElseChain
  | 0 => throw .exhausted
  | n + 1 => do
    if ← skipIf (.keyword .kwElse) then
      if ← skipIf (.keyword .kwIf) then
        let condition ← expression n
        let thenBlock ← block n
        return .elseIf condition thenBlock (← elseChain n)
      else return .otherwise (← block n)
    else return .none

def block : Nat → ParseM (List Stmt)
  | 0 => throw .exhausted
  | n + 1 => do
    consumeToken .leftBrace
    let stmts ← statements n
    consumeToken .rightBrace
    return stmts

/-- Reads statements up to a closing brace. -/
def statements : Nat → ParseM (List Stmt)
  | 0 => throw .exhausted
  | n + 1 => do
    if ← isAt .rightBrace then return []
    else if ← isAt .eof then unexpected (.token .rightBrace)
    else
      let stmt ← statement n
      return stmt :: (← statements n)

end

def typeName : ParseM TypeName := do
  let name ← identifier
  if ← skipIf (.other '[') then
    match ← advance with
    | .number (.int n) =>
      if 0 ≤ n then
        consumeSign ']'
        return ⟨name, some n.toInt.toNat⟩
      else reject (.number (.int n)) .sequenceLength
    | t => reject t .sequenceLength
  else return ⟨name, none⟩

/-- Reads the operator in the name of a function that defines one. -/
def definedOperator : ParseM String := do
  match ← advance with
  | .equal => return "=="
  | .other c =>
    if c = '!' && (← isAt .assign) then
      let _ ← advance
      return "!="
    else if c ∈ definableOperators then return String.singleton c
    else reject (.other c) .operator
  | t => reject t .operator

/-- Reads a function's name. The words `binary` and `unary` announce an operator unless the
parameters follow at once. -/
def functionName : ParseM String := do
  let name ← identifier
  if (name = "binary" || name = "unary") && !(← isAt .leftParen) then
    return name ++ "_" ++ (← definedOperator)
  else return name

def params : Nat → ParseM (List Param)
  | 0 => throw .exhausted
  | n + 1 => do
    let name ← identifier
    let type ← typeName
    if ← skipIf (.other ',') then return ⟨name, type⟩ :: (← params n)
    else return [⟨name, type⟩]

/-- Reads parameters between parentheses. -/
def paramList (n : Nat) : ParseM (List Param) := do
  consumeToken .leftParen
  if ← skipIf .rightParen then return []
  else
    let params ← params n
    consumeToken .rightParen
    return params

def prototype (n : Nat) : ParseM Prototype := do
  let name ← functionName
  let params ← paramList n
  match ← peek with
  | .identifier _ => return ⟨name, params, ← typeName⟩
  | _ => return ⟨name, params, .void⟩

/-- Reads an item, or nothing at the end of the text. -/
def item (n : Nat) : ParseM (Option Item) := do
  match ← peek with
  | .eof => return none
  | .keyword .kwFun =>
    let _ ← advance
    let proto ← prototype n
    return some (.function ⟨proto, ← block n⟩)
  | .atSign =>
    let _ ← advance
    let _ ← skipIf (.keyword .kwFun)
    return some (.foreign (← prototype n))
  | _ => return some (.statement (← statement n))

/-- Reads the first token once. -/
def prime : ParseM Unit := do
  let s ← get
  if !s.primed then
    set { s with primed := true }
    let _ ← advance

/-- Nested calls between two tokens are bounded, so this many suffice for the tokens left. -/
def allowance (s : Parser) : Nat := 8 * (s.ahead.tokens.length + 2)

/-- Reads the next item, or nothing at the end of the text. -/
def nextItem (s : Parser) : Except ParseError (Option Item) × Parser :=
  (do prime; item (allowance (← get))).run.run s

/-- Reads at most `n` items, up to the end of the text or the first error. -/
def items : Nat → Parser → List Item × Option ParseError
  | 0, _ => ([], some .exhausted)
  | n + 1, s =>
    match s.nextItem with
    | (.error e, _) => ([], some e)
    | (.ok none, _) => ([], none)
    | (.ok (some i), s) =>
      let rest := items n s
      (i :: rest.1, rest.2)

/-- The items of a text before its end or its first error. Each item takes a token, so there are no
more items than tokens. -/
def program (s : Parser) : List Item × Option ParseError := items (s.ahead.tokens.length + 2) s

/-- Reads all items of a text. -/
def parse (s : Parser) : Except ParseError (List Item) :=
  match s.program with
  | (is, none) => .ok is
  | (_, some e) => .error e

end SsaCompiler.Parser
