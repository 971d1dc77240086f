import SsaCompiler.Lowering.Stmt

/-!
The rules of the language without the code that is generated. An expression has a type or an error
that depends on nothing but the signatures of functions and the types of variables; a statement
tells whether control goes on behind it. Parts are looked at from left to right, and the first error
counts.
-/
namespace SsaCompiler

/-- Whether control goes on. -/
def Flow.goesOn : Flow → Bool
  | .continues => true
  | .terminated => false

/-- What names stand for: functions by their signatures and variables by their types. -/
structure Names where
  signature? : String → Option Signature
  type? : String → Option DataType

namespace Names

def bind (names : Names) (name : String) (ty : DataType) : Names :=
  { names with type? := fun n => if n = name then some ty else names.type? n }

/-- The names inside of a loop over a sequence of the given elements. -/
def inLoop (names : Names) (index : Option String) (element : String) (elem : DataType) : Names :=
  (index.elim names (names.bind · .int)).bind element elem

/-- What a built-in operator gives for operands of one type. -/
def builtinType (op : Operator) (ty : DataType) : Except CompileError DataType :=
  match ty, op with
  | .int, .add | .int, .sub | .int, .mul | .int, .div => .ok .int
  | .float, .add | .float, .sub | .float, .mul | .float, .div => .ok .float
  | .int, .less | .int, .greater | .int, .equal | .int, .notEqual => .ok .bool
  | .float, .less | .float, .greater | .float, .equal | .float, .notEqual => .ok .bool
  | .string, .equal | .string, .notEqual | .bool, .equal | .bool, .notEqual => .ok .bool
  | .string, .add => .error (.mismatch .concatenation)
  | ty, op => .error (.mismatch (.noOperator op ty))

/-- What a built-in operator gives. -/
def operatorType (op : Operator) (l r : DataType) : Except CompileError DataType :=
  if l ≠ r then .error (.mismatch (.operands op l r)) else builtinType op l

/-- A type error where an overload exists means that another overload is missing. -/
def orMissingType (name : String) (operands : List DataType) :
    Except CompileError DataType → Except CompileError DataType
  | .error (.mismatch _) => .error (.missingOverload name operands)
  | verdict => verdict

variable (names : Names)

def binaryType (op : Operator) (l r : DataType) : Except CompileError DataType :=
  match names.signature? ("binary_" ++ op.text) with
  | none => operatorType op l r
  | some sig =>
    if sig.params = [l, r] then .ok sig.result
    else orMissingType ("binary_" ++ op.text) [l, r] (operatorType op l r)

def unaryType (op : Char) (ty : DataType) : Except CompileError DataType :=
  match names.signature? ("unary_" ++ String.singleton op) with
  | some sig =>
    if sig.params = [ty] then .ok sig.result
    else .error (.missingOverload ("unary_" ++ String.singleton op) [ty])
  | none => .error (.missingOverload ("unary_" ++ String.singleton op) [ty])

/-- The common type of the elements of a sequence up to one of the given type. -/
def elementType (before : Option DataType) (ty : DataType) : Except CompileError DataType :=
  if !ty.isScalar then .error (.mismatch (.elementNotScalar ty))
  else
    match before with
    | some first => if first ≠ ty then .error (.mismatch (.mixedElements first ty)) else .ok first
    | none => .ok ty

mutual

def exprType : Expr → Except CompileError DataType
  | .string _ => .ok .string
  | .number (.int _) => .ok .int
  | .number (.float _) => .ok .float
  | .bool _ => .ok .bool
  | .variable name =>
    match names.type? name with
    | some ty => .ok ty
    | none => .error (.undefined name)
  | .binary op lhs rhs => do
    let l ← exprType lhs
    let r ← exprType rhs
    names.binaryType op l r
  | .unary op operand => do names.unaryType op (← exprType operand)
  | .call callee args =>
    match names.signature? callee with
    | none => .error (.undefined callee)
    | some sig =>
      if sig.params.length ≠ args.length then
        .error (.arity callee sig.params.length args.length)
      else do
        checkArgs callee 1 args sig.params
        return sig.result
  | .sequence elements => do
    match ← elementsType none elements with
    | some elem => return .sequence elem elements.length
    | none => .error (.mismatch .emptySequence)

/-- Checks arguments, the first of them at the given place. -/
def checkArgs (callee : String) : Nat → List Expr → List DataType → Except CompileError Unit
  | place, e :: es, ty :: tys => do
    let found ← exprType e
    if found ≠ ty then .error (.mismatch (.argument place callee ty found))
    else checkArgs callee (place + 1) es tys
  | _, _, _ => .ok ()

/-- The common type of the elements of a sequence, unless there are none. -/
def elementsType : Option DataType → List Expr → Except CompileError (Option DataType)
  | before, [] => .ok before
  | before, e :: es => do
    let ty ← exprType e
    let elem ← elementType before ty
    elementsType (some elem) es

end

def checkCondition (e : Expr) : Except CompileError Unit := do
  let ty ← names.exprType e
  if ty ≠ .bool then .error (.mismatch (.condition ty)) else return ()

/-- A return from a function with the given result. -/
def returnFlow (result : DataType) : Option Expr → Except CompileError Flow
  | none => if result ≠ .void then .error (.mismatch (.missingReturn result)) else return .terminated
  | some e => do
    let ty ← names.exprType e
    if ty ≠ result then .error (.mismatch (.wrongReturn ty result)) else return .terminated

end Names

mutual

/-- Whether control goes on behind a statement of a function with the given result. -/
def Names.stmtFlow (result : DataType) (names : Names) : Stmt → Except CompileError Flow
  | .expr e => do
    let _ ← names.exprType e
    return .continues
  | .ret value => names.returnFlow result value
  | .branch condition thenBlock rest => do
    names.checkCondition condition
    let first ← Names.stmtsFlow result names thenBlock
    let other ← Names.elseGoesOn result names rest
    return if first.goesOn || other then .continues else .terminated
  | .whileLoop condition body => do
    names.checkCondition condition
    let _ ← Names.stmtsFlow result names body
    return .continues
  | .forIn index element sequence body => do
    match ← names.exprType sequence with
    | .sequence elem len =>
      if len = 0 then return .continues
      else Names.stmtsFlow result (names.inLoop index element elem) body
    | ty => .error (.mismatch (.notSequence ty))

/-- Statements behind one that control does not go on behind are not looked at. -/
def Names.stmtsFlow (result : DataType) (names : Names) : List Stmt → Except CompileError Flow
  | [] => .ok .continues
  | s :: ss => do
    match ← Names.stmtFlow result names s with
    | .terminated => return .terminated
    | .continues => Names.stmtsFlow result names ss

/-- Whether control goes on behind one of the alternatives. -/
def Names.elseGoesOn (result : DataType) (names : Names) : ElseChain → Except CompileError Bool
  | .none => .ok true
  | .otherwise block => do return (← Names.stmtsFlow result names block).goesOn
  | .elseIf condition block rest => do
    names.checkCondition condition
    let first ← Names.stmtsFlow result names block
    let other ← Names.elseGoesOn result names rest
    return first.goesOn || other

end

end SsaCompiler
