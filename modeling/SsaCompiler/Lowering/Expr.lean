import SsaCompiler.Lowering.State

/-!
Lowering expressions. Operands and arguments are lowered from left to right. A binary operator calls
its overload if the operand types are exactly those of the overload, and is built in otherwise; a
unary operator is always an overload.
-/
namespace SsaCompiler

open Ir (BinOp FloatPred IntPred Value)

/-- What a program prints before it stops on a division by zero. -/
def divisionMessage : String := "division by zero"

/-- The characters of a string literal, where a backslash and an `n` stand for a line end. -/
def unescape : List Char → List Char
  | '\\' :: 'n' :: cs => '\n' :: unescape cs
  | c :: cs => c :: unescape cs
  | [] => []

namespace LowerM

/-- Calls a function of a known signature. -/
def call (callee : String) (sig : Signature) (args : List Value) : LowerM TypedValue := do
  match ← build (·.call callee args sig.result.toIr) with
  | some v => return ⟨v, sig.result⟩
  | none => return .void

def arith (op : BinOp) (ty : DataType) (lhs rhs : Value) : LowerM TypedValue :=
  return ⟨← build (·.binary op lhs rhs), ty⟩

def icmp (pred : IntPred) (lhs rhs : Value) : LowerM TypedValue :=
  return ⟨← build (·.icmp pred lhs rhs), .bool⟩

def fcmp (pred : FloatPred) (lhs rhs : Value) : LowerM TypedValue :=
  return ⟨← build (·.fcmp pred lhs rhs), .bool⟩

/-- Divides floats. With the guard on, a divisor equal to zero leads to a block that prints a
message and stops; the quotient comes from the other block. -/
def floatDivision (ctx : LowerContext) (lhs rhs : Value) : LowerM TypedValue := do
  if !ctx.guardDivision then arith .fdiv .float lhs rhs
  else
    let message ← internString divisionMessage
    declareRoutine .puts
    declareRoutine .abort
    let isZero ← build (·.fcmp .oeq rhs (.float .zero))
    let zeroBlock ← appendBlock "div.zero"
    let okBlock ← appendBlock "div.ok"
    let mergeBlock ← appendBlock "div.merge"
    condBr isZero zeroBlock okBlock
    position zeroBlock
    let _ ← build (·.call Ir.Routine.puts.name [message] Ir.Routine.puts.ret)
    let _ ← build (·.call Ir.Routine.abort.name [] Ir.Routine.abort.ret)
    br mergeBlock
    position okBlock
    let quotient ← build (·.binary .fdiv lhs rhs)
    br mergeBlock
    position mergeBlock
    let result ← build (·.phi .double
      [(.const (.undef .double), zeroBlock), (quotient, okBlock)])
    return ⟨result, .float⟩

/-- The built-in meaning of an operator on operands of one type. -/
def builtin (ctx : LowerContext) (op : Operator) (ty : DataType) (l r : Value) :
    LowerM TypedValue :=
  match ty, op with
  | .int, .add => arith .add .int l r
  | .int, .sub => arith .sub .int l r
  | .int, .mul => arith .mul .int l r
  | .int, .div => arith .sdiv .int l r
  | .int, .less => icmp .slt l r
  | .int, .greater => icmp .sgt l r
  | .float, .add => arith .fadd .float l r
  | .float, .sub => arith .fsub .float l r
  | .float, .mul => arith .fmul .float l r
  | .float, .div => floatDivision ctx l r
  | .float, .less => fcmp .olt l r
  | .float, .greater => fcmp .ogt l r
  | .float, .equal => fcmp .oeq l r
  | .float, .notEqual => fcmp .one l r
  | .int, .equal | .string, .equal | .bool, .equal => icmp .eq l r
  | .int, .notEqual | .string, .notEqual | .bool, .notEqual => icmp .ne l r
  | .string, .add => mismatch .concatenation
  | ty, op => mismatch (.noOperator op ty)

/-- Applies an operator as it is built in, which takes operands of one type. -/
def builtinBinary (ctx : LowerContext) (op : Operator) (lhs rhs : TypedValue) :
    LowerM TypedValue :=
  if lhs.type ≠ rhs.type then mismatch (.operands op lhs.type rhs.type)
  else builtin ctx op lhs.type lhs.value rhs.value

/-- Turns a type error into the error that an overload is missing. -/
def orMissing {α : Type} (step : LowerM α) (name : String) (operands : List DataType) : LowerM α :=
  tryCatch step fun
    | .mismatch _ => throw (.missingOverload name operands)
    | e => throw e

/-- Applies a binary operator. If an overload exists but does not fit, and the operator is not
built in for the operands either, the overload is what is missing. -/
def binary (ctx : LowerContext) (op : Operator) (lhs rhs : TypedValue) : LowerM TypedValue := do
  let name := "binary_" ++ op.text
  let types := [lhs.type, rhs.type]
  match ← signature? name with
  | none => builtinBinary ctx op lhs rhs
  | some sig =>
    if sig.params = types then call name sig [lhs.value, rhs.value]
    else orMissing (builtinBinary ctx op lhs rhs) name types

/-- Applies a unary operator. -/
def unary (op : Char) (operand : TypedValue) : LowerM TypedValue := do
  let name := "unary_" ++ String.singleton op
  match ← signature? name with
  | some sig =>
    if sig.params = [operand.type] then call name sig [operand.value]
    else throw (.missingOverload name [operand.type])
  | none => throw (.missingOverload name [operand.type])

/-- Stores values into the elements of an array from place `i` on. -/
def storeElements (elem : Ir.Ty) (array : Value) : Nat → List Value → LowerM Unit
  | _, [] => pure ()
  | i, v :: vs => do
    let slot ← build (·.elementPtr elem array (.int (Int64.ofNat i)))
    emit (·.store v slot)
    storeElements elem array (i + 1) vs

/-- Builds a sequence of values of one type in a fresh stack slot. -/
def buildSequence (elem : DataType) (values : List Value) : LowerM TypedValue := do
  let array ← build (·.alloca (.array elem.toIr values.length))
  storeElements elem.toIr array 0 values
  return ⟨array, .sequence elem values.length⟩

/-- Checks an element against the type of the elements before it, and returns that type. -/
def elementType (before : Option DataType) (ty : DataType) : LowerM DataType := do
  if !ty.isScalar then mismatch (.elementNotScalar ty)
  else
    match before with
    | some first => if first ≠ ty then mismatch (.mixedElements first ty) else return first
    | none => return ty

end LowerM

open LowerM

mutual

def lowerExpr (ctx : LowerContext) : Expr → LowerM TypedValue
  | .string text =>
    return ⟨← internString (String.ofList (unescape text.toList)), .string⟩
  | .number (.int n) => return ⟨.int n, .int⟩
  | .number (.float x) => return ⟨.float x, .float⟩
  | .bool b => return ⟨.bool b, .bool⟩
  | .variable name => do
    match (← get).scope.lookup? name with
    | some v => return v
    | none => throw (.undefined name)
  | .binary op lhs rhs => do
    let l ← lowerExpr ctx lhs
    let r ← lowerExpr ctx rhs
    LowerM.binary ctx op l r
  | .unary op operand => do LowerM.unary op (← lowerExpr ctx operand)
  | .call callee args => do
    match ← signature? callee with
    | none => throw (.undefined callee)
    | some sig =>
      if sig.params.length ≠ args.length then
        throw (.arity callee sig.params.length args.length)
      else
        let values ← lowerArgs ctx callee 1 args sig.params
        LowerM.call callee sig values
  | .sequence elements => do
    match ← lowerElements ctx none elements with
    | (some elem, values) => LowerM.buildSequence elem values
    | (none, _) => mismatch .emptySequence

/-- Lowers arguments, the first of them at the given place. -/
def lowerArgs (ctx : LowerContext) (callee : String) :
    Nat → List Expr → List DataType → LowerM (List Value)
  | place, e :: es, ty :: tys => do
    let arg ← lowerExpr ctx e
    if arg.type ≠ ty then mismatch (.argument place callee ty arg.type)
    else return arg.value :: (← lowerArgs ctx callee (place + 1) es tys)
  | _, _, _ => return []

/-- Lowers the elements of a sequence, and returns their common type unless there are none. -/
def lowerElements (ctx : LowerContext) :
    Option DataType → List Expr → LowerM (Option DataType × List Value)
  | before, [] => return (before, [])
  | before, e :: es => do
    let v ← lowerExpr ctx e
    let elem ← elementType before v.type
    let (elem, values) ← lowerElements ctx (some elem) es
    return (elem, v.value :: values)

end

/-- Lowers an expression that has to be a boolean. -/
def lowerCondition (ctx : LowerContext) (e : Expr) : LowerM Value := do
  let v ← lowerExpr ctx e
  if v.type ≠ .bool then mismatch (.condition v.type) else return v.value

end SsaCompiler
