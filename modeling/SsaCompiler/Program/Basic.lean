import SsaCompiler.Number

/-!
Programs: functions, foreign functions that are only declared, and statements at the top level.
-/
namespace SsaCompiler

/-- A type as it is written: a name, and a length if it is a sequence. -/
structure TypeName where
  name : String
  len : Option Nat
  deriving DecidableEq, Repr

def TypeName.void : TypeName := ⟨"void", none⟩

def TypeName.text (t : TypeName) : String :=
  match t.len with
  | some n => t.name ++ "[" ++ toString n ++ "]"
  | none => t.name

structure Param where
  name : String
  type : TypeName
  deriving DecidableEq, Repr

structure Prototype where
  name : String
  params : List Param
  result : TypeName
  deriving DecidableEq, Repr

/-- Operators between two operands. Those without a built-in meaning are `custom`. -/
inductive Operator
  | add
  | sub
  | mul
  | div
  | less
  | greater
  | equal
  | notEqual
  | custom (sign : Char)
  deriving DecidableEq, Repr

namespace Operator

/-- The operator of a single sign. -/
def ofSign? (c : Char) : Option Operator :=
  if c = '+' then some add
  else if c = '-' then some sub
  else if c = '*' then some mul
  else if c = '/' then some div
  else if c = '<' then some less
  else if c = '>' then some greater
  else if c ∈ ['%', '&', '|', '^'] then some (custom c)
  else none

/-- How strongly an operator binds its operands. -/
def precedence : Operator → Nat
  | custom c => if c = '|' then 1 else if c = '^' then 2 else if c = '&' then 3 else 40
  | equal | notEqual => 5
  | less | greater => 10
  | add | sub => 20
  | mul | div => 40

def text : Operator → String
  | add => "+"
  | sub => "-"
  | mul => "*"
  | div => "/"
  | less => "<"
  | greater => ">"
  | equal => "=="
  | notEqual => "!="
  | custom c => String.singleton c

end Operator

inductive Expr
  | string (text : String)
  | number (value : Number)
  | bool (value : Bool)
  | variable (name : String)
  | binary (op : Operator) (lhs rhs : Expr)
  | unary (op : Char) (operand : Expr)
  | call (callee : String) (args : List Expr)
  | sequence (elements : List Expr)
  deriving Repr

mutual

inductive Stmt
  | expr (e : Expr)
  | ret (value : Option Expr)
  | branch (condition : Expr) (thenBlock : List Stmt) (rest : ElseChain)
  | whileLoop (condition : Expr) (body : List Stmt)
  | forIn (index : Option String) (element : String) (sequence : Expr) (body : List Stmt)

/-- What follows the first block of a branch: nothing, a last block, or a further condition. -/
inductive ElseChain
  | none
  | otherwise (block : List Stmt)
  | elseIf (condition : Expr) (block : List Stmt) (rest : ElseChain)

end

/-- Whether a further condition comes next. -/
def ElseChain.isElseIf : ElseChain → Bool
  | .elseIf .. => true
  | _ => false

structure FunctionDecl where
  proto : Prototype
  body : List Stmt

inductive Item
  | function (decl : FunctionDecl)
  | foreign (proto : Prototype)
  | statement (stmt : Stmt)

/-- The prototype that an item declares. -/
def Item.proto? : Item → Option Prototype
  | .function decl => some decl.proto
  | .foreign proto => some proto
  | .statement _ => none

end SsaCompiler
