import SsaCompiler.Compilation
import SsaCompiler.Proofs.Typing.Rules

/-!
Code that never calls the function of the statements outside of functions. To the rules it makes no
difference whether there is such a function yet.
-/
namespace SsaCompiler

open Compilation (toplevelName)

mutual

/-- No call in the expression names the function of the statements outside of functions. -/
def Expr.Avoids : Expr → Prop
  | .binary _ lhs rhs => lhs.Avoids ∧ rhs.Avoids
  | .unary _ operand => operand.Avoids
  | .call callee args => callee ≠ toplevelName ∧ ExprsAvoid args
  | .sequence elements => ExprsAvoid elements
  | _ => True

def ExprsAvoid : List Expr → Prop
  | [] => True
  | e :: es => e.Avoids ∧ ExprsAvoid es

end

mutual

/-- No call in the statement names the function of the statements outside of functions. -/
def Stmt.Avoids : Stmt → Prop
  | .expr e => e.Avoids
  | .ret value => ∀ e, value = some e → e.Avoids
  | .branch condition thenBlock rest => condition.Avoids ∧ StmtsAvoid thenBlock ∧ rest.Avoids
  | .whileLoop condition body => condition.Avoids ∧ StmtsAvoid body
  | .forIn _ _ sequence body => sequence.Avoids ∧ StmtsAvoid body

def StmtsAvoid : List Stmt → Prop
  | [] => True
  | s :: ss => s.Avoids ∧ StmtsAvoid ss

def ElseChain.Avoids : ElseChain → Prop
  | .none => True
  | .otherwise block => StmtsAvoid block
  | .elseIf condition block rest => condition.Avoids ∧ StmtsAvoid block ∧ rest.Avoids

end

/-- The item neither declares nor calls the function of the statements outside of functions. -/
def Item.Avoids : Item → Prop
  | .function f => f.proto.name ≠ toplevelName ∧ StmtsAvoid f.body
  | .foreign proto => proto.name ≠ toplevelName
  | .statement stmt => stmt.Avoids

theorem stmtsAvoid_iff {stmts : List Stmt} : StmtsAvoid stmts ↔ ∀ stmt ∈ stmts, stmt.Avoids := by
  induction stmts with
  | nil => simp [StmtsAvoid]
  | cons stmt stmts ih => simp [StmtsAvoid, ih]

/-- The name of an overload is not the one of the function of statements. -/
theorem binary_ne_toplevelName (op : Operator) : "binary_" ++ op.text ≠ toplevelName := by
  intro h
  have hlist := congrArg String.toList h
  simp [toplevelName] at hlist

theorem unary_ne_toplevelName (op : Char) : "unary_" ++ String.singleton op ≠ toplevelName := by
  intro h
  have hlist := congrArg String.toList h
  simp [toplevelName] at hlist

namespace Names

/-- Names that stand for the same, up to the function of the statements outside of functions. -/
structure Concurs (names names' : Names) : Prop where
  types : names'.type? = names.type?
  others : ∀ {name}, name ≠ toplevelName → names'.signature? name = names.signature? name

variable {names names' : Names}

theorem Concurs.bind (h : names.Concurs names') (name : String) (ty : DataType) :
    (names.bind name ty).Concurs (names'.bind name ty) := by
  refine ⟨?_, h.others⟩
  funext n
  simp only [Names.bind, h.types]

theorem Concurs.inLoop (h : names.Concurs names') (index : Option String) (element : String)
    (elem : DataType) : (names.inLoop index element elem).Concurs (names'.inLoop index element elem) := by
  cases index with
  | none => exact h.bind element elem
  | some name => exact (h.bind name .int).bind element elem

theorem Concurs.binaryType (h : names.Concurs names') (op : Operator) (l r : DataType) :
    names'.binaryType op l r = names.binaryType op l r := by
  unfold Names.binaryType
  rw [h.others (binary_ne_toplevelName op)]

theorem Concurs.unaryType (h : names.Concurs names') (op : Char) (ty : DataType) :
    names'.unaryType op ty = names.unaryType op ty := by
  unfold Names.unaryType
  rw [h.others (unary_ne_toplevelName op)]

mutual

theorem Concurs.exprType (h : names.Concurs names') : ∀ e : Expr, e.Avoids →
    names'.exprType e = names.exprType e
  | .string _, _ => by simp only [Names.exprType]
  | .number (.int _), _ => by simp only [Names.exprType]
  | .number (.float _), _ => by simp only [Names.exprType]
  | .bool _, _ => by simp only [Names.exprType]
  | .variable name, _ => by simp only [Names.exprType, h.types]
  | .binary op lhs rhs, he => by
    simp only [Expr.Avoids] at he
    simp only [Names.exprType, Concurs.exprType h lhs he.1, Concurs.exprType h rhs he.2,
      h.binaryType]
  | .unary op operand, he => by
    simp only [Expr.Avoids] at he
    simp only [Names.exprType, Concurs.exprType h operand he, h.unaryType]
  | .call callee args, he => by
    simp only [Expr.Avoids] at he
    simp only [Names.exprType, h.others he.1, Concurs.checkArgs h args he.2]
  | .sequence elements, he => by
    simp only [Expr.Avoids] at he
    simp only [Names.exprType, Concurs.elementsType h elements he]

theorem Concurs.checkArgs (h : names.Concurs names') {callee : String} : ∀ es : List Expr,
    ExprsAvoid es → ∀ place types,
      names'.checkArgs callee place es types = names.checkArgs callee place es types
  | [], _, _, _ => by simp only [Names.checkArgs]
  | _ :: _, _, _, [] => by simp only [Names.checkArgs]
  | e :: es, he, place, ty :: types => by
    simp only [ExprsAvoid] at he
    simp only [Names.checkArgs, Concurs.exprType h e he.1, Concurs.checkArgs h es he.2]

theorem Concurs.elementsType (h : names.Concurs names') : ∀ es : List Expr, ExprsAvoid es →
    ∀ before, names'.elementsType before es = names.elementsType before es
  | [], _, _ => by simp only [Names.elementsType]
  | e :: es, he, before => by
    simp only [ExprsAvoid] at he
    simp only [Names.elementsType, Concurs.exprType h e he.1, Concurs.elementsType h es he.2]

end

theorem Concurs.checkCondition (h : names.Concurs names') {e : Expr} (he : e.Avoids) :
    names'.checkCondition e = names.checkCondition e := by
  unfold Names.checkCondition
  rw [h.exprType e he]

theorem Concurs.returnFlow (h : names.Concurs names') {value : Option Expr}
    (hvalue : ∀ e, value = some e → e.Avoids) (result : DataType) :
    names'.returnFlow result value = names.returnFlow result value := by
  cases value with
  | none => rfl
  | some e => simp only [Names.returnFlow, h.exprType e (hvalue e rfl)]

mutual

theorem Concurs.stmtFlow {result : DataType} : ∀ (stmt : Stmt) {names names' : Names},
    names.Concurs names' → stmt.Avoids → names'.stmtFlow result stmt = names.stmtFlow result stmt
  | .expr e, _, _, h, hs => by
    simp only [Stmt.Avoids] at hs
    simp only [Names.stmtFlow, h.exprType e hs]
  | .ret value, _, _, h, hs => by
    simp only [Stmt.Avoids] at hs
    simp only [Names.stmtFlow, h.returnFlow hs]
  | .branch condition thenBlock rest, _, _, h, hs => by
    simp only [Stmt.Avoids] at hs
    simp only [Names.stmtFlow, h.checkCondition hs.1, Concurs.stmtsFlow thenBlock h hs.2.1,
      Concurs.elseGoesOn rest h hs.2.2]
  | .whileLoop condition body, _, _, h, hs => by
    simp only [Stmt.Avoids] at hs
    simp only [Names.stmtFlow, h.checkCondition hs.1, Concurs.stmtsFlow body h hs.2]
  | .forIn index element sequence body, names, names', h, hs => by
    simp only [Stmt.Avoids] at hs
    have hbody : ∀ elem, (names'.inLoop index element elem).stmtsFlow result body =
        (names.inLoop index element elem).stmtsFlow result body := fun elem =>
      Concurs.stmtsFlow body (h.inLoop index element elem) hs.2
    simp only [Names.stmtFlow, h.exprType sequence hs.1, hbody]

theorem Concurs.stmtsFlow {result : DataType} : ∀ (stmts : List Stmt) {names names' : Names},
    names.Concurs names' → StmtsAvoid stmts →
      names'.stmtsFlow result stmts = names.stmtsFlow result stmts
  | [], _, _, _, _ => by simp only [Names.stmtsFlow]
  | stmt :: stmts, _, _, h, hs => by
    simp only [StmtsAvoid] at hs
    simp only [Names.stmtsFlow, Concurs.stmtFlow stmt h hs.1, Concurs.stmtsFlow stmts h hs.2]

theorem Concurs.elseGoesOn {result : DataType} : ∀ (rest : ElseChain) {names names' : Names},
    names.Concurs names' → rest.Avoids →
      names'.elseGoesOn result rest = names.elseGoesOn result rest
  | .none, _, _, _, _ => by simp only [Names.elseGoesOn]
  | .otherwise block, _, _, h, hs => by
    simp only [ElseChain.Avoids] at hs
    simp only [Names.elseGoesOn, Concurs.stmtsFlow block h hs]
  | .elseIf condition block rest, _, _, h, hs => by
    simp only [ElseChain.Avoids] at hs
    simp only [Names.elseGoesOn, h.checkCondition hs.1, Concurs.stmtsFlow block h hs.2.1,
      Concurs.elseGoesOn rest h hs.2.2]

end

end Names

end SsaCompiler
