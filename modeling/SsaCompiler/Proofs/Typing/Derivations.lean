import SsaCompiler.Proofs.Typing.Rules
import SsaCompiler.Proofs.Validity.Verify

/-!
The rules of the language as derivations, without an order in which parts are looked at and without
errors. An expression is accepted by the rules exactly if it has a type; a statement exactly if its
live parts do: what stands behind a return is not looked at, nor is the body of a loop over an empty
sequence.
-/
namespace SsaCompiler

open Ir (bind_eq_ok)

/-- What a built-in operator gives for operands of one type. -/
@[mk_iff]
inductive Builtin : Operator → DataType → DataType → Prop
  | arith {op : Operator} {ty : DataType} (hop : op ∈ [.add, .sub, .mul, .div])
      (hty : ty ∈ [.int, .float]) : Builtin op ty ty
  | order {op : Operator} {ty : DataType} (hop : op ∈ [.less, .greater, .equal, .notEqual])
      (hty : ty ∈ [.int, .float]) : Builtin op ty .bool
  | equality {op : Operator} {ty : DataType} (hop : op ∈ [.equal, .notEqual])
      (hty : ty ∈ [.string, .bool]) : Builtin op ty .bool

/-- The type of an expression. An overload goes before the built-in operator. -/
inductive HasType (names : Names) : Expr → DataType → Prop
  | string (text : String) : HasType names (.string text) .string
  | int (n : Int64) : HasType names (.number (.int n)) .int
  | float (x : Double) : HasType names (.number (.float x)) .float
  | bool (b : Bool) : HasType names (.bool b) .bool
  | name {name : String} {ty : DataType} (h : names.type? name = some ty) :
      HasType names (.variable name) ty
  | overload {op : Operator} {lhs rhs : Expr} {l r : DataType} {sig : Signature}
      (hl : HasType names lhs l) (hr : HasType names rhs r)
      (hsig : names.signature? ("binary_" ++ op.text) = some sig) (hfits : sig.params = [l, r]) :
      HasType names (.binary op lhs rhs) sig.result
  | builtin {op : Operator} {lhs rhs : Expr} {ty result : DataType}
      (hl : HasType names lhs ty) (hr : HasType names rhs ty)
      (hnone : ∀ sig, names.signature? ("binary_" ++ op.text) = some sig → sig.params ≠ [ty, ty])
      (hop : Builtin op ty result) : HasType names (.binary op lhs rhs) result
  | unary {op : Char} {operand : Expr} {ty : DataType} {sig : Signature}
      (h : HasType names operand ty)
      (hsig : names.signature? ("unary_" ++ String.singleton op) = some sig)
      (hfits : sig.params = [ty]) : HasType names (.unary op operand) sig.result
  | call {callee : String} {args : List Expr} {sig : Signature}
      (hsig : names.signature? callee = some sig)
      (hargs : List.Forall₂ (HasType names) args sig.params) :
      HasType names (.call callee args) sig.result
  | sequence {elements : List Expr} {elem : DataType} (hne : elements ≠ [])
      (hscalar : elem.isScalar = true) (h : ∀ e ∈ elements, HasType names e elem) :
      HasType names (.sequence elements) (.sequence elem elements.length)

/-- Control goes on behind two branches unless it does so behind neither. -/
def Flow.join : Flow → Flow → Flow
  | .terminated, .terminated => .terminated
  | _, _ => .continues

mutual

/-- A statement in a function with the given result, and whether control goes on behind it. -/
inductive StmtTyped (result : DataType) : Names → Stmt → Flow → Prop
  | expr {names : Names} {e : Expr} {ty : DataType} (h : HasType names e ty) :
      StmtTyped result names (.expr e) .continues
  | bareReturn {names : Names} (h : result = .void) :
      StmtTyped result names (.ret none) .terminated
  | ret {names : Names} {e : Expr} (h : HasType names e result) :
      StmtTyped result names (.ret (some e)) .terminated
  | branch {names : Names} {condition : Expr} {block : List Stmt} {rest : ElseChain}
      {flow other : Flow} (hcond : HasType names condition .bool)
      (hblock : BlockTyped result names block flow) (hrest : ElseTyped result names rest other) :
      StmtTyped result names (.branch condition block rest) (flow.join other)
  | whileLoop {names : Names} {condition : Expr} {body : List Stmt} {flow : Flow}
      (hcond : HasType names condition .bool) (hbody : BlockTyped result names body flow) :
      StmtTyped result names (.whileLoop condition body) .continues
  | skipped {names : Names} {index : Option String} {element : String} {sequence : Expr}
      {body : List Stmt} {elem : DataType} (h : HasType names sequence (.sequence elem 0)) :
      StmtTyped result names (.forIn index element sequence body) .continues
  | forIn {names : Names} {index : Option String} {element : String} {sequence : Expr}
      {body : List Stmt} {elem : DataType} {len : Nat} {flow : Flow}
      (h : HasType names sequence (.sequence elem len)) (hlen : len ≠ 0)
      (hbody : BlockTyped result (names.inLoop index element elem) body flow) :
      StmtTyped result names (.forIn index element sequence body) flow

/-- Statements up to the first one that control does not go on behind. -/
inductive BlockTyped (result : DataType) : Names → List Stmt → Flow → Prop
  | nil {names : Names} : BlockTyped result names [] .continues
  | last {names : Names} {stmt : Stmt} {rest : List Stmt}
      (h : StmtTyped result names stmt .terminated) :
      BlockTyped result names (stmt :: rest) .terminated
  | next {names : Names} {stmt : Stmt} {rest : List Stmt} {flow : Flow}
      (h : StmtTyped result names stmt .continues) (hrest : BlockTyped result names rest flow) :
      BlockTyped result names (stmt :: rest) flow

/-- The alternatives of a branch. -/
inductive ElseTyped (result : DataType) : Names → ElseChain → Flow → Prop
  | none {names : Names} : ElseTyped result names .none .continues
  | otherwise {names : Names} {block : List Stmt} {flow : Flow}
      (h : BlockTyped result names block flow) : ElseTyped result names (.otherwise block) flow
  | elseIf {names : Names} {condition : Expr} {block : List Stmt} {rest : ElseChain}
      {flow other : Flow} (hcond : HasType names condition .bool)
      (hblock : BlockTyped result names block flow) (hrest : ElseTyped result names rest other) :
      ElseTyped result names (.elseIf condition block rest) (flow.join other)

end

namespace Names

variable {names : Names} {op : Operator} {ty l r t : DataType} {result : DataType} {flow : Flow}

theorem builtinType_eq_ok : builtinType op ty = .ok t ↔ Builtin op ty t := by
  rw [builtin_iff]
  cases ty <;> cases op <;> simp [builtinType, eq_comm]

theorem operatorType_eq_ok : operatorType op l r = .ok t ↔ l = r ∧ Builtin op l t := by
  unfold operatorType
  split
  · rename_i hne
    exact iff_of_false nofun fun h => hne h.1
  · rename_i heq
    rw [builtinType_eq_ok, and_iff_right (not_not.mp heq)]

/-- Only the error changes where an overload is missing. -/
theorem orMissingType_eq_ok {name : String} {operands : List DataType}
    {verdict : Except CompileError DataType} :
    orMissingType name operands verdict = .ok t ↔ verdict = .ok t := by
  unfold orMissingType
  split
  · exact iff_of_false nofun nofun
  · rfl

theorem binaryType_eq_ok : names.binaryType op l r = .ok t ↔
    (∃ sig, names.signature? ("binary_" ++ op.text) = some sig ∧ sig.params = [l, r] ∧
      sig.result = t) ∨
    (∀ sig, names.signature? ("binary_" ++ op.text) = some sig → sig.params ≠ [l, r]) ∧
      l = r ∧ Builtin op l t := by
  unfold binaryType
  cases hsig : names.signature? ("binary_" ++ op.text) with
  | none => simp [operatorType_eq_ok]
  | some sig =>
    dsimp only
    split
    · rename_i hfits
      simp [hfits]
    · rename_i hfits
      rw [orMissingType_eq_ok, operatorType_eq_ok]
      simp [hfits]

theorem unaryType_eq_ok {op : Char} : names.unaryType op ty = .ok t ↔
    ∃ sig, names.signature? ("unary_" ++ String.singleton op) = some sig ∧ sig.params = [ty] ∧
      sig.result = t := by
  unfold unaryType
  cases hsig : names.signature? ("unary_" ++ String.singleton op) with
  | none => simp
  | some sig =>
    dsimp only
    split
    · rename_i hfits
      simp [hfits]
    · rename_i hfits
      simp [hfits]

theorem elementType_eq_ok {before : Option DataType} :
    elementType before ty = .ok t ↔ t = ty ∧ ty.isScalar = true ∧ ∀ first ∈ before, first = ty := by
  unfold elementType
  cases hscalar : ty.isScalar with
  | false => simp
  | true =>
    cases before with
    | none => simp [eq_comm]
    | some first =>
      by_cases hsame : first = ty
      · simp [hsame, eq_comm]
      · simp [hsame]

mutual

/-- The rules give an expression a type exactly if one can be derived. -/
theorem exprType_eq_ok : ∀ {e : Expr} {t : DataType}, names.exprType e = .ok t ↔ HasType names e t
  | .string text, t => by
    simp only [exprType, Except.ok.injEq]
    exact ⟨fun h => h ▸ .string text, fun h => by cases h; rfl⟩
  | .number (.int n), t => by
    simp only [exprType, Except.ok.injEq]
    exact ⟨fun h => h ▸ .int n, fun h => by cases h; rfl⟩
  | .number (.float x), t => by
    simp only [exprType, Except.ok.injEq]
    exact ⟨fun h => h ▸ .float x, fun h => by cases h; rfl⟩
  | .bool b, t => by
    simp only [exprType, Except.ok.injEq]
    exact ⟨fun h => h ▸ .bool b, fun h => by cases h; rfl⟩
  | .variable name, t => by
    simp only [exprType]
    constructor
    · intro h
      split at h
      · rename_i hty
        cases h
        exact .name hty
      · cases h
    · intro h
      cases h with
      | name hty => rw [hty]
  | .binary op lhs rhs, t => by
    simp only [exprType, bind_eq_ok, exprType_eq_ok (e := lhs), exprType_eq_ok (e := rhs),
      binaryType_eq_ok]
    constructor
    · rintro ⟨l, hl, r, hr, ⟨sig, hsig, hfits, rfl⟩ | ⟨hnone, rfl, hop⟩⟩
      · exact .overload hl hr hsig hfits
      · exact .builtin hl hr hnone hop
    · intro h
      cases h with
      | overload hl hr hsig hfits => exact ⟨_, hl, _, hr, .inl ⟨_, hsig, hfits, rfl⟩⟩
      | builtin hl hr hnone hop => exact ⟨_, hl, _, hr, .inr ⟨hnone, rfl, hop⟩⟩
  | .unary op operand, t => by
    simp only [exprType, bind_eq_ok, exprType_eq_ok (e := operand), unaryType_eq_ok]
    constructor
    · rintro ⟨ty, hty, sig, hsig, hfits, rfl⟩
      exact .unary hty hsig hfits
    · intro h
      cases h with
      | unary hty hsig hfits => exact ⟨_, hty, _, hsig, hfits, rfl⟩
  | .call callee args, t => by
    simp only [exprType]
    constructor
    · intro h
      split at h
      · cases h
      · rename_i sig hsig
        split at h
        · cases h
        · rename_i hlen
          obtain ⟨_, hargs, heq⟩ := bind_eq_ok.mp h
          cases heq
          exact .call hsig ((checkArgs_eq_ok (not_not.mp hlen).symm).mp hargs)
    · intro h
      cases h with
      | @call _ _ sig hsig hargs =>
        have hlen := hargs.length_eq
        simp only [hsig, hlen, ne_eq, not_true_eq_false, if_false]
        exact bind_eq_ok.mpr ⟨(), (checkArgs_eq_ok hlen).mpr hargs, rfl⟩
  | .sequence [], t => by
    simp only [exprType, elementsType]
    refine iff_of_false nofun fun h => ?_
    cases h with
    | sequence hne => exact hne rfl
  | .sequence (e :: es), t => by
    simp only [exprType, elementsType, bind_eq_ok, exprType_eq_ok (e := e), elementType_eq_ok,
      elementsType_eq_ok]
    constructor
    · rintro ⟨_, ⟨ty, hty, _, ⟨rfl, hscalar, _⟩, rfl, hes⟩, heq⟩
      cases heq
      exact .sequence (List.cons_ne_nil _ _) hscalar
        (List.forall_mem_cons.mpr ⟨hty, fun e he => (hes e he).1⟩)
    · intro h
      cases h with
      | @sequence _ elem _ hscalar hes =>
        obtain ⟨hty, hes⟩ := List.forall_mem_cons.mp hes
        exact ⟨some elem, ⟨elem, hty, elem, ⟨rfl, hscalar, by simp⟩, rfl,
          fun e he => ⟨hes e he, hscalar⟩⟩, rfl⟩

theorem checkArgs_eq_ok {callee : String} : ∀ {es : List Expr} {types : List DataType} {place : Nat},
    es.length = types.length →
    (names.checkArgs callee place es types = .ok () ↔ List.Forall₂ (HasType names) es types)
  | [], [], place, _ => by simp [checkArgs]
  | e :: es, ty :: types, place, hlen => by
    simp only [checkArgs, bind_eq_ok, exprType_eq_ok (e := e), List.forall₂_cons]
    constructor
    · rintro ⟨found, hfound, h⟩
      split at h
      · cases h
      · rename_i hsame
        rw [not_not.mp hsame] at hfound
        exact ⟨hfound, (checkArgs_eq_ok (Nat.succ.inj hlen)).mp h⟩
    · rintro ⟨hty, hes⟩
      exact ⟨ty, hty, by simpa using (checkArgs_eq_ok (Nat.succ.inj hlen)).mpr hes⟩

theorem elementsType_eq_ok : ∀ (es : List Expr) {first : DataType} {found : Option DataType},
    names.elementsType (some first) es = .ok found ↔
      some first = found ∧ ∀ e ∈ es, HasType names e first ∧ first.isScalar = true
  | [], first, found => by simp [elementsType]
  | e :: es, first, found => by
    simp only [elementsType, bind_eq_ok, exprType_eq_ok (e := e), elementType_eq_ok,
      elementsType_eq_ok es, List.forall_mem_cons]
    constructor
    · rintro ⟨_, hty, _, ⟨rfl, hscalar, hfirst⟩, rfl, hes⟩
      obtain rfl := hfirst first rfl
      exact ⟨rfl, ⟨hty, hscalar⟩, hes⟩
    · rintro ⟨rfl, ⟨hty, hscalar⟩, hes⟩
      exact ⟨first, hty, first, ⟨rfl, hscalar, by simp⟩, rfl, hes⟩

end

theorem checkCondition_eq_ok {e : Expr} {u : Unit} :
    names.checkCondition e = .ok u ↔ HasType names e .bool := by
  simp only [checkCondition, bind_eq_ok, exprType_eq_ok]
  constructor
  · rintro ⟨ty, hty, h⟩
    split at h
    · cases h
    · rename_i hbool
      exact not_not.mp hbool ▸ hty
  · exact fun h => ⟨.bool, h, rfl⟩

theorem returnFlow_eq_ok {value : Option Expr} :
    names.returnFlow result value = .ok flow ↔ StmtTyped result names (.ret value) flow := by
  cases value with
  | none =>
    simp only [returnFlow]
    constructor
    · intro h
      split at h
      · cases h
      · rename_i hvoid
        cases h
        exact .bareReturn (not_not.mp hvoid)
    · intro h
      cases h with
      | bareReturn hvoid =>
        rw [if_neg (not_not.mpr hvoid)]
        rfl
  | some e =>
    simp only [returnFlow, bind_eq_ok, exprType_eq_ok]
    constructor
    · rintro ⟨ty, hty, h⟩
      split at h
      · cases h
      · rename_i hsame
        cases h
        exact .ret (not_not.mp hsame ▸ hty)
    · intro h
      cases h with
      | ret hty =>
        refine ⟨result, hty, ?_⟩
        rw [if_neg (not_not.mpr rfl)]
        rfl

mutual

/-- The rules let a statement pass exactly if its live parts have types. -/
theorem stmtFlow_eq_ok : ∀ {names : Names} (stmt : Stmt) {flow : Flow},
    Names.stmtFlow result names stmt = .ok flow ↔ StmtTyped result names stmt flow
  | names, .expr e, flow => by
    simp only [stmtFlow, bind_eq_ok, exprType_eq_ok]
    constructor
    · rintro ⟨ty, hty, h⟩
      cases h
      exact .expr hty
    · intro h
      cases h with
      | expr hty => exact ⟨_, hty, rfl⟩
  | names, .ret value, flow => by
    simp only [stmtFlow]
    exact returnFlow_eq_ok
  | names, .branch condition block rest, flow => by
    simp only [stmtFlow, bind_eq_ok, checkCondition_eq_ok, stmtsFlow_eq_ok block]
    constructor
    · rintro ⟨_, hcond, first, hfirst, other, hother, h⟩
      obtain ⟨other, rfl, hrest⟩ := elseGoesOn_eq_ok.mp hother
      cases h
      have hbranch := StmtTyped.branch hcond hfirst hrest
      cases first <;> cases other <;> exact hbranch
    · intro h
      cases h with
      | @branch _ _ _ _ first other hcond hfirst hother =>
        refine ⟨(), hcond, first, hfirst, other.goesOn, elseGoesOn_eq_ok.mpr ⟨other, rfl, hother⟩, ?_⟩
        cases first <;> cases other <;> rfl
  | names, .whileLoop condition body, flow => by
    simp only [stmtFlow, bind_eq_ok, checkCondition_eq_ok, stmtsFlow_eq_ok body]
    constructor
    · rintro ⟨_, hcond, _, hbody, h⟩
      cases h
      exact .whileLoop hcond hbody
    · intro h
      cases h with
      | whileLoop hcond hbody => exact ⟨(), hcond, _, hbody, rfl⟩
  | names, .forIn index element sequence body, flow => by
    simp only [stmtFlow, bind_eq_ok, exprType_eq_ok]
    constructor
    · rintro ⟨ty, hty, h⟩
      cases ty with
      | sequence elem len =>
        dsimp only at h
        split at h
        · rename_i hlen
          cases h
          exact .skipped (hlen ▸ hty)
        · rename_i hlen
          exact .forIn hty hlen ((stmtsFlow_eq_ok _).mp h)
      | _ => cases h
    · intro h
      cases h with
      | skipped hty => exact ⟨_, hty, rfl⟩
      | forIn hty hlen hbody =>
        refine ⟨_, hty, ?_⟩
        simp only [if_neg hlen]
        exact (stmtsFlow_eq_ok _).mpr hbody

theorem stmtsFlow_eq_ok : ∀ {names : Names} (stmts : List Stmt) {flow : Flow},
    Names.stmtsFlow result names stmts = .ok flow ↔ BlockTyped result names stmts flow
  | names, [], flow => by
    simp only [stmtsFlow, Except.ok.injEq]
    exact ⟨fun h => h ▸ .nil, fun h => by cases h; rfl⟩
  | names, stmt :: stmts, flow => by
    simp only [stmtsFlow, bind_eq_ok, stmtFlow_eq_ok stmt]
    constructor
    · rintro ⟨first, hfirst, h⟩
      cases first with
      | terminated =>
        cases h
        exact .last hfirst
      | continues => exact .next hfirst ((stmtsFlow_eq_ok _).mp h)
    · intro h
      cases h with
      | last hfirst => exact ⟨_, hfirst, rfl⟩
      | next hfirst hrest => exact ⟨_, hfirst, (stmtsFlow_eq_ok _).mpr hrest⟩

theorem elseGoesOn_eq_ok : ∀ {names : Names} {rest : ElseChain} {goes : Bool},
    Names.elseGoesOn result names rest = .ok goes ↔
      ∃ flow, goes = flow.goesOn ∧ ElseTyped result names rest flow
  | names, .none, goes => by
    simp only [elseGoesOn, Except.ok.injEq]
    constructor
    · rintro rfl
      exact ⟨.continues, rfl, .none⟩
    · rintro ⟨flow, rfl, h⟩
      cases h
      rfl
  | names, .otherwise block, goes => by
    simp only [elseGoesOn, bind_eq_ok, stmtsFlow_eq_ok block]
    constructor
    · rintro ⟨flow, hflow, h⟩
      cases h
      exact ⟨flow, rfl, .otherwise hflow⟩
    · rintro ⟨flow, rfl, h⟩
      cases h with
      | otherwise hflow => exact ⟨flow, hflow, rfl⟩
  | names, .elseIf condition block rest, goes => by
    simp only [elseGoesOn, bind_eq_ok, checkCondition_eq_ok, stmtsFlow_eq_ok block]
    constructor
    · rintro ⟨_, hcond, first, hfirst, other, hother, h⟩
      obtain ⟨other, rfl, hrest⟩ := elseGoesOn_eq_ok.mp hother
      cases h
      refine ⟨first.join other, ?_, .elseIf hcond hfirst hrest⟩
      cases first <;> cases other <;> rfl
    · rintro ⟨flow, rfl, h⟩
      cases h with
      | @elseIf _ _ _ _ first other hcond hfirst hother =>
        refine ⟨(), hcond, first, hfirst, other.goesOn, elseGoesOn_eq_ok.mpr ⟨other, rfl, hother⟩, ?_⟩
        cases first <;> cases other <;> rfl

end

end Names

end SsaCompiler
