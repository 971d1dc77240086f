import SsaCompiler.Proofs.Building.Guards
import SsaCompiler.Proofs.Lowering.Flows
import SsaCompiler.Proofs.Typing.Derivations

/-!
Lowering as a check of types. It succeeds on an expression exactly if a type can be derived for it,
and on a statement exactly if its live parts have types; the type, the flow of control and the error
depend on nothing but the signatures of functions, the types of variables and the result of the
function. The value of an expression has the representation of its type.
-/
namespace SsaCompiler

open Ir LowerM

namespace Ir.Builder

variable {b b' : Builder} {ty : Ty} {op : Op}

theorem regTypes_push {w : Option Value} (h : b.push ty op = .ok (w, b')) :
    b'.body.regTypes = b.body.regTypes ++ (w.map fun _ => ty).toList ∧
      ((w = none ∧ ty = .void) ∨ w = some (.reg b.body.regTypes.length)) := by
  unfold push append updateCurrent at h
  by_cases hty : ty = .void
  · rw [if_pos hty] at h
    split at h
    · cases h
      exact ⟨(List.append_nil _).symm, .inl ⟨rfl, hty⟩⟩
    · cases h
  · rw [if_neg hty] at h
    dsimp only [Body.newReg] at h
    split at h
    · cases h
      exact ⟨rfl, .inr rfl⟩
    · cases h

/-- A new register has the type that it was pushed with. -/
theorem typeOf_push {v : Value} (h : b.push ty op = .ok (some v, b')) : b'.finish.typeOf v = ty := by
  obtain ⟨htypes, ⟨hnone, _⟩ | heq⟩ := regTypes_push h
  · cases hnone
  · cases heq
    simp [Function.typeOf, finish, htypes]

theorem typeOf_pushValue {v : Value} (hty : ty ≠ .void) (h : b.pushValue ty op = .ok (v, b')) :
    b'.finish.typeOf v = ty := by
  obtain ⟨⟨w, c⟩, hw, heq⟩ := bind_eq_ok.mp h
  cases heq
  cases w with
  | none =>
    obtain ⟨_, ⟨_, hvoid⟩ | hsome⟩ := regTypes_push hw
    · exact absurd hvoid hty
    · cases hsome
  | some v => exact typeOf_push hw

theorem typeOf_phi {v : Value} {incoming : List (Value × BlockId)}
    (h : b.phi ty incoming = .ok (v, b')) : b'.finish.typeOf v = ty := by
  unfold phi updateCurrent at h
  dsimp only [Body.newReg] at h
  split at h
  · cases h
    simp [Function.typeOf, finish, Body.updateBlock]
  · cases h

theorem regTypes_alloca {v : Value} (h : b.alloca ty = .ok (v, b')) :
    v = .reg b.body.regTypes.length ∧ b'.body.regTypes = b.body.regTypes ++ [.ptr ty] := by
  unfold alloca at h
  dsimp only [Body.newReg] at h
  split at h
  · cases h
  · cases h
    exact ⟨rfl, rfl⟩

end Ir.Builder

namespace Lowering

variable {s s' : Lowering} {ctx : LowerContext} {tv : TypedValue} {l r : Value}

/-- The value has the representation of its type, unless there is none. -/
def Represents (s : Lowering) (tv : TypedValue) : Prop :=
  tv.type = .void ∨ s.builder.finish.typeOf tv.value = tv.type.toIr

/-- All values in scope have the representations of their types. -/
def ScopeTyped (s : Lowering) : Prop :=
  ∀ name tv, s.scope.lookup? name = some tv → s.Represents tv

theorem represents_value {type : DataType} {ty : Ty} {op : Op} (hty : ty = type.toIr)
    (hne : ty ≠ .void)
    (hy : Yields (do return ⟨← LowerM.build (·.pushValue ty op), type⟩) s tv s') :
    s'.Represents tv := by
  simp only [yields_bind, yields_pure] at hy
  obtain ⟨v, s1, hv, rfl, rfl⟩ := hy
  obtain ⟨b, hb, rfl⟩ := of_yields_build hv
  exact .inr ((Builder.typeOf_pushValue hne hb).trans hty)

theorem represents_arith {op : BinOp} {type : DataType} (hty : op.ty = type.toIr)
    (hne : op.ty ≠ .void) (hy : Yields (arith op type l r) s tv s') : s'.Represents tv :=
  represents_value hty hne hy

theorem represents_icmp {pred : IntPred} (hy : Yields (icmp pred l r) s tv s') :
    s'.Represents tv :=
  represents_value rfl (by decide) hy

theorem represents_fcmp {pred : FloatPred} (hy : Yields (fcmp pred l r) s tv s') :
    s'.Represents tv :=
  represents_value rfl (by decide) hy

theorem represents_call {callee : String} {sig : Signature} {args : List Value}
    (hy : Yields (LowerM.call callee sig args) s tv s') : s'.Represents tv := by
  obtain ⟨w, s1, hw, hy⟩ := yields_bind.mp hy
  obtain ⟨b, hb, rfl⟩ := of_yields_build hw
  cases w with
  | none =>
    obtain ⟨rfl, rfl⟩ := yields_pure.mp hy
    exact .inl rfl
  | some v =>
    obtain ⟨rfl, rfl⟩ := yields_pure.mp hy
    exact .inr (Builder.typeOf_push hb)

theorem represents_division (hy : Yields (floatDivision ctx l r) s tv s') : s'.Represents tv := by
  obtain ⟨_, hy⟩ | ⟨_, result, rfl, hsteps⟩ := of_yields_floatDivision hy
  · exact represents_arith rfl (by decide) hy
  · -- the quotient comes out of the phi where the two blocks meet
    cases hsteps
    next hphi =>
      obtain ⟨b, hb, rfl⟩ := of_yields_build hphi
      exact .inr (Builder.typeOf_phi hb)

theorem represents_builtin {op : Operator} {ty : DataType}
    (hy : Yields (builtin ctx op ty l r) s tv s') : s'.Represents tv := by
  unfold builtin at hy
  split at hy
  case h_10 => exact represents_division hy
  case h_21 | h_22 => exact absurd hy not_yields_throw
  case h_1 | h_2 | h_3 | h_4 | h_7 | h_8 | h_9 => exact represents_arith rfl (by decide) hy
  case h_11 | h_12 | h_13 | h_14 => exact represents_fcmp hy
  all_goals exact represents_icmp hy

theorem represents_binary {op : Operator} {lhs rhs : TypedValue}
    (hy : Yields (LowerM.binary ctx op lhs rhs) s tv s') : s'.Represents tv := by
  have hbuiltin : ∀ {s s'}, Yields (builtinBinary ctx op lhs rhs) s tv s' → s'.Represents tv :=
    fun hy => represents_builtin (yields_ite_throw.mp hy).2
  obtain ⟨sig?, s1, _, hy⟩ := yields_bind.mp hy
  cases sig? with
  | none => exact hbuiltin hy
  | some sig =>
    dsimp only at hy
    split at hy
    · exact represents_call hy
    · exact hbuiltin (yields_orMissing.mp hy)

theorem represents_unary {op : Char} {operand : TypedValue}
    (hy : Yields (LowerM.unary op operand) s tv s') : s'.Represents tv := by
  obtain ⟨sig?, s1, _, hy⟩ := yields_bind.mp hy
  cases sig? with
  | none => exact absurd hy not_yields_throw
  | some sig =>
    dsimp only at hy
    split at hy
    · exact represents_call hy
    · exact absurd hy not_yields_throw

theorem regTypes_storeElements {elem : Ty} {array : Value} {i : Nat} {vs : List Value} {u : Unit}
    (hy : Yields (storeElements elem array i vs) s u s') :
    s.builder.body.regTypes <+: s'.builder.body.regTypes := by
  induction vs generalizing i s with
  | nil =>
    obtain ⟨_, rfl⟩ := yields_pure.mp hy
    exact List.prefix_rfl
  | cons v vs ih =>
    simp only [storeElements, yields_bind] at hy
    obtain ⟨slot, s1, hslot, _, s2, hstore, hrest⟩ := hy
    obtain ⟨b1, hb1, rfl⟩ := of_yields_build hslot
    obtain ⟨b2, hb2, rfl⟩ := of_yields_emit hstore
    obtain ⟨⟨w1, c1⟩, hw1, heq1⟩ := bind_eq_ok.mp hb1
    obtain ⟨⟨w2, c2⟩, hw2, heq2⟩ := bind_eq_ok.mp hb2
    cases heq1
    cases heq2
    have hfirst : s.builder.body.regTypes <+: b1.body.regTypes :=
      (Builder.regTypes_push hw1).1 ▸ List.prefix_append _ _
    have hsecond : b1.body.regTypes <+: b2.body.regTypes :=
      (Builder.regTypes_push hw2).1 ▸ List.prefix_append _ _
    exact (hfirst.trans hsecond).trans (ih hrest)

theorem represents_sequence {elem : DataType} {vs : List Value}
    (hy : Yields (buildSequence elem vs) s tv s') : s'.Represents tv := by
  simp only [buildSequence, yields_bind, yields_pure] at hy
  obtain ⟨array, s1, halloca, _, s2, hstores, rfl, rfl⟩ := hy
  obtain ⟨b1, hb1, rfl⟩ := of_yields_build halloca
  obtain ⟨rfl, htypes⟩ := Builder.regTypes_alloca hb1
  obtain ⟨rest, hrest⟩ := regTypes_storeElements hstores
  refine .inr ?_
  simp [Function.typeOf, Builder.finish, ← hrest, htypes, DataType.toIr]

/-- The value of an expression has the representation of its type. -/
theorem represents_expr (hscope : s.ScopeTyped) {e : Expr}
    (hy : Yields (lowerExpr ctx e) s tv s') : s'.Represents tv := by
  cases e with
  | string text =>
    simp only [lowerExpr, yields_bind, yields_pure] at hy
    obtain ⟨v, s1, hv, rfl, rfl⟩ := hy
    obtain ⟨rfl, rfl⟩ := yields_internString.mp hv
    refine .inr ?_
    unfold Module.internString
    split <;> rfl
  | number value =>
    cases value with
    | int n =>
      simp only [lowerExpr] at hy
      obtain ⟨rfl, rfl⟩ := yields_pure.mp hy
      exact .inr rfl
    | float x =>
      simp only [lowerExpr] at hy
      obtain ⟨rfl, rfl⟩ := yields_pure.mp hy
      exact .inr rfl
  | bool b =>
    simp only [lowerExpr] at hy
    obtain ⟨rfl, rfl⟩ := yields_pure.mp hy
    exact .inr rfl
  | «variable» name =>
    simp only [lowerExpr, yields_bind, yields_get] at hy
    obtain ⟨_, _, ⟨rfl, rfl⟩, hy⟩ := hy
    split at hy
    · rename_i v hv
      obtain ⟨rfl, rfl⟩ := yields_pure.mp hy
      exact hscope name _ hv
    · exact absurd hy not_yields_throw
  | binary op lhs rhs =>
    simp only [lowerExpr, yields_bind] at hy
    obtain ⟨_, _, _, _, _, _, hy⟩ := hy
    exact represents_binary hy
  | unary op operand =>
    simp only [lowerExpr, yields_bind] at hy
    obtain ⟨_, _, _, hy⟩ := hy
    exact represents_unary hy
  | call callee args =>
    simp only [lowerExpr, yields_bind] at hy
    obtain ⟨sig?, _, _, hy⟩ := hy
    cases sig? with
    | none => exact absurd hy not_yields_throw
    | some sig =>
      obtain ⟨_, _, _, hcall⟩ := yields_bind.mp (yields_ite_throw.mp hy).2
      exact represents_call hcall
  | sequence elements =>
    simp only [lowerExpr, yields_bind] at hy
    obtain ⟨⟨elem?, values⟩, _, _, hy⟩ := hy
    cases elem? with
    | none => exact absurd hy not_yields_throw
    | some elem => exact represents_sequence hy

section Verdicts

variable {α β : Type} {x : LowerM α} {Q : α → β → Lowering → Prop} {verdict : Except CompileError β}

/-- A step that follows a verdict gives its value or its error. -/
theorem Follows.result {f : α → β} (h : Follows x s Q verdict)
    (hQ : ∀ a b s', Q a b s' → f a = b) : (x.run.run s).1.map f = verdict := by
  cases verdict with
  | error e =>
    obtain ⟨s', hrun⟩ := h
    rw [hrun]
    rfl
  | ok b =>
    obtain ⟨a, s', hy, hq⟩ := h
    rw [show x.run.run s = _ from hy]
    exact congrArg Except.ok (hQ a b s' hq)

end Verdicts

theorem Ready.result_expr (h : s.Ready) (e : Expr) :
    ((lowerExpr ctx e).run.run s).1.map (·.type) = s.names.exprType e :=
  (h.follows_expr e).result fun _ _ _ hty => hty

theorem Ready.result_stmt (h : s.Ready) (stmt : Stmt) :
    ((lowerStmt ctx stmt).run.run s).1 = s.names.stmtFlow ctx.result stmt := by
  have hresult := (h.follows_stmt ctx stmt).result (f := id) fun _ _ _ hflow => hflow
  rwa [Except.map_id] at hresult

theorem exists_yields_iff {α : Type} {x : LowerM α} {a : α} :
    (∃ s', Yields x s a s') ↔ (x.run.run s).1 = .ok a := by
  constructor
  · rintro ⟨s', hy⟩
    rw [show x.run.run s = _ from hy]
  · intro h
    exact ⟨(x.run.run s).2, Prod.ext h rfl⟩

theorem exists_yields_map_iff {α β : Type} {x : LowerM α} {f : α → β} {b : β} :
    (∃ a s', Yields x s a s' ∧ f a = b) ↔ (x.run.run s).1.map f = .ok b := by
  constructor
  · rintro ⟨a, s', hy, rfl⟩
    rw [show x.run.run s = _ from hy]
    rfl
  · intro h
    cases hres : (x.run.run s).1 with
    | error e =>
      rw [hres] at h
      cases h
    | ok a =>
      rw [hres] at h
      obtain ⟨s', hy⟩ := exists_yields_iff.mpr hres
      exact ⟨a, s', hy, Except.ok.inj h⟩

/-- The two states give the same signatures to functions and the same types to variables. -/
def SameNames (s s2 : Lowering) : Prop :=
  (∀ name, s2.names.signature? name = s.names.signature? name) ∧
    ∀ name, s2.names.type? name = s.names.type? name

theorem SameNames.names_eq {s2 : Lowering} (h : s.SameNames s2) : s2.names = s.names :=
  congrArg₂ Names.mk (funext h.1) (funext h.2)

/-- Wherever code can be emitted, an expression is lowered exactly to the types that can be derived
for it, and a statement exactly with the flow of control that can be derived. The type, the flow and
the error are the same in all states and settings that give the same signatures to functions, the
same types to variables and the same result to the function. If the values in scope have the
representations of their types, then so has the value of an expression. -/
theorem Ready.lowering_follows_rules (s : Lowering) (ctx : LowerContext) (hs : s.Ready) :
    (∀ e : Expr,
      (∀ ty, (∃ tv s', Yields (lowerExpr ctx e) s tv s' ∧ tv.type = ty) ↔ HasType s.names e ty) ∧
      (∀ (s₂ : Lowering) (ctx₂ : LowerContext), s₂.Ready → s.SameNames s₂ →
        ((lowerExpr ctx₂ e).run.run s₂).1.map (·.type) =
          ((lowerExpr ctx e).run.run s).1.map (·.type)) ∧
      ∀ tv s', s.ScopeTyped → Yields (lowerExpr ctx e) s tv s' →
        tv.type = .void ∨ s'.builder.finish.typeOf tv.value = tv.type.toIr) ∧
    ∀ stmt : Stmt,
      (∀ flow, (∃ s', Yields (lowerStmt ctx stmt) s flow s') ↔
        StmtTyped ctx.result s.names stmt flow) ∧
      ∀ (s₂ : Lowering) (ctx₂ : LowerContext), s₂.Ready → s.SameNames s₂ →
        ctx₂.result = ctx.result →
        ((lowerStmt ctx₂ stmt).run.run s₂).1 = ((lowerStmt ctx stmt).run.run s).1 := by
  refine ⟨fun e => ⟨fun ty => ?_, fun s₂ ctx₂ hs₂ hsame => ?_, fun tv s' hscope hy => ?_⟩,
    fun stmt => ⟨fun flow => ?_, fun s₂ ctx₂ hs₂ hsame hresult => ?_⟩⟩
  · rw [exists_yields_map_iff, hs.result_expr, Names.exprType_eq_ok]
  · rw [hs.result_expr, hs₂.result_expr, hsame.names_eq]
  · exact represents_expr hscope hy
  · rw [exists_yields_iff, hs.result_stmt, Names.stmtFlow_eq_ok]
  · rw [hs.result_stmt, hs₂.result_stmt, hsame.names_eq, hresult]

/-- The start of a function of three numbers and a bound. -/
def scanning : Lowering where
  module := Module.empty "m"
  builder? := some (.start ⟨"scan", [⟨"xs", .ptr (.array .i64 3)⟩, ⟨"most", .i64⟩], .i64, none⟩)
  scope := ⟨[("most", ⟨.param 1, .int⟩), ("xs", ⟨.param 0, .sequence .int 3⟩)], []⟩

/-- Returns the place of the first number above the bound. -/
def firstAbove : Stmt :=
  .forIn (some "i") "x" (.variable "xs")
    [.branch (.binary .greater (.variable "x") (.variable "most"))
      [.ret (some (.variable "i"))] .none]

theorem scanning_follows_rules : scanning.Ready ∧ scanning.ScopeTyped ∧
    (∃ s', Yields (lowerStmt ⟨true, .int⟩ firstAbove) scanning .continues s') ∧
    ∃ tv s', Yields (lowerExpr ⟨true, .int⟩ (.sequence [.variable "most"])) scanning tv s' ∧
      tv.type = .sequence .int 1 ∧ s'.builder.finish.typeOf tv.value = .ptr (.array .i64 1) := by
  have hready : scanning.Ready := ⟨by decide, by decide⟩
  have hscope : scanning.ScopeTyped := by
    intro name tv hlookup
    by_cases hmost : name = "most"
    · subst hmost
      cases hlookup
      exact .inr rfl
    · by_cases hxs : name = "xs"
      · subst hxs
        cases hlookup
        exact .inr rfl
      · simp [Scope.lookup?, scanning, List.lookup_cons, beq_eq_false_iff_ne.mpr hmost,
          beq_eq_false_iff_ne.mpr hxs] at hlookup
  obtain ⟨hexpr, hstmt⟩ := Ready.lowering_follows_rules scanning ⟨true, .int⟩ hready
  have hmost : HasType scanning.names (.variable "most") .int := .name rfl
  have hinside : HasType (scanning.names.inLoop (some "i") "x" .int)
      (.binary .greater (.variable "x") (.variable "most")) .bool :=
    .builtin (.name rfl) (.name rfl) (fun _ hsig => by cases hsig) (.order (by decide) (by decide))
  have habove : StmtTyped .int scanning.names firstAbove .continues :=
    .forIn (.name rfl) (by decide) (.next (.branch hinside (.last (.ret (.name rfl))) .none) .nil)
  obtain ⟨hlowered, _, hrepr⟩ := hexpr (.sequence [.variable "most"])
  obtain ⟨tv, s', hy, hty⟩ := (hlowered (.sequence .int 1)).mpr
    (.sequence (by simp) rfl (by simpa using hmost))
  refine ⟨hready, hscope, ((hstmt firstAbove).1 .continues).mpr habove, tv, s', hy, hty, ?_⟩
  rcases hrepr tv s' hscope hy with hvoid | hvalue
  · rw [hty] at hvoid
    cases hvoid
  · rw [hvalue, hty]
    rfl

end Lowering

end SsaCompiler
