import SsaCompiler.Proofs.Building.Steps
import SsaCompiler.Proofs.Lowering.Progress

/-!
Lowering does what the rules of the language say, whatever code was emitted before, and with or
without the guard of divisions. It fails with the error of the rules; otherwise an expression gets
the type, and control goes on behind a statement, as the rules say.
-/
namespace SsaCompiler.Lowering

open Ir LowerM

variable {ctx : LowerContext} {l r : Value}

/-- The value has the type of the rules. -/
def Gives (tv : TypedValue) (ty : DataType) : Prop := tv.type = ty

/-- The result of an operation gets the type that it is taken for. -/
theorem judged_value (f : Builder → Except BuildError (Value × Builder)) (type : DataType) :
    Judged (do return ⟨← LowerM.build f, type⟩) Gives fun _ => .ok type :=
  .after (.build f) fun _ => .pure rfl

theorem judged_call (callee : String) (sig : Signature) (args : List Value) :
    Judged (LowerM.call callee sig args) Gives fun _ => .ok sig.result := by
  intro s
  have hcall := Skips.build (·.call callee args sig.result.toIr) s
  obtain ⟨⟨r, s1⟩, hrun⟩ : ∃ p, (LowerM.build (·.call callee args sig.result.toIr)).run.run s = p :=
    ⟨_, rfl⟩
  unfold LowerM.call
  rw [hrun] at hcall
  cases r with
  | error e =>
    rw [run_bind_error hrun]
    exact hcall.imp_right fun h => by cases h
  | ok v =>
    rw [run_bind_ok hrun]
    cases v with
    | some v => exact ⟨hcall.1, _, rfl, rfl⟩
    | none =>
      obtain ⟨b, hpush, _⟩ := of_yields_build hrun
      have hresult : sig.result = .void := by
        by_contra hne
        have hvalue := (Builder.pushes_of_push hpush).1
        simp [Builder.newInstr, DataType.toIr_ne_void hne] at hvalue
      exact ⟨hcall.1, _, rfl, hresult.symm⟩

theorem judged_division : Judged (floatDivision ctx l r) Gives fun _ => .ok .float := by
  unfold floatDivision
  split
  · exact judged_value _ _
  exact .after (.internString _) fun _ => .after (.declareRoutine _) fun _ =>
    .after (.declareRoutine _) fun _ => .after (.build _) fun _ => .after (.build _) fun _ =>
    .after (.build _) fun _ => .after (.build _) fun _ => .after (.emit _) fun _ =>
    .after (.edit _) fun _ => .after (.build _) fun _ => .after (.build _) fun _ =>
    .after (.emit _) fun _ => .after (.edit _) fun _ => .after (.build _) fun _ =>
    .after (.emit _) fun _ => .after (.edit _) fun _ => .after (.build _) fun _ => .pure rfl

theorem judged_builtin (op : Operator) (ty : DataType) :
    Judged (builtin ctx op ty l r) Gives fun _ => Names.builtinType op ty := by
  cases ty with
  | int =>
    cases op with
    | custom c => exact .throw
    | _ => exact judged_value _ _
  | float =>
    cases op with
    | custom c => exact .throw
    | div => exact judged_division
    | _ => exact judged_value _ _
  | string =>
    cases op with
    | equal | notEqual => exact judged_value _ _
    | _ => exact .throw
  | bool =>
    cases op with
    | equal | notEqual => exact judged_value _ _
    | _ => exact .throw
  | void => cases op <;> exact .throw
  | sequence elem len => cases op <;> exact .throw

theorem judged_builtinBinary (op : Operator) (lhs rhs : TypedValue) :
    Judged (builtinBinary ctx op lhs rhs) Gives fun _ => Names.operatorType op lhs.type rhs.type := by
  unfold builtinBinary Names.operatorType
  split
  · exact .throw
  · exact judged_builtin op lhs.type

theorem run_signature {α : Type} (name : String) (f : Option Signature → LowerM α) (s : Lowering) :
    (LowerM.signature? name >>= f).run.run s = (f (s.names.signature? name)).run.run s := rfl

/-- A type error of a built-in operator where an overload exists. -/
theorem Judged.orMissing {x : LowerM TypedValue} {verdict : Except CompileError DataType}
    (hx : Judged x Gives fun _ => verdict) (name : String) (operands : List DataType) :
    Judged (LowerM.orMissing x name operands) Gives
      fun _ => Names.orMissingType name operands verdict := by
  intro s
  have hs := hx s
  obtain ⟨⟨r, s1⟩, hrun⟩ : ∃ p, x.run.run s = p := ⟨_, rfl⟩
  unfold LowerM.orMissing
  rw [hrun] at hs
  cases r with
  | ok tv =>
    obtain ⟨hpasses, ty, rfl, hty⟩ := hs
    rw [run_tryCatch_ok hrun]
    exact ⟨hpasses, ty, rfl, hty⟩
  | error e =>
    rw [run_tryCatch_error hrun]
    rcases hs with ⟨broken, rfl⟩ | rfl
    · exact .inl ⟨broken, rfl⟩
    · cases e <;> exact .inr rfl

theorem judged_binary (op : Operator) (lhs rhs : TypedValue) :
    Judged (LowerM.binary ctx op lhs rhs) Gives (·.binaryType op lhs.type rhs.type) := by
  intro s
  have hbuiltin : Judged (builtinBinary ctx op lhs rhs) Gives _ := judged_builtinBinary op lhs rhs
  dsimp only [LowerM.binary, Names.binaryType]
  rw [run_signature]
  cases s.names.signature? ("binary_" ++ op.text) with
  | none => exact hbuiltin s
  | some sig =>
    dsimp only
    split
    · exact judged_call _ sig _ s
    · exact hbuiltin.orMissing _ _ s

theorem judged_unary (op : Char) (operand : TypedValue) :
    Judged (LowerM.unary op operand) Gives (·.unaryType op operand.type) := by
  intro s
  dsimp only [LowerM.unary, Names.unaryType]
  rw [run_signature]
  cases s.names.signature? ("unary_" ++ String.singleton op) with
  | none => exact Judged.throw s
  | some sig =>
    dsimp only
    split
    · exact judged_call _ sig _ s
    · exact Judged.throw s

theorem judged_elementType (before : Option DataType) (ty : DataType) :
    Judged (elementType before ty) Eq fun _ => Names.elementType before ty := by
  unfold LowerM.elementType Names.elementType
  split
  · exact .throw
  · cases before with
    | none => exact .pure rfl
    | some first =>
      dsimp only
      split
      · exact .throw
      · exact .pure rfl

theorem Skips.storeElements (elem : Ty) (array : Value) (i : Nat) (vs : List Value) :
    Skips (LowerM.storeElements elem array i vs) := by
  induction vs generalizing i with
  | nil => exact .pure trivial
  | cons v vs ih => exact .after (.build _) fun _ => .after (.emit _) fun _ => ih (i + 1)

mutual

theorem judged_expr : ∀ e, Judged (lowerExpr ctx e) Gives (·.exprType e)
  | .string text => by
    simp only [lowerExpr, Names.exprType]
    exact .after (.internString _) fun _ => .pure rfl
  | .number (.int n) => by
    simp only [lowerExpr, Names.exprType]
    exact .pure rfl
  | .number (.float x) => by
    simp only [lowerExpr, Names.exprType]
    exact .pure rfl
  | .bool b => by
    simp only [lowerExpr, Names.exprType]
    exact .pure rfl
  | .variable name => fun s => by
    simp only [lowerExpr, Names.exprType]
    rw [run_bind_ok (show Yields get s s s from rfl)]
    simp only [names]
    cases s.scope.lookup? name with
    | some v => exact Judged.pure rfl s
    | none => exact Judged.throw s
  | .binary op lhs rhs => by
    simp only [lowerExpr, Names.exprType]
    refine (judged_expr lhs).bind fun l lty hl => (judged_expr rhs).bind fun r rty hr => ?_
    subst hl hr
    exact judged_binary op l r
  | .unary op operand => by
    simp only [lowerExpr, Names.exprType]
    refine (judged_expr operand).bind fun v ty hv => ?_
    subst hv
    exact judged_unary op v
  | .call callee args => fun s => by
    simp only [lowerExpr, Names.exprType]
    rw [run_signature]
    cases s.names.signature? callee with
    | none => exact Judged.throw s
    | some sig =>
      dsimp only
      split
      · exact Judged.throw s
      · exact (judged_args args sig.params 1).bind (fun values _ _ => judged_call callee sig values) s
  | .sequence elements => by
    simp only [lowerExpr, Names.exprType]
    refine (judged_elements none elements).bind fun p elem? ⟨helem, hlen⟩ => ?_
    obtain ⟨found, values⟩ := p
    obtain rfl : found = elem? := helem
    cases found with
    | none => exact .throw
    | some elem =>
      refine .after (.build _) fun _ => .after (.storeElements _ _ _ _) fun _ => ?_
      exact .pure (by rw [← hlen]; rfl)

theorem judged_args {callee : String} : ∀ es types place,
    Judged (lowerArgs ctx callee place es types) (fun _ _ => True)
      (·.checkArgs callee place es types)
  | [], _, _ => by
    simp only [lowerArgs, Names.checkArgs]
    exact .pure trivial
  | _ :: _, [], _ => by
    simp only [lowerArgs, Names.checkArgs]
    exact .pure trivial
  | e :: es, ty :: types, place => by
    simp only [lowerArgs, Names.checkArgs]
    refine (judged_expr e).bind fun v found hv => ?_
    subst hv
    split
    · exact .throw
    · exact (judged_args es types (place + 1)).andThen fun _ _ _ => .pure trivial

theorem judged_elements : ∀ before es,
    Judged (lowerElements ctx before es) (fun p elem? => p.1 = elem? ∧ p.2.length = es.length)
      (·.elementsType before es)
  | before, [] => by
    simp only [lowerElements, Names.elementsType]
    exact .pure ⟨rfl, rfl⟩
  | before, e :: es => by
    simp only [lowerElements, Names.elementsType]
    refine (judged_expr e).bind fun v ty hv => ?_
    subst hv
    refine (judged_elementType before v.type).bind fun elem expected helem => ?_
    subst helem
    exact (judged_elements (some elem) es).andThen fun p elem? h => .pure ⟨h.1, by simp [h.2]⟩

end

theorem judged_condition (e : Expr) :
    Judged (lowerCondition ctx e) (fun _ _ => True) (·.checkCondition e) := by
  unfold lowerCondition Names.checkCondition
  refine (judged_expr e).bind fun v ty hv => ?_
  subst hv
  split
  · exact .throw
  · exact .pure trivial

theorem judged_return (value : Option Expr) :
    Judged (lowerReturn ctx value) Eq (·.returnFlow ctx.result value) := by
  have hret : ∀ v, Judged (do ret v; return Flow.terminated) Eq fun _ => .ok .terminated :=
    fun v => .after (.emit _) fun _ => .pure rfl
  cases value with
  | none =>
    simp only [lowerReturn, Names.returnFlow]
    split
    · exact .throw
    · exact hret none
  | some e =>
    simp only [lowerReturn, Names.returnFlow]
    refine (judged_expr e).bind fun v ty hv => ?_
    subst hv
    split
    · exact .throw
    · exact hret _

end SsaCompiler.Lowering
