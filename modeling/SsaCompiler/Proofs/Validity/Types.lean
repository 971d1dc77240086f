import SsaCompiler.Proofs.Validity.Verify

/-!
What the verifier asks of the operands and the type of an operation, and which changes of operands
keep it satisfied.
-/
namespace SsaCompiler.Ir

namespace Function

variable {f : Function} {m : Module} {ty : Ty} {op : Op} {v w : Value} {r : Reg}

/-- The type rule of an operation whose result has type `ty`. -/
def OpTyped (f : Function) (m : Module) (ty : Ty) : Op → Prop
  | .binary op l r => f.typeOf l = op.ty ∧ f.typeOf r = op.ty ∧ ty = op.ty
  | .icmp _ l r =>
    f.typeOf l = f.typeOf r ∧ ((f.typeOf l).isInteger ∨ (f.typeOf l).pointee?.isSome)
  | .fcmp _ l r => f.typeOf l = .double ∧ f.typeOf r = .double
  | .call callee args => m.calleeSignature? callee = some (args.map f.typeOf, ty)
  | .phi incoming => ∀ e ∈ incoming, f.typeOf e.1 = ty
  | .alloca t => ty = .ptr t
  | .load p => f.typeOf p = .ptr ty
  | .store v p => f.typeOf p = .ptr (f.typeOf v)
  | .elementPtr base i =>
    ∃ elem n, f.typeOf base = .ptr (.array elem n) ∧ f.typeOf i = .i64 ∧ ty = .ptr elem

/-- A parameter or a string that is an operand exists. -/
def Exists (f : Function) (m : Module) (v : Value) : Prop := f.checkExists m v = .ok ()

theorem exists_iff : f.Exists m v ↔
    (∀ i, v = .param i → i < f.params.length) ∧ ∀ i, v = .global i → i < m.strings.length := by
  unfold Exists
  cases v <;> simp [checkExists, require_eq_ok]

theorem operandTypes_eq_ok {vs : List Value} {types : List Ty} :
    f.operandTypes m vs = .ok types ↔ (∀ v ∈ vs, f.Exists m v) ∧ types = vs.map f.typeOf := by
  induction vs generalizing types with
  | nil => simp [operandTypes, eq_comm]
  | cons v vs ih =>
    simp only [operandTypes, operandType, bind_eq_ok, ih, List.forall_mem_cons, List.map_cons,
      pure, Except.pure, Except.ok.injEq]
    constructor
    · rintro ⟨t, ⟨⟨⟩, hv, rfl⟩, ts, ⟨hvs, rfl⟩, rfl⟩
      exact ⟨⟨hv, hvs⟩, rfl⟩
    · rintro ⟨⟨hv, hvs⟩, rfl⟩
      exact ⟨_, ⟨(), hv, rfl⟩, _, ⟨hvs, rfl⟩, rfl⟩

theorem pointee?_eq_some {t u : Ty} : t.pointee? = some u ↔ t = .ptr u := by
  cases t <;> simp [Ty.pointee?]

/-- An operation passes if its operands exist and its type rule holds. -/
theorem checkOp_eq_ok :
    f.checkOp m ty op = .ok () ↔ (∀ v ∈ op.operands, f.Exists m v) ∧ f.OpTyped m ty op := by
  unfold checkOp
  simp only [bind_eq_ok, operandTypes_eq_ok]
  constructor
  · rintro ⟨types, ⟨hex, rfl⟩, h⟩
    refine ⟨hex, ?_⟩
    cases op with
    | binary op l r => simpa only [OpTyped, require_eq_ok] using h
    | icmp pred l r => simpa only [OpTyped, require_eq_ok] using h
    | fcmp pred l r => simpa only [OpTyped, require_eq_ok] using h
    | call callee args =>
      cases hsig : m.calleeSignature? callee with
      | none => simp [hsig, throw, throwThe, MonadExceptOf.throw] at h
      | some sig =>
        simp only [hsig, seq_eq_ok, require_eq_ok] at h
        simp only [OpTyped, hsig, Option.some.injEq]
        exact Prod.ext h.1 h.2
    | phi incoming =>
      intro e he
      exact require_eq_ok.mp h _ (List.mem_map_of_mem (List.mem_map_of_mem he))
    | alloca t => simpa only [OpTyped, require_eq_ok] using h
    | load p => simpa only [OpTyped, require_eq_ok, pointee?_eq_some] using h
    | store v p => simpa only [OpTyped, require_eq_ok, pointee?_eq_some] using h
    | elementPtr base i =>
      simp only [OpTyped]
      dsimp only at h
      split at h
      · rename_i elem n heq
        simp only [require_eq_ok, pointee?_eq_some] at h
        exact ⟨elem, n, heq, h⟩
      · simp [throw, throwThe, MonadExceptOf.throw] at h
  · rintro ⟨hex, h⟩
    refine ⟨_, ⟨hex, rfl⟩, ?_⟩
    cases op with
    | binary op l r => simpa only [OpTyped, require_eq_ok] using h
    | icmp pred l r => simpa only [OpTyped, require_eq_ok] using h
    | fcmp pred l r => simpa only [OpTyped, require_eq_ok] using h
    | call callee args =>
      simp only [OpTyped] at h
      simp only [h, seq_eq_ok, require_eq_ok]
      exact ⟨rfl, trivial⟩
    | phi incoming =>
      refine require_eq_ok.mpr fun t ht => ?_
      obtain ⟨v, hv, rfl⟩ := List.mem_map.mp ht
      obtain ⟨e, he, rfl⟩ := List.mem_map.mp hv
      exact h e he
    | alloca t => simpa only [OpTyped, require_eq_ok] using h
    | load p => simpa only [OpTyped, require_eq_ok, pointee?_eq_some] using h
    | store v p => simpa only [OpTyped, require_eq_ok, pointee?_eq_some] using h
    | elementPtr base i =>
      obtain ⟨elem, n, heq, hi, hty⟩ := h
      simp only [heq, require_eq_ok, pointee?_eq_some]
      exact ⟨hi, hty⟩

end Function

theorem Op.mapOperands_id (op : Op) : op.mapOperands (fun v => v) = op := by
  cases op <;> simp [mapOperands]

theorem Op.operands_mapOperands (σ : Value → Value) (op : Op) :
    (op.mapOperands σ).operands = op.operands.map σ := by
  cases op <;> simp [mapOperands, operands, Function.comp_def]

theorem Terminator.operands_mapOperands (σ : Value → Value) (t : Terminator) :
    (t.mapOperands σ).operands = t.operands.map σ := by
  cases t with
  | ret v => cases v <;> rfl
  | _ => rfl

@[simp] theorem Op.isPhi_mapOperands (σ : Value → Value) (op : Op) :
    (op.mapOperands σ).isPhi = op.isPhi := by
  cases op <;> rfl

@[simp] theorem Terminator.targets_mapOperands (σ : Value → Value) (t : Terminator) :
    (t.mapOperands σ).targets = t.targets := by
  cases t <;> rfl

@[simp] theorem Terminator.successors_mapOperands (σ : Value → Value) (t : Terminator) :
    (t.mapOperands σ).successors = t.successors := by
  cases t <;> rfl

section MapOperands

variable {f : Function} {m m' : Module} {σ : Value → Value} {ty : Ty} {op : Op}

/-- An operation passes with other operands if they exist and have the types of the old ones. -/
theorem Function.checkOp_mapOperands (htype : ∀ v, f.typeOf (σ v) = f.typeOf v)
    (hex : ∀ v ∈ op.operands, f.Exists m v → f.Exists m' (σ v))
    (hcallee : ∀ callee sig, op.callee? = some callee → m.calleeSignature? callee = some sig →
      m'.calleeSignature? callee = some sig)
    (hop : f.checkOp m ty op = .ok ()) : f.checkOp m' ty (op.mapOperands σ) = .ok () := by
  rw [checkOp_eq_ok] at hop ⊢
  constructor
  · rw [Op.operands_mapOperands]
    intro v hv
    obtain ⟨u, hu, rfl⟩ := List.mem_map.mp hv
    exact hex u hu (hop.1 u hu)
  · cases op with
    | phi incoming =>
      intro e he
      obtain ⟨old, hold, rfl⟩ := List.mem_map.mp he
      exact (htype old.1).trans (hop.2 old hold)
    | call callee args =>
      have hsig : m'.calleeSignature? callee = some (args.map f.typeOf, ty) :=
        hcallee callee _ rfl hop.2
      simpa only [OpTyped, Op.mapOperands, List.map_map, Function.comp_def, htype] using hsig
    | _ => simpa only [OpTyped, Op.mapOperands, htype] using hop.2

theorem Function.checkTerm_mapOperands (htype : ∀ v, f.typeOf (σ v) = f.typeOf v) (t : Terminator) :
    f.checkTerm (t.mapOperands σ) = f.checkTerm t := by
  cases t with
  | ret v => cases v <;> simp [Terminator.mapOperands, checkTerm, htype]
  | _ => simp [Terminator.mapOperands, checkTerm, htype]

end MapOperands

/-- A phi passes with any of its edges left out or renamed. -/
theorem Function.checkOp_phi_of_subset {f : Function} {m : Module} {ty : Ty}
    {es es' : List (Value × BlockId)} (h : f.checkOp m ty (.phi es) = .ok ())
    (hsub : ∀ e ∈ es', ∃ e0 ∈ es, e0.1 = e.1) : f.checkOp m ty (.phi es') = .ok () := by
  rw [checkOp_eq_ok] at h ⊢
  obtain ⟨hex, htyped⟩ := h
  simp only [Op.operands, List.mem_map, forall_exists_index, and_imp] at hex ⊢
  constructor
  · rintro v e he rfl
    obtain ⟨e0, he0, heq⟩ := hsub e he
    exact hex e.1 e0 he0 heq
  · intro e he
    obtain ⟨e0, he0, heq⟩ := hsub e he
    rw [← heq]
    exact htyped e0 he0

/-- Validity depends on the signature of the function and on the types of its values. -/
theorem Body.Valid.congr {f g : Function} {m : Module} {b : Body} (h : b.Valid f m)
    (hparams : g.params = f.params) (hret : g.ret = f.ret) (htype : g.typeOf = f.typeOf) :
    b.Valid g m := by
  have hterm : g.checkTerm = f.checkTerm := by
    funext t
    unfold Function.checkTerm
    rw [htype, hret]
  have hexists : g.checkExists m = f.checkExists m := by
    funext v
    unfold Function.checkExists
    rw [hparams]
  have hop : g.checkOp m = f.checkOp m := by
    funext ty op
    have htypes : g.operandTypes m = f.operandTypes m := by
      funext vs
      induction vs with
      | nil => rfl
      | cons v vs ih => simp only [Function.operandTypes, Function.operandType, hexists, htype, ih]
    unfold Function.checkOp
    rw [htypes, htype]
  refine ⟨h.nonempty, h.start, h.unique, fun x hx => ?_, h.uses⟩
  obtain ⟨ht, hfirst, hedges, htyped⟩ := h.shape x hx
  exact ⟨hterm ▸ ht, hfirst, hedges, hop ▸ htyped⟩

end SsaCompiler.Ir
