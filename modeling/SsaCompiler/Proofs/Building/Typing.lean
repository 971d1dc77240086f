import SsaCompiler.Ir.Builder
import SsaCompiler.Proofs.Validity.Availability

/-!
Types in a function under construction. Operands keep their types while registers, strings and
routines are added, so what was well typed when it was emitted stays so.
-/
namespace SsaCompiler.Ir

theorem Routine.eq_of_name_eq {r q : Routine} (h : r.name = q.name) : r = q := by
  cases r <;> cases q <;> simp_all [name]

/-- Additions to a module while a body is built. -/
structure Module.Grows (m m' : Module) : Prop where
  functions : m'.functions = m.functions
  strings : m.strings <+: m'.strings
  routines : ∀ r ∈ m.routines, r ∈ m'.routines

namespace Module

variable {m m' m'' : Module}

theorem Grows.refl (m : Module) : m.Grows m := ⟨rfl, List.prefix_rfl, fun _ h => h⟩

theorem Grows.trans (h : m.Grows m') (h' : m'.Grows m'') : m.Grows m'' :=
  ⟨h'.functions.trans h.functions, h.strings.trans h'.strings,
    fun r hr => h'.routines r (h.routines r hr)⟩

theorem Grows.function? (h : m.Grows m') (name : String) : m'.function? name = m.function? name := by
  unfold Module.function?
  rw [h.functions]

theorem find?_routine {routines : List Routine} {r : Routine} (h : r ∈ routines) :
    routines.find? (·.name = r.name) = some r := by
  cases hfind : routines.find? (·.name = r.name) with
  | none => simpa using List.find?_eq_none.mp hfind r h
  | some q =>
    have hname : q.name = r.name := by simpa using List.find?_some hfind
    rw [Routine.eq_of_name_eq hname]

/-- What can be called keeps its signature. -/
theorem Grows.calleeSignature? (h : m.Grows m') {name : String} {sig : List Ty × Ty}
    (hsig : m.calleeSignature? name = some sig) : m'.calleeSignature? name = some sig := by
  unfold Module.calleeSignature? at *
  rw [h.function?]
  cases hf : m.function? name with
  | some f => simpa [hf] using hsig
  | none =>
    simp only [hf, Option.map_eq_some_iff] at hsig ⊢
    obtain ⟨r, hr, hsig⟩ := hsig
    obtain rfl : r.name = name := by simpa using List.find?_some hr
    exact ⟨r, find?_routine (h.routines r (List.mem_of_find?_eq_some hr)), hsig⟩

/-- What the code of `m` may refer to is in `m'`, with the same types. -/
structure Serves (m m' : Module) : Prop where
  strings : m.strings.length ≤ m'.strings.length
  callees : ∀ name sig, m.calleeSignature? name = some sig → m'.calleeSignature? name = some sig

theorem Serves.refl (m : Module) : m.Serves m := ⟨le_rfl, fun _ _ h => h⟩

theorem Serves.trans (h : m.Serves m') (h' : m'.Serves m'') : m.Serves m'' :=
  ⟨h.strings.trans h'.strings, fun name sig hsig => h'.callees name sig (h.callees name sig hsig)⟩

theorem Grows.serves (h : m.Grows m') : m.Serves m' :=
  ⟨h.strings.length_le, fun _ _ => h.calleeSignature?⟩

theorem grows_internString (m : Module) (text : String) : m.Grows (m.internString text).2 := by
  unfold internString
  split
  · exact .refl m
  · exact ⟨rfl, List.prefix_append _ _, fun _ h => h⟩

theorem grows_declareRoutine (m : Module) (r : Routine) : m.Grows (m.declareRoutine r) := by
  refine ⟨rfl, List.prefix_rfl, fun q hq => ?_⟩
  unfold declareRoutine
  rw [List.mem_filter]
  exact ⟨by cases q <;> simp [Routine.all], by simp [hq]⟩

/-- The functions with the name of a routine have its signature. -/
def Honest (m : Module) : Prop :=
  ∀ f ∈ m.functions, ∀ r : Routine, f.name = r.name → f.paramTypes = r.params ∧ f.ret = r.ret

theorem Honest.grows (h : m.Honest) (hm : m.Grows m') : m'.Honest := by
  unfold Honest
  rw [hm.functions]
  exact h

/-- A declared routine can be called with its signature. -/
theorem Honest.calleeSignature? (h : m.Honest) {r : Routine} (hr : r ∈ m.routines) :
    m.calleeSignature? r.name = some (r.params, r.ret) := by
  unfold Module.calleeSignature?
  cases hf : m.function? r.name with
  | some f =>
    have hname : f.name = r.name := by simpa using List.find?_some hf
    obtain ⟨hparams, hret⟩ := h f (List.mem_of_find?_eq_some hf) r hname
    simp [hparams, hret]
  | none => simp [find?_routine hr]

theorem mem_declareRoutine (m : Module) (r : Routine) : r ∈ (m.declareRoutine r).routines := by
  unfold declareRoutine
  rw [List.mem_filter]
  exact ⟨by cases r <;> simp [Routine.all], by simp⟩

end Module

namespace Builder

/-- An operand exists and has the given type. -/
inductive Has (b : Builder) (m : Module) : Value → Ty → Prop
  | const (c : Constant) : Has b m (.const c) c.ty
  | reg {r : Reg} {ty : Ty} : b.body.regTypes[r]? = some ty → Has b m (.reg r) ty
  | param {i : Nat} {p : Param} : b.params[i]? = some p → Has b m (.param i) p.ty
  | global {i : Nat} : i < m.strings.length → Has b m (.global i) .string

/-- The type rule of an operation, with a comparison giving a boolean and an order only of
integers. -/
def OpFits (b : Builder) (m : Module) (ty : Ty) : Op → Prop
  | .binary op l r => b.Has m l op.ty ∧ b.Has m r op.ty ∧ ty = op.ty
  | .icmp pred l r => ty = .i1 ∧ ∃ t, b.Has m l t ∧ b.Has m r t ∧
      (t.isInteger ∨ t.pointee?.isSome) ∧ (pred = .slt ∨ pred = .sgt → t = .i64)
  | .fcmp _ l r => ty = .i1 ∧ b.Has m l .double ∧ b.Has m r .double
  | .call callee args => ∃ types, m.calleeSignature? callee = some (types, ty) ∧
      List.Forall₂ (b.Has m) args types
  | .phi incoming => ∀ e ∈ incoming, b.Has m e.1 ty
  | .alloca t => ty = .ptr t
  | .load p => b.Has m p (.ptr ty)
  | .store v p => ∃ t, b.Has m v t ∧ b.Has m p (.ptr t)
  | .elementPtr base i =>
    ∃ elem n, b.Has m base (.ptr (.array elem n)) ∧ b.Has m i .i64 ∧ ty = .ptr elem

def TermFits (b : Builder) (m : Module) : Terminator → Prop
  | .br _ => True
  | .condBr c _ _ => b.Has m c .i1
  | .ret none => b.ret = .void
  | .ret (some v) => b.ret ≠ .void ∧ b.Has m v b.ret

variable {b b' b'' : Builder} {m m' m'' : Module} {v : Value} {ty : Ty} {op : Op} {t : Terminator}

theorem Has.typeOf (h : b.Has m v ty) : b.finish.typeOf v = ty := by
  cases h with
  | const c => rfl
  | reg h => simp [Function.typeOf, finish, h]
  | param h => simp [Function.typeOf, finish, h]
  | global _ => rfl

theorem Has.exists_ (h : b.Has m v ty) : b.finish.Exists m v := by
  rw [Function.exists_iff]
  cases h with
  | param h =>
    obtain ⟨hlt, _⟩ := List.getElem?_eq_some_iff.mp h
    simpa [finish] using hlt
  | global h => simpa using h
  | _ => simp

/-- What fits passes the check of the verifier. -/
theorem OpFits.checkOp (h : b.OpFits m ty op) : b.finish.checkOp m ty op = .ok () := by
  rw [Function.checkOp_eq_ok]
  cases op with
  | binary op l r =>
    obtain ⟨hl, hr, rfl⟩ := h
    simp [Op.operands, hl.exists_, hr.exists_, Function.OpTyped, hl.typeOf, hr.typeOf]
  | icmp pred l r =>
    obtain ⟨_, t, hl, hr, ht, _⟩ := h
    simpa [Op.operands, hl.exists_, hr.exists_, Function.OpTyped, hl.typeOf, hr.typeOf] using ht
  | fcmp pred l r =>
    obtain ⟨_, hl, hr⟩ := h
    simp [Op.operands, hl.exists_, hr.exists_, Function.OpTyped, hl.typeOf, hr.typeOf]
  | call callee args =>
    obtain ⟨types, hsig, hargs⟩ := h
    have hmap : args.map b.finish.typeOf = types := by
      clear hsig
      induction hargs with
      | nil => rfl
      | cons hv _ ih => rw [List.map_cons, hv.typeOf, ih]
    have hex : ∀ v ∈ args, b.finish.Exists m v := by
      clear hsig hmap
      induction hargs with
      | nil => simp
      | cons hv _ ih => exact List.forall_mem_cons.mpr ⟨hv.exists_, ih⟩
    exact ⟨hex, by rw [Function.OpTyped, hmap, hsig]⟩
  | phi incoming =>
    refine ⟨fun v hv => ?_, fun e he => (h e he).typeOf⟩
    obtain ⟨e, he, rfl⟩ := List.mem_map.mp hv
    exact (h e he).exists_
  | alloca t => exact ⟨by simp [Op.operands], h⟩
  | load p => exact ⟨by simp [Op.operands, Has.exists_ h], Has.typeOf h⟩
  | store v p =>
    obtain ⟨t, hv, hp⟩ := h
    exact ⟨by simp [Op.operands, hv.exists_, hp.exists_],
      by rw [Function.OpTyped, hp.typeOf, hv.typeOf]⟩
  | elementPtr base i =>
    obtain ⟨elem, n, hbase, hi, hty⟩ := h
    exact ⟨by simp [Op.operands, hbase.exists_, hi.exists_],
      elem, n, hbase.typeOf, hi.typeOf, hty⟩

theorem TermFits.checkTerm (h : b.TermFits m t) : b.finish.checkTerm t = .ok () := by
  cases t with
  | br _ => rfl
  | condBr c _ _ => exact require_eq_ok.mpr (Has.typeOf h)
  | ret v =>
    cases v with
    | none => exact require_eq_ok.mpr h
    | some v => exact require_eq_ok.mpr ⟨h.1, h.2.typeOf⟩

/-- Additions to a function under construction and its module. -/
structure Widens (b : Builder) (m : Module) (b' : Builder) (m' : Module) : Prop where
  name : b'.name = b.name
  params : b'.params = b.params
  ret : b'.ret = b.ret
  regTypes : b.body.regTypes <+: b'.body.regTypes
  module : m.Grows m'

theorem Widens.refl (b : Builder) (m : Module) : b.Widens m b m :=
  ⟨rfl, rfl, rfl, List.prefix_rfl, .refl m⟩

theorem Widens.trans (h : b.Widens m b' m') (h' : b'.Widens m' b'' m'') : b.Widens m b'' m'' :=
  ⟨h'.name.trans h.name, h'.params.trans h.params, h'.ret.trans h.ret, h.regTypes.trans h'.regTypes,
    h.module.trans h'.module⟩

/-- Whatever may be used in `b` may be used in `b'`. -/
structure Covers (b : Builder) (m : Module) (b' : Builder) (m' : Module) : Prop where
  params : b'.params = b.params
  ret : b'.ret = b.ret
  regTypes : b.body.regTypes <+: b'.body.regTypes
  module : m.Serves m'

theorem Widens.covers (h : b.Widens m b' m') : b.Covers m b' m' :=
  ⟨h.params, h.ret, h.regTypes, h.module.serves⟩

theorem Covers.of_serves (b : Builder) (h : m.Serves m') : b.Covers m b m' :=
  ⟨rfl, rfl, List.prefix_rfl, h⟩

theorem Covers.regType (h : b.Covers m b' m') {r : Reg} (hr : b.body.regTypes[r]? = some ty) :
    b'.body.regTypes[r]? = some ty := by
  obtain ⟨rest, heq⟩ := h.regTypes
  obtain ⟨hlt, _⟩ := List.getElem?_eq_some_iff.mp hr
  rw [← heq, List.getElem?_append_left hlt, hr]

theorem Widens.regType (h : b.Widens m b' m') {r : Reg} (hr : b.body.regTypes[r]? = some ty) :
    b'.body.regTypes[r]? = some ty := h.covers.regType hr

theorem Has.covers (hv : b.Has m v ty) (h : b.Covers m b' m') : b'.Has m' v ty := by
  cases hv with
  | const c => exact .const c
  | reg hr => exact .reg (h.regType hr)
  | param hp => exact .param (h.params ▸ hp)
  | global hi => exact .global (Nat.lt_of_lt_of_le hi h.module.strings)

theorem OpFits.covers (hop : b.OpFits m ty op) (h : b.Covers m b' m') : b'.OpFits m' ty op := by
  cases op with
  | binary op l r => exact ⟨hop.1.covers h, hop.2.1.covers h, hop.2.2⟩
  | icmp pred l r =>
    obtain ⟨hty, t, hl, hr, ht, hpred⟩ := hop
    exact ⟨hty, t, hl.covers h, hr.covers h, ht, hpred⟩
  | fcmp pred l r => exact ⟨hop.1, hop.2.1.covers h, hop.2.2.covers h⟩
  | call callee args =>
    obtain ⟨types, hsig, hargs⟩ := hop
    exact ⟨types, h.module.callees _ _ hsig, hargs.imp fun _ _ hv => hv.covers h⟩
  | phi incoming => exact fun e he => (hop e he).covers h
  | alloca t => exact hop
  | load p => exact Has.covers hop h
  | store v p =>
    obtain ⟨t, hv, hp⟩ := hop
    exact ⟨t, hv.covers h, hp.covers h⟩
  | elementPtr base i =>
    obtain ⟨elem, n, hbase, hi, hty⟩ := hop
    exact ⟨elem, n, hbase.covers h, hi.covers h, hty⟩

theorem TermFits.covers (ht : b.TermFits m t) (h : b.Covers m b' m') : b'.TermFits m' t := by
  cases t with
  | br _ => trivial
  | condBr c _ _ => exact Has.covers ht h
  | ret v =>
    cases v with
    | none => exact h.ret.trans ht
    | some v =>
      refine ⟨h.ret ▸ ht.1, ?_⟩
      rw [h.ret]
      exact ht.2.covers h

theorem Has.widens (hv : b.Has m v ty) (h : b.Widens m b' m') : b'.Has m' v ty := hv.covers h.covers

theorem OpFits.widens (hop : b.OpFits m ty op) (h : b.Widens m b' m') : b'.OpFits m' ty op :=
  hop.covers h.covers

theorem TermFits.widens (ht : b.TermFits m t) (h : b.Widens m b' m') : b'.TermFits m' t :=
  ht.covers h.covers

end Builder

end SsaCompiler.Ir
