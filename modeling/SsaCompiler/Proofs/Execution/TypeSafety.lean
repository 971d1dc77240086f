import SsaCompiler.Proofs.Execution.Facts
import SsaCompiler.Proofs.Execution.Typing
import SsaCompiler.Proofs.Validity.Walks
import Mathlib.Data.List.TakeWhile

/-!
Functions that pass the check are type safe. In every run on typed memory the registers hold values
of their types, instructions get operands of the types they need, stores write what the address
points to, and the returned value has the type of the function. That operands have values at all
comes from the walk that the run has taken: what has been defined on it has a value.
-/
namespace SsaCompiler.Ir

section Runs

variable {α μ : Type} (env : Environment α μ) (b : Body) (args : List (Val α))

/-- A step where addresses may be in any order. -/
inductive Config.Goes : Config α μ → Config α μ → Prop
  | step {c c' : Config α μ} : c.Step env b args c' → Goes c c'
  | order {c : Config α μ} {i : Instr} {rest : List Instr} {pred : IntPred} {l r : Value} {p q : α}
      {answer : Bool} {regs : Regs α} :
      c.rest = i :: rest → i.op = .icmp pred l r → c.eval env args l = some (.other p) →
      c.eval env args r = some (.other q) →
      pred.onValues? env.equal (.other p) (.other q) = none →
      i.write c.regs (some (.bool answer)) = some regs →
      Goes c ⟨c.block, rest, regs, c.world, c.calls⟩

/-- A run from the first block can come to the state `c`. -/
def Body.CanReach (w : μ) (c : Config α μ) : Prop :=
  ∃ x, b.blocks.head? = some x ∧ Relation.ReflTransGen (Config.Goes env b args) (x.start w) c

end Runs

/-- The function has the body `b`, which passes the check and was recorded as it was built. -/
structure Function.Checked (f : Function) (m : Module) (b : Body) : Prop where
  body : f.body = some b
  ids : b.ids.Nodup
  valid : b.Valid f m
  recorded : ∀ x ∈ b.blocks, ∀ i ∈ x.instrs, i.Recorded b.regTypes

theorem Function.Checked.typeOf_result {f : Function} {m : Module} {b : Body} (h : f.Checked m b)
    {x : Block} {i : Instr} {r : Reg} (hx : x ∈ b.blocks) (hi : i ∈ x.instrs)
    (hr : i.result = some r) : f.typeOf (.reg r) = i.ty := by
  simp [Function.typeOf, h.body, (h.recorded x hx i hi).result r hr]

namespace Config

variable {η : Type} {strings : List String} {m : Module} {f : Function} {b : Body}
  {answer : Heap η → String → List (Val Object) → Option (Reply Object (Heap η))}
  {args : List (Val Object)} {c c' : Config Object (Heap η)} {before : List Block}
  {done rest : List Instr} {i : Instr} {v : Value}

/-- A run that has gone through the blocks `before` and stands behind `done`: what has been defined
has a value, and all values have their types. -/
structure Sound (f : Function) (b : Body) (args : List (Val Object)) (before : List Block)
    (done : List Instr) (c : Config Object (Heap η)) : Prop where
  walk : b.Walk (before ++ [c.block])
  split : c.block.instrs = done ++ c.rest
  defined : ∀ r ∈ definedBy (Body.trace before ++ done), ∃ a, c.regs r = some a
  registers : ∀ r a, c.regs r = some a → a.OfType c.world.types (f.typeOf (.reg r))
  args : List.Forall₂ (Val.OfType c.world.types) args f.paramTypes
  memory : c.world.Typed

namespace Sound

theorem start {x : Block} {w : Heap η} (hx : b.blocks.head? = some x)
    (hargs : List.Forall₂ (Val.OfType w.types) args f.paramTypes) (hw : w.Typed) :
    Sound f b args [] [] (x.start w) where
  walk := ⟨hx.symm, List.isChain_singleton _⟩
  split := rfl
  defined := by simp [Body.trace]
  registers := nofun
  args := hargs
  memory := hw

variable (strings answer) in
/-- Operands that exist have values of their types. -/
theorem eval (h : Sound f b args before done c)
    (hparam : ∀ k, v = .param k → k < f.params.length)
    (hreg : ∀ r, v = .reg r → r ∈ definedBy (Body.trace before ++ done)) :
    ∃ a, c.eval (Heap.environment strings answer) args v = some a ∧
      a.OfType c.world.types (f.typeOf v) := by
  cases v with
  | const k =>
    refine ⟨_, rfl, ?_⟩
    cases k with
    | int n => exact .int n
    | float x => exact .float x
    | bool x => exact .bool x
    | undef t => exact .undef t
  | reg r =>
    obtain ⟨a, ha⟩ := h.defined r (hreg r rfl)
    exact ⟨a, ha, h.registers r a ha⟩
  | param k =>
    have hk := hparam k rfl
    have hk' : k < args.length := by
      rw [h.args.length_eq]
      simpa [Function.paramTypes] using hk
    refine ⟨args[k], List.getElem?_eq_getElem hk', ?_⟩
    have htype := h.args.get hk' (by simpa [Function.paramTypes] using hk)
    simpa [Function.typeOf, Function.paramTypes, hk] using htype
  | global k => exact ⟨_, rfl, .string k⟩

/-- Operands of terminators are not looked up, but a parameter that does not exist has no type. -/
theorem eval_of_ne_void (h : Sound f b args before done c) (hty : f.typeOf v ≠ .void)
    (hreg : ∀ r, v = .reg r → r ∈ definedBy (Body.trace before ++ done)) :
    ∃ a, c.eval (Heap.environment strings answer) args v = some a ∧
      a.OfType c.world.types (f.typeOf v) := by
  refine h.eval strings answer (fun k hk => ?_) hreg
  subst hk
  by_contra hlt
  exact hty (by simp [Function.typeOf, Nat.le_of_not_lt hlt])

/-- The next instruction, unless it is a phi, gets operands of the types it needs. -/
theorem operands (h : Sound f b args before done c) (hf : f.Checked m b)
    (hrest : c.rest = i :: rest) (hplain : i.op.isPhi = false) :
    ∃ types, i.op.Needs m i.ty types ∧ Value.Have
      (c.eval (Heap.environment strings answer) args) c.world.types i.op.operands types := by
  have hx : c.block ∈ b.blocks := h.walk.last_mem
  have hsplit : c.block.instrs = done ++ i :: rest := hrest ▸ h.split
  have hi : i ∈ c.block.instrs := by simp [hsplit]
  obtain ⟨hexists, htyped⟩ :=
    Function.checkOp_eq_ok.mp ((hf.valid.shape c.block hx).typed i hi)
  refine ⟨_, htyped.needs hplain (hf.recorded c.block hx i hi).compares, ?_⟩
  unfold Value.Have
  rw [List.forall₂_map_right_iff, List.forall₂_same]
  intro v hv
  refine h.eval strings answer (Function.exists_iff.mp (hexists v hv)).1 fun r hr => ?_
  have huses := (hf.valid.uses c.block hx).plain done i rest hsplit hplain r (hr ▸ hv)
  exact h.walk.defined_in hf.ids (huses.2 h.walk.reaches)

/-- Control has come to the end of the block. -/
theorem ended (h : Sound f b args before done c) (hrest : c.rest = []) : done = c.block.instrs := by
  rw [h.split, hrest, List.append_nil]

theorem trace_concat (before : List Block) (x : Block) :
    Body.trace (before ++ [x]) = Body.trace before ++ x.instrs := by simp [Body.trace]

/-- Registers that a terminator reads have been defined. -/
theorem term_defined (h : Sound f b args before done c) (hf : f.Checked m b) (hrest : c.rest = [])
    {t : Terminator} (hterm : c.block.term = some t) (hv : v ∈ t.operands) :
    ∀ r, v = .reg r → r ∈ definedBy (Body.trace before ++ done) := by
  rintro r rfl
  have hout := (hf.valid.uses c.block h.walk.last_mem).term t hterm r hv
  rw [h.ended hrest, ← trace_concat]
  exact h.walk.defined_out hf.ids hout

variable (strings answer) in
/-- The phis of the block that control goes to have values of their types. -/
theorem phi_value (h : Sound f b args before done c) (hf : f.Checked m b) (hrest : c.rest = [])
    {y : Block} (hy : b.Walk (before ++ [c.block] ++ [y])) (hi : i ∈ y.phis) :
    ∃ a, i.op.phiValue? (c.eval (Heap.environment strings answer) args) c.block.id = some a ∧
      a.OfType c.world.types i.ty := by
  have hmem : i ∈ y.instrs := List.takeWhile_subset _ hi
  have hshape := hf.valid.shape y hy.last_mem
  obtain ⟨incoming, hphi⟩ : ∃ incoming, i.op = .phi incoming := by
    have hisPhi := List.mem_takeWhile_imp hi
    cases hop : i.op <;> simp_all [Op.isPhi]
  obtain ⟨v, hv⟩ := (hshape.edges i hmem incoming hphi).selects hy.leads
  obtain ⟨hexists, htyped⟩ := Function.checkOp_eq_ok.mp (hshape.typed i hmem)
  have hedge : (v, c.block.id) ∈ incoming :=
    List.mem_of_mem_filter (hv ▸ List.mem_singleton_self _)
  have hoperand : v ∈ i.op.operands := by
    rw [hphi]
    exact List.mem_map_of_mem hedge
  have htype : f.typeOf v = i.ty := by
    rw [hphi] at htyped
    exact htyped _ hedge
  obtain ⟨a, ha, hat⟩ := h.eval strings answer
    (Function.exists_iff.mp (hexists v hoperand)).1 fun r hr => by
      have havail := (hf.valid.uses y hy.last_mem).phi hy.reaches i hmem incoming hphi r
        c.block.id (hr ▸ hedge)
      rw [h.ended hrest, ← trace_concat]
      exact h.walk.defined_out hf.ids havail
  refine ⟨a, ?_, htype ▸ hat⟩
  have hfind : incoming.find? (·.2 = c.block.id) = some (v, c.block.id) := by
    rw [← List.head?_filter, hv]
    rfl
  simp [hphi, Op.phiValue?, hfind, ha]

/-- An instruction has put a value of its type into its register. -/
theorem wrote (h : Sound f b args before done c) (hf : f.Checked m b) (hrest : c.rest = i :: rest)
    {a : Option (Val Object)} {regs : Regs Object} (hwrite : i.write c.regs a = some regs)
    {w : Heap η} (hext : c.world.Extends w) (ha : ∀ x, a = some x → x.OfType w.types i.ty)
    (calls : List (Call Object)) :
    Sound f b args before (done ++ [i]) ⟨c.block, rest, regs, w, calls⟩ := by
  have hsplit : c.block.instrs = done ++ i :: rest := hrest ▸ h.split
  refine ⟨h.walk, by simp [hsplit], fun r hr => ?_, fun r x hx => ?_,
    h.args.imp fun _ _ hv => hv.mono hext.types, hext.typed⟩
  · rw [← List.append_assoc, definedBy_append, List.mem_append] at hr
    by_cases hres : i.result = some r
    · dsimp only
      rw [Instr.write_result hwrite hres]
      cases a with
      | none => simp [Instr.write, hres] at hwrite
      | some x => exact ⟨x, rfl⟩
    · dsimp only
      rw [Instr.write_other hwrite hres]
      refine h.defined r (hr.resolve_right fun hr => ?_)
      obtain ⟨j, hj, hjr⟩ := mem_definedBy.mp hr
      exact hres (List.mem_singleton.mp hj ▸ hjr)
  · by_cases hres : i.result = some r
    · rw [hf.typeOf_result h.walk.last_mem (by simp [hsplit]) hres]
      exact ha x ((Instr.write_result hwrite hres).symm.trans hx)
    · dsimp only at hx
      rw [Instr.write_other hwrite hres] at hx
      exact (h.registers r x hx).mono hext.types

/-- Control enters a block, whose phis take their values. -/
theorem enter (h : Sound f b args before done c) (hf : f.Checked m b) (hrest : c.rest = [])
    {y : Block} (hy : b.Walk (before ++ [c.block] ++ [y])) :
    Sound f b args (before ++ [c.block]) y.phis
      (c.enter (Heap.environment strings answer) args y) := by
  have hphis : ∀ j ∈ y.phis, j ∈ y.instrs := fun j hj => List.takeWhile_subset _ hj
  have hnd : (definedBy y.phis).Nodup :=
    (Body.nodup_definedBy hf.valid.unique hy.last_mem).sublist
      ((List.takeWhile_sublist _).filterMap _)
  refine ⟨hy, List.takeWhile_append_dropWhile.symm, fun r hr => ?_, fun r x hx => ?_, h.args, h.memory⟩
  · by_cases hphi : r ∈ definedBy y.phis
    · obtain ⟨j, hj, hjr⟩ := mem_definedBy.mp hphi
      obtain ⟨a, ha, _⟩ := h.phi_value strings answer hf hrest hy hj
      exact ⟨a, (phiRegs_result hnd hj hjr).trans ha⟩
    · rw [definedBy_append, List.mem_append, trace_concat, ← h.ended hrest] at hr
      obtain ⟨a, ha⟩ := h.defined r (hr.resolve_right hphi)
      exact ⟨a, (phiRegs_other hphi).trans ha⟩
  · by_cases hphi : r ∈ definedBy y.phis
    · obtain ⟨j, hj, hjr⟩ := mem_definedBy.mp hphi
      obtain ⟨a, ha, hat⟩ := h.phi_value strings answer hf hrest hy hj
      have hreg : phiRegs _ _ y.phis c.regs r = some a := (phiRegs_result hnd hj hjr).trans ha
      obtain rfl := Option.some.inj (hreg.symm.trans hx)
      rw [hf.typeOf_result hy.last_mem (hphis j hj) hjr]
      exact hat
    · exact h.registers r x ((phiRegs_other hphi).symm.trans hx)

/-- Where control goes from the end of a block, the walk goes on. -/
theorem walk_concat (h : Sound f b args before done c) (hf : f.Checked m b) {t : Terminator}
    {y : Block} {ev : Value → Option (Val Object)} (hterm : c.block.term = some t)
    (hgoes : t.goesTo? ev = some y.id) (hy : b.block? y.id = some y) :
    b.Walk (before ++ [c.block] ++ [y]) := by
  have hedge : y ∈ b.blocks ∧ y.id ∈ c.block.successors := by
    refine ⟨((Body.block?_eq_some hf.ids).mp hy).1, ?_⟩
    simpa [Block.successors, hterm] using Terminator.goesTo?_mem hgoes
  refine ⟨?_, List.isChain_append.mpr ⟨h.walk.edges, List.isChain_singleton _, ?_⟩⟩
  · rw [← h.walk.start]
    cases before <;> rfl
  · simpa using hedge

/-- Every step keeps a run sound. -/
theorem goes (h : Sound f b args before done c) (hf : f.Checked m b)
    (hanswers : Heap.Answers m answer)
    (hgoes : c.Goes (Heap.environment strings answer) b args c') :
    ∃ before' done', Sound f b args before' done' c' := by
  cases hgoes with
  | @order i rest _ _ _ _ _ _ _ hrest hop _ _ _ hwrite =>
    have hi := hf.recorded c.block h.walk.last_mem i (by simp [h.split, hrest])
    refine ⟨before, _, h.wrote hf hrest hwrite (.refl h.memory) (fun x hx => ?_) _⟩
    rw [← Option.some.inj hx, hi.compares (by rw [hop]; trivial)]
    exact .bool _
  | step hstep =>
    cases hstep with
    | @instr i rest v w calls regs hrest hexec hwrite =>
      have hplain : i.op.isPhi = false := by
        cases hop : i.op with
        | phi incoming => simp [Instr.exec, hop, Op.value?] at hexec
        | _ => rfl
      obtain ⟨types, hneeds, hhave⟩ := h.operands hf hrest hplain
      obtain ⟨hext, hv⟩ := hneeds.exec hhave hanswers h.memory hexec
      exact ⟨before, _, h.wrote hf hrest hwrite hext hv _⟩
    | jump hrest hterm hgoes hy =>
      exact ⟨_, _, h.enter hf hrest (h.walk_concat hf hterm hgoes hy)⟩

theorem of_canReach {w : Heap η} (hf : f.Checked m b) (hanswers : Heap.Answers m answer)
    (hargs : List.Forall₂ (Val.OfType w.types) args f.paramTypes) (hw : w.Typed)
    (hc : b.CanReach (Heap.environment strings answer) args w c) :
    ∃ before done, Sound f b args before done c := by
  obtain ⟨x, hx, hgoes⟩ := hc
  induction hgoes with
  | refl => exact ⟨[], [], .start hx hargs hw⟩
  | tail _ hstep ih =>
    obtain ⟨before, done, h⟩ := ih
    exact h.goes hf hanswers hstep

end Sound

end Config

/-- The types that the operands of a terminator need to have in a function that returns `ret`. -/
inductive Terminator.Needs (ret : Ty) : Terminator → List Ty → Prop
  | br {t : BlockId} : Needs ret (.br t) []
  | condBr {v : Value} {t e : BlockId} : Needs ret (.condBr v t e) [.i1]
  | ret : ret = .void → Needs ret (.ret none) []
  | retValue {v : Value} : ret ≠ .void → Needs ret (.ret (some v)) [ret]

theorem Terminator.needs_of_checkTerm {f : Function} {t : Terminator} (h : f.checkTerm t = .ok ()) :
    t.Needs f.ret (t.operands.map f.typeOf) ∧ ∀ v ∈ t.operands, f.typeOf v ≠ .void := by
  cases t with
  | br s => exact ⟨.br, by simp [operands]⟩
  | condBr c s e =>
    have hty : f.typeOf c = .i1 := require_eq_ok.mp h
    simpa [operands, hty] using Needs.condBr
  | ret v =>
    cases v with
    | none => exact ⟨.ret (require_eq_ok.mp h), by simp [operands]⟩
    | some v =>
      obtain ⟨hret, hty⟩ := require_eq_ok.mp h
      simpa [operands, hty, hret] using Needs.retValue hret

/-- What type safety says of a state of a run. -/
structure Config.TypeSafe {η : Type} (env : Environment Object (Heap η)) (m : Module) (f : Function)
    (b : Body) (args : List (Val Object)) (c : Config Object (Heap η)) : Prop where
  /-- Registers hold values of their types. -/
  registers : ∀ r a, c.regs r = some a → a.OfType c.world.types (f.typeOf (.reg r))
  /-- So does memory. -/
  memory : c.world.Typed
  /-- The next instruction has operands of the types that it needs. -/
  operands : ∀ i rest, c.rest = i :: rest → i.op.isPhi = false →
    ∃ types, i.op.Needs m i.ty types ∧
      Value.Have (c.eval env args) c.world.types i.op.operands types
  /-- So has the terminator. -/
  term : ∀ t, c.rest = [] → c.block.term = some t → ∃ types, t.Needs f.ret types ∧
    Value.Have (c.eval env args) c.world.types t.operands types
  /-- Phis, which take their values when control enters their block, find values of their types. -/
  phis : ∀ t y, c.rest = [] → c.block.term = some t → t.goesTo? (c.eval env args) = some y.id →
    b.block? y.id = some y → ∀ i ∈ y.phis, ∃ a,
      i.op.phiValue? (c.eval env args) c.block.id = some a ∧ a.OfType c.world.types i.ty
  /-- What is stored has the type that the address points to. -/
  store : ∀ i rest value ptr, c.rest = i :: rest → i.op = .store value ptr →
    ∃ t a p, c.eval env args value = some a ∧ a.OfType c.world.types t ∧
      c.eval env args ptr = some p ∧ p.OfType c.world.types (.ptr t)
  /-- What is returned has the type of the function. -/
  returned : ∀ v w calls, c.Ends env args (.returned v w calls) →
    (v = none ∧ f.ret = .void) ∨ ∃ a, v = some a ∧ f.ret ≠ .void ∧ a.OfType w.types f.ret

namespace Config.Sound

variable {η : Type} {strings : List String} {m : Module} {f : Function} {b : Body}
  {answer : Heap η → String → List (Val Object) → Option (Reply Object (Heap η))}
  {args : List (Val Object)} {c : Config Object (Heap η)} {before : List Block} {done : List Instr}

variable (strings answer) in
/-- The terminator gets operands of the types it needs. -/
theorem term (h : Sound f b args before done c) (hf : f.Checked m b) (hrest : c.rest = [])
    {t : Terminator} (hterm : c.block.term = some t) :
    ∃ types, t.Needs f.ret types ∧
      Value.Have (c.eval (Heap.environment strings answer) args) c.world.types t.operands types := by
  obtain ⟨t', hterm', _, hcheck⟩ := (hf.valid.shape c.block h.walk.last_mem).term
  obtain rfl := Option.some.inj (hterm.symm.trans hterm')
  obtain ⟨hneeds, hvoid⟩ := Terminator.needs_of_checkTerm hcheck
  refine ⟨_, hneeds, ?_⟩
  unfold Value.Have
  rw [List.forall₂_map_right_iff, List.forall₂_same]
  exact fun v hv => h.eval_of_ne_void (hvoid v hv) (h.term_defined hf hrest hterm hv)

theorem typeSafe (h : Sound f b args before done c) (hf : f.Checked m b) :
    c.TypeSafe (Heap.environment strings answer) m f b args where
  registers := h.registers
  memory := h.memory
  operands _ _ hrest hplain := h.operands hf hrest hplain
  phis _ _ hrest hterm hgoes hy _ hi :=
    h.phi_value strings answer hf hrest (h.walk_concat hf hterm hgoes hy) hi
  term _ hrest hterm := h.term strings answer hf hrest hterm
  store i rest value ptr hrest hop := by
    obtain ⟨types, hneeds, hhave⟩ := h.operands hf hrest (by rw [hop]; rfl)
    rw [hop] at hneeds hhave
    generalize i.ty = ty at hneeds
    cases hneeds with
    | @store _ _ t _ =>
      obtain ⟨⟨a, ha, hat⟩, p, hp, hpt⟩ := hhave.two
      exact ⟨t, a, p, ha, hat, hp, hpt⟩
  returned v w calls hends := by
    cases hends with
    | ret hrest hterm =>
      obtain ⟨_, hneeds, _⟩ := h.term strings answer hf hrest hterm
      cases hneeds with
      | ret hvoid => exact .inl ⟨rfl, hvoid⟩
    | retValue hrest hterm hv =>
      obtain ⟨_, hneeds, hhave⟩ := h.term strings answer hf hrest hterm
      cases hneeds with
      | retValue hvoid =>
        obtain ⟨a, ha, hat⟩ := hhave.one
        obtain rfl := Option.some.inj (ha.symm.trans hv)
        exact .inr ⟨a, rfl, hvoid, hat⟩

end Config.Sound

/-- A function that was assembled with the operations of a builder, in any order, and passes the
check is type safe in every state that a run from typed memory and arguments of the types of its
parameters can reach, as long as calls keep to their signatures. -/
theorem Builder.verified_type_safe (m : Module) (f : Function) (b : Builder)
    (hbuilt : (Builder.start f).Assembles b) (hverify : b.finish.verify m = .ok ()) {η : Type}
    (answer : Heap η → String → List (Val Object) → Option (Reply Object (Heap η)))
    (hanswers : Heap.Answers m answer) (args : List (Val Object)) (w : Heap η) (hw : w.Typed)
    (hargs : List.Forall₂ (Val.OfType w.types) args b.finish.paramTypes)
    (c : Config Object (Heap η))
    (hc : b.body.CanReach (Heap.environment m.strings answer) args w c) :
    c.TypeSafe (Heap.environment m.strings answer) m b.finish b.body args := by
  have horderly := (Builder.orderly_start f).assembles hbuilt
  have hf : b.finish.Checked m b.body :=
    ⟨rfl, horderly.ids, (Function.verify_eq_ok_iff rfl horderly.ids).mp hverify, horderly.recorded⟩
  obtain ⟨before, done, hsound⟩ := Config.Sound.of_canReach hf hanswers hargs hw hc
  exact hsound.typeSafe hf

/-- A function that keeps its parameter in memory and logs twice its value. -/
def twiceBody : Body where
  blocks := [
    ⟨0, "entry", [⟨some 0, .ptr .i64, .alloca .i64⟩, ⟨none, .void, .store (.param 0) (.reg 0)⟩],
      some (.br 1)⟩,
    ⟨1, "end", [⟨some 1, .i64, .phi [(.param 0, 0)]⟩, ⟨some 2, .i64, .load (.reg 0)⟩,
      ⟨some 3, .i64, .binary .add (.reg 1) (.reg 2)⟩, ⟨none, .void, .call "log" [.reg 3]⟩],
      some (.ret (some (.reg 3)))⟩]
  regTypes := [.ptr .i64, .i64, .i64, .i64]
  nextBlock := 2

def twice : Builder := ⟨"twice", [⟨"n", .i64⟩], .i64, twiceBody, 1⟩

/-- A module where `log` can be called. -/
def logging : Module := ⟨"m", [⟨"log", [⟨"x", .i64⟩], .void, none⟩], [], []⟩

theorem twice_assembled : (Builder.start ⟨"twice", [⟨"n", .i64⟩], .i64, none⟩).Assembles twice := by
  have entry : Builder.Assembles (Builder.start ⟨"twice", [⟨"n", .i64⟩], .i64, none⟩) _ :=
    .tail (.tail .refl (.alloca .i64 rfl)) (.store (.param 0) (.reg 0) rfl)
  have jump := (entry.tail (.appendBlock "end")).tail (.terminate (.br 1) rfl)
  have last := (jump.tail (.position 1)).tail (.phi .i64 [(.param 0, 0)] rfl)
  have sum := (last.tail (.load .i64 (.reg 0) rfl)).tail (.binary .add (.reg 1) (.reg 2) rfl)
  exact (sum.tail (.call "log" [.reg 3] .void rfl)).tail (.terminate (.ret (some (.reg 3))) rfl)

/-- Every call returns nothing and does nothing. -/
def silent (h : Heap Unit) (_ : String) (_ : List (Val Object)) :
    Option (Reply Object (Heap Unit)) := some (.returned none h)

theorem answers_silent : Heap.Answers logging silent := by
  intro h callee types ret args v h' _ htyped _ hreply
  cases hreply
  exact ⟨.refl htyped, nofun⟩

theorem twice_reaches_sum : ∃ c, twice.body.CanReach (Heap.environment logging.strings silent)
    [.int 21] ⟨[], ()⟩ c ∧ c.regs 3 = some (.int 42) ∧
      c.rest = [⟨none, .void, .call "log" [.reg 3]⟩] := by
  let env := Heap.environment logging.strings silent
  have entered : Relation.ReflTransGen (Config.Goes env twiceBody [.int 21])
      (Block.start twiceBody.blocks[0] ⟨[], ()⟩) _ :=
    .tail (.tail .refl (.step (.instr rfl rfl rfl))) (.step (.instr rfl rfl rfl))
  have jumped := entered.tail (.step (.jump (y := twiceBody.blocks[1]) rfl rfl rfl rfl))
  have added := (jumped.tail (.step (.instr rfl rfl rfl))).tail (.step (.instr rfl rfl rfl))
  exact ⟨_, ⟨_, rfl, added⟩, rfl, rfl⟩

theorem twice_type_safe : (Builder.start ⟨"twice", [⟨"n", .i64⟩], .i64, none⟩).Assembles twice ∧
    twice.finish.verify logging = .ok () ∧ Heap.Answers logging silent ∧
    ∃ c, twice.body.CanReach (Heap.environment logging.strings silent) [.int 21] ⟨[], ()⟩ c ∧
      c.regs 3 = some (.int 42) ∧ c.rest = [⟨none, .void, .call "log" [.reg 3]⟩] ∧
      c.TypeSafe (Heap.environment logging.strings silent) logging twice.finish twice.body
        [.int 21] := by
  have hverify : twice.finish.verify logging = .ok () := by decide +kernel
  obtain ⟨c, hc, hsum, hrest⟩ := twice_reaches_sum
  exact ⟨twice_assembled, hverify, answers_silent, c, hc, hsum, hrest,
    Builder.verified_type_safe logging _ twice twice_assembled hverify silent answers_silent
      [.int 21] ⟨[], ()⟩ nofun (.cons (.int 21) .nil) c hc⟩

end SsaCompiler.Ir
