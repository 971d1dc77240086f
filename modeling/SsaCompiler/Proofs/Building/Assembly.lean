import SsaCompiler.Proofs.Building.Layout
import SsaCompiler.Proofs.Building.Steps

/-!
Functions assembled with the operations of a builder, in any order and with any operands. Nothing
that is known of lowered functions can be said of them, but what building records holds: blocks have
numbers of their own, a register is the result of one instruction and has its type, operations on
numbers have the type of their results, and the first terminator of a block stays.
-/
namespace SsaCompiler.Ir

/-- Comparisons, whose result is a boolean whatever they compare. -/
def Op.Compares : Op → Prop
  | icmp .. | fcmp .. => True
  | _ => False

/-- The type of the result of an operation on numbers, whatever its operands are. -/
def Op.Typed (ty : Ty) : Op → Prop
  | binary op .. => ty = op.ty
  | icmp .. | fcmp .. => ty = .i1
  | _ => True

/-- What building records of an instruction: its result has a register of its type, and an
instruction without a result is void. -/
structure Instr.Recorded (types : List Ty) (i : Instr) : Prop where
  result : ∀ r, i.result = some r → types[r]? = some i.ty
  typed : i.op.Typed i.ty
  void : i.result = none → i.ty = .void

theorem Instr.Recorded.compares {types : List Ty} {i : Instr} (h : i.Recorded types)
    (hop : i.op.Compares) : i.ty = .i1 := by
  have htyped := h.typed
  cases hi : i.op <;> simp_all [Op.Compares, Op.Typed]

theorem Instr.Recorded.mono {types types' : List Ty} {i : Instr} (h : i.Recorded types)
    (hgrow : types <+: types') : i.Recorded types' := by
  refine ⟨fun r hr => ?_, h.typed, h.void⟩
  obtain ⟨more, rfl⟩ := hgrow
  have hold := h.result r hr
  rw [List.getElem?_append_left (List.getElem?_eq_some_iff.mp hold).1, hold]

/-- New edges of a phi change neither its type nor its register. -/
theorem Instr.Recorded.mapIncoming {types : List Ty} {i : Instr} (h : i.Recorded types)
    (F : List (Value × BlockId) → List (Value × BlockId)) : (i.mapIncoming F).Recorded types := by
  refine ⟨h.result, ?_, h.void⟩
  have htyped := h.typed
  cases hphi : i.op <;> simp_all [Instr.mapIncoming, Op.mapIncoming, Op.Typed]

namespace Builder

variable {b b' : Builder} {ty : Ty} {op : Op} {i : Instr}

/-- One operation on a builder. -/
inductive Operates (b : Builder) : Builder → Prop
  | appendBlock (name : String) : Operates b (b.appendBlock name).2
  | moveToEnd (id : BlockId) : Operates b (b.moveToEnd id)
  | removeBlock (id : BlockId) : Operates b (b.removeBlock id)
  | position (id : BlockId) : Operates b (b.position id)
  | binary (op : BinOp) (lhs rhs : Value) {v : Value} {b' : Builder} :
      b.binary op lhs rhs = .ok (v, b') → Operates b b'
  | icmp (pred : IntPred) (lhs rhs : Value) {v : Value} {b' : Builder} :
      b.icmp pred lhs rhs = .ok (v, b') → Operates b b'
  | fcmp (pred : FloatPred) (lhs rhs : Value) {v : Value} {b' : Builder} :
      b.fcmp pred lhs rhs = .ok (v, b') → Operates b b'
  | call (callee : String) (args : List Value) (ret : Ty) {v : Option Value} {b' : Builder} :
      b.call callee args ret = .ok (v, b') → Operates b b'
  | phi (ty : Ty) (incoming : List (Value × BlockId)) {v : Value} {b' : Builder} :
      b.phi ty incoming = .ok (v, b') → Operates b b'
  | addIncoming (phi value : Value) (source : BlockId) :
      Operates b (b.addIncoming phi value source)
  | alloca (ty : Ty) {v : Value} {b' : Builder} : b.alloca ty = .ok (v, b') → Operates b b'
  | load (ty : Ty) (ptr : Value) {v : Value} {b' : Builder} :
      b.load ty ptr = .ok (v, b') → Operates b b'
  | store (value ptr : Value) {b' : Builder} : b.store value ptr = .ok b' → Operates b b'
  | elementPtr (elem : Ty) (base index : Value) {v : Value} {b' : Builder} :
      b.elementPtr elem base index = .ok (v, b') → Operates b b'
  | terminate (t : Terminator) {b' : Builder} : b.terminate t = .ok b' → Operates b b'

/-- Any number of operations, one after the other. -/
abbrev Assembles : Builder → Builder → Prop := Relation.ReflTransGen Operates

/-- What building keeps. -/
structure Orderly (b : Builder) : Prop where
  ids : b.body.ids.Nodup
  bounded : ∀ v ∈ b.body.ids, v < b.body.nextBlock
  results : b.body.results.Nodup
  recorded : ∀ x ∈ b.body.blocks, ∀ i ∈ x.instrs, i.Recorded b.body.regTypes

theorem orderly_start (f : Function) : (start f).Orderly where
  ids := by simp [start, Body.empty, Body.addBlock, Body.ids]
  bounded := by simp [start, Body.empty, Body.addBlock, Body.ids]
  results := by simp [start, Body.empty, Body.addBlock, Body.results]
  recorded := by simp [start, Body.empty, Body.addBlock]

namespace Orderly

/-- Registers that are defined have a type. -/
theorem reg_lt (h : b.Orderly) {x : Block} {r : Reg} (hx : x ∈ b.body.blocks)
    (hr : r ∈ definedBy x.instrs) : r < b.body.regTypes.length := by
  obtain ⟨i, hi, hres⟩ := mem_definedBy.mp hr
  exact (List.getElem?_eq_some_iff.mp ((h.recorded x hx i hi).result r hres)).1

theorem position (h : b.Orderly) (id : BlockId) : (b.position id).Orderly :=
  ⟨h.ids, h.bounded, h.results, h.recorded⟩

/-- A register is the result of one instruction if it was so before, and no block but `v` has new
results. -/
theorem nodup_results (h : b.Orderly) (hids : b'.body.ids.Nodup) (v : BlockId)
    (hself : ∀ y ∈ b'.body.blocks, (definedBy y.instrs).Nodup)
    (hmem : ∀ y ∈ b'.body.blocks, ∀ r ∈ definedBy y.instrs,
      (∃ x ∈ b.body.blocks, x.id = y.id ∧ r ∈ definedBy x.instrs) ∨
        y.id = v ∧ b.body.regTypes.length ≤ r) : b'.body.results.Nodup := by
  refine Body.nodup_results hids hself fun y hy z hz hne r hry hrz => ?_
  rcases hmem y hy r hry with ⟨x, hx, hxy, hrx⟩ | ⟨hy, hr⟩ <;>
    rcases hmem z hz r hrz with ⟨x', hx', hxz, hrx'⟩ | ⟨hz, hr'⟩
  · rw [← hxy, ← hxz, Body.definition_unique h.results hx hx' hrx hrx'] at hne
    exact hne rfl
  · exact (h.reg_lt hx hrx).not_ge hr'
  · exact (h.reg_lt hx' hrx').not_ge hr
  · exact hne (hy.trans hz.symm)

/-- No new instructions, no new results. -/
theorem nodup_results_of_mem (h : b.Orderly) (hids : b'.body.ids.Nodup)
    (hmem : ∀ y ∈ b'.body.blocks, y ∈ b.body.blocks ∨ y.instrs = []) : b'.body.results.Nodup := by
  refine h.nodup_results hids 0 (fun y hy => ?_) fun y hy r hr => ?_
  · rcases hmem y hy with hy | hempty
    · exact Body.nodup_definedBy h.results hy
    · simp [hempty]
  · rcases hmem y hy with hy | hempty
    · exact .inl ⟨y, hy, rfl, hr⟩
    · simp [hempty] at hr

theorem appendBlock (h : b.Orderly) (name : String) : (b.appendBlock name).2.Orderly := by
  have hids : (b.appendBlock name).2.body.ids.Nodup := nodup_ids_appendBlock h.bounded h.ids
  have hmem : ∀ x ∈ (b.appendBlock name).2.body.blocks, x ∈ b.body.blocks ∨ x.instrs = [] :=
    fun x hx => (List.mem_append.mp hx).imp_right fun hx => by rw [List.mem_singleton.mp hx]
  refine ⟨hids, fun v hv => ?_, h.nodup_results_of_mem hids hmem, fun x hx i hi => ?_⟩
  · rw [ids_appendBlock, List.mem_append, List.mem_singleton] at hv
    rcases hv with hv | rfl
    · exact Nat.lt_succ_of_lt (h.bounded v hv)
    · exact Nat.lt_succ_self _
  · rcases hmem x hx with hx | hempty
    · exact h.recorded x hx i hi
    · simp [hempty] at hi

theorem removeBlock (h : b.Orderly) (id : BlockId) : (b.removeBlock id).Orderly := by
  have hids : (b.removeBlock id).body.ids.Nodup := Body.nodup_ids_removeBlock h.ids
  refine ⟨hids, fun v hv => h.bounded v (Body.mem_ids_of_mem_ids_removeBlock hv), ?_, fun x hx => ?_⟩
  · exact h.nodup_results_of_mem hids fun x hx => .inl (Body.mem_of_mem_removeBlock hx)
  · exact h.recorded x (Body.mem_of_mem_removeBlock hx)

theorem moveToEnd (h : b.Orderly) (id : BlockId) : (b.moveToEnd id).Orderly := by
  obtain ⟨blocks, heq, hperm⟩ := b.exists_perm_moveToEnd id
  rw [heq]
  exact ⟨(hperm.map _).nodup_iff.mpr h.ids, fun v hv => h.bounded v ((hperm.map _).mem_iff.mp hv),
    (hperm.flatMap_right _).nodup_iff.mpr h.results,
    fun y hy => h.recorded y (hperm.mem_iff.mp hy)⟩

/-- Operations that change a block in place, but not the results of its instructions. -/
theorem of_first (h : b.Orderly) {p : Block → Bool} {g : Block → Block}
    (hblocks : b'.body.blocks = modifyFirst p g b.body.blocks)
    (hnext : b'.body.nextBlock = b.body.nextBlock)
    (htypes : b'.body.regTypes = b.body.regTypes) (hid : ∀ x, (g x).id = x.id)
    (hdefs : ∀ x, definedBy (g x).instrs = definedBy x.instrs)
    (hinstrs : ∀ x ∈ b.body.blocks, ∀ i ∈ (g x).instrs, i.Recorded b.body.regTypes) :
    b'.Orderly := by
  have hids : b'.body.ids = b.body.ids := by
    rw [Body.ids, hblocks]
    exact map_modifyFirst hid
  have hresults : b'.body.results = b.body.results := by
    rw [Body.results, hblocks, List.flatMap_def, map_modifyFirst hdefs]
    rfl
  refine ⟨hids ▸ h.ids, fun v hv => ?_, hresults ▸ h.results, fun y hy => ?_⟩
  · rw [hnext]
    exact h.bounded v (hids ▸ hv)
  · rw [hblocks] at hy
    rw [htypes]
    obtain ⟨x, hx, rfl | ⟨_, rfl⟩⟩ := exists_of_mem_modifyFirst hy
    · exact h.recorded y hx
    · exact hinstrs x hx

/-- Operations that add an instruction. Its result is a new register. -/
theorem adds (h : b.Orderly) {x : Block} {pre post : List Instr} (hadds : b.Adds x pre i post b')
    (htyped : i.op.Typed i.ty) (hvoid : i.result = none → i.ty = .void) : b'.Orderly := by
  have hids : b'.body.ids.Nodup := hadds.replaces.ids ▸ h.ids
  have hold : ∀ y ∈ b.body.blocks, ∀ j ∈ y.instrs, j.Recorded b'.body.regTypes :=
    fun y hy j hj => (h.recorded y hy j hj).mono (hadds.regTypes ▸ List.prefix_append _ _)
  have hperm : (pre ++ i :: post).Perm (i :: x.instrs) := hadds.split ▸ List.perm_middle
  have hdefs r : r ∈ definedBy (pre ++ i :: post) ↔ i.result = some r ∨ r ∈ definedBy x.instrs := by
    rw [definedBy, (hperm.filterMap _).mem_iff]
    cases hres : i.result <;> simp [hres, definedBy, eq_comm]
  have hmem := fun y => (hadds.replaces.mem y).mp
  refine ⟨hids, fun v hv => ?_, h.nodup_results hids x.id (fun y hy => ?_) fun y hy r hr => ?_,
    fun y hy j hj => ?_⟩
  · rw [hadds.replaces.next]
    exact h.bounded v (hadds.replaces.ids ▸ hv)
  · rcases hmem y hy with ⟨hy, _⟩ | rfl
    · exact Body.nodup_definedBy h.results hy
    · have hnd := Body.nodup_definedBy h.results hadds.mem
      rw [definedBy, (hperm.filterMap _).nodup_iff]
      cases hres : i.result with
      | none => rwa [List.filterMap_cons_none hres]
      | some r =>
        have hnew : r ∉ definedBy x.instrs := fun hr => by
          exact (h.reg_lt hadds.mem hr).ne (hadds.result r hres)
        rw [List.filterMap_cons_some hres]
        exact List.nodup_cons.mpr ⟨hnew, hnd⟩
  · rcases hmem y hy with ⟨hy, _⟩ | rfl
    · exact .inl ⟨y, hy, rfl, hr⟩
    · rcases (hdefs r).mp hr with hres | hr
      · exact .inr ⟨rfl, (hadds.result r hres).ge⟩
      · exact .inl ⟨x, hadds.mem, rfl, hr⟩
  · rcases hmem y hy with ⟨hy, _⟩ | rfl
    · exact hold y hy j hj
    · rcases List.mem_cons.mp (hperm.mem_iff.mp hj) with rfl | hj
      · exact ⟨fun r hr => hadds.regType hr, htyped, hvoid⟩
      · exact hold x hadds.mem j hj

theorem push (h : b.Orderly) {v : Option Value} (hok : b.push ty op = .ok (v, b'))
    (htyped : op.Typed ty) : b'.Orderly := by
  obtain ⟨x, hx, hcur⟩ : ∃ x ∈ b.body.blocks, x.id = b.current := by
    unfold Builder.push at hok
    split at hok
    all_goals
      obtain ⟨c, hc, _⟩ := bind_eq_ok.mp hok
      have hcurrent := exists_current hc
      exact hcurrent
  exact h.adds (push_eq_ok h.ids hx hcur hok).2 htyped fun hres => by simpa [newInstr] using hres

theorem pushValue (h : b.Orderly) {v : Value} (hok : b.pushValue ty op = .ok (v, b'))
    (htyped : op.Typed ty) : b'.Orderly := by
  obtain ⟨⟨w, c⟩, hpush, heq⟩ := bind_eq_ok.mp hok
  cases heq
  exact h.push hpush htyped

theorem phi (h : b.Orderly) {incoming : List (Value × BlockId)} {v : Value}
    (hok : b.phi ty incoming = .ok (v, b')) : b'.Orderly := by
  obtain ⟨c, hc, _⟩ := bind_eq_ok.mp hok
  obtain ⟨x, hx, hcur⟩ := exists_current hc
  exact h.adds (phi_eq_ok h.ids hx hcur hok).2 trivial nofun

theorem addIncoming (h : b.Orderly) (phi value : Value) (source : BlockId) :
    (b.addIncoming phi value source).Orderly := by
  unfold Builder.addIncoming
  split
  · refine h.of_first rfl rfl rfl (fun _ => rfl) (fun x => ?_) fun x hx i hi => ?_
    · have hresults : ∀ is : List Instr, definedBy is = (is.map (·.result)).filterMap id := by
        simp [definedBy]
      rw [hresults, hresults]
      exact congrArg _ (map_modifyFirst fun _ => rfl)
    · obtain ⟨j, hj, rfl | ⟨_, rfl⟩⟩ := exists_of_mem_modifyFirst hi
      · exact h.recorded x hx i hj
      · exact (h.recorded x hx j hj).mapIncoming _
  · exact h

theorem alloca (h : b.Orderly) {v : Value} (hok : b.alloca ty = .ok (v, b')) : b'.Orderly := by
  obtain ⟨_, x, _, hadds⟩ := alloca_eq_ok h.ids hok
  exact h.adds hadds trivial nofun

theorem terminate (h : b.Orderly) {t : Terminator} (hok : b.terminate t = .ok b') : b'.Orderly := by
  unfold Builder.terminate Builder.updateCurrent at hok
  split at hok
  case isFalse => cases hok
  case isTrue =>
    cases hok
    exact h.of_first rfl rfl rfl (fun _ => rfl) (fun _ => rfl) h.recorded

/-- Each operation keeps the order. -/
theorem operates (h : b.Orderly) (hop : b.Operates b') : b'.Orderly := by
  cases hop with
  | appendBlock name => exact h.appendBlock name
  | moveToEnd id => exact h.moveToEnd id
  | removeBlock id => exact h.removeBlock id
  | position id => exact h.position id
  | binary _ _ _ hok => exact h.pushValue hok rfl
  | icmp _ _ _ hok => exact h.pushValue hok rfl
  | fcmp _ _ _ hok => exact h.pushValue hok rfl
  | call _ _ _ hok => exact h.push hok trivial
  | phi _ _ hok => exact h.phi hok
  | addIncoming phi value source => exact h.addIncoming phi value source
  | alloca _ hok => exact h.alloca hok
  | load _ _ hok => exact h.pushValue hok trivial
  | store _ _ hok =>
    obtain ⟨⟨w, c⟩, hpush, heq⟩ := bind_eq_ok.mp hok
    cases heq
    exact h.push hpush trivial
  | elementPtr _ _ _ hok => exact h.pushValue hok trivial
  | terminate _ hok => exact h.terminate hok

theorem assembles (h : b.Orderly) (hops : b.Assembles b') : b'.Orderly := by
  induction hops with
  | refl => exact h
  | tail _ hop ih => exact ih.operates hop

end Orderly

/-- Each operation keeps the numbers, names and terminators of blocks. -/
theorem Operates.keepsBlocks (hop : b.Operates b') : b.KeepsBlocks b' := by
  cases hop with
  | appendBlock name => exact (moves_appendBlock b name).keepsBlocks
  | moveToEnd id => exact (moves_moveToEnd b id).keepsBlocks
  | removeBlock id => exact (moves_removeBlock b id).keepsBlocks
  | position id => exact (moves_position b id).keepsBlocks
  | addIncoming phi value source =>
    cases phi with
    | reg r => exact (moves_addIncoming b r value source).keepsBlocks
    | _ => exact .refl b
  | binary _ _ _ hok | icmp _ _ _ hok | fcmp _ _ _ hok | load _ _ hok | elementPtr _ _ _ hok =>
    exact (moves_pushValue hok).keepsBlocks
  | call _ _ _ hok => exact (moves_push hok).keepsBlocks
  | phi _ _ hok => exact (moves_phi hok).keepsBlocks
  | alloca _ hok => exact (moves_alloca hok).keepsBlocks
  | store _ _ hok => exact (moves_store hok).keepsBlocks
  | terminate _ hok => exact (moves_terminate hok).keepsBlocks

theorem Assembles.keepsBlocks (hops : b.Assembles b') : b.KeepsBlocks b' := by
  induction hops with
  | refl => exact .refl b
  | tail _ hop ih => exact ih.trans hop.keepsBlocks

/-- A builder is orderly at every point of the assembly of a function. From there on, the numbers of
its blocks are not given out again, and no terminator is replaced. -/
theorem assembly_orderly (f : Function) (b : Builder) (h : (start f).Assembles b) :
    b.Orderly ∧ ∀ b', b.Assembles b' →
      (∀ name, (b'.appendBlock name).1 ∉ b.body.ids) ∧
      ∀ x ∈ b.body.blocks, ∀ y ∈ b'.body.blocks, y.id = x.id →
        y.name = x.name ∧ ∀ t, x.term = some t → y.term = some t := by
  have horderly := (orderly_start f).assembles h
  refine ⟨horderly, fun b' h' => ⟨fun name hmem => ?_, fun x hx y hy hid => ?_⟩⟩
  · exact (horderly.bounded _ hmem).not_ge h'.keepsBlocks.next
  · rcases h'.keepsBlocks.blocks y hy with ⟨z, hz, hzy, hname, hterm⟩ | hnew
    · obtain rfl := Body.eq_of_id_eq horderly.ids hz hx (hzy.trans hid)
      refine ⟨hname.symm, fun t ht => ?_⟩
      rw [ht] at hterm
      exact (hterm.resolve_left nofun).symm
    · exact absurd (hid ▸ hnew) (horderly.bounded _ (List.mem_map_of_mem hx)).not_ge

/-- A function that has returned does not branch. -/
theorem returned_orderly : ∃ b b' : Builder, (start ⟨"f", [], .void, none⟩).Assembles b ∧
    b.Orderly ∧ b.terminate (.br 0) = .ok b' ∧ (b'.appendBlock "next").1 ∉ b.body.ids ∧
      ∀ y ∈ b'.body.blocks, y.id = 0 → y.term = some (.ret none) := by
  have h : (start ⟨"f", [], .void, none⟩).Assembles _ := .single (.terminate (.ret none) rfl)
  obtain ⟨horderly, hlater⟩ := assembly_orderly _ _ h
  obtain ⟨hids, hblocks⟩ := hlater _ (.single (.terminate (.br 0) rfl))
  refine ⟨_, _, h, horderly, rfl, hids "next", fun y hy hid => ?_⟩
  exact (hblocks ⟨0, "entry", [], some (.ret none)⟩ (List.mem_singleton.mpr rfl) y hy hid).2 _ rfl

end Builder

end SsaCompiler.Ir
