import SsaCompiler.Proofs.Building.Steps
import SsaCompiler.Proofs.Lowering.Progress
import SsaCompiler.Proofs.Lowering.Scripts

/-!
Lowering does not break the rules of building, whatever is lowered into whatever module. While a
function is built there is a current block, and code is only emitted into blocks without a terminator.
If the entry came first and the stack slots were in it, this stays so. It is so at the end of every
step, also of one that fails, so one can go on with what it leaves.
-/
namespace SsaCompiler

open Ir LowerM

namespace Ir.Builder

variable {b b' b0 : Builder} {v : BlockId} {k : Demands} {flow flow' : Flow} {T U W : List BlockId}

/-- Code may be emitted: there is a current block, new blocks get new numbers, the first block is the
entry, and all stack slots are in it. -/
structure Standing (b : Builder) : Prop where
  current : b.current ∈ b.body.ids
  fresh : ∀ v ∈ b.body.ids, v < b.body.nextBlock
  entry : b.body.entryId? = some 0
  slots : ∀ x ∈ b.body.blocks, ∀ i ∈ x.instrs, i.op.isAlloca = true → x.id = 0

/-- The first block is the entry, and all stack slots are in it. -/
structure Rooted (b : Builder) : Prop where
  entry : b.body.entryId? = some 0
  slots : ∀ x ∈ b.body.blocks, ∀ i ∈ x.instrs, i.op.isAlloca = true → x.id = 0

/-- The block `v` is there. If it is asked for, it has a terminator unless control goes on in it. -/
def Bears (k : Demands) (b : Builder) (v : BlockId) (flow : Flow) : Prop :=
  v ∈ b.body.ids ∧
    (k.tidy → ∀ x ∈ b.body.blocks, x.id = v → (x.term = none ↔ flow = .continues))

/-- The current block is there and takes code, and new blocks get new numbers. -/
structure Working (k : Demands) (b : Builder) : Prop where
  bears : b.Bears k b.current .continues
  fresh : ∀ v ∈ b.body.ids, v < b.body.nextBlock
  distinct : k.tidy → b.body.ids.Nodup
  rooted : k.rooted → b.Rooted

/-- Between `b` and `b'` code has been emitted into blocks of `T` and new ones. The others take code as
before. -/
structure Spares (k : Demands) (T : List BlockId) (b b' : Builder) : Prop where
  next : b.body.nextBlock ≤ b'.body.nextBlock
  spared : ∀ v < b.body.nextBlock, v ∉ T → b.Bears k v .continues → b'.Bears k v .continues
  fresh : ∀ v ∈ b'.body.ids, v < b'.body.nextBlock
  distinct : k.tidy → b'.body.ids.Nodup
  rooted : k.rooted → b'.Rooted

/-- Building has come to a block of `T` or a new one. It has a terminator unless control goes on in
it. -/
structure Reaches (k : Demands) (T : List BlockId) (flow : Flow) (b b' : Builder) : Prop
    extends Spares k T b b' where
  moved : b'.current ∈ T ∨ b.body.nextBlock ≤ b'.current
  bears : b'.Bears k b'.current flow

theorem Working.start (h : b.Working k) : b.Reaches k [b.current] .continues b :=
  ⟨⟨le_rfl, fun _ _ _ hv => hv, h.fresh, h.distinct, h.rooted⟩, .inl (List.mem_singleton.mpr rfl),
    h.bears⟩

theorem Reaches.working (h : b0.Reaches k T .continues b) : b.Working k :=
  ⟨h.bears, h.fresh, h.distinct, h.rooted⟩

theorem Spares.here (h : b0.Spares k T b) : b.Spares k U b :=
  ⟨le_rfl, fun _ _ _ hv => hv, h.fresh, h.distinct, h.rooted⟩

theorem Spares.trans (h : b0.Spares k T b) (h' : b.Reaches k U flow b') (hT : ∀ v ∈ T, v ∈ W)
    (hU : ∀ v ∈ U, v ∈ W ∨ b0.body.nextBlock ≤ v) : b0.Reaches k W flow b' where
  next := h.next.trans h'.next
  spared v hlt hW hv := by
    refine h'.spared v (hlt.trans_le h.next) (fun hmem => ?_)
      (h.spared v hlt (fun hmem => hW (hT v hmem)) hv)
    exact (hU v hmem).elim hW hlt.not_ge
  fresh := h'.fresh
  distinct := h'.distinct
  rooted := h'.rooted
  moved := h'.moved.elim (hU _) fun hge => .inr (h.next.trans hge)
  bears := h'.bears

/-- Steps that begin in the block that building has come to. -/
theorem Reaches.onward (h : b0.Reaches k T flow b) (h' : b.Reaches k [b.current] flow' b') :
    b0.Reaches k T flow' b' := h.toSpares.trans h' (fun _ hv => hv) (by simpa using h.moved)

section Steps

variable {new : BlockId → Op → Prop} {ends : Terminator → Prop} {M : List BlockId} {R : List Reg}

theorem entryId?_eq (b : Builder) : b.body.entryId? = b.body.ids.head? := by
  simp [Body.entryId?, Body.ids]

/-- A step that adds no slots leaves all of them in the entry. -/
theorem Rooted.of_moves (h : b.Rooted) (hmoves : Moves new ends M R b b')
    (hnew : ∀ v op, new v op → op.isAlloca = false) (hentry : b'.body.entryId? = some 0) :
    b'.Rooted := by
  refine ⟨hentry, fun y' hy' i' hi' halloca => ?_⟩
  have hplain : i'.op.isPhi = false := by cases hop : i'.op <;> simp_all [Op.isAlloca, Op.isPhi]
  rcases hmoves.plain hy' hi' hplain with ⟨y, hy, hid, i, hi, hop⟩ | hop
  · exact hid ▸ h.slots y hy i hi (hop ▸ halloca)
  · rw [hnew _ _ hop] at halloca
    cases halloca

theorem Rooted.of_stays (h : b.Rooted) (hstays : b.Stays b') (hmoves : Moves new ends M R b b')
    (hnew : ∀ v op, new v op → op.isAlloca = false) : b'.Rooted :=
  h.of_moves hmoves hnew (by rw [entryId?_eq, hstays.ids, ← entryId?_eq, h.entry])

/-- A slot goes into the first block, which is the entry. -/
theorem Rooted.alloca (h : b.Rooted) {ty : Ty} {w : Value} (hok : b.alloca ty = .ok (w, b')) :
    b'.Rooted := by
  unfold Builder.alloca at hok
  dsimp only [Body.newReg] at hok
  split at hok
  case h_1 => cases hok
  case h_2 x rest hblocks =>
    have hentry : x.id = 0 := by
      have hfirst := h.entry
      rw [Body.entryId?, hblocks] at hfirst
      exact Option.some.inj hfirst
    cases hok
    refine ⟨congrArg some hentry, fun y hy i hi hslot => ?_⟩
    rcases List.mem_cons.mp hy with rfl | hy
    · exact hentry
    · exact h.slots y (hblocks ▸ List.mem_cons_of_mem x hy) i hi hslot

theorem entryId?_removeBlock (hentry : b.body.entryId? = some 0) (hv : v ≠ 0) :
    (b.body.removeBlock v).entryId? = some 0 := by
  unfold Body.entryId? Body.removeBlock at *
  cases hblocks : b.body.blocks with
  | nil =>
    rw [hblocks] at hentry
    cases hentry
  | cons x xs =>
    rw [hblocks] at hentry
    have hx : x.id = 0 := Option.some.inj hentry
    simp [hx, Ne.symm hv]

/-- Blocks other than the entry may be moved. -/
theorem Rooted.moveToEnd (h : b.Rooted) (hv : v ≠ 0) : (b.moveToEnd v).Rooted := by
  refine h.of_moves (moves_moveToEnd b v) (fun _ _ hnew => hnew.elim) ?_
  unfold Builder.moveToEnd
  split
  · have hentry := entryId?_removeBlock h.entry hv
    simp only [Body.entryId?, List.head?_append] at hentry ⊢
    rw [Option.map_eq_some_iff] at hentry
    obtain ⟨x, hx, hid⟩ := hentry
    rw [hx, Option.some_or, Option.map_some, hid]
  · exact h.entry

/-- A block takes code until it ends. -/
theorem Bears.of_moves (h : b.Bears k v .continues) (hmoves : Moves new ends M R b b')
    (hv : v ∈ b'.body.ids) (hends : ∀ t, ends t → v ≠ b.current) : b'.Bears k v .continues := by
  refine ⟨hv, fun ht y' hy' hid => iff_of_true ?_ rfl⟩
  rcases hmoves.blocks y' hy' with ⟨y, hy, htouches⟩ | ⟨_, _, _, hnone⟩
  · have hy' := htouches.id.symm.trans hid
    rcases htouches.term with hsame | ⟨hcur, _, t, _, ht⟩
    · exact hsame.trans ((h.2 ht y hy hy').mpr rfl)
    · exact absurd (hy'.symm.trans hcur) (hends t ht)
  · exact hnone

theorem Bears.block? (h : b.Bears k v flow) :
    ∃ x, b.body.block? v = some x ∧ (k.tidy → (x.term = none ↔ flow = .continues)) := by
  obtain ⟨x, hx⟩ := Option.isSome_iff_exists.mp (Body.block?_isSome.mpr h.1)
  have hid : x.id = v := by simpa using List.find?_some hx
  exact ⟨x, hx, fun ht => h.2 ht x (List.mem_of_find?_eq_some hx) hid⟩

/-- A step that stays in its block. -/
theorem Reaches.stays (h : b0.Reaches k T .continues b) (hstays : b.Stays b')
    (hmoves : Moves new ends M R b b') (hrooted : b.Rooted → b'.Rooted)
    (hbears : b'.Bears k b.current flow) : b0.Reaches k T flow b' where
  next := h.next.trans hstays.next.ge
  spared v hlt hT hv := by
    refine (h.spared v hlt hT hv).of_moves hmoves (hstays.ids ▸ (h.spared v hlt hT hv).1) fun _ _ => ?_
    rintro rfl
    exact h.moved.elim hT hlt.not_ge
  fresh := by
    rw [hstays.ids, hstays.next]
    exact h.fresh
  distinct ht := hstays.ids ▸ h.distinct ht
  rooted hr := hrooted (h.rooted hr)
  moved := hstays.current ▸ h.moved
  bears := hstays.current ▸ hbears

theorem Reaches.lingers (h : b0.Reaches k T .continues b) (hstays : b.Stays b')
    (hmoves : Moves new unended M R b b') (hrooted : b.Rooted → b'.Rooted) :
    b0.Reaches k T .continues b' :=
  h.stays hstays hmoves hrooted (h.bears.of_moves hmoves (hstays.ids ▸ h.bears.1) fun _ => False.elim)

/-- A step that stays in its block and adds no slots. -/
theorem Reaches.adds (h : b0.Reaches k T .continues b) (hstays : b.Stays b')
    (hmoves : Moves new unended M R b b') (hnew : ∀ v op, new v op → op.isAlloca = false) :
    b0.Reaches k T .continues b' :=
  h.lingers hstays hmoves fun hr => hr.of_stays hstays hmoves hnew

/-- New blocks may be removed, if they are not current. -/
theorem Reaches.removeBlock (h : b.Reaches k T flow b') (hv : b.body.nextBlock ≤ v) (hpos : v ≠ 0)
    (hcur : b'.current ≠ v) : b.Reaches k T flow (b'.removeBlock v) where
  next := h.next
  spared u hlt hT hu := (h.spared u hlt hT hu).of_moves (moves_removeBlock b' v)
    (Body.mem_ids_removeBlock_of_ne (h.spared u hlt hT hu).1 (hlt.trans_le hv).ne) fun _ => False.elim
  fresh u hu := h.fresh u (Body.mem_ids_of_mem_ids_removeBlock hu)
  distinct ht := Body.nodup_ids_removeBlock (h.distinct ht)
  rooted hr := (h.rooted hr).of_moves (moves_removeBlock b' v) (fun _ _ hnew => hnew.elim)
    (entryId?_removeBlock (h.rooted hr).entry hpos)
  moved := h.moved
  bears := ⟨Body.mem_ids_removeBlock_of_ne h.bears.1 hcur,
    fun ht x hx => h.bears.2 ht x (Body.mem_of_mem_removeBlock hx)⟩

end Steps

theorem working_start (f : Function) : (start f).Working k where
  bears := by simp [start, Body.addBlock, Body.empty, Body.ids, Bears]
  fresh := by simp [start, Body.addBlock, Body.empty, Body.ids]
  distinct _ := List.nodup_singleton _
  rooted _ := ⟨rfl, by simp [start, Body.addBlock, Body.empty]⟩

theorem Standing.working (h : b.Standing) : b.Working ⟨True, False⟩ :=
  ⟨⟨h.current, False.elim⟩, h.fresh, False.elim, fun _ => ⟨h.entry, h.slots⟩⟩

theorem Reaches.standing (h : b0.Reaches ⟨True, False⟩ T flow b) : b.Standing :=
  ⟨h.bears.1, h.fresh, (h.rooted trivial).entry, (h.rooted trivial).slots⟩

theorem Working.standing (h : b.Working ⟨True, False⟩) : b.Standing := h.start.standing

end Ir.Builder

section Judgements

variable {α β : Type} {b b0 : Builder} {x : LowerM α} {f : α → LowerM β} {k : Demands}
  {T : List BlockId} {flow : Flow} {v : BlockId}

/-- How a step may end: with a value and a builder that `Q` relates, or with an error that is not one
of building, and a builder that one can go on with. -/
def Ends (k : Demands) (Q : α → Builder → Prop) : Except CompileError α → Builder → Prop
  | .ok a, b => Q a b
  | .error e, b => b.Working k ∧ ∀ broken, e ≠ .build broken

/-- From the builder `b`, in every module and scope, the steps meet the demands, and may only end in
these ways. There is a builder at their end. -/
def Safe (k : Demands) (t : Script x) (b : Builder) (Q : α → Builder → Prop) : Prop :=
  ∀ s : Lowering, s.builder? = some b → t.Meets k s ∧
    ∃ b', (x.run.run s).2.builder? = some b' ∧ Ends k Q (x.run.run s).1 b'

namespace Safe

variable {t : Script x} {u : ∀ a, Script (f a)} {Q : α → Builder → Prop} {R : β → Builder → Prop}

theorem bind (ht : Safe k t b Q) (hu : ∀ a b', Q a b' → Safe k (u a) b' R) :
    Safe k (.bind t u) b R := by
  intro s hs
  obtain ⟨hmeets, b1, hb1, hends⟩ := ht s hs
  obtain ⟨⟨r, s1⟩, hrun⟩ : ∃ p, x.run.run s = p := ⟨_, rfl⟩
  rw [hrun] at hb1 hends
  cases r with
  | ok a =>
    obtain ⟨hrest, hends⟩ := hu a b1 hends s1 hb1
    refine ⟨⟨hmeets, fun a' s' hy => ?_⟩, run_bind_ok hrun ▸ hends⟩
    cases hrun.symm.trans hy
    exact hrest
  | error e =>
    refine ⟨⟨hmeets, fun a' s' hy => ?_⟩, run_bind_error hrun ▸ ⟨b1, hb1, hends⟩⟩
    cases hrun.symm.trans hy

theorem imp {Q' : α → Builder → Prop} (ht : Safe k t b Q) (h : ∀ a b', Q a b' → Q' a b') :
    Safe k t b Q' := by
  intro s hs
  obtain ⟨hmeets, b', hb', hends⟩ := ht s hs
  refine ⟨hmeets, b', hb', ?_⟩
  cases hr : (x.run.run s).1 with
  | ok a =>
    rw [hr] at hends
    exact h a b' hends
  | error e =>
    rw [hr] at hends
    exact hends

theorem pure {a : α} (h : Q a b) : Safe k (.pure a) b Q := fun _ hs => ⟨trivial, b, hs, h⟩

theorem throw {e : CompileError} (h : b.Working k) (he : e.Raised) : Safe k (.throw e) b Q := by
  refine fun s hs => ⟨trivial, b, hs, h, ?_⟩
  rintro _ rfl
  exact he

/-- A step that leaves the builder alone and does not fail. -/
theorem still (hmeets : ∀ s, t.Meets k s)
    (hy : ∀ s, ∃ a s', Yields x s a s' ∧ s'.builder? = s.builder?) (hQ : ∀ a, Q a b) :
    Safe k t b Q := by
  intro s hs
  obtain ⟨a, s', hy, hb⟩ := hy s
  rw [hy]
  exact ⟨hmeets s, b, hb.trans hs, hQ a⟩

/-- A building step that does not fail. -/
theorem build {step : Builder → Except BuildError (α × Builder)} {t : Script (LowerM.build step)}
    (hmeets : ∀ s : Lowering, s.builder? = some b → t.Meets k s) {a : α} {b' : Builder}
    (hok : step b = .ok (a, b')) (h : Q a b') : Safe k t b Q := by
  intro s hs
  rw [run_build hs, hok]
  exact ⟨hmeets s hs, b', rfl, h⟩

theorem emits {step : Builder → Except BuildError (α × Builder)} (hb : b.Bears k b.current .continues)
    (h : ∃ a b', step b = .ok (a, b') ∧ Q a b') : Safe k (.emits step) b Q := by
  obtain ⟨a, b', hok, hq⟩ := h
  obtain ⟨y, hy, hterm⟩ := hb.block?
  exact .build (fun s hs => ⟨b, y, hs, hy, fun ht => (hterm ht).mpr rfl⟩) hok hq

theorem emit {step : Builder → Except BuildError Builder} {Q : Builder → Prop}
    (hb : b.Bears k b.current .continues) (h : ∃ b', step b = .ok b' ∧ Q b') :
    Safe k (.emit step) b fun _ b' => Q b' := by
  obtain ⟨b', hok, hq⟩ := h
  exact .emits hb ⟨(), b', by rw [hok]; rfl, hq⟩

theorem edit {step : Builder → Builder} {hstep : Rearranges step} {Q : Builder → Prop}
    (h : Q (step b)) : Safe k (.edit hstep) b fun _ b' => Q b' :=
  .build (fun _ hs => Option.isSome_of_eq_some hs) rfl h

end Safe

/-- Wherever code may be emitted, the steps are safe. They end in the block where they began or in a new
one, and control goes on there as `report` says. -/
def Secure (report : α → Flow) (t : Script x) : Prop :=
  ∀ k b, b.Working k → Safe k t b fun a b' => b.Reaches k [b.current] (report a) b'

section Ready

variable {report : α → Flow} {t : Script x} (ht : Secure report t) {s : Lowering} (h : s.Ready)
include ht h

theorem Secure.ends : ∃ b', (x.run.run s).2.builder? = some b' ∧
    Ends ⟨False, False⟩ (fun _ b' => b'.current ∈ b'.body.ids) (x.run.run s).1 b' := by
  have hworking : s.builder.Working ⟨False, False⟩ :=
    ⟨⟨h.current, False.elim⟩, h.fresh, False.elim, False.elim⟩
  exact (((ht _ _ hworking).imp fun _ _ h => h.bears.1) s h.builder?_eq).2

/-- Where there is a current block, building does not fail. -/
theorem Secure.unbroken (broken : BuildError) : (x.run.run s).1 ≠ .error (.build broken) := by
  intro heq
  obtain ⟨b', _, hends⟩ := ht.ends h
  rw [heq] at hends
  exact hends.2 broken rfl

theorem Secure.current {a : α} {s' : Lowering} (hy : Yields x s a s') :
    s'.builder.current ∈ s'.builder.body.ids := by
  obtain ⟨b', hb', hends⟩ := ht.ends h
  rw [hy] at hb' hends
  rw [Lowering.builder_of_some hb']
  exact hends

end Ready

theorem Secure.after {report : α → Flow} {t : Script x} (ht : Secure report t)
    (h : b0.Reaches k T .continues b) :
    Safe k t b fun a b' => b0.Reaches k T (report a) b' :=
  (ht k b h.working).imp fun _ _ => h.onward

namespace Ir.Builder

theorem bears_terminate {t : Terminator} {b' : Builder} (hcur : b.current ∈ b.body.ids)
    (hdistinct : k.tidy → b.body.ids.Nodup) (hstays : b.Stays b') (hok : b.terminate t = .ok b') :
    b'.Bears k b.current .terminated := by
  refine ⟨hstays.ids ▸ hcur, fun ht x hx hid => ?_⟩
  unfold terminate updateCurrent at hok
  rw [if_pos (Body.block?_isSome.mpr hcur)] at hok
  cases hok
  rw [Body.blocks_updateBlock (hdistinct ht)] at hx
  obtain ⟨y, _, rfl⟩ := List.mem_map.mp hx
  by_cases hy : y.id = b.current
  · simp [hy]
  · simp [hy] at hid

section Emitting

variable (h : b0.Reaches k T .continues b)
include h

theorem Reaches.push (ty : Ty) {op : Op} (hop : op.isAlloca = false) :
    Safe k (.emits (·.push ty op)) b fun _ b' => b0.Reaches k T .continues b' := by
  obtain ⟨w, b', hok, hstays⟩ := exists_push h.bears.1 ty op
  exact .emits h.bears ⟨w, b', hok, h.adds hstays (moves_push hok) fun _ _ hnew => hnew.2 ▸ hop⟩

theorem Reaches.value (ty : Ty) {op : Op} (hop : op.isAlloca = false) :
    Safe k (.emits (·.pushValue ty op)) b fun _ b' => b0.Reaches k T .continues b' := by
  obtain ⟨w, b', hok, hstays⟩ := exists_pushValue h.bears.1 ty op
  exact .emits h.bears ⟨w, b', hok, h.adds hstays (moves_pushValue hok) fun _ _ hnew => hnew.2 ▸ hop⟩

theorem Reaches.store (value ptr : Value) :
    Safe k (.emit (·.store value ptr)) b fun _ b' => b0.Reaches k T .continues b' := by
  obtain ⟨b', hok, hstays⟩ := exists_store h.bears.1 value ptr
  exact .emit h.bears ⟨b', hok, h.adds hstays (moves_store hok) fun _ _ hnew => hnew.2 ▸ rfl⟩

theorem Reaches.phi (ty : Ty) (incoming : List (Value × BlockId)) :
    Safe k (.emits (·.phi ty incoming)) b fun _ b' => b0.Reaches k T .continues b' := by
  obtain ⟨w, b', hok, hstays⟩ := exists_phi h.bears.1 ty incoming
  exact .emits h.bears ⟨w, b', hok, h.adds hstays (moves_phi hok) fun _ _ hnew => hnew.2 ▸ rfl⟩

theorem Reaches.alloca (ty : Ty) :
    Safe k (.alloca ty) b fun _ b' => b0.Reaches k T .continues b' := by
  obtain ⟨w, b', hok, hstays⟩ := exists_alloca h.bears.1 ty
  exact .build (fun s hs => ⟨b, hs, fun hr => (h.rooted hr).entry⟩) hok
    (h.lingers hstays (moves_alloca hok) fun hr => hr.alloca hok)

theorem Reaches.addIncoming (phi value : Value) (source : BlockId) :
    Safe k (.edit (.addIncoming phi value source)) b
      fun _ b' => b0.Reaches k T .continues b' := by
  refine .edit ?_
  cases phi with
  | reg r =>
    exact h.adds (stays_addIncoming ..) (moves_addIncoming b r value source) fun _ _ hnew => hnew.elim
  | _ => exact h

/-- The current block ends. -/
theorem Reaches.leave (t : Terminator) :
    Safe k (.emit (·.terminate t)) b fun _ b' => b0.Reaches k T .terminated b' := by
  obtain ⟨b', hok, hstays⟩ := exists_terminate h.bears.1 t
  have hmoves := moves_terminate hok
  exact .emit h.bears ⟨b', hok, h.stays hstays hmoves
    (fun hr => hr.of_stays hstays hmoves fun _ _ hnew => hnew.elim)
    (bears_terminate h.bears.1 h.distinct hstays hok)⟩

/-- A new block, which is not yet the current one. -/
theorem Reaches.appendBlock (name : String) : Safe k (.appendBlock name) b fun id b' =>
    id = b.body.nextBlock ∧ b'.body.nextBlock = id + 1 ∧ b'.current = b.current ∧
      b'.Bears k id .continues ∧ (∀ v, b.Bears k v .continues → b'.Bears k v .continues) ∧
      b0.Reaches k T .continues b' := by
  have hmoves := moves_appendBlock b name
  have hids : (b.appendBlock name).2.body.ids = _ := ids_appendBlock
  have hkept : ∀ v, b.Bears k v .continues → (b.appendBlock name).2.Bears k v .continues := fun v hv =>
    hv.of_moves hmoves (hids ▸ List.mem_append_left _ hv.1) fun _ => False.elim
  have hok : Except.ok (b.appendBlock name) =
    (.ok (b.body.nextBlock, (b.appendBlock name).2) : Except BuildError _) := rfl
  refine .build (fun _ hs => Option.isSome_of_eq_some hs) hok ⟨rfl, rfl, rfl,
    ⟨by simp [hids], fun _ y hy hid => iff_of_true ?_ rfl⟩, hkept,
    ⟨⟨h.next.trans (Nat.le_succ _), fun v hlt hT hv => hkept v (h.spared v hlt hT hv), ?_,
      fun ht => hmoves.distinct h.fresh (h.distinct ht), fun hr => ?_⟩, h.moved, hkept _ h.bears⟩⟩
  · rcases List.mem_append.mp hy with hy | hy
    · exact absurd hid (h.fresh _ (Body.id_mem_ids hy)).ne
    · rw [List.mem_singleton.mp hy]
  · intro v hv
    rw [hids, List.mem_append, List.mem_singleton] at hv
    exact hv.elim (fun hv => (h.fresh v hv).trans (Nat.lt_succ_self _)) fun hv => hv ▸ Nat.lt_succ_self _
  · refine (h.rooted hr).of_moves hmoves (fun _ _ hnew => hnew.elim) ?_
    have hentry := (h.rooted hr).entry
    rw [entryId?_eq] at hentry ⊢
    rw [hids, List.head?_append, hentry, Option.some_or]

end Emitting

/-- Going on in a block that takes code. -/
theorem Spares.turn (h : b0.Spares k T b) (hv : b0.Bears k v .continues) (hlt : v < b0.body.nextBlock)
    (hT : v ∉ T) : Safe k (.edit (.position v)) b
      fun _ b' => b0.Reaches k (v :: T) .continues b' := by
  refine .edit ⟨⟨h.next, fun u hu hne => h.spared u hu fun hmem => hne (List.mem_cons_of_mem _ hmem),
    h.fresh, h.distinct, fun hr => ⟨(h.rooted hr).entry, (h.rooted hr).slots⟩⟩,
    .inl List.mem_cons_self, h.spared v hlt hT hv⟩

theorem Spares.resume (h : b0.Spares k T b) (hv : b0.Bears k v .continues)
    (hlt : v < b0.body.nextBlock) (hT : v ∉ T) (hpos : v ≠ 0) :
    Safe k (.edit (.continueIn v)) b
      fun _ b' => b0.Reaches k (v :: T) .continues b' := by
  have hkept : ∀ u, b.Bears k u .continues → (b.moveToEnd v).Bears k u .continues := fun u hu =>
    hu.of_moves (moves_moveToEnd b v) (mem_ids_moveToEnd.mpr hu.1) fun _ => False.elim
  refine .edit ⟨⟨h.next.trans (next_moveToEnd b v).ge, fun u hu hne hbears => hkept u
    (h.spared u hu (fun hmem => hne (List.mem_cons_of_mem _ hmem)) hbears), fun u hu => ?_,
    fun ht => (moves_moveToEnd b v).distinct h.fresh (h.distinct ht), fun hr => ?_⟩,
    .inl List.mem_cons_self, hkept v (h.spared v hlt hT hv)⟩
  · exact (h.fresh u (mem_ids_moveToEnd.mp hu)).trans_eq (next_moveToEnd b v).symm
  · have hmoved := (h.rooted hr).moveToEnd hpos
    exact ⟨hmoved.entry, hmoved.slots⟩

/-- Three new blocks wait for their code. -/
structure Opens (k : Demands) (b b0 : Builder) : Prop where
  reaches : b.Reaches k [b.current] .continues b0
  current : b0.current = b.current
  below : b.current < b.body.nextBlock
  next : b0.body.nextBlock = b.body.nextBlock + 3
  waits : ∀ i < 3, b0.Bears k (b.body.nextBlock + i) .continues

theorem Opens.start (h : b.Opens k b0) : b0.Reaches k [b.current] .continues b0 :=
  h.current ▸ h.reaches.working.start

theorem Opens.turn {b' : Builder} (h : b.Opens k b0) (h' : b0.Spares k T b') (i : Nat) (hi : i < 3)
    (hT : b.body.nextBlock + i ∉ T) : Safe k (.edit (.position (b.body.nextBlock + i))) b'
      fun _ b' => b0.Reaches k ((b.body.nextBlock + i) :: T) .continues b' :=
  h'.turn (h.waits i hi) (h.next ▸ Nat.add_lt_add_left hi _) hT

theorem Opens.resume {b' : Builder} (h : b.Opens k b0) (h' : b0.Spares k T b') (i : Nat)
    (hi : i < 3) (hpos : i ≠ 0) (hT : b.body.nextBlock + i ∉ T) :
    Safe k (.edit (.continueIn (b.body.nextBlock + i))) b'
      fun _ b' => b0.Reaches k ((b.body.nextBlock + i) :: T) .continues b' :=
  h'.resume (h.waits i hi) (h.next ▸ Nat.add_lt_add_left hi _) hT fun h => hpos (Nat.add_eq_zero_iff.mp h).2

/-- What goes on in these blocks goes on in new ones. -/
theorem Opens.close {b' : Builder} (h : b.Opens k b0) (h' : b0.Reaches k T flow b')
    (hT : ∀ v ∈ T, v = b.current ∨ b.body.nextBlock ≤ v) : b.Reaches k [b.current] flow b' :=
  h.reaches.toSpares.trans h' (fun _ hv => hv) (by simpa using hT)

/-- Loops, branches and guarded divisions begin by appending three blocks. -/
theorem Working.threeBlocks (h : b.Working k) {first second third : String}
    {f : BlockId → BlockId → BlockId → LowerM α} {t : ∀ i j l, Script (f i j l)}
    {Q : α → Builder → Prop} (ht : ∀ b0, b.Opens k b0 →
      Safe k (t b.body.nextBlock (b.body.nextBlock + 1) (b.body.nextBlock + 2)) b0 Q) :
    Safe k (.bind (.appendBlock first) fun i => .bind (.appendBlock second) fun j =>
      .bind (.appendBlock third) fun l => t i j l) b Q := by
  refine (h.start.appendBlock _).bind ?_
  rintro _ b1 ⟨rfl, hnext1, hcur1, hnew1, _, h1⟩
  refine (h1.appendBlock _).bind ?_
  rintro _ b2 ⟨rfl, hnext2, hcur2, hnew2, hkept2, h2⟩
  refine (h2.appendBlock _).bind ?_
  rintro _ b3 ⟨rfl, hnext3, hcur3, hnew3, hkept3, h3⟩
  rw [hnext1] at hnew2 hnext2 ⊢
  rw [hnext2] at hnew3 hnext3 ⊢
  refine ht b3 ⟨h3, hcur3.trans (hcur2.trans hcur1), h.fresh _ h.bears.1, hnext3, ?_⟩
  intro i hi
  match i with
  | 0 => exact hkept3 _ (hkept2 _ hnew1)
  | 1 => exact hkept3 _ hnew2
  | 2 => exact hnew3

end Ir.Builder

end Judgements

/-- A script of secure steps behind which control goes on. -/
structure Straight {α : Type} (x : LowerM α) where
  script : Script x
  secure : Secure (fun _ => .continues) script

section Expressions

variable {α β : Type} {ctx : LowerContext} {x : LowerM α} {f : α → LowerM β}

namespace Straight

def pure (a : α) : Straight (Pure.pure a) := ⟨.pure a, fun _ _ h => .pure h.start⟩

def throw {e : CompileError} (he : e.Raised) : Straight (MonadExcept.throw e : LowerM α) :=
  ⟨.throw e, fun _ _ h => .throw h he⟩

def bind (hx : Straight x) (hf : ∀ a, Straight (f a)) : Straight (x >>= f) where
  script := .bind hx.script fun a => (hf a).script
  secure k b h := (hx.secure k b h).bind fun a _ h1 => (hf a).secure.after h1

/-- A step that leaves the builder alone and does not fail. -/
def still (t : Script x) (hmeets : ∀ k s, t.Meets k s)
    (hy : ∀ s, ∃ a s', Yields x s a s' ∧ s'.builder? = s.builder?) : Straight x :=
  ⟨t, fun k _ h => .still (hmeets k) hy fun _ => h.start⟩

def get : Straight (MonadState.get : LowerM Lowering) :=
  still .get (fun _ _ => trivial) fun _ => ⟨_, _, rfl, rfl⟩

def internString (text : String) : Straight (LowerM.internString text) :=
  still (.internString text) (fun _ _ => trivial) fun _ => ⟨_, _, rfl, rfl⟩

def declareRoutine (r : Routine) : Straight (LowerM.declareRoutine r) :=
  still (.declareRoutine r) (fun _ _ => trivial) fun _ => ⟨_, _, rfl, rfl⟩

def editScope (g : Scope → Scope) : Straight (LowerM.editScope g) :=
  still (.editScope g) (fun _ _ => trivial) fun _ => ⟨_, _, rfl, rfl⟩

def currentBlock : Straight LowerM.currentBlock :=
  ⟨.currentBlock, fun _ _ h => .build (fun _ hs => Option.isSome_of_eq_some hs) rfl h.start⟩

def push (ty : Ty) (op : Op) (hop : op.isAlloca = false) : Straight (build (·.push ty op)) :=
  ⟨.emits _, fun _ _ h => h.start.push ty hop⟩

def value (ty : Ty) (op : Op) (hop : op.isAlloca = false) : Straight (build (·.pushValue ty op)) :=
  ⟨.emits _, fun _ _ h => h.start.value ty hop⟩

/-- A guarded division ends in the block where its two ways meet, which is new. -/
def floatDivision (l r : Value) : Straight (LowerM.floatDivision ctx l r) :=
  Evaluated.ite (Q := fun x => Straight x) ((value _ (.binary .fdiv l r) rfl).bind fun _ => pure _) <|
    (internString _).bind fun _ => (declareRoutine _).bind fun _ => (declareRoutine _).bind fun _ =>
    (value _ (.fcmp .oeq r (.float .zero)) rfl).bind fun _ =>
    { script := .bind (.appendBlock _) fun _ => .bind (.appendBlock _) fun _ =>
        .bind (.appendBlock _) fun _ => .bind (.emit _) fun _ => .bind (.edit (.position _)) fun _ =>
        .bind (.emits _) fun _ => .bind (.emits _) fun _ => .bind (.emit _) fun _ =>
        .bind (.edit (.position _)) fun _ => .bind (.emits _) fun _ => .bind (.emit _) fun _ =>
        .bind (.edit (.position _)) fun _ => .bind (.emits _) fun _ => .pure _
      secure := fun k b hb => by
        refine hb.threeBlocks fun b0 ho => ?_
        have hbelow := ho.below
        refine (ho.start.leave _).bind fun _ b1 h1 => ?_
        refine (ho.turn h1.toSpares 0 (by decide) (by grind)).bind fun _ b2 h2 => ?_
        refine (h2.push _ rfl).bind fun _ b3 h3 => ?_
        refine (h3.push _ rfl).bind fun _ b4 h4 => ?_
        refine (h4.leave _).bind fun _ b5 h5 => ?_
        refine (ho.turn h5.toSpares 1 (by decide) (by grind)).bind fun _ b6 h6 => ?_
        refine (h6.value _ rfl).bind fun _ b7 h7 => ?_
        refine (h7.leave _).bind fun _ b8 h8 => ?_
        refine (ho.turn h8.toSpares 2 (by decide) (by grind)).bind fun _ b9 h9 => ?_
        refine (h9.phi _ _).bind fun _ b' h' => ?_
        exact .pure (ho.close h' (by simp)) }

/-- Another error in place of a type error. -/
def orMissing (hx : Straight x) (name : String) (operands : List DataType) :
    Straight (LowerM.orMissing x name operands) where
  script := .orMissing name operands hx.script
  secure k b h s hs := by
    obtain ⟨hmeets, b', hb', hends⟩ := hx.secure k b h s hs
    refine ⟨hmeets, b', ?_⟩
    obtain ⟨⟨r, s1⟩, hrun⟩ : ∃ p, x.run.run s = p := ⟨_, rfl⟩
    rw [hrun] at hb' hends
    unfold LowerM.orMissing
    cases r with
    | ok a =>
      rw [run_tryCatch_ok hrun]
      exact ⟨hb', hends⟩
    | error e =>
      rw [run_tryCatch_error hrun]
      cases e with
      | mismatch e => exact ⟨hb', hends.1, fun _ h => by cases h⟩
      | _ => exact ⟨hb', hends⟩

def storeElements (elem : Ty) (array : Value) : ∀ (i : Nat) (vs : List Value),
    Straight (LowerM.storeElements elem array i vs)
  | _, [] => pure ()
  | i, v :: vs => (value _ (.elementPtr array (.int (Int64.ofNat i))) rfl).bind fun slot =>
      bind ⟨.emit _, fun _ _ h => h.start.store v slot⟩ fun _ => storeElements elem array (i + 1) vs

def buildSequence (elem : DataType) (values : List Value) :
    Straight (LowerM.buildSequence elem values) :=
  bind ⟨.alloca _, fun _ _ h => h.start.alloca _⟩ fun array =>
    (storeElements elem.toIr array 0 values).bind fun _ => pure _

def evaluated : Evaluated ctx fun _ x => Straight x := by
  have hslot : ∀ {op : Op}, op.isSimple = true → op.isAlloca = false := fun hop => by
    simpa using (Bool.and_eq_true_iff.mp (isPlain_of_isSimple hop)).2
  refine ⟨pure, throw, bind, fun _ _ hx => hx.orMissing _ _, floatDivision,
    fun ty op hop => push ty op (hslot hop), fun ty op hop => value ty op (hslot hop), buildSequence,
    internString, fun name => get.bind fun _ => pure _, fun name => ?_⟩
  simp only [SsaCompiler.lowerExpr]
  refine get.bind fun s => ?_
  cases s.scope.lookup? name with
  | some v => exact pure _
  | none => exact throw trivial

end Straight

end Expressions

end SsaCompiler
