import SsaCompiler.Proofs.Validity.Availability
import Mathlib.Data.List.Flatten

/-!
Replacing the uses of a register by a value, and dropping instructions whose results nothing uses,
keep a body regular. Together they make the substitution of a value for a definition.
-/
namespace SsaCompiler.Ir

@[simp] theorem Value.reg?_eq_some {v : Value} {r : Reg} : v.reg? = some r ↔ v = .reg r := by
  cases v <;> simp [reg?]

@[simp] theorem Op.isCompare_mapOperands (σ : Value → Value) (op : Op) :
    (op.mapOperands σ).isCompare = op.isCompare := by
  cases op <;> rfl

theorem Op.mapOperands_eq_phi {σ : Value → Value} {op : Op} {incoming : List (Value × BlockId)} :
    op.mapOperands σ = .phi incoming ↔
      ∃ old, op = .phi old ∧ (old.map fun e => (σ e.1, e.2)) = incoming := by
  cases op <;> simp [mapOperands]

@[simp] theorem definedBy_map_mapOperands (σ : Value → Value) (is : List Instr) :
    definedBy (is.map (Instr.mapOperands σ)) = definedBy is := by
  simp [definedBy, List.filterMap_map, Function.comp_def, Instr.mapOperands]

theorem PhisFirst.map {is : List Instr} {T : Instr → Instr} (h : PhisFirst is)
    (hT : ∀ i, (T i).op.isPhi = i.op.isPhi) : PhisFirst (is.map T) := by
  unfold PhisFirst at h ⊢
  simpa only [List.pairwise_map, hT] using h

namespace Body

variable {b : Body} {f : Function} {m : Module} {x x0 : Block} {q r : Reg} {v : Value}
  {place : BlockId} {done0 rest0 done : List Instr} {i0 : Instr}

/-- A register is used as an operand of an instruction or of a terminator. -/
theorem mem_uses : r ∈ b.uses ↔ ∃ x ∈ b.blocks,
    (∃ i ∈ x.instrs, .reg r ∈ i.op.operands) ∨ ∃ t, x.term = some t ∧ .reg r ∈ t.operands := by
  simp only [uses, operands, Block.operands, List.mem_filterMap, List.mem_flatMap,
    List.mem_append, Value.reg?_eq_some]
  constructor
  · rintro ⟨_, ⟨x, hx, hv⟩, rfl⟩
    refine ⟨x, hx, hv.imp id fun hv => ?_⟩
    cases hterm : x.term with
    | none => simp [hterm] at hv
    | some t => exact ⟨t, rfl, by simpa [hterm] using hv⟩
  · rintro ⟨x, hx, hv | ⟨t, ht, hv⟩⟩
    · exact ⟨_, ⟨x, hx, .inl hv⟩, rfl⟩
    · exact ⟨_, ⟨x, hx, .inr (by simpa [ht] using hv)⟩, rfl⟩

section MapOperands

variable (σ : Value → Value)

theorem sameFlow_mapOperands (b : Body) : SameFlow b (b.mapOperands σ) := by
  refine .of_map rfl (fun _ => rfl) fun x => ?_
  simp only [Block.targets, Block.mapOperands]
  cases x.term <;> simp

theorem operands_mapOperands (b : Body) : (b.mapOperands σ).operands = b.operands.map σ := by
  have hblock : ∀ x : Block, (x.mapOperands σ).operands = x.operands.map σ := by
    intro x
    cases hterm : x.term <;> simp [Block.operands, Block.mapOperands, Instr.mapOperands, hterm,
      Op.operands_mapOperands, Terminator.operands_mapOperands, List.flatMap_map, List.map_flatMap]
  simp only [operands, mapOperands, List.flatMap_map, List.map_flatMap, hblock]

theorem results_mapOperands (b : Body) : (b.mapOperands σ).results = b.results := by
  simp only [results, mapOperands, List.flatMap_map, Block.mapOperands, List.filterMap_map]
  rfl

theorem availOut_mapOperands : (b.mapOperands σ).AvailOut place q ↔ b.AvailOut place q := by
  rw [AvailOut, (sameFlow_mapOperands σ b).dominates]
  simp [AvailOut, mapOperands, Block.mapOperands]

theorem availIn_mapOperands : (b.mapOperands σ).AvailIn place (done.map (Instr.mapOperands σ)) q ↔
    b.AvailIn place done q := by
  rw [AvailIn, (sameFlow_mapOperands σ b).dominates]
  simp [AvailIn, mapOperands, Block.mapOperands]

end MapOperands

/-- Wherever `r` is available, so is `q`. -/
structure Follows (b : Body) (r q : Reg) : Prop where
  mem : q ∈ b.results
  inside : ∀ x ∈ b.blocks, ∀ done rest, x.instrs = done ++ rest →
    b.AvailIn x.id done r → b.AvailIn x.id done q
  out : ∀ x ∈ b.blocks, b.AvailOut x.id r → b.AvailOut x.id q

/-- A register that is available at the definition of `r` follows `r`. -/
theorem Regular.follows (h : b.Regular f m) (h0 : b.Defines x0 done0 i0 rest0 r)
    (hq : b.AvailIn x0.id done0 q) : b.Follows r q where
  mem := hq.mem_results h0.mem h0.split
  inside x hx _ _ hsplit hr :=
    h0.avail_trans h.valid.unique hq hx (h.reached x hx) hsplit hr
  out x hx hr := h0.avail_out_trans h.ids h.valid.unique hq hx (h.reached x hx) hr

/-- A change of values and of the module that keeps types and signatures, and puts a register in the
place of another one only if it is available wherever the other one is. -/
structure Admits (f : Function) (m m' : Module) (b : Body) (σ : Value → Value) : Prop where
  type : ∀ v, f.typeOf (σ v) = f.typeOf v
  exists_ : ∀ v ∈ b.operands, f.Exists m v → f.Exists m' (σ v)
  callees : ∀ x ∈ b.blocks, ∀ i ∈ x.instrs, ∀ callee sig, i.op.callee? = some callee →
    m.calleeSignature? callee = some sig → m'.calleeSignature? callee = some sig
  follows : ∀ u q, σ u = .reg q → u ≠ .reg q → ∃ r, u = .reg r ∧ b.Follows r q

namespace Admits

variable {m' : Module} {σ : Value → Value}

theorem shape (h : b.Admits f m m' σ) (hx : x ∈ b.blocks) (hshape : b.ShapeOk f m x) :
    (b.mapOperands σ).ShapeOk f m' (x.mapOperands σ) := by
  have hflow := sameFlow_mapOperands σ b
  obtain ⟨⟨t, ht, hsucc, hcheck⟩, hfirst, hedges, htyped⟩ := hshape
  refine ⟨⟨t.mapOperands σ, by simp [Block.mapOperands, ht], ?_, ?_⟩,
    hfirst.map fun i => by simp [Instr.mapOperands], ?_, ?_⟩
  · rw [hflow.ids, Terminator.successors_mapOperands]
    exact hsucc
  · rw [Function.checkTerm_mapOperands h.type]
    exact hcheck
  · intro j hj incoming hop
    obtain ⟨i, hi, rfl⟩ := List.mem_map.mp hj
    obtain ⟨old, hold, rfl⟩ := Op.mapOperands_eq_phi.mp hop
    simp only [OneEdgeEach, hflow.leads, List.map_map, Function.comp_def]
    exact hedges i hi old hold
  · intro j hj
    obtain ⟨i, hi, rfl⟩ := List.mem_map.mp hj
    have hmem : ∀ v ∈ i.op.operands, v ∈ b.operands := fun v hv =>
      List.mem_flatMap.mpr ⟨x, hx, List.mem_append_left _ (List.mem_flatMap.mpr ⟨i, hi, hv⟩)⟩
    exact Function.checkOp_mapOperands h.type (fun v hv => h.exists_ v (hmem v hv))
      (h.callees x hx i hi) (htyped i hi)

theorem out (h : b.Admits f m m' σ) (hx : x ∈ b.blocks) {u : Value} (hu : σ u = .reg q)
    (hold : ∀ r, u = .reg r → b.AvailOut x.id r) : (b.mapOperands σ).AvailOut x.id q := by
  rw [availOut_mapOperands]
  by_cases heq : u = .reg q
  · exact hold q heq
  · obtain ⟨r, rfl, hfollows⟩ := h.follows u q hu heq
    exact hfollows.out x hx (hold r rfl)

theorem uses (h : b.Admits f m m' σ) (hx : x ∈ b.blocks) (hshape : b.ShapeOk f m x)
    (huses : b.UsesOk x) : (b.mapOperands σ).UsesOk (x.mapOperands σ) := by
  refine ⟨?_, ?_, ?_⟩
  · intro done' i' rest' hsplit hnotphi q hq
    obtain ⟨done, tail, hsplit', rfl, htail⟩ := List.map_eq_append_iff.mp hsplit
    obtain ⟨i, rest, rfl, rfl, rfl⟩ := List.map_eq_cons_iff.mp htail
    rw [Instr.mapOperands, Op.operands_mapOperands] at hq
    obtain ⟨u, hu, huq⟩ := List.mem_map.mp hq
    rw [results_mapOperands, (sameFlow_mapOperands σ b).reaches, Block.mapOperands,
      availIn_mapOperands]
    have hplain := huses.plain done i rest hsplit' (by simpa [Instr.mapOperands] using hnotphi)
    by_cases heq : u = .reg q
    · exact hplain q (heq ▸ hu)
    · obtain ⟨r, rfl, hfollows⟩ := h.follows u q huq heq
      exact ⟨hfollows.mem, fun hreach =>
        hfollows.inside x hx done _ hsplit' ((hplain r hu).2 hreach)⟩
  · intro hreach i' hi' incoming hop q source hmem
    obtain ⟨i, hi, rfl⟩ := List.mem_map.mp hi'
    obtain ⟨old, hold, rfl⟩ := Op.mapOperands_eq_phi.mp hop
    obtain ⟨⟨u, s⟩, he, heq⟩ := List.mem_map.mp hmem
    obtain ⟨huq, rfl⟩ := Prod.mk.inj heq
    obtain ⟨y, hy, rfl, _⟩ := ((hshape.edges i hi old hold).2 s).mp (List.mem_map_of_mem he)
    rw [(sameFlow_mapOperands σ b).reaches] at hreach
    refine h.out hy huq fun r hur => ?_
    subst hur
    exact huses.phi hreach i hi old hold r y.id he
  · intro t' ht' q hq
    simp only [Block.mapOperands, Option.map_eq_some_iff] at ht'
    obtain ⟨t, ht, rfl⟩ := ht'
    rw [Terminator.operands_mapOperands] at hq
    obtain ⟨u, hu, huq⟩ := List.mem_map.mp hq
    show (b.mapOperands σ).AvailOut x.id q
    refine h.out hx huq fun r hur => ?_
    subst hur
    exact huses.term t ht r hu

theorem valid (h : b.Admits f m m' σ) (hb : b.Valid f m) : (b.mapOperands σ).Valid f m' := by
  have hflow := sameFlow_mapOperands σ b
  refine ⟨?_, ?_, ?_, ?_, ?_⟩
  · simpa [mapOperands] using hb.nonempty
  · rw [hflow.leads, hflow.entry]
    exact hb.start
  · rw [results_mapOperands]
    exact hb.unique
  · intro x' hx'
    obtain ⟨x, hx, rfl⟩ := List.mem_map.mp hx'
    exact h.shape hx (hb.shape x hx)
  · intro x' hx'
    obtain ⟨x, hx, rfl⟩ := List.mem_map.mp hx'
    exact h.uses hx (hb.shape x hx) (hb.uses x hx)

end Admits

/-- What stays well formed stays regular, as control still gets everywhere. -/
theorem Regular.mapOperands {m' : Module} {σ : Value → Value} (h : b.Regular f m)
    (hvalid : (b.mapOperands σ).Valid f m') : (b.mapOperands σ).Regular f m' := by
  have hflow := sameFlow_mapOperands σ b
  refine ⟨hflow.ids ▸ h.ids, hvalid, ?_, ?_⟩
  · intro x' hx'
    obtain ⟨x, hx, rfl⟩ := List.mem_map.mp hx'
    rw [hflow.reaches]
    exact h.reached x hx
  · intro x' hx' i' hi'
    obtain ⟨x, hx, rfl⟩ := List.mem_map.mp hx'
    obtain ⟨i, hi, rfl⟩ := List.mem_map.mp hi'
    exact (h.typed x hx i hi).of_eq rfl rfl (by simp [Instr.mapOperands])

section FilterInstrs

variable {p : Instr → Bool}

theorem sameFlow_filterInstrs (p : Instr → Bool) (b : Body) : SameFlow b (b.filterInstrs p) :=
  .of_map rfl (fun _ => rfl) fun _ => rfl

theorem results_filterInstrs (p : Instr → Bool) (b : Body) :
    (b.filterInstrs p).results.Sublist b.results := by
  simp only [Body.results, Body.filterInstrs, List.flatMap_map]
  exact .flatMap_right _ fun x _ => List.filter_sublist.filterMap _

/-- Only definitions of registers that nothing uses are dropped. -/
def DropsUnused (b : Body) (p : Instr → Bool) : Prop :=
  ∀ x ∈ b.blocks, ∀ i ∈ x.instrs, p i = false → ∃ r, i.result = some r ∧ r ∉ b.uses

theorem DropsUnused.kept (hp : b.DropsUnused p) (hx : x ∈ b.blocks)
    (hdone : ∀ i ∈ done, i ∈ x.instrs) (hr : r ∈ b.uses) (h : r ∈ definedBy done) :
    r ∈ definedBy (done.filter p) := by
  obtain ⟨i, hi, hres⟩ := mem_definedBy.mp h
  refine mem_definedBy.mpr ⟨i, List.mem_filter.mpr ⟨hi, ?_⟩, hres⟩
  cases hpi : p i with
  | true => rfl
  | false =>
    obtain ⟨s, hs, hunused⟩ := hp x hx i (hdone i hi) hpi
    rw [hres, Option.some.injEq] at hs
    exact absurd (hs ▸ hr) hunused

theorem DropsUnused.availOut (hp : b.DropsUnused p) (hr : r ∈ b.uses)
    (h : b.AvailOut place r) : (b.filterInstrs p).AvailOut place r := by
  obtain ⟨x, hx, hdef, hdom⟩ := h
  refine ⟨_, List.mem_map_of_mem hx, hp.kept hx (fun _ hi => hi) hr hdef, ?_⟩
  rw [(sameFlow_filterInstrs p b).dominates]
  exact hdom

theorem DropsUnused.availIn (hp : b.DropsUnused p) (hr : r ∈ b.uses) (hx : x ∈ b.blocks)
    (hdone : ∀ i ∈ done, i ∈ x.instrs) (h : b.AvailIn x.id done r) :
    (b.filterInstrs p).AvailIn x.id (done.filter p) r := by
  rcases h with hdef | ⟨y, hy, hdef, hne, hdom⟩
  · exact .inl (hp.kept hx hdone hr hdef)
  · refine .inr ⟨_, List.mem_map_of_mem hy, hp.kept hy (fun _ hi => hi) hr hdef, hne, ?_⟩
    rw [(sameFlow_filterInstrs p b).dominates]
    exact hdom

theorem DropsUnused.mem_results (hp : b.DropsUnused p) (hr : r ∈ b.uses) (h : r ∈ b.results) :
    r ∈ (b.filterInstrs p).results := by
  obtain ⟨x, hx, hdef⟩ := Body.mem_results.mp h
  exact Body.mem_results.mpr
    ⟨_, List.mem_map_of_mem hx, hp.kept hx (fun _ hi => hi) hr hdef⟩

theorem DropsUnused.uses (hp : b.DropsUnused p) (hx : x ∈ b.blocks) (h : b.UsesOk x) :
    (b.filterInstrs p).UsesOk { x with instrs := x.instrs.filter p } := by
  refine ⟨?_, ?_, ?_⟩
  · intro done' i rest' hsplit hnotphi r hr
    obtain ⟨done, tail, hsplit', rfl, htail⟩ := List.filter_eq_append_iff.mp hsplit
    obtain ⟨mid, rest, rfl, hmid, hpi, _⟩ := List.filter_eq_cons_iff.mp htail
    have hall : x.instrs = (done ++ mid) ++ i :: rest := by simp [hsplit']
    have hused : r ∈ b.uses := mem_uses.mpr ⟨x, hx, .inl ⟨i, by simp [hall], hr⟩⟩
    obtain ⟨hres, havail⟩ := h.plain (done ++ mid) i rest hall hnotphi r hr
    refine ⟨hp.mem_results hused hres, fun hreach => ?_⟩
    rw [(sameFlow_filterInstrs p b).reaches] at hreach
    have hin := hp.availIn hused hx (fun j hj => hall ▸ List.mem_append_left _ hj) (havail hreach)
    have hnone : mid.filter p = [] := by simpa using hmid
    simpa [hnone] using hin
  · intro hreach i hi incoming hop r source hmem
    rw [(sameFlow_filterInstrs p b).reaches] at hreach
    have hi' := (List.mem_filter.mp hi).1
    refine hp.availOut ?_ (h.phi hreach i hi' incoming hop r source hmem)
    refine mem_uses.mpr ⟨x, hx, .inl ⟨i, hi', ?_⟩⟩
    rw [hop]
    exact List.mem_map_of_mem hmem
  · intro t ht r hr
    exact hp.availOut (mem_uses.mpr ⟨x, hx, .inr ⟨t, ht, hr⟩⟩) (h.term t ht r hr)

theorem Regular.filterInstrs (h : b.Regular f m) (hp : b.DropsUnused p) :
    (b.filterInstrs p).Regular f m := by
  have hflow := sameFlow_filterInstrs p b
  refine ⟨hflow.ids ▸ h.ids, ⟨?_, ?_, ?_, ?_, ?_⟩, ?_, ?_⟩
  · simpa [Body.filterInstrs] using h.valid.nonempty
  · rw [hflow.leads, hflow.entry]
    exact h.valid.start
  · exact (results_filterInstrs p b).nodup h.valid.unique
  · intro x' hx'
    obtain ⟨x, hx, rfl⟩ := List.mem_map.mp hx'
    obtain ⟨⟨t, ht, hsucc, hcheck⟩, hfirst, hedges, htyped⟩ := h.valid.shape x hx
    refine ⟨⟨t, ht, hflow.ids ▸ hsucc, hcheck⟩, hfirst.sublist List.filter_sublist, ?_, ?_⟩
    · intro i hi incoming hop
      simp only [OneEdgeEach, hflow.leads]
      exact hedges i (List.mem_filter.mp hi).1 incoming hop
    · exact fun i hi => htyped i (List.mem_filter.mp hi).1
  · intro x' hx'
    obtain ⟨x, hx, rfl⟩ := List.mem_map.mp hx'
    exact hp.uses hx (h.valid.uses x hx)
  · intro x' hx'
    obtain ⟨x, hx, rfl⟩ := List.mem_map.mp hx'
    rw [hflow.reaches]
    exact h.reached x hx
  · intro x' hx' i hi
    obtain ⟨x, hx, rfl⟩ := List.mem_map.mp hx'
    exact h.typed x hx i (List.mem_filter.mp hi).1

end FilterInstrs

/-- What may stand for the register that an instruction defines: a value of the same type, which is
available at the definition if it is a register. -/
structure StandsFor (f : Function) (m : Module) (b : Body) (x : Block) (done : List Instr)
    (r : Reg) (v : Value) : Prop where
  type : f.typeOf v = f.typeOf (.reg r)
  exists_ : f.Exists m v
  avail : ∀ q, v = .reg q → b.AvailIn x.id done q

theorem StandsFor.ne (h : b.StandsFor f m x0 done0 r v) (hu : b.results.Nodup)
    (h0 : b.Defines x0 done0 i0 rest0 r) : v ≠ .reg r :=
  fun heq => h0.not_avail_self hu (h.avail r heq)

theorem StandsFor.admits (h : b.StandsFor f m x0 done0 r v) (hb : b.Regular f m)
    (h0 : b.Defines x0 done0 i0 rest0 r) : b.Admits f m m (Value.replace r v) where
  type u := by
    unfold Value.replace
    split
    case isTrue hu => rw [hu, h.type]
    case isFalse => rfl
  exists_ u _ hu := by
    unfold Value.replace
    split
    · exact h.exists_
    · exact hu
  callees _ _ _ _ _ _ _ hsig := hsig
  follows u q hu hne := by
    unfold Value.replace at hu
    split at hu
    · exact ⟨r, ‹_›, hb.follows h0 (h.avail q hu)⟩
    · exact absurd hu hne

/-- After its uses are replaced, a register has none. -/
theorem not_mem_uses_replaceUses (hne : v ≠ .reg r) : r ∉ (b.replaceUses r v).uses := by
  intro hr
  obtain ⟨w, hw, heq⟩ := List.mem_filterMap.mp hr
  rw [replaceUses, operands_mapOperands] at hw
  obtain ⟨u, _, rfl⟩ := List.mem_map.mp hw
  rw [Value.reg?_eq_some, Value.replace] at heq
  split at heq
  · exact hne heq
  · contradiction

theorem dropsUnused_definition (hr : r ∉ b.uses) : b.DropsUnused (·.result ≠ some r) := by
  intro x _ i _ hp
  exact ⟨r, by simpa using hp, hr⟩

/-- Putting a value in the place of a definition keeps a body regular. -/
theorem Regular.substitute (h : b.Regular f m) (h0 : b.Defines x0 done0 i0 rest0 r)
    (hv : b.StandsFor f m x0 done0 r v) : (b.substitute r v).Regular f m :=
  (h.mapOperands ((hv.admits h h0).valid h.valid)).filterInstrs
    (dropsUnused_definition (not_mem_uses_replaceUses (hv.ne h.valid.unique h0)))

end Body

end SsaCompiler.Ir
