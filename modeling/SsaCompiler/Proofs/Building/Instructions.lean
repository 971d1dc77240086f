import SsaCompiler.Proofs.Building.Growth

/-!
Adding an instruction to a function under construction. Wherever in a block it goes, the function
stays sound if the instruction is well typed and uses what is there.
-/
namespace SsaCompiler.Ir

/-- Where an instruction is inserted, every other one keeps what stands before it. -/
theorem split_insert {pre post done rest : List Instr} {i j : Instr}
    (h : pre ++ i :: post = done ++ j :: rest) :
    (done = pre ∧ j = i) ∨
      ∃ done0 rest0, pre ++ post = done0 ++ j :: rest0 ∧ ∀ k ∈ done0, k ∈ done := by
  rcases List.append_eq_append_iff.mp h with ⟨mid, hdone, hpost⟩ | ⟨mid, hpre, hrest⟩
  · cases mid with
    | nil =>
      simp only [List.append_nil, List.nil_append, List.cons.injEq] at hdone hpost
      exact .inl ⟨hdone, hpost.1.symm⟩
    | cons k mid =>
      simp only [List.cons_append, List.cons.injEq] at hpost
      obtain ⟨rfl, rfl⟩ := hpost
      refine .inr ⟨pre ++ mid, rest, by simp, fun k hk => ?_⟩
      rw [hdone]
      rcases List.mem_append.mp hk with hk | hk
      · simp [hk]
      · simp [hk]
  · cases mid with
    | nil =>
      simp only [List.append_nil, List.nil_append, List.cons.injEq] at hpre hrest
      exact .inl ⟨hpre.symm, hrest.1⟩
    | cons k mid =>
      simp only [List.cons_append, List.cons.injEq] at hrest
      obtain ⟨rfl, rfl⟩ := hrest
      exact .inr ⟨done, mid ++ post, by simp [hpre], fun k hk => hk⟩

namespace Builder

/-- The builder `b'` has the instruction `i` between `pre` and `post` in the block `x`. A result of
it is a new register. -/
structure Adds (b : Builder) (x : Block) (pre : List Instr) (i : Instr) (post : List Instr)
    (b' : Builder) : Prop where
  mem : x ∈ b.body.blocks
  split : x.instrs = pre ++ post
  replaces : b.body.Replaces x { x with instrs := pre ++ i :: post } b'.body
  name : b'.name = b.name
  params : b'.params = b.params
  ret : b'.ret = b.ret
  current : b'.current = b.current
  regTypes : b'.body.regTypes = b.body.regTypes ++ (i.result.map fun _ => i.ty).toList
  result : ∀ r, i.result = some r → r = b.body.regTypes.length

/-- What the instruction needs at its place. -/
structure Ready (K : Ways) (b : Builder) (m : Module) (x : Block) (pre : List Instr) (i : Instr) :
    Prop where
  fits : b.OpFits m i.ty i.op
  plain : i.op.isPhi = false → ∀ r, .reg r ∈ i.op.operands → r ∈ definedBy pre ∨
    ∃ v, K x.id v ∧ v ≠ x.id ∧ b.body.Home r v
  edges : ∀ incoming, i.op = .phi incoming → b.body.OneEdgeEach x.id incoming
  phi : ∀ incoming, i.op = .phi incoming →
    ∀ r source, (.reg r, source) ∈ incoming →
      source ∈ b.body.ids ∧ ∃ v, K source v ∧ b.body.Home r v
  entry : x.id = b.body.entry → i.op.isPhi = false

namespace Adds

variable {K : Ways} {open_ : List BlockId} {b b' : Builder} {m : Module} {x : Block}
  {pre post : List Instr} {i : Instr} {r : Reg} {u v : BlockId}

theorem widens (h : b.Adds x pre i post b') : b.Widens m b' m :=
  ⟨h.name, h.params, h.ret, h.regTypes ▸ List.prefix_append _ _, .refl m⟩

theorem leads_iff (h : b.Adds x pre i post b') (hs : b.Steady K open_ m) :
    b'.body.Leads u v ↔ b.body.Leads u v := h.replaces.leads_same hs.ids h.mem rfl

theorem home (h : b.Adds x pre i post b') (hs : b.Steady K open_ m) (hr : b.body.Home r v) :
    b'.body.Home r v := by
  rw [h.replaces.home_iff]
  by_cases hv : v = x.id
  · subst hv
    have hr := (hs.home_iff h.mem).mp hr
    rw [h.split] at hr
    refine .inr ⟨rfl, definedBy_subset (fun j hj => ?_) hr⟩
    rcases List.mem_append.mp hj with hj | hj
    · simp [hj]
    · simp [hj]
  · exact .inl ⟨hv, hr⟩

/-- Registers are defined where they were, and the result in the block of the instruction. -/
theorem home_cases (h : b.Adds x pre i post b') (hr : b'.body.Home r v) :
    b.body.Home r v ∨ (i.result = some r ∧ v = x.id) := by
  rcases h.replaces.home_iff.mp hr with ⟨_, hr⟩ | ⟨rfl, hdef⟩
  · exact .inl hr
  · obtain ⟨j, hj, hres⟩ := mem_definedBy.mp hdef
    rcases List.mem_append.mp hj with hj | hj
    · exact .inl ⟨x, h.mem, rfl, mem_definedBy.mpr ⟨j, by simp [h.split, hj], hres⟩⟩
    · rcases List.mem_cons.mp hj with rfl | hj
      · exact .inr ⟨hres, rfl⟩
      · exact .inl ⟨x, h.mem, rfl, mem_definedBy.mpr ⟨j, by simp [h.split, hj], hres⟩⟩

theorem grows (h : b.Adds x pre i post b') (hs : b.Steady K open_ m) :
    Grows [x.id] [] [] K b m K b' m where
  toWidens := h.widens
  known _ _ _ := rfl
  next := h.replaces.next.ge
  old _ hv := .inl (h.replaces.ids ▸ hv)
  entry := h.replaces.entry
  frame y hy _ hne :=
    ⟨y, (h.replaces.mem y).mpr (.inl ⟨hy, by simpa using hne⟩), .refl y, fun _ => rfl⟩
  home _ _ := h.home hs
  leads _ _ := (h.leads_iff hs).mpr
  preds _ _ hl := .inl ((h.leads_iff hs).mp hl)

/-- An instruction at the end only extends its block. -/
theorem grows_append (h : b.Adds x x.instrs i [] b') (hs : b.Steady K open_ m)
    (hplain : i.op.isPhi = false) : Grows [] [x.id] [] K b m K b' m :=
  { h.grows hs with
    frame := fun y hy _ _ => by
      by_cases hid : y.id = x.id
      · obtain rfl := hs.eq_block hy h.mem hid
        have hext : y.Extends { y with instrs := y.instrs ++ [i] } :=
          ⟨rfl, ⟨[i], rfl, by simpa using hplain⟩, .inr rfl⟩
        exact ⟨_, (h.replaces.mem _).mpr (.inr rfl), hext, by simp⟩
      · exact ⟨y, (h.replaces.mem y).mpr (.inl ⟨hy, hid⟩), .refl y, fun _ => rfl⟩ }

/-- The entry block may gain instructions at any time. -/
theorem grows_entry (h : b.Adds x pre i post b') (hs : b.Steady K open_ m)
    (hentry : x.id = b.body.entry) : Grows [] [] [] K b m K b' m :=
  { h.grows hs with
    frame := fun y hy hne _ => by
      rw [← hentry] at hne
      exact ⟨y, (h.replaces.mem y).mpr (.inl ⟨hy, hne⟩), .refl y, fun _ => rfl⟩ }

theorem regType (h : b.Adds x pre i post b') (hres : i.result = some r) :
    b'.body.regTypes[r]? = some i.ty := by
  rw [h.regTypes, h.result r hres]
  simp [hres]

/-- The block that the instruction is added to stays sound. -/
theorem block (h : b.Adds x pre i post b') (hs : b.Steady K open_ m) (hi : Ready K b m x pre i)
    (hfirst : PhisFirst (pre ++ i :: post)) :
    Block.Sound K b' m { x with instrs := pre ++ i :: post } := by
  have hx := hs.blocks x h.mem
  have hmono := hx.mono h.widens (fun _ _ => h.home hs) (fun _ _ hv => h.replaces.ids ▸ hv)
    (fun _ _ _ _ _ _ hv => h.replaces.ids ▸ hv) (fun _ _ _ hd => hd) h.mem
  have hold : ∀ j ∈ pre ++ i :: post, j = i ∨ j ∈ x.instrs := by
    intro j hj
    rw [h.split]
    simp only [List.mem_append, List.mem_cons] at hj ⊢
    tauto
  have hnew : ∀ r, i.result = some r → r ∉ definedBy x.instrs := by
    intro r hres hr
    have hlt := hs.reg_lt ((hs.home_iff h.mem).mpr hr)
    exact Nat.ne_of_lt hlt (h.result r hres)
  refine ⟨?_, hfirst, ?_, ?_, ?_, ?_, hmono.targets, hmono.termFits, hmono.term⟩
  · have hnd := hx.nodup
    rw [h.split, definedBy_append] at hnd
    dsimp only
    rw [definedBy_append, definedBy_cons]
    cases hres : i.result with
    | none => simpa using hnd
    | some r =>
      have hr := hnew r hres
      rw [h.split, definedBy_append, List.mem_append, not_or] at hr
      rw [Option.toList_some, List.singleton_append, List.nodup_middle, List.nodup_cons]
      exact ⟨by simp [hr], hnd⟩
  · intro j hj
    rcases hold j hj with rfl | hj
    · exact hi.fits.widens h.widens
    · exact hmono.fits j hj
  · intro j hj r hr
    rcases hold j hj with rfl | hj
    · exact h.regType hr
    · exact hmono.results j hj r hr
  · intro done j rest hsplit hplain r hr
    rcases split_insert hsplit with ⟨rfl, rfl⟩ | ⟨done0, rest0, heq, hsub⟩
    · refine (hi.plain hplain r hr).imp_right ?_
      rintro ⟨v, hv, hne, hr⟩
      exact ⟨v, hv, hne, h.home hs hr⟩
    · exact (hmono.plain done0 j rest0 (h.split.trans heq) hplain r hr).imp_left
        (definedBy_subset hsub)
  · intro j hj incoming hop r source hmem
    rcases hold j hj with rfl | hj
    · obtain ⟨hsource, v, hv, hr⟩ := hi.phi incoming hop r source hmem
      exact ⟨h.replaces.ids ▸ hsource, v, hv, h.home hs hr⟩
    · exact hmono.phi j hj incoming hop r source hmem

theorem steady (h : b.Adds x pre i post b') (hs : b.Steady K open_ m) (hi : Ready K b m x pre i)
    (hfirst : PhisFirst (pre ++ i :: post)) : b'.Steady K open_ m := by
  refine hs.replace h.replaces (h.grows hs) h.current ?_ (fun u v hl => .inl ((h.leads_iff hs).mp hl))
    (h.block hs hi hfirst) ?_ ?_ (hs.reached x h.mem)
  · intro r v w hv hw
    have hnew : ∀ {r v}, i.result = some r → ¬ b.body.Home r v := by
      intro r v hres hr
      have hlt := hs.reg_lt hr
      exact Nat.ne_of_lt hlt (h.result r hres)
    rcases h.home_cases hv with hv | ⟨hres, rfl⟩ <;> rcases h.home_cases hw with hw | ⟨hres', rfl⟩
    · exact hs.home r v w hv hw
    · exact absurd hv (hnew hres')
    · exact absurd hw (hnew hres)
    · rfl
  · intro hid j hj
    rcases List.mem_append.mp hj with hj | hj
    · exact hs.entryPlain x h.mem hid j (by simp [h.split, hj])
    · rcases List.mem_cons.mp hj with rfl | hj
      · exact hi.entry hid
      · exact hs.entryPlain x h.mem hid j (by simp [h.split, hj])
  · intro y hy hterm
    rcases (h.replaces.mem y).mp hy with ⟨hy, _⟩ | rfl
    · exact hs.unfinished y hy hterm
    · exact hs.unfinished x h.mem hterm

/-- Adding an instruction keeps a function sound. -/
theorem sound (h : b.Adds x pre i post b') (hs : b.Sound K open_ m) (hi : Ready K b m x pre i)
    (hfirst : PhisFirst (pre ++ i :: post)) : b'.Sound K open_ m := by
  refine ⟨h.steady hs.toSteady hi hfirst, fun y hy j hj incoming hop => ?_⟩
  have hedges : b.body.OneEdgeEach y.id incoming := by
    rcases (h.replaces.mem y).mp hy with ⟨hy, _⟩ | rfl
    · exact hs.edges y hy j hj incoming hop
    · rcases List.mem_append.mp hj with hj | hj
      · exact hs.edges x h.mem j (by simp [h.split, hj]) incoming hop
      · rcases List.mem_cons.mp hj with rfl | hj
        · exact hi.edges incoming hop
        · exact hs.edges x h.mem j (by simp [h.split, hj]) incoming hop
  exact ⟨hedges.1, fun p => (hedges.2 p).trans (h.leads_iff hs.toSteady).symm⟩

end Adds

section Operations

variable {b b' : Builder} {x : Block} {ty : Ty} {op : Op}

/-- The instruction that is appended for an operation of a given type. -/
def newInstr (b : Builder) (ty : Ty) (op : Op) : Instr :=
  ⟨if ty = .void then none else some b.body.regTypes.length, ty, op⟩

/-- The builder with an operation at the end of the current block. -/
def pushed (b : Builder) (ty : Ty) (op : Op) : Builder :=
  { b with body := { b.body.updateBlock b.current fun x =>
      { x with instrs := x.instrs ++ [b.newInstr ty op] } with
    regTypes := b.body.regTypes ++ ((b.newInstr ty op).result.map fun _ => ty).toList } }

theorem push_eq (b : Builder) (ty : Ty) (op : Op) : b.push ty op =
    if (b.body.block? b.current).isSome then
      .ok ((b.newInstr ty op).result.map .reg, b.pushed ty op)
    else .error .insertionBlockRemoved := by
  unfold push append updateCurrent pushed newInstr
  by_cases hty : ty = .void
  · simp only [hty, if_true]
    split
    · simp [Body.updateBlock, bind, Except.bind, pure, Except.pure]
    · rfl
  · simp only [hty, if_false, Body.newReg]
    change (if (b.body.block? b.current).isSome then _ else _) >>= _ = _
    split
    · rfl
    · rfl

theorem eq_pushed {v : Option Value} (h : b.push ty op = .ok (v, b')) :
    v = (b.newInstr ty op).result.map .reg ∧ b' = b.pushed ty op := by
  rw [push_eq] at h
  split at h
  · cases h
    exact ⟨rfl, rfl⟩
  · cases h

theorem push_eq_ok {v : Option Value} (hb : b.body.ids.Nodup) (hx : x ∈ b.body.blocks)
    (hcur : x.id = b.current) (h : b.push ty op = .ok (v, b')) :
    v = (b.newInstr ty op).result.map .reg ∧ b.Adds x x.instrs (b.newInstr ty op) [] b' := by
  obtain ⟨hv, rfl⟩ := eq_pushed h
  have hrep := Body.replaces_updateBlock
    (f := fun x => { x with instrs := x.instrs ++ [b.newInstr ty op] }) hb hx hcur fun _ => rfl
  refine ⟨hv, hx, (List.append_nil _).symm, ⟨hrep.ids, hrep.mem, hrep.id, hrep.next⟩, rfl, rfl, rfl,
    rfl, rfl, ?_⟩
  simp [newInstr, eq_comm]

/-- Operations on the current block fail if it is not there. -/
theorem exists_current {f : Block → Block} (hok : b.updateCurrent f = .ok b') :
    ∃ x ∈ b.body.blocks, x.id = b.current := by
  unfold Builder.updateCurrent at hok
  split at hok
  case isFalse => cases hok
  case isTrue hsome =>
    obtain ⟨x, hx⟩ := Option.isSome_iff_exists.mp hsome
    exact ⟨x, List.mem_of_find?_eq_some hx, by simpa using List.find?_some hx⟩

theorem phi_eq_ok {v : Value} {incoming : List (Value × BlockId)} (hb : b.body.ids.Nodup)
    (hx : x ∈ b.body.blocks) (hcur : x.id = b.current) (h : b.phi ty incoming = .ok (v, b')) :
    v = .reg b.body.regTypes.length ∧
      b.Adds x (x.instrs.takeWhile (·.op.isPhi)) ⟨some b.body.regTypes.length, ty, .phi incoming⟩
        (x.instrs.dropWhile (·.op.isPhi)) b' := by
  have hrep := Body.replaces_updateBlock (f := fun x => { x with
    instrs := insertAfter (·.op.isPhi) ⟨some b.body.regTypes.length, ty, .phi incoming⟩ x.instrs })
    hb hx hcur fun _ => rfl
  unfold phi updateCurrent at h
  dsimp only [Body.newReg] at h
  split at h
  · cases h
    refine ⟨rfl, hx, List.takeWhile_append_dropWhile.symm, ?_, rfl, rfl, rfl, rfl, rfl, by simp⟩
    exact ⟨hrep.ids, hrep.mem, hrep.id, hrep.next⟩
  · cases h

theorem alloca_eq_ok {v : Value} (hb : b.body.ids.Nodup) (h : b.alloca ty = .ok (v, b')) :
    v = .reg b.body.regTypes.length ∧ ∃ x, x.id = b.body.entry ∧
      b.Adds x (x.instrs.takeWhile (·.op.isAlloca))
        ⟨some b.body.regTypes.length, .ptr ty, .alloca ty⟩
        (x.instrs.dropWhile (·.op.isAlloca)) b' := by
  unfold alloca at h
  dsimp only [Body.newReg] at h
  cases hblocks : b.body.blocks with
  | nil =>
    rw [hblocks] at h
    cases h
  | cons x rest =>
    rw [hblocks] at h
    cases h
    refine ⟨rfl, x, by simp [Body.entry, Body.entryId?, hblocks], by simp [hblocks],
      (List.takeWhile_append_dropWhile).symm, ?_, rfl, rfl, rfl, rfl, rfl, by simp⟩
    have hne : ∀ y ∈ rest, y.id ≠ x.id := by
      intro y hy heq
      rw [Body.ids, hblocks, List.map_cons, List.nodup_cons] at hb
      exact hb.1 (heq ▸ List.mem_map_of_mem hy)
    refine ⟨by simp [Body.ids, hblocks], fun y => ?_, rfl, rfl⟩
    simp only [hblocks, List.mem_cons, insertAfter]
    constructor
    · rintro (rfl | hy)
      · exact .inr rfl
      · exact .inl ⟨.inr hy, hne y hy⟩
    · rintro (⟨rfl | hy, hid⟩ | rfl)
      · exact absurd rfl hid
      · exact .inr hy
      · exact .inl rfl

end Operations

end Builder

end SsaCompiler.Ir
