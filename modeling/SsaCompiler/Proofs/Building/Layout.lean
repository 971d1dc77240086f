import SsaCompiler.Proofs.Building.Blocks

/-!
Blocks that come, move and go while a function is built, and additions to its module. A new block is
empty, and every way to it is known to lead through what is known of the block it is made for.
-/
namespace SsaCompiler.Ir

/-- The ways to a new block `n` lead through the block `p`. -/
def Ways.below (K : Ways) (p n : BlockId) : Ways :=
  fun v d => if v = n then K p d ∨ d = n else K v d

theorem Ways.below_self {K : Ways} {p n d : BlockId} : K.below p n n d ↔ K p d ∨ d = n := by
  simp [below]

theorem Ways.below_of_ne {K : Ways} {p n v : BlockId} (h : v ≠ n) : K.below p n v = K v := by
  funext d
  simp [below, h]

/-- The block `v` is there and empty. -/
def Body.Blank (b : Body) (v : BlockId) : Prop :=
  ∃ x ∈ b.blocks, x.id = v ∧ x.instrs = [] ∧ x.term = none

namespace Builder

variable {K : Ways} {open_ : List BlockId} {b : Builder} {m m' : Module} {x : Block}
  {u v : BlockId} {r : Reg}

section Append

variable {name : String}

theorem mem_appendBlock : x ∈ (b.appendBlock name).2.body.blocks ↔
    x ∈ b.body.blocks ∨ x = ⟨b.body.nextBlock, name, [], none⟩ := by
  simp [appendBlock, Body.addBlock]

theorem leads_appendBlock : (b.appendBlock name).2.body.Leads u v ↔ b.body.Leads u v := by
  constructor
  · rintro ⟨x, hx, hid, hv⟩
    rcases mem_appendBlock.mp hx with hx | rfl
    · exact ⟨x, hx, hid, hv⟩
    · simp [Block.targets] at hv
  · rintro ⟨x, hx, hid, hv⟩
    exact ⟨x, mem_appendBlock.mpr (.inl hx), hid, hv⟩

theorem home_appendBlock : (b.appendBlock name).2.body.Home r v ↔ b.body.Home r v := by
  constructor
  · rintro ⟨x, hx, hid, hr⟩
    rcases mem_appendBlock.mp hx with hx | rfl
    · exact ⟨x, hx, hid, hr⟩
    · simp at hr
  · rintro ⟨x, hx, hid, hr⟩
    exact ⟨x, mem_appendBlock.mpr (.inl hx), hid, hr⟩

theorem entry_appendBlock (h : b.body.blocks ≠ []) :
    (b.appendBlock name).2.body.entry = b.body.entry := by
  obtain ⟨x, xs, hx⟩ := List.exists_cons_of_ne_nil h
  simp [appendBlock, Body.addBlock, Body.entry, Body.entryId?, hx]

theorem blank_appendBlock (b : Builder) (name : String) :
    (b.appendBlock name).2.body.Blank b.body.nextBlock :=
  ⟨_, mem_appendBlock.mpr (.inr rfl), rfl, rfl, rfl⟩

theorem Steady.not_leads_next (h : b.Steady K open_ m) : ¬ b.body.Leads u b.body.nextBlock :=
  fun hl => absurd (h.fresh _ (h.target_mem_ids hl)) (lt_irrefl _)

theorem Steady.grows_appendBlock (h : b.Steady K open_ m) (name : String) (p : BlockId) :
    Grows [] [] [] K b m (K.below p b.body.nextBlock)
      (b.appendBlock name).2 m where
  toWidens := ⟨rfl, rfl, rfl, List.prefix_rfl, .refl m⟩
  known _ hv _ := Ways.below_of_ne (Nat.ne_of_lt hv)
  next := Nat.le_succ _
  old v hv := by
    rw [ids_appendBlock, List.mem_append, List.mem_singleton] at hv
    exact hv.imp_right fun hv => hv.ge
  entry := entry_appendBlock h.nonempty
  frame x hx _ _ := ⟨x, mem_appendBlock.mpr (.inl hx), .refl x, fun _ => rfl⟩
  home _ _ := home_appendBlock.mpr
  leads _ _ := leads_appendBlock.mpr
  preds _ _ hl := .inl (leads_appendBlock.mp hl)

/-- A new block keeps a function sound and is one more to finish. -/
theorem Sound.appendBlock (h : b.Sound K open_ m) (name : String) {p : BlockId}
    (hp : p ∈ b.body.ids) (hcur : b.current ∈ b.body.ids) :
    (b.appendBlock name).2.Sound (K.below p b.body.nextBlock) (b.body.nextBlock :: open_) m := by
  have hgrows := h.grows_appendBlock name p
  have hold : ∀ v ∈ b.body.ids, K.below p b.body.nextBlock v = K v :=
    fun v hv => hgrows.known v (h.fresh v hv) List.not_mem_nil
  have hentry := Body.entry_mem_ids h.nonempty
  refine ⟨⟨h.honest, ?_, ?_, ?_, ?_, ?_, ?_, ?_, ?_, ?_, ?_, ?_, ?_, ?_⟩, ?_⟩
  · obtain ⟨x, hx, _⟩ := blank_appendBlock b name
    exact List.ne_nil_of_mem hx
  · exact nodup_ids_appendBlock h.fresh h.ids
  · intro v hv
    rw [ids_appendBlock, List.mem_append, List.mem_singleton] at hv
    rcases hv with hv | rfl
    · exact Nat.lt_succ_of_lt (h.fresh v hv)
    · exact Nat.lt_succ_self _
  · intro r v w hv hw
    exact h.home r v w (home_appendBlock.mp hv) (home_appendBlock.mp hw)
  · intro u hl
    rw [hgrows.entry, leads_appendBlock] at hl
    exact h.start u hl
  · intro x hx hid i hi
    rw [hgrows.entry] at hid
    rcases mem_appendBlock.mp hx with hx | rfl
    · exact h.entryPlain x hx hid i hi
    · simp at hi
  · intro x hx
    rcases mem_appendBlock.mp hx with hx | rfl
    · have hids : ∀ v ∈ b.body.ids, v ∈ (b.appendBlock name).2.body.ids := by
        intro v hv
        rw [ids_appendBlock]
        exact List.mem_append_left _ hv
      exact (h.blocks x hx).mono hgrows.toWidens hgrows.home (fun v _ => hids v)
        (fun _ _ _ _ e _ => hids e.2) (fun v hv d hd => by rwa [hold v hv]) hx
    · exact ⟨by simp, by simp [PhisFirst], by simp, by simp, by simp, by simp, by simp, by simp,
        by simp⟩
  · intro d hd
    rw [hgrows.entry, hold _ hentry] at hd
    rw [hgrows.entry]
    exact h.knownEntry d hd
  · intro u v d hl hd
    have hl := leads_appendBlock.mp hl
    rw [hold v (h.target_mem_ids hl)] at hd
    rw [hold u hl.mem_ids]
    exact h.knownEdge u v d hl hd
  · intro v hv
    rw [hgrows.entry]
    rw [ids_appendBlock, List.mem_append, List.mem_singleton] at hv
    rcases hv with hv | rfl
    · rw [hold v hv]
      exact h.entryKnown v hv
    · exact Ways.below_self.mpr (.inl (h.entryKnown p hp))
  · intro v hv
    rw [ids_appendBlock, List.mem_append, List.mem_singleton] at hv
    rcases hv with hv | rfl
    · rw [hold v hv]
      exact h.selfKnown v hv
    · exact Ways.below_self.mpr (.inr rfl)
  · intro x hx hterm
    rcases mem_appendBlock.mp hx with hx | rfl
    · exact List.mem_cons_of_mem _ (h.unfinished x hx hterm)
    · exact List.mem_cons_self
  · intro x hx hterm
    refine hgrows.reaches ?_
    rcases mem_appendBlock.mp hx with hx | rfl
    · exact h.reached x hx hterm
    · rcases hterm with hterm | hid
      · cases hterm
      · exact absurd (h.fresh _ hcur) (by simp [← show b.body.nextBlock = b.current from hid])
  · intro x hx i hi incoming hop
    rcases mem_appendBlock.mp hx with hx | rfl
    · obtain ⟨hnd, hiff⟩ := h.edges x hx i hi incoming hop
      exact ⟨hnd, fun p => (hiff p).trans leads_appendBlock.symm⟩
    · simp at hi

end Append

section Relayout

variable {b' : Builder}

/-- The same blocks in another order, with what they need. -/
structure Relayout (b : Builder) (m : Module) (b' : Builder) (m' : Module) : Prop
    extends Builder.Widens b m b' m' where
  mem : ∀ x, x ∈ b'.body.blocks ↔ x ∈ b.body.blocks
  ids : b'.body.ids.Nodup
  entry : b'.body.entry = b.body.entry
  next : b'.body.nextBlock = b.body.nextBlock

namespace Relayout

theorem mem_ids (h : b.Relayout m b' m') : v ∈ b'.body.ids ↔ v ∈ b.body.ids := by
  simp only [Body.mem_ids, h.mem]

theorem leads_iff (h : b.Relayout m b' m') : b'.body.Leads u v ↔ b.body.Leads u v := by
  simp only [Body.Leads, h.mem]

theorem home_iff (h : b.Relayout m b' m') : b'.body.Home r v ↔ b.body.Home r v := by
  simp only [Body.Home, h.mem]

theorem grows (h : b.Relayout m b' m') :
    Grows [] [] [] K b m K b' m' where
  toWidens := h.toWidens
  known _ _ _ := rfl
  next := h.next.ge
  old _ hv := .inl (h.mem_ids.mp hv)
  entry := h.entry
  frame x hx _ _ := ⟨x, (h.mem x).mpr hx, .refl x, fun _ => rfl⟩
  home _ _ := h.home_iff.mpr
  leads _ _ := h.leads_iff.mpr
  preds _ _ hl := .inl (h.leads_iff.mp hl)

/-- Another order of the blocks keeps a function sound, if control can get to the block where
building goes on. -/
theorem sound (h : b.Relayout m b' m') (hs : b.Sound K open_ m)
    (hcur : b.body.Reaches b'.current) : b'.Sound K open_ m' := by
  refine ⟨⟨hs.honest.grows h.module, ?_, h.ids, ?_, ?_, ?_, ?_, ?_, ?_, ?_, ?_, ?_, ?_, ?_⟩, ?_⟩
  · obtain ⟨x, xs, hx⟩ := List.exists_cons_of_ne_nil hs.nonempty
    exact List.ne_nil_of_mem ((h.mem x).mpr (by simp [hx]))
  · intro v hv
    rw [h.next]
    exact hs.fresh v (h.mem_ids.mp hv)
  · intro r v w hv hw
    exact hs.home r v w (h.home_iff.mp hv) (h.home_iff.mp hw)
  · intro u hl
    rw [h.entry, h.leads_iff] at hl
    exact hs.start u hl
  · intro x hx hid
    exact hs.entryPlain x ((h.mem x).mp hx) (hid.trans h.entry)
  · intro x hx
    have hx := (h.mem x).mp hx
    exact (hs.blocks x hx).mono h.toWidens (fun _ _ => h.home_iff.mpr)
      (fun _ _ => h.mem_ids.mpr) (fun _ _ _ _ _ _ => h.mem_ids.mpr) (fun _ _ _ hd => hd) hx
  · rw [h.entry]
    exact hs.knownEntry
  · exact fun u v d hl => hs.knownEdge u v d (h.leads_iff.mp hl)
  · intro v hv
    rw [h.entry]
    exact hs.entryKnown v (h.mem_ids.mp hv)
  · exact fun v hv => hs.selfKnown v (h.mem_ids.mp hv)
  · exact fun x hx => hs.unfinished x ((h.mem x).mp hx)
  · intro x hx hterm
    refine h.grows.reaches (K := K) ?_
    rcases hterm with hterm | hid
    · exact hs.reached x ((h.mem x).mp hx) (.inl hterm)
    · rwa [hid]
  · intro x hx i hi incoming hop
    obtain ⟨hnd, hiff⟩ := hs.edges x ((h.mem x).mp hx) i hi incoming hop
    exact ⟨hnd, fun p => (hiff p).trans h.leads_iff.symm⟩

end Relayout

theorem Steady.relayout_position (h : b.Steady K open_ m) : b.Relayout m (b.position v) m :=
  ⟨⟨rfl, rfl, rfl, List.prefix_rfl, .refl m⟩, fun _ => .rfl, h.ids, rfl, rfl⟩

theorem Steady.relayout_module (h : b.Steady K open_ m) (hm : m.Grows m') :
    b.Relayout m b m' :=
  ⟨⟨rfl, rfl, rfl, List.prefix_rfl, hm⟩, fun _ => .rfl, h.ids, rfl, rfl⟩

theorem Steady.relayout_moveToEnd (h : b.Steady K open_ m) (hv : v ≠ b.body.entry) :
    b.Relayout m ((b.moveToEnd v).position v) m := by
  have hentry : (b.moveToEnd v).body.entry = b.body.entry := by
    unfold moveToEnd
    cases hblock : b.body.block? v with
    | none => rfl
    | some x =>
      obtain ⟨hx, rfl⟩ := (Body.block?_eq_some h.ids).mp hblock
      obtain ⟨y, ys, hy⟩ := List.exists_cons_of_ne_nil h.nonempty
      have hne : y.id ≠ x.id := by
        intro heq
        exact hv (by simp [Body.entry, Body.entryId?, hy, heq])
      simp [Body.removeBlock, Body.entry, Body.entryId?, hy, hne]
  obtain ⟨blocks, heq, hperm⟩ := b.exists_perm_moveToEnd v
  rw [heq] at hentry ⊢
  exact ⟨⟨rfl, rfl, rfl, List.prefix_rfl, .refl m⟩, fun y => hperm.mem_iff,
    (hperm.map _).nodup_iff.mpr h.ids, hentry, rfl⟩

end Relayout

section Remove

/-- The block `v` is empty and can be dropped. -/
structure Spare (b : Builder) (v : BlockId) : Prop where
  blank : b.body.Blank v
  unused : ∀ u, ¬ b.body.Leads u v
  notEntry : v ≠ b.body.entry
  notCurrent : v ≠ b.current

namespace Spare

theorem exists_iff {w : BlockId} {P : Block → Prop} (h : b.Spare w) (hs : b.Steady K open_ m)
    (hP : ∀ y : Block, y.instrs = [] → y.term = none → ¬ P y) :
    (∃ x ∈ (b.removeBlock w).body.blocks, x.id = v ∧ P x) ↔
      ∃ x ∈ b.body.blocks, x.id = v ∧ P x := by
  constructor
  · rintro ⟨x, hx, hx'⟩
    exact ⟨x, (Body.mem_of_mem_removeBlock hx), hx'⟩
  · rintro ⟨x, hx, hx'⟩
    refine ⟨x, Body.mem_removeBlock_of_ne hx fun heq => ?_, hx'⟩
    obtain ⟨y, hy, hyid, hinstrs, hterm⟩ := h.blank
    obtain rfl := hs.eq_block hx hy (heq.trans hyid.symm)
    exact hP x hinstrs hterm hx'.2

theorem leads_iff {w : BlockId} (h : b.Spare w) (hs : b.Steady K open_ m) :
    (b.removeBlock w).body.Leads u v ↔ b.body.Leads u v :=
  h.exists_iff hs fun y _ hterm => by simp [Block.targets, hterm]

theorem home_iff {w : BlockId} (h : b.Spare w) (hs : b.Steady K open_ m) :
    (b.removeBlock w).body.Home r v ↔ b.body.Home r v :=
  h.exists_iff hs fun y hinstrs _ => by simp [hinstrs]

theorem entry (h : b.Spare v) (hs : b.Steady K open_ m) :
    (b.removeBlock v).body.entry = b.body.entry := by
  obtain ⟨y, ys, hy⟩ := List.exists_cons_of_ne_nil hs.nonempty
  have hne : y.id ≠ v := by
    intro heq
    exact h.notEntry (by simp [Body.entry, Body.entryId?, hy, heq])
  simp [removeBlock, Body.removeBlock, Body.entry, Body.entryId?, hy, hne]

theorem grows (h : b.Spare v) (hs : b.Steady K open_ m) :
    Grows [v] [] [] K b m K (b.removeBlock v) m where
  toWidens := ⟨rfl, rfl, rfl, List.prefix_rfl, .refl m⟩
  known _ _ _ := rfl
  next := le_rfl
  old _ hu := .inl (Body.mem_ids_of_mem_ids_removeBlock hu)
  entry := h.entry hs
  frame x hx _ hne :=
    ⟨x, Body.mem_removeBlock_of_ne hx (by simpa using hne), .refl x, fun _ => rfl⟩
  home _ _ := (h.home_iff hs).mpr
  leads _ _ := (h.leads_iff hs).mpr
  preds _ _ hl := .inl ((h.leads_iff hs).mp hl)

/-- Dropping a block that nothing leads to keeps a function sound. -/
theorem sound (h : b.Spare v) (hs : b.Sound K (v :: open_) m) :
    (b.removeBlock v).Sound K open_ m := by
  have hgrows := h.grows hs.toSteady
  refine ⟨⟨hs.honest, ?_, ?_, ?_, ?_, ?_, ?_, ?_, ?_, ?_, ?_, ?_, ?_, ?_⟩, ?_⟩
  · obtain ⟨x, hx, hid⟩ := Body.mem_ids.mp (Body.entry_mem_ids hs.nonempty)
    exact List.ne_nil_of_mem (Body.mem_removeBlock_of_ne hx (hid.trans_ne h.notEntry.symm))
  · exact Body.nodup_ids_removeBlock hs.ids
  · exact fun u hu => hs.fresh u (Body.mem_ids_of_mem_ids_removeBlock hu)
  · intro r u w hu hw
    exact hs.home r u w ((h.home_iff hs.toSteady).mp hu) ((h.home_iff hs.toSteady).mp hw)
  · intro u hl
    rw [hgrows.entry, h.leads_iff hs.toSteady] at hl
    exact hs.start u hl
  · intro x hx hid
    exact hs.entryPlain x (Body.mem_of_mem_removeBlock hx) (hid.trans hgrows.entry)
  · intro x hx
    have hx := Body.mem_of_mem_removeBlock hx
    refine (hs.blocks x hx).mono hgrows.toWidens hgrows.home ?_ ?_ (fun _ _ _ hd => hd) hx
    · intro u hu hmem
      refine Body.mem_ids_removeBlock_of_ne hmem fun heq => ?_
      exact h.unused x.id (heq ▸ ⟨x, hx, rfl, hu⟩)
    · intro i hi incoming hop e he hmem
      refine Body.mem_ids_removeBlock_of_ne hmem fun heq => ?_
      have hl := ((hs.edges x hx i hi incoming hop).2 e.2).mp (List.mem_map_of_mem he)
      obtain ⟨y, hy, hyid, _, hterm⟩ := h.blank
      rw [heq, ← hyid, Body.leads_iff_targets hs.ids hy] at hl
      simp [Block.targets, hterm] at hl
  · rw [hgrows.entry]
    exact hs.knownEntry
  · exact fun u w d hl => hs.knownEdge u w d ((h.leads_iff hs.toSteady).mp hl)
  · intro u hu
    rw [hgrows.entry]
    exact hs.entryKnown u (Body.mem_ids_of_mem_ids_removeBlock hu)
  · exact fun u hu => hs.selfKnown u (Body.mem_ids_of_mem_ids_removeBlock hu)
  · intro x hx hterm
    have hne := Body.ne_of_mem_removeBlock hs.ids hx
    exact (List.mem_cons.mp (hs.unfinished x (Body.mem_of_mem_removeBlock hx) hterm)).resolve_left hne
  · exact fun x hx hterm => hgrows.reaches (hs.reached x (Body.mem_of_mem_removeBlock hx) hterm)
  · intro x hx i hi incoming hop
    obtain ⟨hnd, hiff⟩ := hs.edges x (Body.mem_of_mem_removeBlock hx) i hi incoming hop
    exact ⟨hnd, fun p => (hiff p).trans (h.leads_iff hs.toSteady).symm⟩

/-- As long as nothing leads to a block, more may be said of the ways to it. -/
theorem below (h : b.Spare v) (hs : b.Sound K open_ m)
    (hmore : ∀ d, K v d → K u d ∨ d = v) :
    b.Sound (K.below u v) open_ m ∧ Grows [] [] [v] K b m (K.below u v) b m := by
  have hK : ∀ w d, K w d → K.below u v w d := by
    intro w d hd
    by_cases hw : w = v
    · subst hw
      exact Ways.below_self.mpr (hmore d hd)
    · rwa [Ways.below_of_ne hw]
  refine ⟨⟨{ hs.toSteady with
    blocks := fun x hx => (hs.blocks x hx).mono (.refl b m) (fun _ _ h => h) (fun _ _ h => h)
      (fun _ _ _ _ _ _ h => h) (fun w _ => hK w) hx
    knownEntry := ?_
    knownEdge := ?_
    entryKnown := fun w hw => hK w _ (hs.entryKnown w hw)
    selfKnown := fun w hw => hK w _ (hs.selfKnown w hw) }, hs.edges⟩, ?_⟩
  · rw [Ways.below_of_ne h.notEntry.symm]
    exact hs.knownEntry
  · intro w w' d hl hd
    have hne : w' ≠ v := fun heq => h.unused w (heq ▸ hl)
    rw [Ways.below_of_ne hne] at hd
    exact (hs.knownEdge w w' d hl hd).imp_right (hK w d)
  · exact { Grows.refl K b m with
      known := fun w _ hw => Ways.below_of_ne (by simpa using hw) }

end Spare

end Remove

end Builder

end SsaCompiler.Ir
