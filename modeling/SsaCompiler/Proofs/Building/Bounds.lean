import SsaCompiler.Proofs.Building.Steps
import SsaCompiler.Proofs.Validity.Bounds

/-!
Places in arrays while a function is built. A loop over an array is closed when the next count is
used as an index: by then a test leads to the block that uses it, and the edge back to the counter is
added at once. Until then nothing leads to that block and the counter has no other edge, because the
body of the loop does not touch what was there before it.
-/
namespace SsaCompiler.Ir

/-- The block `u` takes the address of the element `v` of the array at `base`. -/
def Body.Indexes (b : Body) (u : BlockId) (base v : Value) : Prop :=
  ∃ x ∈ b.blocks, x.id = u ∧ ∃ i ∈ x.instrs, i.op = .elementPtr base v

/-- The block `v` has a phi in `r`. -/
def Body.HasPhi (b : Body) (v : BlockId) (r : Reg) (incoming : List (Value × BlockId)) : Prop :=
  ∃ x ∈ b.blocks, x.id = v ∧ ∃ i ∈ x.instrs, i.result = some r ∧ i.op = .phi incoming

/-- The register `r` is computed by `op`, and in the block `v` only. -/
def Body.Sole (b : Body) (r : Reg) (v : BlockId) (op : Op) : Prop :=
  ∀ x ∈ b.blocks, ∀ i ∈ x.instrs, i.result = some r → x.id = v ∧ i.op = op

namespace Builder

/-- All numbers in use are below those to come, also that of the current block. -/
structure Numbered (b : Builder) : Prop extends b.Counted where
  current : b.current < b.body.nextBlock

/-- Control enters the block `v` only by the first arm of branches on `z`. -/
structure Enters (b : Builder) (z : Reg) (v : BlockId) : Prop where
  inner : v ≠ 0
  branches : ∀ p ∈ b.body.blocks, v ∈ p.targets → ∃ e, p.term = some (.condBr (.reg z) v e) ∧ e ≠ v

/-- From the block `v` control goes to `h`. -/
def GoesTo (b : Builder) (v h : BlockId) : Prop :=
  ∀ x ∈ b.body.blocks, x.id = v → x.term = some (.br h)

/-- The block `v` is not the current one, has no terminator, and nothing leads to it. -/
structure Idle (b : Builder) (v : BlockId) : Prop where
  lt : v < b.body.nextBlock
  inner : v ≠ 0
  other : v ≠ b.current
  isOpen : ∀ x ∈ b.body.blocks, x.id = v → x.term = none
  unused : ∀ x ∈ b.body.blocks, v ∉ x.targets

/-- The counter `r` of the block `v` starts at zero and has no other edge yet. -/
structure Waits (b : Builder) (r : Reg) (v source : BlockId) : Prop where
  known : r < b.body.regTypes.length
  lt : v < b.body.nextBlock
  phi : b.body.HasPhi v r [(.int 0, source)]
  sole : b.body.Sole r v (.phi [(.int 0, source)])

/-- A loop over an array of `len` elements: the counter `c` of the block `h` has an edge from the
block `u`, where the next count `n` was tested. -/
structure Loops (b : Builder) (len : Nat) (h : BlockId) (c n : Reg) (u : BlockId) : Prop where
  positive : 0 < len
  known : c < b.body.regTypes.length ∧ n < b.body.regTypes.length
  lt : h < b.body.nextBlock ∧ u < b.body.nextBlock
  phi : ∃ source, b.body.HasPhi h c [(.int 0, source), (.reg n, u)]
  next : b.body.Always n (.binary .add (.reg c) (.int 1))
  test : ∃ z, z < b.body.regTypes.length ∧
    b.body.Always z (.icmp .slt (.reg n) (.int (Int64.ofNat len))) ∧ b.Enters z u
  back : b.GoesTo u h

/-- Arrays are indexed by their places only. -/
structure Sure (b : Builder) : Prop extends b.Numbered where
  bounded : ∀ u base v, b.body.Indexes u base v →
    ∃ elem len, b.finish.typeOf base = .ptr (.array elem len) ∧
      (v.Within len ∨ ∃ h c n, v = .reg n ∧ b.Loops len h c n u)

/-- A block that was appended and is not part of the way back in a loop. -/
structure Aside (b : Builder) (v : BlockId) : Prop where
  lt : v < b.body.nextBlock
  apart : ∀ u base n, b.body.Indexes u base (.reg n) → ∀ x ∈ b.body.blocks, x.id = u →
    x.id ≠ v ∧ v ∉ x.targets

/-- What stays as it was, if terminators lead to blocks of `T`, building goes on in blocks of `M`
and edges are added to phis in the registers of `R`, beside new ones. -/
structure Persists (T M : List BlockId) (R : List Reg) (b b' : Builder) : Prop where
  numbered : b'.Numbered
  next : b.body.nextBlock ≤ b'.body.nextBlock
  types : b.body.regTypes <+: b'.body.regTypes
  params : b'.params = b.params
  current : b'.current = b.current ∨ b'.current ∈ M ∨ b.body.nextBlock ≤ b'.current
  always : ∀ r op, r < b.body.regTypes.length → r ∉ R → b.body.Always r op → b'.body.Always r op
  sole : ∀ r v op, r < b.body.regTypes.length → r ∉ R → b.body.Sole r v op → b'.body.Sole r v op
  phi : ∀ v r incoming, v < b.body.nextBlock → r < b.body.regTypes.length → v ∉ M → r ∉ R →
    b.body.HasPhi v r incoming → b'.body.HasPhi v r incoming
  enters : ∀ z v, v < b.body.nextBlock → v ∉ T → b.Enters z v → b'.Enters z v
  goesTo : ∀ v h, v < b.body.nextBlock → b.GoesTo v h → b'.GoesTo v h
  idle : ∀ v, v ∉ T → v ∉ M → b.Idle v → b'.Idle v

variable {b b' b'' : Builder} {T T' M M' : List BlockId} {R R' : List Reg} {u v h : BlockId}
  {r c n z : Reg} {len : Nat} {base w : Value} {ty : Ty} {op : Op}
  {new : BlockId → Op → Prop} {ends : Terminator → Prop} {t : Terminator}

theorem Persists.refl (hb : b.Numbered) : Persists T M R b b where
  numbered := hb
  next := le_rfl
  types := List.prefix_refl _
  params := rfl
  current := .inl rfl
  always _ _ _ _ h := h
  sole _ _ _ _ _ h := h
  phi _ _ _ _ _ _ _ h := h
  enters _ _ _ _ h := h
  goesTo _ _ _ h := h
  idle _ _ _ h := h

/-- Changes compose if the second is about new blocks and registers beside those of the first. -/
theorem Persists.trans (hp : Persists T M R b b') (hp' : Persists T' M' R' b' b'')
    (hT : ∀ v ∈ T', v ∈ T ∨ b.body.nextBlock ≤ v) (hM : ∀ v ∈ M', v ∈ M ∨ b.body.nextBlock ≤ v)
    (hR : ∀ r ∈ R', r ∈ R ∨ b.body.regTypes.length ≤ r) : Persists T M R b b'' := by
  have hT' : ∀ v, v < b.body.nextBlock → v ∉ T → v ∉ T' := fun v hlt hv hmem =>
    (hT v hmem).elim hv hlt.not_ge
  have hM' : ∀ v, v < b.body.nextBlock → v ∉ M → v ∉ M' := fun v hlt hv hmem =>
    (hM v hmem).elim hv hlt.not_ge
  have hR' : ∀ r, r < b.body.regTypes.length → r ∉ R → r ∉ R' := fun r hlt hr hmem =>
    (hR r hmem).elim hr hlt.not_ge
  have hregs := hp.types.length_le
  refine ⟨hp'.numbered, hp.next.trans hp'.next, hp.types.trans hp'.types,
    hp'.params.trans hp.params, ?_, ?_, ?_, ?_, ?_, ?_, ?_⟩
  · rcases hp'.current with hcur | hcur | hcur
    · exact hcur ▸ hp.current
    · exact .inr (hM _ hcur)
    · exact .inr (.inr (hp.next.trans hcur))
  · exact fun r op hlt hr halways =>
      hp'.always r op (hlt.trans_le hregs) (hR' r hlt hr) (hp.always r op hlt hr halways)
  · exact fun r v op hlt hr hsole =>
      hp'.sole r v op (hlt.trans_le hregs) (hR' r hlt hr) (hp.sole r v op hlt hr hsole)
  · exact fun v r incoming hv hr hvM hrR hphi =>
      hp'.phi v r incoming (hv.trans_le hp.next) (hr.trans_le hregs) (hM' v hv hvM) (hR' r hr hrR)
        (hp.phi v r incoming hv hr hvM hrR hphi)
  · exact fun z v hv hvT henters =>
      hp'.enters z v (hv.trans_le hp.next) (hT' v hv hvT) (hp.enters z v hv hvT henters)
  · exact fun v h hv hgoes => hp'.goesTo v h (hv.trans_le hp.next) (hp.goesTo v h hv hgoes)
  · exact fun v hvT hvM hidle =>
      hp'.idle v (hT' v hidle.lt hvT) (hM' v hidle.lt hvM) (hp.idle v hvT hvM hidle)

theorem Persists.weaken (hp : Persists T M R b b') (hT : ∀ v ∈ T, v ∈ T') (hM : ∀ v ∈ M, v ∈ M')
    (hR : ∀ r ∈ R, r ∈ R') : Persists T' M' R' b b' where
  numbered := hp.numbered
  next := hp.next
  types := hp.types
  params := hp.params
  current := hp.current.imp_right (.imp_left (hM _))
  always r op hlt hr := hp.always r op hlt fun hmem => hr (hR r hmem)
  sole r v op hlt hr := hp.sole r v op hlt fun hmem => hr (hR r hmem)
  phi v r es hv hr hvM hrR := hp.phi v r es hv hr (fun hmem => hvM (hM v hmem))
    fun hmem => hrR (hR r hmem)
  enters z v hv hvT := hp.enters z v hv fun hmem => hvT (hT v hmem)
  goesTo := hp.goesTo
  idle v hvT hvM := hp.idle v (fun hmem => hvT (hT v hmem)) fun hmem => hvM (hM v hmem)

/-- The type of a value stays the same. -/
theorem Persists.typeOf (hp : Persists T M R b b') (hty : ty ≠ .void)
    (hw : b.finish.typeOf w = ty) : b'.finish.typeOf w = ty := by
  cases w with
  | reg r =>
    obtain ⟨more, hmore⟩ := hp.types
    simp only [Function.typeOf, finish, Option.bind_some] at hw ⊢
    by_cases hr : r < b.body.regTypes.length
    · rw [← hmore, List.getElem?_append_left hr]
      exact hw
    · rw [List.getElem?_eq_none (Nat.not_lt.mp hr)] at hw
      exact absurd hw.symm hty
  | param i =>
    simp only [Function.typeOf, finish] at hw ⊢
    rw [hp.params]
    exact hw
  | _ => exact hw

section Steps

theorem Moves.numbered (hm : Moves new ends M R b b') (hb : b.Numbered)
    (hends : ∀ t, ends t → ∀ v ∈ t.successors, v < b.body.nextBlock)
    (hM : ∀ v ∈ M, v < b.body.nextBlock) : b'.Numbered := by
  refine ⟨hm.counted hb.toCounted hends, ?_⟩
  rcases hm.current with hcur | hcur
  · exact hcur ▸ hb.current.trans_le hm.next
  · exact (hM _ hcur).trans_le hm.next

/-- The addresses of elements after a step are those before it and new ones. -/
theorem Moves.indexes (hm : Moves new ends M R b b') (hu : b'.body.Indexes u base w) :
    b.body.Indexes u base w ∨ new u (.elementPtr base w) := by
  obtain ⟨y', hy', rfl, i', hi', hop⟩ := hu
  rcases hm.plain hy' hi' (hop ▸ rfl) with ⟨y, hy, hid, i, hi, hsame⟩ | hnew
  · exact .inl ⟨y, hy, hid, i, hi, hsame.trans hop⟩
  · exact .inr (hop ▸ hnew)

theorem Moves.persists (hm : Moves new ends M R b b') (hb : b.Numbered)
    (hends : ∀ t, ends t → ∀ v ∈ t.successors, v ∈ T) (hT : ∀ v ∈ T, v < b.body.nextBlock)
    (hM : ∀ v ∈ M, v < b.body.nextBlock) : Persists T M R b b' := by
  -- a block with an old number is what became of an old block
  have hold : ∀ y' ∈ b'.body.blocks, y'.id < b.body.nextBlock →
      ∃ y ∈ b.body.blocks, Touches new ends R b b' y y' := by
    intro y' hy' hlt
    rcases hm.blocks y' hy' with hy | ⟨hle, _⟩
    · exact hy
    · exact absurd hlt hle.not_gt
  refine ⟨hm.numbered hb (fun t ht v hv => hT v (hends t ht v hv)) hM, hm.next, hm.types, hm.params,
    hm.current.imp_right .inl, ?_, ?_, ?_, ?_, ?_, ?_⟩
  · exact fun r op hr hrR halways => hm.results (P := fun _ o => o = op) hr (.inl hrR) halways
  · exact fun r v op hr hrR hsole =>
      hm.results (P := fun u o => u = v ∧ o = op) hr (.inl hrR) hsole
  · rintro _ r incoming _ _ hvM hrR ⟨y, hy, rfl, i, hi, hres, hop⟩
    obtain ⟨y', hy', htouches⟩ := hm.kept y hy hvM
    refine ⟨y', hy', htouches.id, i, htouches.kept i hi fun q hq heq => hrR ?_, hres, hop⟩
    obtain rfl : r = q := Option.some.inj (hres.symm.trans heq)
    exact hq
  · intro z v _ hvT henters
    refine ⟨henters.inner, fun p' hp' hmem => ?_⟩
    rcases hm.targets hp' hmem with ⟨p, hp, hsame, hmem⟩ | ⟨t, hend, hmem⟩
    · exact hsame ▸ henters.branches p hp hmem
    · exact absurd (hends t hend v hmem) hvT
  · rintro _ h hv hgoes y' hy' rfl
    obtain ⟨y, hy, htouches⟩ := hold y' hy' hv
    have hterm := hgoes y hy htouches.id.symm
    rcases htouches.term with hsame | ⟨_, hnone, _⟩
    · exact hsame.trans hterm
    · rw [hnone] at hterm
      cases hterm
  · intro v hvT hvM hidle
    refine ⟨hidle.lt.trans_le hm.next, hidle.inner, ?_, ?_, ?_⟩
    · rcases hm.current with hcur | hcur
      · exact hcur ▸ hidle.other
      · exact fun heq => hvM (heq ▸ hcur)
    · rintro y' hy' rfl
      obtain ⟨y, hy, htouches⟩ := hold y' hy' hidle.lt
      rcases htouches.term with hsame | ⟨hcur, _⟩
      · exact hsame.trans (hidle.isOpen y hy htouches.id.symm)
      · exact absurd (htouches.id.trans hcur) hidle.other
    · intro p' hp' hmem
      rcases hm.targets hp' hmem with ⟨p, hp, _, hmem⟩ | ⟨t, hend, hmem⟩
      · exact hidle.unused p hp hmem
      · exact hvT (hends t hend v hmem)

end Steps

section Loops

/-- The counter of a closed loop has two edges, and its other registers are no phis. -/
theorem Loops.ne_of_waits (hloops : b.Loops len h c n u) {source : BlockId}
    (hwaits : b.Waits r v source) : c ≠ r ∧ n ≠ r ∧
      ∀ z, b.body.Always z (.icmp .slt (.reg n) (.int (Int64.ofNat len))) → z ≠ r := by
  obtain ⟨x, hx, _, i, hi, hres, hop⟩ := hwaits.phi
  refine ⟨?_, ?_, ?_⟩
  · rintro rfl
    obtain ⟨_, y, hy, _, j, hj, hres', hop'⟩ := hloops.phi
    have heq := hop'.symm.trans (hwaits.sole y hy j hj hres').2
    simp at heq
  · rintro rfl
    exact absurd (hop.symm.trans (hloops.next x hx i hi hres)) (by simp)
  · rintro z hz rfl
    exact absurd (hop.symm.trans (hz x hx i hi hres)) (by simp)

/-- A closed loop stays closed, if its blocks are left alone and its counter gets no edge. -/
theorem Loops.persists (hloops : b.Loops len h c n u) (hp : Persists T M R b b') (hu : u ∉ T)
    (hh : h ∉ M) (hR : ∀ r ∈ R, ∃ v source, b.Waits r v source) : b'.Loops len h c n u := by
  have hcR : c ∉ R := fun hmem => by
    obtain ⟨_, _, hwaits⟩ := hR c hmem
    exact (hloops.ne_of_waits hwaits).1 rfl
  have hnR : n ∉ R := fun hmem => by
    obtain ⟨_, _, hwaits⟩ := hR n hmem
    exact (hloops.ne_of_waits hwaits).2.1 rfl
  have hregs := hp.types.length_le
  obtain ⟨source, hphi⟩ := hloops.phi
  obtain ⟨z, hz, htest, henters⟩ := hloops.test
  have hzR : z ∉ R := fun hmem => by
    obtain ⟨_, _, hwaits⟩ := hR z hmem
    exact (hloops.ne_of_waits hwaits).2.2 z htest rfl
  exact ⟨hloops.positive, ⟨hloops.known.1.trans_le hregs, hloops.known.2.trans_le hregs⟩,
    ⟨hloops.lt.1.trans_le hp.next, hloops.lt.2.trans_le hp.next⟩,
    ⟨source, hp.phi h c _ hloops.lt.1 hloops.known.1 hh hcR hphi⟩,
    hp.always n _ hloops.known.2 hnR hloops.next,
    ⟨z, hz.trans_le hregs, hp.always z _ hz hzR htest, hp.enters z u hloops.lt.2 hu henters⟩,
    hp.goesTo u h hloops.lt.2 hloops.back⟩

/-- An index in a register belongs to a closed loop. -/
theorem Sure.loops (hb : b.Sure) (hu : b.body.Indexes u base (.reg n)) :
    ∃ elem len h c, b.finish.typeOf base = .ptr (.array elem len) ∧ b.Loops len h c n u := by
  obtain ⟨elem, len, hty, hwithin | ⟨h, c, n', hn, hloops⟩⟩ := hb.bounded u base _ hu
  · obtain ⟨_, _, hk⟩ := hwithin
    cases hk
  · obtain rfl := Value.reg.inj hn
    exact ⟨elem, len, h, c, hty, hloops⟩

/-- The blocks of a closed loop are not aside. -/
theorem Aside.ne (hv : b.Aside v) (hu : b.body.Indexes u base (.reg n))
    (hloops : b.Loops len h c n u) : u ≠ v ∧ h ≠ v := by
  obtain ⟨x, hx, rfl, i, hi, hop⟩ := hu
  obtain ⟨hne, hnot⟩ := hv.apart x.id base n ⟨x, hx, rfl, i, hi, hop⟩ x hx rfl
  refine ⟨hne, fun heq => hnot ?_⟩
  rw [Block.mem_targets_of_term (hloops.back x hx rfl)]
  simp [Terminator.successors, heq]

/-- Arrays stay indexed by their places, if the blocks that are led to are aside and new addresses
are those of places. -/
theorem Persists.sure (hp : Persists T M R b b') (hb : b.Sure) (hT : ∀ v ∈ T, b.Aside v)
    (hM : ∀ v ∈ M, b.Aside v) (hR : ∀ r ∈ R, ∃ v source, b.Waits r v source)
    (hindexes : ∀ u base v, b'.body.Indexes u base v → b.body.Indexes u base v ∨
      ∃ elem len, b'.finish.typeOf base = .ptr (.array elem len) ∧
        (v.Within len ∨ ∃ h c n, v = .reg n ∧ b'.Loops len h c n u)) : b'.Sure := by
  refine ⟨hp.numbered, fun u base v hu => ?_⟩
  rcases hindexes u base v hu with hold | hnew
  · obtain ⟨elem, len, hty, hplace⟩ := hb.bounded u base v hold
    refine ⟨elem, len, hp.typeOf (by simp) hty, ?_⟩
    rcases hplace with hwithin | ⟨h, c, n, rfl, hloops⟩
    · exact .inl hwithin
    · refine .inr ⟨h, c, n, rfl, hloops.persists hp (fun hmem => ?_) (fun hmem => ?_) hR⟩
      · exact ((hT u hmem).ne hold hloops).1 rfl
      · exact ((hM h hmem).ne hold hloops).2 rfl
  · exact hnew

/-- A block stays aside, unless it is part of a new way back. -/
theorem Persists.aside (hp : Persists T M R b b') (hb : b.Sure) (hv : b.Aside v)
    (hindexes : ∀ u base n, b'.body.Indexes u base (.reg n) → b.body.Indexes u base (.reg n) ∨
      ∀ x ∈ b'.body.blocks, x.id = u → x.id ≠ v ∧ v ∉ x.targets) : b'.Aside v := by
  refine ⟨hv.lt.trans_le hp.next, fun u base n hu x hx hid => ?_⟩
  rcases hindexes u base n hu with hold | hnew
  · obtain ⟨elem, len, h, c, _, hloops⟩ := hb.loops hold
    obtain ⟨hne, hne'⟩ := hv.ne hold hloops
    refine ⟨hid ▸ hne, fun hmem => hne' ?_⟩
    rw [Block.mem_targets_of_term (hp.goesTo u h hloops.lt.2 hloops.back x hx hid)] at hmem
    simpa [Terminator.successors, eq_comm] using hmem
  · exact hnew x hx hid

theorem Waits.persists {source : BlockId} (hwaits : b.Waits r v source) (hp : Persists T M R b b')
    (hv : v ∉ M) (hr : r ∉ R) : b'.Waits r v source :=
  ⟨hwaits.known.trans_le hp.types.length_le, hwaits.lt.trans_le hp.next,
    hp.phi v r _ hwaits.lt hwaits.known hv hr hwaits.phi,
    hp.sole r v _ hwaits.known hr hwaits.sole⟩

end Loops

/-- A change after which arrays are still indexed by their places, and blocks aside are still so. -/
structure Secures (T M : List BlockId) (R : List Reg) (b b' : Builder) : Prop
    extends Persists T M R b b' where
  sure : b'.Sure
  aside : ∀ v, b.Aside v → b'.Aside v

/-- A new block is aside, and nothing leads to it. -/
theorem Sure.of_appendBlock (hb : b.Sure) (name : String) :
    (b.appendBlock name).2.Aside b.body.nextBlock ∧ (b.appendBlock name).2.Idle b.body.nextBlock := by
  have hcases : ∀ x ∈ (b.appendBlock name).2.body.blocks, x ∈ b.body.blocks ∨
      x.id = b.body.nextBlock ∧ x.instrs = [] ∧ x.term = none := by
    intro x hx
    rcases List.mem_append.mp hx with hx | hx
    · exact .inl hx
    · rw [List.mem_singleton.mp hx]
      exact .inr ⟨rfl, rfl, rfl⟩
  have hunused : ∀ x ∈ (b.appendBlock name).2.body.blocks, b.body.nextBlock ∉ x.targets := by
    intro x hx hmem
    rcases hcases x hx with hold | ⟨_, _, hnone⟩
    · exact absurd (hb.targets x hold _ hmem) (Nat.lt_irrefl _)
    · exact not_mem_targets_of_term_eq_none hnone hmem
  refine ⟨⟨Nat.lt_succ_self _, ?_⟩, ⟨Nat.lt_succ_self _, ?_, hb.current.ne', ?_, hunused⟩⟩
  · rintro _ base n ⟨y, hy, rfl, i, hi, _⟩ x hx hid
    refine ⟨?_, hunused x hx⟩
    rcases hcases y hy with hold | ⟨_, hempty, _⟩
    · exact hid ▸ (hb.ids y hold).ne
    · rw [hempty] at hi
      cases hi
  · exact Nat.ne_zero_of_lt hb.current
  · intro x hx hid
    rcases hcases x hx with hold | ⟨_, _, hnone⟩
    · exact absurd hid (hb.ids x hold).ne
    · exact hnone

theorem Secures.refl (hb : b.Sure) : Secures T M R b b := ⟨.refl hb.toNumbered, hb, fun _ hv => hv⟩

theorem Secures.weaken (hs : Secures T M R b b') (hT : ∀ v ∈ T, v ∈ T') (hM : ∀ v ∈ M, v ∈ M')
    (hR : ∀ r ∈ R, r ∈ R') : Secures T' M' R' b b' :=
  ⟨hs.toPersists.weaken hT hM hR, hs.sure, hs.aside⟩

theorem Secures.trans (hs : Secures T M R b b') (hs' : Secures T' M' R' b' b'')
    (hT : ∀ v ∈ T', v ∈ T ∨ b.body.nextBlock ≤ v) (hM : ∀ v ∈ M', v ∈ M ∨ b.body.nextBlock ≤ v)
    (hR : ∀ r ∈ R', r ∈ R ∨ b.body.regTypes.length ≤ r) : Secures T M R b b'' :=
  ⟨hs.toPersists.trans hs'.toPersists hT hM hR, hs'.sure, fun v hv => hs'.aside v (hs.aside v hv)⟩

/-- A step that takes no address of an element in a register. -/
theorem Moves.secures (hm : Moves new ends M R b b') (hb : b.Sure)
    (hends : ∀ t, ends t → ∀ v ∈ t.successors, v ∈ T) (hT : ∀ v ∈ T, b.Aside v)
    (hM : ∀ v ∈ M, b.Aside v) (hR : ∀ r ∈ R, ∃ v source, b.Waits r v source)
    (hnew : ∀ u base v, new u (.elementPtr base v) →
      ∃ elem len, b.finish.typeOf base = .ptr (.array elem len) ∧ v.Within len) :
    Secures T M R b b' := by
  have hp := hm.persists hb.toNumbered hends (fun v hv => (hT v hv).lt) fun v hv => (hM v hv).lt
  refine ⟨hp, hp.sure hb hT hM hR fun u base v hu => ?_, fun v hv => hp.aside hb hv ?_⟩
  · rcases hm.indexes hu with hold | hop
    · exact .inl hold
    · obtain ⟨elem, len, hty, hwithin⟩ := hnew u base v hop
      exact .inr ⟨elem, len, hp.typeOf (by simp) hty, .inl hwithin⟩
  · intro u base n hu
    rcases hm.indexes hu with hold | hop
    · exact .inl hold
    · obtain ⟨_, _, _, _, _, hk⟩ := hnew u base _ hop
      cases hk

/-- A step that adds nothing, and goes on in another block or removes one. -/
theorem Moves.secures_of_nothing (hm : Moves nothing unended M [] b b') (hb : b.Sure)
    (hM : ∀ v ∈ M, b.Aside v) : Secures [] M [] b b' :=
  hm.secures hb (fun _ hend => hend.elim) (by simp) hM (by simp) fun _ _ _ hnew => hnew.elim

/-- A step that adds one instruction, which takes no address of an element. -/
theorem Moves.secures_of_appended (hm : Moves (b.appended op) unended [] [] b b') (hb : b.Sure)
    (hop : ∀ base v, op ≠ .elementPtr base v) : Secures [] [] [] b b' :=
  hm.secures hb (fun _ hend => hend.elim) (by simp) (by simp) (by simp)
    fun _ base v hnew => absurd hnew.2.symm (hop base v)

theorem Sure.continueIn (hb : b.Sure) (hu : b.Aside u) :
    Secures [] [u] [] b ((b.moveToEnd u).position u) := by
  have sec1 := (moves_moveToEnd b u).secures_of_nothing hb (by simpa using hu)
  have sec2 := (moves_position (b.moveToEnd u) u).secures_of_nothing sec1.sure
    (by simpa using sec1.aside u hu)
  exact sec1.trans sec2 (by simp) (by simp) (by simp)

section Closing

/-- A new counter waits for its second edge. -/
theorem Numbered.of_phi (hb : b.Numbered) {source : BlockId}
    (hphi : b.phi ty [(.int 0, source)] = .ok (w, b')) :
    ∃ r, w = .reg r ∧ b.body.regTypes.length ≤ r ∧ b'.Waits r b.current source := by
  obtain ⟨_, hc, _⟩ := bind_eq_ok.mp hphi
  obtain ⟨x, hx, hcur⟩ := exists_current hc
  obtain ⟨rfl, hadds⟩ := phi_eq_ok hb.distinct hx hcur hphi
  refine ⟨_, rfl, le_rfl, by simp [hadds.regTypes], ?_, ⟨_, (hadds.replaces.mem _).mpr (.inr rfl),
    hcur, _, List.mem_append_right _ List.mem_cons_self, rfl, rfl⟩, ?_⟩
  · rw [hadds.replaces.next]
    exact hb.current
  · intro y hy i hi hres
    have hold : ∀ y ∈ b.body.blocks, i ∉ y.instrs := fun y hy hmem =>
      absurd (hb.results y hy i hmem _ hres) (Nat.lt_irrefl _)
    rcases (hadds.replaces.mem y).mp hy with ⟨hy, _⟩ | rfl
    · exact absurd hi (hold y hy)
    · have hnot := hold x hx
      rw [hadds.split] at hnot
      rcases List.mem_append.mp hi with hi | hi
      · exact absurd (List.mem_append_left _ hi) hnot
      · rcases List.mem_cons.mp hi with rfl | hi
        · exact ⟨hcur, rfl⟩
        · exact absurd (List.mem_append_right _ hi) hnot

/-- The phi in `c` gets the edge, since `c` is computed in one block only. -/
theorem HasPhi.addIncoming {incoming : List (Value × BlockId)} (hphi : b.body.HasPhi v c incoming)
    (hsole : b.body.Sole c v (.phi incoming)) (value : Value) (source : BlockId) :
    (b.addIncoming (.reg c) value source).body.HasPhi v c (incoming ++ [(value, source)]) := by
  obtain ⟨x, hx, _, i, hi, hres, _⟩ := hphi
  obtain ⟨y, hy, hany, hy'⟩ := exists_changed
    (p := fun y : Block => y.instrs.any (·.result = some c)) (f := fun y : Block => { y with
      instrs := modifyFirst (·.result = some c) (·.mapIncoming (· ++ [(value, source)])) y.instrs })
    hx (List.any_eq_true.mpr ⟨i, hi, by simpa using hres⟩)
  obtain ⟨j, hj, hresj⟩ := List.any_eq_true.mp hany
  obtain ⟨k, hk, hresk, hk'⟩ := exists_changed (p := fun i : Instr => i.result = some c)
    (f := (·.mapIncoming (· ++ [(value, source)]))) hj hresj
  have hresk : k.result = some c := by simpa using hresk
  obtain ⟨rfl, hop⟩ := hsole y hy k hk hresk
  exact ⟨_, hy', rfl, _, hk', hresk, by simp [Instr.mapIncoming, hop, Op.mapIncoming]⟩

/-- Where nothing was led before, only the new branch leads. -/
theorem Idle.condBr {e : BlockId} (hidle : b.Idle v) (he : e ≠ v)
    (hterm : b.terminate (.condBr (.reg z) v e) = .ok b') : b'.Enters z v := by
  refine ⟨hidle.inner, fun p hp hmem => ?_⟩
  rcases mem_terminate hterm hp with hold | hnew
  · exact absurd hmem (hidle.unused p hold)
  · exact ⟨e, hnew, he⟩

theorem goesTo_terminate (hb : b.body.ids.Nodup) (hv : b.current = v)
    (hopen : ∀ x ∈ b.body.blocks, x.id = v → x.term = none)
    (hterm : b.terminate (.br h) = .ok b') : b'.GoesTo v h := by
  subst hv
  unfold terminate updateCurrent at hterm
  split at hterm
  · cases hterm
    intro x hx hid
    rw [Body.blocks_updateBlock hb] at hx
    obtain ⟨y, hy, rfl⟩ := List.mem_map.mp hx
    by_cases hcur : y.id = b.current
    · rw [if_pos hcur]
      simp [hopen y hy hcur]
    · rw [if_neg hcur] at hid
      exact absurd hid hcur
  · cases hterm

/-- Only the current block is ended. -/
theorem Moves.isOpen (hm : Moves new ends M R b b') (hv : v ≠ b.current ∨ ∀ t, ¬ ends t)
    (hopen : ∀ x ∈ b.body.blocks, x.id = v → x.term = none) :
    ∀ x ∈ b'.body.blocks, x.id = v → x.term = none := by
  intro x' hx' hid
  rcases hm.blocks x' hx' with ⟨x, hx, htouches⟩ | ⟨_, _, _, hnone⟩
  · have hid : x.id = v := htouches.id.symm.trans hid
    rcases htouches.term with hsame | ⟨hcur, _, t, _, hend⟩
    · exact hsame.trans (hopen x hx hid)
    · exact (hv.elim (fun hne => hne (hid.symm.trans hcur)) fun hnot => hnot t hend).elim
  · exact hnone

/-- In the current block `u`, the next count `n` of the loop that begins in `h` has been tested. -/
structure Returns (b : Builder) (len : Nat) (h : BlockId) (c n : Reg) (u source : BlockId) : Prop where
  waits : b.Waits c h source
  known : n < b.body.regTypes.length
  next : b.body.Always n (.binary .add (.reg c) (.int 1))
  test : ∃ z, z < b.body.regTypes.length ∧
    b.body.Always z (.icmp .slt (.reg n) (.int (Int64.ofNat len))) ∧ b.Enters z u
  lt : u < b.body.nextBlock
  isOpen : ∀ x ∈ b.body.blocks, x.id = u → x.term = none
  current : b.current = u
  apart : u ≠ h

/-- The next count is tested, and building goes on in the block that uses it. -/
theorem Sure.returns (hb : b.Sure) {source exit : BlockId} {next more : Value} {b1 b2 b3 : Builder}
    (hidle : b.Idle u) (hwaits : b.Waits c h source) (hu : b.Aside u) (he : b.Aside exit)
    (hne : h ≠ u) (hexit : exit ≠ u) (h1 : b.binary .add (.reg c) (.int 1) = .ok (next, b1))
    (h2 : b1.icmp .slt next (.int (Int64.ofNat len)) = .ok (more, b2))
    (h3 : b2.terminate (.condBr more u exit) = .ok b3) :
    Secures [u, exit] [u] [] b ((b3.moveToEnd u).position u) ∧
      ∃ n, next = .reg n ∧ ((b3.moveToEnd u).position u).Returns len h c n u source := by
  have sec1 := (moves_pushValue h1).secures_of_appended hb (by simp)
  obtain ⟨n, rfl, hn, hnext⟩ := hb.toCounted.of_pushValue (by decide) h1
  have sec2 := (moves_pushValue h2).secures_of_appended sec1.sure (by simp)
  obtain ⟨z, rfl, hz, htest⟩ := sec1.sure.toCounted.of_pushValue (by decide) h2
  have sec02 := sec1.trans sec2 (by simp) (by simp) (by simp)
  have hasides : ∀ v ∈ [u, exit], b2.Aside v := by
    simpa using ⟨sec02.aside u hu, sec02.aside exit he⟩
  have sec3 : Secures [u, exit] [] [] b2 b3 :=
    (moves_terminate h3).secures sec02.sure (by rintro _ rfl; simp [Terminator.successors]) hasides
      (by simp) (by simp) fun _ _ _ hnew => hnew.elim
  have hidle2 := sec02.idle u (by simp) (by simp) hidle
  have sec03 : Secures [u, exit] [] [] b b3 :=
    (sec02.weaken (by simp) (by simp) (by simp)).trans sec3 (by simp) (by simp) (by simp)
  have sec35 := sec03.sure.continueIn (sec03.aside u hu)
  have sec25 : Secures [u, exit] [u] [] b2 ((b3.moveToEnd u).position u) :=
    (sec3.weaken (by simp) (by simp) (by simp)).trans sec35 (by simp) (by simp) (by simp)
  have sec05 : Secures [u, exit] [u] [] b ((b3.moveToEnd u).position u) :=
    (sec03.weaken (by simp) (by simp) (by simp)).trans sec35 (by simp) (by simp) (by simp)
  refine ⟨sec05, n, rfl, ?_, ?_, ?_, ⟨z, ?_, ?_, ?_⟩, ?_, ?_, rfl, hne.symm⟩
  · exact hwaits.persists sec05.toPersists (by simpa using hne) (by simp)
  · exact (hn.trans_le sec2.types.length_le).trans_le sec25.types.length_le
  · exact sec25.always n _ (hn.trans_le sec2.types.length_le) (by simp)
      (sec2.always n _ hn (by simp) hnext)
  · exact hz.trans_le sec25.types.length_le
  · exact sec25.always z _ hz (by simp) htest
  · exact sec35.enters z u (hidle2.lt.trans_le sec3.next) (by simp) (hidle2.condBr hexit h3)
  · exact hidle.lt.trans_le sec05.next
  · refine (moves_position _ u).isOpen (.inr fun _ hend => hend) ?_
    refine (moves_moveToEnd b3 u).isOpen (.inr fun _ hend => hend) ?_
    exact (moves_terminate h3).isOpen (.inl hidle2.other) hidle2.isOpen

/-- With its second edge, and the way back, the counter makes a loop. -/
theorem Returns.loops {source : BlockId} (hr : b.Returns len h c n u source) (hlen : 0 < len)
    (hper : Persists [h] [] [c] b b') (hphi : b'.body.HasPhi h c [(.int 0, source), (.reg n, u)])
    (hback : b'.GoesTo u h) : b'.Loops len h c n u := by
  obtain ⟨x, hx, _, i, hi, hres, hop⟩ := hr.waits.phi
  obtain ⟨z, hz, htest, henters⟩ := hr.test
  have hnc : n ≠ c := by
    rintro rfl
    exact absurd (hop.symm.trans (hr.next x hx i hi hres)) (by simp)
  have hzc : z ≠ c := by
    rintro rfl
    exact absurd (hop.symm.trans (htest x hx i hi hres)) (by simp)
  have hregs := hper.types.length_le
  exact ⟨hlen, ⟨hr.waits.known.trans_le hregs, hr.known.trans_le hregs⟩,
    ⟨hr.waits.lt.trans_le hper.next, hr.lt.trans_le hper.next⟩, ⟨source, hphi⟩,
    hper.always n _ hr.known (by simpa using hnc) hr.next,
    ⟨z, hz.trans_le hregs, hper.always z _ hz (by simpa using hzc) htest,
      hper.enters z u hr.lt (by simpa using hr.apart) henters⟩, hback⟩

/-- The next count is used as an index, and control goes back to the beginning of the loop. -/
theorem Returns.close {source : BlockId} (hr : b.Returns len h c n u source) (hb : b.Sure)
    (hh : b.Aside h) (hlen : 0 < len) {elem : Ty} {sequence ptr value slot : Value}
    {b1 b2 b3 b4 : Builder} (hseq : b.finish.typeOf sequence = .ptr (.array elem len))
    (h1 : b.elementPtr elem sequence (.reg n) = .ok (ptr, b1))
    (h2 : b1.load ty ptr = .ok (value, b2)) (h3 : b2.store value slot = .ok b3)
    (h4 : (b3.addIncoming (.reg c) (.reg n) u).terminate (.br h) = .ok b4) :
    Persists [h] [] [c] b b4 ∧ b4.Sure ∧ ∀ v, b.Aside v → v ≠ u → v ≠ h → b4.Aside v := by
  have per1 : Persists [] [] [] b b1 :=
    (moves_pushValue h1).persists hb.toNumbered (fun _ hend => hend.elim) (by simp) (by simp)
  have per2 : Persists [] [] [] b1 b2 :=
    (moves_pushValue h2).persists per1.numbered (fun _ hend => hend.elim) (by simp) (by simp)
  have per3 : Persists [] [] [] b2 b3 :=
    (moves_store h3).persists per2.numbered (fun _ hend => hend.elim) (by simp) (by simp)
  have per03 := (per1.trans per2 (by simp) (by simp) (by simp)).trans per3 (by simp) (by simp)
    (by simp)
  have per4 : Persists [] [] [c] b3 (b3.addIncoming (.reg c) (.reg n) u) :=
    (moves_addIncoming b3 c (.reg n) u).persists per3.numbered (fun _ hend => hend.elim) (by simp)
      (by simp)
  have per04 : Persists [] [] [c] b (b3.addIncoming (.reg c) (.reg n) u) :=
    (per03.weaken (by simp) (by simp) (by simp)).trans per4 (by simp) (by simp) (by simp)
  have per5 : Persists [h] [] [] (b3.addIncoming (.reg c) (.reg n) u) b4 :=
    (moves_terminate h4).persists per4.numbered (by rintro _ rfl; simp [Terminator.successors])
      (by simpa using hh.lt.trans_le per04.next) (by simp)
  have per05 : Persists [h] [] [c] b b4 :=
    (per04.weaken (by simp) (by simp) (by simp)).trans per5 (by simp) (by simp) (by simp)
  have hback : b4.GoesTo u h := by
    have hcur : (b3.addIncoming (.reg c) (.reg n) u).current = u :=
      ((moves_addIncoming b3 c (.reg n) u).current.resolve_right (by simp)).trans
        (((moves_store h3).current.resolve_right (by simp)).trans
          (((moves_pushValue h2).current.resolve_right (by simp)).trans
            (((moves_pushValue h1).current.resolve_right (by simp)).trans hr.current)))
    have hopen := (moves_addIncoming b3 c (.reg n) u).isOpen (.inr fun _ hend => hend)
      ((moves_store h3).isOpen (.inr fun _ hend => hend)
        ((moves_pushValue h2).isOpen (.inr fun _ hend => hend)
          ((moves_pushValue h1).isOpen (.inr fun _ hend => hend) hr.isOpen)))
    exact goesTo_terminate per4.numbered.distinct hcur hopen h4
  have hloops : b4.Loops len h c n u := by
    refine hr.loops hlen per05 ?_ hback
    have hwaits := hr.waits.persists per03 (by simp) (by simp)
    have hphi := HasPhi.addIncoming hwaits.phi hwaits.sole (.reg n) u
    exact per5.phi h c _ (hr.waits.lt.trans_le per04.next)
      (hr.waits.known.trans_le per04.types.length_le) (by simp) (by simp) hphi
  have hindexes : ∀ u' base v, b4.body.Indexes u' base v → b.body.Indexes u' base v ∨
      u' = u ∧ base = sequence ∧ v = .reg n := by
    intro u' base v h'
    have h' := ((moves_terminate h4).indexes h').resolve_right id
    have h' := ((moves_addIncoming b3 c (.reg n) u).indexes h').resolve_right id
    have h' := ((moves_store h3).indexes h').resolve_right fun hnew => by cases hnew.2
    have h' := ((moves_pushValue h2).indexes h').resolve_right fun hnew => by cases hnew.2
    rcases (moves_pushValue h1).indexes h' with hold | ⟨hcur, hop⟩
    · exact .inl hold
    · obtain ⟨rfl, rfl⟩ := Op.elementPtr.inj hop
      exact .inr ⟨hcur.trans hr.current, rfl, rfl⟩
  refine ⟨per05, per05.sure hb (by simpa using hh) (by simp) (by simpa using ⟨h, source, hr.waits⟩) ?_,
    fun v hv hvu hvh => per05.aside hb hv ?_⟩
  · intro u' base v h'
    rcases hindexes u' base v h' with hold | ⟨rfl, rfl, rfl⟩
    · exact .inl hold
    · exact .inr ⟨elem, len, per05.typeOf (by simp) hseq, .inr ⟨h, c, n, rfl, hloops⟩⟩
  · intro u' base n' h'
    rcases hindexes u' base _ h' with hold | ⟨rfl, _, _⟩
    · exact .inl hold
    · refine .inr fun x hx hid => ⟨hid ▸ hvu.symm, fun hmem => hvh ?_⟩
      rw [Block.mem_targets_of_term (hback x hx hid)] at hmem
      simpa [Terminator.successors] using hmem

end Closing

/-- The body of a function is built from the block of number zero on, and its arrays are indexed by
their places. -/
theorem Sure.body_bounded (hb : b.Sure) (hentry : b.body.entry = 0) :
    Body.Bounded b.finish b.body := by
  intro x hx i hi base v hop
  obtain ⟨elem, len, hty, hplace⟩ := hb.bounded x.id base v ⟨x, hx, rfl, i, hi, hop⟩
  refine ⟨elem, len, hty, ?_⟩
  rcases hplace with hwithin | ⟨h, c, n, rfl, hloops⟩
  · exact .inl hwithin
  · obtain ⟨source, hphi⟩ := hloops.phi
    obtain ⟨z, _, htest, henters⟩ := hloops.test
    have hclimbs : b.body.Climbs len h c n x.id :=
      ⟨hloops.next, ⟨z, htest, hentry ▸ henters.inner, henters.branches⟩, hloops.back⟩
    refine .inr ⟨h, c, _, n, ⟨hloops.positive, hphi, fun e he => ?_⟩, rfl, by simp⟩
    rcases List.mem_cons.mp he with rfl | he
    · exact .inl rfl
    · rw [List.mem_singleton.mp he]
      exact .inr ⟨n, rfl, hclimbs⟩

end Builder

end SsaCompiler.Ir
