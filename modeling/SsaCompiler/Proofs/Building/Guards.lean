import SsaCompiler.Proofs.Building.Steps
import SsaCompiler.Proofs.Validity.Guards

/-!
Guarded divisions in a function under construction. A block that divides floats is entered only by
the second arm of branches on a test of the divisor. Steps of building add instructions with new
results, empty blocks and terminators; a step that leads to blocks without divisions opens no other
way into a block that divides.
-/
namespace SsaCompiler.Ir

/-- The block `v` divides floats. -/
def Body.Divides (b : Body) (v : BlockId) : Prop :=
  ∃ x ∈ b.blocks, x.id = v ∧ ∃ i ∈ x.instrs, ∃ l d, i.op = .binary .fdiv l d

namespace Builder

/-- Control enters the block `v` only by the second arm of branches on `z`, which tests `d`. -/
structure Watches (b : Builder) (z : Reg) (v : BlockId) (d : Value) : Prop where
  inner : v ≠ 0
  known : z < b.body.regTypes.length
  test : b.body.TestsZero z d
  branches : ∀ p ∈ b.body.blocks, v ∈ p.targets → ∃ t, p.term = some (.condBr (.reg z) t v) ∧ t ≠ v

/-- All numbers in use are below those to come, and divisions are guarded. -/
structure Firm (b : Builder) : Prop extends b.Counted where
  guarded : ∀ x ∈ b.body.blocks, ∀ i ∈ x.instrs, ∀ l d, i.op = .binary .fdiv l d →
    ∃ z, b.Watches z x.id d

/-- A block that was appended and does not divide. -/
structure Clear (b : Builder) (v : BlockId) : Prop where
  lt : v < b.body.nextBlock
  plain : ¬ b.body.Divides v

/-- Divisions stay guarded, and blocks that do not divide stay so. -/
structure Advances (b b' : Builder) : Prop where
  firm : b'.Firm
  next : b.body.nextBlock ≤ b'.body.nextBlock
  plain : ∀ v, v < b.body.nextBlock → b'.body.Divides v → b.body.Divides v

variable {b b' b'' : Builder} {new : BlockId → Op → Prop} {ends : Terminator → Prop}
  {M : List BlockId} {R : List Reg} {v : BlockId} {d : Value} {z : Reg}

theorem Advances.refl (h : b.Firm) : b.Advances b := ⟨h, le_rfl, fun _ _ hv => hv⟩

theorem Advances.trans (h : b.Advances b') (h' : b'.Advances b'') : b.Advances b'' :=
  ⟨h'.firm, h.next.trans h'.next,
    fun v hv hdiv => h.plain v hv (h'.plain v (hv.trans_le h.next) hdiv)⟩

theorem Clear.advances (h : b.Clear v) (hb : b.Advances b') : b'.Clear v :=
  ⟨h.lt.trans_le hb.next, fun hdiv => h.plain (hb.plain v h.lt hdiv)⟩

section Steps

theorem Moves.testsZero (h : Moves new ends M R b b') (hz : z < b.body.regTypes.length)
    (htest : b.body.TestsZero z d) : b'.body.TestsZero z d :=
  h.results (P := fun _ op => op = .fcmp .oeq d (.float .zero)) hz
    (.inr (by rintro _ _ rfl; rfl)) htest

/-- A step that does not lead into a guarded block leaves it guarded. -/
theorem Moves.watches (h : Moves new ends M R b b') (hv : ∀ t, ends t → v ∉ t.successors)
    (hwatch : b.Watches z v d) : b'.Watches z v d := by
  refine ⟨hwatch.inner, hwatch.known.trans_le h.types.length_le,
    h.testsZero hwatch.known hwatch.test, fun p' hp' hmem => ?_⟩
  rcases h.targets hp' hmem with ⟨p, hp, hsame, hmem⟩ | ⟨t, hend, hmem⟩
  · exact hsame ▸ hwatch.branches p hp hmem
  · exact absurd hmem (hv t hend)

theorem Moves.divides (h : Moves new ends M R b b') (hdiv : b'.body.Divides v) :
    b.body.Divides v ∨ ∃ l d, new v (.binary .fdiv l d) := by
  obtain ⟨y', hy', rfl, i', hi', l, d, hop⟩ := hdiv
  rcases h.plain hy' hi' (hop ▸ rfl) with ⟨y, hy, hid, i, hi, hsame⟩ | hnew
  · exact .inl ⟨y, hy, hid, i, hi, l, d, hsame.trans hop⟩
  · exact .inr ⟨l, d, hop ▸ hnew⟩

/-- A step that leads to blocks without divisions, and divides only where this is guarded, keeps
divisions guarded. -/
theorem Moves.firm (h : Moves new ends M R b b') (hb : b.Firm)
    (hends : ∀ t, ends t → ∀ v ∈ t.successors, b.Clear v)
    (hnew : ∀ v l d, new v (.binary .fdiv l d) → ∃ z, b'.Watches z v d) : b'.Firm := by
  refine ⟨h.counted hb.toCounted fun t ht v hv => (hends t ht v hv).lt, fun y' hy' i' hi' l d hop => ?_⟩
  rcases h.plain hy' hi' (hop ▸ rfl) with ⟨y, hy, hid, i, hi, hsame⟩ | hdiv
  · have hold := hsame.trans hop
    obtain ⟨z, hwatch⟩ := hb.guarded y hy i hi l d hold
    rw [← hid]
    exact ⟨z, h.watches (fun t ht hmem => (hends t ht _ hmem).plain ⟨y, hy, rfl, i, hi, l, d, hold⟩)
      hwatch⟩
  · exact hnew _ l d (hop ▸ hdiv)

/-- A step that does not divide. -/
theorem Moves.advances (h : Moves new ends M R b b') (hb : b.Firm)
    (hends : ∀ t, ends t → ∀ v ∈ t.successors, b.Clear v)
    (hnew : ∀ v l d, ¬ new v (.binary .fdiv l d)) : b.Advances b' :=
  ⟨h.firm hb hends fun v l d hdiv => (hnew v l d hdiv).elim, h.next,
    fun v _ hdiv => (h.divides hdiv).resolve_right fun ⟨l, d, hdiv⟩ => hnew v l d hdiv⟩

/-- A step that neither divides nor leads anywhere. -/
theorem Firm.advances (hb : b.Firm) (h : Moves new unended M R b b')
    (hnew : ∀ v l d, ¬ new v (.binary .fdiv l d)) : b.Advances b' :=
  h.advances hb (fun _ hend => hend.elim) hnew

theorem Firm.advances_of_nothing (hb : b.Firm) (h : Moves nothing unended M R b b') :
    b.Advances b' := hb.advances h fun _ _ _ hnew => hnew

end Steps

section Division

/-- A new block is entered from nowhere. -/
theorem Firm.watches_appendBlock (h : b.Firm) (hpos : 0 < b.body.nextBlock) (name : String)
    (hz : z < b.body.regTypes.length) (htest : b.body.TestsZero z d) :
    (b.appendBlock name).2.Watches z b.body.nextBlock d := by
  refine ⟨Nat.ne_of_gt hpos, hz, (moves_appendBlock b name).testsZero hz htest, fun p hp hmem => ?_⟩
  rcases List.mem_append.mp hp with hp | hp
  · exact absurd (h.targets p hp _ hmem) (Nat.lt_irrefl _)
  · rw [List.mem_singleton.mp hp] at hmem
    cases hmem

theorem Firm.clear_appendBlock (h : b.Firm) (name : String) :
    (b.appendBlock name).2.Clear b.body.nextBlock := by
  refine ⟨Nat.lt_succ_self _, ?_⟩
  rintro ⟨x, hx, hid, i, hi, _⟩
  rcases List.mem_append.mp hx with hx | hx
  · exact absurd hid (Nat.ne_of_lt (h.ids x hx))
  · rw [List.mem_singleton.mp hx] at hi
    cases hi

/-- A further branch on the test whose second arm leads to the block. -/
theorem Watches.condBr {t : BlockId} (h : b.Watches z v d) (ht : t ≠ v)
    (hterm : b.terminate (.condBr (.reg z) t v) = .ok b') : b'.Watches z v d := by
  have hmoves := moves_terminate hterm
  refine ⟨h.inner, h.known.trans_le hmoves.types.length_le, hmoves.testsZero h.known h.test, ?_⟩
  intro p hp hmem
  rcases mem_terminate hterm hp with hold | hnew
  · exact h.branches p hold hmem
  · exact ⟨t, hnew, ht⟩

/-- Divisions stay guarded up to `b'`, where the new block `v` may divide by `d` and go on in `u`. -/
structure Awaits (b : Builder) (v : BlockId) (d : Value) (u : BlockId) (b' : Builder) : Prop
    extends b.Advances b' where
  new : b.body.nextBlock ≤ v
  watches : ∃ z, b'.Watches z v d
  clear : b'.Clear u
  apart : v ≠ u

theorem Awaits.step {u : BlockId} (h : b.Awaits v d u b') (hmoves : Moves new ends M R b' b'')
    (hends : ∀ t, ends t → ∀ w ∈ t.successors, w = u) (hnew : ∀ v l d, ¬ new v (.binary .fdiv l d)) :
    b.Awaits v d u b'' := by
  have hadv := hmoves.advances h.firm (fun t ht w hw => hends t ht w hw ▸ h.clear) hnew
  obtain ⟨z, hwatch⟩ := h.watches
  exact ⟨h.toAdvances.trans hadv, h.new,
    ⟨z, hmoves.watches (fun t ht hmem => h.apart (hends t ht v hmem)) hwatch⟩,
    h.clear.advances hadv, h.apart⟩

/-- A test of `d`, three blocks, and a branch to two of them. The second may divide by `d`. -/
theorem Firm.opens {isZero : Value} {n1 n2 n3 : String} (h : b.Firm)
    (hfcmp : b.fcmp .oeq d (.float .zero) = .ok (isZero, b'))
    (hbranch : (((b'.appendBlock n1).2.appendBlock n2).2.appendBlock n3).2.terminate
      (.condBr isZero b'.body.nextBlock (b'.body.nextBlock + 1)) = .ok b'') :
    b.Awaits (b'.body.nextBlock + 1) d (b'.body.nextBlock + 2) b'' := by
  obtain ⟨z, rfl, hz, htest⟩ := h.toCounted.of_pushValue (by decide) hfcmp
  have adv0 := h.advances (moves_pushValue hfcmp) fun _ _ _ hnew => nomatch hnew.2
  have adv1 := adv0.firm.advances_of_nothing (moves_appendBlock b' n1)
  have adv2 := adv1.firm.advances_of_nothing (moves_appendBlock _ n2)
  have adv3 := adv2.firm.advances_of_nothing (moves_appendBlock _ n3)
  have hwatch := (moves_appendBlock _ n3).watches (fun _ hend => hend.elim)
    (adv1.firm.watches_appendBlock (Nat.succ_pos _) n2 hz
      ((moves_appendBlock b' n1).testsZero hz htest))
  have clear1 := ((adv0.firm.clear_appendBlock n1).advances adv2).advances adv3
  have clear2 := (adv1.firm.clear_appendBlock n2).advances adv3
  have clear3 := adv2.firm.clear_appendBlock n3
  have adv4 := (moves_terminate hbranch).advances adv3.firm (by
    rintro _ rfl v hv
    rcases List.mem_cons.mp hv with rfl | hv
    · exact clear1
    · rw [List.mem_singleton.mp hv]
      exact clear2) fun _ _ _ hnew => hnew
  exact ⟨(((adv0.trans adv1).trans adv2).trans adv3).trans adv4, (adv0.trans adv1).next,
    ⟨z, hwatch.condBr (Nat.ne_of_lt (Nat.lt_succ_self _)) hbranch⟩, clear3.advances adv4,
    Nat.ne_of_lt (Nat.lt_succ_self _)⟩

/-- The division, in the block that awaits it. -/
theorem Awaits.divide {l q : Value} {u : BlockId} (h : b.Awaits v d u b') (hcur : b'.current = v)
    (hdiv : b'.binary .fdiv l d = .ok (q, b'')) : b.Advances b'' ∧ b''.Clear u := by
  have hmoves := moves_pushValue hdiv
  obtain ⟨z, hwatch⟩ := h.watches
  have hplain : ∀ w, w ≠ v → b''.body.Divides w → b'.body.Divides w := fun w hw hd =>
    (hmoves.divides hd).resolve_right fun ⟨_, _, hcur', _⟩ => hw (hcur'.trans hcur)
  refine ⟨⟨hmoves.firm h.firm (fun _ hend => hend.elim) ?_, h.next.trans hmoves.next,
    fun w hw hd => h.plain w hw (hplain w (Nat.ne_of_lt (hw.trans_le h.new)) hd)⟩,
    h.clear.lt.trans_le hmoves.next, fun hd => h.clear.plain (hplain u h.apart.symm hd)⟩
  rintro w l' e ⟨rfl, heq⟩
  cases heq
  exact ⟨z, hcur ▸ hmoves.watches (fun _ hend => hend.elim) hwatch⟩

end Division

/-- The body of a function is built from the block of number zero on, and its divisions are
guarded. -/
theorem Firm.careful (h : b.Firm) (hentry : b.body.entry = 0) : b.body.Careful false := by
  intro x hx i hi l d hop
  obtain ⟨z, hwatch⟩ := h.guarded x hx i hi l d hop
  exact .inr (.inl ⟨z, hwatch.test, hentry ▸ hwatch.inner, hwatch.branches⟩)

end Builder

end SsaCompiler.Ir
