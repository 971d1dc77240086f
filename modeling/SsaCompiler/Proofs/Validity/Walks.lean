import SsaCompiler.Proofs.Validity.Verify
import Mathlib.Data.List.Chain

/-!
What the rules for a body mean for the ways that control can take through it. A walk is a list of
blocks from the entry on, each one a successor of the block before it. On every walk through a body
that passes the check, a register is used only behind an instruction that has defined it, and a phi
has exactly one value for the edge by which its block was entered.
-/
namespace SsaCompiler.Ir

namespace Body

variable {b : Body} {x y : Block} {before after : List Block} {done : List Instr} {r : Reg}

/-- Control can run through the blocks of `path` in this order, from the entry on. -/
structure Walk (b : Body) (path : List Block) : Prop where
  start : path.head? = b.blocks.head?
  edges : path.IsChain fun x y => y ∈ b.blocks ∧ y.id ∈ x.successors

/-- The instructions that have run once control has gone through the blocks of `path`. -/
def trace (path : List Block) : List Instr := path.flatMap (·.instrs)

theorem mem_definedBy_trace {path : List Block} (hx : x ∈ path) (hr : r ∈ definedBy x.instrs) :
    r ∈ definedBy (trace path) :=
  definedBy_subset (fun _ hi => List.mem_flatMap.mpr ⟨x, hx, hi⟩) hr

namespace Walk

/-- A walk can stop at every block that it comes to. -/
theorem upTo (h : b.Walk (before ++ x :: after)) : b.Walk (before ++ [x]) := by
  have hsplit : before ++ x :: after = (before ++ [x]) ++ after := by simp
  constructor
  · rw [← h.start]
    cases before <;> rfl
  · have hchain := h.edges
    rw [hsplit, List.isChain_append] at hchain
    exact hchain.1

/-- A walk of two blocks or more takes an edge into its last block. -/
theorem back {front : List Block} (h : b.Walk (front ++ [y] ++ [x])) :
    b.Walk (front ++ [y]) ∧ x ∈ b.blocks ∧ x.id ∈ y.successors := by
  have hedge := (List.isChain_append.mp h.edges).2.2 y (by simp) x (by simp)
  rw [List.append_assoc] at h
  exact ⟨h.upTo, hedge⟩

theorem last_mem (h : b.Walk (before ++ [x])) : x ∈ b.blocks := by
  rcases before.eq_nil_or_concat' with rfl | ⟨front, y, rfl⟩
  · exact List.mem_of_mem_head? h.start.symm
  · exact h.back.2.1

theorem leads {front : List Block} (h : b.Walk (front ++ [y] ++ [x])) : b.Leads y.id x.id :=
  ⟨y, h.back.1.last_mem, rfl, Block.mem_targets.mpr h.back.2.2⟩

/-- A walk that keeps out of a set is a path around that set. -/
theorem path {S : BlockId → Prop} (h : b.Walk (before ++ [x]))
    (hfree : ∀ y ∈ before ++ [x], ¬ S y.id) : Path b.Leads S b.entry x.id := by
  induction before using List.reverseRecOn generalizing x with
  | nil =>
    have hhead : b.blocks.head? = some x := h.start.symm
    rw [entry_of_head hhead]
    exact Path.here (hfree x (by simp))
  | append_singleton front y ih =>
    have hto : Path b.Leads S b.entry y.id := by
      apply ih h.back.1
      intro z hz
      exact hfree z (List.mem_append_left _ hz)
    exact Path.step hto h.leads (hfree x (by simp))

theorem reaches (h : b.Walk (before ++ [x])) : b.Reaches x.id :=
  h.path fun _ _ => id

theorem mem (h : b.Walk (before ++ [x])) (hy : y ∈ before ++ [x]) : y ∈ b.blocks := by
  obtain ⟨front, back, hsplit⟩ := List.append_of_mem hy
  rw [hsplit] at h
  exact h.upTo.last_mem

/-- A walk visits every block that dominates the block where it ends. -/
theorem visits (h : b.Walk (before ++ [x])) (hb : b.ids.Nodup) (hy : y ∈ b.blocks)
    (hdom : b.Dominates y.id x.id) : y ∈ before ++ [x] := by
  by_contra hnot
  apply hdom
  apply h.path
  intro z hz hid
  apply hnot
  rwa [← eq_of_id_eq hb (h.mem hz) hy hid]

/-- What is available where control leaves a block has been defined on every walk through it. -/
theorem defined_out (h : b.Walk (before ++ [x])) (hb : b.ids.Nodup) (havail : b.AvailOut x.id r) :
    r ∈ definedBy (trace (before ++ [x])) := by
  obtain ⟨y, hy, hr, hdom⟩ := havail
  exact mem_definedBy_trace (h.visits hb hy hdom) hr

/-- What is available inside a block has been defined in it or in a block visited before. -/
theorem defined_in (h : b.Walk (before ++ [x])) (hb : b.ids.Nodup)
    (havail : b.AvailIn x.id done r) : r ∈ definedBy (trace before ++ done) := by
  rw [definedBy_append, List.mem_append]
  rcases havail with hdone | ⟨y, hy, hr, hne, hdom⟩
  · exact Or.inr hdone
  · have hvisited := h.visits hb hy hdom
    have hbefore : y ∈ before := by
      rcases List.mem_append.mp hvisited with hmem | hlast
      · exact hmem
      · rw [List.mem_singleton] at hlast
        exact absurd (congrArg Block.id hlast) hne
    exact Or.inl (mem_definedBy_trace hbefore hr)

end Walk

/-- A phi has exactly one value for an edge into its block. -/
theorem OneEdgeEach.selects {place source : BlockId} {incoming : List (Value × BlockId)}
    (h : b.OneEdgeEach place incoming) (hedge : b.Leads source place) :
    ∃ v, incoming.filter (·.2 = source) = [(v, source)] := by
  obtain ⟨hnodup, hsources⟩ := h
  obtain ⟨⟨v, u⟩, hmem, hu⟩ := List.mem_map.mp ((hsources source).mpr hedge)
  obtain rfl : u = source := hu
  obtain ⟨front, back, rfl⟩ := List.append_of_mem hmem
  rw [List.map_append, List.map_cons, List.nodup_append, List.nodup_cons] at hnodup
  obtain ⟨_, ⟨hback, _⟩, hfront⟩ := hnodup
  have hleft : front.filter (·.2 = u) = [] := by
    rw [List.filter_eq_nil_iff]
    intro e he heq
    exact hfront e.2 (List.mem_map_of_mem he) u (by simp) (of_decide_eq_true heq)
  have hright : back.filter (·.2 = u) = [] := by
    rw [List.filter_eq_nil_iff]
    intro e he heq
    exact hback (List.mem_map.mpr ⟨e, he, of_decide_eq_true heq⟩)
  refine ⟨v, ?_⟩
  rw [List.filter_append, List.filter_cons_of_pos (by simp), hleft, hright]
  rfl

end Body

/-- On every walk through a function that passes the check, the registers that an instruction or a
terminator reads have been defined earlier on the walk, and every phi has one value for the edge by
which its block was entered, defined before that edge was taken. -/
theorem Function.verified_walk_defines (f : Function) (m : Module) (b : Body)
    (hbody : f.body = some b) (hb : b.ids.Nodup) (hverify : f.verify m = .ok ())
    (before after : List Block) (x : Block) (hwalk : b.Walk (before ++ x :: after)) :
    (∀ done i rest, x.instrs = done ++ i :: rest → i.op.isPhi = false →
      ∀ r, .reg r ∈ i.op.operands → r ∈ definedBy (Body.trace before ++ done)) ∧
    (∀ t, x.term = some t →
      ∀ r, .reg r ∈ t.operands → r ∈ definedBy (Body.trace (before ++ [x]))) ∧
    ∀ y, before.getLast? = some y → ∀ i ∈ x.instrs, ∀ incoming, i.op = .phi incoming →
      ∃ v, incoming.filter (·.2 = y.id) = [(v, y.id)] ∧
        ∀ r, v = .reg r → r ∈ definedBy (Body.trace before) := by
  have hvalid : b.Valid f m := (Function.verify_eq_ok_iff hbody hb).mp hverify
  have hhere := hwalk.upTo
  have hx : x ∈ b.blocks := hhere.last_mem
  have huses := hvalid.uses x hx
  refine ⟨?_, ?_, ?_⟩
  · intro done i rest hsplit hplain r hr
    have havail := (huses.plain done i rest hsplit hplain r hr).2 hhere.reaches
    exact hhere.defined_in hb havail
  · intro t hterm r hr
    exact hhere.defined_out hb (huses.term t hterm r hr)
  · intro y hlast i hi incoming hphi
    -- the block before the last one is where the edge into `x` comes from
    obtain ⟨front, rfl⟩ := List.getLast?_eq_some_iff.mp hlast
    have hedges := (hvalid.shape x hx).edges i hi incoming hphi
    obtain ⟨v, hv⟩ := hedges.selects hhere.leads
    refine ⟨v, hv, ?_⟩
    intro r hr
    have hmem : (.reg r, y.id) ∈ incoming := by
      apply List.mem_of_mem_filter
      rw [hv, hr]
      exact List.mem_singleton_self _
    have havail := huses.phi hhere.reaches i hi incoming hphi r y.id hmem
    exact hhere.back.1.defined_out hb havail

/-- A body that counts its parameter down to zero. -/
def countdownBody : Body where
  blocks := [
    ⟨0, "entry", [], some (.br 1)⟩,
    ⟨1, "header", [⟨some 0, .i64, .phi [(.param 0, 0), (.reg 2, 2)]⟩,
      ⟨some 1, .i1, .icmp .sgt (.reg 0) (.int 0)⟩], some (.condBr (.reg 1) 2 3)⟩,
    ⟨2, "body", [⟨some 2, .i64, .binary .sub (.reg 0) (.int 1)⟩], some (.br 1)⟩,
    ⟨3, "exit", [], some (.ret (some (.reg 0)))⟩]
  regTypes := [.i64, .i1, .i64]
  nextBlock := 4

def countdown : Function := ⟨"countdown", [⟨"n", .i64⟩], .i64, some countdownBody⟩

theorem countdown_walk : countdownBody.Walk (countdownBody.blocks.take 3 ++
    countdownBody.blocks[1] :: []) where
  start := rfl
  edges := by decide

theorem countdown_walk_defines :
    countdownBody.ids.Nodup ∧ countdown.verify ⟨"countdown", [], [], []⟩ = .ok () ∧
    countdownBody.Walk (countdownBody.blocks.take 3 ++ countdownBody.blocks[1] :: []) ∧
    ∃ v, List.filter (·.2 = 2) [(Value.param 0, 0), (.reg 2, 2)] = [(v, 2)] ∧
      ∀ r, v = .reg r → r ∈ definedBy (Body.trace (countdownBody.blocks.take 3)) := by
  have hnodup : countdownBody.ids.Nodup := by decide
  have hverify : countdown.verify ⟨"countdown", [], [], []⟩ = .ok () := rfl
  have hdefines := Function.verified_walk_defines countdown _ countdownBody rfl hnodup hverify
    (countdownBody.blocks.take 3) [] countdownBody.blocks[1] countdown_walk
  exact ⟨hnodup, hverify, countdown_walk,
    hdefines.2.2 countdownBody.blocks[2] rfl ⟨some 0, .i64, .phi [(.param 0, 0), (.reg 2, 2)]⟩
      (by decide) _ rfl⟩

end SsaCompiler.Ir
