import SsaCompiler.Proofs.Flow.Dominators
import Mathlib.Data.List.Chain
import Mathlib.Data.List.Nodup

/-!
The flow of control between the blocks of a body. If no number is used twice, a number stands for
one block, and the edges of the flow graph are those of the terminators.
-/
namespace SsaCompiler.Ir

section First

variable {α β : Type} {p : α → Bool} {f : α → α} {l : List α} {x y : α}

/-- Either no element has `p`, or one that has it is changed. -/
theorem modifyFirst_cases (p : α → Bool) (f : α → α) (l : List α) :
    ((∀ x ∈ l, p x = false) ∧ modifyFirst p f l = l) ∨ ∃ front z back,
      l = front ++ z :: back ∧ p z = true ∧ modifyFirst p f l = front ++ f z :: back := by
  induction l with
  | nil => exact .inl ⟨by simp, rfl⟩
  | cons z l ih =>
    cases hz : p z with
    | true => exact .inr ⟨[], z, l, rfl, hz, by simp [modifyFirst, hz]⟩
    | false =>
      have hstep : modifyFirst p f (z :: l) = z :: modifyFirst p f l := by simp [modifyFirst, hz]
      rcases ih with ⟨hnone, heq⟩ | ⟨front, y, back, rfl, hy, heq⟩
      · exact .inl ⟨by simpa [hz] using hnone, by rw [hstep, heq]⟩
      · exact .inr ⟨z :: front, y, back, rfl, hy, by rw [hstep, heq, List.cons_append]⟩

theorem exists_of_mem_modifyFirst (h : y ∈ modifyFirst p f l) :
    ∃ x ∈ l, y = x ∨ p x = true ∧ y = f x := by
  rcases modifyFirst_cases p f l with ⟨_, heq⟩ | ⟨front, z, back, rfl, hz, heq⟩
  · exact ⟨y, heq ▸ h, .inl rfl⟩
  · simp only [heq, List.mem_append, List.mem_cons] at h ⊢
    rcases h with h | h | h
    · exact ⟨y, .inl h, .inl rfl⟩
    · exact ⟨z, .inr (.inl rfl), .inr ⟨hz, h⟩⟩
    · exact ⟨y, .inr (.inr h), .inl rfl⟩

theorem exists_mem_modifyFirst (h : x ∈ l) :
    ∃ y ∈ modifyFirst p f l, y = x ∨ p x = true ∧ y = f x := by
  rcases modifyFirst_cases p f l with ⟨_, heq⟩ | ⟨front, z, back, rfl, hz, heq⟩
  · exact ⟨x, heq.symm ▸ h, .inl rfl⟩
  · simp only [heq, List.mem_append, List.mem_cons] at h ⊢
    rcases h with h | rfl | h
    · exact ⟨x, .inl h, .inl rfl⟩
    · exact ⟨f x, .inr (.inl rfl), .inr ⟨hz, rfl⟩⟩
    · exact ⟨x, .inr (.inr h), .inl rfl⟩

/-- If there is an element with `p`, one is changed. -/
theorem exists_changed (h : x ∈ l) (hx : p x = true) :
    ∃ x ∈ l, p x = true ∧ f x ∈ modifyFirst p f l := by
  rcases modifyFirst_cases p f l with ⟨hnone, _⟩ | ⟨front, z, back, rfl, hz, heq⟩
  · simp [hnone x h] at hx
  · exact ⟨z, by simp, hz, by simp [heq]⟩

/-- What the change leaves alone stays the same along the list. -/
theorem map_modifyFirst {g : α → β} (hg : ∀ x, g (f x) = g x) :
    (modifyFirst p f l).map g = l.map g := by
  rcases modifyFirst_cases p f l with ⟨_, heq⟩ | ⟨front, z, back, rfl, _, heq⟩
  · rw [heq]
  · simp [heq, hg]

@[simp] theorem length_modifyFirst : (modifyFirst p f l).length = l.length := by
  simpa using congrArg List.length (map_modifyFirst (p := p) (f := f) (l := l) (g := fun _ => ())
    fun _ => rfl)

theorem modifyFirst_map {q : β → Bool} {g : β → β} {h : β → α} (hp : ∀ x, p (h x) = q x)
    (hf : ∀ x, f (h x) = h (g x)) (l : List β) :
    modifyFirst p f (l.map h) = (modifyFirst q g l).map h := by
  induction l with
  | nil => rfl
  | cons z l ih =>
    rw [List.map_cons, modifyFirst, modifyFirst, hp]
    split
    · rw [List.map_cons, hf]
    · rw [List.map_cons, ih]

/-- Where no two elements have `p`, each one with `p` is changed. -/
theorem modifyFirst_eq_map (h : l.Pairwise fun x y => p x = true → p y = false) :
    modifyFirst p f l = l.map fun x => if p x then f x else x := by
  induction l with
  | nil => rfl
  | cons z l ih =>
    obtain ⟨hz, hl⟩ := List.pairwise_cons.mp h
    rw [modifyFirst, List.map_cons]
    split
    case isTrue hpz =>
      have hrest : ∀ x ∈ l, (if p x then f x else x) = x := fun x hx => by simp [hz x hx hpz]
      rw [List.map_congr_left hrest, List.map_id']
    case isFalse => rw [ih hl]

theorem eraseP_eq_filter (h : l.Pairwise fun x y => p x = true → p y = false) :
    l.eraseP p = l.filter (!p ·) := by
  induction l with
  | nil => rfl
  | cons z l ih =>
    obtain ⟨hz, hl⟩ := List.pairwise_cons.mp h
    cases hpz : p z with
    | true =>
      have hrest : ∀ x ∈ l, (!p x) = true := fun x hx => by simp [hz x hx hpz]
      rw [List.eraseP_cons_of_pos hpz, List.filter_cons_of_neg (by simp [hpz]),
        List.filter_eq_self.mpr hrest]
    | false => rw [List.eraseP_cons_of_neg (by simp [hpz]), List.filter_cons_of_pos (by simp [hpz]), ih hl]

end First

/-- The blocks that control may go to, each once. -/
def Terminator.targets : Terminator → List BlockId
  | br t => [t]
  | condBr _ t e => if t = e then [t] else [t, e]
  | ret _ => []

def Block.targets (b : Block) : List BlockId := b.term.elim [] Terminator.targets

theorem Terminator.mem_targets {t : Terminator} {v : BlockId} :
    v ∈ t.targets ↔ v ∈ t.successors := by
  cases t with
  | br s => simp [targets, successors]
  | condBr c s e =>
    by_cases h : s = e
    · simp [targets, successors, h]
    · simp [targets, successors, h]
  | ret v => simp [targets, successors]

theorem Block.mem_targets {x : Block} {v : BlockId} : v ∈ x.targets ↔ v ∈ x.successors := by
  unfold targets successors
  cases x.term with
  | none => rfl
  | some t => exact Terminator.mem_targets

theorem Block.mem_targets_of_term {x : Block} {t : Terminator} (h : x.term = some t)
    {v : BlockId} : v ∈ x.targets ↔ v ∈ t.successors := by
  simp [targets, h, Terminator.mem_targets]

theorem Block.exists_term {x : Block} {v : BlockId} (h : v ∈ x.targets) :
    ∃ t, x.term = some t ∧ v ∈ t.successors := by
  cases hterm : x.term with
  | none => simp [targets, hterm] at h
  | some t => exact ⟨t, rfl, (mem_targets_of_term hterm).mp h⟩

namespace Body

variable {b : Body} {x y : Block} {u v d : BlockId}

/-- The numbers of the blocks in layout order. -/
def ids (b : Body) : List BlockId := b.blocks.map (·.id)

/-- The number of the entry block. -/
def entry (b : Body) : BlockId := b.entryId?.getD 0

/-- Control may go from `u` to `v`. -/
def Leads (b : Body) (u v : BlockId) : Prop := ∃ x ∈ b.blocks, x.id = u ∧ v ∈ x.targets

/-- Control can get to `v`. -/
def Reaches (b : Body) (v : BlockId) : Prop := Reach b.Leads b.entry v

/-- Control gets to `v` through `d` only. -/
def Dominates (b : Body) (d v : BlockId) : Prop := Dom b.Leads b.entry d v

theorem mem_ids : v ∈ b.ids ↔ ∃ x ∈ b.blocks, x.id = v := List.mem_map

theorem id_mem_ids (hx : x ∈ b.blocks) : x.id ∈ b.ids := List.mem_map_of_mem hx

theorem eq_of_id_eq (hb : b.ids.Nodup) (hx : x ∈ b.blocks) (hy : y ∈ b.blocks)
    (h : x.id = y.id) : x = y := List.inj_on_of_nodup_map hb hx hy h

theorem pairwise_id_ne (hb : b.ids.Nodup) (v : BlockId) :
    b.blocks.Pairwise fun x y => decide (x.id = v) = true → decide (y.id = v) = false := by
  refine (List.pairwise_map.mp hb).imp fun {x y} hne hx => ?_
  have hx : x.id = v := by simpa using hx
  simpa using fun hy : y.id = v => hne (hx.trans hy.symm)

theorem ids_updateBlock {f : Block → Block} (hid : ∀ x, (f x).id = x.id) :
    (b.updateBlock v f).ids = b.ids := map_modifyFirst hid

theorem blocks_updateBlock (hb : b.ids.Nodup) (v : BlockId) (f : Block → Block) :
    (b.updateBlock v f).blocks = b.blocks.map fun x => if x.id = v then f x else x := by
  simpa [updateBlock] using modifyFirst_eq_map (f := f) (pairwise_id_ne hb v)

theorem blocks_removeBlock (hb : b.ids.Nodup) (v : BlockId) :
    (b.removeBlock v).blocks = b.blocks.filter (·.id ≠ v) := by
  simpa [removeBlock] using eraseP_eq_filter (pairwise_id_ne hb v)

section Remove

theorem mem_of_mem_removeBlock (h : x ∈ (b.removeBlock v).blocks) : x ∈ b.blocks :=
  List.mem_of_mem_eraseP h

theorem mem_removeBlock_of_ne (h : x ∈ b.blocks) (hne : x.id ≠ v) :
    x ∈ (b.removeBlock v).blocks := (List.mem_eraseP_of_neg (by simpa using hne)).mpr h

theorem mem_ids_of_mem_ids_removeBlock (h : u ∈ (b.removeBlock v).ids) : u ∈ b.ids := by
  obtain ⟨x, hx, rfl⟩ := mem_ids.mp h
  exact id_mem_ids (mem_of_mem_removeBlock hx)

theorem mem_ids_removeBlock_of_ne (h : u ∈ b.ids) (hne : u ≠ v) : u ∈ (b.removeBlock v).ids := by
  obtain ⟨x, hx, rfl⟩ := mem_ids.mp h
  exact id_mem_ids (mem_removeBlock_of_ne hx hne)

/-- Where a number stands for one block, no block of that number is left. -/
theorem ne_of_mem_removeBlock (hb : b.ids.Nodup) (h : x ∈ (b.removeBlock v).blocks) : x.id ≠ v := by
  rw [blocks_removeBlock hb] at h
  simpa using (List.mem_filter.mp h).2

theorem nodup_ids_removeBlock (hb : b.ids.Nodup) : (b.removeBlock v).ids.Nodup :=
  hb.sublist (List.eraseP_sublist.map _)

end Remove

/-- A number that is used once stands for its block. -/
theorem block?_eq_some (hb : b.ids.Nodup) : b.block? v = some x ↔ x ∈ b.blocks ∧ x.id = v := by
  constructor
  · intro h
    have hid := List.find?_some h
    exact ⟨List.mem_of_find?_eq_some h, by simpa using hid⟩
  · rintro ⟨hx, rfl⟩
    cases hfind : b.block? x.id with
    | none =>
      have hnone := List.find?_eq_none.mp hfind x hx
      simp at hnone
    | some y =>
      have hid := List.find?_some hfind
      have hy := List.mem_of_find?_eq_some hfind
      rw [eq_of_id_eq hb hy hx (by simpa using hid)]

theorem block?_isSome : (b.block? v).isSome ↔ v ∈ b.ids := by
  unfold block? ids
  rw [List.find?_isSome, List.mem_map]
  simp

theorem block?_of_mem (hb : b.ids.Nodup) (hx : x ∈ b.blocks) : b.block? x.id = some x :=
  (block?_eq_some hb).mpr ⟨hx, rfl⟩

theorem leads_iff_targets (hb : b.ids.Nodup) (hx : x ∈ b.blocks) :
    b.Leads x.id v ↔ v ∈ x.targets := by
  constructor
  · rintro ⟨y, hy, hid, hv⟩
    rwa [eq_of_id_eq hb hy hx hid] at hv
  · exact fun hv => ⟨x, hx, rfl, hv⟩

theorem entry_mem_ids (h : b.blocks ≠ []) : b.entry ∈ b.ids := by
  unfold entry entryId? ids
  cases hb : b.blocks with
  | nil => exact absurd hb h
  | cons x xs => simp

theorem entry_of_head (h : b.blocks.head? = some x) : b.entry = x.id := by
  simp [entry, entryId?, h]

theorem reaches_entry (b : Body) : b.Reaches b.entry := Reach.start

theorem Reaches.next (h : b.Reaches u) (he : b.Leads u v) : b.Reaches v := Reach.next h he

theorem Dominates.refl (b : Body) (v : BlockId) : b.Dominates v v := Dom.refl _ _ _

/-- A dominating block comes before the edge into the block that it dominates strictly. -/
theorem Dominates.of_edge (h : b.Dominates d v) (he : b.Leads u v) (hne : d ≠ v) :
    b.Dominates d u := Dom.of_edge h he hne.symm

end Body

namespace FlowGraph

variable {b : Body} {u v : BlockId}

theorem order_ofBody (b : Body) : (ofBody b).order = b.ids := rfl

theorem leads_ofBody : (ofBody b).Leads u v ↔ b.Leads u v := by
  rw [Leads, succs, (records_ofBody b).edge, List.mem_flatMap]
  refine exists_congr fun x => and_congr_right fun _ => ?_
  rw [Block.mem_targets, List.mem_map]
  constructor
  · rintro ⟨w, hw, heq⟩
    obtain ⟨rfl, rfl⟩ := Prod.mk.inj heq
    exact ⟨rfl, hw⟩
  · rintro ⟨rfl, hv⟩
    exact ⟨v, hv, rfl⟩

theorem leads_ofBody_eq (b : Body) : (ofBody b).Leads = b.Leads := by
  funext u v
  exact propext leads_ofBody

theorem nodup_preds (b : Body) (v : BlockId) : ((ofBody b).preds v).Nodup := (records_ofBody b).incoming v

theorem mem_preds : u ∈ (ofBody b).preds v ↔ b.Leads u v :=
  ((records_ofBody b).back u v).trans leads_ofBody

/-- The reachable blocks of the flow graph are those that control can get to. -/
theorem mem_reachable_ofBody : v ∈ (ofBody b).reachable ↔ b.Reaches v := by
  rw [mem_reachable, leads_ofBody_eq]
  rfl

/-- The table of dominators has a row for every block that control can get to, and the row lists the
blocks of the body that dominate it. -/
theorem lookup_dominators_ofBody :
    ((ofBody b).dominators.lookup v).isSome ↔ v ∈ b.ids ∧ b.Reaches v := by
  rw [lookup_dominators (records_ofBody b), order_ofBody, leads_ofBody_eq]
  rfl

theorem mem_dominators_ofBody {above : List BlockId}
    (h : (ofBody b).dominators.lookup v = some above) (u : BlockId) :
    u ∈ above ↔ u ∈ b.ids ∧ b.Dominates u v := by
  rw [mem_dominators (records_ofBody b) h, order_ofBody, leads_ofBody_eq]
  rfl

end FlowGraph

namespace Body

variable {b : Body} {u v : BlockId} {path : List BlockId} {S : BlockId → Prop}

/-- Control can run through the blocks of these numbers, from the entry to `v`. -/
structure Route (b : Body) (path : List BlockId) (v : BlockId) : Prop where
  start : path.head? = some b.entry
  stop : path.getLast? = some v
  edges : path.IsChain b.Leads

/-- A route that keeps out of a set is a path around it. -/
theorem Route.around (h : b.Route path v) (hfree : ∀ u ∈ path, ¬ S u) : Path b.Leads S b.entry v := by
  induction path using List.reverseRecOn generalizing v with
  | nil => cases h.start
  | append_singleton front w ih =>
    obtain rfl : w = v := by simpa using h.stop
    rcases front.eq_nil_or_concat' with rfl | ⟨back, p, rfl⟩
    · have hentry : w = b.entry := by simpa using h.start
      rw [← hentry]
      exact .here (hfree w (by simp))
    · have hchain := List.isChain_append.mp h.edges
      have hfront : b.Route (back ++ [p]) p := by
        refine ⟨?_, by simp, hchain.1⟩
        rw [← h.start]
        cases back <;> rfl
      refine .step (ih hfront fun u hu => hfree u (List.mem_append_left _ hu)) ?_ (hfree w (by simp))
      exact hchain.2.2 p (by simp) w (by simp)

/-- Every path around a set is taken by a route. -/
theorem exists_route (h : Path b.Leads S b.entry v) :
    ∃ path, b.Route path v ∧ ∀ u ∈ path, ¬ S u := by
  induction h with
  | here hfree => exact ⟨[b.entry], ⟨rfl, rfl, .singleton _⟩, by simpa using hfree⟩
  | @step u w _ he hw ih =>
    obtain ⟨path, hroute, hfree⟩ := ih
    refine ⟨path ++ [w], ⟨?_, by simp, ?_⟩, fun x hx => ?_⟩
    · rw [List.head?_append, hroute.start]
      rfl
    · refine List.isChain_append.mpr ⟨hroute.edges, .singleton w, fun x hx y hy => ?_⟩
      obtain rfl : u = x := by simpa [hroute.stop] using hx
      obtain rfl : w = y := by simpa using hy
      exact he
    · rcases List.mem_append.mp hx with hx | hx
      · exact hfree x hx
      · obtain rfl := List.mem_singleton.mp hx
        exact hw

theorem dominates_iff_route : b.Dominates u v ↔ ∀ path, b.Route path v → u ∈ path := by
  constructor
  · intro hdom path hroute
    by_contra hu
    exact hdom (hroute.around fun w hw heq => hu (heq ▸ hw))
  · intro hall hpath
    obtain ⟨path, hroute, hfree⟩ := exists_route hpath
    exact hfree u (hall path hroute) rfl

theorem reaches_iff_route : b.Reaches v ↔ ∃ path, b.Route path v := by
  constructor
  · intro h
    obtain ⟨path, hroute, _⟩ := exists_route h
    exact ⟨path, hroute⟩
  · rintro ⟨path, hroute⟩
    exact hroute.around fun _ _ => id

/-- A dominator of a block of the body that control can get to is a block of the body. -/
theorem Dominates.mem_ids (h : b.Dominates u v) (hv : v ∈ b.ids) (hreach : b.Reaches v) : u ∈ b.ids := by
  rcases Dom.leaves h hreach with rfl | ⟨w, x, hx, rfl, _⟩
  · exact hv
  · exact id_mem_ids hx

end Body

/-- The iteration that finds dominators comes to a round without change, and the table it ends with is
exact. It has a row for every block of the body that a route leads to, and the row lists the blocks that
lie on all of these routes. -/
theorem FlowGraph.dominators_exact (b : Body) (v : BlockId) :
    Settles ((ofBody b).refineAll (ofBody b).live) ((ofBody b).candidates (ofBody b).live)
      (ofBody b).dominators ∧
    (((ofBody b).dominators.lookup v).isSome ↔ v ∈ b.ids ∧ ∃ path, b.Route path v) ∧
      ∀ row, (ofBody b).dominators.lookup v = some row →
        ∀ u, u ∈ row ↔ ∀ path, b.Route path v → u ∈ path := by
  refine ⟨dominators_settle (records_ofBody b),
    by rw [lookup_dominators_ofBody, Body.reaches_iff_route], fun row hrow u => ?_⟩
  obtain ⟨hv, hreach⟩ := lookup_dominators_ofBody.mp (Option.isSome_of_eq_some hrow)
  rw [mem_dominators_ofBody hrow, ← Body.dominates_iff_route]
  exact and_iff_right_of_imp fun hdom => hdom.mem_ids hv hreach

/-- Two blocks that lead to each other and are both entered from outside, a way back to the entry, an
edge to a block that is missing, and a block that nothing leads to. -/
def tangle : Body :=
  ⟨[⟨0, "entry", [], some (.condBr (.param 0) 1 2)⟩, ⟨1, "left", [], some (.condBr (.param 0) 2 3)⟩,
    ⟨2, "right", [], some (.condBr (.param 0) 1 9)⟩, ⟨3, "back", [], some (.br 0)⟩,
    ⟨4, "apart", [], some (.br 3)⟩], [], 5⟩

theorem tangle_dominators_exact : (FlowGraph.ofBody tangle).dominators.lookup 3 = some [0, 1, 3] ∧
    (∀ path, tangle.Route path 3 → 1 ∈ path) ∧ (∃ path, tangle.Route path 3 ∧ 2 ∉ path) ∧
    ¬ ∃ path, tangle.Route path 4 := by
  have hrow : (FlowGraph.ofBody tangle).dominators.lookup 3 = some [0, 1, 3] := by decide
  have hexact := (FlowGraph.dominators_exact tangle 3).2.2 _ hrow
  refine ⟨hrow, (hexact 1).mp (by decide), ?_, fun h => ?_⟩
  · have hnot := mt (hexact 2).mpr (by decide)
    push Not at hnot
    exact hnot
  · have hsome := (FlowGraph.dominators_exact tangle 4).2.1.mpr ⟨by decide, h⟩
    revert hsome
    decide

namespace FlowGraph

/-- The edges of the flow graph are those of the terminators, in both directions and without repetition.
Predecessors stand in layout order. The search for what can be reached gets to the end of its stack, and
it has found what a chain of edges leads to. -/
theorem edges_exact (b : Body) (u v : BlockId) :
    (v ∈ (ofBody b).succs u ↔
      ∃ x ∈ b.blocks, x.id = u ∧ ∃ t, x.term = some t ∧ v ∈ t.successors) ∧
    (u ∈ (ofBody b).preds v ↔ v ∈ (ofBody b).succs u) ∧
    ((ofBody b).succs u).Nodup ∧ ((ofBody b).preds v).Nodup ∧ ((ofBody b).preds v).Sublist b.ids ∧
    (∃ w : Worklist, w.waiting = [] ∧ w.reached = (ofBody b).reachable ∧
      Settles (roundOf (ofBody b).advance?) ⟨[], [b.entry]⟩ w) ∧
    (v ∈ (ofBody b).reachable ↔
      Relation.ReflTransGen (fun x y => y ∈ (ofBody b).succs x) b.entry v) := by
  have h := records_ofBody b
  refine ⟨?_, h.back u v, h.outgoing u, h.incoming v, h.ordered v, search_settles _,
    mem_reachable.trans reach_iff_reflTransGen⟩
  · refine leads_ofBody.trans (exists_congr fun x => and_congr_right fun _ => and_congr_right fun _ => ?_)
    exact ⟨Block.exists_term, fun ⟨t, ht, hv⟩ => (Block.mem_targets_of_term ht).mpr hv⟩

/-- Two arms that go to one block are one edge, and so is an edge to a block that is missing. -/
example : (ofBody ⟨[⟨0, "entry", [], some (.condBr (.param 0) 7 7)⟩], [], 1⟩).preds 7 = [0] := by decide

/-- The search for the reverse postorder ends. The order starts with the entry and lists what can be
reached, each block once and behind the blocks that lie on all routes to it. An edge that leads back
in the order closes a circle. -/
theorem reversePostorder_exact (b : Body) :
    (∀ t, (ofBody b).Visits [b.entry] ⟨[], []⟩ t ↔
      t = ⟨(ofBody b).search.entered, (ofBody b).reversePostorder⟩) ∧
    (ofBody b).reversePostorder.head? = some b.entry ∧ (ofBody b).reversePostorder.Nodup ∧
    (∀ v, v ∈ (ofBody b).reversePostorder ↔ v ∈ (ofBody b).reachable) ∧
    (∀ v ∈ (ofBody b).reachable, ∀ u, u ≠ v → (∀ path, b.Route path v → u ∈ path) →
      [u, v].Sublist (ofBody b).reversePostorder) ∧
    ∀ u v, v ∈ (ofBody b).succs u → v = u ∨ [v, u].Sublist (ofBody b).reversePostorder →
      Relation.ReflTransGen (fun x y => y ∈ (ofBody b).succs x) v u := by
  have hmem : ∀ v, v ∈ (ofBody b).reversePostorder ↔ v ∈ (ofBody b).reachable := fun v =>
    mem_reversePostorder.trans mem_reachable.symm
  refine ⟨fun t => ⟨fun h => h.unique (ofBody b).search_visits, fun h => h ▸ (ofBody b).search_visits⟩,
    ?_, (ofBody b).nodup_reversePostorder, hmem, fun v hv u hne hall => ?_, fun u v hedge hback => ?_⟩
  · simp [reversePostorder, search, bound, visit, Body.entry, ofBody]
  · have hdom := Body.dominates_iff_route.mpr hall
    rw [Body.Dominates, ← leads_ofBody_eq] at hdom
    exact before_of_dom hdom (mem_reachable.mp hv) hne
  · rcases hback with rfl | hsub
    · exact .refl
    · refine reach_iff_reflTransGen.mp ?_
      exact List.pairwise_iff_forall_sublist.mp (ofBody b).reversePostorder_back hsub hedge

end FlowGraph

end SsaCompiler.Ir
