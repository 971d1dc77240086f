import SsaCompiler.Proofs.Flow.Search
import Mathlib.Data.List.Forall2

/-!
The iteration that finds dominators. A set that is computed anew only shrinks, so the iteration comes
to an end. At every time the set of a block has all its dominators, and when no set changes any more
it has nothing else.
-/
namespace SsaCompiler.Ir.FlowGraph

variable {g : FlowGraph} {L : List (BlockId × BlockId)} {blocks vs : List BlockId} {doms doms' : Table}
  {row : List BlockId} {u v : BlockId}

/-- The table has got smaller: some of the sets have lost members. -/
def Shrinks (doms' doms : Table) : Prop :=
  List.Forall₂ (fun r' r => r'.1 = r.1 ∧ r'.2.Sublist r.2) doms' doms

/-- The number of members of all sets. -/
def size (doms : Table) : Nat := (doms.flatMap (·.2)).length

theorem size_cons (r : BlockId × List BlockId) : size (r :: doms) = r.2.length + size doms := by
  simp [size]

namespace Shrinks

theorem refl (doms : Table) : Shrinks doms doms :=
  List.forall₂_same.mpr fun _ _ => ⟨rfl, .refl _⟩

theorem trans {doms'' : Table} (h' : Shrinks doms'' doms')
    (h : Shrinks doms' doms) : Shrinks doms'' doms := by
  induction h generalizing doms'' with
  | nil => exact h'
  | cons hr _ ih =>
    cases h' with
    | cons hr' hrest => exact .cons ⟨hr'.1.trans hr.1, hr'.2.trans hr.2⟩ (ih hrest)

theorem keys (h : Shrinks doms' doms) : doms'.map (·.1) = doms.map (·.1) := by
  induction h with
  | nil => rfl
  | cons hr _ ih => rw [List.map_cons, List.map_cons, hr.1, ih]

theorem size_le (h : Shrinks doms' doms) : size doms' ≤ size doms := by
  induction h with
  | nil => exact le_rfl
  | cons hr _ ih =>
    rw [size_cons, size_cons]
    exact Nat.add_le_add hr.2.length_le ih

/-- A table that has lost no member is the same. -/
theorem eq_of_size (h : Shrinks doms' doms) (hsize : size doms ≤ size doms') : doms' = doms := by
  induction h with
  | nil => rfl
  | @cons r' r rest' rest hr hrest ih =>
    have hlen := hr.2.length_le
    have hle := size_le hrest
    rw [size_cons, size_cons] at hsize
    rw [ih (by omega), Prod.ext hr.1 (hr.2.eq_of_length (by omega))]

theorem antisymm (h : Shrinks doms' doms) (h' : Shrinks doms doms') : doms' = doms :=
  h.eq_of_size h'.size_le

theorem lookup (h : Shrinks doms' doms) (v : BlockId) :
    Option.Rel (fun row' row => row'.Sublist row) (doms'.lookup v) (doms.lookup v) := by
  induction h with
  | nil => exact .none
  | @cons r' r rest' rest hr _ ih =>
    rw [List.lookup_cons, List.lookup_cons, hr.1]
    split
    · exact .some hr.2
    · exact ih

end Shrinks

section Sets

/-- Only blocks of the graph have edges. -/
theorem mem_order_of_leads (hg : g.Records g.order L) (h : g.Leads u v) : u ∈ g.order :=
  (hg.ordered v).subset ((hg.back u v).mpr h)

/-- `u` is in the sets of all predecessors of `v` that have one, and there are such predecessors. -/
structure Common (g : FlowGraph) (doms : Table) (v u : BlockId) : Prop where
  occurs : ∃ p row, g.Leads p v ∧ doms.lookup p = some row
  all : ∀ p row, g.Leads p v → doms.lookup p = some row → u ∈ row

theorem common_iff (hg : g.Records g.order L) : (let rows := (g.preds v).filterMap (doms.lookup ·)
    rows ≠ [] ∧ ∀ row ∈ rows, u ∈ row) ↔ g.Common doms v u := by
  have hrows : ∀ row, row ∈ (g.preds v).filterMap (doms.lookup ·) ↔
      ∃ p, g.Leads p v ∧ doms.lookup p = some row := by
    simp [List.mem_filterMap, preds, hg.back, Leads, succs]
  constructor
  · rintro ⟨hne, hall⟩
    obtain ⟨row, hrow⟩ := List.exists_mem_of_ne_nil _ hne
    obtain ⟨p, hp⟩ := (hrows row).mp hrow
    exact ⟨⟨p, row, hp⟩, fun p row hp hrow => hall row ((hrows row).mpr ⟨p, hp, hrow⟩)⟩
  · rintro ⟨⟨p, row, hp⟩, hall⟩
    refine ⟨List.ne_nil_of_mem ((hrows row).mpr ⟨p, hp⟩), fun row hrow => ?_⟩
    obtain ⟨p, hp, hrow⟩ := (hrows row).mp hrow
    exact hall p row hp hrow

theorem mem_above (hg : g.Records g.order L) :
    u ∈ g.above blocks doms v ↔ u ∈ blocks ∧ (u = v ∨ g.Common doms v u) := by
  rw [above, List.mem_filter, decide_eq_true_eq, ← common_iff hg]

/-- What is common to smaller sets is common to larger ones. -/
theorem Common.of_shrinks (hu : g.Common doms' v u) (h : Shrinks doms' doms) : g.Common doms v u := by
  constructor
  · obtain ⟨p, row', hp, hrow'⟩ := hu.occurs
    have hrel := h.lookup p
    rw [hrow'] at hrel
    generalize hrow : doms.lookup p = found at hrel
    cases hrel with
    | some _ => exact ⟨p, _, hp, hrow⟩
  · intro p row hp hrow
    have hrel := h.lookup p
    rw [hrow] at hrel
    generalize hrow' : doms'.lookup p = found at hrel
    cases hrel with
    | some hsub => exact hsub.subset (hu.all p _ hp hrow')

/-- From smaller sets a smaller one is computed. -/
theorem above_mono (hg : g.Records g.order L) (h : Shrinks doms' doms) (v : BlockId) :
    (g.above blocks doms' v).Sublist (g.above blocks doms v) := by
  refine List.monotone_filter_right _ fun u hu => ?_
  rw [decide_eq_true_eq, common_iff hg] at hu ⊢
  exact hu.imp_right fun hu => hu.of_shrinks h

end Sets

/-- The tables that the iteration goes through. Each set has all dominators of its block, and computing
it anew could only make it smaller. -/
structure Settling (g : FlowGraph) (blocks : List BlockId) (doms : Table) :
    Prop where
  records : ∃ L, g.Records g.order L
  keys : doms.map (·.1) = blocks
  reached : ∀ v, v ∈ blocks ↔ v ∈ g.order ∧ Reach g.Leads g.entry v
  entry : ∀ row, (g.entry, row) ∈ doms → row = [g.entry]
  shrinking : ∀ r ∈ doms, r.1 ≠ g.entry → (g.above blocks doms r.1).Sublist r.2
  complete : ∀ r ∈ doms, ∀ u ∈ blocks, Dom g.Leads g.entry u r.1 → u ∈ r.2

namespace Settling

theorem shrinks (h : g.Settling blocks doms) (v : BlockId) : Shrinks (g.refine blocks doms v) doms := by
  unfold refine
  split
  · exact .refl doms
  · rename_i hne
    refine List.forall₂_map_left_iff.mpr (List.forall₂_same.mpr fun r hr => ?_)
    split
    · rename_i heq
      exact ⟨heq.symm, heq ▸ h.shrinking r hr (heq ▸ hne)⟩
    · exact ⟨rfl, .refl _⟩

/-- A row of the next table is a row of this one, or it was computed anew. -/
theorem mem_refine {r : BlockId × List BlockId} (h : r ∈ g.refine blocks doms v) :
    r ∈ doms ∨ v ≠ g.entry ∧ v ∈ doms.map (·.1) ∧ r = (v, g.above blocks doms v) := by
  unfold refine at h
  split at h
  · exact .inl h
  · rename_i hne
    obtain ⟨r0, hr0, rfl⟩ := List.mem_map.mp h
    split
    · rename_i heq
      exact .inr ⟨hne, heq ▸ List.mem_map_of_mem hr0, rfl⟩
    · exact .inl hr0

/-- A block other than the entry has its dominators above it, if its predecessors have theirs. -/
theorem mem_above_of_dom (h : g.Settling blocks doms) (hne : v ≠ g.entry) (hv : v ∈ blocks)
    (hu : u ∈ blocks) (hdom : Dom g.Leads g.entry u v) : u ∈ g.above blocks doms v := by
  obtain ⟨L, hg⟩ := h.records
  refine (mem_above hg).mpr ⟨hu, ?_⟩
  by_cases huv : u = v
  · exact .inl huv
  · refine .inr ⟨?_, fun p row hp hrow => ?_⟩
    · obtain ⟨p, hp, hpath⟩ := Reach.entered ((h.reached v).mp hv).2 hne.symm
      have hmem : p ∈ blocks := (h.reached p).mpr ⟨mem_order_of_leads hg hp, hpath.reach⟩
      obtain ⟨row, hrow⟩ := Option.isSome_iff_exists.mp (Table.lookup_isSome.mpr (h.keys ▸ hmem))
      exact ⟨p, row, hp, hrow⟩
    · exact h.complete (p, row) (Table.mem_of_lookup hrow) u hu (hdom.of_edge hp (Ne.symm huv))

theorem refine (h : g.Settling blocks doms) (v : BlockId) :
    g.Settling blocks (g.refine blocks doms v) := by
  have hs := h.shrinks v
  obtain ⟨L, hg⟩ := h.records
  refine ⟨h.records, hs.keys.trans h.keys, h.reached, fun row hrow => ?_, fun r hr hne => ?_,
    fun r hr u hu hdom => ?_⟩
  · rcases mem_refine hrow with hold | ⟨hne, _, heq⟩
    · exact h.entry row hold
    · exact absurd (congrArg Prod.fst heq).symm hne
  · have hmono : (g.above blocks (g.refine blocks doms v) r.1).Sublist (g.above blocks doms r.1) :=
      above_mono hg hs r.1
    rcases mem_refine hr with hold | ⟨_, _, rfl⟩
    · exact hmono.trans (h.shrinking r hold hne)
    · exact hmono
  · rcases mem_refine hr with hold | ⟨hne, hv, rfl⟩
    · exact h.complete r hold u hu hdom
    · exact h.mem_above_of_dom hne (h.keys ▸ hv) hu hdom

/-- What a round does. -/
theorem round (h : g.Settling blocks doms) (vs : List BlockId) :
    g.Settling blocks (vs.foldl (g.refine blocks) doms) ∧
      Shrinks (vs.foldl (g.refine blocks) doms) doms := by
  induction vs generalizing doms with
  | nil => exact ⟨h, .refl doms⟩
  | cons v vs ih =>
    obtain ⟨hsettling, hshrinks⟩ := ih (h.refine v)
    exact ⟨hsettling, hshrinks.trans (h.shrinks v)⟩

/-- A round that changes nothing as a whole changes nothing at any block. -/
theorem refine_eq (h : g.Settling blocks doms)
    (hstable : vs.foldl (g.refine blocks) doms = doms) (hv : v ∈ vs) :
    g.refine blocks doms v = doms := by
  induction vs with
  | nil => cases hv
  | cons w vs ih =>
    rw [List.foldl_cons] at hstable
    have hback := ((h.refine w).round vs).2
    rw [hstable] at hback
    have heq := (h.shrinks w).antisymm hback
    rw [heq] at hstable
    rcases List.mem_cons.mp hv with rfl | hv
    · exact heq
    · exact ih hstable hv

/-- The iteration comes to a round that changes nothing: every other one takes a member from a set. -/
theorem settles (h : g.Settling blocks doms) {n : Nat} (hn : size doms < n) :
    Settles (g.refineAll blocks) doms (untilStable (g.refineAll blocks) n doms) := by
  refine untilStable_settles size (fun _ ha => (ha.round blocks).1) (fun doms ha hchanged => ?_) h hn
  have hshrinks := (ha.round blocks).2
  have hne : blocks.foldl (g.refine blocks) doms ≠ doms := by simpa [refineAll] using hchanged
  refine hshrinks.size_le.lt_of_ne fun hsize => hne (hshrinks.eq_of_size hsize.ge)

/-- Where it ends, computing a set anew changes nothing. -/
theorem stable (h : g.Settling blocks doms) (hsettles : Settles (g.refineAll blocks) doms doms') :
    g.Settling blocks doms' ∧ ∀ v ∈ blocks, g.refine blocks doms' v = doms' := by
  obtain ⟨last, hlast, hround⟩ := hsettles.exists_last (fun _ ha => (ha.round blocks).1) h
  obtain ⟨hnext, hsame⟩ := Prod.mk.inj hround
  have heq : blocks.foldl (g.refine blocks) last = last := by simpa using hsame
  obtain rfl : last = doms' := heq.symm.trans hnext
  exact ⟨hlast, fun v hv => hlast.refine_eq heq hv⟩

/-- When computing sets anew changes nothing, they hold dominators only. The induction is on a path
around a block, which no block on it can have above it. -/
theorem dom_of_mem (h : g.Settling blocks doms)
    (hstable : ∀ v ∈ blocks, g.refine blocks doms v = doms) (hrow : (v, row) ∈ doms) (hu : u ∈ row) :
    Dom g.Leads g.entry u v := by
  intro hpath
  have hentry : ∀ {row}, (g.entry, row) ∈ doms → u ∈ row → u = g.entry := by
    intro row hrow hu
    rw [h.entry row hrow, List.mem_singleton] at hu
    exact hu
  have hanew : ∀ {v row}, (v, row) ∈ doms → v ≠ g.entry → row = g.above blocks doms v := by
    intro v row hrow hne
    have hv : v ∈ blocks := h.keys ▸ List.mem_map_of_mem hrow
    have heq := hstable v hv
    rw [FlowGraph.refine, if_neg hne] at heq
    have hsame := List.map_inj_left.mp (heq.trans (List.map_id doms).symm) _ hrow
    simp only [if_true, id_eq, Prod.mk.injEq, true_and] at hsame
    exact hsame.symm
  induction hpath generalizing row with
  | here hfree => exact hfree (hentry hrow hu).symm
  | @step p w hpath he hw ih =>
    by_cases hentryw : w = g.entry
    · subst hentryw
      exact hw (hentry hrow hu).symm
    · rw [hanew hrow hentryw] at hu
      obtain ⟨L, hg⟩ := h.records
      have hp : p ∈ blocks := (h.reached p).mpr ⟨mem_order_of_leads hg he, hpath.reach⟩
      obtain ⟨row', hrow'⟩ := Option.isSome_iff_exists.mp (Table.lookup_isSome.mpr (h.keys ▸ hp))
      rcases ((mem_above hg).mp hu).2 with rfl | hcommon
      · exact hw rfl
      · exact ih (Table.mem_of_lookup hrow') (hcommon.all p row' he hrow')

end Settling

/-- Where the iteration starts. -/
theorem settling_candidates (hg : g.Records g.order L) : g.Settling g.live (g.candidates g.live) := by
  refine ⟨⟨L, hg⟩, by simp [candidates, Function.comp_def], by simp [live, mem_reachable],
    fun row hrow => ?_, fun r hr hne => ?_, fun r hr u hu hdom => ?_⟩
  · obtain ⟨v, _, heq⟩ := List.mem_map.mp hrow
    obtain ⟨rfl, rfl⟩ := Prod.mk.inj heq
    exact if_pos rfl
  · obtain ⟨v, _, rfl⟩ := List.mem_map.mp hr
    rw [if_neg hne]
    exact List.filter_sublist
  · obtain ⟨v, _, rfl⟩ := List.mem_map.mp hr
    dsimp only at hdom ⊢
    split
    · rename_i heq
      rw [List.mem_singleton]
      by_contra hne
      subst heq
      exact hdom (.here (Ne.symm hne))
    · exact hu

theorem size_map_le {f : BlockId → List BlockId} {n : Nat} (h : ∀ v ∈ vs, (f v).length ≤ n) :
    size (vs.map fun v => (v, f v)) ≤ vs.length * n := by
  induction vs with
  | nil => simp [size]
  | cons v vs ih =>
    obtain ⟨hv, hvs⟩ := List.forall_mem_cons.mp h
    rw [List.map_cons, size_cons, List.length_cons, Nat.succ_mul, Nat.add_comm]
    exact Nat.add_le_add (ih hvs) hv

/-- The iteration ends with the table of dominators. -/
theorem dominators_settle (hg : g.Records g.order L) :
    Settles (g.refineAll g.live) (g.candidates g.live) g.dominators := by
  refine (settling_candidates hg).settles (Nat.lt_succ_of_le (size_map_le fun v hv => ?_))
  split
  · exact List.length_pos_of_mem hv
  · exact le_rfl

/-- The table of dominators has a row for every block that belongs to the graph and can be reached. -/
theorem lookup_dominators (hg : g.Records g.order L) : (g.dominators.lookup v).isSome ↔
    v ∈ g.order ∧ Reach g.Leads g.entry v := by
  have h := ((settling_candidates hg).stable (dominators_settle hg)).1
  rw [Table.lookup_isSome, h.keys, h.reached]

/-- The row of a block lists the blocks of the graph that no path to it leads around. -/
theorem mem_dominators (hg : g.Records g.order L) (hrow : g.dominators.lookup v = some row) :
    u ∈ row ↔ u ∈ g.order ∧ Dom g.Leads g.entry u v := by
  obtain ⟨h, hstable⟩ := (settling_candidates hg).stable (dominators_settle hg)
  have hmem := Table.mem_of_lookup hrow
  obtain ⟨hv, hreach⟩ := (h.reached v).mp (h.keys ▸ List.mem_map_of_mem hmem)
  constructor
  · intro hu
    have hdom := h.dom_of_mem hstable hmem hu
    refine ⟨?_, hdom⟩
    rcases hdom.leaves hreach with rfl | ⟨w, hw⟩
    · exact hv
    · exact mem_order_of_leads hg hw
  · rintro ⟨hu, hdom⟩
    exact h.complete (v, row) hmem u ((h.reached u).mpr ⟨hu, hdom.reach hreach⟩) hdom

end SsaCompiler.Ir.FlowGraph
