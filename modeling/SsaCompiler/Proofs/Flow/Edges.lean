import SsaCompiler.Ir.FlowGraph
import Mathlib.Data.List.Nodup
import Mathlib.Data.List.Sublists

/-!
The edges of a flow graph. Blocks add their edges to two tables at once, and only one of them is looked
at to leave out what is there. The tables mirror each other all the same: an edge is missing in both or
in none, and so no list has repetitions and the blocks before a block stand in layout order.
-/
namespace SsaCompiler.Ir

namespace Table

variable {t : Table} {u v : BlockId} {l : List BlockId}

theorem row_cons (r : BlockId × List BlockId) (t : Table) (v : BlockId) :
    Table.row (r :: t) v = if v = r.1 then r.2 else t.row v := by
  obtain ⟨w, l⟩ := r
  unfold row
  rw [List.lookup_cons]
  by_cases hv : v = w
  · simp [hv]
  · simp [hv, beq_eq_false_iff_ne.mpr hv]

theorem row_update (f : List BlockId → List BlockId) (u v : BlockId) (t : Table) :
    (t.update f u).row v = if v = u then f (t.row u) else t.row v := by
  induction t with
  | nil => exact row_cons (u, f []) [] v
  | cons r t ih =>
    unfold update
    by_cases hr : r.1 = u
    · rw [if_pos hr]
      simp only [row_cons, hr, if_true]
      split <;> rfl
    · rw [if_neg hr]
      simp only [row_cons, ih, Ne.symm hr, if_false]
      split
      · rename_i hv
        rw [if_neg (hv.trans_ne hr)]
      · rfl

theorem mem_of_lookup (h : t.lookup v = some l) : (v, l) ∈ t := by
  obtain ⟨before, after, heq, _⟩ := List.lookup_eq_some_iff.mp h
  simp [heq]

theorem lookup_isSome : (t.lookup v).isSome ↔ v ∈ t.map (·.1) := by
  induction t with
  | nil => simp
  | cons r t ih =>
    rw [List.lookup_cons, List.map_cons, List.mem_cons]
    by_cases hv : v = r.1
    · simp [hv]
    · simp [beq_eq_false_iff_ne.mpr hv, hv, ih]

end Table

namespace Edges

variable {e : Edges} {us : List BlockId} {L : List (BlockId × BlockId)} {u v : BlockId}

/-- The tables have the edges of `L`, each once and in both directions. The blocks before a block stand
in the order of `us`. -/
structure Records (e : Edges) (us : List BlockId) (L : List (BlockId × BlockId)) : Prop where
  edge : ∀ u v, v ∈ e.outgoing.row u ↔ (u, v) ∈ L
  back : ∀ u v, u ∈ e.incoming.row v ↔ v ∈ e.outgoing.row u
  outgoing : ∀ u, (e.outgoing.row u).Nodup
  incoming : ∀ v, (e.incoming.row v).Nodup
  ordered : ∀ v, (e.incoming.row v).Sublist us

/-- A member behind all others that does not occur can be left out. -/
theorem sublist_of_concat {l l' : List BlockId} (h : l.Sublist (l' ++ [u])) (hu : u ∉ l) : l.Sublist l' := by
  obtain ⟨front, back, rfl, hfront, hback⟩ := List.sublist_append_iff.mp h
  rcases List.sublist_singleton.mp hback with rfl | rfl
  · simpa using hfront
  · exact absurd (by simp) hu

/-- An edge that is not in the first table is not in the second one either. -/
theorem Records.add (h : e.Records (us ++ [u]) L) (v : BlockId) :
    (e.add u v).Records (us ++ [u]) (L ++ [(u, v)]) := by
  unfold Edges.add
  split
  · rename_i hold
    refine ⟨fun a c => ?_, h.back, h.outgoing, h.incoming, h.ordered⟩
    have hmem : (u, v) ∈ L := (h.edge u v).mp hold
    rw [h.edge, List.mem_append, List.mem_singleton, or_iff_left_of_imp fun heq => heq ▸ hmem]
  · rename_i hnew
    have hback : u ∉ e.incoming.row v := fun hu => hnew ((h.back u v).mp hu)
    refine ⟨fun a c => ?_, fun a c => ?_, fun a => ?_, fun c => ?_, fun c => ?_⟩
    · rw [Table.row_update, List.mem_append, ← h.edge]
      split <;> simp_all
    · rw [Table.row_update, Table.row_update]
      have hmirror := h.back a c
      split <;> split <;> simp_all
    · rw [Table.row_update]
      split
      · exact List.concat_eq_append ▸ (h.outgoing u).concat hnew
      · exact h.outgoing a
    · rw [Table.row_update]
      split
      · exact List.concat_eq_append ▸ (h.incoming v).concat hback
      · exact h.incoming c
    · rw [Table.row_update]
      split
      · exact (sublist_of_concat (h.ordered v) hback).append (.refl _)
      · exact h.ordered c

theorem Records.addAll (h : e.Records (us ++ [u]) L) (vs : List BlockId) :
    (vs.foldl (Edges.add u) e).Records (us ++ [u]) (L ++ vs.map (u, ·)) := by
  induction vs generalizing e L with
  | nil => simpa using h
  | cons v vs ih => simpa using ih (h.add v)

theorem Records.addBlock (h : e.Records us L) (x : Block) :
    (e.addBlock x).Records (us ++ [x.id]) (L ++ x.successors.map (x.id, ·)) := by
  have hrow : ∀ (t : Table) v, (t.update id x.id).row v = t.row v := by
    intro t v
    rw [Table.row_update]
    split
    · rename_i heq
      rw [heq, id]
    · rfl
  have hopen : Records ⟨e.outgoing.update id x.id, e.incoming.update id x.id⟩ (us ++ [x.id]) L := by
    refine ⟨?_, ?_, ?_, ?_, ?_⟩ <;> simp only [hrow]
    · exact h.edge
    · exact h.back
    · exact h.outgoing
    · exact h.incoming
    · exact fun v => (h.ordered v).trans (List.sublist_append_left _ _)
  exact hopen.addAll x.successors

/-- The loop over all blocks keeps the tables. -/
theorem Records.addBlocks (h : e.Records us L) (xs : List Block) :
    (xs.foldl Edges.addBlock e).Records (us ++ xs.map (·.id))
      (L ++ xs.flatMap fun x => x.successors.map (x.id, ·)) := by
  induction xs generalizing e us L with
  | nil => simpa using h
  | cons x xs ih => simpa using ih (h.addBlock x)

end Edges

theorem FlowGraph.records_ofBody (b : Body) : (ofBody b).Records (ofBody b).order
    (b.blocks.flatMap fun x => x.successors.map (x.id, ·)) := by
  have hempty : Edges.Records ⟨[], []⟩ [] [] := by
    constructor <;> simp [Table.row]
  exact hempty.addBlocks b.blocks

/-- The flow graph depends on the numbers and the successors of the blocks only. -/
theorem FlowGraph.ofBody_congr {b c : Body} (h : c.blocks.map (fun x => (x.id, x.successors)) =
    b.blocks.map fun x => (x.id, x.successors)) : ofBody c = ofBody b := by
  have hids : c.blocks.map (·.id) = b.blocks.map (·.id) := by
    simpa only [List.map_map, Function.comp_def] using congrArg (List.map Prod.fst) h
  have hedges : ∀ (xs : List Block) (e : Edges), xs.foldl .addBlock e =
      (xs.map fun x => (x.id, x.successors)).foldl (fun e p => p.2.foldl (Edges.add p.1)
        ⟨e.outgoing.update id p.1, e.incoming.update id p.1⟩) e :=
    fun xs e => by rw [List.foldl_map]; rfl
  simp only [ofBody, Body.entryId?, ← List.head?_map, hids, hedges, h]

end SsaCompiler.Ir
