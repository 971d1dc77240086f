import SsaCompiler.Ir.Body
import SsaCompiler.Stable

/-!
The flow graph of a body. Its edges are those of the terminators, kept in both directions; an edge may
lead to a block that the body does not have, and blocks of one number share their edges. A search with a
stack finds the blocks that can be reached from the entry, and a depth-first search their reverse
postorder. The dominators of the blocks are found by iteration: first every block may dominate all
others, and then the sets shrink until they agree with the edges.
-/
namespace SsaCompiler.Ir

/-- Lists of blocks, each belonging to a block. -/
abbrev Table := List (BlockId × List BlockId)

namespace Table

/-- The list of a block, empty if it has none. -/
def row (t : Table) (u : BlockId) : List BlockId := (t.lookup u).getD []

/-- Changes the list of a block. It is empty before if the block has none. -/
def update (f : List BlockId → List BlockId) (u : BlockId) : Table → Table
  | [] => [(u, f [])]
  | r :: t => if r.1 = u then (u, f r.2) :: t else r :: update f u t

end Table

/-- The edges between blocks, by the block they come from and by the block they lead to. -/
structure Edges where
  outgoing : Table
  incoming : Table
  deriving DecidableEq, Repr

namespace Edges

/-- Adds an edge from `u` to `v`, unless there is one. -/
def add (u : BlockId) (e : Edges) (v : BlockId) : Edges :=
  if v ∈ e.outgoing.row u then e
  else ⟨e.outgoing.update (· ++ [v]) u, e.incoming.update (· ++ [u]) v⟩

/-- Adds the edges of a block, which has its lists also if it has no edge. -/
def addBlock (e : Edges) (x : Block) : Edges :=
  x.successors.foldl (add x.id) ⟨e.outgoing.update id x.id, e.incoming.update id x.id⟩

end Edges

structure FlowGraph extends Edges where
  entry : BlockId
  /-- The blocks in layout order. -/
  order : List BlockId
  deriving DecidableEq, Repr

namespace FlowGraph

def ofBody (b : Body) : FlowGraph :=
  ⟨b.blocks.foldl .addBlock ⟨[], []⟩, b.entryId?.getD 0, b.blocks.map (·.id)⟩

def succs (g : FlowGraph) (u : BlockId) : List BlockId := g.outgoing.row u

/-- The predecessors of a block in layout order. -/
def preds (g : FlowGraph) (v : BlockId) : List BlockId := g.incoming.row v

/-- A bound on the number of blocks that can be reached, and on the number of ways to them. -/
def bound (g : FlowGraph) : Nat := (g.outgoing.flatMap (·.2)).length + 1

/-- The state of a search with a stack: the blocks reached, and the blocks that wait. -/
structure Worklist where
  reached : List BlockId
  waiting : List BlockId
  deriving DecidableEq, Repr

/-- Takes a block from the stack. If it is new, its successors have to wait, the last one on top. -/
def advance? (g : FlowGraph) (w : Worklist) : Option Worklist :=
  match w.waiting with
  | [] => none
  | u :: rest =>
    some (if u ∈ w.reached then ⟨w.reached, rest⟩
      else ⟨u :: w.reached, (g.succs u).reverse ++ rest⟩)

/-- The blocks that can be reached from the entry. -/
def reachable (g : FlowGraph) : List BlockId :=
  (untilStable (roundOf g.advance?) (g.bound + 1) ⟨[], [g.entry]⟩).reached

/-- The state of a depth-first search: the blocks entered, and the blocks left, the last one
first. -/
structure Search where
  entered : List BlockId
  left : List BlockId
  deriving DecidableEq, Repr

/-- Visits what can be reached from `u` and has not been entered. The search is never nested deeper
than there are blocks to enter, which bounds `n`. -/
def visit (g : FlowGraph) : Nat → Search → BlockId → Search
  | 0, s, _ => s
  | n + 1, s, u =>
    if u ∈ s.entered then s
    else
      let inner := (g.succs u).foldl (visit g n) { s with entered := u :: s.entered }
      { inner with left := u :: inner.left }

/-- Searches from the entry. -/
def search (g : FlowGraph) : Search := g.visit g.bound ⟨[], []⟩ g.entry

/-- The reachable blocks, every block before those that are entered from it and left earlier. -/
def reversePostorder (g : FlowGraph) : List BlockId := g.search.left

/-- What dominates `v` by the sets of its predecessors: `v` itself, and the common members of those
sets. Predecessors without a set do not count. -/
def above (g : FlowGraph) (blocks : List BlockId) (doms : Table) (v : BlockId) : List BlockId :=
  let rows := (g.preds v).filterMap (doms.lookup ·)
  blocks.filter fun u => u = v ∨ rows ≠ [] ∧ ∀ row ∈ rows, u ∈ row

/-- Computes the set of a block anew, unless it is the entry. -/
def refine (g : FlowGraph) (blocks : List BlockId) (doms : Table) (v : BlockId) : Table :=
  if v = g.entry then doms
  else
    let row := g.above blocks doms v
    doms.map fun r => if r.1 = v then (v, row) else r

/-- Computes all sets anew, in layout order. Reports whether one of them has changed. -/
def refineAll (g : FlowGraph) (blocks : List BlockId) (doms : Table) : Table × Bool :=
  let next := blocks.foldl (g.refine blocks) doms
  (next, next ≠ doms)

/-- The reachable blocks of the body, in layout order. -/
def live (g : FlowGraph) : List BlockId :=
  let reached := g.reachable
  g.order.filter (· ∈ reached)

/-- The sets that the iteration starts from: all blocks may dominate a block, the entry apart. -/
def candidates (g : FlowGraph) (blocks : List BlockId) : Table :=
  blocks.map fun v => (v, if v = g.entry then [v] else blocks)

/-- The dominators of every reachable block of the body, in layout order. Each round makes a set
smaller, which bounds the rounds. -/
def dominators (g : FlowGraph) : Table :=
  let blocks := g.live
  untilStable (g.refineAll blocks) (blocks.length * blocks.length + 1) (g.candidates blocks)

end FlowGraph

end SsaCompiler.Ir
