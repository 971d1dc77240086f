import SsaCompiler.Ir.FlowGraph
import SsaCompiler.Stable

/-!
Simplifying the flow of control: branches on constants, blocks that cannot be reached, phis with
one edge, and blocks that only follow one other block. Each step reports whether it found
something to do.
-/
namespace SsaCompiler.Optimize

open Ir

/-- Drops the edges from `source` of the phis in a block. -/
def dropIncoming (b : Body) (block source : BlockId) : Body :=
  b.updateBlock block (Block.mapIncoming fun es => es.filter (·.2 ≠ source))

/-- Renames the edges from `source` of the phis in a block. -/
def renameIncoming (b : Body) (block source dest : BlockId) : Body :=
  b.updateBlock block (Block.mapIncoming fun es =>
    es.map fun e => if e.2 = source then (e.1, dest) else e)

/-- The target of a branch on a constant, and the target that is given up. -/
def constantBranch? : Terminator → Option (BlockId × BlockId)
  | .condBr (.const (.bool taken)) t e => some (if taken then (t, e) else (e, t))
  | _ => none

def foldTerminator (t : Terminator) : Terminator :=
  match constantBranch? t with
  | some (target, _) => .br target
  | none => t

/-- The edge that a block gives up when its branch on a constant is decided. -/
def droppedEdge? (x : Block) : Option (BlockId × BlockId) :=
  match x.term.bind constantBranch? with
  | some (target, dropped) => if target ≠ dropped then some (x.id, dropped) else none
  | none => none

/-- Decides branches on constants. Reports whether an edge was given up. -/
def foldBranches (b : Body) : Body × Bool :=
  let dropped := b.blocks.filterMap droppedEdge?
  let folded := { b with
    blocks := b.blocks.map fun x => { x with term := x.term.map foldTerminator } }
  (dropped.foldl (fun b e => dropIncoming b e.2 e.1) folded, !dropped.isEmpty)

/-- Removes the blocks that cannot be reached, and their edges. -/
def removeUnreachable (b : Body) : Body × Bool :=
  let g := FlowGraph.ofBody b
  let reached := g.reachable
  let dead := g.order.filter (· ∉ reached)
  let cut := dead.foldl (fun b id => (g.succs id).foldl (fun b s => dropIncoming b s id) b) b
  (dead.foldl Body.removeBlock cut, !dead.isEmpty)

/-- The result and the value of a phi with one edge. -/
def trivialPhi? (i : Instr) : Option (Reg × Value) :=
  match i.op with
  | .phi [(v, _)] => i.result.map (·, v)
  | _ => none

def replaceTrivialPhi? (b : Body) : Option Body :=
  (b.blocks.findSome? fun x => x.phis.findSome? trivialPhi?).map fun s => b.substitute s.1 s.2

/-- Replaces phis with one edge by their value. -/
def removeTrivialPhis (b : Body) : Body × Bool :=
  (untilStable (roundOf replaceTrivialPhi?) (b.instrCount + 1) b, (replaceTrivialPhi? b).isSome)

/-- The block that can be joined to the end of `x`: `x` only goes there, control only comes there
from `x`, and no phi stands at its top. -/
def follower? (b : Body) (g : FlowGraph) (x : Block) : Option Block :=
  match x.term with
  | some (.br s) =>
    if s ≠ x.id ∧ b.entryId? ≠ some s ∧ g.preds s = [x.id] then
      (b.block? s).filter (·.phis.isEmpty)
    else none
  | _ => none

/-- Joins `y` to the end of the block `id`. -/
def joinBlocks (b : Body) (id : BlockId) (y : Block) : Body :=
  let renamed := y.successors.foldl (fun b s => renameIncoming b s y.id id) (b.removeBlock y.id)
  renamed.updateBlock id fun x => { x with instrs := x.instrs ++ y.instrs, term := y.term }

/-- Joins one block to the block before it. -/
def mergeBlocks (b : Body) : Body × Bool :=
  let g := FlowGraph.ofBody b
  match b.blocks.findSome? fun x => (follower? b g x).map (x.id, ·) with
  | some (id, y) => (joinBlocks b id y, true)
  | none => (b, false)

/-- All four steps once. -/
def simplifyOnce (b : Body) : Body × Bool :=
  let (b, folded) := foldBranches b
  let (b, removed) := removeUnreachable b
  let (b, replaced) := removeTrivialPhis b
  let (b, merged) := mergeBlocks b
  (b, folded || removed || replaced || merged)

/-- Blocks, instructions and conditional branches. Every step that reports a change lowers their
number. -/
def size (b : Body) : Nat :=
  b.blocks.length + b.instrCount +
    (b.blocks.filter fun x => match x.term with | some (.condBr ..) => true | _ => false).length

/-- Simplifies until no step finds anything to do. -/
def simplifyFlow (b : Body) : Body := untilStable simplifyOnce (size b + 1) b

end SsaCompiler.Optimize
