import SsaCompiler.Ir.FlowGraph
import SsaCompiler.Stable

/-!
Value numbering. A computation is replaced by an equal earlier one whose block dominates it. Loads
and phis take no part, since equal ones need not have equal values.
-/
namespace SsaCompiler.Optimize

open Ir

/-- Operations whose value depends on their operands only. -/
def isNumberable : Op → Bool
  | .binary .. | .icmp .. | .fcmp .. | .elementPtr .. => true
  | _ => false

/-- A computation, the block it stands in and the register it defines. -/
structure Computation where
  block : BlockId
  op : Op
  result : Reg
  deriving DecidableEq, Repr

def computation? (block : BlockId) (i : Instr) : Option Computation :=
  if isNumberable i.op then i.result.map fun r => ⟨block, i.op, r⟩ else none

/-- The computations of the given blocks, in order. -/
def computations (b : Body) (order : List BlockId) : List Computation :=
  order.flatMap fun id => ((b.block? id).elim [] (·.instrs)).filterMap (computation? id)

/-- The first computation that repeats an earlier one from a dominating block, with that one. -/
def repeated? (doms : List (BlockId × List BlockId)) (earlier : List Computation) :
    List Computation → Option (Reg × Reg)
  | [] => none
  | c :: cs =>
    let above := (doms.lookup c.block).getD []
    match earlier.find? fun e => e.op = c.op ∧ e.block ∈ above with
    | some e => some (c.result, e.result)
    | none => repeated? doms (earlier ++ [c]) cs

def mergeRepeated? (order : List BlockId) (doms : List (BlockId × List BlockId)) (b : Body) :
    Option Body :=
  (repeated? doms [] (computations b order)).map fun p => b.substitute p.1 (.reg p.2)

/-- Replaces repeated computations until there are none. The edges stay, so one search serves all
rounds, and each replacement drops an instruction. -/
def numberValues (b : Body) : Body :=
  let g := FlowGraph.ofBody b
  let order := g.reversePostorder
  let doms := g.dominators
  untilStable (roundOf (mergeRepeated? order doms)) (b.instrCount + 1) b

end SsaCompiler.Optimize
