import SsaCompiler.Ir.FlowGraph
import SsaCompiler.Ir.Module

/-!
Flow graphs as drawings in the DOT language.
-/
namespace SsaCompiler.Ir

/-- A text between double quotes. -/
def dotName (s : String) : String := "\"" ++ s ++ "\""

def Block.dotNode (b : Block) : String :=
  "  " ++ dotName b.label ++ "[label=\"" ++ b.label ++ " (" ++ toString b.instrs.length ++
    " instructions)\"];\n"

/-- The edges of a block to blocks of the body. -/
def Block.dotEdges (body : Body) (g : FlowGraph) (b : Block) : List String :=
  ((g.succs b.id).filterMap body.block?).map fun t =>
    "  " ++ dotName b.label ++ " -> " ++ dotName t.label ++ ";\n"

/-- The flow graph of a function; nothing if it has no body. -/
def Function.dot (f : Function) : String :=
  match f.body with
  | none => ""
  | some body =>
    let g := FlowGraph.ofBody body
    "digraph " ++ dotName f.name ++ " \x7b\n  node[shape=\"box\"];\n" ++
      String.join (body.blocks.map Block.dotNode) ++
      String.join (body.blocks.flatMap (Block.dotEdges body g)) ++ "\x7d\n"

end SsaCompiler.Ir
