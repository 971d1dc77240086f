import SsaCompiler.Ir.Module
import SsaCompiler.Optimize.Branch
import SsaCompiler.Optimize.Combine
import SsaCompiler.Optimize.Number

/-!
Running passes over a function until its body stays the same.
-/
namespace SsaCompiler.Optimize

open Ir

inductive Pass
  | combine
  | number
  | simplify
  deriving DecidableEq, Repr

def Pass.run : Pass → Body → Body
  | combine => combineInstrs
  | number => numberValues
  | simplify => simplifyFlow

def standardPasses : List Pass := [.combine, .number, .simplify]

def runPasses (passes : List Pass) (b : Body) : Body := passes.foldl (fun b p => p.run b) b

/-- Runs all passes until the body stays the same, at most `n` times. -/
def optimizeBody (passes : List Pass) : Nat → Body → Body
  | 0, b => b
  | n + 1, b =>
    let next := runPasses passes b
    if next = b then b else optimizeBody passes n next

/-- How often the passes are run at most. -/
def maxRounds : Nat := 32

end SsaCompiler.Optimize

namespace SsaCompiler.Ir.Function

/-- Optimizes the body of a function. -/
def optimize (passes : List Optimize.Pass) (f : Function) : Function :=
  { f with body := f.body.map (Optimize.optimizeBody passes Optimize.maxRounds) }

end SsaCompiler.Ir.Function
