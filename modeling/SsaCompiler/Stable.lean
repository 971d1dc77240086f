/-!
Repeating a transformation until it reports no change.
-/
namespace SsaCompiler

/-- Runs `round` until it reports no change, at most `n` times. -/
def untilStable {α : Type} (round : α → α × Bool) : Nat → α → α
  | 0, a => a
  | n + 1, a =>
    let (b, changed) := round a
    if changed then untilStable round n b else b

/-- A round of a partial step: a change if the step applies. -/
def roundOf {α : Type} (step : α → Option α) (a : α) : α × Bool :=
  match step a with
  | some b => (b, true)
  | none => (a, false)

end SsaCompiler
