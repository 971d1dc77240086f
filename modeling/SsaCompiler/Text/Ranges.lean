/-!
Membership in a set of code points that is given by inclusive ranges, or by the lengths of runs that
are in turn outside and inside of it.
-/
namespace SsaCompiler.Text

/-- Whether a code point lies in one of the ranges. -/
def inRanges (ranges : List (Nat × Nat)) (n : Nat) : Bool :=
  ranges.any fun r => r.1 ≤ n && n ≤ r.2

/-- Whether a code point lies inside, where `inside` says whether the first run does. Behind the last
run nothing does. -/
def inRuns (inside : Bool) : List Nat → Nat → Bool
  | [], _ => false
  | len :: lens, n => if n < len then inside else inRuns (!inside) lens (n - len)

end SsaCompiler.Text
