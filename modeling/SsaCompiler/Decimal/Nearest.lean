import SsaCompiler.Double

/-!
The binary64 number nearest to a decimal one. A tie goes to the number with an even pattern, and
what is too large becomes infinite.
-/
namespace SsaCompiler

/-- The number `digits * 10 ^ exponent`. -/
structure Decimal where
  digits : Nat
  exponent : Int
  deriving DecidableEq, Repr

namespace Decimal

/-- The quotient rounded to the nearest integer, a tie to the even one. -/
def roundHalfEven (num den : Nat) : Nat :=
  let q := num / den
  let r := num % den
  if 2 * r < den then q else if den < 2 * r then q + 1 else q + q % 2

/-- The magnitude of the number nearest to `num / den`. In units of the least positive number the
quotient is cut to 53 bits; the place of the cut counts the exponent, and rounding up to the next
power of two carries into it. -/
def magnitudeOfRatio (num den : Nat) : Nat :=
  let n := num <<< 1074
  let cut := (n / den).log2 - 52
  min (cut <<< 52 + roundHalfEven n (den <<< cut)) Double.infinityMagnitude

/-- The magnitude of the nearest number. The outer cases keep far too large and far too small
exponents from being computed with. -/
def magnitude (d : Decimal) : Nat :=
  if d.digits = 0 then 0
  else if 400 < d.exponent then Double.infinityMagnitude
  else if d.exponent + (d.digits.log2 + 1) < -400 then 0
  else
    match d.exponent with
    | .ofNat e => magnitudeOfRatio (d.digits * Nat.pow 10 e) 1
    | .negSucc e => magnitudeOfRatio d.digits (Nat.pow 10 (e + 1))

end Decimal

end SsaCompiler
