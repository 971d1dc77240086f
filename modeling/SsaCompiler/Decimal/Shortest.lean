import SsaCompiler.Decimal.Nearest

/-!
The shortest decimal that reads back as a given finite number. With 1, 2, … 17 digits the two
decimals next to the number are tried; the first digit count at which one of them reads back wins.
If both do, the nearer one is taken, and the upper one on a tie.
-/
namespace SsaCompiler.Decimal

/-- The finite number of a magnitude is `mantissa * 2 ^ binaryExponent` times the least positive
number. -/
def mantissa (magnitude : Nat) : Nat :=
  if magnitude < 1 <<< 52 then magnitude else magnitude % 1 <<< 52 + 1 <<< 52

@[inherit_doc mantissa]
def binaryExponent (magnitude : Nat) : Nat := magnitude >>> 52 - 1

/-- The number of digits before the point of `num / den`, negative if zeros follow the point. -/
def leadingPlace (num den : Nat) : Int :=
  ((Nat.toDigits 10 (num * Nat.pow 10 400 / den)).length : Int) - 400

/-- Of the two multiples of `10 ^ place` next to `num / den`, the one that reads back as
`magnitude`. -/
def atPlace (magnitude num den : Nat) (place : Int) : Option Decimal :=
  let scaledNum := num * Nat.pow 10 (-place).toNat
  let scaledDen := den * Nat.pow 10 place.toNat
  let below : Decimal := ⟨scaledNum / scaledDen, place⟩
  let above : Decimal := ⟨scaledNum / scaledDen + 1, place⟩
  if below.magnitude = magnitude then
    if above.magnitude = magnitude ∧ scaledDen ≤ 2 * (scaledNum % scaledDen) then some above
    else some below
  else if above.magnitude = magnitude then some above
  else none

/-- The shortest decimal that reads back as the number of a magnitude. Seventeen digits always do;
the exact value is named in their place. -/
def shortest (magnitude : Nat) : Decimal :=
  let num := mantissa magnitude <<< binaryExponent magnitude
  let den := 1 <<< 1074
  let lead := leadingPlace num den
  ((List.range 17).findSome? fun n => atPlace magnitude num den (lead - (n + 1 : Nat))).getD
    ⟨num * Nat.pow 5 1074, -1074⟩

end SsaCompiler.Decimal
