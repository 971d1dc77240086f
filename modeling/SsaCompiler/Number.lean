import SsaCompiler.Decimal.Nearest

/-!
Number literals and the texts they are read from. An integer has an optional sign and digits and
must fit in 64 bits. A float has an optional sign and either digits with an optional point and
exponent or the word for infinity or NaN in any letter case.
-/
namespace SsaCompiler

/-- The value of a number literal. -/
inductive Number
  | int (n : Int64)
  | float (x : Double)
  deriving DecidableEq, Repr

def Number.isInteger : Number → Bool
  | .int _ => true
  | .float _ => false

/-- Why a text is not a number. -/
inductive NumberError
  | integer (text : String)
  | emptyFloat
  | float
  deriving DecidableEq, Repr

def NumberError.message : NumberError → String
  | .integer text => "integer literal '" ++ text ++ "' does not fit in 64 bits"
  | .emptyFloat => "cannot parse float from empty string"
  | .float => "invalid float literal"

namespace Number

/-- The value of a string of decimal digits. -/
def digitsValue (ds : List Char) : Nat :=
  ds.foldl (fun n d => 10 * n + (d.toNat - '0'.toNat)) 0

/-- A text without its sign, and whether the sign is a minus. -/
def splitSign : List Char → Bool × List Char
  | '-' :: cs => (true, cs)
  | '+' :: cs => (false, cs)
  | cs => (false, cs)

/-- The value of a non-empty string of digits. -/
def readNat? (cs : List Char) : Option Nat :=
  if cs.isEmpty || !cs.all Char.isDigit then none else some (digitsValue cs)

/-- Reads an integer of 64 bits. -/
def readInt? (cs : List Char) : Option Int64 := do
  let (negative, rest) := splitSign cs
  let n ← readNat? rest
  let v : Int := if negative then -n else n
  if Int64.minValue.toInt ≤ v ∧ v ≤ Int64.maxValue.toInt then some (Int64.ofInt v) else none

/-- Reads the exponent behind a mantissa; an absent one is zero. -/
def readExponent? : List Char → Option Int
  | [] => some 0
  | c :: cs =>
    if c = 'e' ∨ c = 'E' then do
      let (negative, rest) := splitSign cs
      let n ← readNat? rest
      return if negative then -n else n
    else none

/-- Reads digits with an optional point and an optional exponent. -/
def readDecimal? (cs : List Char) : Option Decimal := do
  let whole := cs.takeWhile Char.isDigit
  let rest := cs.dropWhile Char.isDigit
  let (fraction, rest) :=
    match rest with
    | '.' :: r => (r.takeWhile Char.isDigit, r.dropWhile Char.isDigit)
    | r => ([], r)
  if whole.isEmpty && fraction.isEmpty then none
  else
    let e ← readExponent? rest
    return ⟨digitsValue (whole ++ fraction), e - fraction.length⟩

/-- Reads the words for infinity and NaN. -/
def readSpecial? (negative : Bool) (cs : List Char) : Option Double :=
  match String.ofList (cs.map Char.toLower) with
  | "inf" | "infinity" => some (.ofMagnitude negative Double.infinityMagnitude)
  | "nan" => some (.quietNaN negative)
  | _ => none

/-- Reads a float, rounded to the nearest one. -/
def readFloat? (cs : List Char) : Option Double :=
  let (negative, rest) := splitSign cs
  match readDecimal? rest with
  | some d => some (.ofMagnitude negative d.magnitude)
  | none => readSpecial? negative rest

/-- Reads an integer or, if `isFloat`, a float. -/
def read (text : List Char) (isFloat : Bool) : Except NumberError Number :=
  if isFloat then
    if text.isEmpty then .error .emptyFloat
    else match readFloat? text with
      | some x => .ok (.float x)
      | none => .error .float
  else match readInt? text with
    | some n => .ok (.int n)
    | none => .error (.integer (String.ofList text))

end Number

end SsaCompiler
