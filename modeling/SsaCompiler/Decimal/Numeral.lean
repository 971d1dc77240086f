import SsaCompiler.Decimal.Shortest

/-!
Decimal numerals as text. A style says for which exponents the digits are written positionally.
-/
namespace SsaCompiler.Decimal

/-- The decisions left open by a decimal number when it is written. -/
structure NumeralStyle where
  /-- The least exponent of the first digit that is written positionally. -/
  lowest : Int
  /-- The greatest exponent of the first digit that is written positionally. -/
  highest : Int

/-- Digits without the zeros at their end. -/
def trimZeros (ds : List Char) : List Char :=
  (ds.reverse.dropWhile (· = '0')).reverse

/-- Digits with a point after the first `n`, filled up with zeros on both sides of it. -/
def positional (ds : List Char) (n : Nat) : List Char :=
  let whole := ds.take n ++ List.replicate (n - ds.length) '0'
  let fraction := if ds.length ≤ n then ['0'] else ds.drop n
  whole ++ '.' :: fraction

/-- Digits whose first one stands for `10 ^ exponent`, as text. -/
def NumeralStyle.layout (style : NumeralStyle) (ds : List Char) (exponent : Int) : List Char :=
  if style.lowest ≤ exponent ∧ exponent ≤ style.highest then
    match exponent with
    | .ofNat e => positional ds (e + 1)
    | .negSucc e => '0' :: '.' :: (List.replicate e '0' ++ ds)
  else
    let fraction :=
      match ds.drop 1 with
      | [] => []
      | rest => '.' :: rest
    ds.take 1 ++ fraction ++ 'e' :: (toString exponent).toList

/-- The shortest text of a finite number. -/
def NumeralStyle.finite (style : NumeralStyle) (x : Double) : List Char :=
  let sign := if x.isNegative then ['-'] else []
  if x.magnitude = 0 then sign ++ ['0', '.', '0']
  else
    let d := shortest x.magnitude
    let ds := Nat.toDigits 10 d.digits
    sign ++ style.layout (trimZeros ds) (d.exponent + ds.length - 1)

/-- The style of numbers in listings and messages: positional from `0.0001` to below `10 ^ 16`. -/
def plainStyle : NumeralStyle := ⟨-4, 15⟩

/-- The text of a number in listings and messages. -/
def text (x : Double) : String :=
  if x.isNaN then "NaN"
  else if x.isFinite then String.ofList (plainStyle.finite x)
  else if x.isNegative then "-inf" else "inf"

end SsaCompiler.Decimal
