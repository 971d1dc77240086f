/-!
Names and string constants in IR text. A name is written bare if it has only letters, digits and
`-`, `$`, `.`, `_` and does not start with a digit; any other name stands in quotes. Inside quotes a
byte that is not printable ASCII, a quote and a backslash are written as a backslash and two
hexadecimal digits.
-/
namespace SsaCompiler.Text

/-- The upper-case hexadecimal digit of a number below 16. -/
def hexDigit (n : Nat) : Char :=
  if n < 10 then Char.ofNat ('0'.toNat + n) else Char.ofNat ('A'.toNat + (n - 10))

/-- A byte as it is written between quotes. -/
def escapeByte (b : UInt8) : List Char :=
  if 0x20 ≤ b.toNat ∧ b.toNat < 0x7f ∧ b.toNat ≠ 0x22 ∧ b.toNat ≠ 0x5c then
    [Char.ofNat b.toNat]
  else
    ['\\', hexDigit (b.toNat / 16), hexDigit (b.toNat % 16)]

/-- The bytes of a text as they are written between quotes. -/
def escape (s : String) : String :=
  String.ofList (s.toUTF8.data.toList.flatMap escapeByte)

/-- Characters that may start a bare name. -/
def isNameStart (c : Char) : Bool :=
  c.isAlpha || c = '-' || c = '$' || c = '.' || c = '_'

/-- Whether a name is written bare. -/
def isPlainName : List Char → Bool
  | [] => false
  | c :: cs => isNameStart c && cs.all fun d => isNameStart d || d.isDigit

/-- A name as it is written in IR text. -/
def quote (name : String) : String :=
  if isPlainName name.toList then name else "\"" ++ escape name ++ "\""

end SsaCompiler.Text
