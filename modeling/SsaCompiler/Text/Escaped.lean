import SsaCompiler.Text.Combining
import SsaCompiler.Text.Ignorable
import SsaCompiler.Text.Unprintable

/-!
Characters in messages and listings. A character that cannot be shown is written with a backslash:
by a letter for the usual controls, by its code point otherwise.
-/
namespace SsaCompiler.Text

/-- A character written by its code point in hexadecimal. -/
def codePoint (c : Char) : String :=
  "\\u\x7b" ++ String.ofList (Nat.toDigits 16 c.toNat) ++ "\x7d"

/-- A character in a message: printable ASCII as it is, quotes and backslash behind a backslash. -/
def escapeAscii (c : Char) : String :=
  if c = '\t' then "\\t"
  else if c = '\r' then "\\r"
  else if c = '\n' then "\\n"
  else if c = '\'' ∨ c = '"' ∨ c = '\\' then String.ofList ['\\', c]
  else if 0x20 ≤ c.toNat ∧ c.toNat < 0x7f then String.singleton c
  else codePoint c

/-- A character in a listing, where `delimiter` encloses the text it belongs to. -/
def escapeVisible (delimiter c : Char) : String :=
  if c.toNat = 0 then "\\0"
  else if c = '\t' then "\\t"
  else if c = '\r' then "\\r"
  else if c = '\n' then "\\n"
  else if c = '\\' ∨ c = delimiter then String.ofList ['\\', c]
  else if isCombining c || isIgnorable c || isUnprintable c then codePoint c
  else String.singleton c

end SsaCompiler.Text
