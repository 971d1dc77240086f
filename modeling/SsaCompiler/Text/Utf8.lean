/-!
Reading one character of UTF-8. The lead byte fixes the width. A sequence is refused if it is cut
short, if a continuation byte is missing, if a shorter one spells the same code point, or if it
spells a surrogate or a number above U+10FFFF.
-/
namespace SsaCompiler.Text

/-- Why no character can be read at the start of a byte string. -/
inductive DecodeError
  | endOfInput
  | illFormed
  deriving DecidableEq, Repr

def DecodeError.message : DecodeError → String
  | .endOfInput => "unexpected end of input"
  | .illFormed => "illegal UTF-8 encoding"

/-- The six payload bits of a continuation byte. -/
def continuation (b : UInt8) : Option Nat :=
  if 0x80 ≤ b.toNat ∧ b.toNat < 0xc0 then some (b.toNat - 0x80) else none

/-- The character of a code point that is at least `least`, unless it is a surrogate or too large.
-/
def scalar (least n : Nat) : Option Char :=
  if least ≤ n ∧ n.isValidChar then some (Char.ofNat n) else none

/-- The character that a lead byte and the bytes behind it spell, with its width in bytes. -/
def decodeFrom (lead : Nat) (rest : List UInt8) : Option (Char × Nat) :=
  if lead < 0x80 then
    some (Char.ofNat lead, 1)
  else if lead < 0xc2 then
    none
  else if lead < 0xe0 then
    match rest with
    | b1 :: _ => do
      let x ← continuation b1
      let c ← scalar 0x80 ((lead - 0xc0) * 0x40 + x)
      return (c, 2)
    | _ => none
  else if lead < 0xf0 then
    match rest with
    | b1 :: b2 :: _ => do
      let x ← continuation b1
      let y ← continuation b2
      let c ← scalar 0x800 (((lead - 0xe0) * 0x40 + x) * 0x40 + y)
      return (c, 3)
    | _ => none
  else if lead < 0xf5 then
    match rest with
    | b1 :: b2 :: b3 :: _ => do
      let x ← continuation b1
      let y ← continuation b2
      let z ← continuation b3
      let c ← scalar 0x10000 ((((lead - 0xf0) * 0x40 + x) * 0x40 + y) * 0x40 + z)
      return (c, 4)
    | _ => none
  else
    none

/-- The character at the start of a byte string, with its width in bytes. -/
def decodeChar : List UInt8 → Except DecodeError (Char × Nat)
  | [] => .error .endOfInput
  | b :: rest =>
    match decodeFrom b.toNat rest with
    | some r => .ok r
    | none => .error .illFormed

end SsaCompiler.Text
