import SsaCompiler.Text.Utf8

/-!
Source texts. A text is read from bytes up to the first place that cannot be read: bytes that are
not UTF-8, a null character, or a byte order mark that is not the first character.
-/
namespace SsaCompiler

/-- What stops a source text from being read further. -/
inductive Fault
  | illFormed
  | null
  | byteOrderMark
  deriving DecidableEq, Repr

def Fault.message : Fault → String
  | .illFormed => Text.DecodeError.illFormed.message
  | .null => "null character"
  | .byteOrderMark => "0xFEFF is only allowed as a first character"

/-- The characters of a text up to its first fault. -/
structure Source where
  chars : List Char
  fault : Option Fault
  deriving DecidableEq, Repr

namespace Source

def byteOrderMark : Char := Char.ofNat 0xfeff

/-- The fault of reading a character, if any. `first` says whether it is the first of its text. -/
def faultOf (first : Bool) (c : Char) : Option Fault :=
  if c.toNat = 0 then some .null
  else if c = byteOrderMark ∧ !first then some .byteOrderMark
  else none

/-- Reads the bytes behind the first `skip` ones, which belong to a character already read. -/
def readFrom (first : Bool) : Nat → List UInt8 → Source
  | _, [] => ⟨[], none⟩
  | skip + 1, _ :: bs => readFrom first skip bs
  | 0, b :: bs =>
    match Text.decodeChar (b :: bs) with
    | .error _ => ⟨[], some .illFormed⟩
    | .ok (c, width) =>
      match faultOf first c with
      | some f => ⟨[], some f⟩
      | none =>
        let rest := readFrom false (width - 1) bs
        ⟨c :: rest.chars, rest.fault⟩

/-- Reads a text from its bytes. -/
def ofBytes (bytes : List UInt8) : Source := readFrom true 0 bytes

/-- Reads a text from the bytes of a string. -/
def ofString (s : String) : Source := ofBytes s.toUTF8.data.toList

end Source

end SsaCompiler
