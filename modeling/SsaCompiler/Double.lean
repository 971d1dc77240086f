/-!
Floating-point constants. A constant is the 64-bit pattern of a binary64 number, and two constants
are equal if their patterns are: the two zeros differ, and a NaN equals itself. Arithmetic and
comparison are those of binary64.
-/
namespace SsaCompiler

/-- A binary64 number, given by its bit pattern. -/
structure Double where
  bits : UInt64
  deriving DecidableEq, Repr

namespace Double

/-- The pattern without its sign bit. Patterns of finite numbers count upwards from zero in the
order of their absolute values. -/
def magnitude (x : Double) : Nat := x.bits.toNat % 1 <<< 63

def isNegative (x : Double) : Bool := 1 <<< 63 ≤ x.bits.toNat

/-- The magnitude of the infinities. -/
def infinityMagnitude : Nat := 0x7ff <<< 52

def isFinite (x : Double) : Bool := x.magnitude < infinityMagnitude

def isNaN (x : Double) : Bool := infinityMagnitude < x.magnitude

/-- The number with a given sign and magnitude. -/
def ofMagnitude (negative : Bool) (magnitude : Nat) : Double :=
  ⟨UInt64.ofNat (magnitude + if negative then 1 <<< 63 else 0)⟩

def zero : Double := ⟨0⟩

def one : Double := ofMagnitude false (0x3ff <<< 52)

/-- The quiet NaN with an empty payload. -/
def quietNaN (negative : Bool) : Double := ofMagnitude negative (0x7ff <<< 52 + 1 <<< 51)

def toFloat (x : Double) : Float := Float.ofBits x.bits

def ofFloat (x : Float) : Double := ⟨x.toBits⟩

def add (x y : Double) : Double := ofFloat (x.toFloat + y.toFloat)

def sub (x y : Double) : Double := ofFloat (x.toFloat - y.toFloat)

def mul (x y : Double) : Double := ofFloat (x.toFloat * y.toFloat)

def div (x y : Double) : Double := ofFloat (x.toFloat / y.toFloat)

/-- Equality as numbers: the zeros are equal, and a NaN equals nothing. -/
def numEq (x y : Double) : Bool := x.toFloat == y.toFloat

def less (x y : Double) : Bool := decide (x.toFloat < y.toFloat)

end Double

end SsaCompiler
