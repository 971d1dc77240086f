import SsaCompiler.Ir.Value
import SsaCompiler.Typing.DataType

/-!
Names and the values they stand for. Every block and loop opens a frame, and a name means its
innermost binding.
-/
namespace SsaCompiler

/-- A value and its type in the language. -/
structure TypedValue where
  value : Ir.Value
  type : DataType
  deriving DecidableEq, Repr

/-- What stands for the result of a call that has none. -/
def TypedValue.void : TypedValue := ⟨.const (.undef .void), .void⟩

/-- Bindings, the newest first. -/
abbrev Frame := List (String × TypedValue)

/-- The innermost frame and the frames around it. -/
structure Scope where
  inner : Frame
  outer : List Frame
  deriving DecidableEq, Repr

namespace Scope

def empty : Scope := ⟨[], []⟩

def push (s : Scope) : Scope := ⟨[], s.inner :: s.outer⟩

/-- Closes the innermost frame. The outermost one stays. -/
def pop (s : Scope) : Scope :=
  match s.outer with
  | [] => s
  | f :: fs => ⟨f, fs⟩

def depth (s : Scope) : Nat := s.outer.length + 1

def bind (s : Scope) (name : String) (v : TypedValue) : Scope :=
  { s with inner := (name, v) :: s.inner }

def lookup? (s : Scope) (name : String) : Option TypedValue :=
  (s.inner :: s.outer).findSome? (·.lookup name)

end Scope

end SsaCompiler
