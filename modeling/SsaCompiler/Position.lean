/-!
Places in a source text.
-/
namespace SsaCompiler

/-- A line and a column. Lines count from 1, and so do the characters of a line. -/
structure Position where
  line : Nat
  col : Nat
  deriving DecidableEq, Repr

namespace Position

/-- No place in the text, before anything is read. -/
def unset : Position := ⟨0, 0⟩

/-- Before the first character of a text. -/
def start : Position := ⟨1, 0⟩

def text (p : Position) : String := toString p.line ++ ":" ++ toString p.col

/-- Leaving a character: a line end opens the next line. -/
def past (p : Position) (c : Char) : Position :=
  if c = '\n' then ⟨p.line + 1, 0⟩ else p

/-- Entering the next character of the line. -/
def right (p : Position) : Position := ⟨p.line, p.col + 1⟩

/-- Moving from a character onto what follows it. The end of the text has no column of its own. -/
def step (p : Position) (c : Char) (rest : List Char) : Position :=
  if rest.isEmpty then p.past c else (p.past c).right

end Position

end SsaCompiler
