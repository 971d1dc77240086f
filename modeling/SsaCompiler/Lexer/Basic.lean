import SsaCompiler.Position
import SsaCompiler.Source
import SsaCompiler.Token

/-!
Places of the lexer in a source text, and moving on from them. The first character that is left is
the pending one. A fault behind the text shows when the last character in front of it is left; the
lexer then stays on that character, one column further, and meets the fault again on the next
attempt.
-/
namespace SsaCompiler

/-- What a lexer skips and what it refuses. -/
structure LexOptions where
  ignoreSpace : Bool := true
  ignoreNewline : Bool := true
  /-- Whether the end of the text inside a string or a comment is an error. -/
  strict : Bool := false
  deriving DecidableEq, Repr

/-- Whether a character between lexemes is skipped. -/
def LexOptions.skips (o : LexOptions) (c : Char) : Bool :=
  if c = ' ' ∨ c = '\t' then o.ignoreSpace
  else if c = '\n' ∨ c = '\r' then o.ignoreNewline
  else false

/-- Why a text has no next token. -/
inductive LexCause
  | fault (f : Fault)
  | secondPoint (text : String)
  | number (e : NumberError)
  | unterminatedComment
  | unterminatedString
  deriving DecidableEq, Repr

def LexCause.message : LexCause → String
  | .fault f => f.message
  | .secondPoint text => "invalid use of '.' in numeric literal '" ++ text ++ ".'"
  | .number e => e.message
  | .unterminatedComment => "unterminated block comment"
  | .unterminatedString => "unterminated string literal"

structure LexError where
  cause : LexCause
  pos : Position
  deriving DecidableEq, Repr

/-- The characters left, the place of the first of them, and the place where the last lexeme or
comment began. -/
structure Cursor where
  chars : List Char
  pos : Position
  mark : Position
  deriving DecidableEq, Repr

/-- The outcome of scanning, with the place where it ended. A failure has a place too. -/
structure Scan (α : Type) where
  outcome : Except LexError α
  cursor : Cursor

namespace Scan

/-- Goes on from a success; a failure stays where it is. -/
def andThen {α β : Type} (s : Scan α) (k : α → Cursor → Scan β) : Scan β :=
  match s with
  | ⟨.ok a, cur⟩ => k a cur
  | ⟨.error e, cur⟩ => ⟨.error e, cur⟩

def map {α β : Type} (f : α → β) (s : Scan α) : Scan β := ⟨s.outcome.map f, s.cursor⟩

end Scan

/-- Leaves `c` for `rest` and goes on there, or stops at the fault behind the text. -/
def onward {α : Type} (fault : Option Fault) (mark : Position) (c : Char) (rest : List Char)
    (pos : Position) (k : Position → Scan α) : Scan α :=
  match rest, fault with
  | [], some f =>
    let p := (pos.past c).right
    ⟨.error ⟨.fault f, p⟩, [c], p, mark⟩
  | _, _ => k (pos.step c rest)

/-- Takes the characters up to the first one that does not satisfy `p`. -/
def takeWhile (fault : Option Fault) (mark : Position) (p : Char → Bool) :
    List Char → Position → Scan (List Char)
  | [], pos => ⟨.ok [], [], pos, mark⟩
  | c :: cs, pos =>
    if p c then
      onward fault mark c cs pos fun pos => (takeWhile fault mark p cs pos).map (c :: ·)
    else ⟨.ok [], c :: cs, pos, mark⟩

end SsaCompiler
