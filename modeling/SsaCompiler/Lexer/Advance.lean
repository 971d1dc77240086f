import SsaCompiler.Lexer.Gap
import SsaCompiler.Lexer.Lexeme

/-!
The lexer. Each advance scans one token and makes it current. A failed advance keeps the current
token and leaves the lexer where the failure happened, so that scanning can be tried again from
there.
-/
namespace SsaCompiler

structure Lexer where
  options : LexOptions
  fault : Option Fault
  cursor : Cursor
  /-- Whether the first character has been reached. -/
  started : Bool
  token : Token
  deriving DecidableEq, Repr

namespace Lexer

def ofSource (source : Source) (options : LexOptions) : Lexer where
  options := options
  fault := source.fault
  cursor := ⟨source.chars, .start, .unset⟩
  started := false
  token := .eof

/-- The place of the current token. -/
def position (lx : Lexer) : Position := lx.cursor.mark

/-- Enters the text: reaches its first character and skips a byte order mark there. -/
def enter (fault : Option Fault) (cur : Cursor) : Scan Unit :=
  match cur.chars, fault with
  | [], none => ⟨.ok (), cur⟩
  | [], some f => ⟨.error ⟨.fault f, cur.pos.right⟩, [], cur.pos.right, cur.mark⟩
  | c :: cs, _ =>
    if c = Source.byteOrderMark then
      onward fault cur.mark c cs cur.pos fun pos => ⟨.ok (), cs, pos, cur.mark⟩
    else ⟨.ok (), c :: cs, cur.pos.right, cur.mark⟩

/-- Scans the next token. -/
def scan (lx : Lexer) : Scan Token :=
  let entered := if lx.started then ⟨.ok (), lx.cursor⟩ else enter lx.fault lx.cursor
  entered.andThen fun _ cur =>
  (skipGap lx.options lx.fault .outside cur.chars cur.pos cur.mark).andThen fun _ cur =>
  match cur.chars with
  | [] => ⟨.ok .eof, cur⟩
  | c :: cs => scanLexeme lx.options lx.fault cur.mark c cs cur.pos

/-- Scans the next token and makes it current. -/
def advance (lx : Lexer) : Except LexError Token × Lexer :=
  match lx.scan with
  | ⟨.ok t, cur⟩ => (.ok t, { lx with cursor := cur, started := true, token := t })
  | ⟨.error e, cur⟩ => (.error e, { lx with cursor := cur, started := true })

end Lexer

end SsaCompiler
