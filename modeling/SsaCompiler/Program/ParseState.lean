import SsaCompiler.Lexer.Run
import SsaCompiler.Program.Basic

/-!
Reading tokens one by one. The parser holds one token and the place of the token that was read last.
A token that turns out not to fit is put back as the current one, but the place then stays with the
token behind it.
-/
namespace SsaCompiler

/-- What the grammar asks for at some place. -/
inductive Expected
  | token (t : Token)
  | sign (c : Char)
  | identifier
  | operator
  | sequenceLength
  | expression
  deriving DecidableEq, Repr

def Expected.describe : Expected → String
  | .token t => t.describe
  | .sign c => "'" ++ String.singleton c ++ "'"
  | .identifier => "identifier"
  | .operator => "operator"
  | .sequenceLength => "sequence length"
  | .expression => "expression"

inductive ParseError
  | lexical (e : LexError)
  | unexpected (expected : Expected) (found : Token) (pos : Position)
  /-- The allowance for nested calls was too small for the tokens left. -/
  | exhausted
  deriving DecidableEq, Repr

def ParseError.message : ParseError → String
  | .lexical e => "lexical error at " ++ e.pos.text ++ ": " ++ e.cause.message
  | .unexpected expected found pos =>
    "syntax error at " ++ pos.text ++ ": expected " ++ expected.describe ++ ", found " ++
      found.describe
  | .exhausted => "parser allowance exhausted"

/-- The current token, the place of the token read last, and the tokens behind it. -/
structure Parser where
  current : Token
  pos : Position
  ahead : TokenRun
  /-- Whether the first token has been read. -/
  primed : Bool
  deriving DecidableEq, Repr

/-- Parsing keeps the state that a failure leaves. -/
abbrev ParseM := ExceptT ParseError (StateM Parser)

namespace Parser

def ofLexer (lx : Lexer) : Parser := ⟨.eof, .unset, lx.run, false⟩

/-- Reads the next token and returns the one that was current. At the end of the text, and again
after an error, the lexer is asked anew. -/
def advance : ParseM Token := do
  let s ← get
  match s.ahead.tokens with
  | t :: ts =>
    set { s with current := t.token, pos := t.pos, ahead := { s.ahead with tokens := ts } }
    return s.current
  | [] =>
    match s.ahead.error with
    | some e =>
      set { s with ahead := s.ahead.lexer.run }
      throw (.lexical e)
    | none =>
      set { s with
        current := .eof, pos := s.ahead.lexer.position, ahead := s.ahead.lexer.run }
      return s.current

/-- Fails at the current token. -/
def unexpected {α : Type} (expected : Expected) : ParseM α := do
  let s ← get
  throw (.unexpected expected s.current s.pos)

/-- Puts back a token that does not fit, and fails. -/
def reject {α : Type} (t : Token) (expected : Expected) : ParseM α := do
  modify fun s => { s with current := t }
  unexpected expected

def peek : ParseM Token := return (← get).current

def isAt (t : Token) : ParseM Bool := return (← peek) = t

/-- Reads past a token if it is the current one. -/
def skipIf (t : Token) : ParseM Bool := do
  if ← isAt t then
    let _ ← advance
    return true
  else return false

/-- Reads past a token that has to be the current one. -/
def consume (t : Token) (expected : Expected) : ParseM Unit := do
  if ← isAt t then
    let _ ← advance
  else unexpected expected

def consumeToken (t : Token) : ParseM Unit := consume t (.token t)

def consumeSign (c : Char) : ParseM Unit := consume (.other c) (.sign c)

def identifier : ParseM String := do
  match ← advance with
  | .identifier name => return name
  | t => reject t .identifier

end Parser

end SsaCompiler
