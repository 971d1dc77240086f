import SsaCompiler.Lexer.Basic
import SsaCompiler.Text.Alphabetic

/-!
Lexemes: words, numbers, strings and single characters, with `==` as the only longer sign. The
mark of the cursor is the place of the first character.
-/
namespace SsaCompiler

/-- Characters of a word behind its first one. -/
def isWordChar (c : Char) : Bool := Text.isAlphabetic c || c = '_'

def scanWord (fault : Option Fault) (mark : Position) (cs : List Char) (pos : Position) :
    Scan Token :=
  (takeWhile fault mark isWordChar cs pos).map fun word => Token.ofWord (String.ofList word)

/-- Takes digits with at most one point among them. `taken` holds what stands before, reversed. -/
def takeNumber (fault : Option Fault) (mark : Position) (taken : List Char) :
    List Char → Position → Scan (List Char)
  | [], pos => ⟨.ok taken.reverse, [], pos, mark⟩
  | c :: cs, pos =>
    if c = '.' ∧ '.' ∈ taken then
      ⟨.error ⟨.secondPoint (String.ofList taken.reverse), pos⟩, c :: cs, pos, mark⟩
    else if c = '.' ∨ c.isDigit then
      onward fault mark c cs pos fun pos => takeNumber fault mark (c :: taken) cs pos
    else ⟨.ok taken.reverse, c :: cs, pos, mark⟩

def scanNumber (fault : Option Fault) (mark : Position) (cs : List Char) (pos : Position) :
    Scan Token :=
  (takeNumber fault mark [] cs pos).andThen fun text cur =>
    match Number.read text ('.' ∈ text) with
    | .ok n => ⟨.ok (.number n), cur⟩
    | .error e => ⟨.error ⟨.number e, mark⟩, cur⟩

/-- Scans a string behind its opening quote. A string that the text ends in is dropped with the rest
of the text, unless the lexer is strict. -/
def scanString (strict : Bool) (fault : Option Fault) (mark : Position) (cs : List Char)
    (pos : Position) : Scan Token :=
  (takeWhile fault mark (· ≠ '"') cs pos).andThen fun text cur =>
    match cur.chars with
    | [] => ⟨if strict then .error ⟨.unterminatedString, mark⟩ else .ok .eof, cur⟩
    | c :: rest =>
      onward fault mark c rest cur.pos fun pos =>
        ⟨.ok (.string (String.ofList text)), rest, pos, mark⟩

/-- The token of a single character. -/
def signOf (c : Char) : Token :=
  if c = '(' then .leftParen
  else if c = ')' then .rightParen
  else if c = '\x7b' then .leftBrace
  else if c = '\x7d' then .rightBrace
  else if c = '@' then .atSign
  else if c = '=' then .assign
  else .other c

/-- Scans the sign `c` that stands before `cs`. -/
def scanSign (fault : Option Fault) (mark : Position) (c : Char) (cs : List Char) (pos : Position) :
    Scan Token :=
  onward fault mark c cs pos fun pos =>
    match c, cs with
    | '=', '=' :: rest =>
      onward fault mark '=' rest pos fun pos => ⟨.ok .equal, rest, pos, mark⟩
    | _, _ => ⟨.ok (signOf c), cs, pos, mark⟩

/-- Whether a number starts with `c` before `cs`: a digit, or a point and a digit. -/
def startsNumber (c : Char) (cs : List Char) : Bool :=
  c.isDigit || (c = '.' && cs.head?.any Char.isDigit)

/-- Scans the lexeme that starts with `c` before `cs`. -/
def scanLexeme (o : LexOptions) (fault : Option Fault) (mark : Position) (c : Char)
    (cs : List Char) (pos : Position) : Scan Token :=
  if Text.isAlphabetic c then scanWord fault mark (c :: cs) pos
  else if startsNumber c cs then scanNumber fault mark (c :: cs) pos
  else if c = '"' then
    onward fault mark c cs pos fun pos => scanString o.strict fault mark cs pos
  else scanSign fault mark c cs pos

end SsaCompiler
