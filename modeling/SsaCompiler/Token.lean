import SsaCompiler.Decimal.Numeral
import SsaCompiler.Number
import SsaCompiler.Text.Escaped

/-!
Tokens of the language, and how messages name them.
-/
namespace SsaCompiler

/-- Words that are not identifiers. -/
inductive Keyword
  | kwFun
  | kwReturn
  | kwIf
  | kwElse
  | kwFor
  | kwIn
  | kwTrue
  | kwFalse
  deriving DecidableEq, Repr

namespace Keyword

def all : List Keyword := [kwFun, kwReturn, kwIf, kwElse, kwFor, kwIn, kwTrue, kwFalse]

def word : Keyword → String
  | kwFun => "fun"
  | kwReturn => "return"
  | kwIf => "if"
  | kwElse => "else"
  | kwFor => "for"
  | kwIn => "in"
  | kwTrue => "true"
  | kwFalse => "false"

end Keyword

/-- A token. Characters without a meaning of their own in the grammar of tokens are `other`. -/
inductive Token
  | eof
  | identifier (name : String)
  | number (value : Number)
  | string (text : String)
  | leftParen
  | rightParen
  | leftBrace
  | rightBrace
  | atSign
  | assign
  | equal
  | keyword (k : Keyword)
  | other (c : Char)
  deriving DecidableEq, Repr

/-- Classes of tokens. -/
inductive TokenKind
  | eof
  | identifier
  | number
  | string
  | punctuation
  | keyword
  | other
  deriving DecidableEq, Repr

namespace Token

def kind : Token → TokenKind
  | eof => .eof
  | identifier _ => .identifier
  | number _ => .number
  | string _ => .string
  | leftParen | rightParen | leftBrace | rightBrace | atSign | assign | equal => .punctuation
  | keyword _ => .keyword
  | other _ => .other

/-- The token of a word: a keyword or an identifier. -/
def ofWord (word : String) : Token :=
  match Keyword.all.find? (·.word = word) with
  | some k => keyword k
  | none => identifier word

/-- How a message names a token. -/
def describe : Token → String
  | eof => "end of input"
  | identifier name => "identifier '" ++ name ++ "'"
  | number (.int n) => "number " ++ toString n.toInt
  | number (.float x) => "number " ++ Decimal.text x
  | string text => "string \"" ++ text ++ "\""
  | leftParen => "'('"
  | rightParen => "')'"
  | leftBrace => "'\x7b'"
  | rightBrace => "'\x7d'"
  | atSign => "'@'"
  | assign => "'='"
  | equal => "'=='"
  | keyword k => "'" ++ k.word ++ "'"
  | other c => "'" ++ Text.escapeAscii c ++ "'"

end Token

end SsaCompiler
