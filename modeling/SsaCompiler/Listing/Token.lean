import SsaCompiler.Listing.Basic
import SsaCompiler.Token

/-!
Listings of tokens.
-/
namespace SsaCompiler

def Number.listing : Number → Listing
  | .int n => .tagged "Int" [.atom (toString n.toInt)]
  | .float x => .tagged "Float" [.atom (Decimal.text x)]

def Keyword.listing : Keyword → Listing
  | .kwFun => .atom "Fun"
  | .kwReturn => .atom "Return"
  | .kwIf => .atom "If"
  | .kwElse => .atom "Else"
  | .kwFor => .atom "For"
  | .kwIn => .atom "In"
  | .kwTrue => .atom "True"
  | .kwFalse => .atom "False"

def Token.listing : Token → Listing
  | .eof => .atom "Eof"
  | .identifier name => .tagged "Identifier" [.string name]
  | .number n => .tagged "Number" [n.listing]
  | .string text => .tagged "Str" [.string text]
  | .leftParen => .atom "LParen"
  | .rightParen => .atom "RParen"
  | .leftBrace => .atom "LBrace"
  | .rightBrace => .atom "RBrace"
  | .atSign => .atom "At"
  | .assign => .atom "Assign"
  | .equal => .atom "Equal"
  | .keyword k => k.listing
  | .other c => .tagged "Unknown" [.char c]

end SsaCompiler
