import SsaCompiler.Lexer.Basic

/-!
Gaps between lexemes: layout characters that are skipped, comments to the end of the line and block
comments, which do not nest. The end of the text closes a block comment unless the lexer is strict.
-/
namespace SsaCompiler

/-- Where in a gap the lexer stands. -/
inductive GapMode
  | outside
  | lineComment
  | blockComment (start : Position)
  deriving DecidableEq, Repr

/-- Skips to the next lexeme or to the end of the text, and marks its place. -/
def skipGap (o : LexOptions) (fault : Option Fault) :
    GapMode → List Char → Position → Position → Scan Unit
  | .blockComment start, [], pos, mark =>
    ⟨if o.strict then .error ⟨.unterminatedComment, start⟩ else .ok (), [], pos, mark⟩
  | .blockComment _, '*' :: '/' :: cs, pos, mark =>
    onward fault mark '/' cs pos.right fun pos => skipGap o fault .outside cs pos mark
  | .blockComment start, c :: cs, pos, mark =>
    onward fault mark c cs pos fun pos => skipGap o fault (.blockComment start) cs pos mark
  | .lineComment, [], pos, _ => ⟨.ok (), [], pos, pos⟩
  | .lineComment, c :: cs, pos, mark =>
    if c = '\n' ∨ c = '\r' then
      if o.skips c then
        onward fault mark c cs pos fun pos => skipGap o fault .outside cs pos mark
      else ⟨.ok (), c :: cs, pos, pos⟩
    else onward fault mark c cs pos fun pos => skipGap o fault .lineComment cs pos mark
  | .outside, [], pos, _ => ⟨.ok (), [], pos, pos⟩
  | .outside, '/' :: '/' :: cs, pos, _ =>
    onward fault pos '/' cs pos.right fun p => skipGap o fault .lineComment cs p pos
  | .outside, '/' :: '*' :: cs, pos, _ =>
    onward fault pos '*' cs pos.right fun p => skipGap o fault (.blockComment pos) cs p pos
  | .outside, c :: cs, pos, mark =>
    if o.skips c then
      onward fault mark c cs pos fun pos => skipGap o fault .outside cs pos mark
    else ⟨.ok (), c :: cs, pos, pos⟩

end SsaCompiler
