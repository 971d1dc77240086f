import SsaCompiler.Lexer.Progress

/-!
All tokens of a text up to its end or its first error.
-/
namespace SsaCompiler

/-- A token and its place. -/
structure PlacedToken where
  token : Token
  pos : Position
  deriving DecidableEq, Repr

/-- The tokens up to the end of the text or the first error, and the lexer after that. -/
structure TokenRun where
  tokens : List PlacedToken
  error : Option LexError
  lexer : Lexer
  deriving DecidableEq, Repr

namespace Lexer

/-- Advances to the end of the text or to the first error. -/
def run (lx : Lexer) : TokenRun :=
  match h : lx.advance with
  | (.error e, next) => ⟨[], some e, next⟩
  | (.ok t, next) =>
    if ht : t = .eof then ⟨[], none, next⟩
    else
      have := advance_length_lt h ht
      let rest := run next
      { rest with tokens := ⟨t, next.position⟩ :: rest.tokens }
termination_by lx.cursor.chars.length

theorem run_of_error {lx next : Lexer} {e : LexError} (h : lx.advance = (.error e, next)) :
    lx.run = ⟨[], some e, next⟩ := by
  rw [run]
  split
  · next heq =>
    rw [h] at heq
    cases heq
    rfl
  · next heq => rw [h] at heq; cases heq

theorem run_of_ok {lx next : Lexer} {t : Token} (h : lx.advance = (.ok t, next)) : lx.run =
    if t = .eof then ⟨[], none, next⟩
    else { next.run with tokens := ⟨t, next.position⟩ :: next.run.tokens } := by
  rw [run]
  split
  · next heq => rw [h] at heq; cases heq
  · next heq =>
    rw [h] at heq
    cases heq
    by_cases ht : t = .eof
    · rw [dif_pos ht, if_pos ht]
    · rw [dif_neg ht, if_neg ht]

/-- All tokens of the text before its end. -/
def tokens (lx : Lexer) : Except LexError (List Token) :=
  let run := lx.run
  match run.error with
  | some e => .error e
  | none => .ok (run.tokens.map (·.token))

theorem tokens_of_ended {lx : Lexer} (h : lx.run.error = none) :
    lx.tokens = .ok (lx.run.tokens.map (·.token)) := by
  unfold tokens
  dsimp only
  rw [h]

theorem tokens_of_failed {lx : Lexer} {e : LexError} (h : lx.run.error = some e) :
    lx.tokens = .error e := by
  unfold tokens
  dsimp only
  rw [h]

end Lexer

end SsaCompiler
