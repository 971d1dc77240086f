import Mathlib.Data.Nat.Basic
import Mathlib.Order.Basic
import SsaCompiler.Program.Parser
import SsaCompiler.Proofs.Reading.Names
import SsaCompiler.Proofs.Yields

/-!
Where the parser stands in the tokens of its lexer. The current token is one that the lexer has
delivered, and reading on is advancing the lexer. Every reader either goes on to a later token or
fails, and a failure names a token that was delivered. Its place is that of the token if the token was
only looked at, and that of the token behind it if it had been read and was put back. No item that is
read declares or calls the function of the statements outside of functions, and its parameters are
named by words.
-/
namespace SsaCompiler

open Compilation (toplevelName)

namespace Lexer

variable {lx : Lexer} {n : Nat} {t : Token} {p : Position}

/-- The lexer after `n` advances. -/
def after (lx : Lexer) : Nat → Lexer
  | 0 => lx
  | n + 1 => (lx.after n).advance.2

/-- Advance number `n` of the lexer, counted from 0, gives the token `t` at the place `p`. -/
def Delivers (lx : Lexer) (n : Nat) (t : Token) (p : Position) : Prop :=
  (lx.after n).advance.1 = .ok t ∧ (lx.after (n + 1)).position = p

/-- The number of tokens from number `n` on, up to the end of the text or an error. -/
def left (lx : Lexer) (n : Nat) : Nat := (lx.after n).run.tokens.length

theorem Delivers.advance_eq (h : lx.Delivers n t p) :
    (lx.after n).advance = (.ok t, lx.after (n + 1)) := Prod.ext h.1 rfl

theorem Delivers.ordinary (h : lx.Delivers n t p) : t.Ordinary := ordinary_of_advance h.advance_eq

theorem Delivers.left_of_ne (h : lx.Delivers n t p) (ht : t ≠ .eof) :
    lx.left n = lx.left (n + 1) + 1 := by
  unfold left
  rw [run_of_ok h.advance_eq, if_neg ht]
  rfl

/-- A run that has a token begins with the advance that delivers it. -/
theorem advance_of_run_cons {t : PlacedToken} {ts : List PlacedToken} (h : lx.run.tokens = t :: ts) :
    lx.Delivers 0 t.token t.pos ∧ t.token ≠ .eof ∧ lx.advance.2.run = { lx.run with tokens := ts } := by
  obtain ⟨⟨r, next⟩, hl⟩ : ∃ p, lx.advance = p := ⟨_, rfl⟩
  have hnext : lx.after 1 = next := congrArg Prod.snd hl
  cases r with
  | error e =>
    rw [run_of_error hl] at h
    cases h
  | ok u =>
    by_cases hu : u = .eof
    · rw [run_of_ok hl, if_pos hu] at h
      cases h
    · rw [run_of_ok hl, if_neg hu] at h ⊢
      obtain ⟨rfl, rfl⟩ := List.cons.inj h
      exact ⟨⟨congrArg Prod.fst hl, by rw [hnext]⟩, hu, by rw [hl]⟩

/-- The lexer after some tokens of its run has the rest of the run before it. -/
theorem run_after (h : n ≤ lx.run.tokens.length) :
    (lx.after n).run = { lx.run with tokens := lx.run.tokens.drop n } := by
  induction n with
  | zero => rfl
  | succ n ih =>
    have hrun := ih (Nat.le_of_succ_le h)
    have hcons : (lx.after n).run.tokens = lx.run.tokens[n] :: lx.run.tokens.drop (n + 1) := by
      rw [hrun]
      exact List.drop_eq_getElem_cons h
    obtain ⟨_, _, hnext⟩ := advance_of_run_cons hcons
    rw [after, hnext, hrun]

/-- The tokens of a run are delivered one by one, and then comes the end of the text or the error. -/
theorem run_delivers (lx : Lexer) :
    (∀ t, lx.run.tokens[n]? = some t → lx.Delivers n t.token t.pos ∧ t.token ≠ .eof) ∧
    (lx.after lx.run.tokens.length).advance.1 =
      match lx.run.error with
      | some e => .error e
      | none => .ok .eof := by
  constructor
  · intro t ht
    obtain ⟨hlt, rfl⟩ := List.getElem?_eq_some_iff.mp ht
    have hcons : (lx.after n).run.tokens = lx.run.tokens[n] :: lx.run.tokens.drop (n + 1) := by
      rw [run_after hlt.le]
      exact List.drop_eq_getElem_cons hlt
    obtain ⟨hdelivers, hne, _⟩ := advance_of_run_cons hcons
    exact ⟨hdelivers, hne⟩
  · have hrun := run_after (le_refl lx.run.tokens.length)
    rw [List.drop_length] at hrun
    cases hl : (lx.after lx.run.tokens.length).advance with
    | mk r next =>
    cases r with
    | error e =>
      rw [run_of_error hl] at hrun
      rw [← congrArg TokenRun.error hrun]
    | ok t =>
      rw [run_of_ok hl] at hrun
      split at hrun
      · next ht =>
        rw [← congrArg TokenRun.error hrun, ht]
      · cases congrArg TokenRun.tokens hrun

end Lexer

/-- The error names a token that was read and put back, so its place is that of the token behind. -/
def Expected.isLate : Expected → Bool
  | .token _ | .sign _ => false
  | .identifier | .operator | .sequenceLength | .expression => true

namespace Parser

/-- The token that was found is one that the lexer delivered, and the place of the error is its place
or, if the token was put back, the place of the next delivery. -/
def Locates (lx : Lexer) (expected : Expected) (found : Token) (pos : Position) : Prop :=
  ∃ n place, lx.Delivers n found place ∧
    if expected.isLate then ∃ next, lx.Delivers (n + 1) next pos else pos = place

/-- The parser fails where its lexer fails or at a token that the lexer delivered. -/
def Fails (lx : Lexer) : ParseError → Prop
  | .lexical e => ∃ n, (lx.after n).advance.1 = .error e
  | .unexpected expected found pos => Locates lx expected found pos
  | .exhausted => False

/-- The current token is delivery number `n` of the lexer, which has not failed so far, and the tokens
ahead are the next ones. -/
structure Stands (lx : Lexer) (n : Nat) (s : Parser) : Prop where
  current : lx.Delivers n s.current s.pos
  ahead : s.ahead = (lx.after (n + 1)).run
  primed : s.primed = true
  unfailed : ∀ i < n, ∃ t, (lx.after i).advance.1 = .ok t

/-- Standing on delivery number `n`, the step gives a value and stands on a delivery that satisfies `Q`
with it, or it fails as a parser may. -/
def Tracks {α : Type} (lx : Lexer) (n : Nat) (x : ParseM α) (Q : α → Nat → Prop) : Prop :=
  ∀ s, Stands lx n s → match x.run.run s with
    | (.ok a, s') => ∃ k, Stands lx k s' ∧ Q a k
    | (.error e, _) => Fails lx e

/-- The step reads at least `d` tokens of the text. -/
abbrev Spends {α : Type} (lx : Lexer) (n d : Nat) (x : ParseM α) : Prop :=
  Tracks lx n x fun _ k => lx.left k + d ≤ lx.left n

/-- The step reads at least `d` tokens of the text and gives what satisfies `Q`. -/
abbrev Gets {α : Type} (lx : Lexer) (n d : Nat) (x : ParseM α) (Q : α → Prop) : Prop :=
  Tracks lx n x fun a k => lx.left k + d ≤ lx.left n ∧ Q a

variable {α β : Type} {lx : Lexer} {n d : Nat} {x : ParseM α} {f : α → ParseM β} {P : α → Nat → Prop}
  {Q : β → Nat → Prop} {t : Token} {place : Position} {expected : Expected}

section Steps

theorem tracks_pure {b : β} (h : Q b n) : Tracks lx n (pure b) Q := fun _ hs => ⟨n, hs, h⟩

theorem Tracks.bind (hx : Tracks lx n x P) (hf : ∀ a k, P a k → Tracks lx k (f a) Q) :
    Tracks lx n (x >>= f) Q := by
  intro s hs
  have hstep := hx s hs
  cases hrun : x.run.run s with
  | mk r s' =>
    rw [hrun] at hstep
    cases r with
    | ok a =>
      obtain ⟨k, hs', hP⟩ := hstep
      rw [run_bind_ok hrun]
      exact hf a k hP s' hs'
    | error e =>
      rw [run_bind_error hrun]
      exact hstep

theorem Tracks.imp {P' : α → Nat → Prop} (hx : Tracks lx n x P) (h : ∀ a k, P a k → P' a k) :
    Tracks lx n x P' := by
  intro s hs
  have hstep := hx s hs
  cases hrun : x.run.run s with
  | mk r s' =>
    rw [hrun] at hstep
    cases r with
    | ok a =>
      obtain ⟨k, hs', hP⟩ := hstep
      exact ⟨k, hs', h a k hP⟩
    | error e => exact hstep

/-- Reading on is advancing the lexer. -/
theorem advance_run {s : Parser} {l : Lexer} (h : s.ahead = l.run) : advance.run.run s =
    match l.advance with
    | (.ok t, next) => (.ok s.current,
        { s with current := t, pos := next.position, ahead := next.run })
    | (.error e, next) => (.error (.lexical e), { s with ahead := next.run }) := by
  obtain ⟨current, pos, ahead, primed⟩ := s
  obtain rfl : ahead = l.run := h
  cases hl : l.advance with
  | mk r next =>
    cases r with
    | error e =>
      rw [Lexer.run_of_error hl]
      rfl
    | ok t =>
      rw [Lexer.run_of_ok hl]
      by_cases ht : t = .eof
      · rw [if_pos ht, ht]
        rfl
      · rw [if_neg ht]
        rfl

theorem tracks_advance :
    Tracks lx n advance fun t k => k = n + 1 ∧ ∃ place, lx.Delivers n t place := by
  intro s hs
  rw [advance_run hs.ahead]
  cases hl : (lx.after (n + 1)).advance with
  | mk r next =>
    have hnext : lx.after (n + 1 + 1) = next := congrArg Prod.snd hl
    cases r with
    | error e => exact ⟨n + 1, congrArg Prod.fst hl⟩
    | ok t =>
      refine ⟨n + 1, ⟨⟨congrArg Prod.fst hl, ?_⟩, ?_, hs.primed, fun i hi => ?_⟩, rfl, _, hs.current⟩
      · rw [hnext]
      · rw [hnext]
      · rcases Nat.lt_succ_iff_lt_or_eq.mp hi with hlt | rfl
        · exact hs.unfailed i hlt
        · exact ⟨s.current, hs.current.1⟩

theorem tracks_peek : Tracks lx n peek fun t k => k = n ∧ ∃ place, lx.Delivers n t place :=
  fun _ hs => ⟨n, hs, rfl, _, hs.current⟩

theorem tracks_unexpected (h : expected.isLate = false) :
    Tracks lx n (unexpected expected) Q := by
  intro s hs
  show Locates lx expected s.current s.pos
  refine ⟨n, s.pos, hs.current, ?_⟩
  rw [h]
  exact if_neg Bool.false_ne_true ▸ rfl

/-- A token that was read and put back is reported at the place of the token behind it. -/
theorem tracks_reject (ht : lx.Delivers n t place) (h : expected.isLate = true) :
    Tracks lx (n + 1) (reject t expected) Q := by
  intro s hs
  show Locates lx expected t s.pos
  refine ⟨n, place, ht, ?_⟩
  rw [if_pos h]
  exact ⟨s.current, hs.current⟩

theorem tracks_isAt : Tracks lx n (isAt t) fun b k =>
    k = n ∧ (b = true → ∃ place, lx.Delivers n t place) := by
  refine tracks_peek.bind fun u k hu => ?_
  obtain ⟨rfl, place, hu⟩ := hu
  refine tracks_pure ⟨rfl, fun hb => ⟨place, ?_⟩⟩
  rwa [← of_decide_eq_true hb]

/-- Reading past a token spends it. -/
theorem tracks_skipIf (t : Token) (ht : t ≠ .eof) : Tracks lx n (skipIf t) fun b k =>
    if b = true then lx.left k + 1 = lx.left n else k = n := by
  refine tracks_isAt.bind fun b k hb => ?_
  obtain ⟨rfl, hb⟩ := hb
  split
  · next hat =>
    obtain ⟨place, hat⟩ := hb hat
    refine tracks_advance.bind fun _ k hk => tracks_pure ?_
    rw [if_pos rfl, hk.1]
    exact (hat.left_of_ne ht).symm
  · exact tracks_pure (by simp)

theorem tracks_ifSkipped {yes no : ParseM β} (ht : t ≠ .eof)
    (hyes : ∀ k, lx.left k + 1 = lx.left n → Tracks lx k yes Q) (hno : Tracks lx n no Q) :
    Tracks lx n (do if ← skipIf t then yes else no) Q := by
  refine (tracks_skipIf t ht).bind fun b k hk => ?_
  split at hk
  · next hb =>
    rw [if_pos hb]
    exact hyes k hk
  · next hb =>
    rw [if_neg hb, hk]
    exact hno

theorem tracks_consume (t : Token) (ht : t ≠ .eof) (h : expected.isLate = false) :
    Spends lx n 1 (consume t expected) := by
  refine tracks_isAt.bind fun b k hb => ?_
  obtain ⟨rfl, hb⟩ := hb
  split
  · next hat =>
    obtain ⟨place, hat⟩ := hb hat
    refine tracks_advance.bind fun _ k hk => tracks_pure ?_
    rw [hk.1]
    exact (hat.left_of_ne ht).ge
  · exact tracks_unexpected h

theorem tracks_consumeToken (t : Token) (ht : t ≠ .eof) : Spends lx n 1 (consumeToken t) :=
  tracks_consume t ht rfl

theorem tracks_identifier : Gets lx n 1 identifier IsIdentifier := by
  refine tracks_advance.bind fun t k ht => ?_
  obtain ⟨rfl, place, ht⟩ := ht
  split
  · next name => exact tracks_pure ⟨(ht.left_of_ne (by simp)).ge, ht.ordinary name rfl⟩
  · exact tracks_reject ht rfl

end Steps

section Grammar

theorem tracks_consumeOperator {op : Operator} (ht : lx.Delivers n t place)
    (hop : operatorOf? t = some op) : Spends lx n 1 (consumeOperator op) := by
  have hne : t ≠ .eof := by
    rintro rfl
    cases hop
  have hleft := ht.left_of_ne hne
  refine tracks_advance.bind fun _ k hk => ?_
  obtain ⟨rfl, -⟩ := hk
  split
  · exact (tracks_consumeToken .assign (by simp)).imp fun _ _ hk => by omega
  · exact tracks_pure hleft.ge

/-- The readers of expressions with the allowance `n`. Between two tokens they call one another a
bounded number of times. -/
structure ExprTracking (lx : Lexer) (n : Nat) : Prop where
  expression : ∀ k, 8 * lx.left k + 3 ≤ n → Gets lx k 1 (expression n) Expr.Avoids
  climb : ∀ k least lhs, lhs.Avoids → 8 * lx.left k + 1 ≤ n →
    Gets lx k 0 (climb n least lhs) Expr.Avoids
  rightOperand : ∀ k op, 8 * lx.left k + 3 ≤ n → Gets lx k 1 (rightOperand n op) Expr.Avoids
  unary : ∀ k, 8 * lx.left k + 2 ≤ n → Gets lx k 1 (unary n) Expr.Avoids
  primary : ∀ k, 8 * lx.left k + 1 ≤ n → Gets lx k 1 (primary n) Expr.Avoids
  arguments : ∀ k close, close ≠ .eof → 8 * lx.left k + 5 ≤ n → Tracks lx k (arguments n close)
    fun args j => lx.left j + (args.length + 1) ≤ lx.left k ∧ ExprsAvoid args
  expressions : ∀ k, 8 * lx.left k + 4 ≤ n → Tracks lx k (expressions n)
    fun es j => lx.left j + es.length ≤ lx.left k ∧ ExprsAvoid es

theorem exprTracking (lx : Lexer) (n : Nat) : ExprTracking lx n := by
  induction n with
  | zero => constructor <;> intros <;> omega
  | succ n ih =>
    constructor
    case expression =>
      intro k hn
      refine (ih.unary k (by omega)).bind fun e j hj => ?_
      exact (ih.climb j 0 e hj.2 (by omega)).imp fun _ _ h => ⟨by omega, h.2⟩
    case climb =>
      intro k least lhs hlhs hn
      refine tracks_peek.bind fun t j ht => ?_
      obtain ⟨rfl, place, ht⟩ := ht
      split
      · exact tracks_pure ⟨le_rfl, hlhs⟩
      · next op hop =>
        split
        · exact tracks_pure ⟨le_rfl, hlhs⟩
        · refine (tracks_consumeOperator ht hop).bind fun _ i hi => ?_
          refine (ih.rightOperand i op (by omega)).bind fun rhs m hm => ?_
          exact (ih.climb m least _ (by simp [Expr.Avoids, hlhs, hm.2]) (by omega)).imp
            fun _ _ h => ⟨by omega, h.2⟩
    case rightOperand =>
      intro k op hn
      refine (ih.unary k (by omega)).bind fun e j hj => tracks_peek.bind fun t i hi => ?_
      obtain ⟨rfl, -⟩ := hi
      split
      · split
        · exact (ih.climb i _ e hj.2 (by omega)).imp fun _ _ h => ⟨by omega, h.2⟩
        · exact tracks_pure hj
      · exact tracks_pure hj
    case unary =>
      intro k hn
      refine tracks_peek.bind fun t j ht => ?_
      obtain ⟨rfl, place, ht⟩ := ht
      split
      · split
        · have hleft := ht.left_of_ne (by simp)
          refine tracks_advance.bind fun _ i hi => ?_
          obtain ⟨rfl, -⟩ := hi
          refine (ih.unary _ (by omega)).bind fun e m hm => tracks_pure ⟨by omega, ?_⟩
          simpa only [Expr.Avoids] using hm.2
        · exact ih.primary j (by omega)
      · exact ih.primary j (by omega)
    case primary =>
      intro k hn
      refine tracks_advance.bind fun t j ht => ?_
      obtain ⟨rfl, place, ht⟩ := ht
      split
      case h_1 | h_2 | h_3 | h_4 =>
        exact tracks_pure ⟨(ht.left_of_ne (by simp)).ge, by simp only [Expr.Avoids]⟩
      case h_5 name =>
        have hleft := ht.left_of_ne (by simp)
        refine tracks_ifSkipped (by simp) (fun i hi => ?_)
          (tracks_pure ⟨hleft.ge, by simp only [Expr.Avoids]⟩)
        refine (ih.arguments i .rightParen (by simp) (by omega)).bind fun args m hm => tracks_pure ?_
        have hcallee := (ht.ordinary name rfl).ne_toplevelName
        exact ⟨by omega, by simp [Expr.Avoids, hcallee, hm.2]⟩
      case h_6 =>
        have hleft := ht.left_of_ne (by simp)
        refine (ih.expression _ (by omega)).bind fun e i hi => ?_
        refine (tracks_consumeToken .rightParen (by simp)).bind fun _ m hm => tracks_pure ?_
        exact ⟨by omega, hi.2⟩
      case h_7 =>
        have hleft := ht.left_of_ne (by simp)
        split
        · refine (ih.arguments (k + 1) (.other ']') (by simp) (by omega)).bind fun args m hm => ?_
          exact tracks_pure ⟨by omega, by simpa only [Expr.Avoids] using hm.2⟩
        · exact tracks_reject ht rfl
      case h_8 => exact tracks_reject ht rfl
    case arguments =>
      intro k close hclose hn
      refine tracks_ifSkipped hclose (fun j hj => tracks_pure ⟨hj.le, by simp only [ExprsAvoid]⟩) ?_
      refine (ih.expressions k (by omega)).bind fun args j hj => ?_
      refine (tracks_consumeToken close hclose).bind fun _ i hi => tracks_pure ?_
      exact ⟨by omega, hj.2⟩
    case expressions =>
      intro k hn
      refine (ih.expression k (by omega)).bind fun e j hj => ?_
      refine tracks_ifSkipped (by simp) (fun i hi => ?_)
        (tracks_pure ⟨hj.1, by simp [ExprsAvoid, hj.2]⟩)
      refine (ih.expressions i (by omega)).bind fun es m hm => tracks_pure ?_
      rw [List.length_cons]
      exact ⟨by omega, by simp [ExprsAvoid, hj.2, hm.2]⟩

/-- The readers of statements with the allowance `n`. -/
structure StmtTracking (lx : Lexer) (n : Nat) : Prop where
  statement : ∀ k, 8 * lx.left k + 4 ≤ n → Gets lx k 1 (statement n) Stmt.Avoids
  loop : ∀ k head, head.Avoids → 8 * lx.left k + 2 ≤ n → Gets lx k 0 (loop n head) Stmt.Avoids
  elseChain : ∀ k, 8 * lx.left k + 1 ≤ n → Gets lx k 0 (elseChain n) ElseChain.Avoids
  block : ∀ k, 8 * lx.left k + 1 ≤ n → Gets lx k 1 (block n) StmtsAvoid
  statements : ∀ k, 8 * lx.left k + 5 ≤ n → Gets lx k 0 (statements n) StmtsAvoid

theorem stmtTracking (lx : Lexer) (n : Nat) : StmtTracking lx n := by
  induction n with
  | zero => constructor <;> intros <;> omega
  | succ n ih =>
    have hexpr := (exprTracking lx n).expression
    constructor
    case statement =>
      intro k hn
      refine tracks_ifSkipped (by simp) (fun j hj => ?_) (tracks_ifSkipped (by simp) (fun j hj => ?_)
        (tracks_ifSkipped (by simp) (fun j hj => ?_) ?_))
      · refine tracks_isAt.bind fun _ i hi => ?_
        obtain ⟨rfl, -⟩ := hi
        refine tracks_isAt.bind fun _ i hi => ?_
        obtain ⟨rfl, -⟩ := hi
        split
        · exact tracks_pure ⟨hj.le, by simp [Stmt.Avoids]⟩
        · refine (hexpr _ (by omega)).bind fun e m hm => tracks_pure ?_
          exact ⟨by omega, by simpa [Stmt.Avoids] using hm.2⟩
      · refine (hexpr j (by omega)).bind fun e i hi => ?_
        refine (ih.block i (by omega)).bind fun b m hm => ?_
        refine (ih.elseChain m (by omega)).bind fun c l hl => tracks_pure ?_
        exact ⟨by omega, by simp [Stmt.Avoids, hi.2, hm.2, hl.2]⟩
      · refine (hexpr j (by omega)).bind fun e i hi => ?_
        exact (ih.loop i e hi.2 (by omega)).imp fun _ _ h => ⟨by omega, h.2⟩
      · refine (hexpr k (by omega)).bind fun e j hj => tracks_pure ⟨hj.1, ?_⟩
        simpa only [Stmt.Avoids] using hj.2
    case loop =>
      intro k head hhead hn
      have hwhile : Gets lx k 0 (do return Stmt.whileLoop head (← Parser.block n)) Stmt.Avoids :=
        (ih.block k (by omega)).bind fun b j hj =>
          tracks_pure ⟨by omega, by simp [Stmt.Avoids, hhead, hj.2]⟩
      have hforIn : ∀ j index element, lx.left j + 1 ≤ lx.left k → Gets lx j 0 (do
          let sequence ← Parser.expression n
          return Stmt.forIn index element sequence (← Parser.block n)) Stmt.Avoids := by
        intro j index element hj
        refine (hexpr j (by omega)).bind fun e i hi => ?_
        refine (ih.block i (by omega)).bind fun b m hm => tracks_pure ?_
        exact ⟨by omega, by simp [Stmt.Avoids, hi.2, hm.2]⟩
      unfold Parser.loop
      split
      · refine tracks_ifSkipped (by simp) (fun j hj => ?_)
          (tracks_ifSkipped (by simp) (fun j hj => ?_) hwhile)
        · refine tracks_identifier.bind fun x i hi => ?_
          refine (tracks_consumeToken (.keyword .kwIn) (by simp)).bind fun _ m hm => ?_
          exact (hforIn m _ _ (by omega)).imp fun _ _ h => ⟨by omega, h.2⟩
        · exact (hforIn j _ _ (by omega)).imp fun _ _ h => ⟨by omega, h.2⟩
      · exact hwhile
    case elseChain =>
      intro k hn
      refine tracks_ifSkipped (by simp) (fun j hj => tracks_ifSkipped (by simp) (fun i hi => ?_) ?_)
        (tracks_pure ⟨le_rfl, by simp only [ElseChain.Avoids]⟩)
      · refine (hexpr i (by omega)).bind fun e m hm => ?_
        refine (ih.block m (by omega)).bind fun b l hl => ?_
        refine (ih.elseChain l (by omega)).bind fun c r hr => tracks_pure ?_
        exact ⟨by omega, by simp [ElseChain.Avoids, hm.2, hl.2, hr.2]⟩
      · refine (ih.block j (by omega)).bind fun b i hi => tracks_pure ⟨by omega, ?_⟩
        simpa only [ElseChain.Avoids] using hi.2
    case block =>
      intro k hn
      refine (tracks_consumeToken .leftBrace (by simp)).bind fun _ j hj => ?_
      refine (ih.statements j (by omega)).bind fun b i hi => ?_
      refine (tracks_consumeToken .rightBrace (by simp)).bind fun _ m hm => tracks_pure ?_
      exact ⟨by omega, hi.2⟩
    case statements =>
      intro k hn
      refine tracks_isAt.bind fun _ j hj => ?_
      obtain ⟨rfl, -⟩ := hj
      split
      · exact tracks_pure ⟨le_rfl, by simp only [StmtsAvoid]⟩
      · refine tracks_isAt.bind fun _ i hi => ?_
        obtain ⟨rfl, -⟩ := hi
        split
        · exact tracks_unexpected rfl
        · refine (ih.statement _ (by omega)).bind fun s m hm => ?_
          refine (ih.statements m (by omega)).bind fun ss l hl => tracks_pure ?_
          exact ⟨by omega, by simp [StmtsAvoid, hm.2, hl.2]⟩

theorem tracks_typeName : Spends lx n 1 typeName := by
  refine tracks_identifier.bind fun name k hk => ?_
  refine tracks_ifSkipped (by simp) (fun j hj => ?_) (tracks_pure hk.1)
  refine tracks_advance.bind fun t i ht => ?_
  obtain ⟨rfl, place, ht⟩ := ht
  split
  · have hleft := ht.left_of_ne (by simp)
    split
    · refine (tracks_consume (.other ']') (by simp) rfl).bind fun _ m hm => tracks_pure ?_
      omega
    · exact tracks_reject ht rfl
  · exact tracks_reject ht rfl

theorem tracks_definedOperator : Spends lx n 1 definedOperator := by
  refine tracks_advance.bind fun t k ht => ?_
  obtain ⟨rfl, place, ht⟩ := ht
  split
  · exact tracks_pure (ht.left_of_ne (by simp)).ge
  · have hleft := ht.left_of_ne (by simp)
    refine tracks_isAt.bind fun b k hk => ?_
    obtain ⟨rfl, hb⟩ := hk
    split
    · next hsign =>
      obtain ⟨place, hassign⟩ := hb (Bool.and_eq_true_iff.mp hsign).2
      have hnext := hassign.left_of_ne (by simp)
      refine tracks_advance.bind fun _ k hk => tracks_pure ?_
      rw [hk.1]
      omega
    · split
      · exact tracks_pure hleft.ge
      · exact tracks_reject ht rfl
  · exact tracks_reject ht rfl

theorem tracks_functionName : Gets lx n 1 functionName (· ≠ toplevelName) := by
  refine tracks_identifier.bind fun name k hk => ?_
  refine tracks_isAt.bind fun b j hj => ?_
  obtain ⟨rfl, -⟩ := hj
  split
  · next hword =>
    refine tracks_definedOperator.bind fun op i hi => tracks_pure ⟨by omega, fun heq => ?_⟩
    have hlist := congrArg String.toList heq
    simp only [Bool.and_eq_true, Bool.or_eq_true, decide_eq_true_eq] at hword
    rcases hword.1 with rfl | rfl <;> simp [toplevelName] at hlist
  · exact tracks_pure ⟨hk.1, hk.2.ne_toplevelName⟩

theorem tracks_params (n : Nat) (k : Nat) (hn : 8 * lx.left k + 1 ≤ n) :
    Gets lx k 1 (params n) (∀ p ∈ ·, IsIdentifier p.name) := by
  induction n generalizing k with
  | zero => omega
  | succ n ih =>
    refine tracks_identifier.bind fun name j hj => tracks_typeName.bind fun type i hi => ?_
    refine tracks_ifSkipped (by simp) (fun m hm => ?_)
      (tracks_pure ⟨by omega, List.forall_mem_singleton.mpr hj.2⟩)
    refine (ih m (by omega)).bind fun ps l hl => tracks_pure ?_
    exact ⟨by omega, List.forall_mem_cons.mpr ⟨hj.2, hl.2⟩⟩

theorem tracks_prototype {k : Nat} (hn : 8 * lx.left k + 1 ≤ n) :
    Gets lx k 1 (prototype n) fun proto => proto.name ≠ toplevelName ∧
      ∀ p ∈ proto.params, IsIdentifier p.name := by
  refine tracks_functionName.bind fun name j hj => ?_
  have hparams : Gets lx j 0 (paramList n) (∀ p ∈ ·, IsIdentifier p.name) := by
    refine (tracks_consumeToken .leftParen (by simp)).bind fun _ i hi => ?_
    refine tracks_ifSkipped (by simp) (fun m hm => tracks_pure ⟨by omega, by simp⟩) ?_
    refine (tracks_params n i (by omega)).bind fun ps m hm => ?_
    refine (tracks_consumeToken .rightParen (by simp)).bind fun _ l hl => tracks_pure ?_
    exact ⟨by omega, hm.2⟩
  refine hparams.bind fun ps i hi => tracks_peek.bind fun t m hm => ?_
  obtain ⟨rfl, -⟩ := hm
  split
  · refine tracks_typeName.bind fun type l hl => tracks_pure ?_
    exact ⟨by omega, hj.2, hi.2⟩
  · exact tracks_pure ⟨by omega, hj.2, hi.2⟩

/-- An item takes a token, and there is none only at the end of the text. -/
theorem tracks_item {k : Nat} (hn : 8 * lx.left k + 4 ≤ n) :
    Tracks lx k (item n) fun r j => lx.left j + r.toList.length ≤ lx.left k ∧
      (r = none → ∃ place, lx.Delivers j .eof place) ∧ ∀ i, r = some i → ItemRead i := by
  refine tracks_peek.bind fun t j ht => ?_
  obtain ⟨rfl, place, ht⟩ := ht
  split
  · exact tracks_pure ⟨le_rfl, fun _ => ⟨place, ht⟩, by simp⟩
  · have hleft := ht.left_of_ne (by simp)
    refine tracks_advance.bind fun _ i hi => ?_
    obtain ⟨rfl, -⟩ := hi
    refine (tracks_prototype (by omega)).bind fun p m hm => ?_
    refine ((stmtTracking lx n).block m (by omega)).bind fun b l hl => tracks_pure ?_
    refine ⟨by simp; omega, by simp, ?_⟩
    rintro _ ⟨⟩
    exact ⟨⟨hm.2.1, hl.2⟩, fun _ hp => Option.some.inj hp ▸ hm.2.2⟩
  · have hleft := ht.left_of_ne (by simp)
    refine tracks_advance.bind fun _ i hi => ?_
    obtain ⟨rfl, -⟩ := hi
    refine (tracks_skipIf (.keyword .kwFun) (by simp)).bind fun b i hi => ?_
    have hi : lx.left i ≤ lx.left (j + 1) := by split at hi <;> grind
    refine (tracks_prototype (by omega)).bind fun p m hm => tracks_pure ?_
    refine ⟨by simp; omega, by simp, ?_⟩
    rintro _ ⟨⟩
    exact ⟨hm.2.1, fun _ hp => Option.some.inj hp ▸ hm.2.2⟩
  · refine ((stmtTracking lx n).statement _ (by omega)).bind fun s m hm => tracks_pure ?_
    refine ⟨hm.1, by simp, ?_⟩
    rintro _ ⟨⟩
    exact ⟨hm.2, fun _ hp => by cases hp⟩

end Grammar

section Items

variable {s : Parser}

/-- A parser over the lexer that has read some items and has not failed. -/
inductive Unfailed (lx : Lexer) : Parser → Prop
  | start : Unfailed lx (ofLexer lx)
  | next {s s' : Parser} {r : Option Item} (hs : Unfailed lx s) (h : s.nextItem = (.ok r, s')) :
    Unfailed lx s'

/-- A parser that has not failed has read no token yet, or it stands on one. -/
def Ready (lx : Lexer) (s : Parser) : Prop := s = ofLexer lx ∨ ∃ n, Stands lx n s

/-- A run of the parser ends standing on a delivery, or it fails as a parser may. -/
def Ends (lx : Lexer) {α : Type} : Except ParseError α × Parser → Prop
  | (.ok _, s) => ∃ n, Stands lx n s
  | (.error e, _) => Fails lx e

/-- The parser is about to read delivery number `n`, its first one, or stands on it. -/
def Faces (lx : Lexer) (n : Nat) (s : Parser) : Prop := n = 0 ∧ s = ofLexer lx ∨ Stands lx n s

theorem prime_tracks (h : Faces lx n s) :
    match prime.run.run s with
    | (.ok _, s') => Stands lx n s'
    | (.error e, _) => Fails lx e := by
  rcases h with ⟨rfl, rfl⟩ | hs
  · have hprime : prime.run.run (ofLexer lx) =
        (advance >>= fun _ => pure ()).run.run { ofLexer lx with primed := true } := rfl
    have hadvance := advance_run (s := { ofLexer lx with primed := true }) (l := lx) rfl
    cases hl : lx.advance with
    | mk r next =>
      rw [hl] at hadvance
      cases r with
      | error e =>
        rw [hprime, run_bind_error hadvance]
        exact ⟨0, congrArg Prod.fst hl⟩
      | ok t =>
        rw [hprime, run_bind_ok hadvance]
        have hnext : lx.after 1 = next := congrArg Prod.snd hl
        refine ⟨⟨congrArg Prod.fst hl, ?_⟩, ?_, rfl, fun i hi => absurd hi (Nat.not_lt_zero i)⟩
        · rw [hnext]
        · rw [hnext]
  · have hprime : prime.run.run s = (.ok (), s) := by
      have hprimed := hs.primed
      obtain ⟨current, pos, ahead, primed⟩ := s
      subst hprimed
      rfl
    rw [hprime]
    exact hs

/-- What is left may be one token more than what is ahead, and the allowance covers it. -/
theorem Stands.le_allowance (hs : Stands lx n s) : 8 * lx.left n + 4 ≤ allowance s := by
  have hahead : s.ahead.tokens.length = lx.left (n + 1) := congrArg (·.tokens.length) hs.ahead
  have hleft : lx.left n ≤ lx.left (n + 1) + 1 := by
    by_cases heof : s.current = .eof
    · have hzero : lx.left n = 0 := by
        unfold Lexer.left
        rw [Lexer.run_of_ok hs.current.advance_eq, if_pos heof]
        rfl
      omega
    · exact (hs.current.left_of_ne heof).le
  unfold allowance
  omega

/-- Reading an item takes one token at least, and there is no item only at the end of the text. -/
theorem nextItem_tracks (h : Faces lx n s) :
    match s.nextItem with
    | (.ok r, s') => ∃ k, Stands lx k s' ∧ lx.left k + r.toList.length ≤ lx.left n ∧
        (r = none → ∃ place, lx.Delivers k .eof place) ∧ ∀ i, r = some i → ItemRead i
    | (.error e, _) => Fails lx e := by
  have hprime := prime_tracks h
  unfold nextItem
  cases hrun : prime.run.run s with
  | mk r s1 =>
    rw [hrun] at hprime
    cases r with
    | error e =>
      rw [run_bind_error hrun]
      exact hprime
    | ok u =>
      rw [run_bind_ok hrun, run_bind_ok (yields_get.mpr ⟨rfl, rfl⟩)]
      have hitem := tracks_item (Stands.le_allowance hprime) s1 hprime
      cases hread : (item (allowance s1)).run.run s1 with
      | mk r s2 =>
        rw [hread] at hitem
        cases r <;> exact hitem

theorem itemRead_of_items (h : Faces lx n s) {k : Nat} : ∀ item ∈ (items k s).1, ItemRead item := by
  induction k generalizing n s with
  | zero => simp [items]
  | succ k ih =>
    have hitem := nextItem_tracks h
    unfold items
    cases hnext : s.nextItem with
    | mk r s' =>
    rw [hnext] at hitem
    rcases r with e | _ | i
    · simp
    · simp
    · obtain ⟨j, hs', -, -, hread⟩ := hitem
      exact List.forall_mem_cons.mpr ⟨hread i rfl, ih (.inr hs')⟩

theorem itemRead_of_parse {items : List Item} (h : (ofLexer lx).parse = .ok items) :
    ∀ item ∈ items, ItemRead item := by
  have hfaces : Faces lx 0 (ofLexer lx) := .inl ⟨rfl, rfl⟩
  have hitems := itemRead_of_items hfaces (k := (ofLexer lx).ahead.tokens.length + 2)
  unfold parse program at h
  split at h
  · next hrun =>
    cases h
    rwa [hrun] at hitems
  · cases h

/-- What is read neither declares nor calls the function of the statements outside of functions. -/
theorem avoids_of_parse {items : List Item} (h : (ofLexer lx).parse = .ok items) :
    ∀ item ∈ items, item.Avoids := fun item hitem => (itemRead_of_parse h item hitem).avoids

theorem nextItem_ends (h : Ready lx s) : Ends lx s.nextItem := by
  have hfaces : ∃ n, Faces lx n s := h.elim (fun hs => ⟨0, .inl ⟨rfl, hs⟩⟩)
    fun ⟨n, hs⟩ => ⟨n, .inr hs⟩
  obtain ⟨n, hfaces⟩ := hfaces
  have hitem := nextItem_tracks hfaces
  split at hitem
  · next heq =>
    obtain ⟨k, hk, -⟩ := hitem
    rw [heq]
    exact ⟨k, hk⟩
  · next heq =>
    rw [heq]
    exact hitem

theorem Unfailed.ready (h : Unfailed lx s) : Ready lx s := by
  induction h with
  | start => exact .inl rfl
  | next _ h ih =>
    have hends := nextItem_ends ih
    rw [h] at hends
    exact .inr hends

/-- Where the parser fails: with the lexer's own error, or at a token of the text. A token that was
only looked at is reported at its place. A token that was read and put back (where a name, an operator,
a sequence length or an expression should stand) is reported at the place of the token behind it. -/
theorem nextItem_locates {e : ParseError} (hs : Unfailed lx s) (he : s.nextItem.1 = .error e) :
    Fails lx e := by
  have hends := nextItem_ends hs.ready
  obtain ⟨⟨r, s'⟩, hrun⟩ : ∃ p, s.nextItem = p := ⟨_, rfl⟩
  rw [hrun] at he hends
  cases he
  exact hends

/-- A declaration whose name is a number. -/
def numberNamed : Lexer := .ofSource (.ofString "fun 1 2") {}

theorem numberNamed_locates : Unfailed numberNamed (ofLexer numberNamed) ∧
    (ofLexer numberNamed).nextItem.1 =
      .error (.unexpected .identifier (.number (.int 1)) ⟨1, 7⟩) ∧
    Fails numberNamed (.unexpected .identifier (.number (.int 1)) ⟨1, 7⟩) := by
  have he : (ofLexer numberNamed).nextItem.1 =
      .error (.unexpected .identifier (.number (.int 1)) ⟨1, 7⟩) := by with_unfolding_all rfl
  exact ⟨.start, he, nextItem_locates .start he⟩

/-- The number is reported in column 7, where the next token stands; it stands in column 5. -/
theorem nextItem_misplaces : (ofLexer numberNamed).nextItem.1 =
      .error (.unexpected .identifier (.number (.int 1)) ⟨1, 7⟩) ∧
    numberNamed.run.tokens = [⟨.keyword .kwFun, ⟨1, 1⟩⟩, ⟨.number (.int 1), ⟨1, 5⟩⟩,
      ⟨.number (.int 2), ⟨1, 7⟩⟩] := ⟨by with_unfolding_all rfl, by decide +kernel⟩

end Items

end Parser

end SsaCompiler
