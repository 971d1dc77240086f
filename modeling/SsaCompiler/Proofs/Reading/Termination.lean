import SsaCompiler.Proofs.Reading.Composition
import SsaCompiler.Proofs.Reading.Tracking

/-!
Parsing comes to an end. A larger allowance for nested calls makes no difference once one has
sufficed, and the one that is taken suffices, since between two tokens the readers call one another a
bounded number of times. Every item, statement and expression takes tokens from the text, so a text
has no more items than tokens.
-/
namespace SsaCompiler

namespace Lexer

variable {lx : Lexer} {n : Nat}

theorem chars_of_scan_eof {cur : Cursor} (h : lx.scan = ⟨.ok .eof, cur⟩) : cur.chars = [] := by
  obtain ⟨_, c1, -, h⟩ := Scan.andThen_eq_ok h
  obtain ⟨_, c2, -, h⟩ := Scan.andThen_eq_ok h
  split at h
  · next hnil =>
    cases h
    exact hnil
  · exact (scanLexeme_eof h).2

/-- Behind the end of the text there is only the end of the text. -/
theorem advance_behind_eof (h : lx.advance.1 = .ok .eof) : lx.advance.2.advance.1 = .ok .eof := by
  cases hscan : lx.scan with
  | mk outcome cur =>
  cases outcome with
  | error e =>
    rw [advance_failed hscan] at h
    cases h
  | ok t =>
    rw [advance_of_scan hscan] at h ⊢
    obtain rfl : t = .eof := Except.ok.inj h
    obtain ⟨chars, pos, mark⟩ := cur
    obtain rfl : chars = [] := chars_of_scan_eof hscan
    rfl

/-- While the lexer does not fail, every advance takes a token off its run, if there is one. -/
theorem run_tokens_after (h : ∀ i < n, ∃ t, (lx.after i).advance.1 = .ok t) :
    (lx.after n).run.tokens = lx.run.tokens.drop n := by
  induction n with
  | zero => rfl
  | succ n ih =>
    have hrest := ih fun i hi => h i (hi.trans n.lt_succ_self)
    obtain ⟨t, ht⟩ := h n n.lt_succ_self
    have htail : (lx.after (n + 1)).run.tokens = (lx.after n).run.tokens.tail := by
      rw [run_of_ok (Prod.ext ht rfl)]
      split
      · next heof =>
        subst heof
        rw [after, run_of_ok (Prod.ext (advance_behind_eof ht) rfl), if_pos rfl]
        rfl
      · rfl
    rw [htail, hrest, List.tail_drop]

theorem ne_eof_of_mem_run {t : PlacedToken} (h : t ∈ lx.run.tokens) : t.token ≠ .eof := by
  obtain ⟨i, hi⟩ := List.mem_iff_getElem?.mp h
  exact (lx.run_delivers.1 t hi).2

end Lexer

namespace Parser

variable {α β : Type} {lx : Lexer} {n m k j d : Nat} {s s' : Parser}

section Allowances

/-- Where the first step does not run out of its allowance, the second one does the same. -/
def Stretches (x y : ParseM α) : Prop :=
  ∀ s, (x.run.run s).1 ≠ .error .exhausted → y.run.run s = x.run.run s

theorem Stretches.refl (x : ParseM α) : Stretches x x := fun _ _ => rfl

theorem Stretches.trans {x y z : ParseM α} (h : Stretches x y) (h' : Stretches y z) :
    Stretches x z := by
  intro s hs
  have hy := h s hs
  rw [h' s (hy ▸ hs), hy]

theorem stretches_exhausted (y : ParseM α) : Stretches (throw .exhausted) y :=
  fun _ h => absurd rfl h

theorem Stretches.bind {x x' : ParseM α} {f f' : α → ParseM β} (hx : Stretches x x')
    (hf : ∀ a, Stretches (f a) (f' a)) : Stretches (x >>= f) (x' >>= f') := by
  intro s h
  have hstep := hx s
  cases hrun : x.run.run s with
  | mk r s1 =>
    rw [hrun] at hstep
    cases r with
    | error e =>
      rw [run_bind_error hrun] at h ⊢
      exact run_bind_error (hstep (by simpa using h))
    | ok a =>
      rw [run_bind_ok hrun] at h ⊢
      rw [run_bind_ok (hstep (by simp))]
      exact hf a s1 h

theorem Stretches.ite {p : Prop} [Decidable p] {x x' y y' : ParseM α} (hx : Stretches x x')
    (hy : Stretches y y') : Stretches (if p then x else y) (if p then x' else y') := by
  split
  · exact hx
  · exact hy

theorem Stretches.of_le {x : Nat → ParseM α} (h : ∀ n, Stretches (x n) (x (n + 1))) (hle : n ≤ m) :
    Stretches (x n) (x m) := by
  induction hle with
  | refl => exact .refl _
  | step _ ih => exact ih.trans (h _)

/-- The readers of expressions do the same with more allowance. -/
structure ExprStretching (n : Nat) : Prop where
  expression : Stretches (expression n) (expression (n + 1))
  climb : ∀ least lhs, Stretches (climb n least lhs) (climb (n + 1) least lhs)
  rightOperand : ∀ op, Stretches (rightOperand n op) (rightOperand (n + 1) op)
  unary : Stretches (unary n) (unary (n + 1))
  primary : Stretches (primary n) (primary (n + 1))
  arguments : ∀ close, Stretches (arguments n close) (arguments (n + 1) close)
  expressions : Stretches (expressions n) (expressions (n + 1))

theorem exprStretching (n : Nat) : ExprStretching n := by
  induction n with
  | zero => constructor <;> intros <;> exact stretches_exhausted _
  | succ n ih =>
    constructor
    case expression => exact ih.unary.bind fun e => ih.climb 0 e
    case climb =>
      intro least lhs
      refine .bind (.refl peek) fun t => ?_
      cases operatorOf? t with
      | none => exact .refl _
      | some op =>
        refine .ite (.refl _) (.bind (.refl (consumeOperator op)) fun _ => ?_)
        exact (ih.rightOperand op).bind fun rhs => ih.climb least _
    case rightOperand =>
      intro op
      refine ih.unary.bind fun e => .bind (.refl peek) fun t => ?_
      cases operatorOf? t with
      | none => exact .refl _
      | some next => exact .ite (ih.climb _ e) (.refl _)
    case unary =>
      refine .bind (.refl peek) fun t => ?_
      cases t with
      | other c =>
        exact .ite (.bind (.refl advance) fun _ => ih.unary.bind fun e => .refl _) ih.primary
      | _ => exact ih.primary
    case primary =>
      refine .bind (.refl advance) fun t => ?_
      cases t with
      | identifier name =>
        exact .bind (.refl (skipIf .leftParen)) fun _ =>
          .ite ((ih.arguments _).bind fun _ => .refl _) (.refl _)
      | leftParen => exact ih.expression.bind fun e => .refl _
      | keyword w => cases w <;> exact .refl _
      | other c => exact .ite ((ih.arguments _).bind fun _ => .refl _) (.refl _)
      | _ => exact .refl _
    case arguments =>
      intro close
      exact .bind (.refl (skipIf close)) fun _ =>
        .ite (.refl _) (ih.expressions.bind fun args => .refl _)
    case expressions =>
      exact ih.expression.bind fun e => .bind (.refl (skipIf (.other ','))) fun _ =>
        .ite (ih.expressions.bind fun es => .refl _) (.refl _)

/-- The readers of statements do the same with more allowance. -/
structure StmtStretching (n : Nat) : Prop where
  statement : Stretches (statement n) (statement (n + 1))
  loop : ∀ head, Stretches (loop n head) (loop (n + 1) head)
  elseChain : Stretches (elseChain n) (elseChain (n + 1))
  block : Stretches (block n) (block (n + 1))
  statements : Stretches (statements n) (statements (n + 1))

theorem stmtStretching (n : Nat) : StmtStretching n := by
  induction n with
  | zero => constructor <;> intros <;> exact stretches_exhausted _
  | succ n ih =>
    have hexpr := (exprStretching n).expression
    constructor
    case statement =>
      refine .bind (.refl (skipIf _)) fun _ => .ite ?_ (.bind (.refl (skipIf _)) fun _ => .ite ?_
        (.bind (.refl (skipIf _)) fun _ => .ite ?_ ?_))
      · exact .bind (.refl (isAt _)) fun _ => .bind (.refl (isAt _)) fun _ =>
          .ite (.refl _) (hexpr.bind fun e => .refl _)
      · exact hexpr.bind fun e => ih.block.bind fun b => ih.elseChain.bind fun c => .refl _
      · exact hexpr.bind fun e => ih.loop e
      · exact hexpr.bind fun e => .refl _
    case loop =>
      intro head
      cases head with
      | «variable» first =>
        refine .bind (.refl (skipIf _)) fun _ => .ite ?_
          (.bind (.refl (skipIf _)) fun _ => .ite ?_ ?_)
        · exact .bind (.refl identifier) fun x => .bind (.refl (consumeToken _)) fun _ =>
            hexpr.bind fun e => ih.block.bind fun b => .refl _
        · exact hexpr.bind fun e => ih.block.bind fun b => .refl _
        · exact ih.block.bind fun b => .refl _
      | _ => exact ih.block.bind fun b => .refl _
    case elseChain =>
      refine .bind (.refl (skipIf _)) fun _ => .ite (.bind (.refl (skipIf _)) fun _ => .ite ?_ ?_)
        (.refl _)
      · exact hexpr.bind fun e => ih.block.bind fun b => ih.elseChain.bind fun c => .refl _
      · exact ih.block.bind fun b => .refl _
    case block =>
      exact .bind (.refl (consumeToken _)) fun _ => ih.statements.bind fun b => .refl _
    case statements =>
      exact .bind (.refl (isAt _)) fun _ => .ite (.refl _) (.bind (.refl (isAt _)) fun _ =>
        .ite (.refl _) (ih.statement.bind fun s => ih.statements.bind fun ss => .refl _))

theorem stretches_params (n : Nat) : Stretches (params n) (params (n + 1)) := by
  induction n with
  | zero => exact stretches_exhausted _
  | succ n ih =>
    exact .bind (.refl identifier) fun name => .bind (.refl typeName) fun type =>
      .bind (.refl (skipIf _)) fun _ => .ite (ih.bind fun ps => .refl _) (.refl _)

theorem stretches_prototype (n : Nat) : Stretches (prototype n) (prototype (n + 1)) := by
  refine .bind (.refl functionName) fun name => .bind (.bind (.refl (consumeToken _)) fun _ => ?_)
    fun ps => .refl _
  exact .bind (.refl (skipIf _)) fun _ =>
    .ite (.refl _) ((stretches_params n).bind fun _ => .refl _)

theorem stretches_item (n : Nat) : Stretches (item n) (item (n + 1)) := by
  refine .bind (.refl peek) fun t => ?_
  have hstatement : Stretches (do return some (Item.statement (← statement n)))
      (do return some (Item.statement (← statement (n + 1)))) :=
    (stmtStretching n).statement.bind fun stmt => .refl _
  cases t with
  | eof => exact .refl _
  | atSign =>
    exact .bind (.refl advance) fun _ => .bind (.refl (skipIf _)) fun _ =>
      (stretches_prototype n).bind fun p => .refl _
  | keyword w =>
    cases w with
    | kwFun =>
      exact .bind (.refl advance) fun _ => (stretches_prototype n).bind fun p =>
        (stmtStretching n).block.bind fun b => .refl _
    | _ => exact hstatement
  | _ => exact hstatement

/-- What a reader leaves with any allowance, it leaves with one that suffices. -/
theorem tracks_of_yields {x : Nat → ParseM α} {least : Nat} {a : α} {Q : α → Nat → Prop}
    (hx : ∀ n, Stretches (x n) (x (n + 1))) (htracks : ∀ m, least ≤ m → Tracks lx k (x m) Q)
    (hs : Stands lx k s) (h : Yields (x n) s a s') : ∃ j, Stands lx j s' ∧ Q a j := by
  have hrun : (x n).run.run s = (.ok a, s') := h
  -- The readers are tracked only from some allowance on, so the run is repeated with one that large.
  have hlarge : (x (max n least)).run.run s = (.ok a, s') := by
    rw [Stretches.of_le hx (le_max_left n least) s (by simp [hrun]), hrun]
  have hstep := htracks _ (le_max_right n least) s hs
  rwa [hlarge] at hstep

end Allowances

section Progress

/-- The tokens from the current one on, up to the end of the text or an error. -/
def unread (s : Parser) : List Token :=
  if s.current = .eof then [] else s.current :: s.ahead.tokens.map (·.token)

/-- Between the two states, at least `d` tokens of the text were read. -/
def Consumes (d : Nat) (s s' : Parser) : Prop :=
  ∃ used : List Token, d ≤ used.length ∧ .eof ∉ used ∧ s.unread = used ++ s'.unread

theorem Stands.unread_eq (hs : Stands lx k s) :
    s.unread = (lx.run.tokens.drop k).map (·.token) := by
  rw [← Lexer.run_tokens_after hs.unfailed, Lexer.run_of_ok hs.current.advance_eq]
  unfold unread
  rw [hs.ahead]
  split <;> rfl

theorem Stands.left_eq (hs : Stands lx k s) : lx.left k = lx.run.tokens.length - k := by
  unfold Lexer.left
  rw [Lexer.run_tokens_after hs.unfailed, List.length_drop]

/-- A parser that has fewer tokens left has read those that the text has in between. -/
theorem Stands.consumes (hs : Stands lx k s) (hs' : Stands lx j s') (hd : 0 < d)
    (h : lx.left j + d ≤ lx.left k) : s.Consumes d s' := by
  rw [hs.left_eq, hs'.left_eq] at h
  -- Behind the last token `left` is 0 throughout, so only a positive `d` puts the places in order.
  have hle : k ≤ j := by omega
  refine ⟨((lx.run.tokens.drop k).take (j - k)).map (·.token), ?_, ?_, ?_⟩
  · rw [List.length_map, List.length_take, List.length_drop]
    omega
  · intro hmem
    obtain ⟨t, ht, heof⟩ := List.mem_map.mp hmem
    exact Lexer.ne_eof_of_mem_run (List.mem_of_mem_drop (List.mem_of_mem_take ht)) heof
  · have hrest : lx.run.tokens.drop j = (lx.run.tokens.drop k).drop (j - k) := by
      rw [List.drop_drop, Nat.add_sub_cancel' hle]
    rw [hs.unread_eq, hs'.unread_eq, hrest, ← List.map_append, List.take_append_drop]

/-- Whatever is read from here takes tokens of the text, an expression in a list one for itself. -/
structure Progresses (s : Parser) : Prop where
  item : ∀ n i s', Yields (item n) s (some i) s' → s.Consumes 1 s'
  statement : ∀ n stmt s', Yields (statement n) s stmt s' → s.Consumes 1 s'
  expression : ∀ n e s', Yields (expression n) s e s' → s.Consumes 1 s'
  arguments : ∀ n close args s', close ≠ .eof → Yields (arguments n close) s args s' →
    s.Consumes (args.length + 1) s'

theorem Stands.progresses (hs : Stands lx k s) : Progresses s where
  item n i s' h := by
    obtain ⟨j, hs', hleft, -⟩ := tracks_of_yields stretches_item (fun _ => tracks_item) hs h
    exact hs.consumes hs' Nat.one_pos hleft
  statement n stmt s' h := by
    obtain ⟨j, hs', hleft, -⟩ := tracks_of_yields (fun n => (stmtStretching n).statement)
      (fun m => (stmtTracking lx m).statement k) hs h
    exact hs.consumes hs' Nat.one_pos hleft
  expression n e s' h := by
    obtain ⟨j, hs', hleft, -⟩ := tracks_of_yields (fun n => (exprStretching n).expression)
      (fun m => (exprTracking lx m).expression k) hs h
    exact hs.consumes hs' Nat.one_pos hleft
  arguments n close args s' hclose h := by
    obtain ⟨j, hs', hleft, -⟩ := tracks_of_yields (fun n => (exprStretching n).arguments close)
      (fun m => (exprTracking lx m).arguments k close hclose) hs h
    exact hs.consumes hs' (Nat.succ_pos _) hleft

/-- Reading an item comes to an end that does not depend on the allowance. -/
def Completes (s : Parser) : Prop :=
  ∃ p, p.1 ≠ .error .exhausted ∧ ∀ n, allowance s ≤ n → (item n).run.run s = p

theorem Stands.completes (hs : Stands lx k s) : Completes s := by
  have hitem := tracks_item hs.le_allowance s hs
  have hend : ((item (allowance s)).run.run s).1 ≠ .error .exhausted := by
    intro h
    split at hitem
    · next heq =>
      rw [heq] at h
      cases h
    · next heq =>
      rw [heq] at h
      cases h
      exact hitem
  exact ⟨_, hend, fun n hn => Stretches.of_le stretches_item hn s hend⟩

end Progress

section Items

/-- Reading one item after the other ends, at the end of the text or with an error. -/
inductive Finishes : Parser → List Item × Option ParseError → Prop
  | ended {s s' : Parser} (h : s.nextItem = (.ok none, s')) : Finishes s ([], none)
  | failed {s s' : Parser} {e : ParseError} (h : s.nextItem = (.error e, s')) :
    Finishes s ([], some e)
  | item {s s' : Parser} {i : Item} {rest : List Item × Option ParseError}
    (h : s.nextItem = (.ok (some i), s')) (hrest : Finishes s' rest) :
    Finishes s (i :: rest.1, rest.2)

/-- At the end of the text the lexer has come through all of it. -/
theorem Stands.run_ended (hs : Stands lx k s) (h : (lx.after k).advance.1 = .ok .eof) :
    lx.run.error = none := by
  have hlast := (lx.run_delivers (n := 0)).2
  have hle : lx.run.tokens.length ≤ k := by
    have hrun := Lexer.run_tokens_after hs.unfailed
    rw [Lexer.run_of_ok (Prod.ext h rfl), if_pos rfl] at hrun
    exact List.drop_eq_nil_iff.mp hrun.symm
  have hok : ∃ t, (lx.after lx.run.tokens.length).advance.1 = .ok t := by
    rcases hle.lt_or_eq with hlt | heq
    · exact hs.unfailed _ hlt
    · rw [heq]
      exact ⟨_, h⟩
  obtain ⟨t, ht⟩ := hok
  rw [ht] at hlast
  cases herr : lx.run.error with
  | none => rfl
  | some e =>
    rw [herr] at hlast
    cases hlast

/-- A bound on the items that exceeds the tokens left is not met, and each item takes a token. -/
theorem items_finishes (h : Faces lx k s) (hn : lx.left k < n) :
    Finishes s (items n s) ∧ (items n s).1.length ≤ lx.left k ∧
      match (items n s).2 with
      | some e => Fails lx e
      | none => lx.run.error = none := by
  induction n generalizing k s with
  | zero => omega
  | succ n ih =>
    have hitem := nextItem_tracks h
    unfold items
    cases hnext : s.nextItem with
    | mk r s' =>
    rw [hnext] at hitem
    rcases r with e | i?
    · exact ⟨.failed hnext, Nat.zero_le _, hitem⟩
    · obtain ⟨j, hs', hleft, hend, -⟩ := hitem
      cases i? with
      | none =>
        obtain ⟨place, heof⟩ := hend rfl
        exact ⟨.ended hnext, Nat.zero_le _, hs'.run_ended heof.1⟩
      | some i =>
        have hlt : lx.left j + 1 ≤ lx.left k := hleft
        obtain ⟨hfin, hlength, hresult⟩ := ih (.inr hs') (by omega)
        refine ⟨.item hnext hfin, ?_, hresult⟩
        rw [List.length_cons]
        omega

/-- For every text and all settings of the lexer, reading the items comes to an end. If that is an
error, it is the lexer's own or it is one at a token of the text, and there are no more items than
tokens. Wherever the parser stands, every allowance from the one it takes on reads the same item or
fails alike, and every item, statement, expression and argument takes tokens other than the end of
the text. -/
theorem parse_terminates (bytes : List UInt8) (o : LexOptions) :
    let lx := Lexer.ofSource (.ofBytes bytes) o
    Finishes (ofLexer lx) (ofLexer lx).program ∧
    (ofLexer lx).program.1.length ≤ lx.run.tokens.length ∧
    (match (ofLexer lx).parse with
      | .ok items => ∃ ts, lx.tokens = .ok ts ∧ items.length ≤ ts.length
      | .error e => Fails lx e) ∧
    ∀ k s, Stands lx k s → Completes s ∧ Progresses s := by
  intro lx
  obtain ⟨hfin, hlength, hresult⟩ : Finishes (ofLexer lx) (ofLexer lx).program ∧
      (ofLexer lx).program.1.length ≤ lx.run.tokens.length ∧ _ :=
    items_finishes (.inl ⟨rfl, rfl⟩) (Nat.lt_add_of_pos_right Nat.two_pos)
  refine ⟨hfin, hlength, ?_, fun k s hs => ⟨hs.completes, hs.progresses⟩⟩
  unfold parse
  cases hprogram : (ofLexer lx).program with
  | mk is e? =>
  rw [hprogram] at hlength
  rw [show items _ (ofLexer lx) = _ from hprogram] at hresult
  cases e? with
  | some e => exact hresult
  | none => exact ⟨_, Lexer.tokens_of_ended hresult, by simpa using hlength⟩

/-- The text `f(1)`. -/
def called : Lexer := .ofSource (.ofBytes [102, 40, 49, 41]) {}

/-- The parser on the first token of `f(1)`. -/
def calling : Parser := (prime.run.run (ofLexer called)).2

theorem calling_progresses : Stands called 0 calling ∧ Completes calling ∧
    ∃ s', Yields (statement 9) calling (.expr (.call "f" [.number (.int 1)])) s' ∧
      calling.Consumes 1 s' := by
  have hprime : prime.run.run (ofLexer called) = (.ok (), calling) := Prod.ext (by decide +kernel) rfl
  have hs : Stands called 0 calling := by
    have hfaces : Faces called 0 (ofLexer called) := .inl ⟨rfl, rfl⟩
    have h := prime_tracks hfaces
    rwa [hprime] at h
  have hread : ((statement 9).run.run calling).1 = .ok (.expr (.call "f" [.number (.int 1)])) := by
    with_unfolding_all rfl
  obtain ⟨hcompletes, hprogresses⟩ := (parse_terminates [102, 40, 49, 41] {}).2.2.2 0 calling hs
  have hyields := yields_of_eq_ok hread
  exact ⟨hs, hcompletes, _, hyields, hprogresses.statement _ _ _ hyields⟩

end Items

end Parser

end SsaCompiler
