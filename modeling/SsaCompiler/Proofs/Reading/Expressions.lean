import SsaCompiler.Proofs.Reading.Lexing
import SsaCompiler.Proofs.Yields

/-!
Reading of printed expressions. What a step of the parser does is stated on the tokens that are left
before and after it. A printed expression is a chain: its first operand, and the operators behind it
with their right operands. Climbing takes these one after the other and so rebuilds the expression.
-/
namespace SsaCompiler.Parser

/-- The parser has these tokens left, the current one included, and then the end of the text. -/
structure Holds (s : Parser) (ts : List Token) : Prop where
  current : s.current = ts.headD .eof
  ahead : s.ahead.tokens.map (·.token) = ts.tail
  faultless : s.ahead.error = none
  ended : ∃ style, s.ahead.lexer.Spells style []
  primed : s.primed = true

/-- From the tokens `ts` the step reads `a` and leaves `rest`. -/
def Reads {α : Type} (x : ParseM α) (ts : List Token) (a : α) (rest : List Token) : Prop :=
  ∀ s : Parser, s.Holds ts → ∃ s', Yields x s a s' ∧ s'.Holds rest

section Steps

variable {α β : Type} {x y : ParseM α} {ts mid rest : List Token} {a : α} {b : β} {t : Token}

theorem reads_pure (a : α) (ts : List Token) : Reads (pure a) ts a ts :=
  fun s hs => ⟨s, rfl, hs⟩

theorem Reads.bind {f : α → ParseM β} (hx : Reads x ts a mid) (hf : Reads (f a) mid b rest) :
    Reads (x >>= f) ts b rest := by
  intro s hs
  obtain ⟨s1, hx, hs1⟩ := hx s hs
  obtain ⟨s2, hf, hs2⟩ := hf s1 hs1
  exact ⟨s2, yields_bind.mpr ⟨a, s1, hx, hf⟩, hs2⟩

theorem reads_peek (ts : List Token) : Reads peek ts (ts.headD .eof) ts := by
  intro s hs
  refine ⟨s, ?_, hs⟩
  rw [← hs.current]
  rfl

theorem reads_isAt (t : Token) (ts : List Token) :
    Reads (isAt t) ts (decide (ts.headD .eof = t)) ts :=
  (reads_peek ts).bind (reads_pure _ ts)

theorem reads_advance (t : Token) (ts : List Token) : Reads advance (t :: ts) t ts := by
  intro s hs
  obtain ⟨style, hended⟩ := hs.ended
  have hcurrent : s.current = t := hs.current
  have hahead : s.ahead.tokens.map (·.token) = ts := hs.ahead
  cases htokens : s.ahead.tokens with
  | nil =>
    rw [htokens] at hahead
    subst hahead
    obtain ⟨hrun, herror, hend⟩ := hended.run_tokens
    refine ⟨{ s with current := .eof, pos := s.ahead.lexer.position, ahead := s.ahead.lexer.run },
      ?_, ⟨rfl, hrun, herror, ⟨style, hend⟩, hs.primed⟩⟩
    rw [← hcurrent]
    unfold advance
    refine yields_bind.mpr ⟨s, s, rfl, ?_⟩
    rw [htokens, hs.faultless]
    rfl
  | cons p ps =>
    rw [htokens] at hahead
    subst hahead
    refine ⟨{ s with current := p.token, pos := p.pos, ahead := { s.ahead with tokens := ps } },
      ?_, ⟨rfl, rfl, hs.faultless, ⟨style, hended⟩, hs.primed⟩⟩
    rw [← hcurrent]
    unfold advance
    refine yields_bind.mpr ⟨s, s, rfl, ?_⟩
    rw [htokens]
    rfl

theorem reads_skipIf_cons (t : Token) (ts : List Token) : Reads (skipIf t) (t :: ts) true ts := by
  refine (reads_isAt t (t :: ts)).bind ?_
  rw [List.headD_cons, decide_eq_true rfl]
  exact (reads_advance t ts).bind (reads_pure true ts)

theorem reads_skipIf_of_ne (h : ts.headD .eof ≠ t) : Reads (skipIf t) ts false ts := by
  refine (reads_isAt t ts).bind ?_
  rw [decide_eq_false h]
  exact reads_pure false ts

/-- A step that looks for a token which is there. -/
theorem Reads.skip (h : Reads x ts a rest) :
    Reads (skipIf t >>= fun b => if b = true then x else y) (t :: ts) a rest :=
  (reads_skipIf_cons t ts).bind h

/-- A step that looks for a token which is not there. -/
theorem Reads.pass (hne : ts.headD .eof ≠ t) (h : Reads y ts a rest) :
    Reads (skipIf t >>= fun b => if b = true then x else y) ts a rest :=
  (reads_skipIf_of_ne hne).bind h

theorem reads_consume (t : Token) (expected : Expected) (ts : List Token) :
    Reads (consume t expected) (t :: ts) () ts := by
  refine (reads_isAt t (t :: ts)).bind ?_
  rw [List.headD_cons, decide_eq_true rfl]
  exact (reads_advance t ts).bind (reads_pure () ts)

theorem reads_consumeToken (t : Token) (ts : List Token) : Reads (consumeToken t) (t :: ts) () ts :=
  reads_consume t _ ts

theorem reads_identifier (name : String) (ts : List Token) :
    Reads identifier (.identifier name :: ts) name ts :=
  (reads_advance _ ts).bind (reads_pure name ts)

end Steps

section Operators

variable {op : Operator}

theorem precedence_le (op : Operator) : op.precedence ≤ 40 := by
  cases op with
  | custom c =>
    simp only [Operator.precedence]
    split_ifs <;> decide
  | _ => decide

theorem precedence_pos (op : Operator) : 0 < op.precedence := by
  cases op with
  | custom c =>
    simp only [Operator.precedence]
    split_ifs <;> decide
  | _ => decide

/-- An operator is recognized by its first token. -/
theorem operatorOf?_tokens (h : op.Printable) (rest : List Token) :
    operatorOf? ((op.tokens ++ rest).headD .eof) = some op := by
  cases op with
  | custom c =>
    have hall : ∀ c ∈ ['%', '&', '|', '^'], operatorOf? (.other c) = some (.custom c) :=
      forall_mem_of_all (by decide)
    exact hall c h
  | _ => rfl

theorem tokens_ne_leftParen (op : Operator) (rest : List Token) :
    (op.tokens ++ rest).headD .eof ≠ .leftParen := by
  cases op <;> exact Token.noConfusion

theorem length_tokens_pos (op : Operator) : 0 < op.tokens.length := by
  cases op <;> exact Nat.succ_pos _

theorem reads_consumeOperator (op : Operator) (rest : List Token) :
    Reads (consumeOperator op) (op.tokens ++ rest) () rest := by
  unfold consumeOperator
  cases op with
  | notEqual => exact (reads_advance _ _).bind (reads_consumeToken .assign rest)
  | _ => exact (reads_advance _ _).bind (reads_pure () rest)

end Operators

/-- What follows does not go on with an operand: no arguments, and no operator that binds more
strongly than `q`. -/
def Stops (q : Nat) (ts : List Token) : Prop :=
  ts.headD .eof ≠ .leftParen ∧ ∀ op ∈ operatorOf? (ts.headD .eof), op.precedence ≤ q

theorem Stops.mono {q q' : Nat} {ts : List Token} (h : Stops q ts) (hle : q ≤ q') : Stops q' ts :=
  ⟨h.1, fun op hop => Nat.le_trans (h.2 op hop) hle⟩

/-- Climbing ends at an operator that binds too weakly. -/
theorem reads_climb_stop {n least : Nat} {ts : List Token} (hn : 0 < n)
    (h : ∀ op ∈ operatorOf? (ts.headD .eof), op.precedence < least) (e : Expr) :
    Reads (climb n least e) ts e ts := by
  cases n with
  | zero => exact absurd hn (Nat.lt_irrefl 0)
  | succ n =>
    unfold climb
    refine (reads_peek ts).bind ?_
    cases hop : operatorOf? (ts.headD .eof) with
    | none => exact reads_pure e ts
    | some op =>
      dsimp only
      rw [if_pos (h op hop)]
      exact reads_pure e ts

/-- Climbing takes an operator with its right operand and goes on. -/
theorem reads_climb_step {n least : Nat} {op : Operator} {lhs rhs b : Expr}
    {w rest out : List Token} (hop : op.Printable) (hleast : least ≤ op.precedence)
    (hrhs : Reads (rightOperand n op) (w ++ rest) rhs rest)
    (hclimb : Reads (climb n least (.binary op lhs rhs)) rest b out) :
    Reads (climb (n + 1) least lhs) (op.tokens ++ w ++ rest) b out := by
  rw [List.append_assoc]
  unfold climb
  refine (reads_peek _).bind ?_
  rw [operatorOf?_tokens hop]
  dsimp only
  rw [if_neg (Nat.not_lt.mpr hleast)]
  exact (reads_consumeOperator op (w ++ rest)).bind (hrhs.bind hclimb)

/-- The tokens `front ++ chain` stand for `e`: the operand `u`, and behind it a chain of operators
with their operands that bind at least as strongly as `level`. -/
structure Chain (e : Expr) (level : Nat) (u : Expr) (front chain : List Token) : Prop where
  nonempty : 0 < front.length
  operand : ∀ {n : Nat} {rest : List Token}, 8 * front.length + 1 ≤ n →
    rest.headD .eof ≠ .leftParen → Reads (unary n) (front ++ rest) u rest
  start : chain = [] ∧ u = e ∨
    ∀ rest, (chain ++ rest).headD .eof ≠ .leftParen ∧
      ∃ op ∈ operatorOf? ((chain ++ rest).headD .eof), level ≤ op.precedence
  climbs : ∀ {least fuel : Nat} {rest out : List Token} {b : Expr}, least ≤ level →
    Stops level rest → (∀ m, fuel ≤ m → Reads (climb m least e) rest b out) →
    ∀ m, fuel + 8 * chain.length ≤ m → Reads (climb m least u) (chain ++ rest) b out

namespace Chain

variable {e l r u : Expr} {level n : Nat} {front chain rest w : List Token} {op : Operator}

/-- A chain of one operand. -/
theorem single (hw : 0 < w.length) (h : ∀ {n : Nat} {rest : List Token}, 8 * w.length + 1 ≤ n →
    rest.headD .eof ≠ .leftParen → Reads (unary n) (w ++ rest) e rest) (level : Nat) :
    Chain e level e w [] where
  nonempty := hw
  operand := h
  start := .inl ⟨rfl, rfl⟩
  climbs _ _ hclimb m hm := hclimb m hm

/-- What follows the first operand are not arguments. -/
theorem behind_ne_leftParen (h : Chain e level u front chain)
    (hrest : rest.headD .eof ≠ .leftParen) : (chain ++ rest).headD .eof ≠ .leftParen := by
  rcases h.start with ⟨rfl, _⟩ | hstart
  · exact hrest
  · exact (hstart rest).1

/-- No operator binds so strongly that a chain at the highest level goes on. -/
theorem eq_of_level (h : Chain e level u front chain) (hlevel : 40 < level) :
    chain = [] ∧ u = e := by
  rcases h.start with hsingle | hstart
  · exact hsingle
  · obtain ⟨_, op, _, hle⟩ := hstart []
    have := precedence_le op
    omega

theorem reads_rightOperand (h : Chain r level u front chain) (hlevel : op.precedence < level)
    (hn : 8 * (front ++ chain).length + 2 ≤ n) (hrest : Stops op.precedence rest) :
    Reads (rightOperand n op) ((front ++ chain) ++ rest) r rest := by
  rw [List.length_append] at hn
  cases n with
  | zero => omega
  | succ n =>
    rw [List.append_assoc]
    unfold rightOperand
    refine (h.operand (by omega) (h.behind_ne_leftParen hrest.1)).bind ((reads_peek _).bind ?_)
    have hstop : ∀ m, 1 ≤ m → Reads (climb m (op.precedence + 1) r) rest r rest := fun m hm =>
      reads_climb_stop hm (fun op' hop' => Nat.lt_succ_of_le (hrest.2 op' hop')) r
    have hclimb := h.climbs hlevel (hrest.mono (Nat.le_of_lt hlevel)) hstop n (by omega)
    rcases h.start with ⟨rfl, rfl⟩ | hstart
    · -- The operand stands alone; what follows binds too weakly to be part of it.
      cases hop : operatorOf? (([] ++ rest : List Token).headD .eof) with
      | none => exact reads_pure u rest
      | some next =>
        dsimp only
        rw [if_neg (Nat.not_lt.mpr (hrest.2 next hop))]
        exact reads_pure u rest
    · obtain ⟨next, hnext, hle⟩ := (hstart rest).2
      rw [hnext]
      dsimp only
      rw [if_pos (by omega)]
      exact hclimb

/-- A further operator with its right operand, which binds no more strongly than those before. -/
theorem extend (h : Chain l level u front chain) (hop : op.Printable)
    (hlevel : op.precedence ≤ level)
    (hr : ∀ {n : Nat} {rest : List Token}, 8 * w.length + 2 ≤ n → Stops op.precedence rest →
      Reads (rightOperand n op) (w ++ rest) r rest) :
    Chain (.binary op l r) op.precedence u front (chain ++ (op.tokens ++ w)) where
  nonempty := h.nonempty
  operand := h.operand
  start := by
    right
    intro rest
    rw [List.append_assoc]
    rcases h.start with ⟨rfl, _⟩ | hstart
    · rw [List.nil_append, List.append_assoc]
      exact ⟨tokens_ne_leftParen op _, op, operatorOf?_tokens hop _, Nat.le_refl _⟩
    · obtain ⟨hne, next, hnext, hle⟩ := hstart ((op.tokens ++ w) ++ rest)
      exact ⟨hne, next, hnext, Nat.le_trans hlevel hle⟩
  climbs := by
    intro least fuel rest out b hleast hrest hclimb m hm
    have hpos := length_tokens_pos op
    simp only [List.length_append] at hm
    rw [List.append_assoc]
    have hstops : Stops level ((op.tokens ++ w) ++ rest) := by
      rw [List.append_assoc]
      refine ⟨tokens_ne_leftParen op _, ?_⟩
      intro next hnext
      rw [operatorOf?_tokens hop] at hnext
      cases hnext
      exact hlevel
    have hstep : ∀ k, fuel + 8 * (op.tokens.length + w.length) ≤ k →
        Reads (climb k least l) ((op.tokens ++ w) ++ rest) b out := by
      intro k hk
      obtain ⟨k, rfl⟩ : ∃ k', k = k' + 1 := ⟨k - 1, by omega⟩
      exact reads_climb_step hop hleast (hr (by omega) hrest) (hclimb k (by omega))
    exact h.climbs (Nat.le_trans hleast hlevel) hstops hstep m (by omega)

theorem reads_expression (h : Chain e level u front chain)
    (hn : 8 * (front ++ chain).length + 2 ≤ n) (hrest : Stops 0 rest) :
    Reads (expression n) ((front ++ chain) ++ rest) e rest := by
  have hpos := h.nonempty
  rw [List.length_append] at hn
  cases n with
  | zero => omega
  | succ n =>
    rw [List.append_assoc]
    unfold expression
    refine (h.operand (by omega) (h.behind_ne_leftParen hrest.1)).bind ?_
    have hstop : ∀ m, 1 ≤ m → Reads (climb m 0 e) rest e rest := by
      intro m hm
      refine reads_climb_stop hm ?_ e
      intro op hop
      have := hrest.2 op hop
      have := precedence_pos op
      omega
    exact h.climbs (Nat.zero_le _) (hrest.mono (Nat.zero_le _)) hstop n (by omega)

end Chain

section Operands

variable {e : Expr} {n : Nat} {t : Token} {w ts rest : List Token}

/-- An operand that does not start with an operator. -/
theorem reads_unary_of_primary (hn : 0 < n) (ht : ∀ c ∈ unaryOperators, t ≠ .other c)
    (h : Reads (primary (n - 1)) (t :: ts) e rest) : Reads (unary n) (t :: ts) e rest := by
  cases n with
  | zero => exact absurd hn (Nat.lt_irrefl 0)
  | succ n =>
    unfold unary
    refine (reads_peek _).bind ?_
    rw [List.headD_cons]
    cases t with
    | other c =>
      dsimp only
      rw [if_neg fun hc => ht c hc rfl]
      exact h
    | _ => exact h

/-- An expression is read in parentheses too. -/
theorem reads_unary_enclosed (hn : 8 * (w.length + 2) + 1 ≤ n)
    (h : ∀ {n : Nat} {rest : List Token}, 8 * w.length + 2 ≤ n → Stops 0 rest →
      Reads (expression n) (w ++ rest) e rest) :
    Reads (unary n) (enclosed true w ++ rest) e rest := by
  have htokens : enclosed true w ++ rest = .leftParen :: (w ++ .rightParen :: rest) := by
    simp [enclosed]
  rw [htokens]
  refine reads_unary_of_primary (by omega) (fun c _ => Token.noConfusion) ?_
  obtain ⟨n, rfl⟩ : ∃ n', n = n' + 2 := ⟨n - 2, by omega⟩
  rw [Nat.add_succ_sub_one]
  unfold primary
  refine (reads_advance _ _).bind ?_
  have hstops : Stops 0 (.rightParen :: rest) :=
    ⟨Token.noConfusion, fun op hop => by cases hop⟩
  exact (h (by omega) hstops).bind ((reads_consumeToken _ rest).bind (reads_pure e rest))

/-- An expression in parentheses is read whatever follows that is no operator. -/
theorem reads_expression_enclosed (hn : 8 * (w.length + 2) + 2 ≤ n)
    (h : ∀ {n : Nat} {rest : List Token}, 8 * w.length + 2 ≤ n → Stops 0 rest →
      Reads (expression n) (w ++ rest) e rest) (hrest : operatorOf? (rest.headD .eof) = none) :
    Reads (expression n) (enclosed true w ++ rest) e rest := by
  obtain ⟨n, rfl⟩ : ∃ n', n = n' + 1 := ⟨n - 1, by omega⟩
  unfold expression
  refine (reads_unary_enclosed (by omega) h).bind (reads_climb_stop (by omega) ?_ e)
  rw [hrest]
  exact fun op hop => by cases hop

/-- How strongly the operator of an expression binds. An expression without one binds more strongly
than any operator. -/
def level (e : Expr) : Nat := e.operator?.elim 41 Operator.precedence

theorem le_level {q : Nat} (hq : q ≤ 41) (h : e.operator?.any (·.precedence < q) = false) :
    q ≤ level e := by
  unfold level
  cases hop : e.operator? with
  | none => exact hq
  | some op =>
    rw [hop] at h
    exact Nat.not_lt.mp (of_decide_eq_false h)

/-- The tokens are read as the chain of an expression. -/
def Chained (e : Expr) (q : Nat) (w : List Token) : Prop :=
  ∃ u front chain, w = front ++ chain ∧ Chain e q u front chain

theorem Chained.reads_expression {q : Nat} (h : Chained e q w) (hn : 8 * w.length + 2 ≤ n)
    (hrest : Stops 0 rest) : Reads (expression n) (w ++ rest) e rest := by
  obtain ⟨u, front, chain, rfl, hchain⟩ := h
  exact hchain.reads_expression hn hrest

theorem Chained.reads_rightOperand {q : Nat} {op : Operator} (h : Chained e q w)
    (hq : op.precedence < q) (hn : 8 * w.length + 2 ≤ n) (hrest : Stops op.precedence rest) :
    Reads (rightOperand n op) (w ++ rest) e rest := by
  obtain ⟨u, front, chain, rfl, hchain⟩ := h
  exact hchain.reads_rightOperand hq hn hrest

/-- With the parentheses that it needs, an operand binds as strongly as is asked for. -/
theorem Chained.operand {b : Bool} {q : Nat} (h : Chained e (level e) w)
    (hb : b = false → q ≤ level e) : ∃ q', q ≤ q' ∧ Chained e q' (enclosed b w) := by
  cases b with
  | false => exact ⟨level e, hb rfl, h⟩
  | true =>
    have hlength : (enclosed true w).length = w.length + 2 := by simp [enclosed]
    refine ⟨q, Nat.le_refl q, e, enclosed true w, [], by simp, Chain.single (by omega) ?_ q⟩
    intro n rest hn _
    exact reads_unary_enclosed (by omega) fun hn hrest => h.reads_expression hn hrest

theorem Chained.of_primary (ht : ∀ c ∈ unaryOperators, t ≠ .other c)
    (h : ∀ {n : Nat} {rest : List Token}, 8 * (w.length + 1) ≤ n → rest.headD .eof ≠ .leftParen →
      Reads (primary n) (t :: (w ++ rest)) e rest) (q : Nat) : Chained e q (t :: w) := by
  refine ⟨e, t :: w, [], by simp, Chain.single (by simp) ?_ q⟩
  intro n rest hn hrest
  rw [List.length_cons] at hn
  exact reads_unary_of_primary (by omega) ht (h (by omega) hrest)

/-- An expression does not start with a token that closes one. -/
theorem head_tokens_ne {style : PrintStyle} :
    ∀ (e : Expr) (rest : List Token), e.Printable style →
      ∀ close ∈ [Token.rightParen, .other ']'], (e.tokens ++ rest).headD .eof ≠ close
  | .string _, _, _ => by simp [Expr.tokens]
  | .number _, _, _ => by simp [Expr.tokens]
  | .bool _, _, _ => by simp [Expr.tokens]
  | .variable _, _, _ => by simp [Expr.tokens]
  | .unary c operand, rest, h => by
    have hall : ∀ c ∈ unaryOperators, c ≠ ']' :=
      forall_mem_of_all (by decide)
    simpa [Expr.tokens] using hall c h.1
  | .call _ _, _, _ => by simp [Expr.tokens]
  | .sequence _, _, _ => by simp [Expr.tokens]
  | .binary op lhs rhs, rest, h => by
    simp only [Expr.tokens, List.append_assoc]
    cases lhs.operator?.any (·.precedence < op.precedence) with
    | true => simp [enclosed]
    | false => exact head_tokens_ne lhs _ h.2.1

theorem head_exprsTokens_ne {style : PrintStyle} {es : List Expr} (hes : es ≠ [])
    (h : ExprsPrintable style es) (rest : List Token) :
    ∀ close ∈ [Token.rightParen, .other ']'], (exprsTokens es ++ rest).headD .eof ≠ close := by
  cases es with
  | nil => exact absurd rfl hes
  | cons e es =>
    cases es with
    | nil => exact head_tokens_ne e rest h.1
    | cons e' es =>
      simp only [exprsTokens, List.append_assoc]
      exact head_tokens_ne e _ h.1

/-- Arguments are read up to their closing token. -/
theorem reads_arguments {style : PrintStyle} {es : List Expr} {close : Token}
    (hclose : close ∈ [Token.rightParen, .other ']'])
    (hn : 8 * (exprsTokens es).length + 4 ≤ n) (h : ExprsPrintable style es)
    (hes : es ≠ [] → ∀ (n : Nat) (rest : List Token), 8 * (exprsTokens es).length + 3 ≤ n →
      Stops 0 rest → rest.headD .eof ≠ .other ',' →
        Reads (expressions n) (exprsTokens es ++ rest) es rest) :
    Reads (arguments n close) (exprsTokens es ++ close :: rest) es rest := by
  obtain ⟨n, rfl⟩ : ∃ n', n = n' + 1 := ⟨n - 1, by omega⟩
  unfold arguments
  by_cases hnil : es = []
  · subst hnil
    exact (reads_pure [] rest).skip
  · have hstops : Stops 0 (close :: rest) := by
      have hall : ∀ t ∈ [Token.rightParen, .other ']'],
          t ≠ .leftParen ∧ operatorOf? t = none := by decide
      refine ⟨(hall close hclose).1, ?_⟩
      intro op hop
      rw [List.headD_cons, (hall close hclose).2] at hop
      cases hop
    have hcomma : (close :: rest).headD .eof ≠ .other ',' := by
      have hall : ∀ t ∈ [Token.rightParen, .other ']'], t ≠ .other ',' := by decide
      exact hall close hclose
    refine Reads.pass (head_exprsTokens_ne hnil h _ close hclose) ?_
    exact (hes hnil n _ (by omega) hstops hcomma).bind
      ((reads_consumeToken close rest).bind (reads_pure es rest))

end Operands

mutual

/-- A printed expression is read as the chain that it was printed from. -/
theorem chained_tokens {style : PrintStyle} :
    ∀ e : Expr, e.Printable style → Chained e (level e) e.tokens
  | .string text, _ => by
    refine Chained.of_primary (fun _ _ => Token.noConfusion) ?_ _
    intro n rest hn _
    obtain ⟨n, rfl⟩ : ∃ n', n = n' + 1 := ⟨n - 1, by omega⟩
    exact (reads_advance _ _).bind (reads_pure _ rest)
  | .number value, _ => by
    refine Chained.of_primary (fun _ _ => Token.noConfusion) ?_ _
    intro n rest hn _
    obtain ⟨n, rfl⟩ : ∃ n', n = n' + 1 := ⟨n - 1, by omega⟩
    exact (reads_advance _ _).bind (reads_pure _ rest)
  | .bool value, _ => by
    refine Chained.of_primary (fun _ _ => Token.noConfusion) ?_ _
    intro n rest hn _
    obtain ⟨n, rfl⟩ : ∃ n', n = n' + 1 := ⟨n - 1, by omega⟩
    cases value with
    | true => exact (reads_advance _ _).bind (reads_pure _ rest)
    | false => exact (reads_advance _ _).bind (reads_pure _ rest)
  | .variable name, _ => by
    refine Chained.of_primary (fun _ _ => Token.noConfusion) ?_ _
    intro n rest hn hrest
    obtain ⟨n, rfl⟩ : ∃ n', n = n' + 1 := ⟨n - 1, by omega⟩
    exact (reads_advance _ _).bind (Reads.pass hrest (reads_pure _ rest))
  | .binary op lhs rhs, h => by
    have hop := precedence_le op
    obtain ⟨q, hq, u, front, chain, hfront, hlhs⟩ := (chained_tokens lhs h.2.1).operand
      (b := lhs.operator?.any (·.precedence < op.precedence)) (le_level (by omega))
    obtain ⟨p, hp, hrhs⟩ := (chained_tokens rhs h.2.2).operand
      (b := rhs.operator?.any (·.precedence ≤ op.precedence)) (q := op.precedence + 1)
      (fun hb => le_level (by omega) (by simpa [Nat.lt_succ_iff] using hb))
    refine ⟨u, front, _, ?_, hlhs.extend h.1 hq fun hn hrest => hrhs.reads_rightOperand hp hn hrest⟩
    simp only [Expr.tokens, hfront, List.append_assoc]
  | .unary op operand, h => by
    obtain ⟨q, hq, u, front, chain, hfront, hoperand⟩ := (chained_tokens operand h.2).operand
      (b := operand.operator?.isSome) (q := 41) (fun hb => le_level (Nat.le_refl _)
        (by rw [Option.isSome_eq_false_iff, Option.isNone_iff_eq_none] at hb; rw [hb]; rfl))
    obtain ⟨rfl, rfl⟩ := hoperand.eq_of_level hq
    rw [List.append_nil] at hfront
    refine ⟨_, .other op :: front, [], by simp [Expr.tokens, hfront], Chain.single (by simp) ?_ _⟩
    intro n rest hn hrest
    rw [List.length_cons] at hn
    obtain ⟨n, rfl⟩ : ∃ n', n = n' + 1 := ⟨n - 1, by omega⟩
    unfold unary
    refine (reads_peek _).bind ?_
    simp only [List.cons_append, List.headD_cons]
    rw [if_pos h.1]
    exact (reads_advance _ _).bind
      ((hoperand.operand (by omega) hrest).bind (reads_pure _ rest))
  | .call callee args, h => by
    refine Chained.of_primary (fun _ _ => Token.noConfusion) ?_ _
    intro n rest hn _
    simp only [List.length_cons, List.length_append, List.length_nil] at hn
    obtain ⟨n, rfl⟩ : ∃ n', n = n' + 1 := ⟨n - 1, by omega⟩
    simp only [List.cons_append, List.append_assoc, List.nil_append]
    refine (reads_advance _ _).bind (Reads.skip ?_)
    exact (reads_arguments (by decide) (by omega) h.2
      (fun hne => reads_expressions args hne h.2)).bind (reads_pure _ rest)
  | .sequence elements, h => by
    refine Chained.of_primary (forall_mem_of_all (by decide)) ?_ _
    intro n rest hn _
    simp only [List.length_append, List.length_cons, List.length_nil] at hn
    obtain ⟨n, rfl⟩ : ∃ n', n = n' + 1 := ⟨n - 1, by omega⟩
    simp only [List.append_assoc, List.cons_append, List.nil_append]
    refine (reads_advance _ _).bind ?_
    exact (reads_arguments (by decide) (by omega) h
      (fun hne => reads_expressions elements hne h)).bind (reads_pure _ rest)

theorem reads_expressions {style : PrintStyle} :
    ∀ es : List Expr, es ≠ [] → ExprsPrintable style es → ∀ (n : Nat) (rest : List Token),
      8 * (exprsTokens es).length + 3 ≤ n → Stops 0 rest → rest.headD .eof ≠ .other ',' →
        Reads (expressions n) (exprsTokens es ++ rest) es rest
  | [], hes, _ => absurd rfl hes
  | [e], _, h => by
    intro n rest hn hrest hcomma
    obtain ⟨n, rfl⟩ : ∃ n', n = n' + 1 := ⟨n - 1, by omega⟩
    simp only [exprsTokens] at hn ⊢
    unfold expressions
    exact ((chained_tokens e h.1).reads_expression (by omega) hrest).bind
      (Reads.pass hcomma (reads_pure _ rest))
  | e :: e' :: es, _, h => by
    intro n rest hn hrest hcomma
    obtain ⟨n, rfl⟩ : ∃ n', n = n' + 1 := ⟨n - 1, by omega⟩
    have htokens : exprsTokens (e :: e' :: es) =
      e.tokens ++ .other ',' :: exprsTokens (e' :: es) := by simp only [exprsTokens]
    rw [htokens] at hn ⊢
    simp only [List.length_append, List.length_cons] at hn
    rw [List.append_assoc, List.cons_append]
    unfold expressions
    have hstops : Stops 0 (.other ',' :: (exprsTokens (e' :: es) ++ rest)) :=
      ⟨Token.noConfusion, fun op hop => by cases hop⟩
    refine ((chained_tokens e h.1).reads_expression (by omega) hstops).bind (Reads.skip ?_)
    exact (reads_expressions (e' :: es) (by simp) h.2 n rest (by omega) hrest hcomma).bind
      (reads_pure _ rest)

end

end SsaCompiler.Parser
