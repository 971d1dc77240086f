import SsaCompiler.Proofs.Reading.Expressions

/-!
Reading of printed programs: statements, prototypes and items, each from its tokens and whatever may
follow them. A printed program is read back as it was.
-/
namespace SsaCompiler.Parser

/-- What can follow a statement: no operator, which would go on with its last expression, and no
further branch. -/
def Follows (rest : List Token) : Prop :=
  operatorOf? (rest.headD .eof) = none ∧ rest.headD .eof ≠ .keyword .kwElse

section Statements

variable {style : PrintStyle} {n : Nat} {rest : List Token} {e : Expr} {stmts : List Stmt}

theorem length_enclosed (w : List Token) : (enclosed true w).length = w.length + 2 := by
  simp [enclosed]

theorem headD_enclosed (w rest : List Token) :
    (enclosed true w ++ rest).headD .eof = .leftParen := rfl

theorem reads_enclosed (he : e.Printable style) (hn : 8 * (e.tokens.length + 2) + 2 ≤ n)
    (hrest : operatorOf? (rest.headD .eof) = none) :
    Reads (expression n) (enclosed true e.tokens ++ rest) e rest :=
  reads_expression_enclosed hn (fun hn hrest => (chained_tokens e he).reads_expression hn hrest)
    hrest

theorem reads_block (hn : 8 * (stmtsTokens stmts).length + 5 ≤ n)
    (h : ∀ (n : Nat) (rest : List Token), 8 * (stmtsTokens stmts).length + 4 ≤ n →
      Reads (statements n) (stmtsTokens stmts ++ .rightBrace :: rest) stmts (.rightBrace :: rest)) :
    Reads (block n) (.leftBrace :: (stmtsTokens stmts ++ .rightBrace :: rest)) stmts rest := by
  obtain ⟨n, rfl⟩ : ∃ n', n = n' + 1 := ⟨n - 1, by omega⟩
  unfold block
  refine (reads_consumeToken _ _).bind ((h n rest (by omega)).bind ?_)
  exact (reads_consumeToken _ rest).bind (reads_pure stmts rest)

/-- Statements begin with a parenthesis or with one of three words. -/
def openings : List Token := [.leftParen, .keyword .kwReturn, .keyword .kwIf, .keyword .kwFor]

theorem exists_tokens_eq (stmt : Stmt) : ∃ t ts, stmt.tokens = t :: ts ∧ t ∈ openings := by
  cases stmt with
  | expr e => exact ⟨_, _, rfl, by decide⟩
  | ret value => cases value <;> exact ⟨_, _, rfl, by decide⟩
  | branch condition thenBlock rest => exact ⟨_, _, rfl, by decide⟩
  | whileLoop condition body => exact ⟨_, _, rfl, by decide⟩
  | forIn index element sequence body => exact ⟨_, _, rfl, by decide⟩

/-- A loop behind the variable that its head starts with. -/
theorem reads_variable (name : String) (hn : 10 ≤ n) {t : Token}
    (ht : t = .other ',' ∨ t = .keyword .kwIn) :
    Reads (expression n) (.identifier name :: t :: rest) (.variable name) (t :: rest) := by
  have hstops : Stops 0 (t :: rest) := by
    rcases ht with rfl | rfl
    · exact ⟨Token.noConfusion, fun op hop => by cases hop⟩
    · exact ⟨Token.noConfusion, fun op hop => by cases hop⟩
  have hname : Chained (.variable name) 41 [.identifier name] := by
    refine Chained.of_primary (fun _ _ => Token.noConfusion) ?_ _
    intro n rest hn hrest
    obtain ⟨n, rfl⟩ : ∃ n', n = n' + 1 := ⟨n - 1, by omega⟩
    exact (reads_advance _ _).bind (Reads.pass hrest (reads_pure _ rest))
  exact hname.reads_expression hn hstops

end Statements

mutual

/-- A printed statement is read back. -/
theorem reads_statement {style : PrintStyle} : ∀ stmt : Stmt, stmt.Printable style →
    ∀ (n : Nat) (rest : List Token), 8 * stmt.tokens.length + 3 ≤ n → Follows rest →
      (stmt.isBareReturn = true → rest.headD .eof ∈ [Token.rightBrace, .eof]) →
        Reads (statement n) (stmt.tokens ++ rest) stmt rest
  | .expr e, h => by
    intro n rest hn hrest _
    obtain ⟨n, rfl⟩ : ∃ n', n = n' + 1 := ⟨n - 1, by omega⟩
    simp only [Stmt.tokens, length_enclosed] at hn ⊢
    unfold statement
    refine Reads.pass (by rw [headD_enclosed]; decide) ?_
    refine Reads.pass (by rw [headD_enclosed]; decide) ?_
    refine Reads.pass (by rw [headD_enclosed]; decide) ?_
    exact (reads_enclosed h (by omega) hrest.1).bind (reads_pure _ rest)
  | .ret none, _ => by
    intro n rest hn _ hbare
    obtain ⟨n, rfl⟩ : ∃ n', n = n' + 1 := ⟨n - 1, by omega⟩
    simp only [Stmt.tokens, List.cons_append, List.nil_append]
    unfold statement
    refine Reads.skip ((reads_isAt _ rest).bind ((reads_isAt _ rest).bind ?_))
    rw [if_pos]
    · exact reads_pure _ rest
    · have hhead := hbare rfl
      simpa using hhead
  | .ret (some e), h => by
    intro n rest hn hrest _
    obtain ⟨n, rfl⟩ : ∃ n', n = n' + 1 := ⟨n - 1, by omega⟩
    simp only [Stmt.tokens, List.length_cons, length_enclosed, List.cons_append] at hn ⊢
    unfold statement
    refine Reads.skip ((reads_isAt _ _).bind ((reads_isAt _ _).bind ?_))
    rw [headD_enclosed, if_neg (by decide)]
    exact (reads_enclosed h (by omega) hrest.1).bind (reads_pure _ rest)
  | .branch condition thenBlock chain, h => by
    intro n rest hn hrest _
    obtain ⟨n, rfl⟩ : ∃ n', n = n' + 1 := ⟨n - 1, by omega⟩
    simp only [Stmt.tokens, List.length_cons, List.length_append, length_enclosed, List.cons_append,
      List.append_assoc] at hn ⊢
    unfold statement
    refine Reads.pass (by rw [List.headD_cons]; decide) (Reads.skip ?_)
    refine (reads_enclosed h.1 (by omega) rfl).bind ?_
    refine (reads_block (by omega) (reads_statements thenBlock h.2.1)).bind ?_
    exact (reads_elseChain chain h.2.2 n rest (by omega) hrest).bind (reads_pure _ rest)
  | .whileLoop condition body, h => by
    intro n rest hn hrest _
    obtain ⟨n, rfl⟩ : ∃ n', n = n' + 2 := ⟨n - 2, by omega⟩
    simp only [Stmt.tokens, List.length_cons, List.length_append, length_enclosed, List.cons_append,
      List.append_assoc, List.length_nil, List.nil_append] at hn ⊢
    unfold statement
    refine Reads.pass (by rw [List.headD_cons]; decide) ?_
    refine Reads.pass (by rw [List.headD_cons]; decide) (Reads.skip ?_)
    refine (reads_enclosed h.1 (by omega) rfl).bind ?_
    have hbody : Reads (do return Stmt.whileLoop condition (← block n))
        (.leftBrace :: (stmtsTokens body ++ .rightBrace :: rest)) (.whileLoop condition body)
        rest :=
      (reads_block (by omega) (reads_statements body h.2)).bind (reads_pure _ rest)
    unfold loop
    -- A variable in parentheses does not name what the loop binds: a brace follows it.
    cases condition with
    | «variable» name =>
      refine Reads.pass (by rw [List.headD_cons]; decide) ?_
      exact Reads.pass (by rw [List.headD_cons]; decide) hbody
    | _ => exact hbody
  | .forIn none element sequence body, h => by
    intro n rest hn hrest _
    obtain ⟨n, rfl⟩ : ∃ n', n = n' + 2 := ⟨n - 2, by omega⟩
    simp only [Stmt.tokens, List.length_cons, List.length_append, length_enclosed, List.cons_append,
      List.append_assoc, List.length_nil, List.nil_append, Option.elim_none] at hn ⊢
    unfold statement
    refine Reads.pass (by rw [List.headD_cons]; decide) ?_
    refine Reads.pass (by rw [List.headD_cons]; decide) (Reads.skip ?_)
    refine (reads_variable element (by omega) (.inr rfl)).bind ?_
    unfold loop
    refine Reads.pass (by rw [List.headD_cons]; decide) (Reads.skip ?_)
    refine (reads_enclosed h.2.2.1 (by omega) rfl).bind ?_
    exact (reads_block (by omega) (reads_statements body h.2.2.2)).bind (reads_pure _ rest)
  | .forIn (some index) element sequence body, h => by
    intro n rest hn hrest _
    obtain ⟨n, rfl⟩ : ∃ n', n = n' + 2 := ⟨n - 2, by omega⟩
    simp only [Stmt.tokens, List.length_cons, List.length_append, length_enclosed, List.cons_append,
      List.append_assoc, List.length_nil, List.nil_append, Option.elim_some] at hn ⊢
    unfold statement
    refine Reads.pass (by rw [List.headD_cons]; decide) ?_
    refine Reads.pass (by rw [List.headD_cons]; decide) (Reads.skip ?_)
    refine (reads_variable index (by omega) (.inl rfl)).bind ?_
    unfold loop
    refine Reads.skip ((reads_identifier element _).bind ((reads_consumeToken _ _).bind ?_))
    refine (reads_enclosed h.2.2.1 (by omega) rfl).bind ?_
    exact (reads_block (by omega) (reads_statements body h.2.2.2)).bind (reads_pure _ rest)

theorem reads_statements {style : PrintStyle} : ∀ stmts : List Stmt, StmtsPrintable style stmts →
    ∀ (n : Nat) (rest : List Token), 8 * (stmtsTokens stmts).length + 4 ≤ n →
      Reads (statements n) (stmtsTokens stmts ++ .rightBrace :: rest) stmts (.rightBrace :: rest)
  | [], _ => by
    intro n rest hn
    obtain ⟨n, rfl⟩ : ∃ n', n = n' + 1 := ⟨n - 1, by omega⟩
    unfold statements
    exact (reads_isAt _ _).bind (reads_pure [] _)
  | stmt :: stmts, h => by
    intro n rest hn
    obtain ⟨n, rfl⟩ : ∃ n', n = n' + 1 := ⟨n - 1, by omega⟩
    obtain ⟨t, ts, htokens, ht⟩ := exists_tokens_eq stmt
    have hopen : ∀ t ∈ openings, t ≠ .rightBrace ∧ t ≠ .eof ∧ operatorOf? t = none ∧
      t ≠ .keyword .kwElse := by decide
    have hlength : 0 < stmt.tokens.length := by rw [htokens]; exact Nat.succ_pos _
    have hhead : (stmt.tokens ++ (stmtsTokens stmts ++ .rightBrace :: rest)).headD .eof = t := by
      rw [htokens]
      rfl
    have hfollows : Follows (stmtsTokens stmts ++ .rightBrace :: rest) := by
      cases stmts with
      | nil => exact ⟨rfl, by rw [stmtsTokens, List.nil_append, List.headD_cons]; decide⟩
      | cons next _ =>
        obtain ⟨t', ts', htokens', ht'⟩ := exists_tokens_eq next
        rw [stmtsTokens, htokens']
        exact ⟨(hopen t' ht').2.2.1, (hopen t' ht').2.2.2⟩
    have hbare : stmt.isBareReturn = true →
        (stmtsTokens stmts ++ .rightBrace :: rest).headD .eof ∈ [Token.rightBrace, .eof] := by
      intro hstmt
      rw [h.2.1 hstmt]
      exact List.mem_cons_self
    simp only [stmtsTokens, List.length_append, List.append_assoc] at hn ⊢
    unfold statements
    refine (reads_isAt _ _).bind ?_
    rw [hhead, decide_eq_false (hopen t ht).1]
    refine (reads_isAt _ _).bind ?_
    rw [hhead, decide_eq_false (hopen t ht).2.1]
    refine (reads_statement stmt h.1 n _ (by omega) hfollows hbare).bind ?_
    exact (reads_statements stmts h.2.2 n rest (by omega)).bind (reads_pure _ _)

theorem reads_elseChain {style : PrintStyle} : ∀ chain : ElseChain, chain.Printable style →
    ∀ (n : Nat) (rest : List Token), 8 * chain.tokens.length + 4 ≤ n → Follows rest →
      Reads (elseChain n) (chain.tokens ++ rest) chain rest
  | .none, _ => by
    intro n rest hn hrest
    obtain ⟨n, rfl⟩ : ∃ n', n = n' + 1 := ⟨n - 1, by omega⟩
    unfold elseChain
    exact Reads.pass hrest.2 (reads_pure _ rest)
  | .otherwise stmts, h => by
    intro n rest hn _
    obtain ⟨n, rfl⟩ : ∃ n', n = n' + 1 := ⟨n - 1, by omega⟩
    simp only [ElseChain.tokens, List.length_cons, List.length_append, List.cons_append,
      List.append_assoc, List.length_nil, List.nil_append] at hn ⊢
    unfold elseChain
    refine Reads.skip (Reads.pass (by rw [List.headD_cons]; decide) ?_)
    exact (reads_block (by omega) (reads_statements stmts h)).bind (reads_pure _ rest)
  | .elseIf condition stmts chain, h => by
    intro n rest hn hrest
    obtain ⟨n, rfl⟩ : ∃ n', n = n' + 1 := ⟨n - 1, by omega⟩
    simp only [ElseChain.tokens, List.length_cons, List.length_append, length_enclosed,
      List.cons_append, List.append_assoc] at hn ⊢
    unfold elseChain
    refine Reads.skip (Reads.skip ((reads_enclosed h.1 (by omega) rfl).bind ?_))
    refine (reads_block (by omega) (reads_statements stmts h.2.1)).bind ?_
    exact (reads_elseChain chain h.2.2 n rest (by omega) hrest).bind (reads_pure _ rest)

end

section Prototypes

variable {n : Nat} {rest : List Token}

theorem reads_typeName {ty : TypeName} (h : ty.Printable) (hrest : rest.headD .eof ≠ .other '[') :
    Reads typeName (ty.tokens ++ rest) ty rest := by
  obtain ⟨name, len⟩ := ty
  unfold typeName
  cases len with
  | none => exact (reads_identifier name rest).bind (Reads.pass hrest (reads_pure _ rest))
  | some n =>
    have hint : (Int64.ofNat n).toInt = n := Int64.toInt_ofNat_of_lt (h.2 n rfl)
    have hn : 0 ≤ Int64.ofNat n := Int64.le_iff_toInt_le.mpr (by rw [hint]; simp)
    refine (reads_identifier name _).bind (Reads.skip ((reads_advance _ _).bind ?_))
    dsimp only
    rw [if_pos hn, hint, Int.toNat_natCast]
    exact (reads_consume _ _ rest).bind (reads_pure _ rest)

theorem reads_params {ps : List Param} (hps : ps ≠ [])
    (h : ∀ p ∈ ps, IsIdentifier p.name ∧ p.type.Printable) (hn : ps.length ≤ n) :
    Reads (params n) (paramsTokens ps ++ .rightParen :: rest) ps (.rightParen :: rest) := by
  induction ps generalizing n with
  | nil => exact absurd rfl hps
  | cons p ps ih =>
    rw [List.length_cons] at hn
    obtain ⟨n, rfl⟩ : ∃ n', n = n' + 1 := ⟨n - 1, by omega⟩
    have hp := (h p List.mem_cons_self).2
    unfold params
    cases ps with
    | nil =>
      refine (reads_identifier p.name _).bind ?_
      refine (reads_typeName hp (by rw [List.headD_cons]; decide)).bind ?_
      exact Reads.pass (by rw [List.headD_cons]; decide) (reads_pure _ _)
    | cons q ps =>
      have htokens : paramsTokens (p :: q :: ps) ++ .rightParen :: rest = .identifier p.name ::
          (p.type.tokens ++ .other ',' :: (paramsTokens (q :: ps) ++ .rightParen :: rest)) := by
        simp [paramsTokens, Param.tokens]
      rw [htokens]
      refine (reads_identifier p.name _).bind ?_
      refine (reads_typeName hp (by rw [List.headD_cons]; decide)).bind (Reads.skip ?_)
      exact (ih (by simp) (fun r hr => h r (List.mem_cons_of_mem p hr)) (by omega)).bind
        (reads_pure _ _)

theorem length_le_paramsTokens (ps : List Param) : ps.length ≤ (paramsTokens ps).length := by
  fun_induction paramsTokens ps with
  | case1 => exact Nat.le_refl _
  | case2 p => simp [Param.tokens]
  | case3 p ps _ ih =>
    simp only [List.length_cons, List.length_append, Param.tokens]
    omega

theorem reads_paramList {ps : List Param} (h : ∀ p ∈ ps, IsIdentifier p.name ∧ p.type.Printable)
    (hn : ps.length ≤ n) :
    Reads (paramList n) (.leftParen :: (paramsTokens ps ++ .rightParen :: rest)) ps rest := by
  unfold paramList
  refine (reads_consumeToken _ _).bind ?_
  cases ps with
  | nil => exact (reads_pure [] rest).skip
  | cons p ps =>
    have hhead : (paramsTokens (p :: ps) ++ .rightParen :: rest).headD .eof ≠ .rightParen := by
      cases ps <;> exact Token.noConfusion
    refine Reads.pass hhead ((reads_params (by simp) h hn).bind ?_)
    exact (reads_consumeToken _ rest).bind (reads_pure _ rest)

theorem reads_definedOperator {p : String × List Token} (h : p ∈ definableNames) :
    Reads definedOperator (p.2 ++ .leftParen :: rest) p.1 (.leftParen :: rest) := by
  unfold definedOperator
  rcases List.mem_cons.mp h with rfl | h
  · exact (reads_advance _ _).bind (reads_pure _ _)
  rcases List.mem_cons.mp h with rfl | h
  · refine (reads_advance _ _).bind ((reads_isAt _ _).bind ?_)
    exact (reads_advance _ _).bind (reads_pure _ _)
  · obtain ⟨c, hc, rfl⟩ := List.mem_map.mp h
    dsimp only
    rw [List.cons_append, List.nil_append]
    refine (reads_advance _ _).bind ((reads_isAt _ _).bind ?_)
    rw [List.headD_cons, if_neg (by simp), if_pos hc]
    exact reads_pure _ _

theorem definableNames_ne_leftParen :
    ∀ p ∈ definableNames, p.2.head? ≠ some .leftParen ∧ p.2 ≠ [] := by
  decide

theorem reads_functionName {name : String} (h : IsFunctionName name) :
    Reads functionName (nameTokens name ++ .leftParen :: rest) name (.leftParen :: rest) := by
  unfold functionName
  rcases h with h | ⟨p, hp, rfl⟩
  · rw [nameTokens_of_isIdentifier h, List.cons_append, List.nil_append]
    refine (reads_identifier name _).bind ((reads_isAt _ _).bind ?_)
    rw [List.headD_cons, if_neg (by simp)]
    exact reads_pure name _
  · rw [nameTokens_of_mem hp]
    obtain ⟨word, hword, hp⟩ := List.mem_flatMap.mp hp
    obtain ⟨q, hq, rfl⟩ := List.mem_map.mp hp
    obtain ⟨hne, hnil⟩ := definableNames_ne_leftParen q hq
    have hhead : (q.2 ++ .leftParen :: rest).headD .eof ≠ .leftParen := by
      cases htokens : q.2 with
      | nil => exact absurd htokens hnil
      | cons t ts =>
        rw [htokens] at hne
        simpa using hne
    have hwords : (word = "binary" || word = "unary") = true := by simpa using hword
    rw [List.cons_append]
    refine (reads_identifier word _).bind ((reads_isAt _ _).bind ?_)
    rw [decide_eq_false hhead, hwords]
    exact (reads_definedOperator hq).bind (reads_pure _ _)

theorem reads_prototype {proto : Prototype} (h : proto.Printable) (hn : proto.tokens.length ≤ n)
    (hrest : rest.headD .eof ≠ .other '[') :
    Reads (prototype n) (proto.tokens ++ rest) proto rest := by
  have hparams := length_le_paramsTokens proto.params
  simp only [Prototype.tokens, List.length_append, List.length_cons] at hn
  simp only [Prototype.tokens, List.append_assoc, List.cons_append]
  unfold prototype
  refine (reads_functionName h.1).bind ((reads_paramList h.2.1 (by omega)).bind ?_)
  exact (reads_peek _).bind ((reads_typeName h.2.2 hrest).bind (reads_pure _ rest))

end Prototypes

section Items

variable {style : PrintStyle} {n : Nat} {rest : List Token} {items : List Item} {s s1 : Parser}

/-- An item is read back from its tokens. -/
theorem reads_item {i : Item} (h : i.Printable style) (hn : 8 * (i.tokens style).length + 3 ≤ n)
    (hrest : Follows rest) (hbracket : rest.headD .eof ≠ .other '[')
    (hbare : i.isBareReturn = true → rest.headD .eof ∈ [Token.rightBrace, .eof]) :
    Reads (item n) (i.tokens style ++ rest) (some i) rest := by
  unfold item
  cases i with
  | function decl =>
    simp only [Item.tokens, List.length_cons, List.length_append, List.length_nil] at hn
    simp only [Item.tokens, List.cons_append, List.append_assoc, List.nil_append]
    refine (reads_peek _).bind ((reads_advance _ _).bind ?_)
    refine (reads_prototype h.1 (by omega) (by rw [List.headD_cons]; decide)).bind ?_
    exact (reads_block (by omega) (reads_statements decl.body h.2)).bind (reads_pure _ rest)
  | foreign proto =>
    simp only [Item.tokens, List.length_cons, List.length_append] at hn
    have hproto := reads_prototype (n := n) h (by omega) hbracket
    have hhead : (proto.tokens ++ rest).headD .eof ≠ .keyword .kwFun := by
      obtain ⟨word, ts, hname⟩ := IsFunctionName.nameTokens_eq h.1
      rw [Prototype.tokens, hname]
      exact Token.noConfusion
    simp only [Item.tokens, List.cons_append, List.append_assoc]
    refine (reads_peek _).bind ((reads_advance _ _).bind ?_)
    cases style.announced with
    | true => exact (reads_skipIf_cons _ _).bind (hproto.bind (reads_pure _ rest))
    | false => exact (reads_skipIf_of_ne hhead).bind (hproto.bind (reads_pure _ rest))
  | statement stmt =>
    obtain ⟨t, ts, htokens, ht⟩ := exists_tokens_eq stmt
    have hstmt : Reads (do return some (Item.statement (← statement n))) (stmt.tokens ++ rest)
        (some (.statement stmt)) rest :=
      (reads_statement stmt h n rest hn hrest hbare).bind (reads_pure _ rest)
    have hhead : (stmt.tokens ++ rest).headD .eof = t := by
      rw [htokens]
      rfl
    simp only [Item.tokens]
    refine (reads_peek _).bind ?_
    rw [hhead]
    simp only [openings, List.mem_cons, List.not_mem_nil, or_false] at ht
    rcases ht with rfl | rfl | rfl | rfl
    · exact hstmt
    · exact hstmt
    · exact hstmt
    · exact hstmt

theorem length_item_pos (style : PrintStyle) (i : Item) : 0 < (i.tokens style).length := by
  cases i with
  | function decl => exact Nat.succ_pos _
  | foreign proto => exact Nat.succ_pos _
  | statement stmt =>
    obtain ⟨t, ts, htokens, _⟩ := exists_tokens_eq stmt
    rw [Item.tokens, htokens]
    exact Nat.succ_pos _

/-- What follows an item of a program: nothing, or the first token of an item. -/
theorem follows_programTokens (style : PrintStyle) (items : List Item) :
    Follows (programTokens style items) ∧ (programTokens style items).headD .eof ≠ .other '[' := by
  cases items with
  | nil => exact ⟨⟨rfl, Token.noConfusion⟩, Token.noConfusion⟩
  | cons i items =>
    rw [programTokens, List.flatMap_cons]
    cases i with
    | function decl => exact ⟨⟨rfl, by simp [Item.tokens]⟩, Token.noConfusion⟩
    | foreign proto => exact ⟨⟨rfl, Token.noConfusion⟩, Token.noConfusion⟩
    | statement stmt =>
      have hopen : ∀ t ∈ openings,
          operatorOf? t = none ∧ t ≠ .keyword .kwElse ∧ t ≠ .other '[' := by
        decide
      obtain ⟨t, ts, htokens, ht⟩ := exists_tokens_eq stmt
      rw [Item.tokens, htokens]
      exact ⟨⟨(hopen t ht).1, (hopen t ht).2.1⟩, (hopen t ht).2.2⟩

theorem yields_prime_of_primed (h : s.primed = true) : Yields prime s () s := by
  refine yields_bind.mpr ⟨s, s, rfl, ?_⟩
  rw [h]
  rfl

/-- The allowance is enough for what an item asks of the tokens left. -/
theorem nextItem_eq {ts : List Token} {i : Option Item} (hprime : Yields prime s () s1)
    (hs : s1.Holds ts) (h : ∀ n, 8 * ts.length + 3 ≤ n → Reads (item n) ts i rest) :
    ∃ s', s.nextItem = (.ok i, s') ∧ s'.Holds rest := by
  have hlength : s1.ahead.tokens.length = ts.length - 1 := by
    rw [← List.length_map, hs.ahead, List.length_tail]
  have hallowance : 8 * ts.length + 3 ≤ s1.allowance := by
    unfold allowance
    omega
  obtain ⟨s', hitem, hs'⟩ := h _ hallowance s1 hs
  refine ⟨s', yields_bind.mpr ⟨(), s1, hprime, ?_⟩, hs'⟩
  exact yields_bind.mpr ⟨s1, s1, rfl, hitem⟩

/-- A printed program is read item by item. -/
theorem items_eq (h : ProgramPrintable style items) (hn : items.length < n)
    (hprime : Yields prime s () s1) (hs : s1.Holds (programTokens style items)) :
    Parser.items n s = (items, none) := by
  induction items generalizing n s s1 with
  | nil =>
    obtain ⟨n, rfl⟩ : ∃ n', n = n' + 1 := ⟨n - 1, by omega⟩
    obtain ⟨s', hnext, _⟩ := nextItem_eq hprime hs fun n _ =>
      (reads_peek []).bind (reads_pure none [])
    rw [Parser.items, hnext]
  | cons i items ih =>
    rw [List.length_cons] at hn
    obtain ⟨n, rfl⟩ : ∃ n', n = n' + 1 := ⟨n - 1, by omega⟩
    obtain ⟨hfollows, hbracket⟩ := follows_programTokens style items
    rw [programTokens, List.flatMap_cons] at hs
    have hread : ∀ m, 8 * (i.tokens style ++ programTokens style items).length + 3 ≤ m →
        Reads (item m) (i.tokens style ++ programTokens style items) (some i)
          (programTokens style items) := by
      intro m hm
      rw [List.length_append] at hm
      refine reads_item h.1 (by omega) hfollows hbracket ?_
      intro hbare
      rw [h.2.1 hbare]
      exact List.mem_cons_of_mem _ List.mem_cons_self
    obtain ⟨s', hnext, hs'⟩ := nextItem_eq hprime hs hread
    rw [Parser.items, hnext]
    dsimp only
    rw [ih h.2.2 (by omega) (yields_prime_of_primed hs'.primed) hs']

theorem length_le_programTokens (style : PrintStyle) (items : List Item) :
    items.length ≤ (programTokens style items).length := by
  induction items with
  | nil => exact Nat.le_refl _
  | cons i items ih =>
    have hi := length_item_pos style i
    rw [programTokens, List.flatMap_cons, List.length_append, List.length_cons]
    rw [programTokens] at ih
    omega

end Items

/-- What a lexer spells as the tokens of items is parsed to them. -/
theorem parse_of_spells {lx : Lexer} {style : PrintStyle} {items : List Item}
    (h : ProgramPrintable style items) (hspells : lx.Spells style (programTokens style items)) :
    (ofLexer lx).parse = .ok items := by
  obtain ⟨htokens, herror, hended⟩ := hspells.run_tokens
  have hholds : { ofLexer lx with primed := true }.Holds (.eof :: programTokens style items) :=
    ⟨rfl, htokens, herror, ⟨style, hended⟩, rfl⟩
  obtain ⟨s1, hadvance, hs1⟩ := reads_advance .eof (programTokens style items) _ hholds
  have hprime : Yields prime (ofLexer lx) () s1 := by
    refine yields_bind.mpr ⟨ofLexer lx, ofLexer lx, rfl, ?_⟩
    refine yields_bind.mpr ⟨(), _, rfl, ?_⟩
    exact yields_bind.mpr ⟨.eof, s1, hadvance, rfl⟩
  have hlength : items.length < (ofLexer lx).ahead.tokens.length + 2 := by
    have := length_le_programTokens style items
    have hmap : (ofLexer lx).ahead.tokens.length = (programTokens style items).length := by
      rw [← htokens, List.length_map]
      rfl
    omega
  unfold parse program
  rw [items_eq h hlength hprime hs1]

/-- Reading inverts printing: the text of a program is read as this program. -/
theorem parse_text {style : PrintStyle} {items : List Item} (h : ProgramPrintable style items)
    (strict : Bool) :
    (Parser.ofLexer (.ofSource (.ofString (style.text items)) { strict })).parse = .ok items :=
  parse_of_spells h (Lexer.spells_ofSource h.readable strict)

/-- A program with items, statements and expressions of every kind. -/
def survey : List Item :=
  [.foreign ⟨"show", [⟨"text", ⟨"string", none⟩⟩, ⟨"n", ⟨"int", none⟩⟩], .void⟩,
    .function ⟨⟨"binary_%", [⟨"a", ⟨"int", none⟩⟩, ⟨"b", ⟨"int", none⟩⟩], ⟨"int", none⟩⟩,
      [.ret (some (.binary .sub (.variable "a")
        (.binary .mul (.variable "b") (.binary .div (.variable "a") (.variable "b")))))]⟩,
    .function ⟨⟨"sum", [⟨"xs", ⟨"float", some 2⟩⟩], ⟨"float", none⟩⟩,
      [.forIn (some "i") "x" (.variable "xs")
        [.branch (.binary .notEqual (.variable "x") (.number (.float ⟨0x3ff8000000000000⟩)))
          [.expr (.call "show" [.string "odd one", .variable "i"])]
          (.elseIf (.unary '!' (.binary .less (.variable "i") (.number (.int 1))))
            [.whileLoop (.bool true) [.ret none]] (.otherwise [.ret none]))],
        .ret (some (.binary .add (.call "f" []) (.number (.int 7))))]⟩,
    .statement (.forIn none "x" (.sequence [.number (.int 7), .unary '-' (.number (.int 3))])
      [.expr (.binary (.custom '%') (.binary .add (.variable "x") (.number (.int 2)))
        (.variable "x"))]),
    .statement (.ret none)]

def surveyStyle : PrintStyle := ⟨fun _ => ['1', '.', '5'], false, true⟩

def surveyText : String :=
  "@ show ( text string , n int ) void " ++
  "fun binary % ( a int , b int ) int \x7b return ( a - b * ( a / b ) ) \x7d " ++
  "fun sum ( xs float [ 2 ] ) float \x7b for i , x in ( xs ) \x7b if ( x != 1.5 ) " ++
  "\x7b ( show ( \"odd one\" , i ) ) \x7d else if ( ! ( i < 1 ) ) " ++
  "\x7b for ( true ) \x7b return \x7d \x7d " ++
  "else \x7b return \x7d \x7d return ( f ( ) + 7 ) \x7d for x in ( [ 7 , - 3 ] ) " ++
  "\x7b ( ( x + 2 ) % x ) \x7d return"

theorem parse_surveyText : ProgramPrintable surveyStyle survey ∧
    surveyStyle.text survey = surveyText ∧
    (Parser.ofLexer (.ofSource (.ofString surveyText) { strict := true })).parse = .ok survey := by
  have hsurvey : ProgramPrintable surveyStyle survey := by decide +kernel
  have htext : surveyStyle.text survey = surveyText := by decide +kernel
  refine ⟨hsurvey, htext, ?_⟩
  rw [← htext]
  exact parse_text hsurvey true

end SsaCompiler.Parser
