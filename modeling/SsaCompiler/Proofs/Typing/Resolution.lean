import SsaCompiler.Proofs.Lowering.Signatures
import SsaCompiler.Proofs.Typing.Derivations

/-!
Which names code uses, and where. Variables are bound by parameters and by the loops around them, and
calls name functions. What the rules look at resolves: that is all code except for statements that
control cannot get to and the bodies of loops over empty sequences, both of which can be told from
the text.
-/
namespace SsaCompiler

/-- The variables in sight, the innermost first, each with the length that its type is written with.
The variables of loops have no written type. -/
abbrev Bindings := List (String × Option Nat)

namespace Bindings

def ofParams (params : List Param) : Bindings := (params.map fun p => (p.name, p.type.len)).reverse

def inLoop (Γ : Bindings) (index : Option String) (element : String) : Bindings :=
  (element, none) :: index.elim Γ fun i => (i, none) :: Γ

/-- The expression is a variable whose type is written with length zero. -/
def namesEmpty (Γ : Bindings) : Expr → Bool
  | .variable x => Γ.lookup x == some (some 0)
  | _ => false

end Bindings

/-- A name that is looked up: a variable, or a function with the number of arguments it is given. -/
inductive Use
  | variable (name : String)
  | call (callee : String) (args : Nat)
  deriving DecidableEq

/-- A variable is in sight; a function has a prototype, and all its prototypes have as many
parameters as there are arguments. -/
def Use.Resolves (protos : List Prototype) (Γ : Bindings) : Use → Prop
  | .variable x => x ∈ Γ.map Prod.fst
  | .call callee args =>
    (∃ p ∈ protos, p.name = callee) ∧ ∀ p ∈ protos, p.name = callee → p.params.length = args

instance (protos : List Prototype) (Γ : Bindings) (u : Use) : Decidable (u.Resolves protos Γ) :=
  match u with
  | .variable _ => inferInstanceAs (Decidable (_ ∈ _))
  | .call .. => inferInstanceAs (Decidable (_ ∧ _))

mutual

def Expr.uses : Expr → List Use
  | .variable x => [.variable x]
  | .binary _ lhs rhs => lhs.uses ++ rhs.uses
  | .unary _ operand => operand.uses
  | .call callee args => .call callee args.length :: usesOfExprs args
  | .sequence elements => usesOfExprs elements
  | _ => []

def usesOfExprs : List Expr → List Use
  | [] => []
  | e :: es => e.uses ++ usesOfExprs es

end

mutual

/-- Whether control may go on behind a statement. It does not behind a return, nor behind a branch or
a loop over elements if it does not behind the blocks of these. -/
def Stmt.goesOn (Γ : Bindings) : Stmt → Bool
  | .ret _ => false
  | .branch _ block rest => stmtsGoOn Γ block || rest.goesOn Γ
  | .forIn index element sequence body =>
    Γ.namesEmpty sequence || stmtsGoOn (Γ.inLoop index element) body
  | _ => true

def stmtsGoOn (Γ : Bindings) : List Stmt → Bool
  | [] => true
  | s :: ss => s.goesOn Γ && stmtsGoOn Γ ss

def ElseChain.goesOn (Γ : Bindings) : ElseChain → Bool
  | .none => true
  | .otherwise block => stmtsGoOn Γ block
  | .elseIf _ block rest => stmtsGoOn Γ block || rest.goesOn Γ

end

/-- How much of a program is looked at: all of it, or what is left without the statements behind one
that control does not go on behind and without the bodies of loops over empty sequences. -/
inductive Extent
  | all
  | live
  deriving DecidableEq

mutual

/-- The names that a statement uses, each with the variables that are in sight there. -/
def Stmt.uses (extent : Extent) (Γ : Bindings) : Stmt → List (Bindings × Use)
  | .expr e => e.uses.map (Γ, ·)
  | .ret value => value.elim [] fun e => e.uses.map (Γ, ·)
  | .branch condition block rest =>
    condition.uses.map (Γ, ·) ++ usesOfStmts extent Γ block ++ rest.uses extent Γ
  | .whileLoop condition body => condition.uses.map (Γ, ·) ++ usesOfStmts extent Γ body
  | .forIn index element sequence body =>
    sequence.uses.map (Γ, ·) ++
      if extent = .live ∧ Γ.namesEmpty sequence then []
      else usesOfStmts extent (Γ.inLoop index element) body

def usesOfStmts (extent : Extent) (Γ : Bindings) : List Stmt → List (Bindings × Use)
  | [] => []
  | s :: ss =>
    s.uses extent Γ ++ if extent = .live ∧ s.goesOn Γ = false then [] else usesOfStmts extent Γ ss

def ElseChain.uses (extent : Extent) (Γ : Bindings) : ElseChain → List (Bindings × Use)
  | .none => []
  | .otherwise block => usesOfStmts extent Γ block
  | .elseIf condition block rest =>
    condition.uses.map (Γ, ·) ++ usesOfStmts extent Γ block ++ rest.uses extent Γ

end

/-- The length of a sequence. -/
def DataType.len? : DataType → Option Nat
  | .sequence _ n => some n
  | _ => none

theorem DataType.len?_of_isScalar {ty : DataType} (h : ty.isScalar = true) : ty.len? = none := by
  cases ty with
  | sequence => cases h
  | _ => rfl

theorem Flow.goesOn_join (a b : Flow) : (a.join b).goesOn = (a.goesOn || b.goesOn) := by
  cases a <;> cases b <;> rfl

/-- What the rules take names for comes from the variables in sight and from the prototypes. Only
variables whose types are written are sequences. -/
structure Bindings.Describes (protos : List Prototype) (Γ : Bindings) (names : Names) : Prop where
  lookup : ∀ x, Γ.lookup x = (names.type? x).map DataType.len?
  proper : ∀ {x ty}, names.type? x = some ty → ty.Proper
  callees : ∀ {callee sig}, names.signature? callee = some sig →
    (Use.call callee sig.params.length).Resolves protos Γ
  results : ∀ {callee sig}, names.signature? callee = some sig → sig.result.len? = none

namespace Bindings.Describes

variable {protos : List Prototype} {Γ : Bindings} {names : Names} {e : Expr} {ty elem : DataType}
  {n : Nat} {x : String} {result : DataType}

theorem bind (h : Γ.Describes protos names) (x : String) (hproper : ty.Proper) :
    Describes protos ((x, ty.len?) :: Γ) (names.bind x ty) where
  lookup y := by
    rw [List.lookup_cons]
    unfold Names.bind
    by_cases hy : y = x
    · simp [hy]
    · simp [hy, beq_false_of_ne hy, h.lookup y]
  proper {y ty'} hty := by
    unfold Names.bind at hty
    dsimp only at hty
    split at hty
    · exact Option.some.inj hty ▸ hproper
    · exact h.proper hty
  callees hsig := h.callees hsig
  results hsig := h.results hsig

theorem inLoop (h : Γ.Describes protos names) (index : Option String) (element : String)
    (hscalar : elem.isScalar = true) :
    (Γ.inLoop index element).Describes protos (names.inLoop index element elem) := by
  have helement : ∀ {Γ : Bindings} {names : Names}, Γ.Describes protos names →
      Describes protos ((element, none) :: Γ) (names.bind element elem) := fun h =>
    DataType.len?_of_isScalar hscalar ▸ h.bind element (DataType.proper_of_isScalar hscalar)
  cases index with
  | none => exact helement h
  | some i => exact helement (h.bind i (show DataType.int.Proper from trivial))

theorem mem (h : Γ.Describes protos names) (hty : names.type? x = some ty) :
    x ∈ Γ.map Prod.fst := by
  by_contra hfree
  have hnone : Γ.lookup x = none := List.lookup_eq_none_iff.mpr fun p hp => by
    have hne : x ≠ p.1 := fun heq => hfree (heq ▸ List.mem_map_of_mem hp)
    simpa using hne
  rw [h.lookup, hty] at hnone
  cases hnone

/-- A sequence is a variable, or it is written out and has elements. -/
theorem of_sequence (h : Γ.Describes protos names) (hty : HasType names e (.sequence elem n)) :
    elem.isScalar = true ∧ Γ.namesEmpty e = decide (n = 0) := by
  generalize hseq : DataType.sequence elem n = ty at hty
  cases hty with
  | name hname =>
    subst hseq
    refine ⟨h.proper hname, ?_⟩
    simp [namesEmpty, h.lookup, hname, DataType.len?, Bool.beq_eq_decide_eq]
  | sequence hne hscalar _ =>
    cases hseq
    refine ⟨hscalar, ?_⟩
    simp [namesEmpty, hne]
  | overload _ _ hsig _ | unary _ hsig _ | call hsig _ =>
    have hlen := h.results hsig
    rw [← hseq] at hlen
    cases hlen
  | builtin _ _ _ hop =>
    subst hseq
    cases hop with
    | arith _ hmem => simp at hmem
  | _ => cases hseq

mutual

/-- All names in an expression that has a type resolve. -/
theorem expr_resolves (h : Γ.Describes protos names) :
    ∀ (e : Expr) {ty : DataType}, HasType names e ty → ∀ u ∈ e.uses, u.Resolves protos Γ
  | .string _, _, _ => nofun
  | .number _, _, _ => nofun
  | .bool _, _, _ => nofun
  | .variable x, _, hty => by
    cases hty with
    | name hname =>
      rw [Expr.uses, List.forall_mem_singleton]
      exact h.mem hname
  | .binary _ lhs rhs, _, hty => by
    rw [Expr.uses, List.forall_mem_append]
    cases hty with
    | overload hl hr _ _ => exact ⟨expr_resolves h lhs hl, expr_resolves h rhs hr⟩
    | builtin hl hr _ _ => exact ⟨expr_resolves h lhs hl, expr_resolves h rhs hr⟩
  | .unary _ operand, _, hty => by
    rw [Expr.uses]
    cases hty with
    | unary hoperand _ _ => exact expr_resolves h operand hoperand
  | .call callee args, _, hty => by
    rw [Expr.uses, List.forall_mem_cons]
    cases hty with
    | call hsig hargs =>
      have htyped : ∀ e ∈ args, ∃ ty, HasType names e ty :=
        ((List.forall₂_and_left _ _).mp (hargs.imp fun _ ty hty => ⟨⟨ty, hty⟩, hty⟩)).1
      exact ⟨hargs.length_eq ▸ h.callees hsig, exprs_resolve h args htyped⟩
  | .sequence elements, _, hty => by
    rw [Expr.uses]
    cases hty with
    | sequence _ _ hes => exact exprs_resolve h elements fun e he => ⟨_, hes e he⟩

theorem exprs_resolve (h : Γ.Describes protos names) :
    ∀ (es : List Expr), (∀ e ∈ es, ∃ ty, HasType names e ty) →
      ∀ u ∈ usesOfExprs es, u.Resolves protos Γ
  | [], _ => nofun
  | e :: es, hes => by
    obtain ⟨⟨ty, hty⟩, hes⟩ := List.forall_mem_cons.mp hes
    rw [usesOfExprs, List.forall_mem_append]
    exact ⟨expr_resolves h e hty, exprs_resolve h es hes⟩

end

/-- The names in an expression, with the variables in sight there. -/
theorem here (h : Γ.Describes protos names) (hty : HasType names e ty) :
    ∀ p ∈ e.uses.map (Γ, ·), p.2.Resolves protos p.1 := by
  intro p hp
  obtain ⟨u, hu, rfl⟩ := List.mem_map.mp hp
  exact h.expr_resolves e hty u hu

mutual

/-- The names in the live part of a statement resolve, and whether control goes on behind it is what
the rules say. -/
theorem stmt_resolves : ∀ (s : Stmt) {Γ : Bindings} {names : Names} {flow : Flow},
    Γ.Describes protos names → StmtTyped result names s flow →
      (∀ p ∈ s.uses .live Γ, p.2.Resolves protos p.1) ∧ s.goesOn Γ = flow.goesOn
  | .expr e, Γ, names, flow, h, htyped => by
    cases htyped with
    | expr hty => exact ⟨by simpa only [Stmt.uses] using h.here hty, rfl⟩
  | .ret value, Γ, names, flow, h, htyped => by
    cases htyped with
    | bareReturn => exact ⟨by simp [Stmt.uses], rfl⟩
    | ret hty => exact ⟨by simpa only [Stmt.uses, Option.elim_some] using h.here hty, rfl⟩
  | .branch condition block rest, Γ, names, flow, h, htyped => by
    cases htyped with
    | branch hcond hblock hrest =>
      obtain ⟨huses, hgoes⟩ := stmts_resolve block h hblock
      obtain ⟨huses', hgoes'⟩ := else_resolves rest h hrest
      rw [Stmt.uses, Stmt.goesOn, hgoes, hgoes', Flow.goesOn_join, List.forall_mem_append,
        List.forall_mem_append]
      exact ⟨⟨⟨h.here hcond, huses⟩, huses'⟩, rfl⟩
  | .whileLoop condition body, Γ, names, flow, h, htyped => by
    cases htyped with
    | whileLoop hcond hbody =>
      rw [Stmt.uses, List.forall_mem_append]
      exact ⟨⟨h.here hcond, (stmts_resolve body h hbody).1⟩, rfl⟩
  | .forIn index element sequence body, Γ, names, flow, h, htyped => by
    rw [Stmt.uses, Stmt.goesOn, List.forall_mem_append]
    cases htyped with
    | skipped hty =>
      obtain ⟨_, hempty⟩ := h.of_sequence hty
      simp only [hempty, decide_true, and_self, if_true, Bool.true_or]
      exact ⟨⟨h.here hty, nofun⟩, rfl⟩
    | forIn hty hlen hbody =>
      obtain ⟨hscalar, hempty⟩ := h.of_sequence hty
      obtain ⟨huses, hgoes⟩ := stmts_resolve body (h.inLoop index element hscalar) hbody
      simp only [hempty, hlen, decide_false, Bool.false_eq_true, and_false, if_false,
        Bool.false_or]
      exact ⟨⟨h.here hty, huses⟩, hgoes⟩

theorem stmts_resolve : ∀ (ss : List Stmt) {Γ : Bindings} {names : Names} {flow : Flow},
    Γ.Describes protos names → BlockTyped result names ss flow →
      (∀ p ∈ usesOfStmts .live Γ ss, p.2.Resolves protos p.1) ∧ stmtsGoOn Γ ss = flow.goesOn
  | [], Γ, names, flow, h, htyped => by
    cases htyped with
    | nil => exact ⟨nofun, rfl⟩
  | s :: ss, Γ, names, flow, h, htyped => by
    rw [usesOfStmts, stmtsGoOn, List.forall_mem_append]
    cases htyped with
    | last hs =>
      obtain ⟨huses, hgoes⟩ := stmt_resolves s h hs
      simp only [hgoes, Flow.goesOn, and_self, if_true, Bool.false_and]
      exact ⟨⟨huses, nofun⟩, trivial⟩
    | next hs hss =>
      obtain ⟨huses, hgoes⟩ := stmt_resolves s h hs
      obtain ⟨huses', hgoes'⟩ := stmts_resolve ss h hss
      simp only [hgoes, Flow.goesOn, Bool.true_eq_false, and_false, if_false, Bool.true_and]
      exact ⟨⟨huses, huses'⟩, hgoes'⟩

theorem else_resolves : ∀ (rest : ElseChain) {Γ : Bindings} {names : Names} {flow : Flow},
    Γ.Describes protos names → ElseTyped result names rest flow →
      (∀ p ∈ rest.uses .live Γ, p.2.Resolves protos p.1) ∧ rest.goesOn Γ = flow.goesOn
  | .none, Γ, names, flow, h, htyped => by
    cases htyped with
    | none => exact ⟨nofun, rfl⟩
  | .otherwise block, Γ, names, flow, h, htyped => by
    cases htyped with
    | otherwise hblock =>
      rw [ElseChain.uses, ElseChain.goesOn]
      exact stmts_resolve block h hblock
  | .elseIf condition block rest, Γ, names, flow, h, htyped => by
    cases htyped with
    | elseIf hcond hblock hrest =>
      obtain ⟨huses, hgoes⟩ := stmts_resolve block h hblock
      obtain ⟨huses', hgoes'⟩ := else_resolves rest h hrest
      rw [ElseChain.uses, ElseChain.goesOn, hgoes, hgoes', Flow.goesOn_join,
        List.forall_mem_append, List.forall_mem_append]
      exact ⟨⟨⟨h.here hcond, huses⟩, huses'⟩, rfl⟩

end

end Bindings.Describes

end SsaCompiler
