import SsaCompiler.Ir.Body
import Mathlib.Data.List.Forall2

/-!
The places of operands. One rule for each place says which values an instruction or a terminator
takes, and one rule for each form says when two of them differ in their operands alone. The list of
the operands of a body has exactly the values that are taken, and changing the operands changes
nothing else.
-/
namespace SsaCompiler.Ir

/-- The values that an instruction takes. -/
inductive Op.Takes (v : Value) : Op → Prop
  | binaryLeft {op r} : Takes v (.binary op v r)
  | binaryRight {op l} : Takes v (.binary op l v)
  | icmpLeft {pred r} : Takes v (.icmp pred v r)
  | icmpRight {pred l} : Takes v (.icmp pred l v)
  | fcmpLeft {pred r} : Takes v (.fcmp pred v r)
  | fcmpRight {pred l} : Takes v (.fcmp pred l v)
  | arg {callee args} (h : v ∈ args) : Takes v (.call callee args)
  | edge {incoming source} (h : (v, source) ∈ incoming) : Takes v (.phi incoming)
  | loaded : Takes v (.load v)
  | stored {p} : Takes v (.store v p)
  | slot {u} : Takes v (.store u v)
  | base {i} : Takes v (.elementPtr v i)
  | index {b} : Takes v (.elementPtr b v)

/-- The values that a terminator takes. -/
inductive Terminator.Takes (v : Value) : Terminator → Prop
  | test {t e} : Takes v (.condBr v t e)
  | answer : Takes v (.ret (some v))

/-- The values that some instruction or terminator of a body takes. -/
def Body.Takes (v : Value) (b : Body) : Prop :=
  ∃ x ∈ b.blocks, (∃ i ∈ x.instrs, i.op.Takes v) ∨ ∃ t, x.term = some t ∧ t.Takes v

section

variable {v : Value}

theorem Op.takes_iff {op : Op} : op.Takes v ↔ v ∈ op.operands := by
  constructor
  · intro h
    cases h with
    | arg h => exact h
    | edge h => exact List.mem_map_of_mem (f := (·.1)) h
    | _ => simp [operands]
  · intro h
    cases op with
    | call callee args => exact .arg h
    | phi incoming =>
      obtain ⟨⟨u, source⟩, he, rfl⟩ := List.mem_map.mp h
      exact .edge he
    | alloca ty => simp [operands] at h
    | load p =>
      obtain rfl : v = p := by simpa [operands] using h
      exact .loaded
    | _ =>
      obtain rfl | rfl : v = _ ∨ v = _ := by simpa only [operands, List.mem_pair] using h
      all_goals constructor

theorem Terminator.takes_iff {t : Terminator} : t.Takes v ↔ v ∈ t.operands := by
  constructor
  · intro h
    cases h <;> simp [operands]
  · intro h
    cases t with
    | br t => simp [operands] at h
    | condBr c t e =>
      obtain rfl : v = c := by simpa [operands] using h
      exact .test
    | ret u =>
      obtain rfl : u = some v := by simpa [operands] using h
      exact .answer

theorem Body.takes_iff {b : Body} : b.Takes v ↔ v ∈ b.operands := by
  have hblock : ∀ x : Block, v ∈ x.operands ↔
      (∃ i ∈ x.instrs, i.op.Takes v) ∨ ∃ t, x.term = some t ∧ t.Takes v := by
    intro x
    cases hx : x.term <;> simp [Block.operands, hx, Op.takes_iff, Terminator.takes_iff]
  simp only [Body.Takes, operands, List.mem_flatMap, hblock]

end

/-- The same instruction, with operands that `R` relates place by place. -/
inductive Op.Like (R : Value → Value → Prop) : Op → Op → Prop
  | binary {op l r l' r'} (hl : R l l') (hr : R r r') : Like R (.binary op l r) (.binary op l' r')
  | icmp {pred l r l' r'} (hl : R l l') (hr : R r r') : Like R (.icmp pred l r) (.icmp pred l' r')
  | fcmp {pred l r l' r'} (hl : R l l') (hr : R r r') : Like R (.fcmp pred l r) (.fcmp pred l' r')
  | call {callee args args'} (h : List.Forall₂ R args args') :
      Like R (.call callee args) (.call callee args')
  | phi {edges edges'} (h : List.Forall₂ (fun e e' => R e.1 e'.1 ∧ e.2 = e'.2) edges edges') :
      Like R (.phi edges) (.phi edges')
  | alloca {ty} : Like R (.alloca ty) (.alloca ty)
  | load {p p'} (h : R p p') : Like R (.load p) (.load p')
  | store {v p v' p'} (hv : R v v') (hp : R p p') : Like R (.store v p) (.store v' p')
  | elementPtr {b i b' i'} (hb : R b b') (hi : R i i') :
      Like R (.elementPtr b i) (.elementPtr b' i')

inductive Terminator.Like (R : Value → Value → Prop) : Terminator → Terminator → Prop
  | br {t} : Like R (.br t) (.br t)
  | condBr {c c' t e} (h : R c c') : Like R (.condBr c t e) (.condBr c' t e)
  | ret {v v'} (h : Option.Rel R v v') : Like R (.ret v) (.ret v')

structure Instr.Like (R : Value → Value → Prop) (i i' : Instr) : Prop where
  result : i.result = i'.result
  ty : i.ty = i'.ty
  op : i.op.Like R i'.op

structure Block.Like (R : Value → Value → Prop) (x x' : Block) : Prop where
  id : x.id = x'.id
  name : x.name = x'.name
  instrs : List.Forall₂ (Instr.Like R) x.instrs x'.instrs
  term : Option.Rel (Terminator.Like R) x.term x'.term

structure Body.Like (R : Value → Value → Prop) (b b' : Body) : Prop where
  blocks : List.Forall₂ (Block.Like R) b.blocks b'.blocks
  regTypes : b.regTypes = b'.regTypes
  nextBlock : b.nextBlock = b'.nextBlock

theorem forall₂_map_self {α : Type} {S : α → α → Prop} {f : α → α} {l : List α}
    (h : ∀ a ∈ l, S a (f a)) : List.Forall₂ S l (l.map f) :=
  List.forall₂_map_right_iff.mpr (List.forall₂_same.mpr h)

theorem rel_map_self {α : Type} {S : α → α → Prop} {f : α → α} {o : Option α}
    (h : ∀ a, o = some a → S a (f a)) : Option.Rel S o (o.map f) := by
  cases o with
  | none => exact .none
  | some a => exact .some (h a rfl)

section

variable {R : Value → Value → Prop} {σ : Value → Value}

theorem Op.like_mapOperands {op : Op} (h : ∀ v, op.Takes v → R v (σ v)) :
    op.Like R (op.mapOperands σ) := by
  cases op with
  | call callee args => exact .call (forall₂_map_self fun v hv => h v (.arg hv))
  | phi edges => exact .phi (forall₂_map_self fun e he => ⟨h e.1 (.edge he), rfl⟩)
  | alloca ty => exact .alloca
  | load p => exact .load (h p .loaded)
  | _ => constructor <;> exact h _ (by constructor)

theorem Terminator.like_mapOperands {t : Terminator} (h : ∀ v, t.Takes v → R v (σ v)) :
    t.Like R (t.mapOperands σ) := by
  cases t with
  | br t => exact .br
  | condBr c t e => exact .condBr (h c .test)
  | ret v => exact .ret (rel_map_self fun u hu => h u (hu ▸ .answer))

theorem Body.like_mapOperands {b : Body} (h : ∀ v, b.Takes v → R v (σ v)) :
    b.Like R (b.mapOperands σ) where
  blocks := forall₂_map_self fun x hx =>
    { id := rfl
      name := rfl
      instrs := forall₂_map_self fun i hi =>
        ⟨rfl, rfl, Op.like_mapOperands fun v hv => h v ⟨x, hx, .inl ⟨i, hi, hv⟩⟩⟩
      term := rel_map_self fun t ht =>
        Terminator.like_mapOperands fun v hv => h v ⟨x, hx, .inr ⟨t, ht, hv⟩⟩ }
  regTypes := rfl
  nextBlock := rfl

end

end SsaCompiler.Ir
