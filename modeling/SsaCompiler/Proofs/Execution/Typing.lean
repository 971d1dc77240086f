import SsaCompiler.Proofs.Building.Assembly
import SsaCompiler.Proofs.Execution.TypedMemory

/-!
Instructions on typed memory. An operation needs operands of certain types, and the check of a
function finds them. Given such operands, an instruction gives a value of its type and leaves every
slot of memory with a value of its type.
-/
namespace SsaCompiler.Ir

variable {η : Type}

section Environment

open Classical in
/-- Where code runs on typed memory: `strings` are the strings of its module, and `answer` answers
its calls. -/
noncomputable def Heap.environment (strings : List String)
    (answer : Heap η → String → List (Val Object) → Option (Reply Object (Heap η))) :
    Environment Object (Heap η) where
  equal a b := decide (a = b)
  equal_iff _ _ := decide_eq_true_iff
  string := .string
  string_injective _ _ := Object.string.inj
  alloca h t := some (h.alloca t)
  load h _ := h.load strings
  store := Heap.store
  element _ := Heap.element
  call := answer

/-- Calls keep to the signatures of the module: with arguments of the types of the parameters they
return values of the declared type, and they write memory at its types only. -/
def Heap.Answers (m : Module)
    (answer : Heap η → String → List (Val Object) → Option (Reply Object (Heap η))) : Prop :=
  ∀ h callee types ret args v h', m.calleeSignature? callee = some (types, ret) → h.Typed →
    List.Forall₂ (Val.OfType h.types) args types →
    answer h callee args = some (.returned v h') →
    h.Extends h' ∧ ∀ a, v = some a → a.OfType h'.types ret

end Environment

/-- The types that the operands of an operation other than a phi need to have, where the result has
type `ty`. -/
inductive Op.Needs (m : Module) : (ty : Ty) → Op → List Ty → Prop
  | binary {op : BinOp} {l r : Value} : Needs m op.ty (.binary op l r) [op.ty, op.ty]
  | icmp {pred : IntPred} {l r : Value} {t : Ty} : t.isInteger ∨ t.pointee?.isSome →
      Needs m .i1 (.icmp pred l r) [t, t]
  | fcmp {pred : FloatPred} {l r : Value} : Needs m .i1 (.fcmp pred l r) [.double, .double]
  | call {callee : String} {args : List Value} {types : List Ty} {ret : Ty} :
      m.calleeSignature? callee = some (types, ret) → Needs m ret (.call callee args) types
  | alloca {t : Ty} : Needs m (.ptr t) (.alloca t) []
  | load {p : Value} {t : Ty} : Needs m t (.load p) [.ptr t]
  | store {v p : Value} {t ty : Ty} : Needs m ty (.store v p) [t, .ptr t]
  | elementPtr {base i : Value} {elem : Ty} {n : Nat} :
      Needs m (.ptr elem) (.elementPtr base i) [.ptr (.array elem n), .i64]

/-- The check of an operation finds the types it needs, apart from the type of a comparison. -/
theorem Function.OpTyped.needs {f : Function} {m : Module} {ty : Ty} {op : Op}
    (h : f.OpTyped m ty op) (hplain : op.isPhi = false) (hcmp : op.Compares → ty = .i1) :
    op.Needs m ty (op.operands.map f.typeOf) := by
  cases op with
  | binary op l r =>
    obtain ⟨hl, hr, rfl⟩ := h
    simpa [Op.operands, hl, hr] using Op.Needs.binary
  | icmp pred l r =>
    obtain ⟨hlr, ht⟩ := h
    obtain rfl := hcmp trivial
    simpa [Op.operands, hlr] using Op.Needs.icmp (hlr ▸ ht)
  | fcmp pred l r =>
    obtain ⟨hl, hr⟩ := h
    obtain rfl := hcmp trivial
    simpa [Op.operands, hl, hr] using Op.Needs.fcmp
  | call callee args => exact .call h
  | phi incoming => cases hplain
  | alloca t =>
    obtain rfl := h
    exact .alloca
  | load p =>
    have hp : f.typeOf p = .ptr ty := h
    simpa [Op.operands, hp] using Op.Needs.load
  | store v p =>
    have hp : f.typeOf p = .ptr (f.typeOf v) := h
    simpa [Op.operands, hp] using Op.Needs.store
  | elementPtr base i =>
    obtain ⟨elem, n, hbase, hi, rfl⟩ := h
    simpa [Op.operands, hbase, hi] using Op.Needs.elementPtr

section Values

variable {slots : List Ty} {a c x : Val Object} {t : Ty}

theorem BinOp.ofType_onValues {op : BinOp} (ha : a.OfType slots op.ty) (hc : c.OfType slots op.ty)
    (hx : op.onValues? a c = some x) : x.OfType slots op.ty := by
  have hundef : ∀ {o : Option (Val Object)}, (o = some .undef ∨ o = none) → o = some x →
      x.OfType slots op.ty := by
    rintro o (rfl | rfl) ho
    · exact Option.some.inj ho ▸ .undef _
    · cases ho
  cases hfloat : op.isFloat with
  | true =>
    have hty : op.ty = .double := by simp [BinOp.ty, hfloat]
    rw [hty] at ha hc
    cases ha with
    | undef => cases hc <;> exact hundef (.inl rfl) hx
    | float y =>
      cases hc with
      | undef => exact hundef (.inl rfl) hx
      | float z =>
        obtain ⟨w, _, rfl⟩ := Option.map_eq_some_iff.mp hx
        exact hty ▸ .float w
  | false =>
    have hty : op.ty = .i64 := by simp [BinOp.ty, hfloat]
    rw [hty] at ha hc
    cases ha with
    | undef =>
      cases hc with
      | undef => exact hundef (.inl rfl) hx
      | int n =>
        refine hundef ?_ hx
        simp only [BinOp.onValues?]
        split
        · exact .inr rfl
        · exact .inl rfl
    | int n =>
      cases hc with
      | undef => exact hundef (.inl rfl) hx
      | int k =>
        obtain ⟨w, _, rfl⟩ := Option.map_eq_some_iff.mp hx
        exact hty ▸ .int w

/-- A comparison gives a boolean or nothing definite. -/
theorem IntPred.ofType_onValues {equal : Object → Object → Bool} {pred : IntPred}
    (hx : pred.onValues? equal a c = some x) : x.OfType slots .i1 := by
  unfold IntPred.onValues? at hx
  split at hx
  case h_3 =>
    split at hx
    · exact Option.some.inj hx ▸ .bool _
    · exact Option.some.inj hx ▸ .bool _
    · cases hx
  case h_6 => cases hx
  case h_4 | h_5 => exact Option.some.inj hx ▸ .undef _
  case h_1 | h_2 => exact Option.some.inj hx ▸ .bool _

theorem FloatPred.ofType_onValues {pred : FloatPred} (hx : pred.onValues? a c = some x) :
    x.OfType slots .i1 := by
  unfold FloatPred.onValues? at hx
  split at hx
  · exact Option.some.inj hx ▸ .bool _
  · exact Option.some.inj hx ▸ .undef _
  · exact Option.some.inj hx ▸ .undef _
  · cases hx

end Values

section Instructions

variable {m : Module} {strings : List String} {h h' : Heap η} {types : List Ty}
  {answer : Heap η → String → List (Val Object) → Option (Reply Object (Heap η))}
  {ev : Value → Option (Val Object)} {v : Option (Val Object)} {calls : List (Call Object)}

/-- Operands have values of the given types. -/
def Value.Have (ev : Value → Option (Val Object)) (slots : List Ty) : List Value → List Ty → Prop :=
  List.Forall₂ fun v t => ∃ a, ev v = some a ∧ a.OfType slots t

theorem Value.Have.one {slots : List Ty} {v : Value} {t : Ty} (h : Value.Have ev slots [v] [t]) :
    ∃ a, ev v = some a ∧ a.OfType slots t := (List.forall₂_cons.mp h).1

theorem Value.Have.two {slots : List Ty} {v w : Value} {t u : Ty}
    (h : Value.Have ev slots [v, w] [t, u]) :
    (∃ a, ev v = some a ∧ a.OfType slots t) ∧ ∃ a, ev w = some a ∧ a.OfType slots u :=
  ⟨(List.forall₂_cons.mp h).1, Value.Have.one (List.forall₂_cons.mp h).2⟩

theorem Value.Have.values {slots : List Ty} {vs : List Value} {values : List (Val Object)}
    (hhave : Value.Have ev slots vs types) (hvalues : vs.mapM ev = some values) :
    List.Forall₂ (Val.OfType slots) values types := by
  induction hhave generalizing values with
  | nil =>
    obtain rfl : values = [] := by simpa using hvalues
    exact .nil
  | cons hv _ ih =>
    obtain ⟨a, ha, htype⟩ := hv
    rw [List.mapM_cons] at hvalues
    obtain ⟨a', ha', hvalues⟩ := Option.bind_eq_some_iff.mp hvalues
    obtain ⟨rest, hrest, heq⟩ := Option.bind_eq_some_iff.mp hvalues
    obtain rfl := Option.some.inj heq
    obtain rfl := Option.some.inj (ha.symm.trans ha')
    exact .cons htype (ih hrest)

/-- What only computes and loads gives a value of its type. -/
theorem Op.Needs.value {ty : Ty} {op : Op} {x : Val Object} (hneeds : op.Needs m ty types)
    (hhave : Value.Have ev h.types op.operands types) (htyped : h.Typed)
    (hx : op.value? (Heap.environment strings answer) ev h ty = some x) : x.OfType h.types ty := by
  cases hneeds with
  | binary =>
    obtain ⟨⟨a, ha, hat⟩, c, hc, hct⟩ := hhave.two
    simp only [value?, ha, hc] at hx
    exact BinOp.ofType_onValues hat hct hx
  | icmp _ =>
    obtain ⟨⟨a, ha, _⟩, c, hc, _⟩ := hhave.two
    simp only [value?, ha, hc] at hx
    exact IntPred.ofType_onValues hx
  | fcmp =>
    obtain ⟨⟨a, ha, _⟩, c, hc, _⟩ := hhave.two
    simp only [value?, ha, hc] at hx
    exact FloatPred.ofType_onValues hx
  | load =>
    obtain ⟨a, ha, hat⟩ := hhave.one
    simp only [value?, ha] at hx
    exact Heap.ofType_load htyped hat hx
  | elementPtr =>
    obtain ⟨⟨a, ha, hat⟩, c, hc, hct⟩ := hhave.two
    simp only [value?, ha, hc] at hx
    exact Heap.ofType_element hat hct hx
  | call | alloca | store => cases hx

/-- An instruction with operands of the types it needs gives a value of its type and keeps memory
typed. -/
theorem Op.Needs.exec {i : Instr} (hneeds : i.op.Needs m i.ty types)
    (hhave : Value.Have ev h.types i.op.operands types) (hanswers : Heap.Answers m answer)
    (htyped : h.Typed)
    (hexec : i.exec (Heap.environment strings answer) ev h = some (.next v h' calls)) :
    h.Extends h' ∧ ∀ a, v = some a → a.OfType h'.types i.ty := by
  obtain ⟨result, ty, op⟩ := i
  dsimp only at hneeds hhave
  -- what only computes leaves memory as it is
  have hcomputes : (op.value? (Heap.environment strings answer) ev h ty).map
        (fun v => Effect.next (some v) h []) = some (.next v h' calls) →
      h.Extends h' ∧ ∀ a, v = some a → a.OfType h'.types ty := by
    intro hmap
    obtain ⟨x, hop, heq⟩ := Option.map_eq_some_iff.mp hmap
    cases heq
    refine ⟨.refl htyped, fun a ha => ?_⟩
    rw [← Option.some.inj ha]
    exact hneeds.value hhave htyped hop
  cases op with
  | call callee args =>
    cases hneeds with
    | call hsig =>
      obtain ⟨values, hvalues, hexec⟩ := Option.bind_eq_some_iff.mp hexec
      obtain ⟨reply, hreply, hexec⟩ := Option.bind_eq_some_iff.mp hexec
      cases reply with
      | stopped w => cases hexec
      | returned v w =>
        cases hexec
        exact hanswers h callee types ty values _ _ hsig htyped (hhave.values hvalues) hreply
  | alloca t =>
    cases hneeds
    cases hexec
    refine ⟨Heap.extends_alloca htyped t, fun a ha => ?_⟩
    rw [← Option.some.inj ha]
    exact h.ofType_alloca t
  | store value ptr =>
    cases hneeds with
    | store =>
      obtain ⟨⟨a, ha, hat⟩, c, hc, hct⟩ := hhave.two
      obtain ⟨a', ha', hexec⟩ := Option.bind_eq_some_iff.mp hexec
      obtain ⟨c', hc', hexec⟩ := Option.bind_eq_some_iff.mp hexec
      obtain ⟨w, hw, heq⟩ := Option.bind_eq_some_iff.mp hexec
      obtain rfl := Option.some.inj (ha.symm.trans ha')
      obtain rfl := Option.some.inj (hc.symm.trans hc')
      cases heq
      exact ⟨Heap.extends_store htyped hat hct hw, nofun⟩
  | _ => exact hcomputes hexec

end Instructions

end SsaCompiler.Ir
