import SsaCompiler.Proofs.Building.Layout
import SsaCompiler.Proofs.Lowering.Signatures
import SsaCompiler.Proofs.Lowering.Yields
import SsaCompiler.Proofs.Typing.Rules

/-!
Steps of building do not fail where there is a current block. For this it is enough to know the
numbers of the blocks. A step follows a verdict if it fails with the error of the verdict, and
otherwise yields something that belongs to the value of the verdict. That steps do what the rules say
is shown without looking at blocks, for steps that may fail to build.
-/
namespace SsaCompiler

open Ir LowerM

namespace Ir.Builder

variable {b b' : Builder}

/-- The same blocks are there, and the same one is current. -/
structure Stays (b b' : Builder) : Prop where
  ids : b'.body.ids = b.body.ids
  next : b'.body.nextBlock = b.body.nextBlock
  current : b'.current = b.current

theorem exists_updateCurrent (hcur : b.current ∈ b.body.ids) {f : Block → Block}
    (hid : ∀ x, (f x).id = x.id) : ∃ b', b.updateCurrent f = .ok b' ∧ b.Stays b' := by
  have hsome := Body.block?_isSome.mpr hcur
  refine ⟨_, if_pos hsome, ?_, rfl, rfl⟩
  exact Body.ids_updateBlock hid

theorem exists_push (hcur : b.current ∈ b.body.ids) (ty : Ty) (op : Op) :
    ∃ v b', b.push ty op = .ok (v, b') ∧ b.Stays b' := by
  have hsome := Body.block?_isSome.mpr hcur
  exact ⟨_, b.pushed ty op, by rw [push_eq, if_pos hsome], Body.ids_updateBlock fun _ => rfl, rfl, rfl⟩

theorem exists_pushValue (hcur : b.current ∈ b.body.ids) (ty : Ty) (op : Op) :
    ∃ v b', b.pushValue ty op = .ok (v, b') ∧ b.Stays b' := by
  obtain ⟨v, b', hpush, hstays⟩ := exists_push hcur ty op
  refine ⟨v.getD (.const (.undef .void)), b', ?_, hstays⟩
  unfold pushValue
  rw [hpush]
  rfl

theorem exists_store (hcur : b.current ∈ b.body.ids) (value ptr : Value) :
    ∃ b', b.store value ptr = .ok b' ∧ b.Stays b' := by
  obtain ⟨v, b', hpush, hstays⟩ := exists_push hcur .void (.store value ptr)
  refine ⟨b', ?_, hstays⟩
  unfold store
  rw [hpush]
  rfl

theorem exists_phi (hcur : b.current ∈ b.body.ids) (ty : Ty) (incoming : List (Value × BlockId)) :
    ∃ v b', b.phi ty incoming = .ok (v, b') ∧ b.Stays b' := by
  obtain ⟨b', hupdate, hstays⟩ := exists_updateCurrent (b := { b with body := (b.body.newReg ty).2 })
    hcur (f := fun x => { x with
      instrs := insertAfter (·.op.isPhi) ⟨some b.body.regTypes.length, ty, .phi incoming⟩ x.instrs })
    fun _ => rfl
  refine ⟨.reg b.body.regTypes.length, b', ?_, hstays.ids, hstays.next, hstays.current⟩
  unfold phi
  change (({ b with body := (b.body.newReg ty).2 } : Builder).updateCurrent _ >>= _) = _
  rw [hupdate]
  rfl

theorem exists_alloca (hcur : b.current ∈ b.body.ids) (ty : Ty) :
    ∃ v b', b.alloca ty = .ok (v, b') ∧ b.Stays b' := by
  obtain ⟨x, hx, _⟩ := Body.mem_ids.mp hcur
  obtain ⟨y, ys, hblocks⟩ := List.exists_cons_of_ne_nil (List.ne_nil_of_mem hx)
  unfold alloca
  dsimp only [Body.newReg]
  rw [hblocks]
  exact ⟨_, _, rfl, by simp [Body.ids, hblocks], rfl, rfl⟩

theorem exists_terminate (hcur : b.current ∈ b.body.ids) (t : Terminator) :
    ∃ b', b.terminate t = .ok b' ∧ b.Stays b' :=
  exists_updateCurrent hcur fun _ => rfl

theorem stays_addIncoming (b : Builder) (phi value : Value) (source : BlockId) :
    b.Stays (b.addIncoming phi value source) := by
  cases phi with
  | reg r => exact ⟨map_modifyFirst fun _ => rfl, rfl, rfl⟩
  | _ => exact ⟨rfl, rfl, rfl⟩

theorem mem_ids_moveToEnd {u v : BlockId} :
    u ∈ (b.moveToEnd v).body.ids ↔ u ∈ b.body.ids := by
  obtain ⟨blocks, heq, hperm⟩ := b.exists_perm_moveToEnd v
  rw [heq]
  exact (hperm.map _).mem_iff

theorem next_moveToEnd (b : Builder) (v : BlockId) :
    (b.moveToEnd v).body.nextBlock = b.body.nextBlock := by
  obtain ⟨blocks, heq, _⟩ := b.exists_perm_moveToEnd v
  rw [heq]

end Ir.Builder

theorem Scope.lookup?_bind (scope : Scope) (name n : String) (v : TypedValue) :
    (scope.bind name v).lookup? n = if n = name then some v else scope.lookup? n := by
  unfold Scope.bind Scope.lookup?
  rw [List.findSome?_cons, List.findSome?_cons, List.lookup_cons]
  by_cases hn : n = name
  · rw [if_pos hn, beq_iff_eq.mpr hn]
  · rw [if_neg hn, beq_false_of_ne hn]

namespace Lowering

variable {s s' : Lowering} {α β γ δ : Type}

/-- What the names in a state stand for. -/
def names (s : Lowering) : Names where
  signature? n := (s.module.function? n).bind Signature.of?
  type? n := (s.scope.lookup? n).map (·.type)

theorem names_bind (s : Lowering) (name : String) (v : TypedValue) :
    Lowering.names { s with scope := s.scope.bind name v } = s.names.bind name v.type := by
  unfold Lowering.names Names.bind
  congr 1
  funext n
  dsimp only
  rw [Scope.lookup?_bind]
  split <;> rfl

/-- There is a current block, and the number of the next block is new. -/
structure Ready (s : Lowering) : Prop where
  current : s.builder.current ∈ s.builder.body.ids
  fresh : ∀ v ∈ s.builder.body.ids, v < s.builder.body.nextBlock

theorem Ready.builder?_eq (h : s.Ready) : s.builder? = some s.builder := by
  obtain ⟨x, hx, _⟩ := List.mem_map.mp h.current
  exact Lowering.builder?_eq (isSome_of_mem hx)

/-- Names stand for the same. -/
structure Passes (s s' : Lowering) : Prop where
  functions : s'.module.functions = s.module.functions
  scope : s'.scope = s.scope

theorem Passes.names (h : s.Passes s') : s'.names = s.names := by
  unfold Lowering.names Module.function?
  rw [h.functions, h.scope]

/-- The outcome from `s` is that of the verdict, and names stand for the same, unless building fails. -/
def Heeds (s : Lowering) (Q : α → β → Prop) (verdict : Except CompileError β) :
    Except CompileError α × Lowering → Prop
  | (.ok a, s') => s.Passes s' ∧ ∃ b, verdict = .ok b ∧ Q a b
  | (.error e, _) => (∃ broken, e = .build broken) ∨ verdict = .error e

theorem Passes.heeds (h : s.Passes s') {Q : α → β → Prop} {verdict : Except CompileError β}
    {p : Except CompileError α × Lowering} (hp : s'.Heeds Q verdict p) : s.Heeds Q verdict p := by
  obtain ⟨_ | a, s''⟩ := p
  · exact hp
  · exact ⟨⟨hp.1.functions.trans h.functions, hp.1.scope.trans h.scope⟩, hp.2⟩

/-- Wherever the step is done, its outcome is that of the rules, given what names stand for. -/
def Judged (x : LowerM α) (Q : α → β → Prop) (verdict : Names → Except CompileError β) : Prop :=
  ∀ s : Lowering, s.Heeds Q (verdict s.names) (x.run.run s)

/-- The rules do not speak of the step. It may only fail to build. -/
abbrev Skips (x : LowerM α) : Prop := Judged x (fun _ (_ : Unit) => True) fun _ => .ok ()

/-- The step does what the verdict says: it fails with the same error, or it yields a value and a
state that `Q` relates to the value of the verdict. -/
def Follows (x : LowerM α) (s : Lowering) (Q : α → β → Lowering → Prop) :
    Except CompileError β → Prop
  | .ok b => ∃ a s', Yields x s a s' ∧ Q a b s'
  | .error e => ∃ s', x.run.run s = (.error e, s')

section Steps

variable {x : LowerM α} {f : α → LowerM γ} {Q : α → β → Prop} {R : γ → δ → Prop}
  {verdict : Names → Except CompileError β} {rest : Names → Except CompileError δ} {e : CompileError}

theorem Judged.pure {a : α} {b : β} (h : Q a b) : Judged (pure a) Q fun _ => .ok b :=
  fun _ => ⟨⟨rfl, rfl⟩, b, rfl, h⟩

theorem Judged.throw : Judged (throw e) Q fun _ => .error e := fun _ => .inr rfl

theorem Judged.bind {next : β → Names → Except CompileError δ} (hx : Judged x Q verdict)
    (hf : ∀ a b, Q a b → Judged (f a) R (next b)) :
    Judged (x >>= f) R fun names => verdict names >>= fun b => next b names := by
  intro s
  have hs := hx s
  obtain ⟨⟨r, s1⟩, hrun⟩ : ∃ p, x.run.run s = p := ⟨_, rfl⟩
  rw [hrun] at hs
  cases r with
  | error e =>
    rw [run_bind_error hrun]
    exact hs.imp_right fun hverdict => by
      dsimp only
      rw [hverdict]
      rfl
  | ok a =>
    obtain ⟨hpasses, b, hverdict, hq⟩ := hs
    have hrest := hf a b hq s1
    rw [hpasses.names] at hrest
    dsimp only
    rw [run_bind_ok hrun, hverdict]
    exact hpasses.heeds hrest

theorem Judged.after (hx : Skips x) (hf : ∀ a, Judged (f a) R rest) : Judged (x >>= f) R rest :=
  hx.bind fun a _ _ => hf a

/-- What comes behind a step does not ask the rules. -/
theorem Judged.andThen {R : γ → β → Prop} (hx : Judged x Q verdict)
    (hf : ∀ a b, Q a b → Judged (f a) R fun _ => .ok b) : Judged (x >>= f) R verdict := by
  have hverdict : (fun names => verdict names >>= fun b => .ok b) = verdict :=
    funext fun names => bind_pure (verdict names)
  rw [← hverdict]
  exact hx.bind hf

/-- What a step yields is what the verdict says. -/
theorem Judged.inv {a : α} (hx : Judged x Q verdict) (hy : Yields x s a s') :
    ∃ b, verdict s.names = .ok b ∧ Q a b := by
  have hs := hx s
  rw [hy] at hs
  exact hs.2

theorem Judged.follows (hx : Judged x Q verdict)
    (hbuilt : ∀ broken, (x.run.run s).1 ≠ .error (.build broken)) :
    Follows x s (fun a b _ => Q a b) (verdict s.names) := by
  have hs := hx s
  obtain ⟨⟨r, s1⟩, hrun⟩ : ∃ p, x.run.run s = p := ⟨_, rfl⟩
  rw [hrun] at hs hbuilt
  cases r with
  | error e =>
    rcases hs with ⟨broken, rfl⟩ | hverdict
    · exact absurd rfl (hbuilt broken)
    · rw [hverdict]
      exact ⟨s1, hrun⟩
  | ok a =>
    obtain ⟨_, b, hverdict, hq⟩ := hs
    rw [hverdict]
    exact ⟨a, s1, hrun, hq⟩

theorem Skips.build (f : Builder → Except BuildError (α × Builder)) : Skips (build f) := by
  intro s
  cases hs : s.builder? with
  | none =>
    rw [run_build_none hs]
    exact .inl ⟨_, rfl⟩
  | some b =>
    rw [run_build hs]
    cases f b with
    | ok p => exact ⟨⟨rfl, rfl⟩, (), rfl, trivial⟩
    | error broken => exact .inl ⟨broken, rfl⟩

theorem Skips.emit (f : Builder → Except BuildError Builder) : Skips (emit f) := .build _

theorem Skips.edit (f : Builder → Builder) : Skips (edit f) := .build _

theorem Skips.currentBlock : Skips currentBlock := .build _

theorem Skips.internString (text : String) : Skips (internString text) :=
  fun s => ⟨⟨(s.module.grows_internString text).functions, rfl⟩, (), rfl, trivial⟩

theorem Skips.declareRoutine (r : Routine) : Skips (declareRoutine r) :=
  fun _ => ⟨⟨rfl, rfl⟩, (), rfl, trivial⟩

end Steps

end Lowering

end SsaCompiler
