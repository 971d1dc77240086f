import SsaCompiler.Proofs.Building.Relabeling
import SsaCompiler.Proofs.Lowering.Module
import SsaCompiler.Proofs.Typing.Callees

/-!
Lowering the same code twice, in modules whose functions have the same signatures but whose strings
are numbered in two ways. What becomes of the strings is settled by the tables in the end: from there
a number in the one table is taken to the number of the same text in the other. Where both runs
succeed, they build the same code up to this renumbering.
-/
namespace SsaCompiler

open Ir LowerM

/-- The signatures in two modules agree, except that one of them may lack the function of the
statements outside of functions. -/
structure Ir.Module.Concurs (m m' : Module) : Prop where
  others : ∀ {name}, name ≠ Compilation.toplevelName →
    (m'.function? name).bind Signature.of? = (m.function? name).bind Signature.of?
  both : ∀ {name sig sig'}, (m.function? name).bind Signature.of? = some sig →
    (m'.function? name).bind Signature.of? = some sig' → sig' = sig

/-- The places of the texts of one table in another one. -/
structure Renumbering where
  source : List String
  target : List String
  number : Nat → Nat
  number_eq : ∀ {i j text}, source[i]? = some text → target[j]? = some text → number i = j

namespace Renumbering

variable (R : Renumbering)

def value : Value → Value := Value.relabel R.number

def typed (tv : TypedValue) : TypedValue := ⟨R.value tv.value, tv.type⟩

def frame (f : Frame) : Frame := f.map fun p => (p.1, R.typed p.2)

def scope (s : Scope) : Scope := ⟨R.frame s.inner, s.outer.map R.frame⟩

theorem lookup_frame (f : Frame) (name : String) :
    (R.frame f).lookup name = (f.lookup name).map R.typed := by
  induction f with
  | nil => rfl
  | cons p f ih =>
    obtain ⟨n, tv⟩ := p
    by_cases hn : name = n
    · simp [frame, hn]
    · have hn' : (name == n) = false := by simpa using hn
      simpa [frame, List.lookup_cons, hn'] using ih

theorem lookup?_scope (s : Scope) (name : String) :
    (R.scope s).lookup? name = (s.lookup? name).map R.typed := by
  obtain ⟨inner, outer⟩ := s
  have hfind : ∀ fs : List Frame, (fs.map R.frame).findSome? (·.lookup name) =
      (fs.findSome? (·.lookup name)).map R.typed := by
    intro fs
    induction fs with
    | nil => rfl
    | cons f fs ih =>
      rw [List.map_cons, List.findSome?_cons, List.findSome?_cons, R.lookup_frame]
      cases f.lookup name with
      | none => exact ih
      | some tv => rfl
  exact hfind (inner :: outer)

end Renumbering

/-- The same code under construction, with the strings renumbered. -/
structure Lowering.Mirrors (R : Renumbering) (s t : Lowering) : Prop where
  builder : s.builder.Mirrors R.number t.builder
  scope : t.scope = R.scope s.scope
  names : s.module.Concurs t.module

/-- The step adds strings at the end of the table. -/
def Appends {α : Type} (x : LowerM α) : Prop :=
  ∀ ⦃s a s'⦄, Yields x s a s' → s.module.strings <+: s'.module.strings

theorem inherited_appends : Inherited fun _ x => Appends x :=
  inherited_relating (fun _ => List.prefix_rfl) .trans (fun _ _ => List.prefix_rfl)
    (fun s text => (s.module.grows_internString text).strings) (fun _ _ => List.prefix_rfl)
    fun _ h => h

def evaluated_appends (ctx : LowerContext) : Evaluated ctx fun _ x => Appends x :=
  (inherited_appends.traversed ctx).composed.evaluated (V := [])

theorem appends_editScope (f : Scope → Scope) : Appends (editScope f) := fun _ _ _ h =>
  yields_editScope.mp h ▸ List.prefix_rfl

theorem appends_throw {α : Type} {e : CompileError} : Appends (throw e : LowerM α) :=
  fun _ _ _ h => (not_yields_throw h).elim

/-- Two steps add strings to their tables and, where `p` holds and the tables end up within those of
the renumbering, yield values that `φ` relates and the same code up to the renumbering. -/
structure Parallel {α : Type} (R : Renumbering) (p : Prop) (φ : α → α) (x y : LowerM α) : Prop where
  left : Appends x
  right : Appends y
  mirrors : p → ∀ {s t a b s' t'}, s.Mirrors R t → Yields x s a s' → Yields y t b t' →
    s'.module.strings <+: R.source → t'.module.strings <+: R.target → b = φ a ∧ s'.Mirrors R t'

section Combinators

variable {α β : Type} {R : Renumbering} {p : Prop} {φ : α → α} {ψ : β → β} {x y : LowerM α}
  {f g : α → LowerM β}

theorem Parallel.of_imp (hx : Appends x) (hy : Appends y) (h : p → Parallel R True φ x y) :
    Parallel R p φ x y := ⟨hx, hy, fun hp => (h hp).mirrors trivial⟩

/-- Behind two steps, their values are related. -/
theorem Parallel.bind (hx : Parallel R p φ x y)
    (hf : ∀ a b, Parallel R (p ∧ b = φ a) ψ (f a) (g b)) : Parallel R p ψ (x >>= f) (y >>= g) where
  left := inherited_appends.bind hx.left fun a => (hf a a).left
  right := inherited_appends.bind hx.right fun a => (hf a a).right
  mirrors hp {s t b b' s' t'} hst hb hb' hU hU' := by
    obtain ⟨a, s1, ha, hb⟩ := yields_bind.mp hb
    obtain ⟨a', t1, ha', hb'⟩ := yields_bind.mp hb'
    have hs1 : s1.module.strings <+: R.source := ((hf a a').left hb).trans hU
    have ht1 : t1.module.strings <+: R.target := ((hf a a').right hb').trans hU'
    obtain ⟨hab, hst1⟩ := hx.mirrors hp hst ha ha' hs1 ht1
    exact (hf a a').mirrors ⟨hp, hab⟩ hst1 hb hb' hU hU'

theorem Parallel.bind_id (hx : Parallel R p id x y) (hf : ∀ a, Parallel R p ψ (f a) (g a)) :
    Parallel R p ψ (x >>= f) (y >>= g) := by
  refine hx.bind fun a b => .of_imp (hf a).left (hf b).right ?_
  rintro ⟨hp, rfl⟩
  exact ⟨(hf b).left, (hf b).right, fun _ => (hf b).mirrors hp⟩

theorem parallel_pure {a b : α} (h : p → b = φ a) :
    Parallel R p φ (pure a : LowerM α) (pure b) where
  left := inherited_appends.pure a
  right := inherited_appends.pure b
  mirrors hp {s t a' b' s' t'} hst ha hb _ _ := by
    obtain ⟨rfl, rfl⟩ := yields_pure.mp ha
    obtain ⟨rfl, rfl⟩ := yields_pure.mp hb
    exact ⟨h hp, hst⟩

theorem parallel_throw_left {e : CompileError} (hy : Appends y) :
    Parallel R p φ (throw e : LowerM α) y where
  left := appends_throw
  right := hy
  mirrors _ _ _ _ _ _ _ _ h := (not_yields_throw h).elim

theorem parallel_throw_right {e : CompileError} (hx : Appends x) :
    Parallel R p φ x (throw e : LowerM α) where
  left := hx
  right := appends_throw
  mirrors _ _ _ _ _ _ _ _ _ h := (not_yields_throw h).elim

theorem parallel_throw {e e' : CompileError} :
    Parallel R p φ (throw e : LowerM α) (throw e' : LowerM α) :=
  parallel_throw_left appends_throw

theorem Parallel.ite {c : Prop} [Decidable c] {x' y' : LowerM α} (hx : Parallel R p φ x y)
    (hx' : Parallel R p φ x' y') :
    Parallel R p φ (if c then x else x') (if c then y else y') := by
  split
  · exact hx
  · exact hx'

theorem Parallel.orMissing {name name' : String} {types types' : List DataType}
    (hx : Parallel R p φ x y) :
    Parallel R p φ (orMissing x name types) (orMissing y name' types') where
  left := inherited_appends.orMissing _ _ hx.left
  right := inherited_appends.orMissing _ _ hx.right
  mirrors hp {_ _ _ _ _ _} hst ha hb :=
    hx.mirrors hp hst (yields_orMissing.mp ha) (yields_orMissing.mp hb)

theorem parallel_build {f g : Builder → Except BuildError (α × Builder)}
    (h : p → ∀ {b c a a' b' c'}, b.Mirrors R.number c → f b = .ok (a, b') → g c = .ok (a', c') →
      a' = φ a ∧ b'.Mirrors R.number c') : Parallel R p φ (build f) (build g) where
  left := inherited_appends.build f
  right := inherited_appends.build g
  mirrors hp {s t a a' s' t'} hst ha ha' _ _ := by
    obtain ⟨b, hb, rfl⟩ := of_yields_build ha
    obtain ⟨c, hc, rfl⟩ := of_yields_build ha'
    obtain ⟨hval, hbuilder⟩ := h hp hst.builder hb hc
    exact ⟨hval, hbuilder, hst.scope, hst.names⟩

theorem parallel_emit {f g : Builder → Except BuildError Builder}
    (h : p → ∀ {b c b' c'}, b.Mirrors R.number c → f b = .ok b' → g c = .ok c' →
      b'.Mirrors R.number c') : Parallel R p id (emit f) (emit g) where
  left := inherited_appends.build _
  right := inherited_appends.build _
  mirrors hp {s t a a' s' t'} hst ha ha' _ _ := by
    obtain ⟨b, hb, rfl⟩ := of_yields_emit ha
    obtain ⟨c, hc, rfl⟩ := of_yields_emit ha'
    exact ⟨rfl, h hp hst.builder hb hc, hst.scope, hst.names⟩

theorem parallel_edit {f g : Builder → Builder}
    (h : p → ∀ {b c}, b.Mirrors R.number c → (f b).Mirrors R.number (g c)) :
    Parallel R p id (edit f) (edit g) where
  left := inherited_appends.edit f
  right := inherited_appends.edit g
  mirrors hp {s t a a' s' t'} hst ha ha' _ _ := by
    rw [of_yields_edit ha, of_yields_edit ha']
    exact ⟨rfl, h hp hst.builder, hst.scope, hst.names⟩

theorem parallel_editScope {f g : Scope → Scope}
    (h : p → ∀ scope, g (R.scope scope) = R.scope (f scope)) :
    Parallel R p id (editScope f) (editScope g) where
  left := appends_editScope f
  right := appends_editScope g
  mirrors hp {s t a a' s' t'} hst ha ha' _ _ := by
    rw [yields_editScope.mp ha, yields_editScope.mp ha']
    refine ⟨rfl, hst.builder, ?_, hst.names⟩
    change g t.scope = R.scope (f s.scope)
    rw [hst.scope, h hp]

theorem parallel_currentBlock : Parallel R p id currentBlock currentBlock where
  left := inherited_appends.currentBlock
  right := inherited_appends.currentBlock
  mirrors _ {s t a a' s' t'} hst ha ha' _ _ := by
    obtain ⟨rfl, rfl, _⟩ := yields_currentBlock.mp ha
    obtain ⟨rfl, rfl, _⟩ := yields_currentBlock.mp ha'
    exact ⟨hst.builder.current, hst⟩

theorem Parallel.inFrame (hx : Parallel R p φ x y) : Parallel R p φ (inFrame x) (inFrame y) := by
  have hpush : Parallel R p id (editScope Scope.push) (editScope Scope.push) :=
    parallel_editScope fun _ scope => rfl
  refine hpush.bind_id fun _ => hx.bind fun a b => ?_
  refine (parallel_editScope fun _ scope => ?_).bind_id fun _ => parallel_pure fun h => h.2
  obtain ⟨inner, outer⟩ := scope
  cases outer with
  | nil => rfl
  | cons f fs => rfl

/-- A name may stand for different signatures only if one of them is missing. -/
theorem Parallel.signature? {name : String} {f g : Option Signature → LowerM β}
    (hf : ∀ sig sig', (name ≠ Compilation.toplevelName → sig' = sig) →
      (∀ z z', sig = some z → sig' = some z' → z' = z) → Parallel R p ψ (f sig) (g sig')) :
    Parallel R p ψ (signature? name >>= f) (signature? name >>= g) where
  left := inherited_appends.bind (inherited_appends.signature? name) fun sig =>
    (hf sig sig (fun _ => rfl) (by simp_all)).left
  right := inherited_appends.bind (inherited_appends.signature? name) fun sig =>
    (hf sig sig (fun _ => rfl) (by simp_all)).right
  mirrors hp {s t b b' s' t'} hst hb hb' hU hU' := by
    simp only [yields_bind, yields_signature?] at hb hb'
    obtain ⟨_, _, ⟨rfl, rfl⟩, hb⟩ := hb
    obtain ⟨_, _, ⟨rfl, rfl⟩, hb'⟩ := hb'
    exact (hf _ _ hst.names.others fun _ _ => hst.names.both).mirrors hp hst hb hb' hU hU'

end Combinators

section Strings

variable {R : Renumbering} {p : Prop}

theorem concurs_internString {m m' : Module} (h : m.Concurs m') (text : String) :
    (m.internString text).2.Concurs (m'.internString text).2 := by
  have hfunction : ∀ (m : Module) name, (m.internString text).2.function? name = m.function? name := by
    intro m name
    unfold Module.function?
    rw [(m.grows_internString text).functions]
  refine ⟨fun {name} hname => ?_, fun {name sig sig'} => ?_⟩
  · rw [hfunction, hfunction]
    exact h.others hname
  · rw [hfunction, hfunction]
    exact h.both

theorem getElem?_of_initial {l l' : List String} (h : l <+: l') {i : Nat} {text : String}
    (hi : l[i]? = some text) : l'[i]? = some text := by
  obtain ⟨rest, rfl⟩ := h
  rw [List.getElem?_append_left (List.getElem?_eq_some_iff.mp hi).1, hi]

theorem internString_eq (m : Module) (text : String) : ∃ i,
    (m.internString text).1 = .global i ∧ (m.internString text).2.strings[i]? = some text := by
  unfold Module.internString
  cases hi : m.strings.findIdx? (· = text) with
  | none => exact ⟨m.strings.length, rfl, by simp⟩
  | some i =>
    obtain ⟨hlt, htext, -⟩ := List.findIdx?_eq_some_iff_getElem.mp hi
    exact ⟨i, rfl, by simpa [List.getElem?_eq_getElem hlt] using htext⟩

theorem parallel_internString (text : String) :
    Parallel R p R.value (internString text) (internString text) where
  left := inherited_appends.internString text
  right := inherited_appends.internString text
  mirrors _ {s t a a' s' t'} hst ha ha' hU hU' := by
    obtain ⟨rfl, rfl⟩ := yields_internString.mp ha
    obtain ⟨rfl, rfl⟩ := yields_internString.mp ha'
    obtain ⟨i, hi, htext⟩ := internString_eq s.module text
    obtain ⟨j, hj, htext'⟩ := internString_eq t.module text
    refine ⟨?_, hst.builder, hst.scope, concurs_internString hst.names text⟩
    have hnumber : R.number i = j := R.number_eq (getElem?_of_initial hU htext)
      (getElem?_of_initial hU' htext')
    rw [hi, hj, ← hnumber]
    rfl

theorem parallel_declareRoutine (r : Routine) :
    Parallel R p id (declareRoutine r) (declareRoutine r) where
  left := inherited_appends.declareRoutine r
  right := inherited_appends.declareRoutine r
  mirrors _ {s t a a' s' t'} hst ha ha' _ _ := by
    rw [yields_declareRoutine.mp ha, yields_declareRoutine.mp ha']
    exact ⟨rfl, hst.builder, hst.scope, hst.names.others, hst.names.both⟩

end Strings

section Operators

variable {R : Renumbering} {p : Prop} {ctx : LowerContext} {l l' r r' : Value}

theorem parallel_push {op op' : Op} (ty : Ty) (h : p → op' = op.mapOperands R.value) :
    Parallel R p (Option.map R.value) (build (·.push ty op)) (build (·.push ty op')) := by
  refine parallel_build fun hp b c a a' b' c' hbc hb hc => ?_
  rw [h hp] at hc
  exact hbc.push hb hc

theorem parallel_pushValue {op op' : Op} (ty : Ty) (h : p → op' = op.mapOperands R.value) :
    Parallel R p R.value (build (·.pushValue ty op)) (build (·.pushValue ty op')) := by
  refine parallel_build fun hp b c a a' b' c' hbc hb hc => ?_
  rw [h hp] at hc
  exact hbc.pushValue hb hc

theorem parallel_store (hl : p → l' = R.value l) (hr : p → r' = R.value r) :
    Parallel R p id (emit (·.store l r)) (emit (·.store l' r')) := by
  refine parallel_emit fun hp b c b' c' hbc hb hc => ?_
  rw [hl hp, hr hp] at hc
  exact hbc.store hb hc

theorem parallel_elementPtr (elem : Ty) (hl : p → l' = R.value l) (hr : p → r' = R.value r) :
    Parallel R p R.value (build (·.elementPtr elem l r)) (build (·.elementPtr elem l' r')) :=
  parallel_pushValue (.ptr elem) fun hp => by rw [hl hp, hr hp]; rfl

theorem parallel_load (ty : Ty) (hl : p → l' = R.value l) :
    Parallel R p R.value (build (·.load ty l)) (build (·.load ty l')) :=
  parallel_pushValue ty fun hp => by rw [hl hp]; rfl

theorem parallel_nextCount (hl : p → l' = R.value l) :
    Parallel R p R.value (build (·.binary .add l (.int 1))) (build (·.binary .add l' (.int 1))) :=
  parallel_pushValue .i64 fun hp => by rw [hl hp]; rfl

theorem parallel_phi {incoming incoming' : List (Value × BlockId)} (ty : Ty)
    (h : p → incoming' = incoming.map fun e => (R.value e.1, e.2)) :
    Parallel R p R.value (build (·.phi ty incoming)) (build (·.phi ty incoming')) := by
  refine parallel_build fun hp b c a a' b' c' hbc hb hc => ?_
  rw [h hp] at hc
  exact hbc.phi hb hc

theorem parallel_alloca (ty : Ty) :
    Parallel R p R.value (build (·.alloca ty)) (build (·.alloca ty)) :=
  parallel_build fun _ _ _ _ _ _ _ hbc hb hc => hbc.alloca hb hc

theorem parallel_terminate {t t' : Terminator} (h : p → t' = t.mapOperands R.value) :
    Parallel R p id (emit (·.terminate t)) (emit (·.terminate t')) := by
  refine parallel_emit fun hp b c b' c' hbc hb hc => ?_
  rw [h hp] at hc
  exact hbc.terminate hb hc

theorem parallel_br (target : BlockId) : Parallel R p id (br target) (br target) :=
  parallel_terminate fun _ => rfl

theorem parallel_condBr (thenTo elseTo : BlockId) (hl : p → l' = R.value l) :
    Parallel R p id (condBr l thenTo elseTo) (condBr l' thenTo elseTo) :=
  parallel_terminate fun hp => by rw [hl hp]; rfl

theorem parallel_appendBlock (name : String) :
    Parallel R p id (appendBlock name) (appendBlock name) := by
  refine parallel_build fun _ b c _ _ _ _ hbc hb hc => ?_
  cases hb
  cases hc
  exact hbc.appendBlock name

theorem parallel_position (target : BlockId) :
    Parallel R p id (position target) (position target) :=
  parallel_edit fun _ _ _ hbc => hbc.position target

theorem parallel_continueIn (target : BlockId) :
    Parallel R p id (continueIn target) (continueIn target) :=
  parallel_edit fun _ _ _ hbc => (hbc.moveToEnd target).position target

theorem parallel_addIncoming (source : BlockId) (hl : p → l' = R.value l)
    (hr : p → r' = R.value r) :
    Parallel R p id (edit (·.addIncoming l r source)) (edit (·.addIncoming l' r' source)) := by
  refine parallel_edit fun hp b c hbc => ?_
  rw [hl hp, hr hp]
  exact hbc.addIncoming l r source

theorem parallel_call {callee : String} {sig : Signature} {args args' : List Value}
    (h : p → args' = args.map R.value) :
    Parallel R p R.typed (LowerM.call callee sig args) (LowerM.call callee sig args') := by
  have hpush : Parallel R p (Option.map R.value) (build (·.call callee args sig.result.toIr))
      (build (·.call callee args' sig.result.toIr)) :=
    parallel_push sig.result.toIr fun hp => by rw [h hp]; rfl
  have hvoid : R.typed .void = .void := rfl
  refine hpush.bind fun v w => ?_
  cases v with
  | none =>
    cases w with
    | none => exact parallel_pure fun _ => hvoid.symm
    | some w => exact parallel_pure fun hp => nomatch hp.2
  | some v =>
    cases w with
    | none => exact parallel_pure fun hp => nomatch hp.2
    | some w =>
      refine parallel_pure fun hp => ?_
      obtain rfl := Option.some.inj hp.2
      rfl

theorem parallel_typed {x y : LowerM Value} (ty : DataType) (hx : Parallel R p R.value x y) :
    Parallel R p R.typed (return ⟨← x, ty⟩) (return ⟨← y, ty⟩) := by
  refine hx.bind fun v w => parallel_pure fun hp => ?_
  rw [hp.2]
  rfl

theorem parallel_arith (op : BinOp) (ty : DataType) (hl : p → l' = R.value l)
    (hr : p → r' = R.value r) : Parallel R p R.typed (arith op ty l r) (arith op ty l' r') :=
  parallel_typed ty (parallel_pushValue op.ty fun hp => by rw [hl hp, hr hp]; rfl)

theorem parallel_fcmp (pred : FloatPred) (hl : p → l' = R.value l) (hr : p → r' = R.value r) :
    Parallel R p R.value (build (·.fcmp pred l r)) (build (·.fcmp pred l' r')) :=
  parallel_pushValue .i1 fun hp => by rw [hl hp, hr hp]; rfl

theorem parallel_icmp (pred : IntPred) (hl : p → l' = R.value l) (hr : p → r' = R.value r) :
    Parallel R p R.value (build (·.icmp pred l r)) (build (·.icmp pred l' r')) :=
  parallel_pushValue .i1 fun hp => by rw [hl hp, hr hp]; rfl

theorem parallel_routine (r : Routine) {args args' : List Value} (h : p → args' = args.map R.value) :
    Parallel R p (Option.map R.value) (build (·.call r.name args r.ret))
      (build (·.call r.name args' r.ret)) :=
  parallel_push r.ret fun hp => by rw [h hp]; rfl

theorem parallel_floatDivision (hl : p → l' = R.value l) (hr : p → r' = R.value r) :
    Parallel R p R.typed (floatDivision ctx l r) (floatDivision ctx l' r') := by
  unfold floatDivision
  refine .ite (parallel_arith .fdiv .float hl hr) ?_
  refine (parallel_internString _).bind fun message message' =>
    (parallel_declareRoutine _).bind_id fun _ => (parallel_declareRoutine _).bind_id fun _ => ?_
  refine (parallel_fcmp .oeq (fun hp => hr hp.1) fun _ => rfl).bind fun isZero isZero' =>
    (parallel_appendBlock _).bind_id fun zeroBlock => (parallel_appendBlock _).bind_id fun okBlock =>
    (parallel_appendBlock _).bind_id fun mergeBlock => ?_
  refine (parallel_condBr _ _ fun hp => hp.2).bind_id fun _ => (parallel_position _).bind_id fun _ =>
    (parallel_routine .puts fun hp => by rw [hp.1.2]; rfl).bind fun _ _ =>
    (parallel_routine .abort fun _ => rfl).bind fun _ _ => ?_
  refine (parallel_br _).bind_id fun _ => (parallel_position _).bind_id fun _ => ?_
  refine (parallel_pushValue .double fun hp => by
      rw [hl hp.1.1.1.1, hr hp.1.1.1.1]; rfl).bind fun quotient quotient' =>
    (parallel_br _).bind_id fun _ => (parallel_position _).bind_id fun _ => ?_
  exact parallel_typed .float (parallel_phi .double fun hp => by rw [hp.2]; rfl)

theorem parallel_builtin (op : Operator) (ty : DataType) (hl : p → l' = R.value l)
    (hr : p → r' = R.value r) :
    Parallel R p R.typed (builtin ctx op ty l r) (builtin ctx op ty l' r') := by
  have hicmp : ∀ pred, Parallel R p R.typed (icmp pred l r) (icmp pred l' r') :=
    fun pred => parallel_typed .bool (parallel_icmp pred hl hr)
  have hfcmp : ∀ pred, Parallel R p R.typed (fcmp pred l r) (fcmp pred l' r') :=
    fun pred => parallel_typed .bool (parallel_fcmp pred hl hr)
  unfold builtin
  split
  case h_10 => exact parallel_floatDivision hl hr
  case h_21 | h_22 => exact parallel_throw
  case h_1 | h_2 | h_3 | h_4 | h_7 | h_8 | h_9 => exact parallel_arith _ _ hl hr
  case h_11 | h_12 | h_13 | h_14 => exact hfcmp _
  all_goals exact hicmp _

theorem parallel_builtinBinary (op : Operator) (lhs rhs : TypedValue) :
    Parallel R True R.typed (builtinBinary ctx op lhs rhs)
      (builtinBinary ctx op (R.typed lhs) (R.typed rhs)) := by
  have hbuiltin : Parallel R True R.typed (builtin ctx op lhs.type lhs.value rhs.value)
      (builtin ctx op lhs.type (R.value lhs.value) (R.value rhs.value)) :=
    parallel_builtin op lhs.type (fun _ => rfl) fun _ => rfl
  exact .ite parallel_throw hbuiltin

theorem parallel_binary (op : Operator) {lhs rhs lhs' rhs' : TypedValue}
    (hl : p → lhs' = R.typed lhs) (hr : p → rhs' = R.typed rhs) :
    Parallel R p R.typed (LowerM.binary ctx op lhs rhs) (LowerM.binary ctx op lhs' rhs') := by
  have happends := evaluated_appends ctx
  refine .of_imp happends.binary happends.binary fun hp => ?_
  rw [hl hp, hr hp]
  refine .signature? fun sig sig' hsame _ => ?_
  rw [hsame (binary_ne_toplevelName op)]
  cases sig with
  | none => exact parallel_builtinBinary op lhs rhs
  | some sig => exact .ite (parallel_call fun _ => rfl) (parallel_builtinBinary op lhs rhs).orMissing

theorem parallel_unary (op : Char) {operand operand' : TypedValue}
    (h : p → operand' = R.typed operand) :
    Parallel R p R.typed (LowerM.unary op operand) (LowerM.unary op operand') := by
  have happends := evaluated_appends ⟨false, .void⟩
  refine .of_imp happends.unary happends.unary fun hp => ?_
  rw [h hp]
  refine .signature? fun sig sig' hsame _ => ?_
  rw [hsame (unary_ne_toplevelName op)]
  cases sig with
  | none => exact parallel_throw
  | some sig => exact .ite (parallel_call fun _ => rfl) parallel_throw

theorem parallel_storeElements (elem : Ty) (hl : p → l' = R.value l) (vs : List Value) (i : Nat) :
    Parallel R p id (storeElements elem l i vs) (storeElements elem l' i (vs.map R.value)) := by
  induction vs generalizing p i with
  | nil => exact parallel_pure fun _ => rfl
  | cons v vs ih =>
    refine (parallel_elementPtr elem hl fun _ => rfl).bind fun slot slot' => ?_
    exact (parallel_store (fun _ => rfl) fun hp => hp.2).bind_id fun _ => ih (fun hp => hl hp.1) _

theorem parallel_buildSequence (elem : DataType) (values : List Value) :
    Parallel R True R.typed (buildSequence elem values)
      (buildSequence elem (values.map R.value)) := by
  unfold buildSequence
  rw [List.length_map]
  refine (parallel_alloca _).bind fun array array' =>
    (parallel_storeElements _ (fun hp => hp.2) values 0).bind_id fun _ => ?_
  exact parallel_pure fun hp => by rw [hp.2]; rfl

theorem parallel_elementType (before : Option DataType) (ty : DataType) :
    Parallel R p id (elementType before ty) (elementType before ty) := by
  refine .ite parallel_throw ?_
  cases before with
  | none => exact parallel_pure fun _ => rfl
  | some first => exact .ite parallel_throw (parallel_pure fun _ => rfl)

end Operators

mutual

theorem parallel_expr {R : Renumbering} {ctx : LowerContext} {p : Prop} : ∀ e : Expr,
    Parallel R p R.typed (lowerExpr ctx e) (lowerExpr ctx e)
  | .string text => by
    simp only [lowerExpr]
    exact parallel_typed .string (parallel_internString _)
  | .number (.int _) => by
    simp only [lowerExpr]
    exact parallel_pure fun _ => rfl
  | .number (.float _) => by
    simp only [lowerExpr]
    exact parallel_pure fun _ => rfl
  | .bool _ => by
    simp only [lowerExpr]
    exact parallel_pure fun _ => rfl
  | .variable name => {
      left := inherited_appends.name ctx name
      right := inherited_appends.name ctx name
      mirrors := by
        intro _ s t a b s' t' hst ha hb _ _
        simp only [lowerExpr, yields_bind, yields_get] at ha hb
        obtain ⟨_, _, ⟨hr, hs⟩, ha⟩ := ha
        obtain ⟨_, _, ⟨hr', hs'⟩, hb⟩ := hb
        rw [hr, hs] at ha
        rw [hr', hs', hst.scope, R.lookup?_scope] at hb
        cases hv : s.scope.lookup? name with
        | none =>
          rw [hv] at ha
          exact (not_yields_throw ha).elim
        | some v =>
          rw [hv] at ha hb
          obtain ⟨rfl, rfl⟩ := yields_pure.mp ha
          obtain ⟨rfl, rfl⟩ := yields_pure.mp hb
          exact ⟨rfl, hst⟩ }
  | .binary op lhs rhs => by
    simp only [lowerExpr]
    exact (parallel_expr lhs).bind fun l l' => (parallel_expr rhs).bind fun r r' =>
      parallel_binary op (fun hp => hp.1.2) fun hp => hp.2
  | .unary op operand => by
    simp only [lowerExpr]
    exact (parallel_expr operand).bind fun v v' => parallel_unary op fun hp => hp.2
  | .call callee args => by
    simp only [lowerExpr]
    have hcall : ∀ sig : Signature, Parallel R p R.typed
        (if sig.params.length ≠ args.length then
          throw (.arity callee sig.params.length args.length)
        else do
          let values ← lowerArgs ctx callee 1 args sig.params
          LowerM.call callee sig values)
        (if sig.params.length ≠ args.length then
          throw (.arity callee sig.params.length args.length)
        else do
          let values ← lowerArgs ctx callee 1 args sig.params
          LowerM.call callee sig values) := fun sig =>
      .ite parallel_throw ((parallel_args args sig.params 1).bind fun _ _ =>
        parallel_call fun hp => hp.2)
    refine .signature? fun sig sig' _ hboth => ?_
    cases sig with
    | none =>
      cases sig' with
      | none => exact parallel_throw
      | some sig' => exact parallel_throw_left (hcall sig').right
    | some sig =>
      cases sig' with
      | none => exact parallel_throw_right (hcall sig).left
      | some sig' =>
        rw [hboth sig sig' rfl rfl]
        exact hcall sig
  | .sequence elements => by
    simp only [lowerExpr]
    refine (parallel_elements elements none).bind fun q q' => ?_
    have hbuild : ∀ q : Option DataType × List Value, Appends (match q with
        | (some elem, values) => LowerM.buildSequence elem values
        | (none, _) => mismatch .emptySequence) := by
      rintro ⟨_ | elem, values⟩
      · exact appends_throw
      · exact (evaluated_appends ctx).buildSequence elem values
    refine .of_imp (hbuild q) (hbuild q') fun hp => ?_
    rw [hp.2]
    obtain ⟨_ | elem, values⟩ := q
    · exact parallel_throw
    · exact parallel_buildSequence elem values

theorem parallel_args {R : Renumbering} {ctx : LowerContext} {p : Prop} {callee : String} :
    ∀ (es : List Expr) (types : List DataType) (place : Nat), Parallel R p (List.map R.value)
      (lowerArgs ctx callee place es types) (lowerArgs ctx callee place es types)
  | [], _, _ => by
    simp only [lowerArgs]
    exact parallel_pure fun _ => rfl
  | _ :: _, [], _ => by
    simp only [lowerArgs]
    exact parallel_pure fun _ => rfl
  | e :: es, ty :: types, place => by
    simp only [lowerArgs]
    refine (parallel_expr e).bind fun v v' => ?_
    have hrest : ∀ v : TypedValue, Appends (if v.type ≠ ty then
        mismatch (.argument place callee ty v.type)
        else return v.value :: (← lowerArgs ctx callee (place + 1) es types)) := by
      intro v
      split
      · exact appends_throw
      · exact inherited_appends.bind ((evaluated_appends ctx).lowerArgs es _ _) fun _ =>
          inherited_appends.pure _
    refine .of_imp (hrest v) (hrest v') fun hp => ?_
    rw [hp.2]
    refine .ite parallel_throw ((parallel_args es types _).bind fun vs vs' => ?_)
    exact parallel_pure fun hp => by rw [hp.2]; rfl

theorem parallel_elements {R : Renumbering} {ctx : LowerContext} {p : Prop} :
    ∀ (es : List Expr) (before : Option DataType),
      Parallel R p (fun q => (q.1, q.2.map R.value))
        (lowerElements ctx before es) (lowerElements ctx before es)
  | [], _ => by
    simp only [lowerElements]
    exact parallel_pure fun _ => rfl
  | e :: es, before => by
    simp only [lowerElements]
    refine (parallel_expr e).bind fun v v' => ?_
    have happends := evaluated_appends ctx
    have hrest : ∀ v : TypedValue, Appends (do
        let elem ← elementType before v.type
        let (elem, values) ← lowerElements ctx (some elem) es
        return (elem, v.value :: values)) := by
      intro v
      exact happends.bind happends.elementType fun _ =>
        happends.bind (happends.lowerElements es _) fun _ => happends.pure _
    refine .of_imp (hrest v) (hrest v') fun hp => ?_
    rw [hp.2]
    refine (parallel_elementType before v.type).bind_id fun elem =>
      (parallel_elements es _).bind fun q q' => ?_
    exact parallel_pure fun hp => by rw [hp.2]; rfl

end

section Statements

variable {R : Renumbering} {p : Prop} {ctx : LowerContext}

theorem parallel_condition (e : Expr) :
    Parallel R p R.value (lowerCondition ctx e) (lowerCondition ctx e) := by
  refine (parallel_expr e).bind fun v v' => ?_
  have hcheck : ∀ v : TypedValue, Appends
      (if v.type ≠ .bool then mismatch (.condition v.type) else return v.value) := by
    intro v
    split
    · exact appends_throw
    · exact inherited_appends.pure _
  refine .of_imp (hcheck v) (hcheck v') fun hp => ?_
  rw [hp.2]
  exact .ite parallel_throw (parallel_pure fun _ => rfl)

theorem parallel_ret {v v' : Option Value} (h : p → v' = v.map R.value) :
    Parallel R p id (do ret v; return Flow.terminated) (do ret v'; return Flow.terminated) :=
  (parallel_terminate fun hp => by rw [h hp]; rfl).bind_id fun _ => parallel_pure fun _ => rfl

theorem parallel_return (value : Option Expr) :
    Parallel R p id (lowerReturn ctx value) (lowerReturn ctx value) := by
  cases value with
  | none => exact .ite parallel_throw (parallel_ret fun _ => rfl)
  | some e =>
    refine (parallel_expr e).bind fun v v' => ?_
    have happends := (inherited_appends.traversed ctx).composed
    have hret : ∀ v : TypedValue, Appends (if v.type ≠ ctx.result then
        mismatch (.wrongReturn v.type ctx.result)
        else do
          ret (if v.type = .void then none else some v.value)
          return Flow.terminated) := by
      intro v
      split
      · exact appends_throw
      · exact inherited_appends.bind (happends.ret (V := []) _) fun _ => inherited_appends.pure _
    refine .of_imp (hret v) (hret v') fun hp => ?_
    rw [hp.2]
    refine .ite parallel_throw (parallel_ret fun _ => ?_)
    by_cases hvoid : v.type = .void
    · simp [Renumbering.typed, hvoid]
    · simp [Renumbering.typed, hvoid]

theorem parallel_branchTo (exit : BlockId) {x y : LowerM Flow} (hx : Parallel R p id x y) :
    Parallel R p id (branchTo exit x) (branchTo exit y) := by
  refine hx.bind_id fun flow => ?_
  cases flow with
  | continues => exact (parallel_br exit).bind_id fun _ => parallel_pure fun _ => rfl
  | terminated => exact parallel_pure fun _ => rfl

theorem parallel_testBlock (elseTo : BlockId) (rest : ElseChain) :
    Parallel R p id (testBlock elseTo rest) (testBlock elseTo rest) :=
  .ite (parallel_appendBlock _) (parallel_pure fun _ => rfl)

theorem parallel_closeLoop (header : BlockId) {counter counter' : Value}
    (h : p → counter' = R.value counter) (flow : Flow) :
    Parallel R p id (closeLoop header counter flow) (closeLoop header counter' flow) := by
  cases flow with
  | continues =>
    refine parallel_currentBlock.bind_id fun latch => (parallel_nextCount h).bind fun next next' => ?_
    exact (parallel_addIncoming latch (fun hp => h hp.1) fun hp => hp.2).bind_id fun _ =>
      parallel_br header
  | terminated => exact parallel_pure fun _ => rfl

theorem parallel_bind (name : String) {v v' : TypedValue} (h : p → v' = R.typed v) :
    Parallel R p id (LowerM.bind name v) (LowerM.bind name v') :=
  parallel_editScope fun hp scope => by rw [h hp]; rfl

theorem parallel_bindIndex (index : Option String) {counter counter' : Value}
    (h : p → counter' = R.value counter) :
    Parallel R p id (bindIndex counter index) (bindIndex counter' index) := by
  cases index with
  | none => exact parallel_pure fun _ => rfl
  | some name => exact parallel_bind name fun hp => by rw [h hp]; rfl

theorem parallel_while {condition : Expr} {body : LowerM Flow}
    (hbody : ∀ p, Parallel R p id body body) :
    Parallel R p id (lowerWhile ctx condition body) (lowerWhile ctx condition body) := by
  unfold lowerWhile
  refine parallel_currentBlock.bind_id fun preheader => (parallel_appendBlock _).bind_id fun header =>
    (parallel_appendBlock _).bind_id fun inside => (parallel_appendBlock _).bind_id fun exit => ?_
  refine (parallel_br _).bind_id fun _ => (parallel_position _).bind_id fun _ =>
    (parallel_phi .i64 fun _ => rfl).bind fun counter counter' =>
    (parallel_condition condition).bind fun cond cond' => ?_
  refine (parallel_condBr _ _ fun hp => hp.2).bind_id fun _ => (parallel_position _).bind_id fun _ =>
    (hbody _).bind_id fun flow => ?_
  exact (parallel_closeLoop header (fun hp => hp.1.2) flow).bind_id fun _ =>
    (parallel_continueIn exit).bind_id fun _ => parallel_pure fun _ => rfl

theorem parallel_forIn {index : Option String} {element : String} {sequence : Value}
    {elem : DataType} {len : Nat} {body : LowerM Flow} (hbody : ∀ p, Parallel R p id body body) :
    Parallel R p id (lowerForIn index element sequence elem len body)
      (lowerForIn index element (R.value sequence) elem len body) := by
  unfold lowerForIn
  refine (parallel_alloca _).bind fun slot slot' =>
    (parallel_elementPtr _ (fun _ => rfl) fun _ => rfl).bind fun ptr ptr' =>
    (parallel_load _ fun hp => hp.2).bind fun first first' =>
    (parallel_store (fun hp => hp.2) fun hp => hp.1.1.2).bind_id fun _ => ?_
  refine parallel_currentBlock.bind_id fun preheader => (parallel_appendBlock _).bind_id fun header =>
    (parallel_appendBlock _).bind_id fun step => (parallel_appendBlock _).bind_id fun exit => ?_
  refine (parallel_br _).bind_id fun _ => (parallel_position _).bind_id fun _ =>
    (parallel_phi .i64 fun _ => rfl).bind fun counter counter' =>
    (parallel_load _ fun hp => hp.1.1.1.2).bind fun current current' => ?_
  refine ((parallel_bindIndex index fun hp => hp.1.2).bind_id fun _ =>
    (parallel_bind element fun hp => by rw [hp.2]; rfl).bind_id fun _ =>
    hbody _).inFrame.bind_id fun flow => ?_
  cases flow with
  | terminated =>
    exact (parallel_edit fun _ _ _ hbc => (hbc.removeBlock step).removeBlock exit).bind_id
      fun _ => parallel_pure fun _ => rfl
  | continues =>
    refine (parallel_nextCount fun hp => hp.1.2).bind fun next next' =>
      (parallel_icmp .slt (fun hp => hp.2) fun _ => rfl).bind fun more more' =>
      (parallel_condBr _ _ fun hp => hp.2).bind_id fun _ => (parallel_continueIn _).bind_id fun _ => ?_
    refine (parallel_elementPtr _ (fun _ => rfl) fun hp => hp.1.2).bind fun place place' =>
      (parallel_load _ fun hp => hp.2).bind fun value value' =>
      (parallel_store (fun hp => hp.2) fun hp => hp.1.1.1.1.1.1.1.1.2).bind_id fun _ => ?_
    exact (parallel_addIncoming step (fun hp => hp.1.1.1.1.1.2) fun hp => hp.1.1.1.2).bind_id
      fun _ => (parallel_br _).bind_id fun _ => (parallel_continueIn _).bind_id fun _ =>
      parallel_pure fun _ => rfl

end Statements

mutual

theorem parallel_stmt {R : Renumbering} {ctx : LowerContext} {p : Prop} : ∀ stmt : Stmt,
    Parallel R p id (lowerStmt ctx stmt) (lowerStmt ctx stmt)
  | .expr e => by
    simp only [lowerStmt]
    exact (parallel_expr e).bind fun _ _ => parallel_pure fun _ => rfl
  | .ret value => by
    simp only [lowerStmt]
    exact parallel_return value
  | .branch condition thenBlock rest => by
    simp only [lowerStmt]
    refine (parallel_condition condition).bind fun cond cond' =>
      (parallel_appendBlock _).bind_id fun thenTo => (parallel_appendBlock _).bind_id fun elseTo =>
      (parallel_appendBlock _).bind_id fun exit => (parallel_testBlock _ rest).bind_id fun test => ?_
    refine (parallel_condBr _ _ fun hp => hp.2).bind_id fun _ => (parallel_position _).bind_id fun _ =>
      (parallel_branchTo exit (parallel_stmts thenBlock).inFrame).bind_id fun _ =>
      (parallel_else rest).bind_id fun _ => ?_
    exact .ite ((parallel_continueIn _).bind_id fun _ => parallel_pure fun _ => rfl)
      ((parallel_edit fun _ _ _ hbc => hbc.removeBlock exit).bind_id fun _ =>
        parallel_pure fun _ => rfl)
  | .whileLoop condition body => by
    simp only [lowerStmt]
    exact parallel_while fun _ => (parallel_stmts body).inFrame
  | .forIn index element sequence body => by
    have happends := (inherited_appends.traversed ctx).composed
    simp only [lowerStmt]
    refine (parallel_expr sequence).bind fun v v' => ?_
    have hloop : ∀ v : TypedValue, Appends (match v.type with
        | .sequence elem len =>
          if len = 0 then return .continues
          else lowerForIn index element v.value elem len (inFrame (lowerStmts ctx body))
        | ty => mismatch (.notSequence ty)) := by
      intro v
      split
      · split
        · exact inherited_appends.pure _
        · exact (inherited_appends.traversed ctx).lowerForIn (V := []) fun V =>
            happends.inFrame (V := V) (happends.lowerStmts body V)
      · exact appends_throw
    refine .of_imp (hloop v) (hloop v') fun hp => ?_
    rw [hp.2]
    obtain ⟨value, ty⟩ := v
    cases ty with
    | sequence elem len =>
      exact .ite (parallel_pure fun _ => rfl) (parallel_forIn fun _ => (parallel_stmts body).inFrame)
    | _ => exact parallel_throw

theorem parallel_stmts {R : Renumbering} {ctx : LowerContext} {p : Prop} : ∀ stmts : List Stmt,
    Parallel R p id (lowerStmts ctx stmts) (lowerStmts ctx stmts)
  | [] => by
    simp only [lowerStmts]
    exact parallel_pure fun _ => rfl
  | stmt :: stmts => by
    simp only [lowerStmts]
    refine (parallel_stmt stmt).bind_id fun flow => ?_
    cases flow with
    | terminated => exact parallel_pure fun _ => rfl
    | continues => exact parallel_stmts stmts

theorem parallel_else {R : Renumbering} {ctx : LowerContext} {p : Prop} {elseTo exit test : BlockId} :
    ∀ rest : ElseChain, Parallel R p id (lowerElse ctx elseTo exit test rest)
      (lowerElse ctx elseTo exit test rest)
  | .none => by
    simp only [lowerElse]
    exact (parallel_continueIn _).bind_id fun _ => (parallel_br _).bind_id fun _ =>
      parallel_pure fun _ => rfl
  | .otherwise block => by
    simp only [lowerElse]
    exact (parallel_continueIn _).bind_id fun _ =>
      parallel_branchTo exit (parallel_stmts block).inFrame
  | .elseIf condition block rest => by
    simp only [lowerElse]
    refine (parallel_continueIn _).bind_id fun _ =>
      (parallel_condition condition).bind fun cond cond' =>
      (parallel_appendBlock _).bind_id fun thenTo => (parallel_testBlock _ rest).bind_id fun next => ?_
    exact (parallel_condBr _ _ fun hp => hp.2).bind_id fun _ => (parallel_position _).bind_id fun _ =>
      (parallel_branchTo exit (parallel_stmts block).inFrame).bind_id fun _ =>
      (parallel_else rest).bind_id fun _ => parallel_pure fun _ => rfl

end

theorem parallel_body {R : Renumbering} {ctx : LowerContext} {p : Prop} (body : List Stmt) :
    Parallel R p id (lowerBody ctx body) (lowerBody ctx body) := by
  refine (parallel_stmts body).inFrame.bind_id fun flow => ?_
  cases flow with
  | continues => exact .ite (parallel_terminate fun _ => rfl) (parallel_pure fun _ => rfl)
  | terminated => exact parallel_pure fun _ => rfl

end SsaCompiler
