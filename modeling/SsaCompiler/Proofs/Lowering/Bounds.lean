import SsaCompiler.Proofs.Building.Bounds
import SsaCompiler.Proofs.Lowering.Checking
import SsaCompiler.Proofs.Lowering.Progress
import SsaCompiler.Proofs.Lowering.Traversal

/-!
Lowering keeps indices within arrays. Sequences are indexed by constants while they are built, and
loops over them by the next count, once it has been tested; what a loop is lowered to inside leaves
the counter and the block of that index alone.
-/
namespace SsaCompiler

open Ir LowerM

namespace Lowering

/-- Arrays are still indexed by their places, and the names in scope are the same. -/
structure Secures (T M : List BlockId) (R : List Reg) (s s' : Lowering) : Prop
    extends Builder.Secures T M R s.builder s'.builder where
  scope : s'.scope = s.scope

variable {T T' M M' : List BlockId} {R R' : List Reg} {s s' s'' : Lowering}

theorem Secures.refl (hs : s.builder.Sure) : s.Secures T M R s := ⟨.refl hs, rfl⟩

theorem Secures.trans (h : s.Secures T M R s') (h' : s'.Secures T' M' R' s'')
    (hT : ∀ v ∈ T', v ∈ T ∨ s.builder.body.nextBlock ≤ v)
    (hM : ∀ v ∈ M', v ∈ M ∨ s.builder.body.nextBlock ≤ v)
    (hR : ∀ r ∈ R', r ∈ R ∨ s.builder.body.regTypes.length ≤ r) : s.Secures T M R s'' :=
  ⟨h.toSecures.trans h'.toSecures hT hM hR, h'.scope.trans h.scope⟩

theorem Secures.weaken (h : s.Secures T M R s') (hT : ∀ v ∈ T, v ∈ T') (hM : ∀ v ∈ M, v ∈ M')
    (hR : ∀ r ∈ R, r ∈ R') : s.Secures T' M' R' s' :=
  ⟨h.toSecures.weaken hT hM hR, h.scope⟩

/-- Changes of new blocks and registers only. -/
theorem Secures.beyond (h : s.Secures [] [] [] s') (h' : s'.Secures T M R s'')
    (hnew : ∀ v ∈ T ++ M, s.builder.body.nextBlock ≤ v)
    (hR : ∀ r ∈ R, s.builder.body.regTypes.length ≤ r) : s.Secures [] [] [] s'' :=
  h.trans h' (fun v hv => .inr (hnew v (List.mem_append_left _ hv)))
    (fun v hv => .inr (hnew v (List.mem_append_right _ hv))) fun r hr => .inr (hR r hr)

/-- Values keep the representations of their types. -/
theorem Represents.persists {tv : TypedValue} (htv : s.Represents tv)
    (hp : Builder.Persists T M R s.builder s'.builder) : s'.Represents tv := by
  by_cases hvoid : tv.type = .void
  · exact .inl hvoid
  · exact .inr (hp.typeOf (DataType.toIr_ne_void hvoid) (htv.resolve_left hvoid))

theorem Secures.typed (h : s.Secures T M R s') (hs : s.ScopeTyped) : s'.ScopeTyped := by
  intro name tv hlook
  rw [h.scope] at hlook
  exact (hs name tv hlook).persists h.toPersists

end Lowering

/-- A step that may jump to the blocks of `V` and go on in them keeps indices within arrays. -/
def Bounding (V : List BlockId) {α : Type} (x : LowerM α) : Prop :=
  ∀ s a s', s.builder.Sure → s.ScopeTyped → (∀ v ∈ V, s.builder.Aside v) → Yields x s a s' →
    s.Secures V V [] s'

section Steps

variable {α β : Type} {V W : List BlockId} {ctx : LowerContext}

theorem bounding_of_builder_eq {x : LowerM α}
    (hx : ∀ s a s', Yields x s a s' → s'.builder = s.builder ∧ s'.scope = s.scope) :
    Bounding V x := by
  intro s a s' hs _ _ hy
  obtain ⟨hbuilder, hscope⟩ := hx s a s' hy
  refine ⟨?_, hscope⟩
  rw [hbuilder]
  exact .refl hs

theorem Bounding.weaken {x : LowerM α} (hVW : ∀ v ∈ V, v ∈ W) (hx : Bounding V x) :
    Bounding W x := fun s a s' hs htyped hW hy =>
  (hx s a s' hs htyped (fun v hv => hW v (hVW v hv)) hy).weaken hVW hVW (by simp)

theorem Bounding.bind {x : LowerM α} {f : α → LowerM β} (hx : Bounding V x)
    (hf : ∀ a, Bounding V (f a)) : Bounding V (x >>= f) := by
  intro s c s' hs htyped hV hy
  obtain ⟨a, s1, h1, h2⟩ := yields_bind.mp hy
  have sec1 := hx s a s1 hs htyped hV h1
  have sec2 := hf a s1 c s' sec1.sure (sec1.typed htyped) (fun v hv => sec1.aside v (hV v hv)) h2
  exact sec1.trans sec2 (fun _ => .inl) (fun _ => .inl) (by simp)

/-- A step of building that takes no address of an element. -/
theorem bounding_build {f : Builder → Except BuildError (α × Builder)}
    (hf : ∀ b a b', f b = .ok (a, b') → ∃ new ends, Builder.Moves new ends [] [] b b' ∧
      (∀ u base v, ¬ new u (.elementPtr base v)) ∧ ∀ t, ends t → ∀ v ∈ t.successors, v ∈ V) :
    Bounding V (build f) := by
  intro s a s' hs _ hV hy
  obtain ⟨b, hb, rfl⟩ := of_yields_build hy
  obtain ⟨new, ends, hmoves, hnew, hends⟩ := hf _ _ _ hb
  refine ⟨?_, rfl⟩
  exact (hmoves.secures hs hends hV (by simp) (by simp)
    fun u base v hop => absurd hop (hnew u base v)).weaken (by simp) (by simp) (by simp)

theorem bounding_emit {f : Builder → Except BuildError Builder}
    (hf : ∀ b b', f b = .ok b' → ∃ new ends, Builder.Moves new ends [] [] b b' ∧
      (∀ u base v, ¬ new u (.elementPtr base v)) ∧ ∀ t, ends t → ∀ v ∈ t.successors, v ∈ V) :
    Bounding V (emit f) := by
  refine bounding_build fun b a b' hb => hf b b' ?_
  cases hfb : f b with
  | error e =>
    rw [hfb] at hb
    cases hb
  | ok b1 =>
    rw [hfb] at hb
    cases hb
    rfl

/-- A change of the layout or of the current block. -/
theorem bounding_edit {f : Builder → Builder} {M : List BlockId}
    (hf : ∀ b : Builder, b.Sure → (∀ v ∈ V, b.Aside v) → Builder.Secures [] M [] b (f b))
    (hM : ∀ v ∈ M, v ∈ V) : Bounding V (edit f) := by
  intro s a s' hs _ hV hy
  rw [of_yields_edit hy]
  exact ⟨(hf s.builder hs hV).weaken (by simp) hM (by simp), rfl⟩

theorem bounding_push {ty : Ty} {op : Op} (hop : ∀ base v, op ≠ .elementPtr base v) :
    Bounding V (build (·.push ty op)) :=
  bounding_build fun _ _ _ hb => ⟨_, Builder.unended, Builder.moves_push hb,
    fun _ base v hnew => hop base v hnew.2.symm, fun _ hend => hend.elim⟩

theorem bounding_pushValue {ty : Ty} {op : Op} (hop : ∀ base v, op ≠ .elementPtr base v) :
    Bounding V (build (·.pushValue ty op)) :=
  bounding_build fun _ _ _ hb => ⟨_, Builder.unended, Builder.moves_pushValue hb,
    fun _ base v hnew => hop base v hnew.2.symm, fun _ hend => hend.elim⟩

theorem bounding_phi (ty : Ty) (incoming : List (Value × BlockId)) :
    Bounding V (build (·.phi ty incoming)) :=
  bounding_build fun _ _ _ hb => ⟨_, Builder.unended, Builder.moves_phi hb,
    fun _ _ _ hnew => (nomatch hnew.2), fun _ hend => hend.elim⟩

theorem bounding_alloca (ty : Ty) : Bounding V (build (·.alloca ty)) :=
  bounding_build fun _ _ _ hb => ⟨_, Builder.unended, Builder.moves_alloca hb,
    fun _ _ _ hnew => (nomatch hnew), fun _ hend => hend.elim⟩

theorem bounding_store (value ptr : Value) : Bounding V (emit (·.store value ptr)) :=
  bounding_emit fun _ _ hb => ⟨_, Builder.unended, Builder.moves_store hb,
    fun _ _ _ hnew => (nomatch hnew.2), fun _ hend => hend.elim⟩

theorem bounding_terminate {t : Terminator} (ht : ∀ v ∈ t.successors, v ∈ V) :
    Bounding V (emit (·.terminate t)) :=
  bounding_emit fun _ _ hb => ⟨_, _, Builder.moves_terminate hb, fun _ _ _ hnew => hnew.elim,
    by rintro _ rfl; exact ht⟩

theorem bounding_br {target : BlockId} (ht : target ∈ V) : Bounding V (br target) :=
  bounding_terminate (by simpa [Terminator.successors] using ht)

theorem bounding_condBr {c : Value} {thenTo elseTo : BlockId} (ht : thenTo ∈ V) (he : elseTo ∈ V) :
    Bounding V (condBr c thenTo elseTo) :=
  bounding_terminate (by simpa [Terminator.successors] using ⟨ht, he⟩)

theorem bounding_position {id : BlockId} (hid : id ∈ V) : Bounding V (position id) :=
  bounding_edit (fun b hb hV => (Builder.moves_position b id).secures_of_nothing hb
    (by simpa using hV id hid)) (by simpa using hid)

theorem bounding_continueIn {id : BlockId} (hid : id ∈ V) : Bounding V (continueIn id) :=
  bounding_edit (fun _ hb hV => hb.continueIn (hV id hid)) (by simpa using hid)

theorem bounding_removeBlock {id : BlockId} (hid : id ∈ V) :
    Bounding V (edit (·.removeBlock id)) :=
  bounding_edit (fun b hb hV => (Builder.moves_removeBlock b id).secures_of_nothing hb
    (by simpa using hV id hid)) (by simpa using hid)

end Steps

namespace Lowering

variable {s s' : Lowering} {α : Type}

/-- A new block is aside, and nothing leads to it yet. -/
theorem secures_appendBlock (hs : s.builder.Sure) {name : String} {id : BlockId}
    (hy : Yields (appendBlock name) s id s') :
    id = s.builder.body.nextBlock ∧ s.Secures [] [] [] s' ∧ s'.builder.Aside id ∧
      s'.builder.Idle id := by
  obtain ⟨rfl, rfl⟩ := of_yields_appendBlock hy
  obtain ⟨haside, hidle⟩ := hs.of_appendBlock name
  exact ⟨rfl, ⟨(Builder.moves_appendBlock _ name).secures_of_nothing hs (by simp), rfl⟩, haside, hidle⟩

theorem ScopeTyped.push (hs : s.ScopeTyped) :
    ({ s with scope := s.scope.push } : Lowering).ScopeTyped := hs

theorem ScopeTyped.bind (hs : s.ScopeTyped) {tv : TypedValue} (htv : s.Represents tv)
    (name : String) : ({ s with scope := s.scope.bind name tv } : Lowering).ScopeTyped := by
  intro n tv' hlook
  rw [Scope.lookup?_bind] at hlook
  split at hlook
  · cases hlook
    exact htv
  · exact hs n tv' hlook

end Lowering

section Frames

variable {α : Type} {V : List BlockId} {ctx : LowerContext}

theorem bounding_appendBlock {f : BlockId → LowerM α} (name : String)
    (hf : ∀ id, Bounding (id :: V) (f id)) : Bounding V (appendBlock name >>= f) := by
  intro s a s' hs htyped hV hy
  obtain ⟨id, s1, h1, h2⟩ := yields_bind.mp hy
  obtain ⟨rfl, sec1, haside, _⟩ := Lowering.secures_appendBlock hs h1
  have hV1 : ∀ v ∈ s.builder.body.nextBlock :: V, s1.builder.Aside v := by
    intro v hv
    rcases List.mem_cons.mp hv with rfl | hv
    · exact haside
    · exact sec1.aside v (hV v hv)
  have sec2 := hf _ s1 a s' sec1.sure (sec1.typed htyped) hV1 h2
  have hnew : ∀ v ∈ s.builder.body.nextBlock :: V, v ∈ V ∨ s.builder.body.nextBlock ≤ v := by
    intro v hv
    rcases List.mem_cons.mp hv with rfl | hv
    · exact .inr le_rfl
    · exact .inl hv
  exact (sec1.weaken (by simp) (by simp) (by simp)).trans sec2 hnew hnew (by simp)

theorem bounding_inFrame {step : LowerM α} (hstep : Bounding V step) :
    Bounding V (inFrame step) := by
  intro s a s' hs htyped hV hy
  obtain ⟨s1, h1, rfl⟩ := yields_inFrame.mp hy
  have sec := hstep { s with scope := s.scope.push } a s1 hs htyped.push hV h1
  exact ⟨sec.toSecures, by rw [sec.scope]; rfl⟩

theorem bounding_floatDivision (l r : Value) : Bounding V (floatDivision ctx l r) := by
  have hpure : ∀ {V : List BlockId} (tv : TypedValue), Bounding V (pure tv) := fun _ =>
    bounding_of_builder_eq fun s a s' hy => by rw [(yields_pure.mp hy).2]; exact ⟨rfl, rfl⟩
  have hroutine : ∀ r : Routine, Bounding V (declareRoutine r) := fun _ =>
    bounding_of_builder_eq fun s a s' hy => by rw [yields_declareRoutine.mp hy]; exact ⟨rfl, rfl⟩
  unfold floatDivision
  split
  · exact (bounding_pushValue (by simp)).bind fun _ => hpure _
  · refine (bounding_of_builder_eq fun s a s' hy => ?_).bind fun _ => (hroutine _).bind fun _ =>
      (hroutine _).bind fun _ => (bounding_pushValue (by simp)).bind fun _ => ?_
    · rw [(yields_internString.mp hy).2]
      exact ⟨rfl, rfl⟩
    · refine bounding_appendBlock _ fun _ => bounding_appendBlock _ fun _ =>
        bounding_appendBlock _ fun _ => ?_
      refine (bounding_condBr (by simp) (by simp)).bind fun _ => (bounding_position (by simp)).bind
        fun _ => (bounding_push (by simp)).bind fun _ => (bounding_push (by simp)).bind fun _ =>
        (bounding_br (by simp)).bind fun _ => (bounding_position (by simp)).bind fun _ => ?_
      exact (bounding_pushValue (by simp)).bind fun _ => (bounding_br (by simp)).bind fun _ =>
        (bounding_position (by simp)).bind fun _ => (bounding_phi _ _).bind fun _ => hpure _

end Frames

namespace Lowering

variable {s s' : Lowering} {ctx : LowerContext} {u : Unit} {elem : Ty} {base : Value} {len : Nat}

/-- The address of an element at a place that is known. -/
theorem secures_elementPtr (hs : s.builder.Sure)
    (htype : s.builder.finish.typeOf base = .ptr (.array elem len)) {i : Nat} (hi : i < len)
    {v : Value} (hy : Yields (build (·.elementPtr elem base (.int (Int64.ofNat i)))) s v s') :
    s.Secures [] [] [] s' := by
  obtain ⟨b, hb, rfl⟩ := of_yields_build hy
  refine ⟨(Builder.moves_pushValue hb).secures hs (fun _ hend => hend.elim) (by simp) (by simp)
    (by simp) fun u base' v' hnew => ?_, rfl⟩
  obtain ⟨rfl, rfl⟩ := Op.elementPtr.inj hnew.2
  exact ⟨elem, len, htype, i, hi, rfl⟩

theorem secures_storeElements {vs : List Value} {i : Nat} (hs : s.builder.Sure)
    (htyped : s.ScopeTyped) (htype : s.builder.finish.typeOf base = .ptr (.array elem len))
    (hi : i + vs.length ≤ len) (hy : Yields (storeElements elem base i vs) s u s') :
    s.Secures [] [] [] s' := by
  induction vs generalizing i s with
  | nil =>
    obtain ⟨_, rfl⟩ := yields_pure.mp hy
    exact .refl hs
  | cons v vs ih =>
    simp only [storeElements, yields_bind] at hy
    obtain ⟨slot, s1, hslot, _, s2, hstore, hrest⟩ := hy
    rw [List.length_cons] at hi
    have sec1 := secures_elementPtr hs htype (by omega) hslot
    have sec2 := bounding_store (V := []) v slot s1 _ s2 sec1.sure (sec1.typed htyped) (by simp) hstore
    have sec02 := sec1.trans sec2 (by simp) (by simp) (by simp)
    have sec3 := ih sec02.sure (sec02.typed htyped) (sec02.typeOf (by simp) htype) (by omega) hrest
    exact sec02.trans sec3 (by simp) (by simp) (by simp)

theorem typeOf_alloca {ty : Ty} {v : Value} (hy : Yields (build (·.alloca ty)) s v s') :
    s'.builder.finish.typeOf v = .ptr ty := by
  obtain ⟨b, hb, rfl⟩ := of_yields_build hy
  obtain ⟨rfl, htypes⟩ := Builder.regTypes_alloca hb
  simp [Function.typeOf, Builder.finish, htypes]

end Lowering

section Sequences

variable {V : List BlockId} {ctx : LowerContext}

theorem bounding_buildSequence (elem : DataType) (values : List Value) :
    Bounding V (buildSequence elem values) := by
  refine Bounding.weaken (V := []) (by simp) ?_
  intro s tv s' hs htyped hV hy
  simp only [buildSequence, yields_bind, yields_pure] at hy
  obtain ⟨array, s1, halloca, _, s2, hstores, rfl, rfl⟩ := hy
  have sec1 := bounding_alloca _ s array s1 hs htyped hV halloca
  have sec2 := Lowering.secures_storeElements sec1.sure (sec1.typed htyped)
    (Lowering.typeOf_alloca halloca) (by simp) hstores
  exact sec1.trans sec2 (by simp) (by simp) (by simp)

end Sequences

section Loops

namespace Lowering

variable {s s1 s2 s3 s4 s5 s' : Lowering} {u : Unit} {header second exit source : BlockId} {c : Reg}

/-- A loop has begun: its counter waits in the block `header` for its second edge, and nothing leads
to the block `second` yet. -/
structure Begins (s s' : Lowering) (c : Reg) (header second exit source : BlockId) : Prop where
  secures : s.Secures [] [] [] s'
  fresh : ∀ v ∈ [header, second, exit], s.builder.body.nextBlock ≤ v
  order : header < second ∧ second < exit
  counter : s.builder.body.regTypes.length ≤ c
  waits : s'.builder.Waits c header source
  asides : ∀ v ∈ [header, second, exit], s'.builder.Aside v
  idle : s'.builder.Idle second

theorem begins {name1 name2 name3 : String} {counter : Value} (hs : s.builder.Sure)
    (htyped : s.ScopeTyped) (h1 : Yields (appendBlock name1) s header s1)
    (h2 : Yields (appendBlock name2) s1 second s2) (h3 : Yields (appendBlock name3) s2 exit s3)
    (h4 : Yields (br header) s3 u s4) (h5 : Yields (position header) s4 u s5)
    (h6 : Yields (build (·.phi .i64 [(.int 0, source)])) s5 counter s') :
    ∃ c, counter = .reg c ∧ s.Begins s' c header second exit source := by
  obtain ⟨hheader, sec1, aside1, _⟩ := secures_appendBlock hs h1
  obtain ⟨hsecond, sec2, aside2, idle2⟩ := secures_appendBlock sec1.sure h2
  obtain ⟨hexit, sec3, aside3, _⟩ := secures_appendBlock sec2.sure h3
  have sec03 := (sec1.trans sec2 (by simp) (by simp) (by simp)).trans sec3 (by simp) (by simp) (by simp)
  have hne : header < second := hsecond ▸ aside1.lt
  have hasides : ∀ v ∈ [header, second, exit], s3.builder.Aside v := by
    simpa using ⟨sec3.aside _ (sec2.aside _ aside1), sec3.aside _ aside2, aside3⟩
  -- from the header on
  have sec5 := ((bounding_br (List.mem_singleton.mpr rfl)).bind fun _ =>
    bounding_position (List.mem_singleton.mpr rfl)) s3 u s5 sec03.sure (sec03.typed htyped)
    (by simpa using hasides header (by simp)) (yields_bind.mpr ⟨_, _, h4, h5⟩)
  have hcur : s5.builder.current = header := by rw [of_yields_edit h5]; rfl
  have sec6 := bounding_phi (V := []) _ _ s5 counter s' sec5.sure (sec5.typed (sec03.typed htyped))
    (by simp) h6
  obtain ⟨b, hb, rfl⟩ := of_yields_build h6
  obtain ⟨c, rfl, hc, hwaits⟩ := sec5.sure.toNumbered.of_phi hb
  have sec05 := sec03.beyond sec5 (by simp [hheader]) (by simp)
  have sec36 := sec5.trans sec6 (by simp) (by simp) (by simp)
  refine ⟨c, rfl, sec05.trans sec6 (by simp) (by simp) (by simp), ?_, ⟨hne, hexit ▸ aside2.lt⟩,
    sec05.types.length_le.trans hc, hcur ▸ hwaits,
    fun v hv => sec36.aside v (hasides v hv),
    sec36.idle second (by simpa using hne.ne') (by simpa using hne.ne')
      (sec3.idle second (by simp) (by simp) idle2)⟩
  simpa [hheader, hsecond, hexit] using ⟨sec1.next, sec1.next.trans sec2.next⟩

theorem Begins.trans (h : s.Begins s1 c header second exit source) (hsec : s1.Secures [] [] [] s') :
    s.Begins s' c header second exit source :=
  ⟨h.secures.trans hsec (by simp) (by simp) (by simp), h.fresh, h.order, h.counter,
    h.waits.persists hsec.toPersists (by simp) (by simp), fun v hv => hsec.aside v (h.asides v hv),
    hsec.idle second (by simp) (by simp) h.idle⟩

/-- The second edge of a counter is added where control goes back. -/
theorem secures_closeLoop {flow : Flow} (hs : s.builder.Sure) (htyped : s.ScopeTyped)
    (hwaits : s.builder.Waits c header source) (hheader : s.builder.Aside header)
    (hy : Yields (closeLoop header (.reg c) flow) s u s') : s.Secures [header] [] [c] s' := by
  cases flow with
  | terminated =>
    obtain ⟨_, rfl⟩ := yields_pure.mp hy
    exact .refl hs
  | continues =>
    simp only [closeLoop, yields_bind, yields_currentBlock] at hy
    obtain ⟨latch, _, ⟨_, rfl, _⟩, next, s1, hnext, _, s2, hedge, hbr⟩ := hy
    have sec1 := bounding_pushValue (V := []) (by simp) _ next s1 hs htyped (by simp) hnext
    have waits1 := hwaits.persists sec1.toPersists (by simp) (by simp)
    have sec2 : s1.Secures [] [] [c] s2 := by
      rw [of_yields_edit hedge]
      exact ⟨(Builder.moves_addIncoming s1.builder c next latch).secures sec1.sure
        (fun _ hend => hend.elim) (by simp) (by simp) (by simpa using ⟨header, source, waits1⟩)
        fun _ _ _ hnew => hnew.elim, rfl⟩
    have sec02 : Secures [] [] [c] _ s2 :=
      (sec1.weaken (by simp) (by simp) (by simp)).trans sec2 (by simp) (by simp) (by simp)
    obtain ⟨b, hb, rfl⟩ := of_yields_emit hbr
    have sec3 : Builder.Secures [header] [] [] s2.builder b :=
      (Builder.moves_terminate hb).secures sec2.sure
        (by rintro _ rfl; simp [Terminator.successors])
        (by simpa using sec02.aside header hheader) (by simp) (by simp) fun _ _ _ hnew => hnew.elim
    exact ⟨(sec02.toSecures.weaken (by simp) (by simp) (by simp)).trans sec3 (by simp) (by simp)
      (by simp), sec02.scope⟩

end Lowering

variable {V : List BlockId} {ctx : LowerContext}

theorem bounding_while {condition : Expr} {step : LowerM Flow}
    (hcond : ∀ W, Bounding W (lowerCondition ctx condition)) (hstep : ∀ W, Bounding W step) :
    Bounding V (lowerWhile ctx condition step) := by
  refine Bounding.weaken (V := []) (by simp) ?_
  intro s flow s' hs htyped _ hy
  simp only [lowerWhile, yields_bind, yields_pure, yields_currentBlock] at hy
  obtain ⟨preheader, s0, ⟨_, hs0, _⟩, header, s1, h1, inside, s2, h2, exit, s3, h3, _, s4, h4, _, s5, h5,
    counter, s6, h6, cond, s7, h7, _, s8, h8, _, s9, h9, result, s10, h10, _, s11, h11, _, s12, h12, rfl,
    rfl⟩ := hy
  subst s0
  obtain ⟨c, rfl, hbegins⟩ := Lowering.begins hs htyped h1 h2 h3 h4 h5 h6
  have typed6 := hbegins.secures.typed htyped
  obtain ⟨horder, horder'⟩ := hbegins.order
  -- the condition and the body
  have sec10 := ((hcond [inside, exit]).bind fun _ =>
    (bounding_condBr (by simp) (by simp)).bind fun _ =>
    (bounding_position (by simp)).bind fun _ => hstep _) s6 result s10
    hbegins.secures.sure typed6 (fun v hv => hbegins.asides v (List.mem_cons_of_mem _ hv))
    (yields_bind.mpr ⟨_, _, h7, yields_bind.mpr ⟨_, _, h8, yields_bind.mpr ⟨_, _, h9, h10⟩⟩⟩)
  have waits10 := hbegins.waits.persists sec10.toPersists
    (by simpa using ⟨horder.ne, (horder.trans horder').ne⟩) (by simp)
  -- the way back and the way out
  have sec11 := Lowering.secures_closeLoop sec10.sure (sec10.typed typed6) waits10
    (sec10.aside _ (hbegins.asides header (by simp))) h11
  have sec12 := bounding_continueIn (List.mem_singleton.mpr rfl) s11 _ s' sec11.sure
    (sec11.typed (sec10.typed typed6))
    (by simpa using sec11.aside _ (sec10.aside _ (hbegins.asides exit (by simp)))) h12
  have sec010 := hbegins.secures.beyond sec10 (fun v hv => hbegins.fresh v (by grind))
    (by simp)
  have sec011 := sec010.beyond sec11 (fun v hv => hbegins.fresh v (by grind))
    (by simpa using hbegins.counter)
  exact sec011.beyond sec12 (fun v hv => hbegins.fresh v (by grind)) (by simp)

namespace Lowering

variable {s s1 s2 s3 s4 s5 s6 s10 s' : Lowering} {u : Unit} {header step exit source : BlockId} {c : Reg}
  {elem : DataType} {len : Nat} {sequence slot : Value}

/-- The first element of a sequence is taken before the loop begins. -/
theorem secures_first {first value : Value} (hs : s.builder.Sure) (htyped : s.ScopeTyped)
    (hseq : s.builder.finish.typeOf sequence = .ptr (.array elem.toIr len)) (hlen : 0 < len)
    (h1 : Yields (build (·.alloca elem.toIr)) s slot s1)
    (h2 : Yields (build (·.elementPtr elem.toIr sequence (.int 0))) s1 first s2)
    (h3 : Yields (build (·.load elem.toIr first)) s2 value s3)
    (h4 : Yields (emit (·.store value slot)) s3 u s4) : s.Secures [] [] [] s4 := by
  have sec1 := bounding_alloca (V := []) _ s slot s1 hs htyped (by simp) h1
  have sec2 := secures_elementPtr sec1.sure (sec1.typeOf (by simp) hseq) hlen h2
  have sec02 := sec1.trans sec2 (by simp) (by simp) (by simp)
  have sec3 := bounding_pushValue (V := []) (by simp) s2 value s3 sec02.sure (sec02.typed htyped)
    (by simp) h3
  have sec03 := sec02.trans sec3 (by simp) (by simp) (by simp)
  have sec4 := bounding_store (V := []) value slot s3 u s4 sec03.sure (sec03.typed htyped) (by simp) h4
  exact sec03.trans sec4 (by simp) (by simp) (by simp)

/-- The body of a loop over a sequence has names for the element and, perhaps, its place. -/
theorem secures_iteration {body : LowerM Flow} {index : Option String} {element : String}
    {counter current : Value} {flow : Flow} (hbody : Bounding [] body) (hs : s.builder.Sure)
    (htyped : s.ScopeTyped) (hcounter : s.Represents ⟨counter, .int⟩)
    (hcurrent : s.Represents ⟨current, elem⟩)
    (hy : Yields (inFrame do
      bindIndex counter index
      LowerM.bind element ⟨current, elem⟩
      body) s flow s') : s.Secures [] [] [] s' := by
  obtain ⟨s1, hrun, rfl⟩ := yields_inFrame.mp hy
  obtain ⟨_, s2, hindex, hrest⟩ := yields_bind.mp hrun
  obtain ⟨_, s3, helement, hstep⟩ := yields_bind.mp hrest
  unfold LowerM.bind at helement
  have hframe : ∃ scope, s2 = { s with scope } ∧ scope.outer = s.scope.push.outer ∧ s2.ScopeTyped := by
    cases index with
    | none =>
      obtain ⟨_, rfl⟩ := yields_pure.mp hindex
      exact ⟨_, rfl, rfl, htyped.push⟩
    | some name =>
      unfold bindIndex LowerM.bind at hindex
      rw [yields_editScope.mp hindex]
      exact ⟨_, rfl, rfl, htyped.push.bind hcounter name⟩
  obtain ⟨scope, rfl, houter, typed2⟩ := hframe
  obtain rfl := yields_editScope.mp helement
  have sec := hbody { s with scope := scope.bind element ⟨current, elem⟩ } flow s1 hs
    (typed2.bind hcurrent element) (by simp) hstep
  refine ⟨sec.toSecures, ?_⟩
  simp [sec.scope, Scope.bind, Scope.pop, houter, Scope.push]

theorem Begins.remove (h : s.Begins s1 c header step exit source)
    (hy : Yields (edit fun b => (b.removeBlock step).removeBlock exit) s1 u s') :
    s.Secures [] [] [] s' := by
  obtain rfl := of_yields_edit hy
  have sec1 := (Builder.moves_removeBlock s1.builder step).secures_of_nothing h.secures.sure
    (by simpa using h.asides step (by simp))
  have sec2 := (Builder.moves_removeBlock (s1.builder.removeBlock step) exit).secures_of_nothing
    sec1.sure (by simpa using sec1.aside exit (h.asides exit (by simp)))
  have sec02 : Builder.Secures [] [step, exit] [] s1.builder _ :=
    (sec1.weaken (by simp) (by simp) (by simp)).trans sec2 (by simp) (by simp) (by simp)
  exact h.secures.beyond ⟨sec02, rfl⟩ (fun v hv => h.fresh v (by grind)) (by simp)

/-- Behind the body of a loop over a sequence: the next place is tested, then the next element is
taken and control goes back. -/
theorem Begins.close {next more ptr value : Value} {s7 s8 s9 : Lowering}
    (h : s.Begins s1 c header step exit source) (hlen : 0 < len)
    (hseq : s1.builder.finish.typeOf sequence = .ptr (.array elem.toIr len))
    (h1 : Yields (build (·.binary .add (.reg c) (.int 1))) s1 next s2)
    (h2 : Yields (build (·.icmp .slt next (.int (Int64.ofNat len)))) s2 more s3)
    (h3 : Yields (condBr more step exit) s3 u s4) (h4 : Yields (continueIn step) s4 u s5)
    (h5 : Yields (build (·.elementPtr elem.toIr sequence next)) s5 ptr s6)
    (h6 : Yields (build (·.load elem.toIr ptr)) s6 value s7)
    (h7 : Yields (emit (·.store value slot)) s7 u s8)
    (h8 : Yields (edit (·.addIncoming (.reg c) next step)) s8 u s9)
    (h9 : Yields (br header) s9 u s10) (h10 : Yields (continueIn exit) s10 u s') :
    s.Secures [] [] [] s' := by
  obtain ⟨b1, hb1, rfl⟩ := of_yields_build h1
  obtain ⟨b2, hb2, rfl⟩ := of_yields_build h2
  obtain ⟨b3, hb3, rfl⟩ := of_yields_emit h3
  obtain rfl := of_yields_edit h4
  obtain ⟨b5, hb5, rfl⟩ := of_yields_build h5
  obtain ⟨b6, hb6, rfl⟩ := of_yields_build h6
  obtain ⟨b7, hb7, rfl⟩ := of_yields_emit h7
  obtain rfl := of_yields_edit h8
  obtain ⟨b9, hb9, rfl⟩ := of_yields_emit h9
  obtain rfl := of_yields_edit h10
  obtain ⟨sec, n, rfl, hreturns⟩ := h.secures.sure.returns h.idle h.waits (h.asides step (by simp))
    (h.asides exit (by simp)) h.order.1.ne h.order.2.ne' hb1 hb2 hb3
  obtain ⟨per, sure, aside⟩ := hreturns.close sec.sure (sec.aside _ (h.asides header (by simp))) hlen
    (sec.typeOf (by simp) hseq) hb5 hb6 hb7 hb9
  have aside9 := aside exit (sec.aside _ (h.asides exit (by simp))) h.order.2.ne'
    (h.order.1.trans h.order.2).ne'
  have sec10 := sure.continueIn aside9
  have sec05 : s.Secures [] [] [] { s1 with builder? := some (b3.moveToEnd step |>.position step) } :=
    h.secures.beyond ⟨sec, rfl⟩ (fun v hv => h.fresh v (by grind)) (by simp)
  have hfresh : ∀ v ∈ [header, step, exit], v ∈ [] ∨ s.builder.body.nextBlock ≤ v :=
    fun v hv => .inr (h.fresh v hv)
  have per09 := sec05.toPersists.trans per (fun v hv => hfresh v (by grind)) (by simp)
    (by simpa using h.counter)
  have per010 := per09.trans sec10.toPersists (by simp) (fun v hv => hfresh v (by grind)) (by simp)
  refine ⟨⟨per010, sec10.sure, fun v hv => sec10.aside v (aside v (sec05.aside v hv) ?_ ?_)⟩,
    h.secures.scope⟩
  · exact (hv.lt.trans_le (h.fresh step (by simp))).ne
  · exact (hv.lt.trans_le (h.fresh header (by simp))).ne

theorem secures_forIn {body : LowerM Flow} {index : Option String} {element : String} {flow : Flow}
    (hbody : Bounding [] body) (hs : s.builder.Sure) (htyped : s.ScopeTyped)
    (hseq : s.builder.finish.typeOf sequence = .ptr (.array elem.toIr len)) (hlen : 0 < len)
    (hy : Yields (lowerForIn index element sequence elem len body) s flow s') :
    s.Secures [] [] [] s' := by
  simp only [lowerForIn, yields_bind, yields_currentBlock] at hy
  obtain ⟨slot, s1, h1, first, s2, h2, value, s3, h3, _, s4, h4, preheader, s4', ⟨_, hs4, _⟩, header, s5, h5,
    step, s6, h6, exit, s7, h7, _, s8, h8, _, s9, h9, counter, s10, h10, current, s11, h11, result, s12,
    h12, hrest⟩ := hy
  subst s4'
  have sec4 := secures_first hs htyped hseq hlen h1 h2 h3 h4
  obtain ⟨c, rfl, hbegins⟩ := begins sec4.sure (sec4.typed htyped) h5 h6 h7 h8 h9 h10
  have sec10 := sec4.trans hbegins.secures (by simp) (by simp) (by simp)
  have sec11 := bounding_pushValue (V := []) (by simp) s10 current s11 sec10.sure (sec10.typed htyped)
    (by simp) h11
  have sec011 := sec10.trans sec11 (by simp) (by simp) (by simp)
  have hcounter : s11.Represents ⟨.reg c, .int⟩ := by
    obtain ⟨b, hb, rfl⟩ := of_yields_build h10
    exact .inr (sec11.typeOf (by simp [DataType.toIr]) (Builder.typeOf_phi hb))
  have hcurrent : s11.Represents ⟨current, elem⟩ := by
    obtain ⟨b, hb, rfl⟩ := of_yields_build h11
    by_cases hvoid : elem = .void
    · exact .inl hvoid
    · exact .inr (Builder.typeOf_pushValue (DataType.toIr_ne_void hvoid) hb)
  have sec12 := secures_iteration hbody sec11.sure (sec011.typed htyped) hcounter hcurrent h12
  have begins12 := (hbegins.trans sec11).trans sec12
  cases result with
  | terminated =>
    obtain ⟨_, s13, h13, hend⟩ := yields_bind.mp hrest
    obtain ⟨_, rfl⟩ := yields_pure.mp hend
    exact sec4.trans (begins12.remove h13) (by simp) (by simp) (by simp)
  | continues =>
    simp only [yields_bind, yields_pure] at hrest
    obtain ⟨next, s13, h13, more, s14, h14, _, s15, h15, _, s16, h16, ptr, s17, h17, value, s18, h18, _,
      s19, h19, _, s20, h20, _, s21, h21, _, s22, h22, _, rfl⟩ := hrest
    have hseq12 := begins12.secures.typeOf (by simp) (sec4.typeOf (by simp) hseq)
    exact sec4.trans (begins12.close hlen hseq12 h13 h14 h15 h16 h17 h18 h19 h20 h21 h22) (by simp)
      (by simp) (by simp)

end Lowering

theorem bounding_forIn {index : Option String} {element : String} {sequence : Expr} {body : List Stmt}
    (hseq : ∀ W, Bounding W (lowerExpr ctx sequence))
    (hbody : ∀ W, Bounding W (inFrame (lowerStmts ctx body))) :
    Bounding V (lowerStmt ctx (.forIn index element sequence body)) := by
  refine Bounding.weaken (V := []) (by simp) ?_
  intro s flow s' hs htyped hV hy
  simp only [lowerStmt, yields_bind] at hy
  obtain ⟨tv, s1, hv, hrest⟩ := hy
  have sec1 := hseq [] s tv s1 hs htyped hV hv
  have hrep := Lowering.represents_expr htyped hv
  split at hrest
  case h_1 elem len htype =>
    split at hrest
    · obtain ⟨_, rfl⟩ := yields_pure.mp hrest
      exact sec1
    · rename_i hlen
      have htypeOf : s1.builder.finish.typeOf tv.value = .ptr (.array elem.toIr len) := by
        rcases hrep with hvoid | hrep
        · rw [hvoid] at htype
          cases htype
        · rw [htype] at hrep
          exact hrep
      exact sec1.trans (Lowering.secures_forIn (hbody []) sec1.sure (sec1.typed htyped) htypeOf
        (Nat.pos_of_ne_zero hlen) hrest) (by simp) (by simp) (by simp)
  case h_2 => exact absurd hrest not_yields_throw

end Loops

/-- Lowering keeps indices within arrays. -/
theorem composed_bounding {ctx : LowerContext} : Composed ctx fun V _ x => Bounding V x where
  weaken := Bounding.weaken
  pure a := bounding_of_builder_eq fun s a s' hy => by rw [(yields_pure.mp hy).2]; exact ⟨rfl, rfl⟩
  throw _ := fun _ _ _ _ _ _ hy => absurd hy not_yields_throw
  bind := Bounding.bind
  orMissing _ _ hx s a s' hs htyped hV hy := hx s a s' hs htyped hV (yields_orMissing.mp hy)
  push _ op hop := bounding_push fun base v heq => by rw [heq] at hop; cases hop
  pushValue _ op hop := bounding_pushValue fun base v heq => by rw [heq] at hop; cases hop
  division := bounding_floatDivision
  buildSequence := bounding_buildSequence
  terminate _ ht := bounding_terminate ht
  appendBlock := bounding_appendBlock
  position := bounding_position
  continueIn := bounding_continueIn
  removeBlock := bounding_removeBlock
  inFrame := bounding_inFrame
  internString text := bounding_of_builder_eq fun s a s' hy => by
    rw [(yields_internString.mp hy).2]
    exact ⟨rfl, rfl⟩
  signature? name := bounding_of_builder_eq fun s a s' hy => by
    rw [(yields_signature?.mp hy).2]
    exact ⟨rfl, rfl⟩
  name name := bounding_of_builder_eq fun s a s' hy => by
    rw [state_of_yields_variable hy]
    exact ⟨rfl, rfl⟩
  whileLoop := bounding_while
  forIn := bounding_forIn

end SsaCompiler
