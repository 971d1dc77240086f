import SsaCompiler.Proofs.Lowering.Operators

/-!
Expressions emit sound code. Whatever is emitted for a part of an expression, what was usable before
is usable behind it.
-/
namespace SsaCompiler.Lowering

open Ir LowerM

variable {K : Ways} {open_ : List BlockId} {s s' : Lowering} {ctx : LowerContext} {v p : Value}
  {t : Ty} {n : Nat}

theorem Live.elementPtr (h : s.Live K open_) {index : Value}
    (hy : Yields (build (·.elementPtr t p index)) s v s')
    (hp : s.Usable K s.builder.current p (.ptr (.array t n)))
    (hindex : s.Usable K s.builder.current index .i64) :
    s'.Live K open_ ∧ s.Onward K K s' ∧ s'.builder.current = s.builder.current ∧
      s'.Usable K s'.builder.current v (.ptr t) :=
  h.pushValue hy (by simp) ⟨t, n, hp.has, hindex.has, rfl⟩ rfl
    (by simpa [Op.operands] using ⟨⟨_, hp⟩, ⟨_, hindex⟩⟩)

theorem Live.load (h : s.Live K open_) (hy : Yields (build (·.load t p)) s v s') (ht : t ≠ .void)
    (hp : s.Usable K s.builder.current p (.ptr t)) :
    s'.Live K open_ ∧ s.Onward K K s' ∧ s'.builder.current = s.builder.current ∧
      s'.Usable K s'.builder.current v t :=
  h.pushValue hy ht hp.has rfl (by simpa [Op.operands] using ⟨_, hp⟩)

theorem Live.store (h : s.Live K open_) {a : Unit} (hy : Yields (emit (·.store v p)) s a s')
    (hv : s.Usable K s.builder.current v t) (hp : s.Usable K s.builder.current p (.ptr t)) :
    s'.Live K open_ ∧ s.Onward K K s' ∧ s'.builder.current = s.builder.current := by
  obtain ⟨b', hstore, rfl⟩ := of_yields_emit hy
  obtain ⟨⟨res, b1⟩, hpush, heq⟩ := bind_eq_ok.mp hstore
  cases heq
  obtain ⟨hlive, hon, hcur, _⟩ := h.push (yields_build (isSome_of_yields_build hy) hpush)
    ⟨t, hv.has, hp.has⟩ rfl (by simpa [Op.operands] using ⟨⟨_, hv⟩, ⟨_, hp⟩⟩)
  exact ⟨hlive, hon, hcur⟩

theorem Live.storeElements (h : s.Live K open_) {i : Nat} {vs : List Value} {a : Unit}
    (hp : s.Usable K s.builder.current p (.ptr (.array t n)))
    (hvs : ∀ v ∈ vs, s.Usable K s.builder.current v t)
    (hy : Yields (LowerM.storeElements t p i vs) s a s') :
    s'.Live K open_ ∧ s.Onward K K s' := by
  induction vs generalizing i s with
  | nil =>
    obtain ⟨_, rfl⟩ := yields_pure.mp hy
    exact ⟨h, .refl K s'⟩
  | cons v vs ih =>
    simp only [LowerM.storeElements, yields_bind] at hy
    obtain ⟨slot, s1, hslot, _, s2, hstore, hrest⟩ := hy
    obtain ⟨live1, on1, _, hslot⟩ := h.elementPtr hslot hp (Usable.const K _ _ _)
    obtain ⟨live2, on2, _⟩ := live1.store hstore ((hvs v (by simp)).onward on1) hslot
    have on02 := on1.trans on2 h
    obtain ⟨live3, on3⟩ := ih live2 (hp.onward on02)
      (fun u hu => (hvs u (List.mem_cons_of_mem _ hu)).onward on02) hrest
    exact ⟨live3, on02.trans on3 h⟩

/-- A sequence is a stack slot with its elements. -/
theorem Live.emits_buildSequence (h : s.Live K open_) {elem : DataType} {vs : List Value}
    {tv : TypedValue} (helem : elem.isScalar = true)
    (hvs : ∀ v ∈ vs, s.Usable K s.builder.current v elem.toIr)
    (hy : Yields (buildSequence elem vs) s tv s') : Emits open_ K s s' tv := by
  simp only [buildSequence, yields_bind, yields_pure] at hy
  obtain ⟨array, s1, halloca, _, s2, hstores, rfl, rfl⟩ := hy
  obtain ⟨live1, on1, harray⟩ := h.alloca halloca
  obtain ⟨live2, on2⟩ := live1.storeElements harray (fun v hv => (hvs v hv).onward on1) hstores
  exact ⟨K, live2, on1.trans on2 h, harray.onward on2, helem⟩

theorem yields_elementType {before : Option DataType} {ty elem : DataType}
    (hy : Yields (elementType before ty) s elem s') :
    s' = s ∧ elem = ty ∧ ty.isScalar = true ∧ ∀ first, before = some first → first = ty := by
  obtain ⟨hscalar, hy⟩ := yields_ite_throw.mp hy
  have hscalar : ty.isScalar = true := by simpa using hscalar
  cases before with
  | none =>
    obtain ⟨rfl, rfl⟩ := yields_pure.mp hy
    exact ⟨rfl, rfl, hscalar, by simp⟩
  | some first =>
    obtain ⟨hne, hy⟩ := yields_ite_throw.mp hy
    obtain ⟨rfl, rfl⟩ := yields_pure.mp hy
    exact ⟨rfl, not_not.mp hne, hscalar, by simpa using not_not.mp hne⟩

mutual

theorem Live.emits_expr {K : Ways} {s s' : Lowering} (h : s.Live K open_) {tv : TypedValue} :
    ∀ e, Yields (lowerExpr ctx e) s tv s' → Emits open_ K s s' tv
  | .string text, hy => by
    simp only [lowerExpr, yields_bind, yields_pure] at hy
    obtain ⟨v, s1, hstring, rfl, rfl⟩ := hy
    obtain ⟨live1, on1, hv⟩ := h.emits_internString hstring
    exact ⟨K, live1, on1, hv _, trivial⟩
  | .number (.int i), hy => by
    obtain ⟨rfl, rfl⟩ := yields_pure.mp hy
    exact .refl h ⟨.const K _ _ (.int i), trivial⟩
  | .number (.float x), hy => by
    obtain ⟨rfl, rfl⟩ := yields_pure.mp hy
    exact .refl h ⟨.const K _ _ (.float x), trivial⟩
  | .bool b, hy => by
    obtain ⟨rfl, rfl⟩ := yields_pure.mp hy
    exact .refl h ⟨.const K _ _ (.bool b), trivial⟩
  | .variable name, hy => by
    simp only [lowerExpr, yields_bind, yields_get] at hy
    obtain ⟨_, _, ⟨hr, hs⟩, hy⟩ := hy
    rw [hr, hs] at hy
    cases hlook : s.scope.lookup? name with
    | none =>
      rw [hlook] at hy
      exact absurd hy not_yields_throw
    | some v =>
      rw [hlook] at hy
      obtain ⟨rfl, rfl⟩ := yields_pure.mp hy
      exact .refl h (h.scope.lookup hlook)
  | .binary op lhs rhs, hy => by
    simp only [lowerExpr, yields_bind] at hy
    obtain ⟨l, s1, hlhs, r, s2, hrhs, hop⟩ := hy
    obtain ⟨K1, live1, on1, hl⟩ := Live.emits_expr h lhs hlhs
    obtain ⟨K2, live2, on2, hr⟩ := Live.emits_expr live1 rhs hrhs
    exact .of_onward (on1.trans on2 h) (live2.emits_binary (hl.onward on2) hr hop) h
  | .unary op operand, hy => by
    simp only [lowerExpr, yields_bind] at hy
    obtain ⟨v, s1, hoperand, hop⟩ := hy
    obtain ⟨K1, live1, on1, hv⟩ := Live.emits_expr h operand hoperand
    exact .of_onward on1 (live1.emits_unary hv hop) h
  | .call callee args, hy => by
    simp only [lowerExpr, yields_bind, yields_signature?] at hy
    obtain ⟨sig?, _, ⟨hsig, rfl⟩, hy⟩ := hy
    cases sig? with
    | none => exact absurd hy not_yields_throw
    | some sig =>
      obtain ⟨hlen, hy⟩ := yields_ite_throw.mp hy
      obtain ⟨values, s1, hargs, hcall⟩ := yields_bind.mp hy
      obtain ⟨K1, live1, on1, hvalues⟩ :=
        Live.emits_args h args sig.params (not_not.mp hlen).symm hargs
      refine .of_onward on1 (live1.emits_call ?_ hvalues hcall) h
      rw [on1.grows.module.function?, ← hsig]
  | .sequence elements, hy => by
    simp only [lowerExpr, yields_bind] at hy
    obtain ⟨⟨elem?, values⟩, s1, helements, hy⟩ := hy
    obtain ⟨K1, live1, on1, hvalues⟩ := Live.emits_elements h none elements (by simp) helements
    cases elem? with
    | none => exact absurd hy not_yields_throw
    | some elem =>
      obtain ⟨hscalar, _, hvalues⟩ := hvalues elem rfl
      exact .of_onward on1 (live1.emits_buildSequence hscalar hvalues hy) h

theorem Live.emits_args {K : Ways} {s s' : Lowering} (h : s.Live K open_) {callee : String}
    {place : Nat} {values : List Value} :
    ∀ es types, es.length = types.length →
      Yields (lowerArgs ctx callee place es types) s values s' →
      ∃ K', s'.Live K' open_ ∧ s.Onward K K' s' ∧
        List.Forall₂ (s'.Usable K' s'.builder.current) values (types.map DataType.toIr)
  | [], [], _, hy => by
    obtain ⟨rfl, rfl⟩ := yields_pure.mp hy
    exact ⟨K, h, .refl K _, .nil⟩
  | e :: es, ty :: types, hlen, hy => by
    simp only [lowerArgs, yields_bind] at hy
    obtain ⟨arg, s1, harg, hy⟩ := hy
    obtain ⟨K1, live1, on1, hv⟩ := Live.emits_expr h e harg
    obtain ⟨hty, hy⟩ := yields_ite_throw.mp hy
    have hty : arg.type = ty := not_not.mp hty
    simp only [yields_bind, yields_pure] at hy
    obtain ⟨rest, s2, hrest, rfl, rfl⟩ := hy
    obtain ⟨K2, live2, on2, hrest⟩ := Live.emits_args live1 es types (by simpa using hlen) hrest
    exact ⟨K2, live2, on1.trans on2 h, .cons (hty ▸ (hv.onward on2).toUsable) hrest⟩

/-- The elements of a sequence are scalars of one type, which is that of the elements before. -/
theorem Live.emits_elements {K : Ways} {s s' : Lowering} (h : s.Live K open_)
    {elem? : Option DataType} {values : List Value} :
    ∀ before es, (∀ ty, before = some ty → ty.isScalar = true) →
      Yields (lowerElements ctx before es) s (elem?, values) s' →
      ∃ K', s'.Live K' open_ ∧ s.Onward K K' s' ∧
        ∀ elem, elem? = some elem → elem.isScalar = true ∧ (∀ ty, before = some ty → ty = elem) ∧
          ∀ v ∈ values, s'.Usable K' s'.builder.current v elem.toIr
  | before, [], hbefore, hy => by
    obtain ⟨heq, rfl⟩ := yields_pure.mp hy
    cases heq
    exact ⟨K, h, .refl K _, fun elem helem => ⟨hbefore elem helem, by simp [helem], by simp⟩⟩
  | before, e :: es, hbefore, hy => by
    simp only [lowerElements, yields_bind, yields_pure] at hy
    obtain ⟨v, s1, helem, elem, _, htype, ⟨_, rest⟩, s2, hrest, heq, rfl⟩ := hy
    cases heq
    obtain ⟨rfl, rfl, hscalar, hfirst⟩ := yields_elementType htype
    obtain ⟨K1, live1, on1, hv⟩ := Live.emits_expr h e helem
    obtain ⟨K2, live2, on2, hrest⟩ :=
      Live.emits_elements live1 (some v.type) es (by simpa using hscalar) hrest
    refine ⟨K2, live2, on1.trans on2 h, fun elem helem => ?_⟩
    obtain ⟨hscalar, hsame, hrest⟩ := hrest elem helem
    obtain rfl := hsame v.type rfl
    exact ⟨hscalar, hfirst, List.forall_mem_cons.mpr ⟨(hv.onward on2).toUsable, hrest⟩⟩

end

/-- A condition gives a boolean. -/
theorem Live.emits_condition (h : s.Live K open_) {e : Expr}
    (hy : Yields (lowerCondition ctx e) s v s') :
    ∃ K', s'.Live K' open_ ∧ s.Onward K K' s' ∧ s'.Usable K' s'.builder.current v .i1 := by
  simp only [lowerCondition, yields_bind] at hy
  obtain ⟨tv, s1, hexpr, hy⟩ := hy
  obtain ⟨K1, live1, on1, hv⟩ := h.emits_expr e hexpr
  obtain ⟨hty, hy⟩ := yields_ite_throw.mp hy
  obtain ⟨rfl, rfl⟩ := yields_pure.mp hy
  have husable := hv.toUsable
  rw [not_not.mp hty] at husable
  exact ⟨K1, live1, on1, husable⟩

end SsaCompiler.Lowering
