import SsaCompiler.Proofs.Lowering.Branching

/-!
Operators and calls emit sound code: their operands are usable and have the types that the
instructions ask for, and so is what they give.
-/
namespace SsaCompiler.Lowering

open Ir LowerM

variable {K : Ways} {open_ : List BlockId} {s s' : Lowering} {ctx : LowerContext}
  {tv : TypedValue} {l r : Value} {ty : DataType}

theorem Emits.refl (h : s.Live K open_) (hv : s.Holds K s.builder.current tv) :
    Emits open_ K s s tv := ⟨K, h, .refl K s, hv⟩

/-- The result of an operation is the value of an expression. -/
theorem Live.emits_pushValue (h : s.Live K open_) {t : Ty} {op : Op} {v : Value}
    (hy : Yields (build (·.pushValue t op)) s v s') (ht : t ≠ .void) (hty : ty.toIr = t)
    (hproper : ty.Proper) (hfits : s.builder.OpFits s.module t op) (hplain : op.isPhi = false)
    (huses : ∀ v ∈ op.operands, ∃ t, s.Usable K s.builder.current v t) :
    Emits open_ K s s' ⟨v, ty⟩ := by
  obtain ⟨hlive, hon, _, hv⟩ := h.pushValue hy ht hfits hplain huses
  exact ⟨K, hlive, hon, by rwa [hty], hproper⟩

theorem Live.emits_arith (h : s.Live K open_) {op : BinOp} (hy : Yields (arith op ty l r) s tv s')
    (hl : s.Usable K s.builder.current l op.ty) (hr : s.Usable K s.builder.current r op.ty)
    (hty : ty.toIr = op.ty) (hproper : ty.Proper) : Emits open_ K s s' tv := by
  simp only [arith, yields_bind, yields_pure] at hy
  obtain ⟨v, _, hbuild, rfl, rfl⟩ := hy
  refine h.emits_pushValue hbuild (by cases op <;> decide) hty hproper ⟨hl.has, hr.has, rfl⟩ rfl ?_
  simpa [Op.operands] using ⟨⟨_, hl⟩, ⟨_, hr⟩⟩

theorem Live.emits_icmp (h : s.Live K open_) {pred : IntPred} {t : Ty}
    (hl : s.Usable K s.builder.current l t) (hr : s.Usable K s.builder.current r t)
    (ht : t.isInteger ∨ t.pointee?.isSome) (hpred : pred = .slt ∨ pred = .sgt → t = .i64)
    (hy : Yields (icmp pred l r) s tv s') : Emits open_ K s s' tv := by
  simp only [icmp, yields_bind, yields_pure] at hy
  obtain ⟨v, _, hbuild, rfl, rfl⟩ := hy
  refine h.emits_pushValue hbuild (by decide) rfl trivial ⟨rfl, t, hl.has, hr.has, ht, hpred⟩ rfl ?_
  simpa [Op.operands] using ⟨⟨_, hl⟩, ⟨_, hr⟩⟩

theorem Live.emits_fcmp (h : s.Live K open_) {pred : FloatPred}
    (hl : s.Usable K s.builder.current l .double) (hr : s.Usable K s.builder.current r .double)
    (hy : Yields (fcmp pred l r) s tv s') : Emits open_ K s s' tv := by
  simp only [fcmp, yields_bind, yields_pure] at hy
  obtain ⟨v, _, hbuild, rfl, rfl⟩ := hy
  refine h.emits_pushValue hbuild (by decide) rfl trivial ⟨rfl, hl.has, hr.has⟩ rfl ?_
  simpa [Op.operands] using ⟨⟨_, hl⟩, ⟨_, hr⟩⟩

theorem usable_of_forall₂ {place : BlockId} {args : List Value} {types : List Ty}
    (h : List.Forall₂ (s.Usable K place) args types) : ∀ v ∈ args, ∃ t, s.Usable K place v t := by
  induction h with
  | nil => simp
  | cons hv _ ih => exact List.forall_mem_cons.mpr ⟨⟨_, hv⟩, ih⟩

/-- A call of a function of the module with arguments of its types. -/
theorem Live.emits_call (h : s.Live K open_) {callee : String} {sig : Signature}
    {args : List Value} (hsig : (s.module.function? callee).bind Signature.of? = some sig)
    (hargs : List.Forall₂ (s.Usable K s.builder.current) args (sig.params.map DataType.toIr))
    (hy : Yields (LowerM.call callee sig args) s tv s') : Emits open_ K s s' tv := by
  obtain ⟨f, hf, hof⟩ := Option.bind_eq_some_iff.mp hsig
  obtain ⟨hparams, hret, _, hproper⟩ := Signature.of?_eq_some_iff.mp hof
  have hfits : s.builder.OpFits s.module sig.result.toIr (.call callee args) := by
    refine ⟨sig.params.map DataType.toIr, ?_, hargs.imp fun _ _ hv => hv.has⟩
    simp [Module.calleeSignature?, hf, hparams, hret]
  simp only [LowerM.call, yields_bind] at hy
  obtain ⟨res, s1, hbuild, hy⟩ := hy
  obtain ⟨hlive, hon, _, ⟨hvoid, rfl⟩ | ⟨v, rfl, hv⟩⟩ :=
    h.push hbuild hfits rfl (usable_of_forall₂ hargs)
  · obtain ⟨rfl, rfl⟩ := yields_pure.mp hy
    exact ⟨K, hlive, hon, Usable.const K _ _ (.undef .void), trivial⟩
  · obtain ⟨rfl, rfl⟩ := yields_pure.mp hy
    exact ⟨K, hlive, hon, hv, hproper⟩

/-- A string of the module may be used anywhere. -/
theorem Live.emits_internString (h : s.Live K open_) {text : String} {v : Value}
    (hy : Yields (internString text) s v s') :
    s'.Live K open_ ∧ s.Onward K K s' ∧ ∀ place, s'.Usable K place v .string := by
  obtain ⟨rfl, rfl⟩ := yields_internString.mp hy
  obtain ⟨hlive, hon⟩ := h.growModule (s.module.grows_internString text)
  refine ⟨hlive, hon, fun place => ?_⟩
  unfold Module.internString
  split
  · rename_i i hfind
    obtain ⟨hlt, _⟩ := List.findIdx?_eq_some_iff_getElem.mp hfind
    exact ⟨.global hlt, nofun⟩
  · exact ⟨.global (by simp), nofun⟩

theorem Live.declareRoutine (h : s.Live K open_) {routine : Routine} {a : Unit}
    (hy : Yields (declareRoutine routine) s a s') :
    s'.Live K open_ ∧ s.Onward K K s' ∧ routine ∈ s'.module.routines := by
  obtain rfl := yields_declareRoutine.mp hy
  obtain ⟨hlive, hon⟩ := h.growModule (s.module.grows_declareRoutine routine)
  exact ⟨hlive, hon, s.module.mem_declareRoutine routine⟩

/-- A declared routine may be called with arguments of its types. -/
theorem Live.callRoutine (h : s.Live K open_) {routine : Routine} {args : List Value}
    {res : Option Value} (hmem : routine ∈ s.module.routines)
    (hargs : List.Forall₂ (s.Usable K s.builder.current) args routine.params)
    (hy : Yields (build (·.call routine.name args routine.ret)) s res s') :
    s'.Live K open_ ∧ s.Onward K K s' ∧ s'.builder.current = s.builder.current := by
  have hfits : s.builder.OpFits s.module routine.ret (.call routine.name args) :=
    ⟨_, h.sound.honest.calleeSignature? hmem, hargs.imp fun _ _ hv => hv.has⟩
  obtain ⟨hlive, hon, hcur, _⟩ := h.push hy hfits rfl (usable_of_forall₂ hargs)
  exact ⟨hlive, hon, hcur⟩

/-- What a division with a guard does first: the message, the routines and the test. -/
theorem Live.emits_divisionTest (h : s.Live K open_) {message isZero : Value} {s1 s2 s3 s4 : Lowering}
    (hr : s.Usable K s.builder.current r .double)
    (hmessage : Yields (internString divisionMessage) s message s1)
    (hputs : Yields (LowerM.declareRoutine .puts) s1 () s2)
    (habort : Yields (LowerM.declareRoutine .abort) s2 () s3)
    (hzero : Yields (build (·.fcmp .oeq r (.float .zero))) s3 isZero s4) :
    s4.Live K open_ ∧ s.Onward K K s4 ∧ s4.Usable K s4.builder.current message .string ∧
      s4.Usable K s4.builder.current isZero .i1 ∧ .puts ∈ s4.module.routines ∧
      .abort ∈ s4.module.routines := by
  obtain ⟨live1, on1, hmessage⟩ := h.emits_internString hmessage
  obtain ⟨live2, on2, hputs⟩ := live1.declareRoutine hputs
  obtain ⟨live3, on3, habort⟩ := live2.declareRoutine habort
  have on03 := (on1.trans on2 h).trans on3 h
  have hr3 := hr.onward on03
  obtain ⟨live4, on4, _, hisZero⟩ := live3.pushValue hzero (by decide) ⟨rfl, hr3.has, .const _⟩ rfl
    (by simpa [Op.operands] using ⟨⟨_, hr3⟩, ⟨_, Usable.const K _ _ _⟩⟩)
  have on14 := (on2.trans on3 live1).trans on4 live1
  exact ⟨live4, on03.trans on4 h, (hmessage s1.builder.current).onward on14, hisZero,
    on4.grows.module.routines _ (on3.grows.module.routines _ hputs),
    on4.grows.module.routines _ habort⟩

/-- A division with a guard: the block that stops and the block that divides meet in a third one. -/
theorem Live.emits_guarded (h : s.Live K open_) {result : Value}
    (hl : s.Usable K s.builder.current l .double) (hr : s.Usable K s.builder.current r .double)
    (hsteps : DivisionSteps l r s result s') : Emits open_ K s s' ⟨result, .float⟩ := by
  obtain @⟨message, isZero, quotient, zeroBlock, okBlock, mergeBlock, _, _, s1, s2, s3, s4, s5, s6, s7, s8,
    s9, s10, s11, s12, s13, s14, s15, s16, hmessage, hputs, habort, hzero, hblock1, hblock2, hblock3,
    hbranch, hpos1, hcall1, hcall2, hbr1, hpos2, hdiv, hbr2, hpos3, hphi⟩ := hsteps
  obtain ⟨live4, on4, hmessage, hisZero, hputs, habort⟩ :=
    h.emits_divisionTest hr hmessage hputs habort hzero
  refine .of_onward on4 ?_ h
  have hl := hl.onward on4
  have hr := hr.onward on4
  -- the three blocks, and the test that leads to two of them
  obtain ⟨K5, made5⟩ := (Made.refl live4).append live4 hblock1
  obtain ⟨K6, made6⟩ := made5.append live4 hblock2
  obtain ⟨K7, made7⟩ := made6.append live4 hblock3
  obtain ⟨⟨hmo, hmz⟩, hoz⟩ : (mergeBlock ≠ okBlock ∧ mergeBlock ≠ zeroBlock) ∧
      okBlock ≠ zeroBlock := by simpa using made7.distinct
  have pz := made7.waiting zeroBlock (by simp)
  have po := made7.waiting okBlock (by simp)
  have pm := made7.waiting mergeBlock (by simp)
  have hsub : ∀ d, K s4.builder.current d → K7 s7.builder.current d := made7.onward.above
  have hisZero := hisZero.onward made7.onward
  have left8 := made7.live.leave hbranch hisZero.has
    (by simpa [Terminator.operands] using ⟨_, hisZero⟩)
    (by simpa [Terminator.successors] using ⟨⟨_, pz, hsub⟩, ⟨_, po, hsub⟩⟩)
  have since8 := made7.onward.toSince.left live4 left8
    (by simpa [Terminator.successors] using ⟨made7.new zeroBlock (by simp),
      made7.new okBlock (by simp)⟩)
  -- the block that stops
  obtain ⟨live9, on9, turn9, cur9⟩ : s9.Live K7 (mergeBlock :: okBlock :: open_) ∧ _ :=
    (pz.left left8).enter live4 since8 (fun _ hd => hd) (made7.new _ (by simp)) left8.sound
      (by simp; tauto) (left8.reaches _ (by simp [Terminator.successors])) (.inl hpos1)
  obtain ⟨live10, on10, cur10⟩ := live9.callRoutine (on9.grows.module.routines _ hputs)
    (.cons (hmessage.onward on9) .nil) hcall1
  obtain ⟨live11, on11, cur11⟩ := live10.callRoutine
    ((on9.trans on10 live4).grows.module.routines _ habort) .nil hcall2
  have pm11 := ((((pm.left left8).turn turn9 (cur9 ▸ hmz)).onward live9 on10).onward live10 on11)
  have po11 := ((((po.left left8).turn turn9 (cur9 ▸ hoz)).onward live9 on10).onward live10 on11)
  have on411 := (on9.trans on10 live4).trans on11 live4
  have left12 := live11.leave hbr1 trivial (by simp [Terminator.operands])
    (by simpa [Terminator.successors] using ⟨_, pm11, on411.above⟩)
  have since12 := on411.toSince.left live4 left12
    (by simpa [Terminator.successors] using made7.new mergeBlock (by simp))
  -- the block that divides
  have reach12 := left12.grows.reaches (on11.grows.reaches (on10.grows.reaches
    (turn9.reaches (left8.reaches okBlock (by simp [Terminator.successors])))))
  obtain ⟨live13, on13, turn13, cur13⟩ : s13.Live K7 (mergeBlock :: open_) ∧ _ :=
    (po11.left left12).enter live4 since12 (fun _ hd => hd) (made7.new _ (by simp)) left12.sound
      (by simp; tauto) reach12 (.inl hpos2)
  have hl13 := hl.onward on13
  have hr13 := hr.onward on13
  obtain ⟨live14, on14', cur14, hquotient⟩ := live13.pushValue hdiv (by decide)
    ⟨hl13.has, hr13.has, rfl⟩ rfl (by simpa [Op.operands] using ⟨⟨_, hl13⟩, ⟨_, hr13⟩⟩)
  have pm14 := ((pm11.left left12).turn turn13 (cur13 ▸ hmo)).onward live13 on14'
  have on414 := on13.trans on14' live4
  have left15 := live14.leave hbr2 trivial (by simp [Terminator.operands])
    (by simpa [Terminator.successors] using ⟨_, pm14, on414.above⟩)
  have since15 := on414.toSince.left live4 left15
    (by simpa [Terminator.successors] using made7.new mergeBlock (by simp))
  -- the block where they meet
  obtain ⟨live16, on16, turn16, cur16⟩ : s16.Live K7 open_ ∧ _ :=
    (pm14.left left15).enter live4 since15 (fun _ hd => hd) (made7.new _ (by simp)) left15.sound
      (by simp) (left15.reaches _ (by simp [Terminator.successors])) (.inl hpos3)
  have pm9 := (pm.left left8).turn turn9 (cur9 ▸ hmz)
  have hedges : s16.builder.body.OneEdgeEach s16.builder.current
      [(.const (.undef .double), zeroBlock), (quotient, okBlock)] := by
    refine ⟨by simpa using hoz.symm, fun p => ?_⟩
    have hbefore : s11.builder.body.Leads p mergeBlock ↔ False := by
      rw [(pm9.onward live9 on10).leads_since live10 on11.toSince, pm9.leads_since live9 on10.toSince,
        (pm.left left8).leads_turn left8.sound turn9, left8.leads]
      simp [made7.unused mergeBlock (by simp), Terminator.successors, hmz, hmo]
    rw [cur16, (pm14.left left15).leads_turn left15.sound turn16, left15.leads,
      ((pm11.left left12).turn turn13 (cur13 ▸ hmo)).leads_since live13 on14'.toSince,
      (pm11.left left12).leads_turn left12.sound turn13, left12.leads, hbefore, cur11, cur10, cur9,
      cur14, cur13]
    simp [Terminator.successors]
  have hquotient16 : s16.Usable K7 okBlock quotient .double := by
    have hq15 := hquotient.grows left15.grows (fun d hd => hd)
    rw [cur14, cur13] at hq15
    exact hq15.grows turn16 (fun d hd => hd)
  obtain ⟨hblank, hnotEntry⟩ := (pm14.left left15).blank_turn turn16 cur16
  obtain ⟨live17, grows17, hresult, cur17, scope17, _⟩ := live16.phi hblank hnotEntry hedges
    (by simpa using ⟨Usable.const K7 _ _ (.undef .double), hquotient16⟩) hphi
  have hmoved : s4.builder.body.nextBlock ≤ s16.builder.current := cur16 ▸ made7.new _ (by simp)
  exact ⟨K7, live17, on16.phi live4 grows17 hmoved cur17 scope17, hresult, trivial⟩

theorem Live.emits_division (h : s.Live K open_) (hl : s.Usable K s.builder.current l .double)
    (hr : s.Usable K s.builder.current r .double) (hy : Yields (floatDivision ctx l r) s tv s') :
    Emits open_ K s s' tv := by
  obtain ⟨_, hy⟩ | ⟨_, result, rfl, hsteps⟩ := of_yields_floatDivision hy
  · exact h.emits_arith hy hl hr rfl trivial
  · exact h.emits_guarded hl hr hsteps

/-- Every built-in operator, on operands of one type. -/
theorem Live.emits_builtin (h : s.Live K open_) {op : Operator}
    (hl : s.Usable K s.builder.current l ty.toIr) (hr : s.Usable K s.builder.current r ty.toIr)
    (hy : Yields (builtin ctx op ty l r) s tv s') : Emits open_ K s s' tv := by
  unfold builtin at hy
  split at hy
  case h_1 | h_2 | h_3 | h_4 => exact h.emits_arith hy hl hr rfl trivial
  case h_5 | h_6 => exact h.emits_icmp hl hr (.inl rfl) (fun _ => rfl) hy
  case h_7 | h_8 | h_9 => exact h.emits_arith hy hl hr rfl trivial
  case h_10 => exact h.emits_division hl hr hy
  case h_11 | h_12 | h_13 | h_14 => exact h.emits_fcmp hl hr hy
  case h_15 | h_17 | h_18 | h_20 => exact h.emits_icmp hl hr (.inl rfl) (by simp) hy
  case h_16 | h_19 => exact h.emits_icmp hl hr (.inr rfl) (by simp) hy
  case h_21 | h_22 => exact absurd hy not_yields_throw

theorem Live.emits_builtinBinary (h : s.Live K open_) {op : Operator} {lhs rhs : TypedValue}
    (hl : s.Holds K s.builder.current lhs) (hr : s.Holds K s.builder.current rhs)
    (hy : Yields (builtinBinary ctx op lhs rhs) s tv s') : Emits open_ K s s' tv := by
  obtain ⟨hne, hy⟩ := yields_ite_throw.mp hy
  have heq : lhs.type = rhs.type := not_not.mp hne
  exact h.emits_builtin hl.toUsable (heq ▸ hr.toUsable) hy

/-- A binary operator, as an overload or built in. -/
theorem Live.emits_binary (h : s.Live K open_) {op : Operator} {lhs rhs : TypedValue}
    (hl : s.Holds K s.builder.current lhs) (hr : s.Holds K s.builder.current rhs)
    (hy : Yields (LowerM.binary ctx op lhs rhs) s tv s') : Emits open_ K s s' tv := by
  simp only [LowerM.binary, yields_bind, yields_signature?] at hy
  obtain ⟨sig?, _, ⟨hsig, rfl⟩, hy⟩ := hy
  cases sig? with
  | none => exact h.emits_builtinBinary hl hr hy
  | some sig =>
    dsimp only at hy
    split at hy
    · rename_i hparams
      refine h.emits_call hsig.symm ?_ hy
      rw [hparams]
      exact .cons hl.toUsable (.cons hr.toUsable .nil)
    · exact h.emits_builtinBinary hl hr (yields_orMissing.mp hy)

/-- A unary operator, which is always an overload. -/
theorem Live.emits_unary (h : s.Live K open_) {op : Char} {operand : TypedValue}
    (hv : s.Holds K s.builder.current operand) (hy : Yields (LowerM.unary op operand) s tv s') :
    Emits open_ K s s' tv := by
  simp only [LowerM.unary, yields_bind, yields_signature?] at hy
  obtain ⟨sig?, _, ⟨hsig, rfl⟩, hy⟩ := hy
  cases sig? with
  | none => exact absurd hy not_yields_throw
  | some sig =>
    dsimp only at hy
    split at hy
    · rename_i hparams
      refine h.emits_call hsig.symm ?_ hy
      rw [hparams]
      exact .cons hv.toUsable .nil
    · exact absurd hy not_yields_throw

end SsaCompiler.Lowering
