import SsaCompiler.Proofs.Lowering.Loops

/-!
Statements emit sound code. A statement behind which control goes on leaves a state where code may
be emitted; behind any other one, nothing is left unfinished that was not so before.
-/
namespace SsaCompiler.Lowering

open Ir LowerM

variable {K K' : Ways} {open_ : List BlockId} {s s' s'' : Lowering} {flow : Flow}
  {D : BlockId → Prop} {T E P : List BlockId} {v exit elseTo test thenTo : BlockId}
  {step : LowerM Flow} {ctx : LowerContext} {t : Ty} {b r : Bool}

/-- A return ends the current block. -/
theorem Live.ends_ret (h : s.Live K open_) {value : Option Value} {a : Unit}
    (hy : Yields (ret value) s a s') (hfits : s.builder.TermFits s.module (.ret value))
    (huses : ∀ v ∈ (Terminator.ret value).operands, ∃ ty, s.Usable K s.builder.current v ty) :
    Ends open_ K s s' .terminated := by
  have left := h.leave hy hfits huses (by simp [Terminator.successors])
  exact ⟨K, left.sound, (Since.refl K s).left h left (by simp [Terminator.successors])⟩

theorem SoundStep.lowerReturn {value : Option Expr} :
    SoundStep ctx.result.toIr (lowerReturn ctx value) := by
  intro K open_ s flow s' h hret hy
  cases value with
  | none =>
    obtain ⟨hvoid, hy⟩ := yields_ite_throw.mp hy
    simp only [yields_bind, yields_pure] at hy
    obtain ⟨_, _, hy, rfl, rfl⟩ := hy
    refine h.ends_ret hy (hret.trans ?_) (by simp [Terminator.operands])
    rw [not_not.mp hvoid]
    rfl
  | some e =>
    simp only [SsaCompiler.lowerReturn, yields_bind] at hy
    obtain ⟨tv, s1, hexpr, hy⟩ := hy
    obtain ⟨K1, live1, on1, hv⟩ := h.emits_expr e hexpr
    obtain ⟨hty, hy⟩ := yields_ite_throw.mp hy
    simp only [yields_bind, yields_pure] at hy
    obtain ⟨_, _, hy, rfl, rfl⟩ := hy
    have hret1 : s1.builder.ret = tv.type.toIr := by
      rw [on1.grows.ret, hret, not_not.mp hty]
    refine .of_onward on1 ?_ h
    by_cases hvoid : tv.type = .void
    · rw [if_pos hvoid] at hy
      refine live1.ends_ret hy (hret1.trans ?_) (by simp [Terminator.operands])
      rw [hvoid]
      rfl
    · rw [if_neg hvoid] at hy
      refine live1.ends_ret hy ⟨?_, ?_⟩ (by simpa [Terminator.operands] using ⟨_, hv.toUsable⟩)
      · rw [hret1]
        exact DataType.toIr_ne_void hvoid
      · rw [hret1]
        exact hv.has

/-- Whether control can get to `v`. If not, nothing leads to it. -/
def Led (s : Lowering) (v : BlockId) : Bool → Prop
  | true => s.builder.body.Reaches v
  | false => ∀ u, ¬ s.builder.body.Leads u v

theorem Led.grows (h : s.Led v b) (hg : Grows T E P K s K' s') (hP : v ∉ P)
    (hlt : v < s.builder.body.nextBlock) : s'.Led v b := by
  cases b with
  | true => exact hg.reaches h
  | false =>
    intro u
    rw [hg.leads_iff hP hlt]
    exact h u

/-- A branch that goes on at `exit` if control gets to its end. -/
theorem SoundStep.branchTo (hstep : SoundStep t step) (h : s.Live K open_)
    (hret : s.builder.ret = t) (hexit : s.Pending K exit D)
    (hD : ∀ d, D d → K s.builder.current d) (hled : s.Led exit b)
    (hy : Yields (branchTo exit step) s r s') :
    ∃ K', s'.builder.Sound K' open_ s'.module ∧
      Grows [] [s.builder.current] [exit] K s K' s' ∧
      (s'.builder.current = s.builder.current ∨
        s.builder.body.nextBlock ≤ s'.builder.current) ∧
      s'.scope = s.scope ∧ s'.Pending K' exit D ∧ s'.Led exit (b || r) := by
  simp only [LowerM.branchTo, yields_bind] at hy
  obtain ⟨flow, s1, hrun, hy⟩ := hy
  have hends := hstep h hret hrun
  have hlt := h.sound.fresh exit hexit.mem_ids
  cases flow with
  | terminated =>
    obtain ⟨rfl, rfl⟩ := yields_pure.mp hy
    obtain ⟨K1, sound1, since1⟩ := hends
    refine ⟨K1, sound1, since1.grows.weaken (by simp) (by simp) (by simp), since1.moved,
      since1.scope, hexit.since h since1, ?_⟩
    rw [Bool.or_false]
    exact hled.grows since1.grows (by simp) hlt
  | continues =>
    simp only [yields_bind, yields_pure] at hy
    obtain ⟨_, _, hbr, rfl, rfl⟩ := hy
    obtain ⟨K1, live1, on1⟩ := hends
    have hexit1 := hexit.onward h on1
    have left2 := live1.leave hbr trivial (by simp [Terminator.operands])
      (by simpa [Terminator.successors] using ⟨_, hexit1, fun d hd => on1.above d (hD d hd)⟩)
    refine ⟨K1, left2.sound, ?_, ?_, left2.scope.trans on1.scope, hexit1.left left2, ?_⟩
    · exact (on1.grows.weaken (by simp) (by simp) (by simp)).trans left2.grows h.sound.fresh (by simp)
        (by simpa using on1.moved) (by simp [Terminator.successors])
    · rw [left2.current]
      exact on1.moved
    · rw [Bool.or_true]
      exact left2.reaches exit (by simp [Terminator.successors])

/-- The block `v` was made since `s0`. It may be led to from the current block, and what is known in
`s0` is known in it. -/
structure Target (K0 : Ways) (s0 : Lowering) (K : Ways) (s : Lowering) (v : BlockId) : Prop where
  waiting : ∃ D, s.Pending K v D ∧ (∀ d, K0 s0.builder.current d → D d) ∧
    ∀ d, D d → K s.builder.current d
  new : s0.builder.body.nextBlock ≤ v

/-- A branch that was begun in `s0` is being built. What is left of it begins in the block `test`,
which is `elseTo` if there is no further condition. -/
structure Chain (K0 : Ways) (s0 : Lowering) (open_ : List BlockId) (elseTo exit test : BlockId)
    (further : Bool) (K : Ways) (s : Lowering) : Prop where
  since : s0.Since K0 K s
  sound : s.builder.Sound K (exit :: elseTo :: test :: open_) s.module
  exitWaits : s.Pending K exit (K0 s0.builder.current)
  elseWaits : s.Pending K elseTo (K0 s0.builder.current)
  testWaits : ∃ D, s.Pending K test D ∧ ∀ d, K0 s0.builder.current d → D d
  new : ∀ v ∈ [exit, elseTo, test], s0.builder.body.nextBlock ≤ v
  distinct : exit ∉ [elseTo, test]
  last : test = elseTo ↔ further = false
  reaches : s.builder.body.Reaches test

/-- The test of a branch and the block behind it, which goes on at `exit`. -/
theorem SoundStep.chain {K0 : Ways} {s0 s1 s2 s3 : Lowering} {open0 : List BlockId}
    {cond : Value} {further : Bool} {a a' : Unit} (hstep : SoundStep t step)
    (h0 : s0.Live K0 open0) (hret : s0.builder.ret = t) (hon : s0.Onward K0 K s)
    (hs : s.Live K (thenTo :: exit :: elseTo :: test :: open_))
    (hthen : Target K0 s0 K s thenTo) (htest : Target K0 s0 K s test)
    (hexit : s.Pending K exit (K0 s0.builder.current))
    (helse : s.Pending K elseTo (K0 s0.builder.current))
    (hnew : ∀ v ∈ [exit, elseTo], s0.builder.body.nextBlock ≤ v)
    (hdistinct : exit ∉ [elseTo, test]) (hother : thenTo ∉ [exit, elseTo, test])
    (hlast : test = elseTo ↔ further = false) (hled : s.Led exit b)
    (hcond : s.Usable K s.builder.current cond .i1)
    (hbr : Yields (condBr cond thenTo test) s a s1) (hpos : Yields (position thenTo) s1 a' s2)
    (hy : Yields (LowerM.branchTo exit step) s2 r s3) :
    ∃ K', Chain K0 s0 open_ elseTo exit test further K' s3 ∧ s3.Led exit (b || r) := by
  obtain ⟨D1, hthen1, hsub1, hsub1'⟩ := hthen.waiting
  obtain ⟨D2, htest1, hsub2, hsub2'⟩ := htest.waiting
  have hne : ∀ v ∈ [exit, elseTo, test], v ≠ thenTo := fun v hv heq => hother (heq ▸ hv)
  have left1 := hs.leave hbr hcond.has (by simpa [Terminator.operands] using ⟨_, hcond⟩)
    (by simpa [Terminator.successors] using ⟨⟨_, hthen1, hsub1'⟩, ⟨_, htest1, hsub2'⟩⟩)
  have since1 := hon.toSince.left h0 left1
    (by simpa [Terminator.successors] using ⟨hthen.new, htest.new⟩)
  obtain ⟨live2, on2, turn2, cur2⟩ : s2.Live K (exit :: elseTo :: test :: open_) ∧ _ :=
    (hthen1.left left1).enter h0 since1 hsub1 hthen.new left1.sound (by simp)
      (left1.reaches _ (by simp [Terminator.successors])) (.inl hpos)
  have hkeep : ∀ v ∈ [exit, elseTo, test], ∀ D, s.Pending K v D → s2.Pending K v D :=
    fun v hv D hp => (hp.left left1).turn turn2 (cur2 ▸ hne v hv)
  have hled2 : s2.Led exit b := by
    refine (hled.grows left1.grows ?_ (hs.sound.fresh exit hexit.mem_ids)).grows turn2 (by simp)
      (left1.sound.fresh exit (hexit.left left1).mem_ids)
    simp only [List.mem_cons, List.not_mem_nil, or_false, not_or] at hdistinct
    simpa [Terminator.successors] using ⟨hne exit (by simp), hdistinct.2⟩
  obtain ⟨K3, sound3, grows3, moved3, scope3, hexit3, hled3⟩ := hstep.branchTo live2
    (on2.grows.ret.trans hret) (hkeep exit (by simp) _ hexit) on2.above hled2 hy
  have hkeep3 : ∀ v ∈ [elseTo, test], ∀ D, s2.Pending K v D → s3.Pending K3 v D := by
    intro v hv D hp
    have hlt := live2.sound.fresh v hp.mem_ids
    refine hp.grows grows3 (by simp) (by simpa using hp.notCurrent) (grows3.known v hlt ?_)
      (current_ne_of_moved moved3 hlt hp.notCurrent)
    rw [List.mem_singleton]
    exact fun heq => hdistinct (heq ▸ hv)
  refine ⟨K3, ⟨?_, sound3, hexit3, ?_, ⟨D2, ?_, hsub2⟩, ?_, hdistinct, hlast, ?_⟩, hled3⟩
  · exact on2.toSince.step h0 grows3 (by simp) (by simpa using on2.moved)
      (by simpa using hnew exit (by simp)) (on2.moved_trans moved3) scope3
  · exact hkeep3 elseTo (by simp) _ (hkeep elseTo (by simp) _ helse)
  · exact hkeep3 test (by simp) _ (hkeep test (by simp) _ htest1)
  · simpa using ⟨hnew exit (by simp), hnew elseTo (by simp), htest.new⟩
  · exact grows3.reaches (turn2.reaches (left1.reaches test (by simp [Terminator.successors])))

/-- The last block of a branch, which goes on at `exit`. -/
theorem SoundStep.ends_chain {K0 : Ways} {s0 s1 s2 : Lowering} {open0 : List BlockId} {a : Unit}
    (hstep : SoundStep t step) (h0 : s0.Live K0 open0) (hret : s0.builder.ret = t)
    (h : Chain K0 s0 open_ elseTo exit test false K s) (hled : s.Led exit b)
    (hpos : Yields (continueIn elseTo) s a s1) (hy : Yields (LowerM.branchTo exit step) s1 r s2) :
    ∃ K', s2.builder.Sound K' (exit :: open_) s2.module ∧ s0.Since K0 K' s2 ∧
      s2.Pending K' exit (K0 s0.builder.current) ∧ s2.Led exit (b || r) := by
  obtain rfl : test = elseTo := h.last.mpr rfl
  obtain ⟨live1, on1, turn1, cur1⟩ : s1.Live K (exit :: open_) ∧ _ :=
    h.elseWaits.enter h0 h.since (fun _ hd => hd) (h.new _ (by simp)) h.sound (by simp; tauto) h.reaches
      (.inr hpos)
  have hne : exit ≠ test := fun heq => h.distinct (by simp [heq])
  obtain ⟨K2, sound2, grows2, moved2, scope2, hexit2, hled2⟩ := hstep.branchTo live1
    (on1.grows.ret.trans hret) (h.exitWaits.turn turn1 (cur1 ▸ hne)) on1.above
    (hled.grows turn1 (by simp) (h.sound.fresh exit h.exitWaits.mem_ids)) hy
  exact ⟨K2, sound2, on1.toSince.step h0 grows2 (by simp) (by simpa using on1.moved)
    (by simpa using h.new exit (by simp)) (on1.moved_trans moved2) scope2, hexit2, hled2⟩

/-- The same, where the block `test` is made for a further condition, if there is one. -/
theorem SoundStep.chain_test {K0 : Ways} {s0 s1 s2 s3 s4 : Lowering} {open0 : List BlockId}
    {cond : Value} {rest : ElseChain} {a a' : Unit} (hstep : SoundStep t step)
    (h0 : s0.Live K0 open0) (hret : s0.builder.ret = t) (hon : s0.Onward K0 K s)
    (hs : s.Live K (thenTo :: exit :: elseTo :: open_)) (hthen : Target K0 s0 K s thenTo)
    (hexit : s.Pending K exit (K0 s0.builder.current))
    (helse : s.Pending K elseTo (K0 s0.builder.current))
    (hnew : ∀ v ∈ [exit, elseTo], s0.builder.body.nextBlock ≤ v)
    (hdistinct : exit ≠ elseTo) (hother : thenTo ∉ [exit, elseTo]) (hled : s.Led exit b)
    (hcond : s.Usable K s.builder.current cond .i1)
    (htest : Yields (testBlock elseTo rest) s test s1)
    (hbr : Yields (condBr cond thenTo test) s1 a s2) (hpos : Yields (position thenTo) s2 a' s3)
    (hy : Yields (LowerM.branchTo exit step) s3 r s4) :
    ∃ K', Chain K0 s0 open_ elseTo exit test rest.isElseIf K' s4 ∧ s4.Led exit (b || r) := by
  unfold testBlock at htest
  by_cases hfurther : rest.isElseIf = true
  · rw [if_pos hfurther] at htest
    obtain ⟨rfl, live1, on1, hpending, _, cur1⟩ := hs.appendBlock htest _ hs.mem_ids
    obtain ⟨D, hthen1, hsub, hsub'⟩ := hthen.waiting
    have hlt : ∀ v D, s.Pending K v D → v ≠ s.builder.body.nextBlock := fun v D hp =>
      Nat.ne_of_lt (hs.sound.fresh v hp.mem_ids)
    refine hstep.chain h0 hret (hon.trans on1 h0) (live1.mono (by simp; tauto))
      ⟨⟨D, hthen1.onward hs on1, hsub, fun d hd => on1.above d (hsub' d hd)⟩, hthen.new⟩
      ⟨⟨_, hpending, hon.above, on1.above⟩, hon.grows.next⟩ (hexit.onward hs on1)
      (helse.onward hs on1) hnew ?_ ?_ ?_
      (hled.grows on1.grows (by simp) (hs.sound.fresh exit hexit.mem_ids)) (hcond.onward on1) hbr
      hpos hy
    · simpa using ⟨hdistinct, hlt exit _ hexit⟩
    · simp only [List.mem_cons, List.not_mem_nil, or_false, not_or] at hother ⊢
      exact ⟨hother.1, hother.2, hlt thenTo _ hthen1⟩
    · exact iff_of_false (hlt elseTo _ helse).symm (by simp [hfurther])
  · rw [if_neg hfurther] at htest
    obtain ⟨rfl, rfl⟩ := yields_pure.mp htest
    exact hstep.chain h0 hret hon (hs.mono (by simp)) hthen
      ⟨⟨_, helse, fun _ hd => hd, hon.above⟩, hnew _ (by simp)⟩ hexit helse hnew
      (by simpa using hdistinct) (by simpa using hother) (by simpa using hfurther) hled hcond hbr
      hpos hy

theorem SoundStep.nothing : SoundStep t (pure .continues) := by
  intro K open_ s flow s' h _ hy
  obtain ⟨rfl, rfl⟩ := yields_pure.mp hy
  exact ⟨K, h, .refl K s'⟩

mutual

theorem SoundStep.lowerStmt : ∀ stmt, SoundStep ctx.result.toIr (lowerStmt ctx stmt)
  | .expr e => by
    intro K open_ s flow s' h _ hy
    simp only [SsaCompiler.lowerStmt, yields_bind, yields_pure] at hy
    obtain ⟨_, _, hexpr, rfl, rfl⟩ := hy
    obtain ⟨K', hlive, hon, _⟩ := h.emits_expr e hexpr
    exact ⟨K', hlive, hon⟩
  | .ret value => .lowerReturn
  | .branch condition thenBlock rest => by
    intro K open_ s flow s' h hret hy
    simp only [SsaCompiler.lowerStmt, yields_bind] at hy
    obtain ⟨cond, s1, hcond, thenTo, s2, hblock1, elseTo, s3, hblock2, exit, s4, hblock3, test, s5,
      htest, _, s6, hbr, _, s7, hpos, thenReaches, s8, hthen, restReaches, s9, helse, hy⟩ := hy
    obtain ⟨K1, live1, on1, hcond⟩ := h.emits_condition hcond
    have hret1 := on1.grows.ret.trans hret
    refine .of_onward on1 ?_ h
    obtain ⟨K2, made2⟩ := (Made.refl live1).append live1 hblock1
    obtain ⟨K3, made3⟩ := made2.append live1 hblock2
    obtain ⟨K4, made4⟩ := made3.append live1 hblock3
    obtain ⟨⟨hxe, hxt⟩, het⟩ : (exit ≠ elseTo ∧ exit ≠ thenTo) ∧ elseTo ≠ thenTo := by
      simpa using made4.distinct
    obtain ⟨K8, chain, hled⟩ := (SoundStep.lowerStmts thenBlock).inFrame.chain_test live1 hret1
      made4.onward (made4.live.mono (by simp; tauto))
      ⟨⟨_, made4.waiting thenTo (by simp), fun _ hd => hd, made4.onward.above⟩,
        made4.new thenTo (by simp)⟩
      (made4.waiting exit (by simp)) (made4.waiting elseTo (by simp))
      (by simpa using ⟨made4.new exit (by simp), made4.new elseTo (by simp)⟩) hxe
      (by simpa using ⟨hxt.symm, het.symm⟩) (show s4.Led exit false from made4.unused exit (by simp))
      (hcond.onward made4.onward) htest hbr hpos hthen
    obtain ⟨K9, sound9, since9, hexit9, hled9⟩ := ends_else live1 hret1 rest chain hled helse
    rw [Bool.false_or] at hled9
    by_cases hreaches : (thenReaches || restReaches) = true
    · rw [hreaches] at hled9
      simp only [hreaches, if_true, yields_bind, yields_pure] at hy
      obtain ⟨_, _, hpos, rfl, rfl⟩ := hy
      obtain ⟨live10, on10, _⟩ : s'.Live K9 open_ ∧ _ := hexit9.enter live1 since9 (fun _ hd => hd)
        (made4.new exit (by simp)) sound9 (by simp) hled9 (.inr hpos)
      exact ⟨K9, live10, on10⟩
    · rw [Bool.not_eq_true] at hreaches
      rw [hreaches] at hled9
      simp only [hreaches, Bool.false_eq_true, if_false, yields_bind, yields_pure] at hy
      obtain ⟨_, _, hedit, rfl, rfl⟩ := hy
      obtain rfl := of_yields_edit hedit
      obtain ⟨sound10, grows10⟩ := hexit9.drop sound9 hled9
      exact ⟨K9, sound10, since9.step live1 grows10 (by simpa using made4.new exit (by simp))
        (by simp) (by simp) since9.moved rfl⟩
  | .whileLoop condition body => (SoundStep.lowerStmts body).inFrame.lowerWhile
  | .forIn index element sequence body => by
    intro K open_ s flow s' h hret hy
    simp only [SsaCompiler.lowerStmt, yields_bind] at hy
    obtain ⟨v, s1, hexpr, hy⟩ := hy
    obtain ⟨K1, live1, on1, hv⟩ := h.emits_expr sequence hexpr
    refine .of_onward on1 ?_ h
    obtain ⟨value, ty⟩ := v
    cases ty with
    | sequence elem len =>
      by_cases hlen : len = 0
      · simp only [hlen, if_true] at hy
        obtain ⟨rfl, rfl⟩ := yields_pure.mp hy
        exact ⟨K1, live1, .refl K1 s'⟩
      · simp only [hlen, if_false] at hy
        exact (SoundStep.lowerStmts body).inFrame.ends_forIn live1 (on1.grows.ret.trans hret)
          hv.toUsable hv.proper hy
    | _ => exact absurd hy not_yields_throw

theorem SoundStep.lowerStmts : ∀ stmts, SoundStep ctx.result.toIr (lowerStmts ctx stmts)
  | [] => .nothing
  | stmt :: stmts => by
    intro K open_ s flow s' h hret hy
    simp only [SsaCompiler.lowerStmts, yields_bind] at hy
    obtain ⟨flow1, s1, hstmt, hy⟩ := hy
    have hends := SoundStep.lowerStmt stmt h hret hstmt
    cases flow1 with
    | terminated =>
      obtain ⟨rfl, rfl⟩ := yields_pure.mp hy
      exact hends
    | continues =>
      obtain ⟨K1, live1, on1⟩ := hends
      exact .of_onward on1 (SoundStep.lowerStmts stmts live1 (on1.grows.ret.trans hret) hy) h

theorem ends_else {K0 : Ways} {s0 : Lowering} {open0 : List BlockId} (h0 : s0.Live K0 open0)
    (hret : s0.builder.ret = ctx.result.toIr) {open_ : List BlockId} {elseTo exit test : BlockId}
    {K : Ways} {s s' : Lowering} {b r : Bool} :
    ∀ rest, Chain K0 s0 open_ elseTo exit test rest.isElseIf K s → s.Led exit b →
      Yields (lowerElse ctx elseTo exit test rest) s r s' →
      ∃ K', s'.builder.Sound K' (exit :: open_) s'.module ∧ s0.Since K0 K' s' ∧
        s'.Pending K' exit (K0 s0.builder.current) ∧ s'.Led exit (b || r)
  | .none, h, hled, hy => by
    simp only [lowerElse, yields_bind, yields_pure] at hy
    obtain ⟨_, s1, hpos, _, s2, hbr, rfl, rfl⟩ := hy
    exact SoundStep.nothing.ends_chain h0 hret h hled hpos (yields_bind.mpr ⟨.continues, s1,
      yields_pure.mpr ⟨rfl, rfl⟩, yields_bind.mpr ⟨(), s', hbr, yields_pure.mpr ⟨rfl, rfl⟩⟩⟩)
  | .otherwise block, h, hled, hy => by
    simp only [lowerElse, yields_bind] at hy
    obtain ⟨_, s1, hpos, hy⟩ := hy
    exact (SoundStep.lowerStmts block).inFrame.ends_chain h0 hret h hled hpos hy
  | .elseIf condition block rest, h, hled, hy => by
    simp only [lowerElse, yields_bind, yields_pure] at hy
    obtain ⟨_, s1, hpos, cond, s2, hcond, thenTo, s3, hblock, next, s4, htest, _, s5, hbr, _, s6,
      hinside, thenReaches, s7, hthen, restReaches, s8, helse, rfl, rfl⟩ := hy
    obtain ⟨D, hwaits, hsub⟩ := h.testWaits
    obtain ⟨hxe, hxt⟩ : exit ≠ elseTo ∧ exit ≠ test := by simpa using h.distinct
    have hte : test ≠ elseTo := fun heq => absurd (h.last.mp heq) (by simp [ElseChain.isElseIf])
    -- the condition, in the block that waits for it
    obtain ⟨live1, on1, turn1, cur1⟩ : s1.Live K (exit :: elseTo :: open_) ∧ _ :=
      hwaits.enter h0 h.since hsub (h.new test (by simp)) h.sound (by simp; tauto) h.reaches
        (.inr hpos)
    have hexit1 := h.exitWaits.turn turn1 (cur1 ▸ hxt)
    have helse1 := h.elseWaits.turn turn1 (cur1 ▸ hte.symm)
    have hled1 := hled.grows turn1 (by simp) (h.sound.fresh exit h.exitWaits.mem_ids)
    obtain ⟨K2, live2, on2, hcond⟩ := live1.emits_condition hcond
    have on02 := on1.trans on2 h0
    -- the block behind it
    obtain ⟨hnew, live3, on3, hpending, _⟩ := live2.appendBlock hblock _ live2.mem_ids
    have on13 := on2.trans on3 live1
    have hne : ∀ v D, s1.Pending K v D → thenTo ≠ v := fun v D hp =>
      hnew ▸ (Nat.ne_of_lt (live2.sound.fresh v (hp.onward live1 on2).mem_ids)).symm
    obtain ⟨K7, chain, hled7⟩ := (SoundStep.lowerStmts block).inFrame.chain_test h0 hret
      (on02.trans on3 h0) live3 ⟨⟨_, hpending, on02.above, on3.above⟩, hnew ▸ on02.grows.next⟩
      (hexit1.onward live1 on13) (helse1.onward live1 on13)
      (fun v hv => h.new v (by simp at hv ⊢; tauto)) hxe
      (by simpa using ⟨hne exit _ hexit1, hne elseTo _ helse1⟩)
      (hled1.grows on13.grows (by simp) (live1.sound.fresh exit hexit1.mem_ids))
      (hcond.onward on3) htest hbr hinside hthen
    rw [← Bool.or_assoc]
    exact ends_else h0 hret rest chain hled7 helse

end

end SsaCompiler.Lowering
