import SsaCompiler.Proofs.Lowering.Expressions

/-!
Loops emit sound code. A loop has a header with a phi that counts its iterations; the edge back to
the header is added when the end of the body is known.
-/
namespace SsaCompiler.Lowering

open Ir LowerM

/-- What lowering a statement leads to. Either code may be emitted behind it, or control does not go
on and the blocks of `open_` are all that is unfinished. -/
def Ends (open_ : List BlockId) (K : Ways) (s s' : Lowering) : Flow → Prop
  | .continues => ∃ K', s'.Live K' open_ ∧ s.Onward K K' s'
  | .terminated => ∃ K', s'.builder.Sound K' open_ s'.module ∧ s.Since K K' s'

/-- A step that may be taken wherever code may be emitted, in functions with a result of type `t`.
-/
def SoundStep (t : Ty) (step : LowerM Flow) : Prop :=
  ∀ ⦃K open_ s flow s'⦄, s.Live K open_ → s.builder.ret = t → Yields step s flow s' →
    Ends open_ K s s' flow

variable {K K' K'' : Ways} {open_ open_' : List BlockId} {s s' s'' : Lowering} {flow : Flow}
  {D : BlockId → Prop} {T E P : List BlockId} {header inner exit : BlockId}
  {counter next : Value} {step : LowerM Flow} {ctx : LowerContext} {a a' : Unit} {t : Ty}

theorem Ends.since (h : Ends open_ K s s' flow) :
    ∃ K', s.Since K K' s' := by
  cases flow with
  | continues =>
    obtain ⟨K', _, hon⟩ := h
    exact ⟨K', hon.toSince⟩
  | terminated =>
    obtain ⟨K', _, hsince⟩ := h
    exact ⟨K', hsince⟩

theorem Ends.of_onward (h : s.Onward K K' s') (h' : Ends open_ K' s' s'' flow)
    (hs : s.Live K open_') : Ends open_ K s s'' flow := by
  cases flow with
  | continues =>
    obtain ⟨K'', hlive, hon⟩ := h'
    exact ⟨K'', hlive, h.trans hon hs⟩
  | terminated =>
    obtain ⟨K'', hsound, hsince⟩ := h'
    exact ⟨K'', hsound, h.toSince.trans hsince hs⟩

/-- Names that are bound for a step are forgotten behind it. -/
theorem SoundStep.rescope (hstep : SoundStep t step) (h : s.Live K open_)
    (hret : s.builder.ret = t) {scope : Scope}
    (hy : Yields step { s with scope } flow s') (hpop : scope.pop = s.scope)
    (hscope : InScope K { s with scope } s.builder.current) :
    Ends open_ K s { s' with scope := s'.scope.pop } flow := by
  have hlive : Live K open_ { s with scope } := ⟨h.sound, h.isOpen, hscope⟩
  have hends := hstep hlive hret hy
  obtain ⟨_, hsince⟩ := hends.since
  have heq : s'.scope.pop = s.scope := by rw [hsince.scope, hpop]
  cases flow with
  | continues =>
    obtain ⟨K', hlive, hon⟩ := hends
    have hon' : s.Onward K K' { s' with scope := s'.scope.pop } :=
      ⟨⟨hon.grows, hon.moved, heq⟩, hon.above⟩
    exact ⟨K', h.onward hon' hlive.sound hlive.isOpen, hon'⟩
  | terminated =>
    obtain ⟨K', hsound, hsince⟩ := hends
    exact ⟨K', hsound, hsince.grows, hsince.moved, heq⟩

theorem SoundStep.inFrame (hstep : SoundStep t step) : SoundStep t (LowerM.inFrame step) := by
  intro K open_ s flow s' h hret hy
  obtain ⟨s1, hrun, rfl⟩ := yields_inFrame.mp hy
  refine hstep.rescope h hret hrun rfl fun frame hframe p hp => ?_
  rcases List.mem_cons.mp hframe with rfl | hframe
  · simp [Scope.push] at hp
  · exact (h.scope frame hframe p hp).rescope _

/-- The block `header` begins with a phi, its only one, to which an edge may be added. The ways to
it are known to lead through nothing but `D`. -/
structure Headed (K : Ways) (s : Lowering) (header : BlockId) (counter : Value)
    (D : BlockId → Prop) : Prop where
  heads : ∃ x r incoming rest, counter = .reg r ∧ x.id = header ∧
    s.builder.Heads x r .i64 incoming rest
  known : ∀ d, K header d → D d ∨ d = header

theorem Headed.lt_next (h : s.Headed K header counter D)
    (hs : s.builder.Sound K open_ s.module) : header < s.builder.body.nextBlock := by
  obtain ⟨x, _, _, _, _, rfl, hheads⟩ := h.heads
  exact hs.fresh x.id (Body.id_mem_ids hheads.mem)

theorem Headed.grows (h : s.Headed K header counter D) (hs : s.builder.Sound K open_ s.module)
    (hg : Grows T E P K s K' s') (hT : header ∉ T) (hP : header ∉ P) :
    s'.Headed K' header counter D := by
  obtain ⟨x, r, incoming, rest, hr, rfl, hheads⟩ := h.heads
  obtain ⟨x', hx', hext, _⟩ := hg.frame x hheads.mem (hheads.notEntry hs.toSteady) hT
  obtain ⟨more, hmore, hplain⟩ := hext.instrs
  refine ⟨⟨x', r, incoming, rest ++ more, hr, hext.id, hx', ?_, fun i hi => ?_⟩, fun d hd => ?_⟩
  · rw [hmore, hheads.instrs, List.cons_append]
  · exact (List.mem_append.mp hi).elim (hheads.plain i) (hplain i)
  · rw [hg.known _ (h.lt_next hs) hP] at hd
    exact h.known d hd

/-- The current block may end with the edge back to the header. -/
theorem Headed.close (h : s.Headed K header counter D) (hs : s.Live K open_)
    (hnext : s.Usable K s.builder.current next .i64) (hD : ∀ d, D d → K s.builder.current d)
    (hne : header ≠ s.builder.current)
    (hedit : Yields (edit (·.addIncoming counter next s.builder.current)) s a s')
    (hbr : Yields (br header) s' a' s'') :
    s''.builder.Sound K open_ s''.module ∧
      Grows [header] [s.builder.current] [header] K s K s'' ∧
      s''.builder.current = s.builder.current ∧ s''.scope = s.scope := by
  obtain ⟨x, r, incoming, rest, rfl, rfl, hheads⟩ := h.heads
  obtain rfl := of_yields_edit hedit
  obtain ⟨b', hterm, rfl⟩ := of_yields_emit hbr
  obtain ⟨y, hy, hcur, hopen⟩ := hs.isOpen
  rw [← hcur] at hterm hne hnext hD ⊢
  exact (hheads.close (hcur ▸ hs.sound) hy hcur hopen hnext.has hnext.known
    (fun d hd => (h.known d hd).symm.imp_right (hD d)) hne.symm hterm).imp_right
    fun hgrows => ⟨hgrows.1, hgrows.2.trans hcur.symm, rfl⟩

/-- A loop that was begun at the current block of `s` is being built. The header waits for an edge
back to it, and nothing leads to the blocks `inner` and `exit` as yet. -/
structure Looping (K : Ways) (s : Lowering) (header inner exit : BlockId) (counter : Value)
    (K' : Ways) (s' : Lowering) : Prop where
  headed : s'.Headed K' header counter (K s.builder.current)
  waiting : ∀ v ∈ [exit, inner], s'.Pending K' v (K s.builder.current)
  unused : ∀ v ∈ [exit, inner], ∀ u, ¬ s'.builder.body.Leads u v
  new : ∀ v ∈ [exit, inner, header], s.builder.body.nextBlock ≤ v
  distinct : [exit, inner, header].Nodup

theorem Looping.since {K0 : Ways} {s0 : Lowering}
    (h : Looping K0 s0 header inner exit counter K s) (hs : s.Live K open_)
    (hsince : s.Since K K' s') : Looping K0 s0 header inner exit counter K' s' where
  headed := h.headed.grows hs.sound hsince.grows (by simp) (by simp)
  waiting v hv := (h.waiting v hv).since hs hsince
  unused v hv u := by
    rw [(h.waiting v hv).leads_since hs hsince]
    exact h.unused v hv u
  new := h.new
  distinct := h.distinct

/-- A loop begins in its header, behind the phi. -/
theorem Live.begin_loop (h : s.Live K open_) {n1 n2 n3 : String} {s1 s2 s3 s4 s5 s6 : Lowering}
    (hblock1 : Yields (LowerM.appendBlock n1) s header s1)
    (hblock2 : Yields (LowerM.appendBlock n2) s1 inner s2)
    (hblock3 : Yields (LowerM.appendBlock n3) s2 exit s3)
    (hbr : Yields (br header) s3 a s4) (hpos : Yields (position header) s4 a' s5)
    (hphi : Yields (build (·.phi .i64 [(.int 0, s.builder.current)])) s5 counter s6) :
    ∃ K', s6.Live K' (exit :: inner :: open_) ∧ s.Onward K K' s6 ∧
      s6.Usable K' s6.builder.current counter .i64 ∧
      Looping K s header inner exit counter K' s6 := by
  obtain ⟨K1, made1⟩ := (Made.refl h).append h hblock1
  obtain ⟨K2, made2⟩ := made1.append h hblock2
  obtain ⟨K3, made3⟩ := made2.append h hblock3
  have ph := made3.waiting header (by simp)
  have left4 := made3.live.leave hbr trivial (by simp [Terminator.operands])
    (by simpa [Terminator.successors] using ⟨_, ph, made3.onward.above⟩)
  have since4 := made3.onward.toSince.left h left4
    (by simpa [Terminator.successors] using made3.new header (by simp))
  obtain ⟨live5, on5, turn5, cur5⟩ : s5.Live K3 (exit :: inner :: open_) ∧ _ :=
    (ph.left left4).enter h since4 (fun _ hd => hd) (made3.new _ (by simp)) left4.sound
      (by simp; tauto) (left4.reaches _ (by simp [Terminator.successors])) (.inl hpos)
  -- only the block before the loop leads to the header as yet
  have hedges : s5.builder.body.OneEdgeEach s5.builder.current [(.int 0, s.builder.current)] := by
    refine ⟨by simp, fun p => ?_⟩
    rw [cur5, (ph.left left4).leads_turn left4.sound turn5, left4.leads, made3.current]
    simp [made3.unused header (by simp), Terminator.successors]
  obtain ⟨hblank, hentry⟩ := (ph.left left4).blank_turn turn5 cur5
  obtain ⟨live6, grows6, hcounter, cur6, scope6, x, r, hr, hid, hheads⟩ :=
    live5.phi hblank hentry hedges (List.forall_mem_singleton.mpr (Usable.const K3 _ _ (.int 0)))
      hphi
  have hnew : s.builder.body.nextBlock ≤ s5.builder.current := cur5 ▸ made3.new _ (by simp)
  have hothers : ∀ v ∈ [exit, inner], s5.Pending K3 v (K s.builder.current) ∧
      (∀ u, ¬ s5.builder.body.Leads u v) ∧ v ≠ header := by
    intro v hv
    have hmem : v ∈ [exit, inner, header] := List.mem_append_left [header] hv
    have hne : v ≠ header := (List.nodup_append.mp made3.distinct).2.2 v hv header (by simp)
    have hpv := (made3.waiting v hmem).left left4
    refine ⟨hpv.turn turn5 (cur5 ▸ hne), fun u => ?_, hne⟩
    rw [hpv.leads_turn left4.sound turn5, left4.leads]
    simp [made3.unused v hmem, Terminator.successors, hne]
  refine ⟨K3, live6, on5.phi h grows6 hnew cur6 scope6, hcounter,
    ⟨⟨x, r, _, _, hr, hid.trans cur5, hheads⟩, fun d hd => (ph.known d).mp hd⟩, fun v hv => ?_,
    fun v hv u => ?_, made3.new, made3.distinct⟩
  · obtain ⟨hpv, _, hne⟩ := hothers v hv
    exact hpv.grows grows6 (by simpa [cur5] using hne) (by simp) rfl (by rwa [cur6, cur5])
  · obtain ⟨hpv, hunused, _⟩ := hothers v hv
    rw [grows6.leads_iff (by simp) (live5.sound.fresh v hpv.mem_ids)]
    exact hunused u

/-- The inside of a loop is being built: control can get to `exit`, and building goes on in another
block than the header. -/
structure Iterating (K : Ways) (s : Lowering) (header exit : BlockId) (counter : Value)
    (K' : Ways) (s' : Lowering) : Prop where
  headed : s'.Headed K' header counter (K s.builder.current)
  waiting : s'.Pending K' exit (K s.builder.current)
  reaches : s'.builder.body.Reaches exit
  away : header ≠ s'.builder.current
  new : ∀ v ∈ [exit, header], s.builder.body.nextBlock ≤ v
  distinct : exit ≠ header

theorem Iterating.since {K0 : Ways} {s0 : Lowering}
    (h : Iterating K0 s0 header exit counter K s) (hs : s.Live K open_)
    (hsince : s.Since K K' s') : Iterating K0 s0 header exit counter K' s' where
  headed := h.headed.grows hs.sound hsince.grows (by simp) (by simp)
  waiting := h.waiting.since hs hsince
  reaches := hsince.grows.reaches h.reaches
  away := hsince.current_ne (h.headed.lt_next hs.sound) h.away
  new := h.new
  distinct := h.distinct

/-- The test of a loop leads to `inner` or to `exit`. What is known at the test is known in `inner`.
-/
theorem Looping.branch {K0 : Ways} {s0 : Lowering} {open0 : List BlockId} {cond : Value}
    (h : Looping K0 s0 header inner exit counter K s) (h0 : s0.Live K0 open0)
    (hon : s0.Onward K0 K s) (hs : s.Live K (exit :: inner :: open_))
    (hcond : s.Usable K s.builder.current cond .i1)
    (hbr : Yields (condBr cond inner exit) s a s')
    (hpos : Yields (position inner) s' a' s'' ∨ Yields (continueIn inner) s' a' s'') :
    ∃ K', s''.Live K' (exit :: open_) ∧ s0.Onward K0 K' s'' ∧
      Grows [] [s.builder.current] [inner, exit] K s K' s'' ∧
      (∀ d, K s.builder.current d → K' s''.builder.current d) ∧
      s''.builder.current = inner ∧ Iterating K0 s0 header exit counter K' s'' := by
  obtain ⟨⟨hei, heh⟩, hih⟩ : (exit ≠ inner ∧ exit ≠ header) ∧ inner ≠ header := by
    simpa using h.distinct
  have hinner := h.waiting inner (by simp)
  have hexit := h.waiting exit (by simp)
  obtain ⟨live1, grows1, hinner1⟩ := hinner.rekey hs (h.unused inner (by simp)) hon.above
  have hK : ∀ d, K s.builder.current d →
      K.below s.builder.current inner s.builder.current d := by
    rw [Ways.below_of_ne hinner.notCurrent.symm]
    exact fun _ hd => hd
  have hexit1 : s.Pending (K.below s.builder.current inner) exit (K0 s0.builder.current) :=
    hexit.grows grows1 (by simp) (by simp) (Ways.below_of_ne hei) hexit.notCurrent
  have hcond1 := hcond.grows grows1 hK
  have left2 := live1.leave hbr hcond1.has (by simpa [Terminator.operands] using ⟨_, hcond1⟩)
    (by simpa [Terminator.successors] using
      ⟨⟨_, hinner1, hK⟩, ⟨_, hexit1, fun d hd => hK d (hon.above d hd)⟩⟩)
  have hnew : ∀ v ∈ [inner, exit], s0.builder.body.nextBlock ≤ v := by
    simpa using ⟨h.new inner (by simp), h.new exit (by simp)⟩
  have since1 : s0.Since K0 _ s := hon.toSince.step h0 grows1 (by simp) (by simp)
    (by simpa using hnew inner (by simp)) hon.moved rfl
  have since2 := since1.left h0 left2 hnew
  obtain ⟨live3, on3, turn3, cur3⟩ : s''.Live _ (exit :: open_) ∧ _ :=
    (hinner1.left left2).enter h0 since2 hon.above (hnew _ (by simp)) left2.sound (by simp; tauto)
      (left2.reaches _ (by simp [Terminator.successors])) hpos
  have grows2 : Grows [] [s.builder.current] [inner, exit] K s _ s' :=
    (grows1.weaken (by simp) (by simp) (by simp)).trans left2.grows hs.sound.fresh
      (by simp) (by simp) (by simp [Terminator.successors])
  have grows3 := grows2.trans turn3 hs.sound.fresh (by simp) (by simp) (by simp)
  refine ⟨_, live3, on3, grows3, fun d hd => ?_, cur3, ?_⟩
  · rw [cur3]
    exact Ways.below_self.mpr (.inl hd)
  · exact ⟨h.headed.grows hs.sound grows3 (by simp) (by simp [hih.symm, heh.symm]),
      (hexit1.left left2).turn turn3 (cur3 ▸ hei),
      turn3.reaches (left2.reaches _ (by simp [Terminator.successors])), cur3 ▸ hih.symm,
      by simpa using ⟨h.new exit (by simp), h.new header (by simp)⟩, heh⟩

/-- Behind a loop code may be emitted, once its body has come to an end. -/
theorem Iterating.ends {K0 : Ways} {s0 : Lowering} (h : Iterating K0 s0 header exit counter K s)
    (h0 : s0.Live K0 open_) (hsince : s0.Since K0 K s)
    (hs : s.builder.Sound K (exit :: open_) s.module) (hy : Yields (continueIn exit) s a s') :
    Ends open_ K0 s0 s' .continues := by
  obtain ⟨hlive, hon, _⟩ : s'.Live K open_ ∧ _ := h.waiting.enter h0 hsince (fun _ hd => hd)
    (h.new exit (by simp)) hs (by simp) h.reaches (.inr hy)
  exact ⟨K, hlive, hon⟩

/-- The same, where the end of the body leads back to the header. -/
theorem Iterating.ends_back {K0 : Ways} {s0 s3 : Lowering} {a'' : Unit}
    (h : Iterating K0 s0 header exit counter K s)
    (h0 : s0.Live K0 open_) (hon : s0.Onward K0 K s) (hs : s.Live K (exit :: open_))
    (hnext : s.Usable K s.builder.current next .i64)
    (hedit : Yields (edit (·.addIncoming counter next s.builder.current)) s a s')
    (hbr : Yields (br header) s' a' s'') (hy : Yields (continueIn exit) s'' a'' s3) :
    Ends open_ K0 s0 s3 .continues := by
  obtain ⟨hsound, hgrows, hcur, hscope⟩ := h.headed.close hs hnext hon.above h.away hedit hbr
  have hnew := h.new header (by simp)
  have hsince : s0.Since K0 K s'' := hon.toSince.step h0 hgrows (by simpa using hnew)
    (by simpa using hon.moved) (by simpa using hnew) (hcur ▸ hon.moved) hscope
  have hexit : s''.Pending K exit (K0 s0.builder.current) :=
    h.waiting.grows hgrows (by simpa using h.distinct) (by simpa using h.waiting.notCurrent) rfl
      (hcur ▸ h.waiting.notCurrent)
  obtain ⟨hlive, hon, _⟩ : s3.Live K open_ ∧ _ := hexit.enter h0 hsince (fun _ hd => hd)
    (h.new exit (by simp)) hsound (by simp) (hgrows.reaches h.reaches) (.inr hy)
  exact ⟨K, hlive, hon⟩

/-- The count of the next iteration. -/
theorem Live.nextCount (h : s.Live K open_) (hcounter : s.Usable K s.builder.current counter .i64)
    (hy : Yields (build (·.binary .add counter (.int 1))) s next s') :
    s'.Live K open_ ∧ s.Onward K K s' ∧ s'.builder.current = s.builder.current ∧
      s'.Usable K s'.builder.current next .i64 :=
  h.pushValue hy (by decide) ⟨hcounter.has, .const _, rfl⟩ rfl
    (by simpa [Op.operands] using ⟨⟨_, hcounter⟩, ⟨_, Usable.const K _ _ _⟩⟩)

/-- A loop that tests its condition before every iteration. -/
theorem SoundStep.lowerWhile {condition : Expr} (hbody : SoundStep t step) :
    SoundStep t (lowerWhile ctx condition step) := by
  intro K open_ s flow s' h hret hy
  simp only [SsaCompiler.lowerWhile, yields_bind, yields_currentBlock, yields_pure, and_assoc,
    exists_and_left, exists_eq_left] at hy
  obtain ⟨-, header, s1, hblock1, inside, s2, hblock2, exit, s3, hblock3, _, s4, hbr, _, s5, hpos,
    counter, s6, hphi, cond, s7, hcond, _, s8, htest, _, s9, hinside, flow, s10, hrun, _, s11, hclose,
    _, s12, hexit, rfl, rfl⟩ := hy
  obtain ⟨K6, live6, on6, hcounter, loop⟩ := h.begin_loop hblock1 hblock2 hblock3 hbr hpos hphi
  obtain ⟨K7, live7, on7, hcond⟩ := live6.emits_condition hcond
  obtain ⟨K9, live9, on9, grows9, hknown9, _, iter⟩ := (loop.since live6 on7.toSince).branch h
    (on6.trans on7 h) live7 hcond htest (.inl hinside)
  have hcounter := (hcounter.onward on7).grows grows9 hknown9
  have hends := hbody live9 (on9.grows.ret.trans hret) hrun
  cases flow with
  | terminated =>
    obtain ⟨_, rfl⟩ := yields_pure.mp hclose
    obtain ⟨K10, sound10, since10⟩ := hends
    exact (iter.since live9 since10).ends h (on9.toSince.trans since10 h) sound10 hexit
  | continues =>
    obtain ⟨K10, live10, on10⟩ := hends
    simp only [closeLoop, yields_bind, yields_currentBlock, and_assoc, exists_and_left,
      exists_eq_left] at hclose
    obtain ⟨-, next, s', hnext, _, s'', hedit, hback⟩ := hclose
    obtain ⟨live', on', cur', hnext⟩ := live10.nextCount (hcounter.onward on10) hnext
    have on9' := on10.trans on' live9
    rw [← cur'] at hedit
    exact (iter.since live9 on9'.toSince).ends_back h (on9.trans on9' h) live' hnext hedit hback hexit

/-- The body of a loop over a sequence may use the counter and the element. -/
theorem SoundStep.ends_bound (hbody : SoundStep t step) (h : s.Live K open_)
    (hret : s.builder.ret = t) {index : Option String} {element : String} {tv : TypedValue}
    (hcounter : s.Usable K s.builder.current counter .i64)
    (htv : s.Holds K s.builder.current tv)
    (hy : Yields (LowerM.inFrame do
      bindIndex counter index
      LowerM.bind element tv
      step) s flow s') : Ends open_ K s s' flow := by
  obtain ⟨s1, hrun, rfl⟩ := yields_inFrame.mp hy
  have hindex : s.Holds K s.builder.current ⟨counter, .int⟩ := ⟨hcounter, trivial⟩
  cases index with
  | none =>
    simp only [bindIndex, LowerM.bind, yields_bind, yields_pure, yields_editScope] at hrun
    obtain ⟨_, _, ⟨_, rfl⟩, _, _, rfl, hrun⟩ := hrun
    refine hbody.rescope h hret hrun rfl fun frame hframe p hp => ?_
    rcases List.mem_cons.mp hframe with rfl | hframe
    · obtain rfl : p = (element, tv) := by simpa [Scope.push, Scope.bind] using hp
      exact htv.rescope _
    · exact (h.scope frame hframe p hp).rescope _
  | some name =>
    simp only [bindIndex, LowerM.bind, yields_bind, yields_editScope] at hrun
    obtain ⟨_, _, rfl, _, _, rfl, hrun⟩ := hrun
    refine hbody.rescope h hret hrun rfl fun frame hframe p hp => ?_
    rcases List.mem_cons.mp hframe with rfl | hframe
    · obtain rfl | rfl : p = (element, tv) ∨ p = (name, ⟨counter, .int⟩) := by
        simpa [Scope.push, Scope.bind] using hp
      · exact htv.rescope _
      · exact hindex.rescope _
    · exact (h.scope frame hframe p hp).rescope _

/-- A loop whose body is never left at its end has no second iteration. -/
theorem Looping.ends_dropped {K0 : Ways} {s0 : Lowering}
    (h : Looping K0 s0 header inner exit counter K s) (h0 : s0.Live K0 open_)
    (hsince : s0.Since K0 K s) (hs : s.builder.Sound K (exit :: inner :: open_) s.module)
    (hy : Yields (edit fun b => (b.removeBlock inner).removeBlock exit) s a s') :
    Ends open_ K0 s0 s' .terminated := by
  obtain rfl := of_yields_edit hy
  obtain ⟨⟨hne, _⟩, _⟩ : (exit ≠ inner ∧ exit ≠ header) ∧ inner ≠ header := by
    simpa using h.distinct
  have hinner := h.waiting inner (by simp)
  have hexit := h.waiting exit (by simp)
  obtain ⟨sound1, grows1⟩ : (s.builder.removeBlock inner).Sound K (exit :: open_) s.module ∧ _ :=
    hinner.drop (hs.mono (by simp; tauto)) (h.unused inner (by simp))
  have hexit1 := hexit.grows grows1 (by simpa using hne) (by simp) rfl hexit.notCurrent
  obtain ⟨sound2, grows2⟩ := hexit1.drop sound1 fun u => by
    rw [grows1.leads_iff (by simp) (hs.fresh exit hexit.mem_ids)]
    exact h.unused exit (by simp) u
  have since1 := hsince.step h0 grows1 (by simpa using h.new inner (by simp)) (by simp) (by simp)
    hsince.moved rfl
  exact ⟨K, sound2, since1.step h0 grows2 (by simpa using h.new exit (by simp)) (by simp) (by simp)
    hsince.moved rfl⟩

/-- A loop over a sequence of at least one element. -/
theorem SoundStep.ends_forIn (hbody : SoundStep t step) (h : s.Live K open_)
    (hret : s.builder.ret = t) {index : Option String} {element : String} {sequence : Value}
    {elem : DataType} {len : Nat}
    (hseq : s.Usable K s.builder.current sequence (.ptr (.array elem.toIr len)))
    (helem : elem.isScalar = true)
    (hy : Yields (lowerForIn index element sequence elem len step) s flow s') :
    Ends open_ K s s' flow := by
  simp only [lowerForIn, yields_bind, yields_currentBlock, and_assoc, exists_and_left,
    exists_eq_left] at hy
  obtain ⟨slot, s1, hslot, ptr, s2, hptr, first, s3, hfirst, _, s4, hstore, -, header, s5, hblock1,
    again, s6, hblock2, exit, s7, hblock3, _, s8, hbr, _, s9, hpos, counter, s10, hphi, current, s11,
    hcurrent, flow', s12, hrun, hy⟩ := hy
  have hty : elem.toIr ≠ .void := DataType.toIr_ne_void (DataType.ne_void_of_isScalar helem)
  -- the slot with the first element
  obtain ⟨live1, on1, hslot⟩ := h.alloca hslot
  obtain ⟨live2, on2, _, hptr⟩ := live1.elementPtr hptr (hseq.onward on1) (Usable.const K _ _ _)
  obtain ⟨live3, on3, _, hfirst⟩ := live2.load hfirst hty hptr
  have on13 := on2.trans on3 live1
  obtain ⟨live4, on4, _⟩ := live3.store hstore hfirst (hslot.onward on13)
  have on04 := (on1.trans on13 h).trans on4 h
  refine .of_onward on04 ?_ h
  have hseq := hseq.onward on04
  have hslot := hslot.onward (on13.trans on4 live1)
  -- the header, where the slot is read
  obtain ⟨K10, live10, on10, hcounter, loop⟩ :=
    live4.begin_loop hblock1 hblock2 hblock3 hbr hpos hphi
  obtain ⟨live11, on11, _, hcurrent⟩ := live10.load hcurrent hty (hslot.onward on10)
  have hcounter := hcounter.onward on11
  have on411 := on10.trans on11 live4
  have loop11 := loop.since live10 on11.toSince
  have hret11 := ((on04.trans on411 h).grows.ret).trans hret
  have hends := hbody.ends_bound live11 hret11 hcounter
    ⟨hcurrent, DataType.proper_of_isScalar helem⟩ hrun
  cases flow' with
  | terminated =>
    obtain ⟨K12, sound12, since12⟩ := hends
    simp only [yields_bind, yields_pure] at hy
    obtain ⟨_, _, hdrop, rfl, rfl⟩ := hy
    exact (loop11.since live11 since12).ends_dropped live4 (on411.toSince.trans since12 live4)
      sound12 hdrop
  | continues =>
    obtain ⟨K12, live12, on12⟩ := hends
    simp only [yields_bind, yields_pure] at hy
    obtain ⟨next, s13, hnext, more, s14, hmore, _, s15, htest, _, s16, hstep, ptr', s17, hptr', value,
      s18, hvalue, _, s19, hstore', _, s20, hedit, _, s21, hback, _, s22, hexit, rfl, rfl⟩ := hy
    -- the test behind the body
    obtain ⟨live13, on13, _, hnext⟩ := live12.nextCount (hcounter.onward on12) hnext
    obtain ⟨live14, on14, _, hmore⟩ := live13.pushValue hmore (by decide)
      ⟨rfl, .i64, hnext.has, .const _, .inl rfl, fun _ => rfl⟩ rfl
      (by simpa [Op.operands] using ⟨⟨_, hnext⟩, ⟨_, Usable.const K12 _ _ _⟩⟩)
    have on114 := (on12.trans on13 live11).trans on14 live11
    obtain ⟨K16, live16, on16, grows16, hknown16, cur16, iter⟩ :=
      (loop11.since live11 on114.toSince).branch live4 (on411.trans on114 live4) live14 hmore htest
        (.inr hstep)
    -- the next element, and the way back
    have hnext := (hnext.onward on14).grows grows16 hknown16
    obtain ⟨live17, on17, cur17, hptr'⟩ := live16.elementPtr hptr' (hseq.onward on16) hnext
    obtain ⟨live18, on18, cur18, hvalue⟩ := live17.load hvalue hty hptr'
    have on168 := on17.trans on18 live16
    obtain ⟨live19, on19, cur19⟩ := live18.store hstore' hvalue
      ((hslot.onward on16).onward on168)
    have on169 := on168.trans on19 live16
    rw [← cur16, ← cur17, ← cur18, ← cur19] at hedit
    exact (iter.since live16 on169.toSince).ends_back live4 (on16.trans on169 live4) live19
      (hnext.onward on169) hedit hback hexit

end SsaCompiler.Lowering
