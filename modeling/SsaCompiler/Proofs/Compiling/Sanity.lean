import SsaCompiler.Proofs.Compiling.Definitions
import SsaCompiler.Proofs.Compiling.Steps
import SsaCompiler.Proofs.Lowering.Flows
import SsaCompiler.Proofs.Optimizer.Passes

/-!
Compilations in which no step has failed. What is in the module was finished without a flaw, and
stays well formed while the module changes around it; the function of the statements outside of
functions can be continued or has ended. When such a compilation is finished, nothing is found to be
wrong.
-/
namespace SsaCompiler

open Ir LowerM

namespace Ir.Builder

variable {K : Ways} {b b' : Builder} {m m' : Module} {x : Block}

theorem Sound.isSome_term (h : b.Sound K [] m) (hx : x ∈ b.body.blocks) : x.term.isSome = true := by
  rw [Option.isSome_iff_ne_none]
  intro hterm
  exact List.not_mem_nil (h.unfinished x hx hterm)

/-- A finished body is orderly. -/
theorem Sound.orderly (h : b.Sound K [] m) : b.body.Orderly where
  ids := h.ids
  reached x hx := h.reached x hx (.inl (h.isSome_term hx))
  types x hx i hi r hr := by
    refine ⟨(h.blocks x hx).results i hi r hr, fun hcompare => ?_⟩
    have hfits := (h.blocks x hx).fits i hi
    generalize i.op = op at hfits hcompare
    cases op with
    | icmp pred l r => exact hfits.1
    | fcmp pred l r => exact hfits.1
    | _ => simp [Op.isCompare] at hcompare

/-- The optimizer keeps the types of values. -/
theorem Sound.typeOf_optimize (h : b.Sound K [] m) (passes : List Optimize.Pass) :
    (b.finish.optimize passes).typeOf = b.finish.typeOf := by
  have hderived := Function.optimize_derived (f := b.finish) rfl h.verify h.orderly passes
  have hbody : (b.finish.optimize passes).body =
    some (Optimize.optimizeBody passes Optimize.maxRounds b.body) := rfl
  funext v
  cases v with
  | reg r =>
    rw [Function.typeOf, Function.typeOf, hbody]
    simp [Builder.finish, hderived.rewrites.regTypes]
  | _ => rfl

/-- What the optimizer makes of a finished body is well formed. -/
theorem Sound.optimized (h : b.Sound K [] m) (passes : List Optimize.Pass) {body : Body}
    (hbody : (b.finish.optimize passes).body = some body) :
    body.ids.Nodup ∧ body.Valid (b.finish.optimize passes) m := by
  have hderived := Function.optimize_derived (f := b.finish) rfl h.verify h.orderly passes
  obtain rfl : Optimize.optimizeBody passes Optimize.maxRounds b.body = body := Option.some.inj hbody
  exact ⟨hderived.regular.ids, hderived.regular.valid.congr rfl rfl (h.typeOf_optimize passes)⟩

theorem Sound.isTerminated (h : b.Sound K [] m) (hcur : b.current ∈ b.body.ids) :
    b.isTerminated = true := by
  obtain ⟨x, hx, hid⟩ := List.mem_map.mp hcur
  unfold Builder.isTerminated
  rw [(Body.block?_eq_some h.ids).mpr ⟨hx, hid⟩]
  exact h.isSome_term hx

/-- Ending a function again changes nothing. -/
theorem Sound.terminate (h : b.Sound K [] m) (hcur : b.current ∈ b.body.ids) (t : Terminator) :
    b.terminate t = .ok b := by
  have hsame : b.body.updateBlock b.current (fun x => { x with term := x.term.or (some t) }) =
      b.body := by
    refine congrArg (fun blocks => { b.body with blocks }) ?_
    refine (Body.blocks_updateBlock h.ids _ _).trans ?_
    refine (List.map_congr_left fun x hx => ?_).trans (List.map_id _)
    have hterm : x.term.or (some t) = x.term := Option.or_of_isSome (h.isSome_term hx)
    rw [hterm]
    exact ite_self x
  unfold Builder.terminate updateCurrent
  rw [if_pos (Body.block?_isSome.mpr hcur), hsame]

end Ir.Builder

namespace Lowering

variable {K : Ways} {open_ : List BlockId} {s : Lowering}

theorem Live.ready (h : s.Live K open_) : s.Ready where
  current := h.mem_ids
  fresh := h.sound.fresh

theorem Live.isTerminated (h : s.Live K open_) : s.builder.isTerminated = false := by
  obtain ⟨x, hx, hid, hterm⟩ := h.isOpen
  unfold Builder.isTerminated
  rw [(Body.block?_eq_some h.sound.ids).mpr ⟨hx, hid⟩]
  simp [hterm]

end Lowering

namespace Compilation

/-- A property of functions under construction that lowering keeps, with the division guard as
given. -/
structure Upheld (guard : Bool) (I : Builder → Prop) : Prop where
  start : ∀ f, I (.start f)
  stmt : ∀ {ctx : LowerContext} {stmt : Stmt} {K : Ways} {s s' : Lowering} {flow : Flow},
    ctx.guardDivision = guard → s.Live K [] → s.builder.ret = ctx.result.toIr → I s.builder →
    Yields (lowerStmt ctx stmt) s flow s' → I s'.builder
  body : ∀ {ctx : LowerContext} {stmts : List Stmt} {K : Ways} {s s' : Lowering},
    ctx.guardDivision = guard → s.Live K [] → s.builder.ret = ctx.result.toIr → I s.builder →
    Yields (lowerBody ctx stmts) s () s' → I s'.builder
  ret : ∀ {b b' : Builder}, I b → b.terminate (.ret none) = .ok b' → I b'

theorem upheld_true (guard : Bool) : Upheld guard fun _ => True :=
  ⟨fun _ => trivial, fun _ _ _ _ _ => trivial, fun _ _ _ _ _ => trivial, fun _ _ => trivial⟩

theorem Upheld.and {guard : Bool} {I J : Builder → Prop} (hI : Upheld guard I) (hJ : Upheld guard J) :
    Upheld guard fun b => I b ∧ J b where
  start f := ⟨hI.start f, hJ.start f⟩
  stmt hguard hlive hret h hy := ⟨hI.stmt hguard hlive hret h.1 hy, hJ.stmt hguard hlive hret h.2 hy⟩
  body hguard hlive hret h hy := ⟨hI.body hguard hlive hret h.1 hy, hJ.body hguard hlive hret h.2 hy⟩
  ret h hterm := ⟨hI.ret h.1 hterm, hJ.ret h.2 hterm⟩

/-- Control enters a function in the block of number zero. -/
theorem upheld_entry (guard : Bool) : Upheld guard fun b => b.body.entry = 0 where
  start _ := rfl
  stmt _ hlive hret h hy := by
    obtain ⟨_, hsince⟩ := (Lowering.SoundStep.lowerStmt _ hlive hret hy).since
    exact hsince.grows.entry.trans h
  body _ hlive hret h hy := by
    obtain ⟨flow, s1, hstmts, _⟩ := yields_bind.mp hy
    obtain ⟨_, s2, hy', hsince, _⟩ := hlive.lowerBody hret hstmts
    obtain rfl := congrArg Prod.snd (hy.symm.trans hy')
    exact hsince.grows.entry.trans h
  ret h hterm := by
    unfold Builder.terminate Builder.updateCurrent at hterm
    split at hterm
    · cases hterm
      refine (Body.entry_of_ids ?_).trans h
      exact Body.ids_updateBlock fun _ => rfl
    · cases hterm

/-- A function outside of which nothing was left to do: code may be emitted, or it has ended. -/
def Underway (m : Module) (b : Builder) : Prop :=
  (∃ K, Lowering.Live K [] ⟨m, some b, .empty⟩) ∨ (∃ K, b.Sound K [] m) ∧ b.current ∈ b.body.ids

/-- A function that was put into the module once it was finished. -/
def Made (I : Builder → Prop) (c : Compilation) (f : Function) : Prop :=
  ∃ K b m, b.Sound K [] m ∧ I b ∧ m.Serves c.module ∧ f = c.stored b.finish

/-- The builder of the statements outside of functions. -/
structure Outside (I : Builder → Prop) (m : Module) (b : Builder) : Prop where
  underway : Underway m b
  upheld : I b
  name : b.name = toplevelName
  params : b.params = []
  ret : b.ret = .void
  declared : m.calleeSignature? toplevelName = some ([], .void)

/-- No step has failed so far. -/
structure Sane (I : Builder → Prop) (c : Compilation) : Prop where
  honest : c.module.Honest
  stored : ∀ f ∈ c.module.functions, f.body ≠ none → c.Made I f
  toplevel : ∀ b, c.toplevel = some b → Outside I c.module b

variable {I : Builder → Prop} {c c' c1 : Compilation} {f : Function} {m m' : Module} {b : Builder}
  {fd : FunctionDecl} {decl : Function} {sig : Signature} {proto : Prototype}

theorem Underway.serves (h : Underway m b) (hm : m.Serves m') (honest : m'.Honest) :
    Underway m' b := by
  rcases h with ⟨K, hlive⟩ | ⟨⟨K, hsound⟩, hcur⟩
  · refine .inl ⟨K, hlive.sound.serves hm honest, hlive.isOpen, ?_⟩
    intro frame hframe p hp
    simp only [Scope.empty, List.mem_singleton] at hframe
    rw [hframe] at hp
    exact absurd hp List.not_mem_nil
  · exact .inr ⟨⟨K, hsound.serves hm honest⟩, hcur⟩

/-- It can be ended, and is well formed then. -/
theorem Underway.terminate (h : Underway m b) (hret : b.ret = .void) :
    ∃ K b', b.terminate (.ret none) = .ok b' ∧ b'.Sound K [] m ∧ b'.name = b.name ∧
      b'.params = b.params ∧ b'.ret = b.ret := by
  rcases h with ⟨K, hlive⟩ | ⟨⟨K, hsound⟩, hcur⟩
  · obtain ⟨s', hy⟩ := hlive.exists_leave (.ret none)
    have left := hlive.leave hy hret (by simp [Terminator.operands])
      (by simp [Terminator.successors])
    obtain ⟨b', hb', rfl⟩ := of_yields_emit hy
    exact ⟨K, b', hb', left.sound, left.grows.name, left.grows.params, left.grows.ret⟩
  · exact ⟨K, b, hsound.terminate hcur _, hsound, rfl, rfl, rfl⟩

theorem Made.mono (h : c.Made I f) (hm : c.module.Serves c'.module)
    (hset : c'.settings = c.settings) : c'.Made I f := by
  obtain ⟨K, b, m, hsound, hI, hserves, rfl⟩ := h
  refine ⟨K, b, m, hsound, hI, hserves.trans hm, ?_⟩
  unfold Compilation.stored
  rw [hset]

theorem Outside.serves (h : Outside I m b) (hm : m.Serves m') (honest : m'.Honest) :
    Outside I m' b :=
  ⟨h.underway.serves hm honest, h.upheld, h.name, h.params, h.ret, hm.callees _ _ h.declared⟩

/-- What the optimizer is given is well formed, and so is what it makes of it. -/
theorem valid_stored {K : Ways} {body : Body} (h : b.Sound K [] m)
    (hbody : (c.stored b.finish).body = some body) :
    body.ids.Nodup ∧ body.Valid (c.stored b.finish) m := by
  unfold Compilation.stored at hbody ⊢
  by_cases hopt : c.settings.optimize = true
  · rw [if_pos hopt] at hbody ⊢
    exact h.optimized _ hbody
  · rw [if_neg hopt] at hbody ⊢
    obtain rfl : b.body = body := Option.some.inj hbody
    exact ⟨h.ids, (Function.verify_eq_ok_iff rfl h.ids).mp h.verify⟩

/-- The bodies of the module are well formed. -/
theorem Sane.checked (h : c.Sane I) : c.module.Checked := by
  intro f hf b hb
  obtain ⟨K, b0, m, hsound, _, hserves, rfl⟩ := h.stored f hf (by simp [hb])
  obtain ⟨hids, hvalid⟩ := valid_stored hsound hb
  exact ⟨hids, hvalid.serves hserves⟩

/-- Changes that leave the functions of the module and the statements outside of functions as they
are. -/
theorem Sane.grows (h : c.Sane I) (hm : c.module.Grows m) : Sane I { c with module := m } where
  honest := h.honest.grows hm
  stored f hf hbody := (h.stored f (hm.functions ▸ hf) hbody).mono hm.serves rfl
  toplevel b hb := (h.toplevel b hb).serves hm.serves (h.honest.grows hm)

theorem Sane.addFunction (h : c.Sane I) (hf : f.Fits) (hbody : f.body = none) :
    Sane I { c with module := c.module.addFunction f } where
  honest := h.honest.addFunction hf
  stored g hg hsome := by
    rcases List.mem_append.mp hg with hg | hg
    · exact (h.stored g hg hsome).mono (Module.serves_addFunction _ hf) rfl
    · rw [List.mem_singleton.mp hg] at hsome
      exact absurd hbody hsome
  toplevel b hb :=
    (h.toplevel b hb).serves (Module.serves_addFunction _ hf) (h.honest.addFunction hf)

theorem stored_name (c : Compilation) (g : Function) : (c.stored g).name = g.name := by
  unfold Compilation.stored
  split <;> rfl

/-- A finished function is put into the module. -/
theorem Sane.store (h : c.Sane I) {K : Ways} (hsound : b.Sound K [] c.module) (hI : I b)
    (hfits : b.finish.Fits)
    (hsig : c.module.calleeSignature? b.name = some (b.params.map (·.ty), b.ret)) :
    Sane I { c with module := c.module.define (c.stored b.finish) } := by
  have hfits' : (c.stored b.finish).Fits := by
    unfold Compilation.stored
    split
    · exact hfits.optimize _
    · exact hfits
  have hserves : c.module.Serves (c.module.define (c.stored b.finish)) := by
    refine Module.serves_define ?_
    unfold Compilation.stored
    split <;> exact hsig
  have honest := h.honest.define hfits'
  refine ⟨honest, fun f hf hbody => ?_, fun b hb => (h.toplevel b hb).serves hserves honest⟩
  rcases Module.mem_functions_define hf with hf | rfl
  · exact (h.stored f hf hbody).mono hserves rfl
  · exact ⟨K, b, c.module, hsound, hI, hserves, rfl⟩

theorem Sane.of_declare (h : c.Sane I) (hy : Yields (declare proto) c () c') :
    c'.Sane I ∧ c'.settings = c.settings ∧ c'.toplevel = c.toplevel := by
  obtain ⟨sig, _, hconflict, decl, _, _, rfl | ⟨rfl, rfl⟩⟩ := yields_declare hy
  · exact ⟨h, rfl, rfl⟩
  · exact ⟨h.addFunction (fits_of_conflictingRoutine? hconflict) rfl, rfl, rfl⟩

/-- A body that the verifier accepts was lowered to a finished one. -/
theorem Past.sound {s : Lowering} (h : Past c fd c1 decl sig) (hc : c.module.Honest)
    (hrun : Yields (lowerBody (c1.context sig) fd.body) (c1.bodyStart fd decl sig) () s)
    (hverify : s.builder.finish.verify s.module = .ok ()) :
    ∃ K, s.builder.Sound K [] s.module ∧ (c1.bodyStart fd decl sig).Since (fun _ d => d = 0) K s := by
  obtain ⟨flow, s1, hstmts, _⟩ := yields_bind.mp hrun
  obtain ⟨K, s', hrun', hsound, hlive, hsince⟩ := h.finishes hc hstmts
  obtain rfl : s = s' := congrArg Prod.snd (hrun.symm.trans hrun')
  refine ⟨K, hsound ?_, hsince⟩
  by_contra hflow
  obtain ⟨rfl, hlive, _⟩ := hlive hflow
  obtain ⟨x, _, _, _, herror⟩ := hlive.verify_current
  rw [hverify] at herror
  cases herror

/-- What a definition puts into the module. -/
theorem Sane.past (hI : Upheld c.settings.guardDivision I) (h : c.Sane I)
    (past : Past c fd c1 decl sig) {s : Lowering}
    (hrun : Yields (lowerBody (c1.context sig) fd.body) (c1.bodyStart fd decl sig) () s)
    (hverify : s.builder.finish.verify s.module = .ok ()) :
    Sane I { c1 with module := s.module.define (c1.stored s.builder.finish) } := by
  obtain ⟨h1, hset, _⟩ := h.of_declare past.declared
  obtain ⟨hlive, hname, hret, hfits⟩ := past.live h.honest
  obtain ⟨K, hsound, hsince⟩ := past.sound h.honest hrun hverify
  have hresult : (c1.bodyStart fd decl sig).builder.ret = (c1.context sig).result.toIr := hret
  have hI' : I s.builder :=
    hI.body (congrArg Settings.guardDivision hset) hlive hresult (hI.start decl) hrun
  have hgrown : Sane I { c1 with module := s.module } := h1.grows hsince.grows.module
  refine hgrown.store hsound hI' (past.since h.honest hrun).2.1 ?_
  have hfound : s.module.function? s.builder.name = some decl := by
    rw [hsince.grows.module.function?, (past.since h.honest hrun).1]
    exact past.found
  unfold Module.calleeSignature?
  rw [hfound]
  have hparams : s.builder.params = decl.params := hsince.grows.params
  have hret' : s.builder.ret = decl.ret := hsince.grows.ret
  rw [hparams, hret']
  rfl

theorem Sane.of_define (hI : Upheld c.settings.guardDivision I) (h : c.Sane I)
    (hy : Yields (define fd) c () c') : c'.Sane I ∧ c'.settings = c.settings := by
  have houtcome := define_outcome c fd
  rw [show (define fd).run.run c = _ from hy] at houtcome
  cases houtcome with
  | defined past hrun hverify =>
    exact ⟨h.past hI past hrun hverify, (h.of_declare past.declared).2.1⟩

theorem fits_toplevelDecl : toplevelDecl.Fits := by
  intro r hr
  cases r <;> simp [toplevelDecl, toplevelName, Routine.name] at hr

/-- The function of the statements outside of functions starts in a sound state. -/
theorem outside_start (hI : I (.start toplevelDecl)) (hm : (m.addFunction toplevelDecl).Honest)
    (hfree : m.function? toplevelName = none) :
    Outside I (m.addFunction toplevelDecl) (.start toplevelDecl) := by
  refine ⟨.inl ⟨_, Lowering.sound_start hm, ?_, ?_⟩, hI, rfl, rfl, rfl, ?_⟩
  · exact ⟨⟨0, "entry", [], none⟩, by simp [Builder.start, Body.addBlock, Body.empty], rfl, rfl⟩
  · intro frame hframe p hp
    simp only [Scope.empty, List.mem_singleton] at hframe
    rw [hframe] at hp
    exact absurd hp List.not_mem_nil
  · unfold Module.calleeSignature?
    rw [Module.function?_addFunction, hfree]
    rfl

theorem Sane.of_toplevelBuilder (hI : I (.start toplevelDecl)) (h : c.Sane I)
    (hy : Yields toplevelBuilder c b c') :
    c'.Sane I ∧ Outside I c'.module b ∧ c'.settings = c.settings := by
  have hrun := run_toplevelBuilder (c := c)
  rw [show toplevelBuilder.run.run c = _ from hy] at hrun
  cases htop : c.toplevel with
  | some b0 =>
    rw [htop] at hrun
    cases hrun
    exact ⟨h, h.toplevel _ htop, rfl⟩
  | none =>
    rw [htop] at hrun
    dsimp only at hrun
    split at hrun
    · cases hrun
    · rename_i hfree
      cases hrun
      have hadd : Sane I { c with module := c.module.addFunction toplevelDecl } :=
        h.addFunction fits_toplevelDecl rfl
      refine ⟨htop ▸ hadd, outside_start hI hadd.honest (by simpa using hfree), rfl⟩

/-- Whether the function has ended shows in its current block. -/
theorem Underway.cases (h : Underway m b) :
    (∃ K, Lowering.Live K [] ⟨m, some b, .empty⟩) ∧ b.isTerminated = false ∨
      (∃ K, b.Sound K [] m) ∧ b.isTerminated = true := by
  rcases h with ⟨K, hlive⟩ | ⟨⟨K, hsound⟩, hcur⟩
  · exact .inl ⟨⟨K, hlive⟩, hlive.isTerminated⟩
  · exact .inr ⟨⟨K, hsound⟩, hsound.isTerminated hcur⟩

/-- A statement that is lowered leaves the function it belongs to underway, and ends it if control
does not go on. -/
theorem Outside.of_lowerStmt {guard : Bool} (hI : Upheld guard I) (h : Outside I m b) {K : Ways}
    (hlive : Lowering.Live K [] ⟨m, some b, .empty⟩) {stmt : Stmt} {flow : Flow} {s : Lowering}
    (hy : Yields (lowerStmt ⟨guard, .void⟩ stmt) ⟨m, some b, .empty⟩ flow s) :
    Outside I s.module s.builder ∧ m.Grows s.module ∧ s.builder.isTerminated = !flow.goesOn := by
  have hret : (⟨m, some b, .empty⟩ : Lowering).builder.ret =
    (⟨guard, .void⟩ : LowerContext).result.toIr := h.ret
  have hends := Lowering.SoundStep.lowerStmt stmt hlive hret hy
  obtain ⟨_, hsince⟩ := hends.since
  have hcur := (secure_stmt stmt).current hlive.ready hy
  have hscope : s.scope = .empty := hsince.scope
  have hunderway : Underway s.module s.builder ∧ s.builder.isTerminated = !flow.goesOn := by
    cases flow with
    | continues =>
      obtain ⟨K', hlive', _⟩ := hends
      refine ⟨.inl ⟨K', ?_⟩, hlive'.isTerminated⟩
      rw [← hscope, ← hlive'.ready.builder?_eq]
      exact hlive'
    | terminated =>
      obtain ⟨K', hsound, _⟩ := hends
      exact ⟨.inr ⟨⟨K', hsound⟩, hcur⟩, hsound.isTerminated hcur⟩
  have hgrows : m.Grows s.module := hsince.grows.module
  refine ⟨⟨hunderway.1, hI.stmt rfl hlive hret h.upheld hy, ?_, ?_, ?_, ?_⟩, hgrows, hunderway.2⟩
  · exact hsince.grows.name.trans h.name
  · exact hsince.grows.params.trans h.params
  · exact hsince.grows.ret.trans h.ret
  · exact hgrows.calleeSignature? h.declared

theorem Sane.of_lowerToplevel (hI : Upheld c.settings.guardDivision I) (h : c.Sane I) {stmt : Stmt}
    (hy : Yields (lowerToplevel stmt) c () c') : c'.Sane I ∧ c'.settings = c.settings := by
  obtain ⟨⟨r, c1⟩, hb⟩ : ∃ p, toplevelBuilder.run.run c = p := ⟨_, rfl⟩
  cases r with
  | error e => cases hy.symm.trans (run_lowerToplevel_refused stmt hb)
  | ok b =>
    obtain ⟨h1, houtside, hset⟩ := h.of_toplevelBuilder (hI.start _) hb
    have hrun := hy.symm.trans (run_lowerToplevel stmt hb)
    rcases houtside.underway.cases with ⟨⟨K, hlive⟩, hopen⟩ | ⟨_, hended⟩
    · rw [hopen] at hrun
      obtain ⟨⟨r, s⟩, hstmt⟩ : ∃ p, (lowerStmt ⟨c1.settings.guardDivision, .void⟩ stmt).run.run
        ⟨c1.module, some b, .empty⟩ = p := ⟨_, rfl⟩
      rw [hstmt] at hrun
      cases r with
      | error e => cases hrun
      | ok flow =>
        cases hrun
        rw [← hset] at hI
        obtain ⟨hout, hgrows, _⟩ := houtside.of_lowerStmt hI hlive hstmt
        have hgrown := h1.grows hgrows
        refine ⟨⟨hgrown.honest, hgrown.stored, fun b hb => ?_⟩, hset⟩
        cases hb
        exact hout
    · rw [hended] at hrun
      cases hrun
      refine ⟨⟨h1.honest, h1.stored, fun b hb => ?_⟩, hset⟩
      cases hb
      exact houtside

/-- The function of the statements outside of functions ends with a return when it is finished, and
takes the place of its declaration. -/
theorem Sane.exists_finishToplevel (h : c.Sane I) (hb : c.toplevel = some b) :
    ∃ K b', b.terminate (.ret none) = .ok b' ∧ b'.Sound K [] c.module ∧ b'.name = toplevelName ∧
      b'.params = [] ∧ b'.ret = .void ∧ Yields finishToplevel c ()
        { c with toplevel := none, module := c.module.define (c.stored b'.finish) } := by
  have hout := h.toplevel b hb
  obtain ⟨K, b', hterm, hsound, hname, hparams, hret⟩ := hout.underway.terminate hout.ret
  refine ⟨K, b', hterm, hsound, hname.trans hout.name, hparams.trans hout.params,
    hret.trans hout.ret, ?_⟩
  have hrun := run_finishToplevel (c := c)
  have hfinalize := run_finalize (c := { c with toplevel := none }) b'.finish
  rw [show b'.finish.verify c.module = .ok () from hsound.verify] at hfinalize
  rw [hb] at hrun
  dsimp only at hrun
  rw [hterm] at hrun
  exact hrun.trans hfinalize

/-- The statements outside of functions end up in the module. -/
theorem Sane.of_finishToplevel (hI : Upheld c.settings.guardDivision I) (h : c.Sane I) :
    ∃ c', Yields finishToplevel c () c' ∧ c'.Sane I ∧ c'.settings = c.settings := by
  cases htop : c.toplevel with
  | none =>
    have hrun := run_finishToplevel (c := c)
    rw [htop] at hrun
    exact ⟨c, hrun, h, rfl⟩
  | some b =>
    have hout := h.toplevel b htop
    have hcleared : Sane I { c with toplevel := none } := ⟨h.honest, h.stored, fun b hb => nomatch hb⟩
    obtain ⟨K, b', hterm, hsound, hname, hparams, hret, hy⟩ := h.exists_finishToplevel htop
    refine ⟨_, hy, hcleared.store hsound (hI.ret hout.upheld hterm) ?_ ?_, rfl⟩
    · intro r hr
      have hr' : toplevelDecl.name = r.name := hname.symm.trans hr
      cases r <;> simp [toplevelDecl, toplevelName, Routine.name] at hr'
    · rw [hname, hparams, hret]
      exact hout.declared

theorem Sane.of_lowerItem (hI : Upheld c.settings.guardDivision I) (h : c.Sane I) {item : Item}
    (hy : Yields (lowerItem item) c () c') : c'.Sane I ∧ c'.settings = c.settings := by
  cases item with
  | function f => exact h.of_define hI hy
  | foreign proto =>
    obtain ⟨h', hset, _⟩ := h.of_declare hy
    exact ⟨h', hset⟩
  | statement stmt => exact h.of_lowerToplevel hI hy

theorem Sane.of_declareItem (h : c.Sane I) {item : Item} (hy : Yields (declareItem item) c () c') :
    c'.Sane I ∧ c'.settings = c.settings := by
  unfold declareItem at hy
  split at hy
  · obtain ⟨h', hset, _⟩ := h.of_declare hy
    exact ⟨h', hset⟩
  · obtain ⟨_, rfl⟩ := yields_pure.mp hy
    exact ⟨h, rfl⟩

theorem sane_start (name : String) (settings : Settings) : Sane I (.start name settings) :=
  ⟨by simp [start, Module.empty, Module.Honest], by simp [start, Module.empty], by simp [start]⟩

/-- What holds of a compilation and is kept by each step holds after all of them. -/
theorem forM_invariant {α : Type} {step : α → CompileM Unit} {P : Compilation → Prop}
    (hstep : ∀ a c c', P c → Yields (step a) c () c' → P c') :
    ∀ (as : List α) {c c' : Compilation}, P c → Yields (as.forM step) c () c' → P c'
  | [], c, c', hc, hy => by
    obtain ⟨_, rfl⟩ := yields_pure.mp hy
    exact hc
  | a :: as, c, c', hc, hy => by
    obtain ⟨_, c1, hfirst, hrest⟩ := yields_bind.mp hy
    exact forM_invariant hstep as (hstep a c c1 hc hfirst) hrest

/-- After both passes over the items of a program, no step having failed. -/
theorem sane_passes {settings : Settings} (hI : Upheld settings.guardDivision I) {items : List Item}
    {name : String} (hdeclare : Yields (items.forM declareItem) (.start name settings) () c)
    (hlower : Yields (items.forM lowerItem) c () c') : c'.Sane I ∧ c'.settings = settings := by
  have hdeclared : c.Sane I ∧ c.settings = settings :=
    forM_invariant (P := fun c => c.Sane I ∧ c.settings = settings)
      (fun _ _ _ hc hy => by
        obtain ⟨h', hset⟩ := hc.1.of_declareItem hy
        exact ⟨h', hset.trans hc.2⟩) items ⟨sane_start name settings, rfl⟩ hdeclare
  refine forM_invariant (P := fun c => c.Sane I ∧ c.settings = settings)
    (fun _ _ _ hc hy => ?_) items hdeclared hlower
  rw [← hc.2] at hI
  obtain ⟨h', hset⟩ := hc.1.of_lowerItem hI hy
  exact ⟨h', hset.trans hc.2⟩

end Compilation

end SsaCompiler
