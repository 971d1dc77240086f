import SsaCompiler.Compilation
import SsaCompiler.Proofs.Lowering.Statements

/-!
Lowering the body of a function. It starts in a sound state, in which the parameters may be used.
What it builds is well formed, unless control can get to the end of a function with a result; then
the missing terminator there is all that is wrong.
-/
namespace SsaCompiler

open Ir LowerM

namespace Lowering

variable {m : Module} {f : Function} {proto : Prototype} {sig : Signature} {ctx : LowerContext}
  {K : Ways} {open_ : List BlockId} {s s' : Lowering} {body : List Stmt} {flow : Flow}

/-- Where the body of a function starts. -/
def ofFunction (m : Module) (f : Function) (scope : Scope) : Lowering :=
  ⟨m, some (.start f), scope⟩

/-- An empty entry block is sound. -/
theorem sound_start (hm : m.Honest) : (Builder.start f).Sound (fun _ d => d = 0) [0] m := by
  have hblocks : (Builder.start f).body.blocks = [⟨0, "entry", [], none⟩] := rfl
  have hentry : (Builder.start f).body.entry = 0 := rfl
  have hall : ∀ {P : Block → Prop}, P ⟨0, "entry", [], none⟩ →
      ∀ x ∈ (Builder.start f).body.blocks, P x := by
    intro P h x hx
    rw [hblocks, List.mem_singleton] at hx
    exact hx ▸ h
  have hleads : ∀ u v, ¬ (Builder.start f).body.Leads u v := by
    rintro u v ⟨x, hx, _, hv⟩
    rw [hblocks, List.mem_singleton] at hx
    simp [hx, Block.targets] at hv
  have hhome : ∀ r v, ¬ (Builder.start f).body.Home r v := by
    rintro r v ⟨x, hx, _, hr⟩
    rw [hblocks, List.mem_singleton] at hx
    simp [hx] at hr
  have hids : ∀ v ∈ (Builder.start f).body.ids, v = 0 := by
    intro v hv
    simpa [Body.ids, hblocks] using hv
  refine ⟨⟨hm, by simp [hblocks], by simp [Body.ids, hblocks], ?_, ?_, ?_, ?_, ?_, ?_, ?_, ?_, ?_, ?_,
    ?_⟩, ?_⟩
  · exact fun v hv => (hids v hv) ▸ Nat.one_pos
  · exact fun r v w hv => absurd hv (hhome r v)
  · exact fun u => hleads u _
  · exact hall (by simp)
  · exact hall ⟨by simp, by simp [PhisFirst], by simp, by simp, by simp, by simp, by simp, by simp,
      by simp⟩
  · exact fun d hd => hd
  · exact fun u v d hl => absurd hl (hleads u v)
  · exact fun v _ => hentry
  · exact hids
  · exact hall (by simp)
  · exact hall fun _ => Body.reaches_entry _
  · exact hall (by simp)

theorem mem_paramScope (proto : Prototype) (sig : Signature) :
    (Compilation.paramScope proto sig).outer = [] ∧
      ∀ p ∈ (Compilation.paramScope proto sig).inner, ∃ i ty,
        p.2 = ⟨.param i, ty⟩ ∧ sig.params[i]? = some ty := by
  have hfold : ∀ (l : List ((Param × DataType) × Nat)) (scope : Scope), scope.outer = [] →
      (∀ p ∈ scope.inner, ∃ i ty, p.2 = ⟨.param i, ty⟩ ∧ sig.params[i]? = some ty) →
      (∀ p ∈ l, sig.params[p.2]? = some p.1.2) →
      (l.foldl (fun s p => s.bind p.1.1.name ⟨.param p.2, p.1.2⟩) scope).outer = [] ∧
        ∀ p ∈ (l.foldl (fun s p => s.bind p.1.1.name ⟨.param p.2, p.1.2⟩) scope).inner,
          ∃ i ty, p.2 = ⟨.param i, ty⟩ ∧ sig.params[i]? = some ty := by
    intro l
    induction l with
    | nil => exact fun scope houter hinner _ => ⟨houter, hinner⟩
    | cons p l ih =>
      intro scope houter hinner hl
      obtain ⟨hp, hl⟩ := List.forall_mem_cons.mp hl
      refine ih _ houter ?_ hl
      exact List.forall_mem_cons.mpr ⟨⟨p.2, p.1.2, rfl, hp⟩, hinner⟩
  refine hfold _ .empty rfl (by simp [Scope.empty]) fun p hp => ?_
  exact (List.getElem?_zip_eq_some.mp (List.mk_mem_zipIdx_iff_getElem?.mp hp)).2

/-- The parameters may be used from the start. -/
theorem Live.ofFunction (hm : m.Honest) (hsig : Signature.resolve proto = .ok sig)
    (hparams : f.paramTypes = (sig.declaration proto).paramTypes) :
    Live (fun _ d => d = 0) [] (.ofFunction m f (Compilation.paramScope proto sig)) := by
  refine ⟨sound_start hm, ⟨⟨0, "entry", [], none⟩, by simp [Lowering.ofFunction, Builder.start,
    Body.addBlock, Body.empty], rfl, rfl⟩, fun frame hframe p hp => ?_⟩
  obtain ⟨htypes, hproper, _⟩ := Signature.resolve_eq_ok hsig
  obtain ⟨houter, hinner⟩ := mem_paramScope proto sig
  have hframe : frame = (Compilation.paramScope proto sig).inner := by
    simpa [Lowering.ofFunction, houter] using hframe
  obtain ⟨i, ty, hval, hty⟩ := hinner p (hframe ▸ hp)
  rw [hval]
  refine ⟨⟨?_, fun _ hr => by cases hr⟩, hproper ty (List.mem_of_getElem? hty)⟩
  have hget : f.paramTypes[i]? = some ty.toIr := by
    rw [hparams, htypes, List.getElem?_map, hty]
    rfl
  rw [Function.paramTypes, List.getElem?_map, Option.map_eq_some_iff] at hget
  obtain ⟨q, hq, hty⟩ := hget
  exact hty ▸ .param hq

/-- The current block of a live state can be ended. -/
theorem Live.exists_leave (h : s.Live K open_) (t : Terminator) :
    ∃ s', Yields (emit (·.terminate t)) s () s' := by
  obtain ⟨x, hx, hcur, _⟩ := h.isOpen
  have hblock : (s.builder.body.block? s.builder.current).isSome = true := by
    rw [(Body.block?_eq_some h.sound.ids).mpr ⟨hx, hcur⟩]
    rfl
  exact ⟨_, yields_emit (isSome_of_mem hx)
    (by rw [Builder.terminate, Builder.updateCurrent, if_pos hblock])⟩

/-- While the current block is open, the verifier finds nothing else. -/
theorem Live.verify_current (h : s.Live K []) :
    ∃ x ∈ s.builder.body.blocks, x.id = s.builder.current ∧ x.term = none ∧
      s.builder.finish.verify s.module = .error (.unterminated x.label) := by
  obtain ⟨x, hx, hcur, hterm⟩ := h.isOpen
  exact ⟨x, hx, hcur, hterm, Builder.Sound.verify_unfinished (hcur ▸ h.sound) hx hterm⟩

/-- Once the current block returns a value of the result type, the verifier finds nothing. -/
theorem Live.verify_ended (h : s.Live K []) {v : Value} {b : Builder}
    (hret : s.builder.ret ≠ .void) (hv : s.Usable K s.builder.current v s.builder.ret)
    (hb : s.builder.terminate (.ret (some v)) = .ok b) : b.finish.verify s.module = .ok () := by
  obtain ⟨x, hx, _⟩ := h.isOpen
  have hy : Yields (ret (some v)) s () { s with builder? := some b } :=
    yields_emit (isSome_of_mem hx) hb
  have left := h.leave hy ⟨hret, hv.has⟩ (by simpa [Terminator.operands] using ⟨_, hv⟩)
    (by simp [Terminator.successors])
  exact left.sound.verify

/-- The body of a function lowers to a finished one, unless control gets to the end of a function
with a result. -/
theorem Live.lowerBody (h : s.Live K []) (hret : s.builder.ret = ctx.result.toIr)
    (hy : Yields (inFrame (lowerStmts ctx body)) s flow s') :
    ∃ K' s'', Yields (lowerBody ctx body) s () s'' ∧ s.Since K K' s'' ∧
      (ctx.result = .void ∨ flow = .terminated → s''.builder.Sound K' [] s''.module) ∧
      (¬ (ctx.result = .void ∨ flow = .terminated) → s'' = s' ∧ s'.Live K' []) := by
  have hends := (SoundStep.lowerStmts body).inFrame h hret hy
  cases flow with
  | terminated =>
    obtain ⟨K', hsound, hsince⟩ := hends
    exact ⟨K', s', yields_bind.mpr ⟨_, _, hy, yields_pure.mpr ⟨rfl, rfl⟩⟩, hsince, fun _ => hsound,
      by simp⟩
  | continues =>
    obtain ⟨K', hlive, hon⟩ := hends
    by_cases hvoid : ctx.result = .void
    · obtain ⟨s'', hret'⟩ := hlive.exists_leave (.ret none)
      have hend : s'.builder.ret = .void := by
        rw [hon.grows.ret, hret, hvoid]
        rfl
      have left := hlive.leave hret' hend (by simp [Terminator.operands])
        (by simp [Terminator.successors])
      refine ⟨K', s'', yields_bind.mpr ⟨_, _, hy, ?_⟩,
        hon.toSince.left h left (by simp [Terminator.successors]), fun _ => left.sound,
        by simp [hvoid]⟩
      simp only [hvoid, if_true]
      exact hret'
    · refine ⟨K', s', yields_bind.mpr ⟨_, _, hy, ?_⟩, hon.toSince, by simp [hvoid],
        fun _ => ⟨rfl, hlive⟩⟩
      simp only [hvoid, if_false]
      exact yields_pure.mpr ⟨rfl, rfl⟩

end Lowering

end SsaCompiler
