import SsaCompiler.Proofs.Compiling.Sanity
import SsaCompiler.Proofs.Lowering.Guards
import SsaCompiler.Proofs.Optimizer.Guards

/-!
Compiled programs divide only behind their guards. Lowering puts a test and a branch before every
division of floats, no pass of the optimizer opens another way to it, and discarding what is unused
changes neither tests nor divisions.
-/
namespace SsaCompiler

open Ir

namespace Compilation

variable {I : Builder → Prop} {c : Compilation} {f : Function} {b : Builder} {body : Body}
  {m : Module}

/-- A module that was compiled is what a compilation without failures leaves of its module. -/
theorem sane_of_compile {source : Source} {name : String} {settings : Settings}
    (hI : Upheld settings.guardDivision I) (h : compile source name settings = .ok m) :
    ∃ c : Compilation, c.Sane I ∧ m = c.module.discardUnused := by
  obtain ⟨c3, hy⟩ : ∃ c3, Yields (compileItems _ _) (.start name settings) m c3 :=
    ⟨_, yields_of_eq_ok h⟩
  obtain ⟨_, c1, hdeclare, hy⟩ := yields_bind.mp hy
  split at hy
  · exact absurd hy not_yields_throw
  · obtain ⟨_, c2, hlower, hfinish⟩ := yields_bind.mp hy
    obtain ⟨hsane, hset⟩ := sane_passes hI hdeclare hlower
    rw [← hset] at hI
    obtain ⟨c, htop, hsane', _⟩ := hsane.of_finishToplevel hI
    have hrun := run_finish htop
    rw [hsane'.checked.discardUnused.verify] at hrun
    cases hfinish.symm.trans hrun
    exact ⟨c, hsane', rfl⟩

/-- The divisions of a function under construction are guarded. -/
structure Tended (b : Builder) : Prop where
  firm : b.Firm
  entry : b.body.entry = 0

theorem upheld_tended : Upheld true Tended where
  start f := by
    refine ⟨⟨⟨List.nodup_singleton _, ?_, ?_, ?_⟩, ?_⟩, rfl⟩ <;>
      simp [Builder.start, Body.empty, Body.addBlock, Block.targets]
  stmt hguard hlive hret h hy :=
    ⟨((traversed_guarding hguard).composed.lowerStmt _ [] _ _ _ h.firm (by simp) hy).firm,
      (upheld_entry true).stmt hguard hlive hret h.entry hy⟩
  body hguard hlive hret h hy :=
    ⟨((traversed_guarding hguard).composed.lowerBody (V := []) _ _ _ _ h.firm (by simp) hy).firm,
      (upheld_entry true).body hguard hlive hret h.entry hy⟩
  ret h hterm := ⟨((Builder.moves_terminate hterm).advances h.firm
    (by rintro _ rfl; simp [Terminator.successors]) fun _ _ _ hnew => hnew).firm,
    (upheld_entry true).ret h.entry hterm⟩

/-- Functions are put into the module with their divisions guarded, whether they are optimized or
not. -/
theorem Made.careful (h : c.Made Tended f) (hbody : f.body = some body) : body.Careful false := by
  obtain ⟨K, b, m, hsound, htended, _, rfl⟩ := h
  have hcareful := htended.firm.careful htended.entry
  unfold Compilation.stored at hbody
  split at hbody
  · obtain rfl : Optimize.optimizeBody _ Optimize.maxRounds b.body = body := Option.some.inj hbody
    have hregular := hsound.orderly.regular (f := b.finish) rfl hsound.verify
    exact (Optimize.safe_optimizeBody Optimize.maxRounds ⟨hregular, hcareful⟩).careful
  · obtain rfl : b.body = body := Option.some.inj hbody
    exact hcareful

/-- The divisions of a compiled module are guarded, and its bodies are well formed. -/
theorem Sane.careful_discardUnused (h : c.Sane Tended) (hf : f ∈ c.module.discardUnused.functions)
    (hbody : f.body = some body) : body.Careful false := by
  obtain ⟨g, hg, rfl⟩ := List.mem_map.mp hf
  obtain ⟨body, hbody', rfl⟩ := Option.map_eq_some_iff.mp hbody
  have hmade := h.stored g hg (by simp [hbody'])
  refine Optimize.careful_mapOperands (hmade.careful hbody') ?_ ?_
  · exact fun c => rfl
  · exact fun r => rfl

end Compilation

/-- In a module that was compiled with the division guard, a division of floats is behind a guard on
every walk to it. Its divisor is a constant other than zero, or the last step of the walk was the
second arm of a branch on a comparison of the divisor with zero. That comparison was made earlier on
the walk, and its result is not computed again before the division. -/
theorem compile_guards_divisions (source : Source) (name : String) (settings : Settings) (m : Module)
    (hguard : settings.guardDivision = true) (hok : compile source name settings = .ok m)
    (f : Function) (hf : f ∈ m.functions) (b : Body) (hbody : f.body = some b)
    (before : List Block) (x : Block) (hwalk : b.Walk (before ++ [x]))
    (done rest : List Instr) (i : Instr) (hsplit : x.instrs = done ++ i :: rest)
    (l d : Value) (hdiv : i.op = .binary .fdiv l d) :
    (∃ c, d = .float c ∧ FloatPred.oeq.onFloats c .zero = false) ∨
    ∃ front p z t, before = front ++ [p] ∧ p.term = some (.condBr (.reg z) t x.id) ∧ t ≠ x.id ∧
      (∃ j ∈ Body.trace before, j.result = some z ∧ j.op = .fcmp .oeq d (.float .zero)) ∧
      (∀ y ∈ b.blocks, ∀ j ∈ y.instrs, j.result = some z → j.op = .fcmp .oeq d (.float .zero)) ∧
      z ∉ definedBy done := by
  obtain ⟨c, hsane, rfl⟩ := Compilation.sane_of_compile (hguard ▸ Compilation.upheld_tended) hok
  obtain ⟨hids, hvalid⟩ := hsane.checked.discardUnused f hf b hbody
  have hi : i ∈ x.instrs := by simp [hsplit]
  rcases hsane.careful_discardUnused hf hbody x hwalk.last_mem i hi l d hdiv with
    hnonzero | hguarded | ⟨hlax, _⟩
  · exact .inl hnonzero
  · obtain ⟨front, p, z, t, hlast, hterm, hne, hdefined, htest, hnot⟩ :=
      hguarded.walk hids hvalid hwalk
    refine .inr ⟨front, p, z, t, hlast, hterm, hne, hdefined, htest, fun hz => hnot ?_⟩
    rw [hsplit, definedBy_append]
    exact List.mem_append_left _ hz
  · cases hlax

/-- The body of a function that divides its parameter by itself. -/
def ratioBody : Body where
  blocks := [
    ⟨0, "entry", [⟨some 0, .i1, .fcmp .oeq (.param 0) (.float .zero)⟩], some (.condBr (.reg 0) 1 2)⟩,
    ⟨1, "div.zero", [⟨some 1, .i64, .call "puts" [.global 0]⟩, ⟨none, .void, .call "abort" []⟩],
      some (.br 3)⟩,
    ⟨2, "div.ok", [⟨some 2, .double, .binary .fdiv (.param 0) (.param 0)⟩], some (.br 3)⟩,
    ⟨3, "div.merge", [⟨some 3, .double, .phi [(.const (.undef .double), 1), (.reg 2, 2)]⟩],
      some (.ret (some (.reg 3)))⟩]
  regTypes := [.i1, .i64, .double, .double]
  nextBlock := 4

def ratio : Function := ⟨"ratio", [⟨"a", .double⟩], .double, some ratioBody⟩

def ratioModule : Module := ⟨"m", [ratio], ["division by zero"], [.puts, .abort]⟩

def ratioSource : Source := ⟨"fun ratio(a float) float { return a / a }".toList, none⟩

theorem compile_ratio : compile ratioSource "m" {} = .ok ratioModule := by decide +kernel

theorem compile_ratio_guards_division :
    compile ratioSource "m" {} = .ok ratioModule ∧
    ratioBody.Walk ([ratioBody.blocks[0]] ++ [ratioBody.blocks[2]]) ∧
    ∃ p z t, ratioBody.blocks[0] = p ∧ p.term = some (.condBr (.reg z) t 2) ∧ t ≠ 2 ∧
      ∃ j ∈ p.instrs, j.result = some z ∧ j.op = .fcmp .oeq (.param 0) (.float .zero) := by
  have hwalk : ratioBody.Walk ([ratioBody.blocks[0]] ++ [ratioBody.blocks[2]]) :=
    ⟨rfl, by decide⟩
  refine ⟨compile_ratio, hwalk, ?_⟩
  rcases compile_guards_divisions ratioSource "m" {} ratioModule rfl compile_ratio ratio
    List.mem_cons_self ratioBody rfl _ _ hwalk [] [] _ rfl (.param 0) (.param 0) rfl with
    ⟨c, hc, _⟩ | ⟨front, p, z, t, hlast, hterm, hne, ⟨j, hj, hres, hop⟩, _⟩
  · cases hc
  · obtain ⟨rfl, hp⟩ : front = [] ∧ p = ratioBody.blocks[0] := by
      rcases front with _ | ⟨q, front⟩
      · exact ⟨rfl, by simpa using hlast.symm⟩
      · simp at hlast
    subst hp
    exact ⟨_, z, t, rfl, hterm, hne, j, by simpa [Body.trace] using hj, hres, hop⟩

end SsaCompiler
