import SsaCompiler.Proofs.Compiling.Guards
import SsaCompiler.Proofs.Lowering.Bounds
import SsaCompiler.Proofs.Meaning.Bounds
import SsaCompiler.Proofs.Optimizer.Bounds

/-!
Compiled programs stay within arrays. Lowering indexes arrays by constants and by the counts of
loops, the optimizer keeps both, and discarding what is unused changes neither. A run of such a body
takes addresses of elements that are there.
-/
namespace SsaCompiler

open Ir

namespace Ir

variable {f g : Function} {m : Module} {b : Body}

theorem Body.Regular.congr (h : b.Regular f m) (hparams : g.params = f.params) (hret : g.ret = f.ret)
    (htype : g.typeOf = f.typeOf) : b.Regular g m := by
  refine ⟨h.ids, h.valid.congr hparams hret htype, h.reached, fun x hx i hi r hr => ?_⟩
  rw [htype]
  exact h.typed x hx i hi r hr

theorem Body.Bounded.congr (h : b.Bounded f) (htype : g.typeOf = f.typeOf) : b.Bounded g := by
  intro x hx i hi base v hop
  rw [htype]
  exact h x hx i hi base v hop

end Ir

namespace Lowering

variable {s : Lowering} {K : Ways} {open_ : List BlockId}

/-- Where code may be emitted, all names in scope stand for values of their types. -/
theorem Live.scopeTyped (h : s.Live K open_) : s.ScopeTyped := fun _ _ hlook =>
  .inr (h.scope.lookup hlook).has.typeOf

end Lowering

namespace Compilation

variable {c : Compilation} {f : Function} {body : Body} {guard : Bool}

theorem upheld_sure (guard : Bool) : Upheld guard Builder.Sure where
  start f := by
    refine ⟨⟨⟨List.nodup_singleton _, ?_, ?_, ?_⟩, ?_⟩, ?_⟩ <;>
      simp [Builder.start, Body.empty, Body.addBlock, Block.targets, Body.Indexes]
  stmt _ hlive _ h hy :=
    (composed_bounding.lowerStmt _ [] _ _ _ h hlive.scopeTyped (by simp) hy).sure
  body _ hlive _ h hy :=
    (composed_bounding.lowerBody (V := []) _ _ _ _ h hlive.scopeTyped (by simp) hy).sure
  ret h hterm := ((Builder.moves_terminate hterm).secures (T := []) h
    (by rintro _ rfl; simp [Terminator.successors]) (by simp) (by simp) (by simp)
    fun _ _ _ hnew => hnew.elim).sure

/-- A function under construction that indexes arrays by their places. -/
def Placed (b : Builder) : Prop := b.Sure ∧ b.body.entry = 0

theorem upheld_placed (guard : Bool) : Upheld guard Placed :=
  (upheld_sure guard).and (upheld_entry guard)

theorem Made.bounded (h : c.Made Placed f) (hbody : f.body = some body) :
    ∃ m, body.Regular f m ∧ body.Bounded f := by
  obtain ⟨K, b, m, hsound, ⟨hsure, hentry⟩, _, rfl⟩ := h
  have hregular := hsound.orderly.regular (f := b.finish) rfl hsound.verify
  have hbounded := hsure.body_bounded hentry
  refine ⟨m, ?_⟩
  unfold Compilation.stored at hbody ⊢
  generalize Optimize.standardPasses = passes at hbody ⊢
  split at hbody
  case isTrue hopt =>
    rw [if_pos hopt]
    have hderived := Function.optimize_derived (f := b.finish) rfl hsound.verify hsound.orderly passes
    obtain rfl : Optimize.optimizeBody passes Optimize.maxRounds b.body = body :=
      Option.some.inj hbody
    obtain ⟨hregular', hbounded'⟩ := hderived.rewrites.bounded hregular hbounded
    have htype := hsound.typeOf_optimize passes
    exact ⟨hregular'.congr rfl rfl htype, hbounded'.congr htype⟩
  case isFalse hopt =>
    rw [if_neg hopt]
    obtain rfl : b.body = body := Option.some.inj hbody
    exact ⟨hregular, hbounded⟩

/-- The functions of a compiled module index arrays by their places. -/
theorem Sane.bounded_discardUnused (h : c.Sane Placed) (hf : f ∈ c.module.discardUnused.functions)
    (hbody : f.body = some body) :
    body.Regular f c.module.discardUnused ∧ body.Bounded f := by
  obtain ⟨_, hvalid⟩ := h.checked.discardUnused f hf body hbody
  obtain ⟨g, hg, rfl⟩ := List.mem_map.mp hf
  obtain ⟨b, hb, rfl⟩ := Option.map_eq_some_iff.mp hbody
  obtain ⟨m, hregular, hbounded⟩ := (h.stored g hg (by simp [hb])).bounded hb
  set σ := Module.renumber c.module.referenced
  set f : Function := { g with body := g.body.map (Body.mapOperands σ) }
  have htype : f.typeOf = g.typeOf := by
    funext v
    cases v with
    | reg r => simp [f, Function.typeOf, hb, Body.mapOperands]
    | _ => rfl
  constructor
  · exact (hregular.mapOperands (hvalid.congr rfl rfl htype.symm)).congr rfl rfl htype
  · refine (Optimize.bounded_mapOperands_of_reg hbounded (fun _ => rfl) (fun _ => rfl) ?_).congr htype
    exact fun v => Module.typeOf_renumber _ _ v

end Compilation

/-- Compiled code never indexes a sequence out of bounds. Wherever a run of a function of a compiled
module comes to the address of an element, the index is the number of an element, and so neither
negative nor as large as the number of elements, if numbers of the index type can count them. -/
theorem compile_indexes_within (source : Source) (name : String) (settings : Settings) (m : Module)
    (hok : compile source name settings = .ok m) (f : Function) (hf : f ∈ m.functions) (b : Body)
    (hbody : f.body = some b) {α μ : Type} (env : Environment α μ) (args : List (Val α)) (w : μ)
    (cfg : Config α μ) (hcomes : b.ComesTo env args w cfg) (i : Instr) (rest : List Instr)
    (hrest : cfg.rest = i :: rest) (base v : Value) (hop : i.op = .elementPtr base v) :
    ∃ elem len, f.typeOf base = .ptr (.array elem len) ∧
      ∃ k : Int64, cfg.eval env args v = some (.int k) ∧ (∃ place < len, k = Int64.ofNat place) ∧
        (len ≤ 2 ^ 63 → 0 ≤ k.toInt ∧ k.toInt < len) := by
  obtain ⟨c, hsane, rfl⟩ := Compilation.sane_of_compile (Compilation.upheld_placed _) hok
  obtain ⟨hregular, hbounded⟩ := hsane.bounded_discardUnused hf hbody
  obtain ⟨elem, len, htype, place, hplace, heval⟩ := hbounded.index hregular hcomes hrest hop
  refine ⟨elem, len, htype, _, heval, ⟨place, hplace, rfl⟩, fun hlen => ?_⟩
  rw [Int64.toInt_ofNat_of_lt (hplace.trans_le hlen)]
  omega

/-- The body of a function that visits the elements of a sequence of two. -/
def scanBody : Body where
  blocks := [
    ⟨0, "entry", [⟨some 0, .ptr .i64, .alloca .i64⟩, ⟨some 1, .ptr .i64, .elementPtr (.param 0) (.int 0)⟩,
      ⟨some 2, .i64, .load (.reg 1)⟩, ⟨none, .void, .store (.reg 2) (.reg 0)⟩], some (.br 1)⟩,
    ⟨1, "for.header", [⟨some 3, .i64, .phi [(.int 0, 0), (.reg 5, 2)]⟩,
      ⟨some 5, .i64, .binary .add (.reg 3) (.int 1)⟩, ⟨some 6, .i1, .icmp .slt (.reg 5) (.int 2)⟩],
      some (.condBr (.reg 6) 2 3)⟩,
    ⟨2, "for.step", [⟨some 7, .ptr .i64, .elementPtr (.param 0) (.reg 5)⟩,
      ⟨some 8, .i64, .load (.reg 7)⟩, ⟨none, .void, .store (.reg 8) (.reg 0)⟩], some (.br 1)⟩,
    ⟨3, "for.end", [], some (.ret none)⟩]
  regTypes := [.ptr .i64, .ptr .i64, .i64, .i64, .i64, .i64, .i1, .ptr .i64, .i64]
  nextBlock := 4

def scan : Function := ⟨"scan", [⟨"s", .ptr (.array .i64 2)⟩], .void, some scanBody⟩

def scanSource : Source := ⟨"fun scan(s int[2]) { for x in s {} }".toList, none⟩

theorem compile_scan : compile scanSource "m" {} = .ok ⟨"m", [scan], [], []⟩ := by decide +kernel

/-- A world in which every address is the same and holds a seven. -/
def sevens : Environment Nat Unit where
  equal := fun a b => decide (a = b)
  equal_iff := fun _ _ => decide_eq_true_iff
  string := id
  string_injective := Function.injective_id
  alloca := fun _ _ => some (.other 0, ())
  load := fun _ _ _ => some (.int 7)
  store := fun _ _ _ => some ()
  element := fun _ _ _ => some (.other 0)
  call := fun _ _ _ => none

theorem scan_comes_to_next : ∃ cfg, scanBody.ComesTo sevens [.other 0] () cfg ∧
    cfg.rest = (scanBody.blocks[2]).instrs := by
  have entered : scanBody.ComesTo sevens [.other 0] () _ := .start rfl
  have taken := ((entered.step (.instr rfl rfl rfl)).step (.instr rfl rfl rfl)).step (.instr rfl rfl rfl)
  have begun := (taken.step (.instr rfl rfl rfl)).step (.jump (y := scanBody.blocks[1]) rfl rfl rfl rfl)
  have tested := (begun.step (.instr rfl rfl rfl)).step (.instr rfl rfl rfl)
  exact ⟨_, tested.step (.jump (y := scanBody.blocks[2]) rfl rfl rfl rfl), rfl⟩

theorem scan_indexes_within : compile scanSource "m" {} = .ok ⟨"m", [scan], [], []⟩ ∧
    ∃ cfg, scanBody.ComesTo sevens [.other 0] () cfg ∧
      ∃ rest, cfg.rest = ⟨some 7, .ptr .i64, .elementPtr (.param 0) (.reg 5)⟩ :: rest ∧
      ∃ k : Int64, cfg.eval sevens [.other 0] (.reg 5) = some (.int k) ∧ 0 ≤ k.toInt ∧ k.toInt < 2 := by
  obtain ⟨cfg, hcomes, hrest⟩ := scan_comes_to_next
  refine ⟨compile_scan, cfg, hcomes, _, hrest, ?_⟩
  obtain ⟨elem, len, htype, k, hk, _, hwithin⟩ := compile_indexes_within scanSource "m" {} _
    compile_scan scan List.mem_cons_self scanBody rfl sevens [.other 0] () cfg hcomes _ _ hrest
    (.param 0) (.reg 5) rfl
  obtain ⟨rfl, rfl⟩ : elem = .i64 ∧ len = 2 := by simpa [Function.typeOf, scan, eq_comm] using htype
  exact ⟨k, hk, hwithin (by decide)⟩

end SsaCompiler
