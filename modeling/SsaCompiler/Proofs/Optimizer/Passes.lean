import SsaCompiler.Optimize.Pipeline
import SsaCompiler.Proofs.Optimizer.Rewrites
import SsaCompiler.Proofs.Stable
import Mathlib.Logic.Relation

/-!
Every pass is a chain of rewrites, and so is any sequence of passes. What all rewrites keep, the
optimizer keeps; of a regular body it makes a regular body.
-/
namespace SsaCompiler.Optimize

open Ir

/-- One rewrite after the other. -/
def Rewrites : Body → Body → Prop := Relation.ReflTransGen Rewrite

/-- A regular body that rewrites lead to from `b`. -/
structure Derived (f : Function) (m : Module) (b c : Body) : Prop where
  regular : c.Regular f m
  rewrites : Rewrites b c

variable {b c c' : Body} {f : Function} {m : Module}

theorem Derived.refl (h : b.Regular f m) : Derived f m b b := ⟨h, .refl⟩

theorem Derived.next (h : Derived f m b c) (hstep : Rewrite c c') : Derived f m b c' :=
  ⟨hstep.regular h.regular, h.rewrites.tail hstep⟩

theorem simplifyFirst?_eq_some (h : simplifyFirst? b = some c) : ∃ x ∈ b.blocks, ∃ i ∈ x.instrs,
    ∃ r v, i.result = some r ∧ simplify? r i.op = some v ∧ c = b.substitute r v := by
  obtain ⟨s, hs, rfl⟩ := Option.map_eq_some_iff.mp h
  obtain ⟨x, hx, hs⟩ := List.exists_of_findSome?_eq_some hs
  obtain ⟨i, hi, hs⟩ := List.exists_of_findSome?_eq_some hs
  obtain ⟨r, hr, hs⟩ := Option.bind_eq_some_iff.mp hs
  obtain ⟨v, hv, rfl⟩ := Option.map_eq_some_iff.mp hs
  exact ⟨x, hx, i, hi, r, v, hr, hv, rfl⟩

theorem simplifyFirst?_rewrite (h : simplifyFirst? b = some c) : Rewrite b c := by
  obtain ⟨x, hx, i, hi, r, v, hr, hv, rfl⟩ := simplifyFirst?_eq_some h
  obtain ⟨done, rest, hsplit⟩ := List.append_of_mem hi
  exact .substitute ⟨hx, hsplit, hr⟩ (.folded hv)

theorem dropUnused_rewrite (b : Body) : Rewrite b (dropUnused b).1 := by
  have hdead : ∀ i, isLive b.uses i = false →
      ∃ r, i.result = some r ∧ r ∉ b.uses ∧ i.op.isPure := by
    intro i hi
    unfold isLive at hi
    split at hi
    · rename_i r hr
      simp only [Bool.or_eq_false_iff, Bool.not_eq_false', decide_eq_false_iff_not] at hi
      exact ⟨r, hr, hi.2, hi.1⟩
    · simp at hi
  refine .drop (fun x _ i _ hi => ?_) fun x _ i _ hi => ?_
  · obtain ⟨r, hr, hunused, _⟩ := hdead i hi
    exact ⟨r, hr, hunused⟩
  · exact (hdead i hi).choose_spec.2.2

theorem replaceTrivialPhi?_eq_some (h : replaceTrivialPhi? b = some c) :
    ∃ x done i rest r v source, b.Defines x done i rest r ∧ i.op = .phi [(v, source)] ∧
      c = b.substitute r v := by
  obtain ⟨s, hs, rfl⟩ := Option.map_eq_some_iff.mp h
  obtain ⟨x, hx, hs⟩ := List.exists_of_findSome?_eq_some hs
  obtain ⟨i, hi, hs⟩ := List.exists_of_findSome?_eq_some hs
  have hi' : i ∈ x.instrs := List.takeWhile_subset _ hi
  obtain ⟨done, rest, hsplit⟩ := List.append_of_mem hi'
  unfold trivialPhi? at hs
  split at hs
  · rename_i v source hop
    obtain ⟨r, hr, rfl⟩ := Option.map_eq_some_iff.mp hs
    exact ⟨x, done, i, rest, r, v, source, ⟨hx, hsplit, hr⟩, hop, rfl⟩
  · simp at hs

theorem replaceTrivialPhi?_rewrite (h : replaceTrivialPhi? b = some c) : Rewrite b c := by
  obtain ⟨x, done, i, rest, r, v, source, hdef, hop, rfl⟩ := replaceTrivialPhi?_eq_some h
  exact .substitute hdef (.onlyEdge hop)

theorem mergeBlocks_cases (hb : b.Regular f m) :
    (mergeBlocks b).1 = b ∨ ∃ x y, b.Follow x y ∧ (mergeBlocks b).1 = b.joined x y := by
  unfold mergeBlocks
  dsimp only
  split
  · rename_i id y hfind
    obtain ⟨x, hx, hx'⟩ := List.exists_of_findSome?_eq_some hfind
    obtain ⟨y', hy', heq⟩ := Option.map_eq_some_iff.mp hx'
    obtain ⟨rfl, rfl⟩ := Prod.mk.inj heq
    have hfollow := follow_of_follower? hb.valid hb.ids hx hy'
    exact .inr ⟨x, _, hfollow, joinBlocks_eq hb.valid hb.ids hfollow⟩
  · exact .inl rfl

theorem mergeBlocks_derived (h : Derived f m b c) : Derived f m b (mergeBlocks c).1 := by
  rcases mergeBlocks_cases h.regular with heq | ⟨x, y, hfollow, heq⟩
  · rwa [heq]
  · rw [heq]
    exact h.next (.join hfollow)

section Numbering

variable {doms : List (BlockId × List BlockId)} {order : List BlockId}

/-- The computation that is found repeats one that stands before it in the list. -/
theorem repeated?_eq_some {earlier cs : List Computation} {r q : Reg}
    (h : repeated? doms earlier cs = some (r, q)) :
    ∃ before c after e, cs = before ++ c :: after ∧ e ∈ earlier ++ before ∧
      c.result = r ∧ e.result = q ∧ e.op = c.op ∧
      e.block ∈ (doms.lookup c.block).getD [] := by
  induction cs generalizing earlier with
  | nil => simp [repeated?] at h
  | cons c cs ih =>
    unfold repeated? at h
    dsimp only at h
    split at h
    · rename_i e hfind
      obtain ⟨rfl, rfl⟩ := Prod.mk.inj (Option.some.inj h)
      have hmem := List.mem_of_find?_eq_some hfind
      have hcond := List.find?_some hfind
      simp only [decide_eq_true_eq] at hcond
      exact ⟨[], c, cs, e, rfl, by simpa using hmem, rfl, rfl, hcond.1, hcond.2⟩
    · obtain ⟨before, c', after, e, rfl, hmem, hrest⟩ := ih h
      exact ⟨c :: before, c', after, e, rfl, by simpa using hmem, hrest⟩

theorem computation?_eq_some {id : BlockId} {i : Instr} {c : Computation} :
    computation? id i = some c ↔
      isNumberable i.op ∧ i.op = c.op ∧ id = c.block ∧ i.result = some c.result := by
  unfold computation?
  obtain ⟨block, op, result⟩ := c
  by_cases hnum : isNumberable i.op
  · simp only [hnum, if_true, Option.map_eq_some_iff, Computation.mk.injEq, true_and]
    constructor
    · rintro ⟨r, hr, rfl, rfl, rfl⟩
      exact ⟨rfl, rfl, hr⟩
    · rintro ⟨rfl, rfl, hr⟩
      exact ⟨result, hr, rfl, rfl, rfl⟩
  · simp [hnum]

theorem mem_computations (hb : b.ids.Nodup) {c : Computation} (hc : c ∈ computations b order) :
    ∃ x ∈ b.blocks, ∃ i ∈ x.instrs, computation? x.id i = some c := by
  obtain ⟨id, _, hc⟩ := List.mem_flatMap.mp hc
  cases hblock : b.block? id with
  | none => simp [hblock] at hc
  | some x =>
    obtain ⟨hx, rfl⟩ := (Body.block?_eq_some hb).mp hblock
    simp only [hblock, Option.elim_some] at hc
    obtain ⟨i, hi, hcomp⟩ := List.mem_filterMap.mp hc
    exact ⟨x, hx, i, hi, hcomp⟩

/-- An element of a list stands in the part before a later one. -/
theorem pairwise_before {α : Type} (l : List α) :
    l.Pairwise fun a c => ∃ before after, l = before ++ c :: after ∧ a ∈ before := by
  rw [List.pairwise_iff_getElem]
  intro i j hi hj hij
  refine ⟨l.take j, l.drop (j + 1), ?_, ?_⟩
  · rw [← List.drop_eq_getElem_cons hj, List.take_append_drop]
  · exact List.mem_take_iff_getElem.mpr ⟨i, by omega, rfl⟩

/-- Computations of one block are listed in their order. -/
theorem computations_in_order (hb : b.ids.Nodup) (horder : order.Nodup) :
    (computations b order).Pairwise fun e c => e.block = c.block →
      ∃ x ∈ b.blocks, ∃ done i rest, x.instrs = done ++ i :: rest ∧
        computation? x.id i = some c ∧ e.result ∈ definedBy done := by
  refine List.pairwise_flatMap.mpr ⟨?_, ?_⟩
  · intro id _
    cases hblock : b.block? id with
    | none => simp
    | some x =>
      obtain ⟨hx, rfl⟩ := (Body.block?_eq_some hb).mp hblock
      refine List.pairwise_filterMap.mpr ((pairwise_before x.instrs).imp ?_)
      rintro j i ⟨done, rest, hsplit, hj⟩ e he c hc _
      have hres := (computation?_eq_some.mp he).2.2.2
      exact ⟨x, hx, done, i, rest, hsplit, hc, mem_definedBy.mpr ⟨j, hj, hres⟩⟩
  · refine horder.imp ?_
    intro id id' hne e he c hc heq
    have hblock : ∀ {id c}, c ∈ ((b.block? id).elim [] (·.instrs)).filterMap (computation? id) →
        id = c.block := by
      intro id c hc
      obtain ⟨i, _, hi⟩ := List.mem_filterMap.mp hc
      exact (computation?_eq_some.mp hi).2.2.1
    exact absurd ((hblock he).trans (heq.trans (hblock hc).symm)) hne

/-- Merges the first repeated computation, with the order and the dominators of this very body. -/
def mergeFirst? (b : Body) : Option Body :=
  mergeRepeated? (FlowGraph.ofBody b).reversePostorder (FlowGraph.ofBody b).dominators b

/-- The register that is found repeats a computation that is available at its definition. -/
theorem mergeFirst?_eq_some (hb : b.ids.Nodup) (h : mergeFirst? b = some c) :
    ∃ x done i rest r y before j after q, b.Defines x done i rest r ∧
      b.Defines y before j after q ∧ isNumberable i.op ∧ j.op = i.op ∧ b.Reaches x.id ∧
      b.AvailIn x.id done q ∧ c = b.substitute r (.reg q) := by
  obtain ⟨⟨r, q⟩, hfind, rfl⟩ := Option.map_eq_some_iff.mp h
  obtain ⟨before, c, after, e, hsplit, hmem, rfl, rfl, hop, habove⟩ := repeated?_eq_some hfind
  rw [List.nil_append] at hmem
  have hin := computations_in_order hb (FlowGraph.nodup_reversePostorder (FlowGraph.ofBody b))
  rw [hsplit, List.pairwise_append] at hin
  have hc : c ∈ computations b (FlowGraph.ofBody b).reversePostorder := by simp [hsplit]
  have he : e ∈ computations b (FlowGraph.ofBody b).reversePostorder := by simp [hsplit, hmem]
  obtain ⟨y, hy, j, hj, hcompj⟩ := mem_computations hb he
  obtain ⟨_, hjop, hye, hjres⟩ := computation?_eq_some.mp hcompj
  obtain ⟨pre, post, hsplity⟩ := List.append_of_mem hj
  have hdefy : b.Defines y pre j post e.result := ⟨hy, hsplity, hjres⟩
  obtain ⟨row, hrow⟩ : ∃ row, (FlowGraph.ofBody b).dominators.lookup c.block = some row := by
    by_contra hnone
    rw [Option.eq_none_iff_forall_ne_some.mpr fun row hrow => hnone ⟨row, hrow⟩] at habove
    cases habove
  obtain ⟨_, hreach⟩ := FlowGraph.lookup_dominators_ofBody.mp (Option.isSome_of_eq_some hrow)
  rw [hrow, Option.getD_some, FlowGraph.mem_dominators_ofBody hrow] at habove
  by_cases hsame : e.block = c.block
  · obtain ⟨x, hx, done, i, rest, hsplitx, hcompi, hdone⟩ :=
      hin.2.2 e hmem c List.mem_cons_self hsame
    obtain ⟨hnum, hiop, hxc, hires⟩ := computation?_eq_some.mp hcompi
    exact ⟨x, done, i, rest, _, y, pre, j, post, _, ⟨hx, hsplitx, hires⟩, hdefy, hnum,
      hjop.trans (hop.trans hiop.symm), hxc ▸ hreach, .inl hdone, rfl⟩
  · obtain ⟨x, hx, i, hi, hcompi⟩ := mem_computations hb hc
    obtain ⟨hnum, hiop, hxc, hires⟩ := computation?_eq_some.mp hcompi
    obtain ⟨done, rest, hsplitx⟩ := List.append_of_mem hi
    refine ⟨x, done, i, rest, _, y, pre, j, post, _, ⟨hx, hsplitx, hires⟩, hdefy, hnum,
      hjop.trans (hop.trans hiop.symm), hxc ▸ hreach, ?_, rfl⟩
    exact .inr ⟨y, hy, hdefy.mem_definedBy, by rwa [hye, hxc], by rw [hye, hxc]; exact habove.2⟩

theorem mergeFirst?_rewrite (hb : b.ids.Nodup) (h : mergeFirst? b = some c) : Rewrite b c := by
  obtain ⟨x, done, i, rest, r, y, before, j, after, q, hdef, hdefy, hnum, hop, _, havail, rfl⟩ :=
    mergeFirst?_eq_some hb h
  exact .substitute hdef (.repeated hnum hdefy hop havail)

theorem ofBody_substitute (b : Body) (r : Reg) (v : Value) :
    FlowGraph.ofBody (b.substitute r v) = FlowGraph.ofBody b := by
  have hsuccessors : ∀ x : Block, (x.mapOperands (.replace r v)).successors = x.successors := by
    intro x
    simp only [Block.successors, Block.mapOperands]
    cases x.term <;> simp
  refine FlowGraph.ofBody_congr ?_
  simp only [Body.substitute, Body.removeDefinition, Body.filterInstrs, Body.replaceUses,
    Body.mapOperands, List.map_map, Function.comp_def]
  exact List.map_congr_left fun x _ => congrArg (Prod.mk x.id) (hsuccessors x)

/-- Substitutions keep the edges, so the order and the dominators found at first serve all
rounds. -/
theorem numberValues_eq (b : Body) :
    numberValues b = untilStable (roundOf mergeFirst?) (b.instrCount + 1) b := by
  have hkeeps : ∀ a, FlowGraph.ofBody a = FlowGraph.ofBody b → FlowGraph.ofBody (roundOf (mergeRepeated?
      (FlowGraph.ofBody b).reversePostorder (FlowGraph.ofBody b).dominators) a).1 =
        FlowGraph.ofBody b := by
    intro a ha
    refine roundOf_keeps (P := fun a => FlowGraph.ofBody a = FlowGraph.ofBody b)
      (fun a a' ha hstep => ?_) ha
    obtain ⟨p, _, rfl⟩ := Option.map_eq_some_iff.mp hstep
    exact (ofBody_substitute ..).trans ha
  refine untilStable_congr (fun a ha => ?_) hkeeps rfl _
  unfold roundOf mergeFirst?
  rw [ha]

end Numbering

theorem combineInstrs_derived (h : Derived f m b c) : Derived f m b (combineInstrs c) := by
  refine untilStable_keeps (fun a ha => ha.next (dropUnused_rewrite a)) ?_ _
  refine untilStable_keeps (fun a ha => roundOf_keeps (fun a a' ha hstep => ?_) ha) h _
  exact ha.next (simplifyFirst?_rewrite hstep)

theorem numberValues_derived (h : Derived f m b c) : Derived f m b (numberValues c) := by
  rw [numberValues_eq]
  refine untilStable_keeps (fun a ha => roundOf_keeps (fun a a' ha hstep => ?_) ha) h _
  exact ha.next (mergeFirst?_rewrite ha.regular.ids hstep)

theorem simplifyFlow_derived (h : Derived f m b c) : Derived f m b (simplifyFlow c) := by
  refine untilStable_keeps (fun a ha => ?_) h _
  refine mergeBlocks_derived (untilStable_keeps (fun a ha => ?_) (ha.next .prune) _)
  exact roundOf_keeps (fun a a' ha hstep => ha.next (replaceTrivialPhi?_rewrite hstep)) ha

theorem run_derived (p : Pass) (h : Derived f m b c) : Derived f m b (p.run c) := by
  cases p with
  | combine => exact combineInstrs_derived h
  | number => exact numberValues_derived h
  | simplify => exact simplifyFlow_derived h

theorem runPasses_derived (passes : List Pass) (h : Derived f m b c) :
    Derived f m b (runPasses passes c) := by
  unfold runPasses
  induction passes generalizing c with
  | nil => exact h
  | cons p passes ih => exact ih (run_derived p h)

/-- The optimizer is a chain of rewrites. -/
theorem optimizeBody_derived (passes : List Pass) (n : Nat) (h : Derived f m b c) :
    Derived f m b (optimizeBody passes n c) := by
  induction n generalizing c with
  | zero => exact h
  | succ n ih =>
    unfold optimizeBody
    dsimp only
    split
    · exact h
    · exact ih (runPasses_derived passes h)

theorem Rewrite.regTypes (h : Rewrite b c) : c.regTypes = b.regTypes := by
  cases h with
  | substitute _ _ => rfl
  | drop _ _ => rfl
  | prune =>
    exact (sublist_removeUnreachable (g := Block.id) (fun _ _ => rfl) _).2.trans
      (map_foldBranches (g := Block.id) (fun _ _ => rfl) b).2
  | join _ => rfl

theorem Rewrites.regTypes (h : Rewrites b c) : c.regTypes = b.regTypes := by
  induction h with
  | refl => rfl
  | tail _ hstep ih => exact hstep.regTypes.trans ih

end SsaCompiler.Optimize

namespace SsaCompiler.Ir

/-- What generated bodies are like beyond the rules of the verifier: their blocks have different
numbers and can all be reached, the table of types gives every register the type of its
instruction, and comparisons give booleans. -/
structure Body.Orderly (b : Body) : Prop where
  ids : b.ids.Nodup
  reached : ∀ x ∈ b.blocks, b.Reaches x.id
  types : ∀ x ∈ b.blocks, ∀ i ∈ x.instrs, ∀ r, i.result = some r →
    b.regTypes[r]? = some i.ty ∧ (i.op.isCompare → i.ty = .i1)

/-- An orderly body that the verifier accepts is regular. -/
theorem Body.Orderly.regular {f : Function} {m : Module} {b : Body} (h : b.Orderly)
    (hbody : f.body = some b) (hverify : f.verify m = .ok ()) : b.Regular f m := by
  refine ⟨h.ids, (f.verify_eq_ok_iff hbody h.ids).mp hverify, h.reached, ?_⟩
  intro x hx i hi r hr
  obtain ⟨hty, hcompare⟩ := h.types x hx i hi r hr
  refine ⟨?_, hcompare⟩
  simp [Function.typeOf, hbody, hty]

/-- What the optimizer makes of a verified function with an orderly body is derived from it. -/
theorem Function.optimize_derived {f : Function} {m : Module} {b : Body} (hbody : f.body = some b)
    (hverify : f.verify m = .ok ()) (hb : b.Orderly) (passes : List Optimize.Pass) :
    Optimize.Derived f m b (Optimize.optimizeBody passes Optimize.maxRounds b) :=
  Optimize.optimizeBody_derived passes _ (.refl (hb.regular hbody hverify))

/-- The optimizer keeps functions valid: what it makes of a verified function passes again, and all
its blocks can be reached. -/
theorem Function.optimize_verifies (f : Function) (m : Module) (passes : List Optimize.Pass)
    (hverify : f.verify m = .ok ()) (horderly : ∀ b, f.body = some b → b.Orderly) :
    (f.optimize passes).verify m = .ok () ∧
      ∀ b, (f.optimize passes).body = some b → ∀ x ∈ b.blocks, b.Reaches x.id := by
  cases hbody : f.body with
  | none =>
    have hsame : (f.optimize passes).body = none := by simp [optimize, hbody]
    refine ⟨by simp [verify, hsame, pure, Except.pure], fun b hb => ?_⟩
    rw [hsame] at hb
    cases hb
  | some b =>
    have hderived := optimize_derived hbody hverify (horderly b hbody) passes
    have hnew : (f.optimize passes).body =
        some (Optimize.optimizeBody passes Optimize.maxRounds b) := by simp [optimize, hbody]
    have htype : (f.optimize passes).typeOf = f.typeOf := by
      funext v
      cases v with
      | reg r => simp [typeOf, hnew, hbody, hderived.rewrites.regTypes]
      | _ => rfl
    refine ⟨?_, fun c hc => ?_⟩
    · rw [verify_eq_ok_iff hnew hderived.regular.ids]
      exact hderived.regular.valid.congr rfl rfl htype
    · rw [hnew] at hc
      obtain rfl := Option.some.inj hc
      exact hderived.regular.reached

/-- A branch on a comparison of constants whose two ways compute the same sum. -/
def diamondBody : Body where
  blocks := [
    ⟨0, "entry", [⟨some 0, .i1, .icmp .slt (.int 1) (.int 2)⟩,
      ⟨some 1, .i64, .binary .add (.param 0) (.int 0)⟩], some (.condBr (.reg 0) 1 2)⟩,
    ⟨1, "left", [⟨some 2, .i64, .binary .add (.param 0) (.int 0)⟩], some (.br 3)⟩,
    ⟨2, "right", [], some (.br 3)⟩,
    ⟨3, "end", [⟨some 3, .i64, .phi [(.reg 2, 1), (.reg 1, 2)]⟩,
      ⟨some 4, .i64, .call "step" [.reg 3]⟩], some (.ret (some (.reg 4)))⟩]
  regTypes := [.i1, .i64, .i64, .i64, .i64]
  nextBlock := 4

def diamond : Function := ⟨"diamond", [⟨"x", .i64⟩], .i64, some diamondBody⟩

/-- A module that declares what `diamond` calls. -/
def diamondModule : Module := ⟨"diamonds", [⟨"step", [⟨"x", .i64⟩], .i64, none⟩], [], []⟩

theorem diamond_verify : diamond.verify diamondModule = .ok () := rfl

theorem diamondBody_orderly : diamondBody.Orderly where
  ids := by decide
  reached := by
    intro x hx
    refine FlowGraph.mem_reachable_ofBody.mp ?_
    revert x
    decide
  types := by decide

theorem optimize_diamond_verifies :
    diamond.verify diamondModule = .ok () ∧ (∀ b, diamond.body = some b → b.Orderly) ∧
      (diamond.optimize Optimize.standardPasses).verify diamondModule = .ok () ∧
      ∀ b, (diamond.optimize Optimize.standardPasses).body = some b →
        ∀ x ∈ b.blocks, b.Reaches x.id := by
  have horderly : ∀ b, diamond.body = some b → b.Orderly := by
    intro b hb
    obtain rfl := Option.some.inj hb
    exact diamondBody_orderly
  exact ⟨diamond_verify, horderly,
    Function.optimize_verifies diamond diamondModule Optimize.standardPasses diamond_verify horderly⟩

end SsaCompiler.Ir
