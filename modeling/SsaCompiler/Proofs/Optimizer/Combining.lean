import SsaCompiler.Proofs.Optimizer.Thinning

/-!
Combining instructions comes to an end and leaves a normal form: no instruction has a value that is
known, and every pure instruction is used. Calls, stores and stack slots all stay, in their order. A body
in this form is not changed again.
-/
namespace SsaCompiler.Ir

/-- An operation whose value is known where its result is `r`. -/
inductive Op.Reducible (r : Reg) : Op → Prop
  | ints {op : BinOp} {a b n : Int64} : op.onInts? a b = some n →
      Reducible r (.binary op (.int a) (.int b))
  | floats {op : BinOp} {x y z : Double} : op.onFloats? x y = some z →
      Reducible r (.binary op (.float x) (.float y))
  | neutralRight {op : BinOp} {v : Value} {n : Int64} :
      n = 0 ∧ (op = .add ∨ op = .sub) ∨ n = 1 ∧ (op = .mul ∨ op = .sdiv) →
      Reducible r (.binary op v (.int n))
  | neutralLeft {op : BinOp} {v : Value} {n : Int64} : n = 0 ∧ op = .add ∨ n = 1 ∧ op = .mul →
      Reducible r (.binary op (.int n) v)
  | compareInts (pred : IntPred) (a b : Int64) : Reducible r (.icmp pred (.int a) (.int b))
  | compareBools (pred : IntPred) (a b : Bool) : Reducible r (.icmp pred (.bool a) (.bool b))
  | compareStrings {pred : IntPred} (i j : Nat) : pred = .eq ∨ pred = .ne →
      Reducible r (.icmp pred (.global i) (.global j))
  | compareFloats (pred : FloatPred) (x y : Double) : Reducible r (.fcmp pred (.float x) (.float y))
  /-- Every edge carries one value, which is no register, or the result itself. -/
  | merge {incoming : List (Value × BlockId)} {v : Value} : (∀ q, v ≠ .reg q) →
      (∃ e ∈ incoming, e.1 = v) → (∀ e ∈ incoming, e.1 = v ∨ e.1 = .reg r) →
      Reducible r (.phi incoming)

/-- Nothing is left to combine. -/
structure Body.Combined (b : Body) : Prop where
  irreducible : ∀ x ∈ b.blocks, ∀ i ∈ x.instrs, ∀ r, i.result = some r → ¬ i.op.Reducible r
  used : ∀ x ∈ b.blocks, ∀ i ∈ x.instrs, ∀ r, i.result = some r → i.op.isPure → r ∈ b.uses

/-- The calls, stores and stack slots of a block, in order. -/
def Block.effects (x : Block) : List Instr := x.instrs.filter (!·.op.isPure)

end SsaCompiler.Ir

namespace SsaCompiler.Optimize

open Ir

section Folding

variable {r : Reg} {op : Op} {l v : Value}

theorem foldBinary_isSome {op : BinOp} :
    (foldBinary op l v).isSome ↔ (Op.binary op l v).Reducible r := by
  constructor
  · intro h
    unfold foldBinary at h
    split at h
    · obtain ⟨n, hn⟩ := Option.isSome_iff_exists.mp ((Option.isSome_map ..).symm.trans h)
      exact .ints hn
    · obtain ⟨z, hz⟩ := Option.isSome_iff_exists.mp ((Option.isSome_map ..).symm.trans h)
      exact .floats hz
    · split at h
      · next hv =>
        obtain ⟨rfl, hop⟩ := hv
        exact .neutralRight (.inl ⟨rfl, hop⟩)
      · split at h
        · next hl =>
          obtain ⟨rfl, hop⟩ := hl
          exact .neutralLeft (.inl ⟨rfl, hop⟩)
        · split at h
          · next hv =>
            obtain ⟨rfl, hop⟩ := hv
            exact .neutralRight (.inr ⟨rfl, hop⟩)
          · split at h
            · next hl =>
              obtain ⟨rfl, hop⟩ := hl
              exact .neutralLeft (.inr ⟨rfl, hop⟩)
            · cases h
  · intro h
    cases h with
    | ints hn => simp [foldBinary, hn]
    | floats hz => simp [foldBinary, hz]
    | neutralRight hneutral =>
      rcases hneutral with ⟨rfl, rfl | rfl⟩ | ⟨rfl, rfl | rfl⟩ <;>
        rcases l with (_ | _ | _ | _) | _ | _ | _ <;> simp [foldBinary, BinOp.onInts?]
    | neutralLeft hneutral =>
      rcases hneutral with ⟨rfl, rfl⟩ | ⟨rfl, rfl⟩ <;>
        rcases v with (_ | _ | _ | _) | _ | _ | _ <;> simp [foldBinary, BinOp.onInts?]

theorem foldPhi_isSome {incoming : List (Value × BlockId)} :
    (foldPhi r incoming).isSome ↔ (Op.phi incoming).Reducible r := by
  constructor
  · intro h
    obtain ⟨v, hv⟩ := Option.isSome_iff_exists.mp h
    obtain ⟨hreg, hsome, hall⟩ := foldPhi_cases hv
    exact .merge hreg hsome hall
  · rintro (_ | _ | _ | _ | _ | _ | _ | _ | ⟨hreg, ⟨e, he, rfl⟩, hall⟩)
    have hvalues : ∀ w ∈ (incoming.map (·.1)).filter (· ≠ .reg r), w = e.1 := by
      intro w hw
      obtain ⟨hw, hne⟩ := List.mem_filter.mp hw
      obtain ⟨d, hd, rfl⟩ := List.mem_map.mp hw
      exact (hall d hd).resolve_right (by simpa using hne)
    have hmem : e.1 ∈ (incoming.map (·.1)).filter (· ≠ .reg r) :=
      List.mem_filter.mpr ⟨List.mem_map_of_mem he, by simpa using hreg r⟩
    unfold foldPhi
    split
    · next hnil =>
      rw [hnil] at hmem
      cases hmem
    · next w ws hcons =>
      rw [hcons] at hvalues
      obtain ⟨rfl, hws⟩ := List.forall_mem_cons.mp hvalues
      have hnone : e.1.reg?.isNone := by
        cases hreg? : e.1.reg? with
        | none => rfl
        | some q => exact absurd (Value.reg?_eq_some.mp hreg?) (hreg q)
      rw [if_pos ⟨hnone, hws⟩]
      rfl

theorem foldIcmp_isSome {pred : IntPred} :
    (foldIcmp pred l v).isSome ↔ (Op.icmp pred l v).Reducible r := by
  constructor
  · intro h
    unfold foldIcmp at h
    split at h
    · exact .compareInts ..
    · exact .compareBools ..
    · refine .compareStrings _ _ ?_
      cases pred <;> simp_all [IntPred.onGlobals?]
    · cases h
  · rintro (_ | _ | _ | _ | _ | _ | ⟨_, _, rfl | rfl⟩) <;> rfl

theorem foldFcmp_isSome {pred : FloatPred} :
    (foldFcmp pred l v).isSome ↔ (Op.fcmp pred l v).Reducible r := by
  constructor
  · intro h
    unfold foldFcmp at h
    split at h
    · exact .compareFloats ..
    · cases h
  · rintro (_ | _ | _ | _ | _ | _ | _ | _)
    rfl

/-- A value is found exactly for the operations whose value is known. -/
theorem simplify?_isSome : (simplify? r op).isSome ↔ op.Reducible r := by
  cases op with
  | binary op l v => exact foldBinary_isSome
  | phi incoming => exact foldPhi_isSome
  | icmp pred l v => exact foldIcmp_isSome
  | fcmp pred l v => exact foldFcmp_isSome
  | _ => exact ⟨fun h => by simp [simplify?] at h, fun h => by cases h⟩

end Folding

section Loops

variable {b c : Body} {p : Instr → Bool}

theorem simplifyFirst?_eq_none : simplifyFirst? b = none ↔
    ∀ x ∈ b.blocks, ∀ i ∈ x.instrs, ∀ r, i.result = some r → ¬ i.op.Reducible r := by
  have hinstr : ∀ i : Instr, (i.result.bind fun r => (simplify? r i.op).map (r, ·)) = none ↔
      ∀ r, i.result = some r → ¬ i.op.Reducible r := by
    intro i
    simp [Option.bind_eq_none_iff, ← simplify?_isSome]
  simp only [simplifyFirst?, simplification?, Option.map_eq_none_iff, List.findSome?_eq_none_iff,
    hinstr]

theorem instrCount_filterInstrs (p : Instr → Bool) (b : Body) :
    (b.filterInstrs p).instrCount = ((b.blocks.flatMap (·.instrs)).filter p).length := by
  simp [Body.instrCount, Body.filterInstrs, List.flatMap_map, List.filter_flatMap]

theorem dropUnused_less (hchanged : (dropUnused b).2 = true) :
    (dropUnused b).1.instrCount < b.instrCount := by
  have hle : (dropUnused b).1.instrCount ≤ b.instrCount := by
    rw [dropUnused, instrCount_filterInstrs]
    exact List.length_filter_le _ _
  have hne : (dropUnused b).1.instrCount ≠ b.instrCount := by simpa [dropUnused] using hchanged
  exact Nat.lt_of_le_of_ne hle hne

/-- A round that reports no change has kept every instruction. -/
theorem live_of_unchanged (h : (dropUnused b).2 = false) :
    ∀ x ∈ b.blocks, ∀ i ∈ x.instrs, isLive b.uses i = true := by
  have hcount : (dropUnused b).1.instrCount = b.instrCount := by simpa [dropUnused] using h
  rw [dropUnused, instrCount_filterInstrs] at hcount
  intro x hx i hi
  exact List.length_filter_eq_length_iff.mp hcount i (List.mem_flatMap.mpr ⟨x, hx, hi⟩)

theorem dropUnused_of_live (h : ∀ x ∈ b.blocks, ∀ i ∈ x.instrs, isLive b.uses i = true) :
    dropUnused b = (b, false) := by
  simp [dropUnused, Body.filterInstrs_eq_self h]

theorem isLive_iff {used : List Reg} {i : Instr} : isLive used i = true ↔
    ∀ r, i.result = some r → i.op.isPure → r ∈ used := by
  unfold isLive
  cases i.result with
  | none => simp
  | some r =>
    cases i.op.isPure <;> simp

theorem combineInstrs_of_combined (h : b.Combined) : combineInstrs b = b := by
  have hfirst : roundOf simplifyFirst? b = (b, false) := by
    simp [roundOf, simplifyFirst?_eq_none.mpr h.irreducible]
  have hlast : dropUnused b = (b, false) :=
    dropUnused_of_live fun x hx i hi => isLive_iff.mpr (h.used x hx i hi)
  rw [combineInstrs, untilStable_of_eq hfirst, eliminateDeadCode, untilStable_of_eq hlast]

theorem simplifyFirst_settles (b : Body) : Settles (roundOf simplifyFirst?) b
    (untilStable (roundOf simplifyFirst?) (b.instrCount + 1) b) := by
  refine roundOf_settles (P := fun _ => True) Body.instrCount (fun _ _ h _ => h)
    (fun a a' _ hstep => ?_) trivial
  obtain ⟨x, hx, i, hi, r, v, hr, _, rfl⟩ := simplifyFirst?_eq_some hstep
  exact (substitute_lt hx hi hr v).1

theorem eliminateDeadCode_settles (b : Body) : Settles dropUnused b (eliminateDeadCode b) :=
  untilStable_settles (P := fun _ => True) Body.instrCount (fun _ h => h)
    (fun _ _ => dropUnused_less) trivial (Nat.lt_succ_self _)

/-- Dropping instructions makes no other one reducible. -/
theorem eliminateDeadCode_combined (h : simplifyFirst? b = none) : (eliminateDeadCode b).Combined := by
  have hkeeps : ∀ a, simplifyFirst? a = none → simplifyFirst? (dropUnused a).1 = none := by
    intro a ha
    rw [simplifyFirst?_eq_none] at ha ⊢
    intro y hy i hi
    obtain ⟨x, hx, rfl⟩ := List.mem_map.mp hy
    exact ha x hx i (List.mem_filter.mp hi).1
  obtain ⟨a, ha, hlast⟩ := (eliminateDeadCode_settles b).exists_last hkeeps h
  have hlive := live_of_unchanged (congrArg Prod.snd hlast)
  rw [dropUnused_of_live hlive] at hlast
  obtain ⟨rfl, _⟩ := Prod.mk.inj hlast
  exact ⟨simplifyFirst?_eq_none.mp ha, fun x hx i hi => isLive_iff.mp (hlive x hx i hi)⟩

end Loops

section Frame

variable {b c : Body} {r : Reg} {σ : Value → Value} {gone : Reg → Bool}

/-- `c` is `b` thinned out, and only registers that have no definition any more are replaced. -/
structure Reduces (b : Body) (σ : Value → Value) (gone : Reg → Bool) (c : Body) : Prop where
  eq : c = b.thinned σ gone
  fixed : ∀ v, σ v ≠ v → ∃ r, v = .reg r ∧ r ∉ c.results

theorem Reduces.refl (b : Body) : Reduces b (fun v => v) (fun _ => false) b :=
  ⟨b.thinned_none.symm, fun _ hne => absurd rfl hne⟩

theorem mem_results_substitute {s : Reg} {v : Value} (h : s ∈ (c.substitute r v).results) :
    s ∈ c.results ∧ s ≠ r := by
  refine ⟨?_, ?_⟩
  · have hmem := (Body.results_filterInstrs _ _).mem h
    rwa [Body.replaceUses, Body.results_mapOperands] at hmem
  · rintro rfl
    obtain ⟨x, hx, hs⟩ := Body.mem_results.mp h
    obtain ⟨y, _, rfl⟩ := List.mem_map.mp hx
    obtain ⟨i, hi, hres⟩ := mem_definedBy.mp hs
    simpa [hres] using (List.mem_filter.mp hi).2

theorem Reduces.simplifyFirst? (hu : b.results.Nodup) (h : Reduces b σ gone c) {c' : Body}
    (hstep : simplifyFirst? c = some c') : ∃ σ' gone', Reduces b σ' gone' c' := by
  obtain ⟨rfl, hfixed⟩ := h
  obtain ⟨x', hx', i', hi', r, v, hr, hv, rfl⟩ := simplifyFirst?_eq_some hstep
  obtain ⟨x, hx, _, hinstrs⟩ := Body.mem_blocks_thinned hx'
  rw [hinstrs] at hi'
  obtain ⟨i, hi, rfl⟩ := List.mem_map.mp hi'
  have hpure : ∀ y ∈ b.blocks, ∀ j ∈ y.instrs, j.result = some r → j.op.isPure := by
    intro y hy j hj hres
    rw [Body.eq_of_result hu hy hj hx (List.mem_filter.mp hi).1 hres hr]
    simpa [Instr.mapOperands] using simplify?_pure hv
  refine ⟨_, _, Body.thinned_substitute hpure, fun u hne => ?_⟩
  rcases Value.changed_of_replace hne with rfl | hold
  · exact ⟨r, rfl, fun hmem => (mem_results_substitute hmem).2 rfl⟩
  · obtain ⟨s, rfl, hs⟩ := hfixed u hold
    exact ⟨s, rfl, fun hmem => hs (mem_results_substitute hmem).1⟩

theorem Reduces.dropUnused (h : Reduces b σ gone c) :
    ∃ gone', Reduces b σ gone' (dropUnused c).1 := by
  refine ⟨fun s => gone s || decide (s ∉ c.uses), ?_, fun v hne => ?_⟩
  · have hboth : ∀ i : Instr, (isLive c.uses i && i.stays gone) =
        i.stays fun s => gone s || decide (s ∉ c.uses) := by
      intro i
      unfold isLive Instr.stays
      cases i.result with
      | none => simp
      | some s => cases i.op.isPure <;> simp [Bool.and_comm]
    rw [Optimize.dropUnused, h.eq]
    dsimp only
    rw [Body.thinned, Body.filterInstrs_filterInstrs, ← Body.thinned, ← h.eq]
    exact Body.filterInstrs_congr fun x _ i _ => hboth i
  · obtain ⟨r, rfl, hr⟩ := h.fixed v hne
    exact ⟨r, rfl, fun hmem => hr ((Body.results_filterInstrs _ _).mem hmem)⟩

/-- Thinning keeps the effects of every block. -/
theorem effects_thinned (b : Body) (σ : Value → Value) (gone : Reg → Bool) :
    (b.thinned σ gone).blocks.map (fun x => (x.id, x.effects)) =
      b.blocks.map fun x => (x.id, x.effects.map (Instr.mapOperands σ)) := by
  have hkept : ∀ i : Instr, (!(i.mapOperands σ).op.isPure && (i.mapOperands σ).stays gone) =
      !i.op.isPure := by
    intro i
    cases hpure : i.op.isPure <;> simp [Instr.stays, Instr.mapOperands, hpure]
  simp [Body.thinned, Body.mapOperands, Body.filterInstrs, Block.effects, Block.mapOperands,
    List.filter_filter, List.filter_map, Function.comp_def, hkept]

end Frame

/-- Combining instructions comes to an end, in its loop over known values and in its loop over unused
ones. What it leaves is combined and has all effects of the body, so combining it again changes
nothing. -/
theorem combineInstrs_normal (b : Body) (hu : b.results.Nodup) :
    (∃ c, Settles (roundOf simplifyFirst?) b c ∧ Settles dropUnused c (combineInstrs b)) ∧
      (combineInstrs b).Combined ∧
      (∃ σ, (combineInstrs b).blocks.map (fun x => (x.id, x.effects)) =
          b.blocks.map (fun x => (x.id, x.effects.map (Instr.mapOperands σ))) ∧
        ∀ v, σ v ≠ v → ∃ r, v = .reg r ∧ r ∉ (combineInstrs b).results) ∧
      combineInstrs (combineInstrs b) = combineInstrs b := by
  let Reached : Body → Prop := fun c => ∃ σ gone, Reduces b σ gone c
  have hfirst := simplifyFirst_settles b
  have hcombined : (combineInstrs b).Combined := eliminateDeadCode_combined hfirst.step_eq_none
  have hreached : Reached (combineInstrs b) := by
    refine untilStable_keeps (fun a ⟨σ, gone, h⟩ => ⟨σ, h.dropUnused⟩) ?_ _
    refine untilStable_keeps (fun a ha => roundOf_keeps (fun a a' ⟨_, _, h⟩ hstep => ?_) ha)
      ⟨_, _, .refl b⟩ _
    exact h.simplifyFirst? hu hstep
  obtain ⟨σ, gone, h⟩ := hreached
  refine ⟨⟨_, hfirst, eliminateDeadCode_settles _⟩, hcombined, ⟨σ, ?_, h.fixed⟩,
    combineInstrs_of_combined hcombined⟩
  rw [h.eq, effects_thinned]

/-- A product of constants that is stored and merged with itself in a loop, and a sum that only an unused
product uses. -/
def remainders : Body where
  blocks := [⟨0, "entry", [⟨some 0, .ptr .i64, .alloca .i64⟩,
      ⟨some 1, .i64, .binary .add (.int 1) (.int 1)⟩, ⟨some 2, .i64, .binary .mul (.reg 1) (.int 3)⟩,
      ⟨none, .void, .store (.reg 2) (.reg 0)⟩, ⟨some 3, .i64, .binary .add (.param 0) (.int 7)⟩,
      ⟨some 4, .i64, .binary .mul (.reg 3) (.reg 3)⟩], some (.br 1)⟩,
    ⟨1, "loop", [⟨some 5, .i64, .phi [(.reg 2, 0), (.reg 5, 1)]⟩,
      ⟨some 6, .i64, .call "step" [.reg 5]⟩, ⟨some 7, .i64, .binary .sdiv (.reg 6) (.int 1)⟩,
      ⟨some 8, .i1, .icmp .slt (.reg 7) (.int 0)⟩], some (.condBr (.reg 8) 1 2)⟩,
    ⟨2, "end", [], some (.ret (some (.reg 7)))⟩]
  regTypes := [.ptr .i64, .i64, .i64, .i64, .i64, .i64, .i64, .i64, .i1]
  nextBlock := 3

theorem remainders_normal : remainders.results.Nodup ∧ (combineInstrs remainders).blocks =
      [⟨0, "entry", [⟨some 0, .ptr .i64, .alloca .i64⟩, ⟨none, .void, .store (.int 6) (.reg 0)⟩],
        some (.br 1)⟩,
        ⟨1, "loop", [⟨some 6, .i64, .call "step" [.int 6]⟩,
          ⟨some 8, .i1, .icmp .slt (.reg 6) (.int 0)⟩], some (.condBr (.reg 8) 1 2)⟩,
        ⟨2, "end", [], some (.ret (some (.reg 6)))⟩] ∧
    (combineInstrs remainders).Combined ∧
    combineInstrs (combineInstrs remainders) = combineInstrs remainders := by
  have hresults : remainders.results.Nodup := by decide
  have hall := combineInstrs_normal remainders hresults
  exact ⟨hresults, by decide, hall.2.1, hall.2.2.2⟩

end SsaCompiler.Optimize
