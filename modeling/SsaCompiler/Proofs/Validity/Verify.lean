import SsaCompiler.Proofs.Validity.Rules

/-!
The verifier accepts exactly the bodies that satisfy the rules. Every check is read back by one
lemma, and the theorem puts them together.
-/
namespace SsaCompiler.Ir

section Checks

variable {ε α β : Type}

theorem require_eq_ok {p : Prop} {_ : Decidable p} {flaw : Flaw} : require p flaw = .ok () ↔ p := by
  unfold require
  by_cases h : p
  · simp [h]
  · simp [h]

theorem bind_eq_ok {x : Except ε α} {f : α → Except ε β} {c : β} :
    (x >>= f) = .ok c ↔ ∃ a, x = .ok a ∧ f a = .ok c := by
  cases x with
  | error e => simp [bind, Except.bind]
  | ok a => simp [bind, Except.bind]

theorem seq_eq_ok {x : Except ε Unit} {f : Unit → Except ε β} {c : β} :
    (x >>= f) = .ok c ↔ x = .ok () ∧ f () = .ok c := by
  rw [bind_eq_ok]
  constructor
  · rintro ⟨⟨⟩, h⟩
    exact h
  · exact fun h => ⟨(), h⟩

theorem forM_eq_ok {xs : List α} {check : α → Except ε Unit} :
    xs.forM check = .ok () ↔ ∀ x ∈ xs, check x = .ok () := by
  induction xs with
  | nil => simp [pure, Except.pure]
  | cons x xs ih =>
    change (check x >>= fun _ => xs.forM check) = .ok () ↔ _
    rw [seq_eq_ok, List.forall_mem_cons]
    exact and_congr_right fun _ => ih

end Checks

namespace Function

variable {f : Function} {m : Module} {label : String}

theorem checkPhi_eq_ok {preds : List BlockId} {past : Bool} {op : Op} :
    checkPhi label preds past op = .ok () ↔
      (op.isPhi = true → past = false) ∧
      ∀ incoming, op = .phi incoming → onePerPred (incoming.map (·.2)) preds := by
  cases op with
  | phi incoming => simp [checkPhi, seq_eq_ok, require_eq_ok, Op.isPhi]
  | _ => simp [checkPhi, Op.isPhi]

/-- The instructions of a block pass if each has the right types, every phi has an edge from each
predecessor, and phis come first. -/
theorem checkInstrs_eq_ok {preds : List BlockId} {past : Bool} {is : List Instr} :
    f.checkInstrs m label preds past is = .ok () ↔
      (∀ i ∈ is, f.checkOp m i.ty i.op = .ok ()) ∧
      (∀ i ∈ is, ∀ incoming, i.op = .phi incoming → onePerPred (incoming.map (·.2)) preds) ∧
      (if past then ∀ i ∈ is, i.op.isPhi = false else PhisFirst is) := by
  induction is generalizing past with
  | nil => cases past <;> simp [checkInstrs, PhisFirst]
  | cons i is ih =>
    simp only [checkInstrs, seq_eq_ok, ih, checkPhi_eq_ok, List.forall_mem_cons, phisFirst_cons]
    cases past <;> cases i.op.isPhi <;> simp <;> tauto

theorem checkBlock_eq_ok {b : Body} {x : Block} :
    f.checkBlock m b (FlowGraph.ofBody b) x = .ok () ↔ b.ShapeOk f m x := by
  have hedges : ∀ incoming : List (Value × BlockId),
      onePerPred (incoming.map (·.2)) ((FlowGraph.ofBody b).preds x.id) ↔
        b.OneEdgeEach x.id incoming := by
    intro incoming
    unfold onePerPred Body.OneEdgeEach
    simp only [FlowGraph.mem_preds]
    constructor
    · rintro ⟨hnd, hsub, hsup⟩
      exact ⟨hnd, fun p => ⟨hsub p, hsup p⟩⟩
    · rintro ⟨hnd, hiff⟩
      exact ⟨hnd, fun p => (hiff p).mp, fun p => (hiff p).mpr⟩
  unfold checkBlock
  cases hterm : x.term with
  | none =>
    constructor
    · intro h
      cases h
    · intro h
      obtain ⟨t, ht, _⟩ := h.term
      rw [hterm] at ht
      cases ht
  | some t =>
    simp only [seq_eq_ok, require_eq_ok, checkInstrs_eq_ok, Body.block?_isSome, hedges,
      Bool.false_eq_true, if_false]
    constructor
    · rintro ⟨htargets, ⟨htyped, hphi, hfirst⟩, ht⟩
      exact ⟨⟨t, hterm, htargets, ht⟩, hfirst, hphi, htyped⟩
    · rintro ⟨⟨t', ht', htargets, hcheck⟩, hfirst, hphi, htyped⟩
      obtain rfl : t = t' := by simpa [hterm] using ht'
      exact ⟨htargets, ⟨htyped, hphi, hfirst⟩, hcheck⟩

end Function

namespace Body

variable {b : Body} {x : Block} {r : Reg} {place : BlockId}

theorem firstRepeated_eq_none {seen rs : List Reg} :
    firstRepeated seen rs = none ↔ rs.Nodup ∧ ∀ r ∈ rs, r ∉ seen := by
  induction rs generalizing seen with
  | nil => simp [firstRepeated]
  | cons r rs ih =>
    by_cases hr : r ∈ seen
    · simp [firstRepeated, hr]
    · simp only [firstRepeated, hr, if_false, ih, List.nodup_cons, List.mem_cons, not_or]
      constructor
      · rintro ⟨hnd, hnew⟩
        refine ⟨⟨fun hmem => (hnew r hmem).1 rfl, hnd⟩, ?_⟩
        rintro s (rfl | hs)
        · exact hr
        · exact (hnew s hs).2
      · rintro ⟨⟨hnot, hnd⟩, hnew⟩
        exact ⟨hnd, fun s hs => ⟨fun heq => hnot (heq ▸ hs), hnew s (.inr hs)⟩⟩

/-- The place of the first definition in a block is before `n` if one of the first `n` instructions
defines the register. -/
theorem findIdx?_lt_iff {is : List Instr} {index n : Nat}
    (h : is.findIdx? (·.result = some r) = some index) :
    index < n ↔ r ∈ definedBy (is.take n) := by
  obtain ⟨hlt, hat, hbefore⟩ := List.findIdx?_eq_some_iff_getElem.mp h
  rw [mem_definedBy]
  constructor
  · intro hn
    refine ⟨is[index], List.mem_take_iff_getElem.mpr ⟨index, by omega, rfl⟩, by simpa using hat⟩
  · rintro ⟨i, hi, hres⟩
    obtain ⟨j, hj, rfl⟩ := List.mem_take_iff_getElem.mp hi
    by_contra hge
    have hnot := hbefore j (by omega)
    simp [hres] at hnot

/-- The definition that is looked up is the one that there is. -/
theorem definition?_of_mem (hu : b.results.Nodup) (hx : x ∈ b.blocks)
    (hr : r ∈ definedBy x.instrs) :
    ∃ index, b.definition? r = some (x.id, index) ∧
      x.instrs.findIdx? (·.result = some r) = some index := by
  have hsome : ∀ y ∈ b.blocks, (y.instrs.findIdx? (·.result = some r)).isSome →
      r ∈ definedBy y.instrs := by
    intro y _ hy
    obtain ⟨i, hi, hres⟩ := List.findIdx?_isSome ▸ hy |> List.any_eq_true.mp
    exact mem_definedBy.mpr ⟨i, hi, by simpa using hres⟩
  obtain ⟨i, hi, hres⟩ := mem_definedBy.mp hr
  have hfound : (x.instrs.findIdx? (·.result = some r)).isSome := by
    rw [List.findIdx?_isSome, List.any_eq_true]
    exact ⟨i, hi, by simpa using hres⟩
  obtain ⟨index, hindex⟩ := Option.isSome_iff_exists.mp hfound
  refine ⟨index, ?_, hindex⟩
  unfold definition?
  cases hlook : b.blocks.findSome? fun y =>
      (y.instrs.findIdx? (·.result = some r)).map (y.id, ·) with
  | none =>
    have hnone := List.findSome?_eq_none_iff.mp hlook x hx
    simp [hindex] at hnone
  | some p =>
    obtain ⟨y, hy, hp⟩ := List.exists_of_findSome?_eq_some hlook
    obtain ⟨j, hj, rfl⟩ := Option.map_eq_some_iff.mp hp
    obtain rfl := definition_unique hu hy hx (hsome y hy (by simp [hj])) hr
    rw [hindex] at hj
    cases hj
    rfl

theorem definition?_eq_none : b.definition? r = none ↔ r ∉ b.results := by
  unfold definition?
  rw [List.findSome?_eq_none_iff, mem_results]
  simp only [Option.map_eq_none_iff, List.findIdx?_eq_none_iff, mem_definedBy]
  simp

/-- A use at the end of a block passes if the register is defined wherever control leaves it. -/
theorem checkUse_out (hu : b.results.Nodup) (hp : place ∈ b.ids) :
    b.checkUse (FlowGraph.ofBody b).dominators r place none = .ok () ↔ b.AvailOut place r := by
  unfold checkUse
  by_cases hr : r ∈ b.results
  · obtain ⟨x, hx, hrx⟩ := mem_results.mp hr
    obtain ⟨index, hdef, _⟩ := definition?_of_mem hu hx hrx
    have hone : b.AvailOut place r ↔ b.Dominates x.id place := by
      constructor
      · rintro ⟨y, hy, hry, hdom⟩
        rwa [definition_unique hu hy hx hry hrx] at hdom
      · exact fun hdom => ⟨x, hx, hrx, hdom⟩
    simp only [hdef, hone]
    cases hlook : (FlowGraph.ofBody b).dominators.lookup place with
    | none =>
      refine iff_of_true rfl fun hpath => ?_
      have hrow := FlowGraph.lookup_dominators_ofBody.mpr ⟨hp, hpath.reach⟩
      simp [hlook] at hrow
    | some above =>
      by_cases hid : x.id = place
      · subst place
        simp only [if_true, require_eq_ok, Option.mem_def, reduceCtorEq, false_implies,
          implies_true, true_iff]
        exact .refl b x.id
      · simp only [hid, if_false, require_eq_ok, FlowGraph.mem_dominators_ofBody hlook]
        exact ⟨fun h => h.2, fun h => ⟨id_mem_ids hx, h⟩⟩
  · rw [definition?_eq_none.mpr hr]
    exact iff_of_false (by simp) fun h => hr h.mem_results

/-- A use inside a block passes if the register has a definition, and in a block that control can
get to that definition lies before the use on every way. -/
theorem checkUse_in (hb : b.ids.Nodup) (hu : b.results.Nodup) (hx : x ∈ b.blocks) (n : Nat) :
    b.checkUse (FlowGraph.ofBody b).dominators r x.id (some n) = .ok () ↔
      r ∈ b.results ∧ (b.Reaches x.id → b.AvailIn x.id (x.instrs.take n) r) := by
  unfold checkUse
  by_cases hr : r ∈ b.results
  · obtain ⟨y, hy, hry⟩ := mem_results.mp hr
    obtain ⟨index, hdef, hindex⟩ := definition?_of_mem hu hy hry
    simp only [hdef, hr, true_and]
    cases hlook : (FlowGraph.ofBody b).dominators.lookup x.id with
    | none =>
      refine iff_of_true rfl fun hreach => ?_
      have hrow := FlowGraph.lookup_dominators_ofBody.mpr ⟨id_mem_ids hx, hreach⟩
      simp [hlook] at hrow
    | some above =>
      have hreach : b.Reaches x.id :=
        (FlowGraph.lookup_dominators_ofBody.mp (by simp [hlook])).2
      simp only [hreach, true_implies]
      by_cases hid : y.id = x.id
      · obtain rfl := eq_of_id_eq hb hy hx hid
        simp only [if_true, require_eq_ok, Option.mem_def, Option.some.injEq, forall_eq',
          findIdx?_lt_iff hindex]
        refine ⟨Or.inl, ?_⟩
        rintro (hmem | ⟨z, hz, hrz, hne, _⟩)
        · exact hmem
        · exact absurd (congrArg (·.id) (definition_unique hu hz hy hrz hry)) hne
      · simp only [hid, if_false, require_eq_ok, FlowGraph.mem_dominators_ofBody hlook]
        constructor
        · exact fun h => .inr ⟨y, hy, hry, hid, h.2⟩
        · rintro (hmem | ⟨z, hz, hrz, _, hdom⟩)
          · have hrx := definedBy_subset (fun _ => List.mem_of_mem_take) hmem
            exact absurd (congrArg (·.id) (definition_unique hu hy hx hry hrx)) hid
          · rw [definition_unique hu hz hy hrz hry] at hdom
            exact ⟨id_mem_ids hy, hdom⟩
  · rw [definition?_eq_none.mpr hr]
    exact iff_of_false (by simp) fun h => hr h.1

theorem checkUses_eq_ok {doms : List (BlockId × List BlockId)} {before : Option Nat}
    {vs : List Value} :
    b.checkUses doms place before vs = .ok () ↔
      ∀ r, .reg r ∈ vs → b.checkUse doms r place before = .ok () := by
  unfold checkUses
  rw [forM_eq_ok]
  constructor
  · intro h r hr
    exact h r (List.mem_filterMap.mpr ⟨.reg r, hr, rfl⟩)
  · intro h r hr
    obtain ⟨v, hv, hreg⟩ := List.mem_filterMap.mp hr
    cases v with
    | reg s =>
      obtain rfl : s = r := by simpa [Value.reg?] using hreg
      exact h s hv
    | _ => simp [Value.reg?] at hreg

/-- The uses of a block pass if they obey the rules. The edges of its phis must come from blocks. -/
theorem checkBlockUses_eq_ok (hb : b.ids.Nodup) (hu : b.results.Nodup) (hx : x ∈ b.blocks)
    (hsources : ∀ i ∈ x.instrs, ∀ incoming, i.op = .phi incoming → ∀ e ∈ incoming, e.2 ∈ b.ids) :
    b.checkBlockUses (FlowGraph.ofBody b).dominators x = .ok () ↔ b.UsesOk x := by
  have hreach : ((FlowGraph.ofBody b).dominators.lookup x.id).isSome ↔ b.Reaches x.id := by
    rw [FlowGraph.lookup_dominators_ofBody]
    exact ⟨fun h => h.2, fun h => ⟨id_mem_ids hx, h⟩⟩
  have hphi : ∀ i ∈ x.instrs, ∀ incoming, i.op = .phi incoming → ∀ n,
      (b.checkInstrUses (FlowGraph.ofBody b).dominators x.id (i, n) = .ok () ↔
        (b.Reaches x.id → ∀ r source, (.reg r, source) ∈ incoming → b.AvailOut source r)) := by
    intro i hi incoming hop n
    unfold checkInstrUses
    simp only [hop]
    by_cases hr : b.Reaches x.id
    · simp only [hreach.mpr hr, if_true, forM_eq_ok, checkUses_eq_ok, List.mem_singleton, hr,
        true_implies, Prod.forall]
      constructor
      · intro h r source hmem
        exact (checkUse_out hu (hsources i hi incoming hop _ hmem)).mp
          (h (.reg r) source hmem r rfl)
      · rintro h v source hmem r rfl
        exact (checkUse_out hu (hsources i hi incoming hop _ hmem)).mpr (h r source hmem)
    · have hnone : ((FlowGraph.ofBody b).dominators.lookup x.id).isSome = false := by
        rw [Bool.eq_false_iff]
        exact fun h => hr (hreach.mp h)
      simp [hnone, hr]
  have hplain : ∀ done i rest, x.instrs = done ++ i :: rest → i.op.isPhi = false →
      (b.checkInstrUses (FlowGraph.ofBody b).dominators x.id (i, done.length) = .ok () ↔
        ∀ r, .reg r ∈ i.op.operands →
          r ∈ b.results ∧ (b.Reaches x.id → b.AvailIn x.id done r)) := by
    intro done i rest heq hnot
    have htake : x.instrs.take done.length = done := by simp [heq]
    have hcheck : b.checkInstrUses (FlowGraph.ofBody b).dominators x.id (i, done.length) =
        b.checkUses (FlowGraph.ofBody b).dominators x.id (some done.length) i.op.operands := by
      unfold checkInstrUses
      cases hop : i.op with
      | phi incoming => simp [hop, Op.isPhi] at hnot
      | _ => rfl
    simp only [hcheck, checkUses_eq_ok, checkUse_in hb hu hx, htake]
  unfold checkBlockUses
  rw [seq_eq_ok, forM_eq_ok, checkUses_eq_ok]
  simp only [checkUse_out hu (id_mem_ids hx)]
  constructor
  · rintro ⟨hinstrs, hterm⟩
    refine ⟨?_, ?_, ?_⟩
    · intro done i rest heq hnot
      refine (hplain done i rest heq hnot).mp (hinstrs (i, done.length) ?_)
      exact List.mem_zipIdx_iff_getElem?.mpr (by simp [heq])
    · intro hr i hi incoming hop
      obtain ⟨n, hn⟩ := List.mem_iff_getElem?.mp hi
      exact (hphi i hi incoming hop n).mp
        (hinstrs (i, n) (List.mem_zipIdx_iff_getElem?.mpr hn)) hr
    · intro t ht
      simpa [ht] using hterm
  · rintro ⟨huses, hphis, hterm⟩
    constructor
    · rintro ⟨i, n⟩ hin
      have hat : x.instrs[n]? = some i := List.mem_zipIdx_iff_getElem?.mp hin
      have hi : i ∈ x.instrs := List.mem_of_getElem? hat
      cases hop : i.op.isPhi with
      | true =>
        obtain ⟨incoming, hinc⟩ := Op.isPhi_iff.mp hop
        exact (hphi i hi incoming hinc n).mpr fun hr => hphis hr i hi incoming hinc
      | false =>
        obtain ⟨hlt, hget⟩ := List.getElem?_eq_some_iff.mp hat
        have heq : x.instrs = x.instrs.take n ++ i :: x.instrs.drop (n + 1) := by
          rw [← hget, ← List.drop_eq_getElem_cons hlt, List.take_append_drop]
        have h := (hplain _ i _ heq hop).mpr (huses _ i _ heq hop)
        rwa [List.length_take, Nat.min_eq_left hlt.le] at h
    · cases ht : x.term with
      | none => simp
      | some t => exact hterm t ht

end Body

/-- The edges of a phi that passes come from blocks of the body. -/
theorem Body.ShapeOk.sources {f : Function} {m : Module} {b : Body} {x : Block} (h : b.ShapeOk f m x)
    {i : Instr} (hi : i ∈ x.instrs) {incoming : List (Value × BlockId)} (hop : i.op = .phi incoming)
    {e : Value × BlockId} (he : e ∈ incoming) : e.2 ∈ b.ids := by
  obtain ⟨y, hy, hid, _⟩ := ((h.edges i hi incoming hop).2 e.2).mp (List.mem_map_of_mem he)
  exact mem_ids.mpr ⟨y, hy, hid⟩

/-- What the verifier checks, one after the other. -/
theorem Function.verify_eq_ok {f : Function} {m : Module} {b : Body} (hbody : f.body = some b) :
    f.verify m = .ok () ↔ b.blocks ≠ [] ∧ (∀ u, ¬ b.Leads u b.entry) ∧ b.results.Nodup ∧
      (∀ x ∈ b.blocks, b.ShapeOk f m x) ∧
      ∀ x ∈ b.blocks, b.checkBlockUses (FlowGraph.ofBody b).dominators x = .ok () := by
  unfold Function.verify
  simp only [hbody]
  cases hentry : b.entryId? with
  | none =>
    have hnil : b.blocks = [] := by simpa [Body.entryId?] using hentry
    exact iff_of_false (by intro h; cases h) fun h => h.1 hnil
  | some e =>
    have he : b.entry = e := by simp [Body.entry, hentry]
    have hne : b.blocks ≠ [] := by
      intro hnil
      simp [Body.entryId?, hnil] at hentry
    have hstart : (FlowGraph.ofBody b).preds e = [] ↔ ∀ u, ¬ b.Leads u b.entry := by
      rw [List.eq_nil_iff_forall_not_mem, he]
      simp only [FlowGraph.mem_preds]
    simp only [seq_eq_ok, require_eq_ok, hstart]
    cases hrep : Body.firstRepeated [] b.results with
    | some r =>
      refine iff_of_false (by rintro ⟨_, h⟩; cases h) fun h => ?_
      have hnone := Body.firstRepeated_eq_none.mpr ⟨h.2.2.1, fun r _ => List.not_mem_nil⟩
      rw [hrep] at hnone
      cases hnone
    | none =>
      have hu : b.results.Nodup := (Body.firstRepeated_eq_none.mp hrep).1
      simp only [seq_eq_ok, forM_eq_ok, Function.checkBlock_eq_ok]
      exact ⟨fun h => ⟨hne, h.1, hu, h.2⟩, fun h => ⟨h.2.1, h.2.2.2⟩⟩

/-- The verifier accepts a function if and only if its body satisfies the rules. -/
theorem Function.verify_eq_ok_iff {f : Function} {m : Module} {b : Body} (hbody : f.body = some b)
    (hb : b.ids.Nodup) : f.verify m = .ok () ↔ b.Valid f m := by
  rw [Function.verify_eq_ok hbody]
  have huses : b.results.Nodup → (∀ x ∈ b.blocks, b.ShapeOk f m x) → ∀ x ∈ b.blocks,
      (b.checkBlockUses (FlowGraph.ofBody b).dominators x = .ok () ↔ b.UsesOk x) :=
    fun hu hshape x hx => Body.checkBlockUses_eq_ok hb hu hx
      fun _ hi _ hop _ he => (hshape x hx).sources hi hop he
  constructor
  · rintro ⟨hne, hstart, hu, hshape, hchecks⟩
    exact ⟨hne, hstart, hu, hshape, fun x hx => (huses hu hshape x hx).mp (hchecks x hx)⟩
  · intro h
    exact ⟨h.nonempty, h.start, h.unique, h.shape, fun x hx =>
      (huses h.unique h.shape x hx).mpr (h.uses x hx)⟩

end SsaCompiler.Ir
