import SsaCompiler.Proofs.Meaning.Flow
import SsaCompiler.Proofs.Meaning.Known
import SsaCompiler.Proofs.Meaning.Reduction
import SsaCompiler.Proofs.Optimizer.Passes

/-!
The optimizer keeps the meaning of functions. Every rewrite keeps the outcome of runs, and so does
every chain of rewrites.
-/
namespace SsaCompiler.Optimize

open Ir

variable {α μ : Type} {env : Environment α μ} {args : List (Val α)} {w : μ} {o : Outcome α μ}
  {b c : Body} {f : Function} {m : Module}

/-- A branch on a constant goes where it is decided to go. -/
theorem goesTo?_foldTerminator {ρ : Regs α} {t : Terminator} {s : BlockId}
    (h : t.goesTo? (Value.eval env args ρ) = some s) :
    (foldTerminator t).goesTo? (Value.eval env args ρ) = some s := by
  unfold foldTerminator
  split
  · rename_i target dropped hconst
    unfold constantBranch? at hconst
    split at hconst
    · rename_i taken thenTo elseTo
      cases taken
      · obtain ⟨rfl, _⟩ : elseTo = target ∧ thenTo = dropped := by simpa using hconst
        exact h
      · obtain ⟨rfl, _⟩ : thenTo = target ∧ elseTo = dropped := by simpa using hconst
        exact h
    · cases hconst
  · exact h

theorem runs_prune (hb : b.Regular f m) (h : b.Runs env args w o) :
    (removeUnreachable (foldBranches b).1).1.Runs env args w o := by
  refine prune_induction (Q := fun c => c.Runs env args w o) hb h fun hτ hids _ hprunes hrun => ?_
  rcases hτ with rfl | rfl
  · exact hprunes.runs hids (fun _ _ _ => goesTo?_foldTerminator) (fun _ => rfl) hrun
  · exact hprunes.runs hids (fun _ _ _ h => h) (fun _ => rfl) hrun

/-- Every rewrite keeps the outcome of runs. -/
theorem Rewrite.runs (h : Rewrite b c) (hb : b.Regular f m)
    (horder : ∀ x ∈ b.blocks, ∀ i ∈ x.instrs, OrdersInts f i) (hrun : b.Runs env args w o) :
    c.Runs env args w o := by
  cases h with
  | @substitute x done rest i r v hdef hknown =>
    have hv := hknown.standsFor hb hdef
    have hunused := Body.not_mem_uses_replaceUses (b := b) (hv.ne hb.valid.unique hdef)
    refine Body.runs_filterInstrs (hb.mapOperands ((hv.admits hb hdef).valid hb.valid))
      (Body.dropsUnused_definition hunused) (fun x' hx' i' hi' hp => ?_)
      (hknown.runs hb horder hdef hrun)
    -- the one instruction that goes is the definition
    obtain ⟨y, hy, rfl⟩ := List.mem_map.mp hx'
    obtain ⟨j, hj, rfl⟩ := List.mem_map.mp hi'
    obtain ⟨before, after, hsplit⟩ := List.append_of_mem hj
    have hres : j.result = some r := not_not.mp (of_decide_eq_false hp)
    obtain ⟨_, _, rfl, _⟩ := hdef.unique hb.valid.unique ⟨hy, hsplit, hres⟩
    have hpure := hknown.pure
    cases hop : i.op <;> simp_all [Instr.mapOperands, Op.mapOperands, Op.isPure]
  | drop hp hpure => exact Body.runs_filterInstrs hb hp hpure hrun
  | prune => exact runs_prune hb hrun
  | join hfollow => exact hfollow.runs hb hrun

theorem OrdersInts.mapOperands {σ : Value → Value} {i : Instr} (h : OrdersInts f i)
    (hσ : ∀ v, f.typeOf (σ v) = f.typeOf v) : OrdersInts f (i.mapOperands σ) := by
  intro pred l r hop hpred
  cases hiop : i.op with
  | icmp pred' l' r' =>
    obtain ⟨rfl, rfl, rfl⟩ : pred' = pred ∧ σ l' = l ∧ σ r' = r := by
      simpa [Instr.mapOperands, hiop, Op.mapOperands] using hop
    rw [hσ]
    exact h pred' l' r' hiop hpred
  | _ => simp [Instr.mapOperands, hiop, Op.mapOperands] at hop

theorem OrdersInts.mapIncoming {F : List (Value × BlockId) → List (Value × BlockId)} {i : Instr}
    (h : OrdersInts f i) : OrdersInts f (i.mapIncoming F) := by
  cases hphi : i.op.isPhi with
  | false =>
    rw [Instr.mapIncoming, Op.mapIncoming_of_plain hphi]
    exact h
  | true =>
    obtain ⟨incoming, hiop⟩ := Op.isPhi_iff.mp hphi
    intro pred l r hop
    simp [Instr.mapIncoming, hiop, Op.mapIncoming] at hop

theorem ordersInts_pruned {keep : BlockId → Bool} {live : BlockId → BlockId → Bool}
    {τ : Terminator → Terminator} (h : ∀ x ∈ b.blocks, ∀ i ∈ x.instrs, OrdersInts f i) :
    ∀ x ∈ (b.pruned keep live τ).blocks, ∀ i ∈ x.instrs, OrdersInts f i := by
  intro x' hx' i' hi'
  obtain ⟨x, hx, _, rfl⟩ := Body.mem_blocks_pruned.mp hx'
  obtain ⟨i, hi, rfl⟩ := List.mem_map.mp hi'
  exact (h x hx i hi).mapIncoming

/-- Rewrites ask for no other orders. -/
theorem Rewrite.ordersInts (h : Rewrite b c) (hb : b.Regular f m)
    (horder : ∀ x ∈ b.blocks, ∀ i ∈ x.instrs, OrdersInts f i) :
    ∀ x ∈ c.blocks, ∀ i ∈ x.instrs, OrdersInts f i := by
  cases h with
  | substitute hdef hknown =>
    intro x' hx' i' hi'
    obtain ⟨y, hy, rfl⟩ := List.mem_map.mp hx'
    obtain ⟨x, hx, rfl⟩ := List.mem_map.mp hy
    obtain ⟨i, hi, rfl⟩ := List.mem_map.mp (List.mem_filter.mp hi').1
    exact (horder x hx i hi).mapOperands ((hknown.standsFor hb hdef).admits hb hdef).type
  | drop _ _ =>
    intro x' hx' i hi
    obtain ⟨x, hx, rfl⟩ := List.mem_map.mp hx'
    exact horder x hx i (List.mem_filter.mp hi).1
  | prune =>
    rw [removeUnreachable_eq (wellFormed_foldBranches hb).1, foldBranches_eq hb.ids]
    exact ordersInts_pruned (ordersInts_pruned horder)
  | @join x y hfollow =>
    intro z' hz' i' hi'
    obtain ⟨z, hz, _, rfl⟩ := Body.mem_blocks_joined.mp hz'
    rw [Block.instrs_joined] at hi'
    rcases List.mem_append.mp hi' with hi' | hi'
    · obtain ⟨i, hi, rfl⟩ := List.mem_map.mp hi'
      exact (horder z hz i hi).mapIncoming
    · split at hi'
      · exact horder y hfollow.second i' hi'
      · simp at hi'

/-- A chain of rewrites keeps the outcome of runs. -/
theorem Rewrites.runs (h : Rewrites b c) (hb : b.Regular f m)
    (horder : ∀ x ∈ b.blocks, ∀ i ∈ x.instrs, OrdersInts f i) (hrun : b.Runs env args w o) :
    c.Runs env args w o := by
  have hall : c.Regular f m ∧ (∀ x ∈ c.blocks, ∀ i ∈ x.instrs, OrdersInts f i) ∧
      c.Runs env args w o := by
    induction h with
    | refl => exact ⟨hb, horder, hrun⟩
    | tail _ hstep ih =>
      obtain ⟨hreg, hord, hruns⟩ := ih
      exact ⟨hstep.regular hreg, hstep.ordersInts hreg hord, hstep.runs hreg hord hruns⟩
  exact hall.2.2

end SsaCompiler.Optimize

namespace SsaCompiler.Ir

variable {α μ : Type}

/-- The optimizer keeps the meaning of functions: whatever the environment, every run of a verified
function with an orderly body that returns a value or stops in a call is a run of the optimized
function, with the same value, the same calls and the same state of the world. -/
theorem Function.optimize_runs (f : Function) (m : Module) (passes : List Optimize.Pass)
    (hverify : f.verify m = .ok ()) (horderly : ∀ b, f.body = some b → b.Orderly)
    (horder : ∀ b, f.body = some b → ∀ x ∈ b.blocks, ∀ i ∈ x.instrs, Optimize.OrdersInts f i)
    (env : Environment α μ) (args : List (Val α)) (world : μ) (o : Outcome α μ)
    (hrun : f.Runs env args world o) : (f.optimize passes).Runs env args world o := by
  obtain ⟨b, hbody, hrun⟩ := hrun
  have hderived := optimize_derived hbody hverify (horderly b hbody) passes
  refine ⟨Optimize.optimizeBody passes Optimize.maxRounds b, by simp [optimize, hbody], ?_⟩
  exact hderived.rewrites.runs ((horderly b hbody).regular hbody hverify) (horder b hbody) hrun

/-- A world without memory, in which every call adds one to its argument. -/
def successors : Environment Nat Unit where
  equal := fun a b => a == b
  equal_iff _ _ := beq_iff_eq
  string := id
  string_injective := fun _ _ h => h
  alloca := fun _ _ => none
  load := fun _ _ _ => none
  store := fun _ _ _ => none
  element := fun _ _ _ => none
  call := fun _ _ args =>
    match args with
    | [.int n] => some (.returned (some (.int (n + 1))) ())
    | _ => none

theorem diamond_runs : diamond.Runs successors [.int 41] ()
    (.returned (some (.int 42)) () [⟨"step", [.int 41]⟩]) := by
  refine ⟨diamondBody, rfl, _, rfl, ?_⟩
  refine .step (.instr rfl rfl rfl) (.step (.instr rfl rfl rfl) ?_)
  refine .step (.jump (y := diamondBody.blocks[1]) rfl rfl rfl rfl) ?_
  refine .step (.instr rfl rfl rfl) ?_
  refine .step (.jump (y := diamondBody.blocks[3]) rfl rfl rfl rfl) ?_
  refine .step (.instr rfl rfl rfl) ?_
  exact .ends (.retValue rfl rfl rfl)

theorem diamond_ordersInts : ∀ b, diamond.body = some b →
    ∀ x ∈ b.blocks, ∀ i ∈ x.instrs, Optimize.OrdersInts diamond i := by
  intro b hb
  obtain rfl := Option.some.inj hb
  simp [diamondBody, Optimize.OrdersInts, Function.typeOf, Constant.ty]

theorem optimize_diamond_runs :
    diamond.verify diamondModule = .ok () ∧ (∀ b, diamond.body = some b → b.Orderly) ∧
      (∀ b, diamond.body = some b →
        ∀ x ∈ b.blocks, ∀ i ∈ x.instrs, Optimize.OrdersInts diamond i) ∧
      diamond.Runs successors [.int 41] ()
        (.returned (some (.int 42)) () [⟨"step", [.int 41]⟩]) ∧
      (diamond.optimize Optimize.standardPasses).Runs successors [.int 41] ()
        (.returned (some (.int 42)) () [⟨"step", [.int 41]⟩]) := by
  have horderly : ∀ b, diamond.body = some b → b.Orderly := by
    intro b hb
    obtain rfl := Option.some.inj hb
    exact diamondBody_orderly
  exact ⟨diamond_verify, horderly, diamond_ordersInts, diamond_runs,
    Function.optimize_runs diamond diamondModule Optimize.standardPasses diamond_verify horderly
      diamond_ordersInts successors [.int 41] () _ diamond_runs⟩

end SsaCompiler.Ir
