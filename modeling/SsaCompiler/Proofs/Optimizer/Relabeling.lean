import SsaCompiler.Optimize.Pipeline
import SsaCompiler.Proofs.Validity.Substitution

/-!
The optimizer does not look at the numbers of strings, only at whether they are the same. Renumbering
the strings of a body so that different strings stay different, and then optimizing, is the same as
optimizing first.
-/
namespace SsaCompiler.Ir

/-- The value with the strings renumbered. -/
def Value.relabel (ρ : Nat → Nat) : Value → Value
  | .global i => .global (ρ i)
  | v => v

section

variable {ρ : Nat → Nat} {v w : Value} {r : Reg} {c : Constant}

@[simp] theorem Value.relabel_eq_reg : v.relabel ρ = .reg r ↔ v = .reg r := by
  cases v <;> simp [relabel]

@[simp] theorem Value.relabel_eq_const : v.relabel ρ = .const c ↔ v = .const c := by
  cases v <;> simp [relabel]

@[simp] theorem Value.reg?_relabel : (v.relabel ρ).reg? = v.reg? := by cases v <;> rfl

theorem Value.relabel_injective (hρ : ρ.Injective) : (Value.relabel ρ).Injective := by
  intro v w h
  cases v <;> cases w <;> simp_all [relabel, hρ.eq_iff]

theorem Value.replace_relabel (x : Value) :
    Value.replace r (v.relabel ρ) (x.relabel ρ) = (Value.replace r v x).relabel ρ := by
  by_cases hx : x = .reg r
  · simp [replace, hx, relabel]
  · simp [replace, hx]

end

section Maps

variable {σ τ : Value → Value} {b : Body}

theorem Op.mapOperands_mapOperands (op : Op) :
    (op.mapOperands τ).mapOperands σ = op.mapOperands (σ ∘ τ) := by
  cases op <;> simp [mapOperands, Function.comp_def]

theorem Terminator.mapOperands_mapOperands (t : Terminator) :
    (t.mapOperands τ).mapOperands σ = t.mapOperands (σ ∘ τ) := by
  cases t <;> simp [mapOperands, Function.comp_def]

theorem Block.mapOperands_mapOperands (x : Block) :
    (x.mapOperands τ).mapOperands σ = x.mapOperands (σ ∘ τ) := by
  simp [mapOperands, Instr.mapOperands, Op.mapOperands_mapOperands,
    Terminator.mapOperands_mapOperands, Function.comp_def]

@[simp] theorem Block.id_mapOperands (x : Block) : (x.mapOperands σ).id = x.id := rfl

theorem Body.mapOperands_mapOperands (b : Body) :
    (b.mapOperands τ).mapOperands σ = b.mapOperands (σ ∘ τ) := by
  simp [mapOperands, Block.mapOperands_mapOperands, Function.comp_def]

theorem Body.mapOperands_id (b : Body) : b.mapOperands (fun v => v) = b := by
  have hinstr : (Instr.mapOperands fun v => v) = id := funext fun i => by
    simp [Instr.mapOperands, Op.mapOperands_id]
  have hterm : (Terminator.mapOperands fun v => v) = id := funext fun t => by
    cases t <;> simp [Terminator.mapOperands]
  have hblock : (Block.mapOperands fun v => v) = id := funext fun x => by
    simp [Block.mapOperands, hinstr, hterm]
  simp [mapOperands, hblock]

theorem Body.filterInstrs_mapOperands {p : Instr → Bool} (hp : ∀ i, p (i.mapOperands σ) = p i) :
    (b.mapOperands σ).filterInstrs p = (b.filterInstrs p).mapOperands σ := by
  simp [filterInstrs, mapOperands, Block.mapOperands, List.filter_map, Function.comp_def, hp]

theorem Body.updateBlock_mapOperands {f g : Block → Block} (id : BlockId)
    (hf : ∀ x, g (x.mapOperands σ) = (f x).mapOperands σ) :
    (b.mapOperands σ).updateBlock id g = (b.updateBlock id f).mapOperands σ := by
  simp only [updateBlock, mapOperands, Body.mk.injEq, and_true]
  exact modifyFirst_map (fun _ => rfl) hf b.blocks

theorem Body.removeBlock_mapOperands (id : BlockId) :
    (b.mapOperands σ).removeBlock id = (b.removeBlock id).mapOperands σ := by
  simp only [removeBlock, mapOperands, List.eraseP_map]
  rfl

theorem Body.block?_mapOperands (id : BlockId) :
    (b.mapOperands σ).block? id = (b.block? id).map (Block.mapOperands σ) := by
  simp only [block?, mapOperands, List.find?_map]
  rfl

@[simp] theorem Body.instrCount_mapOperands : (b.mapOperands σ).instrCount = b.instrCount := by
  simp [instrCount, mapOperands, Function.comp_def, Block.mapOperands]

@[simp] theorem Block.successors_mapOperands (x : Block) :
    (x.mapOperands σ).successors = x.successors := by
  cases hx : x.term <;> simp [successors, mapOperands, hx]

@[simp] theorem Body.entryId?_mapOperands : (b.mapOperands σ).entryId? = b.entryId? := by
  simp [entryId?, mapOperands, Function.comp_def]

@[simp] theorem FlowGraph.ofBody_mapOperands (b : Body) :
    FlowGraph.ofBody (b.mapOperands σ) = FlowGraph.ofBody b :=
  ofBody_congr (by simp [Body.mapOperands, Function.comp_def])

theorem Op.mapOperands_congr {op : Op} (h : ∀ v ∈ op.operands, σ v = τ v) :
    op.mapOperands σ = op.mapOperands τ := by
  cases op with
  | phi incoming =>
    refine congrArg Op.phi (List.map_congr_left fun e he => ?_)
    rw [h e.1 (List.mem_map_of_mem he)]
  | _ => simp_all [mapOperands, operands]

theorem Terminator.mapOperands_congr {t : Terminator} (h : ∀ v ∈ t.operands, σ v = τ v) :
    t.mapOperands σ = t.mapOperands τ := by
  cases t with
  | ret v => cases v <;> simp_all [mapOperands, operands]
  | _ => simp_all [mapOperands, operands]

theorem Body.mapOperands_congr (h : ∀ v ∈ b.operands, σ v = τ v) :
    b.mapOperands σ = b.mapOperands τ := by
  have hblock : ∀ x ∈ b.blocks, x.mapOperands σ = x.mapOperands τ := by
    intro x hx
    have hx' : ∀ v ∈ x.operands, σ v = τ v := fun v hv => h v (List.mem_flatMap.mpr ⟨x, hx, hv⟩)
    have hinstrs : x.instrs.map (Instr.mapOperands σ) = x.instrs.map (Instr.mapOperands τ) :=
      List.map_congr_left fun i hi => congrArg _ (Op.mapOperands_congr fun v hv =>
        hx' v (List.mem_append_left _ (List.mem_flatMap.mpr ⟨i, hi, hv⟩)))
    have hterm : x.term.map (Terminator.mapOperands σ) = x.term.map (Terminator.mapOperands τ) := by
      cases ht : x.term with
      | none => rfl
      | some t =>
        refine congrArg some (Terminator.mapOperands_congr fun v hv => hx' v ?_)
        exact List.mem_append_right _ (by simpa [ht] using hv)
    simp only [Block.mapOperands, hinstrs, hterm]
  simp only [mapOperands, List.map_congr_left hblock]

/-- The operands refer to no strings but the first `n`. -/
def Body.Within (n : Nat) (b : Body) : Prop := ∀ i, .global i ∈ b.operands → i < n

@[simp] theorem Op.isPure_mapOperands (op : Op) : (op.mapOperands σ).isPure = op.isPure := by
  cases op <;> rfl

theorem Block.phis_mapOperands (x : Block) :
    (x.mapOperands σ).phis = x.phis.map (Instr.mapOperands σ) := by
  simp [phis, mapOperands, List.takeWhile_map, Function.comp_def, Instr.mapOperands]

theorem Op.mapOperands_injective (hσ : σ.Injective) : (Op.mapOperands σ).Injective := by
  have hedges : (fun e : Value × BlockId => (σ e.1, e.2)).Injective := by
    rintro ⟨v, u⟩ ⟨v', u'⟩ h
    simp_all [hσ.eq_iff]
  intro op op' h
  cases op <;> cases op' <;>
    simp_all [mapOperands, hσ.eq_iff, (List.map_injective_iff.mpr hσ).eq_iff,
      (List.map_injective_iff.mpr hedges).eq_iff]

theorem Block.mapOperands_injective (hσ : σ.Injective) : (Block.mapOperands σ).Injective := by
  have hterm : (Terminator.mapOperands σ).Injective := by
    intro t t' h
    cases t <;> cases t' <;> simp_all [Terminator.mapOperands, hσ.eq_iff]
    exact Option.map_injective hσ h
  have hinstr : (Instr.mapOperands σ).Injective := by
    rintro ⟨r, ty, op⟩ ⟨r', ty', op'⟩ h
    simp_all [Instr.mapOperands, (Op.mapOperands_injective hσ).eq_iff]
  rintro ⟨id, name, instrs, term⟩ ⟨id', name', instrs', term'⟩ h
  simp_all [mapOperands, (List.map_injective_iff.mpr hinstr).eq_iff,
    (Option.map_injective hterm).eq_iff]

theorem Body.mapOperands_injective (hσ : σ.Injective) : (Body.mapOperands σ).Injective := by
  rintro ⟨blocks, types, next⟩ ⟨blocks', types', next'⟩ h
  simp_all [mapOperands, (List.map_injective_iff.mpr (Block.mapOperands_injective hσ)).eq_iff]

end Maps

end SsaCompiler.Ir

namespace SsaCompiler.Optimize

open Ir

variable {ρ : Nat → Nat} {b : Body} {r : Reg}

section Stable

variable {α : Type} {φ : α → α}

theorem untilStable_comm {round : α → α × Bool}
    (h : ∀ a, round (φ a) = (φ (round a).1, (round a).2)) (n : Nat) (a : α) :
    untilStable round n (φ a) = φ (untilStable round n a) := by
  induction n generalizing a with
  | zero => rfl
  | succ n ih =>
    simp only [untilStable, h]
    split
    · exact ih _
    · rfl

theorem roundOf_comm {step : α → Option α} (h : ∀ a, step (φ a) = (step a).map φ) (a : α) :
    roundOf step (φ a) = (φ (roundOf step a).1, (roundOf step a).2) := by
  unfold roundOf
  rw [h]
  cases step a <;> rfl

theorem foldl_comm {β : Type} {f : α → β → α} (h : ∀ a x, f (φ a) x = φ (f a x)) (l : List β) (a : α) :
    l.foldl f (φ a) = φ (l.foldl f a) := by
  induction l generalizing a with
  | nil => rfl
  | cons x l ih => rw [List.foldl_cons, h, ih, List.foldl_cons]

end Stable

/-- What is found first commutes with a change of the list that it is found in. -/
theorem findSome?_comm {α β γ δ : Type} {f : α → Option β} {g : γ → Option δ} {φ : α → γ} {ψ : β → δ}
    (h : ∀ a, g (φ a) = (f a).map ψ) (l : List α) :
    (l.map φ).findSome? g = (l.findSome? f).map ψ := by
  induction l with
  | nil => rfl
  | cons a l ih =>
    rw [List.map_cons, List.findSome?_cons, List.findSome?_cons, h]
    cases f a with
    | none => exact ih
    | some b => rfl

section Combine

theorem foldBinary_relabel (op : BinOp) (l r : Value) :
    foldBinary op (l.relabel ρ) (r.relabel ρ) = (foldBinary op l r).map (Value.relabel ρ) := by
  have hints : ∀ o : Option Int64, (o.map Value.int).map (Value.relabel ρ) = o.map Value.int := by
    intro o
    cases o <;> rfl
  have hfloats : ∀ o : Option Double, (o.map Value.float).map (Value.relabel ρ) = o.map Value.float := by
    intro o
    cases o <;> rfl
  rcases l with (_ | _ | _ | _) | _ | _ | i <;> rcases r with (_ | _ | _ | _) | _ | _ | j
  all_goals
    simp only [foldBinary, Value.relabel, apply_ite (Option.map (Value.relabel ρ)),
      Option.map_some, Option.map_none, hints, hfloats] <;> rfl

theorem foldIcmp_relabel (hρ : ρ.Injective) (pred : IntPred) (l r : Value) :
    foldIcmp pred (l.relabel ρ) (r.relabel ρ) = (foldIcmp pred l r).map (Value.relabel ρ) := by
  have hglobals : ∀ i j, pred.onGlobals? (ρ i) (ρ j) = pred.onGlobals? i j := by
    intro i j
    cases pred <;> simp [IntPred.onGlobals?, hρ.eq_iff]
  have hbools : ∀ o : Option Bool, (o.map Value.bool).map (Value.relabel ρ) = o.map Value.bool := by
    intro o
    cases o <;> rfl
  rcases l with (_ | _ | _ | _) | _ | _ | i <;> rcases r with (_ | _ | _ | _) | _ | _ | j
  all_goals simp only [foldIcmp, Value.relabel, hglobals, hbools, Option.map_some, Option.map_none]

theorem foldFcmp_relabel (pred : FloatPred) (l r : Value) :
    foldFcmp pred (l.relabel ρ) (r.relabel ρ) = (foldFcmp pred l r).map (Value.relabel ρ) := by
  rcases l with (_ | _ | _ | _) | _ | _ | i <;> rcases r with (_ | _ | _ | _) | _ | _ | j <;> rfl

theorem foldPhi_relabel (hρ : ρ.Injective) (incoming : List (Value × BlockId)) :
    foldPhi r (incoming.map fun e => (e.1.relabel ρ, e.2)) =
      (foldPhi r incoming).map (Value.relabel ρ) := by
  have hvalues : ((incoming.map fun e => (e.1.relabel ρ, e.2)).map (·.1)).filter (· ≠ .reg r) =
      ((incoming.map (·.1)).filter (· ≠ .reg r)).map (Value.relabel ρ) := by
    simp [List.filter_map, Function.comp_def]
  unfold foldPhi
  rw [hvalues]
  cases (incoming.map (·.1)).filter (· ≠ .reg r) with
  | nil => rfl
  | cons v vs =>
    simp only [List.map_cons, Value.reg?_relabel, List.forall_mem_map,
      (Value.relabel_injective hρ).eq_iff]
    split <;> rfl

theorem simplify?_relabel (hρ : ρ.Injective) (op : Op) :
    simplify? r (op.mapOperands (Value.relabel ρ)) = (simplify? r op).map (Value.relabel ρ) := by
  cases op with
  | binary op x y => exact foldBinary_relabel op x y
  | icmp pred x y => exact foldIcmp_relabel hρ pred x y
  | fcmp pred x y => exact foldFcmp_relabel pred x y
  | phi incoming => exact foldPhi_relabel hρ incoming
  | _ => rfl

theorem simplification?_relabel (hρ : ρ.Injective) (b : Body) :
    simplification? (b.mapOperands (Value.relabel ρ)) =
      (simplification? b).map fun s => (s.1, s.2.relabel ρ) := by
  refine findSome?_comm (φ := Block.mapOperands _) (fun x => ?_) b.blocks
  refine findSome?_comm (φ := Instr.mapOperands _) (fun i => ?_) x.instrs
  cases hres : i.result with
  | none => simp [Instr.mapOperands, hres]
  | some q => simp [Instr.mapOperands, hres, simplify?_relabel hρ, Function.comp_def]

theorem substitute_relabel (b : Body) (v : Value) :
    (b.mapOperands (Value.relabel ρ)).substitute r (v.relabel ρ) =
      (b.substitute r v).mapOperands (Value.relabel ρ) := by
  have hcomm : Value.replace r (v.relabel ρ) ∘ Value.relabel ρ = Value.relabel ρ ∘ Value.replace r v :=
    funext Value.replace_relabel
  unfold Body.substitute Body.replaceUses Body.removeDefinition
  rw [Body.mapOperands_mapOperands, hcomm, ← Body.mapOperands_mapOperands]
  exact Body.filterInstrs_mapOperands fun i => rfl

theorem simplifyFirst?_relabel (hρ : ρ.Injective) (b : Body) :
    simplifyFirst? (b.mapOperands (Value.relabel ρ)) =
      (simplifyFirst? b).map (Body.mapOperands (Value.relabel ρ)) := by
  unfold simplifyFirst?
  rw [simplification?_relabel hρ]
  cases simplification? b with
  | none => rfl
  | some s => exact congrArg some (substitute_relabel b s.2)

@[simp] theorem uses_relabel (b : Body) : (b.mapOperands (Value.relabel ρ)).uses = b.uses := by
  simp [Body.uses, Body.operands_mapOperands, List.filterMap_map]

theorem dropUnused_relabel (b : Body) : dropUnused (b.mapOperands (Value.relabel ρ)) =
    ((dropUnused b).1.mapOperands (Value.relabel ρ), (dropUnused b).2) := by
  have hlive : ∀ i : Instr, isLive b.uses (i.mapOperands (Value.relabel ρ)) = isLive b.uses i := by
    intro i
    simp [isLive, Instr.mapOperands]
  unfold dropUnused
  simp only [uses_relabel, Body.filterInstrs_mapOperands hlive, Body.instrCount_mapOperands]

theorem combineInstrs_relabel (hρ : ρ.Injective) (b : Body) :
    combineInstrs (b.mapOperands (Value.relabel ρ)) =
      (combineInstrs b).mapOperands (Value.relabel ρ) := by
  unfold combineInstrs eliminateDeadCode
  rw [Body.instrCount_mapOperands, untilStable_comm (roundOf_comm (simplifyFirst?_relabel hρ)),
    Body.instrCount_mapOperands, untilStable_comm dropUnused_relabel]

end Combine

section Number

/-- A computation with the strings renumbered. -/
def Computation.relabel (ρ : Nat → Nat) (c : Computation) : Computation :=
  { c with op := c.op.mapOperands (Value.relabel ρ) }

@[simp] theorem isNumberable_mapOperands (σ : Value → Value) (op : Op) :
    isNumberable (op.mapOperands σ) = isNumberable op := by
  cases op <;> rfl

theorem computations_relabel (b : Body) (order : List BlockId) :
    computations (b.mapOperands (Value.relabel ρ)) order =
      (computations b order).map (Computation.relabel ρ) := by
  have hone : ∀ id (i : Instr), computation? id (i.mapOperands (Value.relabel ρ)) =
      (computation? id i).map (Computation.relabel ρ) := by
    intro id i
    simp only [computation?, Instr.mapOperands, isNumberable_mapOperands]
    split
    · cases i.result <;> rfl
    · rfl
  unfold computations
  rw [List.map_flatMap]
  refine List.flatMap_congr fun id _ => ?_
  rw [Body.block?_mapOperands]
  cases b.block? id with
  | none => rfl
  | some x =>
    simp [Block.mapOperands, List.filterMap_map, List.map_filterMap, hone]

theorem repeated?_relabel (hρ : ρ.Injective) (doms : List (BlockId × List BlockId))
    (earlier cs : List Computation) :
    repeated? doms (earlier.map (Computation.relabel ρ)) (cs.map (Computation.relabel ρ)) =
      repeated? doms earlier cs := by
  have hop : ∀ op op' : Op, op.mapOperands (Value.relabel ρ) = op'.mapOperands (Value.relabel ρ) ↔
      op = op' := fun _ _ => (Op.mapOperands_injective (Value.relabel_injective hρ)).eq_iff
  induction cs generalizing earlier with
  | nil => rfl
  | cons c cs ih =>
    have hfind : (earlier.map (Computation.relabel ρ)).find? (fun e =>
        e.op = (c.relabel ρ).op ∧ e.block ∈ (doms.lookup (c.relabel ρ).block).getD []) =
        (earlier.find? fun e => e.op = c.op ∧ e.block ∈ (doms.lookup c.block).getD []).map
          (Computation.relabel ρ) := by
      rw [List.find?_map]
      refine congrArg (fun p => (earlier.find? p).map (Computation.relabel ρ)) (funext fun e => ?_)
      simp [Computation.relabel, hop]
    simp only [List.map_cons, repeated?, hfind]
    cases earlier.find? fun e => e.op = c.op ∧ e.block ∈ (doms.lookup c.block).getD [] with
    | none =>
      have hnext := ih (earlier ++ [c])
      rwa [List.map_append] at hnext
    | some e => rfl

theorem numberValues_relabel (hρ : ρ.Injective) (b : Body) :
    numberValues (b.mapOperands (Value.relabel ρ)) =
      (numberValues b).mapOperands (Value.relabel ρ) := by
  unfold numberValues
  simp only [FlowGraph.ofBody_mapOperands, Body.instrCount_mapOperands]
  refine untilStable_comm (roundOf_comm fun a => ?_) _ _
  unfold mergeRepeated?
  have hsame := repeated?_relabel hρ (FlowGraph.ofBody b).dominators []
    (computations a (FlowGraph.ofBody b).reversePostorder)
  rw [List.map_nil] at hsame
  rw [computations_relabel, hsame]
  cases repeated? _ _ (computations a _) with
  | none => rfl
  | some p => exact congrArg some (substitute_relabel a (.reg p.2))

end Number

section Branch

variable {σ : Value → Value}

theorem mapIncoming_mapOperands {F : List (Value × BlockId) → List (Value × BlockId)}
    (hF : ∀ es, F (es.map fun e => (σ e.1, e.2)) = (F es).map fun e => (σ e.1, e.2)) (x : Block) :
    (x.mapOperands σ).mapIncoming F = (x.mapIncoming F).mapOperands σ := by
  simp only [Block.mapIncoming, Block.mapOperands, List.map_map, Block.mk.injEq, and_true, true_and]
  refine List.map_congr_left fun i _ => ?_
  cases hop : i.op <;> simp [Instr.mapIncoming, Instr.mapOperands, hop, Op.mapOperands, Op.mapIncoming, hF]

theorem dropIncoming_mapOperands (block source : BlockId) (b : Body) :
    dropIncoming (b.mapOperands σ) block source = (dropIncoming b block source).mapOperands σ :=
  Body.updateBlock_mapOperands block fun x => mapIncoming_mapOperands (fun es => by
    simp [List.filter_map, Function.comp_def]) x

theorem renameIncoming_mapOperands (block source dest : BlockId) (b : Body) :
    renameIncoming (b.mapOperands σ) block source dest =
      (renameIncoming b block source dest).mapOperands σ := by
  refine Body.updateBlock_mapOperands block fun x => mapIncoming_mapOperands (fun es => ?_) x
  simp only [List.map_map]
  refine List.map_congr_left fun e _ => ?_
  by_cases he : e.2 = source <;> simp [he]

@[simp] theorem constantBranch?_relabel (t : Terminator) :
    constantBranch? (t.mapOperands (Value.relabel ρ)) = constantBranch? t := by
  rcases t with _ | ⟨(_ | _ | _ | _) | _ | _ | _, _, _⟩ | _ <;> rfl

theorem foldTerminator_relabel (t : Terminator) :
    foldTerminator (t.mapOperands (Value.relabel ρ)) =
      (foldTerminator t).mapOperands (Value.relabel ρ) := by
  unfold foldTerminator
  rw [constantBranch?_relabel]
  split <;> rfl

theorem foldBranches_relabel (b : Body) : foldBranches (b.mapOperands (Value.relabel ρ)) =
    ((foldBranches b).1.mapOperands (Value.relabel ρ), (foldBranches b).2) := by
  have hdropped : (b.mapOperands (Value.relabel ρ)).blocks.filterMap droppedEdge? =
      b.blocks.filterMap droppedEdge? := by
    rw [Body.mapOperands, List.filterMap_map]
    refine List.filterMap_congr fun x _ => ?_
    cases hterm : x.term <;> simp [droppedEdge?, Block.mapOperands, hterm]
  have hfolded : (b.mapOperands (Value.relabel ρ)).blocks.map (fun x =>
      { x with term := x.term.map foldTerminator }) = (b.blocks.map fun x =>
      { x with term := x.term.map foldTerminator }).map (Block.mapOperands (Value.relabel ρ)) := by
    simp only [Body.mapOperands, List.map_map]
    refine List.map_congr_left fun x _ => ?_
    cases hterm : x.term <;> simp [Block.mapOperands, hterm, foldTerminator_relabel]
  unfold foldBranches
  simp only [hdropped]
  rw [show ({ b.mapOperands (Value.relabel ρ) with blocks := _ } : Body) =
    Body.mapOperands (Value.relabel ρ) { b with blocks := b.blocks.map fun x =>
      { x with term := x.term.map foldTerminator } } from congrArg (Body.mk · _ _) hfolded]
  rw [foldl_comm fun b e => dropIncoming_mapOperands e.2 e.1 b]

theorem removeUnreachable_mapOperands (b : Body) : removeUnreachable (b.mapOperands σ) =
    ((removeUnreachable b).1.mapOperands σ, (removeUnreachable b).2) := by
  unfold removeUnreachable
  simp only [FlowGraph.ofBody_mapOperands]
  rw [foldl_comm fun b id => foldl_comm (fun b s => dropIncoming_mapOperands s id b) _ b,
    foldl_comm fun b id => Body.removeBlock_mapOperands id]

theorem replaceTrivialPhi?_relabel (b : Body) :
    replaceTrivialPhi? (b.mapOperands (Value.relabel ρ)) =
      (replaceTrivialPhi? b).map (Body.mapOperands (Value.relabel ρ)) := by
  have htrivial : ∀ i : Instr, trivialPhi? (i.mapOperands (Value.relabel ρ)) =
      (trivialPhi? i).map fun s => (s.1, s.2.relabel ρ) := by
    intro i
    cases hop : i.op with
    | phi incoming =>
      rcases incoming with _ | ⟨e, _ | _⟩ <;>
        simp [trivialPhi?, Instr.mapOperands, hop, Op.mapOperands, Function.comp_def]
    | _ => simp [trivialPhi?, Instr.mapOperands, hop, Op.mapOperands]
  have hfound : (b.mapOperands (Value.relabel ρ)).blocks.findSome? (fun x =>
      x.phis.findSome? trivialPhi?) = (b.blocks.findSome? fun x =>
      x.phis.findSome? trivialPhi?).map fun s => (s.1, s.2.relabel ρ) := by
    refine findSome?_comm (fun x => ?_) b.blocks
    rw [Block.phis_mapOperands]
    exact findSome?_comm htrivial x.phis
  unfold replaceTrivialPhi?
  rw [hfound]
  cases b.blocks.findSome? fun x => x.phis.findSome? trivialPhi? with
  | none => rfl
  | some s => exact congrArg some (substitute_relabel b s.2)

theorem removeTrivialPhis_relabel (b : Body) :
    removeTrivialPhis (b.mapOperands (Value.relabel ρ)) =
      ((removeTrivialPhis b).1.mapOperands (Value.relabel ρ), (removeTrivialPhis b).2) := by
  unfold removeTrivialPhis
  rw [Body.instrCount_mapOperands, untilStable_comm (roundOf_comm replaceTrivialPhi?_relabel),
    replaceTrivialPhi?_relabel, Option.isSome_map]

theorem follower?_mapOperands (b : Body) (g : FlowGraph) (x : Block) :
    follower? (b.mapOperands σ) g (x.mapOperands σ) =
      (follower? b g x).map (Block.mapOperands σ) := by
  have hterm : (x.mapOperands σ).term = x.term.map (Terminator.mapOperands σ) := rfl
  have hphis : ∀ y : Block, (y.mapOperands σ).phis.isEmpty = y.phis.isEmpty := by
    simp [Block.phis_mapOperands]
  unfold follower?
  rw [hterm]
  rcases x.term with _ | s | _ | _
  case some.br =>
    simp only [Option.map_some, Terminator.mapOperands, Block.id_mapOperands,
      Body.entryId?_mapOperands, Body.block?_mapOperands]
    split
    · cases b.block? s with
      | none => rfl
      | some y => by_cases hy : y.phis.isEmpty <;> simp [Option.filter, hphis, hy]
    · rfl
  all_goals rfl

theorem joinBlocks_mapOperands (b : Body) (id : BlockId) (y : Block) :
    joinBlocks (b.mapOperands σ) id (y.mapOperands σ) = (joinBlocks b id y).mapOperands σ := by
  unfold joinBlocks
  simp only [Block.successors_mapOperands, Block.id_mapOperands, Body.removeBlock_mapOperands]
  rw [foldl_comm fun b s => renameIncoming_mapOperands s y.id id b]
  exact Body.updateBlock_mapOperands id fun x => by simp [Block.mapOperands]

theorem mergeBlocks_mapOperands (b : Body) : mergeBlocks (b.mapOperands σ) =
    ((mergeBlocks b).1.mapOperands σ, (mergeBlocks b).2) := by
  have hfound : (b.mapOperands σ).blocks.findSome? (fun x =>
      (follower? (b.mapOperands σ) (FlowGraph.ofBody b) x).map (x.id, ·)) =
      (b.blocks.findSome? fun x => (follower? b (FlowGraph.ofBody b) x).map (x.id, ·)).map
        fun p => (p.1, p.2.mapOperands σ) := by
    refine findSome?_comm (fun x => ?_) b.blocks
    rw [follower?_mapOperands]
    simp [Function.comp_def]
  unfold mergeBlocks
  simp only [FlowGraph.ofBody_mapOperands]
  rw [hfound]
  cases b.blocks.findSome? fun x => (follower? b (FlowGraph.ofBody b) x).map (x.id, ·) with
  | none => rfl
  | some p => exact Prod.ext (joinBlocks_mapOperands b p.1 p.2) rfl

theorem simplifyOnce_relabel (b : Body) : simplifyOnce (b.mapOperands (Value.relabel ρ)) =
    ((simplifyOnce b).1.mapOperands (Value.relabel ρ), (simplifyOnce b).2) := by
  simp only [simplifyOnce, foldBranches_relabel, removeUnreachable_mapOperands,
    removeTrivialPhis_relabel, mergeBlocks_mapOperands]

theorem simplifyFlow_relabel (b : Body) :
    simplifyFlow (b.mapOperands (Value.relabel ρ)) =
      (simplifyFlow b).mapOperands (Value.relabel ρ) := by
  have hsize : size (b.mapOperands (Value.relabel ρ)) = size b := by
    unfold size
    rw [Body.instrCount_mapOperands]
    simp only [Body.mapOperands, List.length_map, List.filter_map, Nat.add_left_cancel_iff]
    refine congrArg List.length (List.filter_congr fun x _ => ?_)
    rcases hterm : x.term with _ | _ | _ | _ <;> simp [Block.mapOperands, hterm, Terminator.mapOperands]
  unfold simplifyFlow
  rw [hsize, untilStable_comm simplifyOnce_relabel]

end Branch

/-- Renumbering strings commutes with the optimizer. -/
theorem optimizeBody_relabel (hρ : ρ.Injective) (passes : List Pass) (n : Nat) (b : Body) :
    optimizeBody passes n (b.mapOperands (Value.relabel ρ)) =
      (optimizeBody passes n b).mapOperands (Value.relabel ρ) := by
  have hpass : ∀ (b : Body) (p : Pass), p.run (b.mapOperands (Value.relabel ρ)) =
      (p.run b).mapOperands (Value.relabel ρ) := by
    intro b p
    cases p with
    | combine => exact combineInstrs_relabel hρ b
    | number => exact numberValues_relabel hρ b
    | simplify => exact simplifyFlow_relabel b
  have hround : ∀ b : Body, runPasses passes (b.mapOperands (Value.relabel ρ)) =
      (runPasses passes b).mapOperands (Value.relabel ρ) := foldl_comm hpass passes
  induction n generalizing b with
  | zero => rfl
  | succ n ih =>
    simp only [optimizeBody, hround,
      (Body.mapOperands_injective (Value.relabel_injective hρ)).eq_iff]
    split
    · rfl
    · exact ih _

/-- The optimizer puts no string into a body that is not there: two renumberings that agree on the
strings of a body also agree on what becomes of it. -/
theorem within_optimizeBody {n : Nat} (h : b.Within n) (passes : List Pass) (rounds : Nat) :
    (optimizeBody passes rounds b).Within n := by
  let ρ : Nat → Nat := fun i => if i < n then i else i + 1
  have hρ : ρ.Injective := by
    intro i j hij
    grind
  have hfixed : b.mapOperands (Value.relabel ρ) = b.mapOperands (Value.relabel id) := by
    refine Body.mapOperands_congr fun v hv => ?_
    cases v with
    | global i => exact congrArg Value.global (if_pos (h i hv))
    | _ => rfl
  have hkept : (optimizeBody passes rounds b).mapOperands (Value.relabel ρ) =
      (optimizeBody passes rounds b).mapOperands (Value.relabel id) := by
    rw [← optimizeBody_relabel hρ, ← optimizeBody_relabel Function.injective_id, hfixed]
  intro i hi
  by_contra hlt
  have hmap := congrArg Body.operands hkept
  rw [Body.operands_mapOperands, Body.operands_mapOperands] at hmap
  have hsame : Value.global (ρ i) = .global i := List.map_inj_left.mp hmap _ hi
  have heq : i + 1 = i := (if_neg hlt).symm.trans (Value.global.inj hsame)
  omega

end SsaCompiler.Optimize
