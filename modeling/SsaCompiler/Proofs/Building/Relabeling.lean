import SsaCompiler.Proofs.Building.Steps
import SsaCompiler.Proofs.Optimizer.Relabeling

/-!
Building the same function twice, with the strings numbered in two ways. As long as the same steps
are taken, up to the numbers of strings, the bodies stay the same up to them.
-/
namespace SsaCompiler.Ir

variable {ρ : Nat → Nat}

theorem Body.newReg_mapOperands {σ : Value → Value} (b : Body) (ty : Ty) :
    (b.mapOperands σ).newReg ty = ((b.newReg ty).1, (b.newReg ty).2.mapOperands σ) := rfl

theorem Body.addBlock_mapOperands {σ : Value → Value} (b : Body) (name : String) :
    (b.mapOperands σ).addBlock name = ((b.addBlock name).1, (b.addBlock name).2.mapOperands σ) := by
  simp [addBlock, mapOperands, Block.mapOperands]

namespace Builder

/-- The same function under construction, with the strings renumbered. -/
structure Mirrors (ρ : Nat → Nat) (b c : Builder) : Prop where
  body : c.body = b.body.mapOperands (Value.relabel ρ)
  current : c.current = b.current

theorem insertAfter_map {p : Instr → Bool} {σ : Value → Value}
    (hp : ∀ i : Instr, p (i.mapOperands σ) = p i) (i : Instr) (is : List Instr) :
    insertAfter p (i.mapOperands σ) (is.map (Instr.mapOperands σ)) =
      (insertAfter p i is).map (Instr.mapOperands σ) := by
  simp [insertAfter, List.takeWhile_map, List.dropWhile_map, Function.comp_def, hp]

theorem mirrors_start {f g : Function} : Mirrors ρ (.start f) (.start g) := ⟨rfl, rfl⟩

namespace Mirrors

variable {b c b' c' : Builder} (h : b.Mirrors ρ c)
include h

theorem block? : c.body.block? c.current =
    (b.body.block? b.current).map (Block.mapOperands (Value.relabel ρ)) := by
  rw [h.body, h.current, Body.block?_mapOperands]

theorem isTerminated : c.isTerminated = b.isTerminated := by
  unfold Builder.isTerminated
  rw [h.block?]
  cases b.body.block? b.current with
  | none => rfl
  | some x => simp [Block.mapOperands]

theorem updateCurrent {f g : Block → Block}
    (hf : ∀ x, g (x.mapOperands (Value.relabel ρ)) = (f x).mapOperands (Value.relabel ρ))
    (hb : b.updateCurrent f = .ok b') (hc : c.updateCurrent g = .ok c') : b'.Mirrors ρ c' := by
  unfold Builder.updateCurrent at hb hc
  split at hb
  · split at hc
    · cases hb
      cases hc
      refine ⟨?_, h.current⟩
      change c.body.updateBlock c.current g = _
      rw [h.body, h.current, Body.updateBlock_mapOperands b.current hf]
    · cases hc
  · cases hb

theorem newReg (ty : Ty) : Mirrors ρ { b with body := (b.body.newReg ty).2 }
    { c with body := (c.body.newReg ty).2 } := by
  refine ⟨?_, h.current⟩
  rw [h.body, Body.newReg_mapOperands]

theorem regTypes : c.body.regTypes = b.body.regTypes := by
  rw [h.body]
  rfl

theorem push {ty : Ty} {op : Op} {v w : Option Value} (hb : b.push ty op = .ok (v, b'))
    (hc : c.push ty (op.mapOperands (Value.relabel ρ)) = .ok (w, c')) :
    w = v.map (Value.relabel ρ) ∧ b'.Mirrors ρ c' := by
  have happend : ∀ (r : Option Reg) (x : Block),
      ({ x.mapOperands (Value.relabel ρ) with
        instrs := (x.mapOperands (Value.relabel ρ)).instrs ++
          [⟨r, ty, op.mapOperands (Value.relabel ρ)⟩] } : Block) =
      ({ x with instrs := x.instrs ++ [⟨r, ty, op⟩] } : Block).mapOperands (Value.relabel ρ) := by
    intro r x
    simp [Block.mapOperands, Instr.mapOperands]
  unfold Builder.push at hb hc
  split at hb
  · rw [if_pos ‹_›] at hc
    obtain ⟨b1, hb1, hb⟩ := bind_eq_ok.mp hb
    obtain ⟨c1, hc1, hc⟩ := bind_eq_ok.mp hc
    cases hb
    cases hc
    exact ⟨rfl, h.updateCurrent (happend none) hb1 hc1⟩
  · rw [if_neg ‹_›] at hc
    obtain ⟨b1, hb1, hb⟩ := bind_eq_ok.mp hb
    obtain ⟨c1, hc1, hc⟩ := bind_eq_ok.mp hc
    cases hb
    cases hc
    rw [h.regTypes]
    refine ⟨rfl, (h.newReg ty).updateCurrent (fun x => ?_) hb1 hc1⟩
    rw [h.regTypes]
    exact happend _ x

theorem pushValue {ty : Ty} {op : Op} {v w : Value} (hb : b.pushValue ty op = .ok (v, b'))
    (hc : c.pushValue ty (op.mapOperands (Value.relabel ρ)) = .ok (w, c')) :
    w = v.relabel ρ ∧ b'.Mirrors ρ c' := by
  obtain ⟨⟨v1, b1⟩, hb1, hb⟩ := bind_eq_ok.mp hb
  obtain ⟨⟨w1, c1⟩, hc1, hc⟩ := bind_eq_ok.mp hc
  cases hb
  cases hc
  obtain ⟨rfl, hm⟩ := h.push hb1 hc1
  refine ⟨?_, hm⟩
  cases v1 with
  | none => rfl
  | some v => rfl

theorem phi {ty : Ty} {incoming : List (Value × BlockId)} {v w : Value}
    (hb : b.phi ty incoming = .ok (v, b'))
    (hc : c.phi ty (incoming.map fun e => (e.1.relabel ρ, e.2)) = .ok (w, c')) :
    w = v.relabel ρ ∧ b'.Mirrors ρ c' := by
  obtain ⟨b1, hb1, hb⟩ := bind_eq_ok.mp hb
  obtain ⟨c1, hc1, hc⟩ := bind_eq_ok.mp hc
  cases hb
  cases hc
  have hphi : ∀ i : Instr, (i.mapOperands (Value.relabel ρ)).op.isPhi = i.op.isPhi :=
    fun i => by simp [Instr.mapOperands]
  rw [h.regTypes]
  refine ⟨rfl, (h.newReg ty).updateCurrent (fun x => ?_) hb1 hc1⟩
  rw [h.regTypes]
  simp only [Block.mapOperands, Block.mk.injEq, true_and, and_true]
  exact insertAfter_map hphi ⟨some b.body.regTypes.length, ty, .phi incoming⟩ x.instrs

theorem alloca {ty : Ty} {v w : Value} (hb : b.alloca ty = .ok (v, b'))
    (hc : c.alloca ty = .ok (w, c')) : w = v.relabel ρ ∧ b'.Mirrors ρ c' := by
  unfold Builder.alloca at hb hc
  rw [h.body, Body.newReg_mapOperands] at hc
  have hslot : ∀ i : Instr, (i.mapOperands (Value.relabel ρ)).op.isAlloca = i.op.isAlloca :=
    fun i => by cases hi : i.op <;> simp [Instr.mapOperands, hi, Op.mapOperands, Op.isAlloca]
  cases hblocks : (b.body.newReg (.ptr ty)).2.blocks with
  | nil => simp [hblocks] at hb
  | cons x rest =>
    simp only [hblocks, Except.ok.injEq, Prod.mk.injEq] at hb
    simp only [Body.mapOperands, hblocks, List.map_cons, Except.ok.injEq, Prod.mk.injEq] at hc
    obtain ⟨rfl, rfl⟩ := hb
    obtain ⟨rfl, rfl⟩ := hc
    refine ⟨rfl, ?_, h.current⟩
    simp only [Body.mapOperands, List.map_cons, Block.mapOperands, Body.mk.injEq, List.cons.injEq,
      Block.mk.injEq, true_and, and_true]
    exact insertAfter_map hslot ⟨some (b.body.newReg (.ptr ty)).1, .ptr ty, .alloca ty⟩ x.instrs

theorem store {value ptr : Value} (hb : b.store value ptr = .ok b')
    (hc : c.store (value.relabel ρ) (ptr.relabel ρ) = .ok c') : b'.Mirrors ρ c' := by
  obtain ⟨⟨v, b1⟩, hb1, hb⟩ := bind_eq_ok.mp hb
  obtain ⟨⟨w, c1⟩, hc1, hc⟩ := bind_eq_ok.mp hc
  cases hb
  cases hc
  exact (h.push hb1 hc1).2

theorem terminate {t : Terminator} (hb : b.terminate t = .ok b')
    (hc : c.terminate (t.mapOperands (Value.relabel ρ)) = .ok c') : b'.Mirrors ρ c' := by
  refine h.updateCurrent (fun x => ?_) hb hc
  cases hx : x.term <;> simp [Block.mapOperands, hx]

theorem appendBlock (name : String) : (c.appendBlock name).1 = (b.appendBlock name).1 ∧
    (b.appendBlock name).2.Mirrors ρ (c.appendBlock name).2 := by
  unfold Builder.appendBlock
  rw [h.body, Body.addBlock_mapOperands]
  exact ⟨rfl, rfl, h.current⟩

theorem position (id : BlockId) : (b.position id).Mirrors ρ (c.position id) := ⟨h.body, rfl⟩

theorem removeBlock (id : BlockId) : (b.removeBlock id).Mirrors ρ (c.removeBlock id) := by
  refine ⟨?_, h.current⟩
  change c.body.removeBlock id = _
  rw [h.body, Body.removeBlock_mapOperands]
  rfl

theorem moveToEnd (id : BlockId) : (b.moveToEnd id).Mirrors ρ (c.moveToEnd id) := by
  unfold Builder.moveToEnd
  rw [h.body, Body.block?_mapOperands]
  cases b.body.block? id with
  | none => exact h
  | some x =>
    refine ⟨?_, h.current⟩
    dsimp only [Option.map_some]
    rw [Body.removeBlock_mapOperands]
    simp [Body.mapOperands]

theorem addIncoming (phi value : Value) (source : BlockId) :
    (b.addIncoming phi value source).Mirrors ρ
      (c.addIncoming (phi.relabel ρ) (value.relabel ρ) source) := by
  cases phi with
  | reg r =>
    refine ⟨?_, h.current⟩
    have hadd : ∀ i : Instr,
        (i.mapOperands (Value.relabel ρ)).mapIncoming (· ++ [(value.relabel ρ, source)]) =
          (i.mapIncoming (· ++ [(value, source)])).mapOperands (Value.relabel ρ) := by
      intro i
      cases hop : i.op <;>
        simp [hop, Instr.mapOperands, Instr.mapIncoming, Op.mapOperands, Op.mapIncoming]
    change ({ c.body with blocks := _ } : Body) = ({ b.body with blocks := _ } : Body).mapOperands _
    simp only [h.body, Body.mapOperands, Body.mk.injEq, and_true]
    refine modifyFirst_map (fun x => ?_) (fun x => ?_) b.body.blocks
    · rw [Block.mapOperands, List.any_map]
      rfl
    · simp only [Block.mapOperands, Block.mk.injEq, and_true, true_and]
      exact modifyFirst_map (fun _ => rfl) hadd x.instrs
  | const _ | param _ | global _ => exact h

end Mirrors

end Builder

end SsaCompiler.Ir
