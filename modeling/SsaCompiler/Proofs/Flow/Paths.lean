import SsaCompiler.Ir.FlowGraph
import Mathlib.Logic.Relation
import Mathlib.Tactic.ByContra

/-!
Paths that keep out of a set, and the dominance they define. A place dominates another one if the
other cannot be reached around it; of what cannot be reached at all this says nothing, so the order
laws of dominance ask for a path where they need one.
-/
namespace SsaCompiler.Ir

variable {α : Type} {E F : α → α → Prop} {S T : α → Prop} {u v w : α}

/-- There is a path from `u` along `E` that keeps out of `S`, its two ends included. -/
inductive Path (E : α → α → Prop) (S : α → Prop) (u : α) : α → Prop
  | here : ¬ S u → Path E S u u
  | step {v w : α} : Path E S u v → E v w → ¬ S w → Path E S u w

namespace Path

theorem stop_free (h : Path E S u v) : ¬ S v := by
  cases h with
  | here hu => exact hu
  | step _ _ hv => exact hv

theorem start_free (h : Path E S u v) : ¬ S u := by
  induction h with
  | here hu => exact hu
  | step _ _ _ ih => exact ih

/-- A path that keeps out of more and has fewer edges to use is a path. -/
theorem mono (h : Path E S u v) (hedge : ∀ x y, E x y → F x y) (havoid : ∀ x, T x → S x) :
    Path F T u v := by
  induction h with
  | here hu => exact .here fun ht => hu (havoid _ ht)
  | step _ hvw hw ih => exact .step ih (hedge _ _ hvw) fun ht => hw (havoid _ ht)

theorem avoid_less (h : Path E S u v) (havoid : ∀ x, T x → S x) : Path E T u v :=
  h.mono (fun _ _ he => he) havoid

theorem trans (huv : Path E S u v) (hvw : Path E S v w) : Path E S u w := by
  induction hvw with
  | here _ => exact huv
  | step _ he hw ih => exact .step ih he hw

theorem head (hu : ¬ S u) (he : E u v) (h : Path E S v w) : Path E S u w :=
  trans (.step (.here hu) he h.start_free) h

/-- A path either keeps out of a further set or comes from a member of it. -/
theorem avoid_or_from (T : α → Prop) (h : Path E S u v) :
    Path E (fun x => S x ∨ T x) u v ∨ ∃ t, T t ∧ Path E S t v := by
  induction h with
  | here hu =>
    by_cases ht : T u
    · exact .inr ⟨u, ht, .here hu⟩
    · exact .inl (.here (by simp [hu, ht]))
  | @step v w _ he hw ih =>
    by_cases ht : T w
    · exact .inr ⟨w, ht, .here hw⟩
    · rcases ih with hkept | ⟨t, htt, hfrom⟩
      · exact .inl (.step hkept he (by simp [hw, ht]))
      · exact .inr ⟨t, htt, .step hfrom he hw⟩

/-- A path either keeps out of a place or leads to that place first. -/
theorem avoid_or_to (d : α) (h : Path E S u v) :
    Path E (fun x => S x ∨ x = d) u v ∨ Path E S u d := by
  induction h with
  | here hu =>
    by_cases hd : u = d
    · subst d
      exact .inr (.here hu)
    · exact .inl (.here (by simp [hu, hd]))
  | @step v w hpath he hw ih =>
    rcases ih with hkept | hto
    · by_cases hd : w = d
      · subst d
        exact .inr (.step hpath he hw)
      · exact .inl (.step hkept he (by simp [hw, hd]))
    · exact .inr hto

/-- What a path visits behind its start, it visits after having left the start for the last time. -/
theorem leave_start (h : Path E S u v) :
    v = u ∨ ∃ t, E u t ∧ Path E (fun x => S x ∨ x = u) t v := by
  induction h with
  | here _ => exact .inl rfl
  | @step v w _ he hw ih =>
    by_cases hwu : w = u
    · exact .inl hwu
    · have hfree : ¬ (S w ∨ w = u) := by simp [hw, hwu]
      rcases ih with rfl | ⟨t, ht, hpath⟩
      · exact .inr ⟨w, he, .here hfree⟩
      · exact .inr ⟨t, ht, .step hpath he hfree⟩

end Path

/-- `v` can be reached from `e`. -/
def Reach (E : α → α → Prop) (e v : α) : Prop := Path E (fun _ => False) e v

/-- No path from `e` to `v` leads around `d`. -/
def Dom (E : α → α → Prop) (e d v : α) : Prop := ¬ Path E (· = d) e v

section Dominance

variable {e a b c d : α}

theorem Reach.start : Reach E e e := .here id

theorem Reach.next (h : Reach E e u) (he : E u v) : Reach E e v := .step h he id

theorem reach_iff_reflTransGen : Reach E u v ↔ Relation.ReflTransGen E u v := by
  constructor
  · intro h
    induction h with
    | here _ => exact .refl
    | step _ he _ ih => exact .tail ih he
  · intro h
    induction h with
    | refl => exact .start
    | tail _ he ih => exact ih.next he

theorem Path.reach (h : Path E S e v) : Reach E e v := h.avoid_less fun _ => False.elim

theorem Reach.mono (h : Reach E e v) (hedge : ∀ x y, E x y → F x y) : Reach F e v :=
  Path.mono h hedge fun _ => id

theorem Dom.refl (E : α → α → Prop) (e v : α) : Dom E e v v := fun h => h.stop_free rfl

theorem Dom.trans (hab : Dom E e a b) (hbc : Dom E e b c) : Dom E e a c := by
  intro h
  rcases h.avoid_or_to b with hkept | hto
  · exact hbc (hkept.avoid_less fun _ => Or.inr)
  · exact hab hto

/-- Fewer edges leave more dominance. -/
theorem Dom.mono (h : Dom E e a b) (hedge : ∀ x y, F x y → E x y) : Dom F e a b :=
  fun hp => h (hp.mono hedge fun _ => id)

/-- What dominates the end of an edge dominates its start, unless it is the end itself. -/
theorem Dom.of_edge (h : Dom E e d v) (he : E u v) (hne : v ≠ d) : Dom E e d u :=
  fun hp => h (.step hp he hne)

theorem Dom.reach (h : Dom E e d v) (hv : Reach E e v) : Reach E e d := by
  rcases Path.avoid_or_to d hv with hkept | hto
  · exact absurd (hkept.avoid_less fun _ => Or.inr) h
  · exact hto

/-- What dominates another place that can be reached has an edge to leave by. -/
theorem Dom.leaves (h : Dom E e d v) (hv : Reach E e v) : v = d ∨ ∃ w, E d w := by
  rcases Path.avoid_or_from (· = d) hv with hkept | ⟨_, rfl, hfrom⟩
  · exact absurd (hkept.avoid_less fun _ => Or.inr) h
  · exact hfrom.leave_start.imp_right fun ⟨w, hw, _⟩ => ⟨w, hw⟩

/-- Two places that dominate each other are equal if one of them can be reached. The induction
shows that a path never comes to the first of them it would visit. -/
theorem Dom.antisymm (hab : Dom E e a b) (hba : Dom E e b a) (ha : Reach E e a) : a = b := by
  by_contra hne
  have hkept : ∀ {v}, Reach E e v → Path E (fun x => x = a ∨ x = b) e v := by
    intro v hv
    induction hv with
    | here _ =>
      refine .here ?_
      rintro (rfl | rfl)
      · exact hba (.here hne)
      · exact hab (.here (Ne.symm hne))
    | @step v w _ he _ ih =>
      refine .step ih he ?_
      rintro (rfl | rfl)
      · exact hba (.step (ih.avoid_less fun _ => Or.inr) he hne)
      · exact hab (.step (ih.avoid_less fun _ => Or.inl) he (Ne.symm hne))
  exact (hkept ha).stop_free (.inl rfl)

/-- What lies on the way to all predecessors of a place lies on the way to the place. -/
theorem Dom.of_preds (hne : e ≠ v) (h : ∀ u, E u v → Dom E e d u) : Dom E e d v := by
  intro hp
  cases hp with
  | here _ => exact hne rfl
  | step hpath he _ => exact h _ he hpath

/-- A place other than the start is entered for the first time from somewhere. -/
theorem Reach.entered (h : Reach E e v) (hne : e ≠ v) : ∃ u, E u v ∧ Path E (· = v) e u := by
  have hsome : ∀ {w}, Reach E e w → Path E (· = v) e w ∨ ∃ u, E u v ∧ Path E (· = v) e u := by
    intro w hw
    induction hw with
    | here _ => exact .inl (.here hne)
    | @step u w _ he _ ih =>
      rcases ih with hkept | hfound
      · by_cases hwv : w = v
        · exact .inr ⟨u, hwv ▸ he, hkept⟩
        · exact .inl (.step hkept he hwv)
      · exact .inr hfound
  rcases hsome h with hkept | hfound
  · exact absurd rfl hkept.stop_free
  · exact hfound

end Dominance

end SsaCompiler.Ir
