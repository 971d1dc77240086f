import SsaCompiler.Stable

/-!
Loops that repeat a round until it reports no change. What every round keeps, the loop keeps. If a round
that reports a change makes something smaller, the loop gets to a round that reports none.
-/
namespace SsaCompiler

variable {α : Type} {round : α → α × Bool} {step : α → Option α} {P : α → Prop} {a c : α}

/-- What every round keeps, all rounds together keep. -/
theorem untilStable_keeps (hround : ∀ a, P a → P (round a).1) (ha : P a) (n : Nat) :
    P (untilStable round n a) := by
  induction n generalizing a with
  | zero => exact ha
  | succ n ih =>
    unfold untilStable
    dsimp only
    split
    · exact ih (hround a ha)
    · exact hround a ha

/-- Rounds that agree on what they keep come to the same end. -/
theorem untilStable_congr {round' : α → α × Bool} (hsame : ∀ a, P a → round a = round' a)
    (hround : ∀ a, P a → P (round a).1) (ha : P a) (n : Nat) :
    untilStable round n a = untilStable round' n a := by
  induction n generalizing a with
  | zero => rfl
  | succ n ih =>
    unfold untilStable
    rw [← hsame a ha]
    dsimp only
    split
    · exact ih (hround a ha)
    · rfl

theorem roundOf_keeps (hstep : ∀ a a', P a → step a = some a' → P a') (ha : P a) :
    P (roundOf step a).1 := by
  unfold roundOf
  split
  · exact hstep a _ ha ‹_›
  · exact ha

/-- Repeating `round` from `a` until it reports no change comes to an end, with `c`. -/
inductive Settles (round : α → α × Bool) : α → α → Prop
  | stop {a c : α} : round a = (c, false) → Settles round a c
  | again {a b c : α} : round a = (b, true) → Settles round b c → Settles round a c

/-- If every round that reports a change makes something smaller, the bound on the rounds is never
met. -/
theorem untilStable_settles (size : α → Nat) (hkeeps : ∀ a, P a → P (round a).1)
    (hless : ∀ a, P a → (round a).2 = true → size (round a).1 < size a) {n : Nat} (ha : P a)
    (hn : size a < n) : Settles round a (untilStable round n a) := by
  induction n generalizing a with
  | zero => omega
  | succ n ih =>
    have hnext := hkeeps a ha
    have hsize := hless a ha
    unfold untilStable
    cases hround : round a with
    | mk b changed =>
      rw [hround] at hnext hsize
      cases changed with
      | false => exact .stop hround
      | true =>
        have hlt : size b < size a := hsize rfl
        exact .again hround (ih hnext (by omega))

/-- The same for a step that makes something smaller wherever it applies. -/
theorem roundOf_settles (size : α → Nat) (hkeeps : ∀ a a', P a → step a = some a' → P a')
    (hless : ∀ a a', P a → step a = some a' → size a' < size a) (ha : P a) :
    Settles (roundOf step) a (untilStable (roundOf step) (size a + 1) a) := by
  refine untilStable_settles size (fun a ha => roundOf_keeps hkeeps ha) (fun a ha hchanged => ?_) ha
    (Nat.lt_succ_self _)
  unfold roundOf at hchanged ⊢
  split at hchanged
  · next hstep => exact hless a _ ha hstep
  · cases hchanged

/-- Where a loop has ended, the step does not apply. -/
theorem Settles.step_eq_none (h : Settles (roundOf step) a c) : step c = none := by
  induction h with
  | stop hlast =>
    unfold roundOf at hlast
    split at hlast
    · cases hlast
    · next hnone =>
      obtain ⟨rfl, _⟩ := Prod.mk.inj hlast
      exact hnone
  | again _ _ ih => exact ih

/-- What every round keeps, holds where the loop has ended. -/
theorem Settles.keeps (h : Settles round a c) (hkeeps : ∀ a, P a → P (round a).1) (ha : P a) : P c := by
  induction h with
  | stop hround =>
    have hc := hkeeps _ ha
    rwa [hround] at hc
  | again hround _ ih =>
    have hb := hkeeps _ ha
    rw [hround] at hb
    exact ih hb

/-- A loop that has ended did so in a round without a change. -/
theorem Settles.exists_last (h : Settles round a c) (hkeeps : ∀ a, P a → P (round a).1) (ha : P a) :
    ∃ b, P b ∧ round b = (c, false) := by
  induction h with
  | stop hround => exact ⟨_, ha, hround⟩
  | @again a b c hround _ ih =>
    have hb := hkeeps a ha
    rw [hround] at hb
    exact ih hb

theorem untilStable_of_eq (h : round a = (c, false)) (n : Nat) :
    untilStable round (n + 1) a = c := by
  simp [untilStable, h]

end SsaCompiler
