/-!
Successful steps of a computation with errors and state, taken apart. A step yields a value and a
state if it ends without an error; a sequence of steps yields what its parts yield one after the
other.
-/
namespace SsaCompiler

variable {ε σ α β : Type} {s s' : σ} {a : α} {b : β}

/-- The step ends without an error, with value `a` in state `s'`. -/
def Yields (x : ExceptT ε (StateM σ) α) (s : σ) (a : α) (s' : σ) : Prop :=
  x.run.run s = (.ok a, s')

theorem yields_of_eq_ok {x : ExceptT ε (StateM σ) α} (h : (x.run.run s).1 = .ok a) :
    Yields x s a (x.run.run s).2 := Prod.ext h rfl

theorem yields_pure {a' : α} :
    Yields (pure a : ExceptT ε (StateM σ) α) s a' s' ↔ a' = a ∧ s' = s := by
  constructor
  · intro h
    cases h
    exact ⟨rfl, rfl⟩
  · rintro ⟨rfl, rfl⟩
    rfl

theorem not_yields_throw {e : ε} : ¬ Yields (throw e : ExceptT ε (StateM σ) α) s a s' := by
  intro h
  cases h

/-- Behind a check that may fail, the check has passed. -/
theorem yields_ite_throw {p : Prop} [Decidable p] {e : ε} {x : ExceptT ε (StateM σ) α} :
    Yields (if p then throw e else x) s a s' ↔ ¬ p ∧ Yields x s a s' := by
  by_cases hp : p
  · rw [if_pos hp]
    exact iff_of_false not_yields_throw fun h => h.1 hp
  · rw [if_neg hp]
    exact (and_iff_right hp).symm

theorem run_bind_ok {x : ExceptT ε (StateM σ) α} {f : α → ExceptT ε (StateM σ) β} {s1 : σ}
    (h : x.run.run s = (.ok a, s1)) : (x >>= f).run.run s = (f a).run.run s1 := by
  change (ExceptT.bindCont f (x.run.run s).1).run (x.run.run s).2 = _
  rw [h]
  rfl

theorem run_bind_error {x : ExceptT ε (StateM σ) α} {f : α → ExceptT ε (StateM σ) β} {s1 : σ}
    {e : ε} (h : x.run.run s = (.error e, s1)) : (x >>= f).run.run s = (.error e, s1) := by
  change (ExceptT.bindCont f (x.run.run s).1).run (x.run.run s).2 = _
  rw [h]
  rfl

theorem run_tryCatch_ok {x : ExceptT ε (StateM σ) α} {handler : ε → ExceptT ε (StateM σ) α} {s1 : σ}
    (h : x.run.run s = (.ok a, s1)) : (tryCatch x handler).run.run s = (.ok a, s1) := by
  change (match (x.run.run s).1 with
    | .ok a => pure (.ok a)
    | .error e => (handler e).run : StateM σ (Except ε α)).run (x.run.run s).2 = _
  rw [h]
  rfl

theorem run_tryCatch_error {x : ExceptT ε (StateM σ) α} {handler : ε → ExceptT ε (StateM σ) α}
    {s1 : σ} {e : ε} (h : x.run.run s = (.error e, s1)) :
    (tryCatch x handler).run.run s = (handler e).run.run s1 := by
  change (match (x.run.run s).1 with
    | .ok a => pure (.ok a)
    | .error e => (handler e).run : StateM σ (Except ε α)).run (x.run.run s).2 = _
  rw [h]

/-- A sequence of steps yields what its parts yield in turn. -/
theorem yields_bind {x : ExceptT ε (StateM σ) α} {f : α → ExceptT ε (StateM σ) β} :
    Yields (x >>= f) s b s' ↔ ∃ a s1, Yields x s a s1 ∧ Yields (f a) s1 b s' := by
  constructor
  · intro h
    obtain ⟨⟨r, s1⟩, hx⟩ : ∃ p, x.run.run s = p := ⟨_, rfl⟩
    cases r with
    | ok a => exact ⟨a, s1, hx, (run_bind_ok hx).symm.trans h⟩
    | error e => cases (run_bind_error hx).symm.trans h
  · rintro ⟨a, s1, hx, hf⟩
    exact (run_bind_ok hx).trans hf

theorem yields_get {r : σ} :
    Yields (get : ExceptT ε (StateM σ) σ) s r s' ↔ r = s ∧ s' = s := by
  constructor
  · intro h
    cases h
    exact ⟨rfl, rfl⟩
  · rintro ⟨rfl, rfl⟩
    rfl

theorem yields_modify {f : σ → σ} {u : Unit} :
    Yields (modify f : ExceptT ε (StateM σ) Unit) s u s' ↔ s' = f s := by
  constructor
  · intro h
    cases h
    rfl
  · rintro rfl
    rfl

/-- A handler that always fails changes no success. -/
theorem yields_tryCatch {x : ExceptT ε (StateM σ) α} {handler : ε → ExceptT ε (StateM σ) α}
    (hfail : ∀ e s a s', ¬ Yields (handler e) s a s') :
    Yields (tryCatch x handler) s a s' ↔ Yields x s a s' := by
  obtain ⟨⟨r, s1⟩, hx⟩ : ∃ p, x.run.run s = p := ⟨_, rfl⟩
  unfold Yields
  cases r with
  | ok a => rw [run_tryCatch_ok hx, hx]
  | error e =>
    rw [run_tryCatch_error hx, hx]
    exact iff_of_false (hfail e s1 a s') (by intro h; cases h)

end SsaCompiler
