import Mathlib.Tactic.Common

/-!
# Clocked processes

A process takes one step at each rising edge of a clock: `step i s` is its state after an edge at which it
was in state `s` and sampled `i`. `Follows step env E` says that `E 0, E 1, …` are the states of a run, `E t`
being the state after edge `t` and `env t` what is sampled at edge `t`.

There are three rules for runs. What every step preserves holds after every edge (`Follows.invariant`), a sequence
of assertions, each of which leads to the next one in one step, is run through edge by edge (`stages`), and a process
that waits for an input goes on once it has sampled one (`Follows.await`). `together` is the composition of two processes on one clock, each of which samples what the other one
has written at earlier edges; both follow their own step function in it.
-/

namespace Clocked

variable {ι κ σ τ : Type}

/-- The states after the edges 0, 1, 2, … of a run. -/
def Follows (step : ι → σ → σ) (env : ℕ → ι) (E : ℕ → σ) : Prop := ∀ t, E (t + 1) = step (env (t + 1)) (E t)

/-- The run from the state `s`. -/
def run (step : ι → σ → σ) (env : ℕ → ι) (s : σ) : ℕ → σ
  | 0 => s
  | t + 1 => step (env (t + 1)) (run step env s t)

theorem follows_run (step : ι → σ → σ) (env : ℕ → ι) (s : σ) : Follows step env (run step env s) := fun _ => rfl

/-- What every step preserves holds from any edge on at which it holds. -/
theorem Follows.invariant {step : ι → σ → σ} {env : ℕ → ι} {E : ℕ → σ} (h : Follows step env E) (I : σ → Prop)
    (hstep : ∀ i s, I s → I (step i s)) {a : ℕ} (ha : I (E a)) (n : ℕ) : I (E (a + n)) := by
  induction n with
  | zero => exact ha
  | succ n ih =>
    rw [← Nat.add_assoc, h]
    exact hstep _ _ ih

/-- A sequence of assertions is run through edge by edge. -/
theorem stages {E : ℕ → σ} (A : ℕ → σ → Prop) {a n : ℕ} (ha : A 0 (E a))
    (hstep : ∀ j < n, A j (E (a + j)) → A (j + 1) (E (a + j + 1))) {j : ℕ} (hj : j ≤ n) : A j (E (a + j)) := by
  induction j with
  | zero => exact ha
  | succ j ih => exact hstep j hj (ih (Nat.le_of_succ_le hj))

/-- A process that waits until it samples an input for which `hit` holds. -/
theorem Follows.await {step : ι → σ → σ} {env : ℕ → ι} {E : ℕ → σ} (h : Follows step env E) (hit : ι → Prop)
    (waiting after : σ → Prop) (hhit : ∀ i s, waiting s → hit i → after (step i s))
    (hmiss : ∀ i s, waiting s → ¬ hit i → waiting (step i s)) {a t : ℕ} (ha : waiting (E a)) (hat : a < t)
    (ht : hit (env t)) : ∃ s, a < s ∧ s ≤ t ∧ after (E s) := by
  obtain ⟨n, rfl⟩ := Nat.exists_eq_add_of_lt hat
  induction n generalizing a with
  | zero =>
    refine ⟨a + 1, Nat.lt_succ_self a, Nat.le_refl _, ?_⟩
    rw [h]
    exact hhit _ _ ha ht
  | succ n ih =>
    by_cases hnow : hit (env (a + 1))
    · refine ⟨a + 1, Nat.lt_succ_self a, by omega, ?_⟩
      rw [h]
      exact hhit _ _ ha hnow
    · have hnext : waiting (E (a + 1)) := by
        rw [h]
        exact hmiss _ _ ha hnow
      rw [show a + (n + 1) + 1 = a + 1 + n + 1 by omega] at ht ⊢
      obtain ⟨s, hs, hst, hafter⟩ := ih hnext (by omega) ht
      exact ⟨s, by omega, hst, hafter⟩

/-! ### Two processes -/

/-- One edge of two processes, each of which samples the ports the other one wrote at earlier edges. -/
def lockstep (step : ι → σ → σ) (step' : κ → τ → τ) (ports : σ → κ) (ports' : τ → ι) (s : σ × τ) : σ × τ :=
  (step (ports' s.2) s.1, step' (ports s.1) s.2)

/-- The composition of two processes from the state `s`. -/
def together (step : ι → σ → σ) (step' : κ → τ → τ) (ports : σ → κ) (ports' : τ → ι) (s : σ × τ) : ℕ → σ × τ
  | 0 => s
  | t + 1 => lockstep step step' ports ports' (together step step' ports ports' s t)

section Together

variable (step : ι → σ → σ) (step' : κ → τ → τ) (ports : σ → κ) (ports' : τ → ι) (s : σ × τ)

theorem follows_fst : Follows step (fun t => ports' (together step step' ports ports' s (t - 1)).2)
    fun t => (together step step' ports ports' s t).1 := fun _ => rfl

theorem follows_snd : Follows step' (fun t => ports (together step step' ports ports' s (t - 1)).1)
    fun t => (together step step' ports ports' s t).2 := fun _ => rfl

end Together

end Clocked
