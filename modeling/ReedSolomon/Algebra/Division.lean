import Mathlib.Algebra.Polynomial.Div
import Mathlib.Tactic.Ring
import Mathlib.Tactic.LinearCombination

/-!
# Division by a feedback shift register

A register that holds the remainder of `f` by a monic polynomial `g` of degree `r` takes in one more
coefficient `d`: it moves up by one place and subtracts the multiple of `g` that the feedback
`d + (top place)` asks for. The register then holds the remainder of `X * f + d * X ^ r`.
-/

open Polynomial

namespace Register

variable {F : Type*} [Field F] {g f : F[X]} {r : ℕ} {d : F}

theorem modByMonic_step (hg : g.Monic) (hdeg : g.natDegree = r + 1) (f : F[X]) (d : F) :
    (X * f + C d * X ^ (r + 1)) %ₘ g =
      X * (f %ₘ g) + C d * X ^ (r + 1) - C (d + (f %ₘ g).coeff r) * g := by
  have hlt : ∀ k, r + 1 ≤ k → (f %ₘ g).coeff k = 0 := by
    intro k hk
    refine coeff_eq_zero_of_degree_lt (lt_of_lt_of_le (degree_modByMonic_lt f hg) ?_)
    rw [degree_eq_natDegree hg.ne_zero, hdeg]
    exact_mod_cast hk
  have htop : g.coeff (r + 1) = 1 := by
    have := hg.coeff_natDegree
    rwa [hdeg] at this
  have hunique := div_modByMonic_unique (f := X * f + C d * X ^ (r + 1))
    (X * (f /ₘ g) + C (d + (f %ₘ g).coeff r))
    (X * (f %ₘ g) + C d * X ^ (r + 1) - C (d + (f %ₘ g).coeff r) * g) hg ⟨?_, ?_⟩
  · exact hunique.2
  · have hdiv := modByMonic_add_div f g
    linear_combination X * hdiv
  · rw [degree_eq_natDegree hg.ne_zero, hdeg]
    refine (degree_lt_iff_coeff_zero _ _).mpr fun k hk => ?_
    obtain ⟨n, rfl⟩ : ∃ n, k = n + 1 := ⟨k - 1, by omega⟩
    rw [coeff_sub, coeff_add, coeff_X_mul, coeff_C_mul, coeff_C_mul, coeff_X_pow]
    rcases Nat.eq_or_lt_of_le hk with heq | hgt
    · obtain rfl : r = n := by omega
      rw [htop]
      simp
      ring
    · have hgk : g.coeff (n + 1) = 0 := coeff_eq_zero_of_natDegree_lt (by omega)
      rw [hlt n (by omega), hgk, if_neg (by omega)]
      simp

theorem coeff_step_zero (hg : g.Monic) (hdeg : g.natDegree = r + 1) :
    ((X * f + C d * X ^ (r + 1)) %ₘ g).coeff 0 = -((d + (f %ₘ g).coeff r) * g.coeff 0) := by
  rw [modByMonic_step hg hdeg, coeff_sub, coeff_add, coeff_X_mul_zero, coeff_C_mul, coeff_C_mul, coeff_X_pow,
    if_neg (by omega)]
  ring

theorem coeff_step_succ (hg : g.Monic) (hdeg : g.natDegree = r + 1) {j : ℕ} (hj : j < r) :
    ((X * f + C d * X ^ (r + 1)) %ₘ g).coeff (j + 1) =
      (f %ₘ g).coeff j - (d + (f %ₘ g).coeff r) * g.coeff (j + 1) := by
  rw [modByMonic_step hg hdeg, coeff_sub, coeff_add, coeff_X_mul, coeff_C_mul, coeff_C_mul, coeff_X_pow,
    if_neg (by omega)]
  ring

end Register
