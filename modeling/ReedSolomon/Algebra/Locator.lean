import Mathlib.LinearAlgebra.Lagrange
import ReedSolomon.Algebra.Recurrence

/-!
# Power sums, locator polynomials and their evaluators

Nonzero points `X j`, `j ∈ T`, and weights `Y j` give the power sums `s k = ∑ j ∈ T, Y j * X j ^ k`.

* `eq_zero_of_consecutive`: fewer than or exactly as many points as consecutive vanishing power sums
  leave no nonzero weight. This is the bound on the minimum distance of a code with consecutive roots.
* `locator T X = ∏ (1 - X j * x)` generates the power sums (`generates_powerSum`).
* Conversely, a recurrence of length `|T|` vanishing at every `(X j)⁻¹` is the locator, and the
  sequence it generates is a power sum whose weights are read off the evaluator
  `∑ i ≤ L, disc σ s i * x ^ i` at `(X j)⁻¹` (`eq_powerSum`); when no shorter recurrence exists, no
  weight is zero (`weight_ne_zero`).
-/

open Polynomial Finset

namespace Recurrence

variable {F ι : Type*} [Field F] [DecidableEq ι] {T : Finset ι} {X : ι → F}

omit [DecidableEq ι] in
theorem sum_mul_eval_eq_zero {c : ι → F} {b n : ℕ}
    (h : ∀ i < n, ∑ j ∈ T, c j * X j ^ (b + i) = 0) (f : F[X]) (hf : f.natDegree < n) :
    ∑ j ∈ T, c j * X j ^ b * f.eval (X j) = 0 := by
  have hexpand : ∀ j ∈ T, c j * X j ^ b * f.eval (X j) =
      ∑ i ∈ range n, f.coeff i * (c j * X j ^ (b + i)) := by
    intro j _
    rw [eval_eq_sum_range' hf, mul_sum]
    refine sum_congr rfl fun i _ => ?_
    rw [pow_add]
    ring
  rw [sum_congr rfl hexpand, sum_comm]
  refine sum_eq_zero fun i hi => ?_
  rw [← mul_sum, h i (mem_range.mp hi), mul_zero]

/-- **Consecutive roots.** If as many consecutive power sums vanish as there are points, all weights
are zero. -/
theorem eq_zero_of_consecutive (hX : Set.InjOn X T) (hX0 : ∀ j ∈ T, X j ≠ 0) {c : ι → F} {b n : ℕ}
    (hcard : T.card ≤ n) (h : ∀ i < n, ∑ j ∈ T, c j * X j ^ (b + i) = 0) {j : ι} (hj : j ∈ T) :
    c j = 0 := by
  let f : F[X] := ∏ k ∈ T.erase j, (Polynomial.X - C (X k))
  have hpos : 0 < T.card := card_pos.mpr ⟨j, hj⟩
  have hdeg : f.natDegree < n := by
    rw [natDegree_prod_of_monic _ _ fun k _ => monic_X_sub_C (X k)]
    simp only [natDegree_X_sub_C, sum_const, smul_eq_mul, mul_one, card_erase_of_mem hj]
    omega
  have hsum := sum_mul_eval_eq_zero h f hdeg
  rw [sum_eq_single_of_mem j hj] at hsum
  · have hf : f.eval (X j) ≠ 0 := by
      rw [eval_prod, prod_ne_zero_iff]
      intro k hk
      have hkj := mem_erase.mp hk
      simpa [sub_eq_zero] using fun he => hkj.1 (hX hkj.2 hj he.symm)
    have hpow := pow_ne_zero b (hX0 j hj)
    simpa [hpow, hf] using hsum
  · intro k hk hkj
    have hf : f.eval (X k) = 0 := by
      rw [eval_prod]
      exact prod_eq_zero (mem_erase.mpr ⟨hkj, hk⟩) (by simp)
    rw [hf, mul_zero]

/-! ### Locators and evaluators -/

/-- The polynomial with constant term 1 and the roots `(X j)⁻¹`. -/
noncomputable def locator (T : Finset ι) (X : ι → F) : F[X] := ∏ j ∈ T, (1 - C (X j) * Polynomial.X)

/-- The power sums, with the value 1 at 0. -/
def powerSum (T : Finset ι) (X Y : ι → F) (k : ℕ) : F := if k = 0 then 1 else ∑ j ∈ T, Y j * X j ^ k

/-- What is left of the power sums once multiplied by the locator. -/
noncomputable def evaluator (T : Finset ι) (X Y : ι → F) : F[X] :=
  locator T X + ∑ j ∈ T, C (Y j * X j) * Polynomial.X * locator (T.erase j) X

omit [DecidableEq ι] in
theorem locator_coeff_zero (T : Finset ι) (X : ι → F) : (locator T X).coeff 0 = 1 := by
  rw [locator, coeff_zero_eq_eval_zero, eval_prod]
  simp

omit [DecidableEq ι] in
theorem locator_natDegree_le (T : Finset ι) (X : ι → F) : (locator T X).natDegree ≤ T.card := by
  refine (natDegree_prod_le _ _).trans ?_
  have hterm : ∀ j ∈ T, (1 - C (X j) * Polynomial.X).natDegree ≤ 1 := by
    intro j _
    refine (natDegree_sub_le _ _).trans (max_le (by simp) ?_)
    exact (natDegree_C_mul_le _ _).trans natDegree_X_le
  simpa using sum_le_card_nsmul T _ 1 hterm

omit [DecidableEq ι] in
theorem locator_eval_inv {j : ι} (hj : j ∈ T) (hX0 : X j ≠ 0) : (locator T X).eval (X j)⁻¹ = 0 := by
  rw [locator, eval_prod]
  exact prod_eq_zero hj (by simp [hX0])

theorem locator_eq_mul_erase {j : ι} (hj : j ∈ T) :
    locator T X = (1 - C (X j) * Polynomial.X) * locator (T.erase j) X :=
  (mul_prod_erase T _ hj).symm

theorem locator_erase_eval_ne_zero (hX : Set.InjOn X T) {j : ι} (hj : j ∈ T) (hX0 : X j ≠ 0) :
    (locator (T.erase j) X).eval (X j)⁻¹ ≠ 0 := by
  rw [locator, eval_prod, prod_ne_zero_iff]
  intro k hk h0
  have hkj := mem_erase.mp hk
  have : X k * (X j)⁻¹ = 1 := by
    have := sub_eq_zero.mp (by simpa using h0 : 1 - X k * (X j)⁻¹ = 0)
    exact this.symm
  exact hkj.1 (hX hkj.2 hj ((mul_inv_eq_one₀ hX0).mp this))

theorem one_sub_mul_geometric (a : F) :
    ((1 - C a * Polynomial.X : F[X]) : PowerSeries F) *
      PowerSeries.mk (fun k => if k = 0 then 0 else a ^ k) = ((C a * Polynomial.X : F[X]) : PowerSeries F) := by
  ext k
  have hcoe : ((1 - C a * Polynomial.X : F[X]) : PowerSeries F) = 1 - PowerSeries.C a * PowerSeries.X := by
    simp
  rw [hcoe, sub_mul, one_mul, map_sub, mul_assoc, PowerSeries.coeff_C_mul]
  rcases k with _ | k
  · simp
  · rw [PowerSeries.coeff_succ_X_mul, PowerSeries.coeff_mk, PowerSeries.coeff_mk, coeff_coe]
    rcases k with _ | k
    · simp
    · simp [pow_succ']

omit [DecidableEq ι] in
theorem mk_powerSum (T : Finset ι) (X Y : ι → F) : PowerSeries.mk (powerSum T X Y) =
    1 + ∑ j ∈ T, PowerSeries.C (Y j) * PowerSeries.mk (fun k => if k = 0 then 0 else X j ^ k) := by
  ext k
  rw [PowerSeries.coeff_mk, map_add, map_sum, powerSum]
  by_cases hk : k = 0
  · simp [hk]
  · simp [hk, PowerSeries.coeff_one]

theorem locator_mul_powerSum (T : Finset ι) (X Y : ι → F) :
    (locator T X : PowerSeries F) * PowerSeries.mk (powerSum T X Y) = (evaluator T X Y : PowerSeries F) := by
  have hsum : ((∑ j ∈ T, C (Y j * X j) * Polynomial.X * locator (T.erase j) X : F[X]) : PowerSeries F) =
      ∑ j ∈ T, ((C (Y j * X j) * Polynomial.X * locator (T.erase j) X : F[X]) : PowerSeries F) :=
    map_sum (coeToPowerSeries.ringHom) _ _
  rw [mk_powerSum, mul_add, mul_one, evaluator, Polynomial.coe_add, hsum, mul_sum]
  refine congrArg _ (sum_congr rfl fun j hj => ?_)
  have hgeo := one_sub_mul_geometric (X j)
  rw [locator_eq_mul_erase hj, Polynomial.coe_mul]
  calc _ = PowerSeries.C (Y j) * ((locator (T.erase j) X : F[X]) : PowerSeries F) *
        (((1 - C (X j) * Polynomial.X : F[X]) : PowerSeries F) *
          PowerSeries.mk (fun k => if k = 0 then 0 else X j ^ k)) := by ring
    _ = _ := by
      rw [hgeo]
      simp only [Polynomial.coe_mul, Polynomial.coe_C, map_mul, Polynomial.coe_X]
      ring

theorem disc_locator_powerSum (T : Finset ι) (X Y : ι → F) (k : ℕ) :
    disc (locator T X) (powerSum T X Y) k = (evaluator T X Y).coeff k := by
  rw [disc_eq_coeff, locator_mul_powerSum, coeff_coe]

theorem evaluator_natDegree_le (T : Finset ι) (X Y : ι → F) : (evaluator T X Y).natDegree ≤ T.card := by
  refine (natDegree_add_le _ _).trans (max_le (locator_natDegree_le T X) ?_)
  refine natDegree_sum_le_of_forall_le T _ fun j hj => ?_
  rw [mul_assoc]
  refine (natDegree_C_mul_le _ _).trans (natDegree_mul_le.trans ?_)
  have hcard := card_erase_of_mem hj
  have hpos : 0 < T.card := card_pos.mpr ⟨j, hj⟩
  have hloc := locator_natDegree_le (T.erase j) X
  have hx := natDegree_X_le (R := F)
  omega

theorem evaluator_coeff_zero (T : Finset ι) (X Y : ι → F) : (evaluator T X Y).coeff 0 = 1 := by
  rw [← disc_locator_powerSum, disc_zero, locator_coeff_zero]
  simp [powerSum]

theorem evaluator_eval_inv (Y : ι → F) {j : ι} (hj : j ∈ T) (hX0 : X j ≠ 0) :
    (evaluator T X Y).eval (X j)⁻¹ = Y j * (locator (T.erase j) X).eval (X j)⁻¹ := by
  rw [evaluator, eval_add, locator_eval_inv hj hX0, zero_add, eval_finsetSum, sum_eq_single_of_mem j hj]
  · simp [hX0]
  · intro k hk hkj
    rw [eval_mul, locator_eval_inv (mem_erase.mpr ⟨Ne.symm hkj, hj⟩) hX0, mul_zero]

theorem generates_powerSum (T : Finset ι) (X Y : ι → F) {s : ℕ → F} {N : ℕ}
    (hs : ∀ k, 1 ≤ k → k ≤ N → s k = ∑ j ∈ T, Y j * X j ^ k) :
    Generates s N (locator T X) T.card := by
  refine ⟨locator_coeff_zero T X, locator_natDegree_le T X, fun k hk hkN => ?_⟩
  have hsame : disc (locator T X) s k = disc (locator T X) (powerSum T X Y) k := by
    rw [disc_eq_sum (locator_natDegree_le T X) hk.le, disc_eq_sum (locator_natDegree_le T X) hk.le]
    refine sum_congr rfl fun i hi => ?_
    have hik := mem_range.mp hi
    rw [powerSum, if_neg (by omega), hs (k - i) (by omega) (by omega)]
  rw [hsame, disc_locator_powerSum]
  exact coeff_eq_zero_of_natDegree_lt (lt_of_le_of_lt (evaluator_natDegree_le T X Y) hk)

/-! ### From a recurrence with enough roots to power sums -/

variable {σ : F[X]} {s : ℕ → F} {N : ℕ}

omit [DecidableEq ι] in
theorem inv_injOn (hX : Set.InjOn X T) : Set.InjOn (fun j => (X j)⁻¹) T :=
  fun _ hi _ hj h => hX hi hj (inv_injective h)

omit [DecidableEq ι] in
theorem eq_of_eval_inv (hX : Set.InjOn X T) (hX0 : ∀ j ∈ T, X j ≠ 0) {f g : F[X]}
    (hf : f.natDegree ≤ T.card) (hg : g.natDegree ≤ T.card) (h0 : f.coeff 0 = g.coeff 0)
    (h : ∀ j ∈ T, f.eval (X j)⁻¹ = g.eval (X j)⁻¹) : f = g := by
  classical
  let S : Finset F := insert 0 (T.image fun j => (X j)⁻¹)
  have hnotin : (0 : F) ∉ T.image fun j => (X j)⁻¹ := by
    intro hmem
    obtain ⟨j, hj, hj0⟩ := mem_image.mp hmem
    exact hX0 j hj (inv_eq_zero.mp hj0)
  have hcard : S.card = T.card + 1 := by
    rw [card_insert_of_notMem hnotin, card_image_of_injOn (inv_injOn hX)]
  have hlt : ∀ p : F[X], p.natDegree ≤ T.card → p.degree < S.card := by
    intro p hp
    rw [hcard]
    exact lt_of_le_of_lt degree_le_natDegree (by exact_mod_cast Nat.lt_succ_of_le hp)
  refine eq_of_degrees_lt_of_eval_finset_eq S (hlt f hf) (hlt g hg) fun x hx => ?_
  rcases mem_insert.mp hx with rfl | hx
  · rwa [← coeff_zero_eq_eval_zero, ← coeff_zero_eq_eval_zero]
  · obtain ⟨j, hj, rfl⟩ := mem_image.mp hx
    exact h j hj

omit [DecidableEq ι] in
theorem eq_locator (hX : Set.InjOn X T) (hX0 : ∀ j ∈ T, X j ≠ 0) (hσ : Generates s N σ T.card)
    (hroot : ∀ j ∈ T, σ.eval (X j)⁻¹ = 0) : σ = locator T X :=
  eq_of_eval_inv hX hX0 hσ.natDegree_le (locator_natDegree_le T X)
    (by rw [hσ.coeff_zero, locator_coeff_zero])
    fun j hj => by rw [hroot j hj, locator_eval_inv hj (hX0 j hj)]

/-- The product of recurrence and sequence, cut off above degree `L`. -/
noncomputable def truncated (σ : F[X]) (s : ℕ → F) (L : ℕ) : F[X] :=
  ∑ i ∈ range (L + 1), C (disc σ s i) * Polynomial.X ^ i

theorem truncated_coeff (σ : F[X]) (s : ℕ → F) (L k : ℕ) :
    (truncated σ s L).coeff k = if k ≤ L then disc σ s k else 0 := by
  rw [truncated, finsetSum_coeff]
  simp only [coeff_C_mul, coeff_X_pow, mul_ite, mul_one, mul_zero]
  rw [sum_ite_eq]
  simp

theorem truncated_natDegree_le (σ : F[X]) (s : ℕ → F) (L : ℕ) : (truncated σ s L).natDegree ≤ L := by
  refine natDegree_le_iff_coeff_eq_zero.mpr fun k hk => ?_
  rw [truncated_coeff, if_neg (by omega)]

theorem truncated_eval (σ : F[X]) (s : ℕ → F) (L : ℕ) (x : F) :
    (truncated σ s L).eval x = ∑ i ∈ range (L + 1), disc σ s i * x ^ i := by
  rw [truncated, eval_finsetSum]
  simp

/-- The weight the evaluator gives to the point `X j`. -/
noncomputable def weight (T : Finset ι) (X : ι → F) (σ : F[X]) (s : ℕ → F) (j : ι) : F :=
  (truncated σ s T.card).eval (X j)⁻¹ / (locator (T.erase j) X).eval (X j)⁻¹

/-- **Error values.** A recurrence of length `|T|` that vanishes at every `(X j)⁻¹` generates the power
sums of the points `X j` with the weights read off its evaluator. -/
theorem eq_powerSum (hs : s 0 = 1) (hX : Set.InjOn X T) (hX0 : ∀ j ∈ T, X j ≠ 0)
    (hσ : Generates s N σ T.card) (hroot : ∀ j ∈ T, σ.eval (X j)⁻¹ = 0) :
    ∀ k, 1 ≤ k → k ≤ N → s k = ∑ j ∈ T, weight T X σ s j * X j ^ k := by
  have hloc := eq_locator hX hX0 hσ hroot
  set t := powerSum T X (weight T X σ s) with ht
  have heval : truncated σ s T.card = evaluator T X (weight T X σ s) := by
    refine eq_of_eval_inv hX hX0 (truncated_natDegree_le σ s _) (evaluator_natDegree_le T X _) ?_ ?_
    · rw [truncated_coeff, if_pos (Nat.zero_le _), evaluator_coeff_zero, disc_zero, hσ.coeff_zero, hs, one_mul]
    · intro j hj
      rw [evaluator_eval_inv _ hj (hX0 j hj), weight,
        div_mul_cancel₀ _ (locator_erase_eval_ne_zero hX hj (hX0 j hj))]
  have hdisc : ∀ k ≤ N, disc σ s k = disc σ t k := by
    intro k hk
    have hright : disc σ t k = (evaluator T X (weight T X σ s)).coeff k := by
      rw [ht, hloc, disc_locator_powerSum, ← hloc]
    rw [hright, ← heval, truncated_coeff]
    split_ifs with hkT
    · rfl
    · exact hσ.disc_eq_zero k (by omega) hk
  intro k hk1 hkN
  rw [eq_of_disc_eq hσ.coeff_zero hdisc k hkN, ht, powerSum, if_neg (by omega)]

theorem weight_ne_zero (hs : s 0 = 1) (hX : Set.InjOn X T) (hX0 : ∀ j ∈ T, X j ≠ 0)
    (hσ : Generates s N σ T.card) (hroot : ∀ j ∈ T, σ.eval (X j)⁻¹ = 0)
    (hshort : ∀ τ L', Generates s N τ L' → T.card ≤ L') {j : ι} (hj : j ∈ T) :
    weight T X σ s j ≠ 0 := by
  intro h0
  have hpow := eq_powerSum hs hX hX0 hσ hroot
  have hdrop : ∀ k, 1 ≤ k → k ≤ N → s k = ∑ i ∈ T.erase j, weight T X σ s i * X i ^ k := by
    intro k hk1 hkN
    rw [hpow k hk1 hkN, ← add_sum_erase T _ hj, h0, zero_mul, zero_add]
  have hle := hshort _ _ (generates_powerSum (T.erase j) X _ hdrop)
  have hpos : 0 < T.card := card_pos.mpr ⟨j, hj⟩
  rw [card_erase_of_mem hj] at hle
  omega

theorem eval_inv_eq_zero (hX : Set.InjOn X T) (hX0 : ∀ j ∈ T, X j ≠ 0) {Y : ι → F} {L : ℕ}
    (hs : ∀ k, 1 ≤ k → k ≤ N → s k = ∑ j ∈ T, Y j * X j ^ k) (hσ : Generates s N σ L)
    (hN : T.card + L ≤ N) {j : ι} (hj : j ∈ T) (hY : Y j ≠ 0) : σ.eval (X j)⁻¹ = 0 := by
  have hsum : ∀ i < T.card, ∑ j ∈ T, (Y j * σ.eval (X j)⁻¹) * X j ^ (L + 1 + i) = 0 := by
    intro i hi
    rw [← hσ.disc_eq_zero (L + 1 + i) (by omega) (by omega), disc_eq_sum hσ.natDegree_le (by omega)]
    have hterm : ∀ k ∈ range (L + 1), σ.coeff k * s (L + 1 + i - k) =
        ∑ j ∈ T, Y j * (σ.coeff k * (X j)⁻¹ ^ k) * X j ^ (L + 1 + i) := by
      intro k hk
      have hkL := mem_range.mp hk
      rw [hs _ (by omega) (by omega), mul_sum]
      refine sum_congr rfl fun j hj => ?_
      have hsplit : X j ^ (L + 1 + i) = X j ^ (L + 1 + i - k) * X j ^ k := by
        rw [← pow_add]
        congr 1
        omega
      have hcancel : X j ^ k * (X j)⁻¹ ^ k = 1 := by
        rw [← mul_pow, mul_inv_cancel₀ (hX0 j hj), one_pow]
      rw [hsplit]
      linear_combination (-(σ.coeff k * Y j * X j ^ (L + 1 + i - k))) * hcancel
    rw [sum_congr rfl hterm, sum_comm]
    refine sum_congr rfl fun j _ => ?_
    rw [eval_eq_sum_range' (Nat.lt_succ_of_le hσ.natDegree_le), mul_sum, sum_mul]
  have hzero := eq_zero_of_consecutive hX hX0 le_rfl hsum hj
  simpa [hY] using hzero

end Recurrence
