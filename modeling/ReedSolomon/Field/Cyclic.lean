import ReedSolomon.Field.Code
import ReedSolomon.Spec.Settings

/-!
# The code is cyclic

A codeword shifted in a circle is a codeword (`IsCodeword.rotate`). So a codeword of the files' parameters that
repeats itself every sixteen symbols, the places of its sixteen parity symbols apart, is 0 everywhere
(`eq_zero_of_repeats`).
-/

open Finset

namespace ReedSolomon

variable {P : CodeParams}

/-- The word `w` shifted up by `s` places, in a circle. -/
def rotated (P : CodeParams) (s : ℕ) (w : ℕ → P.GF) (k : ℕ) : P.GF := if k < s then w (P.nn - s + k) else w (k - s)

theorem syndrome_rotated (w : ℕ → P.GF) {s : ℕ} (hs : s ≤ P.nn) (i : ℕ) :
    syndrome P (rotated P s w) i = (P.alpha ^ s) ^ (P.b0 + i) * syndrome P w i := by
  have hround : (P.alpha ^ P.nn) ^ (P.b0 + i) = 1 := by rw [P.alpha_pow_nn, one_pow]
  have hshift : ∀ j k, (P.alpha ^ (j + k)) ^ (P.b0 + i) = (P.alpha ^ j) ^ (P.b0 + i) * (P.alpha ^ k) ^ (P.b0 + i) := by
    intro j k
    rw [pow_add P.alpha, mul_pow]
  have hlow : ∑ k ∈ range s, rotated P s w k * (P.alpha ^ k) ^ (P.b0 + i) =
      (P.alpha ^ s) ^ (P.b0 + i) * ∑ k ∈ range s, w (P.nn - s + k) * (P.alpha ^ (P.nn - s + k)) ^ (P.b0 + i) := by
    rw [mul_sum]
    refine sum_congr rfl fun k hk => ?_
    have hplace : (P.alpha ^ s) ^ (P.b0 + i) * (P.alpha ^ (P.nn - s + k)) ^ (P.b0 + i) = (P.alpha ^ k) ^ (P.b0 + i) := by
      rw [← hshift, show s + (P.nn - s + k) = P.nn + k by omega, hshift, hround, one_mul]
    rw [rotated, if_pos (mem_range.mp hk), mul_left_comm, hplace]
  have hhigh : ∑ k ∈ range (P.nn - s), rotated P s w (s + k) * (P.alpha ^ (s + k)) ^ (P.b0 + i) =
      (P.alpha ^ s) ^ (P.b0 + i) * ∑ k ∈ range (P.nn - s), w k * (P.alpha ^ k) ^ (P.b0 + i) := by
    rw [mul_sum]
    refine sum_congr rfl fun k _ => ?_
    rw [rotated, if_neg (by omega), Nat.add_sub_cancel_left, hshift, mul_left_comm]
  calc syndrome P (rotated P s w) i
      = ∑ k ∈ range (s + (P.nn - s)), rotated P s w k * (P.alpha ^ k) ^ (P.b0 + i) := by
        rw [show s + (P.nn - s) = P.nn by omega, syndrome]
    _ = (P.alpha ^ s) ^ (P.b0 + i) * ∑ k ∈ range (P.nn - s + s), w k * (P.alpha ^ k) ^ (P.b0 + i) := by
        rw [sum_range_add, hlow, hhigh, ← mul_add, add_comm (∑ k ∈ range s, _), ← sum_range_add]
    _ = (P.alpha ^ s) ^ (P.b0 + i) * syndrome P w i := by rw [show P.nn - s + s = P.nn by omega, syndrome]

theorem IsCodeword.rotate {w : ℕ → P.GF} (hw : IsCodeword P w) {s : ℕ} (hs : s ≤ P.nn) :
    IsCodeword P (rotated P s w) := fun i hi => by rw [syndrome_rotated w hs, hw i hi, mul_zero]

/-! ### Words that repeat themselves -/

variable {w : ℕ → rs255.GF}

theorem eq_mod_of_repeats (h : ∀ k, k + 16 < 255 → w (k + 16) = w k) {k : ℕ} (hk : k < 255) : w k = w (k % 16) := by
  induction k using Nat.strong_induction_on with
  | _ k ih =>
    by_cases hlt : k < 16
    · rw [Nat.mod_eq_of_lt hlt]
    · obtain ⟨j, rfl⟩ : ∃ j, k = j + 16 := ⟨k - 16, by omega⟩
      rw [h j hk, ih j (by omega) (by omega), Nat.add_mod_right]

/-- Shifted by sixteen places, the word differs from itself in sixteen places at most, so it is the same. -/
theorem eq_first_of_repeats (hw : IsCodeword rs255 w) (h : ∀ k, k + 16 < 255 → w (k + 16) = w k) {k : ℕ} (hk : k < 16) :
    w k = w 0 := by
  have hshifted : IsCodeword rs255 (rotated rs255 16 w) := hw.rotate (by decide)
  have hsub : differing rs255 w (rotated rs255 16 w) ⊆ range 16 := fun j hj => by
    obtain ⟨hlt, hne⟩ := mem_differing.mp hj
    rw [mem_range]
    by_contra hge
    refine hne ?_
    have hj16 := h (j - 16) (by rw [rs255_nn] at hlt; omega)
    rw [show j - 16 + 16 = j by omega] at hj16
    rw [rotated, if_neg hge, hj16]
  have hcard : (differing rs255 w (rotated rs255 16 w)).card ≤ 2 * rs255.tt := card_le_card hsub
  have hnext : ∀ j < 16, w j = w ((239 + j) % 16) := fun j hj => by
    have hsame := codeword_eq hw hshifted hcard (show j < 255 by omega)
    rw [rotated, if_pos hj] at hsame
    exact hsame.trans (eq_mod_of_repeats h (show 239 + j < 255 by omega))
  induction k with
  | zero => rfl
  | succ k ih =>
    rw [hnext (k + 1) hk, show (239 + (k + 1)) % 16 = k by omega]
    exact ih (by omega)

theorem eq_zero_of_repeats (hw : IsCodeword rs255 w) (h : ∀ k, k + 16 < 255 → w (k + 16) = w k) {k : ℕ}
    (hk : k < 255) : w k = 0 := by
  have hconst : ∀ j < 255, w j = w 0 := fun j hj =>
    (eq_mod_of_repeats h hj).trans (eq_first_of_repeats hw h (Nat.mod_lt j (by decide)))
  have hsum : syndrome rs255 w 0 = w 0 := by
    have hterm : ∀ j ∈ range rs255.nn, w j * (rs255.alpha ^ j) ^ (rs255.b0 + 0) = w 0 := fun j hj => by
      rw [show rs255.b0 + 0 = 0 from rfl, pow_zero, mul_one, hconst j (mem_range.mp hj)]
    rw [syndrome, sum_congr rfl hterm, sum_const, card_range, rs255_nn, show 255 = 127 * 2 + 1 from rfl, succ_nsmul,
      mul_nsmul', two_nsmul, rs255.add_self, smul_zero, zero_add]
  rw [hconst k hk, ← hsum]
  exact hw 0 (by decide)

end ReedSolomon
