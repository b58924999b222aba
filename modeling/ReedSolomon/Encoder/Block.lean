import ReedSolomon.Encoder.Register
import ReedSolomon.Field.Code

/-!
# The block

The program puts the parity symbols behind the message, although `encode_rs` divides the message shifted
up by `2*tt`. The block is a codeword all the same (`isCodeword_block`), since a cyclic shift by `kk` turns
one layout into the other, and it is the only codeword that begins with the message (`eq_block`).
-/

open Imp Finset Polynomial

namespace ReedSolomon

variable {P : CodeParams}

/-- The symbols of the block of the message `D`. -/
noncomputable def block (P : CodeParams) (D : ℕ → P.GF) (k : ℕ) : P.GF :=
  if k < P.kk then D k else (remainder P D 0).coeff (k - P.kk)

theorem block_message (D : ℕ → P.GF) {k : ℕ} (hk : k < P.kk) : block P D k = D k := if_pos hk

theorem block_parity (D : ℕ → P.GF) (j : ℕ) : block P D (P.kk + j) = (remainder P D 0).coeff j := by
  rw [block, if_neg (by omega), Nat.add_sub_cancel_left]

theorem remainder_natDegree_lt (D : ℕ → P.GF) (i : ℕ) : (remainder P D i).natDegree < 2 * P.tt := by
  have htt := P.one_le_tt
  have hmonic := generator_monic (P := P) (2 * P.tt)
  have hdeg := natDegree_modByMonic_lt (suffix P D i * X ^ (2 * P.tt)) hmonic fun h => by
    have := generator_natDegree (P := P) (2 * P.tt)
    rw [h, natDegree_one] at this
    omega
  rwa [generator_natDegree] at hdeg

theorem remainder_eval (D : ℕ → P.GF) {i : ℕ} (hi : i < 2 * P.tt) :
    (remainder P D 0).eval (P.alpha ^ (P.b0 + i)) =
      (suffix P D 0).eval (P.alpha ^ (P.b0 + i)) * (P.alpha ^ (P.b0 + i)) ^ (2 * P.tt) := by
  have hdiv := modByMonic_add_div (suffix P D 0 * X ^ (2 * P.tt)) (generator P (2 * P.tt))
  have heval := congrArg (eval (P.alpha ^ (P.b0 + i))) hdiv
  rw [eval_add, eval_mul, generator_eval_eq_zero hi, zero_mul, add_zero, eval_mul, eval_pow, eval_X] at heval
  exact heval

theorem suffix_zero_eval (D : ℕ → P.GF) (x : P.GF) :
    (suffix P D 0).eval x = ∑ k ∈ range P.kk, D k * x ^ k := by
  rw [suffix, eval_finsetSum, Nat.sub_zero]
  refine sum_congr rfl fun k _ => ?_
  rw [eval_mul, eval_C, eval_pow, eval_X, Nat.zero_add]

theorem isCodeword_block (D : ℕ → P.GF) : IsCodeword P (block P D) := by
  intro i hi
  have hpow : ∀ k, (P.alpha ^ k) ^ (P.b0 + i) = (P.alpha ^ (P.b0 + i)) ^ k := fun k => by
    rw [← pow_mul, ← pow_mul, mul_comm]
  have hparity : ∑ j ∈ range (2 * P.tt), block P D (P.kk + j) * (P.alpha ^ (P.b0 + i)) ^ (P.kk + j) =
      (remainder P D 0).eval (P.alpha ^ (P.b0 + i)) * (P.alpha ^ (P.b0 + i)) ^ P.kk := by
    rw [eval_eq_sum_range' (remainder_natDegree_lt D 0), sum_mul]
    refine sum_congr rfl fun j _ => ?_
    rw [block_parity, pow_add]
    ring
  have hmessage : ∑ k ∈ range P.kk, block P D k * (P.alpha ^ (P.b0 + i)) ^ k =
      (suffix P D 0).eval (P.alpha ^ (P.b0 + i)) := by
    rw [suffix_zero_eval]
    exact sum_congr rfl fun k hk => by rw [block_message D (mem_range.mp hk)]
  have hround : (P.alpha ^ (P.b0 + i)) ^ (2 * P.tt) * (P.alpha ^ (P.b0 + i)) ^ P.kk = 1 := by
    rw [← pow_add, add_comm (2 * P.tt), P.kk_add, ← hpow, P.alpha_pow_nn, one_pow]
  rw [syndrome, sum_congr rfl fun k _ => by rw [hpow k], ← P.kk_add, sum_range_add, hmessage, hparity,
    remainder_eval D hi, mul_assoc, hround, mul_one, P.add_self]

theorem eq_block {w : ℕ → P.GF} (hw : IsCodeword P w) {k : ℕ} (hk : k < P.nn) : w k = block P w k := by
  refine codeword_eq hw (isCodeword_block w) ?_ hk
  have hsub : differing P w (block P w) ⊆ Ico P.kk P.nn := fun j hj => by
    obtain ⟨hlt, hne⟩ := mem_differing.mp hj
    refine mem_Ico.mpr ⟨?_, hlt⟩
    by_contra hkk
    exact hne (block_message w (by omega)).symm
  calc (differing P w (block P w)).card ≤ (Ico P.kk P.nn).card := card_le_card hsub
    _ = P.nn - P.kk := Nat.card_Ico _ _
    _ = 2 * P.tt := P.nn_sub_kk
    _ ≤ 2 * P.tt := le_rfl

theorem block_congr {D E : ℕ → P.GF} (h : ∀ k < P.kk, D k = E k) (k : ℕ) :
    block P D k = block P E k := by
  have hsuffix : remainder P D 0 = remainder P E 0 := by
    rw [remainder, remainder, suffix, suffix, sum_congr rfl fun j hj => by
      rw [h (0 + j) (by have := mem_range.mp hj; omega)]]
  rw [block, block, hsuffix]
  split_ifs with hlt
  · exact h k hlt
  · rfl

theorem differing_block {D E : ℕ → P.GF} (h : ∃ k < P.kk, D k ≠ E k) :
    2 * P.tt < (differing P (block P D) (block P E)).card := by
  obtain ⟨k, hk, hne⟩ := h
  by_contra hcard
  have hkk := P.kk_add
  have heq := codeword_eq (isCodeword_block D) (isCodeword_block E) (not_lt.mp hcard) (show k < P.nn by omega)
  rw [block_message D hk, block_message E hk] at heq
  exact hne heq

/-! ### The programs -/

theorem wp_assemble {m : Machine P.dims} {D : ℕ → P.GF} (hD : HoldsWord m .data P.kk D)
    (hR : HasRegister m (remainder P D 0)) :
    wp (assemble P) (fun _ m' => Frame [.recd] m m' ∧ HoldsWord m' .recd P.nn (block P D)) m := by
  have hkk := P.kk_add
  have hinj : Function.Injective fun k => line (P.kk + k) := fun j k h => by
    have := line_injective h
    omega
  rw [assemble, P.nn_sub_kk]
  refine wp_seq (wp_forEach_wrote .recd (fun k => line (P.kk + k))
    (fun j => P.poly (block P D (P.kk + j))) (Nat.zero_le (2 * P.tt)) fun k s _ hk hs => ?_)
    fun _ m₁ h₁ => ?_
  · have hbb : s.cell .bb (line k) = some (P.poly (block P D (P.kk + k))) := by
      rw [hs.cell_of_ne (by decide), block_parity]
      exact hR k hk
    have hb : InBounds (P.dims .recd) (line (P.kk + k)) := inBounds_recd (by omega)
    simp only [wp_bind]
    rw [wp_load hbb, ← Nat.cast_add, wp_store hb]
    exact hs.put hinj k hb
  · refine wp_mono (wp_forEach_wrote .recd line
      (fun k => P.poly (block P D k)) (Nat.zero_le P.kk) fun k s _ hk hs => ?_)
      fun _ m₂ h₂ => ⟨h₁.frame.trans h₂.frame, fun k hk => ?_⟩
    · have hdata := hD k hk
      rw [← h₁.cell_of_ne (by decide), ← hs.cell_of_ne (by decide), ← block_message D hk] at hdata
      simp only [wp_bind]
      rw [wp_load hdata, wp_store (inBounds_recd (by omega))]
      exact hs.put line_injective k (inBounds_recd (by omega))
    · by_cases hlt : k < P.kk
      · exact h₂.new k (by simpa using hlt)
      · obtain ⟨j, rfl⟩ : ∃ j, k = P.kk + j := ⟨k - P.kk, by omega⟩
        rw [h₂.cell_of_notMem line_injective (by simp)]
        exact h₁.new j (by simp; omega)

end ReedSolomon
