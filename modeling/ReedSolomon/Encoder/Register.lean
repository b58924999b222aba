import ReedSolomon.Algebra.Division
import ReedSolomon.Encoder.Galois
import ReedSolomon.Encoder.Generator

/-!
# The encoder

`encode_rs` takes the message in from its last symbol to its first. After the symbols from `i` on the
register holds the remainder of `suffix D i * X^(2*tt)` by the generator polynomial (`wp_encodeStep`), so
at the end it holds the parity polynomial of the message (`wp_encodeRs`).
-/

open Imp Finset Polynomial

namespace ReedSolomon

variable {P : CodeParams}

/-- The polynomial with the coefficients `D i, …, D (kk-1)`. -/
noncomputable def suffix (P : CodeParams) (D : ℕ → P.GF) (i : ℕ) : P.GF[X] :=
  ∑ k ∈ range (P.kk - i), C (D (i + k)) * X ^ k

theorem suffix_kk (D : ℕ → P.GF) : suffix P D P.kk = 0 := by
  rw [suffix, Nat.sub_self, range_zero, sum_empty]

theorem suffix_succ (D : ℕ → P.GF) {i : ℕ} (hi : i < P.kk) :
    suffix P D i = X * suffix P D (i + 1) + C (D i) := by
  have hlen : P.kk - i = P.kk - (i + 1) + 1 := by omega
  have hterm : ∀ k, C (D (i + (k + 1))) * X ^ (k + 1) = X * (C (D (i + 1 + k)) * X ^ k) := by
    intro k
    rw [show i + (k + 1) = i + 1 + k by omega]
    ring
  rw [suffix, suffix, hlen, sum_range_succ', mul_sum, pow_zero, mul_one, add_zero,
    sum_congr rfl fun k _ => hterm k]

/-- What the register holds once the symbols from `i` on are in. -/
noncomputable def remainder (P : CodeParams) (D : ℕ → P.GF) (i : ℕ) : P.GF[X] :=
  (suffix P D i * X ^ (2 * P.tt)) %ₘ generator P (2 * P.tt)

/-- The symbol the register feeds back when it takes in symbol `i`. -/
noncomputable def feedback (P : CodeParams) (D : ℕ → P.GF) (i : ℕ) : P.GF :=
  D i + (remainder P D (i + 1)).coeff (2 * P.tt - 1)

theorem remainder_kk (D : ℕ → P.GF) : remainder P D P.kk = 0 := by
  rw [remainder, suffix_kk, zero_mul, zero_modByMonic]

section Step

variable (D : ℕ → P.GF) {i : ℕ} (hi : i < P.kk)

include hi

theorem remainder_succ : remainder P D i =
    (X * (suffix P D (i + 1) * X ^ (2 * P.tt)) + C (D i) * X ^ (2 * P.tt)) %ₘ generator P (2 * P.tt) := by
  rw [remainder, suffix_succ D hi, add_mul, mul_assoc]

theorem remainder_coeff_zero :
    (remainder P D i).coeff 0 = feedback P D i * (generator P (2 * P.tt)).coeff 0 := by
  obtain ⟨r, hr⟩ : ∃ r, 2 * P.tt = r + 1 := ⟨2 * P.tt - 1, by have := P.one_le_tt; omega⟩
  rw [remainder_succ D hi, feedback, remainder, hr,
    Register.coeff_step_zero (generator_monic _) (generator_natDegree _), CharTwo.neg_eq, Nat.add_sub_cancel]

theorem remainder_coeff_succ {j : ℕ} (hj : j + 1 < 2 * P.tt) : (remainder P D i).coeff (j + 1) =
    (remainder P D (i + 1)).coeff j + (generator P (2 * P.tt)).coeff (j + 1) * feedback P D i := by
  obtain ⟨r, hr⟩ : ∃ r, 2 * P.tt = r + 1 := ⟨2 * P.tt - 1, by omega⟩
  rw [remainder_succ D hi, feedback, remainder, hr,
    Register.coeff_step_succ (generator_monic _) (generator_natDegree _) (by omega), CharTwo.sub_eq_add,
    Nat.add_sub_cancel, mul_comm (coeff _ _)]

end Step

/-! ### `encode_rs` -/

theorem inBounds_bb {j : ℕ} (hj : j < 2 * P.tt) : InBounds (P.dims .bb) (line j) := by
  simp only [CodeParams.dims, inBounds_cons, inBounds_nil, and_true, P.nn_sub_kk]
  omega

/-- The register holds the coefficients of `R`. -/
def HasRegister (m : Machine P.dims) (R : P.GF[X]) : Prop :=
  HoldsWord m .bb (2 * P.tt) fun j => R.coeff j

theorem Initialised.alphaTo_gg {m : Machine P.dims} (h : Initialised m) {j : ℕ} (hj : j < 2 * P.tt) :
    m.cell .alphaTo [P.index ((generator P (2 * P.tt)).coeff j)] =
      some (P.poly ((generator P (2 * P.tt)).coeff j)) :=
  h.tables.alphaTo_index (generator_coeff_ne_zero hj.le)

/-- The shift of either branch: from the top, each cell takes its new coefficient from the cell below. -/
theorem wp_shiftRegister {m : Machine P.dims} {D : ℕ → P.GF} {i : ℕ} (hR : HasRegister m (remainder P D (i + 1)))
    {body : ℕ → Code P Unit} {last : Code P Unit} (hb0 : InBounds (P.dims .bb) [0])
    (hbody : ∀ s j (hb : InBounds (P.dims .bb) (line (j + 1))), j + 1 < 2 * P.tt → Frame [.bb] m s →
      s.cell .bb [((j + 1 : ℕ) : ℤ) - 1] = some (P.poly ((remainder P D (i + 1)).coeff j)) →
      wp (body (j + 1)) (fun _ s' => s' = s.put .bb (line (j + 1)) (P.poly ((remainder P D i).coeff (j + 1))) hb) s)
    (hlast : ∀ s, Frame [.bb] m s →
      wp last (fun _ s' => s' = s.put .bb [0] (P.poly ((remainder P D i).coeff 0)) hb0) s) :
    wp (do
      forDown 1 (2 * P.tt) body
      last) (fun _ m' => Frame [.bb] m m' ∧ HasRegister m' (remainder P D i)) m := by
  have htt := P.one_le_tt
  have hstart : Wrote m .bb line (fun j => P.poly ((remainder P D i).coeff j))
      (Set.Ico (2 * P.tt) (2 * P.tt)) m := by
    rw [Set.Ico_self]
    exact Wrote.refl m
  refine wp_seq (wp_forDown_wrote (show 1 ≤ 2 * P.tt by omega) le_rfl hstart fun j s hj hjn hs => ?_)
    fun _ s hs => wp_mono (hlast s hs.frame) ?_
  · obtain ⟨k, rfl⟩ : ∃ k, j = k + 1 := ⟨j - 1, by omega⟩
    -- the cell below is not written yet
    have hprev := (hs.cell_of_notMem line_injective (k := k) (by simp)).trans (hR k (by omega))
    have hpass := hbody s k (inBounds_bb hjn) hjn hs.frame
      (by rwa [show ((k + 1 : ℕ) : ℤ) - 1 = k by omega])
    refine wp_mono hpass ?_
    rintro _ _ rfl
    exact hs.put line_injective (k + 1) (inBounds_bb hjn)
  · rintro _ _ rfl
    have hend := hs.put line_injective 0 hb0
    have hset : insert 0 (Set.Ico 1 (2 * P.tt)) = Set.Ico 0 (2 * P.tt) := Set.insert_Ico_add_one_left_eq_Ico (by omega)
    rw [hset] at hend
    exact ⟨hend.frame, fun j hj => hend.new j (by simpa using hj)⟩

theorem wp_encodeStep (hG : GaloisMul P) {m : Machine P.dims} (hI : Initialised m) {D : ℕ → P.GF}
    (hD : HoldsWord m .data P.kk D) {i : ℕ} (hi : i < P.kk) (hR : HasRegister m (remainder P D (i + 1))) :
    wp (encodeStep P i) (fun _ m' => Frame [.bb] m m' ∧ HasRegister m' (remainder P D i)) m := by
  have htt := P.one_le_tt
  have hb0 : InBounds (P.dims .bb) [0] := inBounds_bb (j := 0) (by omega)
  have htop : m.cell .bb [((P.nn : ℕ) : ℤ) - (P.kk : ℕ) - 1] =
      some (P.poly ((remainder P D (i + 1)).coeff (2 * P.tt - 1))) := by
    have := P.kk_add
    rw [show ((P.nn : ℕ) : ℤ) - (P.kk : ℕ) - 1 = ((2 * P.tt - 1 : ℕ) : ℤ) by omega]
    exact hR _ (by omega)
  simp only [encodeStep, wp_bind]
  rw [wp_load (hD i hi), wp_load htop, P.xor_poly, show D i + _ = feedback P D i from rfl, P.nn_sub_kk]
  by_cases hz : feedback P D i = 0
  · rw [wp_ifThenElse_neg (by simpa using hz)]
    refine wp_shiftRegister hR hb0 (fun s j hb hj hs hprev => ?_) fun s hs => ?_
    · have hcoeff := remainder_coeff_succ D hi hj
      rw [hz, mul_zero, add_zero] at hcoeff
      rw [wp_bind, wp_load hprev, wp_store hb, ← hcoeff]
    · have hcoeff := remainder_coeff_zero D hi
      rw [hz, zero_mul] at hcoeff
      rw [wp_store hb0, hcoeff, P.poly_zero]
  · rw [wp_ifThenElse_pos (by simpa using hz)]
    refine wp_shiftRegister hR hb0 (fun s j hb hj hs hprev => ?_) fun s hs => ?_
    · have hIs := hI.of_frame hs (by simp) (by simp) (by simp)
      simp only [wp_bind]
      rw [wp_load hprev, wp_load (hIs.gg (j + 1) hj.le), wp_load (hIs.alphaTo_gg hj), wp_store hb, hG, P.xor_poly,
        ← remainder_coeff_succ D hi hj]
    · have hIs := hI.of_frame hs (by simp) (by simp) (by simp)
      have hgg : s.cell .gg [0] = some (P.index ((generator P (2 * P.tt)).coeff 0)) :=
        hIs.gg 0 (Nat.zero_le _)
      have hcoeff := remainder_coeff_zero D hi
      rw [mul_comm] at hcoeff
      simp only [wp_bind]
      rw [wp_load hgg, wp_load (hIs.alphaTo_gg (j := 0) (by omega)), wp_store hb0, hG, ← hcoeff]

/-- `encode_rs` up to and with the pass that consumes `data[i]`. -/
def encodeDownTo (P : CodeParams) (i : ℕ) : Code P Unit := do
  forEach 0 (P.nn - P.kk) fun j => store .bb [j] 0
  forDown i P.kk (encodeStep P)

/-- After each pass of `encode_rs` a remainder is in `bb`. -/
theorem wp_encodeDownTo (hG : GaloisMul P) {m : Machine P.dims} (hI : Initialised m) {D : ℕ → P.GF}
    (hD : HoldsWord m .data P.kk D) {i : ℕ} (hi : i ≤ P.kk) :
    wp (encodeDownTo P i) (fun _ m' => Frame [.bb] m m' ∧ HasRegister m' (remainder P D i)) m := by
  rw [encodeDownTo, P.nn_sub_kk]
  refine wp_seq (wp_forEach_wrote .bb line (fun _ => 0) (Nat.zero_le (2 * P.tt)) fun i s _ hi hs => by
    rw [wp_store (inBounds_bb hi)]
    exact hs.put line_injective i (inBounds_bb hi)) fun _ m₁ h₁ => ?_
  refine wp_forDown (fun i s => Frame [.bb] m s ∧ HasRegister s (remainder P D i)) hi
    ⟨h₁.frame, fun j hj => ?_⟩ fun i s _ hin ⟨hf, hR⟩ => ?_
  · rw [h₁.new j (by simpa using hj), remainder_kk]
    simp
  · refine wp_mono (wp_encodeStep hG (hI.of_frame hf (by simp) (by simp) (by simp))
      (hD.of_frame hf (by simp)) hin hR) fun _ s' hs' => ⟨hf.trans hs'.1, hs'.2⟩

/-- `encode_rs` leaves the parity polynomial of the message in `bb`. -/
theorem wp_encodeRs (hG : GaloisMul P) {m : Machine P.dims} (hI : Initialised m) {D : ℕ → P.GF}
    (hD : HoldsWord m .data P.kk D) :
    wp (encodeRs P) (fun _ m' => Frame [.bb] m m' ∧ HasRegister m' (remainder P D 0)) m :=
  wp_encodeDownTo hG hI hD (Nat.zero_le _)

end ReedSolomon
