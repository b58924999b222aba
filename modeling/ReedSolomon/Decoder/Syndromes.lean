import ReedSolomon.Field.Code
import ReedSolomon.Field.Words
import ReedSolomon.Spec.Decode

/-!
# Syndromes

The first two loops of `decode_rs`: `recd` is converted to index form (`wp_toIndexForm`), and `s[i]`
becomes the index form of syndrome `i - 1`, the flag telling whether one of them is not zero
(`wp_syndromes`).
-/

open Imp Finset

namespace ReedSolomon

variable {P : CodeParams}

theorem inBounds_s {i : ℕ} (hi : i ≤ 2 * P.tt) : InBounds (P.dims .s) (line i) := by
  simp only [CodeParams.dims, inBounds_cons, inBounds_nil, and_true, P.nn_sub_kk]
  omega

theorem wp_logarithm {m : Machine P.dims} {x : P.GF} (hx : x ≠ 0) {Q : ℤ → Machine P.dims → Prop} :
    wp (logarithm P (P.index x)) Q m ↔ Q (P.index x) m := by
  have hlt := P.log_lt x
  refine wp_expect ?_
  rw [P.index_of_ne_zero hx]
  omega

theorem wp_toIndexForm {m : Machine P.dims} (hT : HasTables m) {x : ℕ → P.GF} (hx : HoldsWord m .recd P.nn x) :
    wp (toIndexForm P) (fun _ m' => Frame [.recd] m m' ∧ HoldsIndex m' .recd P.nn x) m := by
  refine wp_mono (wp_forEach_wrote .recd line (fun k => P.index (x k))
    (Nat.zero_le P.nn) fun k s _ hk hs => ?_) fun _ m' h => ⟨h.frame, fun k hk => h.new k (by simpa using hk)⟩
  have hTs := hT.of_frame hs.frame (by simp) (by simp)
  have hold := (hs.cell_of_notMem line_injective (k := k) (by simp)).trans (hx k hk)
  simp only [wp_bind]
  rw [wp_load hold, wp_load (hTs.indexOf _), wp_store (inBounds_recd hk)]
  exact hs.put line_injective k (inBounds_recd hk)

/-! ### The loop over the syndromes -/

/-- The first `j` terms of a syndrome. -/
noncomputable def partialSyndrome (P : CodeParams) (x : ℕ → P.GF) (i j : ℕ) : P.GF :=
  ∑ k ∈ range j, x k * (P.alpha ^ k) ^ (P.b0 + i)

/-- `s` holds the syndromes in index form, from place 1 on. -/
def HasSyndromes (m : Machine P.dims) (x : ℕ → P.GF) : Prop :=
  ∀ i < 2 * P.tt, m.cell .s (line (i + 1)) = some (P.index (syndrome P x i))

theorem wp_sumSyndrome {m : Machine P.dims} (hT : HasTables m) {x : ℕ → P.GF}
    (hx : HoldsIndex m .recd P.nn x) {i : ℕ} (hb : InBounds (P.dims .s) (line (i + 1))) :
    wp (forEach 0 P.nn (syndromeTerm P (i + 1)))
      (fun _ m' => m' = m.put .s (line (i + 1)) (P.poly (syndrome P x i)) hb)
      (m.put .s (line (i + 1)) 0 hb) := by
  refine wp_mono (wp_forEach (fun j s => s = m.put .s (line (i + 1)) (P.poly (partialSyndrome P x i j)) hb)
    (Nat.zero_le P.nn) ?_ fun j s _ hj hs => ?_) fun _ s hs => hs
  · rw [partialSyndrome, range_zero, sum_empty, P.poly_zero]
  · subst hs
    have hframe : Frame [.s] m (m.put .s (line (i + 1)) (P.poly (partialSyndrome P x i j)) hb) :=
      (Frame.refl _ m).put (by simp) _ _ _
    have hload := hx.of_frame hframe (by simp) j hj
    have hTs := hT.of_frame hframe (by simp) (by simp)
    have hnext : partialSyndrome P x i (j + 1) = partialSyndrome P x i j + x j * (P.alpha ^ j) ^ (P.b0 + i) :=
      sum_range_succ _ _
    simp only [syndromeTerm, wp_bind]
    rw [wp_load hload]
    by_cases hz : x j = 0
    · rw [wp_ifThen_neg (by simpa using hz), hnext, hz, zero_mul, add_zero]
    · obtain ⟨hnonneg, hlook⟩ := hTs.alphaTo_mul hz (n := (P.b0 + i) * j)
        (e := P.index (x j) + (P.b0 + ((i + 1 : ℕ) : ℤ) - 1) * j) (by push_cast; ring)
      rw [wp_ifThen_pos (by simpa using hz)]
      simp only [wp_bind]
      rw [wp_load hload, wp_logarithm hz, wp_rem hnonneg, wp_load (Machine.cell_put_self _ _ _ _ _), wp_load hlook,
        wp_store hb, Machine.put_put, P.xor_poly, hnext, ← pow_mul, mul_comm j]

theorem wp_syndromes {m : Machine P.dims} (hT : HasTables m) {x : ℕ → P.GF}
    (hx : HoldsIndex m .recd P.nn x) :
    wp (syndromes P) (fun b m' => Frame [.s] m m' ∧ m'.cell .s (line 0) = m.cell .s (line 0) ∧
      HasSyndromes m' x ∧ (b = false ↔ IsCodeword P x)) m := by
  rw [syndromes, P.nn_sub_kk]
  refine wp_mono (wp_forUp (fun i b s => Wrote m .s line (fun k => P.index (syndrome P x (k - 1))) (Set.Ico 1 i) s ∧
    (b = false ↔ ∀ k < i - 1, syndrome P x k = 0)) (show 1 ≤ 2 * P.tt + 1 by omega) ?_
    fun i b s hi hin ⟨hs, hflag⟩ => ?_) fun b m' ⟨h, hflag⟩ =>
    ⟨h.frame, h.cell_of_notMem line_injective (by simp), fun i hi => ?_, ?_⟩
  · rw [Set.Ico_self]
    exact ⟨Wrote.refl m, by simp⟩
  · obtain ⟨i, rfl⟩ : ∃ k, i = k + 1 := ⟨i - 1, by omega⟩
    have hTs := hT.of_frame hs.frame (by simp) (by simp)
    have hb : InBounds (P.dims .s) (line (i + 1)) := inBounds_s (by omega)
    simp only [wp_bind]
    rw [wp_store hb]
    refine wp_mono (wp_sumSyndrome hTs (hx.of_frame hs.frame (by simp)) hb) ?_
    rintro _ _ rfl
    have hTs' := hTs.of_frame ((Frame.refl [.s] s).put (by simp) (line (i + 1)) (P.poly (syndrome P x i)) hb)
      (by simp) (by simp)
    rw [wp_load (Machine.cell_put_self _ _ _ _ _), wp_load (Machine.cell_put_self _ _ _ _ _),
      wp_load (hTs'.indexOf _), wp_store hb, Machine.put_put, wp_pure, ← Set.insert_Ico_right_eq_Ico_add_one hi]
    refine ⟨hs.put line_injective (i + 1) hb, ?_⟩
    rw [Nat.add_sub_cancel] at hflag ⊢
    by_cases hz : syndrome P x i = 0
    · rw [if_neg (by simpa using hz), hflag]
      refine ⟨fun h k hk => ?_, fun h k hk => h k (by omega)⟩
      rcases Nat.lt_succ_iff_lt_or_eq.mp hk with hlt | rfl
      · exact h k hlt
      · exact hz
    · rw [if_pos (by simpa using hz)]
      exact ⟨fun h => by simp at h, fun h => absurd (h i (Nat.lt_succ_self i)) hz⟩
  · exact h.new (i + 1) (by simp; omega)
  · rw [hflag, Nat.add_sub_cancel]
    rfl

end ReedSolomon
