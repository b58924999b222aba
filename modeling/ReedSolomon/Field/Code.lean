import ReedSolomon.Algebra.Locator
import ReedSolomon.Field.Forms

/-!
# The code

A word is a sequence of field elements of which the first `nn` count. Its syndrome `i` is the value of
the word, read as a polynomial, at `@**(b0+i)`, and a codeword has `2*tt` zero syndromes. Two codewords
that differ in at most `2*tt` places are equal (`codeword_eq`).
-/

open Finset

namespace ReedSolomon

variable {P : CodeParams}

/-- The value of the word at `@**(b0+i)`. -/
noncomputable def syndrome (P : CodeParams) (w : ℕ → P.GF) (i : ℕ) : P.GF :=
  ∑ k ∈ range P.nn, w k * (P.alpha ^ k) ^ (P.b0 + i)

def IsCodeword (P : CodeParams) (w : ℕ → P.GF) : Prop := ∀ i < 2 * P.tt, syndrome P w i = 0

/-- The places where two words differ. -/
noncomputable def differing (P : CodeParams) (v w : ℕ → P.GF) : Finset ℕ := {k ∈ range P.nn | v k ≠ w k}

theorem mem_differing {v w : ℕ → P.GF} {k : ℕ} : k ∈ differing P v w ↔ k < P.nn ∧ v k ≠ w k := by
  simp [differing]

theorem differing_eq_empty {v w : ℕ → P.GF} : differing P v w = ∅ ↔ ∀ k < P.nn, v k = w k := by
  rw [eq_empty_iff_forall_notMem]
  constructor
  · intro h k hk
    by_contra hne
    exact h k (mem_differing.mpr ⟨hk, hne⟩)
  · intro h k hk
    obtain ⟨hkn, hne⟩ := mem_differing.mp hk
    exact hne (h k hkn)

theorem alpha_pow_injOn_differing (v w : ℕ → P.GF) :
    Set.InjOn (fun k => P.alpha ^ k) (differing P v w) := fun _ ha _ hb h =>
  P.alpha_pow_injOn (mem_differing.mp ha).1 (mem_differing.mp hb).1 h

theorem syndrome_congr {v w : ℕ → P.GF} (h : ∀ k < P.nn, v k = w k) (i : ℕ) : syndrome P v i = syndrome P w i :=
  sum_congr rfl fun k hk => by rw [h k (mem_range.mp hk)]

theorem syndrome_add (v w : ℕ → P.GF) (i : ℕ) : syndrome P v i + syndrome P w i =
    ∑ k ∈ differing P v w, (v k + w k) * (P.alpha ^ k) ^ (P.b0 + i) := by
  have hterm : ∀ k, v k * (P.alpha ^ k) ^ (P.b0 + i) + w k * (P.alpha ^ k) ^ (P.b0 + i) =
      (v k + w k) * (P.alpha ^ k) ^ (P.b0 + i) := fun k => by ring
  rw [syndrome, syndrome, ← sum_add_distrib, sum_congr rfl fun k _ => hterm k]
  refine (sum_subset (filter_subset _ _) fun k hk hnot => ?_).symm
  have heq : v k = w k := by
    by_contra hne
    exact hnot (mem_differing.mpr ⟨mem_range.mp hk, hne⟩)
  rw [heq, P.add_self, zero_mul]

theorem isCodeword_zero : IsCodeword P fun _ => 0 := fun i _ => by simp [syndrome]

theorem IsCodeword.congr {v w : ℕ → P.GF} (hv : IsCodeword P v) (h : ∀ k < P.nn, w k = v k) : IsCodeword P w :=
  fun i hi => (syndrome_congr h i).trans (hv i hi)

/-- **Minimum distance.** Codewords that differ in at most `2*tt` places are equal. -/
theorem codeword_eq {v w : ℕ → P.GF} (hv : IsCodeword P v) (hw : IsCodeword P w)
    (hcard : (differing P v w).card ≤ 2 * P.tt) {k : ℕ} (hk : k < P.nn) : v k = w k := by
  by_contra hne
  have hsum : ∀ i < 2 * P.tt, ∑ k ∈ differing P v w, (v k + w k) * (P.alpha ^ k) ^ (P.b0 + i) = 0 := by
    intro i hi
    rw [← syndrome_add, hv i hi, hw i hi, add_zero]
  have hzero := Recurrence.eq_zero_of_consecutive (alpha_pow_injOn_differing v w)
    (fun k _ => P.alpha_pow_ne_zero k) hcard hsum (mem_differing.mpr ⟨hk, hne⟩)
  exact hne (CharTwo.add_eq_zero.mp hzero)

theorem card_differing_le (u v w : ℕ → P.GF) :
    (differing P v w).card ≤ (differing P u v).card + (differing P u w).card := by
  have hsub : differing P v w ⊆ differing P u v ∪ differing P u w := fun k hk => by
    obtain ⟨hkn, hne⟩ := mem_differing.mp hk
    rw [mem_union, mem_differing, mem_differing]
    by_contra hnot
    obtain ⟨hv, hw⟩ := not_or.mp hnot
    have huv : u k = v k := by
      by_contra h
      exact hv ⟨hkn, h⟩
    have huw : u k = w k := by
      by_contra h
      exact hw ⟨hkn, h⟩
    exact hne (huv.symm.trans huw)
  exact (card_le_card hsub).trans (card_union_le _ _)

end ReedSolomon
