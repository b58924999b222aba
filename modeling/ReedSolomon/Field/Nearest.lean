import ReedSolomon.Algebra.BoundedDistance
import ReedSolomon.Field.Cyclic

/-!
# The code as a set of words

The `nn` symbols that count as a function on `Fin nn`. Over these words the code is a subgroup whose words are
more than `2*tt` places apart, so bounded-distance decoding applies to it; adding a codeword and shifting in a
circle are symmetries of it.
-/

open Finset BoundedDistance

namespace ReedSolomon

variable {P : CodeParams}

/-- The symbols of a word that count. -/
def front (P : CodeParams) (w : ℕ → P.GF) (k : Fin P.nn) : P.GF := w k

/-- The word continued by zeros. -/
noncomputable def padded (v : Fin P.nn → P.GF) (k : ℕ) : P.GF := if h : k < P.nn then v ⟨k, h⟩ else 0

theorem front_padded (v : Fin P.nn → P.GF) : front P (padded v) = v := by
  ext k
  rw [front, padded, dif_pos k.isLt]

theorem front_inj {v w : ℕ → P.GF} : front P v = front P w ↔ ∀ k < P.nn, v k = w k :=
  ⟨fun h k hk => congrFun h ⟨k, hk⟩, fun h => by ext k; exact h k k.isLt⟩

theorem hammingDist_front (v w : ℕ → P.GF) :
    hammingDist (front P v) (front P w) = (differing P v w).card := by
  rw [hammingDist, ← card_map Fin.valEmbedding]
  congr 1
  ext k
  simp only [mem_map, mem_filter, mem_univ, true_and, mem_differing]
  constructor
  · intro h
    obtain ⟨j, hne, rfl⟩ := h
    exact ⟨j.isLt, hne⟩
  · intro h
    exact ⟨⟨k, h.1⟩, h.2, rfl⟩

theorem syndrome_sum (v w : ℕ → P.GF) (i : ℕ) :
    syndrome P (fun k => v k + w k) i = syndrome P v i + syndrome P w i := by
  rw [syndrome, syndrome, syndrome, ← sum_add_distrib]
  exact sum_congr rfl fun k _ => add_mul _ _ _

noncomputable def codewords (P : CodeParams) : AddSubgroup (Fin P.nn → P.GF) where
  carrier := {v | IsCodeword P (padded v)}
  zero_mem' := isCodeword_zero.congr fun k hk => by rw [padded, dif_pos hk]; rfl
  add_mem' {v w} hv hw := by
    have hsum : IsCodeword P fun k => padded v k + padded w k := fun i hi => by
      rw [syndrome_sum, hv i hi, hw i hi, add_zero]
    exact hsum.congr fun k hk => by rw [padded, padded, padded, dif_pos hk, dif_pos hk, dif_pos hk]; rfl
  neg_mem' {v} hv := by
    rw [show -v = v from funext fun k => CharTwo.neg_eq (v k)]
    exact hv

theorem mem_codewords {w : ℕ → P.GF} : front P w ∈ codewords P ↔ IsCodeword P w := by
  have hpad : ∀ k < P.nn, padded (front P w) k = w k := fun k hk => by rw [padded, dif_pos hk, front]
  exact ⟨fun h => h.congr fun k hk => (hpad k hk).symm, fun h => h.congr hpad⟩

theorem separated_codewords : Separated (codewords P : Set (Fin P.nn → P.GF)) P.tt := by
  intro v hv w hw hdist
  rw [← front_padded v, ← front_padded w] at hdist ⊢
  rw [hammingDist_front] at hdist
  exact front_inj.mpr fun k hk => codeword_eq hv hw hdist hk

/-! ### Shifts -/

/-- The place whose symbol comes to place `k` when a word of `n` symbols is shifted up by `s` places. -/
def turn (n s k : ℕ) : ℕ := if k < s then n - s + k else k - s

theorem turn_lt {n s k : ℕ} (hs : s ≤ n) (hk : k < n) : turn n s k < n := by
  unfold turn
  split_ifs <;> omega

theorem turn_turn {n s k : ℕ} (hs : s ≤ n) (hk : k < n) : turn n s (turn n (n - s) k) = k := by
  unfold turn
  split_ifs <;> omega

theorem rotated_eq (s : ℕ) (w : ℕ → P.GF) (k : ℕ) : rotated P s w k = w (turn P.nn s k) := (apply_ite w _ _ _).symm

/-- The shift as a permutation of the places. -/
def turnPerm {n s : ℕ} (hs : s ≤ n) : Equiv.Perm (Fin n) where
  toFun k := ⟨turn n s k, turn_lt hs k.isLt⟩
  invFun k := ⟨turn n (n - s) k, turn_lt (Nat.sub_le n s) k.isLt⟩
  left_inv k := Fin.ext (by
    have h := turn_turn (s := n - s) (Nat.sub_le n s) k.isLt
    rwa [Nat.sub_sub_self hs] at h)
  right_inv k := Fin.ext (turn_turn hs k.isLt)

theorem front_rotated {s : ℕ} (hs : s ≤ P.nn) (w : ℕ → P.GF) :
    front P (rotated P s w) = front P w ∘ turnPerm hs := by
  ext k
  exact rotated_eq s w k

theorem symmetry_turn {s : ℕ} (hs : s ≤ P.nn) :
    Symmetry (codewords P : Set (Fin P.nn → P.GF)) fun v => v ∘ turnPerm hs := by
  refine Symmetry.comp (fun v hv => ?_) fun v hv => ?_
  · rw [← front_padded v, ← front_rotated hs]
    exact mem_codewords.mpr (IsCodeword.rotate hv hs)
  · have hback : v ∘ (turnPerm hs).symm = front P (rotated P (P.nn - s) (padded v)) := by
      rw [front_rotated (Nat.sub_le _ _), front_padded]
      rfl
    rw [hback]
    exact mem_codewords.mpr (IsCodeword.rotate hv (Nat.sub_le _ _))

end ReedSolomon
