import ReedSolomon.Imp.Arrays
import ReedSolomon.Field.Tables

/-!
# Words in arrays

Arrays that hold a sequence of field elements, in polynomial form or in index form.
-/

open Imp

namespace ReedSolomon

variable {P : CodeParams}

/-- The array `a` holds the first `n` symbols of `D` in polynomial form. -/
def HoldsWord (m : Machine P.dims) (a : Arr) (n : ℕ) (D : ℕ → P.GF) : Prop :=
  ∀ k < n, m.cell a (line k) = some (P.poly (D k))

theorem HoldsWord.of_frame {m m' : Machine P.dims} {W : List Arr} {a : Arr} {n : ℕ} {D : ℕ → P.GF}
    (h : HoldsWord m a n D) (hf : Frame W m m') (ha : a ∉ W) : HoldsWord m' a n D := fun k hk => by
  rw [hf.cell _ ha]
  exact h k hk

/-- The array `a` holds the first `n` symbols of `D` in index form. -/
def HoldsIndex (m : Machine P.dims) (a : Arr) (n : ℕ) (D : ℕ → P.GF) : Prop :=
  ∀ k < n, m.cell a (line k) = some (P.index (D k))

theorem HoldsIndex.of_frame {m m' : Machine P.dims} {W : List Arr} {a : Arr} {n : ℕ} {D : ℕ → P.GF}
    (h : HoldsIndex m a n D) (hf : Frame W m m') (ha : a ∉ W) : HoldsIndex m' a n D := fun k hk => by
  rw [hf.cell _ ha]
  exact h k hk

theorem inBounds_recd {k : ℕ} (hk : k < P.nn) : InBounds (P.dims .recd) (line k) := by
  simp only [CodeParams.dims, inBounds_cons, inBounds_nil, and_true]
  omega

theorem inBounds_data {k : ℕ} (hk : k < P.kk) : InBounds (P.dims .data) (line k) := by
  simp only [CodeParams.dims, inBounds_cons, inBounds_nil, and_true]
  omega

theorem wp_receive {m : Machine P.dims} {a : Arr} {n : ℕ} {f : ℕ → ℤ} {D : ℕ → P.GF}
    (hf : ∀ k < n, f k = P.poly (D k)) (hb : ∀ k < n, InBounds (P.dims a) (line k)) :
    wp (receive P a n f) (fun _ m' => Frame [a] m m' ∧ HoldsWord m' a n D) m := by
  refine wp_mono (wp_forEach_wrote a line f (Nat.zero_le n) fun k s _ hk hs => ?_)
    fun _ m' h => ⟨h.frame, fun k hk => ?_⟩
  · rw [wp_store (hb k hk)]
    exact hs.put line_injective k (hb k hk)
  · rw [h.new k (by simpa using hk), hf k hk]

end ReedSolomon
