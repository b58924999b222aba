import ReedSolomon.Decoder.Decode
import ReedSolomon.Encoder.Block
import ReedSolomon.Spec.Main

/-!
# Words of ints

The programs keep symbols in ints. `Symbols P n f` says that `f 0, …, f (n-1)` are symbols, and
`elements P f` is the sequence of field elements they stand for.
-/

open Imp Finset

namespace ReedSolomon

variable {P : CodeParams}

/-- The first `n` values are symbols: at least 0 and at most `nn`. -/
def Symbols (P : CodeParams) (n : ℕ) (f : ℕ → ℤ) : Prop := ∀ k < n, 0 ≤ f k ∧ f k ≤ P.nn

/-- The field elements with the bit vectors `f 0, f 1, …`. -/
noncomputable def elements (P : CodeParams) (f : ℕ → ℤ) (k : ℕ) : P.GF := P.ofBits (f k).toNat

theorem poly_elements {n : ℕ} {f : ℕ → ℤ} (h : Symbols P n f) {k : ℕ} (hk : k < n) : P.poly (elements P f k) = f k := by
  have hk' := h k hk
  have hlt : (f k).toNat < 2 ^ P.mm := by
    rw [P.two_pow_mm]
    omega
  rw [elements, FieldParams.poly, P.bits_ofBits hlt]
  omega

theorem elements_poly (D : ℕ → P.GF) (k : ℕ) : elements P (fun k => P.poly (D k)) k = D k := by
  rw [elements, FieldParams.poly, Int.toNat_natCast, P.ofBits_bits]

theorem symbols_poly (D : ℕ → P.GF) (n : ℕ) : Symbols P n fun k => P.poly (D k) :=
  fun _ _ => ⟨P.poly_nonneg _, P.poly_le _⟩

/-- The places below `n` where two words differ. -/
def differences (n : ℕ) (f g : ℕ → ℤ) : Finset ℕ := {k ∈ range n | f k ≠ g k}

theorem differences_eq {f g : ℕ → ℤ} {x y : ℕ → P.GF} (hf : ∀ k < P.nn, f k = P.poly (x k))
    (hg : ∀ k < P.nn, g k = P.poly (y k)) : differences P.nn f g = differing P x y := by
  ext k
  rw [differences, mem_filter, mem_range, mem_differing]
  refine and_congr_right fun hk => ?_
  rw [hf k hk, hg k hk, ne_eq, P.poly_inj]

/-- The word an array holds. -/
def word (m : Machine P.dims) (a : Arr) (k : ℕ) : ℤ := m.val a (line k)

theorem HoldsWord.word_eq {m : Machine P.dims} {a : Arr} {n : ℕ} {D : ℕ → P.GF} (h : HoldsWord m a n D) {k : ℕ}
    (hk : k < n) : word m a k = P.poly (D k) := Machine.val_of_cell (h k hk)

/-! ### The programs of `main` -/

theorem wp_encode (hG : GaloisMul P) {m : Machine P.dims} (hI : Initialised m) {data : ℕ → ℤ}
    (hdata : Symbols P P.kk data) :
    wp (encode P data) (fun _ m' => Frame [.data, .bb] m m' ∧ HoldsWord m' .data P.kk (elements P data) ∧
      HasRegister m' (remainder P (elements P data) 0)) m := by
  refine wp_seq (wp_receive (fun k hk => (poly_elements hdata hk).symm) fun k hk => inBounds_data hk)
    fun _ m₁ ⟨hf₁, hD⟩ => ?_
  refine wp_mono (wp_encodeRs hG (hI.of_frame hf₁ (by simp) (by simp) (by simp)) hD) fun _ m₂ ⟨hf₂, hR⟩ =>
    ⟨(hf₁.mono (by simp)).trans (hf₂.mono (by simp)), hD.of_frame hf₂ (by simp), hR⟩

theorem wp_transmit (hG : GaloisMul P) {m : Machine P.dims} (hI : Initialised m) {data : ℕ → ℤ}
    (hdata : Symbols P P.kk data) :
    wp (transmit P data) (fun _ m' => Frame [.data, .bb, .recd] m m' ∧
      HoldsWord m' .recd P.nn (block P (elements P data)) ∧
      HasRegister m' (remainder P (elements P data) 0)) m := by
  refine wp_seq (wp_encode hG hI hdata) fun _ m₁ ⟨hf₁, hD, hR⟩ => ?_
  refine wp_mono (wp_assemble hD hR) fun _ m₂ ⟨hf₂, hB⟩ =>
    ⟨(hf₁.mono (by simp)).trans (hf₂.mono (by simp)), hB, fun j hj => ?_⟩
  rw [hf₂.cell _ (by simp)]
  exact hR j hj

theorem wp_receive_recd {m : Machine P.dims} {r : ℕ → ℤ} (hr : Symbols P P.nn r) :
    wp (receive P .recd P.nn r) (fun _ m' => Frame [.recd] m m' ∧ HoldsWord m' .recd P.nn (elements P r)) m :=
  wp_receive (fun _ hk => (poly_elements hr hk).symm) fun _ hk => inBounds_recd hk

end ReedSolomon
