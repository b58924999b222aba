import ReedSolomon.Spec.Params
import Mathlib.Tactic.NormNum.Prime

/-!
# The settings of the files

`mm = 8`, `pp = 1+x^2+x^3+x^4+x^8`, `tt = 8`, `b0 = 0`, as in `general_RS.c`, `RSCommon.h` and
`pkg_reed_solomon.sv`. That `pp` is primitive is checked by running the powers of its root as bytes
(`double`): the 255th is 1, the 85th, 51st and 15th are not.
-/

open Polynomial BinaryField

namespace ReedSolomon

/-- `int pp [mm+1] = { 1, 0, 1, 1, 1, 0, 0, 0, 1}`. -/
def bytePp (i : ℕ) : ℤ := [1, 0, 1, 1, 1, 0, 0, 0, 1].getD i 0

/-- The byte of `@ * x` from the byte of `x`. -/
def double (v : ℕ) : ℕ := if v < 128 then 2 * v else (2 * (v ^^^ 128)) ^^^ 29

theorem natDegree_byte : (modulus 8 bytePp).natDegree = 8 := natDegree_modulus rfl

theorem root_byte : AdjoinRoot.root (modulus 8 bytePp) ^ 8 = ofBits (modulus 8 bytePp) 29 := by
  have hmk : AdjoinRoot.mk (modulus 8 bytePp) (modulus 8 bytePp) = 0 := AdjoinRoot.mk_self
  conv_lhs at hmk => arg 2; rw [modulus]
  simp only [Finset.sum_range_succ, Finset.sum_range_zero, bytePp, map_add, map_mul, map_pow, AdjoinRoot.mk_X]
    at hmk
  have hbits : ofBits (modulus 8 bytePp) 29 = 1 + AdjoinRoot.root (modulus 8 bytePp) ^ 2 +
      AdjoinRoot.root (modulus 8 bytePp) ^ 3 + AdjoinRoot.root (modulus 8 bytePp) ^ 4 := by
    rw [ofBits, natDegree_byte]
    simp [Finset.sum_range_succ, show Nat.testBit 29 1 = false from rfl, show Nat.testBit 29 2 = true from rfl,
      show Nat.testBit 29 3 = true from rfl, show Nat.testBit 29 4 = true from rfl,
      show Nat.testBit 29 5 = false from rfl, show Nat.testBit 29 6 = false from rfl,
      show Nat.testBit 29 7 = false from rfl]
  have hsum : ofBits (modulus 8 bytePp) 29 + AdjoinRoot.root (modulus 8 bytePp) ^ 8 = 0 := by
    rw [hbits]
    simpa using hmk
  calc AdjoinRoot.root (modulus 8 bytePp) ^ 8
      = ofBits (modulus 8 bytePp) 29 + (ofBits (modulus 8 bytePp) 29 + AdjoinRoot.root (modulus 8 bytePp) ^ 8) := by
        rw [← add_assoc, add_self, zero_add]
    _ = ofBits (modulus 8 bytePp) 29 := by rw [hsum, add_zero]

theorem ofBits_double {v : ℕ} (hv : v < 256) : ofBits (modulus 8 bytePp) (double v) =
    AdjoinRoot.root (modulus 8 bytePp) * ofBits (modulus 8 bytePp) v := by
  rw [double]
  split_ifs with h
  · exact ofBits_shiftLeft (by rw [natDegree_byte]; omega)
  · have hclear : ∀ v < 256, ¬ v < 128 → 2 * (v ^^^ 128) < 256 ∧ v ^^^ 128 ^^^ 128 = v := by decide +kernel
    obtain ⟨hlt, hback⟩ := hclear v hv h
    have hsplit : ofBits (modulus 8 bytePp) v =
        ofBits (modulus 8 bytePp) (v ^^^ 128) + AdjoinRoot.root (modulus 8 bytePp) ^ 7 := by
      conv_lhs => rw [← hback, ofBits_xor]
      rw [show (128 : ℕ) = 2 ^ 7 from rfl, ofBits_two_pow (by rw [natDegree_byte]; omega)]
    rw [ofBits_xor, ofBits_shiftLeft (by rw [natDegree_byte]; omega), hsplit, mul_add, ← pow_succ', root_byte]

theorem double_lt {v : ℕ} (hv : v < 256) : double v < 256 := by
  have h : ∀ v < 256, double v < 256 := by decide +kernel
  exact h v hv

theorem root_pow (n : ℕ) : double^[n] 1 < 256 ∧
    AdjoinRoot.root (modulus 8 bytePp) ^ n = ofBits (modulus 8 bytePp) (double^[n] 1) := by
  induction n with
  | zero =>
    refine ⟨by decide, ?_⟩
    have := ofBits_two_pow (p := modulus 8 bytePp) (i := 0) (by rw [natDegree_byte]; omega)
    simpa using this.symm
  | succ n ih =>
    rw [Function.iterate_succ_apply']
    exact ⟨double_lt ih.1, by rw [ofBits_double ih.1, pow_succ', ih.2]⟩

theorem modulus_byte_ne_zero : modulus 8 bytePp ≠ 0 := by
  intro h
  have := natDegree_byte
  rw [h, natDegree_zero] at this
  omega

theorem root_pow_eq_one_iff (n : ℕ) : AdjoinRoot.root (modulus 8 bytePp) ^ n = 1 ↔ double^[n] 1 = 1 := by
  have hone := (root_pow 0).2
  rw [pow_zero] at hone
  rw [(root_pow n).2, hone]
  constructor
  · exact ofBits_injOn modulus_byte_ne_zero (by rw [natDegree_byte]; exact (root_pow n).1)
      (by rw [natDegree_byte]; decide)
  · intro h
    rw [h]
    rfl

theorem orderOf_root_byte : orderOf (AdjoinRoot.root (modulus 8 bytePp)) = 255 := by
  refine orderOf_eq_of_pow_and_pow_div_prime (by decide) ((root_pow_eq_one_iff 255).mpr (by decide +kernel)) ?_
  intro p hp hdvd
  have hmem : p ∈ Nat.primeFactors 255 := Nat.mem_primeFactors.mpr ⟨hp, hdvd, by decide⟩
  rw [show (255 : ℕ) = 3 * 5 * 17 from rfl, Nat.primeFactors_mul (by decide) (by decide),
    Nat.primeFactors_mul (by decide) (by decide), Nat.Prime.primeFactors (by norm_num),
    Nat.Prime.primeFactors (by norm_num), Nat.Prime.primeFactors (by norm_num)] at hmem
  rw [Ne, root_pow_eq_one_iff]
  simp only [Finset.mem_union, Finset.mem_singleton] at hmem
  rcases hmem with (rfl | rfl) | rfl <;> decide +kernel

theorem primitive_byte : PrimitivePoly (modulus 8 bytePp) := by
  have hord : orderOf (AdjoinRoot.root (modulus 8 bytePp)) = 2 ^ (modulus 8 bytePp).natDegree - 1 := by
    rw [natDegree_byte, orderOf_root_byte]
    rfl
  exact ⟨irreducible_of_orderOf modulus_byte_ne_zero (by rw [natDegree_byte]; decide) hord, hord⟩

/-- `mm` and `pp` of the files. -/
def byteField : FieldParams where
  mm := 8
  pp := bytePp
  two_le_mm := by decide
  pp_bit i hi := by
    have h : ∀ i ≤ 8, bytePp i = 0 ∨ bytePp i = 1 := by decide
    exact h i hi
  pp_top := rfl
  primitive := primitive_byte

/-- The settings of the files. -/
def rs255 : CodeParams where
  toFieldParams := byteField
  tt := 8
  b0 := 0
  one_le_tt := by decide
  two_tt_lt := by decide
  b0_lt := by decide

theorem rs255_nn : rs255.nn = 255 := rfl

end ReedSolomon
