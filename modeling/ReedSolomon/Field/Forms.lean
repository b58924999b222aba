import ReedSolomon.Spec.Params
import Mathlib.Tactic.Ring

/-!
# Polynomial form and index form

`K.GF` is the field of the parameters `K` and `K.alpha` its primitive element. The program keeps a
field element as an int in one of two forms: `poly x`, the bit vector of `x`, and `index x`, its
logarithm, with the sentinel `-1` for 0. The lemmas below say what the int operations of the program
do to the two forms.
-/

open Polynomial BinaryField

namespace ReedSolomon

namespace FieldParams

variable (K : FieldParams)

theorem natDegree_modulus : (modulus K.mm K.pp).natDegree = K.mm := ReedSolomon.natDegree_modulus K.pp_top

theorem modulus_ne_zero : modulus K.mm K.pp ≠ 0 := K.primitive.irreducible.ne_zero

/-- The field with `2 ^ mm` elements. -/
def GF : Type := AdjoinRoot (modulus K.mm K.pp)

instance : Fact (Irreducible (modulus K.mm K.pp)) := ⟨K.primitive.irreducible⟩

noncomputable instance : Field K.GF := inferInstanceAs (Field (AdjoinRoot (modulus K.mm K.pp)))

noncomputable instance : DecidableEq K.GF := Classical.decEq _

/-- The primitive element. -/
noncomputable def alpha : K.GF := AdjoinRoot.root (modulus K.mm K.pp)

/-- The element with bit vector `v`. -/
noncomputable def ofBits (v : ℕ) : K.GF := BinaryField.ofBits (modulus K.mm K.pp) v

theorem add_self (x : K.GF) : x + x = 0 := BinaryField.add_self _ x

instance : CharP K.GF 2 :=
  CharTwo.of_one_ne_zero_of_two_eq_zero one_ne_zero (by rw [← one_add_one_eq_two]; exact K.add_self 1)

theorem two_pow_mm : 2 ^ K.mm = K.nn + 1 := by
  have : 0 < 2 ^ K.mm := Nat.two_pow_pos _
  rw [nn]
  omega

theorem mm_lt_nn : K.mm < K.nn := by
  have h : ∀ n, 2 ≤ n → n + 1 < 2 ^ n := by
    intro n hn
    induction n, hn using Nat.le_induction with
    | base => decide
    | succ n hn ih => rw [pow_succ]; omega
  have := h K.mm K.two_le_mm
  have := K.two_pow_mm
  omega

theorem nn_pos : 0 < K.nn := lt_of_le_of_lt (Nat.zero_le _) K.mm_lt_nn

/-! ### Powers of the primitive element -/

theorem orderOf_alpha : orderOf K.alpha = K.nn := by
  have h := K.primitive.orderOf_root
  rw [natDegree_modulus] at h
  exact h

@[simp] theorem alpha_pow_nn : K.alpha ^ K.nn = 1 := by
  rw [← K.orderOf_alpha]
  exact pow_orderOf_eq_one _

theorem alpha_ne_zero : K.alpha ≠ 0 := by
  intro h
  have := K.alpha_pow_nn
  rw [h, zero_pow K.nn_pos.ne'] at this
  exact zero_ne_one this

theorem alpha_pow_ne_zero (i : ℕ) : K.alpha ^ i ≠ 0 := pow_ne_zero i K.alpha_ne_zero

@[simp] theorem alpha_pow_mod (i : ℕ) : K.alpha ^ (i % K.nn) = K.alpha ^ i := by
  rw [← K.orderOf_alpha]
  exact pow_mod_orderOf _ _

theorem alpha_pow_injOn {i j : ℕ} (hi : i < K.nn) (hj : j < K.nn) (h : K.alpha ^ i = K.alpha ^ j) :
    i = j := by
  rw [← K.orderOf_alpha] at hi hj
  exact pow_injOn_Iio_orderOf (by simpa using hi) (by simpa using hj) h

theorem alpha_pow_sub {k : ℕ} (hk : k ≤ K.nn) : K.alpha ^ (K.nn - k) = (K.alpha ^ k)⁻¹ := by
  refine eq_inv_of_mul_eq_one_left ?_
  rw [← pow_add, Nat.sub_add_cancel hk, alpha_pow_nn]

theorem exists_pow {x : K.GF} (hx : x ≠ 0) : ∃ i < K.nn, K.alpha ^ i = x := by
  have h := exists_pow_root K.modulus_ne_zero (by rw [natDegree_modulus]; have := K.two_le_mm; omega)
    K.primitive.orderOf_root (x := x) hx
  rwa [natDegree_modulus] at h

/-! ### Polynomial form -/

theorem exists_ofBits (x : K.GF) : ∃ v < 2 ^ K.mm, K.ofBits v = x := by
  have h := BinaryField.exists_ofBits K.modulus_ne_zero x
  rwa [natDegree_modulus] at h

/-- The bit vector of a field element. -/
noncomputable def bits (x : K.GF) : ℕ := (K.exists_ofBits x).choose

theorem bits_lt (x : K.GF) : K.bits x < 2 ^ K.mm := (K.exists_ofBits x).choose_spec.1

@[simp] theorem ofBits_bits (x : K.GF) : K.ofBits (K.bits x) = x := (K.exists_ofBits x).choose_spec.2

theorem bits_ofBits {v : ℕ} (hv : v < 2 ^ K.mm) : K.bits (K.ofBits v) = v := by
  refine BinaryField.ofBits_injOn K.modulus_ne_zero ?_ ?_ (K.ofBits_bits _)
  · rw [natDegree_modulus]
    exact K.bits_lt _
  · rwa [natDegree_modulus]

theorem bits_injective {x y : K.GF} (h : K.bits x = K.bits y) : x = y := by
  rw [← K.ofBits_bits x, h, ofBits_bits]

theorem bits_zero : K.bits 0 = 0 := by
  have h0 : K.ofBits 0 = 0 := BinaryField.ofBits_zero _
  rw [← h0, bits_ofBits _ (Nat.two_pow_pos _)]

theorem bits_xor (x y : K.GF) : K.bits x ^^^ K.bits y = K.bits (x + y) := by
  have h : K.ofBits (K.bits x ^^^ K.bits y) = x + y := by
    rw [ofBits, BinaryField.ofBits_xor]
    exact congrArg₂ _ (K.ofBits_bits x) (K.ofBits_bits y)
  rw [← h, bits_ofBits _ (Nat.xor_lt_two_pow (K.bits_lt x) (K.bits_lt y))]

theorem bits_alpha_pow {i : ℕ} (hi : i < K.mm) : K.bits (K.alpha ^ i) = 2 ^ i := by
  have h : K.ofBits (2 ^ i) = K.alpha ^ i :=
    BinaryField.ofBits_two_pow (by rwa [natDegree_modulus])
  rw [← h, bits_ofBits _ (Nat.pow_lt_pow_right (by decide) hi)]

/-- The bits of a power are the coefficients of `x^i` modulo the primitive polynomial. -/
theorem bits_alpha_pow_eq (i : ℕ) : K.bits (K.alpha ^ i) = bitVector (X ^ i %ₘ modulus K.mm K.pp) := by
  have hof : K.ofBits (bitVector (X ^ i %ₘ modulus K.mm K.pp)) = K.alpha ^ i := by
    refine (ofBits_bitVector_modByMonic K.modulus_ne_zero (X ^ i)).trans ?_
    rw [map_pow, AdjoinRoot.mk_X]
    rfl
  have hlt := bitVector_lt (degree_modByMonic_lt_natDegree K.modulus_ne_zero (X ^ i))
  rw [natDegree_modulus] at hlt
  rw [← hof, bits_ofBits _ hlt]

theorem bits_alpha_mul {x : K.GF} (hx : 2 * K.bits x < 2 ^ K.mm) : K.bits (K.alpha * x) = 2 * K.bits x := by
  have h : K.ofBits (2 * K.bits x) = K.alpha * x := by
    have := BinaryField.ofBits_shiftLeft (p := modulus K.mm K.pp) (v := K.bits x) (by rwa [natDegree_modulus])
    rw [ofBits, this]
    exact congrArg _ (K.ofBits_bits x)
  rw [← h, bits_ofBits _ hx]

/-- The polynomial form of a field element. -/
noncomputable def poly (x : K.GF) : ℤ := K.bits x

theorem poly_nonneg (x : K.GF) : 0 ≤ K.poly x := Int.natCast_nonneg _

theorem poly_le (x : K.GF) : K.poly x ≤ K.nn := by
  have h1 := K.bits_lt x
  have h2 := K.two_pow_mm
  rw [poly]
  omega

theorem poly_injective {x y : K.GF} (h : K.poly x = K.poly y) : x = y :=
  K.bits_injective (Int.ofNat_inj.mp h)

@[simp] theorem poly_inj {x y : K.GF} : K.poly x = K.poly y ↔ x = y := ⟨K.poly_injective, congrArg _⟩

@[simp] theorem poly_zero : K.poly 0 = 0 := by
  rw [poly, bits_zero]
  rfl

@[simp] theorem poly_one : K.poly 1 = 1 := by
  have h := K.bits_alpha_pow (i := 0) (by have := K.two_le_mm; omega)
  rw [pow_zero] at h
  rw [poly, h]
  rfl

@[simp] theorem poly_eq_zero {x : K.GF} : K.poly x = 0 ↔ x = 0 := by
  rw [← K.poly_zero, poly_inj]

@[simp] theorem xor_poly (x y : K.GF) : Int.xor (K.poly x) (K.poly y) = K.poly (x + y) := by
  rw [poly, poly, poly, ← bits_xor]
  rfl

theorem exists_poly {v : ℤ} (h0 : 0 ≤ v) (hv : v ≤ K.nn) : ∃ x : K.GF, K.poly x = v := by
  obtain ⟨n, rfl⟩ := Int.eq_ofNat_of_zero_le h0
  refine ⟨K.ofBits n, ?_⟩
  rw [poly, bits_ofBits]
  have := K.two_pow_mm
  omega

/-! ### Index form -/

/-- The logarithm of a nonzero field element. -/
noncomputable def log (x : K.GF) : ℕ := if hx : x = 0 then 0 else (K.exists_pow hx).choose

theorem log_lt (x : K.GF) : K.log x < K.nn := by
  rw [log]
  split_ifs with hx
  · exact K.nn_pos
  · exact (K.exists_pow hx).choose_spec.1

theorem alpha_pow_log {x : K.GF} (hx : x ≠ 0) : K.alpha ^ K.log x = x := by
  rw [log, dif_neg hx]
  exact (K.exists_pow hx).choose_spec.2

theorem log_alpha_pow {i : ℕ} (hi : i < K.nn) : K.log (K.alpha ^ i) = i :=
  K.alpha_pow_injOn (K.log_lt _) hi (K.alpha_pow_log (K.alpha_pow_ne_zero i))

/-- The index form of a field element. -/
noncomputable def index (x : K.GF) : ℤ := if x = 0 then -1 else K.log x

@[simp] theorem index_zero : K.index 0 = -1 := if_pos rfl

theorem index_of_ne_zero {x : K.GF} (hx : x ≠ 0) : K.index x = K.log x := if_neg hx

@[simp] theorem index_eq_neg_one {x : K.GF} : K.index x = -1 ↔ x = 0 := by
  rw [index]
  split_ifs with hx <;> simp [hx]

theorem index_injective {x y : K.GF} (h : K.index x = K.index y) : x = y := by
  by_cases hy : y = 0
  · rwa [hy, index_zero, index_eq_neg_one, ← hy] at h
  · have hx : x ≠ 0 := by
      rw [Ne, ← K.index_eq_neg_one, h, K.index_eq_neg_one]
      exact hy
    rw [K.index_of_ne_zero hx, K.index_of_ne_zero hy, Nat.cast_inj] at h
    rw [← K.alpha_pow_log hx, h, K.alpha_pow_log hy]

@[simp] theorem index_one : K.index 1 = 0 := by
  have h := K.log_alpha_pow K.nn_pos
  rw [pow_zero] at h
  rw [index_of_ne_zero _ one_ne_zero, h]
  rfl

theorem index_add_mod {x : K.GF} (hx : x ≠ 0) (j : ℕ) :
    (K.index x + j) % K.nn = K.index (x * K.alpha ^ j) := by
  have hpow : x * K.alpha ^ j = K.alpha ^ ((K.log x + j) % K.nn) := by
    rw [alpha_pow_mod, pow_add, K.alpha_pow_log hx]
  have hne : x * K.alpha ^ j ≠ 0 := mul_ne_zero hx (K.alpha_pow_ne_zero j)
  rw [K.index_of_ne_zero hx, K.index_of_ne_zero hne, hpow, K.log_alpha_pow (Nat.mod_lt _ K.nn_pos)]
  push_cast
  rfl

end FieldParams

end ReedSolomon
