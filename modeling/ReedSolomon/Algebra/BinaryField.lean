import Mathlib.RingTheory.AdjoinRoot
import Mathlib.Algebra.CharP.Two
import Mathlib.Algebra.Field.ZMod
import Mathlib.GroupTheory.OrderOfElement
import Mathlib.Combinatorics.Colex
import Mathlib.Data.Nat.Bitwise

/-!
# Bit vectors as elements of a binary extension field

For a polynomial `p` over the two-element field, the natural number `v` stands for the element
`ofBits p v` of `AdjoinRoot p` whose coordinates in the powers of the root are the bits of `v`,
lowest bit first. Below `2 ^ deg p` this is a bijection (`ofBits_injOn`, `exists_ofBits`), exclusive
or is addition (`ofBits_xor`), and a shift to the left is multiplication by the root
(`ofBits_shiftLeft`).

`PrimitivePoly p` says that `p` is a primitive polynomial: irreducible, with a root of the largest
possible order. The second condition implies the first (`irreducible_of_orderOf`), and every nonzero
element is then a power of the root (`exists_pow_root`).
-/

open Polynomial Finset

namespace BinaryField

variable (p : (ZMod 2)[X])

/-- The element whose coordinates in the powers of the root are the bits of `v`. -/
noncomputable def ofBits (v : ℕ) : AdjoinRoot p :=
  ∑ i ∈ range p.natDegree, if v.testBit i then AdjoinRoot.root p ^ i else 0

@[simp] theorem ofBits_zero : ofBits p 0 = 0 := by
  simp [ofBits]

theorem add_self (x : AdjoinRoot p) : x + x = 0 := by
  rw [← two_mul, ← map_ofNat (AdjoinRoot.of p) 2, show (OfNat.ofNat 2 : ZMod 2) = 0 from rfl, map_zero,
    zero_mul]

theorem ofBits_xor (v w : ℕ) : ofBits p (v ^^^ w) = ofBits p v + ofBits p w := by
  rw [ofBits, ofBits, ofBits, ← sum_add_distrib]
  refine sum_congr rfl fun i _ => ?_
  rw [Nat.testBit_xor]
  cases v.testBit i <;> cases w.testBit i <;> simp [add_self]

theorem ofBits_eq_mk (v : ℕ) : ofBits p v =
    AdjoinRoot.mk p (∑ i ∈ range p.natDegree, if v.testBit i then X ^ i else 0) := by
  rw [ofBits, map_sum]
  refine sum_congr rfl fun i _ => ?_
  split_ifs <;> simp

theorem coeff_bits (v n j : ℕ) :
    (∑ i ∈ range n, if v.testBit i then (X : (ZMod 2)[X]) ^ i else 0).coeff j =
      if j < n ∧ v.testBit j then 1 else 0 := by
  rw [finsetSum_coeff]
  have hterm : ∀ i ∈ range n, (if v.testBit i then (X : (ZMod 2)[X]) ^ i else 0).coeff j =
      if i = j then (if v.testBit j then 1 else 0) else 0 := by
    intro i _
    by_cases hij : i = j
    · subst hij
      cases v.testBit i <;> simp
    · cases v.testBit i <;> simp [coeff_X_pow, hij, Ne.symm hij]
  rw [sum_congr rfl hterm, sum_ite_eq']
  by_cases hj : j < n <;> simp [hj]

theorem degree_bits_lt (v n : ℕ) :
    (∑ i ∈ range n, if v.testBit i then (X : (ZMod 2)[X]) ^ i else 0).degree < n := by
  rw [degree_lt_iff_coeff_zero]
  intro j hj
  rw [coeff_bits, if_neg (by omega)]

variable {p}

theorem testBit_eq_of_lt {v n i : ℕ} (hv : v < 2 ^ n) (hi : n ≤ i) : v.testBit i = false :=
  Nat.testBit_lt_two_pow (lt_of_lt_of_le hv (Nat.pow_le_pow_right (by decide) hi))

theorem eq_zero_of_ofBits (hp : p ≠ 0) {v : ℕ} (hv : v < 2 ^ p.natDegree) (h : ofBits p v = 0) :
    v = 0 := by
  rw [ofBits_eq_mk, AdjoinRoot.mk_eq_zero] at h
  have hzero := eq_zero_of_dvd_of_degree_lt h (by
    rw [degree_eq_natDegree hp]
    exact degree_bits_lt v _)
  refine Nat.eq_of_testBit_eq fun i => ?_
  rw [Nat.zero_testBit]
  by_cases hi : i < p.natDegree
  · have hc := coeff_bits v p.natDegree i
    rw [hzero, coeff_zero] at hc
    by_contra hbit
    simp [hi, hbit] at hc
  · exact testBit_eq_of_lt hv (by omega)

theorem ofBits_injOn (hp : p ≠ 0) {v w : ℕ} (hv : v < 2 ^ p.natDegree) (hw : w < 2 ^ p.natDegree)
    (h : ofBits p v = ofBits p w) : v = w := by
  have hx : v ^^^ w = 0 := by
    refine eq_zero_of_ofBits hp (Nat.xor_lt_two_pow hv hw) ?_
    rw [ofBits_xor, h, add_self]
  exact Nat.eq_of_xor_eq_zero hx

/-- The coefficients of a polynomial as bits, lowest first. -/
noncomputable def bitVector (f : (ZMod 2)[X]) : ℕ := ∑ j ∈ f.support, 2 ^ j

theorem testBit_bitVector (f : (ZMod 2)[X]) (j : ℕ) : (bitVector f).testBit j ↔ f.coeff j = 1 := by
  have hcoeff : ∀ c : ZMod 2, c ≠ 0 ↔ c = 1 := by decide
  rw [← Nat.mem_bitIndices, ← List.mem_toFinset, bitVector, toFinset_bitIndices_sum_two_pow, mem_support_iff,
    hcoeff]

theorem bitVector_lt {f : (ZMod 2)[X]} {n : ℕ} (hf : f.degree < n) : bitVector f < 2 ^ n := by
  apply Nat.lt_pow_two_of_testBit
  intro j hj
  have hzero : f.coeff j = 0 := coeff_eq_zero_of_degree_lt (hf.trans_le (by exact_mod_cast hj))
  rw [Bool.eq_false_iff, ne_eq, testBit_bitVector, hzero]
  exact zero_ne_one

theorem ofBits_bitVector {f : (ZMod 2)[X]} (hf : f.degree < p.natDegree) :
    ofBits p (bitVector f) = AdjoinRoot.mk p f := by
  rw [ofBits_eq_mk]
  congr 1
  ext j
  rw [coeff_bits]
  by_cases hj : j < p.natDegree
  · have hcoeff : ∀ c : ZMod 2, (if c = 1 then (1 : ZMod 2) else 0) = c := by decide
    simpa only [hj, true_and, testBit_bitVector] using hcoeff (f.coeff j)
  · rw [if_neg (by omega), coeff_eq_zero_of_degree_lt (hf.trans_le (by exact_mod_cast not_lt.mp hj))]

theorem monic_of_ne_zero (hp : p ≠ 0) : p.Monic := by
  have : ∀ c : ZMod 2, c ≠ 0 → c = 1 := by decide
  exact this _ (leadingCoeff_ne_zero.mpr hp)

theorem degree_modByMonic_lt_natDegree (hp : p ≠ 0) (f : (ZMod 2)[X]) : (f %ₘ p).degree < p.natDegree := by
  rw [← degree_eq_natDegree hp]
  exact degree_modByMonic_lt f (monic_of_ne_zero hp)

theorem ofBits_bitVector_modByMonic (hp : p ≠ 0) (f : (ZMod 2)[X]) :
    ofBits p (bitVector (f %ₘ p)) = AdjoinRoot.mk p f := by
  rw [ofBits_bitVector (degree_modByMonic_lt_natDegree hp f)]
  conv_rhs => rw [← modByMonic_add_div f p, map_add, map_mul, AdjoinRoot.mk_self, zero_mul, add_zero]

theorem exists_ofBits (hp : p ≠ 0) (x : AdjoinRoot p) : ∃ v < 2 ^ p.natDegree, ofBits p v = x := by
  obtain ⟨f, rfl⟩ := AdjoinRoot.mk_surjective x
  exact ⟨bitVector (f %ₘ p), bitVector_lt (degree_modByMonic_lt_natDegree hp f), ofBits_bitVector_modByMonic hp f⟩

theorem ofBits_two_pow {i : ℕ} (hi : i < p.natDegree) :
    ofBits p (2 ^ i) = AdjoinRoot.root p ^ i := by
  rw [ofBits]
  simp only [Nat.testBit_two_pow]
  rw [sum_eq_single_of_mem i (mem_range.mpr hi) (by
    intro j _ hj
    simp [Ne.symm hj])]
  simp

theorem ofBits_shiftLeft {v : ℕ} (hv : 2 * v < 2 ^ p.natDegree) :
    ofBits p (2 * v) = AdjoinRoot.root p * ofBits p v := by
  rcases Nat.eq_zero_or_pos p.natDegree with h0 | hpos
  · simp [ofBits, h0]
  · obtain ⟨n, hn⟩ : ∃ n, p.natDegree = n + 1 := ⟨p.natDegree - 1, by omega⟩
    rw [hn, pow_succ] at hv
    rw [ofBits, ofBits, hn, sum_range_succ', sum_range_succ, testBit_eq_of_lt (n := n) (by omega) le_rfl]
    simp only [Nat.testBit_succ, Nat.testBit_zero, Nat.mul_mod_right, pow_succ]
    rw [mul_add, mul_sum]
    simp [mul_comm]

/-! ### Primitive polynomials -/

/-- An irreducible polynomial whose root generates every nonzero element. -/
structure PrimitivePoly (p : (ZMod 2)[X]) : Prop where
  irreducible : Irreducible p
  orderOf_root : orderOf (AdjoinRoot.root p) = 2 ^ p.natDegree - 1

noncomputable def bitsEquiv (hp : p ≠ 0) : Fin (2 ^ p.natDegree) ≃ AdjoinRoot p :=
  Equiv.ofBijective (fun v => ofBits p v)
    ⟨fun v w h => Fin.ext (ofBits_injOn hp v.isLt w.isLt h), fun x => by
      obtain ⟨v, hv, rfl⟩ := exists_ofBits hp x
      exact ⟨⟨v, hv⟩, rfl⟩⟩

theorem exists_pow_root (hp : p ≠ 0) (hdeg : 0 < p.natDegree)
    (hord : orderOf (AdjoinRoot.root p) = 2 ^ p.natDegree - 1) {x : AdjoinRoot p} (hx : x ≠ 0) :
    ∃ i < 2 ^ p.natDegree - 1, AdjoinRoot.root p ^ i = x := by
  classical
  let _ : Fintype (AdjoinRoot p) := Fintype.ofEquiv _ (bitsEquiv hp)
  have hcard : Fintype.card (AdjoinRoot p) = 2 ^ p.natDegree := by
    rw [← Fintype.card_congr (bitsEquiv hp), Fintype.card_fin]
  have htwo : 2 ≤ 2 ^ p.natDegree := by
    calc 2 = 2 ^ 1 := rfl
      _ ≤ 2 ^ p.natDegree := Nat.pow_le_pow_right (by decide) hdeg
  have hunit : ∀ i, AdjoinRoot.root p ^ i ≠ 0 := by
    intro i h0
    have hone : AdjoinRoot.root p ^ (2 ^ p.natDegree - 1) = 1 := by rw [← hord]; exact pow_orderOf_eq_one _
    have hzero : (1 : AdjoinRoot p) = 0 := by
      calc (1 : AdjoinRoot p) = (AdjoinRoot.root p ^ (2 ^ p.natDegree - 1)) ^ i := by rw [hone, one_pow]
        _ = (AdjoinRoot.root p ^ i) ^ (2 ^ p.natDegree - 1) := by rw [← pow_mul, ← pow_mul, mul_comm]
        _ = 0 := by rw [h0]; exact zero_pow (by omega)
    have := Fintype.card_le_one_iff_subsingleton.mpr (subsingleton_of_zero_eq_one hzero.symm)
    omega
  have himage : (range (2 ^ p.natDegree - 1)).image (AdjoinRoot.root p ^ ·) = univ.erase 0 := by
    refine eq_of_subset_of_card_le ?_ ?_
    · intro y hy
      obtain ⟨i, _, rfl⟩ := mem_image.mp hy
      exact mem_erase.mpr ⟨hunit i, mem_univ _⟩
    · rw [card_erase_of_mem (mem_univ _), card_univ, hcard, card_image_of_injOn, card_range]
      intro i hi j hj hij
      rw [← hord] at hi hj
      exact pow_injOn_Iio_orderOf (by simpa using hi) (by simpa using hj) hij
  have hmem : x ∈ (range (2 ^ p.natDegree - 1)).image (AdjoinRoot.root p ^ ·) := by
    rw [himage]
    exact mem_erase.mpr ⟨hx, mem_univ _⟩
  obtain ⟨i, hi, rfl⟩ := mem_image.mp hmem
  exact ⟨i, mem_range.mp hi, rfl⟩

/-- A root of maximal order makes every nonzero element invertible, so the polynomial cannot
factor. -/
theorem irreducible_of_orderOf (hp : p ≠ 0) (hdeg : 0 < p.natDegree)
    (hord : orderOf (AdjoinRoot.root p) = 2 ^ p.natDegree - 1) : Irreducible p := by
  have htwo : 2 ≤ 2 ^ p.natDegree := by
    calc 2 = 2 ^ 1 := rfl
      _ ≤ 2 ^ p.natDegree := Nat.pow_le_pow_right (by decide) hdeg
  have hroot : IsUnit (AdjoinRoot.root p) :=
    IsUnit.of_pow_eq_one (by rw [← hord]; exact pow_orderOf_eq_one _) (n := 2 ^ p.natDegree - 1) (by omega)
  have hunit : ∀ x : AdjoinRoot p, x ≠ 0 → IsUnit x := by
    intro x hx
    obtain ⟨i, _, rfl⟩ := exists_pow_root hp hdeg hord hx
    exact hroot.pow i
  refine ⟨fun hu => ?_, fun a b hab => ?_⟩
  · exact absurd (natDegree_eq_zero_of_isUnit hu) (by omega)
  · have hprod : AdjoinRoot.mk p a * AdjoinRoot.mk p b = 0 := by
      rw [← map_mul, ← hab, AdjoinRoot.mk_self]
    have hdvd : p ∣ a ∨ p ∣ b := by
      by_cases ha : AdjoinRoot.mk p a = 0
      · exact Or.inl (AdjoinRoot.mk_eq_zero.mp ha)
      · exact Or.inr (AdjoinRoot.mk_eq_zero.mp ((hunit _ ha).mul_right_eq_zero.mp hprod))
    have hane : a ≠ 0 := by rintro rfl; exact hp (by simpa using hab)
    have hbne : b ≠ 0 := by rintro rfl; exact hp (by simpa using hab)
    have hsum : p.natDegree = a.natDegree + b.natDegree := by rw [hab, natDegree_mul hane hbne]
    rcases hdvd with h | h
    · have := natDegree_le_of_dvd h hane
      exact Or.inr ((isUnit_iff_degree_eq_zero).mpr (by
        rw [degree_eq_natDegree hbne]
        exact_mod_cast (by omega : b.natDegree = 0)))
    · have := natDegree_le_of_dvd h hbne
      exact Or.inl ((isUnit_iff_degree_eq_zero).mpr (by
        rw [degree_eq_natDegree hane]
        exact_mod_cast (by omega : a.natDegree = 0)))

end BinaryField
