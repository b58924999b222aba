import ReedSolomon.Field.Tables
import ReedSolomon.Spec.Settings
import Mathlib.Tactic.LinearCombination

/-!
# The multiplier

`galois` multiplies bytes as elements of the field of the files (`galoisInt_poly`): its eight output
equations are the bilinear forms one gets by expanding the product of two bit vectors and reducing the
powers 8 to 14 of the primitive element.
-/

open Finset BinaryField

namespace ReedSolomon

section Bits

variable {F : Type} [Field F]

def bit (F : Type) [Field F] (b : Bool) : F := if b then 1 else 0

theorem bit_and (x y : Bool) : bit F (x && y) = bit F x * bit F y := by
  cases x <;> cases y <;> simp [bit]

variable [CharP F 2]

theorem bit_bne (x y : Bool) : bit F (x != y) = bit F x + bit F y := by
  cases x <;> cases y <;> simp [bit, CharTwo.add_self_eq_zero]

theorem sum_bit_galois (α : F) (h8 : α ^ 8 = α ^ 4 + α ^ 3 + α ^ 2 + 1) (a b : BitVec 8) :
    ∑ i ∈ range 8, bit F ((galois a b).getLsbD i) * α ^ i =
      (∑ i ∈ range 8, bit F (a.getLsbD i) * α ^ i) * ∑ i ∈ range 8, bit F (b.getLsbD i) * α ^ i := by
  have two : (2 : F) = 0 := CharTwo.two_eq_zero
  have h9 : α ^ 9 = α ^ 5 + α ^ 4 + α ^ 3 + α := by linear_combination α * h8
  have h10 : α ^ 10 = α ^ 6 + α ^ 5 + α ^ 4 + α ^ 2 := by linear_combination α * h9
  have h11 : α ^ 11 = α ^ 7 + α ^ 6 + α ^ 5 + α ^ 3 := by linear_combination α * h10
  have h12 : α ^ 12 = α ^ 7 + α ^ 6 + α ^ 3 + α ^ 2 + 1 := by
    linear_combination α * h11 + h8 + α ^ 4 * two
  have h13 : α ^ 13 = α ^ 7 + α ^ 2 + α + 1 := by
    linear_combination α * h12 + h8 + (α ^ 4 + α ^ 3) * two
  have h14 : α ^ 14 = α ^ 4 + α + 1 := by
    linear_combination α * h13 + h8 + (α ^ 3 + α ^ 2) * two
  simp only [sum_range_succ, sum_range_zero]
  simp only [galois, BitVec.getLsbD_or, BitVec.getLsbD_xor, BitVec.getLsbD_and, BitVec.getLsbD_shiftLeft,
    BitVec.getLsbD_ushiftRight, BitVec.getLsbD_one]
  generalize hA : (fun i => bit F (a.getLsbD i)) = A
  generalize hB : (fun i => bit F (b.getLsbD i)) = B
  have ha : ∀ i, bit F (a.getLsbD i) = A i := fun i => congrFun hA i
  have hb : ∀ i, bit F (b.getLsbD i) = B i := fun i => congrFun hB i
  simp [-BitVec.getLsbD_eq_getElem, bit_bne, bit_and, ha, hb]
  -- the products of total weight `k` meet the reduction of the power `k`
  linear_combination - (A 1 * B 7 + A 2 * B 6 + A 3 * B 5 + A 4 * B 4 + A 5 * B 3 + A 6 * B 2 + A 7 * B 1) * h8
    - (A 2 * B 7 + A 3 * B 6 + A 4 * B 5 + A 5 * B 4 + A 6 * B 3 + A 7 * B 2) * h9
    - (A 3 * B 7 + A 4 * B 6 + A 5 * B 5 + A 6 * B 4 + A 7 * B 3) * h10
    - (A 4 * B 7 + A 5 * B 6 + A 6 * B 5 + A 7 * B 4) * h11
    - (A 5 * B 7 + A 6 * B 6 + A 7 * B 5) * h12 - (A 6 * B 7 + A 7 * B 6) * h13 - (A 7 * B 7) * h14

end Bits

/-- Calls of `galois` multiply polynomial forms. -/
def GaloisMul (P : CodeParams) : Prop :=
  ∀ x y : P.GF, galoisInt (P.poly x) (P.poly y) = P.poly (x * y)

theorem ofBits_byte (v : BitVec 8) :
    byteField.ofBits v.toNat = ∑ i ∈ range 8, bit byteField.GF (v.getLsbD i) * byteField.alpha ^ i := by
  have hdeg : (modulus byteField.mm byteField.pp).natDegree = 8 := natDegree_byte
  refine (show byteField.ofBits v.toNat = _ from rfl).trans ?_
  rw [FieldParams.ofBits, BinaryField.ofBits, hdeg]
  refine sum_congr rfl fun i _ => ?_
  rw [BitVec.testBit_toNat, bit]
  split_ifs
  · exact (one_mul _).symm
  · exact (zero_mul _).symm

theorem alpha_byte_pow_eight : byteField.alpha ^ 8 =
    byteField.alpha ^ 4 + byteField.alpha ^ 3 + byteField.alpha ^ 2 + 1 := by
  have h := byteField.lowPart_mm
  rw [show byteField.mm = 8 from rfl] at h
  rw [← h, FieldParams.lowPart]
  simp only [sum_range_succ, sum_range_zero, show byteField.pp = bytePp from rfl, bytePp]
  simp
  ring

/-- **The multiplier is right** for the field of the files. -/
theorem galoisInt_poly (x y : byteField.GF) :
    galoisInt (byteField.poly x) (byteField.poly y) = byteField.poly (x * y) := by
  have hlt : ∀ z : byteField.GF, byteField.bits z < 2 ^ 8 := fun z => byteField.bits_lt z
  have hof : ∀ z : byteField.GF, byteField.ofBits (BitVec.ofInt 8 (byteField.poly z)).toNat = z := by
    intro z
    rw [FieldParams.poly, BitVec.ofInt_natCast, BitVec.toNat_ofNat, Nat.mod_eq_of_lt (hlt z),
      byteField.ofBits_bits]
  have hmul : byteField.ofBits (galois (BitVec.ofInt 8 (byteField.poly x))
      (BitVec.ofInt 8 (byteField.poly y))).toNat = x * y := by
    rw [ofBits_byte, sum_bit_galois _ alpha_byte_pow_eight, ← ofBits_byte, ← ofBits_byte, hof, hof]
  rw [galoisInt, ← hmul]
  exact congrArg Nat.cast (byteField.bits_ofBits (BitVec.isLt _)).symm

theorem galoisMul_of_byteField {P : CodeParams} (hP : P.toFieldParams = byteField) : GaloisMul P := by
  obtain ⟨K, tt, b0, htt, hlt, hb0⟩ := P
  subst hP
  exact galoisInt_poly

theorem galoisMul_rs255 : GaloisMul rs255 := galoisMul_of_byteField rfl

end ReedSolomon
