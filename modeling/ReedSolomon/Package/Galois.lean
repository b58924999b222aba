import ReedSolomon.Main.Words
import ReedSolomon.Spec.Package

/-!
# Three multipliers

The encoder multiplies with the network of gates `galois`, the decoder with sums of logarithms in the tables, and
the package of the SystemVerilog bench has the network over ints of 32 bits. They agree on all operands
(`galois_agree`).
-/

open Imp

namespace ReedSolomon

theorem and_one {w : ℕ} (a : BitVec w) : a &&& 1#w = (BitVec.ofBool (a.getLsbD 0)).setWidth w := by
  apply BitVec.eq_of_getLsbD_eq
  intro i hi
  cases i <;> simp [BitVec.getLsbD_one, Bool.and_comm]

theorem setWidth_bits (z0 z1 z2 z3 z4 z5 z6 z7 : BitVec 1) :
    z0.setWidth 32 ||| z1.setWidth 32 <<< 1 ||| z2.setWidth 32 <<< 2 ||| z3.setWidth 32 <<< 3 |||
        z4.setWidth 32 <<< 4 ||| z5.setWidth 32 <<< 5 ||| z6.setWidth 32 <<< 6 ||| z7.setWidth 32 <<< 7 =
      (z0.setWidth 8 ||| z1.setWidth 8 <<< 1 ||| z2.setWidth 8 <<< 2 ||| z3.setWidth 8 <<< 3 |||
        z4.setWidth 8 <<< 4 ||| z5.setWidth 8 <<< 5 ||| z6.setWidth 8 <<< 6 ||| z7.setWidth 8 <<< 7).setWidth 32 := by
  revert z0 z1 z2 z3 z4 z5 z6 z7
  decide +kernel

theorem Sv.galois_eq (a b : BitVec 32) :
    Sv.galois a b = (ReedSolomon.galois (a.setWidth 8) (b.setWidth 8)).setWidth 32 := by
  have ha : ∀ k < 8, (a.setWidth 8).getLsbD k = a.getLsbD k := fun k hk => by simp [hk]
  have hb : ∀ k < 8, (b.setWidth 8).getLsbD k = b.getLsbD k := fun k hk => by simp [hk]
  simp (disch := decide) only [Sv.galois, ReedSolomon.galois, and_one, BitVec.getLsbD_ushiftRight,
    Nat.add_zero, ← BitVec.setWidth_and, ← BitVec.setWidth_xor, ha, hb]
  exact setWidth_bits _ _ _ _ _ _ _ _

theorem ofInt_toInt_byte (a : BitVec 32) : BitVec.ofInt 8 a.toInt = a.setWidth 8 := by
  apply BitVec.eq_of_toNat_eq
  rw [BitVec.toNat_ofInt, BitVec.toNat_setWidth, BitVec.toInt_eq_toNat_cond]
  have := a.isLt
  split_ifs <;> omega

theorem ofInt_emod_byte (v : ℤ) : BitVec.ofInt 8 (v % 256) = BitVec.ofInt 8 v := by
  apply BitVec.eq_of_toNat_eq
  rw [BitVec.toNat_ofInt, BitVec.toNat_ofInt]
  omega

theorem toInt_setWidth_byte (v : BitVec 8) : (v.setWidth 32).toInt = v.toNat := by
  have := v.isLt
  rw [BitVec.toInt_eq_toNat_cond, BitVec.toNat_setWidth]
  split_ifs <;> omega

theorem HasTables.product {P : CodeParams} {m : Machine P.dims} (h : HasTables m) {x y : P.GF} (hx : x ≠ 0) (hy : y ≠ 0) :
    m.val .alphaTo [(m.val .indexOf [P.poly x] + m.val .indexOf [P.poly y]) % P.nn] = P.poly (x * y) := by
  rw [Machine.val_of_cell (h.indexOf x), Machine.val_of_cell (h.indexOf y), P.index_of_ne_zero hy, P.index_add_mod hx,
    P.alpha_pow_log hy, Machine.val_of_cell (h.alphaTo_index (mul_ne_zero hx hy))]

/-- **The multipliers agree.** -/
theorem galois_agree (m : Machine rs255.dims) (a b : BitVec 32) :
    let t := (generateGf rs255).exec m
    let x := a.toInt % 256
    let y := b.toInt % 256
    (Sv.galois a b).toInt = galoisInt a.toInt b.toInt ∧
      galoisInt a.toInt b.toInt =
        if x = 0 ∨ y = 0 then 0 else t.val .alphaTo [(t.val .indexOf [x] + t.val .indexOf [y]) % 255] := by
  intro t x y
  have hT : HasTables t := (wp_iff_run.mp (wp_generateGf m)).1
  refine ⟨?_, ?_⟩
  · rw [Sv.galois_eq, toInt_setWidth_byte, galoisInt, ofInt_toInt_byte, ofInt_toInt_byte]
  · obtain ⟨u, hu⟩ := rs255.exists_poly (show 0 ≤ x by omega) (show x ≤ (255 : ℕ) by omega)
    obtain ⟨v, hv⟩ := rs255.exists_poly (show 0 ≤ y by omega) (show y ≤ (255 : ℕ) by omega)
    have hmul : galoisInt a.toInt b.toInt = rs255.poly (u * v) := by
      rw [← galoisMul_rs255 u v, hu, hv, galoisInt, galoisInt, ofInt_emod_byte, ofInt_emod_byte]
    have hzero : x = 0 ∨ y = 0 ↔ u = 0 ∨ v = 0 := by
      rw [← hu, ← hv, rs255.poly_eq_zero, rs255.poly_eq_zero]
    rw [hmul]
    simp only [hzero]
    split_ifs with h
    · rw [mul_eq_zero.mpr h, rs255.poly_zero]
    · rw [← hu, ← hv]
      exact (hT.product (fun hu0 => h (Or.inl hu0)) fun hv0 => h (Or.inr hv0)).symm

end ReedSolomon
