import ReedSolomon.Imp.Machine
import ReedSolomon.Algebra.BinaryField

/-!
# Parameters and arrays

The `#define`s at the top of `general_RS.c` (repeated in `RSCommon.h`), which the file invites its
user to change: `FieldParams` is the field (`mm` and the primitive polynomial `pp`), `CodeParams` adds
the code (`tt`, `b0`). Both carry the conditions under which the file's comments describe a
Reed-Solomon code, so every value of these types is such a setting. `nn` and `kk` are what the
comments next to them say.

`Arr` names the arrays of the C program, the global ones and the locals of `decode_rs`, and
`CodeParams.dims` gives their declared sizes.
-/

open Polynomial BinaryField

namespace ReedSolomon

/-- The polynomial over the two-element field with coefficients `pp[0], …, pp[mm]`. -/
noncomputable def modulus (mm : ℕ) (pp : ℕ → ℤ) : (ZMod 2)[X] :=
  ∑ i ∈ Finset.range (mm + 1), C (pp i : ZMod 2) * X ^ i

theorem natDegree_modulus {mm : ℕ} {pp : ℕ → ℤ} (htop : pp mm = 1) : (modulus mm pp).natDegree = mm := by
  have hcoeff : (modulus mm pp).coeff mm = 1 := by
    simp [modulus, finsetSum_coeff, coeff_X_pow, htop]
  refine natDegree_eq_of_le_of_coeff_ne_zero ?_ (by rw [hcoeff]; exact one_ne_zero)
  refine natDegree_sum_le_of_forall_le _ _ fun i hi => ?_
  refine (natDegree_C_mul_le _ _).trans ?_
  rw [natDegree_X_pow]
  exact Nat.lt_succ_iff.mp (Finset.mem_range.mp hi)

structure FieldParams where
  mm : ℕ
  pp : ℕ → ℤ
  two_le_mm : 2 ≤ mm
  pp_bit : ∀ i ≤ mm, pp i = 0 ∨ pp i = 1
  pp_top : pp mm = 1
  primitive : PrimitivePoly (modulus mm pp)

/-- `nn = 2**mm - 1`, the length of a codeword. -/
def FieldParams.nn (K : FieldParams) : ℕ := 2 ^ K.mm - 1

structure CodeParams extends FieldParams where
  tt : ℕ
  b0 : ℕ
  one_le_tt : 1 ≤ tt
  two_tt_lt : 2 * tt < toFieldParams.nn
  b0_lt : b0 < toFieldParams.nn

namespace CodeParams

/-- `kk = nn - 2*tt`, the length of a message. -/
def kk (P : CodeParams) : ℕ := P.nn - 2 * P.tt

theorem nn_sub_kk (P : CodeParams) : P.nn - P.kk = 2 * P.tt := by
  have := P.two_tt_lt
  rw [kk]
  omega

theorem kk_add (P : CodeParams) : P.kk + 2 * P.tt = P.nn := by
  have := P.two_tt_lt
  rw [kk]
  omega

end CodeParams

/-- The arrays of the C program. -/
inductive Arr
  | alphaTo | indexOf | gg
  | recd | data | bb
  | elp | d | l | uLu | s
  | root | loc | z | err | reg
  deriving DecidableEq, Repr

/-- The declared sizes. -/
def CodeParams.dims (P : CodeParams) : Arr → List ℕ
  | .alphaTo => [P.nn + 1]
  | .indexOf => [P.nn + 1]
  | .gg => [P.nn - P.kk + 1]
  | .recd => [P.nn]
  | .data => [P.kk]
  | .bb => [P.nn - P.kk]
  | .elp => [P.nn - P.kk + 2, P.nn - P.kk]
  | .d => [P.nn - P.kk + 2]
  | .l => [P.nn - P.kk + 2]
  | .uLu => [P.nn - P.kk + 2]
  | .s => [P.nn - P.kk + 1]
  | .root => [P.tt]
  | .loc => [P.tt]
  | .z => [P.tt + 1]
  | .err => [P.nn]
  | .reg => [P.tt + 1]

/-- Programs over the arrays of the C program. -/
abbrev Code (P : CodeParams) (α : Type) : Type := Imp.Prog (Imp.Machine P.dims) α

end ReedSolomon
