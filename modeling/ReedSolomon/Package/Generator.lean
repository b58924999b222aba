import ReedSolomon.Main.Settings
import ReedSolomon.Package.Agreement

/-!
# Tables and generator polynomial of the package

`generate_gf` of the package leaves the tables of the C program (`generateGf_tables`). `generate_poly` does not leave
its generator polynomial: `gg[0]` is multiplied inside the inner loop, once for each coefficient, and its value is
added to `gg[1]` on the way. What it computes instead is `skewed`, in which a constant is added before each factor
(`skewed_succ`). The constants vanish for one factor or two, and not all of them for four, so the two polynomials
are the same if and only if `tt = 1` (`generators_agree_iff`).
-/

open Imp Finset Polynomial

namespace ReedSolomon

variable {P : CodeParams}

/-! ### The tables -/

namespace Sv

/-- The tables of the package hold what their comments say. -/
structure HasTables (m : Machine (dims P)) : Prop where
  alphaTo : ∀ i < P.nn, m.cell .alphaTo [(i : ℤ)] = some (P.poly (P.alpha ^ i))
  indexOf : ∀ x : P.GF, m.cell .indexOf [P.poly x] = some (P.index x)

theorem HasTables.of_frame {m m' : Machine (dims P)} {W : List Arr} (h : HasTables m) (hf : Frame W m m')
    (ha : .alphaTo ∉ W) (hi : .indexOf ∉ W) : HasTables m' := by
  constructor
  · intro i hin
    rw [hf.cell _ ha]
    exact h.alphaTo i hin
  · intro x
    rw [hf.cell _ hi]
    exact h.indexOf x

theorem hasTables_generateGf (m' : Machine (dims P)) : HasTables ((generateGf P).exec m') := by
  have hC := (wp_iff_run.mp (wp_generateGf (P := P) (Machine.start fun _ _ => 0))).1
  have hmirrors := mirrors_generateGf (P := P) (φ := all .polynomial) (fun _ _ => 0) m'
  constructor
  · intro i hi
    exact hmirrors .alphaTo .alphaTo _ rfl _ (hC.alphaTo i hi)
  · intro x
    exact hmirrors .indexOf .indexOf _ rfl _ (hC.indexOf x)

end Sv

/-- **The field tables.** -/
theorem generateGf_tables (P : CodeParams) (m : Machine P.dims) (m' : Machine (Sv.dims P)) :
    let t := (generateGf P).exec m
    let t' := (Sv.generateGf P).exec m'
    FieldTables P.toFieldParams (fun i => t.cell .alphaTo [i]) (fun v => t.cell .indexOf [v]) ∧
      FieldTables P.toFieldParams (fun i => t'.cell .alphaTo [i]) (fun v => t'.cell .indexOf [v]) := by
  intro t t'
  have hC := (wp_iff_run.mp (wp_generateGf m)).1
  have hSv := Sv.hasTables_generateGf m'
  exact ⟨hC.fieldTables, fieldTables_of hSv.alphaTo hSv.indexOf⟩

/-! ### The polynomial of `generate_poly` -/

/-- What is added to the product of the first `n` factors before the next one. -/
noncomputable def excess (P : CodeParams) (n : ℕ) (f : P.GF[X]) : P.GF :=
  f.coeff 0 * ((P.alpha ^ (P.b0 + n)) ^ (n - 1) + 1)

/-- The polynomial of `generate_poly` after `n` factors. -/
noncomputable def skewed (P : CodeParams) : ℕ → P.GF[X]
  | 0 => 1
  | n + 1 => (X + C (P.alpha ^ (P.b0 + n))) * (skewed P n + C (excess P n (skewed P n)))

theorem skewed_succ (n : ℕ) :
    skewed P (n + 1) = (X + C (P.alpha ^ (P.b0 + n))) * (skewed P n + C (excess P n (skewed P n))) := rfl

theorem excess_of_le_one {n : ℕ} (hn : n ≤ 1) (f : P.GF[X]) : excess P n f = 0 := by
  rw [excess, Nat.sub_eq_zero_of_le hn, pow_zero, P.add_self, mul_zero]

theorem skewed_one : skewed P 1 = generator P 1 := by
  rw [skewed_succ, excess_of_le_one (by omega), generator_succ, C_0, skewed, generator, range_zero, prod_empty]
  ring

theorem skewed_coeff_succ_zero {n : ℕ} (hn : 1 ≤ n) :
    (skewed P (n + 1)).coeff 0 = (skewed P n).coeff 0 * (P.alpha ^ (P.b0 + n)) ^ n := by
  have hpow : (P.alpha ^ (P.b0 + n)) ^ n = (P.alpha ^ (P.b0 + n)) ^ (n - 1) * P.alpha ^ (P.b0 + n) := by
    rw [← pow_succ, Nat.sub_add_cancel hn]
  have htwice := P.add_self ((skewed P n).coeff 0)
  rw [skewed_succ, mul_coeff_zero, coeff_add, coeff_add, coeff_X_zero, coeff_C_zero, coeff_C_zero, excess, hpow]
  linear_combination (P.alpha ^ (P.b0 + n)) * htwice

theorem skewed_coeff_succ_one {n : ℕ} : (skewed P (n + 1)).coeff 1 =
    (skewed P n).coeff 0 * (P.alpha ^ (P.b0 + n)) ^ (n - 1) + (skewed P n).coeff 1 * P.alpha ^ (P.b0 + n) := by
  have htwice := P.add_self ((skewed P n).coeff 0)
  rw [skewed_succ, add_mul, coeff_add, coeff_X_mul, coeff_C_mul, coeff_add, coeff_add, coeff_C_zero,
    coeff_C_succ, excess]
  linear_combination htwice

theorem skewed_coeff_succ {n j : ℕ} (hj : 1 ≤ j) : (skewed P (n + 1)).coeff (j + 1) =
    (skewed P n).coeff j + (skewed P n).coeff (j + 1) * P.alpha ^ (P.b0 + n) := by
  obtain ⟨k, rfl⟩ : ∃ k, j = k + 1 := ⟨j - 1, by omega⟩
  rw [skewed_succ, add_mul, coeff_add, coeff_X_mul, coeff_C_mul, coeff_add, coeff_add, coeff_C_succ, coeff_C_succ]
  ring

theorem skewed_natDegree_le (n : ℕ) : (skewed P n).natDegree ≤ n := by
  induction n with
  | zero => exact natDegree_one.le
  | succ n ih =>
    calc (skewed P (n + 1)).natDegree
        ≤ (X + C (P.alpha ^ (P.b0 + n))).natDegree + (skewed P n + C (excess P n (skewed P n))).natDegree :=
          natDegree_mul_le
      _ = 1 + (skewed P n).natDegree := by rw [natDegree_X_add_C, natDegree_add_C]
      _ ≤ n + 1 := by omega

theorem skewed_coeff_self (n : ℕ) : (skewed P n).coeff n = 1 := by
  induction n with
  | zero => exact coeff_one_zero
  | succ n ih =>
    have habove : (skewed P n).coeff (n + 1) = 0 :=
      coeff_eq_zero_of_natDegree_lt (Nat.lt_succ_of_le (skewed_natDegree_le n))
    rcases Nat.eq_zero_or_pos n with rfl | hpos
    · rw [skewed_coeff_succ_one, habove, zero_mul, add_zero, ih, Nat.zero_sub, pow_zero, mul_one]
    · rw [skewed_coeff_succ hpos, habove, zero_mul, add_zero, ih]

theorem skewed_coeff_zero_ne (n : ℕ) : (skewed P n).coeff 0 ≠ 0 := by
  induction n with
  | zero => rw [skewed_coeff_self]; exact one_ne_zero
  | succ n ih =>
    rcases Nat.eq_zero_or_pos n with rfl | hpos
    · rw [skewed_succ, excess_of_le_one (by omega), C_0, mul_coeff_zero, coeff_add, coeff_X_zero, zero_add,
        coeff_C_zero, add_zero (skewed P 0)]
      exact mul_ne_zero (P.alpha_pow_ne_zero _) ih
    · rw [skewed_coeff_succ_zero hpos]
      exact mul_ne_zero ih (pow_ne_zero _ (P.alpha_pow_ne_zero _))

theorem skewed_eval (n : ℕ) : (skewed P (n + 1)).eval (P.alpha ^ (P.b0 + n)) = 0 := by
  rw [skewed_succ, eval_mul, eval_add, eval_X, eval_C, P.add_self, zero_mul]

theorem skewed_eq_back {n : ℕ} (hn : 1 ≤ n) (h : skewed P (n + 1) = generator P (n + 1)) :
    skewed P n = generator P n ∧ excess P n (skewed P n) = 0 := by
  obtain ⟨k, rfl⟩ : ∃ k, n = k + 1 := ⟨n - 1, by omega⟩
  have hfactor : X + C (P.alpha ^ (P.b0 + (k + 1))) ≠ 0 := X_add_C_ne_zero _
  have hsum : skewed P (k + 1) + C (excess P (k + 1) (skewed P (k + 1))) = generator P (k + 1) := by
    rw [skewed_succ (k + 1), generator_succ (k + 1), mul_comm (generator P (k + 1))] at h
    exact mul_left_cancel₀ hfactor h
  have heval := congrArg (eval (P.alpha ^ (P.b0 + k))) hsum
  rw [eval_add, skewed_eval, eval_C, zero_add, generator_eval_eq_zero (Nat.lt_succ_self k)] at heval
  rw [heval, C_0, add_zero] at hsum
  exact ⟨hsum, heval⟩

theorem skewed_eq_of_le {n k : ℕ} (hk : 1 ≤ k) (hkn : k ≤ n) (h : skewed P n = generator P n) :
    skewed P k = generator P k := by
  induction n, hkn using Nat.le_induction with
  | base => exact h
  | succ n hkn ih => exact ih (skewed_eq_back (hk.trans hkn) h).1

/-- No three constants in a row vanish. -/
theorem not_skewed_eq_four : skewed P 4 ≠ generator P 4 := by
  intro h
  have hnn := P.mm_lt_nn
  have hmm := P.two_le_mm
  obtain ⟨h3, hthree⟩ := skewed_eq_back (n := 3) (by omega) h
  obtain ⟨-, htwo⟩ := skewed_eq_back (n := 2) (by omega) h3
  have hone : P.alpha ^ (P.b0 + 2) = 1 := by
    have := (mul_eq_zero.mp htwo).resolve_left (skewed_coeff_zero_ne 2)
    rw [pow_one] at this
    exact CharTwo.add_eq_zero.mp this
  have hsq : P.alpha ^ 2 = 1 := by
    have hroot : P.alpha ^ (P.b0 + 3) = P.alpha := by
      rw [show P.b0 + 3 = P.b0 + 2 + 1 by omega, pow_succ, hone, one_mul]
    have := (mul_eq_zero.mp hthree).resolve_left (skewed_coeff_zero_ne 3)
    rw [hroot] at this
    exact CharTwo.add_eq_zero.mp this
  have := P.alpha_pow_injOn (show 2 < P.nn by omega) (show 0 < P.nn by omega) (by rw [hsq, pow_zero])
  omega

theorem skewed_eq_generator_iff : skewed P (2 * P.tt) = generator P (2 * P.tt) ↔ P.tt = 1 := by
  have htt := P.one_le_tt
  constructor
  · intro h
    by_contra hne
    exact not_skewed_eq_four (skewed_eq_of_le (by omega) (show 4 ≤ 2 * P.tt by omega) h)
  · intro h
    rw [h, Nat.mul_one, generator_succ 1, skewed_succ 1, excess_of_le_one le_rfl, skewed_one, C_0, add_zero, mul_comm]

/-! ### `generate_poly` -/

namespace Sv

theorem inBounds_gg {j : ℕ} (hj : j ≤ 2 * P.tt) : InBounds (dims P .gg) (line j) := ReedSolomon.inBounds_gg hj

/-- Before pass `j` of the inner loop: the coefficients from `j` on are those of the new product, and `gg[0]` was
multiplied once for each of them. -/
structure Skewing (m₀ : Machine (dims P)) (n j : ℕ) (m : Machine (dims P)) : Prop where
  frame : Frame [.gg] m₀ m
  new : ∀ k, j ≤ k → k ≤ n + 1 → m.cell .gg (line k) = some (P.poly ((skewed P (n + 1)).coeff k))
  old : ∀ k, 1 ≤ k → k < j → m.cell .gg (line k) = some (P.poly ((skewed P n).coeff k))
  zero : m.cell .gg [0] = some (P.poly ((skewed P n).coeff 0 * (P.alpha ^ (P.b0 + n)) ^ (n + 1 - j)))

theorem skewed_pass {n j : ℕ} (hj : 1 ≤ j) : (skewed P (n + 1)).coeff j =
    (if j = 1 then (skewed P n).coeff 0 * (P.alpha ^ (P.b0 + n)) ^ (n - 1) else (skewed P n).coeff (j - 1)) +
      (skewed P n).coeff j * P.alpha ^ (P.b0 + n) := by
  split_ifs with h
  · rw [h, skewed_coeff_succ_one]
  · obtain ⟨k, rfl⟩ : ∃ k, j = k + 1 := ⟨j - 1, by omega⟩
    rw [skewed_coeff_succ (by omega), Nat.add_sub_cancel]

theorem line_ne_zero {k : ℕ} (hk : 1 ≤ k) : (line k : List ℤ) ≠ [0] := by
  simpa [line] using show k ≠ 0 by omega

theorem Skewing.prev {m₀ m : Machine (dims P)} {n j : ℕ} (h : Skewing m₀ n (j + 1) m) (hj : 1 ≤ j) :
    m.cell .gg [(j : ℤ) - 1] = some (P.poly (if j = 1 then
      (skewed P n).coeff 0 * (P.alpha ^ (P.b0 + n)) ^ (n - 1) else (skewed P n).coeff (j - 1))) := by
  split_ifs with h1
  · have hzero := h.zero
    rw [h1, show n + 1 - (1 + 1) = n - 1 by omega] at hzero
    rw [h1, Nat.cast_one, sub_self]
    exact hzero
  · have := h.old (j - 1) (by omega) (by omega)
    rwa [line, Nat.cast_sub hj, Nat.cast_one] at this

theorem Skewing.put {m₀ m : Machine (dims P)} {n j : ℕ} (h : Skewing m₀ n (j + 1) m) (hj : 1 ≤ j)
    (hb : InBounds (dims P .gg) (line j)) (hb0 : InBounds (dims P .gg) [0]) :
    Skewing m₀ n j ((m.put .gg (line j) (P.poly ((skewed P (n + 1)).coeff j)) hb).put .gg [0]
      (P.poly ((skewed P n).coeff 0 * (P.alpha ^ (P.b0 + n)) ^ (n + 1 - j))) hb0) := by
  refine ⟨(h.frame.put (by simp) _ _ _).put (by simp) _ _ _, ?_, ?_, Machine.cell_put_self _ _ _ _ _⟩
  · intro k hk hkn
    rw [Machine.cell_put_of_idx _ _ _ (line_ne_zero (by omega))]
    rcases Nat.eq_or_lt_of_le hk with rfl | hlt
    · exact Machine.cell_put_self _ _ _ _ _
    · rw [Machine.cell_put_of_idx _ _ _ (line_injective.ne (by omega))]
      exact h.new k hlt hkn
  · intro k hk hkj
    rw [Machine.cell_put_of_idx _ _ _ (line_ne_zero hk), Machine.cell_put_of_idx _ _ _ (line_injective.ne (by omega))]
    exact h.old k hk (by omega)

theorem mulCoeff_step {m₀ m : Machine (dims P)} (hT : HasTables m₀) {n j : ℕ} (hn : n + 1 ≤ 2 * P.tt) (hj : 1 ≤ j)
    (hjn : j ≤ n) (h : Skewing m₀ n (j + 1) m) : wp (mulCoeff P (n + 1) j) (fun _ => Skewing m₀ n j) m := by
  have hTm := hT.of_frame h.frame (by simp) (by simp)
  have hself := h.old j hj (Nat.lt_succ_self j)
  have hb : InBounds (dims P .gg) (line j) := inBounds_gg (by omega)
  have hb0 : InBounds (dims P .gg) [0] := inBounds_gg (j := 0) (Nat.zero_le _)
  rw [mulCoeff, wp_bind, wp_load hself]
  refine wp_seq (wp_multiplyAdd (n := n) hTm.alphaTo hTm.indexOf hb hself (h.prev hj)) ?_
  rintro _ _ rfl
  rw [← skewed_pass hj]
  have hzero : (m.put .gg (line j) (P.poly ((skewed P (n + 1)).coeff j)) hb).cell .gg [0] =
      some (P.poly ((skewed P n).coeff 0 * (P.alpha ^ (P.b0 + n)) ^ (n + 1 - (j + 1)))) := by
    rw [Machine.cell_put_of_idx _ _ _ (line_ne_zero hj).symm]
    exact h.zero
  have hTs := hTm.of_frame ((Frame.refl _ m).put (List.mem_singleton_self _) (line j)
    (P.poly ((skewed P (n + 1)).coeff j)) hb) (by simp) (by simp)
  apply wp_mono (wp_multiplyZero hTs.alphaTo hTs.indexOf hb0 hzero (mul_ne_zero (skewed_coeff_zero_ne n)
    (pow_ne_zero (n + 1 - (j + 1)) (P.alpha_pow_ne_zero (P.b0 + n)))))
  rintro _ _ rfl
  rw [mul_assoc, ← pow_succ, show n + 1 - (j + 1) + 1 = n + 1 - j by omega]
  exact h.put hj hb hb0

/-- `gg` holds the polynomial of the first `n` factors. -/
def HasSkewed (m : Machine (dims P)) (n : ℕ) : Prop :=
  ∀ j ≤ n, m.cell .gg (line j) = some (P.poly ((skewed P n).coeff j))

theorem mulFactor_step {m : Machine (dims P)} (hT : HasTables m) {n : ℕ} (hn1 : 1 ≤ n) (hn : n + 1 ≤ 2 * P.tt)
    (h : HasSkewed m n) : wp (mulFactor P (n + 1)) (fun _ m' => Frame [.gg] m m' ∧ HasSkewed m' (n + 1)) m := by
  have hb : InBounds (dims P .gg) (line (n + 1)) := inBounds_gg hn
  simp only [mulFactor, wp_bind]
  rw [wp_store hb]
  have hstart : Skewing m n (n + 1) (m.put .gg (line (n + 1)) 1 hb) := by
    refine ⟨(Frame.refl _ m).put (by simp) _ _ _, ?_, ?_, ?_⟩
    · intro k hk hkn
      obtain rfl : k = n + 1 := by omega
      rw [skewed_coeff_self, P.poly_one]
      exact Machine.cell_put_self _ _ _ _ _
    · intro k _ hk
      rw [Machine.cell_put_of_idx _ _ _ (line_injective.ne (by omega))]
      exact h k (by omega)
    · have hne : (line 0 : List ℤ) ≠ line (n + 1) := line_injective.ne (by omega)
      rw [Nat.sub_self, pow_zero, mul_one, ← h 0 (Nat.zero_le n)]
      exact Machine.cell_put_of_idx _ _ _ hne
  have hloop := wp_forDown (Skewing m n) (show 1 ≤ n + 1 by omega) hstart fun j s hj hjn hs =>
    mulCoeff_step hT hn hj (by omega) hs
  apply wp_mono hloop
  intro _ s hs
  refine ⟨hs.frame, fun j hj => ?_⟩
  rcases Nat.eq_zero_or_pos j with rfl | hpos
  · have hzero := hs.zero
    rw [Nat.add_sub_cancel, ← skewed_coeff_succ_zero hn1] at hzero
    exact hzero
  · exact hs.new j hpos hj

/-- `gg` holds the index forms of the coefficients of `skewed`. -/
def HasSkewedIndex (m : Machine (dims P)) : Prop :=
  ∀ j ≤ 2 * P.tt, m.cell .gg (line j) = some (P.index ((skewed P (2 * P.tt)).coeff j))

theorem wp_generatePoly {m : Machine (dims P)} (hT : HasTables m) :
    wp (generatePoly P) (fun _ m' => HasSkewedIndex m') m := by
  have htt := P.one_le_tt
  have hb0 : InBounds (dims P .gg) [0] := inBounds_gg (j := 0) (Nat.zero_le _)
  have hb1 : InBounds (dims P .gg) [1] := inBounds_gg (j := 1) (by omega)
  simp only [generatePoly, wp_bind]
  rw [wp_load (hT.alphaTo P.b0 P.b0_lt), wp_store hb0, wp_store hb1, P.nn_sub_kk]
  have hstart : HasSkewed ((m.put .gg [0] (P.poly (P.alpha ^ P.b0)) hb0).put .gg [1] 1 hb1) 1 := by
    intro j hj
    obtain rfl | rfl : j = 0 ∨ j = 1 := by omega
    · simp [Machine.cell_put, skewed_one, generator_one_coeff_zero]
    · rw [skewed_coeff_self, P.poly_one]
      exact Machine.cell_put_self _ _ _ _ _
  have hfactors := wp_forEach (fun i s => Frame [.gg] m s ∧ HasSkewed s (i - 1)) (show 2 ≤ 2 * P.tt + 1 by omega)
    ⟨((Frame.refl _ m).put (by simp) _ _ _).put (by simp) _ _ _, hstart⟩ fun i s hi hin hs => by
      obtain ⟨n, rfl⟩ : ∃ n, i = n + 1 := ⟨i - 1, by omega⟩
      apply wp_mono (mulFactor_step (hT.of_frame hs.1 (by simp) (by simp)) (by omega) (by omega) hs.2)
      intro _ s' hs'
      exact ⟨hs.1.trans hs'.1, hs'.2⟩
  apply wp_mono hfactors
  rintro _ m₁ ⟨hf₁, hpoly⟩
  rw [Nat.add_sub_cancel] at hpoly
  have hT₁ := hT.of_frame hf₁ (by simp) (by simp)
  apply wp_mono (wp_forEach_wrote .gg line (fun j => P.index ((skewed P (2 * P.tt)).coeff j))
    (Nat.zero_le (2 * P.tt + 1)) ?_)
  · intro _ m₂ h₂ j hj
    exact h₂.new j (by simp; omega)
  · intro i s _ hi hs
    have hTs := hT₁.of_frame hs.frame (by simp) (by simp)
    have hold := (hs.cell_of_notMem line_injective (k := i) (by simp)).trans (hpoly i (by omega))
    simp only [wp_bind]
    rw [wp_load hold, wp_load (hTs.indexOf _), wp_store (inBounds_gg (by omega))]
    exact hs.put line_injective i (inBounds_gg (by omega))

theorem gg_initialise (m' : Machine (dims P)) : HasSkewedIndex ((initialise P).exec m') := by
  rw [initialise, exec_bind]
  exact wp_iff_run.mp (wp_generatePoly (hasTables_generateGf m'))

end Sv

/-- **The generator polynomials agree if and only if `tt = 1`.** -/
theorem generators_agree_iff (P : CodeParams) (m : Machine P.dims) (m' : Machine (Sv.dims P)) :
    (∀ j ≤ 2 * P.tt, ((Sv.initialise P).exec m').cell .gg (line j) = ((initialise P).exec m).cell .gg (line j)) ↔
      P.tt = 1 := by
  have hC := (initialise_spec P m).1.gg
  have hSv := Sv.gg_initialise (P := P) m'
  rw [← skewed_eq_generator_iff]
  constructor
  · intro h
    ext j
    by_cases hj : j ≤ 2 * P.tt
    · have := h j hj
      rw [hSv j hj, hC j hj, Option.some_inj] at this
      exact P.index_injective this
    · have hgen := generator_natDegree (P := P) (2 * P.tt)
      have hsk := skewed_natDegree_le (P := P) (2 * P.tt)
      rw [coeff_eq_zero_of_natDegree_lt (by omega), coeff_eq_zero_of_natDegree_lt (by omega)]
  · intro h j hj
    rw [hSv j hj, hC j hj, h]

/-! ### The settings of the files -/

theorem generator_coeff_zero (n : ℕ) : (generator P n).coeff 0 = P.alpha ^ ∑ k ∈ range n, (P.b0 + k) := by
  induction n with
  | zero => rw [generator, range_zero, prod_empty, sum_empty, coeff_one_zero, pow_zero]
  | succ n ih => rw [generator_coeff_succ_zero, ih, ← pow_add, sum_range_succ]

theorem skewed_coeff_zero (n : ℕ) : (skewed P (n + 1)).coeff 0 =
    P.alpha ^ (P.b0 + ∑ k ∈ range n, (P.b0 + (k + 1)) * (k + 1)) := by
  induction n with
  | zero => rw [Nat.zero_add, skewed_one, generator_one_coeff_zero, range_zero, sum_empty, Nat.add_zero]
  | succ n ih => rw [skewed_coeff_succ_zero (by omega), ih, sum_range_succ, ← pow_mul, ← pow_add, Nat.add_assoc]

theorem index_alpha_pow (K : FieldParams) (i : ℕ) : K.index (K.alpha ^ i) = ((i % K.nn : ℕ) : ℤ) := by
  rw [← K.alpha_pow_mod, K.index_of_ne_zero (K.alpha_pow_ne_zero _), K.log_alpha_pow (Nat.mod_lt _ K.nn_pos)]

theorem gg_zero_ne {m : Machine rs255.dims} {m' : Machine (Sv.dims rs255)} (hC : HasGenerator m)
    (hSv : Sv.HasSkewedIndex m') : m'.cell .gg (line 0) ≠ m.cell .gg (line 0) := by
  have hlast : (2 * rs255.tt : ℕ) = 15 + 1 := rfl
  have hsum : ∑ k ∈ range 16, (0 + k) = 120 := by decide
  have hsum' : ∑ k ∈ range 15, (0 + (k + 1)) * (k + 1) = 1240 := by simp [sum_range_succ]
  have h := hC 0 (Nat.zero_le _)
  have h' := hSv 0 (Nat.zero_le _)
  rw [hlast, generator_coeff_zero, index_alpha_pow, rs255_nn, show rs255.b0 = 0 from rfl, hsum] at h
  rw [hlast, skewed_coeff_zero, index_alpha_pow, rs255_nn, show rs255.b0 = 0 from rfl, hsum'] at h'
  rw [h, h']
  decide

theorem byteGenerators_not_agree : ¬ ∀ j ≤ 2 * rs255.tt, ((Sv.initialise rs255).exec (Sv.elaborated rs255 0)).cell .gg
    (line j) = ((initialise rs255).exec (Machine.fresh _)).cell .gg (line j) := by
  intro h
  exact gg_zero_ne (initialise_spec rs255 (Machine.fresh _)).1.gg (Sv.gg_initialise (Sv.elaborated rs255 0))
    (h 0 (Nat.zero_le _))

end ReedSolomon
