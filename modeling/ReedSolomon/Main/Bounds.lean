import ReedSolomon.Main.Guarantees
import ReedSolomon.Main.Search

/-!
# Array bounds of the decoder

Every access of `decode_rs` is inside the declared bounds unless the received word is divisible by the first
fifteen factors of the generator polynomial but not by the last one (`decode_insideBounds_iff`). Such a
word, `overrunWord`, is the polynomial of the fifteen factors itself.
-/

open Imp Finset Polynomial

namespace ReedSolomon

variable {P : CodeParams}

/-- Every access of a run of `c` is inside the declared bounds. -/
def InsideBounds {α : Type} (c : Code P α) (m : Machine P.dims) : Prop :=
  ∀ f ∈ (c.exec { m with faults := [] }).faults, ¬ f.OutOfRange

/-- The word as a polynomial. -/
noncomputable def wordPoly (P : CodeParams) (r : ℕ → ℤ) : P.GF[X] := ∑ k ∈ range P.nn, C (elements P r k) * X ^ k

theorem wordPoly_eval (r : ℕ → ℤ) (i : ℕ) :
    (wordPoly P r).eval (P.alpha ^ (P.b0 + i)) = syndrome P (elements P r) i := by
  rw [wordPoly, eval_finsetSum, syndrome]
  refine sum_congr rfl fun k _ => ?_
  rw [eval_mul, eval_C, eval_pow, eval_X, ← pow_mul, ← pow_mul, mul_comm k]

theorem generator_dvd_iff {n : ℕ} (hn : n ≤ P.nn) (f : P.GF[X]) :
    generator P n ∣ f ↔ ∀ i < n, f.eval (P.alpha ^ (P.b0 + i)) = 0 := by
  constructor
  · rintro ⟨g, rfl⟩ i hi
    rw [eval_mul, generator_eval_eq_zero hi, zero_mul]
  · intro h
    induction n with
    | zero => simp [generator]
    | succ n ih =>
      obtain ⟨g, hg⟩ := ih (by omega) fun i hi => h i (by omega)
      have hlast := h n (Nat.lt_succ_self n)
      have hne : (generator P n).eval (P.alpha ^ (P.b0 + n)) ≠ 0 := by
        rw [generator, eval_prod, prod_ne_zero_iff]
        intro i hi hz
        rw [eval_add, eval_X, eval_C] at hz
        have hi' := mem_range.mp hi
        have heq := CharTwo.add_eq_zero.mp hz
        rw [pow_add, pow_add] at heq
        have := P.alpha_pow_injOn (by omega) (by omega) (mul_left_cancel₀ (P.alpha_pow_ne_zero P.b0) heq)
        omega
      rw [hg, eval_mul] at hlast
      have hroot := (mul_eq_zero.mp hlast).resolve_left hne
      obtain ⟨q, hq⟩ := dvd_iff_isRoot.mpr hroot
      refine ⟨q, ?_⟩
      rw [hg, hq, generator_succ, CharTwo.sub_eq_add]
      ring

theorem overruns_iff_dvd (r : ℕ → ℤ) : Overruns P (terms P (elements P r)) ↔
    generator P (2 * P.tt - 1) ∣ wordPoly P r ∧ ¬ generator P (2 * P.tt) ∣ wordPoly P r := by
  have htt := P.one_le_tt
  have hlt := P.two_tt_lt
  rw [generator_dvd_iff (by omega), generator_dvd_iff (by omega)]
  simp only [wordPoly_eval]
  have hlast : terms P (elements P r) (2 * P.tt) = syndrome P (elements P r) (2 * P.tt - 1) := by
    rw [← terms_succ, Nat.sub_add_cancel (by omega)]
  constructor
  · rintro ⟨hzero, hne⟩
    refine ⟨fun i hi => ?_, fun h => hne ?_⟩
    · rw [← terms_succ]
      exact hzero (i + 1) (by omega) (by omega)
    · rw [hlast]
      exact h _ (by omega)
  · rintro ⟨hzero, hne⟩
    refine ⟨fun k hk hkt => ?_, fun h => hne fun i hi => ?_⟩
    · obtain ⟨i, rfl⟩ : ∃ i, k = i + 1 := ⟨k - 1, by omega⟩
      rw [terms_succ]
      exact hzero i (by omega)
    · rcases Nat.lt_or_ge i (2 * P.tt - 1) with hlt' | hge
      · exact hzero i hlt'
      · obtain rfl : i = 2 * P.tt - 1 := by omega
        rw [← hlast, h]

theorem insideBounds_iff {m : Machine P.dims} (hT : HasTables m) {x : ℕ → P.GF} (hx : HoldsWord m .recd P.nn x) :
    InsideBounds (decodeRs P) m ↔ ¬ Overruns P (terms P x) := by
  obtain ⟨y, hy⟩ := wp_iff_run.mp (wp_decodeRs (m := { m with faults := [] }) ⟨hT.alphaTo, hT.indexOf⟩ hx)
  rw [InsideBounds]
  rcases hy.frame with ⟨hno, hf⟩ | ⟨hover, hf⟩
  · rw [hf.faults]
    exact ⟨fun _ => hno, fun _ f hmem => absurd hmem (List.not_mem_nil)⟩
  · rw [hf.faults]
    refine ⟨fun h => absurd trivial (h (overrun P) ?_), fun h => absurd hover h⟩
    exact List.mem_append_right _ (List.mem_singleton_self _)

/-- **Array bounds.** -/
theorem decode_insideBounds_iff (m : Machine rs255.dims) (r : ℕ → ℤ) (hr : Symbols rs255 255 r) :
    InsideBounds (decodeRs rs255) (heard (booted m) r) ↔
      ¬ (generator rs255 15 ∣ wordPoly rs255 r ∧ ¬ generator rs255 16 ∣ wordPoly rs255 r) := by
  have hT := (booted_spec m).1.tables.of_frame (heard_spec hr).1 (by simp) (by simp)
  rw [insideBounds_iff hT (heard_spec hr).2, overruns_iff_dvd]
  exact Iff.rfl

theorem decode_twoOnes_insideBounds : InsideBounds (decodeRs rs255) (heard (booted (Machine.fresh _)) twoOnes) := by
  have hfew : (differing rs255 (elements rs255 twoOnes) fun _ => 0).card ≤ rs255.tt := by
    rw [differing_twoOnes fun _ _ => rfl]
    decide
  have hnot := not_overruns isCodeword_zero hfew
  rw [overruns_iff_dvd] at hnot
  exact (decode_insideBounds_iff (Machine.fresh _) twoOnes symbols_twoOnes).mpr hnot

/-! ### A word that overruns -/

/-- The value at `a` of the polynomial with the coefficients `cs`. -/
def horner (a : ℤ) : List ℤ → ℤ
  | [] => 0
  | c :: cs => Int.xor c (galoisInt (horner a cs) a)

/-- The polynomial form of `@**i`. -/
def powerInt : ℕ → ℤ
  | 0 => 1
  | i + 1 => galoisInt (powerInt i) 2

theorem powerInt_eq (i : ℕ) : powerInt i = rs255.poly (rs255.alpha ^ i) := by
  induction i with
  | zero => rw [powerInt, pow_zero, rs255.poly_one]
  | succ i ih =>
    have htwo : rs255.poly rs255.alpha = 2 := by
      have := rs255.poly_alpha_pow (i := 1) (by decide)
      rwa [pow_one] at this
    rw [powerInt, ih, ← htwo, galoisMul_rs255, pow_succ]

theorem horner_eq (x : rs255.GF) (D : ℕ → rs255.GF) (n i : ℕ) :
    horner (rs255.poly x) ((List.range' i n).map fun k => rs255.poly (D k)) =
      rs255.poly (∑ k ∈ range n, D (i + k) * x ^ k) := by
  induction n generalizing i with
  | zero => simp [horner]
  | succ n ih =>
    have hsum : ∑ k ∈ range (n + 1), D (i + k) * x ^ k = D i + (∑ k ∈ range n, D (i + 1 + k) * x ^ k) * x := by
      rw [sum_range_succ', sum_mul, pow_zero, mul_one, add_zero, add_comm]
      congr 1
      refine sum_congr rfl fun k _ => ?_
      rw [show i + (k + 1) = i + 1 + k by omega]
      ring
    rw [List.range'_succ, List.map_cons, horner, ih, galoisMul_rs255, rs255.xor_poly, hsum]

/-- The coefficients of the product of the first fifteen factors of the generator polynomial. -/
def overrunCoeffs : List ℤ := [26, 134, 32, 151, 132, 139, 105, 105, 10, 74, 112, 163, 111, 196, 29, 1]

/-- The received word with these coefficients. -/
def overrunWord (k : ℕ) : ℤ := overrunCoeffs.getD k 0

theorem symbols_overrunWord : Symbols rs255 255 overrunWord := by
  intro k _
  have hall : ∀ v ∈ overrunCoeffs, 0 ≤ v ∧ v ≤ 255 := by decide
  rw [overrunWord, List.getD_eq_getElem?_getD]
  cases h : overrunCoeffs[k]? with
  | none => exact ⟨le_rfl, Int.natCast_nonneg _⟩
  | some v => exact hall v (List.mem_of_getElem? h)

theorem map_poly_overrunWord :
    ((List.range' 0 16).map fun k => rs255.poly (elements rs255 overrunWord k)) = overrunCoeffs := by
  have hlist : (List.range' 0 16).map overrunWord = overrunCoeffs := by decide
  rw [← hlist]
  refine List.map_congr_left fun k hk => poly_elements symbols_overrunWord ?_
  rw [List.mem_range'_1] at hk
  omega

theorem syndrome_overrunWord (i : ℕ) :
    rs255.poly (syndrome rs255 (elements rs255 overrunWord) i) = horner (powerInt i) overrunCoeffs := by
  have hrest : ∀ k ∈ range 255, k ∉ range 16 →
      elements rs255 overrunWord k * (rs255.alpha ^ k) ^ (rs255.b0 + i) = 0 := fun k _ hk => by
    have hlen : overrunCoeffs.length ≤ k := not_lt.mp fun h => hk (mem_range.mpr h)
    have hzero : overrunWord k = 0 := List.getD_eq_default _ _ hlen
    rw [elements, hzero, Int.toNat_zero]
    exact mul_eq_zero_of_left (BinaryField.ofBits_zero _) _
  have hpow : ∀ k, elements rs255 overrunWord (0 + k) * (rs255.alpha ^ i) ^ k =
      elements rs255 overrunWord k * (rs255.alpha ^ k) ^ (rs255.b0 + i) := fun k => by
    rw [show rs255.b0 = 0 from rfl, Nat.zero_add, Nat.zero_add, ← pow_mul, ← pow_mul, mul_comm i]
  rw [powerInt_eq, ← map_poly_overrunWord, horner_eq, sum_congr rfl fun k _ => hpow k]
  exact congrArg rs255.poly (sum_subset (range_subset_range.mpr (by decide)) hrest).symm

theorem overrunWord_not_insideBounds :
    ¬ InsideBounds (decodeRs rs255) (heard (booted (Machine.fresh _)) overrunWord) := by
  have hT := (booted_spec (Machine.fresh _)).1.tables.of_frame (heard_spec symbols_overrunWord).1 (by simp) (by simp)
  have hzero : ∀ i < 15, horner (powerInt i) overrunCoeffs = 0 := by decide +kernel
  have hlast : horner (powerInt 15) overrunCoeffs = 61 := by decide +kernel
  rw [insideBounds_iff hT (heard_spec symbols_overrunWord).2, not_not]
  constructor
  · intro k hk hlt
    obtain ⟨i, rfl⟩ : ∃ i, k = i + 1 := ⟨k - 1, by omega⟩
    have hi : i + 1 < 16 := hlt
    rw [terms_succ, ← rs255.poly_eq_zero, syndrome_overrunWord]
    exact hzero i (by omega)
  · intro h
    have h15 : terms rs255 (elements rs255 overrunWord) (15 + 1) = 0 := h
    rw [terms_succ, ← rs255.poly_eq_zero, syndrome_overrunWord, hlast] at h15
    exact absurd h15 (by decide)

end ReedSolomon
