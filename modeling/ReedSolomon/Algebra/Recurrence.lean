import Mathlib.RingTheory.PowerSeries.Basic
import Mathlib.Tactic.LinearCombination
import Mathlib.Tactic.FieldSimp

/-!
# Shortest linear recurrences

A polynomial `σ` with constant term 1 is read as a linear recurrence for a sequence `s`: its
discrepancy at `k` is `disc σ s k = ∑ i ≤ k, σᵢ s₍ₖ₋ᵢ₎`, and `Generates s N σ L` says that with length `L`
it generates `s 1, …, s N`.

* `Generates.le_length_add`: a recurrence that fails at `N + 1` and one that does not have lengths
  adding up to more than `N`. This is the lower bound behind the optimality of Berlekamp's iteration.
* `Table s rows u` is the invariant of that iteration kept as a table: row `q ≤ u` is a shortest
  recurrence for `s 1, …, s (q - 1)`, row 0 is artificial, and the length of the last row is the
  greatest `q - len q` among the earlier rows with a nonzero discrepancy. `Table.step` is one pass,
  with the row to combine with chosen by greatest `q - len q`.

The value `s 0` is no term of the sequence; it is set to 1, which makes row 0 a row like the others.
-/

open Polynomial Finset

namespace Recurrence

variable {F : Type*} [Field F]

/-- The value at `k` of the recurrence `σ` applied to `s`. -/
def disc (σ : F[X]) (s : ℕ → F) (k : ℕ) : F := ∑ i ∈ range (k + 1), σ.coeff i * s (k - i)

theorem disc_eq_coeff (σ : F[X]) (s : ℕ → F) (k : ℕ) :
    disc σ s k = PowerSeries.coeff k ((σ : PowerSeries F) * PowerSeries.mk s) := by
  rw [PowerSeries.coeff_mul, Nat.sum_antidiagonal_eq_sum_range_succ_mk, disc]
  simp

theorem disc_zero (σ : F[X]) (s : ℕ → F) : disc σ s 0 = σ.coeff 0 * s 0 := by
  simp [disc]

theorem disc_reflect (σ : F[X]) (s : ℕ → F) (k : ℕ) :
    disc σ s k = ∑ i ∈ range (k + 1), σ.coeff (k - i) * s i := by
  rw [disc, ← sum_range_reflect]
  refine sum_congr rfl fun i hi => ?_
  have hik := mem_range.mp hi
  rw [show k + 1 - 1 - i = k - i by omega, show k - (k - i) = i by omega]

theorem disc_eq_sum {σ : F[X]} {L k : ℕ} (hdeg : σ.natDegree ≤ L) (hk : L ≤ k) (s : ℕ → F) :
    disc σ s k = ∑ i ∈ range (L + 1), σ.coeff i * s (k - i) := by
  refine (sum_subset (range_subset_range.mpr (by omega)) fun i _ hi => ?_).symm
  rw [coeff_eq_zero_of_natDegree_lt (by simp at hi; omega), zero_mul]

theorem disc_sub_shift (σ τ : F[X]) (c : F) (m : ℕ) (s : ℕ → F) (k : ℕ) :
    disc (σ - C c * X ^ m * τ) s k =
      disc σ s k - c * if m ≤ k then disc τ s (k - m) else 0 := by
  simp only [disc_eq_coeff]
  have hcoe : ((σ - C c * X ^ m * τ : F[X]) : PowerSeries F) =
      (σ : PowerSeries F) - PowerSeries.C c * (PowerSeries.X ^ m * (τ : PowerSeries F)) := by
    simp [mul_assoc]
  rw [hcoe, sub_mul, map_sub, mul_assoc, PowerSeries.coeff_C_mul, mul_assoc, PowerSeries.coeff_X_pow_mul']

theorem disc_one (s : ℕ → F) (k : ℕ) : disc 1 s k = s k := by
  rw [disc_eq_sum (L := 0) (by simp) (Nat.zero_le k)]
  simp

theorem eq_of_disc_eq {σ : F[X]} (hσ : σ.coeff 0 = 1) {s t : ℕ → F} {N : ℕ}
    (h : ∀ k ≤ N, disc σ s k = disc σ t k) : ∀ k ≤ N, s k = t k := by
  intro k
  induction k using Nat.strong_induction_on with
  | _ k ih =>
    intro hk
    have hk' := h k hk
    rw [disc, disc, sum_range_succ', sum_range_succ'] at hk'
    have htail : ∑ i ∈ range k, σ.coeff (i + 1) * s (k - (i + 1)) =
        ∑ i ∈ range k, σ.coeff (i + 1) * t (k - (i + 1)) := by
      refine sum_congr rfl fun i hi => ?_
      have hik := mem_range.mp hi
      rw [ih (k - (i + 1)) (by omega) (by omega)]
    simpa [htail, hσ] using hk'

theorem disc_scale (σ : F[X]) (s : ℕ → F) (a b : F) (k : ℕ) :
    disc (σ.comp (C b * X)) (fun j => a * b ^ j * s j) k = a * b ^ k * disc σ s k := by
  rw [disc, disc, mul_sum]
  refine sum_congr rfl fun i hi => ?_
  have hik : k = i + (k - i) := by
    have := mem_range.mp hi
    omega
  have hpow : b ^ k = b ^ i * b ^ (k - i) := by rw [← pow_add, ← hik]
  rw [comp_C_mul_X_coeff, hpow]
  ring

/-- With length `L`, the recurrence `σ` generates `s 1, …, s N`. -/
structure Generates (s : ℕ → F) (N : ℕ) (σ : F[X]) (L : ℕ) : Prop where
  coeff_zero : σ.coeff 0 = 1
  natDegree_le : σ.natDegree ≤ L
  disc_eq_zero : ∀ k, L < k → k ≤ N → disc σ s k = 0

namespace Generates

variable {s : ℕ → F} {σ τ : F[X]} {N M L L' : ℕ}

theorem mono (h : Generates s N σ L) (hM : M ≤ N) : Generates s M σ L :=
  ⟨h.coeff_zero, h.natDegree_le, fun k hL hk => h.disc_eq_zero k hL (hk.trans hM)⟩

theorem succ (h : Generates s N σ L) (hd : N < L ∨ disc σ s (N + 1) = 0) :
    Generates s (N + 1) σ L := by
  refine ⟨h.coeff_zero, h.natDegree_le, fun k hL hk => ?_⟩
  rcases Nat.lt_or_ge N k with hNk | hkN
  · obtain rfl : k = N + 1 := by omega
    rcases hd with hd | hd
    · omega
    · exact hd
  · exact h.disc_eq_zero k hL hkN

theorem congr {t : ℕ → F} (h : Generates s N σ L) (hst : ∀ k, 1 ≤ k → k ≤ N → t k = s k) : Generates t N σ L := by
  refine ⟨h.coeff_zero, h.natDegree_le, fun k hL hk => ?_⟩
  rw [← h.disc_eq_zero k hL hk, disc_eq_sum h.natDegree_le hL.le, disc_eq_sum h.natDegree_le hL.le]
  apply sum_congr rfl
  intro i hi
  rw [hst (k - i) (by have := mem_range.mp hi; omega) (by omega)]

theorem scale (h : Generates s N σ L) (a b : F) :
    Generates (fun j => a * b ^ j * s j) N (σ.comp (C b * X)) L := by
  refine ⟨?_, ?_, fun k hL hk => ?_⟩
  · rw [comp_C_mul_X_coeff, h.coeff_zero, pow_zero, one_mul]
  · refine natDegree_comp_le.trans ((Nat.mul_le_mul h.natDegree_le (natDegree_C_mul_le b X)).trans ?_)
    rw [natDegree_X, mul_one]
  · rw [disc_scale, h.disc_eq_zero k hL hk, mul_zero]

/-- If one recurrence fails at `N + 1` and another one does not, the lengths add up to more than
`N`: the product of both with the sequence, read at `N + 1`, would otherwise be both zero and not. -/
theorem le_length_add (h : Generates s N σ L) (hd : disc σ s (N + 1) ≠ 0)
    (h' : Generates s (N + 1) τ L') : N + 1 ≤ L + L' := by
  by_contra hlt
  apply hd
  have hright : PowerSeries.coeff (N + 1) ((τ : PowerSeries F) * ((σ : PowerSeries F) * PowerSeries.mk s)) =
      disc σ s (N + 1) := by
    rw [PowerSeries.coeff_mul, sum_eq_single (0, N + 1)]
    · rw [coeff_coe, h'.coeff_zero, one_mul, disc_eq_coeff]
    · rintro ⟨i, j⟩ hij hne
      have hsum : i + j = N + 1 := mem_antidiagonal.mp hij
      have hi : i ≠ 0 := by rintro rfl; exact hne (by simp at hsum; simp [hsum])
      rw [coeff_coe, ← disc_eq_coeff]
      rcases Nat.lt_or_ge L' i with hL' | hL'
      · rw [coeff_eq_zero_of_natDegree_lt (lt_of_le_of_lt h'.natDegree_le hL'), zero_mul]
      · rw [h.disc_eq_zero j (by omega) (by omega), mul_zero]
    · simp
  have hleft : PowerSeries.coeff (N + 1) ((σ : PowerSeries F) * ((τ : PowerSeries F) * PowerSeries.mk s)) =
      0 := by
    rw [PowerSeries.coeff_mul]
    refine sum_eq_zero ?_
    rintro ⟨i, j⟩ hij
    have hsum : i + j = N + 1 := mem_antidiagonal.mp hij
    rw [coeff_coe, ← disc_eq_coeff]
    rcases Nat.lt_or_ge L i with hL | hL
    · rw [coeff_eq_zero_of_natDegree_lt (lt_of_le_of_lt h.natDegree_le hL), zero_mul]
    · rw [h'.disc_eq_zero j (by omega) (by omega), mul_zero]
  rw [← hright, ← hleft]
  congr 1
  ring

theorem le_of_late (h : Generates s (N + 1) σ L) (hzero : ∀ k, 1 ≤ k → k ≤ N → s k = 0) (hlate : s (N + 1) ≠ 0) :
    N + 1 ≤ L := by
  have hone : Generates s N 1 0 := ⟨by simp, by simp, fun k hk hkN => by rw [disc_one, hzero k hk hkN]⟩
  have hle := hone.le_length_add (by rwa [disc_one]) h
  omega

end Generates

/-- Some recurrence of length at most `t` generates `s 1, …, s N`. -/
def Generated (s : ℕ → F) (N t : ℕ) : Prop := ∃ σ L, Generates s N σ L ∧ L ≤ t

namespace Generated

variable {s : ℕ → F} {N M t : ℕ}

theorem mono (h : Generated s N t) (hM : M ≤ N) : Generated s M t := by
  obtain ⟨σ, L, hgen, hL⟩ := h
  exact ⟨σ, L, hgen.mono hM, hL⟩

theorem congr {r : ℕ → F} (h : Generated s N t) (hrs : ∀ k, 1 ≤ k → k ≤ N → r k = s k) : Generated r N t := by
  obtain ⟨σ, L, hgen, hL⟩ := h
  exact ⟨σ, L, hgen.congr hrs, hL⟩

theorem scale (h : Generated s N t) (a b : F) : Generated (fun j => a * b ^ j * s j) N t := by
  obtain ⟨σ, L, hgen, hL⟩ := h
  exact ⟨_, L, hgen.scale a b, hL⟩

end Generated

/-! ### Berlekamp's iteration as a table -/

/-- A row of the table: a recurrence and its length. -/
structure Row (F : Type*) [Field F] where
  poly : F[X]
  len : ℕ

/-- Row `u + 1` when row `u` has a nonzero discrepancy and is combined with row `q`. -/
noncomputable def Row.combine (s : ℕ → F) (rows : ℕ → Row F) (u q : ℕ) : Row F where
  poly := (rows u).poly - C (disc (rows u).poly s u / disc (rows q).poly s q) * X ^ (u - q) * (rows q).poly
  len := max (rows u).len ((rows q).len + (u - q))

/-- The invariant of the iteration after rows `0, …, u` have been formed. -/
structure Table (s : ℕ → F) (rows : ℕ → Row F) (u : ℕ) : Prop where
  row_zero : rows 0 = ⟨1, 0⟩
  generates : ∀ q, 1 ≤ q → q ≤ u → Generates s (q - 1) (rows q).poly (rows q).len
  len_lt : ∀ q, 1 ≤ q → q ≤ u → (rows q).len < q
  shortest : ∀ q, 1 ≤ q → q ≤ u → ∀ τ L', Generates s (q - 1) τ L' → (rows q).len ≤ L'
  le_len : ∀ q, q < u → disc (rows q).poly s q ≠ 0 → q ≤ (rows q).len + (rows u).len
  attained : ∃ q < u, disc (rows q).poly s q ≠ 0 ∧ q = (rows q).len + (rows u).len

namespace Table

variable {s : ℕ → F} {rows : ℕ → Row F} {u q : ℕ}

theorem one_le (h : Table s rows u) : 1 ≤ u := by
  obtain ⟨q, hq, _⟩ := h.attained
  omega

theorem disc_row_zero (h : Table s rows u) (hs : s 0 = 1) : disc (rows 0).poly s 0 = 1 := by
  rw [h.row_zero, disc_zero, hs]
  simp

theorem base (hs : s 0 = 1) (h0 : rows 0 = ⟨1, 0⟩) (h1 : rows 1 = ⟨1, 0⟩) : Table s rows 1 where
  row_zero := h0
  generates q hq hq1 := by
    obtain rfl : q = 1 := by omega
    rw [h1]
    exact ⟨by simp, by simp, fun k hk hk0 => by omega⟩
  len_lt q hq hq1 := by
    obtain rfl : q = 1 := by omega
    simp [h1]
  shortest q hq hq1 τ L' _ := by
    obtain rfl : q = 1 := by omega
    simp [h1]
  le_len q hq _ := by omega
  attained := ⟨0, by omega, by rw [h0, disc_zero, hs]; simp, by simp [h0, h1]⟩

theorem congr {rows' : ℕ → Row F} (h : Table s rows u) (heq : ∀ q ≤ u, rows' q = rows q) :
    Table s rows' u where
  row_zero := (heq 0 (Nat.zero_le u)).trans h.row_zero
  generates q hq hqu := by rw [heq q hqu]; exact h.generates q hq hqu
  len_lt q hq hqu := by rw [heq q hqu]; exact h.len_lt q hq hqu
  shortest q hq hqu := by rw [heq q hqu]; exact h.shortest q hq hqu
  le_len q hqu := by rw [heq q hqu.le, heq u le_rfl]; exact h.le_len q hqu
  attained := by
    obtain ⟨q, hqu, hd, hq⟩ := h.attained
    exact ⟨q, hqu, by rwa [heq q hqu.le], by rwa [heq q hqu.le, heq u le_rfl]⟩

/-- A pass that finds discrepancy zero keeps the recurrence. -/
theorem step_keep (h : Table s rows u) (hd : disc (rows u).poly s u = 0)
    (hnext : rows (u + 1) = rows u) : Table s rows (u + 1) := by
  have hu := h.one_le
  have hlast : ∀ q, 1 ≤ q → q ≤ u + 1 → ¬ q ≤ u → q = u + 1 := by omega
  refine ⟨h.row_zero, fun q hq hqu => ?_, fun q hq hqu => ?_, fun q hq hqu τ L' hτ => ?_,
    fun q hqu hdq => ?_, ?_⟩
  · by_cases hle : q ≤ u
    · exact h.generates q hq hle
    · obtain rfl := hlast q hq hqu hle
      have hgen := (h.generates u hu le_rfl).succ (Or.inr (by rwa [Nat.sub_add_cancel hu]))
      rw [Nat.sub_add_cancel hu] at hgen
      simpa [hnext] using hgen
  · by_cases hle : q ≤ u
    · exact h.len_lt q hq hle
    · obtain rfl := hlast q hq hqu hle
      rw [hnext]
      exact (h.len_lt u hu le_rfl).trans (Nat.lt_succ_self u)
  · by_cases hle : q ≤ u
    · exact h.shortest q hq hle τ L' hτ
    · obtain rfl := hlast q hq hqu hle
      rw [hnext]
      exact h.shortest u hu le_rfl τ L' (hτ.mono (by omega))
  · rw [hnext]
    rcases Nat.lt_succ_iff_lt_or_eq.mp hqu with hlt | rfl
    · exact h.le_len q hlt hdq
    · exact absurd hd hdq
  · obtain ⟨q, hqu, hdq, hq⟩ := h.attained
    exact ⟨q, by omega, hdq, by rwa [hnext]⟩

/-- Among the earlier rows with nonzero discrepancy, `q` has the greatest `q - len q`. -/
structure Best (s : ℕ → F) (rows : ℕ → Row F) (u q : ℕ) : Prop where
  lt : q < u
  disc_ne : disc (rows q).poly s q ≠ 0
  greatest : ∀ j < u, disc (rows j).poly s j ≠ 0 → j + (rows q).len ≤ q + (rows j).len

theorem Best.eq_len_add (h : Table s rows u) (hb : Best s rows u q) :
    q = (rows q).len + (rows u).len := by
  obtain ⟨j, hju, hdj, hj⟩ := h.attained
  have hle := h.le_len q hb.lt hb.disc_ne
  have hgr := hb.greatest j hju hdj
  omega

theorem natDegree_le (h : Table s rows u) (hq : q ≤ u) : (rows q).poly.natDegree ≤ (rows q).len := by
  rcases Nat.eq_zero_or_pos q with rfl | hpos
  · simp [h.row_zero]
  · exact (h.generates q hpos hq).natDegree_le

theorem generates_combine (h : Table s rows u) (hb : Best s rows u q) :
    Generates s u (Row.combine s rows u q).poly (Row.combine s rows u q).len := by
  have hu := h.one_le
  have hlt := hb.lt
  have hgen := h.generates u hu le_rfl
  have hdegq := h.natDegree_le hlt.le
  refine ⟨?_, ?_, fun k hk hku => ?_⟩
  · rw [Row.combine, coeff_sub, mul_assoc, coeff_C_mul, coeff_X_pow_mul', if_neg (by omega), mul_zero,
      sub_zero]
    exact hgen.coeff_zero
  · refine (natDegree_sub_le _ _).trans (max_le_max hgen.natDegree_le ?_)
    rw [mul_assoc]
    refine (natDegree_C_mul_le _ _).trans (natDegree_mul_le.trans ?_)
    rw [natDegree_X_pow]
    omega
  · have hk1 : (rows u).len < k := lt_of_le_of_lt (le_max_left _ _) hk
    have hk2 : (rows q).len + (u - q) < k := lt_of_le_of_lt (le_max_right _ _) hk
    rw [Row.combine, disc_sub_shift, if_pos (by omega)]
    rcases Nat.lt_or_ge k u with hlt' | hge
    · have hzero : disc (rows q).poly s (k - (u - q)) = 0 := by
        rcases Nat.eq_zero_or_pos q with rfl | hq
        · omega
        · exact (h.generates q hq hlt.le).disc_eq_zero _ (by omega) (by omega)
      rw [hgen.disc_eq_zero k hk1 (by omega), hzero]
      ring
    · obtain rfl : k = u := by omega
      have hq : k - (k - q) = q := by omega
      rw [hq, div_mul_cancel₀ _ hb.disc_ne, sub_self]

/-- A pass that finds a nonzero discrepancy combines the last row with the best earlier one. -/
theorem step_combine (h : Table s rows u) (hd : disc (rows u).poly s u ≠ 0)
    (hb : Best s rows u q) (hnext : rows (u + 1) = Row.combine s rows u q) :
    Table s rows (u + 1) := by
  have hu := h.one_le
  have hqlen := hb.eq_len_add h
  have hlt := hb.lt
  have hlenu := h.len_lt u hu le_rfl
  have hlen : (rows (u + 1)).len = max (rows u).len ((rows q).len + (u - q)) := by rw [hnext, Row.combine]
  have hlast : ∀ q, 1 ≤ q → q ≤ u + 1 → ¬ q ≤ u → q = u + 1 := by omega
  refine ⟨h.row_zero, fun q' hq hqu => ?_, fun q' hq hqu => ?_, fun q' hq hqu τ L' hτ => ?_,
    fun q' hqu hdq => ?_, ?_⟩
  · by_cases hle : q' ≤ u
    · exact h.generates q' hq hle
    · obtain rfl := hlast q' hq hqu hle
      rw [hnext]
      exact h.generates_combine hb
  · by_cases hle : q' ≤ u
    · exact h.len_lt q' hq hle
    · obtain rfl := hlast q' hq hqu hle
      omega
  · by_cases hle : q' ≤ u
    · exact h.shortest q' hq hle τ L' hτ
    · obtain rfl := hlast q' hq hqu hle
      have hold := h.shortest u hu le_rfl τ L' (hτ.mono (by omega))
      have hsum := (h.generates u hu le_rfl).le_length_add (by rwa [Nat.sub_add_cancel hu])
        (by rw [Nat.sub_add_cancel hu]; exact hτ)
      omega
  · rcases Nat.lt_succ_iff_lt_or_eq.mp hqu with hlt' | rfl
    · have := h.le_len q' hlt' hdq
      omega
    · omega
  · -- the old maximum stays unless the length grew, and then row `u` attains the new one
    rcases le_total ((rows q).len + (u - q)) (rows u).len with hle | hle
    · exact ⟨q, by omega, hb.disc_ne, by omega⟩
    · exact ⟨u, by omega, hd, by omega⟩

theorem combine_congr {rows' : ℕ → Row F} (hu : rows' u = rows u) (hq : rows' q = rows q) :
    Row.combine s rows' u q = Row.combine s rows u q := by
  rw [Row.combine, Row.combine, hu, hq]

theorem keep (h : Table s rows u) (hd : disc (rows u).poly s u = 0) :
    Table s (Function.update rows (u + 1) (rows u)) (u + 1) := by
  have heq : ∀ q ≤ u, Function.update rows (u + 1) (rows u) q = rows q := fun q hq =>
    Function.update_of_ne (by omega) _ _
  refine (h.congr heq).step_keep ?_ ?_
  · rwa [heq u le_rfl]
  · rw [Function.update_self, heq u le_rfl]

theorem combine (h : Table s rows u) (hd : disc (rows u).poly s u ≠ 0) (hb : Best s rows u q) :
    Table s (Function.update rows (u + 1) (Row.combine s rows u q)) (u + 1) := by
  have heq : ∀ j ≤ u, Function.update rows (u + 1) (Row.combine s rows u q) j = rows j := fun j hj =>
    Function.update_of_ne (by omega) _ _
  refine (h.congr heq).step_combine (q := q) ?_ ⟨hb.lt, ?_, fun j hj hdj => ?_⟩ ?_
  · rwa [heq u le_rfl]
  · rw [heq q hb.lt.le]
    exact hb.disc_ne
  · rw [heq j hj.le] at hdj ⊢
    rw [heq q hb.lt.le]
    exact hb.greatest j hj hdj
  · rw [Function.update_self, combine_congr (heq u le_rfl) (heq q hb.lt.le)]

theorem len_eq_zero (h : Table s rows u) (hzero : ∀ k, 1 ≤ k → k < u → s k = 0) : (rows u).len = 0 := by
  have hu := h.one_le
  have hgen : Generates s (u - 1) 1 0 :=
    ⟨by simp, by simp, fun k hk hku => by rw [disc_one, hzero k hk (by omega)]⟩
  exact Nat.le_zero.mp (h.shortest u hu le_rfl 1 0 hgen)

theorem poly_eq_one (h : Table s rows u) (hlen : (rows u).len = 0) : (rows u).poly = 1 := by
  have hgen := h.generates u h.one_le le_rfl
  rw [eq_C_of_natDegree_le_zero (hgen.natDegree_le.trans hlen.le), hgen.coeff_zero, C_1]

theorem len_mono (h : Table s rows u) (hq : 1 ≤ q) (hqu : q < u) :
    (rows q).len ≤ (rows (q + 1)).len :=
  h.shortest q hq hqu.le _ _ ((h.generates (q + 1) (by omega) hqu).mono (by omega))

/-- The row behind all terms has length at most `t` exactly if a recurrence of such a length generates them. -/
theorem len_le_iff (h : Table s rows u) (t : ℕ) : (rows u).len ≤ t ↔ Generated s (u - 1) t := by
  constructor
  · intro hlen
    exact ⟨_, _, h.generates u h.one_le le_rfl, hlen⟩
  · intro hgen
    obtain ⟨σ, L, hσ, hL⟩ := hgen
    exact (h.shortest u h.one_le le_rfl σ L hσ).trans hL

end Table

end Recurrence
