import ReedSolomon.Algebra.Locator
import ReedSolomon.Field.Words

/-!
# The generator polynomial

`generator P n` is the product of the first `n` factors `X + @**(b0+i)`. `genPoly` leaves the index forms
of the coefficients of `generator P (2*tt)` in `gg` (`wp_genPoly`), and none of them is the sentinel
(`generator_coeff_ne_zero`): a polynomial with `2*tt` consecutive powers of `@` as roots has at least
`2*tt + 1` nonzero coefficients.
-/

open Imp Finset Polynomial

namespace ReedSolomon

variable {P : CodeParams}

noncomputable def generator (P : CodeParams) (n : ℕ) : P.GF[X] :=
  ∏ i ∈ range n, (X + C (P.alpha ^ (P.b0 + i)))

theorem generator_succ (n : ℕ) :
    generator P (n + 1) = generator P n * (X + C (P.alpha ^ (P.b0 + n))) := prod_range_succ _ _

theorem generator_monic (n : ℕ) : (generator P n).Monic :=
  monic_prod_of_monic _ _ fun _ _ => monic_X_add_C _

theorem generator_natDegree (n : ℕ) : (generator P n).natDegree = n := by
  rw [generator, natDegree_prod_of_monic _ _ fun _ _ => monic_X_add_C _]
  simp only [natDegree_X_add_C, sum_const, card_range, smul_eq_mul, mul_one]

theorem generator_coeff_self (n : ℕ) : (generator P n).coeff n = 1 := by
  have h := generator_monic (P := P) n
  rwa [Monic, leadingCoeff, generator_natDegree] at h

theorem generator_coeff_zero_ne (n : ℕ) : (generator P n).coeff 0 ≠ 0 := by
  rw [coeff_zero_eq_eval_zero, generator, eval_prod, prod_ne_zero_iff]
  intro i _
  simpa using P.alpha_pow_ne_zero (P.b0 + i)

theorem generator_one_coeff_zero : (generator P 1).coeff 0 = P.alpha ^ P.b0 := by
  rw [generator, prod_range_one, coeff_add, coeff_X_zero, zero_add, add_zero, coeff_C_zero]

theorem generator_coeff_succ_zero (n : ℕ) :
    (generator P (n + 1)).coeff 0 = (generator P n).coeff 0 * P.alpha ^ (P.b0 + n) := by
  rw [generator_succ, mul_add, coeff_add, coeff_mul_X_zero, zero_add, coeff_mul_C]

theorem generator_coeff_succ (n j : ℕ) : (generator P (n + 1)).coeff (j + 1) =
    (generator P n).coeff j + (generator P n).coeff (j + 1) * P.alpha ^ (P.b0 + n) := by
  rw [generator_succ, mul_add, coeff_add, coeff_mul_X, coeff_mul_C]

theorem generator_eval_eq_zero {n i : ℕ} (hi : i < n) :
    (generator P n).eval (P.alpha ^ (P.b0 + i)) = 0 := by
  rw [generator, eval_prod]
  exact prod_eq_zero (mem_range.mpr hi) (by simp [P.add_self])

theorem generator_coeff_ne_zero {j : ℕ} (hj : j ≤ 2 * P.tt) : (generator P (2 * P.tt)).coeff j ≠ 0 := by
  intro h0
  have hjlt : j ≠ 2 * P.tt := by
    rintro rfl
    rw [generator_coeff_self] at h0
    exact one_ne_zero h0
  let T := (range (2 * P.tt + 1)).erase j
  have hcard : T.card = 2 * P.tt := by
    rw [card_erase_of_mem (mem_range.mpr (by omega)), card_range]
    rfl
  have hlt : ∀ k ∈ T, k < P.nn := fun k hk => by
    have := mem_range.mp (mem_of_mem_erase hk)
    have := P.two_tt_lt
    omega
  have hinj : Set.InjOn (fun k => P.alpha ^ k) T := fun a ha b hb h =>
    P.alpha_pow_injOn (hlt a ha) (hlt b hb) h
  have hsum : ∀ i < 2 * P.tt, ∑ k ∈ T, (generator P (2 * P.tt)).coeff k * (P.alpha ^ k) ^ (P.b0 + i) = 0 := by
    intro i hi
    have heval := generator_eval_eq_zero (P := P) hi
    rw [eval_eq_sum_range, generator_natDegree, ← add_sum_erase _ _ (mem_range.mpr (by omega : j < _)), h0,
      zero_mul, zero_add] at heval
    rw [← heval]
    refine sum_congr rfl fun k _ => ?_
    rw [← pow_mul, ← pow_mul, mul_comm k]
  have hlead := Recurrence.eq_zero_of_consecutive hinj (fun k _ => P.alpha_pow_ne_zero k) hcard.le hsum
    (mem_erase.mpr ⟨Ne.symm hjlt, mem_range.mpr (by omega)⟩)
  rw [generator_coeff_self] at hlead
  exact one_ne_zero hlead

/-! ### `gen_poly` -/

section Multiply

/-! The multiplications are the same text over the arrays of the C program and over those of the package. -/

variable {ν : Type} [DecidableEq ν] {dims : ν → List ℕ} {alphaTo indexOf gg : ν} {m : Machine dims}
  (hα : ∀ i < P.nn, m.cell alphaTo [(i : ℤ)] = some (P.poly (P.alpha ^ i)))
  (hι : ∀ x : P.GF, m.cell indexOf [P.poly x] = some (P.index x)) {n : ℕ} {x y : P.GF}

include hα hι

/-- The cell below plus this one times `@**(b0+n)`. -/
theorem wp_multiplyAdd {j : ℕ} (hb : InBounds (dims gg) (line j)) (hself : m.cell gg (line j) = some (P.poly x))
    (hprev : m.cell gg [(j : ℤ) - 1] = some (P.poly y)) :
    wp (ifThenElse (P.poly x ≠ 0)
      (do
        let e ← rem ((← load indexOf [← load gg [(j : ℤ)]]) + P.b0 + ((n + 1 : ℕ) : ℤ) - 1) P.nn
        store gg [(j : ℤ)] (Int.xor (← load gg [(j : ℤ) - 1]) (← load alphaTo [e])))
      (do store gg [(j : ℤ)] (← load gg [(j : ℤ) - 1])))
      (fun _ s => s = m.put gg (line j) (P.poly (y + x * P.alpha ^ (P.b0 + n))) hb) m := by
  by_cases hz : x = 0
  · rw [wp_ifThenElse_neg (by simpa using hz)]
    simp only [wp_bind]
    rw [wp_load hprev, wp_store hb, hz, zero_mul, add_zero]
  · obtain ⟨hnonneg, hlook⟩ := P.lookup_mul hα hz (n := P.b0 + n)
      (e := P.index x + P.b0 + ((n + 1 : ℕ) : ℤ) - 1) (by push_cast; ring)
    rw [wp_ifThenElse_pos (by simpa using hz)]
    simp only [wp_bind]
    rw [wp_load hself, wp_load (hι _), wp_rem hnonneg, wp_load hprev, wp_load hlook, wp_store hb, P.xor_poly]

/-- `gg[0]` times `@**(b0+n)`. -/
theorem wp_multiplyZero (hb : InBounds (dims gg) [0]) (hself : m.cell gg [0] = some (P.poly x)) (hx : x ≠ 0) :
    wp (do
      let e ← rem ((← load indexOf [← load gg [0]]) + P.b0 + ((n + 1 : ℕ) : ℤ) - 1) P.nn
      store gg [0] (← load alphaTo [e]))
      (fun _ s => s = m.put gg [0] (P.poly (x * P.alpha ^ (P.b0 + n))) hb) m := by
  obtain ⟨hnonneg, hlook⟩ := P.lookup_mul hα hx (n := P.b0 + n)
    (e := P.index x + P.b0 + ((n + 1 : ℕ) : ℤ) - 1) (by push_cast; ring)
  simp only [wp_bind]
  rw [wp_load hself, wp_load (hι _), wp_rem hnonneg, wp_load hlook, wp_store hb]

end Multiply

theorem inBounds_gg {j : ℕ} (hj : j ≤ 2 * P.tt) : InBounds (P.dims .gg) (line j) := by
  simp only [CodeParams.dims, inBounds_cons, inBounds_nil, and_true, P.nn_sub_kk]
  omega

/-- `gg` holds the product of the first `n` factors in polynomial form. -/
def HasFactors (m : Machine P.dims) (n : ℕ) : Prop :=
  ∀ j ≤ n, m.cell .gg (line j) = some (P.poly ((generator P n).coeff j))

/-- Inside a pass of the outer loop: the coefficients in `S` are those of the new product. -/
abbrev Multiplied (P : CodeParams) (m₀ : Machine P.dims) (n : ℕ) (S : Set ℕ) (m : Machine P.dims) : Prop :=
  Wrote m₀ .gg line (fun k => P.poly ((generator P (n + 1)).coeff k)) S m

theorem Multiplied.coeff_old {m₀ m : Machine P.dims} {n : ℕ} {S : Set ℕ} (h : Multiplied P m₀ n S m)
    (h₀ : HasFactors m₀ n) {j : ℕ} (hj : j ≤ n) (hS : j ∉ S) :
    m.cell .gg (line j) = some (P.poly ((generator P n).coeff j)) :=
  (h.cell_of_notMem line_injective hS).trans (h₀ j hj)

theorem mulCoeff_step {m₀ m : Machine P.dims} (hT : HasTables m₀) {n i : ℕ} (h₀ : HasFactors m₀ n)
    (hn : n + 1 ≤ 2 * P.tt) (hin : i + 1 ≤ n) (h : Multiplied P m₀ n (Set.Ico (i + 2) (n + 2)) m) :
    wp (mulCoeff P (n + 1) (i + 1))
      (fun _ => Multiplied P m₀ n (insert (i + 1) (Set.Ico (i + 2) (n + 2)))) m := by
  have hTm := hT.of_frame h.frame (by simp) (by simp)
  have hself := h.coeff_old h₀ hin (by simp)
  have hprev : m.cell .gg [((i + 1 : ℕ) : ℤ) - 1] = some (P.poly ((generator P n).coeff i)) := by
    have := h.coeff_old h₀ (show i ≤ n by omega) (by simp)
    rwa [show ((i + 1 : ℕ) : ℤ) - 1 = i by omega]
  have hb : InBounds (P.dims .gg) (line (i + 1)) := inBounds_gg (by omega)
  rw [mulCoeff, wp_bind, wp_load hself]
  apply wp_mono (wp_multiplyAdd hTm.alphaTo hTm.indexOf hb hself hprev)
  rintro _ _ rfl
  rw [← generator_coeff_succ]
  exact h.put line_injective (i + 1) hb

theorem mulFactor_step {m : Machine P.dims} (hT : HasTables m) {n : ℕ}
    (hn : n + 1 ≤ 2 * P.tt) (h : HasFactors m n) :
    wp (mulFactor P (n + 1)) (fun _ m' => Frame [.gg] m m' ∧ HasFactors m' (n + 1)) m := by
  have hb0 : InBounds (P.dims .gg) [0] := inBounds_gg (j := 0) (Nat.zero_le _)
  rw [mulFactor, wp_bind, wp_store (inBounds_gg hn)]
  have hstart : Multiplied P m n (Set.Ico (n + 1) (n + 2)) (m.put .gg (line (n + 1)) 1 (inBounds_gg hn)) := by
    have := (Wrote.refl (f := fun k => P.poly ((generator P (n + 1)).coeff k)) m).put line_injective (n + 1)
      (inBounds_gg hn)
    have hset : insert (n + 1) (Set.Ico (n + 2) (n + 2)) = Set.Ico (n + 1) (n + 2) :=
      Set.insert_Ico_add_one_left_eq_Ico (Nat.lt_succ_self (n + 1))
    rwa [← Set.Ico_self (n + 2), hset, generator_coeff_self, P.poly_one] at this
  refine wp_seq (wp_forDown_wrote (show 1 ≤ n + 1 by omega) (by omega) hstart fun j s hj hjn hs => by
    obtain ⟨i, rfl⟩ : ∃ i, j = i + 1 := ⟨j - 1, by omega⟩
    exact mulCoeff_step hT h hn (by omega) hs) fun _ m' hm' => ?_
  have hTm := hT.of_frame hm'.frame (by simp) (by simp)
  have hzero : m'.cell .gg [0] = some (P.poly ((generator P n).coeff 0)) :=
    Multiplied.coeff_old hm' h (Nat.zero_le n) (by simp)
  apply wp_mono (wp_multiplyZero hTm.alphaTo hTm.indexOf hb0 hzero (generator_coeff_zero_ne n))
  rintro _ _ rfl
  rw [← generator_coeff_succ_zero]
  have hend := hm'.put line_injective 0 hb0
  have hset : insert 0 (Set.Ico 1 (n + 2)) = Set.Ico 0 (n + 2) := Set.insert_Ico_add_one_left_eq_Ico (by omega)
  rw [hset] at hend
  exact ⟨hend.frame, fun k hk => hend.new k (by simp; omega)⟩

/-- `gg` holds the generator polynomial in index form. -/
def HasGenerator (m : Machine P.dims) : Prop :=
  ∀ j ≤ 2 * P.tt, m.cell .gg (line j) = some (P.index ((generator P (2 * P.tt)).coeff j))

theorem HasGenerator.of_keeps {m m' : Machine P.dims} {W : List Arr} (h : HasGenerator m) (hf : Keeps W m m')
    (hg : .gg ∉ W) : HasGenerator m' := fun j hj => by rw [hf.cell _ hg]; exact h j hj

/-- `gen_poly` leaves the generator polynomial in index form. -/
theorem wp_genPoly {m : Machine P.dims} (hT : HasTables m) :
    wp (genPoly P) (fun _ m' => HasGenerator m' ∧ Frame [.gg] m m') m := by
  have htt := P.one_le_tt
  have hin0 : InBounds (P.dims .gg) [0] := inBounds_gg (j := 0) (Nat.zero_le _)
  have hin1 : InBounds (P.dims .gg) [1] := inBounds_gg (j := 1) (by omega)
  simp only [genPoly, wp_bind]
  rw [wp_load (hT.alphaTo P.b0 P.b0_lt), wp_store hin0, wp_store hin1, P.nn_sub_kk]
  have hstart : HasFactors ((m.put .gg [0] (P.poly (P.alpha ^ P.b0)) hin0).put .gg [1] 1 hin1) 1 := by
    intro j hj
    obtain rfl | rfl : j = 0 ∨ j = 1 := by omega
    · simp [Machine.cell_put, generator_one_coeff_zero]
    · rw [generator_coeff_self, P.poly_one]
      exact Machine.cell_put_self _ _ _ _ _
  refine wp_mono (wp_forEach (fun i s => Frame [.gg] m s ∧ HasFactors s (i - 1)) (show 2 ≤ 2 * P.tt + 1 by omega)
    ⟨((Frame.refl _ m).put (by simp) _ _ _).put (by simp) _ _ _, hstart⟩ fun i s hi hin ⟨hf, hs⟩ => by
      obtain ⟨n, rfl⟩ : ∃ n, i = n + 1 := ⟨i - 1, by omega⟩
      exact wp_mono (mulFactor_step (hT.of_frame hf (by simp) (by simp)) (by omega) hs)
        fun _ s' hs' => ⟨hf.trans hs'.1, hs'.2⟩) fun _ m₁ ⟨hf₁, hpoly⟩ => ?_
  rw [Nat.add_sub_cancel] at hpoly
  have hT₁ := hT.of_frame hf₁ (by simp) (by simp)
  -- the second loop converts the coefficients one by one
  refine wp_mono (wp_forEach_wrote .gg line
    (fun j => P.index ((generator P (2 * P.tt)).coeff j)) (Nat.zero_le (2 * P.tt + 1))
    fun i s _ hi hs => ?_) fun _ m₂ h => ⟨fun j hj => h.new j (by simp; omega), hf₁.trans h.frame⟩
  have hTs := hT₁.of_frame hs.frame (by simp) (by simp)
  have hold := (hs.cell_of_notMem line_injective (k := i) (by simp)).trans (hpoly i (by omega))
  simp only [wp_bind]
  rw [wp_load hold, wp_load (hTs.indexOf _), wp_store (inBounds_gg (by omega))]
  exact hs.put line_injective i (inBounds_gg (by omega))

/-- The tables and the generator polynomial are in place. -/
structure Initialised (m : Machine P.dims) : Prop where
  tables : HasTables m
  gg : HasGenerator m

theorem Initialised.of_keeps {m m' : Machine P.dims} {W : List Arr} (h : Initialised m) (hf : Keeps W m m')
    (ha : .alphaTo ∉ W) (hi : .indexOf ∉ W) (hg : .gg ∉ W) : Initialised m' :=
  ⟨h.tables.of_keeps hf ha hi, h.gg.of_keeps hf hg⟩

theorem Initialised.of_frame {m m' : Machine P.dims} {W : List Arr} (h : Initialised m) (hf : Frame W m m')
    (ha : .alphaTo ∉ W) (hi : .indexOf ∉ W) (hg : .gg ∉ W) : Initialised m' := h.of_keeps hf.keeps ha hi hg

theorem wp_initialise (m : Machine P.dims) :
    wp (initialise P) (fun _ m' => Initialised m' ∧ Frame [.alphaTo, .indexOf, .gg] m m') m := by
  refine wp_seq (wp_generateGf m) fun _ m₁ ⟨hT, hf₁⟩ => ?_
  refine wp_mono (wp_genPoly hT) fun _ m₂ ⟨hg, hf₂⟩ => ?_
  exact ⟨⟨hT.of_frame hf₂ (by simp) (by simp), hg⟩, (hf₁.mono (by simp)).trans (hf₂.mono (by simp))⟩

end ReedSolomon
