import ReedSolomon.Algebra.Locator
import ReedSolomon.Decoder.Roots

/-!
# The error values

`formZ` multiplies locator and syndromes; `errorValue` divides the value of the product at the inverse of a
location by the locator without that location, and adds the quotient to the symbol (`wp_errorValue`).
After the loop over the locations `recd` holds the corrected word (`wp_correct`).
-/

open Imp Finset Polynomial Recurrence

namespace ReedSolomon

variable {P : CodeParams}

/-! ### The polynomial `z(x)` -/

section FormZ

variable {s : ℕ → P.GF} {u L : ℕ} {σ : P.GF[X]} {m : Machine P.dims}

theorem HasTerms.of_frame {m' : Machine P.dims} {W : List Arr} (h : HasTerms m s) (hf : Frame W m m')
    (hs : .s ∉ W) : HasTerms m' s := fun k hk hkt => by
  rw [hf.cell _ hs]
  exact h k hk hkt

theorem inBounds_z {i : ℕ} (hi : i ≤ P.tt) : InBounds (P.dims .z) (line i) := by
  simp only [CodeParams.dims, inBounds_cons, inBounds_nil, and_true]
  omega

/-- Coefficient `i` of `z(x)` with the products for the places below `j`. -/
noncomputable def partialZ (σ : P.GF[X]) (s : ℕ → P.GF) (i j : ℕ) : P.GF :=
  s i + σ.coeff i + ∑ k ∈ Ico 1 j, σ.coeff (i - k) * s k

theorem partialZ_self (hσ : σ.coeff 0 = 1) (hs : s 0 = 1) {i : ℕ} (hi : 1 ≤ i) :
    partialZ σ s i i = disc σ s i := by
  rw [disc_reflect, sum_range_succ, range_eq_Ico, sum_eq_sum_Ico_succ_bot (by omega), Nat.sub_self, hσ, hs, partialZ,
    Nat.sub_zero]
  ring

theorem wp_startZ (hS : HasTerms m s) (h : HasLocator u σ L m) {i : ℕ} (hi : 1 ≤ i) (hiL : i ≤ L) (hL : L ≤ P.tt)
    (hb : InBounds (P.dims .z) (line i)) :
    wp (startZ P u i) (fun _ m' => m' = m.put .z (line i) (P.poly (s i + σ.coeff i)) hb) m := by
  have hs := hS i hi (by omega)
  have he := h.elp i hiL
  simp only [startZ, wp_bind, wp_andAlso, wp_pure]
  rw [wp_load hs]
  by_cases hsz : s i = 0
  · rw [if_neg (by simpa using hsz), wp_ifThenElse_neg (by simp)]
    simp only [wp_bind, wp_andAlso, wp_pure]
    rw [wp_load hs, if_neg (by simpa using hsz), wp_ifThenElse_neg (by simp)]
    simp only [wp_bind, wp_andAlso, wp_pure]
    rw [wp_load hs, if_pos (by simpa using hsz), wp_load he]
    by_cases hez : σ.coeff i = 0
    · rw [wp_ifThenElse_neg (by simpa using hez), wp_store hb, hsz, hez, add_zero, P.poly_zero]
    · rw [wp_ifThenElse_pos (by simpa using hez)]
      simp only [wp_bind]
      rw [wp_load he, wp_load (h.tables.alphaTo_index hez), wp_store hb, hsz, zero_add]
  · rw [if_pos (by simpa using hsz), wp_load he]
    by_cases hez : σ.coeff i = 0
    · rw [wp_ifThenElse_neg (by simpa using hez)]
      simp only [wp_bind, wp_andAlso, wp_pure]
      rw [wp_load hs, if_pos (by simpa using hsz), wp_load he, wp_ifThenElse_pos (by simpa using hez)]
      simp only [wp_bind]
      rw [wp_load hs, wp_load (h.tables.alphaTo_index hsz), wp_store hb, hez, add_zero]
    · rw [wp_ifThenElse_pos (by simpa using hez)]
      simp only [wp_bind]
      rw [wp_load hs, wp_load (h.tables.alphaTo_index hsz), wp_load he, wp_load (h.tables.alphaTo_index hez),
        wp_store hb, P.xor_poly]

theorem wp_zTerm (hS : HasTerms m s) (h : HasLocator u σ L m) {i j : ℕ} (hj : 1 ≤ j) (hji : j < i) (hiL : i ≤ L)
    (hL : L ≤ P.tt) (hb : InBounds (P.dims .z) (line i)) :
    wp (zTerm P u i j) (fun _ m' => m' = m.put .z (line i) (P.poly (partialZ σ s i (j + 1))) hb)
      (m.put .z (line i) (P.poly (partialZ σ s i j)) hb) := by
  have hf : Frame [.z] m (m.put .z (line i) (P.poly (partialZ σ s i j)) hb) := (Frame.refl _ m).put (by simp) _ _ _
  have hs := hS.of_frame hf (by simp) j hj (by omega)
  have h' := h.of_frame hf (by simp) (by simp) (by simp) (by simp)
  have he : (m.put .z (line i) (P.poly (partialZ σ s i j)) hb).cell .elp [(u : ℤ), (i : ℤ) - j] =
      some (P.index (σ.coeff (i - j))) := by
    rw [show (i : ℤ) - j = ((i - j : ℕ) : ℤ) by omega]
    exact h'.elp (i - j) (by omega)
  have hnext : partialZ σ s i (j + 1) = partialZ σ s i j + σ.coeff (i - j) * s j := by
    rw [partialZ, partialZ, sum_Ico_succ_top hj, ← add_assoc]
  simp only [zTerm, wp_bind, wp_andAlso, wp_pure]
  rw [wp_load hs]
  by_cases hsz : s j = 0
  · rw [if_neg (by simpa using hsz), wp_ifThen_neg (by simp), hnext, hsz, mul_zero, add_zero]
  · rw [if_pos (by simpa using hsz), wp_load he]
    by_cases hez : σ.coeff (i - j) = 0
    · rw [wp_ifThen_neg (by simpa using hez), hnext, hez, zero_mul, add_zero]
    · obtain ⟨hnonneg, hlook⟩ := h'.tables.alphaTo_mul hez (n := P.log (s j))
        (e := P.index (σ.coeff (i - j)) + P.index (s j)) (by rw [P.index_of_ne_zero hsz])
      rw [wp_ifThen_pos (by simpa using hez)]
      simp only [wp_bind]
      rw [wp_load he, wp_logarithm hez, wp_load hs, wp_logarithm hsz, wp_rem hnonneg,
        wp_load (Machine.cell_put_self _ _ _ _ _), wp_load hlook, wp_store hb, Machine.put_put, P.xor_poly,
        P.alpha_pow_log hsz, hnext]

theorem wp_formZ (hS : HasTerms m s) (h : HasLocator u σ L m) (hσ : σ.coeff 0 = 1) (hs : s 0 = 1) {i : ℕ}
    (hi : 1 ≤ i) (hiL : i ≤ L) (hL : L ≤ P.tt) (hb : InBounds (P.dims .z) (line i)) :
    wp (formZ P u i) (fun _ m' => m' = m.put .z (line i) (P.index (disc σ s i)) hb) m := by
  rw [formZ]
  refine wp_seq (wp_startZ hS h hi hiL hL hb) ?_
  rintro _ _ rfl
  refine wp_seq (wp_forEach (fun j t => t = m.put .z (line i) (P.poly (partialZ σ s i j)) hb) hi ?_ ?_) ?_
  · rw [partialZ, Ico_self, sum_empty, add_zero]
  · rintro j _ hj hji rfl
    exact wp_zTerm hS h hj hji hiL hL hb
  · rintro _ _ rfl
    have hf : Frame [.z] m (m.put .z (line i) (P.poly (partialZ σ s i i)) hb) := (Frame.refl _ m).put (by simp) _ _ _
    simp only [wp_bind]
    rw [wp_load (Machine.cell_put_self _ _ _ _ _), wp_load ((h.tables.of_frame hf (by simp) (by simp)).indexOf _),
      wp_store hb, Machine.put_put, partialZ_self hσ hs hi]

end FormZ

/-! ### Back to polynomial form -/

theorem wp_restoreSymbol {m : Machine P.dims} (hT : HasTables m) {x : P.GF} {i : ℕ}
    (hx : m.cell .recd (line i) = some (P.index x)) (hb : InBounds (P.dims .recd) (line i)) :
    wp (restoreSymbol P i) (fun _ m' => m' = m.put .recd (line i) (P.poly x) hb) m := by
  rw [restoreSymbol, wp_bind, wp_load hx]
  by_cases hz : x = 0
  · rw [wp_ifThenElse_neg (by simpa using hz), wp_store hb, hz, P.poly_zero]
  · rw [wp_ifThenElse_pos (by simpa using hz)]
    simp only [wp_bind]
    rw [wp_load hx, wp_load (hT.alphaTo_index hz), wp_store hb]

theorem wp_restoreRecd {m : Machine P.dims} (hT : HasTables m) {x : ℕ → P.GF} (hx : HoldsIndex m .recd P.nn x) :
    wp (restoreRecd P) (fun _ m' => Frame [.recd] m m' ∧ HoldsWord m' .recd P.nn x) m := by
  refine wp_mono (wp_forEach_wrote .recd line (fun k => P.poly (x k)) (Nat.zero_le P.nn)
    fun k t _ hk ht => ?_) fun _ m' h => ⟨h.frame, fun k hk => h.new k (by simpa using hk)⟩
  have hold := (ht.cell_of_notMem line_injective (k := k) (by simp)).trans (hx k hk)
  refine wp_mono (wp_restoreSymbol (hT.of_frame ht.frame (by simp) (by simp)) hold (inBounds_recd hk)) ?_
  rintro _ _ rfl
  exact ht.put line_injective k (inBounds_recd hk)

/-! ### One error value -/

noncomputable def point (P : CodeParams) (rt : ℕ → ℕ) (c : ℕ) : P.GF := P.alpha ^ (P.nn - rt c)

/-- The value added at location `c`. -/
noncomputable def errorTerm (P : CodeParams) (σ : P.GF[X]) (s : ℕ → P.GF) (L : ℕ) (rt : ℕ → ℕ) (c : ℕ) : P.GF :=
  weight (range L) (point P rt) σ s c * (P.alpha ^ rt c) ^ (P.b0 + P.nn - 1)

theorem point_ne_zero (rt : ℕ → ℕ) (c : ℕ) : point P rt c ≠ 0 := P.alpha_pow_ne_zero _

theorem point_inv {rt : ℕ → ℕ} {c : ℕ} (h : rt c ≤ P.nn) : (point P rt c)⁻¹ = P.alpha ^ rt c := by
  rw [point, P.alpha_pow_sub h, inv_inv]

theorem point_injOn {σ : P.GF[X]} {L : ℕ} {rt : ℕ → ℕ} (hrt : RootList σ (P.nn + 1) L rt) :
    Set.InjOn (point P rt) (range L) := fun a ha b hb heq => by
  have ha' := hrt.bounds a (mem_range.mp ha)
  have hb' := hrt.bounds b (mem_range.mp hb)
  have := P.alpha_pow_injOn (by omega) (by omega) heq
  exact hrt.injOn ha hb (by omega)

section ErrorValue

variable {s : ℕ → P.GF} {u L : ℕ} {σ : P.GF[X]} {rt : ℕ → ℕ} {m : Machine P.dims}

/-- What the loop over the locations reads. -/
structure Ready (s : ℕ → P.GF) (σ : P.GF[X]) (u L : ℕ) (rt : ℕ → ℕ) (m : Machine P.dims) : Prop where
  tables : HasTables m
  z : ∀ j, 1 ≤ j → j ≤ L → m.cell .z (line j) = some (P.index (disc σ s j))
  roots : HasRoots L rt m
  len : m.cell .l (line u) = some (L : ℤ)

theorem Ready.of_frame {m' : Machine P.dims} (h : Ready s σ u L rt m) (hf : Frame [.err, .recd] m m') :
    Ready s σ u L rt m' := by
  refine ⟨h.tables.of_frame hf (by simp) (by simp), fun j hj hjL => ?_, h.roots.of_frame hf (by simp) (by simp), ?_⟩
  · rw [hf.cell _ (by simp), h.z j hj hjL]
  · rw [hf.cell _ (by simp), h.len]

theorem Ready.put_err (h : Ready s σ u L rt m) (idx : List ℤ) (v : ℤ) (hb : InBounds (P.dims .err) idx) :
    Ready s σ u L rt (m.put .err idx v hb) :=
  h.of_frame ((Frame.refl _ m).put (by simp) _ _ _)

theorem inBounds_err {k : ℕ} (hk : k < P.nn) : InBounds (P.dims .err) (line k) := inBounds_recd hk

/-- The first `j` terms of the numerator. -/
noncomputable def partialNumerator (σ : P.GF[X]) (s : ℕ → P.GF) (y : P.GF) (j : ℕ) : P.GF :=
  ∑ k ∈ range j, disc σ s k * y ^ k

theorem wp_numerator (h : Ready s σ u L rt m) (hσ : σ.coeff 0 = 1) (hs : s 0 = 1) {c : ℕ} (hc : c < L)
    (hb : InBounds (P.dims .err) (line (P.nn - rt c))) :
    wp (forEach 1 (L + 1) (numeratorTerm P c))
      (fun _ m' => m' = m.put .err (line (P.nn - rt c)) (P.poly ((truncated σ s L).eval (P.alpha ^ rt c))) hb)
      (m.put .err (line (P.nn - rt c)) 1 hb) := by
  refine wp_mono (wp_forEach
    (fun j t => t = m.put .err (line (P.nn - rt c)) (P.poly (partialNumerator σ s (P.alpha ^ rt c) j)) hb)
    (show 1 ≤ L + 1 by omega) ?_ ?_) ?_
  · rw [partialNumerator, sum_range_one, disc_zero, hσ, hs, pow_zero, mul_one, mul_one, P.poly_one]
  · rintro j _ hj hjL rfl
    have h' := h.put_err (line (P.nn - rt c)) (P.poly (partialNumerator σ s (P.alpha ^ rt c) j)) hb
    have hz := h'.z j hj (by omega)
    have hloc := h'.roots.loc c hc
    have hroot := h'.roots.root c hc
    have hnext : partialNumerator σ s (P.alpha ^ rt c) (j + 1) =
        partialNumerator σ s (P.alpha ^ rt c) j + disc σ s j * (P.alpha ^ rt c) ^ j := sum_range_succ _ _
    simp only [numeratorTerm, wp_bind]
    rw [wp_load hz]
    by_cases hd : disc σ s j = 0
    · rw [wp_ifThen_neg (by simpa using hd), hnext, hd, zero_mul, add_zero]
    · obtain ⟨hnonneg, hlook⟩ := h'.tables.alphaTo_mul hd (n := j * rt c)
        (e := P.index (disc σ s j) + j * (rt c : ℤ)) (by push_cast; ring)
      rw [wp_ifThen_pos (by simpa using hd)]
      simp only [wp_bind]
      rw [wp_load hz, wp_logarithm hd, wp_load hroot, wp_rem hnonneg, wp_load hloc, wp_load hloc,
        wp_load (Machine.cell_put_self _ _ _ _ _), wp_load hlook, wp_store hb, Machine.put_put, P.xor_poly, hnext,
        ← pow_mul, mul_comm j]
  · rintro _ _ rfl
    rw [partialNumerator, ← truncated_eval]

/-- The factor of location `j` in the denominator for location `c`. -/
noncomputable def factor (P : CodeParams) (rt : ℕ → ℕ) (c j : ℕ) : P.GF :=
  if j ≠ c then 1 + point P rt j * P.alpha ^ rt c else 1

theorem factor_ne_zero (hrt : RootList σ (P.nn + 1) L rt) {c j : ℕ} (hc : c < L) (hj : j < L) : factor P rt c j ≠ 0 := by
  rw [factor]
  split_ifs with hjc
  · have hcb := hrt.bounds c hc
    rw [← point_inv (by omega), ← CharTwo.sub_eq_add, sub_ne_zero]
    intro heq
    exact hjc (point_injOn hrt (mem_coe.mpr (mem_range.mpr hj)) (mem_coe.mpr (mem_range.mpr hc))
      ((mul_inv_eq_one₀ (point_ne_zero rt c)).mp heq.symm))
  · exact one_ne_zero

/-- The denominator is the locator without location `c`, at the inverse of that location. -/
theorem prod_factor {c : ℕ} :
    ∏ j ∈ range L, factor P rt c j = (locator ((range L).erase c) (point P rt)).eval (P.alpha ^ rt c) := by
  have hself : factor P rt c c = 1 := if_neg (not_not.mpr rfl)
  rw [locator, eval_prod, ← prod_erase (range L) hself]
  refine prod_congr rfl fun j hj => ?_
  rw [factor, if_pos (mem_erase.mp hj).1, ← CharTwo.sub_eq_add]
  simp

theorem HasTables.alphaTo_factor (h : HasTables m) (rt : ℕ → ℕ) (c j : ℕ) :
    m.cell .alphaTo [(((P.nn - rt j : ℕ) : ℤ) + rt c) % P.nn] = some (P.poly (point P rt j * P.alpha ^ rt c)) := by
  have hlook := h.alphaTo_mod (P.nn - rt j + rt c)
  rwa [Nat.cast_add, pow_add] at hlook

theorem wp_denominatorFactor (h : Ready s σ u L rt m) (hrt : RootList σ (P.nn + 1) L rt) {c j : ℕ} (hc : c < L)
    (hj : j < L) (n : ℕ) : wp (denominatorFactor P c j n)
      (fun q t => t = m ∧ ∃ n' : ℕ, q = n' ∧ P.alpha ^ n' = P.alpha ^ n * factor P rt c j) m := by
  have hne := factor_ne_zero hrt hc hj
  rw [denominatorFactor, wp_ite]
  split_ifs with hjc
  · have hg : factor P rt c j = 1 + point P rt j * P.alpha ^ rt c := if_pos hjc
    simp only [wp_bind]
    rw [wp_load (h.roots.loc j hj), wp_load (h.roots.root c hc), wp_rem (by positivity),
      wp_load (h.tables.alphaTo_factor rt c j), ← P.poly_one, P.xor_poly, ← hg, wp_load (h.tables.indexOf _),
      wp_logarithm hne, wp_pure]
    refine ⟨rfl, n + P.log (factor P rt c j), ?_, ?_⟩
    · rw [P.index_of_ne_zero hne, Nat.cast_add]
    · rw [pow_add, P.alpha_pow_log hne]
  · rw [wp_pure, factor, if_neg hjc]
    exact ⟨rfl, n, rfl, (mul_one _).symm⟩

theorem wp_denominator (h : Ready s σ u L rt m) (hrt : RootList σ (P.nn + 1) L rt) {c : ℕ} (hc : c < L) :
    wp (denominator P u c) (fun q m' => m' = m ∧ q = P.index ((locator ((range L).erase c) (point P rt)).eval
      (P.alpha ^ rt c))) m := by
  have hnat : ((L : ℤ)).toNat = L := Int.toNat_natCast L
  rw [denominator, wp_bind, wp_load h.len, hnat]
  -- `q` is the sum of the logarithms, not reduced
  refine wp_seq (wp_forUp (fun j (q : ℤ) t => t = m ∧ ∃ n : ℕ, q = n ∧ P.alpha ^ n = ∏ i ∈ range j, factor P rt c i)
    (Nat.zero_le L) ⟨rfl, 0, rfl, by simp⟩ ?_) ?_
  · rintro j q _ - hj ⟨rfl, n, rfl, hn⟩
    apply wp_mono (wp_denominatorFactor h hrt hc hj n)
    rintro q t ⟨ht, n', hq, hn'⟩
    exact ⟨ht, n', hq, by rw [prod_range_succ, hn', hn]⟩
  · rintro q _ ⟨rfl, n, rfl, hn⟩
    have hne := P.alpha_pow_ne_zero n
    rw [wp_rem (Int.natCast_nonneg n)]
    refine ⟨rfl, ?_⟩
    rw [← prod_factor, ← hn, P.index_of_ne_zero hne, ← P.alpha_pow_mod n, P.log_alpha_pow (Nat.mod_lt _ P.nn_pos)]
    push_cast
    rfl

theorem wp_scaleError (h : Ready s σ u L rt m) {c : ℕ} (hc : c < L) {v : P.GF}
    (hb : InBounds (P.dims .err) (line (P.nn - rt c))) :
    wp (scaleError P c)
      (fun _ m' => m' = m.put .err (line (P.nn - rt c)) (P.poly (v * (P.alpha ^ rt c) ^ (P.b0 + P.nn - 1))) hb)
      (m.put .err (line (P.nn - rt c)) (P.poly v) hb) := by
  have h' := h.put_err (line (P.nn - rt c)) (P.poly v) hb
  have hloc := h'.roots.loc c hc
  have hself : (m.put .err (line (P.nn - rt c)) (P.poly v) hb).cell .err (line (P.nn - rt c)) = some (P.poly v) :=
    Machine.cell_put_self _ _ _ _ _
  simp only [scaleError, wp_bind]
  rw [wp_load hloc, wp_load hself]
  by_cases hv : v = 0
  · rw [wp_ifThen_neg (by simpa using hv), hv, zero_mul]
  · have hnn := P.nn_pos
    obtain ⟨hnonneg, hlook⟩ := h'.tables.alphaTo_mul hv (n := rt c * (P.b0 + P.nn - 1))
      (e := P.index v + (rt c : ℤ) * (P.b0 + P.nn - 1)) (by push_cast [show 1 ≤ P.b0 + P.nn by omega]; ring)
    rw [wp_ifThen_pos (by simpa using hv)]
    simp only [wp_bind]
    rw [wp_load hloc, wp_load hself, wp_load (h'.tables.indexOf _), wp_logarithm hv, wp_load (h'.roots.root c hc),
      wp_rem hnonneg, wp_load hloc, wp_load hlook, wp_store hb, Machine.put_put, ← pow_mul]

/-- The word with `e` added at place `k`. -/
noncomputable def addAt (y : ℕ → P.GF) (k : ℕ) (e : P.GF) (j : ℕ) : P.GF := y j + if j = k then e else 0

theorem wp_applyError (h : Ready s σ u L rt m) (hrt : RootList σ (P.nn + 1) L rt) {c : ℕ} (hc : c < L)
    {y : ℕ → P.GF} {v : P.GF} (hy : HoldsWord m .recd P.nn y) (hb : InBounds (P.dims .err) (line (P.nn - rt c)))
    {den : P.GF} (hden : den = (locator ((range L).erase c) (point P rt)).eval (P.alpha ^ rt c)) (hne : den ≠ 0) :
    wp (applyError P u c) (fun _ m' => Frame [.err, .recd] m m' ∧
      HoldsWord m' .recd P.nn (addAt y (P.nn - rt c) (v / den)))
      (m.put .err (line (P.nn - rt c)) (P.poly v) hb) := by
  have hcb := hrt.bounds c hc
  have h' := h.put_err (line (P.nn - rt c)) (P.poly v) hb
  have hloc := h'.roots.loc c hc
  have hself : (m.put .err (line (P.nn - rt c)) (P.poly v) hb).cell .err (line (P.nn - rt c)) = some (P.poly v) :=
    Machine.cell_put_self _ _ _ _ _
  simp only [applyError, wp_bind]
  rw [wp_load hloc, wp_load hself]
  by_cases hv : v = 0
  · rw [wp_ifThen_neg (by simpa using hv)]
    refine ⟨(Frame.refl _ m).put (by simp) _ _ _, fun k hk => ?_⟩
    rw [Machine.cell_put_of_ne _ _ _ _ (by decide), hy k hk, addAt, hv, zero_div]
    simp
  · have hk : P.nn - rt c < P.nn := by omega
    have hb' : InBounds (P.dims .recd) (line (P.nn - rt c)) := inBounds_recd hk
    have hlog := h.put_err (line (P.nn - rt c)) (P.index v) hb
    rw [wp_ifThen_pos (by simpa using hv)]
    simp only [wp_bind]
    rw [wp_load hloc, wp_load hloc, wp_load hself, wp_load (h'.tables.indexOf _), wp_store hb, Machine.put_put]
    refine wp_mono (wp_denominator hlog hrt hc) ?_
    rintro q _ ⟨rfl, hq⟩
    rw [← hden] at hq
    obtain ⟨hnonneg, hlook⟩ := hlog.tables.alphaTo_div hv hne one_ne_zero (e := P.index v - q + P.nn)
      (by rw [hq, P.index_one]; ring)
    rw [mul_one] at hlook
    have hfinal := h.put_err (line (P.nn - rt c)) (P.poly (v / den)) hb
    have hrecd : (m.put .err (line (P.nn - rt c)) (P.poly (v / den)) hb).cell .recd (line (P.nn - rt c)) =
        some (P.poly (y (P.nn - rt c))) := by
      rw [Machine.cell_put_of_ne _ _ _ _ (by decide), hy _ hk]
    rw [wp_load (hlog.roots.loc c hc), wp_load (Machine.cell_put_self _ _ _ _ _), wp_logarithm hv, wp_rem hnonneg,
      wp_load (hlog.roots.loc c hc), wp_load hlook, wp_store hb, Machine.put_put, wp_load (hfinal.roots.loc c hc),
      wp_load (hfinal.roots.loc c hc), wp_load hrecd, wp_load (hfinal.roots.loc c hc),
      wp_load (Machine.cell_put_self _ _ _ _ _), wp_store hb', P.xor_poly]
    refine ⟨((Frame.refl _ m).put (by simp) _ _ _).put (by simp) _ _ _, fun k hkn => ?_⟩
    by_cases heq : k = P.nn - rt c
    · rw [heq, Machine.cell_put_self, addAt, if_pos rfl]
    · rw [Machine.cell_put_of_idx _ _ _ (by simpa using heq), Machine.cell_put_of_ne _ _ _ _ (by decide), hy k hkn,
        addAt, if_neg heq, add_zero]

theorem wp_errorValue (h : Ready s σ u L rt m) (hrt : RootList σ (P.nn + 1) L rt) (hσ : σ.coeff 0 = 1)
    (hs : s 0 = 1) {c : ℕ} (hc : c < L) {y : ℕ → P.GF} (hy : HoldsWord m .recd P.nn y) :
    wp (errorValue P u c) (fun _ m' => Frame [.err, .recd] m m' ∧
      HoldsWord m' .recd P.nn (addAt y (P.nn - rt c) (errorTerm P σ s L rt c))) m := by
  have hcb := hrt.bounds c hc
  have hb : InBounds (P.dims .err) (line (P.nn - rt c)) := inBounds_err (by omega)
  have h₁ := h.put_err (line (P.nn - rt c)) 1 hb
  have hpoint := point_inv (P := P) (show rt c ≤ P.nn by omega)
  have hinj := point_injOn hrt
  have hne : (locator ((range L).erase c) (point P rt)).eval (P.alpha ^ rt c) ≠ 0 := by
    rw [← hpoint]
    exact locator_erase_eval_ne_zero hinj (mem_range.mpr hc) (point_ne_zero rt c)
  rw [errorValue, wp_bind, wp_load (h.roots.loc c hc), wp_bind, wp_store hb, wp_bind, wp_load h₁.len, toNat_add_one]
  refine wp_seq (wp_numerator h hσ hs hc hb) ?_
  rintro _ _ rfl
  refine wp_seq (wp_scaleError h hc hb) ?_
  rintro _ _ rfl
  refine wp_mono (wp_applyError h hrt hc hy hb rfl hne) fun _ m' ⟨hf, hy'⟩ => ⟨hf, ?_⟩
  have hterm : errorTerm P σ s L rt c = (truncated σ s L).eval (P.alpha ^ rt c) *
      (P.alpha ^ rt c) ^ (P.b0 + P.nn - 1) / (locator ((range L).erase c) (point P rt)).eval (P.alpha ^ rt c) := by
    rw [errorTerm, weight, card_range, hpoint]
    ring
  rwa [hterm]

/-! ### The corrected word -/

/-- The word after the errors at the locations below `n` were added. -/
noncomputable def corrected (P : CodeParams) (σ : P.GF[X]) (s : ℕ → P.GF) (L : ℕ) (rt : ℕ → ℕ) (x : ℕ → P.GF)
    (n k : ℕ) : P.GF :=
  x k + ∑ c ∈ range n, if k = P.nn - rt c then errorTerm P σ s L rt c else 0

theorem corrected_succ (x : ℕ → P.GF) (n : ℕ) : corrected P σ s L rt x (n + 1) =
    addAt (corrected P σ s L rt x n) (P.nn - rt n) (errorTerm P σ s L rt n) := by
  funext k
  rw [addAt, corrected, corrected, sum_range_succ, add_assoc]

theorem wp_restoreAndClear (hT : HasTables m) {x : ℕ → P.GF} (hx : HoldsIndex m .recd P.nn x) :
    wp (forEach 0 P.nn fun i => do
        store .err [(i : ℤ)] 0
        restoreSymbol P i)
      (fun _ m' => Frame [.err, .recd] m m' ∧ HoldsWord m' .recd P.nn x) m := by
  refine wp_mono (wp_forEach (fun i t => Frame [.err, .recd] m t ∧ HoldsWord t .recd i x ∧
    ∀ k, i ≤ k → k < P.nn → t.cell .recd (line k) = some (P.index (x k))) (Nat.zero_le P.nn)
    ⟨Frame.refl _ m, fun k hk => absurd hk (Nat.not_lt_zero k), fun k _ hk => hx k hk⟩
    fun i t _ hi ⟨hf, hdone, hrest⟩ => ?_) fun _ m' ⟨hf, hdone, _⟩ => ⟨hf, hdone⟩
  have hb : InBounds (P.dims .err) (line i) := inBounds_err hi
  have hf' : Frame [.err, .recd] m (t.put .err (line i) 0 hb) := hf.put (by simp) _ _ _
  have hrecd : (t.put .err (line i) 0 hb).cell .recd = t.cell .recd := Machine.cell_put_of_ne _ _ _ _ (by decide)
  rw [wp_bind, wp_store hb]
  refine wp_mono (wp_restoreSymbol (hT.of_frame hf' (by simp) (by simp))
    ((congrFun hrecd _).trans (hrest i le_rfl hi)) (inBounds_recd hi)) ?_
  rintro _ _ rfl
  refine ⟨hf'.put (by simp) _ _ _, fun k hk => ?_, fun k hik hk => ?_⟩
  · rcases Nat.lt_succ_iff_lt_or_eq.mp hk with hlt | rfl
    · rw [Machine.cell_put_of_idx _ _ _ (by simp; omega), hrecd, hdone k hlt]
    · exact Machine.cell_put_self _ _ _ _ _
  · rw [Machine.cell_put_of_idx _ _ _ (by simp; omega), hrecd, hrest k (by omega) hk]

theorem wp_correct (hS : HasTerms m s) (h : HasLocator u σ L m) (hσ : σ.coeff 0 = 1) (hs : s 0 = 1)
    (hL : L ≤ P.tt) (hlist : RootList σ (P.nn + 1) L rt) (hrt : HasRoots L rt m) {x : ℕ → P.GF}
    (hx : HoldsIndex m .recd P.nn x) :
    wp (correct P u) (fun _ m' => Frame [.z, .err, .recd] m m' ∧
      HoldsWord m' .recd P.nn (corrected P σ s L rt x L)) m := by
  rw [correct, wp_bind, wp_load h.len, toNat_add_one]
  refine wp_seq (wp_forEach_wrote .z line (fun i => P.index (disc σ s i))
    (show 1 ≤ L + 1 by omega) fun i t hi hiL ht => ?_) fun _ m₁ h₁ => ?_
  · have hb : InBounds (P.dims .z) (line i) := inBounds_z (by omega)
    refine wp_mono (wp_formZ (hS.of_frame ht.frame (by simp)) (h.of_frame ht.frame (by simp) (by simp) (by simp)
      (by simp)) hσ hs hi (by omega) hL hb) ?_
    rintro _ _ rfl
    exact ht.put line_injective i hb
  · have hloc₁ := h.of_frame h₁.frame (by simp) (by simp) (by simp) (by simp)
    refine wp_seq (wp_restoreAndClear hloc₁.tables (hx.of_frame h₁.frame (by simp))) fun _ m₂ ⟨hf₂, hx₂⟩ => ?_
    have hready : Ready s σ u L rt m₂ := by
      refine ⟨hloc₁.tables.of_frame hf₂ (by simp) (by simp), fun j hj hjL => ?_,
        (hrt.of_frame h₁.frame (by simp) (by simp)).of_frame hf₂ (by simp) (by simp), ?_⟩
      · rw [hf₂.cell _ (by simp), h₁.new j (by simp; omega)]
      · rw [hf₂.cell _ (by simp), hloc₁.len]
    have hstart : corrected P σ s L rt x 0 = x := by
      funext k
      rw [corrected, range_zero, sum_empty, add_zero]
    rw [wp_bind, wp_load hready.len, Int.toNat_natCast]
    refine wp_mono (wp_forEach (fun c t => Frame [.err, .recd] m₂ t ∧
      HoldsWord t .recd P.nn (corrected P σ s L rt x c)) (Nat.zero_le L) ⟨Frame.refl _ _, by rwa [hstart]⟩
      fun c t _ hc ⟨hf, hy⟩ => ?_) fun _ m' ⟨hf, hy⟩ => ⟨?_, hy⟩
    · refine wp_mono (wp_errorValue (hready.of_frame hf) hlist hσ hs hc hy) fun _ t' ⟨hf', hy'⟩ => ⟨hf.trans hf', ?_⟩
      rwa [corrected_succ]
    · exact ((h₁.frame.mono (by simp)).trans (hf₂.mono (by simp))).trans (hf.mono (by simp))

end ErrorValue

end ReedSolomon
