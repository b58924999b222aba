import ReedSolomon.Decoder.Rows

/-!
# The Berlekamp iteration

One pass of the do-while loop forms the next row of the table and its discrepancy (`wp_iteration`), and the
loop ends with the last row, or with one of more than `tt` coefficients (`wp_berlekamp`).

There is one exception. When the syndromes vanish up to the last one, which does not, the last pass
stores a coefficient one place behind the end of the last row of `elp` (`Overruns`). The declared row is
not affected and its degree is `2*tt`, so the function goes on to give up.
-/

open Imp Finset Polynomial Recurrence

namespace ReedSolomon

variable {P : CodeParams}

/-- The first nonzero term is the last one. -/
def Overruns (P : CodeParams) (s : ℕ → P.GF) : Prop :=
  (∀ k, 1 ≤ k → k < 2 * P.tt → s k = 0) ∧ s (2 * P.tt) ≠ 0

/-- The store behind the end of the last row of `elp`. -/
def overrun (P : CodeParams) : Fault Arr := .store .elp [2 * P.tt + 1, 2 * P.tt]

section Pass

variable {m₀ m : Machine P.dims} {s : ℕ → P.GF} {rows : ℕ → Row P.GF} {u q : ℕ}

theorem overruns_iff (h : Table s rows (2 * P.tt)) : Overruns P s ↔
    (rows (2 * P.tt)).len = 0 ∧ disc (rows (2 * P.tt)).poly s (2 * P.tt) ≠ 0 := by
  constructor
  · rintro ⟨hzero, hlast⟩
    have hlen := h.len_eq_zero hzero
    exact ⟨hlen, by rwa [h.poly_eq_one hlen, disc_one]⟩
  · rintro ⟨hlen, hd⟩
    rw [h.poly_eq_one hlen, disc_one] at hd
    refine ⟨fun k hk hkt => ?_, hd⟩
    have := (h.generates _ h.one_le le_rfl).disc_eq_zero k (by omega) (by omega)
    rwa [h.poly_eq_one hlen, disc_one] at this

/-! ### The new row -/

theorem wp_clearRow (hu : u ≤ 2 * P.tt) :
    wp (forEach 0 (2 * P.tt) fun i => store .elp [(u : ℤ) + 1, (i : ℤ)] 0)
      (fun _ => Wrote m .elp (row (u + 1)) (fun _ => 0) (Set.Ico 0 (2 * P.tt))) m := by
  refine wp_forEach_wrote _ _ _ (Nat.zero_le _) fun i t _ hi ht => ?_
  have hb : InBounds (P.dims .elp) [(u : ℤ) + 1, (i : ℤ)] := inBounds_elp (q := u + 1) (by omega) hi
  rw [wp_store hb]
  exact ht.put (row_injective (u + 1)) i hb

/-- The state in which the loops of `combineRows` begin. -/
structure Cleared (m : Machine P.dims) (u : ℕ) (new : Row P.GF) (m' : Machine P.dims) : Prop where
  frame : Frame [.elp, .l] m m'
  clear : ∀ i < 2 * P.tt, m'.cell .elp (row (u + 1) i) = some 0
  elp : ∀ q ≤ u, ∀ i, m'.cell .elp (row q i) = m.cell .elp (row q i)
  newLen : m'.cell .l (line (u + 1)) = some (new.len : ℤ)
  l : ∀ q ≤ u, m'.cell .l (line q) = m.cell .l (line q)

theorem cleared {new : Row P.GF} {m' : Machine P.dims} (hb : InBounds (P.dims .l) (line (u + 1)))
    (h : Wrote (m.put .l (line (u + 1)) (new.len : ℤ) hb) .elp (row (u + 1)) (fun _ => 0)
      (Set.Ico 0 (2 * P.tt)) m') : Cleared m u new m' := by
  have hl := h.cell_of_ne (show Arr.l ≠ Arr.elp by decide)
  refine ⟨((Frame.refl _ m).put (by simp) _ _ hb).trans (h.frame.mono (by simp)), fun i hi => h.new i (by simpa),
    fun q hq i => ?_, ?_, fun q hq => ?_⟩
  · rw [h.old _ fun k _ => by simp; omega, Machine.cell_put_of_ne _ _ _ _ (by simp)]
  · rw [hl, Machine.cell_put_self]
  · rw [hl, Machine.cell_put_of_idx _ _ _ (by simp; omega)]

theorem Cleared.shifted {new : Row P.GF} {m₁ m₂ : Machine P.dims} (h : Cleared m u new m₁)
    (hdeg : (rows q).poly.natDegree ≤ (rows q).len)
    (h₂ : Wrote m₁ .elp (fun k => row (u + 1) (k + (u - q)))
      (fun k => P.poly (disc (rows u).poly s u / disc (rows q).poly s q * (rows q).poly.coeff k))
      (Set.Ico 0 ((rows q).len + 1)) m₂) {i : ℕ} (hi : i < 2 * P.tt) :
    m₂.cell .elp (row (u + 1) i) = some (P.poly ((shifted s rows u q).coeff i)) := by
  rw [shifted_coeff]
  by_cases hin : u - q ≤ i ∧ i - (u - q) ≤ (rows q).len
  · have hnew := h₂.new (i - (u - q)) (by simp; omega)
    rw [if_pos hin.1]
    rwa [Nat.sub_add_cancel hin.1] at hnew
  · rw [h₂.old _ fun k hk => by simp at hk ⊢; omega, h.clear i hi]
    split_ifs with hle
    · rw [coeff_eq_zero_of_natDegree_lt (by omega), mul_zero, P.poly_zero]
    · rw [P.poly_zero]

theorem wp_combineRows (hT : HasTables m₀) (h : HasTable m₀ s rows u m) (hu : u ≤ 2 * P.tt)
    (hdu : HasDisc s rows u m) (hne : disc (rows u).poly s u ≠ 0) (hq : Table.Best s rows u q)
    (hfit : u < 2 * P.tt + (rows u).len) :
    wp (combineRows P u q) (fun _ => NewRow m u (rows u) (Row.combine s rows u q)) m := by
  have hqu := hq.lt
  have hqlen := hq.eq_len_add h.table
  have hlen := h.table.len_lt u h.table.one_le le_rfl
  have hTm := h.hasTables hT
  have hb : InBounds (P.dims .l) [(u : ℤ) + 1] := inBounds_l (q := u + 1) (by omega)
  rw [combineRows, P.nn_sub_kk]
  refine wp_seq (wp_newDegree h hqu hb) ?_
  rintro _ _ rfl
  refine wp_seq (wp_clearRow hu) fun _ m₁ h₁ => ?_
  have hcl : Cleared m u (Row.combine s rows u q) m₁ := cleared hb h₁
  have hT₁ := hTm.of_frame hcl.frame (by simp) (by simp)
  have hd₁ : m₁.cell .d = m.cell .d := hcl.frame.cell _ (by simp)
  rw [wp_bind, wp_load ((hcl.l q hqu.le).trans (h.l q hqu.le)), toNat_add_one]
  refine wp_seq (wp_shift hT₁ hqu hu (by omega) ((congrFun hd₁ _).trans hdu) ((congrFun hd₁ _).trans (h.d q hqu))
    hne hq.disc_ne (fun i hi => (hcl.elp q hqu.le i).trans (h.elp q hqu i hi)) hcl.clear) fun _ m₂ h₂ => ?_
  have hl₂ : m₂.cell .l = m₁.cell .l := h₂.cell_of_ne (by decide)
  have hnext : ∀ i < 2 * P.tt, m₂.cell .elp (row (u + 1) i) = some (P.poly ((shifted s rows u q).coeff i)) :=
    fun i hi => hcl.shifted (h.table.natDegree_le hqu.le) h₂ hi
  have hkept : ∀ k ≤ u, ∀ i, m₂.cell .elp (row k i) = m.cell .elp (row k i) := fun k hk i =>
    (h₂.old _ fun j _ => by simp; omega).trans (hcl.elp k hk i)
  rw [wp_bind, wp_load (((congrFun hl₂ _).trans (hcl.l u le_rfl)).trans (h.l u le_rfl)), toNat_add_one]
  refine wp_mono (wp_addRow (hT₁.of_frame h₂.frame (by simp) (by simp)) hu (by omega)
    (fun i hi => (hkept u le_rfl i).trans (h.last i hi)) hnext) fun _ m₃ h₃ => ?_
  have hnewLen : (Row.combine s rows u q).len = max (rows u).len ((rows q).len + (u - q)) := rfl
  refine newRow_of_twoRows hb (h₁.frame.trans h₂.frame) (fun k hk i => hkept k hk.le i) h₃
    (fun i hi => ⟨by omega, rfl⟩) fun i hi => ?_
  rw [combine_coeff]
  split_ifs with hlt
  · rfl
  · have hdegu := (h.table.generates u h.table.one_le le_rfl).natDegree_le
    rw [hnext i (by omega), coeff_eq_zero_of_natDegree_lt (p := (rows u).poly) (by omega), add_zero]

/-- What a pass does to `elp` and `l` if the new row is too long: only the coefficients with a place are stored. -/
structure CutRow (m : Machine P.dims) (u : ℕ) (last r : Row P.GF) (m' : Machine P.dims) : Prop where
  frame : Frame [.elp, .l] m m'
  new : ∀ i < 2 * P.tt, m'.cell .elp (row (u + 1) i) = some (P.poly (r.poly.coeff i))
  last : ∀ i ≤ last.len, m'.cell .elp (row u i) = some (P.index (last.poly.coeff i))
  elp : ∀ q < u, ∀ i, m'.cell .elp (row q i) = m.cell .elp (row q i)
  newLen : m'.cell .l (line (u + 1)) = some (r.len : ℤ)
  l : ∀ q ≤ u, m'.cell .l (line q) = m.cell .l (line q)

theorem Cleared.cut {m₁ m₂ : Machine P.dims} (h : Cleared m u (Row.combine s rows u 0) m₁) (hlen : (rows u).len = 0)
    (ht : Table s rows u) (h₂ : TwoRows (m₁.record (overrun P)) u (fun k => P.poly (0 + (rows u).poly.coeff k))
      (fun k => P.index ((rows u).poly.coeff k)) ((rows u).len + 1) m₂) (hu : u = 2 * P.tt) :
    CutRow (m.record (overrun P)) u (rows u) (Row.combine s rows u 0) m₂ := by
  have hl₂ : m₂.cell .l = m₁.cell .l := h₂.frame.cell _ (by simp)
  refine ⟨(h.frame.record _).trans (h₂.frame.mono (by simp)), ?_, ?_, ?_, ?_, ?_⟩
  · intro i hi
    have hcoeff : (Row.combine s rows u 0).poly.coeff i = (rows u).poly.coeff i := by
      rw [combine_coeff, shifted_coeff, if_neg (by omega), zero_add]
    rw [hcoeff]
    rcases Nat.eq_zero_or_pos i with rfl | hpos
    · rw [h₂.upper 0 (Nat.succ_pos _), zero_add]
    · rw [h₂.rest (u + 1) i (Or.inr (by omega)), ht.poly_eq_one hlen, coeff_one, if_neg hpos.ne', P.poly_zero]
      exact h.clear i hi
  · intro i hi
    exact h₂.lower i (Nat.lt_succ_of_le hi)
  · intro k hk i
    rw [h₂.rest k i (Or.inl (by omega))]
    exact h.elp k hk.le i
  · rw [hl₂, h.newLen]
  · intro k hk
    rw [hl₂]
    exact h.l k hk

/-- In the last pass the one coefficient of row 0 is shifted behind the end of row `2*tt + 1`, and lost. -/
theorem wp_shift_overrun {t : Machine P.dims} (hT : HasTables t) (hu : u = 2 * P.tt) (hdu : HasDisc s rows u t)
    (hd0 : HasDisc s rows 0 t) (hne : disc (rows u).poly s u ≠ 0) (hne0 : disc (rows 0).poly s 0 ≠ 0)
    (hone : t.cell .elp (row 0 0) = some (P.index 1)) :
    wp (forEach 0 1 (shiftCoeff P u 0)) (fun _ t' => t' = t.record (overrun P)) t := by
  obtain ⟨hnonneg, hlook⟩ := hT.alphaTo_div hne hne0 one_ne_zero rfl
  have hout : ¬ InBounds (P.dims .elp) [(u : ℤ) + 1, ((0 : ℕ) : ℤ) + u - (0 : ℕ)] := by
    simp only [CodeParams.dims, inBounds_cons, inBounds_nil, and_true, P.nn_sub_kk]
    omega
  have hfault : (Fault.store .elp [(u : ℤ) + 1, ((0 : ℕ) : ℤ) + u - (0 : ℕ)] : Fault Arr) = overrun P := by
    simp [overrun, hu]
  rw [wp_forEach_one]
  simp only [shiftCoeff, wp_bind]
  rw [wp_load hone, wp_ifThen_pos (by simp)]
  simp only [wp_bind]
  rw [wp_load hdu, wp_logarithm hne, wp_load hd0, wp_logarithm hne0, wp_load hone, wp_logarithm one_ne_zero,
    wp_rem hnonneg, wp_load hlook, wp_store_out hout, hfault]

/-- In the case of `Overruns` the store of the scaled row misses the array. -/
theorem wp_combineRows_overrun (hT : HasTables m₀) (h : HasTable m₀ s rows u m) (hu : u = 2 * P.tt)
    (hdu : HasDisc s rows u m) (hne : disc (rows u).poly s u ≠ 0) (hq : Table.Best s rows u q)
    (hlen : (rows u).len = 0) :
    wp (combineRows P u q) (fun _ => CutRow (m.record (overrun P)) u (rows u) (Row.combine s rows u q)) m := by
  have htt := P.one_le_tt
  have hq0 : q = 0 := by
    have hqlen := hq.eq_len_add h.table
    by_contra hpos
    have := h.table.len_lt q (by omega) hq.lt.le
    omega
  subst hq0
  have hrow0 := h.table.row_zero
  have hTm := h.hasTables hT
  have hb : InBounds (P.dims .l) [(u : ℤ) + 1] := inBounds_l (q := u + 1) (by omega)
  rw [combineRows, P.nn_sub_kk]
  refine wp_seq (wp_newDegree h hq.lt hb) ?_
  rintro _ _ rfl
  refine wp_seq (wp_clearRow hu.le) fun _ m₁ h₁ => ?_
  have hcl : Cleared m u (Row.combine s rows u 0) m₁ := cleared hb h₁
  have hT₁ := hTm.of_frame hcl.frame (by simp) (by simp)
  have hd₁ : m₁.cell .d = m.cell .d := hcl.frame.cell _ (by simp)
  have hl₀ : m₁.cell .l (line 0) = some ((0 : ℕ) : ℤ) := by
    rw [hcl.l 0 (Nat.zero_le u), h.l 0 (Nat.zero_le u), hrow0]
  have hone : m₁.cell .elp (row 0 0) = some (P.index 1) := by
    rw [hcl.elp 0 (Nat.zero_le u), h.elp 0 hq.lt 0 (Nat.zero_le _), hrow0]
    simp
  rw [wp_bind, wp_load hl₀, toNat_add_one]
  refine wp_seq (wp_shift_overrun hT₁ hu ((congrFun hd₁ _).trans hdu) ((congrFun hd₁ _).trans (h.d 0 hq.lt)) hne
    hq.disc_ne hone) ?_
  rintro _ _ rfl
  have hlu : (m₁.record (overrun P)).cell .l (line u) = some (((rows u).len : ℕ) : ℤ) :=
    (hcl.l u le_rfl).trans (h.l u le_rfl)
  rw [wp_bind, wp_load hlu, toNat_add_one]
  apply wp_mono (wp_addRow (t := m₁.record (overrun P)) (f := fun _ => 0) ⟨hT₁.alphaTo, hT₁.indexOf⟩ hu.le
    (by omega) (fun i hi => (hcl.elp u le_rfl i).trans (h.last i hi)) fun i hi => by
      rw [P.poly_zero]
      exact hcl.clear i hi)
  exact fun _ m₂ h₂ => hcl.cut hlen h.table h₂ hu

/-! ### The discrepancy -/

/-- The first `i` terms of the discrepancy of `σ` at `k`. -/
noncomputable def partialDisc (σ : P.GF[X]) (s : ℕ → P.GF) (k i : ℕ) : P.GF :=
  ∑ j ∈ range i, σ.coeff j * s (k - j)

section Discrepancy

variable {t : Machine P.dims} {r : Row P.GF}

/-- What `discrepancy` reads: the syndromes and the row `r` that was just stored. -/
structure Reads (s : ℕ → P.GF) (u : ℕ) (r : Row P.GF) (t : Machine P.dims) : Prop where
  tables : HasTables t
  s : ∀ k, 1 ≤ k → k ≤ 2 * P.tt → t.cell .s (line k) = some (P.index (s k))
  row : ∀ i ≤ r.len, t.cell .elp (row (u + 1) i) = some (P.poly (r.poly.coeff i))
  len : t.cell .l (line (u + 1)) = some (r.len : ℤ)

theorem Reads.put_d (h : Reads s u r t) (idx : List ℤ) (v : ℤ) (hb : InBounds (P.dims .d) idx) :
    Reads s u r (t.put .d idx v hb) := by
  have hf : Frame [.d] t (t.put .d idx v hb) := (Frame.refl _ t).put (by simp) _ _ _
  refine ⟨h.tables.of_frame hf (by simp) (by simp), fun k hk hkt => ?_, fun i hi => ?_, ?_⟩
  · rw [hf.cell _ (by simp), h.s k hk hkt]
  · rw [hf.cell _ (by simp), h.row i hi]
  · rw [hf.cell _ (by simp), h.len]

theorem wp_discrepancyTerm (h : Reads s u r t) (hu : u < 2 * P.tt) (hlen : r.len ≤ u) {i : ℕ} (hi : 1 ≤ i)
    (hin : i ≤ r.len) (hb : InBounds (P.dims .d) [(u : ℤ) + 1]) :
    wp (discrepancyTerm P u i)
      (fun _ t' => t' = t.put .d [(u : ℤ) + 1] (P.poly (partialDisc r.poly s (u + 1) (i + 1))) hb)
      (t.put .d [(u : ℤ) + 1] (P.poly (partialDisc r.poly s (u + 1) i)) hb) := by
  have hput := h.put_d [(u : ℤ) + 1] (P.poly (partialDisc r.poly s (u + 1) i)) hb
  set t₁ := t.put .d [(u : ℤ) + 1] (P.poly (partialDisc r.poly s (u + 1) i)) hb with ht₁
  have hs : t₁.cell .s [(u : ℤ) + 1 - i] = some (P.index (s (u + 1 - i))) := by
    rw [show (u : ℤ) + 1 - i = ((u + 1 - i : ℕ) : ℤ) by omega]
    exact hput.s _ (by omega) (by omega)
  have hrow : t₁.cell .elp [(u : ℤ) + 1, (i : ℤ)] = some (P.poly (r.poly.coeff i)) := hput.row i hin
  have hself : t₁.cell .d [(u : ℤ) + 1] = some (P.poly (partialDisc r.poly s (u + 1) i)) :=
    Machine.cell_put_self _ _ _ _ _
  have hnext : partialDisc r.poly s (u + 1) (i + 1) =
      partialDisc r.poly s (u + 1) i + r.poly.coeff i * s (u + 1 - i) := sum_range_succ _ _
  simp only [discrepancyTerm, wp_bind, wp_andAlso, wp_pure]
  rw [wp_load hs]
  by_cases hz : s (u + 1 - i) = 0
  · rw [if_neg (by simpa using hz), wp_ifThen_neg (by simp), hnext, hz, mul_zero, add_zero]
  · rw [if_pos (by simpa using hz), wp_load hrow]
    by_cases hc : r.poly.coeff i = 0
    · rw [wp_ifThen_neg (by simpa using hc), hnext, hc, zero_mul, add_zero]
    · obtain ⟨hnonneg, hlook⟩ := hput.tables.alphaTo_mul hz (n := P.log (r.poly.coeff i))
        (e := P.index (s (u + 1 - i)) + P.index (r.poly.coeff i)) (by rw [P.index_of_ne_zero hc])
      rw [wp_ifThen_pos (by simpa using hc)]
      simp only [wp_bind]
      rw [wp_load hs, wp_logarithm hz, wp_load hrow, wp_load (hput.tables.indexOf _), wp_logarithm hc,
        wp_rem hnonneg, wp_load hself, wp_load hlook, wp_store hb, ht₁, Machine.put_put, P.xor_poly, hnext,
        P.alpha_pow_log hc, mul_comm (s _)]

theorem wp_discrepancy (h : Reads s u r t) (hu : u < 2 * P.tt) (hr0 : r.poly.coeff 0 = 1)
    (hdeg : r.poly.natDegree ≤ r.len) (hlen : r.len ≤ u) (hb : InBounds (P.dims .d) [(u : ℤ) + 1]) :
    wp (discrepancy P u)
      (fun _ t' => t' = t.put .d [(u : ℤ) + 1] (P.index (disc r.poly s (u + 1))) hb) t := by
  have hs : t.cell .s [(u : ℤ) + 1] = some (P.index (s (u + 1))) := h.s (u + 1) (by omega) (by omega)
  have hfirst : partialDisc r.poly s (u + 1) 1 = s (u + 1) := by
    rw [partialDisc, sum_range_one, hr0, one_mul, Nat.sub_zero]
  have hlast : partialDisc r.poly s (u + 1) (r.len + 1) = disc r.poly s (u + 1) :=
    (disc_eq_sum hdeg (by omega) s).symm
  have hrest : wp (do
      forEach 1 ((← load .l [(u : ℤ) + 1]) + 1).toNat (discrepancyTerm P u)
      store .d [(u : ℤ) + 1] (← load .indexOf [← load .d [(u : ℤ) + 1]]))
      (fun _ t' => t' = t.put .d [(u : ℤ) + 1] (P.index (disc r.poly s (u + 1))) hb)
      (t.put .d [(u : ℤ) + 1] (P.poly (s (u + 1))) hb) := by
    have hl : (t.put .d [(u : ℤ) + 1] (P.poly (s (u + 1))) hb).cell .l [(u : ℤ) + 1] = some (r.len : ℤ) :=
      (h.put_d _ _ hb).len
    simp only [wp_bind]
    rw [wp_load hl, toNat_add_one]
    refine wp_mono (wp_forEach (fun i t' => t' = t.put .d [(u : ℤ) + 1] (P.poly (partialDisc r.poly s (u + 1) i)) hb)
      (show 1 ≤ r.len + 1 by omega) (by rw [hfirst]) fun i t' hi hin ht' => ?_) ?_
    · rw [ht']
      exact wp_discrepancyTerm h hu hlen hi (by omega) hb
    · rintro _ _ rfl
      rw [wp_load (Machine.cell_put_self _ _ _ _ _), wp_load ((h.put_d _ _ hb).tables.indexOf _), wp_store hb,
        Machine.put_put, hlast]
  simp only [discrepancy, wp_bind]
  rw [wp_load hs]
  by_cases hz : s (u + 1) = 0
  · rw [wp_ifThenElse_neg (by simpa using hz), wp_store hb]
    rw [hz, P.poly_zero] at hrest
    exact hrest
  · rw [wp_ifThenElse_pos (by simpa using hz), wp_bind, wp_load hs, wp_bind, wp_load (h.tables.alphaTo_index hz),
      wp_store hb]
    exact hrest

end Discrepancy

/-! ### One pass -/

theorem HasTable.next {r : Row P.GF} {m' : Machine P.dims} (h : HasTable m₀ s rows u m)
    (hd : HasDisc s rows u m) (hnew : NewRow m u (rows u) r m')
    (ht : Table s (Function.update rows (u + 1) r) (u + 1)) (hb : InBounds (P.dims .uLu) [(u : ℤ) + 1]) :
    HasTable m₀ s (Function.update rows (u + 1) r) (u + 1)
      (m'.put .uLu [(u : ℤ) + 1] ((u : ℤ) - r.len) hb) := by
  have hold : ∀ q ≤ u, Function.update rows (u + 1) r q = rows q := fun q hq =>
    Function.update_of_ne (by omega) _ _
  have hself : Function.update rows (u + 1) r (u + 1) = r := Function.update_self _ _ _
  have hf := hnew.frame.mono (V := [.elp, .d, .l, .uLu]) (by simp)
  have hcell : ∀ a, a ≠ .uLu → (m'.put .uLu [(u : ℤ) + 1] ((u : ℤ) - r.len) hb).cell a = m'.cell a :=
    fun a ha => Machine.cell_put_of_ne _ _ _ _ ha
  refine ⟨(h.frame.trans hf).put (by simp) _ _ _, ht, fun q hq i hi => ?_, fun i hi => ?_, fun q hq => ?_,
    fun q hq => ?_, fun q hq => ?_⟩
  · rw [hold q (by omega)] at hi ⊢
    rw [hcell _ (by decide)]
    rcases Nat.lt_succ_iff_lt_or_eq.mp hq with hlt | rfl
    · rw [hnew.elp q hlt, h.elp q hlt i hi]
    · exact hnew.last i hi
  · rw [hself] at hi ⊢
    rw [hcell _ (by decide), hnew.new i hi]
  · rw [hcell _ (by decide)]
    rcases Nat.lt_or_eq_of_le hq with hlt | rfl
    · rw [hold q (by omega), hnew.l q (by omega), h.l q (by omega)]
    · rw [hself, hnew.newLen]
  · rcases Nat.lt_or_eq_of_le hq with hlt | rfl
    · rw [hold q (by omega), Machine.cell_put_of_idx _ _ _ (by simp; omega), hnew.frame.cell _ (by simp),
        h.uLu q (by omega)]
    · rw [hself]
      refine (Machine.cell_put_self _ _ _ _ _).trans (congrArg some ?_)
      push_cast
      ring
  · rw [hold q (by omega), hcell _ (by decide), hnew.frame.cell _ (by simp)]
    rcases Nat.lt_succ_iff_lt_or_eq.mp hq with hlt | rfl
    · exact h.d q hlt
    · exact hd

theorem HasTable.put_d (h : HasTable m₀ s rows (u + 1) m) (v : ℤ) (hb : InBounds (P.dims .d) [(u : ℤ) + 1]) :
    HasTable m₀ s rows (u + 1) (m.put .d [(u : ℤ) + 1] v hb) := by
  refine ⟨h.frame.put (by simp) _ _ _, h.table, fun q hq i hi => ?_, fun i hi => ?_, fun q hq => ?_, fun q hq => ?_,
    fun q hq => ?_⟩
  · rw [Machine.cell_put_of_ne _ _ _ _ (by decide), h.elp q hq i hi]
  · rw [Machine.cell_put_of_ne _ _ _ _ (by decide), h.last i hi]
  · rw [Machine.cell_put_of_ne _ _ _ _ (by decide), h.l q hq]
  · rw [Machine.cell_put_of_ne _ _ _ _ (by decide), h.uLu q hq]
  · rw [Machine.cell_put_of_idx _ _ _ (by simp; omega), h.d q hq]

/-- The syndromes are in place. -/
def HasTerms (m : Machine P.dims) (s : ℕ → P.GF) : Prop :=
  ∀ k, 1 ≤ k → k ≤ 2 * P.tt → m.cell .s (line k) = some (P.index (s k))

/-- After a pass that kept to the declared bounds: the rows up to `u`, and the discrepancy of row `u` if
another pass may follow. -/
def Formed (m₀ : Machine P.dims) (s : ℕ → P.GF) (u : ℕ) (m : Machine P.dims) : Prop :=
  ∃ rows, HasTable m₀ s rows u m ∧ (u ≤ 2 * P.tt → HasDisc s rows u m)

/-- After the last pass in the case of `Overruns`. -/
structure Overran (m₀ : Machine P.dims) (s : ℕ → P.GF) (m : Machine P.dims) : Prop where
  overruns : Overruns P s
  frame : Frame [.elp, .d, .l, .uLu] (m₀.record (overrun P)) m
  l : m.cell .l (line (2 * P.tt + 1)) = some ((2 * P.tt : ℕ) : ℤ)

theorem wp_finishPass (hT : HasTables m₀) (hS : HasTerms m₀ s) (h : HasTable m₀ s rows u m)
    (hd : HasDisc s rows u m) (hu : u ≤ 2 * P.tt) {r : Row P.GF}
    (ht : Table s (Function.update rows (u + 1) r) (u + 1)) {m₁ : Machine P.dims}
    (hnew : NewRow m u (rows u) r m₁) :
    wp (do
      store .uLu [(u : ℤ) + 1] (u - (← load .l [(u : ℤ) + 1]))
      ifThen (u < P.nn - P.kk) (discrepancy P u)) (fun _ => Formed m₀ s (u + 1)) m₁ := by
  have hb : InBounds (P.dims .uLu) [(u : ℤ) + 1] := inBounds_l (q := u + 1) (by omega)
  have hlen : m₁.cell .l [(u : ℤ) + 1] = some (r.len : ℤ) := hnew.newLen
  have hnext := h.next hd hnew ht hb
  simp only [wp_bind]
  rw [wp_load hlen, wp_store hb, P.nn_sub_kk]
  have hself : Function.update rows (u + 1) r (u + 1) = r := Function.update_self _ _ _
  by_cases hlast : u < 2 * P.tt
  · have hgen := ht.generates (u + 1) (by omega) le_rfl
    have hlt := ht.len_lt (u + 1) (by omega) le_rfl
    rw [hself] at hgen hlt
    have hreads : Reads s u r (m₁.put .uLu [(u : ℤ) + 1] ((u : ℤ) - r.len) hb) := by
      refine ⟨hnext.hasTables hT, fun k hk hkt => ?_, fun i hi => ?_, ?_⟩
      · rw [hnext.frame.cell _ (by simp), hS k hk hkt]
      · have := hnext.last i (by rwa [hself])
        rwa [hself] at this
      · have := hnext.l (u + 1) le_rfl
        rwa [hself] at this
    have hbd : InBounds (P.dims .d) [(u : ℤ) + 1] := inBounds_l (q := u + 1) (by omega)
    rw [wp_ifThen_pos hlast]
    refine wp_mono (wp_discrepancy hreads hlast hgen.coeff_zero hgen.natDegree_le (by omega) hbd) ?_
    rintro _ _ rfl
    refine ⟨Function.update rows (u + 1) r, hnext.put_d _ hbd, fun _ => ?_⟩
    rw [HasDisc, hself]
    exact Machine.cell_put_self _ _ _ _ _
  · rw [wp_ifThen_neg hlast]
    exact ⟨_, hnext, fun hle => by omega⟩

/-- The arrays hold the rows `0, …, u` as far as a row of `elp` has room for them. -/
structure HoldsRows (s : ℕ → P.GF) (rows : ℕ → Row P.GF) (u : ℕ) (m : Machine P.dims) : Prop where
  table : Table s rows u
  elp : ∀ q < u, ∀ i ≤ (rows q).len, m.cell .elp (row q i) = some (P.index ((rows q).poly.coeff i))
  last : ∀ i ≤ (rows u).len, i < 2 * P.tt → m.cell .elp (row u i) = some (P.poly ((rows u).poly.coeff i))
  l : ∀ q ≤ u, m.cell .l (line q) = some ((rows q).len : ℤ)
  disc : u ≤ 2 * P.tt → HasDisc s rows u m

/-- The last pass leaves the rows before the new one, and of that one what has a place. -/
theorem HasTable.holdsRows {f : Fault Arr} {r : Row P.GF} {m₁ : Machine P.dims} (h : HasTable m₀ s rows (2 * P.tt) m)
    (hnew : CutRow (m.record f) (2 * P.tt) (rows (2 * P.tt)) r m₁)
    (ht : Table s (Function.update rows (2 * P.tt + 1) r) (2 * P.tt + 1))
    (hb : InBounds (P.dims .uLu) [((2 * P.tt : ℕ) : ℤ) + 1]) (v : ℤ) :
    HoldsRows s (Function.update rows (2 * P.tt + 1) r) (2 * P.tt + 1)
      (m₁.put .uLu [((2 * P.tt : ℕ) : ℤ) + 1] v hb) := by
  have hcell : ∀ a, a ≠ .uLu → (m₁.put .uLu [((2 * P.tt : ℕ) : ℤ) + 1] v hb).cell a = m₁.cell a :=
    fun a ha => Machine.cell_put_of_ne _ _ _ _ ha
  have hold : ∀ k ≤ 2 * P.tt, Function.update rows (2 * P.tt + 1) r k = rows k :=
    fun k hk => Function.update_of_ne (by omega) _ _
  have hself : Function.update rows (2 * P.tt + 1) r (2 * P.tt + 1) = r := Function.update_self _ _ _
  refine ⟨ht, ?_, ?_, ?_, ?_⟩
  · intro k hk i hi
    rw [hold k (by omega)] at hi ⊢
    rw [hcell _ (by decide)]
    rcases Nat.lt_succ_iff_lt_or_eq.mp hk with hlt | rfl
    · rw [hnew.elp k hlt i]
      exact h.elp k hlt i hi
    · exact hnew.last i hi
  · intro i _ hi
    rw [hself, hcell _ (by decide)]
    exact hnew.new i hi
  · intro k hk
    rw [hcell _ (by decide)]
    rcases Nat.lt_or_eq_of_le hk with hlt | rfl
    · rw [hold k (by omega), hnew.l k (by omega)]
      exact h.l k (by omega)
    · rw [hself, hnew.newLen]
  · intro hle
    omega

theorem wp_iteration_overrun (hT : HasTables m₀) (hs : s 0 = 1) (h : HasTable m₀ s rows (2 * P.tt) m)
    (hd : HasDisc s rows (2 * P.tt) m) (hover : Overruns P s) :
    wp (iteration P (2 * P.tt)) (fun _ m' => Overran m₀ s m' ∧
      ∃ rows', HoldsRows s rows' (2 * P.tt + 1) m') m := by
  obtain ⟨hlen, hz⟩ := (overruns_iff h.table).mp hover
  have hb : InBounds (P.dims .uLu) [((2 * P.tt : ℕ) : ℤ) + 1] := inBounds_l (q := 2 * P.tt + 1) (by omega)
  simp only [iteration]
  rw [wp_bind, wp_load hd, wp_bind, wp_ifThenElse_neg (by simpa using hz)]
  apply wp_seq (wp_searchRow h hs)
  rintro q _ ⟨rfl, hq⟩
  apply wp_mono (wp_combineRows_overrun hT h rfl hd hz hq hlen)
  intro _ m₁ hnew
  have hnewLen : (Row.combine s rows (2 * P.tt) q).len = 2 * P.tt := by
    have heq := hq.eq_len_add h.table
    have hlt := hq.lt
    calc (Row.combine s rows (2 * P.tt) q).len
        = max (rows (2 * P.tt)).len ((rows q).len + (2 * P.tt - q)) := rfl
      _ = 2 * P.tt := by omega
  have hl : m₁.cell .l [((2 * P.tt : ℕ) : ℤ) + 1] = some ((2 * P.tt : ℕ) : ℤ) := by
    have hl := hnew.newLen
    rwa [hnewLen] at hl
  simp only [wp_bind]
  rw [wp_load hl, wp_store hb, P.nn_sub_kk, wp_ifThen_neg (by omega)]
  refine ⟨⟨hover, ((h.frame.record _).trans (hnew.frame.mono (by simp))).put (by simp) _ _ _, ?_⟩,
    Function.update rows (2 * P.tt + 1) (Row.combine s rows (2 * P.tt) q),
    h.holdsRows hnew (h.table.combine hz hq) hb _⟩
  rwa [Machine.cell_put_of_ne _ _ _ _ (by decide)]

/-- One pass of the do-while loop. -/
theorem wp_iteration (hT : HasTables m₀) (hS : HasTerms m₀ s) (hs : s 0 = 1) (h : HasTable m₀ s rows u m)
    (hd : HasDisc s rows u m) (hu : u ≤ 2 * P.tt) :
    wp (iteration P u) (fun _ m' => Formed m₀ s (u + 1) m' ∧ ¬ (u = 2 * P.tt ∧ Overruns P s) ∨
      u = 2 * P.tt ∧ Overran m₀ s m') m := by
  have hone := h.table.one_le
  have hlen := h.table.len_lt u hone le_rfl
  by_cases hover : u = 2 * P.tt ∧ Overruns P s
  · obtain ⟨rfl, hover⟩ := hover
    exact wp_mono (wp_iteration_overrun hT hs h hd hover) fun _ m' hm' => Or.inr ⟨rfl, hm'.1⟩
  simp only [iteration]
  rw [wp_bind, wp_load hd, wp_bind]
  by_cases hz : disc (rows u).poly s u = 0
  · rw [wp_ifThenElse_pos (by simpa using hz)]
    refine wp_mono (wp_keepRow hT h hu) fun _ m₁ hnew => ?_
    exact wp_mono (wp_finishPass hT hS h hd hu (h.table.keep hz) hnew) fun _ m' h' => Or.inl ⟨h', hover⟩
  · have hfit : u < 2 * P.tt + (rows u).len := by
      by_contra hge
      obtain rfl : u = 2 * P.tt := by omega
      exact hover ⟨rfl, (overruns_iff h.table).mpr ⟨by omega, hz⟩⟩
    rw [wp_ifThenElse_neg (by simpa using hz)]
    refine wp_seq (wp_searchRow h hs) ?_
    rintro q _ ⟨rfl, hq⟩
    refine wp_mono (wp_combineRows hT h hu hd hz hq hfit) fun _ m₁ hnew => ?_
    exact wp_mono (wp_finishPass hT hS h hd hu (h.table.combine hz hq) hnew) fun _ m' h' => Or.inl ⟨h', hover⟩

/-! ### The loop -/

/-- The two rows before the first pass. -/
noncomputable def firstRows (P : CodeParams) (_ : ℕ) : Row P.GF := ⟨1, 0⟩

theorem wp_clearRows (m : Machine P.dims) :
    wp (forEach 1 (2 * P.tt) fun i => do
        store .elp [0, (i : ℤ)] (-1)
        store .elp [1, (i : ℤ)] 0)
      (fun _ t => Frame [.elp] m t ∧ t.cell .elp [0, 0] = m.cell .elp [0, 0] ∧ t.cell .elp [1, 0] = m.cell .elp [1, 0])
      m := by
  have htt := P.one_le_tt
  refine wp_forEach (fun _ t => Frame [.elp] m t ∧ t.cell .elp [0, 0] = m.cell .elp [0, 0] ∧
    t.cell .elp [1, 0] = m.cell .elp [1, 0]) (show 1 ≤ 2 * P.tt by omega) ⟨Frame.refl _ m, rfl, rfl⟩ ?_
  rintro i t hi hin ⟨hf, ht0, ht1⟩
  have hi0 : InBounds (P.dims .elp) [0, (i : ℤ)] := inBounds_elp (q := 0) (by omega) hin
  have hi1 : InBounds (P.dims .elp) [1, (i : ℤ)] := inBounds_elp (q := 1) (by omega) hin
  rw [wp_bind, wp_store hi0, wp_store hi1]
  refine ⟨(hf.put (by simp) _ _ _).put (by simp) _ _ _, ?_, ?_⟩
  · rw [Machine.cell_put_of_idx _ _ _ (by simp), Machine.cell_put_of_idx _ _ _ (by simp; omega), ht0]
  · rw [Machine.cell_put_of_idx _ _ _ (by simp; omega), Machine.cell_put_of_idx _ _ _ (by simp), ht1]

theorem wp_initTable (hS : HasTerms m₀ s) (hs : s 0 = 1) :
    wp (initTable P) (fun _ m => HasTable m₀ s (firstRows P) 1 m ∧ HasDisc s (firstRows P) 1 m) m₀ := by
  have htt := P.one_le_tt
  have hd0 : InBounds (P.dims .d) [0] := inBounds_l (q := 0) (by omega)
  have hd1 : InBounds (P.dims .d) [1] := inBounds_l (q := 1) (by omega)
  have hl0 : InBounds (P.dims .l) [0] := inBounds_l (q := 0) (by omega)
  have hl1 : InBounds (P.dims .l) [1] := inBounds_l (q := 1) (by omega)
  have hu0 : InBounds (P.dims .uLu) [0] := inBounds_l (q := 0) (by omega)
  have hu1 : InBounds (P.dims .uLu) [1] := inBounds_l (q := 1) (by omega)
  have h00 : InBounds (P.dims .elp) [0, 0] := inBounds_elp (q := 0) (i := 0) (by omega) (by omega)
  have h10 : InBounds (P.dims .elp) [1, 0] := inBounds_elp (q := 1) (i := 0) (by omega) (by omega)
  have hs1 : m₀.cell .s [1] = some (P.index (s 1)) := hS 1 le_rfl (by omega)
  simp only [initTable, wp_bind]
  rw [wp_store hd0, wp_load (v := P.index (s 1)) (by rwa [Machine.cell_put_of_ne _ _ _ _ (by decide)]),
    wp_store hd1, wp_store h00, wp_store h10, P.nn_sub_kk]
  set m₁ := (((m₀.put .d [0] 0 hd0).put .d [1] (P.index (s 1)) hd1).put .elp [0, 0] 0 h00).put .elp [1, 0] 1 h10
    with hm₁
  have hf₁ : Frame [.elp, .d, .l, .uLu] m₀ m₁ :=
    ((((Frame.refl _ m₀).put (by simp) _ _ _).put (by simp) _ _ _).put (by simp) _ _ _).put (by simp) _ _ _
  apply wp_mono (wp_clearRows m₁)
  rintro _ t ⟨hf, ht0, ht1⟩
  have he0 : t.cell .elp [0, 0] = some 0 := ht0.trans (by simp [hm₁, Machine.cell_put])
  have he1 : t.cell .elp [1, 0] = some 1 := ht1.trans (by simp [hm₁])
  have hd : ∀ i, t.cell .d i = m₁.cell .d i := fun i => congrFun (hf.cell _ (by simp)) i
  rw [wp_store hl0, wp_store hl1, wp_store hu0, wp_store hu1]
  refine ⟨⟨?_, Table.base hs rfl rfl, fun q hq i hi => ?_, fun i hi => ?_, fun q hq => ?_, fun q hq => ?_,
    fun q hq => ?_⟩, ?_⟩
  · exact ((((hf₁.trans (hf.mono (by simp))).put (by simp) _ _ _).put (by simp) _ _ _).put (by simp) _ _ _).put
      (by simp) _ _ _
  · obtain rfl : q = 0 := by omega
    obtain rfl : i = 0 := Nat.le_zero.mp hi
    simpa [Machine.cell_put, firstRows, row] using he0
  · obtain rfl : i = 0 := Nat.le_zero.mp hi
    simpa [Machine.cell_put, firstRows, row] using he1
  · obtain rfl | rfl : q = 0 ∨ q = 1 := by omega
    · simp [Machine.cell_put, firstRows, line]
    · simp [Machine.cell_put, firstRows, line]
  · obtain rfl | rfl : q = 0 ∨ q = 1 := by omega
    · simp [Machine.cell_put, firstRows, line]
    · simp [firstRows, line]
  · obtain rfl : q = 0 := by omega
    simp [Machine.cell_put, firstRows, line, hd, hm₁, disc_one, hs]
  · simp [HasDisc, Machine.cell_put, firstRows, line, hd, hm₁, disc_one]

/-- How the loop ends: the table of the last row `u`, with no store out of bounds, or the case of
`Overruns`. -/
def Ended (m₀ : Machine P.dims) (s : ℕ → P.GF) (u : ℕ) (m : Machine P.dims) : Prop :=
  ((∃ rows, HasTable m₀ s rows u m ∧ u ≤ 2 * P.tt + 1 ∧ (u = 2 * P.tt + 1 ∨ P.tt < (rows u).len)) ∧
      ¬ Overruns P s) ∨
    u = 2 * P.tt + 1 ∧ Overran m₀ s m

theorem wp_berlekamp (hT : HasTables m₀) (hS : HasTerms m₀ s) (hs : s 0 = 1) (h : HasTable m₀ s rows (u + 1) m)
    (hd : HasDisc s rows (u + 1) m) (hu : u + 1 ≤ 2 * P.tt) :
    wp (berlekamp P u) (fun r => Ended m₀ s (r + 1)) m := by
  induction hn : 2 * P.tt - u generalizing u m rows with
  | zero => omega
  | succ n ih =>
    rw [berlekamp]
    refine wp_seq (wp_iteration hT hS hs h hd hu) fun _ m' hm' => ?_
    rw [P.nn_sub_kk, wp_ite]
    rcases hm' with ⟨⟨rows', h', hd'⟩, hno⟩ | ⟨hlast, hover⟩
    · have hl : m'.cell .l [(u : ℤ) + 2] = some (((rows' (u + 2)).len : ℕ) : ℤ) := h'.l (u + 2) le_rfl
      split_ifs with hlt
      · rw [wp_bind, wp_load hl, wp_ite]
        split_ifs with hle
        · exact ih h' (hd' (by omega)) (by omega) (by omega)
        · have hgt : P.tt < (rows' (u + 2)).len := by omega
          rw [wp_pure]
          refine Or.inl ⟨⟨rows', h', by omega, Or.inr hgt⟩, fun hov => ?_⟩
          have hzero : (rows' (u + 2)).len = 0 := h'.table.len_eq_zero fun k hk hku => hov.1 k hk (by omega)
          omega
      · rw [wp_pure]
        exact Or.inl ⟨⟨rows', h', by omega, Or.inl (by omega)⟩, fun hov => hno ⟨by omega, hov⟩⟩
    · rw [if_neg (by omega), wp_pure]
      exact Or.inr ⟨by omega, hover⟩

end Pass

end ReedSolomon
