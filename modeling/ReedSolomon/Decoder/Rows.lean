import ReedSolomon.Algebra.Recurrence
import ReedSolomon.Decoder.Syndromes

/-!
# The table of the Berlekamp iteration

`decode_rs` keeps the rows of a `Recurrence.Table` in arrays: row `q` of `elp` holds the coefficients of
recurrence `q`, in index form except for the last row, which is in polynomial form, and only up to its
degree `l[q]`; the rest of a row may never have been written. `HasTable` is this relation. The lemmas
below say what the parts of one pass do to it: `keepRow` copies the last row, `searchRow` finds the row
to combine with, `combineRows` forms the new one and `discrepancy` its discrepancy.
-/

open Imp Finset Polynomial Recurrence

namespace ReedSolomon

variable {P : CodeParams}

/-- The sequence the iteration works on. Its place 0, which the program never reads, counts as 1. -/
noncomputable def terms (P : CodeParams) (x : ℕ → P.GF) (k : ℕ) : P.GF :=
  if k = 0 then 1 else syndrome P x (k - 1)

theorem terms_zero (x : ℕ → P.GF) : terms P x 0 = 1 := if_pos rfl

theorem terms_succ (x : ℕ → P.GF) (i : ℕ) : terms P x (i + 1) = syndrome P x i := by
  rw [terms, if_neg (Nat.succ_ne_zero i), Nat.add_sub_cancel]

theorem HasSyndromes.terms {m : Machine P.dims} {x : ℕ → P.GF} (h : HasSyndromes m x) {k : ℕ} (hk : 1 ≤ k)
    (hkt : k ≤ 2 * P.tt) : m.cell .s (line k) = some (P.index (terms P x k)) := by
  obtain ⟨i, rfl⟩ : ∃ i, k = i + 1 := ⟨k - 1, by omega⟩
  rw [terms_succ]
  exact h i (by omega)

/-- The arrays hold the rows `0, …, u` of the table. -/
structure HasTable (m₀ : Machine P.dims) (s : ℕ → P.GF) (rows : ℕ → Row P.GF) (u : ℕ) (m : Machine P.dims) :
    Prop where
  frame : Frame [.elp, .d, .l, .uLu] m₀ m
  table : Table s rows u
  elp : ∀ q < u, ∀ i ≤ (rows q).len, m.cell .elp (row q i) = some (P.index ((rows q).poly.coeff i))
  last : ∀ i ≤ (rows u).len, m.cell .elp (row u i) = some (P.poly ((rows u).poly.coeff i))
  l : ∀ q ≤ u, m.cell .l (line q) = some ((rows q).len : ℤ)
  uLu : ∀ q ≤ u, m.cell .uLu (line q) = some ((q : ℤ) - 1 - (rows q).len)
  d : ∀ q < u, m.cell .d (line q) = some (P.index (disc (rows q).poly s q))

/-- The discrepancy of the last row is in place. -/
def HasDisc (s : ℕ → P.GF) (rows : ℕ → Row P.GF) (u : ℕ) (m : Machine P.dims) : Prop :=
  m.cell .d (line u) = some (P.index (disc (rows u).poly s u))

theorem inBounds_elp {q i : ℕ} (hq : q ≤ 2 * P.tt + 1) (hi : i < 2 * P.tt) :
    InBounds (P.dims .elp) (row q i) := by
  simp only [CodeParams.dims, inBounds_cons, inBounds_nil, and_true, P.nn_sub_kk]
  omega

theorem inBounds_l {q : ℕ} (hq : q ≤ 2 * P.tt + 1) : InBounds (P.dims .l) (line q) := by
  simp only [CodeParams.dims, inBounds_cons, inBounds_nil, and_true, P.nn_sub_kk]
  omega

theorem toNat_add_one (n : ℕ) : ((n : ℤ) + 1).toNat = n + 1 := by omega

/-- What a pass does to `elp` and `l`: row `u + 1` becomes `r` and row `u` is put into index form. -/
structure NewRow (m : Machine P.dims) (u : ℕ) (last r : Row P.GF) (m' : Machine P.dims) : Prop where
  frame : Frame [.elp, .l] m m'
  new : ∀ i ≤ r.len, m'.cell .elp (row (u + 1) i) = some (P.poly (r.poly.coeff i))
  last : ∀ i ≤ last.len, m'.cell .elp (row u i) = some (P.index (last.poly.coeff i))
  elp : ∀ q < u, ∀ i, m'.cell .elp (row q i) = m.cell .elp (row q i)
  newLen : m'.cell .l (line (u + 1)) = some (r.len : ℤ)
  l : ∀ q ≤ u, m'.cell .l (line q) = m.cell .l (line q)

/-- After `i` passes of a loop that stores `f k` in row `u + 1` and `g k` in row `u`. -/
structure TwoRows (m₀ : Machine P.dims) (u : ℕ) (f g : ℕ → ℤ) (i : ℕ) (m : Machine P.dims) : Prop where
  frame : Frame [.elp] m₀ m
  upper : ∀ k < i, m.cell .elp (row (u + 1) k) = some (f k)
  lower : ∀ k < i, m.cell .elp (row u k) = some (g k)
  rest : ∀ q k, (q ≠ u + 1 ∧ q ≠ u) ∨ i ≤ k → m.cell .elp (row q k) = m₀.cell .elp (row q k)

theorem TwoRows.start (m : Machine P.dims) (u : ℕ) (f g : ℕ → ℤ) : TwoRows m u f g 0 m :=
  ⟨Frame.refl _ m, fun k hk => absurd hk (Nat.not_lt_zero k), fun k hk => absurd hk (Nat.not_lt_zero k),
    fun _ _ _ => rfl⟩

theorem TwoRows.step {m₀ m : Machine P.dims} {u : ℕ} {f g : ℕ → ℤ} {i : ℕ} (h : TwoRows m₀ u f g i m)
    (hb : InBounds (P.dims .elp) (row (u + 1) i)) (hb' : InBounds (P.dims .elp) (row u i)) :
    TwoRows m₀ u f g (i + 1) ((m.put .elp (row (u + 1) i) (f i) hb).put .elp (row u i) (g i) hb') := by
  have hcell : ∀ q k, ((m.put .elp (row (u + 1) i) (f i) hb).put .elp (row u i) (g i) hb').cell .elp (row q k) =
      if q = u ∧ k = i then some (g i) else if q = u + 1 ∧ k = i then some (f i) else m.cell .elp (row q k) := by
    intro q k
    simp [Machine.cell_put, row]
    norm_cast
  refine ⟨(h.frame.put (by simp) _ _ _).put (by simp) _ _ _, fun k hk => ?_, fun k hk => ?_, fun q k hqk => ?_⟩
  · rw [hcell, if_neg (by omega)]
    rcases Nat.lt_succ_iff_lt_or_eq.mp hk with hlt | rfl
    · rw [if_neg (by omega), h.upper k hlt]
    · rw [if_pos ⟨rfl, rfl⟩]
  · rcases Nat.lt_succ_iff_lt_or_eq.mp hk with hlt | rfl
    · rw [hcell, if_neg (by omega), if_neg (by omega), h.lower k hlt]
    · rw [hcell, if_pos ⟨rfl, rfl⟩]
  · rw [hcell, if_neg (by omega), if_neg (by omega)]
    exact h.rest q k (by omega)

section Pass

variable {m₀ m : Machine P.dims} {s : ℕ → P.GF} {rows : ℕ → Row P.GF} {u q : ℕ}

theorem HasTable.hasTables (h : HasTable m₀ s rows u m) (hT : HasTables m₀) : HasTables m :=
  hT.of_frame h.frame (by simp) (by simp)

theorem newRow_of_twoRows {old new : Row P.GF} {m₁ m' : Machine P.dims} {n : ℕ}
    (hb : InBounds (P.dims .l) (line (u + 1))) (hf : Frame [.elp] (m.put .l (line (u + 1)) new.len hb) m₁)
    (help : ∀ q < u, ∀ i, m₁.cell .elp (row q i) = m.cell .elp (row q i)) {f g : ℕ → ℤ}
    (h : TwoRows m₁ u f g n m') (hlast : ∀ i ≤ old.len, i < n ∧ g i = P.index (old.poly.coeff i))
    (hnew : ∀ i ≤ new.len, if i < n then f i = P.poly (new.poly.coeff i) else
      m₁.cell .elp (row (u + 1) i) = some (P.poly (new.poly.coeff i))) : NewRow m u old new m' := by
  have hl : m'.cell .l = (m.put .l (line (u + 1)) new.len hb).cell .l :=
    (h.frame.cell _ (by simp)).trans (hf.cell _ (by simp))
  refine ⟨?_, fun i hi => ?_, fun i hi => ?_, fun q hq i => ?_, ?_, fun q hq => ?_⟩
  · exact (((Frame.refl [.elp, .l] m).put (by simp) (line (u + 1)) new.len hb).trans (hf.mono (by simp))).trans
      (h.frame.mono (by simp))
  · have hi' := hnew i hi
    split_ifs at hi' with hin
    · rw [h.upper i hin, hi']
    · rw [h.rest (u + 1) i (Or.inr (not_lt.mp hin)), hi']
  · rw [h.lower i (hlast i hi).1, (hlast i hi).2]
  · rw [h.rest q i (Or.inl (by omega)), help q hq]
  · rw [hl, Machine.cell_put_self]
  · rw [hl, Machine.cell_put_of_idx _ _ _ (by simp; omega)]

theorem wp_keepRow (hT : HasTables m₀) (h : HasTable m₀ s rows u m) (hu : u ≤ 2 * P.tt) :
    wp (keepRow P u) (fun _ => NewRow m u (rows u) (rows u)) m := by
  have hlen := h.table.len_lt u h.table.one_le le_rfl
  have hb : InBounds (P.dims .l) [(u : ℤ) + 1] := inBounds_l (q := u + 1) (by omega)
  simp only [keepRow, wp_bind]
  rw [wp_load (h.l u le_rfl), wp_store hb]
  set m₁ := m.put .l [(u : ℤ) + 1] ((rows u).len : ℤ) hb with hm₁
  have hl : m₁.cell .l (line u) = some ((rows u).len : ℤ) := by
    rw [hm₁, Machine.cell_put_of_idx _ _ _ (by simp)]
    exact h.l u le_rfl
  have help : m₁.cell .elp = m.cell .elp := Machine.cell_put_of_ne _ _ _ _ (by simp)
  have hT₁ : HasTables m₁ :=
    (h.hasTables hT).of_frame ((Frame.refl [.l] m).put (by simp) _ _ hb) (by simp) (by simp)
  rw [wp_load hl, toNat_add_one]
  refine wp_mono (wp_forEach (TwoRows m₁ u (fun k => P.poly ((rows u).poly.coeff k))
    fun k => P.index ((rows u).poly.coeff k)) (Nat.zero_le _) (TwoRows.start _ _ _ _) fun i t _ hi ht => ?_)
    fun _ m' h' => ?_
  · have hlast : t.cell .elp (row u i) = some (P.poly ((rows u).poly.coeff i)) := by
      rw [ht.rest u i (Or.inr le_rfl), help]
      exact h.last i (by omega)
    have hin : InBounds (P.dims .elp) [(u : ℤ) + 1, (i : ℤ)] := inBounds_elp (q := u + 1) (by omega) (by omega)
    have hin' : InBounds (P.dims .elp) (row u i) := inBounds_elp (by omega) (by omega)
    simp only [wp_bind]
    rw [wp_load hlast, wp_store hin]
    have hkept : (t.put .elp [(u : ℤ) + 1, (i : ℤ)] (P.poly ((rows u).poly.coeff i)) hin).cell .elp (row u i) =
        some (P.poly ((rows u).poly.coeff i)) := by
      rw [Machine.cell_put_of_idx _ _ _ (by simp), hlast]
    have hTt := hT₁.of_frame (ht.frame.put (by simp) _ (P.poly ((rows u).poly.coeff i)) hin) (by simp) (by simp)
    rw [wp_load hkept, wp_load (hTt.indexOf _), wp_store hin']
    exact ht.step hin hin'
  · exact newRow_of_twoRows hb (Frame.refl _ _) (fun q _ i => congrFun help _) h' (fun i hi => ⟨by omega, rfl⟩)
      fun i hi => by rw [if_pos (by omega)]

/-! ### The row to combine with -/

/-- The backward search for a nonzero discrepancy. -/
theorem wp_skipZero (h : HasTable m₀ s rows u m) (hs : s 0 = 1) {q : ℕ} (hq : q < u) :
    wp (skipZero P q) (fun r m' => m' = m ∧ r ≤ q ∧ disc (rows r).poly s r ≠ 0 ∧
      ∀ j, r < j → j ≤ q → disc (rows j).poly s j = 0) m := by
  induction q with
  | zero =>
    have hd : m.cell .d [0] = some (P.index (disc (rows 0).poly s 0)) := h.d 0 hq
    have hone := h.table.disc_row_zero hs
    simp only [skipZero, wp_bind, wp_pure]
    rw [wp_load hd]
    exact ⟨rfl, le_rfl, by rw [hone]; exact one_ne_zero, fun j hj hj0 => by omega⟩
  | succ q ih =>
    have hd : m.cell .d [(q : ℤ) + 1] = some (P.index (disc (rows (q + 1)).poly s (q + 1))) := h.d (q + 1) hq
    simp only [skipZero, wp_bind]
    rw [wp_load hd, wp_ite]
    split_ifs with hz
    · rw [P.index_eq_neg_one] at hz
      apply wp_mono (ih (by omega))
      rintro r m' ⟨hm', hr, hne, hzero⟩
      refine ⟨hm', by omega, hne, fun j hrj hjq => ?_⟩
      rcases Nat.lt_or_ge q j with hlt | hge
      · obtain rfl : j = q + 1 := by omega
        exact hz
      · exact hzero j hrj hge
    · rw [P.index_eq_neg_one] at hz
      rw [wp_pure]
      exact ⟨rfl, le_rfl, hz, fun j hj hjq => by omega⟩

/-- The backward search for a greater `u_lu`. -/
theorem wp_bestBefore (h : HasTable m₀ s rows u m) {j q : ℕ} (hj : j ≤ u) (hq : q < u)
    (hd : disc (rows q).poly s q ≠ 0) :
    wp (bestBefore P j q) (fun r m' => m' = m ∧ r < u ∧ disc (rows r).poly s r ≠ 0 ∧
      q + (rows r).len ≤ r + (rows q).len ∧
      ∀ i < j, disc (rows i).poly s i ≠ 0 → i + (rows r).len ≤ r + (rows i).len) m := by
  induction j generalizing q with
  | zero => exact ⟨rfl, hq, hd, le_rfl, fun i hi => absurd hi (Nat.not_lt_zero i)⟩
  | succ j ih =>
    simp only [bestBefore, wp_bind, wp_andAlso, wp_pure]
    rw [wp_load (h.d j (by omega))]
    by_cases hz : disc (rows j).poly s j = 0
    · rw [if_neg (by simpa using hz)]
      apply wp_mono (ih (by omega) hq hd)
      rintro r m' ⟨hm', hr, hne, hqr, hbest⟩
      refine ⟨hm', hr, hne, hqr, fun i hi hdi => ?_⟩
      rcases Nat.lt_succ_iff_lt_or_eq.mp hi with hlt | rfl
      · exact hbest i hlt hdi
      · exact absurd hz hdi
    · rw [if_pos (by simpa using hz), wp_load (h.uLu q hq.le), wp_load (h.uLu j (by omega))]
      -- the row kept so far and the candidate, whichever has the greater difference
      have hnext : ∀ k, k < u → disc (rows k).poly s k ≠ 0 → q + (rows k).len ≤ k + (rows q).len →
          j + (rows k).len ≤ k + (rows j).len →
          wp (bestBefore P j k) (fun r m' => m' = m ∧ r < u ∧ disc (rows r).poly s r ≠ 0 ∧
            q + (rows r).len ≤ r + (rows q).len ∧
            ∀ i < j + 1, disc (rows i).poly s i ≠ 0 → i + (rows r).len ≤ r + (rows i).len) m := by
        intro k hk hdk hqk hjk
        apply wp_mono (ih (by omega) hk hdk)
        rintro r m' ⟨hm', hr, hne, hkr, hbest⟩
        refine ⟨hm', hr, hne, by omega, fun i hi hdi => ?_⟩
        rcases Nat.lt_succ_iff_lt_or_eq.mp hi with hlt | rfl
        · exact hbest i hlt hdi
        · omega
      split_ifs with hlt
      · rw [decide_eq_true_eq] at hlt
        exact hnext j (by omega) hz (by omega) le_rfl
      · rw [decide_eq_true_eq] at hlt
        exact hnext q hq hd le_rfl (by omega)

theorem wp_searchRow (h : HasTable m₀ s rows u m) (hs : s 0 = 1) :
    wp (searchRow P u) (fun q m' => m' = m ∧ Table.Best s rows u q) m := by
  have hu := h.table.one_le
  simp only [searchRow, wp_bind]
  refine wp_mono (wp_skipZero h hs (show u - 1 < u by omega)) ?_
  rintro q _ ⟨rfl, hq, hd, hzero⟩
  have hhigh : ∀ j < u, disc (rows j).poly s j ≠ 0 → j ≤ q := fun j hj hdj => by
    by_contra hlt
    exact hdj (hzero j (by omega) (by omega))
  rw [wp_ite]
  split_ifs with hpos
  · refine wp_mono (wp_bestBefore h (show q ≤ u by omega) (by omega) hd) ?_
    rintro r _ ⟨rfl, hr, hne, hqr, hbest⟩
    refine ⟨rfl, hr, hne, fun j hj hdj => ?_⟩
    rcases Nat.lt_or_eq_of_le (hhigh j hj hdj) with hlt | rfl
    · exact hbest j hlt hdj
    · exact hqr
  · rw [wp_pure]
    refine ⟨rfl, by omega, hd, fun j hj hdj => ?_⟩
    obtain rfl : j = q := by have := hhigh j hj hdj; omega
    exact le_rfl

/-! ### The new row -/

/-- What `combineRows` adds to row `u`. -/
noncomputable def shifted (s : ℕ → P.GF) (rows : ℕ → Row P.GF) (u q : ℕ) : P.GF[X] :=
  C (disc (rows u).poly s u / disc (rows q).poly s q) * X ^ (u - q) * (rows q).poly

theorem shifted_coeff (k : ℕ) : (shifted s rows u q).coeff k = if u - q ≤ k then
    disc (rows u).poly s u / disc (rows q).poly s q * (rows q).poly.coeff (k - (u - q)) else 0 := by
  rw [shifted, mul_assoc, coeff_C_mul, coeff_X_pow_mul']
  split_ifs
  · rfl
  · exact mul_zero _

theorem combine_coeff (k : ℕ) : (Row.combine s rows u q).poly.coeff k =
    (shifted s rows u q).coeff k + (rows u).poly.coeff k := by
  rw [Row.combine, ← shifted, coeff_sub, CharTwo.sub_eq_add, add_comm]

theorem HasTables.alphaTo_div (h : HasTables m) {x y z : P.GF} (hx : x ≠ 0) (hy : y ≠ 0) (hz : z ≠ 0) {e : ℤ}
    (he : e = P.index x + P.nn - P.index y + P.index z) :
    0 ≤ e ∧ m.cell .alphaTo [e % P.nn] = some (P.poly (x / y * z)) := by
  have hy' := P.log_lt y
  obtain ⟨hnonneg, hlook⟩ := h.alphaTo_mul hz (n := P.log x + (P.nn - P.log y)) (e := e) (by
    rw [he, P.index_of_ne_zero hx, P.index_of_ne_zero hy]
    push_cast [hy'.le]
    ring)
  refine ⟨hnonneg, ?_⟩
  rw [hlook, pow_add, P.alpha_pow_log hx, P.alpha_pow_sub hy'.le, P.alpha_pow_log hy]
  congr 2
  ring

theorem wp_newDegree (h : HasTable m₀ s rows u m) (hqu : q < u)
    (hb : InBounds (P.dims .l) [(u : ℤ) + 1]) :
    wp (newDegree P u q)
      (fun _ m' => m' = m.put .l [(u : ℤ) + 1] ((Row.combine s rows u q).len : ℤ) hb) m := by
  have hlen : (Row.combine s rows u q).len = max (rows u).len ((rows q).len + (u - q)) := rfl
  simp only [newDegree, wp_bind]
  rw [wp_load (h.l u le_rfl), wp_load (h.l q hqu.le)]
  by_cases hgt : ((rows u).len : ℤ) > (rows q).len + u - q
  · rw [wp_ifThenElse_pos hgt, wp_bind, wp_load (h.l u le_rfl), wp_store hb, hlen, max_eq_left (by omega)]
  · rw [wp_ifThenElse_neg hgt, wp_bind, wp_load (h.l q hqu.le), wp_store hb, hlen, max_eq_right (by omega)]
    congr 1
    push_cast [hqu.le]
    ring

/-- The loop that copies row `q`, scaled and moved up by `u - q` places, into the cleared row `u + 1`. -/
theorem wp_shift {t : Machine P.dims} (hT : HasTables t) (hqu : q < u) (hu : u ≤ 2 * P.tt)
    (hfit : (rows q).len + (u - q) < 2 * P.tt) (hdu : HasDisc s rows u t) (hdq : HasDisc s rows q t)
    (hne : disc (rows u).poly s u ≠ 0) (hneq : disc (rows q).poly s q ≠ 0)
    (hrow : ∀ i ≤ (rows q).len, t.cell .elp (row q i) = some (P.index ((rows q).poly.coeff i)))
    (hclear : ∀ i < 2 * P.tt, t.cell .elp (row (u + 1) i) = some 0) :
    wp (forEach 0 ((rows q).len + 1) (shiftCoeff P u q))
      (fun _ => Wrote t .elp (fun k => row (u + 1) (k + (u - q)))
        (fun k => P.poly (disc (rows u).poly s u / disc (rows q).poly s q * (rows q).poly.coeff k))
        (Set.Ico 0 ((rows q).len + 1))) t := by
  have hinj : Function.Injective fun k => row (u + 1) (k + (u - q)) := fun j k h => by
    have := row_injective _ h
    omega
  refine wp_forEach_wrote _ _ _ (Nat.zero_le _) fun i v _ hi hv => ?_
  have hload : v.cell .elp (row q i) = some (P.index ((rows q).poly.coeff i)) := by
    rw [hv.old _ fun k _ => by simp; omega]
    exact hrow i (by omega)
  simp only [shiftCoeff, wp_bind]
  rw [wp_load hload]
  by_cases hz : (rows q).poly.coeff i = 0
  · rw [wp_ifThen_neg (by simpa using hz)]
    refine hv.skip hinj (by simp) ?_
    rw [hclear _ (by omega), hz, mul_zero, P.poly_zero]
  · have hTv := hT.of_frame hv.frame (by simp) (by simp)
    have hdu' : v.cell .d (line u) = _ := (congrFun (hv.cell_of_ne (by decide)) _).trans hdu
    have hdq' : v.cell .d (line q) = _ := (congrFun (hv.cell_of_ne (by decide)) _).trans hdq
    obtain ⟨hnonneg, hlook⟩ := hTv.alphaTo_div hne hneq hz rfl
    have hplace : (i : ℤ) + u - q = ((i + (u - q) : ℕ) : ℤ) := by omega
    have hb : InBounds (P.dims .elp) [(u : ℤ) + 1, ((i + (u - q) : ℕ) : ℤ)] :=
      inBounds_elp (q := u + 1) (by omega) (by omega)
    rw [wp_ifThen_pos (by simpa using hz)]
    simp only [wp_bind]
    rw [wp_load hdu', wp_logarithm hne, wp_load hdq', wp_logarithm hneq, wp_load hload, wp_logarithm hz,
      wp_rem hnonneg, wp_load hlook, hplace, wp_store hb]
    exact hv.put hinj i hb

theorem wp_addRow {t : Machine P.dims} (hT : HasTables t) {f : ℕ → P.GF} (hu : u ≤ 2 * P.tt)
    (hlen : (rows u).len < 2 * P.tt)
    (hlast : ∀ i ≤ (rows u).len, t.cell .elp (row u i) = some (P.poly ((rows u).poly.coeff i)))
    (hnext : ∀ i < 2 * P.tt, t.cell .elp (row (u + 1) i) = some (P.poly (f i))) :
    wp (forEach 0 ((rows u).len + 1) (addCoeff P u))
      (fun _ => TwoRows t u (fun k => P.poly (f k + (rows u).poly.coeff k))
        (fun k => P.index ((rows u).poly.coeff k)) ((rows u).len + 1)) t := by
  refine wp_forEach (TwoRows t u _ _) (Nat.zero_le _) (TwoRows.start _ _ _ _) fun i v _ hi hv => ?_
  have hup : v.cell .elp [(u : ℤ) + 1, (i : ℤ)] = some (P.poly (f i)) :=
    (hv.rest (u + 1) i (Or.inr le_rfl)).trans (hnext i (by omega))
  have hlow : v.cell .elp (row u i) = some (P.poly ((rows u).poly.coeff i)) :=
    (hv.rest u i (Or.inr le_rfl)).trans (hlast i (by omega))
  have hin : InBounds (P.dims .elp) [(u : ℤ) + 1, (i : ℤ)] := inBounds_elp (q := u + 1) (by omega) (by omega)
  have hin' : InBounds (P.dims .elp) (row u i) := inBounds_elp (by omega) (by omega)
  simp only [addCoeff, wp_bind]
  rw [wp_load hup, wp_load hlow, P.xor_poly, wp_store hin]
  have hkept : (v.put .elp [(u : ℤ) + 1, (i : ℤ)] (P.poly (f i + (rows u).poly.coeff i)) hin).cell .elp (row u i) =
      some (P.poly ((rows u).poly.coeff i)) := by
    rw [Machine.cell_put_of_idx _ _ _ (by simp), hlow]
  have hTv := hT.of_frame (hv.frame.put (by simp) _ (P.poly (f i + (rows u).poly.coeff i)) hin) (by simp) (by simp)
  rw [wp_load hkept, wp_load (hTv.indexOf _), wp_store hin']
  exact hv.step hin hin'

end Pass

end ReedSolomon
