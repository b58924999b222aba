import ReedSolomon.Decoder.Iteration
import ReedSolomon.Spec.Settings

/-!
# The rows after every pass

The Berlekamp loop seen from outside, pass by pass: `Completed m₀ u m` says that `m` is the state after pass
`u` of the loop begun in `m₀`. Whatever the syndromes are, the last row is then a shortest recurrence for the first
`u` of them, and the earlier rows, which are shortest recurrences for fewer, are in index form
(`berlekamp_shortest`).

In the case of `Overruns` the last row has a coefficient for which `elp` has no place. It is the only one missing, and
the row, being as long as the sequence, has nothing to satisfy.
-/

open Imp Finset Polynomial Recurrence

namespace ReedSolomon

variable {P : CodeParams}

/-- The state after pass `u` of the do-while loop. -/
inductive Completed (P : CodeParams) (m₀ : Machine P.dims) : ℕ → Machine P.dims → Prop
  | first : Completed P m₀ 1 ((iteration P 1).exec ((initTable P).exec m₀))
  | next {u : ℕ} {m : Machine P.dims} : Completed P m₀ u m → u < P.nn - P.kk → m.val .l [(u : ℤ) + 1] ≤ P.tt →
      Completed P m₀ (u + 1) ((iteration P (u + 1)).exec m)

/-- The element whose polynomial form is in `elp[q][i]`. -/
noncomputable def entry (m : Machine P.dims) (q i : ℕ) : P.GF := P.ofBits (m.val .elp (row q i)).toNat

theorem entry_of_cell {m : Machine P.dims} {q i : ℕ} {x : P.GF} (h : m.cell .elp (row q i) = some (P.poly x)) :
    entry m q i = x := by
  rw [entry, Machine.val_of_cell h, FieldParams.poly, Int.toNat_natCast, P.ofBits_bits]

/-- What holds after pass `u`, the syndromes being `s 1, s 2, …` and the degrees `L`. -/
structure AfterPass (s : ℕ → P.GF) (L : ℕ → ℕ) (u : ℕ) (m : Machine P.dims) : Prop where
  l : ∀ q ≤ u + 1, m.cell .l (line q) = some (L q : ℤ)
  constant : m.cell .elp (row (u + 1) 0) = some 1
  polynomial : ∀ i ≤ L (u + 1), i < 2 * P.tt → m.cell .elp (row (u + 1) i) = some (P.poly (entry m (u + 1) i))
  recurrence : ∀ k, L (u + 1) < k → k ≤ u → ∑ i ∈ range (L (u + 1) + 1), entry m (u + 1) i * s (k - i) = 0
  shortest : IsLeast {n | ∃ τ, Generates s u τ n} (L (u + 1))
  mono : L u ≤ L (u + 1)
  le : L (u + 1) ≤ u
  disc : u < 2 * P.tt → m.cell .d (line (u + 1)) =
    some (P.index (∑ i ∈ range (L (u + 1) + 1), entry m (u + 1) i * s (u + 1 - i)))
  index : ∀ q, 1 ≤ q → q ≤ u → ∃ σ, Generates s (q - 1) σ (L q) ∧
    ∀ i ≤ L q, m.cell .elp (row q i) = some (P.index (σ.coeff i))

section Passes

variable {m₀ m : Machine P.dims} {s : ℕ → P.GF} {rows : ℕ → Row P.GF} {u : ℕ}

/-- What a pass leaves for the next one, or for good. -/
def Kept (m₀ : Machine P.dims) (s : ℕ → P.GF) (u : ℕ) (m : Machine P.dims) : Prop :=
  ∃ rows, HoldsRows s rows u m ∧ (u ≤ 2 * P.tt → HasTable m₀ s rows u m)

theorem HasTable.kept (h : HasTable m₀ s rows u m) (hd : u ≤ 2 * P.tt → HasDisc s rows u m) : Kept m₀ s u m :=
  ⟨rows, ⟨h.table, h.elp, fun i hi _ => h.last i hi, h.l, hd⟩, fun _ => h⟩

theorem wp_pass (hT : HasTables m₀) (hS : HasTerms m₀ s) (hs : s 0 = 1) (hu : u ≤ 2 * P.tt) (h : Kept m₀ s u m) :
    wp (iteration P u) (fun _ => Kept m₀ s (u + 1)) m := by
  obtain ⟨rows, hrows, htable⟩ := h
  by_cases hover : u = 2 * P.tt ∧ Overruns P s
  · obtain ⟨rfl, hover⟩ := hover
    apply wp_mono (wp_iteration_overrun hT hs (htable le_rfl) (hrows.disc le_rfl) hover)
    rintro _ m' ⟨-, rows', hrows'⟩
    exact ⟨rows', hrows', fun hle => absurd hle (by omega)⟩
  · apply wp_mono (wp_iteration hT hS hs (htable hu) (hrows.disc hu) hu)
    rintro _ m' (⟨⟨rows', h', hd'⟩, -⟩ | ⟨hlast, hran⟩)
    · exact h'.kept hd'
    · exact absurd ⟨hlast, hran.overruns⟩ hover

theorem kept_of_completed (hT : HasTables m₀) (hS : HasTerms m₀ s) (hs : s 0 = 1) (h : Completed P m₀ u m) :
    1 ≤ u ∧ u ≤ 2 * P.tt ∧ Kept m₀ s (u + 1) m := by
  have htt := P.one_le_tt
  induction h with
  | first =>
    obtain ⟨htable, hdisc⟩ := wp_iff_run.mp (wp_initTable hS hs)
    exact ⟨le_rfl, by omega, wp_iff_run.mp (wp_pass hT hS hs (by omega) (htable.kept fun _ => hdisc))⟩
  | next _ hu _ ih =>
    rw [P.nn_sub_kk] at hu
    exact ⟨by omega, hu, wp_iff_run.mp (wp_pass hT hS hs hu ih.2.2)⟩

theorem HoldsRows.afterPass (hu : 1 ≤ u) (hut : u ≤ 2 * P.tt) (h : HoldsRows s rows (u + 1) m) :
    AfterPass s (fun q => (rows q).len) u m := by
  have htt := P.one_le_tt
  have hgen := h.table.generates (u + 1) (by omega) le_rfl
  have hlen := h.table.len_lt (u + 1) (by omega) le_rfl
  rw [Nat.add_sub_cancel] at hgen
  have hentry : ∀ i ≤ (rows (u + 1)).len, i < 2 * P.tt → entry m (u + 1) i = (rows (u + 1)).poly.coeff i :=
    fun i hi hin => entry_of_cell (h.last i hi hin)
  have hzero := h.last 0 (Nat.zero_le _) (by omega)
  -- a row with terms left to generate fits into a row of `elp`
  have hsum : ∀ k, (rows (u + 1)).len < k → k ≤ 2 * P.tt →
      ∑ i ∈ range ((rows (u + 1)).len + 1), entry m (u + 1) i * s (k - i) = Recurrence.disc (rows (u + 1)).poly s k := by
    intro k hk hkt
    rw [disc_eq_sum hgen.natDegree_le hk.le]
    apply sum_congr rfl
    intro i hi
    have := mem_range.mp hi
    rw [hentry i (by omega) (by omega)]
  refine ⟨h.l, ?_, ?_, ?_, ⟨⟨_, hgen⟩, ?_⟩, h.table.len_mono hu (Nat.lt_succ_self u), Nat.lt_succ_iff.mp hlen, ?_, ?_⟩
  · rwa [hgen.coeff_zero, P.poly_one] at hzero
  · intro i hi hin
    rw [hentry i hi hin]
    exact h.last i hi hin
  · intro k hk hku
    rw [hsum k hk (hku.trans hut)]
    exact hgen.disc_eq_zero k hk hku
  · rintro n ⟨τ, hτ⟩
    exact h.table.shortest (u + 1) (by omega) le_rfl τ n hτ
  · intro hlt
    rw [hsum (u + 1) hlen hlt]
    exact h.disc hlt
  · intro q hq hqu
    exact ⟨(rows q).poly, h.table.generates q hq (by omega), h.elp q (by omega)⟩

theorem AfterPass.congr {t : ℕ → P.GF} {L : ℕ → ℕ} (h : AfterPass s L u m) (hst : ∀ k, 1 ≤ k → t k = s k) :
    AfterPass t L u m := by
  have hts : ∀ k, 1 ≤ k → s k = t k := fun k hk => (hst k hk).symm
  have hsum : ∀ k, L (u + 1) < k → ∑ i ∈ range (L (u + 1) + 1), entry m (u + 1) i * t (k - i) =
      ∑ i ∈ range (L (u + 1) + 1), entry m (u + 1) i * s (k - i) := by
    intro k hk
    apply sum_congr rfl
    intro i hi
    rw [hst (k - i) (by have := mem_range.mp hi; omega)]
  have hset : {n | ∃ τ, Generates t u τ n} = {n | ∃ τ, Generates s u τ n} := by
    ext n
    exact ⟨fun ⟨τ, hτ⟩ => ⟨τ, hτ.congr fun k hk _ => hts k hk⟩, fun ⟨τ, hτ⟩ => ⟨τ, hτ.congr fun k hk _ => hst k hk⟩⟩
  refine ⟨h.l, h.constant, h.polynomial, ?_, by rw [hset]; exact h.shortest, h.mono, h.le, ?_, ?_⟩
  · intro k hk hku
    rw [hsum k hk]
    exact h.recurrence k hk hku
  · intro hlt
    rw [hsum (u + 1) (Nat.lt_succ_of_le h.le)]
    exact h.disc hlt
  · intro q hq hqu
    obtain ⟨σ, hσ, hcell⟩ := h.index q hq hqu
    exact ⟨σ, hσ.congr fun k hk _ => hst k hk, hcell⟩

end Passes

theorem completed_berlekamp {m₀ m : Machine P.dims} {s : ℕ → P.GF} (hT : HasTables m₀) (hS : HasTerms m₀ s)
    (hs : s 0 = 1) {u : ℕ} (h : Completed P m₀ (u + 1) ((iteration P (u + 1)).exec m)) :
    wp (berlekamp P u) (Completed P m₀) m := by
  induction hn : 2 * P.tt - u generalizing u m with
  | zero =>
    have := (kept_of_completed hT hS hs h).2.1
    omega
  | succ n ih =>
    rw [berlekamp, wp_bind, wp_iff_run, wp_ite]
    by_cases hlt : u + 1 < P.nn - P.kk
    · obtain ⟨-, -, rows, hrows, -⟩ := kept_of_completed hT hS hs h
      have hl : ((iteration P (u + 1)).exec m).cell .l [(u : ℤ) + 2] = some ((rows (u + 2)).len : ℤ) :=
        hrows.l (u + 2) le_rfl
      rw [if_pos hlt, wp_bind, wp_load hl, wp_ite]
      by_cases hle : ((rows (u + 2)).len : ℤ) ≤ P.tt
      · rw [if_pos hle]
        have hval : ((iteration P (u + 1)).exec m).val .l [((u + 1 : ℕ) : ℤ) + 1] ≤ P.tt := by
          rwa [show ((u + 1 : ℕ) : ℤ) + 1 = (u : ℤ) + 2 by omega, Machine.val_of_cell hl]
        exact ih (h.next hlt hval) (by omega)
      · rw [if_neg hle]
        exact h
    · rw [if_neg hlt]
      exact h

/-- **The Berlekamp loop computes shortest recurrences.** -/
theorem berlekamp_shortest (m₀ : Machine P.dims) (s : ℕ → P.GF) (hT : HasTables m₀) (hS : HasTerms m₀ s) :
    let t := (initTable P).exec m₀
    (∀ u m, Completed P m₀ u m → ∃ L, AfterPass s L u m) ∧
      Completed P m₀ ((berlekamp P 0).eval t) ((berlekamp P 0).exec t) := by
  intro t
  have hst : ∀ k, 1 ≤ k → s k = Function.update s 0 1 k := by
    intro k hk
    rw [Function.update_of_ne (by omega)]
  have hS' : HasTerms m₀ (Function.update s 0 1) := by
    intro k hk hkt
    rw [← hst k hk]
    exact hS k hk hkt
  have hone : Function.update s 0 1 0 = 1 := Function.update_self _ _ _
  constructor
  · intro u m h
    obtain ⟨hu, hut, rows, hrows, -⟩ := kept_of_completed hT hS' hone h
    exact ⟨_, (hrows.afterPass hu hut).congr hst⟩
  · exact wp_iff_run.mp (completed_berlekamp hT hS' hone .first)

theorem berlekamp_shortest_ones :
    let t := (generateGf rs255).exec (Machine.fresh rs255.dims)
    let m₀ := (forEach 1 17 fun k => store .s [(k : ℤ)] 0).exec t
    ∃ L, AfterPass (P := rs255) (fun _ => 1) L 1 ((iteration rs255 1).exec ((initTable rs255).exec m₀)) := by
  intro t m₀
  have hT : HasTables t := (wp_iff_run.mp (wp_generateGf (Machine.fresh _))).1
  have hrun : wp (forEach 1 17 fun k => store .s [(k : ℤ)] 0) (fun _ m => Frame [.s] t m ∧ HasTerms m fun _ => 1) t := by
    apply wp_mono (wp_forEach_wrote .s line (fun _ => rs255.index 1) (show 1 ≤ 17 by decide) ?_)
    · intro _ m h
      exact ⟨h.frame, fun k hk hkt => h.new k ⟨hk, Nat.lt_succ_of_le hkt⟩⟩
    · intro k m _ hk hm
      have hb : InBounds (rs255.dims .s) (line k) := inBounds_s (Nat.le_of_lt_succ hk)
      rw [← rs255.index_one, wp_store hb]
      exact hm.put line_injective k hb
  obtain ⟨hframe, hterms⟩ := wp_iff_run.mp hrun
  exact (berlekamp_shortest m₀ (fun _ => 1) (hT.of_frame hframe (by simp) (by simp)) hterms).1 1 _ .first

end ReedSolomon
