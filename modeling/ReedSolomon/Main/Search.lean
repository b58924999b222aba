import ReedSolomon.Main.Words

/-!
# The root search seen from outside

`decode_rs` comes to its root search with the locator of a received word in a row of `elp` (`locate`). Whatever the
word is, after every pass of the search `root` lists the exponents of the roots there are so far, each once and in
increasing order, `loc` lists the locations, and there is room for both (`rootSearch_exact`).
-/

open Imp Finset Polynomial Recurrence

namespace ReedSolomon

variable {P : CodeParams}

/-! ### Up to the search -/

/-- `decode_rs` up to the root search: the row with the locator, or the value it returns instead. -/
def locate (P : CodeParams) : Code P (Except ℤ ℕ) := do
  declare decodeLocals
  toIndexForm P
  if (← syndromes P) then
    initTable P
    let u := (← berlekamp P 0) + 1
    if (← load .l [(u : ℤ)]) ≤ P.tt then
      locatorToIndex P u
      pure (.ok u)
    else pure (.error 3)
  else pure (.error 0)

/-- `decode_rs` from the root search on. -/
def conclude (P : CodeParams) : Except ℤ ℕ → Code P ℤ
  | .ok u => do
    let count ← rootSearch P u
    if count = (← load .l [(u : ℤ)]) then
      correct P u
      pure 1
    else
      restoreRecd P
      pure 2
  | .error code => do
    restoreRecd P
    pure code

theorem decodeRs_locate : decodeRs P = locate P >>= conclude P := by
  simp only [decodeRs, locate, conclude, bind_assoc, Prog.ite_bind, pure_bind]

/-- What comes before the search, after the iteration. -/
def locateOf (P : CodeParams) : Option ℕ → Code P (Except ℤ ℕ)
  | some u => do
    if (← load .l [(u : ℤ)]) ≤ P.tt then
      locatorToIndex P u
      pure (.ok u)
    else pure (.error 3)
  | none => pure (.error 0)

theorem locate_tabled : locate P = tabled P >>= locateOf P := by
  simp only [locate, tabled, locateOf, bind_assoc, Prog.ite_bind, pure_bind]

/-- What `locate` leaves. -/
inductive Located (m₀ : Machine P.dims) : Except ℤ ℕ → Machine P.dims → Prop
  | gaveUp {code : ℤ} {m : Machine P.dims} : code ≠ 1 → Located m₀ (.error code) m
  | found {u L : ℕ} {σ : P.GF[X]} {m : Machine P.dims} : HasLocator u σ L m → σ.coeff 0 = 1 → σ.natDegree ≤ L →
      L ≤ P.tt → Frame [.recd, .s, .elp, .d, .l, .uLu] (m₀.undefine decodeLocals) m → Located m₀ (.ok u) m

theorem wp_locate {m : Machine P.dims} (hT : HasTables m) {x : ℕ → P.GF} (hx : HoldsWord m .recd P.nn x) :
    wp (locate P) (Located m) m := by
  have htt := P.one_le_tt
  rw [locate_tabled]
  apply wp_seq (wp_tabled hT hx)
  rintro res m' (⟨-, -⟩ | ⟨-, h₃, hend, -⟩)
  · exact .gaveUp (by decide)
  · rcases hend with ⟨⟨rows, h, hule, hexit⟩, -⟩ | ⟨rfl, hover⟩
    · rw [locateOf, wp_bind, wp_load (h.l _ le_rfl), wp_ite]
      split_ifs with hlen
      · obtain rfl : _ = 2 * P.tt + 1 := hexit.resolve_right (by omega)
        have hgen := h.table.generates (2 * P.tt + 1) h.table.one_le le_rfl
        have hL : (rows (2 * P.tt + 1)).len ≤ P.tt := by omega
        refine wp_seq (wp_locatorToIndex h₃.tables h le_rfl hL) fun _ m₁ ⟨hf, hloc⟩ => ?_
        exact .found hloc hgen.coeff_zero hgen.natDegree_le hL
          (((h₃.frame.mono (by simp)).trans (h.frame.mono (by simp))).trans (hf.mono (by simp)))
      · exact .gaveUp (by decide)
    · rw [locateOf, wp_bind, wp_load hover.l, wp_ite, if_neg (by omega)]
      exact .gaveUp (by decide)

/-! ### The search -/

/-- The element with the index form `v`. -/
noncomputable def ofIndex (P : CodeParams) (v : ℤ) : P.GF := if v = -1 then 0 else P.alpha ^ v.toNat

theorem ofIndex_index (x : P.GF) : ofIndex P (P.index x) = x := by
  by_cases hx : x = 0
  · rw [hx, P.index_zero, ofIndex, if_pos rfl]
  · rw [ofIndex, if_neg (by simpa using hx), P.index_of_ne_zero hx, Int.toNat_natCast, P.alpha_pow_log hx]

/-- The polynomial `1 + elp[u][1]*x + ... + elp[u][l[u]]*x^l[u]`, row `u` being in index form. -/
noncomputable def errorLocator (m : Machine P.dims) (u : ℕ) : P.GF[X] :=
  1 + ∑ j ∈ range (m.val .l (line u)).toNat, C (ofIndex P (m.val .elp (row u (j + 1)))) * X ^ (j + 1)

theorem HasLocator.errorLocator_eq {m : Machine P.dims} {u L : ℕ} {σ : P.GF[X]} (h : HasLocator u σ L m)
    (hσ : σ.coeff 0 = 1) (hdeg : σ.natDegree ≤ L) : errorLocator m u = σ := by
  have hcoeff : ∀ j ∈ range L, C (ofIndex P (m.val .elp (row u (j + 1)))) * X ^ (j + 1) =
      C (σ.coeff (j + 1)) * X ^ (j + 1) := by
    intro j hj
    rw [Machine.val_of_cell (h.elp (j + 1) (mem_range.mp hj)), ofIndex_index]
  rw [errorLocator, Machine.val_of_cell h.len, Int.toNat_natCast, sum_congr rfl hcoeff]
  conv_rhs => rw [σ.as_sum_range_C_mul_X_pow' (Nat.lt_succ_of_le hdeg), sum_range_succ', hσ, C_1, pow_zero, mul_one]
  rw [add_comm]

/-- After pass `n` of the search for the roots of `σ`, begun in `s`. -/
structure Searched (σ : P.GF[X]) (L : ℤ) (s : Machine P.dims) (n count : ℕ) (t : Machine P.dims) : Prop where
  /-- What is stored in `root`. -/
  root_iff : ∀ v : ℤ, (∃ idx, t.cell .root idx = some v) ↔
    ∃ i : ℕ, v = i ∧ 1 ≤ i ∧ i ≤ n ∧ σ.eval (P.alpha ^ i) = 0
  increasing : ∀ c d, c < d → d < count → t.val .root (line c) < t.val .root (line d)
  loc : ∀ c < count, t.val .loc (line c) = P.nn - t.val .root (line c)
  loc_range : ∀ c < count, 0 ≤ t.val .loc (line c) ∧ t.val .loc (line c) < P.nn
  loc_injective : ∀ c < count, ∀ d < count, t.val .loc (line c) = t.val .loc (line d) → c = d
  /-- Where something is stored. -/
  stored_iff : ∀ idx, (t.cell .root idx ≠ none ↔ ∃ c < count, idx = line c) ∧
    (t.cell .loc idx ≠ none ↔ ∃ c < count, idx = line c)
  count_le : (count : ℤ) ≤ L
  /-- No access was outside the bounds. -/
  faults : t.faults = s.faults

theorem stored_iff {a : Arr} {t : Machine P.dims} {count : ℕ} {f : ℕ → ℤ} (hin : ∀ c < count, t.cell a (line c) = some (f c))
    (hout : ∀ idx, (∀ c < count, idx ≠ line c) → t.cell a idx = none) (idx : List ℤ) :
    t.cell a idx ≠ none ↔ ∃ c < count, idx = line c := by
  constructor
  · intro hne
    by_contra hnot
    push Not at hnot
    exact hne (hout idx hnot)
  · rintro ⟨c, hc, rfl⟩
    rw [hin c hc]
    exact Option.some_ne_none _

theorem HasRoots.root_iff {σ : P.GF[X]} {n count : ℕ} {rt : ℕ → ℕ} {t : Machine P.dims} (hrt : HasRoots count rt t)
    (hlist : RootList σ (n + 1) count rt) (hout : ∀ idx, (∀ c < count, idx ≠ line c) → t.cell .root idx = none) (v : ℤ) :
    (∃ idx, t.cell .root idx = some v) ↔ ∃ i : ℕ, v = i ∧ 1 ≤ i ∧ i ≤ n ∧ σ.eval (P.alpha ^ i) = 0 := by
  constructor
  · rintro ⟨idx, hidx⟩
    have hstored : t.cell .root idx ≠ none := by
      rw [hidx]
      exact Option.some_ne_none v
    obtain ⟨c, hc, rfl⟩ := (stored_iff hrt.root hout idx).mp hstored
    have hb := hlist.bounds c hc
    rw [hrt.root c hc] at hidx
    exact ⟨rt c, (Option.some.inj hidx).symm, hb.1, by omega, hlist.zero c hc⟩
  · rintro ⟨i, rfl, hi, hin, hz⟩
    obtain ⟨c, hc, rfl⟩ := hlist.complete i hi (by omega) hz
    exact ⟨line c, hrt.root c hc⟩

theorem Searching.searched {σ : P.GF[X]} {L n count : ℕ} {s t : Machine P.dims} (h : Searching σ L s (n + 1) count t)
    (hcount : count ≤ L) (hn : n ≤ P.nn) (hroot : s.cell .root = fun _ => none) (hloc : s.cell .loc = fun _ => none) :
    Searched σ L s n count t := by
  obtain ⟨hf, -, ⟨rt, hlist, hrt⟩, hrest⟩ := h
  have hlt : ∀ c d, c < d → d < count → t.val .root (line c) < t.val .root (line d) := by
    intro c d hcd hd
    rw [hrt.val_root (hcd.trans hd), hrt.val_root hd]
    exact_mod_cast hlist.lt c d hcd hd
  have houtRoot : ∀ idx, (∀ c < count, idx ≠ line c) → t.cell .root idx = none := fun idx hidx => by
    rw [(hrest idx hidx).1, hroot]
  have houtLoc : ∀ idx, (∀ c < count, idx ≠ line c) → t.cell .loc idx = none := fun idx hidx => by
    rw [(hrest idx hidx).2, hloc]
  constructor
  · exact hrt.root_iff hlist houtRoot
  · exact hlt
  · exact fun c hc => hrt.val_loc hlist (by omega) hc
  · exact fun c hc => hrt.loc_bounds hlist (by omega) hc
  · intro c hc d hd heq
    rw [hrt.val_loc hlist (by omega) hc, hrt.val_loc hlist (by omega) hd] at heq
    rcases lt_trichotomy c d with hcd | rfl | hdc
    · have := hlt c d hcd hd
      omega
    · rfl
    · have := hlt d c hdc hc
      omega
  · exact fun idx => ⟨stored_iff hrt.root houtRoot idx, stored_iff hrt.loc houtLoc idx⟩
  · exact_mod_cast hcount
  · exact hf.faults

theorem arrived_spec (m : Machine P.dims) {r : ℕ → ℤ} (hr : Symbols P P.nn r) :
    HasTables (arrived P m r) ∧ HoldsWord (arrived P m r) .recd P.nn (elements P r) ∧
      Frame [.alphaTo, .indexOf, .recd] m (arrived P m r) := by
  obtain ⟨hT, hf⟩ := wp_iff_run.mp (wp_generateGf m)
  obtain ⟨hf', hx⟩ := wp_iff_run.mp (wp_receive_recd (m := (generateGf P).exec m) hr)
  exact ⟨hT.of_frame hf' (by simp) (by simp), hx, (hf.mono (by simp)).trans (hf'.mono (by simp))⟩

/-- **The root search.** It is the part of `decode_rs` that runs from `s` on. -/
theorem rootSearch_exact (P : CodeParams) (m : Machine P.dims) (r : ℕ → ℤ) (hr : Symbols P P.nn r) (u : ℕ)
    (hu : (locate P).eval (arrived P m r) = .ok u) :
    let s := (locate P).exec (arrived P m r)
    ((decodeRs P).eval (arrived P m r) = (conclude P (.ok u)).eval s ∧
      (decodeRs P).exec (arrived P m r) = (conclude P (.ok u)).exec s ∧ rootSearch P u = searchTo P u P.nn) ∧
      s.val .l (line u) ≤ P.tt ∧ ∀ n ≤ P.nn, Searched (errorLocator s u) (s.val .l (line u)) s n
        ((searchTo P u n).eval s) ((searchTo P u n).exec s) := by
  intro s
  have hlink : (decodeRs P).eval (arrived P m r) = (conclude P (.ok u)).eval s ∧
      (decodeRs P).exec (arrived P m r) = (conclude P (.ok u)).exec s := by
    rw [decodeRs_locate, eval_bind, exec_bind, hu]
    exact ⟨rfl, rfl⟩
  obtain ⟨hT, hx, -⟩ := arrived_spec m hr
  have hlocated := wp_iff_run.mp (wp_locate hT hx)
  rw [hu] at hlocated
  cases hlocated with
  | found h hσ hdeg hL hf =>
    have hroot : s.cell .root = fun _ => none := by
      rw [hf.cell _ (by simp)]
      rfl
    have hloc : s.cell .loc = fun _ => none := by
      rw [hf.cell _ (by simp)]
      rfl
    rw [h.errorLocator_eq hσ hdeg, Machine.val_of_cell h.len]
    refine ⟨⟨hlink.1, hlink.2, (searchTo_nn u).symm⟩, by exact_mod_cast hL, fun n hn => ?_⟩
    obtain ⟨hcount, hsearching⟩ := wp_iff_run.mp (wp_searchTo h hσ hdeg hL hn)
    exact hsearching.searched hcount hn hroot hloc

theorem returns_one {m : Machine P.dims} (hT : HasTables m) {x v : ℕ → P.GF} (hx : HoldsWord m .recd P.nn x)
    (hv : IsCodeword P v) (hcard : (differing P x v).card ≤ P.tt) (hne : differing P x v ≠ ∅) :
    (decodeRs P).eval m = 1 := by
  obtain ⟨y, hy⟩ := wp_iff_run.mp (wp_decodeRs hT hx)
  exact (hy.outcome.code_eq hv hcard).trans (if_neg hne)

theorem located_of_returns_one {m : Machine P.dims} (hT : HasTables m) {x : ℕ → P.GF} (hx : HoldsWord m .recd P.nn x)
    (hone : (decodeRs P).eval m = 1) : ∃ u, (locate P).eval m = .ok u := by
  have hlocated := wp_iff_run.mp (wp_locate hT hx)
  cases hres : (locate P).eval m with
  | ok u => exact ⟨u, rfl⟩
  | error code =>
    rw [decodeRs_locate, eval_bind, hres, conclude, eval_bind, eval_pure] at hone
    rw [hres] at hlocated
    cases hlocated with
    | gaveUp hcode => exact absurd hone hcode

/-- The word of zeros but for two ones. -/
def twoOnes (k : ℕ) : ℤ := if k = 7 ∨ k = 200 then 1 else 0

theorem symbols_twoOnes : Symbols rs255 255 twoOnes := by
  intro k _
  rw [twoOnes]
  split_ifs
  · exact ⟨by decide, by decide⟩
  · exact ⟨le_rfl, by decide⟩

theorem differing_twoOnes {y : ℕ → rs255.GF} (hy : ∀ k < 255, y k = 0) :
    differing rs255 (elements rs255 twoOnes) y = {7, 200} := by
  have helement : ∀ k < 255, elements rs255 twoOnes k = 0 ↔ twoOnes k = 0 := fun k hk => by
    rw [← rs255.poly_eq_zero, poly_elements symbols_twoOnes hk]
  ext k
  rw [mem_differing, mem_insert, mem_singleton]
  constructor
  · rintro ⟨hk, hne⟩
    rw [hy k hk, Ne, helement k hk, twoOnes] at hne
    by_contra hnot
    exact hne (if_neg hnot)
  · intro hk
    have hlt : k < 255 := by omega
    refine ⟨hlt, ?_⟩
    rw [hy k hlt, Ne, helement k hlt, twoOnes, if_pos hk]
    exact one_ne_zero

theorem returns_one_twoOnes : (decodeRs rs255).eval (arrived rs255 (Machine.fresh _) twoOnes) = 1 := by
  obtain ⟨hT, hx, -⟩ := arrived_spec (Machine.fresh rs255.dims) symbols_twoOnes
  have hdiff := differing_twoOnes (y := fun _ => 0) fun _ _ => rfl
  refine returns_one hT hx isCodeword_zero ?_ ?_
  · rw [hdiff]
    decide
  · rw [hdiff]
    exact insert_ne_empty 7 {200}

theorem rootSearch_twoOnes : ∃ u, (locate rs255).eval (arrived rs255 (Machine.fresh _) twoOnes) = .ok u ∧
    let s := (locate rs255).exec (arrived rs255 (Machine.fresh _) twoOnes)
    s.val .l (line u) ≤ 8 ∧ ∀ n ≤ 255, Searched (errorLocator s u) (s.val .l (line u)) s n
      ((searchTo rs255 u n).eval s) ((searchTo rs255 u n).exec s) := by
  obtain ⟨hT, hx, -⟩ := arrived_spec (Machine.fresh rs255.dims) symbols_twoOnes
  obtain ⟨u, hu⟩ := located_of_returns_one hT hx returns_one_twoOnes
  exact ⟨u, hu, (rootSearch_exact rs255 (Machine.fresh _) twoOnes symbols_twoOnes u hu).2⟩

end ReedSolomon
