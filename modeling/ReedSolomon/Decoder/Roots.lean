import ReedSolomon.Decoder.Iteration

/-!
# The root search

The locator is put into index form and evaluated at `@**1, …, @**nn`, the registers `reg[j]` running
through the exponents of its terms. `rootSearch` stores the exponent of every root once, in increasing
order, and `nn` minus it as the location (`wp_rootSearch`); there are never more than the degree of the
locator allows.
-/

open Imp Finset Polynomial Recurrence

namespace ReedSolomon

variable {P : CodeParams}

/-- The locator `σ` of length `L` in row `u`, in index form. -/
structure HasLocator (u : ℕ) (σ : P.GF[X]) (L : ℕ) (m : Machine P.dims) : Prop where
  tables : HasTables m
  elp : ∀ i ≤ L, m.cell .elp (row u i) = some (P.index (σ.coeff i))
  len : m.cell .l (line u) = some (L : ℤ)

theorem HasLocator.of_frame {m m' : Machine P.dims} {u L : ℕ} {σ : P.GF[X]} {W : List Arr}
    (h : HasLocator u σ L m) (hf : Frame W m m') (ha : .alphaTo ∉ W) (hi : .indexOf ∉ W) (he : .elp ∉ W)
    (hl : .l ∉ W) : HasLocator u σ L m' := by
  refine ⟨h.tables.of_frame hf ha hi, fun i hi => ?_, ?_⟩
  · rw [hf.cell _ he, h.elp i hi]
  · rw [hf.cell _ hl, h.len]

theorem wp_locatorToIndex {m₀ m : Machine P.dims} {s : ℕ → P.GF} {rows : ℕ → Row P.GF} {u : ℕ}
    (hT : HasTables m₀) (h : HasTable m₀ s rows u m) (hu : u ≤ 2 * P.tt + 1) (hlen : (rows u).len ≤ P.tt) :
    wp (locatorToIndex P u) (fun _ m' => Frame [.elp] m m' ∧ HasLocator u (rows u).poly (rows u).len m') m := by
  have htt := P.one_le_tt
  rw [locatorToIndex, wp_bind, wp_load (h.l u le_rfl), toNat_add_one]
  refine wp_mono (wp_forEach_wrote .elp (row u) (fun i => P.index ((rows u).poly.coeff i))
    (Nat.zero_le _) fun i t _ hi ht => ?_) fun _ m' h' => ⟨h'.frame, ?_, fun i hi => h'.new i (by simp; omega), ?_⟩
  · have hold := (ht.cell_of_notMem (row_injective u) (k := i) (by simp)).trans (h.last i (by omega))
    have hTt := (h.hasTables hT).of_frame ht.frame (by simp) (by simp)
    have hb : InBounds (P.dims .elp) (row u i) := inBounds_elp hu (by omega)
    simp only [wp_bind]
    rw [wp_load hold, wp_load (hTt.indexOf _), wp_store hb]
    exact ht.put (row_injective u) i hb
  · exact (h.hasTables hT).of_frame h'.frame (by simp) (by simp)
  · rw [h'.cell_of_ne (by decide), h.l u le_rfl]

/-! ### One value of the locator -/

section Search

variable {u L : ℕ} {σ : P.GF[X]} {m : Machine P.dims}

theorem inBounds_reg {j : ℕ} (hj : j ≤ P.tt) : InBounds (P.dims .reg) (line j) := by
  simp only [CodeParams.dims, inBounds_cons, inBounds_nil, and_true]
  omega

theorem inBounds_root {c : ℕ} (hc : c < P.tt) : InBounds (P.dims .root) (line c) := by
  simp only [CodeParams.dims, inBounds_cons, inBounds_nil, and_true]
  omega

/-- The registers hold the terms of the locator at `x`. -/
def HasReg (σ : P.GF[X]) (L : ℕ) (x : P.GF) (m : Machine P.dims) : Prop :=
  ∀ j, 1 ≤ j → j ≤ L → m.cell .reg (line j) = some (P.index (σ.coeff j * x ^ j))

/-- The first `j` terms of the value at `x`. -/
noncomputable def partialEval (σ : P.GF[X]) (x : P.GF) (j : ℕ) : P.GF := ∑ k ∈ range j, σ.coeff k * x ^ k

theorem partialEval_eq (hdeg : σ.natDegree ≤ L) (x : P.GF) : partialEval σ x (L + 1) = σ.eval x :=
  (eval_eq_sum_range' (Nat.lt_succ_of_le hdeg) x).symm

theorem wp_locatorAt (h : HasLocator u σ L m) (hσ : σ.coeff 0 = 1) (hdeg : σ.natDegree ≤ L) (hL : L ≤ P.tt)
    {x : P.GF} (hreg : HasReg σ L x m) :
    wp (locatorAt P u) (fun q m' => q = P.poly (σ.eval (x * P.alpha)) ∧ Frame [.reg] m m' ∧
      HasReg σ L (x * P.alpha) m') m := by
  rw [locatorAt, wp_bind, wp_load h.len, toNat_add_one]
  refine wp_mono (wp_forUp (fun j q t => q = P.poly (partialEval σ (x * P.alpha) j) ∧
    Wrote m .reg line (fun j => P.index (σ.coeff j * (x * P.alpha) ^ j)) (Set.Ico 1 j) t)
    (show 1 ≤ L + 1 by omega) ⟨?_, ?_⟩ fun j q t hj hjL ⟨hq, ht⟩ => ?_)
    fun q m' ⟨hq, h'⟩ => ⟨by rw [hq, partialEval_eq hdeg], h'.frame, fun j hj hjL => h'.new j (by simp; omega)⟩
  · rw [partialEval, sum_range_one, hσ, pow_zero, mul_one, P.poly_one]
  · rw [Set.Ico_self]
    exact Wrote.refl m
  · have hold := (ht.cell_of_notMem line_injective (k := j) (by simp)).trans (hreg j hj (by omega))
    have hTt := h.tables.of_frame ht.frame (by simp) (by simp)
    have hsum : partialEval σ (x * P.alpha) (j + 1) =
        partialEval σ (x * P.alpha) j + σ.coeff j * (x * P.alpha) ^ j := sum_range_succ _ _
    have hterm : σ.coeff j * (x * P.alpha) ^ j = σ.coeff j * x ^ j * P.alpha ^ j := by ring
    rw [← Set.insert_Ico_right_eq_Ico_add_one hj, regTerm, wp_bind, wp_load hold, wp_ite]
    by_cases hz : σ.coeff j * x ^ j = 0
    · rw [if_neg (by rw [hz, P.index_zero]; simp), wp_pure, hsum, hterm, hz, zero_mul, add_zero]
      refine ⟨hq, ht.skip line_injective (by simp) ?_⟩
      rw [hreg j hj (by omega), hterm, hz, zero_mul]
    · have hb : InBounds (P.dims .reg) (line j) := inBounds_reg (by omega)
      have hlog := P.log_lt (σ.coeff j * x ^ j)
      have hne : σ.coeff j * (x * P.alpha) ^ j ≠ 0 := by
        rw [hterm]
        exact mul_ne_zero hz (P.alpha_pow_ne_zero j)
      rw [if_pos (by simpa using hz)]
      simp only [wp_bind]
      rw [wp_load hold, wp_logarithm hz, wp_rem (by rw [P.index_of_ne_zero hz]; omega), P.index_add_mod hz, ← hterm,
        wp_store hb, wp_load (Machine.cell_put_self _ _ _ _ _)]
      have hput := ht.put line_injective j hb
      rw [wp_load ((h.tables.of_frame hput.frame (by simp) (by simp)).alphaTo_index hne), wp_pure, hq, P.xor_poly,
        ← hsum]
      exact ⟨rfl, hput⟩

/-! ### The search -/

/-- `rt` lists the exponents of the roots below `i` in increasing order. -/
structure RootList (σ : P.GF[X]) (i count : ℕ) (rt : ℕ → ℕ) : Prop where
  bounds : ∀ c < count, 1 ≤ rt c ∧ rt c < i
  lt : ∀ c d, c < d → d < count → rt c < rt d
  zero : ∀ c < count, σ.eval (P.alpha ^ rt c) = 0
  complete : ∀ k, 1 ≤ k → k < i → σ.eval (P.alpha ^ k) = 0 → ∃ c < count, rt c = k

namespace RootList

variable {i count : ℕ} {rt : ℕ → ℕ}

theorem start (σ : P.GF[X]) (rt : ℕ → ℕ) : RootList σ 1 0 rt :=
  ⟨fun c hc => absurd hc (Nat.not_lt_zero c), fun c d _ hd => absurd hd (Nat.not_lt_zero d),
    fun c hc => absurd hc (Nat.not_lt_zero c), fun k hk hk1 => by omega⟩

theorem pass (h : RootList σ i count rt) (hi : σ.eval (P.alpha ^ i) ≠ 0) : RootList σ (i + 1) count rt := by
  refine ⟨fun c hc => ?_, h.lt, h.zero, fun k hk hki hz => ?_⟩
  · have := h.bounds c hc
    omega
  · rcases Nat.lt_succ_iff_lt_or_eq.mp hki with hlt | rfl
    · exact h.complete k hk hlt hz
    · exact absurd hz hi

theorem push (h : RootList σ i count rt) (hi : 1 ≤ i) (hz : σ.eval (P.alpha ^ i) = 0) :
    RootList σ (i + 1) (count + 1) (Function.update rt count i) := by
  have hold : ∀ c < count, Function.update rt count i c = rt c := fun c hc => Function.update_of_ne (by omega) _ _
  have hnew : Function.update rt count i count = i := Function.update_self _ _ _
  refine ⟨fun c hc => ?_, fun c d hcd hd => ?_, fun c hc => ?_, fun k hk hki hzk => ?_⟩
  · rcases Nat.lt_succ_iff_lt_or_eq.mp hc with hlt | rfl
    · rw [hold c hlt]
      have := h.bounds c hlt
      omega
    · rw [hnew]
      omega
  · rw [hold c (by omega)]
    rcases Nat.lt_succ_iff_lt_or_eq.mp hd with hlt | rfl
    · rw [hold d hlt]
      exact h.lt c d hcd hlt
    · rw [hnew]
      exact (h.bounds c hcd).2
  · rcases Nat.lt_succ_iff_lt_or_eq.mp hc with hlt | rfl
    · rw [hold c hlt]
      exact h.zero c hlt
    · rwa [hnew]
  · rcases Nat.lt_succ_iff_lt_or_eq.mp hki with hlt | rfl
    · obtain ⟨c, hc, hck⟩ := h.complete k hk hlt hzk
      exact ⟨c, by omega, by rw [hold c hc, hck]⟩
    · exact ⟨count, by omega, hnew⟩

theorem injOn (h : RootList σ i count rt) : Set.InjOn rt (range count) := by
  intro c hc d hd heq
  have hc' := mem_range.mp hc
  have hd' := mem_range.mp hd
  rcases lt_trichotomy c d with hcd | rfl | hdc
  · have := h.lt c d hcd hd'
    omega
  · rfl
  · have := h.lt d c hdc hc'
    omega

theorem alpha_pow_eq {j k : ℕ} (hj : 1 ≤ j ∧ j ≤ P.nn) (hk : 1 ≤ k ∧ k ≤ P.nn)
    (h : P.alpha ^ j = P.alpha ^ k) : j = k := by
  have hinv : P.alpha ^ (P.nn - j) = P.alpha ^ (P.nn - k) := by rw [P.alpha_pow_sub hj.2, P.alpha_pow_sub hk.2, h]
  have := P.alpha_pow_injOn (by omega) (by omega) hinv
  omega

theorem card_le (h : RootList σ i count rt) (hi : i ≤ P.nn + 1) (hσ : σ.coeff 0 = 1) (hdeg : σ.natDegree ≤ L) :
    count ≤ L := by
  have hne : σ ≠ 0 := by
    rintro rfl
    simp at hσ
  have hrange : ∀ c < count, 1 ≤ rt c ∧ rt c ≤ P.nn := fun c hc => by
    have := h.bounds c hc
    omega
  have hinj : Set.InjOn (fun c => P.alpha ^ rt c) (range count) := fun c hc d hd heq =>
    h.injOn hc hd (alpha_pow_eq (hrange c (mem_range.mp hc)) (hrange d (mem_range.mp hd)) heq)
  have hsub : (range count).image (fun c => P.alpha ^ rt c) ⊆ σ.roots.toFinset := fun x hx => by
    obtain ⟨c, hc, rfl⟩ := mem_image.mp hx
    rw [Multiset.mem_toFinset, mem_roots hne]
    exact h.zero c (mem_range.mp hc)
  calc count = ((range count).image fun c => P.alpha ^ rt c).card := by rw [card_image_of_injOn hinj, card_range]
    _ ≤ σ.roots.toFinset.card := card_le_card hsub
    _ ≤ Multiset.card σ.roots := Multiset.toFinset_card_le _
    _ ≤ σ.natDegree := card_roots' σ
    _ ≤ L := hdeg

end RootList

/-- `root` and `loc` hold the first `count` entries of the list and their locations. -/
structure HasRoots (count : ℕ) (rt : ℕ → ℕ) (m : Machine P.dims) : Prop where
  root : ∀ c < count, m.cell .root (line c) = some (rt c : ℤ)
  loc : ∀ c < count, m.cell .loc (line c) = some ((P.nn - rt c : ℕ) : ℤ)

theorem HasRoots.of_frame {m' : Machine P.dims} {count : ℕ} {rt : ℕ → ℕ} {W : List Arr} (h : HasRoots count rt m)
    (hf : Frame W m m') (hr : .root ∉ W) (hl : .loc ∉ W) : HasRoots count rt m' :=
  ⟨fun c hc => by rw [hf.cell _ hr, h.root c hc], fun c hc => by rw [hf.cell _ hl, h.loc c hc]⟩

section Values

variable {count i c : ℕ} {rt : ℕ → ℕ} (hrt : HasRoots count rt m) (hlist : RootList σ i count rt) (hi : i ≤ P.nn + 1)
  (hc : c < count)

include hrt hc in
theorem HasRoots.val_root : m.val .root (line c) = rt c := Machine.val_of_cell (hrt.root c hc)

include hrt hlist hi hc

theorem HasRoots.val_loc : m.val .loc (line c) = P.nn - m.val .root (line c) := by
  have hb := hlist.bounds c hc
  rw [Machine.val_of_cell (hrt.loc c hc), hrt.val_root hc]
  omega

theorem HasRoots.root_bounds : 1 ≤ m.val .root (line c) ∧ m.val .root (line c) ≤ P.nn := by
  have hb := hlist.bounds c hc
  rw [hrt.val_root hc]
  omega

theorem HasRoots.loc_bounds : 0 ≤ m.val .loc (line c) ∧ m.val .loc (line c) < P.nn := by
  have hb := hrt.root_bounds hlist hi hc
  rw [hrt.val_loc hlist hi hc]
  omega

end Values

theorem HasRoots.push {count i : ℕ} {rt : ℕ → ℕ} (h : HasRoots count rt m) (hi : i ≤ P.nn)
    (hr : InBounds (P.dims .root) (line count)) (hl : InBounds (P.dims .loc) (line count)) :
    HasRoots (count + 1) (Function.update rt count i)
      ((m.put .root (line count) (i : ℤ) hr).put .loc (line count) ((P.nn : ℤ) - i) hl) := by
  refine ⟨fun c hc => ?_, fun c hc => ?_⟩
  · rw [Machine.cell_put_of_ne _ _ _ _ (by decide)]
    rcases Nat.lt_succ_iff_lt_or_eq.mp hc with hlt | rfl
    · rw [Machine.cell_put_of_idx _ _ _ (by simp; omega), Function.update_of_ne (by omega), h.root c hlt]
    · rw [Machine.cell_put_self, Function.update_self]
  · rcases Nat.lt_succ_iff_lt_or_eq.mp hc with hlt | rfl
    · rw [Machine.cell_put_of_idx _ _ _ (by simp; omega), Machine.cell_put_of_ne _ _ _ _ (by decide),
        Function.update_of_ne (by omega), h.loc c hlt]
    · rw [Machine.cell_put_self, Function.update_self, Nat.cast_sub hi]

/-- Behind the first `count` entries, `root` and `loc` are what they were. -/
def Untouched (count : ℕ) (m m' : Machine P.dims) : Prop :=
  ∀ idx, (∀ c < count, idx ≠ line c) → m'.cell .root idx = m.cell .root idx ∧ m'.cell .loc idx = m.cell .loc idx

theorem Untouched.of_frame {m' m'' : Machine P.dims} {count : ℕ} {W : List Arr} (h : Untouched count m m')
    (hf : Frame W m' m'') (hr : .root ∉ W) (hl : .loc ∉ W) : Untouched count m m'' := by
  intro idx hidx
  rw [hf.cell _ hr, hf.cell _ hl]
  exact h idx hidx

theorem Untouched.push {m' : Machine P.dims} {count : ℕ} (h : Untouched count m m') (v w : ℤ)
    (hr : InBounds (P.dims .root) (line count)) (hl : InBounds (P.dims .loc) (line count)) :
    Untouched (count + 1) m ((m'.put .root (line count) v hr).put .loc (line count) w hl) := by
  intro idx hidx
  have hne := hidx count (Nat.lt_succ_self count)
  obtain ⟨hroot, hloc⟩ := h idx fun c hc => hidx c (by omega)
  constructor
  · rw [Machine.cell_put_of_ne _ _ _ _ (by decide), Machine.cell_put_of_idx _ _ _ hne, hroot]
  · rw [Machine.cell_put_of_idx _ _ _ hne, Machine.cell_put_of_ne _ _ _ _ (by decide), hloc]

/-- One pass of the search: exponent `i` is stored if it is that of a root. -/
def searchPass (P : CodeParams) (u i count : ℕ) : Code P ℕ := do
  let q ← locatorAt P u
  if q = 0 then
    store .root [(count : ℤ)] i
    store .loc [(count : ℤ)] (P.nn - i)
    pure (count + 1)
  else pure count

/-- The root search up to and with exponent `n`. -/
def searchTo (P : CodeParams) (u n : ℕ) : Code P ℕ := do
  forEach 1 ((← load .l [(u : ℤ)]) + 1).toNat fun i => do
    store .reg [(i : ℤ)] (← load .elp [(u : ℤ), (i : ℤ)])
  forUp 1 (n + 1) 0 (searchPass P u)

theorem searchTo_nn (u : ℕ) : searchTo P u P.nn = rootSearch P u := rfl

/-- Before the pass for exponent `i`. -/
structure Searching (σ : P.GF[X]) (L : ℕ) (m : Machine P.dims) (i count : ℕ) (t : Machine P.dims) : Prop where
  frame : Frame [.reg, .root, .loc] m t
  reg : HasReg σ L (P.alpha ^ (i - 1)) t
  found : ∃ rt, RootList σ i count rt ∧ HasRoots count rt t
  rest : Untouched count m t

section Run

variable (h : HasLocator u σ L m) (hσ : σ.coeff 0 = 1) (hdeg : σ.natDegree ≤ L) (hL : L ≤ P.tt)

include h hσ hdeg hL

theorem wp_searchPass {i count : ℕ} (hi : 1 ≤ i) (hin : i ≤ P.nn) {t : Machine P.dims}
    (ht : Searching σ L m i count t) : wp (searchPass P u i count) (Searching σ L m (i + 1)) t := by
  obtain ⟨hf, hreg, ⟨rt, hlist, hrt⟩, hrest⟩ := ht
  have hloc := h.of_frame hf (by simp) (by simp) (by simp) (by simp)
  refine wp_seq (wp_locatorAt hloc hσ hdeg hL hreg) fun q t₁ ⟨hq, hf₁, hreg₁⟩ => ?_
  have hpow : P.alpha ^ (i - 1) * P.alpha = P.alpha ^ i := by rw [← pow_succ, Nat.sub_add_cancel hi]
  rw [hpow] at hq hreg₁
  have hrt₁ := hrt.of_frame hf₁ (by simp) (by simp)
  have hrest₁ := hrest.of_frame hf₁ (by simp) (by simp)
  have hframe := hf.trans (hf₁.mono (V := [.reg, .root, .loc]) (by simp))
  rw [wp_ite]
  by_cases hz : σ.eval (P.alpha ^ i) = 0
  · -- with one more root there still are no more than the degree allows, so there is room
    have hnext := hlist.push hi hz
    have hroom := hnext.card_le (by omega) hσ hdeg
    have hb : InBounds (P.dims .root) (line count) := inBounds_root (by omega)
    have hb' : InBounds (P.dims .loc) (line count) := inBounds_root (by omega)
    rw [if_pos (by rw [hq, hz, P.poly_zero])]
    simp only [wp_bind]
    rw [wp_store hb, wp_store hb', wp_pure]
    have hf₂ : Frame [.root, .loc] t₁ ((t₁.put .root (line count) (i : ℤ) hb).put .loc (line count)
        ((P.nn : ℤ) - i) hb') := ((Frame.refl _ t₁).put (by simp) _ _ _).put (by simp) _ _ _
    refine ⟨hframe.trans (hf₂.mono (by simp)), fun j hj hjL => ?_, ⟨_, hnext, hrt₁.push hin hb hb'⟩,
      hrest₁.push _ _ hb hb'⟩
    rw [hf₂.cell _ (by simp), hreg₁ j hj hjL, Nat.add_sub_cancel]
  · rw [if_neg (by rw [hq]; simpa using hz), wp_pure]
    exact ⟨hframe, hreg₁, ⟨rt, hlist.pass hz, hrt₁⟩, hrest₁⟩

theorem wp_searchTo {n : ℕ} (hn : n ≤ P.nn) : wp (searchTo P u n) (fun count t =>
    count ≤ L ∧ Searching σ L m (n + 1) count t) m := by
  rw [searchTo, wp_bind, wp_load h.len, toNat_add_one]
  refine wp_seq (wp_forEach_wrote .reg line (fun j => P.index (σ.coeff j))
    (show 1 ≤ L + 1 by omega) fun j t hj hjL ht => ?_) fun _ m₁ h₁ => ?_
  · have hold : t.cell .elp (row u j) = some (P.index (σ.coeff j)) := by
      rw [ht.cell_of_ne (by decide), h.elp j (by omega)]
    have hb : InBounds (P.dims .reg) (line j) := inBounds_reg (by omega)
    rw [wp_bind, wp_load hold, wp_store hb]
    exact ht.put line_injective j hb
  · have hstart : Searching σ L m 1 0 m₁ := by
      refine ⟨h₁.frame.mono (by simp), fun j hj hjL => ?_, ⟨id, RootList.start σ id, ?_⟩, fun idx _ => ?_⟩
      · rw [h₁.new j (by simp; omega), pow_zero, one_pow, mul_one]
      · exact ⟨fun c hc => absurd hc (Nat.not_lt_zero c), fun c hc => absurd hc (Nat.not_lt_zero c)⟩
      · rw [h₁.cell_of_ne (by decide), h₁.cell_of_ne (by decide)]
        exact ⟨rfl, rfl⟩
    refine wp_mono (wp_forUp (Searching σ L m) (show 1 ≤ n + 1 by omega) hstart fun i count t hi hin ht =>
      wp_searchPass h hσ hdeg hL hi (by omega) ht) fun count t ht => ⟨?_, ht⟩
    obtain ⟨rt, hlist, -⟩ := ht.found
    exact hlist.card_le (by omega) hσ hdeg

theorem wp_rootSearch :
    wp (rootSearch P u) (fun count m' => Frame [.reg, .root, .loc] m m' ∧ count ≤ L ∧
      ∃ rt, RootList σ (P.nn + 1) count rt ∧ HasRoots count rt m') m := by
  rw [← searchTo_nn]
  exact wp_mono (wp_searchTo h hσ hdeg hL le_rfl) fun count t ⟨hcount, ht⟩ => ⟨ht.frame, hcount, ht.found⟩

end Run

end Search

end ReedSolomon
