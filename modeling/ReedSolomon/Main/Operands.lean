import ReedSolomon.Imp.Footprint
import ReedSolomon.Main.Search

/-!
# What the decoder takes for granted

A run of `decode_rs` notes an operand that is not a logarithm where the source adds and subtracts logarithms, a negative
left operand of `%`, a load from a cell that holds nothing, and every access outside the declared bounds. Whatever word
arrives, the first three are never noted (`decode_logarithms`, `decode_reads`).
-/

open Imp Finset Polynomial

namespace ReedSolomon

variable {P : CodeParams}

/-- What a run of `c` notes. -/
def noted {α : Type} (c : Code P α) (m : Machine P.dims) : List (Fault Arr) := (c.exec m.forget).faults

/-- The only thing `decode_rs` ever notes is the store of `Overruns`. -/
theorem eq_overrun_of_noted {m : Machine P.dims} (hT : HasTables m) {x : ℕ → P.GF} (hx : HoldsWord m .recd P.nn x)
    {f : Fault Arr} (hf : f ∈ noted (decodeRs P) m) : f = overrun P := by
  obtain ⟨y, hy⟩ := wp_iff_run.mp (wp_decodeRs (m := m.forget) ⟨hT.alphaTo, hT.indexOf⟩ hx)
  rw [noted] at hf
  rcases hy.frame with ⟨-, hframe⟩ | ⟨-, hframe⟩
  · rw [hframe.faults] at hf
    exact absurd hf List.not_mem_nil
  · rw [hframe.faults] at hf
    exact List.mem_singleton.mp hf

/-! ### Logarithms -/

theorem xor_alphaTo_ne_zero {m : Machine P.dims} (hT : HasTables m) {σ : P.GF[X]} {n : ℕ} {rt : ℕ → ℕ}
    (hlist : RootList σ (P.nn + 1) n rt) (hrt : HasRoots n rt m) {i j : ℕ} (hi : i < n) (hj : j < n) (hji : j ≠ i) :
    Int.xor 1 (m.val .alphaTo [(m.val .loc (line j) + m.val .root (line i)).tmod P.nn]) ≠ 0 := by
  have hne := factor_ne_zero hlist hi hj
  rw [factor, if_pos hji] at hne
  rw [Machine.val_of_cell (hrt.loc j hj), hrt.val_root hi, Int.tmod_eq_emod_of_nonneg (by positivity),
    Machine.val_of_cell (hT.alphaTo_factor rt i j), ← P.poly_one, P.xor_poly, Ne, P.poly_eq_zero]
  exact hne

/-- **Every operand is a logarithm.** -/
theorem decode_logarithms (P : CodeParams) (m : Machine P.dims) (r : ℕ → ℤ) (hr : Symbols P P.nn r) :
    let h := arrived P m r
    let d := (decodeRs P).exec h
    let len := d.val .l (line ((lastRow P).eval h))
    (∀ v, Fault.operand v ∉ noted (decodeRs P) h) ∧
      ((decodeRs P).eval h = 1 → ∀ i j : ℕ, (i : ℤ) < len → (j : ℤ) < len →
        1 ≤ d.val .root (line i) ∧ d.val .root (line i) ≤ P.nn ∧
        0 ≤ d.val .loc (line j) ∧ d.val .loc (line j) < P.nn ∧
        (j ≠ i → Int.xor 1 (d.val .alphaTo [(d.val .loc (line j) + d.val .root (line i)).tmod P.nn]) ≠ 0)) := by
  intro h d len
  obtain ⟨hT, hx, -⟩ := arrived_spec m hr
  refine ⟨fun v hv => absurd (eq_overrun_of_noted hT hx hv) (by simp [overrun]), fun hone i j hi hj => ?_⟩
  obtain ⟨y, hy⟩ := wp_iff_run.mp (wp_decodeRs_finished hT hx)
  obtain ⟨σ, rt, hlist, hrt⟩ := hy.roots hone
  have hlen : len = ((differing P (elements P r) y).card : ℤ) := Machine.val_of_cell (hy.degree hone)
  rw [hlen] at hi hj
  have hTd : HasTables d := by
    rcases hy.frame with ⟨-, hf⟩ | ⟨-, hf⟩
    · exact hT.of_frame hf (by decide) (by decide)
    · exact ⟨fun i hi => by rw [hf.cell _ (by decide)]; exact hT.alphaTo i hi,
        fun z => by rw [hf.cell _ (by decide)]; exact hT.indexOf z⟩
  obtain ⟨hi1, hin⟩ := hrt.root_bounds hlist le_rfl (show i < _ by omega)
  obtain ⟨hj0, hjn⟩ := hrt.loc_bounds hlist le_rfl (show j < _ by omega)
  exact ⟨hi1, hin, hj0, hjn, fun hji => xor_alphaTo_ne_zero hTd hlist hrt (by omega) (by omega) hji⟩

theorem degree_twoOnes :
    let h := arrived rs255 (Machine.fresh _) twoOnes
    ((decodeRs rs255).exec h).val .l (line ((lastRow rs255).eval h)) = 2 := by
  intro h
  obtain ⟨hT, hx, -⟩ := arrived_spec (Machine.fresh rs255.dims) symbols_twoOnes
  obtain ⟨y, hy⟩ := wp_iff_run.mp (wp_decodeRs_finished hT hx)
  have hnear : (differing rs255 (elements rs255 twoOnes) fun _ => 0).card ≤ rs255.tt := by
    rw [differing_twoOnes fun _ _ => rfl]
    decide
  have hdiff := differing_twoOnes (hy.outcome.eq_codeword isCodeword_zero hnear)
  rw [Machine.val_of_cell (hy.degree returns_one_twoOnes), hdiff]
  rfl

theorem decode_logarithms_twoOnes :
    let h := arrived rs255 (Machine.fresh _) twoOnes
    let d := (decodeRs rs255).exec h
    (∀ v, Fault.operand v ∉ noted (decodeRs rs255) h) ∧
      Int.xor 1 (d.val .alphaTo [(d.val .loc (line 1) + d.val .root (line 0)).tmod 255]) ≠ 0 := by
  intro h d
  obtain ⟨hoperand, hroots⟩ := decode_logarithms rs255 (Machine.fresh _) twoOnes symbols_twoOnes
  have hlen := degree_twoOnes
  have hpair := hroots returns_one_twoOnes 0 1 (by rw [hlen]; decide) (by rw [hlen]; decide)
  exact ⟨hoperand, hpair.2.2.2.2 (by decide)⟩

/-! ### Cells -/

/-- The tables have a place behind the last power of `@`, which `generate_gf` leaves alone. -/
theorem spares_generateGf : Spares .alphaTo [(P.nn : ℤ)] (generateGf P) := by
  have hmm := P.mm_lt_nn
  have halpha : ∀ i : ℕ, i < P.nn → ∀ v : ℤ, Spares .alphaTo [(P.nn : ℤ)] (store .alphaTo [(i : ℤ)] v : Code P Unit) :=
    fun i hi v => .store (fun _ => by simp; omega) v
  have hindex : ∀ j v, Spares .alphaTo [(P.nn : ℤ)] (store .indexOf j v : Code P Unit) :=
    fun j v => .store (fun h => by cases h) v
  have hlow : ∀ i, i < P.mm → ∀ mask, Spares .alphaTo [(P.nn : ℤ)] (lowPower P i mask) := by
    intro i hi mask
    refine (halpha i (by omega) _).bind fun _ => (Spares.load _ _).bind fun v => (hindex _ _).bind fun _ => ?_
    exact (Spares.ifThen ((Spares.load _ _).bind fun w => halpha P.mm hmm _)).bind fun _ => .pure _
  have hhigh : ∀ mask i, i < P.nn → Spares .alphaTo [(P.nn : ℤ)] (highPower P mask i) := by
    intro mask i hi
    refine (Spares.load _ _).bind fun v => .bind (.ifThenElse ?_ ?_) fun _ => (Spares.load _ _).bind fun w => hindex _ _
    · exact (Spares.load _ _).bind fun _ => (Spares.load _ _).bind fun _ => halpha i hi _
    · exact (Spares.load _ _).bind fun _ => halpha i hi _
  refine (halpha P.mm hmm _).bind fun _ => .bind (.forUp fun i _ hi mask => hlow i hi mask) fun mask => ?_
  refine (Spares.load _ _).bind fun v => (hindex _ _).bind fun _ => ?_
  exact .bind (.forEach fun i _ hi => hhigh _ i hi) fun _ => hindex _ _

theorem stored_arrived (junk : Arr → List ℤ → ℤ) {r : ℕ → ℤ} (hr : Symbols P P.nn r) :
    let h := arrived P (Machine.start junk) r
    (∀ i : ℤ, h.cell .alphaTo [i] ≠ none ↔ 0 ≤ i ∧ i < P.nn) ∧ ∀ i : ℤ, h.cell .indexOf [i] ≠ none ↔ 0 ≤ i ∧ i ≤ P.nn := by
  intro h
  have hT := (arrived_spec (P := P) (Machine.start junk) hr).1
  have htop : h.cell .alphaTo [(P.nn : ℤ)] = none := by
    have hreceive := (wp_iff_run.mp (wp_receive_recd (m := (generateGf P).exec (Machine.start junk)) hr)).1
    have hgenerate : ((generateGf P).exec (Machine.start junk)).cell .alphaTo [(P.nn : ℤ)] = none :=
      spares_generateGf (Machine.start junk)
    exact (congrFun (hreceive.cell .alphaTo (by decide)) _).trans hgenerate
  have hbounds : ∀ a i, P.dims a = [P.nn + 1] → h.cell a [i] ≠ none → 0 ≤ i ∧ i ≤ P.nn := by
    intro a i ha hi
    obtain ⟨v, hv⟩ := Option.ne_none_iff_exists'.mp hi
    have hin := h.inBounds a [i] v hv
    simp only [ha, inBounds_cons, inBounds_nil, and_true] at hin
    omega
  constructor
  · intro i
    constructor
    · intro hi
      have hb := hbounds .alphaTo i rfl hi
      refine ⟨hb.1, lt_of_le_of_ne hb.2 ?_⟩
      rintro rfl
      exact hi htop
    · rintro ⟨h0, hi⟩
      obtain ⟨k, rfl⟩ := Int.eq_ofNat_of_zero_le h0
      rw [hT.alphaTo k (by exact_mod_cast hi)]
      exact Option.some_ne_none _
  · intro i
    refine ⟨hbounds .indexOf i rfl, fun hi => ?_⟩
    have hpoly : P.poly (elements P (fun _ => i) 0) = i :=
      poly_elements (n := 1) (f := fun _ => i) (fun _ _ => hi) Nat.zero_lt_one
    rw [← hpoly, hT.indexOf]
    exact Option.some_ne_none _

/-- **Nothing is read before it is written.** -/
theorem decode_reads (P : CodeParams) (junk : Arr → List ℤ → ℤ) (r : ℕ → ℤ) (hr : Symbols P P.nn r) :
    let h := arrived P (Machine.start junk) r
    let d := (decodeRs P).exec h
    ((∀ i : ℤ, h.cell .alphaTo [i] ≠ none ↔ 0 ≤ i ∧ i < P.nn) ∧
      (∀ i : ℤ, h.cell .indexOf [i] ≠ none ↔ 0 ≤ i ∧ i ≤ P.nn) ∧
      ∀ a, a ∉ [Arr.alphaTo, .indexOf, .recd] → ∀ idx, h.cell a idx = none) ∧
    (∀ a idx, Fault.unset a idx ∉ noted (decodeRs P) h ∧ Fault.load a idx ∉ noted (decodeRs P) h) ∧
    d.cell .s [0] = none ∧ d.cell .alphaTo [(P.nn : ℤ)] = none := by
  intro h d
  obtain ⟨hT, hx, hf⟩ := arrived_spec (P := P) (Machine.start junk) hr
  obtain ⟨halpha, hindex⟩ := stored_arrived junk hr
  obtain ⟨y, hy⟩ := wp_iff_run.mp (wp_decodeRs_finished hT hx)
  refine ⟨⟨halpha, hindex, fun a ha idx => ?_⟩, fun a idx => ⟨fun hmem => ?_, fun hmem => ?_⟩, hy.unused, ?_⟩
  · rw [hf.cell a ha]
    rfl
  · exact absurd (eq_overrun_of_noted hT hx hmem) (by simp [overrun])
  · exact absurd (eq_overrun_of_noted hT hx hmem) (by simp [overrun])
  · have hkept : d.cell .alphaTo = h.cell .alphaTo := by
      rcases hy.frame with ⟨-, hframe⟩ | ⟨-, hframe⟩
      · exact hframe.cell _ (by decide)
      · exact hframe.cell _ (by decide)
    rw [hkept]
    by_contra hne
    have := (halpha P.nn).mp hne
    omega

theorem decode_reads_twoOnes :
    Fault.unset .s [0] ∉ noted (decodeRs rs255) (arrived rs255 (Machine.start fun _ _ => 0) twoOnes) ∧
      ((decodeRs rs255).exec (arrived rs255 (Machine.start fun _ _ => 0) twoOnes)).cell .s [0] = none := by
  obtain ⟨-, hread, hs, -⟩ := decode_reads rs255 (fun _ _ => 0) twoOnes symbols_twoOnes
  exact ⟨(hread .s [0]).1, hs⟩

end ReedSolomon
