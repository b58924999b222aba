import ReedSolomon.Decoder.Decode
import ReedSolomon.Field.Nearest

/-!
# The exits of `decode_rs`

Which of its four values `decode_rs` returns, for every setting and every received word: 0 and 1 are decided by
the distance to the code, 3 by the length of the shortest recurrence of the syndromes, and 2 is what is left
(`Exit`). What is left in `recd` is what bounded-distance decoding leaves (`Outcome.front_eq`). So adding a
codeword and shifting in a circle, the symmetries of the code, change nothing but the word (`Alike`).
-/

open Imp Finset Polynomial Recurrence BoundedDistance

namespace ReedSolomon

variable {P : CodeParams} {x y : ℕ → P.GF} {code : ℤ}

/-- Some codeword is within `tt` places. -/
def NearCode (P : CodeParams) (x : ℕ → P.GF) : Prop := ∃ v, IsCodeword P v ∧ (differing P x v).card ≤ P.tt

/-- The syndromes satisfy a recurrence of length at most `tt`. -/
def ShortRecurrence (P : CodeParams) (x : ℕ → P.GF) : Prop := Generated (terms P x) (2 * P.tt) P.tt

/-- `code` is the value `decode_rs` returns for `x`. -/
structure Exit (P : CodeParams) (x : ℕ → P.GF) (code : ℤ) : Prop where
  zero_iff : code = 0 ↔ IsCodeword P x
  one_iff : code = 1 ↔ ¬ IsCodeword P x ∧ NearCode P x
  two_iff : code = 2 ↔ ShortRecurrence P x ∧ ¬ NearCode P x
  three_iff : code = 3 ↔ ¬ ShortRecurrence P x

theorem Outcome.nearCode_iff (h : Outcome P x y code) : NearCode P x ↔ code = 0 ∨ code = 1 := by
  have hself : (differing P x x).card = 0 := by simp [differing]
  cases h with
  | clean hx hy => exact ⟨fun _ => Or.inl rfl, fun _ => ⟨x, hx, by omega⟩⟩
  | corrected hx hy hnear => exact ⟨fun _ => Or.inr rfl, fun _ => ⟨y, hy, hnear⟩⟩
  | tooManyRoots hx hy hfar | tooLong hx hy hfar =>
    refine ⟨fun hv => ?_, fun h => absurd h (by decide)⟩
    obtain ⟨v, hv, hcard⟩ := hv
    exact absurd (hfar v hv) (not_lt.mpr hcard)

theorem Outcome.code_range (h : Outcome P x y code) : code = 0 ∨ code = 1 ∨ code = 2 ∨ code = 3 := by
  cases h with
  | clean => exact Or.inl rfl
  | corrected => exact Or.inr (Or.inl rfl)
  | tooManyRoots => exact Or.inr (Or.inr (Or.inl rfl))
  | tooLong => exact Or.inr (Or.inr (Or.inr rfl))

theorem IsCodeword.shortRecurrence (hx : IsCodeword P x) : ShortRecurrence P x := by
  refine ⟨1, 0, ⟨by simp, by simp, fun k hk hkt => ?_⟩, Nat.zero_le _⟩
  obtain ⟨i, rfl⟩ : ∃ i, k = i + 1 := ⟨k - 1, by omega⟩
  rw [disc_one, terms_succ]
  exact hx i (by omega)

theorem Overruns.not_shortRecurrence (h : Overruns P (terms P x)) : ¬ ShortRecurrence P x := by
  intro hshort
  obtain ⟨hzero, hlast⟩ := h
  obtain ⟨σ, L, hgen, hL⟩ := hshort
  have htt := P.one_le_tt
  obtain ⟨N, hN⟩ : ∃ N, 2 * P.tt = N + 1 := ⟨2 * P.tt - 1, by omega⟩
  rw [hN] at hgen hlast
  have hle := hgen.le_of_late (fun k hk hkN => hzero k hk (by omega)) hlast
  omega

theorem Outcome.exit (h : Outcome P x y code) (hthree : code = 3 ↔ ¬ ShortRecurrence P x) : Exit P x code where
  zero_iff := h.code_eq_zero_iff
  one_iff := by
    rw [← h.code_eq_zero_iff, h.nearCode_iff]
    omega
  two_iff := by
    have hrange := h.code_range
    rw [h.nearCode_iff, ← not_iff_not.mpr hthree |>.trans not_not]
    omega
  three_iff := hthree

theorem IsCodeword.exit (hx : IsCodeword P x) : Exit P x 0 :=
  (Outcome.clean hx fun _ _ => rfl).exit ⟨fun h => absurd h (by decide), fun h => absurd hx.shortRecurrence h⟩

theorem wp_exits_three {m : Machine P.dims} {u L : ℕ} (hl : m.cell .l (line u) = some (L : ℤ)) :
    wp (exits P u) (fun code _ => code = 3 ↔ ¬ L ≤ P.tt) m := by
  have any {α : Type} (c : Code P α) (t : Machine P.dims) : wp c (fun _ _ => True) t := trivial
  rw [exits, wp_bind, wp_load hl, wp_ite]
  split_ifs with hL
  · refine wp_seq (any _ _) fun _ _ _ => wp_seq (any _ _) fun count _ _ => wp_seq (any _ _) fun v _ _ => ?_
    rw [wp_ite]
    split_ifs
    · refine wp_seq (any _ _) fun _ _ _ => ?_
      rw [wp_pure]
      omega
    · refine wp_seq (any _ _) fun _ _ _ => ?_
      rw [wp_pure]
      omega
  · refine wp_seq (any _ _) fun _ _ _ => ?_
    rw [wp_pure]
    omega

/-- The last row is short exactly if a short recurrence generates all the syndromes. -/
theorem Ended.short_iff {m₃ m : Machine P.dims} {u : ℕ} (h : Ended m₃ (terms P x) u m) :
    ∃ L : ℕ, m.cell .l (line u) = some (L : ℤ) ∧ (L ≤ P.tt ↔ ShortRecurrence P x) := by
  rcases h with ⟨⟨rows, h, hule, hexit⟩, _⟩ | ⟨rfl, hover⟩
  · refine ⟨(rows u).len, h.l u le_rfl, ?_⟩
    rcases hexit with rfl | hlong
    · exact h.table.len_le_iff P.tt
    · refine ⟨fun hshort => absurd hshort (not_le.mpr hlong), fun hshort => ?_⟩
      exact (h.table.len_le_iff P.tt).mpr (hshort.mono (by omega))
  · refine ⟨2 * P.tt, hover.l, ?_⟩
    have htt := P.one_le_tt
    exact ⟨fun hle => by omega, fun hshort => absurd hshort hover.overruns.not_shortRecurrence⟩

/-- **`decode_rs`, with the value it returns.** -/
theorem wp_decodeRs_exit {m : Machine P.dims} (hT : HasTables m) (hx : HoldsWord m .recd P.nn x) :
    wp (decodeRs P) (fun code m' => Exit P x code ∧ ∃ y, Decoded x m code y m') m := by
  have hthree : wp (decodeRs P) (fun code _ => code = 3 ↔ ¬ ShortRecurrence P x) m := by
    rw [decodeRs_tabled]
    refine wp_seq (wp_tabled hT hx) fun res m' h => ?_
    cases h with
    | clean hcode h₃ =>
      refine wp_seq (R := fun _ _ => True) trivial fun _ _ _ => ?_
      rw [wp_pure]
      exact hcode.exit.three_iff
    | iterated hno h₃ hend hu =>
      obtain ⟨L, hl, hshort⟩ := hend.short_iff
      exact wp_mono (wp_exits_three hl) fun code _ h => h.trans (not_congr hshort)
  obtain ⟨y, hdec⟩ := wp_iff_run.mp (wp_decodeRs hT hx)
  exact wp_iff_run.mpr ⟨hdec.outcome.exit (wp_iff_run.mp hthree), y, hdec⟩

/-! ### Bounded-distance decoding -/

theorem nearCode_iff_inReach : NearCode P x ↔ InReach (codewords P : Set (Fin P.nn → P.GF)) P.tt (front P x) := by
  constructor
  · intro h
    obtain ⟨v, hv, hcard⟩ := h
    exact ⟨front P v, mem_codewords.mpr hv, by rwa [hammingDist_front]⟩
  · intro h
    obtain ⟨v, hv, hdist⟩ := h
    rw [← front_padded v, hammingDist_front] at hdist
    exact ⟨padded v, hv, hdist⟩

theorem Outcome.front_eq (h : Outcome P x y code) :
    front P y = nearest (codewords P : Set (Fin P.nn → P.GF)) P.tt (front P x) := by
  by_cases hcorr : NearCode P x
  · obtain ⟨v, hv, hcard⟩ := hcorr
    rw [nearest_eq separated_codewords (mem_codewords.mpr hv) (by rwa [hammingDist_front])]
    exact front_inj.mpr (h.eq_codeword hv hcard)
  · rw [nearest_of_far (mt nearCode_iff_inReach.mpr hcorr)]
    exact front_inj.mpr (h.eq_received fun hone => hcorr (h.nearCode_iff.mpr (Or.inr hone)))

/-! ### Words that fare alike -/

/-- `decode_rs` treats the two words in the same way. -/
structure Alike (P : CodeParams) (x x' : ℕ → P.GF) : Prop where
  isCodeword : IsCodeword P x' ↔ IsCodeword P x
  nearCode : NearCode P x' ↔ NearCode P x
  short : ShortRecurrence P x' ↔ ShortRecurrence P x
  overruns : Overruns P (terms P x') ↔ Overruns P (terms P x)

variable {x' : ℕ → P.GF} {code' : ℤ}

theorem alike_of_eq (h : ∀ k < P.nn, x' k = x k) : Alike P x x' := by
  have hdiff : ∀ v, differing P x' v = differing P x v := fun v => by
    ext k
    rw [mem_differing, mem_differing]
    exact and_congr_right fun hk => by rw [h k hk]
  have hterms : terms P x' = terms P x := funext fun k => by rw [terms, terms, syndrome_congr h]
  refine ⟨?_, ?_, by rw [ShortRecurrence, ShortRecurrence, hterms], by rw [hterms]⟩
  · exact ⟨fun hx => hx.congr fun k hk => (h k hk).symm, fun hx => hx.congr h⟩
  · simp only [NearCode, hdiff]

theorem Alike.trans {x'' : ℕ → P.GF} (h : Alike P x x') (h' : Alike P x' x'') : Alike P x x'' where
  isCodeword := h'.isCodeword.trans h.isCodeword
  nearCode := h'.nearCode.trans h.nearCode
  short := h'.short.trans h.short
  overruns := h'.overruns.trans h.overruns

theorem Exit.eq_of_alike (h : Exit P x code) (h' : Exit P x' code') (halike : Alike P x x') : code' = code := by
  by_cases hshort : ShortRecurrence P x
  · by_cases hcorr : NearCode P x
    · by_cases hcode : IsCodeword P x
      · rw [h.zero_iff.mpr hcode, h'.zero_iff.mpr (halike.isCodeword.mpr hcode)]
      · rw [h.one_iff.mpr ⟨hcode, hcorr⟩,
          h'.one_iff.mpr ⟨mt halike.isCodeword.mp hcode, halike.nearCode.mpr hcorr⟩]
    · rw [h.two_iff.mpr ⟨hshort, hcorr⟩,
        h'.two_iff.mpr ⟨halike.short.mpr hshort, mt halike.nearCode.mp hcorr⟩]
  · rw [h.three_iff.mpr hshort, h'.three_iff.mpr (mt halike.short.mp hshort)]

/-- A symmetry of the code that scales the syndromes. -/
theorem alike_of_symmetry {f : (Fin P.nn → P.GF) → Fin P.nn → P.GF}
    (hf : Symmetry (codewords P : Set (Fin P.nn → P.GF)) f) (hx' : front P x' = f (front P x)) {a b : P.GF}
    (ha : a ≠ 0) (hb : b ≠ 0) (hterms : ∀ k, 1 ≤ k → k ≤ 2 * P.tt → terms P x' k = a * b ^ k * terms P x k) :
    Alike P x x' where
  isCodeword := by
    rw [← mem_codewords, ← mem_codewords, hx']
    exact hf.mem_iff _
  nearCode := by
    rw [nearCode_iff_inReach, nearCode_iff_inReach, hx']
    exact hf.inReach_iff _
  short := by
    constructor
    · intro h
      refine (h.scale a⁻¹ b⁻¹).congr fun k hk hkt => ?_
      rw [hterms k hk hkt, inv_pow]
      field_simp
    · intro h
      exact (h.scale a b).congr hterms
  overruns := by
    have htt := P.one_le_tt
    have hzero : ∀ k, 1 ≤ k → k ≤ 2 * P.tt → (terms P x' k = 0 ↔ terms P x k = 0) := fun k hk hkt => by
      rw [hterms k hk hkt, mul_eq_zero, or_iff_right (mul_ne_zero ha (pow_ne_zero k hb))]
    exact and_congr (forall_congr' fun k => forall_congr' fun hk => forall_congr' fun hkt => hzero k hk hkt.le)
      (not_congr (hzero _ (by omega) le_rfl))

theorem alike_add {c : ℕ → P.GF} (hc : IsCodeword P c) : Alike P x fun k => x k + c k := by
  refine alike_of_symmetry (Symmetry.add (mem_codewords.mpr hc)) rfl one_ne_zero one_ne_zero fun k hk hkt => ?_
  obtain ⟨i, rfl⟩ : ∃ i, k = i + 1 := ⟨k - 1, by omega⟩
  rw [terms_succ, terms_succ, syndrome_sum, hc i (by omega), add_zero, one_pow, one_mul, one_mul]

theorem alike_rotated {s : ℕ} (hs : s ≤ P.nn) : Alike P x (rotated P s x) := by
  have hpow := pow_ne_zero s P.alpha_ne_zero
  refine alike_of_symmetry (symmetry_turn hs) (front_rotated hs x)
    (div_ne_zero (pow_ne_zero P.b0 hpow) hpow) hpow fun k hk hkt => ?_
  obtain ⟨i, rfl⟩ : ∃ i, k = i + 1 := ⟨k - 1, by omega⟩
  rw [terms_succ, terms_succ, syndrome_rotated x hs, pow_add, pow_succ, ← mul_assoc]
  field_simp

end ReedSolomon
