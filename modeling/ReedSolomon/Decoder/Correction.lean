import ReedSolomon.Decoder.Errors

/-!
# What a successful correction means

When the locator has as many roots as its length, the corrected word is a codeword
(`isCodeword_corrected`) at a distance equal to that length (`card_differing_corrected`). Nothing is
assumed about how the received word came about. If there is a codeword within distance `tt`, the table
ends with a locator that has as many roots as its length (`card_roots_eq`).
-/

open Finset Polynomial Recurrence

namespace ReedSolomon

variable {P : CodeParams} {x : ℕ → P.GF} {σ : P.GF[X]} {L : ℕ} {rt : ℕ → ℕ}

theorem point_pow_mul (h : ∀ c < L, rt c ≤ P.nn) {c : ℕ} (hc : c < L) (i : ℕ) :
    (P.alpha ^ rt c) ^ (P.b0 + P.nn - 1) * point P rt c ^ (P.b0 + i) = point P rt c ^ (i + 1) := by
  have hnn := P.nn_pos
  have hone : (P.alpha ^ rt c) ^ (P.b0 + P.nn - 1) * point P rt c ^ (P.b0 + P.nn - 1) = 1 := by
    rw [← mul_pow, ← point_inv (h c hc), inv_mul_cancel₀ (point_ne_zero rt c), one_pow]
  have hround : point P rt c ^ P.nn = 1 := by
    rw [point, ← pow_mul, mul_comm, pow_mul, P.alpha_pow_nn, one_pow]
  have hsplit : point P rt c ^ (P.b0 + i) = point P rt c ^ (P.b0 + P.nn - 1) * point P rt c ^ (i + 1) := by
    rw [← pow_add, show P.b0 + P.nn - 1 + (i + 1) = P.b0 + i + P.nn by omega, pow_add _ _ P.nn, hround, mul_one]
  rw [hsplit, ← mul_assoc, hone, one_mul]

theorem syndrome_corrected (hlist : RootList σ (P.nn + 1) L rt) (s : ℕ → P.GF) (i : ℕ) :
    syndrome P (corrected P σ s L rt x L) i =
      syndrome P x i + ∑ c ∈ range L, weight (range L) (point P rt) σ s c * point P rt c ^ (i + 1) := by
  have hbounds : ∀ c < L, rt c ≤ P.nn := fun c hc => by have := hlist.bounds c hc; omega
  have hplace : ∀ c ∈ range L, ∑ k ∈ range P.nn,
      (if k = P.nn - rt c then errorTerm P σ s L rt c else 0) * (P.alpha ^ k) ^ (P.b0 + i) =
        weight (range L) (point P rt) σ s c * point P rt c ^ (i + 1) := by
    intro c hc
    have hc' := mem_range.mp hc
    have hb := hlist.bounds c hc'
    rw [sum_eq_single_of_mem (P.nn - rt c) (mem_range.mpr (by omega)) fun k _ hk => by rw [if_neg hk, zero_mul],
      if_pos rfl, errorTerm, mul_assoc, show P.alpha ^ (P.nn - rt c) = point P rt c from rfl,
      point_pow_mul hbounds hc']
  rw [syndrome, syndrome, ← sum_congr rfl hplace, sum_comm, ← sum_add_distrib]
  refine sum_congr rfl fun k _ => ?_
  rw [corrected, add_mul, sum_mul]

/-- **The corrected word is a codeword.** -/
theorem isCodeword_corrected (hlist : RootList σ (P.nn + 1) L rt) (hσ : Generates (terms P x) (2 * P.tt) σ L) :
    IsCodeword P (corrected P σ (terms P x) L rt x L) := by
  intro i hi
  have hroot : ∀ c ∈ range L, σ.eval (point P rt c)⁻¹ = 0 := fun c hc => by
    have hc' := mem_range.mp hc
    rw [point_inv (by have := hlist.bounds c hc'; omega)]
    exact hlist.zero c hc'
  have hpow := eq_powerSum (terms_zero x) (point_injOn hlist) (fun c _ => point_ne_zero rt c)
    (by rwa [card_range]) hroot (i + 1) (by omega) (by omega)
  rw [syndrome_corrected hlist, ← hpow, terms_succ, P.add_self]

theorem differing_corrected (hlist : RootList σ (P.nn + 1) L rt) {s : ℕ → P.GF}
    (hne : ∀ c < L, errorTerm P σ s L rt c ≠ 0) :
    differing P x (corrected P σ s L rt x L) = (range L).image fun c => P.nn - rt c := by
  have hloc : ∀ c < L, ∀ d < L, P.nn - rt c = P.nn - rt d → c = d := fun c hc d hd h => by
    have hc' := hlist.bounds c hc
    have hd' := hlist.bounds d hd
    exact hlist.injOn (mem_coe.mpr (mem_range.mpr hc)) (mem_coe.mpr (mem_range.mpr hd)) (by omega)
  ext k
  rw [mem_differing, mem_image]
  constructor
  · rintro ⟨_, hk⟩
    by_contra hnone
    refine hk ?_
    rw [corrected, sum_eq_zero fun c hc => if_neg fun he => hnone ⟨c, hc, he.symm⟩, add_zero]
  · rintro ⟨c, hc, rfl⟩
    have hc' := mem_range.mp hc
    have hb := hlist.bounds c hc'
    refine ⟨by omega, fun heq => hne c hc' ?_⟩
    rw [corrected, sum_eq_single_of_mem c hc fun d hd hdc => if_neg fun he =>
      hdc (hloc d (mem_range.mp hd) c hc' he.symm), if_pos rfl] at heq
    exact left_eq_add.mp heq

theorem card_differing_corrected (hlist : RootList σ (P.nn + 1) L rt)
    (hσ : Generates (terms P x) (2 * P.tt) σ L)
    (hshort : ∀ τ L', Generates (terms P x) (2 * P.tt) τ L' → L ≤ L') :
    (differing P x (corrected P σ (terms P x) L rt x L)).card = L := by
  have hroot : ∀ c ∈ range L, σ.eval (point P rt c)⁻¹ = 0 := fun c hc => by
    have hc' := mem_range.mp hc
    rw [point_inv (by have := hlist.bounds c hc'; omega)]
    exact hlist.zero c hc'
  have hne : ∀ c < L, errorTerm P σ (terms P x) L rt c ≠ 0 := fun c hc =>
    mul_ne_zero (weight_ne_zero (terms_zero x) (point_injOn hlist) (fun c _ => point_ne_zero rt c)
      (by rwa [card_range]) hroot (by rwa [card_range]) (mem_range.mpr hc)) (pow_ne_zero _ (P.alpha_pow_ne_zero _))
  rw [differing_corrected hlist hne, card_image_of_injOn, card_range]
  intro c hc d hd h
  have hc' := hlist.bounds c (mem_range.mp hc)
  have hd' := hlist.bounds d (mem_range.mp hd)
  exact hlist.injOn hc hd (by dsimp only at h; omega)

/-! ### A codeword within reach -/

section Reach

variable {y : ℕ → P.GF} (hy : IsCodeword P y)

include hy

/-- The terms are power sums over the places where the received word differs from a codeword. -/
theorem terms_eq_powerSum {k : ℕ} (hk : 1 ≤ k) (hkt : k ≤ 2 * P.tt) : terms P x k =
    ∑ j ∈ differing P x y, (x j + y j) * (P.alpha ^ j) ^ (P.b0 + P.nn - 1) * (P.alpha ^ j) ^ k := by
  obtain ⟨i, rfl⟩ : ∃ i, k = i + 1 := ⟨k - 1, by omega⟩
  have hsyn := syndrome_add x y i
  rw [hy i (by omega), add_zero] at hsyn
  rw [terms_succ, hsyn]
  refine sum_congr rfl fun j _ => ?_
  have hnn := P.nn_pos
  have hround : (P.alpha ^ j) ^ P.nn = 1 := by rw [← pow_mul, mul_comm, pow_mul, P.alpha_pow_nn, one_pow]
  rw [mul_assoc, ← pow_add, show P.b0 + P.nn - 1 + (i + 1) = P.b0 + i + P.nn by omega, pow_add _ _ P.nn, hround,
    mul_one]

theorem generates_of_codeword : Generates (terms P x) (2 * P.tt)
    (locator (differing P x y) fun k => P.alpha ^ k) (differing P x y).card :=
  generates_powerSum _ _ _ fun _ hk hkt => terms_eq_powerSum hy hk hkt

theorem card_roots_eq {count : ℕ} (hlist : RootList σ (P.nn + 1) count rt)
    (hσ : Generates (terms P x) (2 * P.tt) σ L) (hL : L ≤ (differing P x y).card)
    (hcard : (differing P x y).card ≤ P.tt) (hcount : count ≤ L) : count = L := by
  have hroot : ∀ k ∈ differing P x y, ∃ c < count, rt c = P.nn - k := by
    intro k hk
    obtain ⟨hkn, hne⟩ := mem_differing.mp hk
    have hweight : (x k + y k) * (P.alpha ^ k) ^ (P.b0 + P.nn - 1) ≠ 0 :=
      mul_ne_zero (fun h => hne (CharTwo.add_eq_zero.mp h)) (pow_ne_zero _ (P.alpha_pow_ne_zero k))
    have hzero := eval_inv_eq_zero (alpha_pow_injOn_differing x y) (fun k _ => P.alpha_pow_ne_zero k)
      (fun _ hk hkt => terms_eq_powerSum hy hk hkt) hσ (by omega) hk hweight
    rw [← P.alpha_pow_sub hkn.le] at hzero
    exact hlist.complete (P.nn - k) (by omega) (by omega) hzero
  have hsub : (differing P x y).image (fun k => P.nn - k) ⊆ (range count).image rt := fun j hj => by
    obtain ⟨k, hk, rfl⟩ := mem_image.mp hj
    obtain ⟨c, hc, hck⟩ := hroot k hk
    exact mem_image.mpr ⟨c, mem_range.mpr hc, hck⟩
  have hinj : Set.InjOn (fun k => P.nn - k) (differing P x y) := fun a ha b hb h => by
    have ha' := (mem_differing.mp ha).1
    have hb' := (mem_differing.mp hb).1
    dsimp only at h
    omega
  have hle : (differing P x y).card ≤ count :=
    calc (differing P x y).card = ((differing P x y).image fun k => P.nn - k).card := (card_image_of_injOn hinj).symm
      _ ≤ ((range count).image rt).card := card_le_card hsub
      _ ≤ (range count).card := card_image_le
      _ = count := card_range count
  omega

/-- A word within distance `tt` of a codeword does not make the iteration overrun. -/
theorem not_overruns (hcard : (differing P x y).card ≤ P.tt) : ¬ Overruns P (terms P x) := by
  rintro ⟨hzero, hlast⟩
  have htt := P.one_le_tt
  have hweights : ∀ k ∈ differing P x y, (x k + y k) * (P.alpha ^ k) ^ (P.b0 + P.nn - 1) = 0 := fun k hk =>
    eq_zero_of_consecutive (b := 1) (n := 2 * P.tt - 1) (alpha_pow_injOn_differing x y)
      (fun k _ => P.alpha_pow_ne_zero k) (by omega)
      (fun i hi => by rw [← terms_eq_powerSum hy (by omega) (by omega), hzero _ (by omega) (by omega)]) hk
  refine hlast ?_
  rw [terms_eq_powerSum hy (by omega) le_rfl]
  exact sum_eq_zero fun k hk => by rw [hweights k hk, zero_mul]

end Reach

end ReedSolomon
