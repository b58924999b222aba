import Mathlib.Data.Finset.Card
import ReedSolomon.Main.Words

/-!
# Hits

A hit `(p, v)` replaces the byte at place `p` of a word by the low byte of its exclusive or with `v`. It changes the
word unless the low byte of `v` is 0, so hits at different places make as many differences as there are such
values among them (`card_differences_hits`).
-/

open Finset

namespace ReedSolomon

/-- The word after a hit. -/
def hit (c : ℕ → ℤ) (e : ℤ × ℤ) : ℕ → ℤ := Function.update c e.1.toNat (Int.xor (c e.1.toNat) e.2 % 256)

/-- A place of the block, and a value `rand()` can return. -/
def Legal (e : ℤ × ℤ) : Prop := (0 ≤ e.1 ∧ e.1 < 255) ∧ 0 ≤ e.2

theorem xor_nonneg {v w : ℤ} (hv : 0 ≤ v) (hw : 0 ≤ w) : 0 ≤ Int.xor v w := by
  obtain ⟨v, rfl⟩ := Int.eq_ofNat_of_zero_le hv
  obtain ⟨w, rfl⟩ := Int.eq_ofNat_of_zero_le hw
  exact Int.natCast_nonneg (v ^^^ w)

theorem symbols_hit {c : ℕ → ℤ} {n : ℕ} (hc : Symbols rs255 n c) (e : ℤ × ℤ) : Symbols rs255 n (hit c e) := by
  intro k hk
  rw [hit, Function.update_apply]
  split_ifs
  · have hpos := Int.emod_nonneg (Int.xor (c e.1.toNat) e.2) (show (256 : ℤ) ≠ 0 by decide)
    have hlt := Int.emod_lt_of_pos (Int.xor (c e.1.toNat) e.2) (show (0 : ℤ) < 256 by decide)
    show 0 ≤ _ ∧ _ ≤ ((255 : ℕ) : ℤ)
    omega
  · exact hc k hk

theorem symbols_hits {c : ℕ → ℤ} {n : ℕ} (hc : Symbols rs255 n c) (l : List (ℤ × ℤ)) :
    Symbols rs255 n (l.foldl hit c) := by
  induction l generalizing c with
  | nil => exact hc
  | cons e l ih => exact ih (symbols_hit hc e)

theorem xor_emod_eq_iff {b v : ℤ} (hb : 0 ≤ b ∧ b ≤ 255) (hv : 0 ≤ v) : Int.xor b v % 256 = b ↔ v % 256 = 0 := by
  obtain ⟨b, rfl⟩ := Int.eq_ofNat_of_zero_le hb.1
  obtain ⟨v, rfl⟩ := Int.eq_ofNat_of_zero_le hv
  have hlt : b < 2 ^ 8 := by omega
  have hxor : Int.xor (b : ℤ) (v : ℤ) % 256 = ((b ^^^ v % 2 ^ 8 : ℕ) : ℤ) := by
    rw [← Nat.mod_eq_of_lt hlt, ← Nat.xor_mod_two_pow, Nat.mod_eq_of_lt hlt]
    exact (Int.natCast_mod _ _).symm
  have hlow : ((v : ℤ) % 256 = 0) ↔ v % 2 ^ 8 = 0 := by omega
  rw [hxor, hlow, Int.ofNat_inj]
  constructor
  · intro h
    apply Nat.xor_right_injective (x := b)
    exact h.trans (Nat.xor_zero b).symm
  · intro h
    rw [h, Nat.xor_zero]

theorem hits_of_notMem {l : List (ℤ × ℤ)} {k : ℕ} (h : ∀ e ∈ l, e.1.toNat ≠ k) (c : ℕ → ℤ) : l.foldl hit c k = c k := by
  induction l generalizing c with
  | nil => rfl
  | cons e l ih =>
    rw [List.foldl_cons, ih (fun e' he' => h e' (List.mem_cons_of_mem e he')), hit,
      Function.update_of_ne (h e List.mem_cons_self).symm]

theorem hits_append (l : List (ℤ × ℤ)) (e : ℤ × ℤ) (c : ℕ → ℤ) : (l ++ [e]).foldl hit c = hit (l.foldl hit c) e := by
  rw [List.foldl_append, List.foldl_cons, List.foldl_nil]

theorem differences_hit {c w : ℕ → ℤ} {e : ℤ × ℤ} (hc : Symbols rs255 255 c) (he : Legal e)
    (hw : w e.1.toNat = c e.1.toNat) : differences 255 (hit w e) c =
      if e.2 % 256 = 0 then differences 255 w c else insert e.1.toNat (differences 255 w c) := by
  have hplace : e.1.toNat < 255 := by have := he.1; omega
  have hchange := xor_emod_eq_iff (hc _ hplace) he.2
  ext k
  rw [differences, mem_filter, mem_range, hit, Function.update_apply, hw]
  by_cases hk : k = e.1.toNat
  · subst hk
    rw [if_pos rfl, ne_eq, hchange]
    split_ifs with hzero
    · simp [differences, hzero, hw]
    · simp [hplace, hzero]
  · rw [if_neg hk]
    split_ifs
    · rw [differences, mem_filter, mem_range]
    · rw [mem_insert, differences, mem_filter, mem_range, or_iff_right hk]

/-- Hits at different places: the differences are counted by the values that are not divisible by 256. -/
theorem card_differences_hits {c : ℕ → ℤ} (hc : Symbols rs255 255 c) {l : List (ℤ × ℤ)} (hl : ∀ e ∈ l, Legal e)
    (hnodup : (l.map Prod.fst).Nodup) :
    (differences 255 (l.foldl hit c) c).card = (l.filter fun e => e.2 % 256 ≠ 0).length := by
  induction l using List.reverseRecOn with
  | nil => simp [differences]
  | append_singleton l e ih =>
    have he := hl e (by simp)
    rw [List.map_append, List.map_singleton, List.nodup_append] at hnodup
    have hother : ∀ e' ∈ l, e'.1.toNat ≠ e.1.toNat := by
      intro e' he' heq
      have hplace := (hl e' (by simp [he'])).1
      have hplace' := he.1
      refine hnodup.2.2 e'.1 (List.mem_map_of_mem he') e.1 (List.mem_singleton_self _) ?_
      omega
    have hsame : l.foldl hit c e.1.toNat = c e.1.toNat := hits_of_notMem hother c
    have hcount := ih (fun e' he' => hl e' (List.mem_append_left _ he')) hnodup.1
    rw [hits_append, differences_hit hc he hsame, List.filter_append, List.length_append, ← hcount]
    split_ifs with hzero
    · rw [List.filter_singleton, decide_eq_false (not_not.mpr hzero)]
      rfl
    · rw [card_insert_of_notMem (by simp [differences, hsame]), List.filter_singleton, decide_eq_true hzero]
      rfl

theorem differences_hits_subset (c : ℕ → ℤ) (l : List (ℤ × ℤ)) :
    differences 255 (l.foldl hit c) c ⊆ (l.map fun e => e.1.toNat).toFinset := by
  intro k hk
  rw [differences, mem_filter] at hk
  by_contra hnot
  apply hk.2
  apply hits_of_notMem
  intro e he heq
  apply hnot
  rw [List.mem_toFinset]
  exact List.mem_map.mpr ⟨e, he, heq⟩

theorem card_differences_hits_le (c : ℕ → ℤ) (l : List (ℤ × ℤ)) : (differences 255 (l.foldl hit c) c).card ≤ l.length :=
  calc (differences 255 (l.foldl hit c) c).card ≤ (l.map fun e => e.1.toNat).toFinset.card :=
        card_le_card (differences_hits_subset c l)
    _ ≤ (l.map fun e => e.1.toNat).length := List.toFinset_card_le _
    _ = l.length := List.length_map _

theorem card_differences_hits_eq_iff {c : ℕ → ℤ} (hc : Symbols rs255 255 c) {l : List (ℤ × ℤ)} (hl : ∀ e ∈ l, Legal e) :
    (differences 255 (l.foldl hit c) c).card = l.length ↔ (l.map Prod.fst).Nodup ∧ ∀ e ∈ l, e.2 % 256 ≠ 0 := by
  have hcount : (l.map Prod.fst).Nodup →
      ((differences 255 (l.foldl hit c) c).card = l.length ↔ ∀ e ∈ l, e.2 % 256 ≠ 0) := by
    intro hnodup
    rw [card_differences_hits hc hl hnodup, List.length_filter_eq_length_iff]
    simp only [decide_eq_true_eq]
  constructor
  · intro hcard
    have hplaces : (l.map fun e => e.1.toNat).toFinset.card = (l.map fun e => e.1.toNat).length := by
      apply le_antisymm (List.toFinset_card_le _)
      rw [List.length_map, ← hcard]
      exact card_le_card (differences_hits_subset c l)
    have hnodup : (l.map Prod.fst).Nodup := by
      have htoNat : ((l.map Prod.fst).map Int.toNat).Nodup := by
        rw [List.map_map]
        exact Multiset.coe_nodup.mp (Multiset.toFinset_card_eq_card_iff_nodup.mp hplaces)
      exact htoNat.of_map _
    exact ⟨hnodup, (hcount hnodup).mp hcard⟩
  · intro h
    exact (hcount h.1).mpr h.2

end ReedSolomon
