import Mathlib.Order.Filter.AtTopBot.Basic
import ReedSolomon.Main.Injection

/-!
# Where the injection loop ends

Whether the loop ends is a matter of the stream of `rand()`: it has to come to places that were not hit before.
`finished` is the reading of the stream by a loop that ends within a number of passes. Where every tail of the stream
holds `n` places (`Spreads`), each loop that makes at most `n` hits ends, and so does everything that is put
together from such loops (`Settles`): from some number of passes on the result is there and stays the same.
-/

open Filter Finset

namespace ReedSolomon

/-! ### Results that come with enough passes -/

/-- From some number of passes on there is a result, always the same. -/
def Settles {α : Type} (f : ℕ → Option α) : Prop := ∃ a, ∀ᶠ n in atTop, f n = some a

section Settles

variable {α β : Type} {f : ℕ → Option α}

theorem Settles.pure (a : α) : Settles fun _ => some a := ⟨a, Eventually.of_forall fun _ => rfl⟩

theorem Settles.bind {g : ℕ → α → Option β} (hf : Settles f) (hg : ∀ a, Settles fun n => g n a) :
    Settles fun n => (f n).bind (g n) := by
  obtain ⟨a, ha⟩ := hf
  obtain ⟨b, hb⟩ := hg a
  refine ⟨b, ?_⟩
  filter_upwards [ha, hb] with n hfn hgn
  rw [hfn, Option.bind_some, hgn]

theorem Settles.map (g : α → β) (hf : Settles f) : Settles fun n => (f n).map g := by
  obtain ⟨a, ha⟩ := hf
  refine ⟨g a, ?_⟩
  filter_upwards [ha] with n hn
  rw [hn, Option.map_some]

/-- `F p j` is the result of the first `j` passes of a loop. -/
theorem Settles.loop (F : ℕ → ℕ → Option α) {g : ℕ → ℕ → α → Option α} {a : α} (hzero : ∀ p, F p 0 = some a)
    (hsucc : ∀ p j, F p (j + 1) = (F p j).bind (g p j)) {n : ℕ} (hg : ∀ j < n, ∀ x, Settles fun p => g p j x) :
    Settles fun p => F p n := by
  induction n with
  | zero =>
    simp only [hzero]
    exact .pure a
  | succ n ih =>
    simp only [hsucc]
    exact (ih fun j hj => hg j (by omega)).bind (hg n (Nat.lt_succ_self n))

end Settles

/-! ### One loop -/

namespace Injected

variable {rand : ℕ → ℤ} {i : ℕ} {s : Injected}

theorem run_of_not_lt (h : ¬ s.hits.length < i) (n : ℕ) : run rand i n s = s := by
  cases n with
  | zero => rfl
  | succ n => exact if_neg h

theorem run_add (n n' : ℕ) (s : Injected) : run rand i (n + n') s = run rand i n' (run rand i n s) := by
  induction n generalizing s with
  | zero => rw [Nat.zero_add, run]
  | succ n ih =>
    by_cases h : s.hits.length < i
    · rw [show n + 1 + n' = n + n' + 1 by omega, run_of_lt h, run_of_lt h, ih]
    · rw [run_of_not_lt h, run_of_not_lt h, run_of_not_lt h]

theorem mem_run (n : ℕ) {e : ℤ × ℤ} (he : e ∈ (run rand i n s).hits) :
    e ∈ s.hits ∨ ∃ k, e = (rand k % 256, rand (k + 1)) := by
  induction n generalizing s with
  | zero => exact Or.inl he
  | succ n ih =>
    unfold run at he
    split_ifs at he
    · rcases ih he with hmem | hnew
      · by_cases hplace : s.place rand ∈ s.places
        · rw [next_of_mem hplace] at hmem
          exact Or.inl hmem
        · rw [hits_next hplace, List.mem_append, List.mem_singleton] at hmem
          rcases hmem with hold | rfl
          · exact Or.inl hold
          · exact Or.inr ⟨s.drawn, rfl⟩
      · exact Or.inr hnew
    · exact Or.inl he

theorem exists_hit (hs : s.hits.length < i) {j : ℕ} (hj : rand (s.drawn + j) % 256 ∉ s.places) :
    ∃ n, (run rand i n s).hits.length = s.hits.length + 1 := by
  induction j generalizing s with
  | zero =>
    refine ⟨1, ?_⟩
    rw [run_of_lt hs, run, hits_next hj, List.length_append, List.length_singleton]
  | succ j ih =>
    by_cases hplace : s.place rand ∈ s.places
    · have hnext := next_of_mem hplace
      obtain ⟨n, hn⟩ := ih (s := s.next rand) (by rw [hnext]; exact hs) (by
        rw [hnext]
        show rand (s.drawn + 1 + j) % 256 ∉ s.places
        rwa [show s.drawn + 1 + j = s.drawn + (j + 1) by omega])
      refine ⟨n + 1, ?_⟩
      rw [run_of_lt hs, hn, hnext]
    · refine ⟨1, ?_⟩
      rw [run_of_lt hs, run, hits_next hplace, List.length_append, List.length_singleton]

end Injected

/-- Every tail of the stream holds `n` places. -/
def Spreads (rand : ℕ → ℤ) (n : ℕ) : Prop :=
  ∀ places : Finset ℤ, places.card < n → ∀ d, ∃ j, rand (d + j) % 256 ∉ places

/-- What a loop that begins at `drawn` has read once it has ended. -/
def finished (rand : ℕ → ℤ) (i passes drawn : ℕ) : Option Injected :=
  if (Injected.run (fun n => rand (drawn + n)) i passes .none).hits.length < i then none
  else some (Injected.run (fun n => rand (drawn + n)) i passes .none)

section Finished

variable {rand : ℕ → ℤ} {i n : ℕ}

theorem Spreads.tail (h : Spreads rand n) (d : ℕ) : Spreads (fun k => rand (d + k)) n := by
  intro places hcard d'
  obtain ⟨j, hj⟩ := h places hcard (d + d')
  exact ⟨j, by rwa [Nat.add_assoc] at hj⟩

theorem Spreads.exists_run (h : Spreads rand n) (hi : i ≤ n) : ∃ p, ¬ (Injected.run rand i p .none).hits.length < i := by
  suffices hhits : ∀ k ≤ i, ∃ p, (Injected.run rand i p .none).hits.length = k by
    obtain ⟨p, hp⟩ := hhits i le_rfl
    exact ⟨p, by omega⟩
  intro k
  induction k with
  | zero => exact fun _ => ⟨0, rfl⟩
  | succ k ih =>
    intro hk
    obtain ⟨p, hp⟩ := ih (by omega)
    generalize hs : Injected.run rand i p .none = s at hp
    have hcard : s.places.toFinset.card < n := by
      rw [Injected.places, List.toFinset_card_of_nodup s.nodup, List.length_map]
      omega
    obtain ⟨j, hj⟩ := h s.places.toFinset hcard s.drawn
    obtain ⟨q, hq⟩ := Injected.exists_hit (i := i) (by omega) (mt List.mem_toFinset.mpr hj)
    exact ⟨p + q, by rw [Injected.run_add, hs, hq, hp]⟩

theorem settles_finished (h : Spreads rand n) (hi : i ≤ n) (drawn : ℕ) :
    Settles fun passes => finished rand i passes drawn := by
  obtain ⟨p, hp⟩ := (h.tail drawn).exists_run hi
  refine ⟨Injected.run (fun n => rand (drawn + n)) i p .none, ?_⟩
  filter_upwards [eventually_ge_atTop p] with passes hpasses
  obtain ⟨q, rfl⟩ := Nat.exists_eq_add_of_le hpasses
  rw [finished, Injected.run_add, Injected.run_of_not_lt hp, if_neg hp]

theorem length_finished {passes drawn : ℕ} {s : Injected} (h : finished rand i passes drawn = some s) :
    s.hits.length = i ∧ ∀ e ∈ s.hits, ∃ k, e = (rand k % 256, rand (k + 1)) := by
  unfold finished at h
  split_ifs at h with hlt
  obtain rfl := Option.some.inj h
  constructor
  · have hle : (Injected.run (fun n => rand (drawn + n)) i passes .none).hits.length ≤ i :=
      Injected.length_run_le (Nat.zero_le i) passes
    omega
  · intro e he
    rcases Injected.mem_run passes he with hnone | ⟨k, rfl⟩
    · exact absurd hnone List.not_mem_nil
    · exact ⟨drawn + k, rfl⟩

end Finished

/-! ### A stream with all its places in the block -/

/-- A stream that runs through 251 places. -/
def cycling (n : ℕ) : ℤ := (n % 251 : ℕ)

theorem cycling_range (n : ℕ) : 0 ≤ cycling n ∧ cycling n < 251 := by
  have := Nat.mod_lt n (show 0 < 251 by decide)
  unfold cycling
  omega

theorem spreads_cycling {n : ℕ} (hn : n ≤ 251) : Spreads cycling n := by
  intro places hcard d
  -- one of the 251 places is missing
  obtain ⟨k, hk, hmissing⟩ : ∃ k < 251, ((k : ℕ) : ℤ) ∉ places := by
    by_contra hall
    push Not at hall
    have hsub : (range 251).map Nat.castEmbedding ⊆ places := by
      intro p hp
      obtain ⟨k, hk, rfl⟩ := mem_map.mp hp
      exact hall k (mem_range.mp hk)
    have := card_le_card hsub
    rw [card_map, card_range] at this
    omega
  refine ⟨250 * d + k, ?_⟩
  have hcycle : cycling (d + (250 * d + k)) % 256 = k := by
    unfold cycling
    omega
  rwa [hcycle]

end ReedSolomon
