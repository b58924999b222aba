import ReedSolomon.Field.Words
import ReedSolomon.Spec.RsEncoder

/-!
# Sixteen bytes at a time

What the loops over the sixteen lanes do to an array whose length need not be a multiple of sixteen: the
lanes behind its end are noted, and change nothing.
-/

open Imp

namespace ReedSolomon

variable {ν : Type} {dims : ν → List ℕ} {m m' : Machine dims} {a : ν}

/-- The array `a` holds `f 0, …, f (n - 1)`. -/
def Holds (m : Machine dims) (a : ν) (n : ℕ) (f : ℕ → ℤ) : Prop := ∀ k < n, m.cell a (line k) = some (f k)

theorem Holds.of_keeps {W : List ν} {n : ℕ} {f : ℕ → ℤ} (h : Holds m a n f) (hk : Keeps W m m') (ha : a ∉ W) :
    Holds m' a n f := fun k hkn => by
  rw [hk.cell a ha]
  exact h k hkn

theorem Holds.val_eq {n : ℕ} {f : ℕ → ℤ} (h : Holds m a n f) {k : ℕ} (hk : k < n) : m.val a (line k) = f k :=
  Machine.val_of_cell (h k hk)

/-- Two machines that differ at most in what was noted. -/
abbrev Same (m m' : Machine dims) : Prop := Keeps [] m m'

variable [DecidableEq ν]

theorem Holds.put {n : ℕ} {f : ℕ → ℤ} (h : Holds m a n f) (p : ℕ) (v : ℤ) (hb : InBounds (dims a) (line p)) :
    Holds (m.put a (line p) v hb) a n (Function.update f p v) := by
  intro k hk
  rcases eq_or_ne k p with rfl | hne
  · rw [Machine.cell_put_self, Function.update_self]
  · rw [Machine.cell_put_of_idx _ _ _ fun he => hne (line_injective he), Function.update_of_ne hne]
    exact h k hk

omit [DecidableEq ν] in
theorem wp_load_val {idx : List ℤ} {Q : ℤ → Machine dims → Prop} (h : ∀ s, Same m s → Q (m.val a idx) s) :
    wp (load a idx) Q m := by
  cases hcell : m.cell a idx with
  | none =>
    have hval : m.val a idx = m.junk a idx := by rw [Machine.val, hcell, Option.getD_none]
    rw [hval] at h
    rw [wp, load, hcell]
    exact h _ ⟨fun _ _ => rfl, rfl⟩
  | some v =>
    rw [wp_load hcell, ← Machine.val_of_cell hcell]
    exact h m (Keeps.refl [] m)

theorem wp_readLanes {c n : ℕ} {f : ℕ → ℤ} {input : Lanes} (hdims : ∀ k : ℕ, InBounds (dims a) (line k) ↔ k < n)
    (hc : c ≤ n) (h : Holds m a c f) (hin : ∀ i < nbByteInput, c + i < n → ((input i).toNat : ℤ) = f (c + i)) :
    wp (readLanes a c input) (fun _ m' => Keeps [a] m m' ∧ Holds m' a (min (c + nbByteInput) n) f) m := by
  refine wp_forEach (fun i s => Keeps [a] m s ∧ Holds s a (min (c + i) n) f) (Nat.zero_le _)
    ⟨Keeps.refl _ _, by rwa [Nat.add_zero, Nat.min_eq_left hc]⟩ fun i s _ hi ⟨hk, hs⟩ => ?_
  by_cases hlt : c + i < n
  · have hb : InBounds (dims a) (line (c + i)) := (hdims _).mpr hlt
    rw [wp_store hb]
    refine ⟨hk.put (List.mem_singleton_self a) _ _ hb, fun k hkn => ?_⟩
    rcases eq_or_ne k (c + i) with rfl | hne
    · rw [Machine.cell_put_self, hin i hi hlt]
    · rw [Machine.cell_put_of_idx _ _ _ fun he => hne (line_injective he)]
      exact hs k (by omega)
  · rw [wp_store_out fun hb => hlt ((hdims _).mp hb)]
    refine ⟨hk.record _, fun k hkn => ?_⟩
    rw [Machine.cell_record]
    exact hs k (by omega)

omit [DecidableEq ν] in
theorem wp_writeLanes (c : ℕ) (output : Lanes) :
    wp (writeLanes a c output)
      (fun (out : Lanes) m' => Same m m' ∧ ∀ i < nbByteInput, out i = BitVec.ofInt 8 (m.val a (line (c + i)))) m := by
  refine wp_forUp (fun n (out : Lanes) s => Same m s ∧ ∀ i < n, out i = BitVec.ofInt 8 (m.val a (line (c + i)))) (Nat.zero_le _)
    ⟨Keeps.refl [] m, fun i hi => absurd hi (Nat.not_lt_zero i)⟩ fun n out s _ _ ⟨hs, hout⟩ => ?_
  rw [wp_bind]
  refine wp_load_val fun s' hs' => ?_
  rw [wp_pure]
  refine ⟨hs.trans hs', fun i hi => ?_⟩
  rcases eq_or_ne i n with rfl | hne
  · rw [Function.update_self, hs.val_eq List.not_mem_nil]
  · rw [Function.update_of_ne hne]
    exact hout i (by omega)

end ReedSolomon
