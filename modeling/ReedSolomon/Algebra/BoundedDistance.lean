import Mathlib.InformationTheory.Hamming
import Mathlib.Algebra.Group.Subgroup.Defs

/-!
# Decoding within a distance

A code is a set of words over the places `ι`. If different words of it are more than `2 * t` places apart, at most
one of them is within `t` places of a given word. The decoder `nearest` moves to that one, and leaves a word alone
that has none; it commutes with every symmetry of the code (`nearest_symmetry`).
-/

namespace BoundedDistance

variable {ι β : Type*} [Fintype ι] [DecidableEq β] {C : Set (ι → β)} {t : ℕ} {x v : ι → β}

/-- Different words of the code are more than `2 * t` places apart. -/
def Separated (C : Set (ι → β)) (t : ℕ) : Prop := ∀ v ∈ C, ∀ w ∈ C, hammingDist v w ≤ 2 * t → v = w

/-- Some word of the code is within `t` places. -/
def InReach (C : Set (ι → β)) (t : ℕ) (x : ι → β) : Prop := ∃ v ∈ C, hammingDist x v ≤ t

open Classical in
/-- The word of the code within `t` places, or the word itself. -/
noncomputable def nearest (C : Set (ι → β)) (t : ℕ) (x : ι → β) : ι → β :=
  if h : InReach C t x then h.choose else x

theorem nearest_of_far (h : ¬ InReach C t x) : nearest C t x = x := dif_neg h

theorem nearest_mem (h : InReach C t x) : nearest C t x ∈ C := by
  rw [nearest, dif_pos h]
  exact h.choose_spec.1

theorem hammingDist_nearest (h : InReach C t x) : hammingDist x (nearest C t x) ≤ t := by
  rw [nearest, dif_pos h]
  exact h.choose_spec.2

theorem nearest_eq (hC : Separated C t) (hv : v ∈ C) (hx : hammingDist x v ≤ t) : nearest C t x = v := by
  have h : InReach C t x := ⟨v, hv, hx⟩
  refine hC _ (nearest_mem h) _ hv ?_
  calc hammingDist (nearest C t x) v
      ≤ hammingDist x (nearest C t x) + hammingDist x v := hammingDist_triangle_left _ _ _
    _ ≤ 2 * t := by
      have := hammingDist_nearest h
      omega

/-- A map of words that keeps the distances and permutes the code. -/
structure Symmetry (C : Set (ι → β)) (f : (ι → β) → ι → β) : Prop where
  dist : ∀ v w, hammingDist (f v) (f w) = hammingDist v w
  mem : ∀ v ∈ C, f v ∈ C
  onto : ∀ v ∈ C, ∃ w ∈ C, f w = v

namespace Symmetry

variable {f : (ι → β) → ι → β}

theorem inReach_iff (hf : Symmetry C f) (x : ι → β) : InReach C t (f x) ↔ InReach C t x := by
  constructor
  · intro h
    obtain ⟨v, hv, hdist⟩ := h
    obtain ⟨w, hw, rfl⟩ := hf.onto v hv
    exact ⟨w, hw, by rwa [hf.dist] at hdist⟩
  · intro h
    obtain ⟨v, hv, hdist⟩ := h
    exact ⟨f v, hf.mem v hv, by rwa [hf.dist]⟩

theorem mem_iff (hf : Symmetry C f) (x : ι → β) : f x ∈ C ↔ x ∈ C := by
  have h := hf.inReach_iff (t := 0) x
  simpa [InReach] using h

theorem nearest_symmetry (hC : Separated C t) (hf : Symmetry C f) (x : ι → β) :
    nearest C t (f x) = f (nearest C t x) := by
  by_cases h : InReach C t x
  · refine nearest_eq hC (hf.mem _ (nearest_mem h)) ?_
    rw [hf.dist]
    exact hammingDist_nearest h
  · rw [nearest_of_far h, nearest_of_far (mt (hf.inReach_iff x).mp h)]

theorem add {α : Type*} [AddGroup α] [DecidableEq α] {S : AddSubgroup (ι → α)} {c : ι → α} (hc : c ∈ S) :
    Symmetry (S : Set (ι → α)) fun v => v + c where
  dist _ _ := hammingDist_comp (fun i a => a + c i) fun i => add_left_injective (c i)
  mem _ hv := S.add_mem hv hc
  onto v hv := ⟨v - c, S.sub_mem hv hc, sub_add_cancel v c⟩

/-- Moving the places, for a code that is closed under it in both directions. -/
theorem comp {e : Equiv.Perm ι} (hmem : ∀ v ∈ C, v ∘ e ∈ C) (hinv : ∀ v ∈ C, v ∘ e.symm ∈ C) :
    Symmetry C fun v => v ∘ e where
  dist v w := by
    refine Finset.card_equiv e fun i => ?_
    simp
  mem := hmem
  onto v hv := ⟨v ∘ e.symm, hinv v hv, by rw [Function.comp_assoc, Equiv.symm_comp_self, Function.comp_id]⟩

end Symmetry

end BoundedDistance
