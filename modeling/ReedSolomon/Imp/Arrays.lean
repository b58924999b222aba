import ReedSolomon.Imp.Machine
import Mathlib.Algebra.Order.Interval.Set.SuccPred
import Mathlib.Data.Nat.SuccPred

/-!
# Loops that rewrite an array

`Wrote m₀ a addr f S m`: from `m₀` to `m` the program stored `f k` in the cell `addr k` of the array `a`,
for every `k` in `S`, and did nothing else. `addr` picks a row or the whole of a one-dimensional array.
The two loop rules ask of a pass that it adds its own index to `S`.
-/

namespace Imp

variable {ν : Type} {dims : ν → List ℕ} {m₀ m : Machine dims} {a : ν} {addr : ℕ → List ℤ}
  {f : ℕ → ℤ} {S : Set ℕ}

structure Wrote (m₀ : Machine dims) (a : ν) (addr : ℕ → List ℤ) (f : ℕ → ℤ) (S : Set ℕ)
    (m : Machine dims) : Prop where
  frame : Frame [a] m₀ m
  new : ∀ k ∈ S, m.cell a (addr k) = some (f k)
  old : ∀ idx, (∀ k ∈ S, idx ≠ addr k) → m.cell a idx = m₀.cell a idx

/-- The cells of a one-dimensional array. -/
abbrev line (k : ℕ) : List ℤ := [(k : ℤ)]

/-- The cells of row `u`. -/
abbrev row (u k : ℕ) : List ℤ := [(u : ℤ), (k : ℤ)]

theorem line_injective : Function.Injective line := fun j k h => by simpa [line] using h

theorem row_injective (u : ℕ) : Function.Injective (row u) := fun j k h => by simpa [row] using h

namespace Wrote

theorem refl (m : Machine dims) : Wrote m a addr f ∅ m :=
  ⟨Frame.refl _ m, fun k hk => absurd hk (Set.notMem_empty k), fun _ _ => rfl⟩

theorem cell_of_notMem (h : Wrote m₀ a addr f S m) (hinj : Function.Injective addr) {k : ℕ} (hk : k ∉ S) :
    m.cell a (addr k) = m₀.cell a (addr k) :=
  h.old _ fun j hj he => hk (by rwa [hinj he])

theorem cell_of_ne (h : Wrote m₀ a addr f S m) {b : ν} (hb : b ≠ a) : m.cell b = m₀.cell b :=
  h.frame.cell b (by simpa using hb)

theorem put [DecidableEq ν] (h : Wrote m₀ a addr f S m) (hinj : Function.Injective addr) (i : ℕ)
    (hb : InBounds (dims a) (addr i)) : Wrote m₀ a addr f (insert i S) (m.put a (addr i) (f i) hb) := by
  refine ⟨h.frame.put (List.mem_singleton_self a) _ _ _, fun k hk => ?_, fun idx hidx => ?_⟩
  · rcases eq_or_ne k i with rfl | hne
    · exact Machine.cell_put_self _ _ _ _ _
    · rw [Machine.cell_put_of_idx _ _ _ fun he => hne (hinj he)]
      exact h.new k (Set.mem_of_mem_insert_of_ne hk hne)
  · rw [Machine.cell_put_of_idx _ _ _ (hidx i (Set.mem_insert i S))]
    exact h.old idx fun k hk => hidx k (Set.mem_insert_of_mem i hk)

theorem skip (h : Wrote m₀ a addr f S m) (hinj : Function.Injective addr) {i : ℕ} (hi : i ∉ S)
    (hcell : m₀.cell a (addr i) = some (f i)) : Wrote m₀ a addr f (insert i S) m := by
  refine ⟨h.frame, fun k hk => ?_, fun idx hidx => h.old idx fun k hk => hidx k (Set.mem_insert_of_mem i hk)⟩
  rcases Set.mem_insert_iff.mp hk with rfl | hkS
  · rw [h.cell_of_notMem hinj hi, hcell]
  · exact h.new k hkS

end Wrote

/-! ### Loop rules -/

theorem wp_forEach_wrote (a : ν) (addr : ℕ → List ℤ) (f : ℕ → ℤ) {body : ℕ → Prog (Machine dims) Unit} {lo hi : ℕ}
    (hle : lo ≤ hi)
    (step : ∀ i s, lo ≤ i → i < hi → Wrote m₀ a addr f (Set.Ico lo i) s →
      wp (body i) (fun _ => Wrote m₀ a addr f (insert i (Set.Ico lo i))) s) :
    wp (forEach lo hi body) (fun _ => Wrote m₀ a addr f (Set.Ico lo hi)) m₀ := by
  refine wp_forEach (fun i => Wrote m₀ a addr f (Set.Ico lo i)) hle ?_ fun i s hi hin hs => ?_
  · rw [Set.Ico_self]
    exact Wrote.refl m₀
  · rw [← Set.insert_Ico_right_eq_Ico_add_one hi]
    exact step i s hi hin hs

/-- The downward loop over the cells `hi - 1, …, lo`, begun where the cells from `hi` to `n` are stored. -/
theorem wp_forDown_wrote {body : ℕ → Prog (Machine dims) Unit} {lo hi n : ℕ} (hle : lo ≤ hi) (hn : hi ≤ n)
    (h : Wrote m₀ a addr f (Set.Ico hi n) m)
    (step : ∀ i s, lo ≤ i → i < hi → Wrote m₀ a addr f (Set.Ico (i + 1) n) s →
      wp (body i) (fun _ => Wrote m₀ a addr f (insert i (Set.Ico (i + 1) n))) s) :
    wp (forDown lo hi body) (fun _ => Wrote m₀ a addr f (Set.Ico lo n)) m := by
  refine wp_forDown (fun i => Wrote m₀ a addr f (Set.Ico i n)) hle h fun i s hi hin hs => ?_
  rw [← Set.insert_Ico_add_one_left_eq_Ico (show i < n by omega)]
  exact step i s hi hin hs

end Imp
