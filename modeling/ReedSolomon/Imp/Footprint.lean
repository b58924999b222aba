import ReedSolomon.Imp.Machine
import Mathlib.Order.Defs.Unbundled

/-!
# Footprints

What can be read off the text of a program, whatever the machine holds. `Moves R c` says that every run of `c` leads
from a state to a related one; for a preorder `R` it is enough to look at the parts of `c`.

* `Only W c`: `c` changes no cell outside the arrays of `W`.
* `Writes W c`: besides, it forgets nothing that was noted. A store must be to an array of `W`.
* `Inside W c`: `c` changes no cell outside the arrays of `W`, and accesses cells inside the declared bounds only.
* `Spares a idx c`: `c` does not store anything in the cell `idx` of `a`.
-/

namespace Imp

/-! ### Programs within a preorder -/

section Moves

variable {σ α β : Type} {R : σ → σ → Prop}

/-- Every run of `c` leads to a related state. -/
def Moves (R : σ → σ → Prop) (c : Prog σ α) : Prop := ∀ s, R s (c.exec s)

namespace Moves

variable [IsPreorder σ R]

theorem pure (a : α) : Moves R (Pure.pure a : Prog σ α) := by
  intro s
  rw [exec_pure]
  exact refl_of R s

theorem bind {c : Prog σ α} {f : α → Prog σ β} (hc : Moves R c) (hf : ∀ a, Moves R (f a)) : Moves R (c >>= f) := by
  intro s
  rw [exec_bind]
  exact trans_of R (hc s) (hf (c.eval s) (c.exec s))

omit [IsPreorder σ R] in
theorem ifThenElse {p : Prop} [Decidable p] {c d : Prog σ α} (hc : Moves R c) (hd : Moves R d) :
    Moves R (Imp.ifThenElse p c d) := by
  unfold Imp.ifThenElse
  split_ifs
  · exact hc
  · exact hd

theorem forUp {lo hi : ℕ} {a : α} {body : ℕ → α → Prog σ α} (h : ∀ i, lo ≤ i → i < hi → ∀ a, Moves R (body i a)) :
    Moves R (Imp.forUp lo hi a body) := by
  have hiter : ∀ n i a, lo ≤ i → i + n ≤ hi → Moves R (Imp.iterUp body n i a) := by
    intro n
    induction n with
    | zero => exact fun _ a _ _ => pure a
    | succ n ih => exact fun i a hlo hhi => (h i hlo (by omega) a).bind fun b => ih (i + 1) b (by omega) (by omega)
  rcases Nat.le_total lo hi with hle | hle
  · exact hiter (hi - lo) lo a le_rfl (by omega)
  · rw [Imp.forUp, Nat.sub_eq_zero_of_le hle]
    exact pure a

theorem forDown {lo hi : ℕ} {body : ℕ → Prog σ Unit} (h : ∀ i, Moves R (body i)) : Moves R (Imp.forDown lo hi body) := by
  induction hi with
  | zero => exact pure ()
  | succ n ih =>
    unfold Imp.forDown
    split_ifs
    · exact (h n).bind fun _ => ih
    · exact pure ()

end Moves

end Moves

variable {ν : Type} {dims : ν → List ℕ} {W V : List ν} {α β : Type}

/-! ### What is written -/

/-- From every machine, `c` leaves the arrays outside `W` as they are. -/
def Only (W : List ν) (c : Prog (Machine dims) α) : Prop := ∀ m, Keeps W m (c.exec m)

/-- Only arrays of `W` changed, and what was noted stays noted. -/
structure Grew (W : List ν) (m m' : Machine dims) : Prop extends Keeps W m m' where
  faults : m.faults <+: m'.faults

instance : IsPreorder (Machine dims) (Grew W) where
  refl m := ⟨Keeps.refl W m, List.prefix_rfl⟩
  trans _ _ _ h h' := ⟨h.toKeeps.trans h'.toKeeps, h.faults.trans h'.faults⟩

/-- From every machine, `c` changes only arrays of `W` and notes what it notes behind what was noted before. -/
def Writes (W : List ν) (c : Prog (Machine dims) α) : Prop := Moves (Grew W) c

namespace Writes

theorem only {c : Prog (Machine dims) α} (h : Writes W c) : Only W c := fun m => (h m).toKeeps

theorem wp_mem {c : Prog (Machine dims) α} (h : Writes W c) {m : Machine dims} {f : Fault ν} (hf : f ∈ m.faults) :
    wp c (fun _ m' => f ∈ m'.faults) m := wp_iff_run.mpr ((h m).faults.subset hf)

theorem wp_noted {c : Prog (Machine dims) α} (h : Writes W c) {m : Machine dims} {l : List (Fault ν)}
    (hl : l <+: m.faults) : wp c (fun _ m' => l <+: m'.faults) m := wp_iff_run.mpr (hl.trans (h m).faults)

theorem mono {c : Prog (Machine dims) α} (h : Writes W c) (hW : W ⊆ V) : Writes V c :=
  fun m => ⟨(h m).toKeeps.mono hW, (h m).faults⟩

theorem pure (a : α) : Writes W (Pure.pure a : Prog (Machine dims) α) := Moves.pure a

theorem bind {c : Prog (Machine dims) α} {f : α → Prog (Machine dims) β} (hc : Writes W c) (hf : ∀ a, Writes W (f a)) :
    Writes W (c >>= f) := Moves.bind hc hf

theorem record (m : Machine dims) (f : Fault ν) : Grew W m (m.record f) :=
  ⟨(Keeps.refl W m).record f, List.prefix_append _ _⟩

theorem load (a : ν) (idx : List ℤ) : Writes W (Imp.load a idx : Prog (Machine dims) ℤ) := by
  intro m
  rw [exec_eq, Imp.load]
  split
  · exact refl_of (Grew W) m
  · exact record m _

theorem store [DecidableEq ν] {a : ν} (ha : a ∈ W) (idx : List ℤ) (v : ℤ) :
    Writes W (Imp.store a idx v : Prog (Machine dims) Unit) := by
  intro m
  rw [exec_eq, Imp.store]
  split_ifs with hb
  · exact ⟨(Keeps.refl W m).put ha idx v hb, List.prefix_rfl⟩
  · exact record m _

theorem rem (v n : ℤ) : Writes W (Imp.rem v n : Prog (Machine dims) ℤ) := by
  intro m
  rw [exec_eq, Imp.rem]
  split_ifs
  · exact refl_of (Grew W) m
  · exact record m _

theorem ifThenElse {p : Prop} [Decidable p] {c d : Prog (Machine dims) α} (hc : Writes W c) (hd : Writes W d) :
    Writes W (Imp.ifThenElse p c d) := Moves.ifThenElse hc hd

theorem forUp {lo hi : ℕ} {a : α} {body : ℕ → α → Prog (Machine dims) α} (h : ∀ i a, Writes W (body i a)) :
    Writes W (Imp.forUp lo hi a body) := Moves.forUp fun i _ _ => h i

theorem forEach {lo hi : ℕ} {body : ℕ → Prog (Machine dims) Unit} (h : ∀ i, Writes W (body i)) :
    Writes W (Imp.forEach lo hi body) := forUp fun i _ => h i

theorem forDown {lo hi : ℕ} {body : ℕ → Prog (Machine dims) Unit} (h : ∀ i, Writes W (body i)) :
    Writes W (Imp.forDown lo hi body) := Moves.forDown h

end Writes

/-! ### Bounds -/

/-- Only arrays of `W` changed, and no access outside the declared bounds was noted. -/
structure Contained (W : List ν) (m m' : Machine dims) : Prop extends Keeps W m m' where
  faults : ∀ f ∈ m'.faults, f.OutOfRange → f ∈ m.faults

theorem Contained.mono {m m' : Machine dims} (h : Contained W m m') (hW : W ⊆ V) : Contained V m m' :=
  ⟨h.toKeeps.mono hW, h.faults⟩

instance : IsPreorder (Machine dims) (Contained W) where
  refl m := ⟨Keeps.refl W m, fun _ hf _ => hf⟩
  trans _ _ _ h h' := ⟨h.toKeeps.trans h'.toKeeps, fun f hf hout => h.faults f (h'.faults f hf hout) hout⟩

/-- From every machine, `c` changes only arrays of `W` and stays inside the declared bounds. -/
def Inside (W : List ν) (c : Prog (Machine dims) α) : Prop := Moves (Contained W) c

namespace Inside

theorem pure (a : α) : Inside W (Pure.pure a : Prog (Machine dims) α) := Moves.pure a

theorem bind {c : Prog (Machine dims) α} {f : α → Prog (Machine dims) β} (hc : Inside W c) (hf : ∀ a, Inside W (f a)) :
    Inside W (c >>= f) := Moves.bind hc hf

theorem load {a : ν} {idx : List ℤ} (hb : InBounds (dims a) idx) :
    Inside W (Imp.load a idx : Prog (Machine dims) ℤ) := by
  intro m
  refine ⟨(Writes.load a idx).only m, fun f hf hout => ?_⟩
  rw [exec_eq, Imp.load] at hf
  split at hf
  · exact hf
  · rw [if_pos hb] at hf
    rcases List.mem_append.mp hf with hold | hnew
    · exact hold
    · rw [List.mem_singleton.mp hnew] at hout
      exact hout.elim

theorem store [DecidableEq ν] {a : ν} {idx : List ℤ} (ha : a ∈ W) (hb : InBounds (dims a) idx) (v : ℤ) :
    Inside W (Imp.store a idx v : Prog (Machine dims) Unit) := by
  intro m
  rw [exec_store v hb]
  exact ⟨(Keeps.refl W m).put ha idx v hb, fun _ hf _ => hf⟩

theorem forUp {lo hi : ℕ} {a : α} {body : ℕ → α → Prog (Machine dims) α}
    (h : ∀ i, lo ≤ i → i < hi → ∀ a, Inside W (body i a)) : Inside W (Imp.forUp lo hi a body) := Moves.forUp h

theorem forEach {lo hi : ℕ} {body : ℕ → Prog (Machine dims) Unit} (h : ∀ i, lo ≤ i → i < hi → Inside W (body i)) :
    Inside W (Imp.forEach lo hi body) := forUp fun i hlo hhi _ => h i hlo hhi

end Inside

/-! ### One cell -/

/-- The cell is what it was. -/
def Spared (a : ν) (idx : List ℤ) (m m' : Machine dims) : Prop := m'.cell a idx = m.cell a idx

instance (a : ν) (idx : List ℤ) : IsPreorder (Machine dims) (Spared a idx) where
  refl _ := rfl
  trans _ _ _ h h' := h'.trans h

/-- From every machine, `c` leaves the cell as it is. -/
def Spares (a : ν) (idx : List ℤ) (c : Prog (Machine dims) α) : Prop := Moves (Spared a idx) c

namespace Spares

variable {a : ν} {idx : List ℤ}

theorem pure (x : α) : Spares a idx (Pure.pure x : Prog (Machine dims) α) := Moves.pure x

theorem bind {c : Prog (Machine dims) α} {f : α → Prog (Machine dims) β} (hc : Spares a idx c)
    (hf : ∀ x, Spares a idx (f x)) : Spares a idx (c >>= f) := Moves.bind hc hf

theorem load (b : ν) (j : List ℤ) : Spares a idx (Imp.load b j : Prog (Machine dims) ℤ) := by
  intro m
  rw [exec_eq, Imp.load]
  split <;> rfl

theorem store [DecidableEq ν] {b : ν} {j : List ℤ} (h : b = a → j ≠ idx) (v : ℤ) :
    Spares a idx (Imp.store b j v : Prog (Machine dims) Unit) := by
  intro m
  rw [exec_eq, Imp.store]
  split_ifs with hb
  · rw [Spared, Machine.cell_put, if_neg]
    rintro ⟨rfl, rfl⟩
    exact h rfl rfl
  · rfl

theorem ifThen {p : Prop} [Decidable p] {c : Prog (Machine dims) Unit} (hc : Spares a idx c) :
    Spares a idx (Imp.ifThen p c) := Moves.ifThenElse hc (pure ())

theorem ifThenElse {p : Prop} [Decidable p] {c d : Prog (Machine dims) α} (hc : Spares a idx c)
    (hd : Spares a idx d) : Spares a idx (Imp.ifThenElse p c d) := Moves.ifThenElse hc hd

theorem forUp {lo hi : ℕ} {x : α} {body : ℕ → α → Prog (Machine dims) α}
    (h : ∀ i, lo ≤ i → i < hi → ∀ y, Spares a idx (body i y)) : Spares a idx (Imp.forUp lo hi x body) := Moves.forUp h

theorem forEach {lo hi : ℕ} {body : ℕ → Prog (Machine dims) Unit}
    (h : ∀ i, lo ≤ i → i < hi → Spares a idx (body i)) : Spares a idx (Imp.forEach lo hi body) :=
  forUp fun i hlo hhi _ => h i hlo hhi

end Spares

end Imp
