import ReedSolomon.Imp.Machine

/-!
# Scopes

The parts of a program see different arrays: a function the global ones and its own, a loop the arrays it names. A
`Scope` says under which names a part finds its arrays in a larger machine, and `within` runs it there: the part works
on its arrays, all others stay as they are, and what it notes is noted behind what was noted before.
-/

namespace Imp

/-- A name for every array of the part. -/
structure Scope {ν ν' : Type} (dims : ν → List ℕ) (dims' : ν' → List ℕ) where
  name : ν → ν'
  /-- the array of the part with the given name -/
  find : ν' → Option ν
  find_eq : ∀ {a b}, find b = some a ↔ name a = b
  dims_eq : ∀ a, dims' (name a) = dims a

/-- What is noted, with other names. -/
def Fault.rename {ν ν' : Type} (name : ν → ν') : Fault ν → Fault ν'
  | .load a idx => .load (name a) idx
  | .store a idx => .store (name a) idx
  | .unset a idx => .unset (name a) idx
  | .operand v => .operand v

namespace Scope

variable {ν ν' : Type} {dims : ν → List ℕ} {dims' : ν' → List ℕ} (S : Scope dims dims')

@[simp] theorem find_name (a : ν) : S.find (S.name a) = some a := S.find_eq.mpr rfl

/-- What the part sees. -/
def view (m : Machine dims') : Machine dims where
  cell a := m.cell (S.name a)
  inBounds a idx v h := by
    rw [← S.dims_eq]
    exact m.inBounds _ idx v h
  junk a := m.junk (S.name a)
  faults := []

/-- The larger machine once the part has come to `s`. -/
def update (m : Machine dims') (s : Machine dims) : Machine dims' where
  cell b := (S.find b).elim (m.cell b) s.cell
  inBounds b idx v h := by
    cases hfind : S.find b with
    | none =>
      rw [hfind] at h
      exact m.inBounds b idx v h
    | some a =>
      rw [hfind] at h
      rw [← S.find_eq.mp hfind, S.dims_eq]
      exact s.inBounds a idx v h
  junk := m.junk
  faults := m.faults ++ s.faults.map (Fault.rename S.name)

/-- The part as a program over the larger machine. -/
def within {α : Type} (c : Prog (Machine dims) α) : Prog (Machine dims') α := fun m =>
  ((c (S.view m)).1, S.update m (c (S.view m)).2)

variable {S} {m : Machine dims'} {s : Machine dims}

@[simp] theorem cell_view (a : ν) : (S.view m).cell a = m.cell (S.name a) := rfl

@[simp] theorem faults_view : (S.view m).faults = [] := rfl

@[simp] theorem cell_update (a : ν) : (S.update m s).cell (S.name a) = s.cell a := by
  simp [update]

theorem cell_update_of_none {b : ν'} (h : S.find b = none) : (S.update m s).cell b = m.cell b := by
  simp [update, h]

theorem faults_update (h : s.faults = []) : (S.update m s).faults = m.faults := by
  simp [update, h]

theorem view_update (hjunk : s.junk = (S.view m).junk) : S.view (S.update m s) = s.forget := by
  simp only [view, Machine.forget, Machine.mk.injEq, and_true]
  exact ⟨funext fun a => cell_update a, hjunk.symm⟩

theorem wp_within {α : Type} {c : Prog (Machine dims) α} {Q : α → Machine dims' → Prop} :
    wp (S.within c) Q m ↔ wp c (fun a s => Q a (S.update m s)) (S.view m) := Iff.rfl

theorem wp_within_noted {α : Type} (c : Prog (Machine dims) α) {l : List (Fault ν')} (h : l <+: m.faults) :
    wp (S.within c) (fun _ m' => l <+: m'.faults) m :=
  wp_within.mpr (h.trans (List.prefix_append _ _))

end Scope

end Imp
