import Mathlib.Data.Int.Bitwise
import Mathlib.Tactic.Common

/-!
# Array programs

A small imperative language as a state monad: a `Machine` holds declared integer arrays, a program
loads and stores their cells, and the machine notes every access a careful reader would object to.

* A load returns the cell's value. A load outside the declared bounds, or of a cell nothing was
  stored in, returns an arbitrary value (`junk`) and is noted.
* A store outside the declared bounds has no effect and is noted.
* `expect` notes a value that does not satisfy what the program text takes for granted.

A cell that holds a value is inside the bounds (`Machine.inBounds`), so a proof that a cell holds a
value also proves that reading it is legal.

`wp c Q m` says that running `c` from `m` ends in `Q`; the rules below run a program symbolically,
and `wp_forUp`, `wp_forDown` are the invariant rules of the two counting loops. `Frame W m m'` says
that only arrays in `W` changed and nothing was noted.
-/

namespace Imp

/-- Every index is inside the declared dimension at its place. -/
def InBounds : List ℕ → List ℤ → Prop
  | [], [] => True
  | n :: ns, i :: is => (0 ≤ i ∧ i < n) ∧ InBounds ns is
  | [], _ :: _ => False
  | _ :: _, [] => False

instance InBounds.decidable : ∀ ns is, Decidable (InBounds ns is)
  | [], [] => isTrue trivial
  | n :: ns, i :: is =>
    have := InBounds.decidable ns is
    inferInstanceAs (Decidable ((0 ≤ i ∧ i < n) ∧ InBounds ns is))
  | [], _ :: _ => isFalse id
  | _ :: _, [] => isFalse id

@[simp] theorem inBounds_nil : InBounds [] [] := trivial

@[simp] theorem inBounds_cons (n : ℕ) (ns : List ℕ) (i : ℤ) (is : List ℤ) :
    InBounds (n :: ns) (i :: is) ↔ (0 ≤ i ∧ i < n) ∧ InBounds ns is := Iff.rfl

/-- What a machine notes. -/
inductive Fault (ν : Type)
  /-- a load outside the declared bounds -/
  | load (a : ν) (idx : List ℤ)
  /-- a store outside the declared bounds -/
  | store (a : ν) (idx : List ℤ)
  /-- a load of a cell nothing was stored in -/
  | unset (a : ν) (idx : List ℤ)
  /-- a value that is not what the program text takes for granted -/
  | operand (v : ℤ)
  deriving DecidableEq, Repr

/-- The accesses outside the declared bounds. -/
def Fault.OutOfRange {ν : Type} : Fault ν → Prop
  | .load _ _ => True
  | .store _ _ => True
  | .unset _ _ => False
  | .operand _ => False

structure Machine {ν : Type} (dims : ν → List ℕ) where
  /-- `none`: nothing has been stored here. -/
  cell : ν → List ℤ → Option ℤ
  inBounds : ∀ a idx v, cell a idx = some v → InBounds (dims a) idx
  /-- What a load finds where nothing was stored, or outside the bounds. -/
  junk : ν → List ℤ → ℤ
  faults : List (Fault ν)

namespace Machine

variable {ν : Type} [DecidableEq ν] {dims : ν → List ℕ}

/-- Nothing stored, nothing noted. -/
def fresh (dims : ν → List ℕ) : Machine dims where
  cell _ _ := none
  inBounds _ _ _ h := by simp at h
  junk _ _ := 0
  faults := []

/-- Nothing stored; the memory holds `junk`. -/
def start (junk : ν → List ℤ → ℤ) : Machine dims := { fresh dims with junk := junk }

def put (m : Machine dims) (a : ν) (idx : List ℤ) (v : ℤ) (h : InBounds (dims a) idx) :
    Machine dims where
  cell b j := if b = a ∧ j = idx then some v else m.cell b j
  inBounds b j w hw := by
    split_ifs at hw with hbj
    · obtain ⟨rfl, rfl⟩ := hbj
      exact h
    · exact m.inBounds b j w hw
  junk := m.junk
  faults := m.faults

def record (m : Machine dims) (f : Fault ν) : Machine dims := { m with faults := m.faults ++ [f] }

/-- The same machine with nothing noted. -/
def forget (m : Machine dims) : Machine dims := { m with faults := [] }

/-- The arrays of `l` as after their declaration: nothing stored. -/
def undefine (m : Machine dims) (l : List ν) : Machine dims where
  cell a idx := if a ∈ l then none else m.cell a idx
  inBounds a idx v hv := by
    split_ifs at hv
    exact m.inBounds a idx v hv
  junk := m.junk
  faults := m.faults

/-- The value a load of the cell returns. -/
def val (m : Machine dims) (a : ν) (idx : List ℤ) : ℤ := (m.cell a idx).getD (m.junk a idx)

omit [DecidableEq ν] in
theorem cell_of_not_inBounds (m : Machine dims) {a : ν} {idx : List ℤ} (h : ¬ InBounds (dims a) idx) :
    m.cell a idx = none :=
  Option.eq_none_iff_forall_ne_some.mpr fun v hv => h (m.inBounds a idx v hv)

theorem cell_put (m : Machine dims) (a b : ν) (idx j : List ℤ) (v : ℤ)
    (h : InBounds (dims a) idx) :
    (m.put a idx v h).cell b j = if b = a ∧ j = idx then some v else m.cell b j := rfl

@[simp] theorem cell_put_self (m : Machine dims) (a : ν) (idx : List ℤ) (v : ℤ)
    (h : InBounds (dims a) idx) : (m.put a idx v h).cell a idx = some v := by
  simp [cell_put]

theorem cell_put_of_ne (m : Machine dims) {a b : ν} (idx : List ℤ) (v : ℤ)
    (h : InBounds (dims a) idx) (hne : b ≠ a) : (m.put a idx v h).cell b = m.cell b := by
  funext j
  simp [cell_put, hne]

theorem cell_put_of_idx (m : Machine dims) {a : ν} {idx j : List ℤ} (v : ℤ)
    (h : InBounds (dims a) idx) (hne : j ≠ idx) : (m.put a idx v h).cell a j = m.cell a j := by
  simp [cell_put, hne]

@[simp] theorem put_put (m : Machine dims) (a : ν) (idx : List ℤ) (v w : ℤ) (h h' : InBounds (dims a) idx) :
    (m.put a idx v h).put a idx w h' = m.put a idx w h := by
  simp only [put, mk.injEq, and_true]
  funext b j
  split_ifs <;> rfl

@[simp] theorem faults_put (m : Machine dims) (a : ν) (idx : List ℤ) (v : ℤ)
    (h : InBounds (dims a) idx) : (m.put a idx v h).faults = m.faults := rfl

@[simp] theorem junk_put (m : Machine dims) (a : ν) (idx : List ℤ) (v : ℤ)
    (h : InBounds (dims a) idx) : (m.put a idx v h).junk = m.junk := rfl

omit [DecidableEq ν] in
@[simp] theorem cell_record (m : Machine dims) (f : Fault ν) : (m.record f).cell = m.cell := rfl

omit [DecidableEq ν] in
theorem val_of_cell {m : Machine dims} {a : ν} {idx : List ℤ} {v : ℤ}
    (h : m.cell a idx = some v) : m.val a idx = v := by
  simp [val, h]

end Machine

/-! ### Programs -/

/-- A program over states `σ` returning an `α`. -/
def Prog (σ α : Type) : Type := σ → α × σ

namespace Prog

variable {σ α β : Type}

instance : Monad (Prog σ) where
  pure a s := (a, s)
  bind c f s := f (c s).1 (c s).2

instance : LawfulMonad (Prog σ) := LawfulMonad.mk' _ (fun _ => rfl) (fun _ _ => rfl) (fun _ _ _ => rfl)

theorem ite_bind (p : Prop) [Decidable p] (c d : Prog σ α) (f : α → Prog σ β) :
    (if p then c else d) >>= f = if p then c >>= f else d >>= f := by
  split_ifs <;> rfl

/-- The final state of a run. -/
def exec (c : Prog σ α) (s : σ) : σ := (c s).2

/-- The value a run returns. -/
def eval (c : Prog σ α) (s : σ) : α := (c s).1

end Prog

section Loops

variable {σ α : Type}

/-- `n` passes of `body`, the loop variable counting up from `i`. -/
def iterUp (body : ℕ → α → Prog σ α) : ℕ → ℕ → α → Prog σ α
  | 0, _, a => pure a
  | n + 1, i, a => do
    let a ← body i a
    iterUp body n (i + 1) a

/-- `for (i = lo; i < hi; i++)`, with the locals the body changes passed along. -/
def forUp (lo hi : ℕ) (a : α) (body : ℕ → α → Prog σ α) : Prog σ α := iterUp body (hi - lo) lo a

/-- `for (i = lo; i < hi; i++)` over a body that changes no local. -/
def forEach (lo hi : ℕ) (body : ℕ → Prog σ Unit) : Prog σ Unit := forUp lo hi () fun i _ => body i

/-- `for (i = hi - 1; i >= lo; i--)`. -/
def forDown (lo : ℕ) : ℕ → (ℕ → Prog σ Unit) → Prog σ Unit
  | 0, _ => pure ()
  | n + 1, body => if lo ≤ n then do body n; forDown lo n body else pure ()

theorem forDown_split {body : ℕ → Prog σ Unit} {lo i hi : ℕ} (hlo : lo ≤ i) (h : i ≤ hi) :
    forDown lo hi body = (forDown i hi body >>= fun _ => forDown lo i body) := by
  induction hi with
  | zero =>
    obtain rfl : i = 0 := by omega
    rfl
  | succ n ih =>
    rcases Nat.lt_or_ge n i with hlt | hge
    · obtain rfl : i = n + 1 := by omega
      conv_rhs => rw [forDown, if_neg (by omega)]
      rfl
    · conv_lhs => rw [forDown, if_pos (hlo.trans hge), ih hge]
      conv_rhs => rw [forDown, if_pos hge]
      rfl

/-- `if (c) x`. -/
def ifThen (c : Prop) [Decidable c] (x : Prog σ Unit) : Prog σ Unit := if c then x else pure ()

/-- `if (c) x else y`. -/
def ifThenElse (c : Prop) [Decidable c] (x y : Prog σ α) : Prog σ α := if c then x else y

/-- `c && d`: the second condition is evaluated only when the first one holds. -/
def andAlso (c d : Prog σ Bool) : Prog σ Bool := do if (← c) then d else pure false

end Loops

section Access

variable {ν : Type} [DecidableEq ν] {dims : ν → List ℕ}

def load (a : ν) (idx : List ℤ) : Prog (Machine dims) ℤ := fun m =>
  match m.cell a idx with
  | some v => (v, m)
  | none =>
    (m.junk a idx, m.record (if InBounds (dims a) idx then .unset a idx else .load a idx))

def store (a : ν) (idx : List ℤ) (v : ℤ) : Prog (Machine dims) Unit := fun m =>
  if h : InBounds (dims a) idx then ((), m.put a idx v h) else ((), m.record (.store a idx))

/-- The declaration of local arrays: their cells hold nothing. -/
def declare (l : List ν) : Prog (Machine dims) Unit := fun m => ((), m.undefine l)

/-- `v`, noted unless it is at least `lo` and below `hi`. -/
def expect (lo hi : ℤ) (v : ℤ) : Prog (Machine dims) ℤ := fun m =>
  if lo ≤ v ∧ v < hi then (v, m) else (v, m.record (.operand v))

/-- C's `v % n`, noted when the left operand is negative. -/
def rem (v n : ℤ) : Prog (Machine dims) ℤ := fun m =>
  if 0 ≤ v then (v.tmod n, m) else (v.tmod n, m.record (.operand v))

end Access

/-! ### Weakest preconditions -/

/-- Running `c` from `s` ends in `Q`. -/
def wp {σ α : Type} (c : Prog σ α) (Q : α → σ → Prop) (s : σ) : Prop := Q (c s).1 (c s).2

section Rules

variable {σ α β : Type} {Q R : α → σ → Prop} {s : σ}

theorem wp_mono {c : Prog σ α} (h : wp c Q s) (hQ : ∀ a t, Q a t → R a t) : wp c R s := hQ _ _ h

theorem wp_iff_run {c : Prog σ α} : wp c Q s ↔ Q (c.eval s) (c.exec s) := Iff.rfl

theorem exec_eq (c : Prog σ α) : c.exec s = (c s).2 := rfl

theorem eval_eq (c : Prog σ α) : c.eval s = (c s).1 := rfl

@[simp] theorem exec_pure (a : α) : (pure a : Prog σ α).exec s = s := rfl

@[simp] theorem eval_pure (a : α) : (pure a : Prog σ α).eval s = a := rfl

@[simp] theorem exec_bind (c : Prog σ α) (f : α → Prog σ β) :
    (c >>= f).exec s = (f (c.eval s)).exec (c.exec s) := rfl

@[simp] theorem eval_bind (c : Prog σ α) (f : α → Prog σ β) :
    (c >>= f).eval s = (f (c.eval s)).eval (c.exec s) := rfl

-- from here on a run is described by its specification only
attribute [irreducible] Prog.exec Prog.eval

@[simp] theorem wp_pure (a : α) : wp (pure a) Q s ↔ Q a s := Iff.rfl

@[simp] theorem wp_bind (c : Prog σ α) (f : α → Prog σ β) (Q : β → σ → Prop) :
    wp (c >>= f) Q s ↔ wp c (fun a t => wp (f a) Q t) s := Iff.rfl

theorem wp_ite (p : Prop) [Decidable p] (c d : Prog σ α) :
    wp (if p then c else d) Q s ↔ if p then wp c Q s else wp d Q s := by
  split_ifs <;> exact Iff.rfl

theorem wp_ifThen_pos {p : Prop} [Decidable p] {c : Prog σ Unit} {Q : Unit → σ → Prop} (h : p) :
    wp (ifThen p c) Q s ↔ wp c Q s := by
  rw [ifThen, if_pos h]

theorem wp_ifThen_neg {p : Prop} [Decidable p] {c : Prog σ Unit} {Q : Unit → σ → Prop} (h : ¬ p) :
    wp (ifThen p c) Q s ↔ Q () s := by
  rw [ifThen, if_neg h]
  exact Iff.rfl

theorem wp_ifThenElse_pos {p : Prop} [Decidable p] {c d : Prog σ α} (h : p) :
    wp (ifThenElse p c d) Q s ↔ wp c Q s := by
  rw [ifThenElse, if_pos h]

theorem wp_ifThenElse_neg {p : Prop} [Decidable p] {c d : Prog σ α} (h : ¬ p) :
    wp (ifThenElse p c d) Q s ↔ wp d Q s := by
  rw [ifThenElse, if_neg h]

theorem wp_andAlso {c d : Prog σ Bool} {Q : Bool → σ → Prop} :
    wp (andAlso c d) Q s ↔ wp c (fun b t => if b then wp d Q t else Q false t) s := by
  simp only [andAlso, wp_bind, wp_ite, wp_pure]

theorem wp_seq {c : Prog σ α} {f : α → Prog σ β} {Q : β → σ → Prop} (h : wp c R s)
    (hf : ∀ a t, R a t → wp (f a) Q t) : wp (c >>= f) Q s := hf _ _ h

theorem wp_seq_run {c : Prog σ α} {f : α → Prog σ β} {Q : β → σ → Prop} (h : wp c R s)
    (hf : R (c.eval s) (c.exec s) → wp (f (c.eval s)) Q (c.exec s)) : wp (c >>= f) Q s := by
  rw [wp_iff_run] at h
  rw [wp_bind, wp_iff_run]
  exact hf h

theorem wp_iterUp {body : ℕ → α → Prog σ α} {I : ℕ → α → σ → Prop} (n i : ℕ) (a : α) (s : σ)
    (h0 : I i a s)
    (step : ∀ k a s, i ≤ k → k < i + n → I k a s → wp (body k a) (I (k + 1)) s) :
    wp (iterUp body n i a) (I (i + n)) s := by
  induction n generalizing i a s with
  | zero => simpa [iterUp] using h0
  | succ n ih =>
    rw [iterUp]
    refine wp_seq (step i a s le_rfl (by omega) h0) fun b t hb => ?_
    have hlast : i + (n + 1) = i + 1 + n := by omega
    rw [hlast]
    exact ih (i + 1) b t hb fun k c u hk hkn => step k c u (by omega) (by omega)

/-- The invariant rule of the upward loop. -/
theorem wp_forUp {body : ℕ → α → Prog σ α} (I : ℕ → α → σ → Prop) {lo hi : ℕ} {a : α}
    (hle : lo ≤ hi) (h0 : I lo a s)
    (step : ∀ i a s, lo ≤ i → i < hi → I i a s → wp (body i a) (I (i + 1)) s) :
    wp (forUp lo hi a body) (I hi) s := by
  have hhi : lo + (hi - lo) = hi := by omega
  rw [forUp, ← hhi]
  simpa [hhi] using wp_iterUp (I := I) (hi - lo) lo a s h0
    fun k b t hk hkn => step k b t hk (by omega)

theorem wp_forEach {body : ℕ → Prog σ Unit} (I : ℕ → σ → Prop) {lo hi : ℕ}
    (hle : lo ≤ hi) (h0 : I lo s)
    (step : ∀ i s, lo ≤ i → i < hi → I i s → wp (body i) (fun _ => I (i + 1)) s) :
    wp (forEach lo hi body) (fun _ => I hi) s :=
  wp_forUp (fun i _ => I i) hle h0 fun i _ s => step i s

theorem wp_forEach_one {body : ℕ → Prog σ Unit} {Q : Unit → σ → Prop} (i : ℕ) :
    wp (forEach i (i + 1) body) Q s ↔ wp (body i) Q s := by
  rw [forEach, forUp, Nat.add_sub_cancel_left]
  exact Iff.rfl

/-- The invariant rule of the downward loop: `I i` holds once the passes `i` and above are done. -/
theorem wp_forDown {body : ℕ → Prog σ Unit} (I : ℕ → σ → Prop) {lo hi : ℕ}
    (hle : lo ≤ hi) (h0 : I hi s)
    (step : ∀ i s, lo ≤ i → i < hi → I (i + 1) s → wp (body i) (fun _ => I i) s) :
    wp (forDown lo hi body) (fun _ => I lo) s := by
  induction hi generalizing s with
  | zero =>
    obtain rfl : lo = 0 := by omega
    simpa [forDown] using h0
  | succ n ih =>
    rw [forDown]
    split_ifs with hlo
    · refine wp_seq (step n s hlo (by omega) h0) fun _ t ht => ?_
      exact ih hlo ht fun i u hi hn => step i u hi (by omega)
    · obtain rfl : lo = n + 1 := by omega
      simpa using h0

end Rules

section AccessRules

variable {ν : Type} [DecidableEq ν] {dims : ν → List ℕ} {m : Machine dims}

omit [DecidableEq ν] in
theorem wp_load {a : ν} {idx : List ℤ} {v : ℤ} {Q : ℤ → Machine dims → Prop}
    (h : m.cell a idx = some v) : wp (load a idx) Q m ↔ Q v m := by
  simp [wp, load, h]

omit [DecidableEq ν] in
theorem wp_load_out {a : ν} {idx : List ℤ} {Q : ℤ → Machine dims → Prop} (h : ¬ InBounds (dims a) idx) :
    wp (load a idx) Q m ↔ Q (m.junk a idx) (m.record (.load a idx)) := by
  simp [wp, load, m.cell_of_not_inBounds h, h]

theorem wp_store {a : ν} {idx : List ℤ} {v : ℤ} {Q : Unit → Machine dims → Prop}
    (h : InBounds (dims a) idx) : wp (store a idx v) Q m ↔ Q () (m.put a idx v h) := by
  simp [wp, store, h]

theorem wp_store_out {a : ν} {idx : List ℤ} {v : ℤ} {Q : Unit → Machine dims → Prop}
    (h : ¬ InBounds (dims a) idx) :
    wp (store a idx v) Q m ↔ Q () (m.record (.store a idx)) := by
  simp [wp, store, h]

omit [DecidableEq ν] in
theorem wp_expect {lo hi v : ℤ} {Q : ℤ → Machine dims → Prop} (h : lo ≤ v ∧ v < hi) :
    wp (expect lo hi v) Q m ↔ Q v m := by
  simp [wp, expect, h]

omit [DecidableEq ν] in
theorem wp_rem {v n : ℤ} {Q : ℤ → Machine dims → Prop} (h : 0 ≤ v) :
    wp (rem v n) Q m ↔ Q (v % n) m := by
  simp [wp, rem, h, Int.tmod_eq_emod_of_nonneg h]

theorem exec_store {a : ν} {idx : List ℤ} (v : ℤ) (h : InBounds (dims a) idx) :
    (store a idx v).exec m = m.put a idx v h := by
  rw [exec_eq, store, dif_pos h]

@[simp] theorem exec_declare (l : List ν) : (declare l).exec m = m.undefine l := by
  rw [exec_eq]
  rfl

@[simp] theorem wp_declare {l : List ν} {Q : Unit → Machine dims → Prop} :
    wp (declare l) Q m ↔ Q () (m.undefine l) := Iff.rfl

end AccessRules

/-! ### Frames -/

/-- Only arrays of `W` changed. -/
structure Keeps {ν : Type} {dims : ν → List ℕ} (W : List ν) (m m' : Machine dims) : Prop where
  cell : ∀ a, a ∉ W → m'.cell a = m.cell a
  junk : m'.junk = m.junk

namespace Keeps

variable {ν : Type} {dims : ν → List ℕ} {W V : List ν} {m m' m'' : Machine dims}

theorem refl (W : List ν) (m : Machine dims) : Keeps W m m := ⟨fun _ _ => rfl, rfl⟩

theorem trans (h : Keeps W m m') (h' : Keeps W m' m'') : Keeps W m m'' :=
  ⟨fun a ha => (h'.cell a ha).trans (h.cell a ha), h'.junk.trans h.junk⟩

theorem mono (h : Keeps W m m') (hW : W ⊆ V) : Keeps V m m' :=
  ⟨fun a ha => h.cell a fun haW => ha (hW haW), h.junk⟩

theorem put [DecidableEq ν] {a : ν} (h : Keeps W m m') (ha : a ∈ W) (idx : List ℤ) (v : ℤ)
    (hb : InBounds (dims a) idx) : Keeps W m (m'.put a idx v hb) :=
  ⟨fun b hbW => (m'.cell_put_of_ne idx v hb fun he => hbW (by rwa [he])).trans (h.cell b hbW), h.junk⟩

theorem record (h : Keeps W m m') (f : Fault ν) : Keeps W m (m'.record f) := ⟨h.cell, h.junk⟩

theorem val_eq {a : ν} (h : Keeps W m m') (ha : a ∉ W) (idx : List ℤ) : m'.val a idx = m.val a idx := by
  rw [Machine.val, Machine.val, h.cell a ha, h.junk]

end Keeps

/-- Only arrays of `W` changed, and nothing was noted. -/
structure Frame {ν : Type} {dims : ν → List ℕ} (W : List ν) (m m' : Machine dims) : Prop where
  cell : ∀ a, a ∉ W → m'.cell a = m.cell a
  junk : m'.junk = m.junk
  faults : m'.faults = m.faults

namespace Frame

variable {ν : Type} {dims : ν → List ℕ} {W V : List ν} {m m' m'' : Machine dims}

theorem refl (W : List ν) (m : Machine dims) : Frame W m m := ⟨fun _ _ => rfl, rfl, rfl⟩

theorem keeps (h : Frame W m m') : Keeps W m m' := ⟨h.cell, h.junk⟩

theorem trans (h : Frame W m m') (h' : Frame W m' m'') : Frame W m m'' :=
  ⟨fun a ha => (h'.cell a ha).trans (h.cell a ha), h'.junk.trans h.junk, h'.faults.trans h.faults⟩

theorem mono (h : Frame W m m') (hW : W ⊆ V) : Frame V m m' :=
  ⟨fun a ha => h.cell a fun haW => ha (hW haW), h.junk, h.faults⟩

theorem put [DecidableEq ν] {a : ν} (h : Frame W m m') (ha : a ∈ W) (idx : List ℤ) (v : ℤ)
    (hb : InBounds (dims a) idx) : Frame W m (m'.put a idx v hb) :=
  ⟨fun b hbW => (m'.cell_put_of_ne idx v hb fun he => hbW (by rwa [he])).trans (h.cell b hbW),
    h.junk, h.faults⟩

theorem undefine (m : Machine dims) (l : List ν) [DecidableEq ν] : Frame l m (m.undefine l) :=
  ⟨fun a ha => by funext idx; exact if_neg ha, rfl, rfl⟩

theorem record (h : Frame W m m') (f : Fault ν) : Frame W (m.record f) (m'.record f) :=
  ⟨h.cell, h.junk, congrArg (· ++ [f]) h.faults⟩

end Frame

end Imp
