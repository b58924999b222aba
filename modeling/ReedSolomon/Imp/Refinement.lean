import ReedSolomon.Imp.Machine

/-!
# Refinement between array programs

Two programs over different arrays do the same thing when each cell of the first one has an image among
the cells of the second one (`View`), and the two run side by side. The image is a cell of another array at the
same place, and it may keep less of a value than its original, a byte of it for instance (`keep`). A program
that rewrites an array in place can be refined by one that copies it, with a view for the time
before and one for the time after.

`Refines V W S c c'` says so for the runs of `c` in which no arbitrary value is used: from machines that mirror
each other through `V`, the results are related by `S` and the final machines mirror each other through `W`. An
arbitrary value is noted when it is loaded, and notes are never withdrawn, so the rules below compose: each is
about one construct of the language.
-/

namespace Imp

/-- A note on a value used in the program; a store without effect is none. -/
def Fault.onValue {ν : Type} : Fault ν → Bool
  | .load _ _ => true
  | .store _ _ => false
  | .unset _ _ => true
  | .operand _ => true

/-- How many values used so far were noted. -/
def Machine.doubts {ν : Type} {dims : ν → List ℕ} (m : Machine dims) : ℕ := m.faults.countP Fault.onValue

section Doubts

variable {ν : Type} {dims : ν → List ℕ} {m : Machine dims}

theorem doubts_record {f : Fault ν} (hf : f.onValue = true) : (m.record f).doubts = m.doubts + 1 := by
  simp [Machine.doubts, Machine.record, hf]

theorem onValue_load (a : ν) (idx : List ℤ) :
    (if InBounds (dims a) idx then Fault.unset a idx else .load a idx).onValue = true := by
  split_ifs
  · rfl
  · rfl

theorem doubts_record_store {f : Fault ν} (hf : f.onValue = false) : (m.record f).doubts = m.doubts := by
  simp [Machine.doubts, Machine.record, hf]

theorem doubts_congr {m' : Machine dims} (h : m'.faults = m.faults) : m'.doubts = m.doubts :=
  congrArg (List.countP Fault.onValue) h

end Doubts

/-- An image in an array of `dims'` for cells of `dims`, with what the array keeps of a value. -/
structure View {ν ν' : Type} (dims : ν → List ℕ) (dims' : ν' → List ℕ) where
  image : ν → List ℤ → Option ν'
  keep : ν' → ℤ → ℤ
  injective : ∀ {a b c idx}, image a idx = some c → image b idx = some c → a = b
  dims_eq : ∀ {a b idx}, image a idx = some b → dims' b = dims a

variable {ν ν' : Type} {dims : ν → List ℕ} {dims' : ν' → List ℕ} {U V W : View dims dims'}

/-- Every value of the first machine is kept in the second one. -/
def View.Mirrors (V : View dims dims') (m : Machine dims) (m' : Machine dims') : Prop :=
  ∀ a b idx, V.image a idx = some b → ∀ v, m.cell a idx = some v → m'.cell b idx = some (V.keep b v)

/-- `W` keeps what `V` does but for the cell `idx` of `a`, which it keeps in `b`. -/
structure View.Moves (V W : View dims dims') (a : ν) (idx : List ℤ) (b : ν') : Prop where
  here : W.image a idx = some b
  others : ∀ c j, ¬ (c = a ∧ j = idx) → W.image c j = V.image c j
  keep : W.keep = V.keep

theorem View.moves_self {a : ν} {idx : List ℤ} {b : ν'} (h : V.image a idx = some b) : V.Moves V a idx b :=
  ⟨h, fun _ _ _ => rfl, rfl⟩

variable {α β γ δ : Type} {m : Machine dims} {m' : Machine dims'}

namespace View.Mirrors

theorem congr (h : V.Mirrors m m') (himage : ∀ a idx, InBounds (dims a) idx → W.image a idx = V.image a idx)
    (hkeep : W.keep = V.keep) : W.Mirrors m m' := by
  intro a b idx hab v hv
  rw [himage a idx (m.inBounds a idx v hv)] at hab
  rw [hkeep]
  exact h a b idx hab v hv

theorem put [DecidableEq ν] [DecidableEq ν'] (h : V.Mirrors m m') {a : ν} {b : ν'} {idx : List ℤ}
    (hmove : V.Moves W a idx b) (v : ℤ) (ha : InBounds (dims a) idx) (hb : InBounds (dims' b) idx) :
    W.Mirrors (m.put a idx v ha) (m'.put b idx (W.keep b v) hb) := by
  intro c d j hcd w hw
  rw [Machine.cell_put] at hw ⊢
  by_cases hcell : c = a ∧ j = idx
  · obtain ⟨rfl, rfl⟩ := hcell
    rw [hmove.here] at hcd
    cases hcd
    rw [if_pos ⟨rfl, rfl⟩] at hw ⊢
    cases hw
    rfl
  · have hcell' : ¬ (d = b ∧ j = idx) := by
      rintro ⟨rfl, rfl⟩
      exact hcell ⟨W.injective hcd hmove.here, rfl⟩
    rw [if_neg hcell] at hw
    rw [if_neg hcell', hmove.keep]
    rw [hmove.others c j hcell] at hcd
    exact h c d j hcd w hw

theorem put_unset [DecidableEq ν'] (h : V.Mirrors m m') {b : ν'} {idx : List ℤ}
    (hunset : ∀ a, V.image a idx = some b → m.cell a idx = none) (v : ℤ) (hb : InBounds (dims' b) idx) :
    V.Mirrors m (m'.put b idx v hb) := by
  intro c d j hcd w hw
  rw [Machine.cell_put, if_neg]
  · exact h c d j hcd w hw
  · rintro ⟨rfl, rfl⟩
    rw [hunset c hcd] at hw
    cases hw

end View.Mirrors

/-- Notes are not withdrawn; and unless `c` uses an arbitrary value, `c'` does the same from every machine that
mirrors. -/
def Refines (V W : View dims dims') (S : α → β → Prop) (c : Prog (Machine dims) α) (c' : Prog (Machine dims') β) :
    Prop :=
  (∀ m, m.doubts ≤ (c.exec m).doubts) ∧ ∀ m m', V.Mirrors m m' → (c.exec m).doubts = m.doubts →
    S (c.eval m) (c'.eval m') ∧ W.Mirrors (c.exec m) (c'.exec m')

/-- `Refines` with one view and equal results. -/
abbrev Sim (V : View dims dims') (c : Prog (Machine dims) α) (c' : Prog (Machine dims') α) : Prop :=
  Refines V V Eq c c'

theorem Refines.run {S : α → β → Prop} {c : Prog (Machine dims) α} {c' : Prog (Machine dims') β}
    (h : Refines V W S c c') (hm : V.Mirrors m m') (hdoubts : (c.exec m).doubts = m.doubts) :
    S (c.eval m) (c'.eval m') ∧ W.Mirrors (c.exec m) (c'.exec m') := h.2 m m' hm hdoubts

section Rules

variable {S : α → β → Prop} {T : γ → δ → Prop}

theorem sim_pure (a : α) : Sim V (pure a) (pure a) := by
  refine ⟨fun m => ?_, fun m m' hm _ => ?_⟩
  · rw [exec_pure]
  · rw [exec_pure, exec_pure, eval_pure, eval_pure]
    exact ⟨rfl, hm⟩

theorem refines_bind {c : Prog (Machine dims) α} {c' : Prog (Machine dims') β} {f : α → Prog (Machine dims) γ}
    {f' : β → Prog (Machine dims') δ} (hS : ∀ a, ∃ b, S a b) (hc : Refines U V S c c')
    (hf : ∀ a b, S a b → Refines V W T (f a) (f' b)) : Refines U W T (c >>= f) (c' >>= f') := by
  have hgrow : ∀ m, (c.exec m).doubts ≤ ((f (c.eval m)).exec (c.exec m)).doubts := by
    intro m
    obtain ⟨b, hb⟩ := hS (c.eval m)
    exact (hf _ b hb).1 _
  refine ⟨fun m => ?_, fun m m' hm h => ?_⟩
  · rw [exec_bind]
    exact (hc.1 m).trans (hgrow m)
  · rw [exec_bind] at h
    have hfirst : (c.exec m).doubts = m.doubts := le_antisymm (h ▸ hgrow m) (hc.1 m)
    obtain ⟨hab, hm₁⟩ := hc.2 m m' hm hfirst
    simp only [exec_bind, eval_bind]
    exact (hf _ _ hab).2 _ _ hm₁ (h.trans hfirst.symm)

theorem sim_bind {c : Prog (Machine dims) α} {c' : Prog (Machine dims') α} {f : α → Prog (Machine dims) γ}
    {f' : α → Prog (Machine dims') δ} (hc : Refines U V Eq c c') (hf : ∀ a, Refines V W T (f a) (f' a)) :
    Refines U W T (c >>= f) (c' >>= f') := refines_bind (fun a => ⟨a, rfl⟩) hc fun a _ h => h ▸ hf a

theorem refines_ite {p : Prop} [Decidable p] {c d : Prog (Machine dims) α} {c' d' : Prog (Machine dims') β}
    (hc : Refines V W S c c') (hd : Refines V W S d d') :
    Refines V W S (if p then c else d) (if p then c' else d') := by
  split_ifs
  · exact hc
  · exact hd

theorem refines_ifThenElse {p : Prop} [Decidable p] {c d : Prog (Machine dims) α} {c' d' : Prog (Machine dims') β}
    (hc : Refines V W S c c') (hd : Refines V W S d d') : Refines V W S (ifThenElse p c d) (ifThenElse p c' d') :=
  refines_ite hc hd

theorem sim_ifThen {p : Prop} [Decidable p] {c : Prog (Machine dims) Unit} {c' : Prog (Machine dims') Unit}
    (hc : Sim V c c') : Sim V (ifThen p c) (ifThen p c') := refines_ite hc (sim_pure ())

theorem sim_andAlso {c d : Prog (Machine dims) Bool} {c' d' : Prog (Machine dims') Bool} (hc : Sim V c c')
    (hd : Sim V d d') : Sim V (andAlso c d) (andAlso c' d') := sim_bind hc fun _ => refines_ite hd (sim_pure false)

/-- A loop each pass of which leads from one view to the next. -/
theorem refines_iterUp (V : ℕ → View dims dims') {body : ℕ → α → Prog (Machine dims) α}
    {body' : ℕ → α → Prog (Machine dims') α} (h : ∀ i a, Refines (V i) (V (i + 1)) Eq (body i a) (body' i a))
    (n i : ℕ) (a : α) : Refines (V i) (V (i + n)) Eq (iterUp body n i a) (iterUp body' n i a) := by
  induction n generalizing i a with
  | zero => exact sim_pure a
  | succ n ih =>
    have hlast : i + (n + 1) = i + 1 + n := by omega
    rw [hlast]
    exact sim_bind (h i a) fun b => ih (i + 1) b

theorem sim_forUp {lo hi : ℕ} {a : α} {body : ℕ → α → Prog (Machine dims) α} {body' : ℕ → α → Prog (Machine dims') α}
    (h : ∀ i a, Sim V (body i a) (body' i a)) : Sim V (forUp lo hi a body) (forUp lo hi a body') :=
  refines_iterUp (fun _ => V) h _ _ _

theorem sim_forEach {lo hi : ℕ} {body : ℕ → Prog (Machine dims) Unit} {body' : ℕ → Prog (Machine dims') Unit}
    (h : ∀ i, Sim V (body i) (body' i)) : Sim V (forEach lo hi body) (forEach lo hi body') := sim_forUp fun i _ => h i

theorem refines_forEach (V : ℕ → View dims dims') {n : ℕ} {body : ℕ → Prog (Machine dims) Unit}
    {body' : ℕ → Prog (Machine dims') Unit} (h : ∀ i, Refines (V i) (V (i + 1)) Eq (body i) (body' i)) :
    Refines (V 0) (V n) Eq (forEach 0 n body) (forEach 0 n body') := by
  have := refines_iterUp V (fun i _ => h i) n 0 ()
  rwa [Nat.zero_add] at this

theorem Refines.congr {V' W' : View dims dims'} {c : Prog (Machine dims) α} {c' : Prog (Machine dims') β}
    (h : Refines V W S c c') (hV : ∀ m m', V'.Mirrors m m' → V.Mirrors m m')
    (hW : ∀ m m', W.Mirrors m m' → W'.Mirrors m m') : Refines V' W' S c c' :=
  ⟨h.1, fun m m' hm hn => ⟨(h.2 m m' (hV m m' hm) hn).1, hW _ _ (h.2 m m' (hV m m' hm) hn).2⟩⟩

end Rules

section Access

variable {a : ν} {b : ν'} {idx : List ℤ} {v : ℤ}

theorem refines_load (hab : V.image a idx = some b) :
    Refines V V (fun v w => w = V.keep b v) (load a idx : Prog (Machine dims) ℤ) (load b idx) := by
  refine ⟨fun m => ?_, fun m m' hm h => ?_⟩
  · rw [exec_eq, load]
    split
    · exact le_rfl
    · rw [doubts_record (onValue_load a idx)]
      exact Nat.le_succ _
  · cases hcell : m.cell a idx with
    | none =>
      rw [exec_eq, load, hcell] at h
      rw [doubts_record (onValue_load a idx)] at h
      exact absurd h (Nat.succ_ne_self _)
    | some v =>
      rw [exec_eq, eval_eq, exec_eq, eval_eq, load, load, hcell, hm a b idx hab v hcell]
      exact ⟨rfl, hm⟩

theorem sim_load (hab : V.image a idx = some b) (hkeep : ∀ v, V.keep b v = v) :
    Sim V (load a idx : Prog (Machine dims) ℤ) (load b idx) := by
  obtain ⟨hgrow, hrun⟩ := refines_load hab
  refine ⟨hgrow, fun m m' hm h => ⟨?_, (hrun m m' hm h).2⟩⟩
  rw [(hrun m m' hm h).1, hkeep]

/-- A load outside the bounds is noted, so nothing is claimed about it. -/
theorem refines_load_out {S : ℤ → β → Prop} {c' : Prog (Machine dims') β} (hb : ¬ InBounds (dims a) idx) :
    Refines V W S (load a idx : Prog (Machine dims) ℤ) c' := by
  have hnote : ∀ m : Machine dims, ((load a idx).exec m).doubts = m.doubts + 1 := by
    intro m
    rw [exec_eq, load, m.cell_of_not_inBounds hb, doubts_record (onValue_load a idx)]
  refine ⟨fun m => ?_, fun m m' _ h => ?_⟩
  · rw [hnote]
    exact Nat.le_succ _
  · rw [hnote] at h
    exact absurd h (Nat.succ_ne_self _)

variable [DecidableEq ν] [DecidableEq ν']

theorem refines_store {w : ℤ} (hmove : V.Moves W a idx b) (hw : w = W.keep b v) :
    Refines V W Eq (store a idx v : Prog (Machine dims) Unit) (store b idx w) := by
  subst hw
  by_cases hb : InBounds (dims a) idx
  · have hb' : InBounds (dims' b) idx := by rwa [W.dims_eq hmove.here]
    refine ⟨fun m => ?_, fun m m' hm h => ⟨rfl, ?_⟩⟩
    · rw [exec_eq, store, dif_pos hb]
      exact le_rfl
    · rw [exec_eq, exec_eq, store, store, dif_pos hb, dif_pos hb']
      exact hm.put hmove v hb hb'
  · have hb' : ¬ InBounds (dims' b) idx := by rwa [W.dims_eq hmove.here]
    refine ⟨fun m => ?_, fun m m' hm h => ⟨rfl, ?_⟩⟩
    · rw [exec_eq, store, dif_neg hb, doubts_record_store rfl]
    · rw [exec_eq, exec_eq, store, store, dif_neg hb, dif_neg hb']
      refine View.Mirrors.congr (m := m) hm (fun c j hj => hmove.others c j ?_) hmove.keep
      rintro ⟨rfl, rfl⟩
      exact hb hj

omit [DecidableEq ν] [DecidableEq ν'] in
theorem sim_rem (v n : ℤ) : Sim V (rem v n : Prog (Machine dims) ℤ) (rem v n) := by
  by_cases hv : 0 ≤ v
  · refine ⟨fun m => ?_, fun m m' hm h => ?_⟩
    · rw [exec_eq, rem, if_pos hv]
    · rw [exec_eq, exec_eq, eval_eq, eval_eq, rem, rem, if_pos hv, if_pos hv]
      exact ⟨rfl, hm⟩
  · refine ⟨fun m => ?_, fun m m' hm h => ?_⟩
    · rw [exec_eq, rem, if_neg hv, doubts_record rfl]
      exact Nat.le_succ _
    · rw [exec_eq, rem, if_neg hv, doubts_record rfl] at h
      exact absurd h (Nat.succ_ne_self _)

omit [DecidableEq ν] [DecidableEq ν'] in
/-- A value that the first program checks before it uses it. -/
theorem refines_expect {S : α → β → Prop} {lo hi : ℤ} {f : ℤ → Prog (Machine dims) α} {c' : Prog (Machine dims') β}
    (hf : Refines V W S (f v) c') : Refines V W S (expect lo hi v >>= f) c' := by
  by_cases hv : lo ≤ v ∧ v < hi
  · have hsame : ∀ m : Machine dims, (expect lo hi v >>= f) m = f v m := fun m => by
      show f (expect lo hi v m).1 (expect lo hi v m).2 = _
      rw [expect, if_pos hv]
    have hrun : (expect lo hi v >>= f : Prog (Machine dims) α) = f v := funext hsame
    rwa [hrun]
  · have hnote : ∀ m : Machine dims, m.doubts + 1 ≤ ((expect lo hi v >>= f).exec m).doubts := by
      intro m
      have hlast : (expect lo hi v >>= f).exec m = (f v).exec (m.record (.operand v)) := by
        rw [exec_bind, exec_eq (expect lo hi v), eval_eq, expect, if_neg hv]
      rw [hlast, ← doubts_record (f := Fault.operand v) rfl]
      exact hf.1 _
    refine ⟨fun m => (Nat.le_succ _).trans (hnote m), fun m m' hm h => ?_⟩
    have := hnote m
    omega

/-- Declarations of local arrays; no cell outside them may have its image in one of the others. -/
theorem sim_declare {l : List ν} {l' : List ν'} (h : ∀ a b idx, a ∉ l → V.image a idx = some b → b ∉ l') :
    Sim V (declare l : Prog (Machine dims) Unit) (declare l') := by
  refine ⟨fun m => ?_, fun m m' hm _ => ⟨rfl, ?_⟩⟩
  · rw [exec_declare]
    exact le_rfl
  · rw [exec_declare, exec_declare]
    intro a b idx hab v hv
    by_cases ha : a ∈ l
    · exact absurd (hv.symm.trans (if_pos ha)) (Option.some_ne_none v)
    · have hcell : m.cell a idx = some v := (if_neg ha).symm.trans hv
      exact (if_neg (h a b idx ha hab)).trans (hm a b idx hab v hcell)

end Access

end Imp
