import ReedSolomon.Hardware.EndToEnd
import ReedSolomon.Main.Stream
import ReedSolomon.Spec.Program

/-!
# What `RSEncoderTB::thread` draws and prints

The loops of the thread over the numbers of errors and over the packets, as the list of packets they draw from the
stream of `rand()`; there is no list if one of the injection loops does not end. With places in the block, and bytes in
the two elements of `data` that are not drawn, the thread prints `OK` for each number of errors up to the capacity, and
for one error more the number of packets that the decoder does not restore (`scMain_reports`).
-/

open Imp Clocked

namespace ReedSolomon

/-- The packets drawn so far, and how many values of the stream. -/
structure Drawn where
  vectors : List TestVector
  drawn : ℕ

section Draws

variable (rand : ℕ → ℤ) (passes : ℕ)

/-- A packet with `i` errors, `j` being the index of the inner loop. -/
def drawPacket (i j : ℕ) (x : Drawn) : Option Drawn :=
  (finished rand i passes (x.drawn + (messageLength - 2))).map fun s =>
    { vectors := x.vectors ++ [{ bytes := fun k => BitVec.ofInt 8 (rand (x.drawn + k)), errors := s.hits, first := j = 0 }]
      drawn := x.drawn + (messageLength - 2) + s.drawn }

/-- The inner loop, up to index `j`. -/
def drawPackets (i : ℕ) (x : Drawn) : ℕ → Option Drawn
  | 0 => some x
  | j + 1 => (drawPackets i x j).bind (drawPacket rand passes i j)

/-- The outer loop, up to `errorNumberIT = i`. -/
def drawBatches : ℕ → Option Drawn
  | 0 => some ⟨[], 0⟩
  | i + 1 => (drawBatches i).bind fun x => drawPackets rand passes (i + 1) x nbVectors

/-- The packets of the thread: `errorNumberIT` runs from 1 to `CORRECTION_CAPACITY + 1`. -/
def testVectors : Option (List TestVector) := (drawBatches rand passes (rs255.tt + 1)).map Drawn.vectors

end Draws

variable {rand : ℕ → ℤ} {passes : ℕ}

/-- The packets are drawn if every tail of the stream holds nine places. -/
theorem settles_testVectors (h : Spreads rand 9) : Settles (testVectors rand) := by
  have hbatches : Settles fun passes => drawBatches rand passes 9 := by
    apply Settles.loop (drawBatches rand) (fun _ => rfl) (fun _ _ => rfl)
    intro i hi x
    apply Settles.loop (fun passes => drawPackets rand passes (i + 1) x) (fun _ => rfl) (fun _ _ => rfl)
    intro _ _ y
    exact (settles_finished h hi _).map _
  exact hbatches.map _

/-! ### The packets -/

/-- The packet has `i` hits, each a place and a value of the stream. -/
def HitBy (rand : ℕ → ℤ) (i : ℕ) (v : TestVector) : Prop :=
  v.errors.length = i ∧ ∀ e ∈ v.errors, ∃ k, e = (rand k % 256, rand (k + 1))

theorem vectors_drawPacket {i j : ℕ} {x y : Drawn} (h : drawPacket rand passes i j x = some y) :
    ∃ v, y.vectors = x.vectors ++ [v] ∧ HitBy rand i v ∧ v.first = decide (j = 0) := by
  rw [drawPacket, Option.map_eq_some_iff] at h
  obtain ⟨s, hs, rfl⟩ := h
  exact ⟨_, rfl, length_finished hs, rfl⟩

theorem vectors_drawPackets {i j : ℕ} {x y : Drawn} (h : drawPackets rand passes i x j = some y) :
    ∃ vs, y.vectors = x.vectors ++ vs ∧ vs.length = j ∧ (∀ v ∈ vs, HitBy rand i v) ∧
      vs.map TestVector.first = (List.range j).map fun k => decide (k = 0) := by
  induction j generalizing y with
  | zero =>
    obtain rfl := Option.some.inj h
    exact ⟨[], (List.append_nil _).symm, rfl, nofun, rfl⟩
  | succ j ih =>
    rw [drawPackets, Option.bind_eq_some_iff] at h
    obtain ⟨z, hz, hy⟩ := h
    obtain ⟨vs, hvs, hlength, hhits, hfirst⟩ := ih hz
    obtain ⟨v, hv, hhit, hfirst'⟩ := vectors_drawPacket hy
    refine ⟨vs ++ [v], ?_, ?_, ?_, ?_⟩
    · rw [hv, hvs, List.append_assoc]
    · rw [List.length_append, hlength, List.length_singleton]
    · intro w hw
      rcases List.mem_append.mp hw with hold | hnew
      · exact hhits w hold
      · rwa [List.mem_singleton.mp hnew]
    · rw [List.map_append, hfirst, List.range_succ, List.map_append, List.map_singleton, List.map_singleton, hfirst']

theorem vectors_drawBatches {i : ℕ} {x : Drawn} (h : drawBatches rand passes i = some x) :
    x.vectors.length = 100 * i ∧ ∀ v ∈ x.vectors, ∃ k ≤ i, HitBy rand k v := by
  induction i generalizing x with
  | zero =>
    obtain rfl := Option.some.inj h
    exact ⟨rfl, nofun⟩
  | succ i ih =>
    rw [drawBatches, Option.bind_eq_some_iff] at h
    obtain ⟨z, hz, hx⟩ := h
    obtain ⟨hlength, hhits⟩ := ih hz
    obtain ⟨vs, hvs, hcount, hnew, _⟩ := vectors_drawPackets hx
    constructor
    · rw [hvs, List.length_append, hlength, hcount, nbVectors]
      omega
    · intro v hv
      rw [hvs] at hv
      rcases List.mem_append.mp hv with hold | hlast
      · obtain ⟨k, hk, hhit⟩ := hhits v hold
        exact ⟨k, by omega, hhit⟩
      · exact ⟨i + 1, le_rfl, hnew v hlast⟩

theorem take_drawBatches {i n : ℕ} {y : Drawn} (h : drawBatches rand passes (i + n) = some y) :
    ∃ x, drawBatches rand passes i = some x ∧ y.vectors.take (100 * i) = x.vectors := by
  induction n generalizing y with
  | zero =>
    refine ⟨y, h, List.take_of_length_le ?_⟩
    rw [(vectors_drawBatches h).1, Nat.add_zero]
  | succ n ih =>
    rw [← Nat.add_assoc, drawBatches, Option.bind_eq_some_iff] at h
    obtain ⟨z, hz, hy⟩ := h
    obtain ⟨vs, hvs, _⟩ := vectors_drawPackets hy
    obtain ⟨x, hx, htake⟩ := ih hz
    refine ⟨x, hx, ?_⟩
    rw [hvs, List.take_append_of_le_length (by rw [(vectors_drawBatches hz).1]; omega), htake]

theorem testVectors_spec {vectors : List TestVector} (h : testVectors rand passes = some vectors) :
    vectors.length = 900 ∧ (∀ v ∈ vectors, ∃ i, HitBy rand i v) ∧
      (∀ i ≤ 9, ∀ v ∈ vectors.take (100 * i), v.errors.length ≤ i) ∧
      ∃ v more, vectors.drop 800 = v :: more ∧ v.first = true ∧ ∀ w ∈ more, w.first = false := by
  rw [testVectors, Option.map_eq_some_iff] at h
  obtain ⟨y, hy, rfl⟩ := h
  refine ⟨(vectors_drawBatches hy).1, fun v hv => ?_, fun i hi v hv => ?_, ?_⟩
  · obtain ⟨i, _, hhit⟩ := (vectors_drawBatches hy).2 v hv
    exact ⟨i, hhit⟩
  · rw [show rs255.tt + 1 = i + (9 - i) by rw [show rs255.tt = 8 from rfl]; omega] at hy
    obtain ⟨x, hx, htake⟩ := take_drawBatches hy
    rw [htake] at hv
    obtain ⟨k, hk, hhit⟩ := (vectors_drawBatches hx).2 v hv
    rw [hhit.1]
    exact hk
  · rw [drawBatches, Option.bind_eq_some_iff] at hy
    obtain ⟨x, hx, hlast⟩ := hy
    obtain ⟨vs, hvs, hlength, _, hfirst⟩ := vectors_drawPackets hlast
    have hbefore : x.vectors.length = 800 := (vectors_drawBatches hx).1
    rw [hvs, List.drop_left' hbefore]
    cases vs with
    | nil => exact absurd hlength (by decide)
    | cons v more =>
      rw [nbVectors, List.range_succ_eq_map, List.map_cons, List.map_cons, List.map_map] at hfirst
      obtain ⟨hv, hmore⟩ := List.cons.inj hfirst
      refine ⟨v, more, rfl, hv, fun w hw => ?_⟩
      have hmem : w.first ∈ more.map TestVector.first := List.mem_map_of_mem hw
      rw [hmore, List.mem_map] at hmem
      obtain ⟨k, _, hk⟩ := hmem
      rw [← hk]
      rfl

/-! ### The lines that are printed -/

section Printed

variable (m m' : Machine rs255.dims)

/-- Before the check of packet `n - 1`, and what it counts. -/
theorem scMain_check {vectors : List TestVector} (hlegal : ∀ v ∈ vectors, ∀ e ∈ v.errors, Legal e) {n : ℕ} (h1 : 1 ≤ n)
    (hn : n ≤ vectors.length) : Checks (scMain m m' vectors (3 + 32 * n)).2 ∧
      (scMain m m' vectors (3 + 32 * n)).2.check.noEncoderErrors = tally (Fails m') (vectors.take n) := by
  have hdrop := List.drop_eq_getElem_cons (show n - 1 < vectors.length by omega)
  have hmem : vectors[n - 1] ∈ vectors := List.getElem_mem _
  have hbegins := begins m m' hlegal hdrop
  have hreceived := (hbegins.received hdrop).1
  have hcount := (hbegins.checked hdrop (hlegal _ hmem)).2.2.2
  rw [show 35 + 32 * (n - 1) = 3 + 32 * n by omega] at hreceived hcount
  rw [Nat.sub_add_cancel h1] at hcount
  obtain ⟨_, _, hreceives⟩ := hreceived
  exact ⟨⟨_, hreceives.wait, by decide⟩, hcount⟩

open Classical in
/-- **What `sc_main` prints.** With bytes in the two elements of `data` that are not drawn, and no hit at place 255, the
bench prints `OK` for each number of errors up to the capacity. For one error more it counts the packets that fail. -/
theorem scMain_reports (m m' : Machine rs255.dims) (htail : ByteTail m') (rand : ℕ → ℤ) (hrand : ∀ n, 0 ≤ rand n)
    (passes : ℕ) (vectors : List TestVector) (hdrawn : testVectors rand passes = some vectors)
    (hplace : ∀ v ∈ vectors, ∀ e ∈ v.errors, e.1 ≠ 255) :
    (∀ i, 1 ≤ i → i ≤ 8 → let b := (scMain m m' vectors (3 + 32 * (100 * i))).2
      Checks b ∧ report b.check.noEncoderErrors = .ok) ∧
      let b := (scMain m m' vectors (3 + 32 * 900)).2
      Checks b ∧ b.check.noEncoderErrors = (vectors.drop 800).countP fun v => Fails m' v := by
  obtain ⟨hlength, hhits, hfew, v, more, hlast, hfirst, hmore⟩ := testVectors_spec hdrawn
  have hlegal : ∀ v ∈ vectors, ∀ e ∈ v.errors, Legal e := by
    intro v hv e he
    have hne := hplace v hv e he
    obtain ⟨i, hi⟩ := hhits v hv
    obtain ⟨k, rfl⟩ := hi.2 e he
    exact ⟨⟨Int.emod_nonneg _ (by decide), by omega⟩, hrand _⟩
  constructor
  · intro i h1 h8
    obtain ⟨hchecks, hcount⟩ := scMain_check m m' hlegal (show 1 ≤ 100 * i by omega) (by omega)
    refine ⟨hchecks, ?_⟩
    have hzero : tally (Fails m') (vectors.take (100 * i)) = 0 := by
      apply tally_eq_zero
      intro v hv
      exact not_fails_of_few htail ((hfew i (by omega) v hv).trans h8)
    rw [hcount, hzero]
    rfl
  · obtain ⟨hchecks, hcount⟩ := scMain_check m m' hlegal (show 1 ≤ 900 by decide) hlength.ge
    refine ⟨hchecks, hcount.trans ?_⟩
    rw [List.take_of_length_le hlength.le, ← List.take_append_drop 800 vectors, hlast]
    rw [List.drop_left' (by rw [List.length_take, hlength]; rfl)]
    exact tally_batch (Fails m') _ hfirst hmore

theorem scMain_reports_cycling : ∃ passes vectors, testVectors cycling passes = some vectors ∧
    let b := (scMain (Machine.fresh _) (Machine.fresh _) vectors (3 + 32 * 800)).2
    Checks b ∧ report b.check.noEncoderErrors = .ok := by
  obtain ⟨vectors, hsettles⟩ := settles_testVectors (spreads_cycling (show 9 ≤ 251 by decide))
  obtain ⟨passes, hpasses⟩ := Filter.eventually_atTop.mp hsettles
  have hdrawn := hpasses passes le_rfl
  have htail : ByteTail (Machine.fresh rs255.dims) := fun k _ _ => ⟨le_rfl, Int.natCast_nonneg 255⟩
  have hplace : ∀ v ∈ vectors, ∀ e ∈ v.errors, e.1 ≠ 255 := by
    intro v hv e he
    obtain ⟨i, hi⟩ := (testVectors_spec hdrawn).2.1 v hv
    obtain ⟨k, rfl⟩ := hi.2 e he
    have := cycling_range k
    show cycling k % 256 ≠ 255
    omega
  exact ⟨passes, vectors, hdrawn, (scMain_reports _ _ htail cycling (fun n => (cycling_range n).1) passes vectors hdrawn
    hplace).1 8 (by decide) le_rfl⟩

end Printed

end ReedSolomon
