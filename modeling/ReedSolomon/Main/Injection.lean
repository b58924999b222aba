import ReedSolomon.Hardware.Lanes
import ReedSolomon.Imp.Footprint
import ReedSolomon.Main.Channel
import ReedSolomon.Main.Guarantees
import ReedSolomon.Spec.Injection

/-!
# What the injection loop does

Seen from the stream of `rand()`, the loop reads a place, and a value behind it if the place is new, until it has made
`i` hits (`Injected.run`); the program follows that reading as long as no place is 255 (`wp_injectLoop`). The place 255
is the last value of `rand() % 256` and one behind the end of the block, so the loop stays inside its arrays and makes
`i` errors for those streams in which no place is 255 and no value divisible by 256 (`inject_iff`).
-/

open Imp Finset

namespace ReedSolomon

/-- The hits made so far, and how many values were drawn. -/
structure Injected where
  hits : List (ℤ × ℤ)
  drawn : ℕ
  /-- No place is hit twice. -/
  nodup : (hits.map Prod.fst).Nodup

namespace Injected

def none : Injected := ⟨[], 0, List.nodup_nil⟩

def places (s : Injected) : List ℤ := s.hits.map Prod.fst

/-- The place the stream holds next. -/
def place (rand : ℕ → ℤ) (s : Injected) : ℤ := rand s.drawn % 256

/-- A place is read, and its value if it is new. -/
def next (rand : ℕ → ℤ) (s : Injected) : Injected :=
  if h : s.place rand ∈ s.places then { s with drawn := s.drawn + 1 }
  else
    { hits := s.hits ++ [(s.place rand, rand (s.drawn + 1))]
      drawn := s.drawn + 2
      nodup := by
        rw [List.map_append]
        exact s.nodup.append (List.nodup_singleton _) (List.disjoint_singleton.mpr h) }

/-- The stream is read until there are `i` hits, in at most the given number of passes. -/
def run (rand : ℕ → ℤ) (i : ℕ) : ℕ → Injected → Injected
  | 0, s => s
  | passes + 1, s => if s.hits.length < i then run rand i passes (s.next rand) else s

/-- The word after the hits. -/
def word (c : ℕ → ℤ) (s : Injected) : ℕ → ℤ := s.hits.foldl hit c

/-- The marks of the places. -/
def status (s : Injected) (p : ℕ) : ℤ := if (p : ℤ) ∈ s.places then 1 else 0

variable {rand : ℕ → ℤ} {i : ℕ} {s : Injected}

theorem next_of_mem (h : s.place rand ∈ s.places) : s.next rand = { s with drawn := s.drawn + 1 } := dif_pos h

theorem hits_next (h : s.place rand ∉ s.places) :
    (s.next rand).hits = s.hits ++ [(s.place rand, rand (s.drawn + 1))] := by
  rw [next, dif_neg h]

theorem drawn_next (h : s.place rand ∉ s.places) : (s.next rand).drawn = s.drawn + 2 := by
  rw [next, dif_neg h]

theorem word_next (h : s.place rand ∉ s.places) (c : ℕ → ℤ) :
    (s.next rand).word c = hit (s.word c) (s.place rand, rand (s.drawn + 1)) := by
  rw [word, hits_next h, hits_append]
  rfl

theorem status_next (h : s.place rand ∉ s.places) {p : ℕ} (hp : s.place rand = p) :
    (s.next rand).status = Function.update s.status p 1 := by
  funext q
  have hmem : (q : ℤ) ∈ (s.next rand).places ↔ (q : ℤ) ∈ s.places ∨ q = p := by
    rw [places, hits_next h, List.map_append, List.mem_append, List.map_singleton, List.mem_singleton, hp, Int.ofNat_inj]
    rfl
  rw [Function.update_apply, status, status]
  by_cases hq : q = p
  · rw [if_pos hq, if_pos (hmem.mpr (Or.inr hq))]
  · simp only [hmem, hq, or_false, if_false]

theorem run_of_lt (h : s.hits.length < i) (n : ℕ) : run rand i (n + 1) s = run rand i n (s.next rand) := if_pos h

theorem length_run_le (h : s.hits.length ≤ i) (n : ℕ) : (run rand i n s).hits.length ≤ i := by
  induction n generalizing s with
  | zero => exact h
  | succ n ih =>
    unfold run
    split_ifs with hlt
    · apply ih
      by_cases hmem : s.place rand ∈ s.places
      · rw [next_of_mem hmem]
        exact h
      · rw [hits_next hmem, List.length_append]
        exact hlt
    · exact h

theorem place_range (rand : ℕ → ℤ) (s : Injected) : 0 ≤ s.place rand ∧ s.place rand < 256 := by
  unfold place
  omega

end Injected

/-- No place that the stream holds from `s` on is 255. -/
def InBlock (rand : ℕ → ℤ) (i : ℕ) (s : Injected) : Prop :=
  ∀ n, (Injected.run rand i n s).hits.length < i → (Injected.run rand i n s).place rand ≠ 255

theorem InBlock.next {rand : ℕ → ℤ} {i : ℕ} {s : Injected} (h : InBlock rand i s) (hs : s.hits.length < i) :
    InBlock rand i (s.next rand) := by
  intro n
  rw [← Injected.run_of_lt hs]
  exact h (n + 1)

/-- Once there are `i` hits, none of them is with a value divisible by 256. -/
def Flips (rand : ℕ → ℤ) (i : ℕ) : Prop :=
  ∀ n, (Injected.run rand i n .none).hits.length = i → ∀ e ∈ (Injected.run rand i n .none).hits, e.2 % 256 ≠ 0

/-! ### The program follows the stream -/

theorem inBounds_channel (a : ChannelArr) (k : ℕ) : InBounds (channelDims a) (line k) ↔ k < 255 := by
  cases a <;> simp [channelDims, rs255_nn]

/-- The machine and the locals of the loop after the hits of `s` on the word `c`. -/
structure Tracks (c : ℕ → ℤ) (m₀ : Machine channelDims) (s : Injected) (x : Counters) (m : Machine channelDims) :
    Prop where
  k : x.k = s.hits.length
  drawn : x.drawn = s.drawn
  recd : Holds m .recd 255 (s.word c)
  status : Holds m .errorStatus 255 s.status
  faults : m.faults = m₀.faults
  legal : ∀ e ∈ s.hits, Legal e

section Passes

variable {rand : ℕ → ℤ} {i : ℕ} {c : ℕ → ℤ} {m₀ m : Machine channelDims} {s : Injected} {x : Counters}

theorem wp_injectPass (hrand : ∀ n, 0 ≤ rand n) (hc : Symbols rs255 255 c) (h : Tracks c m₀ s x m)
    (hplace : s.place rand ≠ 255) :
    wp (injectPass rand x) (fun x' m' => Tracks c m₀ (s.next rand) { x' with k := x'.k + 1 } m') m := by
  obtain ⟨p, hp⟩ := Int.eq_ofNat_of_zero_le (Injected.place_range rand s).1
  have hrange := (Injected.place_range rand s).2
  have hp255 : p < 255 := by omega
  have hb : InBounds (channelDims .recd) (line p) := (inBounds_channel .recd p).mpr hp255
  have hb' : InBounds (channelDims .errorStatus) (line p) := (inBounds_channel .errorStatus p).mpr hp255
  have hw : 0 ≤ s.word c p := (symbols_hits hc s.hits p hp255).1
  have hdraw : rand x.drawn % 256 = (p : ℤ) := by rw [h.drawn, ← hp, Injected.place]
  unfold injectPass
  rw [wp_bind, wp_rem (hrand _), hdraw, wp_bind, wp_load (h.status p hp255)]
  by_cases hmem : (p : ℤ) ∈ s.places
  · rw [Injected.status, if_pos hmem, wp_ifThenElse_neg (by decide), wp_pure, Injected.next_of_mem (by rwa [hp])]
    exact ⟨(sub_add_cancel _ _).trans h.k, congrArg (· + 1) h.drawn, h.recd, h.status, h.faults, h.legal⟩
  · have hnew : s.place rand ∉ s.places := by rwa [hp]
    have hval : rand (x.drawn + 1) = rand (s.drawn + 1) := by rw [h.drawn]
    rw [Injected.status, if_neg hmem, wp_ifThenElse_pos rfl, wp_bind, wp_load (h.recd p hp255), wp_bind,
      wp_rem (xor_nonneg hw (hrand _)), wp_bind, wp_store hb, wp_bind, wp_store hb', wp_pure]
    refine ⟨?_, ?_, ?_, ?_, h.faults, ?_⟩
    · rw [Injected.hits_next hnew, List.length_append, h.k]
      rfl
    · rw [Injected.drawn_next hnew, h.drawn]
    · rw [Injected.word_next hnew, hit, hp, hval]
      exact (h.recd.put p _ hb).of_keeps ((Keeps.refl [.errorStatus] _).put (by simp) _ _ hb') (by simp)
    · rw [Injected.status_next hnew hp]
      exact (h.status.of_keeps ((Keeps.refl [.recd] _).put (by simp) _ _ hb) (by simp)).put p 1 hb'
    · intro e he
      rw [Injected.hits_next hnew, List.mem_append, List.mem_singleton] at he
      rcases he with he | rfl
      · exact h.legal e he
      · exact ⟨by omega, hrand _⟩

/-- The loop follows the stream. -/
theorem wp_injectLoop (hrand : ∀ n, 0 ≤ rand n) (hc : Symbols rs255 255 c) (n : ℕ) (h : Tracks c m₀ s x m)
    (hblock : InBlock rand i s) :
    wp (injectLoop rand i n x) (fun x' m' => Tracks c m₀ (Injected.run rand i n s) x' m') m := by
  induction n generalizing s x m with
  | zero => exact h
  | succ n ih =>
    unfold injectLoop Injected.run
    by_cases hlt : s.hits.length < i
    · have hk : x.k < i := by rw [h.k]; omega
      rw [if_pos hk, if_pos hlt]
      apply wp_seq (wp_injectPass hrand hc h (hblock 0 hlt))
      intro x' m' h'
      exact ih h' (hblock.next hlt)
    · have hk : ¬ x.k < i := by rw [h.k]; omega
      rw [if_neg hk, if_neg hlt]
      exact h

/-- A pass at place 255 reads behind the end of `error_status`. -/
theorem wp_injectPass_out (hrand : ∀ n, 0 ≤ rand n) (hdraw : rand x.drawn % 256 = 255) :
    wp (injectPass rand x) (fun _ m' => m.faults ++ [.load .errorStatus [255]] <+: m'.faults) m := by
  have hout : ¬ InBounds (channelDims .errorStatus) [255] := fun h => absurd ((inBounds_channel .errorStatus 255).mp h) (by decide)
  unfold injectPass
  rw [wp_bind, wp_rem (hrand _), hdraw, wp_bind, wp_load_out hout]
  apply Writes.wp_noted (W := [.recd, .errorStatus])
  · apply Writes.ifThenElse
    · exact .bind (.load _ _) fun _ => .bind (.rem _ _) fun _ => .bind (.store (by simp) _ _) fun _ =>
        .bind (.store (by simp) _ _) fun _ => .pure _
    · exact .pure _
  · exact List.prefix_rfl

theorem injectLoop_out (hrand : ∀ n, 0 ≤ rand n) (hc : Symbols rs255 255 c) (n : ℕ) (h : Tracks c m₀ s x m)
    (hlt : (Injected.run rand i n s).hits.length < i) (hplace : (Injected.run rand i n s).place rand = 255) :
    ∃ k, wp (injectLoop rand i k x) (fun _ m' => Fault.load .errorStatus [255] ∈ m'.faults) m := by
  -- the passes up to the first one at 255 follow the stream
  have hfirst : ∀ {s x m}, Tracks c m₀ s x m → s.hits.length < i → s.place rand = 255 →
      ∃ k, wp (injectLoop rand i k x) (fun _ m' => Fault.load .errorStatus [255] ∈ m'.faults) m := by
    intro s x m h hlt hplace
    have hk : x.k < i := by rw [h.k]; omega
    have hdraw : rand x.drawn % 256 = 255 := by rw [h.drawn, ← hplace, Injected.place]
    refine ⟨1, ?_⟩
    unfold injectLoop
    rw [if_pos hk]
    apply wp_seq (wp_injectPass_out hrand hdraw)
    intro _ m' hnoted
    exact hnoted.subset (List.mem_append_right _ (List.mem_singleton_self _))
  induction n generalizing s x m with
  | zero => exact hfirst h hlt hplace
  | succ n ih =>
    by_cases hs : s.hits.length < i
    · by_cases h255 : s.place rand = 255
      · exact hfirst h hs h255
      · have hk : x.k < i := by rw [h.k]; omega
        rw [Injected.run_of_lt hs] at hlt hplace
        have hpass := wp_iff_run.mp (wp_injectPass hrand hc h h255)
        obtain ⟨k, hout⟩ := ih hpass hlt hplace
        refine ⟨k + 1, ?_⟩
        unfold injectLoop
        rw [if_pos hk, wp_bind, wp_iff_run]
        exact hout
    · unfold Injected.run at hlt
      rw [if_neg hs] at hlt
      exact absurd hlt hs

theorem wp_clearStatus (hm : Holds m .recd 255 c) : wp clearStatus (fun _ m' => Tracks c m .none ⟨0, 0⟩ m') m := by
  apply wp_mono (wp_forEach_wrote .errorStatus line (fun _ => 0) (Nat.zero_le rs255.nn) ?_)
  · intro _ m' h
    refine ⟨rfl, rfl, hm.of_keeps h.frame.keeps (by simp), fun p hp => ?_, h.frame.faults, nofun⟩
    rw [h.new p (by simpa [rs255_nn] using hp)]
    rfl
  · intro k m' _ hk h
    have hb := (inBounds_channel .errorStatus k).mpr hk
    rw [wp_store hb]
    exact h.put line_injective k hb

theorem wp_inject (hrand : ∀ n, 0 ≤ rand n) (hc : Symbols rs255 255 c) (hm : Holds m .recd 255 c)
    (hblock : InBlock rand i .none) (n : ℕ) :
    wp (inject rand i n) (fun x m' => Tracks c m (Injected.run rand i n .none) x m') m := by
  apply wp_seq (wp_clearStatus hm)
  intro _ m' h
  exact wp_injectLoop hrand hc n h hblock

end Passes

/-! ### The loop and its report -/

/-- The word the loop leaves in `recd`. -/
def received (m : Machine channelDims) (k : ℕ) : ℤ := m.val .recd (line k)

/-- Every access of the loop is inside its arrays, however many passes it makes. -/
def StaysInside (m : Machine channelDims) (rand : ℕ → ℤ) (i : ℕ) : Prop :=
  ∀ n, ∀ f ∈ ((inject rand i n).exec { m with faults := [] }).faults, ¬ f.OutOfRange

/-- When the loop ends, `recd` holds bytes and differs from `c` in `i` places. -/
def MakesErrors (m : Machine channelDims) (rand : ℕ → ℤ) (i : ℕ) (c : ℕ → ℤ) : Prop :=
  ∀ n, ¬ ((inject rand i n).eval m).k < i → Symbols rs255 255 (received ((inject rand i n).exec m)) ∧
    (differences 255 (received ((inject rand i n).exec m)) c).card = i

section Report

variable {rand : ℕ → ℤ} {i : ℕ} {c : ℕ → ℤ} {m : Machine channelDims}

theorem staysInside_iff (hrand : ∀ n, 0 ≤ rand n) (hc : Symbols rs255 255 c) (hm : Holds m .recd 255 c) :
    StaysInside m rand i ↔ InBlock rand i .none := by
  have hm' : Holds { m with faults := [] } .recd 255 c := hm
  constructor
  · intro h n hlt hplace
    have hclear := wp_iff_run.mp (wp_clearStatus hm')
    obtain ⟨k, hout⟩ := injectLoop_out hrand hc n hclear hlt hplace
    apply h k (.load .errorStatus [255]) _ trivial
    unfold inject
    rw [exec_bind]
    exact wp_iff_run.mp hout
  · intro hblock n f hf
    have htracks := wp_iff_run.mp (wp_inject hrand hc hm' hblock n)
    rw [htracks.faults] at hf
    exact absurd hf List.not_mem_nil

theorem makesErrors_iff (hrand : ∀ n, 0 ≤ rand n) (hc : Symbols rs255 255 c) (hm : Holds m .recd 255 c)
    (hblock : InBlock rand i .none) : MakesErrors m rand i c ↔ Flips rand i := by
  apply forall_congr'
  intro n
  have htracks := wp_iff_run.mp (wp_inject hrand hc hm hblock n)
  have hle : (Injected.run rand i n .none).hits.length ≤ i := Injected.length_run_le (Nat.zero_le i) n
  have hword : ∀ k < 255, received ((inject rand i n).exec m) k = (Injected.run rand i n .none).word c k :=
    fun k hk => htracks.recd.val_eq hk
  have hsymbols : Symbols rs255 255 (received ((inject rand i n).exec m)) := by
    intro k hk
    rw [hword k hk]
    exact symbols_hits hc _ k hk
  have hdiff : differences 255 (received ((inject rand i n).exec m)) c =
      differences 255 ((Injected.run rand i n .none).word c) c := by
    apply filter_congr
    intro k hk
    rw [hword k (mem_range.mp hk)]
  have hcard := card_differences_hits hc htracks.legal (Injected.run rand i n .none).nodup
  rw [htracks.k, hdiff, Injected.word, hcard]
  have hend : ¬ ((Injected.run rand i n .none).hits.length : ℤ) < i ↔ (Injected.run rand i n .none).hits.length = i := by
    omega
  rw [hend]
  apply forall_congr'
  intro hlen
  rw [and_iff_right hsymbols]
  have hall := List.length_filter_eq_length_iff (l := (Injected.run rand i n .none).hits) (p := fun e => e.2 % 256 ≠ 0)
  rw [hlen] at hall
  simpa only [decide_eq_true_eq] using hall

/-- **The injection of errors.** The loop stays inside its arrays, and makes `i` errors whenever it ends, for those
streams in which every place is in the block and every value flips a bit of the byte. -/
theorem inject_iff (m : Machine channelDims) (rand : ℕ → ℤ) (i : ℕ) (c : ℕ → ℤ) (hrand : ∀ n, 0 ≤ rand n)
    (hc : Symbols rs255 255 c) (hm : Holds m .recd 255 c) :
    StaysInside m rand i ∧ MakesErrors m rand i c ↔ InBlock rand i .none ∧ Flips rand i := by
  rw [staysInside_iff hrand hc hm]
  exact and_congr_right fun hblock => makesErrors_iff hrand hc hm hblock

end Report

/-- The word `c` in `recd`, and nothing in `error_status`. -/
def transmitted (c : ℕ → ℤ) : Machine channelDims where
  cell a idx :=
    match a, idx with
    | .recd, [j] => if 0 ≤ j ∧ j < 255 then some (c j.toNat) else none
    | _, _ => none
  inBounds a idx v h := by
    split at h
    · split_ifs at h with hj
      exact ⟨hj, trivial⟩
    · exact absurd h (by simp)
  junk _ _ := 0
  faults := []

theorem holds_transmitted (c : ℕ → ℤ) : Holds (transmitted c) .recd 255 c := by
  intro k hk
  have hrange : 0 ≤ (k : ℤ) ∧ (k : ℤ) < 255 := by omega
  simp only [transmitted, line, if_pos hrange, Int.toNat_natCast]

/-- The values 1, 2, 3, … -/
def countingDraws (n : ℕ) : ℤ := n + 1

theorem inject_counting : StaysInside (transmitted counting) countingDraws 1 ∧
    MakesErrors (transmitted counting) countingDraws 1 counting ↔ InBlock countingDraws 1 .none ∧ Flips countingDraws 1 := by
  have hrand : ∀ n, 0 ≤ countingDraws n := fun n => Int.natCast_nonneg (n + 1)
  have hword : Symbols rs255 255 counting := symbols_counting le_rfl
  have hheld := holds_transmitted counting
  exact inject_iff (transmitted counting) countingDraws 1 counting hrand hword hheld

theorem inject_not_within :
    IsCodeword rs255 (elements rs255 fun _ => 0) ∧
      ¬ StaysInside (transmitted fun _ => 0) (fun _ => 255) 1 ∧
      ¬ MakesErrors (transmitted fun _ => 0) (fun _ => 0) 1 fun _ => 0 := by
  have hzero : Symbols rs255 255 fun _ => 0 := fun _ _ => ⟨le_rfl, Int.natCast_nonneg _⟩
  have hheld := holds_transmitted fun _ => 0
  refine ⟨fun j _ => ?_, ?_, ?_⟩
  · have helements : ∀ k, elements rs255 (fun _ => 0) k = 0 := fun k => BinaryField.ofBits_zero _
    simp [syndrome, helements]
  · rw [staysInside_iff (fun _ => by decide) hzero hheld]
    intro h
    exact h 0 Nat.one_pos rfl
  · have hblock : InBlock (fun _ => 0) 1 .none := fun n _ => by
      show (0 : ℤ) % 256 ≠ 255
      decide
    rw [makesErrors_iff (fun _ => le_rfl) hzero hheld hblock]
    intro h
    have hhits : (Injected.run (fun _ => 0) 1 1 .none).hits = [(0, 0)] := rfl
    exact h 1 (congrArg List.length hhits) (0, 0) (by rw [hhits]; exact List.mem_singleton_self _) rfl

end ReedSolomon
