import ReedSolomon.Main.Injection
import ReedSolomon.Package.TestBench
import ReedSolomon.Spec.TestInjection

/-!
# What the injection loop of the SystemVerilog bench does

`error_status` remembers the first sixteen places only, and a place may be negative. So the loop counts hits that have
no effect, and it may hit a place again. Seen from the stream of `$random`, it reads a place, and a value behind it
unless the place is one of the sixteen and was read before, until it has counted enough hits (`Hits.run`). The block then
differs in as many places as was asked for exactly if the hits are at different places of the block and change the
byte there (`inject_differences`).
-/

open Imp Finset

namespace ReedSolomon

namespace Sv

/-- The hits counted so far, and how many values were drawn. -/
structure Hits where
  hits : List (ℤ × ℤ)
  drawn : ℕ
  deriving DecidableEq, Repr

namespace Hits

def none : Hits := ⟨[], 0⟩

/-- The place the stream holds next. -/
def place (random : ℕ → BitVec 32) (s : Hits) : ℤ := (random s.drawn).toInt.tmod 256

def value (random : ℕ → BitVec 32) (s : Hits) : ℤ := (random (s.drawn + 1)).toNat

/-- A place the loop remembers. -/
def Marked (s : Hits) (p : ℤ) : Prop := (0 ≤ p ∧ p < 16) ∧ p ∈ s.hits.map Prod.fst

instance (s : Hits) (p : ℤ) : Decidable (s.Marked p) := inferInstanceAs (Decidable (_ ∧ _))

/-- A place is read, and its value unless the place is marked. -/
def next (random : ℕ → BitVec 32) (s : Hits) : Hits :=
  if s.Marked (s.place random) then { s with drawn := s.drawn + 1 }
  else { hits := s.hits ++ [(s.place random, s.value random)], drawn := s.drawn + 2 }

/-- The stream is read until `i` hits are counted, in at most the given number of passes. -/
def run (random : ℕ → BitVec 32) (i : ℕ) : ℕ → Hits → Hits
  | 0, s => s
  | passes + 1, s => if s.hits.length < i then run random i passes (s.next random) else s

/-- The hits at places of the block. -/
def inBlock (s : Hits) : List (ℤ × ℤ) := s.hits.filter fun e => 0 ≤ e.1 ∧ e.1 < 255

def word (c : ℕ → ℤ) (s : Hits) : ℕ → ℤ := s.inBlock.foldl hit c

variable {random : ℕ → BitVec 32} {s : Hits}

theorem next_of_marked (h : s.Marked (s.place random)) : s.next random = { s with drawn := s.drawn + 1 } := if_pos h

theorem next_of_unmarked (h : ¬ s.Marked (s.place random)) :
    s.next random = { hits := s.hits ++ [(s.place random, s.value random)], drawn := s.drawn + 2 } := if_neg h

theorem word_next (h : ¬ s.Marked (s.place random)) (c : ℕ → ℤ) : (s.next random).word c =
    if 0 ≤ s.place random ∧ s.place random < 255 then hit (s.word c) (s.place random, s.value random) else s.word c := by
  rw [next_of_unmarked h, word, inBlock, List.filter_append, List.filter_singleton]
  split_ifs with hplace
  · rw [decide_eq_true hplace]
    exact hits_append _ _ _
  · rw [decide_eq_false hplace, Bool.cond_false, List.append_nil]
    rfl

theorem marked_next (h : ¬ s.Marked (s.place random)) (q : ℤ) : (s.next random).Marked q ↔
    (0 ≤ s.place random ∧ s.place random < 16) ∧ q = s.place random ∨ s.Marked q := by
  rw [next_of_unmarked h, Marked, Marked, List.map_append, List.mem_append, List.map_singleton, List.mem_singleton]
  constructor
  · rintro ⟨hq, hmem | rfl⟩
    · exact Or.inr ⟨hq, hmem⟩
    · exact Or.inl ⟨hq, rfl⟩
  · rintro (⟨hq, rfl⟩ | ⟨hq, hmem⟩)
    · exact ⟨hq, Or.inr rfl⟩
    · exact ⟨hq, Or.inl hmem⟩

theorem length_run_le {i : ℕ} (h : s.hits.length ≤ i) (n : ℕ) : (run random i n s).hits.length ≤ i := by
  induction n generalizing s with
  | zero => exact h
  | succ n ih =>
    unfold run
    split_ifs with hlt
    · apply ih
      by_cases hmarked : s.Marked (s.place random)
      · rw [next_of_marked hmarked]
        exact h
      · rw [next_of_unmarked hmarked, List.length_append]
        exact hlt
    · exact h

end Hits

/-! ### The program follows the stream -/

section Stores

variable {m : Machine channelDims}

theorem inBounds_recd_iff (p : ℤ) : InBounds (channelDims .recd) [p] ↔ 0 ≤ p ∧ p < 255 := by
  simp [channelDims, rs255_nn]

theorem inBounds_errorStatus_iff (p : ℤ) : InBounds (channelDims .errorStatus) [p] ↔ 0 ≤ p ∧ p < 16 := by
  simp [channelDims, nbByteInput]

theorem wp_store_recd {f : ℕ → ℤ} (hm : Holds m .recd 255 f) (p v : ℤ) :
    wp (store .recd [p] v) (fun _ m' => Keeps [.recd] m m' ∧
      Holds m' .recd 255 (if 0 ≤ p ∧ p < 255 then Function.update f p.toNat v else f)) m := by
  by_cases hp : 0 ≤ p ∧ p < 255
  · obtain ⟨k, rfl⟩ := Int.eq_ofNat_of_zero_le hp.1
    have hb := (inBounds_recd_iff k).mpr hp
    rw [wp_store hb, if_pos hp]
    exact ⟨(Keeps.refl _ m).put (List.mem_singleton_self _) _ _ hb, hm.put k v hb⟩
  · rw [wp_store_out fun hb => hp ((inBounds_recd_iff p).mp hb), if_neg hp]
    exact ⟨(Keeps.refl _ m).record _, hm⟩

theorem wp_store_errorStatus (p : ℤ) :
    wp (store .errorStatus [p] 1) (fun _ m' => Keeps [.errorStatus] m m' ∧ ∀ q, m'.val .errorStatus [q] =
      if (0 ≤ p ∧ p < 16) ∧ q = p then 1 else m.val .errorStatus [q]) m := by
  by_cases hp : 0 ≤ p ∧ p < 16
  · have hb := (inBounds_errorStatus_iff p).mpr hp
    rw [wp_store hb]
    refine ⟨(Keeps.refl _ m).put (List.mem_singleton_self _) _ _ hb, fun q => ?_⟩
    by_cases hq : q = p
    · rw [if_pos ⟨hp, hq⟩, hq]
      exact Machine.val_of_cell (Machine.cell_put_self _ _ _ _ _)
    · rw [if_neg fun h => hq h.2, Machine.val, Machine.cell_put_of_idx _ _ _ (by simpa using hq)]
      rfl
  · rw [wp_store_out fun hb => hp ((inBounds_errorStatus_iff p).mp hb)]
    exact ⟨(Keeps.refl _ m).record _, fun q => (if_neg fun h => hp h.1).symm⟩

end Stores

/-- The machine and the locals of the loop after the hits of `s` on the word `c`. -/
structure Tracks (c : ℕ → ℤ) (s : Hits) (x : Counters) (m : Machine channelDims) : Prop where
  k : x.k = s.hits.length
  drawn : x.drawn = s.drawn
  recd : Holds m .recd 255 (s.word c)
  status : ∀ p, m.val .errorStatus [p] = if s.Marked p then 1 else 0
  values : ∀ e ∈ s.hits, 0 ≤ e.2

section Passes

variable {random : ℕ → BitVec 32} {i : ℕ} {c : ℕ → ℤ} {m : Machine channelDims} {s : Hits} {x : Counters}

theorem Tracks.of_same {m' : Machine channelDims} (h : Tracks c s x m) (hs : Same m m') : Tracks c s x m' where
  k := h.k
  drawn := h.drawn
  recd := h.recd.of_keeps hs List.not_mem_nil
  status p := by rw [hs.val_eq List.not_mem_nil, h.status p]
  values := h.values

theorem wp_injectPass (h : Tracks c s x m) :
    wp (injectPass random x) (fun x' m' => Tracks c (s.next random) { x' with k := x'.k + 1 } m') m := by
  have hplace : (random x.drawn).toInt.tmod 256 = s.place random := by rw [h.drawn, Hits.place]
  have hvalue : ((random (x.drawn + 1)).toNat : ℤ) = s.value random := by rw [h.drawn, Hits.value]
  unfold injectPass
  rw [hplace, hvalue, wp_bind]
  apply wp_load_val
  intro m₁ hs₁
  have h₁ := h.of_same hs₁
  rw [h.status]
  by_cases hmarked : s.Marked (s.place random)
  · rw [if_pos hmarked, wp_ifThenElse_neg (by decide), wp_pure, Hits.next_of_marked hmarked]
    exact ⟨(sub_add_cancel _ _).trans h.k, congrArg (· + 1) h.drawn, h₁.recd, h₁.status, h₁.values⟩
  · rw [if_neg hmarked, wp_ifThenElse_pos rfl, wp_bind]
    apply wp_load_val
    intro m₂ hs₂
    have h₂ := h₁.of_same hs₂
    apply wp_seq (wp_store_recd h₂.recd _ _)
    intro _ m₃ h₃
    obtain ⟨hk₃, hrecd⟩ := h₃
    apply wp_seq (wp_store_errorStatus _)
    intro _ m₄ h₄
    obtain ⟨hk₄, hstatus⟩ := h₄
    rw [wp_pure]
    constructor
    · rw [Hits.next_of_unmarked hmarked, List.length_append, h.k]
      rfl
    · rw [Hits.next_of_unmarked hmarked, h.drawn]
    · apply Holds.of_keeps _ hk₄ (by simp)
      rw [Hits.word_next hmarked]
      split_ifs at hrecd ⊢ with hp
      · have hload : m₁.val .recd [s.place random] = s.word c (s.place random).toNat := by
          have hlt : (s.place random).toNat < 255 := by omega
          have hcell := h₁.recd.val_eq hlt
          rwa [line, Int.toNat_of_nonneg hp.1] at hcell
        rw [hload] at hrecd
        exact hrecd
      · exact hrecd
    · intro q
      rw [hstatus q, hk₃.val_eq (by simp), h₂.status q]
      by_cases hnew : (0 ≤ s.place random ∧ s.place random < 16) ∧ q = s.place random
      · rw [if_pos hnew, if_pos ((Hits.marked_next hmarked q).mpr (Or.inl hnew))]
      · rw [if_neg hnew]
        exact if_congr (by rw [Hits.marked_next hmarked q, or_iff_right hnew]) rfl rfl
    · intro e he
      rw [Hits.next_of_unmarked hmarked, List.mem_append, List.mem_singleton] at he
      rcases he with he | rfl
      · exact h.values e he
      · exact Int.natCast_nonneg _

theorem wp_injectLoop (n : ℕ) (h : Tracks c s x m) :
    wp (injectLoop random i n x) (fun x' m' => Tracks c (Hits.run random i n s) x' m') m := by
  induction n generalizing s x m with
  | zero => exact h
  | succ n ih =>
    unfold injectLoop Hits.run
    by_cases hlt : s.hits.length < i
    · have hk : x.k < i := by rw [h.k]; omega
      rw [if_pos hk, if_pos hlt]
      apply wp_seq (wp_injectPass h)
      intro x' m' h'
      exact ih h'
    · have hk : ¬ x.k < i := by rw [h.k]; omega
      rw [if_neg hk, if_neg hlt]
      exact h

/-- Before the first pass: `error_status` holds 0, and a load outside its bounds gives 0. -/
theorem wp_clearStatus (hm : Holds m .recd 255 c) (hjunk : ∀ idx, m.junk .errorStatus idx = 0) :
    wp clearStatus (fun _ m' => Tracks c .none ⟨0, 0⟩ m') m := by
  apply wp_mono (wp_forEach (fun k s => Keeps [.errorStatus] m s ∧
    ∀ p : ℤ, (0 ≤ p ∧ p < 16 → p < k) → s.val .errorStatus [p] = 0) (Nat.zero_le blockLength) ?_ ?_)
  · intro _ m' h
    obtain ⟨hk, hzero⟩ := h
    refine ⟨rfl, rfl, hm.of_keeps hk (by simp), fun p => ?_, fun e he => absurd he List.not_mem_nil⟩
    rw [hzero p fun hp => lt_trans hp.2 (by decide), if_neg]
    intro hmarked
    exact List.not_mem_nil hmarked.2
  · refine ⟨Keeps.refl _ m, fun p hp => ?_⟩
    have hout : ¬ InBounds (channelDims .errorStatus) [p] := by
      rw [inBounds_errorStatus_iff]
      intro h
      exact absurd (hp h) (not_lt.mpr h.1)
    rw [Machine.val, m.cell_of_not_inBounds hout]
    exact hjunk _
  · intro k s _ _ h
    obtain ⟨hk, hzero⟩ := h
    by_cases hb : InBounds (channelDims .errorStatus) [(k : ℤ)]
    · rw [wp_store hb]
      refine ⟨hk.put (by simp) _ _ hb, fun p hp => ?_⟩
      by_cases hpk : p = k
      · rw [hpk]
        exact Machine.val_of_cell (Machine.cell_put_self _ _ _ _ _)
      · rw [Machine.val, Machine.cell_put_of_idx _ _ _ (by simpa using hpk)]
        exact hzero p fun h => by have := hp h; omega
    · rw [wp_store_out hb]
      refine ⟨hk.record _, fun p hp => hzero p fun h => ?_⟩
      rw [inBounds_errorStatus_iff] at hb
      have := hp h
      omega

theorem wp_inject (hm : Holds m .recd 255 c) (hjunk : ∀ idx, m.junk .errorStatus idx = 0) (n : ℕ) :
    wp (inject random i n) (fun x m' => Tracks c (Hits.run random i n .none) x m') m := by
  apply wp_seq (wp_clearStatus hm hjunk)
  intro _ m' h
  exact wp_injectLoop n h

end Passes

/-! ### The errors of a packet -/

section Packet

variable {m : Machine (dims rs255)} {c : ℕ → ℤ}

theorem wp_injectError_msg (hm : Holds m .msg 255 c) (e : ℤ × ℤ) :
    wp (injectError e) (fun _ m' => Holds m' .msg 255 (if 0 ≤ e.1 ∧ e.1 < 255 then hit c e else c)) m := by
  unfold injectError
  rw [wp_bind]
  apply wp_load_val
  intro s hs
  have hms := hm.of_keeps hs List.not_mem_nil
  by_cases hp : 0 ≤ e.1 ∧ e.1 < 255
  · obtain ⟨p, v⟩ := e
    obtain ⟨k, rfl⟩ := Int.eq_ofNat_of_zero_le hp.1
    have hk : k < 255 := by
      have : (k : ℤ) < 255 := hp.2
      omega
    rw [wp_store (inBounds_msg hk), if_pos hp, hm.val_eq hk]
    exact hms.put k _ (inBounds_msg hk)
  · have hout : ¬ InBounds (dims rs255 .msg) [e.1] := by
      rw [dims, inBounds_cons, and_iff_left inBounds_nil]
      exact hp
    rw [wp_store_out hout, if_neg hp]
    exact hms

theorem wp_injectErrors_msg (hm : Holds m .msg 255 c) (l : List (ℤ × ℤ)) :
    wp (injectErrors l)
      (fun _ m' => Holds m' .msg 255 ((l.filter fun e => 0 ≤ e.1 ∧ e.1 < 255).foldl hit c)) m := by
  induction l generalizing m c with
  | nil => exact hm
  | cons e l ih =>
    apply wp_seq (wp_injectError_msg hm e)
    intro _ m₁ hm₁
    have hrest := ih hm₁
    by_cases hp : 0 ≤ e.1 ∧ e.1 < 255
    · rw [if_pos hp] at hrest
      rw [List.filter_cons_of_pos (by simpa using hp)]
      exact hrest
    · rw [if_neg hp] at hrest
      rw [List.filter_cons_of_neg (by simpa using hp)]
      exact hrest

end Packet

/-! ### The loop and its report -/

/-- The word the loop leaves in `recd`. -/
def received (m : Machine channelDims) (k : ℕ) : ℤ := m.val .recd (line k)

theorem Hits.length_inBlock_le (s : Hits) : s.inBlock.length ≤ s.hits.length := List.length_filter_le _ _

theorem Hits.card_differences_eq_iff {c : ℕ → ℤ} (hc : Symbols rs255 255 c) {s : Hits} (hvalues : ∀ e ∈ s.hits, 0 ≤ e.2) :
    (differences 255 (s.word c) c).card = s.hits.length ↔
      (s.hits.map Prod.fst).Nodup ∧ ∀ e ∈ s.hits, (0 ≤ e.1 ∧ e.1 < 255) ∧ e.2 % 256 ≠ 0 := by
  have hlegal : ∀ e ∈ s.inBlock, Legal e := by
    intro e he
    obtain ⟨hmem, hplace⟩ := List.mem_filter.mp he
    exact ⟨of_decide_eq_true hplace, hvalues e hmem⟩
  have heffect := card_differences_hits_eq_iff hc hlegal
  constructor
  · intro hcard
    have hle := card_differences_hits_le c s.inBlock
    have hall : s.inBlock.length = s.hits.length := le_antisymm s.length_inBlock_le (by rwa [← hcard])
    have hblock : s.inBlock = s.hits := List.filter_eq_self.mpr (List.length_filter_eq_length_iff.mp hall)
    obtain ⟨hnodup, hchange⟩ := heffect.mp (hcard.trans hall.symm)
    rw [hblock] at hnodup hchange
    refine ⟨hnodup, fun e he => ⟨?_, hchange e he⟩⟩
    exact of_decide_eq_true (List.length_filter_eq_length_iff.mp hall e he)
  · intro h
    obtain ⟨hnodup, hgood⟩ := h
    have hblock : s.inBlock = s.hits := List.filter_eq_self.mpr fun e he => decide_eq_true (hgood e he).1
    rw [hblock] at heffect
    rw [word, hblock]
    exact heffect.mpr ⟨hnodup, fun e he => (hgood e he).2⟩

/-- **The injection of errors in the SystemVerilog bench.** A loop that ends has counted `i` hits and has done what the
list of these hits does to a packet. It makes at most `i` errors, and exactly `i` if the hits are at different places
of the block and every value flips a bit of the byte. -/
theorem inject_differences (random : ℕ → BitVec 32) (i passes : ℕ) (c : ℕ → ℤ) (hc : Symbols rs255 255 c)
    (m : Machine channelDims) (hm : Holds m .recd 255 c) (hjunk : ∀ idx, m.junk .errorStatus idx = 0)
    (hend : ¬ ((inject random i passes).eval m).k < i) :
    let w := received ((inject random i passes).exec m)
    let hits := (Hits.run random i passes .none).hits
    hits.length = i ∧
      (∀ s : Machine (dims rs255), Holds s .msg 255 c → Holds ((injectErrors hits).exec s) .msg 255 w) ∧
      (differences 255 w c).card ≤ i ∧
      ((differences 255 w c).card = i ↔
        (hits.map Prod.fst).Nodup ∧ ∀ e ∈ hits, (0 ≤ e.1 ∧ e.1 < 255) ∧ e.2 % 256 ≠ 0) := by
  intro w hits
  have htracks : Tracks c (Hits.run random i passes .none) ((inject random i passes).eval m)
      ((inject random i passes).exec m) := wp_iff_run.mp (wp_inject hm hjunk passes)
  have hle : hits.length ≤ i := Hits.length_run_le (Nat.zero_le i) passes
  have hlength : hits.length = i := by
    have hk : ((inject random i passes).eval m).k = hits.length := htracks.k
    omega
  have hword : ∀ k < 255, w k = (Hits.run random i passes .none).word c k := fun k hk => htracks.recd.val_eq hk
  have hdiff : differences 255 w c = differences 255 ((Hits.run random i passes .none).word c) c :=
    filter_congr fun k hk => by rw [hword k (mem_range.mp hk)]
  rw [hdiff]
  refine ⟨hlength, fun s hs k hk => ?_, ?_, ?_⟩
  · rw [hword k hk]
    exact wp_iff_run.mp (wp_injectErrors_msg hs hits) k hk
  · exact (card_differences_hits_le c _).trans ((Hits.length_inBlock_le _).trans hle)
  · have heffect := Hits.card_differences_eq_iff hc htracks.values
    rwa [show (Hits.run random i passes .none).hits.length = i from hlength] at heffect

theorem wp_receiveBlock {m : Machine channelDims} {c : ℕ → ℤ} (hc : Symbols rs255 255 c) :
    wp (receiveBlock c) (fun _ m' => Frame [.recd] m m' ∧ Holds m' .recd 255 c) m := by
  apply wp_mono (wp_forEach_wrote .recd line (fun k => byteOf (c k)) (Nat.zero_le blockLength) ?_)
  · intro _ m' h
    refine ⟨h.frame, fun k hk => ?_⟩
    have hbyte : 0 ≤ c k ∧ c k < 256 := ⟨(hc k hk).1, Int.lt_add_one_iff.mpr (hc k hk).2⟩
    rw [h.new k ⟨Nat.zero_le k, hk⟩, byteOf, Int.emod_eq_of_lt hbyte.1 hbyte.2]
  · intro k s _ hk h
    have hb : InBounds (channelDims .recd) (line k) := (inBounds_recd_iff k).mpr ⟨by omega, by exact_mod_cast hk⟩
    rw [wp_store hb]
    exact h.put line_injective k hb

/-- A stream that hits the place 20 twice with the value 1: the loop ends, and the block is what it was. -/
theorem inject_differences_twice :
    let random : ℕ → BitVec 32 := fun n => if n % 2 = 0 then 20 else 1
    let m := (receiveBlock fun _ => 0).exec (Machine.fresh channelDims)
    ((inject random 2 2).eval m).k = 2 ∧
      (differences 255 (received ((inject random 2 2).exec m)) fun _ => 0).card < 2 := by
  intro random m
  have hzero : Symbols rs255 255 fun _ => 0 := fun _ _ => ⟨le_rfl, Int.natCast_nonneg 255⟩
  obtain ⟨hframe, hm⟩ := wp_iff_run.mp (wp_receiveBlock (m := Machine.fresh channelDims) hzero)
  have hjunk : ∀ idx, m.junk .errorStatus idx = 0 := fun idx => by rw [hframe.junk]; rfl
  have hhits : (Hits.run random 2 2 .none).hits = [(20, 1), (20, 1)] := by decide
  have hk : ((inject random 2 2).eval m).k = 2 := by
    rw [(wp_iff_run.mp (wp_inject hm hjunk 2)).k, hhits]
    rfl
  obtain ⟨_, _, hle, hiff⟩ := inject_differences random 2 2 (fun _ => 0) hzero m hm hjunk (by rw [hk]; decide)
  refine ⟨hk, lt_of_le_of_ne hle fun hcard => ?_⟩
  obtain ⟨hnodup, _⟩ := hiff.mp hcard
  rw [hhits] at hnodup
  exact absurd hnodup (by decide)

end Sv

end ReedSolomon
