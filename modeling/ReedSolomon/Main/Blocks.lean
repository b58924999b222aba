import ReedSolomon.Main.Exits
import ReedSolomon.Main.Settings

/-!
# Encoder and decoder together

For every number `tt` of errors and every `b0` over the field of the files. The blocks of the encoder are a cyclic
code (`blocks_xor_turn`). A received word passes the comparison of `main` exactly if it is within `tt` places of the
block that was sent, or if `decode_rs` gives up on it and the message in it is intact (`roundTrip_iff`).
-/

open Imp Finset

namespace ReedSolomon

variable {P : CodeParams}

theorem block_add (D E : ℕ → P.GF) {k : ℕ} (hk : k < P.nn) :
    block P (fun j => D j + E j) k = block P D k + block P E k := by
  have hcode : IsCodeword P fun j => block P D j + block P E j := fun i hi => by
    rw [syndrome_sum, isCodeword_block D i hi, isCodeword_block E i hi, add_zero]
  rw [eq_block hcode hk]
  exact block_congr (fun j hj => by rw [block_message D hj, block_message E hj]) k

theorem block_rotated (D : ℕ → P.GF) {s : ℕ} (hs : s ≤ P.nn) {k : ℕ} (hk : k < P.nn) :
    block P (rotated P s (block P D)) k = rotated P s (block P D) k :=
  (eq_block ((isCodeword_block D).rotate hs) hk).symm

theorem Outcome.recovers_iff {x y : ℕ → P.GF} {code : ℤ} (h : Outcome P x y code) (D : ℕ → P.GF) :
    (∀ k < P.kk, y k = D k) ↔
      (differing P x (block P D)).card ≤ P.tt ∨ ¬ NearCode P x ∧ ∀ k < P.kk, x k = D k := by
  have hkk := P.kk_add
  have hblock := isCodeword_block D
  constructor
  · intro hrec
    by_cases hnear : NearCode P x
    · left
      obtain ⟨v, hv, hcard⟩ := hnear
      have hy := h.eq_codeword hv hcard
      have heq : differing P x (block P D) = differing P x v := by
        ext k
        rw [mem_differing, mem_differing]
        refine and_congr_right fun hk => ?_
        rw [← hy k hk, eq_block (hv.congr hy) hk, block_congr hrec k]
      rwa [heq]
    · right
      have hsame := h.eq_received fun hone => hnear (h.nearCode_iff.mpr (Or.inr hone))
      exact ⟨hnear, fun k hk => by rw [← hsame k (by omega), hrec k hk]⟩
  · intro hcase k hk
    rcases hcase with hcard | ⟨hfar, hmessage⟩
    · rw [h.eq_codeword hblock hcard k (by omega), block_message D hk]
    · rw [h.eq_received (fun hone => hfar (h.nearCode_iff.mpr (Or.inr hone))) k (by omega), hmessage k hk]

/-! ### Every setting over bytes -/

/-- The machine with the block of the message `data` in `recd`, after `generate_gf` and `gen_poly`. -/
def laidOut (P : CodeParams) (m : Machine P.dims) (data : ℕ → ℤ) : Machine P.dims :=
  (transmit P data).exec ((initialise P).exec m)

section LaidOut

variable (m : Machine P.dims) (hP : P.toFieldParams = byteField) {data : ℕ → ℤ} (hdata : Symbols P P.kk data)

include hP hdata

theorem laidOut_spec : HasTables (laidOut P m data) ∧ (laidOut P m data).faults = m.faults ∧
    HoldsWord (laidOut P m data) .recd P.nn (block P (elements P data)) := by
  obtain ⟨hI, hf⟩ := initialise_spec P m
  obtain ⟨hf', hB, _⟩ := wp_iff_run.mp (wp_transmit (galoisMul_of_byteField hP) hI hdata)
  exact ⟨hI.tables.of_frame hf' (by simp) (by simp), hf'.faults.trans hf.faults, hB⟩

theorem word_laidOut {k : ℕ} (hk : k < P.nn) :
    word (laidOut P m data) .recd k = P.poly (block P (elements P data) k) := (laidOut_spec m hP hdata).2.2.word_eq hk

theorem elements_laidOut {k : ℕ} (hk : k < P.nn) :
    elements P (word (laidOut P m data) .recd) k = block P (elements P data) k := by
  rw [elements, word_laidOut m hP hdata hk]
  exact elements_poly _ k

theorem symbols_laidOut : Symbols P P.nn (word (laidOut P m data) .recd) :=
  symbols_word (laidOut_spec m hP hdata).2.2

end LaidOut

/-- **The blocks of the encoder are a cyclic code.** -/
theorem blocks_xor_turn (P : CodeParams) (hP : P.toFieldParams = byteField) (m : Machine P.dims) (a b : ℕ → ℤ)
    (ha : Symbols P P.kk a) (hb : Symbols P P.kk b) (shift : ℕ) (hshift : shift ≤ P.nn) :
    let sentFor := fun data => word (laidOut P m data) .recd
    (∀ k < P.nn, sentFor (fun j => Int.xor (a j) (b j)) k = Int.xor (sentFor a k) (sentFor b k)) ∧
      ∀ k < P.nn, sentFor (fun j => sentFor a (turn P.nn shift j)) k = sentFor a (turn P.nn shift k) := by
  intro sentFor
  have hkk := P.kk_add
  refine ⟨fun k hk => ?_, fun k hk => ?_⟩
  · calc sentFor (fun j => Int.xor (a j) (b j)) k
        = P.poly (block P (elements P fun j => Int.xor (a j) (b j)) k) := word_laidOut m hP (symbols_xor ha hb) hk
      _ = P.poly (block P (elements P a) k + block P (elements P b) k) := by
        rw [block_congr (fun j hj => elements_xor ha hb hj), block_add _ _ hk]
      _ = Int.xor (sentFor a k) (sentFor b k) := by
        rw [← P.xor_poly, ← word_laidOut m hP ha hk, ← word_laidOut m hP hb hk]
  · have hturned : Symbols P P.nn fun j => sentFor a (turn P.nn shift j) :=
      symbols_turn (symbols_laidOut m hP ha) hshift
    have helements : ∀ j < P.nn, elements P (fun j => sentFor a (turn P.nn shift j)) j =
        rotated P shift (block P (elements P a)) j := fun j hj => by
      rw [elements_turn, rotated_eq, rotated_eq, elements_laidOut m hP ha (turn_lt hshift hj)]
    calc sentFor (fun j => sentFor a (turn P.nn shift j)) k
        = P.poly (block P (elements P fun j => sentFor a (turn P.nn shift j)) k) :=
          word_laidOut m hP (fun j hj => hturned j (by omega)) hk
      _ = P.poly (block P (rotated P shift (block P (elements P a))) k) := by
        rw [block_congr fun j hj => helements j (by omega)]
      _ = P.poly (block P (elements P a) (turn P.nn shift k)) := by rw [block_rotated _ hshift hk, rotated_eq]
      _ = sentFor a (turn P.nn shift k) := (word_laidOut m hP ha (turn_lt hshift hk)).symm

theorem blocks_xor_turn_counting :
    let sentFor := fun data => word (laidOut rs255 (Machine.fresh _) data) .recd
    (∀ k < 255, sentFor (fun j => Int.xor (counting j) (counting j)) k =
        Int.xor (sentFor counting k) (sentFor counting k)) ∧
      ∀ k < 255, sentFor (fun j => sentFor counting (turn 255 16 j)) k = sentFor counting (turn 255 16 k) :=
  blocks_xor_turn rs255 rfl (Machine.fresh _) counting counting (symbols_counting (by decide))
    (symbols_counting (by decide)) 16 (by decide)

/-- **The round trip**, and which other words pass for one. -/
theorem roundTrip_iff (P : CodeParams) (hP : P.toFieldParams = byteField) (m : Machine P.dims) (data r : ℕ → ℤ)
    (hdata : Symbols P P.kk data) (hr : Symbols P P.nn r) :
    let c := word (laidOut P m data) .recd
    let s := (receive P .recd P.nn r).exec (laidOut P m data)
    let final := (decodeRs P).exec s
    ((∀ k < P.kk, word final .recd k = data k) ↔
        (differences P.nn r c).card ≤ P.tt ∨ ¬ NearCode P (elements P r) ∧ ∀ k < P.kk, r k = data k) ∧
      ((differences P.nn r c).card ≤ P.tt → (∀ k < P.nn, word final .recd k = c k) ∧
        (decodeRs P).eval s = (if differences P.nn r c = ∅ then 0 else 1) ∧ final.faults = m.faults) := by
  intro c s final
  have hkk := P.kk_add
  obtain ⟨hT, hfaults, hB⟩ := laidOut_spec m hP hdata
  obtain ⟨hf, hx⟩ := wp_iff_run.mp (wp_receive_recd (m := laidOut P m data) hr)
  obtain ⟨y, hdec⟩ := wp_iff_run.mp (wp_decodeRs (hT.of_frame hf (by simp) (by simp)) hx)
  have hdiff : differences P.nn r c = differing P (elements P r) (block P (elements P data)) :=
    differences_eq (fun k hk => (poly_elements hr hk).symm) fun k hk => word_laidOut m hP hdata hk
  have hfinal : ∀ k < P.nn, word final .recd k = P.poly (y k) := fun k hk => hdec.recd.word_eq hk
  have hcode := isCodeword_block (elements P data)
  rw [hdiff]
  refine ⟨?_, fun hfew => ⟨fun k hk => ?_, hdec.outcome.code_eq hcode hfew, ?_⟩⟩
  · have hrecovers := hdec.outcome.recovers_iff (elements P data)
    have hleft : (∀ k < P.kk, word final .recd k = data k) ↔ ∀ k < P.kk, y k = elements P data k :=
      forall_congr' fun k => forall_congr' fun hk => by
        rw [hfinal k (by omega), ← poly_elements hdata hk, P.poly_inj]
    have hright : (∀ k < P.kk, r k = data k) ↔ ∀ k < P.kk, elements P r k = elements P data k :=
      forall_congr' fun k => forall_congr' fun hk => by
        rw [← poly_elements hr (by omega : k < P.nn), ← poly_elements hdata hk, P.poly_inj]
    rw [hleft, hright, hrecovers]
  · rw [hfinal k hk, hdec.outcome.eq_codeword hcode hfew k hk]
    exact (word_laidOut m hP hdata hk).symm
  · rcases hdec.frame with ⟨_, hf'⟩ | ⟨hover, _⟩
    · exact hf'.faults.trans (hf.faults.trans hfaults)
    · exact absurd hover (not_overruns hcode hfew)

theorem word_laidOut_zero {k : ℕ} (hk : k < 255) :
    word (laidOut rs255 (Machine.fresh _) fun _ => 0) .recd k = 0 := by
  have hdata : Symbols rs255 239 fun _ => 0 := fun _ _ => ⟨le_rfl, Int.natCast_nonneg 255⟩
  have helements : ∀ j < rs255.kk, elements rs255 (fun _ => 0) j = 0 := fun _ _ => BinaryField.ofBits_zero _
  rw [word_laidOut (Machine.fresh _) rfl hdata hk, block_congr helements, ← eq_block isCodeword_zero hk,
    rs255.poly_eq_zero]

theorem differences_laidOut_zero (r : ℕ → ℤ) :
    differences 255 r (word (laidOut rs255 (Machine.fresh _) fun _ => 0) .recd) = differences 255 r fun _ => 0 :=
  filter_congr fun k hk => by rw [word_laidOut_zero (mem_range.mp hk)]

theorem roundTrip_twoOnes :
    let c := word (laidOut rs255 (Machine.fresh _) fun _ => 0) .recd
    let s := (receive rs255 .recd 255 twoOnes).exec (laidOut rs255 (Machine.fresh _) fun _ => 0)
    let final := (decodeRs rs255).exec s
    (differences 255 twoOnes c).card = 2 ∧ (∀ k < 255, word final .recd k = c k) ∧ final.faults = [] := by
  intro c s final
  have hdata : Symbols rs255 239 fun _ => 0 := fun _ _ => ⟨le_rfl, Int.natCast_nonneg 255⟩
  have hcard : (differences 255 twoOnes c).card = 2 := by
    rw [differences_laidOut_zero]
    decide
  obtain ⟨_, hfew⟩ := roundTrip_iff rs255 rfl (Machine.fresh _) (fun _ => 0) twoOnes hdata symbols_twoOnes
  obtain ⟨hword, _, hfaults⟩ := hfew (hcard.le.trans (by decide))
  exact ⟨hcard, hword, hfaults⟩

/-! ### More errors than the capacity -/

end ReedSolomon
