import ReedSolomon.Hardware.Lanes
import ReedSolomon.Main.Words

/-!
# What encoder and decoder guarantee

The results for the parameters of the files: errors up to the capacity are corrected
(`decode_few_errors`), a word beyond it is either left alone or turned into a codeword (`decode_any_word`),
the test for errors accepts the blocks of the encoder and nothing else (`returns_zero_iff`), and blocks of
different messages are far apart (`blocks_far_apart`).
-/

open Imp Finset

namespace ReedSolomon

variable (m : Machine rs255.dims)

theorem booted_spec : Initialised (booted m) ∧ Frame [.alphaTo, .indexOf, .gg] m (booted m) :=
  wp_iff_run.mp (wp_initialise m)

theorem sent_spec {data : ℕ → ℤ} (hdata : Symbols rs255 rs255.kk data) :
    Frame [.data, .bb, .recd] (booted m) (sent m data) ∧
      HoldsWord (sent m data) .recd rs255.nn (block rs255 (elements rs255 data)) ∧
      HasRegister (sent m data) (remainder rs255 (elements rs255 data) 0) :=
  wp_iff_run.mp (wp_transmit galoisMul_rs255 (booted_spec m).1 hdata)

theorem encoded_spec {data : ℕ → ℤ} (hdata : Symbols rs255 rs255.kk data) :
    HasRegister (encoded m data) (remainder rs255 (elements rs255 data) 0) :=
  (wp_iff_run.mp (wp_encode galoisMul_rs255 (booted_spec m).1 hdata)).2.2

variable {m}

theorem wp_encodeData (hI : Initialised m) {data : ℕ → ℤ} (hdata : Symbols rs255 239 data) (hm : Holds m .data 239 data) :
    wp encodeData (fun _ m' => Frame [.bb, .recd] m m' ∧ HoldsWord m' .recd rs255.nn (block rs255 (elements rs255 data)) ∧
      HasRegister m' (remainder rs255 (elements rs255 data) 0)) m := by
  have hword : HoldsWord m .data rs255.kk (elements rs255 data) := fun k hk => by
    rw [hm k hk, poly_elements hdata hk]
  apply wp_seq (wp_encodeRs galoisMul_rs255 hI hword)
  intro _ m₁ h₁
  obtain ⟨hf₁, hR⟩ := h₁
  apply wp_mono (wp_assemble (hword.of_frame hf₁ (by simp)) hR)
  intro _ m₂ h₂
  obtain ⟨hf₂, hB⟩ := h₂
  refine ⟨(hf₁.mono (by simp)).trans (hf₂.mono (by simp)), hB, fun j hj => ?_⟩
  rw [hf₂.cell _ (by simp)]
  exact hR j hj

theorem RsEncoder.encodeBlock_spec {e : RsEncoder} (hI : Initialised e.memory) {data : ℕ → ℤ}
    (hdata : Symbols rs255 239 data) (hm : Holds e.memory .data 239 data) :
    (∀ k < 255, word e.encodeBlock.memory .recd k = rs255.poly (block rs255 (elements rs255 data) k)) ∧
      ∀ k < 16, word e.encodeBlock.memory .bb k = rs255.poly (block rs255 (elements rs255 data) (239 + k)) := by
  obtain ⟨_, hB, hR⟩ := wp_iff_run.mp (wp_encodeData hI hdata hm)
  constructor
  · exact fun k hk => hB.word_eq hk
  · exact fun k hk => (hR.word_eq hk).trans (congrArg rs255.poly (block_parity _ k).symm)

theorem heard_spec {r : ℕ → ℤ} (hr : Symbols rs255 rs255.nn r) :
    Frame [.recd] m (heard m r) ∧ HoldsWord (heard m r) .recd rs255.nn (elements rs255 r) :=
  wp_iff_run.mp (wp_receive_recd hr)

theorem word_sent (m : Machine rs255.dims) {data : ℕ → ℤ} (hdata : Symbols rs255 239 data) {k : ℕ} (hk : k < 255) :
    word (sent m data) .recd k = rs255.poly (block rs255 (elements rs255 data) k) :=
  (sent_spec m hdata).2.1.word_eq hk

theorem decoded_spec {r : ℕ → ℤ} (hT : HasTables m) (hr : Symbols rs255 rs255.nn r) :
    ∃ y, Decoded (elements rs255 r) (heard m r) (returned (heard m r)) y (decoded (heard m r)) :=
  wp_iff_run.mp (wp_decodeRs (hT.of_frame (heard_spec hr).1 (by simp) (by simp)) (heard_spec hr).2)

theorem hasTables_sent {data : ℕ → ℤ} (hdata : Symbols rs255 rs255.kk data) : HasTables (sent m data) :=
  (booted_spec m).1.tables.of_frame (sent_spec m hdata).1 (by simp) (by simp)

/-- **Errors up to the capacity are corrected.** -/
theorem decode_few_errors (m : Machine rs255.dims) (data r : ℕ → ℤ) (hdata : Symbols rs255 239 data)
    (hr : Symbols rs255 255 r) (hfew : (differences 255 r (word (sent m data) .recd)).card ≤ 8) :
    (∀ k < 239, word (sent m data) .recd k = data k) ∧
      (∀ k < 16, word (sent m data) .recd (239 + k) = word (sent m data) .bb k) ∧
      (∀ k < 255, word (decoded (heard (sent m data) r)) .recd k = word (sent m data) .recd k) ∧
      returned (heard (sent m data) r) = (if differences 255 r (word (sent m data) .recd) = ∅ then 0 else 1) ∧
      (decoded (heard (sent m data) r)).faults = m.faults := by
  obtain ⟨hframe, hblock, hparity⟩ := sent_spec m hdata
  obtain ⟨y, hy⟩ := decoded_spec (hasTables_sent hdata) hr
  have hdiff : differences 255 r (word (sent m data) .recd) =
      differing rs255 (elements rs255 r) (block rs255 (elements rs255 data)) :=
    differences_eq (fun k hk => (poly_elements hr hk).symm) fun _ => word_sent m hdata
  have hcode := isCodeword_block (elements rs255 data)
  rw [hdiff] at hfew ⊢
  have hcorrected := hy.outcome.eq_codeword hcode hfew
  refine ⟨fun k hk => ?_, fun k hk => ?_, fun k hk => ?_, ?_, ?_⟩
  · rw [word_sent m hdata (by omega), block_message _ hk, poly_elements hdata hk]
  · rw [word_sent m hdata (by omega), hparity.word_eq (show k < 2 * rs255.tt from hk)]
    exact congrArg rs255.poly (block_parity (elements rs255 data) k)
  · rw [hy.recd.word_eq hk, word_sent m hdata hk, hcorrected k hk]
  · exact hy.outcome.code_eq hcode hfew
  · rcases hy.frame with ⟨_, hf⟩ | ⟨hover, _⟩
    · rw [hf.faults, (heard_spec hr).1.faults, hframe.faults, (booted_spec m).2.faults]
    · exact absurd hover (not_overruns hcode hfew)

/-- The word `0, 1, 2, …`. -/
def counting (k : ℕ) : ℤ := k

theorem symbols_counting {n : ℕ} (hn : n ≤ 255) : Symbols rs255 n counting := fun k hk => by
  show 0 ≤ (k : ℤ) ∧ (k : ℤ) ≤ 255
  omega

theorem decode_one_error :
    let w := word (sent (Machine.fresh _) counting) .recd
    let r := fun k => if k = 7 then Int.xor (w k) 1 else w k
    (∀ k < 255, word (decoded (heard (sent (Machine.fresh _) counting) r)) .recd k = w k) ∧
      (differences 255 r w).card ≤ 8 := by
  have hdata : Symbols rs255 239 counting := symbols_counting (by decide)
  have hword := fun k => word_sent (Machine.fresh _) hdata (k := k)
  intro w r
  have hr : Symbols rs255 255 r := fun k hk => by
    by_cases h7 : k = 7
    · rw [show r k = Int.xor (w k) 1 from if_pos h7, show w k = _ from hword k hk, ← rs255.poly_one, rs255.xor_poly]
      exact ⟨rs255.poly_nonneg _, rs255.poly_le _⟩
    · rw [show r k = w k from if_neg h7, show w k = _ from hword k hk]
      exact ⟨rs255.poly_nonneg _, rs255.poly_le _⟩
  have hfew : (differences 255 r w).card ≤ 8 := by
    have hsub : differences 255 r w ⊆ {7} := fun k hk => by
      rw [differences, mem_filter] at hk
      by_contra h7
      exact hk.2 (if_neg (by simpa using h7))
    exact (card_le_card hsub).trans (by decide)
  exact ⟨(decode_few_errors (Machine.fresh _) counting r hdata hr hfew).2.2.1, hfew⟩

/-! ### Any received word -/

/-- **A received word is left alone or turned into a codeword nearby.** -/
theorem decode_any_word (m : Machine rs255.dims) (r : ℕ → ℤ) (hr : Symbols rs255 255 r) :
    let h := heard (booted m) r
    let final := word (decoded h) .recd
    (returned h = 0 ∨ returned h = 1 ∨ returned h = 2 ∨ returned h = 3) ∧
      (returned h = 2 ∨ returned h = 3 → ∀ k < 255, final k = r k) ∧
      (returned h = 1 → Symbols rs255 255 final ∧ (∀ i < 16, syndrome rs255 (elements rs255 final) i = 0) ∧
        1 ≤ (differences 255 r final).card ∧ (differences 255 r final).card ≤ 8 ∧
        (decoded h).val .l [((lastRow rs255).eval h : ℤ)] = (differences 255 r final).card) ∧
      (returned h = 0 → ∀ k < 255, final k = r k) := by
  intro h final
  obtain ⟨y, hy⟩ := decoded_spec (booted_spec m).1.tables hr
  have hfinal : ∀ k < 255, final k = rs255.poly (y k) := fun k hk => hy.recd.word_eq hk
  have hsame : returned h ≠ 1 → ∀ k < 255, final k = r k := fun hcode k hk => by
    rw [hfinal k hk, hy.outcome.eq_received hcode k hk, poly_elements hr hk]
  have hdiff : differences 255 r final = differing rs255 (elements rs255 r) y :=
    differences_eq (fun k hk => (poly_elements hr hk).symm) hfinal
  refine ⟨?_, fun hcode => hsame (by omega), fun hcode => ?_, fun hcode => hsame (by omega)⟩
  · have houtcome := hy.outcome
    generalize returned h = code at houtcome
    cases houtcome <;> simp
  · have hl := Machine.val_of_cell (hy.degree hcode)
    obtain ⟨hno, hyes, hnear⟩ := hy.outcome.of_one hcode
    rw [hdiff]
    refine ⟨fun k hk => ?_, ?_, ?_, hnear, hl⟩
    · rw [hfinal k hk]
      exact ⟨rs255.poly_nonneg _, rs255.poly_le _⟩
    · refine hyes.congr fun k hk => ?_
      rw [elements, hfinal k hk]
      exact elements_poly y k
    · rw [Nat.one_le_iff_ne_zero, Ne, card_eq_zero]
      intro hnone
      exact hno (hyes.congr (differing_eq_empty.mp hnone))

theorem decode_counting :
    let h := heard (booted (Machine.fresh _)) counting
    returned h = 2 ∨ returned h = 3 → ∀ k < 255, word (decoded h) .recd k = k :=
  (decode_any_word (Machine.fresh _) counting (symbols_counting le_rfl)).2.1

/-! ### Encoder and decoder -/

/-- The test for errors accepts the blocks of the encoder and no other word, and so it is with the encoder of
`RSEncoder`, whatever state it is in when the message is complete. -/
theorem returns_zero_iff (m : Machine rs255.dims) (r : ℕ → ℤ) (hr : Symbols rs255 255 r) :
    (returned (heard (booted m) r) = 0 ↔ ∀ k < 16, r (239 + k) = word (encoded m r) .bb k) ∧
      (∀ data, Symbols rs255 239 data → ∀ i < 16, syndrome rs255 (elements rs255 (word (sent m data) .recd)) i = 0) ∧
      ∀ e : RsEncoder, Initialised e.memory →
        (Holds e.memory .data 239 r →
          (returned (heard (booted m) r) = 0 ↔ ∀ k < 16, r (239 + k) = word e.encodeBlock.memory .bb k)) ∧
        ∀ data, Symbols rs255 239 data → Holds e.memory .data 239 data →
          ∀ i < 16, syndrome rs255 (elements rs255 (word e.encodeBlock.memory .recd)) i = 0 := by
  obtain ⟨y, hy⟩ := decoded_spec (booted_spec m).1.tables hr
  have hmessage : Symbols rs255 239 r := fun k hk => hr k (by omega)
  have hparity : ∀ k < 16, word (encoded m r) .bb k = rs255.poly (block rs255 (elements rs255 r) (239 + k)) :=
    fun k hk => ((encoded_spec m hmessage).word_eq hk).trans (congrArg rs255.poly (block_parity _ k).symm)
  have hzero : returned (heard (booted m) r) = 0 ↔
      ∀ k < 16, r (239 + k) = rs255.poly (block rs255 (elements rs255 r) (239 + k)) := by
    refine hy.outcome.code_eq_zero_iff.trans ⟨fun hcode k hk => ?_, fun h => ?_⟩
    · rw [← eq_block hcode (show 239 + k < 255 by omega), poly_elements hr (by omega)]
    · refine (isCodeword_block (elements rs255 r)).congr fun k hk => ?_
      by_cases hlt : k < 239
      · exact (block_message _ hlt).symm
      · obtain ⟨j, rfl⟩ : ∃ j, k = 239 + j := ⟨k - 239, by omega⟩
        have hj : j < 16 := by
          have : 239 + j < 255 := hk
          omega
        have := h j hj
        rw [← poly_elements hr hk, rs255.poly_inj] at this
        exact this
  have hsyndrome : ∀ data {w : ℕ → ℤ}, (∀ k < 255, w k = rs255.poly (block rs255 (elements rs255 data) k)) →
      ∀ i < 16, syndrome rs255 (elements rs255 w) i = 0 := by
    intro data w hw
    refine (isCodeword_block (elements rs255 data)).congr fun k hk => ?_
    rw [elements, hw k hk]
    exact elements_poly (block rs255 (elements rs255 data)) k
  refine ⟨?_, fun data hdata => hsyndrome data fun k => word_sent m hdata, fun e hI => ⟨fun hm => ?_, fun data hdata hm => ?_⟩⟩
  · rw [hzero]
    exact forall_congr' fun k => forall_congr' fun hk => by rw [hparity k hk]
  · rw [hzero]
    exact forall_congr' fun k => forall_congr' fun hk => by rw [(RsEncoder.encodeBlock_spec hI hmessage hm).2 k hk]
  · exact hsyndrome data (RsEncoder.encodeBlock_spec hI hdata hm).1

theorem returns_zero_counting :
    returned (heard (booted (Machine.fresh _)) counting) = 0 ↔
      ∀ k < 16, ((239 + k : ℕ) : ℤ) = word (encoded (Machine.fresh _) counting) .bb k :=
  (returns_zero_iff (Machine.fresh _) counting (symbols_counting le_rfl)).1

/-- **Minimum distance of the encoder.** -/
theorem blocks_far_apart (m m' : Machine rs255.dims) (a b : ℕ → ℤ) (ha : Symbols rs255 239 a)
    (hb : Symbols rs255 239 b) (hne : ∃ k < 239, a k ≠ b k) :
    17 ≤ (differences 255 (word (sent m a) .recd) (word (sent m' b) .recd)).card ∧
      ∀ e e' : RsEncoder, Initialised e.memory → Initialised e'.memory → Holds e.memory .data 239 a →
        Holds e'.memory .data 239 b →
        17 ≤ (differences 255 (word e.encodeBlock.memory .recd) (word e'.encodeBlock.memory .recd)).card := by
  have hfar : ∀ {w w' : ℕ → ℤ}, (∀ k < 255, w k = rs255.poly (block rs255 (elements rs255 a) k)) →
      (∀ k < 255, w' k = rs255.poly (block rs255 (elements rs255 b) k)) → 17 ≤ (differences 255 w w').card := by
    intro w w' hA hB
    have hdiff := differences_eq (P := rs255) hA hB
    obtain ⟨k, hk, hab⟩ := hne
    have hfar := differing_block (P := rs255) (D := elements rs255 a) (E := elements rs255 b) ⟨k, hk, fun h => hab (by
      rw [← poly_elements ha hk, ← poly_elements hb hk, h])⟩
    rw [← hdiff] at hfar
    exact hfar
  constructor
  · exact hfar (fun k => word_sent m ha) fun k => word_sent m' hb
  · exact fun e e' hI hI' hm hm' =>
      hfar (RsEncoder.encodeBlock_spec hI ha hm).1 (RsEncoder.encodeBlock_spec hI' hb hm').1

theorem counting_far_from_zero :
    17 ≤ (differences 255 (word (sent (Machine.fresh _) counting) .recd)
      (word (sent (Machine.fresh _) fun _ => 0) .recd)).card :=
  (blocks_far_apart (Machine.fresh _) (Machine.fresh _) counting (fun _ => 0) (symbols_counting (by decide))
    (fun _ _ => ⟨le_rfl, Int.natCast_nonneg _⟩) ⟨1, by decide, by decide⟩).1

end ReedSolomon
