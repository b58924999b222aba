import ReedSolomon.Hardware.Tally
import ReedSolomon.Hardware.TestBench

/-!
# The SystemVerilog bench and any device

The bench of `test_RSEncoder.sv` connected to a device whose ports take any values from edge to edge. As its tables
are never filled, `decode` turns every word into zeros, so the verdict is decided by the messages alone: whatever the
device sends, `no_encoder_errors` counts the messages that are not zeros (`verdict_any_device`).
-/

open Imp

namespace ReedSolomon

namespace Sv

/-- The bench behind edge `t`, on a device with the ports `E t` there. -/
def benchOn (unknown : ℤ) (vectors : List TestVector) (E : ℕ → RsEncoder) : ℕ → TestRsEncoder
  | 0 => TestRsEncoder.initial unknown vectors
  | t + 1 => ((benchOn unknown vectors E t).edge (E t).encoderOutputPort).change (E t) (E (t + 1))

/-- A packet whose message is not zeros. -/
def NonzeroMessage (v : TestVector) : Prop := ¬ ZeroMessage v

/-- Between packets. -/
structure Counted (vectors : List TestVector) (b : TestRsEncoder) : Prop where
  blank : Blank b.memory
  count : ∃ sooner, vectors = sooner ++ b.todo ∧ b.noEncoderErrors = tally NonzeroMessage sooner

/-- While a packet is under way. -/
structure OnTrial (vectors : List TestVector) (b : TestRsEncoder) : Prop where
  blank : Blank b.memory
  count : ∃ sooner v, vectors = sooner ++ v :: b.todo ∧
    b.noEncoderErrors = drawCount (tally NonzeroMessage sooner) v ∧
    Holds b.memory .data 239 fun k => (v.bytes k).toNat

/-- The first `n` elements of `recd` are bytes. -/
def BytesRead (n : ℕ) (b : TestRsEncoder) : Prop := ∃ f : ℕ → ℤ, Symbols rs255 n f ∧ Holds b.memory .msg n f

/-- What holds behind every edge. -/
inductive Progress (vectors : List TestVector) (b : TestRsEncoder) : Prop
  | resetHigh : Counted vectors b → b.wait = .resetHigh → Progress vectors b
  | resetLow : Counted vectors b → b.wait = .resetLow → Progress vectors b
  | ready : OnTrial vectors b → b.wait = .ready → Progress vectors b
  | writing (c : ℕ) : OnTrial vectors b → b.wait = .writing c → Progress vectors b
  | valid : OnTrial vectors b → b.wait = .valid → Progress vectors b
  | reading (c : ℕ) : OnTrial vectors b → b.wait = .reading c → BytesRead (min c 255) b → Progress vectors b
  | done : Counted vectors b → b.todo = [] → b.wait = .done → Progress vectors b

theorem byte_eq_zero_iff (v : BitVec 8) : (v.toNat : ℤ) = 0 ↔ v = 0 := by
  rw [Int.natCast_eq_zero, ← BitVec.toNat_inj]
  rfl

theorem BytesRead.read {b : TestRsEncoder} {c : ℕ} (hc : c ≤ 255) (h : BytesRead c b) (l : Lanes) :
    wp (readLanes .msg c l) (fun _ m' => Keeps [.msg] b.memory m' ∧
      ∃ f, Symbols rs255 (min (c + nbByteInput) 255) f ∧ Holds m' .msg (min (c + nbByteInput) 255) f) b.memory := by
  obtain ⟨f, hf, hmsg⟩ := h
  -- what is there, with the lanes behind it
  let g := fun k => if k < c then f k else ((l (k - c)).toNat : ℤ)
  have hg : ∀ k, 0 ≤ g k ∧ g k ≤ 255 ∨ ¬ k < 255 := fun k => by
    by_cases hk : k < c
    · left
      rw [show g k = f k from if_pos hk]
      exact hf k hk
    · have := (l (k - c)).isLt
      refine Or.inl ?_
      simp only [g, if_neg hk]
      omega
  have hold : Holds b.memory .msg c g := fun k hk => by rw [hmsg k hk, show g k = f k from if_pos hk]
  refine wp_mono (wp_readLanes inBounds_msg_iff hc hold fun i _ _ => ?_) fun _ m' hm' =>
    ⟨hm'.1, g, fun k hk => (hg k).resolve_right (by omega), hm'.2⟩
  rw [show g (c + i) = _ from if_neg (by omega), Nat.add_sub_cancel_left]

theorem OnTrial.of_keeps {vectors : List TestVector} {b b' : TestRsEncoder} (h : OnTrial vectors b)
    (hk : Keeps [.msg] b.memory b'.memory) (htodo : b'.todo = b.todo) (hcount : b'.noEncoderErrors = b.noEncoderErrors) :
    OnTrial vectors b' := by
  obtain ⟨hblank, sooner, v, hsplit, hn, hdata⟩ := h
  refine ⟨hblank.of_keeps hk (by simp) (by simp), sooner, v, ?_, ?_, hdata.of_keeps hk (by simp)⟩
  · rw [htodo, hsplit]
  · rw [hcount, hn]

namespace TestRsEncoder

variable {vectors : List TestVector} {b : TestRsEncoder} {e e' : RsEncoder} {l : Lanes}

theorem progress_nextPacket (h : Counted vectors b) : Progress vectors b.nextPacket := by
  obtain ⟨hblank, sooner, hsplit, hn⟩ := h
  cases htodo : b.todo with
  | nil =>
    have hnext : b.nextPacket = { b with wait := .done } := by rw [nextPacket, htodo]
    rw [hnext]
    exact .done ⟨hblank, sooner, hsplit, hn⟩ htodo rfl
  | cons v rest =>
    obtain ⟨hframe, hdata⟩ := wp_iff_run.mp (wp_drawData v.bytes (m := b.memory))
    rw [nextPacket, htodo]
    refine .ready ⟨hblank.of_keeps hframe.keeps (by simp) (by simp), sooner, v, ?_, ?_, hdata⟩ rfl
    · rw [hsplit, htodo]
    · rw [drawCount, ← hn]

theorem progress_send (h : OnTrial vectors b) (c : ℕ) : Progress vectors (b.send c) := by
  unfold send
  split_ifs
  · have hsame := (wp_iff_run.mp (wp_writeLanes (a := .data) (m := b.memory) c b.dataOutputPort)).1
    exact .writing _ (h.of_keeps (hsame.mono (by simp)) rfl rfl) rfl
  · exact .valid (h.of_keeps (Keeps.refl _ _) rfl rfl) rfl

/-- The verdict on a packet does not depend on what was read. -/
theorem counted_check (h : OnTrial vectors b) (hread : BytesRead 255 b) : Counted vectors b.check := by
  obtain ⟨hblank, sooner, v, hsplit, hn, hdata⟩ := h
  obtain ⟨f, hf, hmsg⟩ := hread
  have hbytes : HasBytes b.memory := fun k hk => ⟨f k, (hf k hk).1, (hf k hk).2, hmsg k hk⟩
  obtain ⟨hkeeps, _, hblamed⟩ := wp_iff_run.mp (wp_checkPacket hblank hbytes hdata b.errors)
  refine ⟨hblank.of_keeps hkeeps (by simp [decodeLocals]) (by simp [decodeLocals]), sooner ++ [v], ?_, ?_⟩
  · rw [check_todo, hsplit, List.append_assoc]
    rfl
  · have hverdict : (checkPacket b.errors).eval b.memory = true ↔ NonzeroMessage v := by
      rw [hblamed, NonzeroMessage, ZeroMessage]
      simp only [not_forall, exists_prop, Ne, byte_eq_zero_iff]
    rw [tally_append, checkCount, ← hn]
    show b.noEncoderErrors + (if (checkPacket b.errors).eval b.memory then 1 else 0) = _
    by_cases hv : NonzeroMessage v
    · rw [if_pos (hverdict.mpr hv), if_pos hv]
    · rw [if_neg (mt hverdict.mp hv), if_neg hv]

theorem progress_receive (h : OnTrial vectors b) {c : ℕ} (hread : BytesRead (min c 255) b) :
    Progress vectors (b.receive c l) := by
  unfold receive
  split_ifs with hc
  · rw [blockLength_eq] at hc
    rw [Nat.min_eq_left hc.le] at hread
    obtain ⟨hkeeps, f, hf, hmsg⟩ := wp_iff_run.mp (hread.read hc.le l)
    exact .reading _ (h.of_keeps hkeeps rfl rfl) rfl ⟨f, hf, hmsg⟩
  · rw [blockLength_eq] at hc
    rw [Nat.min_eq_right (by omega)] at hread
    exact progress_nextPacket (counted_check h hread)

theorem bytesRead_zero (b : TestRsEncoder) : BytesRead (min 0 255) b :=
  ⟨fun _ => 0, fun k hk => absurd hk (Nat.not_lt_zero k), fun k hk => absurd hk (Nat.not_lt_zero k)⟩

theorem progress_edge (h : Progress vectors b) : Progress vectors (b.edge l) := by
  unfold edge
  cases h with
  | resetHigh hc hw =>
    rw [hw]
    exact .resetLow ⟨hc.blank, hc.count⟩ rfl
  | resetLow hc hw =>
    rw [hw]
    exact progress_nextPacket hc
  | ready ht hw =>
    rw [hw]
    exact .ready ht hw
  | writing c ht hw =>
    rw [hw]
    exact progress_send ht c
  | valid ht hw =>
    rw [hw]
    exact .valid ht hw
  | reading c ht hw hread =>
    rw [hw]
    exact progress_receive ht hread
  | done hc htodo hw =>
    rw [hw]
    exact .done hc htodo hw

theorem progress_change (h : Progress vectors b) : Progress vectors (b.change e e') := by
  unfold change
  split
  · cases h with
    | ready ht hw =>
      split_ifs
      · exact progress_send ht 0
      · exact .ready ht hw
    | _ => simp_all
  · cases h with
    | valid ht hw =>
      split_ifs
      · exact progress_receive ht (bytesRead_zero b)
      · exact .valid ht hw
    | _ => simp_all
  · exact h

end TestRsEncoder

section Run

variable (unknown : ℤ) (vectors : List TestVector) (E : ℕ → RsEncoder)

theorem progress_benchOn (t : ℕ) : Progress vectors (benchOn unknown vectors E t) := by
  induction t with
  | zero => exact .resetHigh ⟨blank_elaborated unknown, [], rfl, rfl⟩ rfl
  | succ t ih => exact TestRsEncoder.progress_change (TestRsEncoder.progress_edge ih)

/-- The bench of a simulation is one of these. -/
theorem benchOn_simulate (m : Machine rs255.dims) (race : ℕ → Race) (t : ℕ) :
    benchOn unknown vectors (fun t => (simulate m unknown race vectors t).1) t =
      (simulate m unknown race vectors t).2 := by
  induction t with
  | zero => rfl
  | succ t ih =>
    rw [benchOn, ih]
    rfl

end Run

/-- **The verdict does not depend on the device.** Behind the last packet `no_encoder_errors` is the number of messages
other than zeros since the number of errors changed, and while a packet is under way it is that of those before it. -/
theorem verdict_any_device (unknown : ℤ) (vectors : List TestVector) (E : ℕ → RsEncoder) (t : ℕ) :
    let b := benchOn unknown vectors E t
    (b.wait = .done → b.noEncoderErrors = tally NonzeroMessage vectors) ∧
      (b.wait ≠ .done → b.wait ≠ .resetHigh → b.wait ≠ .resetLow → ∃ sooner v, vectors = sooner ++ v :: b.todo ∧
        b.noEncoderErrors = drawCount (tally NonzeroMessage sooner) v) := by
  intro b
  have hunder : OnTrial vectors b → ∃ sooner v, vectors = sooner ++ v :: b.todo ∧
      b.noEncoderErrors = drawCount (tally NonzeroMessage sooner) v := by
    intro h
    obtain ⟨_, sooner, v, hsplit, hn, _⟩ := h
    exact ⟨sooner, v, hsplit, hn⟩
  cases progress_benchOn unknown vectors E t with
  | resetHigh _ hw => exact ⟨fun h => absurd (hw.symm.trans h) (by simp), fun _ h => absurd hw h⟩
  | resetLow _ hw => exact ⟨fun h => absurd (hw.symm.trans h) (by simp), fun _ _ h => absurd hw h⟩
  | ready ht hw => exact ⟨fun h => absurd (hw.symm.trans h) (by simp), fun _ _ _ => hunder ht⟩
  | writing c ht hw => exact ⟨fun h => absurd (hw.symm.trans h) (by simp), fun _ _ _ => hunder ht⟩
  | valid ht hw => exact ⟨fun h => absurd (hw.symm.trans h) (by simp), fun _ _ _ => hunder ht⟩
  | reading c ht hw => exact ⟨fun h => absurd (hw.symm.trans h) (by simp), fun _ _ _ => hunder ht⟩
  | done hc htodo hw =>
    obtain ⟨_, sooner, hsplit, hn⟩ := hc
    rw [htodo, List.append_nil] at hsplit
    exact ⟨fun _ => by rw [hsplit]; exact hn, fun h => absurd hw h⟩

end Sv

end ReedSolomon
