import ReedSolomon.Hardware.Lanes
import ReedSolomon.Imp.Footprint
import ReedSolomon.Main.Guarantees

/-!
# The encoder on its clock

At every edge the thread of `RSEncoder` stands at one of its `wait()` calls with its two handshake ports
as that place has them (`Consistent`), whatever it is sent and whenever it is reset. From the edge where ready
rises a packet takes thirty-two edges (`packet`): the message is read beat by beat (`Reading`), then
the block is written beat by beat (`Writing`), unless a reset comes in between.
-/

open Imp Clocked

namespace ReedSolomon

/-! ### What the programs of the encoder write -/

section Footprints

variable (P : CodeParams)

theorem writes_encodeStep (i : ℕ) : Writes [.bb] (encodeStep P i) := by
  have hbb : Arr.bb ∈ [Arr.bb] := List.mem_singleton_self _
  refine .bind (.load _ _) fun d => .bind (.load _ _) fun b => .ifThenElse ?_ ?_
  · refine .bind (.forDown fun j => ?_) fun _ => ?_
    · exact .bind (.load _ _) fun _ => .bind (.load _ _) fun _ => .bind (.load _ _) fun _ => .store hbb _ _
    · exact .bind (.load _ _) fun _ => .bind (.load _ _) fun _ => .store hbb _ _
  · exact .bind (.forDown fun j => .bind (.load _ _) fun _ => .store hbb _ _) fun _ => .store hbb _ _

theorem writes_encodeRs : Writes [.bb] (encodeRs P) :=
  .bind (.forEach fun _ => .store (List.mem_singleton_self _) _ _) fun _ => .forDown (writes_encodeStep P)

theorem writes_assemble : Writes [.recd] (assemble P) := by
  have hrecd : Arr.recd ∈ [Arr.recd] := List.mem_singleton_self _
  refine .bind (.forEach fun k => ?_) fun _ => .forEach fun k => ?_
  · exact .bind (.load _ _) fun _ => .store hrecd _ _
  · exact .bind (.load _ _) fun _ => .store hrecd _ _

theorem writes_encodeData : Writes [.bb, .recd] encodeData :=
  .bind ((writes_encodeRs rs255).mono (by simp)) fun _ => (writes_assemble rs255).mono (by simp)

theorem writes_readLanes (a : Arr) (c : ℕ) (input : Lanes) : Writes [a] (readLanes a c input : Code P Unit) :=
  .forEach fun _ => .store (List.mem_singleton_self _) _ _

theorem writes_writeLanes (a : Arr) (c : ℕ) (output : Lanes) : Writes [] (writeLanes a c output : Code P Lanes) :=
  .forUp fun _ _ => .bind (.load _ _) fun _ => .pure _

end Footprints

@[simp] theorem nbByteInput_eq : nbByteInput = 16 := rfl

@[simp] theorem messageLength_eq : messageLength = 239 := rfl

@[simp] theorem blockLength_eq : blockLength = 255 := rfl

/-! ### Any inputs, any reset -/

/-- The thread waits at `w`, with `ready` and `valid` on its handshake ports. -/
structure Waits (w : EncoderWait) (ready valid : Bool) (e : RsEncoder) : Prop where
  wait : e.wait = w
  ready : e.encoderReadyPort = ready
  valid : e.encoderValidPort = valid
  initialised : Initialised e.memory

/-- What holds after every edge. -/
inductive Consistent (e : RsEncoder) : Prop
  | initialised : Waits .initialised false false e → Consistent e
  | ready : Waits .ready true false e → Consistent e
  | reading {c : ℕ} : Waits (.reading c) true false e → Consistent e
  | writing {c : ℕ} : Waits (.writing c) false true e → Consistent e

namespace RsEncoder

variable {e : RsEncoder}

theorem waits_start (h : Initialised e.memory) : Waits .initialised false false e.start := ⟨rfl, rfl, rfl, h⟩

theorem waits_begin (h : Initialised e.memory) (hv : e.encoderValidPort = false) : Waits .ready true false e.begin :=
  ⟨rfl, rfl, hv, h⟩

theorem initialised_writeLanes (h : Initialised e.memory) (c : ℕ) :
    Initialised ((writeLanes .recd c e.encoderOutputPort).exec e.memory) :=
  Initialised.of_keeps (P := rs255) h ((writes_writeLanes rs255 .recd c e.encoderOutputPort).only e.memory) List.not_mem_nil
    List.not_mem_nil List.not_mem_nil

theorem initialised_readLanes (h : Initialised e.memory) (c : ℕ) (input : Lanes) :
    Initialised ((readLanes .data c input).exec e.memory) :=
  Initialised.of_keeps (P := rs255) h ((writes_readLanes rs255 .data c input).only e.memory) (by simp) (by simp) (by simp)

theorem initialised_encodeBlock (h : Initialised e.memory) : Initialised e.encodeBlock.memory :=
  Initialised.of_keeps (P := rs255) h (writes_encodeData.only e.memory) (by simp) (by simp) (by simp)

theorem waits_send (h : Initialised e.memory) (hr : e.encoderReadyPort = false) (hv : e.encoderValidPort = true) (c : ℕ) :
    Waits (.writing (c + nbByteInput)) false true (e.send c) ∨ Waits .ready true false (e.send c) := by
  unfold send
  split_ifs
  · exact Or.inl ⟨rfl, hr, hv, initialised_writeLanes h c⟩
  · exact Or.inr (waits_begin h rfl)

theorem consistent_send (h : Initialised e.memory) (hr : e.encoderReadyPort = false)
    (hv : e.encoderValidPort = true) (c : ℕ) : Consistent (e.send c) :=
  (waits_send h hr hv c).elim Consistent.writing Consistent.ready

theorem consistent_receive (h : Initialised e.memory) (hr : e.encoderReadyPort = true)
    (hv : e.encoderValidPort = false) (c : ℕ) : Consistent (e.receive c) := by
  unfold receive
  split_ifs
  · exact Consistent.reading ⟨rfl, hr, hv, h⟩
  · exact consistent_send (initialised_encodeBlock h) rfl rfl 0

theorem initialised_of_consistent (h : Consistent e) : Initialised e.memory := by
  cases h with
  | initialised hw => exact hw.initialised
  | ready hw => exact hw.initialised
  | reading hw => exact hw.initialised
  | writing hw => exact hw.initialised

theorem consistent_edge (h : Consistent e) (i : EncoderInput) : Consistent (e.edge i) := by
  have hinit := initialised_of_consistent h
  unfold edge
  split_ifs
  · exact Consistent.initialised (waits_start hinit)
  · unfold resume
    cases h with
    | initialised hw =>
      rw [hw.wait]
      exact Consistent.ready (waits_begin hinit hw.valid)
    | ready hw =>
      rw [hw.wait]
      exact consistent_receive hinit hw.ready hw.valid 0
    | reading hw =>
      rw [hw.wait]
      exact consistent_receive (e := { e with memory := _ }) (initialised_readLanes hinit _ _) hw.ready hw.valid _
    | writing hw =>
      rw [hw.wait]
      exact consistent_send hinit hw.ready hw.valid _

theorem waits_of_rise (h : Consistent e) (hlow : e.encoderReadyPort = false) {i : EncoderInput}
    (hrise : (e.edge i).encoderReadyPort = true) : Waits .ready true false (e.edge i) := by
  unfold edge at hrise ⊢
  split_ifs at hrise ⊢
  · exact absurd hrise Bool.false_ne_true
  · unfold resume at hrise ⊢
    cases h with
    | initialised hw =>
      rw [hw.wait]
      exact waits_begin hw.initialised hw.valid
    | ready hw => exact absurd (hlow.symm.trans hw.ready) (by decide)
    | reading hw => exact absurd (hlow.symm.trans hw.ready) (by decide)
    | writing hw =>
      rw [hw.wait] at hrise ⊢
      refine (waits_send hw.initialised hw.ready hw.valid _).resolve_left fun hstay => ?_
      exact absurd (hrise.symm.trans hstay.ready) (by decide)

end RsEncoder

/-! ### One packet -/

/-- The symbols of the block of the message `f`. -/
noncomputable def blockBytes (f : ℕ → ℤ) (k : ℕ) : ℤ := rs255.poly (block rs255 (elements rs255 f) k)

/-- `16 * k` bytes of the message `f` are in. -/
structure Reading (f : ℕ → ℤ) (k : ℕ) (e : RsEncoder) : Prop extends Waits (.reading (16 * k)) true false e where
  data : Holds e.memory .data (16 * k) f

theorem blockBytes_message {f : ℕ → ℤ} (hf : Symbols rs255 239 f) {k : ℕ} (hk : k < 239) : blockBytes f k = f k := by
  rw [blockBytes, block_message _ (show k < rs255.kk from hk), poly_elements hf hk]

theorem blockBytes_parity (m : Machine rs255.dims) {f : ℕ → ℤ} (hf : Symbols rs255 239 f) {j : ℕ} (hj : j < 16) :
    blockBytes f (239 + j) = word (encoded m f) .bb j :=
  (congrArg rs255.poly (block_parity (P := rs255) _ j)).trans ((encoded_spec m hf).word_eq hj).symm

theorem toNat_blockBytes (f : ℕ → ℤ) (k : ℕ) : ((BitVec.ofInt 8 (blockBytes f k)).toNat : ℤ) = blockBytes f k := by
  have h0 : 0 ≤ blockBytes f k := rs255.poly_nonneg _
  have h1 : blockBytes f k ≤ 255 := rs255.poly_le _
  rw [BitVec.toNat_ofInt]
  omega

/-- The message `f` and its block are in memory. -/
structure HasBlock (f : ℕ → ℤ) (m : Machine rs255.dims) : Prop where
  initialised : Initialised m
  data : Holds m .data 239 f
  recd : Holds m .recd 255 (blockBytes f)

/-- Beat `k` of the block of `f` is on the output ports. -/
structure Writing (f : ℕ → ℤ) (k : ℕ) (e : RsEncoder) : Prop extends
    Waits (.writing (16 * (k + 1))) false true e where
  block : HasBlock f e.memory
  output : ∀ i < 16, 16 * k + i < 255 → e.encoderOutputPort i = BitVec.ofInt 8 (blockBytes f (16 * k + i))

/-- The block of `f` has been written. -/
structure Sent (f : ℕ → ℤ) (e : RsEncoder) : Prop extends Waits .ready true false e where
  block : HasBlock f e.memory

theorem inBounds_data_iff (k : ℕ) : InBounds (rs255.dims .data) (line k) ↔ k < 239 := by
  rw [CodeParams.dims, inBounds_cons, show (rs255.kk : ℤ) = 239 from rfl]
  simp

theorem hasBlock_encodeData {f : ℕ → ℤ} (hf : Symbols rs255 239 f) {m : Machine rs255.dims} (hI : Initialised m)
    (hdata : Holds m .data 239 f) : HasBlock f (encodeData.exec m) := by
  obtain ⟨hframe, hB, _⟩ := wp_iff_run.mp (wp_encodeData hI hf hdata)
  refine ⟨?_, ?_, hB⟩
  · exact hI.of_frame hframe (by simp) (by simp) (by simp)
  · exact hdata.of_keeps hframe.keeps (by simp)

theorem HasBlock.of_same {f : ℕ → ℤ} {m m' : Machine rs255.dims} (h : HasBlock f m) (hs : Same m m') :
    HasBlock f m' :=
  ⟨h.initialised.of_keeps hs (by simp) (by simp) (by simp), h.data.of_keeps hs (by simp), h.recd.of_keeps hs (by simp)⟩

namespace RsEncoder

variable {e : RsEncoder} {f : ℕ → ℤ} {k : ℕ} {input : Lanes}

theorem writing_send (h : HasBlock f e.memory) (hr : e.encoderReadyPort = false) (hv : e.encoderValidPort = true)
    (hk : k < 16) : Writing f k (e.send (16 * k)) := by
  obtain ⟨hsame, hout⟩ := wp_iff_run.mp (wp_writeLanes (m := e.memory) (a := .recd) (16 * k) e.encoderOutputPort)
  have hlt : 16 * k < blockLength := by
    rw [blockLength_eq]
    omega
  rw [send, if_pos hlt]
  refine ⟨⟨?_, hr, hv, (h.of_same hsame).initialised⟩, h.of_same hsame, fun i hi hki => ?_⟩
  · rw [nbByteInput_eq, Nat.mul_succ]
  · exact (hout i hi).trans (congrArg _ (h.recd.val_eq hki))

theorem sent_send (h : HasBlock f e.memory) : Sent f (e.send (16 * 16)) := by
  rw [send, if_neg (by decide)]
  exact ⟨waits_begin h.initialised rfl, h⟩

theorem reading_first (h : Waits .ready true false e) : Reading f 0 (e.resume input) := by
  rw [resume, h.wait]
  show Reading f 0 (e.receive 0)
  rw [receive, if_pos (by decide)]
  exact ⟨⟨rfl, h.ready, h.valid, h.initialised⟩, fun j hj => absurd hj (Nat.not_lt_zero j)⟩

/-- The lanes of beat `k` of the message `f`. -/
def Carries (input : Lanes) (f : ℕ → ℤ) (k : ℕ) : Prop := ∀ i < nbByteInput, 16 * k + i < 239 → ((input i).toNat : ℤ) = f (16 * k + i)

theorem resume_reading (h : Reading f k e) (hk : k < 15) (hin : Carries input f k) : ∃ m',
    Initialised m' ∧ Holds m' .data (min (16 * (k + 1)) 239) f ∧
      e.resume input = receive (16 * (k + 1)) { e with memory := m' } := by
  have hread : wp (readLanes .data (16 * k) input)
      (fun _ m' => Keeps [.data] e.memory m' ∧ Holds m' .data (min (16 * k + nbByteInput) 239) f) e.memory :=
    wp_readLanes inBounds_data_iff (by omega) h.data hin
  obtain ⟨hkeeps, hdata⟩ := wp_iff_run.mp hread
  refine ⟨(readLanes .data (16 * k) input).exec e.memory, initialised_readLanes h.initialised (16 * k) input, hdata, ?_⟩
  rw [resume, h.wait]
  rfl

theorem reading_next (h : Reading f k e) (hk : k < 14) (hin : Carries input f k) : Reading f (k + 1) (e.resume input) := by
  obtain ⟨m', hI, hdata, hnext⟩ := resume_reading h (by omega) hin
  rw [hnext, receive, if_pos (by rw [messageLength_eq]; omega)]
  rw [Nat.min_eq_left (by omega)] at hdata
  exact ⟨⟨rfl, h.ready, h.valid, hI⟩, hdata⟩

theorem writing_first (hf : Symbols rs255 239 f) (h : Reading f 14 e) (hin : Carries input f 14) :
    Writing f 0 (e.resume input) := by
  obtain ⟨m', hI, hdata, hnext⟩ := resume_reading h (by omega) hin
  rw [hnext, receive, if_neg (by decide)]
  exact writing_send (hasBlock_encodeData hf hI hdata) rfl rfl (by omega)

theorem writing_next (h : Writing f k e) (hk : k < 15) : Writing f (k + 1) (e.resume input) := by
  rw [resume, h.wait]
  exact writing_send h.block h.ready h.valid (by omega)

theorem sent_last (h : Writing f 15 e) : Sent f (e.resume input) := by
  rw [resume, h.wait]
  exact sent_send h.block

theorem edge_construct (m : Machine rs255.dims) (i : EncoderInput) : (construct m).edge i = (construct m).start := by
  rw [edge, resume]
  exact ite_self _

theorem edge_of_not_reset {i : EncoderInput} (h : i.resetPort = false) : e.edge i = e.resume i.encoderInputPort := by
  rw [edge, h]
  rfl

end RsEncoder

/-- The packet with message `f` for which ready rose at edge `a`. -/
structure Packet (f : ℕ → ℤ) (a : ℕ) (E : ℕ → RsEncoder) : Prop where
  ready : Waits .ready true false (E a)
  reading : ∀ k < 15, Reading f k (E (a + 1 + k))
  writing : ∀ k < 16, Writing f k (E (a + 16 + k))
  sent : Sent f (E (a + 32))

/-- Without a reset a packet runs through its thirty-two edges. -/
theorem packet {env : ℕ → EncoderInput} {E : ℕ → RsEncoder} (hE : Follows RsEncoder.edge env E) {a : ℕ} {f : ℕ → ℤ}
    (ha : Waits .ready true false (E a)) (hreset : ∀ j < 32, (env (a + 1 + j)).resetPort = false)
    (hf : Symbols rs255 239 f) (hin : ∀ k < 15, RsEncoder.Carries (env (a + 2 + k)).encoderInputPort f k) :
    Packet f a E := by
  have hedge : ∀ j < 32, E (a + j + 1) = (E (a + j)).resume (env (a + j + 1)).encoderInputPort := fun j hj => by
    have := hreset j hj
    rw [Nat.add_right_comm] at this
    rw [hE, RsEncoder.edge_of_not_reset this]
  have hnext : ∀ b j, b + j < 32 → E (a + b + j + 1) = (E (a + b + j)).resume (env (a + b + j + 1)).encoderInputPort :=
    fun b j h => by
      have := hedge (b + j) h
      rwa [← Nat.add_assoc] at this
  have hreading : ∀ k ≤ 14, Reading f k (E (a + 1 + k)) := fun k hk => by
    refine stages (Reading f) ?_ (fun j hj h => ?_) hk
    · have := hedge 0 (by omega)
      rw [Nat.add_zero] at this
      rw [this]
      exact RsEncoder.reading_first ha
    · rw [hnext 1 j (by omega)]
      refine RsEncoder.reading_next h hj ?_
      have := hin j (by omega)
      rwa [show a + 2 + j = a + 1 + j + 1 by omega] at this
  have hwriting : ∀ k ≤ 15, Writing f k (E (a + 16 + k)) := fun k hk => by
    refine stages (Writing f) ?_ (fun j hj h => ?_) hk
    · rw [show a + 16 = a + 1 + 14 + 1 by omega, hnext 1 14 (by omega)]
      exact RsEncoder.writing_first hf (hreading 14 le_rfl) (hin 14 (by omega))
    · rw [hnext 16 j (by omega)]
      exact RsEncoder.writing_next h hj
  refine ⟨ha, fun k hk => hreading k (by omega), fun k hk => hwriting k (by omega), ?_⟩
  rw [show a + 32 = a + 16 + 15 + 1 by omega, hnext 16 15 (by omega)]
  exact RsEncoder.sent_last (hwriting 15 le_rfl)

/-! ### Runs from the start -/

section Run

variable (m : Machine rs255.dims) (env : ℕ → EncoderInput)

/-- The encoder after edge `t`. -/
def encoderRun (t : ℕ) : RsEncoder := run RsEncoder.edge env (RsEncoder.construct m) t

theorem encoderRun_one : encoderRun m env 1 = (RsEncoder.construct m).start := RsEncoder.edge_construct m (env 1)

theorem consistent_run (t : ℕ) : Consistent (encoderRun m env (t + 1)) := by
  have hfirst : Consistent (encoderRun m env 1) := by
    rw [encoderRun_one]
    exact Consistent.initialised (RsEncoder.waits_start (booted_spec m).1)
  rw [Nat.add_comm]
  exact (follows_run RsEncoder.edge env (RsEncoder.construct m)).invariant Consistent
    (fun i e h => RsEncoder.consistent_edge h i) hfirst t

theorem initialised_run (t : ℕ) : Initialised (encoderRun m env t).memory := by
  cases t with
  | zero => exact (booted_spec m).1
  | succ t => exact RsEncoder.initialised_of_consistent (consistent_run m env t)

/-- Byte `j` of the message sampled at the edges `a + 2, …, a + 16`. -/
def sampled (a j : ℕ) : ℤ := ((env (a + 2 + j / 16)).encoderInputPort (j % 16)).toNat

variable {env}

theorem symbols_sampled (a : ℕ) (n : ℕ) : Symbols rs255 n (sampled env a) := fun j _ => by
  have := ((env (a + 2 + j / 16)).encoderInputPort (j % 16)).isLt
  rw [sampled, show (rs255.nn : ℤ) = 255 from rfl]
  omega

theorem carries_sampled (a k : ℕ) : RsEncoder.Carries (env (a + 2 + k)).encoderInputPort (sampled env a) k := by
  intro i hi _
  rw [nbByteInput_eq] at hi
  rw [sampled, show (16 * k + i) / 16 = k by omega, show (16 * k + i) % 16 = i by omega]

theorem packet_of_rise {a : ℕ} (hlow : (encoderRun m env a).encoderReadyPort = false)
    (hrise : (encoderRun m env (a + 1)).encoderReadyPort = true)
    (hreset : ∀ j < 32, (env (a + 1 + 1 + j)).resetPort = false) :
    Packet (sampled env (a + 1)) (a + 1) (encoderRun m env) := by
  have hE := follows_run RsEncoder.edge env (RsEncoder.construct m)
  refine packet hE ?_ hreset (symbols_sampled _ _) fun k _ => carries_sampled _ k
  cases a with
  | zero =>
    rw [Nat.zero_add, encoderRun_one] at hrise
    exact absurd hrise Bool.false_ne_true
  | succ a => exact RsEncoder.waits_of_rise (consistent_run m env a) hlow hrise

/-- **The encoder in any environment.** -/
theorem encoder_any_environment (m m' : Machine rs255.dims) (env : ℕ → EncoderInput) :
    let E := encoderRun m env
    (∀ t, ¬ ((E t).encoderReadyPort = true ∧ (E t).encoderValidPort = true)) ∧
      ∀ a, 1 ≤ a → (E (a - 1)).encoderReadyPort = false → (E a).encoderReadyPort = true →
        (∀ j < 32, (env (a + 1 + j)).resetPort = false) →
        (∀ j < 16, (E (a + j)).encoderReadyPort = true ∧ (E (a + j)).encoderValidPort = false) ∧
        (∀ j < 16, (E (a + 16 + j)).encoderReadyPort = false ∧ (E (a + 16 + j)).encoderValidPort = true) ∧
        ((E (a + 32)).encoderReadyPort = true ∧ (E (a + 32)).encoderValidPort = false) ∧
        ∀ k < 16, ∀ i < 16, 16 * k + i ≤ 254 → (((E (a + 16 + k)).encoderOutputPort i).toNat : ℤ) =
          if 16 * k + i < 239 then sampled env a (16 * k + i)
          else word (encoded m' (sampled env a)) .bb (16 * k + i - 239) := by
  intro E
  refine ⟨fun t h => ?_, fun a ha hlow hrise hreset => ?_⟩
  · cases t with
    | zero => exact absurd h.1 Bool.false_ne_true
    | succ t => cases consistent_run m env t with
      | initialised hw => exact absurd (h.1.symm.trans hw.ready) (by decide)
      | ready hw => exact absurd (h.2.symm.trans hw.valid) (by decide)
      | reading hw => exact absurd (h.2.symm.trans hw.valid) (by decide)
      | writing hw => exact absurd (h.1.symm.trans hw.ready) (by decide)
  · obtain ⟨a, rfl⟩ : ∃ b, a = b + 1 := ⟨a - 1, by omega⟩
    have hp : Packet (sampled env (a + 1)) (a + 1) E := packet_of_rise m hlow hrise hreset
    have hsymbols : Symbols rs255 239 (sampled env (a + 1)) := symbols_sampled (a + 1) 239
    refine ⟨fun j hj => ?_, fun j hj => ⟨(hp.writing j hj).ready, (hp.writing j hj).valid⟩,
      ⟨hp.sent.ready, hp.sent.valid⟩, fun k hk i hi hle => ?_⟩
    · cases j with
      | zero => exact ⟨hp.ready.ready, hp.ready.valid⟩
      | succ k =>
        rw [show a + 1 + (k + 1) = a + 1 + 1 + k by omega]
        exact ⟨(hp.reading k (by omega)).ready, (hp.reading k (by omega)).valid⟩
    · rw [(hp.writing k hk).output i hi (by omega), toNat_blockBytes]
      split_ifs with hmessage
      · exact blockBytes_message hsymbols hmessage
      · obtain ⟨j, hj⟩ : ∃ j, 16 * k + i = 239 + j := ⟨16 * k + i - 239, by omega⟩
        rw [hj, Nat.add_sub_cancel_left]
        exact blockBytes_parity m' hsymbols (by omega)

/-- Every beat carries the bytes `0, …, 15`, and there is no reset. -/
def quiet (_ : ℕ) : EncoderInput := ⟨false, fun i => BitVec.ofNat 8 i⟩

theorem encoder_quiet : ∀ k < 16, ∀ i < 16, 16 * k + i ≤ 254 →
    (((encoderRun (Machine.fresh _) quiet (2 + 16 + k)).encoderOutputPort i).toNat : ℤ) =
      if 16 * k + i < 239 then sampled quiet 2 (16 * k + i)
      else word (encoded (Machine.fresh _) (sampled quiet 2)) .bb (16 * k + i - 239) :=
  ((encoder_any_environment (Machine.fresh _) (Machine.fresh _) quiet).2 2 (by decide) rfl rfl fun _ _ => rfl).2.2.2

end Run

end ReedSolomon
