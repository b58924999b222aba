import ReedSolomon.Hardware.Bench

/-!
# The bounds of the transfers

The loops over the sixteen lanes test the byte counter once a beat, and neither 239 nor 255 is a multiple of sixteen:
the last beat of every transfer goes one cell behind its array. A run stays inside the arrays only as long as no packet
gets that far (`transfers_iff`): the encoder until its reset was low for seventeen edges in a row, the bench until
fourteen edges after it saw ready.
-/

open Imp Clocked

namespace ReedSolomon

/-- An access to `data` or `recd` outside its bounds. -/
def Stray : Fault Arr → Prop
  | .load a _ => a = .data ∨ a = .recd
  | .store a _ => a = .data ∨ a = .recd
  | .unset _ _ => False
  | .operand _ => False

theorem Stray.outOfRange {f : Fault Arr} (h : Stray f) : f.OutOfRange := by
  cases f with
  | load _ _ => trivial
  | store _ _ => trivial
  | unset _ _ => exact h
  | operand _ => exact h

/-! ### One beat -/

section Beat

variable {ν : Type} [DecidableEq ν] {dims : ν → List ℕ} {m : Machine dims} {a : ν} {c n : ℕ}

theorem inside_readLanes (hdims : ∀ k : ℕ, InBounds (dims a) (line k) ↔ k < n) (hc : c + nbByteInput ≤ n) (input : Lanes) :
    Inside [a] (readLanes a c input : Prog (Machine dims) Unit) := by
  apply Inside.forEach
  intro i _ hi
  exact Inside.store (List.mem_singleton_self a) ((hdims _).mpr (by omega)) _

omit [DecidableEq ν] in
theorem inside_writeLanes (hdims : ∀ k : ℕ, InBounds (dims a) (line k) ↔ k < n) (hc : c + nbByteInput ≤ n)
    (output : Lanes) : Inside [] (writeLanes a c output : Prog (Machine dims) Lanes) := by
  apply Inside.forUp
  intro i _ hi out
  exact (Inside.load ((hdims _).mpr (by omega))).bind fun _ => Inside.pure _

theorem stray_readLanes (hdims : ∀ k : ℕ, InBounds (dims a) (line k) ↔ k < n) (hc : c ≤ n) (hn : n < c + nbByteInput)
    (input : Lanes) : wp (readLanes a c input) (fun _ m' => Fault.store a (line n) ∈ m'.faults) m := by
  have hloop : wp (readLanes a c input)
      (fun _ m' => n < c + nbByteInput → Fault.store a (line n) ∈ m'.faults) m := by
    apply wp_forEach (fun i (s : Machine dims) => n < c + i → Fault.store a (line n) ∈ s.faults) (Nat.zero_le _)
    · exact fun h => absurd h (by omega)
    · intro i s _ _ hs
      rcases Nat.lt_trichotomy n (c + i) with hlt | rfl | hgt
      · exact wp_mono ((Writes.store (List.mem_singleton_self a) _ _).wp_mem (hs hlt)) fun _ _ h _ => h
      · rw [wp_store_out fun hb => absurd ((hdims _).mp hb) (lt_irrefl _)]
        exact fun _ => List.mem_append_right _ (List.mem_singleton_self _)
      · exact wp_iff_run.mpr fun h => absurd h (by omega)
  exact wp_mono hloop fun _ _ h => h hn

omit [DecidableEq ν] in
theorem stray_writeLanes (hdims : ∀ k : ℕ, InBounds (dims a) (line k) ↔ k < n) (hc : c ≤ n) (hn : n < c + nbByteInput)
    (output : Lanes) : wp (writeLanes a c output) (fun _ m' => Fault.load a (line n) ∈ m'.faults) m := by
  have hloop : wp (writeLanes a c output)
      (fun _ m' => n < c + nbByteInput → Fault.load a (line n) ∈ m'.faults) m := by
    apply wp_forUp (fun i _ (s : Machine dims) => n < c + i → Fault.load a (line n) ∈ s.faults) (Nat.zero_le _)
    · exact fun h => absurd h (by omega)
    · intro i out s _ _ hs
      rw [wp_bind]
      rcases Nat.lt_trichotomy n (c + i) with hlt | rfl | hgt
      · exact wp_mono ((Writes.load _ _ : Writes [] _).wp_mem (hs hlt)) fun _ _ h _ => h
      · rw [wp_load_out fun hb => absurd ((hdims _).mp hb) (lt_irrefl _)]
        exact fun _ => List.mem_append_right _ (List.mem_singleton_self _)
      · exact wp_iff_run.mpr fun h => absurd h (by omega)
  exact wp_mono hloop fun _ _ h => h hn

end Beat

/-- The last beats of the four transfers, whatever the memory holds: reception and emission of the encoder, emission
and reception of the bench. -/
theorem stray_last_beats (m : Machine rs255.dims) (l : Lanes) :
    Fault.store .data (line 239) ∈ ((readLanes .data 224 l).exec m).faults ∧
      Fault.load .recd (line 255) ∈ ((writeLanes .recd 240 l).exec m).faults ∧
      Fault.load .data (line 239) ∈ ((writeLanes .data 224 l).exec m).faults ∧
      Fault.store .recd (line 255) ∈ ((readLanes .recd 240 l).exec m).faults := by
  have hdata : 224 ≤ 239 ∧ 239 < 224 + nbByteInput := by decide
  have hrecd : 240 ≤ 255 ∧ 255 < 240 + nbByteInput := by decide
  refine ⟨?_, ?_, ?_, ?_⟩
  · exact wp_iff_run.mp (stray_readLanes inBounds_data_iff hdata.1 hdata.2 l)
  · exact wp_iff_run.mp (stray_writeLanes inBounds_recd_iff hrecd.1 hrecd.2 l)
  · exact wp_iff_run.mp (stray_writeLanes inBounds_data_iff hdata.1 hdata.2 l)
  · exact wp_iff_run.mp (stray_readLanes inBounds_recd_iff hrecd.1 hrecd.2 l)

/-! ### The encoder -/

/-- Where the thread waits `j` edges after the initialisation, until the message is complete. -/
def place : ℕ → EncoderWait
  | 0 => .initialised
  | 1 => .ready
  | k + 2 => .reading (16 * k)

section Encoder

variable {e : RsEncoder}

theorem contained_resume {j : ℕ} (hj : j < 16) (hwait : e.wait = place j) (input : Lanes) :
    (e.resume input).wait = place (j + 1) ∧ Contained [.data] e.memory (e.resume input).memory := by
  unfold RsEncoder.resume
  rw [hwait]
  match j, hj with
  | 0, _ => exact ⟨rfl, refl_of (Contained _) _⟩
  | 1, _ => exact ⟨rfl, refl_of (Contained _) _⟩
  | k + 2, hj =>
    have hbeat : 16 * k + nbByteInput < messageLength := by
      rw [nbByteInput_eq, messageLength_eq]
      omega
    show (RsEncoder.receive (16 * k + nbByteInput) _).wait = _ ∧ Contained _ _ (RsEncoder.receive _ _).memory
    rw [RsEncoder.receive, if_pos hbeat]
    constructor
    · show EncoderWait.reading (16 * k + nbByteInput) = .reading (16 * (k + 1))
      rw [nbByteInput_eq, Nat.mul_succ]
    · exact inside_readLanes inBounds_data_iff hbeat.le input e.memory

theorem stray_resume (hwait : e.wait = place 16) (input : Lanes) :
    Fault.store .data (line 239) ∈ (e.resume input).memory.faults := by
  have hread := (stray_last_beats e.memory input).1
  unfold RsEncoder.resume
  rw [hwait]
  show Fault.store .data (line 239) ∈ (RsEncoder.receive (224 + nbByteInput) _).memory.faults
  rw [RsEncoder.receive, if_neg (by decide), RsEncoder.send, if_pos (by decide)]
  have hencoded := wp_iff_run.mp (writes_encodeData.wp_mem hread)
  exact wp_iff_run.mp ((writes_writeLanes rs255 .recd 0 e.encoderOutputPort).wp_mem hencoded)

end Encoder

section EncoderRun

variable {m : Machine rs255.dims} {env : ℕ → EncoderInput} {n : ℕ}

/-- The thread was initialised at edge `s`, and the reset has been low for `j` edges. -/
structure Stands (m : Machine rs255.dims) (env : ℕ → EncoderInput) (s j : ℕ) : Prop where
  begun : s = 1 ∨ (env s).resetPort = true
  low : ∀ i < j, (env (s + 1 + i)).resetPort = false
  wait : (encoderRun m env (s + j)).wait = place j
  memory : Contained [.data] (booted m) (encoderRun m env (s + j)).memory

theorem encoderRun_succ (t : ℕ) : encoderRun m env (t + 1) = (encoderRun m env t).edge (env (t + 1)) := rfl

theorem stands_one : Stands m env 1 0 := by
  refine ⟨Or.inl rfl, nofun, ?_, ?_⟩
  · rw [encoderRun_one]
    rfl
  · rw [encoderRun_one]
    exact refl_of (Contained [.data]) (booted m)

theorem Stands.reset {s j : ℕ} (h : Stands m env s j) (hreset : (env (s + j + 1)).resetPort = true) :
    Stands m env (s + j + 1) 0 := by
  have hstart : encoderRun m env (s + j + 1) = (encoderRun m env (s + j)).start := by
    rw [encoderRun_succ, RsEncoder.edge, if_pos hreset]
  refine ⟨Or.inr hreset, fun i hi => absurd hi (Nat.not_lt_zero i), ?_, ?_⟩
  · rw [Nat.add_zero, hstart]
    rfl
  · rw [Nat.add_zero, hstart]
    exact h.memory

theorem Stands.next {s j : ℕ} (h : Stands m env s j) (hj : j < 16) (hlow : (env (s + j + 1)).resetPort = false) :
    Stands m env s (j + 1) := by
  have hnext : encoderRun m env (s + (j + 1)) = (encoderRun m env (s + j)).resume (env (s + j + 1)).encoderInputPort := by
    rw [← Nat.add_assoc, encoderRun_succ, RsEncoder.edge_of_not_reset hlow]
  obtain ⟨hwait, hmemory⟩ := contained_resume hj h.wait (env (s + j + 1)).encoderInputPort
  constructor
  · exact h.begun
  · intro i hi
    rcases Nat.lt_succ_iff_lt_or_eq.mp hi with hlt | rfl
    · exact h.low i hlt
    · rw [show s + 1 + i = s + i + 1 by omega]
      exact hlow
  · rw [hnext, hwait]
  · rw [hnext]
    exact trans_of (Contained [Arr.data]) h.memory hmemory

/-- The run lemma: where no reception comes to its last beat, the thread has never been past the one before. -/
theorem stands_run (hlast : ∀ s, 1 ≤ s → s + 17 ≤ n → Stands m env s 16 → (env (s + 17)).resetPort = true) {t : ℕ}
    (ht : 1 ≤ t) (htn : t ≤ n) : ∃ s j, 1 ≤ s ∧ j ≤ 16 ∧ t = s + j ∧ Stands m env s j := by
  induction t, ht using Nat.le_induction with
  | base => exact ⟨1, 0, le_rfl, Nat.zero_le _, rfl, stands_one⟩
  | succ t ht ih =>
    obtain ⟨s, j, hs, hj, rfl, hstands⟩ := ih (by omega)
    cases hreset : (env (s + j + 1)).resetPort with
    | true => exact ⟨s + j + 1, 0, by omega, Nat.zero_le _, rfl, hstands.reset hreset⟩
    | false =>
      rcases Nat.lt_or_ge j 16 with hlt | hge
      · exact ⟨s, j + 1, hs, hlt, by omega, hstands.next hlt hreset⟩
      · obtain rfl : j = 16 := by omega
        have := hlast s hs (by omega) hstands
        rw [show s + 17 = s + 16 + 1 by omega, hreset] at this
        exact absurd this (by decide)

/-- Up to edge `n` the encoder accesses `data` and `recd` inside their bounds only. -/
def EncoderInside (m : Machine rs255.dims) (env : ℕ → EncoderInput) (n : ℕ) : Prop :=
  ∀ t ≤ n, ∀ f ∈ (encoderRun m env t).memory.faults, ¬ Stray f

/-- Up to edge `n` the reset is never low for seventeen edges in a row. -/
def ResetsOften (env : ℕ → EncoderInput) (n : ℕ) : Prop :=
  ∀ t, 1 ≤ t → t + 17 ≤ n → ∃ j < 17, (env (t + 1 + j)).resetPort = true

theorem EncoderInside.resetsOften (h : EncoderInside m env n) : ResetsOften env n := by
  have hlast : ∀ s, 1 ≤ s → s + 17 ≤ n → Stands m env s 16 → (env (s + 17)).resetPort = true := by
    intro s _ hsn hstands
    by_contra hlow
    have hnext : encoderRun m env (s + 17) = (encoderRun m env (s + 16)).resume (env (s + 17)).encoderInputPort :=
      RsEncoder.edge_of_not_reset (eq_false_of_ne_true hlow)
    apply h (s + 17) hsn (.store .data (line 239))
    · rw [hnext]
      exact stray_resume hstands.wait _
    · exact Or.inl rfl
  intro t ht htn
  by_contra hnone
  push Not at hnone
  obtain ⟨s, j, -, hj, heq, hstands⟩ := stands_run hlast (show 1 ≤ t + 17 by omega) htn
  -- the last initialisation is one of the seventeen edges
  rcases hstands.begun with hone | hreset
  · omega
  · apply hnone (s - (t + 1)) (by omega)
    rw [show t + 1 + (s - (t + 1)) = s by omega]
    exact hreset

theorem ResetsOften.contained (h : ResetsOften env n) {t : ℕ} (htn : t ≤ n) :
    Contained [.data] (booted m) (encoderRun m env t).memory := by
  rcases Nat.eq_zero_or_pos t with rfl | hpos
  · exact refl_of (Contained [Arr.data]) (booted m)
  · have hlast : ∀ s, 1 ≤ s → s + 17 ≤ n → Stands m env s 16 → (env (s + 17)).resetPort = true := by
      intro s hs hsn hstands
      obtain ⟨j, hj, hreset⟩ := h s hs hsn
      rcases Nat.lt_succ_iff_lt_or_eq.mp hj with hlt | rfl
      · rw [hstands.low j hlt] at hreset
        exact absurd hreset (by decide)
      · rw [show s + 17 = s + 1 + 16 by omega]
        exact hreset
    obtain ⟨s, j, -, -, rfl, hstands⟩ := stands_run hlast hpos htn
    exact hstands.memory

end EncoderRun

/-! ### The bench -/

section BenchRun

variable {b : RsEncoderTb} {m : Machine rs255.dims} {vectors : List TestVector} {env : ℕ → BenchInput} {n : ℕ}

theorem inside_drawData (bytes : ℕ → BitVec 8) : Inside [.data] (drawData bytes) := by
  apply Inside.forEach
  intro k _ hk
  exact Inside.store (List.mem_singleton_self _) ((inBounds_data_iff k).mpr (lt_trans hk (by decide))) _

theorem contained_send {k : ℕ} (hk : k < 14) (i : BenchInput) :
    (b.send i (16 * k)).wait = .writing (16 * (k + 1)) ∧ Contained [.data] b.memory (b.send i (16 * k)).memory := by
  have hbeat : 16 * k + nbByteInput ≤ 239 := by
    rw [nbByteInput_eq]
    omega
  rw [RsEncoderTb.send, if_pos (by rw [messageLength_eq]; omega)]
  constructor
  · show BenchWait.writing (16 * k + nbByteInput) = .writing (16 * (k + 1))
    rw [nbByteInput_eq, Nat.mul_succ]
  · have hinside : Inside [] (writeLanes .data (16 * k) b.dataOutputPort : Code rs255 Lanes) :=
      inside_writeLanes inBounds_data_iff hbeat b.dataOutputPort
    exact (hinside b.memory).mono (List.nil_subset _)

theorem stray_send (i : BenchInput) : Fault.load .data (line 239) ∈ (b.send i 224).memory.faults := by
  rw [RsEncoderTb.send, if_pos (by decide)]
  exact (stray_last_beats b.memory b.dataOutputPort).2.2.1

/-- Until edge `t` the bench has not seen ready. -/
structure Polling (m : Machine rs255.dims) (vectors : List TestVector) (env : ℕ → BenchInput) (t : ℕ) : Prop where
  low : ∀ r, 3 ≤ r → r ≤ t → (env r).encoderReadyPort = false
  wait : (benchRun m vectors env t).wait = .pollReady
  memory : Contained [.data] (booted m) (benchRun m vectors env t).memory

/-- The bench saw ready at edge `s` for the first time, and has sent the beats up to `k`. -/
structure Sending (m : Machine rs255.dims) (vectors : List TestVector) (env : ℕ → BenchInput) (s k : ℕ) : Prop where
  begun : 3 ≤ s
  ready : (env s).encoderReadyPort = true
  low : ∀ r, 3 ≤ r → r < s → (env r).encoderReadyPort = false
  wait : (benchRun m vectors env (s + k)).wait = .writing (16 * (k + 1))
  memory : Contained [.data] (booted m) (benchRun m vectors env (s + k)).memory

theorem benchRun_succ (t : ℕ) : benchRun m vectors env (t + 1) = (benchRun m vectors env t).resume (env (t + 1)) := rfl

theorem poll {t : ℕ} (ht : 3 ≤ t) (hlow : ∀ r, 3 ≤ r → r < t → (env r).encoderReadyPort = false)
    (hmemory : Contained [.data] (booted m) b.memory) (hb : benchRun m vectors env t = b.pollReady (env t)) :
    Polling m vectors env t ∨ Sending m vectors env t 0 := by
  cases hready : (env t).encoderReadyPort with
  | true =>
    obtain ⟨hwait, hsent⟩ := contained_send (b := b) (k := 0) (by decide) (env t)
    have hb' : benchRun m vectors env (t + 0) = b.send (env t) (16 * 0) := by
      rw [Nat.add_zero, hb, RsEncoderTb.pollReady, if_pos hready]
    refine Or.inr ⟨ht, hready, hlow, ?_, ?_⟩
    · rw [hb', hwait]
    · rw [hb']
      exact trans_of (Contained [Arr.data]) hmemory hsent
  | false =>
    have hb' : benchRun m vectors env t = { b with wait := .pollReady } := by
      rw [hb, RsEncoderTb.pollReady, hready]
      rfl
    refine Or.inl ⟨fun r hr hrt => ?_, ?_, ?_⟩
    · rcases Nat.lt_or_eq_of_le hrt with hlt | rfl
      · exact hlow r hr hlt
      · exact hready
    · rw [hb']
    · rw [hb']
      exact hmemory

theorem Polling.next {t : ℕ} (ht : 3 ≤ t) (h : Polling m vectors env t) :
    Polling m vectors env (t + 1) ∨ Sending m vectors env (t + 1) 0 := by
  apply poll (b := benchRun m vectors env t) (by omega)
  · intro r hr hrt
    exact h.low r hr (by omega)
  · exact h.memory
  · rw [benchRun_succ, RsEncoderTb.resume, h.wait]

theorem Sending.next {s k : ℕ} (h : Sending m vectors env s k) (hk : k < 13) : Sending m vectors env s (k + 1) := by
  have hnext : benchRun m vectors env (s + (k + 1)) = (benchRun m vectors env (s + k)).send (env (s + k + 1)) (16 * (k + 1)) := by
    rw [← Nat.add_assoc, benchRun_succ, RsEncoderTb.resume, h.wait]
  obtain ⟨hwait, hsent⟩ := contained_send (b := benchRun m vectors env (s + k)) (k := k + 1) (by omega) (env (s + k + 1))
  refine ⟨h.begun, h.ready, h.low, ?_, ?_⟩
  · rw [hnext, hwait]
  · rw [hnext]
    exact trans_of (Contained [Arr.data]) h.memory hsent

/-- The run lemma: where no message comes to its last beat, the bench has never been past the one before. -/
theorem sending_run {v : TestVector} {rest : List TestVector} (hvectors : vectors = v :: rest)
    (hlast : ∀ s, s + 14 ≤ n → ¬ Sending m vectors env s 13) {t : ℕ} (ht : 3 ≤ t) (htn : t ≤ n) :
    Polling m vectors env t ∨ ∃ s k, k ≤ 13 ∧ t = s + k ∧ Sending m vectors env s k := by
  have hfirst : ∀ {t}, Polling m vectors env t ∨ Sending m vectors env t 0 →
      Polling m vectors env t ∨ ∃ s k, k ≤ 13 ∧ t = s + k ∧ Sending m vectors env s k :=
    fun h => h.imp_right fun h => ⟨_, 0, Nat.zero_le _, rfl, h⟩
  induction t, ht using Nat.le_induction with
  | base =>
    subst hvectors
    apply hfirst
    apply poll (b := (benchRun m (v :: rest) env 2).draw v rest) le_rfl
    · exact fun r hr hr3 => absurd hr3 (by omega)
    · exact inside_drawData v.bytes (booted m)
    · rfl
  | succ t ht ih =>
    rcases ih (by omega) with hpolling | ⟨s, k, hk, rfl, hsending⟩
    · exact hfirst (hpolling.next ht)
    · rcases Nat.lt_or_ge k 13 with hlt | hge
      · exact Or.inr ⟨s, k + 1, hlt, rfl, hsending.next hlt⟩
      · obtain rfl : k = 13 := by omega
        exact absurd hsending (hlast s (by omega))

/-- Up to edge `n` the bench accesses `data` and `recd` inside their bounds only. -/
def BenchInside (m : Machine rs255.dims) (vectors : List TestVector) (env : ℕ → BenchInput) (n : ℕ) : Prop :=
  ∀ t ≤ n, ∀ f ∈ (benchRun m vectors env t).memory.faults, ¬ Stray f

/-- There is no packet, or ready is low until fourteen edges before edge `n`. -/
def NeverReady (vectors : List TestVector) (env : ℕ → BenchInput) (n : ℕ) : Prop :=
  vectors = [] ∨ ∀ s, 3 ≤ s → s + 14 ≤ n → (env s).encoderReadyPort = false

theorem BenchInside.neverReady (h : BenchInside m vectors env n) : NeverReady vectors env n := by
  cases vectors with
  | nil => exact Or.inl rfl
  | cons v rest =>
    right
    have hlast : ∀ s, s + 14 ≤ n → ¬ Sending m (v :: rest) env s 13 := by
      intro s hsn hsending
      have hnext : benchRun m (v :: rest) env (s + 14) = (benchRun m (v :: rest) env (s + 13)).send (env (s + 14)) 224 := by
        rw [show s + 14 = s + 13 + 1 from rfl, benchRun_succ, RsEncoderTb.resume, hsending.wait]
      apply h (s + 14) hsn (.load .data (line 239))
      · rw [hnext]
        exact stray_send _
      · exact Or.inl rfl
    intro s hs hsn
    by_contra hready
    rcases sending_run rfl hlast (show 3 ≤ s + 14 by omega) hsn with hpolling | ⟨r, k, hk, heq, hsending⟩
    · exact hready (hpolling.low s hs (by omega))
    · exact hready (hsending.low s hs (by omega))

theorem memory_early {t : ℕ} (ht : t ≤ 2) : (benchRun m vectors env t).memory = booted m := by
  obtain rfl | rfl | rfl : t = 0 ∨ t = 1 ∨ t = 2 := by omega
  · rfl
  · rfl
  · rfl

theorem benchRun_nil (t : ℕ) : (benchRun m [] env (3 + t)).wait = .done ∧ (benchRun m [] env (3 + t)).memory = booted m := by
  induction t with
  | zero => exact ⟨rfl, rfl⟩
  | succ t ih =>
    have hstays : benchRun m [] env (3 + (t + 1)) = benchRun m [] env (3 + t) := by
      rw [← Nat.add_assoc, benchRun_succ, RsEncoderTb.resume, ih.1]
    rw [hstays]
    exact ih

theorem NeverReady.contained (h : NeverReady vectors env n) {t : ℕ} (htn : t ≤ n) :
    Contained [.data] (booted m) (benchRun m vectors env t).memory := by
  rcases Nat.lt_or_ge t 3 with hearly | ht
  · rw [memory_early (by omega)]
    exact refl_of (Contained [Arr.data]) (booted m)
  · cases vectors with
    | nil =>
      obtain ⟨j, rfl⟩ := Nat.exists_eq_add_of_le ht
      rw [(benchRun_nil j).2]
      exact refl_of (Contained [Arr.data]) (booted m)
    | cons v rest =>
      have hlow := h.resolve_left (List.cons_ne_nil _ _)
      have hlast : ∀ s, s + 14 ≤ n → ¬ Sending m (v :: rest) env s 13 := by
        intro s hsn hsending
        have hready := hsending.ready
        rw [hlow s hsending.begun hsn] at hready
        exact Bool.noConfusion hready
      rcases sending_run rfl hlast ht htn with hpolling | ⟨s, k, -, rfl, hsending⟩
      · exact hpolling.memory
      · exact hsending.memory

end BenchRun

/-! ### Both threads -/

theorem not_stray_of_contained {m m' : Machine rs255.dims} (hm : m.faults = []) (h : Contained [.data] (booted m) m') :
    ∀ f ∈ m'.faults, ¬ Stray f := by
  intro f hf hstray
  have hf' := h.faults f hf hstray.outOfRange
  rw [(booted_spec m).2.faults, hm] at hf'
  exact absurd hf' List.not_mem_nil

/-- **The bounds of the transfers.** Encoder and bench stay inside `data` and `recd` exactly as long as no packet comes
to its last beat, and as long as they do, no array but `data` is changed. -/
theorem transfers_iff (m m' : Machine rs255.dims) (vectors : List TestVector) (env : ℕ → EncoderInput)
    (env' : ℕ → BenchInput) (n : ℕ) :
    let clean := { m with faults := [] }
    let clean' := { m' with faults := [] }
    (EncoderInside clean env n ↔ ResetsOften env n) ∧
      (BenchInside clean' vectors env' n ↔ NeverReady vectors env' n) ∧
      (EncoderInside clean env n → ∀ t ≤ n, Keeps [.data] (booted clean) (encoderRun clean env t).memory) ∧
      (BenchInside clean' vectors env' n →
        ∀ t ≤ n, Keeps [.data] (booted clean') (benchRun clean' vectors env' t).memory) := by
  intro clean clean'
  refine ⟨⟨EncoderInside.resetsOften, fun h t htn => ?_⟩, ⟨BenchInside.neverReady, fun h t htn => ?_⟩, ?_, ?_⟩
  · exact not_stray_of_contained rfl (h.contained htn)
  · exact not_stray_of_contained rfl (h.contained htn)
  · exact fun h t htn => (h.resetsOften.contained htn).toKeeps
  · exact fun h t htn => (h.neverReady.contained htn).toKeeps

/-- Eighteen edges without a reset are too many for the encoder, and seventeen with ready up for the bench. -/
theorem transfers_stray :
    ¬ EncoderInside (Machine.fresh _) quiet 18 ∧
      ¬ BenchInside (Machine.fresh _) [countingVector] (fun _ => ⟨true, false, fun _ => 0⟩) 17 := by
  constructor
  · intro h
    obtain ⟨j, -, hreset⟩ := h.resetsOften 1 le_rfl le_rfl
    exact Bool.noConfusion hreset
  · intro h
    have hlow := h.neverReady.resolve_left (List.cons_ne_nil _ _) 3 le_rfl le_rfl
    exact Bool.noConfusion hlow

end ReedSolomon
