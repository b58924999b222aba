import ReedSolomon.Hardware.Monitor

/-!
# The ends of the transfers

The two assertions of `Monitor.sv` about the ends of the transfers. Ready is up for sixteen edges, so `$fell` is false
after fifteen and `p_end_receive_packets` is reported for every packet that no reset interrupts. Valid is up for
sixteen edges too, and `p_end_send_packets` waits as long: only its call of `stable` can fail
(`end_packets_reports`).
-/

open Imp Clocked Assertion

namespace ReedSolomon

namespace RsEncoder

variable {e : RsEncoder}

theorem waits_of_valid_rise (h : Consistent e) (hlow : e.encoderValidPort = false) {i : EncoderInput}
    (hrise : (e.edge i).encoderValidPort = true) : Waits (.writing 16) false true (e.edge i) := by
  have hreceive : ∀ e' : RsEncoder, Initialised e'.memory → e'.encoderValidPort = false → ∀ c,
      (e'.receive c).encoderValidPort = true → Waits (.writing 16) false true (e'.receive c) := by
    intro e' hI hvalid c hup
    unfold receive at hup ⊢
    split_ifs at hup ⊢
    · exact absurd (hvalid.symm.trans hup) Bool.false_ne_true
    · exact (waits_send (initialised_encodeBlock hI) rfl rfl 0).resolve_right fun hw =>
        Bool.false_ne_true (hw.valid.symm.trans hup)
  unfold edge at hrise ⊢
  split_ifs at hrise ⊢
  · exact absurd hrise Bool.false_ne_true
  · cases h with
    | initialised hw =>
      rw [resume, hw.wait] at hrise
      exact absurd (hlow.symm.trans hrise) Bool.false_ne_true
    | ready hw =>
      rw [resume, hw.wait] at hrise ⊢
      exact hreceive _ hw.initialised hw.valid _ hrise
    | @reading c hw =>
      have hstep : e.resume i.encoderInputPort = receive (c + nbByteInput)
          { e with memory := (readLanes .data c i.encoderInputPort).exec e.memory } := by
        rw [resume, hw.wait]
      rw [hstep] at hrise ⊢
      exact hreceive { e with memory := (readLanes .data c i.encoderInputPort).exec e.memory }
        (initialised_readLanes hw.initialised _ _) hw.valid _ hrise
    | writing hw => exact absurd (hlow.symm.trans hw.valid) Bool.false_ne_true

theorem waits_writing_next {k : ℕ} (h : Waits (.writing (16 * (k + 1))) false true e) (hk : k < 15) (input : Lanes) :
    Waits (.writing (16 * (k + 2))) false true (e.resume input) := by
  have hlt : 16 * (k + 1) < blockLength := by
    rw [blockLength_eq]
    omega
  unfold resume
  rw [h.wait]
  simp only
  rw [send, if_pos hlt]
  exact ⟨rfl, h.ready, h.valid, initialised_writeLanes h.initialised _⟩

theorem waits_writing_last (h : Waits (.writing (16 * 16)) false true e) (input : Lanes) :
    Waits .ready true false (e.resume input) := by
  unfold resume
  rw [h.wait]
  simp only
  rw [send, if_neg (by decide)]
  exact waits_begin h.initialised rfl

end RsEncoder

/-- What is sampled of a run at the rising edges, with the data ports. -/
def portTrace (m : Machine rs255.dims) (env : ℕ → EncoderInput) (t : ℕ) : PortTick where
  toTick := trace m env t
  encoderInputPort := (encoderRun m env t).encoderOutputPort
  dataOutputPort := (env (t + 1)).encoderInputPort

variable {m : Machine rs255.dims} {env : ℕ → EncoderInput} {s : ℕ}

theorem resume_of_low {n : ℕ} (hlow : ∀ u, s ≤ u → u ≤ s + n → (trace m env u).reset = false) {k : ℕ} (hk : k ≤ n) :
    encoderRun m env (s + k + 1) = (encoderRun m env (s + k)).resume (env (s + k + 1)).encoderInputPort :=
  RsEncoder.edge_of_not_reset (hlow (s + k) (by omega) (by omega))

theorem rose_iff {f : PortTick → Bool} {w : ℕ → PortTick} {t : ℕ} (h0 : f (w 0) = false) :
    rose f w t = true ↔ ∃ u, t = u + 1 ∧ f (w u) = false ∧ f (w (u + 1)) = true := by
  cases t with
  | zero =>
    refine ⟨fun h => absurd (h0.symm.trans h) Bool.false_ne_true, fun h => ?_⟩
    obtain ⟨u, hu, _⟩ := h
    omega
  | succ t =>
    have hrose : rose f w (t + 1) = true ↔ f (w t) = false ∧ f (w (t + 1)) = true := by
      rw [rose]
      simp [and_comm]
    rw [hrose]
    constructor
    · intro h
      exact ⟨t, rfl, h⟩
    · intro h
      obtain ⟨u, hu, h⟩ := h
      obtain rfl : t = u := by omega
      exact h

theorem ready_after_rise (hrise : rose (fun v => v.encoderReadyPort) (portTrace m env) s = true)
    (hlow : ∀ u, s ≤ u → u ≤ s + 15 → (trace m env u).reset = false) :
    (encoderRun m env (s + 15)).encoderReadyPort = true := by
  obtain ⟨t, rfl, hbefore, hup⟩ := (rose_iff (w := portTrace m env) rfl).mp hrise
  have hwaits : Waits .ready true false (encoderRun m env (t + 1)) := by
    cases t with
    | zero =>
      have hstart : (encoderRun m env 1).encoderReadyPort = false := by
        rw [encoderRun_one]
        rfl
      exact absurd (hstart.symm.trans hup) Bool.false_ne_true
    | succ t => exact RsEncoder.waits_of_rise (consistent_run m env t) hbefore hup
  have hreading : ∀ k ≤ 14, Reading (sampled env (t + 1)) k (encoderRun m env (t + 1 + 1 + k)) := fun k hk => by
    refine stages (Reading (sampled env (t + 1))) ?_ (fun j hj h => ?_) hk
    · rw [resume_of_low (k := 0) hlow (by omega)]
      exact RsEncoder.reading_first hwaits
    · have hnext := resume_of_low (k := j + 1) hlow (by omega)
      rw [show t + 1 + (j + 1) + 1 = t + 1 + 1 + j + 1 by omega, show t + 1 + (j + 1) = t + 1 + 1 + j by omega] at hnext
      rw [hnext]
      have hcarries : RsEncoder.Carries (env (t + 1 + 1 + j + 1)).encoderInputPort (sampled env (t + 1)) j := by
        rw [show t + 1 + 1 + j + 1 = t + 1 + 2 + j by omega]
        exact carries_sampled (t + 1) j
      exact RsEncoder.reading_next h hj hcarries
  exact (hreading 14 le_rfl).ready

theorem valid_falls (hrise : rose (fun v => v.encoderValidPort) (portTrace m env) s = true)
    (hlow : ∀ u, s ≤ u → u ≤ s + 16 → (trace m env u).reset = false) :
    fell (fun v => v.encoderValidPort) (portTrace m env) (s + 16) = true := by
  obtain ⟨t, rfl, hbefore, hup⟩ := (rose_iff (w := portTrace m env) rfl).mp hrise
  have hwaits : Waits (.writing 16) false true (encoderRun m env (t + 1)) := by
    cases t with
    | zero =>
      have hstart : (encoderRun m env 1).encoderValidPort = false := by
        rw [encoderRun_one]
        rfl
      exact absurd (hstart.symm.trans hup) Bool.false_ne_true
    | succ t => exact RsEncoder.waits_of_valid_rise (consistent_run m env t) hbefore hup
  have hwriting : ∀ k ≤ 15, Waits (.writing (16 * (k + 1))) false true (encoderRun m env (t + 1 + k)) := fun k hk => by
    refine stages (fun k => Waits (.writing (16 * (k + 1))) false true) hwaits (fun j hj h => ?_) hk
    rw [resume_of_low hlow (by omega)]
    exact RsEncoder.waits_writing_next h hj _
  have hlast : Waits .ready true false (encoderRun m env (t + 1 + 15 + 1)) := by
    rw [resume_of_low (k := 15) hlow (by omega)]
    exact RsEncoder.waits_writing_last (hwriting 15 le_rfl) _
  have hup' : (portTrace m env (t + 1 + 15)).encoderValidPort = true := (hwriting 15 le_rfl).valid
  have hdown : (portTrace m env (t + 1 + 15 + 1)).encoderValidPort = false := hlast.valid
  rw [fell, hup', hdown]
  rfl

/-- Where ready went up without a reset in the next fifteen edges, the assertion about its end fails. -/
theorem end_receive_iff (m : Machine rs255.dims) (env : ℕ → EncoderInput) (stable : (ℕ → Lanes) → ℕ → Bool) :
    Monitor.ReportsClause (Monitor.pEndReceivePackets stable) (portTrace m env) ↔
      ∃ s, rose (fun v => v.encoderReadyPort) (portTrace m env) s = true ∧
        ((∀ u, s ≤ u → u ≤ s + 15 → (env (u + 1)).resetPort = false) ∨
          stable (fun t => (encoderRun m env t).encoderOutputPort) s = false ∧ (env (s + 1)).resetPort = false) := by
  rw [Monitor.ReportsClause, Monitor.pEndReceivePackets, Clause.violated_overlap_iff]
  refine exists_congr fun s => and_congr_right fun hrise => or_congr_left ?_
  refine ⟨fun h => h.2, fun hlow => ⟨?_, hlow⟩⟩
  have hup : (portTrace m env (s + 15)).encoderReadyPort = true := ready_after_rise hrise hlow
  rw [fell, hup]
  rfl

theorem end_send_iff (m : Machine rs255.dims) (env : ℕ → EncoderInput) (stable : (ℕ → Lanes) → ℕ → Bool) :
    Monitor.ReportsClause (Monitor.pEndSendPackets stable) (portTrace m env) ↔
      ∃ s, rose (fun v => v.encoderValidPort) (portTrace m env) s = true ∧
        stable (fun t => (env (t + 1)).encoderInputPort) s = false ∧ (env (s + 1)).resetPort = false := by
  rw [Monitor.ReportsClause, Monitor.pEndSendPackets, Clause.violated_overlap_iff]
  refine exists_congr fun s => and_congr_right fun hrise => or_iff_right ?_
  intro h
  exact absurd ((valid_falls hrise h.2).symm.trans h.1) (by decide)

/-- **The ends of the transfers.** Whatever `stable` returns, the assertion about the input is reported in every run
whose reset is over; the one about the output is reported exactly where `stable` returns 0. -/
theorem end_packets_reports (m : Machine rs255.dims) (env : ℕ → EncoderInput) (stable : (ℕ → Lanes) → ℕ → Bool) :
    (Monitor.ReportsClause (Monitor.pEndReceivePackets stable) (portTrace m env) ↔
        ∃ s, rose (fun v => v.encoderReadyPort) (portTrace m env) s = true ∧
          ((∀ u, s ≤ u → u ≤ s + 15 → (env (u + 1)).resetPort = false) ∨
            stable (fun t => (encoderRun m env t).encoderOutputPort) s = false ∧ (env (s + 1)).resetPort = false)) ∧
      ((∃ n, ∀ t, n ≤ t → (env t).resetPort = false) →
        Monitor.ReportsClause (Monitor.pEndReceivePackets stable) (portTrace m env)) ∧
      (Monitor.ReportsClause (Monitor.pEndSendPackets stable) (portTrace m env) ↔
        ∃ s, rose (fun v => v.encoderValidPort) (portTrace m env) s = true ∧
          stable (fun t => (env (t + 1)).encoderInputPort) s = false ∧ (env (s + 1)).resetPort = false) := by
  refine ⟨end_receive_iff m env stable, fun hreleased => ?_, end_send_iff m env stable⟩
  obtain ⟨n, hquiet⟩ := hreleased
  obtain ⟨s, hs⟩ := exists_released hquiet
  have hp := hs.packet m
  have hrise : rose (fun v => v.encoderReadyPort) (portTrace m env) (s + 1) = true :=
    rose_succ (f := fun v : PortTick => v.encoderReadyPort) (hs.waits m).ready hp.ready.ready
  exact (end_receive_iff m env stable).mpr ⟨s + 1, hrise, Or.inl fun u hu _ => hs.low (u + 1) (by omega)⟩

end ReedSolomon
