import ReedSolomon.Hardware.Encoder
import ReedSolomon.Spec.Monitor

/-!
# The assertions on the encoder

Behind the last edge with the reset high both handshake ports are low for one edge, then ready goes up, valid sixteen
edges later and ready again sixteen edges after that. The comments in `Monitor.sv` say this much. The formulas say more:
that one port is always high, and that both are low right after the second of two such changes. Every run reports all
three of them once the reset is over (`monitor_reports`).
-/

open Imp Clocked Assertion

namespace ReedSolomon

/-- What is sampled at the rising edges of a run: the ports as they were written at the edges before. -/
def trace (m : Machine rs255.dims) (env : ℕ → EncoderInput) (t : ℕ) : Tick where
  reset := (env (t + 1)).resetPort
  encoderReadyPort := (encoderRun m env t).encoderReadyPort
  encoderValidPort := (encoderRun m env t).encoderValidPort

variable {m : Machine rs255.dims} {env : ℕ → EncoderInput}

theorem ports_of_reset {t : ℕ} (h : t = 0 ∨ (env t).resetPort = true) :
    (trace m env t).encoderReadyPort = false ∧ (trace m env t).encoderValidPort = false := by
  cases t with
  | zero => exact ⟨rfl, rfl⟩
  | succ t =>
    have hstart : encoderRun m env (t + 1) = (encoderRun m env t).start := if_pos (h.resolve_left (Nat.succ_ne_zero t))
    rw [trace, hstart]
    exact ⟨rfl, rfl⟩

/-- The assertion that one port is high is reported at the first edge with the reset low, so in every run that has one. -/
theorem mutex_reports_iff (m : Machine rs255.dims) (env : ℕ → EncoderInput) :
    Monitor.Reports Monitor.pMutexValidReady (trace m env) ↔ ∃ t, (env (t + 1)).resetPort = false := by
  rw [Monitor.Reports, Monitor.pMutexValidReady, violated_expr_iff]
  constructor
  · rintro ⟨t, _, hlow⟩
    exact ⟨t, hlow⟩
  · intro h
    have hbefore : Nat.find h = 0 ∨ (env (Nat.find h)).resetPort = true := by
      cases hfirst : Nat.find h with
      | zero => exact Or.inl rfl
      | succ t => exact Or.inr (eq_true_of_ne_false (Nat.find_min h (by omega)))
    obtain ⟨hready, hvalid⟩ := ports_of_reset (m := m) hbefore
    refine ⟨Nat.find h, ?_, Nat.find_spec h⟩
    rw [now, hready, hvalid]
    rfl

/-- Edge `s` initialises the encoder, and the reset is low from then on. -/
structure Released (env : ℕ → EncoderInput) (s : ℕ) : Prop where
  pos : 1 ≤ s
  begun : s = 1 ∨ (env s).resetPort = true
  low : ∀ t, s < t → (env t).resetPort = false

theorem exists_released {n : ℕ} (h : ∀ t, n ≤ t → (env t).resetPort = false) : ∃ s, Released env s := by
  induction n with
  | zero => exact ⟨1, le_rfl, Or.inl rfl, fun t _ => h t (Nat.zero_le t)⟩
  | succ n ih =>
    cases hreset : (env n).resetPort with
    | false =>
      apply ih
      intro t ht
      rcases Nat.lt_or_eq_of_le ht with hlt | rfl
      · exact h t hlt
      · exact hreset
    | true =>
      rcases Nat.eq_zero_or_pos n with rfl | hpos
      · exact ⟨1, le_rfl, Or.inl rfl, fun t ht => h t (by omega)⟩
      · exact ⟨n, hpos, Or.inr hreset, fun t ht => h t ht⟩

section Released

variable {s : ℕ}

theorem Released.waits (h : Released env s) (m : Machine rs255.dims) :
    Waits .initialised false false (encoderRun m env s) := by
  rcases h.begun with rfl | hreset
  · rw [encoderRun_one]
    exact RsEncoder.waits_start (booted_spec m).1
  · obtain ⟨t, rfl⟩ : ∃ t, s = t + 1 := ⟨s - 1, by have := h.pos; omega⟩
    have hstart : encoderRun m env (t + 1) = (encoderRun m env t).start := if_pos hreset
    rw [hstart]
    exact RsEncoder.waits_start (initialised_run m env t)

theorem Released.packet (h : Released env s) (m : Machine rs255.dims) :
    Packet (sampled env (s + 1)) (s + 1) (encoderRun m env) := by
  have hwaits := h.waits m
  have hbegin : encoderRun m env (s + 1) = (encoderRun m env s).begin := by
    have hnext : encoderRun m env (s + 1) = (encoderRun m env s).resume (env (s + 1)).encoderInputPort :=
      RsEncoder.edge_of_not_reset (h.low _ (Nat.lt_succ_self s))
    rw [hnext, RsEncoder.resume, hwaits.wait]
  apply packet_of_rise m hwaits.ready
  · rw [hbegin]
    rfl
  · exact fun j _ => h.low _ (by omega)

theorem Released.reports (h : Released env s) (m : Machine rs255.dims) :
    Monitor.Reports Monitor.pReadyThenValid (trace m env) ∧ Monitor.Reports Monitor.pValidThenReady (trace m env) ∧
      Monitor.Reports Monitor.pMutexValidReady (trace m env) := by
  have hp := h.packet m
  have hwaits := h.waits m
  have hlow : ∀ u, s ≤ u → (trace m env u).reset = false := fun u hu => h.low (u + 1) (by omega)
  refine ⟨?_, ?_, ?_⟩
  · apply (violated_next_iff _ _ _ 16).mpr
    refine ⟨s + 1, ?_, ?_, ?_, fun u hu _ => hlow u (by omega)⟩
    · exact rose_succ hwaits.ready hp.ready.ready
    · exact rose_succ (hp.reading 14 (by omega)).valid (hp.writing 0 (by omega)).valid
    · have hvalid : (trace m env (s + 1 + 16 + 1)).encoderValidPort = true := (hp.writing 1 (by omega)).valid
      rw [now, hvalid]
      rfl
  · -- ready stays up behind the change to it
    have hnext : Packet (sampled env (s + 1 + 32)) (s + 1 + 32) (encoderRun m env) := by
      apply packet_of_rise m
      · exact (hp.writing 15 (by omega)).ready
      · exact hp.sent.ready
      · exact fun j _ => h.low _ (by omega)
    apply (violated_next_iff _ _ _ 16).mpr
    refine ⟨s + 1 + 16, ?_, ?_, ?_, fun u hu _ => hlow u (by omega)⟩
    · exact rose_succ (hp.reading 14 (by omega)).valid (hp.writing 0 (by omega)).valid
    · exact rose_succ (hp.writing 15 (by omega)).ready hp.sent.ready
    · have hready : (trace m env (s + 1 + 16 + 16 + 1)).encoderReadyPort = true := (hnext.reading 0 (by omega)).ready
      rw [now, hready]
      rw [Bool.not_true, Bool.and_false]
  · exact (mutex_reports_iff m env).mpr ⟨s, hlow s le_rfl⟩

end Released

/-- **Every run violates the coded assertions**, as soon as its reset is over. -/
theorem monitor_reports (m : Machine rs255.dims) (env : ℕ → EncoderInput)
    (hreleased : ∃ n, ∀ t, n ≤ t → (env t).resetPort = false) :
    Monitor.Reports Monitor.pReadyThenValid (trace m env) ∧ Monitor.Reports Monitor.pValidThenReady (trace m env) ∧
      Monitor.Reports Monitor.pMutexValidReady (trace m env) := by
  obtain ⟨n, hlow⟩ := hreleased
  obtain ⟨s, hs⟩ := exists_released hlow
  exact hs.reports m

/-- The reset is high at the first edge. -/
def pulse (t : ℕ) : EncoderInput := ⟨decide (t = 1), fun _ => 0⟩

theorem monitor_reports_quiet : Monitor.Reports Monitor.pReadyThenValid (trace (Machine.fresh _) quiet) :=
  (monitor_reports (Machine.fresh _) quiet ⟨0, fun _ _ => rfl⟩).1

theorem pulse_not_accepted :
    ¬ (¬ Monitor.Reports Monitor.pReadyThenValid (trace (Machine.fresh _) pulse) ∧
      ¬ Monitor.Reports Monitor.pValidThenReady (trace (Machine.fresh _) pulse) ∧
      ¬ Monitor.Reports Monitor.pMutexValidReady (trace (Machine.fresh _) pulse)) := by
  have hpulse : Released pulse 1 := ⟨le_rfl, Or.inl rfl, fun t ht => decide_eq_false (by omega)⟩
  exact fun h => h.1 (hpulse.reports (Machine.fresh _)).1

end ReedSolomon
