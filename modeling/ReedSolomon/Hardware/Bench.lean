import ReedSolomon.Hardware.Encoder
import ReedSolomon.Spec.RsEncoderTb

/-!
# Bench and encoder in lock step

A packet takes thirty-two edges, from the one after which ready is up and the bench is about to poll for it
(`Before`) to the one behind which the bench has read the last beat of the block (`exchange`). The bench drives
the beats of the message at the edges `a + 1, …, a + 15` (`Drives`), one edge before the encoder samples them,
looks for valid in vain once, and reads the beats of the block at the edges `a + 17, …, a + 32` (`Receives`),
one edge after the encoder wrote them. The next packet begins where this one ends, so by induction on the
packets every one of them is exchanged (`lockstep_exchange`).
-/

open Imp Clocked

namespace ReedSolomon

/-- The bytes the bench drives for the packet in the memory `m₀`. -/
def driven (m₀ : Machine rs255.dims) (k : ℕ) : ℤ := word m₀ .data k % 256

theorem symbols_driven (m₀ : Machine rs255.dims) (n : ℕ) : Symbols rs255 n (driven m₀) := fun k _ => by
  rw [driven, show (rs255.nn : ℤ) = 255 from rfl]
  omega

theorem inBounds_recd_iff (k : ℕ) : InBounds (rs255.dims .recd) (line k) ↔ k < 255 := by
  rw [CodeParams.dims, inBounds_cons, show (rs255.nn : ℤ) = 255 from rfl]
  simp

/-- The reset is over. -/
structure Quiet (b : RsEncoderTb) : Prop where
  resetPort : b.resetPort = false
  top : b.wait ≠ .top
  resetHigh : b.wait ≠ .resetHigh

/-- The next segment of the bench polls for ready, with the packet of `v` in the memory `m₀`. -/
structure Before (v : TestVector) (rest : List TestVector) (m₀ : Machine rs255.dims) (b : RsEncoderTb) : Prop where
  resume : ∃ b' : RsEncoderTb, (∀ i, b.resume i = b'.pollReady i) ∧ b'.memory = m₀ ∧ b'.todo = rest
  bytes : Holds m₀ .data 237 fun k => (v.bytes k).toNat

/-- Beat `k` of the message is on the ports of the bench. -/
structure Drives (rest : List TestVector) (m₀ : Machine rs255.dims) (k : ℕ) (b : RsEncoderTb) : Prop where
  wait : b.wait = .writing (16 * (k + 1))
  todo : b.todo = rest
  memory : Same m₀ b.memory
  output : ∀ i < 16, b.dataOutputPort i = BitVec.ofInt 8 (word m₀ .data (16 * k + i))

/-- The bench looks for valid. -/
structure Polls (rest : List TestVector) (m₀ : Machine rs255.dims) (b : RsEncoderTb) : Prop where
  wait : b.wait = .pollValid
  todo : b.todo = rest
  memory : Same m₀ b.memory

/-- The beats up to `k` of the block `g` have been read. -/
structure Receives (rest : List TestVector) (m₀ : Machine rs255.dims) (g : ℕ → ℤ) (k : ℕ) (b : RsEncoderTb) : Prop where
  wait : b.wait = .reading (16 * (k + 1))
  todo : b.todo = rest
  data : ∀ j, word b.memory .data j = word m₀ .data j
  recd : Holds b.memory .recd (min (16 * (k + 1)) 255) g

/-- The ports carry beat `k` of the block `g`. -/
def Shows (input : Lanes) (g : ℕ → ℤ) (k : ℕ) : Prop :=
  ∀ j < nbByteInput, 16 * k + j < 255 → ((input j).toNat : ℤ) = g (16 * k + j)

theorem wrote_drawData (m : Machine rs255.dims) (bytes : ℕ → BitVec 8) :
    Wrote m .data line (fun k => (bytes k).toNat) (Set.Ico 0 237) ((drawData bytes).exec m) := by
  have hdraw : wp (drawData bytes) (fun _ m' => Wrote m .data line (fun k => (bytes k).toNat) (Set.Ico 0 237) m') m := by
    unfold drawData receive
    apply wp_forEach_wrote Arr.data line (fun k => (bytes k).toNat) (Nat.zero_le 237)
    intro k s _ hk hs
    have hb : InBounds (rs255.dims .data) (line k) := (inBounds_data_iff k).mpr (lt_trans hk (by decide))
    rw [wp_store hb]
    exact hs.put line_injective k hb
  exact wp_iff_run.mp hdraw

theorem holds_drawData (m : Machine rs255.dims) (bytes : ℕ → BitVec 8) :
    Holds ((drawData bytes).exec m) .data 237 fun k => (bytes k).toNat :=
  fun k hk => (wrote_drawData m bytes).new k ⟨Nat.zero_le k, hk⟩

namespace RsEncoderTb

variable {b : RsEncoderTb} {rest : List TestVector} {m₀ : Machine rs255.dims} {g : ℕ → ℤ} {k : ℕ} {i : BenchInput}

/-! ### The segments -/

theorem check_resetPort (b : RsEncoderTb) : b.check.resetPort = b.resetPort := by
  cases b
  rfl

theorem check_todo (b : RsEncoderTb) : b.check.todo = b.todo := by
  cases b
  rfl

/-- What polling and transfers leave alone: the reset and the packets. -/
structure SamePacket (b b' : RsEncoderTb) : Prop where
  resetPort : b'.resetPort = b.resetPort
  errors : b'.errors = b.errors
  todo : b'.todo = b.todo
  noEncoderErrors : b'.noEncoderErrors = b.noEncoderErrors

theorem samePacket_pollValid (b : RsEncoderTb) : SamePacket b (b.pollValid i) := by
  unfold pollValid
  split_ifs
  · exact ⟨rfl, rfl, rfl, rfl⟩
  · exact ⟨rfl, rfl, rfl, rfl⟩

theorem samePacket_send (b : RsEncoderTb) (c : ℕ) : SamePacket b (b.send i c) := by
  unfold send
  split_ifs
  · exact ⟨rfl, rfl, rfl, rfl⟩
  · exact samePacket_pollValid b

theorem samePacket_pollReady (b : RsEncoderTb) : SamePacket b (b.pollReady i) := by
  unfold pollReady
  split_ifs
  · exact samePacket_send b 0
  · exact ⟨rfl, rfl, rfl, rfl⟩

theorem quiet_pollValid (h : b.resetPort = false) : Quiet (b.pollValid i) := by
  unfold pollValid
  split_ifs
  · exact ⟨h, nofun, nofun⟩
  · exact ⟨h, nofun, nofun⟩

theorem quiet_send (h : b.resetPort = false) (c : ℕ) : Quiet (b.send i c) := by
  unfold send
  split_ifs
  · exact ⟨h, nofun, nofun⟩
  · exact quiet_pollValid h

theorem quiet_pollReady (h : b.resetPort = false) : Quiet (b.pollReady i) := by
  unfold pollReady
  split_ifs
  · exact quiet_send h 0
  · exact ⟨h, nofun, nofun⟩

theorem quiet_nextPacket (h : b.resetPort = false) : Quiet (b.nextPacket i) := by
  unfold nextPacket
  split
  · exact ⟨h, nofun, nofun⟩
  · exact quiet_pollReady h

theorem quiet_receive (h : b.resetPort = false) (c : ℕ) : Quiet (b.receive i c) := by
  unfold receive
  split_ifs
  · exact ⟨h, nofun, nofun⟩
  · exact quiet_nextPacket ((check_resetPort b).trans h)

theorem quiet_resume (h : Quiet b) : Quiet (b.resume i) := by
  unfold resume
  split
  · exact absurd ‹_› h.top
  · exact absurd ‹_› h.resetHigh
  · exact quiet_nextPacket h.resetPort
  · exact quiet_pollReady h.resetPort
  · exact quiet_send h.resetPort _
  · exact quiet_pollValid h.resetPort
  · exact quiet_receive h.resetPort _
  · exact h

theorem drives_send (htodo : b.todo = rest) (hm : Same m₀ b.memory) (hk : k < 15) :
    Drives rest m₀ k (b.send i (16 * k)) := by
  obtain ⟨hsame, hout⟩ := wp_iff_run.mp (wp_writeLanes (m := b.memory) (a := .data) (16 * k) b.dataOutputPort)
  rw [send, if_pos (by rw [messageLength_eq]; omega)]
  refine ⟨?_, htodo, hm.trans hsame, fun j hj => ?_⟩
  · rw [nbByteInput_eq, Nat.mul_succ]
  · exact (hout j hj).trans (congrArg _ (hm.val_eq List.not_mem_nil _))

theorem drives_first {v : TestVector} (h : Before v rest m₀ b) (hi : i.encoderReadyPort = true) :
    Drives rest m₀ 0 (b.resume i) := by
  obtain ⟨b', hnext, rfl, htodo⟩ := h.resume
  rw [hnext, pollReady, if_pos hi]
  exact drives_send htodo (Keeps.refl _ _) (by omega)

theorem drives_next (h : Drives rest m₀ k b) (hk : k < 14) : Drives rest m₀ (k + 1) (b.resume i) := by
  rw [resume, h.wait]
  exact drives_send h.todo h.memory (by omega)

theorem polls_first (h : Drives rest m₀ 14 b) (hi : i.encoderValidPort = false) : Polls rest m₀ (b.resume i) := by
  rw [resume, h.wait]
  show Polls rest m₀ (b.send i (16 * 15))
  rw [send, if_neg (by decide), pollValid, hi]
  exact ⟨rfl, h.todo, h.memory⟩

theorem receives_take {c : ℕ} (htodo : b.todo = rest) (hdata : ∀ j, word b.memory .data j = word m₀ .data j)
    (hc : c = 16 * k) (hk : k < 16) (hrecd : Holds b.memory .recd (16 * k) g) (hin : Shows i.encoderInputPort g k) :
    Receives rest m₀ g k (b.take i c) := by
  subst hc
  have hread : wp (readLanes .recd (16 * k) i.encoderInputPort)
      (fun _ m' => Keeps [.recd] b.memory m' ∧ Holds m' .recd (min (16 * k + nbByteInput) 255) g) b.memory :=
    wp_readLanes inBounds_recd_iff (by omega) hrecd hin
  obtain ⟨hkeeps, hnew⟩ := wp_iff_run.mp hread
  refine ⟨?_, htodo, fun j => ?_, hnew⟩
  · rw [take, nbByteInput_eq, Nat.mul_succ]
  · rw [← hdata j]
    exact hkeeps.val_eq (by simp) _

theorem receives_first (h : Polls rest m₀ b) (hi : i.encoderValidPort = true) (hin : Shows i.encoderInputPort g 0) :
    Receives rest m₀ g 0 (b.resume i) := by
  rw [resume, h.wait]
  show Receives rest m₀ g 0 (b.pollValid i)
  rw [pollValid, if_pos hi]
  exact receives_take h.todo (fun j => h.memory.val_eq List.not_mem_nil _) rfl (by omega)
    (fun j hj => absurd hj (Nat.not_lt_zero j)) hin

theorem receives_next (h : Receives rest m₀ g k b) (hk : k < 15) (hin : Shows i.encoderInputPort g (k + 1)) :
    Receives rest m₀ g (k + 1) (b.resume i) := by
  have hrecd := h.recd
  rw [Nat.min_eq_left (by omega)] at hrecd
  rw [resume, h.wait]
  show Receives rest m₀ g (k + 1) (b.receive i (16 * (k + 1)))
  rw [receive, if_pos (by rw [blockLength_eq]; omega)]
  exact receives_take h.todo h.data rfl (by omega) hrecd hin

theorem resume_last (h : Receives rest m₀ g 15 b) : b.resume i = b.check.nextPacket i := by
  rw [resume, h.wait]
  show b.receive i (16 * 16) = _
  rw [receive, if_neg (by decide)]

theorem before_next {v : TestVector} (h : Receives (v :: rest) m₀ g 15 b) :
    Before v rest (b.check.draw v rest).memory b := by
  refine ⟨⟨b.check.draw v rest, fun i => ?_, rfl, rfl⟩, holds_drawData _ _⟩
  have htodo : b.check.todo = v :: rest := (check_todo b).trans h.todo
  rw [resume_last h, nextPacket, htodo]

theorem done_next (h : Receives [] m₀ g 15 b) : (b.resume i).wait = .done := by
  have htodo : b.check.todo = [] := (check_todo b).trans h.todo
  rw [resume_last h, nextPacket, htodo]

theorem done_resume (h : b.wait = .done) : (b.resume i).wait = .done := by
  rw [resume, h]
  exact h

end RsEncoderTb

/-- The bench after `t` edges, in the environment `env`. -/
def benchRun (m : Machine rs255.dims) (vectors : List TestVector) (env : ℕ → BenchInput) : ℕ → RsEncoderTb :=
  run RsEncoderTb.resume env (RsEncoderTb.construct m vectors)

/-! ### The composition -/

theorem carries_of_drives {rest : List TestVector} {m₀ : Machine rs255.dims} {k : ℕ} {b : RsEncoderTb}
    (h : Drives rest m₀ k b) : RsEncoder.Carries b.dataOutputPort (driven m₀) k := fun i hi _ => by
  rw [h.output i hi, BitVec.toNat_ofInt, driven]
  omega

theorem shows_of_writing {f : ℕ → ℤ} {k : ℕ} {e : RsEncoder} (h : Writing f k e) :
    Shows e.encoderOutputPort (blockBytes f) k := fun i hi hk => by
  rw [h.output i hi hk, toNat_blockBytes]

section Composition

variable {E : ℕ → RsEncoder} {B : ℕ → RsEncoderTb} {m₀ : Machine rs255.dims} {rest : List TestVector} {v : TestVector}
  {a : ℕ}

theorem exchange (hE : Follows RsEncoder.edge (fun t => RsEncoderTb.outputOf (B (t - 1))) E)
    (hB : Follows RsEncoderTb.resume (fun t => RsEncoderTb.inputOf (E (t - 1))) B)
    (ha : Waits .ready true false (E a)) (hbefore : Before v rest m₀ (B a)) (hquiet : Quiet (B a)) :
    Packet (driven m₀) a E ∧ Receives rest m₀ (blockBytes (driven m₀)) 15 (B (a + 32)) := by
  have hdrives : ∀ k ≤ 14, Drives rest m₀ k (B (a + 1 + k)) := fun k hk => by
    refine stages (Drives rest m₀) ?_ (fun j hj h => ?_) hk
    · rw [hB]
      exact RsEncoderTb.drives_first hbefore ha.ready
    · rw [hB]
      exact RsEncoderTb.drives_next h hj
  have hpacket : Packet (driven m₀) a E := by
    refine packet hE ha (fun j hj => ?_) (symbols_driven m₀ 239) fun k hk => ?_
    · have := hB.invariant Quiet (fun i b h => RsEncoderTb.quiet_resume h) hquiet j
      rw [show a + 1 + j - 1 = a + j by omega]
      exact this.resetPort
    · rw [show a + 2 + k - 1 = a + 1 + k by omega]
      exact carries_of_drives (hdrives k (by omega))
  refine ⟨hpacket, ?_⟩
  have hpolls : Polls rest m₀ (B (a + 1 + 14 + 1)) := by
    rw [hB]
    exact RsEncoderTb.polls_first (hdrives 14 le_rfl) (hpacket.reading 14 (by omega)).valid
  have hreceives : ∀ k ≤ 15, Receives rest m₀ (blockBytes (driven m₀)) k (B (a + 17 + k)) :=
    fun k hk => by
      refine stages (Receives rest m₀ (blockBytes (driven m₀))) ?_
        (fun j hj h => ?_) hk
      · have hw := hpacket.writing 0 (by omega)
        rw [hB]
        exact RsEncoderTb.receives_first hpolls hw.valid (shows_of_writing hw)
      · have hw := hpacket.writing (j + 1) (by omega)
        rw [show a + 16 + (j + 1) = a + 17 + j by omega] at hw
        rw [hB]
        exact RsEncoderTb.receives_next h hj (shows_of_writing hw)
  exact hreceives 15 le_rfl

end Composition

section Run

variable (m m' : Machine rs255.dims) (vectors : List TestVector)

theorem follows_encoder : Follows RsEncoder.edge (fun t => RsEncoderTb.outputOf (scMain m m' vectors (t - 1)).2)
    fun t => (scMain m m' vectors t).1 := follows_fst _ _ _ _ _

theorem follows_bench : Follows RsEncoderTb.resume (fun t => RsEncoderTb.inputOf (scMain m m' vectors (t - 1)).1)
    fun t => (scMain m m' vectors t).2 := follows_snd _ _ _ _ _

/-- The bench holds the reset for one edge, so the encoder starts twice. -/
theorem scMain_two : (scMain m m' vectors 2).1 = (RsEncoder.construct m).start.start ∧
    Quiet (scMain m m' vectors 2).2 ∧ (scMain m m' vectors 2).2.wait = .resetLow ∧
    (scMain m m' vectors 2).2.todo = vectors := by
  refine ⟨?_, ⟨rfl, nofun, nofun⟩, rfl, rfl⟩
  have hone : (scMain m m' vectors 1).1 = (RsEncoder.construct m).start :=
    (follows_encoder m m' vectors 0).trans (RsEncoder.edge_construct m _)
  have htwo : (scMain m m' vectors 2).1 = (scMain m m' vectors 1).1.edge (RsEncoderTb.outputOf (scMain m m' vectors 1).2) :=
    follows_encoder m m' vectors 1
  rw [htwo, hone]
  rfl

theorem waits_three : Waits .ready true false (scMain m m' vectors 3).1 := by
  obtain ⟨hencoder, hquiet, -, -⟩ := scMain_two m m' vectors
  have hthree : (scMain m m' vectors 3).1 = (scMain m m' vectors 2).1.edge (RsEncoderTb.outputOf (scMain m m' vectors 2).2) :=
    follows_encoder m m' vectors 2
  rw [hthree, RsEncoder.edge_of_not_reset hquiet.resetPort, hencoder]
  exact RsEncoder.waits_begin (booted_spec m).1 rfl

theorem bench_three : (scMain m m' vectors 3).2 = match vectors with
    | [] => { (scMain m m' vectors 2).2 with wait := .done }
    | v :: rest => { (scMain m m' vectors 2).2.draw v rest with wait := .pollReady } := by
  obtain ⟨hencoder, hquiet, hwait, htodo⟩ := scMain_two m m' vectors
  have hthree : (scMain m m' vectors 3).2 = (scMain m m' vectors 2).2.resume (RsEncoderTb.inputOf (scMain m m' vectors 2).1) :=
    follows_bench m m' vectors 2
  rw [hthree, RsEncoderTb.resume, hwait]
  show RsEncoderTb.nextPacket _ _ = _
  rw [RsEncoderTb.nextPacket, htodo]
  cases vectors with
  | nil => rfl
  | cons v rest =>
    show RsEncoderTb.pollReady _ _ = _
    rw [RsEncoderTb.pollReady, hencoder]
    rfl

theorem quiet_scMain (t : ℕ) : Quiet (scMain m m' vectors (2 + t)).2 :=
  (follows_bench m m' vectors).invariant Quiet (fun _ _ h => RsEncoderTb.quiet_resume h)
    (scMain_two m m' vectors).2.1 t

theorem exchange_scMain {n : ℕ} {v : TestVector} {rest : List TestVector} {m₀ : Machine rs255.dims}
    (hready : Waits .ready true false (scMain m m' vectors (3 + 32 * n)).1)
    (hbefore : Before v rest m₀ (scMain m m' vectors (3 + 32 * n)).2) :
    Packet (driven m₀) (3 + 32 * n) (fun t => (scMain m m' vectors t).1) ∧
      Receives rest m₀ (blockBytes (driven m₀)) 15 (scMain m m' vectors (3 + 32 * n + 32)).2 := by
  have hquiet := quiet_scMain m m' vectors (1 + 32 * n)
  rw [← Nat.add_assoc] at hquiet
  exact exchange (E := fun t => (scMain m m' vectors t).1) (B := fun t => (scMain m m' vectors t).2)
    (follows_encoder m m' vectors) (follows_bench m m' vectors) hready hbefore hquiet

theorem packet_begins {n : ℕ} {v : TestVector} {rest : List TestVector} (hn : vectors.drop n = v :: rest) :
    Waits .ready true false (scMain m m' vectors (3 + 32 * n)).1 ∧
      ∃ m₀, Before v rest m₀ (scMain m m' vectors (3 + 32 * n)).2 := by
  induction n generalizing v rest with
  | zero =>
    rw [List.drop_zero] at hn
    subst hn
    refine ⟨waits_three m m' _, (drawData v.bytes).exec (scMain m m' (v :: rest) 2).2.memory, ?_⟩
    rw [show 3 + 32 * 0 = 3 from rfl, bench_three m m' (v :: rest)]
    exact ⟨⟨_, fun i => rfl, rfl, rfl⟩, holds_drawData _ _⟩
  | succ n ih =>
    obtain ⟨u, hu⟩ : ∃ u, vectors.drop n = u :: v :: rest := by
      have hlt : n < vectors.length := by
        by_contra hge
        rw [List.drop_eq_nil_of_le (by omega)] at hn
        exact absurd hn (List.cons_ne_nil _ _).symm
      exact ⟨vectors[n], by rw [List.drop_eq_getElem_cons hlt, hn]⟩
    obtain ⟨hready, m₀, hbefore⟩ := ih hu
    obtain ⟨hpacket, hreceived⟩ := exchange_scMain m m' vectors hready hbefore
    exact ⟨hpacket.sent.toWaits, _, RsEncoderTb.before_next hreceived⟩

theorem done_after {t : ℕ} (ht : 4 + 32 * vectors.length ≤ t) : (scMain m m' vectors t).2.wait = .done := by
  have hstay : ∀ {a}, (scMain m m' vectors a).2.wait = .done → ∀ j, (scMain m m' vectors (a + j)).2.wait = .done :=
    (follows_bench m m' vectors).invariant (fun b => b.wait = .done) fun _ _ h => RsEncoderTb.done_resume h
  have hdone : (scMain m m' vectors (4 + 32 * vectors.length)).2.wait = .done := by
    rcases Nat.eq_zero_or_pos vectors.length with hnil | hpos
    · obtain rfl := List.length_eq_zero_iff.mp hnil
      have hthree : (scMain m m' [] 3).2.wait = .done := by rw [bench_three]
      exact hstay hthree 1
    · obtain ⟨v, hv⟩ : ∃ v, vectors.drop (vectors.length - 1) = [v] := by
        refine ⟨vectors[vectors.length - 1], ?_⟩
        rw [List.drop_eq_getElem_cons (by omega), Nat.sub_add_cancel hpos, List.drop_length]
      obtain ⟨hready, m₀, hbefore⟩ := packet_begins m m' vectors hv
      have hreceived := (exchange_scMain m m' vectors hready hbefore).2
      rw [show 4 + 32 * vectors.length = 3 + 32 * (vectors.length - 1) + 32 + 1 by omega]
      exact RsEncoderTb.done_next hreceived
  obtain ⟨j, rfl⟩ := Nat.exists_eq_add_of_le ht
  exact hstay hdone j

/-- **Every packet is exchanged.** After edge `35 + 32 * n` the bench stands before the injection of errors into
packet `n`. -/
theorem lockstep_exchange (m m' : Machine rs255.dims) (vectors : List TestVector) :
    (∀ n v rest, vectors.drop n = v :: rest →
      let encoder := (scMain m m' vectors (35 + 32 * n)).1
      let bench := (scMain m m' vectors (35 + 32 * n)).2
      bench.wait = .reading 256 ∧ bench.todo = rest ∧
        (∀ k < 237, word bench.memory .data k = (v.bytes k).toNat) ∧
        (∀ k < 239, word encoder.memory .data k = word bench.memory .data k % 256) ∧
        ∀ k < 255, word bench.memory .recd k = word encoder.memory .recd k) ∧
      ∀ t, 4 + 32 * vectors.length ≤ t → (scMain m m' vectors t).2.wait = .done := by
  refine ⟨fun n v rest hn => ?_, fun t => done_after m m' vectors⟩
  obtain ⟨hready, m₀, hbefore⟩ := packet_begins m m' vectors hn
  obtain ⟨hpacket, hreceived⟩ := exchange_scMain m m' vectors hready hbefore
  have hblock := hpacket.sent.block
  rw [show 3 + 32 * n + 32 = 35 + 32 * n by omega] at hreceived hblock
  intro encoder bench
  refine ⟨hreceived.wait, hreceived.todo, fun k hk => ?_, fun k hk => ?_, fun k hk => ?_⟩
  · rw [hreceived.data k]
    exact hbefore.bytes.val_eq hk
  · rw [hreceived.data k]
    exact hblock.data.val_eq hk
  · exact (hreceived.recd.val_eq hk).trans (hblock.recd.val_eq hk).symm

/-- A packet `0, 1, 2, …` with one error. -/
def countingVector : TestVector := ⟨fun k => BitVec.ofNat 8 k, [(7, 1)], true⟩

end Run

theorem lockstep_one : ∀ k < 255,
    word (scMain (Machine.fresh _) (Machine.fresh _) [countingVector] 35).2.memory .recd k =
      word (scMain (Machine.fresh _) (Machine.fresh _) [countingVector] 35).1.memory .recd k :=
  ((lockstep_exchange (Machine.fresh _) (Machine.fresh _) [countingVector]).1 0 countingVector [] rfl).2.2.2.2

end ReedSolomon
