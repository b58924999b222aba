import ReedSolomon.Field.Cyclic
import ReedSolomon.Hardware.Bench
import ReedSolomon.Package.TestBench

/-!
# The SystemVerilog bench and the encoder

A packet takes thirty-two edges again, from the edge `a` after which ready goes up. This bench reacts to the change
itself, so it drives beat 0 of the message between the edges `a` and `a + 1` and beat `k` at the edge `a + k`
(`Drives`), while the encoder takes its beat `k` at the edge `a + 2 + k`: it samples beat `k + 1`, or `k + 2` where the
assignment at that edge gets through (`sampled_eq`). On the way back the bench reads beat 0 of the block as soon as
valid goes up and once more at the next edge, and so on one beat behind the encoder (`delayed`).

The arrays agree all the same if there is nothing but zeros on the lanes, and only then (`exchange_iff`): a block
that is its own delayed copy repeats itself every sixteen symbols, and the only such codeword is 0.
-/

open Imp Clocked

namespace ReedSolomon

namespace Sv

/-- What the bench reads of the block `c`: its first beat twice, and its last beat not at all. -/
def delayed (c : ℕ → ℤ) (j : ℕ) : ℤ := if j < 16 then c j else c (j - 16)

/-- The reset is over. -/
structure Quiet (b : TestRsEncoder) : Prop where
  reset : b.reset = false
  wait : b.wait ≠ .resetHigh

/-- The tables are 0, and `unknown` stands behind the end of `data`. -/
structure Elaborated (unknown : ℤ) (m : Machine (dims rs255)) : Prop where
  blank : Blank m
  unknown : ∀ idx, m.junk .data idx = unknown

/-- The packet of `v` is in `data`. -/
structure Drawn (unknown : ℤ) (v : TestVector) (m : Machine (dims rs255)) : Prop extends Elaborated unknown m where
  bytes : Holds m .data 239 fun k => (v.bytes k).toNat

/-- Byte `j` of the packet in the memory `m₀`, as it is on its lane. -/
def driven (m₀ : Machine (dims rs255)) (j : ℕ) : ℤ := m₀.val .data (line j) % 256

/-- Beat `k` of the packet in `m₀` is on the ports. -/
def OnPorts (m₀ : Machine (dims rs255)) (k : ℕ) (b : TestRsEncoder) : Prop :=
  ∀ i < 16, ((b.dataOutputPort i).toNat : ℤ) = driven m₀ (16 * k + i)

/-- Beat `k` of the message was driven, and the bench waits for an edge. -/
structure Drives (rest : List TestVector) (m₀ : Machine (dims rs255)) (k : ℕ) (b : TestRsEncoder) : Prop where
  wait : b.wait = .writing (16 * (k + 1))
  todo : b.todo = rest
  memory : Same m₀ b.memory
  output : OnPorts m₀ k b

/-- The message was driven, and the bench waits for valid. -/
structure Awaits (rest : List TestVector) (m₀ : Machine (dims rs255)) (b : TestRsEncoder) : Prop where
  wait : b.wait = .valid
  todo : b.todo = rest
  memory : Same m₀ b.memory
  output : OnPorts m₀ 14 b

/-- The beats up to `k` of the word `g` were read. -/
structure Receives (rest : List TestVector) (m₀ : Machine (dims rs255)) (g : ℕ → ℤ) (k : ℕ) (b : TestRsEncoder) :
    Prop where
  wait : b.wait = .reading (16 * (k + 1))
  todo : b.todo = rest
  memory : Keeps [.msg] m₀ b.memory
  recd : Holds b.memory .msg (min (16 * (k + 1)) 255) g

theorem Elaborated.of_keeps {unknown : ℤ} {W : List Arr} {m m' : Machine (dims rs255)} (h : Elaborated unknown m)
    (hk : Keeps W m m') (ha : .alphaTo ∉ W) (hi : .indexOf ∉ W) : Elaborated unknown m' :=
  ⟨h.blank.of_keeps hk ha hi, fun idx => by rw [hk.junk, h.unknown]⟩

theorem drawn_drawData {unknown : ℤ} {m : Machine (dims rs255)} (h : Elaborated unknown m) (v : TestVector) :
    Drawn unknown v ((drawData v.bytes).exec m) := by
  obtain ⟨hf, hbytes⟩ := wp_iff_run.mp (wp_drawData (m := m) v.bytes)
  exact ⟨h.of_keeps hf.keeps (by simp) (by simp), hbytes⟩

theorem inBounds_msg_iff (k : ℕ) : InBounds (dims rs255 .msg) (line k) ↔ k < 255 := inBounds_recd_iff k

section Packet

variable {unknown : ℤ} {v : TestVector} {m₀ : Machine (dims rs255)}

theorem Drawn.val_eq (h : Drawn unknown v m₀) {k : ℕ} (hk : k < 239) : m₀.val .data (line k) = (v.bytes k).toNat :=
  h.bytes.val_eq hk

theorem Drawn.driven_eq (h : Drawn unknown v m₀) {k : ℕ} (hk : k < 239) : driven m₀ k = (v.bytes k).toNat := by
  have hlt := (v.bytes k).isLt
  rw [driven, h.val_eq hk]
  omega

/-- The last lane of the last beat is loaded from behind the end of `data`. -/
theorem Drawn.driven_last (h : Drawn unknown v m₀) : driven m₀ 239 = unknown % 256 := by
  have hnone : m₀.cell .data (line 239) = none := m₀.cell_of_not_inBounds fun h =>
    absurd ((inBounds_data_iff 239).mp h) (lt_irrefl 239)
  rw [driven, Machine.val, hnone, Option.getD_none, h.unknown]

end Packet

namespace TestRsEncoder

variable {b : TestRsEncoder} {rest : List TestVector} {m₀ : Machine (dims rs255)} {g : ℕ → ℤ} {k : ℕ} {l : Lanes}
  {e e' : RsEncoder}

/-! ### The segments -/

theorem check_reset (b : TestRsEncoder) : b.check.reset = b.reset := by
  cases b
  rfl

theorem check_todo (b : TestRsEncoder) : b.check.todo = b.todo := by
  cases b
  rfl

theorem check_memory (b : TestRsEncoder) : b.check.memory = (checkPacket b.errors).exec b.memory := by
  cases b
  rfl

theorem quiet_nextPacket (h : b.reset = false) : Quiet b.nextPacket := by
  unfold nextPacket
  split
  · exact ⟨h, nofun⟩
  · exact ⟨h, nofun⟩

theorem quiet_send (h : b.reset = false) (c : ℕ) : Quiet (b.send c) := by
  unfold send
  split_ifs
  · exact ⟨h, nofun⟩
  · exact ⟨h, nofun⟩

theorem quiet_receive (h : b.reset = false) (c : ℕ) : Quiet (b.receive c l) := by
  unfold receive
  split_ifs
  · exact ⟨h, nofun⟩
  · exact quiet_nextPacket ((check_reset b).trans h)

theorem quiet_edge (h : Quiet b) : Quiet (b.edge l) := by
  unfold edge
  split
  · exact absurd ‹_› h.wait
  · exact quiet_nextPacket h.reset
  · exact quiet_send h.reset _
  · exact quiet_receive h.reset _
  · exact h
  · exact h
  · exact h

theorem quiet_change (h : Quiet b) : Quiet (b.change e e') := by
  unfold change
  split
  · split_ifs
    · exact quiet_send h.reset 0
    · exact h
  · split_ifs
    · exact quiet_receive h.reset 0
    · exact h
  · exact h

theorem drives_send (htodo : b.todo = rest) (hm : Same m₀ b.memory) (hk : k < 15) :
    Drives rest m₀ k (b.send (16 * k)) := by
  obtain ⟨hsame, hout⟩ := wp_iff_run.mp (wp_writeLanes (m := b.memory) (a := .data) (16 * k) b.dataOutputPort)
  rw [send, if_pos (by rw [messageLength_eq]; omega)]
  refine ⟨?_, htodo, hm.trans hsame, fun i hi => ?_⟩
  · rw [nbByteInput_eq, Nat.mul_succ]
  · have hval : b.memory.val .data (line (16 * k + i)) = m₀.val .data (line (16 * k + i)) :=
      hm.val_eq List.not_mem_nil _
    rw [driven, ← hval, congrArg BitVec.toNat (hout i hi), BitVec.toNat_ofInt]
    omega

theorem drives_edge (h : Drives rest m₀ k b) (hk : k < 14) : Drives rest m₀ (k + 1) (b.edge l) := by
  rw [edge, h.wait]
  exact drives_send h.todo h.memory (by omega)

theorem awaits_edge (h : Drives rest m₀ 14 b) : Awaits rest m₀ (b.edge l) := by
  rw [edge, h.wait]
  show Awaits rest m₀ (b.send (16 * 15))
  rw [send, if_neg (by decide)]
  exact ⟨rfl, h.todo, h.memory, h.output⟩

theorem receives_receive (htodo : b.todo = rest) (hm : Keeps [.msg] m₀ b.memory) (hk : k < 16)
    (hrecd : Holds b.memory .msg (16 * k) g) (hin : Shows l g k) : Receives rest m₀ g k (b.receive (16 * k) l) := by
  have hread : wp (readLanes .msg (16 * k) l)
      (fun _ m' => Keeps [.msg] b.memory m' ∧ Holds m' .msg (min (16 * k + nbByteInput) 255) g) b.memory :=
    wp_readLanes inBounds_msg_iff (by omega) hrecd hin
  obtain ⟨hkeeps, hnew⟩ := wp_iff_run.mp hread
  rw [receive, if_pos (by rw [blockLength_eq]; omega)]
  refine ⟨?_, htodo, hm.trans hkeeps, hnew⟩
  rw [nbByteInput_eq, Nat.mul_succ]

theorem receives_edge (h : Receives rest m₀ g k b) (hk : k < 15) (hin : Shows l g (k + 1)) :
    Receives rest m₀ g (k + 1) (b.edge l) := by
  have hrecd := h.recd
  rw [Nat.min_eq_left (by omega)] at hrecd
  rw [edge, h.wait]
  exact receives_receive h.todo h.memory (by omega) hrecd hin

theorem edge_last (h : Receives rest m₀ g 15 b) : b.edge l = b.check.nextPacket := by
  rw [edge, h.wait]
  show b.receive (16 * 16) l = _
  rw [receive, if_neg (by decide)]

theorem edge_awaits (h : Awaits rest m₀ b) : b.edge l = b := by rw [edge, h.wait]

/-! ### The changes of the ports -/

theorem change_drives (h : Drives rest m₀ k b) : b.change e e' = b := by rw [change, h.wait]

theorem change_receives (h : Receives rest m₀ g k b) : b.change e e' = b := by rw [change, h.wait]

theorem change_awaits (h : Awaits rest m₀ b) (hvalid : e.encoderValidPort = e'.encoderValidPort) : b.change e e' = b := by
  rw [change, h.wait]
  exact if_neg (not_not.mpr hvalid)

theorem receives_first (h : Awaits rest m₀ b) (hvalid : e.encoderValidPort ≠ e'.encoderValidPort)
    (hin : Shows e'.encoderOutputPort g 0) : Receives rest m₀ g 0 (b.change e e') := by
  rw [change, h.wait]
  show Receives rest m₀ g 0 (if _ then b.receive (16 * 0) e'.encoderOutputPort else b)
  rw [if_pos hvalid]
  exact receives_receive h.todo (h.memory.mono (List.nil_subset _)) (by omega) (fun j hj => absurd hj (Nat.not_lt_zero j)) hin

theorem drives_first {v : TestVector} (htodo : b.todo = v :: rest) (hready : e.encoderReadyPort ≠ e'.encoderReadyPort) :
    Drives rest ((drawData v.bytes).exec b.memory) 0 (b.nextPacket.change e e') := by
  rw [nextPacket, htodo]
  show Drives rest _ 0 (if _ then send (16 * 0) _ else _)
  rw [if_pos hready]
  exact drives_send rfl (Keeps.refl _ _) (by omega)

theorem drives_next {unknown : ℤ} {u v : TestVector} (h : Receives (v :: rest) m₀ g 15 b) (hd : Drawn unknown u m₀)
    (hg : ∀ k < 255, 0 ≤ g k ∧ g k ≤ 255) (hready : e.encoderReadyPort ≠ e'.encoderReadyPort) :
    ∃ m₁, Drawn unknown v m₁ ∧ Drives rest m₁ 0 ((b.edge l).change e e') := by
  have hbytes : HasBytes b.memory := fun k hk => ⟨g k, (hg k hk).1, (hg k hk).2, h.recd k hk⟩
  have hel := hd.toElaborated.of_keeps h.memory (by simp) (by simp)
  have hdata := hd.bytes.of_keeps h.memory (by simp)
  obtain ⟨hk, -, -⟩ := wp_iff_run.mp (wp_checkPacket hel.blank hbytes hdata b.errors)
  refine ⟨(drawData v.bytes).exec b.check.memory, drawn_drawData ?_ v, ?_⟩
  · rw [check_memory]
    exact hel.of_keeps hk (by simp [decodeLocals]) (by simp [decodeLocals])
  · rw [edge_last h]
    exact drives_first ((check_todo b).trans h.todo) hready

end TestRsEncoder

/-! ### One packet -/

theorem shows_delayed_first {l : Lanes} {c : ℕ → ℤ} (h : Shows l c 0) : Shows l (delayed c) 0 := fun j hj hlt => by
  rw [h j hj hlt, delayed, if_pos (by rw [nbByteInput_eq] at hj; omega)]

theorem shows_delayed_next {l : Lanes} {c : ℕ → ℤ} {k : ℕ} (h : Shows l c k) : Shows l (delayed c) (k + 1) :=
  fun j hj hlt => by
    rw [h j hj (by omega), delayed, if_neg (by omega), show 16 * (k + 1) + j - 16 = 16 * k + j by omega]

section Composition

variable {race : ℕ → Race} {S : ℕ → RsEncoder × TestRsEncoder} {rest : List TestVector} {m₀ : Machine (dims rs255)}
  {a : ℕ}

theorem input_lane (r : Race) (b b' : TestRsEncoder) (i : ℕ) : (r.input b b').encoderInputPort i =
    if r.lane i then b'.dataOutputPort i else b.dataOutputPort i := rfl

/-- What the encoder samples at edge `t`. -/
def sampledAt (race : ℕ → Race) (S : ℕ → RsEncoder × TestRsEncoder) (t : ℕ) : EncoderInput :=
  (race t).input (S (t - 1)).2 ((S (t - 1)).2.edge (S (t - 1)).1.encoderOutputPort)

/-- The message the encoder takes. -/
def taken (race : ℕ → Race) (S : ℕ → RsEncoder × TestRsEncoder) (a : ℕ) : ℕ → ℤ := sampled (sampledAt race S) a

theorem follows_encoder (hS : ∀ t, S (t + 1) = cycle (race (t + 1)) (S t)) :
    Follows RsEncoder.edge (sampledAt race S) fun t => (S t).1 := fun t => by
  show (S (t + 1)).1 = _
  rw [hS]
  rfl

theorem bench_next (hS : ∀ t, S (t + 1) = cycle (race (t + 1)) (S t)) (t : ℕ) :
    (S (t + 1)).2 = ((S t).2.edge (S t).1.encoderOutputPort).change (S t).1 (S (t + 1)).1 := by
  rw [hS]
  rfl

theorem quiet_from (hS : ∀ t, S (t + 1) = cycle (race (t + 1)) (S t)) (ha : Quiet (S a).2) (j : ℕ) :
    Quiet (S (a + j)).2 := by
  induction j with
  | zero => exact ha
  | succ j ih =>
    rw [← Nat.add_assoc, bench_next hS]
    exact TestRsEncoder.quiet_change (TestRsEncoder.quiet_edge ih)

theorem sampled_of_ports {k i p q : ℕ} (hi : i < 16) (hp : OnPorts m₀ p (S (a + 1 + k)).2)
    (hq : OnPorts m₀ q ((S (a + 1 + k)).2.edge (S (a + 1 + k)).1.encoderOutputPort)) :
    taken race S a (16 * k + i) = driven m₀ (16 * p + i) ∨ taken race S a (16 * k + i) = driven m₀ (16 * q + i) := by
  have htaken : taken race S a (16 * k + i) = (((sampledAt race S (a + 2 + k)).encoderInputPort i).toNat : ℤ) := by
    rw [taken, sampled, show (16 * k + i) / 16 = k by omega, show (16 * k + i) % 16 = i by omega]
  rw [htaken, sampledAt, show a + 2 + k - 1 = a + 1 + k by omega, input_lane]
  split_ifs
  · exact Or.inr (hq i hi)
  · exact Or.inl (hp i hi)

/-- What the run shows of the packet in `m₀`, for which ready went up after edge `a`. -/
structure Shifted (race : ℕ → Race) (S : ℕ → RsEncoder × TestRsEncoder) (rest : List TestVector)
    (m₀ : Machine (dims rs255)) (a : ℕ) : Prop where
  packet : Packet (taken race S a) a fun t => (S t).1
  /-- Beat 0 is lost. -/
  message : ∀ k < 15, ∀ i < 16, taken race S a (16 * k + i) = driven m₀ (16 * min (k + 1) 14 + i) ∨
    taken race S a (16 * k + i) = driven m₀ (16 * min (k + 2) 14 + i)
  /-- Beat 0 of the block is read twice. -/
  receives : Receives rest m₀ (delayed (blockBytes (taken race S a))) 15 (S (a + 31)).2

theorem drives_through (hS : ∀ t, S (t + 1) = cycle (race (t + 1)) (S t)) (hd : Drives rest m₀ 0 (S a).2) {k : ℕ}
    (hk : k ≤ 14) : Drives rest m₀ k (S (a + k)).2 := by
  refine stages (E := fun t => (S t).2) (Drives rest m₀) hd (fun j hj h => ?_) hk
  have hnext := TestRsEncoder.drives_edge (l := (S (a + j)).1.encoderOutputPort) h hj
  show Drives rest m₀ (j + 1) (S (a + j + 1)).2
  rw [bench_next hS, TestRsEncoder.change_drives hnext]
  exact hnext

theorem awaits_after (hS : ∀ t, S (t + 1) = cycle (race (t + 1)) (S t)) (hd : Drives rest m₀ 0 (S a).2)
    (hpacket : Packet (taken race S a) a fun t => (S t).1) : Awaits rest m₀ (S (a + 15)).2 := by
  have hnext := TestRsEncoder.awaits_edge (l := (S (a + 14)).1.encoderOutputPort) (drives_through hS hd le_rfl)
  have hbefore := (hpacket.reading 13 (by omega)).valid
  have hafter := (hpacket.reading 14 (by omega)).valid
  rw [show a + 15 = a + 14 + 1 from rfl, bench_next hS, TestRsEncoder.change_awaits hnext]
  · exact hnext
  · rw [show a + 14 = a + 1 + 13 by omega, hbefore, show a + 1 + 13 + 1 = a + 1 + 14 by omega, hafter]

/-- The bench reads the block one edge behind the encoder. -/
theorem receives_through (hS : ∀ t, S (t + 1) = cycle (race (t + 1)) (S t)) (hawaits : Awaits rest m₀ (S (a + 15)).2)
    (hpacket : Packet (taken race S a) a fun t => (S t).1) {k : ℕ} (hk : k ≤ 15) :
    Receives rest m₀ (delayed (blockBytes (taken race S a))) k (S (a + 16 + k)).2 := by
  refine stages (E := fun t => (S t).2) (Receives rest m₀ (delayed (blockBytes (taken race S a)))) ?_
    (fun j hj h => ?_) hk
  · have hw := hpacket.writing 0 (by omega)
    have hbefore := (hpacket.reading 14 (by omega)).valid
    show Receives rest m₀ _ 0 (S (a + 15 + 1)).2
    rw [bench_next hS, TestRsEncoder.edge_awaits hawaits]
    refine TestRsEncoder.receives_first hawaits ?_ (shows_delayed_first (shows_of_writing hw))
    rw [show a + 15 = a + 1 + 14 by omega, hbefore, show a + 1 + 14 + 1 = a + 16 + 0 by omega, hw.valid]
    decide
  · have hshows := shows_delayed_next (shows_of_writing (hpacket.writing j (by omega)))
    have hnext := TestRsEncoder.receives_edge h hj hshows
    show Receives rest m₀ _ (j + 1) (S (a + 16 + j + 1)).2
    rw [bench_next hS, TestRsEncoder.change_receives hnext]
    exact hnext

theorem ports_at (hS : ∀ t, S (t + 1) = cycle (race (t + 1)) (S t)) (hd : Drives rest m₀ 0 (S a).2)
    (hawaits : Awaits rest m₀ (S (a + 15)).2) {k : ℕ} (hk : k < 15) :
    OnPorts m₀ (min (k + 1) 14) (S (a + 1 + k)).2 ∧
      OnPorts m₀ (min (k + 2) 14) ((S (a + 1 + k)).2.edge (S (a + 1 + k)).1.encoderOutputPort) := by
  rw [show a + 1 + k = a + (k + 1) by omega]
  rcases lt_trichotomy k 13 with hlt | rfl | hgt
  · have h := drives_through hS hd (show k + 1 ≤ 14 by omega)
    rw [Nat.min_eq_left (by omega), Nat.min_eq_left (by omega)]
    exact ⟨h.output, (TestRsEncoder.drives_edge h (by omega)).output⟩
  · have h := drives_through hS hd (le_refl 14)
    exact ⟨h.output, (TestRsEncoder.awaits_edge h).output⟩
  · obtain rfl : k = 14 := by omega
    refine ⟨hawaits.output, ?_⟩
    have hstay := TestRsEncoder.edge_awaits (l := (S (a + 15)).1.encoderOutputPort) hawaits
    show OnPorts m₀ 14 ((S (a + 15)).2.edge (S (a + 15)).1.encoderOutputPort)
    rw [hstay]
    exact hawaits.output

theorem shifted (hS : ∀ t, S (t + 1) = cycle (race (t + 1)) (S t)) (ha : Waits .ready true false (S a).1)
    (hd : Drives rest m₀ 0 (S a).2) (hquiet : Quiet (S a).2) : Shifted race S rest m₀ a := by
  have hpacket : Packet (taken race S a) a fun t => (S t).1 := by
    refine packet (follows_encoder hS) ha (fun j _ => ?_) (symbols_sampled a 239) fun k _ => carries_sampled a k
    have hj := quiet_from hS hquiet j
    have hj' := TestRsEncoder.quiet_edge (l := (S (a + j)).1.encoderOutputPort) hj
    rw [sampledAt, show a + 1 + j - 1 = a + j by omega, Race.input, hj.reset, hj'.reset]
    exact ite_self _
  have hawaits := awaits_after hS hd hpacket
  refine ⟨hpacket, fun k hk i hi => ?_, receives_through hS hawaits hpacket le_rfl⟩
  have hports := ports_at hS hd hawaits hk
  exact sampled_of_ports hi hports.1 hports.2

end Composition

/-! ### When the arrays agree -/

theorem blockBytes_zero {f : ℕ → ℤ} (hf : ∀ k < 239, f k = 0) {k : ℕ} (hk : k < 255) : blockBytes f k = 0 := by
  have helements : ∀ j < rs255.kk, elements rs255 f j = 0 := fun j hj => by
    rw [← rs255.poly_eq_zero, elements, hf j hj, Int.toNat_zero, FieldParams.poly, rs255.bits_ofBits (Nat.two_pow_pos _)]
    rfl
  rw [blockBytes, block_congr helements, ← eq_block isCodeword_zero hk, rs255.poly_zero]

theorem eq_zero_of_delayed {f : ℕ → ℤ} (hf : Symbols rs255 239 f)
    (h : ∀ k < 255, delayed (blockBytes f) k = blockBytes f k) {k : ℕ} (hk : k < 239) : f k = 0 := by
  have hrepeats : ∀ j, j + 16 < 255 → block rs255 (elements rs255 f) (j + 16) = block rs255 (elements rs255 f) j := by
    intro j hj
    have := h (j + 16) hj
    rw [delayed, if_neg (by omega), Nat.add_sub_cancel] at this
    exact (rs255.poly_injective this).symm
  have hzero := eq_zero_of_repeats (isCodeword_block (elements rs255 f)) hrepeats (show k < 255 by omega)
  rw [← blockBytes_message hf hk, blockBytes, hzero, rs255.poly_zero]

/-- The arrays of encoder and bench agree. -/
def Agree (s : RsEncoder × TestRsEncoder) : Prop :=
  (∀ k < 239, word s.1.memory .data k = s.2.memory.val .data (line k)) ∧
    ∀ k < 255, s.2.memory.val .msg (line k) = word s.1.memory .recd k

section Packet

variable {race : ℕ → Race} {S : ℕ → RsEncoder × TestRsEncoder} {rest : List TestVector} {m₀ : Machine (dims rs255)}
  {a : ℕ} {unknown : ℤ} {v : TestVector}

theorem Shifted.block (h : Shifted race S rest m₀ a) : HasBlock (taken race S a) (S (a + 31)).1.memory :=
  (h.packet.writing 15 (by omega)).block

theorem Shifted.data_eq (h : Shifted race S rest m₀ a) (k : ℕ) :
    (S (a + 31)).2.memory.val .data (line k) = m₀.val .data (line k) := h.receives.memory.val_eq (by simp) _

theorem Shifted.recd_eq (h : Shifted race S rest m₀ a) {k : ℕ} (hk : k < 255) :
    (S (a + 31)).2.memory.val .msg (line k) = delayed (blockBytes (taken race S a)) k := h.receives.recd.val_eq hk

theorem Shifted.taken_eq_zero (h : Shifted race S rest m₀ a) (hd : Drawn unknown v m₀)
    (hbytes : ∀ k < 239, v.bytes k = 0) (hunknown : unknown % 256 = 0) {k : ℕ} (hk : k < 239) :
    taken race S a k = 0 := by
  have hdriven : ∀ j < 240, driven m₀ j = 0 := fun j hj => by
    rcases Nat.lt_succ_iff_lt_or_eq.mp hj with hlt | rfl
    · rw [hd.driven_eq hlt, hbytes j hlt]
      rfl
    · rw [hd.driven_last, hunknown]
  have hbeat := h.message (k / 16) (by omega) (k % 16) (by omega)
  rw [Nat.div_add_mod] at hbeat
  rcases hbeat with heq | heq
  · rw [heq, hdriven _ (by omega)]
  · rw [heq, hdriven _ (by omega)]

theorem Shifted.agree_iff (h : Shifted race S rest m₀ a) (hd : Drawn unknown v m₀) :
    Agree (S (a + 31)) ↔ (∀ k < 239, v.bytes k = 0) ∧ unknown % 256 = 0 := by
  have hsymbols : Symbols rs255 239 (taken race S a) := symbols_sampled a 239
  constructor
  · intro ⟨hdata, hrecd⟩
    have htaken : ∀ k < 239, taken race S a k = 0 := fun k hk => by
      refine eq_zero_of_delayed hsymbols (fun j hj => ?_) hk
      rw [← h.recd_eq hj, hrecd j hj]
      exact h.block.recd.val_eq hj
    refine ⟨fun k hk => ?_, ?_⟩
    · have hbyte := hdata k hk
      rw [h.data_eq, hd.val_eq hk] at hbyte
      have hzero : word (S (a + 31)).1.memory .data k = 0 := (h.block.data.val_eq hk).trans (htaken k hk)
      exact BitVec.eq_of_toNat_eq (Int.natCast_eq_zero.mp (hbyte.symm.trans hzero))
    · -- lane 15 of beat 14 goes to `data[223]`
      rw [← hd.driven_last, ← htaken 223 (by omega)]
      rcases h.message 13 (by omega) 15 (by omega) with heq | heq
      · exact heq.symm
      · exact heq.symm
  · intro ⟨hbytes, hunknown⟩
    have htaken : ∀ k < 239, taken race S a k = 0 := fun k => h.taken_eq_zero hd hbytes hunknown
    refine ⟨fun k hk => ?_, fun k hk => ?_⟩
    · rw [h.data_eq, hd.val_eq hk, hbytes k hk]
      exact (h.block.data.val_eq hk).trans (htaken k hk)
    · have hblock : word (S (a + 31)).1.memory .recd k = 0 := (h.block.recd.val_eq hk).trans (blockBytes_zero htaken hk)
      rw [h.recd_eq hk, hblock, delayed]
      split_ifs
      · exact blockBytes_zero htaken hk
      · exact blockBytes_zero htaken (by omega)

end Packet

/-! ### Runs from the start -/

section Run

variable (m : Machine rs255.dims) (unknown : ℤ) (race : ℕ → Race) (vectors : List TestVector)

theorem simulate_succ (t : ℕ) : simulate m unknown race vectors (t + 1) =
    cycle (race (t + 1)) (simulate m unknown race vectors t) := rfl

theorem simulate_one : (simulate m unknown race vectors 1).1 = (RsEncoder.construct m).start ∧
    (simulate m unknown race vectors 1).2 = { TestRsEncoder.initial unknown vectors with reset := false, wait := .resetLow } :=
  ⟨RsEncoder.edge_construct m _, rfl⟩

theorem elaborated_spec : Elaborated unknown (elaborated rs255 unknown) :=
  ⟨blank_elaborated unknown, fun _ => by simp [elaborated]⟩

theorem simulate_two : Waits .ready true false (simulate m unknown race vectors 2).1 ∧
    Quiet (simulate m unknown race vectors 2).2 ∧
    ∀ v rest, vectors = v :: rest →
      ∃ m₀, Drawn unknown v m₀ ∧ Drives rest m₀ 0 (simulate m unknown race vectors 2).2 := by
  obtain ⟨he, hb⟩ := simulate_one m unknown race vectors
  have hquiet : Quiet (simulate m unknown race vectors 1).2 := by
    rw [hb]
    exact ⟨rfl, nofun⟩
  have hquiet' := TestRsEncoder.quiet_edge (l := (simulate m unknown race vectors 1).1.encoderOutputPort) hquiet
  have hready : Waits .ready true false (simulate m unknown race vectors 2).1 := by
    have hreset : ((race 2).input (simulate m unknown race vectors 1).2
        ((simulate m unknown race vectors 1).2.edge (simulate m unknown race vectors 1).1.encoderOutputPort)).resetPort =
          false := by
      rw [Race.input, hquiet.reset, hquiet'.reset]
      exact ite_self _
    show Waits .ready true false ((simulate m unknown race vectors 1).1.edge _)
    rw [RsEncoder.edge_of_not_reset hreset, he]
    exact RsEncoder.waits_begin (booted_spec m).1 rfl
  have hnext := bench_next (simulate_succ m unknown race vectors) 1
  refine ⟨hready, ?_, fun v rest hv => ⟨_, drawn_drawData (elaborated_spec unknown) v, ?_⟩⟩
  · rw [hnext]
    exact TestRsEncoder.quiet_change hquiet'
  · rw [hnext, he, hb]
    refine TestRsEncoder.drives_first (b := { TestRsEncoder.initial unknown vectors with reset := false, wait := .resetLow })
      hv ?_
    rw [hready.ready]
    exact Bool.false_ne_true

theorem packet_begins {n : ℕ} {v : TestVector} {rest : List TestVector} (hn : vectors.drop n = v :: rest) :
    ∃ m₀, Drawn unknown v m₀ ∧ Shifted race (simulate m unknown race vectors) rest m₀ (2 + 32 * n) := by
  have hS := simulate_succ m unknown race vectors
  have hquiet : Quiet (simulate m unknown race vectors (2 + 32 * n)).2 :=
    quiet_from hS (simulate_two m unknown race vectors).2.1 (32 * n)
  induction n generalizing v rest with
  | zero =>
    obtain ⟨hready, -, hfirst⟩ := simulate_two m unknown race vectors
    obtain ⟨m₀, hd, hdrives⟩ := hfirst v rest hn
    exact ⟨m₀, hd, shifted hS hready hdrives hquiet⟩
  | succ n ih =>
    obtain ⟨u, hu⟩ : ∃ u, vectors.drop n = u :: v :: rest := by
      have hlt : n < vectors.length := by
        by_contra hge
        rw [List.drop_eq_nil_of_le (by omega)] at hn
        exact absurd hn (List.cons_ne_nil _ _).symm
      exact ⟨vectors[n], by rw [List.drop_eq_getElem_cons hlt, hn]⟩
    obtain ⟨m₀, hd, h⟩ := ih hu (quiet_from hS (simulate_two m unknown race vectors).2.1 (32 * n))
    have hrise : (simulate m unknown race vectors (2 + 32 * n + 31)).1.encoderReadyPort ≠
        (simulate m unknown race vectors (2 + 32 * n + 31 + 1)).1.encoderReadyPort := by
      have hlow : (simulate m unknown race vectors (2 + 32 * n + 31)).1.encoderReadyPort = false :=
        (h.packet.writing 15 (by omega)).ready
      have hhigh : (simulate m unknown race vectors (2 + 32 * n + 31 + 1)).1.encoderReadyPort = true :=
        h.packet.sent.ready
      rw [hlow, hhigh]
      exact Bool.false_ne_true
    have hbytes : ∀ k < 255, 0 ≤ delayed (blockBytes (taken race (simulate m unknown race vectors) (2 + 32 * n))) k ∧
        delayed (blockBytes (taken race (simulate m unknown race vectors) (2 + 32 * n))) k ≤ 255 := fun k _ => by
      rw [delayed]
      split_ifs <;> exact ⟨rs255.poly_nonneg _, rs255.poly_le _⟩
    obtain ⟨m₁, hd₁, hdrives⟩ := TestRsEncoder.drives_next
      (l := (simulate m unknown race vectors (2 + 32 * n + 31)).1.encoderOutputPort) h.receives hd hbytes hrise
    rw [← bench_next hS] at hdrives
    exact ⟨m₁, hd₁, shifted hS h.packet.sent.toWaits hdrives hquiet⟩

/-- **When a run exchanges its packets.** After edge `33 + 32 * n` the bench stands before the injection of errors
into packet `n`. -/
theorem exchange_iff (m : Machine rs255.dims) (unknown : ℤ) (race : ℕ → Race) (vectors : List TestVector) :
    ((∀ n v rest, vectors.drop n = v :: rest → Agree (simulate m unknown race vectors (33 + 32 * n))) ↔
      ∀ v ∈ vectors, (∀ k < 239, v.bytes k = 0) ∧ unknown % 256 = 0) ∧
    ∀ n v rest, vectors.drop n = v :: rest →
      let encoder := (simulate m unknown race vectors (33 + 32 * n)).1
      let bench := (simulate m unknown race vectors (33 + 32 * n)).2
      bench.wait = .reading 256 ∧ bench.todo = rest ∧
        (∀ k < 239, bench.memory.val .data (line k) = (v.bytes k).toNat) ∧
        (∀ k < 15, ∀ i < 16, 16 * k + i < 239 →
          word encoder.memory .data (16 * k + i) = bench.memory.val .data (line (16 * min (k + 1) 14 + i)) % 256 ∨
          word encoder.memory .data (16 * k + i) = bench.memory.val .data (line (16 * min (k + 2) 14 + i)) % 256) ∧
        ∀ k < 255, bench.memory.val .msg (line k) = word encoder.memory .recd (if k < 16 then k else k - 16) := by
  have hbegins : ∀ n v rest, vectors.drop n = v :: rest → ∃ m₀, Drawn unknown v m₀ ∧
      Shifted race (simulate m unknown race vectors) rest m₀ (2 + 32 * n) :=
    fun n v rest hn => packet_begins m unknown race vectors hn
  refine ⟨⟨fun h v hv => ?_, fun h n v rest hn => ?_⟩, fun n v rest hn => ?_⟩
  · obtain ⟨before, rest, hsplit⟩ := List.append_of_mem hv
    have hn : vectors.drop before.length = v :: rest := by rw [hsplit, List.drop_left]
    obtain ⟨m₀, hd, hshifted⟩ := hbegins before.length v rest hn
    have hagree := h before.length v rest hn
    rw [show 33 + 32 * before.length = 2 + 32 * before.length + 31 by omega] at hagree
    exact (hshifted.agree_iff hd).mp hagree
  · obtain ⟨m₀, hd, hshifted⟩ := hbegins n v rest hn
    have hv : v ∈ vectors := List.mem_of_mem_drop (hn ▸ List.mem_cons_self : v ∈ vectors.drop n)
    rw [show 33 + 32 * n = 2 + 32 * n + 31 by omega]
    exact (hshifted.agree_iff hd).mpr (h v hv)
  · obtain ⟨m₀, hd, hshifted⟩ := hbegins n v rest hn
    rw [show 33 + 32 * n = 2 + 32 * n + 31 by omega]
    intro encoder bench
    refine ⟨hshifted.receives.wait, hshifted.receives.todo, fun k hk => ?_, fun k hk i hi hlt => ?_, fun k hk => ?_⟩
    · exact (hshifted.data_eq k).trans (hd.val_eq hk)
    · have htaken : word encoder.memory .data (16 * k + i) = _ := hshifted.block.data.val_eq hlt
      rw [htaken, hshifted.data_eq, hshifted.data_eq]
      exact hshifted.message k hk i hi
    · have hrecd : bench.memory.val .msg (line k) = _ := hshifted.recd_eq hk
      rw [hrecd, delayed]
      split_ifs with hfirst
      · exact (hshifted.block.recd.val_eq hk).symm
      · exact (hshifted.block.recd.val_eq (show k - 16 < 255 by omega)).symm

theorem oneVector_not_exchanged : ¬ Agree (simulate (Machine.fresh _) 0 (fun _ => ⟨false, fun _ => false⟩) [oneVector] 33) := by
  obtain ⟨m₀, hd, hshifted⟩ := packet_begins (Machine.fresh _) 0 (fun _ => ⟨false, fun _ => false⟩) [oneVector]
    (n := 0) rfl
  intro hagree
  have hone := ((hshifted.agree_iff hd).mp hagree).1 0 (by decide)
  exact absurd hone (by decide)

end Run

end Sv

end ReedSolomon
