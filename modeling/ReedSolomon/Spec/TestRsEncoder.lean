import ReedSolomon.Spec.Package
import ReedSolomon.Spec.RsEncoderTb

/-!
# `test_RSEncoder.sv`

First the steps of `test_bench` that concern the package, for a block that arrives in `recd` as the encoder should have
sent it. The array `recd` of the task is the caller's array `msg` of `decode`. The initial block and the steps before
the injection of errors call nothing of the package.

Then the bench as a process, which waits at clock edges and for the changes of ready and valid, and its composition
with the encoder. An `@` of a port of the encoder goes on when what was written there takes effect, between two
edges. What the bench assigns at an edge may reach the encoder at the same edge, lane by lane (`Race`).
-/

open Imp

namespace ReedSolomon

namespace Sv

/-- The loop that draws a packet. -/
def drawData (bytes : ℕ → BitVec 8) : Code rs255 Unit :=
  forEach 0 messageLength fun i => store .data [i] (bytes i).toNat

/-- One hit of the injection loop. -/
def injectError (hit : ℤ × ℤ) : Code rs255 Unit := do
  store .msg [hit.1] (byteOf (Int.xor (← load .msg [hit.1]) hit.2))

/-- The injection loop. -/
def injectErrors : List (ℤ × ℤ) → Code rs255 Unit
  | [] => pure ()
  | hit :: errors => do
    injectError hit
    injectErrors errors

/-- The comparison loop: whether a byte of `data` was not recovered. -/
def misdecoded : Code rs255 Bool := forUp 0 messageLength false fun k found =>
  if found then pure true else do
    pure (decide ((← load .data [(k : ℤ)]) ≠ (← load .msg [(k : ℤ)])))

/-- From the injection of the errors to the comparison. -/
def checkPacket (errors : List (ℤ × ℤ)) : Code rs255 Bool := do
  injectErrors errors
  let _ ← decode rs255
  misdecoded

/-- The block of the message `bytes`: what a correct encoder sends. -/
def correctBlock (bytes : ℕ → BitVec 8) (k : ℕ) : ℤ :=
  (sent (Machine.fresh _) fun j => (bytes j).toNat).val .recd [(k : ℤ)]

/-- A packet, the block of which arrives intact. -/
def testPacket (v : TestVector) : Code rs255 Bool := do
  drawData v.bytes
  receive rs255 (correctBlock v.bytes)
  checkPacket v.errors

/-- `test_bench` with the packets `vectors`, `no_encoder_errors` being `noEncoderErrors` before it. -/
def testBench : List TestVector → ℕ → Code rs255 ℕ
  | [], noEncoderErrors => pure noEncoderErrors
  | v :: vectors, noEncoderErrors => do
    let noEncoderErrors := if v.first then 0 else noEncoderErrors
    if (← testPacket v) then testBench vectors (noEncoderErrors + 1) else testBench vectors noEncoderErrors

/-! ### The bench as a process -/

/-- Where the bench waits, with the local `counterIndex` where it is alive. -/
inductive BenchWait
  /-- for the first edge -/
  | resetHigh
  /-- for the second edge -/
  | resetLow
  /-- `@(encoderReadyPort)` -/
  | ready
  /-- for an edge, in the loop that writes the message -/
  | writing (counterIndex : ℕ)
  /-- `@(encoderValidPort)` -/
  | valid
  /-- for an edge, in the loop that reads the block -/
  | reading (counterIndex : ℕ)
  /-- behind the last packet -/
  | done
  deriving DecidableEq, Repr

/-- The bench between two edges. -/
structure TestRsEncoder where
  memory : Machine (dims rs255)
  reset : Bool
  dataOutputPort : Lanes
  wait : BenchWait
  /-- the errors of the packet under way -/
  errors : List (ℤ × ℤ)
  /-- the packets still to be sent -/
  todo : List TestVector
  noEncoderErrors : ℕ

namespace TestRsEncoder

/-- The initial block up to its first wait. -/
def initial (unknown : ℤ) (vectors : List TestVector) : TestRsEncoder where
  memory := elaborated rs255 unknown
  reset := true
  dataOutputPort _ := 0
  wait := .resetHigh
  errors := []
  todo := vectors
  noEncoderErrors := 0

/-- Behind the last beat of the block: the check, and `no_encoder_errors++` if it fails. -/
def check (b : TestRsEncoder) : TestRsEncoder :=
  { b with
    memory := (checkPacket b.errors).exec b.memory
    noEncoderErrors := b.noEncoderErrors + (if (checkPacket b.errors).eval b.memory then 1 else 0) }

/-- The next packet is drawn, and the bench waits for ready. -/
def nextPacket (b : TestRsEncoder) : TestRsEncoder :=
  match b.todo with
  | [] => { b with wait := .done }
  | v :: rest =>
    { b with
      memory := (drawData v.bytes).exec b.memory
      errors := v.errors
      todo := rest
      noEncoderErrors := if v.first then 0 else b.noEncoderErrors
      wait := .ready }

/-- The loop that writes the message, from its condition on. -/
def send (counterIndex : ℕ) (b : TestRsEncoder) : TestRsEncoder :=
  if counterIndex < messageLength then
    { b with
      memory := (writeLanes .data counterIndex b.dataOutputPort).exec b.memory
      dataOutputPort := (writeLanes .data counterIndex b.dataOutputPort).eval b.memory
      wait := .writing (counterIndex + nbByteInput) }
  else { b with wait := .valid }

/-- The loop that reads the block, from its condition on. -/
def receive (counterIndex : ℕ) (encoderInputPort : Lanes) (b : TestRsEncoder) : TestRsEncoder :=
  if counterIndex < blockLength then
    { b with
      memory := (readLanes .msg counterIndex encoderInputPort).exec b.memory
      wait := .reading (counterIndex + nbByteInput) }
  else b.check.nextPacket

/-- A rising edge. -/
def edge (encoderInputPort : Lanes) (b : TestRsEncoder) : TestRsEncoder :=
  match b.wait with
  | .resetHigh => { b with reset := false, wait := .resetLow }
  | .resetLow => b.nextPacket
  | .writing counterIndex => b.send counterIndex
  | .reading counterIndex => b.receive counterIndex encoderInputPort
  | .ready => b
  | .valid => b
  | .done => b

/-- The ports of the encoder change from those of `e` to those of `e'`. -/
def change (e e' : RsEncoder) (b : TestRsEncoder) : TestRsEncoder :=
  match b.wait with
  | .ready => if e.encoderReadyPort ≠ e'.encoderReadyPort then b.send 0 else b
  | .valid => if e.encoderValidPort ≠ e'.encoderValidPort then b.receive 0 e'.encoderOutputPort else b
  | _ => b

end TestRsEncoder

/-- Which of the assignments made at an edge the encoder sees at that edge. -/
structure Race where
  reset : Bool
  lane : ℕ → Bool

/-- What the encoder samples at an edge at which the bench goes from `b` to `b'`. -/
def Race.input (race : Race) (b b' : TestRsEncoder) : EncoderInput where
  resetPort := if race.reset then b'.reset else b.reset
  encoderInputPort i := if race.lane i then b'.dataOutputPort i else b.dataOutputPort i

/-- From one edge to the next, of encoder and bench. -/
def cycle (race : Race) (s : RsEncoder × TestRsEncoder) : RsEncoder × TestRsEncoder :=
  let b := s.2.edge s.1.encoderOutputPort
  let e := s.1.edge (race.input s.2 b)
  (e, b.change s.1 e)

/-- The module `test_RSEncoder` after `t` edges. -/
def simulate (m : Machine rs255.dims) (unknown : ℤ) (race : ℕ → Race) (vectors : List TestVector) :
    ℕ → RsEncoder × TestRsEncoder
  | 0 => (RsEncoder.construct m, TestRsEncoder.initial unknown vectors)
  | t + 1 => cycle (race (t + 1)) (simulate m unknown race vectors t)

end Sv

end ReedSolomon
