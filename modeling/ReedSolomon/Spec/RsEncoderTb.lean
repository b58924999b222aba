import ReedSolomon.Spec.RsEncoder

/-!
# `RSEncoderTB::thread`

The test bench of `RSEncoderTB.cpp` as a clocked process, and its composition with the encoder in `sc_main`.
What the bench draws with `rand()` is a parameter: a `TestVector` holds the bytes of a packet and the draws
with which the injection loop hits a place that was not hit before. The console output is left out.
-/

open Imp

namespace ReedSolomon

/-- What is drawn for one packet. -/
structure TestVector where
  /-- the bytes `rand() % 256` -/
  bytes : ℕ → BitVec 8
  /-- `error_index` and the `rand()` added there, in the order of injection -/
  errors : List (ℤ × ℤ)
  /-- the first packet with its number of errors: `no_encoder_errors` is counted from 0 again -/
  first : Bool

/-- The `wait()` calls of `RSEncoderTB::thread`, with the local `counterIndex` where it is alive. -/
inductive BenchWait
  /-- not yet started -/
  | top
  /-- behind `resetPort.write(true)` -/
  | resetHigh
  /-- behind `resetPort.write(false)` -/
  | resetLow
  /-- while `encoderReadyPort` is low -/
  | pollReady
  /-- in the loop that writes the message -/
  | writing (counterIndex : ℕ)
  /-- while `encoderValidPort` is low -/
  | pollValid
  /-- in the loop that reads the block -/
  | reading (counterIndex : ℕ)
  /-- behind the last packet -/
  | done
  deriving DecidableEq, Repr

/-- The bench between two edges. -/
structure RsEncoderTb where
  memory : Machine rs255.dims
  resetPort : Bool
  dataOutputPort : Lanes
  wait : BenchWait
  /-- the errors of the packet under way -/
  errors : List (ℤ × ℤ)
  /-- the packets still to be sent -/
  todo : List TestVector
  noEncoderErrors : ℕ

/-- What the bench samples at an edge. -/
structure BenchInput where
  encoderReadyPort : Bool
  encoderValidPort : Bool
  encoderInputPort : Lanes

/-- The loop that draws a packet; it leaves the last two bytes of `data` as they are. -/
def drawData (bytes : ℕ → BitVec 8) : Code rs255 Unit := receive rs255 .data (messageLength - 2) fun i => (bytes i).toNat

/-- One hit of the injection loop. -/
def injectError (hit : ℤ × ℤ) : Code rs255 Unit := do
  store .recd [hit.1] (← rem (Int.xor (← load .recd [hit.1]) hit.2) 256)

/-- The injection loop. -/
def injectErrors : List (ℤ × ℤ) → Code rs255 Unit
  | [] => pure ()
  | hit :: errors => do
    injectError hit
    injectErrors errors

/-- The comparison loop: whether a byte of `data` was not recovered. -/
def misdecoded : Code rs255 Bool := forUp 0 messageLength false fun k found =>
  if found then pure true else do
    pure (decide ((← load .data [(k : ℤ)]) ≠ (← load .recd [(k : ℤ)])))

/-- From the injection of the errors to the comparison. -/
def checkPacket (errors : List (ℤ × ℤ)) : Code rs255 Bool := do
  injectErrors errors
  let _ ← decodeRs rs255
  misdecoded

namespace RsEncoderTb

/-- `RSEncoderTB::RSEncoderTB`, the members holding what `m` does beforehand. -/
def construct (m : Machine rs255.dims) (vectors : List TestVector) : RsEncoderTb where
  memory := booted m
  resetPort := false
  dataOutputPort _ := 0
  wait := .top
  errors := []
  todo := vectors
  noEncoderErrors := 0

/-- Behind the last beat of the block: the check, and `no_encoder_errors++` if it fails. -/
def check (b : RsEncoderTb) : RsEncoderTb :=
  { b with
    memory := (checkPacket b.errors).exec b.memory
    noEncoderErrors := b.noEncoderErrors + (if (checkPacket b.errors).eval b.memory then 1 else 0) }

/-- The next packet is drawn. -/
def draw (v : TestVector) (rest : List TestVector) (b : RsEncoderTb) : RsEncoderTb :=
  { b with
    memory := (drawData v.bytes).exec b.memory
    errors := v.errors
    todo := rest
    noEncoderErrors := if v.first then 0 else b.noEncoderErrors }

section Segments

variable (i : BenchInput)

/-- Sixteen bytes of the block are read. -/
def take (counterIndex : ℕ) (b : RsEncoderTb) : RsEncoderTb :=
  { b with
    memory := (readLanes .recd counterIndex i.encoderInputPort).exec b.memory
    wait := .reading (counterIndex + nbByteInput) }

/-- Poll for valid; then the first beat of the block is read. -/
def pollValid (b : RsEncoderTb) : RsEncoderTb :=
  if i.encoderValidPort then b.take i 0 else { b with wait := .pollValid }

/-- The loop that writes the message, from its condition on. -/
def send (counterIndex : ℕ) (b : RsEncoderTb) : RsEncoderTb :=
  if counterIndex < messageLength then
    { b with
      memory := (writeLanes .data counterIndex b.dataOutputPort).exec b.memory
      dataOutputPort := (writeLanes .data counterIndex b.dataOutputPort).eval b.memory
      wait := .writing (counterIndex + nbByteInput) }
  else b.pollValid i

/-- Poll for ready. -/
def pollReady (b : RsEncoderTb) : RsEncoderTb :=
  if i.encoderReadyPort then b.send i 0 else { b with wait := .pollReady }

/-- The beginning of the loop for a packet. -/
def nextPacket (b : RsEncoderTb) : RsEncoderTb :=
  match b.todo with
  | [] => { b with wait := .done }
  | v :: rest => pollReady i (b.draw v rest)

/-- The loop that reads the block, from its condition on. -/
def receive (counterIndex : ℕ) (b : RsEncoderTb) : RsEncoderTb :=
  if counterIndex < blockLength then b.take i counterIndex else b.check.nextPacket i

/-- The thread from the `wait()` it stands at to the next one. -/
def resume (b : RsEncoderTb) : RsEncoderTb :=
  match b.wait with
  | .top => { b with dataOutputPort := fun _ => 0, resetPort := true, wait := .resetHigh }
  | .resetHigh => { b with resetPort := false, wait := .resetLow }
  | .resetLow => b.nextPacket i
  | .pollReady => b.pollReady i
  | .writing counterIndex => b.send i counterIndex
  | .pollValid => b.pollValid i
  | .reading counterIndex => b.receive i counterIndex
  | .done => b

/-- The ports of the encoder that the bench reads. -/
def inputOf (e : RsEncoder) : BenchInput := ⟨e.encoderReadyPort, e.encoderValidPort, e.encoderOutputPort⟩

/-- The ports of the bench that the encoder reads. -/
def outputOf (b : RsEncoderTb) : EncoderInput := ⟨b.resetPort, b.dataOutputPort⟩

end Segments

end RsEncoderTb

/-- `sc_main`: encoder and bench on one clock, after `t` edges. -/
def scMain (m m' : Machine rs255.dims) (vectors : List TestVector) (t : ℕ) : RsEncoder × RsEncoderTb :=
  Clocked.together RsEncoder.edge RsEncoderTb.resume RsEncoderTb.inputOf RsEncoderTb.outputOf
    (RsEncoder.construct m, RsEncoderTb.construct m' vectors) t

end ReedSolomon
