import ReedSolomon.Imp.Clocked
import ReedSolomon.Spec.Main

/-!
# `RSEncoder::thread`

The thread of `RSEncoder.cpp` as a clocked process: `RsEncoder.resume` runs it from the `wait()` it stands at
to the next one, and at an edge where the reset is sampled true it starts again from its top. A port of
type `sc_uint<8>` holds a byte; what is written to one is seen by the other side from the next edge on.
-/

open Imp

namespace ReedSolomon

/-- The sixteen byte ports of a direction, lane by lane. -/
abbrev Lanes : Type := ℕ → BitVec 8

/-- `NB_BYTE_INPUT`. -/
def nbByteInput : ℕ := 16

/-- `MESSAGE_LENGTH`. -/
def messageLength : ℕ := rs255.kk

/-- `BLOCK_LENGTH`. -/
def blockLength : ℕ := rs255.nn

/-- The `wait()` calls of `RSEncoder::thread`, with the local `counterIndex` where it is alive. -/
inductive EncoderWait
  /-- not yet started -/
  | top
  /-- behind the initialisation -/
  | initialised
  /-- behind `encoderReadyPort.write(true)` -/
  | ready
  /-- in the loop that reads the message -/
  | reading (counterIndex : ℕ)
  /-- in the loop that writes the block -/
  | writing (counterIndex : ℕ)
  deriving DecidableEq, Repr

/-- The encoder between two edges: its members, its output ports and where its thread waits. -/
structure RsEncoder where
  memory : Machine rs255.dims
  encoderReadyPort : Bool
  encoderValidPort : Bool
  encoderOutputPort : Lanes
  wait : EncoderWait

/-- What the encoder samples at an edge. -/
structure EncoderInput where
  resetPort : Bool
  encoderInputPort : Lanes

section Lanes

variable {ν : Type} [DecidableEq ν] {dims : ν → List ℕ}

/-- Sixteen bytes are read from the input ports into `a`, from `counterIndex` on. -/
def readLanes (a : ν) (counterIndex : ℕ) (input : Lanes) : Prog (Machine dims) Unit :=
  forEach 0 nbByteInput fun i => store a [((counterIndex + i : ℕ) : ℤ)] (input i).toNat

/-- Sixteen elements of `a`, from `counterIndex` on, are written to the output ports. -/
def writeLanes (a : ν) (counterIndex : ℕ) (output : Lanes) : Prog (Machine dims) Lanes :=
  forUp 0 nbByteInput output fun i output => do
    let v ← load a [((counterIndex + i : ℕ) : ℤ)]
    pure (Function.update output i (BitVec.ofInt 8 v))

end Lanes

/-- The message in `data` is encoded and the block laid out. -/
def encodeData : Code rs255 Unit := do
  encodeRs rs255
  assemble rs255

namespace RsEncoder

/-- `RSEncoder::RSEncoder`, the members holding what `m` does beforehand. -/
def construct (m : Machine rs255.dims) : RsEncoder where
  memory := booted m
  encoderReadyPort := false
  encoderValidPort := false
  encoderOutputPort _ := 0
  wait := .top

/-- The initialisation. -/
def start (e : RsEncoder) : RsEncoder :=
  { e with encoderReadyPort := false, encoderValidPort := false, encoderOutputPort := fun _ => 0, wait := .initialised }

/-- The top of the endless loop. -/
def begin (e : RsEncoder) : RsEncoder := { e with encoderReadyPort := true, wait := .ready }

/-- The loop that writes the block, from its condition on. -/
def send (counterIndex : ℕ) (e : RsEncoder) : RsEncoder :=
  if counterIndex < blockLength then
    { e with
      memory := (writeLanes .recd counterIndex e.encoderOutputPort).exec e.memory
      encoderOutputPort := (writeLanes .recd counterIndex e.encoderOutputPort).eval e.memory
      wait := .writing (counterIndex + nbByteInput) }
  else begin { e with encoderValidPort := false }

/-- The message is complete: it is encoded and the block laid out. -/
def encodeBlock (e : RsEncoder) : RsEncoder :=
  { e with
    encoderReadyPort := false
    memory := encodeData.exec e.memory
    encoderValidPort := true }

/-- The loop that reads the message, from its condition on. -/
def receive (counterIndex : ℕ) (e : RsEncoder) : RsEncoder :=
  if counterIndex < messageLength then { e with wait := .reading counterIndex } else send 0 e.encodeBlock

/-- The thread from the `wait()` it stands at to the next one. -/
def resume (input : Lanes) (e : RsEncoder) : RsEncoder :=
  match e.wait with
  | .top => e.start
  | .initialised => e.begin
  | .ready => e.receive 0
  | .reading counterIndex =>
    receive (counterIndex + nbByteInput) { e with memory := (readLanes .data counterIndex input).exec e.memory }
  | .writing counterIndex => e.send counterIndex

/-- A rising edge. -/
def edge (i : EncoderInput) (e : RsEncoder) : RsEncoder :=
  if i.resetPort then e.start else e.resume i.encoderInputPort

end RsEncoder

end ReedSolomon
