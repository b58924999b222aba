import ReedSolomon.Spec.Injection
import ReedSolomon.Spec.TestRsEncoder

/-!
# The injection of errors in `test_RSEncoder.sv`

The loop of `test_bench` that hits `errorNumberIT` places of the received block. `error_status` is declared with
`NB_BYTE_INPUT` elements there, not with `BLOCK_LENGTH`, and `$random` is signed, so both arrays are accessed outside
their bounds: a store there has no effect, and a load from the ints of `error_status` gives 0, which the machine has as
`junk`. What `$random` returns is a parameter, and so is the number of passes after which the loop is left.
-/

open Imp

namespace ReedSolomon

namespace Sv

/-- `logic[7:0] recd[BLOCK_LENGTH]` and `int error_status[NB_BYTE_INPUT]`. -/
def channelDims : ChannelArr → List ℕ
  | .recd => [rs255.nn]
  | .errorStatus => [nbByteInput]

abbrev Channel (α : Type) : Type := Prog (Machine channelDims) α

/-- The loop that clears `error_status`, up to `BLOCK_LENGTH`. -/
def clearStatus : Channel Unit := forEach 0 blockLength fun i => store .errorStatus [(i : ℤ)] 0

/-- The body of the loop. The exclusive or is taken with the unsigned value of `$random`. -/
def injectPass (random : ℕ → BitVec 32) (x : Counters) : Channel Counters := do
  let errorIndex := (random x.drawn).toInt.tmod 256
  let status ← load .errorStatus [errorIndex]
  ifThenElse (status = 0)
    (do
      store .recd [errorIndex] (byteOf (Int.xor (← load .recd [errorIndex]) (random (x.drawn + 1)).toNat))
      store .errorStatus [errorIndex] 1
      pure ⟨x.k, x.drawn + 2⟩)
    (pure ⟨x.k - 1, x.drawn + 1⟩)

/-- The loop, from its condition on. -/
def injectLoop (random : ℕ → BitVec 32) (errorNumberIT : ℕ) : ℕ → Counters → Channel Counters
  | 0, x => pure x
  | passes + 1, x =>
    if x.k < errorNumberIT then do
      let x ← injectPass random x
      injectLoop random errorNumberIT passes { x with k := x.k + 1 }
    else pure x

/-- `errorNumberIT` errors are injected. -/
def inject (random : ℕ → BitVec 32) (errorNumberIT passes : ℕ) : Channel Counters := do
  clearStatus
  injectLoop random errorNumberIT passes ⟨0, 0⟩

/-- The block `c` arrives in `recd`. -/
def receiveBlock (c : ℕ → ℤ) : Channel Unit := forEach 0 blockLength fun k => store .recd [(k : ℤ)] (byteOf (c k))

end Sv

end ReedSolomon
