import ReedSolomon.Imp.Machine
import ReedSolomon.Spec.Settings

/-!
# The injection of errors

The loop of `main` in `general_RS.c` that hits `i` places of the received word with random values, and the
same loop of `RSEncoderTB::thread`. What `rand()` returns is a parameter: `rand n` is its `n`-th value. The
loop need not end, so it comes with a number of passes after which it is left, and `x.k < i` still holds if it was
left too early.
-/

open Imp

namespace ReedSolomon

/-- The arrays of the loop. -/
inductive ChannelArr
  | recd
  | errorStatus
  deriving DecidableEq, Repr

/-- `int recd[nn]` and `int error_status[nn]`. -/
def channelDims : ChannelArr → List ℕ
  | .recd => [rs255.nn]
  | .errorStatus => [rs255.nn]

abbrev Channel (α : Type) : Type := Prog (Machine channelDims) α

/-- The loop variable, and how many values were drawn. -/
structure Counters where
  k : ℤ
  drawn : ℕ
  deriving DecidableEq, Repr

/-- `for (k=0;k < nn;k++) error_status[k] = 0;` -/
def clearStatus : Channel Unit := forEach 0 rs255.nn fun k => store .errorStatus [(k : ℤ)] 0

/-- The body of the loop. -/
def injectPass (rand : ℕ → ℤ) (x : Counters) : Channel Counters := do
  let errorIndex ← rem (rand x.drawn) 256
  let status ← load .errorStatus [errorIndex]
  ifThenElse (status = 0)
    (do
      store .recd [errorIndex] (← rem (Int.xor (← load .recd [errorIndex]) (rand (x.drawn + 1))) 256)
      store .errorStatus [errorIndex] 1
      pure ⟨x.k, x.drawn + 2⟩)
    (pure ⟨x.k - 1, x.drawn + 1⟩)

/-- The loop, from its condition on. -/
def injectLoop (rand : ℕ → ℤ) (i : ℕ) : ℕ → Counters → Channel Counters
  | 0, x => pure x
  | passes + 1, x =>
    if x.k < i then do
      let x ← injectPass rand x
      injectLoop rand i passes { x with k := x.k + 1 }
    else pure x

/-- `i` errors are injected. -/
def inject (rand : ℕ → ℤ) (i passes : ℕ) : Channel Counters := do
  clearStatus
  injectLoop rand i passes ⟨0, 0⟩

end ReedSolomon
