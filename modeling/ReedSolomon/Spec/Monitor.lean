import ReedSolomon.Imp.Assertion
import ReedSolomon.Spec.RsEncoder

/-!
# `Monitor.sv`

The assertions of the module `Monitor`, on the values sampled at the rising edges of the clock.
`p_mutex_valid_ready` is written with `@(tb.clock)`, so it is evaluated at the falling edges too; here it is evaluated
at the rising ones, like the others. Two assertions call `stable`, which no file defines: what it returns for the
values of a port is a parameter.
-/

open Assertion

namespace ReedSolomon

/-- The signals of `test_RSEncoder` at a rising edge. -/
structure Tick where
  reset : Bool
  encoderReadyPort : Bool
  encoderValidPort : Bool

/-- The data ports as well, under the names `test_RSEncoder` has for them. -/
structure PortTick extends Tick where
  encoderInputPort : Lanes
  dataOutputPort : Lanes

namespace Monitor

/-- `$rose(tb.encoderReadyPort) ##16 $rose(tb.encoderValidPort) |=> !tb.encoderValidPort && !tb.encoderReadyPort` -/
def pReadyThenValid : Property Tick :=
  .next (.delay (.expr (rose Tick.encoderReadyPort)) 16 (.expr (rose Tick.encoderValidPort)))
    (.expr (now fun v => !v.encoderValidPort && !v.encoderReadyPort))

/-- `$rose(tb.encoderValidPort) ##16 $rose(tb.encoderReadyPort) |=> !tb.encoderValidPort && !tb.encoderReadyPort` -/
def pValidThenReady : Property Tick :=
  .next (.delay (.expr (rose Tick.encoderValidPort)) 16 (.expr (rose Tick.encoderReadyPort)))
    (.expr (now fun v => !v.encoderValidPort && !v.encoderReadyPort))

/-- `!(!tb.encoderValidPort && !tb.encoderReadyPort) && !(tb.encoderValidPort && tb.encoderReadyPort)` -/
def pMutexValidReady : Property Tick :=
  .expr (now fun v => !(!v.encoderValidPort && !v.encoderReadyPort) && !(v.encoderValidPort && v.encoderReadyPort))

/-- `assert property (p)` with `disable iff (tb.reset)`. -/
def Reports (p : Property Tick) (w : ℕ → Tick) : Prop := Violated Tick.reset p w

section Stable

variable (stable : (ℕ → Lanes) → ℕ → Bool)

/-- `$rose(tb.encoderReadyPort) |-> ##15 $fell(tb.encoderReadyPort) and stable(tb.encoderInputPort)` -/
def pEndReceivePackets : Clause PortTick :=
  .overlap (.expr (rose fun v => v.encoderReadyPort))
    (.both (.after 15 (.property (.expr (fell fun v => v.encoderReadyPort))))
      (.property (.expr fun w => stable fun u => (w u).encoderInputPort)))

/-- `$rose(tb.encoderValidPort) |-> ##16 $fell(tb.encoderValidPort) and stable(tb.dataOutputPort)` -/
def pEndSendPackets : Clause PortTick :=
  .overlap (.expr (rose fun v => v.encoderValidPort))
    (.both (.after 16 (.property (.expr (fell fun v => v.encoderValidPort))))
      (.property (.expr fun w => stable fun u => (w u).dataOutputPort)))

end Stable

/-- `assert property (p)` with `disable iff (tb.reset)`, for a property of the data ports. -/
def ReportsClause (p : Clause PortTick) (w : ℕ → PortTick) : Prop := p.Violated (fun v => v.reset) w

end Monitor

end ReedSolomon
