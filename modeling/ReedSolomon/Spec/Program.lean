import ReedSolomon.Imp.Scope
import ReedSolomon.Spec.Injection
import ReedSolomon.Spec.RsEncoderTb

/-!
# `main` of `general_RS.c`

The whole program: the tables, then for `i = 0, …, tt` hundred random messages, each encoded, hit in `i` places,
decoded and compared, and a line for every `i`. Besides the arrays of the file `main` has its own `error_status`; the
functions see the former, the loop that injects the errors `recd` and the latter. What `rand()` returns is a
parameter. The injection loop need not end: it is followed for a number of passes, and where it has not ended by then
there is no result.
-/

open Imp

namespace ReedSolomon

/-- The arrays of the program. -/
inductive MainArr
  | global (a : Arr)
  | errorStatus
  deriving DecidableEq, Repr

def mainDims : MainArr → List ℕ
  | .global a => rs255.dims a
  | .errorStatus => [rs255.nn]

abbrev MainCode (α : Type) : Type := Prog (Machine mainDims) α

/-- What the functions see. -/
def globals : Scope rs255.dims mainDims where
  name := .global
  find
    | .global a => some a
    | .errorStatus => none
  find_eq {a b} := by cases b <;> simp [eq_comm]
  dims_eq _ := rfl

/-- What the injection loop sees. -/
def channel : Scope channelDims mainDims where
  name
    | .recd => .global .recd
    | .errorStatus => .errorStatus
  find
    | .global .recd => some .recd
    | .global _ => none
    | .errorStatus => some .errorStatus
  find_eq {a b} := by
    cases a <;> cases b with
    | global b => cases b <;> simp
    | errorStatus => simp
  dims_eq a := by cases a <;> rfl

/-- A random message. -/
def drawMessage (rand : ℕ → ℤ) (drawn : ℕ) : Code rs255 Unit := forEach 0 rs255.kk fun k => do
  store .data [k] (← rem (rand (drawn + k)) 256)

/-- The messages that were not recovered, and how many values were drawn. -/
structure Batch where
  noEncoderErrors : ℕ
  drawn : ℕ
  deriving DecidableEq, Repr

/-- The next pass of a loop, unless an injection loop is still running. -/
def proceed {β : Type} (body : β → MainCode (Option β)) : Option β → MainCode (Option β)
  | some x => body x
  | none => pure none

/-- A message on its way: the body of the inner loop. -/
def sendVector (rand : ℕ → ℤ) (i passes : ℕ) (x : Batch) : MainCode (Option Batch) := do
  globals.within do
    drawMessage rand x.drawn
    encodeRs rs255
    assemble rs255
  let counters ← channel.within (inject (fun n => rand (x.drawn + rs255.kk + n)) i passes)
  if counters.k < i then pure none
  else do
    let lost ← globals.within do
      let _ ← decodeRs rs255
      misdecoded
    pure (some ⟨if lost then x.noEncoderErrors + 1 else x.noEncoderErrors, x.drawn + rs255.kk + counters.drawn⟩)

/-- The end of a line. -/
inductive Report
  /-- `OK` -/
  | ok
  /-- `%d erreurs sur %d vecteurs.` -/
  | errors (n : ℕ)
  deriving DecidableEq, Repr

/-- What is printed for a number of errors. -/
def report (noEncoderErrors : ℕ) : Report := if noEncoderErrors = 0 then .ok else .errors noEncoderErrors

def nbVectors : ℕ := 100

/-- The lines printed so far, and how many values were drawn. -/
structure Printed where
  reports : List Report
  drawn : ℕ
  deriving DecidableEq, Repr

/-- The line for `i` errors: the body of the outer loop. -/
def sendVectors (rand : ℕ → ℤ) (passes i : ℕ) (x : Printed) : MainCode (Option Printed) := do
  let y ← forUp 0 nbVectors (some ⟨0, x.drawn⟩) fun _ => proceed (sendVector rand i passes)
  pure (y.map fun y => ⟨x.reports ++ [report y.noEncoderErrors], y.drawn⟩)

/-- `main`: the lines it prints, unless an injection loop is still running after the given number of passes. -/
def program (rand : ℕ → ℤ) (passes : ℕ) : MainCode (Option (List Report)) := do
  globals.within (initialise rs255)
  let x ← forUp 0 (rs255.tt + 1) (some ⟨[], 0⟩) fun i => proceed (sendVectors rand passes i)
  pure (x.map Printed.reports)

end ReedSolomon
