import ReedSolomon.Spec.Settings

/-!
# Package `reed_solomon` of `pkg_reed_solomon.sv`

The functions of the package that the SystemVerilog bench or the comparison with the C program needs.
`NB_SYMBOL_BITS`, `CORRECTION_CAPACITY`, `BLOCK_LENGTH` and `MESSAGE_LENGTH` are `mm`, `tt`, `nn` and `kk`.

`decode` is cut into the same pieces as `decode_rs`. It keeps the index form of the received word in an array
of its own, `msg_temp`; the caller's array `msg` has elements of eight bits. Integer arrays start with 0, a load
outside the bounds gives 0, and a store there has no effect, so the machine of a call has `junk = 0`.
-/

open Imp

namespace ReedSolomon

namespace Sv

/-- The arrays of the package, the locals of `decode`, and the arrays of the caller. -/
inductive Arr
  | alphaTo | indexOf | gg
  | msg | data
  | elp | d | l | uLu | s
  | root | loc | z | err | rr | msgTemp
  deriving DecidableEq, Repr

/-- The declared sizes. -/
def dims (P : CodeParams) : Arr → List ℕ
  | .alphaTo => [P.nn + 1]
  | .indexOf => [P.nn + 1]
  | .gg => [P.nn - P.kk + 1]
  | .msg => [P.nn]
  | .data => [P.kk]
  | .elp => [P.nn - P.kk + 2, P.nn - P.kk]
  | .d => [P.nn - P.kk + 2]
  | .l => [P.nn - P.kk + 2]
  | .uLu => [P.nn - P.kk + 2]
  | .s => [P.nn - P.kk + 1]
  | .root => [P.tt]
  | .loc => [P.tt]
  | .z => [P.tt + 1]
  | .err => [P.nn]
  | .rr => [P.tt + 1]
  | .msgTemp => [P.nn]

/-- Programs over the arrays of the package. -/
abbrev Code (P : CodeParams) (α : Type) : Type := Prog (Machine (dims P)) α

variable (P : CodeParams)

/-- The network of gates on ints of 32 bits. -/
def galois (in1 in2 : BitVec 32) : BitVec 32 :=
  let A0 := in1 &&& 1#32
  let B0 := in2 &&& 1#32
  let A1 := (in1 >>> 1) &&& 1#32
  let B1 := (in2 >>> 1) &&& 1#32
  let A2 := (in1 >>> 2) &&& 1#32
  let B2 := (in2 >>> 2) &&& 1#32
  let A3 := (in1 >>> 3) &&& 1#32
  let B3 := (in2 >>> 3) &&& 1#32
  let A4 := (in1 >>> 4) &&& 1#32
  let B4 := (in2 >>> 4) &&& 1#32
  let A5 := (in1 >>> 5) &&& 1#32
  let B5 := (in2 >>> 5) &&& 1#32
  let A6 := (in1 >>> 6) &&& 1#32
  let B6 := (in2 >>> 6) &&& 1#32
  let A7 := (in1 >>> 7) &&& 1#32
  let B7 := (in2 >>> 7) &&& 1#32
  let Z0 := (B0 &&& A0) ^^^ (B1 &&& A7) ^^^ (B2 &&& A6) ^^^ (B3 &&& A5) ^^^ (B4 &&& A4) ^^^ (B5 &&& A3) ^^^
    (B5 &&& A7) ^^^ (B6 &&& A2) ^^^ (B6 &&& A6) ^^^ (B6 &&& A7) ^^^ (B7 &&& A1) ^^^ (B7 &&& A5) ^^^
    (B7 &&& A6) ^^^ (B7 &&& A7)
  let Z1 := (B0 &&& A1) ^^^ (B1 &&& A0) ^^^ (B2 &&& A7) ^^^ (B3 &&& A6) ^^^ (B4 &&& A5) ^^^ (B5 &&& A4) ^^^
    (B6 &&& A3) ^^^ (B6 &&& A7) ^^^ (B7 &&& A2) ^^^ (B7 &&& A6) ^^^ (B7 &&& A7)
  let Z2 := (B0 &&& A2) ^^^ (B1 &&& A1) ^^^ (B1 &&& A7) ^^^ (B2 &&& A0) ^^^ (B2 &&& A6) ^^^ (B3 &&& A5) ^^^
    (B3 &&& A7) ^^^ (B4 &&& A4) ^^^ (B4 &&& A6) ^^^ (B5 &&& A3) ^^^ (B5 &&& A5) ^^^ (B5 &&& A7) ^^^
    (B6 &&& A2) ^^^ (B6 &&& A4) ^^^ (B6 &&& A6) ^^^ (B6 &&& A7) ^^^ (B7 &&& A1) ^^^ (B7 &&& A3) ^^^
    (B7 &&& A5) ^^^ (B7 &&& A6)
  let Z3 := (B0 &&& A3) ^^^ (B1 &&& A2) ^^^ (B1 &&& A7) ^^^ (B2 &&& A1) ^^^ (B2 &&& A6) ^^^ (B2 &&& A7) ^^^
    (B3 &&& A0) ^^^ (B3 &&& A5) ^^^ (B3 &&& A6) ^^^ (B4 &&& A4) ^^^ (B4 &&& A5) ^^^ (B4 &&& A7) ^^^
    (B5 &&& A3) ^^^ (B5 &&& A4) ^^^ (B5 &&& A6) ^^^ (B5 &&& A7) ^^^ (B6 &&& A2) ^^^ (B6 &&& A3) ^^^
    (B6 &&& A5) ^^^ (B6 &&& A6) ^^^ (B7 &&& A1) ^^^ (B7 &&& A2) ^^^ (B7 &&& A4) ^^^ (B7 &&& A5)
  let Z4 := (B0 &&& A4) ^^^ (B1 &&& A3) ^^^ (B1 &&& A7) ^^^ (B2 &&& A2) ^^^ (B2 &&& A6) ^^^ (B2 &&& A7) ^^^
    (B3 &&& A1) ^^^ (B3 &&& A5) ^^^ (B3 &&& A6) ^^^ (B3 &&& A7) ^^^ (B4 &&& A0) ^^^ (B4 &&& A4) ^^^
    (B4 &&& A5) ^^^ (B4 &&& A6) ^^^ (B5 &&& A3) ^^^ (B5 &&& A4) ^^^ (B5 &&& A5) ^^^ (B6 &&& A2) ^^^
    (B6 &&& A3) ^^^ (B6 &&& A4) ^^^ (B7 &&& A1) ^^^ (B7 &&& A2) ^^^ (B7 &&& A3) ^^^ (B7 &&& A7)
  let Z5 := (B0 &&& A5) ^^^ (B1 &&& A4) ^^^ (B2 &&& A3) ^^^ (B2 &&& A7) ^^^ (B3 &&& A2) ^^^ (B3 &&& A6) ^^^
    (B3 &&& A7) ^^^ (B4 &&& A1) ^^^ (B4 &&& A5) ^^^ (B4 &&& A6) ^^^ (B4 &&& A7) ^^^ (B5 &&& A0) ^^^
    (B5 &&& A4) ^^^ (B5 &&& A5) ^^^ (B5 &&& A6) ^^^ (B6 &&& A3) ^^^ (B6 &&& A4) ^^^ (B6 &&& A5) ^^^
    (B7 &&& A2) ^^^ (B7 &&& A3) ^^^ (B7 &&& A4)
  let Z6 := (B0 &&& A6) ^^^ (B1 &&& A5) ^^^ (B2 &&& A4) ^^^ (B3 &&& A3) ^^^ (B3 &&& A7) ^^^ (B4 &&& A2) ^^^
    (B4 &&& A6) ^^^ (B4 &&& A7) ^^^ (B5 &&& A1) ^^^ (B5 &&& A5) ^^^ (B5 &&& A6) ^^^ (B5 &&& A7) ^^^
    (B6 &&& A0) ^^^ (B6 &&& A4) ^^^ (B6 &&& A5) ^^^ (B6 &&& A6) ^^^ (B7 &&& A3) ^^^ (B7 &&& A4) ^^^
    (B7 &&& A5)
  let Z7 := (B0 &&& A7) ^^^ (B1 &&& A6) ^^^ (B2 &&& A5) ^^^ (B3 &&& A4) ^^^ (B4 &&& A3) ^^^ (B4 &&& A7) ^^^
    (B5 &&& A2) ^^^ (B5 &&& A6) ^^^ (B5 &&& A7) ^^^ (B6 &&& A1) ^^^ (B6 &&& A5) ^^^ (B6 &&& A6) ^^^
    (B6 &&& A7) ^^^ (B7 &&& A0) ^^^ (B7 &&& A4) ^^^ (B7 &&& A5) ^^^ (B7 &&& A6)
  Z0 ||| (Z1 <<< 1) ||| (Z2 <<< 2) ||| (Z3 <<< 3) ||| (Z4 <<< 4) ||| (Z5 <<< 5) ||| (Z6 <<< 6) ||| (Z7 <<< 7)

/-- A `logic[7:0]` keeps eight bits. -/
def byteOf (v : ℤ) : ℤ := v % 256

/-- One pass of the first loop of `generate_gf`. -/
def lowPower (i : ℕ) (mask : ℤ) : Code P ℤ := do
  store .alphaTo [i] mask
  store .indexOf [← load .alphaTo [i]] i
  ifThen (P.pp i ≠ 0) do
    store .alphaTo [P.mm] (Int.xor (← load .alphaTo [P.mm]) mask)
  pure (mask <<< (1 : ℕ))

/-- One pass of the second loop of `generate_gf`. -/
def highPower (mask : ℤ) (i : ℕ) : Code P Unit := do
  ifThenElse ((← load .alphaTo [i - 1]) ≥ mask)
    (do
      store .alphaTo [i]
        (Int.xor (← load .alphaTo [P.mm]) (Int.xor (← load .alphaTo [i - 1]) mask <<< (1 : ℕ))))
    (do store .alphaTo [i] ((← load .alphaTo [i - 1]) <<< (1 : ℕ)))
  store .indexOf [← load .alphaTo [i]] i

/-- `generate_gf`, which also sets `alpha_to[BLOCK_LENGTH]`. -/
def generateGf : Code P Unit := do
  store .alphaTo [P.mm] 0
  store .alphaTo [P.nn] 0
  let mask ← forUp 0 P.mm 1 (lowPower P)
  store .indexOf [← load .alphaTo [P.mm]] P.mm
  forEach (P.mm + 1) P.nn (highPower P (mask >>> (1 : ℕ)))
  store .indexOf [0] (-1)

/-- One pass of the inner loop of `generate_poly`, which also multiplies `gg[0]`. -/
def mulCoeff (i j : ℕ) : Code P Unit := do
  ifThenElse ((← load .gg [j]) ≠ 0)
    (do
      let e ← rem ((← load .indexOf [← load .gg [j]]) + P.b0 + i - 1) P.nn
      store .gg [j] (Int.xor (← load .gg [j - 1]) (← load .alphaTo [e])))
    (do store .gg [j] (← load .gg [j - 1]))
  let e ← rem ((← load .indexOf [← load .gg [0]]) + P.b0 + i - 1) P.nn
  store .gg [0] (← load .alphaTo [e])

/-- One pass of the outer loop of `generate_poly`. -/
def mulFactor (i : ℕ) : Code P Unit := do
  store .gg [i] 1
  forDown 1 i (mulCoeff P i)

/-- `generate_poly`. -/
def generatePoly : Code P Unit := do
  store .gg [0] (← load .alphaTo [P.b0])
  store .gg [1] 1
  forEach 2 (P.nn - P.kk + 1) (mulFactor P)
  forEach 0 (P.nn - P.kk + 1) fun i => do
    store .gg [i] (← load .indexOf [← load .gg [i]])

/-- The calls of `generate_gf` and `generate_poly`. -/
def initialise : Code P Unit := do
  generateGf P
  generatePoly P

/-! ### `decode` -/

/-- The index form of `msg[]`. -/
def toIndexForm : Code P Unit :=
  forEach 0 P.nn fun i => do
    store .msgTemp [i] (← load .indexOf [← load .msg [i]])

/-- Add the term of `msg_temp[j]` to syndrome `i`. -/
def syndromeTerm (i j : ℕ) : Code P Unit := do
  ifThen ((← load .msgTemp [j]) ≠ -1) do
    let e ← rem ((← load .msgTemp [j]) + (P.b0 + i - 1) * j) P.nn
    store .s [i] (Int.xor (← load .s [i]) (← load .alphaTo [e]))

/-- Form the syndromes, in index form; the result is `syn_error`. -/
def syndromes : Code P Bool :=
  forUp 1 (P.nn - P.kk + 1) false fun i synError => do
    store .s [i] 0
    forEach 0 P.nn (syndromeTerm P i)
    let synError := if (← load .s [i]) ≠ 0 then true else synError
    store .s [i] (← load .indexOf [← load .s [i]])
    pure synError

/-- Initialise the table entries. -/
def initTable : Code P Unit := do
  store .d [0] 0
  store .d [1] (← load .s [1])
  store .elp [0, 0] 0
  store .elp [1, 0] 1
  forEach 1 (P.nn - P.kk) fun i => do
    store .elp [0, i] (-1)
    store .elp [1, i] 0
  store .l [0] 0
  store .l [1] 0
  store .uLu [0] (-1)
  store .uLu [1] 0

/-- The branch for `d[u] == -1`. -/
def keepRow (u : ℕ) : Code P Unit := do
  store .l [u + 1] (← load .l [u])
  forEach 0 ((← load .l [u]) + 1).toNat fun i => do
    store .elp [u + 1, i] (← load .elp [u, i])
    store .elp [u, i] (← load .indexOf [← load .elp [u, i]])

/-- `while ((d[q] == -1) && (q>0)) q--`. -/
def skipZero : ℕ → Code P ℕ
  | 0 => do
    let _ ← load .d [0]
    pure 0
  | q + 1 => do
    if (← load .d [q + 1]) = -1 then skipZero q else pure (q + 1)

/-- `do begin j--; if ((d[j] != -1) && (u_lu[q]<u_lu[j])) q = j; end while (j>0)`. -/
def bestBefore : ℕ → ℕ → Code P ℕ
  | 0, q => pure q
  | j + 1, q => do
    let better ← andAlso (do pure ((← load .d [j]) ≠ -1)) (do pure ((← load .uLu [q]) < (← load .uLu [j])))
    bestBefore j (if better then j else q)

/-- Search for the word `q` with greatest `u_lu[q]` for which `d[q] != 0`. -/
def searchRow (u : ℕ) : Code P ℕ := do
  let q ← skipZero P (u - 1)
  if q > 0 then bestBefore P q q else pure q

/-- Store the degree of the new elp polynomial. -/
def newDegree (u q : ℕ) : Code P Unit := do
  ifThenElse ((← load .l [u]) > (← load .l [q]) + u - q)
    (do store .l [u + 1] (← load .l [u]))
    (do store .l [u + 1] ((← load .l [q]) + u - q))

/-- Place coefficient `i` of row `q`, scaled, in the new row. -/
def shiftCoeff (u q i : ℕ) : Code P Unit := do
  ifThen ((← load .elp [q, i]) ≠ -1) do
    let e ← rem ((← load .d [u]) + P.nn - (← load .d [q]) + (← load .elp [q, i])) P.nn
    store .elp [u + 1, i + u - q] (← load .alphaTo [e])

/-- Add coefficient `i` of row `u` to the new row and convert it to index form. -/
def addCoeff (u i : ℕ) : Code P Unit := do
  store .elp [u + 1, i] (Int.xor (← load .elp [u + 1, i]) (← load .elp [u, i]))
  store .elp [u, i] (← load .indexOf [← load .elp [u, i]])

/-- Form the new elp from rows `u` and `q`. -/
def combineRows (u q : ℕ) : Code P Unit := do
  newDegree P u q
  forEach 0 (P.nn - P.kk) fun i => store .elp [u + 1, i] 0
  forEach 0 ((← load .l [q]) + 1).toNat (shiftCoeff P u q)
  forEach 0 ((← load .l [u]) + 1).toNat (addCoeff P u)

/-- Add the term of coefficient `i` to the `(u+1)`th discrepancy. -/
def discrepancyTerm (u i : ℕ) : Code P Unit := do
  let both ← andAlso (do pure ((← load .s [u + 1 - i]) ≠ -1)) (do pure ((← load .elp [u + 1, i]) ≠ 0))
  ifThen both do
    let e ← rem ((← load .s [u + 1 - i]) + (← load .indexOf [← load .elp [u + 1, i]])) P.nn
    store .d [u + 1] (Int.xor (← load .d [u + 1]) (← load .alphaTo [e]))

/-- Form the `(u+1)`th discrepancy. -/
def discrepancy (u : ℕ) : Code P Unit := do
  ifThenElse ((← load .s [u + 1]) ≠ -1)
    (do store .d [u + 1] (← load .alphaTo [← load .s [u + 1]]))
    (do store .d [u + 1] 0)
  forEach 1 ((← load .l [u + 1]) + 1).toNat (discrepancyTerm P u)
  store .d [u + 1] (← load .indexOf [← load .d [u + 1]])

/-- The body of the do-while loop, `u` already increased. -/
def iteration (u : ℕ) : Code P Unit := do
  ifThenElse ((← load .d [u]) = -1)
    (keepRow P u)
    (do combineRows P u (← searchRow P u))
  store .uLu [u + 1] (u - (← load .l [u + 1]))
  ifThen (u < P.nn - P.kk) (discrepancy P u)

/-- The do-while loop, entered with `u`; the result is the last `u`. -/
def berlekamp (u : ℕ) : Code P ℕ := do
  iteration P (u + 1)
  if u + 1 < P.nn - P.kk then
    if (← load .l [u + 2]) ≤ P.tt then berlekamp (u + 1) else pure (u + 1)
  else pure (u + 1)
termination_by P.nn - P.kk - u

/-- Put row `u` of elp into index form. -/
def locatorToIndex (u : ℕ) : Code P Unit := do
  forEach 0 ((← load .l [u]) + 1).toNat fun i => do
    store .elp [u, i] (← load .indexOf [← load .elp [u, i]])

/-- Advance `rr[j]` by `j` and add its term to `q`. -/
def regTerm (j : ℕ) (q : ℤ) : Code P ℤ := do
  if (← load .rr [j]) ≠ -1 then
    let e ← rem ((← load .rr [j]) + j) P.nn
    store .rr [j] e
    pure (Int.xor q (← load .alphaTo [← load .rr [j]]))
  else pure q

/-- The value of the locator at the next power of `@`. -/
def locatorAt (u : ℕ) : Code P ℤ := do
  forUp 1 ((← load .l [u]) + 1).toNat (1 : ℤ) (regTerm P)

/-- Find the roots of the error location polynomial; the result is `count`. -/
def rootSearch (u : ℕ) : Code P ℕ := do
  forEach 1 ((← load .l [u]) + 1).toNat fun i => do
    store .rr [i] (← load .elp [u, i])
  forUp 1 (P.nn + 1) 0 fun i count => do
    let q ← locatorAt P u
    if q = 0 then
      store .root [count] i
      store .loc [count] (P.nn - i)
      pure (count + 1)
    else pure count

/-- The first two terms of coefficient `i` of `z(x)`. -/
def startZ (u i : ℕ) : Code P Unit := do
  ifThenElse (← andAlso (do pure ((← load .s [i]) ≠ -1)) (do pure ((← load .elp [u, i]) ≠ -1)))
    (do store .z [i] (Int.xor (← load .alphaTo [← load .s [i]]) (← load .alphaTo [← load .elp [u, i]])))
    (do
      ifThenElse (← andAlso (do pure ((← load .s [i]) ≠ -1)) (do pure ((← load .elp [u, i]) = -1)))
        (do store .z [i] (← load .alphaTo [← load .s [i]]))
        (do
          ifThenElse (← andAlso (do pure ((← load .s [i]) = -1)) (do pure ((← load .elp [u, i]) ≠ -1)))
            (do store .z [i] (← load .alphaTo [← load .elp [u, i]]))
            (do store .z [i] 0)))

/-- Add a product to coefficient `i` of `z(x)`. -/
def zTerm (u i j : ℕ) : Code P Unit := do
  let both ← andAlso (do pure ((← load .s [j]) ≠ -1)) (do pure ((← load .elp [u, i - j]) ≠ -1))
  ifThen both do
    let e ← rem ((← load .elp [u, i - j]) + (← load .s [j])) P.nn
    store .z [i] (Int.xor (← load .z [i]) (← load .alphaTo [e]))

/-- Form the polynomial `z(x)`, coefficient `i`. -/
def formZ (u i : ℕ) : Code P Unit := do
  startZ P u i
  forEach 1 i (zTerm P u i)
  store .z [i] (← load .indexOf [← load .z [i]])

/-- Write `msg_temp[i]` back in polynomial form. -/
def restoreSymbol (i : ℕ) : Code P Unit := do
  ifThenElse ((← load .msgTemp [i]) ≠ -1)
    (do store .msg [i] (byteOf (← load .alphaTo [← load .msgTemp [i]])))
    (do store .msg [i] 0)

/-- Convert `msg[]` to polynomial form. -/
def restoreMsg : Code P Unit := forEach 0 P.nn (restoreSymbol P)

/-- Add a term of `z(x)` at `@**root[i]`. -/
def numeratorTerm (i j : ℕ) : Code P Unit := do
  ifThen ((← load .z [j]) ≠ -1) do
    let e ← rem ((← load .z [j]) + j * (← load .root [i])) P.nn
    store .err [← load .loc [i]] (Int.xor (← load .err [← load .loc [i]]) (← load .alphaTo [e]))

/-- The logarithm `q` of the denominator with the factor of `loc[j]`. -/
def denominatorFactor (i j : ℕ) (q : ℤ) : Code P ℤ := do
  if j ≠ i then
    let e ← rem ((← load .loc [j]) + (← load .root [i])) P.nn
    pure (q + (← load .indexOf [Int.xor 1 (← load .alphaTo [e])]))
  else pure q

/-- The denominator of error value `i`, as a logarithm. -/
def denominator (u i : ℕ) : Code P ℤ := do
  let q ← forUp 0 ((← load .l [u]).toNat) (0 : ℤ) (denominatorFactor P i)
  rem q P.nn

/-- Multiply error value `i` by the term `X(l)**(1-b0)`. -/
def scaleError (i : ℕ) : Code P Unit := do
  ifThen ((← load .err [← load .loc [i]]) ≠ 0) do
    let e ← load .indexOf [← load .err [← load .loc [i]]]
    let e ← rem (e + (← load .root [i]) * (P.b0 + P.nn - 1)) P.nn
    store .err [← load .loc [i]] (← load .alphaTo [e])

/-- Divide error value `i` by the denominator and correct the symbol. -/
def applyError (u i : ℕ) : Code P Unit := do
  ifThen ((← load .err [← load .loc [i]]) ≠ 0) do
    store .err [← load .loc [i]] (← load .indexOf [← load .err [← load .loc [i]]])
    let q ← denominator P u i
    let e ← rem ((← load .err [← load .loc [i]]) - q + P.nn) P.nn
    store .err [← load .loc [i]] (← load .alphaTo [e])
    store .msg [← load .loc [i]]
      (byteOf (Int.xor (← load .msg [← load .loc [i]]) (← load .err [← load .loc [i]])))

/-- Evaluate the error at location `loc[i]` and correct it. -/
def errorValue (u i : ℕ) : Code P Unit := do
  store .err [← load .loc [i]] 1
  forEach 1 ((← load .l [u]) + 1).toNat (numeratorTerm P i)
  scaleError P i
  applyError P u i

/-- Form `z(x)`, write `msg[]` back and correct the errors. -/
def correct (u : ℕ) : Code P Unit := do
  forEach 1 ((← load .l [u]) + 1).toNat (formZ P u)
  forEach 0 P.nn fun i => do
    store .err [i] 0
    restoreSymbol P i
  forEach 0 (← load .l [u]).toNat (errorValue P u)

/-- The locals of `decode`. -/
def decodeLocals : List Arr := [.elp, .d, .l, .uLu, .s, .root, .loc, .z, .err, .rr, .msgTemp]

/-- `decode`: errors-only decoding of `msg`, in place. -/
def decode : Code P ℤ := do
  declare decodeLocals
  toIndexForm P
  if (← syndromes P) then
    initTable P
    let u := (← berlekamp P 0) + 1
    if (← load .l [u]) ≤ P.tt then
      locatorToIndex P u
      let count ← rootSearch P u
      if count = (← load .l [u]) then
        correct P u
        pure 1
      else
        restoreMsg P
        pure 2
    else
      restoreMsg P
      pure 3
  else
    restoreMsg P
    pure 0

/-- The caller sets `msg` to `f 0, …, f (nn - 1)`. -/
def receive (f : ℕ → ℤ) : Code P Unit := forEach 0 P.nn fun k => store .msg [k] (byteOf (f k))

/-- The static arrays of the package after elaboration: all 0. Behind the end of `data`, an array of `logic`, stands
`unknown`. -/
def elaborated (unknown : ℤ) : Machine (dims P) where
  cell a idx := if a ∈ [Arr.alphaTo, .indexOf, .gg] ∧ InBounds (dims P a) idx then some 0 else none
  inBounds a idx v h := by
    split_ifs at h with hb
    exact hb.2
  junk a _ := if a = .data then unknown else 0
  faults := []

/-- The package after `generate_gf`, for the parameters of the files. -/
def booted (m : Machine (dims rs255)) : Machine (dims rs255) := (generateGf rs255).exec m

/-- The machine with the word `r` in `msg`. -/
def heard (m : Machine (dims rs255)) (r : ℕ → ℤ) : Machine (dims rs255) := (receive rs255 r).exec m

/-- The machine after `decode`. -/
def decoded (m : Machine (dims rs255)) : Machine (dims rs255) := (decode rs255).exec m

/-- What `decode` returns. -/
def returned (m : Machine (dims rs255)) : ℤ := (decode rs255).eval m

end Sv

end ReedSolomon
