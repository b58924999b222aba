import ReedSolomon.Spec.Params

/-!
# `decode_rs` of `general_RS.c`

The function is one sequence of loops; each loop, or group of loops under one comment of the source, is
a definition here, and `decodeRs` puts them together. `RSEncoderTB.cpp` holds the same function as a
member.

Wherever the source adds or subtracts logarithms, the operands taken from an index-form array pass
through `logarithm`, which notes a value that is not one (the sentinel `-1` above all).
-/

open Imp

namespace ReedSolomon

variable (P : CodeParams)

/-- A value used as a logarithm. -/
def logarithm (v : ℤ) : Code P ℤ := expect 0 P.nn v

/-- `recd[]` is in polynomial form, convert to index form. -/
def toIndexForm : Code P Unit :=
  forEach 0 P.nn fun i => do
    store .recd [i] (← load .indexOf [← load .recd [i]])

/-- Add the term of `recd[j]` to syndrome `i`. -/
def syndromeTerm (i j : ℕ) : Code P Unit := do
  ifThen ((← load .recd [j]) ≠ -1) do
    let e ← rem ((← logarithm P (← load .recd [j])) + (P.b0 + i - 1) * j) P.nn
    store .s [i] (Int.xor (← load .s [i]) (← load .alphaTo [e]))

/-- Form the syndromes, in index form; the result is `syn_error`. -/
def syndromes : Code P Bool :=
  forUp 1 (P.nn - P.kk + 1) false fun i synError => do
    store .s [i] 0
    forEach 0 P.nn (syndromeTerm P i)
    let synError := if (← load .s [i]) ≠ 0 then true else synError
    store .s [i] (← load .indexOf [← load .s [i]])
    pure synError

/-- Initialise the table entries. -/
def initTable : Code P Unit := do
  store .d [0] 0
  store .d [1] (← load .s [1])
  store .elp [0, 0] 0
  store .elp [1, 0] 1
  forEach 1 (P.nn - P.kk) fun i => do
    store .elp [0, i] (-1)
    store .elp [1, i] 0
  store .l [0] 0
  store .l [1] 0
  store .uLu [0] (-1)
  store .uLu [1] 0

/-- The branch for `d[u] == -1`. -/
def keepRow (u : ℕ) : Code P Unit := do
  store .l [u + 1] (← load .l [u])
  forEach 0 ((← load .l [u]) + 1).toNat fun i => do
    store .elp [u + 1, i] (← load .elp [u, i])
    store .elp [u, i] (← load .indexOf [← load .elp [u, i]])

/-- `while ((d[q] == -1) && (q > 0)) q--`. -/
def skipZero : ℕ → Code P ℕ
  | 0 => do
    -- `d[0]` is looked at, and `q > 0` ends the loop whatever it is
    let _ ← load .d [0]
    pure 0
  | q + 1 => do
    if (← load .d [q + 1]) = -1 then skipZero q else pure (q + 1)

/-- `do { j--; if ((d[j] != -1) && (u_lu[q] < u_lu[j])) q = j; } while (j > 0)`. -/
def bestBefore : ℕ → ℕ → Code P ℕ
  | 0, q => pure q
  | j + 1, q => do
    let better ← andAlso (do pure ((← load .d [j]) ≠ -1)) (do pure ((← load .uLu [q]) < (← load .uLu [j])))
    bestBefore j (if better then j else q)

/-- Search for the word `q` with greatest `u_lu[q]` for which `d[q] != 0`. -/
def searchRow (u : ℕ) : Code P ℕ := do
  let q ← skipZero P (u - 1)
  if q > 0 then bestBefore P q q else pure q

/-- Store the degree of the new elp polynomial. -/
def newDegree (u q : ℕ) : Code P Unit := do
  ifThenElse ((← load .l [u]) > (← load .l [q]) + u - q)
    (do store .l [u + 1] (← load .l [u]))
    (do store .l [u + 1] ((← load .l [q]) + u - q))

/-- Place coefficient `i` of row `q`, scaled, in the new row. -/
def shiftCoeff (u q i : ℕ) : Code P Unit := do
  ifThen ((← load .elp [q, i]) ≠ -1) do
    let du ← logarithm P (← load .d [u])
    let dq ← logarithm P (← load .d [q])
    let e ← rem (du + P.nn - dq + (← logarithm P (← load .elp [q, i]))) P.nn
    store .elp [u + 1, i + u - q] (← load .alphaTo [e])

/-- Add coefficient `i` of row `u` to the new row and convert it to index form. -/
def addCoeff (u i : ℕ) : Code P Unit := do
  store .elp [u + 1, i] (Int.xor (← load .elp [u + 1, i]) (← load .elp [u, i]))
  store .elp [u, i] (← load .indexOf [← load .elp [u, i]])

/-- Form the new elp from rows `u` and `q`; row `u` is converted to index form. -/
def combineRows (u q : ℕ) : Code P Unit := do
  newDegree P u q
  forEach 0 (P.nn - P.kk) fun i => store .elp [u + 1, i] 0
  forEach 0 ((← load .l [q]) + 1).toNat (shiftCoeff P u q)
  forEach 0 ((← load .l [u]) + 1).toNat (addCoeff P u)

/-- Add the term of coefficient `i` to the `(u+1)`th discrepancy. -/
def discrepancyTerm (u i : ℕ) : Code P Unit := do
  let both ← andAlso (do pure ((← load .s [u + 1 - i]) ≠ -1)) (do pure ((← load .elp [u + 1, i]) ≠ 0))
  ifThen both do
    let si ← logarithm P (← load .s [u + 1 - i])
    let e ← rem (si + (← logarithm P (← load .indexOf [← load .elp [u + 1, i]]))) P.nn
    store .d [u + 1] (Int.xor (← load .d [u + 1]) (← load .alphaTo [e]))

/-- Form the `(u+1)`th discrepancy. -/
def discrepancy (u : ℕ) : Code P Unit := do
  ifThenElse ((← load .s [u + 1]) ≠ -1)
    (do store .d [u + 1] (← load .alphaTo [← load .s [u + 1]]))
    (do store .d [u + 1] 0)
  forEach 1 ((← load .l [u + 1]) + 1).toNat (discrepancyTerm P u)
  store .d [u + 1] (← load .indexOf [← load .d [u + 1]])

/-- The body of the do-while loop, `u` already increased. -/
def iteration (u : ℕ) : Code P Unit := do
  ifThenElse ((← load .d [u]) = -1)
    (keepRow P u)
    (do combineRows P u (← searchRow P u))
  store .uLu [u + 1] (u - (← load .l [u + 1]))
  ifThen (u < P.nn - P.kk) (discrepancy P u)

/-- The do-while loop, entered with `u`; the result is the last `u`. -/
def berlekamp (u : ℕ) : Code P ℕ := do
  iteration P (u + 1)
  if u + 1 < P.nn - P.kk then
    if (← load .l [u + 2]) ≤ P.tt then berlekamp (u + 1) else pure (u + 1)
  else pure (u + 1)
termination_by P.nn - P.kk - u

/-- Put row `u` of elp into index form. -/
def locatorToIndex (u : ℕ) : Code P Unit := do
  forEach 0 ((← load .l [u]) + 1).toNat fun i => do
    store .elp [u, i] (← load .indexOf [← load .elp [u, i]])

/-- Advance `reg[j]` by `j` and add its term to `q`. -/
def regTerm (j : ℕ) (q : ℤ) : Code P ℤ := do
  if (← load .reg [j]) ≠ -1 then
    let e ← rem ((← logarithm P (← load .reg [j])) + j) P.nn
    store .reg [j] e
    pure (Int.xor q (← load .alphaTo [← load .reg [j]]))
  else pure q

/-- The value of the locator at the next power of `@`. -/
def locatorAt (u : ℕ) : Code P ℤ := do
  forUp 1 ((← load .l [u]) + 1).toNat (1 : ℤ) (regTerm P)

/-- Find the roots of the error location polynomial; the result is `count`. -/
def rootSearch (u : ℕ) : Code P ℕ := do
  forEach 1 ((← load .l [u]) + 1).toNat fun i => do
    store .reg [i] (← load .elp [u, i])
  forUp 1 (P.nn + 1) 0 fun i count => do
    let q ← locatorAt P u
    if q = 0 then
      store .root [count] i
      store .loc [count] (P.nn - i)
      pure (count + 1)
    else pure count

/-- The first two terms of coefficient `i` of `z(x)`. -/
def startZ (u i : ℕ) : Code P Unit := do
  ifThenElse (← andAlso (do pure ((← load .s [i]) ≠ -1)) (do pure ((← load .elp [u, i]) ≠ -1)))
    (do store .z [i] (Int.xor (← load .alphaTo [← load .s [i]]) (← load .alphaTo [← load .elp [u, i]])))
    (do
      ifThenElse (← andAlso (do pure ((← load .s [i]) ≠ -1)) (do pure ((← load .elp [u, i]) = -1)))
        (do store .z [i] (← load .alphaTo [← load .s [i]]))
        (do
          ifThenElse (← andAlso (do pure ((← load .s [i]) = -1)) (do pure ((← load .elp [u, i]) ≠ -1)))
            (do store .z [i] (← load .alphaTo [← load .elp [u, i]]))
            (do store .z [i] 0)))

/-- Add a product to coefficient `i` of `z(x)`. -/
def zTerm (u i j : ℕ) : Code P Unit := do
  let both ← andAlso (do pure ((← load .s [j]) ≠ -1)) (do pure ((← load .elp [u, i - j]) ≠ -1))
  ifThen both do
    let e ← logarithm P (← load .elp [u, i - j])
    let e ← rem (e + (← logarithm P (← load .s [j]))) P.nn
    store .z [i] (Int.xor (← load .z [i]) (← load .alphaTo [e]))

/-- Form the polynomial `z(x)`, coefficient `i`. -/
def formZ (u i : ℕ) : Code P Unit := do
  startZ P u i
  forEach 1 i (zTerm P u i)
  store .z [i] (← load .indexOf [← load .z [i]])

/-- Convert `recd[i]` to polynomial form. -/
def restoreSymbol (i : ℕ) : Code P Unit := do
  ifThenElse ((← load .recd [i]) ≠ -1)
    (do store .recd [i] (← load .alphaTo [← load .recd [i]]))
    (do store .recd [i] 0)

/-- Convert `recd[]` to polynomial form: the loop of the three exits that output the received word. -/
def restoreRecd : Code P Unit := forEach 0 P.nn (restoreSymbol P)

/-- Add a term of `z(x)` at `@**root[i]`. -/
def numeratorTerm (i j : ℕ) : Code P Unit := do
  ifThen ((← load .z [j]) ≠ -1) do
    let e ← rem ((← logarithm P (← load .z [j])) + j * (← load .root [i])) P.nn
    store .err [← load .loc [i]] (Int.xor (← load .err [← load .loc [i]]) (← load .alphaTo [e]))

/-- The logarithm `q` of the denominator with the factor of `loc[j]`. -/
def denominatorFactor (i j : ℕ) (q : ℤ) : Code P ℤ := do
  if j ≠ i then
    let e ← rem ((← load .loc [j]) + (← load .root [i])) P.nn
    pure (q + (← logarithm P (← load .indexOf [Int.xor 1 (← load .alphaTo [e])])))
  else pure q

/-- The denominator of error value `i`, as a logarithm. -/
def denominator (u i : ℕ) : Code P ℤ := do
  let q ← forUp 0 ((← load .l [u]).toNat) (0 : ℤ) (denominatorFactor P i)
  rem q P.nn

/-- Multiply error value `i` by the term `X(l)**(1-b0)`. -/
def scaleError (i : ℕ) : Code P Unit := do
  ifThen ((← load .err [← load .loc [i]]) ≠ 0) do
    let e ← logarithm P (← load .indexOf [← load .err [← load .loc [i]]])
    let e ← rem (e + (← load .root [i]) * (P.b0 + P.nn - 1)) P.nn
    store .err [← load .loc [i]] (← load .alphaTo [e])

/-- Divide error value `i` by the denominator and correct the symbol. -/
def applyError (u i : ℕ) : Code P Unit := do
  ifThen ((← load .err [← load .loc [i]]) ≠ 0) do
    store .err [← load .loc [i]] (← load .indexOf [← load .err [← load .loc [i]]])
    let q ← denominator P u i
    let e ← rem ((← logarithm P (← load .err [← load .loc [i]])) - q + P.nn) P.nn
    store .err [← load .loc [i]] (← load .alphaTo [e])
    store .recd [← load .loc [i]]
      (Int.xor (← load .recd [← load .loc [i]]) (← load .err [← load .loc [i]]))

/-- Evaluate the error at location `loc[i]` and correct it. -/
def errorValue (u i : ℕ) : Code P Unit := do
  store .err [← load .loc [i]] 1
  forEach 1 ((← load .l [u]) + 1).toNat (numeratorTerm P i)
  scaleError P i
  applyError P u i

/-- Form `z(x)`, convert `recd[]` back and correct the errors. -/
def correct (u : ℕ) : Code P Unit := do
  forEach 1 ((← load .l [u]) + 1).toNat (formZ P u)
  forEach 0 P.nn fun i => do
    store .err [i] 0
    restoreSymbol P i
  forEach 0 (← load .l [u]).toNat (errorValue P u)

/-- The locals of `decode_rs`. -/
def decodeLocals : List Arr := [.elp, .d, .l, .uLu, .s, .root, .loc, .z, .err, .reg]

/-- `decode_rs`: errors-only decoding of `recd`, in place. -/
def decodeRs : Code P ℤ := do
  declare decodeLocals
  toIndexForm P
  if (← syndromes P) then
    initTable P
    let u := (← berlekamp P 0) + 1
    if (← load .l [u]) ≤ P.tt then
      locatorToIndex P u
      let count ← rootSearch P u
      if count = (← load .l [u]) then
        correct P u
        pure 1
      else
        restoreRecd P
        pure 2
    else
      restoreRecd P
      pure 3
  else
    restoreRecd P
    pure 0

/-- The row of the table `decode_rs` ends with, for words with a nonzero syndrome. -/
def lastRow : Code P ℕ := do
  declare decodeLocals
  toIndexForm P
  let _ ← syndromes P
  initTable P
  pure ((← berlekamp P 0) + 1)

end ReedSolomon
