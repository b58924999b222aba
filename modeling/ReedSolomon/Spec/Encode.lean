import ReedSolomon.Spec.Params

/-!
# Tables, generator polynomial and encoder of `general_RS.c`

`RSEncoder.cpp` and `RSEncoderTB.cpp` hold the same functions as members.
-/

open Imp

namespace ReedSolomon

variable (P : CodeParams)

/-- The product of two field elements for `mm = 8` and the file's `pp`, as a network of gates. -/
def galois (in1 in2 : BitVec 8) : BitVec 8 :=
  let A0 := in1 &&& 1#8
  let B0 := in2 &&& 1#8
  let A1 := (in1 >>> 1) &&& 1#8
  let B1 := (in2 >>> 1) &&& 1#8
  let A2 := (in1 >>> 2) &&& 1#8
  let B2 := (in2 >>> 2) &&& 1#8
  let A3 := (in1 >>> 3) &&& 1#8
  let B3 := (in2 >>> 3) &&& 1#8
  let A4 := (in1 >>> 4) &&& 1#8
  let B4 := (in2 >>> 4) &&& 1#8
  let A5 := (in1 >>> 5) &&& 1#8
  let B5 := (in2 >>> 5) &&& 1#8
  let A6 := (in1 >>> 6) &&& 1#8
  let B6 := (in2 >>> 6) &&& 1#8
  let A7 := (in1 >>> 7) &&& 1#8
  let B7 := (in2 >>> 7) &&& 1#8
  let Z0 := (B0 &&& A0) ^^^ (B1 &&& A7) ^^^ (B2 &&& A6) ^^^ (B3 &&& A5) ^^^ (B4 &&& A4) ^^^ (B5 &&& A3) ^^^
    (B5 &&& A7) ^^^ (B6 &&& A2) ^^^ (B6 &&& A6) ^^^ (B6 &&& A7) ^^^ (B7 &&& A1) ^^^ (B7 &&& A5) ^^^
    (B7 &&& A6) ^^^ (B7 &&& A7)
  let Z1 := (B0 &&& A1) ^^^ (B1 &&& A0) ^^^ (B2 &&& A7) ^^^ (B3 &&& A6) ^^^ (B4 &&& A5) ^^^ (B5 &&& A4) ^^^
    (B6 &&& A3) ^^^ (B6 &&& A7) ^^^ (B7 &&& A2) ^^^ (B7 &&& A6) ^^^ (B7 &&& A7)
  let Z2 := (B0 &&& A2) ^^^ (B1 &&& A1) ^^^ (B1 &&& A7) ^^^ (B2 &&& A0) ^^^ (B2 &&& A6) ^^^ (B3 &&& A5) ^^^
    (B3 &&& A7) ^^^ (B4 &&& A4) ^^^ (B4 &&& A6) ^^^ (B5 &&& A3) ^^^ (B5 &&& A5) ^^^ (B5 &&& A7) ^^^
    (B6 &&& A2) ^^^ (B6 &&& A4) ^^^ (B6 &&& A6) ^^^ (B6 &&& A7) ^^^ (B7 &&& A1) ^^^ (B7 &&& A3) ^^^
    (B7 &&& A5) ^^^ (B7 &&& A6)
  let Z3 := (B0 &&& A3) ^^^ (B1 &&& A2) ^^^ (B1 &&& A7) ^^^ (B2 &&& A1) ^^^ (B2 &&& A6) ^^^ (B2 &&& A7) ^^^
    (B3 &&& A0) ^^^ (B3 &&& A5) ^^^ (B3 &&& A6) ^^^ (B4 &&& A4) ^^^ (B4 &&& A5) ^^^ (B4 &&& A7) ^^^
    (B5 &&& A3) ^^^ (B5 &&& A4) ^^^ (B5 &&& A6) ^^^ (B5 &&& A7) ^^^ (B6 &&& A2) ^^^ (B6 &&& A3) ^^^
    (B6 &&& A5) ^^^ (B6 &&& A6) ^^^ (B7 &&& A1) ^^^ (B7 &&& A2) ^^^ (B7 &&& A4) ^^^ (B7 &&& A5)
  let Z4 := (B0 &&& A4) ^^^ (B1 &&& A3) ^^^ (B1 &&& A7) ^^^ (B2 &&& A2) ^^^ (B2 &&& A6) ^^^ (B2 &&& A7) ^^^
    (B3 &&& A1) ^^^ (B3 &&& A5) ^^^ (B3 &&& A6) ^^^ (B3 &&& A7) ^^^ (B4 &&& A0) ^^^ (B4 &&& A4) ^^^
    (B4 &&& A5) ^^^ (B4 &&& A6) ^^^ (B5 &&& A3) ^^^ (B5 &&& A4) ^^^ (B5 &&& A5) ^^^ (B6 &&& A2) ^^^
    (B6 &&& A3) ^^^ (B6 &&& A4) ^^^ (B7 &&& A1) ^^^ (B7 &&& A2) ^^^ (B7 &&& A3) ^^^ (B7 &&& A7)
  let Z5 := (B0 &&& A5) ^^^ (B1 &&& A4) ^^^ (B2 &&& A3) ^^^ (B2 &&& A7) ^^^ (B3 &&& A2) ^^^ (B3 &&& A6) ^^^
    (B3 &&& A7) ^^^ (B4 &&& A1) ^^^ (B4 &&& A5) ^^^ (B4 &&& A6) ^^^ (B4 &&& A7) ^^^ (B5 &&& A0) ^^^
    (B5 &&& A4) ^^^ (B5 &&& A5) ^^^ (B5 &&& A6) ^^^ (B6 &&& A3) ^^^ (B6 &&& A4) ^^^ (B6 &&& A5) ^^^
    (B7 &&& A2) ^^^ (B7 &&& A3) ^^^ (B7 &&& A4)
  let Z6 := (B0 &&& A6) ^^^ (B1 &&& A5) ^^^ (B2 &&& A4) ^^^ (B3 &&& A3) ^^^ (B3 &&& A7) ^^^ (B4 &&& A2) ^^^
    (B4 &&& A6) ^^^ (B4 &&& A7) ^^^ (B5 &&& A1) ^^^ (B5 &&& A5) ^^^ (B5 &&& A6) ^^^ (B5 &&& A7) ^^^
    (B6 &&& A0) ^^^ (B6 &&& A4) ^^^ (B6 &&& A5) ^^^ (B6 &&& A6) ^^^ (B7 &&& A3) ^^^ (B7 &&& A4) ^^^
    (B7 &&& A5)
  let Z7 := (B0 &&& A7) ^^^ (B1 &&& A6) ^^^ (B2 &&& A5) ^^^ (B3 &&& A4) ^^^ (B4 &&& A3) ^^^ (B4 &&& A7) ^^^
    (B5 &&& A2) ^^^ (B5 &&& A6) ^^^ (B5 &&& A7) ^^^ (B6 &&& A1) ^^^ (B6 &&& A5) ^^^ (B6 &&& A6) ^^^
    (B6 &&& A7) ^^^ (B7 &&& A0) ^^^ (B7 &&& A4) ^^^ (B7 &&& A5) ^^^ (B7 &&& A6)
  Z0 ||| (Z1 <<< 1) ||| (Z2 <<< 2) ||| (Z3 <<< 3) ||| (Z4 <<< 4) ||| (Z5 <<< 5) ||| (Z6 <<< 6) ||| (Z7 <<< 7)

/-- A call of `galois` on two ints: each is converted to `unsigned char`, the result back to int. -/
def galoisInt (a b : ℤ) : ℤ := (galois (BitVec.ofInt 8 a) (BitVec.ofInt 8 b)).toNat

/-- One pass of the first loop of `generate_gf`: `@**i` for `i < mm`. -/
def lowPower (i : ℕ) (mask : ℤ) : Code P ℤ := do
  store .alphaTo [i] mask
  store .indexOf [← load .alphaTo [i]] i
  ifThen (P.pp i ≠ 0) do
    store .alphaTo [P.mm] (Int.xor (← load .alphaTo [P.mm]) mask)
  pure (mask <<< (1 : ℕ))

/-- One pass of the second loop of `generate_gf`: `@**i` from `@**(i-1)`. -/
def highPower (mask : ℤ) (i : ℕ) : Code P Unit := do
  ifThenElse ((← load .alphaTo [i - 1]) ≥ mask)
    (do
      store .alphaTo [i]
        (Int.xor (← load .alphaTo [P.mm]) (Int.xor (← load .alphaTo [i - 1]) mask <<< (1 : ℕ))))
    (do store .alphaTo [i] ((← load .alphaTo [i - 1]) <<< (1 : ℕ)))
  store .indexOf [← load .alphaTo [i]] i

/-- `generate_gf`: the field tables `alpha_to` and `index_of`. -/
def generateGf : Code P Unit := do
  store .alphaTo [P.mm] 0
  let mask ← forUp 0 P.mm 1 (lowPower P)
  store .indexOf [← load .alphaTo [P.mm]] P.mm
  forEach (P.mm + 1) P.nn (highPower P (mask >>> (1 : ℕ)))
  store .indexOf [0] (-1)

/-- Coefficient `j` of the product of `gg[0] + gg[1]*x + ... + gg[i]*x^i` by `@**(b0+i-1) + x`. -/
def mulCoeff (i j : ℕ) : Code P Unit := do
  ifThenElse ((← load .gg [j]) ≠ 0)
    (do
      let e ← rem ((← load .indexOf [← load .gg [j]]) + P.b0 + i - 1) P.nn
      store .gg [j] (Int.xor (← load .gg [j - 1]) (← load .alphaTo [e])))
    (do store .gg [j] (← load .gg [j - 1]))

/-- One pass of the first loop of `gen_poly`: one more factor. -/
def mulFactor (i : ℕ) : Code P Unit := do
  store .gg [i] 1
  forDown 1 i (mulCoeff P i)
  let e ← rem ((← load .indexOf [← load .gg [0]]) + P.b0 + i - 1) P.nn
  store .gg [0] (← load .alphaTo [e])

/-- `gen_poly`: the generator polynomial, coefficients in index form, in `gg`. -/
def genPoly : Code P Unit := do
  store .gg [0] (← load .alphaTo [P.b0])
  store .gg [1] 1
  forEach 2 (P.nn - P.kk + 1) (mulFactor P)
  forEach 0 (P.nn - P.kk + 1) fun i => do
    store .gg [i] (← load .indexOf [← load .gg [i]])

/-- One pass of the loop of `encode_rs`: the register `bb` takes in `data[i]`. -/
def encodeStep (i : ℕ) : Code P Unit := do
  let feedback := Int.xor (← load .data [i]) (← load .bb [P.nn - P.kk - 1])
  ifThenElse (feedback ≠ 0)
    (do
      forDown 1 (P.nn - P.kk) fun j => do
        store .bb [j] (Int.xor (← load .bb [j - 1]) (galoisInt (← load .alphaTo [← load .gg [j]]) feedback))
      store .bb [0] (galoisInt (← load .alphaTo [← load .gg [0]]) feedback))
    (do
      forDown 1 (P.nn - P.kk) fun j => do
        store .bb [j] (← load .bb [j - 1])
      store .bb [0] 0)

/-- `encode_rs`: the parity symbols of `data` in `bb`. -/
def encodeRs : Code P Unit := do
  forEach 0 (P.nn - P.kk) fun i => store .bb [i] 0
  forDown 0 P.kk (encodeStep P)

/-- The block as `main` and `RSEncoder::thread` lay it out: parity behind data. -/
def assemble : Code P Unit := do
  forEach 0 (P.nn - P.kk) fun k => do
    store .recd [P.kk + k] (← load .bb [k])
  forEach 0 P.kk fun k => do
    store .recd [k] (← load .data [k])

/-- `n` symbols `f 0, …, f (n - 1)` arrive in the array `a`. -/
def receive (a : Arr) (n : ℕ) (f : ℕ → ℤ) : Code P Unit := forEach 0 n fun k => store a [k] (f k)

/-- The calls before the first vector is sent. -/
def initialise : Code P Unit := do
  generateGf P
  genPoly P

end ReedSolomon
