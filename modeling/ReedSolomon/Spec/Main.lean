import ReedSolomon.Spec.Decode
import ReedSolomon.Spec.Encode
import ReedSolomon.Spec.Settings

/-!
# A test vector of `main`

The steps of the inner loop of `main` in `general_RS.c`, which `RSEncoder::thread` and `RSEncoderTB::thread`
share between them, for the parameters of the files.
-/

open Imp

namespace ReedSolomon

/-- A message is encoded. -/
def encode (P : CodeParams) (data : ℕ → ℤ) : Code P Unit := do
  receive P .data P.kk data
  encodeRs P

/-- A message is encoded and the block laid out. -/
def transmit (P : CodeParams) (data : ℕ → ℤ) : Code P Unit := do
  encode P data
  assemble P

/-- The machine with the tables of `generate_gf`, once the word `r` has arrived in `recd`. -/
def arrived (P : CodeParams) (m : Machine P.dims) (r : ℕ → ℤ) : Machine P.dims :=
  (receive P .recd P.nn r).exec ((generateGf P).exec m)

/-- The machine after `generate_gf` and `gen_poly`. -/
def booted (m : Machine rs255.dims) : Machine rs255.dims := (initialise rs255).exec m

/-- The machine with the parity symbols of the message `data` in `bb`. -/
def encoded (m : Machine rs255.dims) (data : ℕ → ℤ) : Machine rs255.dims := (encode rs255 data).exec (booted m)

/-- The machine with the block of the message `data` in `recd`. -/
def sent (m : Machine rs255.dims) (data : ℕ → ℤ) : Machine rs255.dims := (transmit rs255 data).exec (booted m)

/-- The machine once the word `r` has arrived in `recd`. -/
def heard (m : Machine rs255.dims) (r : ℕ → ℤ) : Machine rs255.dims := (receive rs255 .recd rs255.nn r).exec m

/-- The machine after `decode_rs`. -/
def decoded (m : Machine rs255.dims) : Machine rs255.dims := (decodeRs rs255).exec m

/-- What `decode_rs` returns. -/
def returned (m : Machine rs255.dims) : ℤ := (decodeRs rs255).eval m

end ReedSolomon
