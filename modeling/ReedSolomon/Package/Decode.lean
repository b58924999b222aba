import ReedSolomon.Imp.Arrays
import ReedSolomon.Package.Simulation

/-!
# `decode` of the package refines `decode_rs`

The two passes that change the form of the received word, symbol by symbol (`upTo`), the correction of a symbol, and
then the two decoders as wholes: wherever `decode_rs` uses no arbitrary value, `decode` returns the same code and leaves
the same symbols (`refines_decode`). The symbols must fit in eight bits, `nn ≤ 255`.
-/

open Imp

namespace ReedSolomon

/-! ### Eight bits -/

theorem bit_emod (b : Bool) (v : ℤ) (n : ℕ) : Int.bit b v % 2 ^ (n + 1) = Int.bit b (v % 2 ^ n) := by
  have hpos : (0 : ℤ) < 2 ^ n := pow_pos two_pos n
  have hdiv := Int.emod_add_mul_ediv v (2 ^ n)
  have hlt := Int.emod_lt_of_pos v hpos
  have hnonneg := Int.emod_nonneg v hpos.ne'
  rw [Int.bit_val, Int.bit_val, pow_succ]
  refine ((Int.ediv_emod_unique (q := v / 2 ^ n) (by omega)).mpr ⟨?_, ?_, ?_⟩).2
  · have hsplit : 2 ^ n * 2 * (v / 2 ^ n) = 2 * (2 ^ n * (v / 2 ^ n)) := by rw [mul_comm (2 ^ n) 2, mul_assoc]
    rw [hsplit]
    omega
  · cases b <;> simp only [cond_true, cond_false] <;> omega
  · cases b <;> simp only [cond_true, cond_false] <;> omega

theorem xor_emod (n : ℕ) (v w : ℤ) : Int.xor (v % 2 ^ n) w % 2 ^ n = Int.xor v w % 2 ^ n := by
  induction n generalizing v w with
  | zero => simp
  | succ n ih =>
    rw [← Int.bit_decomp v, ← Int.bit_decomp w, bit_emod, Int.lxor_bit, Int.lxor_bit, bit_emod, bit_emod, ih]

theorem byteOf_xor (v w : ℤ) : Sv.byteOf (Int.xor (Sv.byteOf v) w) = Sv.byteOf (Int.xor v w) := xor_emod 8 v w

theorem byteOf_of_lt {v : ℤ} (h0 : 0 ≤ v) (hv : v < 256) : Sv.byteOf v = v := Int.emod_eq_of_lt h0 hv

/-! ### Changing the form -/

/-- The symbols below `n` in the form `φ`, the others in the form `ψ`. -/
def upTo (φ ψ : Phase) (n : ℕ) : List ℤ → Phase
  | [k] => if k < n then φ else ψ
  | _ => ψ

/-- All symbols in one form. -/
abbrev all (φ : Phase) : List ℤ → Phase := fun _ => φ

theorem Phase.image_of_ne {a : Arr} (h : a ≠ .recd) (φ ψ : Phase) : φ.image a = ψ.image a := by
  cases a <;> first | rfl | exact absurd rfl h

theorem Phase.notMem_locals {a : Arr} {b : Sv.Arr} (ha : a ∉ decodeLocals) (hab : Phase.polynomial.image a = some b) :
    b ∉ Sv.decodeLocals := by
  cases a <;> cases hab <;> first | decide | exact absurd (by decide) ha

section Forms

variable {P : CodeParams} {φ ψ : Phase}

theorem upTo_self (i : ℕ) : upTo φ ψ i (line i) = ψ := if_neg (lt_irrefl _)

theorem upTo_moves (i : ℕ) :
    (view P (upTo φ ψ i)).Moves (view P (upTo φ ψ (i + 1))) .recd (line i) φ.home := by
  refine ⟨?_, fun c j hj => ?_, rfl⟩
  · have hdone : upTo φ ψ (i + 1) (line i) = φ := if_pos (by omega)
    show (upTo φ ψ (i + 1) (line i)).image .recd = _
    rw [hdone]
    rfl
  · by_cases hc : c = .recd
    · have hsame : upTo φ ψ (i + 1) j = upTo φ ψ i j := by
        match j with
        | [] => rfl
        | [k] =>
          have hk : k ≠ (i : ℤ) := fun h => hj ⟨hc, by rw [h]⟩
          rw [upTo, upTo]
          split_ifs
          all_goals first | rfl | omega
        | _ :: _ :: _ => rfl
      show (upTo φ ψ (i + 1) j).image c = (upTo φ ψ i j).image c
      rw [hsame]
    · exact Phase.image_of_ne hc _ _

theorem mirrors_congr {φ ψ : List ℤ → Phase} (h : ∀ k < P.nn, φ (line k) = ψ (line k)) (m : Machine P.dims)
    (m' : Machine (Sv.dims P)) (hm : (view P φ).Mirrors m m') : (view P ψ).Mirrors m m' := by
  refine View.Mirrors.congr hm (fun a idx hb => ?_) rfl
  by_cases ha : a = .recd
  · subst ha
    match idx, hb with
    | [k], hb =>
      obtain ⟨⟨h0, hk⟩, -⟩ := hb
      obtain ⟨k, rfl⟩ := Int.eq_ofNat_of_zero_le h0
      show (ψ (line k)).image .recd = (φ (line k)).image .recd
      rw [h k (by omega)]
  · exact Phase.image_of_ne ha _ _

theorem mirrors_all_upTo (m : Machine P.dims) (m' : Machine (Sv.dims P)) (hm : (view P (all ψ)).Mirrors m m') :
    (view P (upTo φ ψ 0)).Mirrors m m' := by
  refine mirrors_congr (fun k _ => ?_) m m' hm
  rw [upTo, if_neg (by omega)]

theorem mirrors_upTo_all (m : Machine P.dims) (m' : Machine (Sv.dims P)) (hm : (view P (upTo φ ψ P.nn)).Mirrors m m') :
    (view P (all φ)).Mirrors m m' := by
  refine mirrors_congr (fun k hk => if_pos ?_) m m' hm
  omega

theorem refines_forms {body : ℕ → Code P Unit} {body' : ℕ → Sv.Code P Unit}
    (h : ∀ i, Refines (view P (upTo φ ψ i)) (view P (upTo φ ψ (i + 1))) Eq (body i) (body' i)) :
    Refines (view P (all ψ)) (view P (all φ)) Eq (forEach 0 P.nn body) (forEach 0 P.nn body') :=
  (refines_forEach (fun i => view P (upTo φ ψ i)) h).congr mirrors_all_upTo mirrors_upTo_all

end Forms

section Access

variable {P : CodeParams} {φ : List ℤ → Phase} {W : View P.dims (Sv.dims P)} {α β : Type} {S : α → β → Prop}
  {idx : List ℤ}

theorem sim_readIndex (h : φ idx = .index) {f : ℤ → Code P α} {f' : ℤ → Sv.Code P β}
    (hf : ∀ v, Refines (view P φ) W S (f v) (f' v)) :
    Refines (view P φ) W S (load .recd idx >>= f) (load .msgTemp idx >>= f') :=
  sim_bind (sim_load (congrArg (Phase.image · .recd) h) fun _ => rfl) hf

theorem sim_readByte (h : φ idx = .polynomial) {f : ℤ → Code P α} {f' : ℤ → Sv.Code P β}
    (hf : ∀ v, Refines (view P φ) W S (f v) (f' (Sv.byteOf v))) :
    Refines (view P φ) W S (load .recd idx >>= f) (load .msg idx >>= f') := by
  refine refines_bind (S := fun v w => w = Sv.byteOf v) (fun v => ⟨_, rfl⟩)
    (refines_load (congrArg (Phase.image · .recd) h)) fun v w hw => ?_
  rw [hw]
  exact hf v

end Access

section Passes

variable (P : CodeParams)

/-- The package looks up a byte of the symbol; a symbol that is not a byte is outside the table. -/
theorem refines_toIndexForm (h8 : P.nn ≤ 255) :
    Refines (view P (all .polynomial)) (view P (all .index)) Eq (toIndexForm P) (Sv.toIndexForm P) := by
  refine refines_forms fun i => sim_readByte (upTo_self i) fun v => ?_
  refine sim_bind ?_ fun e => refines_store (upTo_moves i) rfl
  by_cases hv : InBounds (P.dims .indexOf) [v]
  · rw [byteOf_of_lt hv.1.1 (lt_of_lt_of_le hv.1.2 (by omega))]
    exact sim_load rfl fun _ => rfl
  · exact refines_load_out hv

theorem refines_restoreSymbol (i : ℕ) :
    Refines (view P (upTo .polynomial .index i)) (view P (upTo .polynomial .index (i + 1))) Eq (restoreSymbol P i)
      (Sv.restoreSymbol P i) := by
  unfold restoreSymbol Sv.restoreSymbol
  refine sim_readIndex (upTo_self i) fun e => refines_ifThenElse ?_ (refines_store (upTo_moves i) rfl)
  exact sim_readIndex (upTo_self i) fun e => sim_read fun v => refines_store (upTo_moves i) rfl

theorem refines_restoreRecd :
    Refines (view P (all .index)) (view P (all .polynomial)) Eq (restoreRecd P) (Sv.restoreMsg P) :=
  refines_forms (refines_restoreSymbol P)

theorem sim_syndromeTerm (i j : ℕ) : Sim (view P (all .index)) (syndromeTerm P i j) (Sv.syndromeTerm P i j) := by
  unfold syndromeTerm Sv.syndromeTerm
  refine sim_readIndex rfl fun e => sim_ifThen (sim_readIndex rfl fun e => ?_)
  exact sim_logarithm (sim_reduce fun e => sim_read fun s => sim_read fun t => sim_write)

theorem sim_syndromes : Sim (view P (all .index)) (syndromes P) (Sv.syndromes P) := by
  unfold syndromes Sv.syndromes
  refine sim_forUp fun i flag => sim_bind sim_write fun _ => sim_bind (sim_forEach (sim_syndromeTerm P i)) fun _ => ?_
  exact sim_read fun s => sim_read fun s' => sim_read fun e => sim_bind sim_write fun _ => sim_pure _

theorem sim_applyError (u i : ℕ) : Sim (view P (all .polynomial)) (applyError P u i) (Sv.applyError P u i) := by
  unfold applyError Sv.applyError
  refine sim_read fun x => sim_read fun v => sim_ifThen (sim_read fun x => sim_read fun x' => sim_read fun v => ?_)
  refine sim_read fun e => sim_bind sim_write fun _ => sim_bind (sim_denominator P _ u i) fun q => ?_
  refine sim_read fun x => sim_read fun e => sim_logarithm (sim_reduce fun e => sim_read fun x => sim_read fun t => ?_)
  refine sim_bind sim_write fun _ => sim_read fun x => sim_read fun x' => sim_readByte rfl fun v => ?_
  exact sim_read fun x'' => sim_read fun e => refines_store (View.moves_self rfl) (byteOf_xor v e)

theorem sim_errorValue (u i : ℕ) : Sim (view P (all .polynomial)) (errorValue P u i) (Sv.errorValue P u i) := by
  unfold errorValue Sv.errorValue
  refine sim_read fun x => sim_bind sim_write fun _ => sim_read fun l => ?_
  refine sim_bind (sim_forEach (sim_numeratorTerm P _ i)) fun _ => ?_
  exact sim_bind (sim_scaleError P _ i) fun _ => sim_applyError P u i

theorem refines_correct (u : ℕ) :
    Refines (view P (all .index)) (view P (all .polynomial)) Eq (correct P u) (Sv.correct P u) := by
  unfold correct Sv.correct
  refine sim_read fun l => sim_bind (sim_forEach (sim_formZ P _ u)) fun _ => ?_
  refine sim_bind (V := view P (all .polynomial)) ?_ fun _ => ?_
  · exact refines_forms fun i => sim_bind sim_write fun _ => refines_restoreSymbol P i
  · exact sim_read fun l => sim_forEach (sim_errorValue P u)

theorem refines_giveUp (code : ℤ) : Refines (view P (all .index)) (view P (all .polynomial)) Eq
    (do
      restoreRecd P
      pure code)
    (do
      Sv.restoreMsg P
      pure code) := sim_bind (refines_restoreRecd P) fun _ => sim_pure code

/-- **`decode` refines `decode_rs`.** -/
theorem refines_decode (h8 : P.nn ≤ 255) :
    Refines (view P (all .polynomial)) (view P (all .polynomial)) Eq (decodeRs P) (Sv.decode P) := by
  unfold decodeRs Sv.decode
  refine sim_bind (sim_declare fun a b idx => Phase.notMem_locals) fun _ => ?_
  refine sim_bind (refines_toIndexForm P h8) fun _ => ?_
  refine sim_bind (sim_syndromes P) fun flag => refines_ite ?_ (refines_giveUp P 0)
  refine sim_bind (sim_initTable P _) fun _ => sim_bind (sim_berlekamp P _ 0) fun u => sim_read fun l => ?_
  refine refines_ite ?_ (refines_giveUp P 3)
  refine sim_bind (sim_locatorToIndex P _ _) fun _ => sim_bind (sim_rootSearch P _ _) fun count => sim_read fun l => ?_
  exact refines_ite (sim_bind (refines_correct P _) fun _ => sim_pure 1) (refines_giveUp P 2)

end Passes

end ReedSolomon
