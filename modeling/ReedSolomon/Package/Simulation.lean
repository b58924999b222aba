import ReedSolomon.Imp.Refinement
import ReedSolomon.Spec.Decode
import ReedSolomon.Spec.Package

/-!
# The passes of the two decoders side by side

`decode` of the package runs through the same passes as `decode_rs`, over arrays of its own: `reg` is `rr`
there, and a symbol of `recd` is kept in `msg_temp` while it is in index form and in `msg`, in eight bits, when it is
in polynomial form (`Phase`). Each pass that leaves the forms of the symbols alone simulates its namesake.
-/

open Imp

namespace ReedSolomon

/-- The form of a symbol of the received word. -/
inductive Phase
  | index
  | polynomial

/-- Where the package keeps the symbol. -/
def Phase.home : Phase → Sv.Arr
  | .index => .msgTemp
  | .polynomial => .msg

/-- The arrays of the package for those of the C program. -/
def Phase.image (φ : Phase) : Arr → Option Sv.Arr
  | .alphaTo => some .alphaTo
  | .indexOf => some .indexOf
  | .recd => some φ.home
  | .elp => some .elp
  | .d => some .d
  | .l => some .l
  | .uLu => some .uLu
  | .s => some .s
  | .root => some .root
  | .loc => some .loc
  | .z => some .z
  | .err => some .err
  | .reg => some .rr
  | .gg => none
  | .data => none
  | .bb => none

/-- What an array of the package keeps of a value. -/
def keptIn : Sv.Arr → ℤ → ℤ
  | .msg, v => Sv.byteOf v
  | _, v => v

theorem Phase.image_injective {φ : Phase} {a b : Arr} {c : Sv.Arr} (ha : φ.image a = some c) (hb : φ.image b = some c) :
    a = b := by
  cases φ <;> cases a <;> cases ha <;> cases b <;> first | rfl | cases hb

theorem Phase.image_dims (P : CodeParams) {φ : Phase} {a : Arr} {b : Sv.Arr} (h : φ.image a = some b) :
    Sv.dims P b = P.dims a := by
  cases φ <;> cases a <;> cases h <;> rfl

/-- The package as a view of the C program, symbol `k` of the word being in the form `φ [k]`. -/
def view (P : CodeParams) (φ : List ℤ → Phase) : View P.dims (Sv.dims P) where
  image a idx := (φ idx).image a
  keep := keptIn
  injective := Phase.image_injective
  dims_eq := Phase.image_dims P

/-- The array `b` of the package holds what `a` does, in full and in both phases. -/
class Shared (a : Arr) (b : Sv.Arr) : Prop where
  image : ∀ φ : Phase, φ.image a = some b
  keep : ∀ v, keptIn b v = v

instance : Shared .alphaTo .alphaTo := ⟨fun _ => rfl, fun _ => rfl⟩
instance : Shared .indexOf .indexOf := ⟨fun _ => rfl, fun _ => rfl⟩
instance : Shared .elp .elp := ⟨fun _ => rfl, fun _ => rfl⟩
instance : Shared .d .d := ⟨fun _ => rfl, fun _ => rfl⟩
instance : Shared .l .l := ⟨fun _ => rfl, fun _ => rfl⟩
instance : Shared .uLu .uLu := ⟨fun _ => rfl, fun _ => rfl⟩
instance : Shared .s .s := ⟨fun _ => rfl, fun _ => rfl⟩
instance : Shared .root .root := ⟨fun _ => rfl, fun _ => rfl⟩
instance : Shared .loc .loc := ⟨fun _ => rfl, fun _ => rfl⟩
instance : Shared .z .z := ⟨fun _ => rfl, fun _ => rfl⟩
instance : Shared .err .err := ⟨fun _ => rfl, fun _ => rfl⟩
instance : Shared .reg .rr := ⟨fun _ => rfl, fun _ => rfl⟩

section Access

variable {P : CodeParams} {φ : List ℤ → Phase} {W : View P.dims (Sv.dims P)} {α β : Type} {S : α → β → Prop}
  {a : Arr} {b : Sv.Arr} {idx : List ℤ} {v : ℤ}

theorem sim_read [h : Shared a b] {f : ℤ → Code P α} {f' : ℤ → Sv.Code P β}
    (hf : ∀ v, Refines (view P φ) W S (f v) (f' v)) : Refines (view P φ) W S (load a idx >>= f) (load b idx >>= f') :=
  sim_bind (sim_load (h.image (φ idx)) h.keep) hf

theorem sim_write [h : Shared a b] : Sim (view P φ) (store a idx v) (store b idx v) :=
  refines_store (View.moves_self (h.image (φ idx))) (h.keep v).symm

theorem sim_reduce {n : ℤ} {f : ℤ → Code P α} {f' : ℤ → Sv.Code P β} (hf : ∀ v, Refines (view P φ) W S (f v) (f' v)) :
    Refines (view P φ) W S (rem v n >>= f) (rem v n >>= f') := sim_bind (sim_rem v n) hf

theorem sim_logarithm {f : ℤ → Code P α} {c' : Sv.Code P β} (hf : Refines (view P φ) W S (f v) c') :
    Refines (view P φ) W S (logarithm P v >>= f) c' := refines_expect hf

end Access

section Passes

variable (P : CodeParams) (φ : List ℤ → Phase)

theorem sim_keepRow (u : ℕ) : Sim (view P φ) (keepRow P u) (Sv.keepRow P u) := by
  unfold keepRow Sv.keepRow
  refine sim_read fun lu => sim_bind sim_write fun _ => sim_read fun n => sim_forEach fun i => ?_
  exact sim_read fun c => sim_bind sim_write fun _ => sim_read fun c => sim_read fun e => sim_write

theorem sim_skipZero (q : ℕ) : Sim (view P φ) (skipZero P q) (Sv.skipZero P q) := by
  induction q with
  | zero => exact sim_read fun _ => sim_pure 0
  | succ q ih => exact sim_read fun d => refines_ite ih (sim_pure _)

theorem sim_bestBefore (j q : ℕ) : Sim (view P φ) (bestBefore P j q) (Sv.bestBefore P j q) := by
  induction j generalizing q with
  | zero => exact sim_pure q
  | succ j ih =>
    refine sim_bind (sim_andAlso (sim_read fun d => sim_pure _) ?_) fun better => ih _
    exact sim_read fun p => sim_read fun p' => sim_pure _

theorem sim_searchRow (u : ℕ) : Sim (view P φ) (searchRow P u) (Sv.searchRow P u) :=
  sim_bind (sim_skipZero P φ _) fun q => refines_ite (sim_bestBefore P φ q q) (sim_pure q)

theorem sim_newDegree (u q : ℕ) : Sim (view P φ) (newDegree P u q) (Sv.newDegree P u q) := by
  unfold newDegree Sv.newDegree
  refine sim_read fun lu => sim_read fun lq => refines_ifThenElse ?_ ?_
  · exact sim_read fun _ => sim_write
  · exact sim_read fun _ => sim_write

theorem sim_shiftCoeff (u q i : ℕ) : Sim (view P φ) (shiftCoeff P u q i) (Sv.shiftCoeff P u q i) := by
  unfold shiftCoeff Sv.shiftCoeff
  refine sim_read fun c => sim_ifThen (sim_read fun du => sim_logarithm ?_)
  refine sim_read fun dq => sim_logarithm (sim_read fun c => sim_logarithm ?_)
  exact sim_reduce fun e => sim_read fun t => sim_write

theorem sim_addCoeff (u i : ℕ) : Sim (view P φ) (addCoeff P u i) (Sv.addCoeff P u i) := by
  unfold addCoeff Sv.addCoeff
  refine sim_read fun c => sim_read fun c' => sim_bind sim_write fun _ => ?_
  exact sim_read fun c => sim_read fun e => sim_write

theorem sim_combineRows (u q : ℕ) : Sim (view P φ) (combineRows P u q) (Sv.combineRows P u q) := by
  unfold combineRows Sv.combineRows
  refine sim_bind (sim_newDegree P φ u q) fun _ => sim_bind (sim_forEach fun i => sim_write) fun _ => ?_
  refine sim_read fun lq => sim_bind (sim_forEach (sim_shiftCoeff P φ u q)) fun _ => ?_
  exact sim_read fun lu => sim_forEach (sim_addCoeff P φ u)

theorem sim_discrepancyTerm (u i : ℕ) : Sim (view P φ) (discrepancyTerm P u i) (Sv.discrepancyTerm P u i) := by
  unfold discrepancyTerm Sv.discrepancyTerm
  refine sim_bind (sim_andAlso (sim_read fun _ => sim_pure _) (sim_read fun _ => sim_pure _)) fun both => ?_
  refine sim_ifThen (sim_read fun si => sim_logarithm (sim_read fun c => sim_read fun e => sim_logarithm ?_))
  exact sim_reduce fun e => sim_read fun d => sim_read fun t => sim_write

theorem sim_discrepancy (u : ℕ) : Sim (view P φ) (discrepancy P u) (Sv.discrepancy P u) := by
  unfold discrepancy Sv.discrepancy
  refine sim_read fun si => sim_bind (refines_ifThenElse ?_ sim_write) fun _ => sim_read fun n => ?_
  · exact sim_read fun si => sim_read fun t => sim_write
  · refine sim_bind (sim_forEach (sim_discrepancyTerm P φ u)) fun _ => ?_
    exact sim_read fun d => sim_read fun e => sim_write

theorem sim_iteration (u : ℕ) : Sim (view P φ) (iteration P u) (Sv.iteration P u) := by
  unfold iteration Sv.iteration
  refine sim_read fun d => sim_bind (refines_ifThenElse (sim_keepRow P φ u) ?_) fun _ => ?_
  · exact sim_bind (sim_searchRow P φ u) (sim_combineRows P φ u)
  · exact sim_read fun l => sim_bind sim_write fun _ => sim_ifThen (sim_discrepancy P φ u)

theorem sim_berlekamp (u : ℕ) : Sim (view P φ) (berlekamp P u) (Sv.berlekamp P u) := by
  induction u using berlekamp.induct P with
  | case1 u ih =>
    unfold berlekamp Sv.berlekamp
    refine sim_bind (sim_iteration P φ (u + 1)) fun _ => ?_
    split_ifs with hu
    · exact sim_read fun l => refines_ite (ih hu l) (sim_pure _)
    · exact sim_pure _

theorem sim_initTable : Sim (view P φ) (initTable P) (Sv.initTable P) := by
  unfold initTable Sv.initTable
  refine sim_bind sim_write fun _ => sim_read fun s => sim_bind sim_write fun _ => ?_
  refine sim_bind sim_write fun _ => sim_bind sim_write fun _ => sim_bind (sim_forEach fun i => ?_) fun _ => ?_
  · exact sim_bind sim_write fun _ => sim_write
  · exact sim_bind sim_write fun _ => sim_bind sim_write fun _ => sim_bind sim_write fun _ => sim_write

theorem sim_locatorToIndex (u : ℕ) : Sim (view P φ) (locatorToIndex P u) (Sv.locatorToIndex P u) := by
  unfold locatorToIndex Sv.locatorToIndex
  exact sim_read fun l => sim_forEach fun i => sim_read fun c => sim_read fun e => sim_write

theorem sim_regTerm (j : ℕ) (q : ℤ) : Sim (view P φ) (regTerm P j q) (Sv.regTerm P j q) := by
  unfold regTerm Sv.regTerm
  refine sim_read fun r => refines_ite (sim_read fun r => sim_logarithm (sim_reduce fun e => ?_)) (sim_pure q)
  exact sim_bind sim_write fun _ => sim_read fun r => sim_read fun t => sim_pure _

theorem sim_locatorAt (u : ℕ) : Sim (view P φ) (locatorAt P u) (Sv.locatorAt P u) := by
  unfold locatorAt Sv.locatorAt
  exact sim_read fun l => sim_forUp (sim_regTerm P φ)

theorem sim_rootSearch (u : ℕ) : Sim (view P φ) (rootSearch P u) (Sv.rootSearch P u) := by
  unfold rootSearch Sv.rootSearch
  refine sim_read fun l => sim_bind (sim_forEach fun i => sim_read fun c => sim_write) fun _ => sim_forUp fun i count => ?_
  refine sim_bind (sim_locatorAt P φ u) fun q => refines_ite ?_ (sim_pure count)
  exact sim_bind sim_write fun _ => sim_bind sim_write fun _ => sim_pure _

theorem sim_startZ (u i : ℕ) : Sim (view P φ) (startZ P u i) (Sv.startZ P u i) := by
  unfold startZ Sv.startZ
  refine sim_bind (sim_andAlso (sim_read fun _ => sim_pure _) (sim_read fun _ => sim_pure _)) fun _ => ?_
  refine refines_ifThenElse (sim_read fun s => sim_read fun t => sim_read fun c => sim_read fun t' => sim_write) ?_
  refine sim_bind (sim_andAlso (sim_read fun _ => sim_pure _) (sim_read fun _ => sim_pure _)) fun _ => ?_
  refine refines_ifThenElse (sim_read fun s => sim_read fun t => sim_write) ?_
  refine sim_bind (sim_andAlso (sim_read fun _ => sim_pure _) (sim_read fun _ => sim_pure _)) fun _ => ?_
  exact refines_ifThenElse (sim_read fun c => sim_read fun t => sim_write) sim_write

theorem sim_zTerm (u i j : ℕ) : Sim (view P φ) (zTerm P u i j) (Sv.zTerm P u i j) := by
  unfold zTerm Sv.zTerm
  refine sim_bind (sim_andAlso (sim_read fun _ => sim_pure _) (sim_read fun _ => sim_pure _)) fun both => ?_
  refine sim_ifThen (sim_read fun c => sim_logarithm (sim_read fun s => sim_logarithm (sim_reduce fun e => ?_)))
  exact sim_read fun z => sim_read fun t => sim_write

theorem sim_formZ (u i : ℕ) : Sim (view P φ) (formZ P u i) (Sv.formZ P u i) := by
  unfold formZ Sv.formZ
  refine sim_bind (sim_startZ P φ u i) fun _ => sim_bind (sim_forEach (sim_zTerm P φ u i)) fun _ => ?_
  exact sim_read fun z => sim_read fun e => sim_write

theorem sim_numeratorTerm (i j : ℕ) : Sim (view P φ) (numeratorTerm P i j) (Sv.numeratorTerm P i j) := by
  unfold numeratorTerm Sv.numeratorTerm
  refine sim_read fun z => sim_ifThen (sim_read fun z => sim_logarithm (sim_read fun r => sim_reduce fun e => ?_))
  exact sim_read fun x => sim_read fun x' => sim_read fun v => sim_read fun t => sim_write

theorem sim_denominatorFactor (i j : ℕ) (q : ℤ) :
    Sim (view P φ) (denominatorFactor P i j q) (Sv.denominatorFactor P i j q) := by
  unfold denominatorFactor Sv.denominatorFactor
  refine refines_ite (sim_read fun x => sim_read fun r => sim_reduce fun e => ?_) (sim_pure q)
  exact sim_read fun t => sim_read fun e => sim_logarithm (sim_pure _)

theorem sim_denominator (u i : ℕ) : Sim (view P φ) (denominator P u i) (Sv.denominator P u i) := by
  unfold denominator Sv.denominator
  exact sim_read fun l => sim_bind (sim_forUp (sim_denominatorFactor P φ i)) fun q => sim_rem q _

theorem sim_scaleError (i : ℕ) : Sim (view P φ) (scaleError P i) (Sv.scaleError P i) := by
  unfold scaleError Sv.scaleError
  refine sim_read fun x => sim_read fun v => sim_ifThen (sim_read fun x => sim_read fun v => sim_read fun e => ?_)
  exact sim_logarithm (sim_read fun r => sim_reduce fun e => sim_read fun x => sim_read fun t => sim_write)

end Passes

end ReedSolomon
