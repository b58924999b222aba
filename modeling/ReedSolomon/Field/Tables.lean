import ReedSolomon.Field.Forms
import ReedSolomon.Spec.Encode

/-!
# The field tables

`generateGf` fills `alpha_to` with the powers of the primitive element in polynomial form and
`index_of` with the index form of every element (`wp_generateGf`). The two loops share one invariant,
`Filled`: the first powers are in both tables.
-/

open Imp Finset

namespace ReedSolomon

namespace FieldParams

variable (K : FieldParams)

/-- The part of `@**mm` seen by the first loop once `pp[0], …, pp[n-1]` were looked at. -/
noncomputable def lowPart (n : ℕ) : K.GF := ∑ i ∈ range n, if K.pp i ≠ 0 then K.alpha ^ i else 0

theorem lowPart_mm : K.lowPart K.mm = K.alpha ^ K.mm := by
  have hroot : AdjoinRoot.mk (modulus K.mm K.pp) (modulus K.mm K.pp) = 0 := AdjoinRoot.mk_self
  have hterm : ∀ i ≤ K.mm, AdjoinRoot.mk (modulus K.mm K.pp) (Polynomial.C (K.pp i : ZMod 2) * Polynomial.X ^ i)
      = if K.pp i ≠ 0 then AdjoinRoot.root (modulus K.mm K.pp) ^ i else 0 := by
    intro i hi
    rcases K.pp_bit i hi with h | h <;> simp [h]
  have hsum : K.lowPart K.mm + K.alpha ^ K.mm = 0 := by
    conv_lhs at hroot => arg 2; rw [modulus]
    rw [map_sum, sum_range_succ, hterm K.mm le_rfl, if_pos (by rw [K.pp_top]; exact one_ne_zero)] at hroot
    rw [sum_congr rfl fun i hi => hterm i (mem_range.mp hi).le] at hroot
    exact hroot
  exact CharTwo.add_eq_zero.mp hsum

theorem poly_shiftLeft {x : K.GF} (hx : K.poly x < 2 ^ (K.mm - 1)) :
    K.poly x <<< (1 : ℕ) = K.poly (K.alpha * x) := by
  have hmm : K.mm = K.mm - 1 + 1 := by have := K.two_le_mm; omega
  have hlt : K.bits x < 2 ^ (K.mm - 1) := by
    rw [poly] at hx
    exact_mod_cast hx
  have hpow : 2 ^ K.mm = 2 ^ (K.mm - 1) * 2 := by rw [← pow_succ, ← hmm]
  rw [poly, poly, bits_alpha_mul _ (by omega), Int.shiftLeft_eq]
  push_cast
  ring

theorem poly_alpha_pow {i : ℕ} (hi : i < K.mm) : K.poly (K.alpha ^ i) = 2 ^ i := by
  rw [poly, bits_alpha_pow _ hi]
  push_cast
  rfl

theorem poly_add_top_lt {x : K.GF} (hx : 2 ^ (K.mm - 1) ≤ K.poly x) :
    K.poly (x + K.alpha ^ (K.mm - 1)) < 2 ^ (K.mm - 1) := by
  have hmm := K.two_le_mm
  have hsucc : K.mm = K.mm - 1 + 1 := by omega
  have hle : 2 ^ (K.mm - 1) ≤ K.bits x := by
    rw [poly] at hx
    exact_mod_cast hx
  have hlt : K.bits x < 2 ^ (K.mm - 1 + 1) := by
    rw [← hsucc]
    exact K.bits_lt x
  have htop := Nat.testBit_of_two_pow_le_and_two_pow_add_one_gt hle hlt
  have hclear : K.bits x ^^^ 2 ^ (K.mm - 1) < 2 ^ (K.mm - 1) := by
    refine Nat.lt_pow_two_of_testBit _ fun i hi => ?_
    rw [Nat.testBit_xor, Nat.testBit_two_pow]
    rcases Nat.eq_or_lt_of_le hi with rfl | hgt
    · simp [htop]
    · rw [BinaryField.testBit_eq_of_lt hlt (by omega)]
      simp [show K.mm - 1 ≠ i by omega]
  rw [poly, ← bits_xor, bits_alpha_pow _ (by omega)]
  exact_mod_cast hclear

/-- Where the powers of `@` are listed, the product of an element with one of them is found by adding to the
logarithm. -/
theorem lookup_mul {alphaTo : List ℤ → Option ℤ} (h : ∀ i < K.nn, alphaTo [(i : ℤ)] = some (K.poly (K.alpha ^ i)))
    {x : K.GF} (hx : x ≠ 0) {e : ℤ} {n : ℕ} (he : e = K.index x + n) :
    0 ≤ e ∧ alphaTo [e % K.nn] = some (K.poly (x * K.alpha ^ n)) := by
  have hcast : e = ((K.log x + n : ℕ) : ℤ) := by rw [he, K.index_of_ne_zero hx, Nat.cast_add]
  have hfound := h ((K.log x + n) % K.nn) (Nat.mod_lt _ K.nn_pos)
  rw [K.alpha_pow_mod, pow_add, K.alpha_pow_log hx, Int.natCast_mod, ← hcast] at hfound
  exact ⟨by omega, hfound⟩

end FieldParams

variable {P : CodeParams}

/-- The tables hold what their comments say. -/
structure HasTables (m : Machine P.dims) : Prop where
  alphaTo : ∀ i < P.nn, m.cell .alphaTo [(i : ℤ)] = some (P.poly (P.alpha ^ i))
  indexOf : ∀ x : P.GF, m.cell .indexOf [P.poly x] = some (P.index x)

namespace HasTables

variable {m m' : Machine P.dims} {W : List Arr}

theorem of_keeps (h : HasTables m) (hf : Keeps W m m') (ha : .alphaTo ∉ W) (hi : .indexOf ∉ W) :
    HasTables m' :=
  ⟨fun i hin => by rw [hf.cell _ ha]; exact h.alphaTo i hin, fun x => by rw [hf.cell _ hi]; exact h.indexOf x⟩

theorem of_frame (h : HasTables m) (hf : Frame W m m') (ha : .alphaTo ∉ W) (hi : .indexOf ∉ W) :
    HasTables m' := h.of_keeps hf.keeps ha hi

theorem alphaTo_mod (h : HasTables m) (e : ℕ) :
    m.cell .alphaTo [(e : ℤ) % P.nn] = some (P.poly (P.alpha ^ e)) := by
  have := h.alphaTo (e % P.nn) (Nat.mod_lt _ P.nn_pos)
  rwa [P.alpha_pow_mod, Int.natCast_mod] at this

theorem alphaTo_index (h : HasTables m) {x : P.GF} (hx : x ≠ 0) :
    m.cell .alphaTo [P.index x] = some (P.poly x) := by
  rw [P.index_of_ne_zero hx, h.alphaTo _ (P.log_lt x), P.alpha_pow_log hx]

theorem alphaTo_mul (h : HasTables m) {x : P.GF} (hx : x ≠ 0) {e : ℤ} {n : ℕ} (he : e = P.index x + n) :
    0 ≤ e ∧ m.cell .alphaTo [e % P.nn] = some (P.poly (x * P.alpha ^ n)) := P.lookup_mul h.alphaTo hx he

end HasTables

/-- The powers below `n` are in both tables. -/
structure Filled (m : Machine P.dims) (n : ℕ) : Prop where
  alphaTo : ∀ i < n, m.cell .alphaTo [(i : ℤ)] = some (P.poly (P.alpha ^ i))
  indexOf : ∀ i < n, m.cell .indexOf [P.poly (P.alpha ^ i)] = some (i : ℤ)

theorem inBounds_alphaTo {i : ℕ} (hi : i ≤ P.nn) : InBounds (P.dims .alphaTo) [(i : ℤ)] := by
  simp only [CodeParams.dims, inBounds_cons, inBounds_nil, and_true]
  omega

theorem inBounds_indexOf (x : P.GF) : InBounds (P.dims .indexOf) [P.poly x] := by
  have := P.poly_nonneg x
  have := P.poly_le x
  simp only [CodeParams.dims, inBounds_cons, inBounds_nil, and_true]
  omega

theorem Filled.next {m m' : Machine P.dims} {n : ℕ} (h : Filled m n) (hn : n < P.nn)
    (ha : ∀ i < n, m'.cell .alphaTo [(i : ℤ)] = m.cell .alphaTo [(i : ℤ)])
    (han : m'.cell .alphaTo [(n : ℤ)] = some (P.poly (P.alpha ^ n)))
    (hi : ∀ j, j ≠ [P.poly (P.alpha ^ n)] → m'.cell .indexOf j = m.cell .indexOf j)
    (hin : m'.cell .indexOf [P.poly (P.alpha ^ n)] = some (n : ℤ)) : Filled m' (n + 1) := by
  refine ⟨fun i hin' => ?_, fun i hin' => ?_⟩
  · rcases Nat.lt_succ_iff_lt_or_eq.mp hin' with hlt | rfl
    · rw [ha i hlt, h.alphaTo i hlt]
    · exact han
  · rcases Nat.lt_succ_iff_lt_or_eq.mp hin' with hlt | rfl
    · rw [hi _ (by simpa using fun he => hlt.ne (P.alpha_pow_injOn (hlt.trans hn) hn he)), h.indexOf i hlt]
    · exact hin

theorem Filled.put {m : Machine P.dims} {i : ℕ} (h : Filled m i) (hi : i < P.nn) :
    Filled ((m.put .alphaTo [(i : ℤ)] (P.poly (P.alpha ^ i)) (inBounds_alphaTo hi.le)).put .indexOf
      [P.poly (P.alpha ^ i)] i (inBounds_indexOf _)) (i + 1) := by
  refine h.next hi (fun k hk => ?_) ?_ (fun j hj => ?_) ?_
  · simp [Machine.cell_put, hk.ne]
  · simp [Machine.cell_put]
  · simp [Machine.cell_put, hj]
  · simp

/-- What the first loop keeps. -/
structure FirstLoop (m₀ : Machine P.dims) (i : ℕ) (mask : ℤ) (m : Machine P.dims) : Prop where
  frame : Frame [.alphaTo, .indexOf] m₀ m
  filled : Filled m i
  mask : mask = 2 ^ i
  low : m.cell .alphaTo [(P.mm : ℤ)] = some (P.poly (P.lowPart i))

theorem firstLoop_step {m₀ m : Machine P.dims} {i : ℕ} {mask : ℤ} (hi : i < P.mm)
    (h : FirstLoop m₀ i mask m) : wp (lowPower P i mask) (FirstLoop m₀ (i + 1)) m := by
  have hin : i < P.nn := hi.trans P.mm_lt_nn
  have hmask : mask = P.poly (P.alpha ^ i) := by rw [h.mask, P.poly_alpha_pow hi]
  have hlow : P.lowPart (i + 1) = P.lowPart i + if P.pp i ≠ 0 then P.alpha ^ i else 0 := by
    rw [FieldParams.lowPart, sum_range_succ]
    rfl
  have hshift : mask <<< (1 : ℕ) = 2 ^ (i + 1) := by
    rw [h.mask, Int.shiftLeft_eq]
    ring
  have hne : (P.mm : ℤ) ≠ i := by omega
  subst hmask
  simp only [lowPower, wp_bind, wp_pure]
  rw [wp_store (inBounds_alphaTo hin.le), wp_load (Machine.cell_put_self _ _ _ _ _),
    wp_store (inBounds_indexOf _)]
  have hfilled := h.filled.put hin
  have hframe := (h.frame.put (a := .alphaTo) (by simp) [(i : ℤ)] (P.poly (P.alpha ^ i))
    (inBounds_alphaTo hin.le)).put (a := .indexOf) (by simp) [P.poly (P.alpha ^ i)] i (inBounds_indexOf _)
  have hmm : ((m.put .alphaTo [(i : ℤ)] (P.poly (P.alpha ^ i)) (inBounds_alphaTo hin.le)).put .indexOf
      [P.poly (P.alpha ^ i)] i (inBounds_indexOf _)).cell .alphaTo [(P.mm : ℤ)] = some (P.poly (P.lowPart i)) := by
    simp [Machine.cell_put, hne, h.low]
  by_cases hpp : P.pp i ≠ 0
  · rw [wp_ifThen_pos hpp]
    simp only [wp_bind]
    rw [wp_load hmm, wp_store (inBounds_alphaTo P.mm_lt_nn.le), P.xor_poly]
    refine ⟨hframe.put (by simp) _ _ _, ?_, hshift, ?_⟩
    · refine ⟨fun k hk => ?_, fun k hk => ?_⟩
      · rw [Machine.cell_put_of_idx _ _ _ (by simp; omega)]
        exact hfilled.alphaTo k hk
      · rw [Machine.cell_put_of_ne _ _ _ _ (by simp)]
        exact hfilled.indexOf k hk
    · rw [hlow, if_pos hpp]
      simp
  · rw [wp_ifThen_neg hpp]
    refine ⟨hframe, hfilled, hshift, ?_⟩
    rw [hlow, if_neg hpp, add_zero]
    exact hmm

/-- What the second loop keeps. -/
structure SecondLoop (m₀ : Machine P.dims) (i : ℕ) (m : Machine P.dims) : Prop where
  frame : Frame [.alphaTo, .indexOf] m₀ m
  filled : Filled m i

theorem Filled.previous {m : Machine P.dims} {i : ℕ} (h : Filled m i) (hi : 1 ≤ i) :
    m.cell .alphaTo [(i : ℤ) - 1] = some (P.poly (P.alpha ^ (i - 1))) := by
  have := h.alphaTo (i - 1) (by omega)
  rwa [Nat.cast_sub hi] at this

theorem wp_storePower {m : Machine P.dims} {i : ℕ} (h : Filled m i) (hmi : P.mm + 1 ≤ i) (hi : i < P.nn) :
    wp (ifThenElse (P.poly (P.alpha ^ (i - 1)) ≥ 2 ^ (P.mm - 1))
      (do
        store .alphaTo [(i : ℤ)]
          (Int.xor (← load .alphaTo [(P.mm : ℤ)])
            (Int.xor (← load .alphaTo [(i : ℤ) - 1]) (2 ^ (P.mm - 1)) <<< (1 : ℕ))))
      (do store .alphaTo [(i : ℤ)] ((← load .alphaTo [(i : ℤ) - 1]) <<< (1 : ℕ))))
      (fun _ m' => m' = m.put .alphaTo [(i : ℤ)] (P.poly (P.alpha ^ i)) (inBounds_alphaTo hi.le)) m := by
  have hmm2 := P.two_le_mm
  have hprev := h.previous (by omega)
  have hstep : P.alpha ^ i = P.alpha * P.alpha ^ (i - 1) := by
    rw [← pow_succ', Nat.sub_add_cancel (by omega)]
  by_cases hge : P.poly (P.alpha ^ (i - 1)) ≥ 2 ^ (P.mm - 1)
  · rw [wp_ifThenElse_pos hge]
    simp only [wp_bind]
    rw [wp_load (h.alphaTo P.mm (by omega)), wp_load hprev, wp_store (inBounds_alphaTo hi.le),
      ← P.poly_alpha_pow (by omega : P.mm - 1 < P.mm), P.xor_poly, P.poly_shiftLeft (P.poly_add_top_lt hge),
      P.xor_poly]
    have htop : P.alpha * P.alpha ^ (P.mm - 1) = P.alpha ^ P.mm := by
      rw [← pow_succ', Nat.sub_add_cancel (by omega)]
    have hnext : P.alpha ^ P.mm + P.alpha * (P.alpha ^ (i - 1) + P.alpha ^ (P.mm - 1)) = P.alpha ^ i := by
      rw [mul_add, htop, ← hstep, add_left_comm, P.add_self, add_zero]
    simp only [hnext]
  · rw [wp_ifThenElse_neg hge]
    simp only [wp_bind]
    rw [wp_load hprev, wp_store (inBounds_alphaTo hi.le)]
    simp only [P.poly_shiftLeft (not_le.mp hge), ← hstep]

theorem secondLoop_step {m₀ m : Machine P.dims} {i : ℕ} (hmi : P.mm + 1 ≤ i) (hi : i < P.nn)
    (h : SecondLoop m₀ i m) :
    wp (highPower P (2 ^ (P.mm - 1)) i) (fun _ => SecondLoop m₀ (i + 1)) m := by
  simp only [highPower, wp_bind]
  rw [wp_load (h.filled.previous (by omega))]
  refine wp_mono (wp_storePower h.filled hmi hi) ?_
  rintro _ _ rfl
  rw [wp_load (Machine.cell_put_self _ _ _ _ _), wp_store (inBounds_indexOf _)]
  exact ⟨(h.frame.put (by simp) _ _ _).put (by simp) _ _ _, h.filled.put hi⟩

/-- `generate_gf` leaves the field tables, and touches nothing else. -/
theorem wp_generateGf (m₀ : Machine P.dims) :
    wp (generateGf P) (fun _ m => HasTables m ∧ Frame [.alphaTo, .indexOf] m₀ m) m₀ := by
  have hmm := P.two_le_mm
  have hmn := P.mm_lt_nn
  simp only [generateGf, wp_bind]
  rw [wp_store (inBounds_alphaTo hmn.le)]
  have hfirst := wp_forUp (FirstLoop m₀) (Nat.zero_le P.mm) (a := (1 : ℤ))
    (s := m₀.put .alphaTo [(P.mm : ℤ)] 0 (inBounds_alphaTo hmn.le))
    ⟨(Frame.refl _ m₀).put (by simp) _ _ _, ⟨by simp, by simp⟩, by simp, by simp [FieldParams.lowPart]⟩
    fun i mask m _ hi h => firstLoop_step hi h
  refine wp_mono hfirst fun mask m h => ?_
  have hlow := h.low
  rw [P.lowPart_mm] at hlow
  rw [wp_load hlow, wp_store (inBounds_indexOf _)]
  have hmask : mask >>> (1 : ℕ) = 2 ^ (P.mm - 1) := by
    rw [h.mask, Int.shiftRight_eq_div_pow, show P.mm = P.mm - 1 + 1 by omega, pow_succ]
    simp
  rw [hmask]
  have hsecond := wp_forEach (SecondLoop m₀) (show P.mm + 1 ≤ P.nn by omega)
    (s := m.put .indexOf [P.poly (P.alpha ^ P.mm)] P.mm (inBounds_indexOf _))
    ⟨h.frame.put (by simp) _ _ _, h.filled.next hmn (by simp [Machine.cell_put])
      (by simpa [Machine.cell_put] using hlow) (fun j hj => by simp [Machine.cell_put, hj]) (by simp)⟩
    fun i m hmi hi h => secondLoop_step hmi hi h
  refine wp_mono hsecond fun _ m h => ?_
  have hzero : InBounds (P.dims .indexOf) [0] := by
    simpa using inBounds_indexOf (P := P) 0
  rw [wp_store hzero]
  refine ⟨⟨fun i hi => ?_, fun x => ?_⟩, h.frame.put (by simp) _ _ _⟩
  · rw [Machine.cell_put_of_ne _ _ _ _ (by simp)]
    exact h.filled.alphaTo i hi
  · by_cases hx : x = 0
    · simp [hx]
    · rw [Machine.cell_put_of_idx _ _ _ (by simpa using hx)]
      have := h.filled.indexOf (P.log x) (P.log_lt x)
      rwa [P.alpha_pow_log hx, ← P.index_of_ne_zero hx] at this

end ReedSolomon
