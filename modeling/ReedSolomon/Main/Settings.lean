import ReedSolomon.Main.Words

/-!
# Every setting

What tables, generator polynomial and encoder do whatever values `mm`, `pp`, `tt` and `b0` are given. The encoder
looks up `alpha_to[gg[j]]` without a test for the sentinel: every such entry is there, whatever the message
(`encoder_lookups`). Over the field of the files, for which the multiplier is made, the register holds a remainder
after every pass (`encode_remainders`).
-/

open Imp Finset Polynomial BinaryField

namespace ReedSolomon

/-- `alpha_to` lists the powers of `x` modulo `pp` as bit vectors, and `index_of` is its inverse. -/
structure FieldTables (K : FieldParams) (alphaTo indexOf : ℤ → Option ℤ) : Prop where
  power : ∀ i < K.nn, alphaTo i = some (bitVector (X ^ i %ₘ modulus K.mm K.pp) : ℤ)
  index_power : ∀ i < K.nn, ∃ v, alphaTo i = some v ∧ indexOf v = some (i : ℤ)
  power_index : ∀ v : ℤ, 1 ≤ v → v ≤ K.nn → ∃ e, indexOf v = some e ∧ alphaTo e = some v
  index_zero : indexOf 0 = some (-1)

theorem fieldTables_of {K : FieldParams} {alphaTo indexOf : ℤ → Option ℤ}
    (ha : ∀ i < K.nn, alphaTo (i : ℤ) = some (K.poly (K.alpha ^ i)))
    (hi : ∀ x, indexOf (K.poly x) = some (K.index x)) : FieldTables K alphaTo indexOf where
  power i hin := by
    rw [ha i hin, FieldParams.poly, K.bits_alpha_pow_eq]
  index_power i hin := by
    refine ⟨_, ha i hin, ?_⟩
    rw [hi, K.index_of_ne_zero (K.alpha_pow_ne_zero i), K.log_alpha_pow hin]
  power_index v h1 hv := by
    obtain ⟨x, rfl⟩ := K.exists_poly (by omega) hv
    have hx : x ≠ 0 := by
      rintro rfl
      rw [K.poly_zero] at h1
      omega
    refine ⟨_, hi x, ?_⟩
    rw [K.index_of_ne_zero hx, ha _ (K.log_lt x), K.alpha_pow_log hx]
  index_zero := by
    have h := hi 0
    rwa [K.poly_zero, K.index_zero] at h

variable {P : CodeParams}

theorem HasTables.fieldTables {m : Machine P.dims} (h : HasTables m) :
    FieldTables P.toFieldParams (fun i => m.cell .alphaTo [i]) (fun v => m.cell .indexOf [v]) :=
  fieldTables_of h.alphaTo h.indexOf

variable (P) in
theorem initialise_spec (m : Machine P.dims) :
    Initialised ((initialise P).exec m) ∧ Frame [.alphaTo, .indexOf, .gg] m ((initialise P).exec m) :=
  wp_iff_run.mp (wp_initialise m)

/-- **The generator polynomial.** -/
theorem generator_indices (P : CodeParams) (m : Machine P.dims) :
    ∀ j ≤ 2 * P.tt, ((initialise P).exec m).cell .gg [(j : ℤ)] =
      some (P.index ((∏ i ∈ range (2 * P.tt), (X + C (P.alpha ^ (P.b0 + i)))).coeff j)) :=
  (initialise_spec P m).1.gg

theorem generator_top_rs255 :
    ((initialise rs255).exec (Machine.fresh _)).cell .gg [((2 * rs255.tt : ℕ) : ℤ)] = some 0 := by
  have h := generator_indices rs255 (Machine.fresh _) (2 * rs255.tt) le_rfl
  have hone : (∏ i ∈ range (2 * rs255.tt), (X + C (rs255.alpha ^ (rs255.b0 + i)))).coeff (2 * rs255.tt) = 1 :=
    generator_coeff_self _
  rwa [hone, rs255.index_one] at h

/-! ### Any message -/

/-- The first `n` cells of the array `a` hold something. -/
def Stored (m : Machine P.dims) (a : Arr) (n : ℕ) : Prop := ∀ k < n, ∃ v, m.cell a (line k) = some v

namespace Stored

variable {m m' : Machine P.dims} {a : Arr} {n : ℕ}

theorem of_frame {W : List Arr} (h : Stored m a n) (hf : Frame W m m') (ha : a ∉ W) : Stored m' a n := by
  intro k hk
  rw [hf.cell _ ha]
  exact h k hk

theorem put (h : Stored m a n) (i : List ℤ) (v : ℤ) (hb : InBounds (P.dims a) i) : Stored (m.put a i v hb) a n := by
  intro k hk
  by_cases hki : line k = i
  · subst hki
    exact ⟨v, Machine.cell_put_self _ _ _ _ _⟩
  · rw [Machine.cell_put_of_idx _ _ _ hki]
    exact h k hk

end Stored

/-- What a pass over the register keeps, whatever symbols are in it. -/
structure Running (m s : Machine P.dims) : Prop where
  frame : Frame [.bb] m s
  bb : Stored s .bb (2 * P.tt)

theorem Running.put {m s : Machine P.dims} (h : Running m s) (i : List ℤ) (v : ℤ) (hb : InBounds (P.dims .bb) i) :
    Running m (s.put .bb i v hb) :=
  ⟨h.frame.put (List.mem_singleton_self _) _ _ _, h.bb.put i v hb⟩

theorem Running.prev {m s : Machine P.dims} (h : Running m s) {j : ℕ} (hj : 1 ≤ j) (hjn : j < 2 * P.tt) :
    ∃ v, s.cell .bb [(j : ℤ) - 1] = some v := by
  have := h.bb (j - 1) (by omega)
  rwa [line, Nat.cast_sub hj] at this

/-- No pass of `encode_rs` reads a cell that holds nothing. -/
theorem running_encodeStep {m s : Machine P.dims} (hI : Initialised m) (hD : Stored m .data P.kk) {i : ℕ}
    (hi : i < P.kk) (h : Running m s) : wp (encodeStep P i) (fun _ => Running m) s := by
  have htt := P.one_le_tt
  have hb0 : InBounds (P.dims .bb) [0] := inBounds_bb (j := 0) (by omega)
  obtain ⟨x, hx⟩ := hD.of_frame h.frame (by simp) i hi
  obtain ⟨y, hy⟩ : ∃ y, s.cell .bb [((P.nn : ℕ) : ℤ) - (P.kk : ℕ) - 1] = some y := by
    have hkk := P.kk_add
    rw [show ((P.nn : ℕ) : ℤ) - (P.kk : ℕ) - 1 = ((2 * P.tt - 1 : ℕ) : ℤ) by omega]
    exact h.bb _ (by omega)
  simp only [encodeStep, wp_bind]
  rw [wp_load hx, wp_load hy, P.nn_sub_kk]
  by_cases hz : Int.xor x y = 0
  · rw [wp_ifThenElse_neg (by simpa using hz)]
    apply wp_seq (wp_forDown (fun _ => Running m) (show 1 ≤ 2 * P.tt by omega) h ?_)
    · intro _ t ht
      rw [wp_store hb0]
      exact ht.put _ _ hb0
    · intro j t hj hjn ht
      obtain ⟨v, hv⟩ := ht.prev hj hjn
      simp only [wp_bind]
      rw [wp_load hv, wp_store (inBounds_bb hjn)]
      exact ht.put _ _ _
  · have hlook : ∀ t, Running m t → ∀ j < 2 * P.tt, ∃ e v, t.cell .gg [(j : ℤ)] = some e ∧
        t.cell .alphaTo [e] = some v := by
      intro t ht j hj
      have hIt := hI.of_frame ht.frame (by simp) (by simp) (by simp)
      exact ⟨_, _, hIt.gg j hj.le, hIt.alphaTo_gg hj⟩
    rw [wp_ifThenElse_pos (by simpa using hz)]
    apply wp_seq (wp_forDown (fun _ => Running m) (show 1 ≤ 2 * P.tt by omega) h ?_)
    · intro _ t ht
      obtain ⟨e, v, he, hv⟩ := hlook t ht 0 (by omega)
      simp only [wp_bind]
      rw [Nat.cast_zero] at he
      rw [wp_load he, wp_load hv, wp_store hb0]
      exact ht.put _ _ hb0
    · intro j t hj hjn ht
      obtain ⟨w, hw⟩ := ht.prev hj hjn
      obtain ⟨e, v, he, hv⟩ := hlook t ht j hjn
      simp only [wp_bind]
      rw [wp_load hw, wp_load he, wp_load hv, wp_store (inBounds_bb hjn)]
      exact ht.put _ _ _

theorem running_encodeRs {m : Machine P.dims} (hI : Initialised m) (hD : Stored m .data P.kk) :
    wp (encodeRs P) (fun _ => Running m) m := by
  rw [encodeRs, P.nn_sub_kk]
  apply wp_seq (wp_forEach_wrote .bb line (fun _ => 0) (Nat.zero_le (2 * P.tt)) ?_)
  · intro _ s hs
    apply wp_forDown (fun _ => Running m) (Nat.zero_le _) ⟨hs.frame, fun k hk => ⟨0, hs.new k (by simpa using hk)⟩⟩
    intro i t _ hi ht
    exact running_encodeStep hI hD hi ht
  · intro i s _ hi hs
    rw [wp_store (inBounds_bb hi)]
    exact hs.put line_injective i (inBounds_bb hi)

/-- **The encoder never looks up the sentinel.** -/
theorem encoder_lookups (P : CodeParams) (m : Machine P.dims) :
    let t := (initialise P).exec m
    (∀ j ≤ 2 * P.tt, (generator P (2 * P.tt)).coeff j ≠ 0) ∧
      (∀ j ≤ 2 * P.tt, ∃ e v : ℤ, t.cell .gg [(j : ℤ)] = some e ∧ 0 ≤ e ∧ e < P.nn ∧ t.cell .alphaTo [e] = some v) ∧
      ∀ data : ℕ → ℤ, ((encode P data).exec t).faults = m.faults := by
  intro t
  obtain ⟨hI, hf⟩ := initialise_spec P m
  refine ⟨fun j hj => generator_coeff_ne_zero hj, fun j hj => ?_, fun data => ?_⟩
  · have hne := generator_coeff_ne_zero (P := P) hj
    refine ⟨_, _, hI.gg j hj, ?_, ?_, hI.tables.alphaTo_index hne⟩
    · rw [P.index_of_ne_zero hne]
      exact Int.natCast_nonneg _
    · rw [P.index_of_ne_zero hne]
      exact_mod_cast P.log_lt _
  · have hrun : wp (encode P data) (fun _ s => s.faults = t.faults) t := by
      apply wp_seq (wp_forEach_wrote .data line data (Nat.zero_le P.kk) ?_)
      · intro _ s hs
        have hIs := hI.of_frame hs.frame (by simp) (by simp) (by simp)
        apply wp_mono (running_encodeRs hIs fun k hk => ⟨data k, hs.new k (by simpa using hk)⟩)
        intro _ s' hs'
        rw [hs'.frame.faults, hs.frame.faults]
      · intro k s _ hk hs
        rw [wp_store (inBounds_data hk)]
        exact hs.put line_injective k (inBounds_data hk)
    exact (wp_iff_run.mp hrun).trans hf.faults

/-! ### The register after each pass -/

/-- A message arrives and is taken in down to `data[i]`. -/
def encodePart (P : CodeParams) (data : ℕ → ℤ) (i : ℕ) : Code P Unit := do
  receive P .data P.kk data
  encodeDownTo P i

theorem encode_eq (data : ℕ → ℤ) {i : ℕ} (hi : i ≤ P.kk) :
    encode P data = (encodePart P data i >>= fun _ => forDown 0 i (encodeStep P)) := by
  rw [encode, encodeRs, forDown_split (Nat.zero_le i) hi]
  rfl

/-- **The register holds a remainder after every pass.** -/
theorem encode_remainders (P : CodeParams) (hP : P.toFieldParams = byteField) (m : Machine P.dims) (data : ℕ → ℤ)
    (hdata : Symbols P P.kk data) :
    let t := (initialise P).exec m
    let g := ∏ i ∈ range (2 * P.tt), (X + C (P.alpha ^ (P.b0 + i)))
    let D := elements P data
    (∀ j < 2 * P.tt, word ((encode P data).exec t) .bb j =
      P.poly (((∑ k ∈ range P.kk, C (D k) * X ^ k) * X ^ (P.nn - P.kk) %ₘ g).coeff j)) ∧
    ∀ i < P.kk, encode P data = (encodePart P data i >>= fun _ => forDown 0 i (encodeStep P)) ∧
      ∀ j < 2 * P.tt, word ((encodePart P data i).exec t) .bb j =
        P.poly (((∑ k ∈ range (P.kk - i), C (D (i + k)) * X ^ k) * X ^ (P.nn - P.kk) %ₘ g).coeff j) := by
  intro t g D
  have hI := (initialise_spec P m).1
  have hpart : ∀ i ≤ P.kk, ∀ j < 2 * P.tt, word ((encodePart P data i).exec t) .bb j =
      P.poly ((remainder P D i).coeff j) := by
    intro i hi j hj
    have hrun : wp (encodePart P data i) (fun _ m' => HasRegister m' (remainder P D i)) t := by
      apply wp_seq (wp_receive (fun k hk => (poly_elements hdata hk).symm) fun k hk => inBounds_data hk)
      intro _ m₁ h₁
      apply wp_mono (wp_encodeDownTo (galoisMul_of_byteField hP) (hI.of_frame h₁.1 (by simp) (by simp) (by simp)) h₁.2 hi)
      intro _ m₂ h₂
      exact h₂.2
    exact (wp_iff_run.mp hrun).word_eq hj
  rw [P.nn_sub_kk]
  refine ⟨fun j hj => ?_, fun i hi => ⟨encode_eq data hi.le, hpart i hi.le⟩⟩
  have hall := hpart 0 (Nat.zero_le _) j hj
  rw [remainder, suffix] at hall
  simp only [Nat.sub_zero, Nat.zero_add] at hall
  exact hall

theorem encode_remainders_counting : word ((encode rs255 fun k => k).exec ((initialise rs255).exec
    (Machine.fresh _))) .bb 15 = rs255.poly (((∑ k ∈ range 239, C (elements rs255 (fun k => k) k) * X ^ k) * X ^ 16 %ₘ
      ∏ i ∈ range 16, (X + C (rs255.alpha ^ (0 + i)))).coeff 15) := by
  have hdata : Symbols rs255 rs255.kk fun k => k := by
    intro k hk
    have hlt : k < 239 := hk
    exact ⟨Int.natCast_nonneg k, by show (k : ℤ) ≤ 255; omega⟩
  exact (encode_remainders rs255 rfl (Machine.fresh _) (fun k => k) hdata).1 15 (by decide)

end ReedSolomon
