import ReedSolomon.Main.Guarantees
import ReedSolomon.Package.Decode

/-!
# The two decoders agree

Each side builds its tables with its own `generate_gf`, the C program from the start, the package from
any state; then the same word arrives on both sides. The results of the two decoders are the same
(`decoders_agree`).

That is so also for the words on which `decode_rs` stores outside the bounds of `elp` (`Overruns`), the store being
without effect on both sides.
-/

open Imp

namespace ReedSolomon

section Tables

variable (P : CodeParams) (φ : List ℤ → Phase)

theorem sim_lowPower (i : ℕ) (mask : ℤ) : Sim (view P φ) (lowPower P i mask) (Sv.lowPower P i mask) := by
  unfold lowPower Sv.lowPower
  refine sim_bind sim_write fun _ => sim_read fun v => sim_bind sim_write fun _ => sim_bind (sim_ifThen ?_) fun _ => ?_
  · exact sim_read fun v => sim_write
  · exact sim_pure _

theorem sim_highPower (mask : ℤ) (i : ℕ) : Sim (view P φ) (highPower P mask i) (Sv.highPower P mask i) := by
  unfold highPower Sv.highPower
  refine sim_read fun v => sim_bind (refines_ifThenElse ?_ ?_) fun _ => sim_read fun v => sim_write
  · exact sim_read fun v => sim_read fun w => sim_write
  · exact sim_read fun v => sim_write

variable {P φ}

theorem mirrors_start (junk : Arr → List ℤ → ℤ) (m' : Machine (Sv.dims P)) :
    (view P φ).Mirrors (Machine.start junk) m' := by
  intro a b idx _ v hv
  cases hv

theorem mirrors_of_frame {m₁ m₂ : Machine P.dims} {m' : Machine (Sv.dims P)} (hf : Frame [.gg] m₁ m₂)
    (h : (view P φ).Mirrors m₁ m') : (view P φ).Mirrors m₂ m' := by
  intro a b idx hab v hv
  have hne : a ∉ [Arr.gg] := by
    rw [List.mem_singleton]
    rintro rfl
    cases hab
  rw [hf.cell a hne] at hv
  exact h a b idx hab v hv

/-- The package clears one more cell, in which the C program has stored nothing. -/
theorem mirrors_generateGf (junk : Arr → List ℤ → ℤ) (m' : Machine (Sv.dims P)) :
    (view P φ).Mirrors ((generateGf P).exec (Machine.start junk)) ((Sv.generateGf P).exec m') := by
  have hmn := P.mm_lt_nn
  have hmm : InBounds (P.dims .alphaTo) [(P.mm : ℤ)] := inBounds_alphaTo hmn.le
  have hmm' : InBounds (Sv.dims P .alphaTo) [(P.mm : ℤ)] := hmm
  have hnn' : InBounds (Sv.dims P .alphaTo) [(P.nn : ℤ)] := inBounds_alphaTo le_rfl
  have hfaults := (wp_iff_run.mp (wp_generateGf (P := P) (Machine.start junk))).2.faults
  have hclear : (view P φ).Mirrors ((Machine.start junk).put .alphaTo [(P.mm : ℤ)] 0 hmm)
      ((m'.put .alphaTo [(P.mm : ℤ)] 0 hmm').put .alphaTo [(P.nn : ℤ)] 0 hnn') := by
    refine View.Mirrors.put_unset ((mirrors_start junk m').put (View.moves_self rfl) 0 hmm hmm') ?_ 0 hnn'
    intro a _
    have hne : ¬ (a = .alphaTo ∧ [(P.nn : ℤ)] = [(P.mm : ℤ)]) := by
      rintro ⟨-, hi⟩
      rw [List.singleton_inj] at hi
      omega
    rw [Machine.cell_put, if_neg hne]
    rfl
  unfold generateGf at hfaults ⊢
  unfold Sv.generateGf
  rw [exec_bind, exec_store 0 hmm] at hfaults
  rw [exec_bind, exec_bind (store Sv.Arr.alphaTo _ _), exec_bind (store Sv.Arr.alphaTo _ _), exec_store 0 hmm,
    exec_store 0 hmm', exec_store 0 hnn']
  refine (Refines.run (S := Eq) (sim_bind (sim_forUp (sim_lowPower P φ)) fun mask => ?_) hclear
    (doubts_congr hfaults)).2
  refine sim_read fun v => sim_bind sim_write fun _ => ?_
  exact sim_bind (sim_forEach (sim_highPower P φ _)) fun _ => sim_write

theorem sim_receive (r : ℕ → ℤ) : Sim (view P (all .polynomial)) (receive P .recd P.nn r) (Sv.receive P r) :=
  sim_forEach fun _ => refines_store (View.moves_self rfl) rfl

end Tables

theorem Decoded.doubts_eq {P : CodeParams} {x y : ℕ → P.GF} {m m' : Machine P.dims} {code : ℤ}
    (h : Decoded x m code y m') : m'.doubts = m.doubts := by
  rcases h.frame with ⟨_, hf⟩ | ⟨_, hf⟩
  · exact doubts_congr hf.faults
  · rw [doubts_congr hf.faults, doubts_record_store rfl]

theorem mirrors_booted (junk : Arr → List ℤ → ℤ) (m' : Machine (Sv.dims rs255)) :
    (view rs255 (all .polynomial)).Mirrors (booted (Machine.start junk)) (Sv.booted m') := by
  have hT := (wp_iff_run.mp (wp_generateGf (P := rs255) (Machine.start junk))).1
  have hgg := (wp_iff_run.mp (wp_genPoly hT)).2
  unfold booted initialise
  rw [exec_bind]
  exact mirrors_of_frame hgg (mirrors_generateGf junk m')

/-- **The package's decoder does what the C decoder does.** -/
theorem decoders_agree (junk : Arr → List ℤ → ℤ) (m' : Machine (Sv.dims rs255)) (r : ℕ → ℤ)
    (hr : Symbols rs255 255 r) :
    let h := heard (booted (Machine.start junk)) r
    let h' := Sv.heard (Sv.booted m') r
    Sv.returned h' = returned h ∧ ∀ k < 255, (Sv.decoded h').val .msg (line k) = word (decoded h) .recd k := by
  intro h h'
  have hframe := (heard_spec (m := booted (Machine.start junk)) hr).1
  have hmirrors : (view rs255 (all .polynomial)).Mirrors h h' :=
    ((sim_receive r).run (mirrors_booted junk m') (doubts_congr hframe.faults)).2
  obtain ⟨y, hy⟩ := decoded_spec (booted_spec (Machine.start junk)).1.tables hr
  obtain ⟨hcode, hfinal⟩ := (refines_decode rs255 le_rfl).run hmirrors hy.doubts_eq
  refine ⟨hcode.symm, fun k hk => ?_⟩
  have hcell := hfinal .recd .msg (line k) rfl _ (hy.recd k hk)
  have hle : rs255.poly (y k) ≤ 255 := rs255.poly_le (y k)
  have hbyte : Sv.byteOf (rs255.poly (y k)) = rs255.poly (y k) := byteOf_of_lt (rs255.poly_nonneg _) (by omega)
  rw [hy.recd.word_eq hk]
  exact (Machine.val_of_cell hcell).trans hbyte

theorem decoders_agree_counting :
    Sv.returned (Sv.heard (Sv.booted (Sv.elaborated rs255 0)) counting) =
      returned (heard (booted (Machine.start fun _ _ => 0)) counting) :=
  (decoders_agree _ _ counting (symbols_counting le_rfl)).1

end ReedSolomon
