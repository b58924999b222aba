import ReedSolomon.Hardware.Lanes
import ReedSolomon.Main.Guarantees
import ReedSolomon.Spec.TestRsEncoder

/-!
# The package without its tables

`alpha_to` and `index_of` start with 0, and the bench calls nothing that fills them. Then `decode` sees no error
in any word and leaves 0 in all of its places (`wp_decode_blank`), so the bench finds its data again only where they
are 0 (`bench_blames_iff`).
-/

open Imp

namespace ReedSolomon

namespace Sv

variable {P : CodeParams}

/-- The tables hold 0 everywhere. -/
structure Blank (m : Machine (dims P)) : Prop where
  alphaTo : ∀ i : ℤ, 0 ≤ i → i ≤ P.nn → m.cell .alphaTo [i] = some 0
  indexOf : ∀ i : ℤ, 0 ≤ i → i ≤ P.nn → m.cell .indexOf [i] = some 0

/-- The first `n` places of `a` hold 0. -/
def Cleared (m : Machine (dims P)) (a : Arr) (n : ℕ) : Prop := ∀ k < n, m.cell a (line k) = some 0

/-- Every symbol of `msg` is a place of the tables. -/
def HasBytes (m : Machine (dims P)) : Prop := ∀ k < P.nn, ∃ v, 0 ≤ v ∧ v ≤ (P.nn : ℤ) ∧ m.cell .msg (line k) = some v

theorem blank_elaborated (unknown : ℤ) : Blank (elaborated P unknown) := by
  refine ⟨fun i h0 hi => if_pos ⟨by simp, ?_⟩, fun i h0 hi => if_pos ⟨by simp, ?_⟩⟩
  · simp only [dims, inBounds_cons, inBounds_nil, and_true]
    omega
  · simp only [dims, inBounds_cons, inBounds_nil, and_true]
    omega

theorem Blank.of_keeps {W : List Arr} {m m' : Machine (dims P)} (h : Blank m) (hk : Keeps W m m')
    (ha : .alphaTo ∉ W) (hi : .indexOf ∉ W) : Blank m' :=
  ⟨fun i h0 hin => by rw [hk.cell _ ha, h.alphaTo i h0 hin], fun i h0 hin => by rw [hk.cell _ hi, h.indexOf i h0 hin]⟩

theorem Cleared.of_keeps {W : List Arr} {m m' : Machine (dims P)} {a : Arr} {n : ℕ} (h : Cleared m a n)
    (hk : Keeps W m m') (ha : a ∉ W) : Cleared m' a n := fun k hkn => by
  rw [hk.cell _ ha]
  exact h k hkn

theorem HasBytes.of_keeps {W : List Arr} {m m' : Machine (dims P)} (h : HasBytes m) (hk : Keeps W m m')
    (ha : .msg ∉ W) : HasBytes m' := fun k hkn => by
  rw [hk.cell _ ha]
  exact h k hkn

theorem inBounds_msg {k : ℕ} (hk : k < P.nn) : InBounds (dims P .msg) (line k) := by
  simp only [dims, inBounds_cons, inBounds_nil, and_true]
  omega

theorem inBounds_s {i : ℕ} (hi : i ≤ P.nn - P.kk) : InBounds (dims P .s) (line i) := by
  simp only [dims, inBounds_cons, inBounds_nil, and_true]
  omega

/-! ### The passes of `decode` -/

theorem wp_toIndexForm_blank {m : Machine (dims P)} (hB : Blank m) (hm : HasBytes m) :
    wp (toIndexForm P) (fun _ m' => Frame [.msgTemp] m m' ∧ Cleared m' .msgTemp P.nn) m := by
  refine wp_mono (wp_forEach_wrote .msgTemp line (fun _ => 0) (Nat.zero_le P.nn) fun k s _ hk hs => ?_) fun _ m' h =>
    ⟨h.frame, fun k hk => h.new k (by simpa using hk)⟩
  obtain ⟨v, h0, hv, hload⟩ := hm.of_keeps hs.frame.keeps (by simp) k hk
  have hb : InBounds (dims P .msgTemp) (line k) := inBounds_msg hk
  simp only [wp_bind]
  rw [wp_load hload, wp_load ((hB.of_keeps hs.frame.keeps (by simp) (by simp)).indexOf v h0 hv), wp_store hb]
  exact hs.put line_injective k hb

theorem wp_syndromeTerm_blank {m : Machine (dims P)} (hB : Blank m) (ht : Cleared m .msgTemp P.nn) {i j : ℕ}
    (hi : 1 ≤ i) (hb : InBounds (dims P .s) (line i)) (hj : j < P.nn) :
    wp (syndromeTerm P i j) (fun _ m' => m' = m.put .s (line i) 0 hb) (m.put .s (line i) 0 hb) := by
  have hk : Keeps [.s] m (m.put .s (line i) 0 hb) := (Keeps.refl _ m).put (by simp) _ _ _
  have hload := ht.of_keeps hk (by simp) j hj
  have hnonneg : (0 : ℤ) ≤ 0 + (P.b0 + i - 1) * j := by
    rw [zero_add]
    exact mul_nonneg (by omega) (Int.natCast_nonneg j)
  have hpos : (0 : ℤ) < P.nn := Int.natCast_pos.mpr P.nn_pos
  have hlook := (hB.of_keeps hk (by simp) (by simp)).alphaTo _ (Int.emod_nonneg (0 + (P.b0 + i - 1) * j) hpos.ne')
    (Int.emod_lt_of_pos _ hpos).le
  simp only [syndromeTerm, wp_bind]
  rw [wp_load hload, wp_ifThen_pos (by decide)]
  simp only [wp_bind]
  rw [wp_load hload, wp_rem hnonneg, wp_load (Machine.cell_put_self _ _ _ _ _), wp_load hlook, wp_store hb,
    Machine.put_put]
  rfl

theorem wp_syndromes_blank {m : Machine (dims P)} (hB : Blank m) (ht : Cleared m .msgTemp P.nn) :
    wp (syndromes P) (fun b m' => Keeps [.s] m m' ∧ b = false) m := by
  have hle : 1 ≤ P.nn - P.kk + 1 := by omega
  refine wp_forUp (fun _ b s => Keeps [.s] m s ∧ b = false) hle ⟨Keeps.refl _ m, rfl⟩ fun i b s hi hin ⟨hs, hb⟩ => ?_
  have hBs := hB.of_keeps hs (by simp) (by simp)
  have hts := ht.of_keeps hs (by simp)
  have hin' : InBounds (dims P .s) (line i) := inBounds_s (by omega)
  simp only [wp_bind]
  rw [wp_store hin']
  refine wp_mono (wp_forEach (fun _ s' => s' = s.put .s (line i) 0 hin') (Nat.zero_le P.nn) rfl fun j s' _ hj hs' => ?_) ?_
  · subst hs'
    exact wp_syndromeTerm_blank hBs hts hi hin' hj
  · intro _ s' hs'
    subst hs'
    have hput : Keeps [.s] s (s.put .s (line i) 0 hin') := (Keeps.refl _ s).put (by simp) _ _ _
    rw [wp_load (Machine.cell_put_self _ _ _ _ _), wp_load (Machine.cell_put_self _ _ _ _ _),
      wp_load ((hBs.of_keeps hput (by simp) (by simp)).indexOf 0 le_rfl (Int.natCast_nonneg _)), wp_store hin', wp_pure]
    exact ⟨(hs.trans hput).put (by simp) _ _ _, by simpa using hb⟩

/-- Index 0 stands for `alpha_to[0]`, which is 0. -/
theorem wp_restoreMsg_blank {m : Machine (dims P)} (hB : Blank m) (ht : Cleared m .msgTemp P.nn) :
    wp (restoreMsg P) (fun _ m' => Frame [.msg] m m' ∧ Cleared m' .msg P.nn) m := by
  refine wp_mono (wp_forEach_wrote .msg line (fun _ => 0) (Nat.zero_le P.nn) fun k s _ hk hs => ?_) fun _ m' h =>
    ⟨h.frame, fun k hk => h.new k (by simpa using hk)⟩
  have hload := ht.of_keeps hs.frame.keeps (by simp) k hk
  have hb : InBounds (dims P .msg) (line k) := inBounds_msg hk
  simp only [restoreSymbol, wp_bind]
  rw [wp_load hload, wp_ifThenElse_pos (by decide)]
  simp only [wp_bind]
  rw [wp_load hload, wp_load ((hB.of_keeps hs.frame.keeps (by simp) (by simp)).alphaTo 0 le_rfl (Int.natCast_nonneg _)), wp_store hb]
  exact hs.put line_injective k hb

theorem wp_decode_blank {m : Machine (dims P)} (hB : Blank m) (hm : HasBytes m) :
    wp (decode P) (fun code m' => code = 0 ∧ Keeps (.msg :: decodeLocals) m m' ∧ Cleared m' .msg P.nn) m := by
  have hk₁ : Keeps decodeLocals m (m.undefine decodeLocals) := (Frame.undefine m _).keeps
  have hB₁ := hB.of_keeps hk₁ (by decide) (by decide)
  unfold decode
  rw [wp_bind, wp_declare]
  refine wp_seq (wp_toIndexForm_blank hB₁ (hm.of_keeps hk₁ (by decide))) fun _ m₂ ⟨hf₂, ht₂⟩ => ?_
  have hB₂ := hB₁.of_keeps hf₂.keeps (by simp) (by simp)
  refine wp_seq (wp_syndromes_blank hB₂ ht₂) fun flag m₃ ⟨hk₃, hflag⟩ => ?_
  subst hflag
  rw [wp_ite, if_neg Bool.false_ne_true]
  refine wp_seq (wp_restoreMsg_blank (hB₂.of_keeps hk₃ (by simp) (by simp)) (ht₂.of_keeps hk₃ (by simp)))
    fun _ m₄ ⟨hf₄, hzero⟩ => ?_
  rw [wp_pure]
  refine ⟨rfl, ?_, hzero⟩
  refine ((hk₁.mono (by simp)).trans (hf₂.keeps.mono (by simp [decodeLocals]))).trans ?_
  exact (hk₃.mono (by simp [decodeLocals])).trans (hf₄.keeps.mono (by simp))

end Sv

end ReedSolomon
