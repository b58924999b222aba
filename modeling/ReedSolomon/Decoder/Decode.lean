import ReedSolomon.Decoder.Correction

/-!
# `decode_rs`

The four exits of `decode_rs` put together (`wp_decodeRs`): what is returned, what is left in `recd`, and
that nothing is noted on the way but the store of `Overruns`.
-/

open Imp Finset Polynomial Recurrence

namespace ReedSolomon

variable {P : CodeParams}

/-- What the return value `code` says about the received word `x` and the word `y` left in `recd`. -/
inductive Outcome (P : CodeParams) (x y : ℕ → P.GF) : ℤ → Prop
  | clean : IsCodeword P x → (∀ k < P.nn, y k = x k) → Outcome P x y 0
  | corrected : ¬ IsCodeword P x → IsCodeword P y → (differing P x y).card ≤ P.tt → Outcome P x y 1
  | tooManyRoots : ¬ IsCodeword P x → (∀ k < P.nn, y k = x k) →
      (∀ v, IsCodeword P v → P.tt < (differing P x v).card) → Outcome P x y 2
  | tooLong : ¬ IsCodeword P x → (∀ k < P.nn, y k = x k) →
      (∀ v, IsCodeword P v → P.tt < (differing P x v).card) → Outcome P x y 3

namespace Outcome

variable {x y : ℕ → P.GF} {code : ℤ}

theorem eq_codeword (h : Outcome P x y code) {v : ℕ → P.GF} (hv : IsCodeword P v)
    (hcard : (differing P x v).card ≤ P.tt) : ∀ k < P.nn, y k = v k := by
  cases h with
  | clean hx hy => exact fun k hk => (hy k hk).trans (codeword_eq hx hv (by omega) hk)
  | corrected hx hy hnear =>
    exact fun k hk => codeword_eq hy hv ((card_differing_le x y v).trans (by omega)) hk
  | tooManyRoots hx hy hfar => exact absurd (hfar v hv) (not_lt.mpr hcard)
  | tooLong hx hy hfar => exact absurd (hfar v hv) (not_lt.mpr hcard)

theorem code_eq_zero_iff (h : Outcome P x y code) : code = 0 ↔ IsCodeword P x := by
  cases h with
  | clean hx hy => exact ⟨fun _ => hx, fun _ => rfl⟩
  | corrected hx hy hnear => exact ⟨fun h => absurd h (by decide), fun h => absurd h hx⟩
  | tooManyRoots hx hy hfar => exact ⟨fun h => absurd h (by decide), fun h => absurd h hx⟩
  | tooLong hx hy hfar => exact ⟨fun h => absurd h (by decide), fun h => absurd h hx⟩

theorem code_eq (h : Outcome P x y code) {v : ℕ → P.GF} (hv : IsCodeword P v)
    (hcard : (differing P x v).card ≤ P.tt) : code = if differing P x v = ∅ then 0 else 1 := by
  have hzero := h.code_eq_zero_iff
  split_ifs with hnone
  · exact hzero.mpr (hv.congr (differing_eq_empty.mp hnone))
  · cases h with
    | clean hx hy => exact absurd (differing_eq_empty.mpr fun k hk => codeword_eq hx hv (by omega) hk) hnone
    | corrected hx hy hnear => rfl
    | tooManyRoots hx hy hfar => exact absurd (hfar v hv) (not_lt.mpr hcard)
    | tooLong hx hy hfar => exact absurd (hfar v hv) (not_lt.mpr hcard)

theorem of_one (h : Outcome P x y code) (hcode : code = 1) :
    ¬ IsCodeword P x ∧ IsCodeword P y ∧ (differing P x y).card ≤ P.tt := by
  cases h with
  | clean hx hy => exact absurd hcode (by decide)
  | corrected hx hy hnear => exact ⟨hx, hy, hnear⟩
  | tooManyRoots hx hy hfar => exact absurd hcode (by decide)
  | tooLong hx hy hfar => exact absurd hcode (by decide)

theorem eq_received (h : Outcome P x y code) (hcode : code ≠ 1) : ∀ k < P.nn, y k = x k := by
  cases h with
  | clean hx hy => exact hy
  | corrected hx hy hnear => exact absurd rfl hcode
  | tooManyRoots hx hy hfar => exact hy
  | tooLong hx hy hfar => exact hy

end Outcome

/-- The arrays `decode_rs` writes. -/
def written : List Arr := .recd :: decodeLocals

/-- Everything `decode_rs` does: its result, the final `recd`, and what was noted. -/
structure Decoded (x : ℕ → P.GF) (m : Machine P.dims) (code : ℤ) (y : ℕ → P.GF) (m' : Machine P.dims) : Prop where
  outcome : Outcome P x y code
  recd : HoldsWord m' .recd P.nn y
  frame : ¬ Overruns P (terms P x) ∧ Frame written m m' ∨
    Overruns P (terms P x) ∧ Frame written (m.record (overrun P)) m'
  degree : code = 1 → m'.cell .l (line ((lastRow P).eval m)) = some ((differing P x y).card : ℤ)

/-- Everything `decode_rs` does, and what its locals show of it: nothing was stored in `s[0]`, and the roots that were
corrected are still there. -/
structure Finished (x : ℕ → P.GF) (m : Machine P.dims) (code : ℤ) (y : ℕ → P.GF) (m' : Machine P.dims) : Prop
    extends Decoded x m code y m' where
  unused : m'.cell .s (line 0) = none
  roots : code = 1 → ∃ (σ : P.GF[X]) (rt : ℕ → ℕ), RootList σ (P.nn + 1) (differing P x y).card rt ∧
    HasRoots (differing P x y).card rt m'

/-- `recd` in index form and the syndromes formed, everything else as after the declarations. -/
structure Indexed (x : ℕ → P.GF) (m₀ m : Machine P.dims) : Prop where
  tables : HasTables m
  recd : HoldsIndex m .recd P.nn x
  terms : HasTerms m (terms P x)
  frame : Frame [.recd, .s] (m₀.undefine decodeLocals) m
  unused : m.cell .s (line 0) = none

theorem Indexed.written {x : ℕ → P.GF} {m₀ m : Machine P.dims} (h : Indexed x m₀ m) : Frame written m₀ m :=
  ((Frame.undefine m₀ decodeLocals).mono (V := ReedSolomon.written) (by simp [ReedSolomon.written, decodeLocals])).trans
    (h.frame.mono (by simp [ReedSolomon.written, decodeLocals]))

section Exits

variable {x : ℕ → P.GF} {m₀ m : Machine P.dims}

theorem wp_giveUp (hT : HasTables m) (hx : HoldsIndex m .recd P.nn x) (hs : m.cell .s (line 0) = none) {code : ℤ}
    (hcode : ∀ y, (∀ k < P.nn, y k = x k) → Outcome P x y code) (hne : code ≠ 1)
    (hf : ¬ Overruns P (terms P x) ∧ Frame written m₀ m ∨
      Overruns P (terms P x) ∧ Frame written (m₀.record (overrun P)) m) :
    wp (do
      restoreRecd P
      pure code) (fun code m' => ∃ y, Finished x m₀ code y m') m := by
  refine wp_seq (wp_restoreRecd hT hx) fun _ m' ⟨hf', hx'⟩ => ?_
  have hw : Frame written m m' := hf'.mono (by simp [written])
  rw [wp_pure]
  refine ⟨x, ⟨hcode x fun _ _ => rfl, hx', hf.imp (fun h => ⟨h.1, h.2.trans hw⟩) (fun h => ⟨h.1, h.2.trans hw⟩),
    fun h => absurd h hne⟩, ?_, fun h => absurd h hne⟩
  rw [hf'.cell _ (by simp), hs]

theorem lt_differing_of_table {rows : ℕ → Row P.GF} {u : ℕ} (h : Table (terms P x) rows u) (hu : u ≤ 2 * P.tt + 1)
    (hlen : P.tt < (rows u).len) (v : ℕ → P.GF) (hv : IsCodeword P v) : P.tt < (differing P x v).card := by
  have := h.shortest u h.one_le le_rfl _ _ ((generates_of_codeword hv).mono (show u - 1 ≤ 2 * P.tt by omega))
  omega

theorem lt_differing_of_roots {rows : ℕ → Row P.GF} (h : Table (terms P x) rows (2 * P.tt + 1)) {count : ℕ}
    {rt : ℕ → ℕ} (hlist : RootList (rows (2 * P.tt + 1)).poly (P.nn + 1) count rt)
    (hcount : count ≤ (rows (2 * P.tt + 1)).len) (hne : count ≠ (rows (2 * P.tt + 1)).len) (v : ℕ → P.GF)
    (hv : IsCodeword P v) : P.tt < (differing P x v).card := by
  by_contra hle
  have hgen := h.generates (2 * P.tt + 1) (by omega) le_rfl
  have hshort := h.shortest (2 * P.tt + 1) (by omega) le_rfl _ _ (generates_of_codeword (x := x) hv)
  exact hne (card_roots_eq hv hlist hgen hshort (by omega) hcount)

end Exits

/-- What `decode_rs` does once the iteration has ended in row `u`. -/
def exits (P : CodeParams) (u : ℕ) : Code P ℤ := do
  if (← load .l [(u : ℤ)]) ≤ P.tt then
    locatorToIndex P u
    let count ← rootSearch P u
    if count = (← load .l [(u : ℤ)]) then
      correct P u
      pure 1
    else
      restoreRecd P
      pure 2
  else
    restoreRecd P
    pure 3

section Behind

variable {m₀ m₃ m : Machine P.dims} {x : ℕ → P.GF} (h₃ : Indexed x m₀ m₃) (hno : ¬ IsCodeword P x)

include h₃ hno

theorem wp_exits_short {rows : ℕ → Row P.GF} (h : HasTable m₃ (terms P x) rows (2 * P.tt + 1) m)
    (hL : (rows (2 * P.tt + 1)).len ≤ P.tt) (hover : ¬ Overruns P (terms P x))
    (hu : 2 * P.tt + 1 = (lastRow P).eval m₀) :
    wp (exits P (2 * P.tt + 1)) (fun code m' => ∃ y, Finished x m₀ code y m') m := by
  have htt := P.one_le_tt
  have hgen := h.table.generates (2 * P.tt + 1) h.table.one_le le_rfl
  have hw : Frame written m₀ m := h₃.written.trans (h.frame.mono (by simp [written, decodeLocals]))
  have hxm := h₃.recd.of_frame h.frame (by simp)
  rw [exits, wp_bind, wp_load (h.l _ le_rfl), wp_ite, if_pos (by omega)]
  refine wp_seq (wp_locatorToIndex h₃.tables h le_rfl hL) fun _ m₁ ⟨hf₁, hloc⟩ => ?_
  refine wp_seq (wp_rootSearch hloc hgen.coeff_zero hgen.natDegree_le hL)
    fun count m₂ ⟨hf₂, hcount, rt, hlist, hrt⟩ => ?_
  have hloc₂ := hloc.of_frame hf₂ (by simp) (by simp) (by simp) (by simp)
  have hx₂ := (hxm.of_frame hf₁ (by simp)).of_frame hf₂ (by simp)
  have hw₂ : Frame written m₀ m₂ := (hw.trans (hf₁.mono (by simp [written, decodeLocals]))).trans
    (hf₂.mono (by simp [written, decodeLocals]))
  have hs₂ : m₂.cell .s = m₃.cell .s :=
    ((hf₂.cell _ (by simp)).trans (hf₁.cell _ (by simp))).trans (h.frame.cell _ (by simp))
  rw [wp_bind, wp_load hloc₂.len, wp_ite]
  split_ifs with hall
  · obtain rfl : count = (rows (2 * P.tt + 1)).len := by omega
    have hS₂ : HasTerms m₂ (terms P x) := fun k hk hkt => by rw [hs₂]; exact h₃.terms k hk hkt
    have hshort := h.table.shortest (2 * P.tt + 1) (by omega) le_rfl
    have hcard := card_differing_corrected hlist hgen hshort
    refine wp_seq (wp_correct hS₂ hloc₂ hgen.coeff_zero (terms_zero x) hL hlist hrt hx₂) fun _ m' ⟨hf', hy⟩ => ?_
    rw [wp_pure]
    refine ⟨_, ⟨Outcome.corrected hno (isCodeword_corrected hlist hgen) (by rw [hcard]; exact hL), hy,
      Or.inl ⟨hover, hw₂.trans (hf'.mono (by simp [written, decodeLocals]))⟩, fun _ => ?_⟩, ?_, fun _ => ?_⟩
    · rw [hcard, ← hu, hf'.cell _ (by simp), hloc₂.len]
    · rw [hf'.cell _ (by simp), hs₂, h₃.unused]
    · rw [hcard]
      exact ⟨_, rt, hlist, hrt.of_frame hf' (by simp) (by simp)⟩
  · refine wp_giveUp hloc₂.tables hx₂ (by rw [hs₂, h₃.unused])
      (fun y hy => Outcome.tooManyRoots hno hy fun v hv => ?_) (by decide) (Or.inl ⟨hover, hw₂⟩)
    exact lt_differing_of_roots h.table hlist hcount (by omega) v hv

theorem wp_exits_long {rows : ℕ → Row P.GF} {u : ℕ} (h : HasTable m₃ (terms P x) rows u m) (hule : u ≤ 2 * P.tt + 1)
    (hlen : P.tt < (rows u).len) (hover : ¬ Overruns P (terms P x)) :
    wp (exits P u) (fun code m' => ∃ y, Finished x m₀ code y m') m := by
  have hw : Frame written m₀ m := h₃.written.trans (h.frame.mono (by simp [written, decodeLocals]))
  rw [exits, wp_bind, wp_load (h.l u le_rfl), wp_ite, if_neg (by omega)]
  refine wp_giveUp (h.hasTables h₃.tables) (h₃.recd.of_frame h.frame (by simp)) ?_ (fun y hy =>
    Outcome.tooLong hno hy fun v hv => lt_differing_of_table h.table hule hlen v hv) (by decide) (Or.inl ⟨hover, hw⟩)
  rw [h.frame.cell _ (by simp), h₃.unused]

theorem wp_exits_overrun (hover : Overran m₃ (terms P x) m) :
    wp (exits P (2 * P.tt + 1)) (fun code m' => ∃ y, Finished x m₀ code y m') m := by
  have htt := P.one_le_tt
  have hT' : HasTables m := ⟨fun i hi => by rw [hover.frame.cell _ (by simp)]; exact h₃.tables.alphaTo i hi,
    fun z => by rw [hover.frame.cell _ (by simp)]; exact h₃.tables.indexOf z⟩
  have hxm : HoldsIndex m .recd P.nn x := fun k hk => by
    rw [hover.frame.cell _ (by simp)]
    exact h₃.recd k hk
  have hs : m.cell .s (line 0) = none := by
    rw [hover.frame.cell _ (by simp)]
    exact h₃.unused
  have hw : Frame written (m₀.record (overrun P)) m :=
    (h₃.written.record _).trans (hover.frame.mono (by simp [written, decodeLocals]))
  rw [exits, wp_bind, wp_load hover.l, wp_ite, if_neg (by omega)]
  refine wp_giveUp hT' hxm hs (fun y hy => Outcome.tooLong hno hy fun v hv => ?_) (by decide)
    (Or.inr ⟨hover.overruns, hw⟩)
  by_contra hle
  exact not_overruns hv (not_lt.mp hle) hover.overruns

theorem wp_exits {u : ℕ} (hend : Ended m₃ (terms P x) u m) (hu : u = (lastRow P).eval m₀) :
    wp (exits P u) (fun code m' => ∃ y, Finished x m₀ code y m') m := by
  rcases hend with ⟨⟨rows, h, hule, hexit⟩, hover⟩ | ⟨rfl, hover⟩
  · rcases Nat.lt_or_ge P.tt (rows u).len with hlong | hL
    · exact wp_exits_long h₃ hno h hule hlong hover
    · obtain rfl : u = 2 * P.tt + 1 := by omega
      exact wp_exits_short h₃ hno h hL hover hu
  · exact wp_exits_overrun h₃ hno hover

end Behind

/-! ### Up to the exits -/

/-- `decode_rs` up to the end of the iteration: the row it ends with, unless there is no error. -/
def tabled (P : CodeParams) : Code P (Option ℕ) := do
  declare decodeLocals
  toIndexForm P
  if (← syndromes P) then
    initTable P
    let u := (← berlekamp P 0) + 1
    pure (some u)
  else pure none

/-- The rest of `decode_rs`. -/
def exitsOf (P : CodeParams) : Option ℕ → Code P ℤ
  | some u => exits P u
  | none => do
    restoreRecd P
    pure 0

theorem decodeRs_tabled : decodeRs P = tabled P >>= exitsOf P := by
  simp only [decodeRs, tabled, exitsOf, exits, bind_assoc, Prog.ite_bind, pure_bind]

/-- What `tabled` leaves. -/
inductive Tabled (x : ℕ → P.GF) (m₀ : Machine P.dims) : Option ℕ → Machine P.dims → Prop
  | clean {m : Machine P.dims} : IsCodeword P x → Indexed x m₀ m → Tabled x m₀ none m
  | iterated {m₃ m : Machine P.dims} {u : ℕ} : ¬ IsCodeword P x → Indexed x m₀ m₃ → Ended m₃ (terms P x) u m →
      u = (lastRow P).eval m₀ → Tabled x m₀ (some u) m

theorem wp_tabled {m : Machine P.dims} (hT : HasTables m) {x : ℕ → P.GF} (hx : HoldsWord m .recd P.nn x) :
    wp (tabled P) (Tabled x m) m := by
  have hf₁ : Frame decodeLocals m (m.undefine decodeLocals) := Frame.undefine m _
  have hT₁ := hT.of_frame hf₁ (by decide) (by decide)
  rw [tabled, wp_bind, wp_declare]
  refine wp_seq_run (wp_toIndexForm hT₁ (hx.of_frame hf₁ (by decide))) fun ⟨hf₂, hx₂⟩ => ?_
  have hT₂ := hT₁.of_frame hf₂ (by simp) (by simp)
  refine wp_seq_run (wp_syndromes hT₂ hx₂) fun ⟨hf₃, hs₀, hs₃, hflag⟩ => ?_
  have h₃ : Indexed x m ((syndromes P).exec ((toIndexForm P).exec (m.undefine decodeLocals))) := by
    refine ⟨hT₂.of_frame hf₃ (by simp) (by simp), hx₂.of_frame hf₃ (by simp), fun k hk hkt => hs₃.terms hk hkt,
      (hf₂.mono (by simp)).trans (hf₃.mono (by simp)), ?_⟩
    rw [hs₀, hf₂.cell _ (by simp)]
    rfl
  rw [wp_ite]
  split_ifs with hsyn
  · have hno : ¬ IsCodeword P x := fun h => by
      rw [← hflag, hsyn] at h
      exact absurd h (by decide)
    refine wp_seq_run (wp_initTable h₃.terms (terms_zero x)) fun ⟨htable, hdisc⟩ => ?_
    refine wp_seq_run (wp_berlekamp h₃.tables h₃.terms (terms_zero x) htable hdisc
      (by have := P.one_le_tt; omega)) fun hend => ?_
    exact .iterated hno h₃ hend (by simp only [lastRow, eval_bind, exec_declare, eval_pure])
  · have hcode : IsCodeword P x := by rw [← hflag]; exact Bool.eq_false_of_not_eq_true hsyn
    exact .clean hcode h₃

/-- **`decode_rs`.** -/
theorem wp_decodeRs_finished {m : Machine P.dims} (hT : HasTables m) {x : ℕ → P.GF} (hx : HoldsWord m .recd P.nn x) :
    wp (decodeRs P) (fun code m' => ∃ y, Finished x m code y m') m := by
  rw [decodeRs_tabled]
  apply wp_seq (wp_tabled hT hx)
  rintro res m' (⟨hcode, h₃⟩ | ⟨hno, h₃, hend, hu⟩)
  · refine wp_giveUp h₃.tables h₃.recd h₃.unused (fun y hy => Outcome.clean hcode hy) (by decide)
      (Or.inl ⟨?_, h₃.written⟩)
    rintro ⟨_, hlast⟩
    have htt := P.one_le_tt
    refine hlast ?_
    rw [show 2 * P.tt = 2 * P.tt - 1 + 1 by omega, terms_succ]
    exact hcode _ (by omega)
  · exact wp_exits h₃ hno hend hu

theorem wp_decodeRs {m : Machine P.dims} (hT : HasTables m) {x : ℕ → P.GF} (hx : HoldsWord m .recd P.nn x) :
    wp (decodeRs P) (fun code m' => ∃ y, Decoded x m code y m') m :=
  wp_mono (wp_decodeRs_finished hT hx) fun _ _ ⟨y, h⟩ => ⟨y, h.toDecoded⟩

end ReedSolomon
