import ReedSolomon.Main.Stream
import ReedSolomon.Spec.Program

/-!
# What `main` prints

A message that is hit in at most `tt` places comes back, so `main` prints `OK` for every `i`, unless the stream of
`rand()` holds a place 255 and the injection loop reads behind the end of `error_status` (`program_reports`). Nothing
else can go wrong but that an injection loop never ends: it either keeps the errors in the block or notes that access
first (`wp_inject_or`), one message is recovered if it is kept so and the loop has ended (`wp_sendVector`), and the loops
of `main` go on from there.
-/

open Imp Finset Filter

namespace ReedSolomon

/-! ### The injection loop, in any case -/

/-- The stream holds a place 255, and the access behind `error_status` was noted first. -/
def ReadsBehind {ν : Type} (rand : ℕ → ℤ) (errorStatus : ν) (noted noted' : List (Fault ν)) : Prop :=
  (∃ n, rand n % 256 = 255) ∧ noted ++ [.load errorStatus [255]] <+: noted'

theorem writes_injectPass (rand : ℕ → ℤ) (x : Counters) : Writes [.recd, .errorStatus] (injectPass rand x) :=
  .bind (.rem _ _) fun _ => .bind (.load _ _) fun _ => .ifThenElse
    (.bind (.load _ _) fun _ => .bind (.rem _ _) fun _ => .bind (.store (by simp) _ _) fun _ =>
      .bind (.store (by simp) _ _) fun _ => .pure _)
    (.pure _)

theorem writes_injectLoop (rand : ℕ → ℤ) (i n : ℕ) (x : Counters) :
    Writes [.recd, .errorStatus] (injectLoop rand i n x) := by
  induction n generalizing x with
  | zero => exact .pure _
  | succ n ih =>
    unfold injectLoop
    split_ifs
    · exact (writes_injectPass rand x).bind fun x' => ih _
    · exact .pure _

section Injection

variable {rand : ℕ → ℤ} {i : ℕ} {c : ℕ → ℤ} {m₀ m : Machine channelDims} {s : Injected} {x : Counters}

theorem wp_injectLoop_or (hrand : ∀ n, 0 ≤ rand n) (hc : Symbols rs255 255 c) (n : ℕ) (h : Tracks c m₀ s x m) :
    wp (injectLoop rand i n x) (fun x' m' => Tracks c m₀ (Injected.run rand i n s) x' m' ∨
      ReadsBehind rand .errorStatus m₀.faults m'.faults) m := by
  induction n generalizing s x m with
  | zero => exact Or.inl h
  | succ n ih =>
    unfold injectLoop Injected.run
    by_cases hlt : s.hits.length < i
    · have hk : x.k < i := by rw [h.k]; omega
      rw [if_pos hk, if_pos hlt]
      by_cases hplace : s.place rand = 255
      · have hdraw : rand x.drawn % 256 = 255 := by rw [h.drawn, ← hplace, Injected.place]
        apply wp_seq (wp_injectPass_out hrand hdraw)
        intro x' m' hnoted
        rw [h.faults] at hnoted
        apply wp_mono ((writes_injectLoop rand i n _).wp_noted hnoted)
        intro _ m'' hnoted'
        exact Or.inr ⟨⟨x.drawn, hdraw⟩, hnoted'⟩
      · apply wp_seq (wp_injectPass hrand hc h hplace)
        intro x' m' h'
        exact ih h'
    · have hk : ¬ x.k < i := by rw [h.k]; omega
      rw [if_neg hk, if_neg hlt]
      exact Or.inl h

/-- The injection makes at most `i` hits and notes nothing, or it comes to place 255. -/
theorem wp_inject_or (hrand : ∀ n, 0 ≤ rand n) (hc : Symbols rs255 255 c) (hm : Holds m .recd 255 c) (n : ℕ) :
    wp (inject rand i n) (fun x m' => Tracks c m (Injected.run rand i n .none) x m' ∨
      ReadsBehind rand .errorStatus m.faults m'.faults) m := by
  apply wp_seq (wp_clearStatus hm)
  intro _ m' h
  exact wp_injectLoop_or hrand hc n h

end Injection

/-! ### One message -/

def message (rand : ℕ → ℤ) (drawn k : ℕ) : ℤ := rand (drawn + k) % 256

theorem symbols_message (rand : ℕ → ℤ) (drawn n : ℕ) : Symbols rs255 n (message rand drawn) := fun k _ => by
  show 0 ≤ rand (drawn + k) % 256 ∧ rand (drawn + k) % 256 ≤ ((255 : ℕ) : ℤ)
  omega

section Functions

variable {m : Machine rs255.dims}

theorem wp_drawMessage {rand : ℕ → ℤ} (hrand : ∀ n, 0 ≤ rand n) (drawn : ℕ) :
    wp (drawMessage rand drawn)
      (fun _ m' => Frame [.data] m m' ∧ HoldsWord m' .data rs255.kk (elements rs255 (message rand drawn))) m := by
  apply wp_mono (wp_forEach_wrote .data line (message rand drawn) (Nat.zero_le rs255.kk) ?_)
  · intro _ m' h
    refine ⟨h.frame, fun k hk => ?_⟩
    rw [h.new k ⟨Nat.zero_le k, hk⟩, poly_elements (symbols_message rand drawn rs255.kk) hk]
  · intro k s _ hk h
    rw [wp_bind, wp_rem (hrand _), wp_store (inBounds_data hk)]
    exact h.put line_injective k (inBounds_data hk)

theorem wp_decodeRs_near {P : CodeParams} {m : Machine P.dims} (hT : HasTables m) {x v : ℕ → P.GF}
    (hx : HoldsWord m .recd P.nn x) (hv : IsCodeword P v) (hnear : (differing P x v).card ≤ P.tt) :
    wp (decodeRs P) (fun _ m' => Frame written m m' ∧ HoldsWord m' .recd P.nn v) m := by
  apply wp_mono (wp_decodeRs hT hx)
  intro code m' hdec
  obtain ⟨y, hy⟩ := hdec
  constructor
  · rcases hy.frame with ⟨_, hf⟩ | ⟨hover, _⟩
    · exact hf
    · exact absurd hover (not_overruns hv hnear)
  · intro k hk
    rw [hy.recd k hk, hy.outcome.eq_codeword hv hnear k hk]

theorem wp_misdecoded_holds {f g : ℕ → ℤ} (hdata : Holds m .data 239 f) (hrecd : Holds m .recd 239 g) :
    wp misdecoded (fun lost m' => m' = m ∧ (lost = true ↔ ∃ k < 239, f k ≠ g k)) m := by
  apply wp_forUp (fun i lost s => s = m ∧ (lost = true ↔ ∃ k < i, f k ≠ g k)) (Nat.zero_le messageLength)
  · exact ⟨rfl, by simp⟩
  · intro i lost s _ hi h
    obtain ⟨rfl, hlost⟩ := h
    rw [wp_ite]
    split_ifs with hstop
    · obtain ⟨k, hk, hne⟩ := hlost.mp hstop
      exact ⟨rfl, fun _ => ⟨k, by omega, hne⟩, fun _ => rfl⟩
    · rw [wp_bind, wp_load (hdata i hi), wp_bind, wp_load (hrecd i hi), wp_pure, decide_eq_true_iff]
      refine ⟨rfl, fun hne => ⟨i, Nat.lt_succ_self i, hne⟩, fun hsome => ?_⟩
      obtain ⟨k, hk, hne⟩ := hsome
      rcases Nat.lt_succ_iff_lt_or_eq.mp hk with hlt | rfl
      · exact absurd (hlost.mpr ⟨k, hlt, hne⟩) hstop
      · exact hne

theorem wp_prepare {rand : ℕ → ℤ} (hrand : ∀ n, 0 ≤ rand n) (drawn : ℕ) (hI : Initialised m) :
    wp (do drawMessage rand drawn; encodeRs rs255; assemble rs255)
      (fun _ m' => Frame [.data, .bb, .recd] m m' ∧
        HoldsWord m' .data rs255.kk (elements rs255 (message rand drawn)) ∧
        HoldsWord m' .recd rs255.nn (block rs255 (elements rs255 (message rand drawn)))) m := by
  apply wp_seq (wp_drawMessage hrand drawn)
  intro _ m₁ h₁
  obtain ⟨hf₁, hD⟩ := h₁
  apply wp_seq (wp_encodeRs galoisMul_rs255 (hI.of_frame hf₁ (by simp) (by simp) (by simp)) hD)
  intro _ m₂ h₂
  obtain ⟨hf₂, hR⟩ := h₂
  apply wp_mono (wp_assemble (hD.of_frame hf₂ (by simp)) hR)
  intro _ m₃ h₃
  obtain ⟨hf₃, hB⟩ := h₃
  refine ⟨?_, (hD.of_frame hf₂ (by simp)).of_frame hf₃ (by simp), hB⟩
  exact ((hf₁.mono (by simp)).trans (hf₂.mono (by simp))).trans (hf₃.mono (by simp))

theorem wp_recover {D : ℕ → rs255.GF} {w : ℕ → ℤ} (hI : Initialised m) (hdata : HoldsWord m .data rs255.kk D)
    (hrecd : Holds m .recd 255 w) (hw : Symbols rs255 255 w)
    (hfew : (differences 255 w fun k => rs255.poly (block rs255 D k)).card ≤ 8) :
    wp (do let _ ← decodeRs rs255; misdecoded)
      (fun lost m' => Frame written m m' ∧ lost = false) m := by
  have hx : HoldsWord m .recd rs255.nn (elements rs255 w) := fun k hk => by
    rw [hrecd k hk, poly_elements hw hk]
  have hdiff : differences 255 w (fun k => rs255.poly (block rs255 D k)) = differing rs255 (elements rs255 w) (block rs255 D) :=
    differences_eq (fun k hk => (poly_elements hw hk).symm) fun _ _ => rfl
  rw [hdiff] at hfew
  apply wp_seq (wp_decodeRs_near hI.tables hx (isCodeword_block D) hfew)
  intro _ m₁ h₁
  obtain ⟨hf₁, hB⟩ := h₁
  have hD : Holds m₁ .data 239 fun k => rs255.poly (D k) := hdata.of_frame hf₁ (by decide)
  have hR : Holds m₁ .recd 239 fun k => rs255.poly (block rs255 D k) := fun k hk => hB k (lt_trans hk (by decide))
  apply wp_mono (wp_misdecoded_holds hD hR)
  intro lost m₂ h₂
  obtain ⟨rfl, hlost⟩ := h₂
  refine ⟨hf₁, ?_⟩
  rw [← Bool.not_eq_true, hlost]
  intro hsome
  obtain ⟨k, hk, hne⟩ := hsome
  exact hne (by rw [block_message D hk])

end Functions

/-- Between two messages, with nothing noted. -/
structure Going (m₀ m : Machine mainDims) : Prop where
  initialised : Initialised (globals.view m)
  faults : m.faults = m₀.faults

/-! ### The stream -/

section Stream

variable (rand : ℕ → ℤ) (passes : ℕ)

/-- Where the stream stands behind a message. -/
def afterVector (i passes drawn : ℕ) : Option ℕ :=
  (finished rand i passes (drawn + rs255.kk)).map fun s => drawn + rs255.kk + s.drawn

/-- Where it stands behind `j` messages for the same `i`. -/
def afterVectors (i drawn : ℕ) : ℕ → Option ℕ
  | 0 => some drawn
  | j + 1 => (afterVectors i drawn j).bind (afterVector rand i passes)

/-- Where it stands when the line for `i` errors begins. -/
def afterLines : ℕ → Option ℕ
  | 0 => some 0
  | i + 1 => (afterLines i).bind fun drawn => afterVectors rand passes i drawn nbVectors

end Stream

/-! ### All messages -/

section Vectors

variable {rand : ℕ → ℤ} {i passes : ℕ} {m₀ m : Machine mainDims}

theorem Going.update {s : Machine rs255.dims} {W : List Arr} (h : Going m₀ m) (hf : Frame W (globals.view m) s)
    (ha : .alphaTo ∉ W) (hi : .indexOf ∉ W) (hg : .gg ∉ W) : Going m₀ (globals.update m s) := by
  have hview : globals.view (globals.update m s) = s.forget := Scope.view_update hf.junk
  refine ⟨?_, (Scope.faults_update (hf.faults.trans Scope.faults_view)).trans h.faults⟩
  rw [hview]
  exact h.initialised.of_keeps (W := W) ⟨hf.cell, hf.junk⟩ ha hi hg

theorem keeps_channel (m : Machine mainDims) (t : Machine channelDims) :
    Keeps [.recd] (globals.view m) (globals.view (channel.update m t)) := by
  refine ⟨fun a ha => Scope.cell_update_of_none ?_, rfl⟩
  cases a <;> first | rfl | exact absurd (List.mem_singleton_self _) ha

theorem ReadsBehind.update {t : Machine channelDims} (h : ReadsBehind rand .errorStatus [] t.faults) :
    ReadsBehind rand .errorStatus m.faults (channel.update m t).faults :=
  ⟨h.1, (List.prefix_append_right_inj _).mpr (h.2.map (Fault.rename channel.name))⟩

/-- **One message** is recovered once the injection loop has ended, or the loop comes to place 255. -/
theorem wp_sendVector (hrand : ∀ n, 0 ≤ rand n) (hi : i ≤ 8) (h : Going m₀ m) (x : Batch) :
    wp (sendVector rand i passes x)
      (fun y m' => Going m₀ m' ∧ y = (afterVector rand i passes x.drawn).map (Batch.mk x.noEncoderErrors) ∨
        ReadsBehind rand .errorStatus m₀.faults m'.faults) m := by
  unfold sendVector
  rw [wp_bind, Scope.wp_within]
  apply wp_mono (wp_prepare hrand x.drawn h.initialised)
  intro _ s₁ h₁
  obtain ⟨hf₁, hD, hB⟩ := h₁
  have hgoing := h.update hf₁ (by decide) (by decide) (by decide)
  have hview : globals.view (globals.update m s₁) = s₁.forget := Scope.view_update hf₁.junk
  generalize globals.update m s₁ = m₁ at hgoing hview
  have hrecd : ∀ a, m₁.cell (.global a) = s₁.cell a := fun a => congrFun (congrArg Machine.cell hview) a
  have hblock : Holds (channel.view m₁) .recd 255 fun k => rs255.poly (block rs255 (elements rs255 (message rand x.drawn)) k) := by
    intro k hk
    rw [Scope.cell_view]
    exact (congrFun (hrecd .recd) _).trans (hB k hk)
  have hsymbols := symbols_poly (block rs255 (elements rs255 (message rand x.drawn))) 255
  rw [wp_bind, Scope.wp_within]
  apply wp_mono (wp_inject_or (fun n => hrand _) hsymbols hblock passes)
  intro counters t hinject
  rw [wp_ite]
  rcases hinject with htracks | hbehind
  · have hkeeps := keeps_channel m₁ t
    have hinit := hgoing.initialised.of_keeps hkeeps (by decide) (by decide) (by decide)
    have hgoing' : Going m₀ (channel.update m₁ t) :=
      ⟨hinit, (Scope.faults_update htracks.faults).trans hgoing.faults⟩
    rw [afterVector, finished, htracks.k]
    split_ifs with hk hlt hlt
    · exact Or.inl ⟨hgoing', rfl⟩
    · exact absurd (Int.ofNat_lt.mp hk) hlt
    · exact absurd (Int.ofNat_lt.mpr hlt) hk
    · have hkept : HoldsWord (globals.view (channel.update m₁ t)) .data rs255.kk (elements rs255 (message rand x.drawn)) := by
        intro k hk
        rw [hkeeps.cell _ (by decide), Scope.cell_view]
        exact (congrFun (hrecd .data) _).trans (hD k hk)
      have hword : Holds (globals.view (channel.update m₁ t)) .recd 255 _ := htracks.recd
      have hlength : (Injected.run (fun n => rand (x.drawn + rs255.kk + n)) i passes .none).hits.length ≤ i :=
        Injected.length_run_le (Nat.zero_le i) passes
      rw [wp_bind, Scope.wp_within]
      apply wp_mono (wp_recover hinit hkept hword (symbols_hits hsymbols _)
        ((card_differences_hits_le _ _).trans (hlength.trans hi)))
      intro lost s₃ h₃
      obtain ⟨hf₃, rfl⟩ := h₃
      refine Or.inl ⟨hgoing'.update hf₃ (by decide) (by decide) (by decide), ?_⟩
      rw [htracks.drawn, if_neg Bool.false_ne_true, Option.map_some, Option.map_some]
      rfl
  · have hnoted := ReadsBehind.update (m := m₁) hbehind
    rw [hgoing.faults] at hnoted
    obtain ⟨hplace, hprefix⟩ := hnoted
    have hplace' : ∃ n, rand n % 256 = 255 := by
      obtain ⟨n, hn⟩ := hplace
      exact ⟨_, hn⟩
    split_ifs
    · exact Or.inr ⟨hplace', hprefix⟩
    · rw [wp_bind]
      apply wp_mono (Scope.wp_within_noted _ hprefix)
      intro lost m₃ hprefix'
      exact Or.inr ⟨hplace', hprefix'⟩

theorem wp_sendVector_noted {l : List (Fault MainArr)} (h : l <+: m.faults) (x : Batch) :
    wp (sendVector rand i passes x) (fun _ m' => l <+: m'.faults) m := by
  unfold sendVector
  apply wp_seq (Scope.wp_within_noted _ h)
  intro _ m₁ h₁
  apply wp_seq (Scope.wp_within_noted _ h₁)
  intro _ m₂ h₂
  rw [wp_ite]
  split_ifs
  · exact h₂
  · apply wp_seq (Scope.wp_within_noted _ h₂)
    intro _ m₃ h₃
    exact h₃

/-- A loop of such passes, `stand j` being the place in the stream behind the first `j`: it goes on until one of them is
still running, or comes to place 255. -/
theorem wp_forUp_proceed {β : Type} {body : ℕ → β → MainCode (Option β)} {n : ℕ} (stand : ℕ → Option ℕ)
    (next : ℕ → ℕ → Option ℕ) (mk : ℕ → ℕ → β) (hstand : ∀ j, stand (j + 1) = (stand j).bind (next j))
    (hbody : ∀ j < n, ∀ drawn m, Going m₀ m → wp (body j (mk j drawn)) (fun y m' => Going m₀ m' ∧
      y = (next j drawn).map (mk (j + 1)) ∨ ReadsBehind rand .errorStatus m₀.faults m'.faults) m)
    (hnoted : ∀ j x l m, l <+: m.faults → wp (body j x) (fun _ m' => l <+: m'.faults) m) (h : Going m₀ m) :
    wp (forUp 0 n ((stand 0).map (mk 0)) fun j => proceed (body j)) (fun y m' => Going m₀ m' ∧
      y = (stand n).map (mk n) ∨ ReadsBehind rand .errorStatus m₀.faults m'.faults) m := by
  apply wp_forUp (fun j y m' => Going m₀ m' ∧ y = (stand j).map (mk j) ∨ ReadsBehind rand .errorStatus m₀.faults m'.faults)
    (Nat.zero_le n) (Or.inl ⟨h, rfl⟩)
  intro j y m' _ hj hstate
  rcases hstate with ⟨hgoing, rfl⟩ | hbehind
  · rw [hstand]
    cases stand j with
    | none => exact Or.inl ⟨hgoing, rfl⟩
    | some drawn => exact hbody j hj drawn m' hgoing
  · cases y with
    | none => exact Or.inr hbehind
    | some x =>
      apply wp_mono (hnoted j x _ m' hbehind.2)
      intro _ m'' hprefix
      exact Or.inr ⟨hbehind.1, hprefix⟩

/-- **The messages for one `i`**: nothing is counted, or the injection loop came to place 255. -/
theorem wp_sendVectors (hrand : ∀ n, 0 ≤ rand n) (hi : i ≤ 8) (h : Going m₀ m) (x : Printed) :
    wp (sendVectors rand passes i x)
      (fun y m' => Going m₀ m' ∧ y = (afterVectors rand passes i x.drawn nbVectors).map (Printed.mk (x.reports ++ [.ok])) ∨
        ReadsBehind rand .errorStatus m₀.faults m'.faults) m := by
  apply wp_seq (wp_forUp_proceed (afterVectors rand passes i x.drawn) (fun _ => afterVector rand i passes)
    (fun _ => Batch.mk 0) (fun _ => rfl) (fun _ _ drawn _ hgoing => wp_sendVector hrand hi hgoing ⟨0, drawn⟩)
    (fun _ b _ _ hprefix => wp_sendVector_noted hprefix b) h)
  intro y m' hend
  rw [wp_pure]
  refine hend.imp_left fun hdone => ⟨hdone.1, ?_⟩
  rw [hdone.2, Option.map_map]
  rfl

theorem wp_sendVectors_noted {l : List (Fault MainArr)} (h : l <+: m.faults) (x : Printed) :
    wp (sendVectors rand passes i x) (fun _ m' => l <+: m'.faults) m := by
  apply wp_seq (wp_forUp (fun _ _ m' => l <+: m'.faults) (Nat.zero_le nbVectors) h ?_)
  · intro _ m' hend
    exact hend
  · intro j y m' _ _ hstate
    cases y with
    | none => exact hstate
    | some b => exact wp_sendVector_noted hstate b

end Vectors

/-- The run lemma: `main` gets as far as the injection loops end. -/
theorem wp_program {rand : ℕ → ℤ} (hrand : ∀ n, 0 ≤ rand n) (passes : ℕ) (m : Machine mainDims) :
    wp (program rand passes)
      (fun reports m' => reports = (afterLines rand passes 9).map (fun _ => List.replicate 9 .ok) ∧ m'.faults = m.faults ∨
        ReadsBehind rand .errorStatus m.faults m'.faults) m := by
  unfold program
  rw [wp_bind, Scope.wp_within]
  apply wp_mono (wp_initialise (globals.view m))
  intro _ s h
  obtain ⟨hI, hf⟩ := h
  have hgoing : Going m (globals.update m s) := by
    refine ⟨?_, Scope.faults_update (hf.faults.trans Scope.faults_view)⟩
    rw [show globals.view (globals.update m s) = s.forget from Scope.view_update hf.junk]
    exact hI.of_keeps (W := []) ⟨fun _ _ => rfl, rfl⟩ List.not_mem_nil List.not_mem_nil List.not_mem_nil
  apply wp_seq (wp_forUp_proceed (afterLines rand passes) (fun i drawn => afterVectors rand passes i drawn nbVectors)
    (fun i => Printed.mk (List.replicate i .ok)) (fun _ => rfl) ?_ (fun _ x _ _ hprefix => wp_sendVectors_noted hprefix x)
    hgoing)
  · intro x m' hend
    rw [wp_pure]
    refine hend.imp_left fun hdone => ⟨?_, hdone.1.faults⟩
    rw [hdone.2, Option.map_map]
    rfl
  · intro i hi drawn m' hgoing
    rw [List.replicate_succ']
    exact wp_sendVectors hrand (Nat.lt_succ_iff.mp hi) hgoing ⟨List.replicate i .ok, drawn⟩

theorem settles_afterLines {rand : ℕ → ℤ} (h : Spreads rand 8) : Settles fun passes => afterLines rand passes 9 := by
  apply Settles.loop (afterLines rand) (fun _ => rfl) (fun _ _ => rfl)
  intro i hi drawn
  apply Settles.loop (fun passes => afterVectors rand passes i drawn) (fun _ => rfl) (fun _ _ => rfl)
  intro _ _ drawn'
  exact (settles_finished h (Nat.lt_succ_iff.mp hi) _).map _

/-- **`main` prints `OK` for every `i`** if it comes to its end, and every access is inside the arrays and reads a value
that was stored, unless the stream of `rand()` holds a place 255; then the first access noted is the one behind
`error_status`. It does come to its end if every tail of the stream holds eight places. -/
theorem program_reports (m : Machine mainDims) (rand : ℕ → ℤ) (hrand : ∀ n, 0 ≤ rand n) :
    (∀ passes, ((program rand passes).exec m).faults = m.faults ∧
        (∀ reports, (program rand passes).eval m = some reports → reports = List.replicate 9 .ok) ∨
      ReadsBehind rand .errorStatus m.faults ((program rand passes).exec m).faults) ∧
      (Spreads rand 8 → ∃ bound, ∀ passes ≥ bound,
        ((program rand passes).exec m).faults = m.faults ∧ (program rand passes).eval m = some (List.replicate 9 .ok) ∨
        ReadsBehind rand .errorStatus m.faults ((program rand passes).exec m).faults) := by
  have hrun := fun passes => wp_iff_run.mp (wp_program hrand passes m)
  constructor
  · intro passes
    refine (hrun passes).imp_left fun hdone => ⟨hdone.2, fun reports hreports => ?_⟩
    rw [hdone.1, Option.map_eq_some_iff] at hreports
    obtain ⟨_, _, rfl⟩ := hreports
    rfl
  · intro hspreads
    obtain ⟨drawn, hdrawn⟩ := settles_afterLines hspreads
    obtain ⟨bound, hbound⟩ := eventually_atTop.mp hdrawn
    refine ⟨bound, fun passes hpasses => (hrun passes).imp_left fun hdone => ⟨hdone.2, ?_⟩⟩
    have hends : afterLines rand passes 9 = some drawn := hbound passes hpasses
    rw [hdone.1, hends, Option.map_some]

theorem program_reports_cycling : ∃ passes, (program cycling passes).eval (Machine.fresh mainDims) = some (List.replicate 9 .ok) ∧
    ((program cycling passes).exec (Machine.fresh mainDims)).faults = [] := by
  obtain ⟨bound, hbound⟩ := (program_reports (Machine.fresh mainDims) cycling fun n => (cycling_range n).1).2
    (spreads_cycling (by decide))
  rcases hbound bound le_rfl with hdone | hbehind
  · exact ⟨bound, hdone.2, hdone.1⟩
  · obtain ⟨⟨n, hplace⟩, _⟩ := hbehind
    have := cycling_range n
    omega

end ReedSolomon
