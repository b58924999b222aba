import ReedSolomon.Decoder.Exits
import ReedSolomon.Main.Guarantees
import ReedSolomon.Main.Search

/-!
# What `decode_rs` makes of a received word

For every setting and every received word: which value is returned (`decode_exit`), that adding an accepted word
and shifting in a circle commute with decoding (`decode_xor`, `decode_turn`), and that decoding again changes
nothing (`decode_again`).
-/

open Imp Finset BoundedDistance

namespace ReedSolomon

variable {P : CodeParams}

/-- **The exits.** -/
theorem decode_exit (P : CodeParams) (m : Machine P.dims) (r : ℕ → ℤ) (hr : Symbols P P.nn r) :
    Exit P (elements P r) ((decodeRs P).eval (arrived P m r)) := by
  obtain ⟨hT, hx, _⟩ := arrived_spec m hr
  exact (wp_iff_run.mp (wp_decodeRs_exit hT hx)).1

theorem decode_exit_twoOnes :
    Exit rs255 (elements rs255 twoOnes) ((decodeRs rs255).eval (arrived rs255 (Machine.fresh _) twoOnes)) :=
  decode_exit rs255 (Machine.fresh _) twoOnes symbols_twoOnes

theorem Decoded.faults_eq {x x' y y' : ℕ → P.GF} {m m' n n' : Machine P.dims} {code code' : ℤ}
    (h : Decoded x m code y m') (h' : Decoded x' n code' y' n') (halike : Alike P x x') (hstart : n.faults = m.faults) :
    n'.faults = m'.faults := by
  rcases h.frame with ⟨hno, hf⟩ | ⟨hover, hf⟩ <;> rcases h'.frame with ⟨hno', hf'⟩ | ⟨hover', hf'⟩
  · rw [hf'.faults, hf.faults, hstart]
  · exact absurd (halike.overruns.mp hover') hno
  · exact absurd (halike.overruns.mpr hover) hno'
  · rw [hf'.faults, hf.faults]
    exact congrArg (· ++ [overrun P]) hstart

theorem Decoded.keeps {x y : ℕ → P.GF} {m m' : Machine P.dims} {code : ℤ} (h : Decoded x m code y m') :
    Keeps written m m' := by
  rcases h.frame with ⟨_, hf⟩ | ⟨_, hf⟩
  · exact hf.keeps
  · exact ⟨hf.cell, hf.junk⟩

theorem Decoded.hasTables {x y : ℕ → P.GF} {m m' : Machine P.dims} {code : ℤ} (h : Decoded x m code y m')
    (hT : HasTables m) : HasTables m' := hT.of_keeps h.keeps (by decide) (by decide)

theorem Decoded.elements_eq {x y : ℕ → P.GF} {m m' : Machine P.dims} {code : ℤ} (h : Decoded x m code y m') {k : ℕ}
    (hk : k < P.nn) : elements P (word m' .recd) k = y k := by
  rw [elements, h.recd.word_eq hk]
  exact elements_poly y k

theorem symbols_word {m : Machine P.dims} {y : ℕ → P.GF} (h : HoldsWord m .recd P.nn y) :
    Symbols P P.nn (word m .recd) := fun k hk => by
  rw [h.word_eq hk]
  exact symbols_poly y P.nn k hk

/-- Decoding commutes with a symmetry of the code. -/
theorem decode_symmetry (m : Machine P.dims) {r r' : ℕ → ℤ} (hr : Symbols P P.nn r) (hr' : Symbols P P.nn r')
    (halike : Alike P (elements P r) (elements P r')) {f : (Fin P.nn → P.GF) → Fin P.nn → P.GF}
    (hf : Symmetry (codewords P : Set (Fin P.nn → P.GF)) f)
    (hfront : front P (elements P r') = f (front P (elements P r))) :
    let s := arrived P m r
    let t := arrived P m r'
    (decodeRs P).eval t = (decodeRs P).eval s ∧ ((decodeRs P).exec t).faults = ((decodeRs P).exec s).faults ∧
      front P (elements P (word ((decodeRs P).exec t) .recd)) =
        f (front P (elements P (word ((decodeRs P).exec s) .recd))) := by
  obtain ⟨hT, hx, hframe⟩ := arrived_spec m hr
  obtain ⟨hT', hx', hframe'⟩ := arrived_spec m hr'
  obtain ⟨hexit, y, hdec⟩ := wp_iff_run.mp (wp_decodeRs_exit hT hx)
  obtain ⟨hexit', y', hdec'⟩ := wp_iff_run.mp (wp_decodeRs_exit hT' hx')
  refine ⟨hexit.eq_of_alike hexit' halike, ?_, ?_⟩
  · exact hdec.faults_eq hdec' halike (by rw [hframe'.faults, hframe.faults])
  · rw [front_inj.mpr fun k hk => hdec'.elements_eq hk, front_inj.mpr fun k hk => hdec.elements_eq hk,
      hdec'.outcome.front_eq, hdec.outcome.front_eq, hfront, hf.nearest_symmetry separated_codewords]

theorem eq_of_front_eq {f g : ℕ → ℤ} (hf : Symbols P P.nn f) (hg : Symbols P P.nn g)
    (h : front P (elements P f) = front P (elements P g)) {k : ℕ} (hk : k < P.nn) : f k = g k := by
  rw [← poly_elements hf hk, ← poly_elements hg hk, front_inj.mp h k hk]

theorem symbols_decoded (m : Machine P.dims) {r : ℕ → ℤ} (hr : Symbols P P.nn r) :
    Symbols P P.nn (word ((decodeRs P).exec (arrived P m r)) .recd) := by
  obtain ⟨hT, hx, _⟩ := arrived_spec m hr
  obtain ⟨y, hdec⟩ := wp_iff_run.mp (wp_decodeRs hT hx)
  exact symbols_word hdec.recd

/-! ### Adding a codeword -/

theorem elements_xor {n : ℕ} {r c : ℕ → ℤ} (hr : Symbols P n r) (hc : Symbols P n c) {k : ℕ} (hk : k < n) :
    elements P (fun k => Int.xor (r k) (c k)) k = elements P r k + elements P c k := by
  rw [elements, ← poly_elements hr hk, ← poly_elements hc hk, P.xor_poly]
  exact elements_poly (fun k => elements P r k + elements P c k) k

theorem symbols_xor {n : ℕ} {r c : ℕ → ℤ} (hr : Symbols P n r) (hc : Symbols P n c) :
    Symbols P n fun k => Int.xor (r k) (c k) := fun k hk => by
  dsimp only
  rw [← poly_elements hr hk, ← poly_elements hc hk, P.xor_poly]
  exact ⟨P.poly_nonneg _, P.poly_le _⟩

/-- **Adding an accepted word commutes with decoding.** -/
theorem decode_xor (P : CodeParams) (m : Machine P.dims) (r c : ℕ → ℤ) (hr : Symbols P P.nn r) (hc : Symbols P P.nn c)
    (haccept : (decodeRs P).eval (arrived P m c) = 0) :
    let s := arrived P m r
    let t := arrived P m fun k => Int.xor (r k) (c k)
    (decodeRs P).eval t = (decodeRs P).eval s ∧ ((decodeRs P).exec t).faults = ((decodeRs P).exec s).faults ∧
      ∀ k < P.nn, word ((decodeRs P).exec t) .recd k = Int.xor (word ((decodeRs P).exec s) .recd k) (c k) := by
  intro s t
  have hcode : IsCodeword P (elements P c) := (decode_exit P m c hc).zero_iff.mp haccept
  have hsum : front P (elements P fun k => Int.xor (r k) (c k)) = front P (elements P r) + front P (elements P c) :=
    front_inj.mpr fun k hk => elements_xor hr hc hk
  have hsymbols := symbols_xor hr hc
  have halike : Alike P (elements P r) (elements P fun k => Int.xor (r k) (c k)) :=
    (alike_add hcode).trans (alike_of_eq fun k hk => elements_xor hr hc hk)
  obtain ⟨hcodes, hfaults, hwords⟩ :=
    decode_symmetry m hr hsymbols halike (Symmetry.add (mem_codewords.mpr hcode)) hsum
  obtain ⟨hs, ht⟩ := And.intro (symbols_decoded m hr) (symbols_decoded m hsymbols)
  refine ⟨hcodes, hfaults, fun k hk => eq_of_front_eq ht (symbols_xor hs hc) ?_ hk⟩
  rw [hwords]
  exact front_inj.mpr fun j hj => (elements_xor hs hc hj).symm

theorem decode_xor_counting :
    let c := word (sent (Machine.fresh _) counting) .recd
    let s := arrived rs255 (Machine.fresh _) twoOnes
    let t := arrived rs255 (Machine.fresh _) fun k => Int.xor (twoOnes k) (c k)
    (decodeRs rs255).eval t = (decodeRs rs255).eval s ∧
      ((decodeRs rs255).exec t).faults = ((decodeRs rs255).exec s).faults ∧
      ∀ k < 255, word ((decodeRs rs255).exec t) .recd k = Int.xor (word ((decodeRs rs255).exec s) .recd k) (c k) := by
  have hcounting : Symbols rs255 239 counting := symbols_counting (by decide)
  obtain ⟨_, hsent, _⟩ := sent_spec (Machine.fresh _) hcounting
  have hc := symbols_word hsent
  have hcode : IsCodeword rs255 (elements rs255 (word (sent (Machine.fresh _) counting) .recd)) :=
    (isCodeword_block _).congr fun k hk => by rw [elements, hsent.word_eq hk]; exact elements_poly _ k
  exact decode_xor rs255 (Machine.fresh _) twoOnes _ symbols_twoOnes hc
    ((decode_exit rs255 (Machine.fresh _) _ hc).zero_iff.mpr hcode)

/-! ### Shifting in a circle -/

theorem elements_turn (r : ℕ → ℤ) (s k : ℕ) :
    elements P (fun k => r (turn P.nn s k)) k = rotated P s (elements P r) k :=
  (rotated_eq s (elements P r) k).symm

theorem symbols_turn {r : ℕ → ℤ} (hr : Symbols P P.nn r) {s : ℕ} (hs : s ≤ P.nn) :
    Symbols P P.nn fun k => r (turn P.nn s k) := fun _ hk => hr _ (turn_lt hs hk)

/-- **Shifting in a circle commutes with decoding.** -/
theorem decode_turn (P : CodeParams) (m : Machine P.dims) (r : ℕ → ℤ) (hr : Symbols P P.nn r) (shift : ℕ)
    (hshift : shift ≤ P.nn) :
    let s := arrived P m r
    let t := arrived P m fun k => r (turn P.nn shift k)
    (decodeRs P).eval t = (decodeRs P).eval s ∧ ((decodeRs P).exec t).faults = ((decodeRs P).exec s).faults ∧
      ∀ k < P.nn, word ((decodeRs P).exec t) .recd k = word ((decodeRs P).exec s) .recd (turn P.nn shift k) := by
  intro s t
  have helements : elements P (fun k => r (turn P.nn shift k)) = rotated P shift (elements P r) :=
    funext fun k => elements_turn r shift k
  have hsymbols := symbols_turn hr hshift
  have halike : Alike P (elements P r) (elements P fun k => r (turn P.nn shift k)) := by
    rw [helements]
    exact alike_rotated hshift
  obtain ⟨hcodes, hfaults, hwords⟩ := decode_symmetry m hr hsymbols halike (symmetry_turn hshift)
    (by rw [helements]; exact front_rotated hshift _)
  obtain ⟨hs, ht⟩ := And.intro (symbols_decoded m hr) (symbols_decoded m hsymbols)
  refine ⟨hcodes, hfaults, fun k hk => eq_of_front_eq ht (symbols_turn hs hshift) ?_ hk⟩
  rw [hwords, ← front_rotated hshift]
  exact front_inj.mpr fun j _ => (elements_turn _ shift j).symm

theorem decode_turn_twoOnes :
    let s := arrived rs255 (Machine.fresh _) twoOnes
    let t := arrived rs255 (Machine.fresh _) fun k => twoOnes (turn 255 100 k)
    (decodeRs rs255).eval t = (decodeRs rs255).eval s ∧
      ((decodeRs rs255).exec t).faults = ((decodeRs rs255).exec s).faults ∧
      ∀ k < 255, word ((decodeRs rs255).exec t) .recd k = word ((decodeRs rs255).exec s) .recd (turn 255 100 k) :=
  decode_turn rs255 (Machine.fresh _) twoOnes symbols_twoOnes 100 (by decide)

/-! ### Decoding again -/

/-- A machine on which `decode_rs` was called before. -/
structure Settled (x : ℕ → P.GF) (code : ℤ) (m : Machine P.dims) : Prop where
  tables : HasTables m
  recd : HoldsWord m .recd P.nn x
  exit : Exit P x code
  ne_one : code ≠ 1

theorem Settled.again {x : ℕ → P.GF} {m : Machine P.dims} {code : ℤ} (h : Settled x code m) :
    (decodeRs P).eval m = code ∧ Settled x code ((decodeRs P).exec m) := by
  obtain ⟨hexit, y, hdec⟩ := wp_iff_run.mp (wp_decodeRs_exit h.tables h.recd)
  have hcode : (decodeRs P).eval m = code := h.exit.eq_of_alike hexit ⟨Iff.rfl, Iff.rfl, Iff.rfl, Iff.rfl⟩
  have hsame : ∀ k < P.nn, y k = x k := hdec.outcome.eq_received (by rw [hcode]; exact h.ne_one)
  refine ⟨hcode, hdec.hasTables h.tables, fun k hk => ?_, h.exit, h.ne_one⟩
  rw [hdec.recd k hk, hsame k hk]

theorem settled_first {x : ℕ → P.GF} {m : Machine P.dims} (hT : HasTables m) (hx : HoldsWord m .recd P.nn x) :
    ∃ y, Settled y (if (decodeRs P).eval m = 1 then 0 else (decodeRs P).eval m) ((decodeRs P).exec m) := by
  obtain ⟨hexit, y, hdec⟩ := wp_iff_run.mp (wp_decodeRs_exit hT hx)
  split_ifs with hone
  · obtain ⟨_, hy, _⟩ := hdec.outcome.of_one hone
    exact ⟨y, hdec.hasTables hT, hdec.recd, hy.exit, by decide⟩
  · have hsame := hdec.outcome.eq_received hone
    refine ⟨x, hdec.hasTables hT, fun k hk => ?_, hexit, hone⟩
    rw [hdec.recd k hk, hsame k hk]

/-- **Decoding again changes nothing.** -/
theorem decode_again (P : CodeParams) (m : Machine P.dims) (r : ℕ → ℤ) (hr : Symbols P P.nn r) (n : ℕ) :
    let first := arrived P m r
    let s := fun n => ((decodeRs P).exec)^[n + 1] first
    (decodeRs P).eval (s n) = (if (decodeRs P).eval first = 1 then 0 else (decodeRs P).eval first) ∧
      ∀ k < P.nn, word (s n) .recd k = word (s 0) .recd k := by
  intro first s
  obtain ⟨hT, hx, _⟩ := arrived_spec m hr
  obtain ⟨y, hfirst⟩ := settled_first hT hx
  have hall : ∀ n, Settled y (if (decodeRs P).eval first = 1 then 0 else (decodeRs P).eval first) (s n) := by
    intro n
    induction n with
    | zero => exact hfirst
    | succ n ih =>
      have hstep : s (n + 1) = (decodeRs P).exec (s n) := Function.iterate_succ_apply' _ _ _
      rw [hstep]
      exact ih.again.2
  exact ⟨(hall n).again.1, fun k hk => by rw [(hall n).recd.word_eq hk, (hall 0).recd.word_eq hk]⟩

theorem decode_again_twoOnes :
    let first := arrived rs255 (Machine.fresh _) twoOnes
    let s := fun n => ((decodeRs rs255).exec)^[n + 1] first
    (decodeRs rs255).eval (s 5) = (if (decodeRs rs255).eval first = 1 then 0 else (decodeRs rs255).eval first) ∧
      ∀ k < 255, word (s 5) .recd k = word (s 0) .recd k :=
  decode_again rs255 (Machine.fresh _) twoOnes symbols_twoOnes 5

end ReedSolomon
