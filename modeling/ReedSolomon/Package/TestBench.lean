import ReedSolomon.Package.Blank

/-!
# The bench of the package blames a correct encoder

Nothing in `test_bench` stores in the tables, so they are 0 for every packet (`wp_testBench`): each block is decoded to
zeros, and the packet counts as an error of the encoder unless its message is zeros too
(`bench_recovers_iff`).
-/

open Imp

namespace ReedSolomon

namespace Sv

theorem inBounds_data {k : ℕ} (hk : k < 239) : InBounds (dims rs255 .data) (line k) := by
  rw [dims, inBounds_cons, show (rs255.kk : ℤ) = 239 from rfl]
  simp only [inBounds_nil, and_true]
  omega

theorem byteOf_nonneg (v : ℤ) : 0 ≤ byteOf v := Int.emod_nonneg v (by decide)

theorem byteOf_le (v : ℤ) : byteOf v ≤ rs255.nn := Int.lt_add_one_iff.mp (Int.emod_lt_of_pos v (by decide))

variable {m : Machine (dims rs255)}

/-! ### The steps -/

theorem wp_drawData (bytes : ℕ → BitVec 8) :
    wp (drawData bytes) (fun _ m' => Frame [.data] m m' ∧ Holds m' .data 239 fun k => (bytes k).toNat) m := by
  refine wp_mono (wp_forEach_wrote .data line (fun k => (bytes k).toNat) (Nat.zero_le 239) fun k s _ hk hs => ?_)
    fun _ m' h => ⟨h.frame, fun k hk => h.new k ⟨Nat.zero_le k, hk⟩⟩
  rw [wp_store (inBounds_data hk)]
  exact hs.put line_injective k (inBounds_data hk)

theorem wp_receive (f : ℕ → ℤ) : wp (receive rs255 f) (fun _ m' => Frame [.msg] m m' ∧ HasBytes m') m := by
  refine wp_mono (wp_forEach_wrote .msg line (fun k => byteOf (f k)) (Nat.zero_le rs255.nn) fun k s _ hk hs => ?_)
    fun _ m' h => ⟨h.frame, fun k hk => ⟨_, byteOf_nonneg _, byteOf_le _, h.new k ⟨Nat.zero_le k, hk⟩⟩⟩
  rw [wp_store (inBounds_msg hk)]
  exact hs.put line_injective k (inBounds_msg hk)

theorem wp_injectError (hm : HasBytes m) (hit : ℤ × ℤ) :
    wp (injectError hit) (fun _ m' => Keeps [.msg] m m' ∧ HasBytes m') m := by
  unfold injectError
  rw [wp_bind]
  refine wp_load_val fun s hs => ?_
  have hms := hm.of_keeps hs (by simp)
  by_cases hb : InBounds (dims rs255 .msg) [hit.1]
  · rw [wp_store hb]
    refine ⟨(hs.mono (by simp)).put (by simp) _ _ hb, fun k hk => ?_⟩
    by_cases hkey : line k = [hit.1]
    · rw [hkey, Machine.cell_put_self]
      exact ⟨_, byteOf_nonneg _, byteOf_le _, rfl⟩
    · rw [Machine.cell_put_of_idx _ _ _ hkey]
      exact hms k hk
  · rw [wp_store_out hb]
    exact ⟨(hs.mono (by simp)).record _, hms⟩

theorem wp_injectErrors (hm : HasBytes m) (errors : List (ℤ × ℤ)) :
    wp (injectErrors errors) (fun _ m' => Keeps [.msg] m m' ∧ HasBytes m') m := by
  induction errors generalizing m with
  | nil => exact ⟨Keeps.refl _ m, hm⟩
  | cons hit errors ih =>
    refine wp_seq (wp_injectError hm hit) fun _ m₁ ⟨hk₁, hm₁⟩ => ?_
    exact wp_mono (ih hm₁) fun _ m₂ ⟨hk₂, hm₂⟩ => ⟨hk₁.trans hk₂, hm₂⟩

theorem wp_misdecoded {f g : ℕ → ℤ} (hdata : Holds m .data 239 f) (hmsg : Holds m .msg 239 g) :
    wp misdecoded (fun found m' => m' = m ∧ (found = true ↔ ∃ k < 239, f k ≠ g k)) m := by
  refine wp_forUp (fun i found s => s = m ∧ (found = true ↔ ∃ k < i, f k ≠ g k)) (Nat.zero_le messageLength)
    ⟨rfl, by simp⟩ ?_
  rintro i found s - hi ⟨hs, hfound⟩
  subst hs
  rw [wp_ite]
  split_ifs with hstop
  · obtain ⟨k, hk, hne⟩ := hfound.mp hstop
    rw [wp_pure]
    exact ⟨rfl, fun _ => ⟨k, by omega, hne⟩, fun _ => rfl⟩
  · simp only [wp_bind]
    rw [wp_load (hdata i hi), wp_load (hmsg i hi), wp_pure, decide_eq_true_iff]
    refine ⟨rfl, fun hne => ⟨i, Nat.lt_succ_self i, hne⟩, ?_⟩
    rintro ⟨k, hk, hne⟩
    rcases Nat.lt_succ_iff_lt_or_eq.mp hk with hlt | rfl
    · exact absurd (hfound.mpr ⟨k, hlt, hne⟩) hstop
    · exact hne

/-! ### The packets -/

/-- What `test_bench` leaves of the packet `v`: zeros, behind its data. -/
structure Zeroed (v : TestVector) (m : Machine (dims rs255)) : Prop where
  msg : Cleared m .msg 255
  data : Holds m .data 239 fun k => (v.bytes k).toNat

/-- The message of `v` is zeros. -/
def ZeroMessage (v : TestVector) : Prop := ∀ k < 239, v.bytes k = 0

theorem wp_checkPacket (hB : Blank m) (hm : HasBytes m) {f : ℕ → ℤ} (hdata : Holds m .data 239 f)
    (errors : List (ℤ × ℤ)) :
    wp (checkPacket errors) (fun blamed m' => Keeps (.msg :: decodeLocals) m m' ∧ Cleared m' .msg 255 ∧
      (blamed = true ↔ ∃ k < 239, f k ≠ 0)) m := by
  apply wp_seq (wp_injectErrors hm errors)
  rintro _ m₁ ⟨hk₁, hm₁⟩
  apply wp_seq (wp_decode_blank (hB.of_keeps hk₁ (by simp) (by simp)) hm₁)
  rintro _ m₂ ⟨-, hk₂, hzero⟩
  have hdata₂ := (hdata.of_keeps hk₁ (by simp)).of_keeps hk₂ (by simp [decodeLocals])
  refine wp_mono (wp_misdecoded (g := fun _ => 0) hdata₂ fun k hk => hzero k (lt_trans hk (by decide))) ?_
  rintro blamed m' ⟨hm', hblamed⟩
  subst hm'
  exact ⟨(hk₁.mono (by simp)).trans hk₂, hzero, hblamed⟩

theorem wp_testPacket (hB : Blank m) (v : TestVector) :
    wp (testPacket v) (fun blamed m' => Blank m' ∧ Zeroed v m' ∧ (blamed = false ↔ ZeroMessage v)) m := by
  refine wp_seq (wp_drawData v.bytes) fun _ m₁ ⟨hf₁, hdata⟩ => wp_seq (wp_receive _) fun _ m₂ ⟨hf₂, hm₂⟩ => ?_
  have hk : Keeps [.data, .msg] m m₂ := (hf₁.keeps.mono (by simp)).trans (hf₂.keeps.mono (by simp))
  have hB₂ := hB.of_keeps hk (by simp) (by simp)
  have hdata₂ := hdata.of_keeps hf₂.keeps (by simp)
  refine wp_mono (wp_checkPacket hB₂ hm₂ hdata₂ v.errors) fun blamed m' ⟨hk₃, hzero, hblamed⟩ => ?_
  refine ⟨hB₂.of_keeps hk₃ (by simp [decodeLocals]) (by simp [decodeLocals]),
    ⟨hzero, hdata₂.of_keeps hk₃ (by simp [decodeLocals])⟩, ?_⟩
  have hbyte : ∀ b : BitVec 8, (b.toNat : ℤ) ≠ 0 ↔ b ≠ 0 := fun b => by
    rw [Ne, Int.natCast_eq_zero, Ne, ← BitVec.toNat_inj]
    rfl
  rw [← Bool.not_eq_true, hblamed]
  simp only [hbyte, not_exists, not_and, not_not]
  rfl

/-- The tables stay as they are, so the packets are all treated alike. -/
theorem wp_testBench (hB : Blank m) (vectors : List TestVector) (n : ℕ) :
    wp (testBench vectors n) (fun n' m' => (vectors = [] → m' = m) ∧
      (∀ v, vectors.getLast? = some v → Zeroed v m') ∧ (n = 0 → (∀ v ∈ vectors, ZeroMessage v) → n' = 0)) m := by
  induction vectors generalizing m n with
  | nil => exact ⟨fun _ => rfl, nofun, fun hn _ => hn⟩
  | cons v rest ih =>
    refine wp_seq (wp_testPacket hB v) fun blamed m₁ ⟨hB₁, hzero, hblamed⟩ => ?_
    have hrest : ∀ n₁, (n = 0 → ZeroMessage v → n₁ = 0) → wp (testBench rest n₁) (fun n' m' => (v :: rest = [] → m' = m) ∧
        (∀ w, (v :: rest).getLast? = some w → Zeroed w m') ∧
        (n = 0 → (∀ w ∈ v :: rest, ZeroMessage w) → n' = 0)) m₁ := by
      intro n₁ hn₁
      refine wp_mono (ih hB₁ n₁) fun n' m' ⟨hnil, hlast, hcount⟩ => ⟨nofun, fun w hw => ?_, fun hn hall => ?_⟩
      · cases rest with
        | nil =>
          rw [hnil rfl]
          cases hw
          exact hzero
        | cons u us => exact hlast w (List.getLast?_cons_cons ▸ hw)
      · exact hcount (hn₁ hn (hall v List.mem_cons_self)) fun w hw => hall w (List.mem_cons_of_mem v hw)
    have hstart : n = 0 → (if v.first then 0 else n) = 0 := by
      intro hn
      rw [hn, ite_self]
    cases blamed with
    | true => exact hrest _ fun _ hv => absurd (hblamed.mpr hv) Bool.true_eq_false_eq_False
    | false => exact hrest _ fun hn _ => hstart hn

theorem testBench_spec (unknown : ℤ) (vectors : List TestVector) (v : TestVector) :
    Zeroed v ((testBench (vectors ++ [v]) 0).exec (elaborated rs255 unknown)) ∧
      ((∀ w ∈ vectors ++ [v], ZeroMessage w) → (testBench (vectors ++ [v]) 0).eval (elaborated rs255 unknown) = 0) := by
  obtain ⟨-, hlast, hcount⟩ := wp_iff_run.mp (wp_testBench (blank_elaborated unknown) (vectors ++ [v]) 0)
  exact ⟨hlast v List.getLast?_concat, hcount rfl⟩

/-- **The messages the bench recovers.** Behind every packet `recd` holds the message again, and no error was
counted, exactly if all messages are zeros. -/
theorem bench_recovers_iff (unknown : ℤ) (vectors : List TestVector) :
    (∀ before v rest, vectors = before ++ v :: rest →
      let run := testBench (before ++ [v]) 0
      (∀ k < 239, (run.exec (elaborated rs255 unknown)).val .msg (line k) = (v.bytes k).toNat) ∧
        run.eval (elaborated rs255 unknown) = 0) ↔ ∀ v ∈ vectors, ∀ k < 239, v.bytes k = 0 := by
  constructor
  · intro h v hv k hk
    obtain ⟨before, rest, hsplit⟩ := List.append_of_mem hv
    have hrecovered := (h before v rest hsplit).1 k hk
    have hzero := (testBench_spec unknown before v).1.msg k (by omega)
    rw [Machine.val_of_cell hzero] at hrecovered
    exact BitVec.eq_of_toNat_eq (Int.natCast_eq_zero.mp hrecovered.symm)
  · intro hall before v rest hsplit
    obtain ⟨hzero, hcount⟩ := testBench_spec unknown before v
    have hin : ∀ w ∈ before ++ [v], ZeroMessage w := by
      intro w hw
      refine hall w ?_
      rw [hsplit]
      rcases List.mem_append.mp hw with hbefore | hlast
      · exact List.mem_append_left _ hbefore
      · exact List.mem_append_right _ (List.mem_singleton.mp hlast ▸ List.mem_cons_self)
    refine ⟨fun k hk => ?_, hcount hin⟩
    rw [Machine.val_of_cell (hzero.msg k (by omega)), hin v (by simp) k hk]
    rfl

/-- A message that begins with 1, in a block without errors. -/
def oneVector : TestVector := ⟨fun k => if k = 0 then 1 else 0, [], true⟩

theorem oneVector_not_recovered :
    ¬ ∀ k < 239, ((testBench [oneVector] 0).exec (elaborated rs255 0)).val .msg (line k) = (oneVector.bytes k).toNat := by
  intro h
  have hzero := Machine.val_of_cell ((testBench_spec 0 [] oneVector).1.msg 0 (by decide))
  exact absurd (hzero.symm.trans (h 0 (by decide))) (by decide)

end Sv

end ReedSolomon
