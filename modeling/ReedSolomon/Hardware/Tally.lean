import ReedSolomon.Spec.RsEncoderTb

/-!
# Counting packets

What `no_encoder_errors` should be once some packets were checked: the number of those that failed since the last
change of the number of errors. Both benches count this way, over different notions of a packet that fails.
-/

namespace ReedSolomon

/-- The count when a packet is drawn. -/
def drawCount (n : ℕ) (v : TestVector) : ℕ := if v.first then 0 else n

open Classical in
/-- The count once a packet is drawn and checked. -/
noncomputable def checkCount (fails : TestVector → Prop) (n : ℕ) (v : TestVector) : ℕ :=
  drawCount n v + if fails v then 1 else 0

/-- The count once the packets were checked. -/
noncomputable def tally (fails : TestVector → Prop) (vectors : List TestVector) : ℕ :=
  vectors.foldl (checkCount fails) 0

variable (fails : TestVector → Prop)

theorem tally_append (vectors : List TestVector) (v : TestVector) :
    tally fails (vectors ++ [v]) = checkCount fails (tally fails vectors) v := by
  rw [tally, List.foldl_append]
  rfl

open Classical in
theorem foldl_checkCount {more : List TestVector} (h : ∀ v ∈ more, v.first = false) (n : ℕ) :
    more.foldl (checkCount fails) n = n + more.countP fun v => fails v := by
  induction more generalizing n with
  | nil => rfl
  | cons v more ih =>
    have hv : v.first = false := h v List.mem_cons_self
    rw [List.foldl_cons, ih fun w hw => h w (List.mem_cons_of_mem v hw), checkCount, drawCount, hv,
      if_neg Bool.false_ne_true, List.countP_cons]
    simp only [decide_eq_true_eq]
    omega

open Classical in
theorem tally_batch (before : List TestVector) {v : TestVector} (hv : v.first = true) {more : List TestVector}
    (h : ∀ w ∈ more, w.first = false) :
    tally fails (before ++ v :: more) = (v :: more).countP fun w => fails w := by
  rw [tally, List.foldl_append, List.foldl_cons, foldl_checkCount fails h, checkCount, drawCount, if_pos hv, List.countP_cons]
  simp only [decide_eq_true_eq]
  omega

theorem tally_eq_zero {vectors : List TestVector} (h : ∀ v ∈ vectors, ¬ fails v) : tally fails vectors = 0 := by
  induction vectors using List.reverseRecOn with
  | nil => rfl
  | append_singleton vectors v ih =>
    rw [tally_append, ih fun w hw => h w (List.mem_append_left _ hw), checkCount, drawCount, ite_self,
      if_neg (h v (List.mem_append_right _ (List.mem_singleton_self v)))]

end ReedSolomon
