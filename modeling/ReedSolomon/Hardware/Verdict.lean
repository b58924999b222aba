import ReedSolomon.Hardware.Bench
import ReedSolomon.Main.Injection

/-!
# The verdict of the bench

A packet that comes back as the block of the message on the ports passes the check whatever errors are injected
(`wp_checkPacket`), if the message on the ports is the message in `data`. The first 237 bytes are drawn for every
packet. The last two stay what the memory held beforehand, and are cut to bytes at the ports: the bench blames a correct
encoder exactly if one of these two ints is not a byte (`verdict_iff`), provided that it comes to check a packet, which
is a matter of what it is sent on ready and valid (`completes_iff`).
-/

open Imp Clocked Finset

namespace ReedSolomon

/-! ### One packet -/

section Check

variable {m : Machine rs255.dims} {c f : ℕ → ℤ}

theorem wp_injectError (hm : Holds m .recd 255 c) (hc : Symbols rs255 255 c) {e : ℤ × ℤ} (he : Legal e) :
    wp (injectError e) (fun _ m' => Keeps [.recd] m m' ∧ Holds m' .recd 255 (hit c e)) m := by
  obtain ⟨⟨hlow, hhigh⟩, hv⟩ := he
  obtain ⟨p, v⟩ := e
  obtain ⟨p, rfl⟩ := Int.eq_ofNat_of_zero_le hlow
  have hp : p < 255 := by
    have : (p : ℤ) < 255 := hhigh
    omega
  have hb := (inBounds_recd_iff p).mpr hp
  unfold injectError
  rw [wp_bind, wp_load (hm p hp), wp_bind, wp_rem (xor_nonneg (hc p hp).1 hv), wp_store hb]
  exact ⟨(Keeps.refl _ _).put (List.mem_singleton_self _) _ _ hb, hm.put p _ hb⟩

theorem wp_injectErrors (hm : Holds m .recd 255 c) (hc : Symbols rs255 255 c) {errors : List (ℤ × ℤ)}
    (herrors : ∀ e ∈ errors, Legal e) :
    wp (injectErrors errors) (fun _ m' => Keeps [.recd] m m' ∧ Holds m' .recd 255 (errors.foldl hit c)) m := by
  induction errors generalizing m c with
  | nil => exact ⟨Keeps.refl _ m, hm⟩
  | cons e errors ih =>
    apply wp_seq (wp_injectError hm hc (herrors e List.mem_cons_self))
    intro _ m₁ ⟨hk₁, hm₁⟩
    apply wp_mono (ih hm₁ (symbols_hit hc e) fun e' he' => herrors e' (List.mem_cons_of_mem e he'))
    intro _ m₂ ⟨hk₂, hm₂⟩
    exact ⟨hk₁.trans hk₂, hm₂⟩

theorem wp_misdecoded (m : Machine rs255.dims) :
    wp misdecoded (fun found m' => Same m m' ∧ (found = true ↔ ∃ k < 239, word m .data k ≠ word m .recd k)) m := by
  apply wp_forUp (fun i found s => Same m s ∧ (found = true ↔ ∃ k < i, word m .data k ≠ word m .recd k))
    (Nat.zero_le messageLength)
  · exact ⟨Keeps.refl _ m, by simp⟩
  · intro i found s _ hi ⟨hs, hfound⟩
    rw [wp_ite]
    split_ifs with hstop
    · obtain ⟨k, hk, hne⟩ := hfound.mp hstop
      rw [wp_pure]
      exact ⟨hs, fun _ => ⟨k, by omega, hne⟩, fun _ => rfl⟩
    · rw [wp_bind]
      apply wp_load_val
      intro s₁ hs₁
      rw [wp_bind]
      apply wp_load_val
      intro s₂ hs₂
      have hdata : s.val .data [(i : ℤ)] = word m .data i := hs.val_eq List.not_mem_nil _
      have hrecd : s₁.val .recd [(i : ℤ)] = word m .recd i := (hs.trans hs₁).val_eq List.not_mem_nil _
      rw [wp_pure, decide_eq_true_iff, hdata, hrecd]
      refine ⟨(hs.trans hs₁).trans hs₂, fun hne => ⟨i, Nat.lt_succ_self i, hne⟩, fun ⟨k, hk, hne⟩ => ?_⟩
      rcases Nat.lt_succ_iff_lt_or_eq.mp hk with hlt | rfl
      · exact absurd (hfound.mpr ⟨k, hlt, hne⟩) hstop
      · exact hne

theorem symbols_blockBytes (f : ℕ → ℤ) (n : ℕ) : Symbols rs255 n (blockBytes f) :=
  symbols_poly (block rs255 (elements rs255 f)) n

theorem wp_decode_hits (hT : HasTables m) {errors : List (ℤ × ℤ)} (hlen : errors.length ≤ 8)
    (hm : Holds m .recd 255 (errors.foldl hit (blockBytes f))) :
    wp (decodeRs rs255) (fun _ m' => Keeps written m m' ∧ Holds m' .recd 255 (blockBytes f)) m := by
  have hsymbols := symbols_hits (symbols_blockBytes f 255) errors
  have hx : HoldsWord m .recd 255 (elements rs255 (errors.foldl hit (blockBytes f))) := by
    intro k hk
    rw [poly_elements hsymbols hk]
    exact hm k hk
  have hdiff : differing rs255 (elements rs255 (errors.foldl hit (blockBytes f))) (block rs255 (elements rs255 f)) =
      differences 255 (errors.foldl hit (blockBytes f)) (blockBytes f) :=
    (differences_eq (fun k hk => (poly_elements hsymbols hk).symm) fun _ _ => rfl).symm
  have hcode := isCodeword_block (elements rs255 f)
  have hfew : (differing rs255 (elements rs255 (errors.foldl hit (blockBytes f)))
      (block rs255 (elements rs255 f))).card ≤ rs255.tt := by
    rw [hdiff]
    exact (card_differences_hits_le _ _).trans hlen
  apply wp_mono (wp_decodeRs hT hx)
  intro code m' ⟨y, hy⟩
  constructor
  · rcases hy.frame with ⟨_, hf⟩ | ⟨hover, _⟩
    · exact hf.keeps
    · exact absurd hover (not_overruns hcode hfew)
  · intro k hk
    rw [hy.recd k hk, hy.outcome.eq_codeword hcode hfew k hk, blockBytes]

theorem wp_checkPacket (hT : HasTables m) {errors : List (ℤ × ℤ)} (herrors : ∀ e ∈ errors, Legal e)
    (hlen : errors.length ≤ 8) (hm : Holds m .recd 255 (blockBytes f)) :
    wp (checkPacket errors) (fun blamed m' => Keeps written m m' ∧ Holds m' .recd 255 (blockBytes f) ∧
      (blamed = true ↔ ∃ k < 239, word m .data k ≠ blockBytes f k)) m := by
  apply wp_seq (wp_injectErrors hm (symbols_blockBytes f 255) herrors)
  rintro _ m₁ ⟨hk₁, hm₁⟩
  have hT₁ : HasTables m₁ := hT.of_keeps hk₁ (by simp) (by simp)
  apply wp_seq (wp_decode_hits hT₁ hlen hm₁)
  rintro _ m₂ ⟨hk₂, hm₂⟩
  have hk : Keeps written m m₂ := (hk₁.mono (by simp [written])).trans hk₂
  apply wp_mono (wp_misdecoded m₂)
  rintro blamed m₃ ⟨hk₃, hblamed⟩
  refine ⟨hk.trans (hk₃.mono (List.nil_subset _)), hm₂.of_keeps hk₃ List.not_mem_nil, hblamed.trans ?_⟩
  apply exists_congr
  intro k
  apply and_congr_right
  intro hlt
  have hdata : word m₂ .data k = word m .data k := hk.val_eq (by simp [written, decodeLocals]) _
  have hrecd : word m₂ .recd k = blockBytes f k := hm₂.val_eq (by omega)
  rw [hdata, hrecd]

/-- Errors that the decoder corrects. -/
def Correctable (errors : List (ℤ × ℤ)) : Prop := errors.length ≤ 8 ∧ ∀ e ∈ errors, Legal e

/-- A stream of `rand()` whose places are in the block: its hits are the errors of a `TestVector`, `injectErrors` does
with them what the loop does with the stream, and the loop draws what the reading of the stream does. -/
theorem injectErrors_stream {rand : ℕ → ℤ} {i : ℕ} {m' : Machine channelDims} (hrand : ∀ n, 0 ≤ rand n)
    (hc : Symbols rs255 255 c) (hm : Holds m .recd 255 c) (hm' : Holds m' .recd 255 c) (hblock : InBlock rand i .none)
    (n : ℕ) : ((Injected.run rand i n .none).hits.length ≤ i ∧ ∀ e ∈ (Injected.run rand i n .none).hits, Legal e) ∧
      ((inject rand i n).eval m').drawn = (Injected.run rand i n .none).drawn ∧
      wp (injectErrors (Injected.run rand i n .none).hits)
        (fun _ s => Keeps [.recd] m s ∧ Holds s .recd 255 (received ((inject rand i n).exec m'))) m := by
  have htracks := wp_iff_run.mp (wp_inject hrand hc hm' hblock n)
  refine ⟨⟨Injected.length_run_le (Nat.zero_le i) n, htracks.legal⟩, htracks.drawn, ?_⟩
  apply wp_mono (wp_injectErrors hm hc htracks.legal)
  intro _ s ⟨hk, hs⟩
  refine ⟨hk, fun k hlt => ?_⟩
  rw [hs k hlt]
  exact congrArg some (htracks.recd.val_eq hlt).symm

end Check

/-! ### A run of the bench -/

/-- The block is complete, and the next segment checks the packet. -/
def Checks (b : RsEncoderTb) : Prop := ∃ c, b.wait = .reading c ∧ blockLength ≤ c

/-- The message `f`, with the beat that was just written to `dataOutputPort`. -/
def record (b : RsEncoderTb) (f : ℕ → ℤ) (j : ℕ) : ℤ :=
  if b.wait = .writing (16 * (j / 16 + 1)) then (b.dataOutputPort (j % 16)).toNat else f j

/-- The message on `dataOutputPort`, every byte as it was written last. -/
def drivenMessage (B : ℕ → RsEncoderTb) : ℕ → ℕ → ℤ
  | 0 => fun _ => 0
  | t + 1 => record (B (t + 1)) (drivenMessage B t)

/-- The block in `recd` is the one an encoder makes of the message `f`. -/
def ReceivedBlock (m : Machine rs255.dims) (f : ℕ → ℤ) (b : RsEncoderTb) : Prop :=
  ∀ k < 255, word b.memory .recd k = word (sent m f) .recd k

/-- The ints behind the drawn bytes are bytes. -/
def ByteTail (m : Machine rs255.dims) : Prop := ∀ k, 237 ≤ k → k < 239 → 0 ≤ word m .data k ∧ word m .data k ≤ 255

/-- What holds between packets: `m` is the memory at the beginning, and the packets of `later` are not drawn. -/
structure Prepared (m : Machine rs255.dims) (later : List TestVector) (b : RsEncoderTb) : Prop where
  tables : HasTables b.memory
  tail : ∀ k, 237 ≤ k → k < 239 → word b.memory .data k = word m .data k
  todo : ∃ sooner, b.todo = sooner ++ later ∧ ∀ v ∈ sooner, Correctable v.errors

/-- What holds while a packet is under way. -/
structure Underway (m : Machine rs255.dims) (later : List TestVector) (b : RsEncoderTb) : Prop
    extends Prepared m later b where
  errors : Correctable b.errors
  bytes : ∀ k < 237, 0 ≤ word b.memory .data k ∧ word b.memory .data k ≤ 255

/-- What holds after every edge; `f` is the message on the ports. -/
inductive Stage (m : Machine rs255.dims) (later : List TestVector) (f : ℕ → ℤ) (b : RsEncoderTb) : Prop
  | top : Prepared m later b → b.wait = .top → Stage m later f b
  | resetHigh : Prepared m later b → b.wait = .resetHigh → Stage m later f b
  | resetLow : Prepared m later b → b.wait = .resetLow → Stage m later f b
  | pollReady : Underway m later b → b.wait = .pollReady → Stage m later f b
  | writing (k : ℕ) : Underway m later b → b.wait = .writing (16 * (k + 1)) → k < 15 →
      (∀ j < 16 * (k + 1), f j = driven b.memory j) → Stage m later f b
  | pollValid : Underway m later b → b.wait = .pollValid → (∀ j < 239, f j = driven b.memory j) → Stage m later f b
  | reading (c : ℕ) (g : ℕ → ℤ) : Underway m later b → b.wait = .reading c → (∀ j < 239, f j = driven b.memory j) →
      Holds b.memory .recd (min c 255) g → Stage m later f b
  | done : Prepared m later b → b.wait = .done → Stage m later f b

theorem record_of_wait {b : RsEncoderTb} (h : ∀ c, b.wait ≠ .writing c) (f : ℕ → ℤ) : record b f = f := by
  funext j
  exact if_neg (h _)

theorem Underway.of_keeps {b b' : RsEncoderTb} {m : Machine rs255.dims} {later : List TestVector} (h : Underway m later b)
    (hk : Keeps [.recd] b.memory b'.memory) (htodo : b'.todo = b.todo) (herrors : b'.errors = b.errors) :
    Underway m later b' := by
  have hdata : ∀ k, word b'.memory .data k = word b.memory .data k := fun k => hk.val_eq (by simp) _
  constructor
  · constructor
    · exact h.tables.of_keeps hk (by simp) (by simp)
    · intro k hlow hhigh
      rw [hdata]
      exact h.tail k hlow hhigh
    · rw [htodo]
      exact h.todo
  · rw [herrors]
    exact h.errors
  · intro k hlt
    rw [hdata]
    exact h.bytes k hlt

namespace RsEncoderTb

variable {b : RsEncoderTb} {m : Machine rs255.dims} {later : List TestVector} {f g : ℕ → ℤ} {i : BenchInput}

theorem stage_take (h : Underway m later b) (hf : ∀ j < 239, f j = driven b.memory j) {c : ℕ} (hc : c ≤ 255)
    (hg : Holds b.memory .recd c g) : Stage m later (record (b.take i c) f) (b.take i c) := by
  -- the sixteen bytes behind those that are there
  have hread : wp (readLanes .recd c i.encoderInputPort) (fun _ m' => Keeps [.recd] b.memory m' ∧
      Holds m' .recd (min (c + nbByteInput) 255) fun k => if k < c then g k else (i.encoderInputPort (k - c)).toNat)
      b.memory := by
    apply wp_readLanes inBounds_recd_iff hc
    · intro k hk
      exact (hg k hk).trans (congrArg some (if_pos hk).symm)
    · intro j _ _
      rw [if_neg (by omega), Nat.add_sub_cancel_left]
  obtain ⟨hk, hnew⟩ := wp_iff_run.mp hread
  have hunder : Underway m later (b.take i c) := h.of_keeps hk rfl rfl
  have hwait : ∀ c', (b.take i c).wait ≠ .writing c' := fun _ h => BenchWait.noConfusion h
  rw [record_of_wait hwait]
  apply Stage.reading (c + nbByteInput) _ hunder rfl
  · intro j hj
    rw [hf j hj, driven, driven]
    exact congrArg (· % 256) (hk.val_eq (by simp) _).symm
  · exact hnew

theorem stage_pollValid (h : Underway m later b) (hf : ∀ j < 239, f j = driven b.memory j) :
    Stage m later (record (b.pollValid i) f) (b.pollValid i) := by
  unfold pollValid
  split_ifs
  · exact stage_take (g := fun _ => 0) h hf (Nat.zero_le _) fun k hk => absurd hk (Nat.not_lt_zero k)
  · rw [record_of_wait fun _ h => BenchWait.noConfusion h]
    exact Stage.pollValid (h.of_keeps (Keeps.refl _ _) rfl rfl) rfl hf

theorem stage_send (h : Underway m later b) {k : ℕ} (hk : k ≤ 15) (hf : ∀ j < 16 * k, f j = driven b.memory j) :
    Stage m later (record (b.send i (16 * k)) f) (b.send i (16 * k)) := by
  unfold send
  split_ifs with hlt
  · rw [messageLength_eq] at hlt
    obtain ⟨hsame, hout⟩ := wp_iff_run.mp (wp_writeLanes (m := b.memory) (a := .data) (16 * k) b.dataOutputPort)
    refine Stage.writing k (h.of_keeps (hsame.mono (List.nil_subset _)) rfl rfl) rfl (by omega) ?_
    intro j hj
    have hdriven : driven ((writeLanes .data (16 * k) b.dataOutputPort).exec b.memory) j = driven b.memory j :=
      congrArg (· % 256) (hsame.val_eq List.not_mem_nil _)
    rw [hdriven]
    rcases Nat.lt_or_ge j (16 * k) with hold | hnew
    · rw [record, if_neg, hf j hold]
      intro hwait
      injection hwait with hbeat
      rw [nbByteInput_eq] at hbeat
      omega
    · have hport := hout (j % 16) (by rw [nbByteInput_eq]; omega)
      have hbeat : 16 * k + nbByteInput = 16 * (j / 16 + 1) := by
        rw [nbByteInput_eq]
        omega
      rw [record, if_pos (congrArg BenchWait.writing hbeat)]
      show (((writeLanes .data (16 * k) b.dataOutputPort).eval b.memory (j % 16)).toNat : ℤ) = word b.memory .data j % 256
      rw [hport, BitVec.toNat_ofInt, show 16 * k + j % 16 = j by omega, word]
      omega
  · rw [messageLength_eq] at hlt
    exact stage_pollValid h fun j hj => hf j (by omega)

theorem stage_pollReady (h : Underway m later b) : Stage m later (record (b.pollReady i) f) (b.pollReady i) := by
  unfold pollReady
  split_ifs
  · exact stage_send (k := 0) h (Nat.zero_le _) fun j hj => absurd hj (by omega)
  · exact Stage.pollReady (h.of_keeps (Keeps.refl _ _) rfl rfl) rfl

theorem underway_draw (h : Prepared m later b) {v : TestVector} {rest : List TestVector} (htodo : b.todo = v :: rest)
    (hlater : later.length ≤ rest.length) : Underway m later (b.draw v rest) := by
  have hw := wrote_drawData b.memory v.bytes
  obtain ⟨sooner, hsplit, hsooner⟩ := h.todo
  rw [htodo] at hsplit
  -- `v` is not one of the later packets
  obtain ⟨u, sooner, rfl⟩ : ∃ u us, sooner = u :: us := by
    cases sooner with
    | nil =>
      have hlength := congrArg List.length hsplit
      rw [List.nil_append, List.length_cons] at hlength
      omega
    | cons u us => exact ⟨u, us, rfl⟩
  obtain ⟨rfl, hrest⟩ := List.cons.inj hsplit
  constructor
  · constructor
    · exact h.tables.of_keeps hw.frame.keeps (by simp) (by simp)
    · intro k hlow hhigh
      have hcell : ((drawData v.bytes).exec b.memory).cell .data (line k) = b.memory.cell .data (line k) :=
        hw.cell_of_notMem line_injective fun hk => by
          have := hk.2
          omega
      rw [← h.tail k hlow hhigh]
      show ((drawData v.bytes).exec b.memory).val .data (line k) = b.memory.val .data (line k)
      rw [Machine.val, Machine.val, hcell, hw.frame.junk]
    · exact ⟨sooner, hrest, fun w hw => hsooner w (List.mem_cons_of_mem v hw)⟩
  · exact hsooner v List.mem_cons_self
  · intro k hk
    have hbyte : word (b.draw v rest).memory .data k = (v.bytes k).toNat := (holds_drawData b.memory v.bytes).val_eq hk
    have hlt := (v.bytes k).isLt
    rw [hbyte]
    omega

/-! ### The packets not drawn yet, and the count -/

theorem todo_nextPacket (b : RsEncoderTb) : (b.nextPacket i).todo = b.todo.tail := by
  unfold nextPacket
  split
  next h =>
    rw [h]
    rfl
  next v rest h =>
    rw [h]
    exact (samePacket_pollReady _).todo

theorem todo_resume (b : RsEncoderTb) : (b.resume i).todo.length ≤ b.todo.length := by
  have htail : b.todo.tail.length ≤ b.todo.length := by
    rw [List.length_tail]
    exact Nat.sub_le _ _
  unfold resume
  split
  · exact le_rfl
  · exact le_rfl
  · rw [todo_nextPacket]
    exact htail
  · rw [(samePacket_pollReady b).todo]
  · rw [(samePacket_send b _).todo]
  · rw [(samePacket_pollValid b).todo]
  · unfold receive
    split_ifs
    · exact le_rfl
    · rw [todo_nextPacket, check_todo]
      exact htail
  · exact le_rfl

theorem noEncoderErrors_nextPacket (h : b.noEncoderErrors = 0) : (b.nextPacket i).noEncoderErrors = 0 := by
  unfold nextPacket
  split
  · exact h
  · rw [(samePacket_pollReady _).noEncoderErrors]
    show (if _ then 0 else b.noEncoderErrors) = 0
    rw [h, ite_self]

theorem noEncoderErrors_resume (h : b.noEncoderErrors = 0) (hcheck : Checks b → b.check.noEncoderErrors = 0) :
    (b.resume i).noEncoderErrors = 0 := by
  unfold resume
  split
  next => exact h
  next => exact h
  next => exact noEncoderErrors_nextPacket h
  next => exact (samePacket_pollReady b).noEncoderErrors.trans h
  next => exact (samePacket_send b _).noEncoderErrors.trans h
  next => exact (samePacket_pollValid b).noEncoderErrors.trans h
  next c hwait =>
    unfold receive
    split_ifs with hlt
    · exact h
    · exact noEncoderErrors_nextPacket (hcheck ⟨c, hwait, not_lt.mp hlt⟩)
  next => exact h

/-! ### A segment -/

theorem stage_nextPacket (h : Prepared m later b) (hlater : later.length ≤ (b.nextPacket i).todo.length) :
    Stage m later (record (b.nextPacket i) f) (b.nextPacket i) := by
  rw [todo_nextPacket] at hlater
  unfold nextPacket
  split
  next =>
    rw [record_of_wait fun _ h => BenchWait.noConfusion h]
    exact Stage.done ⟨h.tables, h.tail, h.todo⟩ rfl
  next v rest htodo =>
    rw [htodo] at hlater
    exact stage_pollReady (underway_draw h htodo hlater)

/-- The check of a packet: the bench blames the encoder if an int in `data` is not the byte it has sent. -/
theorem check_spec (h : Underway m later b) (hf : ∀ j < 239, f j = driven b.memory j)
    (hg : Holds b.memory .recd 255 g) (hblock : ReceivedBlock m f b) :
    Keeps written b.memory b.check.memory ∧ (∀ k < 239, word b.check.memory .recd k = driven b.memory k) ∧
      (b.check.noEncoderErrors = b.noEncoderErrors ↔ ∀ k < 239, word b.memory .data k = driven b.memory k) := by
  have hsymbols : Symbols rs255 239 f := by
    intro k hk
    rw [hf k hk]
    exact symbols_driven b.memory 239 k hk
  have hheld : Holds b.memory .recd 255 (blockBytes f) := by
    intro k hk
    rw [hg k hk, ← hg.val_eq hk]
    exact congrArg some ((hblock k hk).trans (word_sent m hsymbols hk))
  have hmessage : ∀ k < 239, blockBytes f k = driven b.memory k := fun k hk => by
    rw [blockBytes_message hsymbols hk, hf k hk]
  obtain ⟨hk, hrecd, hblamed⟩ := wp_iff_run.mp (wp_checkPacket h.tables h.errors.2 h.errors.1 hheld)
  refine ⟨hk, fun k hlt => ?_, ?_⟩
  · rw [← hmessage k hlt]
    exact hrecd.val_eq (by omega)
  · have hcount : b.check.noEncoderErrors = b.noEncoderErrors ↔ ¬ (checkPacket b.errors).eval b.memory = true := by
      show b.noEncoderErrors + (if (checkPacket b.errors).eval b.memory then 1 else 0) = b.noEncoderErrors ↔ _
      split_ifs with heval <;> simp [heval]
    rw [hcount, hblamed]
    push Not
    exact forall_congr' fun k => forall_congr' fun hlt => by rw [hmessage k hlt]

theorem data_eq_driven_iff (h : Underway m later b) :
    (∀ k < 239, word b.memory .data k = driven b.memory k) ↔ ByteTail m := by
  constructor
  · intro hall k hlow hhigh
    have hk := hall k hhigh
    rw [driven, h.tail k hlow hhigh] at hk
    omega
  · intro htail k hk
    have hbyte : 0 ≤ word b.memory .data k ∧ word b.memory .data k ≤ 255 := by
      rcases Nat.lt_or_ge k 237 with hdrawn | hlow
      · exact h.bytes k hdrawn
      · rw [h.tail k hlow hk]
        exact htail k hlow hk
    rw [driven]
    omega

theorem prepared_check (h : Underway m later b) (hf : ∀ j < 239, f j = driven b.memory j)
    (hg : Holds b.memory .recd 255 g) (hblock : ReceivedBlock m f b) : Prepared m later b.check := by
  obtain ⟨hk, -, -⟩ := check_spec h hf hg hblock
  constructor
  · exact h.tables.of_keeps hk (by simp [written, decodeLocals]) (by simp [written, decodeLocals])
  · intro k hlow hhigh
    rw [← h.tail k hlow hhigh]
    exact hk.val_eq (by simp [written, decodeLocals]) _
  · rw [check_todo]
    exact h.todo

theorem stage_receive (h : Underway m later b) (hf : ∀ j < 239, f j = driven b.memory j) {c : ℕ}
    (hg : Holds b.memory .recd (min c 255) g) (hblock : blockLength ≤ c → ReceivedBlock m f b)
    (hlater : later.length ≤ (b.receive i c).todo.length) :
    Stage m later (record (b.receive i c) f) (b.receive i c) := by
  unfold receive at hlater ⊢
  split_ifs at hlater ⊢ with hlt
  · rw [blockLength_eq] at hlt
    rw [Nat.min_eq_left hlt.le] at hg
    exact stage_take h hf hlt.le hg
  · rw [blockLength_eq] at hlt
    rw [Nat.min_eq_right (not_lt.mp hlt)] at hg
    exact stage_nextPacket (prepared_check h hf hg (hblock (not_lt.mp hlt))) hlater

/-- The step lemma: where the block is right whenever it is checked, every segment leads from stage to stage. -/
theorem stage_resume (h : Stage m later f b) (hblock : Checks b → ReceivedBlock m f b)
    (hlater : later.length ≤ (b.resume i).todo.length) : Stage m later (record (b.resume i) f) (b.resume i) := by
  unfold resume at hlater ⊢
  cases h with
  | top hp hwait =>
    rw [hwait] at hlater ⊢
    rw [record_of_wait fun _ h => BenchWait.noConfusion h]
    exact Stage.resetHigh ⟨hp.tables, hp.tail, hp.todo⟩ rfl
  | resetHigh hp hwait =>
    rw [hwait] at hlater ⊢
    rw [record_of_wait fun _ h => BenchWait.noConfusion h]
    exact Stage.resetLow ⟨hp.tables, hp.tail, hp.todo⟩ rfl
  | resetLow hp hwait =>
    rw [hwait] at hlater ⊢
    exact stage_nextPacket hp hlater
  | pollReady hu hwait =>
    rw [hwait]
    exact stage_pollReady hu
  | writing k hu hwait hk hf =>
    rw [hwait]
    exact stage_send (k := k + 1) hu hk hf
  | pollValid hu hwait hf =>
    rw [hwait]
    exact stage_pollValid hu hf
  | reading c g hu hwait hf hg =>
    rw [hwait] at hlater ⊢
    exact stage_receive hu hf hg (fun hc => hblock ⟨c, hwait, hc⟩) hlater
  | done hp hwait =>
    rw [hwait] at hlater ⊢
    rw [record_of_wait fun c h => BenchWait.noConfusion (hwait.symm.trans h)]
    exact Stage.done hp hwait

end RsEncoderTb

/-! ### The verdict -/

section Run

variable {m : Machine rs255.dims} {tested later : List TestVector} {env : ℕ → BenchInput}

/-- The packet under way is one of those before `later`. -/
def UnderTest (later : List TestVector) (b : RsEncoderTb) : Prop := later.length ≤ b.todo.length

/-- Whenever a packet under test is checked, `recd` holds the block of the message that was driven. -/
def RightBlocks (m : Machine rs255.dims) (later : List TestVector) (B : ℕ → RsEncoderTb) : Prop :=
  ∀ t, UnderTest later (B t) → Checks (B t) → ReceivedBlock m (drivenMessage B t) (B t)

/-- While the packets under test are on, no error is counted, and every comparison of a check comes out equal. -/
def Spares (later : List TestVector) (B : ℕ → RsEncoderTb) : Prop :=
  ∀ t, UnderTest later (B t) → (B t).noEncoderErrors = 0 ∧ (Checks (B t) → (B t).check.noEncoderErrors = 0 ∧
    ∀ k < 239, word (B t).check.memory .data k = word (B t).check.memory .recd k)

/-- A packet under test is checked. -/
def Completes (later : List TestVector) (B : ℕ → RsEncoderTb) : Prop := ∃ t, UnderTest later (B t) ∧ Checks (B t)

theorem stage_construct (htested : ∀ v ∈ tested, Correctable v.errors) :
    Stage m later (fun _ => 0) (RsEncoderTb.construct m (tested ++ later)) := by
  obtain ⟨hinitialised, hframe⟩ := booted_spec m
  refine Stage.top ⟨hinitialised.tables, fun k _ _ => ?_, ⟨tested, rfl, htested⟩⟩ rfl
  exact hframe.keeps.val_eq (by simp) _

/-- The run lemma, as long as the blocks checked so far were right. -/
theorem stage_run (htested : ∀ v ∈ tested, Correctable v.errors) {t : ℕ}
    (hblock : ∀ s < t, UnderTest later (benchRun m (tested ++ later) env s) → Checks (benchRun m (tested ++ later) env s) →
      ReceivedBlock m (drivenMessage (benchRun m (tested ++ later) env) s) (benchRun m (tested ++ later) env s))
    (hlater : UnderTest later (benchRun m (tested ++ later) env t)) :
    Stage m later (drivenMessage (benchRun m (tested ++ later) env) t) (benchRun m (tested ++ later) env t) := by
  induction t with
  | zero => exact stage_construct htested
  | succ t ih =>
    have hbefore : UnderTest later (benchRun m (tested ++ later) env t) := hlater.trans (RsEncoderTb.todo_resume _)
    apply RsEncoderTb.stage_resume
    · exact ih (fun s hs => hblock s (hs.trans (Nat.lt_succ_self t))) hbefore
    · exact hblock t (Nat.lt_succ_self t) hbefore
    · exact hlater

theorem Stage.of_checks {f : ℕ → ℤ} {b : RsEncoderTb} (h : Stage m later f b) (hchecks : Checks b) :
    Underway m later b ∧ (∀ j < 239, f j = driven b.memory j) ∧ ∃ g, Holds b.memory .recd 255 g := by
  obtain ⟨c, hwait, hc⟩ := hchecks
  cases h with
  | reading c' g hu hwait' hf hg =>
    obtain rfl : c = c' := BenchWait.reading.inj (hwait.symm.trans hwait')
    rw [Nat.min_eq_right (show 255 ≤ c from hc)] at hg
    exact ⟨hu, hf, g, hg⟩
  | top _ h => exact BenchWait.noConfusion (hwait.symm.trans h)
  | resetHigh _ h => exact BenchWait.noConfusion (hwait.symm.trans h)
  | resetLow _ h => exact BenchWait.noConfusion (hwait.symm.trans h)
  | pollReady _ h => exact BenchWait.noConfusion (hwait.symm.trans h)
  | writing _ _ h => exact BenchWait.noConfusion (hwait.symm.trans h)
  | pollValid _ h => exact BenchWait.noConfusion (hwait.symm.trans h)
  | done _ h => exact BenchWait.noConfusion (hwait.symm.trans h)

theorem Stage.verdict {f : ℕ → ℤ} {b : RsEncoderTb} (h : Stage m later f b) (hchecks : Checks b)
    (hblock : ReceivedBlock m f b) : (b.check.noEncoderErrors = b.noEncoderErrors ↔ ByteTail m) ∧
      ((∀ k < 239, word b.check.memory .data k = word b.check.memory .recd k) ↔ ByteTail m) := by
  obtain ⟨hu, hf, g, hg⟩ := h.of_checks hchecks
  obtain ⟨hk, hrecd, hcount⟩ := RsEncoderTb.check_spec hu hf hg hblock
  have hdriven := RsEncoderTb.data_eq_driven_iff hu
  refine ⟨hcount.trans hdriven, Iff.trans ?_ hdriven⟩
  apply forall_congr'
  intro k
  apply forall_congr'
  intro hlt
  have hdata : word b.check.memory .data k = word b.memory .data k := hk.val_eq (by simp [written, decodeLocals]) _
  rw [hrecd k hlt, hdata]

end Run

/-! ### Whether a packet is checked -/

/-- There is a packet under test, ready is up at an edge from 3 on, and valid at one behind the fifteen beats of the
message. -/
def Answered (tested : List TestVector) (env : ℕ → BenchInput) : Prop :=
  tested ≠ [] ∧ ∃ t t', 3 ≤ t ∧ t + 15 ≤ t' ∧ (env t).encoderReadyPort = true ∧ (env t').encoderValidPort = true

/-- What the bench was sent for it to wait where it does behind edge `t`. -/
inductive Reached (vectors : List TestVector) (env : ℕ → BenchInput) (t : ℕ) (b : RsEncoderTb) : Prop
  | top : b.wait = .top → t = 0 → b.todo.length ≤ vectors.length → Reached vectors env t b
  | resetHigh : b.wait = .resetHigh → t = 1 → b.todo.length ≤ vectors.length → Reached vectors env t b
  | resetLow : b.wait = .resetLow → t = 2 → b.todo.length ≤ vectors.length → Reached vectors env t b
  | pollReady : b.wait = .pollReady → 3 ≤ t → b.todo.length < vectors.length → Reached vectors env t b
  | writing (s c : ℕ) : b.wait = .writing c → 3 ≤ s → 16 * s + c ≤ 16 * (t + 1) → (env s).encoderReadyPort = true →
      b.todo.length < vectors.length → Reached vectors env t b
  | pollValid (s : ℕ) : b.wait = .pollValid → 3 ≤ s → s + 15 ≤ t → (env s).encoderReadyPort = true →
      b.todo.length < vectors.length → Reached vectors env t b
  | reading (c s s' : ℕ) : b.wait = .reading c → 3 ≤ s → s + 15 ≤ s' → s' ≤ t → (env s).encoderReadyPort = true →
      (env s').encoderValidPort = true → b.todo.length < vectors.length → Reached vectors env t b
  | done : b.wait = .done → Reached vectors env t b

namespace RsEncoderTb

variable {vectors : List TestVector} {env : ℕ → BenchInput} {t s : ℕ} {b : RsEncoderTb}

theorem reached_pollValid (hs : 3 ≤ s) (hst : s + 15 ≤ t) (hready : (env s).encoderReadyPort = true)
    (htodo : b.todo.length < vectors.length) : Reached vectors env t (b.pollValid (env t)) := by
  unfold pollValid
  split_ifs with hvalid
  · exact .reading _ s t rfl hs hst le_rfl hready hvalid htodo
  · exact .pollValid s rfl hs hst hready htodo

theorem reached_send {c : ℕ} (hs : 3 ≤ s) (hc : 16 * s + c ≤ 16 * t) (hready : (env s).encoderReadyPort = true)
    (htodo : b.todo.length < vectors.length) : Reached vectors env t (b.send (env t) c) := by
  unfold send
  split_ifs with hlt
  · refine .writing s _ rfl hs ?_ hready htodo
    rw [nbByteInput_eq]
    omega
  · rw [messageLength_eq] at hlt
    exact reached_pollValid hs (by omega) hready htodo

theorem reached_pollReady (ht : 3 ≤ t) (htodo : b.todo.length < vectors.length) :
    Reached vectors env t (b.pollReady (env t)) := by
  unfold pollReady
  split_ifs with hready
  · exact reached_send ht (by omega) hready htodo
  · exact .pollReady rfl ht htodo

theorem reached_nextPacket (ht : 3 ≤ t) (htodo : b.todo.length ≤ vectors.length) :
    Reached vectors env t (b.nextPacket (env t)) := by
  unfold nextPacket
  split
  next => exact .done rfl
  next v rest hrest =>
    rw [hrest, List.length_cons] at htodo
    exact reached_pollReady ht htodo

theorem reached_resume (h : Reached vectors env t b) : Reached vectors env (t + 1) (b.resume (env (t + 1))) := by
  unfold resume
  cases h with
  | top hwait ht htodo =>
    rw [hwait]
    exact .resetHigh rfl (by omega) htodo
  | resetHigh hwait ht htodo =>
    rw [hwait]
    exact .resetLow rfl (by omega) htodo
  | resetLow hwait ht htodo =>
    rw [hwait]
    exact reached_nextPacket (by omega) htodo
  | pollReady hwait ht htodo =>
    rw [hwait]
    exact reached_pollReady (by omega) htodo
  | writing s c hwait hs hc hready htodo =>
    rw [hwait]
    exact reached_send hs hc hready htodo
  | pollValid s hwait hs hst hready htodo =>
    rw [hwait]
    exact reached_pollValid hs (by omega) hready htodo
  | reading c s s' hwait hs hss hst hready hvalid htodo =>
    rw [hwait]
    show Reached vectors env (t + 1) (b.receive (env (t + 1)) c)
    unfold receive
    split_ifs
    · exact .reading _ s s' rfl hs hss (by omega) hready hvalid htodo
    · refine reached_nextPacket (by omega) ?_
      rw [check_todo]
      exact htodo.le
  | done hwait =>
    rw [hwait]
    exact .done hwait

/-- The bench waits at `w` with the packets `todo` still to be sent. -/
structure StandsAt (w : BenchWait) (todo : List TestVector) (b : RsEncoderTb) : Prop where
  wait : b.wait = w
  todo : b.todo = todo

/-- The packet is on, and the bench polls for ready. -/
def AwaitsReady (todo : List TestVector) (b : RsEncoderTb) : Prop :=
  ∃ b₀ : RsEncoderTb, (∀ i, b.resume i = b₀.pollReady i) ∧ b₀.todo = todo

/-- The message is sent, and the bench polls for valid. -/
def AwaitsValid (todo : List TestVector) (b : RsEncoderTb) : Prop :=
  ∃ b₀ : RsEncoderTb, (∀ i, b.resume i = b₀.pollValid i) ∧ b₀.todo = todo

section FirstPacket

variable {todo : List TestVector} {i : BenchInput} {k : ℕ}

theorem sends_of_ready (h : AwaitsReady todo b) (hready : i.encoderReadyPort = true) :
    StandsAt (.writing (16 * 1)) todo (b.resume i) := by
  obtain ⟨b₀, hresume, rfl⟩ := h
  rw [hresume, pollReady, if_pos hready]
  exact ⟨rfl, rfl⟩

theorem awaitsReady_resume (h : AwaitsReady todo b) (hready : ¬ i.encoderReadyPort = true) :
    AwaitsReady todo (b.resume i) := by
  obtain ⟨b₀, hresume, rfl⟩ := h
  rw [hresume, pollReady, if_neg hready]
  exact ⟨{ b₀ with wait := .pollReady }, fun _ => rfl, rfl⟩

theorem StandsAt.next_writing (h : StandsAt (.writing (16 * k)) todo b) (hk : k < 15) :
    StandsAt (.writing (16 * (k + 1))) todo (b.resume i) := by
  have hresume : b.resume i = b.send i (16 * k) := by rw [resume, h.wait]
  rw [hresume, send, if_pos (by rw [messageLength_eq]; omega)]
  exact ⟨rfl, h.todo⟩

theorem StandsAt.awaitsValid (h : StandsAt (.writing (16 * 15)) todo b) : AwaitsValid todo b := by
  refine ⟨b, fun i => ?_, h.todo⟩
  have hresume : b.resume i = b.send i (16 * 15) := by rw [resume, h.wait]
  rw [hresume, send, if_neg (by decide)]

theorem reads_of_valid (h : AwaitsValid todo b) (hvalid : i.encoderValidPort = true) :
    StandsAt (.reading (16 * 1)) todo (b.resume i) := by
  obtain ⟨b₀, hresume, rfl⟩ := h
  rw [hresume, pollValid, if_pos hvalid]
  exact ⟨rfl, rfl⟩

theorem awaitsValid_resume (h : AwaitsValid todo b) (hvalid : ¬ i.encoderValidPort = true) :
    AwaitsValid todo (b.resume i) := by
  obtain ⟨b₀, hresume, rfl⟩ := h
  rw [hresume, pollValid, if_neg hvalid]
  exact ⟨{ b₀ with wait := .pollValid }, fun _ => rfl, rfl⟩

theorem StandsAt.next_reading (h : StandsAt (.reading (16 * k)) todo b) (hk : k < 16) :
    StandsAt (.reading (16 * (k + 1))) todo (b.resume i) := by
  have hresume : b.resume i = b.receive i (16 * k) := by rw [resume, h.wait]
  rw [hresume, receive, if_pos (by rw [blockLength_eq]; omega)]
  exact ⟨rfl, h.todo⟩

end FirstPacket

end RsEncoderTb

section Answers

open RsEncoderTb

variable {m : Machine rs255.dims} {tested later : List TestVector} {env : ℕ → BenchInput}

theorem Completes.answered (h : Completes later (benchRun m (tested ++ later) env)) : Answered tested env := by
  obtain ⟨t, hlater, c, hwait, _⟩ := h
  have hreached : ∀ t, Reached (tested ++ later) env t (benchRun m (tested ++ later) env t) := by
    intro t
    induction t with
    | zero => exact .top rfl rfl le_rfl
    | succ t ih => exact reached_resume ih
  cases hreached t with
  | reading c' s s' _ hs hss _ hready hvalid htodo =>
    refine ⟨?_, s, s', hs, hss, hready, hvalid⟩
    rintro rfl
    exact absurd (lt_of_le_of_lt hlater htodo) (lt_irrefl _)
  | top h => exact BenchWait.noConfusion (hwait.symm.trans h)
  | resetHigh h => exact BenchWait.noConfusion (hwait.symm.trans h)
  | resetLow h => exact BenchWait.noConfusion (hwait.symm.trans h)
  | pollReady h => exact BenchWait.noConfusion (hwait.symm.trans h)
  | writing _ _ h => exact BenchWait.noConfusion (hwait.symm.trans h)
  | pollValid _ h => exact BenchWait.noConfusion (hwait.symm.trans h)
  | done h => exact BenchWait.noConfusion (hwait.symm.trans h)

theorem Answered.completes (h : Answered tested env) : Completes later (benchRun m (tested ++ later) env) := by
  obtain ⟨hne, t, t', ht, htt, hready, hvalid⟩ := h
  obtain ⟨v, rest, rfl⟩ := List.exists_cons_of_ne_nil hne
  have hB : Follows resume env (benchRun m (v :: rest ++ later) env) := follows_run _ _ _
  have hbegins : AwaitsReady (rest ++ later) (benchRun m (v :: rest ++ later) env 2) :=
    ⟨(benchRun m (v :: rest ++ later) env 2).draw v (rest ++ later), fun _ => rfl, rfl⟩
  obtain ⟨s, _, hst, hsends⟩ := hB.await (fun i => i.encoderReadyPort = true) _
    (StandsAt (.writing (16 * 1)) (rest ++ later)) (fun _ _ => sends_of_ready) (fun _ _ => awaitsReady_resume) hbegins ht hready
  have hsent : StandsAt (.writing (16 * 15)) (rest ++ later) (benchRun m (v :: rest ++ later) env (s + 14)) := by
    refine stages (n := 14) (fun j => StandsAt (.writing (16 * (j + 1))) (rest ++ later)) hsends (fun j hj h => ?_) le_rfl
    rw [hB]
    exact h.next_writing (by omega)
  obtain ⟨s', _, _, hreads⟩ := hB.await (fun i => i.encoderValidPort = true) _
    (StandsAt (.reading (16 * 1)) (rest ++ later)) (fun _ _ => reads_of_valid) (fun _ _ => awaitsValid_resume)
    hsent.awaitsValid (by omega) hvalid
  have hlast : StandsAt (.reading (16 * 16)) (rest ++ later) (benchRun m (v :: rest ++ later) env (s' + 15)) := by
    refine stages (n := 15) (fun j => StandsAt (.reading (16 * (j + 1))) (rest ++ later)) hreads (fun j hj h => ?_) le_rfl
    rw [hB]
    exact h.next_reading (by omega)
  refine ⟨s' + 15, ?_, _, hlast.wait, by decide⟩
  rw [UnderTest, hlast.todo, List.length_append]
  exact Nat.le_add_left _ _

theorem completes_iff : Completes later (benchRun m (tested ++ later) env) ↔ Answered tested env :=
  ⟨Completes.answered, Answered.completes⟩

end Answers

section Run

variable {m : Machine rs255.dims} {tested later : List TestVector} {env : ℕ → BenchInput}

/-- **The bench blames a correct encoder** exactly if it is answered, so that it checks a packet, and one of the last two
ints of `data` was not a byte to begin with. -/
theorem verdict_iff (m : Machine rs255.dims) (tested later : List TestVector) (env : ℕ → BenchInput)
    (htested : ∀ v ∈ tested, Correctable v.errors) (hblock : RightBlocks m later (benchRun m (tested ++ later) env)) :
    Spares later (benchRun m (tested ++ later) env) ↔ (Answered tested env → ByteTail m) := by
  rw [← @completes_iff m tested later env]
  have hverdict : ∀ t (hlater : UnderTest later (benchRun m (tested ++ later) env t))
      (hchecks : Checks (benchRun m (tested ++ later) env t)), _ := fun t hlater hchecks =>
    (stage_run htested (fun s _ => hblock s) hlater).verdict hchecks (hblock t hlater hchecks)
  constructor
  · rintro h ⟨t, hlater, hchecks⟩
    exact (hverdict t hlater hchecks).2.mp ((h t hlater).2 hchecks).2
  · intro h
    have hcount : ∀ t, UnderTest later (benchRun m (tested ++ later) env t) →
        (benchRun m (tested ++ later) env t).noEncoderErrors = 0 := by
      intro t
      induction t with
      | zero => exact fun _ => rfl
      | succ t ih =>
        intro hlater
        have hbefore : UnderTest later (benchRun m (tested ++ later) env t) := hlater.trans (RsEncoderTb.todo_resume _)
        apply RsEncoderTb.noEncoderErrors_resume (ih hbefore)
        intro hchecks
        rw [(hverdict t hbefore hchecks).1.mpr (h ⟨t, hbefore, hchecks⟩), ih hbefore]
    intro t hlater
    refine ⟨hcount t hlater, fun hchecks => ?_⟩
    obtain ⟨hsame, hequal⟩ := hverdict t hlater hchecks
    have htail := h ⟨t, hlater, hchecks⟩
    exact ⟨(hsame.mpr htail).trans (hcount t hlater), hequal.mpr htail⟩

end Run

/-! ### One packet with the encoder -/

section Single

variable (m m' : Machine rs255.dims) (v : TestVector)

/-- The ports of the encoder in `sc_main`, as the bench samples them. -/
def encoderPorts (vectors : List TestVector) (t : ℕ) : BenchInput := RsEncoderTb.inputOf (scMain m m' vectors (t - 1)).1

theorem benchRun_encoderPorts (vectors : List TestVector) (t : ℕ) :
    benchRun m' vectors (encoderPorts m m' vectors) t = (scMain m m' vectors t).2 := by
  induction t with
  | zero => rfl
  | succ t ih =>
    have hnext : benchRun m' vectors (encoderPorts m m' vectors) (t + 1) =
        (benchRun m' vectors (encoderPorts m m' vectors) t).resume (encoderPorts m m' vectors (t + 1)) := rfl
    rw [hnext, ih]
    exact (follows_bench m m' vectors t).symm

theorem RsEncoderTb.done_of_checks {b : RsEncoderTb} (h : Checks b) (htodo : b.todo = []) (i : BenchInput) :
    (b.resume i).wait = .done := by
  obtain ⟨c, hwait, hc⟩ := h
  rw [resume, hwait]
  show (b.receive i c).wait = .done
  rw [receive, if_neg (not_lt.mpr hc), nextPacket, check_todo, htodo]

theorem checks_once {t : ℕ} (h : Checks (scMain m m' [v] t).2) : t = 35 := by
  have hB := follows_bench m m' [v]
  have hpersists : ∀ {a}, (scMain m m' [v] a).2.wait = .done → ∀ j, (scMain m m' [v] (a + j)).2.wait = .done :=
    hB.invariant (fun b => b.wait = .done) fun _ _ h => RsEncoderTb.done_resume h
  have hdrawn : ∀ j, (scMain m m' [v] (3 + j)).2.todo.length ≤ 0 :=
    hB.invariant (fun b => b.todo.length ≤ 0) (fun _ b h => (RsEncoderTb.todo_resume b).trans h) (by
      rw [bench_three]
      exact le_rfl)
  have hdone : ∀ {a}, 3 ≤ a → Checks (scMain m m' [v] a).2 → (scMain m m' [v] (a + 1)).2.wait = .done := by
    intro a ha hchecks
    obtain ⟨j, rfl⟩ := Nat.exists_eq_add_of_le ha
    have hnext : (scMain m m' [v] (3 + j + 1)).2 = _ := hB (3 + j)
    rw [hnext]
    exact RsEncoderTb.done_of_checks hchecks (List.length_eq_zero_iff.mp (Nat.le_zero.mp (hdrawn j))) _
  have hnotDone : ∀ {a}, Checks (scMain m m' [v] a).2 → (scMain m m' [v] a).2.wait ≠ .done := by
    rintro a ⟨c, hwait, _⟩ hd
    exact BenchWait.noConfusion (hwait.symm.trans hd)
  have hlast : Checks (scMain m m' [v] 35).2 := ⟨256, ((lockstep_exchange m m' [v]).1 0 v [] rfl).1, by decide⟩
  -- no check before the packet is drawn
  have hthree : 3 ≤ t := by
    by_contra hlt
    obtain ⟨c, hwait, _⟩ := h
    have htwo := (scMain_two m m' [v]).2.2.1
    obtain rfl | rfl | rfl : t = 0 ∨ t = 1 ∨ t = 2 := by omega
    · exact BenchWait.noConfusion hwait
    · exact BenchWait.noConfusion hwait
    · exact BenchWait.noConfusion (hwait.symm.trans htwo)
  rcases Nat.lt_trichotomy t 35 with hlt | rfl | hgt
  · obtain ⟨j, hj⟩ := Nat.exists_eq_add_of_lt hlt
    have := hpersists (hdone hthree h) j
    rw [show t + 1 + j = 35 by omega] at this
    exact absurd this (hnotDone hlast)
  · rfl
  · obtain ⟨j, rfl⟩ := Nat.exists_eq_add_of_lt hgt
    have := hpersists (hdone (by decide) hlast) j
    rw [show 35 + 1 + j = 35 + j + 1 by omega] at this
    exact absurd this (hnotDone h)

theorem rightBlocks_encoderPorts (hv : Correctable v.errors) :
    RightBlocks m' [] (benchRun m' [v] (encoderPorts m m' [v])) := by
  intro t _ hchecks
  have hrun := benchRun_encoderPorts m m' [v]
  obtain rfl : t = 35 := by
    rw [hrun] at hchecks
    exact checks_once m m' v hchecks
  -- the message on the ports is the one in `data`
  have hstage : Stage m' [] (drivenMessage (benchRun m' [v] (encoderPorts m m' [v])) 35)
      (benchRun m' [v] (encoderPorts m m' [v]) 35) := by
    apply @stage_run m' [v] []
    · intro u hu
      rw [List.mem_singleton.mp hu]
      exact hv
    · intro s hs _ hchecks'
      rw [List.append_nil, hrun] at hchecks'
      exact absurd (checks_once m m' v hchecks') hs.ne
    · exact Nat.zero_le _
  obtain ⟨hready, m₀, hbefore⟩ := packet_begins m m' [v] (n := 0) rfl
  have hreceived := (exchange_scMain m m' [v] hready hbefore).2
  have hmessage := (hstage.of_checks hchecks).2.1
  rw [hrun] at hmessage ⊢
  have hsame : ∀ j < 239, drivenMessage (benchRun m' [v] (encoderPorts m m' [v])) 35 j = driven m₀ j := by
    intro j hj
    rw [hmessage j hj, driven, driven]
    exact congrArg (· % 256) (hreceived.data j)
  have hsymbols : Symbols rs255 239 (drivenMessage (benchRun m' [v] (encoderPorts m m' [v])) 35) := by
    intro j hj
    rw [hsame j hj]
    exact symbols_driven m₀ 239 j hj
  intro k hk
  rw [word_sent m' hsymbols hk]
  exact (hreceived.recd.val_eq hk).trans (congrArg rs255.poly (block_congr (fun j hj =>
    congrArg (fun z : ℤ => rs255.ofBits z.toNat) (hsame j hj).symm) k))

theorem completes_encoderPorts : Completes [] (benchRun m' [v] (encoderPorts m m' [v])) := by
  refine ⟨35, Nat.zero_le _, ?_⟩
  rw [benchRun_encoderPorts]
  exact ⟨256, ((lockstep_exchange m m' [v]).1 0 v [] rfl).1, by decide⟩

end Single

theorem correctable_countingVector : Correctable countingVector.errors :=
  ⟨by decide, fun e he => by
    rw [List.mem_singleton.mp he]
    exact ⟨by decide, by decide⟩⟩

theorem verdict_counting :
    let m := Machine.fresh rs255.dims
    let B := benchRun m ([countingVector] ++ []) (encoderPorts m m [countingVector])
    Spares [] B ↔ (Answered [countingVector] (encoderPorts m m [countingVector]) → ByteTail m) :=
  verdict_iff _ [countingVector] [] _ (fun v hv => by
    rw [List.mem_singleton.mp hv]
    exact correctable_countingVector) (rightBlocks_encoderPorts _ _ countingVector correctable_countingVector)

/-- A memory with 256 behind the drawn bytes. -/
def wideTail : Machine rs255.dims := (Machine.fresh rs255.dims).put .data (line 237) 256 ((inBounds_data_iff 237).mpr (by decide))

/-- One packet over that memory, sent back by the encoder as its block: the bench blames the encoder. -/
theorem verdict_not_spared :
    let B := benchRun wideTail [countingVector] (encoderPorts (Machine.fresh _) wideTail [countingVector])
    Correctable countingVector.errors ∧ RightBlocks wideTail [] B ∧ ¬ Spares [] B := by
  intro B
  have hblock := rightBlocks_encoderPorts (Machine.fresh _) wideTail countingVector correctable_countingVector
  refine ⟨correctable_countingVector, hblock, fun hspares => ?_⟩
  obtain ⟨t, hlater, hchecks⟩ := completes_encoderPorts (Machine.fresh _) wideTail countingVector
  have hstage : Stage wideTail [] (drivenMessage B t) (B t) := by
    apply @stage_run wideTail [countingVector] []
    · intro v hv
      rw [List.mem_singleton.mp hv]
      exact correctable_countingVector
    · exact fun s _ => hblock s
    · exact hlater
  have htail := (hstage.verdict hchecks (hblock t hlater hchecks)).2.mp ((hspares t hlater).2 hchecks).2
  have hwide : word wideTail .data 237 = 256 := Machine.val_of_cell (Machine.cell_put_self _ _ _ _ _)
  have := (htail 237 le_rfl (by decide)).2
  omega

end ReedSolomon
