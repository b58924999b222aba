import ReedSolomon.Decoder.Exits
import ReedSolomon.Hardware.Tally
import ReedSolomon.Hardware.Verdict
import ReedSolomon.Main.Blocks

/-!
# `sc_main` from end to end

Encoder and bench on one clock, with any number of packets and of errors. Which packets fail is a matter of what is
drawn for them (`Fails`): those that hold an int that is no byte, and those whose errors the decoder does not undo.
After every packet `no_encoder_errors` is the number of these (`scMain_counts`).
-/

open Imp Clocked

namespace ReedSolomon

/-! ### The segments within a packet -/

namespace RsEncoderTb

variable {b : RsEncoderTb} {i : BenchInput}

/-- What is left alone while a packet is under way. -/
structure Within (b b' : RsEncoderTb) : Prop extends SamePacket b b' where
  memory : Keeps [.recd] b.memory b'.memory

theorem Within.refl (b : RsEncoderTb) : Within b b := ⟨⟨rfl, rfl, rfl, rfl⟩, Keeps.refl _ _⟩

theorem Within.trans {b' b'' : RsEncoderTb} (h : Within b b') (h' : Within b' b'') : Within b b'' where
  resetPort := h'.resetPort.trans h.resetPort
  errors := h'.errors.trans h.errors
  todo := h'.todo.trans h.todo
  noEncoderErrors := h'.noEncoderErrors.trans h.noEncoderErrors
  memory := h.memory.trans h'.memory

theorem within_take (b : RsEncoderTb) (c : ℕ) : Within b (b.take i c) :=
  ⟨⟨rfl, rfl, rfl, rfl⟩, (writes_readLanes rs255 .recd c i.encoderInputPort).only b.memory⟩

theorem within_pollValid (b : RsEncoderTb) : Within b (b.pollValid i) := by
  unfold pollValid
  split_ifs
  · exact within_take b 0
  · exact ⟨⟨rfl, rfl, rfl, rfl⟩, Keeps.refl _ _⟩

theorem within_send (b : RsEncoderTb) (c : ℕ) : Within b (b.send i c) := by
  unfold send
  split_ifs
  · exact ⟨⟨rfl, rfl, rfl, rfl⟩, ((writes_writeLanes rs255 .data c b.dataOutputPort).only b.memory).mono (by simp)⟩
  · exact within_pollValid b

theorem within_pollReady (b : RsEncoderTb) : Within b (b.pollReady i) := by
  unfold pollReady
  split_ifs
  · exact within_send b 0
  · exact ⟨⟨rfl, rfl, rfl, rfl⟩, Keeps.refl _ _⟩

/-- The bench went on to another packet, or has none left. -/
def Past (b b' : RsEncoderTb) : Prop := b'.todo.length < b.todo.length ∨ b'.wait = .done

theorem past_nextPacket (b : RsEncoderTb) : Past b (b.nextPacket i) := by
  cases htodo : b.todo with
  | nil =>
    right
    rw [nextPacket, htodo]
  | cons v rest =>
    left
    rw [todo_nextPacket, htodo]
    simp

/-- The step lemma: a segment stays within the packet or goes past it. -/
theorem within_resume (h : Quiet b) : Within b (b.resume i) ∨ Past b (b.resume i) := by
  unfold resume
  split
  · exact absurd ‹_› h.top
  · exact absurd ‹_› h.resetHigh
  · exact Or.inr (past_nextPacket b)
  · exact Or.inl (within_pollReady b)
  · exact Or.inl (within_send b _)
  · exact Or.inl (within_pollValid b)
  · unfold receive
    split_ifs
    · exact Or.inl (within_take b _)
    · have hpast : Past b.check (b.check.nextPacket i) := past_nextPacket b.check
      rw [Past, check_todo] at hpast
      exact Or.inr hpast
  · exact Or.inl (Within.refl b)

/-- The run lemma: a bench that has the same packets left and is not done is still in the same packet. -/
theorem within_run {env : ℕ → BenchInput} {B : ℕ → RsEncoderTb} (hB : Follows resume env B) {a : ℕ} (ha : Quiet (B a))
    {n : ℕ} (htodo : (B (a + n)).todo = (B a).todo) (hwait : (B (a + n)).wait ≠ .done) : Within (B a) (B (a + n)) := by
  have hquiet : ∀ n, Quiet (B (a + n)) := hB.invariant Quiet (fun _ _ h => quiet_resume h) ha
  have hall : ∀ n, Within (B a) (B (a + n)) ∨ Past (B a) (B (a + n)) := by
    intro n
    induction n with
    | zero => exact Or.inl (Within.refl _)
    | succ n ih =>
      rw [← Nat.add_assoc, hB]
      rcases ih with hwithin | hpast | hdone
      · rcases within_resume (hquiet n) (i := env (a + n + 1)) with hstep | hstep | hstep
        · exact Or.inl (hwithin.trans hstep)
        · exact Or.inr (Or.inl (by rw [← hwithin.todo]; exact hstep))
        · exact Or.inr (Or.inr hstep)
      · exact Or.inr (Or.inl (lt_of_le_of_lt (todo_resume _) hpast))
      · exact Or.inr (Or.inr (done_resume hdone))
  rcases hall n with hwithin | hless | hdone
  · exact hwithin
  · exact absurd hless (by rw [htodo]; exact lt_irrefl _)
  · exact absurd hdone hwait

end RsEncoderTb

/-! ### The check of a packet -/

section Packet

variable (m : Machine rs255.dims) (v : TestVector)

/-- The ints the bench holds for the packet, `m` being its memory at the beginning. -/
def packetInts (k : ℕ) : ℤ := if k < 237 then (v.bytes k).toNat else word m .data k

/-- The bytes of the packet on their lanes. -/
def packetBytes (k : ℕ) : ℤ := packetInts m v k % 256

/-- The received word, hit by the errors. -/
noncomputable def packetWord : ℕ → ℤ := v.errors.foldl hit (blockBytes (packetBytes m v))

/-- The check of the packet fails: it holds an int that is no byte, or too many of its symbols were hit, unless the
decoder gives up and no symbol of the message was hit. -/
def Fails : Prop :=
  ¬ ((∀ k < 239, 0 ≤ packetInts m v k ∧ packetInts m v k ≤ 255) ∧
    ((differences 255 (packetWord m v) (blockBytes (packetBytes m v))).card ≤ 8 ∨
      ¬ NearCode rs255 (elements rs255 (packetWord m v)) ∧ ∀ k < 239, packetWord m v k = packetInts m v k))

end Packet

theorem wp_checkPacket_word {m : Machine rs255.dims} (hT : HasTables m) {c : ℕ → ℤ} (hc : Symbols rs255 255 c)
    (hm : Holds m .recd 255 c) {errors : List (ℤ × ℤ)} (herrors : ∀ e ∈ errors, Legal e) :
    wp (checkPacket errors) (fun blamed m' => Keeps written m m' ∧ HasTables m' ∧ ∃ (code : ℤ) (y : ℕ → rs255.GF),
      Outcome rs255 (elements rs255 (errors.foldl hit c)) y code ∧
      (blamed = true ↔ ∃ k < 239, word m .data k ≠ rs255.poly (y k))) m := by
  refine wp_seq (wp_injectErrors hm hc herrors) fun _ m₁ h₁ => ?_
  obtain ⟨hk₁, hm₁⟩ := h₁
  have hT₁ : HasTables m₁ := hT.of_keeps hk₁ (by simp) (by simp)
  have hx : HoldsWord m₁ .recd rs255.nn (elements rs255 (errors.foldl hit c)) := fun k hk => by
    rw [hm₁ k hk, poly_elements (symbols_hits hc errors) hk]
  refine wp_seq (wp_decodeRs hT₁ hx) fun code m₂ h₂ => ?_
  obtain ⟨y, hdec⟩ := h₂
  have hk₂ : Keeps written m₁ m₂ := hdec.keeps
  refine wp_mono (wp_misdecoded m₂) fun blamed m₃ h₃ => ?_
  obtain ⟨hsame, hblamed⟩ := h₃
  have hkeeps : Keeps written m m₃ := ((hk₁.mono (by simp [written])).trans hk₂).trans (hsame.mono (by simp))
  refine ⟨hkeeps, hT.of_keeps hkeeps (by decide) (by decide), code, y, hdec.outcome, ?_⟩
  rw [hblamed]
  refine exists_congr fun k => and_congr_right fun hk => ?_
  have hdata : word m₂ .data k = word m .data k :=
    (hk₂.val_eq (by simp [written, decodeLocals]) _).trans (hk₁.val_eq (by simp) _)
  rw [hdata, hdec.recd.word_eq (show k < rs255.nn from lt_trans hk (by decide))]

section Verdict

variable {m : Machine rs255.dims} {v : TestVector}

theorem symbols_packetBytes (n : ℕ) : Symbols rs255 n (packetBytes m v) := fun k _ => by
  rw [packetBytes]
  show 0 ≤ _ ∧ _ ≤ (255 : ℤ)
  omega

theorem poly_range (x : rs255.GF) : 0 ≤ rs255.poly x ∧ rs255.poly x ≤ 255 := ⟨rs255.poly_nonneg x, rs255.poly_le x⟩

theorem recovers_iff_of_bytes {code : ℤ} {y : ℕ → rs255.GF}
    (h : Outcome rs255 (elements rs255 (packetWord m v)) y code)
    (hrange : ∀ k < 239, 0 ≤ packetInts m v k ∧ packetInts m v k ≤ 255) :
    (∀ k < 239, packetInts m v k = rs255.poly (y k)) ↔
      (differences 255 (packetWord m v) (blockBytes (packetBytes m v))).card ≤ 8 ∨
        ¬ NearCode rs255 (elements rs255 (packetWord m v)) ∧ ∀ k < 239, packetWord m v k = packetInts m v k := by
  have hword : Symbols rs255 255 (packetWord m v) := symbols_hits (symbols_blockBytes _ 255) v.errors
  have hints : ∀ k < 239, packetInts m v k = rs255.poly (elements rs255 (packetBytes m v) k) := fun k hk => by
    rw [poly_elements (symbols_packetBytes 239) hk, packetBytes, Int.emod_eq_of_lt (hrange k hk).1]
    have := (hrange k hk).2
    omega
  have hdiff : differences 255 (packetWord m v) (blockBytes (packetBytes m v)) =
      differing rs255 (elements rs255 (packetWord m v)) (block rs255 (elements rs255 (packetBytes m v))) :=
    differences_eq (fun k hk => (poly_elements hword hk).symm) fun _ _ => rfl
  have hleft : (∀ k < 239, packetInts m v k = rs255.poly (y k)) ↔ ∀ k < 239, y k = elements rs255 (packetBytes m v) k :=
    forall_congr' fun k => forall_congr' fun hk => by rw [hints k hk, rs255.poly_inj, eq_comm]
  have hright : (∀ k < 239, packetWord m v k = packetInts m v k) ↔
      ∀ k < 239, elements rs255 (packetWord m v) k = elements rs255 (packetBytes m v) k :=
    forall_congr' fun k => forall_congr' fun hk => by
      rw [hints k hk, ← poly_elements hword (lt_trans hk (by decide)), rs255.poly_inj]
  rw [hleft, hright, hdiff]
  exact h.recovers_iff _

theorem fails_iff {code : ℤ} {y : ℕ → rs255.GF} (h : Outcome rs255 (elements rs255 (packetWord m v)) y code) :
    (∃ k < 239, packetInts m v k ≠ rs255.poly (y k)) ↔ Fails m v := by
  rw [Fails, ← not_iff_not, not_not]
  simp only [not_exists, not_and, not_not]
  constructor
  · intro hall
    have hrange : ∀ k < 239, 0 ≤ packetInts m v k ∧ packetInts m v k ≤ 255 := fun k hk => by
      rw [hall k hk]
      exact poly_range _
    exact ⟨hrange, (recovers_iff_of_bytes h hrange).mp hall⟩
  · intro hpasses
    exact (recovers_iff_of_bytes h hpasses.1).mpr hpasses.2

end Verdict

/-! ### The count -/

/-- What the bench keeps between packets, `m` being its memory at the beginning. -/
structure Between (m : Machine rs255.dims) (b : RsEncoderTb) : Prop where
  tables : HasTables b.memory
  tail : ∀ k, 237 ≤ k → k < 239 → word b.memory .data k = word m .data k

/-- Packet `v` is under way, and `n` was the count when it was drawn. -/
structure Trial (m : Machine rs255.dims) (v : TestVector) (n : ℕ) (b : RsEncoderTb) : Prop where
  tables : HasTables b.memory
  bytes : Holds b.memory .data 237 fun k => (v.bytes k).toNat
  ints : ∀ k < 239, word b.memory .data k = packetInts m v k
  errors : b.errors = v.errors
  count : b.noEncoderErrors = n

section Counting

open RsEncoderTb

variable {m m₀ : Machine rs255.dims} {v : TestVector} {rest : List TestVector} {n : ℕ} {b : RsEncoderTb}

theorem trial_draw (h : Between m b) (v : TestVector) (rest : List TestVector) :
    Trial m v (drawCount b.noEncoderErrors v) (b.draw v rest) := by
  have hwrote := wrote_drawData b.memory v.bytes
  have hbytes := holds_drawData b.memory v.bytes
  refine ⟨h.tables.of_keeps hwrote.frame.keeps (by simp) (by simp), hbytes, fun k hk => ?_, rfl, rfl⟩
  rw [packetInts]
  split_ifs with hlt
  · exact hbytes.val_eq hlt
  · have hold : (b.draw v rest).memory.cell .data (line k) = b.memory.cell .data (line k) :=
      hwrote.cell_of_notMem line_injective (by simpa using Nat.le_of_not_lt hlt)
    rw [← h.tail k (by omega) hk, word, word, Machine.val, Machine.val, hold]
    exact congrArg _ (congrFun (congrFun hwrote.frame.junk .data) (line k))

theorem Trial.within {b' : RsEncoderTb} (h : Trial m v n b) (hw : Within b b') : Trial m v n b' where
  tables := h.tables.of_keeps hw.memory (by simp) (by simp)
  bytes := h.bytes.of_keeps hw.memory (by simp)
  ints k hk := (hw.memory.val_eq (by simp) _).trans (h.ints k hk)
  errors := hw.errors.trans h.errors
  count := hw.noEncoderErrors.trans h.count

theorem Trial.check (h : Trial m v n b) (hrecd : Holds b.memory .recd 255 (blockBytes (packetBytes m v)))
    (hlegal : ∀ e ∈ v.errors, Legal e) :
    Between m b.check ∧ (Fails m v → b.check.noEncoderErrors = n + 1) ∧ (¬ Fails m v → b.check.noEncoderErrors = n) := by
  have herrors : ∀ e ∈ b.errors, Legal e := by
    rw [h.errors]
    exact hlegal
  obtain ⟨hkeeps, hT, code, y, houtcome, hblamed⟩ :=
    wp_iff_run.mp (wp_checkPacket_word h.tables (symbols_blockBytes _ 255) hrecd herrors)
  rw [h.errors] at houtcome
  have hverdict : (checkPacket b.errors).eval b.memory = true ↔ Fails m v := by
    rw [hblamed, ← fails_iff houtcome]
    exact exists_congr fun k => and_congr_right fun hk => by rw [h.ints k hk]
  refine ⟨⟨hT, fun k hlow hk => ?_⟩, fun hfails => ?_, fun hpasses => ?_⟩
  · have hints := h.ints k hk
    rw [packetInts, if_neg (by omega)] at hints
    exact (hkeeps.val_eq (by simp [written, decodeLocals]) _).trans hints
  · show b.noEncoderErrors + (if (checkPacket b.errors).eval b.memory then 1 else 0) = _
    rw [if_pos (hverdict.mpr hfails), h.count]
  · show b.noEncoderErrors + (if (checkPacket b.errors).eval b.memory then 1 else 0) = _
    rw [if_neg (mt hverdict.mp hpasses), h.count, Nat.add_zero]

theorem Trial.check_tally {vectors : List TestVector} (h : Trial m v (drawCount (tally (Fails m) vectors) v) b)
    (hrecd : Holds b.memory .recd 255 (blockBytes (packetBytes m v))) (hlegal : ∀ e ∈ v.errors, Legal e) :
    Between m b.check ∧ b.check.noEncoderErrors = tally (Fails m) (vectors ++ [v]) := by
  obtain ⟨hbetween, hfails, hpasses⟩ := h.check hrecd hlegal
  refine ⟨hbetween, ?_⟩
  rw [tally_append, checkCount]
  split_ifs with hv
  · exact hfails hv
  · exact hpasses hv

theorem Trial.blockBytes_driven (h : Trial m v n b) : blockBytes (driven b.memory) = blockBytes (packetBytes m v) := by
  funext k
  have helements : ∀ j < rs255.kk, elements rs255 (driven b.memory) j = elements rs255 (packetBytes m v) j := by
    intro j hj
    rw [elements, elements, driven, packetBytes, h.ints j hj]
  exact congrArg rs255.poly (block_congr helements k)

end Counting

section Run

variable (m m' : Machine rs255.dims) (vectors : List TestVector)

/-- In front of packet `n`. -/
def Begins (n : ℕ) (v : TestVector) (rest : List TestVector) : Prop :=
  ∃ b : RsEncoderTb, (∀ i, (scMain m m' vectors (3 + 32 * n)).2.resume i = b.pollReady i) ∧ b.todo = rest ∧
    Trial m' v (drawCount (tally (Fails m') (vectors.take n)) v) b

variable {m m' vectors}

theorem Begins.received {n : ℕ} {v : TestVector} {rest : List TestVector} (hn : vectors.drop n = v :: rest)
    (h : Begins m m' vectors n v rest) :
    let b := (scMain m m' vectors (35 + 32 * n)).2
    (∃ m₀ g, Receives rest m₀ g 15 b) ∧ Trial m' v (drawCount (tally (Fails m') (vectors.take n)) v) b ∧
      Holds b.memory .recd 255 (blockBytes (packetBytes m' v)) := by
  intro b
  obtain ⟨b₀, hresume, htodo, htrial⟩ := h
  have hbefore : Before v rest b₀.memory (scMain m m' vectors (3 + 32 * n)).2 :=
    ⟨⟨b₀, hresume, rfl, htodo⟩, htrial.bytes⟩
  obtain ⟨_, hreceived⟩ := exchange_scMain m m' vectors (packet_begins m m' vectors hn).1 hbefore
  rw [show 3 + 32 * n + 32 = 35 + 32 * n by omega, htrial.blockBytes_driven] at hreceived
  -- the first segment begins with polling, the others are segments of the same packet
  have hfirst : RsEncoderTb.Within b₀ (scMain m m' vectors (3 + 32 * n + 1)).2 := by
    have hnext : (scMain m m' vectors (3 + 32 * n + 1)).2 = (scMain m m' vectors (3 + 32 * n)).2.resume _ :=
      follows_bench m m' vectors (3 + 32 * n)
    rw [hnext, hresume]
    exact RsEncoderTb.within_pollReady b₀
  have hquiet : Quiet (scMain m m' vectors (3 + 32 * n + 1)).2 := by
    rw [show 3 + 32 * n + 1 = 2 + (2 + 32 * n) by omega]
    exact quiet_scMain m m' vectors _
  have hend : 3 + 32 * n + 1 + 31 = 35 + 32 * n := by omega
  have hrest : RsEncoderTb.Within (scMain m m' vectors (3 + 32 * n + 1)).2 b := by
    have hrun := RsEncoderTb.within_run (n := 31) (follows_bench m m' vectors) hquiet
    rw [hend] at hrun
    refine hrun ?_ ?_
    · rw [hreceived.todo, hfirst.todo, htodo]
    · rw [hreceived.wait]
      exact fun hdone => BenchWait.noConfusion hdone
  exact ⟨⟨_, _, hreceived⟩, (htrial.within hfirst).within hrest, hreceived.recd⟩

theorem take_of_drop {n : ℕ} {v : TestVector} {rest : List TestVector} (hn : vectors.drop n = v :: rest) :
    vectors.take (n + 1) = vectors.take n ++ [v] := by
  have hget : vectors[n]? = some v := by rw [← List.head?_drop, hn, List.head?_cons]
  rw [List.take_add_one, hget]
  rfl

theorem Begins.checked {n : ℕ} {v : TestVector} {rest : List TestVector} (hn : vectors.drop n = v :: rest)
    (h : Begins m m' vectors n v rest) (hlegal : ∀ e ∈ v.errors, Legal e) :
    let b := (scMain m m' vectors (35 + 32 * n)).2
    (∀ i, b.resume i = b.check.nextPacket i) ∧ b.check.todo = rest ∧ Between m' b.check ∧
      b.check.noEncoderErrors = tally (Fails m') (vectors.take (n + 1)) := by
  intro b
  obtain ⟨hreceived, htrial, hrecd⟩ := h.received hn
  obtain ⟨m₀, g, hreceived⟩ := hreceived
  obtain ⟨hbetween, hcount⟩ := htrial.check_tally hrecd hlegal
  refine ⟨fun i => RsEncoderTb.resume_last hreceived, (RsEncoderTb.check_todo _).trans hreceived.todo, hbetween, ?_⟩
  rw [take_of_drop hn]
  exact hcount

variable (m m') in
/-- Every packet begins with the count of those before it. -/
theorem begins {n : ℕ} {v : TestVector} {rest : List TestVector} (hlegal : ∀ v ∈ vectors, ∀ e ∈ v.errors, Legal e)
    (hn : vectors.drop n = v :: rest) : Begins m m' vectors n v rest := by
  induction n generalizing v rest with
  | zero =>
    rw [List.drop_zero] at hn
    subst hn
    have hbetween : Between m' (scMain m m' (v :: rest) 2).2 :=
      ⟨(booted_spec m').1.tables, fun k _ _ => (booted_spec m').2.keeps.val_eq (by simp) (line k)⟩
    refine ⟨(scMain m m' (v :: rest) 2).2.draw v rest, fun i => ?_, rfl, trial_draw hbetween v rest⟩
    rw [show 3 + 32 * 0 = 3 from rfl, bench_three m m' (v :: rest)]
    rfl
  | succ n ih =>
    obtain ⟨u, hu⟩ : ∃ u, vectors.drop n = u :: v :: rest := by
      have hlt : n < vectors.length := by
        by_contra hge
        rw [List.drop_eq_nil_of_le (by omega)] at hn
        exact absurd hn (List.cons_ne_nil _ _).symm
      exact ⟨vectors[n], by rw [List.drop_eq_getElem_cons hlt, hn]⟩
    have hmem : u ∈ vectors := List.mem_of_mem_drop (by rw [hu]; exact List.mem_cons_self)
    obtain ⟨hresume, htodo, hbetween, hcount⟩ := (ih hu).checked hu (hlegal u hmem)
    refine ⟨(scMain m m' vectors (35 + 32 * n)).2.check.draw v rest, fun i => ?_, rfl, ?_⟩
    · rw [show 3 + 32 * (n + 1) = 35 + 32 * n by omega, hresume, RsEncoderTb.nextPacket, htodo]
    · rw [← hcount]
      exact trial_draw hbetween v rest

theorem count_done (hlegal : ∀ v ∈ vectors, ∀ e ∈ v.errors, Legal e) {t : ℕ} (ht : 4 + 32 * vectors.length ≤ t) :
    (scMain m m' vectors t).2.noEncoderErrors = tally (Fails m') vectors := by
  have hstay : ∀ {a}, ((scMain m m' vectors a).2.wait = .done ∧
      (scMain m m' vectors a).2.noEncoderErrors = tally (Fails m') vectors) → ∀ j,
      (scMain m m' vectors (a + j)).2.wait = .done ∧
        (scMain m m' vectors (a + j)).2.noEncoderErrors = tally (Fails m') vectors :=
    (follows_bench m m' vectors).invariant
      (fun b => b.wait = .done ∧ b.noEncoderErrors = tally (Fails m') vectors) fun i b h => by
        have hsame : b.resume i = b := by rw [RsEncoderTb.resume, h.1]
        rwa [hsame]
  have hlast : (scMain m m' vectors (4 + 32 * vectors.length)).2.wait = .done ∧
      (scMain m m' vectors (4 + 32 * vectors.length)).2.noEncoderErrors = tally (Fails m') vectors := by
    rcases Nat.eq_zero_or_pos vectors.length with hnil | hpos
    · obtain rfl := List.length_eq_zero_iff.mp hnil
      refine hstay (a := 3) ?_ 1
      rw [bench_three]
      exact ⟨rfl, rfl⟩
    · obtain ⟨v, hv⟩ : ∃ v, vectors.drop (vectors.length - 1) = [v] := by
        refine ⟨vectors[vectors.length - 1], ?_⟩
        rw [List.drop_eq_getElem_cons (by omega), Nat.sub_add_cancel hpos, List.drop_length]
      have hmem : v ∈ vectors := List.mem_of_mem_drop (by rw [hv]; exact List.mem_singleton_self v)
      obtain ⟨hresume, htodo, _, hcount⟩ := (begins m m' hlegal hv).checked hv (hlegal v hmem)
      rw [Nat.sub_add_cancel hpos, List.take_length] at hcount
      have hnext : (scMain m m' vectors (35 + 32 * (vectors.length - 1) + 1)).2 =
          (scMain m m' vectors (35 + 32 * (vectors.length - 1))).2.resume _ :=
        follows_bench m m' vectors _
      rw [show 4 + 32 * vectors.length = 35 + 32 * (vectors.length - 1) + 1 by omega, hnext, hresume,
        RsEncoderTb.nextPacket, htodo]
      exact ⟨rfl, hcount⟩
  obtain ⟨j, rfl⟩ := Nat.exists_eq_add_of_le ht
  exact (hstay hlast j).2

/-- **`sc_main` from end to end.** When the check of packet `n` begins, `no_encoder_errors` is the number of packets
that failed before it since the number of errors changed, and behind the last packet it is the number of all. -/
theorem scMain_counts (m m' : Machine rs255.dims) (vectors : List TestVector)
    (hlegal : ∀ v ∈ vectors, ∀ e ∈ v.errors, Legal e) :
    (∀ n v rest, vectors.drop n = v :: rest →
      (scMain m m' vectors (35 + 32 * n)).2.noEncoderErrors =
        drawCount (tally (Fails m') (vectors.take n)) v) ∧
      ∀ t, 4 + 32 * vectors.length ≤ t → (scMain m m' vectors t).2.noEncoderErrors = tally (Fails m') vectors :=
  ⟨fun _ _ _ hn => ((begins m m' hlegal hn).received hn).2.1.count, fun _ ht => count_done hlegal ht⟩

end Run

theorem not_fails_of_few {m : Machine rs255.dims} {v : TestVector} (htail : ByteTail m) (hfew : v.errors.length ≤ 8) :
    ¬ Fails m v := by
  rw [Fails, not_not]
  refine ⟨fun k hk => ?_, Or.inl ((card_differences_hits_le _ _).trans hfew)⟩
  rw [packetInts]
  split_ifs with hlt
  · have := (v.bytes k).isLt
    omega
  · exact htail k (by omega) hk

theorem scMain_counts_counting :
    (scMain (Machine.fresh _) (Machine.fresh _) [countingVector, countingVector] 68).2.noEncoderErrors = 0 := by
  have hlegal : ∀ v ∈ [countingVector, countingVector], ∀ e ∈ v.errors, Legal e := by
    simp [countingVector, Legal]
  rw [(scMain_counts (Machine.fresh _) (Machine.fresh _) _ hlegal).2 68 (by decide)]
  refine tally_eq_zero _ fun v hv => ?_
  obtain rfl : v = countingVector := by simpa using hv
  have htail : ByteTail (Machine.fresh rs255.dims) := fun k _ _ => ⟨le_rfl, Int.natCast_nonneg 255⟩
  exact not_fails_of_few htail (by decide)

end ReedSolomon
