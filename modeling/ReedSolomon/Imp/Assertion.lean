import Mathlib.Tactic.Common

/-!
# Concurrent assertions

The part of the assertion language of SystemVerilog that has booleans, `$rose`, sequences with a fixed delay and the
implication with a next-cycle consequent. A trace `w` gives the values sampled at the ticks 0, 1, 2, … of the clock.
`Seq.Matches w s t` says that a sequence begun at tick `s` matches at tick `t`, and `Property.Fails w s t` that an
attempt begun at tick `s` fails at tick `t`. `Violated` takes the attempts that are not disabled before they fail.
`Clause` adds the conjunction, a leading delay and the implication whose consequent begins where its antecedent matches.
-/

namespace Assertion

variable {σ : Type}

/-- A boolean expression over the values at a tick and before it. -/
abbrev Expr (σ : Type) : Type := (ℕ → σ) → ℕ → Bool

/-- An expression over the values at one tick. -/
def now (f : σ → Bool) : Expr σ := fun w t => f (w t)

/-- `$rose`: a bit is 1 and was not 1 at the tick before; before the first tick no bit is 1. -/
def rose (f : σ → Bool) : Expr σ := fun w t =>
  match t with
  | 0 => f (w 0)
  | t + 1 => f (w (t + 1)) && !f (w t)

inductive Seq (σ : Type)
  | expr (e : Expr σ)
  /-- `r ##n q` -/
  | delay (r : Seq σ) (n : ℕ) (q : Seq σ)

inductive Property (σ : Type)
  | expr (e : Expr σ)
  /-- `r |=> p` -/
  | next (r : Seq σ) (p : Property σ)

def Seq.Matches (w : ℕ → σ) : Seq σ → ℕ → ℕ → Prop
  | .expr e, s, t => t = s ∧ e w s = true
  | .delay r n q, s, t => ∃ u, r.Matches w s u ∧ q.Matches w (u + n) t

def Property.Fails (w : ℕ → σ) : Property σ → ℕ → ℕ → Prop
  | .expr e, s, t => t = s ∧ e w s = false
  | .next r p, s, t => ∃ u, r.Matches w s u ∧ p.Fails w (u + 1) t

/-- `assert property (disable iff (d) p)` reports a failure: an attempt fails, and `d` was low until then. -/
def Violated (d : σ → Bool) (p : Property σ) (w : ℕ → σ) : Prop :=
  ∃ s t, p.Fails w s t ∧ ∀ u, s ≤ u → u ≤ t → d (w u) = false

variable {d : σ → Bool} {w : ℕ → σ}

theorem rose_succ {f : σ → Bool} {t : ℕ} (h : f (w t) = false) (h' : f (w (t + 1)) = true) : rose f w (t + 1) = true := by
  rw [rose, h, h']
  rfl

theorem violated_expr_iff (e : Expr σ) : Violated d (.expr e) w ↔ ∃ s, e w s = false ∧ d (w s) = false := by
  constructor
  · rintro ⟨s, t, ⟨rfl, he⟩, hd⟩
    exact ⟨t, he, hd t (Nat.le_refl t) (Nat.le_refl t)⟩
  · rintro ⟨s, he, hd⟩
    refine ⟨s, s, ⟨rfl, he⟩, fun u hsu hus => ?_⟩
    rw [Nat.le_antisymm hus hsu]
    exact hd

/-- `a ##n b |=> e` is violated where `a` and then `b` hold and `e` does not hold at the next tick. -/
theorem violated_next_iff (a b e : Expr σ) (n : ℕ) :
    Violated d (.next (.delay (.expr a) n (.expr b)) (.expr e)) w ↔
      ∃ s, a w s = true ∧ b w (s + n) = true ∧ e w (s + n + 1) = false ∧
        ∀ u, s ≤ u → u ≤ s + n + 1 → d (w u) = false := by
  constructor
  · rintro ⟨s, t, ⟨u, ⟨v, ⟨rfl, ha⟩, rfl, hb⟩, rfl, he⟩, hd⟩
    exact ⟨v, ha, hb, he, hd⟩
  · rintro ⟨s, ha, hb, he, hd⟩
    exact ⟨s, s + n + 1, ⟨s + n, ⟨s, ⟨rfl, ha⟩, rfl, hb⟩, rfl, he⟩, hd⟩

/-! ### Conjunctions -/

/-- `$fell`: a bit is 0 and was 1 at the tick before. -/
def fell (f : σ → Bool) : Expr σ := fun w t =>
  match t with
  | 0 => false
  | t + 1 => !f (w (t + 1)) && f (w t)

inductive Clause (σ : Type)
  | property (p : Property σ)
  /-- `##n p` -/
  | after (n : ℕ) (p : Clause σ)
  /-- `p and q` -/
  | both (p q : Clause σ)
  /-- `r |-> p` -/
  | overlap (r : Seq σ) (p : Clause σ)

namespace Clause

/-- A conjunction fails where one of its parts does. -/
def Fails (w : ℕ → σ) : Clause σ → ℕ → ℕ → Prop
  | .property p, s, t => p.Fails w s t
  | .after n p, s, t => p.Fails w (s + n) t
  | .both p q, s, t => p.Fails w s t ∨ q.Fails w s t
  | .overlap r p, s, t => ∃ u, r.Matches w s u ∧ p.Fails w u t

/-- `assert property (disable iff (d) p)` reports a failure. -/
def Violated (d : σ → Bool) (p : Clause σ) (w : ℕ → σ) : Prop :=
  ∃ s t, p.Fails w s t ∧ ∀ u, s ≤ u → u ≤ t → d (w u) = false

/-- `a |-> ##n b and c` is violated where `a` holds and `b` does not hold `n` ticks later or `c` does not hold. -/
theorem violated_overlap_iff (a b c : Expr σ) (n : ℕ) :
    Violated d (.overlap (.expr a) (.both (.after n (.property (.expr b))) (.property (.expr c)))) w ↔
      ∃ s, a w s = true ∧ ((b w (s + n) = false ∧ ∀ u, s ≤ u → u ≤ s + n → d (w u) = false) ∨
        (c w s = false ∧ d (w s) = false)) := by
  constructor
  · rintro ⟨s, t, ⟨u, ⟨rfl, ha⟩, ⟨rfl, hb⟩ | ⟨rfl, hc⟩⟩, hd⟩
    · exact ⟨_, ha, Or.inl ⟨hb, hd⟩⟩
    · exact ⟨_, ha, Or.inr ⟨hc, hd _ (Nat.le_refl _) (Nat.le_refl _)⟩⟩
  · rintro ⟨s, ha, ⟨hb, hd⟩ | ⟨hc, hd⟩⟩
    · exact ⟨s, s + n, ⟨s, ⟨rfl, ha⟩, Or.inl ⟨rfl, hb⟩⟩, hd⟩
    · refine ⟨s, s, ⟨s, ⟨rfl, ha⟩, Or.inr ⟨rfl, hc⟩⟩, fun u hsu hus => ?_⟩
      rw [Nat.le_antisymm hus hsu]
      exact hd

end Clause

end Assertion
