import Mathlib.Algebra.Order.Ring.Nat
import Mathlib.Tactic.Common

/-!
# Loops over the bits of a bitmap

A bitmap is kept in chunks of words, and a loop over it is three loops, one in the other: over the chunks, the words of a chunk and the bits of a word. The first chunk and the first word are entered in the middle. The body may leave all three. Such loops are a single walk over the positions of the bits, `walk`.
-/

namespace HddChecker

variable {σ β : Type}

/-- A loop over `n` positions from `p` on. The body goes on with a new state or leaves with a result. -/
def walk (f : Nat → σ → σ ⊕ β) : (n p : Nat) → σ → σ ⊕ β
  | 0, _, s => .inl s
  | n + 1, p, s =>
    match f p s with
    | .inl s => walk f n (p + 1) s
    | .inr b => .inr b

/-- The loop over the bits of a word from `bit` on, `left` of them. -/
def walkWord (f : Nat → σ → σ ⊕ β) : (left bit : Nat) → σ → σ ⊕ β
  | 0, _, s => .inl s
  | left + 1, bit, s =>
    match f bit s with
    | .inl s => walkWord f left (bit + 1) s
    | .inr b => .inr b

/-- The loop over the words of a chunk from `word` on, `left` of them. The first is entered at `bit`. -/
def walkWords (f : Nat → Nat → σ → σ ⊕ β) : (left word bit : Nat) → σ → σ ⊕ β
  | 0, _, _, s => .inl s
  | left + 1, word, bit, s =>
    match walkWord (f word) (32 - bit) bit s with
    | .inl s => walkWords f left (word + 1) 0 s
    | .inr b => .inr b

variable {f g : Nat → σ → σ ⊕ β} {n m p q : Nat} {s : σ}

theorem walk_add : walk f (n + m) p s = match walk f n p s with
    | .inl s => walk f m (p + n) s
    | .inr b => .inr b := by
  induction n generalizing p s with
  | zero => simp [walk]
  | succ n ih =>
    rw [Nat.succ_add, walk, walk]
    cases f p s with
    | inl s =>
      simp only
      rw [ih, Nat.succ_add_eq_add_succ]
    | inr b => rfl

theorem walk_congr (h : ∀ i < n, f (p + i) = g (q + i)) : walk f n p s = walk g n q s := by
  induction n generalizing p q s with
  | zero => rfl
  | succ n ih =>
    have h0 : f p = g q := h 0 (Nat.zero_lt_succ n)
    rw [walk, walk, h0]
    cases g q s with
    | inl s =>
      refine ih fun i hi => ?_
      have hi' := h (i + 1) (Nat.succ_lt_succ hi)
      rwa [Nat.add_comm i 1, ← Nat.add_assoc, ← Nat.add_assoc] at hi'
    | inr b => rfl

private theorem walkWord_eq (f : Nat → σ → σ ⊕ β) (n p : Nat) (s : σ) : walkWord f n p s = walk f n p s := by
  induction n generalizing p s with
  | zero => rfl
  | succ n ih =>
    rw [walkWord, walk]
    cases f p s with
    | inl s => exact ih _ _
    | inr b => rfl

theorem walkWords_eq (f : Nat → Nat → σ → σ ⊕ β) (left word bit : Nat) (hbit : bit < 32) (s : σ) :
    walkWords f left word bit s =
      walk (fun p => f (p / 32) (p % 32)) (32 * left - bit) (32 * word + bit) s := by
  induction left generalizing word bit s with
  | zero =>
    have hzero : 32 * 0 - bit = 0 := by omega
    rw [hzero]
    rfl
  | succ left ih =>
    have hsplit : 32 * (left + 1) - bit = (32 - bit) + 32 * left := by omega
    have hword : walkWord (f word) (32 - bit) bit s =
        walk (fun p => f (p / 32) (p % 32)) (32 - bit) (32 * word + bit) s := by
      rw [walkWord_eq]
      apply walk_congr
      intro i hi
      have hdiv : (32 * word + bit + i) / 32 = word := by omega
      have hmod : (32 * word + bit + i) % 32 = bit + i := by omega
      rw [hdiv, hmod]
    rw [walkWords, hword, hsplit, walk_add]
    cases walk (fun p => f (p / 32) (p % 32)) (32 - bit) (32 * word + bit) s with
    | inl s =>
      simp only
      rw [ih (word + 1) 0 (by decide)]
      congr 1
      omega
    | inr b => rfl

/-- What every step of a walk keeps, the walk keeps; what a step leaves with, the walk leaves with. -/
theorem walk_induct {motive : Nat → σ → Prop} {R : β → Prop} (hs : motive p s)
    (hstep : ∀ q s, p ≤ q → q < p + n → motive q s →
      (∀ s', f q s = .inl s' → motive (q + 1) s') ∧ ∀ b, f q s = .inr b → R b) :
    (∀ s', walk f n p s = .inl s' → motive (p + n) s') ∧ ∀ b, walk f n p s = .inr b → R b := by
  induction n generalizing p s with
  | zero =>
    refine ⟨?_, ?_⟩
    · rintro s' ⟨⟩
      exact hs
    · rintro b ⟨⟩
  | succ n ih =>
    obtain ⟨hgo, hleave⟩ := hstep p s (Nat.le_refl p) (by omega) hs
    rw [walk]
    cases hf : f p s with
    | inl s' =>
      have hrest := ih (hgo s' hf) fun q t hq hlt => hstep q t (by omega) (by omega)
      rw [Nat.add_comm n 1, ← Nat.add_assoc]
      exact hrest
    | inr b =>
      refine ⟨?_, ?_⟩
      · rintro s' ⟨⟩
      · rintro b' ⟨⟩
        exact hleave b hf

end HddChecker
