import Mathlib.Algebra.Order.Group.Nat
import Mathlib.Algebra.Order.Ring.Nat
import Mathlib.Tactic.Ring

/-!
# Dyadic blocks

A block of length `l` at `s` is dyadic when `l` is a power of two that divides `s`.
-/

namespace HddChecker

/-- The block of length `l` at `s` is aligned to its length, a power of two. -/
structure Dyadic (s l : Nat) : Prop where
  pow : l.isPowerOfTwo
  dvd : l ∣ s

namespace Dyadic

theorem pos {s l : Nat} (h : Dyadic s l) : 0 < l := Nat.pos_of_isPowerOfTwo h.pow

theorem pow_dvd {l k : Nat} (hl : l.isPowerOfTwo) (hk : k.isPowerOfTwo) (hle : l ≤ k) : l ∣ k := by
  obtain ⟨i, rfl⟩ := hl
  obtain ⟨j, rfl⟩ := hk
  exact Nat.pow_dvd_pow 2 ((Nat.pow_le_pow_iff_right (by omega)).mp hle)

theorem two_mul_le {l k : Nat} (hl : l.isPowerOfTwo) (hk : k.isPowerOfTwo) (hlt : l < k) :
    2 * l ≤ k := by
  obtain ⟨q, rfl⟩ := pow_dvd hl hk hlt.le
  have hq : 1 < q := by
    by_contra hle
    have : l * q ≤ l * 1 := Nat.mul_le_mul_left l (by omega)
    omega
  rw [Nat.mul_comm 2 l]
  exact Nat.mul_le_mul_left l hq

theorem not_over {s l k c : Nat} (h : Dyadic s l) (hk : k.isPowerOfTwo) (hle : l ≤ k) (hc : k ∣ c) :
    ¬ (s < c ∧ c < s + l) := by
  rintro ⟨hlo, hhi⟩
  have hdvd : l ∣ c - s := Nat.dvd_sub ((pow_dvd h.pow hk hle).trans hc) h.dvd
  have := Nat.le_of_dvd (by omega) hdvd
  omega

/-- Two blocks make a dyadic one only as buddies of one length. -/
theorem add_iff {s l k : Nat} (hl : l.isPowerOfTwo) (hk : k.isPowerOfTwo) :
    Dyadic s (l + k) ↔ l = k ∧ s % (2 * k) = 0 := by
  have hlpos := Nat.pos_of_isPowerOfTwo hl
  have hkpos := Nat.pos_of_isPowerOfTwo hk
  constructor
  · rintro ⟨hpow, hdvd⟩
    have hle := two_mul_le hl hpow (by omega)
    have hge := two_mul_le hk hpow (by omega)
    have heq : l = k := by omega
    subst heq
    exact ⟨rfl, Nat.mod_eq_zero_of_dvd (by rwa [Nat.two_mul])⟩
  · rintro ⟨rfl, hmod⟩
    rw [← Nat.two_mul]
    obtain ⟨n, rfl⟩ := hl
    refine ⟨⟨n + 1, ?_⟩, Nat.dvd_of_mod_eq_zero hmod⟩
    rw [Nat.pow_succ, Nat.mul_comm]

end Dyadic

end HddChecker
