import Mathlib.Algebra.Order.Floor.Div

/-!
# Signed arithmetic on words

In C the result of an operation on signed integers has to be one of their type. An operation is over the words here, and has no result where the one of the integers is out of range. On words that are not negative it agrees with the one on natural numbers. The rest is about quotients that are rounded up, or up too far.
-/

namespace HddChecker.Signed

variable {w : Nat}

/-- An unsigned word that is to be a signed integer. -/
def ofUnsigned (x : BitVec w) : Option (BitVec w) := if x.msb then none else some x

def add (x y : BitVec w) : Option (BitVec w) := if x.saddOverflow y then none else some (x + y)

def div (x y : BitVec w) : Option (BitVec w) :=
  if y = 0 ∨ x.sdivOverflow y then none else some (x.sdiv y)

/-- One, shifted by so many bits. -/
def oneShl (k : Nat) : Option (BitVec w) := if k + 1 < w then some (BitVec.twoPow w k) else none

/-! ### Words that are not negative -/

section Nonneg

variable {a b : Nat}

theorem toNat_ofNat (h : 2 * a < 2 ^ w) : (BitVec.ofNat w a).toNat = a := by
  rw [BitVec.toNat_ofNat]
  exact Nat.mod_eq_of_lt (by omega)

theorem msb_ofNat (h : 2 * a < 2 ^ w) : (BitVec.ofNat w a).msb = false := by
  rw [BitVec.msb_eq_false_iff_two_mul_lt, toNat_ofNat h]
  exact h

theorem toInt_ofNat (h : 2 * a < 2 ^ w) : (BitVec.ofNat w a).toInt = a := by
  rw [BitVec.toInt_eq_toNat_of_msb (msb_ofNat h), toNat_ofNat h]

theorem in_range (h : 2 * a < 2 ^ w) : (decide ((a : Int) ≥ 2 ^ (w - 1)) || decide ((a : Int) < -2 ^ (w - 1))) = false := by
  have hlt : a < 2 ^ (w - 1) := by
    cases w with
    | zero => omega
    | succ n =>
      rw [Nat.pow_succ] at h
      rw [Nat.add_sub_cancel]
      omega
  have hcast : ((2 ^ (w - 1) : Nat) : Int) = 2 ^ (w - 1) := Int.natCast_pow 2 (w - 1)
  rw [← hcast, Bool.or_eq_false_iff, decide_eq_false_iff_not, decide_eq_false_iff_not]
  omega

theorem ofUnsigned_ofNat (h : 2 * a < 2 ^ w) : ofUnsigned (BitVec.ofNat w a) = some (BitVec.ofNat w a) := by
  rw [ofUnsigned, msb_ofNat h]
  rfl

theorem add_ofNat (h : 2 * (a + b) < 2 ^ w) :
    add (BitVec.ofNat w a) (BitVec.ofNat w b) = some (BitVec.ofNat w (a + b)) := by
  have hx := toInt_ofNat (show 2 * a < 2 ^ w by omega)
  have hy := toInt_ofNat (show 2 * b < 2 ^ w by omega)
  have hsum : (BitVec.ofNat w a).saddOverflow (BitVec.ofNat w b) = false := by
    rw [BitVec.saddOverflow, hx, hy, ← Int.natCast_add]
    exact in_range h
  rw [add, hsum, BitVec.ofNat_add]
  exact if_neg (by decide)

/-- An unsigned quotient is the one of the numbers. -/
theorem udiv_ofNat (ha : a < 2 ^ w) (hb : b < 2 ^ w) :
    BitVec.ofNat w a / BitVec.ofNat w b = BitVec.ofNat w (a / b) := by
  apply BitVec.eq_of_toNat_eq
  simp only [BitVec.toNat_udiv, BitVec.toNat_ofNat]
  rw [Nat.mod_eq_of_lt ha, Nat.mod_eq_of_lt hb, Nat.mod_eq_of_lt (Nat.lt_of_le_of_lt (Nat.div_le_self a b) ha)]

theorem div_ofNat (ha : 2 * a < 2 ^ w) (hb : 2 * b < 2 ^ w) (hpos : 0 < b) :
    div (BitVec.ofNat w a) (BitVec.ofNat w b) = some (BitVec.ofNat w (a / b)) := by
  have hle : a / b ≤ a := Nat.div_le_self a b
  have hnonzero : BitVec.ofNat w b ≠ 0 := by
    intro hzero
    have hvalue := toNat_ofNat hb
    rw [hzero] at hvalue
    exact absurd hvalue (Nat.ne_of_lt hpos)
  have hquotient : (BitVec.ofNat w a).sdivOverflow (BitVec.ofNat w b) = false := by
    rw [BitVec.sdivOverflow, toInt_ofNat ha, toInt_ofNat hb, ← Int.natCast_ediv]
    exact in_range (by omega)
  have hsdiv : (BitVec.ofNat w a).sdiv (BitVec.ofNat w b) = BitVec.ofNat w (a / b) := by
    rw [BitVec.sdiv_eq, msb_ofNat ha, msb_ofNat hb]
    exact udiv_ofNat (by omega) (by omega)
  rw [div, hquotient, hsdiv]
  exact if_neg fun h => h.elim hnonzero (by decide)

theorem umod_ofNat (ha : a < 2 ^ w) (hb : b < 2 ^ w) :
    BitVec.ofNat w a % BitVec.ofNat w b = BitVec.ofNat w (a % b) := by
  apply BitVec.eq_of_toNat_eq
  simp only [BitVec.toNat_umod, BitVec.toNat_ofNat]
  rw [Nat.mod_eq_of_lt ha, Nat.mod_eq_of_lt hb, Nat.mod_eq_of_lt (Nat.lt_of_le_of_lt (Nat.mod_le a b) ha)]

theorem oneShl_eq {k : Nat} (h : k + 1 < w) : oneShl k = some (BitVec.ofNat w (2 ^ k)) := by
  have htwoPow : BitVec.twoPow w k = BitVec.ofNat w (2 ^ k) := by
    apply BitVec.eq_of_toNat_eq
    rw [BitVec.toNat_twoPow, BitVec.toNat_ofNat]
  rw [oneShl, if_pos h, htwoPow]

theorem and_mask (n k : Nat) : BitVec.ofNat w n &&& BitVec.ofNat w (2 ^ k - 1) = BitVec.ofNat w (n % 2 ^ k) := by
  rw [← BitVec.ofNat_and, Nat.and_two_pow_sub_one_eq_mod]

end Nonneg

/-! ### Rounding up -/

/-- One is added for a remainder. -/
theorem div_add_one (n : Nat) {d : Nat} (hd : 0 < d) : n / d + (if 0 < n % d then 1 else 0) = n ⌈/⌉ d := by
  have hparts := Nat.div_add_mod n d
  have hlt := Nat.mod_lt n hd
  apply Nat.le_antisymm
  · split
    · rename_i hpos
      apply Nat.lt_of_not_le
      intro hle
      have := (ceilDiv_le_iff_le_mul hd).mp hle
      omega
    · rw [Nat.add_zero, ← Nat.floorDiv_eq_div]
      exact floorDiv_le_ceilDiv
  · rw [ceilDiv_le_iff_le_mul hd, Nat.mul_add]
    split <;> omega

theorem ceilDiv_le_div_add_mod (n : Nat) {d : Nat} (hd : 0 < d) : n ⌈/⌉ d ≤ n / d + n % d := by
  rw [← div_add_one n hd]
  split <;> omega

end HddChecker.Signed
