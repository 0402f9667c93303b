import Mathlib.Algebra.Order.Ring.Nat
import Mathlib.Data.List.Range
import Mathlib.Tactic.Common

/-!
# Bytes of a buffer

A buffer is a function from places to bytes. Writing a list of bytes, reading one back, and the words of two and of four bytes with the lowest byte first.
-/

namespace HddChecker.Bytes

/-- The bytes `l` written from `o` on. -/
def put (b : Nat → UInt8) (o : Nat) (l : List UInt8) : Nat → UInt8 := fun i =>
  if o ≤ i then (l[i - o]?).getD (b i) else b i

/-- The `n` bytes from `o` on. -/
def take (b : Nat → UInt8) (o n : Nat) : List UInt8 := (List.range n).map fun k => b (o + k)

/-- The word of two bytes at `o`. -/
def u16 (b : Nat → UInt8) (o : Nat) : Nat := (b o).toNat + 256 * (b (o + 1)).toNat

/-- The word of four bytes at `o`. -/
def u32 (b : Nat → UInt8) (o : Nat) : Nat := u16 b o + 65536 * u16 b (o + 2)

/-- The two bytes of a word. -/
def le16 (n : Nat) : List UInt8 := [UInt8.ofNat n, UInt8.ofNat (n / 256)]

/-- The four bytes of a word. -/
def le32 (n : Nat) : List UInt8 := le16 n ++ le16 (n / 65536)

variable {b b' : Nat → UInt8} {o i k n : Nat} {l : List UInt8}

@[simp] theorem length_take : (take b o n).length = n := by simp [take]

@[simp] theorem length_le16 : (le16 n).length = 2 := rfl

@[simp] theorem length_le32 : (le32 n).length = 4 := rfl

/-! ### Writing -/

@[simp] theorem put_nil : put b o [] = b := by
  funext i
  simp [put]

theorem put_before (h : i < o) : put b o l i = b i := if_neg (Nat.not_le.mpr h)

theorem put_behind (h : o + l.length ≤ i) : put b o l i = b i := by
  rw [put, if_pos (by omega), List.getElem?_eq_none (by omega)]
  rfl

theorem put_outside (h : i < o ∨ o + l.length ≤ i) : put b o l i = b i := h.elim put_before put_behind

theorem put_at (h : k < l.length) : put b o l (o + k) = l[k] := by
  rw [put, if_pos (Nat.le_add_right o k), Nat.add_sub_cancel_left, List.getElem?_eq_getElem h]
  rfl

/-- Two writes in a row are one. -/
theorem put_append {m : List UInt8} : put (put b o l) (o + l.length) m = put b o (l ++ m) := by
  funext i
  rcases Nat.lt_or_ge i o with hi | hi
  · rw [put_before (by omega), put_before hi, put_before hi]
  obtain ⟨k, rfl⟩ := Nat.exists_eq_add_of_le hi
  rcases Nat.lt_or_ge k l.length with hk | hk
  · rw [put_before (by omega), put_at hk, put_at (by rw [List.length_append]; omega), List.getElem_append_left hk]
  · obtain ⟨j, rfl⟩ := Nat.exists_eq_add_of_le hk
    rw [← Nat.add_assoc]
    rcases Nat.lt_or_ge j m.length with hj | hj
    · rw [put_at hj, Nat.add_assoc, put_at (by rw [List.length_append]; omega),
        List.getElem_append_right (Nat.le_add_right _ _)]
      simp
    · rw [put_behind (by omega), put_behind (by omega), put_behind (by rw [List.length_append]; omega)]

/-! ### Reading -/

theorem take_congr (h : ∀ k < n, b (o + k) = b' (o + k)) : take b o n = take b' o n :=
  List.map_congr_left fun k hk => h k (List.mem_range.mp hk)

theorem take_put : take (put b o l) o l.length = l := by
  refine List.ext_getElem length_take fun k _ hk => ?_
  simp only [take, List.getElem_map, List.getElem_range]
  exact put_at hk

/-- What is read inside of what was written. -/
theorem take_put_append {p q : List UInt8} :
    take (put b o (p ++ l ++ q)) (o + p.length) l.length = l := by
  refine List.ext_getElem length_take fun k _ hk => ?_
  simp only [take, List.getElem_map, List.getElem_range]
  rw [Nat.add_assoc, put_at (by simp only [List.length_append]; omega)]
  rw [List.getElem_append_left (by rw [List.length_append]; omega), List.getElem_append_right (by omega)]
  simp

theorem u16_congr (h₀ : b o = b' o) (h₁ : b (o + 1) = b' (o + 1)) : u16 b o = u16 b' o := by rw [u16, u16, h₀, h₁]

/-- A word is read as it was written, up to its width. -/
theorem u16_le16 (h : take b o 2 = le16 n) : u16 b o = n % 65536 := by
  have h₀ : b o = UInt8.ofNat n := (List.cons.inj h).1
  have h₁ : b (o + 1) = UInt8.ofNat (n / 256) := (List.cons.inj (List.cons.inj h).2).1
  rw [u16, h₀, h₁, UInt8.toNat_ofNat', UInt8.toNat_ofNat']
  omega

theorem u32_le32 (h : take b o 4 = le32 n) : u32 b o = n % 2 ^ 32 := by
  have hlow : take b o 2 = le16 n := congrArg (List.take 2) h
  have hhigh : take b (o + 2) 2 = le16 (n / 65536) := congrArg (List.drop 2) h
  rw [u32, u16_le16 hlow, u16_le16 hhigh]
  omega

theorem u32_congr (h : ∀ k < 4, b (o + k) = b' (o + k)) : u32 b o = u32 b' o := by
  have hlow : u16 b o = u16 b' o := u16_congr (h 0 (by decide)) (h 1 (by decide))
  have hhigh : u16 b (o + 2) = u16 b' (o + 2) := u16_congr (h 2 (by decide)) (h 3 (by decide))
  rw [u32, u32, hlow, hhigh]

end HddChecker.Bytes
