import HddChecker.Apa.Table
import Mathlib.Data.List.Chain

/-!
# Buddies

Two empty partitions of one length are buddies when they are the two halves of a dyadic block. A block that becomes empty joins its buddy where that is empty as a whole, the block of both joins its own buddy, and so on; on which side the next buddy lies depends on the address alone.
-/

namespace HddChecker.Apa

open HddChecker

/-- Two empty partitions, one behind the other, that are the halves of a dyadic block. -/
def Buddies (a b : ApaHeader) : Prop :=
  a.isFree = true ∧ b.isFree = true ∧ a.length = b.length ∧ a.start % (2 * b.length) = 0

/-- No two neighbours of the list can be joined. -/
def Coalesced (P : List ApaHeader) : Prop := P.IsChain fun a b => ¬ Buddies a b

/-- Where the buddy of a block lies. -/
inductive Side where
  | left
  | right
  deriving DecidableEq

/-- The nearest of the partitions `before` a block is its buddy. -/
def leftBuddy (before : List ApaHeader) (length : Nat) : Bool :=
  match before with
  | [] => false
  | u :: _ => u.isFree && u.length == length && u.start % (2 * length) == 0

/-- The nearest of the partitions `behind` a block is its buddy. -/
def rightBuddy (start length : Nat) (behind : List ApaHeader) : Bool :=
  match behind with
  | [] => false
  | b :: _ => b.isFree && b.length == length && start % (2 * length) == 0

private theorem tail_lt_of_leftBuddy {before : List ApaHeader} {length : Nat}
    (h : leftBuddy before length = true) : before.tail.length < before.length := by
  cases before with
  | nil => cases h
  | cons u before => exact Nat.lt_succ_self _

private theorem tail_lt_of_rightBuddy {start length : Nat} {behind : List ApaHeader}
    (h : rightBuddy start length behind = true) : behind.tail.length < behind.length := by
  cases behind with
  | nil => cases h
  | cons b behind => exact Nat.lt_succ_self _

/-- The sides on which an empty block, growing between the partitions `before` it, the nearest one first, and those `behind` it, finds one buddy after the other. -/
def buddySides (before : List ApaHeader) (start length : Nat) (behind : List ApaHeader) :
    List Side :=
  if _h : leftBuddy before length = true then
    .left :: buddySides before.tail (start - length) (2 * length) behind
  else if _h : rightBuddy start length behind = true then
    .right :: buddySides before start (2 * length) behind.tail
  else []
termination_by before.length + behind.length
decreasing_by
  · exact Nat.add_lt_add_right (tail_lt_of_leftBuddy ‹_›) _
  · exact Nat.add_lt_add_left (tail_lt_of_rightBuddy ‹_›) _

variable {before behind : List ApaHeader} {start length : Nat} {u b : ApaHeader}

theorem buddySides_left (h : leftBuddy before length = true) :
    buddySides before start length behind =
      .left :: buddySides before.tail (start - length) (2 * length) behind := by
  rw [buddySides, dif_pos h]

theorem buddySides_right (hleft : leftBuddy before length = false)
    (h : rightBuddy start length behind = true) :
    buddySides before start length behind =
      .right :: buddySides before start (2 * length) behind.tail := by
  rw [buddySides, dif_neg (by simp [hleft]), dif_pos h]

theorem buddySides_nil (hleft : leftBuddy before length = false)
    (hright : rightBuddy start length behind = false) :
    buddySides before start length behind = [] := by
  rw [buddySides, dif_neg (by simp [hleft]), dif_neg (by simp [hright])]

theorem buddySides_head_left (hleft : leftBuddy before length = false) :
    (buddySides before start length behind).head? ≠ some .left := by
  cases hright : rightBuddy start length behind with
  | true =>
    rw [buddySides_right hleft hright]
    simp
  | false =>
    rw [buddySides_nil hleft hright]
    simp

theorem buddySides_head_right (hright : rightBuddy start length behind = false) :
    (buddySides before start length behind).head? ≠ some .right := by
  cases hleft : leftBuddy before length with
  | true =>
    rw [buddySides_left hleft]
    simp
  | false =>
    rw [buddySides_nil hleft hright]
    simp

private theorem buddySides_eq_nil :
    buddySides before start length behind = [] ↔
      leftBuddy before length = false ∧ rightBuddy start length behind = false := by
  constructor
  · intro h
    cases hleft : leftBuddy before length with
    | true =>
      rw [buddySides_left hleft] at h
      cases h
    | false =>
      cases hright : rightBuddy start length behind with
      | true =>
        rw [buddySides_right hleft hright] at h
        cases h
      | false => exact ⟨rfl, rfl⟩
  · exact fun h => buddySides_nil h.1 h.2

theorem leftBuddy_eq_false {y m : ApaHeader} {A : List ApaHeader} (hfree : y.isFree = true)
    (hm : m.isFree = false) :
    leftBuddy A.reverse y.length = false ↔ ∀ u ∈ (m :: A).getLast?, ¬ Buddies u y := by
  rcases List.eq_nil_or_concat A with rfl | ⟨A', u, rfl⟩
  · simp [leftBuddy, Buddies, hm]
  · rw [List.concat_eq_append, List.reverse_append, List.reverse_singleton, List.singleton_append,
      ← List.cons_append, List.getLast?_concat, ← Bool.not_eq_true]
    simp [leftBuddy, Buddies, hfree, and_assoc]

private theorem rightBuddy_eq_false {y : ApaHeader} {B : List ApaHeader} (hfree : y.isFree = true) :
    rightBuddy y.start y.length B = false ↔ ∀ b ∈ B.head?, ¬ Buddies y b := by
  cases B with
  | nil => simp [rightBuddy]
  | cons b B =>
    rw [← Bool.not_eq_true]
    simp only [rightBuddy, Buddies, hfree, Bool.and_eq_true, beq_iff_eq, List.head?_cons,
      Option.mem_def, Option.some.injEq, forall_eq', true_and, and_assoc]
    grind

/-- Between partitions that are joined as far as they can be, an empty one can be joined where it has a buddy. -/
theorem coalesced_append {m y : ApaHeader} {A B : List ApaHeader} (hfree : y.isFree = true)
    (hm : m.isFree = false) (hA : Coalesced (m :: A)) (hB : Coalesced B) :
    Coalesced (m :: (A ++ y :: B)) ↔ buddySides A.reverse y.start y.length B = [] := by
  have hcons : Coalesced (y :: B) ↔ (∀ b ∈ B.head?, ¬ Buddies y b) ∧ Coalesced B :=
    List.isChain_cons
  have happend : Coalesced ((m :: A) ++ y :: B) ↔ Coalesced (m :: A) ∧ Coalesced (y :: B) ∧
      ∀ u ∈ (m :: A).getLast?, ∀ z ∈ (y :: B).head?, ¬ Buddies u z := List.isChain_append
  rw [buddySides_eq_nil, leftBuddy_eq_false hfree hm, rightBuddy_eq_false hfree,
    ← List.cons_append, happend, hcons]
  simp only [List.head?_cons, Option.mem_def, Option.some.injEq, forall_eq']
  constructor
  · rintro ⟨-, ⟨hy, -⟩, hlast⟩
    exact ⟨hlast, hy⟩
  · rintro ⟨hlast, hy⟩
    exact ⟨hA, ⟨hy, hB⟩, hlast⟩

/-! ### Blocks of empty partitions -/

theorem Tiles.cut {s c : Nat} {D : List ApaHeader} (h : Tiles s D) (hlo : s ≤ c)
    (hhi : c ≤ s + total D) (hover : ∀ u ∈ D, ¬ (u.start < c ∧ c < u.start + u.length)) :
    ∃ D₁ D₂, D = D₁ ++ D₂ ∧ s + total D₁ = c := by
  induction D generalizing s with
  | nil =>
    rw [total_nil] at hhi
    exact ⟨[], [], rfl, by rw [total_nil]; omega⟩
  | cons u D ih =>
    obtain ⟨hs, -, hD⟩ := h
    rw [total_cons] at hhi
    by_cases hsc : c = s
    · exact ⟨[], u :: D, rfl, by rw [total_nil, hsc, Nat.add_zero]⟩
    · have hu := hover u List.mem_cons_self
      obtain ⟨D₁, D₂, rfl, hcut⟩ := ih hD (by omega) (by omega)
        fun v hv => hover v (List.mem_cons_of_mem _ hv)
      exact ⟨u :: D₁, D₂, rfl, by rw [total_cons]; omega⟩

/-- Empty partitions that fill a dyadic block and cannot be joined are one partition. -/
private theorem single_of_coalesced {s l : Nat} {D : List ApaHeader} (h : Tiles s D) (htotal : total D = l)
    (hblock : Dyadic s l) (hfree : ∀ u ∈ D, u.isFree = true) (hcoalesced : Coalesced D) :
    ∃ u, D = [u] := by
  induction l using Nat.strongRecOn generalizing s D with
  | ind l ih =>
    have hpos := hblock.pos
    cases D with
    | nil =>
      rw [total_nil] at htotal
      omega
    | cons u D =>
      obtain ⟨hs, hu, hD⟩ := h
      have htwo := hu.two_le
      rw [total_cons] at htotal
      rcases Nat.lt_or_ge u.length l with hlt | hge
      · -- the block has two halves, and no partition goes over both
        have hhalf := Dyadic.two_mul_le hu.dyadic.pow hblock.pow hlt
        obtain ⟨n, rfl⟩ := hblock.pow
        cases n with
        | zero => omega
        | succ n =>
          have hpow : (2 ^ n).isPowerOfTwo := ⟨n, rfl⟩
          have htwice : 2 ^ (n + 1) = 2 * 2 ^ n := by rw [Nat.pow_succ, Nat.mul_comm]
          have hdvd : 2 ^ n ∣ s := (Dvd.intro_left 2 htwice.symm).trans hblock.dvd
          have htiles : Tiles s (u :: D) := ⟨hs, hu, hD⟩
          have hover : ∀ v ∈ u :: D, ¬ (v.start < s + 2 ^ n ∧ s + 2 ^ n < v.start + v.length) := by
            intro v hv
            have hpart := htiles.part hv
            have hend := htiles.end_le hv
            rw [total_cons] at hend
            refine hpart.dyadic.not_over hpow ?_ (Nat.dvd_add hdvd (dvd_refl _))
            by_contra hlong
            have := Dyadic.two_mul_le hpow hpart.dyadic.pow (by omega)
            rcases List.mem_cons.mp hv with rfl | hv
            · omega
            · have := hD.le_start hv
              omega
          obtain ⟨D₁, D₂, hcut, hmiddle⟩ := htiles.cut (c := s + 2 ^ n) (by omega)
            (by rw [total_cons]; omega) hover
          have hsum : total D₁ + total D₂ = u.length + total D := by
            rw [← total_append, ← hcut, total_cons]
          rw [hcut] at htiles hfree hcoalesced
          obtain ⟨htiles₁, htiles₂⟩ := tiles_append.mp htiles
          obtain ⟨u₁, rfl⟩ := ih (2 ^ n) (by omega) htiles₁ (by omega) ⟨hpow, hdvd⟩
            (fun v hv => hfree v (List.mem_append_left _ hv)) hcoalesced.left_of_append
          obtain ⟨u₂, rfl⟩ := ih (2 ^ n) (by omega) htiles₂ (by omega)
            ⟨hpow, by rw [hmiddle]; exact Nat.dvd_add hdvd (dvd_refl _)⟩
            (fun v hv => hfree v (List.mem_append_right _ hv)) hcoalesced.right_of_append
          rw [total_cons, total_nil] at hmiddle hsum
          rw [total_cons, total_nil] at hsum
          have hbuddies : Buddies u₁ u₂ := by
            refine ⟨hfree u₁ (by simp), hfree u₂ (by simp), by omega, ?_⟩
            rw [htiles₁.1, show 2 * u₂.length = 2 ^ (n + 1) by omega]
            exact Nat.mod_eq_zero_of_dvd hblock.dvd
          exact (List.isChain_pair.mp hcoalesced hbuddies).elim
      · cases D with
        | nil => exact ⟨u, rfl⟩
        | cons v D =>
          have := hD.2.1.two_le
          rw [total_cons] at htotal
          omega

/-- The block of the length of `x` before it is the left half of a dyadic block, and no partition in it is used. -/
def FreeBefore (P : List ApaHeader) (x : ApaHeader) : Prop :=
  (x.start - x.length) % (2 * x.length) = 0 ∧
    ∀ u ∈ P, x.start - x.length ≤ u.start → u.start < x.start → u.isFree = true

theorem freeBefore_iff {P : List ApaHeader} {x : ApaHeader} :
    FreeBefore P x ↔ (x.start - x.length) % (2 * x.length) = 0 ∧
      ∀ u ∈ used P, x.start - x.length ≤ u.start → x.start ≤ u.start := by
  refine and_congr_right fun _ => ⟨fun h u hu hlo => ?_, fun h u hu hlo hhi => ?_⟩
  · obtain ⟨huP, hused⟩ := mem_used.mp hu
    by_contra hhi
    rw [h u huP hlo (by omega)] at hused
    cases hused
  · cases hfree : u.isFree with
    | true => rfl
    | false =>
      have := h u (mem_used.mpr ⟨hu, hfree⟩) hlo
      omega

/-- Behind partitions that cannot be joined, a partition has a left buddy where the block before it is empty. -/
theorem leftBuddy_iff_freeBefore {m x : ApaHeader} {D : List ApaHeader}
    (htiles : Tiles 0 (m :: (D ++ [x]))) (hcoalesced : Coalesced (m :: D)) :
    leftBuddy D.reverse x.length = true ↔ FreeBefore (m :: D) x := by
  have hm : m.isFree = false := ((htiles.part List.mem_cons_self).mbr htiles.1).2.1
  have hx := htiles.part (x := x) (by simp)
  rw [← List.cons_append, tiles_append, Nat.zero_add] at htiles
  obtain ⟨hD, hxs, -⟩ := htiles
  have hpos := hx.dyadic.pos
  have hxl : x.length ≤ x.start := by
    refine Nat.le_of_dvd ?_ hx.dyadic.dvd
    have := hD.2.1.two_le
    rw [hxs, total_cons]
    omega
  constructor
  · intro hbuddy
    rcases List.eq_nil_or_concat D with rfl | ⟨D', u, rfl⟩
    · cases hbuddy
    · rw [List.concat_eq_append] at *
      rw [List.reverse_append, List.reverse_singleton, List.singleton_append] at hbuddy
      simp only [leftBuddy, Bool.and_eq_true, beq_iff_eq] at hbuddy
      obtain ⟨⟨hfree, hlength⟩, hmod⟩ := hbuddy
      rw [← List.cons_append, tiles_append] at hD
      obtain ⟨hD', hu, -⟩ := hD
      rw [Nat.zero_add] at hu
      have hend : u.start + u.length = x.start := by
        rw [hxs, hu]
        simp only [total_cons, total_append, total_nil]
        omega
      refine ⟨by rwa [show x.start - x.length = u.start by omega], fun v hv hlo _ => ?_⟩
      rw [← List.cons_append] at hv
      rcases List.mem_append.mp hv with hv | hv
      · have := hD'.end_le hv
        have := (hD'.part hv).two_le
        omega
      · rwa [List.mem_singleton.mp hv]
  · rintro ⟨hmod, hempty⟩
    have hblock : 2 * x.length ∣ x.start - x.length := Nat.dvd_of_mod_eq_zero hmod
    have hover : ∀ u ∈ m :: D,
        ¬ (u.start < x.start - x.length ∧ x.start - x.length < u.start + u.length) := by
      intro u hu
      have hpart := hD.part hu
      have hend := hD.end_le hu
      rcases Nat.lt_or_ge x.length u.length with hlt | hge
      · -- a longer block would reach past the start of `x`
        rintro ⟨-, hhi⟩
        have htwo := Dyadic.two_mul_le hx.dyadic.pow hpart.dyadic.pow hlt
        have hpow : (2 * x.length).isPowerOfTwo := by
          obtain ⟨n, hn⟩ := hx.dyadic.pow
          exact ⟨n + 1, by rw [hn, Nat.pow_succ, Nat.mul_comm]⟩
        have hul := Dyadic.pow_dvd hpow hpart.dyadic.pow htwo
        have hdvd : 2 * x.length ∣ u.start + u.length - (x.start - x.length) :=
          Nat.dvd_sub (Nat.dvd_add (hul.trans hpart.dyadic.dvd) hul) hblock
        have := Nat.le_of_dvd (by omega) hdvd
        omega
      · exact hpart.dyadic.not_over hx.dyadic.pow hge
          (Nat.dvd_sub hx.dyadic.dvd (dvd_refl _))
    obtain ⟨D₁, D₂, hcut, hstart⟩ := hD.cut (c := x.start - x.length) (Nat.zero_le _) (by omega) hover
    have hsum : total D₁ + total D₂ = x.start := by rw [← total_append, ← hcut, hxs]
    rw [Nat.zero_add] at hstart
    rw [hcut] at hD hcoalesced
    obtain ⟨-, hD₂⟩ := tiles_append.mp hD
    rw [Nat.zero_add, hstart] at hD₂
    obtain ⟨u, rfl⟩ := single_of_coalesced hD₂ (l := x.length) (by omega)
      ⟨hx.dyadic.pow, Nat.dvd_sub hx.dyadic.dvd (dvd_refl _)⟩ (fun v hv => by
        have hvD : v ∈ m :: D := by
          rw [hcut]
          exact List.mem_append_right _ hv
        have := hD₂.end_le hv
        have := (hD₂.part hv).two_le
        exact hempty v hvD (hD₂.le_start hv) (by omega)) hcoalesced.right_of_append
    rw [total_cons, total_nil] at hsum
    cases D₁ with
    | nil =>
      obtain ⟨rfl, -⟩ := List.cons.inj hcut
      have hufree := hempty m List.mem_cons_self (by rw [hD₂.1]) (by rw [hD₂.1]; omega)
      rw [hm] at hufree
      cases hufree
    | cons m' D₁ =>
      obtain ⟨rfl, rfl⟩ := List.cons.inj hcut
      have hufree := hempty u (by simp) (by rw [hD₂.1]) (by rw [hD₂.1]; omega)
      rw [show (D₁.append [u]).reverse = u :: D₁.reverse from List.reverse_concat]
      simp only [leftBuddy, Bool.and_eq_true, beq_iff_eq]
      exact ⟨⟨hufree, by omega⟩, by rw [hD₂.1]; exact hmod⟩

/-- The sides behind the buddies on one side. -/
def Side.skip (side : Side) (W : List Side) : List Side := W.dropWhile (· == side)

theorem Side.skip_append {side : Side} {n : Nat} {W : List Side} (h : W.head? ≠ some side) :
    side.skip (List.replicate n side ++ W) = W := by
  induction n with
  | zero =>
    cases W with
    | nil => rfl
    | cons s W =>
      have hne : s ≠ side := fun heq => h (by rw [heq]; rfl)
      simp [Side.skip, hne]
  | succ n ih =>
    rw [List.replicate_succ, List.cons_append, Side.skip, List.dropWhile_cons, if_pos (by simp)]
    exact ih

end HddChecker.Apa
