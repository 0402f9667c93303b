import Mathlib.Algebra.BigOperators.Intervals
import HddChecker.Fsck.Session
import HddChecker.Fssk.Preserved

/-!
# How much is trimmed

`fsskCalculateSpaceToRemove` says how many of the last sub-partitions fssk removes, `fsskSimGetStat` tells their size, and `fsskCalcLastSub` chooses the partition that directories are moved to.
-/

namespace HddChecker.Fssk

open HddChecker Prog Pfs

/-- What the computation reads: the mount, with the field of it that the allocator has no use for, and the setting of `FSSK_IOCTL2_CMD_SET_MINFREE`. -/
structure Space where
  mount : pfs_mount_t
  total_zones : Nat
  minFree : BitVec 32

/-- How the arithmetic of the code ends, if it does. -/
structure Arithmetic where
  sub : Nat → Nat → Option Nat
  /-- a subtraction in an expression whose value is dropped -/
  drop : Nat → Nat → Option Nat
  div : Nat → Nat → Option Nat

theorem u32_sub {a b : Nat} (hle : b ≤ a) (hlt : a < 2 ^ 32) : u32 (a + 2 ^ 32 - b) = a - b := by
  change (a + 2 ^ 32 - b) % 2 ^ 32 = a - b
  omega

namespace Arithmetic

/-- A subtraction of `u32`. -/
def wrapping (a b : Nat) : Option Nat := some (u32 (a + 2 ^ 32 - b))

/-- A subtraction without a result where it would wrap. -/
def exact (a b : Nat) : Option Nat := if b ≤ a then some (a - b) else none

def quotient (a b : Nat) : Option Nat := if b = 0 then none else some (a / b)

/-- The arithmetic of `u32`. -/
def machine : Arithmetic := ⟨wrapping, wrapping, quotient⟩

/-- No result where a subtraction would wrap whose value is kept. -/
def kept : Arithmetic := ⟨exact, wrapping, quotient⟩

/-- No result where any subtraction would wrap. -/
def checked : Arithmetic := ⟨exact, exact, quotient⟩

/-- The results are right where nothing wraps. -/
structure Right (A : Arithmetic) : Prop where
  sub : ∀ {a b : Nat}, b ≤ a → a < 2 ^ 32 → A.sub a b = some (a - b)
  div : ∀ {a b : Nat}, b ≠ 0 → A.div a b = some (a / b)

theorem machine_right : machine.Right where
  sub := fun hle hlt => congrArg some (u32_sub hle hlt)
  div := fun hne => if_neg hne

private theorem kept_right : kept.Right where
  sub := fun hle _ => if_pos hle
  div := fun hne => if_neg hne

private theorem checked_right : checked.Right where
  sub := fun hle _ => if_pos hle
  div := fun hne => if_neg hne

end Arithmetic

namespace Space

variable (A : Arithmetic) (s : Space)

/-- The expression of the loop that accounts for a sub-partition's own free zones and its metadata. It stands alone: its value is dropped. -/
def dropped (i : Nat) : Option Nat := do
  let used ← A.drop (s.mount.zones i) (s.mount.free_zone i)
  let used ← A.drop used (Fsck.pfsGetBitmapSizeBlocks s.mount.sector_scale (s.mount.getSize i))
  A.drop used 1

/-- A pass of the loop of `fsskCalculateSpaceToRemove`: the totals after it, or `none` where it breaks. The ratio is compared as an unsigned number. -/
def removeSub (i zfree total_zones : Nat) : Option (Option (Nat × Nat)) := do
  let SizeOfSubZones := s.mount.zones i
  let total_zones ← A.sub total_zones SizeOfSubZones
  let _ ← s.dropped A i
  if s.mount.free_zone i ≤ zfree then
    let zfree ← A.sub zfree (s.mount.free_zone i)
    if SizeOfSubZones ≤ zfree then
      let zfree ← A.sub zfree SizeOfSubZones
      let ratio ← A.div (zfree * 100) total_zones
      if u32 ratio < s.minFree.toNat then return none else return some (zfree, total_zones)
    else return none
  else return none

/-- The loop of `fsskCalculateSpaceToRemove`. -/
def removeSubs : (i zfree total_zones PartsToRemove : Nat) → Option Nat
  | 0, _, _, PartsToRemove => some PartsToRemove
  | i + 1, zfree, total_zones, PartsToRemove =>
    match s.removeSub A (i + 1) zfree total_zones with
    | none => none
    | some none => some PartsToRemove
    | some (some (zfree, total_zones)) => removeSubs i zfree total_zones (PartsToRemove + 1)

/-- `fsskCalculateSpaceToRemove` with some arithmetic. -/
def calculate : Option Nat := s.removeSubs A s.mount.num_subs s.mount.zfree s.total_zones 0

def fsskCalculateSpaceToRemove : Option Nat := s.calculate .machine

/-- The loop of `fsskSimGetStat`. -/
def sumSizes : (i result : Nat) → Nat
  | 0, result => result
  | i + 1, result => sumSizes i (u32 (result + s.mount.getSize (i + 1)))

def fsskSimGetStat : Option Nat :=
  match s.fsskCalculateSpaceToRemove with
  | none => none
  | some partsDeleted =>
    if u32 (s.mount.num_subs + 2 ^ 32 - partsDeleted) < s.mount.num_subs then
      some (s.sumSizes s.mount.num_subs 0)
    else some 0

/-! ### Sums over the partitions -/

/-- The free zones of the main partition and the first `i` sub-partitions. -/
def freeUpTo (i : Nat) : Nat := ∑ x ∈ Finset.range (i + 1), s.mount.free_zone x

def zonesUpTo (i : Nat) : Nat := ∑ x ∈ Finset.range (i + 1), s.mount.zones x

/-- A sum over the sub-partitions behind the first `i`. -/
def behind (f : Nat → Nat) (i : Nat) : Nat := ∑ x ∈ Finset.Ioc i s.mount.num_subs, f x

/-- Zones `f` of each partition behind the first `i` fit into the free zones of the others, with so many percent of these left. -/
def FitsWith (f : Nat → Nat) (percent : Int) (i : Nat) : Prop :=
  s.behind f i ≤ s.freeUpTo i ∧
    percent ≤ ((s.freeUpTo i - s.behind f i) * 100 / s.zonesUpTo i : Nat)

instance (f : Nat → Nat) (percent : Int) (i : Nat) : Decidable (s.FitsWith f percent i) := by
  unfold FitsWith
  infer_instance

/-- A mount as the allocator keeps it: the totals are those of the partitions, none of which has more free zones than zones, and the main partition is not empty. -/
structure Totals : Prop where
  zfree : s.mount.zfree = s.freeUpTo s.mount.num_subs
  total_zones : s.total_zones = s.zonesUpTo s.mount.num_subs
  free_le : ∀ i ≤ s.mount.num_subs, s.mount.free_zone i ≤ s.mount.zones i
  main : 0 < s.mount.zones 0
  subs : s.mount.num_subs < 2 ^ 32
  range : s.total_zones < 2 ^ 32

variable {A s} {i k zfree total_zones : Nat} {f g : Nat → Nat} {percent : Int}

private theorem freeUpTo_succ (i : Nat) : s.freeUpTo (i + 1) = s.freeUpTo i + s.mount.free_zone (i + 1) :=
  Finset.sum_range_succ ..

private theorem zonesUpTo_succ (i : Nat) : s.zonesUpTo (i + 1) = s.zonesUpTo i + s.mount.zones (i + 1) :=
  Finset.sum_range_succ ..

theorem behind_self : s.behind f s.mount.num_subs = 0 := by
  rw [behind, Finset.Ioc_self, Finset.sum_empty]

private theorem behind_succ (hi : i < s.mount.num_subs) : s.behind f i = f (i + 1) + s.behind f (i + 1) := by
  have hsplit : Finset.Ioc i s.mount.num_subs = insert (i + 1) (Finset.Ioc (i + 1) s.mount.num_subs) := by
    ext x
    simp only [Finset.mem_Ioc, Finset.mem_insert]
    omega
  have hnotMem : i + 1 ∉ Finset.Ioc (i + 1) s.mount.num_subs := by
    rw [Finset.mem_Ioc]
    omega
  rw [behind, hsplit, Finset.sum_insert hnotMem]
  rfl

private theorem behind_mono (h : ∀ x, f x ≤ g x) (i : Nat) : s.behind f i ≤ s.behind g i :=
  Finset.sum_le_sum fun x _ => h x

theorem zonesUpTo_mono {j : Nat} (h : i ≤ j) : s.zonesUpTo i ≤ s.zonesUpTo j :=
  Finset.sum_le_sum_of_subset (Finset.range_subset_range.mpr (by omega))

theorem Totals.freeUpTo_le (h : s.Totals) (hi : i ≤ s.mount.num_subs) : s.freeUpTo i ≤ s.zonesUpTo i := by
  apply Finset.sum_le_sum
  intro x hx
  have hlt := Finset.mem_range.mp hx
  exact h.free_le x (by omega)

theorem Totals.zonesUpTo_pos (h : s.Totals) (i : Nat) : 0 < s.zonesUpTo i := by
  have hmain : s.zonesUpTo 0 = s.mount.zones 0 := Finset.sum_range_one _
  have hle : s.zonesUpTo 0 ≤ s.zonesUpTo i := zonesUpTo_mono (Nat.zero_le i)
  have hpos := h.main
  omega

theorem Totals.zonesUpTo_lt (h : s.Totals) (hi : i ≤ s.mount.num_subs) : s.zonesUpTo i < 2 ^ 32 := by
  have hle : s.zonesUpTo i ≤ s.zonesUpTo s.mount.num_subs := zonesUpTo_mono hi
  have hlt := h.range
  rw [h.total_zones] at hlt
  omega

theorem Totals.ratio_le (h : s.Totals) (hi : i ≤ s.mount.num_subs) (n : Nat) :
    (s.freeUpTo i - n) * 100 / s.zonesUpTo i ≤ 100 := by
  have hle := h.freeUpTo_le hi
  apply Nat.div_le_of_le_mul
  omega

/-! ### The loop -/

/-- The expression whose value is dropped has one. -/
def Dropped (A : Arithmetic) (s : Space) (i : Nat) : Prop := (s.dropped A i).isSome = true

theorem dropped_wrapping (hA : A.drop = Arithmetic.wrapping) (s : Space) (i : Nat) : Dropped A s i := by
  simp only [Dropped, dropped, hA, Arithmetic.wrapping, Option.bind_eq_bind, Option.bind_some, Option.isSome_some]

private theorem dropped_checked (i : Nat) : Dropped .checked s i ↔ s.mount.free_zone i +
    Fsck.pfsGetBitmapSizeBlocks s.mount.sector_scale (s.mount.getSize i) + 1 ≤ s.mount.zones i := by
  have hexact : ∀ a b c : Nat, (((Arithmetic.exact a b).bind fun used => Arithmetic.exact used c).bind fun used =>
      Arithmetic.exact used 1).isSome = true ↔ b + c + 1 ≤ a := by
    intro a b c
    unfold Arithmetic.exact
    by_cases hb : b ≤ a
    · rw [if_pos hb, Option.bind_some]
      by_cases hc : c ≤ a - b
      · rw [if_pos hc, Option.bind_some, Option.isSome_ite]
        omega
      · rw [if_neg hc]
        exact iff_of_false (by simp) (by omega)
    · rw [if_neg hb]
      exact iff_of_false (by simp) (by omega)
  rw [← hexact, Option.bind_assoc]
  rfl

/-- The loop goes on past a sub-partition exactly where all the zones from it on fit into the free ones before it. -/
private theorem removeSub_eq (hA : A.Right) (h : s.Totals) (hi : i < s.mount.num_subs) (hdrop : Dropped A s (i + 1))
    (hbefore : s.behind s.mount.zones (i + 1) ≤ s.freeUpTo (i + 1)) :
    s.removeSub A (i + 1) (s.freeUpTo (i + 1) - s.behind s.mount.zones (i + 1)) (s.zonesUpTo (i + 1)) =
      some (if s.FitsWith s.mount.zones s.minFree.toNat i then
        some (s.freeUpTo i - s.behind s.mount.zones i, s.zonesUpTo i) else none) := by
  have hfree := freeUpTo_succ (s := s) i
  have hzones := zonesUpTo_succ (s := s) i
  have hbehind := behind_succ (f := s.mount.zones) hi
  have hlt := h.zonesUpTo_lt (i := i + 1) hi
  have hle := h.freeUpTo_le (i := i + 1) hi
  have htotal : A.sub (s.zonesUpTo (i + 1)) (s.mount.zones (i + 1)) = some (s.zonesUpTo i) := by
    rw [hA.sub (by omega) hlt]
    congr 1
    omega
  have hratio : (s.freeUpTo i - s.behind s.mount.zones i) * 100 / s.zonesUpTo i < 2 ^ 32 := by
    have hsmall := h.ratio_le (i := i) (by omega) (s.behind s.mount.zones i)
    omega
  obtain ⟨dropped, hdropped⟩ := Option.isSome_iff_exists.mp hdrop
  simp only [removeSub, htotal, hdropped, Option.bind_eq_bind, Option.bind_some, pure]
  by_cases hfits : s.behind s.mount.zones i ≤ s.freeUpTo i
  · -- both differences are those of the sums
    have hown : A.sub (s.freeUpTo (i + 1) - s.behind s.mount.zones (i + 1)) (s.mount.free_zone (i + 1)) =
        some (s.freeUpTo i - s.behind s.mount.zones (i + 1)) := by
      rw [hA.sub (by omega) (by omega)]
      congr 1
      omega
    have hrest : A.sub (s.freeUpTo i - s.behind s.mount.zones (i + 1)) (s.mount.zones (i + 1)) =
        some (s.freeUpTo i - s.behind s.mount.zones i) := by
      rw [hA.sub (by omega) (by omega)]
      congr 1
      omega
    rw [if_pos (by omega), hown]
    simp only [Option.bind_some]
    rw [if_pos (by omega), hrest]
    simp only [Option.bind_some]
    rw [hA.div (h.zonesUpTo_pos i).ne']
    simp only [Option.bind_some]
    rw [u32, Nat.mod_eq_of_lt hratio]
    by_cases hpercent : s.minFree.toNat ≤ (s.freeUpTo i - s.behind s.mount.zones i) * 100 / s.zonesUpTo i
    · rw [if_neg (by omega), if_pos ⟨hfits, by exact_mod_cast hpercent⟩]
    · rw [if_pos (by omega), if_neg fun hwith => hpercent (by exact_mod_cast hwith.2)]
  · have hwith : ¬ s.FitsWith s.mount.zones s.minFree.toNat i := fun hwith => hfits hwith.1
    simp only [if_neg hwith]
    by_cases hguard : s.mount.free_zone (i + 1) ≤ s.freeUpTo (i + 1) - s.behind s.mount.zones (i + 1)
    · rw [if_pos hguard, hA.sub hguard (by omega)]
      simp only [Option.bind_some]
      rw [if_neg (by omega)]
    · rw [if_neg hguard]

private theorem removeSubs_eq (hA : A.Right) (h : s.Totals) (hi : i ≤ s.mount.num_subs)
    (hdrop : ∀ j, 1 ≤ j → j ≤ s.mount.num_subs → Dropped A s j) (hbefore : s.behind s.mount.zones i ≤ s.freeUpTo i) (k : Nat) :
    ∃ d ≤ i, s.removeSubs A i (s.freeUpTo i - s.behind s.mount.zones i) (s.zonesUpTo i) k = some (k + d) ∧
      (∀ e < d, s.FitsWith s.mount.zones s.minFree.toNat (i - (e + 1))) ∧
        (d < i → ¬ s.FitsWith s.mount.zones s.minFree.toNat (i - (d + 1))) := by
  induction i generalizing k with
  | zero => exact ⟨0, le_rfl, rfl, fun e he => absurd he (Nat.not_lt_zero e), fun he => absurd he (Nat.lt_irrefl 0)⟩
  | succ i ih =>
    rw [removeSubs, removeSub_eq hA h hi (hdrop (i + 1) (Nat.le_add_left 1 i) hi) hbefore]
    by_cases hfits : s.FitsWith s.mount.zones s.minFree.toNat i
    · obtain ⟨d, hd, heq, hall, hnext⟩ := ih (by omega) hfits.1 (k + 1)
      refine ⟨d + 1, by omega, ?_, fun e he => ?_, fun hlt => ?_⟩
      · simp only [if_pos hfits]
        rw [heq, Nat.add_assoc, Nat.add_comm 1]
      · cases e with
        | zero => exact hfits
        | succ e =>
          rw [Nat.add_sub_add_right]
          exact hall e (by omega)
      · rw [Nat.add_sub_add_right]
        exact hnext (by omega)
    · refine ⟨0, Nat.zero_le _, ?_, fun e he => absurd he (Nat.not_lt_zero e), fun _ => hfits⟩
      simp only [if_neg hfits]
      rfl

/-- The numbers `k` of sub-partitions such that, for every smaller number, too, zones `f` of the last ones fit. -/
def Removable (s : Space) (f : Nat → Nat) (percent : Int) : Set Nat :=
  {k | k ≤ s.mount.num_subs ∧ ∀ j, 1 ≤ j → j ≤ k → s.FitsWith f percent (s.mount.num_subs - j)}

private theorem isGreatest_removable {d : Nat} (hd : d ≤ s.mount.num_subs)
    (hall : ∀ e < d, s.FitsWith f percent (s.mount.num_subs - (e + 1)))
    (hnext : d < s.mount.num_subs → ¬ s.FitsWith f percent (s.mount.num_subs - (d + 1))) :
    IsGreatest (s.Removable f percent) d := by
  refine ⟨⟨hd, fun j hj hjd => ?_⟩, fun k hk => ?_⟩
  · have hfits := hall (j - 1) (by omega)
    rwa [Nat.sub_add_cancel hj] at hfits
  · by_contra hlt
    exact hnext (by have := hk.1; omega) (hk.2 (d + 1) (by omega) (by omega))

theorem calculate_eq (hA : A.Right) (h : s.Totals) (hdrop : ∀ j, 1 ≤ j → j ≤ s.mount.num_subs → Dropped A s j) :
    ∃ k, s.calculate A = some k ∧ IsGreatest (s.Removable s.mount.zones s.minFree.toNat) k := by
  have hnone : s.behind s.mount.zones s.mount.num_subs = 0 := behind_self
  obtain ⟨d, hd, heq, hall, hnext⟩ := removeSubs_eq hA h le_rfl hdrop (by omega) 0
  rw [hnone, Nat.sub_zero, ← h.zfree, ← h.total_zones, Nat.zero_add] at heq
  exact ⟨d, heq, isGreatest_removable hd hall hnext⟩

/-! ### What is removed fits -/

/-- The used zones of a partition. -/
def usedZones (s : Space) (i : Nat) : Nat := s.mount.zones i - s.mount.free_zone i

theorem FitsWith.mono (hfits : s.FitsWith g percent i) (h : ∀ x, f x ≤ g x) : s.FitsWith f percent i := by
  have hle := behind_mono (s := s) h i
  refine ⟨hle.trans hfits.1, hfits.2.trans ?_⟩
  have hdiv : (s.freeUpTo i - s.behind g i) * 100 / s.zonesUpTo i ≤
      (s.freeUpTo i - s.behind f i) * 100 / s.zonesUpTo i := by
    apply Nat.div_le_div_right
    omega
  exact_mod_cast hdiv

/-- A percentage that was met as an unsigned number is met as the number it is. -/
theorem FitsWith.signed (h : s.Totals) (hi : i ≤ s.mount.num_subs)
    (hfits : s.FitsWith f s.minFree.toNat i) : s.FitsWith f s.minFree.toInt i := by
  refine ⟨hfits.1, ?_⟩
  have hratio := h.ratio_le hi (s.behind f i)
  have hpercent : s.minFree.toNat ≤ (s.freeUpTo i - s.behind f i) * 100 / s.zonesUpTo i := by
    exact_mod_cast hfits.2
  rw [BitVec.toInt_eq_toNat_of_lt (by omega)]
  exact hfits.2

/-- fssk never removes too much: what it says fits, and no difference that is kept wraps on the way. The one that is dropped does not wrap either where every sub-partition has as many used zones as its metadata takes up. -/
theorem fsskCalculateSpaceToRemove_safe (s : Space) (h : s.Totals) :
    ∃ k, s.fsskCalculateSpaceToRemove = some k ∧ s.calculate .kept = some k ∧ k ≤ s.mount.num_subs ∧
      s.behind s.usedZones (s.mount.num_subs - k) ≤ s.freeUpTo (s.mount.num_subs - k) ∧
        (0 < k → s.minFree.toInt ≤ ((s.freeUpTo (s.mount.num_subs - k) -
          s.behind s.usedZones (s.mount.num_subs - k)) * 100 / s.zonesUpTo (s.mount.num_subs - k) : Nat)) ∧
          ((∀ i, 1 ≤ i → i ≤ s.mount.num_subs → s.mount.free_zone i +
            Fsck.pfsGetBitmapSizeBlocks s.mount.sector_scale (s.mount.getSize i) + 1 ≤ s.mount.zones i) →
              s.calculate .checked = some k) := by
  obtain ⟨k, hk, hgreatest⟩ := calculate_eq Arithmetic.machine_right h fun j _ _ => dropped_wrapping rfl s j
  obtain ⟨k', hk', hgreatest'⟩ := calculate_eq Arithmetic.kept_right h fun j _ _ => dropped_wrapping rfl s j
  obtain rfl := hgreatest.unique hgreatest'
  have hfits : 0 < k → s.FitsWith s.usedZones s.minFree.toInt (s.mount.num_subs - k) := by
    intro hpos
    have hwhole := hgreatest.1.2 k hpos le_rfl
    exact (hwhole.signed h (by omega)).mono fun x => Nat.sub_le _ _
  refine ⟨k, hk, hk', hgreatest.1.1, ?_, fun hpos => (hfits hpos).2, fun hmetadata => ?_⟩
  · rcases Nat.eq_zero_or_pos k with rfl | hpos
    · rw [Nat.sub_zero, behind_self]
      exact Nat.zero_le _
    · exact (hfits hpos).1
  · obtain ⟨k', hk', hgreatest'⟩ := calculate_eq Arithmetic.checked_right h fun j hj hle =>
      (dropped_checked j).mpr (hmetadata j hj hle)
    obtain rfl := hgreatest.unique hgreatest'
    exact hk'

/-! ### What could be removed -/

/-- The occupied zones of a sub-partition: those that are neither free nor its bitmap nor reserved. -/
def occupied (s : Space) (i : Nat) : Nat :=
  s.mount.zones i - s.mount.free_zone i -
    Fsck.pfsGetBitmapSizeBlocks s.mount.sector_scale (s.mount.getSize i) - 1

private theorem occupied_le (s : Space) (i : Nat) : s.occupied i ≤ s.mount.zones i := by
  rw [occupied]
  omega

/-- fssk says to remove as much as fits, and the simulation tells the size of these sub-partitions. -/
def RemovesAll (s : Space) : Prop :=
  ∃ k, s.fsskCalculateSpaceToRemove = some k ∧ IsGreatest (s.Removable s.occupied s.minFree.toInt) k ∧
    s.fsskSimGetStat = some (u32 (s.behind s.mount.getSize (s.mount.num_subs - k)))

/-- The sizes of the sub-partitions that stay. -/
def sizesUpTo (s : Space) (i : Nat) : Nat := ∑ x ∈ Finset.Ioc 0 i, s.mount.getSize x

/-- Wherever the last sub-partitions can be removed, they could even if all of their zones were occupied, and all of them can be removed or none, or those that stay are empty. -/
structure Plain (s : Space) : Prop where
  whole : ∀ j, 1 ≤ j → j ∈ s.Removable s.occupied s.minFree.toInt →
    s.FitsWith s.mount.zones s.minFree.toNat (s.mount.num_subs - j)
  sizes : ∀ k, IsGreatest (s.Removable s.occupied s.minFree.toInt) k →
    k = 0 ∨ 2 ^ 32 ∣ s.sizesUpTo (s.mount.num_subs - k)

private theorem sumSizes_eq {n : Nat} (i : Nat) (hn : n < 2 ^ 32) : s.sumSizes i n = u32 (n + s.sizesUpTo i) := by
  induction i generalizing n with
  | zero =>
    rw [sumSizes, sizesUpTo, Finset.Ioc_self, Finset.sum_empty, Nat.add_zero]
    exact (Nat.mod_eq_of_lt hn).symm
  | succ i ih =>
    have hsplit : s.sizesUpTo (i + 1) = s.sizesUpTo i + s.mount.getSize (i + 1) :=
      Finset.sum_Ioc_succ_top (Nat.zero_le i) _
    rw [sumSizes, ih (Nat.mod_lt _ (by decide)), hsplit]
    simp only [u32, Nat.mod_add_mod]
    congr 1
    omega

private theorem fsskSimGetStat_eq {k : Nat} (hk : s.fsskCalculateSpaceToRemove = some k) (hle : k ≤ s.mount.num_subs)
    (hsubs : s.mount.num_subs < 2 ^ 32) :
    s.fsskSimGetStat = some (if k = 0 then 0 else u32 (s.sizesUpTo s.mount.num_subs)) := by
  have hsum : s.sumSizes s.mount.num_subs 0 = u32 (s.sizesUpTo s.mount.num_subs) := by
    rw [sumSizes_eq _ (by decide), Nat.zero_add]
  simp only [fsskSimGetStat, hk, u32_sub hle hsubs]
  by_cases hzero : k = 0
  · rw [if_neg (by omega), if_pos hzero]
  · rw [if_pos (by omega), if_neg hzero, hsum]

private theorem sizesUpTo_add (hi : i ≤ s.mount.num_subs) :
    s.sizesUpTo s.mount.num_subs = s.sizesUpTo i + s.behind s.mount.getSize i :=
  (Finset.sum_Ioc_consecutive _ (Nat.zero_le i) hi).symm

private theorem removable_subset (h : s.Totals) {j : Nat} (hj : j ∈ s.Removable s.mount.zones s.minFree.toNat) :
    j ∈ s.Removable s.occupied s.minFree.toInt := by
  refine ⟨hj.1, fun x hx hxj => ?_⟩
  exact ((hj.2 x hx hxj).signed h (by omega)).mono s.occupied_le

/-- fssk removes all it can, and reports it, exactly for plain mounts. -/
theorem removesAll_iff (s : Space) (h : s.Totals) : s.RemovesAll ↔ s.Plain := by
  obtain ⟨k, hk, hgreatest⟩ := calculate_eq Arithmetic.machine_right h fun j _ _ => dropped_wrapping rfl s j
  have hle := hgreatest.1.1
  have hadd := sizesUpTo_add (s := s) (Nat.sub_le s.mount.num_subs k)
  have hstat := fsskSimGetStat_eq hk hle h.subs
  constructor
  · rintro ⟨k', hk', hall, hsim⟩
    obtain rfl : k = k' := Option.some.inj (hk.symm.trans hk')
    refine ⟨fun j hj hmem => hgreatest.1.2 j hj (hall.2 hmem), fun j hj => ?_⟩
    obtain rfl := hj.unique hall
    rw [hstat] at hsim
    by_cases hzero : j = 0
    · exact .inl hzero
    · rw [if_neg hzero] at hsim
      have hmod : s.sizesUpTo s.mount.num_subs % 2 ^ 32 =
          s.behind s.mount.getSize (s.mount.num_subs - j) % 2 ^ 32 := Option.some.inj hsim
      right
      omega
  · intro hplain
    have hall : IsGreatest (s.Removable s.occupied s.minFree.toInt) k := by
      refine ⟨removable_subset h hgreatest.1, fun j hj => hgreatest.2 ⟨hj.1, fun x hx hxj => ?_⟩⟩
      exact hplain.whole x hx ⟨hxj.trans hj.1, fun y hy hyx => hj.2 y hy (hyx.trans hxj)⟩
    refine ⟨k, hk, hall, ?_⟩
    rw [hstat]
    rcases hplain.sizes k hall with rfl | hdvd
    · rw [if_pos rfl, Nat.sub_zero, behind_self]
      rfl
    · congr 1
      split
      · rename_i hzero
        subst hzero
        rw [Nat.sub_zero, behind_self]
        rfl
      · change s.sizesUpTo s.mount.num_subs % 2 ^ 32 =
          s.behind s.mount.getSize (s.mount.num_subs - k) % 2 ^ 32
        omega

/-- A mount with partitions of 128 MB, zones of 8 KB and so many free zones in each partition. -/
def ofFree (num_subs : Nat) (free_zone : Nat → Nat) : Space where
  mount :=
    { getSize := fun _ => 0x40000
      sector_scale := 4
      inode_scale := 3
      pfsBlockSize := 1
      num_subs := num_subs
      free_zone := free_zone
      zfree := ∑ x ∈ Finset.range (num_subs + 1), free_zone x
      bits := fun _ _ _ _ => false }
  total_zones := ∑ _x ∈ Finset.range (num_subs + 1), 16384
  minFree := 4

theorem ofFree_zones (n i : Nat) (f : Nat → Nat) : (ofFree n f).mount.zones i = 16384 := by
  change 0x40000 / 2 ^ 4 = 16384
  decide

theorem ofFree_totals {n : Nat} (hn : n < 64) (hfree : ∀ i, f i ≤ 16384) : (ofFree n f).Totals where
  zfree := rfl
  total_zones := by
    rw [zonesUpTo, Finset.sum_congr rfl fun x _ => ofFree_zones n x f]
    rfl
  free_le := fun i _ => (hfree i).trans (ofFree_zones n i f).ge
  main := by
    rw [ofFree_zones]
    decide
  subs := by
    change n < 2 ^ 32
    omega
  range := by
    change ∑ _x ∈ Finset.range (n + 1), 16384 < 2 ^ 32
    rw [Finset.sum_const, Finset.card_range, Nat.nsmul_eq_mul]
    omega

/-- A main partition of 256 MB that is almost empty, and a sub-partition of 128 MB that is half full. -/
def roomy : Space where
  mount :=
    { (ofFree 1 fun i => if i = 0 then 30000 else 8192).mount with
      getSize := fun i => if i = 0 then 0x80000 else 0x40000 }
  total_zones := 32768 + 16384
  minFree := 4

private theorem roomy_totals : roomy.Totals where
  zfree := rfl
  total_zones := by decide +kernel
  free_le := by decide +kernel
  main := by decide +kernel
  subs := by decide
  range := by decide

/-- The sub-partition is removed, and the size told is its own. -/
theorem removesAll_iff_roomy : roomy.RemovesAll := by
  refine (removesAll_iff roomy roomy_totals).mpr ⟨fun j hj hmem => ?_, fun k hk => ?_⟩
  · obtain rfl : j = 1 := le_antisymm hmem.1 hj
    decide +kernel
  · have hle : k ≤ 1 := hk.1.1
    have hone : 1 ∈ roomy.Removable roomy.occupied roomy.minFree.toInt := by
      refine ⟨le_rfl, fun j hj hle => ?_⟩
      obtain rfl : j = 1 := le_antisymm hle hj
      decide +kernel
    obtain rfl : k = 1 := le_antisymm hle (hk.2 hone)
    exact .inr (by decide +kernel)

theorem fsskCalculateSpaceToRemove_safe_half :
    ∃ k, (ofFree 2 fun _ => 15000).fsskCalculateSpaceToRemove = some k ∧
      (ofFree 2 fun _ => 15000).calculate .kept = some k ∧ k ≤ 2 ∧
        (ofFree 2 fun _ => 15000).behind (ofFree 2 fun _ => 15000).usedZones (2 - k) ≤
          (ofFree 2 fun _ => 15000).freeUpTo (2 - k) := by
  obtain ⟨k, hk, hkept, hle, hfits, -⟩ := fsskCalculateSpaceToRemove_safe (ofFree 2 fun _ => 15000)
    (ofFree_totals (by decide) fun _ => by decide)
  exact ⟨k, hk, hkept, hle, hfits⟩

/-- A sub-partition all of whose zones are free, as far as the counter says: its metadata is subtracted from nothing. -/
theorem fsskCalculateSpaceToRemove_wraps :
    (ofFree 1 fun _ => 16384).Totals ∧ (ofFree 1 fun _ => 16384).calculate .checked = none :=
  ⟨ofFree_totals (by decide) fun _ => le_rfl, by decide +kernel⟩

/-- A sub-partition without any file is not removed, and of two sub-partitions of which one is to be removed the size of both is told. -/
theorem not_removesAll :
    ((ofFree 1 fun i => if i = 0 then 10000 else 16382).Totals ∧
      ¬ (ofFree 1 fun i => if i = 0 then 10000 else 16382).RemovesAll) ∧
    (ofFree 2 fun i => if i = 1 then 16382 else 2000).Totals ∧
      ¬ (ofFree 2 fun i => if i = 1 then 16382 else 2000).RemovesAll := by
  refine ⟨⟨ofFree_totals (by decide) fun i => by split <;> decide, ?_⟩,
    ofFree_totals (by decide) fun i => by split <;> decide, ?_⟩
  · rintro ⟨k, hk, hall, -⟩
    have hzero : k = 0 := Option.some.inj (hk.symm.trans (by decide +kernel))
    have hone : 1 ≤ k := hall.2 ⟨le_rfl, fun j hj hj' => by
      obtain rfl : j = 1 := by omega
      decide +kernel⟩
    omega
  · rintro ⟨k, hk, -, hsim⟩
    have hone : k = 1 := Option.some.inj (hk.symm.trans (by decide +kernel))
    subst hone
    revert hsim
    decide +kernel

end Space

/-! ### The partition for directories -/

section LastSub

variable {α : Type} (v : Volume α)

/-- The free ratio of a partition, in percent. -/
def freeRatio (sub : Nat) : Nat := v.mount.free_zone sub * 100 / v.mount.zones sub

/-- `fsskCalcLastSub` ends with a partition that stays and has the best free ratio of these. -/
def EndsWithBest : Prop :=
  ∃ result, Runs fsskCalcLastSub v result v ∧ result ≤ v.mount.num_subs - v.partsDeleted ∧
    ∀ sub ≤ v.mount.num_subs - v.partsDeleted, freeRatio v sub ≤ freeRatio v result

variable {v}

/-- `num_subs - (partsDeleted - 1)` -/
def staying (num_subs partsDeleted : Nat) : Nat := u32 (num_subs + 2 ^ 32 - pred32 partsDeleted)

private theorem staying_eq : ∀ n ≤ 64, ∀ d ≤ n, 1 ≤ d → staying n d = n - d + 1 := by
  decide +kernel

theorem subsLeft_eq (hsubs : v.mount.num_subs ≤ 64) (hpos : 1 ≤ v.partsDeleted)
    (hle : v.partsDeleted ≤ v.mount.num_subs) : v.subsLeft = v.mount.num_subs - v.partsDeleted + 1 :=
  staying_eq v.mount.num_subs hsubs v.partsDeleted hle hpos

theorem fsskCalcLastSub_diverges (h : v.subsLeft ≠ 0) : Diverges fsskCalcLastSub v := by
  suffices hfalse : wlp fsskCalcLastSub v fun _ _ => False from fun a s' hrun => hfalse a s' hrun
  refine wlp_loop (fun _ v' => v' = v) ?_ rfl
  rintro ⟨result, sub, MaxFreeRatio⟩ v' rfl
  refine wlp_read_bind.mpr ?_
  simp only [id_eq]
  rw [if_neg h]
  split
  · exact wlp_pure rfl
  · exact wlp_pure rfl

/-- `fsskCalcLastSub` ends for no number of partitions. -/
theorem not_endsWithBest (hsubs : v.mount.num_subs ≤ 64) (hpos : 1 ≤ v.partsDeleted)
    (hle : v.partsDeleted ≤ v.mount.num_subs) : ¬ EndsWithBest v := by
  rintro ⟨result, hrun, -⟩
  have hleft := subsLeft_eq hsubs hpos hle
  exact fsskCalcLastSub_diverges (by omega) _ _ hrun

theorem not_endsWithBest_small : ¬ EndsWithBest (smallVolume 1 fun _ => none) :=
  not_endsWithBest (by decide) (by decide) (by decide)

/-- With a main partition and one to be removed there is only one to choose. -/
theorem fsskCalcLastSub_endless :
    ¬ ∀ v : Volume Nat, Mounted v.mount → 1 ≤ v.partsDeleted → v.partsDeleted ≤ v.mount.num_subs →
      (∀ i ≤ v.mount.num_subs, 0 < v.mount.zones i) → EndsWithBest v := by
  intro h
  obtain ⟨result, hrun, -⟩ := h (smallVolume 1 fun _ => none) mounted_smallMount (by decide) (by decide)
    fun i _ => (zones_smallMount i).symm ▸ by decide
  exact fsskCalcLastSub_diverges (by decide) _ _ hrun

end LastSub

end HddChecker.Fssk
