import Mathlib.Algebra.Order.Ring.Nat
import Mathlib.Logic.Function.Basic
import Mathlib.Tactic.Common

/-!
# The scratch bitmap

fsck rebuilds the allocation bitmap of a filesystem in pages of 2^20 zones. Four pages are in memory, and what does not fit is kept on the `__mbr` partition: page `i` at the 256 sectors from `i << 8` on. A session looks up the zones of the files it finds and, at the end, the words it compares with the bitmap on disk.
-/

namespace HddChecker.Fsck

abbrev NUM_BITMAP_ENTRIES : Nat := 5
abbrev BITMAP_BUFFER_SIZE : Nat := 256

/-- A value as it fits a `u32`. -/
abbrev u32 (n : Nat) : Nat := n % 2 ^ 32

inductive IoMode where
  | READ
  | WRITE
  deriving DecidableEq, Repr

/-- `pfs_bitmap_t`. An entry is linked to others by their numbers; a page is given by its words, and a word by its bits. -/
structure pfs_bitmap_t where
  next : Nat
  prev : Nat
  isDirty : Bool
  nused : Nat
  index : Nat
  bitmap : Nat → Nat → Bool

/-- `hddIoctl2Transfer_t`, but for the buffer. -/
structure hddIoctl2Transfer_t where
  sub : Nat
  sector : Nat
  size : Nat
  mode : IoMode
  deriving DecidableEq, Repr

/-- The entries of the cache, the words on `__mbr`, and the transfers there were. -/
structure Scratch where
  pfsBitmapData : Nat → pfs_bitmap_t
  /-- the page at a sector of `__mbr` -/
  mbr : Nat → Nat → Nat → Bool
  /-- the n-th transfer fails, and leaves these words where it was to put its own -/
  failure : Nat → Option (Nat → Nat → Bool)
  transfers : List hddIoctl2Transfer_t

namespace Scratch

def modify (i : Nat) (f : pfs_bitmap_t → pfs_bitmap_t) (s : Scratch) : Scratch :=
  { s with pfsBitmapData := Function.update s.pfsBitmapData i (f (s.pfsBitmapData i)) }

def pfsCacheLink (clink cnew : Nat) (s : Scratch) : Scratch :=
  let s := s.modify cnew fun e => { e with prev := clink }
  let s := s.modify cnew fun e => { e with next := (s.pfsBitmapData clink).next }
  let s := s.modify (s.pfsBitmapData clink).next fun e => { e with prev := cnew }
  s.modify clink fun e => { e with next := cnew }

def pfsCacheUnLink (clink : Nat) (s : Scratch) : Scratch :=
  let s := s.modify (s.pfsBitmapData clink).prev fun e => { e with next := (s.pfsBitmapData clink).next }
  s.modify (s.pfsBitmapData clink).next fun e => { e with prev := (s.pfsBitmapData clink).prev }

/-- `pfsBitmapTransfer`: whether the transfer succeeded. -/
def pfsBitmapTransfer (i : Nat) (mode : IoMode) (s : Scratch) : Bool × Scratch :=
  let xferParams := ⟨0, u32 ((s.pfsBitmapData i).index * 2 ^ 8), BITMAP_BUFFER_SIZE, mode⟩
  let failure := s.failure s.transfers.length
  let words := match failure, mode with
    | some junk, _ => junk
    | none, .READ => s.mbr xferParams.sector
    | none, .WRITE => (s.pfsBitmapData i).bitmap
  let s := { s with transfers := s.transfers ++ [xferParams] }
  let s := match mode with
    | .READ => s.modify i fun e => { e with bitmap := words }
    | .WRITE => { s with mbr := Function.update s.mbr xferParams.sector words }
  match failure with
  | some _ => (false, s)
  | none => (true, s.modify i fun e => { e with isDirty := false })

/-- `pfsBitmapRead`: the entry that holds the page. -/
def pfsBitmapRead (index : Nat) (s : Scratch) : Option Nat × Scratch :=
  match (List.range' 1 (NUM_BITMAP_ENTRIES - 1)).find? fun i => (s.pfsBitmapData i).index = index with
  | some pBitmap =>
    let s := if (s.pfsBitmapData pBitmap).nused = 0 then s.pfsCacheUnLink pBitmap else s
    (some pBitmap, s.modify pBitmap fun e => { e with nused := (e.nused + 1) % 2 ^ 16 })
  | none =>
    let pBitmap := (s.pfsBitmapData 0).next
    let (written, s) :=
      if (s.pfsBitmapData pBitmap).isDirty then s.pfsBitmapTransfer pBitmap .WRITE else (true, s)
    if written then
      let s := s.modify pBitmap fun e => { e with index := index, isDirty := false, nused := 1 }
      let (read, s) := s.pfsBitmapTransfer pBitmap .READ
      if read then (some pBitmap, s.pfsCacheUnLink pBitmap) else (none, s)
    else (none, s)

def pfsBitmapFree (bitmap : Nat) (s : Scratch) : Scratch :=
  if (s.pfsBitmapData bitmap).nused = 0 then s
  else
    let s := s.modify bitmap fun e => { e with nused := e.nused - 1 }
    if (s.pfsBitmapData bitmap).nused = 0 then s.pfsCacheLink (s.pfsBitmapData 0).prev bitmap else s

/-- `pfsGetBitmapEntry`: the word for the zone, given by its bits. -/
def pfsGetBitmapEntry (index : Nat) (s : Scratch) : Option (Nat → Bool) × Scratch :=
  match s.pfsBitmapRead (index / 2 ^ 20) with
  | (some bitmap, s) =>
    let s := s.pfsBitmapFree bitmap
    (some ((s.pfsBitmapData bitmap).bitmap (index / 2 ^ 5 % 2 ^ 15)), s)
  | (none, s) => (none, s)

/-- `pfsBitmapInit`, over what is on `__mbr` and fails. -/
def pfsBitmapInit (mbr : Nat → Nat → Nat → Bool) (failure : Nat → Option (Nat → Nat → Bool)) :
    Scratch :=
  (List.range' 1 (NUM_BITMAP_ENTRIES - 1)).foldl
    (fun s i => s.pfsCacheLink (s.pfsBitmapData 0).prev i)
    ⟨fun _ => ⟨0, 0, false, 0, 0, fun _ _ => false⟩, mbr, failure, []⟩

/-- How many pages a filesystem of this size takes. -/
def bitmapCount (size : Nat) : Nat := size / 2 ^ 20 + if 0 < size / 2 ^ 3 % 2 ^ 17 then 1 else 0

/-- The first loop of `pfsBitmapPartInit` -/
def clear (s : Scratch) : Scratch :=
  (List.range' 1 (NUM_BITMAP_ENTRIES - 1)).foldl (fun s i => s.modify i fun e =>
    { e with isDirty := false, nused := 0, index := i - 1, bitmap := fun _ _ => false }) s

/-- The transfers of `pfsBitmapPartInit`, until one fails: each writes an entry after its index was set. -/
def writePages : List (Nat × Option Nat) → Scratch → Bool × Scratch
  | [], s => (true, s)
  | (i, index) :: rest, s =>
    let s := match index with
      | none => s
      | some index => s.modify i fun e => { e with index := index }
    match s.pfsBitmapTransfer i .WRITE with
    | (true, s) => writePages rest s
    | (false, s) => (false, s)

def pfsBitmapPartInit (size : Nat) (s : Scratch) : Bool × Scratch :=
  let s := s.clear
  if NUM_BITMAP_ENTRIES ≤ bitmapCount size then
    writePages ((List.range' 1 (NUM_BITMAP_ENTRIES - 1)).map (fun i => (i, none)) ++
      (List.range' (NUM_BITMAP_ENTRIES - 1) (bitmapCount size - (NUM_BITMAP_ENTRIES - 1))).map
        fun i => (NUM_BITMAP_ENTRIES - 1, some i)) s
  else (true, s)

end Scratch

/-- How a loop over bits ends: a bit was set already, or so many are still to come. -/
inductive Marking where
  | overlapped
  | next (remaining : Nat)
  deriving DecidableEq, Repr

/-- The bits of a word from `bit` on, `left` of them. -/
def markWord (pBitmap zone : Nat) : (left bit remaining : Nat) → Scratch → Marking × Scratch
  | 0, _, remaining, s => (.next remaining, s)
  | left + 1, bit, remaining, s =>
    if remaining = 0 then (.next 0, s)
    else if (s.pfsBitmapData pBitmap).bitmap zone bit then (.overlapped, s)
    else markWord pBitmap zone left (bit + 1) (remaining - 1) (s.modify pBitmap fun e =>
      { e with isDirty := true, bitmap := Function.update e.bitmap zone (Function.update (e.bitmap zone) bit true) })

/-- The words of a page from `zone` on, `left` of them. -/
def markPage (pBitmap : Nat) : (left zone startBit remaining : Nat) → Scratch → Marking × Scratch
  | 0, _, _, remaining, s => (.next remaining, s)
  | left + 1, zone, startBit, remaining, s =>
    if remaining = 0 then (.next 0, s)
    else
      match markWord pBitmap zone (32 - startBit) startBit remaining s with
      | (.overlapped, s) => (.overlapped, s)
      | (.next remaining, s) => markPage pBitmap left (zone + 1) 0 remaining s

/-- What is left after a word: nothing, or what the word did not take up. -/
private theorem markWord_next {pBitmap zone left bit remaining n : Nat} {s s' : Scratch}
    (h : markWord pBitmap zone left bit remaining s = (.next n, s')) : n = 0 ∨ n + left = remaining := by
  induction left generalizing bit remaining s with
  | zero =>
    cases h
    exact .inr rfl
  | succ left ih =>
    rw [markWord] at h
    split at h
    · cases h
      exact .inl rfl
    · split at h
      · cases h
      · rcases ih h with hzero | hrest
        · exact .inl hzero
        · right
          omega

/-- What is left after a page: nothing, or what the page did not take up. -/
theorem markPage_next {pBitmap left zone startBit remaining n : Nat} {s s' : Scratch}
    (hbit : startBit < 32) (h : markPage pBitmap left zone startBit remaining s = (.next n, s')) :
    n = 0 ∨ n + (32 * left - startBit) = remaining := by
  induction left generalizing zone startBit remaining s with
  | zero =>
    cases h
    right
    omega
  | succ left ih =>
    rw [markPage] at h
    split at h
    · cases h
      exact .inl rfl
    · split at h
      · cases h
      · rename_i m t hword
        have hm := markWord_next hword
        have hn := ih (by decide) h
        omega

/-- A pass over a page takes up one zone at least. -/
theorem markPage_lt {pBitmap left zone startBit remaining n : Nat} {s s' : Scratch}
    (hbit : startBit < 32) (hremaining : remaining ≠ 0)
    (h : markPage pBitmap (left + 1) zone startBit remaining s = (.next n, s')) : n < remaining := by
  have hn := markPage_next hbit h
  omega

/-- The loop of `fsckCheckZones`: 0 where every zone was free, 1 where one was not, negative where a page was not to be had. -/
def checkZonesLoop (index zone startBit remaining : Nat) (hbit : startBit < 32) (s : Scratch) : Int × Scratch :=
  if hremaining : remaining = 0 then (0, s)
  else
    match s.pfsBitmapRead index with
    | (none, s) => (-5, s)
    | (some pBitmap, s) =>
      match hmark : markPage pBitmap (2 ^ 15 - 1 - zone + 1) zone startBit remaining s with
      | (.overlapped, s) => (1, s)
      | (.next left, s) =>
        have : left < remaining := markPage_lt hbit hremaining hmark
        checkZonesLoop (index + 1) 0 0 left (by decide) (s.pfsBitmapFree pBitmap)
termination_by remaining

def fsckCheckZones (number size : Nat) (s : Scratch) : Int × Scratch :=
  checkZonesLoop (number / 2 ^ 20) (number / 2 ^ 5 % 2 ^ 15) (number % 2 ^ 5) size
    (Nat.mod_lt _ (by decide)) s

/-- What a session looks up: zones that are to be marked, or a word for comparison. -/
inductive Lookup where
  | zones (number size : Nat)
  | entry (index : Nat)
  deriving DecidableEq, Repr

/-- One look into the scratch bitmap. -/
def Scratch.lookup : Lookup → Scratch → Scratch
  | .zones number size, s => (fsckCheckZones number size s).2
  | .entry index, s => (s.pfsGetBitmapEntry index).2

/-- The scratch bitmap over `FsckOpen` and `FsckThread`: it is set up for the size of the filesystem, and what is looked up then is up to the filesystem. -/
def fsckSession (total_zones : Nat) (lookups : List Lookup) (s : Scratch) : Scratch :=
  match s.pfsBitmapPartInit total_zones with
  | (true, s) => lookups.foldl (fun s l => s.lookup l) s
  | (false, s) => s

/-! ### Transfers -/

variable {s s' : Scratch} {lookups : List Lookup} {index number size total_zones : Nat}

/-- The last sector of the journal of the partition table. -/
abbrev lastJournalSector : Nat := 262

/-- No transfer comes near the MBR header, the error records and the journal. -/
def Clear (transfers : List hddIoctl2Transfer_t) : Prop :=
  ∀ t ∈ transfers, ∀ i < t.size, lastJournalSector < t.sector + i

/-- The lookup stays within the first four pages. -/
def Lookup.Within : Lookup → Prop
  | .zones number size => number + size ≤ 2 ^ 22
  | .entry index => index < 2 ^ 22

/-- The four entries hold the first four pages, and there has been no transfer. -/
structure Resident (s : Scratch) : Prop where
  index : ∀ i, 1 ≤ i → i < NUM_BITMAP_ENTRIES → (s.pfsBitmapData i).index = i - 1
  transfers : s.transfers = []

theorem Resident.modify (h : Resident s) (i : Nat) {f : pfs_bitmap_t → pfs_bitmap_t}
    (hf : (f (s.pfsBitmapData i)).index = (s.pfsBitmapData i).index) : Resident (s.modify i f) := by
  refine ⟨fun j hj hlt => ?_, h.transfers⟩
  by_cases heq : j = i
  · subst heq
    simp only [Scratch.modify, Function.update_self, hf]
    exact h.index j hj hlt
  · simp only [Scratch.modify, Function.update_of_ne heq]
    exact h.index j hj hlt

theorem Resident.pfsCacheUnLink (h : Resident s) (i : Nat) : Resident (s.pfsCacheUnLink i) := by
  unfold Scratch.pfsCacheUnLink
  refine Resident.modify ?_ _ rfl
  exact h.modify _ rfl

theorem Resident.pfsCacheLink (h : Resident s) (i j : Nat) : Resident (s.pfsCacheLink i j) := by
  unfold Scratch.pfsCacheLink
  refine Resident.modify ?_ _ rfl
  refine Resident.modify ?_ _ rfl
  refine Resident.modify ?_ _ rfl
  exact h.modify _ rfl

/-- A page among the first four is always found. -/
theorem Resident.pfsBitmapRead (h : Resident s) (index : Nat) (hindex : index < 4) :
    ∃ i s', s.pfsBitmapRead index = (some i, s') ∧ Resident s' := by
  have hfind : (List.range' 1 (NUM_BITMAP_ENTRIES - 1)).find?
      (fun i => (s.pfsBitmapData i).index = index) = some (index + 1) := by
    have h1 := h.index 1 (by decide) (by decide)
    have h2 := h.index 2 (by decide) (by decide)
    have h3 := h.index 3 (by decide) (by decide)
    have h4 := h.index 4 (by decide) (by decide)
    have hcases : index = 0 ∨ index = 1 ∨ index = 2 ∨ index = 3 := by omega
    rcases hcases with rfl | rfl | rfl | rfl <;> simp [List.range', h1, h2, h3, h4]
  unfold Scratch.pfsBitmapRead
  rw [hfind]
  refine ⟨_, _, rfl, ?_⟩
  apply Resident.modify _ _ rfl
  split
  · exact h.pfsCacheUnLink _
  · exact h

theorem Resident.pfsBitmapFree (h : Resident s) (i : Nat) : Resident (s.pfsBitmapFree i) := by
  unfold Scratch.pfsBitmapFree
  split
  · exact h
  · simp only
    split
    · exact (h.modify i rfl).pfsCacheLink _ _
    · exact h.modify i rfl

theorem Resident.pfsGetBitmapEntry (h : Resident s) (hindex : index < 2 ^ 22) :
    Resident (s.pfsGetBitmapEntry index).2 := by
  obtain ⟨i, s', hread, hs'⟩ := h.pfsBitmapRead (index / 2 ^ 20) (by omega)
  unfold Scratch.pfsGetBitmapEntry
  rw [hread]
  exact hs'.pfsBitmapFree i

theorem Resident.markWord (h : Resident s) (pBitmap zone left bit remaining : Nat) :
    Resident (markWord pBitmap zone left bit remaining s).2 := by
  induction left generalizing bit remaining s with
  | zero => exact h
  | succ left ih =>
    rw [Fsck.markWord]
    split
    · exact h
    · split
      · exact h
      · exact ih (h.modify pBitmap rfl) _ _

theorem Resident.markPage (h : Resident s) (pBitmap left zone startBit remaining : Nat) :
    Resident (markPage pBitmap left zone startBit remaining s).2 := by
  induction left generalizing zone startBit remaining s with
  | zero => exact h
  | succ left ih =>
    rw [Fsck.markPage]
    split
    · exact h
    · have hword := h.markWord pBitmap zone (32 - startBit) startBit remaining
      split
      · rename_i t heq
        rw [heq] at hword
        exact hword
      · rename_i m t heq
        rw [heq] at hword
        exact ih hword _ _ _

theorem Resident.checkZonesLoop {zone startBit remaining : Nat} (hbit : startBit < 32)
    (h : Resident s) (hzone : zone < 2 ^ 15)
    (hwithin : index * 2 ^ 20 + zone * 2 ^ 5 + startBit + remaining ≤ 2 ^ 22) :
    Resident (checkZonesLoop index zone startBit remaining hbit s).2 := by
  induction remaining using Nat.strongRecOn generalizing index zone startBit s with
  | ind remaining ih =>
    rw [Fsck.checkZonesLoop]
    split
    · exact h
    · rename_i hremaining
      obtain ⟨i, t, hread, ht⟩ := h.pfsBitmapRead index (by omega)
      rw [hread]
      simp only
      have hpage := ht.markPage i (2 ^ 15 - 1 - zone + 1) zone startBit remaining
      split
      · rename_i t' heq
        rw [heq] at hpage
        exact hpage
      · rename_i n t' heq
        rw [heq] at hpage
        have hlt := markPage_lt hbit hremaining heq
        have hnext := markPage_next hbit heq
        refine ih n hlt _ (hpage.pfsBitmapFree i) (by decide) ?_
        -- the page was taken up to its end, or there is nothing left
        have hwords : 2 ^ 15 - 1 - zone + 1 = 2 ^ 15 - zone := by omega
        rw [hwords] at hnext
        rw [Nat.zero_mul, Nat.add_zero, Nat.add_zero]
        omega

theorem Resident.lookup {l : Lookup} (h : Resident s) (hl : l.Within) : Resident (s.lookup l) := by
  cases l with
  | zones number size =>
    have hwithin : number + size ≤ 2 ^ 22 := hl
    exact h.checkZonesLoop _ (Nat.mod_lt _ (by decide)) (by omega)
  | entry index => exact h.pfsGetBitmapEntry hl

theorem Resident.foldl_lookup (h : Resident s) (hl : ∀ l ∈ lookups, l.Within) :
    Resident (lookups.foldl (fun s l => s.lookup l) s) := by
  induction lookups generalizing s with
  | nil => exact h
  | cons l lookups ih =>
    exact ih (h.lookup (hl l List.mem_cons_self)) fun l' hl' => hl l' (List.mem_cons_of_mem _ hl')

private theorem resident_clear (h : s.transfers = []) : Resident s.clear := by
  refine ⟨fun i hi hlt => ?_, h⟩
  have hlt' : i < 5 := hlt
  have hcases : i = 1 ∨ i = 2 ∨ i = 3 ∨ i = 4 := by omega
  rcases hcases with rfl | rfl | rfl | rfl <;> rfl

theorem bitmapCount_lt : Scratch.bitmapCount size < NUM_BITMAP_ENTRIES ↔ size < 2 ^ 22 + 8 := by
  unfold Scratch.bitmapCount NUM_BITMAP_ENTRIES
  split <;> omega

/-! ### The log only grows -/

namespace Scratch

variable {i : Nat} {mode : IoMode} {pages : List (Nat × Option Nat)}

theorem pfsBitmapTransfer_transfers : (s.pfsBitmapTransfer i mode).2.transfers =
    s.transfers ++ [⟨0, u32 ((s.pfsBitmapData i).index * 2 ^ 8), BITMAP_BUFFER_SIZE, mode⟩] := by
  unfold pfsBitmapTransfer
  simp only
  cases mode <;> split <;> rfl

theorem pfsBitmapTransfer_subset : s.transfers ⊆ (s.pfsBitmapTransfer i mode).2.transfers := by
  rw [pfsBitmapTransfer_transfers]
  exact List.subset_append_left _ _

theorem pfsBitmapRead_subset (s : Scratch) (index : Nat) : s.transfers ⊆ (s.pfsBitmapRead index).2.transfers := by
  unfold pfsBitmapRead
  split
  · simp only
    split
    · exact List.Subset.refl _
    · exact List.Subset.refl _
  · simp only
    have hwrite : s.transfers ⊆ (if (s.pfsBitmapData (s.pfsBitmapData 0).next).isDirty then
        s.pfsBitmapTransfer (s.pfsBitmapData 0).next .WRITE else (true, s)).2.transfers := by
      split
      · exact pfsBitmapTransfer_subset
      · exact List.Subset.refl _
    generalize (if (s.pfsBitmapData (s.pfsBitmapData 0).next).isDirty then
        s.pfsBitmapTransfer (s.pfsBitmapData 0).next .WRITE else (true, s)) = w at hwrite ⊢
    obtain ⟨written, t⟩ := w
    cases written with
    | false => exact hwrite
    | true =>
      have hread : t.transfers ⊆ ((t.modify (s.pfsBitmapData 0).next fun e =>
          { e with index := index, isDirty := false, nused := 1 }).pfsBitmapTransfer
            (s.pfsBitmapData 0).next .READ).2.transfers :=
        pfsBitmapTransfer_subset (s := t.modify (s.pfsBitmapData 0).next _)
      simp only [if_true]
      split
      · exact List.Subset.trans hwrite hread
      · exact List.Subset.trans hwrite hread

theorem pfsBitmapFree_transfers : (s.pfsBitmapFree i).transfers = s.transfers := by
  unfold pfsBitmapFree
  split
  · rfl
  · simp only
    split <;> rfl

private theorem markWord_transfers (s : Scratch) (i zone left bit remaining : Nat) :
    (markWord i zone left bit remaining s).2.transfers = s.transfers := by
  induction left generalizing bit remaining s with
  | zero => rfl
  | succ left ih =>
    rw [markWord]
    split
    · rfl
    · split
      · rfl
      · exact ih _ _ _

private theorem markPage_transfers (s : Scratch) (i left zone startBit remaining : Nat) :
    (markPage i left zone startBit remaining s).2.transfers = s.transfers := by
  induction left generalizing zone startBit remaining s with
  | zero => rfl
  | succ left ih =>
    rw [markPage]
    split
    · rfl
    · have hword := markWord_transfers s i zone (32 - startBit) startBit remaining
      split
      · rename_i t heq
        rwa [heq] at hword
      · rename_i m t heq
        rw [heq] at hword
        exact (ih _ _ _ _).trans hword

private theorem checkZonesLoop_subset {zone startBit remaining : Nat} {hbit : startBit < 32} :
    s.transfers ⊆ (checkZonesLoop index zone startBit remaining hbit s).2.transfers := by
  induction remaining using Nat.strongRecOn generalizing index zone startBit s with
  | ind remaining ih =>
    rw [checkZonesLoop]
    split
    · exact List.Subset.refl _
    · rename_i hremaining
      have hread := pfsBitmapRead_subset s index
      split
      · rename_i t heq
        rwa [heq] at hread
      · rename_i pBitmap t heq
        rw [heq] at hread
        have hpage := markPage_transfers t pBitmap (2 ^ 15 - 1 - zone + 1) zone startBit remaining
        split
        · rename_i t' heq'
          rw [heq'] at hpage
          rw [hpage]
          exact hread
        · rename_i n t' heq'
          rw [heq'] at hpage
          have hrest : (t'.pfsBitmapFree pBitmap).transfers ⊆
              (checkZonesLoop (index + 1) 0 0 n (by decide) (t'.pfsBitmapFree pBitmap)).2.transfers :=
            ih n (markPage_lt hbit hremaining heq')
          rw [pfsBitmapFree_transfers, hpage] at hrest
          exact List.Subset.trans hread hrest

private theorem lookup_subset {l : Lookup} : s.transfers ⊆ (s.lookup l).transfers := by
  cases l with
  | zones number size => exact checkZonesLoop_subset
  | entry index =>
    have hread := pfsBitmapRead_subset s (index / 2 ^ 20)
    simp only [lookup]
    unfold pfsGetBitmapEntry
    split
    · rename_i bitmap t heq
      rw [heq] at hread
      simp only [pfsBitmapFree_transfers]
      exact hread
    · rename_i t heq
      rwa [heq] at hread

private theorem foldl_lookup_subset :
    s.transfers ⊆ (lookups.foldl (fun s l => s.lookup l) s).transfers := by
  induction lookups generalizing s with
  | nil => exact List.Subset.refl _
  | cons l lookups ih => exact List.Subset.trans lookup_subset ih

private theorem writePages_subset : s.transfers ⊆ (s.writePages pages).2.transfers := by
  induction pages generalizing s with
  | nil => exact List.Subset.refl _
  | cons page pages ih =>
    obtain ⟨i, index⟩ := page
    unfold writePages
    simp only
    have hwrite : s.transfers ⊆ ((match index with
        | none => s
        | some index => s.modify i fun e => { e with index := index }).pfsBitmapTransfer i
          .WRITE).2.transfers := by
      cases index with
      | none => exact pfsBitmapTransfer_subset
      | some index => exact pfsBitmapTransfer_subset (s := s.modify i _)
    split
    · rename_i t heq
      rw [heq] at hwrite
      exact List.Subset.trans hwrite ih
    · rename_i t heq
      rwa [heq] at hwrite

private theorem writePages_head (hindex : (s.pfsBitmapData i).index = 0) :
    ⟨0, 0, BITMAP_BUFFER_SIZE, .WRITE⟩ ∈ (s.writePages ((i, none) :: pages)).2.transfers := by
  have hwrite : ⟨0, 0, BITMAP_BUFFER_SIZE, .WRITE⟩ ∈ (s.pfsBitmapTransfer i .WRITE).2.transfers := by
    rw [pfsBitmapTransfer_transfers, hindex]
    exact List.mem_append_right _ List.mem_cons_self
  unfold writePages
  simp only
  split
  · rename_i t heq
    rw [heq] at hwrite
    exact writePages_subset hwrite
  · rename_i t heq
    rwa [heq] at hwrite

end Scratch

/-! ### Which filesystems keep clear of the journal -/

private theorem fsckSession_first (s : Scratch) (lookups : List Lookup)
    (hcount : NUM_BITMAP_ENTRIES ≤ Scratch.bitmapCount total_zones) :
    ⟨0, 0, BITMAP_BUFFER_SIZE, .WRITE⟩ ∈ (fsckSession total_zones lookups s).transfers := by
  have hpart : ⟨0, 0, BITMAP_BUFFER_SIZE, .WRITE⟩ ∈ (s.pfsBitmapPartInit total_zones).2.transfers := by
    simp only [Scratch.pfsBitmapPartInit, if_pos hcount]
    exact Scratch.writePages_head (s := s.clear) rfl
  unfold fsckSession
  split
  · rename_i t heq
    rw [heq] at hpart
    exact Scratch.foldl_lookup_subset hpart
  · rename_i t heq
    rwa [heq] at hpart

private theorem fsckSession_quiet (hs : s.transfers = []) (hcount : total_zones < 2 ^ 22 + 8)
    (hl : ∀ l ∈ lookups, l.Within) : (fsckSession total_zones lookups s).transfers = [] := by
  have hpart : s.pfsBitmapPartInit total_zones = (true, s.clear) := by
    simp only [Scratch.pfsBitmapPartInit, if_neg (Nat.not_le.mpr (bitmapCount_lt.mpr hcount))]
  unfold fsckSession
  rw [hpart]
  exact ((resident_clear hs).foldl_lookup hl).transfers

/-- The scratch bitmap of a session whose lookups stay within four pages keeps clear of the MBR header, the error records and the journal exactly for the filesystems that need no more than four pages. -/
theorem fsckSession_clear (total_zones : Nat) (lookups : List Lookup) (data : Nat → pfs_bitmap_t)
    (mbr : Nat → Nat → Nat → Bool) (failure : Nat → Option (Nat → Nat → Bool))
    (hl : ∀ l ∈ lookups, l.Within) :
    Clear (fsckSession total_zones lookups ⟨data, mbr, failure, []⟩).transfers ↔ total_zones < 2 ^ 22 + 8 := by
  constructor
  · intro hclear
    rw [← bitmapCount_lt]
    by_contra hcount
    have hmem := fsckSession_first ⟨data, mbr, failure, []⟩ lookups (Nat.le_of_not_lt hcount)
    have hfar := hclear _ hmem 0 (by decide)
    exact absurd hfar (by decide)
  · intro hcount
    rw [fsckSession_quiet rfl hcount hl]
    simp [Clear]

/-- A filesystem of 128 MB whose first zones and last word are looked up. -/
theorem fsckSession_clear_small :
    Clear (fsckSession (2 ^ 16) [.zones 0 10, .zones 8194 3, .entry 65535]
      ⟨fun _ => ⟨0, 0, false, 0, 0, fun _ _ => false⟩, fun _ _ _ => false, fun _ => none, []⟩).transfers :=
  (fsckSession_clear (2 ^ 16) _ _ _ _ (by simp [Lookup.Within])).mpr (by decide)

/-- A filesystem with one partition's worth of zones too many: all of the first page, the MBR header with it, is written. -/
theorem fsckSession_large :
    (fsckSession (2 ^ 22 + 2 ^ 16) []
      (Scratch.pfsBitmapInit (fun _ _ _ => false) fun _ => none)).transfers.head? =
        some ⟨0, 0, 256, .WRITE⟩ ∧
    ¬ Clear (fsckSession (2 ^ 22 + 2 ^ 16) []
      (Scratch.pfsBitmapInit (fun _ _ _ => false) fun _ => none)).transfers := by
  have hfirst : (fsckSession (2 ^ 22 + 2 ^ 16) []
      (Scratch.pfsBitmapInit (fun _ _ _ => false) fun _ => none)).transfers.head? =
        some ⟨0, 0, 256, .WRITE⟩ := by decide +kernel
  refine ⟨hfirst, fun hclear => ?_⟩
  have hfar := hclear _ (List.mem_of_head? hfirst) 0 (by decide)
  exact absurd hfar (by decide)

end HddChecker.Fsck
