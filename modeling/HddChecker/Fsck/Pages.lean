import HddChecker.Fsck.Bitmap
import HddChecker.Lib.FreeRing
import Mathlib.Data.List.Find

/-!
# The pages of the scratch bitmap

The four entries of the cache and the pages on `__mbr` are one array of pages: an entry shows the page it holds, and what no entry holds is on `__mbr`. A sound cache keeps its entries on the ring exactly while nobody uses them, holds each page once and knows which of its entries are newer than `__mbr`.
-/

namespace HddChecker.Fsck

abbrev Page : Type := Nat → Nat → Bool

namespace Scratch

def sector (index : Nat) : Nat := u32 (index * 2 ^ 8)

def Entry (i : Nat) : Prop := 1 ≤ i ∧ i < NUM_BITMAP_ENTRIES

instance : DecidablePred Entry := fun i => inferInstanceAs (Decidable (1 ≤ i ∧ i < NUM_BITMAP_ENTRIES))

/-- The page as the cache shows it: the entry that holds it, or what is on `__mbr`. -/
def page (s : Scratch) (index : Nat) : Page :=
  match (List.range' 1 (NUM_BITMAP_ENTRIES - 1)).find? fun i => (s.pfsBitmapData i).index = index with
  | some i => (s.pfsBitmapData i).bitmap
  | none => s.mbr (sector index)

/-- The entries `l` are the ring, in the order they are used up. -/
def Ring (s : Scratch) (l : List Nat) : Prop :=
  FreeRing (fun i => (s.pfsBitmapData i).next) (fun i => (s.pfsBitmapData i).prev) 0 l

/-- Each entry is on the ring exactly while nobody uses it. -/
structure Balanced (s : Scratch) (l : List Nat) : Prop where
  ring : s.Ring l
  mem : ∀ i, i ∈ l ↔ Entry i ∧ (s.pfsBitmapData i).nused = 0

/-- A balanced cache that holds each page at most once. -/
structure Sound (s : Scratch) (l : List Nat) : Prop extends Balanced s l where
  small : ∀ i, Entry i → (s.pfsBitmapData i).index < 2 ^ 24
  distinct : ∀ i j, Entry i → Entry j → (s.pfsBitmapData i).index = (s.pfsBitmapData j).index → i = j

/-- What is not dirty is on `__mbr`. -/
def Backed (s : Scratch) : Prop := ∀ i, Entry i → (s.pfsBitmapData i).isDirty = false →
  (s.pfsBitmapData i).bitmap = s.mbr (sector (s.pfsBitmapData i).index)

def Holds (s : Scratch) (index : Nat) : Prop := ∃ i, Entry i ∧ (s.pfsBitmapData i).index = index

/-! ### Entries -/

variable {s t : Scratch} {l : List Nat} {i j index : Nat}

theorem sector_injective {a b : Nat} (ha : a < 2 ^ 24) (hb : b < 2 ^ 24) (h : sector a = sector b) : a = b := by
  simp only [sector, u32] at h
  omega

theorem mem_range : i ∈ List.range' 1 (NUM_BITMAP_ENTRIES - 1) ↔ Entry i := by
  rw [List.mem_range'_1]
  exact Iff.rfl

theorem Entry.ne_zero (h : Entry i) : i ≠ 0 := fun heq => absurd h.1 (by omega)

/-- The search for a page finds the entry that holds it. -/
theorem Sound.find (h : Sound s l) (hi : Entry i) (hindex : (s.pfsBitmapData i).index = index) :
    (List.range' 1 (NUM_BITMAP_ENTRIES - 1)).find? (fun i => (s.pfsBitmapData i).index = index) = some i := by
  cases hfind : (List.range' 1 (NUM_BITMAP_ENTRIES - 1)).find?
      (fun i => (s.pfsBitmapData i).index = index) with
  | none =>
    have hnone := List.find?_eq_none.mp hfind i (mem_range.mpr hi)
    simp [hindex] at hnone
  | some j =>
    have hj : (s.pfsBitmapData j).index = index := by
      simpa using List.find?_some hfind
    rw [h.distinct i j hi (mem_range.mp (List.mem_of_find?_eq_some hfind)) (hindex.trans hj.symm)]

theorem find_none (h : ¬ s.Holds index) :
    (List.range' 1 (NUM_BITMAP_ENTRIES - 1)).find? (fun i => (s.pfsBitmapData i).index = index) = none := by
  apply List.find?_eq_none.mpr
  intro i hi hindex
  exact h ⟨i, mem_range.mp hi, of_decide_eq_true hindex⟩

theorem Sound.page_held (h : Sound s l) (hi : Entry i) : s.page (s.pfsBitmapData i).index = (s.pfsBitmapData i).bitmap := by
  unfold page
  rw [h.find hi rfl]

theorem page_not_held (h : ¬ s.Holds index) : s.page index = s.mbr (sector index) := by
  unfold page
  rw [find_none h]

/-- Two states that hold the same pages in their entries and on `__mbr` show the same. -/
theorem page_congr (hdata : ∀ i, Entry i → (t.pfsBitmapData i).index = (s.pfsBitmapData i).index ∧
    (t.pfsBitmapData i).bitmap = (s.pfsBitmapData i).bitmap) (hmbr : t.mbr = s.mbr) (index : Nat) :
    t.page index = s.page index := by
  have hfind : (List.range' 1 (NUM_BITMAP_ENTRIES - 1)).find? (fun i => (t.pfsBitmapData i).index = index) =
      (List.range' 1 (NUM_BITMAP_ENTRIES - 1)).find? (fun i => (s.pfsBitmapData i).index = index) := by
    apply List.find?_congr
    intro i hi
    simp only [(hdata i (mem_range.mp hi)).1]
  unfold page
  rw [hfind, hmbr]
  split
  · rename_i i heq
    exact (hdata i (mem_range.mp (List.mem_of_find?_eq_some heq))).2
  · rfl

/-! ### The ring -/

theorem modify_data (s : Scratch) (i j : Nat) (f : pfs_bitmap_t → pfs_bitmap_t) :
    (s.modify i f).pfsBitmapData j = if j = i then f (s.pfsBitmapData i) else s.pfsBitmapData j := by
  simp only [modify, Function.update_apply]

theorem modify_next (s : Scratch) (i j n : Nat) : (s.modify i fun e => { e with next := n }).pfsBitmapData j =
    { s.pfsBitmapData j with next := if j = i then n else (s.pfsBitmapData j).next } := by
  rw [modify_data]
  split
  · rename_i hj
    rw [hj]
  · rfl

theorem modify_prev (s : Scratch) (i j p : Nat) : (s.modify i fun e => { e with prev := p }).pfsBitmapData j =
    { s.pfsBitmapData j with prev := if j = i then p else (s.pfsBitmapData j).prev } := by
  rw [modify_data]
  split
  · rename_i hj
    rw [hj]
  · rfl

/-- `pfsCacheUnLink` links the neighbours of an entry, and changes nothing else. -/
theorem unlink_data (s : Scratch) (i j : Nat) : (s.pfsCacheUnLink i).pfsBitmapData j =
    { s.pfsBitmapData j with
      next := if j = (s.pfsBitmapData i).prev then (s.pfsBitmapData i).next else (s.pfsBitmapData j).next
      prev := if j = (s.pfsBitmapData i).next then (s.pfsBitmapData i).prev else (s.pfsBitmapData j).prev } := by
  unfold pfsCacheUnLink
  simp only [modify_prev, modify_next, ite_self]

/-- `pfsCacheLink` puts an entry behind another, and changes nothing else. -/
theorem link_data (s : Scratch) {c i : Nat} (hne : c ≠ i) (j : Nat) : (s.pfsCacheLink c i).pfsBitmapData j =
    { s.pfsBitmapData j with
      next := if j = c then i else if j = i then (s.pfsBitmapData c).next else (s.pfsBitmapData j).next
      prev := if j = (s.pfsBitmapData c).next then i else if j = i then c else (s.pfsBitmapData j).prev } := by
  unfold pfsCacheLink
  simp only [modify_prev, modify_next, if_neg hne]

theorem Ring.congr (h : s.Ring l) (hnext : ∀ j, (t.pfsBitmapData j).next = (s.pfsBitmapData j).next)
    (hprev : ∀ j, (t.pfsBitmapData j).prev = (s.pfsBitmapData j).prev) : t.Ring l :=
  FreeRing.congr h hnext hprev

theorem Ring.unlink (h : s.Ring l) (hi : i ∈ l) : (s.pfsCacheUnLink i).Ring (l.erase i) := by
  apply FreeRing.erase h hi
  · intro j
    rw [unlink_data]
  · intro j
    rw [unlink_data]

theorem Ring.link (h : s.Ring l) (hi : i ∉ 0 :: l) : (s.pfsCacheLink (s.pfsBitmapData 0).prev i).Ring (l ++ [i]) := by
  have hne : (s.pfsBitmapData 0).prev ≠ i := fun heq => hi (heq ▸ h.path.last_mem)
  apply FreeRing.append h hi
  · intro j
    rw [link_data s hne]
  · intro j
    rw [link_data s hne]

/-! ### The operations -/

/-- The entries show the same, and so does `__mbr`. -/
structure Still (s t : Scratch) : Prop where
  index : ∀ j, (t.pfsBitmapData j).index = (s.pfsBitmapData j).index
  bitmap : ∀ j, (t.pfsBitmapData j).bitmap = (s.pfsBitmapData j).bitmap
  isDirty : ∀ j, (t.pfsBitmapData j).isDirty = (s.pfsBitmapData j).isDirty
  mbr : t.mbr = s.mbr
  failure : t.failure = s.failure
  transfers : t.transfers = s.transfers

theorem Still.refl (s : Scratch) : Still s s := ⟨fun _ => rfl, fun _ => rfl, fun _ => rfl, rfl, rfl, rfl⟩

theorem Still.trans {u : Scratch} (h : Still s t) (h' : Still t u) : Still s u :=
  ⟨fun j => (h'.index j).trans (h.index j), fun j => (h'.bitmap j).trans (h.bitmap j),
    fun j => (h'.isDirty j).trans (h.isDirty j), h'.mbr.trans h.mbr, h'.failure.trans h.failure,
    h'.transfers.trans h.transfers⟩

theorem Still.unlink (s : Scratch) (i : Nat) : Still s (s.pfsCacheUnLink i) := by
  constructor
  case mbr | failure | transfers => rfl
  all_goals
    intro j
    rw [unlink_data]

theorem Still.link (s : Scratch) {c : Nat} (hne : c ≠ i) : Still s (s.pfsCacheLink c i) := by
  constructor
  case mbr | failure | transfers => rfl
  all_goals
    intro j
    rw [link_data s hne]

theorem modify_nused (s : Scratch) (i j : Nat) (f : pfs_bitmap_t → Nat) :
    (s.modify i fun e => { e with nused := f e }).pfsBitmapData j =
      { s.pfsBitmapData j with nused := if j = i then f (s.pfsBitmapData i) else (s.pfsBitmapData j).nused } := by
  rw [modify_data]
  split
  · rename_i hj
    rw [hj]
  · rfl

theorem Still.nused (s : Scratch) (i : Nat) (f : pfs_bitmap_t → Nat) :
    Still s (s.modify i fun e => { e with nused := f e }) := by
  constructor
  case mbr | failure | transfers => rfl
  all_goals
    intro j
    rw [modify_nused]

theorem Still.page (h : Still s t) (index : Nat) : t.page index = s.page index :=
  page_congr (fun i _ => ⟨h.index i, h.bitmap i⟩) h.mbr index

theorem Still.backed (h : Still s t) (hs : s.Backed) : t.Backed := by
  intro i hi hclean
  rw [h.isDirty] at hclean
  rw [h.bitmap, h.mbr, h.index]
  exact hs i hi hclean

theorem Still.holds (h : Still s t) : t.Holds index ↔ s.Holds index := by
  simp only [Holds, h.index]

theorem Still.sound (h : Still s t) {l' : List Nat} (hs : Sound s l) (ht : Balanced t l') : Sound t l' := by
  refine ⟨ht, ?_, ?_⟩
  · intro i hi
    rw [h.index]
    exact hs.small i hi
  · intro i j hi hj heq
    rw [h.index, h.index] at heq
    exact hs.distinct i j hi hj heq

theorem Balanced.nodup (h : Balanced s l) : l.Nodup := (List.nodup_cons.mp h.ring.nodup).2

/-- What a hit does to the entry. -/
def hold (i : Nat) (s : Scratch) : Scratch :=
  let s := if (s.pfsBitmapData i).nused = 0 then s.pfsCacheUnLink i else s
  s.modify i fun e => { e with nused := (e.nused + 1) % 2 ^ 16 }

theorem hold_still (s : Scratch) (i : Nat) : Still s (s.hold i) := by
  unfold hold
  simp only
  split
  · exact (Still.unlink s i).trans (Still.nused _ i fun e => (e.nused + 1) % 2 ^ 16)
  · exact Still.nused s i fun e => (e.nused + 1) % 2 ^ 16

theorem hold_nused (s : Scratch) (i j : Nat) : ((s.hold i).pfsBitmapData j).nused =
    if j = i then ((s.pfsBitmapData i).nused + 1) % 2 ^ 16 else (s.pfsBitmapData j).nused := by
  unfold hold
  simp only
  split
  all_goals
    rw [modify_data]
    split
    · simp only [unlink_data]
    · simp only [unlink_data]

theorem modify_nused_ring (h : s.Ring l) (f : pfs_bitmap_t → Nat) :
    (s.modify i fun e => { e with nused := f e }).Ring l := by
  apply h.congr
  all_goals
    intro j
    rw [modify_data]
    split
    · rename_i hj
      rw [hj]
    · rfl

theorem Balanced.hold (h : Balanced s l) (hi : Entry i) (hwrap : (s.pfsBitmapData i).nused + 1 < 2 ^ 16) :
    Balanced (s.hold i) (l.erase i) := by
  constructor
  · unfold Scratch.hold
    simp only
    split
    · rename_i hfree
      exact modify_nused_ring (h.ring.unlink ((h.mem i).mpr ⟨hi, hfree⟩)) _
    · rename_i hused
      rw [List.erase_of_not_mem fun hmem => hused ((h.mem i).mp hmem).2]
      exact modify_nused_ring h.ring _
  · intro j
    rw [hold_nused, h.nodup.mem_erase_iff, h.mem]
    split
    · rename_i hj
      rw [hj, Nat.mod_eq_of_lt hwrap]
      simp
    · rename_i hj
      simp [hj]

theorem free_still (h : Balanced s l) (hi : Entry i) : Still s (s.pfsBitmapFree i) := by
  unfold pfsBitmapFree
  split
  · exact Still.refl s
  · rename_i hused
    have hmem : i ∉ l := fun hmem => hused ((h.mem i).mp hmem).2
    simp only
    split
    · apply Still.trans (Still.nused s i fun e => e.nused - 1)
      apply Still.link
      rw [modify_nused s i 0 fun e => e.nused - 1]
      intro heq
      have hlast := h.ring.path.last_mem
      rcases List.mem_cons.mp hlast with hzero | hlast
      · exact hi.ne_zero (heq.symm.trans hzero)
      · exact hmem (heq ▸ hlast)
    · exact Still.nused s i fun e => e.nused - 1

theorem Balanced.free (h : Balanced s l) (hi : Entry i) : ∃ l', Balanced (s.pfsBitmapFree i) l' := by
  by_cases hused : (s.pfsBitmapData i).nused = 0
  · refine ⟨l, ?_⟩
    rw [pfsBitmapFree, if_pos hused]
    exact h
  · have hmem : i ∉ l := fun hmem => hused ((h.mem i).mp hmem).2
    have hring := modify_nused_ring (i := i) h.ring fun e => e.nused - 1
    rw [pfsBitmapFree, if_neg hused]
    simp only
    have hself : ((s.modify i fun e => { e with nused := e.nused - 1 }).pfsBitmapData i).nused =
        (s.pfsBitmapData i).nused - 1 := by
      rw [modify_data, if_pos rfl]
    have hother : ∀ j, j ≠ i → ((s.modify i fun e => { e with nused := e.nused - 1 }).pfsBitmapData j).nused =
        (s.pfsBitmapData j).nused := by
      intro j hj
      rw [modify_data, if_neg hj]
    generalize (s.modify i fun e => { e with nused := e.nused - 1 }) = t at hring hself hother ⊢
    have hi0 : i ∉ 0 :: l := fun h0 => (List.mem_cons.mp h0).elim hi.ne_zero hmem
    have hne : (t.pfsBitmapData 0).prev ≠ i := fun heq => hi0 (heq ▸ hring.path.last_mem)
    rw [hself]
    split
    · rename_i hlast
      refine ⟨l ++ [i], hring.link hi0, ?_⟩
      intro j
      rw [link_data t hne, List.mem_append, List.mem_singleton, h.mem]
      by_cases hj : j = i
      · subst hj
        simp only [hself, hlast, hi, and_self, or_true]
      · simp only [hother j hj, hj, or_false]
    · rename_i hmore
      refine ⟨l, hring, ?_⟩
      intro j
      rw [h.mem]
      by_cases hj : j = i
      · subst hj
        simp only [hself, hmore, hused, and_false]
      · rw [hother j hj]

theorem free_nused (h : Balanced s l) (hi : Entry i) (j : Nat) : ((s.pfsBitmapFree i).pfsBitmapData j).nused =
    if j = i then (s.pfsBitmapData i).nused - 1 else (s.pfsBitmapData j).nused := by
  unfold pfsBitmapFree
  split
  · rename_i hfree
    split
    · rename_i hj
      rw [hj, hfree]
    · rfl
  · rename_i hused
    have hmem : i ∉ l := fun hmem => hused ((h.mem i).mp hmem).2
    have hring := modify_nused_ring (i := i) h.ring fun e => e.nused - 1
    have hi0 : i ∉ 0 :: l := fun h0 => (List.mem_cons.mp h0).elim hi.ne_zero hmem
    have hself : ∀ j, ((s.modify i fun e => { e with nused := e.nused - 1 }).pfsBitmapData j).nused =
        if j = i then (s.pfsBitmapData i).nused - 1 else (s.pfsBitmapData j).nused := by
      intro j
      rw [modify_data]
      split <;> rfl
    simp only
    generalize (s.modify i fun e => { e with nused := e.nused - 1 }) = t at hring hself ⊢
    have hne : (t.pfsBitmapData 0).prev ≠ i := fun heq => hi0 (heq ▸ hring.path.last_mem)
    split
    · rw [link_data t hne, ← hself]
    · exact hself j

/-! ### A page that is not held -/

/-- Two sound states in which the same entries hold the same pages, while `__mbr` is the same where no entry holds the page. -/
theorem page_eq {l' : List Nat} (hs : Sound s l) (ht : Sound t l')
    (hindex : ∀ j, (t.pfsBitmapData j).index = (s.pfsBitmapData j).index)
    (hbitmap : ∀ j, (t.pfsBitmapData j).bitmap = (s.pfsBitmapData j).bitmap)
    (hmbr : ¬ s.Holds index → t.mbr (sector index) = s.mbr (sector index)) : t.page index = s.page index := by
  by_cases hheld : s.Holds index
  · obtain ⟨j, hj, rfl⟩ := hheld
    rw [hs.page_held hj, ← hindex j, ht.page_held hj, hbitmap]
  · have hheld' : ¬ t.Holds index := by
      simpa only [Holds, hindex] using hheld
    rw [page_not_held hheld, page_not_held hheld', hmbr hheld]

private theorem sector_ne (h : Sound s l) (hi : Entry i) (hindex : index < 2 ^ 24) (hheld : ¬ s.Holds index) :
    sector index ≠ sector (s.pfsBitmapData i).index := by
  intro heq
  exact hheld ⟨i, hi, (sector_injective hindex (h.small i hi) heq).symm⟩

/-- The first entry of the ring is the one that is given up for another page. -/
abbrev victim (s : Scratch) : Nat := (s.pfsBitmapData 0).next

/-- An entry was written to `__mbr`, or other words in its place. -/
def write (i : Nat) (words : Page) (s : Scratch) : Scratch :=
  { s with
    mbr := Function.update s.mbr (sector (s.pfsBitmapData i).index) words
    transfers := s.transfers ++ [⟨0, sector (s.pfsBitmapData i).index, BITMAP_BUFFER_SIZE, .WRITE⟩] }

/-- An entry was given to a page, and holds these words. -/
def load (i index : Nat) (words : Page) (s : Scratch) : Scratch :=
  { (s.modify i fun e => { e with index := index, isDirty := false, nused := 1, bitmap := words }) with
    transfers := s.transfers ++ [⟨0, sector index, BITMAP_BUFFER_SIZE, .READ⟩] }

/-- An entry is as it is on `__mbr`. -/
def clean (i : Nat) (s : Scratch) : Scratch := s.modify i fun e => { e with isDirty := false }

theorem pfsBitmapTransfer_write (s : Scratch) (i : Nat) : s.pfsBitmapTransfer i .WRITE =
    match s.failure s.transfers.length with
    | some junk => (false, s.write i junk)
    | none => (true, (s.write i (s.pfsBitmapData i).bitmap).clean i) := by
  unfold pfsBitmapTransfer
  cases s.failure s.transfers.length <;> rfl

private theorem pfsBitmapTransfer_read (s : Scratch) (i index : Nat) :
    (s.modify i fun e => { e with index := index, isDirty := false, nused := 1 }).pfsBitmapTransfer i .READ =
    match s.failure s.transfers.length with
    | some junk => (false, s.load i index junk)
    | none => (true, s.load i index (s.mbr (sector index))) := by
  unfold pfsBitmapTransfer
  have hfailure : (s.modify i fun e => { e with index := index, isDirty := false, nused := 1 }).failure
      (s.modify i fun e => { e with index := index, isDirty := false, nused := 1 }).transfers.length =
      s.failure s.transfers.length := rfl
  simp only [hfailure]
  cases s.failure s.transfers.length <;>
    simp [load, modify, Function.update_self, Function.update_idem, sector]

/-- What is done about a page that is not held, once the entry it is to have is as it is on `__mbr`. -/
def fetch (i index : Nat) (s : Scratch) : Option Nat × Scratch :=
  match s.failure s.transfers.length with
  | some junk => (none, s.load i index junk)
  | none => (some i, (s.load i index (s.mbr (sector index))).pfsCacheUnLink i)

theorem pfsBitmapRead_miss (h : ¬ s.Holds index) : s.pfsBitmapRead index =
    if (s.pfsBitmapData s.victim).isDirty then
      match s.failure s.transfers.length with
      | some junk => (none, s.write s.victim junk)
      | none => ((s.write s.victim (s.pfsBitmapData s.victim).bitmap).clean s.victim).fetch s.victim index
    else s.fetch s.victim index := by
  have hfetch : ∀ u : Scratch,
      let r := (u.modify s.victim fun e =>
        { e with index := index, isDirty := false, nused := 1 }).pfsBitmapTransfer s.victim .READ
      (if r.1 then (some s.victim, r.2.pfsCacheUnLink s.victim) else (none, r.2)) = u.fetch s.victim index := by
    intro u
    dsimp only
    rw [pfsBitmapTransfer_read, fetch]
    cases u.failure u.transfers.length <;> rfl
  unfold pfsBitmapRead
  rw [find_none h]
  simp only
  split
  · rw [pfsBitmapTransfer_write]
    cases s.failure s.transfers.length with
    | some junk => rfl
    | none => exact hfetch _
  · exact hfetch s

theorem pfsBitmapRead_hit (h : Sound s l) (hi : Entry i) (hindex : (s.pfsBitmapData i).index = index) :
    s.pfsBitmapRead index = (some i, s.hold i) := by
  unfold pfsBitmapRead
  rw [h.find hi hindex]
  rfl

theorem clean_data (s : Scratch) (i j : Nat) : (s.clean i).pfsBitmapData j =
    { s.pfsBitmapData j with isDirty := if j = i then false else (s.pfsBitmapData j).isDirty } := by
  unfold clean
  rw [modify_data]
  split
  · rename_i hj
    rw [hj]
  · rfl

theorem clean_mbr (s : Scratch) (i : Nat) : (s.clean i).mbr = s.mbr := rfl

theorem write_mbr (s : Scratch) (i : Nat) (words : Page) : (s.write i words).mbr =
    Function.update s.mbr (sector (s.pfsBitmapData i).index) words := rfl

theorem write_data (s : Scratch) (i : Nat) (words : Page) : (s.write i words).pfsBitmapData = s.pfsBitmapData := rfl

theorem load_data (s : Scratch) (i index j : Nat) (words : Page) : (s.load i index words).pfsBitmapData j =
    if j = i then { s.pfsBitmapData i with index := index, isDirty := false, nused := 1, bitmap := words }
    else s.pfsBitmapData j :=
  modify_data s i j fun e => { e with index := index, isDirty := false, nused := 1, bitmap := words }

/-- A load leaves the links of the entries as they are. -/
theorem Ring.load (h : s.Ring l) (i index : Nat) (words : Page) : (s.load i index words).Ring l := by
  apply h.congr
  all_goals
    intro j
    rw [load_data]
    split
    · rename_i hj
      rw [hj]
    · rfl

theorem Balanced.congr (h : Balanced s l) (hnext : ∀ j, (t.pfsBitmapData j).next = (s.pfsBitmapData j).next)
    (hprev : ∀ j, (t.pfsBitmapData j).prev = (s.pfsBitmapData j).prev)
    (hnused : ∀ j, (t.pfsBitmapData j).nused = (s.pfsBitmapData j).nused) : Balanced t l := by
  refine ⟨h.ring.congr hnext hprev, ?_⟩
  intro i
  rw [h.mem, hnused]

theorem Sound.congr (h : Sound s l) (hnext : ∀ j, (t.pfsBitmapData j).next = (s.pfsBitmapData j).next)
    (hprev : ∀ j, (t.pfsBitmapData j).prev = (s.pfsBitmapData j).prev)
    (hnused : ∀ j, (t.pfsBitmapData j).nused = (s.pfsBitmapData j).nused)
    (hindex : ∀ j, (t.pfsBitmapData j).index = (s.pfsBitmapData j).index) : Sound t l := by
  refine ⟨h.toBalanced.congr hnext hprev hnused, ?_, ?_⟩
  · intro i hi
    rw [hindex]
    exact h.small i hi
  · intro i j hi hj heq
    rw [hindex, hindex] at heq
    exact h.distinct i j hi hj heq

/-- A write that fails leaves the cache as it is. -/
theorem Sound.write (h : Sound s l) (i : Nat) (words : Page) : Sound (s.write i words) l :=
  h.congr (fun _ => rfl) (fun _ => rfl) (fun _ => rfl) fun _ => rfl

theorem write_page (h : Sound s l) (hi : Entry i) (words : Page) (hindex : index < 2 ^ 24) :
    (s.write i words).page index = s.page index := by
  apply page_eq h (h.write i words) (fun _ => rfl) fun _ => rfl
  intro hheld
  rw [write_mbr, Function.update_of_ne (sector_ne h hi hindex hheld)]

theorem write_backed (h : Sound s l) (hb : s.Backed) (hi : Entry i) (hdirty : (s.pfsBitmapData i).isDirty = true)
    (words : Page) : (s.write i words).Backed := by
  intro j hj hclean
  have hne : sector (s.pfsBitmapData j).index ≠ sector (s.pfsBitmapData i).index := by
    intro heq
    have hij := h.distinct j i hj hi (sector_injective (h.small j hj) (h.small i hi) heq)
    rw [hij] at hclean
    exact absurd (hdirty.symm.trans hclean) (by decide)
  rw [write_mbr, write_data, Function.update_of_ne hne]
  exact hb j hj hclean

theorem Sound.clean (h : Sound s l) (i : Nat) : Sound (s.clean i) l := by
  apply h.congr
  all_goals
    intro j
    rw [clean_data]

private theorem clean_page (h : Sound s l) (i index : Nat) : (s.clean i).page index = s.page index := by
  apply page_eq h (h.clean i)
  · intro j
    rw [clean_data]
  · intro j
    rw [clean_data]
  · intro _
    rfl

/-- What was written is as it is on `__mbr`. -/
private theorem written_backed (h : Sound s l) (hb : s.Backed) (hi : Entry i) (hdirty : (s.pfsBitmapData i).isDirty = true) :
    ((s.write i (s.pfsBitmapData i).bitmap).clean i).Backed := by
  intro j hj hclean
  by_cases hij : j = i
  · subst hij
    have hindex : (((s.write j (s.pfsBitmapData j).bitmap).clean j).pfsBitmapData j).index =
        (s.pfsBitmapData j).index := by
      rw [clean_data, write_data]
    rw [hindex, clean_mbr, write_mbr, Function.update_self, clean_data, write_data]
  · rw [clean_data] at hclean
    simp only [if_neg hij] at hclean
    have hbacked := write_backed h hb hi hdirty (s.pfsBitmapData i).bitmap j hj hclean
    have hindex : (((s.write i (s.pfsBitmapData i).bitmap).clean i).pfsBitmapData j).index =
        ((s.write i (s.pfsBitmapData i).bitmap).pfsBitmapData j).index := by
      rw [clean_data]
    rw [hindex, clean_mbr, clean_data]
    exact hbacked

theorem load_mbr (s : Scratch) (i : Nat) (words : Page) : (s.load i index words).mbr = s.mbr := rfl

/-- The cache with an entry that was given to a page and left the ring. -/
theorem Sound.load (h : Sound s (i :: l)) (hheld : ¬ s.Holds index) (hindex : index < 2 ^ 24) (words : Page) :
    Sound ((s.load i index words).pfsCacheUnLink i) l := by
  have hi : Entry i := ((h.mem i).mp List.mem_cons_self).1
  have hnodup := List.nodup_cons.mp h.nodup
  have hstill := Still.unlink (s.load i index words) i
  have hindexes : ∀ j, (((s.load i index words).pfsCacheUnLink i).pfsBitmapData j).index =
      if j = i then index else (s.pfsBitmapData j).index := by
    intro j
    rw [hstill.index, load_data]
    split <;> rfl
  refine ⟨⟨?_, ?_⟩, ?_, ?_⟩
  · have herase := (h.ring.load i index words).unlink List.mem_cons_self
    rwa [List.erase_cons_head] at herase
  · intro j
    rw [unlink_data, load_data]
    have hmem := h.mem j
    rw [List.mem_cons] at hmem
    by_cases hj : j = i
    · subst hj
      simp [hnodup.1]
    · rw [if_neg hj, ← hmem]
      simp only [hj, false_or]
  · intro j hj
    rw [hindexes]
    split
    · exact hindex
    · exact h.small j hj
  · intro j k hj hk heq
    rw [hindexes, hindexes] at heq
    by_cases hji : j = i
    · by_cases hki : k = i
      · exact hji.trans hki.symm
      · rw [if_pos hji, if_neg hki] at heq
        exact absurd ⟨k, hk, heq.symm⟩ hheld
    · by_cases hki : k = i
      · rw [if_neg hji, if_pos hki] at heq
        exact absurd ⟨j, hj, heq⟩ hheld
      · rw [if_neg hji, if_neg hki] at heq
        exact h.distinct j k hj hk heq

/-- The page that is given up is as it is on `__mbr`, and the page that is loaded too. -/
private theorem load_page (h : Sound s (i :: l)) (hb : s.Backed) (hclean : (s.pfsBitmapData i).isDirty = false)
    (hheld : ¬ s.Holds index) (hindex : index < 2 ^ 24) (k : Nat) :
    ((s.load i index (s.mbr (sector index))).pfsCacheUnLink i).page k = s.page k := by
  have hi : Entry i := ((h.mem i).mp List.mem_cons_self).1
  have ht := h.load hheld hindex (s.mbr (sector index))
  have hdata : ∀ j, (((s.load i index (s.mbr (sector index))).pfsCacheUnLink i).pfsBitmapData j).index =
      (if j = i then index else (s.pfsBitmapData j).index) ∧
      (((s.load i index (s.mbr (sector index))).pfsCacheUnLink i).pfsBitmapData j).bitmap =
        if j = i then s.mbr (sector index) else (s.pfsBitmapData j).bitmap := by
    intro j
    rw [(Still.unlink _ i).index, (Still.unlink _ i).bitmap, load_data]
    split
    · exact ⟨rfl, rfl⟩
    · exact ⟨rfl, rfl⟩
  by_cases hk : ((s.load i index (s.mbr (sector index))).pfsCacheUnLink i).Holds k
  · obtain ⟨j, hj, rfl⟩ := hk
    rw [ht.page_held hj]
    rw [(hdata j).1, (hdata j).2]
    split
    · rw [page_not_held hheld]
    · rw [h.page_held hj]
  · rw [page_not_held hk, (Still.unlink _ i).mbr, load_mbr]
    by_cases hold : k = (s.pfsBitmapData i).index
    · rw [hold, h.page_held hi, hb i hi hclean]
    · symm
      apply page_not_held
      rintro ⟨j, hj, rfl⟩
      by_cases hji : j = i
      · exact hold (hji ▸ rfl)
      · exact hk ⟨j, hj, by rw [(hdata j).1, if_neg hji]⟩

private theorem load_backed (hb : s.Backed) :
    ((s.load i index (s.mbr (sector index))).pfsCacheUnLink i).Backed := by
  apply (Still.unlink _ i).backed
  intro j hj hclean
  rw [load_data] at hclean ⊢
  by_cases hji : j = i
  · simp only [if_pos hji, load_mbr]
  · simp only [if_neg hji, load_mbr] at hclean ⊢
    exact hb j hj hclean

/-! ### What a read does -/

/-- The pages `P` can be read: each is held already, or what is given up for it is on `__mbr`. -/
def Serves (s : Scratch) (P : Nat → Prop) : Prop := s.Backed ∨ ∀ index, P index → s.Holds index

/-- No entry is in use so often that its use count cannot be raised. -/
def Countable (s : Scratch) : Prop := ∀ i, Entry i → (s.pfsBitmapData i).nused + 1 < 2 ^ 16

/-- The page that was read is in an entry, which is in use once more, and no page has changed. -/
structure Obtained (s t : Scratch) (P : Nat → Prop) (index i : Nat) : Prop where
  entry : Entry i
  index : (t.pfsBitmapData i).index = index
  sound : ∃ l, Sound t l
  serves : t.Serves P
  page : ∀ k < 2 ^ 24, t.page k = s.page k
  nused : ∀ j, (t.pfsBitmapData j).nused = (s.pfsBitmapData j).nused + if j = i then 1 else 0
  failure : t.failure = s.failure

/-- No page was obtained, and nothing was lost. -/
structure Refused (s t : Scratch) (P : Nat → Prop) : Prop where
  sound : ∃ l, Sound t l
  serves : t.Serves P
  page : ∀ k < 2 ^ 24, t.page k = s.page k
  nused : ∀ j, (t.pfsBitmapData j).nused = (s.pfsBitmapData j).nused
  failure : t.failure = s.failure

/-- The page that is given up cannot be written. -/
def WriteFails (s : Scratch) : Prop :=
  (s.pfsBitmapData s.victim).isDirty = true ∧ s.failure s.transfers.length ≠ none

variable {P : Nat → Prop} {result : Option Nat}

theorem Serves.still (h : s.Serves P) (hst : Still s t) : t.Serves P := by
  rcases h with hb | hheld
  · exact .inl (hst.backed hb)
  · exact .inr fun k hk => hst.holds.mpr (hheld k hk)

theorem Sound.hold (h : Sound s l) (hs : s.Serves P) (hi : Entry i) (hcount : s.Countable) :
    Obtained s (s.hold i) P (s.pfsBitmapData i).index i := by
  have hstill := hold_still s i
  refine ⟨hi, hstill.index i, ⟨_, hstill.sound h (h.toBalanced.hold hi (hcount i hi))⟩, hs.still hstill,
    fun k _ => hstill.page k, ?_, hstill.failure⟩
  intro j
  rw [hold_nused]
  split
  · rename_i hj
    rw [hj, Nat.mod_eq_of_lt (hcount i hi)]
  · rfl

/-- A page that is not held is loaded over the first entry of the ring. -/
theorem Sound.fetch (h : Sound s (i :: l)) (hb : s.Backed) (hclean : (s.pfsBitmapData i).isDirty = false)
    (hheld : ¬ s.Holds index) (hindex : index < 2 ^ 24) :
    Obtained s ((s.load i index (s.mbr (sector index))).pfsCacheUnLink i) P index i := by
  have hmem := (h.mem i).mp List.mem_cons_self
  refine ⟨hmem.1, ?_, ⟨l, h.load hheld hindex _⟩, .inl (load_backed hb),
    fun k _ => load_page h hb hclean hheld hindex k, ?_, rfl⟩
  · rw [(Still.unlink _ i).index, load_data, if_pos rfl]
  · intro j
    rw [unlink_data, load_data]
    split
    · rename_i hj
      rw [hj, hmem.2]
    · rfl

/-- A read that obtains its page, or fails in the write that has to come first. -/
theorem Sound.read (h : Sound s l) (hs : s.Serves P) (hp : P index) (hindex : index < 2 ^ 24) (hfree : l ≠ [])
    (hcount : s.Holds index → s.Countable) (hread : s.pfsBitmapRead index = (result, t)) :
    (∃ i, result = some i ∧ Obtained s t P index i) ∨
    (result = none ∧ s.WriteFails ∧ Refused s t P) ∨
    (result = none ∧ ¬ s.WriteFails ∧ (t.pfsBitmapData s.victim).nused = 1 ∧ t.Ring l) := by
  by_cases hheld : s.Holds index
  · have hcountable := hcount hheld
    obtain ⟨i, hi, rfl⟩ := hheld
    rw [pfsBitmapRead_hit h hi rfl] at hread
    cases hread
    exact .inl ⟨i, rfl, h.hold hs hi hcountable⟩
  · have hb : s.Backed := hs.resolve_right fun hall => hheld (hall index hp)
    obtain ⟨i, l, rfl⟩ := List.exists_cons_of_ne_nil hfree
    have hi : Entry i := ((h.mem i).mp List.mem_cons_self).1
    have hvictim : s.victim = i := h.ring.next_root
    rw [pfsBitmapRead_miss hheld, hvictim] at hread
    -- the page that cannot be loaded is on the ring all the same
    have hlost : ∀ (u : Scratch) (junk : Page), Sound u (i :: l) →
        (((u.load i index junk).pfsBitmapData s.victim).nused = 1 ∧ (u.load i index junk).Ring (i :: l)) := by
      intro u junk hu
      constructor
      · rw [hvictim, load_data, if_pos rfl]
      · exact hu.ring.load i index junk
    split at hread
    · rename_i hdirty
      split at hread
      · rename_i junk hfail
        cases hread
        refine .inr (.inl ⟨rfl, ⟨hvictim.symm ▸ hdirty, by simp [hfail]⟩, ?_⟩)
        exact ⟨⟨_, h.write i junk⟩, .inl (write_backed h hb hi hdirty junk),
          fun k hk => write_page h hi junk hk, fun _ => rfl, rfl⟩
      · rename_i hok
        have hnot : ¬ s.WriteFails := fun hfails => hfails.2 hok
        have hu := (h.write i (s.pfsBitmapData i).bitmap).clean i
        have hub := written_backed h hb hi hdirty
        have hupage : ∀ k < 2 ^ 24, ((s.write i (s.pfsBitmapData i).bitmap).clean i).page k = s.page k := by
          intro k hk
          rw [clean_page (h.write i _), write_page h hi _ hk]
        have huclean : (((s.write i (s.pfsBitmapData i).bitmap).clean i).pfsBitmapData i).isDirty = false := by
          rw [clean_data]
          simp only [if_true]
        have hunused : ∀ j, (((s.write i (s.pfsBitmapData i).bitmap).clean i).pfsBitmapData j).nused =
            (s.pfsBitmapData j).nused := by
          intro j
          rw [clean_data, write_data]
        have huheld : ¬ ((s.write i (s.pfsBitmapData i).bitmap).clean i).Holds index := by
          simpa only [Holds, clean_data, write_data] using hheld
        have hufailure : ((s.write i (s.pfsBitmapData i).bitmap).clean i).failure = s.failure := rfl
        generalize (s.write i (s.pfsBitmapData i).bitmap).clean i = u at hread hu hub hupage huclean hunused huheld hufailure
        unfold Scratch.fetch at hread
        split at hread
        · cases hread
          exact .inr (.inr ⟨rfl, hnot, hlost u _ hu⟩)
        · cases hread
          have hgot := hu.fetch (P := P) hub huclean huheld hindex
          refine .inl ⟨i, rfl, { hgot with
            page := fun k hk => (hgot.page k hk).trans (hupage k hk), nused := ?_, failure := ?_ }⟩
          · intro j
            rw [hgot.nused, hunused]
          · exact hgot.failure.trans hufailure
    · rename_i hdirty
      have hclean : (s.pfsBitmapData i).isDirty = false := by simpa using hdirty
      have hnot : ¬ s.WriteFails := fun hfails => hdirty (hvictim ▸ hfails.1)
      unfold Scratch.fetch at hread
      split at hread
      · cases hread
        exact .inr (.inr ⟨rfl, hnot, hlost s _ h⟩)
      · cases hread
        exact .inl ⟨i, rfl, h.fetch hb hclean hheld hindex⟩

/-! ### A session begins -/

abbrev blank : Page := fun _ _ => false

def Idle (s : Scratch) (l : List Nat) : Prop := Balanced s l ∧ ∀ i, Entry i → (s.pfsBitmapData i).nused = 0

private theorem modify_all_data (g : Nat → pfs_bitmap_t → pfs_bitmap_t) (is : List Nat) (hnodup : is.Nodup) (s : Scratch)
    (j : Nat) : (is.foldl (fun s i => s.modify i (g i)) s).pfsBitmapData j =
      if j ∈ is then g j (s.pfsBitmapData j) else s.pfsBitmapData j := by
  induction is generalizing s with
  | nil => rfl
  | cons i is ih =>
    rw [List.nodup_cons] at hnodup
    rw [List.foldl_cons, ih hnodup.2, modify_data]
    by_cases hji : j = i
    · subst hji
      simp [hnodup.1]
    · simp [hji]

theorem clear_data (s : Scratch) (j : Nat) : s.clear.pfsBitmapData j =
    if Entry j then { s.pfsBitmapData j with isDirty := false, nused := 0, index := j - 1, bitmap := blank }
    else s.pfsBitmapData j := by
  have hall := modify_all_data (fun i e => { e with isDirty := false, nused := 0, index := i - 1, bitmap := blank })
    (List.range' 1 (NUM_BITMAP_ENTRIES - 1)) (by decide) s j
  simp only [mem_range] at hall
  exact hall

/-- The entries are set up for the first four pages, or for any pages that differ. -/
theorem Idle.labelled (h : s.Idle l) (hnext : ∀ j, (t.pfsBitmapData j).next = (s.pfsBitmapData j).next)
    (hprev : ∀ j, (t.pfsBitmapData j).prev = (s.pfsBitmapData j).prev)
    (hnused : ∀ j, Entry j → (t.pfsBitmapData j).nused = 0)
    (hsmall : ∀ j, Entry j → (t.pfsBitmapData j).index < 2 ^ 24)
    (hdistinct : ∀ i j, Entry i → Entry j → (t.pfsBitmapData i).index = (t.pfsBitmapData j).index → i = j) :
    Sound t l := by
  refine ⟨⟨h.1.ring.congr hnext hprev, ?_⟩, hsmall, hdistinct⟩
  intro j
  rw [h.1.mem]
  constructor
  · intro hj
    exact ⟨hj.1, hnused j hj.1⟩
  · intro hj
    exact ⟨hj.1, h.2 j hj.1⟩

theorem Idle.clear (h : s.Idle l) : Sound s.clear l := by
  apply h.labelled
  · intro j
    rw [clear_data]
    split <;> rfl
  · intro j
    rw [clear_data]
    split <;> rfl
  · intro j hj
    rw [clear_data, if_pos hj]
  · intro j hj
    rw [clear_data, if_pos hj]
    exact lt_trans (lt_of_le_of_lt (Nat.sub_le j 1) hj.2) (by decide)
  · intro i j hi hj heq
    rw [clear_data, if_pos hi, clear_data, if_pos hj] at heq
    have hi1 := hi.1
    have hj1 := hj.1
    simp only at heq
    omega

/-- Entries are linked one after the other before the root. -/
private theorem link_all (is : List Nat) (h : s.Ring l) (hnodup : (is ++ 0 :: l).Nodup) :
    (is.foldl (fun s i => s.pfsCacheLink (s.pfsBitmapData 0).prev i) s).Ring (l ++ is) ∧
      ∀ j, ((is.foldl (fun s i => s.pfsCacheLink (s.pfsBitmapData 0).prev i) s).pfsBitmapData j).nused =
        (s.pfsBitmapData j).nused := by
  induction is generalizing s l with
  | nil =>
    rw [List.append_nil]
    exact ⟨h, fun _ => rfl⟩
  | cons i is ih =>
    rw [List.cons_append, List.nodup_cons] at hnodup
    have hi : i ∉ 0 :: l := fun hmem => hnodup.1 (List.mem_append_right _ hmem)
    have hne : (s.pfsBitmapData 0).prev ≠ i := fun heq => hi (heq ▸ h.path.last_mem)
    have hrest : (is ++ 0 :: (l ++ [i])).Nodup := by
      have hperm : (i :: (is ++ 0 :: l)).Perm (is ++ 0 :: (l ++ [i])) := by
        have hlast := List.perm_append_singleton i (is ++ 0 :: l)
        rw [List.append_assoc, List.cons_append] at hlast
        exact hlast.symm
      exact hperm.nodup_iff.mp (List.nodup_cons.mpr hnodup)
    obtain ⟨hring, hnused⟩ := ih (h.link hi) hrest
    rw [List.append_assoc] at hring
    refine ⟨hring, ?_⟩
    intro j
    refine (hnused j).trans ?_
    rw [link_data s hne]

theorem idle_pfsBitmapInit (mbr : Nat → Page) (failure : Nat → Option Page) :
    (pfsBitmapInit mbr failure).Idle [1, 2, 3, 4] := by
  obtain ⟨hring, hnused⟩ := link_all (s := ⟨fun _ => ⟨0, 0, false, 0, 0, blank⟩, mbr, failure, []⟩)
    (List.range' 1 (NUM_BITMAP_ENTRIES - 1)) (l := []) ⟨⟨rfl, rfl⟩, by decide⟩ (by decide)
  refine ⟨⟨hring, ?_⟩, fun i _ => hnused i⟩
  intro i
  have hmem : i ∈ List.range' 1 (NUM_BITMAP_ENTRIES - 1) ↔ Entry i := mem_range
  constructor
  · intro hi
    exact ⟨hmem.mp hi, hnused i⟩
  · intro hi
    exact hmem.mpr hi.1

end Scratch

end HddChecker.Fsck
