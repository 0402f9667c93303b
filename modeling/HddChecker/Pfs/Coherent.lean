import HddChecker.Lib.FreeRing
import HddChecker.Pfs.Cache

/-!
# The metadata cache over whole runs

The buffers of `pfsCacheInit` with their links, their use counts and their keys, for any number of mounts. A buffer that is given back keeps its block, dirty or not, until its turn in the ring comes again; whole zones are copied behind its back. A run is a sequence of calls without a failed transfer. Next to the variables of the module it keeps what was stored last in each block, and which buffers hold anything of theirs.
-/

namespace HddChecker.Pfs.Cache

open HddChecker
open Journal (Block pfs_journal_t pfsJournalChecksum checkBlock PFS_CACHE_FLAG_NOLOAD PFS_CACHE_FLAG_MASKTYPE)

/-- A block of a partition of a mount. Mounts are numbered from 1 on; 0 is `NULL`. -/
abbrev Key := Nat × Nat × Nat

/-- `pfs_cache_t` without its links. Of `flags` it has `PFS_CACHE_FLAG_DIRTY` and the type. -/
structure pfs_cache_t where
  pfsMount : Nat
  sub : Nat
  block : Nat
  dirty : Bool
  type : UInt16
  nused : Nat
  data : Block

def pfs_cache_t.key (b : pfs_cache_t) : Key := (b.pfsMount, b.sub, b.block)

/-- The buffer as the driver of one mount sees it. -/
def pfs_cache_t.view (b : pfs_cache_t) : Journal.pfs_cache_t := ⟨b.type, b.pfsMount, b.sub, b.block, b.data⟩

/-- Where the mounts have their logs, and how many blocks their zones have. -/
structure Mounts where
  logBlock : Nat → Nat
  inode_scale : Nat → Nat

/-- The globals of `cache.c` and `journal.c`, and the blocks of the partitions. A link is the index of a buffer. -/
structure State where
  pfsCacheNumBuffers : Nat
  next : Nat → Nat
  prev : Nat → Nat
  pfsCacheBuf : Nat → pfs_cache_t
  pfsJournalBuf : pfs_journal_t
  disk : Key → Block
  /-- what was stored last in a block; no variable of the module -/
  stored : Key → Block
  /-- whether a buffer holds what was loaded or stored since it has its block; no variable of the module either -/
  loaded : Nat → Bool

namespace State

/-- An assignment to fields of a buffer. -/
def modify (i : Nat) (f : pfs_cache_t → pfs_cache_t) (c : State) : State :=
  { c with pfsCacheBuf := Function.update c.pfsCacheBuf i (f (c.pfsCacheBuf i)) }

/-- Contents are stored in the block of a buffer. -/
def setData (i : Nat) (data : Block) (c : State) : State :=
  { c.modify i fun clink => { clink with data := data, dirty := true } with
    stored := Function.update c.stored (c.pfsCacheBuf i).key data
    loaded := Function.update c.loaded i true }

/-! ### The ring -/

def pfsCacheLink (clink cnew : Nat) (c : State) : State :=
  let c := { c with prev := Function.update c.prev cnew clink }
  let c := { c with next := Function.update c.next cnew (c.next clink) }
  let c := { c with prev := Function.update c.prev (c.next clink) cnew }
  { c with next := Function.update c.next clink cnew }

def pfsCacheUnLink (clink : Nat) (c : State) : State :=
  let c := { c with next := Function.update c.next (c.prev clink) (c.next clink) }
  { c with prev := Function.update c.prev (c.next clink) (c.prev clink) }

/-- The memory of `pfsCacheInit` before the buffers are linked. -/
def cleared (numBuf : Nat) (memory : Nat → Block) (disk : Key → Block) : State where
  pfsCacheNumBuffers := numBuf
  next _ := 0
  prev _ := 0
  pfsCacheBuf i := ⟨0, 0, 0, false, 0, 0, memory i⟩
  pfsJournalBuf := .reset
  disk := disk
  stored := disk
  loaded _ := false

/-- `pfsCacheInit`, where the memory of the buffers is what `pfsAllocMem` finds. -/
def pfsCacheInit (numBuf : Nat) (memory : Nat → Block) (disk : Key → Block) : Option State :=
  if numBuf > 127 then none
  else some ((List.range' 1 numBuf).foldl (fun c i => pfsCacheLink (c.prev 0) i c) (cleared numBuf memory disk))

def pfsCacheFree (clink : Nat) (c : State) : State :=
  if (c.pfsCacheBuf clink).nused = 0 then c
  else
    let c := c.modify clink fun b => { b with nused := b.nused - 1 }
    if (c.pfsCacheBuf clink).nused ≠ 0 then c
    else if (c.pfsCacheBuf clink).pfsMount ≠ 0 then pfsCacheLink (c.prev 0) clink c
    else pfsCacheLink 0 clink c

def pfsCacheUsedAdd (clink : Nat) (c : State) : State :=
  c.modify clink fun b => { b with nused := (b.nused + 1) % 2 ^ 16 }

/-! ### The log -/

/-- A dirty buffer of a mount. -/
def isDirtyOn (m i : Nat) (c : State) : Bool := (c.pfsCacheBuf i).dirty && (c.pfsCacheBuf i).pfsMount == m

/-- A loop over the dirty buffers of a mount. -/
def forDirty (m : Nat) (f : Nat → State → State) (c : State) : State :=
  (List.range' 1 c.pfsCacheNumBuffers).foldl (fun c i => if isDirtyOn m i c then f i c else c) c

/-- A dirty buffer enters the journal; the checksum of an inode is stored in it. -/
def journalEntry (i : Nat) (c : State) : State :=
  let b := c.pfsCacheBuf i
  let c := if b.view.isInode then setData i b.view.sealed.data c else c
  { c with pfsJournalBuf := c.pfsJournalBuf.push ⟨b.view.sector, b.sub, 2 * i⟩ }

/-- The data of all buffers are written behind the header of the log. -/
def writeLog (M : Mounts) (m : Nat) (c : State) : State :=
  { c with disk := fun k =>
      if k.1 = m ∧ k.2.1 = 0 ∧ M.logBlock m < k.2.2 ∧ k.2.2 ≤ M.logBlock m + c.pfsCacheNumBuffers then
        (c.pfsCacheBuf (k.2.2 - M.logBlock m)).data
      else c.disk k }

/-- The header of the log is written. -/
def writeHeader (M : Mounts) (m : Nat) (c : State) : State :=
  { c with disk := Function.update c.disk (m, 0, M.logBlock m) c.pfsJournalBuf.toBlock }

def pfsJournalFlush (M : Mounts) (m : Nat) (c : State) : State :=
  let c := { c with pfsJournalBuf :=
    { c.pfsJournalBuf with checksum := pfsJournalChecksum c.pfsJournalBuf.toBlock } }
  writeHeader M m c

def pfsJournalReset (M : Mounts) (m : Nat) (c : State) : State := writeHeader M m { c with pfsJournalBuf := .reset }

def pfsJournalWrite (M : Mounts) (m : Nat) (c : State) : State :=
  pfsJournalFlush M m (writeLog M m (forDirty m journalEntry c))

/-! ### Buffers and blocks -/

/-- `pfsCacheTransfer` in write mode -/
def transferWrite (i : Nat) (c : State) : State :=
  { c.modify i fun b => { b with dirty := false } with
    disk := Function.update c.disk (c.pfsCacheBuf i).key (c.pfsCacheBuf i).data }

/-- `pfsCacheTransfer` in read mode, and whether the block is one of its type. -/
def transferRead (i : Nat) (c : State) : Bool × State :=
  let data := c.disk (c.pfsCacheBuf i).key
  let c := c.modify i fun b => { b with data := data, dirty := false }
  (checkBlock (c.pfsCacheBuf i).view == 0, { c with loaded := Function.update c.loaded i true })

def pfsCacheFlushAllDirty (M : Mounts) (m : Nat) (c : State) : State :=
  let found := (List.range' 1 c.pfsCacheNumBuffers).any (isDirtyOn m · c)
  let c := if found then forDirty m transferWrite (pfsJournalWrite M m c) else c
  pfsJournalReset M m c

/-- No buffer is without a reference. -/
def isFull (c : State) : Bool := c.prev 0 == 0 && c.next (c.prev 0) == c.prev 0

/-- The first buffer that holds the block. -/
def lookup (m sub block : Nat) (c : State) : Option Nat :=
  (List.range' 1 c.pfsCacheNumBuffers).find? fun i =>
    (c.pfsCacheBuf i).pfsMount != 0 && (c.pfsCacheBuf i).pfsMount == m && (c.pfsCacheBuf i).block == block &&
      (c.pfsCacheBuf i).sub == sub

/-- The first buffer of the ring is about to be given up: a mount with a dirty buffer there is flushed. -/
def evict (M : Mounts) (c : State) : State :=
  let allocated := c.pfsCacheBuf (c.next 0)
  if allocated.pfsMount ≠ 0 ∧ allocated.dirty = true then pfsCacheFlushAllDirty M allocated.pfsMount c else c

/-- `pfsCacheAlloc` behind the eviction: the buffer is given the block. -/
def take (m sub block : Nat) (type : UInt16) (i : Nat) (c : State) : State :=
  let c := c.modify i fun b =>
    { b with dirty := false, type := type, pfsMount := m, sub := sub, block := block, nused := 1 }
  pfsCacheUnLink i { c with loaded := Function.update c.loaded i false }

/-- `pfsCacheGetData`, where a buffer has the block. -/
def refer (type : UInt16) (i : Nat) (c : State) : State :=
  let c := c.modify i fun b => { b with type := type }
  let c := if (c.pfsCacheBuf i).nused = 0 then pfsCacheUnLink i c else c
  pfsCacheUsedAdd i c

/-- The block is not to be loaded. -/
def noload (flags : UInt16) : Bool := flags &&& PFS_CACHE_FLAG_NOLOAD != 0

def pfsCacheGetData (M : Mounts) (m sub block : Nat) (flags : UInt16) (c : State) : Option Nat × State :=
  match lookup m sub block c with
  | some i => (some i, refer (flags &&& PFS_CACHE_FLAG_MASKTYPE) i c)
  | none =>
    if isFull c then (none, c)
    else
      let i := c.next 0
      let c := take m sub block (flags &&& PFS_CACHE_FLAG_MASKTYPE) i (evict M c)
      if noload flags then (some i, c)
      else
        match transferRead i c with
        | (true, c) => (some i, c)
        | (false, c) => (none, pfsCacheFree i (c.modify i fun b => { b with pfsMount := 0 }))

def pfsCacheMarkClean (m subpart blockStart blockEnd : Nat) (c : State) : State :=
  { c with pfsCacheBuf := fun i =>
      let b := c.pfsCacheBuf i
      if 1 ≤ i ∧ i ≤ c.pfsCacheNumBuffers ∧ b.pfsMount = m ∧ b.sub = subpart ∧ blockStart ≤ b.block ∧ b.block < blockEnd then
        { b with dirty := false }
      else b }

/-- A zone is read and written to the place of another. -/
def copyZone (M : Mounts) (m : Nat) (subTo zoneTo subFrom zoneFrom : Nat) (c : State) : State :=
  let size := 2 ^ M.inode_scale m
  let put (disk : Key → Block) : Key → Block := fun k =>
    if k.1 = m ∧ k.2.1 = subTo ∧ zoneTo * size ≤ k.2.2 ∧ k.2.2 < zoneTo * size + size then
      c.disk (m, subFrom, k.2.2 - zoneTo * size + zoneFrom * size)
    else disk k
  { c with disk := put c.disk, stored := put c.stored }

def fsskCopyBlock (M : Mounts) (m : Nat) (sub₁ number₁ sub₂ number₂ : Nat) : (length : Nat) → State → State
  | 0, c => c
  | length + 1, c =>
    let c := fsskCopyBlock M m sub₁ number₁ sub₂ number₂ length c
    copyZone M m sub₁ (number₁ + length) sub₂ (number₂ + length) c

end State

open State

/-! ### Runs -/

/-- A call, and a modification of a buffer. -/
inductive Call
  | get (m sub block : Nat) (flags : UInt16)
  | modify (clink : Nat) (data : Block)
  | usedAdd (clink : Nat)
  | free (clink : Nat)
  | flush (m : Nat)
  | copy (m sub₁ number₁ sub₂ number₂ length : Nat)
  | markClean (m subpart blockStart blockEnd : Nat)

def exec (M : Mounts) : Call → State → State
  | .get m sub block flags, c => (pfsCacheGetData M m sub block flags c).2
  | .modify clink data, c => setData clink data c
  | .usedAdd clink, c => pfsCacheUsedAdd clink c
  | .free clink, c => pfsCacheFree clink c
  | .flush m, c => pfsCacheFlushAllDirty M m c
  | .copy m sub₁ number₁ sub₂ number₂ length, c => fsskCopyBlock M m sub₁ number₁ sub₂ number₂ length c
  | .markClean m subpart blockStart blockEnd, c => pfsCacheMarkClean m subpart blockStart blockEnd c

/-- The buffers, without the one that holds the ring. -/
def InCache (c : State) (i : Nat) : Prop := 1 ≤ i ∧ i ≤ c.pfsCacheNumBuffers

/-- Callers ask for blocks of a mount, work on buffers they have a reference to, and give back as many references as they have. No call fails but for want of a buffer. -/
def Allowed (M : Mounts) (c : State) : Call → Prop
  | .get m sub block flags => m ≠ 0 ∧ ((pfsCacheGetData M m sub block flags c).1 = none → isFull c = true)
  | .modify clink _ => InCache c clink ∧ 0 < (c.pfsCacheBuf clink).nused
  | .usedAdd clink => InCache c clink ∧ 0 < (c.pfsCacheBuf clink).nused
  | .free clink => InCache c clink ∧ 0 < (c.pfsCacheBuf clink).nused
  | _ => True

/-- A block of the log of its mount. -/
def InLog (M : Mounts) (c : State) (k : Key) : Prop :=
  k.2.1 = 0 ∧ M.logBlock k.1 ≤ k.2.2 ∧ k.2.2 ≤ M.logBlock k.1 + c.pfsCacheNumBuffers

/-- A block of the zones that are copied to. -/
def InTarget (M : Mounts) (m sub number length : Nat) (k : Key) : Prop :=
  k.1 = m ∧ k.2.1 = sub ∧ number * 2 ^ M.inode_scale m ≤ k.2.2 ∧ k.2.2 < (number + length) * 2 ^ M.inode_scale m

/-- A buffer with something of its block in it. -/
def Holds (c : State) (i : Nat) (k : Key) : Prop :=
  InCache c i ∧ (c.pfsCacheBuf i).pfsMount ≠ 0 ∧ (c.pfsCacheBuf i).key = k ∧ c.loaded i = true

/-- What the calls of a coherent run keep to. A block that is asked for is none of the log, and if a buffer has it that was not to be loaded, it has been filled in by then or is not to be loaded now; a buffer has less than 65535 references before it has one more; no buffer holds a block of the zones that are copied to; and no modification is dropped. -/
def Proper (M : Mounts) (c : State) : Call → Prop
  | .get m sub block flags => ¬ InLog M c (m, sub, block) ∧
      ∀ i, lookup m sub block c = some i → (c.pfsCacheBuf i).nused < 65535 ∧ (noload flags = true ∨ c.loaded i = true)
  | .usedAdd clink => (c.pfsCacheBuf clink).nused < 65535
  | .copy m sub number _ _ length => ∀ i k, Holds c i k → ¬ InTarget M m sub number length k
  | .markClean m sub first last => ∀ i, InCache c i → (c.pfsCacheBuf i).pfsMount = m → (c.pfsCacheBuf i).sub = sub →
      first ≤ (c.pfsCacheBuf i).block → (c.pfsCacheBuf i).block < last → (c.pfsCacheBuf i).dirty = false
  | _ => True

/-- What sequences of allowed calls with the property `P` reach. -/
inductive Reaches (M : Mounts) (P : State → Call → Prop) (c₀ : State) : State → Prop
  | refl : Reaches M P c₀ c₀
  | step {c : State} {call : Call} : Reaches M P c₀ c → Allowed M c call → P c call → Reaches M P c₀ (exec M call c)

/-- The buffers `l` are the ring, in this order. -/
def Ring (c : State) (l : List Nat) : Prop := FreeRing c.next c.prev 0 l

/-- The ring has the buffers nobody refers to. -/
structure Idle (c : State) (l : List Nat) : Prop where
  ring : Ring c l
  mem_iff : ∀ i, i ∈ l ↔ InCache c i ∧ (c.pfsCacheBuf i).nused = 0

/-- The cache is coherent for calls with the property `P`. -/
structure Coherent (M : Mounts) (P : State → Call → Prop) (c : State) : Prop where
  /-- No block is held by two buffers. -/
  unique : ∀ i j, InCache c i → InCache c j → (c.pfsCacheBuf i).pfsMount ≠ 0 →
    (c.pfsCacheBuf j).key = (c.pfsCacheBuf i).key → j = i
  /-- The ring has each buffer without a reference, once, and no other. -/
  ring : ∃ l, Idle c l
  /-- A dirty buffer that a call gives to another block has been written. -/
  written : ∀ call i, Allowed M c call → P c call → InCache c i → (c.pfsCacheBuf i).dirty = true →
    ((exec M call c).pfsCacheBuf i).key ≠ (c.pfsCacheBuf i).key →
    (exec M call c).disk (c.pfsCacheBuf i).key = (exec M call c).stored (c.pfsCacheBuf i).key
  /-- A block that is to be loaded has the contents that were stored last. -/
  read : ∀ m sub block flags i c', m ≠ 0 → noload flags = false → P c (.get m sub block flags) →
    pfsCacheGetData M m sub block flags c = (some i, c') → (c'.pfsCacheBuf i).data = c.stored (m, sub, block)

variable {M : Mounts} {c c' c'' : State} {i x m : Nat} {l : List Nat} {P : State → Call → Prop}

/-! ### The ring -/

@[simp] theorem modify_self (c : State) (i : Nat) (f : pfs_cache_t → pfs_cache_t) :
    (c.modify i f).pfsCacheBuf i = f (c.pfsCacheBuf i) := Function.update_self ..

theorem modify_of_ne (c : State) {i j : Nat} (f : pfs_cache_t → pfs_cache_t) (h : j ≠ i) :
    (c.modify i f).pfsCacheBuf j = c.pfsCacheBuf j := Function.update_of_ne h _ _

theorem inCache_of_size (h : c'.pfsCacheNumBuffers = c.pfsCacheNumBuffers) : InCache c' i ↔ InCache c i := by
  unfold InCache
  rw [h]

theorem inLog_of_size {k : Key} (h : c'.pfsCacheNumBuffers = c.pfsCacheNumBuffers) : InLog M c' k ↔ InLog M c k := by
  unfold InLog
  rw [h]

theorem key_modify (c : State) (f : pfs_cache_t → pfs_cache_t) (hkey : (f (c.pfsCacheBuf i)).key = (c.pfsCacheBuf i).key)
    (j : Nat) : ((c.modify i f).pfsCacheBuf j).key = (c.pfsCacheBuf j).key := by
  by_cases hj : j = i
  · subst hj
    rw [modify_self]
    exact hkey
  · rw [modify_of_ne c f hj]

theorem link_links (c : State) {p i : Nat} (hne : p ≠ i) (j : Nat) :
    (pfsCacheLink p i c).next j = (if j = p then i else if j = i then c.next p else c.next j) ∧
      (pfsCacheLink p i c).prev j = if j = c.next p then i else if j = i then p else c.prev j := by
  unfold pfsCacheLink
  simp only [Function.update_apply, if_neg hne]
  exact ⟨trivial, trivial⟩

theorem unlink_links (c : State) (i j : Nat) :
    (pfsCacheUnLink i c).next j = (if j = c.prev i then c.next i else c.next j) ∧
      (pfsCacheUnLink i c).prev j = if j = c.next i then c.prev i else c.prev j := by
  have hself : Function.update c.next (c.prev i) (c.next i) i = c.next i := by
    rw [Function.update_apply]
    split <;> rfl
  unfold pfsCacheUnLink
  simp only [hself, Function.update_apply]
  exact ⟨trivial, trivial⟩

theorem Ring.unlink (h : Ring c l) (hi : i ∈ l) : Ring (pfsCacheUnLink i c) (l.erase i) :=
  FreeRing.erase h hi (fun j => (unlink_links c i j).1) fun j => (unlink_links c i j).2

theorem Ring.append (h : Ring c l) (hi : i ∉ 0 :: l) : Ring (pfsCacheLink (c.prev 0) i c) (l ++ [i]) := by
  have hne : c.prev 0 ≠ i := fun heq => hi (heq ▸ h.path.last_mem)
  exact FreeRing.append h hi (fun j => (link_links c hne j).1) fun j => (link_links c hne j).2

theorem Ring.of_not_full (h : Ring c l) (hfull : isFull c = false) : c.next 0 ∈ l := by
  cases l with
  | nil =>
    obtain ⟨hnext, hprev⟩ := h.path
    rw [isFull, hprev, hnext] at hfull
    cases hfull
  | cons x l =>
    rw [h.next_root]
    exact List.mem_cons_self

theorem Idle.not_root (h : Idle c l) (hin : InCache c i) (hused : (c.pfsCacheBuf i).nused ≠ 0) : i ∉ 0 :: l := by
  rw [List.mem_cons, not_or, h.mem_iff]
  obtain ⟨hlow, -⟩ := hin
  exact ⟨by omega, fun hfree => hused hfree.2⟩

theorem Idle.leave (h : Idle c l) (hx : x ∈ l) (hring : Ring c' (l.erase x))
    (hsize : c'.pfsCacheNumBuffers = c.pfsCacheNumBuffers) (hused : (c'.pfsCacheBuf x).nused ≠ 0)
    (hother : ∀ j, j ≠ x → (c'.pfsCacheBuf j).nused = (c.pfsCacheBuf j).nused) : Idle c' (l.erase x) := by
  refine ⟨hring, fun j => ?_⟩
  have hnodup := (List.nodup_cons.mp h.ring.nodup).2
  rw [hnodup.mem_erase_iff, h.mem_iff, inCache_of_size hsize]
  by_cases hjx : j = x
  · subst hjx
    simp [hused]
  · rw [hother j hjx]
    simp [hjx]

theorem Idle.enter {m : List Nat} (h : Idle c l) (hx : InCache c x) (hring : Ring c' m)
    (hsize : c'.pfsCacheNumBuffers = c.pfsCacheNumBuffers) (hm : ∀ j, j ∈ m ↔ j = x ∨ j ∈ l) (hused : (c'.pfsCacheBuf x).nused = 0)
    (hother : ∀ j, j ≠ x → (c'.pfsCacheBuf j).nused = (c.pfsCacheBuf j).nused) : Idle c' m := by
  refine ⟨hring, fun j => ?_⟩
  rw [hm, h.mem_iff, inCache_of_size hsize]
  by_cases hjx : j = x
  · subst hjx
    simp [hused, hx]
  · rw [hother j hjx]
    simp [hjx]

theorem Idle.stay (h : Idle c l) (hsize : c'.pfsCacheNumBuffers = c.pfsCacheNumBuffers) (hnext : c'.next = c.next)
    (hprev : c'.prev = c.prev) (hused : ∀ j, (c'.pfsCacheBuf j).nused = 0 ↔ (c.pfsCacheBuf j).nused = 0) : Idle c' l := by
  refine ⟨FreeRing.congr h.ring (congrFun hnext) (congrFun hprev), fun j => ?_⟩
  rw [h.mem_iff, hused, inCache_of_size hsize]

theorem Idle.modify (h : Idle c l) {f : pfs_cache_t → pfs_cache_t}
    (hused : (f (c.pfsCacheBuf i)).nused = 0 ↔ (c.pfsCacheBuf i).nused = 0) : Idle (c.modify i f) l := by
  refine h.stay rfl rfl rfl fun j => ?_
  by_cases hj : j = i
  · subst hj
    rw [modify_self]
    exact hused
  · rw [modify_of_ne c f hj]

/-! ### Contents -/

/-- Each block is in one buffer at most, and in none if it is of the log. A buffer that holds something of its block holds what was stored there last, and so does the disk unless the buffer is dirty. -/
structure Content (M : Mounts) (c : State) : Prop where
  unique : ∀ i j, InCache c i → InCache c j → (c.pfsCacheBuf i).pfsMount ≠ 0 →
    (c.pfsCacheBuf j).key = (c.pfsCacheBuf i).key → j = i
  placed : ∀ i, InCache c i → (c.pfsCacheBuf i).pfsMount ≠ 0 → ¬ InLog M c (c.pfsCacheBuf i).key
  referenced : ∀ i, InCache c i → (c.pfsCacheBuf i).nused ≠ 0 → (c.pfsCacheBuf i).pfsMount ≠ 0
  dirty : ∀ i, InCache c i → (c.pfsCacheBuf i).dirty = true → (c.pfsCacheBuf i).pfsMount ≠ 0 ∧ c.loaded i = true
  held : ∀ i k, Holds c i k → (c.pfsCacheBuf i).data = c.stored k
  clean : ∀ k, ¬ InLog M c k → (∀ i, InCache c i → (c.pfsCacheBuf i).key = k → (c.pfsCacheBuf i).dirty = false) →
    c.disk k = c.stored k

theorem Content.link (h : Content M c) (p i : Nat) : Content M (pfsCacheLink p i c) :=
  ⟨h.unique, h.placed, h.referenced, h.dirty, h.held, h.clean⟩

theorem Content.unlink (h : Content M c) (i : Nat) : Content M (pfsCacheUnLink i c) :=
  ⟨h.unique, h.placed, h.referenced, h.dirty, h.held, h.clean⟩

theorem Content.of_disk (h : Content M c) (j : pfs_journal_t) (disk : Key → Block)
    (hdisk : ∀ k, ¬ InLog M c k → disk k = c.disk k) : Content M { c with pfsJournalBuf := j, disk := disk } :=
  ⟨h.unique, h.placed, h.referenced, h.dirty, h.held, fun k hk hclean => (hdisk k hk).trans (h.clean k hk hclean)⟩

theorem Content.of_key (h : Content M c) (hsize : c'.pfsCacheNumBuffers = c.pfsCacheNumBuffers)
    (hkey : ∀ j, (c'.pfsCacheBuf j).key = (c.pfsCacheBuf j).key)
    (hreferenced : ∀ j, InCache c j → (c'.pfsCacheBuf j).nused ≠ 0 → (c.pfsCacheBuf j).pfsMount ≠ 0)
    (hdirty : ∀ j, InCache c j → (c'.pfsCacheBuf j).dirty = true → (c.pfsCacheBuf j).pfsMount ≠ 0 ∧ c'.loaded j = true)
    (hheld : ∀ j, InCache c j → (c.pfsCacheBuf j).pfsMount ≠ 0 → c'.loaded j = true →
      (c'.pfsCacheBuf j).data = c'.stored (c.pfsCacheBuf j).key)
    (hclean : ∀ k, ¬ InLog M c k → (∀ j, InCache c j → (c.pfsCacheBuf j).key = k → (c'.pfsCacheBuf j).dirty = false) →
      c'.disk k = c'.stored k) : Content M c' := by
  have hmount : ∀ j, (c'.pfsCacheBuf j).pfsMount = (c.pfsCacheBuf j).pfsMount := fun j => congrArg Prod.fst (hkey j)
  have hcache : ∀ j, InCache c' j ↔ InCache c j := fun _ => inCache_of_size hsize
  have hlog : ∀ k, InLog M c' k ↔ InLog M c k := fun _ => inLog_of_size hsize
  constructor
  case unique =>
    intro i j hi hj hne heq
    rw [hkey, hkey] at heq
    rw [hmount] at hne
    exact h.unique i j ((hcache i).mp hi) ((hcache j).mp hj) hne heq
  case placed =>
    intro j hj hne
    rw [hmount] at hne
    rw [hkey, hlog]
    exact h.placed j ((hcache j).mp hj) hne
  case referenced =>
    intro j hj hne
    rw [hmount]
    exact hreferenced j ((hcache j).mp hj) hne
  case dirty =>
    intro j hj hd
    rw [hmount]
    exact hdirty j ((hcache j).mp hj) hd
  case held =>
    rintro j k ⟨hj, hne, rfl, hloaded⟩
    rw [hmount] at hne
    rw [hkey]
    exact hheld j ((hcache j).mp hj) hne hloaded
  case clean =>
    intro k hk hd
    rw [hlog] at hk
    apply hclean k hk
    intro j hj heq
    exact hd j ((hcache j).mpr hj) ((hkey j).trans heq)

theorem Content.relabel (h : Content M c) (f : pfs_cache_t → pfs_cache_t) (hkey : ∀ b, (f b).key = b.key)
    (hdirty : ∀ b, (f b).dirty = b.dirty) (hdata : ∀ b, (f b).data = b.data)
    (hused : InCache c i → (f (c.pfsCacheBuf i)).nused ≠ 0 → (c.pfsCacheBuf i).pfsMount ≠ 0) : Content M (c.modify i f) := by
  have hsame : ∀ j, ((c.modify i f).pfsCacheBuf j).dirty = (c.pfsCacheBuf j).dirty ∧
      ((c.modify i f).pfsCacheBuf j).data = (c.pfsCacheBuf j).data := by
    intro j
    by_cases hj : j = i
    · subst hj
      rw [modify_self]
      exact ⟨hdirty _, hdata _⟩
    · rw [modify_of_ne c f hj]
      exact ⟨rfl, rfl⟩
  refine h.of_key rfl (key_modify c f (hkey _)) ?_ ?_ ?_ ?_
  · intro j hj hne
    by_cases hji : j = i
    · subst hji
      rw [modify_self] at hne
      exact hused hj hne
    · rw [modify_of_ne c f hji] at hne
      exact h.referenced j hj hne
  · intro j hj hd
    rw [(hsame j).1] at hd
    exact h.dirty j hj hd
  · intro j hj hne hloaded
    rw [(hsame j).2]
    exact h.held j _ ⟨hj, hne, rfl, hloaded⟩
  · intro k hk hclean
    apply h.clean k hk
    intro j hj heq
    rw [← (hsame j).1]
    exact hclean j hj heq

/-- Contents are stored in a block through its buffer. -/
theorem Content.setData (h : Content M c) (hin : InCache c i) (hmount : (c.pfsCacheBuf i).pfsMount ≠ 0) (data : Block) :
    Content M (State.setData i data c) := by
  have hself : (State.setData i data c).pfsCacheBuf i = { c.pfsCacheBuf i with data := data, dirty := true } :=
    Function.update_self ..
  have hother : ∀ j, j ≠ i → (State.setData i data c).pfsCacheBuf j = c.pfsCacheBuf j := fun j hj =>
    Function.update_of_ne hj _ _
  have hloaded : ∀ j, j ≠ i → (State.setData i data c).loaded j = c.loaded j := fun j hj => Function.update_of_ne hj _ _
  have hstored : ∀ k, (State.setData i data c).stored k = if k = (c.pfsCacheBuf i).key then data else c.stored k :=
    fun k => Function.update_apply ..
  refine h.of_key rfl (key_modify c (fun b => { b with data := data, dirty := true }) rfl) ?_ ?_ ?_ ?_
  · intro j hj hne
    by_cases hji : j = i
    · rw [hji]
      exact hmount
    · rw [hother j hji] at hne
      exact h.referenced j hj hne
  · intro j hj hd
    by_cases hji : j = i
    · subst hji
      exact ⟨hmount, Function.update_self ..⟩
    · rw [hother j hji] at hd
      rw [hloaded j hji]
      exact h.dirty j hj hd
  · intro j hj hne hl
    by_cases hji : j = i
    · subst hji
      rw [hself, hstored, if_pos rfl]
    · rw [hloaded j hji] at hl
      have hdiff : (c.pfsCacheBuf j).key ≠ (c.pfsCacheBuf i).key := fun heq => hji (h.unique i j hin hj hmount heq)
      rw [hother j hji, hstored, if_neg hdiff]
      exact h.held j _ ⟨hj, hne, rfl, hl⟩
  · intro k hk hclean
    have hdiff : k ≠ (c.pfsCacheBuf i).key := by
      rintro rfl
      have hdirty := hclean i hin rfl
      rw [hself] at hdirty
      cases hdirty
    rw [hstored, if_neg hdiff]
    apply h.clean k hk
    intro j hj heq
    have hji : j ≠ i := fun hji => hdiff (hji ▸ heq.symm)
    rw [← hother j hji]
    exact hclean j hj heq

/-- A dirty buffer is written. -/
theorem Content.transferWrite (h : Content M c) (hin : InCache c i) (hdirty : (c.pfsCacheBuf i).dirty = true) :
    Content M (State.transferWrite i c) := by
  obtain ⟨hmount, hloaded⟩ := h.dirty i hin hdirty
  have hself : (State.transferWrite i c).pfsCacheBuf i = { c.pfsCacheBuf i with dirty := false } := Function.update_self ..
  have hother : ∀ j, j ≠ i → (State.transferWrite i c).pfsCacheBuf j = c.pfsCacheBuf j := fun j hj =>
    Function.update_of_ne hj _ _
  have hsame : ∀ j, ((State.transferWrite i c).pfsCacheBuf j).data = (c.pfsCacheBuf j).data ∧
      ((State.transferWrite i c).pfsCacheBuf j).nused = (c.pfsCacheBuf j).nused := by
    intro j
    by_cases hj : j = i
    · rw [hj, hself]
      exact ⟨rfl, rfl⟩
    · rw [hother j hj]
      exact ⟨rfl, rfl⟩
  refine h.of_key rfl (key_modify c (fun b => { b with dirty := false }) rfl) ?_ ?_ ?_ ?_
  · intro j hj hne
    rw [(hsame j).2] at hne
    exact h.referenced j hj hne
  · intro j hj hd
    by_cases hji : j = i
    · rw [hji, hself] at hd
      cases hd
    · rw [hother j hji] at hd
      exact h.dirty j hj hd
  · intro j hj hne hl
    rw [(hsame j).1]
    exact h.held j _ ⟨hj, hne, rfl, hl⟩
  · intro k hk hclean
    by_cases heq : k = (c.pfsCacheBuf i).key
    · subst heq
      refine (Function.update_self ..).trans ?_
      exact h.held i _ ⟨hin, hmount, rfl, hloaded⟩
    · refine (Function.update_of_ne heq _ _).trans ?_
      apply h.clean k hk
      intro j hj hjk
      have hji : j ≠ i := fun hji => heq (hji ▸ hjk.symm)
      rw [← hother j hji]
      exact hclean j hj hjk

/-- A buffer that is not dirty comes to be `b`, with nothing of its block in it or what is on the disk. -/
theorem Content.reassign (h : Content M c) (hin : InCache c x) (hdirty : (c.pfsCacheBuf x).dirty = false)
    {b : pfs_cache_t} {v : Bool} (hclean : b.dirty = false) (hused : b.nused ≠ 0 → b.pfsMount ≠ 0)
    (hfree : b.pfsMount ≠ 0 → ∀ j, InCache c j → (c.pfsCacheBuf j).pfsMount ≠ 0 → (c.pfsCacheBuf j).key = b.key → j = x)
    (hplaced : b.pfsMount ≠ 0 → ¬ InLog M c b.key) (hdata : b.pfsMount ≠ 0 → v = true → b.data = c.disk b.key) :
    Content M { c with pfsCacheBuf := Function.update c.pfsCacheBuf x b, loaded := Function.update c.loaded x v } := by
  obtain ⟨c', hc'⟩ : ∃ c' : State, c' = { c with
    pfsCacheBuf := Function.update c.pfsCacheBuf x b, loaded := Function.update c.loaded x v } := ⟨_, rfl⟩
  have hself : c'.pfsCacheBuf x = b := hc' ▸ Function.update_self ..
  have hother : ∀ j, j ≠ x → c'.pfsCacheBuf j = c.pfsCacheBuf j := fun j hj => hc' ▸ Function.update_of_ne hj _ _
  have hsize : c'.pfsCacheNumBuffers = c.pfsCacheNumBuffers := hc' ▸ rfl
  have hcache : ∀ j, InCache c' j ↔ InCache c j := fun _ => inCache_of_size hsize
  have hlog : ∀ k, InLog M c' k ↔ InLog M c k := fun _ => inLog_of_size hsize
  have hstored : ∀ k, c'.stored k = c.stored k := fun k => hc' ▸ rfl
  have hdisk : ∀ k, c'.disk k = c.disk k := fun k => hc' ▸ rfl
  rw [← hc']
  -- where no other buffer has the block, the disk has what was stored
  have hold : ∀ k, ¬ InLog M c k → (∀ j, j ≠ x → InCache c j → (c.pfsCacheBuf j).key = k → (c.pfsCacheBuf j).dirty = false) →
      c.disk k = c.stored k := by
    intro k hk hclean
    apply h.clean k hk
    intro j hj heq
    by_cases hjx : j = x
    · rw [hjx]
      exact hdirty
    · exact hclean j hjx hj heq
  constructor
  case unique =>
    intro j k hj hk hne heq
    rw [hcache] at hj hk
    by_cases hjx : j = x
    · subst hjx
      by_contra hkj
      rw [hself] at hne heq
      rw [hother k hkj] at heq
      have hmount : (c.pfsCacheBuf k).pfsMount = b.pfsMount := congrArg Prod.fst heq
      exact hkj (hfree hne k hk (hmount ▸ hne) heq)
    · rw [hother j hjx] at hne heq
      by_cases hkx : k = x
      · subst hkx
        rw [hself] at heq
        have hmount : b.pfsMount = (c.pfsCacheBuf j).pfsMount := congrArg Prod.fst heq
        exact absurd (hfree (hmount ▸ hne) j hj hne heq.symm) hjx
      · rw [hother k hkx] at heq
        exact h.unique j k hj hk hne heq
  case placed =>
    intro j hj hne
    rw [hcache] at hj
    rw [hlog]
    by_cases hjx : j = x
    · rw [hjx, hself] at hne ⊢
      exact hplaced hne
    · rw [hother j hjx] at hne ⊢
      exact h.placed j hj hne
  case referenced =>
    intro j hj hne
    rw [hcache] at hj
    by_cases hjx : j = x
    · rw [hjx, hself] at hne ⊢
      exact hused hne
    · rw [hother j hjx] at hne ⊢
      exact h.referenced j hj hne
  case dirty =>
    intro j hj hd
    rw [hcache] at hj
    by_cases hjx : j = x
    · rw [hjx, hself, hclean] at hd
      cases hd
    · rw [hother j hjx] at hd ⊢
      have hloaded : c'.loaded j = c.loaded j := hc' ▸ Function.update_of_ne hjx _ _
      rw [hloaded]
      exact h.dirty j hj hd
  case held =>
    rintro j k ⟨hj, hne, rfl, hl⟩
    rw [hcache] at hj
    rw [hstored]
    by_cases hjx : j = x
    · subst hjx
      have hloaded : c'.loaded j = v := hc' ▸ Function.update_self ..
      rw [hself] at hne ⊢
      rw [hdata hne (hloaded.symm.trans hl)]
      apply hold _ (hplaced hne)
      intro i hij hi heq
      have hmount : (c.pfsCacheBuf i).pfsMount = b.pfsMount := congrArg Prod.fst heq
      exact absurd (hfree hne i hi (hmount ▸ hne) heq) hij
    · have hloaded : c'.loaded j = c.loaded j := hc' ▸ Function.update_of_ne hjx _ _
      rw [hother j hjx] at hne ⊢
      exact h.held j _ ⟨hj, hne, rfl, hloaded.symm.trans hl⟩
  case clean =>
    intro k hk hclean'
    rw [hlog] at hk
    rw [hdisk, hstored]
    apply hold k hk
    intro j hjx hj heq
    have hj' := hclean' j ((hcache j).mpr hj)
    rw [hother j hjx] at hj'
    exact hj' heq

/-! ### Flushes -/

/-- What a flush leaves as it is: the ring, the blocks the buffers have and their use counts. No buffer becomes dirty, and nothing is stored in a block that no buffer has. -/
structure Steady (c c' : State) : Prop where
  size : c'.pfsCacheNumBuffers = c.pfsCacheNumBuffers
  next : c'.next = c.next
  prev : c'.prev = c.prev
  key : ∀ i, (c'.pfsCacheBuf i).key = (c.pfsCacheBuf i).key
  nused : ∀ i, (c'.pfsCacheBuf i).nused = (c.pfsCacheBuf i).nused
  dirty : ∀ i, (c'.pfsCacheBuf i).dirty = true → (c.pfsCacheBuf i).dirty = true
  stored : ∀ k, (∀ i, InCache c i → (c.pfsCacheBuf i).key ≠ k) → c'.stored k = c.stored k

theorem Steady.refl (c : State) : Steady c c :=
  ⟨rfl, rfl, rfl, fun _ => rfl, fun _ => rfl, fun _ h => h, fun _ _ => rfl⟩

theorem Steady.trans (h : Steady c c') (h' : Steady c' c'') : Steady c c'' where
  size := h'.size.trans h.size
  next := h'.next.trans h.next
  prev := h'.prev.trans h.prev
  key i := (h'.key i).trans (h.key i)
  nused i := (h'.nused i).trans (h.nused i)
  dirty i hd := h.dirty i (h'.dirty i hd)
  stored k hk := by
    refine (h'.stored k fun i hi => ?_).trans (h.stored k hk)
    rw [h.key]
    exact hk i ((inCache_of_size h.size).mp hi)

theorem Steady.mount (h : Steady c c') (i : Nat) : (c'.pfsCacheBuf i).pfsMount = (c.pfsCacheBuf i).pfsMount :=
  congrArg Prod.fst (h.key i)

theorem Steady.isDirtyOn (h : Steady c c') (hclean : State.isDirtyOn m i c = false) : State.isDirtyOn m i c' = false := by
  unfold State.isDirtyOn at hclean ⊢
  rw [h.mount]
  rw [Bool.and_eq_false_iff] at hclean ⊢
  apply hclean.imp_left
  intro hd
  cases hd' : (c'.pfsCacheBuf i).dirty with
  | false => rfl
  | true => exact absurd (h.dirty i hd') (by rw [hd]; decide)

theorem Steady.inCache (h : Steady c c') : InCache c' i ↔ InCache c i := inCache_of_size h.size

theorem Steady.idle (h : Steady c c') (hl : Idle c l) : Idle c' l :=
  hl.stay h.size h.next h.prev fun j => by rw [h.nused]

theorem steady_of_disk (j : pfs_journal_t) (disk : Key → Block) (c : State) :
    Steady c { c with pfsJournalBuf := j, disk := disk } :=
  ⟨rfl, rfl, rfl, fun _ => rfl, fun _ => rfl, fun _ h => h, fun _ _ => rfl⟩

private theorem steady_setData (hin : InCache c i) (hdirty : (c.pfsCacheBuf i).dirty = true) (data : Block) :
    Steady c (setData i data c) := by
  have hbuf : ∀ j, (setData i data c).pfsCacheBuf j = c.pfsCacheBuf j ∨
      j = i ∧ (setData i data c).pfsCacheBuf j = { c.pfsCacheBuf j with data := data, dirty := true } := by
    intro j
    by_cases hj : j = i
    · subst hj
      exact .inr ⟨rfl, Function.update_self ..⟩
    · exact .inl (Function.update_of_ne hj _ _)
  refine ⟨rfl, rfl, rfl, fun j => ?_, fun j => ?_, fun j hd => ?_, fun k hk => ?_⟩
  · obtain h | ⟨-, h⟩ := hbuf j
    · rw [h]
    · rw [h]
      rfl
  · obtain h | ⟨-, h⟩ := hbuf j <;> rw [h]
  · rcases hbuf j with h | ⟨rfl, -⟩
    · rwa [h] at hd
    · exact hdirty
  · exact Function.update_of_ne (fun heq => hk i hin heq.symm) _ _

theorem steady_transferWrite (i : Nat) (c : State) : Steady c (transferWrite i c) := by
  have hbuf : ∀ j, (transferWrite i c).pfsCacheBuf j = c.pfsCacheBuf j ∨
      (transferWrite i c).pfsCacheBuf j = { c.pfsCacheBuf j with dirty := false } := by
    intro j
    by_cases hj : j = i
    · subst hj
      exact .inr (Function.update_self ..)
    · exact .inl (Function.update_of_ne hj _ _)
  refine ⟨rfl, rfl, rfl, fun j => ?_, fun j => ?_, fun j hd => ?_, fun _ _ => rfl⟩
  · rcases hbuf j with h | h <;> rw [h]
    rfl
  · rcases hbuf j with h | h <;> rw [h]
  · rcases hbuf j with h | h <;> rw [h] at hd
    · exact hd
    · cases hd

structure Flushes (M : Mounts) (c₀ c : State) : Prop where
  content : Content M c
  steady : Steady c₀ c

theorem inCache_of_mem (h : i ∈ List.range' 1 c.pfsCacheNumBuffers) : InCache c i := by
  have := List.mem_range'_1.mp h
  exact ⟨this.1, by omega⟩

/-- A loop over the dirty buffers of a mount keeps what each of its passes keeps. -/
theorem Flushes.forDirty {f : Nat → State → State}
    (hf : ∀ i c, Content M c → InCache c i → (c.pfsCacheBuf i).dirty = true → Flushes M c (f i c)) (m : Nat)
    (h : Content M c) : Flushes M c (State.forDirty m f c) := by
  suffices hloop : ∀ L : List Nat, (∀ i ∈ L, InCache c i) → ∀ d, Flushes M c d →
      Flushes M c (L.foldl (fun c i => if isDirtyOn m i c then f i c else c) d) from
    hloop _ (fun i hi => inCache_of_mem hi) c ⟨h, Steady.refl c⟩
  intro L
  induction L with
  | nil => exact fun _ d hd => hd
  | cons i L ih =>
    intro hL d hd
    rw [List.foldl_cons]
    apply ih fun j hj => hL j (List.mem_cons_of_mem _ hj)
    split
    · rename_i hdirty
      have hstep := hf i d hd.content (hd.steady.inCache.mpr (hL i List.mem_cons_self)) (Bool.and_eq_true_iff.mp hdirty).1
      exact ⟨hstep.content, hd.steady.trans hstep.steady⟩
    · exact hd

private theorem journalEntry_flushes (h : Content M c) (hin : InCache c i) (hdirty : (c.pfsCacheBuf i).dirty = true) :
    Flushes M c (journalEntry i c) := by
  have hpush : ∀ d j, Flushes M c d → Flushes M c { d with pfsJournalBuf := j } := fun d j hd =>
    ⟨hd.content.of_disk j d.disk fun _ _ => rfl, hd.steady.trans (steady_of_disk j d.disk d)⟩
  unfold journalEntry
  apply hpush
  split
  · exact ⟨h.setData hin (h.dirty i hin hdirty).1 _, steady_setData hin hdirty _⟩
  · exact ⟨h, Steady.refl c⟩

theorem Flushes.writeHeader (h : Flushes M c c') (m : Nat) (j : pfs_journal_t) :
    Flushes M c (State.writeHeader M m { c' with pfsJournalBuf := j }) := by
  refine ⟨h.content.of_disk j _ fun k hk => ?_, h.steady.trans (steady_of_disk j _ c')⟩
  refine Function.update_of_ne ?_ _ _
  rintro rfl
  exact hk ⟨rfl, le_refl _, Nat.le_add_right _ _⟩

theorem Flushes.writeLog (h : Flushes M c c') (m : Nat) : Flushes M c (State.writeLog M m c') := by
  refine ⟨h.content.of_disk c'.pfsJournalBuf _ fun k hk => ?_, h.steady.trans (steady_of_disk c'.pfsJournalBuf _ c')⟩
  refine if_neg ?_
  rintro ⟨rfl, hsub, hlow, hhigh⟩
  exact hk ⟨hsub, le_of_lt hlow, hhigh⟩

private theorem pfsJournalWrite_flushes (h : Content M c) (m : Nat) : Flushes M c (pfsJournalWrite M m c) :=
  ((Flushes.forDirty (fun _ _ => journalEntry_flushes) m h).writeLog m).writeHeader m _

private theorem transferLoop_clean (m : Nat) (L : List Nat) (hi : i ∈ L ∨ isDirtyOn m i c = false) :
    isDirtyOn m i (L.foldl (fun c i => if isDirtyOn m i c then transferWrite i c else c) c) = false := by
  induction L generalizing c with
  | nil => exact hi.resolve_left List.not_mem_nil
  | cons j L ih =>
    rw [List.foldl_cons]
    have hsteady : Steady c (if isDirtyOn m j c then transferWrite j c else c) := by
      split
      · exact steady_transferWrite j c
      · exact Steady.refl c
    apply ih
    by_cases hij : i = j
    · subst hij
      right
      split
      · have hself : (transferWrite i c).pfsCacheBuf i = { c.pfsCacheBuf i with dirty := false } := Function.update_self ..
        unfold isDirtyOn
        rw [hself]
        rfl
      · rename_i hclean
        exact Bool.not_eq_true _ ▸ hclean
    · exact hi.imp (fun hmem => (List.mem_cons.mp hmem).resolve_left hij) hsteady.isDirtyOn

/-- A flush keeps what holds, and no buffer of the mount is dirty behind it. -/
theorem flush_spec (h : Content M c) (m : Nat) : Flushes M c (pfsCacheFlushAllDirty M m c) ∧
    ∀ i, InCache c i → isDirtyOn m i (pfsCacheFlushAllDirty M m c) = false := by
  obtain ⟨d, hd⟩ : ∃ d, d = if (List.range' 1 c.pfsCacheNumBuffers).any (isDirtyOn m · c) then
    State.forDirty m transferWrite (pfsJournalWrite M m c) else c := ⟨_, rfl⟩
  have hflush : pfsCacheFlushAllDirty M m c = pfsJournalReset M m d := by rw [hd]; rfl
  have hmiddle : Flushes M c d ∧ ∀ i, InCache c i → isDirtyOn m i d = false := by
    rw [hd]
    split
    · have hlog := pfsJournalWrite_flushes h m
      have hwrite := Flushes.forDirty (f := transferWrite)
        (fun i c hc hin hdirty => ⟨hc.transferWrite hin hdirty, steady_transferWrite i c⟩) m hlog.content
      refine ⟨⟨hwrite.content, hlog.steady.trans hwrite.steady⟩, fun i hi => ?_⟩
      apply transferLoop_clean
      left
      rw [hlog.steady.size]
      exact List.mem_range'_1.mpr ⟨hi.1, by have := hi.2; omega⟩
    · rename_i hnone
      refine ⟨⟨h, Steady.refl c⟩, fun i hi => ?_⟩
      rw [Bool.not_eq_true, List.any_eq_false] at hnone
      exact Bool.not_eq_true _ ▸ hnone i (List.mem_range'_1.mpr ⟨hi.1, by have := hi.2; omega⟩)
  rw [hflush]
  exact ⟨hmiddle.1.writeHeader m .reset, hmiddle.2⟩

theorem evict_spec (h : Content M c) (hin : InCache c (c.next 0)) :
    Flushes M c (evict M c) ∧ ((evict M c).pfsCacheBuf (c.next 0)).dirty = false := by
  unfold evict
  simp only
  split
  · obtain ⟨hflushes, hclean⟩ := flush_spec h (c.pfsCacheBuf (c.next 0)).pfsMount
    refine ⟨hflushes, ?_⟩
    have hx := hclean _ hin
    unfold isDirtyOn at hx
    rw [hflushes.steady.mount, beq_self_eq_true, Bool.and_true] at hx
    exact hx
  · rename_i hnot
    refine ⟨⟨h, Steady.refl c⟩, ?_⟩
    cases hd : (c.pfsCacheBuf (c.next 0)).dirty with
    | false => rfl
    | true => exact absurd ⟨(h.dirty _ hin hd).1, hd⟩ hnot

/-! ### Calls -/

structure Inv (M : Mounts) (c : State) : Prop where
  content : Content M c
  idle : ∃ l, Idle c l

/-- What a call keeps that gives no buffer but `x` to another block. -/
structure Keeps (M : Mounts) (x : Nat) (c c' : State) : Prop where
  inv : Inv M c'
  size : c'.pfsCacheNumBuffers = c.pfsCacheNumBuffers
  key : ∀ j, j ≠ x → (c'.pfsCacheBuf j).key = (c.pfsCacheBuf j).key

theorem Inv.refl (h : Inv M c) : Keeps M x c c := ⟨h, rfl, fun _ _ => rfl⟩

theorem Keeps.trans (h : Keeps M x c c') (h' : Keeps M x c' c'') : Keeps M x c c'' :=
  ⟨h'.inv, h'.size.trans h.size, fun j hj => (h'.key j hj).trans (h.key j hj)⟩

variable {sub block : Nat}

theorem lookup_some (h : lookup m sub block c = some i) :
    InCache c i ∧ (c.pfsCacheBuf i).pfsMount ≠ 0 ∧ (c.pfsCacheBuf i).key = (m, sub, block) := by
  have hin := inCache_of_mem (List.mem_of_find?_eq_some h)
  have hfound := List.find?_some h
  simp only [Bool.and_eq_true, bne_iff_ne, beq_iff_eq] at hfound
  obtain ⟨⟨⟨hne, rfl⟩, rfl⟩, rfl⟩ := hfound
  exact ⟨hin, hne, rfl⟩

theorem lookup_none (h : lookup m sub block c = none) (hm : m ≠ 0) (hin : InCache c i) :
    (c.pfsCacheBuf i).key ≠ (m, sub, block) := by
  intro heq
  obtain ⟨hlow, hhigh⟩ := hin
  have hmiss := List.find?_eq_none.mp h i (List.mem_range'_1.mpr ⟨hlow, by omega⟩)
  apply hmiss
  have h₁ : (c.pfsCacheBuf i).pfsMount = m := congrArg Prod.fst heq
  have h₂ : (c.pfsCacheBuf i).sub = sub := congrArg (fun k => k.2.1) heq
  have h₃ : (c.pfsCacheBuf i).block = block := congrArg (fun k => k.2.2) heq
  simp [h₁, h₂, h₃, hm]

theorem usedAdd_spec (h : Inv M c) (hin : InCache c i) (hused : 0 < (c.pfsCacheBuf i).nused)
    (hless : (c.pfsCacheBuf i).nused < 65535) : Keeps M x c (pfsCacheUsedAdd i c) := by
  obtain ⟨l, hl⟩ := h.idle
  refine ⟨⟨?_, l, hl.modify ?_⟩, rfl, fun j _ => key_modify c _ rfl j⟩
  · exact h.content.relabel _ (fun _ => rfl) (fun _ => rfl) (fun _ => rfl) fun _ _ => h.content.referenced i hin (by omega)
  · show ((c.pfsCacheBuf i).nused + 1) % 2 ^ 16 = 0 ↔ (c.pfsCacheBuf i).nused = 0
    omega

private theorem refer_stays (type : UInt16) (i : Nat) (c : State) : (refer type i c).stored = c.stored ∧
    (refer type i c).loaded = c.loaded ∧ ((refer type i c).pfsCacheBuf i).key = (c.pfsCacheBuf i).key := by
  unfold refer pfsCacheUsedAdd
  refine ⟨?_, ?_, ?_⟩
  · show (if _ then _ else _ : State).stored = _
    split <;> rfl
  · show (if _ then _ else _ : State).loaded = _
    split <;> rfl
  · rw [key_modify _ _ rfl]
    split <;> exact key_modify c (fun b => { b with type := type }) rfl i

private theorem refer_spec (h : Inv M c) (hin : InCache c i) (hmount : (c.pfsCacheBuf i).pfsMount ≠ 0)
    (hless : (c.pfsCacheBuf i).nused < 65535) (type : UInt16) : Keeps M x c (refer type i c) := by
  obtain ⟨l, hl⟩ := h.idle
  obtain ⟨d, hd⟩ : ∃ d, d = c.modify i fun b => { b with type := type } := ⟨_, rfl⟩
  have hself : d.pfsCacheBuf i = { c.pfsCacheBuf i with type := type } := hd ▸ modify_self ..
  have hother : ∀ j, j ≠ i → d.pfsCacheBuf j = c.pfsCacheBuf j := fun j hj => hd ▸ modify_of_ne c _ hj
  have hcontent : Content M d := by
    rw [hd]
    exact h.content.relabel _ (fun _ => rfl) (fun _ => rfl) (fun _ => rfl) fun _ _ => hmount
  have hidle : Idle d l := hd ▸ hl.modify Iff.rfl
  have hkey : ∀ j, (d.pfsCacheBuf j).key = (c.pfsCacheBuf j).key := hd ▸ key_modify c _ rfl
  have hin' : InCache d i := hd ▸ hin
  have hrefer : refer type i c = pfsCacheUsedAdd i (if (d.pfsCacheBuf i).nused = 0 then pfsCacheUnLink i d else d) := by
    rw [hd]
    rfl
  have hnused : (d.pfsCacheBuf i).nused = (c.pfsCacheBuf i).nused := by rw [hself]
  have hsize : d.pfsCacheNumBuffers = c.pfsCacheNumBuffers := by rw [hd]; rfl
  rw [hrefer]
  split
  · rename_i hzero
    have hmem := (hidle.mem_iff i).mpr ⟨hin', hzero⟩
    refine ⟨⟨?_, l.erase i, ?_⟩, hsize, fun j _ => (key_modify _ _ rfl j).trans (hkey j)⟩
    · refine (hcontent.unlink i).relabel _ (fun _ => rfl) (fun _ => rfl) (fun _ => rfl) fun _ _ => ?_
      rw [show (pfsCacheUnLink i d).pfsCacheBuf i = d.pfsCacheBuf i from rfl, hself]
      exact hmount
    · have hring : Ring (pfsCacheUsedAdd i (pfsCacheUnLink i d)) (l.erase i) := hidle.ring.unlink hmem
      apply hidle.leave hmem hring rfl
      · have hone : ((pfsCacheUsedAdd i (pfsCacheUnLink i d)).pfsCacheBuf i).nused = ((d.pfsCacheBuf i).nused + 1) % 2 ^ 16 :=
          congrArg pfs_cache_t.nused (modify_self _ i _)
        rw [hone, hzero]
        decide
      · intro j hj
        exact congrArg pfs_cache_t.nused (modify_of_ne _ _ hj)
  · rename_i hpos
    have hkeeps : Keeps M x c d := ⟨⟨hcontent, l, hidle⟩, hsize, fun j _ => hkey j⟩
    exact hkeeps.trans (usedAdd_spec hkeeps.inv hin' (Nat.pos_of_ne_zero hpos) (by rw [hnused]; exact hless))

/-- A reference is given back. -/
theorem free_spec (h : Inv M c) (hin : InCache c i) (hused : 0 < (c.pfsCacheBuf i).nused) :
    Keeps M x c (pfsCacheFree i c) := by
  obtain ⟨l, hl⟩ := h.idle
  have hmount := h.content.referenced i hin (by omega)
  obtain ⟨d, hd⟩ : ∃ d, d = c.modify i fun b => { b with nused := b.nused - 1 } := ⟨_, rfl⟩
  have hself : d.pfsCacheBuf i = { c.pfsCacheBuf i with nused := (c.pfsCacheBuf i).nused - 1 } := hd ▸ modify_self ..
  have hother : ∀ j, j ≠ i → d.pfsCacheBuf j = c.pfsCacheBuf j := fun j hj => hd ▸ modify_of_ne c _ hj
  have hkey : ∀ j, (d.pfsCacheBuf j).key = (c.pfsCacheBuf j).key := hd ▸ key_modify c _ rfl
  have hsize : d.pfsCacheNumBuffers = c.pfsCacheNumBuffers := by rw [hd]; rfl
  have hcontent : Content M d := by
    rw [hd]
    exact h.content.relabel _ (fun _ => rfl) (fun _ => rfl) (fun _ => rfl) fun _ _ => hmount
  have hfree : pfsCacheFree i c = if (d.pfsCacheBuf i).nused ≠ 0 then d else pfsCacheLink (d.prev 0) i d := by
    have hmount' : (d.pfsCacheBuf i).pfsMount ≠ 0 := by
      rw [hself]
      exact hmount
    unfold pfsCacheFree
    rw [if_neg (by omega), ← hd]
    simp only [if_pos hmount']
  rw [hfree]
  split
  · rename_i hpos
    refine ⟨⟨hcontent, l, ?_⟩, hsize, fun j _ => hkey j⟩
    rw [hself] at hpos
    rw [hd]
    exact hl.modify ⟨fun hz => absurd hz hpos, fun hz => absurd hz (by omega)⟩
  · rename_i hzero
    have hring : Ring d l := FreeRing.congr hl.ring (fun _ => by rw [hd]; rfl) fun _ => by rw [hd]; rfl
    refine ⟨⟨hcontent.link _ i, l ++ [i], ?_⟩, hsize, fun j _ => hkey j⟩
    have hring' : Ring (pfsCacheLink (d.prev 0) i d) (l ++ [i]) := hring.append (hl.not_root hin (by omega))
    apply hl.enter hin hring' hsize
    · intro j
      rw [List.mem_append, List.mem_singleton, or_comm]
    · exact not_not.mp hzero
    · intro j hj
      exact congrArg pfs_cache_t.nused (hother j hj)

/-- A block is in no buffer: the first buffer of the ring is written if it is dirty and given the block. -/
theorem take_spec (h : Inv M c) (hm : m ≠ 0) (hfull : isFull c = false) (hlog : ¬ InLog M c (m, sub, block))
    (hnone : lookup m sub block c = none) (type : UInt16) :
    Keeps M (c.next 0) c (take m sub block type (c.next 0) (evict M c)) ∧ InCache c (c.next 0) ∧
      (take m sub block type (c.next 0) (evict M c)).stored (m, sub, block) = c.stored (m, sub, block) := by
  obtain ⟨l, hl⟩ := h.idle
  have hx := hl.ring.of_not_full hfull
  obtain ⟨hin, -⟩ := (hl.mem_iff _).mp hx
  obtain ⟨hflushes, hclean⟩ := evict_spec (M := M) h.content hin
  generalize evict M c = d at *
  generalize c.next 0 = x at *
  have hsteady := hflushes.steady
  have hmiss : ∀ j, InCache c j → (c.pfsCacheBuf j).key ≠ (m, sub, block) := fun j hj => lookup_none hnone hm hj
  have hcontent : Content M (take m sub block type x d) := by
    refine Content.unlink (hflushes.content.reassign (b := { d.pfsCacheBuf x with
      dirty := false, type := type, pfsMount := m, sub := sub, block := block, nused := 1 }) (v := false)
      (hsteady.inCache.mpr hin) hclean rfl (fun _ => hm) ?_ ?_ ?_) x
    · intro _ j hj _ heq
      rw [hsteady.key] at heq
      exact absurd heq (hmiss j (hsteady.inCache.mp hj))
    · exact fun _ => mt (inLog_of_size hsteady.size).mp hlog
    · intro _ hfalse
      cases hfalse
  have hother : ∀ j, j ≠ x → (take m sub block type x d).pfsCacheBuf j = d.pfsCacheBuf j := fun j hj =>
    Function.update_of_ne hj _ _
  have hidle : Idle (take m sub block type x d) (l.erase x) := by
    have hring : Ring (take m sub block type x d) (l.erase x) := (hsteady.idle hl).ring.unlink hx
    apply (hsteady.idle hl).leave hx hring rfl
    · have hself : (take m sub block type x d).pfsCacheBuf x = { d.pfsCacheBuf x with
          dirty := false, type := type, pfsMount := m, sub := sub, block := block, nused := 1 } := Function.update_self ..
      rw [hself]
      exact one_ne_zero
    · intro j hj
      rw [hother j hj]
  refine ⟨⟨⟨hcontent, _, hidle⟩, hsteady.size, fun j hj => ?_⟩, hin, hsteady.stored _ hmiss⟩
  rw [hother j hj, hsteady.key]

private theorem transferRead_spec (h : Inv M c) (hin : InCache c i)
    (hclean : (c.pfsCacheBuf i).dirty = false) : Keeps M x c (transferRead i c).2 := by
  obtain ⟨l, hl⟩ := h.idle
  refine ⟨⟨?_, l, ?_⟩, rfl, fun j _ =>
    key_modify c (fun b => { b with data := c.disk (c.pfsCacheBuf i).key, dirty := false }) rfl j⟩
  · apply h.content.reassign (b := { c.pfsCacheBuf i with data := c.disk (c.pfsCacheBuf i).key, dirty := false })
      (v := true) hin hclean rfl
    · exact h.content.referenced i hin
    · exact fun hne j hj _ heq => h.content.unique i j hin hj hne heq
    · exact h.content.placed i hin
    · exact fun _ _ => rfl
  · have hidle : Idle (c.modify i fun b => { b with data := c.disk (c.pfsCacheBuf i).key, dirty := false }) l :=
      hl.modify Iff.rfl
    exact hidle.stay rfl rfl rfl fun _ => Iff.rfl

/-- A block is asked for: its buffer has what was stored in it last, if it is to be loaded. -/
structure Got (M : Mounts) (k : Key) (flags : UInt16) (c : State) (r : Option Nat × State) : Prop where
  keeps : ∃ x, Keeps M x c r.2
  stored : r.2.stored k = c.stored k
  holds : noload flags = false → ∀ i, r.1 = some i → Holds r.2 i k

theorem Got.data {k : Key} {flags : UInt16} {r : Option Nat × State} (h : Got M k flags c r)
    (hload : noload flags = false) (hi : r.1 = some i) :
    (r.2.pfsCacheBuf i).data = c.stored k := by
  obtain ⟨x, hkeeps⟩ := h.keeps
  exact (hkeeps.inv.content.held i k (h.holds hload i hi)).trans h.stored

/-- `pfsCacheGetData`, unless it fails with a buffer at hand. -/
theorem get_spec (h : Inv M c) (hm : m ≠ 0) {flags : UInt16} (hproper : Proper M c (.get m sub block flags))
    (hworks : (pfsCacheGetData M m sub block flags c).1 = none → isFull c = true) :
    Got M (m, sub, block) flags c (pfsCacheGetData M m sub block flags c) := by
  obtain ⟨type, htype⟩ : ∃ type, flags &&& PFS_CACHE_FLAG_MASKTYPE = type := ⟨_, rfl⟩
  obtain ⟨hlog, hhit⟩ := hproper
  cases hlookup : lookup m sub block c with
  | some i =>
    obtain ⟨hin, hmount, hkey⟩ := lookup_some hlookup
    obtain ⟨hless, hloaded⟩ := hhit i hlookup
    have hget : pfsCacheGetData M m sub block flags c = (some i, refer type i c) := by
      unfold pfsCacheGetData
      rw [hlookup, htype]
    have hkeeps : Keeps M 0 c (refer type i c) := refer_spec h hin hmount hless type
    have hstay : (refer type i c).stored = c.stored ∧ (refer type i c).loaded = c.loaded ∧
        ((refer type i c).pfsCacheBuf i).key = (c.pfsCacheBuf i).key := refer_stays type i c
    rw [hget]
    refine ⟨⟨0, hkeeps⟩, congrFun hstay.1 _, fun hload j hj => ?_⟩
    cases hj
    have hheld := hloaded.resolve_left (by rw [hload]; decide)
    refine ⟨(inCache_of_size hkeeps.size).mpr hin, ?_, hstay.2.2.trans hkey, (congrFun hstay.2.1 i).trans hheld⟩
    rw [show ((refer type i c).pfsCacheBuf i).pfsMount = (c.pfsCacheBuf i).pfsMount from congrArg Prod.fst hstay.2.2]
    exact hmount
  | none =>
    by_cases hfull : isFull c = true
    · have hget : pfsCacheGetData M m sub block flags c = (none, c) := by
        unfold pfsCacheGetData
        rw [hlookup]
        exact if_pos hfull
      rw [hget]
      exact ⟨⟨0, h.refl⟩, rfl, fun _ j hj => nomatch hj⟩
    · rw [Bool.not_eq_true] at hfull
      obtain ⟨htake, hin, hstored⟩ := take_spec h hm hfull hlog hlookup type
      obtain ⟨d, hd⟩ : ∃ d, d = take m sub block type (c.next 0) (evict M c) := ⟨_, rfl⟩
      have hself : (d.pfsCacheBuf (c.next 0)).key = (m, sub, block) ∧ (d.pfsCacheBuf (c.next 0)).dirty = false := by
        have hbuf : d.pfsCacheBuf (c.next 0) = { (evict M c).pfsCacheBuf (c.next 0) with
            dirty := false, type := type, pfsMount := m, sub := sub, block := block, nused := 1 } :=
          hd ▸ Function.update_self ..
        rw [hbuf]
        exact ⟨rfl, rfl⟩
      have hmount : (d.pfsCacheBuf (c.next 0)).pfsMount = m := congrArg Prod.fst hself.1
      have hget : pfsCacheGetData M m sub block flags c =
          if noload flags then (some (c.next 0), d)
          else match transferRead (c.next 0) d with
            | (true, c') => (some (c.next 0), c')
            | (false, c') => (none, pfsCacheFree (c.next 0) (c'.modify (c.next 0) fun b => { b with pfsMount := 0 })) := by
        unfold pfsCacheGetData
        rw [hlookup, hd, htype]
        simp only [hfull, Bool.false_eq_true, if_false]
      rw [← hd] at htake hstored
      rw [hget] at hworks ⊢
      generalize c.next 0 = x at *
      cases hload : noload flags with
      | true => exact ⟨⟨x, htake⟩, hstored, fun hfalse => by
          rw [hload] at hfalse
          cases hfalse⟩
      | false =>
        rw [hload] at hworks
        have hin' : InCache d x := (inCache_of_size htake.size).mpr hin
        have hread : Keeps M x d (transferRead x d).2 := transferRead_spec htake.inv hin' hself.2
        have hloaded : (transferRead x d).2.loaded x = true := Function.update_self ..
        have hkey : ((transferRead x d).2.pfsCacheBuf x).key = (m, sub, block) :=
          (key_modify d (fun b => { b with data := d.disk (d.pfsCacheBuf x).key, dirty := false }) rfl x).trans hself.1
        have hsame : (transferRead x d).2.stored = d.stored := rfl
        cases htransfer : transferRead x d with
        | mk works e =>
          rw [htransfer] at hworks hread hloaded hkey hsame
          cases works with
          | false => exact absurd (hworks rfl) (by rw [hfull]; decide)
          | true =>
            refine ⟨⟨x, htake.trans hread⟩, (congrFun hsame _).trans hstored, fun _ j hj => ?_⟩
            cases hj
            have hmount' : (e.pfsCacheBuf x).pfsMount = m := congrArg Prod.fst hkey
            exact ⟨(inCache_of_size hread.size).mpr hin', hmount' ▸ hm, hkey, hloaded⟩

/-- What a copy of zones does: only the blocks that are copied to change, and what is copied there is what was stored last. -/
structure Copies (M : Mounts) (m sub number length : Nat) (c c' : State) : Prop where
  eq : c' = { c with disk := c'.disk, stored := c'.stored }
  outside : ∀ k, ¬ InTarget M m sub number length k → c'.disk k = c.disk k ∧ c'.stored k = c.stored k
  inside : ∀ k, InTarget M m sub number length k → c'.disk k = c'.stored k

theorem fsskCopyBlock_copies (M : Mounts) (m sub₁ number₁ sub₂ number₂ length : Nat) (c : State) :
    Copies M m sub₁ number₁ length c (fsskCopyBlock M m sub₁ number₁ sub₂ number₂ length c) := by
  induction length with
  | zero =>
    refine ⟨rfl, fun _ _ => ⟨rfl, rfl⟩, fun k hk => ?_⟩
    obtain ⟨-, -, hlow, hhigh⟩ := hk
    rw [Nat.add_zero] at hhigh
    omega
  | succ length ih =>
    have hsum : (number₁ + (length + 1)) * 2 ^ M.inode_scale m =
        (number₁ + length) * 2 ^ M.inode_scale m + 2 ^ M.inode_scale m := by
      rw [← Nat.add_assoc, Nat.succ_mul]
    have hmono : number₁ * 2 ^ M.inode_scale m ≤ (number₁ + length) * 2 ^ M.inode_scale m :=
      Nat.mul_le_mul_right _ (Nat.le_add_right ..)
    rw [fsskCopyBlock]
    generalize fsskCopyBlock M m sub₁ number₁ sub₂ number₂ length c = d at ih ⊢
    -- the blocks of the last zone
    have hzone : ∀ k, (k.1 = m ∧ k.2.1 = sub₁ ∧ (number₁ + length) * 2 ^ M.inode_scale m ≤ k.2.2 ∧
        k.2.2 < (number₁ + length) * 2 ^ M.inode_scale m + 2 ^ M.inode_scale m) →
        InTarget M m sub₁ number₁ (length + 1) k := fun k ⟨h₁, h₂, h₃, h₄⟩ => ⟨h₁, h₂, hmono.trans h₃, hsum ▸ h₄⟩
    constructor
    case eq =>
      unfold copyZone
      rw [ih.eq]
    case outside =>
      intro k hk
      have hnot := mt (hzone k) hk
      have hd := ih.outside k fun ⟨h₁, h₂, h₃, h₄⟩ => hk ⟨h₁, h₂, h₃, hsum ▸ Nat.lt_add_right _ h₄⟩
      exact ⟨(if_neg hnot).trans hd.1, (if_neg hnot).trans hd.2⟩
    case inside =>
      intro k ⟨h₁, h₂, h₃, h₄⟩
      by_cases hlast : k.1 = m ∧ k.2.1 = sub₁ ∧ (number₁ + length) * 2 ^ M.inode_scale m ≤ k.2.2 ∧
        k.2.2 < (number₁ + length) * 2 ^ M.inode_scale m + 2 ^ M.inode_scale m
      · exact (if_pos hlast).trans (if_pos hlast).symm
      · have hd := ih.inside k ⟨h₁, h₂, h₃, not_le.mp fun h => hlast ⟨h₁, h₂, h, hsum ▸ h₄⟩⟩
        exact (if_neg hlast).trans (hd.trans (if_neg hlast).symm)

private theorem copy_spec {number length : Nat} (h : Inv M c) (hcopy : Copies M m sub number length c c')
    (hfree : ∀ i k, Holds c i k → ¬ InTarget M m sub number length k) : Keeps M x c c' := by
  obtain ⟨l, hl⟩ := h.idle
  obtain ⟨heq, houtside, hinside⟩ := hcopy
  have hheld : ∀ i k, Holds c i k → (c.pfsCacheBuf i).data = c'.stored k := fun i k hi =>
    (h.content.held i k hi).trans (houtside k (hfree i k hi)).2.symm
  have hclean : ∀ k, ¬ InLog M c k → (∀ i, InCache c i → (c.pfsCacheBuf i).key = k → (c.pfsCacheBuf i).dirty = false) →
      c'.disk k = c'.stored k := by
    intro k hk hclean
    by_cases htarget : InTarget M m sub number length k
    · exact hinside k htarget
    · rw [(houtside k htarget).1, (houtside k htarget).2]
      exact h.content.clean k hk hclean
  rw [heq]
  exact ⟨⟨⟨h.content.unique, h.content.placed, h.content.referenced, h.content.dirty, hheld, hclean⟩,
    l, hl.stay rfl rfl rfl fun _ => Iff.rfl⟩, rfl, fun _ _ => rfl⟩

theorem markClean_eq {first last : Nat} (hproper : Proper M c (.markClean m sub first last)) :
    pfsCacheMarkClean m sub first last c = c := by
  have hbuf : (pfsCacheMarkClean m sub first last c).pfsCacheBuf = c.pfsCacheBuf := by
    funext i
    unfold pfsCacheMarkClean
    simp only
    split
    · rename_i hcond
      obtain ⟨hlow, hhigh, hmount, hsub, hfirst, hlast⟩ := hcond
      have hdirty := hproper i ⟨hlow, hhigh⟩ hmount hsub hfirst hlast
      rw [← hdirty]
    · rfl
  show { c with pfsCacheBuf := (pfsCacheMarkClean m sub first last c).pfsCacheBuf } = c
  rw [hbuf]

/-- Every proper call keeps what holds between calls. -/
theorem exec_spec (h : Inv M c) {call : Call} (hallowed : Allowed M c call) (hproper : Proper M c call) :
    ∃ x, Keeps M x c (exec M call c) := by
  cases call with
  | get m sub block flags => exact (get_spec h hallowed.1 hproper hallowed.2).keeps
  | modify clink data =>
    obtain ⟨hin, hused⟩ := hallowed
    obtain ⟨l, hl⟩ := h.idle
    have hmount := h.content.referenced clink hin (by omega)
    refine ⟨0, ⟨h.content.setData hin hmount data, l, ?_⟩, rfl, fun j _ => ?_⟩
    · have hidle : Idle (c.modify clink fun b => { b with data := data, dirty := true }) l := hl.modify Iff.rfl
      exact hidle.stay rfl rfl rfl fun _ => Iff.rfl
    · exact key_modify c (fun b => { b with data := data, dirty := true }) rfl j
  | usedAdd clink => exact ⟨0, usedAdd_spec h hallowed.1 hallowed.2 hproper⟩
  | free clink => exact ⟨0, free_spec h hallowed.1 hallowed.2⟩
  | flush m =>
    obtain ⟨l, hl⟩ := h.idle
    obtain ⟨hflushes, -⟩ := flush_spec h.content m
    exact ⟨0, ⟨hflushes.content, l, hflushes.steady.idle hl⟩, hflushes.steady.size, fun j _ => hflushes.steady.key j⟩
  | copy m sub₁ number₁ sub₂ number₂ length =>
    exact ⟨0, copy_spec h (fsskCopyBlock_copies M m sub₁ number₁ sub₂ number₂ length c) hproper⟩
  | markClean m subpart first last =>
    refine ⟨0, ?_⟩
    rw [exec, markClean_eq hproper]
    exact h.refl

theorem Reaches.inv (h : Reaches M (Proper M) c c') (hc : Inv M c) : Inv M c' := by
  induction h with
  | refl => exact hc
  | step _ hallowed hproper ih =>
    obtain ⟨x, hkeeps⟩ := exec_spec ih hallowed hproper
    exact hkeeps.inv

/-- A dirty buffer that a call gives to another block has been written. -/
theorem Keeps.written (h : Keeps M x c c') (hc : Inv M c) (hin : InCache c i) (hdirty : (c.pfsCacheBuf i).dirty = true)
    (hkey : (c'.pfsCacheBuf i).key ≠ (c.pfsCacheBuf i).key) :
    c'.disk (c.pfsCacheBuf i).key = c'.stored (c.pfsCacheBuf i).key := by
  have hmount := (hc.content.dirty i hin hdirty).1
  have hix : i = x := not_not.mp fun hne => hkey (h.key i hne)
  apply h.inv.content.clean
  · exact mt (inLog_of_size h.size).mp (hc.content.placed i hin hmount)
  · -- the block was in no other buffer, and no other buffer has come to have one
    intro j hj heq
    exfalso
    by_cases hjx : j = x
    · rw [hjx, ← hix] at heq
      exact hkey heq
    · rw [h.key j hjx] at heq
      exact hjx ((hc.content.unique i j hin ((inCache_of_size h.size).mp hj) hmount heq).trans hix)

/-! ### Every run -/

/-- The loop of `pfsCacheInit` links the buffers in their order. -/
theorem initLoop_spec (hring : Ring c []) (n : Nat) :
    Ring ((List.range' 1 n).foldl (fun c i => pfsCacheLink (c.prev 0) i c) c) (List.range' 1 n) ∧
      ∃ next prev, (List.range' 1 n).foldl (fun c i => pfsCacheLink (c.prev 0) i c) c =
        { c with next := next, prev := prev } := by
  induction n with
  | zero => exact ⟨hring, c.next, c.prev, rfl⟩
  | succ n ih =>
    obtain ⟨hlist, next, prev, hd⟩ := ih
    rw [List.range'_1_concat, List.foldl_append, List.foldl_cons, List.foldl_nil]
    generalize (List.range' 1 n).foldl (fun c i => pfsCacheLink (c.prev 0) i c) c = d at *
    have hnot : 1 + n ∉ 0 :: List.range' 1 n := by
      rw [List.mem_cons, List.mem_range'_1]
      omega
    refine ⟨hlist.append hnot, (pfsCacheLink (d.prev 0) (1 + n) d).next, (pfsCacheLink (d.prev 0) (1 + n) d).prev, ?_⟩
    rw [hd]
    rfl

variable {numBuf : Nat} {memory : Nat → Block} {disk : Key → Block} {c₀ : State}

theorem inv_start (M : Mounts) (hstart : pfsCacheInit numBuf memory disk = some c₀) : Inv M c₀ := by
  have hempty : Ring (cleared numBuf memory disk) [] := ⟨⟨rfl, rfl⟩, List.nodup_singleton 0⟩
  obtain ⟨hring, next, prev, hc⟩ := initLoop_spec hempty numBuf
  unfold pfsCacheInit at hstart
  split at hstart
  · cases hstart
  · cases hstart
    rw [hc] at hring ⊢
    refine ⟨⟨?_, ?_, ?_, ?_, ?_, fun _ _ _ => rfl⟩, _, hring, fun i => ?_⟩
    · exact fun i j _ _ hne => absurd rfl hne
    · exact fun i _ hne => absurd rfl hne
    · exact fun i _ hne => absurd rfl hne
    · exact fun i _ hd => nomatch hd
    · exact fun i k hk => absurd rfl hk.2.1
    · unfold InCache
      rw [List.mem_range'_1]
      show 1 ≤ i ∧ i < 1 + numBuf ↔ (1 ≤ i ∧ i ≤ numBuf) ∧ 0 = 0
      omega

/-- The cache is coherent in all that proper calls reach. -/
theorem pfsCache_coherent (hstart : pfsCacheInit numBuf memory disk = some c₀) (h : Reaches M (Proper M) c₀ c) :
    Coherent M (Proper M) c := by
  have hinv := h.inv (inv_start M hstart)
  refine ⟨hinv.content.unique, hinv.idle, ?_, ?_⟩
  · intro call i hallowed hproper hin hdirty hkey
    obtain ⟨x, hkeeps⟩ := exec_spec hinv hallowed hproper
    exact hkeeps.written hinv hin hdirty hkey
  · intro m sub block flags i c' hm hload hproper hget
    have hgot := get_spec hinv hm hproper fun hnone => by
      rw [hget] at hnone
      cases hnone
    rw [hget] at hgot
    exact hgot.data hload rfl

/-- A mount with its log at block 64, and zones of one block. -/
def oneZone : Mounts := ⟨fun _ => 64, fun _ => 0⟩

/-- Two buffers, and a partition where the numbers of the blocks are in them. -/
def twoBuffers : State :=
  (List.range' 1 2).foldl (fun c i => pfsCacheLink (c.prev 0) i c)
    (cleared 2 (fun _ => (fun _ => 0, fun _ => 0)) fun k => (fun _ => k.2.2, fun _ => 0))

/-- A block is filled in and given back. -/
def givenBack : State := exec oneZone (.free 1) (exec oneZone (.modify 1 (fun _ => 7, fun _ => 7))
  (exec oneZone (.get 1 0 5 PFS_CACHE_FLAG_NOLOAD) twoBuffers))

private theorem givenBack_reached : Reaches oneZone (Proper oneZone) twoBuffers givenBack := by
  have hget : Reaches oneZone (Proper oneZone) twoBuffers (exec oneZone (.get 1 0 5 PFS_CACHE_FLAG_NOLOAD) twoBuffers) := by
    apply Reaches.step .refl
    · exact ⟨one_ne_zero, fun hnone => nomatch hnone⟩
    · refine ⟨fun hlog => absurd hlog.2.1 (by decide), fun i hfound => ?_⟩
      cases hfound
  have hmodify : Reaches oneZone (Proper oneZone) twoBuffers (exec oneZone (.modify 1 (fun _ => 7, fun _ => 7))
      (exec oneZone (.get 1 0 5 PFS_CACHE_FLAG_NOLOAD) twoBuffers)) := hget.step ⟨⟨by decide, by decide⟩, by decide⟩ trivial
  exact hmodify.step ⟨⟨by decide, by decide⟩, by decide⟩ trivial

/-- The cache is flushed, and a zone copied that no buffer holds. -/
def copiedOver : State := exec oneZone (.copy 1 0 6 0 7 1) (exec oneZone (.flush 1) givenBack)

private theorem copiedOver_reached : Reaches oneZone (Proper oneZone) twoBuffers copiedOver := by
  have hflush : Reaches oneZone (Proper oneZone) twoBuffers (exec oneZone (.flush 1) givenBack) :=
    givenBack_reached.step trivial trivial
  have hheld : ∀ i : Fin 3, 1 ≤ i.val → ((exec oneZone (.flush 1) givenBack).pfsCacheBuf i.val).pfsMount ≠ 0 →
      ((exec oneZone (.flush 1) givenBack).pfsCacheBuf i.val).block = 5 := by decide
  refine hflush.step trivial fun i k hholds htarget => ?_
  obtain ⟨⟨hlow, hhigh⟩, hmount, rfl, -⟩ := hholds
  have hhigh : i ≤ 2 := hhigh
  have hblock := hheld ⟨i, by omega⟩ hlow hmount
  have hsix : 6 * 2 ^ 0 ≤ ((exec oneZone (.flush 1) givenBack).pfsCacheBuf i).block := htarget.2.2.1
  rw [hblock] at hsix
  exact absurd hsix (by decide)

/-- Two more blocks are asked for, so that the first one leaves its buffer. -/
theorem pfsCache_coherent_small : Coherent oneZone (Proper oneZone)
    (exec oneZone (.get 1 0 7 0) (exec oneZone (.get 1 0 6 0) copiedOver)) := by
  have hstart : pfsCacheInit 2 (fun _ => (fun _ => 0, fun _ => 0)) (fun k => (fun _ => k.2.2, fun _ => 0)) =
      some twoBuffers := rfl
  have hsix : Reaches oneZone (Proper oneZone) twoBuffers (exec oneZone (.get 1 0 6 0) copiedOver) := by
    refine copiedOver_reached.step ⟨one_ne_zero, fun hnone => nomatch hnone⟩ ⟨fun hlog => absurd hlog.2.1 (by decide), ?_⟩
    intro i hfound
    cases hfound
  have hseven : Reaches oneZone (Proper oneZone) twoBuffers (exec oneZone (.get 1 0 7 0)
      (exec oneZone (.get 1 0 6 0) copiedOver)) := by
    refine hsix.step ⟨one_ne_zero, fun hnone => nomatch hnone⟩ ⟨fun hlog => absurd hlog.2.1 (by decide), ?_⟩
    intro i hfound
    cases hfound
  exact pfsCache_coherent hstart hseven

/-- A zone is copied onto a block that was read and given back; who asks for it again has what was there before. -/
theorem pfsCache_not_coherent : ¬ ∀ (M : Mounts) (numBuf : Nat) (memory : Nat → Block) (disk : Key → Block) (c₀ c : State),
    pfsCacheInit numBuf memory disk = some c₀ → Reaches M (fun _ _ => True) c₀ c → Coherent M (fun _ _ => True) c := by
  intro h
  have hget : Reaches oneZone (fun _ _ => True) twoBuffers (exec oneZone (.get 1 0 5 0) twoBuffers) :=
    Reaches.refl.step ⟨one_ne_zero, fun hnone => nomatch hnone⟩ trivial
  have hfree : Reaches oneZone (fun _ _ => True) twoBuffers (exec oneZone (.free 1)
      (exec oneZone (.get 1 0 5 0) twoBuffers)) := hget.step ⟨⟨by decide, by decide⟩, by decide⟩ trivial
  have hcopy : Reaches oneZone (fun _ _ => True) twoBuffers (exec oneZone (.copy 1 0 5 0 6 1) (exec oneZone (.free 1)
      (exec oneZone (.get 1 0 5 0) twoBuffers))) := hfree.step trivial trivial
  have hread := (h _ 2 _ _ _ _ rfl hcopy).read 1 0 5 0 1 _ one_ne_zero rfl trivial rfl
  have hword : (5 : Nat) = 6 := congrFun (congrArg Prod.fst hread) 0
  cases hword

end HddChecker.Pfs.Cache
