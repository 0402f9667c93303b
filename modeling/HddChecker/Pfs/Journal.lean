import Mathlib.Data.Nat.Pairing
import HddChecker.Apa.Header
import HddChecker.Lib.SplitLog

/-!
# The metadata journal

The metadata blocks of a PFS filesystem are written through a log. `pfsCacheFlushAllDirty` writes all cache buffers into the log, then the index that names the dirty ones among them, then the dirty buffers in place, and clears the index; `pfsJournalRestore` carries out what a valid index names. The drive is addressed by partition and sector, the buffers are blocks of two sectors.
-/

namespace HddChecker.Pfs.Journal

open HddChecker

def PFS_JOUNRNAL_MAGIC : Nat := 0x5046534C
def PFS_SUPER_SECTOR : Nat := 8192
def PFS_CACHE_FLAG_DIRTY : UInt16 := 0x01
def PFS_CACHE_FLAG_SEGD : UInt16 := 0x10
def PFS_CACHE_FLAG_SEGI : UInt16 := 0x20
def PFS_FSCK_STAT_WRITE_ERROR : Nat := 0x01

abbrev Block := Sector × Sector

/-- Word `i` of a block. -/
def word (b : Block) (i : Nat) : Nat :=
  if h : i < 128 then b.1 ⟨i, h⟩ else if h : i - 128 < 128 then b.2 ⟨i - 128, h⟩ else 0

def pfsInodeCheckSum (inode : Block) : Nat := u32 ((List.range' 1 255).map (word inode)).sum

def pfsJournalChecksum (header : Block) : Nat := u32 ((List.range' 2 254).map (word header)).sum % 2 ^ 16

/-! ### Records -/

/-- An entry of `pfs_journal_t.log` -/
structure pfs_log_t where
  sector : Nat
  sub : Nat
  logSector : Nat

structure pfs_journal_t where
  magic : Nat
  num : Nat
  checksum : Nat
  log : Fin 127 → pfs_log_t

structure pfs_cache_t where
  flags : UInt16
  pfsMount : Nat
  sub : Nat
  block : Nat
  data : Block
  deriving DecidableEq

/-- The parts of `pfs_mount_t` the journal uses; `self` is the address of the mount. -/
structure pfs_mount_t where
  self : Nat
  log_number : Nat
  sector_scale : Nat

/-- The drive, the buffers from `pfsCacheBuf + 1` on, the journal buffer and the error of the mount. `errorStat` says whether the driver was built without `PFS_NO_WRITE_ERROR_STAT`. A transfer that touches an address in `fails` reports an error. -/
structure Drive where
  disk : Nat → Sector
  fails : Nat → Bool
  errorStat : Bool
  ops : List (DiskOp Sector)
  pfsCacheBuf : List pfs_cache_t
  pfsJournalBuf : pfs_journal_t
  lastError : Int

namespace pfs_journal_t

/-- The journal after `memset` and `magic = PFS_JOUNRNAL_MAGIC`. -/
def reset : pfs_journal_t := ⟨PFS_JOUNRNAL_MAGIC, 0, 0, fun _ => ⟨0, 0, 0⟩⟩

/-- Word `i` of a journal. -/
def words (j : pfs_journal_t) (i : Fin 256) : Nat :=
  if i.val = 0 then j.magic
  else if i.val = 1 then j.num + 65536 * j.checksum
  else
    let entry := j.log ⟨(i.val - 2) / 2, by omega⟩
    if i.val % 2 = 0 then entry.sector else entry.sub + 65536 * entry.logSector

def toBlock (j : pfs_journal_t) : Block :=
  (fun i => j.words ⟨i.val, by omega⟩, fun i => j.words ⟨i.val + 128, by omega⟩)

def ofBlock (b : Block) : pfs_journal_t where
  magic := word b 0
  num := word b 1 % 65536
  checksum := word b 1 / 65536
  log i := ⟨word b (2 * i.val + 2), word b (2 * i.val + 3) % 65536, word b (2 * i.val + 3) / 65536⟩

/-- `log[num] = entry; num += 1`. A `num` past the end is not modelled. -/
def push (j : pfs_journal_t) (entry : pfs_log_t) : pfs_journal_t :=
  { j with num := j.num + 1, log := fun i => if i.val = j.num then entry else j.log i }

end pfs_journal_t

namespace pfs_cache_t

/-- `flags & PFS_CACHE_FLAG_DIRTY` of a buffer of the mount. -/
def isDirty (m : pfs_mount_t) (clink : pfs_cache_t) : Bool :=
  clink.flags &&& PFS_CACHE_FLAG_DIRTY != 0 && clink.pfsMount == m.self

/-- `flags & (PFS_CACHE_FLAG_SEGD | PFS_CACHE_FLAG_SEGI)` -/
def isInode (clink : pfs_cache_t) : Bool :=
  clink.flags &&& (PFS_CACHE_FLAG_SEGD ||| PFS_CACHE_FLAG_SEGI) != 0

/-- The buffer with the checksum `pfsJournalWrite` puts into an inode. -/
def sealed (clink : pfs_cache_t) : pfs_cache_t :=
  if clink.isInode then
    { clink with data := (Function.update clink.data.1 0 (pfsInodeCheckSum clink.data), clink.data.2) }
  else clink

/-- `block << pfsBlockSize`, the first sector of the block. -/
def sector (clink : pfs_cache_t) : Nat := u32 (clink.block * 2)

end pfs_cache_t

/-! ### Transfers -/

/-- The address of a sector of a partition. -/
def place (sub sector : Nat) : Nat := Nat.pair sub sector

/-- The writes of `data` from a sector on. -/
def writesAt (sub : Nat) : Nat → List Sector → List (Nat × Sector)
  | _, [] => []
  | sector, s :: data => (place sub sector, s) :: writesAt sub (sector + 1) data

namespace Drive

/-- `blockDev->transfer` in write mode. -/
def write (sub sector : Nat) (data : List Sector) (d : Drive) : Int × Drive :=
  let writes := writesAt sub sector data
  if writes.any (fun w => d.fails w.1) then (- EIO, d)
  else (0, { d with
    disk := applyWrites writes d.disk
    ops := d.ops ++ writes.map fun w => .write w.1 w.2 })

/-- `blockDev->transfer` of two sectors in read mode. -/
def readBlock (sub sector : Nat) (d : Drive) : Option Block :=
  if d.fails (place sub sector) || d.fails (place sub (sector + 1)) then none
  else some (d.disk (place sub sector), d.disk (place sub (sector + 1)))

/-- `blockDev->flushCache` -/
def flushCache (d : Drive) : Drive := { d with ops := d.ops ++ [.flush] }

end Drive

/-- `log.number << sector_scale` -/
def pfs_mount_t.logStart (m : pfs_mount_t) : Nat := u32 (m.log_number * 2 ^ m.sector_scale)

/-- `pfsFsckStat` with `PFS_MODE_SET_FLAG`; the superblock is read into the buffer `superblock`. -/
def pfsFsckStat (stat : Nat) (superblock : Block) (d : Drive) : Block × Drive :=
  if d.fails (place 0 PFS_SUPER_SECTOR) then (superblock, d)
  else
    let s := d.disk (place 0 PFS_SUPER_SECTOR)
    let s := Function.update s 3 (s 3 ||| stat)
    ((s, superblock.2), (d.write 0 PFS_SUPER_SECTOR [s]).2.flushCache)

/-! ### The journal -/

def pfsJournalFlush (m : pfs_mount_t) (d : Drive) : Int × Drive :=
  let d := d.flushCache
  let j := { d.pfsJournalBuf with checksum := pfsJournalChecksum d.pfsJournalBuf.toBlock }
  let d := { d with pfsJournalBuf := j }
  let (rv, d) := d.write 0 m.logStart [j.toBlock.1, j.toBlock.2]
  (rv, d.flushCache)

def pfsJournalReset (m : pfs_mount_t) (d : Drive) : Int × Drive :=
  let d := { d with pfsJournalBuf := .reset }
  let d := d.flushCache
  let (rv, d) := d.write 0 m.logStart
    [pfs_journal_t.reset.toBlock.1, pfs_journal_t.reset.toBlock.2]
  (rv, d.flushCache)

/-- The loop of `pfsJournalWrite` over the buffers from number `i` on: what it leaves in the buffers and in the journal. -/
def journalLoop (m : pfs_mount_t) : Nat → List pfs_cache_t → pfs_journal_t →
    List pfs_cache_t × pfs_journal_t
  | _, [], j => ([], j)
  | i, clink :: rest, j =>
    if clink.isDirty m then
      let clink := clink.sealed
      let (rest, j) := journalLoop m (i + 1) rest (j.push ⟨clink.sector, clink.sub, 2 + 2 * i⟩)
      (clink :: rest, j)
    else
      let (rest, j) := journalLoop m (i + 1) rest j
      (clink :: rest, j)

def pfsJournalWrite (m : pfs_mount_t) (d : Drive) : Drive :=
  let (cache, j) := journalLoop m 0 d.pfsCacheBuf d.pfsJournalBuf
  let d := { d with pfsCacheBuf := cache, pfsJournalBuf := j }
  let data := cache.flatMap fun clink : pfs_cache_t => [clink.data.1, clink.data.2]
  let (rv, d) : Int × Drive := d.write 0 (u32 (m.logStart + 2)) data
  if 0 ≤ rv then (pfsJournalFlush m d).2 else d

/-- `pfsCacheTransfer` in write mode. -/
def pfsCacheTransfer (clink : pfs_cache_t) (d : Drive) : pfs_cache_t × Drive :=
  let clean (clink : pfs_cache_t) := { clink with flags := clink.flags &&& ~~~ PFS_CACHE_FLAG_DIRTY }
  if d.lastError = 0 then
    let (err, d) := d.write clink.sub clink.sector [clink.data.1, clink.data.2]
    if err ≠ 0 && d.errorStat then
      let (data, d) := pfsFsckStat PFS_FSCK_STAT_WRITE_ERROR clink.data d
      (clean { clink with data := data }, { d with lastError := err })
    else (clean clink, d)
  else (clean clink, d)

/-- The second loop of `pfsCacheFlushAllDirty`. -/
def transferLoop (m : pfs_mount_t) : List pfs_cache_t → Drive → List pfs_cache_t × Drive
  | [], d => ([], d)
  | clink :: rest, d =>
    let (clink, d) := if clink.isDirty m then pfsCacheTransfer clink d else (clink, d)
    let (rest, d) := transferLoop m rest d
    (clink :: rest, d)

def pfsCacheFlushAllDirty (m : pfs_mount_t) (d : Drive) : Drive :=
  let found := d.pfsCacheBuf.any (·.isDirty m)
  let d :=
    if found then
      let d := pfsJournalWrite m d
      let (cache, d) := transferLoop m d.pfsCacheBuf d
      { d with pfsCacheBuf := cache }
    else d
  (pfsJournalReset m d).2

/-- The loop of `pfsJournalRestore` from entry `i` on, `n` entries at most. What lies behind the 127 entries is not modelled. -/
def restoreLoop (m : pfs_mount_t) : Nat → Nat → Drive → Drive
  | 0, _, d => d
  | n + 1, i, d =>
    if h : i < 127 then
      let entry := d.pfsJournalBuf.log ⟨i, h⟩
      match d.readBlock 0 (u32 (m.logStart + entry.logSector)) with
      | none => restoreLoop m n (i + 1) d
      | some data => restoreLoop m n (i + 1) (d.write entry.sub entry.sector [data.1, data.2]).2
    else d

/-- `pfsJournalRestore`, with a clean buffer at hand. -/
def pfsJournalRestore (m : pfs_mount_t) (d : Drive) : Int × Drive :=
  match d.readBlock 0 m.logStart with
  | none => pfsJournalReset m d
  | some b =>
    let j := pfs_journal_t.ofBlock b
    let d := { d with pfsJournalBuf := j }
    if j.magic ≠ PFS_JOUNRNAL_MAGIC ∨ j.checksum ≠ pfsJournalChecksum b then pfsJournalReset m d
    else if j.num = 0 then pfsJournalReset m d
    else pfsJournalReset m (restoreLoop m j.num 0 d)

/-! ### Words and records -/

theorem word_toBlock (j : pfs_journal_t) (i : Fin 256) : word j.toBlock i.val = j.words i := by
  unfold word
  split
  · rfl
  · rename_i hge
    have hlt : i.val - 128 < 128 := by omega
    rw [dif_pos hlt]
    change j.words ⟨i.val - 128 + 128, by omega⟩ = j.words i
    congr 1
    ext
    simp only
    omega

/-- A journal whose short fields fit is read back as it was written. -/
theorem ofBlock_toBlock {j : pfs_journal_t} (hnum : j.num < 65536)
    (hsub : ∀ i, (j.log i).sub < 65536) : pfs_journal_t.ofBlock j.toBlock = j := by
  have hzero : word j.toBlock 0 = j.magic := word_toBlock j 0
  have hone : word j.toBlock 1 = j.num + 65536 * j.checksum := word_toBlock j 1
  have heven : ∀ i : Fin 127, word j.toBlock (2 * i.val + 2) = (j.log i).sector := by
    intro i
    rw [word_toBlock j ⟨2 * i.val + 2, by omega⟩]
    have hindex : (2 * i.val + 2 - 2) / 2 = i.val := by omega
    simp only [pfs_journal_t.words, hindex, show ¬ 2 * i.val + 2 = 0 by omega,
      show ¬ 2 * i.val + 2 = 1 by omega, show (2 * i.val + 2) % 2 = 0 by omega, if_true, if_false]
  have hodd : ∀ i : Fin 127, word j.toBlock (2 * i.val + 3) =
      (j.log i).sub + 65536 * (j.log i).logSector := by
    intro i
    rw [word_toBlock j ⟨2 * i.val + 3, by omega⟩]
    have hindex : (2 * i.val + 3 - 2) / 2 = i.val := by omega
    simp only [pfs_journal_t.words, hindex, show ¬ 2 * i.val + 3 = 0 by omega,
      show ¬ 2 * i.val + 3 = 1 by omega, show ¬ (2 * i.val + 3) % 2 = 0 by omega, if_false]
  cases j with
  | mk magic num checksum log =>
    simp only at hzero hone heven hodd hnum hsub
    simp only [pfs_journal_t.ofBlock, hzero, hone, heven, hodd, pfs_journal_t.mk.injEq]
    refine ⟨trivial, by omega, by omega, ?_⟩
    funext i
    have := hsub i
    cases hentry : log i with
    | mk sector sub logSector =>
      rw [hentry] at this
      simp only [pfs_log_t.mk.injEq, true_and]
      simp only at this
      omega

theorem pfsJournalChecksum_checksum (j : pfs_journal_t) (checksum : Nat) :
    pfsJournalChecksum ({ j with checksum := checksum } : pfs_journal_t).toBlock =
      pfsJournalChecksum j.toBlock := by
  have hwords : (List.range' 2 254).map (word ({ j with checksum := checksum } : pfs_journal_t).toBlock) =
      (List.range' 2 254).map (word j.toBlock) := by
    refine List.map_congr_left fun i hi => ?_
    have hi' := List.mem_range'_1.mp hi
    have hlt : i < 256 := by omega
    have heq := word_toBlock ({ j with checksum := checksum } : pfs_journal_t) ⟨i, hlt⟩
    have heq' := word_toBlock j ⟨i, hlt⟩
    simp only at heq heq'
    rw [heq, heq', pfs_journal_t.words, pfs_journal_t.words]
    simp only [show ¬ i = 0 by omega, show ¬ i = 1 by omega, if_false]
  rw [pfsJournalChecksum, hwords, pfsJournalChecksum]

theorem pfsInodeCheckSum_sealed {clink : pfs_cache_t} (h : clink.isInode = true) :
    word clink.sealed.data 0 = pfsInodeCheckSum clink.sealed.data := by
  have hdata : clink.sealed.data =
      (Function.update clink.data.1 0 (pfsInodeCheckSum clink.data), clink.data.2) := by
    rw [pfs_cache_t.sealed, if_pos h]
  have hwords : (List.range' 1 255).map (word clink.sealed.data) =
      (List.range' 1 255).map (word clink.data) := by
    refine List.map_congr_left fun i hi => ?_
    have hi' := (List.mem_range'_1.mp hi).1
    rw [hdata]
    unfold word
    split
    · have hne : ¬ i = 0 := by omega
      simp [Function.update, Fin.ext_iff, hne]
    · rfl
  rw [pfsInodeCheckSum, hwords, ← pfsInodeCheckSum, hdata]
  simp [word]

-- comparing journals field by field must not start to add up their words
attribute [irreducible] pfsJournalChecksum pfsInodeCheckSum

@[simp] theorem sealed_sub (clink : pfs_cache_t) : clink.sealed.sub = clink.sub := by
  unfold pfs_cache_t.sealed
  split <;> rfl

@[simp] theorem sealed_sector (clink : pfs_cache_t) : clink.sealed.sector = clink.sector := by
  unfold pfs_cache_t.sealed
  split <;> rfl

@[simp] theorem sealed_isDirty (m : pfs_mount_t) (clink : pfs_cache_t) :
    clink.sealed.isDirty m = clink.isDirty m := by
  unfold pfs_cache_t.sealed
  split <;> rfl

end HddChecker.Pfs.Journal
