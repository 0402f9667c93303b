import HddChecker.Fsck.Session
import HddChecker.Pfs.Cache
import HddChecker.Pfs.Restore

/-!
# Mounting a filesystem

`pfsMountSuperBlock` on a device each command of which may fail. Sub-partitions that were attached since the last mount get a bitmap before the superblock takes note of them; the log is replayed after that, and then the free zones are counted. Of the buffers the module keeps the use counts and the ring of the free ones: when a filesystem is mounted none of them holds a block of it.
-/

namespace HddChecker.Pfs.Commands

open FaultyDisk Journal
open HddChecker.Fsck (pfsGetScale pfsGetBitmapSizeSectors pfsGetBitmapSizeBlocks PFS_SUPER_MAGIC PFS_FORMAT_VERSION
  PFS_SUPER_BACKUP_SECTOR)

def PFS_FIO_ATTR_EXECUTABLE : Nat := 0x04

/-- What the device says of its partitions; what lies behind the entries of `pfsJournalBuf`, and what a buffer holds where a block could not be read into it. `errorStat` says whether the driver was built without `PFS_NO_WRITE_ERROR_STAT`. -/
structure block_device_t where
  getSubNumber : Nat
  getSize : Nat → Nat
  behind : Nat → pfs_log_t
  unread : Nat → Nat → Block
  errorStat : Bool

/-- The disk, the use counts of the buffers, the free ones from the head of their ring on, and the error of the mount. -/
structure Volume where
  disk : FaultyDisk Sector
  nused : Nat → Nat
  free : List Nat
  lastError : Int

structure Mounted where
  superblock : Sector
  zsize : Nat
  sector_scale : Nat
  inode_scale : Nat
  num_subs : Nat
  total_zones : Nat
  zfree : Nat
  free_zone : Nat → Nat

/-! ### Buffers -/

/-- The first buffer of the ring is given a reference. No buffer is dirty. -/
def pfsCacheAlloc (s : Volume) : Option Nat × Volume :=
  match s.free with
  | [] => (none, s)
  | i :: free => (some i, { s with nused := Function.update s.nused i 1, free := free })

/-- `pfsCacheFree`; a buffer that holds a block becomes the last of the ring, and else the first. -/
def pfsCacheFree (i : Nat) (held : Bool) (s : Volume) : Volume :=
  if s.nused i = 0 then s
  else
    let s := { s with nused := Function.update s.nused i (s.nused i - 1) }
    if s.nused i ≠ 0 then s
    else { s with free := if held then s.free ++ [i] else i :: s.free }

/-! ### New sub-partitions -/

/-- The bit of zone `j` is set; `b` is the word that the zones before it ended in. -/
def reserveBit (x : Nat × (Nat → Nat)) (j : Nat) : Nat × (Nat → Nat) :=
  let b := if j ≠ 0 ∧ j % 32 = 0 then x.1 + 1 else x.1
  (b, Function.update x.2 b (x.2 b ||| 2 ^ (j % 32)))

/-- The bitmap buffer with the first zones set as allocated. -/
def reserve (reserved fragment : Nat) : Sector := fun w =>
  ((List.range reserved).foldl reserveBit (0, fun _ => fragment)).2 w.val

/-- The loop of `pfsFormatSub` that writes `count` sectors of a bitmap. -/
def writeBitmap (sub fragment : Nat) : (count sector : Nat) → Sector → FaultyDisk Sector → Int × FaultyDisk Sector
  | 0, _, _, d => (0, d)
  | count + 1, sector, bitmap, d =>
    match d.write [(place sub sector, bitmap)] with
    | (true, d) => writeBitmap sub fragment count (sector + 1) (fun _ => fragment) d
    | (false, d) => (- EIO, d)

def pfsFormatSub (B : block_device_t) (sub reserved scale fragment : Nat) (s : Volume) : Int × Volume :=
  let size := B.getSize sub
  let sector := 2 ^ scale + if 2 ≤ reserved then 0x2000 else 0
  let count := pfsGetBitmapSizeSectors scale size
  let reserved := reserved + pfsGetBitmapSizeBlocks scale size
  match pfsCacheAlloc s with
  | (none, s) => (- ENOMEM, s)
  | (some cache, s) =>
    let (result, disk) := writeBitmap sub fragment count sector (reserve reserved fragment) s.disk
    (result, pfsCacheFree cache false { s with disk := disk })

/-- The loop of `pfsUpdateSuperBlock` over `n` sub-partitions from number `i` on. -/
def formatSubs (B : block_device_t) (scale : Nat) : (n i : Nat) → Volume → Int × Volume
  | 0, _, s => (0, s)
  | n + 1, i, s =>
    let (rv, s) := pfsFormatSub B i 1 scale 0 s
    if rv < 0 then (rv, s) else formatSubs B scale n (i + 1) s

/-- The superblock is written to its place, and where that succeeds to that of its backup. -/
def writeSuper (superblock : Sector) (d : FaultyDisk Sector) : Int × FaultyDisk Sector :=
  match d.write [(place 0 PFS_SUPER_SECTOR, superblock)] with
  | (true, d) =>
    let (ok, d) := d.write [(place 0 PFS_SUPER_BACKUP_SECTOR, superblock)]
    (if ok then 0 else - EIO, d.flush.2)
  | (false, d) => (- EIO, d.flush.2)

/-- `pfsUpdateSuperBlock`: the result, and the superblock in its buffer. -/
def pfsUpdateSuperBlock (B : block_device_t) (superblock : Sector) (sub : Nat) (s : Volume) : Int × Sector × Volume :=
  let scale := pfsGetScale (superblock 4) 512
  let (rv, s) := formatSubs B scale (sub - superblock 5) (superblock 5 + 1) s
  if rv < 0 then (rv, superblock, s)
  else
    let superblock := Function.update superblock 5 sub
    let (rv, disk) := writeSuper superblock s.disk
    (rv, superblock, { s with disk := disk })

/-! ### Free zones -/

/-- `pfsFsckStat` with `PFS_MODE_SET_FLAG` -/
def pfsFsckStat (stat : Nat) (d : FaultyDisk Sector) : FaultyDisk Sector :=
  match d.read [place 0 PFS_SUPER_SECTOR] with
  | (some [s], d) =>
    (d.write [(place 0 PFS_SUPER_SECTOR, Function.update s 3 (s 3 ||| stat))]).2.flush.2
  | (_, d) => d

/-- `pfsCacheGetData` for a block of a bitmap: the buffer and its data. -/
def readBitmap (B : block_device_t) (sub block : Nat) (s : Volume) : Option (Nat × Block) × Volume :=
  match pfsCacheAlloc s with
  | (none, s) => (none, s)
  | (some i, s) =>
    if s.lastError ≠ 0 then (none, pfsCacheFree i false s)
    else
      let sector := u32 (block * 2)
      match s.disk.read [place sub sector, place sub (sector + 1)] with
      | (some [a, b], disk) => (some (i, a, b), { s with disk := disk })
      | (_, disk) =>
        if B.errorStat then
          (none, pfsCacheFree i false
            { s with disk := pfsFsckStat PFS_FSCK_STAT_WRITE_ERROR disk, lastError := - EIO })
        else (some (i, B.unread sub block), { s with disk := disk })

/-- How many of four bits are clear. -/
def pfsFreeZoneBitmap (bits : Nat) : Nat := [4, 3, 3, 2, 3, 2, 2, 1, 3, 2, 2, 1, 2, 1, 1, 0].getD bits 0

def byte (b : Block) (i : Nat) : Nat := word b (i / 4) / 256 ^ (i % 4) % 256

/-- The free zones in the first bytes of a block. -/
def freeInBytes (b : Block) (bitmapSize : Nat) : Nat :=
  ((List.range bitmapSize).map fun i => pfsFreeZoneBitmap (byte b i % 16) + pfsFreeZoneBitmap (byte b i / 16)).sum

/-- The loop of `pfsBitmapCalcFreeZones` over `n` chunks from `chunk` on, over the zones that are free so far. -/
def freeInChunks (B : block_device_t) (sub inode_scale : Nat) (info : pfs_bitmapInfo_t) : (n chunk zoneFree : Nat) → Volume → Nat × Volume
  | 0, _, zoneFree, s => (zoneFree, s)
  | n + 1, chunk, zoneFree, s =>
    if info.hasChunk chunk then
      let bitmapSize := if chunk = info.partitionChunks then info.partitionRemainder / 8 else pfsMetaSize
      let block := 2 ^ inode_scale + chunk + if sub = 0 then 0x2000 / 2 else 0
      match readBitmap B sub block s with
      | (some (i, data), s) =>
        freeInChunks B sub inode_scale info n (chunk + 1) (u32 (zoneFree + freeInBytes data bitmapSize))
          (pfsCacheFree i true s)
      | (none, s) => freeInChunks B sub inode_scale info n (chunk + 1) zoneFree s
    else (zoneFree, s)

/-- The chunks of a bitmap of so many zones, from the first zone on. -/
def bitmapInfo (zones : Nat) : pfs_bitmapInfo_t where
  chunk := 0
  bit := 0
  index := 0
  partitionChunks := zones / pfsBitsPerBitmapChunk
  partitionRemainder := zones % pfsBitsPerBitmapChunk

def pfsBitmapCalcFreeZones (B : block_device_t) (sector_scale inode_scale sub : Nat) (s : Volume) : Nat × Volume :=
  let info := bitmapInfo (B.getSize sub / 2 ^ sector_scale)
  freeInChunks B sub inode_scale info (info.partitionChunks + 1) 0 0 s

/-! ### The mount -/

/-- The loop of `pfsMountSuperBlock` over `n` partitions from number `i` on. -/
def countZones (B : block_device_t) : (n i : Nat) → Mounted → Volume → Mounted × Volume
  | 0, _, m, s => (m, s)
  | n + 1, i, m, s =>
    let (free, s) := pfsBitmapCalcFreeZones B m.sector_scale m.inode_scale i s
    countZones B n (i + 1) { m with
      total_zones := u32 (m.total_zones + B.getSize i / 2 ^ m.sector_scale)
      free_zone := Function.update m.free_zone i free
      zfree := u32 (m.zfree + free) } s

def pfsCheckZoneSize (zone_size : Nat) : Bool :=
  !(zone_size &&& (zone_size - 1) != 0 || decide (zone_size < 2 * 1024) || decide (128 * 1024 < zone_size))

/-- The mount as the superblock has it. -/
def mountOf (superblock : Sector) : Mounted where
  superblock := superblock
  zsize := superblock 4
  sector_scale := pfsGetScale (superblock 4) 512
  inode_scale := pfsGetScale (superblock 4) pfsMetaSize
  num_subs := superblock 5
  total_zones := 0
  zfree := 0
  free_zone _ := 0

/-- `pfsMountSuperBlock` behind the update: the log is replayed and the zones are counted. -/
def mountVolume (B : block_device_t) (superblock : Sector) (s : Volume) : Mounted × Volume :=
  let m := mountOf superblock
  let log : Journal.pfs_mount_t := ⟨1, superblock 6, m.sector_scale⟩
  let clean := if s.free = [] then .error (- ENOMEM) else .ok ()
  let (_, disk) := pfsJournalRestore clean log B.behind s.disk
  countZones B (m.num_subs + 1) 0 m { s with disk := disk }

def accepted (superblock : Sector) (flags sub : Nat) : Bool :=
  superblock 0 == PFS_SUPER_MAGIC && decide (superblock 1 ≤ PFS_FORMAT_VERSION) && pfsCheckZoneSize (superblock 4) &&
    !(superblock 3 &&& PFS_FSCK_STAT_WRITE_ERROR != 0 && flags &&& PFS_FIO_ATTR_EXECUTABLE != 0) &&
    decide (superblock 5 ≤ sub)

/-- `pfsMountSuperBlock` with the superblock in its buffer: the result, and the mount if there is one. -/
def mountSuper (B : block_device_t) (superblock : Sector) (s : Volume) : Int × Option Mounted × Volume :=
  let (result, superblock, s) : Int × Sector × Volume :=
    if superblock 5 < B.getSubNumber then pfsUpdateSuperBlock B superblock B.getSubNumber s else (0, superblock, s)
  if result ≠ 0 then (result, none, s)
  else
    let (m, s) := mountVolume B superblock s
    (0, some m, s)

/-- `pfsMountSuperBlock` of a mount with the flags -/
def pfsMountSuperBlock (B : block_device_t) (flags : Nat) (s : Volume) : Int × Option Mounted × Volume :=
  match pfsCacheAlloc s with
  | (none, s) => (- ENOMEM, none, s)
  | (some clink, s) =>
    match s.disk.read [place 0 PFS_SUPER_SECTOR] with
    | (some [superblock], disk) =>
      let (result, m, s) :=
        if accepted superblock flags B.getSubNumber then mountSuper B superblock { s with disk := disk }
        else (- EIO, none, { s with disk := disk })
      (result, m, pfsCacheFree clink false s)
    | (_, disk) => (- EIO, none, pfsCacheFree clink false { s with disk := disk })

variable {B : block_device_t} {s s₁ s₂ : Volume} {i : Nat} {held : Bool}

/-! ### The buffers -/

/-- The free buffers are without a reference, and no two of them are the same. -/
structure Idle (s : Volume) : Prop where
  nodup : s.free.Nodup
  unused : ∀ i ∈ s.free, s.nused i = 0

/-- The use counts are the same, and the same buffers are free. -/
structure Kept (s s' : Volume) : Prop where
  nused : s'.nused = s.nused
  free : s'.free.Perm s.free

theorem Kept.refl (s : Volume) : Kept s s := ⟨rfl, .refl _⟩

theorem Kept.trans (h : Kept s s₁) (h' : Kept s₁ s₂) : Kept s s₂ :=
  ⟨h'.nused.trans h.nused, h'.free.trans h.free⟩

theorem Idle.kept (h : Idle s) (h' : Kept s s₁) : Idle s₁ :=
  ⟨h'.free.nodup_iff.mpr h.nodup, fun i hi => by rw [h'.nused]; exact h.unused i (h'.free.mem_iff.mp hi)⟩

theorem pfsCacheAlloc_some (h : pfsCacheAlloc s = (some i, s₁)) :
    ∃ free, s.free = i :: free ∧ s₁ = { s with nused := Function.update s.nused i 1, free := free } := by
  unfold pfsCacheAlloc at h
  split at h
  · cases h
  · rename_i j free hfree
    cases h
    exact ⟨free, hfree, rfl⟩

theorem pfsCacheAlloc_none (h : pfsCacheAlloc s = (none, s₁)) : s.free = [] ∧ s₁ = s := by
  unfold pfsCacheAlloc at h
  split at h
  · rename_i hfree
    cases h
    exact ⟨hfree, rfl⟩
  · cases h

theorem Idle.alloc (h : Idle s) (halloc : pfsCacheAlloc s = (some i, s₁)) : Idle s₁ := by
  obtain ⟨free, hfree, rfl⟩ := pfsCacheAlloc_some halloc
  have hnodup := h.nodup
  rw [hfree] at hnodup
  obtain ⟨hi, hnodup⟩ := List.nodup_cons.mp hnodup
  refine ⟨hnodup, fun j hj => ?_⟩
  have hne : j ≠ i := fun heq => hi (heq ▸ hj)
  exact (Function.update_of_ne hne _ _).trans (h.unused j (hfree ▸ List.mem_cons_of_mem _ hj))

/-- A buffer is taken, and given back when what was done with it is done. -/
theorem Kept.given (h : Idle s) (halloc : pfsCacheAlloc s = (some i, s₁)) (hkept : Kept s₁ s₂) :
    Kept s (pfsCacheFree i held s₂) := by
  obtain ⟨free, hfree, rfl⟩ := pfsCacheAlloc_some halloc
  obtain ⟨hnused, hperm⟩ := hkept
  dsimp only at hnused hperm
  have hone : s₂.nused i = 1 := by rw [hnused, Function.update_self]
  have hzero : Function.update s₂.nused i (s₂.nused i - 1) = s.nused := by
    rw [hone, hnused, Function.update_idem]
    exact Function.update_eq_self_iff.mpr (h.unused i (hfree ▸ List.mem_cons_self)).symm
  have hidle : ¬ s.nused i ≠ 0 := not_not_intro (h.unused i (hfree ▸ List.mem_cons_self))
  unfold pfsCacheFree
  rw [if_neg (by omega)]
  simp only [hzero, if_neg hidle]
  refine ⟨rfl, ?_⟩
  rw [hfree]
  cases held with
  | true => exact (List.perm_append_singleton i s₂.free).trans (hperm.cons i)
  | false => exact hperm.cons i

theorem kept_formatSub (h : Idle s) (sub reserved scale fragment : Nat) :
    Kept s (pfsFormatSub B sub reserved scale fragment s).2 := by
  unfold pfsFormatSub
  rcases halloc : pfsCacheAlloc s with ⟨_ | cache, s₁⟩
  · obtain ⟨-, rfl⟩ := pfsCacheAlloc_none halloc
    exact Kept.refl _
  · exact Kept.given h halloc ⟨rfl, .refl _⟩

private theorem kept_formatSubs (h : Idle s) (scale n i : Nat) : Kept s (formatSubs B scale n i s).2 := by
  induction n generalizing i s with
  | zero => exact Kept.refl _
  | succ n ih =>
    have hone := kept_formatSub (B := B) h i 1 scale 0
    rw [formatSubs]
    simp only
    split
    · exact hone
    · exact hone.trans (ih (h.kept hone) (i + 1))

theorem kept_update (h : Idle s) (superblock : Sector) (sub : Nat) :
    Kept s (pfsUpdateSuperBlock B superblock sub s).2.2 := by
  have hloop := kept_formatSubs (B := B) h (pfsGetScale (superblock 4) 512) (sub - superblock 5) (superblock 5 + 1)
  unfold pfsUpdateSuperBlock
  simp only
  split
  · exact hloop
  · exact ⟨hloop.nused, hloop.free⟩

/-- A block of a bitmap that was read and given back, or not read. -/
theorem kept_readBitmap (h : Idle s) (sub block : Nat) :
    match readBitmap B sub block s with
    | (some (i, _), s') => Kept s (pfsCacheFree i true s')
    | (none, s') => Kept s s' := by
  unfold readBitmap
  rcases halloc : pfsCacheAlloc s with ⟨_ | i, s₁⟩
  · obtain ⟨-, rfl⟩ := pfsCacheAlloc_none halloc
    exact Kept.refl _
  · dsimp only
    by_cases herror : s₁.lastError ≠ 0
    · rw [if_pos herror]
      exact Kept.given h halloc (Kept.refl _)
    · rw [if_neg herror]
      generalize s₁.disk.read _ = r
      obtain ⟨_ | ⟨_ | ⟨a, _ | ⟨b, _ | ⟨c, rest⟩⟩⟩⟩, disk⟩ := r
      case some.cons.cons.nil => exact Kept.given h halloc ⟨rfl, .refl _⟩
      all_goals
        dsimp only
        cases B.errorStat with
        | true => exact Kept.given h halloc ⟨rfl, .refl _⟩
        | false => exact Kept.given h halloc ⟨rfl, .refl _⟩

theorem kept_freeInChunks (h : Idle s) (sub inode_scale : Nat) (info : pfs_bitmapInfo_t) (n chunk zoneFree : Nat) :
    Kept s (freeInChunks B sub inode_scale info n chunk zoneFree s).2 := by
  induction n generalizing chunk zoneFree s with
  | zero => exact Kept.refl _
  | succ n ih =>
    rw [freeInChunks]
    split
    · have hread := kept_readBitmap (B := B) h sub (2 ^ inode_scale + chunk + if sub = 0 then 0x2000 / 2 else 0)
      simp only
      generalize readBitmap B sub (2 ^ inode_scale + chunk + if sub = 0 then 0x2000 / 2 else 0) s = r at hread
      obtain ⟨_ | ⟨i, data⟩, s'⟩ := r
      · exact hread.trans (ih (h.kept hread) _ _)
      · exact hread.trans (ih (h.kept hread) _ _)
    · exact Kept.refl _

private theorem kept_countZones (h : Idle s) (n i : Nat) (m : Mounted) : Kept s (countZones B n i m s).2 := by
  induction n generalizing i m s with
  | zero => exact Kept.refl _
  | succ n ih =>
    have hone : Kept s (pfsBitmapCalcFreeZones B m.sector_scale m.inode_scale i s).2 := kept_freeInChunks h _ _ _ _ _ _
    exact hone.trans (ih (h.kept hone) _ _)

private theorem kept_mountSuper (h : Idle s) (superblock : Sector) : Kept s (mountSuper B superblock s).2.2 := by
  have hvolume : ∀ superblock s₁, Kept s s₁ → Kept s (mountVolume B superblock s₁).2 := by
    intro superblock s₁ hkept
    have hdisk : ∀ disk, Kept s₁ { s₁ with disk := disk } := fun _ => ⟨rfl, .refl _⟩
    exact hkept.trans ((hdisk _).trans (kept_countZones ((h.kept hkept).kept (hdisk _)) _ _ _))
  unfold mountSuper
  simp only
  split_ifs with hnew hresult hresult
  · exact kept_update h _ _
  · exact hvolume _ _ (kept_update h _ _)
  · exact Kept.refl _
  · exact hvolume _ _ (Kept.refl _)

/-- However a mount ends, it leaves no buffer with a reference it took. -/
theorem kept_pfsMountSuperBlock (h : Idle s) (flags : Nat) : Kept s (pfsMountSuperBlock B flags s).2.2 := by
  unfold pfsMountSuperBlock
  rcases halloc : pfsCacheAlloc s with ⟨_ | clink, s₁⟩
  · obtain ⟨-, rfl⟩ := pfsCacheAlloc_none halloc
    exact Kept.refl _
  · have hdisk : ∀ disk, Kept s₁ { s₁ with disk := disk } := fun _ => ⟨rfl, .refl _⟩
    dsimp only
    split
    · rename_i superblock disk hread
      refine Kept.given h halloc ?_
      split
      · exact (hdisk disk).trans (kept_mountSuper ((h.alloc halloc).kept (hdisk disk)) superblock)
      · exact hdisk disk
    · exact Kept.given h halloc (hdisk _)

/-! ### Results -/

variable {superblock : Sector} {flags : Nat}

/-- What a mount says of its superblock, which was accepted. -/
structure Mounted.Accepted (B : block_device_t) (flags : Nat) (m : Mounted) : Prop where
  superblock : accepted m.superblock flags B.getSubNumber = true
  zsize : m.zsize = m.superblock 4
  num_subs : m.num_subs = m.superblock 5

theorem EIO_neg : - EIO < 0 := by decide

private theorem ENOMEM_neg : - ENOMEM < 0 := by decide

private theorem writeSuper_nonpos (superblock : Sector) (d : FaultyDisk Sector) : (writeSuper superblock d).1 ≤ 0 := by
  unfold writeSuper
  split
  · dsimp only
    split
    · exact le_refl _
    · exact le_of_lt EIO_neg
  · exact le_of_lt EIO_neg

/-- An update fails with a negative value, and else its superblock has the new number of sub-partitions. -/
theorem pfsUpdateSuperBlock_result (superblock : Sector) (sub : Nat) :
    (pfsUpdateSuperBlock B superblock sub s).1 ≤ 0 ∧ ((pfsUpdateSuperBlock B superblock sub s).1 = 0 →
      (pfsUpdateSuperBlock B superblock sub s).2.1 = Function.update superblock 5 sub) := by
  unfold pfsUpdateSuperBlock
  simp only
  split
  · rename_i hneg
    exact ⟨le_of_lt hneg, fun hzero => absurd hneg (not_lt.mpr (le_of_eq hzero.symm))⟩
  · exact ⟨writeSuper_nonpos _ _, fun _ => rfl⟩

private theorem accepted_update {n : Nat} (h : accepted superblock flags n = true) :
    accepted (Function.update superblock 5 n) flags n = true := by
  have hword : ∀ k : Fin 128, k ≠ 5 → Function.update superblock 5 n k = superblock k :=
    fun k hk => Function.update_of_ne hk _ _
  unfold accepted at h ⊢
  rw [hword 0 (by decide), hword 1 (by decide), hword 3 (by decide), hword 4 (by decide), Function.update_self,
    decide_eq_true (le_refl n), Bool.and_true]
  exact (Bool.and_eq_true_iff.mp h).1

private theorem countZones_accepted {n : Nat} {m : Mounted} (h : m.Accepted B flags) :
    (countZones B n i m s).1.Accepted B flags := by
  induction n generalizing i m s with
  | zero => exact h
  | succ n ih => exact ih ⟨h.superblock, h.zsize, h.num_subs⟩

theorem mountVolume_accepted (h : accepted superblock flags B.getSubNumber = true) :
    (mountVolume B superblock s).1.Accepted B flags := countZones_accepted ⟨h, rfl, rfl⟩

private theorem mountSuper_result (h : accepted superblock flags B.getSubNumber = true) :
    (mountSuper B superblock s).1 < 0 ∨
      (mountSuper B superblock s).1 = 0 ∧ ∃ m, (mountSuper B superblock s).2.1 = some m ∧ m.Accepted B flags := by
  unfold mountSuper
  obtain ⟨hnonpos, hsuper⟩ := pfsUpdateSuperBlock_result (B := B) (s := s) superblock B.getSubNumber
  simp only
  split_ifs with hnew hresult hresult
  · exact .inl (lt_of_le_of_ne hnonpos hresult)
  · refine .inr ⟨rfl, _, rfl, mountVolume_accepted ?_⟩
    rw [hsuper (not_not.mp hresult)]
    exact accepted_update h
  · exact absurd rfl hresult
  · exact .inr ⟨rfl, _, rfl, mountVolume_accepted h⟩

/-- A mount fails with a negative value, and else there is one whose superblock was accepted. -/
theorem pfsMountSuperBlock_result (flags : Nat) :
    (pfsMountSuperBlock B flags s).1 < 0 ∨ (pfsMountSuperBlock B flags s).1 = 0 ∧
      ∃ m, (pfsMountSuperBlock B flags s).2.1 = some m ∧ m.Accepted B flags := by
  unfold pfsMountSuperBlock
  split
  · exact .inl ENOMEM_neg
  · split
    · dsimp only
      split
      · rename_i haccepted
        exact mountSuper_result haccepted
      · exact .inl EIO_neg
    · exact .inl EIO_neg

end HddChecker.Pfs.Commands
