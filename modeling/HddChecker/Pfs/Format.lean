import HddChecker.Pfs.Adopt
import HddChecker.Pfs.Naming

/-!
# Making a filesystem

`pfsFormat` on a device each command of which may fail. The log, the root directory, its inode and the bitmaps of all partitions are written first, and the superblock after its backup at last; what was made so is then mounted.
-/

namespace HddChecker.Pfs.Commands

open FaultyDisk Journal
open HddChecker.Fsck (pfsGetScale pfsGetBitmapSizeSectors pfsGetBitmapSizeBlocks PFS_SUPER_MAGIC PFS_FORMAT_VERSION
  PFS_SUPER_BACKUP_SECTOR)

abbrev EINVAL : Int := 22

def PFS_MAJOR : Nat := 1

def PFS_MINOR : Nat := 4

/-! ### What is written -/

def wordsBlock (words : Nat → Nat) : Block := (fun w => words w.val, fun w => words (w.val + 128))

def bytesBlock (bytes : Nat → UInt8) : Block := wordsBlock fun w => Bytes.u32 bytes (4 * w)

/-- `pfsInodeFill`: the words of a new inode; `time` is what `pfsGetTime` answers. -/
def pfsInodeFill (time : Nat × Nat) (bi : pfs_blockinfo_t) (mode uid gid : Nat) : Nat → Nat
  | 1 => PFS_SEGD_MAGIC
  | 2 => bi.number -- inode_block
  | 3 => bi.subpart + 65536 * bi.count
  | 6 => bi.number -- last_segment
  | 7 => bi.subpart + 65536 * bi.count
  | 10 => bi.number -- data[0]
  | 11 => bi.subpart + 65536 * bi.count
  | 238 => mode + 65536 * if mode &&& FIO_S_IFMT = FIO_S_IFDIR then 0xA0 else 0
  | 239 => uid + 65536 * gid
  | 240 => time.1 -- atime, ctime, mtime
  | 241 => time.2
  | 242 => time.1
  | 243 => time.2
  | 244 => time.1
  | 245 => time.2
  | 246 => if mode &&& FIO_S_IFMT = FIO_S_IFDIR then DENTRY_SIZE else 0 -- size
  | 248 => if mode &&& FIO_S_IFMT = FIO_S_IFDIR then 2 else 1 -- number_blocks
  | 249 => if mode &&& FIO_S_IFMT = FIO_S_IFDIR then 2 else 1 -- number_data
  | 250 => 1 -- number_segdesg
  | 251 => bi.subpart
  | _ => 0

/-- The inode of the root directory, with the zone behind it as its data. -/
def rootInode (time : Nat × Nat) (root : pfs_blockinfo_t) : Block :=
  let words := Function.update (Function.update (pfsInodeFill time root 0x11FF 0 0) 12 (root.number + 1)) 13 (0 + 65536 * 1)
  wordsBlock (Function.update words 0 (pfsInodeCheckSum (wordsBlock words)))

/-- `sb->log` -/
def newLog (B : block_device_t) (zonesize : Nat) : pfs_blockinfo_t :=
  let scale := pfsGetScale zonesize 512
  ⟨pfsGetBitmapSizeBlocks scale (B.getSize 0) + 0x2000 / 2 ^ scale + 1, 0,
    if 0x20000 / zonesize ≠ 0 then 0x20000 / zonesize else 1⟩

/-- `sb->root` -/
def newRoot (B : block_device_t) (zonesize : Nat) : pfs_blockinfo_t :=
  ⟨(newLog B zonesize).number + (newLog B zonesize).count, 0, 1⟩

def newSuper (B : block_device_t) (zonesize : Nat) : Sector := fun w =>
  [PFS_SUPER_MAGIC, PFS_FORMAT_VERSION, PFS_MAJOR <<< 8 ||| PFS_MINOR, 0, zonesize, B.getSubNumber,
    (newLog B zonesize).number, (newLog B zonesize).subpart + 65536 * (newLog B zonesize).count,
    (newRoot B zonesize).number, (newRoot B zonesize).subpart + 65536 * (newRoot B zonesize).count].getD w.val 0

/-! ### Writing it -/

/-- A block is written to the main partition. -/
def writeBlock (sector : Nat) (b : Block) (d : FaultyDisk Sector) : Int × FaultyDisk Sector :=
  let (ok, d) := d.write (writesAt 0 sector [b.1, b.2])
  (if ok then 0 else - EIO, d)

def pfsJournalResetThis (sector : Nat) (d : FaultyDisk Sector) : Int × FaultyDisk Sector :=
  writeBlock sector pfs_journal_t.reset.toBlock d

/-- The zones that `pfsFormat` has `pfsFormatSub` reserve beside those of the bitmap. -/
def reservedZones (B : block_device_t) (zonesize i : Nat) : Nat :=
  if i ≠ 0 then 1 else 0x2000 / 2 ^ pfsGetScale zonesize 512 + (newLog B zonesize).count + 3

/-- The loop of `pfsFormat` over `n` partitions from number `i` on. -/
def formatPartitions (B : block_device_t) (zonesize fragment : Nat) : (n i : Nat) → Volume → Int × Volume
  | 0, _, s => (0, s)
  | n + 1, i, s =>
    let (result, s) := pfsFormatSub B i (reservedZones B zonesize i) (pfsGetScale zonesize 512) fragment s
    if result < 0 then (result, s) else formatPartitions B zonesize fragment n (i + 1) s

/-- The root directory and its inode. -/
def writeRoot (B : block_device_t) (time : Nat × Nat) (zonesize : Nat) (s : Volume) : Int × Volume :=
  let scale := pfsGetScale zonesize 512
  let root := newRoot B zonesize
  match pfsCacheAlloc s with
  | (none, s) => (- ENOMEM, s)
  | (some cache, s) =>
    let (result2, disk) :=
      writeBlock ((root.number + 1) * 2 ^ scale) (bytesBlock (pfsFillSelfAndParentDentries root root)) s.disk
    let (result2, disk) :=
      if result2 = 0 then writeBlock (root.number * 2 ^ scale) (rootInode time root) disk else (result2, disk)
    (result2, pfsCacheFree cache false { s with disk := disk })

def writeNewSuper (sb : Sector) (d : FaultyDisk Sector) : Int × FaultyDisk Sector :=
  match d.write [(place 0 PFS_SUPER_BACKUP_SECTOR, sb)] with
  | (true, d) =>
    let (ok, d) := d.write [(place 0 PFS_SUPER_SECTOR, sb)]
    (if ok then 0 else - EIO, d)
  | (false, d) => (- EIO, d)

/-- What `pfsFormat` does with the superblock in its buffer. -/
def formatVolume (B : block_device_t) (time : Nat × Nat) (zonesize fragment : Nat) (s : Volume) : Int × Volume :=
  let (result, disk) := pfsJournalResetThis ((newLog B zonesize).number * 2 ^ pfsGetScale zonesize 512) s.disk
  let s := { s with disk := disk }
  if result < 0 then (result, s)
  else
    let (result, s) := writeRoot B time zonesize s
    if result < 0 then (result, s)
    else
      let (result, s) := formatPartitions B zonesize fragment (B.getSubNumber + 1) 0 s
      if result = 0 then
        let (result, disk) := writeNewSuper (newSuper B zonesize) s.disk
        (result, { s with disk := disk })
      else (result, s)

def pfsFormat (B : block_device_t) (time : Nat × Nat) (zonesize fragment : Nat) (s : Volume) : Int × Volume :=
  if pfsCheckZoneSize zonesize then
    match pfsCacheAlloc s with
    | (none, s) => (- ENOMEM, s)
    | (some clink, s) =>
      let (result, s) := formatVolume B time zonesize fragment s
      let s := pfsCacheFree clink false s
      (result, { s with disk := s.disk.flush.2 })
  else (- EINVAL, s)

/-! ### The layout -/

/-- The first sector of the bitmap of a partition. -/
def bitmapStart (scale i : Nat) : Nat := 2 ^ scale + if i = 0 then 0x2000 else 0

private theorem zoneWord_lt (p : Nat) : p % 4096 / 32 < 128 := by omega

/-- Bit `p` of the bitmap of a partition. -/
def zoneBit (c : Nat → Sector) (scale i p : Nat) : Bool :=
  (c (place i (bitmapStart scale i + p / 4096)) ⟨p % 4096 / 32, zoneWord_lt p⟩).testBit (p % 32)

/-- The zones of a new partition that are taken. -/
def takenZones (B : block_device_t) (zonesize i : Nat) : Nat :=
  reservedZones B zonesize i + pfsGetBitmapSizeBlocks (pfsGetScale zonesize 512) (B.getSize i)

/-- The sectors of the bitmap of a partition. -/
def InBitmap (B : block_device_t) (scale i a : Nat) : Prop :=
  ∃ k < pfsGetBitmapSizeSectors scale (B.getSize i), a = place i (bitmapStart scale i + k)

/-- In its bitmap a partition has the bits of the zones set that are taken, and no others. -/
def NewBitmap (B : block_device_t) (zonesize i : Nat) (c : Nat → Sector) : Prop :=
  ∀ p < 4096 * pfsGetBitmapSizeSectors (pfsGetScale zonesize 512) (B.getSize i),
    zoneBit c (pfsGetScale zonesize 512) i p = decide (p < takenZones B zonesize i)

/-- The block is on the disk, from a sector of the main partition on. -/
def BlockOn (c : Nat → Sector) (sector : Nat) (b : Block) : Prop :=
  c (place 0 sector) = b.1 ∧ c (place 0 (sector + 1)) = b.2

/-- What `pfsFormat` leaves on the disk. -/
structure Formatted (B : block_device_t) (time : Nat × Nat) (zonesize : Nat) (c : Nat → Sector) : Prop where
  super : c (place 0 PFS_SUPER_SECTOR) = newSuper B zonesize
  backup : c (place 0 PFS_SUPER_BACKUP_SECTOR) = newSuper B zonesize
  log : BlockOn c ((newLog B zonesize).number * 2 ^ pfsGetScale zonesize 512) pfs_journal_t.reset.toBlock
  root : BlockOn c ((newRoot B zonesize).number * 2 ^ pfsGetScale zonesize 512) (rootInode time (newRoot B zonesize))
  dentries : BlockOn c (((newRoot B zonesize).number + 1) * 2 ^ pfsGetScale zonesize 512)
    (bytesBlock (pfsFillSelfAndParentDentries (newRoot B zonesize) (newRoot B zonesize)))
  bitmaps : ∀ i ≤ B.getSubNumber, NewBitmap B zonesize i c

/-- A partition that can be formatted: an accepted zone size, and a main partition and sub-partitions with sizes that are powers of two. -/
structure Formattable (B : block_device_t) (zonesize : Nat) : Prop where
  zones : pfsCheckZoneSize zonesize = true
  sizes : ∀ i ≤ B.getSubNumber, ∃ k, 18 ≤ k ∧ k ≤ 26 ∧ B.getSize i = 2 ^ k

/-- What the sizes come to in a partition with so many zones taken beside those of its bitmap. -/
structure Laid (scale size reserved : Nat) : Prop where
  covers : size / 2 ^ scale ≤ 4096 * pfsGetBitmapSizeSectors scale size
  within : pfsGetBitmapSizeSectors scale size ≤ pfsGetBitmapSizeBlocks scale size * 2 ^ scale
  first : reserved + pfsGetBitmapSizeBlocks scale size ≤ 4096
  fits : reserved + pfsGetBitmapSizeBlocks scale size ≤ size / 2 ^ scale
  bytes : size / 2 ^ scale % 8 = 0
  few : size / 2 ^ scale ≤ 2 ^ 24

variable {B : block_device_t} {time : Nat × Nat} {zonesize scale sub i n k sector : Nat} {b : Block} {s t : Volume}
  {d d' : FaultyDisk Sector} {c c' : Nat → Sector}

private theorem laid_of_two_pow {reserved : Nat} (hlow : 2 ≤ scale) (hhigh : scale ≤ 8) (hk : 18 ≤ k) (hk' : k ≤ 26)
    (hreserved : reserved ≤ 0x2000 / 2 ^ scale + 256 / 2 ^ scale + 3) : Laid scale (2 ^ k) reserved := by
  have hall : ∀ scale ∈ List.range' 2 7, ∀ k ∈ List.range' 18 9,
      2 ^ k / 2 ^ scale ≤ 4096 * pfsGetBitmapSizeSectors scale (2 ^ k) ∧
      pfsGetBitmapSizeSectors scale (2 ^ k) ≤ pfsGetBitmapSizeBlocks scale (2 ^ k) * 2 ^ scale ∧
      0x2000 / 2 ^ scale + 256 / 2 ^ scale + 3 + pfsGetBitmapSizeBlocks scale (2 ^ k) ≤ 4096 ∧
      0x2000 / 2 ^ scale + 256 / 2 ^ scale + 3 + pfsGetBitmapSizeBlocks scale (2 ^ k) ≤ 2 ^ k / 2 ^ scale ∧
      2 ^ k / 2 ^ scale % 8 = 0 ∧ 2 ^ k / 2 ^ scale ≤ 2 ^ 24 := by decide +kernel
  obtain ⟨hcovers, hwithin, hmost, hfits, hbytes, hfew⟩ :=
    hall scale (List.mem_range'_1.mpr ⟨hlow, by omega⟩) k (List.mem_range'_1.mpr ⟨hk, by omega⟩)
  exact ⟨hcovers, hwithin, by omega, by omega, hbytes, hfew⟩

/-- The scale of the zones, and what follows for the partitions. -/
structure Scaled (B : block_device_t) (zonesize scale : Nat) : Prop where
  low : 2 ≤ scale
  high : scale ≤ 8
  sectors : pfsGetScale zonesize 512 = scale
  blocks : pfsGetScale zonesize pfsMetaSize = scale - 1
  count : (newLog B zonesize).count = 256 / 2 ^ scale
  laid : ∀ i ≤ B.getSubNumber, Laid scale (B.getSize i) (reservedZones B zonesize i)
  -- the log begins where the zones of the bitmap end
  log : (newLog B zonesize).number * 2 ^ scale =
    2 ^ scale + 0x2000 + pfsGetBitmapSizeBlocks scale (B.getSize 0) * 2 ^ scale

theorem Formattable.scaled (h : Formattable B zonesize) : ∃ scale, Scaled B zonesize scale := by
  obtain ⟨scale, hlow, hhigh, rfl⟩ := scale_of_checked h.zones
  have hscale := pfsGetScale_sectors scale
  have hlog : 0x20000 / (512 * 2 ^ scale) = 256 / 2 ^ scale := by
    rw [← Nat.div_div_eq_div_mul]
  have hpow : ∀ e ∈ List.range' 2 7, 256 / 2 ^ e ≠ 0 ∧ 0x2000 / 2 ^ e * 2 ^ e = 0x2000 := by decide
  obtain ⟨hne, hwhole⟩ := hpow scale (List.mem_range'_1.mpr ⟨hlow, by omega⟩)
  have hcount : (newLog B (512 * 2 ^ scale)).count = 256 / 2 ^ scale := by
    unfold newLog
    simp only [hlog, hne, ne_eq, not_false_eq_true, if_true]
  refine ⟨scale, hlow, hhigh, hscale, pfsGetScale_blocks scale (by omega), hcount, fun i hi => ?_, ?_⟩
  · obtain ⟨k, hk, hk', hsize⟩ := h.sizes i hi
    rw [hsize]
    refine laid_of_two_pow hlow hhigh hk hk' ?_
    unfold reservedZones
    rw [hcount, hscale]
    generalize 0x2000 / 2 ^ scale + 256 / 2 ^ scale = most
    split <;> omega
  · unfold newLog
    dsimp only
    rw [hscale, Nat.add_mul, Nat.add_mul, hwhole]
    omega

/-! ### The bitmaps -/

private theorem start_eq (B : block_device_t) (zonesize scale i : Nat) :
    (2 ^ scale + if 2 ≤ reservedZones B zonesize i then 0x2000 else 0) = bitmapStart scale i := by
  unfold bitmapStart reservedZones
  generalize 0x2000 / 2 ^ pfsGetScale zonesize 512 = before
  by_cases hzero : i = 0
  · rw [if_neg (not_not_intro hzero), if_pos (by omega), if_pos hzero]
  · rw [if_pos hzero, if_neg (by decide), if_neg hzero]

private theorem formatSub_new (hscaled : Scaled B zonesize scale) (hi : i ≤ B.getSubNumber) (hfree : s.free ≠ []) :
    Worked (InBitmap B scale i) s.disk (pfsFormatSub B i (reservedZones B zonesize i) scale 0 s).2.disk ∧
    ((pfsFormatSub B i (reservedZones B zonesize i) scale 0 s).1 = 0 ∧
        NewBitmap B zonesize i (pfsFormatSub B i (reservedZones B zonesize i) scale 0 s).2.disk.content ∨
      (pfsFormatSub B i (reservedZones B zonesize i) scale 0 s).1 < 0 ∧
        Failed s.disk (pfsFormatSub B i (reservedZones B zonesize i) scale 0 s).2.disk) := by
  obtain ⟨cache, free, hcons⟩ := List.exists_cons_of_ne_nil hfree
  have halloc := pfsCacheAlloc_cons hcons
  obtain ⟨hworked, hresult⟩ := writeBitmap_spec i 0 (pfsGetBitmapSizeSectors scale (B.getSize i)) (bitmapStart scale i)
    (reserve (reservedZones B zonesize i + pfsGetBitmapSizeBlocks scale (B.getSize i)) 0) s.disk
  unfold pfsFormatSub
  simp only [start_eq, halloc, pfsCacheFree_disk]
  refine ⟨hworked, hresult.imp_left fun ⟨hzero, hwritten⟩ => ⟨hzero, fun p hp => ?_⟩⟩
  rw [hscaled.sectors] at hp
  have hk : p / 4096 < pfsGetBitmapSizeSectors scale (B.getSize i) := Nat.div_lt_of_lt_mul hp
  have hreserved := (hscaled.laid i hi).first
  unfold zoneBit takenZones
  rw [hscaled.sectors, hwritten _ hk]
  split_ifs with hfirst
  · rw [reserve_testBit _ _ (Nat.mod_lt _ (by decide))]
    congr 1
    rw [eq_iff_iff]
    dsimp only
    omega
  · rw [Nat.zero_testBit, eq_comm, decide_eq_false_iff_not]
    omega

theorem NewBitmap.frame (h : NewBitmap B zonesize i c) (hscaled : Scaled B zonesize scale)
    (hframe : ∀ a, InBitmap B scale i a → c' a = c a) : NewBitmap B zonesize i c' := by
  intro p hp
  rw [← h p hp]
  rw [hscaled.sectors] at hp ⊢
  unfold zoneBit
  rw [hframe _ ⟨p / 4096, Nat.div_lt_of_lt_mul hp, rfl⟩]

private theorem kept_formatPartitions (zonesize : Nat) (h : Idle s) (n i : Nat) : Kept s (formatPartitions B zonesize 0 n i s).2 := by
  induction n generalizing i s with
  | zero => exact Kept.refl _
  | succ n ih =>
    have hone := kept_formatSub (B := B) h i (reservedZones B zonesize i) (pfsGetScale zonesize 512) 0
    rw [formatPartitions]
    simp only
    split
    · exact hone
    · exact hone.trans (ih (h.kept hone) (i + 1))

private theorem formatPartitions_new (hscaled : Scaled B zonesize scale) (hidle : Idle s) (hfree : s.free ≠ [])
    (hlast : i + n ≤ B.getSubNumber + 1) :
    Worked (fun a => ∃ j, i ≤ j ∧ j < i + n ∧ InBitmap B scale j a) s.disk (formatPartitions B zonesize 0 n i s).2.disk ∧
    ((formatPartitions B zonesize 0 n i s).1 = 0 ∧
        (∀ j, i ≤ j → j < i + n → NewBitmap B zonesize j (formatPartitions B zonesize 0 n i s).2.disk.content) ∨
      (formatPartitions B zonesize 0 n i s).1 < 0 ∧ Failed s.disk (formatPartitions B zonesize 0 n i s).2.disk) := by
  induction n generalizing i s with
  | zero => exact ⟨Worked.refl _, .inl ⟨rfl, fun j _ _ => by omega⟩⟩
  | succ n ih =>
    obtain ⟨hworked, hresult⟩ := formatSub_new hscaled (show i ≤ B.getSubNumber by omega) hfree
    have hkept := kept_formatSub (B := B) hidle i (reservedZones B zonesize i) scale 0
    rw [formatPartitions, hscaled.sectors]
    simp only
    generalize pfsFormatSub B i (reservedZones B zonesize i) scale 0 s = r at hworked hresult hkept
    obtain ⟨result, s₁⟩ := r
    dsimp only at hworked hresult hkept ⊢
    have hone : Worked (fun a => ∃ j, i ≤ j ∧ j < i + (n + 1) ∧ InBitmap B scale j a) s.disk s₁.disk :=
      hworked.mono fun a ha => ⟨i, le_refl _, by omega, ha⟩
    rcases hresult with ⟨hzero, hnew⟩ | ⟨hneg, hfailed⟩
    · rw [if_neg (by omega)]
      have hfree' : s₁.free ≠ [] := fun hnil => hfree (List.nil_perm.mp (hnil ▸ hkept.free))
      obtain ⟨hrest, hresult⟩ := ih (hidle.kept hkept) hfree' (show i + 1 + n ≤ B.getSubNumber + 1 by omega)
      have hothers : ∀ a, (∃ j, i + 1 ≤ j ∧ j < i + 1 + n ∧ InBitmap B scale j a) →
          ∃ j, i ≤ j ∧ j < i + (n + 1) ∧ InBitmap B scale j a := by
        rintro a ⟨j, hj, hj', ha⟩
        exact ⟨j, by omega, by omega, ha⟩
      refine ⟨hone.trans (hrest.mono hothers), hresult.imp ?_ ?_⟩
      · rintro ⟨hzero', hrestNew⟩
        refine ⟨hzero', fun j hj hj' => ?_⟩
        rcases Nat.eq_or_lt_of_le hj with rfl | hlt
        · apply hnew.frame hscaled
          rintro a ⟨k, -, rfl⟩
          apply hrest.frame
          rintro ⟨j, hj, -, k', -, heq⟩
          have := (place_eq_iff.mp heq).1
          omega
        · exact hrestNew j hlt (by omega)
      · rintro ⟨hneg, hfailed⟩
        exact ⟨hneg, hfailed.before hworked⟩
    · rw [if_pos hneg]
      exact ⟨hone, .inr ⟨hneg, hfailed⟩⟩

/-! ### The blocks -/

theorem writeBlock_cases (sector : Nat) (b : Block) (d : FaultyDisk Sector) :
    Worked (fun a => a ∈ blockAt sector) d (writeBlock sector b d).2 ∧
    ((writeBlock sector b d).1 = 0 ∧ BlockOn (writeBlock sector b d).2.content sector b ∨
      (writeBlock sector b d).1 < 0 ∧ Failed d (writeBlock sector b d).2) := by
  have hne : place 0 sector ≠ place 0 (sector + 1) := fun heq => by
    have := (place_eq_iff.mp heq).2
    omega
  unfold writeBlock FaultyDisk.write
  cases hfails : d.fails d.issued with
  | true =>
    exact ⟨⟨rfl, Nat.le_succ _, fun _ _ => rfl⟩, .inr ⟨EIO_neg, d.issued, le_refl _, Nat.lt_succ_self _, hfails⟩⟩
  | false =>
    simp only [Bool.false_eq_true, if_false, if_true, writesAt, applyWrites_cons, applyWrites_nil]
    refine ⟨⟨rfl, Nat.le_succ _, fun a ha => ?_⟩, .inl ⟨trivial, ?_, ?_⟩⟩
    · unfold blockAt at ha
      rw [List.mem_cons, List.mem_singleton, not_or] at ha
      exact (Function.update_of_ne ha.2 _ _).trans (Function.update_of_ne ha.1 _ _)
    · exact (Function.update_of_ne hne _ _).trans (Function.update_self ..)
    · exact Function.update_self ..

theorem BlockOn.frame (h : BlockOn c sector b) (hframe : ∀ a ∈ blockAt sector, c' a = c a) : BlockOn c' sector b :=
  ⟨(hframe _ List.mem_cons_self).trans h.1, (hframe _ (List.mem_cons_of_mem _ List.mem_cons_self)).trans h.2⟩

theorem blockAt_apart {sector' : Nat} (h : sector + 2 ≤ sector' ∨ sector' + 2 ≤ sector) :
    ∀ a ∈ blockAt sector, a ∉ blockAt sector' := by
  intro a ha ha'
  unfold blockAt at ha ha'
  simp only [List.mem_cons, List.not_mem_nil, or_false] at ha ha'
  rcases ha with rfl | rfl <;> rcases ha' with heq | heq <;>
  · have := (place_eq_iff.mp heq).2
    omega

private theorem writeRoot_spec (time : Nat × Nat) (hscaled : Scaled B zonesize scale) (hidle : Idle s) (hfree : s.free ≠ []) :
    Kept s (writeRoot B time zonesize s).2 ∧
    Worked (fun a => a ∈ blockAt ((newRoot B zonesize).number * 2 ^ scale) ∨
      a ∈ blockAt (((newRoot B zonesize).number + 1) * 2 ^ scale)) s.disk (writeRoot B time zonesize s).2.disk ∧
    ((writeRoot B time zonesize s).1 = 0 ∧
        BlockOn (writeRoot B time zonesize s).2.disk.content ((newRoot B zonesize).number * 2 ^ scale)
          (rootInode time (newRoot B zonesize)) ∧
        BlockOn (writeRoot B time zonesize s).2.disk.content (((newRoot B zonesize).number + 1) * 2 ^ scale)
          (bytesBlock (pfsFillSelfAndParentDentries (newRoot B zonesize) (newRoot B zonesize))) ∨
      (writeRoot B time zonesize s).1 < 0 ∧ Failed s.disk (writeRoot B time zonesize s).2.disk) := by
  obtain ⟨cache, free, hcons⟩ := List.exists_cons_of_ne_nil hfree
  have halloc := pfsCacheAlloc_cons hcons
  have hgiven : ∀ disk, Kept s (pfsCacheFree cache false
      { s with nused := Function.update s.nused cache 1, free := free, disk := disk }) :=
    fun disk => Kept.given hidle halloc ⟨rfl, .refl _⟩
  have hroom : 2 ^ 2 ≤ 2 ^ scale := Nat.pow_le_pow_right (by decide) hscaled.low
  have hapart : (newRoot B zonesize).number * 2 ^ scale + 2 ≤ ((newRoot B zonesize).number + 1) * 2 ^ scale := by
    rw [Nat.add_mul, Nat.one_mul]
    omega
  unfold writeRoot
  simp only [halloc, hscaled.sectors]
  obtain ⟨hworked, hresult⟩ := writeBlock_cases (((newRoot B zonesize).number + 1) * 2 ^ scale)
    (bytesBlock (pfsFillSelfAndParentDentries (newRoot B zonesize) (newRoot B zonesize))) s.disk
  generalize writeBlock (((newRoot B zonesize).number + 1) * 2 ^ scale)
    (bytesBlock (pfsFillSelfAndParentDentries (newRoot B zonesize) (newRoot B zonesize))) s.disk = r at hworked hresult
  obtain ⟨result2, d⟩ := r
  dsimp only at hworked hresult ⊢
  rcases hresult with ⟨rfl, hdentries⟩ | ⟨hneg, hfailed⟩
  · rw [if_pos rfl]
    obtain ⟨hworked', hresult'⟩ := writeBlock_cases ((newRoot B zonesize).number * 2 ^ scale)
      (rootInode time (newRoot B zonesize)) d
    rw [pfsCacheFree_disk]
    refine ⟨hgiven _, (hworked.mono fun _ => .inr).trans (hworked'.mono fun _ => .inl), hresult'.imp ?_ ?_⟩
    · rintro ⟨hzero, hinode⟩
      refine ⟨hzero, hinode, hdentries.frame fun a ha => hworked'.frame a ?_⟩
      exact blockAt_apart (.inr hapart) a ha
    · rintro ⟨hneg, hfailed⟩
      exact ⟨hneg, hfailed.before hworked⟩
  · rw [if_neg (ne_of_lt hneg), pfsCacheFree_disk]
    exact ⟨hgiven _, hworked.mono fun _ => .inr, .inr ⟨hneg, hfailed⟩⟩

private theorem writeNewSuper_spec (sb : Sector) (d : FaultyDisk Sector) :
    Worked (fun a => a = place 0 PFS_SUPER_SECTOR ∨ a = place 0 PFS_SUPER_BACKUP_SECTOR) d (writeNewSuper sb d).2 ∧
    ((writeNewSuper sb d).1 = 0 ∧ (writeNewSuper sb d).2.content (place 0 PFS_SUPER_SECTOR) = sb ∧
        (writeNewSuper sb d).2.content (place 0 PFS_SUPER_BACKUP_SECTOR) = sb ∨
      (writeNewSuper sb d).1 < 0 ∧ Failed d (writeNewSuper sb d).2 ∧
        (writeNewSuper sb d).2.content (place 0 PFS_SUPER_SECTOR) = d.content (place 0 PFS_SUPER_SECTOR)) := by
  have hne : place 0 PFS_SUPER_SECTOR ≠ place 0 PFS_SUPER_BACKUP_SECTOR := fun heq =>
    absurd (place_eq_iff.mp heq).2 (by decide)
  unfold writeNewSuper
  rcases write_cases (A := fun _ => False) (place 0 PFS_SUPER_BACKUP_SECTOR) sb d with
    ⟨d', hwrite, hworked, hbackup⟩ | ⟨d', hwrite, hworked, hfailed⟩
  · rw [hwrite]
    rcases write_cases (A := fun _ => False) (place 0 PFS_SUPER_SECTOR) sb d' with
      ⟨d'', hwrite', hworked', hsuper⟩ | ⟨d'', hwrite', hworked', hfailed'⟩
    · simp only [hwrite', if_true]
      exact ⟨(hworked.mono fun _ => .inr).trans (hworked'.mono fun _ => .inl),
        .inl ⟨trivial, hsuper, (hworked'.frame _ hne.symm).trans hbackup⟩⟩
    · simp only [hwrite', Bool.false_eq_true, if_false]
      exact ⟨(hworked.mono fun _ => .inr).trans (hworked'.mono fun _ h => h.elim),
        .inr ⟨EIO_neg, hfailed'.before hworked, (hworked'.frame _ id).trans (hworked.frame _ hne)⟩⟩
  · rw [hwrite]
    exact ⟨hworked.mono fun _ h => h.elim, .inr ⟨EIO_neg, hfailed, hworked.frame _ id⟩⟩

/-! ### The format -/

/-- The sectors that are written before the superblocks. -/
def BeforeSuper (B : block_device_t) (zonesize scale a : Nat) : Prop :=
  a ∈ blockAt ((newLog B zonesize).number * 2 ^ scale) ∨ a ∈ blockAt ((newRoot B zonesize).number * 2 ^ scale) ∨
    a ∈ blockAt (((newRoot B zonesize).number + 1) * 2 ^ scale) ∨ ∃ i ≤ B.getSubNumber, InBitmap B scale i a

theorem Scaled.order (h : Scaled B zonesize scale) :
    4 ≤ 2 ^ scale ∧ (newLog B zonesize).number * 2 ^ scale + 2 ^ scale ≤ (newRoot B zonesize).number * 2 ^ scale ∧
      ((newRoot B zonesize).number + 1) * 2 ^ scale = (newRoot B zonesize).number * 2 ^ scale + 2 ^ scale ∧
      bitmapStart scale 0 + pfsGetBitmapSizeSectors scale (B.getSize 0) ≤ (newLog B zonesize).number * 2 ^ scale := by
  have hcount : 1 ≤ (newLog B zonesize).count := by
    rw [h.count]
    have hall : ∀ e ∈ List.range' 2 7, 1 ≤ 256 / 2 ^ e := by decide
    exact hall scale (List.mem_range'_1.mpr ⟨h.low, by have := h.high; omega⟩)
  have hmul := Nat.mul_le_mul_right (2 ^ scale) hcount
  have hwithin := (h.laid 0 (Nat.zero_le _)).within
  have hlog := h.log
  have hroom : 2 ^ 2 ≤ 2 ^ scale := Nat.pow_le_pow_right (by decide) h.low
  refine ⟨hroom, ?_, by rw [Nat.add_mul, Nat.one_mul], ?_⟩
  · unfold newRoot
    rw [Nat.add_mul]
    omega
  · unfold bitmapStart
    rw [if_pos rfl]
    omega

theorem super_beforeSuper (h : Scaled B zonesize scale) (hsector : sector = PFS_SUPER_SECTOR ∨ sector = PFS_SUPER_BACKUP_SECTOR) :
    ¬ BeforeSuper B zonesize scale (place 0 sector) := by
  obtain ⟨hroom, hlog, hroot, hbitmap⟩ := h.order
  have hlow : sector < 0x2000 + 4 := by
    rcases hsector with rfl | rfl <;> decide
  have hstart : bitmapStart scale 0 = 2 ^ scale + 0x2000 := rfl
  have hblock : ∀ sector', 0x2000 + 4 ≤ sector' → place 0 sector ∉ blockAt sector' := by
    intro sector' hge hmem
    unfold blockAt at hmem
    simp only [List.mem_cons, List.not_mem_nil, or_false, place_eq_iff] at hmem
    omega
  rintro (hmem | hmem | hmem | ⟨i, -, k, -, heq⟩)
  · exact hblock _ (by omega) hmem
  · exact hblock _ (by omega) hmem
  · exact hblock _ (by omega) hmem
  · obtain ⟨rfl, heq⟩ := place_eq_iff.mp heq
    omega

private theorem blockAt_apart_bitmaps (h : Scaled B zonesize scale) (hsector : (newLog B zonesize).number * 2 ^ scale ≤ sector) :
    ∀ a ∈ blockAt sector, ¬ ∃ j, 0 ≤ j ∧ j < 0 + (B.getSubNumber + 1) ∧ InBitmap B scale j a := by
  obtain ⟨-, -, -, hbitmap⟩ := h.order
  rintro a ha ⟨j, -, -, k, hk, rfl⟩
  unfold blockAt at ha
  simp only [List.mem_cons, List.not_mem_nil, or_false, place_eq_iff] at ha
  obtain ⟨rfl, ha⟩ : j = 0 ∧ (bitmapStart scale j + k = sector ∨ bitmapStart scale j + k = sector + 1) := by omega
  omega

/-- What was made is on the disk, or a command failed and the first superblock is as it was. -/
private theorem formatVolume_spec (time : Nat × Nat) (h : Formattable B zonesize) (hidle : Idle s) (hfree : s.free ≠ []) :
    Kept s (formatVolume B time zonesize 0 s).2 ∧
    Worked (fun _ => True) s.disk (formatVolume B time zonesize 0 s).2.disk ∧
    ((formatVolume B time zonesize 0 s).1 = 0 ∧
        Formatted B time zonesize (formatVolume B time zonesize 0 s).2.disk.content ∨
      (formatVolume B time zonesize 0 s).1 < 0 ∧ Failed s.disk (formatVolume B time zonesize 0 s).2.disk ∧
        (formatVolume B time zonesize 0 s).2.disk.content (place 0 PFS_SUPER_SECTOR) =
          s.disk.content (place 0 PFS_SUPER_SECTOR)) := by
  obtain ⟨scale, hscaled⟩ := h.scaled
  obtain ⟨hroom, hlogroot, hrootnext, -⟩ := hscaled.order
  have hsuper := super_beforeSuper hscaled (.inl rfl)
  unfold formatVolume pfsJournalResetThis
  simp only [hscaled.sectors]
  -- the log
  obtain ⟨hlog, hresult⟩ := writeBlock_cases ((newLog B zonesize).number * 2 ^ scale) pfs_journal_t.reset.toBlock s.disk
  generalize writeBlock ((newLog B zonesize).number * 2 ^ scale) pfs_journal_t.reset.toBlock s.disk = r at hlog hresult
  obtain ⟨result, d⟩ := r
  dsimp only at hlog hresult ⊢
  have hlog' : Worked (BeforeSuper B zonesize scale) s.disk d := hlog.mono fun _ => .inl
  rcases hresult with ⟨rfl, hlogOn⟩ | ⟨hneg, hfailed⟩
  case inr =>
    rw [if_pos hneg]
    exact ⟨⟨rfl, .refl _⟩, hlog.mono fun _ _ => trivial, .inr ⟨hneg, hfailed, hlog'.frame _ hsuper⟩⟩
  rw [if_neg (lt_irrefl 0)]
  -- the root directory
  obtain ⟨s₁, hs₁⟩ : ∃ s₁ : Volume, s₁ = { s with disk := d } := ⟨_, rfl⟩
  have hkept₁ : Kept s s₁ := by
    rw [hs₁]
    exact ⟨rfl, .refl _⟩
  have hdisk₁ : s₁.disk = d := by rw [hs₁]
  rw [← hs₁]
  have hfree₁ : s₁.free ≠ [] := fun hnil => hfree (List.nil_perm.mp (hnil ▸ hkept₁.free))
  obtain ⟨hkept₂, hroot, hresult⟩ := writeRoot_spec time hscaled (hidle.kept hkept₁) hfree₁
  generalize writeRoot B time zonesize s₁ = r at hkept₂ hroot hresult
  obtain ⟨result, s₂⟩ := r
  dsimp only at hkept₂ hroot hresult ⊢
  rw [hdisk₁] at hroot hresult
  have hroot' : Worked (BeforeSuper B zonesize scale) s.disk s₂.disk :=
    hlog'.trans (hroot.mono fun _ ha => .inr (ha.imp id .inl))
  rcases hresult with ⟨rfl, hinodeOn, hdentriesOn⟩ | ⟨hneg, hfailed⟩
  case inr =>
    rw [if_pos hneg]
    exact ⟨hkept₁.trans hkept₂, hroot'.mono fun _ _ => trivial,
      .inr ⟨hneg, hfailed.before hlog, hroot'.frame _ hsuper⟩⟩
  rw [if_neg (lt_irrefl 0)]
  -- the bitmaps
  have hidle₂ := (hidle.kept hkept₁).kept hkept₂
  have hfree₂ : s₂.free ≠ [] := fun hnil => hfree₁ (List.nil_perm.mp (hnil ▸ hkept₂.free))
  have hkept₃ := kept_formatPartitions (B := B) zonesize hidle₂ (B.getSubNumber + 1) 0
  obtain ⟨hbitmaps, hresult⟩ := formatPartitions_new hscaled hidle₂ hfree₂ (show 0 + (B.getSubNumber + 1) ≤ _ by omega)
  generalize formatPartitions B zonesize 0 (B.getSubNumber + 1) 0 s₂ = r at hkept₃ hbitmaps hresult
  obtain ⟨result, s₃⟩ := r
  dsimp only at hkept₃ hbitmaps hresult ⊢
  have hbitmaps' : Worked (BeforeSuper B zonesize scale) s.disk s₃.disk :=
    hroot'.trans (hbitmaps.mono fun _ ⟨j, _, hj, hin⟩ => .inr (.inr (.inr ⟨j, by omega, hin⟩)))
  rcases hresult with ⟨rfl, hnew⟩ | ⟨hneg, hfailed⟩
  case inr =>
    rw [if_neg (ne_of_lt hneg)]
    exact ⟨(hkept₁.trans hkept₂).trans hkept₃, hbitmaps'.mono fun _ _ => trivial,
      .inr ⟨hneg, (hfailed.before hroot).before hlog, hbitmaps'.frame _ hsuper⟩⟩
  rw [if_pos rfl]
  -- the superblocks
  obtain ⟨hcopies, hresult⟩ := writeNewSuper_spec (newSuper B zonesize) s₃.disk
  generalize writeNewSuper (newSuper B zonesize) s₃.disk = r at hcopies hresult
  obtain ⟨result, d'⟩ := r
  dsimp only at hcopies hresult ⊢
  refine ⟨(hkept₁.trans hkept₂).trans ⟨hkept₃.nused, hkept₃.free⟩,
    (hbitmaps'.mono fun _ _ => trivial).trans (hcopies.mono fun _ _ => trivial), hresult.imp ?_ ?_⟩
  · rintro ⟨hzero, hfirst, hbackup⟩
    -- what was written before is not touched by what is written after it
    have hrest : ∀ a, BeforeSuper B zonesize scale a → d'.content a = s₃.disk.content a := by
      intro a ha
      apply hcopies.frame
      rintro (rfl | rfl)
      · exact super_beforeSuper hscaled (.inl rfl) ha
      · exact super_beforeSuper hscaled (.inr rfl) ha
    have hblock : ∀ sector b, (newLog B zonesize).number * 2 ^ scale ≤ sector →
        (∀ a ∈ blockAt sector, BeforeSuper B zonesize scale a) → BlockOn s₂.disk.content sector b →
        BlockOn d'.content sector b := fun sector b hsector hbefore hon =>
      hon.frame fun a ha => (hrest a (hbefore a ha)).trans (hbitmaps.frame a (blockAt_apart_bitmaps hscaled hsector a ha))
    have hlogOn₂ : BlockOn s₂.disk.content ((newLog B zonesize).number * 2 ^ scale) pfs_journal_t.reset.toBlock := by
      refine hlogOn.frame fun a ha => hroot.frame a ?_
      rintro (hmem | hmem)
      · exact blockAt_apart (.inl (by omega)) a ha hmem
      · exact blockAt_apart (.inl (by omega)) a ha hmem
    refine ⟨hzero, hfirst, hbackup, ?_, ?_, ?_, fun i hi => ?_⟩
    · rw [hscaled.sectors]
      exact hblock _ _ (le_refl _) (fun _ => .inl) hlogOn₂
    · rw [hscaled.sectors]
      exact hblock _ _ (by omega) (fun _ ha => .inr (.inl ha)) hinodeOn
    · rw [hscaled.sectors]
      exact hblock _ _ (by omega) (fun _ ha => .inr (.inr (.inl ha))) hdentriesOn
    · exact (hnew i (Nat.zero_le _) (by omega)).frame hscaled fun a ha => hrest a (.inr (.inr (.inr ⟨i, hi, ha⟩)))
  · rintro ⟨hneg, hfailed, hfirst⟩
    exact ⟨hneg, ((hfailed.before hbitmaps).before hroot).before hlog, hfirst.trans (hbitmaps'.frame _ hsuper)⟩

theorem pfsFormat_spec (time : Nat × Nat) (h : Formattable B zonesize) (hidle : Idle s) (hfree : 2 ≤ s.free.length) :
    Kept s (pfsFormat B time zonesize 0 s).2 ∧
    ((pfsFormat B time zonesize 0 s).1 = 0 ∧
        Formatted B time zonesize (pfsFormat B time zonesize 0 s).2.disk.content ∨
      (pfsFormat B time zonesize 0 s).1 < 0 ∧ Failed s.disk (pfsFormat B time zonesize 0 s).2.disk ∧
        (pfsFormat B time zonesize 0 s).2.disk.content (place 0 PFS_SUPER_SECTOR) =
          s.disk.content (place 0 PFS_SUPER_SECTOR)) := by
  obtain ⟨clink, free, hcons⟩ : ∃ clink free, s.free = clink :: free :=
    List.exists_cons_of_length_pos (Nat.lt_of_lt_of_le (by decide) hfree)
  have halloc := pfsCacheAlloc_cons hcons
  obtain ⟨s₁, hs₁⟩ : ∃ s₁ : Volume, s₁ = { s with nused := Function.update s.nused clink 1, free := free } := ⟨_, rfl⟩
  rw [← hs₁] at halloc
  have hfree₁ : s₁.free ≠ [] := by
    rw [hcons, List.length_cons] at hfree
    rw [hs₁]
    rintro rfl
    exact absurd hfree (by decide)
  have hdisk₁ : s₁.disk = s.disk := by rw [hs₁]
  obtain ⟨hkept, hworked, hresult⟩ := formatVolume_spec time h (hidle.alloc halloc) hfree₁
  unfold pfsFormat
  rw [if_pos h.zones, halloc]
  dsimp only
  generalize formatVolume B time zonesize 0 s₁ = r at hkept hworked hresult
  obtain ⟨result, s₂⟩ := r
  dsimp only at hkept hworked hresult ⊢
  rw [pfsCacheFree_disk]
  have hgiven : Kept s (pfsCacheFree clink false s₂) := Kept.given hidle halloc hkept
  rw [hdisk₁] at hresult
  refine ⟨⟨hgiven.nused, hgiven.free⟩, hresult.imp id ?_⟩
  rintro ⟨hneg, hfailed, hfirst⟩
  exact ⟨hneg, hfailed.after (worked_flush (A := fun _ => False) s₂.disk), hfirst⟩

/-! ### The root directory -/

/-- The root directory as it is found on the disk: the superblock names its inode, and that its data. -/
def rootDirectory (c : Nat → Sector) : Directory :=
  let sb := c (place 0 PFS_SUPER_SECTOR)
  let scale := pfsGetScale (sb 4) 512
  let inode : Block := (c (place 0 (sb 8 * 2 ^ scale)), c (place 0 (sb 8 * 2 ^ scale + 1)))
  let data : Block := (c (place 0 (word inode 12 * 2 ^ scale)), c (place 0 (word inode 12 * 2 ^ scale + 1)))
  ⟨word inode 246, fun i => UInt8.ofNat (byte data i)⟩

theorem word_wordsBlock {words : Nat → Nat} (hn : n < 256) : word (wordsBlock words) n = words n := by
  unfold word wordsBlock
  split_ifs with hfirst hsecond
  · rfl
  · exact congrArg words (Nat.sub_add_cancel (Nat.le_of_not_lt hfirst))
  · omega

private theorem byte_bytesBlock {bytes : Nat → UInt8} (hn : n < 1024) : UInt8.ofNat (byte (bytesBlock bytes) n) = bytes n := by
  have hword : word (bytesBlock bytes) (n / 4) = Bytes.u32 bytes (4 * (n / 4)) := word_wordsBlock (by omega)
  unfold byte
  rw [hword]
  have h₀ := (bytes (4 * (n / 4))).toNat_lt
  have h₁ := (bytes (4 * (n / 4) + 1)).toNat_lt
  have h₂ := (bytes (4 * (n / 4) + 2)).toNat_lt
  have h₃ := (bytes (4 * (n / 4) + 3)).toNat_lt
  have hvalue : ∀ k, n % 4 = k → Bytes.u32 bytes (4 * (n / 4)) / 256 ^ k % 256 = (bytes (4 * (n / 4) + k)).toNat := by
    intro k hk
    unfold Bytes.u32 Bytes.u16
    obtain rfl | rfl | rfl | rfl : k = 0 ∨ k = 1 ∨ k = 2 ∨ k = 3 := by omega
    · simp only [pow_zero, Nat.div_one, Nat.add_zero]
      omega
    · omega
    · omega
    · rw [show 4 * (n / 4) + 2 + 1 = 4 * (n / 4) + 3 by omega]
      omega
  rw [hvalue _ rfl, Nat.div_add_mod, UInt8.ofNat_toNat]

theorem Scaled.root_fitting (h : Scaled B zonesize scale) {path : List UInt8} (hpath : path = [46] ∨ path = [46, 46]) :
    Fitting path (newRoot B zonesize) := by
  have hlog := h.log
  have hpow : 2 ^ scale ≤ 2 ^ 8 := Nat.pow_le_pow_right (by decide) h.high
  have hpos : 1 ≤ 2 ^ scale := Nat.one_le_two_pow
  have hmul := Nat.mul_le_mul (show pfsGetBitmapSizeBlocks scale (B.getSize 0) ≤ 4096 by
    have := (h.laid 0 (Nat.zero_le _)).first
    omega) hpow
  have hnumber := Nat.mul_le_mul_left (newLog B zonesize).number hpos
  have hcount : (newLog B zonesize).count ≤ 256 := by
    rw [h.count]
    exact Nat.div_le_self _ _
  have hinode : (newLog B zonesize).number ≠ 0 := by
    intro hzero
    rw [hzero, Nat.zero_mul] at hlog
    omega
  refine ⟨?_, ?_, ?_, ?_, ?_, show 0 < 256 by decide⟩
  · rcases hpath with rfl | rfl <;> decide
  · rcases hpath with rfl | rfl <;> decide
  · rcases hpath with rfl | rfl <;> decide
  · unfold newRoot
    dsimp only
    omega
  · unfold newRoot
    dsimp only
    omega

/-- The root directory of a new filesystem has the entries of itself and of its parent, which it is itself, and no others. -/
theorem Formatted.stores (h : Formattable B zonesize) (hformatted : Formatted B time zonesize c) :
    Stores (rootDirectory c) (dots (newRoot B zonesize) (newRoot B zonesize)) := by
  obtain ⟨scale, hscaled⟩ := h.scaled
  obtain ⟨hroot, hroot'⟩ := hformatted.root
  obtain ⟨hdentries, hdentries'⟩ := hformatted.dentries
  have hzone : newSuper B zonesize 4 = zonesize := rfl
  have hnumber : newSuper B zonesize 8 = (newRoot B zonesize).number := rfl
  have hdata : word (rootInode time (newRoot B zonesize)) 12 = (newRoot B zonesize).number + 1 := by
    unfold rootInode
    rw [word_wordsBlock (by decide)]
    rfl
  have hsize : word (rootInode time (newRoot B zonesize)) 246 = DENTRY_SIZE := by
    unfold rootInode
    rw [word_wordsBlock (by decide)]
    rfl
  have hbytes : (fun i => UInt8.ofNat (byte (bytesBlock (pfsFillSelfAndParentDentries (newRoot B zonesize)
      (newRoot B zonesize))) i)) = pfsFillSelfAndParentDentries (newRoot B zonesize) (newRoot B zonesize) := by
    funext i
    rcases Nat.lt_or_ge i 1024 with hlt | hge
    · exact byte_bytesBlock hlt
    · have hword : word (bytesBlock (pfsFillSelfAndParentDentries (newRoot B zonesize) (newRoot B zonesize))) (i / 4) = 0 := by
        unfold word
        rw [dif_neg (by omega), dif_neg (by omega)]
      unfold byte pfsFillSelfAndParentDentries
      rw [fillDots_outside (by decide) (by simp only [List.length_cons, List.length_nil]; omega),
        fillDots_outside (by decide) (by simp only [List.length_cons, List.length_nil]; omega)]
      unfold pfsFillSelfAndParentDentries at hword
      rw [hword, Nat.zero_div, Nat.zero_mod]
      rfl
  have heq : rootDirectory c = .fresh (newRoot B zonesize) (newRoot B zonesize) := by
    unfold rootDirectory
    simp only [hformatted.super, hzone, hnumber, hroot, hroot', hdata, hsize, hdentries, hdentries']
    rw [hbytes]
    rfl
  rw [heq]
  exact fresh_stores (hscaled.root_fitting (.inl rfl)) (hscaled.root_fitting (.inr rfl))

/-! ### The free zones -/

private theorem bitmap_sector (hlow : 1 ≤ scale) (hhigh : scale ≤ 8) {chunk : Nat} (hchunk : chunk ≤ 2 ^ 20) :
    u32 ((2 ^ (scale - 1) + chunk + if i = 0 then 0x2000 / 2 else 0) * 2) = bitmapStart scale i + 2 * chunk := by
  obtain ⟨e, rfl⟩ : ∃ e, scale = e + 1 := ⟨scale - 1, by omega⟩
  have hpow : 2 ^ e ≤ 2 ^ 8 := Nat.pow_le_pow_right (by decide) (by omega)
  unfold bitmapStart
  rw [Nat.add_sub_cancel, u32, pow_succ]
  split
  · rw [Nat.mod_eq_of_lt (by omega)]
    omega
  · rw [Nat.mod_eq_of_lt (by omega)]
    omega

/-- The chunks from `chunk` on add the clear bits of the zones that are left, and nothing is changed on the disk. -/
private theorem freeInChunks_zones (h : Readable s) (hlow : 1 ≤ scale) (hhigh : scale ≤ 8) {Z : Nat} (hbytes : Z % 8 = 0)
    (hfew : Z ≤ 2 ^ 24) (n : Nat) {chunk : Nat} (hchunks : chunk + n = Z / 8192 + 1) :
    ∃ s', freeInChunks B i (scale - 1) (bitmapInfo Z) n chunk
        (clearBits (zoneBit s.disk.content scale i) (min (8192 * chunk) Z)) s =
      (clearBits (zoneBit s.disk.content scale i) Z, s') ∧ Readable s' ∧ s'.disk.content = s.disk.content := by
  induction n generalizing chunk s with
  | zero =>
    rw [freeInChunks, Nat.min_eq_right (by omega)]
    exact ⟨s, rfl, h, rfl⟩
  | succ n ih =>
    rw [freeInChunks]
    by_cases hchunk : (bitmapInfo Z).hasChunk chunk = true
    · rw [if_pos hchunk]
      have hbefore : 8192 * chunk < Z := by
        unfold pfs_bitmapInfo_t.hasChunk bitmapInfo at hchunk
        simp only [pfsBitsPerBitmapChunk, Bool.or_eq_true, Bool.and_eq_true, decide_eq_true_eq] at hchunk
        omega
      obtain ⟨j, s', hread, hreadable, hcontent⟩ := readBitmap_readable (B := B) h i
        (2 ^ (scale - 1) + chunk + if i = 0 then 0x2000 / 2 else 0)
      dsimp only
      rw [hread, bitmap_sector hlow hhigh (by omega)]
      dsimp only
      -- the bytes of the chunk are those of its zones
      have hsize : 8 * (if chunk = (bitmapInfo Z).partitionChunks then (bitmapInfo Z).partitionRemainder / 8 else pfsMetaSize) =
          min (8192 * (chunk + 1)) Z - 8192 * chunk := by
        unfold bitmapInfo
        dsimp only [pfsBitsPerBitmapChunk]
        split_ifs with hlast
        · omega
        · have : pfsMetaSize = 1024 := rfl
          omega
      have hsum : clearBits (zoneBit s.disk.content scale i) (min (8192 * chunk) Z) +
          freeInBytes (s.disk.content (place i (bitmapStart scale i + 2 * chunk)),
            s.disk.content (place i (bitmapStart scale i + 2 * chunk + 1)))
          (if chunk = (bitmapInfo Z).partitionChunks then (bitmapInfo Z).partitionRemainder / 8 else pfsMetaSize) =
          clearBits (zoneBit s.disk.content scale i) (min (8192 * (chunk + 1)) Z) := by
        have hsplit : min (8192 * (chunk + 1)) Z = 8192 * chunk + (min (8192 * (chunk + 1)) Z - 8192 * chunk) := by omega
        rw [freeInBytes_eq, hsize, Nat.min_eq_left (le_of_lt hbefore), hsplit, clearBits_add, ← hsplit]
        congr 1
        apply clearBits_congr
        intro q hq
        exact blockBit_chunk _ _ _ _ (by omega)
      have hle := clearBits_le (zoneBit s.disk.content scale i) (min (8192 * (chunk + 1)) Z)
      rw [hsum, u32, Nat.mod_eq_of_lt (by omega)]
      obtain ⟨s'', hrest, hreadable', hcontent'⟩ := ih hreadable (show chunk + 1 + n = Z / 8192 + 1 by omega)
      rw [hcontent] at hrest hcontent'
      exact ⟨s'', hrest, hreadable', hcontent'⟩
    · rw [if_neg hchunk]
      have hend : Z ≤ 8192 * chunk := by
        unfold pfs_bitmapInfo_t.hasChunk bitmapInfo at hchunk
        simp only [pfsBitsPerBitmapChunk, Bool.or_eq_true, Bool.and_eq_true, decide_eq_true_eq] at hchunk
        omega
      rw [Nat.min_eq_right hend]
      exact ⟨s, rfl, h, rfl⟩

/-- All zones of a new partition are free but those that were taken, and nothing is changed on the disk. -/
theorem NewBitmap.free_zones (hnew : NewBitmap B zonesize i s.disk.content) (h : Readable s)
    (hscaled : Scaled B zonesize scale) (hi : i ≤ B.getSubNumber) :
    ∃ s', pfsBitmapCalcFreeZones B scale (scale - 1) i s = (B.getSize i / 2 ^ scale - takenZones B zonesize i, s') ∧
      Readable s' ∧ s'.disk.content = s.disk.content := by
  have hlaid := hscaled.laid i hi
  have hlow := hscaled.low
  obtain ⟨s', hloop, hreadable, hcontent⟩ := freeInChunks_zones (B := B) (i := i) h (by omega) hscaled.high hlaid.bytes
    hlaid.few (B.getSize i / 2 ^ scale / 8192 + 1) (Nat.zero_add _)
  have hbits : clearBits (zoneBit s.disk.content scale i) (B.getSize i / 2 ^ scale) =
      clearBits (fun p => decide (p < takenZones B zonesize i)) (B.getSize i / 2 ^ scale) := by
    refine clearBits_congr fun p hp => ?_
    have hbit := hnew p
    rw [hscaled.sectors] at hbit
    exact hbit (lt_of_lt_of_le hp hlaid.covers)
  rw [hbits, clearBits_below, Nat.mul_zero, Nat.zero_min] at hloop
  exact ⟨s', hloop, hreadable, hcontent⟩

/-! ### The mount -/

/-- The free zones of a new partition. -/
def newFree (B : block_device_t) (zonesize i : Nat) : Nat :=
  B.getSize i / 2 ^ pfsGetScale zonesize 512 - takenZones B zonesize i

/-- The sum over so many partitions, from number `i` on. -/
def sumFrom (f : Nat → Nat) (i n : Nat) : Nat := ((List.range' i n).map f).sum

theorem sumFrom_succ (f : Nat → Nat) (i n : Nat) : sumFrom f i (n + 1) = f i + sumFrom f (i + 1) n := rfl

/-- A mount with the zones of `n` partitions counted, from number `i` on. -/
structure Counted (B : block_device_t) (zonesize i n : Nat) (m m' : Mounted) : Prop where
  superblock : m'.superblock = m.superblock
  zsize : m'.zsize = m.zsize
  num_subs : m'.num_subs = m.num_subs
  free_zone : ∀ j, m'.free_zone j = if i ≤ j ∧ j < i + n then newFree B zonesize j else m.free_zone j
  total_zones : m'.total_zones = u32 (m.total_zones + sumFrom (fun j => B.getSize j / 2 ^ pfsGetScale zonesize 512) i n)
  zfree : m'.zfree = u32 (m.zfree + sumFrom (newFree B zonesize) i n)

private theorem countZones_new (hscaled : Scaled B zonesize scale) (h : Readable s) {m : Mounted}
    (hsector : m.sector_scale = scale) (hinode : m.inode_scale = scale - 1) (htotal : m.total_zones < 2 ^ 32)
    (hzfree : m.zfree < 2 ^ 32) (hlast : i + n ≤ B.getSubNumber + 1)
    (hnew : ∀ j ≤ B.getSubNumber, NewBitmap B zonesize j s.disk.content) :
    Counted B zonesize i n m (countZones B n i m s).1 ∧ Readable (countZones B n i m s).2 ∧
      (countZones B n i m s).2.disk.content = s.disk.content := by
  induction n generalizing i m s with
  | zero =>
    refine ⟨⟨rfl, rfl, rfl, fun j => ?_, ?_, ?_⟩, h, rfl⟩
    · rw [if_neg (by omega)]
      rfl
    · exact (Nat.mod_eq_of_lt htotal).symm
    · exact (Nat.mod_eq_of_lt hzfree).symm
  | succ n ih =>
    obtain ⟨s', hfree, hreadable, hcontent⟩ := (hnew i (by omega)).free_zones h hscaled (by omega)
    have hcount : pfsBitmapCalcFreeZones B m.sector_scale m.inode_scale i s = (newFree B zonesize i, s') := by
      unfold newFree
      rw [hsector, hinode, hscaled.sectors]
      exact hfree
    have hmod : ∀ x y, u32 (u32 x + y) = u32 (x + y) := fun x y => Nat.mod_add_mod x (2 ^ 32) y
    rw [countZones, hcount]
    dsimp only
    obtain ⟨hrest, hreadable', hcontent'⟩ := ih (s := s') (i := i + 1) (m := { m with
        total_zones := u32 (m.total_zones + B.getSize i / 2 ^ m.sector_scale)
        free_zone := Function.update m.free_zone i (newFree B zonesize i)
        zfree := u32 (m.zfree + newFree B zonesize i) }) hreadable hsector hinode
      (Nat.mod_lt _ (by decide)) (Nat.mod_lt _ (by decide)) (by omega) (hcontent ▸ hnew)
    refine ⟨⟨hrest.superblock, hrest.zsize, hrest.num_subs, fun j => ?_, ?_, ?_⟩, hreadable', hcontent'.trans hcontent⟩
    · rw [hrest.free_zone]
      rcases Nat.lt_trichotomy j i with hlt | rfl | hgt
      · rw [if_neg (by omega), if_neg (by omega)]
        exact Function.update_of_ne (Nat.ne_of_lt hlt) _ _
      · rw [if_neg (by omega), if_pos (by omega)]
        exact Function.update_self ..
      · by_cases hin : j < i + (n + 1)
        · rw [if_pos (by omega), if_pos (by omega)]
        · rw [if_neg (by omega), if_neg (by omega)]
          exact Function.update_of_ne (Nat.ne_of_gt hgt) _ _
    · rw [hrest.total_zones, sumFrom_succ, hscaled.sectors, hsector, hmod, Nat.add_assoc]
    · rw [hrest.zfree, sumFrom_succ, hmod, Nat.add_assoc]

/-- Later, with all buffers given back but for two that are free at least, and no command failing. -/
structure Ready (s : Volume) : Prop where
  idle : Idle s
  free : 2 ≤ s.free.length
  works : ∀ n, s.disk.fails n = false
  lastError : s.lastError = 0

private theorem pfsJournalRestore_new {m : Journal.pfs_mount_t} (clean : Except Int Unit) (behind : Nat → pfs_log_t)
    (hlog : BlockOn d.content m.logStart pfs_journal_t.reset.toBlock) (hworks : ∀ n, d.fails n = false) :
    (pfsJournalRestore clean m behind d).2.fails = d.fails ∧ (pfsJournalRestore clean m behind d).2.content = d.content := by
  have hreset : ∀ d', d'.fails = d.fails → d'.content = d.content →
      (pfsJournalReset m d').2.fails = d.fails ∧ (pfsJournalReset m d').2.content = d.content := by
    intro d' hfails hcontent
    refine ⟨(worked_pfsJournalReset d').fails.trans hfails, ?_⟩
    unfold pfsJournalReset FaultyDisk.flush FaultyDisk.write
    simp only [hfails, hworks, Bool.false_eq_true, if_false, writesAt, applyWrites_cons, applyWrites_nil, hcontent]
    rw [← hlog.1, Function.update_eq_self, ← hlog.2, Function.update_eq_self]
  have hnum : (pfs_journal_t.ofBlock pfs_journal_t.reset.toBlock).num = 0 := rfl
  unfold pfsJournalRestore
  rw [read_of_works (hworks _)]
  unfold blockAt
  simp only [List.map_cons, List.map_nil, hlog.1, hlog.2, hnum, if_true]
  split
  · exact hreset _ rfl rfl
  · exact hreset _ rfl rfl

theorem Scaled.logStart (h : Scaled B zonesize scale) :
    (logOf (newSuper B zonesize)).logStart = (newLog B zonesize).number * 2 ^ scale := by
  have hnumber : newSuper B zonesize 6 = (newLog B zonesize).number := rfl
  have hzone : newSuper B zonesize 4 = zonesize := rfl
  have hfirst := (h.laid 0 (Nat.zero_le _)).first
  have hpow : 2 ^ scale ≤ 2 ^ 8 := Nat.pow_le_pow_right (by decide) h.high
  have hmul := Nat.mul_le_mul (show pfsGetBitmapSizeBlocks scale (B.getSize 0) ≤ 4096 by omega) hpow
  unfold logOf pfs_mount_t.logStart
  dsimp only
  rw [hnumber, hzone, h.sectors, h.log, u32, Nat.mod_eq_of_lt (by omega)]

private theorem mountVolume_new (hscaled : Scaled B zonesize scale) (h : Readable s)
    (hformatted : Formatted B time zonesize s.disk.content) :
    Counted B zonesize 0 (B.getSubNumber + 1) (mountOf (newSuper B zonesize)) (mountVolume B (newSuper B zonesize) s).1 ∧
      (mountVolume B (newSuper B zonesize) s).2.disk.content = s.disk.content := by
  have hlog : BlockOn s.disk.content (logOf (newSuper B zonesize)).logStart pfs_journal_t.reset.toBlock := by
    have hon := hformatted.log
    rw [hscaled.sectors] at hon
    rwa [hscaled.logStart]
  obtain ⟨hfails, hcontent⟩ := pfsJournalRestore_new (if s.free = [] then .error (- ENOMEM) else .ok ()) B.behind hlog h.works
  obtain ⟨d, hd⟩ : ∃ d, d = (pfsJournalRestore (if s.free = [] then .error (- ENOMEM) else .ok ())
    (logOf (newSuper B zonesize)) B.behind s.disk).2 := ⟨_, rfl⟩
  rw [← hd] at hfails hcontent
  have hreadable : Readable { s with disk := d } :=
    ⟨⟨h.idle.nodup, h.idle.unused⟩, h.free, fun n => hfails ▸ h.works n, h.lastError⟩
  obtain ⟨hcounted, -, hcontent'⟩ := countZones_new (i := 0) (n := B.getSubNumber + 1) (m := mountOf (newSuper B zonesize))
    hscaled hreadable hscaled.sectors hscaled.blocks (show 0 < 2 ^ 32 by decide) (show 0 < 2 ^ 32 by decide) (by omega)
    (hcontent.symm ▸ hformatted.bitmaps)
  rw [hd] at hcounted hcontent' hcontent
  exact ⟨hcounted, hcontent'.trans hcontent⟩

/-- A partition that was formatted is mounted whenever it is tried: its zones are free but those that hold the superblocks, the log, the root directory and the bitmaps, and the mount changes nothing on the disk. -/
private theorem mount_formatted (h : Formattable B zonesize) (hformatted : Formatted B time zonesize t.disk.content)
    (ht : Ready t) (flags : Nat) : ∃ m, (pfsMountSuperBlock B flags t).1 = 0 ∧
      (pfsMountSuperBlock B flags t).2.1 = some m ∧
      (pfsMountSuperBlock B flags t).2.2.disk.content = t.disk.content ∧
      m.zsize = zonesize ∧ m.num_subs = B.getSubNumber ∧ (∀ i ≤ B.getSubNumber, m.free_zone i = newFree B zonesize i) ∧
      m.total_zones = u32 (sumFrom (fun i => B.getSize i / 2 ^ pfsGetScale zonesize 512) 0 (B.getSubNumber + 1)) ∧
      m.zfree = u32 (sumFrom (newFree B zonesize) 0 (B.getSubNumber + 1)) := by
  obtain ⟨scale, hscaled⟩ := h.scaled
  obtain ⟨clink, free, hcons⟩ : ∃ clink free, t.free = clink :: free :=
    List.exists_cons_of_length_pos (Nat.lt_of_lt_of_le (by decide) ht.free)
  have halloc := pfsCacheAlloc_cons hcons
  have hsuper : t.disk.read [place 0 PFS_SUPER_SECTOR] =
      (some [newSuper B zonesize], (t.disk.read [place 0 PFS_SUPER_SECTOR]).2) := by
    rw [read_of_works (ht.works _), List.map_singleton, hformatted.super]
  have haccepted : accepted (newSuper B zonesize) flags B.getSubNumber = true := by
    unfold accepted
    simp [newSuper, h.zones]
  have hold : ¬ newSuper B zonesize 5 < B.getSubNumber := lt_irrefl _
  -- the mount with its buffer
  obtain ⟨s, hs⟩ : ∃ s : Volume, s = { t with
    nused := Function.update t.nused clink 1
    free := free
    disk := (t.disk.read [place 0 PFS_SUPER_SECTOR]).2 } := ⟨_, rfl⟩
  have hcontent : s.disk.content = t.disk.content := by rw [hs]; rfl
  have hreadable : Readable s := by
    have hidle := ht.idle.alloc halloc
    have hfree := ht.free
    rw [hcons, List.length_cons] at hfree
    rw [hs]
    refine ⟨⟨hidle.nodup, hidle.unused⟩, ?_, ht.works, ht.lastError⟩
    rintro rfl
    exact absurd hfree (by decide)
  obtain ⟨hcounted, hcontent'⟩ := mountVolume_new hscaled hreadable
    (show Formatted B time zonesize s.disk.content from hcontent.symm ▸ hformatted)
  have hmount : pfsMountSuperBlock B flags t = (0, some (mountVolume B (newSuper B zonesize) s).1,
      pfsCacheFree clink false (mountVolume B (newSuper B zonesize) s).2) := by
    unfold pfsMountSuperBlock
    rw [halloc]
    dsimp only
    rw [hsuper]
    dsimp only
    rw [if_pos haccepted, ← hs]
    unfold mountSuper
    simp only [hold, if_false, ne_eq, not_true_eq_false]
  rw [hmount, pfsCacheFree_disk]
  refine ⟨_, rfl, rfl, hcontent'.trans hcontent, hcounted.zsize, hcounted.num_subs, fun i hi => ?_, ?_, ?_⟩
  · rw [hcounted.free_zone, if_pos (by omega)]
  · rw [hcounted.total_zones]
    exact congrArg u32 (Nat.zero_add _)
  · rw [hcounted.zfree]
    exact congrArg u32 (Nat.zero_add _)

/-- A format gives its buffers back. It leaves all of the new filesystem on the disk, the root directory with nothing but itself in it, or a command failed and the first superblock is the one that was there before. -/
theorem pfsFormat_makes (time : Nat × Nat) (h : Formattable B zonesize) (hidle : Idle s) (hfree : 2 ≤ s.free.length) :
    Kept s (pfsFormat B time zonesize 0 s).2 ∧
    ((pfsFormat B time zonesize 0 s).1 = 0 ∧
        Formatted B time zonesize (pfsFormat B time zonesize 0 s).2.disk.content ∧
        Stores (rootDirectory (pfsFormat B time zonesize 0 s).2.disk.content)
          (dots (newRoot B zonesize) (newRoot B zonesize)) ∨
      (pfsFormat B time zonesize 0 s).1 < 0 ∧ Failed s.disk (pfsFormat B time zonesize 0 s).2.disk ∧
        (pfsFormat B time zonesize 0 s).2.disk.content (place 0 PFS_SUPER_SECTOR) =
          s.disk.content (place 0 PFS_SUPER_SECTOR)) := by
  obtain ⟨hkept, hresult⟩ := pfsFormat_spec time h hidle hfree
  exact ⟨hkept, hresult.imp_left fun ⟨hzero, hformatted⟩ => ⟨hzero, hformatted, hformatted.stores h⟩⟩

def newDevice : block_device_t := ⟨1, fun _ => 2 ^ 18, fun _ => ⟨0, 0, 0⟩, fun _ _ => (Sector.zero, Sector.zero), true⟩

/-- Three buffers, and a drive on which no command fails. -/
def quietVolume (c : Nat → Sector) : Volume where
  disk := fresh c fun _ => false
  nused _ := 0
  free := [1, 2, 3]
  lastError := 0

theorem ready_quiet (c : Nat → Sector) : Ready (quietVolume c) where
  idle := ⟨(by decide : [1, 2, 3].Nodup), fun _ _ => rfl⟩
  free := (by decide : 2 ≤ [1, 2, 3].length)
  works _ := rfl
  lastError := rfl

theorem formattable_new : Formattable newDevice 8192 := ⟨by decide, fun _ _ => ⟨18, by decide, by decide, rfl⟩⟩

theorem not_failed_quiet (c : Nat → Sector) (d : FaultyDisk Sector) : ¬ Failed (quietVolume c).disk d :=
  fun ⟨_, _, _, hfails⟩ => Bool.false_ne_true hfails

theorem pfsFormat_makes_new : (pfsFormat newDevice (0, 0) 8192 0 (quietVolume fun _ => Sector.zero)).1 = 0 ∧
    Stores (rootDirectory (pfsFormat newDevice (0, 0) 8192 0 (quietVolume fun _ => Sector.zero)).2.disk.content)
      (dots (newRoot newDevice 8192) (newRoot newDevice 8192)) := by
  have hready := ready_quiet fun _ => Sector.zero
  rcases (pfsFormat_makes (0, 0) formattable_new hready.idle hready.free).2 with
    ⟨hzero, -, hstores⟩ | ⟨-, hfailed, -⟩
  · exact ⟨hzero, hstores⟩
  · exact absurd hfailed (not_failed_quiet _ _)

/-- A new filesystem is mounted. -/
theorem pfsFormat_mounts (h : Formattable B zonesize) (hidle : Idle s) (hfree : 2 ≤ s.free.length)
    (hzero : (pfsFormat B time zonesize 0 s).1 = 0) (ht : Ready t)
    (hcontent : t.disk.content = (pfsFormat B time zonesize 0 s).2.disk.content) (flags : Nat) :
    ∃ m, (pfsMountSuperBlock B flags t).1 = 0 ∧ (pfsMountSuperBlock B flags t).2.1 = some m ∧
      (pfsMountSuperBlock B flags t).2.2.disk.content = t.disk.content ∧
      m.zsize = zonesize ∧ m.num_subs = B.getSubNumber ∧ (∀ i ≤ B.getSubNumber, m.free_zone i = newFree B zonesize i) ∧
      m.total_zones = u32 (sumFrom (fun i => B.getSize i / 2 ^ pfsGetScale zonesize 512) 0 (B.getSubNumber + 1)) ∧
      m.zfree = u32 (sumFrom (newFree B zonesize) 0 (B.getSubNumber + 1)) := by
  rcases (pfsFormat_spec time h hidle hfree).2 with ⟨-, hformatted⟩ | ⟨hneg, -⟩
  · exact mount_formatted h (hcontent.symm ▸ hformatted) ht flags
  · omega

/-- What was made on an empty drive is mounted. -/
theorem pfsFormat_mounts_new : ∃ m, (pfsMountSuperBlock newDevice 0 (quietVolume
      (pfsFormat newDevice (0, 0) 8192 0 (quietVolume fun _ => Sector.zero)).2.disk.content)).2.1 = some m ∧
    m.num_subs = 1 ∧ m.free_zone 0 = newFree newDevice 8192 0 ∧ m.free_zone 1 = newFree newDevice 8192 1 := by
  obtain ⟨s, hs⟩ : ∃ s, s = quietVolume fun _ => Sector.zero := ⟨_, rfl⟩
  have hready : Ready s := hs ▸ ready_quiet _
  have hzero : (pfsFormat newDevice (0, 0) 8192 0 s).1 = 0 := by
    rcases (pfsFormat_spec (0, 0) formattable_new hready.idle hready.free).2 with ⟨hzero, -⟩ | ⟨-, hfailed, -⟩
    · exact hzero
    · rw [hs] at hfailed
      exact absurd hfailed (not_failed_quiet _ _)
  obtain ⟨m, -, hmount, -, -, hsubs, hfree, -⟩ := pfsFormat_mounts formattable_new hready.idle hready.free hzero
    (ready_quiet (pfsFormat newDevice (0, 0) 8192 0 s).2.disk.content) rfl 0
  rw [← hs]
  exact ⟨m, hmount, hsubs, hfree 0 (Nat.zero_le _), hfree 1 (Nat.le_refl _)⟩

end HddChecker.Pfs.Commands
