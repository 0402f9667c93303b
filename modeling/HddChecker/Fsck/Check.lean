import HddChecker.Lib.Prog
import HddChecker.Fsck.Bitmap
import HddChecker.Pfs.Bitmap

/-!
# The check of a filesystem

`FsckThread` and the functions of `fsck.c` it calls. What they use of `libpfs`, of the block device and of the file is a record of operations on a state of their own, so that the check is followed whatever these answer. The positions in a directory are those of `libpfs` itself.
-/

namespace HddChecker.Fsck

open HddChecker Prog Pfs

abbrev EIO : Int := 5
abbrev ENOMEM : Int := 12
abbrev EINVAL : Int := 22
abbrev IO_BUFFER_SIZE : Nat := 256
abbrev FSCK_MAX_PATH_LEVELS : Nat := 64
abbrev PFS_INODE_MAX_BLOCKS : Nat := 114
abbrev PFS_FIO_ATTR_CLOSED : Nat := 0x0080
abbrev PFS_SUPER_SECTOR : Nat := 8192
abbrev PFS_FSCK_STAT_WRITE_ERROR : Nat := 0x01
abbrev PFS_FSCK_STAT_ERRORS_FIXED : Nat := 0x02

def FIO_S_ISDIR (mode : Nat) : Bool := mode &&& 0xF000 == 0x1000

def FIO_S_ISREG (mode : Nat) : Bool := mode &&& 0xF000 == 0x2000

def pfsFixIndex (index : Nat) : Nat :=
  if index < PFS_INODE_MAX_BLOCKS then index else (index - PFS_INODE_MAX_BLOCKS) % 123

/-- `pfs_inode_t`, as far as the check uses it. -/
structure pfs_inode_t where
  inode_block : pfs_blockinfo_t
  next_segment : pfs_blockinfo_t
  last_segment : pfs_blockinfo_t
  data : Nat → pfs_blockinfo_t
  mode : Nat
  attr : Nat
  size : Nat
  number_blocks : Nat
  number_data : Nat
  number_segdesg : Nat
  subpart : Nat

structure pfs_dentry_t where
  inode : Nat
  sub : Nat
  pLen : Nat
  aLen : Nat
  path : Nat → Nat

structure pfs_blockpos_t where
  inode : Option Nat
  block_segment : Nat
  block_offset : Nat
  byte_offset : Nat

/-- What a cache entry is loaded as. -/
inductive CacheFlag where
  | NOTHING
  | NOLOAD
  | SEGI
  | BITMAP
  deriving DecidableEq

abbrev Words : Type := Nat → Nat

/-- The mount of the filesystem, with the sizes of its partitions in sectors and their first zones. -/
structure Mount where
  num_subs : Nat
  sector_scale : Nat
  inode_scale : Nat
  zsize : Nat
  root_dir : pfs_blockinfo_t
  ZoneSizes : Nat → Nat
  ZoneMap : Nat → Nat

/-- `libpfs`, the block device and the file, over their state. Cache entries are numbers; a directory entry is given by its entry of the cache and its offset there. -/
structure Libpfs (σ : Type) where
  sub : Nat → σ → Nat
  block : Nat → σ → Nat
  inode : Nat → σ → pfs_inode_t
  setInode : Nat → (pfs_inode_t → pfs_inode_t) → σ → σ
  dentry : Nat → Nat → σ → pfs_dentry_t
  setDentry : Nat → Nat → (pfs_dentry_t → pfs_dentry_t) → σ → σ
  bitmap : Nat → Nat → Nat → σ → Bool
  setBitmap : Nat → Nat → Nat → σ → σ
  /-- `memset` of the data of an entry to zero -/
  zero : Nat → σ → σ
  setDirty : Nat → σ → σ
  pfsCacheGetData : Nat → Nat → CacheFlag → σ → Except Int Nat × σ
  pfsCacheUsedAdd : Nat → σ → σ
  pfsCacheFree : Option Nat → σ → σ
  pfsCacheFlushAllDirty : σ → σ
  pfsInodeGetData : Nat → Nat → σ → Except Int Nat × σ
  /-- a transfer from a sector of a partition: its result and the buffer behind it -/
  transferRead : Nat → Nat → Nat → σ → (Int × Words) × σ
  transferWrite : Nat → Nat → Nat → Words → σ → Int × σ
  flushCache : σ → σ
  /-- `HIOCGETPARTERROR` -/
  getPartError : σ → σ
  /-- `lseek(mount->fd, 0, SEEK_SET)` -/
  rewind : σ → σ
  read : Nat → σ → (Int × Words) × σ
  write : Nat → Words → σ → Int × σ

/-- `struct fsckStatus` -/
structure fsckStatus where
  zoneUsed : Nat
  inodeBlockCount : Nat
  files : Nat
  directories : Nat
  PWDLevel : Nat
  errorCount : Nat
  fixedErrorCount : Nat
  deriving DecidableEq

/-- Where the walk of a directory stands: its position, the segment descriptor there, and the one behind that if it can be had. -/
structure Stand where
  descriptor : pfs_inode_t
  next : Option pfs_inode_t
  position : pfs_blockpos_t

/-- A chunk that is read as directory entries: its position and the segment descriptor there, the `number_data` of the directory, and for all but the first chunk where the walk stood before. -/
structure Visit where
  zsize : Nat
  number_data : Nat
  stood : Option Stand
  segment : pfs_inode_t
  position : pfs_blockpos_t
  DEntryClink : Option Nat

/-- What the walk of a directory does with chunks. -/
inductive WalkEvent where
  | read (visit : Visit)
  | mark (DEntryClink : Nat)

structure Check (σ : Type) where
  pfs : σ
  scratch : Scratch
  IOBuffer : Words
  fsckWriteEnabled : Bool
  fsckAutoMode : Bool
  /-- the answers of the user to come -/
  answers : Nat → Bool
  /-- how often the stop flag is still found clear; `none` if always -/
  stop : Option Nat
  hasError : Bool
  status : fsckStatus
  /-- the errors that were reported, and those of them that were answered with a repair; no variables of the module -/
  reported : Nat
  repaired : Nat
  /-- what the walk of the directories did, the last first; no variable of the module either -/
  walk : List WalkEvent
  /-- the runs of zones that passed the test of their place, the last first, with the mount they were tested for -/
  used : List (Mount × pfs_blockinfo_t)

variable {σ : Type}

/-! ### Steps -/

/-- An operation of `libpfs`. -/
def pfsOp {α : Type} (f : σ → α × σ) : Prog (Check σ) α := ofState fun s =>
  let (a, pfs) := f s.pfs
  (a, { s with pfs := pfs })

def pfsDo (f : σ → σ) : Prog (Check σ) Unit := modify fun s => { s with pfs := f s.pfs }

/-- What `libpfs` shows. -/
def pfsShow {α : Type} (f : σ → α) : Prog (Check σ) α := Prog.read fun s => f s.pfs

/-- A transfer into `IOBuffer`. -/
def transferRead (L : Libpfs σ) (sub sector size : Nat) : Prog (Check σ) Int := ofState fun s =>
  let ((result, words), pfs) := L.transferRead sub sector size s.pfs
  (result, { s with pfs := pfs, IOBuffer := words })

/-- A transfer out of `IOBuffer`. -/
def transferWrite (L : Libpfs σ) (sub sector size : Nat) : Prog (Check σ) Int := ofState fun s =>
  let (result, pfs) := L.transferWrite sub sector size s.IOBuffer s.pfs
  (result, { s with pfs := pfs })

/-- `read(mount->fd, IOBuffer, size)` -/
def fileRead (L : Libpfs σ) (size : Nat) : Prog (Check σ) Int := ofState fun s =>
  let ((result, words), pfs) := L.read size s.pfs
  (result, { s with pfs := pfs, IOBuffer := words })

/-- `write(mount->fd, IOBuffer, size)` -/
def fileWrite (L : Libpfs σ) (size : Nat) : Prog (Check σ) Int := ofState fun s =>
  let (result, pfs) := L.write size s.IOBuffer s.pfs
  (result, { s with pfs := pfs })

/-- `fsckRuntimeData.stopFlag` -/
def stopFlag : Prog (Check σ) Bool := ofState fun s =>
  match s.stop with
  | none => (false, s)
  | some 0 => (true, s)
  | some (n + 1) => (false, { s with stop := some n })

/-- `fsckRuntimeData.hasError = 1` -/
def setError : Prog (Check σ) Unit := modify fun s => { s with hasError := true }

def setStatus (f : fsckStatus → fsckStatus) : Prog (Check σ) Unit :=
  modify fun s => { s with status := f s.status }

/-- The next answer of the user that is `y` or `n`. -/
def choice : Prog (Check σ) Bool := ofState fun s =>
  (s.answers 0, { s with answers := fun n => s.answers (n + 1) })

def note (e : WalkEvent) : Prog (Check σ) Unit := modify fun s => { s with walk := e :: s.walk }

/-- The code goes on through a null pointer; there is no answer. -/
def crash {α : Type} : Prog (Check σ) α := loop (fun (_ : Unit) => return .inl ()) ()

/-! ### Prompts -/

/-- An error is reported and counted. -/
def countError : Prog (Check σ) Unit := modify fun s => { s with
  status := { s.status with errorCount := u32 (s.status.errorCount + 1) }
  reported := s.reported + 1 }

/-- It is to be repaired, and counted as such. -/
def countFixed : Prog (Check σ) Unit := modify fun s => { s with
  status := { s.status with fixedErrorCount := u32 (s.status.fixedErrorCount + 1) }
  repaired := s.repaired + 1 }

/-- `fsckPromptUserAction`, whose answer is `mode` in automatic mode. -/
def fsckPromptUserAction (mode : Bool) : Prog (Check σ) Bool := do
  countError
  let s ← Prog.read id
  if s.fsckWriteEnabled then
    if s.fsckAutoMode then
      if mode then
        countFixed
        return mode
      else
        setError
        return mode
    else if ← choice then
      countFixed
      return true
    else
      setError
      return false
  else
    setError
    return false

/-- `fsckPromptUserAction2`, which counts nothing. -/
def fsckPromptUserAction2 (mode : Bool) : Prog (Check σ) Bool := do
  let s ← Prog.read id
  if s.fsckWriteEnabled then
    if s.fsckAutoMode then
      if mode then return mode
      else
        setError
        return mode
    else if ← choice then return true
    else
      setError
      return false
  else
    setError
    return false

/-! ### Extended attributes -/

/-- The inner loop of `fsckCheckExtendedAttribute`, which writes zeros. -/
def nullifyAttribute (L : Libpfs σ) : Prog (Check σ) Int :=
  loop (fun (x : Nat × Int) => do
    let (remaining, result) := x
    if remaining = 0 then return .inr result
    else
      let size := min remaining IO_BUFFER_SIZE
      let result ← fileWrite L (size * 512)
      if result < 0 then return .inr result else return .inl (remaining - size, result)) (0x1FF8, 0)

def fsckCheckExtendedAttribute (L : Libpfs σ) : Prog (Check σ) Int := do
  pfsDo L.rewind
  loop (fun (remaining : Nat) => do
    if remaining = 0 then return .inr 0
    else
      let size := min remaining IO_BUFFER_SIZE
      if (← fileRead L (size * 512)) = - EIO then
        if ← fsckPromptUserAction true then
          modify fun s => { s with IOBuffer := fun _ => 0 }
          pfsDo L.rewind
          return .inr (← nullifyAttribute L)
        else return .inr 0
      else return .inl (remaining - size)) 0x1FF8

/-! ### Inodes -/

def pfsInitDirEnt (L : Libpfs σ) (subpart inodeNumber number : Nat) (isDir : Bool) :
    Prog (Check σ) Int := do
  if ← fsckPromptUserAction true then
    match ← pfsOp (L.pfsCacheGetData subpart number .NOLOAD) with
    | .error result => return result
    | .ok clink =>
      pfsDo (L.zero clink)
      if isDir then
        pfsDo (L.setDentry clink 0 fun e =>
          { e with inode := inodeNumber, sub := subpart % 256, pLen := 1, aLen := 0x1000 ||| 12
                   path := fun i => if i = 0 then 46 else if i = 1 then 0 else e.path i })
        pfsDo (L.setDentry clink 12 fun e =>
          { e with inode := inodeNumber, sub := subpart % 256, pLen := 2, aLen := 0x1000 ||| 500
                   path := fun i => if i < 2 then 46 else if i = 2 then 0 else e.path i })
      else pfsDo (L.setDentry clink 0 fun e => { e with aLen := 512 })
      pfsDo (L.setDentry clink 512 fun e => { e with aLen := 512 })
      pfsDo (L.setDirty clink)
      pfsDo (L.pfsCacheFree (some clink))
      return 0
  else return - EIO

/-- The loops of `fsckCheckFileBitmap` over the bits of one chunk: how many are left, or nothing where the user refused. -/
def checkChunk (L : Libpfs σ) (clink index bit count : Nat) : Prog (Check σ) (Option Nat) :=
  loop (fun (x : Nat × Nat × Nat) => do
    let (index, bit, count) := x
    if 0x100 ≤ index ∨ count = 0 then return .inr (some count)
    else if 32 ≤ bit then return .inl (index + 1, 0, count)
    else if ← pfsShow (L.bitmap clink index bit) then return .inl (index, bit + 1, count - 1)
    else if ← fsckPromptUserAction true then
      pfsDo (L.setBitmap clink index bit)
      pfsDo (L.setDirty clink)
      return .inl (index, bit + 1, count - 1)
    else return .inr none) (index, bit, count)

def pfsBitmapReadPartition (L : Libpfs σ) (m : Mount) (subpart chunk : Nat) :
    Prog (Check σ) (Option Nat) := do
  match ← pfsOp (L.pfsCacheGetData subpart (u32 (chunk + 2 ^ m.inode_scale + 0x2000 / 2)) .BITMAP) with
  | .ok clink => return some clink
  | .error _ => return none

def fsckCheckFileBitmap (L : Libpfs σ) (m : Mount) (blockinfo : pfs_blockinfo_t) : Prog (Check σ) Int :=
  loop (fun (x : Nat × Nat × Nat × Nat) => do
    let (chunk, index, bit, count) := x
    if count = 0 then return .inr 0
    else
      match ← pfsBitmapReadPartition L m blockinfo.subpart chunk with
      | none => return .inr 0
      | some clink =>
        match ← checkChunk L clink index bit count with
        | none => return .inr (- EINVAL)
        | some count =>
          pfsDo (L.pfsCacheFree (some clink))
          return .inl (chunk + 1, 0, 0, count))
    (blockinfo.number / pfsBitsPerBitmapChunk, blockinfo.number % pfsBitsPerBitmapChunk / 32,
      blockinfo.number % 32, blockinfo.count)

def fsckFillInode (L : Libpfs σ) (m : Mount) (inodeClink : Nat) (blockClink : Option Nat)
    (blocks entries segdesg : Nat) : Prog (Check σ) Unit := do
  match blockClink with
  | none => crash
  | some blockClink =>
    pfsDo (L.setInode blockClink fun i => { i with next_segment := ⟨0, 0, 0⟩ })
    let sub ← pfsShow (L.sub blockClink)
    let block ← pfsShow (L.block blockClink)
    pfsDo (L.setInode inodeClink fun i => { i with
      attr := if FIO_S_ISDIR i.mode then i.attr else i.attr &&& (0xFFFF - PFS_FIO_ATTR_CLOSED)
      number_blocks := blocks, number_data := entries, number_segdesg := segdesg, subpart := 0
      last_segment := { i.last_segment with
        subpart := sub % 2 ^ 16, number := block / 2 ^ m.inode_scale } })
    pfsDo (L.setDirty blockClink)
    pfsDo (L.setDirty inodeClink)

/-- The loops of `fsckCheckDirentryInode` over the sectors of a zone of a directory: the result, negative where the check of the inode ends, and the offset in the directory. -/
def readSectors (L : Libpfs σ) (m : Mount) (clink : Nat) (info : pfs_blockinfo_t) (first : Bool)
    (i inodeOffset : Nat) : Prog (Check σ) (Int × Nat) := do
  let inodeStart := u32 (u32 (info.number + i) * 2 ^ m.inode_scale)
  loop (fun (x : Nat × Nat) => do
    let (sector, inodeOffset) := x
    let inode ← pfsShow (L.inode clink)
    if 2 ^ m.inode_scale ≤ sector ∨ inode.size ≤ inodeOffset then return .inr (0, inodeOffset)
    else
      let inodeOffset := u32 (inodeOffset + 1024)
      match ← pfsOp (L.pfsCacheGetData info.subpart (u32 (inodeStart + sector)) .NOTHING) with
      | .ok child =>
        pfsDo (L.pfsCacheFree (some child))
        return .inl (sector + 1, inodeOffset)
      | .error result =>
        if result = - ENOMEM then return .inr (result, inodeOffset)
        else
          let result ← pfsInitDirEnt L info.subpart inode.inode_block.number
            (u32 (inodeStart + sector)) (first && i == 0 && sector < 1)
          if result < 0 then return .inr (result, inodeOffset) else return .inl (sector + 1, inodeOffset))
    (0, inodeOffset)

/-- The loop of `fsckCheckDirentryInode` over the zones of a directory. -/
def readDirectory (L : Libpfs σ) (m : Mount) (clink : Nat) (info : pfs_blockinfo_t) (first : Bool)
    (inodeOffset : Nat) : Prog (Check σ) (Int × Nat) :=
  loop (fun (x : Nat × Nat) => do
    let (i, inodeOffset) := x
    if info.count ≤ i then return .inr (0, inodeOffset)
    else
      let (result, inodeOffset) ← readSectors L m clink info first i inodeOffset
      if result < 0 then return .inr (result, inodeOffset) else return .inl (i + 1, inodeOffset))
    (0, inodeOffset)

/-- The loop of `fsckCheckDirentryInode` over the zones of a file: whether it came to its end. -/
def readFile (L : Libpfs σ) (m : Mount) (info : pfs_blockinfo_t) (fill : Prog (Check σ) Unit) :
    Prog (Check σ) Bool :=
  loop (fun (i : Nat) => do
    if info.count ≤ i then return .inr true
    else if (← transferRead L info.subpart (u32 (u32 (info.number + i) * 2 ^ m.sector_scale))
        (2 ^ m.sector_scale)) = 0 then
      if ← stopFlag then return .inr false else return .inl (i + 1)
    else if ← fsckPromptUserAction true then
      fill
      return .inr false
    else return .inr false) 0

/-- A run of zones that no inode may name. -/
def badZone (m : Mount) (info : pfs_blockinfo_t) : Bool :=
  m.num_subs < info.subpart || info.count == 0 || info.number < 2 ||
    m.ZoneSizes info.subpart < u32 (u32 (info.number + info.count) * 2 ^ m.sector_scale)

/-- The loop variables of `fsckCheckDirentryInode`. -/
structure Cursor where
  index : Nat
  blockClink : Option Nat
  inodeOffset : Nat
  blocks : Nat
  segdesg : Nat

/-- What `fsckCheckDirentryInode` does about an entry whose data could be read: its zones are checked in the bitmaps, and the cursor goes on unless the check of the inode ends. -/
def claimZones (L : Libpfs σ) (m : Mount) (fill : Prog (Check σ) Unit) (blockClink : Nat)
    (info : pfs_blockinfo_t) (c : Cursor) (inodeOffset : Nat) :
    Prog (Check σ) (Cursor ⊕ Option Nat × Int) := do
  let result ← fsckCheckFileBitmap L m info
  if result < 0 then return .inr (some blockClink, result)
  else
    let result ← ofState fun s : Check σ =>
      let (result, scratch) := Fsck.fsckCheckZones (u32 (info.number + m.ZoneMap info.subpart)) info.count s.scratch
      (result, { s with scratch := scratch })
    if 0 < result then
      if ← fsckPromptUserAction true then
        fill
        return .inr (some blockClink, result)
      else return .inr (some blockClink, result)
    else if result < 0 then return .inr (some blockClink, result)
    else
      setStatus fun t => { t with inodeBlockCount := u32 (t.inodeBlockCount + info.count) }
      if ← stopFlag then return .inr (some blockClink, result)
      else return .inl { c with
        index := c.index + 1, blockClink := some blockClink, inodeOffset := inodeOffset
        blocks := u32 (c.blocks + info.count) }

/-- What `fsckCheckDirentryInode` does about the data entry at the cursor, whose segment descriptor is `blockClink`: go on, or end with a result. -/
def checkEntry (L : Libpfs σ) (m : Mount) (clink blockClink : Nat) (c : Cursor) :
    Prog (Check σ) (Cursor ⊕ Option Nat × Int) := do
  let inode ← pfsShow (L.inode blockClink)
  let info := inode.data (pfsFixIndex c.index)
  let fill := fsckFillInode L m clink (some blockClink) c.blocks c.index c.segdesg
  if badZone m info then
    if ← fsckPromptUserAction true then
      fill
      return .inr (some blockClink, 0)
    else return .inr (some blockClink, - EINVAL)
  else
    modify fun s => { s with used := (m, info) :: s.used }
    let self ← pfsShow (L.inode clink)
    -- the first entry of a descriptor is the descriptor itself
    if pfsFixIndex c.index = 0 then claimZones L m fill blockClink info c c.inodeOffset
    else if FIO_S_ISDIR self.mode then
      let (result, inodeOffset) ← readDirectory L m clink info (c.index == 1) c.inodeOffset
      if result < 0 then return .inr (some blockClink, result)
      else claimZones L m fill blockClink info c inodeOffset
    else if ← readFile L m info fill then claimZones L m fill blockClink info c c.inodeOffset
    else return .inr (some blockClink, 0)

/-- The loop of `fsckCheckDirentryInode`: the last segment descriptor and the result. -/
def checkEntries (L : Libpfs σ) (m : Mount) (clink : Nat) (c : Cursor) :
    Prog (Check σ) (Option Nat × Int) :=
  loop (fun (c : Cursor) => do
    let inode ← pfsShow (L.inode clink)
    if inode.number_data ≤ c.index then return .inr (c.blockClink, 0)
    else
      match c.blockClink with
      | none => crash
      | some blockClink =>
        if c.index ≠ 0 ∧ pfsFixIndex c.index = 0 then
          let next := (← pfsShow (L.inode blockClink)).next_segment
          pfsDo (L.pfsCacheFree (some blockClink))
          match ← pfsOp (L.pfsCacheGetData next.subpart (u32 (next.number * 2 ^ m.inode_scale)) .SEGI) with
          | .error result =>
            if result = - EIO then
              if ← fsckPromptUserAction true then
                fsckFillInode L m clink none c.blocks c.index c.segdesg
                return .inr (none, result)
              else return .inr (none, result)
            else return .inr (none, result)
          | .ok blockClink => checkEntry L m clink blockClink { c with segdesg := c.segdesg + 1 }
        else checkEntry L m clink blockClink c) c

def fsckCheckDirentryInode (L : Libpfs σ) (m : Mount) (direntInodeClink : Nat) :
    Prog (Check σ) Int := do
  pfsDo (L.pfsCacheUsedAdd direntInodeClink)
  let (blockClink, result) ← checkEntries L m direntInodeClink ⟨0, some direntInodeClink, 0, 0, 1⟩
  if result < 0 then
    setError
    pfsDo (L.pfsCacheFree blockClink)
    return result
  else
    pfsDo (L.pfsCacheFree blockClink)
    return result

/-! ### Positions -/

def pfsBlockGetNextSegment (L : Libpfs σ) (m : Mount) (clink : Nat) :
    Prog (Check σ) (Except Int Nat) := do
  pfsDo (L.pfsCacheFree (some clink))
  let inode ← pfsShow (L.inode clink)
  let next := inode.next_segment
  if next.number ≠ 0 then
    pfsOp (L.pfsCacheGetData next.subpart (u32 (next.number * 2 ^ m.inode_scale)) .SEGI)
  else return .error (- EINVAL)

/-- The segment descriptor it would give. -/
def nextDescriptor (L : Libpfs σ) (m : Mount) (clink : Nat) (s : σ) : Option pfs_inode_t :=
  let s := L.pfsCacheFree (some clink) s
  let next := (L.inode clink s).next_segment
  if next.number ≠ 0 then
    match L.pfsCacheGetData next.subpart (u32 (next.number * 2 ^ m.inode_scale)) .SEGI s with
    | (.ok clink, s) => some (L.inode clink s)
    | (.error _, _) => none
  else none

def pfsBlockSyncPos (m : Mount) (blockpos : pfs_blockpos_t) (size : Nat) : Nat × pfs_blockpos_t :=
  let byte_offset := blockpos.byte_offset + size % m.zsize
  if m.zsize ≤ byte_offset then
    (size / m.zsize + 1, { blockpos with byte_offset := byte_offset - m.zsize })
  else (size / m.zsize, { blockpos with byte_offset := byte_offset })

/-- The loop of `pfsInodeSync`. At the end of the last segment the offset is the length of the segment. -/
def syncLoop (L : Libpfs σ) (m : Mount) (used_segments i : Nat) (blockpos : pfs_blockpos_t) :
    Prog (Check σ) (Int × pfs_blockpos_t) :=
  loop (fun (x : Nat × pfs_blockpos_t) => do
    let (i, blockpos) := x
    if i = 0 then return .inr (0, blockpos)
    else
      match blockpos.inode with
      | none => crash
      | some clink =>
        let inode ← pfsShow (L.inode clink)
        let count := (inode.data (pfsFixIndex blockpos.block_segment)).count
        let i := i + blockpos.block_offset
        if i < count then return .inr (0, { blockpos with block_offset := i })
        else
          let i := i - count
          if blockpos.block_segment + 1 = used_segments ∧ (i ≠ 0 ∨ blockpos.byte_offset ≠ 0) then
            return .inr (- EINVAL, { blockpos with block_offset := count })
          else
            let blockpos := if blockpos.block_segment + 1 = used_segments then
                { blockpos with block_offset := count }
              else { blockpos with block_offset := 0, block_segment := blockpos.block_segment + 1 }
            if pfsFixIndex blockpos.block_segment ≠ 0 then return .inl (i, blockpos)
            else
              match ← pfsBlockGetNextSegment L m clink with
              | .error result => return .inr (result, { blockpos with inode := none })
              | .ok next => return .inl (i + 1, { blockpos with inode := some next })) (i, blockpos)

def pfsInodeSync (L : Libpfs σ) (m : Mount) (size used_segments : Nat) (blockpos : pfs_blockpos_t) :
    Prog (Check σ) (Int × pfs_blockpos_t) :=
  let (i, blockpos) := pfsBlockSyncPos m blockpos size
  syncLoop L m used_segments i blockpos

/-- `pfsGetDentriesChunk`, which is recorded as a step of the walk. -/
def pfsGetDentriesChunk (L : Libpfs σ) (m : Mount) (number_data : Nat)
    (stood : Option Stand) (position : pfs_blockpos_t) (clink : Nat) :
    Prog (Check σ) (Option Nat) := do
  let inode ← pfsShow (L.inode clink)
  let bi := inode.data (pfsFixIndex position.block_segment)
  let sector := u32 (u32 (u32 (bi.number + position.block_offset) * 2 ^ m.inode_scale) +
    position.byte_offset / 1024)
  match ← pfsOp (L.pfsCacheGetData bi.subpart sector .NOTHING) with
  | .error _ =>
    note (.read ⟨m.zsize, number_data, stood, inode, position, none⟩)
    return none
  | .ok DEntryClink =>
    note (.read ⟨m.zsize, number_data, stood, inode, position, some DEntryClink⟩)
    return some DEntryClink

/-! ### Directories -/

/-- A chunk of directory entries is marked dirty. -/
def markDirty (L : Libpfs σ) (DEntryClink : Nat) : Prog (Check σ) Unit := do
  pfsDo (L.setDirty DEntryClink)
  note (.mark DEntryClink)

/-- `fsckFixDEntry`: the entry at `pos` is joined to the one before it in its half of the block, or emptied. -/
def fsckFixDEntry (L : Libpfs σ) (clink pos : Nat) : Prog (Check σ) Unit :=
  loop (fun (x : Option Nat × Nat × Nat) => do
    let (pDEntry, pDEntryNew, offset) := x
    if 512 ≤ offset then return .inr ()
    else
      let aLen := (← pfsShow (L.dentry clink pDEntryNew)).aLen &&& 0x0FFF
      if pDEntryNew = pos then
        match pDEntry with
        | some pDEntry => pfsDo (L.setDentry clink pDEntry fun e =>
            { e with aLen := (e.aLen &&& 0xF000 ||| ((e.aLen &&& 0x0FFF) + aLen)) % 2 ^ 16 })
        | none => pfsDo (L.setDentry clink pDEntryNew fun e => { e with inode := 0, pLen := 0 })
        markDirty L clink
        return .inr ()
      else return .inl (some pDEntryNew, pDEntryNew + aLen, offset + aLen)) (none, pos / 512 * 512, 0)

/-- `fsckCheckSelfEntry` and `fsckCheckParentEntry`: the entry names the inode of `inodeClink`. -/
def checkDotEntry (L : Libpfs σ) (inodeClink clink pos : Nat) : Prog (Check σ) Unit := do
  let e ← pfsShow (L.dentry clink pos)
  let sub ← pfsShow (L.sub inodeClink)
  let inode ← pfsShow (L.inode inodeClink)
  if sub ≠ e.sub ∨ inode.inode_block.number ≠ e.inode then
    if ← fsckPromptUserAction true then
      pfsDo (L.setDentry clink pos fun e =>
        { e with sub := inode.inode_block.subpart % 256, inode := inode.inode_block.number })
      markDirty L clink
    else return ()
  else return ()

def fsckCheckSelfEntry (L : Libpfs σ) (SelfInodeClink SelfDEntryClink pos : Nat) : Prog (Check σ) Unit :=
  checkDotEntry L SelfInodeClink SelfDEntryClink pos

def fsckCheckParentEntry (L : Libpfs σ) (ParentInodeClink SelfDEntryClink pos : Nat) :
    Prog (Check σ) Unit :=
  checkDotEntry L ParentInodeClink SelfDEntryClink pos

/-- The part of `fsckCheckFile` about the extended attribute, which only a file has. -/
def checkAttribute (L : Libpfs σ) (aLen clink : Nat) : Prog (Check σ) Unit := do
  if FIO_S_ISREG aLen = false then return ()
  else
    let sub ← pfsShow (L.sub clink)
    let block ← pfsShow (L.block clink)
    if (← transferRead L sub (u32 (u32 (block + 1) * 2)) 2) ≠ 0 then
      if ← fsckPromptUserAction true then
        -- an empty attribute of 1024 bytes
        modify fun s => { s with
          IOBuffer := fun i => if i = 0 then 1024 * 2 ^ 16 else if i < 256 then 0 else s.IOBuffer i }
        if (← transferWrite L sub (u32 (u32 (block + 1) * 2)) 2) ≠ 0 then setError else return ()
      else setError
    else return ()

/-- `fsckCheckFile`, where `files` is the check of the entries of a directory. -/
def fsckCheckFile (L : Libpfs σ) (m : Mount) (files : Nat → Nat → Prog (Check σ) Unit)
    (FileInodeClink FileInodeDataClink DEntryClink pos : Nat) : Prog (Check σ) Unit := do
  let s ← Prog.read id
  if s.status.PWDLevel < FSCK_MAX_PATH_LEVELS - 1 then
    setStatus fun t => { t with PWDLevel := t.PWDLevel + 1 }
    checkAttribute L (← pfsShow (L.dentry DEntryClink pos)).aLen FileInodeDataClink
    let _ ← fsckCheckDirentryInode L m FileInodeDataClink
    if FIO_S_ISDIR (← pfsShow (L.dentry DEntryClink pos)).aLen then
      setStatus fun t => { t with directories := u32 (t.directories + 1) }
      files FileInodeClink FileInodeDataClink
    else setStatus fun t => { t with files := u32 (t.files + 1) }
    setStatus fun t => { t with PWDLevel := t.PWDLevel - 1 }
  else setError

/-- The length of the entry at `pos` is written. -/
def setLength (L : Libpfs σ) (clink pos size : Nat) : Prog (Check σ) Unit := do
  pfsDo (L.setDentry clink pos fun e => { e with aLen := e.aLen &&& 0xF000 ||| size })
  markDirty L clink

/-- The entry at `pos` is emptied. -/
def emptyEntry (L : Libpfs σ) (clink pos : Nat) : Prog (Check σ) Unit :=
  pfsDo (L.setDentry clink pos fun e => { e with inode := 0 })

/-- The length `size` of an entry is a multiple of four, or it is taken to go up to `bound`. -/
def checkAligned (L : Libpfs σ) (clink pos bound size : Nat) : Prog (Check σ) Nat := do
  if size % 4 ≠ 0 then
    if ← fsckPromptUserAction true then
      setLength L clink pos (bound - pos)
      return bound - pos
    else return bound - pos
  else return size

/-- The length `size` of an entry has room for its name, or it is taken to go up to `bound`. -/
def checkNeeded (L : Libpfs σ) (clink pos bound needed size : Nat) : Prog (Check σ) Nat := do
  if size < needed then
    if ← fsckPromptUserAction true then
      if needed < bound - pos then
        setLength L clink pos (bound - pos)
        return bound - pos
      else
        fsckFixDEntry L clink pos
        emptyEntry L clink pos
        return bound - pos
    else
      emptyEntry L clink pos
      return bound - pos
  else return size

/-- The tests `fsckCheckFiles` makes of the length of the entry at `pos`, up to `bound`: the length it goes on with. -/
def checkLength (L : Libpfs σ) (clink pos bound : Nat) : Prog (Check σ) Nat := do
  let e ← pfsShow (L.dentry clink pos)
  let size ← checkAligned L clink pos bound (e.aLen &&& 0x0FFF)
  let size ← checkNeeded L clink pos bound ((e.pLen + 11) / 4 * 4) size
  if bound < pos + size then
    if ← fsckPromptUserAction true then
      fsckFixDEntry L clink pos
      emptyEntry L clink pos
      return bound - pos
    else
      emptyEntry L clink pos
      return bound - pos
  else return size

/-- What `fsckCheckFiles` does about an entry with an inode. -/
def checkNamed (L : Libpfs σ) (m : Mount) (files : Nat → Nat → Prog (Check σ) Unit)
    (ParentInodeClink InodeClink DEntryClink pos : Nat) : Prog (Check σ) Unit := do
  let e ← pfsShow (L.dentry DEntryClink pos)
  if e.inode = 0 then return ()
  else if e.pLen = 1 ∧ e.path 0 = 46 then fsckCheckSelfEntry L InodeClink DEntryClink pos
  else if e.pLen = 2 ∧ e.path 0 = 46 then fsckCheckParentEntry L ParentInodeClink DEntryClink pos
  else
    match ← pfsOp (L.pfsInodeGetData e.sub e.inode) with
    | .ok FileInodeDataClink =>
      fsckCheckFile L m files InodeClink FileInodeDataClink DEntryClink pos
      pfsDo (L.pfsCacheFree (some FileInodeDataClink))
    | .error result =>
      if result = - EIO then
        if ← fsckPromptUserAction true then fsckFixDEntry L DEntryClink pos else return ()
      else setError

/-- The inner loop of `fsckCheckFiles` over the entries from `pos` to `bound`: the place behind them and the offset in the directory, or nothing where the user stops the check. -/
def checkChain (L : Libpfs σ) (m : Mount) (files : Nat → Nat → Prog (Check σ) Unit)
    (ParentInodeClink InodeClink DEntryClink pos inodeOffset bound : Nat) :
    Prog (Check σ) (Option (Nat × Nat)) :=
  loop (fun (x : Nat × Nat) => do
    let (pos, inodeOffset) := x
    if bound ≤ pos then return .inr (some (pos, inodeOffset))
    else if ← stopFlag then return .inr none
    else
      let dEntrySize ← checkLength L DEntryClink pos bound
      checkNamed L m files ParentInodeClink InodeClink DEntryClink pos
      return .inl (pos + dEntrySize, u32 (inodeOffset + dEntrySize))) (pos, inodeOffset)

/-- The place of `fsckCheckFiles` in a directory. -/
structure Place where
  BlockPosition : pfs_blockpos_t
  DEntryClink : Option Nat
  pos : Nat
  inodeOffset : Nat

/-- The next block of a directory, where the last one is through; nothing where it cannot be had. -/
def nextBlock (L : Libpfs σ) (m : Mount) (InodeClink : Nat) (x : Place) :
    Prog (Check σ) (Place × Bool) := do
  if x.pos < 1024 then return (x, true)
  else
    pfsDo (L.pfsCacheFree x.DEntryClink)
    let inode ← pfsShow (L.inode InodeClink)
    match x.BlockPosition.inode with
    | none => crash
    | some clink =>
      let stood ← pfsShow fun s => Stand.mk (L.inode clink s) (nextDescriptor L m clink s) x.BlockPosition
      let (result, BlockPosition) ← pfsInodeSync L m 1024 inode.number_data x.BlockPosition
      if result ≠ 0 then return ({ x with BlockPosition := BlockPosition }, false)
      else
        match BlockPosition.inode with
        | none => crash
        | some clink =>
          let chunk ← pfsGetDentriesChunk L m inode.number_data (some stood) BlockPosition clink
          return (⟨BlockPosition, chunk, 0, x.inodeOffset⟩, chunk.isSome)

/-- The outer loop of `fsckCheckFiles`. -/
def checkBlocks (L : Libpfs σ) (m : Mount) (files : Nat → Nat → Prog (Check σ) Unit)
    (ParentInodeClink InodeClink : Nat) (x : Place) : Prog (Check σ) Place :=
  loop (fun (x : Place) => do
    let inode ← pfsShow (L.inode InodeClink)
    if inode.size ≤ x.inodeOffset then return .inr x
    else
      let (x, there) ← nextBlock L m InodeClink x
      match x.DEntryClink, there with
      | some DEntryClink, true =>
        match ← checkChain L m files ParentInodeClink InodeClink DEntryClink x.pos x.inodeOffset
            (x.pos + 512) with
        | none => return .inr x
        | some (pos, inodeOffset) =>
          let x := { x with pos := pos, inodeOffset := inodeOffset }
          if ← stopFlag then return .inr x else return .inl x
      | _, _ =>
        setError
        return .inr x) x

/-- `fsckCheckFiles` for directories with at most so many levels below them. -/
def checkLevels (L : Libpfs σ) (m : Mount) : Nat → Nat → Nat → Prog (Check σ) Unit
  | 0, _, _ => return ()
  | levels + 1, ParentInodeClink, InodeClink => do
    pfsDo (L.pfsCacheUsedAdd InodeClink)
    let inode ← pfsShow (L.inode InodeClink)
    let BlockPosition : pfs_blockpos_t := ⟨some InodeClink, 1, 0, 0⟩
    match ← pfsGetDentriesChunk L m inode.number_data none BlockPosition InodeClink with
    | none =>
      pfsDo (L.pfsCacheFree (some InodeClink))
      setError
    | some DEntryClink =>
      let x ← checkBlocks L m (checkLevels L m levels) ParentInodeClink InodeClink
        ⟨BlockPosition, some DEntryClink, 0, 0⟩
      pfsDo (L.pfsCacheFree x.DEntryClink)
      pfsDo (L.pfsCacheFree x.BlockPosition.inode)

/-- `fsckCheckFiles`. It goes down no further than `fsckCheckFile` lets it. -/
def fsckCheckFiles (L : Libpfs σ) (m : Mount) (ParentInodeClink InodeClink : Nat) :
    Prog (Check σ) Unit :=
  checkLevels L m FSCK_MAX_PATH_LEVELS ParentInodeClink InodeClink

/-! ### The thread -/

def wordOf (bits : Nat → Bool) : Nat :=
  (List.range 32).foldl (fun n i => if bits i then n + 2 ^ i else n) 0

/-- `pfsGetBitmapEntry`: the words from the one of the zone on, as they are read through the pointer. -/
def bitmapWords (index : Nat) (s : Scratch) : Option Words × Scratch :=
  match s.pfsBitmapRead (index / 2 ^ 20) with
  | (some bitmap, s) =>
    let s := s.pfsBitmapFree bitmap
    (some fun k => wordOf ((s.pfsBitmapData bitmap).bitmap (index / 2 ^ 5 % 2 ^ 15 + k)), s)
  | (none, s) => (none, s)

/-- The innermost loop of `fsckCompareBitmap` over the words of `IOBuffer`: whether one was replaced. -/
def compareWords (pBitmap : Words) (length : Nat) : Prog (Check σ) Bool :=
  loop (fun (x : Nat × Bool) => do
    let (k, hasUpdate) := x
    if length / 8 ≤ 4 * k then return .inr hasUpdate
    else
      let s ← Prog.read id
      if s.IOBuffer k = pBitmap k then return .inl (k + 1, hasUpdate)
      else if ← fsckPromptUserAction2 true then
        modify fun s => { s with IOBuffer := Function.update s.IOBuffer k (pBitmap k) }
        return .inl (k + 1, true)
      else return .inl (k + 1, hasUpdate)) (0, false)

/-- The loop of `fsckCompareBitmap` over the zones of the bitmap of partition `i`. -/
def comparePartition (L : Libpfs σ) (m : Mount) (i : Nat) : Prog (Check σ) Unit := do
  let RawSize := m.ZoneSizes i / 2 ^ m.sector_scale
  let NumZones := RawSize / (m.zsize * 8)
  let unaligned := RawSize % (m.zsize * 8)
  loop (fun (zone : Nat) => do
    if (unaligned = 0 ∧ NumZones ≤ zone) ∨ (unaligned ≠ 0 ∧ NumZones + 1 ≤ zone) then return .inr ()
    else
      let length := if zone = NumZones then unaligned else m.zsize * 8
      let words ← ofState fun s : Check σ =>
        let (words, scratch) := bitmapWords (u32 (i + zone * (m.zsize * 8))) s.scratch
        (words, { s with scratch := scratch })
      let ZoneStartOffset := if i = 0 then 0x2000 / 2 ^ m.sector_scale + 1 else 1
      let sector := u32 ((ZoneStartOffset + zone) * 2 ^ m.sector_scale)
      if (← transferRead L i sector (2 ^ m.sector_scale)) < 0 then return .inr ()
      else
        match words with
        | none => crash
        | some pBitmap =>
          if ← compareWords pBitmap length then
            let _ ← transferWrite L i sector (2 ^ m.sector_scale)
            return .inl (zone + 1)
          else return .inl (zone + 1)) 0

/-- `fsckCompareBitmap`. The offset of a partition in the scratch bitmap is its number. -/
def fsckCompareBitmap (L : Libpfs σ) (m : Mount) : Prog (Check σ) Unit :=
  loop (fun (i : Nat) => do
    if m.num_subs < i then return .inr ()
    else
      comparePartition L m i
      return .inl (i + 1)) 0

def CheckRootDirectory (L : Libpfs σ) (m : Mount) : Prog (Check σ) (Option Nat) := do
  match ← pfsOp (L.pfsInodeGetData m.root_dir.subpart m.root_dir.number) with
  | .error _ => return none
  | .ok clink =>
    if (← fsckCheckDirentryInode L m clink) = 0 then return some clink
    else
      pfsDo (L.pfsCacheFree (some clink))
      return none

/-- A change of `pfsFsckStat` of the superblock, where it is asked for. -/
def updateSuper (L : Libpfs σ) (wanted : Nat → Bool) (f : Nat → Nat) : Prog (Check σ) Unit := do
  if (← transferRead L 0 PFS_SUPER_SECTOR 1) = 0 then
    let s ← Prog.read id
    if wanted (s.IOBuffer 3) then
      modify fun s => { s with IOBuffer := Function.update s.IOBuffer 3 (f (s.IOBuffer 3)) }
      let _ ← transferWrite L 0 PFS_SUPER_SECTOR 1
      return ()
    else return ()
  else return ()

/-- Where nothing failed so far and the user does not stop the check, it goes on with a step. -/
def unlessFailed (p : Prog (Check σ) Unit) : Prog (Check σ) Unit := do
  if ← Prog.read (·.hasError) then return ()
  else if ← stopFlag then return ()
  else p

/-- `PFS_FSCK_STAT_WRITE_ERROR` is cleared, and the error of the partition. -/
def clearWriteError (L : Libpfs σ) : Prog (Check σ) Unit := do
  updateSuper L (fun stat => stat &&& PFS_FSCK_STAT_WRITE_ERROR != 0)
    fun stat => stat &&& (0xFFFFFFFF - PFS_FSCK_STAT_WRITE_ERROR)
  pfsDo L.getPartError

/-- The superblock says that errors were fixed. -/
def markFixed (L : Libpfs σ) : Prog (Check σ) Unit := do
  if (← Prog.read (·.status.fixedErrorCount)) ≠ 0 then
    updateSuper L (fun _ => true) fun stat => stat ||| PFS_FSCK_STAT_ERRORS_FIXED
  else return ()

/-- The end of `FsckThread`. An error is never taken back, so that the second step needs no test of what came before the first. -/
def finishThread (L : Libpfs σ) (m : Mount) : Prog (Check σ) Unit := do
  unlessFailed (fsckCompareBitmap L m)
  unlessFailed (clearWriteError L)
  markFixed L
  pfsDo L.flushCache

/-- `FsckThread`: whether it gave up. -/
def FsckThread (L : Libpfs σ) (m : Mount) : Prog (Check σ) Bool := do
  if (← fsckCheckExtendedAttribute L) < 0 then return true
  else
    match ← CheckRootDirectory L m with
    | none => return true
    | some clink =>
      setStatus fun t => { t with directories := u32 (t.directories + 1) }
      fsckCheckFiles L m clink clink
      pfsDo L.pfsCacheFlushAllDirty
      pfsDo (L.pfsCacheFree (some clink))
      finishThread L m
      return false

end HddChecker.Fsck
