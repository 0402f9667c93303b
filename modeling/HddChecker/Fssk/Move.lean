import HddChecker.Lib.Prog
import HddChecker.Pfs.Bitmap

/-!
# Moving an inode

`fsskMoveInode` moves a file out of the partitions that are to be removed: it copies the inode and its data zones to zones of the partitions that stay, writes the new place into the directory entry and frees the old zones. The zones of the disk, the blocks of metadata and the uses of cache buffers are parts of the state; how each transfer ends is given from outside. The blocks of the bitmaps are reached as in `Pfs.Bitmap`.
-/

namespace HddChecker.Fssk

open HddChecker Prog Pfs

abbrev ENOMEM : Int := 12
abbrev EINVAL : Int := 22
abbrev PFS_INODE_MAX_BLOCKS : Nat := 114

abbrev u16 (n : Nat) : Nat := n % 2 ^ 16

abbrev u32 (n : Nat) : Nat := n % 2 ^ 32

/-- One less, as a `u32`. -/
def pred32 (n : Nat) : Nat := u32 (n + (2 ^ 32 - 1))

def FIO_S_ISDIR (mode : Nat) : Bool := mode &&& 0xF000 == 0x1000

def pfsFixIndex (index : Nat) : Nat :=
  if index < PFS_INODE_MAX_BLOCKS then index else (index - PFS_INODE_MAX_BLOCKS) % 123

/-! ### Inodes -/

/-- `pfs_inode_t`. The array of an indirect segment is nine slots longer than that of an inode, which has its other fields there: the slots from 114 on are these fields, too. -/
structure pfs_inode_t where
  inode_block : pfs_blockinfo_t
  next_segment : pfs_blockinfo_t
  last_segment : pfs_blockinfo_t
  data : Nat → pfs_blockinfo_t

namespace pfs_inode_t

variable (i : pfs_inode_t)

/-- `mode` and `attr`, with the owner behind them. -/
def mode : Nat := u16 (i.data 114).number

def attr : Nat := (i.data 114).number / 65536

def uid : Nat := (i.data 114).subpart

def gid : Nat := (i.data 114).count

def atime : pfs_blockinfo_t := i.data 115

def ctime : pfs_blockinfo_t := i.data 116

def mtime : pfs_blockinfo_t := i.data 117

def size : pfs_blockinfo_t := i.data 118

def number_blocks : Nat := (i.data 119).number

def number_data : Nat := (i.data 119).subpart + 65536 * (i.data 119).count

def number_segdesg : Nat := (i.data 120).number

def setData (k : Nat) (b : pfs_blockinfo_t) : pfs_inode_t :=
  { i with data := Function.update i.data k b }

def setNumberBlocks (n : Nat) : pfs_inode_t := i.setData 119 { i.data 119 with number := n }

def setNumberData (n : Nat) : pfs_inode_t :=
  i.setData 119 { i.data 119 with subpart := n % 65536, count := n / 65536 }

def setNumberSegdesg (n : Nat) : pfs_inode_t := i.setData 120 { i.data 120 with number := n }

@[simp]
theorem setData_data_self (k : Nat) (b : pfs_blockinfo_t) : (i.setData k b).data k = b :=
  Function.update_self ..

theorem setData_data {k j : Nat} (h : j ≠ k) (b : pfs_blockinfo_t) :
    (i.setData k b).data j = i.data j :=
  Function.update_of_ne h ..

theorem setData_number_data {k : Nat} (h : k ≠ 119) (b : pfs_blockinfo_t) :
    (i.setData k b).number_data = i.number_data := by
  simp only [number_data, i.setData_data (Ne.symm h)]

@[simp]
theorem setNumberBlocks_number_data (n : Nat) :
    (i.setNumberBlocks n).number_data = i.number_data := by
  simp only [number_data, setNumberBlocks, setData_data_self]

@[simp]
theorem setNumberSegdesg_number_data (n : Nat) :
    (i.setNumberSegdesg n).number_data = i.number_data :=
  i.setData_number_data (by decide) _

@[simp]
theorem setNumberData_number_data (n : Nat) : (i.setNumberData n).number_data = n := by
  simp only [number_data, setNumberData, setData_data_self]
  omega

/-- `memset` to zero -/
def zero : pfs_inode_t := ⟨⟨0, 0, 0⟩, ⟨0, 0, 0⟩, ⟨0, 0, 0⟩, fun _ => ⟨0, 0, 0⟩⟩

end pfs_inode_t

/-- A buffer of the cache, by the partition and the block it holds. -/
structure pfs_cache_t where
  sub : Nat
  block : Nat
  deriving DecidableEq, Repr

/-- The place of an inode in `pfs_dentry_t`. -/
structure pfs_dentry_t where
  inode : Nat
  sub : Nat
  deriving DecidableEq, Repr

/-- What the move works on, with zones whose contents are in `α`. -/
structure Volume (α : Type) where
  mount : pfs_mount_t
  partsDeleted : Nat
  /-- the contents of a zone on the disk, by partition and number -/
  zone : Nat → Nat → α
  IOBuffer : α
  /-- a block of metadata, as the cache shows it -/
  inode : pfs_cache_t → pfs_inode_t
  dentry : pfs_dentry_t
  /-- a buffer as often as it is in use -/
  held : List pfs_cache_t
  pfsCacheNumBuffers : Nat
  /-- how the transfers to come end: those that fail with an error, and what a failed write leaves -/
  outcomes : Nat → Option (Nat × α)
  /-- what is found in variables that were never set -/
  garbage : Nat → Nat

namespace Volume

variable {α : Type} (v : Volume α)

/-- The buffer of the inode in a zone. -/
def place (sub number : Nat) : pfs_cache_t := ⟨sub, number * 2 ^ v.mount.inode_scale⟩

def inodeAt (sub number : Nat) : pfs_inode_t := v.inode (v.place sub number)

/-- `num_subs - (partsDeleted - 1)`: how many partitions stay. -/
def subsLeft : Nat := u32 (v.mount.num_subs + 2 ^ 32 - pred32 v.partsDeleted)

def pfsCacheIsFull : Bool := v.pfsCacheNumBuffers ≤ v.held.dedup.length

/-- The transfers after the next one. -/
def later : Volume α := { v with outcomes := fun n => v.outcomes (n + 1) }

/-- A block of metadata is written. -/
def setInode (c : pfs_cache_t) (f : pfs_inode_t → pfs_inode_t) : Volume α :=
  { v with inode := Function.update v.inode c (f (v.inode c)) }

end Volume

variable {α : Type}

/-! ### Steps -/

def inodeOf (c : pfs_cache_t) : Prog (Volume α) pfs_inode_t := Prog.read fun v => v.inode c

def setInode (c : pfs_cache_t) (f : pfs_inode_t → pfs_inode_t) : Prog (Volume α) Unit :=
  modify fun v => v.setInode c f

def onMount (f : pfs_mount_t → pfs_mount_t) : Prog (Volume α) Unit :=
  modify fun v => { v with mount := f v.mount }

/-- The buffer of the inode in a zone. -/
def place (b : pfs_blockinfo_t) : Prog (Volume α) pfs_cache_t :=
  Prog.read fun v => v.place b.subpart b.number

/-- The code goes on through a null pointer; there is no answer. -/
def crash {β : Type} : Prog (Volume α) β := loop (fun (_ : Unit) => return .inl ()) ()

/-- A zone is read into `IOBuffer`. -/
def readZone (sub number : Nat) : Prog (Volume α) Int := ofState fun v =>
  match v.outcomes 0 with
  | none => (0, { v.later with IOBuffer := v.zone sub number })
  | some (e, left) => (.negSucc e, { v.later with IOBuffer := left })

/-- `IOBuffer` is written to a zone. -/
def writeZone (sub number : Nat) : Prog (Volume α) Int := ofState fun v =>
  let put (x : α) : Volume α :=
    { v.later with zone := Function.update v.zone sub (Function.update (v.zone sub) number x) }
  match v.outcomes 0 with
  | none => (0, put v.IOBuffer)
  | some (e, left) => (.negSucc e, put left)

def pfsCacheUsedAdd (c : pfs_cache_t) : Prog (Volume α) Unit :=
  modify fun v => { v with held := c :: v.held }

/-- `pfsCacheFree`, which only warns about a null pointer. -/
def pfsCacheFree : Option pfs_cache_t → Prog (Volume α) Unit
  | none => return ()
  | some c => modify fun v => { v with held := v.held.erase c }

/-- `pfsCacheGetData`: a buffer in use is found, and any other may have to be loaded. -/
def pfsCacheGetData (c : pfs_cache_t) (noload : Bool) : Prog (Volume α) (Except Int Unit) :=
  ofState fun v =>
    if c ∈ v.held then (.ok (), { v with held := c :: v.held })
    else if v.pfsCacheIsFull then (.error (- ENOMEM), v)
    else if noload then (.ok (), { v with held := c :: v.held })
    else
      match v.outcomes 0 with
      | none => (.ok (), { v.later with held := c :: v.held })
      | some (e, _) => (.error (.negSucc e), v.later)

def pfsBlockGetNextSegment (c : pfs_cache_t) : Prog (Volume α) (Except Int pfs_cache_t) := do
  pfsCacheFree (some c)
  let inode ← inodeOf c
  if inode.next_segment.number ≠ 0 then
    let next ← place inode.next_segment
    match ← pfsCacheGetData next false with
    | .ok () => return .ok next
    | .error result => return .error result
  else return .error (- EINVAL)

/-- `pfsBitmapFreeInodeBlocks`. The slot is found before the next segment is looked for, so that at the first slot of a segment it is the first one of the segment before. -/
def pfsBitmapFreeInodeBlocks (c : pfs_cache_t) : Prog (Volume α) Unit := do
  pfsCacheUsedAdd c
  loop (fun (x : Nat × pfs_cache_t) => do
    let (i, clink) := x
    let inode ← inodeOf clink
    if i < inode.number_data then
      let index := pfsFixIndex i
      let bi := inode.data index
      if i ≠ 0 ∧ index = 0 then
        match ← pfsBlockGetNextSegment clink with
        | .error _ => return .inr ()
        | .ok clink =>
          onMount fun m => pfsBitmapFreeBlockSegment m bi
          return .inl (i + 1, clink)
      else
        onMount fun m => pfsBitmapFreeBlockSegment m bi
        return .inl (i + 1, clink)
    else
      pfsCacheFree (some clink)
      return .inr ()) (0, c)

/-! ### The move -/

/-- `fsskCalcLastSub`. The condition of its loop does not change. -/
def fsskCalcLastSub : Prog (Volume α) Nat :=
  loop (fun (x : Nat × Nat × Nat) => do
    let (result, sub, MaxFreeRatio) := x
    let v ← Prog.read id
    if v.subsLeft = 0 then return .inr result
    else
      let FreeRatio := u32 (v.mount.free_zone sub * 100 / v.mount.zones sub)
      if MaxFreeRatio < FreeRatio then return .inl (sub, u16 (sub + 1), FreeRatio)
      else return .inl (result, u16 (sub + 1), MaxFreeRatio)) (0, 0, 0)

def fsskCopyBlock (block1 block2 : pfs_blockinfo_t) (length : Nat) : Prog (Volume α) Int :=
  loop (fun (i : Nat) => do
    if i < length then
      let result ← readZone block2.subpart (block2.number + i)
      if result < 0 then return .inr result
      else
        let result ← writeZone block1.subpart (block1.number + i)
        if result < 0 then return .inr result else return .inl (i + 1)
    else return .inr 0) 0

/-- The words of `free_zone`. -/
def FREE_ZONES : Nat := 65

/-- A pass of `fsckBitmapSearchFreeZoneSpecial` over the partitions: runs of `count`, `count / 2`, … zones are looked for in the one at hand. What it reads behind the end of `free_zone` is no answer. -/
def searchPass (num count : Nat) (bi : pfs_blockinfo_t) :
    Prog (Volume α) (pfs_blockinfo_t ⊕ pfs_blockinfo_t) := do
  let m ← Prog.read Volume.mount
  if bi.subpart < FREE_ZONES then
    match searchSizes m bi count with
    | some (bi, m) =>
      onMount fun _ => m.take bi.subpart bi.count
      return .inr bi
    | none =>
      let subpart := u16 (bi.subpart + 1)
      return .inl { bi with number := 0, subpart := if num = subpart then 0 else subpart }
  else Prog.stuck

/-- `fsckBitmapSearchFreeZoneSpecial`. Its counter is unsigned and never below 0, so that only a success ends it. -/
def fsckBitmapSearchFreeZoneSpecial (bi : pfs_blockinfo_t) (max_count : Nat) :
    Prog (Volume α) pfs_blockinfo_t := do
  let num ← Prog.read Volume.subsLeft
  let count := if max_count < 33 then max_count else 32
  let count := if count < bi.count then bi.count else count
  loop (searchPass num count) (if bi.subpart < num then { bi with subpart := 0 } else bi)

/-- The result and the state of a search with so many passes. -/
def searched (passes : Nat) (bi : pfs_blockinfo_t) (max_count : Nat) (v : Volume α) :
    Option (pfs_blockinfo_t × Volume α) :=
  (pfsBitmapSearchFreeZone passes v.mount bi max_count).map fun found =>
    (found.1, { v with mount := found.2 })

/-- `pfsBitmapAllocateAdditionalZones` -/
def allocateAdditionalZones (bi : pfs_blockinfo_t) (count : Nat) : Prog (Volume α) Nat :=
  ofState fun v =>
    let found := pfsBitmapAllocateAdditionalZones v.mount bi count
    (found.1, { v with mount := found.2 })

/-- `pfsBitmapSearchFreeZone` -/
def searchFreeZone (bi : pfs_blockinfo_t) (max_count : Nat) : Prog (Volume α) pfs_blockinfo_t where
  run fuel v := searched fuel bi max_count v
  more hle h := by
    obtain ⟨found, hfound, rfl⟩ := Option.map_eq_some_iff.mp h
    exact Option.map_eq_some_iff.mpr ⟨found, searchPartitions_more hfound hle, rfl⟩

/-- What an inode tells of a new descriptor. -/
def pfs_inode_t.addSegment (i : pfs_inode_t) (block : pfs_blockinfo_t) : pfs_inode_t :=
  let i := i.setNumberBlocks (i.number_blocks + block.count)
  let i := i.setNumberData (i.number_data + 1)
  let i := { i with last_segment := block }
  i.setNumberSegdesg (i.number_segdesg + 1)

/-- The value of a variable that was never set. -/
def unset : Prog (Volume α) Nat :=
  ofState fun v => (v.garbage 0, { v with garbage := fun n => v.garbage (n + 1) })

/-- `fsskCreateIndirectSeg`, which never sets the count of the block it looks for. -/
def fsskCreateIndirectSeg (clink clink2 : pfs_cache_t) (data : pfs_blockinfo_t) :
    Prog (Volume α) (Except Int pfs_cache_t) := do
  let v ← Prog.read id
  if v.pfsCacheIsFull then return .error (- ENOMEM)
  else
    let count ← unset
    let block ← searchFreeZone ⟨data.number + data.count, data.subpart, u16 count⟩
      (v.inode clink).number_blocks
    let clinkfree ← place block
    match ← pfsCacheGetData clinkfree true with
    | .error _ => crash
    | .ok () =>
      let inode ← inodeOf clink
      let first := (← inodeOf clink2).data 0
      setInode clinkfree fun _ => { pfs_inode_t.zero with
        inode_block := inode.inode_block
        last_segment := first
        data := Function.update pfs_inode_t.zero.data 0 block }
      setInode clink fun i => i.addSegment block
      setInode clink2 fun i => { i with next_segment := block }
      pfsCacheFree (some clink2)
      return .ok clinkfree

/-- The zones behind the first slot of the descriptor at hand are tried first: the result, and what is left of the segment. -/
def extendLast (clink clink3 : pfs_cache_t) (block2 : pfs_blockinfo_t) :
    Prog (Volume α) (Int × pfs_blockinfo_t) := do
  let inode ← inodeOf clink
  if pfsFixIndex (pred32 inode.number_data) = 0 then return (0, block2)
  else
    let last ← inodeOf clink3
    let first := last.data 0
    let value ← allocateAdditionalZones first block2.count
    if value = 0 then return (0, block2)
    else
      setInode clink3 fun i => i.setData 0 { i.data 0 with count := u16 ((i.data 0).count + value) }
      let result ← fsskCopyBlock ⟨first.number + first.count, first.subpart, 0⟩ block2 value
      if result < 0 then return (result, block2)
      else
        setInode clink fun i => i.setNumberBlocks (i.number_blocks + value)
        return (0, { block2 with number := block2.number + value, count := block2.count - value })

/-- The descriptor with room for another slot: that at hand, or a new one. -/
def nextDescriptor (clink clink3 : pfs_cache_t) : Prog (Volume α) (Except Int pfs_cache_t) := do
  let inode ← inodeOf clink
  if pfsFixIndex inode.number_data = 0 then
    let last ← inodeOf clink3
    fsskCreateIndirectSeg clink clink3 (last.data 0)
  else return .ok clink3

/-- A block is taken for what is left of a segment: the result, and what is left then. The slot that is written is that of the number of segments of the original, and the zones left are one less than those not copied. -/
def copyPart (start clink clink3 : pfs_cache_t) (block2 : pfs_blockinfo_t) :
    Prog (Volume α) (Int × pfs_blockinfo_t) := do
  let last ← inodeOf clink3
  let src ← inodeOf start
  let first := last.data 0
  let block ← fsckBitmapSearchFreeZoneSpecial
    ⟨first.number + first.count, first.subpart, block2.count⟩ src.number_blocks
  setInode clink3 fun i => i.setData (pfsFixIndex src.number_data) block
  setInode clink fun i => i.setNumberData (i.number_data + 1)
  let result ← fsskCopyBlock block block2 block.count
  if result < 0 then return (result, block2)
  else
    setInode clink fun i => i.setNumberBlocks (i.number_blocks + block.count)
    return (0, { block2 with
      number := block2.number + block.count
      count := u16 (block2.count - block.count + (2 ^ 16 - 1)) })

/-- The loop over what is left of a segment: its result and the descriptor at hand. -/
def copyRest (start clink : pfs_cache_t) :
    pfs_cache_t × pfs_blockinfo_t → Prog (Volume α) (Int × Option pfs_cache_t) :=
  loop fun (x : pfs_cache_t × pfs_blockinfo_t) =>
    if x.2.count = 0 then return .inr (0, some x.1)
    else do
      match ← nextDescriptor clink x.1 with
      | .error result => return .inr (result, none)
      | .ok clink3 =>
        let (result, block2) ← copyPart start clink clink3 x.2
        if result < 0 then return .inr (result, some clink3) else return .inl (clink3, block2)

/-- One data segment of the original. -/
def moveSegment (start clink clink3 : pfs_cache_t) (block2 : pfs_blockinfo_t) :
    Prog (Volume α) (Int × Option pfs_cache_t) := do
  let (result, block2) ← extendLast clink clink3 block2
  if result < 0 then return (result, some clink3)
  else copyRest start clink (clink3, block2)

/-- A pass of the loop of `fsskMoveInode` over the segments, with the descriptors of the original and the copy at hand. -/
def segmentPass (start clink : pfs_cache_t) (i : Nat) (clink2 clink3 : pfs_cache_t) :
    Prog (Volume α) (Nat × pfs_cache_t × pfs_cache_t ⊕
      Int × Option pfs_cache_t × Option pfs_cache_t) := do
  if pfsFixIndex i = 0 then
    match ← pfsBlockGetNextSegment clink2 with
    | .error result => return .inr (result, none, some clink3)
    | .ok clink2 => return .inl (i + 1, clink2, clink3)
  else
    let inode ← inodeOf clink2
    let (result, clink3) ← moveSegment start clink clink3 (inode.data (pfsFixIndex i))
    if result = 0 then
      match clink3 with
      | some clink3 => return .inl (i + 1, clink2, clink3)
      | none => return .inr (result, some clink2, none)
    else return .inr (result, some clink2, clink3)

/-- The loop of `fsskMoveInode` over the segments: the result, and the descriptors at hand. -/
def moveSegments (start clink : pfs_cache_t) :
    Prog (Volume α) (Int × Option pfs_cache_t × Option pfs_cache_t) :=
  loop (fun (x : Nat × pfs_cache_t × pfs_cache_t) => do
    let src ← inodeOf start
    if x.1 < src.number_data then segmentPass start clink x.1 x.2.1 x.2.2
    else return .inr (0, some x.2.1, some x.2.2)) (1, start, clink)

/-- The copy of an inode at a block, before its segments are copied. -/
def pfs_inode_t.copyTo (i : pfs_inode_t) (block : pfs_blockinfo_t) : pfs_inode_t :=
  ((({ i with inode_block := block, last_segment := block }.setData 0 block).setNumberSegdesg
    1).setNumberData 1).setNumberBlocks 1

/-- `fsskMoveInode`, from where the copy of the inode is at hand. -/
def moveZones (start clink : pfs_cache_t) : Prog (Volume α) Int := do
  pfsCacheUsedAdd start
  pfsCacheUsedAdd clink
  let (result, clink2, clink3) ← moveSegments start clink
  pfsCacheFree clink2
  if result = 0 then
    let inode ← inodeOf clink
    modify fun v => { v with dentry := ⟨inode.inode_block.number, inode.inode_block.subpart % 256⟩ }
    pfsCacheFree clink3
    pfsCacheFree (some clink)
    pfsBitmapFreeInodeBlocks start
    return result
  else
    pfsBitmapFreeInodeBlocks clink
    pfsCacheFree clink3
    pfsCacheFree (some clink)
    return result

/-- The block at which `fsskMoveInode` starts to look for free zones. -/
def moveTo (dest : pfs_cache_t) (mode : Nat) : Prog (Volume α) pfs_blockinfo_t :=
  if FIO_S_ISDIR mode then do
    let subpart ← fsskCalcLastSub
    return ⟨0, subpart, 1⟩
  else do
    let inode ← inodeOf dest
    return { inode.inode_block with count := 1 }

def fsskMoveInode (dest start : pfs_cache_t) : Prog (Volume α) Int := do
  let src ← inodeOf start
  let block ← moveTo dest src.mode
  let block ← fsckBitmapSearchFreeZoneSpecial block src.number_blocks
  let result ← fsskCopyBlock block src.inode_block 1
  if result < 0 then
    onMount fun m => pfsBitmapFreeBlockSegment m block
    return result
  else
    let clink ← place block
    match ← pfsCacheGetData clink true with
    | .error result =>
      onMount fun m => pfsBitmapFreeBlockSegment m block
      return result
    | .ok () =>
      setInode clink fun _ => src.copyTo block
      moveZones start clink

end HddChecker.Fssk
