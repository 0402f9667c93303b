import HddChecker.Apa.Table

/-!
# The defragmenter

`hdsk.c` and `hdl.c` for one drive. The state holds the drive, the counters that the devctl requests read, and the stop request: `stop` is the number of times `hdskStopFlag` is still looked at before a request of `HDSK_DEVCTL_STOP` is seen, and nothing when none comes. A local variable that is returned without having been set holds what `uninit` gives.
-/

namespace HddChecker.Hdsk

open HddChecker Apa Prog

def HDSK_MIN_PART_SIZE : Nat := 0x00040000
def IOBUFFER_SIZE_SECTORS : Nat := 256
def APA_MODVER : Nat := 0x0104
def HDL_INFO_MAGIC : Nat := 0xDEADFEED
def HDL_GAME_DATA_OFFSET : Nat := 0x100000

/-- The state of the module for one drive. -/
structure State where
  dev : Device
  stop : Option Nat
  hdskStatus : Int
  hdskProgress : Nat
  totalLBA : Nat
  uninit : Nat → Int

/-- A program of `libapa` on the drive. -/
def onDev {α : Type} (p : Prog Device α) : Prog State α :=
  zoom (·.dev) (fun dev s => { s with dev := dev }) p

/-- A function of `libapa` on the drive. -/
def devOp {α : Type} (f : Device → α × Device) : Prog State α :=
  ofState fun s => ((f s.dev).1, { s with dev := (f s.dev).2 })

/-- A function of `libapa` without a result. -/
def devDo (f : Device → Device) : Prog State Unit := modify fun s => { s with dev := f s.dev }

/-- `clink->header` -/
def headerOf (clink : Nat) : Prog State ApaHeader := read fun s => s.dev.header clink

def hdskStopFlag : Prog State Bool := ofState fun s =>
  match s.stop with
  | none => (false, s)
  | some 0 => (true, s)
  | some (n + 1) => (false, { s with stop := some n })

/-- The bit of `apaGetPartitionMax`, searched from `i` down. -/
def partitionMaxBit (total : Nat) : Nat → Nat
  | 0 => 0
  | i + 1 => if total.testBit (i + 1) then i + 1 else partitionMaxBit total i

def apaGetPartitionMax (totalLBA : Nat) : Nat :=
  let total := totalLBA / 64
  let i := partitionMaxBit total 31
  let size := 2 ^ max i 1
  if size < total then 2 ^ (i + 1) else 2 ^ i

/-! ### Removing `_tmp` -/

/-- The loop of `hdskRemoveTmp`: the buffer of `_tmp`, or how the chain ended. -/
def findTmp (r : Except Int (Option Nat)) : Prog Device (Except Int (Option Nat)) :=
  loop (fun r =>
    match r with
    | .ok (some clink) => do
      let header ← read (·.header clink)
      if header.isTmp then return .inr (.ok (some clink))
      else
        let r ← ofState (Device.apaGetNextHeader clink)
        return .inl r
    | .ok none => return .inr (.ok none)
    | .error err => return .inr (.error err)) r

/-- The loop of `hdskRemoveTmp` over the sub-partitions, from number `sub - 1` down. -/
def removeSubs (clink : Nat) : Nat → Int → Prog Device Int
  | 0, result => return result
  | sub + 1, _ => do
    let header ← read (·.header clink)
    match ← ofState (Device.apaCacheGetHeader (header.sub sub).start) with
    | .error err => removeSubs clink sub err
    | .ok clinkSub =>
      let result ← Device.apaDelete clinkSub
      if result ≠ 0 then return result else removeSubs clink sub result

def hdskRemoveTmp : Prog Device Int := do
  let first ← ofState (Device.apaCacheGetHeader 0)
  match ← findTmp (first.map some) with
  | .error err => return err
  | .ok none => return 0
  | .ok (some clink) =>
    let sub := (← read (·.header clink)).nsub
    modify (Device.setHeader clink fun h => { h with nsub := 0 })
    modify (Device.setDirty clink)
    let start := (← read (·.header clink)).start + 0x2000
    let _ ← ofState Device.apaCacheFlushAllDirty
    let result ← removeSubs clink sub 0
    let _ ← Device.apaDelete clink
    let _ ← ofState (Device.ataWrite start [Sector.zero, Sector.zero])
    return result

/-! ### Looking for partitions -/

def hdskFindEmptyPartition (size : Nat) : Prog State (Option Nat) := do
  let first ← devOp (Device.apaCacheGetHeader 0)
  loop (fun (clink : Option Nat) =>
    match clink with
    | none => return .inr none
    | some clink => do
      let header ← headerOf clink
      if header.length ≠ size ∨ header.type ≠ APA_TYPE_FREE then
        let next ← devOp (Device.apaGetNextHeader clink)
        let next := next.toOption.join
        if ← hdskStopFlag then
          if let some clink := next then devDo (Device.apaCacheFree clink)
          return .inr none
        else return .inl next
      else return .inr (some clink)) first.toOption

/-- `hdskIsPartitionOfSize`: true for 1, when there is no empty partition of `size` at `sector`. -/
def hdskIsPartitionOfSize (sector size : Nat) : Prog State Bool := do
  match ← devOp (Device.apaCacheGetHeader sector) with
  | .error _ => return true
  | .ok clink =>
    let header ← headerOf clink
    devDo (Device.apaCacheFree clink)
    return header.type ≠ APA_TYPE_FREE || header.length ≠ size

def hdskGetPartitionPrev : Prog State Nat := do
  match ← devOp (Device.apaCacheGetHeader 0) with
  | .error _ => return 0
  | .ok clink =>
    devDo (Device.apaCacheFree clink)
    let header ← headerOf clink
    return header.prev

/-- The test in the loop of `hdskFindLastUsedPartition`. -/
def isLastUsedPartition (header : ApaHeader) (size : Nat) (mode : Bool) : Prog State Bool := do
  if header.length = size ∧ header.type ≠ APA_TYPE_FREE then
    if mode then
      if header.start % u32 (size * 2) = 0 then
        if header.next = 0 then return true
        else
          let other ← hdskIsPartitionOfSize header.next size
          return !other
      else
        let other ← hdskIsPartitionOfSize header.prev size
        return !other
    else return true
  else return false

/-- `hdskFindLastUsedPartition`. A stop request ends the search with the buffer it has just released. -/
def hdskFindLastUsedPartition (size start : Nat) (mode : Bool) : Prog State (Option Nat) := do
  let previous ← hdskGetPartitionPrev
  loop (fun previous => do
    if start < previous then
      match ← devOp (Device.apaCacheGetHeader previous) with
      | .error _ => return .inr none
      | .ok clink =>
        let header ← headerOf clink
        if ← isLastUsedPartition header size mode then return .inr (some clink)
        else
          let header ← headerOf clink
          devDo (Device.apaCacheFree clink)
          if ← hdskStopFlag then return .inr (some clink)
          else return .inl header.prev
    else return .inr none) previous

/-- The loop of `hdskFindPartitionOfSize`: the header behind the block and the block's length. -/
def blockLoop (MinSize next BlockSize : Nat) : Prog State (Nat × Nat) :=
  loop (fun (x : Nat × Nat) => do
    let next := x.1
    let BlockSize := x.2
    if BlockSize < MinSize ∧ next ≠ 0 then
      match ← devOp (Device.apaCacheGetHeader next) with
      | .error _ => return .inr (next, BlockSize)
      | .ok clink =>
        let header ← headerOf clink
        if header.type = APA_TYPE_FREE then return .inr (next, BlockSize)
        else
          devDo (Device.apaCacheFree clink)
          return .inl (header.next, u32 (BlockSize + header.length))
    else return .inr (next, BlockSize)) (next, BlockSize)

def hdskFindPartitionOfSize (start : ApaHeader) (MinSize : Nat) (mode : Bool) :
    Prog State Bool := do
  let (next, BlockSize) ← blockLoop MinSize start.next start.length
  if BlockSize = MinSize then
    if mode then
      if start.start % u32 (MinSize * 2) ≠ 0 then
        let other ← hdskIsPartitionOfSize start.prev MinSize
        return !other
      else if next ≠ 0 then
        let other ← hdskIsPartitionOfSize next MinSize
        return !other
      else return false
    else return true
  else return false

/-- The test in the loop of `hdskFindLastUsedBlock`. -/
def isLastUsedBlock (header : ApaHeader) (MinSize : Nat) (mode : Bool) : Prog State Bool := do
  if header.start % MinSize ≠ 0 then
    if header.length < MinSize ∧ header.type ≠ APA_TYPE_FREE then
      hdskFindPartitionOfSize header MinSize mode
    else return false
  else return false

/-- `hdskFindLastUsedBlock`. A stop request ends the search with the buffer it has just released. -/
def hdskFindLastUsedBlock (MinSize start : Nat) (mode : Bool) : Prog State (Option Nat) := do
  let NextStart ← hdskGetPartitionPrev
  if NextStart ≠ 0 then
    loop (fun NextStart => do
      if start < NextStart then
        match ← devOp (Device.apaCacheGetHeader NextStart) with
        | .error _ => return .inr none
        | .ok last =>
          let header ← headerOf last
          if ← isLastUsedBlock header MinSize mode then return .inr (some last)
          else
            let header ← headerOf last
            devDo (Device.apaCacheFree last)
            if ← hdskStopFlag then return .inr (some last)
            else return .inl header.prev
      else return .inr none) NextStart
  else return none

/-! ### Moving a partition -/

/-- The loop of `CopyPartition` from block `i` on, `n` blocks at most. -/
def copyBlocks (dest start : Nat) : Nat → Nat → Prog State Int
  | 0, _ => return 0
  | n + 1, i => do
    match ← read fun s => Device.ataRead (start + i * IOBUFFER_SIZE_SECTORS)
        IOBUFFER_SIZE_SECTORS s.dev with
    | none => return - EIO
    | some IOBuffer =>
      let result ← devOp (Device.ataWrite (dest + i * IOBUFFER_SIZE_SECTORS) IOBuffer)
      if result ≠ 0 then return - EIO
      else
        modify fun s => { s with hdskProgress := u32 (s.hdskProgress + IOBUFFER_SIZE_SECTORS) }
        if ← hdskStopFlag then return 0
        else copyBlocks dest start n (i + 1)

def CopyPartition (dest start : ApaHeader) : Prog State Int := do
  let blocks := dest.length / IOBUFFER_SIZE_SECTORS
  match ← read fun s => Device.ataRead (start.start + 2) (IOBUFFER_SIZE_SECTORS - 2) s.dev with
  | none => return - EIO
  | some IOBuffer =>
    let result ← devOp (Device.ataWrite (dest.start + 2) IOBuffer)
    if result ≠ 0 then return - EIO
    else
      modify fun s => { s with hdskProgress := u32 (s.hdskProgress + IOBUFFER_SIZE_SECTORS) }
      copyBlocks dest.start start.start (blocks - 1) 1

/-- The word of `part_specs[part].data_start` in the two sectors of a `hdl_game_info_t`. -/
def dataStartWord (part : Nat) : Nat := 62 + 3 * part

/-- Word `i` of two sectors is set to `x`. -/
def setWord (i x : Nat) (data : Sector × Sector) : Sector × Sector :=
  (fun j => if j.val = i then x else data.1 j, fun j => if j.val + 128 = i then x else data.2 j)

/-- Word `i` of two sectors. -/
def getWord (i : Nat) (data : Sector × Sector) : Nat :=
  if h : i < 128 then data.1 ⟨i, h⟩
  else if h : i - 128 < 128 then data.2 ⟨i - 128, h⟩
  else 0

def hdlUpdateGameSliceInfo (main part OldPartStart NewPartStart : Nat) (d : Device) : Device :=
  let InfoLBA := main + (HDL_GAME_DATA_OFFSET + 4096) / 512
  match Device.ataRead InfoLBA 2 d with
  | some [a, b] =>
    if getWord 0 (a, b) = HDL_INFO_MAGIC then
      let DataOffset := getWord (dataStartWord part) (a, b) + 2 ^ 32 - OldPartStart
      let info := setWord (dataStartWord part) (u32 (NewPartStart + DataOffset)) (a, b)
      (Device.ataWrite InfoLBA [info.1, info.2] d).2
    else d
  | _ => d

/-- The first loop of `SwapPartition` over the sub-partitions from number `i` on, `n` of them: their buffers, or the error with the buffers released. -/
def getSubs (dest : Nat) : Nat → Nat → List Nat → Prog State (Except Int (List Nat))
  | 0, _, clinks => return .ok clinks
  | n + 1, i, clinks => do
    let header ← headerOf dest
    match ← devOp (Device.apaCacheGetHeader (header.sub i).start) with
    | .error err =>
      devDo fun d => clinks.foldr Device.apaCacheFree d
      return .error err
    | .ok clink => getSubs dest n (i + 1) (clinks ++ [clink])

/-- The end of `SwapPartition`: everything changed is flushed and the buffers are released. -/
def finishSwap (dest start : Nat) (clinks : List Nat) : Prog State Unit := do
  devDo (Device.setDirty dest)
  devDo (Device.setDirty start)
  let _ ← devOp Device.apaCacheFlushAllDirty
  devDo fun d => clinks.foldl (fun d clink => Device.apaCacheFree clink d) d

/-- What `SwapPartition` puts into `dest->header`: the header of `start` with the place of `dest`. -/
def destHeader (old source : ApaHeader) : ApaHeader :=
  { source with start := old.start, next := old.next, prev := old.prev }

/-- What `SwapPartition` puts into `start->header`: the header of `_tmp`. -/
def sourceHeader (source : ApaHeader) : ApaHeader :=
  { ApaHeader.zero with
    magic := APA_MAGIC, start := source.start, next := source.next, prev := source.prev,
    length := source.length, modver := APA_MODVER, type := source.type, id := tmpId }

/-- `SwapPartition`. Its result is not used; a failure is `false`. -/
def SwapPartition (dest start : Nat) : Prog State Bool := do
  let old ← headerOf dest
  let source ← headerOf start
  devDo (Device.setHeader dest fun _ => destHeader old source)
  devDo (Device.setHeader start fun _ => sourceHeader source)
  let header ← headerOf dest
  if header.isSub then
    match ← devOp (Device.apaCacheGetHeader header.main) with
    | .error _ => return false
    | .ok clink =>
      let main ← headerOf clink
      match (List.range main.nsub).find? fun i => source.start = (main.sub i).start with
      | none =>
        devDo (Device.apaCacheFree clink)
        return false
      | some i =>
        devDo (Device.setHeader clink fun h => { h with
          subs := fun j => if j.val = i then ⟨header.start, (h.subs j).length⟩ else h.subs j })
        devDo (Device.setDirty clink)
        if header.type = APA_TYPE_HDLFS then
          devDo (hdlUpdateGameSliceInfo header.main i source.start header.start)
        finishSwap dest start [clink]
        return true
  else
    match ← getSubs dest header.nsub 0 [] with
    | .error _ => return false
    | .ok clinks =>
      devDo fun d => clinks.foldl (fun d clink =>
        Device.setDirty clink (Device.setHeader clink (fun h => { h with main := header.start }) d)) d
      if header.type = APA_TYPE_HDLFS then
        devDo (hdlUpdateGameSliceInfo header.start 0 source.start header.start)
      finishSwap dest start clinks
      return true

def MovePartition (dest start : Nat) : Prog State Int := do
  let hdest ← headerOf dest
  let hstart ← headerOf start
  if hdest.type ≠ APA_TYPE_FREE then return -1
  else if hdest.length ≠ hstart.length then return -1
  else
    let result ← onDev hdskRemoveTmp
    if result ≠ 0 then return result
    else
      let hdest ← headerOf dest
      let hstart ← headerOf start
      let result ← CopyPartition hdest hstart
      if result ≠ 0 then return result
      else
        if ← hdskStopFlag then return 0
        else
          let _ ← SwapPartition dest start
          return 0

def SplitEmptyPartition (partition length : Nat) : Prog State Int := do
  let result ← read fun s => s.uninit s.dev.ops.length
  loop (fun result => do
    let header ← headerOf partition
    if header.length = length then return .inr result
    else
      match ← devOp (Device.apaCacheGetHeader header.next) with
      | .error err => return .inl err
      | .ok empty =>
        devDo (Device.setHeader partition fun h => { h with length := h.length / 2 })
        let header ← headerOf partition
        let clink := u32 (header.start + header.length)
        devDo (Device.apaRemovePartition clink header.next header.start header.length)
        let start := (← headerOf clink).start
        devDo (Device.setHeader partition fun h => { h with next := start })
        devDo (Device.setDirty partition)
        devDo (Device.setHeader empty fun h => { h with prev := start })
        devDo (Device.setDirty empty)
        let _ ← devOp Device.apaCacheFlushAllDirty
        devDo (Device.apaCacheFree clink)
        devDo (Device.apaCacheFree empty)
        return .inl 0) result

/-- `apaCacheFree` of a pointer that may be null. -/
def freeOption (clink : Option Nat) (d : Device) : Device :=
  match clink with
  | none => d
  | some clink => Device.apaCacheFree clink d

def MovePartitionsBlock (dest start : Nat) : Prog State Int := do
  let header ← headerOf dest
  let (result, dest, start) ← loop (fun (x : Nat × Nat × Nat) => do
    let dest := x.1
    let start := x.2.1
    let remaining := x.2.2
    let hstart ← headerOf start
    let result ← SplitEmptyPartition dest hstart.length
    if result ≠ 0 then return .inr (result, some dest, some start)
    else
      let result ← MovePartition dest start
      if result ≠ 0 then return .inr (result, some dest, some start)
      else
        let remaining := u32 (remaining + 2 ^ 32 - (← headerOf dest).length)
        if (← hdskStopFlag) || remaining = 0 then return .inr (0, some dest, some start)
        else
          match (← devOp (Device.apaGetNextHeader dest)).toOption.join with
          | none => return .inr (0, none, some start)
          | some dest =>
            match (← devOp (Device.apaGetNextHeader start)).toOption.join with
            | none => return .inr (0, some dest, none)
            | some start => return .inl (dest, start, remaining)) (dest, start, header.length)
  devDo (freeOption dest)
  devDo (freeOption start)
  return result

/-! ### The thread -/

/-- What one round of `HdskThread` has chosen to do. -/
inductive Choice where
  | nothing
  | partition (clink clink2 : Nat)
  | block (clink clink2 : Nat)

/-- A block is looked for only when it can have more than one partition. -/
def findBlock (PartSize start : Nat) (mode : Bool) : Prog State (Option Nat) :=
  if HDSK_MIN_PART_SIZE < PartSize then hdskFindLastUsedBlock PartSize start mode else return none

def choose (PartSize clink : Nat) : Prog State Choice := do
  let start := (← headerOf clink).start
  match ← hdskFindLastUsedPartition PartSize start true with
  | some clink2 => return .partition clink clink2
  | none =>
    match ← findBlock PartSize start true with
    | some clink2 => return .block clink clink2
    | none =>
      match ← hdskFindLastUsedPartition PartSize start false with
      | some clink2 => return .partition clink clink2
      | none =>
        match ← findBlock PartSize start false with
        | some clink2 => return .block clink clink2
        | none => return .nothing

/-- How the rounds for one partition size end: by leaving the inner loop or by leaving both. -/
inductive Exit where
  | leave
  | finish

def setStatus (status : Int) : Prog State Unit := modify fun s => { s with hdskStatus := status }

/-- One pass of the inner loop of `HdskThread`: go on, or end the rounds. -/
def threadRound (PartSize : Nat) : Prog State (Unit ⊕ Exit) := do
  let status ← onDev hdskRemoveTmp
  setStatus status
  if 0 ≤ status then
    match ← hdskFindEmptyPartition PartSize with
    | none => return .inr .leave
    | some clink =>
      match ← choose PartSize clink with
      | .nothing =>
        devDo (Device.apaCacheFree clink)
        return .inr .leave
      | .block clink clink2 =>
        let status ← MovePartitionsBlock clink clink2
        setStatus status
        if status ≠ 0 then return .inr .finish
        else
          devDo (Device.apaCacheFree clink)
          return .inl ()
      | .partition clink clink2 =>
        let status ← MovePartition clink clink2
        setStatus status
        devDo (Device.apaCacheFree clink2)
        devDo (Device.apaCacheFree clink)
        if status ≠ 0 then return .inr .finish else return .inl ()
  else return .inr .leave

/-- The outer loop of `HdskThread`. -/
def threadLoop (PartSize : Nat) : Prog State Unit :=
  loop (fun PartSize => do
    if PartSize < apaGetPartitionMax (← read (·.totalLBA)) then
      match ← loop (fun _ => threadRound PartSize) () with
      | .finish => return .inr ()
      | .leave =>
        let status ← read (·.hdskStatus)
        if status ≠ 0 then return .inr ()
        else if ← hdskStopFlag then return .inr ()
        else return .inl (u32 (PartSize * 2))
    else return .inr ()) PartSize

/-- `HdskThread`. A stop request that came before the flag is cleared is lost, so `stop` counts from there. -/
def HdskThread : Prog State Unit := do
  modify fun s => { s with hdskProgress := 0, hdskStatus := 0 }
  let status ← onDev hdskRemoveTmp
  setStatus status
  if 0 ≤ status then threadLoop HDSK_MIN_PART_SIZE
  let _ ← onDev hdskRemoveTmp

end HddChecker.Hdsk
