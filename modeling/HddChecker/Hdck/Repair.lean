import HddChecker.Apa.Partition

/-!
# The repair of a partition table

The functions of `hdck.c`. `HdckDevctl` follows the links of the headers in both directions, and while a header on the way cannot be read, it recovers it as a sub-partition, turns it into empty space or cuts the chain off in front of it. Then it merges empty partitions and checks that main partitions and their subs name each other.
-/

namespace HddChecker.Hdck

open HddChecker Apa Prog

def ENXIO : Int := 6
def EEXIST : Int := 17
def APA_CACHE_FLAG_DIRTY : UInt16 := 1

/-- What a repair did to headers. The code keeps no such record. -/
inductive Repair where
  /-- `RemoveBadPartitions` cut the chain off behind a header. -/
  | removed
  /-- `RecoverSubPartition` wrote a header. -/
  | recovered (lba : Nat)

/-- The drive, the parts of `PrivateData` the repair uses, and the repairs so far. -/
structure State where
  dev : Device
  status : Nat
  ErrorPartitionLBA : Nat
  ErrorPartition2LBA : Nat
  ErrorPartitionPrevLBA : Nat
  ErrorPartition2PrevLBA : Nat
  repairs : List Repair

/-- A program of `libapa` on the drive. -/
def onDev {α : Type} (p : Prog Device α) : Prog State α :=
  zoom (·.dev) (fun dev s => { s with dev := dev }) p

/-- A function of `libapa` on the drive. -/
def devOp {α : Type} (f : Device → α × Device) : Prog State α := onDev (ofState f)

/-- A function of `libapa` without a result. -/
def devDo (f : Device → Device) : Prog State Unit := onDev (modify f)

/-- `clink->header` -/
def headerOf (clink : Nat) : Prog State ApaHeader := onDev (read (·.header clink))

/-- Where a link of a header is not `value`, it is set to it, and the header reaches the disk at once. -/
def relink (clink : Nat) (link : ApaHeader → Nat) (set : Nat → ApaHeader → ApaHeader) (value : Nat) :
    Prog State Unit := onDev do
  let header ← read (·.header clink)
  if link header ≠ value then
    modify (Device.setHeader clink (set value))
    modify (Device.setDirty clink)
    let _ ← ofState Device.apaCacheFlushAllDirty
    return ()
  else return ()

/-! ### The two scans -/

def AddPartitionToList (list : List Nat) (sector : Nat) : Int × List Nat :=
  if sector ∈ list then (- EEXIST, list) else (0, list ++ [sector])

/-- The direction of a scan: the link it follows, and the one it sets right. -/
structure Direction where
  onward : ApaHeader → Nat
  back : ApaHeader → Nat
  setBack : Nat → ApaHeader → ApaHeader

def forward : Direction := ⟨(·.next), (·.prev), fun x h => { h with prev := x }⟩

def backward : Direction := ⟨(·.prev), (·.next), fun x h => { h with next := x }⟩

/-- A scan loop of `CheckAPAPartitionLinks` from `CurrentLBA` on: `result`, `CurrentLBA` and `ParentLBA` behind it. -/
def scanLinks (dir : Direction) (CurrentLBA : Nat) (result : Int) : Prog State (Int × Nat × Nat) :=
  loop (fun (x : Nat × Nat × List Nat × Int) => do
    let (CurrentLBA, ParentLBA, list, result) := x
    if CurrentLBA = 0 then return .inr (result, CurrentLBA, ParentLBA)
    else
      let (result, list) := AddPartitionToList list CurrentLBA
      if result < 0 then return .inr (result, CurrentLBA, ParentLBA)
      else
        match ← devOp (Device.apaCacheGetHeader CurrentLBA) with
        | .error err => return .inr (err, CurrentLBA, ParentLBA)
        | .ok clink2 =>
          relink clink2 dir.back dir.setBack ParentLBA
          let header ← headerOf clink2
          devDo (Device.apaCacheFree clink2)
          return .inl (dir.onward header, header.start, list, 0)) (CurrentLBA, 0, [], result)

def CheckAPAPartitionLinks (clink : Nat) : Prog State Nat := do
  modify fun s => { s with
    ErrorPartition2LBA := 0, ErrorPartitionLBA := 0
    ErrorPartition2PrevLBA := 0, ErrorPartitionPrevLBA := 0 }
  let (result, CurrentLBA, ParentLBA) ← scanLinks forward (← headerOf clink).next 0
  if result = 0 then
    relink clink forward.back forward.setBack ParentLBA
    return (← read (·.ErrorPartitionLBA))
  else
    modify fun s => { s with ErrorPartitionLBA := CurrentLBA, ErrorPartitionPrevLBA := ParentLBA }
    let (result, CurrentLBA, ParentLBA) ← scanLinks backward (← headerOf clink).prev result
    if result = 0 then
      relink clink backward.back backward.setBack ParentLBA
      modify fun s => { s with ErrorPartitionLBA := 0 }
      return (← read (·.ErrorPartitionLBA))
    else
      modify fun s => { s with ErrorPartition2LBA := CurrentLBA, ErrorPartition2PrevLBA := ParentLBA }
      return (← read (·.ErrorPartitionLBA))

/-! ### Bad headers -/

def EraseSector (lba : Nat) (d : Device) : Device := (Device.ataWrite lba [Sector.zero] d).2.ataFlushCache

/-- The edits of `RemoveBadPartitions`. The dirty bits go into the `flags` of the headers, not of the buffers. -/
def cutOff (clink clink2 ErrorPartitionPrevLBA : Nat) : Prog Device Unit := do
  modify (Device.setHeader clink2 fun h => { h with next := 0 })
  modify (Device.setHeader clink fun h => { h with prev := ErrorPartitionPrevLBA })
  modify (Device.setHeader clink2 fun h => { h with flags := h.flags ||| APA_CACHE_FLAG_DIRTY })
  modify (Device.setHeader clink fun h => { h with flags := h.flags ||| APA_CACHE_FLAG_DIRTY })
  let _ ← ofState Device.apaCacheFlushAllDirty
  modify (Device.apaCacheFree clink2)

def RemoveBadPartitions (clink : Nat) : Prog State Unit := do
  let ErrorPartitionPrevLBA ← read (·.ErrorPartitionPrevLBA)
  match ← devOp (Device.apaCacheGetHeader ErrorPartitionPrevLBA) with
  | .error _ => return ()
  | .ok clink2 =>
    onDev (cutOff clink clink2 ErrorPartitionPrevLBA)
    modify fun s => { s with
      repairs := s.repairs ++ [.removed], ErrorPartition2LBA := 0, ErrorPartitionLBA := 0 }

/-- The header `RecoverSubPartition` fills in. -/
def subHeader (lba next previous sublength substart : Nat) (type : UInt16) (sub : Nat)
    (created : Fin 2 → Nat) : ApaHeader :=
  { ApaHeader.zero with
    magic := APA_MAGIC, start := lba, next := next, prev := previous, length := sublength,
    type := type, flags := APA_FLAG_SUB, main := substart, number := sub, created := created }

def RecoverSubPartition (clink lba previous sublength substart : Nat) (type : UInt16) (sub : Nat) :
    Prog State Unit := do
  onDev do
    modify (Device.apaCacheGetHeaderWrite lba)
    modify (Device.setHeader lba fun _ => ApaHeader.zero)
    let last := (← read (·.header clink)).prev
    let next := if lba < last then u32 (lba + sublength) else 0
    let created ← read (·.apaGetTime)
    modify (Device.setHeader lba fun _ => subHeader lba next previous sublength substart type sub created)
    modify (Device.setDirty lba)
    let _ ← ofState Device.apaCacheFlushAllDirty
    modify (Device.apaCacheFree lba)
  modify fun s => { s with repairs := s.repairs ++ [.recovered lba] }

/-- The bad header and the one before it, as the forward scan or, if `second`, the backward scan found them. -/
def State.bad (s : State) (second : Bool) : Nat × Nat :=
  if second then (s.ErrorPartition2LBA, s.ErrorPartitionLBA)
  else (s.ErrorPartitionLBA, s.ErrorPartitionPrevLBA)

def State.settle (s : State) (second : Bool) : State :=
  if second then { s with ErrorPartition2LBA := 0 }
  else { s with
    ErrorPartition2LBA := if s.ErrorPartition2LBA = s.ErrorPartitionLBA then 0 else s.ErrorPartition2LBA
    ErrorPartitionLBA := 0 }

/-- One of the two tests `RecoverPartitionIfSub` makes of the record `sub` of a main partition. -/
def recoverIfListed (second : Bool) (clink clink2 sub : Nat) : Prog State Unit := do
  let header ← headerOf clink2
  let s ← read id
  let (lba, previous) := s.bad second
  if lba ≠ 0 ∧ (header.sub sub).start = lba then
    RecoverSubPartition clink lba previous (header.sub sub).length header.start header.type (sub + 1)
    modify (·.settle second)
  else return ()

/-- The loop of `RecoverPartitionIfSub` over the subs of a header, which must be that of a main partition. -/
def recoverSubs (clink clink2 : Nat) : Prog State Unit := do
  let header ← headerOf clink2
  if header.type ≠ APA_TYPE_FREE ∧ header.isSub = false then
    loop (fun (sub : Nat) => do
      let header ← headerOf clink2
      if header.nsub ≤ sub then return .inr ()
      else
        recoverIfListed false clink clink2 sub
        recoverIfListed true clink clink2 sub
        return .inl (sub + 1)) 0
  else return ()

/-- One of the two loops of `RecoverPartitionIfSub`, from `NextPartSector` on: whether everything is recovered. -/
def recoverWalk (onward : ApaHeader → Nat) (clink NextPartSector : Nat) : Prog State Bool :=
  loop (fun (NextPartSector : Nat) => do
    match ← devOp (Device.apaCacheGetHeader NextPartSector) with
    | .error _ => return .inr false
    | .ok clink2 =>
      recoverSubs clink clink2
      let header ← headerOf clink2
      devDo (Device.apaCacheFree clink2)
      let s ← read id
      if s.ErrorPartitionLBA = 0 ∧ s.ErrorPartition2LBA = 0 then return .inr true
      else if onward header = 0 ∨ onward header = s.ErrorPartitionLBA then return .inr false
      else return .inl (onward header)) NextPartSector

/-- One of the two halves of `RecoverPartitionIfSub`, which goes `onward` unless the first step leads to the bad header. -/
def recoverFrom (onward : ApaHeader → Nat) (bad : State → Nat) (clink : Nat) : Prog State Bool := do
  let header ← headerOf clink
  let s ← read id
  if onward header ≠ 0 ∧ onward header ≠ bad s then recoverWalk onward clink (onward header)
  else return false

def RecoverPartitionIfSub (clink : Nat) : Prog State Unit := do
  if ← recoverFrom (·.next) (·.ErrorPartitionLBA) clink then return ()
  else
    let _ ← recoverFrom (·.prev) (·.ErrorPartition2LBA) clink
    return ()

/-- The empty partition of `length` sectors at `lba` becomes the next one of `clink`. -/
def linkEmpty (clink lba length : Nat) : Prog Device Unit := do
  let start := (← read (·.header clink)).start
  modify (Device.apaRemovePartition lba (u32 (lba + length)) start length)
  modify (Device.setHeader clink fun h => { h with next := lba })
  modify (Device.setDirty clink)
  let _ ← ofState Device.apaCacheFlushAllDirty
  modify (Device.apaCacheFree clink)

/-- The length `apaCreateAlignedEmptyPartition` settles on, from `length` down. -/
def alignedLength (lba : Nat) : Nat → Nat → Option Nat
  | 0, _ => none
  | fuel + 1, length =>
    if 0x0003FFFF < length then
      if lba % length = 0 then some length else alignedLength lba fuel (length / 2)
    else none

/-- `apaCreateAlignedEmptyPartition`: the buffer of the empty partition, if there is one. -/
def apaCreateAlignedEmptyPartition (clink lba length : Nat) : Prog Device (Option Nat) := do
  match alignedLength lba 32 (length / 2) with
  | none => return none
  | some length =>
    linkEmpty clink lba length
    return some lba

/-- The loop of `MarkUnreadablePartionAsEmpty`. Where `apaCreateAlignedEmptyPartition` answers nothing, the code goes on with a null pointer; the model stops. -/
def markLoop (lba clink length : Nat) : Prog Device (Option Nat) :=
  loop (fun (x : Nat × Nat) => do
    let (clink, length) := x
    if length = 0 then return .inr (some clink)
    else
      let new_length := 2 ^ Nat.log2 length
      if lba % new_length ≠ 0 then
        match ← apaCreateAlignedEmptyPartition clink lba new_length with
        | none => return .inr none
        | some clink =>
          let header ← read (·.header clink)
          return .inl (clink, u32 (length + 2 ^ 32 - u32 header.length))
      else
        linkEmpty clink lba new_length
        let header ← read (·.header clink)
        return .inl (clink, u32 (length + 2 ^ 32 - u32 header.length))) (clink, length)

def MarkUnreadablePartionAsEmpty (lba parent length : Nat) : Prog State Unit := do
  match ← devOp (Device.apaCacheGetHeader parent) with
  | .error _ => return ()
  | .ok clink =>
    match ← onDev (markLoop lba clink length) with
    | none => return ()
    | some clink =>
      devDo (Device.apaCacheFree clink)
      modify fun s => { s with ErrorPartition2LBA := 0, ErrorPartitionLBA := 0 }

/-! ### The partitions -/

def DeleteFreePartitions (clink : Nat) : Prog Device Unit := do
  loop (fun (sector : Nat) => do
    if sector = 0 then return .inr ()
    else
      match ← ofState (Device.apaCacheGetHeader sector) with
      | .error _ => return .inr ()
      | .ok clink2 =>
        let header ← read (·.header clink2)
        let merged ← if header.type = APA_TYPE_FREE then Device.apaDeleteFixPrev clink2 else pure (.ok clink2)
        match merged with
        | .error _ => return .inr ()
        | .ok clink2 =>
          let header ← read (·.header clink2)
          modify (Device.apaCacheFree clink2)
          return .inl header.next) (← read (·.header clink)).next

/-- `ReadPartitionMap`: the result and the starts of the main partitions and of the subs. -/
def ReadPartitionMap (clink : Nat) : Prog Device (Int × List Nat × List Nat) := do
  loop (fun (x : Nat × List Nat × List Nat) => do
    let (sector, MainMap, SubMap) := x
    if sector = 0 then return .inr (0, MainMap, SubMap)
    else
      match ← ofState (Device.apaCacheGetHeader sector) with
      | .error err => return .inr (err, MainMap, SubMap)
      | .ok clink2 =>
        let header ← read (·.header clink2)
        modify (Device.apaCacheFree clink2)
        if header.type = APA_TYPE_FREE then return .inl (header.next, MainMap, SubMap)
        else if header.isSub then return .inl (header.next, MainMap, SubMap ++ [header.start])
        else return .inl (header.next, MainMap ++ [header.start], SubMap))
    ((← read (·.header clink)).next, [], [])

/-- The loop of `CheckPartitions` over the subs a main partition names. -/
def checkSubs (clink2 : Nat) (SubMap : List Nat) (result : Int) : Prog Device Int :=
  loop (fun (x : Nat × Bool × Int) => do
    let (sub, missing_sub_found, result) := x
    let header ← read (·.header clink2)
    if header.nsub ≤ sub then return .inr result
    else if (header.sub sub).start ∉ SubMap then
      if missing_sub_found then return .inl (sub + 1, true, result)
      else
        modify (Device.setHeader clink2 fun h => { h with nsub := sub })
        modify (Device.setDirty clink2)
        let _ ← ofState Device.apaCacheFlushAllDirty
        return .inl (sub + 1, true, result)
    else if missing_sub_found then
      match ← ofState (Device.apaCacheGetHeader (header.sub sub).start) with
      | .error err => return .inl (sub + 1, true, err)
      | .ok clink_sub =>
        let result ← Device.apaDelete clink_sub
        return .inl (sub + 1, true, result)
    else return .inl (sub + 1, false, result)) (0, false, result)

/-- The loop of `CheckPartitions` over the main partitions. -/
def checkMains (SubMap : List Nat) : List Nat → Prog Device Int
  | [] => return 0
  | main :: rest => do
    match ← ofState (Device.apaCacheGetHeader main) with
    | .error err => return err
    | .ok clink2 =>
      let result ← checkSubs clink2 SubMap 0
      modify (Device.apaCacheFree clink2)
      if result ≠ 0 then return result else checkMains SubMap rest

/-- Whether the loop over `clink_sub->header->subs`, bounded by `nsub` of the sub itself, ends at `nsub` of the main partition. -/
def unlisted (header main : ApaHeader) (start : Nat) : Bool :=
  let count := ((List.range header.nsub).find? fun i => (main.sub i).start == start).getD header.nsub
  main.nsub == count

/-- The loop of `CheckPartitions` over the sub-partitions. -/
def checkSubPartitions (MainMap : List Nat) : List Nat → Prog Device Int
  | [] => return 0
  | start :: rest => do
    match ← ofState (Device.apaCacheGetHeader start) with
    | .error err => return err
    | .ok clink2 =>
      let header ← read (·.header clink2)
      if header.main ∉ MainMap then
        let result ← Device.apaDelete clink2
        if result ≠ 0 then return result else checkSubPartitions MainMap rest
      else
        match ← ofState (Device.apaCacheGetHeader header.main) with
        | .error err =>
          modify (Device.apaCacheFree clink2)
          return err
        | .ok clink_sub =>
          let main ← read (·.header clink_sub)
          if unlisted header main start then
            let _ ← Device.apaDelete clink2
            modify (Device.apaCacheFree clink_sub)
          else
            modify (Device.apaCacheFree clink_sub)
            modify (Device.apaCacheFree clink2)
          checkSubPartitions MainMap rest

def CheckPartitions (clink : Nat) : Prog Device Int := do
  let (result, MainMap, SubMap) ← ReadPartitionMap clink
  if result ≠ 0 then return result
  else
    let result ← checkMains SubMap MainMap
    if result < 0 then return result
    else
      let (result, MainMap, SubMap) ← ReadPartitionMap clink
      if result ≠ 0 then return result else checkSubPartitions MainMap SubMap

/-! ### The whole repair -/

/-- What the repair loop of `HdckDevctl` does about an error: whether it counts as a bad partition. -/
def repairError (clink : Nat) : Prog State Bool := do
  let s ← read id
  if s.ErrorPartitionLBA ≤ s.ErrorPartition2LBA then
    let one := decide (s.ErrorPartitionLBA = s.ErrorPartition2LBA)
    RecoverPartitionIfSub clink
    let s ← read id
    if s.ErrorPartitionLBA ≠ 0 ∧ s.ErrorPartition2LBA ≠ 0 then
      let last := (← headerOf clink).prev
      -- of two bad partitions neither may be the last one
      if last ≠ s.ErrorPartitionLBA ∧ (one = true ∨ last ≠ s.ErrorPartition2LBA) then
        MarkUnreadablePartionAsEmpty s.ErrorPartitionLBA s.ErrorPartitionPrevLBA
          (u32 (s.ErrorPartition2PrevLBA + 2 ^ 32 - u32 s.ErrorPartitionLBA))
      else RemoveBadPartitions clink
      return true
    else return false
  else
    RemoveBadPartitions clink
    return true

/-- The repair loop of `HdckDevctl`: whether it gave up after nine bad partitions. -/
def repairLoop (clink : Nat) : Prog State Bool :=
  loop (fun (badParts : Nat) => do
    if (← CheckAPAPartitionLinks clink) = 0 then return .inr false
    else if ← repairError clink then
      if badParts + 1 = 9 then return .inr true else return .inl (badParts + 1)
    else return .inl badParts) 0

def HdckDevctl : Prog State Int := do
  let s ← read id
  if s.status ≠ 0 then return - ENXIO
  else
    match ← devOp (Device.apaCacheGetHeader APA_SECTOR_MBR) with
    | .error err => return err
    | .ok clink =>
      let gaveUp ← repairLoop clink
      if gaveUp then
        devDo (Device.apaCacheFree clink)
        return 0
      else
        devDo (EraseSector APA_SECTOR_SECTOR_ERROR)
        onDev (DeleteFreePartitions clink)
        let result ← onDev (CheckPartitions clink)
        devDo (Device.apaCacheFree clink)
        return result

end HddChecker.Hdck
