import HddChecker.Apa.View

/-!
# Removing partitions

The functions of `apa.c` that walk the chain of headers, make headers of empty partitions and delete a partition. A function that may walk further than the chain is long is a program; the others are functions of the drive.
-/

namespace HddChecker.Apa

open HddChecker Prog

/-- `"__empty"` in a field of 32 bytes. -/
def emptyId : Fin 8 → Nat := ![0x6d655f5f, 0x00797470, 0, 0, 0, 0, 0, 0]

/-- The header of an empty partition, as `apaRemovePartition` and `apaMakeEmpty` fill it in. -/
def emptyHeader (start next prev length : Nat) (created : Fin 2 → Nat) : ApaHeader :=
  { ApaHeader.zero with
    magic := APA_MAGIC, start := start, next := next, prev := prev, length := length,
    id := emptyId, created := created }

def EACCES : Int := 13

namespace Device

/-- `apaGetNextHeader`: the buffer of the next header, nothing at the end of the chain, or the error. A wrong `prev` of the next header is set right. -/
def apaGetNextHeader (clink : Nat) (d : Device) : Except Int (Option Nat) × Device :=
  let header := d.header clink
  let d := apaCacheFree clink d
  if header.next = 0 then (.ok none, d)
  else
    match apaCacheGetHeader header.next d with
    | (.error err, d) => (.error err, d)
    | (.ok clink, d) =>
      if header.start ≠ (d.header clink).prev then
        let d := setHeader clink (fun h => { h with prev := header.start }) d
        let d := setDirty clink d
        (.ok (some clink), d.apaCacheFlushAllDirty.2)
      else (.ok (some clink), d)

/-- `apaRemovePartition`: a buffer with the header of an empty partition. -/
def apaRemovePartition (start next prev length : Nat) (d : Device) : Device :=
  let d := apaCacheGetHeaderWrite start d
  let created := d.apaGetTime
  let d := setHeader start (fun _ => emptyHeader start next prev length created) d
  setDirty start d

def apaMakeEmpty (clink : Nat) (d : Device) : Device :=
  let created := d.apaGetTime
  let d := setHeader clink (fun h => emptyHeader h.start h.next h.prev h.length created) d
  setDirty clink d

/-- The test by which two neighbouring empty partitions become one of `tmp` sectors at `start`. -/
def mergeable (start tmp : Nat) : Bool := start % tmp == 0 && tmp &&& (tmp - 1) == 0

/-- The loop of `apaDeleteFixPrev`: the first buffer of the empty run and the length of the run. -/
def fixPrevLoop (clink length : Nat) : Prog Device (Except Int (Nat × Nat)) :=
  loop (fun (x : Nat × Nat) => do
    let clink := x.1
    let length := x.2
    let header ← read (·.header clink)
    if header.start = 0 then return .inr (.ok (clink, length))
    else
      match ← ofState (apaCacheGetHeader header.prev) with
      | .error err =>
        modify (apaCacheFree clink)
        return .inr (.error err)
      | .ok clink2 =>
        let header ← read (·.header clink2)
        let tmp := u32 (header.length + length)
        if header.type ≠ APA_TYPE_FREE ∨ mergeable header.start tmp = false then
          modify (apaCacheFree clink2)
          return .inr (.ok (clink, length))
        else
          modify (apaCacheFree clink)
          return .inl (clink2, tmp)) (clink, length)

/-- `apaDeleteFixPrev`: the buffer the empty run is merged into. -/
def apaDeleteFixPrev (clink : Nat) : Prog Device (Except Int Nat) := do
  let saved ← read (·.header clink)
  match ← fixPrevLoop clink saved.length with
  | .error err => return .error err
  | .ok (clink, length) =>
    if length ≠ saved.length then
      match ← ofState (apaCacheGetHeader saved.next) with
      | .error err =>
        modify (apaCacheFree clink)
        return .error err
      | .ok clink2 =>
        modify (setHeader clink fun h => { h with length := length })
        modify (setHeader clink fun h => { h with next := u32 (h.start + length) })
        let start := (← read (·.header clink)).start
        modify (setHeader clink2 fun h => { h with prev := start })
        modify (setDirty clink2)
        modify (setDirty clink)
        let _ ← ofState apaCacheFlushAllDirty
        modify (apaCacheFree clink2)
        return .ok clink
    else return .ok clink

/-- The loop of `apaDeleteFixNext`: the header behind the empty run and the length of the run. -/
def fixNextLoop (clink start lnext length : Nat) : Prog Device (Except Int (Nat × Nat)) :=
  loop (fun (x : Nat × Nat) => do
    let lnext := x.1
    let length := x.2
    if lnext = 0 then return .inr (.ok (lnext, length))
    else
      match ← ofState (apaCacheGetHeader lnext) with
      | .error err =>
        modify (apaCacheFree clink)
        return .inr (.error err)
      | .ok clink1 =>
        let header ← read (·.header clink1)
        let tmp := u32 (header.length + length)
        modify (apaCacheFree clink1)
        if header.type ≠ APA_TYPE_FREE ∨ mergeable start tmp = false then
          return .inr (.ok (lnext, length))
        else return .inl (header.next, tmp)) (lnext, length)

def apaDeleteFixNext (clink : Nat) : Prog Device (Except Int Nat) := do
  let saved ← read (·.header clink)
  match ← fixNextLoop clink saved.start saved.next saved.length with
  | .error err => return .error err
  | .ok (lnext, length) =>
    if length ≠ saved.length then
      match ← ofState (apaCacheGetHeader lnext) with
      | .error err =>
        modify (apaCacheFree clink)
        return .error err
      | .ok clink2 =>
        modify (setHeader clink fun h => { h with length := length })
        modify (setHeader clink fun h => { h with next := lnext })
        modify (apaMakeEmpty clink)
        let start := (← read (·.header clink)).start
        modify (setHeader clink2 fun h => { h with prev := start })
        modify (setDirty clink2)
        let _ ← ofState apaCacheFlushAllDirty
        modify (apaCacheFree clink2)
        return .ok clink
    else return .ok clink

/-- The passes of `apaDelete` over both neighbours, `i` of them. -/
def fixBoth : Nat → Nat → Prog Device (Option Nat)
  | 0, clink => return some clink
  | i + 1, clink => do
    match ← apaDeleteFixPrev clink with
    | .error _ => return none
    | .ok clink =>
      match ← apaDeleteFixNext clink with
      | .error _ => return none
      | .ok clink => fixBoth i clink

/-- The loop of `apaDelete` that cuts the end of the chain off. -/
def cutLoop (clink clink_mbr : Nat) : Prog Device (Option Nat) :=
  loop (fun clink => do
    modify (apaCacheFree clink)
    let header ← read (·.header clink)
    match ← ofState (apaCacheGetHeader header.prev) with
    | .error _ => return .inr none
    | .ok clink =>
      modify (setHeader clink fun h => { h with next := 0 })
      modify (setDirty clink)
      let start := (← read (·.header clink)).start
      modify (setHeader clink_mbr fun h => { h with prev := start })
      modify (setDirty clink_mbr)
      let _ ← ofState apaCacheFlushAllDirty
      let header ← read (·.header clink)
      if header.type = APA_TYPE_FREE then return .inl clink
      else return .inr (some clink)) clink

def apaDelete (clink : Nat) : Prog Device Int := do
  let saved ← read (·.header clink)
  if saved.start = 0 then
    modify (apaCacheFree clink)
    return -EACCES
  else if saved.next = 0 then
    match ← ofState (apaCacheGetHeader 0) with
    | .error rv =>
      modify (apaCacheFree clink)
      return rv
    | .ok clink_mbr =>
      match ← cutLoop clink clink_mbr with
      | none => return 0
      | some clink =>
        modify (apaCacheFree clink_mbr)
        modify (apaCacheFree clink)
        return 0
  else
    match ← fixBoth 2 clink with
    | none => return 0
    | some clink =>
      let header ← read (·.header clink)
      if header.start = saved.start ∧ header.length = saved.length then
        modify (apaMakeEmpty clink)
        let _ ← ofState apaCacheFlushAllDirty
      modify (apaCacheFree clink)
      return 0

end Device

end HddChecker.Apa
