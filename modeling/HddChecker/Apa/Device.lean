import HddChecker.Apa.Header
import HddChecker.Lib.Prog
import HddChecker.Lib.PowerLoss

/-!
# The drive, the header cache and the journal

The state the functions of `cache.c` and `journal.c` work on, for one drive. A read fails at a sector that cannot be read and a write fails at a sector that cannot be written; the operations the driver has issued are recorded in order. The cache holds its buffers in the order of the slots they took, and a buffer is named by the sector it holds. The number of slots is not modelled: a buffer nobody uses keeps its header, and the cache is never full.
-/

namespace HddChecker.Apa

open HddChecker

/-- `apa_cache_t` -/
structure ApaCache where
  sector : Nat
  header : ApaHeader
  dirty : Bool
  nused : Nat
  deriving DecidableEq

/-- `apa_journal_t` -/
structure ApaJournal where
  magic : Nat
  num : Int
  sectors : Fin 126 → Nat

namespace ApaJournal

/-- The journal after `memset` and `magic = APAL_MAGIC`. -/
def reset : ApaJournal := ⟨APAL_MAGIC, 0, fun _ => 0⟩

/-- The sector of a journal; `num` is stored in two's complement. -/
def toSector (j : ApaJournal) : Sector := fun i =>
  if i.val = 0 then j.magic
  else if i.val = 1 then (j.num % 2 ^ 32).toNat
  else j.sectors ⟨i.val - 2, by omega⟩

def ofSector (s : Sector) : ApaJournal where
  magic := s 0
  num := if s 1 < 2 ^ 31 then (s 1 : Int) else (s 1 : Int) - 2 ^ 32
  sectors := fun i => s ⟨i.val + 2, by omega⟩

theorem ofSector_toSector (j : ApaJournal) (h0 : 0 ≤ j.num) (h1 : j.num < 2 ^ 31) :
    ofSector j.toSector = j := by
  have hnum : j.num % 2 ^ 32 = j.num := Int.emod_eq_of_lt h0 (by omega)
  cases j with
  | mk magic num sectors =>
    simp only at h0 h1 hnum
    have hlt : num.toNat < 2 ^ 31 := by omega
    simp only [ofSector, mk.injEq]
    refine ⟨rfl, ?_, ?_⟩
    · simp only [toSector, Fin.val_one, one_ne_zero, if_false, if_true, hnum, hlt]
      omega
    · funext i
      simp [toSector]

/-- `sectors[num] = sector; num++`. A `num` past the end is not modelled. -/
def push (j : ApaJournal) (sector : Nat) : ApaJournal :=
  { j with
    num := j.num + 1
    sectors := fun i => if (i.val : Int) = j.num then sector else j.sectors i }

end ApaJournal

/-- The buffer that holds `sector`. -/
def findBuf (cache : List ApaCache) (sector : Nat) : Option ApaCache :=
  cache.find? fun b => b.sector == sector

/-- Changes the buffer of `sector`. -/
def mapBuf (sector : Nat) (f : ApaCache → ApaCache) (cache : List ApaCache) : List ApaCache :=
  cache.map fun b => if b.sector = sector then f b else b

/-- A drive with its header cache. `clock` is the time after each number of operations. -/
structure Device where
  disk : Nat → Option Sector
  badWrite : Nat → Bool
  clock : Nat → Fin 2 → Nat
  ops : List (DiskOp (Option Sector))
  cache : List ApaCache
  journalBuf : ApaJournal

/-- The writes of consecutive sectors from `lba` on. -/
def writesAt : Nat → List Sector → List (Nat × Option Sector)
  | _, [] => []
  | lba, s :: rest => (lba, some s) :: writesAt (lba + 1) rest

namespace Device

/-! ### Transfers -/

/-- `ata_device_sector_io(.., ATA_DIR_WRITE)`: 0, or an error without any sector written. -/
def ataWrite (lba : Nat) (data : List Sector) (d : Device) : Int × Device :=
  if (List.range data.length).any fun i => d.badWrite (lba + i) then (- EIO, d)
  else
    (0, { d with
      disk := applyWrites (writesAt lba data) d.disk
      ops := d.ops ++ (writesAt lba data).map fun w => .write w.1 w.2 })

/-- `ata_device_sector_io(.., ATA_DIR_READ)`: the sectors, or nothing where it fails. -/
def ataRead (lba : Nat) : Nat → Device → Option (List Sector)
  | 0, _ => some []
  | n + 1, d =>
    match d.disk lba, ataRead (lba + 1) n d with
    | some s, some rest => some (s :: rest)
    | _, _ => none

/-- `ata_device_flush_cache` -/
def ataFlushCache (d : Device) : Device := { d with ops := d.ops ++ [.flush] }

/-! ### Buffers -/

/-- Changes the buffer of `sector`; a sector without one is read into a slot first. -/
def store (sector : Nat) (f : ApaCache → ApaCache) (d : Device) : Device :=
  match findBuf d.cache sector with
  | some _ => { d with cache := mapBuf sector f d.cache }
  | none =>
    match apaReadHeader d.disk sector with
    | some header => { d with cache := d.cache ++ [f ⟨sector, header, false, 0⟩] }
    | none => d

@[simp] theorem store_disk (sector : Nat) (f : ApaCache → ApaCache) (d : Device) :
    (store sector f d).disk = d.disk := by
  unfold store
  split
  · rfl
  · split <;> rfl

@[simp] theorem store_badWrite (sector : Nat) (f : ApaCache → ApaCache) (d : Device) :
    (store sector f d).badWrite = d.badWrite := by
  unfold store
  split
  · rfl
  · split <;> rfl

@[simp] theorem store_clock (sector : Nat) (f : ApaCache → ApaCache) (d : Device) :
    (store sector f d).clock = d.clock := by
  unfold store
  split
  · rfl
  · split <;> rfl

@[simp] theorem store_ops (sector : Nat) (f : ApaCache → ApaCache) (d : Device) :
    (store sector f d).ops = d.ops := by
  unfold store
  split
  · rfl
  · split <;> rfl

@[simp] theorem store_journalBuf (sector : Nat) (f : ApaCache → ApaCache) (d : Device) :
    (store sector f d).journalBuf = d.journalBuf := by
  unfold store
  split
  · rfl
  · split <;> rfl

/-- The header a buffer of `sector` holds, or the one a read would bring into it. -/
def view (d : Device) (sector : Nat) : Option ApaHeader :=
  match findBuf d.cache sector with
  | some b => some b.header
  | none => apaReadHeader d.disk sector

/-- `clink->header`, where `clink` is the buffer of a sector. -/
def header (d : Device) (clink : Nat) : ApaHeader := (d.view clink).getD default

/-- An assignment to fields of `clink->header`. -/
def setHeader (clink : Nat) (f : ApaHeader → ApaHeader) (d : Device) : Device :=
  store clink (fun b => { b with header := f b.header }) d

/-- `clink->flags |= APA_CACHE_FLAG_DIRTY` -/
def setDirty (clink : Nat) (d : Device) : Device :=
  store clink (fun b => { b with dirty := true }) d

/-! ### `journal.c` -/

def apaJournalFlush (d : Device) : Int × Device :=
  let r := ataWrite APA_SECTOR_APAL [d.journalBuf.toSector] d.ataFlushCache
  if r.1 ≠ 0 then (- EIO, r.2) else (0, r.2.ataFlushCache)

def apaJournalReset (d : Device) : Int × Device :=
  apaJournalFlush { d with journalBuf := ApaJournal.reset }

def apaJournalWrite (clink : ApaCache) (d : Device) : Int × Device :=
  let header := clink.header.sealed
  let d := setHeader clink.sector (fun _ => header) d
  let r := ataWrite ((2 * d.journalBuf.num).toNat + APA_SECTOR_APAL_HEADERS)
    [header.first, header.second] d
  if r.1 ≠ 0 then (- EIO, r.2)
  else (0, { r.2 with journalBuf := r.2.journalBuf.push clink.sector })

/-- The loop of `apaJournalRestore` from copy `i` on, `n` copies at most: the code of the first transfer that fails, or 0. -/
def restoreLoop : Nat → Nat → Device → Int × Device
  | 0, _, d => (0, d)
  | n + 1, i, d =>
    match ataRead (2 * i + APA_SECTOR_APAL_HEADERS) 2 d with
    | none => (- EIO, d)
    | some copy =>
      let sector := if h : i < 126 then d.journalBuf.sectors ⟨i, h⟩ else 0
      let r := ataWrite sector copy d
      if r.1 ≠ 0 then (- EIO, r.2) else restoreLoop n (i + 1) r.2

def apaJournalRestore (d : Device) : Int × Device :=
  match d.disk APA_SECTOR_APAL with
  | none => apaJournalReset d
  | some s =>
    let journal := ApaJournal.ofSector s
    let d := { d with journalBuf := journal }
    if journal.magic = APAL_MAGIC then
      if journal.num = 0 then (0, d)
      else apaJournalReset (restoreLoop journal.num.toNat 0 d).2
    else apaJournalReset d

/-! ### `cache.c` -/

def apaSaveError (lba err_lba : Nat) (d : Device) : Device :=
  (ataWrite lba [fun i => if i.val = 0 then err_lba else 0] d).2.ataFlushCache

/-- `apaCacheTransfer(clink, APA_IO_MODE_WRITE)` -/
def apaCacheTransferWrite (clink : ApaCache) (d : Device) : Int × Device :=
  let r := ataWrite clink.sector [clink.header.first, clink.header.second] d
  (if r.1 ≠ 0 then - EIO else 0,
    store clink.sector (fun b => { b with dirty := false }) r.2)

/-- One of the two loops of `apaCacheFlushAllDirty` over the buffers. -/
def forDirty (f : ApaCache → Device → Int × Device) (bufs : List ApaCache) (d : Device) : Device :=
  bufs.foldl (fun d b => if b.dirty then (f b d).2 else d) d

def apaCacheFlushAllDirty (d : Device) : Int × Device :=
  let d := forDirty apaJournalWrite d.cache d
  let d := d.apaJournalFlush.2
  let d := forDirty apaCacheTransferWrite d.cache d
  apaJournalReset d

/-- `apaCacheGetHeader(device, sector, APA_IO_MODE_READ, &result)`: the buffer, or the error in `result`. A header that cannot be read is noted in the error sector. -/
def apaCacheGetHeader (sector : Nat) (d : Device) : Except Int Nat × Device :=
  match findBuf d.cache sector with
  | some _ => (.ok sector, store sector (fun b => { b with nused := b.nused + 1 }) d)
  | none =>
    match apaReadHeader d.disk sector with
    | some _ => (.ok sector, store sector (fun b => { b with nused := 1 }) d)
    | none => (.error (- EIO), apaSaveError APA_SECTOR_SECTOR_ERROR sector d)

/-- `apaCacheGetHeader(device, sector, APA_IO_MODE_WRITE, &result)`: the buffer without a read. -/
def apaCacheGetHeaderWrite (sector : Nat) (d : Device) : Device :=
  match findBuf d.cache sector with
  | some _ => store sector (fun b => { b with nused := b.nused + 1 }) d
  | none => { d with cache := d.cache ++ [⟨sector, default, false, 1⟩] }

/-- `apaCacheFree` of a buffer; one that is not in use is left alone. -/
def apaCacheFree (clink : Nat) (d : Device) : Device :=
  store clink (fun b => if b.nused = 0 then b else { b with nused := b.nused - 1 }) d

def apaGetTime (d : Device) : Fin 2 → Nat := d.clock d.ops.length

end Device

end HddChecker.Apa
