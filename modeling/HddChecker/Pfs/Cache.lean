import HddChecker.Pfs.Journal

/-!
# The cache of metadata blocks

`pfsCacheGetData` looks for a block among the buffers and loads it into the first free one if it is not there. A descriptor is checked as it is loaded: `pfsCacheTransfer` knows whether it was read and carries its magic number and checksum, and answers with the error of the mount. The cache serves one mount.
-/

namespace HddChecker.Pfs.Journal

open HddChecker

def PFS_SEGD_MAGIC : Nat := 0x53454744
def PFS_SEGI_MAGIC : Nat := 0x53454749
def PFS_CACHE_FLAG_NOLOAD : UInt16 := 0x02
def PFS_CACHE_FLAG_MASKSTATUS : UInt16 := 0x0F
def PFS_CACHE_FLAG_MASKTYPE : UInt16 := 0xF0

abbrev ENOMEM : Int := 12

/-- The buffers with their use counts, and the ring of the free ones from its head on. -/
structure Buffers where
  drive : Drive
  nused : Nat → Nat
  free : List Nat

def hasMagic (flags : UInt16) (data : Block) : Bool :=
  !(flags &&& PFS_CACHE_FLAG_SEGD != 0 && word data 1 != PFS_SEGD_MAGIC) &&
    !(flags &&& PFS_CACHE_FLAG_SEGI != 0 && word data 1 != PFS_SEGI_MAGIC)

/-- What `pfsCacheTransfer` checks about a block that was read. -/
def checkBlock (clink : pfs_cache_t) : Int :=
  if !hasMagic clink.flags clink.data then - EIO
  else if clink.isInode && word clink.data 0 != pfsInodeCheckSum clink.data then - EIO
  else 0

/-- `pfsCacheTransfer` in read mode: the error of the mount, and the buffer. -/
def pfsCacheTransferRead (clink : pfs_cache_t) (d : Drive) : Int × pfs_cache_t × Drive :=
  let clean (clink : pfs_cache_t) := { clink with flags := clink.flags &&& ~~~ PFS_CACHE_FLAG_DIRTY }
  if d.lastError = 0 then
    let (err, clink) : Int × pfs_cache_t := match d.readBlock clink.sub clink.sector with
      | none => (- EIO, clink)
      | some data => (checkBlock { clink with data := data }, { clink with data := data })
    if err ≠ 0 && d.errorStat then
      let (data, d) := pfsFsckStat PFS_FSCK_STAT_WRITE_ERROR clink.data d
      (err, clean { clink with data := data }, { d with lastError := err })
    else (d.lastError, clean clink, d)
  else (d.lastError, clean clink, d)

/-- The buffer that holds the block. -/
def findBlock (m : pfs_mount_t) (sub block : Nat) (b : Buffers) : Option Nat :=
  b.drive.pfsCacheBuf.findIdx? fun clink =>
    clink.pfsMount != 0 && clink.pfsMount == m.self && clink.block == block && clink.sub == sub

def modifyBuffer (i : Nat) (f : pfs_cache_t → pfs_cache_t) (d : Drive) : Drive :=
  { d with pfsCacheBuf := d.pfsCacheBuf.modify i f }

/-- The drive once the buffer that is given up has been written back. -/
def giveUp (m : pfs_mount_t) (i : Nat) (d : Drive) : Drive :=
  match d.pfsCacheBuf[i]? with
  | some allocated =>
    if allocated.pfsMount ≠ 0 ∧ allocated.flags &&& PFS_CACHE_FLAG_DIRTY ≠ 0 then pfsCacheFlushAllDirty m d else d
  | none => d

def pfsCacheAlloc (m : pfs_mount_t) (sub block : Nat) (flags : UInt16) (b : Buffers) : Int × Option Nat × Buffers :=
  match b.free with
  | [] => (- ENOMEM, none, b)
  | i :: free =>
    let drive := modifyBuffer i (fun clink => { clink with
      flags := flags &&& PFS_CACHE_FLAG_MASKTYPE, pfsMount := m.self, sub := sub, block := block }) (giveUp m i b.drive)
    (0, some i, ⟨drive, Function.update b.nused i 1, free⟩)

/-- `pfsCacheFree` of a buffer without a mount, which becomes the first of the ring. -/
def freeInvalid (i : Nat) (b : Buffers) : Buffers :=
  let b := { b with nused := Function.update b.nused i (b.nused i - 1) }
  if b.nused i ≠ 0 then b else { b with free := i :: b.free }

/-- `pfsCacheGetData`: the result, and the buffer. -/
def pfsCacheGetData (m : pfs_mount_t) (sub block : Nat) (flags : UInt16) (b : Buffers) : Int × Option Nat × Buffers :=
  match findBlock m sub block b with
  | some i =>
    let drive := modifyBuffer i (fun clink => { clink with
      flags := clink.flags &&& PFS_CACHE_FLAG_MASKSTATUS ||| flags &&& PFS_CACHE_FLAG_MASKTYPE }) b.drive
    let free := if b.nused i = 0 then b.free.erase i else b.free
    (0, some i, ⟨drive, Function.update b.nused i (b.nused i + 1), free⟩)
  | none =>
    match pfsCacheAlloc m sub block flags b with
    | (result, none, b) => (result, none, b)
    | (_, some i, b) =>
      if flags &&& PFS_CACHE_FLAG_NOLOAD ≠ 0 then (0, some i, b)
      else
        match b.drive.pfsCacheBuf[i]? with
        | none => (0, none, b)
        | some clink =>
          let (result, clink, d) := pfsCacheTransferRead clink b.drive
          let b := { b with drive := modifyBuffer i (fun _ => clink) d }
          if 0 ≤ result then (result, some i, b)
          else
            let b := { b with drive := modifyBuffer i (fun clink => { clink with pfsMount := 0 }) b.drive }
            (result, none, freeInvalid i b)

/-! ### The error of the mount -/

variable {m : pfs_mount_t} {d : Drive} {b : Buffers} {sub block i : Nat} {flags : UInt16}

/-- The error of the mount, the way the driver was built and the number of buffers stay. -/
structure SameError (d d' : Drive) : Prop where
  lastError : d'.lastError = d.lastError
  errorStat : d'.errorStat = d.errorStat
  length : d'.pfsCacheBuf.length = d.pfsCacheBuf.length

theorem SameError.refl (d : Drive) : SameError d d := ⟨rfl, rfl, rfl⟩

theorem SameError.trans {d₁ d₂ d₃ : Drive} (h : SameError d₁ d₂) (h' : SameError d₂ d₃) : SameError d₁ d₃ :=
  ⟨h'.lastError.trans h.lastError, h'.errorStat.trans h.errorStat, h'.length.trans h.length⟩

theorem sameError_write (sub sector : Nat) (data : List Sector) (d : Drive) : SameError d (d.write sub sector data).2 := by
  unfold Drive.write
  simp only
  split
  · exact SameError.refl d
  · exact ⟨rfl, rfl, rfl⟩

theorem sameError_journalReset (m : pfs_mount_t) (d : Drive) : SameError d (pfsJournalReset m d).2 := by
  have hwrite := sameError_write 0 m.logStart [pfs_journal_t.reset.toBlock.1, pfs_journal_t.reset.toBlock.2]
    { d with pfsJournalBuf := .reset }.flushCache
  exact ⟨hwrite.lastError, hwrite.errorStat, hwrite.length⟩

private theorem sameError_journalFlush (m : pfs_mount_t) (d : Drive) : SameError d (pfsJournalFlush m d).2 := by
  unfold pfsJournalFlush
  have hwrite := fun data d' => sameError_write 0 m.logStart data d'
  exact ⟨(hwrite _ _).lastError, (hwrite _ _).errorStat, (hwrite _ _).length⟩

private theorem journalLoop_length (m : pfs_mount_t) (i : Nat) (cache : List pfs_cache_t) (j : pfs_journal_t) :
    (journalLoop m i cache j).1.length = cache.length := by
  induction cache generalizing i j with
  | nil => rfl
  | cons clink rest ih =>
    rw [journalLoop]
    split
    · exact congrArg (· + 1) (ih _ _)
    · exact congrArg (· + 1) (ih _ _)

private theorem sameError_journalWrite (m : pfs_mount_t) (d : Drive) : SameError d (pfsJournalWrite m d) := by
  unfold pfsJournalWrite
  have hlength := journalLoop_length m 0 d.pfsCacheBuf d.pfsJournalBuf
  generalize journalLoop m 0 d.pfsCacheBuf d.pfsJournalBuf = q at hlength
  obtain ⟨cache, j⟩ := q
  simp only
  have hwrite := sameError_write 0 (u32 (m.logStart + 2))
    (cache.flatMap fun clink : pfs_cache_t => [clink.data.1, clink.data.2])
    { d with pfsCacheBuf := cache, pfsJournalBuf := j }
  have hsame : SameError d ({ d with pfsCacheBuf := cache, pfsJournalBuf := j } : Drive) := ⟨rfl, rfl, hlength⟩
  generalize Drive.write 0 (u32 (m.logStart + 2))
    (cache.flatMap fun clink : pfs_cache_t => [clink.data.1, clink.data.2])
    { d with pfsCacheBuf := cache, pfsJournalBuf := j } = w at hwrite ⊢
  split
  · exact hsame.trans (hwrite.trans (sameError_journalFlush m _))
  · exact hsame.trans hwrite

private theorem sameError_transfer (clink : pfs_cache_t) (h : d.errorStat = false) : SameError d (pfsCacheTransfer clink d).2 := by
  unfold pfsCacheTransfer
  have hwrite := sameError_write clink.sub clink.sector [clink.data.1, clink.data.2] d
  split
  · generalize d.write clink.sub clink.sector [clink.data.1, clink.data.2] = w at hwrite ⊢
    obtain ⟨err, d'⟩ := w
    have hstat : d'.errorStat = false := hwrite.errorStat.trans h
    simp only [hstat, Bool.and_false, Bool.false_eq_true, if_false]
    exact hwrite
  · exact SameError.refl d

private theorem sameError_transferLoop (m : pfs_mount_t) (cache : List pfs_cache_t) (h : d.errorStat = false) :
    SameError d (transferLoop m cache d).2 ∧ (transferLoop m cache d).1.length = cache.length := by
  induction cache generalizing d with
  | nil => exact ⟨SameError.refl d, rfl⟩
  | cons clink rest ih =>
    rw [transferLoop]
    simp only
    split
    · have hone := sameError_transfer clink h
      obtain ⟨hrest, hlength⟩ := ih (hone.errorStat.trans h)
      exact ⟨hone.trans hrest, congrArg (· + 1) hlength⟩
    · obtain ⟨hrest, hlength⟩ := ih h
      exact ⟨hrest, congrArg (· + 1) hlength⟩

private theorem sameError_flush (m : pfs_mount_t) (h : d.errorStat = false) : SameError d (pfsCacheFlushAllDirty m d) := by
  unfold pfsCacheFlushAllDirty
  simp only
  split
  · have hwrite := sameError_journalWrite m d
    obtain ⟨hloop, hlength⟩ := sameError_transferLoop m (pfsJournalWrite m d).pfsCacheBuf (hwrite.errorStat.trans h)
    have hreset := sameError_journalReset m { (transferLoop m (pfsJournalWrite m d).pfsCacheBuf (pfsJournalWrite m d)).2 with
      pfsCacheBuf := (transferLoop m (pfsJournalWrite m d).pfsCacheBuf (pfsJournalWrite m d)).1 }
    exact hwrite.trans ⟨hreset.lastError.trans hloop.lastError, hreset.errorStat.trans hloop.errorStat,
      hreset.length.trans hlength⟩
  · exact sameError_journalReset m d

private theorem sameError_giveUp (m : pfs_mount_t) (i : Nat) (h : d.errorStat = false) : SameError d (giveUp m i d) := by
  unfold giveUp
  split
  · split
    · exact sameError_flush m h
    · exact SameError.refl d
  · exact SameError.refl d

/-! ### A block that is not cached -/

/-- The drive a block that is not cached is read from, if a buffer is free. -/
def readFrom (m : pfs_mount_t) (b : Buffers) : Drive := giveUp m (b.free.headD 0) b.drive

/-- The transfer succeeds, and the block has the magic number of its kind and a correct checksum. -/
def Sealed (sub block : Nat) (flags : UInt16) (d : Drive) : Prop := ∃ data,
  d.readBlock sub (u32 (block * 2)) = some data ∧ hasMagic flags data = true ∧ word data 0 = pfsInodeCheckSum data

/-- A block that is not cached is detected: a buffer is returned only if the block was read and is sealed, and otherwise a negative result. -/
def Detects (m : pfs_mount_t) (sub block : Nat) (flags : UInt16) (b : Buffers) (r : Int × Option Nat × Buffers) : Prop :=
  (r.2.1.isSome = true → (readFrom m b).lastError = 0 ∧ Sealed sub block flags (readFrom m b)) ∧
    (¬ ((readFrom m b).lastError = 0 ∧ Sealed sub block flags (readFrom m b)) → r.2.1 = none ∧ r.1 < 0)

def Descriptor (flags : UInt16) : Prop :=
  flags &&& (PFS_CACHE_FLAG_SEGD ||| PFS_CACHE_FLAG_SEGI) ≠ 0 ∧ flags &&& PFS_CACHE_FLAG_NOLOAD = 0

private theorem pfsCacheTransferRead_result (clink : pfs_cache_t) (h : d.errorStat = false) :
    (pfsCacheTransferRead clink d).1 = d.lastError := by
  unfold pfsCacheTransferRead
  simp only [h, Bool.and_false, Bool.false_eq_true, if_false]
  split <;> rfl

private theorem pfsCacheGetData_result (hstat : b.drive.errorStat = false) (hload : flags &&& PFS_CACHE_FLAG_NOLOAD = 0)
    (hmiss : findBlock m sub block b = none) (hfree : ∀ i ∈ b.free, i < b.drive.pfsCacheBuf.length) :
    (b.free = [] → (pfsCacheGetData m sub block flags b).1 = - ENOMEM ∧
      (pfsCacheGetData m sub block flags b).2.1 = none) ∧
    (b.free ≠ [] → (pfsCacheGetData m sub block flags b).1 = (readFrom m b).lastError ∧
      ((pfsCacheGetData m sub block flags b).2.1.isSome = true ↔ 0 ≤ (readFrom m b).lastError)) := by
  unfold pfsCacheGetData
  rw [hmiss]
  constructor
  · intro hnone
    simp only [pfsCacheAlloc, hnone, and_self]
  · intro hsome
    obtain ⟨i, free, hlist⟩ := List.exists_cons_of_ne_nil hsome
    have hdrive : readFrom m b = giveUp m i b.drive := by
      rw [readFrom, hlist]
      rfl
    have herror := sameError_giveUp m i hstat
    have hi : i < (giveUp m i b.drive).pfsCacheBuf.length := by
      rw [herror.length]
      exact hfree i (hlist ▸ List.mem_cons_self)
    have hnoload : ¬ flags &&& PFS_CACHE_FLAG_NOLOAD ≠ 0 := fun hne => hne hload
    rw [hdrive]
    simp only [pfsCacheAlloc, hlist, if_neg hnoload]
    generalize giveUp m i b.drive = d at hi herror ⊢
    have hbuf : ∃ clink, (modifyBuffer i (fun clink => { clink with
        flags := flags &&& PFS_CACHE_FLAG_MASKTYPE, pfsMount := m.self, sub := sub, block := block }) d).pfsCacheBuf[i]? =
        some clink := by
      refine ⟨_, List.getElem?_eq_getElem ?_⟩
      simpa only [modifyBuffer, List.length_modify] using hi
    obtain ⟨clink, hclink⟩ := hbuf
    rw [hclink]
    have hresult := pfsCacheTransferRead_result (d := modifyBuffer i (fun clink => { clink with
      flags := flags &&& PFS_CACHE_FLAG_MASKTYPE, pfsMount := m.self, sub := sub, block := block }) d) clink
      (herror.errorStat.trans hstat)
    have hlast : (modifyBuffer i (fun clink => { clink with
      flags := flags &&& PFS_CACHE_FLAG_MASKTYPE, pfsMount := m.self, sub := sub, block := block }) d).lastError =
      d.lastError := rfl
    rw [hlast] at hresult
    simp only [hresult]
    by_cases hneg : 0 ≤ d.lastError
    · simp only [hneg, if_true, Option.isSome_some, and_self]
    · simp only [hneg, if_false, Option.isSome_none, Bool.false_eq_true, and_self]

/-- In the build that does not note errors a descriptor that cannot be read or is damaged is detected exactly if no buffer is free, if the mount has an error already, or if there is nothing to detect. -/
theorem pfsCacheGetData_detects_iff (hstat : b.drive.errorStat = false) (hflags : Descriptor flags)
    (hmiss : findBlock m sub block b = none) (hfree : ∀ i ∈ b.free, i < b.drive.pfsCacheBuf.length) :
    Detects m sub block flags b (pfsCacheGetData m sub block flags b) ↔
      b.free = [] ∨ (readFrom m b).lastError < 0 ∨
        ((readFrom m b).lastError = 0 ∧ Sealed sub block flags (readFrom m b)) := by
  obtain ⟨hfull, hsome⟩ := pfsCacheGetData_result hstat hflags.2 hmiss hfree
  by_cases hnone : b.free = []
  · obtain ⟨hresult, hbuffer⟩ := hfull hnone
    refine ⟨fun _ => .inl hnone, fun _ => ⟨?_, fun _ => ⟨hbuffer, ?_⟩⟩⟩
    · rw [hbuffer]
      exact nofun
    · rw [hresult]
      decide
  · obtain ⟨hresult, hbuffer⟩ := hsome hnone
    by_cases hneg : (readFrom m b).lastError < 0
    · have hnobuffer : (pfsCacheGetData m sub block flags b).2.1 = none := by
        rw [← Option.not_isSome_iff_eq_none, hbuffer]
        exact Int.not_le.mpr hneg
      refine ⟨fun _ => .inr (.inl hneg), fun _ => ⟨?_, fun _ => ⟨hnobuffer, ?_⟩⟩⟩
      · rw [hnobuffer]
        exact nofun
      · rw [hresult]
        exact hneg
    · have hbuffer := hbuffer.mpr (Int.not_lt.mp hneg)
      constructor
      · intro hdetects
        exact .inr (.inr (hdetects.1 hbuffer))
      · intro hor
        have hsealed := (hor.resolve_left hnone).resolve_left hneg
        exact ⟨fun _ => hsealed, fun hnot => absurd hsealed hnot⟩

/-- A cache of one free buffer over a disk whose sectors all are this one. -/
def oneBuffer (sector : Sector) (fails : Bool) : Buffers where
  drive := ⟨fun _ => sector, fun _ => fails, false, [],
    [⟨0, 0, 0, 0, (fun _ => 0, fun _ => 0)⟩], .reset, 0⟩
  nused _ := 0
  free := [0]

/-- A sector whose words have the sum 0, with the magic number of a descriptor. -/
def segdSector : Sector := fun i => if i.val = 1 then PFS_SEGD_MAGIC else if i.val = 2 then 2 ^ 32 - PFS_SEGD_MAGIC else 0

/-- A descriptor that is as it should be. -/
theorem pfsCacheGetData_detects_segd : Detects ⟨1, 0, 0⟩ 0 4 PFS_CACHE_FLAG_SEGD (oneBuffer segdSector false)
    (pfsCacheGetData ⟨1, 0, 0⟩ 0 4 PFS_CACHE_FLAG_SEGD (oneBuffer segdSector false)) := by
  refine (pfsCacheGetData_detects_iff rfl ⟨by decide, by decide⟩ (by decide) (by decide)).mpr (.inr (.inr ⟨by decide, ?_⟩))
  exact ⟨(segdSector, segdSector), rfl, by decide, by decide +kernel⟩

/-- A disk that cannot be read at all: the buffer is returned with what was in it. -/
theorem pfsCacheGetData_not_detects : ¬ ∀ (m : pfs_mount_t) (b : Buffers) (sub block : Nat) (flags : UInt16),
    b.drive.errorStat = false → Descriptor flags → findBlock m sub block b = none →
    (∀ i ∈ b.free, i < b.drive.pfsCacheBuf.length) →
    Detects m sub block flags b (pfsCacheGetData m sub block flags b) := by
  intro h
  have hdetects := h ⟨1, 0, 0⟩ (oneBuffer segdSector true) 0 4 PFS_CACHE_FLAG_SEGD rfl ⟨by decide, by decide⟩
    (by decide) (by decide)
  obtain ⟨-, data, hread, -⟩ := hdetects.1 (by decide)
  cases hread

end HddChecker.Pfs.Journal
