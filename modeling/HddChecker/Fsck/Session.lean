import HddChecker.Fsck.Counters

/-!
# A session of fsck

`FsckOpen` checks the superblock and the bitmaps and may repair both before it clears the runtime data that the thread goes on with. A session is an opening and, where that succeeds, a run of the thread.
-/

namespace HddChecker.Fsck

open HddChecker Prog Pfs

abbrev ENXIO : Int := 6
abbrev APA_TYPE_PFS : Nat := 0x0100
abbrev PFS_SUPER_MAGIC : Nat := 0x50465300
abbrev PFS_FORMAT_VERSION : Nat := 3
abbrev PFS_SUPER_BACKUP_SECTOR : Nat := 8193

structure Volume (σ : Type) extends Libpfs σ where
  /-- `StatData.mode` -/
  getstat : σ → Except Int Nat × σ
  pfsGetBlockDeviceTable : σ → Bool
  /-- `open(name, O_RDWR)` -/
  openDevice : σ → Int × σ
  getSubNumber : σ → Nat
  getSize : Nat → σ → Nat
  pfsJournalRestore : Mount → pfs_blockinfo_t → σ → Int × σ
  pfsBitmapCalcFreeZones : Mount → Nat → σ → Nat × σ

/-- `pfsGetScale`, for a number that is `size` times a power of two. -/
def pfsGetScale (num size : Nat) : Nat := Nat.log2 (num / size)

def pfsGetBitmapSizeSectors (zoneScale partSize : Nat) : Nat :=
  let zones := partSize / 2 ^ zoneScale
  let zones := zones / 8 + zones % 8
  zones / 512 + zones % 512

def pfsGetBitmapSizeBlocks (scale mainsize : Nat) : Nat :=
  let a := pfsGetBitmapSizeSectors scale mainsize
  a / 2 ^ scale + if 0 < a % 2 ^ scale then 1 else 0

/-- A `pfs_blockinfo_t` in two words of a buffer. -/
def blockinfoOf (words : Words) (i : Nat) : pfs_blockinfo_t :=
  ⟨words i, words (i + 1) % 2 ^ 16, words (i + 1) / 2 ^ 16⟩

/-- The zones of the partitions before one. -/
def zoneMap (sizes : Nat → Nat) (sector_scale : Nat) : Nat → Nat
  | 0 => 0
  | i + 1 => u32 (sizes i / 2 ^ sector_scale + zoneMap sizes sector_scale i)

/-- A filesystem whose opening came as far as the zones being counted. -/
structure Filesystem where
  mount : Mount
  log : pfs_blockinfo_t
  total_zones : Nat
  zfree : Nat

variable {σ : Type}

/-- The sectors of a bitmap block that cannot be read, each of which is overwritten. -/
def overwriteBitmap (D : Volume σ) (m : Mount) (i start : Nat) : Prog (Check σ) Int :=
  loop (fun (sector : Nat) => do
    if 2 ^ m.sector_scale ≤ sector then return .inr 0
    else if (← transferRead D.toLibpfs i (u32 (start + sector)) 1) < 0 then
      modify fun s => { s with IOBuffer := fun k => if k < 128 then 2 ^ 32 - 1 else s.IOBuffer k }
      let result ← transferWrite D.toLibpfs i (u32 (start + sector)) 1
      if result < 0 then return .inr result else return .inl (sector + 1)
    else return .inl (sector + 1)) 0

/-- The inner loop of `fsckCheckBitmap`: the result, negative where the check ends. -/
def checkBitmapBlocks (D : Volume σ) (m : Mount) (i : Nat) : Prog (Check σ) Int :=
  loop (fun (block : Nat) => do
    if pfsGetBitmapSizeBlocks m.sector_scale (m.ZoneSizes i) ≤ block then return .inr 0
    else
      let BitmapStart := block + 1 + if i = 0 then 0x2000 / 2 ^ m.sector_scale else 0
      let start := u32 (BitmapStart * 2 ^ m.sector_scale)
      let result ← transferRead D.toLibpfs i start (2 ^ m.sector_scale)
      if result < 0 then
        if ← fsckPromptUserAction true then
          let result ← overwriteBitmap D m i start
          if result < 0 then return .inr result else return .inl (block + 1)
        else return .inr result
      else return .inl (block + 1)) 0

def fsckCheckBitmap (D : Volume σ) (m : Mount) : Prog (Check σ) Int :=
  loop (fun (i : Nat) => do
    if m.num_subs < i then return .inr 0
    else
      let result ← checkBitmapBlocks D m i
      if result < 0 then return .inr result else return .inl (i + 1)) 0

/-- The superblock is read into `IOBuffer`, or its backup where that fails. -/
def loadSuper (D : Volume σ) : Prog (Check σ) Int := do
  let result ← transferRead D.toLibpfs 0 PFS_SUPER_SECTOR 1
  let s ← Prog.read id
  if result < 0 ∨ s.IOBuffer 0 ≠ PFS_SUPER_MAGIC then
    if (← transferRead D.toLibpfs 0 PFS_SUPER_BACKUP_SECTOR 1) ≠ 0 then return - EIO
    else
      let s ← Prog.read id
      if s.IOBuffer 0 ≠ PFS_SUPER_MAGIC then return - EIO
      else if ← fsckPromptUserAction true then transferWrite D.toLibpfs 0 PFS_SUPER_SECTOR 1
      else return - EIO
  else return 0

/-- The filesystem has no more sub-partitions than the partition. -/
def checkSubNumber (D : Volume σ) (num_subs : Nat) : Prog (Check σ) Int := do
  let s ← Prog.read id
  if num_subs < s.IOBuffer 5 then
    if ← fsckPromptUserAction true then
      modify fun s => { s with IOBuffer := Function.update s.IOBuffer 5 num_subs }
      transferWrite D.toLibpfs 0 PFS_SUPER_SECTOR 1
    else return - EINVAL
  else return 0

/-- The zones of the filesystem, and those of them that are free. -/
def countZones (D : Volume σ) (m : Mount) : Prog (Check σ) (Nat × Nat) :=
  loop (fun (x : Nat × Nat × Nat) => do
    let (i, total_zones, zfree) := x
    if m.num_subs < i then return .inr (total_zones, zfree)
    else
      let free ← pfsOp (D.pfsBitmapCalcFreeZones m i)
      return .inl (i + 1, u32 (total_zones + m.ZoneSizes i / 2 ^ m.sector_scale), u32 (zfree + free)))
    (0, 0, 0)

/-- The mount as the superblock in `words` has it, before the sizes of the partitions are asked for. -/
def mountOf (num_subs : Nat) (words : Words) : Mount where
  num_subs := num_subs
  sector_scale := pfsGetScale (words 4) 512
  inode_scale := pfsGetScale (words 4) 1024
  zsize := words 4
  root_dir := blockinfoOf words 8
  ZoneSizes _ := 0
  ZoneMap _ := 0

/-- The part of `CheckSuperBlock` behind the tests of the superblock. -/
def mountVolume (D : Volume σ) (num_subs : Nat) (super : Words) :
    Prog (Check σ) (Except Int Filesystem) := do
  let m := mountOf num_subs super
  let log := blockinfoOf super 6
  let result ← pfsOp (D.pfsJournalRestore m log)
  if result < 0 then return .error result
  else
    let sizes ← pfsShow fun p i => D.getSize i p
    let m := { m with ZoneSizes := sizes, ZoneMap := zoneMap sizes m.sector_scale }
    let result ← fsckCheckBitmap D m
    if result < 0 then return .error result
    else
      let (total_zones, zfree) ← countZones D m
      return .ok ⟨m, log, total_zones, zfree⟩

def CheckSuperBlock (D : Volume σ) : Prog (Check σ) (Except Int Filesystem) := do
  let num_subs ← pfsShow D.getSubNumber
  let result ← loadSuper D
  if result < 0 then return .error result
  else
    let s ← Prog.read id
    if PFS_FORMAT_VERSION < s.IOBuffer 1 then return .error (- EINVAL)
    else if s.IOBuffer 4 &&& (s.IOBuffer 4 - 1) ≠ 0 ∨ s.IOBuffer 4 < 0x800 ∨ 0x20000 < s.IOBuffer 4 then
      return .error (- EINVAL)
    else
      let result ← checkSubNumber D num_subs
      if result < 0 then return .error result
      else mountVolume D num_subs (← Prog.read (·.IOBuffer))

/-- How many zones at the head of a partition hold no inodes. -/
def headCount (m : Mount) (log : pfs_blockinfo_t) (i : Nat) : Nat :=
  pfsGetBitmapSizeBlocks m.sector_scale (m.ZoneSizes i) + 1 +
    if i = 0 then 0x2000 / 2 ^ m.sector_scale + log.count else 0

/-- The zones that hold no inodes are taken in the scratch bitmap. -/
def takeHeads (m : Mount) (log : pfs_blockinfo_t) : Prog (Check σ) Unit :=
  loop (fun (i : Nat) => do
    if m.num_subs < i then return .inr ()
    else
      let count := headCount m log i
      let result ← ofState fun s : Check σ =>
        let (result, scratch) := Fsck.fsckCheckZones (m.ZoneMap i) count s.scratch
        (result, { s with scratch := scratch })
      if result < 0 then return .inr ()
      else
        setStatus fun t => { t with inodeBlockCount := u32 (t.inodeBlockCount + count) }
        return .inl (i + 1)) 0

/-- `memset(&fsckRuntimeData, 0, ..)`; the stop flag is clear then as well. -/
def clearRuntimeData : Prog (Check σ) Unit :=
  modify fun s => { s with hasError := false, status := ⟨0, 0, 0, 0, 0, 0, 0⟩ }

/-- The part of `FsckOpen` behind the check of the superblock. -/
def startRuntime (f : Filesystem) : Prog (Check σ) (Except Int Mount) := do
  let initialized ← ofState fun s : Check σ =>
    let (initialized, scratch) := s.scratch.pfsBitmapPartInit f.total_zones
    (initialized, { s with scratch := scratch })
  if initialized then
    clearRuntimeData
    setStatus fun t => { t with zoneUsed := u32 (f.total_zones + 2 ^ 32 - f.zfree) }
    takeHeads f.mount f.log
    return .ok f.mount
  else return .error (- EIO)

/-- `FsckOpen` in a mode, where no filesystem is open yet. -/
def FsckOpen (D : Volume σ) (write auto : Bool) : Prog (Check σ) (Except Int Mount) := do
  modify fun s => { s with fsckWriteEnabled := write, fsckAutoMode := auto }
  match ← pfsOp D.getstat with
  | .error result => return .error result
  | .ok mode =>
    if mode ≠ APA_TYPE_PFS then return .error (- EINVAL)
    else if ← pfsShow D.pfsGetBlockDeviceTable then
      let blockfd ← pfsOp D.openDevice
      if blockfd < 0 then return .error blockfd
      else
        match ← CheckSuperBlock D with
        | .error result => return .error result
        | .ok f => startRuntime f
    else return .error (- ENXIO)

/-! ### Errors that are reported -/

variable {D : Volume σ} {m n : Mount} {I : Check σ → Prop}

private theorem overwriteBitmap_counts (hI : Prompting I) (i start : Nat) :
    Preserves I (overwriteBitmap D n i start) := by
  refine Preserves.loop (fun sector => ?_) _
  split
  · exact preserves_pure _
  · refine (transferRead_counts hI _ _ _).bind fun result => ?_
    split
    · refine (setBuffer_counts hI _).bind fun _ => (transferWrite_counts hI _ _ _).bind fun result => ?_
      split <;> exact preserves_pure _
    · exact preserves_pure _

private theorem checkBitmapBlocks_counts (hI : Prompting I) (i : Nat) :
    Preserves I (checkBitmapBlocks D n i) := by
  refine Preserves.loop (fun block => ?_) _
  dsimp only
  split
  · exact preserves_pure _
  · refine (transferRead_counts hI _ _ _).bind fun result => ?_
    split
    · refine hI.prompt.bind fun fix => ?_
      split
      · refine (overwriteBitmap_counts hI _ _).bind fun result => ?_
        split <;> exact preserves_pure _
      · exact preserves_pure _
    · exact preserves_pure _

private theorem fsckCheckBitmap_counts (hI : Prompting I) : Preserves I (fsckCheckBitmap D n) := by
  refine Preserves.loop (fun i => ?_) _
  split
  · exact preserves_pure _
  · refine (checkBitmapBlocks_counts hI _).bind fun result => ?_
    split <;> exact preserves_pure _

private theorem loadSuper_counts (hI : Prompting I) : Preserves I (loadSuper D) := by
  refine (transferRead_counts hI _ _ _).bind fun result => (preserves_read _).bind fun s => ?_
  split
  · refine (transferRead_counts hI _ _ _).bind fun result => ?_
    split
    · exact preserves_pure _
    · refine (preserves_read _).bind fun s => ?_
      split
      · exact preserves_pure _
      · refine hI.prompt.bind fun fix => ?_
        split
        · exact transferWrite_counts hI _ _ _
        · exact preserves_pure _
  · exact preserves_pure _

private theorem checkSubNumber_counts (hI : Prompting I) (num_subs : Nat) :
    Preserves I (checkSubNumber D num_subs) := by
  refine (preserves_read _).bind fun s => ?_
  split
  · refine hI.prompt.bind fun fix => ?_
    split
    · exact (setBuffer_counts hI _).bind fun _ => transferWrite_counts hI _ _ _
    · exact preserves_pure _
  · exact preserves_pure _

private theorem countZones_counts (hI : Prompting I) : Preserves I (countZones D n) := by
  refine Preserves.loop (fun (i, total_zones, zfree) => ?_) _
  dsimp only
  split
  · exact preserves_pure _
  · exact (pfsOp_counts hI _).bind fun _ => preserves_pure _

private theorem mountVolume_counts (hI : Prompting I) (num_subs : Nat) (super : Words) :
    Preserves I (mountVolume D num_subs super) := by
  refine (pfsOp_counts hI _).bind fun result => ?_
  split
  · exact preserves_pure _
  · refine (pfsShow_counts hI _).bind fun sizes => (fsckCheckBitmap_counts hI).bind fun result => ?_
    split
    · exact preserves_pure _
    · exact (countZones_counts hI).bind fun _ => preserves_pure _

theorem CheckSuperBlock_counts (hI : Prompting I) : Preserves I (CheckSuperBlock D) := by
  refine (pfsShow_counts hI _).bind fun num_subs => (loadSuper_counts hI).bind fun result => ?_
  split
  · exact preserves_pure _
  · refine (preserves_read _).bind fun s => ?_
    split
    · exact preserves_pure _
    split
    · exact preserves_pure _
    · refine (checkSubNumber_counts hI _).bind fun result => ?_
      split
      · exact preserves_pure _
      · exact (preserves_read _).bind fun s => mountVolume_counts hI _ _

theorem takeHeads_counts (hI : Counting m I) (log : pfs_blockinfo_t) :
    Preserves I (takeHeads n log) := by
  refine Preserves.loop (fun i => ?_) _
  dsimp only
  split
  · exact preserves_pure _
  · refine Preserves.bind (preserves_ofState fun _ h => hI.look (.zones _ _) h) fun result => ?_
    split
    · exact preserves_pure _
    · refine (setStatus_counts hI.toPrompting (fun _ => by rfl) (fun _ => by rfl)).bind fun _ => ?_
      exact preserves_pure _

/-- A condition on the errors reported, which no variable of the module is about. -/
structure Reporting (m : Mount) (I : Check σ → Prop) : Prop extends Counting m I where
  clear : Preserves I clearRuntimeData
  mode : ∀ write auto,
    Preserves I (modify fun s => { s with fsckWriteEnabled := write, fsckAutoMode := auto })
  init : ∀ {s} total_zones, I s → I { s with scratch := (s.scratch.pfsBitmapPartInit total_zones).2 }

private theorem startRuntime_reports (hI : Reporting m I) (f : Filesystem) : Preserves I (startRuntime f) := by
  refine Preserves.bind (preserves_ofState fun _ h => hI.init _ h) fun initialized => ?_
  split
  · refine hI.clear.bind fun _ => ?_
    refine (setStatus_counts hI.toPrompting (fun _ => by rfl) (fun _ => by rfl)).bind fun _ => ?_
    exact (takeHeads_counts hI.toCounting _).bind fun _ => preserves_pure _
  · exact preserves_pure _

private theorem FsckOpen_reports (hI : Reporting m I) (write auto : Bool) :
    Preserves I (FsckOpen D write auto) := by
  have hcounts := hI.toPrompting
  refine (hI.mode write auto).bind fun _ => (pfsOp_counts hcounts _).bind fun mode => ?_
  split
  · exact preserves_pure _
  split
  · exact preserves_pure _
  · refine (pfsShow_counts hcounts _).bind fun table => ?_
    split
    · refine (pfsOp_counts hcounts _).bind fun blockfd => ?_
      split
      · exact preserves_pure _
      · refine (CheckSuperBlock_counts hcounts).bind fun f => ?_
        split
        · exact preserves_pure _
        · exact startRuntime_reports hI _
    · exact preserves_pure _

/-! ### The errors of a session -/

/-- Since so many were reported and repaired, no more errors were repaired than reported. -/
structure Since (reported repaired : Nat) (s : Check σ) : Prop where
  reported_le : reported ≤ s.reported
  repaired_le : repaired ≤ s.repaired
  le : s.repaired - repaired ≤ s.reported - reported

/-- The counters tell of the errors since then. -/
structure Tallied (reported repaired : Nat) (s : Check σ) : Prop extends Since reported repaired s where
  errorCount : s.status.errorCount = u32 (s.reported - reported)
  fixedErrorCount : s.status.fixedErrorCount = u32 (s.repaired - repaired)

/-- What a prompt does to the counts: one more is reported, and at most one more repaired. -/
theorem fsckPromptUserAction_cases (s : Check σ) :
    wlp (fsckPromptUserAction true) s fun _ s' =>
      s'.reported = s.reported + 1 ∧ s'.status.errorCount = u32 (s.status.errorCount + 1) ∧
        (s'.repaired = s.repaired ∧ s'.status.fixedErrorCount = s.status.fixedErrorCount ∨
          s'.repaired = s.repaired + 1 ∧
            s'.status.fixedErrorCount = u32 (s.status.fixedErrorCount + 1)) := by
  unfold fsckPromptUserAction countError countFixed setError
  simp only [wlp_modify_bind, wlp_read_bind, id]
  split
  · split
    · simp only [if_true, wlp_modify_bind]
      exact wlp_pure ⟨rfl, rfl, .inr ⟨rfl, rfl⟩⟩
    · refine wlp_ofState_bind.mpr ?_
      split
      · simp only [wlp_modify_bind]
        exact wlp_pure ⟨rfl, rfl, .inr ⟨rfl, rfl⟩⟩
      · simp only [wlp_modify_bind]
        exact wlp_pure ⟨rfl, rfl, .inl ⟨rfl, rfl⟩⟩
  · simp only [wlp_modify_bind]
    exact wlp_pure ⟨rfl, rfl, .inl ⟨rfl, rfl⟩⟩

theorem Since.prompt {r f : Nat} {s s' : Check σ} (h : Since r f s)
    (hreported : s'.reported = s.reported + 1)
    (hrepaired : s'.repaired = s.repaired ∨ s'.repaired = s.repaired + 1) : Since r f s' := by
  obtain ⟨hr, hf, hle⟩ := h
  constructor <;> omega

theorem since_reporting (r f : Nat) : Reporting (σ := σ) m (Since r f) where
  same h hsame := ⟨hsame.reported ▸ h.reported_le, hsame.repaired ▸ h.repaired_le,
    hsame.reported ▸ hsame.repaired ▸ h.le⟩
  prompt s h := (fsckPromptUserAction_cases s).mono fun _ _ hcases =>
    h.prompt hcases.1 (hcases.2.2.imp (·.1) (·.1))
  read h _ := ⟨h.reported_le, h.repaired_le, h.le⟩
  mark h _ := ⟨h.reported_le, h.repaired_le, h.le⟩
  use h _ := ⟨h.reported_le, h.repaired_le, h.le⟩
  look _ h := ⟨h.reported_le, h.repaired_le, h.le⟩
  clear := preserves_ofState fun _ h => ⟨h.reported_le, h.repaired_le, h.le⟩
  mode _ _ := preserves_ofState fun _ h => ⟨h.reported_le, h.repaired_le, h.le⟩
  init _ h := ⟨h.reported_le, h.repaired_le, h.le⟩

theorem u32_succ (a b : Nat) (h : a ≤ b) : u32 (u32 (b - a) + 1) = u32 (b + 1 - a) := by
  simp only [u32]
  omega

private theorem tallied_counting (r f : Nat) : Counting (σ := σ) m (Tallied r f) where
  same h hsame :=
    ⟨(since_reporting (m := m) r f).same h.toSince hsame, by rw [hsame.errorCount, hsame.reported, h.errorCount],
      by rw [hsame.fixedErrorCount, hsame.repaired, h.fixedErrorCount]⟩
  read h _ := ⟨⟨h.reported_le, h.repaired_le, h.le⟩, h.errorCount, h.fixedErrorCount⟩
  mark h _ := ⟨⟨h.reported_le, h.repaired_le, h.le⟩, h.errorCount, h.fixedErrorCount⟩
  use h _ := ⟨⟨h.reported_le, h.repaired_le, h.le⟩, h.errorCount, h.fixedErrorCount⟩
  look _ h := ⟨⟨h.reported_le, h.repaired_le, h.le⟩, h.errorCount, h.fixedErrorCount⟩
  prompt s h := (fsckPromptUserAction_cases s).mono fun _ s' ⟨hreported, herror, hcases⟩ => by
    refine ⟨h.toSince.prompt hreported (hcases.imp (·.1) (·.1)), ?_, ?_⟩
    · rw [herror, h.errorCount, hreported, u32_succ _ _ h.reported_le]
    · rcases hcases with ⟨hrepaired, hfixed⟩ | ⟨hrepaired, hfixed⟩
      · rw [hfixed, hrepaired, h.fixedErrorCount]
      · rw [hfixed, hrepaired, h.fixedErrorCount, u32_succ _ _ h.repaired_le]

def CountsClear (s : Check σ) : Prop := s.status.errorCount = 0 ∧ s.status.fixedErrorCount = 0

private theorem takeHeads_clear (log : pfs_blockinfo_t) : Preserves (CountsClear (σ := σ)) (takeHeads m log) := by
  refine Preserves.loop (fun i => ?_) _
  dsimp only
  split
  · exact preserves_pure _
  · refine Preserves.bind (preserves_ofState fun _ h => h) fun result => ?_
    split
    · exact preserves_pure _
    · exact (preserves_ofState fun _ h => h).bind fun _ => preserves_pure _

/-- An opening that succeeds leaves both counters at 0, whatever was reported. -/
theorem FsckOpen_clear (D : Volume σ) (write auto : Bool) (s : Check σ) :
    wlp (FsckOpen D write auto) s fun r s' => ∀ m, r = .ok m → CountsClear s' := by
  have herror : ∀ (err : Int) (s : Check σ), wlp (pure (.error err)) s
      fun (r : Except Int Mount) s' => ∀ m, r = .ok m → CountsClear s' :=
    fun err s => wlp_pure fun m heq => by cases heq
  have hstart : ∀ f (s : Check σ), wlp (startRuntime f) s
      fun r s' => ∀ m, r = .ok m → CountsClear s' := by
    intro f s
    refine wlp_bind_any fun initialized s' => ?_
    split
    · refine wlp_modify_bind.mpr (wlp_modify_bind.mpr (wlp_bind ?_))
      exact (takeHeads_clear _ _ ⟨rfl, rfl⟩).mono fun _ s'' h => wlp_pure fun _ _ => h
    · exact herror _ _
  refine wlp_bind_any fun _ s => wlp_bind_any fun mode s => ?_
  split
  · exact herror _ _
  split
  · exact herror _ _
  · refine wlp_bind_any fun table s => ?_
    split
    · refine wlp_bind_any fun blockfd s => ?_
      split
      · exact herror _ _
      · refine wlp_bind_any fun f s => ?_
        split
        · exact herror _ _
        · exact hstart _ _
    · exact herror _ _

/-! ### The mark in the superblock -/

/-- The sector of the superblock can be read and written at all times, and `stat` is what its `pfsFsckStat` is on the disk. -/
structure SuperSector (L : Libpfs σ) (stat : σ → Nat) : Prop where
  read : ∀ p, (L.transferRead 0 PFS_SUPER_SECTOR 1 p).1.1 = 0
  write : ∀ words p, stat (L.transferWrite 0 PFS_SUPER_SECTOR 1 words p).2 = words 3
  flush : ∀ p, stat (L.flushCache p) = stat p

variable {L : Libpfs σ} {stat : σ → Nat}

/-- The disk tells that errors were fixed, where some were. -/
def Marked (stat : σ → Nat) (s : Check σ) : Prop :=
  0 < s.status.fixedErrorCount → stat s.pfs &&& PFS_FSCK_STAT_ERRORS_FIXED ≠ 0

private theorem or_mark (n : Nat) : (n ||| PFS_FSCK_STAT_ERRORS_FIXED) &&& PFS_FSCK_STAT_ERRORS_FIXED ≠ 0 := by
  intro h
  have hmark : Nat.testBit PFS_FSCK_STAT_ERRORS_FIXED 1 = true := rfl
  have hbit := congrArg (fun k => k.testBit 1) h
  simp only [Nat.testBit_and, Nat.testBit_or, hmark, Bool.or_true, Bool.and_self] at hbit
  cases hbit

private theorem markFixed_marked (hsuper : SuperSector L stat) (s : Check σ) :
    wlp (markFixed L) s fun _ s' => Marked stat s' := by
  unfold markFixed
  refine wlp_read_bind.mpr ?_
  split
  · unfold updateSuper
    refine wlp_ofState_bind.mpr ?_
    rw [if_pos (hsuper.read _)]
    simp only [wlp_read_bind, if_true, wlp_modify_bind]
    refine wlp_ofState_bind.mpr (wlp_pure fun _ => ?_)
    dsimp only
    rw [hsuper.write]
    simpa using or_mark _
  · rename_i hnone
    exact wlp_pure fun hpos => by omega

private theorem FsckThread_marked (hsuper : SuperSector L stat) (s : Check σ) :
    wlp (FsckThread L m) s fun gaveUp s' => gaveUp = false → Marked stat s' := by
  refine wlp_bind_any fun result s => ?_
  split
  · exact wlp_pure fun h => by cases h
  · refine wlp_bind_any fun root s => ?_
    split
    · exact wlp_pure fun h => by cases h
    · refine wlp_bind_any fun _ s => wlp_bind_any fun _ s => wlp_bind_any fun _ s => ?_
      refine wlp_bind_any fun _ s => wlp_bind ?_
      refine wlp_bind_any fun _ s => wlp_bind_any fun _ s => wlp_bind ?_
      refine (markFixed_marked hsuper s).mono fun _ s' hmarked => ?_
      refine wlp_modify (wlp_pure fun _ hpos => ?_)
      change stat (L.flushCache s'.pfs) &&& PFS_FSCK_STAT_ERRORS_FIXED ≠ 0
      rw [hsuper.flush]
      exact hmarked hpos

/-! ### The account of a session -/

/-- The status behind a session tells of all errors reported since it was opened, and so does the superblock. -/
structure Accounted (stat : σ → Nat) (s : Check σ) (gaveUp : Bool) (s' : Check σ) : Prop where
  errorCount : (getStatus s').errorCount = s'.reported - s.reported
  fixedErrorCount : (getStatus s').fixedErrorCount = s'.repaired - s.repaired
  le : (getStatus s').fixedErrorCount ≤ (getStatus s').errorCount
  marked : gaveUp = false → Marked stat s'

/-- The errors of a session are accounted for exactly if none was reported while it was opened: the thread starts with both counters at 0. -/
theorem session_accounted_iff {D : Volume σ} (hsuper : SuperSector D.toLibpfs stat)
    {write auto : Bool} {s s₁ s₂ : Check σ} {m : Mount} {gaveUp : Bool}
    (hopen : Runs (FsckOpen D write auto) s (.ok m) s₁)
    (hthread : Runs (FsckThread D.toLibpfs m) s₁ gaveUp s₂)
    (hfew : s₂.reported - s.reported < 2 ^ 32) :
    Accounted stat s gaveUp s₂ ↔ s₁.reported = s.reported := by
  have hsince : Since s.reported s.repaired s₁ :=
    FsckOpen_reports (since_reporting (m := m) _ _) write auto s ⟨Nat.le_refl _, Nat.le_refl _, by omega⟩ _ _ hopen
  have hclear := FsckOpen_clear D write auto s _ _ hopen m rfl
  have htallied : Tallied s₁.reported s₁.repaired s₂ := by
    refine FsckThread_counts (tallied_counting _ _) s₁ ?_ _ _ hthread
    refine ⟨⟨Nat.le_refl _, Nat.le_refl _, by omega⟩, ?_, ?_⟩
    · rw [Nat.sub_self]
      exact hclear.1
    · rw [Nat.sub_self]
      exact hclear.2
  obtain ⟨hreported, hrepaired, hle⟩ := hsince
  obtain ⟨⟨hreported', hrepaired', hle'⟩, herror, hfixed⟩ := htallied
  have herror' : (getStatus s₂).errorCount = s₂.reported - s₁.reported :=
    herror.trans (Nat.mod_eq_of_lt (by omega))
  have hfixed' : (getStatus s₂).fixedErrorCount = s₂.repaired - s₁.repaired :=
    hfixed.trans (Nat.mod_eq_of_lt (by omega))
  constructor
  · intro h
    have hsame := herror'.symm.trans h.errorCount
    omega
  · intro hnone
    refine ⟨by omega, by omega, by omega, ?_⟩
    exact FsckThread_marked hsuper s₁ gaveUp s₂ hthread

/-! ### A damaged filesystem -/

/-- A superblock with this `pfsFsckStat`, of a filesystem with zones of 8 KB. -/
def superWords (stat : Nat) : Words
  | 0 => PFS_SUPER_MAGIC
  | 1 => PFS_FORMAT_VERSION
  | 3 => stat
  | 4 => 8192
  | _ => 0

/-- A filesystem whose state is the `pfsFsckStat` on its disk. The extended attribute of the partition cannot be read, the cache has no buffer left for the root directory, and the first superblock may be unreadable too. -/
def damaged (badSuper : Bool) : Volume Nat where
  sub _ _ := 0
  block _ _ := 0
  inode _ _ := ⟨⟨0, 0, 0⟩, ⟨0, 0, 0⟩, ⟨0, 0, 0⟩, fun _ => ⟨0, 0, 0⟩, 0, 0, 0, 0, 0, 0, 0⟩
  setInode _ _ := id
  dentry _ _ _ := ⟨0, 0, 0, 0, fun _ => 0⟩
  setDentry _ _ _ := id
  bitmap _ _ _ _ := false
  setBitmap _ _ _ := id
  zero _ := id
  setDirty _ := id
  pfsCacheGetData _ _ _ stat := (.error (- ENOMEM), stat)
  pfsCacheUsedAdd _ := id
  pfsCacheFree _ := id
  pfsCacheFlushAllDirty := id
  pfsInodeGetData _ _ stat := (.ok 0, stat)
  transferRead _ sector _ stat :=
    ((if badSuper && sector == PFS_SUPER_SECTOR then - EIO else 0, superWords stat), stat)
  transferWrite _ _ _ words _ := (0, words 3)
  flushCache := id
  getPartError := id
  rewind := id
  read _ stat := ((- EIO, fun _ => 0), stat)
  write size _ stat := (size, stat)
  getstat stat := (.ok APA_TYPE_PFS, stat)
  pfsGetBlockDeviceTable _ := true
  openDevice stat := (3, stat)
  getSubNumber _ := 0
  getSize _ _ := 0x40000
  pfsJournalRestore _ _ stat := (0, stat)
  pfsBitmapCalcFreeZones _ _ stat := (15000, stat)

private theorem damaged_super : SuperSector (damaged false).toLibpfs id := ⟨fun _ => rfl, fun _ _ => rfl, fun _ => rfl⟩

/-- The heads of the partitions are taken in the scratch bitmap, and nothing else changes. -/
theorem takeHeads_ends (m : Mount) (log : pfs_blockinfo_t) (s : Check σ) :
    wp (takeHeads m log) s fun _ s' => ∃ scratch n,
      s' = { s with scratch := scratch, status := { s.status with inodeBlockCount := n } } := by
  refine wp_loop (fun _ s' => ∃ scratch n,
    s' = { s with scratch := scratch, status := { s.status with inodeBlockCount := n } })
    (fun i _ => m.num_subs + 1 - i) ?_ ⟨s.scratch, s.status.inodeBlockCount, rfl⟩
  rintro i _ ⟨scratch, n, rfl⟩
  dsimp only
  split
  · refine wp_pure ?_
    exact ⟨scratch, n, rfl⟩
  · refine wp_ofState_bind.mpr ?_
    split
    · refine wp_pure ?_
      exact ⟨_, n, rfl⟩
    · refine wp_modify_bind.mpr (wp_pure ?_)
      exact ⟨⟨_, _, rfl⟩, by omega⟩

/-- The check as `FsckOpen` finds it. -/
def damagedCheck : Check Nat where
  pfs := 0
  scratch := Scratch.pfsBitmapInit (fun _ _ _ => false) fun _ => none
  IOBuffer _ := 0
  fsckWriteEnabled := true
  fsckAutoMode := true
  answers _ := true
  stop := none
  hasError := false
  status := ⟨0, 0, 0, 0, 0, 0, 0⟩
  reported := 0
  repaired := 0
  walk := []
  used := []

/-- The runtime data is clear behind an opening, but for what the heads of the partitions take. -/
theorem startRuntime_ends (f : Filesystem) (s : Check σ)
    (hinit : (s.scratch.pfsBitmapPartInit f.total_zones).1 = true) :
    wp (startRuntime f) s fun r s' => ∃ scratch n, r = .ok f.mount ∧ s' = { s with
      scratch := scratch
      hasError := false
      status := ⟨u32 (f.total_zones + 2 ^ 32 - f.zfree), n, 0, 0, 0, 0, 0⟩ } := by
  refine wp_ofState_bind.mpr ?_
  rw [if_pos hinit]
  refine wp_modify_bind.mpr (wp_modify_bind.mpr (wp_bind ?_))
  refine (takeHeads_ends _ _ _).mono ?_
  rintro _ _ ⟨scratch, n, rfl⟩
  exact wp_pure ⟨scratch, n, rfl, rfl⟩

def damagedFilesystem : Filesystem where
  mount :=
    { num_subs := 0
      sector_scale := 4
      inode_scale := 3
      zsize := 8192
      root_dir := ⟨0, 0, 0⟩
      ZoneSizes := fun _ => 0x40000
      ZoneMap := zoneMap (fun _ => 0x40000) 4 }
  log := ⟨0, 0, 0⟩
  total_zones := 16384
  zfree := 15000

/-- The check behind the tests of the superblock and the bitmap. -/
def damagedMounted (badSuper : Bool) : Check Nat :=
  { damagedCheck with
    IOBuffer := superWords 0
    status := ⟨0, 0, 0, 0, 0, badSuper.toNat, badSuper.toNat⟩
    reported := badSuper.toNat
    repaired := badSuper.toNat }

private theorem damaged_mounts (badSuper : Bool) :
    Runs (CheckSuperBlock (damaged badSuper)) damagedCheck (.ok damagedFilesystem)
      (damagedMounted badSuper) := by
  cases badSuper with
  | false => exact ⟨10, rfl⟩
  | true => exact ⟨10, rfl⟩

/-- The check behind its opening, where the heads of the partition were taken in the scratch bitmap. -/
def damagedOpen (badSuper : Bool) (scratch : Scratch) (inodeBlockCount : Nat) : Check Nat :=
  { damagedMounted badSuper with
    scratch := scratch
    hasError := false
    status := ⟨1384, inodeBlockCount, 0, 0, 0, 0, 0⟩ }

theorem damaged_opens (badSuper : Bool) :
    ∃ m scratch n, Runs (FsckOpen (damaged badSuper) true true) damagedCheck (.ok m)
      (damagedOpen badSuper scratch n) := by
  have hinit : ((damagedMounted badSuper).scratch.pfsBitmapPartInit damagedFilesystem.total_zones).1 =
      true := by
    have hcount : ¬ NUM_BITMAP_ENTRIES ≤ Scratch.bitmapCount damagedFilesystem.total_zones := by decide
    rw [Scratch.pfsBitmapPartInit, if_neg hcount]
  obtain ⟨_, _, hstart, scratch, n, rfl, rfl⟩ := startRuntime_ends damagedFilesystem _ hinit
  have hmode : Runs (modify fun s : Check Nat => { s with fsckWriteEnabled := true, fsckAutoMode := true })
      damagedCheck () damagedCheck := ⟨0, rfl⟩
  have hgetstat : Runs (pfsOp (damaged badSuper).getstat) damagedCheck (.ok APA_TYPE_PFS)
      damagedCheck := ⟨0, rfl⟩
  have htable : Runs (pfsShow (damaged badSuper).pfsGetBlockDeviceTable) damagedCheck true
      damagedCheck := ⟨0, rfl⟩
  have hdevice : Runs (pfsOp (damaged badSuper).openDevice) damagedCheck 3 damagedCheck := ⟨0, rfl⟩
  refine ⟨damagedFilesystem.mount, scratch, n, hmode.bind (hgetstat.bind ?_)⟩
  simp only [ne_eq, not_true_eq_false, if_false]
  refine htable.bind ?_
  rw [if_pos rfl]
  refine hdevice.bind ?_
  rw [if_neg (by decide)]
  exact (damaged_mounts badSuper).bind hstart

theorem damaged_checks (badSuper : Bool) (m : Mount) (scratch : Scratch) (n : Nat) :
    ∃ s, Runs (FsckThread (damaged badSuper).toLibpfs m) (damagedOpen badSuper scratch n) false s ∧
      s.status.errorCount = 1 ∧ s.reported = badSuper.toNat + 1 := by
  cases badSuper with
  | false => exact ⟨_, ⟨40, rfl⟩, rfl, rfl⟩
  | true => exact ⟨_, ⟨40, rfl⟩, rfl, rfl⟩

theorem session_accounted_damaged : ∃ m s₁ s₂,
    Runs (FsckOpen (damaged false) true true) damagedCheck (.ok m) s₁ ∧
      Runs (FsckThread (damaged false).toLibpfs m) s₁ false s₂ ∧ s₂.status.errorCount = 1 ∧
      Accounted id damagedCheck false s₂ := by
  obtain ⟨m, scratch, n, hopen⟩ := damaged_opens false
  obtain ⟨s₂, hthread, herror, hreported⟩ := damaged_checks false m scratch n
  refine ⟨m, _, s₂, hopen, hthread, herror, ?_⟩
  refine (session_accounted_iff damaged_super hopen hthread ?_).mpr rfl
  rw [hreported]
  decide

/-- The error found in the superblock is forgotten. -/
theorem session_unaccounted : ¬ ∀ (σ : Type) (D : Volume σ) (stat : σ → Nat) (write auto : Bool)
    (s s₁ s₂ : Check σ) (m : Mount) (gaveUp : Bool), Runs (FsckOpen D write auto) s (.ok m) s₁ →
    Runs (FsckThread D.toLibpfs m) s₁ gaveUp s₂ → Accounted stat s gaveUp s₂ := by
  intro h
  obtain ⟨m, scratch, n, hopen⟩ := damaged_opens true
  obtain ⟨s₂, hthread, herror, hreported⟩ := damaged_checks true m scratch n
  have hsame := (h Nat (damaged true) id true true _ _ s₂ m false hopen hthread).errorCount
  change s₂.status.errorCount = s₂.reported - 0 at hsame
  rw [herror, hreported] at hsame
  cases hsame

end HddChecker.Fsck
