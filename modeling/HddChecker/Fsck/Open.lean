import HddChecker.Pfs.Mount

/-!
# Opening a filesystem

`FsckOpen` and `FsskOpen` begin with the same steps: the status of the name, its type, the table of the block device and the device itself. From there on each checks and mounts the filesystem in its own way. A driver is followed in the handles it has open, in `MainPFSMount.fd` and `fd->privdata`, and in the use counts of its buffers.
-/

namespace HddChecker.Fsck.Opening

open HddChecker Prog Pfs

abbrev EBUSY : Int := 16

/-- What the system answers about a name: the result of `getstat` and `StatData.mode`, whether there is a table, and the result of `open`. -/
structure Answers where
  getstat : Int
  mode : Nat
  pfsGetBlockDeviceTable : Bool
  openDevice : Int

/-- A driver over the volume it works on. -/
structure Driver (σ μ : Type) where
  volume : σ
  /-- `MainPFSMount.fd` -/
  fd : Int
  /-- the handles of block devices that are open; no variable of the module -/
  handles : List Int
  /-- `fd->privdata` -/
  privdata : Option μ

/-- The device of the name is opened. -/
def Answers.Opens (a : Answers) : Prop :=
  0 ≤ a.getstat ∧ a.mode = APA_TYPE_PFS ∧ a.pfsGetBlockDeviceTable = true ∧ 0 ≤ a.openDevice

variable {σ μ : Type}

namespace Driver

/-- The steps up to `open`: the value that is returned where one of them fails, and else that of `result`. -/
def openBlockDevice (a : Answers) (s : Driver σ μ) : (Int ⊕ Int) × Driver σ μ :=
  if s.fd ≠ 0 then (.inl (- EBUSY), s)
  else if a.getstat < 0 then (.inl a.getstat, s)
  else if a.mode ≠ APA_TYPE_PFS then (.inl (- EINVAL), s)
  else if !a.pfsGetBlockDeviceTable then (.inl (- ENXIO), s)
  else if a.openDevice < 0 then (.inl a.openDevice, s)
  else (.inr a.getstat, { s with fd := a.openDevice, handles := a.openDevice :: s.handles })

/-- A program over the volume of the driver. -/
def onVolume {α : Type} (p : Prog σ α) : Prog (Driver σ μ) α :=
  zoom (·.volume) (fun volume s => { s with volume := volume }) p

/-- `MainPFSMount.fd = 0` -/
def forget (result : Int) : Prog (Driver σ μ) Int := do
  modify fun s => { s with fd := 0 }
  return result

/-- `fd->privdata` is set. -/
def succeed (m : Option μ) : Prog (Driver σ μ) Int := do
  modify fun s => { s with privdata := m }
  return 0

end Driver

open Opening.Driver

/-- The part of `FsckOpen` behind the opening of the device. -/
def checkVolume (D : Volume σ) : Prog (Check σ) (Except Int Mount) := do
  match ← CheckSuperBlock D with
  | .error result => return .error result
  | .ok f => startRuntime f

def Driver.FsckOpen (D : Volume σ) (a : Answers) (write auto : Bool) : Prog (Driver (Check σ) Mount) Int := do
  onVolume (modify fun s => { s with fsckWriteEnabled := write, fsckAutoMode := auto })
  match ← ofState (openBlockDevice a) with
  | .inl result => return result
  | .inr _ =>
    match ← onVolume (checkVolume D) with
    | .error result => forget result
    | .ok m => succeed (some m)

/-- `pfsMountSuperBlock` of a mount that was cleared. -/
def mountCleared (B : Commands.block_device_t) (v : Commands.Volume) : (Int × Option Commands.Mounted) × Commands.Volume :=
  let (mounted, m, v) := Commands.pfsMountSuperBlock B 0 { v with lastError := 0 }
  ((mounted, m), v)

/-- `FsskOpen`; `MainPFSMount` is cleared before the mount. What `result` holds where the mount fails is the value of `getstat`. -/
def Driver.FsskOpen (B : Commands.block_device_t) (a : Answers) : Prog (Driver Commands.Volume Commands.Mounted) Int := do
  match ← ofState (openBlockDevice a) with
  | .inl result => return result
  | .inr result =>
    let (mounted, m) ← onVolume (ofState (mountCleared B))
    if 0 ≤ mounted then succeed m else forget result

/-! ### The device and `libpfs` -/

/-- The transfers of the block device, whatever they do. -/
structure DeviceTransfers where
  read : Nat → Nat → Nat → FaultyDisk Sector → (Int × Words) × FaultyDisk Sector
  write : Nat → Nat → Nat → Words → FaultyDisk Sector → Int × FaultyDisk Sector

/-- What `FsckOpen` works on: the block device, the restoring of the log and the counting of the free zones, over the parts of `libpfs` that are used later. -/
def volumeOf (B : Commands.block_device_t) (T : DeviceTransfers) (L : Libpfs Commands.Volume) : Volume Commands.Volume :=
  { L with
    transferRead := fun sub sector size v =>
      let (r, disk) := T.read sub sector size v.disk
      (r, { v with disk := disk })
    transferWrite := fun sub sector size words v =>
      let (r, disk) := T.write sub sector size words v.disk
      (r, { v with disk := disk })
    getstat := fun v => (.ok APA_TYPE_PFS, v)
    pfsGetBlockDeviceTable := fun _ => true
    openDevice := fun v => (3, v)
    getSubNumber := fun _ => B.getSubNumber
    getSize := fun i _ => B.getSize i
    pfsJournalRestore := fun m log v =>
      let clean := if v.free = [] then .error (- Journal.ENOMEM) else .ok ()
      let (result, disk) := Commands.pfsJournalRestore clean ⟨1, log.number, m.sector_scale⟩ B.behind v.disk
      (result, { v with disk := disk })
    pfsBitmapCalcFreeZones := fun m i v => Commands.pfsBitmapCalcFreeZones B m.sector_scale m.inode_scale i v }

/-! ### What a check of the superblock leaves -/

/-- The program ends, and keeps a property of the volume. -/
def Keeps {α : Type} (P : σ → Prop) (p : Prog (Check σ) α) : Prop :=
  ∀ s, P s.pfs → wp p s fun _ s' => P s'.pfs

/-- What a check of the superblock does to the volume keeps the property. -/
structure Keeping (P : σ → Prop) (D : Volume σ) : Prop where
  read : ∀ sub sector size v, P v → P (D.transferRead sub sector size v).2
  write : ∀ sub sector size words v, P v → P (D.transferWrite sub sector size words v).2
  restore : ∀ m log v, P v → P (D.pfsJournalRestore m log v).2
  count : ∀ m i v, P v → P (D.pfsBitmapCalcFreeZones m i v).2

/-- What the transfers of the block device do to the volume keeps the property. -/
structure Transferring (P : σ → Prop) (L : Libpfs σ) : Prop where
  read : ∀ sub sector size v, P v → P (L.transferRead sub sector size v).2
  write : ∀ sub sector size words v, P v → P (L.transferWrite sub sector size words v).2

/-- The tests that `CheckSuperBlock` makes of the superblock. -/
def Tested (words : Words) : Prop :=
  words 0 = PFS_SUPER_MAGIC ∧ words 1 ≤ PFS_FORMAT_VERSION ∧ words 4 &&& (words 4 - 1) = 0 ∧
    0x800 ≤ words 4 ∧ words 4 ≤ 0x20000

/-- A mount whose superblock was accepted. -/
def Accepted (m : Mount) : Prop :=
  ∃ num_subs words, Tested words ∧ m = { mountOf num_subs words with ZoneSizes := m.ZoneSizes, ZoneMap := m.ZoneMap }

section Keeping

variable {α β : Type} {P : σ → Prop} {D : Volume σ} {m : Mount}

theorem keeps_ofState {f : Check σ → α × Check σ} (h : ∀ s, P s.pfs → P (f s).2.pfs) : Keeps P (ofState f) :=
  fun s hs => wp_ofState (h s hs)

theorem Transferring.transferRead (h : Transferring P D.toLibpfs) (sub sector size : Nat) :
    Keeps P (transferRead D.toLibpfs sub sector size) := keeps_ofState fun s => h.read sub sector size s.pfs

theorem Transferring.transferWrite (h : Transferring P D.toLibpfs) (sub sector size : Nat) :
    Keeps P (transferWrite D.toLibpfs sub sector size) := keeps_ofState fun s => h.write sub sector size _ s.pfs

theorem Keeping.transferring (h : Keeping P D) : Transferring P D.toLibpfs := ⟨h.read, h.write⟩

theorem prompt_ends (s : Check σ) :
    wp (fsckPromptUserAction true) s fun _ s' => s'.pfs = s.pfs ∧ s'.IOBuffer = s.IOBuffer := by
  unfold fsckPromptUserAction countError countFixed setError
  simp only [wp_modify_bind, wp_read_bind, id]
  split
  · split
    · simp only [if_true, wp_modify_bind]
      exact wp_pure ⟨rfl, rfl⟩
    · refine wp_ofState_bind.mpr ?_
      split
      · simp only [wp_modify_bind]
        exact wp_pure ⟨rfl, rfl⟩
      · simp only [wp_modify_bind]
        exact wp_pure ⟨rfl, rfl⟩
  · simp only [wp_modify_bind]
    exact wp_pure ⟨rfl, rfl⟩

theorem keeps_prompt : Keeps P (fsckPromptUserAction true) :=
  fun s hs => (prompt_ends s).mono fun _ _ h => h.1 ▸ hs

theorem overwriteBitmap_ends (h : Transferring P D.toLibpfs) (i start : Nat) :
    Keeps P (overwriteBitmap D m i start) := by
  intro s hs
  apply wp_loop (fun _ s' => P s'.pfs) (fun sector _ => 2 ^ m.sector_scale - sector) _ hs
  intro sector s hs
  split
  · exact wp_pure hs
  · apply wp_bind
    apply (h.transferRead i _ 1 s hs).mono
    intro result s hs
    split
    · apply wp_modify_bind.mpr
      apply wp_bind
      have hs : P ({ s with IOBuffer := fun k => if k < 128 then 2 ^ 32 - 1 else s.IOBuffer k } : Check σ).pfs := hs
      apply (h.transferWrite i _ 1 _ hs).mono
      intro result s hs
      split
      · exact wp_pure hs
      · exact wp_pure ⟨hs, by omega⟩
    · exact wp_pure ⟨hs, by omega⟩

theorem checkBitmapBlocks_ends (h : Transferring P D.toLibpfs) (i : Nat) :
    Keeps P (checkBitmapBlocks D m i) := by
  intro s hs
  apply wp_loop (fun _ s' => P s'.pfs)
    (fun block _ => pfsGetBitmapSizeBlocks m.sector_scale (m.ZoneSizes i) - block) _ hs
  intro block s hs
  split
  · exact wp_pure hs
  · apply wp_bind
    apply (h.transferRead i _ _ s hs).mono
    intro result s hs
    split
    · apply wp_bind
      apply (keeps_prompt s hs).mono
      intro yes s hs
      split
      · apply wp_bind
        apply (overwriteBitmap_ends h i _ s hs).mono
        intro result s hs
        split
        · exact wp_pure hs
        · exact wp_pure ⟨hs, by omega⟩
      · exact wp_pure hs
    · exact wp_pure ⟨hs, by omega⟩

theorem fsckCheckBitmap_ends (h : Transferring P D.toLibpfs) : Keeps P (fsckCheckBitmap D m) := by
  intro s hs
  apply wp_loop (fun _ s' => P s'.pfs) (fun i _ => m.num_subs + 1 - i) _ hs
  intro i s hs
  split
  · exact wp_pure hs
  · apply wp_bind
    apply (checkBitmapBlocks_ends h i s hs).mono
    intro result s hs
    split
    · exact wp_pure hs
    · exact wp_pure ⟨hs, by omega⟩

private theorem countZones_ends (h : Keeping P D) : Keeps P (countZones D m) := by
  intro s hs
  apply wp_loop (fun _ s' => P s'.pfs) (fun x _ => m.num_subs + 1 - x.1) _ hs
  rintro ⟨i, total_zones, zfree⟩ s hs
  dsimp only
  split
  · exact wp_pure hs
  · apply wp_ofState_bind.mpr
    exact wp_pure ⟨h.count m i s.pfs hs, by dsimp only; omega⟩

private theorem loadSuper_ends (h : Keeping P D) (s : Check σ) (hs : P s.pfs) :
    wp (loadSuper D) s fun r s' => P s'.pfs ∧ (0 ≤ r → s'.IOBuffer 0 = PFS_SUPER_MAGIC) := by
  unfold loadSuper
  apply wp_bind
  apply (h.transferring.transferRead 0 _ 1 s hs).mono
  intro result s hs
  apply wp_read_bind.mpr
  split
  · apply wp_bind
    apply (h.transferring.transferRead 0 _ 1 s hs).mono
    intro result s hs
    split
    · exact wp_pure ⟨hs, fun hr => absurd hr (by decide)⟩
    · apply wp_read_bind.mpr
      split
      · exact wp_pure ⟨hs, fun hr => absurd hr (by decide)⟩
      · rename_i hmagic
        apply wp_bind
        apply (prompt_ends s).mono
        rintro yes s' ⟨hpfs, hbuffer⟩
        rw [← hpfs] at hs
        split
        · apply wp_ofState
          refine ⟨h.write 0 _ 1 _ _ hs, fun _ => ?_⟩
          exact (congrFun hbuffer 0).trans (not_not.mp hmagic)
        · exact wp_pure ⟨hs, fun hr => absurd hr (by decide)⟩
  · rename_i hgood
    obtain ⟨-, hmagic⟩ := not_or.mp hgood
    exact wp_pure ⟨hs, fun _ => not_not.mp hmagic⟩

private theorem checkSubNumber_ends (h : Keeping P D) (num_subs : Nat) (s : Check σ) (hs : P s.pfs) :
    wp (checkSubNumber D num_subs) s fun _ s' => P s'.pfs ∧ ∀ k ≠ 5, s'.IOBuffer k = s.IOBuffer k := by
  unfold checkSubNumber
  apply wp_read_bind.mpr
  split
  · apply wp_bind
    apply (prompt_ends s).mono
    rintro yes s' ⟨hpfs, hbuffer⟩
    rw [← hpfs] at hs
    split
    · apply wp_modify_bind.mpr
      apply wp_ofState
      refine ⟨h.write 0 _ 1 _ _ hs, fun k hk => ?_⟩
      exact (Function.update_of_ne hk _ _).trans (congrFun hbuffer k)
    · exact wp_pure ⟨hs, fun k _ => congrFun hbuffer k⟩
  · exact wp_pure ⟨hs, fun k _ => rfl⟩

private theorem mountVolume_ends (h : Keeping P D) (num_subs : Nat) (words : Words) (s : Check σ) (hs : P s.pfs) :
    wp (mountVolume D num_subs words) s fun r s' => P s'.pfs ∧
      (∀ e, r = .error e → e < 0) ∧ ∀ f, r = .ok f → f.mount =
        { mountOf num_subs words with ZoneSizes := f.mount.ZoneSizes, ZoneMap := f.mount.ZoneMap } := by
  have hrestore : Keeps P (pfsOp (D.pfsJournalRestore (mountOf num_subs words) (blockinfoOf words 6))) :=
    keeps_ofState fun s => h.restore _ _ s.pfs
  unfold mountVolume
  apply wp_bind
  apply (hrestore s hs).mono
  intro result s hs
  split
  · rename_i hneg
    exact wp_pure ⟨hs, fun e he => Except.error.inj he ▸ hneg, fun f hf => by cases hf⟩
  · apply wp_read_bind.mpr
    apply wp_bind
    apply (fsckCheckBitmap_ends h.transferring _ hs).mono
    intro result s hs
    split
    · rename_i hneg
      exact wp_pure ⟨hs, fun e he => Except.error.inj he ▸ hneg, fun f hf => by cases hf⟩
    · apply wp_bind
      apply (countZones_ends h s hs).mono
      rintro ⟨total_zones, zfree⟩ s hs
      refine wp_pure ⟨hs, fun e he => (by cases he), fun f hf => ?_⟩
      cases hf
      rfl

/-- A check of the superblock ends, with a negative value or with a mount whose superblock was accepted. -/
private theorem CheckSuperBlock_ends (h : Keeping P D) (s : Check σ) (hs : P s.pfs) :
    wp (CheckSuperBlock D) s fun r s' => P s'.pfs ∧
      (∀ e, r = .error e → e < 0) ∧ ∀ f, r = .ok f → Accepted f.mount := by
  unfold CheckSuperBlock
  apply wp_read_bind.mpr
  apply wp_bind
  apply (loadSuper_ends h s hs).mono
  rintro result s ⟨hs, hmagic⟩
  have herror : ∀ {e : Int} {s : Check σ}, P s.pfs → e < 0 → P s.pfs ∧
      (∀ e', (Except.error e : Except Int Filesystem) = .error e' → e' < 0) ∧
      ∀ f, (Except.error e : Except Int Filesystem) = .ok f → Accepted f.mount :=
    fun hs hneg => ⟨hs, fun e' he => Except.error.inj he ▸ hneg, fun f hf => by cases hf⟩
  split
  · rename_i hneg
    exact wp_pure (herror hs hneg)
  · rename_i hpos
    apply wp_read_bind.mpr
    split
    · exact wp_pure (herror hs (by decide))
    · rename_i hversion
      split
      · exact wp_pure (herror hs (by decide))
      · rename_i hzone
        apply wp_bind
        apply (checkSubNumber_ends h _ s hs).mono
        rintro result s' ⟨hs', hbuffer⟩
        split
        · rename_i hneg
          exact wp_pure (herror hs' hneg)
        · apply wp_read_bind.mpr
          apply (mountVolume_ends h _ _ s' hs').mono
          rintro r s'' ⟨hs'', hnegative, hmount⟩
          refine ⟨hs'', hnegative, fun f hf => ⟨_, _, ?_, hmount f hf⟩⟩
          rw [not_or, not_or] at hzone
          unfold Tested
          rw [hbuffer 0 (by decide), hbuffer 1 (by decide), hbuffer 4 (by decide)]
          exact ⟨hmagic (Int.not_lt.mp hpos), Nat.not_lt.mp hversion, not_not.mp hzone.1,
            Nat.not_lt.mp hzone.2.1, Nat.not_lt.mp hzone.2.2⟩

end Keeping

/-! ### What an opening leaves -/

/-- An opening that fails leaves nothing behind, and one that does not fail has a mount whose superblock was accepted. -/
structure LeavesNothing (nused : σ → Nat → Nat) (accepted : μ → Prop) (s : Driver σ μ) (r : Int) (s' : Driver σ μ) :
    Prop where
  failed : r < 0 → s'.handles = s.handles ∧ s'.fd = 0 ∧ nused s'.volume = nused s.volume
  opened : 0 ≤ r → ∃ m, s'.privdata = some m ∧ accepted m

/-- No filesystem is open, and `fd` is that of a new file. -/
structure Closed (volume : σ → Commands.Volume) (s : Driver σ μ) : Prop where
  fd : s.fd = 0
  privdata : s.privdata = none
  idle : Commands.Idle (volume s.volume)

section Opening

variable {B : Commands.block_device_t} {T : DeviceTransfers} {L : Libpfs Commands.Volume} {a : Answers}
  {v : Commands.Volume} {superblock : Sector} {flags : Nat}

theorem runs_onVolume {α : Type} {p : Prog σ α} {s : Driver σ μ} {x : α} {v : σ} (h : Runs p s.volume x v) :
    Runs (onVolume p) s x { s with volume := v } := h.zoom

theorem openBlockDevice_fails {s : Driver σ μ} (hfd : s.fd = 0) (h : ¬ a.Opens) :
    ∃ r < 0, openBlockDevice a s = (.inl r, s) := by
  unfold openBlockDevice
  rw [if_neg (not_not_intro hfd)]
  split_ifs with hstat hmode htable hopen
  · exact ⟨_, hstat, rfl⟩
  · exact ⟨_, by decide, rfl⟩
  · exact ⟨_, by decide, rfl⟩
  · exact ⟨_, hopen, rfl⟩
  · rw [Bool.not_eq_true', Bool.not_eq_false] at htable
    exact absurd ⟨Int.not_lt.mp hstat, not_not.mp hmode, htable, Int.not_lt.mp hopen⟩ h

theorem openBlockDevice_opens {s : Driver σ μ} (hfd : s.fd = 0) (h : a.Opens) : openBlockDevice a s =
    (.inr a.getstat, { s with fd := a.openDevice, handles := a.openDevice :: s.handles }) := by
  obtain ⟨hstat, hmode, htable, hopen⟩ := h
  unfold openBlockDevice
  rw [if_neg (not_not_intro hfd), if_neg (Int.not_lt.mpr hstat), if_neg (not_not_intro hmode), htable,
    if_neg (by decide), if_neg (Int.not_lt.mpr hopen)]

private theorem not_leavesNothing {nused : σ → Nat → Nat} {accepted : μ → Prop} {s s' : Driver σ μ} {r : Int}
    (hhandles : s'.handles = a.openDevice :: s.handles) (hr : r < 0) : ¬ LeavesNothing nused accepted s r s' := by
  intro h
  have hlength := congrArg List.length ((h.failed hr).1.symm.trans hhandles)
  rw [List.length_cons] at hlength
  omega

private theorem keeping_volumeOf (h : Commands.Idle v) : Keeping (Commands.Kept v) (volumeOf B T L) where
  read _ _ _ _ hv := ⟨hv.nused, hv.free⟩
  write _ _ _ _ _ hv := ⟨hv.nused, hv.free⟩
  restore _ _ _ hv := ⟨hv.nused, hv.free⟩
  count _ _ _ hv := hv.trans (Commands.kept_freeInChunks (h.kept hv) _ _ _ _ _ _)

private theorem checkVolume_ends {P : σ → Prop} {D : Volume σ} (h : Keeping P D) (s : Check σ) (hs : P s.pfs) :
    wp (checkVolume D) s fun r s' => P s'.pfs ∧ (∀ e, r = .error e → e < 0) ∧ ∀ m, r = .ok m → Accepted m := by
  unfold checkVolume
  apply wp_bind
  apply (CheckSuperBlock_ends h s hs).mono
  rintro (e | f) s ⟨hs, hnegative, haccepted⟩
  · exact wp_pure ⟨hs, fun e' he => hnegative e' (Except.error.inj he ▸ rfl), fun m hm => by cases hm⟩
  · apply wp_ofState_bind.mpr
    by_cases hinit : (s.scratch.pfsBitmapPartInit f.total_zones).1 = true
    · rw [if_pos hinit]
      apply wp_modify_bind.mpr
      apply wp_modify_bind.mpr
      apply wp_bind
      apply (takeHeads_ends _ _ _).mono
      rintro _ _ ⟨scratch, n, rfl⟩
      exact wp_pure ⟨hs, fun e he => (by cases he), fun m hm => Except.ok.inj hm ▸ haccepted f rfl⟩
    · rw [if_neg hinit]
      exact wp_pure ⟨hs, fun e he => Except.error.inj he ▸ by decide, fun m hm => by cases hm⟩

theorem FsckOpen_session (write auto : Bool) (s : Check Commands.Volume) (Q : Except Int Mount → Check Commands.Volume → Prop) :
    wp (FsckOpen (volumeOf B T L) write auto) s Q ↔
      wp (checkVolume (volumeOf B T L)) { s with fsckWriteEnabled := write, fsckAutoMode := auto } Q := Iff.rfl

/-- `FsckOpen` leaves nothing behind exactly if the device is not opened or the check of its filesystem succeeds. -/
theorem FsckOpen_clean_iff {s : Driver (Check Commands.Volume) Mount} (hs : Closed (·.pfs) s) (write auto : Bool) :
    wp (Driver.FsckOpen (volumeOf B T L) a write auto) s (LeavesNothing (·.pfs.nused) Accepted s) ↔
      (a.Opens → wp (checkVolume (volumeOf B T L))
        { s.volume with fsckWriteEnabled := write, fsckAutoMode := auto } fun r _ => ∃ m, r = .ok m) := by
  obtain ⟨v, hv⟩ : ∃ v : Check Commands.Volume,
    v = { s.volume with fsckWriteEnabled := write, fsckAutoMode := auto } := ⟨_, rfl⟩
  have hmode : Runs (onVolume (modify fun s : Check Commands.Volume =>
      { s with fsckWriteEnabled := write, fsckAutoMode := auto })) s () { s with volume := v } := by
    rw [hv]
    exact runs_onVolume (runs_ofState _ s.volume)
  rw [← hv]
  by_cases hopen : a.Opens
  · obtain ⟨r, v', hrun, hkept, hnegative, haccepted⟩ := checkVolume_ends (keeping_volumeOf hs.idle) v
      (hv ▸ Commands.Kept.refl _ : Commands.Kept s.volume.pfs v.pfs)
    have hdevice := runs_ofState (openBlockDevice a) { s with volume := v }
    rw [openBlockDevice_opens (s := { s with volume := v }) hs.fd hopen] at hdevice
    have hcheck : Runs (onVolume (checkVolume (volumeOf B T L)))
        { s with volume := v, fd := a.openDevice, handles := a.openDevice :: s.handles } r
        { s with volume := v', fd := a.openDevice, handles := a.openDevice :: s.handles } := runs_onVolume hrun
    cases r with
    | error e =>
      have hwhole : Runs (Driver.FsckOpen (volumeOf B T L) a write auto) s e
          { s with volume := v', fd := 0, handles := a.openDevice :: s.handles } :=
        hmode.bind (hdevice.bind (hcheck.bind ((runs_ofState _ _).bind (runs_pure _ _))))
      constructor
      · rintro ⟨r, s', hrun', hleaves⟩
        obtain ⟨rfl, rfl⟩ := hwhole.unique hrun'
        exact absurd hleaves (not_leavesNothing (a := a) rfl (hnegative _ rfl))
      · intro hsucceeds
        obtain ⟨r, v'', hrun', m, rfl⟩ := hsucceeds hopen
        cases (hrun.unique hrun').1
    | ok m =>
      have hwhole : Runs (Driver.FsckOpen (volumeOf B T L) a write auto) s 0
          { s with volume := v', fd := a.openDevice, handles := a.openDevice :: s.handles, privdata := some m } :=
        hmode.bind (hdevice.bind (hcheck.bind ((runs_ofState _ _).bind (runs_pure _ _))))
      constructor
      · exact fun _ _ => ⟨_, _, hrun, m, rfl⟩
      · intro _
        exact ⟨_, _, hwhole, fun hneg => absurd hneg (lt_irrefl 0), fun _ => ⟨m, rfl, haccepted m rfl⟩⟩
  · refine iff_of_true ?_ fun h => absurd h hopen
    obtain ⟨r, hr, hfails⟩ := openBlockDevice_fails (s := { s with volume := v }) hs.fd hopen
    have hdevice := runs_ofState (openBlockDevice a) { s with volume := v }
    rw [hfails] at hdevice
    have hwhole : Runs (Driver.FsckOpen (volumeOf B T L) a write auto) s r { s with volume := v } :=
      hmode.bind (hdevice.bind (runs_pure _ _))
    refine ⟨_, _, hwhole, fun _ => ⟨rfl, hs.fd, ?_⟩, fun hpos => absurd hr (Int.not_lt.mpr hpos)⟩
    rw [hv]

/-- `FsskOpen` leaves nothing behind exactly if the device is not opened or the mount succeeds. -/
theorem FsskOpen_clean_iff {s : Driver Commands.Volume Commands.Mounted} (hs : Closed id s) :
    wp (Driver.FsskOpen B a) s (LeavesNothing (·.nused) (·.Accepted B 0) s) ↔
      (a.Opens → 0 ≤ (Commands.pfsMountSuperBlock B 0 { s.volume with lastError := 0 }).1) := by
  have hdevice := runs_ofState (openBlockDevice a) s
  by_cases hopen : a.Opens
  · rw [openBlockDevice_opens hs.fd hopen] at hdevice
    have hidle : Commands.Idle { s.volume with lastError := 0 } := ⟨hs.idle.nodup, hs.idle.unused⟩
    have hkept := Commands.kept_pfsMountSuperBlock (B := B) hidle 0
    have hresult := Commands.pfsMountSuperBlock_result (B := B) (s := { s.volume with lastError := 0 }) 0
    obtain ⟨mounted, m, v, hmount⟩ : ∃ mounted m v,
      Commands.pfsMountSuperBlock B 0 { s.volume with lastError := 0 } = (mounted, m, v) := ⟨_, _, _, rfl⟩
    have hcleared : mountCleared B s.volume = ((mounted, m), v) := by
      unfold mountCleared
      rw [hmount]
    have hrun : Runs (onVolume (ofState (mountCleared B)))
        { s with fd := a.openDevice, handles := a.openDevice :: s.handles } (mounted, m)
        { s with volume := v, fd := a.openDevice, handles := a.openDevice :: s.handles } := by
      have h := runs_ofState (mountCleared B) s.volume
      rw [hcleared] at h
      exact runs_onVolume h
    rw [hmount] at hkept hresult ⊢
    rcases hresult with hneg | ⟨rfl, m, rfl, haccepted⟩
    · have hwhole : Runs (Driver.FsskOpen B a) s a.getstat
          { s with volume := v, fd := 0, handles := a.openDevice :: s.handles } := by
        refine hdevice.bind (hrun.bind ?_)
        dsimp only
        rw [if_neg (Int.not_le.mpr hneg)]
        exact (runs_ofState _ _).bind (runs_pure _ _)
      refine iff_of_false ?_ fun h => absurd (h hopen) (Int.not_le.mpr hneg)
      rintro ⟨r, s', hrun', hleaves⟩
      obtain ⟨rfl, rfl⟩ := hwhole.unique hrun'
      obtain ⟨m, hm, -⟩ := hleaves.opened hopen.1
      cases hs.privdata.symm.trans hm
    · have hwhole : Runs (Driver.FsskOpen B a) s 0
          { s with volume := v, fd := a.openDevice, handles := a.openDevice :: s.handles, privdata := some m } :=
        hdevice.bind (hrun.bind ((runs_ofState _ _).bind (runs_pure _ _)))
      refine iff_of_true ?_ fun _ => le_refl _
      exact ⟨_, _, hwhole, fun hneg => absurd hneg (lt_irrefl 0), fun _ => ⟨m, rfl, haccepted⟩⟩
  · refine iff_of_true ?_ fun h => absurd h hopen
    obtain ⟨r, hr, hfails⟩ := openBlockDevice_fails hs.fd hopen
    rw [hfails] at hdevice
    exact ⟨_, _, hdevice.bind (runs_pure _ _), fun _ => ⟨rfl, hs.fd, rfl⟩,
      fun hpos => absurd hr (Int.not_lt.mpr hpos)⟩

/-- Each of the two openings leaves nothing behind exactly if the device is not opened or what follows succeeds. -/
theorem open_clean_iff {s : Driver (Check Commands.Volume) Mount} {t : Driver Commands.Volume Commands.Mounted}
    (hs : Closed (·.pfs) s) (ht : Closed id t) (write auto : Bool) :
    (wp (Driver.FsckOpen (volumeOf B T L) a write auto) s (LeavesNothing (·.pfs.nused) Accepted s) ↔
      (a.Opens → wp (checkVolume (volumeOf B T L))
        { s.volume with fsckWriteEnabled := write, fsckAutoMode := auto } fun r _ => ∃ m, r = .ok m)) ∧
    (wp (Driver.FsskOpen B a) t (LeavesNothing (·.nused) (·.Accepted B 0) t) ↔
      (a.Opens → 0 ≤ (Commands.pfsMountSuperBlock B 0 { t.volume with lastError := 0 }).1)) :=
  ⟨FsckOpen_clean_iff hs write auto, FsskOpen_clean_iff ht⟩

end Opening

/-! ### Devices -/

/-- The parts of `libpfs` that an opening does not use. -/
def unusedLibpfs : Libpfs Commands.Volume where
  sub _ _ := 0
  block _ _ := 0
  inode _ _ := ⟨⟨0, 0, 0⟩, ⟨0, 0, 0⟩, ⟨0, 0, 0⟩, fun _ => ⟨0, 0, 0⟩, 0, 0, 0, 0, 0, 0, 0⟩
  setInode _ _ := id
  dentry _ _ _ := ⟨0, 0, 0, 0, fun _ => 0⟩
  setDentry _ _ _ := id
  bitmap _ _ _ _ := false
  setBitmap _ _ _ := id
  zero _ := id
  setDirty _ := id
  pfsCacheGetData _ _ _ v := (.ok 0, v)
  pfsCacheUsedAdd _ := id
  pfsCacheFree _ := id
  pfsCacheFlushAllDirty := id
  pfsInodeGetData _ _ v := (.ok 0, v)
  transferRead _ _ _ v := ((- EIO, fun _ => 0), v)
  transferWrite _ _ _ _ v := (- EIO, v)
  flushCache := id
  getPartError := id
  rewind := id
  read _ v := ((- EIO, fun _ => 0), v)
  write _ _ v := (- EIO, v)

def deadDevice : DeviceTransfers := ⟨fun _ _ _ d => ((- EIO, fun _ => 0), d), fun _ _ _ _ d => (- EIO, d)⟩

def deadVolume : Commands.Volume := ⟨FaultyDisk.fresh (fun _ => Sector.zero) fun _ => true, fun _ => 0, [1, 2], 0⟩

def onePartition : Commands.block_device_t := ⟨0, fun _ => 0x40000, fun _ => ⟨0, 0, 0⟩, fun _ _ => (Sector.zero, Sector.zero), true⟩

def deadCheck : Check Commands.Volume where
  pfs := deadVolume
  scratch := Scratch.pfsBitmapInit (fun _ _ _ => false) fun _ => none
  IOBuffer _ := 0
  fsckWriteEnabled := false
  fsckAutoMode := false
  answers _ := false
  stop := none
  hasError := false
  status := ⟨0, 0, 0, 0, 0, 0, 0⟩
  reported := 0
  repaired := 0
  walk := []
  used := []

def atRest (v : σ) : Driver σ μ := ⟨v, 0, [], none⟩

theorem closed_deadCheck : Closed (μ := Mount) (·.pfs) (atRest deadCheck) := ⟨rfl, rfl, by decide, fun _ _ => rfl⟩

theorem closed_deadVolume : Closed (μ := Commands.Mounted) id (atRest deadVolume) :=
  ⟨rfl, rfl, by decide, fun _ _ => rfl⟩

/-- A superblock of a filesystem with zones of 128 KB, and its log from zone 40 on. -/
def plainSuper : Sector := fun w => [PFS_SUPER_MAGIC, 3, 0, 0, 0x20000, 0, 40].getD w.val 0

/-- A disk with the superblock; no command fails. -/
def plainVolume : Commands.Volume where
  disk := FaultyDisk.fresh (fun a => if a = Journal.place 0 PFS_SUPER_SECTOR then plainSuper else Sector.zero)
    fun _ => false
  nused _ := 0
  free := [1, 2]
  lastError := 0

def plainDevice : DeviceTransfers where
  read sub sector _ d := ((0, fun k => d.content (Journal.place sub (sector + k / 128)) (Fin.ofNat 128 k)), d)
  write sub sector _ words d := (0, (d.write [(Journal.place sub sector, fun i => words i.val)]).2)

def plainCheck : Check Commands.Volume := { deadCheck with pfs := plainVolume }

private theorem plain_checked :
    wp (checkVolume (volumeOf onePartition plainDevice unusedLibpfs)) plainCheck fun r _ => ∃ m, r = .ok m := by
  have hrun : ((checkVolume (volumeOf onePartition plainDevice unusedLibpfs)).run 10 plainCheck).map
      (fun r => r.1.toOption.isSome) = some true := by decide +kernel
  obtain ⟨⟨r, s⟩, hends, hr⟩ := Option.map_eq_some_iff.mp hrun
  refine ⟨r, s, ⟨10, hends⟩, ?_⟩
  cases r with
  | error e => cases hr
  | ok m => exact ⟨m, rfl⟩

/-- Both openings of a filesystem that can be read succeed. -/
theorem open_clean_plain :
    wp (Driver.FsckOpen (volumeOf onePartition plainDevice unusedLibpfs) ⟨0, APA_TYPE_PFS, true, 3⟩ false false)
      (atRest plainCheck) (LeavesNothing (·.pfs.nused) Accepted (atRest plainCheck)) ∧
    wp (Driver.FsskOpen onePartition ⟨0, APA_TYPE_PFS, true, 3⟩) (atRest plainVolume)
      (LeavesNothing (·.nused) (·.Accepted onePartition 0) (atRest plainVolume)) := by
  have hchecked : Closed (μ := Mount) (·.pfs) (atRest plainCheck) := ⟨rfl, rfl, by decide, fun _ _ => rfl⟩
  have hvolume : Closed (μ := Commands.Mounted) id (atRest plainVolume) := ⟨rfl, rfl, by decide, fun _ _ => rfl⟩
  have hmounts : 0 ≤ (Commands.pfsMountSuperBlock onePartition 0 plainVolume).1 := by decide +kernel
  obtain ⟨hfsck, hfssk⟩ := open_clean_iff (B := onePartition) (T := plainDevice) (L := unusedLibpfs)
    (a := ⟨0, APA_TYPE_PFS, true, 3⟩) hchecked hvolume false false
  exact ⟨hfsck.mpr fun _ => plain_checked, hfssk.mpr fun _ => hmounts⟩

/-- Neither opening closes a device whose superblock it cannot read. -/
theorem open_not_clean :
    (¬ ∀ (B : Commands.block_device_t) (T : DeviceTransfers) (L : Libpfs Commands.Volume) (a : Answers)
      (s : Driver (Check Commands.Volume) Mount) (write auto : Bool), Closed (·.pfs) s →
      wp (Driver.FsckOpen (volumeOf B T L) a write auto) s (LeavesNothing (·.pfs.nused) Accepted s)) ∧
    ¬ ∀ (B : Commands.block_device_t) (a : Answers) (s : Driver Commands.Volume Commands.Mounted), Closed id s →
      wp (Driver.FsskOpen B a) s (LeavesNothing (·.nused) (·.Accepted B 0) s) := by
  have hopens : Answers.Opens ⟨0, APA_TYPE_PFS, true, 3⟩ := ⟨le_refl _, rfl, rfl, by decide⟩
  constructor
  · intro h
    have hsucceeds := (FsckOpen_clean_iff closed_deadCheck false false).mp
      (h onePartition deadDevice unusedLibpfs ⟨0, APA_TYPE_PFS, true, 3⟩ _ false false closed_deadCheck) hopens
    obtain ⟨r, v, hrun, m, rfl⟩ := hsucceeds
    have hfails : Runs (checkVolume (volumeOf onePartition deadDevice unusedLibpfs))
        { deadCheck with fsckWriteEnabled := false, fsckAutoMode := false } (.error (- EIO)) deadCheck := ⟨10, rfl⟩
    cases (hrun.unique hfails).1
  · intro h
    have hsucceeds := (FsskOpen_clean_iff closed_deadVolume).mp
      (h onePartition ⟨0, APA_TYPE_PFS, true, 3⟩ _ closed_deadVolume) hopens
    exact absurd hsucceeds (by decide)

end HddChecker.Fsck.Opening
