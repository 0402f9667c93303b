import HddChecker.Fsck.Refused
import HddChecker.Pfs.Restore

/-!
# A check that may only read

Something is written even where nothing is repaired: `CheckSuperBlock` restores the log, a flush of the cache writes an empty log header, whether or not there was anything to flush, and `FsckThread` clears the mark of a write error in the superblock. The sectors stay as they are where the partition or its superblock is refused, and where the log is empty and there is no mark.
-/

namespace HddChecker.Fsck

open HddChecker Prog Pfs

structure SessionVolume (σ : Type) extends Volume σ where
  close : σ → σ
  pfsCacheClose : σ → σ

variable {σ : Type}

def FsckClose (C : SessionVolume σ) : Prog (Check σ) Unit := do
  pfsDo C.close
  pfsDo C.pfsCacheClose

/-- A session of fsck: only what could be opened is checked and closed. -/
def session (C : SessionVolume σ) (write auto : Bool) : Prog (Check σ) Unit := do
  match ← FsckOpen C.toVolume write auto with
  | .error _ => return ()
  | .ok m =>
    let _ ← FsckThread C.toLibpfs m
    FsckClose C

/-! ### The sectors of a session -/

/-- The words of the sectors of a drive. -/
def viewOf (c : Nat → Sector) : View := fun sub a =>
  c (Journal.place sub (a / 128)) ⟨a % 128, Nat.mod_lt a (by decide)⟩

/-- The place of the log that the superblock names. -/
def logOf (c : Nat → Sector) : Journal.pfs_mount_t :=
  ⟨1, (blockinfoOf (superOf (viewOf c)) 6).number, pfsGetScale (superOf (viewOf c) 4) 512⟩

/-- The header of the log is empty. -/
structure EmptyLog (m : Journal.pfs_mount_t) (c : Nat → Sector) : Prop where
  first : c (Journal.place 0 m.logStart) = Journal.pfs_journal_t.reset.toBlock.1
  second : c (Journal.place 0 (m.logStart + 1)) = Journal.pfs_journal_t.reset.toBlock.2

theorem pfsJournalReset_empty {m : Journal.pfs_mount_t} {d : FaultyDisk Sector} (h : EmptyLog m d.content) :
    (Commands.pfsJournalReset m d).2.content = d.content := by
  unfold Commands.pfsJournalReset FaultyDisk.flush FaultyDisk.write
  dsimp only
  split
  · rfl
  · simp only [Journal.writesAt, applyWrites_cons, applyWrites_nil, ← h.first, ← h.second, Function.update_eq_self]

private theorem pfsJournalRestore_empty (spare : Except Int Unit) {m : Journal.pfs_mount_t}
    (behind : Nat → Journal.pfs_log_t) {d : FaultyDisk Sector} (h : EmptyLog m d.content) :
    (Commands.pfsJournalRestore spare m behind d).2.content = d.content := by
  unfold Commands.pfsJournalRestore
  cases hread : d.fails d.issued with
  | true =>
    rw [FaultyDisk.read_of_fails hread]
    exact pfsJournalReset_empty h
  | false =>
    have hnum : (Journal.pfs_journal_t.ofBlock (d.content (Journal.place 0 m.logStart),
        d.content (Journal.place 0 (m.logStart + 1)))).num = 0 := by
      rw [h.first, h.second]
      rfl
    rw [FaultyDisk.read_of_works hread]
    simp only [Commands.blockAt, List.map_cons, List.map_nil, if_pos hnum, ite_self]
    exact pfsJournalReset_empty h

/-- No buffer is dirty, the sectors hold `c` and the log of the mount is `l`. -/
def Kept (drive : σ → FaultyDisk Sector) (clean : σ → Prop) (log : σ → Journal.pfs_mount_t) (c : Nat → Sector)
    (l : Journal.pfs_mount_t) (v : σ) : Prop :=
  clean v ∧ (drive v).content = c ∧ log v = l

/-- The operations of a session that are no part of a repair and do not write the log. -/
structure QuietSession (P : σ → Prop) (C : SessionVolume σ) : Prop extends Quiet P C.toLibpfs where
  getstat : ∀ v, P v → P (C.getstat v).2
  openDevice : ∀ v, P v → P (C.openDevice v).2
  pfsBitmapCalcFreeZones : ∀ m i v, P v → P (C.pfsBitmapCalcFreeZones m i v).2
  close : ∀ v, P v → P (C.close v)

/-- What `libpfs` does to a drive any command of which may fail, where no buffer is dirty. A flush of the cache resets the log, and nothing else. The one of `pfsCacheClose` goes through the descriptor that `FsckClose` closed before, and need not arrive. -/
structure Sectors (C : SessionVolume σ) (drive : σ → FaultyDisk Sector) (clean : σ → Prop)
    (log : σ → Journal.pfs_mount_t) : Prop where
  quiet : ∀ c l, QuietSession (Kept drive clean log c l) C
  super : ∀ v, 0 ≤ (C.transferRead 0 PFS_SUPER_SECTOR 1 v).1.1 →
    OfSuper (viewOf (drive v).content) (C.transferRead 0 PFS_SUPER_SECTOR 1 v).1.2
  pfsJournalRestore : ∀ m l v, clean v → clean (C.pfsJournalRestore m l v).2 ∧
    log (C.pfsJournalRestore m l v).2 = ⟨1, l.number, m.sector_scale⟩ ∧ ∃ spare behind,
      drive (C.pfsJournalRestore m l v).2 =
        (Commands.pfsJournalRestore spare ⟨1, l.number, m.sector_scale⟩ behind (drive v)).2
  pfsCacheFlushAllDirty : ∀ v, clean v → clean (C.pfsCacheFlushAllDirty v) ∧
    log (C.pfsCacheFlushAllDirty v) = log v ∧
      drive (C.pfsCacheFlushAllDirty v) = (Commands.pfsJournalReset (log v) (drive v)).2
  pfsCacheClose : ∀ v, clean v → drive (C.pfsCacheClose v) = drive v ∨
    drive (C.pfsCacheClose v) = (Commands.pfsJournalReset (log v) (drive v)).2

/-- The superblock has no mark of a write error, and the log it names is empty. -/
structure Restored (c : Nat → Sector) : Prop where
  unmarked : superOf (viewOf c) 3 &&& PFS_FSCK_STAT_WRITE_ERROR = 0
  empty : EmptyLog (logOf c) c

section Session

variable {C : SessionVolume σ} {drive : σ → FaultyDisk Sector} {clean : σ → Prop} {log : σ → Journal.pfs_mount_t}
  {c : Nat → Sector}

theorem Sectors.restores (hC : Sectors C drive clean log) (hc : Restored c) (l : Journal.pfs_mount_t) :
    Restores C.toVolume (viewOf c) (Kept drive clean log c l) (Kept drive clean log c (logOf c)) := by
  intro m l' v hv hnumber hscale
  obtain ⟨hclean, hcontent, -⟩ := hv
  obtain ⟨hclean', hlog, spare, behind, hdrive⟩ := hC.pfsJournalRestore m l' v hclean
  have hplace : (⟨1, l'.number, m.sector_scale⟩ : Journal.pfs_mount_t) = logOf c := by
    rw [hnumber, hscale]
    rfl
  rw [hplace] at hlog hdrive
  refine ⟨hclean', ?_, hlog⟩
  rw [hdrive, pfsJournalRestore_empty spare behind (hcontent ▸ hc.empty), hcontent]

theorem Kept.reset {v v' : σ} (hv : Kept drive clean log c (logOf c) v) (hc : Restored c)
    (hdrive : drive v' = (Commands.pfsJournalReset (log v) (drive v)).2) : (drive v').content = c := by
  obtain ⟨-, hcontent, hlog⟩ := hv
  rw [hdrive, hlog, pfsJournalReset_empty (hcontent ▸ hc.empty), hcontent]

theorem Sectors.flush (hC : Sectors C drive clean log) (hc : Restored c) (v : σ)
    (hv : Kept drive clean log c (logOf c) v) : Kept drive clean log c (logOf c) (C.pfsCacheFlushAllDirty v) := by
  obtain ⟨hclean, hlog, hdrive⟩ := hC.pfsCacheFlushAllDirty v hv.1
  exact ⟨hclean, hv.reset hc hdrive, hlog.trans hv.2.2⟩

theorem Sectors.closed (hC : Sectors C drive clean log) (hc : Restored c) (v : σ)
    (hv : Kept drive clean log c (logOf c) v) : (drive (C.pfsCacheClose v)).content = c := by
  rcases hC.pfsCacheClose v hv.1 with hdrive | hdrive
  · rw [hdrive, hv.2.1]
  · exact hv.reset hc hdrive

theorem Sectors.unmarked (hC : Sectors C drive clean log) (hc : Restored c) (l : Journal.pfs_mount_t) :
    Unmarked (Kept drive clean log c l) C.toLibpfs := by
  intro v hv hresult
  obtain ⟨-, rfl, -⟩ := hv
  rw [hC.super v hresult.ge 3 (by decide)]
  exact hc.unmarked

/-- A session that may only read leaves every sector as it was, unless the filesystem can be opened and there is something to restore or a mark to clear. -/
theorem session_restored (hC : Sectors C drive clean log) {s : Check σ} (hclean : clean s.pfs)
    (hrestored : Openable C.toVolume (viewOf (drive s.pfs).content) s.pfs → Restored (drive s.pfs).content)
    (auto : Bool) :
    wlp (session C false auto) s fun _ s' => (drive s'.pfs).content = (drive s.pfs).content := by
  generalize hc : (drive s.pfs).content = c at hrestored
  have hbefore := hC.quiet c (log s.pfs)
  have hbehind := hC.quiet c (logOf c)
  have hopen := FsckOpen_refusing hbefore.getstat hbefore.openDevice hbefore.transferRead hbehind.transferRead
    hbehind.pfsBitmapCalcFreeZones (fun hopens => hC.restores (hrestored hopens) (log s.pfs))
    (fun v hv => hv.2.1 ▸ hC.super v) ⟨hclean, hc, rfl⟩ auto
  have hboth : wlp (FsckOpen C.toVolume false auto) s fun r s' => (drive s'.pfs).content = c ∧
      ∀ m, r = .ok m → Restored c ∧ Reading (Kept drive clean log c (logOf c)) 0 s' := by
    intro r s' hrun
    obtain ⟨hcontent, hmount⟩ := hopen r s' hrun
    refine ⟨hcontent.elim (fun h => h.2.1) fun h => h.2.1, fun m heq => ?_⟩
    have hclear := FsckOpen_clear C.toVolume false auto s r s' hrun m heq
    obtain ⟨hopens, hwrite, hpfs⟩ := hmount m heq
    exact ⟨hrestored hopens, hwrite, hclear.2, hpfs⟩
  refine wlp_bind (hboth.mono ?_)
  intro r s₁ h₁
  obtain ⟨hcontent, hmount⟩ := h₁
  split
  · exact wlp_pure hcontent
  · rename_i m
    obtain ⟨hrestored, hmount⟩ := hmount m rfl
    have hthread := FsckThread_reads (m := m) hbehind.toQuiet (hC.flush hrestored) (hC.unmarked hrestored _)
    refine wlp_bind ((hthread s₁ hmount).mono ?_)
    intro gaveUp s₂ h₂
    refine wlp_bind ((reads_do hbehind.close s₂ h₂).mono ?_)
    intro _ s₃ h₃
    exact wlp_modify (hC.closed hrestored s₃.pfs h₃.pfs)

end Session

/-! ### A log that is not empty -/

/-- The header of a log that is empty, or of one that is lost: zeros. -/
def loggedHeader : Bool → Journal.Block
  | false => Journal.pfs_journal_t.reset.toBlock
  | true => (Sector.zero, Sector.zero)

/-- A filesystem with zones of 8 KB, whose log starts at zone 515. -/
def loggedDisk (lost : Bool) (a : Nat) : Sector :=
  if a = Journal.place 0 PFS_SUPER_SECTOR then fun i => if i.val = 6 then 515 else superWords 0 i.val
  else if a = Journal.place 0 8240 then (loggedHeader lost).1
  else if a = Journal.place 0 8241 then (loggedHeader lost).2
  else Sector.zero

/-- A partition on a drive, with the place of the log. The root directory is an inode of zeros, which has no entries. -/
def loggedVolume : SessionVolume (FaultyDisk Sector × Journal.pfs_mount_t) where
  sub _ _ := 0
  block _ _ := 0
  inode _ _ := ⟨⟨0, 0, 0⟩, ⟨0, 0, 0⟩, ⟨0, 0, 0⟩, fun _ => ⟨0, 0, 0⟩, 0, 0, 0, 0, 0, 0, 0⟩
  setInode _ _ v := v
  dentry _ _ _ := ⟨0, 0, 0, 0, fun _ => 0⟩
  setDentry _ _ _ v := v
  bitmap _ _ _ _ := false
  setBitmap _ _ _ v := v
  zero _ v := v
  setDirty _ v := v
  pfsCacheGetData _ _ _ v := (.ok 0, v)
  pfsCacheUsedAdd _ v := v
  pfsCacheFree _ v := v
  pfsCacheFlushAllDirty v := ((Commands.pfsJournalReset v.2 v.1).2, v.2)
  pfsInodeGetData _ _ v := (.ok 0, v)
  transferRead sub sector _ v := ((0, fun k => viewOf v.1.content sub (sector * 128 + k)), v)
  transferWrite sub sector _ words v :=
    (0, (v.1.write (Journal.writesAt sub sector [fun i => words i.val])).2, v.2)
  flushCache v := v
  getPartError v := v
  rewind v := v
  read size v := ((size, fun _ => 0), v)
  write size _ v := (size, v)
  getstat v := (.ok APA_TYPE_PFS, v)
  pfsGetBlockDeviceTable _ := true
  openDevice v := (3, v)
  getSubNumber _ := 0
  getSize _ _ := 0x40000
  pfsJournalRestore m log v :=
    (0, (Commands.pfsJournalRestore (.ok ()) ⟨1, log.number, m.sector_scale⟩ (fun _ => ⟨0, 0, 0⟩) v.1).2,
      ⟨1, log.number, m.sector_scale⟩)
  pfsBitmapCalcFreeZones _ _ v := (15000, v)
  close v := v
  pfsCacheClose v := v

theorem loggedVolume_sectors : Sectors loggedVolume Prod.fst (fun _ => True) Prod.snd where
  quiet _ _ :=
    { setDentry := fun _ _ _ _ h => h
      pfsCacheGetData := fun _ _ _ _ h => h
      pfsCacheUsedAdd := fun _ _ h => h
      pfsCacheFree := fun _ _ h => h
      pfsInodeGetData := fun _ _ _ h => h
      transferRead := fun _ _ _ _ h => h
      flushCache := fun _ h => h
      getPartError := fun _ h => h
      rewind := fun _ h => h
      read := fun _ _ h => h
      getstat := fun _ h => h
      openDevice := fun _ h => h
      pfsBitmapCalcFreeZones := fun _ _ _ h => h
      close := fun _ h => h }
  super _ _ _ _ := rfl
  pfsJournalRestore _ _ _ _ := ⟨trivial, rfl, _, _, rfl⟩
  pfsCacheFlushAllDirty _ _ := ⟨trivial, rfl, rfl⟩
  pfsCacheClose _ _ := .inl rfl

/-- The check of the partition as its opening finds it, on a drive none of whose commands fail. The user stops it at once. -/
def loggedCheck (lost : Bool) : Check (FaultyDisk Sector × Journal.pfs_mount_t) where
  pfs := (FaultyDisk.fresh (loggedDisk lost) fun _ => false, ⟨1, 0, 0⟩)
  scratch := Scratch.pfsBitmapInit (fun _ _ _ => false) fun _ => none
  IOBuffer _ := 0
  fsckWriteEnabled := false
  fsckAutoMode := false
  answers _ := false
  stop := some 0
  hasError := false
  status := ⟨0, 0, 0, 0, 0, 0, 0⟩
  reported := 0
  repaired := 0
  walk := []
  used := []

def loggedFilesystem : Filesystem where
  mount :=
    { num_subs := 0
      sector_scale := 4
      inode_scale := 3
      zsize := 8192
      root_dir := ⟨0, 0, 0⟩
      ZoneSizes := fun _ => 0x40000
      ZoneMap := zoneMap (fun _ => 0x40000) 4 }
  log := ⟨515, 0, 0⟩
  total_zones := 16384
  zfree := 15000

/-- The drive behind the restoring of the log. -/
def loggedDrive (lost : Bool) : FaultyDisk Sector :=
  (Commands.pfsJournalRestore (.ok ()) ⟨1, 515, 4⟩ (fun _ => ⟨0, 0, 0⟩)
    (FaultyDisk.fresh (loggedDisk lost) fun _ => false)).2

private theorem loggedVolume_mounts (lost : Bool) : ∃ s,
    Runs (CheckSuperBlock loggedVolume.toVolume) (loggedCheck lost) (.ok loggedFilesystem) s ∧
      s.pfs = (loggedDrive lost, ⟨1, 515, 4⟩) ∧ s.scratch = (loggedCheck lost).scratch ∧ s.stop = some 0 := by
  -- the zone of the bitmap was read last
  refine ⟨{ loggedCheck lost with
    pfs := (loggedDrive lost, ⟨1, 515, 4⟩)
    IOBuffer := fun k => viewOf (loggedDrive lost).content 0 (8208 * 128 + k) }, ⟨10, ?_⟩, rfl, rfl, rfl⟩
  cases lost with
  | false => rfl
  | true => rfl

private theorem loggedVolume_checks (s : Check (FaultyDisk Sector × Journal.pfs_mount_t)) (hstop : s.stop = some 0)
    (herror : s.hasError = false) (hfixed : s.status.fixedErrorCount = 0) :
    ∃ s', Runs (FsckThread loggedVolume.toLibpfs loggedFilesystem.mount) s false s' ∧
      s'.pfs = ((Commands.pfsJournalReset s.pfs.2 s.pfs.1).2, s.pfs.2) := by
  obtain ⟨pfs, scratch, IOBuffer, write, auto, answers, stop, hasError, status, reported, repaired, walk, used⟩ := s
  obtain ⟨zoneUsed, inodeBlockCount, files, directories, PWDLevel, errorCount, fixedErrorCount⟩ := status
  cases hstop
  cases herror
  cases hfixed
  exact ⟨_, ⟨40, rfl⟩, rfl⟩

theorem loggedVolume_runs (lost : Bool) : ∃ s,
    Runs (session loggedVolume false false) (loggedCheck lost) () s ∧
      s.pfs.1 = (Commands.pfsJournalReset ⟨1, 515, 4⟩ (loggedDrive lost)).2 := by
  obtain ⟨s₁, hmount, hpfs, hscratch, hstop⟩ := loggedVolume_mounts lost
  have hinit : (s₁.scratch.pfsBitmapPartInit loggedFilesystem.total_zones).1 = true := by
    have hcount : ¬ NUM_BITMAP_ENTRIES ≤ Scratch.bitmapCount loggedFilesystem.total_zones := by decide
    rw [hscratch, Scratch.pfsBitmapPartInit, if_neg hcount]
  obtain ⟨_, s₂, hstart, scratch, n, rfl, hs₂⟩ := startRuntime_ends loggedFilesystem _ hinit
  have hopen : Runs (FsckOpen loggedVolume.toVolume false false) (loggedCheck lost) (.ok loggedFilesystem.mount) s₂ := by
    have hmode : Runs (modify fun s => { s with fsckWriteEnabled := false, fsckAutoMode := false })
        (loggedCheck lost) () (loggedCheck lost) := ⟨0, rfl⟩
    have hgetstat : Runs (pfsOp loggedVolume.getstat) (loggedCheck lost) (.ok APA_TYPE_PFS) (loggedCheck lost) :=
      ⟨0, rfl⟩
    have htable : Runs (pfsShow loggedVolume.pfsGetBlockDeviceTable) (loggedCheck lost) true (loggedCheck lost) :=
      ⟨0, rfl⟩
    have hdevice : Runs (pfsOp loggedVolume.openDevice) (loggedCheck lost) 3 (loggedCheck lost) := ⟨0, rfl⟩
    refine hmode.bind (hgetstat.bind ?_)
    simp only [ne_eq, not_true_eq_false, if_false]
    refine htable.bind ?_
    rw [if_pos rfl]
    refine hdevice.bind ?_
    rw [if_neg (by decide)]
    exact hmount.bind hstart
  obtain ⟨s₃, hthread, hreset⟩ := loggedVolume_checks s₂ (hs₂ ▸ hstop) (hs₂ ▸ rfl) (hs₂ ▸ rfl)
  refine ⟨_, hopen.bind (hthread.bind ⟨0, rfl⟩), ?_⟩
  change s₃.pfs.1 = _
  rw [hreset, hs₂]
  dsimp only
  rw [hpfs]

/-- A session with an empty log and no mark of a write error. -/
theorem session_restored_logged : ∃ s,
    Runs (session loggedVolume false false) (loggedCheck false) () s ∧
      s.pfs.1.content = loggedDisk false := by
  have hrestored : Restored (loggedDisk false) := ⟨rfl, rfl, rfl⟩
  obtain ⟨s, hrun, -⟩ := loggedVolume_runs false
  exact ⟨s, hrun, session_restored loggedVolume_sectors trivial (fun _ => hrestored) false () s hrun⟩

/-- A log header of zeros is replaced. -/
theorem session_logged : ¬ ∀ (σ : Type) (C : SessionVolume σ) (drive : σ → FaultyDisk Sector) (clean : σ → Prop)
    (log : σ → Journal.pfs_mount_t), Sectors C drive clean log → ∀ (auto : Bool) (s s' : Check σ), clean s.pfs →
      Runs (session C false auto) s () s' → (drive s'.pfs).content = (drive s.pfs).content := by
  intro h
  obtain ⟨s, hrun, hdrive⟩ := loggedVolume_runs true
  have hsame := h _ loggedVolume Prod.fst (fun _ => True) Prod.snd loggedVolume_sectors false _ s trivial hrun
  rw [hdrive] at hsame
  have hword := congrFun (congrFun hsame (Journal.place 0 8240)) 0
  exact absurd hword (by decide)

end HddChecker.Fsck
