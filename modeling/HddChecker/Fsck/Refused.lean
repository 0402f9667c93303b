import HddChecker.Fsck.Compare
import HddChecker.Fsck.Open

/-!
# A check whose prompts are refused

Where fsck is opened without `FSCK_MODE_WRITE` every prompt is refused, so that no repair is made: of `libpfs` only operations that are no part of a repair are used. What all of these keep an opening and a thread keep, but for the restoring of the log, the flush of the cache and the mark of a write error, of which `FsckOpen` and `FsckThread` make sure without a prompt.
-/

namespace HddChecker.Fsck

open HddChecker Prog Pfs
open Opening (Tested)

variable {σ : Type}

/-! ### Steps -/

/-- The operations of `libpfs` that are no part of a repair keep a property. -/
structure Quiet (P : σ → Prop) (L : Libpfs σ) : Prop where
  setDentry : ∀ clink pos f v, P v → P (L.setDentry clink pos f v)
  pfsCacheGetData : ∀ sub block flag v, P v → P (L.pfsCacheGetData sub block flag v).2
  pfsCacheUsedAdd : ∀ clink v, P v → P (L.pfsCacheUsedAdd clink v)
  pfsCacheFree : ∀ clink v, P v → P (L.pfsCacheFree clink v)
  pfsInodeGetData : ∀ sub number v, P v → P (L.pfsInodeGetData sub number v).2
  transferRead : ∀ sub sector size v, P v → P (L.transferRead sub sector size v).2
  flushCache : ∀ v, P v → P (L.flushCache v)
  getPartError : ∀ v, P v → P (L.getPartError v)
  rewind : ∀ v, P v → P (L.rewind v)
  read : ∀ size v, P v → P (L.read size v).2

/-- Nothing may be written, so many errors were fixed, and `libpfs` has a property. -/
structure Reading (P : σ → Prop) (n : Nat) (s : Check σ) : Prop where
  write : s.fsckWriteEnabled = false
  fixed : s.status.fixedErrorCount = n
  pfs : P s.pfs

variable {α : Type} {P : σ → Prop} {n : Nat} {L : Libpfs σ} {m : Mount}

theorem reads_op {f : σ → α × σ} (hf : ∀ v, P v → P (f v).2) : Preserves (Reading P n) (pfsOp f) :=
  preserves_ofState fun s h => ⟨h.write, h.fixed, hf s.pfs h.pfs⟩

theorem reads_do {f : σ → σ} (hf : ∀ v, P v → P (f v)) : Preserves (Reading P n) (pfsDo f) :=
  preserves_ofState fun s h => ⟨h.write, h.fixed, hf s.pfs h.pfs⟩

theorem reads_show (f : σ → α) : Preserves (Reading P n) (pfsShow f) := preserves_read _

theorem reads_transfer (hread : ∀ sub sector size v, P v → P (L.transferRead sub sector size v).2)
    (sub sector size : Nat) : Preserves (Reading P n) (transferRead L sub sector size) :=
  preserves_ofState fun s h => ⟨h.write, h.fixed, hread sub sector size s.pfs h.pfs⟩

theorem wlp_pfsOp_bind {β : Type} {f : σ → β × σ} {g : β → Prog (Check σ) α} {s : Check σ} {Q : α → Check σ → Prop} :
    wlp (pfsOp f >>= g) s Q ↔ wlp (g (f s.pfs).1) { s with pfs := (f s.pfs).2 } Q := Iff.rfl

theorem wlp_transferRead_bind {sub sector size : Nat} {f : Int → Prog (Check σ) α} {s : Check σ}
    {Q : α → Check σ → Prop} : wlp (transferRead L sub sector size >>= f) s Q ↔
      wlp (f (L.transferRead sub sector size s.pfs).1.1)
        { s with
          pfs := (L.transferRead sub sector size s.pfs).2
          IOBuffer := (L.transferRead sub sector size s.pfs).1.2 } Q := Iff.rfl

private theorem reads_file (hL : Quiet P L) (size : Nat) : Preserves (Reading P n) (fileRead L size) :=
  preserves_ofState fun s h => ⟨h.write, h.fixed, hL.read size s.pfs h.pfs⟩

theorem reads_stop : Preserves (Reading (σ := σ) P n) stopFlag := by
  refine preserves_ofState fun s h => ?_
  split <;> exact ⟨h.write, h.fixed, h.pfs⟩

theorem reads_setError : Preserves (Reading (σ := σ) P n) setError :=
  preserves_ofState fun _ h => ⟨h.write, h.fixed, h.pfs⟩

theorem reads_setStatus {f : fsckStatus → fsckStatus} (hf : ∀ t, (f t).fixedErrorCount = t.fixedErrorCount) :
    Preserves (Reading (σ := σ) P n) (setStatus f) :=
  preserves_ofState fun _ h => ⟨h.write, (hf _).trans h.fixed, h.pfs⟩

theorem reads_note (e : WalkEvent) : Preserves (Reading (σ := σ) P n) (note e) :=
  preserves_ofState fun _ h => ⟨h.write, h.fixed, h.pfs⟩

theorem reads_crash : Preserves (Reading (σ := σ) P n) (crash (α := α)) := fun _ _ => wlp_crash

/-- Every prompt is refused. -/
private theorem prompt_refused (mode : Bool) {s : Check σ} (h : Reading P n s) :
    wlp (fsckPromptUserAction mode) s fun fix s' => fix = false ∧ Reading P n s' := by
  unfold fsckPromptUserAction countError setError
  simp only [wlp_modify_bind, wlp_read_bind, id, h.write, Bool.false_eq_true, if_false]
  exact wlp_pure ⟨rfl, rfl, h.fixed, h.pfs⟩

private theorem prompt2_refused (mode : Bool) {s : Check σ} (h : Reading P n s) :
    wlp (fsckPromptUserAction2 mode) s fun fix s' => fix = false ∧ Reading P n s' := by
  unfold fsckPromptUserAction2 setError
  simp only [wlp_modify_bind, wlp_read_bind, id, h.write, Bool.false_eq_true, if_false]
  exact wlp_pure ⟨rfl, rfl, h.fixed, h.pfs⟩

theorem wlp_prompt_bind (mode : Bool) {f : Bool → Prog (Check σ) α} {s : Check σ} {Q : α → Check σ → Prop}
    (h : Reading P n s) (hf : ∀ s', Reading P n s' → wlp (f false) s' Q) :
    wlp (fsckPromptUserAction mode >>= f) s Q := by
  refine wlp_bind ((prompt_refused mode h).mono ?_)
  intro fix s' hs'
  obtain ⟨rfl, h'⟩ := hs'
  exact hf s' h'

theorem reads_prompt (mode : Bool) {f : Bool → Prog (Check σ) α} (hf : Preserves (Reading P n) (f false)) :
    Preserves (Reading P n) (fsckPromptUserAction mode >>= f) := fun _ h => wlp_prompt_bind mode h hf

/-! ### The thread -/

private theorem fsckCheckExtendedAttribute_reads (hL : Quiet P L) :
    Preserves (Reading P n) (fsckCheckExtendedAttribute L) := by
  refine (reads_do hL.rewind).bind fun _ => Preserves.loop (fun remaining => ?_) _
  split
  · exact preserves_pure _
  · refine (reads_file hL _).bind fun result => ?_
    split
    · exact reads_prompt true (preserves_pure _)
    · exact preserves_pure _

private theorem pfsInitDirEnt_reads (subpart inodeNumber number : Nat) (isDir : Bool) :
    Preserves (Reading P n) (pfsInitDirEnt L subpart inodeNumber number isDir) :=
  reads_prompt true (preserves_pure _)

private theorem checkChunk_reads (clink index bit count : Nat) :
    Preserves (Reading P n) (checkChunk L clink index bit count) := by
  refine Preserves.loop (fun (index, bit, count) => ?_) _
  dsimp only
  split
  · exact preserves_pure _
  split
  · exact preserves_pure _
  · refine (reads_show _).bind fun set => ?_
    split
    · exact preserves_pure _
    · exact reads_prompt true (preserves_pure _)

private theorem pfsBitmapReadPartition_reads (hL : Quiet P L) (subpart chunk : Nat) :
    Preserves (Reading P n) (pfsBitmapReadPartition L m subpart chunk) := by
  refine (reads_op (hL.pfsCacheGetData _ _ _)).bind fun entry => ?_
  split <;> exact preserves_pure _

private theorem fsckCheckFileBitmap_reads (hL : Quiet P L) (blockinfo : pfs_blockinfo_t) :
    Preserves (Reading P n) (fsckCheckFileBitmap L m blockinfo) := by
  refine Preserves.loop (fun (chunk, index, bit, count) => ?_) _
  dsimp only
  split
  · exact preserves_pure _
  · refine (pfsBitmapReadPartition_reads hL _ _).bind fun entry => ?_
    split
    · exact preserves_pure _
    · refine (checkChunk_reads _ _ _ _).bind fun left => ?_
      split
      · exact preserves_pure _
      · exact (reads_do (hL.pfsCacheFree _)).bind fun _ => preserves_pure _

private theorem readSectors_reads (hL : Quiet P L) (clink : Nat) (info : pfs_blockinfo_t) (first : Bool)
    (i inodeOffset : Nat) : Preserves (Reading P n) (readSectors L m clink info first i inodeOffset) := by
  refine Preserves.loop (fun (sector, inodeOffset) => ?_) _
  refine (reads_show _).bind fun inode => ?_
  split
  · exact preserves_pure _
  · refine (reads_op (hL.pfsCacheGetData _ _ _)).bind fun child => ?_
    split
    · exact (reads_do (hL.pfsCacheFree _)).bind fun _ => preserves_pure _
    split
    · exact preserves_pure _
    · refine (pfsInitDirEnt_reads _ _ _ _).bind fun result => ?_
      split <;> exact preserves_pure _

private theorem readDirectory_reads (hL : Quiet P L) (clink : Nat) (info : pfs_blockinfo_t) (first : Bool)
    (inodeOffset : Nat) : Preserves (Reading P n) (readDirectory L m clink info first inodeOffset) := by
  refine Preserves.loop (fun (i, inodeOffset) => ?_) _
  dsimp only
  split
  · exact preserves_pure _
  · refine (readSectors_reads hL _ _ _ _ _).bind fun (result, inodeOffset) => ?_
    dsimp only
    split <;> exact preserves_pure _

private theorem readFile_reads (hL : Quiet P L) (info : pfs_blockinfo_t) (fill : Prog (Check σ) Unit) :
    Preserves (Reading P n) (readFile L m info fill) := by
  refine Preserves.loop (fun i => ?_) _
  split
  · exact preserves_pure _
  · refine (reads_transfer hL.transferRead _ _ _).bind fun result => ?_
    split
    · refine reads_stop.bind fun stopped => ?_
      split <;> exact preserves_pure _
    · exact reads_prompt true (preserves_pure _)

theorem claimZones_reads (hL : Quiet P L) (fill : Prog (Check σ) Unit) (blockClink : Nat) (info : pfs_blockinfo_t)
    (c : Cursor) (inodeOffset : Nat) :
    Preserves (Reading P n) (claimZones L m fill blockClink info c inodeOffset) := by
  refine (fsckCheckFileBitmap_reads hL _).bind fun result => ?_
  split
  · exact preserves_pure _
  · refine Preserves.bind (preserves_ofState fun _ h => ⟨h.write, h.fixed, h.pfs⟩) fun result => ?_
    split
    · exact reads_prompt true (preserves_pure _)
    split
    · exact preserves_pure _
    · refine (reads_setStatus fun _ => by rfl).bind fun _ => reads_stop.bind fun stopped => ?_
      split <;> exact preserves_pure _

theorem checkEntry_reads (hL : Quiet P L) (clink blockClink : Nat) (c : Cursor) :
    Preserves (Reading P n) (checkEntry L m clink blockClink c) := by
  refine (reads_show _).bind fun inode => ?_
  dsimp only
  split
  · exact reads_prompt true (preserves_pure _)
  · refine Preserves.bind (preserves_ofState fun _ h => ⟨h.write, h.fixed, h.pfs⟩) fun _ => ?_
    refine (reads_show _).bind fun self => ?_
    split
    · exact claimZones_reads hL _ _ _ _ _
    split
    · refine (readDirectory_reads hL _ _ _ _).bind fun (result, inodeOffset) => ?_
      dsimp only
      split
      · exact preserves_pure _
      · exact claimZones_reads hL _ _ _ _ _
    · refine (readFile_reads hL _ _).bind fun whole => ?_
      split
      · exact claimZones_reads hL _ _ _ _ _
      · exact preserves_pure _

private theorem checkEntries_reads (hL : Quiet P L) (clink : Nat) (c : Cursor) :
    Preserves (Reading P n) (checkEntries L m clink c) := by
  refine Preserves.loop (fun c => ?_) _
  refine (reads_show _).bind fun inode => ?_
  split
  · exact preserves_pure _
  split
  · exact reads_crash
  split
  · refine (reads_show _).bind fun inode => (reads_do (hL.pfsCacheFree _)).bind fun _ => ?_
    refine (reads_op (hL.pfsCacheGetData _ _ _)).bind fun entry => ?_
    split
    · split
      · exact reads_prompt true (preserves_pure _)
      · exact preserves_pure _
    · exact checkEntry_reads hL _ _ _
  · exact checkEntry_reads hL _ _ _

theorem fsckCheckDirentryInode_reads (hL : Quiet P L) (direntInodeClink : Nat) :
    Preserves (Reading P n) (fsckCheckDirentryInode L m direntInodeClink) := by
  refine (reads_do (hL.pfsCacheUsedAdd _)).bind fun _ => ?_
  refine (checkEntries_reads hL _ _).bind fun (blockClink, result) => ?_
  dsimp only
  split
  · exact reads_setError.bind fun _ => (reads_do (hL.pfsCacheFree _)).bind fun _ => preserves_pure _
  · exact (reads_do (hL.pfsCacheFree _)).bind fun _ => preserves_pure _

private theorem pfsInodeSync_reads (hL : Quiet P L) (size used_segments : Nat) (blockpos : pfs_blockpos_t) :
    Preserves (Reading P n) (pfsInodeSync L m size used_segments blockpos) := by
  have hnext : ∀ clink, Preserves (Reading P n) (pfsBlockGetNextSegment L m clink) := by
    intro clink
    refine (reads_do (hL.pfsCacheFree _)).bind fun _ => (reads_show _).bind fun inode => ?_
    dsimp only
    split
    · exact reads_op (hL.pfsCacheGetData _ _ _)
    · exact preserves_pure _
  refine Preserves.loop (fun (i, blockpos) => ?_) _
  dsimp only
  split
  · exact preserves_pure _
  split
  · exact reads_crash
  · refine (reads_show _).bind fun inode => ?_
    split
    · exact preserves_pure _
    split
    · exact preserves_pure _
    -- whether it is the last segment or not, it may be a descriptor
    split
    all_goals
      split
      · exact preserves_pure _
      · refine (hnext _).bind fun next => ?_
        split <;> exact preserves_pure _

theorem pfsGetDentriesChunk_reads (hL : Quiet P L) (number_data : Nat) (stood : Option Stand)
    (position : pfs_blockpos_t) (clink : Nat) :
    Preserves (Reading P n) (pfsGetDentriesChunk L m number_data stood position clink) := by
  refine (reads_show _).bind fun inode => (reads_op (hL.pfsCacheGetData _ _ _)).bind fun entry => ?_
  split
  · exact (reads_note _).bind fun _ => preserves_pure _
  · exact (reads_note _).bind fun _ => preserves_pure _

theorem checkDotEntry_reads (inodeClink clink pos : Nat) :
    Preserves (Reading P n) (checkDotEntry L inodeClink clink pos) := by
  refine (reads_show _).bind fun e => (reads_show _).bind fun sub => (reads_show _).bind fun inode => ?_
  split
  · exact reads_prompt true (preserves_pure _)
  · exact preserves_pure _

private theorem checkAttribute_reads (hL : Quiet P L) (aLen clink : Nat) :
    Preserves (Reading P n) (checkAttribute L aLen clink) := by
  unfold checkAttribute
  split
  · exact preserves_pure _
  refine (reads_show _).bind fun sub => (reads_show _).bind fun block => ?_
  refine (reads_transfer hL.transferRead _ _ _).bind fun result => ?_
  split
  · exact reads_prompt true reads_setError
  · exact preserves_pure _

private theorem fsckCheckFile_reads (hL : Quiet P L) {files : Nat → Nat → Prog (Check σ) Unit}
    (hfiles : ∀ parent clink, Preserves (Reading P n) (files parent clink))
    (FileInodeClink FileInodeDataClink DEntryClink pos : Nat) :
    Preserves (Reading P n) (fsckCheckFile L m files FileInodeClink FileInodeDataClink DEntryClink pos) := by
  refine (preserves_read _).bind fun s => ?_
  split
  · refine (reads_setStatus fun _ => by rfl).bind fun _ => (reads_show _).bind fun e => ?_
    refine (checkAttribute_reads hL _ _).bind fun _ => ?_
    refine (fsckCheckDirentryInode_reads hL _).bind fun _ => (reads_show _).bind fun e => ?_
    split
    · refine (reads_setStatus fun _ => by rfl).bind fun _ => ?_
      exact (hfiles _ _).bind fun _ => reads_setStatus fun _ => by rfl
    · refine (reads_setStatus fun _ => by rfl).bind fun _ => ?_
      exact reads_setStatus fun _ => by rfl
  · exact reads_setError

/-- An entry that is too long or too short is emptied in its buffer, which does not become dirty. -/
theorem emptied_reads (hL : Quiet P L) (clink pos size : Nat) : Preserves (Reading P n) do
    emptyEntry L clink pos
    return size :=
  (reads_do (hL.setDentry _ _ _)).bind fun _ => preserves_pure _

private theorem checkLength_reads (hL : Quiet P L) (clink pos bound : Nat) :
    Preserves (Reading P n) (checkLength L clink pos bound) := by
  have haligned : ∀ size, Preserves (Reading P n) (checkAligned L clink pos bound size) := by
    intro size
    unfold checkAligned
    split
    · exact reads_prompt true (preserves_pure _)
    · exact preserves_pure _
  have hneeded : ∀ needed size, Preserves (Reading P n) (checkNeeded L clink pos bound needed size) := by
    intro needed size
    unfold checkNeeded
    split
    · exact reads_prompt true (emptied_reads hL _ _ _)
    · exact preserves_pure _
  refine (reads_show _).bind fun e => (haligned _).bind fun size => (hneeded _ _).bind fun size => ?_
  split
  · exact reads_prompt true (emptied_reads hL _ _ _)
  · exact preserves_pure _

private theorem checkNamed_reads (hL : Quiet P L) {files : Nat → Nat → Prog (Check σ) Unit}
    (hfiles : ∀ parent clink, Preserves (Reading P n) (files parent clink))
    (ParentInodeClink InodeClink DEntryClink pos : Nat) :
    Preserves (Reading P n) (checkNamed L m files ParentInodeClink InodeClink DEntryClink pos) := by
  refine (reads_show _).bind fun e => ?_
  split
  · exact preserves_pure _
  split
  · exact checkDotEntry_reads _ _ _
  split
  · exact checkDotEntry_reads _ _ _
  · refine (reads_op (hL.pfsInodeGetData _ _)).bind fun entry => ?_
    split
    · exact (fsckCheckFile_reads hL hfiles _ _ _ _).bind fun _ => reads_do (hL.pfsCacheFree _)
    split
    · exact reads_prompt true (preserves_pure _)
    · exact reads_setError

private theorem checkChain_reads (hL : Quiet P L) {files : Nat → Nat → Prog (Check σ) Unit}
    (hfiles : ∀ parent clink, Preserves (Reading P n) (files parent clink))
    (ParentInodeClink InodeClink DEntryClink pos inodeOffset bound : Nat) :
    Preserves (Reading P n)
      (checkChain L m files ParentInodeClink InodeClink DEntryClink pos inodeOffset bound) := by
  refine Preserves.loop (fun (pos, inodeOffset) => ?_) _
  dsimp only
  split
  · exact preserves_pure _
  · refine reads_stop.bind fun stopped => ?_
    split
    · exact preserves_pure _
    · refine (checkLength_reads hL _ _ _).bind fun size => ?_
      exact (checkNamed_reads hL hfiles _ _ _ _).bind fun _ => preserves_pure _

private theorem nextBlock_reads (hL : Quiet P L) (InodeClink : Nat) (x : Place) :
    Preserves (Reading P n) (nextBlock L m InodeClink x) := by
  unfold nextBlock
  split
  · exact preserves_pure _
  · refine (reads_do (hL.pfsCacheFree _)).bind fun _ => (reads_show _).bind fun inode => ?_
    split
    · exact reads_crash
    · refine (reads_show _).bind fun stood => ?_
      refine (pfsInodeSync_reads hL _ _ _).bind fun (result, BlockPosition) => ?_
      dsimp only
      split
      · exact preserves_pure _
      split
      · exact reads_crash
      · exact (pfsGetDentriesChunk_reads hL _ _ _ _).bind fun _ => preserves_pure _

private theorem checkBlocks_reads (hL : Quiet P L) {files : Nat → Nat → Prog (Check σ) Unit}
    (hfiles : ∀ parent clink, Preserves (Reading P n) (files parent clink))
    (ParentInodeClink InodeClink : Nat) (x : Place) :
    Preserves (Reading P n) (checkBlocks L m files ParentInodeClink InodeClink x) := by
  refine Preserves.loop (fun x => ?_) _
  refine (reads_show _).bind fun inode => ?_
  split
  · exact preserves_pure _
  · refine (nextBlock_reads hL _ _).bind fun (x, there) => ?_
    dsimp only
    split
    · refine (checkChain_reads hL hfiles _ _ _ _ _ _).bind fun next => ?_
      split
      · exact preserves_pure _
      · refine reads_stop.bind fun stopped => ?_
        split <;> exact preserves_pure _
    · exact reads_setError.bind fun _ => preserves_pure _

/-- The check of a directory, by induction on the levels below it. -/
private theorem checkLevels_reads (hL : Quiet P L) (levels ParentInodeClink InodeClink : Nat) :
    Preserves (Reading P n) (checkLevels L m levels ParentInodeClink InodeClink) := by
  induction levels generalizing ParentInodeClink InodeClink with
  | zero => exact preserves_pure _
  | succ levels ih =>
    refine (reads_do (hL.pfsCacheUsedAdd _)).bind fun _ => (reads_show _).bind fun inode => ?_
    refine (pfsGetDentriesChunk_reads hL _ _ _ _).bind fun chunk => ?_
    split
    · exact (reads_do (hL.pfsCacheFree _)).bind fun _ => reads_setError
    · refine (checkBlocks_reads hL ih _ _ _).bind fun x => ?_
      exact (reads_do (hL.pfsCacheFree _)).bind fun _ => reads_do (hL.pfsCacheFree _)

/-- No word is replaced. -/
private theorem compareWords_refused (pBitmap : Words) (length : Nat) {s : Check σ} (h : Reading P n s) :
    wlp (compareWords pBitmap length) s fun hasUpdate s' => hasUpdate = false ∧ Reading P n s' := by
  refine wlp_loop (fun x s' => x.2 = false ∧ Reading P n s') ?_ ⟨rfl, h⟩
  intro x s hx
  obtain ⟨k, hasUpdate⟩ := x
  obtain ⟨hnone, h⟩ := hx
  dsimp only at hnone ⊢
  subst hnone
  split
  · exact wlp_pure ⟨rfl, h⟩
  · refine wlp_read_bind.mpr ?_
    split
    · exact wlp_pure ⟨rfl, h⟩
    · refine wlp_bind ((prompt2_refused true h).mono ?_)
      intro fix s' hs'
      obtain ⟨rfl, h'⟩ := hs'
      exact wlp_pure ⟨rfl, h'⟩

private theorem fsckCompareBitmap_reads (hL : Quiet P L) : Preserves (Reading P n) (fsckCompareBitmap L m) := by
  have hpartition : ∀ i, Preserves (Reading P n) (comparePartition L m i) := by
    intro i
    refine Preserves.loop (fun zone => ?_) _
    dsimp only
    split
    · exact preserves_pure _
    · refine Preserves.bind (preserves_ofState fun _ h => ⟨h.write, h.fixed, h.pfs⟩) fun words => ?_
      refine (reads_transfer hL.transferRead _ _ _).bind fun result => ?_
      split
      · exact preserves_pure _
      split
      · exact reads_crash
      · intro s h
        refine wlp_bind ((compareWords_refused _ _ h).mono ?_)
        intro hasUpdate s' hs'
        obtain ⟨rfl, h'⟩ := hs'
        exact wlp_pure h'
  refine Preserves.loop (fun i => ?_) _
  split
  · exact preserves_pure _
  · exact (hpartition i).bind fun _ => preserves_pure _

private theorem CheckRootDirectory_reads (hL : Quiet P L) : Preserves (Reading P n) (CheckRootDirectory L m) := by
  refine (reads_op (hL.pfsInodeGetData _ _)).bind fun root => ?_
  split
  · exact preserves_pure _
  · refine (fsckCheckDirentryInode_reads hL _).bind fun result => ?_
    split
    · exact preserves_pure _
    · exact (reads_do (hL.pfsCacheFree _)).bind fun _ => preserves_pure _

/-- There is no mark of a write error in the superblock, as far as it can be read. -/
def Unmarked (P : σ → Prop) (L : Libpfs σ) : Prop :=
  ∀ v, P v → (L.transferRead 0 PFS_SUPER_SECTOR 1 v).1.1 = 0 →
    (L.transferRead 0 PFS_SUPER_SECTOR 1 v).1.2 3 &&& PFS_FSCK_STAT_WRITE_ERROR = 0

private theorem clearWriteError_reads (hL : Quiet P L) (hmark : Unmarked P L) :
    Preserves (Reading P n) (clearWriteError L) := by
  have hupdate : ∀ f, Preserves (Reading P n)
      (updateSuper L (fun stat => stat &&& PFS_FSCK_STAT_WRITE_ERROR != 0) f) := by
    intro f s h
    have hread := hL.transferRead 0 PFS_SUPER_SECTOR 1 s.pfs h.pfs
    refine wlp_transferRead_bind.mpr ?_
    split
    · rename_i hresult
      have hunmarked := hmark s.pfs h.pfs hresult
      refine wlp_read_bind.mpr ?_
      rw [if_neg (by simp [hunmarked])]
      exact wlp_pure ⟨h.write, h.fixed, hread⟩
    · exact wlp_pure ⟨h.write, h.fixed, hread⟩
  exact (hupdate _).bind fun _ => reads_do hL.getPartError

theorem unlessFailed_reads {p : Prog (Check σ) Unit} (hp : Preserves (Reading P n) p) :
    Preserves (Reading P n) (unlessFailed p) := by
  refine (preserves_read _).bind fun failed => ?_
  split
  · exact preserves_pure _
  · refine reads_stop.bind fun stopped => ?_
    split
    · exact preserves_pure _
    · exact hp

/-- No error was fixed, so that the superblock does not tell of one. -/
private theorem markFixed_reads : Preserves (Reading P 0) (markFixed L) := by
  intro s h
  refine wlp_read_bind.mpr ?_
  rw [if_neg (not_not.mpr h.fixed)]
  exact wlp_pure h

theorem FsckThread_reads (hL : Quiet P L) (hflush : ∀ v, P v → P (L.pfsCacheFlushAllDirty v))
    (hmark : Unmarked P L) : Preserves (Reading P 0) (FsckThread L m) := by
  refine (fsckCheckExtendedAttribute_reads hL).bind fun result => ?_
  split
  · exact preserves_pure _
  · refine (CheckRootDirectory_reads hL).bind fun root => ?_
    split
    · exact preserves_pure _
    · refine (reads_setStatus fun _ => by rfl).bind fun _ => (checkLevels_reads hL _ _ _).bind fun _ => ?_
      refine (reads_do hflush).bind fun _ => (reads_do (hL.pfsCacheFree _)).bind fun _ => ?_
      refine Preserves.bind ?_ fun _ => preserves_pure _
      refine (unlessFailed_reads (fsckCompareBitmap_reads hL)).bind fun _ => ?_
      refine (unlessFailed_reads (clearWriteError_reads hL hmark)).bind fun _ => ?_
      exact markFixed_reads.bind fun _ => reads_do hL.flushCache

/-! ### The opening -/

variable {D : Volume σ} {R : σ → Prop} {d : View} {s : Check σ}

private theorem fsckCheckBitmap_reads (hread : ∀ sub sector size v, P v → P (D.transferRead sub sector size v).2) :
    Preserves (Reading P n) (fsckCheckBitmap D m) := by
  have hblocks : ∀ i, Preserves (Reading P n) (checkBitmapBlocks D m i) := by
    intro i
    refine Preserves.loop (fun block => ?_) _
    dsimp only
    split
    · exact preserves_pure _
    · refine (reads_transfer hread _ _ _).bind fun result => ?_
      split
      · exact reads_prompt true (preserves_pure _)
      · exact preserves_pure _
  refine Preserves.loop (fun i => ?_) _
  split
  · exact preserves_pure _
  · refine (hblocks i).bind fun result => ?_
    split <;> exact preserves_pure _

/-- The words of the superblock on the disk. -/
def superOf (d : View) : Words := fun k => d 0 (PFS_SUPER_SECTOR * 128 + k)

/-- The words are those of the superblock. -/
def OfSuper (d : View) (words : Words) : Prop := ∀ k < 128, words k = superOf d k

/-- What `CheckSuperBlock` makes sure of before it restores the log: the superblock can be read and passes the tests, and the partition has as many sub-partitions as the filesystem. -/
structure Mountable (D : Volume σ) (d : View) (v : σ) : Prop where
  readable : 0 ≤ (D.transferRead 0 PFS_SUPER_SECTOR 1 v).1.1
  tested : Tested (superOf d)
  fits : superOf d 5 ≤ D.getSubNumber v

/-- The partition is one of the filesystem, and the log of its superblock is restored. -/
structure Openable (D : Volume σ) (d : View) (v : σ) : Prop where
  stat : (D.getstat v).1 = .ok APA_TYPE_PFS
  table : D.pfsGetBlockDeviceTable (D.getstat v).2 = true
  device : 0 ≤ (D.openDevice (D.getstat v).2).1
  super : Mountable D d (D.openDevice (D.getstat v).2).2

/-- Neither superblock is written: the one that is gone on with was read. -/
private theorem loadSuper_reads (hread : ∀ sub sector size v, P v → P (D.transferRead sub sector size v).2)
    (hsuper : ∀ v, P v → 0 ≤ (D.transferRead 0 PFS_SUPER_SECTOR 1 v).1.1 →
      OfSuper d (D.transferRead 0 PFS_SUPER_SECTOR 1 v).1.2) (h : Reading P n s) :
    wlp (loadSuper D) s fun result s' => Reading P n s' ∧ (0 ≤ result →
      0 ≤ (D.transferRead 0 PFS_SUPER_SECTOR 1 s.pfs).1.1 ∧ OfSuper d s'.IOBuffer ∧
        s'.IOBuffer 0 = PFS_SUPER_MAGIC) := by
  have hfail : ∀ s₁ : Check σ, Reading P n s₁ → wlp (pure (- EIO)) s₁ fun (result : Int) s' =>
      Reading P n s' ∧ (0 ≤ result → 0 ≤ (D.transferRead 0 PFS_SUPER_SECTOR 1 s.pfs).1.1 ∧
        OfSuper d s'.IOBuffer ∧ s'.IOBuffer 0 = PFS_SUPER_MAGIC) :=
    fun s h => wlp_pure ⟨h, fun hge => absurd hge (by decide)⟩
  have hfirst := hread 0 PFS_SUPER_SECTOR 1 s.pfs h.pfs
  refine wlp_transferRead_bind.mpr (wlp_read_bind.mpr ?_)
  split
  · refine wlp_transferRead_bind.mpr ?_
    have hsecond := hread 0 PFS_SUPER_BACKUP_SECTOR 1 _ hfirst
    split
    · exact hfail _ ⟨h.write, h.fixed, hsecond⟩
    · refine wlp_read_bind.mpr ?_
      split
      · exact hfail _ ⟨h.write, h.fixed, hsecond⟩
      · exact wlp_prompt_bind true ⟨h.write, h.fixed, hsecond⟩ hfail
  · rename_i hgood
    rw [not_or, Int.not_lt] at hgood
    exact wlp_pure ⟨⟨h.write, h.fixed, hfirst⟩,
      fun _ => ⟨hgood.1, hsuper s.pfs h.pfs hgood.1, not_not.mp hgood.2⟩⟩

private theorem checkSubNumber_reads (num_subs : Nat) (h : Reading P n s) :
    wlp (checkSubNumber D num_subs) s fun result s' =>
      Reading P n s' ∧ (0 ≤ result → s.IOBuffer 5 ≤ num_subs ∧ s'.IOBuffer = s.IOBuffer) := by
  refine wlp_read_bind.mpr ?_
  split
  · refine wlp_prompt_bind true h fun s' h' => ?_
    exact wlp_pure ⟨h', fun hge => absurd hge (by decide)⟩
  · rename_i hfits
    exact wlp_pure ⟨h, fun _ => ⟨Nat.not_lt.mp hfits, rfl⟩⟩

/-- Restoring the log that the superblock of the disk names leads from one property to another. -/
def Restores (D : Volume σ) (d : View) (P R : σ → Prop) : Prop :=
  ∀ m log v, P v → log.number = (blockinfoOf (superOf d) 6).number → m.sector_scale = pfsGetScale (superOf d 4) 512 →
    R (D.pfsJournalRestore m log v).2

private theorem mountVolume_reads (hread : ∀ sub sector size v, R v → R (D.transferRead sub sector size v).2)
    (hcount : ∀ m i v, R v → R (D.pfsBitmapCalcFreeZones m i v).2) (hrestore : Restores D d P R)
    (num_subs : Nat) {words : Words} (hwords : OfSuper d words) (h : Reading P n s) :
    wlp (mountVolume D num_subs words) s fun _ s' => Reading R n s' := by
  have hlog : (blockinfoOf words 6).number = (blockinfoOf (superOf d) 6).number := hwords 6 (by decide)
  have hscale : (mountOf num_subs words).sector_scale = pfsGetScale (superOf d 4) 512 := by
    rw [← hwords 4 (by decide)]
    rfl
  have hrestored : wlp (pfsOp (D.pfsJournalRestore (mountOf num_subs words) (blockinfoOf words 6))) s
      fun _ s' => Reading R n s' := wlp_ofState ⟨h.write, h.fixed, hrestore _ _ s.pfs h.pfs hlog hscale⟩
  refine wlp_bind (hrestored.mono ?_)
  intro result s' h'
  split
  · exact wlp_pure h'
  · refine ((reads_show _).bind fun sizes => (fsckCheckBitmap_reads hread).bind fun result => ?_) s' h'
    split
    · exact preserves_pure _
    · refine Preserves.bind (Preserves.loop (fun x => ?_) _) fun _ => preserves_pure _
      dsimp only
      split
      · exact preserves_pure _
      · exact (reads_op (hcount _ _)).bind fun _ => preserves_pure _

/-- The superblock and the bitmaps are checked without a repair. Only the log of a superblock that can be mounted is restored. -/
private theorem CheckSuperBlock_reads (hread : ∀ sub sector size v, P v → P (D.transferRead sub sector size v).2)
    (hread' : ∀ sub sector size v, R v → R (D.transferRead sub sector size v).2)
    (hcount : ∀ m i v, R v → R (D.pfsBitmapCalcFreeZones m i v).2) (hrestore : Mountable D d s.pfs → Restores D d P R)
    (hsuper : ∀ v, P v → 0 ≤ (D.transferRead 0 PFS_SUPER_SECTOR 1 v).1.1 →
      OfSuper d (D.transferRead 0 PFS_SUPER_SECTOR 1 v).1.2) (h : Reading P n s) :
    wlp (CheckSuperBlock D) s fun r s' =>
      Mountable D d s.pfs ∧ Reading R n s' ∨ Reading P n s' ∧ ∃ result, r = .error result := by
  refine wlp_read_bind.mpr (wlp_bind ((loadSuper_reads hread hsuper h).mono ?_))
  intro result s₁ h₁
  obtain ⟨h₁, hwords⟩ := h₁
  split
  · exact wlp_pure (.inr ⟨h₁, _, rfl⟩)
  rename_i hloaded
  obtain ⟨hreadable, hwords, hmagic⟩ := hwords (Int.not_lt.mp hloaded)
  refine wlp_read_bind.mpr ?_
  split
  · exact wlp_pure (.inr ⟨h₁, _, rfl⟩)
  rename_i hversion
  split
  · exact wlp_pure (.inr ⟨h₁, _, rfl⟩)
  rename_i hzone
  have htested : Tested (superOf d) := by
    rw [not_or, not_or] at hzone
    unfold Tested
    rw [← hwords 0 (by decide), ← hwords 1 (by decide), ← hwords 4 (by decide)]
    exact ⟨hmagic, Nat.not_lt.mp hversion, not_not.mp hzone.1, Nat.not_lt.mp hzone.2.1, Nat.not_lt.mp hzone.2.2⟩
  refine wlp_bind ((checkSubNumber_reads _ h₁).mono ?_)
  intro result s₂ h₂
  obtain ⟨h₂, hsame⟩ := h₂
  split
  · exact wlp_pure (.inr ⟨h₂, _, rfl⟩)
  · rename_i hpassed
    obtain ⟨hfits, hsame⟩ := hsame (Int.not_lt.mp hpassed)
    have hmountable : Mountable D d s.pfs := ⟨hreadable, htested, hwords 5 (by decide) ▸ hfits⟩
    refine wlp_read_bind.mpr ((mountVolume_reads hread' hcount (hrestore hmountable) _ ?_ h₂).mono ?_)
    · rw [hsame]
      exact hwords
    · intro r s' h
      exact .inl ⟨hmountable, h⟩

/-- Nothing may be written, and `libpfs` has a property. -/
structure Refusing (P : σ → Prop) (s : Check σ) : Prop where
  write : s.fsckWriteEnabled = false
  pfs : P s.pfs

theorem setStatus_refusing (f : fsckStatus → fsckStatus) : Preserves (Refusing (σ := σ) P) (setStatus f) :=
  preserves_ofState fun _ h => ⟨h.write, h.pfs⟩

private theorem clearRuntimeData_refusing : Preserves (Refusing (σ := σ) P) clearRuntimeData :=
  preserves_ofState fun _ h => ⟨h.write, h.pfs⟩

private theorem takeHeads_refusing (log : pfs_blockinfo_t) : Preserves (Refusing P) (takeHeads m log) := by
  refine Preserves.loop (fun i => ?_) _
  dsimp only
  split
  · exact preserves_pure _
  · refine Preserves.bind (preserves_ofState fun _ h => ⟨h.write, h.pfs⟩) fun result => ?_
    split
    · exact preserves_pure _
    · exact (setStatus_refusing _).bind fun _ => preserves_pure _

/-- The runtime data has nothing to do with `libpfs`. -/
private theorem startRuntime_refusing (f : Filesystem) : Preserves (Refusing P) (startRuntime f) := by
  refine Preserves.bind (preserves_ofState fun _ h => ⟨h.write, h.pfs⟩) fun initialized => ?_
  split
  · refine clearRuntimeData_refusing.bind fun _ => (setStatus_refusing _).bind fun _ => ?_
    exact (takeHeads_refusing _).bind fun _ => preserves_pure _
  · exact preserves_pure _

theorem FsckOpen_refusing (hstat : ∀ v, P v → P (D.getstat v).2) (hdevice : ∀ v, P v → P (D.openDevice v).2)
    (hread : ∀ sub sector size v, P v → P (D.transferRead sub sector size v).2)
    (hread' : ∀ sub sector size v, R v → R (D.transferRead sub sector size v).2)
    (hcount : ∀ m i v, R v → R (D.pfsBitmapCalcFreeZones m i v).2) (hrestore : Openable D d s.pfs → Restores D d P R)
    (hsuper : ∀ v, P v → 0 ≤ (D.transferRead 0 PFS_SUPER_SECTOR 1 v).1.1 →
      OfSuper d (D.transferRead 0 PFS_SUPER_SECTOR 1 v).1.2) (hs : P s.pfs) (auto : Bool) :
    wlp (FsckOpen D false auto) s fun r s' =>
      (P s'.pfs ∨ R s'.pfs) ∧ ∀ m, r = .ok m → Openable D d s.pfs ∧ Refusing R s' := by
  have herror : ∀ (result : Int) (s₁ : Check σ), P s₁.pfs ∨ R s₁.pfs → wlp (pure (.error result)) s₁
      fun (r : Except Int Mount) s' =>
        (P s'.pfs ∨ R s'.pfs) ∧ ∀ m, r = .ok m → Openable D d s.pfs ∧ Refusing R s' :=
    fun result s h => wlp_pure ⟨h, fun m heq => by cases heq⟩
  have hstat := hstat s.pfs hs
  have hdevice := hdevice _ hstat
  refine wlp_modify_bind.mpr (wlp_pfsOp_bind.mpr ?_)
  split
  · exact herror _ _ (.inl hstat)
  rename_i mode hmode
  split
  · exact herror _ _ (.inl hstat)
  rename_i htype
  refine wlp_read_bind.mpr ?_
  split
  · rename_i htable
    refine wlp_pfsOp_bind.mpr ?_
    split
    · exact herror _ _ (.inl hdevice)
    rename_i hopened
    have hopenable : Mountable D d (D.openDevice (D.getstat s.pfs).2).2 → Openable D d s.pfs := fun hsuper =>
      ⟨hmode.trans (congrArg Except.ok (not_not.mp htype)), htable, Int.not_lt.mp hopened, hsuper⟩
    have h₂ : Reading P s.status.fixedErrorCount { s with
        pfs := (D.openDevice (D.getstat s.pfs).2).2, fsckWriteEnabled := false, fsckAutoMode := auto } :=
      ⟨rfl, rfl, hdevice⟩
    refine wlp_bind ((CheckSuperBlock_reads hread hread' hcount (fun h => hrestore (hopenable h)) hsuper h₂).mono ?_)
    intro f s₃ h₃
    rcases h₃ with ⟨hmountable, h₃⟩ | ⟨h₃, result, rfl⟩
    · split
      · exact herror _ _ (.inr h₃.pfs)
      · refine (startRuntime_refusing _ _ ⟨h₃.write, h₃.pfs⟩).mono ?_
        intro r s' h
        exact ⟨.inr h.pfs, fun _ _ => ⟨hopenable hmountable, h⟩⟩
    · exact herror _ _ (.inl h₃.pfs)
  · exact herror _ _ (.inl hstat)

end HddChecker.Fsck
