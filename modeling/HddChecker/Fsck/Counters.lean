import HddChecker.Fsck.Walk

/-!
# The counters of a check

Only the prompts of a check count errors, and only the walk of the directories is recorded, so that what these keep the whole thread keeps. Where fsck may write and asks nobody, every error it counts is counted as fixed at once: the two counters the front end compares are always equal, also where the thread gave up or something failed.
-/

namespace HddChecker.Fsck

open HddChecker Prog Pfs

variable {σ : Type} {L : Libpfs σ} {m : Mount} {I : Check σ → Prop}

/-- Two states in which the same errors are counted, and the same walk and runs of zones recorded. -/
structure SameCounts (s s' : Check σ) : Prop where
  write : s'.fsckWriteEnabled = s.fsckWriteEnabled
  auto : s'.fsckAutoMode = s.fsckAutoMode
  errorCount : s'.status.errorCount = s.status.errorCount
  fixedErrorCount : s'.status.fixedErrorCount = s.status.fixedErrorCount
  reported : s'.reported = s.reported
  repaired : s'.repaired = s.repaired
  walk : s'.walk = s.walk
  used : s'.used = s.used
  scratch : s'.scratch = s.scratch

/-- An entry of the cache the walk got as a chunk. -/
def Check.Got (s : Check σ) (DEntryClink : Nat) : Prop :=
  ∃ v, WalkEvent.read v ∈ s.walk ∧ v.DEntryClink = some DEntryClink

/-- A condition that a prompt keeps, and all that neither counts nor records anything and leaves the scratch bitmap alone. -/
structure Prompting (I : Check σ → Prop) : Prop where
  same : ∀ {s s'}, I s → SameCounts s s' → I s'
  prompt : Preserves I (fsckPromptUserAction true)

/-- What is recorded of the walk and the zones and what is looked up in the scratch bitmap keeps the condition too. Nothing else changes these, so the whole check keeps it. -/
structure Counting (m : Mount) (I : Check σ → Prop) : Prop extends Prompting I where
  read : ∀ {s v}, I s → v.Sound → I { s with walk := .read v :: s.walk }
  mark : ∀ {s DEntryClink}, I s → s.Got DEntryClink → I { s with walk := .mark DEntryClink :: s.walk }
  use : ∀ {s info}, I s → badZone m info = false → I { s with used := (m, info) :: s.used }
  look : ∀ {s} (l : Lookup), I s → I { s with scratch := s.scratch.lookup l }

theorem Check.Got.cons {s : Check σ} {DEntryClink : Nat} (h : s.Got DEntryClink) (e : WalkEvent) :
    ({ s with walk := e :: s.walk } : Check σ).Got DEntryClink := by
  obtain ⟨v, hv, hclink⟩ := h
  exact ⟨v, List.mem_cons_of_mem _ hv, hclink⟩

/-- A prompt records nothing: the walk and the runs of zones stay as they are, and so does the scratch bitmap. -/
theorem fsckPromptUserAction_records (mode : Bool)
    {P : List WalkEvent → List (Mount × pfs_blockinfo_t) → Scratch → Prop} :
    Preserves (σ := Check σ) (fun s => P s.walk s.used s.scratch) (fsckPromptUserAction mode) := by
  refine Preserves.bind (preserves_ofState fun _ h => h) fun _ => (preserves_read _).bind fun s => ?_
  split
  · split
    · split
      · exact Preserves.bind (preserves_ofState fun _ h => h) fun _ => preserves_pure _
      · exact Preserves.bind (preserves_ofState fun _ h => h) fun _ => preserves_pure _
    · refine Preserves.bind (preserves_ofState fun _ h => h) fun yes => ?_
      split
      · exact Preserves.bind (preserves_ofState fun _ h => h) fun _ => preserves_pure _
      · exact Preserves.bind (preserves_ofState fun _ h => h) fun _ => preserves_pure _
  · exact Preserves.bind (preserves_ofState fun _ h => h) fun _ => preserves_pure _

private theorem fsckPromptUserAction_walk (mode : Bool) (walk : List WalkEvent) :
    Preserves (σ := Check σ) (fun s => s.walk = walk) (fsckPromptUserAction mode) :=
  fsckPromptUserAction_records mode (P := fun w _ _ => w = walk)

/-- What the walk got it has got for good. -/
theorem Counting.got (hI : Counting m I) (DEntryClink : Nat) :
    Counting m fun s => I s ∧ s.Got DEntryClink where
  same h hsame := ⟨hI.same h.1 hsame, by
    obtain ⟨v, hv, hclink⟩ := h.2
    exact ⟨v, hsame.walk ▸ hv, hclink⟩⟩
  prompt s h a s' hrun := ⟨hI.prompt s h.1 a s' hrun, by
    obtain ⟨v, hv, hclink⟩ := h.2
    exact ⟨v, fsckPromptUserAction_walk true s.walk s rfl a s' hrun ▸ hv, hclink⟩⟩
  read h hv := ⟨hI.read h.1 hv, h.2.cons _⟩
  mark h hgot := ⟨hI.mark h.1 hgot, h.2.cons _⟩
  use h hgood := ⟨hI.use h.1 hgood, h.2⟩
  look l h := ⟨hI.look l h.1, h.2⟩

/-! ### Steps -/

theorem pfsOp_counts (hI : Prompting I) {α : Type} (f : σ → α × σ) : Preserves I (pfsOp f) :=
  preserves_ofState fun _ h => hI.same h ⟨rfl, rfl, rfl, rfl, rfl, rfl, rfl, rfl, rfl⟩

theorem pfsDo_counts (hI : Prompting I) (f : σ → σ) : Preserves I (pfsDo f) :=
  preserves_ofState fun _ h => hI.same h ⟨rfl, rfl, rfl, rfl, rfl, rfl, rfl, rfl, rfl⟩

theorem transferRead_counts (hI : Prompting I) (sub sector size : Nat) :
    Preserves I (transferRead L sub sector size) :=
  preserves_ofState fun _ h => hI.same h ⟨rfl, rfl, rfl, rfl, rfl, rfl, rfl, rfl, rfl⟩

theorem transferWrite_counts (hI : Prompting I) (sub sector size : Nat) :
    Preserves I (transferWrite L sub sector size) :=
  preserves_ofState fun _ h => hI.same h ⟨rfl, rfl, rfl, rfl, rfl, rfl, rfl, rfl, rfl⟩

private theorem fileRead_counts (hI : Prompting I) (size : Nat) : Preserves I (fileRead L size) :=
  preserves_ofState fun _ h => hI.same h ⟨rfl, rfl, rfl, rfl, rfl, rfl, rfl, rfl, rfl⟩

private theorem fileWrite_counts (hI : Prompting I) (size : Nat) : Preserves I (fileWrite L size) :=
  preserves_ofState fun _ h => hI.same h ⟨rfl, rfl, rfl, rfl, rfl, rfl, rfl, rfl, rfl⟩

theorem stopFlag_counts (hI : Prompting I) : Preserves I stopFlag := by
  refine preserves_ofState fun s h => ?_
  split <;> exact hI.same h ⟨rfl, rfl, rfl, rfl, rfl, rfl, rfl, rfl, rfl⟩

theorem setError_counts (hI : Prompting I) : Preserves I setError :=
  preserves_ofState fun _ h => hI.same h ⟨rfl, rfl, rfl, rfl, rfl, rfl, rfl, rfl, rfl⟩

/-- A change of the status that leaves both counters alone. -/
theorem setStatus_counts (hI : Prompting I) {f : fsckStatus → fsckStatus}
    (he : ∀ t, (f t).errorCount = t.errorCount)
    (hf : ∀ t, (f t).fixedErrorCount = t.fixedErrorCount) : Preserves I (setStatus f) :=
  preserves_ofState fun _ h => hI.same h ⟨rfl, rfl, he _, hf _, rfl, rfl, rfl, rfl, rfl⟩

theorem setBuffer_counts (hI : Prompting I) (f : Check σ → Words) :
    Preserves I (modify fun s => { s with IOBuffer := f s }) :=
  preserves_ofState fun _ h => hI.same h ⟨rfl, rfl, rfl, rfl, rfl, rfl, rfl, rfl, rfl⟩

theorem pfsShow_counts (_ : Prompting I) {α : Type} (f : σ → α) : Preserves I (pfsShow f) :=
  preserves_read _

/-- Through a null pointer nothing comes to an end. -/
theorem wlp_crash {α : Type} {s : Check σ} {Q : α → Check σ → Prop} : wlp crash s Q :=
  wlp_loop (fun _ _ => True) (fun _ _ _ => wlp_pure trivial) trivial

theorem crash_counts (_ : Prompting I) {α : Type} : Preserves I (crash (α := α)) :=
  fun _ _ => wlp_crash

theorem fsckPromptUserAction_counts (hI : Prompting I) : Preserves I (fsckPromptUserAction true) :=
  hI.prompt

/-- A prompt that counts nothing takes an answer, or sets the error. -/
theorem fsckPromptUserAction2_cases (mode : Bool) (s : Check σ) : wlp (fsckPromptUserAction2 mode) s fun _ s' =>
    ∃ answers hasError, s' = { s with answers := answers, hasError := hasError } := by
  unfold fsckPromptUserAction2 setError
  simp only [wlp_read_bind, id]
  split
  · split
    · split
      · exact wlp_pure ⟨s.answers, s.hasError, rfl⟩
      · exact wlp_pure ⟨s.answers, true, rfl⟩
    · refine wlp_ofState_bind.mpr ?_
      split
      · exact wlp_pure ⟨fun n => s.answers (n + 1), s.hasError, rfl⟩
      · exact wlp_pure ⟨fun n => s.answers (n + 1), true, rfl⟩
  · exact wlp_pure ⟨s.answers, true, rfl⟩

private theorem fsckPromptUserAction2_counts (hI : Prompting I) : Preserves I (fsckPromptUserAction2 true) := by
  intro s h
  refine (fsckPromptUserAction2_cases true s).mono ?_
  intro answer s' hcases
  obtain ⟨answers, hasError, rfl⟩ := hcases
  exact hI.same h ⟨rfl, rfl, rfl, rfl, rfl, rfl, rfl, rfl, rfl⟩

/-! ### Extended attributes and inodes -/

private theorem nullifyAttribute_counts (hI : Counting m I) : Preserves I (nullifyAttribute L) := by
  refine Preserves.loop (fun (remaining, result) => ?_) _
  dsimp only
  split
  · exact preserves_pure _
  · refine (fileWrite_counts hI.toPrompting _).bind fun result => ?_
    split <;> exact preserves_pure _

private theorem fsckCheckExtendedAttribute_counts (hI : Counting m I) :
    Preserves I (fsckCheckExtendedAttribute L) := by
  refine (pfsDo_counts hI.toPrompting _).bind fun _ => Preserves.loop (fun remaining => ?_) _
  dsimp only
  split
  · exact preserves_pure _
  · refine (fileRead_counts hI.toPrompting _).bind fun result => ?_
    split
    · refine (fsckPromptUserAction_counts hI.toPrompting).bind fun fix => ?_
      split
      · refine (setBuffer_counts hI.toPrompting _).bind fun _ => (pfsDo_counts hI.toPrompting _).bind fun _ => ?_
        exact (nullifyAttribute_counts hI).bind fun _ => preserves_pure _
      · exact preserves_pure _
    · exact preserves_pure _

private theorem pfsInitDirEnt_counts (hI : Counting m I) (subpart inodeNumber number : Nat) (isDir : Bool) :
    Preserves I (pfsInitDirEnt L subpart inodeNumber number isDir) := by
  refine (fsckPromptUserAction_counts hI.toPrompting).bind fun fix => ?_
  split
  · refine (pfsOp_counts hI.toPrompting _).bind fun entry => ?_
    split
    · exact preserves_pure _
    · refine (pfsDo_counts hI.toPrompting _).bind fun _ => ?_
      split
      all_goals repeat refine (pfsDo_counts hI.toPrompting _).bind fun _ => ?_
      all_goals exact preserves_pure _
  · exact preserves_pure _

private theorem checkChunk_counts (hI : Counting m I) (clink index bit count : Nat) :
    Preserves I (checkChunk L clink index bit count) := by
  refine Preserves.loop (fun (index, bit, count) => ?_) _
  dsimp only
  split
  · exact preserves_pure _
  split
  · exact preserves_pure _
  · refine (pfsShow_counts hI.toPrompting _).bind fun used => ?_
    split
    · exact preserves_pure _
    · refine (fsckPromptUserAction_counts hI.toPrompting).bind fun fix => ?_
      split
      · exact (pfsDo_counts hI.toPrompting _).bind fun _ => (pfsDo_counts hI.toPrompting _).bind fun _ => preserves_pure _
      · exact preserves_pure _

private theorem pfsBitmapReadPartition_counts (hI : Counting m I) (subpart chunk : Nat) :
    Preserves I (pfsBitmapReadPartition L m subpart chunk) := by
  refine (pfsOp_counts hI.toPrompting _).bind fun result => ?_
  split <;> exact preserves_pure _

private theorem fsckCheckFileBitmap_counts (hI : Counting m I) (blockinfo : pfs_blockinfo_t) :
    Preserves I (fsckCheckFileBitmap L m blockinfo) := by
  refine Preserves.loop (fun (chunk, index, bit, count) => ?_) _
  dsimp only
  split
  · exact preserves_pure _
  · refine (pfsBitmapReadPartition_counts hI _ _).bind fun clink => ?_
    split
    · exact preserves_pure _
    · refine (checkChunk_counts hI _ _ _ _).bind fun left => ?_
      split
      · exact preserves_pure _
      · exact (pfsDo_counts hI.toPrompting _).bind fun _ => preserves_pure _

theorem fsckFillInode_counts (hI : Counting m I) (inodeClink : Nat) (blockClink : Option Nat)
    (blocks entries segdesg : Nat) :
    Preserves I (fsckFillInode L m inodeClink blockClink blocks entries segdesg) := by
  cases blockClink with
  | none => exact crash_counts hI.toPrompting
  | some blockClink =>
    refine (pfsDo_counts hI.toPrompting _).bind fun _ => (pfsShow_counts hI.toPrompting _).bind fun sub => ?_
    refine (pfsShow_counts hI.toPrompting _).bind fun block => (pfsDo_counts hI.toPrompting _).bind fun _ => ?_
    exact (pfsDo_counts hI.toPrompting _).bind fun _ => pfsDo_counts hI.toPrompting _

private theorem readSectors_counts (hI : Counting m I) (clink : Nat) (info : pfs_blockinfo_t) (first : Bool)
    (i inodeOffset : Nat) :
    Preserves I (readSectors L m clink info first i inodeOffset) := by
  refine Preserves.loop (fun (sector, inodeOffset) => ?_) _
  refine (pfsShow_counts hI.toPrompting _).bind fun inode => ?_
  split
  · exact preserves_pure _
  · refine (pfsOp_counts hI.toPrompting _).bind fun child => ?_
    split
    · exact (pfsDo_counts hI.toPrompting _).bind fun _ => preserves_pure _
    · split
      · exact preserves_pure _
      · refine (pfsInitDirEnt_counts hI _ _ _ _).bind fun result => ?_
        split <;> exact preserves_pure _

private theorem readDirectory_counts (hI : Counting m I) (clink : Nat) (info : pfs_blockinfo_t) (first : Bool)
    (inodeOffset : Nat) :
    Preserves I (readDirectory L m clink info first inodeOffset) := by
  refine Preserves.loop (fun (i, inodeOffset) => ?_) _
  dsimp only
  split
  · exact preserves_pure _
  · refine (readSectors_counts hI _ _ _ _ _).bind fun (result, inodeOffset) => ?_
    dsimp only
    split <;> exact preserves_pure _

private theorem readFile_counts (hI : Counting m I) (info : pfs_blockinfo_t) {fill : Prog (Check σ) Unit}
    (hfill : Preserves I fill) : Preserves I (readFile L m info fill) := by
  refine Preserves.loop (fun i => ?_) _
  split
  · exact preserves_pure _
  · refine (transferRead_counts hI.toPrompting _ _ _).bind fun result => ?_
    split
    · refine (stopFlag_counts hI.toPrompting).bind fun stopped => ?_
      split <;> exact preserves_pure _
    · refine (fsckPromptUserAction_counts hI.toPrompting).bind fun fix => ?_
      split
      · exact hfill.bind fun _ => preserves_pure _
      · exact preserves_pure _

theorem claimZones_counts (hI : Counting m I) {fill : Prog (Check σ) Unit} (hfill : Preserves I fill)
    (blockClink : Nat) (info : pfs_blockinfo_t) (c : Cursor) (inodeOffset : Nat) :
    Preserves I (claimZones L m fill blockClink info c inodeOffset) := by
  refine (fsckCheckFileBitmap_counts hI _).bind fun result => ?_
  split
  · exact preserves_pure _
  · refine Preserves.bind (preserves_ofState fun _ h => hI.look (.zones _ _) h) fun result => ?_
    split
    · refine (fsckPromptUserAction_counts hI.toPrompting).bind fun fix => ?_
      split
      · exact hfill.bind fun _ => preserves_pure _
      · exact preserves_pure _
    · split
      · exact preserves_pure _
      · refine (setStatus_counts hI.toPrompting (fun _ => by rfl) (fun _ => by rfl)).bind fun _ => ?_
        refine (stopFlag_counts hI.toPrompting).bind fun stopped => ?_
        split <;> exact preserves_pure _

theorem checkEntry_counts (hI : Counting m I) (clink blockClink : Nat) (c : Cursor) :
    Preserves I (checkEntry L m clink blockClink c) := by
  have hfill := fsckFillInode_counts hI (L := L) (m := m) clink (some blockClink) c.blocks c.index c.segdesg
  refine (pfsShow_counts hI.toPrompting _).bind fun inode => ?_
  dsimp only
  split
  · refine (fsckPromptUserAction_counts hI.toPrompting).bind fun fix => ?_
    split
    · exact hfill.bind fun _ => preserves_pure _
    · exact preserves_pure _
  · rename_i hgood
    refine Preserves.bind (preserves_ofState fun _ h => hI.use h (Bool.eq_false_iff.mpr hgood)) fun _ => ?_
    refine (pfsShow_counts hI.toPrompting _).bind fun self => ?_
    split
    · exact claimZones_counts hI hfill _ _ _ _
    split
    · refine (readDirectory_counts hI _ _ _ _).bind fun (result, inodeOffset) => ?_
      dsimp only
      split
      · exact preserves_pure _
      · exact claimZones_counts hI hfill _ _ _ _
    · refine (readFile_counts hI _ hfill).bind fun whole => ?_
      split
      · exact claimZones_counts hI hfill _ _ _ _
      · exact preserves_pure _

private theorem checkEntries_counts (hI : Counting m I) (clink : Nat) (c : Cursor) :
    Preserves I (checkEntries L m clink c) := by
  refine Preserves.loop (fun c => ?_) _
  refine (pfsShow_counts hI.toPrompting _).bind fun inode => ?_
  split
  · exact preserves_pure _
  split
  · exact crash_counts hI.toPrompting
  split
  · refine (pfsShow_counts hI.toPrompting _).bind fun inode => (pfsDo_counts hI.toPrompting _).bind fun _ => ?_
    refine (pfsOp_counts hI.toPrompting _).bind fun entry => ?_
    split
    · split
      · refine (fsckPromptUserAction_counts hI.toPrompting).bind fun fix => ?_
        split
        · exact (fsckFillInode_counts hI _ _ _ _ _).bind fun _ => preserves_pure _
        · exact preserves_pure _
      · exact preserves_pure _
    · exact checkEntry_counts hI _ _ _
  · exact checkEntry_counts hI _ _ _

theorem fsckCheckDirentryInode_counts (hI : Counting m I) (direntInodeClink : Nat) :
    Preserves I (fsckCheckDirentryInode L m direntInodeClink) := by
  refine (pfsDo_counts hI.toPrompting _).bind fun _ => ?_
  refine (checkEntries_counts hI _ _).bind fun (blockClink, result) => ?_
  dsimp only
  split
  · exact (setError_counts hI.toPrompting).bind fun _ => (pfsDo_counts hI.toPrompting _).bind fun _ => preserves_pure _
  · exact (pfsDo_counts hI.toPrompting _).bind fun _ => preserves_pure _

/-! ### Positions -/

private theorem pfsBlockGetNextSegment_counts (hI : Counting m I) (clink : Nat) :
    Preserves I (pfsBlockGetNextSegment L m clink) := by
  refine (pfsDo_counts hI.toPrompting _).bind fun _ => (pfsShow_counts hI.toPrompting _).bind fun inode => ?_
  dsimp only
  split
  · exact pfsOp_counts hI.toPrompting _
  · exact preserves_pure _

private theorem pfsInodeSync_counts (hI : Counting m I) (size used_segments : Nat) (blockpos : pfs_blockpos_t) :
    Preserves I (pfsInodeSync L m size used_segments blockpos) := by
  refine Preserves.loop (fun (i, blockpos) => ?_) _
  dsimp only
  split
  · exact preserves_pure _
  split
  · exact crash_counts hI.toPrompting
  · refine (pfsShow_counts hI.toPrompting _).bind fun inode => ?_
    split
    · exact preserves_pure _
    split
    · exact preserves_pure _
    -- whether it is the last segment or not, it may be a descriptor
    split
    all_goals
      split
      · exact preserves_pure _
      · refine (pfsBlockGetNextSegment_counts hI _).bind fun next => ?_
        split <;> exact preserves_pure _

/-- A chunk is read that lies in the directory if that is in order, and the walk has got it. -/
theorem pfsGetDentriesChunk_counts (hI : Counting m I) {number_data clink : Nat} {stood : Option Stand}
    {position : pfs_blockpos_t} {s : Check σ} (h : I s)
    (hsound : ∀ chunk,
      Visit.Sound ⟨m.zsize, number_data, stood, L.inode clink s.pfs, position, chunk⟩) :
    wlp (pfsGetDentriesChunk L m number_data stood position clink) s fun chunk s' =>
      I s' ∧ ∀ DEntryClink, chunk = some DEntryClink → s'.Got DEntryClink := by
  unfold pfsGetDentriesChunk
  simp only [pfsShow, wlp_read_bind]
  apply wlp_bind
  refine ((pfsOp_counts hI.toPrompting _) s h).mono fun result s₁ h₁ => ?_
  split
  · refine wlp_modify_bind.mpr (wlp_pure ⟨hI.read h₁ (hsound _), ?_⟩)
    rintro DEntryClink ⟨⟩
  · rename_i DEntryClink
    refine wlp_modify_bind.mpr (wlp_pure ⟨hI.read h₁ (hsound _), ?_⟩)
    rintro _ ⟨⟩
    exact ⟨_, List.mem_cons_self, rfl⟩

/-! ### Directories -/

theorem markDirty_counts (hI : Counting m I) {clink : Nat} (hgot : ∀ s, I s → s.Got clink) :
    Preserves I (markDirty L clink) :=
  (pfsDo_counts hI.toPrompting _).bind fun _ => preserves_ofState fun s h => hI.mark h (hgot s h)

theorem fsckFixDEntry_counts (hI : Counting m I) {clink : Nat} (hgot : ∀ s, I s → s.Got clink) (pos : Nat) :
    Preserves I (fsckFixDEntry L clink pos) := by
  refine Preserves.loop (fun (pDEntry, pDEntryNew, offset) => ?_) _
  dsimp only
  split
  · exact preserves_pure _
  · refine (pfsShow_counts hI.toPrompting _).bind fun e => ?_
    split
    · split <;>
        exact (pfsDo_counts hI.toPrompting _).bind fun _ => (markDirty_counts hI hgot).bind fun _ => preserves_pure _
    · exact preserves_pure _

theorem checkDotEntry_counts (hI : Counting m I) {clink : Nat} (hgot : ∀ s, I s → s.Got clink)
    (inodeClink pos : Nat) : Preserves I (checkDotEntry L inodeClink clink pos) := by
  refine (pfsShow_counts hI.toPrompting _).bind fun e => (pfsShow_counts hI.toPrompting _).bind fun sub => ?_
  refine (pfsShow_counts hI.toPrompting _).bind fun inode => ?_
  split
  · refine (fsckPromptUserAction_counts hI.toPrompting).bind fun fix => ?_
    split
    · exact (pfsDo_counts hI.toPrompting _).bind fun _ => markDirty_counts hI hgot
    · exact preserves_pure _
  · exact preserves_pure _

private theorem checkAttribute_counts (hI : Counting m I) (aLen clink : Nat) :
    Preserves I (checkAttribute L aLen clink) := by
  unfold checkAttribute
  split
  · exact preserves_pure _
  refine (pfsShow_counts hI.toPrompting _).bind fun sub => (pfsShow_counts hI.toPrompting _).bind fun block => ?_
  refine (transferRead_counts hI.toPrompting _ _ _).bind fun result => ?_
  split
  · refine (fsckPromptUserAction_counts hI.toPrompting).bind fun fix => ?_
    split
    · refine (setBuffer_counts hI.toPrompting _).bind fun _ => (transferWrite_counts hI.toPrompting _ _ _).bind fun result => ?_
      split
      · exact setError_counts hI.toPrompting
      · exact preserves_pure _
    · exact setError_counts hI.toPrompting
  · exact preserves_pure _

/-- The check of one file, given that of a directory. -/
private theorem fsckCheckFile_counts (hI : Counting m I) {files : Nat → Nat → Prog (Check σ) Unit}
    (hfiles : ∀ parent clink, Preserves I (files parent clink))
    (FileInodeClink FileInodeDataClink DEntryClink pos : Nat) :
    Preserves I (fsckCheckFile L m files FileInodeClink FileInodeDataClink DEntryClink pos) := by
  refine (preserves_read _).bind fun s => ?_
  split
  · refine (setStatus_counts hI.toPrompting (fun _ => by rfl) (fun _ => by rfl)).bind fun _ => ?_
    refine (pfsShow_counts hI.toPrompting _).bind fun e => ?_
    refine (checkAttribute_counts hI _ _).bind fun _ => ?_
    refine (fsckCheckDirentryInode_counts hI _).bind fun _ => (pfsShow_counts hI.toPrompting _).bind fun e => ?_
    split
    · refine (setStatus_counts hI.toPrompting (fun _ => by rfl) (fun _ => by rfl)).bind fun _ => ?_
      exact (hfiles _ _).bind fun _ => setStatus_counts hI.toPrompting (fun _ => by rfl) (fun _ => by rfl)
    · refine (setStatus_counts hI.toPrompting (fun _ => by rfl) (fun _ => by rfl)).bind fun _ => ?_
      exact setStatus_counts hI.toPrompting (fun _ => by rfl) (fun _ => by rfl)
  · exact setError_counts hI.toPrompting

theorem setLength_counts (hI : Counting m I) {clink : Nat} (hgot : ∀ s, I s → s.Got clink)
    (pos size : Nat) : Preserves I (setLength L clink pos size) :=
  (pfsDo_counts hI.toPrompting _).bind fun _ => markDirty_counts hI hgot

private theorem checkAligned_counts (hI : Counting m I) {clink : Nat} (hgot : ∀ s, I s → s.Got clink)
    (pos bound size : Nat) : Preserves I (checkAligned L clink pos bound size) := by
  unfold checkAligned
  split
  · refine (fsckPromptUserAction_counts hI.toPrompting).bind fun fix => ?_
    split
    · exact (setLength_counts hI hgot _ _).bind fun _ => preserves_pure _
    · exact preserves_pure _
  · exact preserves_pure _

theorem emptied_counts (hI : Counting m I) (clink pos size : Nat) : Preserves I do
    emptyEntry L clink pos
    return size :=
  (pfsDo_counts hI.toPrompting _).bind fun _ => preserves_pure _

theorem checkNeeded_counts (hI : Counting m I) {clink : Nat} (hgot : ∀ s, I s → s.Got clink)
    (pos bound needed size : Nat) : Preserves I (checkNeeded L clink pos bound needed size) := by
  unfold checkNeeded
  split
  · refine (fsckPromptUserAction_counts hI.toPrompting).bind fun fix => ?_
    split
    · split
      · exact (setLength_counts hI hgot _ _).bind fun _ => preserves_pure _
      · exact (fsckFixDEntry_counts hI hgot _).bind fun _ => emptied_counts hI _ _ _
    · exact emptied_counts hI _ _ _
  · exact preserves_pure _

private theorem checkLength_counts (hI : Counting m I) {clink : Nat} (hgot : ∀ s, I s → s.Got clink)
    (pos bound : Nat) : Preserves I (checkLength L clink pos bound) := by
  refine (pfsShow_counts hI.toPrompting _).bind fun e => (checkAligned_counts hI hgot _ _ _).bind fun size => ?_
  refine (checkNeeded_counts hI hgot _ _ _ _).bind fun size => ?_
  split
  · refine (fsckPromptUserAction_counts hI.toPrompting).bind fun fix => ?_
    split
    · exact (fsckFixDEntry_counts hI hgot _).bind fun _ => emptied_counts hI _ _ _
    · exact emptied_counts hI _ _ _
  · exact preserves_pure _

private theorem checkNamed_counts (hI : Counting m I) {files : Nat → Nat → Prog (Check σ) Unit}
    (hfiles : ∀ parent clink, Preserves I (files parent clink)) {DEntryClink : Nat}
    (hgot : ∀ s, I s → s.Got DEntryClink) (ParentInodeClink InodeClink pos : Nat) :
    Preserves I (checkNamed L m files ParentInodeClink InodeClink DEntryClink pos) := by
  refine (pfsShow_counts hI.toPrompting _).bind fun e => ?_
  split
  · exact preserves_pure _
  split
  · exact checkDotEntry_counts hI hgot _ _
  split
  · exact checkDotEntry_counts hI hgot _ _
  · refine (pfsOp_counts hI.toPrompting _).bind fun entry => ?_
    split
    · exact (fsckCheckFile_counts hI hfiles _ _ _ _).bind fun _ => pfsDo_counts hI.toPrompting _
    · split
      · refine (fsckPromptUserAction_counts hI.toPrompting).bind fun fix => ?_
        split
        · exact fsckFixDEntry_counts hI hgot _
        · exact preserves_pure _
      · exact setError_counts hI.toPrompting

private theorem checkChain_counts (hI : Counting m I) {files : Nat → Nat → Prog (Check σ) Unit}
    (hfiles : ∀ parent clink, Preserves I (files parent clink)) {DEntryClink : Nat}
    (hgot : ∀ s, I s → s.Got DEntryClink) (ParentInodeClink InodeClink pos inodeOffset bound : Nat) :
    Preserves I
      (checkChain L m files ParentInodeClink InodeClink DEntryClink pos inodeOffset bound) := by
  refine Preserves.loop (fun (pos, inodeOffset) => ?_) _
  dsimp only
  split
  · exact preserves_pure _
  · refine (stopFlag_counts hI.toPrompting).bind fun stopped => ?_
    split
    · exact preserves_pure _
    · refine (checkLength_counts hI hgot _ _).bind fun size => ?_
      exact (checkNamed_counts hI hfiles hgot _ _ _).bind fun _ => preserves_pure _

/-- The walk goes on to a chunk it got, which lies in the directory if that is in order. -/
private theorem nextBlock_counts (hI : Counting m I) (InodeClink : Nat) (x : Place) {s : Check σ} (h : I s)
    (hgot : ∀ DEntryClink, x.DEntryClink = some DEntryClink → s.Got DEntryClink) :
    wlp (nextBlock L m InodeClink x) s fun (x', there) s' => I s' ∧
      (there = true → ∀ DEntryClink, x'.DEntryClink = some DEntryClink → s'.Got DEntryClink) := by
  unfold nextBlock
  split
  · exact wlp_pure ⟨h, fun _ => hgot⟩
  · apply wlp_bind
    refine (pfsDo_counts hI.toPrompting _ s h).mono fun _ s₁ h₁ => ?_
    simp only [pfsShow, wlp_read_bind]
    split
    · exact wlp_crash
    · rename_i clink hclink
      simp only [wlp_read_bind]
      apply wlp_bind
      intro r s₂ hsync
      have h₂ := pfsInodeSync_counts hI _ _ _ s₁ h₁ _ _ hsync
      split
      · exact wlp_pure ⟨h₂, fun hthere => absurd hthere Bool.false_ne_true⟩
      split
      · exact wlp_crash
      · rename_i clink' hclink'
        apply wlp_bind
        refine (pfsGetDentriesChunk_counts hI h₂ ?_).mono fun chunk s₃ h₃ => ?_
        · rintro chunk ⟨hzsize, hwithin, hmore⟩
          exact pfsInodeSync_spec hzsize hclink hwithin hmore _ _ hsync _ hclink'
        · exact wlp_pure ⟨h₃.1, fun _ => h₃.2⟩

private theorem checkBlocks_counts (hI : Counting m I) {files : Nat → Nat → Prog (Check σ) Unit}
    (hfiles : ∀ {J : Check σ → Prop}, Counting m J → ∀ parent clink, Preserves J (files parent clink))
    (ParentInodeClink InodeClink : Nat) (x : Place) {s : Check σ} (h : I s)
    (hgot : ∀ DEntryClink, x.DEntryClink = some DEntryClink → s.Got DEntryClink) :
    wlp (checkBlocks L m files ParentInodeClink InodeClink x) s fun _ s' => I s' := by
  refine wlp_loop (fun x s => I s ∧
    ∀ DEntryClink, x.DEntryClink = some DEntryClink → s.Got DEntryClink) ?_ ⟨h, hgot⟩
  rintro x s ⟨h, hgot⟩
  simp only [pfsShow, wlp_read_bind]
  split
  · exact wlp_pure h
  · apply wlp_bind
    refine (nextBlock_counts hI _ _ h hgot).mono ?_
    intro r s₁ h₁
    obtain ⟨x', there⟩ := r
    dsimp only
    split
    · rename_i DEntryClink hclink
      have hchain := checkChain_counts (L := L) (m := m) (hI.got DEntryClink) (hfiles (hI.got DEntryClink))
        (fun _ h => h.2) ParentInodeClink InodeClink x'.pos x'.inodeOffset (x'.pos + 512)
      apply wlp_bind
      refine (hchain s₁ ⟨h₁.1, h₁.2 rfl _ hclink⟩).mono fun next s₂ h₂ => ?_
      split
      · exact wlp_pure h₂.1
      · apply wlp_bind
        refine (stopFlag_counts (hI.got DEntryClink).toPrompting s₂ h₂).mono fun stopped s₃ h₃ => ?_
        split
        · exact wlp_pure h₃.1
        · refine wlp_pure ⟨h₃.1, fun clink hclink' => ?_⟩
          obtain rfl : DEntryClink = clink := Option.some.inj (hclink.symm.trans hclink')
          exact h₃.2
    · apply wlp_bind
      exact (setError_counts hI.toPrompting s₁ h₁.1).mono fun _ s₂ h₂ => wlp_pure h₂

/-- The check of a directory, by induction on the levels below it. -/
private theorem checkLevels_counts (hI : Counting m I) (levels ParentInodeClink InodeClink : Nat) :
    Preserves I (checkLevels L m levels ParentInodeClink InodeClink) := by
  induction levels generalizing I ParentInodeClink InodeClink with
  | zero => exact preserves_pure _
  | succ levels ih =>
    refine (pfsDo_counts hI.toPrompting _).bind fun _ => ?_
    intro s h
    simp only [pfsShow, wlp_read_bind]
    apply wlp_bind
    refine (pfsGetDentriesChunk_counts hI h fun chunk => sound_first _ _ _ _ _).mono fun chunk s₁ h₁ => ?_
    split
    · exact ((pfsDo_counts hI.toPrompting _).bind fun _ => setError_counts hI.toPrompting) s₁ h₁.1
    · rename_i DEntryClink
      apply wlp_bind
      refine (checkBlocks_counts hI (fun hJ => ih hJ) _ _ _ h₁.1 ?_).mono fun x s₂ h₂ => ?_
      · rintro _ ⟨⟩
        exact h₁.2 _ rfl
      · exact ((pfsDo_counts hI.toPrompting _).bind fun _ => pfsDo_counts hI.toPrompting _) s₂ h₂

private theorem fsckCheckFiles_counts (hI : Counting m I) (ParentInodeClink InodeClink : Nat) :
    Preserves I (fsckCheckFiles L m ParentInodeClink InodeClink) :=
  checkLevels_counts hI _ _ _

/-! ### The bitmap -/

private theorem compareWords_counts (hI : Counting m I) (pBitmap : Words) (length : Nat) :
    Preserves I (compareWords pBitmap length) := by
  refine Preserves.loop (fun (k, hasUpdate) => ?_) _
  dsimp only
  split
  · exact preserves_pure _
  · refine (preserves_read _).bind fun s => ?_
    split
    · exact preserves_pure _
    · refine (fsckPromptUserAction2_counts hI.toPrompting).bind fun fix => ?_
      split
      · exact (setBuffer_counts hI.toPrompting _).bind fun _ => preserves_pure _
      · exact preserves_pure _

/-- The words of the scratch bitmap are looked up like a single one. -/
private theorem bitmapWords_lookup (index : Nat) (s : Scratch) : (bitmapWords index s).2 = s.lookup (.entry index) := by
  unfold bitmapWords Scratch.lookup Scratch.pfsGetBitmapEntry
  dsimp only
  cases hread : s.pfsBitmapRead (index / 2 ^ 20) with
  | mk entry s' =>
    cases entry with
    | some bitmap => rfl
    | none => rfl

private theorem comparePartition_counts (hI : Counting m I) (i : Nat) : Preserves I (comparePartition L m i) := by
  refine Preserves.loop (fun zone => ?_) _
  dsimp only
  split
  · exact preserves_pure _
  · refine Preserves.bind (preserves_ofState fun s h => ?_) fun words => ?_
    · change I { s with scratch := (bitmapWords _ s.scratch).2 }
      rw [bitmapWords_lookup]
      exact hI.look _ h
    refine (transferRead_counts hI.toPrompting _ _ _).bind fun result => ?_
    split
    · exact preserves_pure _
    split
    · exact crash_counts hI.toPrompting
    · refine (compareWords_counts hI _ _).bind fun hasUpdate => ?_
      split
      · exact (transferWrite_counts hI.toPrompting _ _ _).bind fun _ => preserves_pure _
      · exact preserves_pure _

private theorem fsckCompareBitmap_counts (hI : Counting m I) : Preserves I (fsckCompareBitmap L m) := by
  refine Preserves.loop (fun i => ?_) _
  split
  · exact preserves_pure _
  · exact (comparePartition_counts hI _).bind fun _ => preserves_pure _

/-! ### The thread -/

private theorem CheckRootDirectory_counts (hI : Counting m I) : Preserves I (CheckRootDirectory L m) := by
  refine (pfsOp_counts hI.toPrompting _).bind fun root => ?_
  split
  · exact preserves_pure _
  · refine (fsckCheckDirentryInode_counts hI _).bind fun result => ?_
    split
    · exact preserves_pure _
    · exact (pfsDo_counts hI.toPrompting _).bind fun _ => preserves_pure _

theorem updateSuper_counts (hI : Counting m I) (wanted : Nat → Bool) (f : Nat → Nat) :
    Preserves I (updateSuper L wanted f) := by
  refine (transferRead_counts hI.toPrompting _ _ _).bind fun result => ?_
  split
  · refine (preserves_read _).bind fun s => ?_
    split
    · refine (setBuffer_counts hI.toPrompting _).bind fun _ => ?_
      exact (transferWrite_counts hI.toPrompting _ _ _).bind fun _ => preserves_pure _
    · exact preserves_pure _
  · exact preserves_pure _

theorem unlessFailed_counts (hI : Counting m I) {p : Prog (Check σ) Unit} (hp : Preserves I p) :
    Preserves I (unlessFailed p) := by
  refine (preserves_read _).bind fun failed => ?_
  split
  · exact preserves_pure _
  · refine (stopFlag_counts hI.toPrompting).bind fun stopped => ?_
    split
    · exact preserves_pure _
    · exact hp

private theorem markFixed_counts (hI : Counting m I) : Preserves I (markFixed L) := by
  refine (preserves_read _).bind fun fixed => ?_
  split
  · exact updateSuper_counts hI _ _
  · exact preserves_pure _

private theorem finishThread_counts (hI : Counting m I) : Preserves I (finishThread L m) := by
  refine (unlessFailed_counts hI (fsckCompareBitmap_counts hI)).bind fun _ => ?_
  refine (unlessFailed_counts hI ((updateSuper_counts hI _ _).bind fun _ => pfsDo_counts hI.toPrompting _)).bind fun _ => ?_
  exact (markFixed_counts hI).bind fun _ => pfsDo_counts hI.toPrompting _

theorem FsckThread_counts (hI : Counting m I) : Preserves I (FsckThread L m) := by
  refine (fsckCheckExtendedAttribute_counts hI).bind fun result => ?_
  split
  · exact preserves_pure _
  · refine (CheckRootDirectory_counts hI).bind fun root => ?_
    split
    · exact preserves_pure _
    · refine (setStatus_counts hI.toPrompting (fun _ => by rfl) (fun _ => by rfl)).bind fun _ => ?_
      refine (fsckCheckFiles_counts hI _ _).bind fun _ => ?_
      refine (pfsDo_counts hI.toPrompting _).bind fun _ => (pfsDo_counts hI.toPrompting _).bind fun _ => ?_
      exact (finishThread_counts hI).bind fun _ => preserves_pure _

/-! ### Automatic mode -/

/-- A check in write and automatic mode with as many errors fixed as found. -/
structure Balanced (s : Check σ) : Prop where
  write : s.fsckWriteEnabled = true
  auto : s.fsckAutoMode = true
  counts : s.status.errorCount = s.status.fixedErrorCount

/-- Every prompt of the check asks for `yes`, and so its error is fixed. -/
private theorem balanced_counting : Counting (σ := σ) m Balanced where
  same h hsame := ⟨hsame.write.trans h.write, hsame.auto.trans h.auto, by
    rw [hsame.errorCount, hsame.fixedErrorCount, h.counts]⟩
  read h _ := ⟨h.write, h.auto, h.counts⟩
  mark h _ := ⟨h.write, h.auto, h.counts⟩
  use h _ := ⟨h.write, h.auto, h.counts⟩
  look _ h := ⟨h.write, h.auto, h.counts⟩
  prompt := by
    intro s h
    unfold fsckPromptUserAction countError countFixed
    simp only [wlp_modify_bind, wlp_read_bind, id, h.write, h.auto, if_true]
    refine wlp_pure ⟨rfl, rfl, ?_⟩
    change u32 (s.status.errorCount + 1) = u32 (s.status.fixedErrorCount + 1)
    rw [h.counts]

/-- The state `FsckOpen` leaves in write and automatic mode, as far as it counts errors. -/
structure Opened (s : Check σ) : Prop where
  write : s.fsckWriteEnabled = true
  auto : s.fsckAutoMode = true
  errorCount : s.status.errorCount = 0
  fixedErrorCount : s.status.fixedErrorCount = 0
  hasError : s.hasError = false

theorem Opened.balanced {s : Check σ} (h : Opened s) : Balanced s :=
  ⟨h.write, h.auto, h.errorCount.trans h.fixedErrorCount.symm⟩

/-- The thread gave up, or an error is left that it could not deal with. -/
def Failed (gaveUp : Bool) (s : Check σ) : Prop := gaveUp = true ∨ s.hasError = true

/-- `FSCK_IOCTL2_CMD_GET_STATUS` -/
def getStatus (s : Check σ) : fsckStatus := s.status

/-- The status shows the failure of the thread: more errors were found than fixed. -/
def ShowsFailure (gaveUp : Bool) (s : Check σ) : Prop :=
  Failed gaveUp s → (getStatus s).fixedErrorCount < (getStatus s).errorCount

/-- No failure in write and automatic mode shows in the status, whatever failed. -/
theorem FsckThread_failure_hidden {s s' : Check σ} {gaveUp : Bool} (hopen : Opened s)
    (hrun : Runs (FsckThread L m) s gaveUp s') (hfailed : Failed gaveUp s') :
    ¬ ShowsFailure gaveUp s' := by
  intro hshows
  have hbalanced := FsckThread_counts balanced_counting s hopen.balanced gaveUp s' hrun
  have hlt := hshows hfailed
  have hcounts : (getStatus s').errorCount = (getStatus s').fixedErrorCount := hbalanced.counts
  omega

/-! ### An extended attribute that cannot be repaired -/

/-- A filesystem all of whose sectors are zeros. Its extended attribute can be neither read nor written. -/
def lostAttribute : Libpfs Unit where
  sub _ _ := 0
  block _ _ := 0
  inode _ _ := ⟨⟨0, 0, 0⟩, ⟨0, 0, 0⟩, ⟨0, 0, 0⟩, fun _ => ⟨0, 0, 0⟩, 0, 0, 0, 0, 0, 0, 0⟩
  setInode _ _ := id
  dentry _ _ _ := ⟨0, 0, 0, 0, fun _ => 0⟩
  setDentry _ _ _ := id
  bitmap _ _ _ _ := false
  setBitmap _ _ _ := id
  zero _ := id
  setDirty _ := id
  pfsCacheGetData _ _ _ s := (.ok 0, s)
  pfsCacheUsedAdd _ := id
  pfsCacheFree _ := id
  pfsCacheFlushAllDirty := id
  pfsInodeGetData _ _ s := (.ok 0, s)
  transferRead _ _ _ s := ((0, fun _ => 0), s)
  transferWrite _ _ _ _ s := (0, s)
  flushCache := id
  getPartError := id
  rewind := id
  read _ s := ((- EIO, fun _ => 0), s)
  write _ _ s := (- EIO, s)

/-- The mount of a partition of 128 MB with zones of 8 KB. -/
def plainMount : Mount where
  num_subs := 0
  sector_scale := 4
  inode_scale := 3
  zsize := 8192
  root_dir := ⟨529, 0, 1⟩
  ZoneSizes _ := 0x40000
  ZoneMap _ := 0

/-- The check of it as `FsckOpen` starts it. -/
def plainCheck : Check Unit where
  pfs := ()
  scratch := Scratch.pfsBitmapInit (fun _ _ _ => false) fun _ => none
  IOBuffer _ := 0
  fsckWriteEnabled := true
  fsckAutoMode := true
  answers _ := true
  stop := none
  hasError := false
  status := ⟨0, 0, 0, 0, 0, 0, 0⟩
  reported := 0
  repaired := 0
  walk := []
  used := []

theorem plainCheck_opened : Opened plainCheck := ⟨rfl, rfl, rfl, rfl, rfl⟩

/-- The thread gives up. The one error was counted as fixed before the repair was tried. -/
theorem lostAttribute_run : Runs (FsckThread lostAttribute plainMount) plainCheck true
    { plainCheck with status := ⟨0, 0, 0, 0, 0, 1, 1⟩, reported := 1, repaired := 1 } := ⟨40, rfl⟩

theorem FsckThread_failure_hidden_attribute : ¬ ShowsFailure true
    { plainCheck with status := ⟨0, 0, 0, 0, 0, 1, 1⟩, reported := 1, repaired := 1 } :=
  FsckThread_failure_hidden plainCheck_opened lostAttribute_run (.inl rfl)

/-- A failed check need not show, also where nobody stops it. -/
theorem FsckThread_not_shows : ¬ ∀ (σ : Type) (L : Libpfs σ) (m : Mount) (s s' : Check σ)
    (gaveUp : Bool), Opened s → s.stop = none → Runs (FsckThread L m) s gaveUp s' →
    ShowsFailure gaveUp s' := by
  intro h
  have hlt := h Unit lostAttribute plainMount _ _ true plainCheck_opened rfl lostAttribute_run (.inl rfl)
  exact Nat.lt_irrefl 1 hlt

end HddChecker.Fsck
