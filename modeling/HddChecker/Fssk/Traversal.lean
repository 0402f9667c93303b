import HddChecker.Fssk.Position

/-!
# The walk over the directories

`FsskThread` looks at the inode of each entry, moves it if it has zones that are to be removed, and goes down into directories. The buffer of an inode that `fsskCheckFile` has fetched is never returned, and after a failure buffers are returned that are not there. Without such steps each function returns what it has taken.
-/

namespace HddChecker.Fssk

open HddChecker Prog Pfs

abbrev FSSK_MAX_PATH_LEVELS : Nat := 64

/-- `pfs_dentry_t`, with the name. -/
structure Entry where
  inode : Nat
  sub : Nat
  pLen : Nat
  aLen : Nat
  path : Nat → Nat

structure Walk (α : Type) where
  volume : Volume α
  /-- the entry at an offset of a chunk -/
  dentry : pfs_cache_t → Nat → Entry
  PWDLevel : Nat
  files : Nat
  directories : Nat
  inodeBlockCount : Nat
  hasError : Bool
  /-- what is read of `stopFlag`, what `CheckThreadStack` says, and how transfers of the super block end -/
  stopFlag : Nat → Bool
  CheckThreadStack : Nat → Nat
  transfer : Nat → Int
  root_dir : pfs_blockinfo_t
  /-- a buffer was returned that is not in use, or a null pointer -/
  warned : Bool
  /-- no inode of an entry was fetched, none was moved, and each next descriptor was had -/
  plain : Bool

variable {α β : Type}

/-- `num_subs - partsDeleted`, the last partition that stays. -/
def Volume.partsLeft (v : Volume α) : Nat := u32 (v.mount.num_subs + (2 ^ 32 - u32 v.partsDeleted))

/-! ### Steps -/

def onVolume (p : Prog (Volume α) β) : Prog (Walk α) β := zoom Walk.volume (fun v s => { s with volume := v }) p

/-- The warning of `pfsCacheFree`. -/
def warnFree (c : Option pfs_cache_t) : Prog (Walk α) Unit :=
  modify fun s => { s with warned := s.warned || !c.any fun b => decide (b ∈ s.volume.held) }

/-- `pfsCacheFree` -/
def free (c : Option pfs_cache_t) : Prog (Walk α) Unit := do
  warnFree c
  onVolume (pfsCacheFree c)

/-- From here on the walk is not plain. -/
def unplain : Prog (Walk α) Unit := modify fun s => { s with plain := false }

/-- `pfsBlockGetNextSegment` -/
def nextSegment (c : pfs_cache_t) : Prog (Walk α) (Except Int pfs_cache_t) := do
  warnFree (some c)
  match ← onVolume (pfsBlockGetNextSegment c) with
  | .ok next => return .ok next
  | .error result =>
    unplain
    return .error result

def pfsInodeGetData (sub inode : Nat) : Prog (Volume α) (Except Int pfs_cache_t) := do
  let c ← place ⟨inode, sub, 1⟩
  match ← pfsCacheGetData c false with
  | .ok () => return .ok c
  | .error result => return .error result

/-- A read of `stopFlag`. -/
def stopFlag : Prog (Walk α) Bool :=
  ofState fun s => (s.stopFlag 0, { s with stopFlag := fun n => s.stopFlag (n + 1) })

/-- A transfer of the super block. -/
def transfer : Prog (Walk α) Int :=
  ofState fun s => (s.transfer 0, { s with transfer := fun n => s.transfer (n + 1) })

/-- A pass of the loop of `fsskHasSpaceToFree`. -/
def spacePass (clink : pfs_cache_t) (x : Nat × pfs_cache_t) :
    Prog (Walk α) (Nat × pfs_cache_t ⊕ Int × Option pfs_cache_t) := do
  let (i, cinode) := x
  let v ← Prog.read Walk.volume
  if i < (v.inode clink).number_data then
    match ← (if i ≠ 0 ∧ pfsFixIndex i = 0 then nextSegment cinode else return .ok cinode) with
    | .error result => return .inr (result, none)
    | .ok cinode =>
      if v.partsLeft < ((v.inode cinode).data (pfsFixIndex i)).subpart then
        return .inr (1, some cinode)
      else return .inl (i + 1, cinode)
  else return .inr (0, some cinode)

def fsskHasSpaceToFree (clink : pfs_cache_t) : Prog (Walk α) Int := do
  onVolume (pfsCacheUsedAdd clink)
  let (result, cinode) ← loop (spacePass clink) (0, clink)
  modify fun s => { s with
    inodeBlockCount := u32 (s.inodeBlockCount + (s.volume.inode clink).number_blocks) }
  free cinode
  return result

/-- `fsskMoveInode`, which writes the new place into the entry at `pos`. -/
def moveEntry (dest start DEntryClink : pfs_cache_t) (pos : Nat) : Prog (Walk α) Int := do
  unplain
  let result ← onVolume (fsskMoveInode dest start)
  if result = 0 then
    modify fun s =>
      let e := s.dentry DEntryClink pos
      { s with dentry := Function.update s.dentry DEntryClink (Function.update (s.dentry DEntryClink) pos
        { e with inode := s.volume.dentry.inode, sub := s.volume.dentry.sub }) }
    return result
  else return result

/-- The part of `fsskCheckFile` that may move the inode: the result, and the buffer after it. The place of the moved inode is read back with its parts exchanged. -/
def moveFile (InodeClink DEntryClink : pfs_cache_t) (pos : Nat) (FileInodeDataClink : pfs_cache_t) :
    Prog (Walk α) (Int × Option pfs_cache_t) := do
  let result ← fsskHasSpaceToFree FileInodeDataClink
  if 0 < result then
    let result ← moveEntry InodeClink FileInodeDataClink DEntryClink pos
    if result = 0 then
      free (some FileInodeDataClink)
      let e ← Prog.read fun s => s.dentry DEntryClink pos
      match ← onVolume (pfsInodeGetData (u16 e.inode) e.sub) with
      | .ok c => return (0, some c)
      | .error result => return (result, none)
    else return (result, some FileInodeDataClink)
  else return (result, some FileInodeDataClink)

/-- `fsskCheckFile` from where the inode of the entry is at hand. -/
def checkFetched (files : pfs_cache_t → pfs_cache_t → Prog (Walk α) Int) (InodeClink DEntryClink : pfs_cache_t)
    (pos : Nat) (FileInodeDataClink : pfs_cache_t) : Prog (Walk α) Int := do
  let level ← Prog.read Walk.PWDLevel
  if level < FSSK_MAX_PATH_LEVELS - 1 then
    modify fun s => { s with PWDLevel := s.PWDLevel + 1 }
    let (result, clink) ← moveFile InodeClink DEntryClink pos FileInodeDataClink
    let result ← (if result = 0 then do
        let e ← Prog.read fun s => s.dentry DEntryClink pos
        if FIO_S_ISDIR e.aLen then
          modify fun s => { s with directories := u32 (s.directories + 1) }
          match clink with
          | some clink => files InodeClink clink
          | none => loop (fun (_ : Unit) => return .inl ()) ()
        else
          modify fun s => { s with files := u32 (s.files + 1) }
          return result
      else return result)
    modify fun s => { s with PWDLevel := s.PWDLevel - 1 }
    return result
  else return (- ENOMEM)

/-- `fsskCheckFile`, where `files` is the walk over the entries of a directory. -/
def fsskCheckFile (files : pfs_cache_t → pfs_cache_t → Prog (Walk α) Int) (InodeClink DEntryClink : pfs_cache_t)
    (pos : Nat) : Prog (Walk α) Int := do
  let e ← Prog.read fun s => s.dentry DEntryClink pos
  match ← onVolume (pfsInodeGetData e.sub e.inode) with
  | .error result => return result
  | .ok FileInodeDataClink =>
    unplain
    checkFetched files InodeClink DEntryClink pos FileInodeDataClink

/-- `fsskCheckSelfEntry` and `fsskCheckParentEntry`, which do the same for different inodes. -/
def checkDotEntry (inodeClink DEntryClink : pfs_cache_t) (pos : Nat) : Prog (Walk α) Unit :=
  modify fun s =>
    let e := s.dentry DEntryClink pos
    let block := (s.volume.inode inodeClink).inode_block
    if inodeClink.sub ≠ e.sub ∨ block.number ≠ e.inode then
      { s with dentry := Function.update s.dentry DEntryClink (Function.update (s.dentry DEntryClink) pos
        { e with inode := block.number, sub := block.subpart % 256 }) }
    else s

/-- What `fsskCheckFiles` does about an entry: the result after it. -/
def checkNamed (files : pfs_cache_t → pfs_cache_t → Prog (Walk α) Int)
    (ParentInodeClink InodeClink DEntryClink : pfs_cache_t) (pos : Nat) (result : Int) : Prog (Walk α) Int := do
  let e ← Prog.read fun s => s.dentry DEntryClink pos
  if e.inode = 0 then return result
  else if e.pLen = 1 ∧ e.path 0 = 46 then
    checkDotEntry InodeClink DEntryClink pos
    return result
  else if e.pLen = 2 ∧ e.path 0 = 46 then
    checkDotEntry ParentInodeClink DEntryClink pos
    return result
  else fsskCheckFile files InodeClink DEntryClink pos

/-- A pass of the inner loop of `fsskCheckFiles` over the entries up to `bound`, with the position, the offset in the directory and the result. It ends with `true` where the walk ends. -/
def chainPass (files : pfs_cache_t → pfs_cache_t → Prog (Walk α) Int)
    (ParentInodeClink InodeClink DEntryClink : pfs_cache_t) (bound : Nat) (x : Nat × Nat × Int) :
    Prog (Walk α) (Nat × Nat × Int ⊕ Bool × Nat × Nat × Int) := do
  let (pos, inodeOffset, result) := x
  if bound ≤ pos then return .inr (false, x)
  else if ← stopFlag then return .inr (true, x)
  else
    let e ← Prog.read fun s => s.dentry DEntryClink pos
    let dEntrySize := e.aLen &&& 0x0FFF
    if dEntrySize % 4 ≠ 0 ∨ dEntrySize < (e.pLen + 11) / 4 * 4 ∨ bound < pos + dEntrySize then
      return .inr (true, pos, inodeOffset, - EINVAL)
    else
      let result ← checkNamed files ParentInodeClink InodeClink DEntryClink pos result
      if result < 0 then return .inr (true, pos, inodeOffset, result)
      else return .inl (pos + dEntrySize, u32 (inodeOffset + dEntrySize), result)

/-- Where the walk over a directory stands. -/
structure Stop where
  BlockPosition : pfs_blockpos_t
  DEntryClink : Option pfs_cache_t
  pos : Nat
  inodeOffset : Nat
  result : Int

/-- `size` of an inode -/
def pfs_inode_t.bytes (i : pfs_inode_t) : Nat :=
  i.size.number + 2 ^ 32 * (i.size.subpart + 65536 * i.size.count)

/-- The next chunk of a directory, where the last one is through; `false` where it cannot be had. -/
def nextChunk (InodeClink : pfs_cache_t) (x : Stop) : Prog (Walk α) (Stop × Bool) := do
  if x.pos < 1024 then return (x, true)
  else
    free x.DEntryClink
    let v ← Prog.read Walk.volume
    let (result, BlockPosition) ← onVolume (pfsInodeSync x.BlockPosition 1024 (v.inode InodeClink).number_data)
    if result ≠ 0 then return ({ x with BlockPosition := BlockPosition, result := result }, false)
    else
      match ← onVolume (pfsGetDentriesChunk BlockPosition) with
      | .ok DEntryClink => return (⟨BlockPosition, some DEntryClink, 0, x.inodeOffset, 0⟩, true)
      | .error result => return (⟨BlockPosition, none, x.pos, x.inodeOffset, result⟩, false)

/-- A pass of the outer loop of `fsskCheckFiles`. The inner loop begins at the chunk each time. -/
def blockPass (files : pfs_cache_t → pfs_cache_t → Prog (Walk α) Int) (ParentInodeClink InodeClink : pfs_cache_t)
    (x : Stop) : Prog (Walk α) (Stop ⊕ Stop) := do
  let v ← Prog.read Walk.volume
  if (v.inode InodeClink).bytes ≤ x.inodeOffset then return .inr x
  else
    let (x, there) ← nextChunk InodeClink x
    match x.DEntryClink, there with
    | some DEntryClink, true =>
      let (ended, pos, inodeOffset, result) ←
        loop (chainPass files ParentInodeClink InodeClink DEntryClink 512) (0, x.inodeOffset, x.result)
      let x := { x with pos := pos, inodeOffset := inodeOffset, result := result }
      if ended then return .inr x
      else if ← stopFlag then return .inr x
      else return .inl x
    | _, _ => return .inr x

/-- `fsskCheckFiles` for directories with at most so many levels below them. -/
def fsskCheckLevels : Nat → pfs_cache_t → pfs_cache_t → Prog (Walk α) Int
  | 0, _, _ => return (- ENOMEM)
  | levels + 1, ParentInodeClink, InodeClink => do
    let stack ← ofState fun s : Walk α =>
      (s.CheckThreadStack 0, { s with CheckThreadStack := fun n => s.CheckThreadStack (n + 1) })
    if stack < 128 then return (- ENOMEM)
    else
      onVolume (pfsCacheUsedAdd InodeClink)
      let BlockPosition := firstPosition InodeClink
      match ← onVolume (pfsGetDentriesChunk BlockPosition) with
      | .error result =>
        free BlockPosition.inode
        return result
      | .ok DEntryClink =>
        let x ← loop (blockPass (fsskCheckLevels levels) ParentInodeClink InodeClink)
          ⟨BlockPosition, some DEntryClink, 0, 0, 0⟩
        free x.DEntryClink
        free x.BlockPosition.inode
        return x.result

/-- `fsskCheckFiles`. It goes down no further than `fsskCheckFile` lets it. -/
def fsskCheckFiles (ParentInodeClink InodeClink : pfs_cache_t) : Prog (Walk α) Int :=
  fsskCheckLevels FSSK_MAX_PATH_LEVELS ParentInodeClink InodeClink

/-- The super block is read, and then written twice. -/
def writeSuper (f : Walk α → Walk α) : Prog (Walk α) Int := do
  let result ← transfer
  if result = 0 then
    modify f
    let result ← transfer
    if result = 0 then transfer else return result
  else return result

/-- The root directory is moved: the result, and the buffer after it. -/
def exchangeRoot (clink : pfs_cache_t) : Prog (Walk α) (Int × Option pfs_cache_t) := do
  let result ← onVolume (fsskMoveInode clink clink)
  if result = 0 then
    free (some clink)
    let dentry ← Prog.read fun s => s.volume.dentry
    match ← onVolume (pfsInodeGetData dentry.sub dentry.inode) with
    | .ok clink =>
      let result ← writeSuper fun s => { s with
        root_dir := { s.root_dir with number := dentry.inode, subpart := dentry.sub } }
      return (result, some clink)
    | .error result => return (result, none)
  else return (result, some clink)

/-- The part of `FsskThread` that may move the root directory. -/
def moveRoot (clink : pfs_cache_t) (result : Int) : Prog (Walk α) (Int × Option pfs_cache_t) :=
  if 0 < result then do
    unplain
    exchangeRoot clink
  else return (result, some clink)

/-- The last partitions are no longer of the filesystem. -/
def dropParts (s : Walk α) : Walk α :=
  { s with volume := { s.volume with mount := { s.volume.mount with num_subs := s.volume.partsLeft } } }

/-- The end of `FsskThread`, where the partitions are removed. -/
def removeParts (result : Int) : Prog (Walk α) Int := do
  if result = 0 then
    if ← stopFlag then return result
    else writeSuper dropParts
  else return result

/-- `FsskThread` from where the root directory is at its place. -/
def walkRoot (result : Int) (clink : Option pfs_cache_t) : Prog (Walk α) Unit := do
  if result < 0 then
    free clink
    modify fun s => { s with hasError := true }
  else
    modify fun s => { s with directories := u32 (s.directories + 1) }
    match clink with
    | none => loop (fun (_ : Unit) => return .inl ()) ()
    | some root =>
      let result ← fsskCheckFiles root root
      free (some root)
      let result ← removeParts result
      if result < 0 then modify fun s => { s with hasError := true } else return ()

/-- `FsskThread`, from where `partsDeleted` has been computed. -/
def FsskThread : Prog (Walk α) Unit := do
  let s ← Prog.read id
  if s.volume.partsDeleted = 0 then return ()
  else
    match ← onVolume (pfsInodeGetData s.root_dir.subpart s.root_dir.number) with
    | .error _ => modify fun s => { s with hasError := true }
    | .ok clink =>
      let result ← fsskHasSpaceToFree clink
      let (result, clink) ← moveRoot clink result
      walkRoot result clink

/-! ### Buffers -/

variable {s : Walk α} {v : Volume α} {c : pfs_cache_t} {H : List pfs_cache_t} {w : Bool} {x : Stop}
  {files : pfs_cache_t → pfs_cache_t → Prog (Walk α) Int} {P I D : pfs_cache_t} {levels pos : Nat} {result : Int}

/-- The buffers in use, and whether there was a warning. -/
structure Holds (H : List pfs_cache_t) (w : Bool) (s : Walk α) : Prop where
  held : s.volume.held = H
  warned : s.warned = w

/-- Nothing has happened yet that fssk has no return for. -/
abbrev Plain (s : Walk α) : Prop := s.plain = true

theorem pfsCacheGetData_held (c : pfs_cache_t) (noload : Bool) (v : Volume α) :
    wlp (pfsCacheGetData c noload) v fun r v' =>
      v'.held = match r with
        | .ok () => c :: v.held
        | .error _ => v.held := by
  unfold pfsCacheGetData
  refine wlp_ofState ?_
  split
  · rfl
  · split
    · rfl
    · split
      · rfl
      · split <;> rfl

private theorem pfsBlockGetNextSegment_held (c : pfs_cache_t) (v : Volume α) :
    wlp (pfsBlockGetNextSegment c) v fun r v' => ∀ next, r = .ok next → v'.held = next :: v.held.erase c := by
  unfold pfsBlockGetNextSegment
  refine wlp_modify_bind.mpr (wlp_read_bind.mpr ?_)
  split
  · refine wlp_read_bind.mpr (wlp_bind ((pfsCacheGetData_held _ _ _).mono ?_))
    rintro (result | ⟨⟩) v₁ hheld
    · exact wlp_pure fun next hnext => by cases hnext
    · refine wlp_pure fun next hnext => ?_
      cases hnext
      exact hheld
  · exact wlp_pure fun next hnext => by cases hnext

theorem pfsInodeGetData_held (sub inode : Nat) (v : Volume α) :
    wlp (pfsInodeGetData sub inode) v fun r v' =>
      v'.held = match r with
        | .ok c => c :: v.held
        | .error _ => v.held := by
  unfold pfsInodeGetData
  refine wlp_read_bind.mpr (wlp_bind ((pfsCacheGetData_held _ _ _).mono ?_))
  rintro (result | ⟨⟩) v₁ hheld
  · exact wlp_pure hheld
  · exact wlp_pure hheld

private theorem pfsGetDentriesChunk_held (p : pfs_blockpos_t) (hinode : p.inode = some c) (v : Volume α) :
    wlp (pfsGetDentriesChunk p) v fun r v' =>
      v'.held = match r with
        | .ok chunk => chunk :: v.held
        | .error _ => v.held := by
  unfold pfsGetDentriesChunk
  simp only [hinode]
  refine wlp_read_bind.mpr (wlp_bind ((pfsCacheGetData_held _ _ _).mono ?_))
  rintro (result | ⟨⟩) v₁ hheld
  · exact wlp_pure hheld
  · exact wlp_pure hheld

/-- A buffer in use is returned. -/
theorem free_spec (h : Holds (c :: H) w s) : wlp (free (some c)) s fun _ s' => Holds H w s' := by
  unfold free warnFree pfsCacheFree
  refine wlp_modify_bind.mpr (wlp_zoom (wlp_modify ⟨?_, ?_⟩))
  · simp only [h.held, List.erase_cons_head]
  · simp [h.held, h.warned]

/-! ### What is recorded -/

theorem reflects_onVolume (p : Prog (Volume α) β) : Reflects Plain (onVolume p) :=
  reflects_zoom fun _ _ h => h

theorem reflects_free (c : Option pfs_cache_t) : Reflects (α := Unit) (Plain (α := α)) (free c) :=
  (reflects_ofState fun _ h => h).bind fun _ => reflects_onVolume _

theorem reflects_unplain : Reflects (Plain (α := α)) unplain :=
  reflects_ofState fun _ h => absurd h Bool.false_ne_true

private theorem reflects_nextSegment (c : pfs_cache_t) : Reflects (Plain (α := α)) (nextSegment c) := by
  refine (reflects_ofState fun _ h => h).bind fun _ => (reflects_onVolume _).bind fun r => ?_
  cases r with
  | error result => exact reflects_unplain.bind fun _ => reflects_pure _
  | ok next => exact reflects_pure _

theorem reflects_spacePass (clink : pfs_cache_t) (x : Nat × pfs_cache_t) :
    Reflects (Plain (α := α)) (spacePass clink x) := by
  refine (reflects_ofState fun _ h => h).bind fun v => ?_
  split
  · refine Reflects.bind ?_ fun r => ?_
    · split
      · exact reflects_nextSegment _
      · exact reflects_pure _
    · cases r with
      | error result => exact reflects_pure _
      | ok cinode =>
        dsimp only
        split
        · exact reflects_pure _
        · exact reflects_pure _
  · exact reflects_pure _

private theorem reflects_fsskHasSpaceToFree (clink : pfs_cache_t) :
    Reflects (Plain (α := α)) (fsskHasSpaceToFree clink) := by
  refine (reflects_onVolume _).bind fun _ => (Reflects.loop (reflects_spacePass clink) _).bind fun r => ?_
  exact (reflects_ofState fun _ h => h).bind fun _ => (reflects_free _).bind fun _ => reflects_pure _

private theorem reflects_moveFile (I D : pfs_cache_t) (pos : Nat) (c : pfs_cache_t) :
    Reflects (Plain (α := α)) (moveFile I D pos c) := by
  refine (reflects_fsskHasSpaceToFree c).bind fun result => ?_
  split
  · refine Reflects.bind ?_ fun result => ?_
    · refine reflects_unplain.bind fun _ => (reflects_onVolume _).bind fun result => ?_
      split
      · exact (reflects_ofState fun _ h => h).bind fun _ => reflects_pure _
      · exact reflects_pure _
    · split
      · refine (reflects_free _).bind fun _ => (reflects_ofState fun _ h => h).bind fun e => ?_
        refine (reflects_onVolume _).bind fun r => ?_
        cases r with
        | error result => exact reflects_pure _
        | ok c => exact reflects_pure _
      · exact reflects_pure _
  · exact reflects_pure _

theorem reflects_crash :
    Reflects (Plain (α := α)) (loop (fun (_ : Unit) => return .inl ()) () : Prog (Walk α) β) :=
  Reflects.loop (fun _ => reflects_pure _) _

theorem reflects_checkFetched (hfiles : ∀ P I, Reflects Plain (files P I)) (I D : pfs_cache_t) (pos : Nat)
    (c : pfs_cache_t) : Reflects Plain (checkFetched files I D pos c) := by
  refine (reflects_ofState fun _ h => h).bind fun level => ?_
  split
  · refine (reflects_ofState fun _ h => h).bind fun _ => (reflects_moveFile _ _ _ _).bind fun r => ?_
    refine Reflects.bind ?_ fun _ => (reflects_ofState fun _ h => h).bind fun _ => reflects_pure _
    split
    · refine (reflects_ofState fun _ h => h).bind fun e => ?_
      split
      · refine (reflects_ofState fun _ h => h).bind fun _ => ?_
        split
        · exact hfiles _ _
        · exact reflects_crash
      · exact (reflects_ofState fun _ h => h).bind fun _ => reflects_pure _
    · exact reflects_pure _
  · exact reflects_pure _

private theorem reflects_fsskCheckFile (hfiles : ∀ P I, Reflects Plain (files P I)) (I D : pfs_cache_t) (pos : Nat) :
    Reflects Plain (fsskCheckFile files I D pos) := by
  refine (reflects_ofState fun _ h => h).bind fun e => (reflects_onVolume _).bind fun r => ?_
  cases r with
  | error result => exact reflects_pure _
  | ok c => exact reflects_unplain.bind fun _ => reflects_checkFetched hfiles _ _ _ _

theorem reflects_checkDotEntry (c D : pfs_cache_t) (pos : Nat) :
    Reflects (Plain (α := α)) (checkDotEntry c D pos) := by
  refine reflects_ofState fun s h => ?_
  simp only [Plain] at h
  split at h <;> exact h

private theorem reflects_checkNamed (hfiles : ∀ P I, Reflects Plain (files P I)) (P I D : pfs_cache_t) (pos : Nat)
    (result : Int) : Reflects Plain (checkNamed files P I D pos result) := by
  refine (reflects_ofState fun _ h => h).bind fun e => ?_
  split
  · exact reflects_pure _
  · split
    · exact (reflects_checkDotEntry _ _ _).bind fun _ => reflects_pure _
    · split
      · exact (reflects_checkDotEntry _ _ _).bind fun _ => reflects_pure _
      · exact reflects_fsskCheckFile hfiles _ _ _

theorem reflects_chainPass (hfiles : ∀ P I, Reflects Plain (files P I)) (P I D : pfs_cache_t) (bound : Nat)
    (x : Nat × Nat × Int) : Reflects Plain (chainPass files P I D bound x) := by
  obtain ⟨pos, inodeOffset, result⟩ := x
  unfold chainPass
  dsimp only
  split
  · exact reflects_pure _
  · refine (reflects_ofState fun _ h => h).bind fun stop => ?_
    split
    · exact reflects_pure _
    · refine (reflects_ofState fun _ h => h).bind fun e => ?_
      split
      · exact reflects_pure _
      · refine (reflects_checkNamed hfiles _ _ _ _ _).bind fun result => ?_
        split
        · exact reflects_pure _
        · exact reflects_pure _

private theorem reflects_nextChunk (I : pfs_cache_t) (x : Stop) : Reflects (Plain (α := α)) (nextChunk I x) := by
  unfold nextChunk
  split
  · exact reflects_pure _
  · refine (reflects_free _).bind fun _ => (reflects_ofState fun _ h => h).bind fun v => ?_
    refine (reflects_onVolume _).bind fun r => ?_
    dsimp only
    split
    · exact reflects_pure _
    · refine (reflects_onVolume _).bind fun r => ?_
      cases r with
      | error result => exact reflects_pure _
      | ok chunk => exact reflects_pure _

theorem reflects_blockPass (hfiles : ∀ P I, Reflects Plain (files P I)) (P I : pfs_cache_t) (x : Stop) :
    Reflects Plain (blockPass files P I x) := by
  refine (reflects_ofState fun _ h => h).bind fun v => ?_
  split
  · exact reflects_pure _
  · refine (reflects_nextChunk _ _).bind fun r => ?_
    dsimp only
    split
    · refine (Reflects.loop (reflects_chainPass hfiles _ _ _ _) _).bind fun r => ?_
      split
      · exact reflects_pure _
      · refine (reflects_ofState fun _ h => h).bind fun stop => ?_
        split
        · exact reflects_pure _
        · exact reflects_pure _
    · exact reflects_pure _

theorem reflects_fsskCheckLevels (levels : Nat) (P I : pfs_cache_t) :
    Reflects (Plain (α := α)) (fsskCheckLevels levels P I) := by
  induction levels generalizing P I with
  | zero => exact reflects_pure _
  | succ levels ih =>
    refine (reflects_ofState fun _ h => h).bind fun stack => ?_
    split
    · exact reflects_pure _
    · refine (reflects_onVolume _).bind fun _ => (reflects_onVolume _).bind fun r => ?_
      cases r with
      | error result => exact (reflects_free _).bind fun _ => reflects_pure _
      | ok D =>
        refine (Reflects.loop (reflects_blockPass ih _ _) _).bind fun x => ?_
        exact (reflects_free _).bind fun _ => (reflects_free _).bind fun _ => reflects_pure _

private theorem reflects_fsskCheckFiles (P I : pfs_cache_t) : Reflects (Plain (α := α)) (fsskCheckFiles P I) := by
  unfold fsskCheckFiles
  exact reflects_fsskCheckLevels _ P I

/-! ### What is returned -/

theorem wlp_unplain_bind {p : Unit → Prog (Walk α) β} (hp : Reflects Plain (p ())) (Q : β → Walk α → Prop) :
    wlp (unplain >>= p) s fun r s' => Plain s' → Q r s' := by
  refine wlp_modify_bind.mpr fun r s' hrun hplain => ?_
  exact absurd (hp _ r s' hrun hplain) Bool.false_ne_true

/-- The next descriptor takes the place of the one at hand. -/
private theorem nextSegment_spec (h : Holds (c :: H) w s) :
    wlp (nextSegment c) s fun r s' => Plain s' → ∃ next, r = .ok next ∧ Holds (next :: H) w s' := by
  unfold nextSegment warnFree
  refine wlp_modify_bind.mpr (wlp_bind (wlp_zoom ((pfsBlockGetNextSegment_held _ _).mono ?_)))
  intro r v' hheld
  cases r with
  | error result =>
    refine wlp_modify_bind.mpr (wlp_pure fun hplain => ?_)
    exact absurd hplain Bool.false_ne_true
  | ok next =>
    refine wlp_pure fun _ => ⟨next, rfl, ?_, ?_⟩
    · have hheld := hheld next rfl
      simp only [h.held, List.erase_cons_head] at hheld
      exact hheld
    · simp [h.held, h.warned]

/-- The search for zones to be freed returns the descriptor it has come to. -/
private theorem fsskHasSpaceToFree_spec (h : Holds H w s) (clink : pfs_cache_t) :
    wlp (fsskHasSpaceToFree clink) s fun result s' => Plain s' → 0 ≤ result ∧ Holds H w s' := by
  unfold fsskHasSpaceToFree
  refine wlp_bind (wlp_zoom (wlp_modify ?_))
  refine wlp_bind_of_reflects (A := fun r s' => 0 ≤ r.1 ∧ ∃ c, r.2 = some c ∧ Holds (c :: H) w s') ?_ ?_ ?_
  · refine wlp_loop_of_reflects (fun x s' => Holds (x.2 :: H) w s') (reflects_spacePass clink) ?_
      ⟨congrArg (clink :: ·) h.held, h.warned⟩
    rintro ⟨i, cinode⟩ s₁ hinv
    refine wlp_read_bind.mpr ?_
    split
    · refine wlp_bind_of_reflects (A := fun r s' => ∃ next, r = .ok next ∧ Holds (next :: H) w s') ?_ ?_ ?_
      · split
        · exact nextSegment_spec hinv
        · exact wlp_pure fun _ => ⟨cinode, rfl, hinv⟩
      · intro r
        cases r with
        | error result => exact reflects_pure _
        | ok cinode =>
          dsimp only
          split
          · exact reflects_pure _
          · exact reflects_pure _
      · rintro r s₂ ⟨next, rfl, hnext⟩
        dsimp only
        split
        · exact wlp_pure fun _ => ⟨Int.one_nonneg, next, rfl, hnext⟩
        · exact wlp_pure fun _ => hnext
    · exact wlp_pure fun _ => ⟨le_rfl, cinode, rfl, hinv⟩
  · exact fun r => (reflects_ofState fun _ h => h).bind fun _ => (reflects_free _).bind fun _ => reflects_pure _
  · rintro ⟨result, c⟩ s₁ ⟨hle, cinode, rfl, hheld⟩
    refine wlp_modify_bind.mpr (wlp_bind (wlp.mono (free_spec (H := H) (w := w) ?_) ?_))
    · exact ⟨hheld.held, hheld.warned⟩
    · exact fun _ s₂ hfree => wlp_pure fun _ => ⟨hle, hfree⟩

/-- An entry whose inode cannot be had takes no buffer. -/
theorem fsskCheckFile_spec (hfiles : ∀ P I, Reflects Plain (files P I)) (h : Holds H w s) (I D : pfs_cache_t)
    (pos : Nat) : wlp (fsskCheckFile files I D pos) s fun _ s' => Plain s' → Holds H w s' := by
  unfold fsskCheckFile
  refine wlp_read_bind.mpr (wlp_bind (wlp_zoom ((pfsInodeGetData_held _ _ _).mono ?_)))
  intro r v' hheld
  cases r with
  | error result => exact wlp_pure fun _ => ⟨hheld.trans h.held, h.warned⟩
  | ok c => exact wlp_unplain_bind (reflects_checkFetched hfiles I D pos c) fun _ => Holds H w

private theorem checkNamed_spec (hfiles : ∀ P I, Reflects Plain (files P I)) (h : Holds H w s) (P I D : pfs_cache_t)
    (pos : Nat) (result : Int) :
    wlp (checkNamed files P I D pos result) s fun _ s' => Plain s' → Holds H w s' := by
  have hdot : ∀ c, wlp (checkDotEntry c D pos >>= fun _ => pure result) s fun _ s' =>
      Plain s' → Holds H w s' := by
    intro c
    refine wlp_modify_bind.mpr (wlp_pure fun _ => ?_)
    dsimp only
    split
    · exact ⟨h.held, h.warned⟩
    · exact h
  unfold checkNamed
  refine wlp_read_bind.mpr ?_
  split
  · exact wlp_pure fun _ => h
  · split
    · exact hdot I
    · split
      · exact hdot P
      · exact fsskCheckFile_spec hfiles h I D pos

/-- The walk over a chunk ends within its first 512 bytes. -/
private theorem chain_spec (hfiles : ∀ P I, Reflects Plain (files P I)) (h : Holds H w s) (P I D : pfs_cache_t)
    (inodeOffset : Nat) (result : Int) :
    wlp (loop (chainPass files P I D 512) (0, inodeOffset, result)) s fun r s' =>
      Plain s' → Holds H w s' ∧ r.2.1 ≤ 512 := by
  refine wlp_loop_of_reflects (fun x s' => Holds H w s' ∧ x.1 ≤ 512) (reflects_chainPass hfiles P I D 512) ?_
    ⟨h, Nat.zero_le _⟩
  rintro ⟨pos, inodeOffset, result⟩ s₁ ⟨hheld, hpos⟩
  unfold chainPass
  dsimp only
  split
  · exact wlp_pure fun _ => ⟨hheld, hpos⟩
  · refine wlp_ofState_bind.mpr ?_
    have hheld' : Holds H w { s₁ with stopFlag := fun n => s₁.stopFlag (n + 1) } := ⟨hheld.held, hheld.warned⟩
    split
    · exact wlp_pure fun _ => ⟨hheld', hpos⟩
    · refine wlp_read_bind.mpr ?_
      split
      · exact wlp_pure fun _ => ⟨hheld', hpos⟩
      · rename_i hfits
        refine wlp_bind_of_reflects (checkNamed_spec hfiles hheld' P I D pos result) ?_ ?_
        · intro result
          split
          · exact reflects_pure _
          · exact reflects_pure _
        · intro result s₂ hheld₂
          split
          · exact wlp_pure fun _ => ⟨hheld₂, hpos⟩
          · refine wlp_pure fun _ => ⟨hheld₂, ?_⟩
            dsimp only at hfits ⊢
            omega

/-- The walk over a directory holds its inode and a chunk to the end. -/
theorem blocks_spec (hfiles : ∀ P I, Reflects Plain (files P I)) (h : Holds (D :: H) w s) (P I : pfs_cache_t) :
    wlp (loop (blockPass files P I) ⟨firstPosition I, some D, 0, 0, 0⟩) s fun x s' =>
      Plain s' → x.BlockPosition = firstPosition I ∧ x.DEntryClink = some D ∧ Holds (D :: H) w s' := by
  refine wlp_loop_of_reflects (fun x s' => x.BlockPosition = firstPosition I ∧ x.DEntryClink = some D ∧
    x.pos ≤ 512 ∧ Holds (D :: H) w s') (reflects_blockPass hfiles P I) ?_ ⟨rfl, rfl, Nat.zero_le _, h⟩
  rintro ⟨BlockPosition, DEntryClink, pos, inodeOffset, result⟩ s₁ ⟨rfl, rfl, hpos, hheld⟩
  unfold blockPass
  refine wlp_read_bind.mpr ?_
  split
  · exact wlp_pure fun _ => ⟨rfl, rfl, hheld⟩
  · -- the position is before the end of the chunk, so that no other one is fetched
    have hchunk : nextChunk I (⟨firstPosition I, some D, pos, inodeOffset, result⟩ : Stop) =
        (return (⟨firstPosition I, some D, pos, inodeOffset, result⟩, true) : Prog (Walk α) (Stop × Bool)) :=
      if_pos (show pos < 1024 by exact lt_of_le_of_lt hpos (by decide))
    rw [hchunk]
    refine wlp_bind (wlp_pure ?_)
    dsimp only
    refine wlp_bind_of_reflects (chain_spec hfiles hheld P I D inodeOffset result) ?_ ?_
    · intro r
      split
      · exact reflects_pure _
      · refine (reflects_ofState fun _ h => h).bind fun stop => ?_
        split
        · exact reflects_pure _
        · exact reflects_pure _
    · rintro ⟨ended, pos', inodeOffset', result'⟩ s₂ ⟨hheld₂, hpos₂⟩
      dsimp only
      split
      · exact wlp_pure fun _ => ⟨rfl, rfl, hheld₂⟩
      · refine wlp_ofState_bind.mpr ?_
        split
        · exact wlp_pure fun _ => ⟨rfl, rfl, hheld₂.held, hheld₂.warned⟩
        · exact wlp_pure fun _ => ⟨rfl, rfl, hpos₂, hheld₂.held, hheld₂.warned⟩

/-- The walk over a directory returns what it has taken. -/
private theorem fsskCheckLevels_spec (h : Holds H w s) (levels : Nat) (P I : pfs_cache_t) :
    wlp (fsskCheckLevels levels P I) s fun _ s' => Plain s' → Holds H w s' := by
  cases levels with
  | zero => exact wlp_pure fun _ => h
  | succ levels =>
    unfold fsskCheckLevels
    refine wlp_ofState_bind.mpr ?_
    split
    · exact wlp_pure fun _ => ⟨h.held, h.warned⟩
    · refine wlp_bind (wlp_zoom (wlp_modify ?_))
      refine wlp_bind (wlp_zoom ((pfsGetDentriesChunk_held (c := I) _ rfl _).mono fun r v' hheld => ?_))
      cases r with
      | error result =>
        refine wlp_bind (wlp.mono (free_spec (H := H) (w := w) ?_) ?_)
        · exact ⟨hheld.trans (congrArg (I :: ·) h.held), h.warned⟩
        · exact fun _ s₂ hfree => wlp_pure fun _ => hfree
      | ok D =>
        refine wlp_bind_of_reflects (blocks_spec (D := D) (H := I :: H) (w := w) (reflects_fsskCheckLevels levels)
          ?_ P I) ?_ ?_
        · exact ⟨hheld.trans (congrArg (D :: I :: ·) h.held), h.warned⟩
        · exact fun x => (reflects_free _).bind fun _ => (reflects_free _).bind fun _ => reflects_pure _
        · rintro x s₂ ⟨hposition, hchunk, hheld₂⟩
          rw [hposition, hchunk]
          refine wlp_bind ((free_spec hheld₂).mono fun _ s₃ hheld₃ => ?_)
          refine wlp_bind ((free_spec hheld₃).mono fun _ s₄ hheld₄ => ?_)
          exact wlp_pure fun _ => hheld₄

theorem fsskCheckFiles_spec (h : Holds H w s) (P I : pfs_cache_t) :
    wlp (fsskCheckFiles P I) s fun _ s' => Plain s' → Holds H w s' := by
  unfold fsskCheckFiles
  exact fsskCheckLevels_spec h _ P I

/-! ### The thread -/

theorem reflects_writeSuper {f : Walk α → Walk α} (hf : ∀ s, Plain (f s) → Plain s) :
    Reflects Plain (writeSuper f) := by
  refine (reflects_ofState fun _ h => h).bind fun result => ?_
  split
  · refine (reflects_ofState hf).bind fun _ => (reflects_ofState fun _ h => h).bind fun result => ?_
    split
    · exact reflects_ofState fun _ h => h
    · exact reflects_pure _
  · exact reflects_pure _

theorem reflects_exchangeRoot (c : pfs_cache_t) : Reflects (Plain (α := α)) (exchangeRoot c) := by
  refine (reflects_onVolume _).bind fun result => ?_
  split
  · refine (reflects_free _).bind fun _ => (reflects_ofState fun _ h => h).bind fun dentry => ?_
    refine (reflects_onVolume _).bind fun r => ?_
    cases r with
    | error result => exact reflects_pure _
    | ok c =>
      refine Reflects.bind (reflects_writeSuper ?_) fun _ => reflects_pure _
      exact fun _ h => h
  · exact reflects_pure _

private theorem reflects_removeParts (result : Int) : Reflects (Plain (α := α)) (removeParts result) := by
  unfold removeParts
  split
  · refine (reflects_ofState fun _ h => h).bind fun stop => ?_
    split
    · exact reflects_pure _
    · apply reflects_writeSuper
      exact fun _ h => h
  · exact reflects_pure _

theorem reflects_endThread (root : pfs_cache_t) (result : Int) : Reflects (Plain (α := α)) (do
    free (some root)
    let result ← removeParts result
    if result < 0 then modify fun s => { s with hasError := true } else return ()) := by
  refine (reflects_free _).bind fun _ => (reflects_removeParts result).bind fun result => ?_
  split
  · exact reflects_ofState fun _ h => h
  · exact reflects_pure _

theorem reflects_walkRoot (result : Int) (c : Option pfs_cache_t) :
    Reflects (Plain (α := α)) (walkRoot result c) := by
  unfold walkRoot
  split
  · exact (reflects_free _).bind fun _ => reflects_ofState fun _ h => h
  · refine (reflects_ofState fun _ h => h).bind fun _ => ?_
    cases c with
    | none => exact reflects_crash
    | some root =>
      exact (reflects_fsskCheckFiles root root).bind fun result => reflects_endThread root result

private theorem reflects_moveRoot (c : pfs_cache_t) (result : Int) : Reflects (Plain (α := α)) (moveRoot c result) := by
  unfold moveRoot
  split
  · exact reflects_unplain.bind fun _ => reflects_exchangeRoot _
  · exact reflects_pure _

private theorem moveRoot_spec (h : Holds H w s) (c : pfs_cache_t) (result : Int) :
    wlp (moveRoot c result) s fun r s' => Plain s' → r = (result, some c) ∧ Holds H w s' := by
  unfold moveRoot
  split
  · exact wlp_unplain_bind (reflects_exchangeRoot c) fun r s' => r = (result, some c) ∧ Holds H w s'
  · exact wlp_pure fun _ => ⟨rfl, h⟩

theorem writeSuper_spec (h : Holds H w s) {f : Walk α → Walk α} (hf : ∀ s, Holds H w s → Holds H w (f s)) :
    wlp (writeSuper f) s fun _ s' => Holds H w s' := by
  have hread : ∀ {s : Walk α}, Holds H w s → Holds H w { s with transfer := fun n => s.transfer (n + 1) } :=
    fun h => ⟨h.held, h.warned⟩
  unfold writeSuper
  refine wlp_ofState_bind.mpr ?_
  split
  · refine wlp_modify_bind.mpr (wlp_ofState_bind.mpr ?_)
    split
    · exact wlp_ofState (hread (hread (hf _ (hread h))))
    · exact wlp_pure (hread (hf _ (hread h)))
  · exact wlp_pure (hread h)

private theorem removeParts_spec (h : Holds H w s) (result : Int) :
    wlp (removeParts result) s fun _ s' => Holds H w s' := by
  unfold removeParts
  split
  · refine wlp_ofState_bind.mpr ?_
    split
    · exact wlp_pure ⟨h.held, h.warned⟩
    · apply writeSuper_spec
      · exact ⟨h.held, h.warned⟩
      · exact fun _ h => ⟨h.held, h.warned⟩
  · exact wlp_pure h

private theorem walkRoot_spec (h : Holds (c :: H) w s) (hle : 0 ≤ result) :
    wlp (walkRoot result (some c)) s fun _ s' => Plain s' → Holds H w s' := by
  unfold walkRoot
  rw [if_neg (not_lt.mpr hle)]
  refine wlp_modify_bind.mpr ?_
  have h' : Holds (c :: H) w { s with directories := u32 (s.directories + 1) } := ⟨h.held, h.warned⟩
  refine wlp_bind_of_reflects (fsskCheckFiles_spec h' c c) (fun result => reflects_endThread c result) ?_
  intro result s₁ hheld
  refine wlp_bind ((free_spec hheld).mono fun _ s₂ hheld₂ => ?_)
  refine wlp_bind ((removeParts_spec hheld₂ result).mono fun result s₃ hheld₃ => ?_)
  split
  · exact wlp_modify fun _ => ⟨hheld₃.held, hheld₃.warned⟩
  · exact wlp_pure fun _ => hheld₃

private theorem FsskThread_spec (h : Holds H w s) : wlp FsskThread s fun _ s' => Plain s' → Holds H w s' := by
  unfold FsskThread
  refine wlp_read_bind.mpr ?_
  split
  · exact wlp_pure fun _ => h
  · refine wlp_bind (wlp_zoom ((pfsInodeGetData_held _ _ _).mono fun r v' hheld => ?_))
    cases r with
    | error result => exact wlp_modify fun _ => ⟨hheld.trans h.held, h.warned⟩
    | ok c =>
      refine wlp_bind_of_reflects (fsskHasSpaceToFree_spec (H := c :: H) (w := w) ?_ c) ?_ ?_
      · exact ⟨hheld.trans (congrArg (c :: ·) h.held), h.warned⟩
      · exact fun result => (reflects_moveRoot _ _).bind fun r => reflects_walkRoot _ _
      · rintro result s₁ ⟨hle, hheld₁⟩
        refine wlp_bind_of_reflects (moveRoot_spec hheld₁ c result) (fun r => reflects_walkRoot _ _) ?_
        rintro r s₂ ⟨rfl, hheld₂⟩
        exact walkRoot_spec hheld₂ hle

/-- What a run leaves: without an inode that was fetched or moved, and a descriptor that was missing, the buffers in use are those from before, and each buffer returned was in use. -/
def Returned (s : Walk α) (_ : β) (s' : Walk α) : Prop := Plain s' → Holds s.volume.held s.warned s'

/-- Runs in which no entry gives an inode return every buffer. -/
theorem FsskThread_returns (s : Walk α) :
    (∀ levels I D pos, wlp (fsskCheckFile (fsskCheckLevels levels) I D pos) s (Returned s)) ∧
      (∀ P I, wlp (fsskCheckFiles P I) s (Returned s)) ∧ wlp FsskThread s (Returned s) := by
  have h : Holds s.volume.held s.warned s := ⟨rfl, rfl⟩
  refine ⟨fun levels I D pos => ?_, fun P I => ?_, ?_⟩
  · exact fsskCheckFile_spec (reflects_fsskCheckLevels levels) h I D pos
  · exact fsskCheckFiles_spec h P I
  · exact FsskThread_spec h

/-- A root directory of two entries for itself. -/
def emptyWalk : Walk Unit where
  volume := { twoRunsVolume with
    mount := { twoRunsVolume.mount with num_subs := 2 }
    partsDeleted := 1
    inode := fun _ => twoRuns.setData 118 ⟨512, 0, 0⟩ }
  dentry := fun _ pos =>
    if pos = 0 then ⟨100, 0, 1, 0x100C, fun _ => 46⟩ else ⟨100, 0, 2, 0x11F4, fun _ => 46⟩
  PWDLevel := 0
  files := 0
  directories := 0
  inodeBlockCount := 0
  hasError := false
  stopFlag := fun _ => false
  CheckThreadStack := fun _ => 1024
  transfer := fun _ => 0
  root_dir := ⟨100, 0, 1⟩
  warned := false
  plain := true

theorem FsskThread_returns_empty : ∃ s', Runs FsskThread emptyWalk () s' ∧ s'.volume.held = [] := by
  obtain ⟨r, s', hrun, hplain⟩ := runs_of_any (p := FsskThread) (s := emptyWalk)
    (P := fun _ s' => s'.plain) 8 (by decide +kernel)
  exact ⟨s', hrun, ((FsskThread_returns emptyWalk).2.2 r s' hrun hplain).held⟩

def fileWalk : Walk Unit := { emptyWalk with dentry := fun _ _ => ⟨300, 0, 1, 0x2200, fun _ => 97⟩ }

/-- The inode of a file stays in its buffer. -/
theorem fsskCheckFile_keeps : ¬ ∀ (s : Walk Unit) (levels : Nat) (I D : pfs_cache_t) (pos : Nat),
    s.PWDLevel < FSSK_MAX_PATH_LEVELS - 1 →
      wlp (fsskCheckFile (fsskCheckLevels levels) I D pos) s fun _ s' => s'.volume.held = s.volume.held := by
  intro h
  obtain ⟨r, s', hrun, hheld⟩ := runs_of_any (p := fsskCheckFile (fsskCheckLevels 1) ⟨0, 800⟩ ⟨0, 1600⟩ 0)
    (s := fileWalk) (P := fun _ s' => decide (s'.volume.held = [⟨0, 2400⟩])) 8 (by decide +kernel)
  have hempty : s'.volume.held = [] := h fileWalk 1 ⟨0, 800⟩ ⟨0, 1600⟩ 0 (by decide) r s' hrun
  exact absurd ((of_decide_eq_true hheld).symm.trans hempty) (List.cons_ne_nil _ _)

end HddChecker.Fssk
