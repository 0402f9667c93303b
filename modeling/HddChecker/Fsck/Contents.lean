import HddChecker.Fsck.Counters

/-!
# What is read as the contents of a directory

The walk of the directories keeps to the data segments of each, as long as every directory has one and the walk of it ends at the last. It asks for neither: a directory without data segments is read, and repaired, at the first entry of its inode all the same.
-/

namespace HddChecker.Fsck

open HddChecker Prog Pfs

variable {σ : Type} {L : Libpfs σ} {m : Mount}

/-- Every chunk that was read lies in a data segment of its directory, and so does every chunk that was marked dirty, which is one that was read before. -/
def Contained : List WalkEvent → Prop
  | [] => True
  | .read v :: walk => v.Inside ∧ Contained walk
  | .mark DEntryClink :: walk =>
    (∃ v, .read v ∈ walk ∧ v.DEntryClink = some DEntryClink ∧ v.Inside) ∧ Contained walk

/-- Every chunk that was read lies in its directory if that was in order, and those that were marked dirty were read before. -/
def Recorded : List WalkEvent → Prop
  | [] => True
  | .read v :: walk => v.Sound ∧ Recorded walk
  | .mark DEntryClink :: walk =>
    (∃ v, .read v ∈ walk ∧ v.DEntryClink = some DEntryClink) ∧ Recorded walk

theorem Contained.inside {walk : List WalkEvent} (h : Contained walk) {v : Visit}
    (hv : .read v ∈ walk) : v.Inside := by
  induction walk with
  | nil => cases hv
  | cons e walk ih =>
    cases e with
    | read w =>
      rcases List.mem_cons.mp hv with heq | hv
      · cases heq
        exact h.1
      · exact ih h.2 hv
    | mark DEntryClink =>
      rcases List.mem_cons.mp hv with heq | hv
      · cases heq
      · exact ih h.2 hv

theorem Recorded.contained {walk : List WalkEvent} (h : Recorded walk)
    (hfits : ∀ v, .read v ∈ walk → v.Fits) : Contained walk := by
  induction walk with
  | nil => trivial
  | cons e walk ih =>
    have hrest : Recorded walk → Contained walk :=
      fun h => ih h fun v hv => hfits v (List.mem_cons_of_mem _ hv)
    cases e with
    | read v => exact ⟨h.1 (hfits v List.mem_cons_self), hrest h.2⟩
    | mark DEntryClink =>
      have hcontained := hrest h.2
      obtain ⟨v, hv, hclink⟩ := h.1
      exact ⟨⟨v, hv, hclink, hcontained.inside hv⟩, hcontained⟩

private theorem recorded_counting : Counting (σ := σ) m fun s => Recorded s.walk where
  same h hsame := by
    rw [hsame.walk]
    exact h
  prompt := fsckPromptUserAction_records true (P := fun walk _ _ => Recorded walk)
  read h hsound := ⟨hsound, h⟩
  mark h hgot := ⟨hgot, h⟩
  use h _ := h
  look _ h := h

/-- Where each directory has a data segment when its walk begins, and the walk stands in one and before the end whenever it goes on, only contents of directories are read and marked dirty. -/
theorem fsckCheckFiles_contained {s s' : Check σ} {gaveUp : Bool} (hwalk : s.walk = [])
    (hrun : Runs (FsckThread L m) s gaveUp s') (hfits : ∀ v, .read v ∈ s'.walk → v.Fits) :
    Contained s'.walk := by
  have hstart : Recorded s.walk := by
    rw [hwalk]
    trivial
  have hrecorded : Recorded s'.walk := FsckThread_counts recorded_counting s hstart gaveUp s' hrun
  exact hrecorded.contained hfits

/-! ### A small directory -/

/-- A filesystem with an empty root directory of one sector at zone 529. The inode has so many entries, of which the one behind the descriptor is zone 530 or unused. -/
def smallRoot (number_data : Nat) : Libpfs Unit where
  sub _ _ := 0
  block _ _ := 0
  inode _ _ :=
    { inode_block := ⟨529, 0, 1⟩
      next_segment := ⟨0, 0, 0⟩
      last_segment := ⟨529, 0, 1⟩
      data := fun i => if i = 0 then ⟨529, 0, 1⟩ else if i < number_data then ⟨530, 0, 1⟩ else ⟨0, 0, 0⟩
      mode := 0x11FF
      attr := 0xA0
      size := 512
      number_blocks := number_data
      number_data := number_data
      number_segdesg := 1
      subpart := 0 }
  setInode _ _ := id
  dentry _ _ _ := ⟨0, 0, 0, 0, fun _ => 0⟩
  setDentry _ _ _ := id
  bitmap _ _ _ _ := true
  setBitmap _ _ _ := id
  zero _ := id
  setDirty _ := id
  pfsCacheGetData _ _ _ s := (.ok 1, s)
  pfsCacheUsedAdd _ := id
  pfsCacheFree _ := id
  pfsCacheFlushAllDirty := id
  pfsInodeGetData _ _ s := (.ok 0, s)
  transferRead _ _ _ s := ((0, fun _ => 0), s)
  transferWrite _ _ _ _ s := (0, s)
  flushCache := id
  getPartError := id
  rewind := id
  read size s := ((size, fun _ => 0), s)
  write size _ s := (size, s)

/-- The check of it as `FsckOpen` starts it. -/
def smallRootCheck : Check Unit :=
  { plainCheck with
    scratch := ((Scratch.pfsBitmapInit (fun _ _ _ => false) fun _ => none).pfsBitmapPartInit 16384).2 }

private theorem smallRoot_opened : Opened smallRootCheck := ⟨rfl, rfl, rfl, rfl, rfl⟩

/-- With one data segment, the one sector of the directory is read there and repaired. -/
theorem fsckCheckFiles_contained_smallRoot : ∃ gaveUp s',
    Runs (FsckThread (smallRoot 2) plainMount) smallRootCheck gaveUp s' ∧ s'.walk.length = 2 ∧
      Contained s'.walk := by
  obtain ⟨gaveUp, s', hrun, hwalk⟩ := runs_of_any
    (p := FsckThread (smallRoot 2) plainMount) (s := smallRootCheck)
    (P := fun _ s' => s'.walk.length == 2 && s'.walk.all fun e =>
      match e with
      | .read v => v.stood.isNone && 1024 < v.zsize && 1 < v.number_data && 0 < (v.segment.data 1).count
      | .mark _ => true) 520 (by decide +kernel)
  simp only [Bool.and_eq_true, beq_iff_eq, List.all_eq_true] at hwalk
  refine ⟨gaveUp, s', hrun, hwalk.1, fsckCheckFiles_contained rfl hrun fun v hv => ?_⟩
  have hfirst := hwalk.2 _ hv
  simp only [Bool.and_eq_true, decide_eq_true_eq, Option.isNone_iff_eq_none] at hfirst
  obtain ⟨⟨⟨hstood, hzsize⟩, hmore⟩, hcount⟩ := hfirst
  refine ⟨hzsize, ?_⟩
  rw [hstood]
  exact ⟨hmore, hcount⟩

/-- Without one, what is read and repaired lies in no segment of the directory. -/
theorem fsckCheckFiles_not_contained : ¬ ∀ (σ : Type) (L : Libpfs σ) (m : Mount) (s s' : Check σ)
    (gaveUp : Bool), Opened s → s.walk = [] → Runs (FsckThread L m) s gaveUp s' →
    Contained s'.walk := by
  intro h
  obtain ⟨gaveUp, s', hrun, hwalk⟩ := runs_of_any
    (p := FsckThread (smallRoot 1) plainMount) (s := smallRootCheck)
    (P := fun _ s' => s'.walk.any fun e =>
      match e with
      | .read v => v.number_data ≤ v.position.block_segment
      | .mark _ => false) 520 (by decide +kernel)
  have hcontained := h Unit (smallRoot 1) plainMount _ s' gaveUp smallRoot_opened rfl hrun
  obtain ⟨e, he, hpast⟩ := List.any_eq_true.mp hwalk
  cases e with
  | read v =>
    have hsegment := (hcontained.inside he).segment
    have hpast := of_decide_eq_true hpast
    omega
  | mark DEntryClink => cases hpast

end HddChecker.Fsck
