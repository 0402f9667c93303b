import HddChecker.Hdsk.Driver

/-!
# The thread as a machine

Every run of `HdskThread` is one of the machine: it stands where the thread is, is given what the disk answered, and is asked to stop where the thread first finds the flag set.
-/

namespace HddChecker.Hdsk

open HddChecker Apa Prog

/-- The machine has the variables of the thread. A request it knows of is seen when the thread looks next. -/
structure Mirrors (max : Nat) (d : Driver) (s : State) : Prop where
  status : d.hdskStatus = s.hdskStatus
  progress : d.hdskProgress = s.hdskProgress
  stop : d.hdskStopFlag = true → s.stop = some 0
  total : apaGetPartitionMax s.totalLBA = max

/-- A step of the thread, or a request to stop. -/
def OfThread : Driver.Action → Prop
  | .devctl cmd => cmd = .STOP
  | .work _ => True

/-- From `d₀` the machine comes to where `Q` holds, while the thread comes to the state `s`. -/
def Comes (max : Nat) (d₀ : Driver) (Q : Driver → Prop) (s : State) : Prop :=
  ∃ as d, (∀ a ∈ as, OfThread a) ∧ Driver.run max as d₀ = some d ∧ Q d ∧ Mirrors max d s

abbrev At (p : Place) (d : Driver) : Prop := d.thread = p

/-- The machine stands at `p`, and the flag is known. -/
structure Watched (p : Place) (flag : Bool) (d : Driver) : Prop where
  thread : d.thread = p
  flag : d.hdskStopFlag = flag

variable {α : Type} {max PartSize : Nat} {d d₀ : Driver} {p q : Place} {Q R : Driver → Prop} {s s' : State} {block : Bool}

theorem run_snoc {as : List Driver.Action} {d' : Driver} (a : Driver.Action) (hrun : Driver.run max as d₀ = some d)
    (hstep : d.step max a = some d') : Driver.run max (as ++ [a]) d₀ = some d' := by
  induction as generalizing d₀ with
  | nil =>
    cases hrun
    simp [Driver.run, hstep]
  | cons b as ih =>
    obtain ⟨e, hfirst, hrest⟩ := Option.bind_eq_some_iff.mp hrun
    exact Option.bind_eq_some_iff.mpr ⟨e, hfirst, ih hrest⟩

/-! ### Steps -/

theorem Comes.work (ans : Answer) (h : Comes max d₀ Q s)
    (hwork : ∀ d, Q d → Mirrors max d s → ∃ d', d.work max ans = some d' ∧ R d' ∧ Mirrors max d' s') :
    Comes max d₀ R s' := by
  obtain ⟨as, d, has, hrun, hd, hshown⟩ := h
  obtain ⟨d', hstep, hd', hshown'⟩ := hwork d hd hshown
  refine ⟨as ++ [.work ans], d', ?_, run_snoc (.work ans) hrun hstep, hd', hshown'⟩
  intro a ha
  rcases List.mem_append.mp ha with ha | ha
  · exact has a ha
  · cases List.mem_singleton.mp ha
    trivial

/-- A step that only leads on. -/
theorem Comes.goes (ans : Answer) (h : Comes max d₀ Q s)
    (hwork : ∀ d, Q d → d.work max ans = some { d with thread := q }) : Comes max d₀ (At q) s :=
  h.work ans fun d hd hshown => ⟨_, hwork d hd, rfl, hshown.status, hshown.progress, hshown.stop, hshown.total⟩

theorem Comes.mono (h : Comes max d₀ Q s) (hQ : ∀ d, Q d → R d) : Comes max d₀ R s := by
  obtain ⟨as, d, has, hrun, hd, hshown⟩ := h
  exact ⟨as, d, has, hrun, hQ d hd, hshown⟩

/-- The disk is not the machine's. -/
theorem Comes.dev (h : Comes max d₀ Q s) (dev : Device) : Comes max d₀ Q { s with dev := dev } := by
  obtain ⟨as, d, has, hrun, hd, hshown⟩ := h
  exact ⟨as, d, has, hrun, hd, hshown.status, hshown.progress, hshown.stop, hshown.total⟩

/-- The request comes just before the thread sees it. -/
theorem Comes.stopped (h : Comes max d₀ (At p) s) (hstop : s.stop = some 0) : Comes max d₀ (Watched p true) s := by
  obtain ⟨as, d, has, hrun, hd, hshown⟩ := h
  refine ⟨as ++ [.devctl .STOP], { d with hdskStopFlag := true, log := d.log ++ [.stop] }, ?_,
    run_snoc (.devctl .STOP) hrun rfl, ⟨hd, rfl⟩, hshown.status, hshown.progress, fun _ => hstop, hshown.total⟩
  intro a ha
  rcases List.mem_append.mp ha with ha | ha
  · exact has a ha
  · cases List.mem_singleton.mp ha
    rfl

theorem Comes.unstopped (h : Comes max d₀ (At p) s) (hstop : s.stop ≠ some 0) : Comes max d₀ (Watched p false) s := by
  obtain ⟨as, d, has, hrun, hd, hshown⟩ := h
  exact ⟨as, d, has, hrun, ⟨hd, Bool.eq_false_iff.mpr fun hflag => hstop (hshown.stop hflag)⟩, hshown⟩

/-- The thread looks at the flag. -/
theorem wlp_look {f : Bool → Prog State α} {P : α → State → Prop} (h : Comes max d₀ (At p) s)
    (htrue : Comes max d₀ (Watched p true) s → wlp (f true) s P)
    (hfalse : ∀ stop, Comes max d₀ (Watched p false) { s with stop := stop } → wlp (f false) { s with stop := stop } P) :
    wlp (hdskStopFlag >>= f) s P := by
  refine wlp_ofState_bind.mpr ?_
  cases hstop : s.stop with
  | none =>
    have hsame : { s with stop := none } = s := by rw [← hstop]
    exact hsame ▸ hfalse none (hsame.symm ▸ h.unstopped (by simp [hstop]))
  | some n =>
    cases n with
    | zero => exact htrue (h.stopped hstop)
    | succ n =>
      obtain ⟨as, d, has, hrun, hd, hshown⟩ := h.unstopped (by simp [hstop])
      have hclear : ¬ d.hdskStopFlag = true := by simp [hd.flag]
      exact hfalse _ ⟨as, d, has, hrun, hd, hshown.status, hshown.progress, fun h => absurd h hclear, hshown.total⟩

theorem wlp_past {β : Type} {I : State → Prop} {p : Prog State β} {f : β → Prog State α} {P : α → State → Prop}
    (hp : Preserves I p) (h : I s) (hf : ∀ a s', I s' → wlp (f a) s' P) : wlp (p >>= f) s P :=
  wlp_bind ((hp s h).mono fun a s' h' => hf a s' h')

theorem comes_devOp (f : Device → α × Device) : Preserves (Comes max d₀ Q) (devOp f) :=
  preserves_ofState fun _ h => h.dev _

theorem comes_devDo (f : Device → Device) : Preserves (Comes max d₀ Q) (devDo f) :=
  preserves_ofState fun _ h => h.dev _

theorem comes_headerOf (clink : Nat) : Preserves (Comes max d₀ Q) (headerOf clink) := preserves_read _

theorem comes_onDev (p : Prog Device α) : Preserves (Comes max d₀ Q) (onDev p) :=
  fun _ h => wlp_zoom fun _ dev _ => h.dev dev

/-! ### Searches -/

theorem comes_hdskIsPartitionOfSize (sector size : Nat) :
    Preserves (Comes max d₀ Q) (hdskIsPartitionOfSize sector size) := by
  refine (comes_devOp _).bind fun r => ?_
  split
  · exact preserves_pure _
  · exact (comes_headerOf _).bind fun _ => (comes_devDo _).bind fun _ => preserves_pure _

theorem comes_hdskGetPartitionPrev : Preserves (Comes max d₀ Q) hdskGetPartitionPrev := by
  refine (comes_devOp _).bind fun r => ?_
  split
  · exact preserves_pure _
  · exact (comes_devDo _).bind fun _ => (comes_headerOf _).bind fun _ => preserves_pure _

private theorem comes_isLastUsedPartition (header : ApaHeader) (size : Nat) (mode : Bool) :
    Preserves (Comes max d₀ Q) (isLastUsedPartition header size mode) := by
  have hother : ∀ sector, Preserves (Comes max d₀ Q) (hdskIsPartitionOfSize sector size) :=
    fun sector => comes_hdskIsPartitionOfSize sector size
  unfold isLastUsedPartition
  split
  · split
    · split
      · split
        · exact preserves_pure _
        · exact (hother _).bind fun _ => preserves_pure _
      · exact (hother _).bind fun _ => preserves_pure _
    · exact preserves_pure _
  · exact preserves_pure _

private theorem comes_blockLoop (MinSize next BlockSize : Nat) : Preserves (Comes max d₀ Q) (blockLoop MinSize next BlockSize) := by
  refine Preserves.loop (fun x => ?_) _
  dsimp only
  split
  · refine (comes_devOp _).bind fun r => ?_
    split
    · exact preserves_pure _
    · refine (comes_headerOf _).bind fun header => ?_
      split
      · exact preserves_pure _
      · exact (comes_devDo _).bind fun _ => preserves_pure _
  · exact preserves_pure _

private theorem comes_isLastUsedBlock (header : ApaHeader) (MinSize : Nat) (mode : Bool) :
    Preserves (Comes max d₀ Q) (isLastUsedBlock header MinSize mode) := by
  have hother : ∀ sector, Preserves (Comes max d₀ Q) (hdskIsPartitionOfSize sector MinSize) :=
    fun sector => comes_hdskIsPartitionOfSize sector MinSize
  unfold isLastUsedBlock
  split
  · split
    · refine (comes_blockLoop _ _ _).bind fun (next, BlockSize) => ?_
      dsimp only
      split
      · split
        · split
          · exact (hother _).bind fun _ => preserves_pure _
          split
          · exact (hother _).bind fun _ => preserves_pure _
          · exact preserves_pure _
        · exact preserves_pure _
      · exact preserves_pure _
    · exact preserves_pure _
  · exact preserves_pure _

/-- A search that has a header at hand, or none left. -/
def looking (header : Option Bool) : Answer := ⟨0, header, 0, false⟩

private theorem hdskFindEmptyPartition_comes (h : Comes max d₀ (At (.empty PartSize true)) s) :
    wlp (hdskFindEmptyPartition PartSize) s fun r s' =>
      Comes max d₀ (At (r.elim (.left PartSize) fun _ => .look PartSize (.partition true))) s' := by
  refine wlp_past (comes_devOp _) h fun first s h => ?_
  refine wlp_loop (fun _ s => ∃ mbr, Comes max d₀ (At (.empty PartSize mbr)) s) ?_ ⟨true, h⟩
  rintro clink s ⟨mbr, h⟩
  cases clink with
  | none => exact wlp_pure (h.goes (looking none) fun d hd => by simp [Driver.work, hd, looking])
  | some clink =>
    refine wlp_past (comes_headerOf clink) h fun header s h => ?_
    split
    · have h := h.goes (q := .passed PartSize) (looking (some false)) fun d hd => by simp [Driver.work, hd, looking]
      refine wlp_past (comes_devOp _) h fun next s h => ?_
      refine wlp_look h (fun h => ?_) fun stop h => ?_
      · have h := h.goes (q := .left PartSize) (looking none) fun d hd => by simp [Driver.work, hd.thread, hd.flag]
        cases next.toOption.join with
        | none => exact wlp_pure h
        | some clink => exact wlp_past (comes_devDo _) h fun _ s h => wlp_pure h
      · exact wlp_pure ⟨false, h.goes (looking none) fun d hd => by simp [Driver.work, hd.thread, hd.flag]⟩
    · exact wlp_pure (h.goes (looking (some true)) fun d hd => by simp [Driver.work, hd, looking])

/-- Where a search leads that finds nothing. -/
def Search.missed (PartSize : Nat) (search : Search) : Place :=
  (search.next PartSize).elim (.left PartSize) (.look PartSize)

theorem hdskFindLastUsedPartition_comes (start : Nat) (mode : Bool)
    (h : Comes max d₀ (At (.look PartSize (.partition mode))) s) :
    wlp (hdskFindLastUsedPartition PartSize start mode) s fun r s' =>
      Comes max d₀ (At (r.elim ((Search.partition mode).missed PartSize) fun _ => .move PartSize false)) s' := by
  refine wlp_past comes_hdskGetPartitionPrev h fun previous s h => ?_
  refine wlp_loop (fun _ s => Comes max d₀ (At (.look PartSize (.partition mode))) s) (fun previous s h => ?_) h
  split
  · refine wlp_past (comes_devOp _) h fun r s h => ?_
    split
    · exact wlp_pure (h.goes (looking none) fun d hd => by simp [Driver.work, hd, looking, Search.missed])
    · refine wlp_past (comes_headerOf _) h fun header s h => ?_
      refine wlp_past (comes_isLastUsedPartition _ _ _) h fun last s h => ?_
      split
      · exact wlp_pure (h.goes (looking (some true)) fun d hd => by simp [Driver.work, hd, looking, Search.chosen])
      · have h := h.goes (q := .looked PartSize (.partition mode)) (looking (some false)) fun d hd => by
          simp [Driver.work, hd, looking]
        refine wlp_past (comes_headerOf _) h fun header s h => wlp_past (comes_devDo _) h fun _ s h => ?_
        refine wlp_look h (fun h => ?_) fun stop h => ?_
        · exact wlp_pure (h.goes (looking none) fun d hd => by simp [Driver.work, hd.thread, hd.flag, Search.chosen])
        · exact wlp_pure (h.goes (looking none) fun d hd => by simp [Driver.work, hd.thread, hd.flag])
  · exact wlp_pure (h.goes (looking none) fun d hd => by simp [Driver.work, hd, looking, Search.missed])

private theorem hdskFindLastUsedBlock_comes (start : Nat) (mode : Bool)
    (h : Comes max d₀ (At (.look PartSize (.block mode))) s) :
    wlp (hdskFindLastUsedBlock PartSize start mode) s fun r s' =>
      Comes max d₀ (At (r.elim ((Search.block mode).missed PartSize) fun _ => .split PartSize)) s' := by
  refine wlp_past comes_hdskGetPartitionPrev h fun previous s h => ?_
  split
  · refine wlp_loop (fun _ s => Comes max d₀ (At (.look PartSize (.block mode))) s) (fun previous s h => ?_) h
    split
    · refine wlp_past (comes_devOp _) h fun r s h => ?_
      split
      · exact wlp_pure (h.goes (looking none) fun d hd => by simp [Driver.work, hd, looking, Search.missed])
      · refine wlp_past (comes_headerOf _) h fun header s h => ?_
        refine wlp_past (comes_isLastUsedBlock _ _ _) h fun last s h => ?_
        split
        · exact wlp_pure (h.goes (looking (some true)) fun d hd => by simp [Driver.work, hd, looking, Search.chosen])
        · have h := h.goes (q := .looked PartSize (.block mode)) (looking (some false)) fun d hd => by
            simp [Driver.work, hd, looking]
          refine wlp_past (comes_headerOf _) h fun header s h => wlp_past (comes_devDo _) h fun _ s h => ?_
          refine wlp_look h (fun h => ?_) fun stop h => ?_
          · exact wlp_pure (h.goes (looking none) fun d hd => by simp [Driver.work, hd.thread, hd.flag, Search.chosen])
          · exact wlp_pure (h.goes (looking none) fun d hd => by simp [Driver.work, hd.thread, hd.flag])
    · exact wlp_pure (h.goes (looking none) fun d hd => by simp [Driver.work, hd, looking, Search.missed])
  · exact wlp_pure (h.goes (looking none) fun d hd => by simp [Driver.work, hd, looking, Search.missed])

theorem findBlock_comes (start : Nat) (mode : Bool)
    (h : Comes max d₀ (At ((Search.partition mode).missed PartSize)) s) :
    wlp (findBlock PartSize start mode) s fun r s' =>
      Comes max d₀ (At (r.elim ((Search.block mode).missed PartSize) fun _ => .split PartSize)) s' := by
  unfold findBlock
  simp only [Search.missed, Search.next] at h
  split
  · rename_i hsize
    rw [if_pos hsize] at h
    exact hdskFindLastUsedBlock_comes start mode h
  · rename_i hsize
    rw [if_neg hsize] at h
    cases mode with
    | true => exact wlp_pure h
    | false => exact wlp_pure h

/-- Where the thread does what a round has chosen. -/
def Choice.place (PartSize : Nat) : Choice → Place
  | .nothing => .left PartSize
  | .partition _ _ => .move PartSize false
  | .block _ _ => .split PartSize

private theorem choose_comes (clink : Nat) (h : Comes max d₀ (At (.look PartSize (.partition true))) s) :
    wlp (choose PartSize clink) s fun c s' => Comes max d₀ (At (c.place PartSize)) s' := by
  refine wlp_past (comes_headerOf _) h fun header s h => ?_
  refine wlp_bind ((hdskFindLastUsedPartition_comes _ true h).mono fun r s h => ?_)
  cases r with
  | some clink2 => exact wlp_pure h
  | none =>
    refine wlp_bind ((findBlock_comes _ true h).mono fun r s h => ?_)
    cases r with
    | some clink2 => exact wlp_pure h
    | none =>
      refine wlp_bind ((hdskFindLastUsedPartition_comes _ false h).mono fun r s h => ?_)
      cases r with
      | some clink2 => exact wlp_pure h
      | none =>
        refine wlp_bind ((findBlock_comes _ false h).mono fun r s h => ?_)
        cases r with
        | some clink2 => exact wlp_pure h
        | none => exact wlp_pure h

/-! ### Moves -/

/-- A step that succeeds, or does not. -/
def answered (result : Int) : Answer := ⟨result, none, 0, false⟩

/-- The copy from a chunk on; behind the first one the flag is looked at after each. -/
private theorem copyBlocks_comes (dest start : Nat) {n i blocks : Nat} (hi : i ≠ 0) (hn : i + n = blocks)
    (h : Comes max d₀ (At (if n = 0 then .copied PartSize block else .read PartSize block blocks i)) s) :
    wlp (copyBlocks dest start n i) s fun r s' =>
      Comes max d₀ (At (if r = 0 then .copied PartSize block else .result PartSize block r)) s' := by
  induction n generalizing i s with
  | zero => exact wlp_pure h
  | succ n ih =>
    rw [if_neg (Nat.succ_ne_zero n)] at h
    unfold copyBlocks
    refine wlp_read_bind.mpr ?_
    split
    · refine wlp_pure (h.work (answered (- EIO)) fun d hd hshown => ⟨_, by simp [Driver.work, hd, answered]; rfl, ?_⟩)
      exact ⟨rfl, hshown.status, hshown.progress, hshown.stop, hshown.total⟩
    · have h : Comes max d₀ (At (.write PartSize block blocks i)) s :=
        h.work (answered 0) fun d hd hshown => ⟨{ d with
          thread := .write PartSize block blocks i, log := d.log ++ [.chunk] }, by simp [Driver.work, hd, answered],
          rfl, hshown.status, hshown.progress, hshown.stop, hshown.total⟩
      refine wlp_past (comes_devOp _) h fun result s h => ?_
      split
      · rename_i hresult
        exact wlp_pure (h.goes (answered result) fun d hd => by simp [Driver.work, hd, answered, hresult, EIO])
      · refine wlp_modify_bind.mpr ?_
        have h : Comes max d₀ (At (.tested PartSize block blocks i))
            { s with hdskProgress := u32 (s.hdskProgress + IOBUFFER_SIZE_SECTORS) } :=
          h.work (answered 0) fun d hd hshown => ⟨{ d with
            hdskProgress := u32 (d.hdskProgress + IOBUFFER_SIZE_SECTORS)
            thread := .tested PartSize block blocks i }, by simp [Driver.work, hd, answered, hi],
            rfl, hshown.status, by rw [hshown.progress], hshown.stop, hshown.total⟩
        refine wlp_look h (fun h => ?_) fun stop h => ?_
        · exact wlp_pure (h.goes (looking none) fun d hd => by simp [Driver.work, hd.thread, hd.flag])
        · refine ih (Nat.succ_ne_zero i) (by omega) (h.goes (looking none) fun d hd => ?_)
          by_cases hlast : n = 0
          · simp [Driver.work, hd.thread, hd.flag, hlast, show ¬ i + 1 < blocks by omega]
          · simp [Driver.work, hd.thread, hd.flag, hlast, show i + 1 < blocks by omega]

private theorem CopyPartition_comes (dest start : ApaHeader)
    (h : Comes max d₀ (At (.read PartSize block (dest.length / IOBUFFER_SIZE_SECTORS) 0)) s) :
    wlp (CopyPartition dest start) s fun r s' =>
      Comes max d₀ (At (if r = 0 then .copied PartSize block else .result PartSize block r)) s' := by
  unfold CopyPartition
  generalize dest.length / IOBUFFER_SIZE_SECTORS = blocks at h
  refine wlp_read_bind.mpr ?_
  split
  · refine wlp_pure (h.work (answered (- EIO)) fun d hd hshown => ⟨_, by simp [Driver.work, hd, answered]; rfl, ?_⟩)
    exact ⟨rfl, hshown.status, hshown.progress, hshown.stop, hshown.total⟩
  · have h : Comes max d₀ (At (.write PartSize block blocks 0)) s :=
      h.work (answered 0) fun d hd hshown => ⟨{ d with
        thread := .write PartSize block blocks 0, log := d.log ++ [.chunk] }, by simp [Driver.work, hd, answered],
        rfl, hshown.status, hshown.progress, hshown.stop, hshown.total⟩
    refine wlp_past (comes_devOp _) h fun result s h => ?_
    split
    · rename_i hresult
      exact wlp_pure (h.goes (answered result) fun d hd => by simp [Driver.work, hd, answered, hresult, EIO])
    · refine wlp_modify_bind.mpr ?_
      have h : Comes max d₀ (At (if 1 < blocks then .read PartSize block blocks 1 else .copied PartSize block))
          { s with hdskProgress := u32 (s.hdskProgress + IOBUFFER_SIZE_SECTORS) } :=
        h.work (answered 0) fun d hd hshown => ⟨{ d with
          hdskProgress := u32 (d.hdskProgress + IOBUFFER_SIZE_SECTORS)
          thread := if 1 < blocks then .read PartSize block blocks 1 else .copied PartSize block },
          by simp [Driver.work, hd, answered], rfl, hshown.status, by rw [hshown.progress], hshown.stop, hshown.total⟩
      by_cases hmore : 1 < blocks
      · rw [if_pos hmore] at h
        refine copyBlocks_comes _ _ one_ne_zero (show 1 + (blocks - 1) = blocks by omega) ?_
        rwa [if_neg (show blocks - 1 ≠ 0 by omega)]
      · rw [if_neg hmore] at h
        rw [show blocks - 1 = 0 by omega]
        exact wlp_pure h

private theorem comes_getSubs (dest n i : Nat) (clinks : List Nat) : Preserves (Comes max d₀ Q) (getSubs dest n i clinks) := by
  induction n generalizing i clinks with
  | zero => exact preserves_pure _
  | succ n ih =>
    refine (comes_headerOf _).bind fun header => (comes_devOp _).bind fun r => ?_
    split
    · exact (comes_devDo _).bind fun _ => preserves_pure _
    · exact ih _ _

theorem comes_finishSwap (dest start : Nat) (clinks : List Nat) :
    Preserves (Comes max d₀ Q) (finishSwap dest start clinks) :=
  (comes_devDo _).bind fun _ => (comes_devDo _).bind fun _ => (comes_devOp _).bind fun _ => comes_devDo _

private theorem comes_SwapPartition (dest start : Nat) : Preserves (Comes max d₀ Q) (SwapPartition dest start) := by
  have hend : ∀ {p : Prog State Unit} (clinks : List Nat), Preserves (Comes max d₀ Q) p →
      Preserves (Comes max d₀ Q) do
        p
        finishSwap dest start clinks
        return true :=
    fun clinks hp => hp.bind fun _ => (comes_finishSwap _ _ _).bind fun _ => preserves_pure _
  refine (comes_headerOf _).bind fun old => (comes_headerOf _).bind fun source => ?_
  refine (comes_devDo _).bind fun _ => (comes_devDo _).bind fun _ => (comes_headerOf _).bind fun header => ?_
  split
  · refine (comes_devOp _).bind fun r => ?_
    split
    · exact preserves_pure _
    · refine (comes_headerOf _).bind fun main => ?_
      split
      · exact (comes_devDo _).bind fun _ => preserves_pure _
      · refine (comes_devDo _).bind fun _ => (comes_devDo _).bind fun _ => ?_
        split
        · exact hend _ (comes_devDo _)
        · exact (comes_finishSwap _ _ _).bind fun _ => preserves_pure _
  · refine (comes_getSubs _ _ _ _).bind fun r => ?_
    split
    · exact preserves_pure _
    · refine (comes_devDo _).bind fun _ => ?_
      split
      · exact hend _ (comes_devDo _)
      · exact (comes_finishSwap _ _ _).bind fun _ => preserves_pure _

theorem MovePartition_comes (dest start : Nat) (h : Comes max d₀ (At (.move PartSize block)) s) :
    wlp (MovePartition dest start) s fun r s' => Comes max d₀ (At (.result PartSize block r)) s' := by
  have hfails : ∀ {s : State} (result : Int), result ≠ 0 → Comes max d₀ (At (.move PartSize block)) s →
      Comes max d₀ (At (.result PartSize block result)) s := fun result hresult h =>
    h.goes (answered result) fun d hd => by simp [Driver.work, hd, answered, hresult]
  refine wlp_past (comes_headerOf _) h fun hdest s h => wlp_past (comes_headerOf _) h fun hstart s h => ?_
  split
  · exact wlp_pure (hfails _ (by decide) h)
  split
  · exact wlp_pure (hfails _ (by decide) h)
  refine wlp_past (comes_onDev _) h fun result s h => ?_
  split
  · rename_i hresult
    exact wlp_pure (hfails _ hresult h)
  refine wlp_past (comes_headerOf _) h fun hdest s h => wlp_past (comes_headerOf _) h fun hstart s h => ?_
  have h : Comes max d₀ (At (.read PartSize block (hdest.length / IOBUFFER_SIZE_SECTORS) 0)) s :=
    h.work ⟨0, none, hdest.length / IOBUFFER_SIZE_SECTORS, false⟩ fun d hd hshown => ⟨{ d with
      thread := .read PartSize block (hdest.length / IOBUFFER_SIZE_SECTORS) 0, log := d.log ++ [.copy] },
      by simp [Driver.work, hd], rfl, hshown.status, hshown.progress, hshown.stop, hshown.total⟩
  refine wlp_bind ((CopyPartition_comes _ _ h).mono fun result s h => ?_)
  split
  · rename_i hresult
    rw [if_neg hresult] at h
    exact wlp_pure h
  · rename_i hresult
    rw [if_pos (not_not.mp hresult)] at h
    refine wlp_look h (fun h => ?_) fun stop h => ?_
    · exact wlp_pure (h.goes (looking none) fun d hd => by simp [Driver.work, hd.thread, hd.flag])
    · have h := h.goes (q := .swap PartSize block) (looking none) fun d hd => by simp [Driver.work, hd.thread, hd.flag]
      refine wlp_past (comes_SwapPartition _ _) h fun _ s h => ?_
      exact wlp_pure (h.goes (looking none) fun d hd => by simp [Driver.work, hd])

private theorem comes_SplitEmptyPartition (partition length : Nat) :
    Preserves (Comes max d₀ Q) (SplitEmptyPartition partition length) := by
  refine (preserves_read _).bind fun result => Preserves.loop (fun result => ?_) _
  refine (comes_headerOf _).bind fun header => ?_
  split
  · exact preserves_pure _
  · refine (comes_devOp _).bind fun r => ?_
    split
    · exact preserves_pure _
    · refine (comes_devDo _).bind fun _ => (comes_headerOf _).bind fun header => (comes_devDo _).bind fun _ => ?_
      refine (comes_headerOf _).bind fun start => (comes_devDo _).bind fun _ => (comes_devDo _).bind fun _ => ?_
      refine (comes_devDo _).bind fun _ => (comes_devDo _).bind fun _ => (comes_devOp _).bind fun _ => ?_
      exact (comes_devDo _).bind fun _ => (comes_devDo _).bind fun _ => preserves_pure _

/-- A block is moved one partition after the other; behind the last one the machine may go back to its rounds. -/
private theorem MovePartitionsBlock_comes (dest start : Nat) (h : Comes max d₀ (At (.split PartSize)) s) :
    wlp (MovePartitionsBlock dest start) s fun r s' =>
      Comes max d₀ (At (if r = 0 then .next PartSize else .result PartSize true r)) s' := by
  refine wlp_past (comes_headerOf _) h fun header s h => wlp_bind (wlp.mono (Q := fun x s' =>
    Comes max d₀ (At (if x.1 = 0 then .next PartSize else .result PartSize true x.1)) s') ?_ ?_)
  · refine wlp_loop (fun _ s => Comes max d₀ (At (.split PartSize)) s) (fun x s h => ?_) h
    dsimp only
    refine wlp_past (comes_headerOf _) h fun hstart s h => wlp_past (comes_SplitEmptyPartition _ _) h fun result s h => ?_
    have hfails : ∀ {s : State} (result : Int) (dest start : Option Nat), result ≠ 0 →
        Comes max d₀ (At (.result PartSize true result)) s →
        Comes max d₀ (At (if (result, dest, start).1 = 0 then .next PartSize else .result PartSize true result)) s :=
      fun _ _ _ hresult h => by rwa [if_neg hresult]
    split
    · rename_i hresult
      exact wlp_pure (hfails result _ _ hresult (h.goes (answered result) fun d hd => by
        simp [Driver.work, hd, answered, hresult]))
    have h := h.goes (q := .move PartSize true) (answered 0) fun d hd => by simp [Driver.work, hd, answered]
    refine wlp_bind ((MovePartition_comes _ _ h).mono fun result s h => ?_)
    split
    · rename_i hresult
      exact wlp_pure (hfails result _ _ hresult h)
    rename_i hresult
    rw [not_not.mp hresult] at h
    have h := h.goes (q := .next PartSize) (answered 0) fun d hd => by simp [Driver.work, hd]
    have hends : ∀ {Q : Driver → Prop} {s : State} (dest start : Option Nat), Comes max d₀ Q s → (∀ d, Q d → At (.next PartSize) d) →
        Comes max d₀ (At (if ((0 : Int), dest, start).1 = 0 then .next PartSize else .result PartSize true 0)) s :=
      fun _ _ h hQ => h.mono hQ
    refine wlp_past (comes_headerOf _) h fun hdest s h => wlp_look h (fun h => ?_) fun stop h => ?_
    · exact wlp_pure (hends _ _ h fun d hd => hd.thread)
    split
    · exact wlp_pure (hends _ _ h fun d hd => hd.thread)
    refine wlp_past (comes_devOp _) h fun r s h => ?_
    split
    · exact wlp_pure (hends _ _ h fun d hd => hd.thread)
    refine wlp_past (comes_devOp _) h fun r s h => ?_
    split
    · exact wlp_pure (hends _ _ h fun d hd => hd.thread)
    · exact wlp_pure (h.goes ⟨0, none, 0, true⟩ fun d hd => by simp [Driver.work, hd.thread, hd.flag])
  · rintro ⟨result, dest, start⟩ s h
    exact wlp_past (comes_devDo _) h fun _ s h => wlp_past (comes_devDo _) h fun _ s h => wlp_pure h

/-! ### The thread -/

theorem wlp_status {status : Int} {f : Unit → Prog State α} {P : α → State → Prop} (ans : Answer)
    (h : Comes max d₀ Q s) (hwork : ∀ d, Q d → d.work max ans = some { d with hdskStatus := status, thread := q })
    (hf : ∀ s', s'.hdskStatus = status → Comes max d₀ (At q) s' → wlp (f ()) s' P) : wlp (setStatus status >>= f) s P :=
  wlp_modify_bind.mpr (hf _ rfl (h.work ans fun d hd hshown =>
    ⟨_, hwork d hd, rfl, rfl, hshown.progress, hshown.stop, hshown.total⟩))

/-- Where a round of the thread ends. -/
def Exit.place (PartSize : Nat) : Unit ⊕ Exit → Place
  | .inl () => .round PartSize
  | .inr .leave => .left PartSize
  | .inr .finish => .cleanup

private theorem threadRound_comes (h : Comes max d₀ (At (.round PartSize)) s) :
    wlp (threadRound PartSize) s fun r s' => Comes max d₀ (At (Exit.place PartSize r)) s' := by
  refine wlp_past (comes_onDev _) h fun status s h => ?_
  refine wlp_status (q := if 0 ≤ status then .empty PartSize true else .left PartSize) (answered status) h
    (fun d hd => by unfold Driver.work; rw [show d.thread = _ from hd]; rfl) fun s _ h => ?_
  split
  · rename_i hstatus
    rw [if_pos hstatus] at h
    refine wlp_bind ((hdskFindEmptyPartition_comes h).mono fun r s h => ?_)
    cases r with
    | none => exact wlp_pure h
    | some clink =>
      refine wlp_bind ((choose_comes clink h).mono fun c s h => ?_)
      cases c with
      | nothing => exact wlp_past (comes_devDo _) h fun _ s h => wlp_pure h
      | block clink clink2 =>
        refine wlp_bind ((MovePartitionsBlock_comes _ _ h).mono fun status s h => ?_)
        by_cases hstatus : status = 0
        · rw [if_pos hstatus] at h
          refine wlp_status (q := .round PartSize) (answered 0) h
            (fun d hd => by simp [Driver.work, hd, answered, hstatus]) fun s _ h => ?_
          rw [if_neg (not_not.mpr hstatus)]
          exact wlp_past (comes_devDo _) h fun _ s h => wlp_pure h
        · rw [if_neg hstatus] at h
          refine wlp_status (q := .cleanup) (answered 0) h
            (fun d hd => by simp [Driver.work, hd, hstatus]) fun s _ h => ?_
          rw [if_pos hstatus]
          exact wlp_pure h
      | partition clink clink2 =>
        refine wlp_bind ((MovePartition_comes _ _ h).mono fun status s h => ?_)
        refine wlp_status (q := if status = 0 then .round PartSize else .cleanup) (answered 0) h ?_ fun s _ h => ?_
        · intro d hd
          by_cases hstatus : status = 0
          · simp [Driver.work, hd, hstatus]
          · simp [Driver.work, hd, hstatus]
        refine wlp_past (comes_devDo _) h fun _ s h => wlp_past (comes_devDo _) h fun _ s h => ?_
        split
        · rename_i hstatus
          rw [if_neg hstatus] at h
          exact wlp_pure h
        · rename_i hstatus
          rw [if_pos (not_not.mp hstatus)] at h
          exact wlp_pure h
  · rename_i hstatus
    rw [if_neg hstatus] at h
    exact wlp_pure h

private theorem threadLoop_comes (h : Comes max d₀ (At (.size PartSize)) s) :
    wlp (threadLoop PartSize) s fun _ s' => Comes max d₀ (At .cleanup) s' := by
  refine wlp_loop (fun PartSize s => Comes max d₀ (At (.size PartSize)) s) (fun PartSize s h => ?_) h
  refine wlp_read_bind.mpr ?_
  have htotal : apaGetPartitionMax s.totalLBA = max := by
    obtain ⟨_, _, _, _, _, hshown⟩ := h
    exact hshown.total
  rw [htotal]
  split
  · rename_i hsize
    have h := h.goes (q := .round PartSize) (looking none) fun d hd => by simp [Driver.work, hd, hsize]
    refine wlp_bind (wlp.mono (Q := fun e s' => Comes max d₀ (At (Exit.place PartSize (.inr e))) s') ?_ ?_)
    · refine wlp_loop (fun _ s => Comes max d₀ (At (.round PartSize)) s) (fun _ s h => ?_) h
      refine (threadRound_comes h).mono fun r s h => ?_
      cases r with
      | inl => exact h
      | inr e => exact h
    · intro e s h
      cases e with
      | finish => exact wlp_pure h
      | leave =>
        have h : Comes max d₀ (At (.left PartSize)) s := h
        refine wlp_read_bind.mpr ?_
        split
        · rename_i hstatus
          refine wlp_pure (h.work (looking none) fun d hd hshown => ⟨{ d with thread := .cleanup }, ?_, rfl,
            hshown.status, hshown.progress, hshown.stop, hshown.total⟩)
          rw [← hshown.status] at hstatus
          have hd : d.thread = .left PartSize := hd
          simp [Driver.work, hd, hstatus]
        · rename_i hstatus
          refine wlp_look h (fun h => ?_) fun stop h => ?_
          · exact wlp_pure (h.goes (looking none) fun d hd => by simp [Driver.work, hd.thread, hd.flag])
          · refine wlp_pure (h.work (looking none) fun d hd hshown => ⟨{ d with thread := .size (u32 (PartSize * 2)) }, ?_,
              rfl, hshown.status, hshown.progress, hshown.stop, hshown.total⟩)
            have hzero : d.hdskStatus = 0 := hshown.status.trans (not_not.mp hstatus)
            simp [Driver.work, hd.thread, hd.flag, hzero]
  · rename_i hsize
    exact wlp_pure (h.goes (looking none) fun d hd => by simp [Driver.work, hd, hsize])

theorem cleanup_comes (h : Comes max d₀ (At .cleanup) s) :
    wlp (do let _ ← onDev hdskRemoveTmp) s fun _ s' => Comes max d₀ (At .signal) s' :=
  wlp_past (comes_onDev _) h fun _ s h => wlp_pure (h.goes (looking none) fun d hd => by simp [Driver.work, hd])

/-- Every run of `HdskThread` is one of the machine. -/
private theorem HdskThread_comes (hd : d₀.thread = .clearProgress) :
    wlp HdskThread s fun _ s' => Comes (apaGetPartitionMax s.totalLBA) d₀ (At .signal) s' := by
  refine wlp_modify_bind.mpr ?_
  have h : Comes (apaGetPartitionMax s.totalLBA) d₀ (At .first) { s with hdskProgress := 0, hdskStatus := 0 } := by
    refine ⟨[.work (looking none), .work (looking none), .work (looking none)], { d₀ with
      hdskProgress := 0, hdskStatus := 0, hdskStopFlag := false, thread := .first }, ?_, ?_, rfl, rfl, rfl, nofun, rfl⟩
    · simp [OfThread]
    · simp [Driver.run, Driver.step, Driver.work, hd]
  refine wlp_past (comes_onDev _) h fun status s h => ?_
  refine wlp_status (q := if 0 ≤ status then .size HDSK_MIN_PART_SIZE else .cleanup) (answered status) h
    (fun d hd => by unfold Driver.work; rw [show d.thread = _ from hd]; rfl) fun s _ h => ?_
  split
  · rename_i hstatus
    rw [if_pos hstatus] at h
    exact wlp_bind ((threadLoop_comes h).mono fun _ s h => cleanup_comes h)
  · rename_i hstatus
    rw [if_neg hstatus] at h
    exact cleanup_comes h

/-- What the requests show at the end of a run of `HdskThread` is what they show of the machine. -/
theorem HdskThread_run (hd : d₀.thread = .clearProgress) (hrun : Runs HdskThread s () s') :
    ∃ as d, (∀ a ∈ as, OfThread a) ∧ Driver.run (apaGetPartitionMax s.totalLBA) as d₀ = some d ∧ d.thread = .signal ∧
      d.hdskStatus = s'.hdskStatus ∧ d.hdskProgress = s'.hdskProgress := by
  obtain ⟨as, d, has, hrun, hthread, hshown⟩ := HdskThread_comes hd () s' hrun
  exact ⟨as, d, has, hrun, hthread, hshown.status, hshown.progress⟩

end HddChecker.Hdsk
