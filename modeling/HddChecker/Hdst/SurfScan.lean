import HddChecker.Ui.Menu

/-!
# The surface scan

`SurfScanDisk` verifies a disk from its first sector on. Where a sector cannot be verified it asks the user what to do, and it fills the sector with zeros or goes on behind it. A session is a list of rounds, each of them what the disk answers and what the user presses in one pass of the loop; the log tells which sectors were asked about and which were overwritten.
-/

namespace HddChecker.Hdst

open Ui

/-- `enum BAD_SECTOR_HANDLING_MODES` -/
inductive BadSectorHandlingModes where
  | prompt
  | remap
  | skip
  | remapAll
  | skipAll
  deriving DecidableEq, Repr

inductive Event where
  | asked (lba : Nat) (exit : MenuExit)
  | patched (lba : Nat)
  deriving DecidableEq, Repr

/-- The message box of `GetBadSectorAction`. -/
def badSectorBox : List UIMenuItem :=
  messageBox (some .remap) (some .remapAll) (some .skip) (some .skipAll)

/-- The mode `GetBadSectorAction` makes of the result of its message box. -/
def badSectorMode (result : Nat) : BadSectorHandlingModes :=
  match result with
  | 4 => .skip
  | 3 => .remapAll
  | 2 => .skipAll
  | _ => .remap

/-- `GetBadSectorAction`: how the user leaves the message box, and the mode. -/
def GetBadSectorAction (frames : List PadFrame) : Option (MenuExit × BadSectorHandlingModes) :=
  (ShowMessageBox (some .remap) (some .remapAll) (some .skip) (some .skipAll) frames).map fun exit =>
    (exit, badSectorMode (messageBoxResult exit.result))

/-- The block mode of `fileXio`, which `fileXioSetBlockMode` sets. It is `FXIO_WAIT` at first. -/
inductive BlockMode where
  | FXIO_WAIT
  | FXIO_NOWAIT
  deriving DecidableEq, Repr

/-- `fileXioDevctl`, to which the device answers this. In the mode `FXIO_NOWAIT` it returns once the request is sent. -/
def fileXioDevctl (mode : BlockMode) (answer : Int) : Int :=
  match mode with
  | .FXIO_WAIT => answer
  | .FXIO_NOWAIT => 0

/-- The variables of `SurfScanDisk`, the block mode and the log of the session. -/
structure Scan where
  lba : Nat
  SectorsRemaining : Nat
  NumBadSectors : Nat
  IsRetryCycle : Bool
  BadSectorHandlingMode : BadSectorHandlingModes
  blockMode : BlockMode
  log : List Event

/-- What the user and the disk do in one pass of the loop. -/
structure Round where
  /-- the cancel button is pressed while the scan runs -/
  cancel : Bool
  /-- the input to the question whether to abort -/
  abort : List PadFrame
  /-- the answer to `HDST_DEVCTL_DEVICE_VERIFY_SECTORS` -/
  verify : Int
  /-- the input to the message box of a bad sector -/
  action : List PadFrame
  /-- the answer to `HDST_DEVCTL_DEVICE_ERASE_SECTORS` -/
  patch : Int
  /-- the input to the message of a failed patch -/
  failed : List PadFrame

/-- A value as it fits a `u32`. -/
abbrev u32 (n : Nat) : Nat := n % 2 ^ 32

namespace Scan

/-- The scan goes on behind the sector. -/
def pass (s : Scan) : Scan :=
  { s with lba := u32 (s.lba + 1), SectorsRemaining := u32 (s.SectorsRemaining + 2 ^ 32 - 1) }

def fileXioSetBlockMode (mode : BlockMode) (s : Scan) : Scan := { s with blockMode := mode }

/-- The sector is overwritten through `PatchSector`. -/
def overwrite (r : Round) (s : Scan) : Scan ⊕ Scan :=
  let s := { s.fileXioSetBlockMode .FXIO_WAIT with log := s.log ++ [.patched s.lba] }
  if fileXioDevctl s.blockMode r.patch ≠ 0 then
    match DisplayPromptMessage .ok .abort r.failed with
    | none => .inr s
    | some exit =>
      if messageBoxResult exit.result = 2 then .inr s else .inl (s.pass.fileXioSetBlockMode .FXIO_NOWAIT)
  else .inl ({ s with IsRetryCycle := true }.fileXioSetBlockMode .FXIO_NOWAIT)

/-- The `switch` over the mode. -/
def handle (r : Round) (s : Scan) : Scan ⊕ Scan :=
  match s.BadSectorHandlingMode with
  | .remap => overwrite r { s with BadSectorHandlingMode := .prompt }
  | .remapAll => overwrite r s
  | .skip => .inl { s with BadSectorHandlingMode := .prompt }.pass
  | .skipAll => .inl s.pass
  | .prompt => .inl s

/-- A sector could not be verified. -/
def badSector (r : Round) (s : Scan) : Scan ⊕ Scan :=
  if s.BadSectorHandlingMode = .prompt then
    match GetBadSectorAction r.action with
    | none => .inr s
    | some (exit, mode) =>
      handle r { s with BadSectorHandlingMode := mode, log := s.log ++ [.asked s.lba exit] }
  else handle r s

/-- The transfer of a pass and what follows. -/
def verify (r : Round) (s : Scan) : Scan ⊕ Scan :=
  let result := fileXioDevctl s.blockMode r.verify
  if result ≠ 0 then
    let s := if s.IsRetryCycle then s else { s with NumBadSectors := u32 (s.NumBadSectors + 1) }
    if 0 < result then
      let result := (result - 1).toNat
      badSector r { s with
        lba := u32 (s.lba + result)
        SectorsRemaining := u32 (s.SectorsRemaining + 2 ^ 32 - u32 result) }
    else .inr s
  else
    let NumSectors := min s.SectorsRemaining 65536
    .inl { s with
      lba := u32 (s.lba + NumSectors)
      SectorsRemaining := s.SectorsRemaining - NumSectors
      IsRetryCycle := false }

/-- One pass of the loop of `SurfScanDisk`: the scan goes on, or it has ended or waits for the user. -/
def round (r : Round) (s : Scan) : Scan ⊕ Scan :=
  if r.cancel then
    match DisplayPromptMessage .no .yes r.abort with
    | none => .inr s
    | some exit => if messageBoxResult exit.result = 2 then .inr s else verify r s
  else verify r s

end Scan

/-- The loop of `SurfScanDisk` as far as the rounds of the session go. -/
def scanLoop : List Round → Scan → Scan
  | [], s => s
  | r :: rounds, s =>
    if s.SectorsRemaining = 0 then s
    else
      match s.round r with
      | .inl s => scanLoop rounds s
      | .inr s => s

/-- `SurfScanDisk` of a disk with `TotalSectors` sectors. -/
def SurfScanDisk (TotalSectors : Nat) (rounds : List Round) : Scan :=
  scanLoop rounds ⟨0, TotalSectors, 0, false, .prompt, .FXIO_WAIT, []⟩

/-! ### What the user decides -/

/-- The user leaves the message box of a bad sector in this way. -/
def Leaves (exit : MenuExit) : Prop :=
  exit = .cancel ∨ ∃ item ∈ badSectorBox, item.type = .button ∧ exit = .select item

/-- The mode that follows from an answer. -/
def answer (exit : MenuExit) : BadSectorHandlingModes := badSectorMode (messageBoxResult exit.result)

/-- The button labelled so was pressed. -/
def Presses (label : Label) (exit : MenuExit) : Prop :=
  ∃ item, exit = .select item ∧ item.label = some label

/-- The user asked for the sector to be left as it is. -/
def Refuses (exit : MenuExit) : Prop := exit = .cancel ∨ Presses .skip exit ∨ Presses .skipAll exit

/-- The user wanted the sector at `lba` to be overwritten, or all of them. -/
def Authorized (log : List Event) (lba : Nat) : Prop :=
  (∃ exit, .asked lba exit ∈ log ∧ Presses .remap exit) ∨
    ∃ l exit, .asked l exit ∈ log ∧ Presses .remapAll exit

/-- The answer to the last question of the log. -/
def lastAnswer (log : List Event) : Option MenuExit :=
  log.foldl (fun last event =>
    match event with
    | .asked _ exit => some exit
    | .patched _ => last) none

/-- Whatever was overwritten, the user wanted it, and it was not what followed on a refusal. -/
structure Willed (log : List Event) : Prop where
  authorized : ∀ A lba B, log = A ++ .patched lba :: B → Authorized A lba
  unrefused : ∀ A lba B, log = A ++ .patched lba :: B →
    ∀ exit, lastAnswer A = some exit → ¬ Refuses exit

/-- The logs of the sessions that stand at the head of the loop in a mode. -/
inductive Session : BadSectorHandlingModes → List Event → Prop
  | start : Session .prompt []
  | skip (h : Session .prompt log) (hleaves : Leaves exit) (hmode : answer exit = .skip) :
      Session .prompt (log ++ [.asked lba exit])
  | skipAll (h : Session .prompt log) (hleaves : Leaves exit) (hmode : answer exit = .skipAll) :
      Session .skipAll (log ++ [.asked lba exit])
  | remap (h : Session .prompt log) (hleaves : Leaves exit) (hmode : answer exit = .remap) :
      Session .prompt (log ++ [.asked lba exit] ++ [.patched lba])
  | remapAll (h : Session .prompt log) (hleaves : Leaves exit) (hmode : answer exit = .remapAll) :
      Session .remapAll (log ++ [.asked lba exit] ++ [.patched lba])
  | again (h : Session .remapAll log) : Session .remapAll (log ++ [.patched lba])

variable {log A B : List Event} {lba l : Nat} {exit : MenuExit} {mode : BadSectorHandlingModes}

theorem leaves_of_getBadSectorAction {frames : List PadFrame}
    (h : GetBadSectorAction frames = some (exit, mode)) : Leaves exit ∧ mode = answer exit := by
  obtain ⟨e, he, heq⟩ := Option.map_eq_some_iff.mp h
  obtain ⟨rfl, rfl⟩ := Prod.mk.inj heq
  refine ⟨?_, rfl⟩
  cases e with
  | cancel => exact .inl rfl
  | select item =>
    obtain ⟨hmem, hbutton⟩ := menuLoop_select he
    exact .inr ⟨item, hmem, hbutton, rfl⟩

theorem answer_select {item : UIMenuItem} (hmem : item ∈ badSectorBox) (hbutton : item.type = .button) :
    item.label = some .remap ∧ answer (.select item) = .remap ∨
    item.label = some .remapAll ∧ answer (.select item) = .skipAll ∨
    item.label = some .skip ∧ answer (.select item) = .remapAll ∨
    item.label = some .skipAll ∧ answer (.select item) = .skip := by
  revert hbutton
  revert item
  decide

/-- What becomes of an answer that lets sectors be overwritten: Skip counts as Remap all and the cancel button as Remap. -/
theorem Leaves.overwrites (h : Leaves exit) (hmode : answer exit = .remap ∨ answer exit = .remapAll) :
    Presses .remap exit ∨ exit = .cancel ∨ Presses .skip exit := by
  rcases h with rfl | ⟨item, hmem, hbutton, rfl⟩
  · exact .inr (.inl rfl)
  · rcases answer_select hmem hbutton with ⟨hl, ha⟩ | ⟨hl, ha⟩ | ⟨hl, ha⟩ | ⟨hl, ha⟩
    · exact .inl ⟨item, rfl, hl⟩
    · simp [ha] at hmode
    · exact .inr (.inr ⟨item, rfl, hl⟩)
    · simp [ha] at hmode

theorem Leaves.spares (h : Leaves exit) (hmode : answer exit = .skip ∨ answer exit = .skipAll) :
    exit ≠ .cancel ∧ ¬ Presses .skip exit := by
  rcases h with rfl | ⟨item, hmem, hbutton, rfl⟩
  · simp [answer, MenuExit.result, messageBoxResult, MBOX_SCREEN_ID_BTN1, MBOX_SCREEN_ID_BTN2,
      MBOX_SCREEN_ID_BTN3, MBOX_SCREEN_ID_BTN4, badSectorMode] at hmode
  · refine ⟨by simp, ?_⟩
    rintro ⟨_, heq, hskip⟩
    cases heq
    rcases answer_select hmem hbutton with ⟨hl, ha⟩ | ⟨hl, ha⟩ | ⟨hl, ha⟩ | ⟨hl, ha⟩
    · simp [ha] at hmode
    · simp [hl] at hskip
    · simp [ha] at hmode
    · simp [hl] at hskip

theorem Leaves.remapsAll (h : Leaves exit) (hmode : answer exit = .remapAll) : Presses .skip exit := by
  rcases h with rfl | ⟨item, hmem, hbutton, rfl⟩
  · cases hmode
  · rcases answer_select hmem hbutton with ⟨-, ha⟩ | ⟨-, ha⟩ | ⟨hl, -⟩ | ⟨-, ha⟩
    · simp [ha] at hmode
    · simp [ha] at hmode
    · exact ⟨item, rfl, hl⟩
    · simp [ha] at hmode

/-! ### Sessions -/

/-- The state the pass of a loop leaves. -/
def after {α : Type} : α ⊕ α → α
  | .inl s => s
  | .inr s => s

namespace Scan

variable {r : Round} {s : Scan}

theorem overwrite_log : (after (overwrite r s)).log = s.log ++ [.patched s.lba] ∧
    (after (overwrite r s)).BadSectorHandlingMode = s.BadSectorHandlingMode := by
  unfold overwrite
  simp only
  split
  · split
    · exact ⟨rfl, rfl⟩
    · split
      · exact ⟨rfl, rfl⟩
      · exact ⟨rfl, rfl⟩
  · exact ⟨rfl, rfl⟩

/-- One answer, or none where the mode is settled. -/
private theorem badSector_session (h : Session s.BadSectorHandlingMode s.log) :
    Session (after (badSector r s)).BadSectorHandlingMode (after (badSector r s)).log := by
  unfold badSector
  split
  · rename_i hprompt
    rw [hprompt] at h
    split
    · rwa [← hprompt] at h
    · rename_i e mode haction
      obtain ⟨hleaves, rfl⟩ := leaves_of_getBadSectorAction haction
      unfold handle
      cases hmode : answer e with
      | remap =>
        simp only
        rw [overwrite_log.1, overwrite_log.2]
        exact h.remap hleaves hmode
      | remapAll =>
        simp only
        rw [overwrite_log.1, overwrite_log.2]
        exact h.remapAll hleaves hmode
      | skip => exact h.skip hleaves hmode
      | skipAll => exact h.skipAll hleaves hmode
      | prompt =>
        have hnever : ∀ n, badSectorMode n ≠ .prompt := by
          intro n
          unfold badSectorMode
          split <;> simp
        exact (hnever _ hmode).elim
  · rename_i hprompt
    unfold handle
    cases hmode : s.BadSectorHandlingMode with
    | remapAll =>
      simp only
      rw [overwrite_log.1, overwrite_log.2]
      rw [hmode] at h ⊢
      exact h.again
    | skipAll =>
      simp only [after, pass, hmode]
      rwa [hmode] at h
    | prompt => exact (hprompt hmode).elim
    | remap =>
      rw [hmode] at h
      cases h
    | skip =>
      rw [hmode] at h
      cases h

theorem round_session (h : Session s.BadSectorHandlingMode s.log) :
    Session (after (round r s)).BadSectorHandlingMode (after (round r s)).log := by
  have hverify : Session (after (verify r s)).BadSectorHandlingMode (after (verify r s)).log := by
    unfold verify
    extract_lets result counted
    have hcounted : Session counted.BadSectorHandlingMode counted.log := by
      unfold counted
      split <;> exact h
    split
    · split
      · exact badSector_session hcounted
      · exact hcounted
    · exact h
  unfold round
  split
  · split
    · exact h
    · split
      · exact h
      · exact hverify
  · exact hverify

end Scan

private theorem scanLoop_session (rounds : List Round) {s : Scan}
    (h : Session s.BadSectorHandlingMode s.log) : ∃ mode, Session mode (scanLoop rounds s).log := by
  induction rounds generalizing s with
  | nil => exact ⟨_, h⟩
  | cons r rounds ih =>
    rw [scanLoop]
    split
    · exact ⟨_, h⟩
    · have hround := Scan.round_session (r := r) h
      split
      · rename_i s' heq
        rw [heq] at hround
        exact ih hround
      · rename_i s' heq
        rw [heq] at hround
        exact ⟨_, hround⟩

/-! ### Who decides what is overwritten -/

theorem lastAnswer_asked : lastAnswer (log ++ [.asked lba exit]) = some exit := by
  simp [lastAnswer]

theorem snoc_patched {event : Event} (h : log ++ [event] = A ++ .patched l :: B) :
    (∃ C, log = A ++ .patched l :: C) ∨ log = A ∧ event = .patched l := by
  rcases List.eq_nil_or_concat B with rfl | ⟨C, e, rfl⟩
  · obtain ⟨rfl, hevent⟩ := List.append_inj' h rfl
    exact .inr ⟨rfl, (List.cons.inj hevent).1⟩
  · have h' : log ++ [event] = (A ++ .patched l :: C) ++ [e] := by simpa using h
    exact .inl ⟨C, (List.append_inj' h' rfl).1⟩

theorem Willed.snoc_asked (h : Willed log) : Willed (log ++ [.asked lba exit]) := by
  refine ⟨fun A l B heq => ?_, fun A l B heq => ?_⟩
  · rcases snoc_patched heq with ⟨C, hlog⟩ | ⟨-, hevent⟩
    · exact h.authorized A l C hlog
    · cases hevent
  · rcases snoc_patched heq with ⟨C, hlog⟩ | ⟨-, hevent⟩
    · exact h.unrefused A l C hlog
    · cases hevent

theorem Willed.snoc_patched (h : Willed log) (hpress : Presses .remap exit) :
    Willed (log ++ [.asked lba exit] ++ [.patched lba]) := by
  have hasked : Willed (log ++ [.asked lba exit]) := h.snoc_asked
  refine ⟨fun A l B heq => ?_, fun A l B heq => ?_⟩
  · rcases Hdst.snoc_patched heq with ⟨C, hlog⟩ | ⟨rfl, hevent⟩
    · exact hasked.authorized A l C hlog
    · cases hevent
      exact .inl ⟨exit, by simp, hpress⟩
  · rcases Hdst.snoc_patched heq with ⟨C, hlog⟩ | ⟨rfl, -⟩
    · exact hasked.unrefused A l C hlog
    · intro e he
      rw [lastAnswer_asked, Option.some.injEq] at he
      subst he
      obtain ⟨item, rfl, hlabel⟩ := hpress
      rintro (hcancel | ⟨_, heq', hskip⟩ | ⟨_, heq', hskip⟩)
      · cases hcancel
      · cases heq'
        simp [hlabel] at hskip
      · cases heq'
        simp [hlabel] at hskip

theorem Willed.of_append (h : Willed (log ++ B)) : Willed log :=
  ⟨fun A l C heq => h.authorized A l (C ++ B) (by simp [heq]),
    fun A l C heq => h.unrefused A l (C ++ B) (by simp [heq])⟩

theorem Willed.not_refuses (h : Willed (log ++ [.asked lba exit] ++ [.patched lba])) :
    ¬ Refuses exit := h.unrefused _ lba [] rfl exit lastAnswer_asked

/-- No question of the log was answered by Skip or by the cancel button. -/
def Answered (log : List Event) : Prop :=
  ∀ lba exit, .asked lba exit ∈ log → exit ≠ .cancel ∧ ¬ Presses .skip exit

theorem answered_snoc : Answered (log ++ [.asked lba exit]) ↔
    Answered log ∧ exit ≠ .cancel ∧ ¬ Presses .skip exit := by
  constructor
  · exact fun h => ⟨fun l e he => h l e (by simp [he]), h lba exit (by simp)⟩
  · rintro ⟨h, hexit⟩ l e he
    rcases List.mem_append.mp he with he | he
    · exact h l e he
    · simp only [List.mem_singleton, Event.asked.injEq] at he
      rw [he.2]
      exact hexit

theorem answered_snoc_patched : Answered (log ++ [.patched lba]) ↔ Answered log := by
  simp [Answered]

theorem Session.answered (h : Session mode log) (hw : Willed log) : Answered log := by
  induction h with
  | start => simp [Answered]
  | skip h hleaves hmode ih => exact answered_snoc.mpr ⟨ih hw.of_append, hleaves.spares (.inl hmode)⟩
  | skipAll h hleaves hmode ih =>
    exact answered_snoc.mpr ⟨ih hw.of_append, hleaves.spares (.inr hmode)⟩
  | remap h hleaves hmode ih =>
    have hnot := hw.not_refuses
    rw [answered_snoc_patched, answered_snoc]
    exact ⟨ih hw.of_append.of_append, fun hcancel => hnot (.inl hcancel),
      fun hskip => hnot (.inr (.inl hskip))⟩
  | remapAll h hleaves hmode ih =>
    have hnot := hw.not_refuses
    rw [answered_snoc_patched, answered_snoc]
    exact ⟨ih hw.of_append.of_append, fun hcancel => hnot (.inl hcancel),
      fun hskip => hnot (.inr (.inl hskip))⟩
  | again h ih =>
    rw [answered_snoc_patched]
    exact ih hw.of_append

theorem Session.willed (h : Session mode log) (ha : Answered log) :
    Willed log ∧ mode ≠ .remapAll := by
  induction h with
  | start =>
    refine ⟨⟨?_, ?_⟩, by simp⟩
    · simp
    · simp
  | skip h hleaves hmode ih => exact ⟨(ih (answered_snoc.mp ha).1).1.snoc_asked, by simp⟩
  | skipAll h hleaves hmode ih => exact ⟨(ih (answered_snoc.mp ha).1).1.snoc_asked, by simp⟩
  | remap h hleaves hmode ih =>
    rw [answered_snoc_patched, answered_snoc] at ha
    obtain ⟨ha, hcancel, hskip⟩ := ha
    have hpress := (hleaves.overwrites (.inl hmode)).resolve_right
      fun hother => hother.elim hcancel hskip
    exact ⟨(ih ha).1.snoc_patched hpress, by simp⟩
  | remapAll h hleaves hmode ih =>
    rw [answered_snoc_patched, answered_snoc] at ha
    exact (ha.2.2 (hleaves.remapsAll hmode)).elim
  | again h ih =>
    rw [answered_snoc_patched] at ha
    exact ((ih ha).2 rfl).elim

/-- What is overwritten in a surface scan is what the user wanted exactly when no question was answered by Skip or by the cancel button. -/
theorem SurfScanDisk_willed (TotalSectors : Nat) (rounds : List Round) :
    Willed (SurfScanDisk TotalSectors rounds).log ↔
      Answered (SurfScanDisk TotalSectors rounds).log := by
  obtain ⟨mode, hsession⟩ := scanLoop_session rounds
    (s := ⟨0, TotalSectors, 0, false, .prompt, .FXIO_WAIT, []⟩) .start
  exact ⟨hsession.answered, fun ha => (hsession.willed ha).1⟩

/-- The user moves to the button below the first, Skip, and presses it. -/
def skipFrames : List PadFrame := [⟨false, true, false, false⟩, ⟨false, false, true, false⟩]

/-- The first sector of the disk is bad and Skip is pressed: it is overwritten. -/
theorem SurfScanDisk_skip :
    (SurfScanDisk 1 [⟨false, [], 1, skipFrames, 0, []⟩]).log =
      [.asked 0 (.select { item .button MBOX_SCREEN_ID_BTN3 false with label := some .skip }),
        .patched 0] ∧
    ¬ Willed (SurfScanDisk 1 [⟨false, [], 1, skipFrames, 0, []⟩]).log := by
  have hlog : (SurfScanDisk 1 [⟨false, [], 1, skipFrames, 0, []⟩]).log =
      [.asked 0 (.select { item .button MBOX_SCREEN_ID_BTN3 false with label := some .skip }),
        .patched 0] := by decide
  refine ⟨hlog, fun hw => ?_⟩
  rw [hlog] at hw
  exact hw.unrefused [.asked 0 _] 0 [] rfl _ rfl (.inr (.inl ⟨_, rfl, rfl⟩))

end HddChecker.Hdst
