import Mathlib.Data.Finset.Card
import Mathlib.Data.List.Range
import HddChecker.Hdst.SurfScan

/-!
# What a surface scan has covered

The notes of a session say, pass by pass, which sectors were found good, which one was reported bad, and what became of it. They are read off from the state before and after the pass and are no variables of `SurfScanDisk`. Every sector before the cursor has found its end in the notes: it was verified after it was overwritten for the last time, it could not be overwritten, it was left as it is, or nobody waited for the answer of the device.
-/

namespace HddChecker.Hdst

open Ui

/-- What can be noted of a pass. -/
inductive Note where
  /-- the sectors from `lba` on were verified -/
  | good (lba count : Nat)
  /-- the sectors from `lba` on were passed without waiting for the answer -/
  | unseen (lba count : Nat)
  /-- the sector was reported bad -/
  | bad (lba : Nat)
  /-- `PatchSector` was called, with its result -/
  | patched (lba : Nat) (result : Int)
  /-- the sector was left as it is, after this last answer of the user -/
  | skipped (lba : Nat) (choice : Option MenuExit)
  deriving DecidableEq, Repr

/-- The notes of a pass between two states. -/
def notes (r : Round) (s s' : Scan) : List Note :=
  let result := fileXioDevctl s.blockMode r.verify
  if result = 0 then
    match s.blockMode with
    | .FXIO_WAIT => [.good s.lba (min s.SectorsRemaining 65536)]
    | .FXIO_NOWAIT => [.unseen s.lba (min s.SectorsRemaining 65536)]
  else
    let offset := (result - 1).toNat
    let bad := s.lba + offset
    [.good s.lba offset, .bad bad,
      if .patched bad ∈ s'.log.drop s.log.length then .patched bad r.patch
      else .skipped bad (lastAnswer s'.log)]

/-- The mode in which a bad sector is handled. -/
def handledMode (r : Round) (s : Scan) : BadSectorHandlingModes :=
  if s.BadSectorHandlingMode = .prompt then ((GetBadSectorAction r.action).map Prod.snd).getD .prompt
  else s.BadSectorHandlingMode

/-- The variable `result` at the end of a pass after which the loop goes on. -/
def passResult (r : Round) (s : Scan) : Int :=
  let result := fileXioDevctl s.blockMode r.verify
  if result = 0 then result
  else
    match handledMode r s with
    | .remap | .remapAll => if r.patch ≠ 0 then 0 else r.patch
    | .skip | .skipAll => 0
    | .prompt => result - 1

/-- A scan of a disk stands at the head of its loop after these rounds: its state, the variable `result`, and the notes. An offset of a bad sector is one of a sector that was to be verified. -/
inductive Head (TotalSectors : Nat) : List Round → Scan → Int → List Note → Prop
  | start : Head TotalSectors [] ⟨0, TotalSectors, 0, false, .prompt, .FXIO_WAIT, []⟩ 0 []
  | pass {rounds : List Round} {r : Round} {s s' : Scan} {result : Int} {ns : List Note}
      (h : Head TotalSectors rounds s result ns) (hmore : s.SectorsRemaining ≠ 0)
      (hrange : r.verify ≤ (min s.SectorsRemaining 65536 : Nat)) (hround : s.round r = .inl s') :
      Head TotalSectors (rounds ++ [r]) s' (passResult r s) (ns ++ notes r s s')

theorem Head.scanLoop (h : Head TotalSectors rounds s result ns) (rest : List Round) :
    SurfScanDisk TotalSectors (rounds ++ rest) = Hdst.scanLoop rest s := by
  induction h generalizing rest with
  | start => rfl
  | pass h hmore hrange hround ih =>
    rw [List.append_assoc, ih, List.singleton_append, Hdst.scanLoop, if_neg hmore, hround]

/-! ### One pass -/

variable {r : Round} {s s' : Scan} {x T : Nat} {ns ms : List Note} {rounds : List Round} {result : Int}

/-- The mode in which the bad sector is handled, and the log once the user was asked. -/
structure Decides (r : Round) (s : Scan) (bad : Nat) (mode : BadSectorHandlingModes) (log : List Event) : Prop where
  handled : mode ≠ .prompt
  asked : (s.BadSectorHandlingMode = .prompt ∧ ∃ exit, Leaves exit ∧ mode = answer exit ∧
    log = s.log ++ [.asked bad exit]) ∨ (s.BadSectorHandlingMode = mode ∧ log = s.log)

def settled : BadSectorHandlingModes → BadSectorHandlingModes
  | .remap | .skip => .prompt
  | mode => mode

/-- The counter after a bad sector. -/
def counted (s : Scan) : Nat := if s.IsRetryCycle then s.NumBadSectors else u32 (s.NumBadSectors + 1)

/-- What a pass can do after which the loop goes on. -/
inductive Pass (r : Round) (s : Scan) : Scan → Prop
  | clean (hwait : s.blockMode = .FXIO_WAIT) (hverify : r.verify = 0) : Pass r s { s with
      lba := s.lba + min s.SectorsRemaining 65536
      SectorsRemaining := s.SectorsRemaining - min s.SectorsRemaining 65536
      IsRetryCycle := false }
  | unseen (hwait : s.blockMode = .FXIO_NOWAIT) : Pass r s { s with
      lba := s.lba + min s.SectorsRemaining 65536
      SectorsRemaining := s.SectorsRemaining - min s.SectorsRemaining 65536
      IsRetryCycle := false }
  | patched {offset : Nat} {mode : BadSectorHandlingModes} {log : List Event} (hwait : s.blockMode = .FXIO_WAIT)
      (hverify : r.verify = offset + 1) (hdecides : Decides r s (s.lba + offset) mode log)
      (hmode : mode = .remap ∨ mode = .remapAll) (hpatch : r.patch = 0) : Pass r s
      ⟨s.lba + offset, s.SectorsRemaining - offset, counted s, true, settled mode, .FXIO_NOWAIT,
        log ++ [Event.patched (s.lba + offset)]⟩
  | failed {offset : Nat} {mode : BadSectorHandlingModes} {log : List Event} (hwait : s.blockMode = .FXIO_WAIT)
      (hverify : r.verify = offset + 1) (hdecides : Decides r s (s.lba + offset) mode log)
      (hmode : mode = .remap ∨ mode = .remapAll) (hpatch : r.patch ≠ 0) : Pass r s
      ⟨s.lba + offset + 1, s.SectorsRemaining - offset - 1, counted s, s.IsRetryCycle, settled mode, .FXIO_NOWAIT,
        log ++ [Event.patched (s.lba + offset)]⟩
  | skipped {offset : Nat} {mode : BadSectorHandlingModes} {log : List Event} (hwait : s.blockMode = .FXIO_WAIT)
      (hverify : r.verify = offset + 1) (hdecides : Decides r s (s.lba + offset) mode log)
      (hmode : mode = .skip ∨ mode = .skipAll) : Pass r s
      ⟨s.lba + offset + 1, s.SectorsRemaining - offset - 1, counted s, s.IsRetryCycle, settled mode, .FXIO_WAIT, log⟩

private theorem badSectorMode_ne_prompt (n : Nat) : badSectorMode n ≠ .prompt := by
  unfold badSectorMode
  split <;> simp

theorem overwrite_inl (h : s.overwrite r = .inl s') :
    (r.patch = 0 ∧ s' = { s with
      log := s.log ++ [Event.patched s.lba], IsRetryCycle := true, blockMode := .FXIO_NOWAIT }) ∨
    (r.patch ≠ 0 ∧ s' = { s with log := s.log ++ [Event.patched s.lba], blockMode := .FXIO_NOWAIT }.pass) := by
  change (if r.patch ≠ 0 then _ else _) = _ at h
  split at h
  · rename_i hpatch
    split at h
    · cases h
    · split at h
      · cases h
      · exact .inr ⟨hpatch, (Sum.inl.inj h).symm⟩
  · rename_i hpatch
    exact .inl ⟨not_not.mp hpatch, (Sum.inl.inj h).symm⟩

private theorem handle_inl (h : s.handle r = .inl s') (hmode : s.BadSectorHandlingMode ≠ .prompt) :
    ((s.BadSectorHandlingMode = .remap ∨ s.BadSectorHandlingMode = .remapAll) ∧ r.patch = 0 ∧
      s' = { s with
        BadSectorHandlingMode := settled s.BadSectorHandlingMode
        log := s.log ++ [Event.patched s.lba]
        IsRetryCycle := true
        blockMode := .FXIO_NOWAIT }) ∨
    ((s.BadSectorHandlingMode = .remap ∨ s.BadSectorHandlingMode = .remapAll) ∧ r.patch ≠ 0 ∧
      s' = { s with
        BadSectorHandlingMode := settled s.BadSectorHandlingMode
        log := s.log ++ [Event.patched s.lba]
        blockMode := .FXIO_NOWAIT }.pass) ∨
    ((s.BadSectorHandlingMode = .skip ∨ s.BadSectorHandlingMode = .skipAll) ∧
      s' = { s with BadSectorHandlingMode := settled s.BadSectorHandlingMode }.pass) := by
  obtain ⟨lba, remaining, num, retry, mode, block, log⟩ := s
  cases mode with
  | prompt => exact absurd rfl hmode
  | remap =>
    rcases overwrite_inl h with ⟨hpatch, hs⟩ | ⟨hpatch, hs⟩
    · exact .inl ⟨.inl rfl, hpatch, hs⟩
    · exact .inr (.inl ⟨.inl rfl, hpatch, hs⟩)
  | remapAll =>
    rcases overwrite_inl h with ⟨hpatch, hs⟩ | ⟨hpatch, hs⟩
    · exact .inl ⟨.inr rfl, hpatch, hs⟩
    · exact .inr (.inl ⟨.inr rfl, hpatch, hs⟩)
  | skip => exact .inr (.inr ⟨.inl rfl, (Sum.inl.inj h).symm⟩)
  | skipAll => exact .inr (.inr ⟨.inr rfl, (Sum.inl.inj h).symm⟩)

theorem pass_eq (hspace : s.lba + s.SectorsRemaining < 2 ^ 32) (hmore : 0 < s.SectorsRemaining) :
    s.pass = { s with lba := s.lba + 1, SectorsRemaining := s.SectorsRemaining - 1 } := by
  unfold Scan.pass u32
  have hlba : (s.lba + 1) % 2 ^ 32 = s.lba + 1 := Nat.mod_eq_of_lt (by omega)
  have hremaining : (s.SectorsRemaining + 2 ^ 32 - 1) % 2 ^ 32 = s.SectorsRemaining - 1 := by omega
  rw [hlba, hremaining]

/-- The transfer of a pass that waits for the answer. -/
private theorem verify_pass (hspace : s.lba + s.SectorsRemaining < 2 ^ 32)
    (hrange : r.verify ≤ (min s.SectorsRemaining 65536 : Nat)) (hwait : s.blockMode = .FXIO_WAIT)
    (hverify : s.verify r = .inl s') : Pass r s s' := by
  simp only [Scan.verify, hwait, fileXioDevctl] at hverify
  split at hverify
  · rename_i hbad
    split at hverify
    · rename_i hpos
      -- The cursor is moved to the bad sector.
      obtain ⟨offset, hoffset⟩ : ∃ offset : Nat, r.verify = offset + 1 := ⟨(r.verify - 1).toNat, by omega⟩
      have hle : offset + 1 ≤ s.SectorsRemaining := by omega
      have hnat : (r.verify - 1).toNat = offset := by omega
      have hcount : (if s.IsRetryCycle = true then s else { s with NumBadSectors := u32 (s.NumBadSectors + 1) }) =
          { s with NumBadSectors := counted s } := by
        unfold counted
        split <;> rfl
      have hlba : u32 (s.lba + offset) = s.lba + offset := Nat.mod_eq_of_lt (by omega)
      have hremaining : u32 (s.SectorsRemaining + 2 ^ 32 - u32 offset) = s.SectorsRemaining - offset := by
        unfold u32
        omega
      rw [← hwait] at hverify
      rw [hnat, hcount] at hverify
      simp only [hlba, hremaining] at hverify
      have hhandle : ∃ mode log, Decides r s (s.lba + offset) mode log ∧
          (Scan.mk (s.lba + offset) (s.SectorsRemaining - offset) (counted s) s.IsRetryCycle mode .FXIO_WAIT log).handle r =
            .inl s' := by
        rw [hwait] at hverify
        unfold Scan.badSector at hverify
        split at hverify
        · rename_i hprompt
          split at hverify
          · cases hverify
          · rename_i exit mode haction
            obtain ⟨hleaves, hmode⟩ := leaves_of_getBadSectorAction haction
            refine ⟨mode, _, ⟨?_, .inl ⟨hprompt, exit, hleaves, hmode, rfl⟩⟩, hverify⟩
            rw [hmode]
            exact badSectorMode_ne_prompt _
        · rename_i hprompt
          exact ⟨s.BadSectorHandlingMode, s.log, ⟨hprompt, .inr ⟨rfl, rfl⟩⟩, hverify⟩
      obtain ⟨mode, log, hdecides, hhandle⟩ := hhandle
      have hspace' : s.lba + offset + (s.SectorsRemaining - offset) < 2 ^ 32 := by omega
      have hmore : 0 < s.SectorsRemaining - offset := by omega
      rcases handle_inl hhandle hdecides.handled with ⟨hmode, hpatch, rfl⟩ | ⟨hmode, hpatch, rfl⟩ | ⟨hmode, rfl⟩
      · exact .patched hwait hoffset hdecides hmode hpatch
      · rw [pass_eq hspace' hmore]
        exact .failed hwait hoffset hdecides hmode hpatch
      · rw [pass_eq hspace' hmore]
        exact .skipped hwait hoffset hdecides hmode
    · cases hverify
  · rename_i hgood
    have hlba : u32 (s.lba + min s.SectorsRemaining 65536) = s.lba + min s.SectorsRemaining 65536 :=
      Nat.mod_eq_of_lt (by omega)
    rw [hlba, ← hwait] at hverify
    rw [← Sum.inl.inj hverify]
    exact .clean hwait (not_not.mp hgood)

/-- A pass after which the loop goes on, told by cases. -/
theorem round_pass (hspace : s.lba + s.SectorsRemaining < 2 ^ 32)
    (hrange : r.verify ≤ (min s.SectorsRemaining 65536 : Nat)) (h : s.round r = .inl s') : Pass r s s' := by
  have hverify : s.verify r = .inl s' := by
    unfold Scan.round at h
    split at h
    · split at h
      · cases h
      · split at h
        · cases h
        · exact h
    · exact h
  cases hwait : s.blockMode with
  | FXIO_NOWAIT =>
    simp only [Scan.verify, hwait, fileXioDevctl, ne_eq, not_true_eq_false, if_false] at hverify
    have hlba : u32 (s.lba + min s.SectorsRemaining 65536) = s.lba + min s.SectorsRemaining 65536 :=
      Nat.mod_eq_of_lt (by omega)
    rw [hlba, ← hwait] at hverify
    rw [← Sum.inl.inj hverify]
    exact .unseen hwait
  | FXIO_WAIT => exact verify_pass hspace hrange hwait hverify

/-! ### The notes of a pass -/

theorem Decides.extends {bad : Nat} {mode : BadSectorHandlingModes} {log : List Event} (h : Decides r s bad mode log) :
    ∃ asked, log = s.log ++ asked ∧ ∀ l, Event.patched l ∉ asked := by
  rcases h.asked with ⟨-, exit, -, -, rfl⟩ | ⟨-, rfl⟩
  · refine ⟨[.asked bad exit], rfl, fun l hl => ?_⟩
    cases List.mem_singleton.mp hl
  · exact ⟨[], (List.append_nil _).symm, fun l => List.not_mem_nil⟩

theorem notes_good (hwait : s.blockMode = .FXIO_WAIT) (hverify : r.verify = 0) :
    notes r s s' = [.good s.lba (min s.SectorsRemaining 65536)] := by
  simp only [notes, hwait, fileXioDevctl, hverify, if_true]

theorem notes_unseen (hwait : s.blockMode = .FXIO_NOWAIT) :
    notes r s s' = [.unseen s.lba (min s.SectorsRemaining 65536)] := by
  simp only [notes, hwait, fileXioDevctl, if_true]

theorem notes_bad {offset : Nat} (hwait : s.blockMode = .FXIO_WAIT) (hverify : r.verify = offset + 1) : notes r s s' =
    [.good s.lba offset, .bad (s.lba + offset),
      if .patched (s.lba + offset) ∈ s'.log.drop s.log.length then .patched (s.lba + offset) r.patch
      else .skipped (s.lba + offset) (lastAnswer s'.log)] := by
  have hne : r.verify ≠ 0 := by omega
  have hnat : (r.verify - 1).toNat = offset := by omega
  simp only [notes, hwait, fileXioDevctl, if_neg hne, hnat]

theorem notes_patched {offset : Nat} {mode : BadSectorHandlingModes} {log : List Event}
    (hwait : s.blockMode = .FXIO_WAIT) (hverify : r.verify = offset + 1) (hdecides : Decides r s (s.lba + offset) mode log)
    (hlog : s'.log = log ++ [Event.patched (s.lba + offset)]) : notes r s s' =
    [.good s.lba offset, .bad (s.lba + offset), .patched (s.lba + offset) r.patch] := by
  obtain ⟨asked, rfl, -⟩ := hdecides.extends
  rw [notes_bad hwait hverify, hlog, List.append_assoc, List.drop_left, if_pos]
  exact List.mem_append_right _ (List.mem_singleton_self _)

theorem notes_skipped {offset : Nat} {mode : BadSectorHandlingModes} {log : List Event}
    (hwait : s.blockMode = .FXIO_WAIT) (hverify : r.verify = offset + 1) (hdecides : Decides r s (s.lba + offset) mode log) (hlog : s'.log = log) :
    notes r s s' = [.good s.lba offset, .bad (s.lba + offset),
      .skipped (s.lba + offset) (lastAnswer log)] := by
  obtain ⟨asked, rfl, hasked⟩ := hdecides.extends
  rw [notes_bad hwait hverify, hlog, List.drop_left, if_neg (hasked _)]

/-- The note is about the sector. -/
def Note.Concerns (x : Nat) : Note → Prop
  | .good lba count => lba ≤ x ∧ x < lba + count
  | .unseen lba count => lba ≤ x ∧ x < lba + count
  | .bad lba => lba = x
  | .patched lba _ => lba = x
  | .skipped lba _ => lba = x

private theorem notes_concerns {note : Note} (h : note ∈ notes r s s') (hx : note.Concerns x) : s.lba ≤ x := by
  simp only [notes] at h
  split at h
  · split at h
    · obtain rfl := List.mem_singleton.mp h
      exact hx.1
    · obtain rfl := List.mem_singleton.mp h
      exact hx.1
  · simp only [List.mem_cons, List.not_mem_nil, or_false] at h
    rcases h with rfl | rfl | rfl
    · exact hx.1
    · exact (Nat.le_add_right _ _).trans hx.le
    · split at hx
      · exact (Nat.le_add_right _ _).trans hx.le
      · exact (Nat.le_add_right _ _).trans hx.le

/-! ### What becomes of a sector -/

/-- The sector was verified, and was not overwritten afterwards. -/
def VerifiedLast (ns : List Note) (x : Nat) : Prop :=
  ∃ A lba count B, ns = A ++ .good lba count :: B ∧ lba ≤ x ∧ x < lba + count ∧ ∀ result, .patched x result ∉ B

/-- It was reported that the sector could not be patched. -/
def PatchFailed (ns : List Note) (x : Nat) : Prop := ∃ result, result ≠ 0 ∧ .patched x result ∈ ns

/-- The sector is bad and was skipped, with this as the last answer of the user. -/
def SkippedAfter (ns : List Note) (x : Nat) (exit : MenuExit) : Prop :=
  .bad x ∈ ns ∧ .skipped x (some exit) ∈ ns

/-- The sector is bad and was skipped as the user wanted. -/
def SkippedByChoice (ns : List Note) (x : Nat) : Prop :=
  ∃ exit, SkippedAfter ns x exit ∧ (Presses .skip exit ∨ Presses .skipAll exit)

/-- The scan went on behind the sector and did not wait for what the device answered about it. -/
def Unseen (ns : List Note) (x : Nat) : Prop := ∃ lba count, .unseen lba count ∈ ns ∧ lba ≤ x ∧ x < lba + count

/-- The sector was not skipped silently. -/
def Accounted (ns : List Note) (x : Nat) : Prop :=
  VerifiedLast ns x ∨ PatchFailed ns x ∨ SkippedByChoice ns x

theorem mem_append_of_not_concerns {note : Note} (hms : ∀ note ∈ ms, ¬ note.Concerns x) (hnote : note.Concerns x) :
    note ∈ ns ++ ms ↔ note ∈ ns := by
  rw [List.mem_append, or_iff_left]
  exact fun h => hms note h hnote

theorem VerifiedLast.append (h : VerifiedLast ns x) (hms : ∀ result, .patched x result ∉ ms) :
    VerifiedLast (ns ++ ms) x := by
  obtain ⟨A, lba, count, B, rfl, hle, hlt, hB⟩ := h
  refine ⟨A, lba, count, B ++ ms, by simp, hle, hlt, fun result hmem => ?_⟩
  exact (List.mem_append.mp hmem).elim (hB result) (hms result)

theorem VerifiedLast.of_append (h : VerifiedLast (ns ++ ms) x)
    (hms : ∀ lba count, .good lba count ∈ ms → ¬ (lba ≤ x ∧ x < lba + count)) : VerifiedLast ns x := by
  obtain ⟨A, lba, count, B, heq, hle, hlt, hB⟩ := h
  rcases List.append_eq_append_iff.mp heq with ⟨C, -, hC⟩ | ⟨C, hA, hC⟩
  · exact absurd ⟨hle, hlt⟩ (hms lba count (hC ▸ List.mem_append_right _ List.mem_cons_self))
  · cases C with
    | nil =>
      refine absurd ⟨hle, hlt⟩ (hms lba count ?_)
      rw [← List.nil_append ms, ← hC]
      exact List.mem_cons_self
    | cons note C =>
      obtain ⟨rfl, rfl⟩ := List.cons.inj hC
      exact ⟨A, lba, count, C, hA, hle, hlt, fun result hmem => hB result (List.mem_append_left _ hmem)⟩

private theorem verifiedLast_append (hms : ∀ note ∈ ms, ¬ note.Concerns x) :
    VerifiedLast (ns ++ ms) x ↔ VerifiedLast ns x :=
  ⟨fun h => h.of_append fun _ _ hmem => hms _ hmem, fun h => h.append fun _ hmem => hms _ hmem rfl⟩

theorem skippedAfter_append {exit : MenuExit} (hms : ∀ note ∈ ms, ¬ note.Concerns x) :
    SkippedAfter (ns ++ ms) x exit ↔ SkippedAfter ns x exit := by
  unfold SkippedAfter
  have hbad : Note.bad x ∈ ns ++ ms ↔ Note.bad x ∈ ns := mem_append_of_not_concerns hms rfl
  have hskipped : Note.skipped x (some exit) ∈ ns ++ ms ↔ Note.skipped x (some exit) ∈ ns :=
    mem_append_of_not_concerns hms rfl
  simp only [hbad, hskipped]

theorem accounted_append (hms : ∀ note ∈ ms, ¬ note.Concerns x) : Accounted (ns ++ ms) x ↔ Accounted ns x := by
  have hpatched : ∀ result, Note.patched x result ∈ ns ++ ms ↔ Note.patched x result ∈ ns :=
    fun result => mem_append_of_not_concerns hms rfl
  simp only [Accounted, PatchFailed, SkippedByChoice, verifiedLast_append hms, skippedAfter_append hms, hpatched]

/-! ### What the scan has passed -/

theorem Leaves.presses_skipAll {exit : MenuExit} (h : Leaves exit) (hmode : answer exit = .skip) :
    Presses .skipAll exit := by
  rcases h with rfl | ⟨item, hmem, hbutton, rfl⟩
  · cases hmode
  · rcases answer_select hmem hbutton with ⟨-, ha⟩ | ⟨-, ha⟩ | ⟨-, ha⟩ | ⟨hl, -⟩
    · simp [ha] at hmode
    · simp [ha] at hmode
    · simp [ha] at hmode
    · exact ⟨item, rfl, hl⟩

theorem Leaves.presses_remapAll {exit : MenuExit} (h : Leaves exit) :
    answer exit = .skipAll ↔ Presses .remapAll exit := by
  rcases h with rfl | ⟨item, hmem, hbutton, rfl⟩
  · constructor
    · intro hmode
      cases hmode
    · rintro ⟨item, hitem, -⟩
      cases hitem
  · constructor
    · intro hmode
      rcases answer_select hmem hbutton with ⟨-, ha⟩ | ⟨hl, -⟩ | ⟨-, ha⟩ | ⟨-, ha⟩
      · simp [ha] at hmode
      · exact ⟨item, rfl, hl⟩
      · simp [ha] at hmode
      · simp [ha] at hmode
    · rintro ⟨_, heq, hlabel⟩
      cases heq
      rcases answer_select hmem hbutton with ⟨hl, -⟩ | ⟨-, ha⟩ | ⟨hl, -⟩ | ⟨hl, -⟩
      · simp [hl] at hlabel
      · exact ha
      · simp [hl] at hlabel
      · simp [hl] at hlabel

/-- In the mode that skips all bad sectors the last answer was the one of that mode. -/
theorem Session.lastAnswer {log : List Event} (h : Session .skipAll log) :
    ∃ l exit, Hdst.lastAnswer log = some exit ∧ .asked l exit ∈ log ∧ Leaves exit ∧ answer exit = .skipAll := by
  cases h with
  | skipAll h hleaves hmode => exact ⟨_, _, lastAnswer_asked, List.mem_append_right _ (List.mem_singleton_self _), hleaves, hmode⟩

theorem Unseen.append (h : Unseen ns x) (ms : List Note) : Unseen (ns ++ ms) x := by
  obtain ⟨lba, count, hmem, hx⟩ := h
  exact ⟨lba, count, List.mem_append_left _ hmem, hx⟩

theorem Unseen.of_append (h : Unseen (ns ++ ms) x) (hms : ∀ lba count, .unseen lba count ∉ ms) : Unseen ns x := by
  obtain ⟨lba, count, hmem, hx⟩ := h
  exact ⟨lba, count, (List.mem_append.mp hmem).resolve_right (hms lba count), hx⟩

theorem PatchFailed.of_append (h : PatchFailed (ns ++ ms) x) (hms : ∀ lba result, .patched lba result ∉ ms) :
    PatchFailed ns x := by
  obtain ⟨result, hne, hmem⟩ := h
  exact ⟨result, hne, (List.mem_append.mp hmem).resolve_right (hms x result)⟩

/-- What holds at the head of the loop. -/
structure Covers (T : Nat) (s : Scan) (ns : List Note) : Prop where
  space : s.lba + s.SectorsRemaining = T
  session : Session s.BadSectorHandlingMode s.log
  passed : ∀ x < s.lba, Accounted ns x ∨ Unseen ns x ∨
    ∃ l exit, SkippedAfter ns x exit ∧ .asked l exit ∈ s.log ∧ Presses .remapAll exit
  unseen : ∀ x, Unseen ns x → x < s.lba ∧ ¬ Accounted ns x
  fresh : ∀ x, s.lba ≤ x → ¬ VerifiedLast ns x ∧ ¬ PatchFailed ns x ∧ ∀ choice, .skipped x choice ∉ ns
  lost : ∀ l exit, .asked l exit ∈ s.log → Presses .remapAll exit → ∃ x < s.lba, ¬ Accounted ns x

theorem Covers.stays_fresh (h : Covers T s ns) (hx : s.lba ≤ x)
    (hgood : ∀ lba count, .good lba count ∈ ms → ¬ (lba ≤ x ∧ x < lba + count))
    (hpatched : ∀ result, .patched x result ∈ ms → result = 0) (hskipped : ∀ choice, .skipped x choice ∉ ms) :
    ¬ VerifiedLast (ns ++ ms) x ∧ ¬ PatchFailed (ns ++ ms) x ∧ ∀ choice, .skipped x choice ∉ ns ++ ms := by
  obtain ⟨hv, hp, hs⟩ := h.fresh x hx
  refine ⟨fun hverified => hv (hverified.of_append hgood), ?_, fun choice hmem => ?_⟩
  · rintro ⟨result, hne, hmem⟩
    rcases List.mem_append.mp hmem with hmem | hmem
    · exact hp ⟨result, hne, hmem⟩
    · exact hne (hpatched result hmem)
  · exact (List.mem_append.mp hmem).elim (hs choice) (hskipped choice)

theorem Covers.stays_passed (h : Covers T s ns) (hms : ∀ note ∈ ms, note.Concerns x → s.lba ≤ x) (hx : x < s.lba)
    {log : List Event} (hlog : ∀ event ∈ s.log, event ∈ log) : Accounted (ns ++ ms) x ∨ Unseen (ns ++ ms) x ∨
    ∃ l exit, SkippedAfter (ns ++ ms) x exit ∧ .asked l exit ∈ log ∧ Presses .remapAll exit := by
  have hnot : ∀ note ∈ ms, ¬ note.Concerns x := fun note hnote hx' => absurd (hms note hnote hx') (by omega)
  rcases h.passed x hx with haccounted | hunseen | ⟨l, exit, hskipped, hasked, hpress⟩
  · exact .inl ((accounted_append hnot).mpr haccounted)
  · exact .inr (.inl (hunseen.append ms))
  · exact .inr (.inr ⟨l, exit, (skippedAfter_append hnot).mpr hskipped, hlog _ hasked, hpress⟩)

theorem Covers.stays_unseen (h : Covers T s ns) (hms : ∀ x, ∀ note ∈ ms, note.Concerns x → s.lba ≤ x)
    (hnew : ∀ lba count, .unseen lba count ∉ ms) {lba : Nat} (hlba : s.lba ≤ lba) (hx : Unseen (ns ++ ms) x) :
    x < lba ∧ ¬ Accounted (ns ++ ms) x := by
  obtain ⟨hlt, hnot⟩ := h.unseen x (hx.of_append hnew)
  refine ⟨hlt.trans_le hlba, fun haccounted => hnot ((accounted_append fun note hnote hx' => ?_).mp haccounted)⟩
  exact absurd (hms x note hnote hx') (by omega)

theorem Covers.stays_lost (h : Covers T s ns) (hms : ∀ x, ∀ note ∈ ms, note.Concerns x → s.lba ≤ x)
    {l lba : Nat} {exit : MenuExit} (hasked : .asked l exit ∈ s.log) (hpress : Presses .remapAll exit)
    (hlba : s.lba ≤ lba) : ∃ x < lba, ¬ Accounted (ns ++ ms) x := by
  obtain ⟨x, hx, hnot⟩ := h.lost l exit hasked hpress
  refine ⟨x, hx.trans_le hlba, fun haccounted => hnot ((accounted_append fun note hnote hx' => ?_).mp haccounted)⟩
  exact absurd (hms x note hnote hx') (by omega)

theorem verifiedLast_new {lba count : Nat} (hle : lba ≤ x) (hlt : x < lba + count)
    (hms : ∀ result, .patched x result ∉ .good lba count :: ms) : VerifiedLast (ns ++ .good lba count :: ms) x :=
  ⟨ns, lba, count, ms, rfl, hle, hlt, fun result hmem => hms result (List.mem_cons_of_mem _ hmem)⟩

/-- The user was asked about nothing new, or about this sector. -/
theorem Decides.mem {bad l : Nat} {mode : BadSectorHandlingModes} {log : List Event} {exit : MenuExit}
    (h : Decides r s bad mode log) (hmem : .asked l exit ∈ log) :
    .asked l exit ∈ s.log ∨ (l = bad ∧ mode = answer exit ∧ Leaves exit ∧ Hdst.lastAnswer log = some exit) := by
  rcases h.asked with ⟨-, e, hleaves, hmode, rfl⟩ | ⟨-, rfl⟩
  · rcases List.mem_append.mp hmem with hmem | hmem
    · exact .inl hmem
    · obtain ⟨rfl, rfl⟩ := Event.asked.inj (List.mem_singleton.mp hmem)
      exact .inr ⟨rfl, hmode, hleaves, lastAnswer_asked⟩
  · exact .inl hmem

theorem Decides.skips {bad : Nat} {mode : BadSectorHandlingModes} {log : List Event}
    (h : Decides r s bad mode log) (hmode : mode = .skip ∨ mode = .skipAll)
    (hsession : Session s.BadSectorHandlingMode s.log) : ∃ l exit, Hdst.lastAnswer log = some exit ∧
      .asked l exit ∈ log ∧ (Presses .skipAll exit ∨ Presses .remapAll exit) := by
  rcases h.asked with ⟨-, exit, hleaves, rfl, rfl⟩ | ⟨hs, rfl⟩
  · refine ⟨bad, exit, lastAnswer_asked, List.mem_append_right _ (List.mem_singleton_self _), ?_⟩
    exact hmode.imp hleaves.presses_skipAll hleaves.presses_remapAll.mp
  · rw [hs] at hsession
    rcases hmode with rfl | rfl
    · cases hsession
    · obtain ⟨l, exit, hlast, hasked, hleaves, hanswer⟩ := hsession.lastAnswer
      exact ⟨l, exit, hlast, hasked, .inr (hleaves.presses_remapAll.mp hanswer)⟩

theorem Decides.keeps_log {bad : Nat} {mode : BadSectorHandlingModes} {log : List Event} {event : Event}
    (h : Decides r s bad mode log) (hmem : event ∈ s.log) : event ∈ log := by
  obtain ⟨asked, rfl, -⟩ := h.extends
  exact List.mem_append_left _ hmem

theorem Decides.keeps {bad l : Nat} {mode : BadSectorHandlingModes} {log : List Event} {event : Event}
    (h : Decides r s bad mode log) (hmem : event ∈ s.log) : event ∈ log ++ [.patched l] :=
  List.mem_append_left _ (h.keeps_log hmem)

theorem Decides.not_remapAll {bad l l' : Nat} {mode : BadSectorHandlingModes} {log : List Event} {exit : MenuExit}
    (h : Decides r s bad mode log) (hmode : mode = .remap ∨ mode = .remapAll)
    (hasked : .asked l exit ∈ log ++ [.patched l']) (hpress : Presses .remapAll exit) : .asked l exit ∈ s.log := by
  have hmem : Event.asked l exit ∈ log := by
    refine (List.mem_append.mp hasked).resolve_right fun hmem => ?_
    cases List.mem_singleton.mp hmem
  refine (h.mem hmem).resolve_right ?_
  rintro ⟨-, rfl, hleaves, -⟩
  rw [hleaves.presses_remapAll.mpr hpress] at hmode
  exact hmode.elim nofun nofun

/-- A button has one label. -/
theorem Presses.unique {a b : Label} {exit : MenuExit} (ha : Presses a exit) (hb : Presses b exit) : a = b := by
  obtain ⟨i, rfl, hi⟩ := ha
  obtain ⟨j, hj, hj'⟩ := hb
  cases hj
  exact Option.some.inj (hi.symm.trans hj')

/-! The notes of a pass that met a bad sector. -/

section

variable {a n y l k : Nat} {p q : Int} {choice choice' : Option MenuExit}

private theorem good_mem_patched (h : Note.good l k ∈ [.good a n, .bad y, .patched y p]) : l = a ∧ k = n := by simpa using h

theorem good_mem_skipped (h : Note.good l k ∈ [.good a n, .bad y, .skipped y choice]) : l = a ∧ k = n := by simpa using h

theorem patched_mem (h : Note.patched l q ∈ [.good a n, .bad y, .patched y p]) : l = y ∧ q = p := by simpa using h

theorem skipped_mem (h : Note.skipped l choice' ∈ [.good a n, .bad y, .skipped y choice]) : l = y ∧ choice' = choice := by
  simpa using h

end

theorem Covers.fresh_patched (h : Covers T s ns) {offset : Nat} {result : Int} (hx : s.lba + offset ≤ x)
    (hresult : x = s.lba + offset → result = 0) :
    ¬ VerifiedLast (ns ++ [.good s.lba offset, .bad (s.lba + offset), .patched (s.lba + offset) result]) x ∧
    ¬ PatchFailed (ns ++ [.good s.lba offset, .bad (s.lba + offset), .patched (s.lba + offset) result]) x ∧
    ∀ choice, .skipped x choice ∉
      ns ++ [.good s.lba offset, .bad (s.lba + offset), .patched (s.lba + offset) result] := by
  apply h.stays_fresh (by omega)
  · intro lba count hmem
    obtain ⟨rfl, rfl⟩ := good_mem_patched hmem
    omega
  · intro result' hmem
    obtain ⟨heq, rfl⟩ := patched_mem hmem
    exact hresult heq
  · simp

theorem Covers.fresh_skipped (h : Covers T s ns) {offset : Nat} {choice : Option MenuExit}
    (hx : s.lba + offset + 1 ≤ x) :
    ¬ VerifiedLast (ns ++ [.good s.lba offset, .bad (s.lba + offset), .skipped (s.lba + offset) choice]) x ∧
    ¬ PatchFailed (ns ++ [.good s.lba offset, .bad (s.lba + offset), .skipped (s.lba + offset) choice]) x ∧
    ∀ choice', .skipped x choice' ∉
      ns ++ [.good s.lba offset, .bad (s.lba + offset), .skipped (s.lba + offset) choice] := by
  apply h.stays_fresh (by omega)
  · intro lba count hmem
    obtain ⟨rfl, rfl⟩ := good_mem_skipped hmem
    omega
  · simp
  · intro choice' hmem
    have heq := skipped_mem hmem
    omega

theorem Covers.skipped_lost (h : Covers T s ns) {offset : Nat} {log : List Event} {exit : MenuExit}
    (hlast : lastAnswer log = some exit) (hpress : Presses .remapAll exit) : ¬ Accounted (ns ++ [.good s.lba offset,
      .bad (s.lba + offset), .skipped (s.lba + offset) (lastAnswer log)]) (s.lba + offset) := by
  obtain ⟨hv, hp, hs⟩ := h.fresh (s.lba + offset) (Nat.le_add_right _ _)
  rintro (hverified | ⟨result, hne, hmem⟩ | ⟨e, ⟨-, hmem⟩, hchoice⟩)
  · refine hv (hverified.of_append fun lba count hmem => ?_)
    obtain ⟨rfl, rfl⟩ := good_mem_skipped hmem
    omega
  · simp only [List.mem_append, List.mem_cons, reduceCtorEq, List.not_mem_nil, or_false] at hmem
    exact hp ⟨result, hne, hmem⟩
  · rcases List.mem_append.mp hmem with hmem | hmem
    · exact hs _ hmem
    · obtain ⟨-, heq⟩ := skipped_mem hmem
      obtain rfl := Option.some.inj (heq.trans hlast)
      rcases hchoice with hskip | hskip
      · cases hskip.unique hpress
      · cases hskip.unique hpress

/-- A pass keeps the account. -/
theorem Covers.pass (h : Covers T s ns) (hT : T < 2 ^ 32)
    (hrange : r.verify ≤ (min s.SectorsRemaining 65536 : Nat)) (hround : s.round r = .inl s') :
    Covers T s' (ns ++ notes r s s') := by
  have hspace := h.space
  have hsession : Session s'.BadSectorHandlingMode s'.log := by
    have := Scan.round_session (r := r) h.session
    rwa [hround] at this
  have hconcerns : ∀ x, ∀ note ∈ notes r s s', note.Concerns x → s.lba ≤ x := fun x note => notes_concerns
  have hpass : Pass r s s' := round_pass (by omega) hrange hround
  cases hpass with
  | unseen hwait =>
    rw [notes_unseen hwait] at hconcerns ⊢
    have hfresh : ∀ x, s.lba ≤ x → ¬ VerifiedLast (ns ++ [.unseen s.lba (min s.SectorsRemaining 65536)]) x ∧
        ¬ PatchFailed (ns ++ [.unseen s.lba (min s.SectorsRemaining 65536)]) x ∧
        ∀ choice, .skipped x choice ∉ ns ++ [.unseen s.lba (min s.SectorsRemaining 65536)] :=
      fun x hx => h.stays_fresh hx (by simp) (by simp) (by simp)
    refine ⟨?_, hsession, fun x hx => ?_, fun x hx => ?_, fun x hx => ?_, fun l exit hasked hpress => ?_⟩
    · simp only
      omega
    · simp only at hx
      by_cases hlt : x < s.lba
      · exact h.stays_passed (hconcerns x) hlt fun _ => id
      · exact .inr (.inl ⟨s.lba, _, List.mem_append_right _ (List.mem_singleton_self _), Nat.le_of_not_lt hlt, hx⟩)
    · obtain ⟨lba, count, hmem, hle, hlt⟩ := hx
      rcases List.mem_append.mp hmem with hmem | hmem
      · obtain ⟨hx, hnot⟩ := h.unseen x ⟨lba, count, hmem, hle, hlt⟩
        refine ⟨by simp only; omega, fun haccounted => hnot ((accounted_append fun note hnote hx' => ?_).mp haccounted)⟩
        exact absurd (hconcerns x note hnote hx') (by omega)
      · -- Nothing is noted of the sectors that are passed now.
        obtain ⟨rfl, rfl⟩ := Note.unseen.inj (List.mem_singleton.mp hmem)
        obtain ⟨hv, hp, hs⟩ := hfresh x hle
        refine ⟨hlt, ?_⟩
        rintro (hverified | hfailed | ⟨exit, ⟨-, hskipped⟩, -⟩)
        · exact hv hverified
        · exact hp hfailed
        · exact hs _ hskipped
    · simp only at hx
      exact hfresh x (by omega)
    · exact h.stays_lost hconcerns hasked hpress (by simp only; omega)
  | clean hwait hverify =>
    rw [notes_good hwait hverify] at hconcerns ⊢
    refine ⟨?_, hsession, fun x hx => ?_, fun x hx => ?_, fun x hx => ?_, fun l exit hasked hpress => ?_⟩
    · simp only
      omega
    · simp only at hx
      by_cases hlt : x < s.lba
      · exact h.stays_passed (hconcerns x) hlt fun _ => id
      · exact .inl (.inl (verifiedLast_new (Nat.le_of_not_lt hlt) hx (by simp)))
    · exact h.stays_unseen hconcerns (by simp) (by simp only; omega) hx
    · simp only at hx
      refine h.stays_fresh (by omega) ?_ ?_ ?_
      · intro lba count hmem
        obtain ⟨rfl, rfl⟩ := Note.good.inj (List.mem_singleton.mp hmem)
        omega
      · intro result hmem
        cases List.mem_singleton.mp hmem
      · intro choice hmem
        cases List.mem_singleton.mp hmem
    · exact h.stays_lost hconcerns hasked hpress (by simp only; omega)
  | @patched offset mode log hwait hverify hdecides hmode hpatch =>
    rw [notes_patched hwait hverify hdecides rfl] at hconcerns ⊢
    refine ⟨by simp only; omega, hsession, fun x hx => ?_, fun x hx => ?_, fun x hx => ?_,
      fun l exit hasked hpress => ?_⟩
    · simp only at hx
      by_cases hlt : x < s.lba
      · exact h.stays_passed (hconcerns x) hlt fun _ => hdecides.keeps
      · refine .inl (.inl (verifiedLast_new (Nat.le_of_not_lt hlt) hx fun result hmem => ?_))
        have heq := patched_mem hmem
        omega
    · exact h.stays_unseen hconcerns (by simp) (by simp only; omega) hx
    · exact h.fresh_patched hx fun _ => hpatch
    · exact h.stays_lost hconcerns (hdecides.not_remapAll hmode hasked hpress) hpress (by simp only; omega)
  | @failed offset mode log hwait hverify hdecides hmode hpatch =>
    rw [notes_patched hwait hverify hdecides rfl] at hconcerns ⊢
    refine ⟨by simp only; omega, hsession, fun x hx => ?_, fun x hx => ?_, fun x hx => ?_,
      fun l exit hasked hpress => ?_⟩
    · simp only at hx
      by_cases hlt : x < s.lba
      · exact h.stays_passed (hconcerns x) hlt fun _ => hdecides.keeps
      · by_cases hbad : x = s.lba + offset
        · exact .inl (.inr (.inl ⟨r.patch, hpatch, by simp [hbad]⟩))
        · refine .inl (.inl (verifiedLast_new (Nat.le_of_not_lt hlt) (by omega) fun result hmem => ?_))
          have heq := patched_mem hmem
          omega
    · exact h.stays_unseen hconcerns (by simp) (by simp only; omega) hx
    · simp only at hx
      exact h.fresh_patched (by omega) fun heq => by omega
    · exact h.stays_lost hconcerns (hdecides.not_remapAll hmode hasked hpress) hpress (by simp only; omega)
  | @skipped offset mode log hwait hverify hdecides hmode =>
    rw [notes_skipped hwait hverify hdecides rfl] at hconcerns ⊢
    refine ⟨by simp only; omega, hsession, fun x hx => ?_, fun x hx => ?_, fun x hx => ?_,
      fun l exit hasked hpress => ?_⟩
    · simp only at hx
      by_cases hlt : x < s.lba
      · exact h.stays_passed (hconcerns x) hlt fun _ => hdecides.keeps_log
      · by_cases hbad : x = s.lba + offset
        · obtain ⟨l, exit, hlast, hasked, hpress⟩ := hdecides.skips hmode h.session
          have hskipped : SkippedAfter (ns ++ [.good s.lba offset, .bad (s.lba + offset),
              .skipped (s.lba + offset) (lastAnswer log)]) x exit :=
            ⟨by simp [hbad], by simp [hbad, hlast]⟩
          rcases hpress with hpress | hpress
          · exact .inl (.inr (.inr ⟨exit, hskipped, .inr hpress⟩))
          · exact .inr (.inr ⟨l, exit, hskipped, hasked, hpress⟩)
        · exact .inl (.inl (verifiedLast_new (Nat.le_of_not_lt hlt) (by omega) (by simp)))
    · exact h.stays_unseen hconcerns (by simp) (by simp only; omega) hx
    · exact h.fresh_skipped hx
    · rcases hdecides.mem hasked with hold | ⟨rfl, -, -, hlast⟩
      · exact h.stays_lost hconcerns hold hpress (by simp only; omega)
      · -- The sector is skipped although all were to be patched.
        exact ⟨s.lba + offset, by simp only; omega, h.skipped_lost hlast hpress⟩

private theorem covers_start (T : Nat) : Covers T ⟨0, T, 0, false, .prompt, .FXIO_WAIT, []⟩ [] where
  space := Nat.zero_add T
  session := .start
  passed x hx := absurd hx (Nat.not_lt_zero x)
  unseen x hx := by
    obtain ⟨lba, count, hmem, -⟩ := hx
    cases hmem
  fresh x _ := by
    refine ⟨?_, ?_, fun choice => List.not_mem_nil⟩
    · rintro ⟨A, lba, count, B, heq, -⟩
      simp at heq
    · rintro ⟨result, -, hmem⟩
      cases hmem
  lost l exit hasked := absurd hasked List.not_mem_nil

theorem Head.covers (h : Head T rounds s result ns) (hT : T < 2 ^ 32) : Covers T s ns := by
  induction h with
  | start => exact covers_start T
  | pass h hmore hrange hround ih => exact ih.pass hT hrange hround

/-! ### Waiting for the device -/

/-- The sector at `l` was given to `PatchSector`, and the scan has not waited for the device since. -/
def Overwritten (T : Nat) (s : Scan) (ns : List Note) (l : Nat) : Prop :=
  s.blockMode = .FXIO_NOWAIT ∧
    ((∃ x, Unseen ns x) ∨ (s.lba = l ∧ l < T) ∨ (s.lba = l + 1 ∧ PatchFailed ns l))

/-- What the block mode tells at the head of the loop. -/
structure Waits (T : Nat) (s : Scan) (ns : List Note) : Prop where
  seen : s.blockMode = .FXIO_WAIT → ∀ x, ¬ Unseen ns x
  prompts : s.blockMode = .FXIO_WAIT → s.BadSectorHandlingMode ≠ .remapAll
  asked : ∀ l exit, .asked l exit ∈ s.log → Presses .skipAll exit ∨ Presses .remapAll exit ∨ Overwritten T s ns l
  unwaited : s.blockMode = .FXIO_NOWAIT → ∃ l exit, .asked l exit ∈ s.log ∧ ¬ Presses .skipAll exit ∧
    (PatchFailed ns l → l < s.lba)
  unseen : (∃ x, Unseen ns x) → ∃ l exit, .asked l exit ∈ s.log ∧ ¬ Presses .skipAll exit ∧ (PatchFailed ns l → l + 1 < T)

theorem Leaves.not_skipAll {exit : MenuExit} (h : Leaves exit) (hmode : answer exit = .remap ∨ answer exit = .remapAll) :
    ¬ Presses .skipAll exit := by
  intro hpress
  rcases h.overwrites hmode with hother | rfl | hother
  · cases hother.unique hpress
  · obtain ⟨item, hitem, -⟩ := hpress
    cases hitem
  · cases hother.unique hpress

theorem Waits.asks (h : Waits T s ns) (hsession : Session s.BadSectorHandlingMode s.log)
    (hwait : s.blockMode = .FXIO_WAIT) {bad : Nat} {mode : BadSectorHandlingModes} {log : List Event}
    (hdecides : Decides r s bad mode log) (hmode : mode = .remap ∨ mode = .remapAll) :
    ∃ exit, .asked bad exit ∈ log ∧ ¬ Presses .skipAll exit := by
  rcases hdecides.asked with ⟨-, exit, hleaves, rfl, rfl⟩ | ⟨rfl, -⟩
  · exact ⟨exit, List.mem_append_right _ (List.mem_singleton_self _), hleaves.not_skipAll hmode⟩
  · rcases hmode with hremap | hremapAll
    · rw [hremap] at hsession
      cases hsession
    · exact absurd hremapAll (h.prompts hwait)

theorem Waits.asked_before (h : Waits T s ns) (hwait : s.blockMode = .FXIO_WAIT) {l : Nat} {exit : MenuExit}
    (hasked : .asked l exit ∈ s.log) : Presses .skipAll exit ∨ Presses .remapAll exit := by
  rcases h.asked l exit hasked with hskip | hremap | ⟨hnowait, -⟩
  · exact .inl hskip
  · exact .inr hremap
  · rw [hwait] at hnowait
    cases hnowait

/-- A sector is given to `PatchSector`: the last question was about it. -/
theorem Waits.overwrites (h : Waits T s ns) (hsession : Session s.BadSectorHandlingMode s.log)
    (hwait : s.blockMode = .FXIO_WAIT) {bad : Nat} {mode : BadSectorHandlingModes} {log : List Event}
    (hdecides : Decides r s bad mode log) (hmode : mode = .remap ∨ mode = .remapAll)
    (hms : ∀ lba count, .unseen lba count ∉ ms) (hnowait : s'.blockMode = .FXIO_NOWAIT)
    (hlog : s'.log = log ++ [Event.patched bad]) (hover : Overwritten T s' (ns ++ ms) bad)
    (hfailed : PatchFailed (ns ++ ms) bad → bad < s'.lba) : Waits T s' (ns ++ ms) := by
  have hasked : ∀ {l : Nat} {exit : MenuExit}, .asked l exit ∈ s'.log → .asked l exit ∈ log := by
    intro l exit hmem
    rw [hlog] at hmem
    refine (List.mem_append.mp hmem).resolve_right fun hmem => ?_
    cases List.mem_singleton.mp hmem
  refine ⟨fun hwait' => ?_, fun hwait' => ?_, fun l exit hmem => ?_, fun _ => ?_, ?_⟩
  · rw [hnowait] at hwait'
    cases hwait'
  · rw [hnowait] at hwait'
    cases hwait'
  · rcases hdecides.mem (hasked hmem) with hold | ⟨rfl, -⟩
    · rcases h.asked_before hwait hold with hskip | hremap
      · exact .inl hskip
      · exact .inr (.inl hremap)
    · exact .inr (.inr hover)
  · obtain ⟨exit, hmem, hnot⟩ := h.asks hsession hwait hdecides hmode
    exact ⟨bad, exit, hlog ▸ List.mem_append_left _ hmem, hnot, hfailed⟩
  · rintro ⟨x, hx⟩
    exact absurd (hx.of_append hms) (h.seen hwait x)

/-- A pass after which the scan waits as before. -/
theorem Waits.stays (h : Waits T s ns) (hwait : s.blockMode = .FXIO_WAIT) (hwait' : s'.blockMode = .FXIO_WAIT)
    (hms : ∀ lba count, .unseen lba count ∉ ms) (hmode : s'.BadSectorHandlingMode ≠ .remapAll)
    (hasked : ∀ l exit, .asked l exit ∈ s'.log → .asked l exit ∈ s.log ∨ Presses .skipAll exit ∨ Presses .remapAll exit) :
    Waits T s' (ns ++ ms) := by
  have hseen : ∀ x, ¬ Unseen (ns ++ ms) x := fun x hx => h.seen hwait x (hx.of_append hms)
  refine ⟨fun _ => hseen, fun _ => hmode, fun l exit hmem => ?_, fun hnowait => ?_, ?_⟩
  · rcases hasked l exit hmem with hold | hpress | hpress
    · rcases h.asked_before hwait hold with hskip | hremap
      · exact .inl hskip
      · exact .inr (.inl hremap)
    · exact .inl hpress
    · exact .inr (.inl hpress)
  · rw [hwait'] at hnowait
    cases hnowait
  · rintro ⟨x, hx⟩
    exact absurd hx (hseen x)

theorem Waits.pass (h : Waits T s ns) (hcovers : Covers T s ns) (hT : T < 2 ^ 32) (hmore : s.SectorsRemaining ≠ 0)
    (hrange : r.verify ≤ (min s.SectorsRemaining 65536 : Nat)) (hround : s.round r = .inl s') :
    Waits T s' (ns ++ notes r s s') := by
  have hspace := hcovers.space
  have hpass : Pass r s s' := round_pass (by omega) hrange hround
  cases hpass with
  | clean hwait hverify =>
    rw [notes_good hwait hverify]
    exact h.stays hwait hwait (by simp) (h.prompts hwait) fun l exit hmem => .inl hmem
  | unseen hwait =>
    rw [notes_unseen hwait]
    have hnow : Unseen (ns ++ [.unseen s.lba (min s.SectorsRemaining 65536)]) s.lba :=
      ⟨s.lba, _, List.mem_append_right _ (List.mem_singleton_self _), le_rfl, by omega⟩
    have hfailed : ∀ {l : Nat}, PatchFailed (ns ++ [.unseen s.lba (min s.SectorsRemaining 65536)]) l → PatchFailed ns l :=
      fun hl => hl.of_append (by simp)
    obtain ⟨l, exit, hasked, hnot, hl⟩ := h.unwaited hwait
    refine ⟨fun hwait' => ?_, fun hwait' => ?_, fun l exit hmem => ?_, fun _ => ?_, fun _ => ?_⟩
    · cases hwait.symm.trans hwait'
    · cases hwait.symm.trans hwait'
    · rcases h.asked l exit hmem with hskip | hremap | -
      · exact .inl hskip
      · exact .inr (.inl hremap)
      · exact .inr (.inr ⟨hwait, .inl ⟨s.lba, hnow⟩⟩)
    · refine ⟨l, exit, hasked, hnot, fun hpf => ?_⟩
      have := hl (hfailed hpf)
      simp only
      omega
    · refine ⟨l, exit, hasked, hnot, fun hpf => ?_⟩
      have := hl (hfailed hpf)
      omega
  | @patched offset mode log hwait hverify hdecides hmode hpatch =>
    rw [notes_patched hwait hverify hdecides rfl]
    have hbad : ¬ PatchFailed (ns ++ [.good s.lba offset, .bad (s.lba + offset), .patched (s.lba + offset) r.patch])
        (s.lba + offset) := (hcovers.fresh_patched le_rfl fun _ => hpatch).2.1
    exact h.overwrites hcovers.session hwait hdecides hmode (by simp) rfl rfl
      ⟨rfl, .inr (.inl ⟨rfl, by omega⟩)⟩ fun hpf => absurd hpf hbad
  | @failed offset mode log hwait hverify hdecides hmode hpatch =>
    rw [notes_patched hwait hverify hdecides rfl]
    exact h.overwrites hcovers.session hwait hdecides hmode (by simp) rfl rfl
      ⟨rfl, .inr (.inr ⟨rfl, r.patch, hpatch, by simp⟩)⟩ fun _ => Nat.lt_succ_self _
  | @skipped offset mode log hwait hverify hdecides hmode =>
    rw [notes_skipped hwait hverify hdecides rfl]
    refine h.stays hwait rfl (by simp) ?_ fun l exit hmem => ?_
    · rcases hmode with rfl | rfl
      · simp [settled]
      · simp [settled]
    · rcases hdecides.mem hmem with hold | ⟨rfl, rfl, hleaves, -⟩
      · exact .inl hold
      · exact .inr (hmode.imp hleaves.presses_skipAll hleaves.presses_remapAll.mp)

/-- The sectors that were reported bad. -/
def badSectors (ns : List Note) : Finset Nat :=
  (ns.filterMap fun note =>
    match note with
    | .bad lba => some lba
    | _ => none).toFinset

theorem mem_badSectors : x ∈ badSectors ns ↔ .bad x ∈ ns := by
  simp only [badSectors, List.mem_toFinset, List.mem_filterMap]
  constructor
  · rintro ⟨note, hmem, hnote⟩
    split at hnote
    · rw [← Option.some.inj hnote]
      exact hmem
    · cases hnote
  · intro hmem
    exact ⟨_, hmem, rfl⟩

theorem badSectors_append (ms : List Note) (h : ∀ lba, .bad lba ∉ ms) : badSectors (ns ++ ms) = badSectors ns := by
  ext x
  simp only [mem_badSectors, List.mem_append]
  exact or_iff_left (h x)

theorem badSectors_bad (lba offset : Nat) (bad : Nat) (last : Note) (hlast : ∀ l, last ≠ .bad l) :
    badSectors (ns ++ [.good lba offset, .bad bad, last]) = insert bad (badSectors ns) := by
  ext x
  have hne : Note.bad x ≠ last := (hlast x).symm
  simp only [mem_badSectors, Finset.mem_insert, List.mem_append, List.mem_cons, reduceCtorEq, Note.bad.injEq, hne,
    List.not_mem_nil, or_false, false_or]
  exact or_comm

/-- What the counter says, and where the sectors that were reported bad are. A retry cycle begins only where nobody waits for the device any more. -/
structure Counts (s : Scan) (ns : List Note) : Prop where
  num : s.NumBadSectors = (badSectors ns).card
  passed : s.blockMode = .FXIO_WAIT → ∀ x ∈ badSectors ns, x < s.lba
  retry : s.blockMode = .FXIO_WAIT → s.IsRetryCycle = false

/-- A sector is reported bad: it is ahead of all that were reported, and is counted. -/
theorem Counts.bad (h : Counts s ns) (hwait : s.blockMode = .FXIO_WAIT) {offset : Nat} {last : Note}
    (hsize : s.lba + offset + 1 < 2 ^ 32) {s' : Scan} (hcount : s'.NumBadSectors = counted s)
    (hlba : s'.blockMode = .FXIO_WAIT → s'.lba = s.lba + offset + 1 ∧ s'.IsRetryCycle = s.IsRetryCycle)
    (hlast : ∀ lba, last ≠ .bad lba) : Counts s' (ns ++ [.good s.lba offset, .bad (s.lba + offset), last]) := by
  have hpassed := h.passed hwait
  have hcard : (badSectors ns).card ≤ s.lba := by
    refine (Finset.card_le_card fun x hx => ?_).trans (Finset.card_range _).le
    exact Finset.mem_range.mpr (hpassed x hx)
  have hnew : s.lba + offset ∉ badSectors ns := fun hmem => absurd (hpassed _ hmem) (by omega)
  refine ⟨?_, fun hwait' x hx => ?_, fun hwait' => (hlba hwait').2.trans (h.retry hwait)⟩
  · have hnum := h.num
    rw [badSectors_bad _ _ _ _ hlast, Finset.card_insert_of_notMem hnew, hcount, counted, h.retry hwait,
      if_neg Bool.false_ne_true, ← hnum]
    exact Nat.mod_eq_of_lt (by omega)
  · rw [badSectors_bad _ _ _ _ hlast] at hx
    have hnext := (hlba hwait').1
    rcases Finset.mem_insert.mp hx with rfl | hx
    · omega
    · have := hpassed x hx
      omega

theorem Head.counts (h : Head T rounds s result ns) (hT : T < 2 ^ 32) : Counts s ns := by
  induction h with
  | start => exact ⟨rfl, fun _ => by simp [badSectors], fun _ => rfl⟩
  | @pass rounds r s s' result ns h hmore hrange hround ih =>
    have hspace := (h.covers hT).space
    have hpass : Pass r s s' := round_pass (by omega) hrange hround
    cases hpass with
    | clean hwait hverify =>
      rw [notes_good hwait hverify]
      have hsame : badSectors (ns ++ [.good s.lba (min s.SectorsRemaining 65536)]) = badSectors ns :=
        badSectors_append _ (by simp)
      refine ⟨hsame ▸ ih.num, fun _ x hx => ?_, fun _ => rfl⟩
      have := ih.passed hwait x (hsame ▸ hx)
      simp only
      omega
    | unseen hwait =>
      rw [notes_unseen hwait]
      have hsame : badSectors (ns ++ [.unseen s.lba (min s.SectorsRemaining 65536)]) = badSectors ns :=
        badSectors_append _ (by simp)
      refine ⟨hsame ▸ ih.num, fun hwait' => ?_, fun _ => rfl⟩
      cases hwait.symm.trans hwait'
    | patched hwait hverify hdecides hmode hpatch =>
      rw [notes_patched hwait hverify hdecides rfl]
      exact ih.bad hwait (by omega) rfl nofun (by simp)
    | failed hwait hverify hdecides hmode hpatch =>
      rw [notes_patched hwait hverify hdecides rfl]
      exact ih.bad hwait (by omega) rfl nofun (by simp)
    | skipped hwait hverify hdecides hmode =>
      rw [notes_skipped hwait hverify hdecides rfl]
      exact ih.bad hwait (by omega) rfl (fun _ => ⟨rfl, rfl⟩) (by simp)

end HddChecker.Hdst
