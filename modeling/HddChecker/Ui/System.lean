import Mathlib.Data.List.Perm.Basic
import HddChecker.Apa.Format

/-!
# Scanning and optimizing a disk

`ScanDisk` and `OptimizeDisk` of `system.c` with the functions for their two phases. What the disk answers and what the user does in one invocation is given with it; three static variables outlive it.
-/

namespace HddChecker.Ui

open HddChecker Apa

abbrev APA_TYPE_PFS : Nat := 0x0100

/-- `UserAborted`, `ErrorsFound` and `ErrorsFixed` -/
structure Statics where
  UserAborted : Bool
  ErrorsFound : Nat
  ErrorsFixed : Nat
  deriving DecidableEq

/-- The static variables when the program starts. -/
def Statics.boot : Statics := ⟨false, 0, 0⟩

/-- An entry of the partition table, and what the driver answers in a session with it. -/
structure Entry where
  /-- `dirent.stat.attr & APA_FLAG_SUB` -/
  sub : Bool
  mode : Nat
  /-- `fileXioOpen` -/
  fd : Int
  start : Int
  /-- for each time the driver is found at work: the user confirms an abort -/
  polls : List Bool
  getStatus : Int
  errorCount : Nat
  fixedErrorCount : Nat
  /-- `hasError` of `struct fsskStatus` -/
  hasError : Int
  deriving DecidableEq

/-- What the device `hdd0:` answers to the two passes over its partitions. -/
structure Table where
  /-- `fileXioDopen` of the pass that counts -/
  counting : Int
  /-- `fileXioDopen` of the pass that opens them -/
  bfd : Int
  entries : List Entry

def Entry.isMainPfs (e : Entry) : Bool := !e.sub && e.mode == APA_TYPE_PFS

/-- The polling loops of `FsckDisk` and `FsskDisk`: whether the user aborts. -/
def pollLoop : List Bool → Bool
  | [] => false
  | abort :: polls => if abort then true else pollLoop polls

/-- What is left of the loops over the partitions: their result, and how many were worked on. -/
structure Progress where
  result : Int
  partitions : Nat
  deriving DecidableEq

/-- The loop of `FsckDisk` over the partitions. -/
def fsckLoop : List Entry → Progress → Statics → Progress × Statics
  | [], p, s => (p, s)
  | e :: es, p, s =>
    if e.isMainPfs then
      if 0 ≤ e.fd then
        if e.start ≠ 0 then (⟨e.start, p.partitions + 1⟩, s)
        else
          let s := if pollLoop e.polls then { s with UserAborted := true } else s
          if e.getStatus ≠ 0 ∨ s.UserAborted = true then (⟨e.getStatus, p.partitions + 1⟩, s)
          else
            fsckLoop es ⟨0, p.partitions + 1⟩ { s with
              ErrorsFound := u32 (s.ErrorsFound + e.errorCount)
              ErrorsFixed := u32 (s.ErrorsFixed + e.fixedErrorCount) }
      else
        -- the rest of the disk is checked all the same
        fsckLoop es ⟨e.fd, p.partitions + 1⟩ { s with ErrorsFound := u32 (s.ErrorsFound + 1) }
    else fsckLoop es p s

/-- The loop of `FsskDisk` over the partitions. -/
def fsskLoop : List Entry → Progress → Statics → Progress × Statics
  | [], p, s => (p, s)
  | e :: es, p, s =>
    if e.isMainPfs then
      if 0 ≤ e.fd then
        if e.start ≠ 0 then (⟨e.start, p.partitions + 1⟩, s)
        else
          let s := if pollLoop e.polls then { s with UserAborted := true } else s
          if e.getStatus ≠ 0 then (⟨e.getStatus, p.partitions + 1⟩, s)
          else if e.hasError ≠ 0 ∨ s.UserAborted = true then (⟨e.hasError, p.partitions + 1⟩, s)
          else fsskLoop es ⟨0, p.partitions + 1⟩ s
      else fsskLoop es ⟨e.fd, p.partitions + 1⟩ s
    else fsskLoop es p s

/-- `FsckDisk` and `FsskDisk` around their loop. -/
def diskPhase (loop : List Entry → Progress → Statics → Progress × Statics) (t : Table) (s : Statics) :
    Progress × Statics :=
  let partitions := if 0 ≤ t.counting then t.entries.length else 0
  if partitions < 1 then (⟨0, 0⟩, s)
  else if 0 ≤ t.bfd then loop t.entries ⟨0, 0⟩ s
  else (⟨t.bfd, 0⟩, s)

def FsckDisk (t : Table) (s : Statics) : Progress × Statics := diskPhase fsckLoop t s

def FsskDisk (t : Table) (s : Statics) : Progress × Statics := diskPhase fsskLoop t s

/-- What the device `hdsk0:` answers. -/
structure Hdsk where
  /-- `HDSK_DEVCTL_GET_HDD_STAT` -/
  getStat : Int
  total : Nat
  start : Int
  /-- for each time the thread is found at work: the user confirms an abort, or a status is read -/
  polls : List (Bool × Int)

/-- The polling loop of `HdskDisk`. -/
def hdskLoop : List (Bool × Int) → Statics → Int × Statics
  | [], s => (0, s)
  | (abort, status) :: polls, s =>
    if abort then (0, { s with UserAborted := true })
    else if status ≠ 0 ∨ s.UserAborted = true then (status, s)
    else hdskLoop polls s

def HdskDisk (h : Hdsk) (s : Statics) : Int × Statics :=
  if 0 ≤ h.getStat then
    if 0 < h.total then
      if h.start = 0 then hdskLoop h.polls s else (h.start, s)
    else (h.getStat, s)
  else (h.getStat, s)

/-- What the user is told in the end. -/
inductive Message where
  | HDD_FAULT
  | scanResults (ErrorsFound ErrorsFixed : Nat)
  | OPT_DISK_COMPLETED_OK
  deriving DecidableEq

/-- What an invocation did: how many partitions it worked on, whether it came to its second phase, what it told the user, and its result. -/
structure Report where
  partitions : Nat
  second : Bool
  message : Option Message
  result : Int
  deriving DecidableEq

/-- The message of an invocation, where nobody aborted. -/
def conclude (result : Int) (s : Statics) (completed : Message) : Option Message :=
  if result = 0 then if s.UserAborted then none else some completed else some .HDD_FAULT

/-- `ScanDisk`, where `HdckDisk` answers `hdck`. -/
def ScanDisk (hdck : Int) (t : Table) (s : Statics) : Report × Statics :=
  let s := { s with ErrorsFound := 0, ErrorsFixed := 0 }
  if hdck = 0 ∧ s.UserAborted = false then
    let (p, s) := FsckDisk t s
    (⟨p.partitions, true, conclude p.result s (.scanResults s.ErrorsFound s.ErrorsFixed), p.result⟩, s)
  else (⟨0, false, conclude hdck s (.scanResults s.ErrorsFound s.ErrorsFixed), hdck⟩, s)

def OptimizeDisk (t : Table) (h : Hdsk) (s : Statics) : Report × Statics :=
  let (p, s) := FsskDisk t s
  if p.result = 0 ∧ s.UserAborted = false then
    let (result, s) := HdskDisk h s
    (⟨p.partitions, true, conclude result s .OPT_DISK_COMPLETED_OK, result⟩, s)
  else (⟨p.partitions, false, conclude p.result s .OPT_DISK_COMPLETED_OK, p.result⟩, s)

/-! ### The order of the partitions -/

variable {t : Table} {es es' : List Entry} {e : Entry} {p : Progress} {s s' : Statics}

/-- Nobody aborts a session with the partition, and the driver starts and answers for its status. -/
def Entry.Plain (e : Entry) : Prop :=
  e.isMainPfs = true → 0 ≤ e.fd → true ∉ e.polls ∧ e.start = 0 ∧ e.getStatus = 0

theorem pollLoop_eq_false {polls : List Bool} (h : true ∉ polls) : pollLoop polls = false := by
  induction polls with
  | nil => rfl
  | cons abort polls ih =>
    rw [List.mem_cons, not_or] at h
    cases abort with
    | true => exact (h.1 rfl).elim
    | false => exact ih h.2

def account (s : Statics) (e : Entry) : Statics :=
  if e.isMainPfs then
    if 0 ≤ e.fd then
      { s with
        ErrorsFound := u32 (s.ErrorsFound + e.errorCount)
        ErrorsFixed := u32 (s.ErrorsFixed + e.fixedErrorCount) }
    else { s with ErrorsFound := u32 (s.ErrorsFound + 1) }
  else s

/-- The result so far, after one partition. -/
def overwrite (result : Int) (e : Entry) : Int :=
  if e.isMainPfs then if 0 ≤ e.fd then 0 else e.fd else result

private theorem account_aborted (s : Statics) (e : Entry) : (account s e).UserAborted = s.UserAborted := by
  unfold account
  split
  · split <;> rfl
  · rfl

private theorem fsckLoop_cons (es : List Entry) (he : e.Plain) (hs : s.UserAborted = false) (p : Progress) :
    ∃ n, fsckLoop (e :: es) p s = fsckLoop es ⟨overwrite p.result e, n⟩ (account s e) := by
  by_cases hmain : e.isMainPfs = true
  · by_cases hfd : 0 ≤ e.fd
    · obtain ⟨hpolls, hstart, hgetStatus⟩ := he hmain hfd
      refine ⟨p.partitions + 1, ?_⟩
      simp [fsckLoop, hmain, hfd, hstart, hgetStatus, pollLoop_eq_false hpolls, hs, overwrite, account]
    · refine ⟨p.partitions + 1, ?_⟩
      simp [fsckLoop, hmain, hfd, overwrite, account]
  · exact ⟨p.partitions, by simp [fsckLoop, hmain, overwrite, account]⟩

private theorem fsckLoop_plain (hplain : ∀ e ∈ es, e.Plain) (hs : s.UserAborted = false) (p : Progress) :
    (fsckLoop es p s).1.result = es.foldl overwrite p.result ∧
      (fsckLoop es p s).2 = es.foldl account s := by
  induction es generalizing p s with
  | nil => exact ⟨rfl, rfl⟩
  | cons e es ih =>
    obtain ⟨he, hes⟩ := List.forall_mem_cons.mp hplain
    obtain ⟨n, hstep⟩ := fsckLoop_cons es he hs p
    rw [hstep, List.foldl_cons, List.foldl_cons]
    exact ih hes ((account_aborted s e).trans hs) _

theorem u32_add_u32 (a b c : Nat) : u32 (u32 (a + b) + c) = u32 (u32 (a + c) + b) := by
  simp only [u32]
  omega

instance : RightCommutative account where
  right_comm s e e' := by
    unfold account
    repeat' split
    all_goals simp only [Statics.mk.injEq, true_and, and_true]
    all_goals first | exact u32_add_u32 _ _ _ | exact ⟨u32_add_u32 _ _ _, u32_add_u32 _ _ _⟩

private theorem account_perm (h : es.Perm es') (s : Statics) : es.foldl account s = es'.foldl account s :=
  h.foldl_eq s

/-- All partitions that are checked can be opened, or none can. -/
def Uniform (es : List Entry) : Prop :=
  (∀ e ∈ es, e.isMainPfs = true → 0 ≤ e.fd) ∨ ∀ e ∈ es, e.isMainPfs = true → e.fd < 0

theorem overwrite_opens (h : ∀ e ∈ es, e.isMainPfs = true → 0 ≤ e.fd) :
    es.foldl overwrite 0 = 0 := by
  induction es with
  | nil => rfl
  | cons e es ih =>
    obtain ⟨he, hes⟩ := List.forall_mem_cons.mp h
    have hstep : overwrite 0 e = 0 := by
      unfold overwrite
      split
      · rw [if_pos (he ‹_›)]
      · rfl
    rw [List.foldl_cons, hstep, ih hes]

/-- A result behind which no partition opens is 0 only where it was and nothing was checked. -/
theorem overwrite_fails {result : Int} (h : ∀ e ∈ es, e.isMainPfs = true → e.fd < 0) :
    es.foldl overwrite result = 0 ↔ result = 0 ∧ ∀ e ∈ es, e.isMainPfs = false := by
  induction es generalizing result with
  | nil => simp
  | cons e es ih =>
    obtain ⟨he, hes⟩ := List.forall_mem_cons.mp h
    rw [List.foldl_cons, ih hes]
    cases hmain : e.isMainPfs with
    | false => simp [overwrite, hmain]
    | true =>
      have hfd := he hmain
      simp only [overwrite, hmain, if_true, List.forall_mem_cons, Bool.true_eq_false, false_and,
        and_false, iff_false, not_and]
      rw [if_neg (by omega)]
      omega

theorem overwrite_last (e : Entry) (result : Int) :
    (es ++ [e]).foldl overwrite result = overwrite (es.foldl overwrite result) e := by
  rw [List.foldl_append]
  rfl

theorem perm_last (h : e ∈ es) : ∃ rest, es.Perm (rest ++ [e]) := by
  obtain ⟨A, B, rfl⟩ := List.append_of_mem h
  refine ⟨A ++ B, ?_⟩
  have hlast : (e :: B).Perm (B ++ [e]) := (List.perm_append_singleton e B).symm
  rw [List.append_assoc]
  exact hlast.append_left A

/-- Success or failure of `FsckDisk`, and the errors it leaves behind. -/
def verdict (r : Progress × Statics) : Bool × Nat × Nat :=
  (r.1.result == 0, r.2.ErrorsFound, r.2.ErrorsFixed)

private theorem verdict_plain (hplain : ∀ e ∈ es, e.Plain) (hs : s.UserAborted = false)
    (hcounting : 0 ≤ t.counting) (hbfd : 0 ≤ t.bfd) :
    verdict (FsckDisk { t with entries := es } s) =
      (es.foldl overwrite 0 == 0, (es.foldl account s).ErrorsFound,
        (es.foldl account s).ErrorsFixed) := by
  obtain ⟨hresult, hstatics⟩ := fsckLoop_plain hplain hs ⟨0, 0⟩
  unfold FsckDisk diskPhase
  rw [if_pos hcounting, if_pos hbfd]
  by_cases hempty : es.length < 1
  · obtain rfl : es = [] := List.length_eq_zero_iff.mp (by omega)
    rfl
  · rw [if_neg hempty]
    simp only [verdict, hresult, hstatics]

/-- The verdict of a scan without an abort is the same for every order of the partitions exactly if all that are checked can be opened or none can, or the table cannot be read. -/
theorem FsckDisk_order_iff (t : Table) (s : Statics) (hplain : ∀ e ∈ t.entries, e.Plain)
    (hs : s.UserAborted = false) :
    (∀ es, es.Perm t.entries →
      verdict (FsckDisk { t with entries := es } s) = verdict (FsckDisk t s)) ↔
      t.counting < 0 ∨ t.bfd < 0 ∨ Uniform t.entries := by
  have hverdict : 0 ≤ t.counting → 0 ≤ t.bfd → ∀ es, es.Perm t.entries →
      verdict (FsckDisk { t with entries := es } s) =
        (es.foldl overwrite 0 == 0, (t.entries.foldl account s).ErrorsFound,
          (t.entries.foldl account s).ErrorsFixed) := by
    intro hcounting hbfd es hperm
    rw [verdict_plain (fun e he => hplain e (hperm.mem_iff.mp he)) hs hcounting hbfd,
      account_perm hperm]
  constructor
  · intro hsame
    by_contra hcon
    obtain ⟨hcounting, hbfd, huniform⟩ : 0 ≤ t.counting ∧ 0 ≤ t.bfd ∧ ¬ Uniform t.entries := by
      simpa using hcon
    simp only [Uniform, not_or, not_forall] at huniform
    obtain ⟨⟨e, he, hmain, hfails⟩, e', he', hmain', hopens⟩ := huniform
    -- once the partition that opens is the last one, once the one that does not
    obtain ⟨rest, hperm⟩ := perm_last he
    obtain ⟨rest', hperm'⟩ := perm_last he'
    have hlast := (hsame _ hperm.symm).trans (hsame _ hperm'.symm).symm
    rw [hverdict hcounting hbfd _ hperm.symm, hverdict hcounting hbfd _ hperm'.symm,
      overwrite_last, overwrite_last] at hlast
    simp only [overwrite, hmain, hmain', if_true, if_neg hfails, if_pos (not_lt.mp hopens),
      Prod.mk.injEq, beq_self_eq_true, and_true, beq_iff_eq] at hlast
    omega
  · intro hcond es hperm
    by_cases hcounting : 0 ≤ t.counting
    · by_cases hbfd : 0 ≤ t.bfd
      · have huniform : Uniform t.entries := by
          rcases hcond with h | h | h
          · omega
          · omega
          · exact h
        have hself := hverdict hcounting hbfd t.entries (List.Perm.refl _)
        rw [hverdict hcounting hbfd es hperm]
        refine Eq.trans ?_ hself.symm
        have hresult : (es.foldl overwrite 0 == 0) = (t.entries.foldl overwrite 0 == 0) := by
          rcases huniform with hopens | hfails
          · rw [overwrite_opens hopens,
              overwrite_opens fun e he => hopens e (hperm.mem_iff.mp he)]
          · rw [Bool.eq_iff_iff, beq_iff_eq, beq_iff_eq, overwrite_fails hfails,
              overwrite_fails fun e he => hfails e (hperm.mem_iff.mp he)]
            simp only [hperm.mem_iff]
        rw [hresult]
      · unfold FsckDisk diskPhase
        simp only [if_neg hbfd, hperm.length_eq]
    · unfold FsckDisk diskPhase
      simp only [if_neg hcounting, Nat.zero_lt_one, if_true]

/-- A partition of a filesystem that can be opened, with two errors, one without any, and one that cannot be opened. -/
def goodEntry : Entry := ⟨false, APA_TYPE_PFS, 3, 0, [false], 0, 2, 2, 0⟩

def soundEntry : Entry := ⟨false, APA_TYPE_PFS, 3, 0, [], 0, 0, 0, 0⟩

def badEntry : Entry := ⟨false, APA_TYPE_PFS, -5, 0, [], 0, 0, 0, 0⟩

theorem goodEntry_plain : goodEntry.Plain := fun _ _ => ⟨by decide, rfl, rfl⟩

private theorem soundEntry_plain : soundEntry.Plain := fun _ _ => ⟨by decide, rfl, rfl⟩

private theorem badEntry_plain : badEntry.Plain := fun _ _ => ⟨by decide, rfl, rfl⟩

theorem FsckDisk_order_iff_opens :
    verdict (FsckDisk ⟨3, 3, [soundEntry, goodEntry]⟩ .boot) =
      verdict (FsckDisk ⟨3, 3, [goodEntry, soundEntry]⟩ .boot) := by
  have hplain : ∀ e ∈ [goodEntry, soundEntry], e.Plain := by
    simpa using ⟨goodEntry_plain, soundEntry_plain⟩
  have huniform : Uniform [goodEntry, soundEntry] := .inl (by decide)
  exact (FsckDisk_order_iff ⟨3, 3, [goodEntry, soundEntry]⟩ .boot hplain rfl).mpr
    (.inr (.inr huniform)) _ (.swap _ _ _)

/-- Where the partition that cannot be opened is listed last the scan fails, and otherwise it does not. -/
theorem FsckDisk_order :
    ¬ ∀ (t : Table) (s : Statics) (es : List Entry), (∀ e ∈ t.entries, e.Plain) →
      s.UserAborted = false → es.Perm t.entries →
      verdict (FsckDisk { t with entries := es } s) = verdict (FsckDisk t s) := by
  intro h
  have hplain : ∀ e ∈ [goodEntry, badEntry], e.Plain := by
    simpa using ⟨goodEntry_plain, badEntry_plain⟩
  have hsame := h ⟨3, 3, [goodEntry, badEntry]⟩ .boot [badEntry, goodEntry] hplain rfl
    (List.Perm.swap _ _ _)
  have hlast : verdict (FsckDisk ⟨3, 3, [goodEntry, badEntry]⟩ .boot) = (false, 3, 2) := by decide
  have hfirst : verdict (FsckDisk ⟨3, 3, [badEntry, goodEntry]⟩ .boot) = (true, 3, 2) := by decide
  rw [hlast, hfirst] at hsame
  cases hsame

/-! ### Several invocations -/

/-- An invocation with what the disk answers and what the user does in it. -/
inductive Invocation where
  | ScanDisk (hdck : Int) (t : Table)
  | OptimizeDisk (t : Table) (h : Hdsk)

/-- What an invocation does with the static variables it finds. -/
def Invocation.run : Invocation → Statics → Report × Statics
  | .ScanDisk hdck t, s => Ui.ScanDisk hdck t s
  | .OptimizeDisk t h, s => Ui.OptimizeDisk t h s

/-- The static variables behind some invocations. -/
def afterwards (is : List Invocation) : Statics := is.foldl (fun s i => (i.run s).2) .boot

/-- The user confirms no abort while an invocation runs. -/
def Invocation.Undisturbed : Invocation → Prop
  | .ScanDisk _ t => ∀ e ∈ t.entries, true ∉ e.polls
  | .OptimizeDisk t h => (∀ e ∈ t.entries, true ∉ e.polls) ∧ ∀ x ∈ h.polls, x.1 = false

private theorem fsckLoop_aborted (h : ∀ e ∈ es, true ∉ e.polls) (p : Progress) (s : Statics) :
    (fsckLoop es p s).2.UserAborted = s.UserAborted := by
  induction es generalizing p s with
  | nil => rfl
  | cons e es ih =>
    obtain ⟨he, hes⟩ := List.forall_mem_cons.mp h
    simp only [fsckLoop, pollLoop_eq_false he, Bool.false_eq_true, if_false]
    repeat' split
    all_goals first | rfl | exact ih hes _ _

private theorem fsskLoop_aborted (h : ∀ e ∈ es, true ∉ e.polls) (p : Progress) (s : Statics) :
    (fsskLoop es p s).2.UserAborted = s.UserAborted := by
  induction es generalizing p s with
  | nil => rfl
  | cons e es ih =>
    obtain ⟨he, hes⟩ := List.forall_mem_cons.mp h
    simp only [fsskLoop, pollLoop_eq_false he, Bool.false_eq_true, if_false]
    repeat' split
    all_goals first | rfl | exact ih hes _ _

private theorem hdskLoop_aborted {polls : List (Bool × Int)} (h : ∀ x ∈ polls, x.1 = false) (s : Statics) :
    (hdskLoop polls s).2 = s := by
  induction polls with
  | nil => rfl
  | cons x polls ih =>
    obtain ⟨hx, hpolls⟩ := List.forall_mem_cons.mp h
    obtain ⟨abort, status⟩ := x
    obtain rfl : abort = false := hx
    simp only [hdskLoop, Bool.false_eq_true, if_false]
    split
    · rfl
    · exact ih hpolls

theorem diskPhase_spec {loop : List Entry → Progress → Statics → Progress × Statics}
    {P : Progress × Statics → Prop} (hnone : ∀ result, P (⟨result, 0⟩, s))
    (hloop : P (loop t.entries ⟨0, 0⟩ s)) : P (diskPhase loop t s) := by
  unfold diskPhase
  by_cases hempty : (if 0 ≤ t.counting then t.entries.length else 0) < 1
  · rw [if_pos hempty]
    exact hnone 0
  · rw [if_neg hempty]
    split
    · exact hloop
    · exact hnone t.bfd

private theorem HdskDisk_aborted {h : Hdsk} (hpolls : ∀ x ∈ h.polls, x.1 = false) (s : Statics) :
    (HdskDisk h s).2 = s := by
  unfold HdskDisk
  repeat' split
  all_goals first | rfl | exact hdskLoop_aborted hpolls s

/-- An invocation in which nobody aborts leaves `UserAborted` as it is. -/
theorem Invocation.Undisturbed.aborted {i : Invocation} (h : i.Undisturbed) (s : Statics) :
    (i.run s).2.UserAborted = s.UserAborted := by
  cases i with
  | ScanDisk hdck t =>
    have hphase : (FsckDisk t { s with ErrorsFound := 0, ErrorsFixed := 0 }).2.UserAborted =
        s.UserAborted :=
      diskPhase_spec (P := fun r => r.2.UserAborted = s.UserAborted) (fun _ => rfl)
        (fsckLoop_aborted h _ _)
    simp only [Invocation.run, Ui.ScanDisk]
    split
    · exact hphase
    · rfl
  | OptimizeDisk t hdsk =>
    have hphase : (FsskDisk t s).2.UserAborted = s.UserAborted :=
      diskPhase_spec (P := fun r => r.2.UserAborted = s.UserAborted) (fun _ => rfl)
        (fsskLoop_aborted h.1 _ _)
    simp only [Invocation.run, Ui.OptimizeDisk]
    split
    · rw [HdskDisk_aborted h.2]
      exact hphase
    · exact hphase

/-- The same static variables with other errors. -/
def Statics.withErrors (a b : Nat) (s : Statics) : Statics :=
  { s with ErrorsFound := a, ErrorsFixed := b }

/-- The loop of `FsskDisk` neither looks at the errors nor touches them. -/
private theorem fsskLoop_withErrors (a b : Nat) (p : Progress) (s : Statics) :
    fsskLoop es p (s.withErrors a b) =
      ((fsskLoop es p s).1, (fsskLoop es p s).2.withErrors a b) := by
  induction es generalizing p s with
  | nil => rfl
  | cons e es ih =>
    cases habort : pollLoop e.polls with
    | true =>
      have hih := fun p => ih p { s with UserAborted := true }
      simp only [fsskLoop, habort, if_true]
      repeat' split
      all_goals first | rfl | exact hih _ | exact ih _ _
    | false =>
      simp only [fsskLoop, habort, Bool.false_eq_true, if_false]
      repeat' split
      all_goals first | rfl | exact ih _ _ | contradiction

private theorem FsskDisk_withErrors (t : Table) (a b : Nat) (s : Statics) :
    FsskDisk t (s.withErrors a b) = ((FsskDisk t s).1, (FsskDisk t s).2.withErrors a b) := by
  unfold FsskDisk diskPhase
  by_cases hempty : (if 0 ≤ t.counting then t.entries.length else 0) < 1
  · rw [if_pos hempty, if_pos hempty]
  · rw [if_neg hempty, if_neg hempty, fsskLoop_withErrors]
    split <;> rfl

private theorem hdskLoop_withErrors (polls : List (Bool × Int)) (a b : Nat) (s : Statics) :
    hdskLoop polls (s.withErrors a b) =
      ((hdskLoop polls s).1, (hdskLoop polls s).2.withErrors a b) := by
  induction polls with
  | nil => rfl
  | cons x polls ih =>
    obtain ⟨abort, status⟩ := x
    simp only [hdskLoop]
    repeat' split
    all_goals first | rfl | exact ih | contradiction

private theorem HdskDisk_withErrors (h : Hdsk) (a b : Nat) (s : Statics) :
    HdskDisk h (s.withErrors a b) = ((HdskDisk h s).1, (HdskDisk h s).2.withErrors a b) := by
  unfold HdskDisk
  rw [hdskLoop_withErrors]
  repeat' split
  all_goals rfl

theorem Invocation.run_congr (i : Invocation) (h : s.UserAborted = s'.UserAborted) :
    (i.run s).1 = (i.run s').1 := by
  have hs : s = s'.withErrors s.ErrorsFound s.ErrorsFixed := by
    cases s
    simp_all [Statics.withErrors]
  rw [hs]
  cases i with
  | ScanDisk hdck t => rfl
  | OptimizeDisk t hdsk =>
    simp only [Invocation.run, Ui.OptimizeDisk, FsskDisk_withErrors, HdskDisk_withErrors]
    have hsame : ((FsskDisk t s').2.withErrors s.ErrorsFound s.ErrorsFixed).UserAborted =
        (FsskDisk t s').2.UserAborted := rfl
    rw [hsame]
    split <;> rfl

private theorem fsskLoop_stays (h : s.UserAborted = true) (p : Progress) :
    (fsskLoop es p s).2.UserAborted = true := by
  induction es generalizing p s with
  | nil => exact h
  | cons e es ih =>
    have hs : (if pollLoop e.polls = true then { s with UserAborted := true } else s) = s := by
      cases s
      simp_all
    simp only [fsskLoop, hs]
    repeat' split
    all_goals first | exact h | exact ih h _

theorem Invocation.run_aborted (i : Invocation) (h : s.UserAborted = true) :
    (i.run s).1.second = false := by
  cases i with
  | ScanDisk hdck t => simp [Invocation.run, Ui.ScanDisk, h]
  | OptimizeDisk t hdsk =>
    have hphase : (FsskDisk t s).2.UserAborted = true :=
      diskPhase_spec (P := fun r => r.2.UserAborted = true) (fun _ => h) (fsskLoop_stays h _)
    simp [Invocation.run, Ui.OptimizeDisk, hphase]

private theorem afterwards_aborted {is : List Invocation} (h : ∀ i ∈ is, i.Undisturbed) :
    (afterwards is).UserAborted = false := by
  have hfold : ∀ s : Statics, s.UserAborted = false →
      (is.foldl (fun s i => (i.run s).2) s).UserAborted = false := by
    induction is with
    | nil => exact fun s hs => hs
    | cons i is ih =>
      obtain ⟨hi, his⟩ := List.forall_mem_cons.mp h
      exact fun s hs => ih his _ ((hi.aborted s).trans hs)
  exact hfold .boot rfl

/-- Behind invocations that nobody aborted an invocation does what it would have done as the first one. Once `UserAborted` is set it never again does so where that includes its second phase. -/
theorem Invocation.run_independent (is : List Invocation) (i : Invocation) :
    ((∀ j ∈ is, j.Undisturbed) → (i.run (afterwards is)).1 = (i.run .boot).1) ∧
    ((afterwards is).UserAborted = true → (i.run .boot).1.second = true →
      (i.run (afterwards is)).1 ≠ (i.run .boot).1) := by
  refine ⟨fun h => i.run_congr (afterwards_aborted h), fun haborted hsecond heq => ?_⟩
  have hnone := i.run_aborted haborted
  rw [heq, hsecond] at hnone
  cases hnone

/-- A scan that the user aborts while its only partition is checked. -/
def abortedScan : Invocation := .ScanDisk 0 ⟨3, 3, [⟨false, APA_TYPE_PFS, 3, 0, [true], 0, 0, 0, 0⟩]⟩

/-- The same scan, where the user lets it run. -/
def quietScan : Invocation := .ScanDisk 0 ⟨3, 3, [⟨false, APA_TYPE_PFS, 3, 0, [false], 0, 0, 0, 0⟩]⟩

theorem Invocation.run_independent_quiet :
    (quietScan.run (afterwards [quietScan, quietScan])).1 = (quietScan.run .boot).1 := by
  refine (Invocation.run_independent [quietScan, quietScan] quietScan).1 ?_
  simp [quietScan, Invocation.Undisturbed]

/-- Behind the aborted scan the other one checks nothing and says nothing. -/
theorem Invocation.run_dependent :
    ¬ ∀ (is : List Invocation) (i : Invocation), (i.run (afterwards is)).1 = (i.run .boot).1 := by
  intro h
  have hsame := h [abortedScan] quietScan
  have hafter : (quietScan.run (afterwards [abortedScan])).1 = ⟨0, false, none, 0⟩ := by decide
  have hfirst : (quietScan.run .boot).1 = ⟨1, true, some (.scanResults 0 0), 0⟩ := by decide
  rw [hafter, hfirst] at hsame
  cases hsame

end HddChecker.Ui
