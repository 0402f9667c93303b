import Mathlib.Data.List.Basic

/-!
# The front end and the worker

`FsckDisk` and `FsskDisk` check the partitions of a disk one by one: they open the partition through the driver, start the driver's worker thread, poll until it is done or the user aborts, ask for the status and close. Each of them loads its driver anew, so that a session starts with a dormant worker and a clear event flag. The worker runs beside the front end and ends by setting the event flag; the log tells in which order a worker was started, the flag was set and a file was closed.
-/

namespace HddChecker.Fsck

/-- The driver in use, and with it the front end. -/
inductive Tool where
  | fsck
  | fssk
  deriving DecidableEq, Repr

/-- The worker thread: the file it was started for, while it runs and after it has set the event flag. -/
inductive Worker where
  | dormant
  | running (file : Nat)
  | ending (file : Nat)
  deriving DecidableEq, Repr

/-- What happened between the two parties. -/
inductive Event where
  | started (file : Nat)
  | signalled (file : Nat)
  | closed (file : Nat)
  deriving DecidableEq, Repr

/-- What the driver keeps. Files are numbered in the order they are opened. -/
structure Driver where
  opened : Nat
  /-- the file whose partition `MainPFSMount` holds -/
  MainPFSMount : Option Nat
  stopFlag : Bool
  hasError : Bool
  EventFlag : Bool
  thread : Worker
  log : List Event
  deriving DecidableEq, Repr

/-- `enum FSCK_IOCTL2_CMD`, as far as the front ends use it. -/
inductive Command where
  | START
  | POLL
  | GET_STATUS
  | STOP
  deriving DecidableEq, Repr

abbrev KE_NOT_DORMANT : Int := -414
abbrev KE_EVF_COND : Int := -421
abbrev EBUSY : Int := 16

namespace Driver

/-- `FsckOpen` and `FsskOpen`. The partition itself may refuse to be opened, and leaves no mount then. -/
def FsckOpen (result : Int) (d : Driver) : Int × Driver :=
  if d.MainPFSMount.isSome then (-EBUSY, d)
  else if result < 0 then (result, d)
  else (0, { d with
    opened := d.opened + 1
    MainPFSMount := some (d.opened + 1)
    stopFlag := false
    hasError := false })

/-- `StartThread` for an open file. -/
def StartThread (file : Nat) (d : Driver) : Int × Driver :=
  match d.thread with
  | .dormant => (0, { d with thread := .running file, log := d.log ++ [.started file] })
  | _ => (KE_NOT_DORMANT, d)

/-- `PollEventFlag` with `WEF_CLEAR`. -/
def PollEventFlag (d : Driver) : Int × Driver :=
  if d.EventFlag then (0, { d with EventFlag := false }) else (KE_EVF_COND, d)

/-- `FsckIoctl2` and `FsskIoctl2` -/
def FsckIoctl2 (file : Nat) : Command → Driver → Int × Driver
  | .START, d => d.StartThread file
  | .POLL, d =>
    let (result, d) := d.PollEventFlag
    (if result = KE_EVF_COND then 1 else result, d)
  | .GET_STATUS, d => (0, d)
  | .STOP, d => (0, { d with stopFlag := true })

/-- `FsckClose` and `FsskClose`: the block device is closed and the mount zeroed. -/
def FsckClose (file : Nat) (d : Driver) : Driver :=
  { d with MainPFSMount := none, log := d.log ++ [.closed file] }

end Driver

/-- Where the front end stands, and the file it has open. -/
inductive Position where
  /-- at the next entry of the partition table -/
  | dread
  | start (file : Nat)
  | poll (file : Nat)
  /-- the worker was not done: the pad is read -/
  | pad (file : Nat)
  /-- the worker is waited for no longer: the status is asked for -/
  | status (file : Nat)
  /-- about to close the file, and to go on with the next one or not -/
  | close (file : Nat) (next : Bool)
  | done
  deriving DecidableEq, Repr

/-- The front end, its static variable `UserAborted`, and the driver. -/
structure State where
  position : Position
  UserAborted : Bool
  driver : Driver
  deriving DecidableEq, Repr

inductive Action where
  /-- the front end reads an entry of the table: none, or a partition and how its opening would end -/
  | dread (entry : Option Int)
  /-- the front end sends its next command -/
  | command
  /-- the user goes on, or confirms that the session is to be aborted -/
  | pad (abort : Bool)
  /-- the worker goes on, and may find an error -/
  | work (hasError : Bool)
  | SetEventFlag
  /-- the thread function returns -/
  | exit
  deriving DecidableEq, Repr

namespace State

/-- The front end sends a command and goes on by its result. -/
def send (s : State) (file : Nat) (cmd : Command) (position : Int → Driver → Position) : State :=
  let (result, d) := s.driver.FsckIoctl2 file cmd
  { s with position := position result d, driver := d }

/-- One step of one of the parties, `none` where it cannot take it. -/
def step (tool : Tool) (s : State) : Action → Option State
  | .dread entry =>
    if s.position = .dread then
      match entry with
      | none => some { s with position := .done }
      | some result =>
        let (result, d) := s.driver.FsckOpen result
        some { s with position := if 0 ≤ result then .start d.opened else .dread, driver := d }
    else none
  | .command =>
    match s.position with
    | .start file => some (s.send file .START fun result _ =>
        if result = 0 then .poll file else .close file false)
    | .poll file => some (s.send file .POLL fun result _ =>
        if result = 1 then .pad file else .status file)
    | .status file => some (s.send file .GET_STATUS fun result d =>
        .close file (!(result ≠ 0 || (tool = .fssk && d.hasError) || s.UserAborted)))
    | .close file next => some { s with
        position := if next then .dread else .done
        driver := s.driver.FsckClose file }
    | _ => none
  | .pad abort =>
    match s.position with
    | .pad file =>
      if abort then
        some { s.send file .STOP (fun _ _ => .status file) with UserAborted := true }
      else some { s with position := .poll file }
    | _ => none
  | .work hasError =>
    match s.driver.thread with
    | .running _ => some { s with driver.hasError := s.driver.hasError || hasError }
    | _ => none
  | .SetEventFlag =>
    match s.driver.thread with
    | .running file => some { s with
        driver.EventFlag := true
        driver.thread := .ending file
        driver.log := s.driver.log ++ [.signalled file] }
    | _ => none
  | .exit =>
    match s.driver.thread with
    | .ending _ => some { s with driver.thread := .dormant }
    | _ => none

/-- The steps of both parties one after the other. -/
def run (tool : Tool) : List Action → State → Option State
  | [], s => some s
  | a :: as, s => (s.step tool a).bind (run tool as)

/-- A session begins. Nothing clears `UserAborted` after an earlier one. -/
def init (UserAborted : Bool) : State :=
  ⟨.dread, UserAborted, ⟨0, none, false, false, false, .dormant, []⟩⟩

end State

/-- No file was closed between the start of its worker and the worker's setting the event flag. -/
def Confirmed (log : List Event) : Prop :=
  ∀ A file B, log = A ++ .closed file :: B → .started file ∈ A → .signalled file ∈ A

/-! ### Sessions that are not aborted -/

variable {tool : Tool} {s s' : State} {a : Action} {as bs : List Action} {log : List Event}
  {d : Driver} {file : Nat}

theorem Confirmed.snoc {e : Event} (h : Confirmed log)
    (hclosed : ∀ file, e = .closed file → .started file ∈ log → .signalled file ∈ log) :
    Confirmed (log ++ [e]) := by
  intro A f B heq hstarted
  rcases List.eq_nil_or_concat B with rfl | ⟨C, e', rfl⟩
  · obtain ⟨rfl, he⟩ := List.append_inj' heq rfl
    exact hclosed f (List.cons.inj he).1 hstarted
  · have heq' : log ++ [e] = (A ++ .closed f :: C) ++ [e'] := by simpa using heq
    exact h A f C (List.append_inj' heq' rfl).1 hstarted

theorem not_confirmed_closed (hstarted : .started file ∈ log) (hsignalled : .signalled file ∉ log) :
    ¬ Confirmed (log ++ [.closed file]) :=
  fun h => hsignalled (h log file [] rfl hstarted)

/-- No worker runs, and the flag tells of none that did. -/
structure Driver.Quiet (d : Driver) : Prop where
  idle : ∀ file, d.thread ≠ .running file
  clear : d.EventFlag = false

/-- The worker of the file runs, or it has set the flag and that has not been noticed. -/
structure Driver.Watched (file : Nat) (d : Driver) : Prop where
  started : .started file ∈ d.log
  thread : d.thread = .running file ∧ d.EventFlag = false ∨
    (∀ f, d.thread ≠ .running f) ∧ d.EventFlag = true ∧ .signalled file ∈ d.log

/-- What the front end may rely on where it stands. -/
def Settled : Position → Driver → Prop
  | .dread, d => d.Quiet
  | .start file, d => d.Quiet ∧ .started file ∉ d.log ∧ file ≤ d.opened
  | .poll file, d => d.Watched file
  | .pad file, d => d.Watched file
  | .status file, d => d.Quiet ∧ .signalled file ∈ d.log
  | .close file _, d => d.Quiet ∧ (.started file ∈ d.log → .signalled file ∈ d.log)
  | .done, d => d.Quiet

/-- The invariant of the sessions without an abort. -/
structure Inv (s : State) : Prop where
  confirmed : Confirmed s.driver.log
  opened : ∀ file, .started file ∈ s.driver.log → file ≤ s.driver.opened
  settled : Settled s.position s.driver

theorem inv_init (UserAborted : Bool) : Inv (.init UserAborted) where
  confirmed := by simp [Confirmed, State.init]
  opened := by simp [State.init]
  settled := ⟨by simp [State.init], rfl⟩

theorem Settled.worker {p : Position} {d' : Driver} (h : Settled p d)
    (hlog : ∀ e, e ∈ d.log → e ∈ d'.log) (hstarted : ∀ f, .started f ∈ d'.log → .started f ∈ d.log)
    (hopened : d'.opened = d.opened) (hquiet : d.Quiet → d'.Quiet)
    (hwatched : ∀ file, d.Watched file → d'.Watched file) : Settled p d' := by
  cases p with
  | dread => exact hquiet h
  | start file => exact ⟨hquiet h.1, fun hmem => h.2.1 (hstarted _ hmem), hopened ▸ h.2.2⟩
  | poll file => exact hwatched file h
  | pad file => exact hwatched file h
  | status file => exact ⟨hquiet h.1, hlog _ h.2⟩
  | close file next => exact ⟨hquiet h.1, fun hmem => hlog _ (h.2 (hstarted _ hmem))⟩
  | done => exact hquiet h

theorem Driver.FsckIoctl2_START (d : Driver) (file : Nat) : d.FsckIoctl2 file .START =
      (0, { d with thread := .running file, log := d.log ++ [.started file] }) ∨
    d.FsckIoctl2 file .START = (KE_NOT_DORMANT, d) := by
  cases hthread : d.thread with
  | dormant => exact .inl (by simp [Driver.FsckIoctl2, Driver.StartThread, hthread])
  | running f => exact .inr (by simp [Driver.FsckIoctl2, Driver.StartThread, hthread])
  | ending f => exact .inr (by simp [Driver.FsckIoctl2, Driver.StartThread, hthread])

theorem Driver.FsckIoctl2_POLL (d : Driver) (file : Nat) :
    d.EventFlag = true ∧ d.FsckIoctl2 file .POLL = (0, { d with EventFlag := false }) ∨
      d.FsckIoctl2 file .POLL = (1, d) := by
  cases hflag : d.EventFlag with
  | true => exact .inl ⟨rfl, by simp [Driver.FsckIoctl2, Driver.PollEventFlag, hflag, KE_EVF_COND]⟩
  | false => exact .inr (by simp [Driver.FsckIoctl2, Driver.PollEventFlag, hflag])

theorem State.send_eq {cmd : Command} {result : Int} {position : Int → Driver → Position}
    (h : s.driver.FsckIoctl2 file cmd = (result, d)) :
    s.send file cmd position = { s with position := position result d, driver := d } := by
  unfold State.send
  rw [h]

theorem Driver.Quiet.of_eq {d' : Driver} (h : d.Quiet) (hthread : d'.thread = d.thread)
    (hflag : d'.EventFlag = d.EventFlag) : d'.Quiet :=
  ⟨by rw [hthread]; exact h.idle, by rw [hflag]; exact h.clear⟩

theorem Inv.worker (h : Inv s) (ha : (∃ e, a = .work e) ∨ a = .SetEventFlag ∨ a = .exit)
    (hstep : s.step tool a = some s') : Inv s' := by
  rcases ha with ⟨e, rfl⟩ | rfl | rfl
  · simp only [State.step] at hstep
    split at hstep
    · cases hstep
      refine ⟨h.confirmed, h.opened, h.settled.worker (fun _ he => he) (fun _ hf => hf) rfl ?_ ?_⟩
      · exact fun hq => hq.of_eq rfl rfl
      · exact fun file hw => ⟨hw.started, hw.thread⟩
    · cases hstep
  · simp only [State.step] at hstep
    split at hstep
    · rename_i file hrunning
      cases hstep
      have hmem : ∀ e ∈ s.driver.log, e ∈ s.driver.log ++ [.signalled file] := by simp +contextual
      refine ⟨h.confirmed.snoc (by simp), by simpa using h.opened,
        h.settled.worker hmem (by simp) rfl ?_ ?_⟩
      · exact fun hq => (hq.idle file hrunning).elim
      · intro f hw
        refine ⟨hmem _ hw.started, .inr ⟨by simp, rfl, ?_⟩⟩
        rcases hw.thread with ⟨hthread, -⟩ | ⟨hidle, -, -⟩
        · rw [hrunning] at hthread
          cases hthread
          simp
        · exact (hidle file hrunning).elim
    · cases hstep
  · simp only [State.step] at hstep
    split at hstep
    · rename_i file hending
      cases hstep
      refine ⟨h.confirmed, h.opened, h.settled.worker (fun _ he => he) (fun _ hf => hf) rfl ?_ ?_⟩
      · exact fun hq => ⟨by simp, hq.clear⟩
      · intro f hw
        refine ⟨hw.started, .inr ⟨by simp, ?_⟩⟩
        rcases hw.thread with ⟨hthread, -⟩ | ⟨-, hflag, hsignalled⟩
        · rw [hending] at hthread
          cases hthread
        · exact ⟨hflag, hsignalled⟩
    · cases hstep

/-- A command of the front end keeps the invariant: what it waits for is the event flag. -/
theorem Inv.command (h : Inv s) (hstep : s.step tool .command = some s') : Inv s' := by
  have hsettled := h.settled
  simp only [State.step] at hstep
  split at hstep
  · -- START
    rename_i file hposition
    rw [hposition] at hsettled
    obtain ⟨hquiet, hfresh, hle⟩ := hsettled
    cases hstep
    rcases Driver.FsckIoctl2_START s.driver file with heq | heq
    · rw [State.send_eq heq]
      refine ⟨h.confirmed.snoc (by simp), ?_, ?_⟩
      · intro f hf
        simp only [List.mem_append, List.mem_singleton, Event.started.injEq] at hf
        rcases hf with hf | rfl
        · exact h.opened f hf
        · exact hle
      · exact ⟨by simp, .inl ⟨rfl, hquiet.clear⟩⟩
    · rw [State.send_eq heq]
      exact ⟨h.confirmed, h.opened, hquiet, fun hstarted => (hfresh hstarted).elim⟩
  · -- POLL
    rename_i file hposition
    rw [hposition] at hsettled
    cases hstep
    rcases Driver.FsckIoctl2_POLL s.driver file with ⟨hflag, heq⟩ | heq
    · rw [State.send_eq heq]
      refine ⟨h.confirmed, h.opened, ?_⟩
      rcases hsettled.thread with ⟨-, hclear⟩ | ⟨hidle, -, hsignalled⟩
      · rw [hclear] at hflag
        cases hflag
      · exact ⟨⟨hidle, rfl⟩, hsignalled⟩
    · rw [State.send_eq heq]
      exact ⟨h.confirmed, h.opened, hsettled⟩
  · -- GET_STATUS
    rename_i file hposition
    rw [hposition] at hsettled
    cases hstep
    exact ⟨h.confirmed, h.opened, hsettled.1, fun _ => hsettled.2⟩
  · -- close
    rename_i file next hposition
    rw [hposition] at hsettled
    obtain ⟨hquiet, hsignalled⟩ := hsettled
    cases hstep
    refine ⟨h.confirmed.snoc ?_, by simpa [Driver.FsckClose] using h.opened, ?_⟩
    · intro f heq
      cases heq
      exact hsignalled
    · have hq : (s.driver.FsckClose file).Quiet := hquiet.of_eq rfl rfl
      cases next with
      | true => exact hq
      | false => exact hq
  · cases hstep

theorem Inv.dread {entry : Option Int} (h : Inv s) (hstep : s.step tool (.dread entry) = some s') :
    Inv s' := by
  have hsettled := h.settled
  simp only [State.step] at hstep
  split at hstep
  · rename_i hposition
    rw [hposition] at hsettled
    cases entry with
    | none =>
      cases hstep
      exact ⟨h.confirmed, h.opened, hsettled⟩
    | some result =>
      simp only [Driver.FsckOpen] at hstep
      cases hstep
      split
      · exact ⟨h.confirmed, h.opened, hsettled⟩
      · split
        · rename_i hneg
          refine ⟨h.confirmed, h.opened, ?_⟩
          rw [if_neg (by omega)]
          exact hsettled
        · refine ⟨h.confirmed, fun f hf => Nat.le_succ_of_le (h.opened f hf),
            hsettled.of_eq rfl rfl, ?_, Nat.le_refl _⟩
          exact fun hmem => Nat.not_succ_le_self _ (h.opened _ hmem)
  · cases hstep

/-- Every step but the abort keeps the invariant. -/
theorem Inv.step (h : Inv s) (ha : a ≠ .pad true) (hstep : s.step tool a = some s') : Inv s' := by
  cases a with
  | dread entry => exact h.dread hstep
  | command => exact h.command hstep
  | work e => exact h.worker (.inl ⟨e, rfl⟩) hstep
  | SetEventFlag => exact h.worker (.inr (.inl rfl)) hstep
  | exit => exact h.worker (.inr (.inr rfl)) hstep
  | pad abort =>
    cases abort with
    | true => exact (ha rfl).elim
    | false =>
      have hsettled := h.settled
      simp only [State.step] at hstep
      split at hstep
      · rename_i file hposition
        rw [hposition] at hsettled
        cases hstep
        exact ⟨h.confirmed, h.opened, hsettled⟩
      · cases hstep

theorem Inv.run (h : Inv s) (has : .pad true ∉ as) (hrun : s.run tool as = some s') : Inv s' := by
  induction as generalizing s with
  | nil =>
    cases hrun
    exact h
  | cons a as ih =>
    rw [List.mem_cons, not_or] at has
    obtain ⟨t, hstep, hrest⟩ := Option.bind_eq_some_iff.mp hrun
    exact ih (h.step (fun heq => has.1 heq.symm) hstep) has.2 hrest

/-! ### Sessions that are aborted -/

/-- The session is on its way out. -/
structure Ended (s : State) : Prop where
  aborted : s.UserAborted = true
  position : s.position = .done ∨ ∃ file, s.position = .status file ∨ s.position = .close file false

theorem Ended.step (h : Ended s) (hstep : s.step tool a = some s') : Ended s' := by
  obtain ⟨haborted, hposition⟩ := h
  cases a with
  | dread entry => rcases hposition with hp | ⟨f, hp | hp⟩ <;> simp [State.step, hp] at hstep
  | pad abort => rcases hposition with hp | ⟨f, hp | hp⟩ <;> simp [State.step, hp] at hstep
  | command =>
    rcases hposition with hp | ⟨f, hp | hp⟩
    · simp [State.step, hp] at hstep
    · simp only [State.step, hp, Option.some.injEq] at hstep
      subst hstep
      exact ⟨haborted, .inr ⟨f, .inr (by simp [State.send, haborted])⟩⟩
    · simp only [State.step, hp, Option.some.injEq] at hstep
      subst hstep
      exact ⟨haborted, .inl rfl⟩
  | work e =>
    simp only [State.step] at hstep
    split at hstep
    · cases hstep
      exact ⟨haborted, hposition⟩
    · cases hstep
  | SetEventFlag =>
    simp only [State.step] at hstep
    split at hstep
    · cases hstep
      exact ⟨haborted, hposition⟩
    · cases hstep
  | exit =>
    simp only [State.step] at hstep
    split at hstep
    · cases hstep
      exact ⟨haborted, hposition⟩
    · cases hstep

private theorem inv_or_ended_step (h : Inv s ∨ Ended s) (hstep : s.step tool a = some s') :
    Inv s' ∨ Ended s' := by
  rcases h with h | h
  · by_cases ha : a = .pad true
    · subst ha
      simp only [State.step] at hstep
      split at hstep
      · cases hstep
        exact .inr ⟨rfl, .inr ⟨_, .inl rfl⟩⟩
      · cases hstep
    · exact .inl (h.step ha hstep)
  · exact .inr (h.step hstep)

private theorem inv_or_ended_run (h : Inv s ∨ Ended s) (hrun : s.run tool as = some s') :
    Inv s' ∨ Ended s' := by
  induction as generalizing s with
  | nil =>
    cases hrun
    exact h
  | cons a as ih =>
    obtain ⟨t, hstep, hrest⟩ := Option.bind_eq_some_iff.mp hrun
    exact ih (inv_or_ended_step h hstep) hrest

theorem State.run_append : s.run tool (as ++ bs) = (s.run tool as).bind (State.run tool bs) := by
  induction as generalizing s with
  | nil => rfl
  | cons a as ih =>
    rw [List.cons_append, State.run, State.run, Option.bind_assoc]
    exact congrArg _ (funext fun t => ih)

theorem State.run_abort (tool : Tool) (hposition : s.position = .pad file) :
    ∃ s', s.run tool [.pad true, .command, .command] = some s' ∧
      s'.driver.log = s.driver.log ++ [.closed file] := by
  simp only [State.run, State.step, hposition, State.send, Driver.FsckIoctl2, if_true,
    Option.bind_some]
  exact ⟨_, rfl, rfl⟩

/-- In a session without an abort every file is closed after its worker has set the event flag. Where the abort is confirmed before that, the session may go on to close the file under the worker. -/
theorem close_confirmed (tool : Tool) (UserAborted : Bool) (as : List Action) (s : State)
    (hrun : (State.init UserAborted).run tool as = some s) :
    (.pad true ∉ as → Confirmed s.driver.log) ∧
    ∀ file, s.position = .pad file → .signalled file ∉ s.driver.log →
      ∃ s', (State.init UserAborted).run tool (as ++ [.pad true, .command, .command]) = some s' ∧
        ¬ Confirmed s'.driver.log := by
  refine ⟨fun has => ((inv_init UserAborted).run has hrun).confirmed, ?_⟩
  intro file hposition hsignalled
  have hinv : Inv s := by
    rcases inv_or_ended_run (.inl (inv_init UserAborted)) hrun with h | h
    · exact h
    · rcases h.position with hp | ⟨f, hp | hp⟩ <;> rw [hp] at hposition <;> cases hposition
  have hwatched : s.driver.Watched file := by
    have hsettled := hinv.settled
    rwa [hposition] at hsettled
  obtain ⟨s', habort, hlog⟩ := State.run_abort tool hposition
  refine ⟨s', ?_, ?_⟩
  · rw [State.run_append, hrun]
    exact habort
  · rw [hlog]
    exact not_confirmed_closed hwatched.started hsignalled

/-- One partition is checked to the end. -/
def checked : List Action :=
  [.dread (some 0), .command, .command, .pad false, .work false, .SetEventFlag, .command, .command,
    .command]

theorem close_confirmed_checked :
    ∃ s, (State.init false).run .fsck checked = some s ∧
      s.driver.log = [.started 1, .signalled 1, .closed 1] ∧ Confirmed s.driver.log := by
  refine ⟨_, rfl, rfl, ?_⟩
  exact (close_confirmed .fsck false checked _ rfl).1 (by decide)

/-- The abort is confirmed while the worker runs: the file is closed before it has set the flag. -/
theorem close_unconfirmed :
    ∃ s, (State.init false).run .fsck
        [.dread (some 0), .command, .command, .pad true, .command, .command] = some s ∧
      s.driver.log = [.started 1, .closed 1] ∧ s.driver.thread = .running 1 ∧
      ¬ Confirmed s.driver.log := by
  refine ⟨_, rfl, rfl, rfl, ?_⟩
  have hnot : ¬ Confirmed ([.started 1] ++ [.closed 1]) :=
    not_confirmed_closed (by decide) (by decide)
  exact hnot

end HddChecker.Fsck
