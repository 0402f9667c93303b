import HddChecker.Hdsk.Driver

/-!
# The front end of the defragmenter

`HdskDisk` loads the driver, starts its thread and polls it until the thread is done, the user aborts or an error is read. `OptimizeDisk`, which calls it where the file systems were optimized without an abort, then loads the modules of the menu again. Each time the IOP is reset, and with it every thread that runs there is gone.
-/

namespace HddChecker.Hdsk

open HddChecker

inductive Position where
  /-- `HdskDisk` is about to load the driver -/
  | load
  | stat
  | start
  | poll
  | progress
  | pad
  | status
  /-- `OptimizeDisk` is about to load the modules of the menu -/
  | reload
  | done
  deriving DecidableEq

/-- The front end with its variable `UserAborted`, and the driver. -/
structure FrontEnd where
  position : Position
  UserAborted : Bool
  driver : Driver

inductive Turn where
  /-- the front end goes on -/
  | command
  /-- `HDSK_DEVCTL_GET_HDD_STAT` answers -/
  | stat (result : Int) (total : Nat)
  /-- the user goes on, or confirms that the operation is to be aborted -/
  | pad (abort : Bool)
  /-- a step of `HdskThread` -/
  | work (ans : Answer)

namespace FrontEnd

/-- `HdskDisk` is called only where nothing was aborted before. -/
def init : FrontEnd := ⟨.load, false, .init⟩

/-- `IopInitStart`: the module and its thread are gone, or loaded anew. -/
def IopInitStart (position : Position) (s : FrontEnd) : FrontEnd :=
  { s with position := position, driver := { Driver.init with log := s.driver.log ++ [.reset] } }

/-- A request, and where the front end goes on by its result. -/
def send (s : FrontEnd) (cmd : Command) (position : Int → Position) : FrontEnd :=
  let (result, d) := s.driver.HdskDevctl cmd
  { s with position := position result, driver := d }

/-- One step of one of the parties, `none` where it cannot take it. -/
def step (partitionMaxSize : Nat) (s : FrontEnd) : Turn → Option FrontEnd
  | .command =>
    match s.position with
    | .load => some (s.IopInitStart .stat)
    | .start => some (s.send .START fun result => if result = 0 then .poll else .reload)
    | .poll => some (s.send .POLL fun result => if result = 1 then .progress else .reload)
    | .progress => some (s.send .GET_PROGRESS fun _ => .pad)
    | .status => some (s.send .GET_STATUS fun result =>
        if result ≠ 0 || s.UserAborted then .reload else .poll)
    | .reload => some (s.IopInitStart .done)
    | _ => none
  | .stat result total =>
    if s.position = .stat then
      some { s with position := if 0 ≤ result ∧ 0 < total then .start else .reload }
    else none
  | .pad abort =>
    if s.position = .pad then
      if abort then some { s.send .STOP (fun _ => .reload) with UserAborted := true }
      else some { s with position := .status }
    else none
  | .work ans => (s.driver.work partitionMaxSize ans).map fun d => { s with driver := d }

/-- The steps of both parties one after the other. -/
def run (partitionMaxSize : Nat) : List Turn → FrontEnd → Option FrontEnd
  | [], s => some s
  | a :: as, s => (s.step partitionMaxSize a).bind (run partitionMaxSize as)

end FrontEnd

/-- No reset comes in a run of the thread, between its start and its event flag. -/
def Unbroken (log : List Event) : Prop :=
  ∀ A B, log = A ++ .reset :: B → underWay A = none

/-- The front end resets the IOP next and does not wait for the thread: an abort is confirmed, or an error is read. -/
def FrontEnd.gives (s : FrontEnd) : Turn → Bool
  | .command => s.position == .status && s.driver.hdskStatus != 0
  | .pad abort => s.position == .pad && abort
  | _ => false

variable {s : FrontEnd} {a : Turn}

/-- Such a step in a run of the thread. -/
def Hasty (s : FrontEnd) (a : Turn) : Prop := underWay s.driver.log ≠ none ∧ s.gives a = true

instance : Decidable (Hasty s a) := inferInstanceAs (Decidable (_ ∧ _))

/-- No step of a run is hasty. -/
def Patient (max : Nat) : List Turn → FrontEnd → Prop
  | [], _ => True
  | a :: as, s => ¬ Hasty s a ∧ ∀ s' ∈ s.step max a, Patient max as s'

instance decidablePatient (max : Nat) : (as : List Turn) → (s : FrontEnd) → Decidable (Patient max as s)
  | [], _ => .isTrue trivial
  | a :: as, s =>
    have (s' : FrontEnd) : Decidable (Patient max as s') := decidablePatient max as s'
    inferInstanceAs (Decidable (_ ∧ ∀ s' ∈ s.step max a, Patient max as s'))

variable {max : Nat} {s' : FrontEnd} {as bs : List Turn} {log : List Event} {d d' : Driver}

theorem Unbroken.snoc {e : Event} (h : Unbroken log) (he : e = .reset → underWay log = none) :
    Unbroken (log ++ [e]) := by
  intro A B heq
  rcases List.eq_nil_or_concat B with rfl | ⟨C, e', rfl⟩
  · obtain ⟨rfl, hlast⟩ := List.append_inj' heq rfl
    exact he (List.cons.inj hlast).1
  · have heq' : log ++ [e] = (A ++ .reset :: C) ++ [e'] := by simpa using heq
    exact h A C (List.append_inj' heq' rfl).1

theorem not_unbroken_reset (hway : underWay log ≠ none) : ¬ Unbroken (log ++ [.reset]) :=
  fun h => hway (h log [] rfl)

/-- No run of the thread is under way, and none is about to be. -/
structure Driver.Idle (d : Driver) : Prop where
  none : underWay d.log = none
  thread : d.thread = .dormant
  clear : d.EventFlag = false

/-- What the front end may rely on where it stands. -/
def Relies : Position → Driver → Prop
  | .load, d => d.Idle
  | .stat, d => d.Idle
  | .start, d => d.Idle
  | .reload, d => underWay d.log = none
  | .done, d => d.Idle
  | _, d => d.EventFlag = true → underWay d.log = none

/-- The invariant of the patient runs. -/
structure Kind (s : FrontEnd) : Prop where
  unbroken : Unbroken s.driver.log
  going : s.UserAborted = true → s.position = .reload ∨ s.position = .done
  relies : Relies s.position s.driver

private theorem kind_init : Kind .init := by
  refine ⟨fun A B heq => ?_, fun h => ?_, ⟨rfl, rfl, rfl⟩⟩
  · simp [FrontEnd.init, Driver.init] at heq
  · cases h

theorem Driver.work_log {ans : Answer} (h : d.work max ans = some d') :
    d.thread ≠ .dormant ∧
      (d'.EventFlag = d.EventFlag ∧
          (d'.log = d.log ∨ d'.log = d.log ++ [.copy] ∨ d'.log = d.log ++ [.chunk]) ∨
        d'.EventFlag = true ∧ d'.log = d.log ++ [.signalled]) := by
  cases hthread : d.thread with
  | dormant => simp [Driver.work, hthread] at h
  | _ =>
    simp only [Driver.work, hthread] at h
    repeat' split at h
    all_goals cases h
    all_goals simp

/-- A step of the thread may only end a run of it. -/
theorem Kind.work {ans : Answer} (h : Kind s) (hstep : s.step max (.work ans) = some s') :
    Kind s' := by
  obtain ⟨d, hwork, rfl⟩ := Option.map_eq_some_iff.mp hstep
  obtain ⟨hthread, hlog⟩ := Driver.work_log hwork
  have hunbroken : Unbroken d.log := by
    rcases hlog with ⟨-, heq | heq | heq⟩ | ⟨-, heq⟩ <;> rw [heq]
    · exact h.unbroken
    all_goals exact h.unbroken.snoc (by simp)
  have hnone : underWay s.driver.log = none → underWay d.log = none := by
    intro hway
    rcases hlog with ⟨-, heq | heq | heq⟩ | ⟨-, heq⟩ <;> rw [heq]
    · exact hway
    all_goals simp [underWay_snoc, Event.follow, hway]
  have hflag : (s.driver.EventFlag = true → underWay s.driver.log = none) →
      d.EventFlag = true → underWay d.log = none := by
    intro hclear hset
    rcases hlog with ⟨hsame, -⟩ | ⟨-, heq⟩
    · exact hnone (hclear (hsame ▸ hset))
    · rw [heq, underWay_snoc]
      rfl
  refine ⟨hunbroken, h.going, ?_⟩
  have hrelies := h.relies
  change Relies s.position d
  cases hposition : s.position with
  | load | stat | start | done =>
    rw [hposition] at hrelies
    exact (hthread hrelies.thread).elim
  | reload =>
    rw [hposition] at hrelies
    exact hnone hrelies
  | poll | progress | pad | status =>
    rw [hposition] at hrelies
    exact hflag hrelies

theorem Kind.reset {position : Position} (h : Kind s) (hway : underWay s.driver.log = none)
    (hgoing : s.UserAborted = true → position = .done)
    (hposition : position = .stat ∨ position = .done) : Kind (s.IopInitStart position) := by
  refine ⟨h.unbroken.snoc fun _ => hway, fun hab => .inr (hgoing hab), ?_⟩
  have hidle : (s.IopInitStart position).driver.Idle := ⟨by simp [FrontEnd.IopInitStart, underWay_snoc, Event.follow], rfl, rfl⟩
  rcases hposition with rfl | rfl <;> exact hidle

/-- A command of the front end keeps the invariant where it is not hasty. -/
theorem Kind.command (h : Kind s) (hhasty : ¬ Hasty s .command)
    (hstep : s.step max .command = some s') : Kind s' := by
  have hrelies := h.relies
  have hgoing := h.going
  cases hposition : s.position with
  | load =>
    simp only [FrontEnd.step, hposition] at hstep
    rw [hposition] at hrelies hgoing
    cases hstep
    exact h.reset hrelies.none (fun hab => by simpa using hgoing hab) (.inl rfl)
  | start =>
    simp only [FrontEnd.step, hposition] at hstep
    rw [hposition] at hrelies hgoing
    cases hstep
    have hsend : s.driver.HdskDevctl .START =
        (0, { s.driver with thread := .clearProgress, log := s.driver.log ++ [.started] }) := by
      simp [Driver.HdskDevctl, hrelies.thread]
    simp only [FrontEnd.send, hsend, if_true]
    refine ⟨h.unbroken.snoc (by simp), fun hab => by simpa using hgoing hab, ?_⟩
    intro hset
    rw [hrelies.clear] at hset
    cases hset
  | poll =>
    simp only [FrontEnd.step, hposition] at hstep
    rw [hposition] at hrelies hgoing
    cases hstep
    cases hflag : s.driver.EventFlag with
    | true =>
      simp only [FrontEnd.send, Driver.HdskDevctl, hflag, if_true]
      exact ⟨h.unbroken, fun hab => .inl rfl, hrelies hflag⟩
    | false =>
      simp only [FrontEnd.send, Driver.HdskDevctl, hflag]
      exact ⟨h.unbroken, fun hab => by simpa using hgoing hab, hrelies⟩
  | progress =>
    simp only [FrontEnd.step, hposition] at hstep
    rw [hposition] at hrelies hgoing
    cases hstep
    exact ⟨h.unbroken, fun hab => by simpa using hgoing hab, hrelies⟩
  | status =>
    simp only [FrontEnd.step, hposition] at hstep
    rw [hposition] at hrelies hgoing
    cases hstep
    have haborted : s.UserAborted = false := by
      cases hab : s.UserAborted with
      | true => simpa using hgoing hab
      | false => rfl
    by_cases hstatus : s.driver.hdskStatus = 0
    · simp only [FrontEnd.send, Driver.HdskDevctl, hstatus, haborted]
      exact ⟨h.unbroken, fun hab => by simp at hab, hrelies⟩
    · -- the thread has met an error, but it is done
      have hway : underWay s.driver.log = none := by
        by_contra hway
        exact hhasty ⟨hway, by simp [FrontEnd.gives, hposition, hstatus]⟩
      refine ⟨h.unbroken, fun hab => ?_, ?_⟩
      · simp [FrontEnd.send, Driver.HdskDevctl, hstatus]
      · simpa [FrontEnd.send, Driver.HdskDevctl, hstatus, Relies] using hway
  | reload =>
    simp only [FrontEnd.step, hposition] at hstep
    rw [hposition] at hrelies
    cases hstep
    exact h.reset hrelies (fun _ => rfl) (.inr rfl)
  | stat | pad | done => simp [FrontEnd.step, hposition] at hstep

theorem Kind.step (h : Kind s) (hhasty : ¬ Hasty s a) (hstep : s.step max a = some s') :
    Kind s' := by
  have hrelies := h.relies
  have hgoing := h.going
  cases a with
  | command => exact h.command hhasty hstep
  | work ans => exact h.work hstep
  | stat result total =>
    simp only [FrontEnd.step] at hstep
    split at hstep
    · rename_i hposition
      rw [hposition] at hrelies hgoing
      cases hstep
      refine ⟨h.unbroken, fun hab => by simpa using hgoing hab, ?_⟩
      dsimp only
      split
      · exact hrelies
      · exact hrelies.none
    · cases hstep
  | pad abort =>
    simp only [FrontEnd.step] at hstep
    split at hstep
    · rename_i hposition
      rw [hposition] at hrelies hgoing
      cases abort with
      | true =>
        have hway : underWay s.driver.log = none := by
          by_contra hway
          exact hhasty ⟨hway, by simp [FrontEnd.gives, hposition]⟩
        cases hstep
        refine ⟨h.unbroken.snoc (by simp), fun _ => .inl rfl, ?_⟩
        simp [FrontEnd.send, Driver.HdskDevctl, Relies, underWay_snoc, Event.follow, hway]
      | false =>
        cases hstep
        exact ⟨h.unbroken, fun hab => by simpa using hgoing hab, hrelies⟩
    · cases hstep

theorem Kind.run (h : Kind s) (hpatient : Patient max as s) (hrun : s.run max as = some s') :
    Kind s' := by
  induction as generalizing s with
  | nil =>
    cases hrun
    exact h
  | cons a as ih =>
    obtain ⟨t, hstep, hrest⟩ := Option.bind_eq_some_iff.mp hrun
    exact ih (h.step hpatient.1 hstep) (hpatient.2 t hstep) hrest

theorem FrontEnd.run_append : s.run max (as ++ bs) = (s.run max as).bind (FrontEnd.run max bs) := by
  induction as generalizing s with
  | nil => rfl
  | cons a as ih =>
    rw [List.cons_append, FrontEnd.run, FrontEnd.run, Option.bind_assoc]
    exact congrArg _ (funext fun t => ih)

private theorem broken_of_hasty (max : Nat) (h : Hasty s a) :
    ∃ s', s.run max [a, .command] = some s' ∧ ¬ Unbroken s'.driver.log := by
  obtain ⟨hway, hgives⟩ := h
  cases a with
  | pad abort =>
    obtain ⟨hposition, rfl⟩ : s.position = .pad ∧ abort = true := by
      simpa [FrontEnd.gives] using hgives
    refine ⟨{ s with
      position := .done, UserAborted := true
      driver := { Driver.init with log := s.driver.log ++ [.stop] ++ [.reset] } }, ?_, ?_⟩
    · simp [FrontEnd.run, FrontEnd.step, hposition, FrontEnd.send, Driver.HdskDevctl,
        FrontEnd.IopInitStart]
    · exact not_unbroken_reset (by simpa [underWay_snoc, Event.follow] using hway)
  | command =>
    obtain ⟨hposition, hstatus⟩ : s.position = .status ∧ s.driver.hdskStatus ≠ 0 := by
      simpa [FrontEnd.gives] using hgives
    refine ⟨s.IopInitStart .done, ?_, not_unbroken_reset hway⟩
    simp [FrontEnd.run, FrontEnd.step, hposition, FrontEnd.send, Driver.HdskDevctl, hstatus,
      FrontEnd.IopInitStart]
  | stat | work => cases hgives

/-- As long as no step is hasty, the IOP is reset only before the thread is started or after it has set its event flag. After a hasty step the reset comes next, and may break off the run of the thread. -/
theorem reset_unbroken (max : Nat) (as : List Turn) (s : FrontEnd)
    (hrun : FrontEnd.init.run max as = some s) :
    (Patient max as .init → Unbroken s.driver.log) ∧
    ∀ a, Hasty s a → ∃ s', FrontEnd.init.run max (as ++ [a, .command]) = some s' ∧
      ¬ Unbroken s'.driver.log := by
  refine ⟨fun hpatient => (kind_init.run hpatient hrun).unbroken, fun a hhasty => ?_⟩
  obtain ⟨s', hrest, hlog⟩ := broken_of_hasty max hhasty
  refine ⟨s', ?_, hlog⟩
  rw [FrontEnd.run_append, hrun]
  exact hrest

/-- Nothing is there to be moved: the thread ends before it is polled. -/
def optimized : List Turn :=
  [.command, .stat 0 0x40000, .command] ++
    List.replicate 11 (.work ⟨0, none, 0, false⟩) ++ [.command, .command]

theorem reset_unbroken_optimized :
    ∃ s, FrontEnd.init.run 0x80000 optimized = some s ∧
      s.driver.log = [.reset, .started, .signalled, .reset] ∧ Unbroken s.driver.log := by
  refine ⟨_, rfl, rfl, ?_⟩
  exact (reset_unbroken 0x80000 optimized _ rfl).1 (by decide)

/-- The user aborts while a partition is being copied. -/
def abortedCopy : List Turn :=
  [.command, .stat 0 0x40000, .command] ++ List.replicate 8 (.work passing) ++ List.replicate 2 (.work found) ++
    List.replicate 2 (.work passing) ++ [.command, .command, .pad true, .command]

theorem reset_broken :
    ∃ s, FrontEnd.init.run 0x200000 abortedCopy = some s ∧
      s.driver.log = [.reset, .started, .copy, .chunk, .stop, .reset] ∧
      ¬ Unbroken s.driver.log := by
  refine ⟨_, rfl, rfl, ?_⟩
  have hnot : ¬ Unbroken ([.reset, .started, .copy, .chunk, .stop] ++ [.reset]) :=
    not_unbroken_reset (by decide)
  exact hnot

end HddChecker.Hdsk
