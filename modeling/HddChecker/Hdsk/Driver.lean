import HddChecker.Hdsk.Thread

/-!
# The defragmenter and its requests

`HdskThread` runs beside the requests of `HdskDevctl` and shares four variables with them. Here the thread is a machine that takes one step at a time, each with at most one access to these variables, so that a request may come between any two of them. What the disk and `libapa` answer is given with each step. Every run of `HdskThread` is a run of this machine (`HdskThread_run`). The log tells in which order the thread was started and asked to stop, and what it began.
-/

namespace HddChecker.Hdsk

open HddChecker Apa

/-- The searches for what is to be moved, in the two modes of `hdskFindLastUsedPartition` and `hdskFindLastUsedBlock`. -/
inductive Search where
  | partition (mode : Bool)
  | block (mode : Bool)

/-- The search behind one that has found nothing. A block is looked for only when it can have more than one partition. -/
def Search.next (PartSize : Nat) : Search → Option Search
  | .partition mode =>
    if HDSK_MIN_PART_SIZE < PartSize then some (.block mode)
    else if mode then some (.partition false) else none
  | .block true => some (.partition false)
  | .block false => none

/-- Where `HdskThread` stands. `block` tells whether `MovePartition` was called by `MovePartitionsBlock`. -/
inductive Place where
  | dormant
  | clearProgress
  | clearStatus
  | clearStop
  /-- `hdskRemoveTmp` before the loops -/
  | first
  /-- at the test of the outer loop -/
  | size (PartSize : Nat)
  /-- `hdskRemoveTmp` at the head of the inner loop -/
  | round (PartSize : Nat)
  /-- `hdskFindEmptyPartition` with a header at hand: the one of sector 0, or one behind it -/
  | empty (PartSize : Nat) (mbr : Bool)
  /-- behind a header that is not the empty partition -/
  | passed (PartSize : Nat)
  /-- a search for what is to be moved, with a header at hand -/
  | look (PartSize : Nat) (search : Search)
  /-- behind a header that is not to be moved -/
  | looked (PartSize : Nat) (search : Search)
  /-- `SplitEmptyPartition` -/
  | split (PartSize : Nat)
  /-- `MovePartition` up to its copy -/
  | move (PartSize : Nat) (block : Bool)
  /-- `CopyPartition` at chunk `i` -/
  | read (PartSize : Nat) (block : Bool) (blocks i : Nat)
  | write (PartSize : Nat) (block : Bool) (blocks i : Nat)
  | tested (PartSize : Nat) (block : Bool) (blocks i : Nat)
  /-- behind the copy -/
  | copied (PartSize : Nat) (block : Bool)
  /-- `SwapPartition` -/
  | swap (PartSize : Nat) (block : Bool)
  /-- `MovePartition` or `SplitEmptyPartition` returns -/
  | result (PartSize : Nat) (block : Bool) (value : Int)
  /-- `MovePartitionsBlock` behind one of its partitions -/
  | next (PartSize : Nat)
  /-- behind the inner loop -/
  | left (PartSize : Nat)
  /-- the last `hdskRemoveTmp` -/
  | cleanup
  | signal
  /-- the thread function returns -/
  | ending

/-- A search has ended with a header. -/
def Search.chosen (PartSize : Nat) : Search → Place
  | .partition _ => .move PartSize false
  | .block _ => .split PartSize

inductive Event where
  | started
  | stop
  /-- `CopyPartition` is entered -/
  | copy
  /-- the transfer of a chunk begins -/
  | chunk
  | signalled
  | reset
  deriving DecidableEq, Repr

/-- What the disk and `libapa` answer in one step. -/
structure Answer where
  result : Int
  /-- the header a search has at hand, and whether it is what is searched for; `none` where the search ends without one -/
  header : Option Bool
  blocks : Nat
  /-- whether a block goes on with another partition -/
  more : Bool

/-- The variables of the module, the thread and the event flag, for a unit with a disk. -/
structure Driver where
  hdskProgress : Nat
  hdskStatus : Int
  hdskStopFlag : Bool
  EventFlag : Bool
  thread : Place
  log : List Event

/-- `enum HDSK_DEVCTL`, as far as it deals with the thread. -/
inductive Command where
  | START
  | POLL
  | GET_STATUS
  | STOP
  | GET_PROGRESS
  deriving DecidableEq, Repr

abbrev KE_NOT_DORMANT : Int := -414
abbrev KE_EVF_COND : Int := -421
abbrev EINVAL : Int := 22

namespace Driver

/-- The module after it is loaded. -/
def init : Driver := ⟨0, 0, false, false, .dormant, []⟩

def HdskDevctl : Command → Driver → Int × Driver
  | .START, d =>
    match d.thread with
    | .dormant => (0, { d with thread := .clearProgress, log := d.log ++ [.started] })
    | _ => (KE_NOT_DORMANT, d)
  | .POLL, d => if d.EventFlag then (0, { d with EventFlag := false }) else (1, d)
  | .GET_STATUS, d => (d.hdskStatus, d)
  | .STOP, d => (- EINVAL, { d with hdskStopFlag := true, log := d.log ++ [.stop] })
  | .GET_PROGRESS, d => (d.hdskProgress, d)

/-- One step of `HdskThread`, `none` where it is dormant. -/
def work (partitionMaxSize : Nat) (ans : Answer) (d : Driver) : Option Driver :=
  match d.thread with
  | .dormant => none
  | .clearProgress => some { d with hdskProgress := 0, thread := .clearStatus }
  | .clearStatus => some { d with hdskStatus := 0, thread := .clearStop }
  | .clearStop => some { d with hdskStopFlag := false, thread := .first }
  | .first => some { d with
      hdskStatus := ans.result
      thread := if 0 ≤ ans.result then .size HDSK_MIN_PART_SIZE else .cleanup }
  | .size PartSize => some { d with
      thread := if PartSize < partitionMaxSize then .round PartSize else .cleanup }
  | .round PartSize => some { d with
      hdskStatus := ans.result
      thread := if 0 ≤ ans.result then .empty PartSize true else .left PartSize }
  | .empty PartSize _ => some { d with
      thread :=
        match ans.header with
        | none => .left PartSize
        | some true => .look PartSize (.partition true)
        | some false => .passed PartSize }
  | .passed PartSize => some { d with
      thread := if d.hdskStopFlag then .left PartSize else .empty PartSize false }
  | .look PartSize search => some { d with
      thread :=
        match ans.header with
        | none => (search.next PartSize).elim (.left PartSize) (.look PartSize)
        | some true => search.chosen PartSize
        | some false => .looked PartSize search }
  -- the request ends the search with the header that was not the one, and it is moved
  | .looked PartSize search => some { d with
      thread := if d.hdskStopFlag then search.chosen PartSize else .look PartSize search }
  | .split PartSize => some { d with
      thread := if ans.result = 0 then .move PartSize true else .result PartSize true ans.result }
  | .move PartSize block =>
    if ans.result = 0 then
      some { d with thread := .read PartSize block ans.blocks 0, log := d.log ++ [.copy] }
    else some { d with thread := .result PartSize block ans.result }
  | .read PartSize block blocks i => some { d with
      thread :=
        if ans.result = 0 then .write PartSize block blocks i else .result PartSize block (- EIO)
      log := d.log ++ [.chunk] }
  | .write PartSize block blocks i =>
    if ans.result = 0 then
      some { d with
        hdskProgress := u32 (d.hdskProgress + IOBUFFER_SIZE_SECTORS)
        -- the flag is not tested behind the first chunk
        thread :=
          if i = 0 then
            if 1 < blocks then .read PartSize block blocks 1 else .copied PartSize block
          else .tested PartSize block blocks i }
    else some { d with thread := .result PartSize block (- EIO) }
  | .tested PartSize block blocks i => some { d with
      thread :=
        if d.hdskStopFlag then .copied PartSize block
        else if i + 1 < blocks then .read PartSize block blocks (i + 1)
        else .copied PartSize block }
  | .copied PartSize block => some { d with
      thread := if d.hdskStopFlag then .result PartSize block 0 else .swap PartSize block }
  | .swap PartSize block => some { d with thread := .result PartSize block 0 }
  | .result PartSize block value =>
    if value ≠ 0 then some { d with hdskStatus := value, thread := .cleanup }
    else if block then some { d with thread := .next PartSize }
    else some { d with hdskStatus := value, thread := .round PartSize }
  | .next PartSize =>
    if d.hdskStopFlag = false ∧ ans.more = true then some { d with thread := .split PartSize }
    else some { d with hdskStatus := 0, thread := .round PartSize }
  | .left PartSize => some { d with
      thread :=
        if d.hdskStatus ≠ 0 ∨ d.hdskStopFlag = true then .cleanup else .size (u32 (PartSize * 2)) }
  | .cleanup => some { d with thread := .signal }
  | .signal => some { d with
      EventFlag := true, thread := .ending, log := d.log ++ [.signalled] }
  | .ending => some { d with thread := .dormant }

inductive Action where
  | devctl (cmd : Command)
  | work (ans : Answer)

/-- A request or a step of the thread. -/
def step (partitionMaxSize : Nat) (d : Driver) : Action → Option Driver
  | .devctl cmd => some (d.HdskDevctl cmd).2
  | .work ans => d.work partitionMaxSize ans

/-- Requests and steps of the thread one after the other. -/
def run (partitionMaxSize : Nat) : List Action → Driver → Option Driver
  | [], d => some d
  | a :: as, d => (d.step partitionMaxSize a).bind (run partitionMaxSize as)

end Driver

/-! ### Stop requests -/

/-- The run of the thread that is under way, after an event: whether a stop request has reached it. -/
def Event.follow (running : Option Bool) : Event → Option Bool
  | .started => some false
  | .stop => running.map fun _ => true
  | .signalled => none
  | .reset => none
  | .copy => running
  | .chunk => running

/-- The run of the thread that is under way at the end of a log. -/
def underWay (log : List Event) : Option Bool := log.foldl Event.follow none

/-- In a run that a stop request has reached no copy and no chunk of one begins. -/
def Honoured (log : List Event) : Prop :=
  ∀ A e B, log = A ++ e :: B → e = .copy ∨ e = .chunk → underWay A ≠ some true

variable {max : Nat} {d d' : Driver} {log : List Event} {a : Driver.Action} {as bs : List Driver.Action}

theorem underWay_snoc (log : List Event) (e : Event) :
    underWay (log ++ [e]) = e.follow (underWay log) := by
  simp [underWay]

theorem Honoured.snoc {e : Event} (h : Honoured log)
    (he : e = .copy ∨ e = .chunk → underWay log ≠ some true) : Honoured (log ++ [e]) := by
  intro A e' B heq hcopy
  rcases List.eq_nil_or_concat B with rfl | ⟨C, e'', rfl⟩
  · obtain ⟨rfl, hlast⟩ := List.append_inj' heq rfl
    cases hlast
    exact he hcopy
  · have heq' : log ++ [e] = (A ++ e' :: C) ++ [e''] := by simpa using heq
    exact h A e' C (List.append_inj' heq' rfl).1 hcopy

theorem not_honoured_snoc {e : Event} (he : e = .copy ∨ e = .chunk)
    (hstop : underWay log = some true) : ¬ Honoured (log ++ [e]) :=
  fun h => h log e [] rfl he hstop

/-- The places from which no partition size is tried any more. -/
def Place.Ends (max : Nat) : Place → Prop
  | .dormant | .cleanup | .signal | .ending => True
  | .clearProgress | .clearStatus | .clearStop | .first => max ≤ HDSK_MIN_PART_SIZE
  | .size PartSize => max ≤ PartSize
  | .result _ _ value => value ≠ 0
  | _ => False

/-- The places from which the thread tests the flag before it begins a copy or a chunk of one. -/
def Place.Sees : Place → Prop
  | .first | .size _ | .round _ | .passed _ | .tested .. | .copied .. | .swap .. | .result .. | .next _ | .left _ => True
  | .empty _ mbr => mbr = true
  | .write _ _ blocks i => i ≠ 0 ∨ blocks ≤ 1
  | _ => False

/-- A stop request is honoured from here. -/
def Place.Late (max : Nat) (p : Place) : Prop := p.Ends max ∨ p.Sees

/-- What holds of every step of a run. -/
def Along (max : Nat) (P : Driver.Action → Driver → Prop) : List Driver.Action → Driver → Prop
  | [], _ => True
  | a :: as, d => P a d ∧ (d.step max a).elim True (Along max P as)

theorem Along.cons {Q : Driver.Action → Driver → Prop} (h : Along max Q (a :: as) d) (hstep : d.step max a = some d') :
    Along max Q as d' := by
  have hrest := h.2
  rw [hstep] at hrest
  exact hrest

/-- Every stop request of a run finds the thread at a late place. -/
def StopsLate (max : Nat) : List Driver.Action → Driver → Prop :=
  Along max fun a d => a = .devctl .STOP → d.thread.Late max

/-- `hdskFindEmptyPartition` has the header of sector 0 at hand. -/
def Place.atMbr : Place → Bool
  | .empty _ mbr => mbr
  | _ => false

/-- The header of sector 0 is not taken for an empty partition. -/
def MbrFirst : Driver.Action → Driver → Prop
  | .work ans, d => d.thread.atMbr = true → ans.header ≠ some true
  | .devctl _, _ => True

/-- Sector 0 has the header of `__mbr`, which is not free. -/
def MbrUsed (max : Nat) : List Driver.Action → Driver → Prop := Along max MbrFirst

instance (a : Driver.Action) (d : Driver) : Decidable (MbrFirst a d) :=
  match a with
  | .work ans => inferInstanceAs (Decidable (d.thread.atMbr = true → ans.header ≠ some true))
  | .devctl _ => isTrue trivial

/-- It is decided by making the run. -/
def decideMbrUsed (max : Nat) : (as : List Driver.Action) → (d : Driver) → Decidable (MbrUsed max as d)
  | [], _ => isTrue trivial
  | a :: as, d =>
    match hstep : d.step max a with
    | none => decidable_of_iff (MbrFirst a d) (by simp [MbrUsed, Along, hstep])
    | some d' =>
      have := decideMbrUsed max as d'
      decidable_of_iff (MbrFirst a d ∧ MbrUsed max as d') (by simp [MbrUsed, Along, hstep])

instance (as : List Driver.Action) (d : Driver) : Decidable (MbrUsed max as d) := decideMbrUsed max as d

/-- What holds as long as stop requests come late: none is followed by a copy, and the thread sees it where it matters. -/
structure Inv (max : Nat) (d : Driver) : Prop where
  honoured : Honoured d.log
  late : underWay d.log = some true → d.thread.Ends max ∨ (d.thread.Sees ∧ d.hdskStopFlag = true)

theorem inv_init (max : Nat) : Inv max .init := by
  refine ⟨fun A e B heq => ?_, fun h => ?_⟩
  · simp [Driver.init] at heq
  · simp [Driver.init, underWay] at h

/-- A step that logs nothing, from a late place only to a late place. -/
theorem Inv.of_log (h : Inv max d) (hlog : d'.log = d.log)
    (hlate : d.thread.Ends max ∨ (d.thread.Sees ∧ d.hdskStopFlag = true) →
      d'.thread.Ends max ∨ (d'.thread.Sees ∧ d'.hdskStopFlag = true)) : Inv max d' := by
  refine ⟨hlog ▸ h.honoured, fun hstop => ?_⟩
  rw [hlog] at hstop
  exact hlate (h.late hstop)

theorem Inv.not_stopped (h : Inv max d) (hends : ¬ d.thread.Ends max) (hsees : ¬ d.thread.Sees) :
    underWay d.log ≠ some true := by
  intro hstop
  rcases h.late hstop with hplace | hplace
  · exact hends hplace
  · exact hsees hplace.1

theorem Inv.logged {e : Event} (h : Inv max d) (hrunning : underWay d.log ≠ some true)
    (he : e.follow (underWay d.log) = underWay d.log) (hlog : d'.log = d.log ++ [e]) : Inv max d' := by
  refine ⟨hlog ▸ h.honoured.snoc fun _ => hrunning, fun hstop => ?_⟩
  rw [hlog, underWay_snoc, he] at hstop
  exact (hrunning hstop).elim

theorem Inv.work {ans : Answer} (h : Inv max d) (hmbr : MbrFirst (.work ans) d)
    (hstep : d.work max ans = some d') : Inv max d' := by
  cases hthread : d.thread with
  | dormant => simp [Driver.work, hthread] at hstep
  | move PartSize block =>
    have hrunning := h.not_stopped (by simp [hthread, Place.Ends]) (by simp [hthread, Place.Sees])
    simp only [Driver.work, hthread] at hstep
    split at hstep <;> cases hstep
    · exact h.logged hrunning rfl rfl
    · exact h.of_log rfl (by simp [hthread, Place.Ends, Place.Sees])
  | read PartSize block blocks i =>
    have hrunning := h.not_stopped (by simp [hthread, Place.Ends]) (by simp [hthread, Place.Sees])
    simp only [Driver.work, hthread] at hstep
    cases hstep
    exact h.logged hrunning rfl rfl
  | signal =>
    simp only [Driver.work, hthread] at hstep
    cases hstep
    refine ⟨h.honoured.snoc (by simp), fun hstop => ?_⟩
    rw [underWay_snoc] at hstop
    cases hstop
  | empty PartSize mbr =>
    simp only [Driver.work, hthread] at hstep
    cases hstep
    refine h.of_log rfl fun hplace => ?_
    rw [hthread] at hplace
    rcases hplace with hends | ⟨hsees, hflag⟩
    · exact hends.elim
    · -- the header of `__mbr` is passed, or there is none
      have hfirst : mbr = true := hsees
      have hheader : ans.header ≠ some true := hmbr (by rw [hthread, hfirst]; rfl)
      right
      refine ⟨?_, hflag⟩
      cases hans : ans.header with
      | none => trivial
      | some found =>
        cases found with
        | false => trivial
        | true => exact (hheader hans).elim
  | write PartSize block blocks i =>
    simp only [Driver.work, hthread] at hstep
    split at hstep <;> cases hstep
    · refine h.of_log rfl fun hplace => ?_
      rw [hthread] at hplace
      rcases hplace with hends | ⟨hsees, hflag⟩
      · exact hends.elim
      · refine .inr ⟨?_, hflag⟩
        rcases hsees with hi | hblocks
        · simp [hi, Place.Sees]
        · by_cases hi : i = 0 <;> simp [hi, Nat.not_lt.mpr hblocks, Place.Sees]
    · exact h.of_log rfl fun hplace => .inl (by decide : (- EIO : Int) ≠ 0)
  | size PartSize =>
    simp only [Driver.work, hthread] at hstep
    cases hstep
    refine h.of_log rfl fun hplace => ?_
    rw [hthread] at hplace
    rcases hplace with hle | ⟨-, hflag⟩
    · exact .inl (by simp [Nat.not_lt.mpr hle, Place.Ends])
    · dsimp only
      split
      · exact .inr ⟨trivial, hflag⟩
      · exact .inl trivial
  | first =>
    simp only [Driver.work, hthread] at hstep
    cases hstep
    refine h.of_log rfl fun hplace => ?_
    rw [hthread] at hplace
    dsimp only
    split
    · exact hplace
    · exact .inl trivial
  | result PartSize block value =>
    simp only [Driver.work, hthread] at hstep
    refine h.of_log ?_ fun hplace => ?_
    · split at hstep
      · cases hstep
        rfl
      · split at hstep <;> cases hstep <;> rfl
    · rw [hthread] at hplace
      split at hstep
      · cases hstep
        exact .inl trivial
      · rename_i hvalue
        rcases hplace with hends | ⟨-, hflag⟩
        · exact (hvalue hends).elim
        · split at hstep <;> cases hstep <;> exact .inr ⟨trivial, hflag⟩
  | clearStop =>
    simp only [Driver.work, hthread] at hstep
    cases hstep
    exact h.of_log rfl (by simp [hthread, Place.Ends, Place.Sees])
  | next PartSize =>
    simp only [Driver.work, hthread] at hstep
    split at hstep <;> cases hstep
    · rename_i hmore
      exact h.of_log rfl (by simp [hthread, Place.Ends, Place.Sees, hmore.1])
    · exact h.of_log rfl (by simp [hthread, Place.Ends, Place.Sees])
  | _ =>
    -- the log stays, and the thread is not late or stays so
    simp only [Driver.work, hthread] at hstep
    cases hstep
    refine h.of_log rfl ?_
    rw [hthread]
    dsimp only
    repeat' split
    all_goals simp_all [Place.Ends, Place.Sees]

/-- A stop request at a late place keeps the invariant, and so does every other request. -/
theorem Inv.devctl {cmd : Command} (h : Inv max d) (hlate : cmd = .STOP → d.thread.Late max) :
    Inv max (d.HdskDevctl cmd).2 := by
  cases cmd with
  | START =>
    cases hthread : d.thread with
    | dormant =>
      simp only [Driver.HdskDevctl, hthread]
      refine ⟨h.honoured.snoc (by simp), fun hstop => ?_⟩
      rw [underWay_snoc] at hstop
      cases hstop
    | _ =>
      simp only [Driver.HdskDevctl, hthread]
      exact h
  | POLL =>
    simp only [Driver.HdskDevctl]
    split
    · exact h.of_log rfl id
    · exact h
  | GET_STATUS => exact h
  | STOP =>
    refine ⟨h.honoured.snoc (by simp), fun _ => ?_⟩
    rcases hlate rfl with hends | hsees
    · exact .inl hends
    · exact .inr ⟨hsees, rfl⟩
  | GET_PROGRESS => exact h

theorem Inv.run (h : Inv max d) (hmbr : MbrUsed max as d) (hlate : StopsLate max as d)
    (hrun : d.run max as = some d') : Inv max d' := by
  induction as generalizing d with
  | nil =>
    cases hrun
    exact h
  | cons a as ih =>
    obtain ⟨e, hstep, hrest⟩ := Option.bind_eq_some_iff.mp hrun
    refine ih ?_ (hmbr.cons hstep) (hlate.cons hstep) hrest
    cases a with
    | devctl cmd =>
      cases hstep
      exact h.devctl fun heq => hlate.1 (heq ▸ rfl)
    | work ans => exact h.work hmbr.1 hstep

/-! ### Stop requests that are lost -/

/-- Left to itself the thread comes to a copy or a chunk it was asked not to begin, where the disk has a partition to move. -/
def Overrun (max : Nat) (d : Driver) : Prop :=
  ∃ bs d', d.run max bs = some d' ∧ MbrUsed max bs d ∧ ¬ Honoured d'.log

theorem Overrun.step (ans : Answer) (hstep : d.work max ans = some d') (hmbr : MbrFirst (.work ans) d)
    (h : Overrun max d') : Overrun max d := by
  obtain ⟨bs, e, hrun, hused, hlog⟩ := h
  refine ⟨.work ans :: bs, e, ?_, ⟨hmbr, ?_⟩, hlog⟩
  · rw [Driver.run, Driver.step, hstep]
    exact hrun
  · rw [Driver.step, hstep]
    exact hused

theorem overrun_of_log (h : ¬ Honoured d.log) : Overrun max d := ⟨[], d, rfl, trivial, h⟩

/-- All goes well, and the header at hand is not the one. -/
def passing : Answer := ⟨0, some false, 2, false⟩

/-- All goes well, and the header at hand is the one that is searched for. -/
def found : Answer := ⟨0, some true, 2, false⟩

variable {P n i : Nat} {b : Bool}

theorem mbrFirst_passing (d : Driver) : MbrFirst (.work passing) d := by
  intro _
  simp [passing]

theorem mbrFirst_of_thread {ans : Answer} (h : d.thread.atMbr = false) : MbrFirst (.work ans) d := by
  intro hmbr
  rw [h] at hmbr
  cases hmbr

theorem overrun_move (hstop : underWay d.log = some true) (hthread : d.thread = .move P b) :
    Overrun max d := by
  have hstep : d.work max passing =
      some { d with thread := .read P b 2 0, log := d.log ++ [.copy] } := by
    simp [Driver.work, hthread, passing]
  exact .step passing hstep (mbrFirst_passing d) (overrun_of_log (not_honoured_snoc (.inl rfl) hstop))

theorem overrun_split (hstop : underWay d.log = some true) (hthread : d.thread = .split P) :
    Overrun max d := by
  have hstep : d.work max passing = some { d with thread := .move P true } := by
    simp [Driver.work, hthread, passing]
  exact .step passing hstep (mbrFirst_passing d) (overrun_move hstop rfl)

theorem overrun_chosen {search : Search} (hstop : underWay d.log = some true)
    (hthread : d.thread = search.chosen P) : Overrun max d := by
  cases search with
  | partition mode => exact overrun_move hstop hthread
  | block mode => exact overrun_split hstop hthread

theorem overrun_look {search : Search} (hstop : underWay d.log = some true)
    (hthread : d.thread = .look P search) : Overrun max d := by
  have hstep : d.work max found = some { d with thread := search.chosen P } := by
    simp [Driver.work, hthread, found]
  exact .step found hstep (mbrFirst_of_thread (hthread ▸ rfl)) (overrun_chosen hstop rfl)

/-- With or without the request the thread goes on: the request ends the search, but not the round. -/
private theorem overrun_looked {search : Search} (hstop : underWay d.log = some true)
    (hthread : d.thread = .looked P search) : Overrun max d := by
  cases hflag : d.hdskStopFlag with
  | true =>
    have hstep : d.work max passing = some { d with thread := search.chosen P } := by
      simp [Driver.work, hthread, hflag]
    exact .step passing hstep (mbrFirst_passing d) (overrun_chosen hstop rfl)
  | false =>
    have hstep : d.work max passing = some { d with thread := .look P search } := by
      simp [Driver.work, hthread, hflag]
    exact .step passing hstep (mbrFirst_passing d) (overrun_look hstop rfl)

theorem overrun_empty (hstop : underWay d.log = some true) (hthread : d.thread = .empty P false) :
    Overrun max d := by
  have hstep : d.work max found = some { d with thread := .look P (.partition true) } := by
    simp [Driver.work, hthread, found]
  exact .step found hstep (mbrFirst_of_thread (hthread ▸ rfl)) (overrun_look hstop rfl)

theorem overrun_read (hstop : underWay d.log = some true) (hthread : d.thread = .read P b n i) :
    Overrun max d := by
  have hstep : d.work max passing =
      some { d with thread := .write P b n i, log := d.log ++ [.chunk] } := by
    simp [Driver.work, hthread, passing]
  exact .step passing hstep (mbrFirst_passing d) (overrun_of_log (not_honoured_snoc (.inr rfl) hstop))

private theorem overrun_write (hstop : underWay d.log = some true) (hthread : d.thread = .write P b n 0)
    (hn : 1 < n) : Overrun max d := by
  have hstep : d.work max passing = some { d with
      hdskProgress := u32 (d.hdskProgress + IOBUFFER_SIZE_SECTORS), thread := .read P b n 1 } := by
    simp [Driver.work, hthread, passing, hn]
  exact .step passing hstep (mbrFirst_passing d) (overrun_read hstop rfl)

/-- A round that finds the flag clear goes on behind `__mbr`. -/
private theorem overrun_round (hstop : underWay d.log = some true) (hthread : d.thread = .round P)
    (hflag : d.hdskStopFlag = false) : Overrun max d := by
  have hround : d.work max passing = some { d with hdskStatus := 0, thread := .empty P true } := by
    simp [Driver.work, hthread, passing]
  have hempty : Driver.work max passing { d with hdskStatus := 0, thread := .empty P true } =
      some { d with hdskStatus := 0, thread := .passed P } := by
    simp [Driver.work, passing]
  have hpassed : Driver.work max passing { d with hdskStatus := 0, thread := .passed P } =
      some { d with hdskStatus := 0, thread := .empty P false } := by
    simp [Driver.work, hflag]
  exact .step passing hround (mbrFirst_passing _) (.step passing hempty (mbrFirst_passing _)
    (.step passing hpassed (mbrFirst_passing _) (overrun_empty hstop rfl)))

/-- The thread clears the flag only now. -/
theorem overrun_clearStop (hstop : underWay d.log = some true) (hthread : d.thread = .clearStop)
    (hlt : HDSK_MIN_PART_SIZE < max) : Overrun max d := by
  have hclear : d.work max passing = some { d with hdskStopFlag := false, thread := .first } := by
    simp [Driver.work, hthread]
  have hfirst : Driver.work max passing { d with hdskStopFlag := false, thread := .first } =
      some { d with hdskStopFlag := false, hdskStatus := 0, thread := .size HDSK_MIN_PART_SIZE } := by
    simp [Driver.work, passing]
  have hsize : Driver.work max passing
      { d with hdskStopFlag := false, hdskStatus := 0, thread := .size HDSK_MIN_PART_SIZE } =
      some { d with hdskStopFlag := false, hdskStatus := 0, thread := .round HDSK_MIN_PART_SIZE } := by
    simp [Driver.work, hlt]
  exact .step passing hclear (mbrFirst_passing _) (.step passing hfirst (mbrFirst_passing _)
    (.step passing hsize (mbrFirst_passing _) (overrun_round hstop rfl rfl)))

theorem overrun_clearStatus (hstop : underWay d.log = some true) (hthread : d.thread = .clearStatus)
    (hlt : HDSK_MIN_PART_SIZE < max) : Overrun max d := by
  have hstep : d.work max passing = some { d with hdskStatus := 0, thread := .clearStop } := by
    simp [Driver.work, hthread]
  exact .step passing hstep (mbrFirst_passing d) (overrun_clearStop hstop rfl hlt)

private theorem overrun_clearProgress (hstop : underWay d.log = some true) (hthread : d.thread = .clearProgress)
    (hlt : HDSK_MIN_PART_SIZE < max) : Overrun max d := by
  have hstep : d.work max passing = some { d with hdskProgress := 0, thread := .clearStatus } := by
    simp [Driver.work, hthread]
  exact .step passing hstep (mbrFirst_passing d) (overrun_clearStatus hstop rfl hlt)

/-- A stop request at a place that is not late is overrun, where the disk has a partition to move. -/
private theorem overrun_of_stopped (hstop : underWay d.log = some true) (hplace : ¬ d.thread.Late max) :
    Overrun max d := by
  simp only [Place.Late, not_or] at hplace
  obtain ⟨hends, hsees⟩ := hplace
  cases hthread : d.thread with
  | clearProgress =>
    exact overrun_clearProgress hstop hthread (by simpa [hthread, Place.Ends] using hends)
  | clearStatus =>
    exact overrun_clearStatus hstop hthread (by simpa [hthread, Place.Ends] using hends)
  | clearStop => exact overrun_clearStop hstop hthread (by simpa [hthread, Place.Ends] using hends)
  | empty P mbr =>
    have hmbr : mbr = false := by simpa [hthread, Place.Sees] using hsees
    exact overrun_empty hstop (hmbr ▸ hthread)
  | look P search => exact overrun_look hstop hthread
  | looked P search => exact overrun_looked hstop hthread
  | split P => exact overrun_split hstop hthread
  | move P b => exact overrun_move hstop hthread
  | read P b n i => exact overrun_read hstop hthread
  | write P b n i =>
    have hchunk : i = 0 ∧ 1 < n := by simpa [hthread, Place.Sees] using hsees
    exact overrun_write hstop (hchunk.1 ▸ hthread) hchunk.2
  | dormant | cleanup | signal | ending => simp [hthread, Place.Ends] at hends
  | first | size | round | passed | tested | copied | swap | result | next | left =>
    simp [hthread, Place.Sees] at hsees

theorem Driver.run_append : d.run max (as ++ bs) = (d.run max as).bind (Driver.run max bs) := by
  induction as generalizing d with
  | nil => rfl
  | cons a as ih =>
    rw [List.cons_append, Driver.run, Driver.run, Option.bind_assoc]
    exact congrArg _ (funext fun e => ih)

theorem Along.append {Q : Driver.Action → Driver → Prop} (has : Along max Q as d)
    (hrun : d.run max as = some d') (hbs : Along max Q bs d') : Along max Q (as ++ bs) d := by
  induction as generalizing d with
  | nil =>
    cases hrun
    exact hbs
  | cons a as ih =>
    obtain ⟨e, hstep, hrest⟩ := Option.bind_eq_some_iff.mp hrun
    refine ⟨has.1, ?_⟩
    rw [hstep]
    exact ih (has.cons hstep) hrest

theorem stopsLate_of_not_mem (h : .devctl .STOP ∉ as) : StopsLate max as d := by
  induction as generalizing d with
  | nil => trivial
  | cons a as ih =>
    refine ⟨fun heq => (h (heq ▸ List.mem_cons_self)).elim, ?_⟩
    cases d.step max a with
    | none => trivial
    | some e => exact ih fun hmem => h (List.mem_cons_of_mem _ hmem)

/-- Where every stop request comes late, no copy and no chunk begins in a run that was asked to stop. A request that comes at any other place while the thread runs may be followed by another copy or chunk. -/
theorem stop_honoured (max : Nat) (as : List Driver.Action) (d : Driver)
    (hmbr : MbrUsed max as .init) (hrun : Driver.init.run max as = some d) :
    (StopsLate max as .init → Honoured d.log) ∧
    (underWay d.log ≠ none → ¬ d.thread.Late max →
      ∃ bs d', Driver.init.run max (as ++ .devctl .STOP :: bs) = some d' ∧
        MbrUsed max (as ++ .devctl .STOP :: bs) .init ∧ ¬ Honoured d'.log) := by
  refine ⟨fun hlate => ((inv_init max).run hmbr hlate hrun).honoured, fun hgoing hplace => ?_⟩
  have hstop : underWay (d.HdskDevctl .STOP).2.log = some true := by
    simp only [Driver.HdskDevctl, underWay_snoc, Event.follow]
    cases hway : underWay d.log with
    | none => exact (hgoing hway).elim
    | some stopped => rfl
  obtain ⟨bs, d', hrest, hused, hlog⟩ := overrun_of_stopped (d := (d.HdskDevctl .STOP).2) hstop hplace
  refine ⟨bs, d', ?_, hmbr.append hrun ⟨trivial, hused⟩, hlog⟩
  rw [Driver.run_append, hrun]
  exact hrest

/-- The request comes before the thread's first step, and the disk has a partition to move. -/
def stopAtOnce : List Driver.Action :=
  [.devctl .START, .devctl .STOP] ++ List.replicate 8 (.work passing) ++ List.replicate 2 (.work found) ++
    List.replicate 2 (.work passing)

theorem stop_not_honoured :
    ∃ d, MbrUsed 0x200000 stopAtOnce .init ∧ Driver.init.run 0x200000 stopAtOnce = some d ∧
      d.log = [.started, .stop, .copy, .chunk] ∧ ¬ Honoured d.log := by
  refine ⟨_, by decide +kernel, rfl, rfl, ?_⟩
  intro h
  exact h [.started, .stop] .copy [.chunk] rfl (.inl rfl) rfl

/-- A partition is being copied, and the request comes with its second chunk. -/
def stopWhileCopying : List Driver.Action :=
  .devctl .START :: List.replicate 8 (.work passing) ++ List.replicate 2 (.work found) ++
    List.replicate 4 (.work passing) ++ .devctl .STOP :: List.replicate 10 (.work passing)

theorem stop_honoured_copying :
    ∃ d, Driver.init.run 0x200000 stopWhileCopying = some d ∧
      d.log = [.started, .copy, .chunk, .chunk, .stop, .signalled] ∧ Honoured d.log := by
  refine ⟨_, rfl, rfl, ?_⟩
  refine (stop_honoured 0x200000 stopWhileCopying _ (by decide +kernel) rfl).1 ?_
  refine (stopsLate_of_not_mem ?_).append rfl ⟨fun _ => .inr (.inl (by decide)), stopsLate_of_not_mem ?_⟩
  · simp
  · simp

end HddChecker.Hdsk
