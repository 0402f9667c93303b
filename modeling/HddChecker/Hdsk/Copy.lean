import HddChecker.Hdsk.Removal

/-!
# Copying a partition

How the state of the module goes on from one function to the next, with the stop request looked at now and then, and the copy of a partition's data to sectors nobody needs.
-/

namespace HddChecker.Hdsk

open HddChecker Apa Apa.Device Prog

/-! ### The stop request -/

namespace State

def stopped (s : State) : Bool := s.stop == some 0

/-- The state after the flag was looked at. -/
def look (s : State) : State := { s with stop := s.stop.map Nat.pred }

/-- What no function changes but the drive, the progress and the stop request. -/
structure Later (s s' : State) : Prop where
  totalLBA : s'.totalLBA = s.totalLBA
  hdskStatus : s'.hdskStatus = s.hdskStatus
  uninit : s'.uninit = s.uninit
  never : s.stop = none → s'.stop = none
  stays : s.stopped = true → s'.stopped = true

variable {s s' s'' : State}

theorem Later.refl (s : State) : Later s s := ⟨rfl, rfl, rfl, id, id⟩

theorem Later.trans (h : Later s s') (h' : Later s' s'') : Later s s'' where
  totalLBA := h'.totalLBA.trans h.totalLBA
  hdskStatus := h'.hdskStatus.trans h.hdskStatus
  uninit := h'.uninit.trans h.uninit
  never := fun hs => h'.never (h.never hs)
  stays := fun hs => h'.stays (h.stays hs)

theorem later_dev (s : State) (d : Device) : Later s { s with dev := d } := ⟨rfl, rfl, rfl, id, id⟩

/-- The state after a transfer of `CopyPartition`. -/
def moved (s : State) (d : Device) (progress : Nat) : State :=
  { s with dev := d, hdskProgress := progress }

@[simp] theorem moved_dev (s : State) (d : Device) (progress : Nat) :
    (s.moved d progress).dev = d := rfl

end State

open State

theorem wp_headerOf_bind {α : Type} {g : ApaHeader → Prog State α} {clink : Nat} {s : State}
    {Q : α → State → Prop} :
    wp (headerOf clink >>= g) s Q ↔ wp (g (s.dev.header clink)) s Q := Iff.rfl

theorem wp_devOp_bind {α β : Type} {f : Device → β × Device} {g : β → Prog State α} {s : State}
    {Q : α → State → Prop} :
    wp (devOp f >>= g) s Q ↔ wp (g (f s.dev).1) { s with dev := (f s.dev).2 } Q := Iff.rfl

theorem wp_devDo_bind {α : Type} {f : Device → Device} {g : Unit → Prog State α} {s : State}
    {Q : α → State → Prop} :
    wp (devDo f >>= g) s Q ↔ wp (g ()) { s with dev := f s.dev } Q := Iff.rfl

variable {π : Promise} {w : WriteBack (Option Sector)} {s : State} {m x : ApaHeader}
  {L P : List ApaHeader}

/-! ### Copying -/

/-- What is left behind by a copy of the sectors from `lo` to `hi`, counted from `start` and from `dest`. -/
structure Copied (π : Promise) (w : WriteBack (Option Sector)) (P : List ApaHeader)
    (dest start lo hi : Nat) (s : State) (result : Int) (s' : State) : Prop where
  later : Later s s'
  steady : Steady π w s'.dev P
  frame : ∀ a, a < dest + lo ∨ dest + hi ≤ a → s'.dev.disk a = s.dev.disk a
  data : result = 0 → s'.stopped = true ∨
    ∀ j, lo ≤ j → j < hi → s'.dev.disk (dest + j) = s.dev.disk (start + j)

end HddChecker.Hdsk
