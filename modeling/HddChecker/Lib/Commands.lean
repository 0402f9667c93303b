import HddChecker.Lib.PowerLoss

/-!
# Commands that fail

A disk whose commands fail by a pattern: command number `n` of a run fails where `fails n` holds, and moves nothing then. The log keeps the addresses that were read, the entries of an index in memory that were looked at, and what was stored.
-/

namespace HddChecker

variable {α : Type}

/-- What a program did to a disk. -/
inductive Event (α : Type) where
  | read (addresses : List Nat)
  | entry (i : Nat)
  | stored (writes : List (Nat × α))

structure FaultyDisk (α : Type) where
  content : Nat → α
  fails : Nat → Bool
  issued : Nat
  log : List (Event α)

/-- Of the commands from number `first` on, the one after `k` others is the first to fail. -/
def FirstFailure (fails : Nat → Bool) (first k : Nat) : Prop :=
  fails (first + k) = true ∧ ∀ i < k, fails (first + i) = false

/-- Of `n` commands none fails, or there is a first one that does. -/
theorem firstFailure_or (fails : Nat → Bool) (first n : Nat) :
    (∀ i < n, fails (first + i) = false) ∨ ∃ k < n, FirstFailure fails first k := by
  induction n with
  | zero => exact .inl fun i hi => by omega
  | succ n ih =>
    rcases ih with hgood | ⟨k, hk, hfirst⟩
    · cases hlast : fails (first + n) with
      | true => exact .inr ⟨n, by omega, hlast, hgood⟩
      | false =>
        refine .inl fun i hi => ?_
        rcases Nat.lt_succ_iff_lt_or_eq.mp hi with hlt | rfl
        · exact hgood i hlt
        · exact hlast
    · exact .inr ⟨k, by omega, hfirst⟩

theorem FirstFailure.unique {fails : Nat → Bool} {first k k' : Nat} (h : FirstFailure fails first k)
    (h' : FirstFailure fails first k') : k = k' := by
  rcases Nat.lt_trichotomy k k' with hlt | heq | hlt
  · have := h'.2 k hlt
    rw [h.1] at this
    cases this
  · exact heq
  · have := h.2 k' hlt
    rw [h'.1] at this
    cases this

/-- The writes of a log, in their order. -/
def stores : List (Event α) → List (List (Nat × α))
  | [] => []
  | .stored writes :: log => writes :: stores log
  | _ :: log => stores log

theorem stores_append (log log' : List (Event α)) : stores (log ++ log') = stores log ++ stores log' := by
  induction log with
  | nil => rfl
  | cons e log ih =>
    cases e with
    | read addresses => exact ih
    | entry i => exact ih
    | stored writes => exact congrArg _ ih

namespace FaultyDisk

/-- A disk before the first command. -/
def fresh (content : Nat → α) (fails : Nat → Bool) : FaultyDisk α := ⟨content, fails, 0, []⟩

/-- A command that reads the addresses: what they hold, or nothing where it fails. -/
def read (addresses : List Nat) (d : FaultyDisk α) : Option (List α) × FaultyDisk α :=
  (if d.fails d.issued then none else some (addresses.map d.content),
    { d with issued := d.issued + 1, log := d.log ++ [.read addresses] })

/-- A command that writes, and whether it succeeds. -/
def write (writes : List (Nat × α)) (d : FaultyDisk α) : Bool × FaultyDisk α :=
  if d.fails d.issued then (false, { d with issued := d.issued + 1 })
  else (true, { d with
    content := applyWrites writes d.content
    issued := d.issued + 1
    log := d.log ++ [.stored writes] })

/-- A command that flushes the write cache, and whether it succeeds. -/
def flush (d : FaultyDisk α) : Bool × FaultyDisk α :=
  (!d.fails d.issued, { d with issued := d.issued + 1 })

/-- An entry of the index is looked at. -/
def look (i : Nat) (d : FaultyDisk α) : FaultyDisk α := { d with log := d.log ++ [.entry i] }

theorem read_of_fails {d : FaultyDisk α} (h : d.fails d.issued = true) (addresses : List Nat) :
    d.read addresses = (none, (d.read addresses).2) := by
  unfold read
  rw [h, if_pos rfl]

theorem read_of_works {d : FaultyDisk α} (h : d.fails d.issued = false) (addresses : List Nat) :
    d.read addresses = (some (addresses.map d.content), (d.read addresses).2) := by
  unfold read
  rw [h, if_neg Bool.false_ne_true]

end FaultyDisk

end HddChecker
