import HddChecker.Apa.Format
import HddChecker.Hdsk.Move

/-!
# Power loss during a move

What the power leaves of a drive when it goes during `MovePartition`, at any operation, and after `apaJournalRestore`: a well formed table with all user partitions and their data. The move relies on `_tmp` being out of the way: its removal must leave the destination alone.
-/

namespace HddChecker.Hdsk

open HddChecker Apa Apa.Device Prog State WriteBack

variable {P : List ApaHeader} {dest x t : ApaHeader} {c : Content} {s : State}

/-- The content `c` holds the well formed table `P`. -/
structure WellFormed (P : List ApaHeader) (c : Content) : Prop where
  ring : headerLinks.Ring (apaReadHeader c) P
  tiles : Tiles 0 P
  refs : Refs False (used P)
  ne_nil : P ≠ []

/-- `_tmp` has no subs, and its removal cannot merge the last partition into another one. -/
structure Removable (P : List ApaHeader) (t : ApaHeader) : Prop where
  alone : t.nsub = 0
  last : LastUsed P

theorem whole_of_idle (h : s.dev.Idle P) (hwell : WellFormed P s.dev.disk)
    (hlast : ∀ t, FirstTmp P t → Removable P t) :
    Whole False (users (used P)) s.dev.disk ⟨s.dev.disk, []⟩ s.dev P where
  steady := h.steady hwell.ne_nil hwell.ring hwell.tiles ⟨hwell.refs, Kept.refl _ _⟩
  refs := hwell.refs
  last := fun t ht => (hlast t ht).last
  ne_nil := hwell.ne_nil

theorem Moved.safe {o : Prop} {U₀ : List ApaHeader} {c₀ : Content} {w : WriteBack (Option Sector)}
    {r : Int} (h : Moved o U₀ c₀ w P dest x r s) : Always (Survives (promise o U₀ c₀)) w s.dev.ops := by
  cases h with
  | stays hends hwhole => exact hwhole.steady.safe
  | swaps hok hsteady hrefs hlast => exact hsteady.safe

/-- A drive that was just started, with the table `P`; the user stops the work at once where `stop` is 0. -/
def restState (P : List ApaHeader) (stop : Option Nat) : State where
  dev := Device.boot (tableDisk P)
  stop := stop
  hdskStatus := 0
  hdskProgress := 0
  totalLBA := 0x200000
  uninit := fun _ => 0

theorem idle_restState (P : List ApaHeader) (stop : Option Nat) : (restState P stop).dev.Idle P :=
  Device.idle_boot tableDisk_idle _

theorem no_firstTmp (h : ∀ y ∈ P, y.isTmp = false) (t : ApaHeader) : ¬ FirstTmp P t := by
  intro ht
  obtain ⟨hmem, htmp⟩ := ht.mem
  rw [h t hmem] at htmp
  cases htmp

/-- The chain of a well formed table goes on where a header names a next one. -/
theorem WellFormed.follow {a n : Nat} (h : WellFormed P c) (ha : ∃ y ∈ P, y.start = a)
    (hread : (apaReadHeader c a).map (·.next) = some n) (hn : n ≠ 0) : ∃ y ∈ P, y.start = n := by
  obtain ⟨y, hy, rfl⟩ := ha
  obtain ⟨A, B, rfl⟩ := List.append_of_mem hy
  obtain ⟨u, hu, -, -, hnext⟩ := Linked.Chain.node h.ring
  have hu : apaReadHeader c y.start = some u := hu
  rw [hu, Option.map_some, Option.some.injEq] at hread
  cases B with
  | nil => exact absurd (hread.symm.trans hnext) hn
  | cons z B => exact ⟨z, by simp, (hread.symm.trans hnext).symm⟩

theorem WellFormed.mbr (h : WellFormed P c) : ∃ y ∈ P, y.start = 0 := by
  obtain ⟨m, L, rfl⟩ := List.exists_cons_of_ne_nil h.ne_nil
  exact ⟨m, List.mem_cons_self, h.tiles.1⟩

theorem WellFormed.readable {a : Nat} (h : WellFormed P c) (ha : ∃ y ∈ P, y.start = a) :
    apaReadHeader c a ≠ none := by
  obtain ⟨y, hy, rfl⟩ := ha
  obtain ⟨v, hv, -⟩ := Linked.Chain.mem h.ring hy
  have hv : apaReadHeader c y.start = some v := hv
  simp [hv]

end HddChecker.Hdsk
