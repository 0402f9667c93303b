import HddChecker.Hdsk.Swap

/-!
# Moving a partition

`MovePartition` removes `_tmp`, copies the data and swaps the two headers. At every moment on the way the drive holds a table with all user partitions and their data, whatever the power leaves of it.
-/

namespace HddChecker.Hdsk

open HddChecker Apa Apa.Device Prog State

variable {w : WriteBack (Option Sector)} {s : State} {o : Prop} {U₀ : List ApaHeader} {c₀ : Content}
  {P : List ApaHeader} {dest x t : ApaHeader}

/-- A drive holds the table `P`, with all references right. Where there is a `_tmp`, the last partition is used. -/
structure Whole (o : Prop) (U₀ : List ApaHeader) (c₀ : Content) (w : WriteBack (Option Sector))
    (d : Device) (P : List ApaHeader) : Prop where
  steady : Steady (promise o U₀ c₀) w d P
  refs : Refs False (used P)
  last : ∀ t, FirstTmp P t → LastUsed P
  ne_nil : P ≠ []

theorem Whole.same {d e : Device} (h : Whole o U₀ c₀ w d P) (hsame : Same Slot d e) :
    Whole o U₀ c₀ w e P := { h with steady := h.steady.same hsame }

/-- Where `_tmp` is removed, neither `x` nor `dest` goes with it. -/
def Undisturbed (P : List ApaHeader) (dest x : ApaHeader) : Prop :=
  ∀ t, FirstTmp P t → ¬ Family t.start x ∧ Clear P (Family t.start) dest

/-- The table `P` without its first `_tmp`, or as it is where it has none. -/
def Cleaned (P P' : List ApaHeader) : Prop :=
  (∀ x ∈ P, x.isTmp = false) ∧ P' = P ∨ ∃ t, FirstTmp P t ∧ Removed P P' t

theorem FirstTmp.mem (h : FirstTmp P t) : t ∈ P ∧ t.isTmp = true := by
  obtain ⟨A, B, rfl, -, htmp⟩ := h
  exact ⟨by simp, htmp⟩

theorem Cleaned.subset {P' : List ApaHeader} (h : Cleaned P P') (hx : x ∈ used P') : x ∈ used P := by
  rcases h with ⟨-, rfl⟩ | ⟨t, -, hremoved⟩
  · exact hx
  · exact hremoved.subset hx

theorem Cleaned.mem_used {P' : List ApaHeader} (h : Cleaned P P') (hx : x ∈ used P)
    (hnot : ∀ t, FirstTmp P t → ¬ Family t.start x) : x ∈ used P' := by
  rcases h with ⟨-, rfl⟩ | ⟨t, hfirst, hremoved⟩
  · exact hx
  · obtain ⟨S, hS, hperm⟩ := hremoved.family
    rcases List.mem_cons.mp (hperm.mem_iff.mp hx) with rfl | hx
    · exact (hnot x hfirst (.inl rfl)).elim
    · rcases List.mem_append.mp hx with hx | hx
      · exact (hnot t hfirst (.inr (hS x hx))).elim
      · exact hx

/-- How a move ends: with an error or a stop before the swap, or with the swap. -/
inductive Moved (o : Prop) (U₀ : List ApaHeader) (c₀ : Content) (w : WriteBack (Option Sector))
    (P : List ApaHeader) (dest x : ApaHeader) (r : Int) (s' : State) : Prop
  | stays (hends : r = 0 → s'.stopped = true) (hwhole : Whole o U₀ c₀ w s'.dev P)
  | swaps (hok : r = 0)
      (hsteady : Steady (promise o U₀ c₀) w s'.dev (P.map (swapped x dest.start)))
      (hrefs : Refs False (used (P.map (swapped x dest.start))))
      (hlast : LastUsed P → LastUsed (P.map (swapped x dest.start)))

end HddChecker.Hdsk
