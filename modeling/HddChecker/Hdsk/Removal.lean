import HddChecker.Hdsk.Thread
import HddChecker.Hdsk.Users

/-!
# Removing `_tmp`

`hdskRemoveTmp` takes the first `_tmp` of the table out of it, and its subs with it. The user partitions stay as they are, and so does an empty partition that cannot become one with the space of `_tmp`.
-/

namespace HddChecker.Hdsk

open HddChecker Apa Apa.Device Prog

variable {π : Promise} {w : WriteBack (Option Sector)} {d : Device} {m t x : ApaHeader}
  {A B L P : List ApaHeader}

/-- The main partition at `s` and its subs. -/
def Family (s : Nat) (x : ApaHeader) : Prop := x.start = s ∨ x.isSub = true ∧ x.main = s

/-- Whatever space can become one when the partitions `S` go, the empty partition `dest` shares it with another partition in use. -/
def Clear (P : List ApaHeader) (S : ApaHeader → Prop) (dest : ApaHeader) : Prop :=
  ∀ lo len, Dyadic lo len ∨ lo + len = total P → lo ≤ dest.start → dest.start < lo + len →
    (∃ t ∈ P, S t ∧ lo ≤ t.start ∧ t.start < lo + len) →
      ∃ z ∈ used P, ¬ S z ∧ lo ≤ z.start ∧ z.start < lo + len

/-- What is clear of the partitions `S` stays so when one of them is taken out. -/
theorem Clear.step {S : ApaHeader → Prop} {P' : List ApaHeader} {y : ApaHeader} (h : Clear P S y)
    (hx : S x) (hperm : (used P).Perm (x :: used P')) (htotal : total P' ≤ total P)
    (htiles : Tiles 0 P') (hused : ∀ z ∈ P', S z → z.isFree = false) : Clear P' S y := by
  rintro lo len hspan hlo hhi ⟨t, ht, hS, htlo, hthi⟩
  have htP : t ∈ P := (mem_used.mp (hperm.mem_iff.mpr
    (List.mem_cons_of_mem _ (mem_used.mpr ⟨ht, hused t ht hS⟩)))).1
  have hback : ∀ z ∈ used P, ¬ S z → z ∈ used P' := by
    intro z hz hnot
    refine (List.mem_cons.mp (hperm.mem_iff.mp hz)).resolve_left ?_
    rintro rfl
    exact hnot hx
  rcases hspan with hspan | hspan
  · obtain ⟨z, hz, hnot, hrest⟩ := h lo len (.inl hspan) hlo hhi ⟨t, htP, hS, htlo, hthi⟩
    exact ⟨z, hback z hz hnot, hnot, hrest⟩
  · obtain ⟨z, hz, hnot, hzlo, -⟩ := h lo (total P - lo) (.inr (by omega)) hlo (by omega)
      ⟨t, htP, hS, htlo, by omega⟩
    have hzP' := (mem_used.mp (hback z hz hnot)).1
    have := htiles.end_le hzP'
    have := (htiles.part hzP').two_le
    exact ⟨z, hback z hz hnot, hnot, hzlo, by omega⟩

/-- `t` is the first `_tmp` of the table. -/
def FirstTmp (P : List ApaHeader) (t : ApaHeader) : Prop :=
  ∃ A B, P = A ++ t :: B ∧ (∀ x ∈ A, x.isTmp = false) ∧ t.isTmp = true

/-- The table `P` without `t` and its subs is `P'`. -/
structure Removed (P P' : List ApaHeader) (t : ApaHeader) : Prop where
  family : ∃ S, (∀ x ∈ S, x.isSub = true ∧ x.main = t.start) ∧ (used P).Perm (t :: (S ++ used P'))
  none : ∀ x ∈ used P', x.isSub = true → x.main ≠ t.start
  clear : ∀ y ∈ P, y.isFree = true → Clear P (Family t.start) y → y ∈ P'

theorem Removed.subset {P' : List ApaHeader} (h : Removed P P' t) {x : ApaHeader}
    (hx : x ∈ used P') : x ∈ used P := by
  obtain ⟨S, -, hperm⟩ := h.family
  exact hperm.mem_iff.mpr (by simp [hx])

variable {o : Prop} {U₀ : List ApaHeader} {c₀ : Content}

end HddChecker.Hdsk
