import Mathlib.Data.List.Nodup
import Mathlib.Logic.Function.Basic
import Mathlib.Tactic.Common

/-!
# Rings of free entries

A cache keeps its free entries in a ring through a root entry, with a link in each direction. A `Path` is a list of entries that are linked one after the other, and a `FreeRing` is a path from the root back to itself. An entry leaves the ring when its neighbours are linked to each other, and enters it before the root or behind it.
-/

namespace HddChecker

variable {κ : Type}

/-- The entries `l` are linked in both directions from `p` to `n`. -/
def Path (next prev : κ → κ) : κ → List κ → κ → Prop
  | p, [], n => next p = n ∧ prev n = p
  | p, x :: l, n => next p = x ∧ prev x = p ∧ Path next prev x l n

/-- The entries `l` form a ring through `root`. -/
structure FreeRing (next prev : κ → κ) (root : κ) (l : List κ) : Prop where
  path : Path next prev root l root
  nodup : (root :: l).Nodup

variable {next prev next' prev' : κ → κ} {p n x y root : κ} {l A B : List κ}

namespace Path

theorem congr (h : Path next prev p l n) (hnext : ∀ y ∈ p :: l, next' y = next y)
    (hprev : ∀ y ∈ l ++ [n], prev' y = prev y) : Path next' prev' p l n := by
  induction l generalizing p with
  | nil =>
    obtain ⟨hn, hp⟩ := h
    exact ⟨(hnext p List.mem_cons_self).trans hn, (hprev n List.mem_cons_self).trans hp⟩
  | cons x l ih =>
    obtain ⟨hn, hp, hrest⟩ := h
    refine ⟨(hnext p List.mem_cons_self).trans hn, (hprev x List.mem_cons_self).trans hp, ?_⟩
    exact ih hrest (fun y hy => hnext y (List.mem_cons_of_mem _ hy))
      fun y hy => hprev y (List.mem_cons_of_mem _ hy)

private theorem prev_mem (h : Path next prev p (A ++ x :: B) n) : prev x ∈ p :: A := by
  induction A generalizing p with
  | nil =>
    obtain ⟨-, hp, -⟩ := h
    rw [hp]
    exact List.mem_cons_self
  | cons y A ih =>
    obtain ⟨-, -, hrest⟩ := h
    exact List.mem_cons_of_mem _ (ih hrest)

theorem next_mem (h : Path next prev p (A ++ x :: B) n) : next x ∈ B ++ [n] := by
  induction A generalizing p with
  | nil =>
    obtain ⟨-, -, hrest⟩ := h
    cases B with
    | nil =>
      rw [hrest.1]
      exact List.mem_cons_self
    | cons y B =>
      rw [hrest.1]
      exact List.mem_cons_self
  | cons y A ih => exact ih h.2.2

theorem last_mem (h : Path next prev p l n) : prev n ∈ p :: l := by
  induction l generalizing p with
  | nil =>
    rw [h.2]
    exact List.mem_cons_self
  | cons x l ih => exact List.mem_cons_of_mem _ (ih h.2.2)

private theorem next_last (h : Path next prev p l n) : next (prev n) = n := by
  induction l generalizing p with
  | nil =>
    rw [h.2]
    exact h.1
  | cons x l ih => exact ih h.2.2

theorem adjacent (h : Path next prev p (A ++ x :: y :: B) n) : next x = y ∧ prev y = x := by
  induction A generalizing p with
  | nil => exact ⟨h.2.2.1, h.2.2.2.1⟩
  | cons z A ih => exact ih h.2.2

theorem last_eq (h : Path next prev p (A ++ [x]) n) : next x = n ∧ prev n = x := by
  induction A generalizing p with
  | nil => exact h.2.2
  | cons z A ih => exact ih h.2.2

/-- The neighbours of an entry are linked to each other. -/
theorem remove [DecidableEq κ] (h : Path next prev p (A ++ x :: B) n) (hnodup : (A ++ x :: B).Nodup)
    (hp : p ∉ A ++ x :: B) (hn : n ∉ A ++ x :: B)
    (hnext : ∀ y, next' y = if y = prev x then next x else next y)
    (hprev : ∀ y, prev' y = if y = next x then prev x else prev y) : Path next' prev' p (A ++ B) n := by
  induction A generalizing p with
  | nil =>
    obtain ⟨-, hxp, hrest⟩ := h
    rw [List.nil_append, List.nodup_cons] at hnodup
    rw [List.nil_append, List.mem_cons, not_or] at hp hn
    cases B with
    | nil =>
      obtain ⟨hxn, -⟩ := hrest
      exact ⟨by rw [hnext, if_pos hxp.symm, hxn], by rw [hprev, if_pos hxn.symm, hxp]⟩
    | cons b B =>
      obtain ⟨hxb, -, hrest⟩ := hrest
      refine ⟨by rw [hnext, if_pos hxp.symm, hxb], by rw [hprev, if_pos hxb.symm, hxp], ?_⟩
      refine hrest.congr (fun y hy => ?_) fun y hy => ?_
      · rw [hnext, if_neg]
        rintro rfl
        exact hp.2 (hxp ▸ hy)
      · rw [hprev, if_neg]
        rintro rfl
        rw [hxb] at hy
        rcases List.mem_append.mp hy with hy | hy
        · exact (List.nodup_cons.mp hnodup.2).1 hy
        · exact hn.2 (List.mem_singleton.mp hy ▸ List.mem_cons_self)
  | cons y A ih =>
    obtain ⟨hpy, hyp, hrest⟩ := h
    have hmem := hrest.prev_mem
    have hmem' := hrest.next_mem
    rw [List.cons_append, List.nodup_cons] at hnodup
    rw [List.cons_append, List.mem_cons, not_or] at hp hn
    refine ⟨?_, ?_, ih hrest hnodup.2 hnodup.1 hn.2⟩
    · rw [hnext, if_neg, hpy]
      rintro rfl
      rcases List.mem_cons.mp hmem with heq | hmem
      · exact hp.1 heq
      · exact hp.2 (List.mem_append_left _ hmem)
    · rw [hprev, if_neg, hyp]
      rintro rfl
      rcases List.mem_append.mp hmem' with hmem' | hmem'
      · exact hnodup.1 (List.mem_append_right _ (List.mem_cons_of_mem _ hmem'))
      · exact hn.1 (List.mem_singleton.mp hmem').symm

theorem append [DecidableEq κ] (h : Path next prev p l n) (hnodup : l.Nodup) (hp : p ∉ l) (hn : n ∉ l)
    (hx : x ∉ p :: l) (hxn : x ≠ n)
    (hnext : ∀ y, next' y = if y = prev n then x else if y = x then n else next y)
    (hprev : ∀ y, prev' y = if y = n then x else if y = x then prev n else prev y) :
    Path next' prev' p (l ++ [x]) n := by
  induction l generalizing p with
  | nil =>
    obtain ⟨-, hnp⟩ := h
    have hxp : x ≠ p := fun heq => hx (heq ▸ List.mem_cons_self)
    refine ⟨by rw [hnext, if_pos hnp.symm], by rw [hprev, if_neg hxn, if_pos rfl, hnp], ?_, ?_⟩
    · rw [hnext, if_neg, if_pos rfl]
      rw [hnp]
      exact hxp
    · rw [hprev, if_pos rfl]
  | cons y l ih =>
    obtain ⟨hpy, hyp, hrest⟩ := h
    have hmem := hrest.last_mem
    rw [List.nodup_cons] at hnodup
    rw [List.mem_cons, not_or] at hn hx
    refine ⟨?_, ?_, ih hrest hnodup.2 hnodup.1 hn.2 hx.2⟩
    · rw [hnext, if_neg, if_neg, hpy]
      · exact fun heq => hx.1 heq.symm
      · rintro rfl
        exact hp hmem
    · rw [hprev, if_neg, if_neg, hyp]
      · rintro rfl
        exact hx.2 List.mem_cons_self
      · exact fun heq => hn.1 heq.symm

/-- An entry is linked behind the start. -/
theorem behind [DecidableEq κ] (h : Path next prev p l n) (hnodup : l.Nodup) (hp : p ∉ l) (hn : n ∉ l)
    (hx : x ∉ l) (hxp : x ≠ p) (hxn : x ≠ n)
    (hnext : ∀ y, next' y = if y = p then x else if y = x then next p else next y)
    (hprev : ∀ y, prev' y = if y = next p then x else if y = x then p else prev y) :
    Path next' prev' p (x :: l) n := by
  cases l with
  | nil =>
    have hpn : next p = n := h.1
    refine ⟨by rw [hnext, if_pos rfl], ?_, ?_, ?_⟩
    · rw [hprev, hpn, if_neg hxn, if_pos rfl]
    · rw [hnext, if_neg hxp, if_pos rfl, hpn]
    · rw [hprev, hpn, if_pos rfl]
  | cons y l =>
    obtain ⟨hpy, -, hrest⟩ := h
    obtain ⟨hxy, hxl⟩ := not_or.mp (mt List.mem_cons.mpr hx)
    refine ⟨by rw [hnext, if_pos rfl], ?_, ?_, ?_, ?_⟩
    · rw [hprev, hpy, if_neg hxy, if_pos rfl]
    · rw [hnext, if_neg hxp, if_pos rfl, hpy]
    · rw [hprev, hpy, if_pos rfl]
    · apply hrest.congr
      · intro z hz
        rw [hnext, if_neg, if_neg]
        · rintro rfl
          exact hx hz
        · rintro rfl
          exact hp hz
      · intro z hz
        rw [hprev, hpy, if_neg, if_neg]
        · rintro rfl
          exact (List.mem_append.mp hz).elim hxl fun hz => hxn (List.mem_singleton.mp hz)
        · rintro rfl
          rcases List.mem_append.mp hz with hz | hz
          · exact (List.nodup_cons.mp hnodup).1 hz
          · exact hn (List.mem_singleton.mp hz ▸ List.mem_cons_self)

/-- An entry is linked behind one of the path. -/
theorem insert [DecidableEq κ] {c : κ} (h : Path next prev p (A ++ c :: B) n) (hnodup : (A ++ c :: B).Nodup)
    (hp : p ∉ A ++ c :: B) (hn : n ∉ A ++ c :: B) (hx : x ∉ A ++ c :: B) (hxp : x ≠ p) (hxn : x ≠ n)
    (hnext : ∀ y, next' y = if y = c then x else if y = x then next c else next y)
    (hprev : ∀ y, prev' y = if y = next c then x else if y = x then c else prev y) :
    Path next' prev' p (A ++ c :: x :: B) n := by
  have hmem : next c ∈ B ++ [n] := h.next_mem
  induction A generalizing p with
  | nil =>
    obtain ⟨hpc, hcp, hrest⟩ := h
    rw [List.nil_append] at *
    obtain ⟨hpne, hpB⟩ := not_or.mp (mt List.mem_cons.mpr hp)
    obtain ⟨hcB, hB⟩ := List.nodup_cons.mp hnodup
    obtain ⟨hnc, hnB⟩ := not_or.mp (mt List.mem_cons.mpr hn)
    obtain ⟨hxc, hxB⟩ := not_or.mp (mt List.mem_cons.mpr hx)
    refine ⟨?_, ?_, hrest.behind hB hcB hnB hxB hxc hxn hnext hprev⟩
    · rw [hnext, if_neg hpne, if_neg (Ne.symm hxp), hpc]
    · rw [hprev, if_neg, if_neg (Ne.symm hxc), hcp]
      intro heq
      rw [← heq] at hmem
      exact (List.mem_append.mp hmem).elim hcB fun hz => hnc (List.mem_singleton.mp hz).symm
  | cons y A ih =>
    obtain ⟨hpy, hyp, hrest⟩ := h
    rw [List.cons_append] at *
    obtain ⟨hpne, hpA⟩ := not_or.mp (mt List.mem_cons.mpr hp)
    obtain ⟨hyA, hA⟩ := List.nodup_cons.mp hnodup
    obtain ⟨hny, hnA⟩ := not_or.mp (mt List.mem_cons.mpr hn)
    obtain ⟨hxy, hxA⟩ := not_or.mp (mt List.mem_cons.mpr hx)
    refine ⟨?_, ?_, ih hrest hA hyA hnA hxA hxy⟩
    · rw [hnext, if_neg, if_neg (Ne.symm hxp), hpy]
      rintro rfl
      exact hpA (List.mem_append_right _ List.mem_cons_self)
    · rw [hprev, if_neg, if_neg (Ne.symm hxy), hyp]
      intro heq
      rw [← heq] at hmem
      rcases List.mem_append.mp hmem with hz | hz
      · exact hyA (List.mem_append_right _ (List.mem_cons_of_mem _ hz))
      · exact hny (List.mem_singleton.mp hz).symm

end Path

namespace FreeRing

theorem root_notMem (h : FreeRing next prev root l) : root ∉ l := (List.nodup_cons.mp h.nodup).1

theorem congr (h : FreeRing next prev root l) (hnext : ∀ y, next' y = next y)
    (hprev : ∀ y, prev' y = prev y) : FreeRing next' prev' root l :=
  ⟨h.path.congr (fun y _ => hnext y) fun y _ => hprev y, h.nodup⟩

theorem next_root (h : FreeRing next prev root (x :: l)) : next root = x := h.path.1

theorem erase [DecidableEq κ] (h : FreeRing next prev root l) (hx : x ∈ l)
    (hnext : ∀ y, next' y = if y = prev x then next x else next y)
    (hprev : ∀ y, prev' y = if y = next x then prev x else prev y) :
    FreeRing next' prev' root (l.erase x) := by
  obtain ⟨A, B, rfl⟩ := List.append_of_mem hx
  obtain ⟨hroot, hnodup⟩ := List.nodup_cons.mp h.nodup
  have hxA : x ∉ A := fun hmem =>
    (List.nodup_append.mp hnodup).2.2 x hmem x List.mem_cons_self rfl
  have herase : (A ++ x :: B).erase x = A ++ B := by
    rw [List.erase_append_right _ hxA, List.erase_cons_head]
  rw [herase]
  refine ⟨h.path.remove hnodup hroot hroot hnext hprev, ?_⟩
  rw [← herase]
  exact List.nodup_cons.mpr ⟨fun hmem => hroot (List.mem_of_mem_erase hmem), hnodup.erase x⟩

theorem append [DecidableEq κ] (h : FreeRing next prev root l) (hx : x ∉ root :: l)
    (hnext : ∀ y, next' y = if y = prev root then x else if y = x then next (prev root) else next y)
    (hprev : ∀ y, prev' y = if y = next (prev root) then x else if y = x then prev root else prev y) :
    FreeRing next' prev' root (l ++ [x]) := by
  obtain ⟨hroot, hnodup⟩ := List.nodup_cons.mp h.nodup
  rw [h.path.next_last] at hnext hprev
  have hxroot : x ≠ root := fun heq => hx (heq ▸ List.mem_cons_self)
  refine ⟨h.path.append hnodup hroot hroot hx hxroot hnext hprev, ?_⟩
  rw [← List.cons_append]
  exact List.nodup_append.mpr ⟨h.nodup, List.nodup_singleton x, by
    rintro y hy _ hz rfl
    exact hx (List.mem_singleton.mp hz ▸ hy)⟩

theorem push [DecidableEq κ] (h : FreeRing next prev root l) (hx : x ∉ root :: l)
    (hnext : ∀ y, next' y = if y = root then x else if y = x then next root else next y)
    (hprev : ∀ y, prev' y = if y = next root then x else if y = x then root else prev y) :
    FreeRing next' prev' root (x :: l) := by
  obtain ⟨hroot, hnodup⟩ := List.nodup_cons.mp h.nodup
  obtain ⟨hxroot, hxl⟩ := not_or.mp (mt List.mem_cons.mpr hx)
  refine ⟨h.path.behind hnodup hroot hroot hxl hxroot hxroot hnext hprev, ?_⟩
  rw [List.nodup_cons, List.nodup_cons, List.mem_cons, not_or]
  exact ⟨⟨fun heq => hxroot heq.symm, hroot⟩, hxl, hnodup⟩

theorem insert [DecidableEq κ] {c : κ} (h : FreeRing next prev root (A ++ c :: B)) (hx : x ∉ root :: (A ++ c :: B))
    (hnext : ∀ y, next' y = if y = c then x else if y = x then next c else next y)
    (hprev : ∀ y, prev' y = if y = next c then x else if y = x then c else prev y) :
    FreeRing next' prev' root (A ++ c :: x :: B) := by
  obtain ⟨hroot, hnodup⟩ := List.nodup_cons.mp h.nodup
  obtain ⟨hxroot, hxl⟩ := not_or.mp (mt List.mem_cons.mpr hx)
  refine ⟨h.path.insert hnodup hroot hroot hxl hxroot hxroot hnext hprev, ?_⟩
  have hperm : (root :: (A ++ c :: x :: B)).Perm (x :: root :: (A ++ c :: B)) := by
    refine List.Perm.trans (List.Perm.cons root ?_) (List.Perm.swap x root _)
    have hmid : ((A ++ [c]) ++ x :: B).Perm (x :: ((A ++ [c]) ++ B)) := List.perm_middle
    rwa [List.append_assoc, List.append_assoc] at hmid
  exact hperm.nodup_iff.mpr (List.nodup_cons.mpr ⟨hx, h.nodup⟩)

end FreeRing

end HddChecker
