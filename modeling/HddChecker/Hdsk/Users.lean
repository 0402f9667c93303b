import HddChecker.Apa.Delete
import Mathlib.Logic.Equiv.Basic

/-!
# The user partitions of a table

What a defragmentation promises of the partitions in use: a main partition and its subs name each other, and all of them but `_tmp` and its subs are those there were before, at other places. A change of places is a permutation of the sectors headers stand at; it goes with the header, with the `main` of a sub and with the list of subs of a main.
-/

namespace HddChecker.Hdsk

open HddChecker Apa

variable {U V W : List ApaHeader} {x y t : ApaHeader} {ρ σ : Equiv.Perm Nat} {o : Prop}

/-! ### New places -/

/-- The header `x` after every partition moved from its place `s` to `ρ s`. -/
def relocate (ρ : Equiv.Perm Nat) (x : ApaHeader) : ApaHeader :=
  { x with
    start := ρ x.start
    main := if x.isSub then ρ x.main else x.main
    subs := fun i => if x.isSub = false ∧ i.val < x.nsub then ⟨ρ (x.subs i).start, (x.subs i).length⟩
      else x.subs i }

@[simp] theorem relocate_start : (relocate ρ x).start = ρ x.start := rfl

@[simp] theorem relocate_length : (relocate ρ x).length = x.length := rfl

@[simp] theorem relocate_type : (relocate ρ x).type = x.type := rfl

@[simp] theorem relocate_nsub : (relocate ρ x).nsub = x.nsub := rfl

@[simp] theorem relocate_isSub : (relocate ρ x).isSub = x.isSub := rfl

@[simp] theorem relocate_isTmp : (relocate ρ x).isTmp = x.isTmp := rfl

@[simp] theorem relocate_isFree : (relocate ρ x).isFree = x.isFree := rfl

theorem relocate_main (hx : x.isSub = true) : (relocate ρ x).main = ρ x.main := by
  simp [relocate, hx]

theorem relocate_sub (hx : x.isSub = false) (hfew : x.nsub ≤ 64) {i : Nat} (hi : i < x.nsub) :
    ((relocate ρ x).sub i).start = ρ (x.sub i).start := by
  have h64 : i < 64 := by omega
  simp [ApaHeader.sub, relocate, hx, hi, h64]

private theorem relocate_refl : relocate (Equiv.refl Nat) x = x := by
  simp [relocate]

private theorem relocate_relocate : relocate σ (relocate ρ x) = relocate (ρ.trans σ) x := by
  have hmain : (relocate σ (relocate ρ x)).main = (relocate (ρ.trans σ) x).main := by
    cases hx : x.isSub with
    | true =>
      have hxρ : (relocate ρ x).isSub = true := hx
      rw [relocate_main hxρ, relocate_main hx, relocate_main hx, Equiv.trans_apply]
    | false =>
      simp only [ApaHeader.isSub] at hx
      simp [relocate, ApaHeader.isSub, hx]
  have hsubs : (relocate σ (relocate ρ x)).subs = (relocate (ρ.trans σ) x).subs := by
    funext i
    by_cases hi : x.isSub = false ∧ i.val < x.nsub
    · simp [relocate, ApaHeader.isSub] at hi ⊢
      simp [hi]
    · simp only [ApaHeader.isSub] at hi
      simp only [relocate, ApaHeader.isSub, hi, if_false]
  have hrest : ∀ a b : ApaHeader, { a with start := b.start, main := b.main, subs := b.subs } = b →
      a.main = b.main → a.subs = b.subs → a.start = b.start → a = b := by
    rintro a b heq hm hs ht
    rw [← heq, ← hm, ← hs, ← ht]
  exact hrest _ _ rfl hmain hsubs rfl

theorem map_relocate_refl : U.map (relocate (Equiv.refl Nat)) = U := by
  induction U with
  | nil => rfl
  | cons x U ih => rw [List.map_cons, relocate_refl, ih]

private theorem map_relocate_relocate :
    (U.map (relocate ρ)).map (relocate σ) = U.map (relocate (ρ.trans σ)) := by
  rw [List.map_map]
  exact List.map_congr_left fun x _ => relocate_relocate

/-! ### Main partitions and their subs -/

/-- A main partition and its subs name each other, each sub once. When `orphans` are tolerated, the subs of `_tmp` may have been left behind by their main. -/
structure Refs (orphans : Prop) (U : List ApaHeader) : Prop where
  listed : ∀ x ∈ U, x.isSub = true → ∃ m ∈ U, m.isSub = false ∧ m.start = x.main ∧
    ((∃ i < m.nsub, (m.sub i).start = x.start) ∨ orphans ∧ m.isTmp = true ∧ m.nsub = 0)
  few : ∀ m ∈ U, m.isSub = false → m.nsub ≤ 64
  named : ∀ m ∈ U, m.isSub = false → ∀ i < m.nsub,
    ∃ x ∈ U, x.isSub = true ∧ x.start = (m.sub i).start ∧ x.main = m.start
  apart : ∀ m ∈ U, m.isSub = false → ∀ i < m.nsub, ∀ j < m.nsub,
    (m.sub i).start = (m.sub j).start → i = j

theorem not_isSub_of_isTmp (ht : t.isTmp = true) : t.isSub = false := by
  simp only [ApaHeader.isTmp, Bool.and_eq_true, Bool.not_eq_true'] at ht
  exact ht.1

namespace Refs

theorem perm (h : Refs o U) (hp : U.Perm V) : Refs o V where
  listed := fun x hx hsub => by
    obtain ⟨m, hm, hrest⟩ := h.listed x (hp.mem_iff.mpr hx) hsub
    exact ⟨m, hp.mem_iff.mp hm, hrest⟩
  few := fun m hm => h.few m (hp.mem_iff.mpr hm)
  named := fun m hm hmain i hi => by
    obtain ⟨x, hx, hrest⟩ := h.named m (hp.mem_iff.mpr hm) hmain i hi
    exact ⟨x, hp.mem_iff.mp hx, hrest⟩
  apart := fun m hm => h.apart m (hp.mem_iff.mpr hm)

theorem imp {o' : Prop} (h : Refs o U) (ho : o → o') : Refs o' U where
  listed := fun x hx hsub => by
    obtain ⟨m, hm, hmain, hstart, hlist⟩ := h.listed x hx hsub
    exact ⟨m, hm, hmain, hstart, hlist.imp id fun hl => ⟨ho hl.1, hl.2⟩⟩
  few := h.few
  named := h.named
  apart := h.apart

theorem map (h : Refs o U) (ρ : Equiv.Perm Nat) : Refs o (U.map (relocate ρ)) where
  listed := fun x' hx' hsub => by
    obtain ⟨x, hx, rfl⟩ := List.mem_map.mp hx'
    rw [relocate_isSub] at hsub
    obtain ⟨m, hm, hmain, hstart, hlist⟩ := h.listed x hx hsub
    refine ⟨_, List.mem_map_of_mem hm, hmain, ?_, ?_⟩
    · rw [relocate_main hsub, relocate_start, hstart]
    · refine hlist.imp ?_ id
      rintro ⟨i, hi, heq⟩
      exact ⟨i, hi, by rw [relocate_sub hmain (h.few m hm hmain) hi, heq, relocate_start]⟩
  few := fun m' hm' hmain => by
    obtain ⟨m, hm, rfl⟩ := List.mem_map.mp hm'
    exact h.few m hm hmain
  named := fun m' hm' hmain i hi => by
    obtain ⟨m, hm, rfl⟩ := List.mem_map.mp hm'
    rw [relocate_isSub] at hmain
    rw [relocate_nsub] at hi
    obtain ⟨x, hx, hsub, hstart, hxmain⟩ := h.named m hm hmain i hi
    refine ⟨_, List.mem_map_of_mem hx, hsub, ?_, ?_⟩
    · rw [relocate_sub hmain (h.few m hm hmain) hi, relocate_start, hstart]
    · rw [relocate_main hsub, relocate_start, hxmain]
  apart := fun m' hm' hmain i hi j hj heq => by
    obtain ⟨m, hm, rfl⟩ := List.mem_map.mp hm'
    rw [relocate_isSub] at hmain
    rw [relocate_nsub] at hi hj
    have hfew := h.few m hm hmain
    rw [relocate_sub hmain hfew hi, relocate_sub hmain hfew hj] at heq
    exact h.apart m hm hmain i hi j hj (ρ.injective heq)

/-- A partition without subs may come in. -/
theorem cons (h : Refs o U) (ht : t.isSub = false) (hnsub : t.nsub = 0) : Refs o (t :: U) where
  listed := fun x hx hsub => by
    rcases List.mem_cons.mp hx with rfl | hx
    · rw [ht] at hsub
      cases hsub
    · obtain ⟨m, hm, hrest⟩ := h.listed x hx hsub
      exact ⟨m, List.mem_cons_of_mem _ hm, hrest⟩
  few := fun m hm hmain => by
    rcases List.mem_cons.mp hm with rfl | hm
    · omega
    · exact h.few m hm hmain
  named := fun m hm hmain i hi => by
    rcases List.mem_cons.mp hm with rfl | hm
    · omega
    · obtain ⟨x, hx, hrest⟩ := h.named m hm hmain i hi
      exact ⟨x, List.mem_cons_of_mem _ hx, hrest⟩
  apart := fun m hm hmain i hi => by
    rcases List.mem_cons.mp hm with rfl | hm
    · omega
    · exact h.apart m hm hmain i hi

end Refs

/-! ### Users -/

/-- `_tmp` and its subs. -/
def doomed (U : List ApaHeader) (x : ApaHeader) : Bool :=
  x.isTmp || x.isSub && U.any fun t => t.isTmp && t.start == x.main

theorem doomed_iff : doomed U x = true ↔
    x.isTmp = true ∨ x.isSub = true ∧ ∃ t ∈ U, t.isTmp = true ∧ t.start = x.main := by
  simp [doomed, List.any_eq_true]

/-- The partitions a defragmentation is to keep. -/
def users (U : List ApaHeader) : List ApaHeader := U.filter fun x => !doomed U x

theorem mem_users : x ∈ users U ↔ x ∈ U ∧ doomed U x = false := by
  simp [users, List.mem_filter]

theorem doomed_congr (h : ∀ t, t.isTmp = true → (t ∈ V ↔ t ∈ U)) : doomed V x = doomed U x := by
  rw [Bool.eq_iff_iff, doomed_iff, doomed_iff]
  refine or_congr_right (and_congr_right fun _ => exists_congr fun t => ?_)
  constructor
  · exact fun ht => ⟨(h t ht.2.1).mp ht.1, ht.2⟩
  · exact fun ht => ⟨(h t ht.2.1).mpr ht.1, ht.2⟩

theorem users_perm (h : U.Perm V) : (users U).Perm (users V) := by
  have hdoomed : doomed V = doomed U := by
    funext x
    exact doomed_congr fun t _ => h.symm.mem_iff
  rw [users, users, hdoomed]
  exact h.filter _

private theorem doomed_relocate : doomed (U.map (relocate ρ)) (relocate ρ x) = doomed U x := by
  rw [Bool.eq_iff_iff, doomed_iff, doomed_iff]
  refine or_congr_right (and_congr_right fun hsub => ?_)
  rw [relocate_isSub] at hsub
  simp [relocate_main hsub, ρ.injective.eq_iff]

theorem users_relocate : users (U.map (relocate ρ)) = (users U).map (relocate ρ) := by
  rw [users, users, List.filter_map]
  congr 2
  funext x
  exact congrArg _ doomed_relocate

private theorem doomed_cons_main (hnone : ∀ x ∈ U, x.isSub = true → x.main ≠ t.start) (hx : x ∈ U) :
    doomed (t :: U) x = doomed U x := by
  rw [Bool.eq_iff_iff, doomed_iff, doomed_iff]
  refine or_congr_right (and_congr_right fun hsub => ?_)
  constructor
  · rintro ⟨u, hu, htmp, hstart⟩
    rcases List.mem_cons.mp hu with rfl | hu
    · exact (hnone x hx hsub hstart.symm).elim
    · exact ⟨u, hu, htmp, hstart⟩
  · rintro ⟨u, hu, hrest⟩
    exact ⟨u, List.mem_cons_of_mem _ hu, hrest⟩

theorem users_cons_of_doomed (hx : doomed (x :: U) x = true)
    (hrest : ∀ y ∈ U, doomed (x :: U) y = doomed U y) : users (x :: U) = users U := by
  rw [users, users, List.filter_cons_of_neg (by simpa using hx)]
  exact List.filter_congr fun y hy => by rw [hrest y hy]

/-- A `_tmp` without subs is no user. -/
theorem users_cons_tmp (ht : t.isTmp = true)
    (hnone : ∀ x ∈ U, x.isSub = true → x.main ≠ t.start) : users (t :: U) = users U :=
  users_cons_of_doomed (doomed_iff.mpr (.inl ht)) fun _ hy => doomed_cons_main hnone hy

/-- The sectors of a game's slice list, which name the places of its partitions. -/
def GameInfo (V : List ApaHeader) (x : ApaHeader) (i : Nat) : Prop :=
  x.isSub = false ∧ (i = 2056 ∨ i = 2057) ∧
    ∃ y ∈ V, y.type = APA_TYPE_HDLFS ∧ (y.start = x.start ∨ y.isSub = true ∧ y.main = x.start)

/-- Sector `i` of the partition `x` is one of its data. -/
structure Keeps (V : List ApaHeader) (x : ApaHeader) (i : Nat) : Prop where
  two_le : 2 ≤ i
  lt : i < x.length
  noInfo : ¬ GameInfo V x i

theorem gameInfo_relocate {i : Nat} :
    GameInfo (V.map (relocate ρ)) (relocate ρ x) i ↔ GameInfo V x i := by
  unfold GameInfo
  refine and_congr_right fun _ => and_congr_right fun _ => ?_
  constructor
  · rintro ⟨y', hy', htype, hstart⟩
    obtain ⟨y, hy, rfl⟩ := List.mem_map.mp hy'
    refine ⟨y, hy, htype, hstart.imp (fun h => ρ.injective h) ?_⟩
    rintro ⟨hsub, hmain⟩
    rw [relocate_isSub] at hsub
    rw [relocate_main hsub] at hmain
    exact ⟨hsub, ρ.injective hmain⟩
  · rintro ⟨y, hy, htype, hstart⟩
    refine ⟨_, List.mem_map_of_mem hy, htype, hstart.imp (congrArg ρ) ?_⟩
    rintro ⟨hsub, hmain⟩
    exact ⟨hsub, by rw [relocate_main hsub, hmain, relocate_start]⟩

private theorem keeps_relocate {i : Nat} :
    Keeps (V.map (relocate ρ)) (relocate ρ x) i ↔ Keeps V x i :=
  ⟨fun h => ⟨h.two_le, h.lt, fun hi => h.noInfo (gameInfo_relocate.mpr hi)⟩,
    fun h => ⟨h.two_le, h.lt, fun hi => h.noInfo (gameInfo_relocate.mp hi)⟩⟩

theorem Keeps.perm {i : Nat} (h : Keeps V x i) (hp : V.Perm W) : Keeps W x i := by
  refine ⟨h.two_le, h.lt, fun hi => h.noInfo ?_⟩
  obtain ⟨hmain, hsector, y, hy, hrest⟩ := hi
  exact ⟨hmain, hsector, y, hp.mem_iff.mpr hy, hrest⟩

/-- The partitions `V` of the content `c` are the partitions `U` of `c₀` at other places, with their data. -/
def Kept (U : List ApaHeader) (c₀ : Content) (V : List ApaHeader) (c : Content) : Prop :=
  ∃ ρ : Equiv.Perm Nat, ρ 0 = 0 ∧ V.Perm (U.map (relocate ρ)) ∧
    ∀ x ∈ U, x.start ≠ 0 → ∀ i, Keeps U x i → c (ρ x.start + i) = c₀ (x.start + i)

theorem Kept.refl (U : List ApaHeader) (c : Content) : Kept U c U c := by
  refine ⟨Equiv.refl Nat, rfl, ?_, fun _ _ _ _ _ => rfl⟩
  rw [map_relocate_refl]

theorem Kept.trans {c c' c'' : Content} (h : Kept U c V c') (h' : Kept V c' W c'') :
    Kept U c W c'' := by
  obtain ⟨ρ, hρ, hperm, hdata⟩ := h
  obtain ⟨σ, hσ, hperm', hdata'⟩ := h'
  refine ⟨ρ.trans σ, by simp [hρ, hσ], ?_, fun x hx hzero i hi => ?_⟩
  · rw [← map_relocate_relocate]
    exact hperm'.trans (hperm.map _)
  · have hmem := hperm.mem_iff.mpr (List.mem_map_of_mem (f := relocate ρ) hx)
    have hne : ρ x.start ≠ 0 := fun h => hzero (ρ.injective (h.trans hρ.symm))
    have hkeep := (keeps_relocate (ρ := ρ).mpr hi).perm hperm.symm
    exact (hdata' _ hmem hne i hkeep).trans (hdata x hx hzero i hi)

theorem Kept.perm {c c' : Content} (h : Kept U c V c') (hp : V.Perm W) : Kept U c W c' := by
  obtain ⟨ρ, hρ, hperm, hdata⟩ := h
  exact ⟨ρ, hρ, hp.symm.trans hperm, hdata⟩

/-- Contents that agree on the data of the partitions. -/
theorem Kept.stable {c c' c'' : Content} (h : Kept U c V c')
    (hsame : ∀ x ∈ V, x.start ≠ 0 → ∀ i, Keeps V x i → c'' (x.start + i) = c' (x.start + i)) :
    Kept U c V c'' := by
  refine h.trans ⟨Equiv.refl Nat, rfl, ?_, hsame⟩
  rw [map_relocate_refl]

/-- What a defragmentation promises: the references are right, and the user partitions are those of `U₀` in `c₀`. -/
def promise (orphans : Prop) (U₀ : List ApaHeader) (c₀ : Content) : Promise where
  holds := fun U c => Refs orphans U ∧ Kept U₀ c₀ (users U) c
  covers := fun U a => ∃ x ∈ users U, x.start ≠ 0 ∧ ∃ i, Keeps (users U) x i ∧ a = x.start + i
  inside := by
    rintro U a ⟨x, hx, hzero, i, hi, rfl⟩
    have := hi.two_le
    have := hi.lt
    exact ⟨x, (mem_users.mp hx).1, hzero, by omega, by omega⟩
  stable := by
    rintro U c c' ⟨hrefs, hkept⟩ hsame
    exact ⟨hrefs, hkept.stable fun x hx hzero i hi => hsame _ ⟨x, hx, hzero, i, hi, rfl⟩⟩

end HddChecker.Hdsk
