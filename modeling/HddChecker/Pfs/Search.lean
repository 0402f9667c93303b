import HddChecker.Pfs.Bitmap

/-!
# Searches for free zones

A search in one partition finds a run exactly where a zone from its position on is free, as it ends with runs of one zone. The search over all partitions comes back to the first of them, and it ends exactly when some zone is free.
-/

namespace HddChecker.Pfs

variable {m m' : pfs_mount_t} {sub n k count amount max_count : Nat} {bi bi' : pfs_blockinfo_t}

/-- A zone of the partition at hand is free, at the position or behind it. -/
def Ahead (m : pfs_mount_t) (bi : pfs_blockinfo_t) : Prop :=
  ∃ p, bi.number ≤ p ∧ p < m.zones bi.subpart ∧ m.zone bi.subpart p = false

private theorem pfsBitmapAllocZones_one (hZ : 32 ∣ m.zones bi.subpart) (h : Ahead m bi) :
    (pfsBitmapAllocZones m bi 1).isSome := by
  unfold pfsBitmapAllocZones
  simp only
  split
  · -- otherwise every zone was in use
    rename_i s hwalk
    rw [walkPartition_eq _ hZ] at hwalk
    obtain ⟨p, hp, hp', hfree⟩ := h
    have hall := (walk_induct (n := m.zones bi.subpart - bi.number) (p := bi.number)
      (s := (⟨0, 0, 0, 0⟩ : FreeRun))
      (f := fun p => searchBit m bi.subpart 1 (p / 8192) (p % 8192 / 32) (p % 32))
      (motive := fun q run => run.count = 0 ∧ ∀ p, bi.number ≤ p → p < q → m.zone bi.subpart p = true)
      (R := fun _ => True) ⟨rfl, by omega⟩ ?_).1 _ hwalk
    · rw [hall.2 p hp (by omega)] at hfree
      cases hfree
    · rintro q run hle hlt ⟨hzero, hused⟩
      refine ⟨fun run' hstep => ?_, fun _ _ => trivial⟩
      simp only [searchBit] at hstep
      split at hstep
      · rename_i hbit
        cases hstep
        refine ⟨rfl, fun x hx hx' => ?_⟩
        by_cases heq : x = q
        · rw [heq]
          exact hbit
        · exact hused x hx (by omega)
      · rw [if_pos rfl] at hstep
        cases hstep
  · rfl

private theorem pfsBitmapAllocZones_none (hZ : 32 ∣ m.zones bi.subpart) (h : ¬ Ahead m bi) (amount : Nat) :
    pfsBitmapAllocZones m bi amount = none := by
  unfold pfsBitmapAllocZones
  simp only
  split
  · rfl
  · rename_i b c hwalk
    rw [walkPartition_eq _ hZ] at hwalk
    exfalso
    refine (walk_induct (n := m.zones bi.subpart - bi.number) (p := bi.number)
      (s := (⟨0, 0, 0, 0⟩ : FreeRun))
      (f := fun p => searchBit m bi.subpart amount (p / 8192) (p % 8192 / 32) (p % 32))
      (motive := fun _ _ => True) (R := fun _ => False) trivial ?_).2 _ hwalk
    intro q run hle hlt _
    refine ⟨fun _ _ => trivial, fun b hstep => ?_⟩
    have hused : m.zone bi.subpart q = true := by
      by_contra hfree
      exact h ⟨q, hle, by omega, by simpa using hfree⟩
    have hbit : m.bits bi.subpart (m.sector bi.subpart (q / 8192)) (q % 8192 / 32) (q % 32) = true := hused
    simp only [searchBit, hbit, if_true] at hstep
    cases hstep

/-- The halving search of a partition finds a run exactly where a zone is free. -/
theorem searchSizes_isSome (hZ : 32 ∣ m.zones bi.subpart) (hn : 1 ≤ n)
    (hfree : Ahead m bi → 1 ≤ m.free_zone bi.subpart) :
    (searchSizes m bi n).isSome ↔ Ahead m bi := by
  constructor
  · intro hsome
    by_contra hnone
    obtain ⟨⟨b, t⟩, hfound⟩ := Option.isSome_iff_exists.mp hsome
    obtain ⟨amount, -, -, hzones⟩ := searchSizes_spec hfound
    rw [pfsBitmapAllocZones_none hZ hnone] at hzones
    cases hzones
  · intro hahead
    induction n using Nat.strongRecOn with
    | ind n ih =>
      rw [searchSizes, dif_neg (by omega)]
      split
      · rfl
      · rename_i hnone
        by_cases hone : n = 1
        · subst hone
          rw [if_pos (hfree hahead)] at hnone
          have hsome := pfsBitmapAllocZones_one hZ hahead
          rw [hnone] at hsome
          cases hsome
        · exact ih (n / 2) (by omega) (by omega)

/-- The counters of the partitions are those of their clear bits. -/
def FreeCounted (m : pfs_mount_t) : Prop := ∀ i ≤ m.num_subs, m.free_zone i = (m.clear i).card

theorem Ahead.mem_clear (h : Ahead m bi) : (m.clear bi.subpart).Nonempty := by
  obtain ⟨p, -, hlt, hfree⟩ := h
  exact ⟨p, Finset.mem_filter.mpr ⟨Finset.mem_range.mpr hlt, hfree⟩⟩

theorem ahead_of_zero (hzero : bi.number = 0) (h : (m.clear bi.subpart).Nonempty) : Ahead m bi := by
  obtain ⟨p, hp⟩ := h
  obtain ⟨hlt, hfree⟩ := Finset.mem_filter.mp hp
  exact ⟨p, by omega, Finset.mem_range.mp hlt, hfree⟩

theorem FreeCounted.pos (hc : FreeCounted m) (hsub : bi.subpart ≤ m.num_subs) (h : Ahead m bi) :
    1 ≤ m.free_zone bi.subpart := by
  rw [hc _ hsub]
  exact Finset.card_pos.mpr h.mem_clear

/-! ### All partitions -/

theorem next_eq (hs : k ≤ n) : (if k + 1 = n + 1 then 0 else k + 1) = (k + 1) % (n + 1) := by
  split
  · rename_i heq
    rw [heq, Nat.mod_self]
  · exact (Nat.mod_eq_of_lt (by omega)).symm

private theorem searchPartitions_finds (hZ : ∀ i ≤ m.num_subs, 32 ∣ m.zones i) (hc : FreeCounted m)
    (hcount : 1 ≤ count) (hsub : bi.subpart ≤ m.num_subs) (hzero : bi.number = 0) {d : Nat}
    (h : (m.clear ((bi.subpart + d) % (m.num_subs + 1))).Nonempty) :
    (searchPartitions m count (d + 1) bi).isSome := by
  induction d generalizing bi with
  | zero =>
    rw [Nat.add_zero, Nat.mod_eq_of_lt (by omega)] at h
    have hsome := (searchSizes_isSome (hZ _ hsub) hcount (hc.pos hsub)).mpr (ahead_of_zero hzero h)
    rw [searchPartitions]
    split
    · rfl
    · rename_i hnone
      rw [hnone] at hsome
      cases hsome
  | succ d ih =>
    rw [searchPartitions]
    split
    · rfl
    · refine ih ?_ rfl ?_
      · simp only
        split <;> omega
      · simp only [next_eq hsub]
        rw [Nat.mod_add_mod]
        rwa [Nat.add_assoc, Nat.add_comm 1]

theorem exists_distance {i : Nat} (hi : i ≤ n) (hk : k ≤ n) : ∃ d, (k + d) % (n + 1) = i := by
  refine ⟨i + (n + 1) - k, ?_⟩
  have hsum : k + (i + (n + 1) - k) = i + (n + 1) := by omega
  rw [hsum, Nat.add_mod_right, Nat.mod_eq_of_lt (by omega)]

theorem searchPartitions_isSome (hZ : ∀ i ≤ m.num_subs, 32 ∣ m.zones i) (hc : FreeCounted m)
    (hcount : 1 ≤ count) (hsub : bi.subpart ≤ m.num_subs) {i : Nat} (hi : i ≤ m.num_subs)
    (h : (m.clear i).Nonempty) : ∃ passes, (searchPartitions m count passes bi).isSome := by
  have hnext : (if bi.subpart + 1 = m.num_subs + 1 then 0 else bi.subpart + 1) ≤ m.num_subs := by
    split <;> omega
  obtain ⟨d, hd⟩ := exists_distance hi hnext
  refine ⟨d + 2, ?_⟩
  rw [searchPartitions]
  split
  · rfl
  · refine searchPartitions_finds hZ hc hcount hnext rfl ?_
    rwa [hd]

theorem searchPartitions_pos (hZ : ∀ i ≤ m.num_subs, 32 ∣ m.zones i) (hsub : bi.subpart ≤ m.num_subs)
    (hbi : 0 < bi.count) {passes : Nat} (h : searchPartitions m count passes bi = some (bi', m')) :
    0 < bi'.count := by
  obtain ⟨b, amount, t, hsub, hcount, hpos, hzones, -⟩ := searchPartitions_allocated hsub h
  have hmin := (pfsBitmapAllocZones_spec (hZ _ hsub) hzones).1
  omega

theorem one_le_count {c : Nat} (hc : 1 ≤ c) (n : Nat) : 1 ≤ if n < c then c else n := by
  split <;> omega

/-- A search is complete: it finds a run of free zones where any zone is free, and otherwise it ends, too. -/
structure Complete (m : pfs_mount_t) (bi : pfs_blockinfo_t) (max_count : Nat) : Prop where
  finds : (∃ i ≤ m.num_subs, (m.clear i).Nonempty) →
    ∃ passes found m', pfsBitmapSearchFreeZone passes m bi max_count = some (found, m') ∧
      0 < found.count ∧ Taken found m m'
  ends : (∀ i ≤ m.num_subs, m.clear i = ∅) →
    ∃ passes, (pfsBitmapSearchFreeZone passes m bi max_count).isSome

/-- `pfsBitmapSearchFreeZone` is complete exactly on mounts that are not full. -/
theorem pfsBitmapSearchFreeZone_complete (hZ : ∀ i ≤ m.num_subs, 32 ∣ m.zones i) (hc : FreeCounted m)
    (hbi : 1 ≤ bi.count) (max_count : Nat) :
    Complete m bi max_count ↔ ∃ i ≤ m.num_subs, (m.clear i).Nonempty := by
  have hstart : (if m.num_subs + 1 ≤ bi.subpart then { bi with subpart := 0 } else bi).subpart ≤
      m.num_subs := by
    split
    · exact Nat.zero_le _
    · omega
  have hcount : (if m.num_subs + 1 ≤ bi.subpart then { bi with subpart := 0 } else bi).count =
      bi.count := by
    split <;> rfl
  constructor
  · intro hcomplete
    by_contra hfull
    have hempty : ∀ i ≤ m.num_subs, m.clear i = ∅ := by
      intro i hi
      by_contra hne
      exact hfull ⟨i, hi, Finset.nonempty_iff_ne_empty.mpr hne⟩
    obtain ⟨passes, hsome⟩ := hcomplete.ends hempty
    obtain ⟨⟨found, m'⟩, hfound⟩ := Option.isSome_iff_exists.mp hsome
    obtain ⟨htaken, hfree⟩ := pfsBitmapSearchFreeZone_free hZ hfound
    have hpos : 0 < found.count := searchPartitions_pos hZ hstart (by omega) hfound
    have hinside := htaken.inside hpos
    have hmem : found.number ∈ m.clear found.subpart :=
      Finset.mem_filter.mpr ⟨Finset.mem_range.mpr (by omega), hfree⟩
    rw [hempty _ htaken.subpart] at hmem
    exact absurd hmem (Finset.notMem_empty _)
  · rintro ⟨i, hi, hclear⟩
    refine ⟨fun _ => ?_, fun hempty => ?_⟩
    · have hlarge := one_le_count (c := (if m.num_subs + 1 ≤ bi.subpart then { bi with subpart := 0 } else bi).count)
        (by omega) (if max_count < 33 then max_count else 32)
      obtain ⟨passes, hsome⟩ := searchPartitions_isSome hZ hc hlarge hstart hi hclear
      obtain ⟨⟨found, m'⟩, hfound⟩ := Option.isSome_iff_exists.mp hsome
      have hpos : 0 < found.count := searchPartitions_pos hZ hstart (by omega) hfound
      exact ⟨passes, found, m', hfound, hpos, pfsBitmapSearchFreeZone_spec hZ hfound⟩
    · rw [hempty i hi] at hclear
      exact absurd hclear Finset.not_nonempty_empty

/-- Only the zone before the hint is free. -/
def lastMount : pfs_mount_t :=
  { emptyMount with
    free_zone := fun _ => 1
    zfree := 1
    bits := fun sub block word bit => !(sub == 0 && block == emptyMount.sector 0 0 && word == 0 && bit == 7) }

theorem pfsBitmapSearchFreeZone_complete_last : Complete lastMount ⟨40, 0, 1⟩ 4 := by
  have hcounted : FreeCounted lastMount := by
    intro i hi
    obtain rfl := Nat.le_zero.mp hi
    decide
  exact (pfsBitmapSearchFreeZone_complete (by decide) hcounted (by decide) 4).mpr
    ⟨0, le_rfl, by decide⟩

/-- The same filesystem with no free zone. -/
def fullMount : pfs_mount_t :=
  { emptyMount with
    free_zone := fun _ => 0
    zfree := 0
    bits := fun _ _ _ _ => true }

/-- A search on a full filesystem does not end. -/
theorem pfsBitmapSearchFreeZone_endless :
    ¬ ∀ (m : pfs_mount_t) (bi : pfs_blockinfo_t) (max_count : Nat), (∀ i ≤ m.num_subs, 32 ∣ m.zones i) →
      FreeCounted m → 1 ≤ bi.count → 1 ≤ max_count → Complete m bi max_count := by
  intro h
  have hempty : ∀ i ≤ fullMount.num_subs, fullMount.clear i = ∅ := fun i _ =>
    Finset.filter_eq_empty_iff.mpr fun _ _ => by simp [pfs_mount_t.zone, fullMount]
  have hcomplete := h fullMount ⟨0, 0, 1⟩ 1 (by decide)
    (fun i hi => by rw [hempty i hi, Finset.card_empty]; rfl) le_rfl le_rfl
  obtain ⟨passes, hsome⟩ := hcomplete.ends hempty
  obtain ⟨⟨found, m'⟩, hfound⟩ := Option.isSome_iff_exists.mp hsome
  have hfree := (pfsBitmapSearchFreeZone_free (by decide) hfound).2
  cases hfree

end HddChecker.Pfs
