import HddChecker.Fsck.Contents

/-!
# Where the zones of an inode may lie

`fsckCheckDirentryInode` tests the place of every run of zones an inode names before it reads them, marks them in the bitmaps and counts them. The test is made on the end of the run in sectors, as it fits 32 bits.
-/

namespace HddChecker.Fsck

open HddChecker Prog Pfs

variable {σ : Type} {L : Libpfs σ} {m : Mount} {info : pfs_blockinfo_t}

/-- How many zones a partition has. -/
def Mount.zones (m : Mount) (subpart : Nat) : Nat := m.ZoneSizes subpart / 2 ^ m.sector_scale

/-- A run of zones that lies in its partition, with all that is done about it: no transfer goes past the end of the partition, and the bits it takes in the scratch bitmap are of zones of the partition, as long as these have a number of 32 bits. -/
structure Mount.Contains (m : Mount) (info : pfs_blockinfo_t) : Prop where
  subpart : info.subpart ≤ m.num_subs
  count : 1 ≤ info.count
  number : 2 ≤ info.number
  zones : info.number + info.count ≤ m.zones info.subpart
  transfer : ∀ i < info.count, u32 (u32 (info.number + i) * 2 ^ m.sector_scale) + 2 ^ m.sector_scale ≤
    m.ZoneSizes info.subpart
  scratch : m.ZoneMap info.subpart + m.zones info.subpart ≤ 2 ^ 32 → ∀ i < info.count,
    m.ZoneMap info.subpart ≤ u32 (info.number + m.ZoneMap info.subpart) + i ∧
      u32 (info.number + m.ZoneMap info.subpart) + i < m.ZoneMap info.subpart + m.zones info.subpart

/-- The sector behind a run of zones has a number of 32 bits. -/
def Mount.Numbers (m : Mount) (info : pfs_blockinfo_t) : Prop :=
  (info.number + info.count) * 2 ^ m.sector_scale < 2 ^ 32

private theorem badZone_eq_false (h : m.Numbers info) : badZone m info = false ↔
    info.subpart ≤ m.num_subs ∧ 1 ≤ info.count ∧ 2 ≤ info.number ∧
      info.number + info.count ≤ m.zones info.subpart := by
  have hpos : 0 < 2 ^ m.sector_scale := Nat.two_pow_pos _
  have hsum : info.number + info.count < 2 ^ 32 :=
    lt_of_le_of_lt (Nat.le_mul_of_pos_right _ hpos) h
  have hend : u32 (u32 (info.number + info.count) * 2 ^ m.sector_scale) =
      (info.number + info.count) * 2 ^ m.sector_scale := by
    rw [u32, u32, Nat.mod_eq_of_lt hsum, Nat.mod_eq_of_lt h]
  rw [badZone, hend, Mount.zones, Nat.le_div_iff_mul_le hpos]
  simp only [Bool.or_eq_false_iff, decide_eq_false_iff_not, beq_eq_false_iff_ne, not_lt]
  omega

theorem Mount.contains_of (hsubpart : info.subpart ≤ m.num_subs) (hcount : 1 ≤ info.count)
    (hnumber : 2 ≤ info.number) (hzones : info.number + info.count ≤ m.zones info.subpart)
    (hsize : m.ZoneSizes info.subpart < 2 ^ 32) : m.Contains info := by
  have hpos : 0 < 2 ^ m.sector_scale := Nat.two_pow_pos _
  have hle : (info.number + info.count) * 2 ^ m.sector_scale ≤ m.ZoneSizes info.subpart :=
    (Nat.le_div_iff_mul_le hpos).mp hzones
  refine ⟨hsubpart, hcount, hnumber, hzones, ?_, ?_⟩
  · intro i hi
    have hend : (info.number + i + 1) * 2 ^ m.sector_scale ≤ m.ZoneSizes info.subpart :=
      le_trans (Nat.mul_le_mul_right _ (by omega)) hle
    rw [Nat.add_one_mul] at hend
    have hsector : (info.number + i) * 2 ^ m.sector_scale < 2 ^ 32 := by omega
    have hzone : info.number + i < 2 ^ 32 := lt_of_le_of_lt (Nat.le_mul_of_pos_right _ hpos) hsector
    rw [u32, u32, Nat.mod_eq_of_lt hzone, Nat.mod_eq_of_lt hsector]
    exact hend
  · intro hmap i hi
    have hbit : info.number + m.ZoneMap info.subpart < 2 ^ 32 := by omega
    rw [u32, Nat.mod_eq_of_lt hbit]
    omega

theorem contains_iff (hsize : m.ZoneSizes info.subpart < 2 ^ 32) (hgood : badZone m info = false) :
    m.Contains info ↔ m.Numbers info := by
  constructor
  · intro h
    have hle : (info.number + info.count) * 2 ^ m.sector_scale ≤ m.ZoneSizes info.subpart :=
      (Nat.le_div_iff_mul_le (Nat.two_pow_pos _)).mp h.zones
    exact lt_of_le_of_lt hle hsize
  · intro h
    obtain ⟨hsubpart, hcount, hnumber, hzones⟩ := (badZone_eq_false h).mp hgood
    exact Mount.contains_of hsubpart hcount hnumber hzones hsize

private theorem used_counting : Counting (σ := σ) m fun s => ∀ p ∈ s.used, p.1 = m ∧ badZone m p.2 = false where
  same h hsame := by
    rw [hsame.used]
    exact h
  prompt := fsckPromptUserAction_records true (P := fun _ used _ => ∀ p ∈ used, p.1 = m ∧ badZone m p.2 = false)
  read h _ := h
  mark h _ := h
  use h hgood := by
    intro p hp
    rcases List.mem_cons.mp hp with rfl | hp
    · exact ⟨rfl, hgood⟩
    · exact h p hp
  look _ h := h

/-- The runs of zones an inode check goes on with lie in their partitions exactly if their ends have numbers of 32 bits. -/
theorem fsckCheckDirentryInode_contains_iff {s s' : Check σ} {clink : Nat} {result : Int}
    (hsizes : ∀ i, m.ZoneSizes i < 2 ^ 32) (hused : s.used = [])
    (hrun : Runs (fsckCheckDirentryInode L m clink) s result s') :
    (∀ p ∈ s'.used, p.1.Contains p.2) ↔ ∀ p ∈ s'.used, p.1.Numbers p.2 := by
  have hstart : ∀ p ∈ s.used, p.1 = m ∧ badZone m p.2 = false := by
    rw [hused]
    exact nofun
  have hgood := fsckCheckDirentryInode_counts used_counting clink s hstart result s' hrun
  have hiff : ∀ p ∈ s'.used, (p.1.Contains p.2 ↔ p.1.Numbers p.2) := by
    intro p hp
    obtain ⟨hm, htest⟩ := hgood p hp
    rw [hm]
    exact contains_iff (hsizes _) htest
  constructor
  · intro h p hp
    exact (hiff p hp).mp (h p hp)
  · intro h p hp
    exact (hiff p hp).mpr (h p hp)

/-- The filesystem of an empty directory, whose inode names these zones as its own. -/
def oneEntry (info : pfs_blockinfo_t) : Libpfs Unit :=
  { smallRoot 1 with inode := fun clink s => { (smallRoot 1).inode clink s with data := fun _ => info } }

theorem oneEntry_sizes : ∀ i, plainMount.ZoneSizes i < 2 ^ 32 := fun _ => show 0x40000 < 2 ^ 32 by decide

/-- The first zone of the directory is at 529, and all is done in the partition. -/
theorem fsckCheckDirentryInode_contains_oneEntry : ∃ result s',
    Runs (fsckCheckDirentryInode (oneEntry ⟨529, 0, 1⟩) plainMount 0) smallRootCheck result s' ∧
      s'.used.length = 1 ∧ ∀ p ∈ s'.used, p.1.Contains p.2 := by
  obtain ⟨result, s', hrun, hused⟩ := runs_of_any
    (p := fsckCheckDirentryInode (oneEntry ⟨529, 0, 1⟩) plainMount 0) (s := smallRootCheck)
    (P := fun _ s' => s'.used.length == 1 &&
      s'.used.all fun p => (p.2.number + p.2.count) * 2 ^ p.1.sector_scale < 2 ^ 32) 8 (by decide +kernel)
  simp only [Bool.and_eq_true, beq_iff_eq, List.all_eq_true, decide_eq_true_eq] at hused
  exact ⟨result, s', hrun, hused.1,
    (fsckCheckDirentryInode_contains_iff oneEntry_sizes rfl hrun).mpr hused.2⟩

/-- Zone 0x10000000 starts at sector 2^32, which is 0 in 32 bits. -/
theorem fsckCheckDirentryInode_not_contains : ¬ ∀ (σ : Type) (L : Libpfs σ) (m : Mount) (s s' : Check σ)
    (clink : Nat) (result : Int), (∀ i, m.ZoneSizes i < 2 ^ 32) → s.used = [] →
    Runs (fsckCheckDirentryInode L m clink) s result s' → ∀ p ∈ s'.used, p.1.Contains p.2 := by
  intro h
  obtain ⟨result, s', hrun, hused⟩ := runs_of_any
    (p := fsckCheckDirentryInode (oneEntry ⟨0x10000000, 0, 1⟩) plainMount 0) (s := smallRootCheck)
    (P := fun _ s' => s'.used.any fun p => p.1.zones p.2.subpart < p.2.number) 8 (by decide +kernel)
  obtain ⟨p, hp, hpast⟩ := List.any_eq_true.mp hused
  have hpast := of_decide_eq_true hpast
  have hzones := (h Unit _ _ _ _ 0 result oneEntry_sizes rfl hrun p hp).zones
  omega

end HddChecker.Fsck
