import HddChecker.Fssk.Preserved

/-!
# The zones of an inode that are freed

`pfsBitmapFreeInodeBlocks` walks over the slots of an inode. Up to the last slot of the inode itself it frees what the slots name. At the first slot of a further descriptor it frees the first run of the descriptor before, which is free already by then, so that the count of the free zones is wrong whatever comes after.
-/

namespace HddChecker.Fssk

open HddChecker Prog Pfs

variable {α : Type} {v v' : Volume α} {c : pfs_cache_t} {m : pfs_mount_t} {b : pfs_blockinfo_t}
  {l : List pfs_blockinfo_t}

/-! ### Runs of zones -/

/-- The zones of a run, with their partition. -/
def zonesOf (b : pfs_blockinfo_t) : Finset (Nat × Nat) :=
  {b.subpart} ×ˢ Finset.Ico b.number (b.number + b.count)

def covered : List pfs_blockinfo_t → Finset (Nat × Nat)
  | [] => ∅
  | b :: l => zonesOf b ∪ covered l

/-- How many zones several runs have, each as often as it occurs. -/
def total (l : List pfs_blockinfo_t) : Nat := (l.map fun b => b.count).sum

theorem mem_zonesOf {sub p : Nat} :
    (sub, p) ∈ zonesOf b ↔ sub = b.subpart ∧ b.number ≤ p ∧ p < b.number + b.count := by
  simp only [zonesOf, Finset.mem_product, Finset.mem_singleton, Finset.mem_Ico]

theorem card_zonesOf (b : pfs_blockinfo_t) : (zonesOf b).card = b.count := by
  rw [zonesOf, Finset.card_product, Finset.card_singleton, Nat.one_mul, Nat.card_Ico, Nat.add_sub_cancel_left]

theorem mem_covered {x : Nat × Nat} : x ∈ covered l ↔ ∃ b ∈ l, x ∈ zonesOf b := by
  induction l with
  | nil => simp [covered]
  | cons b l ih => simp [covered, ih]

theorem total_append (l k : List pfs_blockinfo_t) : total (l ++ k) = total l + total k := by
  simp [total]

private theorem card_covered_le (l : List pfs_blockinfo_t) : (covered l).card ≤ total l := by
  induction l with
  | nil => exact le_rfl
  | cons b l ih =>
    have hle := Finset.card_union_le (zonesOf b) (covered l)
    rw [card_zonesOf] at hle
    simp only [covered, total, List.map_cons, List.sum_cons] at ih ⊢
    omega

private theorem card_covered (h : l.Pairwise Apart) : (covered l).card = total l := by
  induction l with
  | nil => rfl
  | cons b l ih =>
    obtain ⟨hb, hl⟩ := List.pairwise_cons.mp h
    have hdisjoint : Disjoint (zonesOf b) (covered l) := by
      rw [Finset.disjoint_left]
      rintro ⟨sub, p⟩ hp hp'
      obtain ⟨b', hb', hmem⟩ := mem_covered.mp hp'
      obtain ⟨rfl, hle, hlt⟩ := mem_zonesOf.mp hp
      obtain ⟨hsub, hle', hlt'⟩ := mem_zonesOf.mp hmem
      exact hb b' hb' p ⟨hsub, ⟨hle, hlt⟩, hle', hlt'⟩
    simp only [covered, total, List.map_cons, List.sum_cons]
    rw [Finset.card_union_of_disjoint hdisjoint, card_zonesOf, ih hl]
    rfl

/-! ### Several runs are freed -/

/-- The runs of a list are freed one after the other. -/
def freeAll (m : pfs_mount_t) (l : List pfs_blockinfo_t) : pfs_mount_t := l.foldl pfsBitmapFreeBlockSegment m

theorem freeAll_append (m : pfs_mount_t) (l : List pfs_blockinfo_t) (b : pfs_blockinfo_t) :
    freeAll m (l ++ [b]) = pfsBitmapFreeBlockSegment (freeAll m l) b := by
  rw [freeAll, List.foldl_append]
  rfl

theorem zone_freeAll (m : pfs_mount_t) (l : List pfs_blockinfo_t) (sub p : Nat) :
    (freeAll m l).zone sub p = if (sub, p) ∈ covered l then false else m.zone sub p := by
  induction l generalizing m with
  | nil => simp [freeAll, covered]
  | cons b l ih =>
    change (freeAll (pfsBitmapFreeBlockSegment m b) l).zone sub p = _
    rw [ih, zone_pfsBitmapFreeBlockSegment]
    simp only [covered, Finset.mem_union, mem_zonesOf]
    by_cases hl : (sub, p) ∈ covered l
    · rw [if_pos hl, if_pos (.inr hl)]
    · simp only [hl, or_false, if_false]

private theorem covered_subset {k : List pfs_blockinfo_t} {m' : pfs_mount_t} (hm : m' = freeAll m k)
    (h : ∀ sub p, (sub, p) ∈ covered l → m.zone sub p = true ∧ m'.zone sub p = false) :
    covered l ⊆ covered k := by
  rintro ⟨sub, p⟩ hp
  obtain ⟨hused, hfreed⟩ := h sub p hp
  by_contra hout
  rw [hm, zone_freeAll, if_neg hout, hused] at hfreed
  cases hfreed

private theorem covered_twice (hb : b ∈ l) (k : List pfs_blockinfo_t) :
    covered (l ++ [b] ++ k) ⊆ covered (l ++ k) := by
  intro x hx
  obtain ⟨b', hb', hmem⟩ := mem_covered.mp hx
  refine mem_covered.mpr ⟨b', ?_, hmem⟩
  simp only [List.mem_append, List.mem_singleton] at hb' ⊢
  rcases hb' with (hfirst | rfl) | hrest
  · exact .inl hfirst
  · exact .inl hb
  · exact .inr hrest

private theorem give_counters (m : pfs_mount_t) (b : pfs_blockinfo_t) :
    (∀ i, (pfsBitmapFreeBlockSegment m b).free_zone i = m.free_zone i + if b.subpart = i then b.count else 0) ∧
      (pfsBitmapFreeBlockSegment m b).zfree = m.zfree + b.count := by
  obtain ⟨t, hchanged, heq⟩ := pfsBitmapFreeBlockSegment_spec m b
  rw [heq, hchanged.rest]
  refine ⟨fun i => ?_, rfl⟩
  change Function.update m.free_zone b.subpart (m.free_zone b.subpart + b.count) i = _
  by_cases hi : b.subpart = i
  · subst hi
    rw [Function.update_self, if_pos rfl]
  · rw [Function.update_of_ne (Ne.symm hi), if_neg hi, Nat.add_zero]

theorem counters_freeAll (m : pfs_mount_t) (l : List pfs_blockinfo_t) :
    (∀ i, (freeAll m l).free_zone i = m.free_zone i + total (l.filter fun b => b.subpart = i)) ∧
      (freeAll m l).zfree = m.zfree + total l := by
  induction l generalizing m with
  | nil => exact ⟨fun _ => rfl, rfl⟩
  | cons b l ih =>
    obtain ⟨hfree, hzfree⟩ := give_counters m b
    obtain ⟨hfree', hzfree'⟩ := ih (pfsBitmapFreeBlockSegment m b)
    refine ⟨fun i => ?_, ?_⟩
    · change (freeAll (pfsBitmapFreeBlockSegment m b) l).free_zone i = _
      rw [hfree', hfree, List.filter_cons]
      by_cases hi : b.subpart = i
      · simp only [hi, decide_true, if_true, total, List.map_cons, List.sum_cons]
        omega
      · simp only [hi, decide_false, if_false, Bool.false_eq_true, Nat.add_zero]
    · change (freeAll (pfsBitmapFreeBlockSegment m b) l).zfree = _
      rw [hzfree', hzfree]
      simp only [total, List.map_cons, List.sum_cons]
      omega

/-! ### The walk -/

/-- The walk frees the runs of the inode's slots, one after the other and each from its own descriptor: the zones of the inode are those that become free, and the counters are raised by their number. -/
structure FreesExactly (v : Volume α) (c : pfs_cache_t) (v' : Volume α) : Prop where
  walk : v'.mount = freeAll v.mount (v.slots c)
  freed : ∀ sub p, v.Owns c sub p → v'.mount.zone sub p = false
  kept : ∀ sub p, ¬ v.Owns c sub p → v'.mount.zone sub p = v.mount.zone sub p
  free_zone : ∀ i, v'.mount.free_zone i =
    v.mount.free_zone i + total ((v.slots c).filter fun b => b.subpart = i)
  zfree : v'.mount.zfree = v.mount.zfree + total (v.slots c)

theorem owns_iff {sub p : Nat} : v.Owns c sub p ↔ (sub, p) ∈ covered (v.slots c) := by
  rw [mem_covered]
  constructor
  · rintro ⟨b, hb, rfl, hle, hlt⟩
    exact ⟨b, hb, mem_zonesOf.mpr ⟨rfl, hle, hlt⟩⟩
  · rintro ⟨b, hb, hmem⟩
    obtain ⟨hsub, hle, hlt⟩ := mem_zonesOf.mp hmem
    exact ⟨b, hb, hsub.symm, hle, hlt⟩

private theorem freesExactly_of_walk (h : v'.mount = freeAll v.mount (v.slots c)) : FreesExactly v c v' where
  walk := h
  freed := fun sub p hp => by rw [h, zone_freeAll, if_pos (owns_iff.mp hp)]
  kept := fun sub p hp => by rw [h, zone_freeAll, if_neg (mt owns_iff.mpr hp)]
  free_zone := fun i => by rw [h, (counters_freeAll _ _).1]
  zfree := by rw [h, (counters_freeAll _ _).2]

/-- The first slots of an inode. -/
def firstSlots (v : Volume α) (c : pfs_cache_t) (n : Nat) : List pfs_blockinfo_t :=
  (List.range n).map (v.slot c)

theorem firstSlots_succ (v : Volume α) (c : pfs_cache_t) (n : Nat) :
    firstSlots v c (n + 1) = firstSlots v c n ++ [v.slot c n] := by
  rw [firstSlots, List.range_succ, List.map_append]
  rfl

private theorem total_firstSlots_le (v : Volume α) (c : pfs_cache_t) {n k : Nat} (h : n ≤ k) :
    total (firstSlots v c n) ≤ total (firstSlots v c k) := by
  induction h with
  | refl => exact le_rfl
  | step _ ih =>
    rw [firstSlots_succ, total_append]
    omega

theorem pfsFixIndex_small {i : Nat} (hi : i < PFS_INODE_MAX_BLOCKS) : pfsFixIndex i = i := if_pos hi

theorem slot_small {i : Nat} (hi : i < PFS_INODE_MAX_BLOCKS) : v.slot c i = (v.inode c).data i := by
  have hlevel : level i = 0 := if_pos hi
  rw [Volume.slot, hlevel, pfsFixIndex_small hi]
  rfl

private theorem used_of_covered (hlive : ∀ b ∈ l, Live m b ∧ 0 < b.count) {sub p : Nat}
    (h : (sub, p) ∈ covered l) : m.zone sub p = true := by
  obtain ⟨b, hb, hmem⟩ := mem_covered.mp h
  obtain ⟨rfl, hle, hlt⟩ := mem_zonesOf.mp hmem
  exact (hlive b hb).1.used p hle hlt

/-- An inode without further descriptors is freed. -/
private theorem pfsBitmapFreeInodeBlocks_small (h : (v.inode c).number_data ≤ PFS_INODE_MAX_BLOCKS) :
    wp (pfsBitmapFreeInodeBlocks c) v fun _ v' => v'.mount = freeAll v.mount (v.slots c) := by
  unfold pfsBitmapFreeInodeBlocks
  refine wp_modify_bind.mpr ?_
  refine wp_loop (fun (x : Nat × pfs_cache_t) v' => x.2 = c ∧ x.1 ≤ (v.inode c).number_data ∧
    v'.inode = v.inode ∧ v'.mount = freeAll v.mount (firstSlots v c x.1))
    (fun x _ => (v.inode c).number_data - x.1) ?_ ⟨rfl, Nat.zero_le _, rfl, rfl⟩
  rintro ⟨i, clink⟩ v₁ ⟨rfl, hle, hinode, hmount⟩
  refine wp_read_bind.mpr ?_
  simp only at h hle hmount ⊢
  rw [hinode]
  split
  · rename_i hlt
    have hfix : pfsFixIndex i = i := pfsFixIndex_small (by omega)
    rw [if_neg fun hnew => hnew.1 (hfix ▸ hnew.2)]
    refine wp_modify_bind.mpr (wp_pure ⟨⟨rfl, hlt, hinode, ?_⟩, by simp only; omega⟩)
    rw [firstSlots_succ, freeAll_append, slot_small (by omega), ← hmount, hfix]
  · have hend : i = (v.inode clink).number_data := by omega
    refine wp_modify_bind.mpr (wp_pure ?_)
    simp only
    rw [hmount, hend]
    rfl

/-- With a further descriptor the first run of the inode is freed once more, or nothing after the slots of the inode. -/
private theorem pfsBitmapFreeInodeBlocks_large (h : PFS_INODE_MAX_BLOCKS < (v.inode c).number_data) :
    wlp (pfsBitmapFreeInodeBlocks c) v fun _ v' => v'.mount = freeAll v.mount (firstSlots v c 114) ∨
      ∃ rest, v'.mount = freeAll v.mount (firstSlots v c 114 ++ [v.slot c 0] ++ rest) := by
  unfold pfsBitmapFreeInodeBlocks
  refine wlp_modify_bind.mpr ?_
  refine wlp_loop (fun (x : Nat × pfs_cache_t) v' => v'.inode = v.inode ∧
    ((x.1 ≤ 114 ∧ x.2 = c ∧ v'.mount = freeAll v.mount (firstSlots v c x.1)) ∨ (115 ≤ x.1 ∧
      ∃ rest, v'.mount = freeAll v.mount (firstSlots v c 114 ++ [v.slot c 0] ++ rest))))
    ?_ ⟨rfl, .inl ⟨Nat.zero_le _, rfl, rfl⟩⟩
  rintro ⟨i, clink⟩ v₁ ⟨hinode, hstage⟩
  refine wlp_inodeOf_bind.mpr ?_
  simp only at hstage ⊢
  split
  · split
    · rename_i hlt hfix
      refine wlp_bind ((pfsBlockGetNextSegment_spec _ _).mono ?_)
      rintro (result | next) v₂ ⟨hmount₂, hinode₂, -, -⟩
      · refine wlp_pure ?_
        simp only
        rw [hmount₂]
        rcases hstage with ⟨hle, rfl, hmount⟩ | ⟨-, rest, hmount⟩
        · have hlast : i = 114 := by
            by_contra hne
            rw [pfsFixIndex_small (show i < 114 by omega)] at hfix
            exact hfix.1 hfix.2
          rw [hmount, hlast]
          exact .inl rfl
        · exact .inr ⟨rest, hmount⟩
      · refine wlp_onMount_bind.mpr (wlp_pure ⟨hinode₂.trans hinode, .inr ?_⟩)
        simp only
        rw [hmount₂]
        rcases hstage with ⟨hle, rfl, hmount⟩ | ⟨hge, rest, hmount⟩
        · -- the slot was found in the descriptor that is left
          have hlast : i = 114 := by
            by_contra hne
            rw [pfsFixIndex_small (show i < 114 by omega)] at hfix
            exact hfix.1 hfix.2
          refine ⟨by omega, [], ?_⟩
          rw [hmount, hlast, List.append_nil, freeAll_append, hinode]
          rfl
        · refine ⟨by omega, rest ++ [(v₁.inode clink).data (pfsFixIndex i)], ?_⟩
          rw [hmount, ← List.append_assoc, freeAll_append]
    · rename_i hlt hfix
      refine wlp_onMount_bind.mpr (wlp_pure ⟨hinode, ?_⟩)
      simp only
      rcases hstage with ⟨hle, rfl, hmount⟩ | ⟨hge, rest, hmount⟩
      · have hsmall : i < 114 := by
          by_contra hge
          obtain rfl : i = 114 := by omega
          exact hfix ⟨by decide, by decide⟩
        refine .inl ⟨hsmall, rfl, ?_⟩
        rw [firstSlots_succ, freeAll_append, slot_small hsmall, hmount, pfsFixIndex_small hsmall, hinode]
      · refine .inr ⟨by omega, rest ++ [(v₁.inode clink).data (pfsFixIndex i)], ?_⟩
        rw [hmount, ← List.append_assoc, freeAll_append]
  · rename_i hend
    refine wlp_modify_bind.mpr (wlp_pure ?_)
    rcases hstage with ⟨hle, rfl, -⟩ | ⟨-, hrest⟩
    · rw [hinode] at hend
      simp only [PFS_INODE_MAX_BLOCKS] at h
      omega
    · exact .inr hrest

/-- An inode whose zones are freed exactly has no further descriptor. -/
theorem small_of_freesExactly (hlive : ∀ b ∈ v.slots c, Live v.mount b ∧ 0 < b.count)
    (hapart : (v.slots c).Pairwise Apart) (hrun : Runs (pfsBitmapFreeInodeBlocks c) v () v')
    (hexact : FreesExactly v c v') : (v.inode c).number_data ≤ PFS_INODE_MAX_BLOCKS := by
  by_contra hlarge
  have h115 : 115 ≤ (v.inode c).number_data := Nat.lt_of_not_le hlarge
  have hcount : ∀ k ≤ 114, 0 < (v.slot c k).count := fun k hk =>
    (hlive _ (mem_slots (by omega))).2
  have htotal : total (firstSlots v c 114) + (v.slot c 114).count ≤ total (v.slots c) := by
    have hle := total_firstSlots_le v c h115
    rw [firstSlots_succ, total_append] at hle
    exact hle
  have h114 := hcount 114 le_rfl
  have h0 := hcount 0 (Nat.zero_le _)
  have hzfree := hexact.zfree
  rcases pfsBitmapFreeInodeBlocks_large (Nat.lt_of_not_le hlarge) _ _ hrun with hmount | ⟨rest, hmount⟩
  · rw [hmount, (counters_freeAll _ _).2] at hzfree
    omega
  · -- the zones of the inode are among those freed, of which the first run occurs twice
    rw [hmount, (counters_freeAll _ _).2, total_append, total_append] at hzfree
    have hall := covered_subset hmount fun sub p hp =>
      ⟨used_of_covered hlive hp, hexact.freed sub p (owns_iff.mpr hp)⟩
    have hfirst : v.slot c 0 ∈ firstSlots v c 114 :=
      List.mem_map.mpr ⟨0, List.mem_range.mpr (Nat.succ_pos 113), rfl⟩
    have hsubset := hall.trans (covered_twice hfirst rest)
    have hcard := Finset.card_le_card hsubset
    have hle := card_covered_le (firstSlots v c 114 ++ rest)
    rw [card_covered hapart] at hcard
    have hone : total [v.slot c 0] = (v.slot c 0).count := rfl
    rw [total_append] at hle
    omega

/-- `pfsBitmapFreeInodeBlocks` frees exactly the zones of an inode if and only if it has no further descriptor. -/
theorem pfsBitmapFreeInodeBlocks_exact (hlive : ∀ b ∈ v.slots c, Live v.mount b ∧ 0 < b.count)
    (hapart : (v.slots c).Pairwise Apart) :
    (∃ v', Runs (pfsBitmapFreeInodeBlocks c) v () v' ∧ FreesExactly v c v') ↔
      (v.inode c).number_data ≤ PFS_INODE_MAX_BLOCKS := by
  constructor
  · rintro ⟨v', hrun, hexact⟩
    exact small_of_freesExactly hlive hapart hrun hexact
  · intro hsmall
    obtain ⟨_, v', hrun, hmount⟩ := pfsBitmapFreeInodeBlocks_small hsmall
    exact ⟨v', hrun, freesExactly_of_walk hmount⟩

/-- A file with a data segment of two zones is freed. -/
theorem pfsBitmapFreeInodeBlocks_exact_two :
    ∃ v', Runs (pfsBitmapFreeInodeBlocks ⟨1, 20⟩) (smallVolume 2 fun _ => none) () v' ∧
      FreesExactly (smallVolume 2 fun _ => none) ⟨1, 20⟩ v' :=
  (pfsBitmapFreeInodeBlocks_exact (wellFormed_smallVolume_two _).live
    (wellFormed_smallVolume_two _).apart).mpr (by decide)

/-! ### A file with two descriptors -/

/-- The inode has 113 data segments of one zone each, and the second descriptor none. -/
def longFile : pfs_inode_t where
  inode_block := ⟨100, 0, 1⟩
  next_segment := ⟨300, 0, 1⟩
  last_segment := ⟨300, 0, 1⟩
  data k :=
    if k < 114 then ⟨100 + k, 0, 1⟩
    else if k = 119 then ⟨115, 115, 0⟩
    else if k = 120 then ⟨2, 0, 0⟩
    else ⟨0, 0, 0⟩

def longVolume : Volume Nat where
  mount :=
    { getSize := fun i => if i = 0 then 512 else 0
      sector_scale := 0
      inode_scale := 1
      pfsBlockSize := 1
      num_subs := 0
      free_zone := fun _ => 0
      zfree := 0
      bits := fun _ _ _ _ => true }
  partsDeleted := 1
  zone _ p := p
  IOBuffer := 0
  inode c := if c = ⟨0, 200⟩ then longFile
    else { pfs_inode_t.zero with
      inode_block := ⟨100, 0, 1⟩
      last_segment := ⟨100, 0, 1⟩
      data := fun k => if k = 0 then ⟨300, 0, 1⟩ else ⟨0, 0, 0⟩ }
  dentry := ⟨100, 0⟩
  held := [⟨0, 200⟩]
  pfsCacheNumBuffers := 8
  outcomes _ := none
  garbage _ := 0

theorem slot_longVolume {k : Nat} (hk : k < 115) :
    longVolume.slot ⟨0, 200⟩ k = ⟨if k < 114 then 100 + k else 300, 0, 1⟩ := by
  by_cases hsmall : k < 114
  · rw [slot_small hsmall, if_pos hsmall]
    exact if_pos hsmall
  · obtain rfl : k = 114 := by omega
    decide

private theorem slots_longVolume {b : pfs_blockinfo_t} (hb : b ∈ longVolume.slots ⟨0, 200⟩) :
    ∃ k < 115, b = ⟨if k < 114 then 100 + k else 300, 0, 1⟩ := by
  obtain ⟨k, hk, rfl⟩ := List.mem_map.mp hb
  have hlt : k < 115 := List.mem_range.mp hk
  exact ⟨k, hlt, slot_longVolume hlt⟩

theorem wellFormed_longVolume : longVolume.WellFormed ⟨0, 200⟩ where
  place := rfl
  nonempty := by decide
  live := by
    intro b hb
    obtain ⟨k, hk, rfl⟩ := slots_longVolume hb
    have hzones : longVolume.mount.zones 0 = 512 := by decide
    refine ⟨⟨le_rfl, fun _ => ?_, fun _ _ _ => rfl⟩, Nat.one_pos⟩
    simp only
    rw [hzones]
    split <;> omega
  apart := by
    rw [Volume.slots, List.pairwise_map]
    refine List.pairwise_lt_range.imp_of_mem fun {j k} hj hk hlt => ?_
    have hj' : j < 115 := List.mem_range.mp hj
    have hk' : k < 115 := List.mem_range.mp hk
    rw [slot_longVolume hj', slot_longVolume hk']
    rintro p ⟨-, h, h'⟩
    simp only at h h'
    split at h <;> split at h' <;> omega
  first := by decide
  number_blocks := by decide
  number_segdesg := by decide
  last_segment := by decide
  chain := by decide
  ends := by decide

/-- The zones of a file with two descriptors are not all freed, and one is freed twice. -/
theorem pfsBitmapFreeInodeBlocks_inexact :
    ¬ ∀ (v : Volume Nat) (c : pfs_cache_t), v.WellFormed c → (∀ n, v.outcomes n = none) →
      ∃ v', Runs (pfsBitmapFreeInodeBlocks c) v () v' ∧ FreesExactly v c v' := by
  intro h
  obtain ⟨v', hrun, hexact⟩ := h longVolume ⟨0, 200⟩ wellFormed_longVolume fun _ => rfl
  have hsmall := small_of_freesExactly wellFormed_longVolume.live wellFormed_longVolume.apart hrun hexact
  exact absurd hsmall (by decide)

end HddChecker.Fssk
