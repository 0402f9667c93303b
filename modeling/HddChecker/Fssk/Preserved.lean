import HddChecker.Fssk.Relocate

/-!
# Moves of whole files

When a move preserves the file, and when a failed one leaves no trace.
-/

namespace HddChecker.Fssk

open HddChecker Prog Pfs

variable {α : Type} {v v' : Volume α} {start clink clink3 dest c : pfs_cache_t} {src i : pfs_inode_t}
  {m m' : pfs_mount_t} {bi b found block : pfs_blockinfo_t} {n k : Nat}

/-! ### Zones given back -/

theorem zone_pfsBitmapFreeBlockSegment (m : pfs_mount_t) (b : pfs_blockinfo_t) (sub p : Nat) :
    (pfsBitmapFreeBlockSegment m b).zone sub p =
      if sub = b.subpart ∧ b.number ≤ p ∧ p < b.number + b.count then false else m.zone sub p := by
  obtain ⟨t, hchanged, heq⟩ := pfsBitmapFreeBlockSegment_spec m b
  rw [heq]
  exact hchanged.zone sub p

theorem pfsBitmapFreeBlockSegment_rest (m : pfs_mount_t) (b : pfs_blockinfo_t) :
    (pfsBitmapFreeBlockSegment m b).num_subs = m.num_subs ∧
      (pfsBitmapFreeBlockSegment m b).zones = m.zones ∧
        (pfsBitmapFreeBlockSegment m b).inode_scale = m.inode_scale := by
  obtain ⟨t, hchanged, heq⟩ := pfsBitmapFreeBlockSegment_spec m b
  rw [heq, hchanged.rest]
  exact ⟨rfl, rfl, rfl⟩

private theorem free_taken (h : Taken b m m') (hfree : b.count ≤ m.free_zone b.subpart)
    (hzfree : b.count ≤ m.zfree) :
    (∀ sub p, (pfsBitmapFreeBlockSegment m' b).zone sub p = m.zone sub p) ∧
      (pfsBitmapFreeBlockSegment m' b).free_zone = m.free_zone ∧
        (pfsBitmapFreeBlockSegment m' b).zfree = m.zfree := by
  refine ⟨fun sub p => ?_, ?_, ?_⟩
  · rw [zone_pfsBitmapFreeBlockSegment, h.allocates.zone]
    by_cases hin : sub = b.subpart ∧ b.number ≤ p ∧ p < b.number + b.count
    · obtain ⟨rfl, hle, hlt⟩ := hin
      rw [if_pos ⟨rfl, hle, hlt⟩, h.free p hle hlt]
    · rw [if_neg hin, if_neg hin]
  · obtain ⟨t, hchanged, heq⟩ := pfsBitmapFreeBlockSegment_spec m' b
    obtain ⟨t', hchanged', rfl⟩ := h.changed
    rw [heq, hchanged.rest]
    funext j
    change Function.update (Function.update t'.free_zone b.subpart _) b.subpart _ j = _
    have hsame : t'.free_zone = m.free_zone := by rw [hchanged'.rest]
    rw [Function.update_idem, hsame]
    by_cases hj : j = b.subpart
    · subst hj
      rw [Function.update_self]
      change Function.update t'.free_zone b.subpart _ b.subpart + b.count = _
      rw [Function.update_self, hsame]
      omega
    · rw [Function.update_of_ne hj]
  · obtain ⟨t, hchanged, heq⟩ := pfsBitmapFreeBlockSegment_spec m' b
    obtain ⟨t', hchanged', rfl⟩ := h.changed
    rw [heq, hchanged.rest]
    change t'.zfree - b.count + b.count = m.zfree
    have hsame : t'.zfree = m.zfree := by rw [hchanged'.rest]
    omega

theorem free_zone_le_zfree (hm : Counted m) {i : Nat} (hi : i ≤ m.num_subs) :
    m.free_zone i ≤ m.zfree := by
  rw [hm.zfree]
  exact Finset.single_le_sum (fun _ _ => Nat.zero_le _) (Finset.mem_range.mpr (by omega))

private theorem pfsBitmapFreeInodeBlocks_one (hone : (v.inode c).number_data = 1) :
    wlp (pfsBitmapFreeInodeBlocks c) v fun _ v' =>
      v'.mount = pfsBitmapFreeBlockSegment v.mount ((v.inode c).data 0) ∧
        v'.inode = v.inode ∧ v'.zone = v.zone ∧ v'.dentry = v.dentry := by
  unfold pfsBitmapFreeInodeBlocks
  refine wlp_modify_bind.mpr ?_
  refine wlp_loop (fun (x : Nat × pfs_cache_t) v' => x.2 = c ∧ v'.inode = v.inode ∧
    v'.zone = v.zone ∧ v'.dentry = v.dentry ∧ ((x.1 = 0 ∧ v'.mount = v.mount) ∨
      (x.1 = 1 ∧ v'.mount = pfsBitmapFreeBlockSegment v.mount ((v.inode c).data 0)))) ?_
      ⟨rfl, rfl, rfl, rfl, .inl ⟨rfl, rfl⟩⟩
  rintro ⟨i, clink⟩ v₁ ⟨rfl, hinode, hzone, hdentry, hstage⟩
  refine wlp_inodeOf_bind.mpr ?_
  rw [hinode]
  simp only at hone hstage ⊢
  rcases hstage with ⟨rfl, hmount⟩ | ⟨rfl, hmount⟩
  · rw [if_pos (by omega), if_neg (by simp)]
    refine wlp_onMount_bind.mpr (wlp_pure ⟨rfl, hinode, hzone, hdentry, .inr ⟨rfl, ?_⟩⟩)
    simp only
    rw [hmount]
    rfl
  · rw [if_neg (by omega)]
    exact wlp_modify_bind.mpr (wlp_pure ⟨hmount, hinode, hzone, hdentry⟩)

theorem pfsBitmapFreeInodeBlocks_spec (c : pfs_cache_t) (v : Volume α) :
    wlp (pfsBitmapFreeInodeBlocks c) v fun _ v' => v'.inode = v.inode ∧ v'.dentry = v.dentry ∧
      v'.mount.inode_scale = v.mount.inode_scale ∧
      (2 ≤ (v.inode c).number_data → ∀ p, ((v.inode c).data 1).number ≤ p →
        p < ((v.inode c).data 1).number + ((v.inode c).data 1).count →
          v'.mount.zone ((v.inode c).data 1).subpart p = false) := by
  unfold pfsBitmapFreeInodeBlocks
  refine wlp_modify_bind.mpr ?_
  -- once its slot is behind, the zones of the segment are free, and no zone is taken again
  refine wlp_loop (fun (x : Nat × pfs_cache_t) v' => v'.inode = v.inode ∧ v'.dentry = v.dentry ∧
    v'.mount.inode_scale = v.mount.inode_scale ∧ (x.1 ≤ 1 → x.2 = c) ∧
      (2 ≤ x.1 → ∀ p, ((v.inode c).data 1).number ≤ p →
        p < ((v.inode c).data 1).number + ((v.inode c).data 1).count →
          v'.mount.zone ((v.inode c).data 1).subpart p = false)) ?_
      ⟨rfl, rfl, rfl, fun _ => rfl, fun h => absurd h (Nat.not_succ_le_zero 1)⟩
  rintro ⟨i, clink⟩ v₁ ⟨hinode, hdentry, hscale, hclink, hclear⟩
  refine wlp_inodeOf_bind.mpr ?_
  simp only at hclink hclear ⊢
  split
  · split
    · rename_i hfix
      have htwo : 2 ≤ i := by
        by_contra hlt
        have hone : i = 1 := by omega
        rw [hone] at hfix
        exact absurd hfix.2 (by decide)
      refine wlp_bind ((pfsBlockGetNextSegment_spec _ _).mono ?_)
      rintro (result | next) v₂ ⟨hmount₂, hinode₂, hdentry₂, -⟩
      · refine wlp_pure ⟨hinode₂.trans hinode, hdentry₂.trans hdentry, ?_, fun _ => ?_⟩
        · rw [hmount₂, hscale]
        · rw [hmount₂]
          exact hclear htwo
      · refine wlp_onMount_bind.mpr (wlp_pure ⟨hinode₂.trans hinode, hdentry₂.trans hdentry, ?_,
          fun h => absurd h (by omega), fun _ p hp hp' => ?_⟩)
        · simp only
          rw [(pfsBitmapFreeBlockSegment_rest _ _).2.2, hmount₂, hscale]
        · simp only
          rw [zone_pfsBitmapFreeBlockSegment, hmount₂]
          split
          · rfl
          · exact hclear htwo p hp hp'
    · rename_i hfix
      refine wlp_onMount_bind.mpr (wlp_pure ⟨hinode, hdentry, ?_, fun h => hclink (by omega),
        fun h p hp hp' => ?_⟩)
      · simp only
        rw [(pfsBitmapFreeBlockSegment_rest _ _).2.2, hscale]
      · simp only
        rw [zone_pfsBitmapFreeBlockSegment, hinode]
        by_cases hone : i = 1
        · subst hone
          rw [hclink le_rfl]
          exact if_pos ⟨rfl, hp, hp'⟩
        · split
          · rfl
          · exact hclear (by omega) p hp hp'
  · rename_i hend
    refine wlp_modify_bind.mpr (wlp_pure ⟨hinode, hdentry, hscale, fun htwo => hclear ?_⟩)
    by_contra hlt
    rw [hinode, hclink (by omega)] at hend
    omega

/-! ### Up to the copy of the inode -/

private theorem fsskCalcLastSub_spec (v : Volume α) : wlp fsskCalcLastSub v fun _ v' => v' = v := by
  refine wlp_loop (fun _ v' => v' = v) ?_ rfl
  rintro ⟨result, sub, MaxFreeRatio⟩ v' rfl
  refine wlp_read_bind.mpr ?_
  simp only [id_eq]
  split
  · exact wlp_pure rfl
  · split
    · exact wlp_pure rfl
    · exact wlp_pure rfl

private theorem moveTo_spec (dest : pfs_cache_t) (mode : Nat) (v : Volume α) :
    wlp (moveTo dest mode) v fun b v' => v' = v ∧ b.count = 1 := by
  unfold moveTo
  split
  · refine wlp_bind ((fsskCalcLastSub_spec v).mono ?_)
    rintro sub _ rfl
    exact wlp_pure ⟨rfl, rfl⟩
  · exact wlp_inodeOf_bind.mpr (wlp_pure ⟨rfl, rfl⟩)

/-- A zone for the copy of the inode was found, and the inode copied as far as it went. -/
structure Copying (start : pfs_cache_t) (v : Volume α) (found : pfs_blockinfo_t) (v₂ : Volume α) :
    Prop where
  taken : Taken found v.mount v₂.mount
  one : found.count = 1
  free_zone : 1 ≤ v.mount.free_zone found.subpart
  inode : v₂.inode = v.inode
  dentry : v₂.dentry = v.dentry
  held : v₂.held = v.held
  buffers : v₂.pfsCacheNumBuffers = v.pfsCacheNumBuffers
  zone : ∀ s p, ¬ (s = found.subpart ∧ p = found.number) → v₂.zone s p = v.zone s p

/-- The move up to the copy of the inode: it fails with a transfer or with a full cache, and goes on otherwise. -/
theorem wlp_fsskMoveInode {Q : Int → Volume α → Prop} (hm : Mounted v.mount)
    (hearly : ∀ found v₂ result, Copying start v found v₂ → result < 0 →
      (v.outcomes 0 ≠ none ∨ v.outcomes 1 ≠ none ∨ v.pfsCacheIsFull = true) →
        Q result { v₂ with mount := pfsBitmapFreeBlockSegment v₂.mount found })
    (hlate : ∀ found v₂ clink, Copying start v found v₂ → v.outcomes 0 = none → v.outcomes 1 = none →
      clink = v₂.place found.subpart found.number → (clink ∈ v.held ∨ v.pfsCacheIsFull = false) →
        wlp (moveZones start clink) ({ v₂ with held := clink :: v₂.held }.setInode clink
          fun _ => (v.inode start).copyTo found) Q) :
    wlp (fsskMoveInode dest start) v Q := by
  unfold fsskMoveInode
  refine wlp_inodeOf_bind.mpr ?_
  refine wlp_bind ((moveTo_spec _ _ v).mono ?_)
  rintro block v₀ ⟨hsame, hcount⟩
  rw [hsame]
  refine wlp_bind ((fsckBitmapSearchFreeZoneSpecial_spec hm block (by omega) _).mono ?_)
  intro found v₁ hfound
  have hfound₁ : found.count = 1 := by
    have hpos := hfound.pos
    have hle := hfound.count
    omega
  have hcopy := fsskCopyBlock_spec found (v.inode start).inode_block 1 v₁
  have hone := fsskCopyBlock_one found (v.inode start).inode_block v₁
  refine wlp_bind fun result v₂ hrun => ?_
  obtain ⟨hle, zone, IOBuffer, outcomes, hv₂, hzone⟩ := hcopy result v₂ hrun
  have hfails := hone result v₂ hrun
  have hv₁ := hfound.same
  have hcopying : Copying start v found v₂ := by
    refine ⟨?_, hfound₁, hfound₁ ▸ hfound.free_zone, ?_, ?_, ?_, ?_, fun s p hne => ?_⟩
    · rw [hv₂]
      exact hfound.taken
    · rw [hv₂, hv₁]
    · rw [hv₂, hv₁]
    · rw [hv₂, hv₁]
    · rw [hv₂, hv₁]
    · have hold := hzone s p (by omega)
      rw [hv₁] at hold
      rw [hv₂]
      exact hold
  have hout : v₁.outcomes = v.outcomes := by rw [hv₁]
  rw [hout] at hfails
  split
  · rename_i hneg
    refine wlp_onMount_bind.mpr (wlp_pure (hearly found v₂ result hcopying hneg ?_))
    rcases hfails.mp hneg with h0 | h1
    · exact .inl h0
    · exact .inr (.inl h1)
  · rename_i hneg
    have hnone := mt hfails.mpr hneg
    simp only [ne_eq, not_or, Decidable.not_not] at hnone
    have hfull : v₂.pfsCacheIsFull = v.pfsCacheIsFull := by
      unfold Volume.pfsCacheIsFull
      rw [hcopying.held, hcopying.buffers]
    refine wlp_place_bind.mpr (wlp_bind ((pfsCacheGetData_noload _ v₂).mono ?_))
    rintro (err | ⟨⟩) v₃ hget
    · obtain ⟨rfl, rfl, hfull'⟩ := hget
      refine wlp_onMount_bind.mpr (wlp_pure (hearly found v₃ _ hcopying (by decide) ?_))
      exact .inr (.inr (hfull ▸ hfull'))
    · obtain ⟨rfl, hroom⟩ := hget
      rw [hcopying.held, hfull] at hroom
      exact wlp_setInode_bind.mpr (hlate found v₂ _ hcopying hnone.1 hnone.2 rfl hroom)

/-! ### The copy of the inode -/

section CopyTo

variable (i : pfs_inode_t) (b : pfs_blockinfo_t)

theorem copyTo_data {k : Nat} (h0 : k ≠ 0) (h119 : k ≠ 119) (h120 : k ≠ 120) :
    (i.copyTo b).data k = i.data k := by
  simp only [pfs_inode_t.copyTo, pfs_inode_t.setNumberBlocks, pfs_inode_t.setNumberData,
    pfs_inode_t.setNumberSegdesg, pfs_inode_t.setData_data _ h119, pfs_inode_t.setData_data _ h120,
    pfs_inode_t.setData_data _ h0]

theorem copyTo_data_zero : (i.copyTo b).data 0 = b := by
  simp [pfs_inode_t.copyTo, pfs_inode_t.setNumberBlocks, pfs_inode_t.setNumberData,
    pfs_inode_t.setNumberSegdesg, pfs_inode_t.setData_data]

theorem copyTo_number_data : (i.copyTo b).number_data = 1 := by
  simp only [pfs_inode_t.copyTo, pfs_inode_t.setNumberBlocks_number_data,
    pfs_inode_t.setNumberData_number_data]

private theorem copyTo_number_blocks : (i.copyTo b).number_blocks = 1 := by
  simp only [pfs_inode_t.copyTo, pfs_inode_t.setNumberBlocks, pfs_inode_t.number_blocks,
    pfs_inode_t.setData_data_self]

private theorem copyTo_number_segdesg : (i.copyTo b).number_segdesg = 1 := by
  simp [pfs_inode_t.copyTo, pfs_inode_t.setNumberBlocks, pfs_inode_t.setNumberData,
    pfs_inode_t.setNumberSegdesg, pfs_inode_t.number_segdesg, pfs_inode_t.setData_data]

private theorem kept_copyTo : Kept i b (i.copyTo b) := by
  have h1 : (i.copyTo b).data 1 = i.data 1 := copyTo_data i b (by decide) (by decide) (by decide)
  have h2 : (i.copyTo b).data 2 = i.data 2 := copyTo_data i b (by decide) (by decide) (by decide)
  refine ⟨rfl, ?_, fun _ => h1, fun _ => h2, fun _ _ => by rw [h1]⟩
  rw [copyTo_number_data]
  exact Nat.one_pos

end CopyTo

theorem number_data_copyTo (v : Volume α) (clink : pfs_cache_t) (i : pfs_inode_t) (found : pfs_blockinfo_t) :
    ((v.setInode clink fun _ => i.copyTo found).inode clink).number_data = 1 := by
  simp only [Volume.setInode, Function.update_self, copyTo_number_data]

theorem slot_zero (v : Volume α) (c : pfs_cache_t) : v.slot c 0 = (v.inode c).data 0 := rfl

theorem slot_one (v : Volume α) (c : pfs_cache_t) : v.slot c 1 = (v.inode c).data 1 := rfl

theorem slot_two (v : Volume α) (c : pfs_cache_t) : v.slot c 2 = (v.inode c).data 2 := rfl

theorem mem_slots (h : k < (v.inode c).number_data) : v.slot c k ∈ v.slots c :=
  List.mem_map_of_mem (List.mem_range.mpr h)

theorem Volume.WellFormed.inUse (hw : v.WellFormed c) : v.InUse c := by
  have hlive := (hw.live _ (mem_slots hw.nonempty)).1
  rw [hw.first] at hlive
  have hused := hlive.used (v.inode c).inode_block.number le_rfl (Nat.lt_succ_self _)
  rw [hw.place]
  unfold Volume.InUse Volume.place
  simp only [Nat.mul_div_cancel _ (Nat.two_pow_pos _)]
  exact hused

/-- Where the loop over the segments starts. -/
theorem Copying.going (hm : Mounted v.mount) (hw : v.WellFormed start)
    (h : Copying start v found v') (hclink : clink = v'.place found.subpart found.number) :
    Going (v.inode start) found start clink clink
      ({ v' with held := clink :: v'.held }.setInode clink fun _ => (v.inode start).copyTo found) := by
  have hfree := h.taken.free found.number le_rfl (by rw [h.one]; omega)
  have hplace : clink = v.place found.subpart found.number := hclink.trans (place_taken h.taken _ _)
  have hne : clink ≠ start := hplace ▸ place_ne hfree hw.inUse
  refine ⟨hm.taken h.taken, InUse.taken h.taken hw.inUse, ?_, ?_, hne, hne, ?_, ?_, hclink⟩
  · have hused := h.taken.allocates.zone found.subpart found.number
    rw [if_pos ⟨rfl, le_rfl, by rw [h.one]; omega⟩] at hused
    rw [hclink]
    change v'.mount.zone found.subpart
      (found.number * 2 ^ v'.mount.inode_scale / 2 ^ v'.mount.inode_scale) = true
    rw [Nat.mul_div_cancel _ (Nat.two_pow_pos _)]
    exact hused
  · change Function.update v'.inode clink _ start = _
    rw [Function.update_of_ne (Ne.symm hne), h.inode]
  · change ((Function.update v'.inode clink _ clink).data 0).subpart ≤ v'.mount.num_subs
    rw [Function.update_self, copyTo_data_zero, h.taken.num_subs]
    exact h.taken.subpart
  · change Kept _ _ (Function.update v'.inode clink _ clink)
    rw [Function.update_self]
    exact kept_copyTo _ _

/-! ### The whole move -/

private theorem moveSegments_one (hone : (v.inode start).number_data = 1) :
    wlp (moveSegments start clink) v fun r v' => r = (0, some start, some clink) ∧ v' = v := by
  unfold moveSegments
  refine wlp_loop (fun (x : Nat × pfs_cache_t × pfs_cache_t) v' =>
    x = (1, start, clink) ∧ v' = v) ?_ ⟨rfl, rfl⟩
  rintro _ v₁ ⟨rfl, hv₁⟩
  refine wlp_inodeOf_bind.mpr ?_
  rw [hv₁, if_neg (by omega)]
  exact wlp_pure ⟨rfl, rfl⟩

/-- All but the cache is the same. -/
structure SameDisk (v v' : Volume α) : Prop where
  mount : v'.mount = v.mount
  inode : v'.inode = v.inode
  zone : v'.zone = v.zone
  dentry : v'.dentry = v.dentry

theorem wlp_pfsCacheFree_bind {β : Type} {Q : β → Volume α → Prop} {c : Option pfs_cache_t}
    {g : Unit → Prog (Volume α) β} (h : ∀ v', SameDisk v v' → wlp (g ()) v' Q) :
    wlp (pfsCacheFree c >>= g) v Q := by
  cases c with
  | none => exact h v ⟨rfl, rfl, rfl, rfl⟩
  | some c => exact h _ ⟨rfl, rfl, rfl, rfl⟩

theorem wlp_pfsCacheUsedAdd_bind {β : Type} {Q : β → Volume α → Prop}
    {g : Unit → Prog (Volume α) β} (h : ∀ v', SameDisk v v' → wlp (g ()) v' Q) :
    wlp (pfsCacheUsedAdd c >>= g) v Q :=
  h _ ⟨rfl, rfl, rfl, rfl⟩

theorem moveZones_one (h : Going src block start clink clink v) (hone : src.number_data = 1) :
    wlp (moveZones start clink) v fun result v' => result = 0 ∧
      v'.mount = pfsBitmapFreeBlockSegment v.mount (src.data 0) ∧ v'.inode = v.inode ∧
        v'.zone = v.zone ∧ v'.dentry = ⟨block.number, block.subpart % 256⟩ := by
  unfold moveZones
  refine wlp_pfsCacheUsedAdd_bind fun v₁ h₁ => wlp_pfsCacheUsedAdd_bind fun v₂ h₂ => ?_
  have hinode₂ : v₂.inode = v.inode := h₂.inode.trans h₁.inode
  have hstart : (v₂.inode start).number_data = 1 := by rw [hinode₂, h.startInode, hone]
  refine wlp_bind ((moveSegments_one hstart).mono ?_)
  rintro _ v₃ ⟨rfl, hv₃⟩
  simp only [if_true]
  rw [hv₃]
  refine wlp_pfsCacheFree_bind fun v₄ h₄ => wlp_inodeOf_bind.mpr (wlp_modify_bind.mpr ?_)
  refine wlp_pfsCacheFree_bind fun v₅ h₅ => wlp_pfsCacheFree_bind fun v₆ h₆ => ?_
  have hinode₄ : v₄.inode = v.inode := h₄.inode.trans hinode₂
  have hinode₆ : v₆.inode = v.inode := h₆.inode.trans (h₅.inode.trans hinode₄)
  have hmount₆ : v₆.mount = v.mount :=
    h₆.mount.trans (h₅.mount.trans (h₄.mount.trans (h₂.mount.trans h₁.mount)))
  have hzone₆ : v₆.zone = v.zone :=
    h₆.zone.trans (h₅.zone.trans (h₄.zone.trans (h₂.zone.trans h₁.zone)))
  have hdentry₆ : v₆.dentry = ⟨block.number, block.subpart % 256⟩ := by
    rw [h₆.dentry, h₅.dentry]
    simp only
    rw [hinode₄, h.kept.inode_block]
  have hstart₆ : (v₆.inode start).number_data = 1 := by rw [hinode₆, h.startInode, hone]
  refine wlp_bind ((pfsBitmapFreeInodeBlocks_one hstart₆).mono ?_)
  rintro _ v₇ ⟨hmount, hinode, hzone, hdentry⟩
  refine wlp_pure ⟨rfl, ?_, hinode.trans hinode₆, hzone.trans hzone₆, hdentry.trans hdentry₆⟩
  rw [hmount, hmount₆, hinode₆, h.startInode]

/-- An inode with data segments: whatever the loop over them did, the copy has two slots at least, and where it failed the zones of its first data segment are given back. -/
theorem moveZones_more (h : Going src block start clink clink v) (htwo : 2 ≤ src.number_data)
    (hcount : 0 < (src.data 1).count) (hone : (v.inode clink).number_data = 1) :
    wlp (moveZones start clink) v fun result v' =>
      2 ≤ (v'.inode clink).number_data ∧ Kept src block (v'.inode clink) ∧
        clink = v'.place block.subpart block.number ∧
        (result = 0 → v'.dentry = ⟨block.number, block.subpart % 256⟩) ∧
        (result ≠ 0 → ∀ p, ((v'.inode clink).data 1).number ≤ p →
          p < ((v'.inode clink).data 1).number + ((v'.inode clink).data 1).count →
            v'.mount.zone ((v'.inode clink).data 1).subpart p = false) := by
  unfold moveZones
  refine wlp_pfsCacheUsedAdd_bind fun v₁ h₁ => wlp_pfsCacheUsedAdd_bind fun v₂ h₂ => ?_
  have hinode₂ : v₂.inode = v.inode := h₂.inode.trans h₁.inode
  have hgoing := h.of_eq (h₂.mount.trans h₁.mount) hinode₂
  refine wlp_bind ((moveSegments_spec hgoing htwo hcount (hinode₂ ▸ hone)).mono ?_)
  rintro ⟨result, clink2, clink3⟩ v₃ ⟨hle, htwo₃, c, h₃⟩
  refine wlp_pfsCacheFree_bind fun v₄ h₄ => ?_
  -- the inode and its place are not changed from here on
  have hend : ∀ v' : Volume α, v'.inode = v₄.inode → v'.mount.inode_scale = v₄.mount.inode_scale →
      v'.inode clink = v₃.inode clink ∧ clink = v'.place block.subpart block.number := by
    intro v' hinode hscale
    refine ⟨by rw [hinode, h₄.inode], ?_⟩
    rw [h₃.place]
    unfold Volume.place
    rw [hscale, h₄.mount]
  split
  · rename_i hzero
    refine wlp_inodeOf_bind.mpr (wlp_modify_bind.mpr ?_)
    refine wlp_pfsCacheFree_bind fun v₅ h₅ => wlp_pfsCacheFree_bind fun v₆ h₆ => ?_
    have hinode₆ : v₆.inode = v₄.inode := h₆.inode.trans h₅.inode
    have hmount₆ : v₆.mount = v₄.mount := h₆.mount.trans h₅.mount
    refine wlp_bind ((pfsBitmapFreeInodeBlocks_spec start v₆).mono ?_)
    rintro _ v₇ ⟨hinode, hdentry, hscale, -⟩
    obtain ⟨hclink, hplace⟩ := hend v₇ (hinode.trans hinode₆) (by rw [hscale, hmount₆])
    refine wlp_pure ⟨hclink ▸ htwo₃, hclink ▸ h₃.kept, hplace, fun _ => ?_,
      fun hne => absurd hzero hne⟩
    rw [hdentry, h₆.dentry, h₅.dentry]
    simp only
    rw [h₄.inode, h₃.kept.inode_block]
  · rename_i hne
    refine wlp_bind ((pfsBitmapFreeInodeBlocks_spec clink v₄).mono ?_)
    rintro _ v₅ ⟨hinode₅, -, hscale₅, hclear⟩
    refine wlp_pfsCacheFree_bind fun v₆ h₆ => wlp_pfsCacheFree_bind fun v₇ h₇ => ?_
    have hinode₇ : v₇.inode = v₄.inode := h₇.inode.trans (h₆.inode.trans hinode₅)
    have hmount₇ : v₇.mount = v₅.mount := h₇.mount.trans h₆.mount
    obtain ⟨hclink, hplace⟩ := hend v₇ hinode₇ (by rw [hmount₇, hscale₅])
    refine wlp_pure ⟨hclink ▸ htwo₃, hclink ▸ h₃.kept, hplace, fun hzero => absurd hzero hne,
      fun _ => ?_⟩
    rw [h₄.inode] at hclear
    rw [hclink, hmount₇]
    exact hclear htwo₃

/-! ### A small filesystem -/

/-- A main partition of 64 zones with two free ones, which are no neighbours, and a partition to be removed with none. -/
def smallMount : pfs_mount_t where
  getSize _ := 64
  sector_scale := 0
  inode_scale := 1
  pfsBlockSize := 1
  num_subs := 1
  free_zone i := if i = 0 then 2 else 0
  zfree := 2
  bits sub _ word bit := !(sub == 0 && word == 1 && (bit == 8 || bit == 10))

/-- A file in the partition to be removed, with a data segment of two zones or without one. -/
def smallFile (number_data : Nat) : pfs_inode_t where
  inode_block := ⟨10, 1, 1⟩
  next_segment := ⟨0, 0, 0⟩
  last_segment := ⟨10, 1, 1⟩
  data
    | 0 => ⟨10, 1, 1⟩
    | 1 => ⟨20, 1, 2⟩
    | 114 => ⟨0x2000, 0, 0⟩
    | 119 => ⟨if number_data = 1 then 1 else 3, number_data, 0⟩
    | 120 => ⟨1, 0, 0⟩
    | _ => ⟨0, 0, 0⟩

def smallVolume (number_data : Nat) (outcomes : Nat → Option (Nat × Nat)) : Volume Nat where
  mount := smallMount
  partsDeleted := 1
  zone _ p := p
  IOBuffer := 0
  inode c := if c = ⟨1, 20⟩ then smallFile number_data
    else { pfs_inode_t.zero with inode_block := ⟨32, 0, 1⟩ }
  dentry := ⟨10, 1⟩
  held := [⟨0, 64⟩, ⟨1, 20⟩]
  pfsCacheNumBuffers := 8
  outcomes := outcomes
  garbage _ := 0

theorem mounted_smallMount : Mounted smallMount := by
  refine ⟨by decide, by decide, fun i hi _ => if_neg ?_⟩
  rintro rfl
  exact absurd hi (by decide)

theorem counted_smallMount : Counted smallMount := by
  refine ⟨fun i hi => ?_, by decide⟩
  have hi' : i ≤ 1 := hi
  obtain rfl | rfl : i = 0 ∨ i = 1 := by omega
  · decide
  · decide

theorem heldUsed_smallVolume (n : Nat) (outcomes : Nat → Option (Nat × Nat)) :
    ∀ c ∈ (smallVolume n outcomes).held, (smallVolume n outcomes).InUse c := by
  intro c hc
  obtain rfl | rfl := List.mem_pair.mp hc
  · change smallMount.zone 0 (64 / 2 ^ 1) = true
    decide
  · change smallMount.zone 1 (20 / 2 ^ 1) = true
    decide

theorem zones_smallMount (sub : Nat) : smallMount.zones sub = 64 := by
  simp [pfs_mount_t.zones, smallMount]

theorem live_smallVolume {number count : Nat} (hle : number + count ≤ 64) :
    Live smallMount ⟨number, 1, count⟩ := by
  refine ⟨le_rfl, fun _ => ?_, fun _ _ _ => rfl⟩
  rw [zones_smallMount]
  exact hle

private theorem wellFormed_smallVolume_one (outcomes : Nat → Option (Nat × Nat)) :
    (smallVolume 1 outcomes).WellFormed ⟨1, 20⟩ := by
  have hslots : (smallVolume 1 outcomes).slots ⟨1, 20⟩ = [⟨10, 1, 1⟩] := rfl
  refine ⟨rfl, Nat.one_pos, ?_, ?_, rfl, rfl, rfl, rfl, ?_, rfl⟩
  · rw [hslots]
    intro b hb
    obtain rfl := List.mem_singleton.mp hb
    exact ⟨live_smallVolume (by decide), by decide⟩
  · rw [hslots]
    exact List.pairwise_singleton _ _
  · intro k hk
    exact absurd hk (Nat.not_lt_zero k)

theorem wellFormed_smallVolume_two (outcomes : Nat → Option (Nat × Nat)) :
    (smallVolume 2 outcomes).WellFormed ⟨1, 20⟩ := by
  have hslots : (smallVolume 2 outcomes).slots ⟨1, 20⟩ = [⟨10, 1, 1⟩, ⟨20, 1, 2⟩] := rfl
  refine ⟨rfl, Nat.two_pos, ?_, ?_, rfl, rfl, rfl, rfl, ?_, rfl⟩
  · rw [hslots]
    intro b hb
    obtain rfl | rfl := List.mem_pair.mp hb
    · exact ⟨live_smallVolume (by decide), by decide⟩
    · exact ⟨live_smallVolume (by decide), by decide⟩
  · rw [hslots]
    refine List.pairwise_pair.mpr fun p hp => ?_
    simp only at hp
    omega
  · intro k hk
    exact absurd hk (Nat.not_lt_zero k)

/-! ### Failures -/

/-- A move of this inode can fail only before the first data zone is allocated: there is no data segment, or the first zone cannot be copied, or the cache has no buffer left. -/
def FailsEarly (v : Volume α) (start : pfs_cache_t) : Prop :=
  (v.inode start).number_data = 1 ∨ v.outcomes 0 ≠ none ∨ v.outcomes 1 ≠ none ∨
    v.pfsCacheIsFull = true

private theorem descriptor_congr (hinode : v'.inode = v.inode)
    (hscale : v'.mount.inode_scale = v.mount.inode_scale) (k : Nat) :
    v'.descriptor start k = v.descriptor start k := by
  induction k with
  | zero => exact congrFun hinode start
  | succ k ih =>
    unfold Volume.descriptor Volume.inodeAt Volume.place
    rw [ih, hinode, hscale]

theorem Copying.noTrace (hcounted : Counted v.mount) (hw : v.WellFormed start)
    (h : Copying start v found v') :
    NoTrace v { v' with mount := pfsBitmapFreeBlockSegment v'.mount found } start := by
  have hfree : found.count ≤ v.mount.free_zone found.subpart := h.one ▸ h.free_zone
  have hzfree := hfree.trans (free_zone_le_zfree hcounted h.taken.subpart)
  obtain ⟨hbitmaps, hfree_zone, hzfree⟩ := free_taken h.taken hfree hzfree
  have howns : ∀ sub p, v.Owns start sub p → v.mount.zone sub p = true := by
    rintro _ p ⟨b, hb, rfl, hle, hlt⟩
    exact (hw.live b hb).1.used p hle hlt
  refine ⟨h.dentry, fun sub p hp => ?_, fun sub p hp => h.zone sub p ?_, fun k => ?_, hbitmaps,
    hfree_zone, hzfree, by rw [h.held]⟩
  · exact (hbitmaps sub p).trans (howns sub p hp)
  · rintro ⟨rfl, rfl⟩
    have hused := howns _ _ hp
    rw [h.taken.free _ le_rfl (by rw [h.one]; omega)] at hused
    cases hused
  · refine descriptor_congr ?_ ?_ k
    · exact h.inode
    simp only
    rw [(pfsBitmapFreeBlockSegment_rest _ _).2.2, h.taken.inode_scale]

theorem Copying.not_held (hheld : ∀ c ∈ v.held, v.InUse c) (h : Copying start v found v')
    (hclink : clink = v'.place found.subpart found.number) : clink ∉ v.held := by
  intro hmem
  have hfree := h.taken.free found.number le_rfl (by rw [h.one]; omega)
  exact place_ne hfree (hheld clink hmem) ((place_taken h.taken _ _).symm.trans hclink.symm)

/-- A move that fails leaves no trace where it fails early. Otherwise it gives back zones of the original, at least where the slot that the loop writes is not the first data slot. -/
theorem fsskMoveInode_noTrace (hm : Mounted v.mount) (hcounted : Counted v.mount)
    (hheld : ∀ c ∈ v.held, v.InUse c) (hw : v.WellFormed start) {result : Int}
    (hrun : Runs (fsskMoveInode dest start) v result v') (hresult : result ≠ 0) :
    (FailsEarly v start → NoTrace v v' start) ∧
      (pfsFixIndex (v.inode start).number_data ≠ 1 → NoTrace v v' start → FailsEarly v start) := by
  have hspec : wlp (fsskMoveInode dest start) v fun result v' => result ≠ 0 →
      (FailsEarly v start → NoTrace v v' start) ∧
        (pfsFixIndex (v.inode start).number_data ≠ 1 → NoTrace v v' start → FailsEarly v start) := by
    refine wlp_fsskMoveInode hm ?_ ?_
    · intro found v₂ result hcopying hneg hreason _
      exact ⟨fun _ => hcopying.noTrace hcounted hw, fun _ _ => .inr hreason⟩
    · intro found v₂ clink hcopying h0 h1 hclink hroom
      have hfull : v.pfsCacheIsFull = false :=
        hroom.resolve_left (hcopying.not_held hheld hclink)
      have hgoing := hcopying.going hm hw hclink
      by_cases hone : (v.inode start).number_data = 1
      · refine (moveZones_one hgoing hone).mono ?_
        intro result v' h hne
        exact absurd h.1 hne
      · have hpos := hw.nonempty
        have htwo : 2 ≤ (v.inode start).number_data := by omega
        have hlate : ¬ FailsEarly v start := by
          simp [FailsEarly, hone, h0, h1, hfull]
        have hmem : v.slot start 1 ∈ v.slots start := mem_slots (by omega)
        have hcount : 0 < ((v.inode start).data 1).count := (hw.live _ hmem).2
        have hnumber := number_data_copyTo { v₂ with held := clink :: v₂.held } clink (v.inode start) found
        refine (moveZones_more hgoing htwo hcount hnumber).mono ?_
        intro result v' h hne
        obtain ⟨-, hkept, -, -, hclear⟩ := h
        refine ⟨fun hearly => absurd hearly hlate, fun hfix hnone => ?_⟩
        -- the first zone of the first data segment is free now
        have hslot := hkept.slot_one hfix
        have hfree := hclear hne ((v.inode start).data 1).number (by rw [hslot])
          (by rw [hslot]; omega)
        rw [hslot] at hfree
        have hused := hnone.used ((v.inode start).data 1).subpart ((v.inode start).data 1).number
          ⟨_, hmem, rfl, le_rfl, Nat.lt_add_of_pos_right hcount⟩
        rw [hfree] at hused
        cases hused
  exact hspec result v' hrun hresult

/-- The first zone cannot be read. -/
theorem fsskMoveInode_noTrace_unread :
    ∃ v', Runs (fsskMoveInode ⟨0, 64⟩ ⟨1, 20⟩)
      (smallVolume 2 fun n => if n = 0 then some (4, 0) else none) (-5) v' ∧
        NoTrace (smallVolume 2 fun n => if n = 0 then some (4, 0) else none) v' ⟨1, 20⟩ := by
  obtain ⟨result, v', hrun, hresult⟩ := runs_of_any
    (p := fsskMoveInode ⟨0, 64⟩ ⟨1, 20⟩)
    (s := smallVolume 2 fun n => if n = 0 then some (4, 0) else none)
    (P := fun result _ => result == -5) 10 (by decide +kernel)
  obtain rfl := eq_of_beq hresult
  have hnone := fsskMoveInode_noTrace mounted_smallMount counted_smallMount
    (heldUsed_smallVolume _ _) (wellFormed_smallVolume_two _) hrun (by decide)
  exact ⟨v', hrun, hnone.1 (.inr (.inl (by decide)))⟩

/-- The third transfer fails, which is the first one of the data: the zones of the original are free then. -/
theorem fsskMoveInode_trace :
    ¬ ∀ (v v' : Volume Nat) (dest start : pfs_cache_t) (result : Int), Mounted v.mount →
      Counted v.mount → (∀ c ∈ v.held, v.InUse c) → v.WellFormed start →
        Runs (fsskMoveInode dest start) v result v' → result ≠ 0 → NoTrace v v' start := by
  intro h
  obtain ⟨result, v', hrun, hresult⟩ := runs_of_any
    (p := fsskMoveInode ⟨0, 64⟩ ⟨1, 20⟩)
    (s := smallVolume 2 fun n => if n = 2 then some (4, 0) else none)
    (P := fun result v' => result == -5 && !v'.mount.zone 1 20) 10 (by decide +kernel)
  simp only [Bool.and_eq_true, beq_iff_eq, Bool.not_eq_true'] at hresult
  have hnone := h _ v' _ _ result mounted_smallMount counted_smallMount (heldUsed_smallVolume _ _)
    (wellFormed_smallVolume_two _) hrun (by rw [hresult.1]; decide)
  have hused := hnone.used 1 20 ⟨⟨20, 1, 2⟩, by decide, rfl, by decide, by decide⟩
  rw [hresult.2] at hused
  cases hused

/-! ### Successes -/

theorem slots_one (hone : (v.inode c).number_data = 1) : v.slots c = [(v.inode c).data 0] := by
  unfold Volume.slots
  rw [hone]
  rfl

theorem contents_one (hone : (v.inode c).number_data = 1) : v.contents c = [] := by
  have hdata : (List.range 1).filter (fun index => pfsFixIndex index ≠ 0) = [] := by decide
  unfold Volume.contents Volume.dataSlots
  rw [hone, hdata]
  rfl

theorem owns_one (hone : (v.inode c).number_data = 1) (sub p : Nat) :
    v.Owns c sub p ↔ ((v.inode c).data 0).subpart = sub ∧ ((v.inode c).data 0).number ≤ p ∧
      p < ((v.inode c).data 0).number + ((v.inode c).data 0).count := by
  simp only [Volume.Owns, slots_one hone, List.mem_singleton, exists_eq_left]

/-- The move of an inode without data segments, as a whole. -/
private theorem preserved_one {new : pfs_cache_t} (hw : v.WellFormed start)
    (hone : (v.inode start).number_data = 1) (htaken : Taken found v.mount m) (hcount : found.count = 1)
    (hmount : v'.mount = pfsBitmapFreeBlockSegment m ((v.inode start).data 0))
    (hnew : new = v'.place found.subpart found.number)
    (hinode : v'.inode new = (v.inode start).copyTo found) :
    Preserved v v' start new := by
  have hfound : { found with count := 1 } = found := by rw [← hcount]
  have hdata : (v.inode start).data 0 = { (v.inode start).inode_block with count := 1 } := hw.first
  have hnewone : (v'.inode new).number_data = 1 := by rw [hinode, copyTo_number_data]
  have hslots : v'.slots new = [found] := by rw [slots_one hnewone, hinode, copyTo_data_zero]
  have hlevel : level ((v'.inode new).number_data - 1) = 0 := by rw [hnewone]; rfl
  have hlevel' : level ((v.inode start).number_data - 1) = 0 := by rw [hone]; rfl
  have hkeep (k : Nat) (h0 : k ≠ 0) (h119 : k ≠ 119) (h120 : k ≠ 120) :
      (v'.inode new).data k = (v.inode start).data k := by
    rw [hinode, copyTo_data _ _ h0 h119 h120]
  have hslot0 : v.slot start 0 ∈ v.slots start := mem_slots hw.nonempty
  have hstart := (hw.live _ hslot0).1
  rw [slot_zero] at hstart
  -- the zone that was found is not that of the original
  have hapart : ∀ p, found.number ≤ p → p < found.number + found.count →
      ¬ (found.subpart = ((v.inode start).data 0).subpart ∧ ((v.inode start).data 0).number ≤ p ∧
        p < ((v.inode start).data 0).number + ((v.inode start).data 0).count) := by
    rintro p hp hp' ⟨hsub, hle, hlt⟩
    have hused := hstart.used p hle hlt
    rw [← hsub, htaken.free p hp hp'] at hused
    cases hused
  have hzone (sub p : Nat) : v'.mount.zone sub p =
      if sub = ((v.inode start).data 0).subpart ∧ ((v.inode start).data 0).number ≤ p ∧
        p < ((v.inode start).data 0).number + ((v.inode start).data 0).count then false
      else if sub = found.subpart ∧ found.number ≤ p ∧ p < found.number + found.count then true
      else v.mount.zone sub p := by
    rw [hmount, zone_pfsBitmapFreeBlockSegment, htaken.allocates.zone]
  obtain ⟨hsubs, hzones, -⟩ := pfsBitmapFreeBlockSegment_rest m ((v.inode start).data 0)
  have hwell : v'.WellFormed new := by
    refine ⟨?_, by omega, ?_, ?_, ?_, ?_, ?_, ?_, ?_, ?_⟩
    · rw [hinode]
      exact hnew
    · rw [hslots]
      rintro b hb
      obtain rfl := List.mem_singleton.mp hb
      refine ⟨⟨?_, fun hpos => ?_, fun p hp hp' => ?_⟩, by omega⟩
      · rw [hmount, hsubs, htaken.num_subs]
        exact htaken.subpart
      · rw [hmount, hzones, htaken.zones]
        exact htaken.inside hpos
      · rw [hzone, if_neg (hapart p hp hp'), if_pos ⟨rfl, hp, hp'⟩]
    · rw [hslots]
      exact List.pairwise_singleton _ _
    · rw [slot_zero, hinode, copyTo_data_zero]
      exact hfound.symm
    · rw [hslots, hinode, copyTo_number_blocks]
      simp [hcount]
    · rw [hlevel, hinode, copyTo_number_segdesg]
    · rw [hlevel]
      change (v'.inode new).last_segment = (v'.inode new).data 0
      rw [hinode, copyTo_data_zero]
      rfl
    · intro k hk
      rw [hlevel] at hk
      omega
    · rw [hlevel]
      have hends := hw.ends
      rw [hlevel'] at hends
      change (v'.inode new).next_segment.number = 0
      rw [hinode]
      exact hends
  refine ⟨?_, ?_, ?_, ?_, ?_, ?_, ?_, ?_, ?_, hwell, fun sub p hp hused => ?_, fun sub p hused => ?_⟩
  · rw [contents_one hnewone, contents_one hone]
  · simp only [pfs_inode_t.mode, hkeep 114 (by decide) (by decide) (by decide)]
  · simp only [pfs_inode_t.attr, hkeep 114 (by decide) (by decide) (by decide)]
  · simp only [pfs_inode_t.uid, hkeep 114 (by decide) (by decide) (by decide)]
  · simp only [pfs_inode_t.gid, hkeep 114 (by decide) (by decide) (by decide)]
  · exact hkeep 115 (by decide) (by decide) (by decide)
  · exact hkeep 116 (by decide) (by decide) (by decide)
  · exact hkeep 117 (by decide) (by decide) (by decide)
  · exact hkeep 118 (by decide) (by decide) (by decide)
  · rw [owns_one hnewone, hinode, copyTo_data_zero] at hp
    obtain ⟨rfl, hle, hlt⟩ := hp
    rw [htaken.free p hle hlt] at hused
    cases hused
  · rw [owns_one hone, hzone]
    constructor
    · intro hfree
      by_contra hout
      rw [if_neg fun h => hout ⟨h.1.symm, h.2⟩] at hfree
      split at hfree
      · cases hfree
      · rw [hused] at hfree
        cases hfree
    · rintro ⟨hsub, hle, hlt⟩
      exact if_pos ⟨hsub.symm, hle, hlt⟩

theorem Preserved.slot_ne {new : pfs_cache_t} (h : Preserved v v' start new) (hw : v.WellFormed start)
    {j : Nat} (hj : j < (v.inode start).number_data) (hk : k < (v'.inode new).number_data) :
    v'.slot new k ≠ v.slot start j := by
  intro heq
  obtain ⟨hlive, hcount⟩ := hw.live _ (mem_slots hj)
  obtain ⟨hlive', -⟩ := h.wellFormed.live _ (mem_slots hk)
  have hmem : v.Owns start (v.slot start j).subpart (v.slot start j).number :=
    ⟨_, mem_slots hj, rfl, le_rfl, Nat.lt_add_of_pos_right hcount⟩
  have hfree := (h.freed _ _ (hlive.used _ le_rfl (Nat.lt_add_of_pos_right hcount))).mpr hmem
  rw [heq] at hlive'
  rw [hlive'.used _ le_rfl (Nat.lt_add_of_pos_right hcount)] at hfree
  cases hfree

theorem length_contents (v : Volume α) (c : pfs_cache_t) :
    (v.contents c).length = ((v.dataSlots c).map fun b => b.count).sum := by
  simp [Volume.contents, Volume.contentsOf, List.length_flatMap]

/-- An inode with data segments is not preserved: one of its runs stays in the copy, or the copy is too short. -/
private theorem not_preserved {new : pfs_cache_t} (hw : v.WellFormed start)
    (htwo : 2 ≤ (v.inode start).number_data) (hkept : Kept (v.inode start) block (v'.inode new))
    (htwo' : 2 ≤ (v'.inode new).number_data) : ¬ Preserved v v' start new := by
  intro h
  by_cases hfix : pfsFixIndex (v.inode start).number_data = 1
  · have hthree : 3 ≤ (v.inode start).number_data := by
      unfold pfsFixIndex at hfix
      split at hfix
      · omega
      · rename_i hlarge
        simp only [PFS_INODE_MAX_BLOCKS] at hlarge
        omega
    by_cases hthree' : 3 ≤ (v'.inode new).number_data
    · refine h.slot_ne (j := 2) (k := 2) hw (by omega) (by omega) ?_
      rw [slot_two, slot_two]
      exact hkept.slot_two hfix
    · -- the only data segment of the copy holds no more than the first one of the original
      have hnumber : (v'.inode new).number_data = 2 := by omega
      have hpart := hkept.part hfix hnumber.le
      have hnew : v'.dataSlots new = [(v'.inode new).data 1] := by
        unfold Volume.dataSlots
        rw [hnumber]
        rfl
      have hsub : [v.slot start 1, v.slot start 2].Sublist (v.dataSlots start) := by
        have hrange : (List.range 3).Sublist (List.range (v.inode start).number_data) :=
          List.range_sublist.mpr hthree
        exact (hrange.filter fun index => pfsFixIndex index ≠ 0).map (v.slot start)
      have hle := (hsub.map fun b => b.count).sum_le_sum (fun _ _ => Nat.zero_le _)
      have hlength := congrArg List.length h.contents
      rw [length_contents, length_contents, hnew] at hlength
      have hcount := (hw.live _ (mem_slots (k := 2) (by omega))).2
      simp only [List.map_cons, List.map_nil, List.sum_cons, List.sum_nil, slot_one] at hle hlength
      omega
  · refine h.slot_ne (j := 1) (k := 1) hw (by omega) (by omega) ?_
    rw [slot_one, slot_one]
    exact hkept.slot_one hfix

/-- A move that succeeds preserves the file if and only if it has no data segments. -/
theorem fsskMoveInode_preserves (hm : Mounted v.mount) (hw : v.WellFormed start)
    (hrun : Runs (fsskMoveInode dest start) v 0 v') :
    Preserved v v' start (v'.place v'.dentry.sub v'.dentry.inode) ↔
      (v.inode start).number_data = 1 := by
  have hspec : wlp (fsskMoveInode dest start) v fun result v' => result = 0 →
      (Preserved v v' start (v'.place v'.dentry.sub v'.dentry.inode) ↔
        (v.inode start).number_data = 1) := by
    refine wlp_fsskMoveInode hm ?_ ?_
    · intro found v₂ result hcopying hneg _ hzero
      omega
    · intro found v₂ clink hcopying h0 h1 hclink hroom
      have hgoing := hcopying.going hm hw hclink
      have hsub : found.subpart % 256 = found.subpart := by
        have hle := hcopying.taken.subpart
        have hsubs := hm.subs
        exact Nat.mod_eq_of_lt (by omega)
      by_cases hone : (v.inode start).number_data = 1
      · refine (moveZones_one hgoing hone).mono ?_
        rintro result v' ⟨-, hmount, hinode, -, hdentry⟩ _
        rw [hdentry, hsub]
        refine iff_of_true ?_ hone
        have hscale : v'.mount.inode_scale = v₂.mount.inode_scale := by
          rw [hmount, (pfsBitmapFreeBlockSegment_rest _ _).2.2]
          rfl
        have hplace : v'.place found.subpart found.number = clink := by
          rw [hclink]
          unfold Volume.place
          rw [hscale]
        refine preserved_one hw hone hcopying.taken hcopying.one hmount rfl ?_
        rw [hplace, hinode]
        exact Function.update_self ..
      · have hpos := hw.nonempty
        have htwo : 2 ≤ (v.inode start).number_data := by omega
        have hcount : 0 < ((v.inode start).data 1).count :=
          (hw.live _ (mem_slots (k := 1) (by omega))).2
        have hnumber := number_data_copyTo { v₂ with held := clink :: v₂.held } clink (v.inode start) found
        refine (moveZones_more hgoing htwo hcount hnumber).mono ?_
        rintro result v' ⟨htwo', hkept, hplace, hdentry, -⟩ hzero
        rw [hdentry hzero, hsub, ← hplace]
        exact iff_of_false (not_preserved hw htwo hkept htwo') hone
  exact hspec 0 v' hrun rfl

/-- A file without data segments is moved. -/
theorem fsskMoveInode_preserves_empty :
    ∃ v', Runs (fsskMoveInode ⟨0, 64⟩ ⟨1, 20⟩) (smallVolume 1 fun _ => none) 0 v' ∧
      Preserved (smallVolume 1 fun _ => none) v' ⟨1, 20⟩ (v'.place v'.dentry.sub v'.dentry.inode) := by
  obtain ⟨result, v', hrun, hresult⟩ := runs_of_any
    (p := fsskMoveInode ⟨0, 64⟩ ⟨1, 20⟩) (s := smallVolume 1 fun _ => none)
    (P := fun result _ => result == 0) 10 (by decide +kernel)
  obtain rfl := eq_of_beq hresult
  exact ⟨v', hrun, (fsskMoveInode_preserves mounted_smallMount (wellFormed_smallVolume_one _)
    hrun).mpr rfl⟩

/-- A file with a data segment of two zones is moved: the copy still has the zones of the original, which are free then. -/
theorem fsskMoveInode_scrambles :
    ¬ ∀ (v v' : Volume Nat) (dest start : pfs_cache_t), Mounted v.mount → Counted v.mount →
      v.WellFormed start → (∀ n, v.outcomes n = none) → Runs (fsskMoveInode dest start) v 0 v' →
        Preserved v v' start (v'.place v'.dentry.sub v'.dentry.inode) := by
  intro h
  obtain ⟨result, v', hrun, hresult⟩ := runs_of_any
    (p := fsskMoveInode ⟨0, 64⟩ ⟨1, 20⟩) (s := smallVolume 2 fun _ => none)
    (P := fun result v' => result == 0 && !v'.mount.zone 1 20 &&
      (v'.inode (v'.place v'.dentry.sub v'.dentry.inode)).number_data == 2 &&
      (v'.inode (v'.place v'.dentry.sub v'.dentry.inode)).data 1 == ⟨20, 1, 2⟩) 10 (by decide +kernel)
  simp only [Bool.and_eq_true, beq_iff_eq, Bool.not_eq_true'] at hresult
  obtain ⟨⟨⟨rfl, hfree⟩, hnumber⟩, hdata⟩ := hresult
  have hpreserved := h _ v' _ _ mounted_smallMount counted_smallMount (wellFormed_smallVolume_two _)
    (fun _ => rfl) hrun
  have hlive := (hpreserved.wellFormed.live _ (mem_slots (k := 1) (by omega))).1
  rw [slot_one, hdata] at hlive
  have hused := hlive.used 20 le_rfl (by decide)
  rw [hfree] at hused
  cases hused

end HddChecker.Fssk
