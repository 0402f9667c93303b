import HddChecker.Fssk.Move

/-!
# What a move leaves behind

A moved file should have its contents in zones of its own at its new place, with its old zones free, and a move that fails should leave no trace. The code does the one for an inode without data segments, and the other where the failure comes before the first of them: the copy starts with the slots of the original, which the loop over the segments does not replace.
-/

namespace HddChecker.Fssk

open HddChecker Prog Pfs

variable {α : Type} {v v' : Volume α} {start clink clink3 dest c : pfs_cache_t} {src i : pfs_inode_t}
  {m m' : pfs_mount_t} {bi b b1 b2 block block2 first : pfs_blockinfo_t} {n k : Nat}

/-! ### Files -/

/-- The descriptor of a slot: how many segments come before its own. -/
def level (index : Nat) : Nat :=
  if index < PFS_INODE_MAX_BLOCKS then 0 else (index - PFS_INODE_MAX_BLOCKS) / 123 + 1

namespace Volume

variable (v : Volume α) (c : pfs_cache_t)

/-- The descriptors of an inode, along their chain. -/
def descriptor : Nat → pfs_inode_t
  | 0 => v.inode c
  | k + 1 => v.inodeAt (descriptor k).next_segment.subpart (descriptor k).next_segment.number

def slot (index : Nat) : pfs_blockinfo_t := (v.descriptor c (level index)).data (pfsFixIndex index)

/-- All the runs of zones of an inode. -/
def slots : List pfs_blockinfo_t := (List.range (v.inode c).number_data).map (v.slot c)

def dataSlots : List pfs_blockinfo_t :=
  ((List.range (v.inode c).number_data).filter fun index => pfsFixIndex index ≠ 0).map (v.slot c)

/-- The contents of a run of zones. -/
def contentsOf (b : pfs_blockinfo_t) : List α := (List.range b.count).map fun k => v.zone b.subpart (b.number + k)

/-- The data zones of an inode, read in the order of its segments. -/
def contents : List α := (v.dataSlots c).flatMap v.contentsOf

/-- A zone belongs to an inode. -/
def Owns (sub p : Nat) : Prop := ∃ b ∈ v.slots c, b.subpart = sub ∧ b.number ≤ p ∧ p < b.number + b.count

/-- The metadata of an inode is well formed: its zones are in use and no two of its runs overlap, it stands at its own first run, and its counts tell of its chain of descriptors. -/
structure WellFormed : Prop where
  place : c = v.place (v.inode c).inode_block.subpart (v.inode c).inode_block.number
  nonempty : 0 < (v.inode c).number_data
  live : ∀ b ∈ v.slots c, Live v.mount b ∧ 0 < b.count
  apart : (v.slots c).Pairwise Apart
  first : v.slot c 0 = { (v.inode c).inode_block with count := 1 }
  number_blocks : (v.inode c).number_blocks = ((v.slots c).map fun b => b.count).sum
  number_segdesg : (v.inode c).number_segdesg = level ((v.inode c).number_data - 1) + 1
  last_segment : (v.inode c).last_segment = (v.descriptor c (level ((v.inode c).number_data - 1))).data 0
  chain : ∀ k < level ((v.inode c).number_data - 1),
    (v.descriptor c (k + 1)).data 0 = (v.descriptor c k).next_segment ∧
      (v.descriptor c k).next_segment.number ≠ 0
  ends : (v.descriptor c (level ((v.inode c).number_data - 1))).next_segment.number = 0

end Volume

/-- A move from `v` to `v'` that has preserved the file: the inode at the new place has the contents and the attributes of the original and is well formed, its zones are of no other file, and of the zones in use those of the original have become free. -/
structure Preserved (v v' : Volume α) (start new : pfs_cache_t) : Prop where
  contents : v'.contents new = v.contents start
  mode : (v'.inode new).mode = (v.inode start).mode
  attr : (v'.inode new).attr = (v.inode start).attr
  uid : (v'.inode new).uid = (v.inode start).uid
  gid : (v'.inode new).gid = (v.inode start).gid
  atime : (v'.inode new).atime = (v.inode start).atime
  ctime : (v'.inode new).ctime = (v.inode start).ctime
  mtime : (v'.inode new).mtime = (v.inode start).mtime
  size : (v'.inode new).size = (v.inode start).size
  wellFormed : v'.WellFormed new
  apart : ∀ sub p, v'.Owns new sub p → v.mount.zone sub p = true → v.Owns start sub p
  freed : ∀ sub p, v.mount.zone sub p = true → (v'.mount.zone sub p = false ↔ v.Owns start sub p)

/-- A move from `v` to `v'` has left no trace: not in the directory entry, the zones of the original, the allocation or the uses of the cache. -/
structure NoTrace (v v' : Volume α) (start : pfs_cache_t) : Prop where
  dentry : v'.dentry = v.dentry
  used : ∀ sub p, v.Owns start sub p → v'.mount.zone sub p = true
  contents : ∀ sub p, v.Owns start sub p → v'.zone sub p = v.zone sub p
  descriptors : ∀ k, v'.descriptor start k = v.descriptor start k
  bitmaps : ∀ sub p, v'.mount.zone sub p = v.mount.zone sub p
  free_zone : v'.mount.free_zone = v.mount.free_zone
  zfree : v'.mount.zfree = v.mount.zfree
  held : v'.held.Perm v.held

/-- A mount as it is set up: bitmaps in whole words, and no free zones but in its partitions. -/
structure Mounted (m : pfs_mount_t) : Prop where
  subs : m.num_subs ≤ 64
  words : ∀ i ≤ m.num_subs, 32 ∣ m.zones i
  beyond : ∀ i, m.num_subs < i → i < FREE_ZONES → m.free_zone i = 0

/-- The block of a buffer is in a zone in use. -/
def Volume.InUse (v : Volume α) (c : pfs_cache_t) : Prop :=
  v.mount.zone c.sub (c.block / 2 ^ v.mount.inode_scale) = true

/-! ### Steps -/

theorem Mounted.taken (hm : Mounted m) (h : Taken b m m') : Mounted m' := by
  obtain ⟨t, hchanged, rfl⟩ := h.changed
  have hnum : t.num_subs = m.num_subs := by rw [hchanged.rest]
  have hfree : t.free_zone = m.free_zone := by rw [hchanged.rest]
  refine ⟨hnum ▸ hm.subs, fun j hj => ?_, fun j hj hlt => ?_⟩
  · change 32 ∣ t.zones j
    rw [hchanged.zones]
    exact hm.words j (hnum ▸ hj)
  · have hsub := h.subpart
    have hj' : m.num_subs < j := hnum ▸ hj
    change Function.update t.free_zone b.subpart _ j = 0
    rw [Function.update_of_ne (by omega), hfree]
    exact hm.beyond j hj' hlt

section Rules

variable {β : Type} {Q : β → Volume α → Prop}

theorem wlp_inodeOf_bind {g : pfs_inode_t → Prog (Volume α) β} :
    wlp (inodeOf c >>= g) v Q ↔ wlp (g (v.inode c)) v Q := Iff.rfl

theorem wlp_setInode_bind {f : pfs_inode_t → pfs_inode_t} {g : Unit → Prog (Volume α) β} :
    wlp (setInode c f >>= g) v Q ↔ wlp (g ()) (v.setInode c f) Q := Iff.rfl

theorem wlp_onMount_bind {f : pfs_mount_t → pfs_mount_t} {g : Unit → Prog (Volume α) β} :
    wlp (onMount f >>= g) v Q ↔ wlp (g ()) { v with mount := f v.mount } Q := Iff.rfl

theorem wlp_place_bind {g : pfs_cache_t → Prog (Volume α) β} :
    wlp (place b >>= g) v Q ↔ wlp (g (v.place b.subpart b.number)) v Q := Iff.rfl

theorem wlp_crash {β : Type} {Q : β → Volume α → Prop} : wlp crash v Q :=
  wlp_loop (fun _ _ => True) (fun _ _ _ => wlp_pure trivial) trivial

end Rules

/-- What a copy of zones changes. -/
def Copied (b : pfs_blockinfo_t) (n : Nat) (v v' : Volume α) : Prop :=
  ∃ zone IOBuffer outcomes, v' = { v with zone, IOBuffer, outcomes } ∧
    ∀ s p, ¬ (s = b.subpart ∧ b.number ≤ p ∧ p < b.number + n) → zone s p = v.zone s p

theorem wlp_readZone_bind {β : Type} {Q : β → Volume α → Prop} {sub number : Nat}
    {g : Int → Prog (Volume α) β}
    (hok : v.outcomes 0 = none → wlp (g 0) { v.later with IOBuffer := v.zone sub number } Q)
    (herr : ∀ e left, v.outcomes 0 = some (e, left) →
      wlp (g (.negSucc e)) { v.later with IOBuffer := left } Q) :
    wlp (readZone sub number >>= g) v Q := by
  refine wlp_ofState_bind.mpr ?_
  cases hout : v.outcomes 0 with
  | none => exact hok hout
  | some x => exact herr x.1 x.2 hout

theorem wlp_writeZone_bind {β : Type} {Q : β → Volume α → Prop} {sub number : Nat}
    {g : Int → Prog (Volume α) β}
    (hok : v.outcomes 0 = none → wlp (g 0) { v.later with
      zone := Function.update v.zone sub (Function.update (v.zone sub) number v.IOBuffer) } Q)
    (herr : ∀ e left, v.outcomes 0 = some (e, left) → wlp (g (.negSucc e)) { v.later with
      zone := Function.update v.zone sub (Function.update (v.zone sub) number left) } Q) :
    wlp (writeZone sub number >>= g) v Q := by
  refine wlp_ofState_bind.mpr ?_
  cases hout : v.outcomes 0 with
  | none => exact hok hout
  | some x => exact herr x.1 x.2 hout

theorem Copied.refl : Copied b n v v := ⟨_, _, _, rfl, fun _ _ _ => rfl⟩

theorem Copied.read (h : Copied b n v v') (x : α) : Copied b n v { v'.later with IOBuffer := x } := by
  obtain ⟨zone, IOBuffer, outcomes, rfl, hzone⟩ := h
  exact ⟨_, _, _, rfl, hzone⟩

theorem Copied.write (h : Copied b n v v') (hk : k < n) (x : α) : Copied b n v { v'.later with
    zone := Function.update v'.zone b.subpart
      (Function.update (v'.zone b.subpart) (b.number + k) x) } := by
  obtain ⟨zone, IOBuffer, outcomes, rfl, hzone⟩ := h
  refine ⟨_, _, _, rfl, fun s p hout => ?_⟩
  by_cases hs : s = b.subpart
  · subst hs
    rw [Function.update_self, Function.update_of_ne (by omega)]
    exact hzone _ p hout
  · rw [Function.update_of_ne hs]
    exact hzone s p hout

/-- Only the zones of the first block are written. -/
theorem fsskCopyBlock_spec (b1 b2 : pfs_blockinfo_t) (n : Nat) (v : Volume α) :
    wlp (fsskCopyBlock b1 b2 n) v fun result v' => result ≤ 0 ∧ Copied b1 n v v' := by
  refine wlp_loop (fun _ v' => Copied b1 n v v') (fun k v' hinv => ?_) Copied.refl
  split
  · rename_i hk
    refine wlp_readZone_bind (fun _ => ?_) (fun e left _ => ?_)
    · rw [if_neg (by decide)]
      refine wlp_writeZone_bind (fun _ => ?_) (fun e left _ => ?_)
      · rw [if_neg (by decide)]
        exact wlp_pure ((hinv.read _).write hk _)
      · rw [if_pos (Int.negSucc_lt_zero e)]
        exact wlp_pure ⟨(Int.negSucc_lt_zero e).le, (hinv.read _).write hk _⟩
    · rw [if_pos (Int.negSucc_lt_zero e)]
      exact wlp_pure ⟨(Int.negSucc_lt_zero e).le, hinv.read _⟩
  · exact wlp_pure ⟨le_rfl, hinv⟩

/-- One zone is copied if and only if its two transfers succeed. -/
theorem fsskCopyBlock_one (b1 b2 : pfs_blockinfo_t) (v : Volume α) :
    wlp (fsskCopyBlock b1 b2 1) v fun result _ =>
      result < 0 ↔ v.outcomes 0 ≠ none ∨ v.outcomes 1 ≠ none := by
  refine wlp_loop (fun k v' => (k = 0 ∧ v' = v) ∨
    (k = 1 ∧ v.outcomes 0 = none ∧ v.outcomes 1 = none)) (fun k v' hinv => ?_) (.inl ⟨rfl, rfl⟩)
  obtain ⟨rfl, rfl⟩ | ⟨rfl, h0, h1⟩ := hinv
  · rw [if_pos (by decide)]
    refine wlp_readZone_bind (fun h0 => ?_) (fun e left h0 => ?_)
    · rw [if_neg (by decide)]
      refine wlp_writeZone_bind (fun h1 => ?_) (fun e left h1 => ?_)
      · rw [if_neg (by decide)]
        exact wlp_pure (.inr ⟨rfl, h0, h1⟩)
      · have h1' : v'.outcomes 1 = some (e, left) := h1
        rw [if_pos (Int.negSucc_lt_zero e)]
        exact wlp_pure (iff_of_true (Int.negSucc_lt_zero e) (.inr (by rw [h1']; simp)))
    · rw [if_pos (Int.negSucc_lt_zero e)]
      exact wlp_pure (iff_of_true (Int.negSucc_lt_zero e) (.inl (by rw [h0]; simp)))
  · rw [if_neg (by decide)]
    exact wlp_pure (iff_of_false (by decide) (by simp [h0, h1]))

/-- A search that succeeds: a run of free zones was taken, no more of them than were asked for. -/
structure Found (bi found : pfs_blockinfo_t) (v v' : Volume α) : Prop where
  same : v' = { v with mount := v'.mount }
  taken : Taken found v.mount v'.mount
  pos : 0 < found.count
  count : found.count ≤ bi.count
  free_zone : found.count ≤ v.mount.free_zone found.subpart

private theorem searchPass_spec (hm : Mounted v.mount) (num count : Nat) (hbi : 0 < bi.count) :
    wlp (searchPass num count bi) v fun r v' =>
      match r with
      | .inl b' => v' = v ∧ b'.count = bi.count
      | .inr found => Found bi found v v' := by
  unfold searchPass
  refine wlp_read_bind.mpr ?_
  split
  · rename_i hread
    split
    · rename_i found t hfound
      obtain ⟨amount, hpos, hle, hzones⟩ := searchSizes_spec hfound
      -- a partition with free zones is one of the mount
      have hsub : bi.subpart ≤ v.mount.num_subs := by
        by_contra hlt
        have := hm.beyond bi.subpart (by omega) hread
        omega
      obtain ⟨hmin, hsubpart, hinside, hfree, hchanged⟩ :=
        pfsBitmapAllocZones_spec (hm.words _ hsub) hzones
      rw [← hsubpart] at hsub hinside hfree hchanged hle
      refine wlp_onMount_bind.mpr (wlp_pure ?_)
      have hfree' : ∀ p, found.number ≤ p → p < found.number + found.count →
          v.mount.zone found.subpart p = false := fun p hp hp' => hfree p hp (by omega)
      exact ⟨rfl, ⟨hsub, fun _ => hinside, hfree', t, hchanged, rfl⟩, by omega, by omega, by omega⟩
    · exact wlp_pure ⟨rfl, rfl⟩
  · exact wlp_stuck

theorem fsckBitmapSearchFreeZoneSpecial_spec (hm : Mounted v.mount) (bi : pfs_blockinfo_t)
    (hbi : 0 < bi.count) (max_count : Nat) :
    wlp (fsckBitmapSearchFreeZoneSpecial bi max_count) v fun found v' => Found bi found v v' := by
  unfold fsckBitmapSearchFreeZoneSpecial
  refine wlp_read_bind.mpr ?_
  generalize v.subsLeft = num
  refine wlp_loop (fun b v' => v' = v ∧ b.count = bi.count) (fun b v' hinv => ?_) ⟨rfl, ?_⟩
  · obtain ⟨rfl, hcount⟩ := hinv
    refine (searchPass_spec hm _ _ (hcount ▸ hbi)).mono fun r v'' h => ?_
    cases r with
    | inl b' => exact ⟨h.1, h.2.trans hcount⟩
    | inr found => exact { h with count := hcount ▸ h.count }
  · split <;> rfl

/-! ### The loop over the segments -/

/-- What the loop keeps of the copy of an inode `src` at a block. One of its slots is still that of the original, as the loop writes one slot only; where this is the first data slot, it holds a part of the first segment at most while there is no second one. -/
structure Kept (src : pfs_inode_t) (block : pfs_blockinfo_t) (i : pfs_inode_t) : Prop where
  inode_block : i.inode_block = block
  pos : 0 < i.number_data
  slot_one : pfsFixIndex src.number_data ≠ 1 → i.data 1 = src.data 1
  slot_two : pfsFixIndex src.number_data = 1 → i.data 2 = src.data 2
  part : pfsFixIndex src.number_data = 1 → i.number_data ≤ 2 → (i.data 1).count ≤ (src.data 1).count

theorem Kept.setData (h : Kept src block i) {k : Nat} (h1 : k ≠ 1) (h2 : k ≠ 2) (h119 : k ≠ 119)
    (b : pfs_blockinfo_t) : Kept src block (i.setData k b) := by
  have e1 : (i.setData k b).data 1 = i.data 1 := i.setData_data (Ne.symm h1) b
  have e2 : (i.setData k b).data 2 = i.data 2 := i.setData_data (Ne.symm h2) b
  have en := i.setData_number_data h119 b
  exact ⟨h.inode_block, en ▸ h.pos, e1 ▸ h.slot_one, e2 ▸ h.slot_two, by rw [e1, en]; exact h.part⟩

theorem Kept.setNumberBlocks (h : Kept src block i) (n : Nat) : Kept src block (i.setNumberBlocks n) := by
  have e1 : (i.setNumberBlocks n).data 1 = i.data 1 := i.setData_data (by decide) _
  have e2 : (i.setNumberBlocks n).data 2 = i.data 2 := i.setData_data (by decide) _
  have en := i.setNumberBlocks_number_data n
  exact ⟨h.inode_block, en ▸ h.pos, e1 ▸ h.slot_one, e2 ▸ h.slot_two, by rw [e1, en]; exact h.part⟩

theorem Kept.grow (h : Kept src block i) : Kept src block (i.setNumberData (i.number_data + 1)) := by
  have e1 : (i.setNumberData (i.number_data + 1)).data 1 = i.data 1 := i.setData_data (by decide) _
  have e2 : (i.setNumberData (i.number_data + 1)).data 2 = i.data 2 := i.setData_data (by decide) _
  have en := i.setNumberData_number_data (i.number_data + 1)
  refine ⟨h.inode_block, by omega, e1 ▸ h.slot_one, e2 ▸ h.slot_two, fun hfix hle => ?_⟩
  rw [e1]
  exact h.part hfix (by omega)

private theorem addSegment_number_data (i : pfs_inode_t) (b : pfs_blockinfo_t) :
    (i.addSegment b).number_data = i.number_data + 1 := by
  unfold pfs_inode_t.addSegment
  rw [pfs_inode_t.setNumberSegdesg_number_data]
  change ((i.setNumberBlocks _).setNumberData _).number_data = _
  rw [pfs_inode_t.setNumberData_number_data, pfs_inode_t.setNumberBlocks_number_data]

theorem Kept.addSegment (h : Kept src block i) (b : pfs_blockinfo_t) :
    Kept src block (i.addSegment b) := by
  have hgrown := (h.setNumberBlocks (i.number_blocks + b.count)).grow
  have hlast : Kept src block { (i.setNumberBlocks (i.number_blocks + b.count)).setNumberData
      ((i.setNumberBlocks (i.number_blocks + b.count)).number_data + 1) with last_segment := b } :=
    ⟨hgrown.inode_block, hgrown.pos, hgrown.slot_one, hgrown.slot_two, hgrown.part⟩
  exact hlast.setData (by decide) (by decide) (by decide) _

/-- A block is written to the slot the loop writes, and counted. -/
theorem Kept.append (h : Kept src block i) (hpos : 0 < b.count)
    (hpart : i.number_data = 1 → b.count ≤ (src.data 1).count) :
    Kept src block ((i.setData (pfsFixIndex src.number_data) b).setNumberData
      ((i.setData (pfsFixIndex src.number_data) b).number_data + 1)) ∧
    2 ≤ (i.setData (pfsFixIndex src.number_data) b).number_data + 1 := by
  obtain ⟨k, hk⟩ : ∃ k, k = pfsFixIndex src.number_data := ⟨_, rfl⟩
  rw [← hk]
  have hnumber : (k = 119 ∧ 65536 ≤ (i.setData k b).number_data) ∨
      (i.setData k b).number_data = i.number_data := by
    by_cases h119 : k = 119
    · subst h119
      refine .inl ⟨rfl, ?_⟩
      simp only [pfs_inode_t.number_data, pfs_inode_t.setData_data_self]
      omega
    · exact .inr (i.setData_number_data h119 b)
  have e (j : Nat) (hj : j ≠ 119) : ((i.setData k b).setNumberData
      ((i.setData k b).number_data + 1)).data j = (i.setData k b).data j :=
    pfs_inode_t.setData_data _ hj _
  have hfirst := h.pos
  refine ⟨⟨h.inode_block, ?_, fun hne => ?_, fun heq => ?_, fun heq hle => ?_⟩, by omega⟩
  · rw [pfs_inode_t.setNumberData_number_data]
    omega
  · rw [e 1 (by decide), i.setData_data (hk ▸ Ne.symm hne)]
    exact h.slot_one hne
  · rw [e 2 (by decide), i.setData_data (by omega)]
    exact h.slot_two heq
  · rw [pfs_inode_t.setNumberData_number_data] at hle
    rw [e 1 (by decide), hk, heq, pfs_inode_t.setData_data_self]
    exact hpart (by omega)

/-- What holds at each step of the loop, with the descriptor of the copy at hand. -/
structure Going (src : pfs_inode_t) (block : pfs_blockinfo_t) (start clink clink3 : pfs_cache_t)
    (v : Volume α) : Prop where
  mounted : Mounted v.mount
  startUsed : v.InUse start
  clinkUsed : v.InUse clink
  startInode : v.inode start = src
  ne : clink ≠ start
  ne3 : clink3 ≠ start
  first : ((v.inode clink3).data 0).subpart ≤ v.mount.num_subs
  kept : Kept src block (v.inode clink)
  place : clink = v.place block.subpart block.number

theorem InUse.taken (h : Taken b v.mount v'.mount) (hused : v.InUse c) : v'.InUse c := by
  unfold Volume.InUse
  rw [h.inode_scale]
  exact h.used hused

theorem Copied.inode (h : Copied b n v v') : v'.inode = v.inode := by
  obtain ⟨_, _, _, rfl, -⟩ := h
  rfl

theorem Copied.mount (h : Copied b n v v') : v'.mount = v.mount := by
  obtain ⟨_, _, _, rfl, -⟩ := h
  rfl

/-- The place of an inode depends on the scale of the mount only. -/
theorem place_taken (h : Taken b v.mount v'.mount) (sub number : Nat) :
    v'.place sub number = v.place sub number := by
  simp only [Volume.place, h.inode_scale]

theorem place_ne {number sub : Nat} (hfree : v.mount.zone sub number = false) (hused : v.InUse c) :
    v.place sub number ≠ c := by
  rintro rfl
  change v.mount.zone sub (number * 2 ^ v.mount.inode_scale / 2 ^ v.mount.inode_scale) = true at hused
  rw [Nat.mul_div_cancel _ (Nat.two_pow_pos _), hfree] at hused
  cases hused

namespace Going

theorem of_eq (h : Going src block start clink clink3 v) (hmount : v'.mount = v.mount)
    (hinode : v'.inode = v.inode) : Going src block start clink clink3 v' := by
  refine ⟨hmount ▸ h.mounted, ?_, ?_, hinode ▸ h.startInode, h.ne, h.ne3, ?_, hinode ▸ h.kept, ?_⟩
  · unfold Volume.InUse
    rw [hmount]
    exact h.startUsed
  · unfold Volume.InUse
    rw [hmount]
    exact h.clinkUsed
  · rw [hmount, hinode]
    exact h.first
  · unfold Volume.place
    rw [hmount]
    exact h.place

theorem copied (h : Going src block start clink clink3 v) (hcopied : Copied b n v v') :
    Going src block start clink clink3 v' :=
  h.of_eq hcopied.mount hcopied.inode

theorem taken (h : Going src block start clink clink3 v) (ht : Taken b v.mount v'.mount)
    (hinode : v'.inode = v.inode) : Going src block start clink clink3 v' := by
  refine ⟨h.mounted.taken ht, InUse.taken ht h.startUsed, InUse.taken ht h.clinkUsed,
    hinode ▸ h.startInode, h.ne, h.ne3, ?_, hinode ▸ h.kept, ?_⟩
  · rw [ht.num_subs, hinode]
    exact h.first
  · rw [place_taken ht]
    exact h.place

/-- A write to the copy or to the descriptor at hand. -/
theorem setInode (h : Going src block start clink clink3 v) (hc : c ≠ start)
    {f : pfs_inode_t → pfs_inode_t}
    (hfirst : ∀ i, (i.data 0).subpart ≤ v.mount.num_subs → ((f i).data 0).subpart ≤ v.mount.num_subs)
    (hkept : c = clink → Kept src block (f (v.inode clink))) :
    Going src block start clink clink3 (v.setInode c f) := by
  refine ⟨h.mounted, h.startUsed, h.clinkUsed, ?_, h.ne, h.ne3, ?_, ?_, h.place⟩
  · change Function.update v.inode c _ start = src
    rw [Function.update_of_ne (Ne.symm hc)]
    exact h.startInode
  · change ((Function.update v.inode c (f (v.inode c)) clink3).data 0).subpart ≤ _
    by_cases heq : clink3 = c
    · subst heq
      rw [Function.update_self]
      exact hfirst _ h.first
    · rw [Function.update_of_ne heq]
      exact h.first
  · change Kept src block (Function.update v.inode c (f (v.inode c)) clink)
    by_cases heq : clink = c
    · subst heq
      rw [Function.update_self]
      exact hkept rfl
    · rw [Function.update_of_ne heq]
      exact h.kept

theorem descriptor (h : Going src block start clink clink3 v) (hstart : c ≠ start) (hclink : c ≠ clink)
    {f : pfs_inode_t → pfs_inode_t} (hf : ((f (v.inode c)).data 0).subpart ≤ v.mount.num_subs) :
    Going src block start clink c (v.setInode c f) := by
  refine ⟨h.mounted, h.startUsed, h.clinkUsed, ?_, h.ne, hstart, ?_, ?_, h.place⟩
  · change Function.update v.inode c _ start = src
    rw [Function.update_of_ne (Ne.symm hstart)]
    exact h.startInode
  · change ((Function.update v.inode c (f (v.inode c)) c).data 0).subpart ≤ _
    rw [Function.update_self]
    exact hf
  · change Kept src block (Function.update v.inode c (f (v.inode c)) clink)
    rw [Function.update_of_ne (Ne.symm hclink)]
    exact h.kept

theorem setNumberBlocks (h : Going src block start clink clink3 v) (n : pfs_inode_t → Nat) :
    Going src block start clink clink3 (v.setInode clink fun i => i.setNumberBlocks (n i)) := by
  refine h.setInode h.ne (fun i hi => ?_) fun _ => h.kept.setNumberBlocks _
  rw [pfs_inode_t.setNumberBlocks, pfs_inode_t.setData_data _ (by decide)]
  exact hi

theorem grow (h : Going src block start clink clink3 v) :
    Going src block start clink clink3 (v.setInode clink fun i => i.setNumberData (i.number_data + 1)) := by
  refine h.setInode h.ne (fun i hi => ?_) fun _ => h.kept.grow
  rw [pfs_inode_t.setNumberData, pfs_inode_t.setData_data _ (by decide)]
  exact hi

/-- A block is written to the descriptor at hand, and counted in the copy. -/
theorem append (h : Going src block start clink clink3 v) (hsub : b.subpart ≤ v.mount.num_subs)
    (hpos : 0 < b.count)
    (hpart : (v.inode clink).number_data = 1 → b.count ≤ (src.data 1).count) :
    Going src block start clink clink3
      ((v.setInode clink3 fun i => i.setData (pfsFixIndex src.number_data) b).setInode clink
        fun i => i.setNumberData (i.number_data + 1)) ∧
    2 ≤ (((v.setInode clink3 fun i => i.setData (pfsFixIndex src.number_data) b).setInode clink
        fun i => i.setNumberData (i.number_data + 1)).inode clink).number_data := by
  have hfirst : ∀ i : pfs_inode_t, (i.data 0).subpart ≤ v.mount.num_subs →
      ((i.setData (pfsFixIndex src.number_data) b).data 0).subpart ≤ v.mount.num_subs := by
    intro i hi
    by_cases heq : 0 = pfsFixIndex src.number_data
    · rw [← heq, pfs_inode_t.setData_data_self]
      exact hsub
    · rw [i.setData_data heq]
      exact hi
  by_cases heq : clink3 = clink
  · -- the slot and the count are of the same inode
    subst heq
    obtain ⟨hkept, htwo⟩ := h.kept.append hpos hpart
    have hboth : (v.setInode clink3 fun i => i.setData (pfsFixIndex src.number_data) b).setInode clink3
        (fun i => i.setNumberData (i.number_data + 1)) =
          v.setInode clink3 fun i => (i.setData (pfsFixIndex src.number_data) b).setNumberData
            ((i.setData (pfsFixIndex src.number_data) b).number_data + 1) := by
      simp only [Volume.setInode, Function.update_self, Function.update_idem]
    rw [hboth]
    refine ⟨h.setInode h.ne (fun i hi => ?_) fun _ => hkept, ?_⟩
    · rw [pfs_inode_t.setNumberData, pfs_inode_t.setData_data _ (by decide)]
      exact hfirst i hi
    · simp only [Volume.setInode, Function.update_self, pfs_inode_t.setNumberData_number_data]
      exact htwo
  · refine ⟨(h.setInode h.ne3 hfirst fun h' => absurd h' heq).grow, ?_⟩
    have hgt := h.kept.pos
    simp only [Volume.setInode, Function.update_self, pfs_inode_t.setNumberData_number_data,
      Function.update_of_ne (Ne.symm heq)]
    omega

end Going

theorem number_data_setInode (v : Volume α) (c : pfs_cache_t) {f : pfs_inode_t → pfs_inode_t}
    (hf : ∀ i, (f i).number_data = i.number_data) (clink : pfs_cache_t) :
    ((v.setInode c f).inode clink).number_data = (v.inode clink).number_data := by
  change (Function.update v.inode c (f (v.inode c)) clink).number_data = _
  by_cases heq : clink = c
  · subst heq
    rw [Function.update_self, hf]
  · rw [Function.update_of_ne heq]

/-! ### The functions of the loop -/

private theorem allocateAdditionalZones_spec (hm : Mounted v.mount) (hsub : bi.subpart ≤ v.mount.num_subs)
    (count : Nat) :
    wlp (allocateAdditionalZones bi count) v fun value v' =>
      Taken ⟨bi.number + bi.count, bi.subpart, value⟩ v.mount v'.mount ∧ v'.inode = v.inode :=
  wlp_ofState ⟨pfsBitmapAllocateAdditionalZones_spec hm.words hsub rfl, rfl⟩

private theorem searchFreeZone_spec (hm : Mounted v.mount) (bi : pfs_blockinfo_t) (max_count : Nat) :
    wlp (searchFreeZone bi max_count) v fun found v' => Taken found v.mount v'.mount ∧
      v.mount.zone found.subpart found.number = false ∧ v'.inode = v.inode := by
  rintro found v' ⟨fuel, hrun⟩
  obtain ⟨r, hr, heq⟩ := Option.map_eq_some_iff.mp hrun
  cases heq
  obtain ⟨htaken, hfree⟩ := pfsBitmapSearchFreeZone_free hm.words hr
  exact ⟨htaken, hfree, rfl⟩

private theorem extendLast_spec (h : Going src block start clink clink3 v) (block2 : pfs_blockinfo_t) :
    wlp (extendLast clink clink3 block2) v fun r v' => r.1 ≤ 0 ∧
      Going src block start clink clink3 v' ∧
        (v'.inode clink).number_data = (v.inode clink).number_data ∧
          ((v.inode clink).number_data = 1 → r = (0, block2)) := by
  unfold extendLast
  refine wlp_inodeOf_bind.mpr ?_
  split
  · exact wlp_pure ⟨le_rfl, h, rfl, fun _ => rfl⟩
  rename_i hfix
  have hone : (v.inode clink).number_data ≠ 1 := by
    intro hone
    rw [hone] at hfix
    exact hfix (by decide)
  refine wlp_inodeOf_bind.mpr ?_
  refine wlp_bind ((allocateAdditionalZones_spec h.mounted h.first _).mono ?_)
  rintro value v₀ ⟨htaken, hinode⟩
  have hgoing := h.taken htaken hinode
  have hsame : (v₀.inode clink).number_data = (v.inode clink).number_data := by rw [hinode]
  split
  · exact wlp_pure ⟨le_rfl, hgoing, hsame, fun h1 => absurd h1 hone⟩
  · refine wlp_setInode_bind.mpr ?_
    have hgoing' := hgoing.setInode (f := fun i => i.setData 0
      { i.data 0 with count := u16 ((i.data 0).count + value) }) h.ne3 (fun i hi => by simpa using hi)
        fun _ => hgoing.kept.setData (by decide) (by decide) (by decide) _
    have hnumber := number_data_setInode v₀ clink3
      (f := fun i => i.setData 0 { i.data 0 with count := u16 ((i.data 0).count + value) })
      (fun i => i.setData_number_data (by decide) _) clink
    refine wlp_bind ((fsskCopyBlock_spec _ _ _ _).mono ?_)
    rintro result v₁ ⟨hle, hcopied⟩
    have hgoing₁ := hgoing'.copied hcopied
    have hnumber₁ := (congrArg (fun inode => (inode clink).number_data) hcopied.inode).trans (hnumber.trans hsame)
    split
    · exact wlp_pure ⟨hle, hgoing₁, hnumber₁, fun h1 => absurd h1 hone⟩
    · refine wlp_setInode_bind.mpr (wlp_pure ⟨le_rfl, hgoing₁.setNumberBlocks _, ?_,
        fun h1 => absurd h1 hone⟩)
      rw [number_data_setInode v₁ clink fun i => i.setNumberBlocks_number_data _]
      exact hnumber₁

/-- A block that is not loaded: there is a buffer for it, or the cache is full. -/
theorem pfsCacheGetData_noload (c : pfs_cache_t) (v : Volume α) :
    wlp (pfsCacheGetData c true) v fun r v' =>
      match r with
      | .ok () => v' = { v with held := c :: v.held } ∧ (c ∈ v.held ∨ v.pfsCacheIsFull = false)
      | .error result => result = - ENOMEM ∧ v' = v ∧ v.pfsCacheIsFull = true := by
  unfold pfsCacheGetData
  refine wlp_ofState ?_
  by_cases hheld : c ∈ v.held
  · simp [hheld]
  · cases hfull : v.pfsCacheIsFull
    · simp [hheld]
    · simp [hheld]

private theorem wlp_unset_bind {β : Type} {Q : β → Volume α → Prop} {g : Nat → Prog (Volume α) β}
    (h : ∀ count v₀, v₀.mount = v.mount → v₀.inode = v.inode → wlp (g count) v₀ Q) :
    wlp (unset >>= g) v Q :=
  wlp_ofState_bind.mpr (h _ _ rfl rfl)

private theorem linkSegment_spec (h : Going src block start clink clink3 v) (hstart : c ≠ start)
    (hclink : c ≠ clink) {f : pfs_inode_t → pfs_inode_t}
    (hf : ((f (v.inode c)).data 0).subpart ≤ v.mount.num_subs) (found : pfs_blockinfo_t) :
    Going src block start clink c (((v.setInode c f).setInode clink fun i =>
      i.addSegment found).setInode clink3 fun i => { i with next_segment := found }) ∧
    (v.inode clink).number_data < ((((v.setInode c f).setInode clink fun i =>
      i.addSegment found).setInode clink3 fun i =>
        { i with next_segment := found }).inode clink).number_data := by
  have h₀ := h.descriptor hstart hclink hf
  have h₁ := h₀.setInode (f := fun i => i.addSegment found) h.ne (fun i hi => by
      simpa [pfs_inode_t.addSegment, pfs_inode_t.setNumberSegdesg, pfs_inode_t.setNumberData,
        pfs_inode_t.setNumberBlocks, pfs_inode_t.setData_data] using hi)
    fun _ => h₀.kept.addSegment found
  have h₂ := h₁.setInode (f := fun i => { i with next_segment := found }) h.ne3 (fun i hi => hi)
    fun _ => ⟨h₁.kept.inode_block, h₁.kept.pos, h₁.kept.slot_one, h₁.kept.slot_two, h₁.kept.part⟩
  refine ⟨h₂, lt_of_lt_of_eq ?_ (number_data_setInode _ clink3
    (f := fun i => { i with next_segment := found }) (fun _ => rfl) clink).symm⟩
  simp only [Volume.setInode, Function.update_self, addSegment_number_data,
    Function.update_of_ne (Ne.symm hclink)]
  exact Nat.lt_succ_self _

/-- A descriptor is added to the copy, unless there is no room in the cache. -/
private theorem fsskCreateIndirectSeg_spec (h : Going src block start clink clink3 v)
    (data : pfs_blockinfo_t) :
    wlp (fsskCreateIndirectSeg clink clink3 data) v fun r v' =>
      match r with
      | .error result => result < 0 ∧ v' = v
      | .ok c => Going src block start clink c v' ∧
          (v.inode clink).number_data < (v'.inode clink).number_data := by
  unfold fsskCreateIndirectSeg
  refine wlp_read_bind.mpr ?_
  simp only [id_eq]
  split
  · exact wlp_pure ⟨by decide, rfl⟩
  · refine wlp_unset_bind fun count v₀ hmount hinode => ?_
    have h₀ := h.of_eq hmount hinode
    refine wlp_bind ((searchFreeZone_spec h₀.mounted _ _).mono ?_)
    rintro found v₁ ⟨htaken, hfree, hinode₁⟩
    refine wlp_place_bind.mpr ?_
    obtain ⟨c, hc⟩ : ∃ c, c = v₁.place found.subpart found.number := ⟨_, rfl⟩
    have hplace : c = v₀.place found.subpart found.number := hc.trans (place_taken htaken _ _)
    have hstart : c ≠ start := hplace ▸ place_ne hfree h₀.startUsed
    have hclink : c ≠ clink := hplace ▸ place_ne hfree h₀.clinkUsed
    rw [← hc]
    refine wlp_bind ((pfsCacheGetData_noload c _).mono ?_)
    rintro (result | ⟨⟩) v₂ hget
    · exact wlp_crash
    · have hmount₂ : v₂.mount = v₁.mount := by rw [hget.1]
      have hinode₂ : v₂.inode = v₁.inode := by rw [hget.1]
      have h₂ := (h₀.taken htaken hinode₁).of_eq hmount₂ hinode₂
      have hsub : found.subpart ≤ v₂.mount.num_subs := by
        rw [hmount₂, htaken.num_subs]
        exact htaken.subpart
      refine wlp_inodeOf_bind.mpr (wlp_inodeOf_bind.mpr (wlp_setInode_bind.mpr ?_))
      refine wlp_setInode_bind.mpr (wlp_setInode_bind.mpr (wlp_modify_bind.mpr (wlp_pure ?_)))
      obtain ⟨hgoing, hlt⟩ := linkSegment_spec h₂ hstart hclink (f := fun _ => { pfs_inode_t.zero with
        inode_block := (v₂.inode clink).inode_block
        last_segment := (v₂.inode clink3).data 0
        data := Function.update pfs_inode_t.zero.data 0 found }) (by simpa using hsub) found
      exact ⟨hgoing.of_eq rfl rfl, lt_of_eq_of_lt (by rw [hinode₂, hinode₁, hinode]) hlt⟩

private theorem nextDescriptor_spec (h : Going src block start clink clink3 v) :
    wlp (nextDescriptor clink clink3) v fun r v' =>
      match r with
      | .error result => result < 0 ∧ v' = v ∧ 2 ≤ (v.inode clink).number_data
      | .ok c => Going src block start clink c v' ∧
          (v' = v ∨ 2 ≤ (v'.inode clink).number_data) := by
  unfold nextDescriptor
  refine wlp_inodeOf_bind.mpr ?_
  have hpos := h.kept.pos
  split
  · rename_i hfix
    have htwo : 2 ≤ (v.inode clink).number_data := by
      by_contra hlt
      have hone : (v.inode clink).number_data = 1 := by omega
      rw [hone] at hfix
      exact absurd hfix (by decide)
    refine wlp_inodeOf_bind.mpr ((fsskCreateIndirectSeg_spec h _).mono fun r v' hr => ?_)
    cases r with
    | error result => exact ⟨hr.1, hr.2, htwo⟩
    | ok c => exact ⟨hr.1, .inr (htwo.trans hr.2.le)⟩
  · exact wlp_pure ⟨h, .inl rfl⟩

private theorem copyPart_spec (h : Going src block start clink clink3 v) (hcount : 0 < block2.count)
    (hpart : (v.inode clink).number_data = 1 → block2.count ≤ (src.data 1).count) :
    wlp (copyPart start clink clink3 block2) v fun r v' => r.1 ≤ 0 ∧
      Going src block start clink clink3 v' ∧ 2 ≤ (v'.inode clink).number_data := by
  unfold copyPart
  refine wlp_inodeOf_bind.mpr (wlp_inodeOf_bind.mpr ?_)
  rw [h.startInode]
  generalize (v.inode clink3).data 0 = first
  have hsearch := fsckBitmapSearchFreeZoneSpecial_spec h.mounted
    ⟨first.number + first.count, first.subpart, block2.count⟩ hcount src.number_blocks
  refine wlp_bind (hsearch.mono ?_)
  intro found v₁ hfound
  have hinode : v₁.inode = v.inode := by rw [hfound.same]
  have hgoing := h.taken hfound.taken hinode
  have hsub : found.subpart ≤ v₁.mount.num_subs := by
    rw [hfound.taken.num_subs]
    exact hfound.taken.subpart
  obtain ⟨hgoing₂, htwo⟩ := hgoing.append hsub hfound.pos fun hone => by
    rw [hinode] at hone
    exact hfound.count.trans (hpart hone)
  refine wlp_setInode_bind.mpr (wlp_setInode_bind.mpr ?_)
  refine wlp_bind ((fsskCopyBlock_spec _ _ _ _).mono ?_)
  rintro result v₃ ⟨hle, hcopied⟩
  have hgoing₃ := hgoing₂.copied hcopied
  have htwo₃ : 2 ≤ (v₃.inode clink).number_data := by
    rw [hcopied.inode]
    exact htwo
  split
  · exact wlp_pure ⟨hle, hgoing₃, htwo₃⟩
  · refine wlp_setInode_bind.mpr (wlp_pure ⟨le_rfl, hgoing₃.setNumberBlocks _, ?_⟩)
    rw [number_data_setInode v₃ clink fun i => i.setNumberBlocks_number_data _]
    exact htwo₃

/-- The loop over what is left of a segment. -/
private theorem copyRest_spec (h : Going src block start clink clink3 v)
    (hpart : (v.inode clink).number_data = 1 → 0 < block2.count ∧ block2.count ≤ (src.data 1).count) :
    wlp (copyRest start clink (clink3, block2)) v fun r v' => r.1 ≤ 0 ∧
      2 ≤ (v'.inode clink).number_data ∧ (∃ c, Going src block start clink c v') ∧
        ∀ c ∈ r.2, Going src block start clink c v' := by
  unfold copyRest
  refine wlp_loop (fun (x : pfs_cache_t × pfs_blockinfo_t) v' =>
    Going src block start clink x.1 v' ∧ ((v'.inode clink).number_data = 1 →
      0 < x.2.count ∧ x.2.count ≤ (src.data 1).count)) ?_ ⟨h, hpart⟩
  rintro ⟨clink3, block2⟩ v ⟨h, hpart⟩
  have hpos := h.kept.pos
  split
  · rename_i hzero
    simp only at hzero hpart
    refine wlp_pure ⟨le_rfl, ?_, ⟨clink3, h⟩, fun c hc => ?_⟩
    · by_contra hlt
      have := hpart (by omega)
      omega
    · cases hc
      exact h
  · rename_i hcount
    refine wlp_bind ((nextDescriptor_spec h).mono ?_)
    rintro (result | c) v₁ hr
    · obtain ⟨hneg, rfl, htwo⟩ := hr
      exact wlp_pure ⟨hneg.le, htwo, ⟨clink3, h⟩, by simp⟩
    · obtain ⟨h₁, hsame⟩ := hr
      have hpart₁ : (v₁.inode clink).number_data = 1 → block2.count ≤ (src.data 1).count := by
        intro hone
        rcases hsame with rfl | htwo
        · exact (hpart hone).2
        · omega
      refine wlp_bind ((copyPart_spec h₁ (Nat.pos_of_ne_zero hcount) hpart₁).mono ?_)
      rintro ⟨result, rest⟩ v₂ ⟨hle, h₂, htwo⟩
      simp only
      split
      · refine wlp_pure ⟨hle, htwo, ⟨c, h₂⟩, fun c' hc' => ?_⟩
        cases hc'
        exact h₂
      · exact wlp_pure ⟨h₂, fun hone => by omega⟩

private theorem moveSegment_spec (h : Going src block start clink clink3 v)
    (hpart : (v.inode clink).number_data = 1 → 0 < block2.count ∧ block2.count ≤ (src.data 1).count) :
    wlp (moveSegment start clink clink3 block2) v fun r v' => r.1 ≤ 0 ∧
      2 ≤ (v'.inode clink).number_data ∧ (∃ c, Going src block start clink c v') ∧
        ∀ c ∈ r.2, Going src block start clink c v' := by
  unfold moveSegment
  refine wlp_bind ((extendLast_spec h block2).mono ?_)
  rintro ⟨result, rest⟩ v₁ ⟨hle, h₁, hnumber, hone⟩
  have hpos := h.kept.pos
  simp only
  split
  · rename_i hneg
    refine wlp_pure ⟨hle, ?_, ⟨clink3, h₁⟩, fun c hc => ?_⟩
    · -- with one slot there was nothing to extend
      by_contra hlt
      have hzero := congrArg Prod.fst (hone (by omega))
      simp only at hzero
      omega
    · cases hc
      exact h₁
  · refine copyRest_spec h₁ fun h1 => ?_
    have hrest := congrArg Prod.snd (hone (by omega))
    simp only at hrest
    rw [hrest]
    exact hpart (by omega)

private theorem pfsCacheGetData_spec (c : pfs_cache_t) (v : Volume α) :
    wlp (pfsCacheGetData c false) v fun r v' => v'.mount = v.mount ∧ v'.inode = v.inode ∧
      v'.dentry = v.dentry ∧ ∀ result, r = .error result → result < 0 := by
  unfold pfsCacheGetData
  refine wlp_ofState ?_
  by_cases hheld : c ∈ v.held
  · simp [hheld]
  · cases hfull : v.pfsCacheIsFull
    · cases hout : v.outcomes 0 with
      | none => simp [hheld, Volume.later]
      | some x =>
        simp only [hheld, if_false, Bool.false_eq_true]
        refine ⟨rfl, rfl, rfl, fun result heq => ?_⟩
        cases heq
        exact Int.negSucc_lt_zero x.1
    · simp [hheld, ENOMEM]

theorem pfsBlockGetNextSegment_spec (c : pfs_cache_t) (v : Volume α) :
    wlp (pfsBlockGetNextSegment c) v fun r v' => v'.mount = v.mount ∧ v'.inode = v.inode ∧
      v'.dentry = v.dentry ∧ ∀ result, r = .error result → result < 0 := by
  unfold pfsBlockGetNextSegment
  refine wlp_modify_bind.mpr (wlp_inodeOf_bind.mpr ?_)
  split
  · refine wlp_place_bind.mpr (wlp_bind ((pfsCacheGetData_spec _ _).mono ?_))
    rintro (result | ⟨⟩) v₁ ⟨hmount, hinode, hdentry, hneg⟩
    · refine wlp_pure ⟨hmount, hinode, hdentry, fun result' heq => ?_⟩
      cases heq
      exact hneg result rfl
    · exact wlp_pure ⟨hmount, hinode, hdentry, by simp⟩
  · refine wlp_pure ⟨rfl, rfl, rfl, fun result heq => ?_⟩
    cases heq
    decide

/-- The loop over the segments of an inode that has any. -/
theorem moveSegments_spec (h : Going src block start clink clink v) (htwo : 2 ≤ src.number_data)
    (hcount : 0 < (src.data 1).count) (hone : (v.inode clink).number_data = 1) :
    wlp (moveSegments start clink) v fun r v' => r.1 ≤ 0 ∧ 2 ≤ (v'.inode clink).number_data ∧
      ∃ c, Going src block start clink c v' := by
  unfold moveSegments
  refine wlp_loop (fun (x : Nat × pfs_cache_t × pfs_cache_t) v' =>
    Going src block start clink x.2.2 v' ∧ ((x.1 = 1 ∧ x.2.1 = start ∧
      (v'.inode clink).number_data = 1) ∨ 2 ≤ (v'.inode clink).number_data)) ?_
      ⟨h, .inl ⟨rfl, rfl, hone⟩⟩
  rintro ⟨i, clink2, clink3⟩ v ⟨h, hstage⟩
  refine wlp_inodeOf_bind.mpr ?_
  simp only at h hstage ⊢
  rw [h.startInode]
  split
  · unfold segmentPass
    split
    · rename_i hi hfix
      have htwo' : 2 ≤ (v.inode clink).number_data := by
        rcases hstage with ⟨rfl, -⟩ | htwo'
        · exact absurd hfix (by decide)
        · exact htwo'
      refine wlp_bind ((pfsBlockGetNextSegment_spec _ _).mono ?_)
      rintro (result | next) v₁ ⟨hmount, hinode, -, hneg⟩
      · refine wlp_pure ⟨(hneg result rfl).le, ?_, clink3, h.of_eq hmount hinode⟩
        rw [hinode]
        exact htwo'
      · refine wlp_pure ⟨h.of_eq hmount hinode, .inr ?_⟩
        rw [hinode]
        exact htwo'
    · refine wlp_inodeOf_bind.mpr (wlp_bind ((moveSegment_spec h ?_).mono ?_))
      · intro h1
        rcases hstage with ⟨rfl, rfl, -⟩ | htwo'
        · rw [h.startInode]
          exact ⟨hcount, le_rfl⟩
        · omega
      · rintro ⟨result, last⟩ v₁ ⟨hle, htwo', hgoing, hlast⟩
        simp only
        split
        · cases last with
          | some c => exact wlp_pure ⟨hlast c rfl, .inr htwo'⟩
          | none => exact wlp_pure ⟨hle, htwo', hgoing⟩
        · exact wlp_pure ⟨hle, htwo', hgoing⟩
  · rename_i hi
    refine wlp_pure ⟨le_rfl, ?_, clink3, h⟩
    rcases hstage with ⟨rfl, -⟩ | htwo'
    · omega
    · exact htwo'

end HddChecker.Fssk
