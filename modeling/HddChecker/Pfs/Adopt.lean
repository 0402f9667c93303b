import HddChecker.Pfs.Mount

/-!
# New sub-partitions

A filesystem finds sub-partitions attached to its partition that its superblock does not know. Each of them gets a bitmap in which its first zone and the zones of the bitmap are taken, and then both copies of the superblock record the new number. The log is replayed after that, so that what it names is changed once more.
-/

namespace HddChecker.Pfs.Commands

open FaultyDisk Journal
open HddChecker.Fsck (pfsGetScale pfsGetBitmapSizeSectors pfsGetBitmapSizeBlocks PFS_SUPER_MAGIC PFS_FORMAT_VERSION
  PFS_SUPER_BACKUP_SECTOR)

/-- Bit `p` of the bitmap of a sub-partition. -/
def bitmapBit (c : Nat → Sector) (scale sub p : Nat) : Bool :=
  (c (place sub (2 ^ scale + p / 4096)) ⟨p % 4096 / 32, by omega⟩).testBit (p % 32)

/-- In the sectors of its bitmap, a sub-partition has exactly the bits of its first zone and of its bitmap zones set. -/
def FreshBitmap (B : block_device_t) (scale sub : Nat) (c : Nat → Sector) : Prop :=
  ∀ p < 4096 * pfsGetBitmapSizeSectors scale (B.getSize sub),
    bitmapBit c scale sub p = decide (p < 1 + pfsGetBitmapSizeBlocks scale (B.getSize sub))

/-- The sectors of the zones that hold the bitmap of a sub-partition. -/
def InBitmapZones (B : block_device_t) (scale sub a : Nat) : Prop :=
  ∃ sector, a = place sub sector ∧ 2 ^ scale ≤ sector ∧
    sector < (1 + pfsGetBitmapSizeBlocks scale (B.getSize sub)) * 2 ^ scale

/-- The sub-partitions that the superblock does not know. -/
def New (B : block_device_t) (superblock : Sector) (i : Nat) : Prop := superblock 5 < i ∧ i ≤ B.getSubNumber

/-- What the update does to the content of the disk. -/
structure Adopted (B : block_device_t) (superblock : Sector) (c c' : Nat → Sector) : Prop where
  bitmaps : ∀ i, New B superblock i → FreshBitmap B (pfsGetScale (superblock 4) 512) i c'
  super : c' (place 0 PFS_SUPER_SECTOR) = Function.update superblock 5 B.getSubNumber
  backup : c' (place 0 PFS_SUPER_BACKUP_SECTOR) = Function.update superblock 5 B.getSubNumber
  frame : ∀ a, (∀ i, New B superblock i → ¬ InBitmapZones B (pfsGetScale (superblock 4) 512) i a) →
    a ≠ place 0 PFS_SUPER_SECTOR → a ≠ place 0 PFS_SUPER_BACKUP_SECTOR → c' a = c a

def logOf (superblock : Sector) : Journal.pfs_mount_t := ⟨1, superblock 6, pfsGetScale (superblock 4) 512⟩

/-- What the log of a disk makes a mount write to: the header of the log, and what its entries name. -/
def Logged (B : block_device_t) (m : Journal.pfs_mount_t) (c : Nat → Sector) (a : Nat) : Prop :=
  a ∈ blockAt m.logStart ∨
    let j := pfs_journal_t.ofBlock (c (place 0 m.logStart), c (place 0 (m.logStart + 1)))
    Valid (c (place 0 m.logStart), c (place 0 (m.logStart + 1))) ∧ ∃ k < j.num,
      a = place (logAt j B.behind k).sub (logAt j B.behind k).sector ∨
        a = place (logAt j B.behind k).sub ((logAt j B.behind k).sector + 1)

/-- A command failed between two states of a disk. -/
def Failed (d d' : FaultyDisk Sector) : Prop := ∃ n, d.issued ≤ n ∧ n < d'.issued ∧ d.fails n = true

variable {B : block_device_t} {s s₁ : Volume} {superblock : Sector} {flags scale sub i n k : Nat}
  {d d' d'' : FaultyDisk Sector} {A A' : Nat → Prop} {c c' : Nat → Sector} {m : Journal.pfs_mount_t}

/-! ### Sizes -/

/-- The bitmap of a sub-partition of `2 ^ k` sectors with zones of `2 ^ scale`: it has a bit for every zone, its sectors lie in its zones, and the zones that are taken have their bits in its first sector. -/
structure Sized (scale size : Nat) : Prop where
  covers : size / 2 ^ scale ≤ 4096 * pfsGetBitmapSizeSectors scale size
  within : pfsGetBitmapSizeSectors scale size ≤ pfsGetBitmapSizeBlocks scale size * 2 ^ scale
  reserved : 1 + pfsGetBitmapSizeBlocks scale size ≤ 4096
  fits : 1 + pfsGetBitmapSizeBlocks scale size ≤ size / 2 ^ scale
  bytes : size / 2 ^ scale % 8 = 0
  few : size / 2 ^ scale ≤ 2 ^ 24
  positive : 0 < pfsGetBitmapSizeSectors scale size

private theorem sized_of_two_pow (hlow : 2 ≤ scale) (hhigh : scale ≤ 8) (hk : 18 ≤ k) (hk' : k ≤ 26) : Sized scale (2 ^ k) := by
  have hall : ∀ scale ∈ List.range' 2 7, ∀ k ∈ List.range' 18 9,
      2 ^ k / 2 ^ scale ≤ 4096 * pfsGetBitmapSizeSectors scale (2 ^ k) ∧
      pfsGetBitmapSizeSectors scale (2 ^ k) ≤ pfsGetBitmapSizeBlocks scale (2 ^ k) * 2 ^ scale ∧
      1 + pfsGetBitmapSizeBlocks scale (2 ^ k) ≤ 4096 ∧
      1 + pfsGetBitmapSizeBlocks scale (2 ^ k) ≤ 2 ^ k / 2 ^ scale ∧ 2 ^ k / 2 ^ scale % 8 = 0 ∧
      2 ^ k / 2 ^ scale ≤ 2 ^ 24 ∧ 0 < pfsGetBitmapSizeSectors scale (2 ^ k) := by decide +kernel
  obtain ⟨hcovers, hwithin, hreserved, hfits, hbytes, hfew, hpositive⟩ :=
    hall scale (List.mem_range'_1.mpr ⟨hlow, by omega⟩) k (List.mem_range'_1.mpr ⟨hk, by omega⟩)
  exact ⟨hcovers, hwithin, hreserved, hfits, hbytes, hfew, hpositive⟩

/-- An accepted zone size is `2 ^ scale` sectors, and twice as many blocks less one. -/
theorem scale_of_checked {zone_size : Nat} (h : pfsCheckZoneSize zone_size = true) :
    ∃ scale, 2 ≤ scale ∧ scale ≤ 8 ∧ zone_size = 512 * 2 ^ scale := by
  unfold pfsCheckZoneSize at h
  rw [Bool.not_eq_true', Bool.or_eq_false_iff, Bool.or_eq_false_iff, decide_eq_false_iff_not, decide_eq_false_iff_not,
    bne_eq_false_iff_eq] at h
  obtain ⟨⟨hpow, hlow⟩, hhigh⟩ := h
  obtain ⟨e, rfl⟩ := (Nat.and_sub_one_eq_zero_iff_isPowerOfTwo (by omega)).mp hpow
  have hle : 11 ≤ e := by
    by_contra hlt
    have := Nat.pow_le_pow_right (show 0 < 2 by decide) (show e ≤ 10 by omega)
    omega
  have hge : e ≤ 17 := by
    by_contra hlt
    have := Nat.pow_le_pow_right (show 0 < 2 by decide) (show 18 ≤ e by omega)
    omega
  refine ⟨e - 9, by omega, by omega, ?_⟩
  rw [show 512 = 2 ^ 9 from rfl, ← pow_add]
  congr 1
  omega

theorem pfsGetScale_sectors (scale : Nat) : pfsGetScale (512 * 2 ^ scale) 512 = scale := by
  unfold pfsGetScale
  rw [Nat.mul_div_cancel_left _ (by decide), Nat.log2_two_pow]

theorem pfsGetScale_blocks (scale : Nat) (h : 1 ≤ scale) : pfsGetScale (512 * 2 ^ scale) pfsMetaSize = scale - 1 := by
  obtain ⟨n, rfl⟩ : ∃ n, scale = n + 1 := ⟨scale - 1, by omega⟩
  have hsize : 512 * 2 ^ (n + 1) = pfsMetaSize * 2 ^ n := by
    rw [pow_succ, show pfsMetaSize = 1024 from rfl]
    omega
  unfold pfsGetScale
  rw [hsize, Nat.mul_div_cancel_left _ (by decide), Nat.log2_two_pow]
  rfl

/-! ### Bits -/

private theorem reserveBit_spec (n : Nat) :
    ((List.range n).foldl reserveBit (0, fun _ => 0)).1 = (n - 1) / 32 ∧
    ∀ w, ∀ t < 32, (((List.range n).foldl reserveBit (0, fun _ => 0)).2 w).testBit t = decide (32 * w + t < n) := by
  induction n with
  | zero =>
    refine ⟨rfl, fun w t _ => ?_⟩
    rw [decide_eq_false (Nat.not_lt_zero _)]
    exact Nat.zero_testBit t
  | succ n ih =>
    obtain ⟨hword, hbits⟩ := ih
    rw [List.range_succ, List.foldl_append, List.foldl_cons, List.foldl_nil]
    generalize (List.range n).foldl reserveBit (0, fun _ => 0) = x at hword hbits
    have hb : (if n ≠ 0 ∧ n % 32 = 0 then x.1 + 1 else x.1) = n / 32 := by
      rw [hword]
      split_ifs <;> omega
    unfold reserveBit
    simp only [hb]
    refine ⟨by rw [Nat.add_sub_cancel], fun w t ht => ?_⟩
    by_cases hw : w = n / 32
    · subst hw
      rw [Function.update_self, Nat.testBit_or, hbits _ t ht, Nat.testBit_two_pow, ← Bool.decide_or]
      congr 1
      rw [eq_iff_iff]
      omega
    · rw [Function.update_of_ne hw, hbits w t ht]
      congr 1
      rw [eq_iff_iff]
      omega

theorem reserve_testBit (reserved : Nat) (w : Fin 128) {t : Nat} (ht : t < 32) :
    (reserve reserved 0 w).testBit t = decide (32 * w.val + t < reserved) := (reserveBit_spec reserved).2 w.val t ht

/-! ### Commands -/

/-- Between two states of a disk commands were made, and only the addresses in `A` changed. -/
structure Worked (A : Nat → Prop) (d d' : FaultyDisk Sector) : Prop where
  fails : d'.fails = d.fails
  issued : d.issued ≤ d'.issued
  frame : ∀ a, ¬ A a → d'.content a = d.content a

theorem Worked.refl (d : FaultyDisk Sector) : Worked A d d := ⟨rfl, le_refl _, fun _ _ => rfl⟩

theorem Worked.trans (h : Worked A d d') (h' : Worked A d' d'') : Worked A d d'' :=
  ⟨h'.fails.trans h.fails, h.issued.trans h'.issued, fun a ha => (h'.frame a ha).trans (h.frame a ha)⟩

theorem Worked.mono (h : Worked A d d') (hA : ∀ a, A a → A' a) : Worked A' d d' :=
  ⟨h.fails, h.issued, fun a ha => h.frame a fun h => ha (hA a h)⟩

theorem Failed.before (h : Worked A d d') (h' : Failed d' d'') : Failed d d'' := by
  obtain ⟨n, hfirst, hlast, hfails⟩ := h'
  exact ⟨n, h.issued.trans hfirst, hlast, h.fails ▸ hfails⟩

theorem Failed.after (h : Failed d d') (h' : Worked A d' d'') : Failed d d'' := by
  obtain ⟨n, hfirst, hlast, hfails⟩ := h
  exact ⟨n, hfirst, lt_of_lt_of_le hlast h'.issued, hfails⟩

theorem worked_read (addresses : List Nat) (d : FaultyDisk Sector) : Worked A d (d.read addresses).2 :=
  ⟨rfl, Nat.le_succ _, fun _ _ => rfl⟩

theorem worked_flush (d : FaultyDisk Sector) : Worked A d d.flush.2 := ⟨rfl, Nat.le_succ _, fun _ _ => rfl⟩

theorem worked_write (writes : List (Nat × Sector)) (d : FaultyDisk Sector) :
    Worked (fun a => ∃ x, (a, x) ∈ writes) d (d.write writes).2 := by
  unfold FaultyDisk.write
  split
  · exact ⟨rfl, Nat.le_succ _, fun _ _ => rfl⟩
  · refine ⟨rfl, Nat.le_succ _, fun a ha => ?_⟩
    apply applyWrites_of_not_mem
    rintro ⟨b, x⟩ hw rfl
    exact ha ⟨x, hw⟩

theorem write_cases (a : Nat) (x : Sector) (d : FaultyDisk Sector) :
    (∃ d', d.write [(a, x)] = (true, d') ∧ Worked (· = a) d d' ∧ d'.content a = x) ∨
      ∃ d', d.write [(a, x)] = (false, d') ∧ Worked A d d' ∧ Failed d d' := by
  unfold FaultyDisk.write
  cases hfails : d.fails d.issued with
  | true => exact .inr ⟨_, rfl, ⟨rfl, Nat.le_succ _, fun _ _ => rfl⟩, d.issued, le_refl _, Nat.lt_succ_self _, hfails⟩
  | false =>
    refine .inl ⟨_, rfl, ⟨rfl, Nat.le_succ _, fun b hb => Function.update_of_ne hb _ _⟩, ?_⟩
    exact Function.update_self ..

/-! ### The bitmap of a new sub-partition -/

theorem place_eq_iff {sub' sector sector' : Nat} :
    place sub sector = place sub' sector' ↔ sub = sub' ∧ sector = sector' := Nat.pair_eq_pair

/-- The sectors of a bitmap are written one after the other, up to the first command that fails. -/
theorem writeBitmap_spec (sub fragment count sector : Nat) (bitmap : Sector) (d : FaultyDisk Sector) :
    Worked (fun a => ∃ k < count, a = place sub (sector + k)) d (writeBitmap sub fragment count sector bitmap d).2 ∧
    ((writeBitmap sub fragment count sector bitmap d).1 = 0 ∧
        (∀ k < count, (writeBitmap sub fragment count sector bitmap d).2.content (place sub (sector + k)) =
          if k = 0 then bitmap else fun _ => fragment) ∨
      (writeBitmap sub fragment count sector bitmap d).1 < 0 ∧
        Failed d (writeBitmap sub fragment count sector bitmap d).2) := by
  induction count generalizing sector bitmap d with
  | zero => exact ⟨Worked.refl d, .inl ⟨rfl, fun k hk => absurd hk (Nat.not_lt_zero k)⟩⟩
  | succ count ih =>
    rw [writeBitmap]
    rcases write_cases (A := fun _ => False) (place sub sector) bitmap d with
      ⟨d', hwrite, hworked, hcontent⟩ | ⟨d', hwrite, hworked, hfailed⟩
    · rw [hwrite]
      dsimp only
      obtain ⟨hrest, hresult⟩ := ih (sector + 1) (fun _ => fragment) d'
      have hfirst : Worked (fun a => ∃ k < count + 1, a = place sub (sector + k)) d d' :=
        hworked.mono fun a ha => ⟨0, Nat.succ_pos _, ha⟩
      have hlater : ∀ a, (∃ k < count, a = place sub (sector + 1 + k)) → ∃ k < count + 1, a = place sub (sector + k) := by
        rintro a ⟨k, hk, ha⟩
        exact ⟨k + 1, by omega, by rw [ha]; congr 1; omega⟩
      refine ⟨hfirst.trans (hrest.mono hlater), ?_⟩
      rcases hresult with ⟨hzero, hwritten⟩ | ⟨hneg, hfailed⟩
      · refine .inl ⟨hzero, fun k hk => ?_⟩
        cases k with
        | zero =>
          refine (hrest.frame _ ?_).trans hcontent
          rintro ⟨k, -, heq⟩
          have := (place_eq_iff.mp heq).2
          omega
        | succ k =>
          have hplace : place sub (sector + (k + 1)) = place sub (sector + 1 + k) := by
            congr 1
            omega
          rw [if_neg (Nat.succ_ne_zero k), hplace, hwritten k (by omega), ite_self]
      · exact .inr ⟨hneg, hfailed.before hworked⟩
    · rw [hwrite]
      exact ⟨hworked.mono fun _ h => h.elim, .inr ⟨EIO_neg, hfailed⟩⟩

theorem pfsCacheAlloc_cons {j : Nat} {free : List Nat} (h : s.free = j :: free) :
    pfsCacheAlloc s = (some j, { s with nused := Function.update s.nused j 1, free := free }) := by
  unfold pfsCacheAlloc
  rw [h]

private theorem pfsFormatSub_spec (hfree : s.free ≠ []) (hsized : Sized scale (B.getSize sub)) :
    Worked (InBitmapZones B scale sub) s.disk (pfsFormatSub B sub 1 scale 0 s).2.disk ∧
    ((pfsFormatSub B sub 1 scale 0 s).1 = 0 ∧
        FreshBitmap B scale sub (pfsFormatSub B sub 1 scale 0 s).2.disk.content ∨
      (pfsFormatSub B sub 1 scale 0 s).1 < 0 ∧ Failed s.disk (pfsFormatSub B sub 1 scale 0 s).2.disk) := by
  obtain ⟨cache, free, hcons⟩ := List.exists_cons_of_ne_nil hfree
  have halloc := pfsCacheAlloc_cons hcons
  have hdisk : ∀ d, (pfsCacheFree cache false
      { s with nused := Function.update s.nused cache 1, free := free, disk := d }).disk = d := by
    intro d
    unfold pfsCacheFree
    dsimp only
    split_ifs <;> rfl
  obtain ⟨hworked, hresult⟩ := writeBitmap_spec sub 0 (pfsGetBitmapSizeSectors scale (B.getSize sub)) (2 ^ scale)
    (reserve (1 + pfsGetBitmapSizeBlocks scale (B.getSize sub)) 0) s.disk
  unfold pfsFormatSub
  simp only [show ¬ 2 ≤ 1 by decide, if_false, Nat.add_zero, halloc, hdisk]
  refine ⟨hworked.mono ?_, hresult.imp_left fun ⟨hzero, hwritten⟩ => ⟨hzero, fun p hp => ?_⟩⟩
  · rintro a ⟨k, hk, rfl⟩
    refine ⟨_, rfl, Nat.le_add_right _ _, ?_⟩
    have hwithin := hsized.within
    rw [Nat.add_mul, Nat.one_mul]
    omega
  · have hk : p / 4096 < pfsGetBitmapSizeSectors scale (B.getSize sub) := Nat.div_lt_of_lt_mul hp
    have hreserved := hsized.reserved
    unfold bitmapBit
    rw [hwritten _ hk]
    split_ifs with hfirst
    · rw [reserve_testBit _ _ (Nat.mod_lt _ (by decide))]
      congr 1
      rw [eq_iff_iff]
      dsimp only
      omega
    · rw [Nat.zero_testBit, eq_comm, decide_eq_false_iff_not]
      omega

/-! ### The update -/

theorem not_inBitmapZones (hsub : sub ≠ 0) (sector : Nat) : ¬ InBitmapZones B scale sub (place 0 sector) := by
  rintro ⟨sector', heq, -⟩
  exact hsub (place_eq_iff.mp heq).1.symm

theorem FreshBitmap.frame (h : FreshBitmap B scale sub c) (hsized : Sized scale (B.getSize sub))
    (hframe : ∀ a, InBitmapZones B scale sub a → c' a = c a) : FreshBitmap B scale sub c' := by
  intro p hp
  have hwithin := hsized.within
  rw [← h p hp]
  unfold bitmapBit
  rw [hframe _ ⟨_, rfl, Nat.le_add_right _ _, ?_⟩]
  rw [Nat.add_mul, Nat.one_mul]
  omega

/-- Of the sub-partitions from number `i` on, all have their bitmaps, or a command failed. -/
private theorem formatSubs_spec (hidle : Idle s) (hfree : s.free ≠ []) (hsized : ∀ j, i ≤ j → j < i + n → Sized scale (B.getSize j)) :
    Worked (fun a => ∃ j, i ≤ j ∧ j < i + n ∧ InBitmapZones B scale j a) s.disk (formatSubs B scale n i s).2.disk ∧
    ((formatSubs B scale n i s).1 = 0 ∧
        (∀ j, i ≤ j → j < i + n → FreshBitmap B scale j (formatSubs B scale n i s).2.disk.content) ∨
      (formatSubs B scale n i s).1 < 0 ∧ Failed s.disk (formatSubs B scale n i s).2.disk) := by
  induction n generalizing i s with
  | zero => exact ⟨Worked.refl _, .inl ⟨rfl, fun j _ _ => by omega⟩⟩
  | succ n ih =>
    obtain ⟨hworked, hresult⟩ := pfsFormatSub_spec hfree (hsized i (le_refl _) (by omega))
    have hkept := kept_formatSub (B := B) hidle i 1 scale 0
    have hone : Worked (fun a => ∃ j, i ≤ j ∧ j < i + (n + 1) ∧ InBitmapZones B scale j a) s.disk
        (pfsFormatSub B i 1 scale 0 s).2.disk := hworked.mono fun a ha => ⟨i, le_refl _, by omega, ha⟩
    rw [formatSubs]
    simp only
    rcases hresult with ⟨hzero, hfresh⟩ | ⟨hneg, hfailed⟩
    · rw [if_neg (by omega)]
      have hfree' : (pfsFormatSub B i 1 scale 0 s).2.free ≠ [] := fun hnil =>
        hfree (List.nil_perm.mp (hnil ▸ hkept.free))
      obtain ⟨hrest, hresult⟩ := ih (hidle.kept hkept) hfree' (i := i + 1) fun j hj hj' => hsized j (by omega) (by omega)
      have hothers : ∀ a, (∃ j, i + 1 ≤ j ∧ j < i + 1 + n ∧ InBitmapZones B scale j a) →
          ∃ j, i ≤ j ∧ j < i + (n + 1) ∧ InBitmapZones B scale j a := by
        rintro a ⟨j, hj, hj', ha⟩
        exact ⟨j, by omega, by omega, ha⟩
      refine ⟨hone.trans (hrest.mono hothers), ?_⟩
      rcases hresult with ⟨hzero', hrestFresh⟩ | ⟨hneg, hfailed⟩
      · refine .inl ⟨hzero', fun j hj hj' => ?_⟩
        rcases Nat.eq_or_lt_of_le hj with rfl | hlt
        · apply hfresh.frame (hsized i (le_refl _) (by omega))
          rintro a ⟨sector, rfl, -⟩
          apply hrest.frame
          rintro ⟨j, hj, -, sector', heq, -⟩
          have := (place_eq_iff.mp heq).1
          omega
        · exact hrestFresh j hlt (by omega)
      · exact .inr ⟨hneg, hfailed.before hworked⟩
    · rw [if_pos hneg]
      exact ⟨hone, .inr ⟨hneg, hfailed⟩⟩

/-- Both copies of the superblock are written, or a command failed; the first copy is as it was, or the new one. -/
theorem writeSuper_spec (superblock : Sector) (d : FaultyDisk Sector) :
    Worked (fun a => a = place 0 PFS_SUPER_SECTOR ∨ a = place 0 PFS_SUPER_BACKUP_SECTOR) d (writeSuper superblock d).2 ∧
    ((writeSuper superblock d).1 = 0 ∧
        (writeSuper superblock d).2.content (place 0 PFS_SUPER_SECTOR) = superblock ∧
        (writeSuper superblock d).2.content (place 0 PFS_SUPER_BACKUP_SECTOR) = superblock ∨
      (writeSuper superblock d).1 < 0 ∧ Failed d (writeSuper superblock d).2) := by
  have hne : place 0 PFS_SUPER_SECTOR ≠ place 0 PFS_SUPER_BACKUP_SECTOR := fun heq =>
    absurd (place_eq_iff.mp heq).2 (by decide)
  unfold writeSuper
  rcases write_cases (A := fun _ => False) (place 0 PFS_SUPER_SECTOR) superblock d with
    ⟨d', hwrite, hworked, hcontent⟩ | ⟨d', hwrite, hworked, hfailed⟩
  · rw [hwrite]
    rcases write_cases (A := fun _ => False) (place 0 PFS_SUPER_BACKUP_SECTOR) superblock d' with
      ⟨d'', hwrite', hworked', hcontent'⟩ | ⟨d'', hwrite', hworked', hfailed'⟩
    · simp only [hwrite', if_true]
      refine ⟨(hworked.mono fun _ => .inl).trans ((hworked'.mono fun _ => .inr).trans (worked_flush d'')), .inl ⟨trivial, ?_, hcontent'⟩⟩
      exact (hworked'.frame _ hne).trans hcontent
    · simp only [hwrite', Bool.false_eq_true, if_false]
      refine ⟨(hworked.mono fun _ => .inl).trans ((hworked'.mono fun _ h => h.elim).trans (worked_flush d'')), .inr ⟨EIO_neg, ?_⟩⟩
      exact (hfailed'.after (worked_flush (A := fun _ => False) d'')).before hworked
  · rw [hwrite]
    exact ⟨(hworked.mono fun _ h => h.elim).trans (worked_flush d'),
      .inr ⟨EIO_neg, hfailed.after (worked_flush (A := fun _ => False) d')⟩⟩

theorem new_iff : superblock 5 + 1 ≤ i ∧ i < superblock 5 + 1 + (B.getSubNumber - superblock 5) ↔ New B superblock i := by
  unfold New
  omega

/-- An update adopts the new sub-partitions, or a command fails; then the superblock is as it was, unless all bitmaps have been written. -/
private theorem pfsUpdateSuperBlock_spec (hidle : Idle s) (hfree : s.free ≠ [])
    (hsized : ∀ i, New B superblock i → Sized (pfsGetScale (superblock 4) 512) (B.getSize i)) :
    Worked (fun _ => True) s.disk (pfsUpdateSuperBlock B superblock B.getSubNumber s).2.2.disk ∧
    ((pfsUpdateSuperBlock B superblock B.getSubNumber s).1 = 0 ∧
        Adopted B superblock s.disk.content (pfsUpdateSuperBlock B superblock B.getSubNumber s).2.2.disk.content ∨
      (pfsUpdateSuperBlock B superblock B.getSubNumber s).1 < 0 ∧
        Failed s.disk (pfsUpdateSuperBlock B superblock B.getSubNumber s).2.2.disk ∧
        ((pfsUpdateSuperBlock B superblock B.getSubNumber s).2.2.disk.content (place 0 PFS_SUPER_SECTOR) =
            s.disk.content (place 0 PFS_SUPER_SECTOR) ∨
          ∀ i, New B superblock i → FreshBitmap B (pfsGetScale (superblock 4) 512) i
            (pfsUpdateSuperBlock B superblock B.getSubNumber s).2.2.disk.content)) := by
  have hsized' : ∀ j, superblock 5 + 1 ≤ j → j < superblock 5 + 1 + (B.getSubNumber - superblock 5) →
      Sized (pfsGetScale (superblock 4) 512) (B.getSize j) := fun j hj hj' => hsized j (new_iff.mp ⟨hj, hj'⟩)
  obtain ⟨hworked, hresult⟩ := formatSubs_spec hidle hfree hsized'
  have hsuper : ∀ sector, (formatSubs B (pfsGetScale (superblock 4) 512) (B.getSubNumber - superblock 5)
      (superblock 5 + 1) s).2.disk.content (place 0 sector) = s.disk.content (place 0 sector) := by
    intro sector
    apply hworked.frame
    rintro ⟨j, hj, -, hin⟩
    exact not_inBitmapZones (by omega) sector hin
  unfold pfsUpdateSuperBlock
  simp only
  generalize formatSubs B (pfsGetScale (superblock 4) 512) (B.getSubNumber - superblock 5) (superblock 5 + 1) s = r
    at hworked hresult hsuper
  obtain ⟨rv, s₁⟩ := r
  dsimp only at hworked hresult hsuper ⊢
  rcases hresult with ⟨rfl, hfresh⟩ | ⟨hneg, hfailed⟩
  · rw [if_neg (lt_irrefl 0)]
    dsimp only
    obtain ⟨hcopies, hresult⟩ := writeSuper_spec (Function.update superblock 5 B.getSubNumber) s₁.disk
    generalize writeSuper (Function.update superblock 5 B.getSubNumber) s₁.disk = w at hcopies hresult
    obtain ⟨rv, d⟩ := w
    dsimp only at hcopies hresult ⊢
    have hbitmaps : ∀ i, New B superblock i → FreshBitmap B (pfsGetScale (superblock 4) 512) i d.content := by
      intro i hi
      obtain ⟨hlow, hhigh⟩ := new_iff.mpr hi
      apply (hfresh i hlow hhigh).frame (hsized i hi)
      rintro a ⟨sector, rfl, -⟩
      apply hcopies.frame
      rintro (heq | heq)
      · have := (place_eq_iff.mp heq).1
        omega
      · have := (place_eq_iff.mp heq).1
        omega
    refine ⟨(hworked.mono fun _ _ => trivial).trans (hcopies.mono fun _ _ => trivial), ?_⟩
    rcases hresult with ⟨hzero, hfirst, hbackup⟩ | ⟨hneg, hfailed⟩
    · refine .inl ⟨hzero, hbitmaps, hfirst, hbackup, fun a hzones hne hne' => ?_⟩
      rw [hcopies.frame a fun h => h.elim hne hne']
      apply hworked.frame
      rintro ⟨j, hj, hj', hin⟩
      exact hzones j (new_iff.mp ⟨hj, hj'⟩) hin
    · exact .inr ⟨hneg, hfailed.before hworked, .inr hbitmaps⟩
  · rw [if_pos hneg]
    exact ⟨hworked.mono fun _ _ => trivial, .inr ⟨hneg, hfailed, .inl (hsuper _)⟩⟩

/-! ### The log -/

private theorem worked_restoreEntry (entry : pfs_log_t) (i : Nat) (d : FaultyDisk Sector) :
    Worked (fun a => a = place entry.sub entry.sector ∨ a = place entry.sub (entry.sector + 1)) d (restoreEntry m entry i d) := by
  have hlook : Worked (fun _ => False) d (d.look i) := ⟨rfl, le_refl _, fun _ _ => rfl⟩
  have hread := worked_read (A := fun _ => False) (blockAt (dataSector m entry)) (d.look i)
  unfold restoreEntry
  generalize (d.look i).read (blockAt (dataSector m entry)) = r at hread
  obtain ⟨_ | data, d'⟩ := r
  · exact (hlook.trans hread).mono fun _ h => h.elim
  · refine ((hlook.trans hread).mono fun _ h => h.elim).trans ((worked_write _ d').mono ?_)
    rintro a ⟨x, hx⟩
    have ha := (List.of_mem_zip hx).1
    rwa [List.mem_cons, List.mem_singleton] at ha

private theorem worked_restoreLoop (log : Nat → pfs_log_t) (n i : Nat) (d : FaultyDisk Sector) :
    Worked (fun a => ∃ k < i + n, a = place (log k).sub (log k).sector ∨ a = place (log k).sub ((log k).sector + 1)) d
      (restoreLoop m log n i d) := by
  induction n generalizing i d with
  | zero => exact Worked.refl d
  | succ n ih =>
    refine ((worked_restoreEntry (m := m) (log i) i d).mono fun a ha => ⟨i, by omega, ha⟩).trans ?_
    exact (ih (i + 1) _).mono fun a ⟨k, hk, ha⟩ => ⟨k, by omega, ha⟩

theorem worked_pfsJournalReset (d : FaultyDisk Sector) :
    Worked (fun a => a ∈ blockAt m.logStart) d (pfsJournalReset m d).2 := by
  unfold pfsJournalReset
  refine (worked_flush d).trans (Worked.trans ((worked_write _ _).mono ?_) (worked_flush _))
  rintro a ⟨x, hx⟩
  rw [writesAt, writesAt, writesAt, List.mem_cons, List.mem_singleton] at hx
  unfold blockAt
  rcases hx with hx | hx
  · exact List.mem_cons.mpr (.inl (congrArg Prod.fst hx))
  · exact List.mem_cons.mpr (.inr (List.mem_singleton.mpr (congrArg Prod.fst hx)))

private theorem worked_pfsJournalRestore (clean : Except Int Unit) (d : FaultyDisk Sector) :
    Worked (Logged B m d.content) d (pfsJournalRestore clean m B.behind d).2 := by
  have hreset : ∀ d', Worked (Logged B m d.content) d d' → Worked (Logged B m d.content) d (pfsJournalReset m d').2 :=
    fun d' h => h.trans ((worked_pfsJournalReset d').mono fun _ => .inl)
  have hread : Worked (Logged B m d.content) d (d.read (blockAt m.logStart)).2 := worked_read _ d
  unfold pfsJournalRestore
  cases hfails : d.fails d.issued with
  | true =>
    rw [read_of_fails hfails]
    exact hreset _ hread
  | false =>
    have hsome : d.read (blockAt m.logStart) = (some [d.content (place 0 m.logStart), d.content (place 0 (m.logStart + 1))],
        (d.read (blockAt m.logStart)).2) := read_of_works hfails _
    rw [hsome]
    simp only
    split_ifs with hvalid hzero
    · exact hreset _ hread
    · exact hreset _ hread
    · rw [not_or, not_not, not_not] at hvalid
      cases clean with
      | error result => exact hread
      | ok _ =>
        refine hreset _ (hread.trans ((worked_restoreLoop _ _ 0 _).mono ?_))
        rintro a ⟨k, hk, ha⟩
        exact .inr ⟨hvalid, k, by rwa [Nat.zero_add] at hk, ha⟩

/-! ### The count -/

/-- Commands were made; only the flags in the superblock may have changed. -/
structure Flagged (d d' : FaultyDisk Sector) : Prop where
  worked : Worked (· = place 0 PFS_SUPER_SECTOR) d d'
  words : ∀ w ≠ 3, d'.content (place 0 PFS_SUPER_SECTOR) w = d.content (place 0 PFS_SUPER_SECTOR) w

theorem Flagged.refl (d : FaultyDisk Sector) : Flagged d d := ⟨Worked.refl d, fun _ _ => rfl⟩

theorem Flagged.trans (h : Flagged d d') (h' : Flagged d' d'') : Flagged d d'' :=
  ⟨h.worked.trans h'.worked, fun w hw => (h'.words w hw).trans (h.words w hw)⟩

private theorem flagged_pfsFsckStat (stat : Nat) (d : FaultyDisk Sector) : Flagged d (pfsFsckStat stat d) := by
  unfold pfsFsckStat FaultyDisk.read
  cases d.fails d.issued with
  | true => exact ⟨⟨rfl, Nat.le_succ _, fun _ _ => rfl⟩, fun _ _ => rfl⟩
  | false =>
    simp only [Bool.false_eq_true, if_false, List.map_cons, List.map_nil]
    unfold FaultyDisk.write
    dsimp only
    split
    · exact ⟨⟨rfl, by dsimp only [FaultyDisk.flush]; omega, fun _ _ => rfl⟩, fun _ _ => rfl⟩
    · refine ⟨⟨rfl, by dsimp only [FaultyDisk.flush]; omega, fun a ha => Function.update_of_ne ha _ _⟩, fun w hw => ?_⟩
      change Function.update d.content (place 0 PFS_SUPER_SECTOR) _ (place 0 PFS_SUPER_SECTOR) w = _
      rw [Function.update_self]
      exact Function.update_of_ne hw _ _

private theorem pfsCacheAlloc_disk (s : Volume) : (pfsCacheAlloc s).2.disk = s.disk := by
  unfold pfsCacheAlloc
  split <;> rfl

theorem pfsCacheFree_disk (i : Nat) (held : Bool) (s : Volume) : (pfsCacheFree i held s).disk = s.disk := by
  unfold pfsCacheFree
  dsimp only
  split_ifs <;> rfl

private theorem flagged_readBitmap (sub block : Nat) (s : Volume) : Flagged s.disk (readBitmap B sub block s).2.disk := by
  have hdisk := pfsCacheAlloc_disk s
  unfold readBitmap
  generalize pfsCacheAlloc s = r at hdisk
  obtain ⟨_ | i, s₁⟩ := r
  · rw [← hdisk]
    exact Flagged.refl _
  · dsimp only at hdisk ⊢
    rw [← hdisk]
    by_cases herror : s₁.lastError ≠ 0
    · rw [if_pos herror, pfsCacheFree_disk]
      exact Flagged.refl _
    · rw [if_neg herror]
      have hread : Flagged s₁.disk (s₁.disk.read [place sub (u32 (block * 2)), place sub (u32 (block * 2) + 1)]).2 :=
        ⟨worked_read _ _, fun _ _ => rfl⟩
      generalize s₁.disk.read _ = r at hread
      obtain ⟨_ | ⟨_ | ⟨a, _ | ⟨b, _ | ⟨x, rest⟩⟩⟩⟩, d⟩ := r
      case some.cons.cons.nil => exact hread
      all_goals
        dsimp only
        cases B.errorStat with
        | true =>
          rw [if_pos rfl, pfsCacheFree_disk]
          exact hread.trans (flagged_pfsFsckStat _ _)
        | false => exact hread

private theorem flagged_freeInChunks (sub inode_scale : Nat) (info : pfs_bitmapInfo_t) (n chunk zoneFree : Nat) (s : Volume) :
    Flagged s.disk (freeInChunks B sub inode_scale info n chunk zoneFree s).2.disk := by
  induction n generalizing chunk zoneFree s with
  | zero => exact Flagged.refl _
  | succ n ih =>
    rw [freeInChunks]
    split
    · have hread := flagged_readBitmap (B := B) sub (2 ^ inode_scale + chunk + if sub = 0 then 0x2000 / 2 else 0) s
      simp only
      generalize readBitmap B sub (2 ^ inode_scale + chunk + if sub = 0 then 0x2000 / 2 else 0) s = r at hread
      obtain ⟨_ | ⟨i, data⟩, s'⟩ := r
      · exact hread.trans (ih _ _ _)
      · refine hread.trans ?_
        have hrest := ih (chunk + 1) (u32 (zoneFree + freeInBytes data
          (if chunk = info.partitionChunks then info.partitionRemainder / 8 else pfsMetaSize))) (pfsCacheFree i true s')
        rwa [pfsCacheFree_disk] at hrest
    · exact Flagged.refl _

private theorem flagged_countZones (n i : Nat) (m : Mounted) (s : Volume) : Flagged s.disk (countZones B n i m s).2.disk := by
  induction n generalizing i m s with
  | zero => exact Flagged.refl _
  | succ n ih =>
    have hone : Flagged s.disk (pfsBitmapCalcFreeZones B m.sector_scale m.inode_scale i s).2.disk :=
      flagged_freeInChunks _ _ _ _ _ _ _
    exact hone.trans (ih _ _ _)

/-! ### Mounts -/

/-- A mount of a filesystem that does not know all the sub-partitions of its partition: the superblock is accepted, and the new sub-partitions have sizes that are powers of two. Two buffers are free. -/
structure Mountable (B : block_device_t) (superblock : Sector) (flags : Nat) (s : Volume) : Prop where
  idle : Idle s
  free : 2 ≤ s.free.length
  super : s.disk.content (place 0 PFS_SUPER_SECTOR) = superblock
  accepted : accepted superblock flags B.getSubNumber = true
  new : superblock 5 < B.getSubNumber
  sizes : ∀ i, New B superblock i → ∃ k, 18 ≤ k ∧ k ≤ 26 ∧ B.getSize i = 2 ^ k

/-- The mount succeeded. The content `c` is that behind the update; what the log names is written once more, and a flag of the superblock may be set. -/
def Succeeds (B : block_device_t) (superblock : Sector) (d d' : FaultyDisk Sector) : Prop :=
  ∃ c, Adopted B superblock d.content c ∧
    (∀ a, ¬ Logged B (logOf superblock) c a → a ≠ place 0 PFS_SUPER_SECTOR → d'.content a = c a) ∧
    (¬ Logged B (logOf superblock) c (place 0 PFS_SUPER_SECTOR) →
      ∀ w ≠ 3, d'.content (place 0 PFS_SUPER_SECTOR) w = c (place 0 PFS_SUPER_SECTOR) w)

/-- A command failed, and the superblock has the old number of sub-partitions unless all new bitmaps were written. -/
def Fails (B : block_device_t) (superblock : Sector) (d d' : FaultyDisk Sector) : Prop :=
  Failed d d' ∧ (d'.content (place 0 PFS_SUPER_SECTOR) = superblock ∨
    ∀ i, New B superblock i → FreshBitmap B (pfsGetScale (superblock 4) 512) i d'.content)

theorem Mountable.scales (h : Mountable B superblock flags s) : ∃ scale, 2 ≤ scale ∧ scale ≤ 8 ∧
    pfsGetScale (superblock 4) 512 = scale ∧ pfsGetScale (superblock 4) pfsMetaSize = scale - 1 := by
  have haccepted := h.accepted
  unfold Commands.accepted at haccepted
  simp only [Bool.and_eq_true] at haccepted
  obtain ⟨scale, hlow, hhigh, hsize⟩ := scale_of_checked haccepted.1.1.2
  rw [hsize]
  exact ⟨scale, hlow, hhigh, pfsGetScale_sectors scale, pfsGetScale_blocks scale (by omega)⟩

theorem Mountable.sized (h : Mountable B superblock flags s) (hi : New B superblock i) :
    Sized (pfsGetScale (superblock 4) 512) (B.getSize i) := by
  obtain ⟨scale, hlow, hhigh, hsectors, -⟩ := h.scales
  obtain ⟨k, hk, hk', heq⟩ := h.sizes i hi
  rw [hsectors, heq]
  exact sized_of_two_pow hlow hhigh hk hk'

private theorem mountVolume_worked (superblock : Sector) (s : Volume) :
    ∃ d, Worked (Logged B (logOf superblock) s.disk.content) s.disk d ∧ Flagged d (mountVolume B superblock s).2.disk := by
  obtain ⟨d, hd⟩ : ∃ d, d = (pfsJournalRestore (if s.free = [] then .error (- ENOMEM) else .ok ())
    (logOf superblock) B.behind s.disk).2 := ⟨_, rfl⟩
  have hcount := flagged_countZones (B := B) (superblock 5 + 1) 0 (mountOf superblock) { s with disk := d }
  rw [hd] at hcount
  exact ⟨_, worked_pfsJournalRestore _ _, hcount⟩

/-- A mount either adopts the new sub-partitions, or a command failed. -/
private theorem pfsMountSuperBlock_adopts (h : Mountable B superblock flags s) :
    (pfsMountSuperBlock B flags s).1 = 0 ∧ Succeeds B superblock s.disk (pfsMountSuperBlock B flags s).2.2.disk ∨
      (pfsMountSuperBlock B flags s).1 < 0 ∧ Fails B superblock s.disk (pfsMountSuperBlock B flags s).2.2.disk := by
  obtain ⟨clink, free, hfree⟩ : ∃ clink free, s.free = clink :: free :=
    List.exists_cons_of_length_pos (Nat.lt_of_lt_of_le (by decide) h.free)
  have halloc := pfsCacheAlloc_cons hfree
  unfold pfsMountSuperBlock
  rw [halloc]
  dsimp only
  have hread : Worked (fun _ => False) s.disk (s.disk.read [place 0 PFS_SUPER_SECTOR]).2 := worked_read _ _
  cases hfails : s.disk.fails s.disk.issued with
  | true =>
    rw [read_of_fails hfails]
    dsimp only
    rw [pfsCacheFree_disk]
    exact .inr ⟨EIO_neg, ⟨s.disk.issued, le_refl _, Nat.lt_succ_self _, hfails⟩, .inl ((hread.frame _ id).trans h.super)⟩
  | false =>
    have hsome : s.disk.read [place 0 PFS_SUPER_SECTOR] = (some [superblock], (s.disk.read [place 0 PFS_SUPER_SECTOR]).2) := by
      rw [read_of_works hfails, List.map_singleton, h.super]
    rw [hsome]
    simp only [h.accepted, if_true]
    generalize (s.disk.read [place 0 PFS_SUPER_SECTOR]).2 = d at hread
    obtain ⟨s₁, hs₁⟩ : ∃ s₁ : Volume,
      s₁ = { s with disk := d, nused := Function.update s.nused clink 1, free := free } := ⟨_, rfl⟩
    rw [← hs₁, pfsCacheFree_disk]
    have hidle : Idle s₁ := by
      have hkept : Kept { s with nused := Function.update s.nused clink 1, free := free } s₁ := by
        rw [hs₁]
        exact ⟨rfl, .refl _⟩
      exact (h.idle.alloc halloc).kept hkept
    have hfree₁ : s₁.free ≠ [] := by
      have hlength := h.free
      rw [hfree, List.length_cons] at hlength
      rw [hs₁]
      rintro rfl
      exact absurd hlength (by decide)
    have hdisk : s₁.disk = d := by rw [hs₁]
    have hsuper : ∀ a, d.content a = s.disk.content a := fun a => hread.frame a id
    obtain ⟨hworked, hresult⟩ := pfsUpdateSuperBlock_spec hidle hfree₁ fun i hi => h.sized hi
    have hupdated := (pfsUpdateSuperBlock_result (B := B) (s := s₁) superblock B.getSubNumber).2
    unfold mountSuper
    simp only [h.new, if_true]
    generalize pfsUpdateSuperBlock B superblock B.getSubNumber s₁ = u at hworked hresult hupdated
    obtain ⟨rv, superblock', s₂⟩ := u
    dsimp only at hworked hresult hupdated ⊢
    rw [hdisk] at hworked hresult
    rcases hresult with ⟨rfl, hadopted⟩ | ⟨hneg, hfailed, hold⟩
    · rw [if_neg (not_not_intro rfl), hupdated rfl]
      have hlog : logOf (Function.update superblock 5 B.getSubNumber) = logOf superblock := by
        unfold logOf
        rw [Function.update_of_ne (by decide), Function.update_of_ne (by decide)]
      obtain ⟨d', hreplayed, hflagged⟩ := mountVolume_worked (B := B) (Function.update superblock 5 B.getSubNumber) s₂
      rw [hlog] at hreplayed
      refine .inl ⟨rfl, s₂.disk.content, ?_, fun a hlogged hne => ?_, fun hlogged w hw => ?_⟩
      · exact ⟨hadopted.bitmaps, hadopted.super, hadopted.backup,
          fun a hzones hne hne' => (hadopted.frame a hzones hne hne').trans (hsuper a)⟩
      · exact (hflagged.worked.frame a hne).trans (hreplayed.frame a hlogged)
      · exact (hflagged.words w hw).trans (congrFun (hreplayed.frame _ hlogged) w)
    · rw [if_pos (ne_of_lt hneg)]
      refine .inr ⟨hneg, hfailed.before hread, hold.imp_left fun hsame => ?_⟩
      exact hsame.trans ((hsuper _).trans h.super)

/-! ### The free zones of a new sub-partition -/

/-- How many of the first `n` bits are clear. -/
def clearBits (f : Nat → Bool) (n : Nat) : Nat := ((List.range n).map fun p => if f p then 0 else 1).sum

theorem clearBits_succ (f : Nat → Bool) (n : Nat) : clearBits f (n + 1) = clearBits f n + if f n then 0 else 1 := by
  unfold clearBits
  rw [List.range_succ, List.map_append, List.sum_append, List.map_singleton, List.sum_singleton]

theorem clearBits_add (f : Nat → Bool) (n k : Nat) : clearBits f (n + k) = clearBits f n + clearBits (fun q => f (n + q)) k := by
  induction k with
  | zero => rfl
  | succ k ih => rw [← Nat.add_assoc, clearBits_succ, ih, clearBits_succ, Nat.add_assoc]

theorem clearBits_congr {f g : Nat → Bool} {n : Nat} (h : ∀ p < n, f p = g p) : clearBits f n = clearBits g n := by
  induction n with
  | zero => rfl
  | succ n ih => rw [clearBits_succ, clearBits_succ, ih fun p hp => h p (by omega), h n (by omega)]

theorem clearBits_le (f : Nat → Bool) (n : Nat) : clearBits f n ≤ n := by
  induction n with
  | zero => exact le_refl _
  | succ n ih =>
    rw [clearBits_succ]
    split <;> omega

theorem clearBits_below (k n : Nat) : clearBits (fun p => decide (p < k)) n = n - k := by
  induction n with
  | zero => exact (Nat.zero_sub k).symm
  | succ n ih =>
    rw [clearBits_succ, ih]
    simp only [decide_eq_true_eq]
    split <;> omega

private theorem pfsFreeZoneBitmap_byte : ∀ v < 256, pfsFreeZoneBitmap (v % 16) + pfsFreeZoneBitmap (v / 16) = clearBits v.testBit 8 := by
  decide +kernel

def blockBit (b : Block) (q : Nat) : Bool := (word b (q / 32)).testBit (q % 32)

private theorem byte_testBit (b : Block) (i : Nat) {t : Nat} (ht : t < 8) : (byte b i).testBit t = blockBit b (8 * i + t) := by
  have hword : (8 * i + t) / 32 = i / 4 := by omega
  have hbit : (8 * i + t) % 32 = 8 * (i % 4) + t := by omega
  unfold byte blockBit
  rw [hword, hbit, show 256 = 2 ^ 8 from rfl, ← pow_mul, Nat.testBit_mod_two_pow, decide_eq_true ht, Bool.true_and,
    Nat.testBit_div_two_pow, Nat.add_comm]

theorem freeInBytes_eq (b : Block) (n : Nat) : freeInBytes b n = clearBits (blockBit b) (8 * n) := by
  induction n with
  | zero => rfl
  | succ n ih =>
    have hbyte : byte b n < 256 := Nat.mod_lt _ (by decide)
    have hlast : freeInBytes b (n + 1) = freeInBytes b n + clearBits (byte b n).testBit 8 := by
      unfold freeInBytes
      rw [List.range_succ, List.map_append, List.sum_append, List.map_singleton, List.sum_singleton,
        pfsFreeZoneBitmap_byte _ hbyte]
    rw [hlast, ih, Nat.mul_succ, clearBits_add]
    congr 1
    exact clearBits_congr fun t ht => byte_testBit b n ht

/-- The blocks of a bitmap can be read: no command fails, the mount has no error, and a buffer is free. -/
structure Readable (s : Volume) : Prop where
  idle : Idle s
  free : s.free ≠ []
  works : ∀ n, s.disk.fails n = false
  lastError : s.lastError = 0

/-- A block that is read, and what is behind it once it is given back. -/
theorem readBitmap_readable (h : Readable s) (sub block : Nat) : ∃ j s',
    readBitmap B sub block s = (some (j, s.disk.content (place sub (u32 (block * 2))),
      s.disk.content (place sub (u32 (block * 2) + 1))), s') ∧
    Readable (pfsCacheFree j true s') ∧ (pfsCacheFree j true s').disk.content = s.disk.content := by
  obtain ⟨j, free, hfree⟩ := List.exists_cons_of_ne_nil h.free
  have halloc := pfsCacheAlloc_cons hfree
  obtain ⟨s', hs'⟩ : ∃ s' : Volume, s' = { s with
    nused := Function.update s.nused j 1
    free := free
    disk := (s.disk.read [place sub (u32 (block * 2)), place sub (u32 (block * 2) + 1)]).2 } := ⟨_, rfl⟩
  have hread : readBitmap B sub block s = (some (j, s.disk.content (place sub (u32 (block * 2))),
      s.disk.content (place sub (u32 (block * 2) + 1))), s') := by
    unfold readBitmap
    rw [halloc, hs']
    simp only [h.lastError, ne_eq, not_true_eq_false, if_false, FaultyDisk.read, h.works, Bool.false_eq_true,
      List.map_cons, List.map_nil]
  have hkept := kept_readBitmap (B := B) h.idle sub block
  rw [hread] at hkept
  have hdisk := pfsCacheFree_disk j true s'
  have herror : (pfsCacheFree j true s').lastError = s'.lastError := by
    unfold pfsCacheFree
    dsimp only
    split_ifs <;> rfl
  refine ⟨j, s', hread, ⟨h.idle.kept hkept, fun hnil => h.free (List.nil_perm.mp (hnil ▸ hkept.free)), ?_, ?_⟩, ?_⟩
  · intro n
    rw [hdisk, hs']
    exact h.works n
  · rw [herror, hs']
    exact h.lastError
  · rw [hdisk, hs']
    rfl

private theorem bitmapWord_lt (p : Nat) : p % 4096 / 32 < 128 := by omega

/-- The bits of a chunk are those of the bitmap at its place. -/
theorem blockBit_chunk (c : Nat → Sector) (sub start chunk : Nat) {q : Nat} (hq : q < 8192) :
    blockBit (c (place sub (start + 2 * chunk)), c (place sub (start + 2 * chunk + 1))) q =
      (c (place sub (start + (8192 * chunk + q) / 4096)) ⟨(8192 * chunk + q) % 4096 / 32, bitmapWord_lt _⟩).testBit
        ((8192 * chunk + q) % 32) := by
  unfold blockBit word
  have hbit : (8192 * chunk + q) % 32 = q % 32 := by omega
  rw [hbit]
  congr 1
  by_cases hfirst : q / 32 < 128
  · have hsector : (8192 * chunk + q) / 4096 = 2 * chunk := by omega
    have hword : (8192 * chunk + q) % 4096 / 32 = q / 32 := by omega
    simp only [hsector, hword, dif_pos hfirst]
  · have hsector : (8192 * chunk + q) / 4096 = 2 * chunk + 1 := by omega
    have hword : (8192 * chunk + q) % 4096 / 32 = q / 32 - 128 := by omega
    simp only [hsector, hword, dif_neg hfirst, dif_pos (show q / 32 - 128 < 128 by omega), Nat.add_assoc]

/-- The chunks from `chunk` on add the clear bits of the zones that are left. -/
private theorem freeInChunks_eq (h : Readable s) (hsub : sub ≠ 0) (hlow : 1 ≤ scale) (hhigh : scale ≤ 8) {Z : Nat}
    (hbytes : Z % 8 = 0) (hfew : Z ≤ 2 ^ 24) (n : Nat) {chunk : Nat} (hchunks : chunk + n = Z / 8192 + 1) :
    (freeInChunks B sub (scale - 1) (bitmapInfo Z) n chunk
      (clearBits (bitmapBit s.disk.content scale sub) (min (8192 * chunk) Z)) s).1 =
      clearBits (bitmapBit s.disk.content scale sub) Z := by
  induction n generalizing chunk s with
  | zero =>
    rw [freeInChunks, Nat.min_eq_right (by omega)]
  | succ n ih =>
    rw [freeInChunks]
    by_cases hchunk : (bitmapInfo Z).hasChunk chunk = true
    · rw [if_pos hchunk]
      have hbefore : 8192 * chunk < Z := by
        unfold pfs_bitmapInfo_t.hasChunk bitmapInfo at hchunk
        simp only [pfsBitsPerBitmapChunk, Bool.or_eq_true, Bool.and_eq_true, decide_eq_true_eq] at hchunk
        omega
      obtain ⟨scale, rfl⟩ : ∃ e, scale = e + 1 := ⟨scale - 1, by omega⟩
      have hpow : 2 ^ scale ≤ 2 ^ 8 := Nat.pow_le_pow_right (by decide) (by omega)
      have hsector : u32 ((2 ^ scale + chunk) * 2) = 2 ^ (scale + 1) + 2 * chunk := by
        rw [u32, Nat.mod_eq_of_lt (by omega), pow_succ]
        omega
      obtain ⟨j, s', hread, hreadable, hcontent⟩ := readBitmap_readable (B := B) h sub (2 ^ scale + chunk)
      rw [if_neg hsub, Nat.add_sub_cancel, Nat.add_zero]
      dsimp only
      rw [hread, hsector]
      dsimp only
      -- the bytes of the chunk are those of its zones
      have hsize : 8 * (if chunk = (bitmapInfo Z).partitionChunks then (bitmapInfo Z).partitionRemainder / 8 else pfsMetaSize) =
          min (8192 * (chunk + 1)) Z - 8192 * chunk := by
        unfold bitmapInfo
        dsimp only [pfsBitsPerBitmapChunk]
        split_ifs with hlast
        · omega
        · have : pfsMetaSize = 1024 := rfl
          omega
      have hsum : clearBits (bitmapBit s.disk.content (scale + 1) sub) (min (8192 * chunk) Z) +
          freeInBytes (s.disk.content (place sub (2 ^ (scale + 1) + 2 * chunk)),
            s.disk.content (place sub (2 ^ (scale + 1) + 2 * chunk + 1)))
          (if chunk = (bitmapInfo Z).partitionChunks then (bitmapInfo Z).partitionRemainder / 8 else pfsMetaSize) =
          clearBits (bitmapBit s.disk.content (scale + 1) sub) (min (8192 * (chunk + 1)) Z) := by
        have hsplit : min (8192 * (chunk + 1)) Z = 8192 * chunk + (min (8192 * (chunk + 1)) Z - 8192 * chunk) := by omega
        rw [freeInBytes_eq, hsize, Nat.min_eq_left (le_of_lt hbefore), hsplit, clearBits_add, ← hsplit]
        congr 1
        apply clearBits_congr
        intro q hq
        exact blockBit_chunk _ _ _ _ (by omega)
      have hle := clearBits_le (bitmapBit s.disk.content (scale + 1) sub) (min (8192 * (chunk + 1)) Z)
      rw [hsum, u32, Nat.mod_eq_of_lt (by omega)]
      have hrest := ih hreadable (show chunk + 1 + n = Z / 8192 + 1 by omega)
      rw [hcontent, Nat.add_sub_cancel] at hrest
      exact hrest
    · rw [if_neg hchunk]
      dsimp only
      have hend : Z ≤ 8192 * chunk := by
        unfold pfs_bitmapInfo_t.hasChunk bitmapInfo at hchunk
        simp only [pfsBitsPerBitmapChunk, Bool.or_eq_true, Bool.and_eq_true, decide_eq_true_eq] at hchunk
        omega
      rw [Nat.min_eq_right hend]

/-- A new sub-partition has all its zones free but the first and those of its bitmap. -/
theorem FreshBitmap.free_zones (hfresh : FreshBitmap B scale sub s.disk.content) (h : Readable s) (hsub : sub ≠ 0)
    (hlow : 1 ≤ scale) (hhigh : scale ≤ 8) (hsized : Sized scale (B.getSize sub)) :
    (pfsBitmapCalcFreeZones B scale (scale - 1) sub s).1 =
      B.getSize sub / 2 ^ scale - 1 - pfsGetBitmapSizeBlocks scale (B.getSize sub) := by
  have hloop := freeInChunks_eq (B := B) h hsub hlow hhigh hsized.bytes hsized.few (B.getSize sub / 2 ^ scale / 8192 + 1)
    (Nat.zero_add _)
  have hbits := clearBits_congr (n := B.getSize sub / 2 ^ scale) fun p hp =>
    hfresh p (lt_of_lt_of_le hp hsized.covers)
  rw [hbits, clearBits_below, Nat.mul_zero, Nat.zero_min] at hloop
  rw [Nat.sub_sub]
  exact hloop

/-! ### Adopting is safe but for the log -/

/-- An address that an update leaves alone. -/
def Outside (B : block_device_t) (superblock : Sector) (a : Nat) : Prop :=
  (∀ i, New B superblock i → ¬ InBitmapZones B (pfsGetScale (superblock 4) 512) i a) ∧
    a ≠ place 0 PFS_SUPER_SECTOR ∧ a ≠ place 0 PFS_SUPER_BACKUP_SECTOR

/-- A sub-partition has its bitmap, so that all its zones are free but the first and those of the bitmap. -/
def HasBitmap (B : block_device_t) (superblock : Sector) (i : Nat) (c : Nat → Sector) : Prop :=
  FreshBitmap B (pfsGetScale (superblock 4) 512) i c ∧ ∀ s, Readable s → s.disk.content = c →
    (pfsBitmapCalcFreeZones B (pfsGetScale (superblock 4) 512) (pfsGetScale (superblock 4) pfsMetaSize) i s).1 =
      B.getSize i / 2 ^ pfsGetScale (superblock 4) 512 - 1 - pfsGetBitmapSizeBlocks (pfsGetScale (superblock 4) 512) (B.getSize i)

/-- Where the log `c` names nothing of it, a mount has done to the disk what adopting the new sub-partitions takes, and no more. -/
structure SafeButLogged (B : block_device_t) (superblock : Sector) (c before after : Nat → Sector) : Prop where
  bitmaps : ∀ i, New B superblock i →
    (∀ a, InBitmapZones B (pfsGetScale (superblock 4) 512) i a → ¬ Logged B (logOf superblock) c a) →
    HasBitmap B superblock i after
  super : ¬ Logged B (logOf superblock) c (place 0 PFS_SUPER_SECTOR) →
    after (place 0 PFS_SUPER_SECTOR) 5 = B.getSubNumber
  backup : ¬ Logged B (logOf superblock) c (place 0 PFS_SUPER_BACKUP_SECTOR) →
    after (place 0 PFS_SUPER_BACKUP_SECTOR) 5 = B.getSubNumber
  frame : ∀ a, Outside B superblock a → ¬ Logged B (logOf superblock) c a → after a = before a

theorem Mountable.hasBitmap (h : Mountable B superblock flags s) (hi : New B superblock i)
    (hfresh : FreshBitmap B (pfsGetScale (superblock 4) 512) i c) : HasBitmap B superblock i c := by
  obtain ⟨scale, hlow, hhigh, hsectors, hblocks⟩ := h.scales
  have hsized := h.sized hi
  have hne : i ≠ 0 := fun hzero => Nat.not_lt_zero _ (hzero ▸ hi.1)
  refine ⟨hfresh, fun t ht hcontent => ?_⟩
  rw [hsectors] at hsized hfresh ⊢
  rw [hblocks]
  exact FreshBitmap.free_zones (hcontent ▸ hfresh) ht hne (by omega) hhigh hsized

/-- Adopting new sub-partitions is safe: a mount has done what it takes and no more, but for what the log names, or a command failed. -/
theorem pfsMountSuperBlock_safe (h : Mountable B superblock flags s) :
    (pfsMountSuperBlock B flags s).1 = 0 ∧ (∃ c, (∀ a, Outside B superblock a → c a = s.disk.content a) ∧
        SafeButLogged B superblock c s.disk.content (pfsMountSuperBlock B flags s).2.2.disk.content) ∨
      (pfsMountSuperBlock B flags s).1 < 0 ∧ Fails B superblock s.disk (pfsMountSuperBlock B flags s).2.2.disk := by
  refine (pfsMountSuperBlock_adopts h).imp_left fun ⟨hzero, c, hadopted, hframe, hwords⟩ => ⟨hzero, c, ?_, ?_⟩
  · exact fun a ha => hadopted.frame a ha.1 ha.2.1 ha.2.2
  · constructor
    case bitmaps =>
      intro i hi hapart
      have hne : i ≠ 0 := fun hzero => Nat.not_lt_zero _ (hzero ▸ hi.1)
      apply h.hasBitmap hi
      apply (hadopted.bitmaps i hi).frame (h.sized hi)
      intro a ha
      apply hframe a (hapart a ha)
      rintro rfl
      exact not_inBitmapZones hne _ ha
    case super =>
      intro hlogged
      rw [hwords hlogged 5 (by decide), hadopted.super, Function.update_self]
    case backup =>
      intro hlogged
      have hne : place 0 PFS_SUPER_BACKUP_SECTOR ≠ place 0 PFS_SUPER_SECTOR := fun heq =>
        absurd (place_eq_iff.mp heq).2 (by decide)
      rw [hframe _ hlogged hne, hadopted.backup, Function.update_self]
    case frame =>
      intro a houtside hlogged
      rw [hframe a hlogged houtside.2.1]
      exact hadopted.frame a houtside.1 houtside.2.1 houtside.2.2

/-- A superblock of a filesystem with zones of 2 KB, and its log from zone 3000 on. -/
def smallSuper : Sector := fun w => [PFS_SUPER_MAGIC, 3, 0, 0, 2048, 0, 3000, 0x400000].getD w.val 0

/-- A partition with one sub-partition that the superblock does not know. -/
def smallDevice : block_device_t := ⟨1, fun _ => 2 ^ 18, fun _ => ⟨0, 0, 0⟩, fun _ _ => (Sector.zero, Sector.zero), true⟩

/-- A disk with the superblock and this sector at the head of the log; no command fails. -/
def smallVolume (log : Sector) : Volume where
  disk := fresh (fun a => if a = place 0 PFS_SUPER_SECTOR then smallSuper
    else if a = place 0 12000 then log else Sector.zero) fun _ => false
  nused _ := 0
  free := [1, 2, 3]
  lastError := 0

theorem mountable_small (log : Sector) : Mountable smallDevice smallSuper 0 (smallVolume log) where
  idle := ⟨(by decide : [1, 2, 3].Nodup), fun _ _ => rfl⟩
  free := (by decide : 2 ≤ [1, 2, 3].length)
  super := by
    unfold smallVolume fresh
    dsimp only
    exact if_pos rfl
  accepted := by decide
  new := by decide
  sizes _ _ := ⟨18, by decide, by decide, rfl⟩

theorem not_failed_small (log : Sector) (d : FaultyDisk Sector) : ¬ Failed (smallVolume log).disk d :=
  fun ⟨_, _, _, hfails⟩ => Bool.false_ne_true hfails

/-- Without a log the sub-partition is adopted. -/
theorem pfsMountSuperBlock_safe_small : (pfsMountSuperBlock smallDevice 0 (smallVolume Sector.zero)).1 = 0 ∧
    HasBitmap smallDevice smallSuper 1 (pfsMountSuperBlock smallDevice 0 (smallVolume Sector.zero)).2.2.disk.content := by
  rcases pfsMountSuperBlock_safe (mountable_small Sector.zero) with ⟨hzero, c, hsame, hsafe⟩ | ⟨-, hfailed, -⟩
  · refine ⟨hzero, hsafe.bitmaps 1 ⟨by decide, le_refl _⟩ ?_⟩
    rintro a ⟨sector, rfl, -⟩ (hheader | ⟨hvalid, -⟩)
    · rcases List.mem_cons.mp hheader with heq | hmem
      · cases (place_eq_iff.mp heq).1
      · cases (place_eq_iff.mp (List.mem_singleton.mp hmem)).1
    · have houtside : Outside smallDevice smallSuper (place 0 12000) := by
        refine ⟨fun i hi => not_inBitmapZones (fun hzero => Nat.not_lt_zero _ (hzero ▸ hi.1)) _, ?_, ?_⟩
        · exact fun heq => absurd (place_eq_iff.mp heq).2 (by decide)
        · exact fun heq => absurd (place_eq_iff.mp heq).2 (by decide)
      have hlog : c (place 0 (logOf smallSuper).logStart) = Sector.zero := by
        have hstart : (logOf smallSuper).logStart = 12000 := by decide
        rw [hstart, hsame _ houtside]
        rfl
      rw [hlog] at hvalid
      have hmagic : (0 : Nat) = PFS_JOUNRNAL_MAGIC := hvalid.1
      exact absurd hmagic (by decide)
  · exact absurd hfailed (not_failed_small _ _)

/-- A log with one entry, for the first sector of the new bitmap. -/
def staleLog : Sector := fun w => [PFS_JOUNRNAL_MAGIC, 1 + 65536 * 5, 4, 1 + 65536 * 2].getD w.val 0

def InLogZones (superblock : Sector) (a : Nat) : Prop :=
  ∃ sector, a = place 0 sector ∧ (logOf superblock).logStart ≤ sector ∧
    sector < (logOf superblock).logStart + superblock 7 / 2 ^ 16 * 2 ^ pfsGetScale (superblock 4) 512

/-- A bitmap that was just written is lost to an entry of the log. -/
theorem pfsMountSuperBlock_not_safe : ¬ ∀ (B : block_device_t) (superblock : Sector) (flags : Nat) (s : Volume),
    Mountable B superblock flags s →
    (pfsMountSuperBlock B flags s).1 = 0 ∧
        (∀ i, New B superblock i → HasBitmap B superblock i (pfsMountSuperBlock B flags s).2.2.disk.content) ∧
        (pfsMountSuperBlock B flags s).2.2.disk.content (place 0 PFS_SUPER_SECTOR) 5 = B.getSubNumber ∧
        (pfsMountSuperBlock B flags s).2.2.disk.content (place 0 PFS_SUPER_BACKUP_SECTOR) 5 = B.getSubNumber ∧
        (∀ a, Outside B superblock a → ¬ InLogZones superblock a →
          (pfsMountSuperBlock B flags s).2.2.disk.content a = s.disk.content a) ∨
      (pfsMountSuperBlock B flags s).1 < 0 ∧ Fails B superblock s.disk (pfsMountSuperBlock B flags s).2.2.disk := by
  intro h
  rcases h smallDevice smallSuper 0 (smallVolume staleLog) (mountable_small staleLog) with
    ⟨-, hbitmaps, -⟩ | ⟨-, hfailed, -⟩
  · have hfirst := (hbitmaps 1 ⟨by decide, le_refl _⟩).1 0 (by decide)
    have hlost : bitmapBit (pfsMountSuperBlock smallDevice 0 (smallVolume staleLog)).2.2.disk.content
        (pfsGetScale (smallSuper 4) 512) 1 0 = false := by decide +kernel
    rw [hlost] at hfirst
    exact absurd hfirst (by decide)
  · exact absurd hfailed (not_failed_small _ _)

end HddChecker.Pfs.Commands
