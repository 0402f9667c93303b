import Mathlib.Tactic.Ring
import HddChecker.Fsck.Compare
import HddChecker.Fsck.Open
import HddChecker.Lib.Signed

/-!
# The room for the bitmaps

How many zones the bitmap of a partition takes up is rounded up twice by `pfsGetBitmapSizeSectors`, with the whole remainder added each time, and once more by `pfsGetBitmapSizeBlocks`. `FsckOpen` reserves and `fsckCheckBitmap` reads so many. The allocator and `fsckCompareBitmap` do not ask: the one goes by blocks of 8192 bits, the other by zones of the bitmap, as many as the partition has bits for. All of these lie in the zones that were reserved.
-/

namespace HddChecker.Fsck

open HddChecker Prog Pfs
open Opening (Transferring)

namespace Checked

/-- `pfsGetBitmapSizeSectors`, on words; the variables are signed. -/
def pfsGetBitmapSizeSectors (zoneScale : Nat) (partSize : BitVec 32) : Option (BitVec 32) := do
  let zones ← Signed.ofUnsigned (partSize / (← Signed.oneShl zoneScale))
  let w := zones &&& 7
  let zones ← Signed.add (← Signed.div zones 8) w
  let w := zones &&& 511
  Signed.add (← Signed.div zones 512) w

/-- `pfsGetBitmapSizeBlocks`, on words. -/
def pfsGetBitmapSizeBlocks (scale : Nat) (mainsize : BitVec 32) : Option (BitVec 32) := do
  let a ← pfsGetBitmapSizeSectors scale mainsize
  let size ← Signed.oneShl scale
  return a / size + if 0 < a % size then 1 else 0

end Checked

/-! ### The number of zones -/

section Sizes

variable {scale size : Nat}

private theorem pfsGetBitmapSizeBlocks_eq (scale size : Nat) :
    pfsGetBitmapSizeBlocks scale size = pfsGetBitmapSizeSectors scale size ⌈/⌉ 2 ^ scale :=
  Signed.div_add_one _ (Nat.two_pow_pos scale)

theorem zones_le (scale size : Nat) :
    size / 2 ^ scale ≤ 8 * (512 * (2 ^ scale * pfsGetBitmapSizeBlocks scale size)) := by
  have hbytes := Signed.ceilDiv_le_div_add_mod (size / 2 ^ scale) (show 0 < 8 by decide)
  have hsectors := Signed.ceilDiv_le_div_add_mod (size / 2 ^ scale / 8 + size / 2 ^ scale % 8) (show 0 < 512 by decide)
  have hblocks : pfsGetBitmapSizeSectors scale size ⌈/⌉ 2 ^ scale ≤ pfsGetBitmapSizeBlocks scale size :=
    (pfsGetBitmapSizeBlocks_eq scale size).ge
  rw [ceilDiv_le_iff_le_mul (by decide)] at hbytes hsectors
  rw [ceilDiv_le_iff_le_mul (Nat.two_pow_pos scale)] at hblocks
  calc size / 2 ^ scale ≤ 8 * (size / 2 ^ scale / 8 + size / 2 ^ scale % 8) := hbytes
    _ ≤ 8 * (512 * pfsGetBitmapSizeSectors scale size) := Nat.mul_le_mul_left 8 hsectors
    _ ≤ _ := Nat.mul_le_mul_left 8 (Nat.mul_le_mul_left 512 hblocks)

/-- Zones of 2 KB to 128 KB, and a partition of as many sectors as a word of 32 bits tells. -/
structure Sized (scale size : Nat) : Prop where
  two_le : 2 ≤ scale
  le_eight : scale ≤ 8
  size_lt : size < 2 ^ 32

theorem Sized.zones_lt (h : Sized scale size) : size / 2 ^ scale < 2 ^ 30 := by
  have hpow : 2 ^ 2 ≤ 2 ^ scale := Nat.pow_le_pow_right (by decide) h.two_le
  apply Nat.div_lt_of_lt_mul
  have := h.size_lt
  omega

theorem Sized.pow_le (h : Sized scale size) : 2 ^ scale ≤ 2 ^ 8 := Nat.pow_le_pow_right (by decide) h.le_eight

theorem Sized.sectors_lt (h : Sized scale size) : pfsGetBitmapSizeSectors scale size < 2 ^ 19 := by
  have hzones := h.zones_lt
  unfold pfsGetBitmapSizeSectors
  dsimp only
  omega

theorem Sized.blocks_lt (h : Sized scale size) : pfsGetBitmapSizeBlocks scale size * 2 ^ scale < 2 ^ 20 := by
  have hsectors := h.sectors_lt
  have hpow := h.pow_le
  have hparts := Nat.div_mul_le_self (pfsGetBitmapSizeSectors scale size) (2 ^ scale)
  unfold pfsGetBitmapSizeBlocks
  dsimp only
  rw [Nat.add_mul]
  split <;> omega

/-- No sum, quotient or shift of signed integers is out of range, and the words are the numbers. -/
theorem Sized.checked_sectors (h : Sized scale size) : Checked.pfsGetBitmapSizeSectors scale (BitVec.ofNat 32 size) =
    some (BitVec.ofNat 32 (pfsGetBitmapSizeSectors scale size)) := by
  have hpow := h.pow_le
  have hzones := h.zones_lt
  have hsize := h.size_lt
  have hscale : scale + 1 < 32 := by have := h.le_eight; omega
  unfold Checked.pfsGetBitmapSizeSectors pfsGetBitmapSizeSectors
  simp only [Signed.oneShl_eq hscale, Option.bind_eq_bind, Option.bind_some]
  rw [Signed.udiv_ofNat hsize (by omega), Signed.ofUnsigned_ofNat (by omega)]
  generalize size / 2 ^ scale = zones at hzones
  have hseven : BitVec.ofNat 32 zones &&& 7 = BitVec.ofNat 32 (zones % 8) := Signed.and_mask zones 3
  have height : Signed.div (BitVec.ofNat 32 zones) 8 = some (BitVec.ofNat 32 (zones / 8)) :=
    Signed.div_ofNat (by omega) (by decide) (by decide)
  rw [Option.bind_some, height, Option.bind_some, hseven, Signed.add_ofNat (by omega), Option.bind_some]
  have hbytes : zones / 8 + zones % 8 < 2 ^ 28 := by omega
  generalize zones / 8 + zones % 8 = bytes at hbytes
  have hmask : BitVec.ofNat 32 bytes &&& 511 = BitVec.ofNat 32 (bytes % 512) := Signed.and_mask bytes 9
  have hsector : Signed.div (BitVec.ofNat 32 bytes) 512 = some (BitVec.ofNat 32 (bytes / 512)) :=
    Signed.div_ofNat (by omega) (by decide) (by decide)
  rw [hsector, Option.bind_some, hmask, Signed.add_ofNat (by omega)]

theorem Sized.checked_blocks (h : Sized scale size) : Checked.pfsGetBitmapSizeBlocks scale (BitVec.ofNat 32 size) =
    some (BitVec.ofNat 32 (pfsGetBitmapSizeBlocks scale size)) := by
  have hpow := h.pow_le
  have hsectors := h.sectors_lt
  have hscale : scale + 1 < 32 := by have := h.le_eight; omega
  unfold Checked.pfsGetBitmapSizeBlocks pfsGetBitmapSizeBlocks
  rw [h.checked_sectors, Signed.oneShl_eq hscale]
  generalize pfsGetBitmapSizeSectors scale size = a at hsectors
  have hlt : a % 2 ^ scale < 2 ^ 32 := Nat.lt_of_le_of_lt (Nat.mod_le _ _) (by omega)
  simp only [Option.bind_eq_bind, Option.bind_some, Option.pure_def]
  rw [Signed.udiv_ofNat (by omega) (by omega), Signed.umod_ofNat (by omega) (by omega), BitVec.ofNat_add]
  have hpos : 0 < BitVec.ofNat 32 (a % 2 ^ scale) ↔ 0 < a % 2 ^ scale := by
    rw [BitVec.lt_def, BitVec.toNat_ofNat, Nat.mod_eq_of_lt hlt]
    rfl
  by_cases hrest : 0 < a % 2 ^ scale
  · rw [if_pos hrest, if_pos (hpos.mpr hrest)]
    rfl
  · rw [if_neg hrest, if_neg fun hword => hrest (hpos.mp hword)]
    rfl

end Sizes

/-! ### What is reserved and verified -/

variable {σ : Type} {D : Volume σ} {m : Mount} {log : pfs_blockinfo_t} {i block : Nat}

/-- A zone of a partition is reserved. Unless a call of `fsckCheckZones` fails, the loop of `FsckOpen` makes one for zones from the first of the partition on that this one is among: what such a call brings about, and no call undoes, is so in the end. -/
def Reserves (σ : Type) (m : Mount) (log : pfs_blockinfo_t) (i zone : Nat) : Prop :=
  ∀ K : Scratch → Prop, (∀ number size s, K s → K (fsckCheckZones number size s).2) →
    (∀ number size s, (fsckCheckZones number size s).1 < 0 → K (fsckCheckZones number size s).2) →
    (∀ size s, zone < size → K (fsckCheckZones (m.ZoneMap i) size s).2) →
    ∀ s : Check σ, wp (takeHeads m log) s fun _ s' => K s'.scratch

/-- A zone of a partition is verified. Where `fsckCheckBitmap` finds the bitmaps in order or overwrites them it has read the zone: what reading it brings about, and no transfer undoes, is so in the end. -/
def Verifies (D : Volume σ) (m : Mount) (i zone : Nat) : Prop :=
  ∀ J : σ → Prop, Transferring J D.toLibpfs →
    (∀ v, J (D.transferRead i (zone * 2 ^ m.sector_scale) (2 ^ m.sector_scale) v).2) →
    ∀ s, wp (fsckCheckBitmap D m) s fun result s' => 0 ≤ result → J s'.pfs

/-- The zones of the bitmap of a partition, by their number. -/
def bitmapZone (m : Mount) (i block : Nat) : Nat :=
  block + 1 + if i = 0 then 0x2000 / 2 ^ m.sector_scale else 0

/-- A zone of a partition that is there for its bitmap. -/
structure Covered (D : Volume σ) (m : Mount) (log : pfs_blockinfo_t) (i zone : Nat) : Prop where
  block : ∃ block < pfsGetBitmapSizeBlocks m.sector_scale (m.ZoneSizes i), zone = bitmapZone m i block
  head : zone < headCount m log i
  reserved : Reserves σ m log i zone
  verified : Verifies D m i zone

theorem succ_of_pass {j : Nat} {P Q : Prop} (hpass : i = j → Q) (hkeep : P → Q) (h : i < j → P) (hlt : i < j + 1) :
    Q := by
  by_cases hj : i = j
  · exact hpass hj
  · exact hkeep (h (by omega))

private theorem reserves_of_lt (hi : i ≤ m.num_subs) {zone : Nat} (hzone : zone < headCount m log i) :
    Reserves σ m log i zone := by
  intro K hkeep hfail htake s
  apply ((takeHeads_ends m log s).and_wlp ?_).mono
  · intro result s' h
    exact h.2
  -- behind the partition the zone was taken
  refine wlp_loop (fun j s' => i < j → K s'.scratch) ?_ ?_
  · intro j s hinv
    split
    · rename_i hend
      exact wlp_pure (hinv (Nat.lt_of_le_of_lt hi hend))
    · have hcall : i < j + 1 → K (fsckCheckZones (m.ZoneMap j) (headCount m log j) s.scratch).2 := by
        apply succ_of_pass ?_ (hkeep _ _ _) hinv
        intro hj
        subst hj
        exact htake _ _ hzone
      refine wlp_ofState_bind.mpr ?_
      dsimp only
      split
      · rename_i hneg
        exact wlp_pure (hfail _ _ _ hneg)
      · refine wlp_modify_bind.mpr ?_
        exact wlp_pure hcall
  · intro hlt
    exact absurd hlt (Nat.not_lt_zero i)

theorem transferring_imp {J : σ → Prop} (hJ : Transferring J D.toLibpfs) (c : Prop) :
    Transferring (fun v => c → J v) D.toLibpfs where
  read sub sector size v h hc := hJ.read sub sector size v (h hc)
  write sub sector size words v h hc := hJ.write sub sector size words v (h hc)

private theorem transferring_true (D : Volume σ) : Transferring (fun _ => True) D.toLibpfs where
  read _ _ _ _ _ := trivial
  write _ _ _ _ _ _ := trivial

/-- Unless the check of a partition fails, every zone of its bitmap was read. -/
private theorem checkBitmapBlocks_reads {J : σ → Prop} (hJ : Transferring J D.toLibpfs)
    (hread : ∀ v, J (D.transferRead i (u32 (bitmapZone m i block * 2 ^ m.sector_scale)) (2 ^ m.sector_scale) v).2)
    (hblock : block < pfsGetBitmapSizeBlocks m.sector_scale (m.ZoneSizes i)) (s : Check σ) :
    wlp (checkBitmapBlocks D m i) s fun result s' => 0 ≤ result → J s'.pfs := by
  refine wlp_loop (fun b s' => block < b → J s'.pfs) ?_ ?_
  · intro b s hinv
    dsimp only
    split
    · rename_i hend
      exact wlp_pure fun _ => hinv (Nat.lt_of_lt_of_le hblock hend)
    · have hread : wlp (transferRead D.toLibpfs i (u32 (bitmapZone m i b * 2 ^ m.sector_scale)) (2 ^ m.sector_scale)) s
          fun _ s' => block < b + 1 → J s'.pfs := by
        apply wlp_ofState
        apply succ_of_pass ?_ (hJ.read _ _ _ _) hinv
        intro hb
        rw [← hb]
        exact hread s.pfs
      refine wlp_bind (hread.mono ?_)
      intro result s hs
      split
      · rename_i hneg
        refine wlp_bind ((Opening.keeps_prompt (P := fun v => block < b + 1 → J v) s hs).wlp.mono ?_)
        intro yes s hs
        split
        · refine wlp_bind ((Opening.overwriteBitmap_ends (transferring_imp hJ (block < b + 1)) i _ s hs).wlp.mono ?_)
          intro result s hs
          split
          · rename_i hfail
            exact wlp_pure fun hge => absurd hfail (Int.not_lt.mpr hge)
          · exact wlp_pure hs
        · exact wlp_pure fun hge => absurd hneg (Int.not_lt.mpr hge)
      · exact wlp_pure hs
  · intro hlt
    exact absurd hlt (Nat.not_lt_zero block)

theorem Sized.u32_bitmapZone (h : Sized m.sector_scale (m.ZoneSizes i))
    (hblock : block < pfsGetBitmapSizeBlocks m.sector_scale (m.ZoneSizes i)) :
    u32 (bitmapZone m i block * 2 ^ m.sector_scale) = bitmapZone m i block * 2 ^ m.sector_scale := by
  have hroom := h.blocks_lt
  have hle : (block + 1) * 2 ^ m.sector_scale ≤ pfsGetBitmapSizeBlocks m.sector_scale (m.ZoneSizes i) * 2 ^ m.sector_scale :=
    Nat.mul_le_mul_right _ hblock
  have hmain := Nat.div_mul_le_self 0x2000 (2 ^ m.sector_scale)
  unfold u32 bitmapZone
  apply Nat.mod_eq_of_lt
  rw [Nat.add_mul (block + 1)]
  split <;> omega

private theorem verifies_bitmapZone (h : Sized m.sector_scale (m.ZoneSizes i)) (hi : i ≤ m.num_subs)
    (hblock : block < pfsGetBitmapSizeBlocks m.sector_scale (m.ZoneSizes i)) :
    Verifies D m i (bitmapZone m i block) := by
  intro J hJ hread s
  rw [← h.u32_bitmapZone hblock] at hread
  have hends := Opening.fsckCheckBitmap_ends (m := m) (transferring_true D) s trivial
  apply (hends.and_wlp ?_).mono
  · intro result s' h
    exact h.2
  refine wlp_loop (fun j s' => i < j → J s'.pfs) ?_ ?_
  · intro j s hinv
    split
    · rename_i hend
      exact wlp_pure fun _ => hinv (Nat.lt_of_le_of_lt hi hend)
    · have hcheck : wlp (checkBitmapBlocks D m j) s fun result s' => 0 ≤ result → i < j + 1 → J s'.pfs := by
        by_cases hj : i = j
        · subst hj
          refine (checkBitmapBlocks_reads hJ hread hblock s).mono ?_
          intro result s' hs' hge _
          exact hs' hge
        · refine (Opening.checkBitmapBlocks_ends (transferring_imp hJ (i < j)) j s hinv).wlp.mono ?_
          intro result s' hs' _ hlt
          exact hs' (by omega)
      refine wlp_bind (hcheck.mono ?_)
      intro result s' hs'
      split
      · rename_i hneg
        exact wlp_pure fun hge => absurd hneg (Int.not_lt.mpr hge)
      · rename_i hge
        exact wlp_pure (hs' (Int.not_lt.mp hge))
  · intro hlt
    exact absurd hlt (Nat.not_lt_zero i)

theorem bitmapZone_lt (log : pfs_blockinfo_t)
    (hblock : block < pfsGetBitmapSizeBlocks m.sector_scale (m.ZoneSizes i)) :
    bitmapZone m i block < headCount m log i := by
  unfold bitmapZone headCount
  split <;> omega

theorem covered_bitmapZone (h : Sized m.sector_scale (m.ZoneSizes i)) (hi : i ≤ m.num_subs)
    (hblock : block < pfsGetBitmapSizeBlocks m.sector_scale (m.ZoneSizes i)) :
    Covered D m log i (bitmapZone m i block) where
  block := ⟨block, hblock, rfl⟩
  head := bitmapZone_lt log hblock
  reserved := reserves_of_lt hi (bitmapZone_lt log hblock)
  verified := verifies_bitmapZone h hi hblock

/-! ### Who uses the bitmaps -/

/-- What `libpfs` has of the same mount. A zone is of two blocks at least. -/
structure Mirrors (b : pfs_mount_t) (m : Mount) : Prop where
  getSize : ∀ i, b.getSize i = m.ZoneSizes i
  sector_scale : b.sector_scale = m.sector_scale
  inode_scale : b.inode_scale + 1 = m.sector_scale
  pfsBlockSize : b.pfsBlockSize = 1

theorem Mirrors.zone_size {b : pfs_mount_t} (h : Mirrors b m) : 2 ^ m.sector_scale = 2 * 2 ^ b.inode_scale := by
  rw [← h.inode_scale, Nat.pow_succ, Nat.mul_comm]

theorem Mirrors.chunk_lt {b : pfs_mount_t} (h : Mirrors b m) {number : Nat} (hnumber : number < b.zones i) :
    (pfsBitmapSetupInfo b i number).chunk / 2 ^ b.inode_scale <
      pfsGetBitmapSizeBlocks m.sector_scale (m.ZoneSizes i) := by
  have hzones := zones_le m.sector_scale (m.ZoneSizes i)
  unfold pfs_mount_t.zones at hnumber
  rw [h.getSize, h.sector_scale] at hnumber
  generalize pfsGetBitmapSizeBlocks m.sector_scale (m.ZoneSizes i) = blocks at hzones
  change number / 8192 / 2 ^ b.inode_scale < blocks
  have hbits : 2 ^ m.sector_scale * blocks = 2 * (2 ^ b.inode_scale * blocks) := by
    rw [h.zone_size, Nat.mul_assoc]
  apply Nat.div_lt_of_lt_mul
  apply Nat.div_lt_of_lt_mul
  omega

/-- The sectors of a chunk are those of a zone of the bitmap. -/
theorem Mirrors.sector_zone {b : pfs_mount_t} (h : Mirrors b m) (hscale : m.sector_scale ≤ 8) (chunk : Nat) {k : Nat}
    (hk : k < 2 ^ b.pfsBlockSize) : (b.sector i chunk * 2 ^ b.pfsBlockSize + k) / 2 ^ m.sector_scale =
      bitmapZone m i (chunk / 2 ^ b.inode_scale) := by
  rw [h.pfsBlockSize, Nat.pow_one] at hk ⊢
  have hblock : (b.sector i chunk * 2 + k) / 2 = b.sector i chunk := by omega
  have hinode := h.inode_scale
  -- the sectors before the superblock are whole zones
  obtain ⟨zones, hmain⟩ : 2 ^ b.inode_scale ∣ 0x1000 := Nat.pow_dvd_pow 2 (show b.inode_scale ≤ 12 by omega)
  have hpos := Nat.two_pow_pos b.inode_scale
  rw [h.zone_size, ← Nat.div_div_eq_div_mul, hblock]
  unfold pfs_mount_t.sector bitmapZone
  rw [h.pfsBlockSize, h.zone_size, ← Nat.div_div_eq_div_mul]
  change (2 ^ b.inode_scale + chunk + if i = 0 then 0x1000 else 0) / 2 ^ b.inode_scale =
    chunk / 2 ^ b.inode_scale + 1 + if i = 0 then 0x1000 / 2 ^ b.inode_scale else 0
  rw [hmain, Nat.mul_div_cancel_left zones hpos]
  split
  · rw [Nat.add_mul_div_left _ _ hpos, Nat.add_div_left chunk hpos]
  · exact Nat.add_div_left chunk hpos

/-- What is compared fits into the zones of the bitmap. -/
theorem Geometry.pieces_le (h : Geometry m) (i : Nat) :
    pieces m i ≤ pfsGetBitmapSizeBlocks m.sector_scale (m.ZoneSizes i) := by
  have hzones := zones_le m.sector_scale (m.ZoneSizes i)
  have hpos : 0 < m.zsize * 8 := by
    rw [h.zsize]
    exact Nat.mul_pos (Nat.mul_pos (by decide) (Nat.two_pow_pos _)) (by decide)
  have hceil : pieces m i = m.ZoneSizes i / 2 ^ m.sector_scale ⌈/⌉ (m.zsize * 8) := by
    rw [← Signed.div_add_one _ hpos]
    unfold pieces
    split
    · rename_i hzero
      rw [if_neg (by omega)]
    · rename_i hsome
      rw [if_pos (Nat.pos_of_ne_zero hsome)]
  rw [hceil, ceilDiv_le_iff_le_mul hpos, h.zsize]
  calc m.ZoneSizes i / 2 ^ m.sector_scale
      ≤ 8 * (512 * (2 ^ m.sector_scale * pfsGetBitmapSizeBlocks m.sector_scale (m.ZoneSizes i))) := hzones
    _ = _ := by ring

theorem Geometry.pieceSector_eq (h : Geometry m) {p : Nat} (hp : p < pieces m i) :
    pieceSector m i p = bitmapZone m i p * 2 ^ m.sector_scale := by
  have hzone : (if i = 0 then 0x2000 / 2 ^ m.sector_scale + 1 else 1) + p = bitmapZone m i p := by
    unfold bitmapZone
    split <;> omega
  rw [h.sector hp, hzone]

private theorem prompt2_keeps {I : σ → Prop} (mode : Bool) :
    Preserves (fun s : Check σ => I s.pfs) (fsckPromptUserAction2 mode) := by
  intro s h
  refine (fsckPromptUserAction2_cases mode s).mono ?_
  intro answer s' hcases
  obtain ⟨answers, hasError, rfl⟩ := hcases
  exact h

private theorem compareWords_keeps {I : σ → Prop} (pBitmap : Words) (length : Nat) :
    Preserves (fun s : Check σ => I s.pfs) (compareWords pBitmap length) := by
  apply Preserves.loop
  intro (k, hasUpdate)
  dsimp only
  split
  · exact preserves_pure _
  · apply (preserves_read _).bind
    intro s
    split
    · exact preserves_pure _
    · apply (prompt2_keeps _).bind
      intro fix
      split
      · exact Preserves.bind (preserves_ofState fun _ h => h) fun _ => preserves_pure _
      · exact preserves_pure _

private theorem comparePartition_keeps {I : σ → Prop} (hgeo : Geometry m) (i : Nat)
    (hread : ∀ sub sector size v, I v → I (D.transferRead sub sector size v).2)
    (hwrite : ∀ p < pieces m i, ∀ words v, I v →
      I (D.transferWrite i (bitmapZone m i p * 2 ^ m.sector_scale) (2 ^ m.sector_scale) words v).2) :
    Preserves (fun s => I s.pfs) (comparePartition D.toLibpfs m i) := by
  apply Preserves.loop
  intro zone
  dsimp only
  split
  · exact preserves_pure _
  · rename_i hmore
    have hzone := Nat.lt_of_not_le fun hle => hmore ((pieces_le_iff m i zone).mpr hle)
    apply Preserves.bind (preserves_ofState fun _ h => h)
    intro words
    apply Preserves.bind (preserves_ofState fun s h => hread _ _ _ s.pfs h)
    intro result
    split
    · exact preserves_pure _
    · cases words with
      | none => exact fun _ _ => wlp_crash
      | some pBitmap =>
        apply (compareWords_keeps pBitmap _).bind
        intro hasUpdate
        split
        · have hput : Preserves (fun s : Check σ => I s.pfs)
              (transferWrite D.toLibpfs i (pieceSector m i zone) (2 ^ m.sector_scale)) := by
            rw [hgeo.pieceSector_eq hzone]
            exact preserves_ofState fun s h => hwrite zone hzone s.IOBuffer s.pfs h
          exact hput.bind fun _ => preserves_pure _
        · exact preserves_pure _

theorem Geometry.sized (h : Geometry m) (hscale : 2 ≤ m.sector_scale) (i : Nat) :
    Sized m.sector_scale (m.ZoneSizes i) := ⟨hscale, h.scale, h.sizes i⟩

/-- The allocator finds its chunks, and `fsckCompareBitmap` compares and writes, only in zones that are there for the bitmaps. -/
structure Suffices (D : Volume σ) (m : Mount) (log : pfs_blockinfo_t) : Prop where
  chunk : ∀ b, Mirrors b m → ∀ i ≤ m.num_subs, ∀ number < b.zones i, ∀ k < 2 ^ b.pfsBlockSize, Covered D m log i
    ((b.sector i (pfsBitmapSetupInfo b i number).chunk * 2 ^ b.pfsBlockSize + k) / 2 ^ m.sector_scale)
  compared : ∀ i ≤ m.num_subs, ∀ p < pieces m i, ∃ zone, pieceSector m i p = zone * 2 ^ m.sector_scale ∧
    Covered D m log i zone
  written : ∀ I : σ → Prop, (∀ sub sector size v, I v → I (D.transferRead sub sector size v).2) →
    (∀ i zone words v, Covered D m log i zone → I v →
      I (D.transferWrite i (zone * 2 ^ m.sector_scale) (2 ^ m.sector_scale) words v).2) →
    Preserves (fun s => I s.pfs) (fsckCompareBitmap D.toLibpfs m)

theorem Geometry.suffices (h : Geometry m) (hscale : 2 ≤ m.sector_scale) (D : Volume σ) (log : pfs_blockinfo_t) :
    Suffices D m log := by
  have hpiece : ∀ i ≤ m.num_subs, ∀ p < pieces m i, Covered D m log i (bitmapZone m i p) := fun i hi p hp =>
    covered_bitmapZone (h.sized hscale i) hi (Nat.lt_of_lt_of_le hp (h.pieces_le i))
  constructor
  · intro b hb i hi number hnumber k hk
    rw [hb.sector_zone h.scale _ hk]
    exact covered_bitmapZone (h.sized hscale i) hi (hb.chunk_lt hnumber)
  · intro i hi p hp
    exact ⟨bitmapZone m i p, h.pieceSector_eq hp, hpiece i hi p hp⟩
  · intro I hread hwrite
    apply Preserves.loop
    intro i
    split
    · exact preserves_pure _
    · rename_i hmore
      have hi := Nat.le_of_not_lt hmore
      exact (comparePartition_keeps h i hread fun p hp words v hv =>
        hwrite i _ words v (hpiece i hi p hp) hv).bind fun _ => preserves_pure _

/-- For zones of 2 KB to 128 KB and a partition of any size the number of zones comes without an overflow, and they have a bit for every zone of the partition. Whatever filesystem has such zones, its bitmaps stay in the zones that `FsckOpen` reserves and `fsckCheckBitmap` verifies. -/
theorem pfsGetBitmapSizeBlocks_suffices {scale size : Nat} (h : Sized scale size) :
    (Checked.pfsGetBitmapSizeBlocks scale (BitVec.ofNat 32 size) =
        some (BitVec.ofNat 32 (pfsGetBitmapSizeBlocks scale size)) ∧
      pfsGetBitmapSizeBlocks scale size < 2 ^ 32 ∧
      size / 2 ^ scale ⌈/⌉ 8 ≤ pfsGetBitmapSizeBlocks scale size * (512 * 2 ^ scale)) ∧
    ∀ {σ : Type} (D : Volume σ) (m : Mount) (log : pfs_blockinfo_t), Geometry m → m.sector_scale = scale →
      Suffices D m log := by
  refine ⟨⟨h.checked_blocks, ?_, ?_⟩, ?_⟩
  · calc pfsGetBitmapSizeBlocks scale size ≤ pfsGetBitmapSizeBlocks scale size * 2 ^ scale :=
          Nat.le_mul_of_pos_right _ (Nat.two_pow_pos scale)
      _ < 2 ^ 20 := h.blocks_lt
      _ ≤ 2 ^ 32 := by decide
  · rw [ceilDiv_le_iff_le_mul (by decide)]
    calc size / 2 ^ scale ≤ 8 * (512 * (2 ^ scale * pfsGetBitmapSizeBlocks scale size)) := zones_le scale size
      _ = _ := by ring
  · intro σ D m log hgeo hscale
    exact hgeo.suffices (hscale ▸ h.two_le) D log

/-- A partition of 128 MB with zones of 8 KB. -/
theorem pfsGetBitmapSizeBlocks_suffices_damaged :
    (Checked.pfsGetBitmapSizeBlocks 4 0x40000#32 = some 1#32 ∧ 0x40000 / 2 ^ 4 ⌈/⌉ 8 ≤ 512 * 2 ^ 4) ∧
      Suffices (damaged false) damagedFilesystem.mount damagedFilesystem.log := by
  have hgeo : Geometry damagedFilesystem.mount := ⟨rfl, by decide, fun _ => show 0x40000 < 2 ^ 32 by decide⟩
  have hsized : Sized 4 0x40000 := ⟨by decide, by decide, by decide⟩
  obtain ⟨⟨hchecked, -, hbits⟩, hmount⟩ := pfsGetBitmapSizeBlocks_suffices hsized
  exact ⟨⟨hchecked, hbits⟩, hmount _ _ _ hgeo rfl⟩

end HddChecker.Fsck
