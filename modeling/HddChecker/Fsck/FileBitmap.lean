import HddChecker.Fsck.Counters
import Mathlib.Data.Nat.Pairing

/-!
# Repairing the bitmap of a partition

`fsckCheckFileBitmap` looks up the bits of a run of zones in the bitmap on disk and sets those that are clear. The blocks of the bitmap are told by the partition and the number of the block in it, as they are asked of the cache.
-/

namespace HddChecker.Fsck

open HddChecker Prog Pfs

variable {σ : Type} {L : Libpfs σ} {m : Mount}

/-- The blocks of metadata: their bits by partition, block, word and bit. -/
abbrev Blocks : Type := Nat → Nat → Nat → Nat → Bool

/-- The cache shows readable blocks: `view` is what they hold, and `shows` which block an entry was got for. -/
structure Shows (L : Libpfs σ) (view : σ → Blocks) (shows : σ → Nat → Option (Nat × Nat)) : Prop where
  get : ∀ sub block s, ∃ clink s', L.pfsCacheGetData sub block .BITMAP s = (.ok clink, s') ∧ view s' = view s ∧
    shows s' clink = some (sub, block)
  bitmap : ∀ {s clink sub block}, shows s clink = some (sub, block) → ∀ i b, L.bitmap clink i b s = view s sub block i b
  setBitmap : ∀ {s clink sub block}, shows s clink = some (sub, block) → ∀ i b,
    (view (L.setBitmap clink i b s) = fun sub' block' i' b' =>
      view s sub' block' i' b' || decide (sub' = sub ∧ block' = block ∧ i' = i ∧ b' = b)) ∧
    shows (L.setBitmap clink i b s) clink = some (sub, block)
  setDirty : ∀ {s clink sub block}, shows s clink = some (sub, block) →
    view (L.setDirty clink s) = view s ∧ shows (L.setDirty clink s) clink = some (sub, block)
  free : ∀ s clink, view (L.pfsCacheFree (some clink) s) = view s

/-- The block with the bit of a zone, where the bitmap starts so many blocks behind the first zone. -/
def chunkBlock (m : Mount) (base z : Nat) : Nat := u32 (z / pfsBitsPerBitmapChunk + 2 ^ m.inode_scale + base)

def zoneBit (m : Mount) (V : Blocks) (sub base z : Nat) : Bool :=
  V sub (chunkBlock m base z) (z % pfsBitsPerBitmapChunk / 32) (z % 32)

/-- The place is the one for the bit of a zone. -/
def IsPlace (m : Mount) (sub base z sub' block i b : Nat) : Prop :=
  sub' = sub ∧ block = chunkBlock m base z ∧ i = z % pfsBitsPerBitmapChunk / 32 ∧ b = z % 32

instance (m : Mount) (sub base z sub' block i b : Nat) : Decidable (IsPlace m sub base z sub' block i b) :=
  inferInstanceAs (Decidable (_ ∧ _))

/-- The blocks with the bits of a run of zones set. -/
def markRun (m : Mount) (sub base a n : Nat) (V : Blocks) : Blocks := fun sub' block i b =>
  V sub' block i b || (List.range' a n).any fun z => decide (IsPlace m sub base z sub' block i b)

/-- How many bits of the run are clear. -/
def clearCount (m : Mount) (sub base a n : Nat) (V : Blocks) : Nat :=
  ((List.range' a n).filter fun z => !zoneBit m V sub base z).length

variable {V : Blocks} {sub base a n z z' : Nat}

private theorem markRun_zero (m : Mount) (sub base a : Nat) (V : Blocks) : markRun m sub base a 0 V = V := by
  funext sub' block i b
  exact Bool.or_false _

theorem markRun_succ (m : Mount) (sub base a n : Nat) (V : Blocks) : markRun m sub base a (n + 1) V =
    fun sub' block i b => markRun m sub base a n V sub' block i b || decide (IsPlace m sub base (a + n) sub' block i b) := by
  funext sub' block i b
  simp only [markRun, List.range'_1_concat, List.any_append, List.any_cons, List.any_nil, Bool.or_false, Bool.or_assoc]

private theorem place_injective (hz : z < 2 ^ 33) (hz' : z' < 2 ^ 33) (hblock : chunkBlock m base z = chunkBlock m base z')
    (hword : z % pfsBitsPerBitmapChunk / 32 = z' % pfsBitsPerBitmapChunk / 32) (hbit : z % 32 = z' % 32) : z = z' := by
  simp only [chunkBlock, u32, pfsBitsPerBitmapChunk] at hblock hword
  omega

theorem zoneBit_markRun (m : Mount) (sub base a n z : Nat) (hz : z < 2 ^ 33) (hrun : a + n ≤ 2 ^ 33) (V : Blocks) :
    zoneBit m (markRun m sub base a n V) sub base z = (zoneBit m V sub base z || decide (a ≤ z ∧ z < a + n)) := by
  unfold zoneBit markRun
  congr 1
  apply Bool.eq_iff_iff.mpr
  simp only [List.any_eq_true, decide_eq_true_eq]
  constructor
  · rintro ⟨z', hmem, -, hblock, hword, hbit⟩
    have hrange := List.mem_range'_1.mp hmem
    rwa [place_injective hz (by omega) hblock hword hbit]
  · intro hrange
    exact ⟨z, List.mem_range'_1.mpr hrange, rfl, rfl, rfl, rfl⟩

theorem clearCount_succ (m : Mount) (sub base a n : Nat) (V : Blocks) : clearCount m sub base a (n + 1) V =
    clearCount m sub base a n V + if zoneBit m V sub base (a + n) then 0 else 1 := by
  simp only [clearCount, List.range'_1_concat, List.filter_append, List.length_append]
  congr 1
  cases hbit : zoneBit m V sub base (a + n) with
  | false =>
    rw [List.filter_cons_of_pos (by rw [hbit]; rfl)]
    rfl
  | true =>
    rw [List.filter_cons_of_neg (by rw [hbit]; decide)]
    rfl

private theorem markRun_set (hset : zoneBit m (markRun m sub base a n V) sub base (a + n) = true) :
    markRun m sub base a (n + 1) V = markRun m sub base a n V := by
  rw [markRun_succ]
  funext sub' block i b
  by_cases hplace : IsPlace m sub base (a + n) sub' block i b
  · obtain ⟨rfl, rfl, rfl, rfl⟩ := hplace
    have hbit : markRun m sub' base a n V sub' (chunkBlock m base (a + n)) ((a + n) % pfsBitsPerBitmapChunk / 32)
      ((a + n) % 32) = true := hset
    rw [hbit, Bool.true_or]
  · rw [decide_eq_false hplace, Bool.or_false]

/-! ### The loops -/

/-- So many bits of the run have been seen to. -/
structure Repaired (view : σ → Blocks) (m : Mount) (sub base a : Nat) (s₀ s : Check σ) (n : Nat) : Prop where
  blocks : view s.pfs = markRun m sub base a n (view s₀.pfs)
  reported : s.reported = s₀.reported + clearCount m sub base a n (view s₀.pfs)
  write : s.fsckWriteEnabled = true
  auto : s.fsckAutoMode = true

private theorem wp_prompt {s : Check σ} {Q : Bool → Check σ → Prop} (hwrite : s.fsckWriteEnabled = true)
    (hauto : s.fsckAutoMode = true)
    (h : ∀ s', s'.pfs = s.pfs → s'.reported = s.reported + 1 → s'.fsckWriteEnabled = true → s'.fsckAutoMode = true →
      Q true s') : wp (fsckPromptUserAction true) s Q := by
  unfold fsckPromptUserAction
  apply wp_bind
  apply wp_modify
  apply wp_bind
  apply wp_ofState
  simp only [id]
  rw [if_pos hwrite, if_pos hauto, if_pos trivial]
  apply wp_bind
  apply wp_modify
  apply wp_pure
  exact h _ rfl rfl hwrite hauto

variable {view : σ → Blocks} {shows : σ → Nat → Option (Nat × Nat)} {s₀ s : Check σ}
  {clink chunk index bit count total : Nat}

/-- Where the loops over a chunk stand: at the next bit of the run. -/
structure AtBit (sub base : Nat) (view : σ → Blocks) (shows : σ → Nat → Option (Nat × Nat)) (m : Mount) (a total clink chunk : Nat)
    (s₀ s : Check σ) (index bit count : Nat) : Prop where
  shown : shows s.pfs clink = some (sub, u32 (chunk + 2 ^ m.inode_scale + base))
  done : ∃ n, n + count = total ∧ chunk * pfsBitsPerBitmapChunk + index * 32 + bit = a + n ∧
    Repaired view m sub base a s₀ s n
  word : index ≤ 256
  within : bit ≤ 32
  last : index = 256 → bit = 0

private theorem wp_checkChunk (hL : Shows L view shows) (hrun : a + total ≤ 2 ^ 33)
    (hstart : AtBit sub base view shows m a total clink chunk s₀ s index bit count) :
    wp (checkChunk L clink index bit count) s fun r s' => ∃ rest n, r = some rest ∧ n + rest = total ∧
      (rest = 0 ∨ (chunk + 1) * pfsBitsPerBitmapChunk = a + n) ∧ Repaired view m sub base a s₀ s' n := by
  unfold checkChunk
  refine wp_loop (fun (x : Nat × Nat × Nat) s => AtBit sub base view shows m a total clink chunk s₀ s x.1 x.2.1 x.2.2)
    (fun x _ => x.2.2 + (257 - x.1)) ?_ hstart
  intro x s hat
  obtain ⟨index, bit, count⟩ := x
  obtain ⟨n, hsum, hplace, hdone⟩ := hat.done
  simp only at hsum hplace ⊢
  have hword := hat.word
  have hbit := hat.within
  have hlast := hat.last
  simp only at hword hbit hlast
  by_cases hend : 0x100 ≤ index ∨ count = 0
  · rw [if_pos hend]
    apply wp_pure
    refine ⟨count, n, rfl, hsum, ?_, hdone⟩
    simp only [pfsBitsPerBitmapChunk] at hplace ⊢
    omega
  · rw [if_neg hend]
    by_cases hnext : 32 ≤ bit
    · rw [if_pos hnext]
      apply wp_pure
      have hfull : bit = 32 := Nat.le_antisymm hbit hnext
      have hplace' : chunk * pfsBitsPerBitmapChunk + (index + 1) * 32 + 0 = a + n := by
        rw [← hplace, hfull, Nat.add_one_mul, Nat.add_zero, Nat.add_assoc]
      have hlower : count + (257 - (index + 1)) < count + (257 - index) := by omega
      exact ⟨⟨hat.shown, ⟨n, hsum, hplace', hdone⟩, by simp only; omega, Nat.zero_le _, fun _ => rfl⟩, hlower⟩
    · rw [if_neg hnext]
      apply wp_bind
      apply wp_ofState
      simp only
      -- the bit that is looked at is the one of the next zone
      have hz : a + n = chunk * pfsBitsPerBitmapChunk + index * 32 + bit := hplace.symm
      have hblock : chunkBlock m base (a + n) = u32 (chunk + 2 ^ m.inode_scale + base) := by
        have hchunk : (a + n) / pfsBitsPerBitmapChunk = chunk := by
          simp only [pfsBitsPerBitmapChunk] at hz ⊢
          omega
        rw [chunkBlock, hchunk]
      have hindex : (a + n) % pfsBitsPerBitmapChunk / 32 = index := by
        simp only [pfsBitsPerBitmapChunk] at hz ⊢
        omega
      have hlow : (a + n) % 32 = bit := by
        simp only [pfsBitsPerBitmapChunk] at hz
        omega
      have hcurrent : L.bitmap clink index bit s.pfs = zoneBit m (markRun m sub base a n (view s₀.pfs)) sub base (a + n) := by
        rw [hL.bitmap hat.shown, hdone.blocks, zoneBit, hblock, hindex, hlow]
      have hold : zoneBit m (markRun m sub base a n (view s₀.pfs)) sub base (a + n) =
          zoneBit m (view s₀.pfs) sub base (a + n) := by
        have hnot : ¬ (a ≤ a + n ∧ a + n < a + n) := by omega
        rw [zoneBit_markRun m sub base a n (a + n) (by omega) (by omega), decide_eq_false hnot, Bool.or_false]
      have hmore : ∀ s' : Check σ, shows s'.pfs clink = some (sub, u32 (chunk + 2 ^ m.inode_scale + base)) →
          Repaired view m sub base a s₀ s' (n + 1) →
          AtBit sub base view shows m a total clink chunk s₀ s' index (bit + 1) (count - 1) ∧
            count - 1 + (257 - index) < count + (257 - index) := by
        intro s' hshown hrep
        refine ⟨⟨hshown, ⟨n + 1, by omega, by omega, hrep⟩, hword, by omega, ?_⟩, by omega⟩
        intro hfull
        omega
      by_cases hset : L.bitmap clink index bit s.pfs = true
      · rw [if_pos hset]
        apply wp_pure
        rw [hcurrent] at hset
        apply hmore s hat.shown
        refine ⟨?_, ?_, hdone.write, hdone.auto⟩
        · rw [hdone.blocks, markRun_set hset]
        · rw [hdone.reported, clearCount_succ, if_pos (hold.symm.trans hset), Nat.add_zero]
      · rw [if_neg hset]
        apply wp_bind
        apply wp_prompt hdone.write hdone.auto
        intro s₁ hpfs hrep hwrite hauto
        rw [if_pos rfl]
        apply wp_bind
        apply wp_modify
        apply wp_bind
        apply wp_modify
        apply wp_pure
        rw [hcurrent, hold] at hset
        have hshown : shows s₁.pfs clink = some (sub, u32 (chunk + 2 ^ m.inode_scale + base)) := by
          rw [hpfs]
          exact hat.shown
        obtain ⟨hview, hshown'⟩ := hL.setBitmap hshown index bit
        obtain ⟨hview', hshown''⟩ := hL.setDirty hshown'
        apply hmore
        · exact hshown''
        · refine ⟨?_, ?_, hwrite, hauto⟩
          · simp only
            rw [hview', hview, hpfs, hdone.blocks, markRun_succ]
            simp only [IsPlace, hblock, hindex, hlow]
          · simp only
            rw [hrep, hdone.reported, clearCount_succ, if_neg hset]
            rfl

theorem wp_fsckCheckFileBitmap {info : pfs_blockinfo_t} (hL : Shows L view shows) (hwrite : s.fsckWriteEnabled = true)
    (hauto : s.fsckAutoMode = true) (hnumber : info.number < 2 ^ 32) (hcount : info.count < 2 ^ 16) :
    wp (fsckCheckFileBitmap L m info) s fun r s' =>
      r = 0 ∧ Repaired view m info.subpart (0x2000 / 2) info.number s s' info.count := by
  unfold fsckCheckFileBitmap
  refine wp_loop (fun (x : Nat × Nat × Nat × Nat) s' => x.2.1 < 256 ∧ x.2.2.1 < 32 ∧ ∃ n, n + x.2.2.2 = info.count ∧
    (x.2.2.2 = 0 ∨ x.1 * pfsBitsPerBitmapChunk + x.2.1 * 32 + x.2.2.1 = info.number + n) ∧
    Repaired view m info.subpart (0x2000 / 2) info.number s s' n) (fun x _ => x.2.2.2) ?_ ?_
  · rintro ⟨chunk, index, bit, count⟩ s₁ ⟨hindex, hbit, n, hsum, hplace, hdone⟩
    simp only at hindex hbit hsum hplace ⊢
    by_cases hend : count = 0
    · rw [if_pos hend]
      apply wp_pure
      rw [hend, Nat.add_zero] at hsum
      exact ⟨rfl, hsum ▸ hdone⟩
    · rw [if_neg hend]
      obtain ⟨clink, pfs, hget, hview, hshown⟩ :=
        hL.get info.subpart (u32 (chunk + 2 ^ m.inode_scale + 0x2000 / 2)) s₁.pfs
      apply wp_bind
      unfold pfsBitmapReadPartition
      apply wp_bind
      apply wp_ofState
      simp only [hget]
      apply wp_pure
      have hrep : Repaired view m info.subpart (0x2000 / 2) info.number s { s₁ with pfs := pfs } n :=
        ⟨hview.trans hdone.blocks, hdone.reported, hdone.write, hdone.auto⟩
      apply wp_bind
      refine (wp_checkChunk hL (show info.number + info.count ≤ 2 ^ 33 by omega)
        ⟨hshown, ⟨n, hsum, hplace.resolve_left hend, hrep⟩, by omega, by omega, fun hfull => by omega⟩).mono ?_
      rintro r s₂ ⟨rest, n', rfl, hsum', hplace', hdone'⟩
      apply wp_bind
      apply wp_modify
      apply wp_pure
      have hlower : rest < count := by
        have hfrom := hplace.resolve_left hend
        simp only [pfsBitsPerBitmapChunk] at hplace' hfrom
        omega
      refine ⟨⟨(by decide : 0 < 256), (by decide : 0 < 32), n', hsum', ?_, ?_⟩, hlower⟩
      · refine hplace'.imp id fun heq => ?_
        simp only [Nat.zero_mul, Nat.add_zero]
        exact heq
      · exact ⟨(hL.free _ _).trans hdone'.blocks, hdone'.reported, hdone'.write, hdone'.auto⟩
  · refine ⟨?_, Nat.mod_lt _ (by decide), 0, Nat.zero_add _, .inr ?_, ?_, ?_, hwrite, hauto⟩
    · simp only [pfsBitsPerBitmapChunk]
      omega
    · simp only [pfsBitsPerBitmapChunk]
      omega
    · rw [markRun_zero]
    · rfl

/-! ### Where the allocator has the bits -/

/-- Where the bitmap of a partition starts behind the first zone, for the allocator. -/
def allocBase (subpart : Nat) : Nat := if subpart = 0 then 0x2000 / 2 else 0

/-- The bits of the run are set in the bitmap of its partition, all else is as it was, and each bit that was clear is an error. -/
structure Repairs (m : Mount) (info : pfs_blockinfo_t) (V V' : Blocks) (errors : Nat) (r : Int) : Prop where
  result : r = 0
  set : ∀ z, info.number ≤ z → z < info.number + info.count →
    zoneBit m V' info.subpart (allocBase info.subpart) z = true
  kept : ∀ sub block i b, (∀ z, info.number ≤ z → z < info.number + info.count →
    ¬ IsPlace m info.subpart (allocBase info.subpart) z sub block i b) → V' sub block i b = V sub block i b
  errors : errors = clearCount m info.subpart (allocBase info.subpart) info.number info.count V

/-- The bits of the run are set both where they are and where they are taken to be. -/
def AllSet (m : Mount) (info : pfs_blockinfo_t) (V : Blocks) : Prop :=
  ∀ z, info.number ≤ z → z < info.number + info.count →
    zoneBit m V info.subpart 0 z = true ∧ zoneBit m V info.subpart (0x2000 / 2) z = true

variable {info : pfs_blockinfo_t}

theorem clearCount_eq_zero (h : ∀ z, a ≤ z → z < a + n → zoneBit m V sub base z = true) :
    clearCount m sub base a n V = 0 := by
  rw [clearCount, List.length_eq_zero_iff, List.filter_eq_nil_iff]
  intro z hz
  obtain ⟨hle, hlt⟩ := List.mem_range'_1.mp hz
  rw [h z hle hlt]
  decide

private theorem markRun_eq_self (h : ∀ z, a ≤ z → z < a + n → zoneBit m V sub base z = true) : markRun m sub base a n V = V := by
  funext sub' block i b
  rw [markRun]
  apply Bool.eq_iff_iff.mpr
  rw [Bool.or_eq_true]
  refine ⟨fun hor => hor.elim id fun hany => ?_, .inl⟩
  obtain ⟨z, hz, hplace⟩ := List.any_eq_true.mp hany
  obtain ⟨rfl, rfl, rfl, rfl⟩ := of_decide_eq_true hplace
  obtain ⟨hle, hlt⟩ := List.mem_range'_1.mp hz
  exact h z hle hlt

theorem chunkBlock_ne (hz : a ≤ z ∧ z < a + n) (hz' : a ≤ z' ∧ z' < a + n) (hn : n < 2 ^ 16) :
    chunkBlock m (0x2000 / 2) z ≠ chunkBlock m 0 z' := by
  simp only [chunkBlock, u32, pfsBitsPerBitmapChunk]
  omega

theorem repairs_main (hsub : info.subpart = 0) (hnumber : info.number < 2 ^ 32) (hcount : info.count < 2 ^ 16) :
    Repairs m info V (markRun m info.subpart (0x2000 / 2) info.number info.count V)
      (clearCount m info.subpart (0x2000 / 2) info.number info.count V) 0 := by
  have hbase : allocBase info.subpart = 0x2000 / 2 := if_pos hsub
  refine ⟨rfl, ?_, ?_, ?_⟩
  · intro z hle hlt
    rw [hbase, zoneBit_markRun m _ _ _ _ z (by omega) (by omega), decide_eq_true ⟨hle, hlt⟩, Bool.or_true]
  · intro sub block i b hnot
    rw [hbase] at hnot
    rw [markRun]
    have hany : ((List.range' info.number info.count).any fun z =>
        decide (IsPlace m info.subpart (0x2000 / 2) z sub block i b)) = false := by
      rw [List.any_eq_false]
      intro z hz
      obtain ⟨hle, hlt⟩ := List.mem_range'_1.mp hz
      rw [decide_eq_false (hnot z hle hlt)]
      decide
    rw [hany, Bool.or_false]
  · rw [hbase]

private theorem repairs_sub_iff (hsub : info.subpart ≠ 0) (hnumber : info.number < 2 ^ 32) (hcount : info.count < 2 ^ 16) :
    Repairs m info V (markRun m info.subpart (0x2000 / 2) info.number info.count V)
      (clearCount m info.subpart (0x2000 / 2) info.number info.count V) 0 ↔ AllSet m info V := by
  have hbase : allocBase info.subpart = 0 := if_neg hsub
  constructor
  · intro h z hle hlt
    constructor
    · have hset := h.set z hle hlt
      rw [hbase, zoneBit, markRun, Bool.or_eq_true] at hset
      refine hset.elim id fun hany => ?_
      obtain ⟨z', hz', hplace⟩ := List.any_eq_true.mp hany
      exact absurd (of_decide_eq_true hplace).2.1.symm
        (chunkBlock_ne (List.mem_range'_1.mp hz') ⟨hle, hlt⟩ hcount)
    · have hkept := h.kept info.subpart (chunkBlock m (0x2000 / 2) z) (z % pfsBitsPerBitmapChunk / 32) (z % 32) ?_
      · have hset := zoneBit_markRun m info.subpart (0x2000 / 2) info.number info.count z (by omega) (by omega) V
        rw [decide_eq_true ⟨hle, hlt⟩, Bool.or_true] at hset
        exact hkept.symm.trans hset
      · intro z' hle' hlt' hplace
        rw [hbase] at hplace
        exact chunkBlock_ne ⟨hle, hlt⟩ ⟨hle', hlt'⟩ hcount hplace.2.1
  · intro h
    have hself := markRun_eq_self (m := m) fun z hle hlt => (h z hle hlt).2
    rw [hself]
    refine ⟨rfl, ?_, fun _ _ _ _ _ => rfl, ?_⟩
    · intro z hle hlt
      rw [hbase]
      exact (h z hle hlt).1
    · rw [hbase, clearCount_eq_zero fun z hle hlt => (h z hle hlt).2, clearCount_eq_zero fun z hle hlt => (h z hle hlt).1]

/-- In write and automatic mode and with readable metadata the check of a run ends, and repairs exactly the right bits exactly if the run is one of the main partition, or there is nothing to repair. -/
theorem fsckCheckFileBitmap_repairs_iff (hL : Shows L view shows) (hwrite : s.fsckWriteEnabled = true)
    (hauto : s.fsckAutoMode = true) (hnumber : info.number < 2 ^ 32) (hcount : info.count < 2 ^ 16) :
    ∃ r s', Runs (fsckCheckFileBitmap L m info) s r s' ∧ s.reported ≤ s'.reported ∧
      (Repairs m info (view s.pfs) (view s'.pfs) (s'.reported - s.reported) r ↔
        info.subpart = 0 ∨ AllSet m info (view s.pfs)) := by
  obtain ⟨r, s', hrun, rfl, hdone⟩ := wp_fsckCheckFileBitmap (m := m) hL hwrite hauto hnumber hcount
  refine ⟨0, s', hrun, ?_, ?_⟩
  · rw [hdone.reported]
    exact Nat.le_add_right _ _
  · rw [hdone.reported, Nat.add_sub_cancel_left, hdone.blocks]
    by_cases hsub : info.subpart = 0
    · exact ⟨fun _ => .inl hsub, fun _ => repairs_main hsub hnumber hcount⟩
    · rw [repairs_sub_iff hsub hnumber hcount]
      exact ⟨.inr, fun hor => hor.resolve_left hsub⟩

/-! ### A store of blocks -/

/-- A cache that only hands the blocks through. -/
def blockStore : Libpfs Blocks where
  sub clink _ := clink.unpair.1
  block clink _ := clink.unpair.2
  inode _ _ := ⟨⟨0, 0, 0⟩, ⟨0, 0, 0⟩, ⟨0, 0, 0⟩, fun _ => ⟨0, 0, 0⟩, 0, 0, 0, 0, 0, 0, 0⟩
  setInode _ _ s := s
  dentry _ _ _ := ⟨0, 0, 0, 0, fun _ => 0⟩
  setDentry _ _ _ s := s
  bitmap clink i b s := s clink.unpair.1 clink.unpair.2 i b
  setBitmap clink i b s := fun sub block i' b' =>
    s sub block i' b' || decide (sub = clink.unpair.1 ∧ block = clink.unpair.2 ∧ i' = i ∧ b' = b)
  zero _ s := s
  setDirty _ s := s
  pfsCacheGetData sub block _ s := (.ok (Nat.pair sub block), s)
  pfsCacheUsedAdd _ s := s
  pfsCacheFree _ s := s
  pfsCacheFlushAllDirty s := s
  pfsInodeGetData sub block s := (.ok (Nat.pair sub block), s)
  transferRead _ _ _ s := ((0, fun _ => 0), s)
  transferWrite _ _ _ _ s := (0, s)
  flushCache s := s
  getPartError s := s
  rewind s := s
  read _ s := ((0, fun _ => 0), s)
  write _ _ s := (0, s)

theorem blockStore_shows : Shows blockStore id fun _ clink => some clink.unpair where
  get sub block s := ⟨Nat.pair sub block, s, rfl, rfl, by rw [Nat.unpair_pair]⟩
  bitmap h i b := by
    have heq := Option.some.inj h
    simp only [blockStore, heq, id]
  setBitmap h i b := by
    have heq := Option.some.inj h
    exact ⟨by simp only [blockStore, heq, id], h⟩
  setDirty h := ⟨rfl, h⟩
  free _ _ := rfl

/-- The check of a filesystem whose bitmaps are empty. -/
def emptyCheck : Check Blocks where
  pfs := fun _ _ _ _ => false
  scratch := Scratch.pfsBitmapInit (fun _ _ _ => false) fun _ => none
  IOBuffer _ := 0
  fsckWriteEnabled := true
  fsckAutoMode := true
  answers _ := false
  stop := none
  hasError := false
  status := ⟨0, 0, 0, 0, 0, 0, 0⟩
  reported := 0
  repaired := 0
  walk := []
  used := []

/-- A run of the main partition across the end of a chunk. -/
theorem fsckCheckFileBitmap_repairs_main : ∃ r s',
    Runs (fsckCheckFileBitmap blockStore plainMount ⟨8190, 0, 5⟩) emptyCheck r s' ∧
      Repairs plainMount ⟨8190, 0, 5⟩ emptyCheck.pfs s'.pfs (s'.reported - emptyCheck.reported) r := by
  obtain ⟨r, s', hrun, -, hiff⟩ := fsckCheckFileBitmap_repairs_iff (m := plainMount) (s := emptyCheck)
    blockStore_shows rfl rfl (show (pfs_blockinfo_t.mk 8190 0 5).number < 2 ^ 32 by decide) (by decide)
  exact ⟨r, s', hrun, hiff.mpr (.inl rfl)⟩

/-- One zone of a sub-partition: its bit stays clear, and one is set where the sub-partition has data. -/
theorem fsckCheckFileBitmap_not_repairs : ¬ ∀ (σ : Type) (L : Libpfs σ) (view : σ → Blocks)
    (shows : σ → Nat → Option (Nat × Nat)) (m : Mount) (s : Check σ) (info : pfs_blockinfo_t), Shows L view shows →
    s.fsckWriteEnabled = true → s.fsckAutoMode = true → info.number < 2 ^ 32 → info.count < 2 ^ 16 →
    ∃ r s', Runs (fsckCheckFileBitmap L m info) s r s' ∧
      Repairs m info (view s.pfs) (view s'.pfs) (s'.reported - s.reported) r := by
  intro h
  obtain ⟨r, s', hrun, hrepairs⟩ := h Blocks blockStore id _ plainMount emptyCheck ⟨2, 1, 1⟩ blockStore_shows
    rfl rfl (by decide) (by decide)
  obtain ⟨r', s'', hrun', rfl, hdone⟩ := wp_fsckCheckFileBitmap (m := plainMount) (s := emptyCheck)
    blockStore_shows rfl rfl (show (pfs_blockinfo_t.mk 2 1 1).number < 2 ^ 32 by decide) (by decide)
  obtain ⟨rfl, rfl⟩ := hrun.unique hrun'
  have hset := hrepairs.set 2 (Nat.le_refl 2) (by decide)
  rw [hdone.blocks] at hset
  exact absurd hset (by decide)

end HddChecker.Fsck
