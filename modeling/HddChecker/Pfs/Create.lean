import HddChecker.Pfs.Format
import HddChecker.Pfs.Search

/-!
# Making a file

`pfsInodeCreate` over the allocator: where it looks for the zones of a new inode, and what the inode then says of them.
-/

namespace HddChecker.Pfs

/-- What `pfsInodeCreate` reads of the inode of the directory; it goes on with `subpart` for each new directory. -/
structure Parent where
  subpart : Nat
  inode_block : pfs_blockinfo_t

/-- `pfsGetMaxIndex`: the partition with the largest share of free zones. -/
def pfsGetMaxIndex (m : pfs_mount_t) : Nat :=
  ((List.range (m.num_subs + 1)).foldl
    (fun x i => if x.1 < m.free_zone i * 100 / m.zones i then (m.free_zone i * 100 / m.zones i, i) else x) (0, 0)).2

/-- Where `pfsInodeCreate` begins to look for a zone for the inode. -/
def createHint (m : pfs_mount_t) (total_zones mode : Nat) (clink : Parent) : pfs_blockinfo_t × Parent :=
  if mode &&& FIO_S_IFMT = FIO_S_IFDIR then
    let subpart := if clink.subpart < m.num_subs then clink.subpart + 1 else 0
    let j := m.zfree * 100 / total_zones
    let i := m.free_zone subpart * 100 / m.zones subpart
    (⟨0, if i < j ∧ 11 ≤ j - i then pfsGetMaxIndex m else subpart, 1⟩, { clink with subpart := subpart })
  else ({ clink.inode_block with count := 1 }, clink)

/-- What a call of `pfsInodeCreate` is given besides the mount: whether there is a buffer for the inode, and the time. -/
structure CreateCall where
  clink : Parent
  mode : Nat
  uid : Nat
  gid : Nat
  total_zones : Nat
  buffer : Bool
  time : Nat × Nat

/-- `pfsInodeCreate`: the block and the words of the new inode, unless there is no buffer for it; the directory is left as `createHint` has it. There is no outcome as long as one of its searches has not ended after `passes` passes, and no search ends with `-ENOSPC`. -/
def pfsInodeCreate (passes : Nat) (c : CreateCall) (m : pfs_mount_t) :
    Option (Option (pfs_blockinfo_t × (Nat → Nat)) × pfs_mount_t) :=
  match pfsBitmapSearchFreeZone passes m (createHint m c.total_zones c.mode c.clink).1 2 with
  | none => none
  | some (a, m) =>
    if c.buffer then
      let inode := Commands.pfsInodeFill c.time a c.mode c.uid c.gid
      if c.mode &&& FIO_S_IFMT = FIO_S_IFDIR then
        match pfsBitmapSearchFreeZone passes m a 0 with
        | none => none
        | some (b, m) =>
          some (some (a, Function.update (Function.update inode 12 b.number) 13 (b.subpart + 65536 * b.count)), m)
      else some (some (a, inode), m)
    else some (none, m)

/-- The segments of an inode by its words: `number_data` of them in `data`. -/
def segments (inode : Nat → Nat) : List pfs_blockinfo_t :=
  (List.range (inode 249)).map fun k => ⟨inode (10 + 2 * k), inode (11 + 2 * k) % 65536, inode (11 + 2 * k) / 65536⟩

variable {m m' : pfs_mount_t} {bi found : pfs_blockinfo_t} {live : List pfs_blockinfo_t} {passes more max_count : Nat}
  {c : CreateCall}

theorem createHint_count (m : pfs_mount_t) (total_zones mode : Nat) (clink : Parent) :
    (createHint m total_zones mode clink).1.count = 1 := by
  unfold createHint
  split <;> rfl

theorem Taken.zfree (h : Taken bi m m') : m'.zfree = m.zfree - bi.count := by
  obtain ⟨t, hchanged, rfl⟩ := h.changed
  rw [hchanged.rest]
  rfl

theorem pfsBitmapSearchFreeZone_one (hZ : ∀ i ≤ m.num_subs, 32 ∣ m.zones i) (hbi : bi.count = 1)
    (h : pfsBitmapSearchFreeZone passes m bi max_count = some (found, m')) : found.count = 1 ∧ Taken found m m' := by
  refine ⟨?_, pfsBitmapSearchFreeZone_spec hZ h⟩
  have hstart : (if m.num_subs + 1 ≤ bi.subpart then { bi with subpart := 0 } else bi).subpart ≤ m.num_subs := by
    split
    · exact Nat.zero_le _
    · omega
  have hcount : (if m.num_subs + 1 ≤ bi.subpart then { bi with subpart := 0 } else bi).count = 1 := by
    split <;> exact hbi
  obtain ⟨b, amount, t, hsub, hb, hpos, hzones, -⟩ := searchPartitions_allocated hstart h
  have hmin := (pfsBitmapAllocZones_spec (hZ _ hsub) hzones).1
  omega

theorem pfsBitmapSearchFreeZone_more {r : pfs_blockinfo_t × pfs_mount_t}
    (h : pfsBitmapSearchFreeZone passes m bi max_count = some r) (hle : passes ≤ more) :
    pfsBitmapSearchFreeZone more m bi max_count = some r :=
  searchPartitions_more h hle

/-- A search for one zone ends where a zone is free, and only there. -/
theorem pfsBitmapSearchFreeZone_ends (hs : Sound ⟨m, live⟩) (hbi : bi.count = 1) (max_count : Nat) :
    (∃ passes r, pfsBitmapSearchFreeZone passes m bi max_count = some r) ↔ 0 < m.zfree := by
  have hwords : ∀ i ≤ m.num_subs, 32 ∣ m.zones i := hs.words
  have hcounted : Counted m := hs.counted
  constructor
  · rintro ⟨passes, ⟨found, m'⟩, h⟩
    obtain ⟨hcount, htaken⟩ := pfsBitmapSearchFreeZone_one hwords hbi h
    have hinside := htaken.inside (by omega)
    have hmem : found.number ∈ m.clear found.subpart :=
      Finset.mem_filter.mpr ⟨Finset.mem_range.mpr (by omega), htaken.free _ le_rfl (by omega)⟩
    have hpos : 0 < m.free_zone found.subpart := by
      rw [hcounted.free_zone _ htaken.subpart]
      exact Finset.card_pos.mpr ⟨_, hmem⟩
    rw [hcounted.zfree]
    exact Nat.lt_of_lt_of_le hpos
      (Finset.single_le_sum (fun _ _ => Nat.zero_le _) (Finset.mem_range.mpr (Nat.lt_succ_of_le htaken.subpart)))
  · intro hfree
    rw [hcounted.zfree] at hfree
    obtain ⟨i, hi, hne⟩ := Finset.exists_ne_zero_of_sum_ne_zero hfree.ne'
    have hle : i ≤ m.num_subs := Nat.le_of_lt_succ (Finset.mem_range.mp hi)
    have hclear : (m.clear i).Nonempty := by
      rw [← Finset.card_pos, ← hcounted.free_zone i hle]
      exact Nat.pos_of_ne_zero hne
    have hstart : (if m.num_subs + 1 ≤ bi.subpart then { bi with subpart := 0 } else bi).subpart ≤ m.num_subs := by
      split
      · exact Nat.zero_le _
      · omega
    have hcount : 1 ≤ (if m.num_subs + 1 ≤ bi.subpart then { bi with subpart := 0 } else bi).count := by
      split <;> exact hbi.ge
    obtain ⟨passes, hsome⟩ := searchPartitions_isSome hwords hcounted.free_zone
      (one_le_count hcount (if max_count < 33 then max_count else 32)) hstart hle hclear
    obtain ⟨r, hr⟩ := Option.isSome_iff_exists.mp hsome
    exact ⟨passes, r, hr⟩

theorem pfsInodeCreate_cases {result : Option (pfs_blockinfo_t × (Nat → Nat))}
    (h : pfsInodeCreate passes c m = some (result, m')) : ∃ a m₁,
      pfsBitmapSearchFreeZone passes m (createHint m c.total_zones c.mode c.clink).1 2 = some (a, m₁) ∧
        (c.buffer = false ∧ result = none ∧ m' = m₁ ∨
          c.buffer = true ∧ c.mode &&& FIO_S_IFMT ≠ FIO_S_IFDIR ∧
            result = some (a, Commands.pfsInodeFill c.time a c.mode c.uid c.gid) ∧ m' = m₁ ∨
          c.buffer = true ∧ c.mode &&& FIO_S_IFMT = FIO_S_IFDIR ∧
            ∃ b, pfsBitmapSearchFreeZone passes m₁ a 0 = some (b, m') ∧
              result = some (a, Function.update
                (Function.update (Commands.pfsInodeFill c.time a c.mode c.uid c.gid) 12 b.number) 13
                (b.subpart + 65536 * b.count))) := by
  unfold pfsInodeCreate at h
  split at h
  · cases h
  rename_i a m₁ hsearch
  refine ⟨a, m₁, hsearch, ?_⟩
  cases hbuffer : c.buffer with
  | false =>
    rw [if_neg (by simp [hbuffer])] at h
    obtain ⟨rfl, rfl⟩ := Prod.mk.inj (Option.some.inj h)
    exact .inl ⟨rfl, rfl, rfl⟩
  | true =>
    rw [if_pos hbuffer] at h
    dsimp only at h
    by_cases hdir : c.mode &&& FIO_S_IFMT = FIO_S_IFDIR
    · rw [if_pos hdir] at h
      split at h
      · cases h
      rename_i b m₂ hsecond
      obtain ⟨rfl, rfl⟩ := Prod.mk.inj (Option.some.inj h)
      exact .inr (.inr ⟨rfl, hdir, b, hsecond, rfl⟩)
    · rw [if_neg hdir] at h
      obtain ⟨rfl, rfl⟩ := Prod.mk.inj (Option.some.inj h)
      exact .inr (.inl ⟨rfl, hdir, rfl, rfl⟩)

/-- The zones a call takes: one for the inode, and one for the entries of a directory. -/
def CreateCall.zones (c : CreateCall) : Nat := if c.buffer ∧ c.mode &&& FIO_S_IFMT = FIO_S_IFDIR then 2 else 1

theorem pfsInodeCreate_returns (c : CreateCall) (hs : Sound ⟨m, live⟩) (hzones : c.zones ≤ m.zfree) :
    ∃ passes out, pfsInodeCreate passes c m = some out := by
  have hwords : ∀ i ≤ m.num_subs, 32 ∣ m.zones i := hs.words
  have hhint := createHint_count m c.total_zones c.mode c.clink
  have hpos : 0 < m.zfree := by
    unfold CreateCall.zones at hzones
    split at hzones <;> omega
  obtain ⟨passes, ⟨a, m₁⟩, hsearch⟩ := (pfsBitmapSearchFreeZone_ends hs hhint 2).mpr hpos
  obtain ⟨hcount, htaken⟩ := pfsBitmapSearchFreeZone_one hwords hhint hsearch
  by_cases htwo : c.buffer ∧ c.mode &&& FIO_S_IFMT = FIO_S_IFDIR
  · rw [CreateCall.zones, if_pos htwo] at hzones
    have hleft : 0 < m₁.zfree := by
      rw [htaken.zfree]
      omega
    obtain ⟨passes', ⟨b, m₂⟩, hsecond⟩ := (pfsBitmapSearchFreeZone_ends (htaken.sound hs) hcount 0).mpr hleft
    refine ⟨max passes passes', ?_⟩
    unfold pfsInodeCreate
    rw [pfsBitmapSearchFreeZone_more hsearch (Nat.le_max_left ..)]
    dsimp only
    rw [if_pos htwo.1, if_pos htwo.2, pfsBitmapSearchFreeZone_more hsecond (Nat.le_max_right ..)]
    exact ⟨_, rfl⟩
  · refine ⟨passes, ?_⟩
    unfold pfsInodeCreate
    rw [hsearch]
    dsimp only
    by_cases hbuffer : c.buffer = true
    · rw [if_pos hbuffer, if_neg fun hdir => htwo ⟨hbuffer, hdir⟩]
      exact ⟨_, rfl⟩
    · rw [if_neg hbuffer]
      exact ⟨_, rfl⟩

/-- `pfsInodeCreate` returns where the zones it takes are free, and only there: on a filesystem without them it searches for ever. -/
theorem pfsInodeCreate_ends (c : CreateCall) (hs : Sound ⟨m, live⟩) :
    (∃ passes out, pfsInodeCreate passes c m = some out) ↔ c.zones ≤ m.zfree := by
  refine ⟨?_, pfsInodeCreate_returns c hs⟩
  have hwords : ∀ i ≤ m.num_subs, 32 ∣ m.zones i := hs.words
  have hhint := createHint_count m c.total_zones c.mode c.clink
  rintro ⟨passes, ⟨result, m'⟩, h⟩
  obtain ⟨a, m₁, hsearch, hcases⟩ := pfsInodeCreate_cases h
  have hpos : 0 < m.zfree := (pfsBitmapSearchFreeZone_ends hs hhint 2).mp ⟨passes, _, hsearch⟩
  obtain ⟨hcount, htaken⟩ := pfsBitmapSearchFreeZone_one hwords hhint hsearch
  unfold CreateCall.zones
  split_ifs with htwo
  · rcases hcases with ⟨hbuffer, -, -⟩ | ⟨-, hfile, -⟩ | ⟨-, -, b, hsecond, -⟩
    · rw [hbuffer] at htwo
      exact absurd htwo.1 (by decide)
    · exact absurd htwo.2 hfile
    · have hleft : 0 < m₁.zfree :=
        (pfsBitmapSearchFreeZone_ends (htaken.sound hs) hcount 0).mp ⟨passes, _, hsecond⟩
      rw [htaken.zfree] at hleft
      omega
  · exact hpos

/-- A filesystem of one partition with 32 zones, all of them free. -/
def roomyMount : pfs_mount_t where
  getSize := fun i => if i = 0 then 32 else 0
  sector_scale := 0
  inode_scale := 1
  pfsBlockSize := 1
  num_subs := 0
  free_zone := fun _ => 32
  zfree := 32
  bits := fun _ _ _ _ => false

/-- A directory is to be made in one at zone 5. -/
def mkdir : CreateCall := ⟨⟨0, ⟨5, 0, 1⟩⟩, 0x11FF, 0, 0, 32, true, (0, 0)⟩

theorem roomyMount_sound : Sound ⟨roomyMount, []⟩ := by
  refine ⟨by decide, ⟨fun i hi => ?_, by decide⟩, by simp, List.Pairwise.nil⟩
  obtain rfl := Nat.le_zero.mp hi
  decide

/-- Two zones are free for a directory. -/
theorem pfsInodeCreate_ends_roomy : ∃ passes out, pfsInodeCreate passes mkdir roomyMount = some out :=
  (pfsInodeCreate_ends mkdir roomyMount_sound).mpr (by decide)

/-! ### What is taken -/

section Segments

variable {a b : pfs_blockinfo_t} {time : Nat × Nat} {mode uid gid : Nat}

theorem segment_eq (ha : a.subpart < 65536) :
    (⟨a.number, (a.subpart + 65536 * a.count) % 65536, (a.subpart + 65536 * a.count) / 65536⟩ : pfs_blockinfo_t) = a := by
  obtain ⟨number, subpart, count⟩ := a
  dsimp only at ha
  have hsubpart : (subpart + 65536 * count) % 65536 = subpart := by omega
  have hcount : (subpart + 65536 * count) / 65536 = count := by omega
  dsimp only
  rw [hsubpart, hcount]

private theorem segments_file (hmode : mode &&& FIO_S_IFMT ≠ FIO_S_IFDIR) (ha : a.subpart < 65536) :
    segments (Commands.pfsInodeFill time a mode uid gid) = [a] := by
  have hdata : Commands.pfsInodeFill time a mode uid gid 249 = 1 := if_neg hmode
  rw [segments, hdata]
  exact congrArg (fun x => [x]) (segment_eq ha)

private theorem segments_directory (hmode : mode &&& FIO_S_IFMT = FIO_S_IFDIR) (ha : a.subpart < 65536)
    (hb : b.subpart < 65536) :
    segments (Function.update (Function.update (Commands.pfsInodeFill time a mode uid gid) 12 b.number) 13
      (b.subpart + 65536 * b.count)) = [a, b] := by
  have hdata : Function.update (Function.update (Commands.pfsInodeFill time a mode uid gid) 12 b.number) 13
      (b.subpart + 65536 * b.count) 249 = 2 := by
    rw [Function.update_of_ne (by decide), Function.update_of_ne (by decide)]
    exact if_pos hmode
  rw [segments, hdata]
  exact congrArg₂ (fun x y => [x, y]) (segment_eq ha) (segment_eq hb)

end Segments

theorem Taken.zone_iff (h : Taken bi m m') (hbi : bi.count = 1) (s p : Nat) :
    m'.zone s p = true ↔ m.zone s p = true ∨ s = bi.subpart ∧ p = bi.number := by
  rw [h.allocates.zone]
  split_ifs with hin
  · exact iff_of_true rfl (.inr ⟨hin.1, by omega⟩)
  · constructor
    · exact .inl
    · rintro (hzone | ⟨hs, hp⟩)
      · exact hzone
      · exact absurd ⟨hs, by omega, by omega⟩ hin

/-- What a new inode of the mode says of the zones it has, two for a directory and one for any other file: they were free and are now taken, and nothing else has changed. -/
structure Creates (live : List pfs_blockinfo_t) (mode : Nat) (m m' : pfs_mount_t) (a : pfs_blockinfo_t)
    (inode : Nat → Nat) : Prop where
  first : (segments inode).head? = some a
  length : (segments inode).length = if mode &&& FIO_S_IFMT = FIO_S_IFDIR then 2 else 1
  single : ∀ bi ∈ segments inode, bi.count = 1
  sound : Sound ⟨m', (segments inode).reverse ++ live⟩
  free : ∀ bi ∈ segments inode, m.zone bi.subpart bi.number = false
  taken : ∀ s p, m'.zone s p = true ↔ m.zone s p = true ∨ ∃ bi ∈ segments inode, s = bi.subpart ∧ p = bi.number
  blocks : ((segments inode).map pfs_blockinfo_t.count).sum = inode 248
  zfree : m'.zfree + inode 248 = m.zfree

theorem pfsInodeCreate_leaks (hs : Sound ⟨m, live⟩) (h : pfsInodeCreate passes c m = some (none, m')) :
    ∃ a, a.count = 1 ∧ Taken a m m' := by
  have hwords : ∀ i ≤ m.num_subs, 32 ∣ m.zones i := hs.words
  obtain ⟨a, m₁, hsearch, ⟨-, -, rfl⟩ | ⟨-, -, hresult, -⟩ | ⟨-, -, b, -, hresult⟩⟩ := pfsInodeCreate_cases h
  · exact ⟨a, pfsBitmapSearchFreeZone_one hwords (createHint_count m c.total_zones c.mode c.clink) hsearch⟩
  · cases hresult
  · cases hresult

private theorem pfsInodeCreate_buffer (hbuffer : c.buffer = true) : pfsInodeCreate passes c m ≠ some (none, m') := by
  intro h
  obtain ⟨a, m₁, -, ⟨hnone, -⟩ | ⟨-, -, hresult, -⟩ | ⟨-, -, b, -, hresult⟩⟩ := pfsInodeCreate_cases h
  · rw [hbuffer] at hnone
    cases hnone
  · cases hresult
  · cases hresult

section Creation

variable {m₁ : pfs_mount_t} {a b : pfs_blockinfo_t} {time : Nat × Nat} {mode uid gid : Nat}

private theorem creates_file (hs : Sound ⟨m, live⟩) (hsubs : m.num_subs < 65536) (hmode : mode &&& FIO_S_IFMT ≠ FIO_S_IFDIR)
    (hfree : 0 < m.zfree) (ha : a.count = 1) (htaken : Taken a m m') :
    Creates live mode m m' a (Commands.pfsInodeFill time a mode uid gid) := by
  have hsegments := @segments_file a time mode uid gid hmode (Nat.lt_of_le_of_lt htaken.subpart hsubs)
  have hblocks : Commands.pfsInodeFill time a mode uid gid 248 = 1 := if_neg hmode
  constructor
  case first => rw [hsegments]; rfl
  case length => rw [hsegments, if_neg hmode]; rfl
  case single =>
    rw [hsegments]
    intro bi hbi
    obtain rfl := List.mem_singleton.mp hbi
    exact ha
  case sound =>
    rw [hsegments]
    exact htaken.sound hs
  case free =>
    rw [hsegments]
    intro bi hbi
    obtain rfl := List.mem_singleton.mp hbi
    exact htaken.free _ le_rfl (by omega)
  case taken =>
    intro s p
    rw [hsegments, htaken.zone_iff ha]
    simp only [List.mem_singleton, exists_eq_left]
  case blocks =>
    rw [hsegments, hblocks, List.map_cons, ha]
    rfl
  case zfree =>
    rw [hblocks, htaken.zfree]
    omega

private theorem creates_directory (hs : Sound ⟨m, live⟩) (hsubs : m.num_subs < 65536) (hmode : mode &&& FIO_S_IFMT = FIO_S_IFDIR)
    (hfree : 0 < m₁.zfree) (ha : a.count = 1) (htaken : Taken a m m₁) (hb : b.count = 1) (htaken' : Taken b m₁ m') :
    Creates live mode m m' a (Function.update (Function.update (Commands.pfsInodeFill time a mode uid gid) 12 b.number) 13
      (b.subpart + 65536 * b.count)) := by
  have hsub := htaken'.subpart
  rw [htaken.num_subs] at hsub
  have hsegments := @segments_directory a b time mode uid gid hmode (Nat.lt_of_le_of_lt htaken.subpart hsubs)
    (Nat.lt_of_le_of_lt hsub hsubs)
  have hblocks : Function.update (Function.update (Commands.pfsInodeFill time a mode uid gid) 12 b.number) 13
      (b.subpart + 65536 * b.count) 248 = 2 := by
    rw [Function.update_of_ne (by decide), Function.update_of_ne (by decide)]
    exact if_pos hmode
  constructor
  case first => rw [hsegments]; rfl
  case length => rw [hsegments, if_pos hmode]; rfl
  case single =>
    rw [hsegments]
    intro bi hbi
    rcases List.mem_cons.mp hbi with rfl | hbi
    · exact ha
    · obtain rfl := List.mem_singleton.mp hbi
      exact hb
  case sound =>
    rw [hsegments]
    exact htaken'.sound (htaken.sound hs)
  case free =>
    rw [hsegments]
    intro bi hbi
    rcases List.mem_cons.mp hbi with rfl | hbi
    · exact htaken.free _ le_rfl (by omega)
    · -- a zone that is free behind the first search was free before it
      obtain rfl := List.mem_singleton.mp hbi
      by_contra hused
      have hstill := htaken.used (Bool.eq_true_of_not_eq_false hused)
      rw [htaken'.free _ le_rfl (by omega)] at hstill
      cases hstill
  case taken =>
    intro s p
    rw [hsegments, htaken'.zone_iff hb, htaken.zone_iff ha]
    simp only [List.mem_cons, List.not_mem_nil, or_false, exists_eq_or_imp, exists_eq_left, or_assoc]
  case blocks =>
    rw [hsegments, hblocks, List.map_cons, List.map_cons, ha, hb]
    rfl
  case zfree =>
    have hzfree := htaken.zfree
    rw [hblocks, htaken'.zfree]
    omega

end Creation

/-- A new file has a zone and a new directory two, which no other block has; the counters and the words of the inode agree with the bitmap. -/
theorem pfsInodeCreate_creates (hs : Sound ⟨m, live⟩) (hsubs : m.num_subs < 65536) {a : pfs_blockinfo_t}
    {inode : Nat → Nat} (h : pfsInodeCreate passes c m = some (some (a, inode), m')) :
    Creates live c.mode m m' a inode := by
  have hwords : ∀ i ≤ m.num_subs, 32 ∣ m.zones i := hs.words
  have hhint := createHint_count m c.total_zones c.mode c.clink
  obtain ⟨a₁, m₁, hsearch, hcases⟩ := pfsInodeCreate_cases h
  obtain ⟨hcount, htaken⟩ := pfsBitmapSearchFreeZone_one hwords hhint hsearch
  rcases hcases with ⟨-, hresult, -⟩ | ⟨-, hfile, hresult, rfl⟩ | ⟨-, hdir, b, hsecond, hresult⟩
  · cases hresult
  · obtain ⟨rfl, rfl⟩ := Prod.mk.inj (Option.some.inj hresult)
    have hfree : 0 < m.zfree := (pfsBitmapSearchFreeZone_ends hs hhint 2).mp ⟨passes, _, hsearch⟩
    exact creates_file hs hsubs hfile hfree hcount htaken
  · obtain ⟨rfl, rfl⟩ := Prod.mk.inj (Option.some.inj hresult)
    have hsound := htaken.sound hs
    have hwords' : ∀ i ≤ m₁.num_subs, 32 ∣ m₁.zones i := hsound.words
    have hleft : 0 < m₁.zfree := (pfsBitmapSearchFreeZone_ends hsound hcount 0).mp ⟨passes, _, hsecond⟩
    obtain ⟨hcount', htaken'⟩ := pfsBitmapSearchFreeZone_one hwords' hcount hsecond
    exact creates_directory hs hsubs hdir hleft hcount htaken hcount' htaken'

theorem pfsInodeCreate_creates_roomy : ∃ a inode m', Creates [] 0x11FF roomyMount m' a inode := by
  obtain ⟨passes, ⟨result, m'⟩, hrun⟩ := pfsInodeCreate_returns mkdir roomyMount_sound (by decide)
  cases result with
  | none => exact absurd hrun (pfsInodeCreate_buffer rfl)
  | some made => exact ⟨made.1, made.2, m', pfsInodeCreate_creates roomyMount_sound (by decide) hrun⟩

end HddChecker.Pfs
