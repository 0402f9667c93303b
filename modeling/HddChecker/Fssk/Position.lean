import HddChecker.Fssk.Relocate

/-!
# Positions in a directory

A position is a slot of a directory, a zone of its run and a byte of that zone. `pfsInodeSync` moves it on by a number of bytes, over as many runs and descriptors as it takes. What it keeps is the place of the zone among all data zones: each pass takes off `i` what a slot has, and the slot of a descriptor, which has no data, is made up for by one zone.
-/

namespace HddChecker.Fssk

open HddChecker Prog Pfs

structure pfs_blockpos_t where
  inode : Option pfs_cache_t
  block_segment : Nat
  block_offset : Nat
  byte_offset : Nat
  deriving DecidableEq, Repr

/-- `zsize`, of which `inode_scale` is the scale in blocks of metadata. -/
def zsize (m : pfs_mount_t) : Nat := 1024 * 2 ^ m.inode_scale

variable {α : Type}

def pfsBlockSyncPos (m : pfs_mount_t) (blockpos : pfs_blockpos_t) (size : Nat) : Nat × pfs_blockpos_t :=
  let i := u32 (size / zsize m)
  let byte_offset := u32 (blockpos.byte_offset + size % zsize m)
  if zsize m ≤ byte_offset then (u32 (i + 1), { blockpos with byte_offset := byte_offset - zsize m })
  else (i, { blockpos with byte_offset := byte_offset })

/-- A pass of the loop of `pfsInodeSync`. At the end of the last segment the offset is the length of the segment. -/
def syncPass (used_segments : Nat) (x : Nat × pfs_blockpos_t) :
    Prog (Volume α) ((Nat × pfs_blockpos_t) ⊕ (Int × pfs_blockpos_t)) := do
  let (i, blockpos) := x
  if i = 0 then return .inr (0, blockpos)
  else
    match blockpos.inode with
    | none => crash
    | some clink =>
      let inode ← inodeOf clink
      let count := (inode.data (pfsFixIndex blockpos.block_segment)).count
      let i := u32 (i + blockpos.block_offset)
      if i < count then return .inr (0, { blockpos with block_offset := i })
      else
        let i := i - count
        let last := u32 (blockpos.block_segment + 1) = used_segments
        if last ∧ (i ≠ 0 ∨ blockpos.byte_offset ≠ 0) then
          return .inr (- EINVAL, { blockpos with block_offset := count })
        else
          let blockpos := if last then { blockpos with block_offset := count }
            else { blockpos with block_offset := 0, block_segment := u32 (blockpos.block_segment + 1) }
          if pfsFixIndex blockpos.block_segment ≠ 0 then return .inl (i, blockpos)
          else
            match ← pfsBlockGetNextSegment clink with
            | .error result => return .inr (result, { blockpos with inode := none })
            | .ok next => return .inl (u32 (i + 1), { blockpos with inode := some next })

def pfsInodeSync (blockpos : pfs_blockpos_t) (size used_segments : Nat) :
    Prog (Volume α) (Int × pfs_blockpos_t) := do
  let v ← Prog.read id
  loop (syncPass used_segments) (pfsBlockSyncPos v.mount blockpos size)

/-- The block of a byte of a zone. -/
def Volume.chunk (v : Volume α) (zone : Nat × Nat) (byte : Nat) : pfs_cache_t :=
  ⟨zone.1, u32 (u32 (u32 zone.2 * 2 ^ v.mount.inode_scale) + byte / 1024)⟩

def pfsGetDentriesChunk (position : pfs_blockpos_t) : Prog (Volume α) (Except Int pfs_cache_t) :=
  match position.inode with
  | none => crash
  | some clink => do
    let v ← Prog.read id
    let bi := (v.inode clink).data (pfsFixIndex position.block_segment)
    let chunk := v.chunk (bi.subpart, bi.number + position.block_offset) position.byte_offset
    match ← pfsCacheGetData chunk false with
    | .ok () => return .ok chunk
    | .error result => return .error result

/-- One step of `pfsInodeSync` after the other, until one fails. -/
def syncAll (used_segments : Nat) : List Nat → pfs_blockpos_t → Prog (Volume α) (Int × pfs_blockpos_t)
  | [], blockpos => return (0, blockpos)
  | size :: sizes, blockpos => do
    let (result, blockpos) ← pfsInodeSync blockpos size used_segments
    if result = 0 then syncAll used_segments sizes blockpos else return (result, blockpos)

/-- Where the walk of a directory begins. -/
def firstPosition (c : pfs_cache_t) : pfs_blockpos_t := ⟨some c, 1, 0, 0⟩

/-! ### Data zones -/

namespace Volume

variable (v : Volume α) (c : pfs_cache_t)

def descriptorBuf : Nat → pfs_cache_t
  | 0 => c
  | k + 1 => v.place (v.inode (descriptorBuf k)).next_segment.subpart
      (v.inode (descriptorBuf k)).next_segment.number

theorem descriptor_eq (k : Nat) : v.descriptor c k = v.inode (v.descriptorBuf c k) := by
  induction k with
  | zero => rfl
  | succ k ih => rw [descriptor, ih, descriptorBuf, inodeAt]

/-- The data zones of a slot. -/
def slotZones (index : Nat) : List (Nat × Nat) :=
  if pfsFixIndex index = 0 then []
  else (List.range (v.slot c index).count).map fun k => ((v.slot c index).subpart, (v.slot c index).number + k)

/-- The data zones of the slots before one. -/
def zonesBefore (index : Nat) : List (Nat × Nat) := (List.range index).flatMap (v.slotZones c)

/-- The data zones of an inode, in the order of its slots. -/
def dataZones : List (Nat × Nat) := v.zonesBefore c (v.inode c).number_data

/-- The chain of descriptors is well formed. The counts of the inode are `u32`. -/
structure Chained : Prop where
  descriptor : ∀ index < (v.inode c).number_data, pfsFixIndex index = 0 → (v.slot c index).count = 1
  data : ∀ index < (v.inode c).number_data, pfsFixIndex index ≠ 0 → 0 < (v.slot c index).count
  chain : ∀ k < level ((v.inode c).number_data - 1), (v.descriptor c k).next_segment.number ≠ 0
  slots : (v.inode c).number_data < 2 ^ 32
  zones : (v.dataZones c).length < 2 ^ 32

/-- Blocks of metadata can be had: transfers succeed, and besides those of others there is a buffer for the descriptor and one for the entries. -/
structure Reads (held : List pfs_cache_t) : Prop where
  outcomes : v.outcomes = fun _ => none
  room : held.dedup.length + 1 < v.pfsCacheNumBuffers

/-- The same volume with other buffers in use. -/
def holding (held : List pfs_cache_t) : Volume α := { v with held := held }

end Volume

variable {v : Volume α} {c b : pfs_cache_t} {p p' : pfs_blockpos_t} {held : List pfs_cache_t} {i k t T size : Nat}

/-! ### Slots -/

private theorem level_data (h : pfsFixIndex (k + 1) ≠ 0) : level (k + 1) = level k := by
  unfold pfsFixIndex level at *
  simp only [PFS_INODE_MAX_BLOCKS] at *
  split at h <;> split <;> split <;> omega

private theorem level_descriptor (h : pfsFixIndex (k + 1) = 0) : level (k + 1) = level k + 1 := by
  unfold pfsFixIndex level at *
  simp only [PFS_INODE_MAX_BLOCKS] at *
  split at h <;> split <;> split <;> omega

private theorem level_mono {j : Nat} (h : j ≤ k) : level j ≤ level k := by
  unfold level
  simp only [PFS_INODE_MAX_BLOCKS]
  split <;> split <;> omega

theorem slot_eq (v : Volume α) (c : pfs_cache_t) (k : Nat) :
    v.slot c k = (v.inode (v.descriptorBuf c (level k))).data (pfsFixIndex k) := by
  rw [Volume.slot, Volume.descriptor_eq]

theorem zonesBefore_succ (v : Volume α) (c : pfs_cache_t) (k : Nat) :
    v.zonesBefore c (k + 1) = v.zonesBefore c k ++ v.slotZones c k := by
  rw [Volume.zonesBefore, List.range_succ, List.flatMap_append, List.flatMap_singleton, Volume.zonesBefore]

theorem length_zonesBefore_descriptor (h : pfsFixIndex k = 0) :
    (v.zonesBefore c (k + 1)).length = (v.zonesBefore c k).length := by
  rw [zonesBefore_succ, Volume.slotZones, if_pos h, List.append_nil]

theorem length_zonesBefore_data (h : pfsFixIndex k ≠ 0) :
    (v.zonesBefore c (k + 1)).length = (v.zonesBefore c k).length + (v.slot c k).count := by
  rw [zonesBefore_succ, Volume.slotZones, if_neg h, List.length_append, List.length_map, List.length_range]

theorem zonesBefore_mono (v : Volume α) (c : pfs_cache_t) {j : Nat} (h : j ≤ k) :
    v.zonesBefore c j <+: v.zonesBefore c k := by
  induction k, h using Nat.le_induction with
  | base => exact List.prefix_rfl
  | succ k _ ih =>
    rw [zonesBefore_succ]
    exact ih.trans (List.prefix_append _ _)

/-- The position `p` is that of the data zone `t`. -/
structure Stands (v : Volume α) (c : pfs_cache_t) (t : Nat) (p : pfs_blockpos_t) : Prop where
  inode : p.inode = some (v.descriptorBuf c (level p.block_segment))
  slot : p.block_segment < (v.inode c).number_data
  data : pfsFixIndex p.block_segment ≠ 0
  offset : p.block_offset < (v.slot c p.block_segment).count
  zone : (v.zonesBefore c p.block_segment).length + p.block_offset = t

/-- The position names its zone. -/
theorem Stands.getElem (h : Stands v c t p) :
    (v.dataZones c)[t]? = some ((v.slot c p.block_segment).subpart,
      (v.slot c p.block_segment).number + p.block_offset) := by
  obtain ⟨L, hL⟩ := zonesBefore_mono v c h.slot
  have hzones : v.slotZones c p.block_segment = (List.range (v.slot c p.block_segment).count).map fun k =>
      ((v.slot c p.block_segment).subpart, (v.slot c p.block_segment).number + k) := if_neg h.data
  have hoffset := h.offset
  rw [Volume.dataZones, ← hL, zonesBefore_succ, ← h.zone, List.append_assoc,
    List.getElem?_append_right (Nat.le_add_right _ _), Nat.add_sub_cancel_left, hzones,
    List.getElem?_append_left (by rwa [List.length_map, List.length_range]), List.getElem?_map,
    List.getElem?_range hoffset]
  rfl

/-- There is one position of a zone, up to the byte. -/
theorem Stands.unique (h : Stands v c t p) (h' : Stands v c t p') (hbyte : p.byte_offset = p'.byte_offset) :
    p = p' := by
  have hle : ∀ {q q' : pfs_blockpos_t}, Stands v c t q → Stands v c t q' → q.block_segment ≤ q'.block_segment := by
    intro q q' hq hq'
    by_contra hlt
    have hpre := (zonesBefore_mono v c (Nat.lt_of_not_le hlt)).length_le
    rw [length_zonesBefore_data hq'.data] at hpre
    have hoffset := hq'.offset
    have hzone := hq.zone
    have hzone' := hq'.zone
    omega
  have hsegment := Nat.le_antisymm (hle h h') (hle h' h)
  have hzone := h.zone.trans h'.zone.symm
  rw [hsegment, Nat.add_left_cancel_iff] at hzone
  obtain ⟨inode, segment, offset, byte⟩ := p
  obtain ⟨inode', segment', offset', byte'⟩ := p'
  have hinode := h.inode.trans (hsegment ▸ h'.inode.symm)
  simp only at hsegment hzone hbyte hinode
  rw [hsegment, hzone, hbyte, hinode]

/-! ### The passes -/

theorem runs_pfsCacheGetData (houtcomes : v.outcomes = fun _ => none)
    (hroom : held.dedup.length < v.pfsCacheNumBuffers) (b : pfs_cache_t) :
    Runs (pfsCacheGetData b false) (v.holding held) (.ok ()) (v.holding (b :: held)) := by
  have hlater : (v.holding held).later = v.holding held := by
    simp only [Volume.later, Volume.holding, houtcomes]
  have hfull : (v.holding held).pfsCacheIsFull = false := decide_eq_false (Nat.not_le.mpr hroom)
  have hout : (v.holding held).outcomes 0 = none := congrFun houtcomes 0
  refine ⟨0, ?_⟩
  unfold pfsCacheGetData
  by_cases hmem : b ∈ (v.holding held).held
  · simp only [ofState, hmem, if_true]
    rfl
  · simp only [ofState, hmem, hfull, hout, hlater, if_false, Bool.false_eq_true]
    rfl

private theorem runs_pfsBlockGetNextSegment (hr : v.Reads held) (hnext : (v.inode b).next_segment.number ≠ 0) :
    Runs (pfsBlockGetNextSegment b) (v.holding (b :: held))
      (.ok (v.place (v.inode b).next_segment.subpart (v.inode b).next_segment.number))
      (v.holding (v.place (v.inode b).next_segment.subpart (v.inode b).next_segment.number :: held)) := by
  unfold pfsBlockGetNextSegment
  refine (runs_ofState _ _).bind ?_
  refine (runs_ofState _ _).bind ?_
  have herase : (v.holding (b :: held)).held.erase b = held := List.erase_cons_head ..
  simp only [herase]
  have hb : (v.holding (b :: held)).inode b = v.inode b := rfl
  simp only [hb, hnext, ne_eq, not_false_eq_true, if_true]
  refine (runs_ofState _ _).bind ?_
  refine Runs.bind (runs_pfsCacheGetData hr.outcomes (Nat.lt_of_succ_lt hr.room) _) ?_
  exact runs_pure _ _

section Passes

variable {count j m s used : Nat} (hi : i ≠ 0) (hsum : u32 (i + p.block_offset) = j)

include hi hsum

private theorem runs_syncPass_done (x : Volume α) (hinode : p.inode = some b)
    (hcount : ((x.inode b).data (pfsFixIndex p.block_segment)).count = count) (hlt : j < count) :
    Runs (syncPass used (i, p)) x (.inr (0, { p with block_offset := j })) x := by
  unfold syncPass
  simp only [hi, if_false, hinode]
  refine (runs_ofState _ x).bind ?_
  simp only [hcount, hsum, hlt, if_true]
  exact runs_pure _ _

variable (hsucc : u32 (p.block_segment + 1) = s) (hlast : s ≠ used) (hge : ¬ j < count)

include hsucc hlast hge

private theorem runs_syncPass_data (x : Volume α) (hinode : p.inode = some b)
    (hcount : ((x.inode b).data (pfsFixIndex p.block_segment)).count = count) (hdata : pfsFixIndex s ≠ 0) :
    Runs (syncPass used (i, p)) x (.inl (j - count, ⟨some b, s, 0, p.byte_offset⟩)) x := by
  unfold syncPass
  simp only [hi, if_false, hinode]
  refine (runs_ofState _ x).bind ?_
  simp only [hcount, hsum, hge, hsucc, hlast, false_and, if_false, ne_eq, hdata, not_false_eq_true, if_true]
  exact runs_pure _ _

private theorem runs_syncPass_descriptor (hr : v.Reads held) (hinode : p.inode = some b)
    (hcount : ((v.inode b).data (pfsFixIndex p.block_segment)).count = count) (hdescriptor : pfsFixIndex s = 0)
    (hnext : (v.inode b).next_segment.number ≠ 0) {next : pfs_cache_t}
    (hplace : v.place (v.inode b).next_segment.subpart (v.inode b).next_segment.number = next)
    (hwrap : u32 (j - count + 1) = m) :
    Runs (syncPass used (i, p)) (v.holding (b :: held)) (.inl (m, ⟨some next, s, 0, p.byte_offset⟩))
      (v.holding (next :: held)) := by
  unfold syncPass
  simp only [hi, if_false, hinode]
  refine (runs_ofState _ _).bind ?_
  have hcount' : (((v.holding (b :: held)).inode b).data (pfsFixIndex p.block_segment)).count = count := hcount
  simp only [hcount', hsum, hge, hsucc, hlast, false_and, if_false, ne_eq, hdescriptor, not_true_eq_false]
  refine (runs_pfsBlockGetNextSegment hr hnext).bind ?_
  rw [hplace, hwrap]
  exact runs_pure _ _

end Passes

/-- The loop comes to the zone `t`. The slot of a descriptor is passed with one zone more. -/
private theorem runs_syncPasses (hc : v.Chained c) (hr : v.Reads held)
    (hinode : p.inode = some (v.descriptorBuf c (level p.block_segment)))
    (hslot : p.block_segment < (v.inode c).number_data)
    (hin : p.block_offset < (v.slot c p.block_segment).count)
    (hzone : (v.zonesBefore c p.block_segment).length + p.block_offset + i =
      t + if pfsFixIndex p.block_segment = 0 then 1 else 0)
    (hskip : pfsFixIndex p.block_segment = 0 → i ≠ 0) (ht : t < (v.dataZones c).length) :
    ∃ q, Runs (loop (syncPass (v.inode c).number_data) (i, p))
      (v.holding (v.descriptorBuf c (level p.block_segment) :: held)) (0, q)
        (v.holding (v.descriptorBuf c (level q.block_segment) :: held)) ∧
      Stands v c t q ∧ q.byte_offset = p.byte_offset := by
  induction hn : (v.inode c).number_data - p.block_segment generalizing p i with
  | zero => omega
  | succ n ih =>
    by_cases hi : i = 0
    · have hdata : pfsFixIndex p.block_segment ≠ 0 := fun h => hskip h hi
      rw [if_neg hdata, hi] at hzone
      refine ⟨p, Runs.done ?_, ⟨hinode, hslot, hdata, hin, hzone⟩, rfl⟩
      rw [hi]
      exact runs_pure _ _
    · have hzones := hc.zones
      have hslots := hc.slots
      have hcount := congrArg (·.count) (slot_eq v c p.block_segment).symm
      have hsum : u32 (i + p.block_offset) = i + p.block_offset := by
        apply Nat.mod_eq_of_lt
        split at hzone <;> omega
      have hsucc : u32 (p.block_segment + 1) = p.block_segment + 1 := Nat.mod_eq_of_lt (by omega)
      by_cases hlt : i + p.block_offset < (v.slot c p.block_segment).count
      · -- the slot of a descriptor has a single zone, which is passed
        have hdata : pfsFixIndex p.block_segment ≠ 0 := by
          intro h
          have hone := hc.descriptor _ hslot h
          omega
        rw [if_neg hdata] at hzone
        refine ⟨{ p with block_offset := i + p.block_offset }, ?_, ⟨hinode, hslot, hdata, hlt, ?_⟩, rfl⟩
        · exact (runs_syncPass_done hi hsum (v.holding (v.descriptorBuf c (level p.block_segment) :: held)) hinode hcount
            hlt).done
        · simp only
          omega
      · have hbefore : (v.zonesBefore c (p.block_segment + 1)).length + (i + p.block_offset -
            (v.slot c p.block_segment).count) = t := by
          by_cases hdescriptor : pfsFixIndex p.block_segment = 0
          · have hone := hc.descriptor _ hslot hdescriptor
            rw [if_pos hdescriptor] at hzone
            rw [length_zonesBefore_descriptor hdescriptor]
            omega
          · rw [if_neg hdescriptor] at hzone
            rw [length_zonesBefore_data hdescriptor]
            omega
        have hlast : p.block_segment + 1 ≠ (v.inode c).number_data := by
          intro heq
          rw [heq] at hbefore
          have hlen : (v.zonesBefore c (v.inode c).number_data).length = (v.dataZones c).length := rfl
          omega
        have hslot' : p.block_segment + 1 < (v.inode c).number_data := by omega
        have hpos : 0 < (v.slot c (p.block_segment + 1)).count := by
          by_cases h : pfsFixIndex (p.block_segment + 1) = 0
          · exact (hc.descriptor _ hslot' h).symm ▸ Nat.one_pos
          · exact hc.data _ hslot' h
        by_cases hnext : pfsFixIndex (p.block_segment + 1) = 0
        · have hlevel := level_descriptor hnext
          have hmono := level_mono (show p.block_segment + 1 ≤ (v.inode c).number_data - 1 by omega)
          have hnumber := hc.chain (level p.block_segment) (by omega)
          rw [Volume.descriptor_eq] at hnumber
          have hwrap : u32 (i + p.block_offset - (v.slot c p.block_segment).count + 1) =
              i + p.block_offset - (v.slot c p.block_segment).count + 1 := Nat.mod_eq_of_lt (by omega)
          have hpass := runs_syncPass_descriptor hi hsum hsucc hlast hlt hr hinode hcount hnext hnumber
            (show _ = v.descriptorBuf c (level p.block_segment + 1) from rfl) hwrap
          rw [← hlevel] at hpass
          obtain ⟨q, hrun, hq, hbyte⟩ := @ih
            ⟨some (v.descriptorBuf c (level (p.block_segment + 1))), p.block_segment + 1, 0, p.byte_offset⟩
            (i + p.block_offset - (v.slot c p.block_segment).count + 1)
            rfl hslot' hpos (by simp only [hnext, if_true]; omega) (fun _ => Nat.succ_ne_zero _)
            (show (v.inode c).number_data - (p.block_segment + 1) = n by omega)
          exact ⟨q, hpass.step hrun, hq, hbyte⟩
        · have hlevel := level_data hnext
          have hpass := runs_syncPass_data hi hsum hsucc hlast hlt
            (v.holding (v.descriptorBuf c (level p.block_segment) :: held)) hinode hcount hnext
          rw [← hlevel] at hpass
          obtain ⟨q, hrun, hq, hbyte⟩ := @ih
            ⟨some (v.descriptorBuf c (level (p.block_segment + 1))), p.block_segment + 1, 0, p.byte_offset⟩
            (i + p.block_offset - (v.slot c p.block_segment).count)
            rfl hslot' hpos (by simp only [hnext, if_false]; omega) (fun h => absurd h hnext)
            (show (v.inode c).number_data - (p.block_segment + 1) = n by omega)
          rw [hlevel] at hpass
          rw [hlevel] at hrun
          exact ⟨q, hpass.step hrun, hq, hbyte⟩

/-! ### Steps -/

/-- The position `p` is that of the byte `T` of the data zones. -/
structure Points (v : Volume α) (c : pfs_cache_t) (T : Nat) (p : pfs_blockpos_t) : Prop
    extends Stands v c (T / zsize v.mount) p where
  byte : p.byte_offset = T % zsize v.mount

private theorem zsize_pos (m : pfs_mount_t) : 0 < zsize m := Nat.mul_pos (by decide) (Nat.two_pow_pos _)

theorem div_lt_zones (hT : T < (v.dataZones c).length * zsize v.mount) :
    T / zsize v.mount < (v.dataZones c).length :=
  Nat.div_lt_of_lt_mul (by rwa [Nat.mul_comm])

private theorem pfsBlockSyncPos_spec {m : pfs_mount_t} (hz : zsize m ≤ 128 * 1024) (hbyte : p.byte_offset = T % zsize m)
    (hzones : (T + size) / zsize m < 2 ^ 32) :
    pfsBlockSyncPos m p size = ((T + size) / zsize m - T / zsize m,
      { p with byte_offset := (T + size) % zsize m }) ∧ T / zsize m ≤ (T + size) / zsize m := by
  have hpos := zsize_pos m
  have hrem := Nat.mod_lt T hpos
  have hrem' := Nat.mod_lt size hpos
  have hdiv := Nat.add_div (a := T) (b := size) hpos
  have hmod := Nat.add_mod_eq_add_mod_right size (Nat.mod_mod T (zsize m))
  have hsum : u32 (p.byte_offset + size % zsize m) = T % zsize m + size % zsize m := by
    rw [hbyte]
    exact Nat.mod_eq_of_lt (by omega)
  have hle : T / zsize m ≤ (T + size) / zsize m := Nat.div_le_div_right (Nat.le_add_right _ _)
  refine ⟨?_, hle⟩
  unfold pfsBlockSyncPos
  simp only [hsum]
  generalize T / zsize m = a at *
  generalize size / zsize m = b at *
  generalize (T + size) / zsize m = d at *
  by_cases hcarry : zsize m ≤ T % zsize m + size % zsize m
  · rw [if_pos hcarry] at hdiv
    have hi : u32 b = b := Nat.mod_eq_of_lt (by omega)
    have hi' : u32 (b + 1) = b + 1 := Nat.mod_eq_of_lt (by omega)
    have hbytes : (T + size) % zsize m = T % zsize m + size % zsize m - zsize m := by
      rw [Nat.add_mod, Nat.mod_eq_sub_mod hcarry, Nat.mod_eq_of_lt (by omega)]
    rw [if_pos hcarry, hi, hi', hbytes]
    congr 1
    omega
  · rw [if_neg hcarry] at hdiv
    have hi : u32 b = b := Nat.mod_eq_of_lt (by omega)
    have hbytes : (T + size) % zsize m = T % zsize m + size % zsize m := by
      rw [Nat.add_mod, Nat.mod_eq_of_lt (by omega)]
    rw [if_neg hcarry, hi, hbytes]
    congr 1
    omega

private theorem runs_pfsInodeSync (hc : v.Chained c) (hr : v.Reads held) (hz : zsize v.mount ≤ 128 * 1024)
    (h : Points v c T p) (hT : T + size < (v.dataZones c).length * zsize v.mount) :
    ∃ q, Runs (pfsInodeSync p size (v.inode c).number_data)
      (v.holding (v.descriptorBuf c (level p.block_segment) :: held)) (0, q)
        (v.holding (v.descriptorBuf c (level q.block_segment) :: held)) ∧ Points v c (T + size) q := by
  have hlt := div_lt_zones hT
  have hzones := hc.zones
  obtain ⟨hpos, hle⟩ := pfsBlockSyncPos_spec hz h.byte
    (show (T + size) / zsize v.mount < 2 ^ 32 by omega)
  obtain ⟨q, hrun, hq, hbyte⟩ := runs_syncPasses (p := { p with byte_offset := (T + size) % zsize v.mount })
    (i := (T + size) / zsize v.mount - T / zsize v.mount) (t := (T + size) / zsize v.mount) hc hr h.inode h.slot
    h.offset (by
      have hzone := h.zone
      simp only [h.data, if_false]
      omega)
    (fun h0 => absurd h0 h.data) hlt
  refine ⟨q, ?_, hq, hbyte⟩
  unfold pfsInodeSync
  refine (runs_ofState _ _).bind ?_
  have hmount : (v.holding (v.descriptorBuf c (level p.block_segment) :: held)).mount = v.mount := rfl
  simp only [id, hmount, hpos]
  exact hrun

private theorem runs_syncAll (hc : v.Chained c) (hr : v.Reads held) (hz : zsize v.mount ≤ 128 * 1024) (sizes : List Nat)
    (h : Points v c T p) (hT : T + sizes.sum < (v.dataZones c).length * zsize v.mount) :
    ∃ q, Runs (syncAll (v.inode c).number_data sizes p)
      (v.holding (v.descriptorBuf c (level p.block_segment) :: held)) (0, q)
        (v.holding (v.descriptorBuf c (level q.block_segment) :: held)) ∧ Points v c (T + sizes.sum) q := by
  induction sizes generalizing T p with
  | nil => exact ⟨p, runs_pure _ _, h⟩
  | cons size sizes ih =>
    rw [List.sum_cons, ← Nat.add_assoc] at hT ⊢
    obtain ⟨q, hrun, hq⟩ := runs_pfsInodeSync hc hr hz h (show T + size < _ by omega)
    obtain ⟨q', hrun', hq'⟩ := ih hq hT
    refine ⟨q', ?_, hq'⟩
    unfold syncAll
    refine hrun.bind ?_
    simp only [if_true]
    exact hrun'

private theorem points_first (hc : v.Chained c) (h : 0 < (v.dataZones c).length) : Points v c 0 (firstPosition c) := by
  have htwo : 1 < (v.inode c).number_data := by
    by_contra hle
    have hpre := (zonesBefore_mono v c (Nat.not_lt.mp hle)).length_le
    have hone : (v.zonesBefore c 1).length = 0 := length_zonesBefore_descriptor (k := 0) rfl
    have hlen : (v.zonesBefore c (v.inode c).number_data).length = (v.dataZones c).length := rfl
    omega
  have hone : (v.zonesBefore c 1).length = 0 := length_zonesBefore_descriptor (k := 0) rfl
  refine ⟨⟨rfl, htwo, show pfsFixIndex 1 ≠ 0 by decide, hc.data 1 htwo (by decide), ?_⟩, ?_⟩
  · rw [Nat.zero_div]
    exact hone
  · rw [Nat.zero_mod]
    rfl

private theorem runs_pfsGetDentriesChunk (hr : v.Reads held) (h : Points v c T p) {zone : Nat × Nat}
    (hzone : (v.dataZones c)[T / zsize v.mount]? = some zone) :
    ∃ v', Runs (pfsGetDentriesChunk p) (v.holding (v.descriptorBuf c (level p.block_segment) :: held))
      (.ok (v.chunk zone (T % zsize v.mount))) v' := by
  have hzone' := hzone.symm.trans h.toStands.getElem
  rw [slot_eq, Option.some_inj] at hzone'
  rw [← h.byte]
  have hroom : (v.descriptorBuf c (level p.block_segment) :: held).dedup.length < v.pfsCacheNumBuffers := by
    have hle : (v.descriptorBuf c (level p.block_segment) :: held).dedup.length ≤ held.dedup.length + 1 := by
      by_cases hmem : v.descriptorBuf c (level p.block_segment) ∈ held
      · rw [List.dedup_cons_of_mem hmem]
        exact Nat.le_succ _
      · rw [List.dedup_cons_of_notMem hmem]
        exact le_rfl
    exact lt_of_le_of_lt hle hr.room
  refine ⟨v.holding (v.chunk zone p.byte_offset :: v.descriptorBuf c (level p.block_segment) :: held), ?_⟩
  rw [hzone']
  unfold pfsGetDentriesChunk
  simp only [h.inode]
  refine (runs_ofState _ _).bind ?_
  refine (runs_pfsCacheGetData hr.outcomes hroom _).bind ?_
  exact runs_pure _ _

/-- From the beginning of a directory any steps come to the byte that is as far on as they are long together. -/
theorem pfsInodeSync_position (hc : v.Chained c) (hr : v.Reads held) (hz : zsize v.mount ≤ 128 * 1024)
    (sizes : List Nat) (hT : sizes.sum < (v.dataZones c).length * zsize v.mount) :
    ∃ q v' zone, Runs (syncAll (v.inode c).number_data sizes (firstPosition c)) (v.holding (c :: held)) (0, q) v' ∧
      (v.dataZones c)[sizes.sum / zsize v.mount]? = some zone ∧ q.byte_offset = sizes.sum % zsize v.mount ∧
        (∃ v'', Runs (pfsGetDentriesChunk q) v' (.ok (v.chunk zone (sizes.sum % zsize v.mount))) v'') ∧
          ∀ sizes' : List Nat, sizes'.sum = sizes.sum →
            Runs (syncAll (v.inode c).number_data sizes' (firstPosition c)) (v.holding (c :: held)) (0, q) v' := by
  have hlen : 0 < (v.dataZones c).length := Nat.pos_of_mul_pos_right (lt_of_le_of_lt (Nat.zero_le _) hT)
  have hfirst := points_first hc hlen
  have hall : ∀ sizes' : List Nat, sizes'.sum = sizes.sum →
      ∃ q, Runs (syncAll (v.inode c).number_data sizes' (firstPosition c)) (v.holding (c :: held)) (0, q)
        (v.holding (v.descriptorBuf c (level q.block_segment) :: held)) ∧ Points v c sizes.sum q := by
    intro sizes' heq
    have hrun := runs_syncAll hc hr hz sizes' hfirst (by rwa [Nat.zero_add, heq])
    rwa [Nat.zero_add, heq] at hrun
  obtain ⟨q, hrun, hq⟩ := hall sizes rfl
  have hzone := List.getElem?_eq_getElem (div_lt_zones hT)
  refine ⟨q, _, _, hrun, hzone, hq.byte, runs_pfsGetDentriesChunk hr hq hzone, fun sizes' heq => ?_⟩
  obtain ⟨q', hrun', hq'⟩ := hall sizes' heq
  rwa [hq'.toStands.unique hq.toStands (hq'.byte.trans hq.byte.symm)] at hrun'

/-- A directory with two runs of data. -/
def twoRuns : pfs_inode_t :=
  (((pfs_inode_t.zero.setData 0 ⟨100, 0, 1⟩).setData 1 ⟨200, 0, 2⟩).setData 2 ⟨300, 1, 3⟩).setNumberData 3

/-- A volume on which each inode is that directory. -/
def twoRunsVolume : Volume Unit where
  mount :=
    { getSize := fun _ => 0x40000
      sector_scale := 4
      inode_scale := 3
      pfsBlockSize := 1
      num_subs := 1
      free_zone := fun _ => 0
      zfree := 0
      bits := fun _ _ _ _ => true }
  partsDeleted := 0
  zone := fun _ _ => ()
  IOBuffer := ()
  inode := fun _ => twoRuns
  dentry := ⟨100, 0⟩
  held := []
  pfsCacheNumBuffers := 4
  outcomes := fun _ => none
  garbage := fun _ => 0

private theorem twoRuns_chained : twoRunsVolume.Chained ⟨0, 800⟩ := by
  have hnumber : (twoRunsVolume.inode ⟨0, 800⟩).number_data = 3 := pfs_inode_t.setNumberData_number_data _ _
  constructor
  case descriptor =>
    rw [hnumber]
    decide
  case data =>
    rw [hnumber]
    decide
  case chain =>
    rw [hnumber]
    exact fun k hk => absurd hk (Nat.not_lt_zero k)
  case slots =>
    rw [hnumber]
    decide
  case zones =>
    rw [Volume.dataZones, hnumber]
    decide

/-- Two steps cross from one run to the other. -/
theorem pfsInodeSync_position_two : ∃ q v', Runs (syncAll 3 [10000, 9000] (firstPosition ⟨0, 800⟩))
    (twoRunsVolume.holding [⟨0, 800⟩]) (0, q) v' ∧ q.byte_offset = 19000 % zsize twoRunsVolume.mount := by
  obtain ⟨q, v', zone, hrun, -, hbyte, -⟩ := pfsInodeSync_position twoRuns_chained
    (show twoRunsVolume.Reads [] from ⟨rfl, by decide⟩) (by decide) [10000, 9000] (by decide)
  exact ⟨q, v', hrun, hbyte⟩

end HddChecker.Fssk
