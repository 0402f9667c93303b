import HddChecker.Fsck.Check

/-!
# Where the walk of a directory reads

`fsckCheckFiles` goes from chunk to chunk with `pfsInodeSync`, and asks only the size of the directory whether there is another one. A chunk lies in the directory where the walk stood in a data segment of it before and that was not the last chunk of the last one.
-/

namespace HddChecker.Fsck

open HddChecker Prog Pfs

variable {σ : Type} {L : Libpfs σ} {m : Mount}

/-- The number of zones of the segment at a position. -/
def pfs_blockpos_t.count (p : pfs_blockpos_t) (d : pfs_inode_t) : Nat :=
  (d.data (pfsFixIndex p.block_segment)).count

/-- A position in a data segment of a directory with so many segments, where `d` is the segment descriptor it stands at. -/
structure pfs_blockpos_t.Within (p : pfs_blockpos_t) (zsize number_data : Nat) (d : pfs_inode_t) :
    Prop where
  segment : p.block_segment < number_data
  data : pfsFixIndex p.block_segment ≠ 0
  offset : p.block_offset < p.count d
  byte : p.byte_offset < zsize

/-- The position is not at the last chunk of the last data segment: the next chunk is in the same zone, in the same segment, or in the next one, which may be the first of the next descriptor. -/
def pfs_blockpos_t.Continues (p : pfs_blockpos_t) (zsize number_data : Nat) (d : pfs_inode_t)
    (next : Option pfs_inode_t) : Prop :=
  p.byte_offset + 1024 < zsize ∨
  p.block_offset + 1 < p.count d ∨
  (pfsFixIndex (p.block_segment + 1) ≠ 0 ∧ p.block_segment + 1 < number_data ∧
    0 < (d.data (pfsFixIndex (p.block_segment + 1))).count) ∨
  (pfsFixIndex (p.block_segment + 1) = 0 ∧ p.block_segment + 2 < number_data ∧
    ∃ e, next = some e ∧ (e.data 0).count = 1 ∧ 0 < (e.data 1).count)

namespace Visit

/-- The chunk lies in a data segment of the directory. -/
def Inside (v : Visit) : Prop := v.position.Within v.zsize v.number_data v.segment

/-- What the directory is before the chunk is sought: at first it has a data segment, later the walk stands in one of them and has not come to the end. -/
def Fits (v : Visit) : Prop :=
  1024 < v.zsize ∧
    match v.stood with
    | none => 1 < v.number_data ∧ 0 < (v.segment.data 1).count
    | some a => a.position.Within v.zsize v.number_data a.descriptor ∧
        a.position.Continues v.zsize v.number_data a.descriptor a.next

/-- In such a directory the chunk is one of its own. -/
def Sound (v : Visit) : Prop := v.Fits → v.Inside

end Visit

/-! ### Positions -/

private theorem pfsFixIndex_next {index : Nat} (h : pfsFixIndex (index + 1) = 0) :
    pfsFixIndex (index + 2) = 1 := by
  simp only [pfsFixIndex, PFS_INODE_MAX_BLOCKS] at *
  split at h <;> split <;> omega

theorem sound_first (zsize number_data : Nat) (d : pfs_inode_t) (clink chunk : Option Nat) :
    Visit.Sound ⟨zsize, number_data, none, d, ⟨clink, 1, 0, 0⟩, chunk⟩ := by
  rintro ⟨hzsize, hmore, hcount⟩
  exact ⟨hmore, show pfsFixIndex 1 ≠ 0 by decide, hcount, Nat.zero_lt_of_lt hzsize⟩

private theorem pfsBlockSyncPos_chunk (hzsize : 1024 < m.zsize) (p : pfs_blockpos_t) :
    pfsBlockSyncPos m p 1024 =
      if m.zsize ≤ p.byte_offset + 1024 then
        (1, { p with byte_offset := p.byte_offset + 1024 - m.zsize })
      else (0, { p with byte_offset := p.byte_offset + 1024 }) := by
  simp only [pfsBlockSyncPos, Nat.mod_eq_of_lt hzsize, Nat.div_eq_of_lt hzsize, Nat.zero_add]

private theorem wlp_pfsOp {α : Type} {f : σ → α × σ} {s : Check σ} {Q : α → Check σ → Prop}
    (h : ∀ a t, f s.pfs = (a, t) → Q a { s with pfs := t }) : wlp (pfsOp f) s Q :=
  wlp_ofState (h _ _ rfl)

theorem pfsBlockGetNextSegment_spec (clink : Nat) (s : Check σ) :
    wlp (pfsBlockGetNextSegment L m clink) s fun r s' =>
      ∀ next, r = .ok next → nextDescriptor L m clink s.pfs = some (L.inode next s'.pfs) := by
  unfold pfsBlockGetNextSegment nextDescriptor
  simp only [pfsDo, pfsShow, wlp_modify_bind, wlp_read_bind]
  split
  · apply wlp_pfsOp
    rintro _ t hget next rfl
    rw [hget]
  · apply wlp_pure
    intro next hnext
    cases hnext

theorem syncLoop_done {n : Nat} {p : pfs_blockpos_t} {s : Check σ}
    {Q : Int × pfs_blockpos_t → Check σ → Prop} (h : Q (0, p) s) :
    wlp (syncLoop L m n 0 p) s Q :=
  wlp_loop_pass (wlp_pure h)

/-- From the end of a zone the walk goes on to the next zone of the directory, where there is one. -/
private theorem syncLoop_spec {zsize n clink : Nat} {p : pfs_blockpos_t} {s : Check σ}
    (hclink : p.inode = some clink) (hwithin : p.Within zsize n (L.inode clink s.pfs))
    (hmore : p.block_offset + 1 < p.count (L.inode clink s.pfs) ∨
      (pfsFixIndex (p.block_segment + 1) ≠ 0 ∧ p.block_segment + 1 < n ∧
        0 < ((L.inode clink s.pfs).data (pfsFixIndex (p.block_segment + 1))).count) ∨
      (pfsFixIndex (p.block_segment + 1) = 0 ∧ p.block_segment + 2 < n ∧
        ∃ e, nextDescriptor L m clink s.pfs = some e ∧ (e.data 0).count = 1 ∧ 0 < (e.data 1).count)) :
    wlp (syncLoop L m n 1 p) s fun r s' => ∀ clink', r.2.inode = some clink' →
      r.2.Within zsize n (L.inode clink' s'.pfs) := by
  obtain ⟨hseg, hdata, hoffset, hbyte⟩ := hwithin
  have hcount : p.count (L.inode clink s.pfs) =
    ((L.inode clink s.pfs).data (pfsFixIndex p.block_segment)).count := rfl
  apply wlp_loop_pass
  simp only [Nat.one_ne_zero, if_false, hclink, pfsShow, wlp_read_bind, ← hcount]
  split
  · -- the next zone of the segment
    rename_i hnext
    apply wlp_pure
    rintro clink' ⟨⟩
    exact ⟨hseg, hdata, hnext, hbyte⟩
  · have hlast : 1 + p.block_offset - p.count (L.inode clink s.pfs) = 0 := by omega
    rcases hmore with hmore | ⟨hfix, hnext, hpos⟩ | ⟨hfix, hnext, e, he, hone, hpos⟩
    · omega
    · -- the next segment of the descriptor
      rw [if_neg (by omega)]
      simp only [if_neg (show ¬ p.block_segment + 1 = n by omega), hfix, ne_eq, not_false_eq_true,
        if_true, hlast]
      apply wlp_pure
      apply syncLoop_done
      rintro clink' ⟨⟩
      exact ⟨hnext, hfix, hpos, hbyte⟩
    · -- the first segment of the next descriptor, whose own entry is passed over
      rw [if_neg (by omega)]
      simp only [if_neg (show ¬ p.block_segment + 1 = n by omega), hfix, ne_eq, not_true_eq_false,
        if_false, hlast]
      apply wlp_bind
      refine (pfsBlockGetNextSegment_spec clink s).mono fun r s₁ hr => ?_
      cases r with
      | error result =>
        apply wlp_pure
        rintro clink' ⟨⟩
      | ok next =>
        apply wlp_pure
        have hnextd : L.inode next s₁.pfs = e := Option.some.inj ((hr next rfl).symm.trans he)
        have hfix' := pfsFixIndex_next hfix
        apply wlp_loop_pass
        simp only [Nat.zero_add, Nat.one_ne_zero, if_false, wlp_read_bind, hfix, hnextd, hone,
          Nat.add_zero, Nat.lt_irrefl, Nat.sub_self, not_true_eq_false, false_or]
        rw [if_neg (by omega), if_neg (show ¬ p.block_segment + 1 + 1 = n by omega)]
        simp only [hfix', Nat.one_ne_zero, not_false_eq_true, if_true]
        apply wlp_pure
        apply syncLoop_done
        rintro clink' ⟨⟩
        refine ⟨hnext, ?_, ?_, hbyte⟩
        · change pfsFixIndex (p.block_segment + 2) ≠ 0
          omega
        · change 0 < ((L.inode next s₁.pfs).data (pfsFixIndex (p.block_segment + 2))).count
          rw [hfix', hnextd]
          exact hpos

theorem pfsInodeSync_spec {n clink : Nat} {p : pfs_blockpos_t} {s : Check σ} (hzsize : 1024 < m.zsize)
    (hclink : p.inode = some clink) (hwithin : p.Within m.zsize n (L.inode clink s.pfs))
    (hmore : p.Continues m.zsize n (L.inode clink s.pfs) (nextDescriptor L m clink s.pfs)) :
    wlp (pfsInodeSync L m 1024 n p) s fun r s' => ∀ clink', r.2.inode = some clink' →
      r.2.Within m.zsize n (L.inode clink' s'.pfs) := by
  obtain ⟨hseg, hdata, hoffset, hbyte⟩ := hwithin
  unfold pfsInodeSync
  rw [pfsBlockSyncPos_chunk hzsize]
  by_cases hzone : m.zsize ≤ p.byte_offset + 1024
  · rw [if_pos hzone]
    refine syncLoop_spec (p := { p with byte_offset := p.byte_offset + 1024 - m.zsize }) hclink
      ⟨hseg, hdata, hoffset, ?_⟩ (hmore.resolve_left (by omega))
    change p.byte_offset + 1024 - m.zsize < m.zsize
    omega
  · rw [if_neg hzone]
    apply syncLoop_done
    intro clink' hclink'
    obtain rfl : clink = clink' := Option.some.inj (hclink.symm.trans hclink')
    exact ⟨hseg, hdata, hoffset, Nat.lt_of_not_le hzone⟩

end HddChecker.Fsck
