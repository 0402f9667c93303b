import HddChecker.Fsck.Counters
import HddChecker.Pfs.Naming

/-!
# Directories as fsck finds them

The entries of a directory are laid down by `dir.c` and tested once more by `fsckCheckFiles`. Both agree on the lengths: fsck has nothing to say about an entry, and goes on behind it, exactly where `pfsGetDentry` does.
-/

namespace HddChecker.Fsck

open HddChecker Prog Pfs

variable {σ : Type} {L : Libpfs σ} {m : Mount} {b : Nat → UInt8} {clink pos d n : Nat} {s : Check σ}

/-- The entry at a place, field by field. -/
def dentryOf (b : Nat → UInt8) (d : Nat) : pfs_dentry_t :=
  ⟨inodeAt b d, subAt b d, pLenAt b d, aLenAt b d, fun k => (b (d + 8 + k)).toNat⟩

/-- At least so many errors were reported. -/
def Reported (n : Nat) (s : Check σ) : Prop := n ≤ s.reported

theorem fsckPromptUserAction_counted (mode : Bool) (s : Check σ) : wlp (fsckPromptUserAction mode) s fun _ s' =>
    ∃ answers hasError status repaired, s' = { s with
      answers := answers, hasError := hasError, status := status, repaired := repaired, reported := s.reported + 1 } := by
  unfold fsckPromptUserAction countError countFixed setError choice
  simp only [wlp_modify_bind, wlp_read_bind, id]
  split
  · split
    · split
      · exact wlp_modify_bind.mpr (wlp_pure ⟨_, _, _, _, rfl⟩)
      · exact wlp_modify_bind.mpr (wlp_pure ⟨_, _, _, _, rfl⟩)
    · refine wlp_ofState_bind.mpr ?_
      split
      · exact wlp_modify_bind.mpr (wlp_pure ⟨_, _, _, _, rfl⟩)
      · exact wlp_modify_bind.mpr (wlp_pure ⟨_, _, _, _, rfl⟩)
  · exact wlp_modify_bind.mpr (wlp_pure ⟨_, _, _, _, rfl⟩)

private theorem reported_counting (n : Nat) : Counting (σ := σ) m (Reported n) where
  same h hsame := by
    unfold Reported at h ⊢
    rwa [hsame.reported]
  prompt s h := by
    refine (fsckPromptUserAction_counted true s).mono ?_
    rintro _ _ ⟨_, _, _, _, rfl⟩
    exact Nat.le_succ_of_le h
  read h _ := h
  mark h _ := h
  use h _ := h
  look _ h := h

theorem wlp_reported_bind {α : Type} {f : Bool → Prog (Check σ) α} {Q : α → Check σ → Prop} (hgot : s.Got clink)
    (hf : ∀ fix s', Reported (s.reported + 1) s' ∧ s'.Got clink → wlp (f fix) s' Q) :
    wlp (fsckPromptUserAction true >>= f) s Q := by
  refine wlp_bind ((fsckPromptUserAction_counted true s).mono ?_)
  rintro fix _ ⟨_, _, _, _, rfl⟩
  exact hf fix _ ⟨Nat.le_refl _, hgot⟩

/-! ### Lengths -/

private theorem checkLength_silent (he : L.dentry clink pos s.pfs = dentryOf b d) (hplace : pos % 512 = d % 512)
    (hlen : entryLen b d = some n) : Runs (checkLength L clink pos (sectorEnd pos)) s n s := by
  obtain ⟨rfl, hmod, hneeded, hwithin⟩ := entryLen_eq_some.mp hlen
  have hneeded' : new_dentryLen (pLenAt b d) ≤ sizeAt b d := by
    rwa [← dentryLen_eq (pLenAt_lt b d)]
  have hwithin' : pos + sizeAt b d ≤ sectorEnd pos := by
    unfold sectorEnd at hwithin ⊢
    omega
  have hshown : Runs (pfsShow (L.dentry clink pos)) s (dentryOf b d) s := by
    rw [← he]
    exact ⟨0, rfl⟩
  have haligned : Runs (checkAligned L clink pos (sectorEnd pos) (sizeAt b d)) s (sizeAt b d) s := by
    rw [checkAligned, if_neg (not_not.mpr hmod)]
    exact runs_pure _ _
  have hroom : Runs (checkNeeded L clink pos (sectorEnd pos) (new_dentryLen (pLenAt b d)) (sizeAt b d)) s
      (sizeAt b d) s := by
    rw [checkNeeded, if_neg (Nat.not_lt.mpr hneeded')]
    exact runs_pure _ _
  refine hshown.bind (haligned.bind (hroom.bind ?_))
  rw [if_neg (Nat.not_lt.mpr hwithin')]
  exact runs_pure _ _

/-- An error was reported, and the walk has the chunk. -/
def Noticed (n clink : Nat) (s : Check σ) : Prop := Reported n s ∧ s.Got clink

theorem noticed_counting (n clink : Nat) : Counting (σ := σ) m (Noticed n clink) := (reported_counting n).got clink

private theorem checkAligned_reports (m : Mount) {bound size : Nat} (hgot : s.Got clink) (h : size % 4 ≠ 0) :
    wlp (checkAligned L clink pos bound size) s fun _ s' => Noticed (s.reported + 1) clink s' := by
  have hI := noticed_counting (σ := σ) (m := m) (s.reported + 1) clink
  rw [checkAligned, if_pos h]
  refine wlp_reported_bind hgot fun fix s' hs' => ?_
  split
  · exact ((setLength_counts hI (fun _ h => h.2) _ _).bind fun _ => preserves_pure _) s' hs'
  · exact wlp_pure hs'

private theorem checkNeeded_reports (m : Mount) {bound needed size : Nat} (hgot : s.Got clink) (h : size < needed) :
    wlp (checkNeeded L clink pos bound needed size) s fun _ s' => Noticed (s.reported + 1) clink s' := by
  have hI := noticed_counting (σ := σ) (m := m) (s.reported + 1) clink
  rw [checkNeeded, if_pos h]
  refine wlp_reported_bind hgot fun fix s' hs' => ?_
  split
  · split
    · exact ((setLength_counts hI (fun _ h => h.2) _ _).bind fun _ => preserves_pure _) s' hs'
    · exact ((fsckFixDEntry_counts hI (fun _ h => h.2) _).bind fun _ => emptied_counts hI _ _ _) s' hs'
  · exact emptied_counts hI _ _ _ s' hs'

/-- fsck reports an error where `pfsGetDentry` gives up. -/
private theorem checkLength_reports (m : Mount) (he : L.dentry clink pos s.pfs = dentryOf b d) (hplace : pos % 512 = d % 512)
    (hgot : s.Got clink) (hlen : entryLen b d = none) :
    wlp (checkLength L clink pos (sectorEnd pos)) s fun _ s' => Noticed (s.reported + 1) clink s' := by
  have hI := noticed_counting (σ := σ) (m := m) (s.reported + 1) clink
  have htail : ∀ size, Preserves (Noticed (s.reported + 1) clink) do
      if sectorEnd pos < pos + size then
        if ← fsckPromptUserAction true then
          fsckFixDEntry L clink pos
          emptyEntry L clink pos
          return sectorEnd pos - pos
        else
          emptyEntry L clink pos
          return sectorEnd pos - pos
      else return size := by
    intro size
    split
    · refine (fsckPromptUserAction_counts hI.toPrompting).bind fun fix => ?_
      split
      · exact (fsckFixDEntry_counts hI (fun _ h => h.2) _).bind fun _ => emptied_counts hI _ _ _
      · exact emptied_counts hI _ _ _
    · exact preserves_pure _
  refine wlp_read_bind.mpr ?_
  rw [he]
  by_cases hmod : sizeAt b d % 4 = 0
  · have haligned : checkAligned L clink pos (sectorEnd pos) (sizeAt b d) = pure (sizeAt b d) := by
      rw [checkAligned, if_neg (not_not.mpr hmod)]
    change wlp (checkAligned L clink pos (sectorEnd pos) (sizeAt b d) >>= _) s _
    rw [haligned]
    refine wlp_bind (wlp_pure ?_)
    by_cases hneeded : sizeAt b d < new_dentryLen (pLenAt b d)
    · exact wlp_bind ((checkNeeded_reports m hgot hneeded).mono fun size s' hs' => htail size s' hs')
    · have hroom : checkNeeded L clink pos (sectorEnd pos) (new_dentryLen (pLenAt b d)) (sizeAt b d) =
          pure (sizeAt b d) := by rw [checkNeeded, if_neg hneeded]
      change wlp (checkNeeded L clink pos (sectorEnd pos) (new_dentryLen (pLenAt b d)) (sizeAt b d) >>= _) s _
      rw [hroom]
      refine wlp_bind (wlp_pure ?_)
      have hlong : sectorEnd pos < pos + sizeAt b d := by
        by_contra hshort
        have hlen' : entryLen b d = some (sizeAt b d) := by
          refine entryLen_eq_some.mpr ⟨rfl, hmod, ?_, ?_⟩
          · rw [dentryLen_eq (pLenAt_lt b d)]
            omega
          · unfold sectorEnd at hshort ⊢
            omega
        rw [hlen] at hlen'
        cases hlen'
      rw [if_pos hlong]
      refine wlp_reported_bind hgot fun fix s' hs' => ?_
      split
      · exact ((fsckFixDEntry_counts hI (fun _ h => h.2) _).bind fun _ => emptied_counts hI _ _ _) s' hs'
      · exact emptied_counts hI _ _ _ s' hs'
  · refine wlp_bind ((checkAligned_reports m hgot hmod).mono fun size s' hs' => ?_)
    exact ((checkNeeded_counts hI (fun _ h => h.2) _ _ _ _).bind fun size => htail size) s' hs'

private theorem scanSector_exit {w : Wanted} (hlen : entryLen b d = none) : scanSector b w (sectorEnd d) d = .exit := by
  have hlt : d < sectorEnd d := by
    unfold sectorEnd
    omega
  rw [scanSector, if_pos hlt]
  split
  · rfl
  rename_i hand
  split
  · rfl
  rename_i hneeded
  split
  · rfl
  rename_i hwithin
  have hmod : sizeAt b d % 4 = 0 := by
    rw [show (4 : Nat) = 2 ^ 2 from rfl, ← Nat.and_two_pow_sub_one_eq_mod]
    exact not_not.mp hand
  have hlen' := entryLen_eq_some.mpr ⟨rfl, hmod, Nat.not_lt.mp hneeded, Nat.not_lt.mp hwithin⟩
  rw [hlen] at hlen'
  cases hlen'

/-- Both agree on every entry: either fsck says nothing and goes on by as many bytes as `pfsGetDentry`, or `pfsGetDentry` gives up and fsck reports an error. -/
theorem checkLength_agrees (m : Mount) (he : L.dentry clink pos s.pfs = dentryOf b d) (hplace : pos % 512 = d % 512)
    (hgot : s.Got clink) :
    (∃ n, Runs (checkLength L clink pos (sectorEnd pos)) s n s ∧ ∀ w, scanSector b w (sectorEnd d) d =
      if w.meets b d then .found d else scanSector b w (sectorEnd d) (d + n)) ∨
    (∀ w, scanSector b w (sectorEnd d) d = .exit) ∧
      wlp (checkLength L clink pos (sectorEnd pos)) s fun _ s' => s.reported < s'.reported := by
  cases hlen : entryLen b d with
  | some n =>
    have hlt : d < sectorEnd d := by
      unfold sectorEnd
      omega
    exact .inl ⟨n, checkLength_silent he hplace hlen, fun w => scanSector_cons hlen hlt rfl⟩
  | none =>
    exact .inr ⟨fun w => scanSector_exit hlen, (checkLength_reports m he hplace hgot hlen).mono fun _ _ h => h.1⟩

/-! ### An entry -/

/-- A sector with one entry, for a file with the name `.a`. -/
def hiddenSector : Nat → UInt8 := pfsFillDentry (fun _ => 0) 0 [46, 97] ⟨700, 0, 1⟩ 512 0x2000

/-- `libpfs` about this entry, in a directory whose parent is in zone 529, with no buffer left for anything else. -/
def hiddenFile : Libpfs pfs_dentry_t where
  sub _ _ := 0
  block _ _ := 0
  inode _ _ := ⟨⟨529, 0, 1⟩, ⟨0, 0, 0⟩, ⟨529, 0, 1⟩, fun _ => ⟨0, 0, 0⟩, 0x11FF, 0, 512, 2, 2, 1, 0⟩
  setInode _ _ v := v
  dentry _ _ v := v
  setDentry _ _ f v := f v
  bitmap _ _ _ _ := false
  setBitmap _ _ _ v := v
  zero _ v := v
  setDirty _ v := v
  pfsCacheGetData _ _ _ v := (.error (- ENOMEM), v)
  pfsCacheUsedAdd _ v := v
  pfsCacheFree _ v := v
  pfsCacheFlushAllDirty v := v
  pfsInodeGetData _ _ v := (.error (- ENOMEM), v)
  transferRead _ _ _ v := ((0, fun _ => 0), v)
  transferWrite _ _ _ _ v := (0, v)
  flushCache v := v
  getPartError v := v
  rewind v := v
  read size v := ((size, fun _ => 0), v)
  write size _ v := (size, v)

/-- The check, with the sector read. -/
def hiddenCheck : Check pfs_dentry_t where
  pfs := dentryOf hiddenSector 0
  scratch := Scratch.pfsBitmapInit (fun _ _ _ => false) fun _ => none
  IOBuffer _ := 0
  fsckWriteEnabled := true
  fsckAutoMode := true
  answers _ := true
  stop := none
  hasError := false
  status := ⟨0, 0, 0, 1, 0, 0, 0⟩
  reported := 0
  repaired := 0
  walk := [.read ⟨8192, 2, none, hiddenFile.inode 0 (dentryOf hiddenSector 0), ⟨some 0, 1, 0, 0⟩, some 1⟩]
  used := []

private theorem hiddenCheck_got : hiddenCheck.Got 1 := ⟨_, List.mem_cons_self, rfl⟩

def hiddenMount : Mount where
  num_subs := 0
  sector_scale := 4
  inode_scale := 3
  zsize := 8192
  root_dir := ⟨529, 0, 1⟩
  ZoneSizes _ := 0x40000
  ZoneMap _ := 0

theorem checkLength_agrees_hidden :
    (∃ n, Runs (checkLength hiddenFile 1 0 512) hiddenCheck n hiddenCheck ∧
      ∀ w, scanSector hiddenSector w 512 0 =
        if w.meets hiddenSector 0 then .found 0 else scanSector hiddenSector w 512 (0 + n)) ∨
    (∀ w, scanSector hiddenSector w 512 0 = .exit) ∧
      wlp (checkLength hiddenFile 1 0 512) hiddenCheck fun _ s' => hiddenCheck.reported < s'.reported :=
  checkLength_agrees hiddenMount (d := 0) rfl rfl hiddenCheck_got

end HddChecker.Fsck
