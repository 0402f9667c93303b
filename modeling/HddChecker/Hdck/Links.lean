import HddChecker.Apa.Format
import HddChecker.Hdck.Keep

/-!
# A repair changes links only

Where a repair cuts no chain off and recovers no header over a used one, every used header keeps all of its fields but its links, its checksum and the number of its subs, in the cache and on the disk. Where it cuts the chain off, the header of the MBR turns into that of a sub-partition.
-/

namespace HddChecker.Hdck

open HddChecker Apa Prog

variable {B : Nat → Option ApaHeader} {st : State} {H : List ApaHeader} {h₀ h : ApaHeader} {s : Nat}

/-- The headers of the chain that starts at the MBR. -/
inductive InChain (view : Nat → Option ApaHeader) : Nat → Prop where
  | mbr : InChain view 0
  | next {s : Nat} {h : ApaHeader} (hs : InChain view s) (hview : view s = some h) : InChain view h.next

/-- `h` is `h₀` with other links, another checksum and maybe fewer subs. -/
def Relinked (h₀ h : ApaHeader) : Prop :=
  h = { h₀ with checksum := h.checksum, next := h.next, prev := h.prev, nsub := h.nsub } ∧ h.nsub ≤ h₀.nsub

/-- The header of the MBR and every used one that is in the chain before and after are only relinked, in the cache and on the disk. -/
def LinksOnly (st st' : State) : Prop :=
  ∀ s h₀ h, InChain st.dev.view s → InChain st'.dev.view s → st.dev.view s = some h₀ →
    st'.dev.view s = some h ∨ apaReadHeader st'.dev.disk s = some h →
    s = 0 ∨ h₀.isFree = false ∧ h.isFree = false → Relinked h₀ h

/-- A drive at the start of a repair: nothing is dirty, the fields that name sectors or distances name multiples of the smallest partition, and the MBR has a used header that starts at 0. -/
structure Ready (d : Device) : Prop where
  keyed : Keyed d.cache
  placed : ∀ b ∈ d.cache, Slot b.sector
  num : d.journalBuf.num = 0
  clean : ∀ s, d.isDirty s = false
  stored : ∀ s, Slot s → d.view s = apaReadHeader d.disk s
  aligned : ∀ s h, Slot s → d.view s = some h → Aligned h
  mbr : ∀ h, d.view 0 = some h → h.start = 0 ∧ h.isFree = false

/-- No chain was cut off, and no used header of `B` was written over. -/
def Harmless (B : Nat → Option ApaHeader) (st : State) : Prop :=
  Fine (fun lba => ∀ h, B lba = some h → h.isFree = true) st

/-! ### The law of the links -/

/-- The law for a drive that showed `B`: a used header that is still used is only relinked. -/
structure Kept (B : Nat → Option ApaHeader) (s : Nat) (h : ApaHeader) : Prop where
  aligned : Aligned h
  mbr : s = 0 → h.start = 0 ∧ h.isFree = false
  relinked : ∀ h₀, B s = some h₀ → h₀.isFree = false → h.isFree = false → Relinked h₀ h

private theorem relinked_self (h : ApaHeader) : Relinked h h := ⟨rfl, le_refl _⟩

theorem Relinked.trans {h' : ApaHeader} (hfirst : Relinked h₀ h) (hsecond : Relinked h h') :
    Relinked h₀ h' := by
  obtain ⟨heq, hle⟩ := hfirst
  obtain ⟨heq', hle'⟩ := hsecond
  refine ⟨?_, hle'.trans hle⟩
  rw [heq] at heq'
  exact heq'

theorem Kept.relink {h' : ApaHeader} (hk : Kept B s h) (haligned : Aligned h') (hr : Relinked h h') :
    Kept B s h' := by
  obtain ⟨heq, hle⟩ := hr
  have hstart : h'.start = h.start := by rw [heq]
  have hfree : h'.isFree = h.isFree := by
    rw [heq]
    rfl
  refine ⟨haligned, fun hs => ?_, fun h₀ hB hused hused' => ?_⟩
  · rw [hstart, hfree]
    exact hk.mbr hs
  · exact (hk.relinked h₀ hB hused (hfree ▸ hused')).trans ⟨heq, hle⟩

private theorem law_kept (B : Nat → Option ApaHeader) : Law (Kept B) where
  aligned := Kept.aligned
  checksum := fun hk =>
    hk.relink ⟨hk.aligned.next, hk.aligned.prev, hk.aligned.start, hk.aligned.length, hk.aligned.sub⟩
      ⟨rfl, le_refl _⟩
  next := fun hk hn =>
    hk.relink ⟨hn, hk.aligned.prev, hk.aligned.start, hk.aligned.length, hk.aligned.sub⟩
      ⟨rfl, le_refl _⟩
  prev := fun hk hn =>
    hk.relink ⟨hk.aligned.next, hn, hk.aligned.start, hk.aligned.length, hk.aligned.sub⟩
      ⟨rfl, le_refl _⟩
  nsub := fun hk hn =>
    hk.relink ⟨hk.aligned.next, hk.aligned.prev, hk.aligned.start, hk.aligned.length, hk.aligned.sub⟩
      ⟨rfl, hn.le⟩
  empty := fun _ hne haligned hfree =>
    ⟨haligned, fun hs => (hne hs).elim, fun _ _ _ hused => by
      rw [hfree] at hused
      cases hused⟩
  mbr := fun hk => hk.mbr rfl

private theorem recoverable_kept (B : Nat → Option ApaHeader) :
    Recoverable (Kept B) fun lba => ∀ h, B lba = some h → h.isFree = true := by
  intro lba h _ hne hU haligned
  refine ⟨haligned, fun hs => (hne hs).elim, fun h₀ hB hused => ?_⟩
  rw [hU h₀ hB] at hused
  cases hused

/-! ### From a ready drive -/

theorem Ready.within {d : Device} (h : Ready d) : Within (Kept d.view) (Kept d.view) [] d := by
  have hself : ∀ s x, Slot s → d.view s = some x → Kept d.view s x := by
    intro s x hs hx
    refine ⟨h.aligned s x hs hx, ?_, fun h₀ hB _ _ => ?_⟩
    · rintro rfl
      exact h.mbr x hx
    · obtain rfl : x = h₀ := by simpa [hx] using hB
      exact relinked_self x
  refine ⟨⟨h.keyed, h.placed, fun s hs => ?_, hself, fun s x hs hx => ?_⟩, h.num⟩
  · rw [h.clean s] at hs
    cases hs
  · exact hself s x hs (by rw [h.stored s hs, hx])

theorem Ready.slot {d : Device} (h : Ready d) (hs : InChain d.view s) : Slot s := by
  induction hs with
  | mbr => exact slot_zero
  | next _ hview ih => exact (h.aligned _ _ ih hview).next

/-- A repair without harm changes links only, whatever is on the disk and whichever writes fail. -/
theorem HdckDevctl_linksOnly (hready : Ready st.dev) :
    wlp HdckDevctl st fun _ st' => Harmless st.dev.view st' → LinksOnly st st' := by
  refine (HdckDevctl_keeps (law_kept st.dev.view) (recoverable_kept _) hready.within).mono ?_
  intro _ st' hwithin hharmless s h₀ h hs _ hview hfinal hused
  have hend := hwithin hharmless
  have hslot := hready.slot hs
  have hkept : Kept st.dev.view s h := by
    rcases hfinal with hfinal | hfinal
    · exact hend.view s h hslot hfinal
    · exact hend.disk s h hslot hfinal
  rcases hused with rfl | ⟨hused, hused'⟩
  · exact hkept.relinked h₀ hview (hready.mbr h₀ hview).2 (hkept.mbr rfl).2
  · exact hkept.relinked h₀ hview hused hused'

/-! ### Small drives -/

instance (n : Nat) : Decidable (Slot n) := inferInstanceAs (Decidable (0x40000 ∣ n))

/-- Nothing is read but what stands at a header of the list, behind one or in the sector of the journal. -/
theorem read_headersDisk_found (hread : apaReadHeader (headersDisk H) s = some h) :
    s = APA_SECTOR_APAL ∨ ∃ x ∈ H, x.start = s ∨ x.start + 1 = s := by
  by_contra hnone
  rw [not_or] at hnone
  have hfind : (H.find? fun x => x.start == s || x.start + 1 == s) = none := by
    rw [List.find?_eq_none]
    intro x hx hfound
    simp only [Bool.or_eq_true, beq_iff_eq] at hfound
    exact hnone.2 ⟨x, hx, hfound⟩
  have hzero : headersDisk H s = some Sector.zero := by rw [headersDisk, if_neg hnone.1, hfind]
  unfold apaReadHeader at hread
  rw [hzero] at hread
  split at hread
  · rename_i a b ha _
    cases ha
    dsimp only at hread
    split at hread
    · rename_i haccepted
      simp only [ApaHeader.accepted, Bool.and_eq_true, beq_iff_eq] at haccepted
      have hmagic : (ApaHeader.ofSectors Sector.zero b).magic = 0 := rfl
      exact absurd (hmagic.symm.trans haccepted.1.1) (by decide)
    · cases hread
  · cases hread

theorem read_headersDisk (hslot : ∀ h ∈ H, Slot h.start) (hnodup : (H.map (·.start)).Nodup)
    (hs : Slot s) (hread : apaReadHeader (headersDisk H) s = some h) : h ∈ H ∧ h.start = s := by
  obtain ⟨k, rfl⟩ := hs
  rcases read_headersDisk_found hread with hs | ⟨x, hx, hs | hs⟩
  · simp only [APA_SECTOR_APAL] at hs
    omega
  · rw [← hs] at hread ⊢
    rw [eq_of_holds (holds_headersDisk hslot hnodup hx) hread]
    exact ⟨hx, rfl⟩
  · obtain ⟨j, hj⟩ := hslot x hx
    omega

/-- A drive just started, with the headers `H`. -/
def bootState (H : List ApaHeader) : State where
  dev := Device.boot (headersDisk H)
  status := 0
  ErrorPartitionLBA := 0
  ErrorPartition2LBA := 0
  ErrorPartitionPrevLBA := 0
  ErrorPartition2PrevLBA := 0
  repairs := []

theorem ready_bootState (haligned : ∀ h ∈ H, Aligned h) (hnodup : (H.map (·.start)).Nodup)
    (hmbr : ∀ h ∈ H, h.start = 0 → h.isFree = false) : Ready (bootState H).dev where
  keyed := List.nodup_nil
  placed := fun _ hb => absurd hb List.not_mem_nil
  num := rfl
  clean := fun _ => rfl
  stored := fun _ _ => rfl
  aligned := fun s h hs hview =>
    haligned h (read_headersDisk (fun x hx => (haligned x hx).start) hnodup hs hview).1
  mbr := fun h hview => by
    obtain ⟨hmem, hstart⟩ :=
      read_headersDisk (fun x hx => (haligned x hx).start) hnodup slot_zero hview
    exact ⟨hstart, hmbr h hmem hstart⟩

theorem aligned_linkedHeader {p n : Nat} {x : ApaHeader} (hp : Slot p) (hn : Slot n)
    (hstart : Slot x.start) (hlength : Slot x.length) (hsubs : x.subs = ApaHeader.zero.subs) :
    Aligned (linkedHeader p n x) where
  next := hn
  prev := hp
  start := hstart
  length := hlength
  sub i := by
    have hsub := aligned_zero.sub i
    unfold ApaHeader.sub linkedHeader ApaHeader.sealed at *
    rwa [hsubs]

/-- Two partitions behind the MBR, the second of which takes itself for the first. -/
def wrongPrev : State :=
  bootState [linkedHeader 0x80000 0x40000 mbrHeader,
    linkedHeader 0 0x80000 (plainHeader 0x40000 0x40000 0x0100),
    linkedHeader 0 0 (plainHeader 0x80000 0x40000 0x0100)]

private theorem wrongPrev_ready : Ready wrongPrev.dev := by
  refine ready_bootState ?_ (by decide) (by decide)
  simp only [List.forall_mem_cons]
  exact ⟨aligned_linkedHeader (by decide) (by decide) (by decide) (by decide) rfl,
    aligned_linkedHeader (by decide) (by decide) (by decide) (by decide) rfl,
    aligned_linkedHeader (by decide) (by decide) (by decide) (by decide) rfl, by simp⟩

private theorem wrongPrev_run : (HdckDevctl.run 6 wrongPrev).map
    (fun r => ((apaReadHeader r.2.dev.disk 0x80000).map (·.prev), r.2.repairs.length)) = some (some 0x40000, 0) := by
  decide +kernel

/-- Its link is repaired. -/
theorem HdckDevctl_linksOnly_wrongPrev : ∃ r st', Runs HdckDevctl wrongPrev r st' ∧
    (apaReadHeader st'.dev.disk 0x80000).map (·.prev) = some 0x40000 ∧ LinksOnly wrongPrev st' := by
  obtain ⟨⟨r, st'⟩, hrun, hshown⟩ := Option.map_eq_some_iff.mp wrongPrev_run
  obtain ⟨hprev, hrepairs⟩ := Prod.mk.inj hshown
  have hharmless : Harmless wrongPrev.dev.view st' := by
    intro repair hrepair
    rw [List.eq_nil_of_length_eq_zero hrepairs] at hrepair
    cases hrepair
  exact ⟨r, st', ⟨6, hrun⟩, hprev, HdckDevctl_linksOnly wrongPrev_ready r st' ⟨6, hrun⟩ hharmless⟩

/-- A partition behind the MBR, and behind it the last one, which cannot be read. -/
def badLast : State :=
  bootState [linkedHeader 0x80000 0x40000 mbrHeader,
    linkedHeader 0 0x80000 (plainHeader 0x40000 0x40000 0x0100)]

private theorem badLast_ready : Ready badLast.dev := by
  refine ready_bootState ?_ (by decide) (by decide)
  simp only [List.forall_mem_cons]
  exact ⟨aligned_linkedHeader (by decide) (by decide) (by decide) (by decide) rfl,
    aligned_linkedHeader (by decide) (by decide) (by decide) (by decide) rfl, by simp⟩

private theorem badLast_run :
    (badLast.dev.view 0).map (·.flags) = some 0 ∧
    (HdckDevctl.run 6 badLast).map (fun r => ((r.2.dev.view 0).map (·.flags),
      (apaReadHeader r.2.dev.disk 0).map (·.flags))) = some (some 1, some 1) := by
  decide +kernel

/-- The last partition is cut off, and the bit meant for the buffer of the MBR makes its header one of a sub-partition. -/
theorem HdckDevctl_flags :
    Ready badLast.dev ∧ ¬ wlp HdckDevctl badLast fun _ st' => LinksOnly badLast st' := by
  refine ⟨badLast_ready, fun hlinks => ?_⟩
  obtain ⟨hbefore, hafter⟩ := badLast_run
  obtain ⟨h₀, hview, hflags⟩ := Option.map_eq_some_iff.mp hbefore
  obtain ⟨⟨r, st'⟩, hrun, hshown⟩ := Option.map_eq_some_iff.mp hafter
  obtain ⟨h, hview', hflags'⟩ := Option.map_eq_some_iff.mp (Prod.mk.inj hshown).1
  obtain ⟨heq, -⟩ := hlinks r st' ⟨6, hrun⟩ 0 h₀ h .mbr .mbr hview (.inl hview') (.inl rfl)
  rw [heq] at hflags'
  exact absurd (hflags.symm.trans hflags') (by decide)

end HddChecker.Hdck
