import HddChecker.Apa.Steady
import HddChecker.Hdck.Repair

/-!
# Laws for the headers of a drive

A law says which headers may stand at which sector: its headers name only sectors where headers may stand, the links and the number of subs may change, and empty headers may stand everywhere but at the MBR. Steps on headers that agree with a law keep a drive within it, both in the cache and on the disk, whichever writes fail.
-/

namespace HddChecker.Hdck

open HddChecker Apa Apa.Device Prog

/-- The fields of a header that name sectors or distances name multiples of the smallest partition. -/
structure Aligned (h : ApaHeader) : Prop where
  next : Slot h.next
  prev : Slot h.prev
  start : Slot h.start
  length : Slot h.length
  sub : ∀ i, Slot (h.sub i).start ∧ Slot (h.sub i).length

/-- A law for the headers of a drive. -/
structure Law (G : Nat → ApaHeader → Prop) : Prop where
  aligned : ∀ {s h}, G s h → Aligned h
  checksum : ∀ {s h}, G s h → G s h.sealed
  next : ∀ {s h n}, G s h → Slot n → G s { h with next := n }
  prev : ∀ {s h n}, G s h → Slot n → G s { h with prev := n }
  nsub : ∀ {s h n}, G s h → n < h.nsub → G s { h with nsub := n }
  empty : ∀ {s h}, Slot s → s ≠ 0 → Aligned h → h.isFree = true → G s h
  mbr : ∀ {h}, G 0 h → h.start = 0 ∧ h.isFree = false

/-- The buffers stand at places of headers; the headers they show are as `V` says and those on the disk as `G` says; only the buffers of `L` are dirty. -/
structure Near (V G : Nat → ApaHeader → Prop) (L : List Nat) (d : Device) : Prop where
  keyed : Keyed d.cache
  placed : ∀ b ∈ d.cache, Slot b.sector
  dirty : ∀ s, d.isDirty s = true → s ∈ L
  view : ∀ s h, Slot s → d.view s = some h → V s h
  disk : ∀ s h, Slot s → apaReadHeader d.disk s = some h → G s h

/-- Between two calls the journal is empty too. Which writes fail is left open. -/
structure Within (V G : Nat → ApaHeader → Prop) (L : List Nat) (d : Device) : Prop
    extends Near V G L d where
  num : d.journalBuf.num = 0

variable {V W G : Nat → ApaHeader → Prop} {L M : List Nat} {d e : Device} {s t : Nat}

/-! ### Places -/

theorem slot_zero : Slot 0 := Nat.dvd_zero _

theorem slot_u32 {n : Nat} (h : Slot n) : Slot (u32 n) :=
  (Nat.dvd_mod_iff (show 0x40000 ∣ 2 ^ 32 by decide)).mpr h

theorem slot_add {n k : Nat} (hn : Slot n) (hk : Slot k) : Slot (n + k) := Nat.dvd_add hn hk

theorem slot_sub {n k : Nat} (hn : Slot n) (hk : Slot k) : Slot (u32 (n + 2 ^ 32 - u32 k)) :=
  slot_u32 (Nat.dvd_sub (slot_add hn ⟨0x4000, rfl⟩) (slot_u32 hk))

theorem aligned_zero : Aligned ApaHeader.zero where
  next := slot_zero
  prev := slot_zero
  start := slot_zero
  length := slot_zero
  sub i := by
    unfold ApaHeader.sub
    split <;> exact ⟨slot_zero, slot_zero⟩

theorem aligned_empty {start next prev length : Nat} (hstart : Slot start) (hnext : Slot next)
    (hprev : Slot prev) (hlength : Slot length) (created : Fin 2 → Nat) :
    Aligned (emptyHeader start next prev length created) where
  next := hnext
  prev := hprev
  start := hstart
  length := hlength
  sub := aligned_zero.sub

theorem eq_of_holds {c : Nat → Option Sector} {x y : ApaHeader} (h : Holds c s x)
    (hy : apaReadHeader c s = some y) : y = x := by
  rw [apaReadHeader, h.1, h.2] at hy
  simp only [ApaHeader.ofSectors_first_second] at hy
  split at hy
  · exact (Option.some.inj hy).symm
  · cases hy

/-! ### Buffers -/

private theorem not_dirty_store (h : (store s (fun b => { b with dirty := false }) d).isDirty t = true) :
    d.isDirty t = true ∧ t ≠ s := by
  obtain ⟨c, hc, rfl, hdirty⟩ := isDirty_eq_true.mp h
  unfold store at hc
  cases hbuf : findBuf d.cache s with
  | some b =>
    simp only [hbuf, mapBuf, List.mem_map] at hc
    obtain ⟨c', hc', rfl⟩ := hc
    split at hdirty
    · cases hdirty
    · rename_i hne
      rw [if_neg hne]
      exact ⟨isDirty_eq_true.mpr ⟨c', hc', rfl, hdirty⟩, hne⟩
  | none =>
    have hne := findBuf_eq_none.mp hbuf
    cases hread : apaReadHeader d.disk s with
    | some x =>
      simp only [hbuf, hread, List.mem_append, List.mem_singleton] at hc
      rcases hc with hc | rfl
      · exact ⟨isDirty_eq_true.mpr ⟨c, hc, rfl, hdirty⟩, hne c hc⟩
      · cases hdirty
    | none =>
      simp only [hbuf, hread] at hc
      exact ⟨isDirty_eq_true.mpr ⟨c, hc, rfl, hdirty⟩, hne c hc⟩

private theorem apaJournalFlush_journalBuf : d.apaJournalFlush.2.journalBuf = d.journalBuf := by
  unfold apaJournalFlush
  dsimp only
  split
  · rw [ataWrite_journalBuf]
    rfl
  · rw [ataFlushCache, ataWrite_journalBuf]
    rfl

namespace Near

/-- The buffer of a place is changed, under what it then shows. -/
theorem store (h : Near V G L d) (hs : Slot s) {f : ApaCache → ApaCache}
    (hf : ∀ b, (f b).sector = b.sector) (g : ApaHeader → ApaHeader)
    (hg : ∀ b, (f b).header = g b.header)
    (hdirty : ∀ t, (Device.store s f d).isDirty t = true → t ∈ M)
    (hold : ∀ t x, t ≠ s → V t x → W t x) (hnew : ∀ x, d.view s = some x → V s x → W s (g x)) :
    Near W G M (Device.store s f d) where
  keyed := keyed_store hf h.keyed
  placed := fun b hb => by
    rcases mem_store hf hb with rfl | ⟨c, hc, hbc⟩
    · exact hs
    · rw [hbc]
      exact h.placed c hc
  dirty := hdirty
  view := fun t x ht hx => by
    rw [view_store hf g hg] at hx
    split at hx
    · rename_i heq
      subst heq
      obtain ⟨y, hy, rfl⟩ := Option.map_eq_some_iff.mp hx
      exact hnew y hy (h.view _ y hs hy)
    · rename_i hne
      exact hold t x hne (h.view t x ht hx)
  disk := fun t x ht hx => h.disk t x ht (by rwa [store_disk] at hx)

/-- The cache and the headers on the disk are the same. -/
theorem of_eq (h : Near V G L d) (hcache : e.cache = d.cache)
    (hdisk : ∀ s, Slot s → e.disk s = d.disk s ∧ e.disk (s + 1) = d.disk (s + 1)) : Near V G L e where
  keyed := by
    rw [hcache]
    exact h.keyed
  placed := by
    rw [hcache]
    exact h.placed
  dirty := fun s hs => h.dirty s (by rwa [isDirty, hcache] at hs)
  view := fun s x hs hx => by
    rw [view_of_eq hcache (hdisk s hs).1 (hdisk s hs).2] at hx
    exact h.view s x hs hx
  disk := fun s x hs hx => by
    rw [apaReadHeader_congr (hdisk s hs).1 (hdisk s hs).2] at hx
    exact h.disk s x hs hx

theorem write (h : Near V G L d) {lba : Nat} {data : List Sector}
    (haway : ∀ s, Slot s → s + 1 < lba ∨ lba + data.length ≤ s) :
    Near V G L (ataWrite lba data d).2 := by
  refine h.of_eq (ataWrite_cache ..) fun s hs => ⟨ataWrite_disk_outside ?_, ataWrite_disk_outside ?_⟩
  · have := haway s hs
    omega
  · have := haway s hs
    omega

theorem journalFlush (h : Near V G L d) : Near V G L d.apaJournalFlush.2 := by
  have hwritten : Near V G L (ataWrite APA_SECTOR_APAL [d.journalBuf.toSector] d.ataFlushCache).2 := by
    refine (h.of_eq (e := d.ataFlushCache) rfl fun _ _ => ⟨rfl, rfl⟩).write fun s hs => ?_
    have hclear := places_slot.clear s hs
    obtain ⟨k, rfl⟩ := hs
    simp only [APA_SECTOR_SECTOR_ERROR, APA_SECTOR_APAL_HEADERS] at hclear
    simp only [APA_SECTOR_APAL, List.length_singleton]
    omega
  unfold apaJournalFlush
  dsimp only
  split
  · exact hwritten
  · exact hwritten.of_eq rfl fun _ _ => ⟨rfl, rfl⟩

private theorem journalWrite (hlaw : Law G) (h : Near G G L d) {b : ApaCache} (hs : Slot b.sector)
    (hb : G b.sector b.header) {n : Nat} (hnum : d.journalBuf.num = n) (hn : n < 126) :
    Near G G L (apaJournalWrite b d).2 ∧
      ∃ m ≤ n + 1, (apaJournalWrite b d).2.journalBuf.num = (m : Nat) := by
  have hsealed : Near G G L (Device.setHeader b.sector (fun _ => b.header.sealed) d) := by
    refine h.store (f := fun c => { c with header := b.header.sealed }) hs (fun _ => rfl)
      (fun _ => b.header.sealed) (fun _ => rfl) (fun t ht => h.dirty t ?_) (fun _ _ _ hx => hx)
      fun _ _ _ => hlaw.checksum hb
    rwa [isDirty_store (f := fun c => { c with header := b.header.sealed }) (fun _ => rfl)
      fun _ => rfl] at ht
  have hnum' : (Device.setHeader b.sector (fun _ => b.header.sealed) d).journalBuf.num = n := by
    rw [Device.setHeader, store_journalBuf, hnum]
  unfold apaJournalWrite
  simp only [hnum']
  have haway (s : Nat) (hs : Slot s) :
      s + 1 < (2 * (n : Int)).toNat + APA_SECTOR_APAL_HEADERS ∨
        (2 * (n : Int)).toNat + APA_SECTOR_APAL_HEADERS + 2 ≤ s := by
    have hclear := places_slot.clear s hs
    obtain ⟨k, rfl⟩ := hs
    simp only [APA_SECTOR_SECTOR_ERROR, APA_SECTOR_APAL_HEADERS] at hclear ⊢
    omega
  have hwritten : Near G G L (ataWrite ((2 * (n : Int)).toNat + APA_SECTOR_APAL_HEADERS)
      [b.header.sealed.first, b.header.sealed.second] _).2 := hsealed.write haway
  split
  · exact ⟨hwritten, n, by omega, by rw [ataWrite_journalBuf, hnum']⟩
  · refine ⟨hwritten.of_eq rfl fun _ _ => ⟨rfl, rfl⟩, n + 1, le_refl _, ?_⟩
    rw [ApaJournal.push, ataWrite_journalBuf, hnum']
    rfl

private theorem journalWrites (hlaw : Law G) {bufs : List ApaCache}
    (hbufs : ∀ b ∈ bufs, b.dirty = true → Slot b.sector ∧ G b.sector b.header) (h : Near G G L d)
    {n : Nat} (hnum : d.journalBuf.num = n) (hfew : n + (dirtyBufs bufs).length ≤ 126) :
    Near G G L (forDirty apaJournalWrite bufs d) := by
  induction bufs generalizing d n with
  | nil => exact h
  | cons b rest ih =>
    have hrest := fun c hc => hbufs c (List.mem_cons_of_mem _ hc)
    rw [forDirty, List.foldl_cons, ← forDirty]
    cases hdirty : b.dirty with
    | false =>
      refine ih hrest h hnum ?_
      simpa [dirtyBufs, hdirty] using hfew
    | true =>
      have hlen : (dirtyBufs (b :: rest)).length = (dirtyBufs rest).length + 1 := by
        simp [dirtyBufs, hdirty]
      obtain ⟨hs, hb⟩ := hbufs b List.mem_cons_self hdirty
      obtain ⟨hstep, m, hm, hnum'⟩ := h.journalWrite hlaw hs hb hnum (by omega)
      exact ih hrest hstep hnum' (by omega)

/-- Where a header reaches the disk, or fails to, its buffer is clean. -/
theorem transferWrite (h : Near G G L d) {b : ApaCache} (hs : Slot b.sector)
    (hb : G b.sector b.header) (hL : ∀ t ∈ L, t ≠ b.sector → t ∈ M) :
    Near G G M (apaCacheTransferWrite b d).2 := by
  have hread : ∀ t x, Slot t →
      apaReadHeader (ataWrite b.sector [b.header.first, b.header.second] d).2.disk t = some x →
        G t x := by
    intro t x ht hx
    by_cases hts : t = b.sector
    · subst hts
      unfold ataWrite at hx
      split at hx
      · exact h.disk _ x ht hx
      · have hholds : Holds (applyWrites (writesAt b.sector [b.header.first, b.header.second]) d.disk)
            b.sector b.header :=
          ⟨applyWrites_writesAt (k := 0) (by simp), applyWrites_writesAt (k := 1) (by simp)⟩
        rw [eq_of_holds hholds hx]
        exact hb
    · have hlt := places_slot.apart t b.sector ht hs
      have hgt := places_slot.apart b.sector t hs ht
      rw [apaReadHeader_congr (ataWrite_disk_outside (by simp; omega))
        (ataWrite_disk_outside (by simp; omega))] at hx
      exact h.disk t x ht hx
  have hwritten : Near G G L (ataWrite b.sector [b.header.first, b.header.second] d).2 := by
    refine ⟨by simpa using h.keyed, by simpa using h.placed, fun t ht => h.dirty t ?_,
      fun t x ht hx => ?_, hread⟩
    · rwa [isDirty, ataWrite_cache] at ht
    · unfold Device.view at hx
      rw [ataWrite_cache] at hx
      split at hx
      · rename_i c hc
        exact h.view t x ht (by simpa [Device.view, hc] using hx)
      · exact hread t x ht hx
  refine hwritten.store (f := fun c => { c with dirty := false }) hs (fun _ => rfl) id (fun _ => rfl)
    (fun t ht => ?_) (fun _ _ _ hx => hx) fun _ _ hx => hx
  obtain ⟨hdirty, hne⟩ := not_dirty_store ht
  exact hL t (hwritten.dirty t hdirty) hne

private theorem transferWrites {bufs : List ApaCache}
    (hbufs : ∀ b ∈ bufs, b.dirty = true → Slot b.sector ∧ G b.sector b.header)
    (h : Near G G ((dirtyBufs bufs).map (·.sector)) d) :
    Near G G [] (forDirty apaCacheTransferWrite bufs d) := by
  induction bufs generalizing d with
  | nil => exact h
  | cons b rest ih =>
    have hrest := fun c hc => hbufs c (List.mem_cons_of_mem _ hc)
    rw [forDirty, List.foldl_cons, ← forDirty]
    cases hdirty : b.dirty with
    | false =>
      refine ih hrest ?_
      simpa [dirtyBufs, hdirty] using h
    | true =>
      obtain ⟨hs, hb⟩ := hbufs b List.mem_cons_self hdirty
      refine ih hrest (h.transferWrite hs hb fun t ht hne => ?_)
      simpa [dirtyBufs, hdirty, hne] using ht

theorem lawful (h : Near G G L d) :
    ∀ b ∈ d.cache, b.dirty = true → Slot b.sector ∧ G b.sector b.header := by
  intro b hb _
  have hs := h.placed b hb
  exact ⟨hs, h.view _ _ hs (by rw [Device.view, h.keyed.findBuf hb])⟩

private theorem journalReset (h : Near V G L d) : Within V G L d.apaJournalReset.2 where
  toNear := (h.of_eq (e := { d with journalBuf := ApaJournal.reset }) rfl fun _ _ =>
    ⟨rfl, rfl⟩).journalFlush
  num := by
    rw [apaJournalReset, apaJournalFlush_journalBuf]
    rfl

end Near

namespace Within

theorem change (h : Within V G L d) (hs : Slot s) {f : ApaHeader → ApaHeader}
    (hold : ∀ t x, t ≠ s → V t x → W t x) (hnew : ∀ x, d.view s = some x → V s x → W s (f x)) :
    Within W G L (setHeader s f d) where
  toNear := h.store (f := fun b => { b with header := f b.header }) hs (fun _ => rfl) f (fun _ => rfl)
    (fun t ht => h.dirty t (by
      rwa [isDirty_store (f := fun b => { b with header := f b.header }) (fun _ => rfl)
        fun _ => rfl] at ht)) hold hnew
  num := by rw [Device.setHeader, store_journalBuf, h.num]

theorem setHeader (h : Within V G L d) (hs : Slot s) {f : ApaHeader → ApaHeader}
    (hf : ∀ x, d.view s = some x → V s x → V s (f x)) : Within V G L (setHeader s f d) :=
  h.change hs (fun _ _ _ hx => hx) hf

theorem counted (h : Within V G L d) (hs : Slot s) {f : ApaCache → ApaCache}
    (hf : ∀ b, (f b).sector = b.sector) (hh : ∀ b, (f b).header = b.header)
    (hd : ∀ b, (f b).dirty = b.dirty) : Within V G L (store s f d) where
  toNear := h.store hs hf id hh (fun t ht => h.dirty t (by rwa [isDirty_store hf hd] at ht))
    (fun _ _ _ hx => hx) fun _ _ hx => hx
  num := by rw [store_journalBuf, h.num]

theorem free (h : Within V G L d) (hs : Slot s) : Within V G L (apaCacheFree s d) := by
  refine h.counted hs (fun b => ?_) (fun b => ?_) fun b => ?_
  · split <;> rfl
  · split <;> rfl
  · split <;> rfl

theorem dirtied (h : Within V G L d) (hs : Slot s) : Within V G (s :: L) (setDirty s d) where
  toNear := h.store (f := fun b => { b with dirty := true }) hs (fun _ => rfl) id (fun _ => rfl)
    (fun t ht => by
      by_cases hview : (d.view s).isSome
      · rw [← setDirty, isDirty_setDirty hview] at ht
        simp only [Bool.or_eq_true, decide_eq_true_eq] at ht
        rcases ht with rfl | ht
        · exact List.mem_cons_self
        · exact List.mem_cons_of_mem _ (h.dirty t ht)
      · rw [Option.not_isSome_iff_eq_none] at hview
        unfold Device.view at hview
        unfold store at ht
        split at hview
        · cases hview
        · rename_i hbuf
          rw [hbuf, hview] at ht
          exact List.mem_cons_of_mem _ (h.dirty t ht)) (fun _ _ _ hx => hx) fun _ _ hx => hx
  num := by rw [setDirty, store_journalBuf, h.num]

theorem flush (hlaw : Law G) (h : Within G G L d) (hfew : L.length ≤ 126) :
    Within G G [] d.apaCacheFlushAllDirty.2 := by
  have hcount : (dirtyBufs d.cache).length ≤ 126 := by
    have hsub := h.keyed.dirtySectors_nodup.subperm fun s hs => h.dirty s (isDirty_iff_mem.mpr hs)
    have hlen := hsub.length_le
    rw [List.length_map] at hlen
    omega
  have hlogged := (h.toNear.journalWrites hlaw h.lawful (n := 0) h.num (by omega)).journalFlush
  have hwritten := Near.transferWrites hlogged.lawful
    { hlogged with dirty := fun s hs => isDirty_iff_mem.mp hs }
  exact hwritten.journalReset

theorem write (h : Within V G L d) {a : Nat} (ha : a = APA_SECTOR_SECTOR_ERROR) (sector : Sector) :
    Within V G L (ataWrite a [sector] d).2.ataFlushCache where
  toNear := by
    refine (h.toNear.write fun s hs => ?_).of_eq rfl fun _ _ => ⟨rfl, rfl⟩
    have hclear := places_slot.clear s hs
    simp only [APA_SECTOR_SECTOR_ERROR, APA_SECTOR_APAL_HEADERS] at hclear ha
    simp only [List.length_singleton]
    omega
  num := by rw [ataFlushCache, ataWrite_journalBuf, h.num]

/-- A header is there or it is not; the drive stays within the law. -/
theorem getHeader (h : Within V G L d) (hs : Slot s) :
    (∃ x e, d.view s = some x ∧ apaCacheGetHeader s d = (.ok s, e) ∧ (∀ t, e.view t = d.view t) ∧
      Within V G L e) ∨
      (∃ e, apaCacheGetHeader s d = (.error (- EIO), e) ∧ Within V G L e) := by
  have hview : ∀ (n : ApaCache → Nat) (t : Nat),
      (store s (fun b => { b with nused := n b }) d).view t = d.view t := by
    intro n t
    rw [view_store (f := fun b => { b with nused := n b }) (fun _ => rfl) id fun _ => rfl]
    simp
  have hcounted : ∀ n : ApaCache → Nat, Within V G L (store s (fun b => { b with nused := n b }) d) :=
    fun n => h.counted hs (f := fun b => { b with nused := n b }) (fun _ => rfl) (fun _ => rfl)
      fun _ => rfl
  unfold apaCacheGetHeader
  cases hbuf : findBuf d.cache s with
  | some b =>
    exact .inl ⟨b.header, _, by rw [Device.view, hbuf], rfl, hview _, hcounted _⟩
  | none =>
    cases hread : apaReadHeader d.disk s with
    | some x => exact .inl ⟨x, _, by rw [Device.view, hbuf, hread], rfl, hview _, hcounted _⟩
    | none => exact .inr ⟨_, rfl, h.write rfl _⟩

/-- A buffer is taken without a read, for a header that may be zero. -/
theorem getHeaderWrite (h : Within V G L d) (hs : Slot s) (hzero : V s ApaHeader.zero) :
    Within V G L (apaCacheGetHeaderWrite s d) := by
  unfold apaCacheGetHeaderWrite
  cases hbuf : findBuf d.cache s with
  | some b =>
    exact h.counted hs (f := fun b => { b with nused := b.nused + 1 }) (fun _ => rfl) (fun _ => rfl)
      fun _ => rfl
  | none =>
    refine ⟨⟨?_, fun b hb => ?_, fun t ht => h.dirty t ?_, fun t x ht hx => ?_, h.disk⟩, h.num⟩
    · exact h.keyed.concat hbuf
    · rcases List.mem_append.mp hb with hb | hb
      · exact h.placed b hb
      · rw [List.mem_singleton.mp hb]
        exact hs
    · simpa [isDirty] using ht
    · by_cases hts : t = s
      · subst hts
        simp only [Device.view, findBuf_append, hbuf, Option.none_or, if_true] at hx
        cases hx
        exact hzero
      · refine h.view t x ht ?_
        simpa [Device.view, findBuf_append, Ne.symm hts] using hx

theorem header_aligned (hlaw : Law G) (h : Within G G L d) (hs : Slot s) : Aligned (d.header s) := by
  rw [Device.header]
  cases hview : d.view s with
  | some x => exact hlaw.aligned (h.view s x hs hview)
  | none => exact aligned_zero

/-- A header that is empty or starts behind sector 0 is not that of the MBR. -/
theorem ne_zero (hlaw : Law G) (h : Within G G L d) {x : ApaHeader} (hx : d.view s = some x)
    (hother : x.start ≠ 0 ∨ x.isFree = true) : s ≠ 0 := by
  rintro rfl
  obtain ⟨hstart, hused⟩ := hlaw.mbr (h.view 0 x slot_zero hx)
  rcases hother with hother | hother
  · exact hother hstart
  · rw [hused] at hother
    cases hother

end Within

end HddChecker.Hdck
