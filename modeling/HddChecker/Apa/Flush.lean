import HddChecker.Apa.Device

/-!
# What a flush of the dirty headers does

`apaCacheFlushAllDirty` is one commit of a redo log: the copies go to the sectors from 10 on, the index is sector 8, and the home writes are the headers in place. The functions below give its operations and its final state in closed form.
-/

namespace HddChecker.Apa

open HddChecker

/-! ### Buffers -/

theorem findBuf_eq_none {cache : List ApaCache} {s : Nat} :
    findBuf cache s = none ↔ ∀ b ∈ cache, b.sector ≠ s := by
  simp [findBuf, List.find?_eq_none]

theorem findBuf_some {cache : List ApaCache} {s : Nat} {b : ApaCache}
    (h : findBuf cache s = some b) : b ∈ cache ∧ b.sector = s :=
  ⟨List.mem_of_find?_eq_some h, by simpa using List.find?_some h⟩

/-- Each sector has one buffer at most. -/
def Keyed (cache : List ApaCache) : Prop := (cache.map (·.sector)).Nodup

theorem Keyed.eq_of_sector {cache : List ApaCache} (h : Keyed cache) {a b : ApaCache}
    (ha : a ∈ cache) (hb : b ∈ cache) (hs : a.sector = b.sector) : a = b :=
  List.inj_on_of_nodup_map h ha hb hs

theorem Keyed.findBuf {cache : List ApaCache} (h : Keyed cache) {b : ApaCache} (hb : b ∈ cache) :
    findBuf cache b.sector = some b := by
  cases hf : Apa.findBuf cache b.sector with
  | none => exact (findBuf_eq_none.mp hf b hb rfl).elim
  | some c =>
    obtain ⟨hc, hs⟩ := findBuf_some hf
    rw [h.eq_of_sector hc hb hs]

/-- A buffer is added for a sector that has none. -/
theorem Keyed.concat {cache : List ApaCache} (h : Keyed cache) {b : ApaCache}
    (hnew : Apa.findBuf cache b.sector = none) : Keyed (cache ++ [b]) := by
  unfold Keyed at *
  simp only [List.map_append, List.map_cons, List.map_nil]
  refine List.nodup_append.mpr ⟨h, List.nodup_singleton _, fun s hs t ht => ?_⟩
  obtain ⟨c, hc, rfl⟩ := List.mem_map.mp hs
  rw [List.mem_singleton.mp ht]
  exact findBuf_eq_none.mp hnew c hc

theorem Device.store_of_mem {d : Device} {s : Nat} {f : ApaCache → ApaCache}
    (h : ∃ b ∈ d.cache, b.sector = s) : d.store s f = { d with cache := mapBuf s f d.cache } := by
  cases hf : findBuf d.cache s with
  | none =>
    obtain ⟨b, hb, hs⟩ := h
    exact (findBuf_eq_none.mp hf b hb hs).elim
  | some c => simp [store, hf]

theorem mem_mapBuf_sector {cache : List ApaCache} {s t : Nat} {f : ApaCache → ApaCache}
    (hf : ∀ b, (f b).sector = b.sector) (h : ∃ b ∈ cache, b.sector = t) :
    ∃ b ∈ mapBuf s f cache, b.sector = t := by
  obtain ⟨b, hb, rfl⟩ := h
  refine ⟨_, List.mem_map_of_mem hb, ?_⟩
  split
  · exact hf b
  · rfl

/-- A pass over some buffers of the cache, each of which changes itself. -/
theorem foldl_mapBuf {cache : List ApaCache} (hkeyed : Keyed cache)
    (f : ApaCache → ApaCache → ApaCache) (φ : ApaCache → ApaCache) (hφ : ∀ b, (φ b).sector = b.sector)
    (hf : ∀ b ∈ cache, f b b = φ b) (L : List ApaCache) (hL : ∀ b ∈ L, b ∈ cache)
    (hnodup : (L.map (·.sector)).Nodup) :
    L.foldl (fun c x => mapBuf x.sector (f x) c) cache =
      cache.map fun b => if b.sector ∈ L.map (·.sector) then φ b else b := by
  suffices hgen : ∀ S : List Nat, (∀ x ∈ L, x.sector ∉ S) →
      L.foldl (fun c x => mapBuf x.sector (f x) c)
        (cache.map fun b => if b.sector ∈ S then φ b else b) =
      cache.map fun b => if b.sector ∈ S ++ L.map (·.sector) then φ b else b by
    simpa using hgen [] (by simp)
  induction L with
  | nil => simp
  | cons x L ih =>
    intro S hS
    have hx := hL x List.mem_cons_self
    rw [List.map_cons, List.nodup_cons] at hnodup
    rw [List.foldl_cons, mapBuf, List.map_map]
    have hstep : cache.map ((fun b => if b.sector = x.sector then f x b else b) ∘
        fun b => if b.sector ∈ S then φ b else b) =
        cache.map fun b => if b.sector ∈ S ++ [x.sector] then φ b else b := by
      refine List.map_congr_left fun b hb => ?_
      by_cases hbx : b.sector = x.sector
      · have heq := hkeyed.eq_of_sector hb hx hbx
        subst heq
        simp [hS b List.mem_cons_self, hf b hb]
      · by_cases hbS : b.sector ∈ S
        · simp [hbS, hφ, hbx]
        · simp [hbS, hbx]
    rw [hstep, ih (fun b hb => hL b (List.mem_cons_of_mem _ hb)) hnodup.2 (S ++ [x.sector])]
    · simp
    · intro y hy hmem
      rcases List.mem_append.mp hmem with hmem | hmem
      · exact hS y (List.mem_cons_of_mem _ hy) hmem
      · rw [List.mem_singleton] at hmem
        exact hnodup.1 (hmem ▸ List.mem_map_of_mem hy)

/-! ### The writes of a flush -/

/-- The buffers a flush writes out, in the order of their slots. -/
def dirtyBufs (cache : List ApaCache) : List ApaCache := cache.filter (·.dirty)

/-- The two sectors of a header, written at `lba`. -/
def headerWrites (lba : Nat) (h : ApaHeader) : List (Nat × Option Sector) :=
  writesAt lba [h.first, h.second]

theorem mem_headerWrites {lba : Nat} {h : ApaHeader} {w : Nat × Option Sector} :
    w ∈ headerWrites lba h ↔ w = (lba, some h.first) ∨ w = (lba + 1, some h.second) := by
  simp [headerWrites, writesAt]

/-- The journal copies of the buffers `L`, the first of them copy `n`. -/
def journalCopies : Nat → List ApaCache → List (Nat × Option Sector)
  | _, [] => []
  | n, b :: L =>
    headerWrites (2 * n + APA_SECTOR_APAL_HEADERS) b.header.sealed ++ journalCopies (n + 1) L

/-- The headers of the buffers `L`, written in place. -/
def homeWrites (L : List ApaCache) : List (Nat × Option Sector) :=
  L.flatMap fun b => headerWrites b.sector b.header.sealed

/-- The journal index after `apaJournalWrite` of the buffers `L`. -/
def journalIndex (j : ApaJournal) (L : List ApaCache) : ApaJournal :=
  L.foldl (fun j b => j.push b.sector) j

/-- A header as a flush leaves it in the cache. -/
def ApaCache.flushed (b : ApaCache) : ApaCache :=
  if b.dirty then { b with header := b.header.sealed, dirty := false } else b

@[simp] theorem ApaCache.flushed_sector (b : ApaCache) : b.flushed.sector = b.sector := by
  unfold flushed
  split <;> rfl

@[simp] theorem ApaCache.flushed_dirty (b : ApaCache) : b.flushed.dirty = false := by
  unfold flushed
  split <;> simp_all

theorem mem_journalCopies {n : Nat} {L : List ApaCache} {w : Nat × Option Sector}
    (hw : w ∈ journalCopies n L) : 2 * n + 10 ≤ w.1 ∧ w.1 < 2 * (n + L.length) + 10 := by
  induction L generalizing n with
  | nil => cases hw
  | cons b L ih =>
    rw [journalCopies, List.mem_append, mem_headerWrites] at hw
    simp only [APA_SECTOR_APAL_HEADERS] at hw
    rw [List.length_cons]
    rcases hw with (rfl | rfl) | hw
    · simp only
      omega
    · simp only
      omega
    · have := ih hw
      omega

theorem journalCopies_unique {n : Nat} {L : List ApaCache} {a : Nat} {x y : Option Sector}
    (hx : (a, x) ∈ journalCopies n L) (hy : (a, y) ∈ journalCopies n L) : y = x := by
  induction L generalizing n with
  | nil => cases hx
  | cons b L ih =>
    rw [journalCopies, List.mem_append, mem_headerWrites] at hx hy
    simp only [APA_SECTOR_APAL_HEADERS, Prod.mk.injEq] at hx hy
    rcases hx with (⟨rfl, rfl⟩ | ⟨rfl, rfl⟩) | hx
    · rcases hy with (⟨_, rfl⟩ | ⟨h, _⟩) | hy
      · rfl
      · omega
      · have := (mem_journalCopies hy).1
        simp only at this
        omega
    · rcases hy with (⟨h, _⟩ | ⟨_, rfl⟩) | hy
      · omega
      · rfl
      · have := (mem_journalCopies hy).1
        simp only at this
        omega
    · rcases hy with (⟨h, _⟩ | ⟨h, _⟩) | hy
      · have := (mem_journalCopies hx).1
        simp only at this
        omega
      · have := (mem_journalCopies hx).1
        simp only at this
        omega
      · exact ih hx hy

theorem mem_homeWrites {L : List ApaCache} {w : Nat × Option Sector} :
    w ∈ homeWrites L ↔ ∃ b ∈ L, w = (b.sector, some b.header.sealed.first) ∨
      w = (b.sector + 1, some b.header.sealed.second) := by
  simp [homeWrites, List.mem_flatMap, mem_headerWrites]

/-! ### The two loops -/

namespace Device

theorem ataWrite_of_good {d : Device} (hgood : ∀ a, d.badWrite a = false) (lba : Nat)
    (data : List Sector) : ataWrite lba data d = (0, { d with
      disk := applyWrites (writesAt lba data) d.disk
      ops := d.ops ++ (writesAt lba data).map fun w => .write w.1 w.2 }) := by
  simp [ataWrite, hgood]

theorem apaJournalFlush_of_good {d : Device} (hgood : ∀ a, d.badWrite a = false) :
    d.apaJournalFlush = (0, { d with
      disk := Function.update d.disk APA_SECTOR_APAL (some d.journalBuf.toSector)
      ops := d.ops ++ [.flush, .write APA_SECTOR_APAL (some d.journalBuf.toSector), .flush] }) := by
  have hwrite := ataWrite_of_good (d := d.ataFlushCache) (by simpa [ataFlushCache] using hgood)
    APA_SECTOR_APAL [d.journalBuf.toSector]
  unfold apaJournalFlush
  rw [hwrite]
  simp [ataFlushCache, writesAt]

private theorem forDirty_eq (f : ApaCache → Device → Int × Device) (bufs : List ApaCache) (d : Device) :
    forDirty f bufs d = (dirtyBufs bufs).foldl (fun d b => (f b d).2) d := by
  induction bufs generalizing d with
  | nil => rfl
  | cons b bufs ih =>
    unfold forDirty dirtyBufs at *
    rw [List.foldl_cons, ih]
    by_cases hb : b.dirty = true
    · simp [hb]
    · simp [hb]

private theorem foldl_apaJournalWrite {L : List ApaCache} {d : Device} {n : Nat}
    (hgood : ∀ a, d.badWrite a = false) (hnum : d.journalBuf.num = n)
    (hmem : ∀ x ∈ L, ∃ b ∈ d.cache, b.sector = x.sector) :
    L.foldl (fun d b => (apaJournalWrite b d).2) d = { d with
      disk := applyWrites (journalCopies n L) d.disk
      ops := d.ops ++ (journalCopies n L).map fun w => .write w.1 w.2
      cache := L.foldl (fun c x => mapBuf x.sector
        (fun b => { b with header := x.header.sealed }) c) d.cache
      journalBuf := journalIndex d.journalBuf L } := by
  induction L generalizing d n with
  | nil => simp [journalCopies, journalIndex]
  | cons b L ih =>
    have hstep : (apaJournalWrite b d).2 = { d with
        disk := applyWrites (headerWrites (2 * n + APA_SECTOR_APAL_HEADERS) b.header.sealed) d.disk
        ops := d.ops ++ (headerWrites (2 * n + APA_SECTOR_APAL_HEADERS) b.header.sealed).map
          fun w => .write w.1 w.2
        cache := mapBuf b.sector (fun c => { c with header := b.header.sealed }) d.cache
        journalBuf := d.journalBuf.push b.sector } := by
      have hlba : (2 * d.journalBuf.num).toNat = 2 * n := by omega
      have hstore : setHeader b.sector (fun _ => b.header.sealed) d = { d with
          cache := mapBuf b.sector (fun c => { c with header := b.header.sealed }) d.cache } :=
        store_of_mem (hmem b List.mem_cons_self)
      have hwrite := ataWrite_of_good (d := setHeader b.sector (fun _ => b.header.sealed) d)
        (by rw [hstore]; exact hgood) (2 * n + APA_SECTOR_APAL_HEADERS)
        [b.header.sealed.first, b.header.sealed.second]
      rw [hstore] at hwrite
      simp only [apaJournalWrite, hstore, hlba, hwrite]
      rfl
    have hrest : ∀ x ∈ L, ∃ c ∈ mapBuf b.sector
        (fun c => { c with header := b.header.sealed }) d.cache, c.sector = x.sector :=
      fun x hx => mem_mapBuf_sector (fun _ => rfl) (hmem x (List.mem_cons_of_mem _ hx))
    rw [List.foldl_cons, hstep, ih (n := n + 1) (by simpa using hgood)
      (by simp [ApaJournal.push, hnum]) hrest]
    simp [journalCopies, journalIndex, applyWrites_append, List.append_assoc]

private theorem foldl_apaCacheTransferWrite {L : List ApaCache} {d : Device}
    (hgood : ∀ a, d.badWrite a = false) (hmem : ∀ x ∈ L, ∃ b ∈ d.cache, b.sector = x.sector) :
    L.foldl (fun d b => (apaCacheTransferWrite b d).2) d = { d with
      disk := applyWrites (L.flatMap fun b => headerWrites b.sector b.header) d.disk
      ops := d.ops ++ (L.flatMap fun b => headerWrites b.sector b.header).map
        fun w => .write w.1 w.2
      cache := L.foldl (fun c x => mapBuf x.sector (fun b => { b with dirty := false }) c)
        d.cache } := by
  induction L generalizing d with
  | nil => simp
  | cons b L ih =>
    have hstep : (apaCacheTransferWrite b d).2 = { d with
        disk := applyWrites (headerWrites b.sector b.header) d.disk
        ops := d.ops ++ (headerWrites b.sector b.header).map fun w => .write w.1 w.2
        cache := mapBuf b.sector (fun c => { c with dirty := false }) d.cache } := by
      unfold apaCacheTransferWrite
      rw [ataWrite_of_good hgood]
      exact store_of_mem (d := { d with
        disk := applyWrites (headerWrites b.sector b.header) d.disk
        ops := d.ops ++ (headerWrites b.sector b.header).map fun w => .write w.1 w.2 })
        (hmem b List.mem_cons_self)
    have hrest : ∀ x ∈ L, ∃ c ∈ mapBuf b.sector
        (fun c => { c with dirty := false }) d.cache, c.sector = x.sector :=
      fun x hx => mem_mapBuf_sector (fun _ => rfl) (hmem x (List.mem_cons_of_mem _ hx))
    rw [List.foldl_cons, hstep, ih (by simpa using hgood) hrest]
    simp [applyWrites_append, List.append_assoc]

end Device

private theorem dirtyBufs_sublist (cache : List ApaCache) : (dirtyBufs cache).Sublist cache :=
  List.filter_sublist

theorem mem_dirtyBufs {cache : List ApaCache} {b : ApaCache} :
    b ∈ dirtyBufs cache ↔ b ∈ cache ∧ b.dirty = true := List.mem_filter

theorem Keyed.mem_dirtySectors {cache : List ApaCache} (h : Keyed cache) {b : ApaCache}
    (hb : b ∈ cache) : b.sector ∈ (dirtyBufs cache).map (·.sector) ↔ b.dirty = true := by
  constructor
  · intro hmem
    obtain ⟨c, hc, hs⟩ := List.mem_map.mp hmem
    obtain ⟨hc, hd⟩ := mem_dirtyBufs.mp hc
    rwa [← h.eq_of_sector hc hb hs]
  · exact fun hd => List.mem_map_of_mem (mem_dirtyBufs.mpr ⟨hb, hd⟩)

theorem Keyed.dirtySectors_nodup {cache : List ApaCache} (h : Keyed cache) :
    ((dirtyBufs cache).map (·.sector)).Nodup :=
  List.Nodup.sublist ((dirtyBufs_sublist cache).map _) h

/-- The operations of a flush of the buffers `L`, the index written being `full`. -/
def flushOps (L : List ApaCache) (full : ApaJournal) : List (DiskOp (Option Sector)) :=
  ((journalCopies 0 L).map fun w => .write w.1 w.2) ++
    ([.flush, .write APA_SECTOR_APAL (some full.toSector), .flush] ++
      (((homeWrites L).map fun w => .write w.1 w.2) ++
        [.flush, .write APA_SECTOR_APAL (some ApaJournal.reset.toSector), .flush]))

/-- `apaCacheFlushAllDirty` in closed form. -/
theorem apaCacheFlushAllDirty_eq {d : Device} (hkeyed : Keyed d.cache)
    (hgood : ∀ a, d.badWrite a = false) (hnum : d.journalBuf.num = 0) :
    d.apaCacheFlushAllDirty = (0, { d with
      disk := Function.update (applyWrites (homeWrites (dirtyBufs d.cache))
        (Function.update (applyWrites (journalCopies 0 (dirtyBufs d.cache)) d.disk)
          APA_SECTOR_APAL (some (journalIndex d.journalBuf (dirtyBufs d.cache)).toSector)))
        APA_SECTOR_APAL (some ApaJournal.reset.toSector)
      ops := d.ops ++
        flushOps (dirtyBufs d.cache) (journalIndex d.journalBuf (dirtyBufs d.cache))
      cache := d.cache.map ApaCache.flushed
      journalBuf := ApaJournal.reset }) := by
  set L := dirtyBufs d.cache with hL
  have hsealed : L.foldl (fun c x => mapBuf x.sector
      (fun b => { b with header := x.header.sealed }) c) d.cache =
      d.cache.map fun b => if b.dirty then { b with header := b.header.sealed } else b := by
    rw [foldl_mapBuf hkeyed (fun x b => { b with header := x.header.sealed })
      (fun b => { b with header := b.header.sealed }) (fun _ => rfl) (fun _ _ => rfl) L
      (fun b hb => (mem_dirtyBufs.mp hb).1) hkeyed.dirtySectors_nodup]
    refine List.map_congr_left fun b hb => ?_
    simp only [hL, hkeyed.mem_dirtySectors hb]
  have hkeyed' : Keyed (d.cache.map fun b =>
      if b.dirty then { b with header := b.header.sealed } else b) := by
    have hsectors : (d.cache.map fun b =>
        if b.dirty then { b with header := b.header.sealed } else b).map (·.sector) =
        d.cache.map (·.sector) := by
      rw [List.map_map]
      refine List.map_congr_left fun b _ => ?_
      simp only [Function.comp]
      split <;> rfl
    rw [Keyed, hsectors]
    exact hkeyed
  have hdirty : dirtyBufs (d.cache.map fun b =>
      if b.dirty then { b with header := b.header.sealed } else b) =
      L.map fun b => { b with header := b.header.sealed } := by
    rw [hL, dirtyBufs, dirtyBufs, List.filter_map]
    have hcomp : ((fun b : ApaCache => b.dirty) ∘ fun b : ApaCache =>
        if b.dirty then { b with header := b.header.sealed } else b) = fun b => b.dirty := by
      funext b
      simp only [Function.comp]
      split <;> rfl
    rw [hcomp]
    refine List.map_congr_left fun b hb => ?_
    rw [if_pos (by simpa using (List.mem_filter.mp hb).2)]
  have hclean : (dirtyBufs (d.cache.map fun b =>
      if b.dirty then { b with header := b.header.sealed } else b)).foldl
        (fun c x => mapBuf x.sector (fun b => { b with dirty := false }) c)
        (d.cache.map fun b => if b.dirty then { b with header := b.header.sealed } else b) =
      d.cache.map ApaCache.flushed := by
    rw [foldl_mapBuf hkeyed' (fun x b => { b with dirty := false })
      (fun b => { b with dirty := false }) (fun _ => rfl) (fun _ _ => rfl) _
      (fun b hb => (mem_dirtyBufs.mp hb).1) hkeyed'.dirtySectors_nodup, List.map_map]
    refine List.map_congr_left fun b hb => ?_
    have hmem := hkeyed'.mem_dirtySectors (List.mem_map_of_mem hb)
    simp only [Function.comp, hmem]
    unfold ApaCache.flushed
    by_cases hd : b.dirty = true
    · simp [hd]
    · simp [hd]
  have hhome : (dirtyBufs (d.cache.map fun b =>
      if b.dirty then { b with header := b.header.sealed } else b)).flatMap
        (fun b => headerWrites b.sector b.header) = homeWrites L := by
    rw [hdirty, List.flatMap_map]
    rfl
  simp only [Device.apaCacheFlushAllDirty, Device.forDirty_eq]
  rw [Device.foldl_apaJournalWrite hgood (n := 0) (by simpa using hnum)
    (fun b hb => ⟨b, (mem_dirtyBufs.mp hb).1, rfl⟩), ← hL, hsealed]
  rw [Device.apaJournalFlush_of_good (by simpa using hgood)]
  simp only
  rw [Device.foldl_apaCacheTransferWrite (by simpa using hgood)
    (fun b hb => ⟨b, (mem_dirtyBufs.mp hb).1, rfl⟩), hhome, hclean,
    Device.apaJournalReset, Device.apaJournalFlush_of_good (by simpa using hgood)]
  simp [flushOps]

end HddChecker.Apa
