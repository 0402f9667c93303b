import HddChecker.Apa.Crash

/-!
# The headers a driver sees

Between two flushes the functions of `apa.c` see each header through the cache. `Device.view` is what they see, `Device.isDirty` says which headers the next flush writes, and `Sound` is what every one of them keeps: the cache and the journal are in order and the buffers stand at places where two headers neither overlap nor meet the reserved sectors.
-/

namespace HddChecker.Apa

open HddChecker RedoLog

/-- Places for headers: off the error sectors and the log, and two sectors apart. -/
structure Places (S : Nat → Prop) : Prop where
  clear : ∀ s, S s → s + 2 ≤ APA_SECTOR_SECTOR_ERROR ∨ APA_SECTOR_APAL_HEADERS + 252 ≤ s
  apart : ∀ s t, S s → S t → s < t → s + 2 ≤ t

theorem Places.outside {S : Nat → Prop} (hS : Places S) {s a : Nat} (hs : S s)
    (ha : a = s ∨ a = s + 1) : apaLog.Outside a := by
  have hclear := hS.clear s hs
  refine OffLog.outside (s := s) ?_ ha
  simp only [OffLog, APA_SECTOR_APAL, APA_SECTOR_SECTOR_ERROR] at *
  omega

namespace Device

/-- The next flush writes the header at `s`. -/
def isDirty (d : Device) (s : Nat) : Bool := d.cache.any fun b => b.sector == s && b.dirty

theorem isDirty_eq_true {d : Device} {s : Nat} :
    d.isDirty s = true ↔ ∃ b ∈ d.cache, b.sector = s ∧ b.dirty = true := by
  simp [isDirty]

theorem isDirty_iff_mem {d : Device} {s : Nat} :
    d.isDirty s = true ↔ s ∈ (dirtyBufs d.cache).map (·.sector) := by
  rw [isDirty_eq_true, List.mem_map]
  constructor
  · rintro ⟨b, hb, hs, hd⟩
    exact ⟨b, mem_dirtyBufs.mpr ⟨hb, hd⟩, hs⟩
  · rintro ⟨b, hb, hs⟩
    exact ⟨b, (mem_dirtyBufs.mp hb).1, hs, (mem_dirtyBufs.mp hb).2⟩

end Device

theorem findBuf_mapBuf {cache : List ApaCache} {s t : Nat} {f : ApaCache → ApaCache}
    (hf : ∀ b, (f b).sector = b.sector) :
    findBuf (mapBuf s f cache) t =
      (findBuf cache t).map fun b => if b.sector = s then f b else b := by
  have hcomp : ((fun b : ApaCache => b.sector == t) ∘ fun b => if b.sector = s then f b else b) =
      fun b => b.sector == t := by
    funext b
    simp only [Function.comp]
    split
    · rw [hf]
    · rfl
  rw [findBuf, mapBuf, List.find?_map, hcomp]
  rfl

theorem findBuf_append {cache : List ApaCache} {b : ApaCache} {t : Nat} :
    findBuf (cache ++ [b]) t = (findBuf cache t).or (if b.sector = t then some b else none) := by
  simp only [findBuf, List.find?_append, List.find?_singleton, beq_iff_eq]

namespace Device

variable {d : Device} {s t : Nat}

/-- What a change of a buffer that keeps its sector does to the view. -/
theorem view_store {f : ApaCache → ApaCache} (hf : ∀ b, (f b).sector = b.sector)
    (g : ApaHeader → ApaHeader) (hg : ∀ b, (f b).header = g b.header) :
    (store s f d).view t = if t = s then (d.view t).map g else d.view t := by
  by_cases hts : t = s
  · subst hts
    unfold view store
    cases hbuf : findBuf d.cache t with
    | some b =>
      have hb := (findBuf_some hbuf).2
      simp [findBuf_mapBuf hf, hbuf, hb, hg]
    | none =>
      cases hread : apaReadHeader d.disk t with
      | some h => simp [findBuf_append, hbuf, hf, hg]
      | none => simp [hbuf, hread]
  · unfold view store
    rw [if_neg hts]
    cases hbuf : findBuf d.cache s with
    | some b =>
      cases hbuf' : findBuf d.cache t with
      | some c =>
        have hc := (findBuf_some hbuf').2
        simp [findBuf_mapBuf hf, hbuf', hc, hts]
      | none => simp [findBuf_mapBuf hf, hbuf']
    | none =>
      cases hread : apaReadHeader d.disk s with
      | some h => simp [findBuf_append, hf, Ne.symm hts]
      | none => simp

@[simp] theorem view_setHeader (g : ApaHeader → ApaHeader) :
    (setHeader s g d).view t = if t = s then (d.view t).map g else d.view t :=
  view_store (f := fun b => { b with header := g b.header }) (fun _ => rfl) g fun _ => rfl

@[simp] theorem view_setDirty : (setDirty s d).view t = d.view t := by
  rw [setDirty, view_store (f := fun b => { b with dirty := true }) (fun _ => rfl) id fun _ => rfl]
  simp

@[simp] theorem view_apaCacheFree : (apaCacheFree s d).view t = d.view t := by
  have hf : ∀ b : ApaCache,
      (if b.nused = 0 then b else { b with nused := b.nused - 1 }).sector = b.sector := by
    intro b
    split <;> rfl
  have hg : ∀ b : ApaCache,
      (if b.nused = 0 then b else { b with nused := b.nused - 1 }).header = id b.header := by
    intro b
    split <;> rfl
  rw [apaCacheFree, view_store hf id hg]
  simp

theorem isDirty_store {f : ApaCache → ApaCache} (hf : ∀ b, (f b).sector = b.sector)
    (hd : ∀ b, (f b).dirty = b.dirty) : (store s f d).isDirty t = d.isDirty t := by
  unfold isDirty store
  cases hbuf : findBuf d.cache s with
  | some b =>
    simp only [mapBuf, List.any_map]
    congr 1
    funext c
    simp only [Function.comp]
    split
    · rw [hf, hd]
    · rfl
  | none =>
    cases hread : apaReadHeader d.disk s with
    | some h => simp [hd]
    | none => rfl

@[simp] theorem isDirty_setHeader (g : ApaHeader → ApaHeader) :
    (setHeader s g d).isDirty t = d.isDirty t :=
  isDirty_store (f := fun b => { b with header := g b.header }) (fun _ => rfl) fun _ => rfl

@[simp] theorem isDirty_apaCacheFree : (apaCacheFree s d).isDirty t = d.isDirty t := by
  refine isDirty_store (fun b => ?_) fun b => ?_
  · split <;> rfl
  · split <;> rfl

theorem isDirty_setDirty (hs : (d.view s).isSome) :
    (setDirty s d).isDirty t = (decide (t = s) || d.isDirty t) := by
  rw [Bool.eq_iff_iff]
  simp only [Bool.or_eq_true, decide_eq_true_eq, isDirty_eq_true]
  unfold setDirty store view at *
  cases hbuf : findBuf d.cache s with
  | some b =>
    obtain ⟨hb, hbs⟩ := findBuf_some hbuf
    simp only [mapBuf, List.mem_map]
    constructor
    · rintro ⟨c, ⟨c', hc', rfl⟩, hct, hcd⟩
      by_cases hc's : c'.sector = s
      · rw [if_pos hc's] at hct
        exact .inl (hct.symm.trans hc's)
      · rw [if_neg hc's] at hct hcd
        exact .inr ⟨c', hc', hct, hcd⟩
    · rintro (rfl | ⟨c, hc, hct, hcd⟩)
      · exact ⟨_, ⟨b, hb, rfl⟩, by simp [hbs], by simp [hbs]⟩
      · refine ⟨_, ⟨c, hc, rfl⟩, ?_, ?_⟩
        · split <;> exact hct
        · split
          · rfl
          · exact hcd
  | none =>
    cases hread : apaReadHeader d.disk s with
    | some h =>
      simp only [List.mem_append, List.mem_singleton]
      constructor
      · rintro ⟨c, hc | rfl, hct, hcd⟩
        · exact .inr ⟨c, hc, hct, hcd⟩
        · exact .inl hct.symm
      · rintro (rfl | ⟨c, hc, hct, hcd⟩)
        · exact ⟨_, .inr rfl, rfl, rfl⟩
        · exact ⟨c, .inl hc, hct, hcd⟩
    | none => simp [hbuf, hread] at hs

theorem header_of_view {h : ApaHeader} (hview : d.view s = some h) : d.header s = h := by
  rw [header, hview, Option.getD_some]

/-! ### What every function keeps -/

/-- The cache and the journal of a drive are in order, and the buffers stand at places `S`. -/
structure Sound (S : Nat → Prop) (d : Device) : Prop where
  keyed : Keyed d.cache
  good : ∀ a, d.badWrite a = false
  magic : d.journalBuf.magic = APAL_MAGIC
  num : d.journalBuf.num = 0
  idle : IdleSector (d.disk APA_SECTOR_APAL)
  placed : ∀ b ∈ d.cache, S b.sector

/-- What reading headers leaves alone: everything but the buffers that hold them. -/
structure Same (S : Nat → Prop) (d e : Device) : Prop where
  disk : e.disk = d.disk
  ops : e.ops = d.ops
  view : ∀ s, e.view s = d.view s
  isDirty : ∀ s, e.isDirty s = d.isDirty s
  sound : Sound S d → Sound S e

variable {S : Nat → Prop} {e : Device}

theorem Same.refl (S : Nat → Prop) (d : Device) : Same S d d :=
  ⟨rfl, rfl, fun _ => rfl, fun _ => rfl, id⟩

theorem Same.trans {f : Device} (h : Same S d e) (h' : Same S e f) : Same S d f where
  disk := h'.disk.trans h.disk
  ops := h'.ops.trans h.ops
  view := fun s => (h'.view s).trans (h.view s)
  isDirty := fun s => (h'.isDirty s).trans (h.isDirty s)
  sound := fun hd => h'.sound (h.sound hd)

theorem Same.header (h : Same S d e) (s : Nat) : e.header s = d.header s := by
  rw [Device.header, h.view, Device.header]

theorem keyed_store {f : ApaCache → ApaCache} (hf : ∀ b, (f b).sector = b.sector)
    (h : Keyed d.cache) : Keyed (store s f d).cache := by
  unfold store Keyed at *
  cases hbuf : findBuf d.cache s with
  | some b =>
    have hmap : (mapBuf s f d.cache).map (·.sector) = d.cache.map (·.sector) := by
      rw [mapBuf, List.map_map]
      refine List.map_congr_left fun b _ => ?_
      simp only [Function.comp]
      split
      · exact hf b
      · rfl
    simpa only [hmap] using h
  | none =>
    cases hread : apaReadHeader d.disk s with
    | some h' =>
      refine Keyed.concat h ?_
      rw [hf]
      exact hbuf
    | none => exact h

theorem mem_store {f : ApaCache → ApaCache} (hf : ∀ b, (f b).sector = b.sector) {b : ApaCache}
    (hb : b ∈ (store s f d).cache) : b.sector = s ∨ ∃ c ∈ d.cache, b.sector = c.sector := by
  unfold store at hb
  cases hbuf : findBuf d.cache s with
  | some c =>
    simp only [hbuf, mapBuf, List.mem_map] at hb
    obtain ⟨c, hc, rfl⟩ := hb
    refine .inr ⟨c, hc, ?_⟩
    split
    · exact hf c
    · rfl
  | none =>
    cases hread : apaReadHeader d.disk s with
    | some h =>
      simp only [hbuf, hread, List.mem_append, List.mem_singleton] at hb
      rcases hb with hb | rfl
      · exact .inr ⟨b, hb, rfl⟩
      · exact .inl (hf _)
    | none =>
      simp only [hbuf, hread] at hb
      exact .inr ⟨b, hb, rfl⟩

/-- A change of sectors outside the journal. -/
theorem Sound.of_eq (h : Sound S d) (hcache : e.cache = d.cache) (hbad : e.badWrite = d.badWrite)
    (hjournal : e.journalBuf = d.journalBuf)
    (hidle : e.disk APA_SECTOR_APAL = d.disk APA_SECTOR_APAL) : Sound S e where
  keyed := by
    rw [hcache]
    exact h.keyed
  good := by
    rw [hbad]
    exact h.good
  magic := by
    rw [hjournal]
    exact h.magic
  num := by
    rw [hjournal]
    exact h.num
  idle := by
    rw [hidle]
    exact h.idle
  placed := by
    rw [hcache]
    exact h.placed

theorem view_of_eq (hcache : e.cache = d.cache) (h0 : e.disk s = d.disk s)
    (h1 : e.disk (s + 1) = d.disk (s + 1)) : e.view s = d.view s := by
  rw [view, view, hcache, apaReadHeader_congr h0 h1]

theorem Sound.store {f : ApaCache → ApaCache} (h : Sound S d) (hf : ∀ b, (f b).sector = b.sector)
    (hs : S s) : Sound S (store s f d) where
  keyed := keyed_store hf h.keyed
  good := by simpa using h.good
  magic := by simpa using h.magic
  num := by simpa using h.num
  idle := by simpa using h.idle
  placed := fun b hb => by
    rcases mem_store hf hb with rfl | ⟨c, hc, hbc⟩
    · exact hs
    · rw [hbc]
      exact h.placed c hc

theorem Sound.setHeader (h : Sound S d) (hs : S s) (g : ApaHeader → ApaHeader) :
    Sound S (setHeader s g d) :=
  h.store (f := fun b => { b with header := g b.header }) (fun _ => rfl) hs

theorem Sound.setDirty (h : Sound S d) (hs : S s) : Sound S (setDirty s d) :=
  h.store (f := fun b => { b with dirty := true }) (fun _ => rfl) hs

/-- A change of reference counts. -/
theorem same_store {f : ApaCache → ApaCache} (hf : ∀ b, (f b).sector = b.sector)
    (hh : ∀ b, (f b).header = b.header) (hd : ∀ b, (f b).dirty = b.dirty) (hs : S s) :
    Same S d (Device.store s f d) where
  disk := store_disk ..
  ops := store_ops ..
  view := fun t => by
    rw [view_store hf id hh]
    simp
  isDirty := fun t => isDirty_store hf hd
  sound := fun h => h.store hf hs

theorem same_apaCacheFree (hs : S s) : Same S d (apaCacheFree s d) := by
  refine same_store (fun b => ?_) (fun b => ?_) (fun b => ?_) hs
  · split <;> rfl
  · split <;> rfl
  · split <;> rfl

/-- A header that can be read is had without a change of anything but reference counts. -/
theorem apaCacheGetHeader_ok {h : ApaHeader} (hview : d.view s = some h) (hs : S s) :
    ∃ e, apaCacheGetHeader s d = (.ok s, e) ∧ Same S d e := by
  unfold apaCacheGetHeader
  unfold view at hview
  cases hbuf : findBuf d.cache s with
  | some b =>
    exact ⟨_, rfl, same_store (f := fun b => { b with nused := b.nused + 1 }) (fun _ => rfl)
      (fun _ => rfl) (fun _ => rfl) hs⟩
  | none =>
    simp only [hbuf] at hview
    simp only [hview]
    exact ⟨_, rfl, same_store (f := fun b => { b with nused := 1 }) (fun _ => rfl)
      (fun _ => rfl) (fun _ => rfl) hs⟩

/-- A buffer taken without a read shows some header, and the others stay as they were. -/
theorem view_apaCacheGetHeaderWrite (hts : t ≠ s) :
    (apaCacheGetHeaderWrite s d).view t = d.view t := by
  unfold apaCacheGetHeaderWrite
  cases hbuf : findBuf d.cache s with
  | some b =>
    simp only
    rw [view_store (f := fun b => { b with nused := b.nused + 1 }) (fun _ => rfl) id fun _ => rfl]
    simp
  | none => simp [view, findBuf_append, Ne.symm hts]

theorem view_apaCacheGetHeaderWrite_self : ((apaCacheGetHeaderWrite s d).view s).isSome := by
  unfold apaCacheGetHeaderWrite
  cases hbuf : findBuf d.cache s with
  | some b =>
    simp only
    rw [view_store (f := fun b => { b with nused := b.nused + 1 }) (fun _ => rfl) id fun _ => rfl]
    simp [view, hbuf]
  | none => simp [view, findBuf_append, hbuf]

theorem isDirty_apaCacheGetHeaderWrite : (apaCacheGetHeaderWrite s d).isDirty t = d.isDirty t := by
  unfold apaCacheGetHeaderWrite
  split
  · exact isDirty_store (f := fun b => { b with nused := b.nused + 1 }) (fun _ => rfl) fun _ => rfl
  · simp [isDirty]

@[simp] theorem apaCacheGetHeaderWrite_disk : (apaCacheGetHeaderWrite s d).disk = d.disk := by
  unfold apaCacheGetHeaderWrite
  split
  · exact store_disk ..
  · rfl

@[simp] theorem apaCacheGetHeaderWrite_ops : (apaCacheGetHeaderWrite s d).ops = d.ops := by
  unfold apaCacheGetHeaderWrite
  split
  · exact store_ops ..
  · rfl

theorem Sound.apaCacheGetHeaderWrite (h : Sound S d) (hs : S s) :
    Sound S (apaCacheGetHeaderWrite s d) := by
  unfold Device.apaCacheGetHeaderWrite
  cases hbuf : findBuf d.cache s with
  | some b => exact h.store (f := fun b => { b with nused := b.nused + 1 }) (fun _ => rfl) hs
  | none =>
    refine ⟨?_, h.good, h.magic, h.num, h.idle, fun b hb => ?_⟩
    · exact h.keyed.concat hbuf
    · rcases List.mem_append.mp hb with hb | hb
      · exact h.placed b hb
      · rw [List.mem_singleton.mp hb]
        exact hs

/-! ### The flush -/

/-- Few dirty headers at sound places make a transaction of the log. -/
theorem Sound.flushable (hS : Places S) (h : Sound S d) {L : List Nat}
    (hL : ∀ s, d.isDirty s = true → s ∈ L) (hfew : L.length ≤ 126) : d.Flushable where
  keyed := h.keyed
  good := h.good
  magic := h.magic
  num := h.num
  idle := h.idle
  few := by
    have hsub := h.keyed.dirtySectors_nodup.subperm fun s hs => hL s (isDirty_iff_mem.mpr hs)
    have hlen := hsub.length_le
    rw [List.length_map] at hlen
    omega
  offLog := fun b hb => by
    have hclear := hS.clear _ (h.placed b (mem_dirtyBufs.mp hb).1)
    simp only [OffLog, APA_SECTOR_APAL, APA_SECTOR_SECTOR_ERROR] at *
    omega
  apart := fun a ha b hb hlt =>
    hS.apart _ _ (h.placed a (mem_dirtyBufs.mp ha).1) (h.placed b (mem_dirtyBufs.mp hb).1) hlt

/-- The state `e` after a flush of `d`. -/
structure Flushed (S : Nat → Prop) (d e : Device) : Prop where
  sound : Sound S e
  clean : ∀ s, e.isDirty s = false
  view : ∀ s, S s → e.view s = if d.isDirty s then (d.view s).map ApaHeader.sealed else d.view s
  held : ∀ s h, d.isDirty s = true → d.view s = some h → Holds e.disk s h.sealed
  frame : ∀ a, apaLog.Outside a → (∀ s, d.isDirty s = true → a ≠ s ∧ a ≠ s + 1) →
    e.disk a = d.disk a

private theorem findBuf_map_flushed (cache : List ApaCache) :
    findBuf (cache.map ApaCache.flushed) s = (findBuf cache s).map ApaCache.flushed := by
  have hcomp : ((fun b : ApaCache => b.sector == s) ∘ ApaCache.flushed) =
      fun b => b.sector == s := by
    funext b
    simp
  rw [findBuf, List.find?_map, hcomp]
  rfl

private theorem isDirty_of_findBuf (h : Keyed d.cache) {b : ApaCache} (hb : findBuf d.cache s = some b) :
    d.isDirty s = b.dirty := by
  obtain ⟨hmem, rfl⟩ := findBuf_some hb
  rw [Bool.eq_iff_iff, isDirty_iff_mem, h.mem_dirtySectors hmem]

private theorem isDirty_of_findBuf_none (hb : findBuf d.cache s = none) : d.isDirty s = false := by
  rw [Bool.eq_false_iff, Ne, isDirty_eq_true]
  rintro ⟨b, hmem, hs, -⟩
  exact findBuf_eq_none.mp hb b hmem hs

theorem Sound.placed_of_isDirty (h : Sound S d) (hs : d.isDirty s = true) : S s := by
  obtain ⟨b, hb, rfl, -⟩ := isDirty_eq_true.mp hs
  exact h.placed b hb

theorem Flushable.settled (hf : d.Flushable) :
    apaLog.Settled (hf.transaction.result d.disk) (d.apaCacheFlushAllDirty.2.disk) := by
  rw [apaCacheFlushAllDirty_eq hf.keyed hf.good hf.num]
  refine ⟨?_, fun a ha => ?_⟩
  · simpa [apaLog] using idleSector_reset
  · have hne : a ≠ APA_SECTOR_APAL := ha.2
    simp only
    rw [Function.update_of_ne hne, RedoLog.Transaction.result]
    refine applyWrites_congr fun _ => ?_
    rw [Function.update_of_ne hne]
    exact applyWrites_of_not_mem fun w hw heq => ha.1 (heq ▸ hf.transaction.copies_area w hw)

theorem Flushable.flushed (hS : Places S) (hf : d.Flushable) (h : Sound S d) :
    Flushed S d d.apaCacheFlushAllDirty.2 := by
  have heq := apaCacheFlushAllDirty_eq hf.keyed hf.good hf.num
  have hcache : d.apaCacheFlushAllDirty.2.cache = d.cache.map ApaCache.flushed := by rw [heq]
  have hframe : ∀ a, apaLog.Outside a → (∀ s, d.isDirty s = true → a ≠ s ∧ a ≠ s + 1) →
      d.apaCacheFlushAllDirty.2.disk a = d.disk a := by
    intro a ha hnot
    rw [hf.settled.2 a ha]
    refine applyWrites_of_not_mem fun w hw heq => ?_
    obtain ⟨b, hb, hw⟩ := mem_homeWrites.mp hw
    have hdirty := hnot b.sector (isDirty_iff_mem.mpr (List.mem_map_of_mem hb))
    rcases hw with rfl | rfl
    · exact hdirty.1 heq.symm
    · exact hdirty.2 heq.symm
  refine ⟨⟨?_, ?_, ?_, ?_, hf.settled.1, ?_⟩, ?_, ?_, ?_, hframe⟩
  · have hsectors : (d.cache.map ApaCache.flushed).map (·.sector) = d.cache.map (·.sector) := by
      simp
    rw [Keyed, hcache, hsectors]
    exact h.keyed
  · rw [heq]
    exact h.good
  · rw [heq]
    rfl
  · rw [heq]
    rfl
  · intro b hb
    rw [hcache] at hb
    obtain ⟨c, hc, rfl⟩ := List.mem_map.mp hb
    simpa using h.placed c hc
  · intro s
    rw [Bool.eq_false_iff, Ne, isDirty_eq_true, hcache]
    rintro ⟨b, hb, -, hd⟩
    obtain ⟨c, hc, rfl⟩ := List.mem_map.mp hb
    simp at hd
  · intro s hs
    unfold view
    rw [hcache, findBuf_map_flushed]
    cases hbuf : findBuf d.cache s with
    | some b =>
      rw [isDirty_of_findBuf h.keyed hbuf]
      simp only [Option.map_some, ApaCache.flushed]
      split <;> rfl
    | none =>
      have hclean := isDirty_of_findBuf_none hbuf
      have hapart : ∀ a, a = s ∨ a = s + 1 → d.apaCacheFlushAllDirty.2.disk a = d.disk a := by
        intro a ha
        refine hframe a (hS.outside hs ha) fun t ht => ?_
        have hne : s ≠ t := by
          rintro rfl
          simp [hclean] at ht
        have hlt := hS.apart s t hs (h.placed_of_isDirty ht)
        have hgt := hS.apart t s (h.placed_of_isDirty ht) hs
        omega
      simp only [Option.map_none, hclean, Bool.false_eq_true, if_false]
      exact apaReadHeader_congr (hapart s (.inl rfl)) (hapart (s + 1) (.inr rfl))
  · intro s h' hd hview
    obtain ⟨b, hb, rfl⟩ := List.mem_map.mp (isDirty_iff_mem.mp hd)
    rw [view, h.keyed.findBuf (mem_dirtyBufs.mp hb).1, Option.some.injEq] at hview
    rw [← hview]
    exact hf.holds_of_settled hf.settled hb

end Device

end HddChecker.Apa
