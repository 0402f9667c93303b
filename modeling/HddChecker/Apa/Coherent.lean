import HddChecker.Apa.Cache

/-!
# Runs of the header cache

A flush goes over the buffers twice, and each pass keeps the keys and the references. With that every call keeps `Inv`, and so does a run. What a driver must do for it is said by `Filled`, `Placed` and `Bounded`; a run that leaves one of them out shows what it is for.
-/

namespace HddChecker.Apa.Cache

open HddChecker State

variable {c c' : State} {S : Int → Nat → Prop} {stored : Int → Nat → ApaHeader} {i x : Nat} {l : List Nat}

/-! ### Flushes -/

theorem onDisk_ataWrite {device dev : Int} {lba sector : Nat} {data : List Sector}
    (h : dev ≠ device ∨ sector + 2 ≤ lba ∨ lba + data.length ≤ sector) :
    onDisk (ataWrite device lba data c) dev sector = onDisk c dev sector := by
  have hout : ∀ a, a = sector ∨ a = sector + 1 → (ataWrite device lba data c).disk dev a = c.disk dev a := by
    intro a ha
    unfold ataWrite
    dsimp only
    split
    · rename_i hat
      obtain ⟨hdev, hlba⟩ := hat
      rw [List.getElem?_eq_none]
      · rfl
      · rcases h with hne | hlow | hhigh
        · exact absurd hdev hne
        · omega
        · omega
    · rfl
  exact onDisk_congr (hout _ (.inl rfl)) (hout _ (.inr rfl))

private theorem onDisk_written (device : Int) (sector : Nat) (header : ApaHeader) (c : State) :
    onDisk (ataWrite device sector [header.first, header.second] c) device sector = header := by
  unfold onDisk ataWrite
  dsimp only
  rw [if_pos ⟨rfl, le_refl _⟩, if_pos ⟨rfl, Nat.le_succ _⟩, Nat.sub_self, Nat.add_sub_cancel_left]
  exact ApaHeader.ofSectors_first_second header

theorem Content.of_disk (h : Content S c stored) (disk : Int → Nat → Sector) (journal : ApaJournal)
    (hdisk : ∀ device sector, S device sector →
      onDisk { c with disk := disk, journalBuf := journal } device sector = onDisk c device sector) :
    Content S { c with disk := disk, journalBuf := journal } stored where
  unique := h.unique
  placed := h.placed
  idle := h.idle
  held := h.held
  clean := by
    intro device sector hd hs hdirty
    rw [hdisk device sector hs]
    exact h.clean device sector hd hs hdirty

theorem Content.journal (h : Content S c stored) (hS : ∀ device, Places (S device)) (device : Int)
    (journal : ApaJournal) : Content S (apaJournalFlush device { c with journalBuf := journal }) stored := by
  apply h.of_disk
  intro dev sector hs
  have hclear := (hS dev).clear sector hs
  simp only [APA_SECTOR_SECTOR_ERROR, APA_SECTOR_APAL_HEADERS] at hclear
  apply onDisk_ataWrite (c := { c with journalBuf := journal })
  right
  simp only [APA_SECTOR_APAL, List.length_singleton]
  omega

/-- What a loop of a flush keeps: the keys of the buffers are those of `c₀`. -/
structure Kept (S : Int → Nat → Prop) (stored : Int → Nat → ApaHeader) (c₀ c : State) : Prop where
  content : Content S c stored
  idle : ∃ l, Idle c l
  size : c.cacheSize = c₀.cacheSize
  key : ∀ i, HasKey (c.cacheBuf i) (c₀.cacheBuf i).device (c₀.cacheBuf i).sector

theorem Changed.same_key {b : apa_cache_t} (h : Changed c c' x b)
    (hx : HasKey b (c.cacheBuf x).device (c.cacheBuf x).sector) (i : Nat) :
    HasKey (c'.cacheBuf i) (c.cacheBuf i).device (c.cacheBuf i).sector := by
  by_cases hix : i = x
  · subst hix
    exact ⟨h.self.device.trans hx.1, h.self.sector.trans hx.2⟩
  · exact ⟨(h.other i hix).device, (h.other i hix).sector⟩

theorem Kept.pass {c₀ : State} {b : apa_cache_t} (h : Kept S stored c₀ c) (hc : Changed c c' x b)
    (hkey : HasKey b (c.cacheBuf x).device (c.cacheBuf x).sector) (hused : b.nused = (c.cacheBuf x).nused)
    (hlinks : ∀ j, (c'.cacheBuf j).next = (c.cacheBuf j).next ∧ (c'.cacheBuf j).tail = (c.cacheBuf j).tail)
    (hcontent : Content S c' stored) : Kept S stored c₀ c' := by
  obtain ⟨l, hl⟩ := h.idle
  refine ⟨hcontent, ⟨l, ?_⟩, hc.size.trans h.size, fun i => ?_⟩
  · apply hl.stay hc (by rw [hused])
    exact hl.ring.congr (fun j => (hlinks j).1) fun j => (hlinks j).2
  · obtain ⟨hdevice, hsector⟩ := hc.same_key hkey i
    exact ⟨hdevice.trans (h.key i).1, hsector.trans (h.key i).2⟩

private theorem journalWrite_spec {c₀ : State} (h : Kept S stored c₀ c) (hS : ∀ device, Places (S device))
    (hin : InCache c i) {n : Nat} (hnum : c.journalBuf.num = n) (hfew : n < 126) :
    Kept S stored c₀ (apaJournalWrite i c) ∧ (apaJournalWrite i c).journalBuf.num = n + 1 ∧
      ∀ device j, isDirtyOn device j (apaJournalWrite i c) = isDirtyOn device j c := by
  have hc : Changed c (apaJournalWrite i c) i { c.cacheBuf i with header := (c.cacheBuf i).header.sealed } := by
    obtain ⟨hsize, hself, hother⟩ := changed_modify c i fun clink => { clink with header := clink.header.sealed }
    exact ⟨hsize, hself, hother⟩
  have hlinks : ∀ j, ((apaJournalWrite i c).cacheBuf j).next = (c.cacheBuf j).next ∧
      ((apaJournalWrite i c).cacheBuf j).tail = (c.cacheBuf j).tail := by
    intro j
    have heq : (apaJournalWrite i c).cacheBuf =
        (c.modify i fun clink => { clink with header := clink.header.sealed }).cacheBuf := rfl
    rw [heq, modify_cacheBuf]
    split
    · rename_i hji
      rw [hji]
      exact ⟨rfl, rfl⟩
    · exact ⟨rfl, rfl⟩
  refine ⟨?_, ?_, fun device j => ?_⟩
  · apply h.pass hc ⟨rfl, rfl⟩ rfl hlinks
    apply h.content.keep hin hc ⟨rfl, rfl⟩ (sealed_sealed _) rfl (h.content.idle i hin)
    intro dev sector hs
    have hclear := (hS dev).clear sector hs
    simp only [APA_SECTOR_SECTOR_ERROR, APA_SECTOR_APAL_HEADERS] at hclear
    refine Eq.trans (onDisk_ataWrite (c := c.modify i _) ?_) rfl
    right
    simp only [APA_SECTOR_APAL_HEADERS, List.length_cons, List.length_nil, modify_journalBuf, hnum]
    omega
  · change c.journalBuf.num + 1 = _
    rw [hnum]
  · unfold isDirtyOn
    by_cases hji : j = i
    · subst hji
      rw [hc.self.dirty, hc.self.device]
    · rw [(hc.other j hji).dirty, (hc.other j hji).device]

private theorem transferWrite_spec {c₀ : State} (h : Kept S stored c₀ c) (hS : ∀ device, Places (S device))
    (hin : InCache c i) (hdevice : 0 ≤ (c.cacheBuf i).device) :
    Kept S stored c₀ (apaCacheTransfer i APA_IO_MODE_WRITE false c).2 := by
  obtain ⟨d, hd⟩ : ∃ d, (apaCacheTransfer i APA_IO_MODE_WRITE false c).2 = d := ⟨_, rfl⟩
  have heq : d = (ataWrite (c.cacheBuf i).device (c.cacheBuf i).sector
      [(c.cacheBuf i).header.first, (c.cacheBuf i).header.second] c).modify i fun b => { b with dirty := false } := by
    rw [← hd]
    rfl
  have hc : Changed c d i { c.cacheBuf i with dirty := false } := by
    obtain ⟨hsize, hself, hother⟩ := changed_modify c i fun b => { b with dirty := false }
    rw [heq]
    exact ⟨hsize, hself, hother⟩
  have hlinks : ∀ j, (d.cacheBuf j).next = (c.cacheBuf j).next ∧ (d.cacheBuf j).tail = (c.cacheBuf j).tail := by
    intro j
    rw [heq, modify_cacheBuf]
    split
    · rename_i hji
      rw [hji]
      exact ⟨rfl, rfl⟩
    · exact ⟨rfl, rfl⟩
  rw [hd]
  apply h.pass hc ⟨rfl, rfl⟩ rfl hlinks
  apply h.content.replace hin hc
  · exact fun hd j hj hkey => h.content.unique i j hin hj hd hkey
  · exact h.content.placed i hin
  · exact fun _ => rfl
  · exact h.content.held i hin
  · exact fun _ _ _ _ => rfl
  · intro dev sector hdev hs _ hother
    have hdisk : onDisk d dev sector = onDisk (ataWrite (c.cacheBuf i).device (c.cacheBuf i).sector
        [(c.cacheBuf i).header.first, (c.cacheBuf i).header.second] c) dev sector := by
      rw [heq]
      rfl
    by_cases hkey : HasKey (c.cacheBuf i) dev sector
    · obtain ⟨rfl, rfl⟩ := hkey
      rw [hdisk, onDisk_written]
      exact h.content.held i hin hdevice
    · rw [hdisk, onDisk_ataWrite]
      · apply h.content.clean dev sector hdev hs
        intro j hj hjkey
        exact hother j (fun hji => hkey (hji ▸ hjkey)) hj hjkey
      · by_cases hdd : dev = (c.cacheBuf i).device
        · right
          have hplace := h.content.placed i hin hdevice
          rw [← hdd] at hplace
          have hne : sector ≠ (c.cacheBuf i).sector := fun heq => hkey ⟨hdd.symm, heq.symm⟩
          rcases Nat.lt_or_gt_of_ne hne with hlt | hgt
          · exact .inl ((hS dev).apart _ _ hs hplace hlt)
          · exact .inr ((hS dev).apart _ _ hplace hs hgt)
        · exact .inl hdd

private theorem journalLoop_spec {c₀ : State} (hS : ∀ device, Places (S device)) (device : Int) (L : List Nat)
    (hL : ∀ i ∈ L, InCache c₀ i) (h : Kept S stored c₀ c) {n : Nat} (hnum : c.journalBuf.num = n)
    (hfew : n + (L.filter (isDirtyOn device · c)).length ≤ 126) :
    Kept S stored c₀ (L.foldl (fun c i => if isDirtyOn device i c then apaJournalWrite i c else c) c) := by
  induction L generalizing c n with
  | nil => exact h
  | cons i L ih =>
    rw [List.foldl_cons]
    have hrest : ∀ j ∈ L, InCache c₀ j := fun j hj => hL j (List.mem_cons_of_mem _ hj)
    cases hdirty : isDirtyOn device i c with
    | false =>
      simp only [List.filter_cons, hdirty, Bool.false_eq_true, if_false] at hfew
      exact ih hrest h hnum hfew
    | true =>
      simp only [List.filter_cons, hdirty, if_true, List.length_cons] at hfew
      have hin : InCache c i := by
        unfold InCache
        rw [h.size]
        exact hL i List.mem_cons_self
      obtain ⟨hkept, hnum', hsame⟩ := journalWrite_spec h hS hin hnum (by omega)
      apply ih hrest hkept (n := n + 1) (by rw [hnum']; rfl)
      simp only [hsame]
      omega

private theorem transferLoop_spec {c₀ : State} (hS : ∀ device, Places (S device)) {device : Int} (hdevice : 0 ≤ device)
    (L : List Nat) (hL : ∀ i ∈ L, InCache c₀ i) (h : Kept S stored c₀ c) :
    Kept S stored c₀ (L.foldl (fun c i =>
      if isDirtyOn device i c then (apaCacheTransfer i APA_IO_MODE_WRITE false c).2 else c) c) := by
  induction L generalizing c with
  | nil => exact h
  | cons i L ih =>
    rw [List.foldl_cons]
    apply ih fun j hj => hL j (List.mem_cons_of_mem _ hj)
    split
    · rename_i hdirty
      have hkey : (c.cacheBuf i).device = device := by
        have := (Bool.and_eq_true _ _ ▸ hdirty : _ ∧ _).2
        exact beq_iff_eq.mp this
      apply transferWrite_spec h hS
      · unfold InCache
        rw [h.size]
        exact hL i List.mem_cons_self
      · rw [hkey]
        exact hdevice
    · exact h

/-- A flush keeps what holds, and the keys. -/
theorem flush_spec {s : Run} (h : Inv S s) (hS : ∀ device, Places (S device)) {device : Int} (hdevice : 0 ≤ device)
    (hfew : ((List.range' 1 s.cache.cacheSize).filter (isDirtyOn device · s.cache)).length ≤ 126) :
    Inv S ⟨apaCacheFlushAllDirty device s.cache, s.stored⟩ ∧ Keeps s.cache (apaCacheFlushAllDirty device s.cache) := by
  have hrange : ∀ i ∈ List.range' 1 s.cache.cacheSize, InCache s.cache i := by
    intro i hi
    have := List.mem_range'_1.mp hi
    exact ⟨this.1, by omega⟩
  have hstart : Kept S s.stored s.cache s.cache := ⟨h.content, h.idle, rfl, fun _ => ⟨rfl, rfl⟩⟩
  have hflush : ∀ c journal, Kept S s.stored s.cache c →
      Kept S s.stored s.cache (apaJournalFlush device { c with journalBuf := journal }) := by
    intro c journal hc
    obtain ⟨l, hl⟩ := hc.idle
    exact ⟨hc.content.journal hS device journal, ⟨l, hl.ring, hl.mem_iff⟩, hc.size, hc.key⟩
  have hfirst := journalLoop_spec hS device _ hrange hstart h.num (by rw [Nat.zero_add]; exact hfew)
  have hmiddle := hflush _ (forDirty device apaJournalWrite s.cache).journalBuf hfirst
  have hsecond := transferLoop_spec hS hdevice _ hrange hmiddle
  have hlast := hflush _ ApaJournal.reset hsecond
  have heq : apaCacheFlushAllDirty device s.cache = apaJournalFlush device
      { (List.range' 1 s.cache.cacheSize).foldl (fun c i =>
          if isDirtyOn device i c then (apaCacheTransfer i APA_IO_MODE_WRITE false c).2 else c)
          (apaJournalFlush device (forDirty device apaJournalWrite s.cache)) with journalBuf := ApaJournal.reset } := by
    have hsize : (apaJournalFlush device (forDirty device apaJournalWrite s.cache)).cacheSize = s.cache.cacheSize :=
      hmiddle.size
    unfold apaCacheFlushAllDirty
    dsimp only
    rw [apaJournalReset, forDirty.eq_def device _ (apaJournalFlush _ _), hsize]
  rw [heq]
  refine ⟨⟨hlast.content, hlast.idle, rfl⟩, fun i _ _ => hlast.key i⟩

/-- One call. -/
theorem exec_spec {s : Run} {call : Call} (h : Inv S s) (hS : ∀ device, Places (S device))
    (hallowed : Allowed s.cache call) (hproper : Proper S s.cache call) :
    Inv S (exec call s) ∧ Keeps s.cache (exec call s).cache := by
  obtain ⟨l, hl⟩ := h.idle
  cases call with
  | get device sector mode fails =>
    obtain ⟨rfl, ⟨hdevice, hs⟩, hfew⟩ := hproper
    obtain ⟨hgot, hjournal, hidle⟩ := get_spec hl device sector APA_IO_MODE_READ fails hfew
    obtain ⟨hcontent, hkeeps⟩ := hgot.read_content hS hs h.content
    refine ⟨⟨hcontent, hidle, ?_⟩, hkeeps⟩
    change (apaCacheGetHeader _ _ _ _ _).2.2.journalBuf.num = 0
    rw [hjournal]
    exact h.num
  | fill device sector header =>
    obtain ⟨-, ⟨hdevice, hs⟩, hfew⟩ := hproper
    obtain ⟨hgot, hjournal, m, hm⟩ := get_spec hl device sector APA_IO_MODE_WRITE false hfew
    rcases hget : apaCacheGetHeader device sector APA_IO_MODE_WRITE false s.cache with ⟨_ | i, result, c'⟩
    · have hexec : exec (.fill device sector header) s = ⟨c', s.stored⟩ := by
        unfold exec
        simp only [hget]
      rw [hget] at hgot hjournal hm
      rw [hexec]
      obtain ⟨hcontent, hkeeps⟩ := hgot.none_content hS h.content
      exact ⟨⟨hcontent, ⟨m, hm⟩, by rw [hjournal]; exact h.num⟩, hkeeps⟩
    · have hexec : exec (.fill device sector header) s =
          ⟨State.setHeader i header c', store c' i header s.stored⟩ := by
        unfold exec
        simp only [hget]
      rw [hget] at hgot hjournal hm
      rw [hexec]
      obtain ⟨hcontent, hkeeps⟩ := hgot.fill_content header hs h.content
      refine ⟨⟨hcontent, ⟨m, hm.setHeader i header⟩, ?_⟩, hkeeps⟩
      change c'.journalBuf.num = 0
      rw [hjournal]
      exact h.num
  | alloc =>
    unfold exec apaCacheAlloc
    dsimp only
    split
    · exact ⟨h, Keeps.refl _⟩
    · rename_i hfull
      obtain ⟨hin, hused, hc, hidle⟩ := take_spec hl (Bool.not_eq_true _ ▸ hfull) (- 1) (2 ^ 32 - 1)
      refine ⟨⟨?_, hidle, h.num⟩, hc.keeps (.inl hused)⟩
      apply h.content.taken hin hc hused rfl
      · exact fun hd => absurd (show (0 : Int) ≤ - 1 from hd) (by decide)
      · exact fun hd => absurd (show (0 : Int) ≤ - 1 from hd) (by decide)
      · exact fun hd => absurd (show (0 : Int) ≤ - 1 from hd) (by decide)
      · exact fun _ _ _ => rfl
  | modify clink header =>
    obtain ⟨hin, hused⟩ := hallowed
    have hc : Changed s.cache (State.setHeader clink header s.cache) clink
        { s.cache.cacheBuf clink with header := header, dirty := true } := changed_modify _ _ _
    refine ⟨⟨?_, ⟨l, hl.setHeader clink header⟩, h.num⟩, hc.keeps (.inr ⟨rfl, rfl⟩)⟩
    apply h.content.filled hin hc (.inr ⟨rfl, rfl⟩) rfl hused.ne'
    · exact fun hd j hj hkey => h.content.unique clink j hin hj hd hkey
    · exact h.content.placed clink hin
    · exact fun _ _ _ => rfl
    · exact store_self (SameData.refl _) header
    · exact fun _ _ hne => store_other (SameData.refl _) header hne
  | flush device =>
    obtain ⟨-, hdevice, hfew⟩ := hproper
    exact flush_spec h hS hdevice hfew
  | free clink =>
    obtain ⟨hin, hused, hclean⟩ := hallowed
    obtain ⟨hcontent, hkeeps, hjournal, hidle⟩ := free_spec h.content hl hin hused hclean
    refine ⟨⟨hcontent, hidle, ?_⟩, hkeeps⟩
    change (apaCacheFree clink s.cache).journalBuf.num = 0
    rw [hjournal]
    exact h.num

/-! ### Whole runs -/

theorem initLoop_spec (hring : Ring c []) (n : Nat) :
    Ring ((List.range' 1 n).foldl (fun c i => apaCacheLink (c.cacheBuf 0).tail i c) c) (List.range' 1 n) ∧
    (∀ j, SameData (((List.range' 1 n).foldl (fun c i => apaCacheLink (c.cacheBuf 0).tail i c) c).cacheBuf j)
      (c.cacheBuf j)) ∧
    ((List.range' 1 n).foldl (fun c i => apaCacheLink (c.cacheBuf 0).tail i c) c).cacheSize = c.cacheSize ∧
    ((List.range' 1 n).foldl (fun c i => apaCacheLink (c.cacheBuf 0).tail i c) c).disk = c.disk ∧
    ((List.range' 1 n).foldl (fun c i => apaCacheLink (c.cacheBuf 0).tail i c) c).journalBuf = c.journalBuf := by
  induction n with
  | zero => exact ⟨hring, fun j => SameData.refl _, rfl, rfl, rfl⟩
  | succ n ih =>
    obtain ⟨hlist, hdata, hsize, hdisk, hjournal⟩ := ih
    rw [List.range'_1_concat, List.foldl_append, List.foldl_cons, List.foldl_nil]
    generalize (List.range' 1 n).foldl (fun c i => apaCacheLink (c.cacheBuf 0).tail i c) c = d at *
    have hnot : 1 + n ∉ 0 :: List.range' 1 n := by
      rw [List.mem_cons, List.mem_range'_1]
      omega
    have hne : (d.cacheBuf 0).tail ≠ 1 + n := fun heq => hnot (heq ▸ hlist.path.last_mem)
    exact ⟨hlist.append hnot, fun j => (sameData_link _ hne j).trans (hdata j), hsize, hdisk, hjournal⟩

theorem inv_start (S : Int → Nat → Prop) (size : Nat) (memory : Nat → ApaHeader) (disk : Int → Nat → Sector) :
    Inv S (start size memory disk) := by
  have hempty : Ring { cacheSize := size, journalBuf := ApaJournal.reset, disk := disk
                       cacheBuf := fun i => ⟨0, 0, false, if i = 0 then 0 else - 1, 0, memory i, 0⟩ } [] :=
    ⟨⟨rfl, rfl⟩, List.nodup_singleton 0⟩
  obtain ⟨hring, hdata, hsize, hdisk, hjournal⟩ := initLoop_spec hempty size
  have hdevice : ∀ i, InCache (start size memory disk).cache i →
      ((start size memory disk).cache.cacheBuf i).device = - 1 := by
    intro i hi
    exact (hdata i).device.trans (if_neg (by have := hi.1; omega))
  refine ⟨?_, ⟨_, hring, fun i => ?_⟩, ?_⟩
  · constructor
    case unique =>
      intro i j hi _ hd
      rw [hdevice i hi] at hd
      omega
    case placed | held =>
      intro i hi hd
      rw [hdevice i hi] at hd
      omega
    case idle => exact fun i _ _ => (hdata i).dirty
    case clean =>
      intro device sector _ _ _
      congr 1
      exact onDisk_congr (congrFun (congrFun hdisk _) _) (congrFun (congrFun hdisk _) _)
  · have hused : ((start size memory disk).cache.cacheBuf i).nused = 0 := (hdata i).nused
    have hcache : (start size memory disk).cache.cacheSize = size := hsize
    unfold InCache
    rw [hused, hcache, List.mem_range'_1]
    omega
  · exact congrArg ApaJournal.num hjournal

/-- The cache is coherent for calls with the property `P`. -/
structure Coherent (P : State → Call → Prop) (s : Run) : Prop where
  /-- No key is that of two buffers. -/
  unique : ∀ i j, InCache s.cache i → InCache s.cache j → 0 ≤ (s.cache.cacheBuf i).device →
    HasKey (s.cache.cacheBuf j) (s.cache.cacheBuf i).device (s.cache.cacheBuf i).sector → j = i
  /-- The ring has each buffer without a reference, once, and no other. -/
  ring : ∃ l, Idle s.cache l
  /-- No call gives a buffer with a reference to another key. -/
  keeps : ∀ call, Allowed s.cache call → P s.cache call → Keeps s.cache (exec call s).cache
  /-- A read answers with what was stored last, up to the checksum, which a flush puts in. -/
  read : ∀ device sector fails i result c', 0 ≤ device → P s.cache (.get device sector APA_IO_MODE_READ fails) →
    apaCacheGetHeader device sector APA_IO_MODE_READ fails s.cache = (some i, result, c') →
    (c'.cacheBuf i).header.sealed = (s.stored device sector).sealed

theorem Reaches.inv {s₀ s : Run} (h : Reaches (Proper S) s₀ s) (hS : ∀ device, Places (S device)) (h₀ : Inv S s₀) :
    Inv S s := by
  induction h with
  | refl => exact h₀
  | step _ hallowed hproper ih => exact (exec_spec ih hS hallowed hproper).1

/-- Where headers are at places of their own and a header had in write mode is filled in, the cache is coherent in every run. -/
theorem cache_coherent (hS : ∀ device, Places (S device)) {size : Nat} {memory : Nat → ApaHeader}
    {disk : Int → Nat → Sector} {s : Run} (h : Reaches (Proper S) (start size memory disk) s) :
    Coherent (Proper S) s := by
  have hinv := h.inv hS (inv_start S size memory disk)
  refine ⟨hinv.content.unique, hinv.idle, fun call hallowed hproper => (exec_spec hinv hS hallowed hproper).2, ?_⟩
  intro device sector fails i result c' hdevice hproper hget
  obtain ⟨l, hl⟩ := hinv.idle
  obtain ⟨hgot, -, -⟩ := get_spec hl device sector APA_IO_MODE_READ fails hproper.2.2
  obtain ⟨hcontent, -⟩ := hgot.read_content hS hproper.2.1.2 hinv.content
  rw [hget] at hgot hcontent
  have hkey : InCache c' i ∧ HasKey (c'.cacheBuf i) device sector := by
    cases hgot with
    | found hin hkey hc _ => exact ⟨⟨hin.1, hc.size ▸ hin.2⟩, hc.self.device.trans hkey.1, hc.self.sector.trans hkey.2⟩
    | loaded hin _ _ hc _ => exact ⟨⟨hin.1, hc.size ▸ hin.2⟩, hc.self.device, hc.self.sector⟩
  obtain ⟨hin, rfl, rfl⟩ := hkey
  exact hcontent.held i hin hdevice

/-- A header is filled in, written and given back. -/
theorem cache_coherent_small : Coherent (Proper fun device sector => device = 0 ∧ sector = 0x40000)
    (exec (.free 1) (exec (.flush 0) (exec (.fill 0 0x40000 default)
      (start 2 (fun _ => default) fun _ _ => Sector.zero)))) := by
  apply cache_coherent
  · intro device
    constructor
    · rintro s ⟨-, rfl⟩
      exact .inr (by decide)
    · rintro s t ⟨-, rfl⟩ ⟨-, rfl⟩ hlt
      exact absurd hlt (lt_irrefl _)
  · have hfill : Reaches (Proper fun device sector => device = 0 ∧ sector = 0x40000)
        (start 2 (fun _ => default) fun _ _ => Sector.zero)
        (exec (.fill 0 0x40000 default) (start 2 (fun _ => default) fun _ _ => Sector.zero)) := by
      refine .step .refl trivial ⟨trivial, ⟨le_refl _, rfl, rfl⟩, fun i hi => ?_⟩
      have hnone : lookup 0 0x40000 (start 2 (fun _ => default) fun _ _ => Sector.zero).cache = none := rfl
      rw [hnone] at hi
      cases hi
    have hflush : Reaches (Proper fun device sector => device = 0 ∧ sector = 0x40000)
        (start 2 (fun _ => default) fun _ _ => Sector.zero)
        (exec (.flush 0) (exec (.fill 0 0x40000 default) (start 2 (fun _ => default) fun _ _ => Sector.zero))) :=
      .step hfill trivial ⟨trivial, le_refl _, show List.length _ ≤ 126 by decide⟩
    exact .step hflush ⟨⟨by decide, by decide⟩, by decide, fun _ => by decide⟩ ⟨trivial, trivial, trivial⟩

private theorem incoherent_unfilled : ¬ ∀ size memory disk s, Reaches (fun _ _ => True) (start size memory disk) s →
    Coherent (fun _ _ => True) s := by
  intro h
  have hrun : Reaches (fun _ _ => True) (start 1 (fun _ => default) fun _ _ k => if k.val = 1 then 1 else 0)
      (exec (.get 0 0x40000 APA_IO_MODE_WRITE false)
        (start 1 (fun _ => default) fun _ _ k => if k.val = 1 then 1 else 0)) :=
    .step .refl trivial trivial
  have hread := (h _ _ _ _ hrun).read 0 0x40000 false 1 0 _ (le_refl _) trivial rfl
  exact absurd (congrArg ApaHeader.magic hread) (by decide)

private theorem incoherent_anywhere : ¬ ∀ size memory disk s, Reaches (fun _ => Filled) (start size memory disk) s →
    Coherent (fun _ => Filled) s := by
  intro h
  have hfill : Reaches (fun _ => Filled) (start 2 (fun _ => default) fun _ _ => Sector.zero)
      (exec (.fill 0 0x40000 { (default : ApaHeader) with magic := APA_MAGIC })
        (start 2 (fun _ => default) fun _ _ => Sector.zero)) :=
    .step .refl trivial trivial
  have hrun : Reaches (fun _ => Filled) (start 2 (fun _ => default) fun _ _ => Sector.zero)
      (exec (.flush 0) (exec (.fill 0 0x40000 { (default : ApaHeader) with magic := APA_MAGIC })
        (start 2 (fun _ => default) fun _ _ => Sector.zero))) :=
    .step hfill trivial trivial
  have hread := (h _ _ _ _ hrun).read 0 APA_SECTOR_APAL_HEADERS false 2 0 _ (le_refl _) rfl
    (Prod.ext (by decide +kernel) (Prod.ext (by decide +kernel) rfl))
  exact absurd (congrArg ApaHeader.magic hread) (by decide +kernel)

/-- The places of a drive with one header. -/
def onePlace (device : Int) (sector : Nat) : Prop := device = 0 ∧ sector = 0x40000

private theorem fill_again {s : Run} (hsize : s.cache.cacheSize = 1) (hkey : HasKey (s.cache.cacheBuf 1) 0 0x40000)
    (hused : (s.cache.cacheBuf 1).nused ≠ 0) : (exec (.fill 0 0x40000 default) s).cache =
      State.setHeader 1 default (s.cache.modify 1 fun clink => { clink with nused := (clink.nused + 1) % 2 ^ 16 }) := by
  have hlookup : lookup 0 0x40000 s.cache = some 1 := by
    unfold lookup
    rw [hsize]
    simp [hkey.1, hkey.2]
  have hget : apaCacheGetHeader 0 0x40000 APA_IO_MODE_WRITE false s.cache = (some 1, 0,
      s.cache.modify 1 fun clink => { clink with nused := (clink.nused + 1) % 2 ^ 16 }) := by
    unfold apaCacheGetHeader
    simp only [hlookup, if_neg hused]
  unfold exec
  simp only [hget]

/-- The one buffer has `n` references, modulo `2 ^ 16`, and is not in the ring. -/
structure Referred (n : Nat) (s : Run) : Prop where
  reaches : Reaches (fun _ call => Filled call ∧ Placed onePlace call)
    (start 1 (fun _ => default) fun _ _ => Sector.zero) s
  size : s.cache.cacheSize = 1
  key : HasKey (s.cache.cacheBuf 1) 0 0x40000
  nused : (s.cache.cacheBuf 1).nused = n % 2 ^ 16
  next : (s.cache.cacheBuf 0).next = 0

theorem Referred.again {n : Nat} {s : Run} (h : Referred n s) (hn : 1 ≤ n) (hfew : n < 2 ^ 16) :
    Referred (n + 1) (exec (.fill 0 0x40000 default) s) := by
  have hcache := fill_again h.size h.key (by rw [h.nused, Nat.mod_eq_of_lt hfew]; omega)
  have hone : (exec (.fill 0 0x40000 default) s).cache.cacheBuf 1 = { s.cache.cacheBuf 1 with
      header := default, dirty := true, nused := ((s.cache.cacheBuf 1).nused + 1) % 2 ^ 16 } := by
    rw [hcache]
    unfold State.setHeader
    rw [modify_cacheBuf, if_pos rfl, modify_cacheBuf, if_pos rfl]
  have hzero : (exec (.fill 0 0x40000 default) s).cache.cacheBuf 0 = s.cache.cacheBuf 0 := by
    rw [hcache]
    unfold State.setHeader
    rw [modify_cacheBuf, if_neg (by decide), modify_cacheBuf, if_neg (by decide)]
  constructor
  case reaches => exact .step h.reaches trivial ⟨trivial, le_refl _, rfl, rfl⟩
  case size =>
    rw [hcache]
    exact h.size
  case key =>
    rw [hone]
    exact h.key
  case nused =>
    rw [hone]
    dsimp only
    rw [h.nused, Nat.mod_add_mod]
  case next =>
    rw [hzero]
    exact h.next

private theorem exists_referred (n : Nat) (hn : 1 ≤ n) (hfew : n ≤ 2 ^ 16) : ∃ s, Referred n s := by
  induction n, hn using Nat.le_induction with
  | base =>
    refine ⟨exec (.fill 0 0x40000 default) (start 1 (fun _ => default) fun _ _ => Sector.zero), ?_⟩
    exact ⟨.step .refl trivial ⟨trivial, le_refl _, rfl, rfl⟩, rfl, ⟨rfl, rfl⟩, rfl, rfl⟩
  | succ n hn ih =>
    obtain ⟨s, hs⟩ := ih (by omega)
    exact ⟨_, hs.again hn (by omega)⟩

private theorem incoherent_unbounded : ¬ ∀ size memory disk s,
    Reaches (fun _ call => Filled call ∧ Placed onePlace call) (start size memory disk) s →
    Coherent (fun _ call => Filled call ∧ Placed onePlace call) s := by
  intro h
  obtain ⟨s, hs⟩ := exists_referred (2 ^ 16) (by decide) (le_refl _)
  obtain ⟨l, hl⟩ := (h _ _ _ _ hs.reaches).ring
  have hmem : 1 ∈ l := (hl.mem_iff 1).mpr ⟨⟨le_refl _, by rw [hs.size]⟩, hs.nused⟩
  cases l with
  | nil => cases hmem
  | cons x l =>
    have hx : x = 0 := hl.ring.next_root.symm.trans hs.next
    exact hl.ring.root_notMem (hx ▸ List.mem_cons_self)

/-- The cache is not coherent for all calls; nor where only headers had in write mode are filled in, nor where moreover they are at places of their own. -/
theorem cache_incoherent :
    (¬ ∀ size memory disk s, Reaches (fun _ _ => True) (start size memory disk) s → Coherent (fun _ _ => True) s) ∧
    (¬ ∀ size memory disk s, Reaches (fun _ => Filled) (start size memory disk) s → Coherent (fun _ => Filled) s) ∧
    ¬ ∀ size memory disk s, Reaches (fun _ call => Filled call ∧ Placed onePlace call) (start size memory disk) s →
      Coherent (fun _ call => Filled call ∧ Placed onePlace call) s :=
  ⟨incoherent_unfilled, incoherent_anywhere, incoherent_unbounded⟩

end HddChecker.Apa.Cache
