import HddChecker.Apa.Flush

/-!
# Power loss during a flush

The journal of `journal.c` as a redo log, and what `apaJournalRestore` makes of the content a power loss leaves. The restore may itself be cut short and run again; whatever happens, the headers a flush was writing end up all old or all new.
-/

namespace HddChecker.Apa

open HddChecker WriteBack RedoLog

/-- The journal on the disk names no copies. -/
def IdleSector (v : Option Sector) : Prop :=
  ∃ s, v = some s ∧ (ApaJournal.ofSector s).magic = APAL_MAGIC ∧ (ApaJournal.ofSector s).num = 0

theorem idleSector_reset : IdleSector (some ApaJournal.reset.toSector) :=
  ⟨_, rfl, by decide, by decide⟩

/-- The redo log of a drive: the index is sector 8, the copies lie in the 252 sectors from 10 on. -/
def apaLog : RedoLog (Option Sector) where
  index := APA_SECTOR_APAL
  area := fun a => APA_SECTOR_APAL_HEADERS ≤ a ∧ a < APA_SECTOR_APAL_HEADERS + 252
  idle := IdleSector
  index_not_area := by decide

/-- A header at `s` keeps clear of the log. -/
def OffLog (s : Nat) : Prop :=
  s + 2 ≤ APA_SECTOR_APAL ∨ APA_SECTOR_APAL_HEADERS + 252 ≤ s

theorem OffLog.outside {s a : Nat} (h : OffLog s) (ha : a = s ∨ a = s + 1) : apaLog.Outside a := by
  simp only [OffLog, RedoLog.Outside, apaLog, APA_SECTOR_APAL, APA_SECTOR_APAL_HEADERS] at *
  omega

/-- The two sectors of the header at `s` hold `h`. -/
def Holds (c : Nat → Option Sector) (s : Nat) (h : ApaHeader) : Prop :=
  c s = some h.first ∧ c (s + 1) = some h.second

/-- What a flush relies on: one buffer for each sector, no failing write, an idle journal, and dirty headers that fit the log, do not overlap and keep clear of it. -/
structure Device.Flushable (d : Device) : Prop where
  keyed : Keyed d.cache
  good : ∀ a, d.badWrite a = false
  magic : d.journalBuf.magic = APAL_MAGIC
  num : d.journalBuf.num = 0
  idle : IdleSector (d.disk APA_SECTOR_APAL)
  few : (dirtyBufs d.cache).length ≤ 126
  offLog : ∀ b ∈ dirtyBufs d.cache, OffLog b.sector
  apart : ∀ a ∈ dirtyBufs d.cache, ∀ b ∈ dirtyBufs d.cache, a.sector < b.sector →
    a.sector + 2 ≤ b.sector

/-! ### The index -/

/-- The index gives the places of the buffers `L`, the first of them as entry `n`. -/
def Records (j : ApaJournal) : Nat → List ApaCache → Prop
  | _, [] => True
  | n, b :: L => (∃ h : n < 126, j.sectors ⟨n, h⟩ = b.sector) ∧ Records j (n + 1) L

@[simp] theorem journalIndex_cons (j : ApaJournal) (b : ApaCache) (L : List ApaCache) :
    journalIndex j (b :: L) = journalIndex (j.push b.sector) L := rfl

theorem journalIndex_num (j : ApaJournal) (L : List ApaCache) :
    (journalIndex j L).num = j.num + L.length := by
  induction L generalizing j with
  | nil => simp [journalIndex]
  | cons b L ih =>
    rw [journalIndex_cons, ih, List.length_cons]
    simp only [ApaJournal.push]
    omega

theorem journalIndex_magic (j : ApaJournal) (L : List ApaCache) :
    (journalIndex j L).magic = j.magic := by
  induction L generalizing j with
  | nil => rfl
  | cons b L ih =>
    rw [journalIndex_cons, ih]
    rfl

private theorem journalIndex_sectors_of_lt {j : ApaJournal} {L : List ApaCache} {i : Fin 126}
    (hi : (i.val : Int) < j.num) : (journalIndex j L).sectors i = j.sectors i := by
  induction L generalizing j with
  | nil => rfl
  | cons b L ih =>
    have hne : ¬ (i.val : Int) = j.num := by omega
    have hpush : (i.val : Int) < (j.push b.sector).num := by
      simp only [ApaJournal.push]
      omega
    rw [journalIndex_cons, ih hpush]
    simp [ApaJournal.push, hne]

theorem records_journalIndex {j : ApaJournal} {L : List ApaCache} {n : Nat} (hnum : j.num = n)
    (hfew : n + L.length ≤ 126) : Records (journalIndex j L) n L := by
  induction L generalizing j n with
  | nil => trivial
  | cons b L ih =>
    rw [List.length_cons] at hfew
    have hpush : (j.push b.sector).num = (n + 1 : Nat) := by
      simp [ApaJournal.push, hnum]
    refine ⟨⟨by omega, ?_⟩, ih hpush (by omega)⟩
    rw [journalIndex_cons, journalIndex_sectors_of_lt (by rw [hpush]; simp only; omega)]
    simp [ApaJournal.push, hnum]

/-! ### The transaction of a flush -/

namespace Device.Flushable

variable {d : Device} (h : d.Flushable)
include h

theorem homeWrites_unique {a : Nat} {x y : Option Sector}
    (hx : (a, x) ∈ homeWrites (dirtyBufs d.cache)) (hy : (a, y) ∈ homeWrites (dirtyBufs d.cache)) :
    y = x := by
  obtain ⟨b, hb, hbx⟩ := mem_homeWrites.mp hx
  obtain ⟨b', hb', hby⟩ := mem_homeWrites.mp hy
  have hlt := h.apart b hb b' hb'
  have hgt := h.apart b' hb' b hb
  have hsame : b.sector = b'.sector → b = b' :=
    h.keyed.eq_of_sector (mem_dirtyBufs.mp hb).1 (mem_dirtyBufs.mp hb').1
  simp only [Prod.mk.injEq] at hbx hby
  rcases hbx with ⟨hbx, rfl⟩ | ⟨hbx, rfl⟩ <;> rcases hby with ⟨hby, rfl⟩ | ⟨hby, rfl⟩
  · rw [hsame (by omega)]
  · omega
  · omega
  · rw [hsame (by omega)]

theorem index_eq : ApaJournal.ofSector (journalIndex d.journalBuf (dirtyBufs d.cache)).toSector =
    journalIndex d.journalBuf (dirtyBufs d.cache) := by
  have hnum := journalIndex_num d.journalBuf (dirtyBufs d.cache)
  have hfew := h.few
  rw [h.num] at hnum
  exact ApaJournal.ofSector_toSector _ (by omega) (by omega)

theorem copies_area : ∀ w ∈ journalCopies 0 (dirtyBufs d.cache), apaLog.area w.1 := by
  intro w hw
  have hmem := mem_journalCopies hw
  have hfew := h.few
  simp only [apaLog, APA_SECTOR_APAL_HEADERS]
  omega

theorem home_outside : ∀ w ∈ homeWrites (dirtyBufs d.cache), ¬ apaLog.area w.1 ∧ w.1 ≠ apaLog.index := by
  intro w hw
  obtain ⟨b, hb, hw⟩ := mem_homeWrites.mp hw
  exact (h.offLog b hb).outside (hw.imp (by rintro rfl; rfl) (by rintro rfl; rfl))

/-- A flush as a transaction of the log. -/
def transaction : apaLog.Transaction where
  copies := journalCopies 0 (dirtyBufs d.cache)
  full := some (journalIndex d.journalBuf (dirtyBufs d.cache)).toSector
  empty := some ApaJournal.reset.toSector
  home := homeWrites (dirtyBufs d.cache)
  copies_area := h.copies_area
  copies_unique := fun _ _ _ hx hy => journalCopies_unique hx hy
  empty_idle := idleSector_reset
  home_outside := h.home_outside

theorem issued_eq : d.apaCacheFlushAllDirty.2.ops = d.ops ++ h.transaction.commit := by
  rw [apaCacheFlushAllDirty_eq h.keyed h.good h.num]
  rfl

theorem holds_of_settled {base c : Nat → Option Sector}
    (hc : apaLog.Settled (h.transaction.result base) c) {b : ApaCache}
    (hb : b ∈ dirtyBufs d.cache) : Holds c b.sector b.header.sealed := by
  have hoff := h.offLog b hb
  refine ⟨?_, ?_⟩
  · rw [hc.2 _ (hoff.outside (.inl rfl))]
    exact applyWrites_of_mem (mem_homeWrites.mpr ⟨b, hb, .inl rfl⟩) fun y hy =>
      h.homeWrites_unique (mem_homeWrites.mpr ⟨b, hb, .inl rfl⟩) hy
  · rw [hc.2 _ (hoff.outside (.inr rfl))]
    exact applyWrites_of_mem (mem_homeWrites.mpr ⟨b, hb, .inr rfl⟩) fun y hy =>
      h.homeWrites_unique (mem_homeWrites.mpr ⟨b, hb, .inr rfl⟩) hy

end Device.Flushable

/-! ### The restore -/

/-- A drive as the driver finds it when it is started. -/
def Device.boot (disk : Nat → Option Sector) : Device where
  disk := disk
  badWrite := fun _ => false
  clock := fun _ _ => 0
  ops := []
  cache := []
  journalBuf := ApaJournal.reset

/-- The operations of `apaJournalRestore` on a content. -/
def restoreOps (c : Nat → Option Sector) : List (DiskOp (Option Sector)) :=
  (Device.boot c).apaJournalRestore.2.ops

/-- `apaJournalRestore` runs on the content `c` until it completes, cut short by power losses any number of times, and `e` is what it leaves. -/
inductive Restored : (Nat → Option Sector) → (Nat → Option Sector) → Prop
  | complete {c e} (h : ((WriteBack.mk c []).run (restoreOps c)).Loses e) : Restored c e
  | interrupted {c e f} (n : Nat) (h : ((WriteBack.mk c []).run ((restoreOps c).take n)).Loses e)
      (hagain : Restored e f) : Restored c f

theorem restoreOps_idle {c : Nat → Option Sector} (h : IdleSector (c APA_SECTOR_APAL)) :
    restoreOps c = [] := by
  obtain ⟨s, hs, hmagic, hnum⟩ := h
  simp [restoreOps, Device.apaJournalRestore, Device.boot, hs, hmagic, hnum]

theorem Restored.eq_of_idle {c e : Nat → Option Sector} (h : Restored c e)
    (hidle : IdleSector (c APA_SECTOR_APAL)) : e = c := by
  induction h with
  | complete h =>
    rw [restoreOps_idle hidle] at h
    exact loses_of_no_pending h
  | interrupted n h hagain ih =>
    rw [restoreOps_idle hidle, List.take_nil] at h
    have heq := loses_of_no_pending h
    subst heq
    exact ih hidle

theorem Device.restoreLoop_eq {L : List ApaCache} {n : Nat} {d : Device}
    (hgood : ∀ a, d.badWrite a = false) (hcopies : ∀ w ∈ journalCopies n L, d.disk w.1 = w.2)
    (hindex : Records d.journalBuf n L) (hoff : ∀ b ∈ L, OffLog b.sector)
    (hfew : n + L.length ≤ 126) :
    restoreLoop L.length n d = (0, { d with
      disk := applyWrites (homeWrites L) d.disk
      ops := d.ops ++ (homeWrites L).map fun w => .write w.1 w.2 }) := by
  induction L generalizing n d with
  | nil => simp [restoreLoop, homeWrites]
  | cons b L ih =>
    obtain ⟨⟨hn, hsector⟩, hindex⟩ := hindex
    rw [List.length_cons] at hfew ⊢
    simp only [journalCopies, List.mem_append, mem_headerWrites] at hcopies
    have hread : ataRead (2 * n + APA_SECTOR_APAL_HEADERS) 2 d =
        some [b.header.sealed.first, b.header.sealed.second] := by
      simp [ataRead, hcopies _ (.inl (.inl rfl)), hcopies _ (.inl (.inr rfl))]
    have hwrite := ataWrite_of_good hgood b.sector [b.header.sealed.first, b.header.sealed.second]
    have hkeep : ∀ w ∈ journalCopies (n + 1) L,
        applyWrites (headerWrites b.sector b.header.sealed) d.disk w.1 = w.2 := by
      intro w hw
      rw [← hcopies w (.inr hw)]
      refine applyWrites_of_not_mem fun w' hw' heq => ?_
      have hmem := mem_journalCopies hw
      have hb := (hoff b List.mem_cons_self)
      simp only [OffLog, APA_SECTOR_APAL, APA_SECTOR_APAL_HEADERS] at hb
      rcases mem_headerWrites.mp hw' with rfl | rfl
      · simp only at heq
        omega
      · simp only at heq
        omega
    have hrest := ih (n := n + 1) (d := { d with
        disk := applyWrites (headerWrites b.sector b.header.sealed) d.disk
        ops := d.ops ++ (headerWrites b.sector b.header.sealed).map fun w => .write w.1 w.2 })
      hgood hkeep hindex (fun b' hb' => hoff b' (List.mem_cons_of_mem _ hb')) (by omega)
    have hwrites : writesAt b.sector [b.header.sealed.first, b.header.sealed.second] =
        headerWrites b.sector b.header.sealed := rfl
    rw [restoreLoop]
    simp only [hread, hn, hsector, hwrite, hwrites, dif_pos, ne_eq, not_true_eq_false, if_false, hrest]
    simp [homeWrites, applyWrites_append, List.append_assoc]

namespace Device.Flushable

variable {d : Device} (h : d.Flushable)
include h

/-- On a logged content the restore carries the transaction out. -/
theorem restoreOps_logged {base c : Nat → Option Sector} (hc : h.transaction.Logged base c)
    (hsome : dirtyBufs d.cache ≠ []) : restoreOps c = h.transaction.carryOut := by
  have hindex : c APA_SECTOR_APAL =
      some (journalIndex d.journalBuf (dirtyBufs d.cache)).toSector := hc.index
  have hnum : (journalIndex d.journalBuf (dirtyBufs d.cache)).num =
      ((dirtyBufs d.cache).length : Int) := by
    rw [journalIndex_num, h.num, Int.zero_add]
  have hne : ¬ ((dirtyBufs d.cache).length : Int) = 0 := by
    have := List.length_pos_iff.mpr hsome
    omega
  have hloop := restoreLoop_eq (L := dirtyBufs d.cache) (n := 0)
    (d := { boot c with journalBuf := journalIndex d.journalBuf (dirtyBufs d.cache) })
    (fun _ => rfl) hc.copies (records_journalIndex h.num (by have := h.few; omega)) h.offLog
    (by have := h.few; omega)
  rw [restoreOps, apaJournalRestore]
  simp only [boot, hindex, h.index_eq, journalIndex_magic, h.magic, hnum, hne, if_true, if_false,
    Int.toNat_natCast]
  simp only [boot] at hloop
  rw [hloop, apaJournalReset, apaJournalFlush_of_good (fun _ => rfl)]
  simp [Transaction.carryOut, Transaction.reset, transaction, apaLog]

theorem settled_of_restored {base c e : Nat → Option Sector} (hc : h.transaction.Logged base c)
    (hsome : dirtyBufs d.cache ≠ []) (hrestored : Restored c e) :
    apaLog.Settled (h.transaction.result base) e := by
  induction hrestored with
  | complete hloss =>
    rw [h.restoreOps_logged hc hsome] at hloss
    obtain ⟨f, hrun, hsettled⟩ := h.transaction.carryOut_run hc
    rw [hrun] at hloss
    rwa [loses_of_no_pending hloss]
  | interrupted n hloss hagain ih =>
    rw [h.restoreOps_logged hc hsome] at hloss
    rcases h.transaction.carryOut_always hc n _ hloss with hlogged | hsettled
    · exact ih hlogged
    · rwa [hagain.eq_of_idle hsettled.1]

/-- Once a transaction is logged, every restore brings its result. -/
theorem outside_of_restored {base c e : Nat → Option Sector} (hc : h.transaction.Logged base c)
    (hrestored : Restored c e) {a : Nat} (ha : apaLog.Outside a) :
    e a = h.transaction.result base a := by
  by_cases hsome : dirtyBufs d.cache = []
  · have hindex : c APA_SECTOR_APAL = some (journalIndex d.journalBuf []).toSector := by
      rw [← hsome]
      exact hc.index
    have hidle : IdleSector (c APA_SECTOR_APAL) := by
      refine ⟨_, hindex, ?_, ?_⟩
      · rw [← hsome, h.index_eq, journalIndex_magic, h.magic]
      · rw [← hsome, h.index_eq, journalIndex_num, h.num, hsome]
        rfl
    have hhome : h.transaction.home = [] := by simp [transaction, hsome, homeWrites]
    rw [hrestored.eq_of_idle hidle, hc.others a ha (by simp [hhome]), Transaction.result, hhome]
    rfl
  · exact (h.settled_of_restored hc hsome hrestored).2 a ha

end Device.Flushable

/-- Whatever prefix of a flush is issued, whatever part of the unflushed writes the power takes with it and however often the restore is cut short, the dirty headers are all old or all new. The drive may hold unflushed writes of other sectors when the flush starts. -/
theorem apaCacheFlushAllDirty_atomic {d : Device} (h : d.Flushable)
    {w : WriteBack (Option Sector)} (hcontents : w.contents = d.disk)
    (hpending : ∀ p ∈ w.pending, p.1 ≠ APA_SECTOR_APAL ∧
      ∀ b ∈ dirtyBufs d.cache, p.1 ≠ b.sector ∧ p.1 ≠ b.sector + 1)
    {n : Nat} {c e : Nat → Option Sector}
    (hloss : (w.run ((d.apaCacheFlushAllDirty.2.ops.drop d.ops.length).take n)).Loses c)
    (hrestored : Restored c e) :
    (∀ b ∈ dirtyBufs d.cache,
      e b.sector = d.disk b.sector ∧ e (b.sector + 1) = d.disk (b.sector + 1)) ∨
    (∀ b ∈ dirtyBufs d.cache, Holds e b.sector b.header.sealed ∧
      apaCheckSum b.header.sealed = b.header.sealed.checksum) := by
  by_cases hsome : dirtyBufs d.cache = []
  · exact .inl fun b hb => absurd hb (by simp [hsome])
  rw [h.issued_eq, List.drop_left] at hloss
  have hdone : apaLog.Settled (h.transaction.result w.contents) e →
      ∀ b ∈ dirtyBufs d.cache, Holds e b.sector b.header.sealed ∧
        apaCheckSum b.header.sealed = b.header.sealed.checksum :=
    fun hsettled b hb => ⟨h.holds_of_settled hsettled hb, apaCheckSum_sealed _⟩
  rcases h.transaction.commit_always w n c hloss with hmix | hlogged | hsettled
  · -- nothing but the copies and the earlier writes has reached the disk
    have hkeep : ∀ a, (∀ p ∈ w.pending, p.1 ≠ a) → apaLog.Outside a ∨ a = APA_SECTOR_APAL →
        c a = d.disk a := by
      intro a hnot harea
      rw [← hcontents, WriteBack.contents, applyWrites_of_not_mem hnot]
      refine (hmix a).resolve_right fun hmem => ?_
      rcases List.mem_append.mp hmem with hmem | hmem
      · exact hnot _ hmem rfl
      · have hcopy := h.transaction.copies_area _ hmem
        rcases harea with harea | rfl
        · exact harea.1 hcopy
        · exact apaLog.index_not_area hcopy
    have hidle : IdleSector (c APA_SECTOR_APAL) := by
      rw [hkeep _ (fun p hp => (hpending p hp).1) (.inr rfl)]
      exact h.idle
    rw [hrestored.eq_of_idle hidle]
    refine .inl fun b hb => ⟨?_, ?_⟩
    · exact hkeep _ (fun p hp => ((hpending p hp).2 b hb).1)
        (.inl ((h.offLog b hb).outside (.inl rfl)))
    · exact hkeep _ (fun p hp => ((hpending p hp).2 b hb).2)
        (.inl ((h.offLog b hb).outside (.inr rfl)))
  · exact .inr (hdone (h.settled_of_restored hlogged hsome hrestored))
  · rw [hrestored.eq_of_idle hsettled.1]
    exact .inr fun b hb => ⟨h.holds_of_settled hsettled hb, apaCheckSum_sealed _⟩

/-- A drive with an idle journal and one header to write. -/
def oneDirty : Device where
  disk := fun a => if a = APA_SECTOR_APAL then some ApaJournal.reset.toSector else none
  badWrite := fun _ => false
  clock := fun _ _ => 0
  ops := []
  cache := [⟨0x40000, { ApaHeader.zero with magic := APA_MAGIC, start := 0x40000 }, true, 1⟩]
  journalBuf := ApaJournal.reset

private theorem oneDirty_flushable : oneDirty.Flushable where
  keyed := by simp [Keyed, oneDirty]
  good := fun _ => rfl
  magic := rfl
  num := rfl
  idle := idleSector_reset
  few := by decide
  offLog := by simp [oneDirty, dirtyBufs, OffLog, APA_SECTOR_APAL_HEADERS]
  apart := by simp [oneDirty, dirtyBufs]

/-- The power goes after the first write of the header in place, and the restore is run to its end. -/
theorem apaCacheFlushAllDirty_atomic_oneDirty :
    let c := ((WriteBack.mk oneDirty.disk []).run
      ((oneDirty.apaCacheFlushAllDirty.2.ops.drop 0).take 6)).contents
    let e := ((WriteBack.mk c []).run (restoreOps c)).contents
    (∀ b ∈ dirtyBufs oneDirty.cache,
      e b.sector = oneDirty.disk b.sector ∧ e (b.sector + 1) = oneDirty.disk (b.sector + 1)) ∨
    (∀ b ∈ dirtyBufs oneDirty.cache, Holds e b.sector b.header.sealed ∧
      apaCheckSum b.header.sealed = b.header.sealed.checksum) :=
  apaCacheFlushAllDirty_atomic (w := ⟨oneDirty.disk, []⟩) (n := 6) oneDirty_flushable rfl
    (fun _ hp => absurd hp List.not_mem_nil) (loses_contents _) (.complete (loses_contents _))

end HddChecker.Apa
