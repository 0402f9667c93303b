import HddChecker.Apa.Restore
import HddChecker.Pfs.Journal

/-!
# Restoring the log of a filesystem, command by command

`pfsJournalRestore` with any content of the two sectors of the log header, on a drive each command of which may fail. The number of entries is no part of what the checksum covers; the entries behind the 127 of `pfs_journal_t` are what the memory behind `pfsJournalBuf` holds.
-/

namespace HddChecker.Pfs.Commands

open HddChecker FaultyDisk Journal

def pfsJournalReset (m : Journal.pfs_mount_t) (d : FaultyDisk Sector) : Int × FaultyDisk Sector :=
  let (_, d) := d.flush
  let (ok, d) := d.write
    (writesAt 0 m.logStart [pfs_journal_t.reset.toBlock.1, pfs_journal_t.reset.toBlock.2])
  let (_, d) := d.flush
  (if ok then 0 else - EIO, d)

/-- `pfsJournalBuf.log[i]` -/
def logAt (pfsJournalBuf : pfs_journal_t) (behind : Nat → pfs_log_t) (i : Nat) : pfs_log_t :=
  if h : i < 127 then pfsJournalBuf.log ⟨i, h⟩ else behind i

/-- The addresses of the two sectors of the main partition from `sector` on. -/
def blockAt (sector : Nat) : List Nat := [place 0 sector, place 0 (sector + 1)]

/-- The sector the data of an entry is read from. -/
def dataSector (m : Journal.pfs_mount_t) (entry : pfs_log_t) : Nat := u32 (m.logStart + entry.logSector)

/-- One pass of the loop of `pfsJournalRestore`: what can be read is written to its place. -/
def restoreEntry (m : Journal.pfs_mount_t) (entry : pfs_log_t) (i : Nat) (d : FaultyDisk Sector) :
    FaultyDisk Sector :=
  match (d.look i).read (blockAt (dataSector m entry)) with
  | (some data, d) =>
    (d.write ([place entry.sub entry.sector, place entry.sub (entry.sector + 1)].zip data)).2
  | (none, d) => d

/-- The loop of `pfsJournalRestore` from entry `i` on, `n` entries at most. -/
def restoreLoop (m : Journal.pfs_mount_t) (log : Nat → pfs_log_t) :
    Nat → Nat → FaultyDisk Sector → FaultyDisk Sector
  | 0, _, d => d
  | n + 1, i, d => restoreLoop m log n (i + 1) (restoreEntry m (log i) i d)

/-- `pfsJournalRestore`; `clean` is what `pfsCacheAllocClean` answers. -/
def pfsJournalRestore (clean : Except Int Unit) (m : Journal.pfs_mount_t) (behind : Nat → pfs_log_t)
    (d : FaultyDisk Sector) : Int × FaultyDisk Sector :=
  match d.read (blockAt m.logStart) with
  | (some [a, b], d) =>
    let j := pfs_journal_t.ofBlock (a, b)
    if j.magic ≠ PFS_JOUNRNAL_MAGIC ∨ j.checksum ≠ pfsJournalChecksum (a, b) then pfsJournalReset m d
    else if j.num = 0 then pfsJournalReset m d
    else
      match clean with
      | .error result => (result, d)
      | .ok _ => pfsJournalReset m (restoreLoop m (logAt j behind) j.num 0 d)
  | (_, d) => pfsJournalReset m d

variable {m : Journal.pfs_mount_t} {log : Nat → pfs_log_t} {d : FaultyDisk Sector} {i n k : Nat}
  {e : Event Sector}

/-! ### The log of the run -/

theorem restoreEntry_log (m : Journal.pfs_mount_t) (entry : pfs_log_t) (i : Nat) (d : FaultyDisk Sector) :
    ∃ rest, (restoreEntry m entry i d).log = d.log ++ .entry i :: .read (blockAt (dataSector m entry)) :: rest ∧
      ∀ e ∈ rest, ∃ writes, e = .stored writes := by
  unfold restoreEntry FaultyDisk.read FaultyDisk.look FaultyDisk.write
  cases hread : d.fails d.issued with
  | true => exact ⟨[], by simp, by simp⟩
  | false =>
    cases hwrite : d.fails (d.issued + 1) with
    | true => exact ⟨[], by simp [hwrite], by simp⟩
    | false => exact ⟨[.stored _], by simp [hwrite]; rfl, by simp⟩

private theorem mem_restoreLoop (he : e ∈ (restoreLoop m log n i d).log) : e ∈ d.log ∨
    ∃ k, i ≤ k ∧ k < i + n ∧ (e = .entry k ∨ e = .read (blockAt (dataSector m (log k))) ∨
      ∃ writes, e = .stored writes) := by
  induction n generalizing i d with
  | zero => exact .inl he
  | succ n ih =>
    rcases ih he with he | ⟨k, hk, hn, he⟩
    · obtain ⟨rest, hlog, hrest⟩ := restoreEntry_log m (log i) i d
      rw [hlog, List.mem_append, List.mem_cons, List.mem_cons] at he
      rcases he with he | rfl | rfl | he
      · exact .inl he
      · exact .inr ⟨i, le_refl _, by omega, .inl rfl⟩
      · exact .inr ⟨i, le_refl _, by omega, .inr (.inl rfl)⟩
      · exact .inr ⟨i, le_refl _, by omega, .inr (.inr (hrest e he))⟩
    · exact .inr ⟨k, by omega, by omega, he⟩

theorem subset_restoreLoop (he : e ∈ d.log) : e ∈ (restoreLoop m log n i d).log := by
  induction n generalizing i d with
  | zero => exact he
  | succ n ih =>
    refine ih ?_
    obtain ⟨rest, hlog, -⟩ := restoreEntry_log m (log i) i d
    rw [hlog]
    exact List.mem_append_left _ he

private theorem restoreLoop_mem (log : Nat → pfs_log_t) (hi : i ≤ k) (hk : k < i + n) :
    .entry k ∈ (restoreLoop m log n i d).log ∧
      .read (blockAt (dataSector m (log k))) ∈ (restoreLoop m log n i d).log := by
  induction n generalizing i d with
  | zero => omega
  | succ n ih =>
    rcases Nat.eq_or_lt_of_le hi with rfl | hlt
    · obtain ⟨rest, hlog, -⟩ := restoreEntry_log m (log i) i d
      rw [restoreLoop]
      refine ⟨subset_restoreLoop ?_, subset_restoreLoop ?_⟩
      · rw [hlog]
        simp
      · rw [hlog]
        simp
    · exact ih (by omega) (by omega)

theorem pfsJournalReset_log : ∃ rest, (pfsJournalReset m d).2.log = d.log ++ rest ∧
    ∀ e ∈ rest, ∃ writes, e = .stored writes := by
  unfold pfsJournalReset FaultyDisk.flush FaultyDisk.write
  cases hwrite : d.fails (d.issued + 1) with
  | true => exact ⟨[], by simp [hwrite], by simp⟩
  | false => exact ⟨[.stored _], by simp [hwrite]; rfl, by simp⟩

/-! ### Bounds -/

/-- The two sectors from `sector` on lie in the log area: the `count` zones from `log.number` on. -/
def InLog (m : Journal.pfs_mount_t) (count sector : Nat) : Prop :=
  m.logStart ≤ sector ∧ sector + 1 < m.logStart + count * 2 ^ m.sector_scale

/-- An event that stays inside the index and the log. -/
def InBounds (m : Journal.pfs_mount_t) (count : Nat) : Event Sector → Prop
  | .read addresses => ∃ sector, addresses = blockAt sector ∧ InLog m count sector
  | .entry i => i < 127
  | .stored _ => True

/-- Whatever else the drive and the memory hold and whatever fails, the content `b` of the log header leads nowhere else. -/
def LogHarmless (m : Journal.pfs_mount_t) (count : Nat) (b : Block) : Prop :=
  ∀ clean behind c fails, c (place 0 m.logStart) = b.1 → c (place 0 (m.logStart + 1)) = b.2 →
    ∀ e ∈ (pfsJournalRestore clean m behind (fresh c fails)).2.log, InBounds m count e

/-- The log header passes for one of the filesystem's own. -/
def Valid (b : Block) : Prop :=
  (pfs_journal_t.ofBlock b).magic = PFS_JOUNRNAL_MAGIC ∧
    (pfs_journal_t.ofBlock b).checksum = pfsJournalChecksum b

/-- The header fits the log area, and one that is valid has at most 127 entries, whose data lie in the log area. -/
def WithinLog (m : Journal.pfs_mount_t) (count : Nat) (b : Block) : Prop :=
  InLog m count m.logStart ∧ (Valid b → (pfs_journal_t.ofBlock b).num ≤ 127 ∧
    ∀ i : Fin 127, i.val < (pfs_journal_t.ofBlock b).num →
      InLog m count (dataSector m ((pfs_journal_t.ofBlock b).log i)))

theorem inLog_of_inBounds {count sector : Nat} (h : InBounds m count (.read (blockAt sector))) :
    InLog m count sector := by
  obtain ⟨sector', heq, hin⟩ := h
  have hplace : place 0 sector = place 0 sector' := (List.cons.inj heq).1
  rw [(Nat.pair_eq_pair.mp hplace).2]
  exact hin

theorem inBounds_pfsJournalReset {count : Nat} (h : ∀ e ∈ d.log, InBounds m count e) :
    ∀ e ∈ (pfsJournalReset m d).2.log, InBounds m count e := by
  obtain ⟨rest, hlog, hrest⟩ := pfsJournalReset_log (m := m) (d := d)
  rw [hlog]
  intro e he
  rcases List.mem_append.mp he with he | he
  · exact h e he
  · obtain ⟨writes, rfl⟩ := hrest e he
    trivial

theorem subset_pfsJournalReset (he : e ∈ d.log) : e ∈ (pfsJournalReset m d).2.log := by
  obtain ⟨rest, hlog, -⟩ := pfsJournalReset_log (m := m) (d := d)
  rw [hlog]
  exact List.mem_append_left _ he

/-- The drive after the header has been read. -/
def headerRead (m : Journal.pfs_mount_t) (c : Nat → Sector) (fails : Nat → Bool) : FaultyDisk Sector :=
  ⟨c, fails, 1, [.read (blockAt m.logStart)]⟩

variable {clean : Except Int Unit} {behind : Nat → pfs_log_t} {c : Nat → Sector} {fails : Nat → Bool}
  {b : Block} {count : Nat}

theorem pfsJournalRestore_cases (clean : Except Int Unit) (behind : Nat → pfs_log_t)
    (fails : Nat → Bool) (hfirst : c (place 0 m.logStart) = b.1)
    (hsecond : c (place 0 (m.logStart + 1)) = b.2) :
    (pfsJournalRestore clean m behind (fresh c fails)).2 = (pfsJournalReset m (headerRead m c fails)).2 ∨
    (pfsJournalRestore clean m behind (fresh c fails)).2 = headerRead m c fails ∨
    Valid b ∧ (pfsJournalRestore clean m behind (fresh c fails)).2 = (pfsJournalReset m
      (restoreLoop m (logAt (.ofBlock b) behind) (pfs_journal_t.ofBlock b).num 0 (headerRead m c fails))).2 := by
  unfold pfsJournalRestore FaultyDisk.read
  cases hread : fails 0 with
  | true =>
    simp only [fresh, hread, if_true]
    exact .inl rfl
  | false =>
    simp only [fresh, hread, Bool.false_eq_true, if_false, blockAt, List.map_cons, List.map_nil, hfirst,
      hsecond]
    split
    · exact .inl rfl
    · rename_i hvalid
      rw [not_or, not_not, not_not] at hvalid
      split
      · exact .inl rfl
      · cases clean with
        | error result => exact .inr (.inl rfl)
        | ok _ => exact .inr (.inr ⟨hvalid, rfl⟩)

private theorem pfsJournalRestore_valid (hfirst : c (place 0 m.logStart) = b.1)
    (hsecond : c (place 0 (m.logStart + 1)) = b.2) (hvalid : Valid b)
    (hnum : (pfs_journal_t.ofBlock b).num ≠ 0) :
    (pfsJournalRestore (.ok ()) m behind (fresh c fun _ => false)).2 = (pfsJournalReset m
      (restoreLoop m (logAt (.ofBlock b) behind) (pfs_journal_t.ofBlock b).num 0
        (headerRead m c fun _ => false))).2 := by
  have hnot : ¬ ((pfs_journal_t.ofBlock b).magic ≠ PFS_JOUNRNAL_MAGIC ∨
      (pfs_journal_t.ofBlock b).checksum ≠ pfsJournalChecksum b) := by
    rw [not_or, not_not, not_not]
    exact hvalid
  simp only [pfsJournalRestore, FaultyDisk.read, fresh, Bool.false_eq_true, if_false, blockAt,
    List.map_cons, List.map_nil, hfirst, hsecond, Prod.mk.eta, if_neg hnot, hnum]
  rfl

/-- The log header is harmless if and only if what it leads to lies within the index and the log area. -/
theorem logHarmless_iff (m : Journal.pfs_mount_t) (count : Nat) (b : Block) :
    LogHarmless m count b ↔ WithinLog m count b := by
  constructor
  · intro h
    set c : Nat → Sector := fun a => if a = place 0 m.logStart then b.1 else b.2 with hc
    have hfirst : c (place 0 m.logStart) = b.1 := if_pos rfl
    have hsecond : c (place 0 (m.logStart + 1)) = b.2 := by
      refine if_neg fun heq => ?_
      have := (Nat.pair_eq_pair.mp heq).2
      omega
    have hrun := h (.ok ()) (fun _ => ⟨0, 0, 0⟩) c (fun _ => false) hfirst hsecond
    have hheader : .read (blockAt m.logStart) ∈ (headerRead m c fun _ => false).log :=
      List.mem_cons_self
    refine ⟨inLog_of_inBounds (hrun _ ?_), fun hvalid => ?_⟩
    · rcases pfsJournalRestore_cases (.ok ()) (fun _ => ⟨0, 0, 0⟩)
        (fun _ => false) hfirst hsecond with heq | heq | ⟨-, heq⟩
      · rw [heq]
        exact subset_pfsJournalReset hheader
      · rw [heq]
        exact hheader
      · rw [heq]
        exact subset_pfsJournalReset (subset_restoreLoop hheader)
    · have hentries : ∀ k < (pfs_journal_t.ofBlock b).num, k < 127 ∧ InLog m count
          (dataSector m (logAt (.ofBlock b) (fun _ => ⟨0, 0, 0⟩) k)) := by
        intro k hk
        rw [pfsJournalRestore_valid hfirst hsecond hvalid (by omega)] at hrun
        obtain ⟨hentry, hread⟩ := restoreLoop_mem (m := m) (n := (pfs_journal_t.ofBlock b).num)
          (logAt (.ofBlock b) fun _ => ⟨0, 0, 0⟩) (d := headerRead m c fun _ => false)
          (Nat.zero_le k) (by omega)
        exact ⟨hrun _ (subset_pfsJournalReset hentry),
          inLog_of_inBounds (hrun _ (subset_pfsJournalReset hread))⟩
      refine ⟨?_, fun i hi => ?_⟩
      · by_contra hmany
        have := (hentries 127 (by omega)).1
        omega
      · have hin := (hentries i.val hi).2
        rwa [logAt, dif_pos i.isLt] at hin
  · rintro ⟨hheader, hvalid⟩ clean behind c fails hfirst hsecond
    have hstart : ∀ e ∈ (headerRead m c fails).log, InBounds m count e := by
      intro e he
      rw [List.mem_singleton.mp he]
      exact ⟨_, rfl, hheader⟩
    rcases pfsJournalRestore_cases clean behind fails hfirst hsecond
      with heq | heq | ⟨hb, heq⟩
    · rw [heq]
      exact inBounds_pfsJournalReset hstart
    · rw [heq]
      exact hstart
    · rw [heq]
      obtain ⟨hfew, hin⟩ := hvalid hb
      refine inBounds_pfsJournalReset fun e he => ?_
      rcases mem_restoreLoop he with he | ⟨k, -, hk, rfl | rfl | ⟨writes, rfl⟩⟩
      · exact hstart e he
      · simp only [InBounds]
        omega
      · have hlt : k < 127 := by omega
        refine ⟨_, rfl, ?_⟩
        rw [logAt, dif_pos hlt]
        exact hin ⟨k, hlt⟩ (by simpa using hk)
      · trivial

/-! ### Both journals -/

open Apa.Commands in
/-- A journal of the partition table is harmless if and only if it is none or has at most 126 copies, and the log of a filesystem if and only if it is none or has at most 127 entries, which name data in the log area. -/
theorem journals_harmless_iff (s : Sector) (m : Journal.pfs_mount_t) (count : Nat) (b : Block) :
    (JournalHarmless s ↔
      ((Apa.ApaJournal.ofSector s).magic = Apa.APAL_MAGIC → (Apa.ApaJournal.ofSector s).num ≤ 126)) ∧
    (LogHarmless m count b ↔ WithinLog m count b) :=
  ⟨journalHarmless_iff s, logHarmless_iff m count b⟩

/-- A journal that says it has 127 copies, and nothing else. -/
def longJournal : Sector := fun i => if i.val = 0 then Apa.APAL_MAGIC else if i.val = 1 then 127 else 0

/-- A log header that says it has 128 entries, and nothing else. -/
def longLog : Block :=
  (fun i => if i.val = 0 then PFS_JOUNRNAL_MAGIC else if i.val = 1 then 128 else 0, Sector.zero)

theorem longLog_valid : Valid longLog ∧ (pfs_journal_t.ofBlock longLog).num = 128 := by
  refine ⟨⟨by decide, ?_⟩, by decide⟩
  unfold pfsJournalChecksum
  decide +kernel

open Apa.Commands in
/-- The entries behind the index are followed. -/
theorem journals_overrun : ¬ JournalHarmless longJournal ∧ ¬ LogHarmless ⟨1, 0x81, 1⟩ 0x100 longLog := by
  rw [journalHarmless_iff, logHarmless_iff]
  refine ⟨by decide, fun h => ?_⟩
  have hfew := (h.2 longLog_valid.1).1
  rw [longLog_valid.2] at hfew
  omega

end HddChecker.Pfs.Commands
