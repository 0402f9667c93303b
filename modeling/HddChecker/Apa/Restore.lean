import HddChecker.Apa.Device
import HddChecker.Lib.Commands

/-!
# Restoring the journal, command by command

`apaJournalRestore` on a drive each command of which may fail, and with any content of the journal sector. The entries of the index behind the 126 of `apa_journal_t` are what the memory behind `journalBuf` holds.
-/

namespace HddChecker.Apa.Commands

open HddChecker FaultyDisk

/-- `apaJournalReset`: the journal is cleared and written out. -/
def apaJournalReset (d : FaultyDisk Sector) : Int × FaultyDisk Sector :=
  let (ok, d) := d.flush
  if ok = false then (- EIO, d)
  else
    let (ok, d) := d.write [(APA_SECTOR_APAL, ApaJournal.reset.toSector)]
    if ok = false then (- EIO, d)
    else
      let (ok, d) := d.flush
      if ok = false then (- EIO, d) else (0, d)

/-- `journalBuf.sectors[i]` -/
def sectorsAt (journalBuf : ApaJournal) (behind : Nat → Nat) (i : Nat) : Nat :=
  if h : i < 126 then journalBuf.sectors ⟨i, h⟩ else behind i

/-- The sector of copy `i`. -/
def copySector (i : Nat) : Nat := u32 (2 * i + APA_SECTOR_APAL_HEADERS)

/-- The loop of `apaJournalRestore` from copy `i` on, `n` copies at most: the code of the first transfer that fails, or 0. -/
def restoreLoop (sectors : Nat → Nat) : Nat → Nat → FaultyDisk Sector → Int × FaultyDisk Sector
  | 0, _, d => (0, d)
  | n + 1, i, d =>
    let (copy, d) := d.read [copySector i, copySector i + 1]
    match copy with
    | none => (- EIO, d)
    | some header =>
      let d := d.look i
      let (ok, d) := d.write ([sectors i, sectors i + 1].zip header)
      if ok = false then (- EIO, d) else restoreLoop sectors n (i + 1) d

/-- `apaJournalRestore`. What the loop returned is lost. -/
def apaJournalRestore (behind : Nat → Nat) (d : FaultyDisk Sector) : Int × FaultyDisk Sector :=
  match d.read [APA_SECTOR_APAL] with
  | (some [s], d) =>
    let journalBuf := ApaJournal.ofSector s
    if journalBuf.magic = APAL_MAGIC then
      if journalBuf.num = 0 then (0, d)
      else apaJournalReset (restoreLoop (sectorsAt journalBuf behind) journalBuf.num.toNat 0 d).2
    else apaJournalReset d
  | (_, d) => apaJournalReset d

/-- The part of `_start` that restores the journals of the drives: whether the module goes on. -/
def start (behind : Nat → Nat) : List (FaultyDisk Sector) → Bool
  | [] => true
  | d :: drives => if (apaJournalRestore behind d).1 ≠ 0 then false else start behind drives

variable {behind sectors : Nat → Nat} {c : Nat → Sector} {fails : Nat → Bool} {d : FaultyDisk Sector}
  {i n m : Nat}

private theorem start_refuses {drives : List (FaultyDisk Sector)} (hd : d ∈ drives)
    (h : (apaJournalRestore behind d).1 ≠ 0) : start behind drives = false := by
  induction drives with
  | nil => cases hd
  | cons e drives ih =>
    rw [start]
    split
    · rfl
    · rename_i hzero
      rcases List.mem_cons.mp hd with rfl | hd
      · exact (hzero h).elim
      · exact ih hd

/-! ### The copies -/

/-- The write that carries out copy `i` on a disk with the content `c`. -/
def copyWrite (sectors : Nat → Nat) (c : Nat → Sector) (i : Nat) : List (Nat × Sector) :=
  [(sectors i, c (copySector i)), (sectors i + 1, c (copySector i + 1))]

/-- The content after the first `m` copies. -/
def replayed (sectors : Nat → Nat) (c : Nat → Sector) : Nat → Nat → Sector
  | 0 => c
  | m + 1 => applyWrites (copyWrite sectors (replayed sectors c m) m) (replayed sectors c m)

/-- What the log holds of copy `i` when it succeeds. -/
def copyEvents (sectors : Nat → Nat) (c : Nat → Sector) (i : Nat) : List (Event Sector) :=
  [.read [copySector i, copySector i + 1], .entry i, .stored (copyWrite sectors (replayed sectors c i) i)]

/-- What the log holds of copy `i` when its transfer number `k`, 0 or 1, fails. -/
def failedEvents (i k : Nat) : List (Event Sector) :=
  if k = 0 then [.read [copySector i, copySector i + 1]]
  else [.read [copySector i, copySector i + 1], .entry i]

theorem restoreLoop_good (hcontent : d.content = replayed sectors c i)
    (hgood : ∀ k < 2 * n, d.fails (d.issued + k) = false) :
    restoreLoop sectors n i d = (0,
      { d with
        content := replayed sectors c (i + n), issued := d.issued + 2 * n
        log := d.log ++ (List.range' i n).flatMap (copyEvents sectors c) }) := by
  induction n generalizing i d with
  | zero => simp [restoreLoop, ← hcontent]
  | succ n ih =>
    have hread : d.fails d.issued = false := hgood 0 (by omega)
    have hwrite : d.fails (d.issued + 1) = false := hgood 1 (by omega)
    simp only [restoreLoop, FaultyDisk.read, FaultyDisk.look, FaultyDisk.write, hread, hwrite,
      Bool.false_eq_true, if_false, Bool.true_eq_false]
    rw [ih (i := i + 1)]
    · simp [List.range'_succ, copyEvents, copyWrite, hcontent, Nat.add_assoc, Nat.add_comm 1 n,
        Nat.mul_add, Nat.add_comm 2]
    · simp [replayed, copyWrite, hcontent]
    · intro k hk
      have := hgood (k + 2) (by omega)
      simpa [Nat.add_assoc, Nat.add_comm 2] using this

/-- The loop ends at the first transfer that fails. -/
theorem restoreLoop_failed {k : Nat} (hcontent : d.content = replayed sectors c i) (hk : k < 2 * n)
    (hfirst : FirstFailure d.fails d.issued k) :
    restoreLoop sectors n i d = (- EIO,
      { d with
        content := replayed sectors c (i + k / 2), issued := d.issued + k + 1
        log := d.log ++ (List.range' i (k / 2)).flatMap (copyEvents sectors c) ++
          failedEvents (i + k / 2) (k % 2) }) := by
  induction n generalizing i k d with
  | zero => omega
  | succ n ih =>
    match k with
    | 0 =>
      have hread : d.fails d.issued = true := hfirst.1
      simp [restoreLoop, FaultyDisk.read, hread, failedEvents, ← hcontent]
    | 1 =>
      have hread : d.fails d.issued = false := hfirst.2 0 (by omega)
      have hwrite : d.fails (d.issued + 1) = true := hfirst.1
      simp [restoreLoop, FaultyDisk.read, FaultyDisk.look, FaultyDisk.write, hread, hwrite,
        failedEvents, ← hcontent]
    | k + 2 =>
      have hread : d.fails d.issued = false := hfirst.2 0 (by omega)
      have hwrite : d.fails (d.issued + 1) = false := hfirst.2 1 (by omega)
      have hrest : FirstFailure d.fails (d.issued + 1 + 1) k := by
        refine ⟨?_, fun j hj => ?_⟩
        · have := hfirst.1
          rwa [show d.issued + (k + 2) = d.issued + 1 + 1 + k by omega] at this
        · have := hfirst.2 (j + 2) (by omega)
          rwa [show d.issued + (j + 2) = d.issued + 1 + 1 + j by omega] at this
      simp only [restoreLoop, FaultyDisk.read, FaultyDisk.look, FaultyDisk.write, hread, hwrite,
        Bool.false_eq_true, if_false, Bool.true_eq_false]
      rw [ih (i := i + 1) (k := k) ?_ (by omega) hrest]
      · have hhalf : (k + 2) / 2 = k / 2 + 1 := by omega
        have hmod : (k + 2) % 2 = k % 2 := by omega
        have hcount : i + (k / 2 + 1) = i + 1 + k / 2 := by omega
        have hissued : d.issued + (k + 2) + 1 = d.issued + 1 + 1 + k + 1 := by omega
        rw [hhalf, hmod, hcount, hissued, List.range'_succ, List.flatMap_cons]
        simp [copyEvents, copyWrite, hcontent]
      · simp [replayed, copyWrite, hcontent]

/-! ### Discarding the journal -/

theorem apaJournalReset_eq (d : FaultyDisk Sector) :
    let stop := d.fails d.issued || d.fails (d.issued + 1)
    ((apaJournalReset d).1 = 0 ↔ stop = false ∧ d.fails (d.issued + 2) = false) ∧
      (apaJournalReset d).2.content =
        (if stop then d.content else Function.update d.content APA_SECTOR_APAL ApaJournal.reset.toSector) ∧
      (apaJournalReset d).2.log = d.log ++
        (if stop then [] else [.stored [(APA_SECTOR_APAL, ApaJournal.reset.toSector)]]) := by
  unfold apaJournalReset FaultyDisk.flush FaultyDisk.write
  cases hflush : d.fails d.issued with
  | true => simp [ EIO]
  | false =>
    cases hwrite : d.fails (d.issued + 1) with
    | true => simp [hwrite, EIO]
    | false =>
      cases hlast : d.fails (d.issued + 2) with
      | true => simp [hwrite, hlast, EIO, Nat.add_assoc]
      | false => simp [hwrite, hlast, Nat.add_assoc]

/-- Each of the copies of the journal `j` has been written to its place. -/
def Replayed (j : ApaJournal) (behind : Nat → Nat) (c : Nat → Sector) (d : FaultyDisk Sector) : Prop :=
  ∀ i < j.num.toNat, (stores d.log)[i]? =
    some (copyWrite (sectorsAt j behind) (replayed (sectorsAt j behind) c i) i)

/-- The journal is discarded only when it has been replayed: the result is 0 or the journal on the disk is cleared only then, and where some copy has not been written, the journal is as it was and the module does not start. -/
def DiscardsReplayed (behind : Nat → Nat) (c : Nat → Sector) (fails : Nat → Bool) : Prop :=
  let j := ApaJournal.ofSector (c APA_SECTOR_APAL)
  let r := apaJournalRestore behind (fresh c fails)
  (r.1 = 0 ∨ (ApaJournal.ofSector (r.2.content APA_SECTOR_APAL)).num = 0 → Replayed j behind c r.2) ∧
    (¬ Replayed j behind c r.2 → r.2.content APA_SECTOR_APAL = c APA_SECTOR_APAL ∧ r.1 ≠ 0 ∧
      ∀ drives, fresh c fails ∈ drives → start behind drives = false)

/-- No transfer of the copying fails, or the clearing that follows the first failure ends before it has written, and no copy was written over the journal. -/
def KeepsJournal (behind : Nat → Nat) (c : Nat → Sector) (fails : Nat → Bool) : Prop :=
  let j := ApaJournal.ofSector (c APA_SECTOR_APAL)
  (∀ k ≤ 2 * j.num.toNat, fails k = false) ∨
    ∃ k ≤ 2 * j.num.toNat, FirstFailure fails 0 k ∧ (fails (k + 1) || fails (k + 2)) = true ∧
      replayed (sectorsAt j behind) c ((k - 1) / 2) APA_SECTOR_APAL = c APA_SECTOR_APAL

/-! ### What the log tells -/

theorem stores_copies (sectors : Nat → Nat) (c : Nat → Sector) (m n : Nat) :
    stores ((List.range' m n).flatMap (copyEvents sectors c)) =
      (List.range' m n).map fun i => copyWrite sectors (replayed sectors c i) i := by
  induction n generalizing m with
  | zero => rfl
  | succ n ih =>
    rw [List.range'_succ, List.flatMap_cons, List.map_cons, stores_append, ih]
    rfl

private theorem stores_failed (i k : Nat) : stores (failedEvents i k) = [] := by
  unfold failedEvents
  split <;> rfl

theorem replayed_of_stores {j : ApaJournal} (stop : Bool)
    (hlog : stores d.log = (List.range' 0 m).map (fun i =>
      copyWrite (sectorsAt j behind) (replayed (sectorsAt j behind) c i) i) ++
        (if stop then [] else [[(APA_SECTOR_APAL, ApaJournal.reset.toSector)]])) (hm : m ≤ j.num.toNat) :
    Replayed j behind c d ↔ m = j.num.toNat := by
  constructor
  · intro h
    by_contra hne
    have hat := h m (by omega)
    rw [hlog, List.getElem?_append_right (by simp)] at hat
    cases stop with
    | true => simp at hat
    | false => simp [copyWrite] at hat
  · rintro rfl i hi
    rw [hlog, List.getElem?_append_left (by simpa using hi)]
    simp [List.getElem?_range' hi]

variable {j : ApaJournal} {k : Nat}

private theorem apaJournalRestore_good (behind : Nat → Nat) (hj : ApaJournal.ofSector (c APA_SECTOR_APAL) = j)
    (hmagic : j.magic = APAL_MAGIC) (hnum : 1 ≤ j.num) (hgood : ∀ k ≤ 2 * j.num.toNat, fails k = false) :
    Replayed j behind c (apaJournalRestore behind (fresh c fails)).2 := by
  have hread : fails 0 = false := hgood 0 (by omega)
  have hne : j.num ≠ 0 := by omega
  simp only [apaJournalRestore, FaultyDisk.read, fresh, hread, Bool.false_eq_true, if_false, List.map_cons,
    List.map_nil, hj, hmagic, if_true, hne]
  rw [restoreLoop_good (c := c) (i := 0) rfl]
  · refine (replayed_of_stores (fails (2 * j.num.toNat + 1) || fails (2 * j.num.toNat + 2)) ?_
      (le_refl _)).mpr rfl
    rw [(apaJournalReset_eq _).2.2]
    simp only [stores_append, stores_copies, Nat.add_comm 1]
    split <;> rfl
  · intro k hk
    simpa [Nat.add_comm 1] using hgood (k + 1) (by omega)

/-- Where a transfer of the copying fails, the copies before it have been written, and the journal is cleared all the same. -/
theorem apaJournalRestore_failed (behind : Nat → Nat) (hj : ApaJournal.ofSector (c APA_SECTOR_APAL) = j)
    (hmagic : j.magic = APAL_MAGIC) (hnum : 1 ≤ j.num) (hk : k ≤ 2 * j.num.toNat)
    (hfirst : FirstFailure fails 0 k) :
    let r := apaJournalRestore behind (fresh c fails)
    let stop := fails (k + 1) || fails (k + 2)
    (r.1 = 0 ↔ stop = false ∧ fails (k + 3) = false) ∧
      r.2.content APA_SECTOR_APAL = (if stop then
        replayed (sectorsAt j behind) c ((k - 1) / 2) APA_SECTOR_APAL else ApaJournal.reset.toSector) ∧
      ¬ Replayed j behind c r.2 := by
  have hne : j.num ≠ 0 := by omega
  have hlt : (k - 1) / 2 < j.num.toNat := by omega
  cases k with
  | zero =>
    have hread : fails 0 = true := hfirst.1
    simp only [apaJournalRestore, FaultyDisk.read, fresh, hread, if_true]
    refine ⟨(apaJournalReset_eq _).1, ?_, fun hall => ?_⟩
    · rw [(apaJournalReset_eq _).2.1]
      simp only [Nat.zero_add]
      split
      · rfl
      · exact Function.update_self ..
    · refine hlt.ne ((replayed_of_stores (fails 1 || fails 2) ?_ (Nat.zero_le _)).mp hall)
      rw [(apaJournalReset_eq _).2.2]
      simp only [stores_append, Nat.zero_add]
      split <;> rfl
  | succ k =>
    have hread : fails 0 = false := hfirst.2 0 (by omega)
    have hfirst' : FirstFailure fails 1 k := by
      refine ⟨?_, fun i hi => ?_⟩
      · simpa [Nat.add_comm 1] using hfirst.1
      · simpa [Nat.add_comm 1] using hfirst.2 (i + 1) (by omega)
    simp only [apaJournalRestore, FaultyDisk.read, fresh, hread, Bool.false_eq_true, if_false,
      List.map_cons, List.map_nil, hj, hmagic, if_true, hne]
    rw [restoreLoop_failed (c := c) (i := 0) rfl (by omega) hfirst']
    have hcount : 0 + 1 + k + 1 = k + 1 + 1 := by omega
    simp only [hcount, Nat.zero_add, Nat.add_sub_cancel] at *
    refine ⟨(apaJournalReset_eq _).1, ?_, fun hall => ?_⟩
    · rw [(apaJournalReset_eq _).2.1]
      dsimp only
      split
      · rfl
      · exact Function.update_self ..
    · refine hlt.ne ((replayed_of_stores (fails (k + 1 + 1) || fails (k + 1 + 2)) ?_
        (by omega)).mp hall)
      rw [(apaJournalReset_eq _).2.2]
      simp only [stores_append, stores_copies, stores_failed, List.append_nil]
      split <;> rfl

/-- The journal is discarded only after it has been replayed if and only if no transfer of the copying fails or the journal survives its clearing. -/
theorem apaJournalRestore_discards_iff
    (hmagic : (ApaJournal.ofSector (c APA_SECTOR_APAL)).magic = APAL_MAGIC)
    (hnum : 1 ≤ (ApaJournal.ofSector (c APA_SECTOR_APAL)).num) :
    DiscardsReplayed behind c fails ↔ KeepsJournal behind c fails := by
  unfold DiscardsReplayed KeepsJournal
  set j := ApaJournal.ofSector (c APA_SECTOR_APAL) with hj
  dsimp only
  rcases firstFailure_or fails 0 (2 * j.num.toNat + 1) with hgood | ⟨k, hk, hfirst⟩
  · have hall : ∀ k ≤ 2 * j.num.toNat, fails k = false := fun k hk => by
      simpa using hgood k (by omega)
    have hreplayed := apaJournalRestore_good behind hj.symm hmagic hnum hall
    exact iff_of_true ⟨fun _ => hreplayed, fun hnot => (hnot hreplayed).elim⟩ (.inl hall)
  · obtain ⟨hzero, hcontent, hnot⟩ :=
      apaJournalRestore_failed behind hj.symm hmagic hnum (by omega) hfirst
    have hfails : ¬ ∀ k ≤ 2 * j.num.toNat, fails k = false := by
      intro hall
      have := hall k (by omega)
      rw [← Nat.zero_add k, hfirst.1] at this
      cases this
    constructor
    · rintro ⟨hdone, hkept⟩
      obtain ⟨hsame, -, -⟩ := hkept hnot
      refine .inr ⟨k, by omega, hfirst, ?_⟩
      cases hstop : fails (k + 1) || fails (k + 2) with
      | true =>
        rw [hstop, if_pos rfl] at hcontent
        exact ⟨rfl, hcontent ▸ hsame⟩
      | false =>
        rw [hstop, if_neg (by simp)] at hcontent
        exact (hnot (hdone (.inr (by rw [hcontent]; decide)))).elim
    · rintro (hall | ⟨k', -, hfirst', hstop, hsame⟩)
      · exact (hfails hall).elim
      · obtain rfl := hfirst.unique hfirst'
        rw [hstop, if_pos rfl] at hcontent
        have hr : (apaJournalRestore behind (fresh c fails)).1 ≠ 0 := by
          rw [ne_eq, hzero, hstop]
          simp
        refine ⟨fun h => ?_, fun _ => ⟨hcontent.trans hsame, hr, fun drives hd => start_refuses hd hr⟩⟩
        rcases h with h | h
        · exact (hr h).elim
        · rw [hcontent, hsame] at h
          have : (1 : Int) ≤ 0 := h ▸ hnum
          omega

/-- A drive with a journal of one copy. -/
def oneCopy : Nat → Sector := fun a =>
  if a = APA_SECTOR_APAL then ApaJournal.toSector ⟨APAL_MAGIC, 1, fun _ => 0x40000⟩ else Sector.zero

theorem oneCopy_journal : (ApaJournal.ofSector (oneCopy APA_SECTOR_APAL)).magic = APAL_MAGIC ∧
    (ApaJournal.ofSector (oneCopy APA_SECTOR_APAL)).num = 1 := by
  decide

theorem apaJournalRestore_discards_iff_oneCopy :
    DiscardsReplayed (fun _ => 0) oneCopy (· == 4) ↔ KeepsJournal (fun _ => 0) oneCopy (· == 4) :=
  apaJournalRestore_discards_iff oneCopy_journal.1 oneCopy_journal.2.ge

/-- The copy cannot be read: the journal is cleared, and the module starts. -/
theorem apaJournalRestore_loses :
    (ApaJournal.ofSector (oneCopy APA_SECTOR_APAL)).magic = APAL_MAGIC ∧
    (ApaJournal.ofSector (oneCopy APA_SECTOR_APAL)).num = 1 ∧
    ¬ DiscardsReplayed (fun _ => 0) oneCopy (· == 1) := by
  refine ⟨oneCopy_journal.1, oneCopy_journal.2, fun h => ?_⟩
  have hfirst : FirstFailure (· == 1) 0 1 := ⟨rfl, by decide⟩
  obtain ⟨hzero, -, hnot⟩ := apaJournalRestore_failed (fun _ => 0) (c := oneCopy) rfl
    oneCopy_journal.1 oneCopy_journal.2.ge (by rw [oneCopy_journal.2]; decide) hfirst
  exact (h.2 hnot).2.1 (hzero.mpr ⟨rfl, rfl⟩)

/-! ### Bounds -/

/-- An event that stays inside the index and the log: an entry of the 126, or a read of the journal's sector or of the 252 behind it. -/
def InBounds : Event Sector → Prop
  | .read addresses => ∀ a ∈ addresses, a = APA_SECTOR_APAL ∨
      APA_SECTOR_APAL_HEADERS ≤ a ∧ a < APA_SECTOR_APAL_HEADERS + 252
  | .entry i => i < 126
  | .stored _ => True

/-- Whatever else the drive and the memory hold and whatever fails, the content `s` of the journal's sector leads nowhere else. -/
def JournalHarmless (s : Sector) : Prop :=
  ∀ behind c fails, c APA_SECTOR_APAL = s →
    ∀ e ∈ (apaJournalRestore behind (fresh c fails)).2.log, InBounds e

theorem inBounds_copy (sectors : Nat → Nat) (hi : i < 126) : ∀ e ∈ copyEvents sectors c i, InBounds e := by
  have hsector : copySector i = 2 * i + 10 := Nat.mod_eq_of_lt (by simp only [APA_SECTOR_APAL_HEADERS]; omega)
  intro e he
  simp only [copyEvents, List.mem_cons, List.not_mem_nil, or_false] at he
  rcases he with rfl | rfl | rfl
  · simp only [InBounds, List.mem_cons, List.not_mem_nil, or_false, hsector, APA_SECTOR_APAL_HEADERS]
    omega
  · exact hi
  · trivial

private theorem inBounds_failed {k : Nat} (hi : i < 126) : ∀ e ∈ failedEvents i k, InBounds e := by
  intro e he
  have hcopy := inBounds_copy (fun _ => 0) (c := fun _ => Sector.zero) hi e
  unfold failedEvents at he
  refine hcopy ?_
  split at he
  · rw [List.mem_singleton.mp he]
    exact List.mem_cons_self
  · rcases List.mem_cons.mp he with rfl | he
    · exact List.mem_cons_self
    · rw [List.mem_singleton.mp he]
      exact List.mem_cons_of_mem _ List.mem_cons_self

theorem inBounds_reset (h : ∀ e ∈ d.log, InBounds e) : ∀ e ∈ (apaJournalReset d).2.log, InBounds e := by
  rw [(apaJournalReset_eq d).2.2]
  intro e he
  rcases List.mem_append.mp he with he | he
  · exact h e he
  · split at he
    · cases he
    · rw [List.mem_singleton.mp he]
      trivial

theorem inBounds_copies (hfew : i + n ≤ 126) :
    ∀ e ∈ (List.range' i n).flatMap (copyEvents sectors c), InBounds e := by
  intro e he
  obtain ⟨m, hm, he⟩ := List.mem_flatMap.mp he
  exact inBounds_copy _ (by have := List.mem_range'_1.mp hm; omega) e he

private theorem inBounds_restoreLoop (h : ∀ e ∈ d.log, InBounds e) (hfew : n ≤ 126) :
    ∀ e ∈ (restoreLoop sectors n 0 d).2.log, InBounds e := by
  rcases firstFailure_or d.fails d.issued (2 * n) with hgood | ⟨k, hk, hfirst⟩
  · rw [restoreLoop_good (c := d.content) rfl hgood]
    intro e he
    rcases List.mem_append.mp he with he | he
    · exact h e he
    · exact inBounds_copies (by omega) e he
  · rw [restoreLoop_failed (c := d.content) rfl hk hfirst]
    intro e he
    rcases List.mem_append.mp he with he | he
    · rcases List.mem_append.mp he with he | he
      · exact h e he
      · exact inBounds_copies (by omega) e he
    · exact inBounds_failed (by omega) e he

theorem journalHarmless_iff (s : Sector) : JournalHarmless s ↔
    ((ApaJournal.ofSector s).magic = APAL_MAGIC → (ApaJournal.ofSector s).num ≤ 126) := by
  constructor
  · intro h hmagic
    by_contra hmany
    have hne : (ApaJournal.ofSector s).num ≠ 0 := by omega
    have hentry := h (fun _ => 0) (fun _ => s) (fun _ => false) rfl (.entry 126) ?_
    · exact absurd hentry (by simp [InBounds])
    · simp only [apaJournalRestore, FaultyDisk.read, fresh, Bool.false_eq_true, if_false, List.map_cons,
        List.map_nil, hmagic, if_true, hne]
      rw [restoreLoop_good (c := fun _ => s) rfl (fun _ _ => rfl), (apaJournalReset_eq _).2.2]
      refine List.mem_append_left _ (List.mem_append_right _ (List.mem_flatMap.mpr ⟨126, ?_, ?_⟩))
      · exact List.mem_range'_1.mpr ⟨Nat.zero_le _, by omega⟩
      · simp [copyEvents]
  · rintro hfew behind c fails rfl
    have hread : ∀ e ∈ [Event.read (α := Sector) [APA_SECTOR_APAL]], InBounds e := by
      intro e he
      rw [List.mem_singleton.mp he]
      simp [InBounds]
    unfold apaJournalRestore FaultyDisk.read
    cases hfirst : fails 0 with
    | true =>
      simp only [fresh, hfirst, if_true]
      exact inBounds_reset hread
    | false =>
      simp only [fresh, hfirst, Bool.false_eq_true, if_false, List.map_cons, List.map_nil]
      split
      · rename_i hmagic
        split
        · exact hread
        · exact inBounds_reset (inBounds_restoreLoop hread (by have := hfew hmagic; omega))
      · exact inBounds_reset hread

end HddChecker.Apa.Commands
