import HddChecker.Pfs.Journal

/-!
# Power loss during a metadata flush

`pfsCacheFlushAllDirty` as a transaction of a log with a torn index, and what `pfsJournalRestore` makes of the content a power loss leaves. The index is guarded by a checksum over all of its words but the first two; a torn index passes it only by a collision.
-/

namespace HddChecker.Pfs.Journal

open HddChecker WriteBack

variable {m : pfs_mount_t} {d : Drive}

/-! ### The operations of a flush -/

theorem mem_writesAt {sub sector : Nat} {data : List Sector} {p : Nat × Sector} :
    p ∈ writesAt sub sector data ↔
      ∃ k, ∃ h : k < data.length, p = (place sub (sector + k), data[k]) := by
  induction data generalizing sector with
  | nil => simp [writesAt]
  | cons s data ih =>
    rw [writesAt, List.mem_cons, ih]
    constructor
    · rintro (rfl | ⟨k, hk, rfl⟩)
      · exact ⟨0, by simp, rfl⟩
      · exact ⟨k + 1, by simpa using hk, by simp [Nat.add_assoc, Nat.add_comm 1 k]⟩
    · rintro ⟨k, hk, rfl⟩
      cases k with
      | zero => exact .inl rfl
      | succ k =>
        exact .inr ⟨k, by simpa using hk, by simp [Nat.add_assoc, Nat.add_comm 1 k]⟩

theorem place_inj {sub sub' sector sector' : Nat} :
    place sub sector = place sub' sector' ↔ sub = sub' ∧ sector = sector' := Nat.pair_eq_pair

theorem write_of_good (hgood : ∀ a, d.fails a = false) (sub sector : Nat) (data : List Sector) :
    d.write sub sector data = (0, { d with
      disk := applyWrites (writesAt sub sector data) d.disk
      ops := d.ops ++ (writesAt sub sector data).map fun w => .write w.1 w.2 }) := by
  simp [Drive.write, hgood]

/-- The dirty buffers of the mount with their numbers, the first buffer being number `i`. -/
def dirtySlots (m : pfs_mount_t) : Nat → List pfs_cache_t → List (Nat × pfs_cache_t)
  | _, [] => []
  | i, clink :: rest =>
    if clink.isDirty m then (i, clink.sealed) :: dirtySlots m (i + 1) rest
    else dirtySlots m (i + 1) rest

/-- The buffers after their checksums are set. -/
def sealedCache (m : pfs_mount_t) (cache : List pfs_cache_t) : List pfs_cache_t :=
  cache.map fun clink => if clink.isDirty m then clink.sealed else clink

/-- The journal with an entry for each of the buffers `L`. -/
def journalIndex (j : pfs_journal_t) (L : List (Nat × pfs_cache_t)) : pfs_journal_t :=
  L.foldl (fun j s => j.push ⟨s.2.sector, s.2.sub, 2 + 2 * s.1⟩) j

/-- The in-place writes of a buffer. -/
def blockWrites (clink : pfs_cache_t) : List (Nat × Sector) :=
  writesAt clink.sub clink.sector [clink.data.1, clink.data.2]

/-- The in-place writes of the buffers `L`. -/
def homeWrites (L : List (Nat × pfs_cache_t)) : List (Nat × Sector) :=
  L.flatMap fun s => blockWrites s.2

/-- The sectors of the buffers, one behind the other. -/
def cacheSectors (cache : List pfs_cache_t) : List Sector :=
  cache.flatMap fun clink => [clink.data.1, clink.data.2]

private theorem journalLoop_eq (i : Nat) (cache : List pfs_cache_t) (j : pfs_journal_t) :
    journalLoop m i cache j = (sealedCache m cache, journalIndex j (dirtySlots m i cache)) := by
  induction cache generalizing i j with
  | nil => rfl
  | cons clink rest ih =>
    rw [journalLoop]
    split
    · rename_i hdirty
      simp only [ih, sealedCache, dirtySlots, hdirty, List.map_cons, if_true]
      rfl
    · rename_i hdirty
      simp only [ih, sealedCache, dirtySlots, hdirty, List.map_cons]
      rfl

theorem mem_blockWrites {clink : pfs_cache_t} {p : Nat × Sector} :
    p ∈ blockWrites clink ↔ p = (place clink.sub clink.sector, clink.data.1) ∨
      p = (place clink.sub (clink.sector + 1), clink.data.2) := by
  simp [blockWrites, writesAt]

theorem mem_dirtySlots {i : Nat} {cache : List pfs_cache_t} {s : Nat × pfs_cache_t}
    (hs : s ∈ dirtySlots m i cache) : i ≤ s.1 ∧ s.1 < i + cache.length ∧
      ∃ clink ∈ cache, clink.isDirty m = true ∧ s.2 = clink.sealed := by
  induction cache generalizing i with
  | nil => cases hs
  | cons clink rest ih =>
    rw [List.length_cons]
    rw [dirtySlots] at hs
    split at hs
    · rename_i hdirty
      rcases List.mem_cons.mp hs with rfl | hs
      · exact ⟨le_refl i, by simp only; omega, clink, List.mem_cons_self, hdirty, rfl⟩
      · obtain ⟨hlo, hhi, x, hx, hrest⟩ := ih hs
        exact ⟨by omega, by omega, x, List.mem_cons_of_mem _ hx, hrest⟩
    · obtain ⟨hlo, hhi, x, hx, hrest⟩ := ih hs
      exact ⟨by omega, by omega, x, List.mem_cons_of_mem _ hx, hrest⟩

theorem exists_dirtySlots {cache : List pfs_cache_t} (i : Nat) {clink : pfs_cache_t}
    (hmem : clink ∈ cache) (hdirty : clink.isDirty m = true) :
    ∃ n, (n, clink.sealed) ∈ dirtySlots m i cache := by
  induction cache generalizing i with
  | nil => cases hmem
  | cons x rest ih =>
    rw [dirtySlots]
    rcases List.mem_cons.mp hmem with rfl | hmem
    · rw [if_pos hdirty]
      exact ⟨i, List.mem_cons_self⟩
    · obtain ⟨n, hn⟩ := ih (i + 1) hmem
      split
      · exact ⟨n, List.mem_cons_of_mem _ hn⟩
      · exact ⟨n, hn⟩

/-- The copy of a dirty buffer lies in the log at twice its number. -/
private theorem slot_copy {i start : Nat} {cache : List pfs_cache_t} {s : Nat × pfs_cache_t}
    (hs : s ∈ dirtySlots m i cache) :
    (place 0 (start + 2 * (s.1 - i)), s.2.data.1) ∈
        writesAt 0 start (cacheSectors (sealedCache m cache)) ∧
      (place 0 (start + 2 * (s.1 - i) + 1), s.2.data.2) ∈
        writesAt 0 start (cacheSectors (sealedCache m cache)) := by
  induction cache generalizing i start with
  | nil => cases hs
  | cons clink rest ih =>
    have hshift : cacheSectors (sealedCache m (clink :: rest)) =
        (if clink.isDirty m then clink.sealed else clink).data.1 ::
          (if clink.isDirty m then clink.sealed else clink).data.2 ::
            cacheSectors (sealedCache m rest) := rfl
    rw [hshift, writesAt, writesAt]
    rw [dirtySlots] at hs
    have hrest : s ∈ dirtySlots m (i + 1) rest →
        (place 0 (start + 2 * (s.1 - i)), s.2.data.1) ∈
            writesAt 0 (start + 1 + 1) (cacheSectors (sealedCache m rest)) ∧
          (place 0 (start + 2 * (s.1 - i) + 1), s.2.data.2) ∈
            writesAt 0 (start + 1 + 1) (cacheSectors (sealedCache m rest)) := by
      intro hs
      have hlo := (mem_dirtySlots hs).1
      have hcopy := @ih (i + 1) (start + 1 + 1) hs
      rwa [show start + 1 + 1 + 2 * (s.1 - (i + 1)) = start + 2 * (s.1 - i) by omega] at hcopy
    split at hs
    · rename_i hdirty
      rcases List.mem_cons.mp hs with rfl | hs
      · simp [hdirty]
      · exact ⟨List.mem_cons_of_mem _ (List.mem_cons_of_mem _ (hrest hs).1),
          List.mem_cons_of_mem _ (List.mem_cons_of_mem _ (hrest hs).2)⟩
    · exact ⟨List.mem_cons_of_mem _ (List.mem_cons_of_mem _ (hrest hs).1),
        List.mem_cons_of_mem _ (List.mem_cons_of_mem _ (hrest hs).2)⟩

/-- The second loop writes the dirty buffers in place. -/
private theorem transferLoop_eq {i : Nat} {cache : List pfs_cache_t} (hgood : ∀ a, d.fails a = false)
    (herror : d.lastError = 0) :
    (transferLoop m (sealedCache m cache) d).2 = { d with
      disk := applyWrites (homeWrites (dirtySlots m i cache)) d.disk
      ops := d.ops ++ (homeWrites (dirtySlots m i cache)).map fun w => .write w.1 w.2 } := by
  induction cache generalizing i d with
  | nil => simp [sealedCache, transferLoop, dirtySlots, homeWrites]
  | cons clink rest ih =>
    have hcons : sealedCache m (clink :: rest) =
        (if clink.isDirty m then clink.sealed else clink) :: sealedCache m rest := rfl
    rw [hcons, transferLoop, dirtySlots]
    by_cases hdirty : clink.isDirty m = true
    · have hstep : (pfsCacheTransfer clink.sealed d).2 = { d with
          disk := applyWrites (blockWrites clink.sealed) d.disk
          ops := d.ops ++ (blockWrites clink.sealed).map fun w => .write w.1 w.2 } := by
        simp only [pfsCacheTransfer, herror, write_of_good hgood, if_true, ne_eq, not_true_eq_false,
          decide_false, Bool.false_and, Bool.false_eq_true, if_false]
        rfl
      simp only [hdirty, if_true, sealed_isDirty, hstep]
      rw [ih (i := i + 1) (by simpa using hgood) (by simpa using herror)]
      simp [homeWrites, applyWrites_append, List.append_assoc]
    · simp only [hdirty, if_false, Bool.false_eq_true]
      rw [ih (i := i + 1) hgood herror]

/-! ### The index -/

/-- The index gives the buffers `L`, the first of them as entry `n`. -/
def Records (j : pfs_journal_t) : Nat → List (Nat × pfs_cache_t) → Prop
  | _, [] => True
  | n, s :: L => (∃ h : n < 127, j.log ⟨n, h⟩ = ⟨s.2.sector, s.2.sub, 2 + 2 * s.1⟩) ∧
      Records j (n + 1) L

@[simp] theorem journalIndex_cons (j : pfs_journal_t) (s : Nat × pfs_cache_t)
    (L : List (Nat × pfs_cache_t)) :
    journalIndex j (s :: L) = journalIndex (j.push ⟨s.2.sector, s.2.sub, 2 + 2 * s.1⟩) L := rfl

theorem journalIndex_num (j : pfs_journal_t) (L : List (Nat × pfs_cache_t)) :
    (journalIndex j L).num = j.num + L.length := by
  induction L generalizing j with
  | nil => rfl
  | cons s L ih =>
    rw [journalIndex_cons, ih, List.length_cons]
    simp only [pfs_journal_t.push]
    omega

theorem journalIndex_magic (j : pfs_journal_t) (L : List (Nat × pfs_cache_t)) :
    (journalIndex j L).magic = j.magic := by
  induction L generalizing j with
  | nil => rfl
  | cons s L ih =>
    rw [journalIndex_cons, ih]
    rfl

private theorem journalIndex_log_of_lt {j : pfs_journal_t} {L : List (Nat × pfs_cache_t)} {i : Fin 127}
    (hi : i.val < j.num) : (journalIndex j L).log i = j.log i := by
  induction L generalizing j with
  | nil => rfl
  | cons s L ih =>
    have hne : ¬ i.val = j.num := by omega
    have hpush : i.val < (j.push ⟨s.2.sector, s.2.sub, 2 + 2 * s.1⟩).num := by
      simp only [pfs_journal_t.push]
      omega
    rw [journalIndex_cons, ih hpush]
    simp [pfs_journal_t.push, hne]

theorem records_journalIndex {j : pfs_journal_t} {L : List (Nat × pfs_cache_t)} {n : Nat}
    (hnum : j.num = n) (hfew : n + L.length ≤ 127) : Records (journalIndex j L) n L := by
  induction L generalizing j n with
  | nil => trivial
  | cons s L ih =>
    rw [List.length_cons] at hfew
    have hpush : (j.push ⟨s.2.sector, s.2.sub, 2 + 2 * s.1⟩).num = n + 1 := by
      simp [pfs_journal_t.push, hnum]
    refine ⟨⟨by omega, ?_⟩, ih hpush (by omega)⟩
    rw [journalIndex_cons, journalIndex_log_of_lt (by rw [hpush]; simp only; omega)]
    simp [pfs_journal_t.push, hnum]

private theorem records_checksum {j : pfs_journal_t} {checksum n : Nat} {L : List (Nat × pfs_cache_t)}
    (h : Records j n L) : Records { j with checksum := checksum } n L := by
  induction L generalizing n with
  | nil => trivial
  | cons s L ih => exact ⟨h.1, ih h.2⟩

/-- Each entry of the index is one of the journal it was made from or that of a buffer. -/
private theorem journalIndex_sub (j : pfs_journal_t) (L : List (Nat × pfs_cache_t)) (i : Fin 127) :
    ((journalIndex j L).log i).sub = (j.log i).sub ∨
      ∃ s ∈ L, ((journalIndex j L).log i).sub = s.2.sub := by
  induction L generalizing j with
  | nil => exact .inl rfl
  | cons s L ih =>
    rw [journalIndex_cons]
    rcases ih (j.push ⟨s.2.sector, s.2.sub, 2 + 2 * s.1⟩) with heq | ⟨s', hs', heq⟩
    · rw [heq]
      simp only [pfs_journal_t.push]
      split
      · exact .inr ⟨s, List.mem_cons_self, rfl⟩
      · exact .inl rfl
    · exact .inr ⟨s', List.mem_cons_of_mem _ hs', heq⟩

theorem dirtySlots_length (i : Nat) (cache : List pfs_cache_t) :
    (dirtySlots m i cache).length ≤ cache.length := by
  induction cache generalizing i with
  | nil => exact le_refl _
  | cons clink rest ih =>
    have hrest := ih (i + 1)
    rw [dirtySlots, List.length_cons]
    split
    · rw [List.length_cons]
      omega
    · omega

/-- The index a flush writes: that of the dirty buffers, with its checksum. -/
def indexOf (m : pfs_mount_t) (d : Drive) : pfs_journal_t :=
  let j := journalIndex d.pfsJournalBuf (dirtySlots m 0 d.pfsCacheBuf)
  { j with checksum := pfsJournalChecksum j.toBlock }

/-! ### The log of a mount -/

/-- The tests by which `pfsJournalRestore` carries nothing out. -/
def IdleIndex (a b : Sector) : Prop :=
  (pfs_journal_t.ofBlock (a, b)).magic ≠ PFS_JOUNRNAL_MAGIC ∨
    (pfs_journal_t.ofBlock (a, b)).checksum ≠ pfsJournalChecksum (a, b) ∨
    (pfs_journal_t.ofBlock (a, b)).num = 0

/-- The log of a mount with `n` buffers. -/
def pfsLog (m : pfs_mount_t) (n : Nat) : SplitLog Sector where
  first := place 0 m.logStart
  second := place 0 (m.logStart + 1)
  area := fun a => ∃ s, m.logStart + 2 ≤ s ∧ s < m.logStart + 2 + 2 * n ∧ a = place 0 s
  idle := IdleIndex
  apart := fun h => by
    have := (place_inj.mp h).2
    omega
  first_not_area := by
    rintro ⟨s, hlo, hhi, h⟩
    have := (place_inj.mp h).2
    omega
  second_not_area := by
    rintro ⟨s, hlo, hhi, h⟩
    have := (place_inj.mp h).2
    omega

/-- A block keeps clear of the log area, and its place fits the fields of an entry. -/
structure Placed (m : pfs_mount_t) (clink : pfs_cache_t) : Prop where
  sub : clink.sub < 2 ^ 16
  block : clink.block < 2 ^ 31
  clear : clink.sub = 0 → clink.block * 2 + 2 ≤ m.logStart ∨ m.logStart + 256 ≤ clink.block * 2

/-- What a flush relies on: no failing transfer, a cleared journal, buffers that fit the log, one buffer for each dirty block, and no collision of the checksum of the index. -/
structure Flushable (m : pfs_mount_t) (d : Drive) : Prop where
  good : ∀ a, d.fails a = false
  noError : d.lastError = 0
  journal : d.pfsJournalBuf = .reset
  first : d.disk (place 0 m.logStart) = pfs_journal_t.reset.toBlock.1
  second : d.disk (place 0 (m.logStart + 1)) = pfs_journal_t.reset.toBlock.2
  few : d.pfsCacheBuf.length ≤ 127
  logEnd : m.logStart + 256 ≤ 2 ^ 32
  placed : ∀ clink ∈ d.pfsCacheBuf, clink.isDirty m = true → Placed m clink
  keyed : ∀ a ∈ d.pfsCacheBuf, ∀ b ∈ d.pfsCacheBuf, a.isDirty m = true → b.isDirty m = true →
    a.sub = b.sub → a.block = b.block → a = b
  noCollision : pfsJournalChecksum ((indexOf m d).toBlock.1, pfs_journal_t.reset.toBlock.2) =
      pfsJournalChecksum (indexOf m d).toBlock →
    (indexOf m d).toBlock.2 = pfs_journal_t.reset.toBlock.2

theorem Placed.sector {clink : pfs_cache_t} (h : Placed m clink) : clink.sector = clink.block * 2 := by
  have := h.block
  rw [pfs_cache_t.sector, u32]
  omega

private theorem cacheSectors_length (cache : List pfs_cache_t) :
    (cacheSectors cache).length = 2 * cache.length := by
  induction cache with
  | nil => rfl
  | cons clink rest ih =>
    have hcons : cacheSectors (clink :: rest) =
        clink.data.1 :: clink.data.2 :: cacheSectors rest := rfl
    rw [hcons, List.length_cons, List.length_cons, ih, List.length_cons]
    omega

theorem idle_reset_first (b : Sector) : IdleIndex pfs_journal_t.reset.toBlock.1 b := .inr (.inr rfl)

namespace Flushable

theorem slot (h : Flushable m d) {s : Nat × pfs_cache_t} (hs : s ∈ dirtySlots m 0 d.pfsCacheBuf) :
    s.1 < 127 ∧ ∃ clink ∈ d.pfsCacheBuf, clink.isDirty m = true ∧ s.2 = clink.sealed ∧
      Placed m clink := by
  have hfew := h.few
  obtain ⟨-, hlt, clink, hmem, hdirty, heq⟩ := mem_dirtySlots hs
  exact ⟨by omega, clink, hmem, hdirty, heq, h.placed clink hmem hdirty⟩

theorem home_place (h : Flushable m d) {w : Nat × Sector}
    (hw : w ∈ homeWrites (dirtySlots m 0 d.pfsCacheBuf)) :
    ∃ clink ∈ d.pfsCacheBuf, clink.isDirty m = true ∧ Placed m clink ∧
      (w = (place clink.sub (clink.block * 2), clink.sealed.data.1) ∨
        w = (place clink.sub (clink.block * 2 + 1), clink.sealed.data.2)) := by
  obtain ⟨s, hs, hw⟩ := List.mem_flatMap.mp hw
  obtain ⟨-, clink, hmem, hdirty, heq, hplaced⟩ := h.slot hs
  refine ⟨clink, hmem, hdirty, hplaced, ?_⟩
  rw [heq, mem_blockWrites, sealed_sub, sealed_sector, hplaced.sector] at hw
  exact hw

theorem mem_home {clink : pfs_cache_t} (h : Flushable m d) (hmem : clink ∈ d.pfsCacheBuf)
    (hdirty : clink.isDirty m = true) :
    (place clink.sub (clink.block * 2), clink.sealed.data.1) ∈
        homeWrites (dirtySlots m 0 d.pfsCacheBuf) ∧
      (place clink.sub (clink.block * 2 + 1), clink.sealed.data.2) ∈
        homeWrites (dirtySlots m 0 d.pfsCacheBuf) := by
  obtain ⟨n, hn⟩ := exists_dirtySlots 0 hmem hdirty
  have hsector := (h.placed clink hmem hdirty).sector
  refine ⟨List.mem_flatMap.mpr ⟨_, hn, ?_⟩, List.mem_flatMap.mpr ⟨_, hn, ?_⟩⟩
  · rw [mem_blockWrites, sealed_sub, sealed_sector, hsector]
    exact .inl rfl
  · rw [mem_blockWrites, sealed_sub, sealed_sector, hsector]
    exact .inr rfl

theorem home_unique (h : Flushable m d) {a : Nat} {x y : Sector}
    (hx : (a, x) ∈ homeWrites (dirtySlots m 0 d.pfsCacheBuf))
    (hy : (a, y) ∈ homeWrites (dirtySlots m 0 d.pfsCacheBuf)) : y = x := by
  obtain ⟨b, hb, hbdirty, -, hbx⟩ := h.home_place hx
  obtain ⟨b', hb', hbdirty', -, hby⟩ := h.home_place hy
  have hsame : b.sub = b'.sub → b.block = b'.block → b = b' := h.keyed b hb b' hb' hbdirty hbdirty'
  simp only [Prod.mk.injEq] at hbx hby
  rcases hbx with ⟨rfl, rfl⟩ | ⟨rfl, rfl⟩ <;> rcases hby with ⟨hplace, rfl⟩ | ⟨hplace, rfl⟩
  · obtain ⟨hsub, hsector⟩ := place_inj.mp hplace
    rw [hsame hsub (by omega)]
  · have := (place_inj.mp hplace).2
    omega
  · have := (place_inj.mp hplace).2
    omega
  · obtain ⟨hsub, hsector⟩ := place_inj.mp hplace
    rw [hsame hsub (by omega)]

/-- In the main partition the blocks lie before the log or behind it. -/
theorem home_apart (h : Flushable m d) {w : Nat × Sector}
    (hw : w ∈ homeWrites (dirtySlots m 0 d.pfsCacheBuf)) {k : Nat} (hlo : m.logStart ≤ k)
    (hhi : k < m.logStart + 256) : w.1 ≠ place 0 k := by
  obtain ⟨clink, -, -, hplaced, hw⟩ := h.home_place hw
  have hclear := hplaced.clear
  intro heq
  rcases hw with rfl | rfl
  · obtain ⟨hsub, hsector⟩ := place_inj.mp heq
    have := hclear hsub
    omega
  · obtain ⟨hsub, hsector⟩ := place_inj.mp heq
    have := hclear hsub
    omega

theorem home_outside (h : Flushable m d) {w : Nat × Sector}
    (hw : w ∈ homeWrites (dirtySlots m 0 d.pfsCacheBuf)) :
    (pfsLog m d.pfsCacheBuf.length).Outside w.1 := by
  have hfew := h.few
  refine ⟨?_, h.home_apart hw (k := m.logStart) (by omega) (by omega),
    h.home_apart hw (k := m.logStart + 1) (by omega) (by omega)⟩
  rintro ⟨s, hlo, hhi, heq⟩
  exact h.home_apart hw (by omega) (by omega) heq

theorem indexOf_num (h : Flushable m d) :
    (indexOf m d).num = (dirtySlots m 0 d.pfsCacheBuf).length := by
  have hnum := journalIndex_num d.pfsJournalBuf (dirtySlots m 0 d.pfsCacheBuf)
  rw [show d.pfsJournalBuf.num = 0 by rw [h.journal]; rfl, Nat.zero_add] at hnum
  exact hnum

private theorem indexOf_sub (h : Flushable m d) (i : Fin 127) : ((indexOf m d).log i).sub < 2 ^ 16 := by
  have hsub := journalIndex_sub d.pfsJournalBuf (dirtySlots m 0 d.pfsCacheBuf) i
  have hlog : (indexOf m d).log i =
      (journalIndex d.pfsJournalBuf (dirtySlots m 0 d.pfsCacheBuf)).log i := rfl
  rw [hlog]
  rcases hsub with heq | ⟨s, hs, heq⟩
  · rw [heq, h.journal]
    exact Nat.two_pow_pos 16
  · obtain ⟨-, clink, -, -, hsealed, hplaced⟩ := h.slot hs
    rw [heq, hsealed, sealed_sub]
    exact hplaced.sub

theorem indexOf_fields (h : Flushable m d) :
    pfs_journal_t.ofBlock (indexOf m d).toBlock = indexOf m d := by
  have hlength := dirtySlots_length (m := m) 0 d.pfsCacheBuf
  have hfew := h.few
  have hnum := h.indexOf_num
  exact ofBlock_toBlock (by omega) fun i => h.indexOf_sub i

theorem indexOf_checksum (m : pfs_mount_t) (d : Drive) :
    (indexOf m d).checksum = pfsJournalChecksum (indexOf m d).toBlock :=
  (pfsJournalChecksum_checksum _ _).symm

/-- A flush as a transaction of the log. -/
def transaction (h : Flushable m d) : (pfsLog m d.pfsCacheBuf.length).Transaction where
  copies := writesAt 0 (m.logStart + 2) (cacheSectors (sealedCache m d.pfsCacheBuf))
  full := (indexOf m d).toBlock
  empty := pfs_journal_t.reset.toBlock
  home := homeWrites (dirtySlots m 0 d.pfsCacheBuf)
  copies_area := by
    intro w hw
    obtain ⟨k, hk, rfl⟩ := mem_writesAt.mp hw
    rw [cacheSectors_length, sealedCache, List.length_map] at hk
    exact ⟨m.logStart + 2 + k, by omega, by omega, rfl⟩
  copies_unique := by
    intro a x y hx hy
    obtain ⟨k, hk, hxk⟩ := mem_writesAt.mp hx
    obtain ⟨l, hl, hyl⟩ := mem_writesAt.mp hy
    rw [Prod.mk.injEq] at hxk hyl
    have hsector := (place_inj.mp (hxk.1.symm.trans hyl.1)).2
    have hkl : k = l := by omega
    subst hkl
    rw [hxk.2, hyl.2]
  empty_idle := idle_reset_first _
  torn_first := idle_reset_first _
  torn_second := by
    by_cases hidle : IdleIndex (indexOf m d).toBlock.1 pfs_journal_t.reset.toBlock.2
    · exact .inl hidle
    · refine .inr (h.noCollision ?_)
      simp only [IdleIndex, not_or, not_not] at hidle
      -- the checksum lies in the first sector
      have hfield : (pfs_journal_t.ofBlock ((indexOf m d).toBlock.1,
          pfs_journal_t.reset.toBlock.2)).checksum = (indexOf m d).checksum :=
        congrArg (·.checksum) h.indexOf_fields
      rw [← hidle.2.1, hfield, indexOf_checksum]
  home_outside := fun _ hw => h.home_outside hw

end Flushable

private theorem pfsJournalFlush_of_good (hgood : ∀ a, d.fails a = false) (j : pfs_journal_t)
    (hj : j = { d.pfsJournalBuf with checksum := pfsJournalChecksum d.pfsJournalBuf.toBlock }) :
    (pfsJournalFlush m d).2 = { d with
      disk := applyWrites (writesAt 0 m.logStart [j.toBlock.1, j.toBlock.2]) d.disk
      ops := d.ops ++ [.flush, .write (place 0 m.logStart) j.toBlock.1,
        .write (place 0 (m.logStart + 1)) j.toBlock.2, .flush]
      pfsJournalBuf := j } := by
  subst hj
  simp only [pfsJournalFlush, Drive.flushCache]
  rw [write_of_good (by simpa using hgood)]
  simp [writesAt]

theorem pfsJournalReset_of_good (hgood : ∀ a, d.fails a = false) :
    (pfsJournalReset m d).2.ops = d.ops ++
      [.flush, .write (place 0 m.logStart) pfs_journal_t.reset.toBlock.1,
        .write (place 0 (m.logStart + 1)) pfs_journal_t.reset.toBlock.2, .flush] := by
  simp only [pfsJournalReset, Drive.flushCache]
  rw [write_of_good (by simpa using hgood)]
  simp [writesAt]

namespace Flushable

/-- The operations a flush issues. -/
private theorem flush_ops (h : Flushable m d) (hsome : d.pfsCacheBuf.any (·.isDirty m) = true) :
    (pfsCacheFlushAllDirty m d).ops = d.ops ++ h.transaction.commit := by
  have hend := h.logEnd
  have hstart : u32 (m.logStart + 2) = m.logStart + 2 := by
    rw [u32]
    omega
  obtain ⟨hfails, herror, hcache, hops⟩ :
      (pfsJournalWrite m d).fails = d.fails ∧ (pfsJournalWrite m d).lastError = d.lastError ∧
      (pfsJournalWrite m d).pfsCacheBuf = sealedCache m d.pfsCacheBuf ∧
      (pfsJournalWrite m d).ops = d.ops ++ ((h.transaction.copies.map fun w => .write w.1 w.2) ++
        (pfsLog m d.pfsCacheBuf.length).writeIndex h.transaction.full) := by
    simp only [pfsJournalWrite, journalLoop_eq, hstart]
    rw [write_of_good (by simpa using h.good)]
    simp only [le_refl, if_true]
    rw [pfsJournalFlush_of_good (by simpa using h.good) (indexOf m d) rfl]
    simp [transaction, SplitLog.writeIndex, pfsLog, cacheSectors]
  have hgood : ∀ a, (pfsJournalWrite m d).fails a = false := by
    rw [hfails]
    exact h.good
  rw [pfsCacheFlushAllDirty, if_pos hsome]
  simp only [hcache]
  have hloop := @transferLoop_eq m _ 0 d.pfsCacheBuf hgood
    (herror.trans h.noError)
  rw [pfsJournalReset_of_good (by rw [hloop]; exact hgood), hloop, hops]
  simp [transaction, SplitLog.Transaction.commit, SplitLog.Transaction.carryOut,
    SplitLog.writeIndex, pfsLog]

end Flushable

/-! ### The restore -/

/-- A drive as the driver finds it when a filesystem is mounted. -/
def boot (disk : Nat → Sector) : Drive where
  disk := disk
  fails := fun _ => false
  errorStat := false
  ops := []
  pfsCacheBuf := []
  pfsJournalBuf := .reset
  lastError := 0

/-- The operations of `pfsJournalRestore` on a content. -/
def restoreOps (m : pfs_mount_t) (c : Nat → Sector) : List (DiskOp Sector) :=
  (pfsJournalRestore m (boot c)).2.ops

/-- `pfsJournalRestore` runs on the content `c` until it completes, cut short by power losses any number of times, and `e` is what it leaves. -/
inductive Restored (m : pfs_mount_t) : (Nat → Sector) → (Nat → Sector) → Prop
  | complete {c e} (h : ((WriteBack.mk c []).run (restoreOps m c)).Loses e) : Restored m c e
  | interrupted {c e f} (n : Nat) (h : ((WriteBack.mk c []).run ((restoreOps m c).take n)).Loses e)
      (hagain : Restored m e f) : Restored m c f

theorem readBlock_of_good (hgood : ∀ a, d.fails a = false) (sub sector : Nat) :
    d.readBlock sub sector = some (d.disk (place sub sector), d.disk (place sub (sector + 1))) := by
  simp [Drive.readBlock, hgood]

theorem restoreOps_idle {c : Nat → Sector} (n : Nat)
    (hidle : IdleIndex (c (place 0 m.logStart)) (c (place 0 (m.logStart + 1)))) :
    restoreOps m c = (pfsLog m n).writeIndex pfs_journal_t.reset.toBlock := by
  have hgood : ∀ a, (boot c).fails a = false := fun _ => rfl
  rw [restoreOps, pfsJournalRestore, readBlock_of_good hgood]
  simp only
  split
  · rw [pfsJournalReset_of_good (fun _ => rfl)]
    rfl
  · rename_i hvalid
    split
    · rw [pfsJournalReset_of_good (fun _ => rfl)]
      rfl
    · rename_i hnum
      rw [not_or, not_not, not_not] at hvalid
      rcases hidle with hmagic | hchecksum | hzero
      · exact (hmagic hvalid.1).elim
      · exact (hchecksum hvalid.2).elim
      · exact (hnum hzero).elim

theorem restoreLoop_eq {L : List (Nat × pfs_cache_t)} {n : Nat} (hgood : ∀ a, d.fails a = false)
    (hend : m.logStart + 256 ≤ 2 ^ 32) (hslots : ∀ s ∈ L, s.1 < 127)
    (hcopies : ∀ s ∈ L, d.disk (place 0 (m.logStart + 2 + 2 * s.1)) = s.2.data.1 ∧
      d.disk (place 0 (m.logStart + 2 + 2 * s.1 + 1)) = s.2.data.2)
    (hindex : Records d.pfsJournalBuf n L)
    (hhome : ∀ w ∈ homeWrites L, ∀ k, m.logStart ≤ k → k < m.logStart + 256 → w.1 ≠ place 0 k) :
    restoreLoop m L.length n d = { d with
      disk := applyWrites (homeWrites L) d.disk
      ops := d.ops ++ (homeWrites L).map fun w => .write w.1 w.2 } := by
  induction L generalizing n d with
  | nil => simp [restoreLoop, homeWrites]
  | cons s L ih =>
    obtain ⟨⟨hn, hentry⟩, hindex⟩ := hindex
    have hs := hslots s List.mem_cons_self
    have hsector : u32 (m.logStart + (2 + 2 * s.1)) = m.logStart + 2 + 2 * s.1 := by
      rw [u32]
      omega
    have hcopy := hcopies s List.mem_cons_self
    have hwrites : homeWrites (s :: L) = blockWrites s.2 ++ homeWrites L := rfl
    rw [hwrites] at hhome
    have hkeep : ∀ s' ∈ L,
        applyWrites (blockWrites s.2) d.disk (place 0 (m.logStart + 2 + 2 * s'.1)) = s'.2.data.1 ∧
        applyWrites (blockWrites s.2) d.disk (place 0 (m.logStart + 2 + 2 * s'.1 + 1)) = s'.2.data.2 := by
      intro s' hs'
      have hlt := hslots s' (List.mem_cons_of_mem _ hs')
      have hcopy' := hcopies s' (List.mem_cons_of_mem _ hs')
      refine ⟨?_, ?_⟩
      · rw [applyWrites_of_not_mem fun w hw => hhome w (List.mem_append_left _ hw) _ (by omega) (by omega)]
        exact hcopy'.1
      · rw [applyWrites_of_not_mem fun w hw => hhome w (List.mem_append_left _ hw) _ (by omega) (by omega)]
        exact hcopy'.2
    rw [List.length_cons, restoreLoop, dif_pos hn, hentry]
    simp only [hsector, readBlock_of_good hgood, hcopy.1, hcopy.2, write_of_good hgood]
    have hrest := ih (n := n + 1) (d := { d with
      disk := applyWrites (blockWrites s.2) d.disk
      ops := d.ops ++ (blockWrites s.2).map fun w => .write w.1 w.2 }) hgood
      (fun s' hs' => hslots s' (List.mem_cons_of_mem _ hs')) hkeep hindex
      fun w hw => hhome w (List.mem_append_right _ hw)
    have hblock : writesAt s.2.sub s.2.sector [s.2.data.1, s.2.data.2] = blockWrites s.2 := rfl
    rw [hblock, hrest, hwrites]
    simp [applyWrites_append, List.append_assoc]

namespace Flushable

variable {base c e : Nat → Sector}

theorem copied (h : Flushable m d) (hc : h.transaction.Logged base c) {s : Nat × pfs_cache_t}
    (hs : s ∈ dirtySlots m 0 d.pfsCacheBuf) :
    c (place 0 (m.logStart + 2 + 2 * s.1)) = s.2.data.1 ∧
      c (place 0 (m.logStart + 2 + 2 * s.1 + 1)) = s.2.data.2 := by
  obtain ⟨hfirst, hsecond⟩ := @slot_copy m 0 (m.logStart + 2) d.pfsCacheBuf s hs
  exact ⟨hc.copies _ hfirst, hc.copies _ hsecond⟩

/-- On a logged content the restore carries the transaction out. -/
theorem restoreOps_logged (h : Flushable m d) (hsome : d.pfsCacheBuf.any (·.isDirty m) = true)
    (hc : h.transaction.Logged base c) : restoreOps m c = h.transaction.carryOut := by
  have hgood : ∀ a, (boot c).fails a = false := fun _ => rfl
  have hfew := h.few
  have hlength := dirtySlots_length (m := m) 0 d.pfsCacheBuf
  have hread : (boot c).readBlock 0 m.logStart = some (indexOf m d).toBlock := by
    rw [readBlock_of_good hgood]
    exact congrArg some (Prod.ext hc.first hc.second)
  have hmagic : (indexOf m d).magic = PFS_JOUNRNAL_MAGIC := by
    have hmagic := journalIndex_magic d.pfsJournalBuf (dirtySlots m 0 d.pfsCacheBuf)
    rw [h.journal] at hmagic
    rw [indexOf, h.journal]
    exact hmagic
  have hnum : ¬ (indexOf m d).num = 0 := by
    rw [h.indexOf_num]
    obtain ⟨clink, hmem, hdirty⟩ := List.any_eq_true.mp hsome
    obtain ⟨n, hn⟩ := exists_dirtySlots 0 hmem hdirty
    have := List.length_pos_of_mem hn
    omega
  have hrecords : Records (indexOf m d) 0 (dirtySlots m 0 d.pfsCacheBuf) := by
    have hzero : d.pfsJournalBuf.num = 0 := by
      rw [h.journal]
      rfl
    exact records_checksum (records_journalIndex hzero (by omega))
  have hloop := restoreLoop_eq (m := m) (L := dirtySlots m 0 d.pfsCacheBuf) (n := 0)
    (d := { boot c with pfsJournalBuf := indexOf m d }) (fun _ => rfl) h.logEnd
    (fun s hs => (h.slot hs).1) (fun s hs => h.copied hc hs) hrecords fun w hw k hlo hhi => h.home_apart hw hlo hhi
  rw [restoreOps, pfsJournalRestore, hread]
  simp only [h.indexOf_fields]
  rw [if_neg (by rw [not_or, not_not, not_not]; exact ⟨hmagic, indexOf_checksum m d⟩), if_neg hnum,
    h.indexOf_num, hloop, pfsJournalReset_of_good (fun _ => rfl)]
  simp [transaction, SplitLog.Transaction.carryOut, SplitLog.writeIndex, pfsLog, boot]

theorem settled_of_settled (h : Flushable m d) (hc : h.transaction.Settled base c)
    (hrestored : Restored m c e) : h.transaction.Settled base e := by
  induction hrestored with
  | complete hloss =>
    rw [restoreOps_idle d.pfsCacheBuf.length hc.idle] at hloss
    exact (hc.clear h.transaction).loses hloss
  | interrupted n hloss hagain ih =>
    rw [restoreOps_idle d.pfsCacheBuf.length hc.idle] at hloss
    exact ih (hc.clear h.transaction n _ hloss)

/-- Once a transaction is logged, every restore brings its result. -/
private theorem settled_of_logged (h : Flushable m d) (hsome : d.pfsCacheBuf.any (·.isDirty m) = true)
    (hc : h.transaction.Logged base c) (hrestored : Restored m c e) :
    h.transaction.Settled (h.transaction.result base) e := by
  induction hrestored with
  | complete hloss =>
    rw [h.restoreOps_logged hsome hc] at hloss
    obtain ⟨f, hrun, hsettled⟩ := h.transaction.carryOut_run hc
    rw [hrun] at hloss
    rwa [loses_of_no_pending hloss]
  | interrupted n hloss hagain ih =>
    rw [h.restoreOps_logged hsome hc] at hloss
    rcases h.transaction.carryOut_always hc n _ hloss with hlogged | hsettled
    · exact ih hlogged
    · exact h.settled_of_settled hsettled hagain

theorem block_outside (h : Flushable m d) {clink : pfs_cache_t} (hmem : clink ∈ d.pfsCacheBuf)
    (hdirty : clink.isDirty m = true) :
    (pfsLog m d.pfsCacheBuf.length).Outside (place clink.sub (clink.block * 2)) ∧
      (pfsLog m d.pfsCacheBuf.length).Outside (place clink.sub (clink.block * 2 + 1)) :=
  ⟨h.home_outside (h.mem_home hmem hdirty).1, h.home_outside (h.mem_home hmem hdirty).2⟩

private theorem new_of_settled (h : Flushable m d)
    (he : h.transaction.Settled (h.transaction.result base) e) {clink : pfs_cache_t}
    (hmem : clink ∈ d.pfsCacheBuf) (hdirty : clink.isDirty m = true) :
    e (place clink.sub (clink.block * 2)) = clink.sealed.data.1 ∧
      e (place clink.sub (clink.block * 2 + 1)) = clink.sealed.data.2 := by
  obtain ⟨hfirst, hsecond⟩ := h.mem_home hmem hdirty
  obtain ⟨hout, hout'⟩ := h.block_outside hmem hdirty
  refine ⟨?_, ?_⟩
  · rw [he.same _ hout]
    exact applyWrites_of_mem hfirst fun y hy => h.home_unique hfirst hy
  · rw [he.same _ hout']
    exact applyWrites_of_mem hsecond fun y hy => h.home_unique hsecond hy

end Flushable

/-- An unflushed write that the flush finds touches neither the index nor a dirty block. -/
def Elsewhere (m : pfs_mount_t) (d : Drive) (a : Nat) : Prop :=
  a ≠ place 0 m.logStart ∧ a ≠ place 0 (m.logStart + 1) ∧
    ∀ clink ∈ d.pfsCacheBuf, clink.isDirty m = true →
      a ≠ place clink.sub (clink.block * 2) ∧ a ≠ place clink.sub (clink.block * 2 + 1)

/-- Whatever prefix of a flush is issued, whatever part of the unflushed writes the power takes with it and however often the restore is cut short, the dirty blocks are all old or all new, and the new inodes have their checksums. -/
theorem pfsCacheFlushAllDirty_atomic (h : Flushable m d) {w : WriteBack Sector}
    (hcontents : w.contents = d.disk) (hpending : ∀ p ∈ w.pending, Elsewhere m d p.1) {n : Nat}
    {c e : Nat → Sector}
    (hloss : (w.run (((pfsCacheFlushAllDirty m d).ops.drop d.ops.length).take n)).Loses c)
    (hrestored : Restored m c e) :
    (∀ clink ∈ d.pfsCacheBuf, clink.isDirty m = true →
      e (place clink.sub (clink.block * 2)) = d.disk (place clink.sub (clink.block * 2)) ∧
      e (place clink.sub (clink.block * 2 + 1)) = d.disk (place clink.sub (clink.block * 2 + 1))) ∨
    (∀ clink ∈ d.pfsCacheBuf, clink.isDirty m = true →
      e (place clink.sub (clink.block * 2)) = clink.sealed.data.1 ∧
      e (place clink.sub (clink.block * 2 + 1)) = clink.sealed.data.2 ∧
      (clink.isInode = true → word clink.sealed.data 0 = pfsInodeCheckSum clink.sealed.data)) := by
  by_cases hsome : d.pfsCacheBuf.any (·.isDirty m) = true
  swap
  · left
    intro clink hmem hdirty
    exact (hsome (List.any_eq_true.mpr ⟨clink, hmem, hdirty⟩)).elim
  rw [h.flush_ops hsome, List.drop_left] at hloss
  have hold : h.transaction.Settled w.contents e →
      ∀ clink ∈ d.pfsCacheBuf, clink.isDirty m = true →
        e (place clink.sub (clink.block * 2)) = d.disk (place clink.sub (clink.block * 2)) ∧
        e (place clink.sub (clink.block * 2 + 1)) = d.disk (place clink.sub (clink.block * 2 + 1)) := by
    intro hsettled clink hmem hdirty
    obtain ⟨hout, hout'⟩ := h.block_outside hmem hdirty
    rw [hsettled.same _ hout, hsettled.same _ hout', hcontents]
    exact ⟨rfl, rfl⟩
  have hnew : h.transaction.Settled (h.transaction.result w.contents) e →
      ∀ clink ∈ d.pfsCacheBuf, clink.isDirty m = true →
        e (place clink.sub (clink.block * 2)) = clink.sealed.data.1 ∧
        e (place clink.sub (clink.block * 2 + 1)) = clink.sealed.data.2 ∧
        (clink.isInode = true → word clink.sealed.data 0 = pfsInodeCheckSum clink.sealed.data) := by
    intro hsettled clink hmem hdirty
    obtain ⟨hfirst, hsecond⟩ := h.new_of_settled hsettled hmem hdirty
    exact ⟨hfirst, hsecond, pfsInodeCheckSum_sealed⟩
  have hempty : w.contents (place 0 m.logStart) = pfs_journal_t.reset.toBlock.1 := by
    rw [hcontents, h.first]
  have hempty' : w.contents (place 0 (m.logStart + 1)) = pfs_journal_t.reset.toBlock.2 := by
    rw [hcontents, h.second]
  rcases h.transaction.commit_always w hempty hempty' n c hloss with hmix | hsettled | hlogged | hsettled
  · -- nothing but the copies and the earlier writes has reached the disk
    left
    have hkeep : ∀ a, (∀ p ∈ w.pending, p.1 ≠ a) →
        ¬ (pfsLog m d.pfsCacheBuf.length).area a → c a = d.disk a := by
      intro a hnot harea
      rw [← hcontents, WriteBack.contents, applyWrites_of_not_mem hnot]
      refine (hmix a).resolve_right fun hmem => ?_
      rcases List.mem_append.mp hmem with hmem | hmem
      · exact hnot _ hmem rfl
      · exact harea (h.transaction.copies_area _ hmem)
    have hfirst := hkeep _ (fun p hp => (hpending p hp).1)
      (pfsLog m d.pfsCacheBuf.length).first_not_area
    have hsecond := hkeep _ (fun p hp => (hpending p hp).2.1)
      (pfsLog m d.pfsCacheBuf.length).second_not_area
    have hidle : IdleIndex (c (place 0 m.logStart)) (c (place 0 (m.logStart + 1))) := by
      rw [hfirst, h.first]
      exact idle_reset_first _
    have hsettled : h.transaction.Settled c c :=
      ⟨⟨.inr (hfirst.trans h.first), .inr (hsecond.trans h.second)⟩, hidle, fun _ _ => rfl⟩
    have hend := h.settled_of_settled hsettled hrestored
    intro clink hmem hdirty
    obtain ⟨hout, hout'⟩ := h.block_outside hmem hdirty
    rw [hend.same _ hout, hend.same _ hout',
      hkeep _ (fun p hp => ((hpending p hp).2.2 clink hmem hdirty).1) hout.1,
      hkeep _ (fun p hp => ((hpending p hp).2.2 clink hmem hdirty).2) hout'.1]
    exact ⟨rfl, rfl⟩
  · exact .inl (hold (h.settled_of_settled hsettled hrestored))
  · exact .inr (hnew (h.settled_of_logged hsome hlogged hrestored))
  · exact .inr (hnew (h.settled_of_settled hsettled hrestored))

/-! ### A drive with one dirty inode -/

/-- A mount whose log starts at sector 0x2050. -/
def smallMount : pfs_mount_t := ⟨0x80001000, 0x205, 4⟩

/-- The second of three buffers is a dirty inode. -/
def oneInode : Drive where
  disk := fun a => if a = place 0 smallMount.logStart then pfs_journal_t.reset.toBlock.1 else Sector.zero
  fails := fun _ => false
  errorStat := false
  ops := []
  pfsCacheBuf := [⟨0, 0, 0, 0, Sector.zero, Sector.zero⟩,
    ⟨PFS_CACHE_FLAG_DIRTY ||| PFS_CACHE_FLAG_SEGD, smallMount.self, 1, 7, fun i => i.val, Sector.zero⟩,
    ⟨PFS_CACHE_FLAG_SEGD, smallMount.self, 0, 0x1800, Sector.zero, Sector.zero⟩]
  pfsJournalBuf := .reset
  lastError := 0

private theorem oneInode_flushable : Flushable smallMount oneInode where
  good := fun _ => rfl
  noError := rfl
  journal := rfl
  first := by decide +kernel
  second := by decide +kernel
  few := by decide
  logEnd := by decide
  placed := by
    intro clink hmem hdirty
    have hlast : clink.sub = 1 ∧ clink.block = 7 := by
      revert clink
      decide +kernel
    exact ⟨by omega, by omega, fun h0 => by omega⟩
  keyed := by decide +kernel
  noCollision := fun _ => by decide +kernel

/-- The power goes after the second copy of the log is written, and the restore runs to its end. -/
theorem pfsCacheFlushAllDirty_atomic_oneInode :
    let c := ((WriteBack.mk oneInode.disk []).run
      (((pfsCacheFlushAllDirty smallMount oneInode).ops.drop 0).take 4)).contents
    let e := ((WriteBack.mk c []).run (restoreOps smallMount c)).contents
    (∀ clink ∈ oneInode.pfsCacheBuf, clink.isDirty smallMount = true →
      e (place clink.sub (clink.block * 2)) = oneInode.disk (place clink.sub (clink.block * 2)) ∧
      e (place clink.sub (clink.block * 2 + 1)) =
        oneInode.disk (place clink.sub (clink.block * 2 + 1))) ∨
    (∀ clink ∈ oneInode.pfsCacheBuf, clink.isDirty smallMount = true →
      e (place clink.sub (clink.block * 2)) = clink.sealed.data.1 ∧
      e (place clink.sub (clink.block * 2 + 1)) = clink.sealed.data.2 ∧
      (clink.isInode = true → word clink.sealed.data 0 = pfsInodeCheckSum clink.sealed.data)) :=
  pfsCacheFlushAllDirty_atomic (w := ⟨oneInode.disk, []⟩) (n := 4) oneInode_flushable rfl
    (fun _ hp => absurd hp List.not_mem_nil) (loses_contents _) (.complete (loses_contents _))

end HddChecker.Pfs.Journal
