import HddChecker.Hdsk.PowerCut

/-!
# Games on the move

The slice list of an HDLoader game, entry 0 for its main partition and entry `k` for its sub number `k - 1`, says where the data of each partition begin. It has to follow a partition that `SwapPartition` moves. For the main it does; for a sub the entry before the right one is rewritten.
-/

namespace HddChecker.Hdsk

open HddChecker Apa Apa.Device Prog State

variable {P : List ApaHeader} {dest x m : ApaHeader} {c c' : Content} {s : State}
  {g : Sector × Sector} {d d' e : Device}

/-- The `hdl_game_info_t` of a game whose main partition is at `main`. -/
def infoBlock (main : Nat) (c : Content) : Option (Sector × Sector) :=
  match c (main + 2056), c (main + 2057) with
  | some a, some b => some (a, b)
  | _, _ => none

/-- The word of `num_partitions` in a `hdl_game_info_t`. -/
def numPartitionsWord : Nat := 60

/-- A game of the table `P` with main partition `m` and the valid info block `g`: each of its partitions has an entry. -/
structure Game (P : List ApaHeader) (c : Content) (m : ApaHeader) (g : Sector × Sector) : Prop where
  mem : m ∈ used P
  main : m.isSub = false
  start : m.start ≠ 0
  type : m.type = APA_TYPE_HDLFS
  block : infoBlock m.start c = some g
  magic : getWord 0 g = HDL_INFO_MAGIC
  slices : getWord numPartitionsWord g = m.nsub + 1

/-- The place of partition `k` of the game of `m`: first the main, then its subs. -/
def partitionStart (m : ApaHeader) : Nat → Nat
  | 0 => m.start
  | k + 1 => (m.sub k).start

/-- How far behind the start of its partition the data of a slice begin, where `data_start` is `word`. -/
def dataOffset (word start : Nat) : Nat := (word + 2 ^ 32 - start) % 2 ^ 32

/-- The game of `m` with the info block `g` is found again at `m'`: the data of every slice begin where they did in its partition, and the rest of the info block is the same. -/
def GameKept (m : ApaHeader) (g : Sector × Sector) (m' : ApaHeader) (c' : Content) : Prop :=
  ∃ g', infoBlock m'.start c' = some g' ∧
    (∀ k ≤ m.nsub, dataOffset (getWord (dataStartWord k) g') (partitionStart m' k) =
      dataOffset (getWord (dataStartWord k) g) (partitionStart m k)) ∧
    ∀ i < 256, (∀ k ≤ m.nsub, i ≠ dataStartWord k) → getWord i g' = getWord i g

/-! ### The info block -/

theorem getWord_setWord {i j v : Nat} (hi : i < 256) :
    getWord i (setWord j v g) = if i = j then v else getWord i g := by
  by_cases hlow : i < 128
  · simp [getWord, setWord, hlow]
  · have hhigh : i - 128 < 128 := by omega
    have hsum : i - 128 + 128 = i := by omega
    simp [getWord, setWord, hlow, hhigh, hsum]

theorem dataStartWord_lt {k : Nat} (hk : k ≤ 64) : dataStartWord k < 256 := by
  unfold dataStartWord
  omega

theorem infoBlock_congr {a a' : Nat} (h0 : c' (a' + 2056) = c (a + 2056))
    (h1 : c' (a' + 2057) = c (a + 2057)) : infoBlock a' c' = infoBlock a c := by
  rw [infoBlock, infoBlock, h0, h1]

private theorem infoBlock_some {a : Nat} (h : infoBlock a c = some g) :
    c (a + 2056) = some g.1 ∧ c (a + 2057) = some g.2 := by
  unfold infoBlock at h
  split at h
  · rename_i hfirst hsecond
    obtain rfl := Option.some.inj h
    exact ⟨hfirst, hsecond⟩
  · cases h

private theorem ataRead_infoBlock {main : Nat} (h : infoBlock main d.disk = some g) :
    ataRead (main + (HDL_GAME_DATA_OFFSET + 4096) / 512) 2 d = some [g.1, g.2] := by
  have hlba : main + (HDL_GAME_DATA_OFFSET + 4096) / 512 = main + 2056 := rfl
  obtain ⟨hfirst, hsecond⟩ := infoBlock_some h
  rw [hlba]
  simp [ataRead, hfirst, hsecond]

theorem hdlUpdateGameSliceInfo_info {main part old new : Nat} (hsound : e.Sound Slot)
    (hblock : infoBlock main e.disk = some g) (hmagic : getWord 0 g = HDL_INFO_MAGIC) :
    infoBlock main (hdlUpdateGameSliceInfo main part old new e).disk = some (setWord
      (dataStartWord part) (u32 (new + (getWord (dataStartWord part) g + 2 ^ 32 - old))) g) := by
  have hlba : main + (HDL_GAME_DATA_OFFSET + 4096) / 512 = main + 2056 := rfl
  rw [hdlUpdateGameSliceInfo]
  simp only [ataRead_infoBlock hblock, if_pos hmagic]
  rw [hlba]
  generalize setWord (dataStartWord part) (u32 (new + (getWord (dataStartWord part) g + 2 ^ 32 - old))) g = g'
  have hwrite : (ataWrite (main + 2056) [g'.1, g'.2] e).2.disk =
      applyWrites (writesAt (main + 2056) [g'.1, g'.2]) e.disk := by
    rw [ataWrite_of_good hsound.good]
  have hone : applyWrites (writesAt (main + 2056) [g'.1, g'.2]) e.disk (main + 2056) = some g'.1 :=
    applyWrites_writesAt (k := 0) (by simp)
  have htwo : applyWrites (writesAt (main + 2056) [g'.1, g'.2]) e.disk (main + 2057) = some g'.2 :=
    applyWrites_writesAt (k := 1) (by simp)
  rw [hwrite, infoBlock, hone, htwo]

/-! ### The swap of a partition of a game -/

private theorem partitionStart_relocate (ρ : Equiv.Perm Nat) (hmain : m.isSub = false) (hfew : m.nsub ≤ 64)
    {k : Nat} (hk : k ≤ m.nsub) : partitionStart (relocate ρ m) k = ρ (partitionStart m k) := by
  cases k with
  | zero => rfl
  | succ k => exact relocate_sub hmain hfew hk

private theorem dataOffset_moved {word old new : Nat} (hold : old < 2 ^ 32) (hnew : new < 2 ^ 32) :
    dataOffset (u32 (new + (word + 2 ^ 32 - old))) new = dataOffset word old := by
  unfold dataOffset u32
  omega

private theorem start_eq_of_dataOffset {word old new : Nat} (hold : old < 2 ^ 32) (hnew : new < 2 ^ 32)
    (h : dataOffset word new = dataOffset word old) : new = old := by
  unfold dataOffset at h
  omega

theorem info_behind {y : ApaHeader} (htiles : Tiles 0 P) (hm : m ∈ P) (hy : y ∈ P) {a : Nat}
    (hlo : m.start + 2056 ≤ a) (hhi : a ≤ m.start + 2057) :
    apaLog.Outside a ∧ a ≠ y.start ∧ a ≠ y.start + 1 := by
  have hlarge := (htiles.part hm).large
  refine ⟨?_, htiles.not_header hm hy (by omega) (by omega)⟩
  simp only [RedoLog.Outside, apaLog, APA_SECTOR_APAL, APA_SECTOR_APAL_HEADERS]
  omega

/-- The info block the swap leaves in the partition `y`. -/
theorem Rewrites.info {y : ApaHeader} (h : Rewrites P dest x d d') (htiles : Tiles 0 P)
    (hy : y ∈ P) : ∃ main part e, Passed P dest x main part ∧ e.disk = d.disk ∧ e.Sound Slot ∧
      infoBlock y.start d'.disk = infoBlock y.start (if x.type = APA_TYPE_HDLFS then
        hdlUpdateGameSliceInfo main part x.start dest.start e else e).disk := by
  obtain ⟨main, part, e, hpassed, hdisk, hsound, hframe⟩ := h
  have hkeep : ∀ a, y.start + 2056 ≤ a → a ≤ y.start + 2057 → _ := fun a hlo hhi =>
    hframe a (info_behind htiles hy hy hlo hhi).1 fun z hz => (info_behind htiles hy hz hlo hhi).2
  refine ⟨main, part, e, hpassed, hdisk, hsound, infoBlock_congr ?_ ?_⟩
  · exact hkeep _ (Nat.le_refl _) (Nat.le_succ _)
  · exact hkeep _ (Nat.le_succ _) (Nat.le_refl _)

/-- The main partition of a game is swapped: the first slice follows it, and the info block with it. -/
theorem Rewrites.gameKept (h : Rewrites P dest x d d') (hswap : Swappable P dest x)
    (hgame : Game P d.disk x g)
    (hdata : ∀ i, 2 ≤ i → i < x.length → d.disk (dest.start + i) = d.disk (x.start + i)) :
    GameKept x g (relocate (Equiv.swap x.start dest.start) x) d'.disk := by
  obtain ⟨main, part, e, hpassed, hdisk, hsound, hinfo⟩ := h.info hswap.tiles hswap.destMem
  have hlarge := (hswap.tiles.part hswap.mem).large
  have hold := (hswap.tiles.part hswap.mem).top
  have hnew := (hswap.tiles.part hswap.destMem).top
  have hlength := hswap.length
  have hfew := hswap.refs.few x hswap.mem_used hgame.main
  have hblock : infoBlock dest.start e.disk = some g := by
    rw [hdisk, ← hgame.block]
    exact infoBlock_congr (hdata 2056 (by omega) (by omega)) (hdata 2057 (by omega) (by omega))
  cases hpassed with
  | sub hsub =>
    rw [hgame.main] at hsub
    cases hsub
  | main hmain =>
    rw [if_pos hgame.type, hdlUpdateGameSliceInfo_info hsound hblock hgame.magic] at hinfo
    rw [hswap.relocate_self]
    refine ⟨_, hinfo, fun k hk => ?_, fun i hi hother => ?_⟩
    · rw [getWord_setWord (dataStartWord_lt (by omega))]
      cases k with
      | zero =>
        rw [if_pos rfl]
        exact dataOffset_moved (by omega) (by omega)
      | succ k => rw [if_neg (by unfold dataStartWord; omega)]; rfl
    · rw [getWord_setWord hi, if_neg (hother 0 (Nat.zero_le _))]

/-- A sub of a game is swapped: its slice stays behind. -/
theorem Rewrites.not_gameKept (h : Rewrites P dest x d d') (hswap : Swappable P dest x)
    (hgame : Game P d.disk m g) (hsub : x.isSub = true) (hmain : x.main = m.start) :
    ¬ GameKept m g (relocate (Equiv.swap x.start dest.start) m) d'.disk := by
  have hmP := (mem_used.mp hgame.mem).1
  have hmx : m.start ≠ x.start := by
    intro heq
    have hmmain := hgame.main
    rw [hswap.tiles.eq_of_start hmP hswap.mem heq, hsub] at hmmain
    cases hmmain
  have hstart : (relocate (Equiv.swap x.start dest.start) m).start = m.start :=
    Equiv.swap_apply_of_ne_of_ne hmx (hswap.used_start hgame.mem)
  have hfew := hswap.refs.few m hgame.mem hgame.main
  have hold := (hswap.tiles.part hswap.mem).top
  have hnew := (hswap.tiles.part hswap.destMem).top
  have hlarge := (hswap.tiles.part hswap.mem).large
  have hlength := hswap.length
  obtain ⟨main, part, e, hpassed, hdisk, hsound, hinfo⟩ := h.info hswap.tiles hmP
  have hblock : infoBlock m.start e.disk = some g := by
    rw [hdisk]
    exact hgame.block
  rintro ⟨g', hg', hoffset, -⟩
  rw [hstart, hinfo] at hg'
  cases hpassed with
  | main hx =>
    rw [hsub] at hx
    cases hx
  | @sub m' _ _ hm' _ hm'start hi hlisted =>
    obtain rfl := hswap.tiles.eq_of_start (mem_used.mp hm').1 hmP (hm'start.trans hmain)
    -- the slice of the sub is the entry behind the one that is rewritten
    have hword : getWord (dataStartWord (part + 1)) g' = getWord (dataStartWord (part + 1)) g := by
      split at hg'
      · rw [hdlUpdateGameSliceInfo_info hsound hblock hgame.magic] at hg'
        rw [← Option.some.inj hg', getWord_setWord (dataStartWord_lt (by omega)), if_neg]
        unfold dataStartWord
        omega
      · rw [Option.some.inj (hg'.symm.trans hblock)]
    have hmoved := hoffset (part + 1) hi
    rw [hword, partitionStart_relocate _ hgame.main hfew hi, partitionStart, hlisted,
      Equiv.swap_apply_left] at hmoved
    exact hswap.start_ne (start_eq_of_dataOffset (by omega) (by omega) hmoved)

variable {w : WriteBack (Option Sector)} {o : Prop} {U₀ : List ApaHeader} {c₀ : Content}

/-- A game whose partition `x` is swapped is kept exactly when that is its main partition. -/
theorem SwapPartition_game_iff (hswap : Swappable P dest x)
    (h : Steady (promise o U₀ c₀) w s.dev P)
    (hdata : ∀ i, 2 ≤ i → i < x.length →
      s.dev.disk (dest.start + i) = s.dev.disk (x.start + i))
    (hgame : Game P s.dev.disk m g) (hpart : x = m ∨ x.isSub = true ∧ x.main = m.start) :
    wp (SwapPartition dest.start x.start) s fun _ s' =>
      Steady (promise o U₀ c₀) w s'.dev (P.map (swapped x dest.start)) ∧
        relocate (Equiv.swap x.start dest.start) m ∈ used (P.map (swapped x dest.start)) ∧
          (GameKept m g (relocate (Equiv.swap x.start dest.start) m) s'.dev.disk ↔
            x.isSub = false) := by
  refine (SwapPartition_run hswap h hdata).mono ?_
  rintro - s' ⟨-, hsteady, hrewrites⟩
  refine ⟨hsteady, ?_, ?_⟩
  · refine hswap.used_swapped.mem_iff.mpr (List.mem_cons_of_mem _ ?_)
    exact List.mem_map_of_mem hgame.mem
  · rcases hpart with rfl | ⟨hsub, hmain⟩
    · exact iff_of_true (hrewrites.gameKept hswap hgame hdata) hgame.main
    · exact iff_of_false (hrewrites.not_gameKept hswap hgame hsub hmain) (by simp [hsub])

/-! ### A small game -/

/-- A game of a main and a sub of one unit each, and an empty partition behind the MBR for either. -/
def gameMain : ApaHeader :=
  { plainHeader 0x80000 0x40000 APA_TYPE_HDLFS with nsub := 1, subs := fun _ => ⟨0xC0000, 0x40000⟩ }

def gameSub : ApaHeader :=
  { plainHeader 0xC0000 0x40000 APA_TYPE_HDLFS with flags := APA_FLAG_SUB, main := 0x80000, number := 1 }

def gameRoom : ApaHeader := plainHeader 0x40000 0x40000 APA_TYPE_FREE

def gameBefore : List ApaHeader := [mbrHeader, gameRoom, gameMain, gameSub]

/-- The first sector of its info block. -/
def gameInfo : Sector := fun i =>
  if i.val = 0 then HDL_INFO_MAGIC
  else if i.val = numPartitionsWord then 2
  else if i.val = dataStartWord 0 then 0x82000
  else if i.val = dataStartWord 1 then 0xC2000
  else 0

/-- The disk of the game, with its info block in every partition, as if each had been copied there. -/
def gameDisk : Content := fun a =>
  if a = 0x40000 + 2056 ∨ a = 0x80000 + 2056 ∨ a = 0xC0000 + 2056 then some gameInfo
  else tableDisk gameBefore a

def gameState : State := { restState gameBefore none with dev := Device.boot gameDisk }

theorem gameBefore_tiles : Tiles 0 gameBefore :=
  ⟨rfl, part_mbr, rfl, part_plain ⟨⟨18, rfl⟩, by decide⟩ (by decide) (by decide) (by decide), rfl,
    ⟨rfl, ⟨⟨18, rfl⟩, by decide⟩, by decide, by decide, fun h => absurd h (by decide),
      fun h => absurd h (by decide)⟩, rfl,
    ⟨rfl, ⟨⟨18, rfl⟩, by decide⟩, by decide, by decide, fun h => absurd h (by decide),
      fun h => absurd h (by decide)⟩, trivial⟩

theorem used_gameBefore : used gameBefore = [mbrHeader, gameMain, gameSub] := rfl

theorem gameBefore_refs : Refs False (used gameBefore) := by
  rw [used_gameBefore]
  refine ⟨?_, ?_, ?_, ?_⟩ <;> decide

private theorem tableDisk_behind (htiles : Tiles 0 P) (hx : x ∈ P) {i : Nat} (hlo : 2 ≤ i)
    (hhi : i < x.length) (hjournal : x.start + i ≠ APA_SECTOR_APAL) :
    tableDisk P (x.start + i) = some Sector.zero := by
  have hstarts := linkedHeaders_start (p := headerLinks.last 0 P) (L := P) (n := 0)
  rw [tableDisk, headersDisk, if_neg hjournal, List.find?_eq_none.mpr fun h hh => ?_]
  have hmem : h.start ∈ P.map (·.start) := by
    rw [← hstarts]
    exact List.mem_map_of_mem hh
  obtain ⟨y, hy, hstart⟩ := List.mem_map.mp hmem
  have hnot := htiles.not_header hx hy (a := x.start + i) (by omega) (by omega)
  simp only [Bool.or_eq_true, beq_iff_eq]
  omega

theorem gameDisk_behind (hx : x ∈ gameBefore) (hstart : x.start ≠ 0) (hlength : x.length = 0x40000)
    {i : Nat} (hlo : 2 ≤ i) (hhi : i < 0x40000) :
    gameDisk (x.start + i) = if i = 2056 then some gameInfo else some Sector.zero := by
  have hplace : x.start = 0x40000 ∨ x.start = 0x80000 ∨ x.start = 0xC0000 := by
    revert x
    decide
  by_cases hi : i = 2056
  · rw [if_pos hi, gameDisk, if_pos (by omega)]
  · rw [if_neg hi, gameDisk, if_neg (by omega)]
    refine tableDisk_behind gameBefore_tiles hx hlo (by omega) ?_
    simp only [APA_SECTOR_APAL]
    omega

private theorem gameDisk_wellFormed : WellFormed gameBefore gameDisk where
  ring := by
    have hring := ring_tableDisk gameBefore_tiles (by decide)
    refine ring_of_agrees hring fun y hy => ?_
    obtain ⟨k, hk⟩ := (gameBefore_tiles.part hy).slot
    constructor <;> exact if_neg (by omega)
  tiles := gameBefore_tiles
  refs := gameBefore_refs
  ne_nil := List.cons_ne_nil _ _

theorem gameState_steady : Steady (promise False (users (used gameBefore)) gameDisk)
    ⟨gameDisk, []⟩ gameState.dev gameBefore :=
  (whole_of_idle (s := gameState) (Device.idle_boot (c := gameDisk) idleSector_reset _) gameDisk_wellFormed
    fun t ht => (no_firstTmp (by decide) t ht).elim).steady

theorem gameMain_game : Game gameBefore gameDisk gameMain (gameInfo, Sector.zero) where
  mem := by
    rw [used_gameBefore]
    simp
  main := by decide
  start := by decide
  type := rfl
  block := by
    have hfirst := gameDisk_behind (x := gameMain) (i := 2056) (by decide) (by decide) rfl
      (by decide) (by decide)
    have hsecond := gameDisk_behind (x := gameMain) (i := 2057) (by decide) (by decide) rfl
      (by decide) (by decide)
    rw [infoBlock, hfirst, hsecond]
    rfl
  magic := by decide
  slices := by decide

theorem gameSub_swappable : Swappable gameBefore gameRoom gameSub :=
  ⟨gameBefore_tiles, gameBefore_refs, by decide, by decide, by decide, by decide, by decide, rfl⟩

theorem gameMain_swappable : Swappable gameBefore gameRoom gameMain :=
  ⟨gameBefore_tiles, gameBefore_refs, by decide, by decide, by decide, by decide, by decide, rfl⟩

theorem gameDisk_copied (hx : x ∈ gameBefore) (hstart : x.start ≠ 0) (hlength : x.length = 0x40000)
    (i : Nat) (hlo : 2 ≤ i) (hhi : i < x.length) :
    gameDisk (gameRoom.start + i) = gameDisk (x.start + i) := by
  rw [hlength] at hhi
  rw [gameDisk_behind (by decide) (by decide) rfl hlo hhi, gameDisk_behind hx hstart hlength hlo hhi]

theorem SwapPartition_game_iff_small :
    wp (SwapPartition gameRoom.start gameMain.start) gameState fun _ s' =>
      Steady (promise False (users (used gameBefore)) gameDisk) ⟨gameDisk, []⟩ s'.dev
          (gameBefore.map (swapped gameMain gameRoom.start)) ∧
        relocate (Equiv.swap gameMain.start gameRoom.start) gameMain ∈
          used (gameBefore.map (swapped gameMain gameRoom.start)) ∧
          (GameKept gameMain (gameInfo, Sector.zero)
            (relocate (Equiv.swap gameMain.start gameRoom.start) gameMain) s'.dev.disk ↔
            gameMain.isSub = false) :=
  SwapPartition_game_iff gameMain_swappable gameState_steady
    (gameDisk_copied (by decide) (by decide) rfl) gameMain_game (.inl rfl)

/-- The sub of the game is moved to the empty partition: the entry of the main partition is changed. -/
theorem SwapPartition_loses_game :
    Game gameBefore gameState.dev.disk gameMain (gameInfo, Sector.zero) ∧
      wp (SwapPartition gameRoom.start gameSub.start) gameState fun _ s' =>
        ¬ GameKept gameMain (gameInfo, Sector.zero)
          (relocate (Equiv.swap gameSub.start gameRoom.start) gameMain) s'.dev.disk := by
  refine ⟨gameMain_game, (SwapPartition_run gameSub_swappable gameState_steady
    (gameDisk_copied (by decide) (by decide) rfl)).mono ?_⟩
  rintro - s' ⟨-, -, hrewrites⟩
  exact hrewrites.not_gameKept gameSub_swappable gameMain_game (by decide) rfl

end HddChecker.Hdsk
