import Mathlib.Data.Nat.Bitwise
import Mathlib.Data.Nat.Find
import HddChecker.Hdst.Device

/-!
# Verifying sectors

`ata_device_read_verify` has the drive verify a range of sectors, command by command, and finds out from the registers where an error occurred. The commands go through `ata_io_start` and `ata_io_finish` of the ATA driver, which stands here as a function from a command to what the drive answers.
-/

namespace HddChecker.Hdst

def ATA_RES_ERR_IO : Int := -503
def ATA_ERR_ECC : Nat := 0x40
def ATA_C_READ_VERIFY_SECTOR : Nat := 0x40
def ATA_C_READ_VERIFY_SECTOR_EXT : Nat := 0x42

/-- What `ata_io_start` loads into the registers. -/
structure Command where
  nsector : Nat
  sector : Nat
  lcyl : Nat
  hcyl : Nat
  select : Nat
  command : Nat
  deriving DecidableEq, Repr

/-- What the drive answers, with the registers as they are read afterwards. -/
structure Answer where
  /-- the result of `ata_io_start` -/
  start : Int
  /-- the result of `ata_io_finish` -/
  finish : Int
  error : Nat
  r_sector : Nat
  r_lcyl : Nat
  r_hcyl : Nat
  r_select : Nat
  /-- `r_sector` while the HOB bit is set -/
  hob : Nat
  deriving DecidableEq, Repr

/-- An unsigned word as an `int`. -/
def signed (n : Nat) : Int := if n % 2 ^ 32 < 2 ^ 31 then (n % 2 ^ 32 : Nat) else (n % 2 ^ 32 : Nat) - 2 ^ 32

/-- The sectors a command covers at most. -/
def stride (lba48 : Bool) : Nat := if lba48 then 65536 else 256

/-- The command for the sectors from `lba` on. -/
def verifyCommand (lba48 : Bool) (device lba len : Nat) : Command :=
  if lba48 then
    { nsector := len % 2 ^ 16
      -- Bits 24-31 and bits 0-7 of lba are combined into sector.
      sector := ((lba >>> 16) &&& 0xff00) ||| (lba &&& 0xff)
      lcyl := (lba >>> 8) &&& 0xff
      hcyl := (lba >>> 16) &&& 0xff
      select := ((device <<< 4) ||| 0x40) &&& 0xffff
      command := ATA_C_READ_VERIFY_SECTOR_EXT }
  else
    { nsector := len % 2 ^ 16
      sector := lba &&& 0xff
      lcyl := (lba >>> 8) &&& 0xff
      hcyl := (lba >>> 16) &&& 0xff
      select := ((device <<< 4) ||| ((lba >>> 24) &&& 0xf) ||| 0x40) &&& 0xffff
      command := ATA_C_READ_VERIFY_SECTOR }

/-- The address the registers hold after an error. -/
def errorLba (lba48 : Bool) (a : Answer) : Nat :=
  if lba48 then
    ((a.r_sector &&& 0xff) ||| ((a.r_lcyl &&& 0xff) <<< 8) ||| ((a.r_hcyl &&& 0xff) <<< 16)) |||
      u32 ((a.hob &&& 0xff) <<< 24)
  else
    (a.r_sector &&& 0xff) ||| ((a.r_lcyl &&& 0xff) <<< 8) ||| ((a.r_hcyl &&& 0xff) <<< 16) ||| ((a.r_select &&& 0xf) <<< 24)

/-- The loop of `ata_device_read_verify`: the result, and the commands that were issued. Every command covers at least one sector, so as many passes as there are sectors are enough. -/
def verifyLoop (lba48 : Bool) (device : Nat) (io : Command → Answer) (StartLBA : Nat) : Nat → Nat → Nat → Int × List Command
  | 0, _, _ => (0, [])
  | fuel + 1, lba, sectors =>
    if sectors = 0 then (0, [])
    else
      let len := if sectors > stride lba48 then stride lba48 else sectors
      let command := verifyCommand lba48 device lba len
      let answer := io command
      if answer.start = 0 then
        if answer.finish ≠ 0 then
          if answer.finish = ATA_RES_ERR_IO ∧ answer.error &&& ATA_ERR_ECC ≠ 0 then
            (signed (errorLba lba48 answer + 2 ^ 32 - StartLBA + 1), [command])
          else (answer.finish, [command])
        else
          let (result, commands) := verifyLoop lba48 device io StartLBA fuel (u32 (lba + len)) (sectors - len)
          (result, command :: commands)
      else (answer.start, [command])

def ata_device_read_verify (lba48 : Bool) (device : Nat) (io : Command → Answer) (lba sectors : Nat) : Int × List Command :=
  verifyLoop lba48 device io lba sectors lba sectors

/-! ### The drive -/

/-- The first sector of a command, as the drive decodes it. -/
def Command.lba (lba48 : Bool) (c : Command) : Nat :=
  if lba48 then
    c.sector % 2 ^ 8 + c.lcyl % 2 ^ 8 * 2 ^ 8 + c.hcyl % 2 ^ 8 * 2 ^ 16 +
      c.sector / 2 ^ 8 % 2 ^ 8 * 2 ^ 24 + c.lcyl / 2 ^ 8 % 2 ^ 8 * 2 ^ 32 + c.hcyl / 2 ^ 8 % 2 ^ 8 * 2 ^ 40
  else c.sector % 2 ^ 8 + c.lcyl % 2 ^ 8 * 2 ^ 8 + c.hcyl % 2 ^ 8 * 2 ^ 16 + c.select % 2 ^ 4 * 2 ^ 24

/-- The number of sectors of a command; 0 stands for the largest one. -/
def Command.count (lba48 : Bool) (c : Command) : Nat :=
  if lba48 then if c.nsector % 2 ^ 16 = 0 then 2 ^ 16 else c.nsector % 2 ^ 16
  else if c.nsector % 2 ^ 8 = 0 then 2 ^ 8 else c.nsector % 2 ^ 8

/-- A command to verify sectors that addresses the device by LBA. -/
def Command.Verifies (lba48 : Bool) (device : Nat) (c : Command) : Prop :=
  c.command = (if lba48 then ATA_C_READ_VERIFY_SECTOR_EXT else ATA_C_READ_VERIFY_SECTOR) ∧
    c.select / 2 ^ 4 = device ||| 0x4

/-- The first bad sector of a range. -/
structure FirstBad (bad : Nat → Prop) (lba count x : Nat) : Prop where
  le : lba ≤ x
  lt : x < lba + count
  fails : bad x
  before : ∀ y, lba ≤ y → y < x → ¬ bad y

def Answer.Holds (lba48 : Bool) (a : Answer) (x : Nat) : Prop :=
  a.r_sector % 2 ^ 8 = x % 2 ^ 8 ∧ a.r_lcyl % 2 ^ 8 = x / 2 ^ 8 % 2 ^ 8 ∧ a.r_hcyl % 2 ^ 8 = x / 2 ^ 16 % 2 ^ 8 ∧
    if lba48 then a.hob % 2 ^ 8 = x / 2 ^ 24 % 2 ^ 8 else a.r_select % 2 ^ 4 = x / 2 ^ 24 % 2 ^ 4

/-- The drive verifies a range in order, and reports an ECC error with the address of the first bad sector. -/
structure Drive (lba48 : Bool) (device : Nat) (bad : Nat → Prop) (io : Command → Answer) : Prop where
  start : ∀ c, c.Verifies lba48 device → (io c).start = 0
  good : ∀ c, c.Verifies lba48 device → (∀ x, c.lba lba48 ≤ x → x < c.lba lba48 + c.count lba48 → ¬ bad x) →
    (io c).finish = 0
  first : ∀ c x, c.Verifies lba48 device → FirstBad bad (c.lba lba48) (c.count lba48) x →
    (io c).finish = ATA_RES_ERR_IO ∧ (io c).error &&& ATA_ERR_ECC ≠ 0 ∧ (io c).Holds lba48 x

/-- The commands cover consecutive ranges from `lba` to `stop`. -/
def Tiles (lba48 : Bool) : Nat → List Command → Nat → Prop
  | lba, [], stop => lba = stop
  | lba, c :: commands, stop => c.lba lba48 = lba ∧ Tiles lba48 (lba + c.count lba48) commands stop

/-- What is promised: the result says whether there is a bad sector and which is the first one, and the commands cover the range up to where they stop, which is not before the first bad sector. -/
structure Finds (lba48 : Bool) (bad : Nat → Prop) (lba sectors : Nat) (r : Int × List Command) : Prop where
  good : r.1 = 0 ↔ ∀ x, lba ≤ x → x < lba + sectors → ¬ bad x
  first : ∀ x, FirstBad bad lba sectors x → r.1 = x - lba + 1
  commands : ∃ stop, Tiles lba48 lba r.2 stop ∧ stop ≤ lba + sectors ∧
    ∀ x, lba ≤ x → x < lba + sectors → (∀ y, lba ≤ y → y < x → ¬ bad y) → x < stop

/-- Every command that is reached begins at a sector whose address is a word. -/
def Reachable (lba48 : Bool) (bad : Nat → Prop) (lba sectors : Nat) : Prop :=
  ∀ i, i * stride lba48 < sectors → (∀ y, lba ≤ y → y < lba + i * stride lba48 → ¬ bad y) →
    lba + i * stride lba48 < 2 ^ 32

/-! ### The registers -/

theorem or_shiftLeft {a b i : Nat} (h : b < 2 ^ i) : b ||| a <<< i = b + a * 2 ^ i := by
  rw [Nat.lor_comm, ← Nat.shiftLeft_add_eq_or_of_lt h, Nat.shiftLeft_eq, Nat.add_comm]

theorem and_ff (n : Nat) : n &&& 0xff = n % 2 ^ 8 := Nat.and_two_pow_sub_one_eq_mod n 8

theorem and_f (n : Nat) : n &&& 0xf = n % 2 ^ 4 := Nat.and_two_pow_sub_one_eq_mod n 4

private theorem and_ff00 (n : Nat) : n &&& 0xff00 = (n / 2 ^ 8 % 2 ^ 8) <<< 8 := by
  have hmask : (0xff00 : Nat) = (2 ^ 8 - 1) <<< 8 := by decide
  refine Nat.eq_of_testBit_eq fun i => ?_
  rw [hmask, Nat.testBit_and, Nat.testBit_shiftLeft, Nat.testBit_shiftLeft, Nat.testBit_two_pow_sub_one,
    Nat.testBit_mod_two_pow, Nat.testBit_div_two_pow]
  by_cases hi : 8 ≤ i
  · simp [hi, Bool.and_comm]
  · simp [hi]

private theorem sector_ext (lba : Nat) : ((lba >>> 16) &&& 0xff00) ||| (lba &&& 0xff) =
    lba / 2 ^ 24 % 2 ^ 8 * 2 ^ 8 + lba % 2 ^ 8 := by
  rw [and_ff, and_ff00, Nat.lor_comm, or_shiftLeft (Nat.mod_lt _ (by decide)), Nat.shiftRight_eq_div_pow,
    Nat.div_div_eq_div_mul, Nat.add_comm, ← Nat.pow_add]

variable {lba48 : Bool} {device lba len sectors x : Nat} {bad : Nat → Prop} {io : Command → Answer}

def space (lba48 : Bool) : Nat := if lba48 then 2 ^ 32 else 2 ^ 28

theorem select_spec : ∀ device < 2, ∀ n < 16, ((device <<< 4 ||| n ||| 0x40) &&& 0xffff) % 2 ^ 4 = n ∧
    ((device <<< 4 ||| n ||| 0x40) &&& 0xffff) / 2 ^ 4 = device ||| 0x4 := by
  decide

private theorem verifyCommand_lba (h : lba < space lba48) (hdevice : device < 2) :
    (verifyCommand lba48 device lba len).lba lba48 = lba := by
  have hlcyl : (verifyCommand lba48 device lba len).lcyl = lba / 2 ^ 8 % 2 ^ 8 := by
    cases lba48 <;> exact (and_ff _).trans (congrArg (· % 2 ^ 8) (Nat.shiftRight_eq_div_pow _ _))
  have hhcyl : (verifyCommand lba48 device lba len).hcyl = lba / 2 ^ 16 % 2 ^ 8 := by
    cases lba48 <;> exact (and_ff _).trans (congrArg (· % 2 ^ 8) (Nat.shiftRight_eq_div_pow _ _))
  cases lba48 with
  | true =>
    have h : lba < 2 ^ 32 := h
    have hsector : (verifyCommand true device lba len).sector = lba / 2 ^ 24 % 2 ^ 8 * 2 ^ 8 + lba % 2 ^ 8 := sector_ext lba
    have hsum : lba % 2 ^ 8 + lba / 2 ^ 8 % 2 ^ 8 * 2 ^ 8 + lba / 2 ^ 16 % 2 ^ 8 * 2 ^ 16 +
        lba / 2 ^ 24 % 2 ^ 8 * 2 ^ 24 = lba := by
      have h₁ : lba / 2 ^ 8 / 2 ^ 8 = lba / 2 ^ 16 := Nat.div_div_eq_div_mul _ _ _
      have h₂ : lba / 2 ^ 16 / 2 ^ 8 = lba / 2 ^ 24 := Nat.div_div_eq_div_mul _ _ _
      omega
    have h₀ : lba % 2 ^ 8 < 2 ^ 8 := Nat.mod_lt _ (by decide)
    have h₁ : lba / 2 ^ 8 % 2 ^ 8 < 2 ^ 8 := Nat.mod_lt _ (by decide)
    have h₂ : lba / 2 ^ 16 % 2 ^ 8 < 2 ^ 8 := Nat.mod_lt _ (by decide)
    have h₃ : lba / 2 ^ 24 % 2 ^ 8 < 2 ^ 8 := Nat.mod_lt _ (by decide)
    simp only [Command.lba, if_true, hsector, hlcyl, hhcyl]
    generalize lba % 2 ^ 8 = b₀ at *
    generalize lba / 2 ^ 8 % 2 ^ 8 = b₁ at *
    generalize lba / 2 ^ 16 % 2 ^ 8 = b₂ at *
    generalize lba / 2 ^ 24 % 2 ^ 8 = b₃ at *
    omega
  | false =>
    have h : lba < 2 ^ 28 := h
    have hsector : (verifyCommand false device lba len).sector = lba % 2 ^ 8 := and_ff lba
    have hn : (lba >>> 24) &&& 0xf = lba / 2 ^ 24 % 2 ^ 4 := by rw [and_f, Nat.shiftRight_eq_div_pow]
    have hselect : (verifyCommand false device lba len).select % 2 ^ 4 = lba / 2 ^ 24 % 2 ^ 4 := by
      rw [← hn]
      exact (select_spec device hdevice _ (hn ▸ Nat.mod_lt _ (by decide))).1
    simp only [Command.lba, Bool.false_eq_true, if_false, hsector, hlcyl, hhcyl, hselect]
    omega

private theorem verifyCommand_count (hpos : 0 < len) (hle : len ≤ stride lba48) :
    (verifyCommand lba48 device lba len).count lba48 = len := by
  have hnsector : (verifyCommand lba48 device lba len).nsector = len % 2 ^ 16 := by
    cases lba48 <;> rfl
  cases lba48 with
  | true =>
    have hle : len ≤ 65536 := hle
    simp only [Command.count, if_true, hnsector]
    split
    · omega
    · omega
  | false =>
    have hle : len ≤ 256 := hle
    simp only [Command.count, Bool.false_eq_true, if_false, hnsector]
    split
    · omega
    · omega

private theorem verifyCommand_verifies (hdevice : device < 2) : (verifyCommand lba48 device lba len).Verifies lba48 device := by
  cases lba48 with
  | true =>
    have h := (select_spec device hdevice 0 (by decide)).2
    rw [Nat.or_zero] at h
    exact ⟨rfl, h⟩
  | false =>
    have hlt : (lba >>> 24) &&& 0xf < 16 := by
      rw [and_f]
      exact Nat.mod_lt _ (by decide)
    exact ⟨rfl, (select_spec device hdevice _ hlt).2⟩

private theorem errorLba_holds {a : Answer} (h : a.Holds lba48 x) : errorLba lba48 a = x % space lba48 := by
  obtain ⟨hsector, hlcyl, hhcyl, hhigh⟩ := h
  have hlow : (a.r_sector &&& 0xff) ||| ((a.r_lcyl &&& 0xff) <<< 8) ||| ((a.r_hcyl &&& 0xff) <<< 16) = x % 2 ^ 24 := by
    rw [and_ff, and_ff, and_ff, hsector, hlcyl, hhcyl, or_shiftLeft (Nat.mod_lt _ (by decide)), or_shiftLeft (by omega)]
    omega
  cases lba48 with
  | true =>
    have hhigh : a.hob % 2 ^ 8 = x / 2 ^ 24 % 2 ^ 8 := hhigh
    have hword : u32 ((x / 2 ^ 24 % 2 ^ 8) <<< 24) = (x / 2 ^ 24 % 2 ^ 8) <<< 24 := by
      rw [Nat.shiftLeft_eq]
      exact Nat.mod_eq_of_lt (by omega)
    simp only [errorLba, if_true, hlow, space]
    rw [and_ff, hhigh, hword, or_shiftLeft (by omega)]
    omega
  | false =>
    have hhigh : a.r_select % 2 ^ 4 = x / 2 ^ 24 % 2 ^ 4 := hhigh
    simp only [errorLba, Bool.false_eq_true, if_false, hlow, space]
    rw [and_f, hhigh, or_shiftLeft (by omega)]
    omega

/-! ### The loop -/

variable {fuel StartLBA : Nat}

/-- The range begins at a word, and has 28-bit addresses where the drive has no others. -/
def Within (lba48 : Bool) (lba sectors : Nat) : Prop := if lba48 then lba < 2 ^ 32 else lba + sectors ≤ 2 ^ 28

theorem Within.lt_space (h : Within lba48 lba sectors) (hmore : sectors ≠ 0) : lba < space lba48 := by
  cases lba48 with
  | true => exact h
  | false =>
    have h : lba + sectors ≤ 2 ^ 28 := h
    change lba < 2 ^ 28
    omega

theorem Within.rest (h : Within lba48 lba sectors) (hle : len ≤ sectors) :
    Within lba48 (u32 (lba + len)) (sectors - len) := by
  cases lba48 with
  | true => exact Nat.mod_lt _ (by decide)
  | false =>
    have h : lba + sectors ≤ 2 ^ 28 := h
    change (lba + len) % 2 ^ 32 + (sectors - len) ≤ 2 ^ 28
    omega

theorem stride_pos (lba48 : Bool) : 0 < stride lba48 := by cases lba48 <;> decide

theorem piece_spec (hdevice : device < 2) (hmore : sectors ≠ 0) (hwithin : Within lba48 lba sectors) :
    (verifyCommand lba48 device lba (min (stride lba48) sectors)).Verifies lba48 device ∧
    (verifyCommand lba48 device lba (min (stride lba48) sectors)).lba lba48 = lba ∧
    (verifyCommand lba48 device lba (min (stride lba48) sectors)).count lba48 = min (stride lba48) sectors := by
  have hpos := stride_pos lba48
  refine ⟨verifyCommand_verifies hdevice, verifyCommand_lba (hwithin.lt_space hmore) hdevice, ?_⟩
  exact verifyCommand_count (by omega) (Nat.min_le_left _ _)

theorem verifyLoop_succ (hmore : sectors ≠ 0) : verifyLoop lba48 device io StartLBA (fuel + 1) lba sectors =
    if (io (verifyCommand lba48 device lba (min (stride lba48) sectors))).start = 0 then
      if (io (verifyCommand lba48 device lba (min (stride lba48) sectors))).finish ≠ 0 then
        if (io (verifyCommand lba48 device lba (min (stride lba48) sectors))).finish = ATA_RES_ERR_IO ∧
            (io (verifyCommand lba48 device lba (min (stride lba48) sectors))).error &&& ATA_ERR_ECC ≠ 0 then
          (signed (errorLba lba48 (io (verifyCommand lba48 device lba (min (stride lba48) sectors))) + 2 ^ 32 - StartLBA + 1),
            [verifyCommand lba48 device lba (min (stride lba48) sectors)])
        else ((io (verifyCommand lba48 device lba (min (stride lba48) sectors))).finish,
          [verifyCommand lba48 device lba (min (stride lba48) sectors)])
      else
        ((verifyLoop lba48 device io StartLBA fuel (u32 (lba + min (stride lba48) sectors))
          (sectors - min (stride lba48) sectors)).1,
        verifyCommand lba48 device lba (min (stride lba48) sectors) ::
          (verifyLoop lba48 device io StartLBA fuel (u32 (lba + min (stride lba48) sectors))
            (sectors - min (stride lba48) sectors)).2)
    else ((io (verifyCommand lba48 device lba (min (stride lba48) sectors))).start,
      [verifyCommand lba48 device lba (min (stride lba48) sectors)]) := by
  rw [verifyLoop, if_neg hmore]
  simp only [piece_eq_min]

theorem verifyLoop_good (hdrive : Drive lba48 device bad io) (hdevice : device < 2) (hmore : sectors ≠ 0)
    (hwithin : Within lba48 lba sectors) (hgood : ∀ y, lba ≤ y → y < lba + min (stride lba48) sectors → ¬ bad y) :
    verifyLoop lba48 device io StartLBA (fuel + 1) lba sectors =
      ((verifyLoop lba48 device io StartLBA fuel (u32 (lba + min (stride lba48) sectors))
        (sectors - min (stride lba48) sectors)).1,
      verifyCommand lba48 device lba (min (stride lba48) sectors) ::
        (verifyLoop lba48 device io StartLBA fuel (u32 (lba + min (stride lba48) sectors))
          (sectors - min (stride lba48) sectors)).2) := by
  obtain ⟨hverifies, hlba, hcount⟩ := piece_spec hdevice hmore hwithin
  have hfinish := hdrive.good _ hverifies (by rwa [hlba, hcount])
  rw [verifyLoop_succ hmore, if_pos (hdrive.start _ hverifies), hfinish, if_neg (not_not.mpr rfl)]

theorem verifyLoop_bad (hdrive : Drive lba48 device bad io) (hdevice : device < 2) (hmore : sectors ≠ 0)
    (hwithin : Within lba48 lba sectors) (hbad : FirstBad bad lba (min (stride lba48) sectors) x) :
    verifyLoop lba48 device io StartLBA (fuel + 1) lba sectors =
      (signed (x % space lba48 + 2 ^ 32 - StartLBA + 1), [verifyCommand lba48 device lba (min (stride lba48) sectors)]) := by
  obtain ⟨hverifies, hlba, hcount⟩ := piece_spec hdevice hmore hwithin
  obtain ⟨hfinish, herror, hholds⟩ := hdrive.first _ x hverifies (by rwa [hlba, hcount])
  have hne : (io (verifyCommand lba48 device lba (min (stride lba48) sectors))).finish ≠ 0 := by
    rw [hfinish]
    decide
  rw [verifyLoop_succ hmore, if_pos (hdrive.start _ hverifies), if_pos hne, if_pos ⟨hfinish, herror⟩,
    errorLba_holds hholds]

theorem firstBad_or (bad : Nat → Prop) (lba count : Nat) :
    (∀ y, lba ≤ y → y < lba + count → ¬ bad y) ∨ ∃ x, FirstBad bad lba count x := by
  classical
  by_cases h : ∃ y, lba ≤ y ∧ y < lba + count ∧ bad y
  · obtain ⟨hle, hlt, hbad⟩ := Nat.find_spec h
    refine .inr ⟨Nat.find h, hle, hlt, hbad, fun y hy hlt' hbad' => ?_⟩
    exact Nat.find_min h hlt' ⟨hy, hlt'.trans hlt, hbad'⟩
  · exact .inl fun y hle hlt hbad => h ⟨y, hle, hlt, hbad⟩

private theorem signed_lt (n : Nat) : signed n < 2 ^ 31 := by
  unfold signed
  split
  · omega
  · omega

private theorem verifyLoop_lt (hdrive : Drive lba48 device bad io) (hdevice : device < 2) (hwithin : Within lba48 lba sectors) :
    (verifyLoop lba48 device io StartLBA fuel lba sectors).1 < 2 ^ 31 := by
  induction fuel generalizing lba sectors with
  | zero =>
    rw [verifyLoop]
    decide
  | succ fuel ih =>
    by_cases hmore : sectors = 0
    · rw [verifyLoop, if_pos hmore]
      decide
    · rcases firstBad_or bad lba (min (stride lba48) sectors) with hgood | ⟨x, hbad⟩
      · rw [verifyLoop_good hdrive hdevice hmore hwithin hgood]
        exact ih (hwithin.rest (Nat.min_le_right _ _))
      · rw [verifyLoop_bad hdrive hdevice hmore hwithin hbad]
        exact signed_lt _

/-- The commands after the first one. -/
theorem Reachable.rest (h : Reachable lba48 bad lba sectors) (hlt : stride lba48 < sectors)
    (hgood : ∀ y, lba ≤ y → y < lba + stride lba48 → ¬ bad y) :
    u32 (lba + stride lba48) = lba + stride lba48 ∧
      Reachable lba48 bad (lba + stride lba48) (sectors - stride lba48) := by
  constructor
  · have := h 1 (by omega) fun y hle hy => hgood y hle (by omega)
    exact Nat.mod_eq_of_lt (by omega)
  · intro i hi hbefore
    have := h (i + 1) (by rw [Nat.succ_mul]; omega) fun y hle hy => by
      rw [Nat.succ_mul] at hy
      by_cases hfirst : y < lba + stride lba48
      · exact hgood y hle hfirst
      · exact hbefore y (by omega) (by omega)
    rw [Nat.succ_mul] at this
    omega

theorem FirstBad.unique {y count count' : Nat} (hx : FirstBad bad lba count x) (hy : FirstBad bad lba count' y) : y = x := by
  rcases Nat.lt_trichotomy y x with h | h | h
  · exact absurd hy.fails (hx.before y hy.le h)
  · exact h
  · exact absurd hx.fails (hy.before x hx.le h)

theorem FirstBad.rest {count : Nat} (h : FirstBad bad lba sectors x) (hgood : ∀ y, lba ≤ y → y < lba + count → ¬ bad y) :
    FirstBad bad (lba + count) (sectors - count) x := by
  have hle : lba + count ≤ x := by
    by_contra hnot
    exact hgood x h.le (by omega) h.fails
  have hlt := h.lt
  exact ⟨hle, by omega, h.fails, fun y hy hy' => h.before y (by omega) hy'⟩

theorem verifyLoop_done : verifyLoop lba48 device io StartLBA fuel lba 0 = (0, []) := by
  cases fuel with
  | zero => rfl
  | succ fuel => exact if_pos rfl

/-- Where all commands that are reached begin at a word, they tile the range up to the first bad sector, and the result tells it. -/
private theorem verifyLoop_finds (StartLBA : Nat) (hdrive : Drive lba48 device bad io) (hdevice : device < 2) (hfuel : sectors ≤ fuel)
    (hwithin : Within lba48 lba sectors) (hreach : Reachable lba48 bad lba sectors) :
    ((∀ y, lba ≤ y → y < lba + sectors → ¬ bad y) → (verifyLoop lba48 device io StartLBA fuel lba sectors).1 = 0) ∧
    (∀ x, FirstBad bad lba sectors x → (verifyLoop lba48 device io StartLBA fuel lba sectors).1 =
      signed (x % space lba48 + 2 ^ 32 - StartLBA + 1)) ∧
    ∃ stop, Tiles lba48 lba (verifyLoop lba48 device io StartLBA fuel lba sectors).2 stop ∧ stop ≤ lba + sectors ∧
      ∀ x, lba ≤ x → x < lba + sectors → (∀ y, lba ≤ y → y < x → ¬ bad y) → x < stop := by
  by_cases hmore : sectors = 0
  · subst hmore
    rw [verifyLoop_done]
    exact ⟨fun _ => rfl, fun x hx => absurd hx.lt (by have := hx.le; omega), lba, rfl, by omega, fun x _ _ _ => by omega⟩
  induction fuel generalizing lba sectors with
  | zero => omega
  | succ fuel ih =>
    obtain ⟨-, hlba, hcount⟩ := piece_spec hdevice hmore hwithin
    have hpos := stride_pos lba48
    rcases firstBad_or bad lba (min (stride lba48) sectors) with hgood | ⟨x, hbad⟩
    · rw [verifyLoop_good hdrive hdevice hmore hwithin hgood]
      have hwithin' := hwithin.rest (Nat.min_le_right (stride lba48) sectors)
      by_cases hlt : stride lba48 < sectors
      · rw [Nat.min_eq_left hlt.le] at hgood hlba hcount hwithin' ⊢
        obtain ⟨hword, hreach'⟩ := hreach.rest hlt hgood
        rw [hword] at hwithin' ⊢
        obtain ⟨hnone, hfirst, stop, htiles, hstop, hcover⟩ := ih (by omega) hwithin' hreach' (by omega)
        refine ⟨fun hall => hnone fun y hle hy => hall y (by omega) (by omega), fun x hx => hfirst x (hx.rest hgood),
          stop, ?_, by omega, ?_⟩
        · exact ⟨hlba, by rw [hcount]; exact htiles⟩
        · intro x hle hx hbefore
          by_cases hfirst' : x < lba + stride lba48
          · have hle' : lba + stride lba48 < stop :=
              hcover (lba + stride lba48) le_rfl (by omega) fun y hy hy' => absurd hy' (by omega)
            omega
          · exact hcover x (by omega) (by omega) fun y hy hy' => hbefore y (by omega) hy'
      · have hmin : min (stride lba48) sectors = sectors := Nat.min_eq_right (by omega)
        rw [hmin] at hgood hcount hlba ⊢
        rw [Nat.sub_self, verifyLoop_done]
        refine ⟨fun _ => rfl, fun x hx => absurd hx.fails (hgood x hx.le hx.lt), lba + sectors, ⟨hlba, ?_⟩, le_rfl,
          fun x _ hx _ => hx⟩
        rw [hcount]
        rfl
    · rw [verifyLoop_bad hdrive hdevice hmore hwithin hbad]
      have hlt := hbad.lt
      refine ⟨fun hall => absurd hbad.fails (hall x hbad.le (by omega)), fun y hy => ?_,
        lba + min (stride lba48) sectors, ⟨hlba, ?_⟩, by omega, fun y hle hy hbefore => ?_⟩
      · rw [hbad.unique hy]
      · rw [hcount]
        rfl
      · by_contra hnot
        exact hbefore x hbad.le (by omega) hbad.fails

/-- Commands that tile a range begin at words. -/
private theorem reachable_of_tiles (hdrive : Drive lba48 device bad io) (hdevice : device < 2) (hfuel : sectors ≤ fuel)
    (hwithin : Within lba48 lba sectors) (hword : lba < 2 ^ 32) {stop : Nat}
    (h : Tiles lba48 lba (verifyLoop lba48 device io StartLBA fuel lba sectors).2 stop) :
    Reachable lba48 bad lba sectors := by
  induction fuel generalizing lba sectors with
  | zero =>
    intro i hi
    omega
  | succ fuel ih =>
    intro i hi hbefore
    have hpos := stride_pos lba48
    cases i with
    | zero => rwa [Nat.zero_mul, Nat.add_zero]
    | succ i =>
      rw [Nat.succ_mul] at hi hbefore ⊢
      have hmore : sectors ≠ 0 := by omega
      have hlt : stride lba48 < sectors := by omega
      have hmin : min (stride lba48) sectors = stride lba48 := Nat.min_eq_left hlt.le
      have hgood : ∀ y, lba ≤ y → y < lba + min (stride lba48) sectors → ¬ bad y :=
        fun y hle hy => hbefore y hle (by omega)
      obtain ⟨-, hlba, hcount⟩ := piece_spec hdevice hmore hwithin
      have hwithin' := hwithin.rest (Nat.min_le_right (stride lba48) sectors)
      rw [verifyLoop_good hdrive hdevice hmore hwithin hgood] at h
      obtain ⟨-, h⟩ := h
      rw [hmin] at h hcount hwithin'
      rw [hcount] at h
      -- The next command begins where this one ends, so that its address is a word.
      have hnext : lba + stride lba48 < 2 ^ 32 := by
        by_contra hnot
        have hmore' : sectors - stride lba48 ≠ 0 := by omega
        obtain ⟨-, hlba', -⟩ := piece_spec hdevice hmore' hwithin'
        cases fuel with
        | zero => omega
        | succ fuel =>
          have hfirst : ∃ commands, (verifyLoop lba48 device io StartLBA (fuel + 1) (u32 (lba + stride lba48))
              (sectors - stride lba48)).2 =
              verifyCommand lba48 device (u32 (lba + stride lba48)) (min (stride lba48) (sectors - stride lba48)) :: commands := by
            rw [verifyLoop_succ hmore']
            split
            · split
              · split
                · exact ⟨_, rfl⟩
                · exact ⟨_, rfl⟩
              · exact ⟨_, rfl⟩
            · exact ⟨_, rfl⟩
          obtain ⟨commands, hcommands⟩ := hfirst
          rw [hcommands] at h
          have heq := hlba'.symm.trans h.1
          have hlt' : u32 (lba + stride lba48) < 2 ^ 32 := Nat.mod_lt _ (by decide)
          omega
      have hword' : u32 (lba + stride lba48) = lba + stride lba48 := Nat.mod_eq_of_lt hnext
      rw [hword'] at h hwithin'
      have := ih (by omega) hwithin' hnext h i (by omega) fun y hle hy => hbefore y (by omega) (by omega)
      omega

/-- The range is one of the addressing mode: of 28 or of 48 bits. -/
def Addresses (lba48 : Bool) (lba sectors : Nat) : Prop := lba + sectors ≤ if lba48 then 2 ^ 48 else 2 ^ 28

/-- `ata_device_read_verify` finds the first bad sector exactly if the commands that are reached begin at addresses that are words and the result is an `int`. -/
theorem ata_device_read_verify_finds (hdrive : Drive lba48 device bad io) (hdevice : device < 2) (hlba : lba < 2 ^ 32)
    (hsectors : sectors < 2 ^ 32) (hmode : Addresses lba48 lba sectors) :
    Finds lba48 bad lba sectors (ata_device_read_verify lba48 device io lba sectors) ↔
      Reachable lba48 bad lba sectors ∧ ∀ x, FirstBad bad lba sectors x → x - lba + 1 < 2 ^ 31 := by
  have hwithin : Within lba48 lba sectors := by
    cases lba48 with
    | true => exact hlba
    | false => exact hmode
  constructor
  · intro h
    obtain ⟨stop, htiles, -⟩ := h.commands
    refine ⟨reachable_of_tiles hdrive hdevice le_rfl hwithin hlba htiles, fun x hx => ?_⟩
    have hlt : (verifyLoop lba48 device io lba sectors lba sectors).1 < 2 ^ 31 := verifyLoop_lt hdrive hdevice hwithin
    have hfirst : (verifyLoop lba48 device io lba sectors lba sectors).1 = x - lba + 1 := h.first x hx
    have hle := hx.le
    omega
  · rintro ⟨hreach, hbound⟩
    obtain ⟨hnone, hfirst, hcommands⟩ := verifyLoop_finds lba hdrive hdevice (le_refl sectors) hwithin hreach
    have hresult : ∀ x, FirstBad bad lba sectors x →
        (verifyLoop lba48 device io lba sectors lba sectors).1 = x - lba + 1 := by
      intro x hx
      have hle := hx.le
      have hlt := hx.lt
      have hbound := hbound x hx
      rw [hfirst x hx]
      have hword : (x % space lba48 + 2 ^ 32 - lba + 1) % 2 ^ 32 = x - lba + 1 := by
        cases lba48 with
        | true =>
          change (x % 2 ^ 32 + 2 ^ 32 - lba + 1) % 2 ^ 32 = x - lba + 1
          omega
        | false =>
          have hmode : lba + sectors ≤ 2 ^ 28 := hmode
          change (x % 2 ^ 28 + 2 ^ 32 - lba + 1) % 2 ^ 32 = x - lba + 1
          omega
      rw [signed, hword, if_pos hbound]
      omega
    refine ⟨⟨fun hzero x hle hlt hbad => ?_, hnone⟩, hresult, hcommands⟩
    rcases firstBad_or bad lba sectors with hgood | ⟨y, hy⟩
    · exact hgood x hle hlt hbad
    · have hzero : (verifyLoop lba48 device io lba sectors lba sectors).1 = 0 := hzero
      have hle' := hy.le
      rw [hresult y hy] at hzero
      omega

/-- A drive on which one sector is bad. -/
def oneBadDrive (lba48 : Bool) (badLba : Nat) (c : Command) : Answer :=
  if c.lba lba48 ≤ badLba ∧ badLba < c.lba lba48 + c.count lba48 then
    ⟨0, ATA_RES_ERR_IO, ATA_ERR_ECC, badLba, badLba / 2 ^ 8, badLba / 2 ^ 16, badLba / 2 ^ 24, badLba / 2 ^ 24⟩
  else ⟨0, 0, 0, 0, 0, 0, 0, 0⟩

theorem oneBadDrive_drive (lba48 : Bool) (device badLba : Nat) :
    Drive lba48 device (fun x => x = badLba) (oneBadDrive lba48 badLba) := by
  refine ⟨fun c _ => ?_, fun c _ hgood => ?_, fun c x _ hfirst => ?_⟩
  · unfold oneBadDrive
    split
    · rfl
    · rfl
  · rw [oneBadDrive, if_neg fun h => hgood badLba h.1 h.2 rfl]
  · obtain rfl : x = badLba := hfirst.fails
    rw [oneBadDrive, if_pos ⟨hfirst.le, hfirst.lt⟩]
    refine ⟨rfl, (by decide : ATA_ERR_ECC &&& ATA_ERR_ECC ≠ 0), rfl, rfl, rfl, ?_⟩
    cases lba48 <;> rfl

/-- The second of four sectors is bad. -/
theorem ata_device_read_verify_finds_four :
    ata_device_read_verify true 0 (oneBadDrive true 0x12345679) 0x12345678 4 =
      (2, [verifyCommand true 0 0x12345678 4]) ∧
    (Finds true (fun x => x = 0x12345679) 0x12345678 4
      (ata_device_read_verify true 0 (oneBadDrive true 0x12345679) 0x12345678 4) ↔
      Reachable true (fun x => x = 0x12345679) 0x12345678 4 ∧
        ∀ x, FirstBad (fun x => x = 0x12345679) 0x12345678 4 x → x - 0x12345678 + 1 < 2 ^ 31) :=
  ⟨by decide, ata_device_read_verify_finds (oneBadDrive_drive true 0 _) (by decide) (by decide) (by decide) (by unfold Addresses; decide)⟩

/-- A bad sector 2^31 - 1 sectors behind the first one: the result is negative. -/
theorem not_finds : ¬ ∀ (lba48 : Bool) (device : Nat) (bad : Nat → Prop) (io : Command → Answer) (lba sectors : Nat),
    Drive lba48 device bad io → device < 2 → lba < 2 ^ 32 → sectors < 2 ^ 32 → Addresses lba48 lba sectors →
    Finds lba48 bad lba sectors (ata_device_read_verify lba48 device io lba sectors) := by
  intro h
  have hdrive := oneBadDrive_drive true 0 (2 ^ 31 - 1)
  have hmode : Addresses true 0 (2 ^ 31) := by
    unfold Addresses
    decide
  have hfinds := h true 0 _ _ 0 (2 ^ 31) hdrive (by decide) (by decide) (by decide) hmode
  have hbound := ((ata_device_read_verify_finds hdrive (by decide) (by decide) (by decide) hmode).mp hfinds).2
    (2 ^ 31 - 1) ⟨by decide, by decide, rfl, fun y _ hlt heq => by omega⟩
  exact absurd hbound (by decide)

end HddChecker.Hdst
