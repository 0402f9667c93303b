import Mathlib.Algebra.Order.Ring.Nat
import Mathlib.Data.Fin.VecNotation
import Mathlib.Data.Fintype.Basic
import Mathlib.Tactic.Common

/-!
# Sectors and partition headers

The records of `libapa.h` as the drive holds them. A sector is its 128 words of 32 bits. A partition header is a record of two sectors: everything up to and including the `mbr` part lies in the first, the list of sub-partitions in the second. Byte strings are kept as the words they fill.
-/

namespace HddChecker

/-- A 512-byte sector, as the 128 words it is made of. -/
abbrev Sector := Fin 128 → Nat

instance Sector.neZero : NeZero 128 := ⟨by decide⟩

/-- A value as it fits a `u32`. -/
abbrev u32 (n : Nat) : Nat := n % 2 ^ 32

def Sector.zero : Sector := fun _ => 0

def EIO : Int := 5

namespace Apa

def APA_SECTOR_MBR : Nat := 0
def APA_SECTOR_SECTOR_ERROR : Nat := 6
def APA_SECTOR_APAL : Nat := 8
def APA_SECTOR_APAL_HEADERS : Nat := 10
def APA_MAGIC : Nat := 0x00415041
def APAL_MAGIC : Nat := 0x4150414C
def APA_TYPE_FREE : UInt16 := 0
def APA_TYPE_HDLFS : UInt16 := 0x1337
def APA_FLAG_SUB : UInt16 := 1

/-- `apa_sub_t` -/
structure ApaSub where
  start : Nat
  length : Nat
  deriving DecidableEq, Repr

/-- `apa_header_t` -/
structure ApaHeader where
  checksum : Nat
  magic : Nat
  next : Nat
  prev : Nat
  id : Fin 8 → Nat
  rpwd : Fin 2 → Nat
  fpwd : Fin 2 → Nat
  start : Nat
  length : Nat
  type : UInt16
  flags : UInt16
  nsub : Nat
  created : Fin 2 → Nat
  main : Nat
  number : Nat
  modver : Nat
  pading : Fin 39 → Nat
  mbr : Fin 64 → Nat
  subs : Fin 64 → ApaSub
  deriving DecidableEq

namespace ApaHeader

/-- A header after `memset(header, 0, sizeof(apa_header_t))`. -/
def zero : ApaHeader where
  checksum := 0
  magic := 0
  next := 0
  prev := 0
  id := fun _ => 0
  rpwd := fun _ => 0
  fpwd := fun _ => 0
  start := 0
  length := 0
  type := 0
  flags := 0
  nsub := 0
  created := fun _ => 0
  main := 0
  number := 0
  modver := 0
  pading := fun _ => 0
  mbr := fun _ => 0
  subs := fun _ => ⟨0, 0⟩

instance : Inhabited ApaHeader := ⟨zero⟩

/-- `header->subs[i]`. What lies behind the 64 records belongs to another buffer and is not modelled. -/
def sub (h : ApaHeader) (i : Nat) : ApaSub := if hi : i < 64 then h.subs ⟨i, hi⟩ else ⟨0, 0⟩

/-- `header->flags & APA_FLAG_SUB` -/
def isSub (h : ApaHeader) : Bool := h.flags &&& APA_FLAG_SUB != 0

/-- `header->type == APA_TYPE_FREE` -/
def isFree (h : ApaHeader) : Bool := h.type == APA_TYPE_FREE

/-- The first sector of a header. -/
def first (h : ApaHeader) : Sector := fun i =>
  if i.val = 0 then h.checksum
  else if i.val = 1 then h.magic
  else if i.val = 2 then h.next
  else if i.val = 3 then h.prev
  else if _ : i.val < 12 then h.id ⟨i.val - 4, by omega⟩
  else if _ : i.val < 14 then h.rpwd ⟨i.val - 12, by omega⟩
  else if _ : i.val < 16 then h.fpwd ⟨i.val - 14, by omega⟩
  else if i.val = 16 then h.start
  else if i.val = 17 then h.length
  else if i.val = 18 then h.type.toNat + 65536 * h.flags.toNat
  else if i.val = 19 then h.nsub
  else if _ : i.val < 22 then h.created ⟨i.val - 20, by omega⟩
  else if i.val = 22 then h.main
  else if i.val = 23 then h.number
  else if i.val = 24 then h.modver
  else if _ : i.val < 64 then h.pading ⟨i.val - 25, by omega⟩
  else h.mbr ⟨i.val - 64, by omega⟩

/-- The second sector of a header. -/
def second (h : ApaHeader) : Sector := fun i =>
  if i.val % 2 = 0 then (h.subs ⟨i.val / 2, by omega⟩).start
  else (h.subs ⟨i.val / 2, by omega⟩).length

def ofSectors (a b : Sector) : ApaHeader where
  checksum := a 0
  magic := a 1
  next := a 2
  prev := a 3
  id := fun i => a ⟨i.val + 4, by omega⟩
  rpwd := fun i => a ⟨i.val + 12, by omega⟩
  fpwd := fun i => a ⟨i.val + 14, by omega⟩
  start := a 16
  length := a 17
  type := UInt16.ofNat (a 18 % 65536)
  flags := UInt16.ofNat (a 18 / 65536)
  nsub := a 19
  created := fun i => a ⟨i.val + 20, by omega⟩
  main := a 22
  number := a 23
  modver := a 24
  pading := fun i => a ⟨i.val + 25, by omega⟩
  mbr := fun i => a ⟨i.val + 64, by omega⟩
  subs := fun i => ⟨b ⟨2 * i.val, by omega⟩, b ⟨2 * i.val + 1, by omega⟩⟩

/-- Word `i` of the header, seen as an array of words. -/
def word (h : ApaHeader) (i : Nat) : Nat :=
  if hi : i < 128 then h.first ⟨i, hi⟩
  else if hi : i - 128 < 128 then h.second ⟨i - 128, hi⟩
  else 0

private theorem type_ofNat (h : ApaHeader) :
    UInt16.ofNat ((h.type.toNat + 65536 * h.flags.toNat) % 65536) = h.type := by
  rw [Nat.add_mul_mod_self_left, Nat.mod_eq_of_lt h.type.toNat_lt, UInt16.ofNat_toNat]

private theorem flags_ofNat (h : ApaHeader) :
    UInt16.ofNat ((h.type.toNat + 65536 * h.flags.toNat) / 65536) = h.flags := by
  have htype := h.type.toNat_lt
  rw [Nat.add_mul_div_left _ _ (by decide), Nat.div_eq_of_lt htype, Nat.zero_add,
    UInt16.ofNat_toNat]

/-- Reading the two sectors a header was written to gives the header back. -/
@[simp] theorem ofSectors_first_second (h : ApaHeader) : ofSectors h.first h.second = h := by
  have hsubs : (fun i : Fin 64 => (⟨h.second ⟨2 * i.val, by omega⟩,
      h.second ⟨2 * i.val + 1, by omega⟩⟩ : ApaSub)) = h.subs := by
    funext i
    have hdiv : (2 * i.val + 1) / 2 = i.val := by omega
    simp [second, hdiv]
  cases h with
  | mk checksum magic next prev id rpwd fpwd start length type flags nsub created main number
      modver pading mbr subs =>
    simp only [ofSectors, hsubs, mk.injEq]
    refine ⟨rfl, rfl, rfl, rfl, ?_, ?_, ?_, rfl, rfl, type_ofNat _, flags_ofNat _, rfl, ?_, rfl,
      rfl, rfl, ?_, ?_, trivial⟩
    · funext i
      have hi : i.val < 8 := i.isLt
      simp [first, show i.val + 4 < 12 by omega, show i.val + 4 ≠ 3 by omega]
    · funext i
      have hi : i.val < 2 := i.isLt
      simp [first, show i.val + 12 < 14 by omega, show ¬ i.val + 12 < 12 by omega]
    · funext i
      have hi : i.val < 2 := i.isLt
      simp [first, show i.val + 14 < 16 by omega, show ¬ i.val + 14 < 12 by omega,
        show ¬ i.val + 14 < 14 by omega]
    · funext i
      have hi : i.val < 2 := i.isLt
      simp [first, show i.val + 20 < 22 by omega, show ¬ i.val + 20 < 12 by omega,
        show ¬ i.val + 20 < 14 by omega, show ¬ i.val + 20 < 16 by omega]
    · funext i
      have hi : i.val < 39 := i.isLt
      simp [first, show i.val + 25 < 64 by omega, show ¬ i.val + 25 < 12 by omega,
        show ¬ i.val + 25 < 14 by omega, show ¬ i.val + 25 < 16 by omega,
        show ¬ i.val + 25 < 22 by omega]
    · funext i
      simp [first, show ¬ i.val + 64 < 12 by omega,
        show ¬ i.val + 64 < 14 by omega, show ¬ i.val + 64 < 16 by omega,
        show ¬ i.val + 64 < 22 by omega]

end ApaHeader

/-- `apaCheckSum`: the sum of all words but the first. -/
def apaCheckSum (header : ApaHeader) : Nat :=
  u32 (((List.range' 1 255).map header.word).sum)

/-- The header with the checksum `apaJournalWrite` puts into it. -/
def ApaHeader.sealed (h : ApaHeader) : ApaHeader := { h with checksum := apaCheckSum h }

theorem ApaHeader.word_checksum (h : ApaHeader) (c : Nat) {i : Nat} (hi : 1 ≤ i) :
    ({ h with checksum := c } : ApaHeader).word i = h.word i := by
  unfold word
  split
  · have hne : ¬ i = 0 := by omega
    simp only [first, hne, if_false]
  · rfl

/-- The checksum leaves out its own field. -/
@[simp] theorem apaCheckSum_sealed (h : ApaHeader) : apaCheckSum h.sealed = apaCheckSum h := by
  have hwords : (List.range' 1 255).map h.sealed.word = (List.range' 1 255).map h.word := by
    refine List.map_congr_left fun i hi => ?_
    have hi' := (List.mem_range'_1.mp hi).1
    exact h.word_checksum _ hi'
  rw [apaCheckSum, hwords, apaCheckSum]

-- comparing headers field by field must not start to add up their words
attribute [irreducible] apaCheckSum

namespace ApaHeader

@[simp] theorem sealed_checksum (h : ApaHeader) : h.sealed.checksum = apaCheckSum h := rfl

@[simp] theorem sealed_magic (h : ApaHeader) : h.sealed.magic = h.magic := rfl

@[simp] theorem sealed_next (h : ApaHeader) : h.sealed.next = h.next := rfl

@[simp] theorem sealed_prev (h : ApaHeader) : h.sealed.prev = h.prev := rfl

@[simp] theorem sealed_start (h : ApaHeader) : h.sealed.start = h.start := rfl

@[simp] theorem sealed_mbr (h : ApaHeader) : h.sealed.mbr = h.mbr := rfl

end ApaHeader

/-- `apaMBRMagic`, "Sony Computer Entertainment Inc." -/
def apaMBRMagic : Fin 8 → Nat :=
  ![0x796e6f53, 0x6d6f4320, 0x65747570, 0x6e452072, 0x74726574, 0x6d6e6961, 0x20746e65, 0x2e636e49]

/-- `strncmp(header->mbr.magic, apaMBRMagic, sizeof(header->mbr.magic)) == 0` -/
def ApaHeader.hasMBRMagic (h : ApaHeader) : Bool :=
  decide (∀ i : Fin 8, h.mbr ⟨i.val, by omega⟩ = apaMBRMagic i)

/-- The tests `apaReadHeader` makes of a header read from `lba`. -/
def ApaHeader.accepted (h : ApaHeader) (lba : Nat) : Bool :=
  h.magic == APA_MAGIC && apaCheckSum h == h.checksum && (lba != APA_SECTOR_MBR || h.hasMBRMagic)

/-- `apaReadHeader`: the header at `lba`, or nothing where it answers with an error. -/
def apaReadHeader (disk : Nat → Option Sector) (lba : Nat) : Option ApaHeader :=
  match disk lba, disk (lba + 1) with
  | some a, some b =>
    let header := ApaHeader.ofSectors a b
    if header.accepted lba then some header else none
  | _, _ => none

theorem apaReadHeader_congr {disk disk' : Nat → Option Sector} {lba : Nat}
    (h0 : disk' lba = disk lba) (h1 : disk' (lba + 1) = disk (lba + 1)) :
    apaReadHeader disk' lba = apaReadHeader disk lba := by
  rw [apaReadHeader, apaReadHeader, h0, h1]

theorem apaReadHeader_of_sectors {disk : Nat → Option Sector} {lba : Nat} {h : ApaHeader}
    (h0 : disk lba = some h.first) (h1 : disk (lba + 1) = some h.second)
    (hacc : h.accepted lba = true) : apaReadHeader disk lba = some h := by
  simp [apaReadHeader, h0, h1, hacc]

end Apa

end HddChecker
