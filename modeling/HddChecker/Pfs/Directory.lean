import HddChecker.Lib.Bytes
import HddChecker.Lib.Records
import HddChecker.Pfs.Bitmap
import Mathlib.Data.Nat.Bitwise

/-!
# Directories

The functions of `dir.c` that look for an entry of a directory, add one and remove one. A directory is what the cache shows of it, byte by byte; an entry stays in its sector of 512 bytes, and the entries of a sector fill it. Blocks of 1024 bytes that cannot be read are given with each call.
-/

namespace HddChecker.Pfs

open Bytes Records

/-- A directory by its size and its bytes. -/
structure Directory where
  size : Nat
  bytes : Nat → UInt8

/-- `sizeof(pfs_dentry_t)` -/
abbrev DENTRY_SIZE : Nat := 512

/-- `pfsMetaSize` -/
abbrev META_SIZE : Nat := 1024

abbrev FIO_S_IFMT : Nat := 0xF000

abbrev FIO_S_IFDIR : Nat := 0x1000

/-! ### Entries -/

section Entries

variable (b : Nat → UInt8) (d : Nat)

def inodeAt : Nat := Bytes.u32 b d

def subAt : Nat := (b (d + 4)).toNat

def pLenAt : Nat := (b (d + 5)).toNat

def aLenAt : Nat := Bytes.u16 b (d + 6)

def pathAt : List UInt8 := take b (d + 8) (pLenAt b d)

/-- The length of an entry: `aLen & 0xFFF` -/
def sizeAt : Nat := aLenAt b d &&& 0xFFF

/-- The kind of file an entry is for: `aLen & FIO_S_IFMT` -/
def modeAt : Nat := aLenAt b d &&& FIO_S_IFMT

variable (n : Nat)

def setInode : Nat → UInt8 := put b d (le32 n)

def setSub : Nat → UInt8 := put b (d + 4) [UInt8.ofNat n]

def setPLen : Nat → UInt8 := put b (d + 5) [UInt8.ofNat n]

def setALen : Nat → UInt8 := put b (d + 6) (le16 n)

end Entries

/-- `(pLen + 8 + 3) & 0x1FC` -/
def dentryLen (pLen : Nat) : Nat := (pLen + 11) &&& 0x1FC

/-- `(len + 8 + 3) & ~3` -/
def new_dentryLen (len : Nat) : Nat := (len + 11) / 4 * 4

theorem dentryLen_eq {pLen : Nat} (h : pLen < 256) : dentryLen pLen = new_dentryLen pLen := by
  have hall : ∀ p : Fin 256, dentryLen p.val = new_dentryLen p.val := by decide +kernel
  exact hall ⟨pLen, h⟩

theorem pLenAt_lt (b : Nat → UInt8) (d : Nat) : pLenAt b d < 256 := (b (d + 5)).toNat_lt

theorem dentryLen_pos (b : Nat → UInt8) (d : Nat) : pLenAt b d + 8 ≤ dentryLen (pLenAt b d) := by
  rw [dentryLen_eq (pLenAt_lt b d), new_dentryLen]
  omega

/-! ### Looking for an entry -/

/-- What `pfsGetDentry` looks for, by its `option`. -/
inductive Wanted where
  | path (name : List UInt8)
  | room (name : List UInt8)
  | file

/-- The criteria of `pfsGetDentry`. A path in an entry is compared with the names of the directory and of its parent up to a zero behind it. -/
def Wanted.meets (b : Nat → UInt8) : Wanted → Nat → Bool
  | .path name, d => name.length = pLenAt b d ∧ name = pathAt b d
  | .room name, d =>
    if inodeAt b d ≠ 0 ∨ sizeAt b d < new_dentryLen name.length then
      new_dentryLen name.length ≤ sizeAt b d - dentryLen (pLenAt b d)
    else true
  | .file, d => pLenAt b d ≠ 0 ∧ take b (d + 8) 2 ≠ [46, 0] ∧ take b (d + 8) 3 ≠ [46, 46, 0]

/-- What becomes of the scan of a sector. -/
inductive Scan where
  | found (d : Nat)
  | through
  | exit
  deriving DecidableEq

/-- The scan of `pfsGetDentry` through a sector, from `d` to `d2`. -/
def scanSector (b : Nat → UInt8) (w : Wanted) (d2 d : Nat) : Scan :=
  if d < d2 then
    if sizeAt b d &&& 3 ≠ 0 then .exit
    else if sizeAt b d < dentryLen (pLenAt b d) then .exit
    else if d2 < d + sizeAt b d then .exit
    else if w.meets b d then .found d
    else scanSector b w d2 (d + sizeAt b d)
  else .through
termination_by d2 - d
decreasing_by
  have hpos := dentryLen_pos b d
  omega

/-- `pfsGetDentry` from `d` on, the start of a sector: the place of the entry in the directory. Its `size` is this place too, as both start at 0 and go on by the same lengths. -/
def getDentryFrom (reads : Nat → Bool) (dir : Directory) (w : Wanted) (d : Nat) : Option Nat :=
  if d < dir.size then
    if reads (d / META_SIZE) then
      match scanSector dir.bytes w (d + 512) d with
      | .found p => some p
      | .through => getDentryFrom reads dir w (d + 512)
      | .exit => none
    else none
  else none
termination_by dir.size - d
decreasing_by omega

def pfsGetDentry (reads : Nat → Bool) (dir : Directory) (w : Wanted) : Option Nat := getDentryFrom reads dir w 0

def pfsCheckDirForFiles (reads : Nat → Bool) (dir : Directory) : Int :=
  if (pfsGetDentry reads dir .file).isSome then 0 else 1

/-! ### Changing a directory -/

def pfsFillDentry (b : Nat → UInt8) (d : Nat) (path1 : List UInt8) (bi : pfs_blockinfo_t) (len mode : Nat) :
    Nat → UInt8 :=
  let b := setInode b d bi.number
  let b := setSub b d bi.subpart
  let b := setPLen b d path1.length
  let b := setALen b d (len ||| (mode &&& FIO_S_IFMT))
  put b (d + 8) (path1.take (path1.length % 256))

/-- What `pfsAllocZones` and `pfsGetDentriesAtPos` answer where a directory has to grow. -/
structure Growth where
  pfsAllocZones : Int
  pfsGetDentriesAtPos : Int

/-- `pfsDirAddEntry`: the place of the new entry, or what is wrong. -/
def pfsDirAddEntry (reads : Nat → Bool) (g : Growth) (dir : Directory) (filename : List UInt8)
    (bi : pfs_blockinfo_t) (mode : Nat) : Except Int Nat × Directory :=
  match pfsGetDentry reads dir (.room filename) with
  | some d =>
    let len := if pLenAt dir.bytes d ≠ 0 then sizeAt dir.bytes d - dentryLen (pLenAt dir.bytes d)
      else sizeAt dir.bytes d
    let b := setALen dir.bytes d (modeAt dir.bytes d ||| (sizeAt dir.bytes d - len))
    let dentry := d + sizeAt b d
    (.ok dentry, { dir with bytes := pfsFillDentry b dentry filename bi len mode })
  | none =>
    if g.pfsAllocZones < 0 then (.error g.pfsAllocZones, dir)
    else if g.pfsGetDentriesAtPos ≠ 0 then (.error g.pfsGetDentriesAtPos, dir)
    else
      (.ok dir.size, ⟨dir.size + DENTRY_SIZE, pfsFillDentry dir.bytes dir.size filename bi DENTRY_SIZE mode⟩)

/-- The loop of `pfsDirRemoveEntry` over the sector of `dentry`: the entry before it there, if any. A pass goes on by 8 bytes at least. -/
def dlastOf (b : Nat → UInt8) (dentry : Nat) : Nat → Nat → Nat → Option Nat → Option (Option Nat)
  | 0, _, _, _ => none
  | n + 1, dnext, i, dlast =>
    if dnext = dentry then some dlast
    else if i + sizeAt b dnext < 512 then
      dlastOf b dentry n (dnext + sizeAt b dnext) (i + sizeAt b dnext) (some dnext)
    else none

/-- `pfsDirRemoveEntry`: whether there was something to remove. -/
def pfsDirRemoveEntry (reads : Nat → Bool) (dir : Directory) (path : List UInt8) : Bool × Directory :=
  match pfsGetDentry reads dir (.path path) with
  | none => (false, dir)
  | some dentry =>
    match dlastOf dir.bytes dentry 64 (dentry / 512 * 512) 0 none with
    | none => (false, dir)
    | some (some dlast) =>
      (true, { dir with
        bytes := setALen dir.bytes dlast
          (modeAt dir.bytes dlast ||| (sizeAt dir.bytes dlast + sizeAt dir.bytes dentry)) })
    | some none =>
      let aLen := sizeAt dir.bytes dentry
      (true, ⟨if dir.size ≤ dentry + aLen then dir.size - aLen else dir.size,
        setPLen (setInode dir.bytes dentry 0) dentry 0⟩)

/-- The fields `pfsFillSelfAndParentDentries` sets of `.` or `..`, with a zero behind the path. -/
def fillDots (b : Nat → UInt8) (d : Nat) (bi : pfs_blockinfo_t) (path : List UInt8) (aLen : Nat) : Nat → UInt8 :=
  put (pfsFillDentry b d path bi aLen FIO_S_IFDIR) (d + 8 + path.length) [0]

def pfsFillSelfAndParentDentries (self parent : pfs_blockinfo_t) : Nat → UInt8 :=
  fillDots (fillDots (fun _ => 0) 0 self [46] 12) 12 parent [46, 46] 500

/-- A directory as it is made: one sector of its first block, as `pfsInodeFill` has it. -/
def Directory.fresh (self parent : pfs_blockinfo_t) : Directory :=
  ⟨DENTRY_SIZE, pfsFillSelfAndParentDentries self parent⟩

/-! ### The fields of an entry -/

structure Ref where
  inode : Nat
  sub : Nat
  mode : Nat

/-- An entry as its readers see it, but for its length. -/
def entryAt (b : Nat → UInt8) (d : Nat) : List UInt8 × Ref := (pathAt b d, ⟨inodeAt b d, subAt b d, modeAt b d⟩)

variable {b b' : Nat → UInt8} {d n len mode : Nat} {path : List UInt8} {bi : pfs_blockinfo_t}

theorem sizeAt_lt : sizeAt b d < 4096 := by
  rw [sizeAt, show (0xFFF : Nat) = 2 ^ 12 - 1 from rfl, Nat.and_two_pow_sub_one_eq_mod]
  exact Nat.mod_lt _ (by decide)

@[simp] theorem length_pathAt : (pathAt b d).length = pLenAt b d := length_take

/-- A length and a kind of file share a word. -/
theorem pack_size (h : len < 4096) : ((mode &&& FIO_S_IFMT) ||| len) % 65536 &&& 0xFFF = len := by
  rw [show (0xFFF : Nat) = 2 ^ 12 - 1 from rfl, Nat.and_two_pow_sub_one_eq_mod, Nat.mod_mod_of_dvd _ (by decide),
    ← Nat.and_two_pow_sub_one_eq_mod, Nat.and_or_distrib_right, Nat.and_assoc]
  rw [show FIO_S_IFMT &&& (2 ^ 12 - 1) = 0 from rfl, Nat.and_zero, Nat.zero_or, Nat.and_two_pow_sub_one_eq_mod]
  exact Nat.mod_eq_of_lt h

theorem pack_mode (h : len < 4096) : ((mode &&& FIO_S_IFMT) ||| len) % 65536 &&& FIO_S_IFMT = mode &&& FIO_S_IFMT := by
  have hlen : len &&& FIO_S_IFMT = 0 := by
    rw [← Nat.mod_eq_of_lt h, show (4096 : Nat) = 2 ^ 12 from rfl, ← Nat.and_two_pow_sub_one_eq_mod, Nat.and_assoc]
    exact Nat.and_zero len
  rw [show (65536 : Nat) = 2 ^ 16 from rfl, ← Nat.and_two_pow_sub_one_eq_mod, Nat.and_assoc,
    show (2 ^ 16 - 1) &&& FIO_S_IFMT = FIO_S_IFMT from rfl, Nat.and_or_distrib_right, hlen, Nat.or_zero, Nat.and_assoc,
    Nat.and_self]

/-- The bytes of two buffers from `d` on are the same. -/
def Agree (b b' : Nat → UInt8) (d n : Nat) : Prop := ∀ i, d ≤ i → i < d + n → b' i = b i

theorem Agree.mono {m : Nat} (h : Agree b b' d n) (hle : m ≤ n) : Agree b b' d m := fun i hi hlt => h i hi (by omega)

theorem Agree.aLenAt_eq (h : Agree b b' d 8) : aLenAt b' d = aLenAt b d :=
  u16_congr (h _ (by omega) (by omega)) (h _ (by omega) (by omega))

theorem Agree.sizeAt_eq (h : Agree b b' d 8) : sizeAt b' d = sizeAt b d := congrArg (· &&& 0xFFF) h.aLenAt_eq

theorem Agree.pLenAt_eq (h : Agree b b' d 8) : pLenAt b' d = pLenAt b d :=
  congrArg UInt8.toNat (h _ (by omega) (by omega))

theorem Agree.inodeAt_eq (h : Agree b b' d 8) : inodeAt b' d = inodeAt b d :=
  u32_congr fun _ _ => h _ (by omega) (by omega)

/-- The bytes of its header and its path are all that an entry rests on. -/
theorem Agree.entryAt_eq (h : Agree b b' d (8 + pLenAt b d)) : entryAt b' d = entryAt b d := by
  have hhead := h.mono (Nat.le_add_right 8 _)
  have hpath : pathAt b' d = pathAt b d := by
    rw [pathAt, pathAt, hhead.pLenAt_eq]
    exact take_congr fun k hk => h _ (by omega) (by omega)
  have hsub : subAt b' d = subAt b d := congrArg UInt8.toNat (hhead _ (by omega) (by omega))
  have hmode : modeAt b' d = modeAt b d := congrArg (· &&& FIO_S_IFMT) hhead.aLenAt_eq
  rw [entryAt, hpath, hhead.inodeAt_eq, hsub, hmode]
  rfl

/-- The header of an entry in its bytes. -/
def header (path : List UInt8) (bi : pfs_blockinfo_t) (len mode : Nat) : List UInt8 :=
  le32 bi.number ++ [UInt8.ofNat bi.subpart] ++ [UInt8.ofNat path.length] ++ le16 (len ||| (mode &&& FIO_S_IFMT))

theorem pfsFillDentry_eq (h : path.length < 256) :
    pfsFillDentry b d path bi len mode = put b d (header path bi len mode ++ path) := by
  have hpath : path.take (path.length % 256) = path := by rw [Nat.mod_eq_of_lt h, List.take_length]
  rw [pfsFillDentry, hpath]
  unfold setInode setSub setPLen setALen header
  simp only [← put_append (m := path), ← put_append (m := le16 _), ← put_append (m := [_])]
  simp only [List.length_append, length_le32, length_le16, List.length_cons, List.length_nil, Nat.add_assoc]

theorem pfsFillDentry_outside (h : path.length < 256) {i : Nat} (hi : i < d ∨ d + 8 + path.length ≤ i) :
    pfsFillDentry b d path bi len mode i = b i := by
  rw [pfsFillDentry_eq h]
  refine put_outside (hi.imp_right fun hi => ?_)
  rw [List.length_append, show (header path bi len mode).length = 8 from rfl]
  omega

theorem pLenAt_fill (h : path.length < 256) : pLenAt (pfsFillDentry b d path bi len mode) d = path.length := by
  have hbyte : pfsFillDentry b d path bi len mode (d + 5) = UInt8.ofNat path.length := by
    rw [pfsFillDentry_eq h]
    exact put_at (show 5 < (header path bi len mode ++ path).length by
      rw [List.length_append, show (header path bi len mode).length = 8 from rfl]
      omega)
  rw [pLenAt, hbyte, UInt8.toNat_ofNat', Nat.mod_eq_of_lt (by omega)]

theorem aLenAt_fill (h : path.length < 256) :
    aLenAt (pfsFillDentry b d path bi len mode) d = (len ||| (mode &&& FIO_S_IFMT)) % 65536 := by
  refine u16_le16 ?_
  rw [pfsFillDentry_eq h]
  exact take_put_append (p := le32 bi.number ++ [UInt8.ofNat bi.subpart] ++ [UInt8.ofNat path.length])

theorem sizeAt_fill (h : path.length < 256) (hlen : len < 4096) :
    sizeAt (pfsFillDentry b d path bi len mode) d = len := by
  rw [sizeAt, aLenAt_fill h, Nat.or_comm, pack_size hlen]

/-- An entry is read as it was written. -/
theorem entryAt_fill (h : path.length < 256) (hlen : len < 4096) (hnumber : bi.number < 2 ^ 32)
    (hsubpart : bi.subpart < 256) : entryAt (pfsFillDentry b d path bi len mode) d =
      (path, ⟨bi.number, bi.subpart, mode &&& FIO_S_IFMT⟩) := by
  have hpath : pathAt (pfsFillDentry b d path bi len mode) d = path := by
    rw [pathAt, pLenAt_fill h, pfsFillDentry_eq h]
    have hread := take_put_append (b := b) (o := d) (p := header path bi len mode) (l := path) (q := [])
    rwa [List.append_nil] at hread
  have hinode : inodeAt (pfsFillDentry b d path bi len mode) d = bi.number := by
    rw [inodeAt, u32_le32 (n := bi.number), Nat.mod_eq_of_lt hnumber]
    rw [pfsFillDentry_eq h]
    exact take_put_append (p := []) (l := le32 bi.number)
  have hsub : subAt (pfsFillDentry b d path bi len mode) d = bi.subpart := by
    have hbyte : pfsFillDentry b d path bi len mode (d + 4) = UInt8.ofNat bi.subpart := by
      rw [pfsFillDentry_eq h]
      exact put_at (show 4 < (header path bi len mode ++ path).length by
        rw [List.length_append, show (header path bi len mode).length = 8 from rfl]
        omega)
    rw [subAt, hbyte, UInt8.toNat_ofNat', Nat.mod_eq_of_lt (by omega)]
  have hmode : modeAt (pfsFillDentry b d path bi len mode) d = mode &&& FIO_S_IFMT := by
    rw [modeAt, aLenAt_fill h, Nat.or_comm, pack_mode hlen]
  rw [entryAt, hpath, hinode, hsub, hmode]

theorem pLenAt_of_entryAt {d' : Nat} (h : entryAt b' d' = entryAt b d) : pLenAt b' d' = pLenAt b d := by
  rw [← length_pathAt, ← length_pathAt]
  exact congrArg (fun e => e.1.length) h

theorem inodeAt_of_entryAt {d' : Nat} (h : entryAt b' d' = entryAt b d) : inodeAt b' d' = inodeAt b d :=
  congrArg (fun e => e.2.inode) h

theorem setALen_outside {i : Nat} (hi : i < d + 6 ∨ d + 8 ≤ i) : setALen b d n i = b i := put_outside hi

theorem aLenAt_setALen : aLenAt (setALen b d n) d = n % 65536 := u16_le16 take_put

/-- An entry with another length is the same for its readers. -/
theorem entryAt_setALen (h : len < 4096) : entryAt (setALen b d (modeAt b d ||| len)) d = entryAt b d := by
  have hsame : ∀ i, i < d + 6 ∨ d + 8 ≤ i → setALen b d (modeAt b d ||| len) i = b i := fun i => setALen_outside
  have hpLen : pLenAt (setALen b d (modeAt b d ||| len)) d = pLenAt b d :=
    congrArg UInt8.toNat (hsame _ (by omega))
  have hpath : pathAt (setALen b d (modeAt b d ||| len)) d = pathAt b d := by
    rw [pathAt, pathAt, hpLen]
    exact take_congr fun k _ => hsame _ (by omega)
  have hinode : inodeAt (setALen b d (modeAt b d ||| len)) d = inodeAt b d :=
    u32_congr fun k hk => hsame _ (by omega)
  have hsub : subAt (setALen b d (modeAt b d ||| len)) d = subAt b d := congrArg UInt8.toNat (hsame _ (by omega))
  have hmode : modeAt (setALen b d (modeAt b d ||| len)) d = modeAt b d := by
    rw [modeAt, aLenAt_setALen]
    exact pack_mode h
  rw [entryAt, hpath, hinode, hsub, hmode]
  rfl

theorem sizeAt_setALen (h : len < 4096) : sizeAt (setALen b d (modeAt b d ||| len)) d = len := by
  rw [sizeAt, aLenAt_setALen]
  exact pack_size h

end HddChecker.Pfs
