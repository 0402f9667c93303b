import Mathlib.Data.List.Basic
import Mathlib.Tactic.Common

/-!
# Encrypted passwords

`apaEncryptPassword` of `password.c`: the first eight bytes of the name of a partition are encrypted with its password. Every value of 64 bits is kept in two words. Where the source shifts a word by 32 bits and more, or by less than none, the processor takes the count modulo 32.
-/

namespace HddChecker.Apa.Password

/-- `struct KeyPair`: 64 bits in two words. -/
structure KeyPair where
  lo : BitVec 32
  hi : BitVec 32
  deriving DecidableEq

/-- A word shifted to the left by a variable. -/
def shl (x : BitVec 32) (shift : Int) : BitVec 32 := x <<< (shift % 32).toNat

/-- A word shifted to the right by a variable. -/
def shr (x : BitVec 32) (shift : Int) : BitVec 32 := x >>> (shift % 32).toNat

/-! ### Tables -/

def PC1 : List Nat :=
  [57, 49, 41, 33, 25, 17, 9, 1, 58, 50, 42, 34, 26, 18, 10, 2, 59, 51, 43, 35, 27, 19, 11, 3, 60, 52, 44, 36,
   63, 55, 47, 39, 31, 23, 15, 7, 62, 54, 46, 38, 30, 22, 14, 6, 61, 53, 45, 37, 29, 21, 13, 5, 28, 20, 12, 4]

def Rotations : List Nat :=
  [1, 1, 2, 2, 2, 2, 2, 2, 1, 2, 2, 2, 2, 2, 2, 1]

def PC2 : List Nat :=
  [14, 17, 11, 24, 1, 5, 3, 28, 15, 6, 21, 10, 23, 19, 12, 4, 26, 8, 16, 7, 27, 20, 13, 2,
   41, 52, 31, 37, 47, 55, 30, 40, 51, 45, 33, 48, 44, 49, 39, 56, 34, 53, 46, 42, 50, 36, 29, 32]

def IP : List Nat :=
  [58, 50, 42, 34, 26, 18, 10, 2, 60, 52, 44, 36, 28, 20, 12, 4,
   62, 54, 46, 38, 30, 22, 14, 6, 64, 56, 48, 40, 32, 24, 16, 8,
   57, 49, 41, 33, 25, 17, 9, 1, 59, 51, 43, 35, 27, 19, 11, 3,
   61, 53, 45, 37, 29, 21, 13, 5, 63, 55, 47, 39, 31, 23, 15, 7]

def Expansion : List Nat :=
  [32, 1, 2, 3, 4, 5, 4, 5, 6, 7, 8, 9, 8, 9, 10, 11,
   12, 13, 12, 13, 14, 15, 16, 17, 16, 17, 18, 19, 20, 21, 20, 21,
   22, 23, 24, 25, 24, 25, 26, 27, 28, 29, 28, 29, 30, 31, 32, 1]

def Permutation : List Nat :=
  [16, 7, 20, 21, 29, 12, 28, 17, 1, 15, 23, 26, 5, 18, 31, 10,
   2, 8, 24, 14, 32, 27, 3, 9, 19, 13, 30, 6, 22, 11, 4, 25]

def FP : List Nat :=
  [40, 8, 48, 16, 56, 24, 64, 32, 39, 7, 47, 15, 55, 23, 63, 31,
   38, 6, 46, 14, 54, 22, 62, 30, 37, 5, 45, 13, 53, 21, 61, 29,
   36, 4, 44, 12, 52, 20, 60, 28, 35, 3, 43, 11, 51, 19, 59, 27,
   34, 2, 42, 10, 50, 18, 58, 26, 33, 1, 41, 9, 49, 17, 57, 25]

def sbox : List (List Nat) :=
  [[14, 4, 13, 1, 2, 15, 11, 8, 3, 10, 6, 12, 5, 9, 0, 7, 0, 15, 7, 4, 14, 2, 13, 1, 10, 6, 12, 11, 9, 5, 3, 8,
    4, 1, 14, 8, 13, 6, 2, 11, 15, 12, 9, 7, 3, 10, 5, 0, 15, 12, 8, 2, 4, 9, 1, 7, 5, 11, 3, 14, 10, 0, 6, 13],
   [15, 1, 8, 14, 6, 11, 3, 4, 9, 7, 2, 13, 12, 0, 5, 10, 3, 13, 4, 7, 15, 2, 8, 14, 12, 0, 1, 10, 6, 9, 11, 5,
    0, 14, 7, 11, 10, 4, 13, 1, 5, 8, 12, 6, 9, 3, 2, 15, 13, 8, 10, 1, 3, 15, 4, 2, 11, 6, 7, 12, 0, 5, 14, 9],
   [10, 0, 9, 14, 6, 3, 15, 5, 1, 13, 12, 7, 11, 4, 2, 8, 13, 7, 0, 9, 3, 4, 6, 10, 2, 8, 5, 14, 12, 11, 15, 1,
    13, 6, 4, 9, 8, 15, 3, 0, 11, 1, 2, 12, 5, 10, 14, 7, 1, 10, 13, 0, 6, 9, 8, 7, 4, 15, 14, 3, 11, 5, 2, 12],
   [7, 13, 14, 3, 0, 6, 9, 10, 1, 2, 8, 5, 11, 12, 4, 15, 13, 8, 11, 5, 6, 15, 0, 3, 4, 7, 2, 12, 1, 10, 14, 9,
    10, 6, 9, 0, 12, 11, 7, 13, 15, 1, 3, 14, 5, 2, 8, 4, 3, 15, 0, 6, 10, 1, 13, 8, 9, 4, 5, 11, 12, 7, 2, 14],
   [2, 12, 4, 1, 7, 10, 11, 6, 8, 5, 3, 15, 13, 0, 14, 9, 14, 11, 2, 12, 4, 7, 13, 1, 5, 0, 15, 10, 3, 9, 8, 6,
    4, 2, 1, 11, 10, 13, 7, 8, 15, 9, 12, 5, 6, 3, 0, 14, 11, 8, 12, 7, 1, 14, 2, 13, 6, 15, 0, 9, 10, 4, 5, 3],
   [12, 1, 10, 15, 9, 2, 6, 8, 0, 13, 3, 4, 14, 7, 5, 11, 10, 15, 4, 2, 7, 12, 9, 5, 6, 1, 13, 14, 0, 11, 3, 8,
    9, 14, 15, 5, 2, 8, 12, 3, 7, 0, 4, 10, 1, 13, 11, 6, 4, 3, 2, 12, 9, 5, 15, 10, 11, 14, 1, 7, 6, 0, 8, 13],
   [4, 11, 2, 14, 15, 0, 8, 13, 3, 12, 9, 7, 5, 10, 6, 1, 13, 0, 11, 7, 4, 9, 1, 10, 14, 3, 5, 12, 2, 15, 8, 6,
    1, 4, 11, 13, 12, 3, 7, 14, 10, 15, 6, 8, 0, 5, 9, 2, 6, 11, 13, 8, 1, 4, 10, 7, 9, 5, 0, 15, 14, 2, 3, 12],
   [13, 2, 8, 4, 6, 15, 11, 1, 10, 9, 3, 14, 5, 0, 12, 7, 1, 15, 13, 8, 10, 3, 7, 4, 12, 5, 6, 11, 0, 14, 9, 2,
    7, 11, 4, 1, 9, 12, 14, 2, 0, 6, 10, 13, 15, 3, 5, 8, 2, 1, 14, 7, 4, 10, 8, 13, 15, 12, 9, 0, 3, 5, 6, 11]]

/-! ### Permutations -/

/-- `key1` and `key2`: the highest bit, shifted to the right by `shift` bits. -/
def shiftedMask (shift : Int) : KeyPair :=
  let BitMask_lo : BitVec 32 := 0
  let BitMask_hi : BitVec 32 := 0x80000000
  if 0 ≤ (BitVec.ofInt 32 shift <<< 26).toInt then
    if 0 < (BitVec.ofInt 32 shift <<< 26).toInt then
      ⟨shr BitMask_lo shift ||| shl BitMask_hi (-shift), shr BitMask_hi shift⟩
    else ⟨shr BitMask_lo shift, shr BitMask_hi shift⟩
  else ⟨shr BitMask_hi shift, 0⟩

/-- A pass of the loops over the permutation tables, with the bits found so far and the place of the next one. -/
def selectBit (input : KeyPair) (x : KeyPair × KeyPair) (entry : Nat) : KeyPair × KeyPair :=
  let (out, BitPerm) := x
  let key := shiftedMask (entry - 1)
  let out := if (input.lo &&& key.lo) ||| (input.hi &&& key.hi) ≠ 0 then
      ⟨out.lo ||| BitPerm.lo, out.hi ||| BitPerm.hi⟩
    else out
  (out, ⟨(BitPerm.lo >>> 1) ||| (BitPerm.hi <<< 31), BitPerm.hi >>> 1⟩)

/-- The loops over the permutation tables. -/
def select (table : List Nat) (input : KeyPair) : KeyPair :=
  (table.foldl (selectBit input) (⟨0, 0⟩, ⟨0, 0x80000000⟩)).1

/-! ### The keys of the rounds -/

/-- A half of the permuted key, rotated to the left by one bit or by two in its 28 bits. -/
def rotate (rotation : Nat) (p : KeyPair) : KeyPair :=
  let PermutedKeyMask_lo : BitVec 32 := 0x0FFFFFFF
  let PermutedKeyMask_hi : BitVec 32 := 0
  if rotation ≠ 1 then
    let key1 := ((p.hi <<< 6) ||| (p.lo >>> 26)) &&& 3
    let key4 := p.lo <<< 2
    let key2 := (p.hi >>> 26) &&& 0
    let key3 := (p.hi <<< 2) ||| (p.lo >>> 30)
    ⟨(key1 ||| key4) &&& PermutedKeyMask_lo, (key2 ||| key3) &&& PermutedKeyMask_hi⟩
  else
    let key1 := ((p.hi <<< 5) ||| (p.lo >>> 27)) &&& 1
    let key4 := p.lo <<< 1
    let key2 := (p.hi >>> 27) &&& 0
    let key3 := (p.hi <<< 1) ||| (p.lo >>> 31)
    ⟨(key1 ||| key4) &&& PermutedKeyMask_lo, (key2 ||| key3) &&& PermutedKeyMask_hi⟩

/-- The halves of the permuted key, one behind the other. -/
def joinHalves (C D : KeyPair) : KeyPair :=
  ⟨0 ||| (D.lo <<< 8), (C.lo <<< 4) ||| (D.hi <<< 8) ||| (D.lo >>> 24)⟩

/-- `pairC`, `pairD` and from them `pairK`: a key for each rotation. -/
def roundKeys : List Nat → KeyPair → KeyPair → List KeyPair
  | [], _, _ => []
  | rotation :: rotations, C, D =>
    select PC2 (joinHalves (rotate rotation C) (rotate rotation D)) ::
      roundKeys rotations (rotate rotation C) (rotate rotation D)

/-- `pairC[0]` -/
def firstC (PermutedKey : KeyPair) : KeyPair := ⟨PermutedKey.hi >>> 4, 0⟩

/-- `pairD[0]` -/
def firstD (PermutedKey : KeyPair) : KeyPair :=
  ⟨((PermutedKey.lo >>> 8) ||| (PermutedKey.hi <<< 24)) &&& 0x0FFFFFFF, (PermutedKey.hi >>> 8) &&& 0⟩

/-- `pairK` for a password. -/
def pairK (password : KeyPair) : List KeyPair :=
  roundKeys Rotations (firstC (select PC1 password)) (firstD (select PC1 password))

/-! ### Rounds -/

/-- The place of the bits of an S-box in a row, by its input of six bits. -/
def sboxIndex (eVal_lo : BitVec 32) : Nat :=
  ((eVal_lo &&& 0x20) ||| (((eVal_lo &&& 0x3F) >>> 1) &&& 0xF) ||| (((eVal_lo &&& 0x3F) <<< 4) &&& 0x10)).toNat

/-- `key3` and `key4`: a word, shifted to the left by `shift` bits. -/
def shiftedWord (input_lo : BitVec 32) (shift : Int) : KeyPair :=
  let input_hi : BitVec 32 := 0
  if 0 ≤ (BitVec.ofInt 32 shift <<< 26).toInt then
    if 0 < (BitVec.ofInt 32 shift <<< 26).toInt then
      ⟨shl input_lo shift, shl input_hi shift ||| shr input_lo (-shift)⟩
    else ⟨shl input_lo shift, shl input_hi shift⟩
  else ⟨0, shl input_lo shift⟩

/-- A pass of the loop over the S-boxes, with `eVal` and `sVal`. -/
def substituteBox (x : KeyPair × KeyPair) (i : Nat) : KeyPair × KeyPair :=
  let (eVal, sVal) := x
  let input_lo := BitVec.ofNat 32 ((sbox.getD (7 - i) []).getD (sboxIndex eVal.lo) 0)
  let key := shiftedWord input_lo (32 + 4 * i)
  (⟨(eVal.lo >>> 6) ||| (eVal.hi <<< 26), eVal.hi >>> 6⟩, ⟨sVal.lo ||| key.lo, sVal.hi ||| key.hi⟩)

/-- `eVal` with the key of the round, moved down to its 48 bits. -/
def mixKey (eVal K : KeyPair) : KeyPair :=
  ⟨((eVal.lo ^^^ K.lo) >>> 16) ||| ((eVal.hi ^^^ K.hi) <<< 16), (eVal.hi ^^^ K.hi) >>> 16⟩

/-- `pVal`: what a half and the key of a round give for the other half. -/
def cipherFunction (R K : KeyPair) : KeyPair :=
  select Permutation ((List.range 8).foldl substituteBox (mixKey (select Expansion R) K, ⟨0, 0⟩)).2

/-- A round on `pairL` and `pairR`. -/
def cipherRound (x : KeyPair × KeyPair) (K : KeyPair) : KeyPair × KeyPair :=
  let (L, R) := x
  let pVal := cipherFunction R K
  (R, ⟨L.lo ^^^ pVal.lo, L.hi ^^^ pVal.hi⟩)

def DESEncryptPassword (id password : KeyPair) : KeyPair :=
  let PermutedInput := select IP id
  let L : KeyPair := ⟨PermutedInput.lo &&& 0, PermutedInput.hi &&& 0xFFFFFFFF⟩
  let R : KeyPair := ⟨0, PermutedInput.lo <<< 0⟩
  let (L, R) := (pairK password).foldl cipherRound (L, R)
  select FP ⟨R.lo ||| (L.hi >>> 0), R.hi ||| 0⟩

/-- The standard's example of an encryption. -/
example : DESEncryptPassword ⟨0x89ABCDEF, 0x01234567⟩ ⟨0x9BBCDFF1, 0x13345779⟩ = ⟨0x0F0AB405, 0x85E81354⟩ := by
  decide +kernel

/-! ### Strings -/

/-- The word at `o` of a string of the processor, its lowest byte first. -/
def word (s : Nat → UInt8) (o : Nat) : BitVec 32 :=
  (s (o + 3)).toBitVec ++ (s (o + 2)).toBitVec ++ (s (o + 1)).toBitVec ++ (s o).toBitVec

/-- The two words at the beginning of a string. -/
def words (s : Nat → UInt8) : KeyPair := ⟨word s 0, word s 4⟩

def bytes (x : BitVec 32) : List UInt8 :=
  (List.range 4).map fun k => ⟨(x >>> (8 * k)).setWidth 8⟩

/-- `apaEncryptPassword`, with what it leaves in `password_out`. -/
def apaEncryptPassword (id password_in : Nat → UInt8) : List UInt8 :=
  let password_out := DESEncryptPassword (words id) (words password_in)
  bytes password_out.lo ++ bytes password_out.hi

end HddChecker.Apa.Password
