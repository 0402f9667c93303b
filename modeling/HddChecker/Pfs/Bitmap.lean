import Mathlib.Algebra.BigOperators.Group.Finset.Piecewise
import Mathlib.Algebra.Order.BigOperators.Group.Finset
import Mathlib.Order.Interval.Finset.Nat
import HddChecker.Lib.BitWalk

/-!
# The zone allocator

Each partition of a PFS filesystem has a bitmap of its zones, kept in blocks of 8192 bits. Blocks are reached through the cache, which is transparent here: a mount holds the bits of its metadata blocks by partition, block, word and bit. A zone `p` of a partition is bit `p % 8192` of the block for chunk `p / 8192`.
-/

namespace HddChecker.Pfs

abbrev USHRT_MAX : Nat := 65535

/-- The words of a bitmap block: `pfsMetaSize` bytes. -/
abbrev pfsMetaSize : Nat := 1024

abbrev pfsBitsPerBitmapChunk : Nat := 8192

structure pfs_blockinfo_t where
  number : Nat
  subpart : Nat
  count : Nat
  deriving DecidableEq, Repr

/-- The parts of `pfs_mount_t` the allocator uses, and the bits of the metadata blocks. -/
structure pfs_mount_t where
  /-- the sectors of a partition, as the block device tells them -/
  getSize : Nat → Nat
  sector_scale : Nat
  inode_scale : Nat
  pfsBlockSize : Nat
  num_subs : Nat
  free_zone : Nat → Nat
  zfree : Nat
  bits : (subpart block word bit : Nat) → Bool

inductive BitmapOperation where
  | ALLOC
  | FREE
  deriving DecidableEq, Repr

structure pfs_bitmapInfo_t where
  chunk : Nat
  index : Nat
  bit : Nat
  partitionChunks : Nat
  partitionRemainder : Nat
  deriving DecidableEq, Repr

namespace pfs_mount_t

/-- How many zones a partition has. -/
def zones (m : pfs_mount_t) (subpart : Nat) : Nat := m.getSize subpart / 2 ^ m.sector_scale

/-- The block of a chunk of a partition's bitmap. -/
def sector (m : pfs_mount_t) (subpart chunk : Nat) : Nat :=
  2 ^ m.inode_scale + chunk + if subpart = 0 then 0x2000 / 2 ^ m.pfsBlockSize else 0

/-- One bit of a metadata block is set or cleared. -/
def setBit (m : pfs_mount_t) (subpart block word bit : Nat) (v : Bool) : pfs_mount_t :=
  { m with bits := fun s b w i =>
      if s = subpart ∧ b = block ∧ w = word ∧ i = bit then v else m.bits s b w i }

/-- So many zones of a partition were taken. -/
def take (m : pfs_mount_t) (subpart count : Nat) : pfs_mount_t :=
  { m with
    free_zone := Function.update m.free_zone subpart (m.free_zone subpart - count)
    zfree := m.zfree - count }

/-- So many zones of a partition were given back. -/
def give (m : pfs_mount_t) (subpart count : Nat) : pfs_mount_t :=
  { m with
    free_zone := Function.update m.free_zone subpart (m.free_zone subpart + count)
    zfree := m.zfree + count }

end pfs_mount_t

def pfsBitmapSetupInfo (m : pfs_mount_t) (subpart number : Nat) : pfs_bitmapInfo_t where
  chunk := number / pfsBitsPerBitmapChunk
  bit := number % 32
  index := number % pfsBitsPerBitmapChunk / 32
  partitionChunks := m.zones subpart / pfsBitsPerBitmapChunk
  partitionRemainder := m.zones subpart % pfsBitsPerBitmapChunk

/-- The body of the loops of `pfsBitmapAllocFree`, over the zones that are still to come and the mount. -/
def allocFreeBit (operation : BitmapOperation) (subpart block word bit : Nat) :
    Nat × pfs_mount_t → Nat × pfs_mount_t ⊕ Nat × pfs_mount_t
  | (count, m) =>
    if count = 0 then .inr (count, m)
    else .inl (count - 1, m.setBit subpart block word bit (operation = .ALLOC))

/-- The loop of `pfsBitmapAllocFree` over the chunks, so many at most. -/
def allocFreeChunks (operation : BitmapOperation) (subpart : Nat) :
    (left clink chunk index _bit count : Nat) → pfs_mount_t → pfs_mount_t
  | 0, _, _, _, _, _, m => m
  | left + 1, clink, chunk, index, _bit, count, m =>
    match walkWords (allocFreeBit operation subpart clink) (pfsMetaSize / 4 - index) index _bit
      (count, m) with
    | .inr (_, m) => m
    | .inl (count, m) =>
      if count = 0 then m
      else allocFreeChunks operation subpart left (m.sector subpart (chunk + 1)) (chunk + 1) 0 0 count m

/-- `pfsBitmapAllocFree`. Every chunk takes up one zone at least, so that there are no more of them than zones. -/
def pfsBitmapAllocFree (clink : Nat) (operation : BitmapOperation)
    (subpart chunk index _bit count : Nat) (m : pfs_mount_t) : pfs_mount_t :=
  allocFreeChunks operation subpart (count + 1) clink chunk index _bit count m

namespace pfs_bitmapInfo_t

def hasChunk (info : pfs_bitmapInfo_t) (chunk : Nat) : Bool :=
  (info.partitionRemainder = 0 && chunk < info.partitionChunks) ||
    (info.partitionRemainder ≠ 0 && chunk < info.partitionChunks + 1)

/-- The words of a chunk before `bitmapEnd`. -/
def bitmapEnd (info : pfs_bitmapInfo_t) (chunk : Nat) : Nat :=
  ((if chunk = info.partitionChunks then info.partitionRemainder / 8 else pfsMetaSize) + 3) / 4

end pfs_bitmapInfo_t

/-- A loop over the bits of a partition from the position of `info` on, over `left` chunks at most. -/
def walkChunks {σ β : Type} (f : Nat → Nat → Nat → σ → σ ⊕ β) (info : pfs_bitmapInfo_t) :
    (left chunk index bit : Nat) → σ → σ ⊕ β
  | 0, _, _, _, s => .inl s
  | left + 1, chunk, index, bit, s =>
    if info.hasChunk chunk then
      match walkWords (f chunk) (info.bitmapEnd chunk - index) index bit s with
      | .inl s => walkChunks f info left (chunk + 1) 0 0 s
      | .inr b => .inr b
    else .inl s

/-- The loop from the position of `info` to the end of the partition. -/
def walkPartition {σ β : Type} (f : Nat → Nat → Nat → σ → σ ⊕ β) (info : pfs_bitmapInfo_t) : σ → σ ⊕ β :=
  walkChunks f info (info.partitionChunks + 1 - info.chunk) info.chunk info.index info.bit

/-- The body of the loops of `pfsBitmapAllocateAdditionalZones`, over the zones that are still wanted, those taken and the mount. -/
def additionalBit (subpart block word bit : Nat) :
    Nat × Nat × pfs_mount_t → Nat × Nat × pfs_mount_t ⊕ Nat × pfs_mount_t
  | (count, res, m) =>
    if count = 0 then .inr (res, m)
    else if m.bits subpart block word bit then .inr (res, m)
    else .inl (count - 1, res + 1, m.setBit subpart block word bit true)

/-- `pfsBitmapAllocateAdditionalZones`: how many zones were taken. -/
def pfsBitmapAllocateAdditionalZones (m : pfs_mount_t) (bi : pfs_blockinfo_t) (count : Nat) :
    Nat × pfs_mount_t :=
  let info := pfsBitmapSetupInfo m bi.subpart (bi.number + bi.count)
  let count := if USHRT_MAX - bi.count < count then USHRT_MAX - bi.count else count
  let (res, m) :=
    match walkPartition (fun chunk => additionalBit bi.subpart (m.sector bi.subpart chunk)) info
      (count, 0, m) with
    | .inl (_, res, m) => (res, m)
    | .inr (res, m) => (res, m)
  (res, m.take bi.subpart res)

/-- The run of free zones at hand in `pfsBitmapAllocZones`. -/
structure FreeRun where
  startBit : Nat
  startPos : Nat
  startChunk : Nat
  count : Nat
  deriving DecidableEq, Repr

/-- The body of the loops of `pfsBitmapAllocZones`: it leaves with the run and the chunk it ends in. -/
def searchBit (m : pfs_mount_t) (subpart amount chunk word bit : Nat) (run : FreeRun) :
    FreeRun ⊕ FreeRun × Nat :=
  if m.bits subpart (m.sector subpart chunk) word bit then .inl { run with count := 0 }
  else
    let run := if run.count = 0 then ⟨bit, word, chunk, 0⟩ else run
    let run := { run with count := run.count + 1 }
    if run.count = amount then .inr (run, chunk) else .inl run

/-- `pfsBitmapAllocZones`, `none` where there is no such run. -/
def pfsBitmapAllocZones (m : pfs_mount_t) (bi : pfs_blockinfo_t) (amount : Nat) :
    Option (pfs_blockinfo_t × pfs_mount_t) :=
  let info := pfsBitmapSetupInfo m bi.subpart bi.number
  match walkPartition (searchBit m bi.subpart amount) info ⟨0, 0, 0, 0⟩ with
  | .inl _ => none
  | .inr (run, chunk) =>
    let bi := { bi with
      number := run.startPos * 32 + run.startChunk * pfsBitsPerBitmapChunk + run.startBit
      count := if run.count < bi.count then run.count else bi.count }
    let block := m.sector bi.subpart chunk
    let clink :=
      if block ≠ run.startChunk + 2 ^ m.inode_scale then m.sector bi.subpart run.startChunk else block
    some (bi, pfsBitmapAllocFree clink .ALLOC bi.subpart run.startChunk run.startPos run.startBit
      bi.count m)

/-- The inner loop of `pfsBitmapSearchFreeZone`: runs of `n`, `n / 2`, … zones are looked for. -/
def searchSizes (m : pfs_mount_t) (bi : pfs_blockinfo_t) (n : Nat) :
    Option (pfs_blockinfo_t × pfs_mount_t) :=
  if _hn : n = 0 then none
  else
    match if n ≤ m.free_zone bi.subpart then pfsBitmapAllocZones m bi n else none with
    | some found => some found
    | none => searchSizes m bi (n / 2)
termination_by n
decreasing_by omega

/-- The outer loop of `pfsBitmapSearchFreeZone`. Its counter is unsigned and never below 0, so that only a success ends it: `none` says that the passes given were not enough. -/
def searchPartitions (m : pfs_mount_t) (count : Nat) :
    (passes : Nat) → pfs_blockinfo_t → Option (pfs_blockinfo_t × pfs_mount_t)
  | 0, _ => none
  | passes + 1, bi =>
    match searchSizes m bi count with
    | some (bi, m) => some (bi, m.take bi.subpart bi.count)
    | none => searchPartitions m count passes { bi with
        number := 0
        subpart := if bi.subpart + 1 = m.num_subs + 1 then 0 else bi.subpart + 1 }

theorem searchPartitions_more {m : pfs_mount_t} {count passes more : Nat} {bi : pfs_blockinfo_t}
    {r : pfs_blockinfo_t × pfs_mount_t} (h : searchPartitions m count passes bi = some r) (hle : passes ≤ more) :
    searchPartitions m count more bi = some r := by
  induction passes generalizing bi more with
  | zero => cases h
  | succ passes ih =>
    obtain ⟨more, rfl⟩ := Nat.exists_eq_succ_of_ne_zero (Nat.ne_zero_of_lt hle)
    rw [searchPartitions] at h ⊢
    split at h
    · exact h
    · exact ih h (Nat.le_of_succ_le_succ hle)

/-- `pfsBitmapSearchFreeZone`, where it is successful within so many passes. -/
def pfsBitmapSearchFreeZone (passes : Nat) (m : pfs_mount_t) (bi : pfs_blockinfo_t) (max_count : Nat) :
    Option (pfs_blockinfo_t × pfs_mount_t) :=
  let bi := if m.num_subs + 1 ≤ bi.subpart then { bi with subpart := 0 } else bi
  let count := if max_count < 33 then max_count else 32
  let count := if count < bi.count then bi.count else count
  searchPartitions m count passes bi

def pfsBitmapFreeBlockSegment (m : pfs_mount_t) (bi : pfs_blockinfo_t) : pfs_mount_t :=
  let info := pfsBitmapSetupInfo m bi.subpart bi.number
  let m := pfsBitmapAllocFree (m.sector bi.subpart info.chunk) .FREE bi.subpart info.chunk info.index
    info.bit bi.count m
  m.give bi.subpart bi.count

/-! ### The calls -/

/-- A mount, and the runs that were allocated and not freed yet. -/
structure Allocator where
  mount : pfs_mount_t
  live : List pfs_blockinfo_t

/-- One successful call. The zones got in addition are a run of their own until the caller adds them to the block they continue. -/
inductive Call : Allocator → Allocator → Prop
  | search {m m' : pfs_mount_t} {live : List pfs_blockinfo_t} {bi found : pfs_blockinfo_t}
      {passes max_count : Nat} (h : pfsBitmapSearchFreeZone passes m bi max_count = some (found, m')) :
      Call ⟨m, live⟩ ⟨m', found :: live⟩
  | additional {m m' : pfs_mount_t} {live : List pfs_blockinfo_t} {bi : pfs_blockinfo_t}
      {count res : Nat} (hsub : bi.subpart ≤ m.num_subs)
      (h : pfsBitmapAllocateAdditionalZones m bi count = (res, m')) :
      Call ⟨m, live⟩ ⟨m', ⟨bi.number + bi.count, bi.subpart, res⟩ :: live⟩
  | free {m : pfs_mount_t} {live : List pfs_blockinfo_t} {bi : pfs_blockinfo_t} (h : bi ∈ live) :
      Call ⟨m, live⟩ ⟨pfsBitmapFreeBlockSegment m bi, live.erase bi⟩
  | join {m : pfs_mount_t} {live rest : List pfs_blockinfo_t} {a b : pfs_blockinfo_t}
      (h : live.Perm (a :: b :: rest)) (hsub : a.subpart = b.subpart)
      (hnext : a.number + a.count = b.number) (hmax : a.count + b.count ≤ USHRT_MAX) :
      Call ⟨m, live⟩ ⟨m, ⟨a.number, a.subpart, a.count + b.count⟩ :: rest⟩

/-! ### The zones of a partition -/

variable {σ β : Type} {m m' m'' : pfs_mount_t} {sub P n k chunk index bit count amount : Nat} {v : Bool}
  {operation : BitmapOperation} {bi bi' : pfs_blockinfo_t}

def pfs_mount_t.zone (m : pfs_mount_t) (sub p : Nat) : Bool :=
  m.bits sub (m.sector sub (p / 8192)) (p % 8192 / 32) (p % 32)

/-- The zones `P`, …, `P + n - 1` of a partition were set to `v`, and nothing else was changed. -/
structure Changed (v : Bool) (sub P n : Nat) (m m' : pfs_mount_t) : Prop where
  rest : m' = { m with bits := m'.bits }
  zone : ∀ s p, m'.zone s p = if s = sub ∧ P ≤ p ∧ p < P + n then v else m.zone s p

theorem Changed.refl : Changed v sub P 0 m m := by
  refine ⟨rfl, fun s p => ?_⟩
  rw [if_neg (by omega)]

theorem Changed.sector (h : Changed v sub P n m m') : m'.sector = m.sector := by
  rw [h.rest]
  rfl

theorem Changed.trans (h : Changed v sub P n m m') (h' : Changed v sub (P + n) k m' m'') :
    Changed v sub P (n + k) m m'' := by
  refine ⟨by rw [h'.rest, h.rest], fun s p => ?_⟩
  rw [h'.zone, h.zone]
  by_cases h1 : s = sub ∧ P + n ≤ p ∧ p < P + n + k
  · rw [if_pos h1, if_pos (by omega)]
  · rw [if_neg h1]
    by_cases h2 : s = sub ∧ P ≤ p ∧ p < P + n
    · rw [if_pos h2, if_pos (by omega)]
    · rw [if_neg h2, if_neg (by omega)]

theorem Changed.setBit (h : Changed v sub P n m m') :
    Changed v sub P (n + 1) m (m'.setBit sub (m.sector sub ((P + n) / 8192)) ((P + n) % 8192 / 32)
      ((P + n) % 32) v) := by
  apply h.trans
  refine ⟨rfl, fun s p => ?_⟩
  have hsector : ∀ c, m'.sector s c = m.sector s c := fun c => by rw [h.sector]
  have hiff : (s = sub ∧ m.sector s (p / 8192) = m.sector sub ((P + n) / 8192) ∧
      p % 8192 / 32 = (P + n) % 8192 / 32 ∧ p % 32 = (P + n) % 32) ↔
        s = sub ∧ P + n ≤ p ∧ p < P + n + 1 := by
    constructor
    · rintro ⟨rfl, hchunk, hword, hbit⟩
      unfold pfs_mount_t.sector at hchunk
      exact ⟨rfl, by omega⟩
    · rintro ⟨rfl, hle, hlt⟩
      have hp : p = P + n := by omega
      subst hp
      exact ⟨rfl, rfl, rfl, rfl⟩
  have hset : (m'.setBit sub (m.sector sub ((P + n) / 8192)) ((P + n) % 8192 / 32)
      ((P + n) % 32) v).zone s p =
        if s = sub ∧ m'.sector s (p / 8192) = m.sector sub ((P + n) / 8192) ∧
          p % 8192 / 32 = (P + n) % 8192 / 32 ∧ p % 32 = (P + n) % 32 then v
        else m'.zone s p := rfl
  rw [hset, hsector, if_congr hiff rfl rfl]

theorem walkWords_zone (f : Nat → Nat → Nat → σ → σ ⊕ β) {left : Nat} (hbit : bit < 32)
    (hleft : index + left ≤ 256) (s : σ) :
    walkWords (f chunk) left index bit s =
      walk (fun p => f (p / 8192) (p % 8192 / 32) (p % 32)) (32 * left - bit)
        (8192 * chunk + 32 * index + bit) s := by
  rw [walkWords_eq _ _ _ _ hbit]
  apply walk_congr
  intro i hi
  have hchunk : (8192 * chunk + 32 * index + bit + i) / 8192 = chunk := by omega
  have hword : (8192 * chunk + 32 * index + bit + i) % 8192 / 32 = (32 * index + bit + i) / 32 := by
    omega
  have hbits : (8192 * chunk + 32 * index + bit + i) % 32 = (32 * index + bit + i) % 32 := by omega
  rw [hchunk, hword, hbits]

/-- The chunks of a partition are one walk over its zones, up to the last of them. -/
private theorem walkChunks_eq (f : Nat → Nat → Nat → σ → σ ⊕ β) {info : pfs_bitmapInfo_t} {Z left : Nat}
    (hchunks : info.partitionChunks = Z / 8192) (hrem : info.partitionRemainder = Z % 8192)
    (hZ : 32 ∣ Z) (hbit : bit < 32) (hindex : index < 256) (hleft : Z / 8192 + 1 ≤ chunk + left) (s : σ) :
    walkChunks f info left chunk index bit s =
      walk (fun p => f (p / 8192) (p % 8192 / 32) (p % 32))
        (Z - (8192 * chunk + 32 * index + bit)) (8192 * chunk + 32 * index + bit) s := by
  obtain ⟨z, rfl⟩ := hZ
  induction left generalizing chunk index bit s with
  | zero =>
    have hzero : 32 * z - (8192 * chunk + 32 * index + bit) = 0 := by omega
    rw [hzero]
    rfl
  | succ left ih =>
    have hrest : ∀ s, walkChunks f info left (chunk + 1) 0 0 s =
        walk (fun p => f (p / 8192) (p % 8192 / 32) (p % 32))
          (32 * z - (8192 * (chunk + 1) + 32 * 0 + 0)) (8192 * (chunk + 1) + 32 * 0 + 0) s :=
      fun s => ih (by decide) (by decide) s (by omega)
    rw [walkChunks]
    have hhas : info.hasChunk chunk = true ↔
        chunk < 32 * z / 8192 ∨ chunk = 32 * z / 8192 ∧ 32 * z % 8192 ≠ 0 := by
      simp only [pfs_bitmapInfo_t.hasChunk, hchunks, hrem, Bool.or_eq_true, Bool.and_eq_true,
        decide_eq_true_eq]
      omega
    by_cases hchunk : info.hasChunk chunk = true
    · rw [if_pos hchunk]
      rcases hhas.mp hchunk with hlt | ⟨heq, hne⟩
      · -- a whole chunk
        have hend : info.bitmapEnd chunk = 256 := by
          simp only [pfs_bitmapInfo_t.bitmapEnd, hchunks]
          rw [if_neg (Nat.ne_of_lt hlt)]
          rfl
        have hsplit : 32 * z - (8192 * chunk + 32 * index + bit) =
            (32 * (256 - index) - bit) + (32 * z - (8192 * (chunk + 1) + 32 * 0 + 0)) := by omega
        have hnext : 8192 * chunk + 32 * index + bit + (32 * (256 - index) - bit) =
            8192 * (chunk + 1) + 32 * 0 + 0 := by omega
        rw [hend, walkWords_zone f hbit (by omega), hsplit, walk_add, hnext]
        cases walk (fun p => f (p / 8192) (p % 8192 / 32) (p % 32)) (32 * (256 - index) - bit)
          (8192 * chunk + 32 * index + bit) s with
        | inl s' => exact hrest s'
        | inr b => rfl
      · -- the last one, which is not whole
        have hend : info.bitmapEnd chunk = 32 * z % 8192 / 32 := by
          simp only [pfs_bitmapInfo_t.bitmapEnd, hchunks, hrem]
          rw [if_pos heq]
          omega
        have hsplit : 32 * z - (8192 * chunk + 32 * index + bit) =
            32 * (32 * z % 8192 / 32 - index) - bit := by omega
        rw [hend, walkWords_zone f hbit (by omega), hsplit]
        cases walk (fun p => f (p / 8192) (p % 8192 / 32) (p % 32))
          (32 * (32 * z % 8192 / 32 - index) - bit) (8192 * chunk + 32 * index + bit) s with
        | inl s' =>
          have hzero : 32 * z - (8192 * (chunk + 1) + 32 * 0 + 0) = 0 := by omega
          simp only
          rw [hrest s', hzero]
          rfl
        | inr b => rfl
    · rw [if_neg hchunk]
      have hzero : 32 * z - (8192 * chunk + 32 * index + bit) = 0 := by
        rw [hhas] at hchunk
        omega
      rw [hzero]
      rfl

/-- A loop over a partition is a walk from the zone it starts at to the last one. -/
theorem walkPartition_eq (f : Nat → Nat → Nat → σ → σ ⊕ β) (hZ : 32 ∣ m.zones sub) (number : Nat) (s : σ) :
    walkPartition f (pfsBitmapSetupInfo m sub number) s =
      walk (fun p => f (p / 8192) (p % 8192 / 32) (p % 32)) (m.zones sub - number) number s := by
  have hnumber : 8192 * (number / 8192) + 32 * (number % 8192 / 32) + number % 32 = number := by omega
  have hwalk : walkPartition f (pfsBitmapSetupInfo m sub number) s =
      walk (fun p => f (p / 8192) (p % 8192 / 32) (p % 32))
        (m.zones sub - (8192 * (number / 8192) + 32 * (number % 8192 / 32) + number % 32))
        (8192 * (number / 8192) + 32 * (number % 8192 / 32) + number % 32) s := by
    have hleft : m.zones sub / 8192 + 1 ≤
        number / 8192 + (m.zones sub / 8192 + 1 - number / 8192) := by omega
    have hbit : number % 32 < 32 := by omega
    have hindex : number % 8192 / 32 < 256 := by omega
    exact walkChunks_eq f rfl rfl hZ hbit hindex hleft s
  rwa [hnumber] at hwalk

/-! ### What the functions do -/

/-- The loops over the bits of one chunk: they end with the last zone, or at the end of the chunk. -/
private theorem allocFree_chunk (operation : BitmapOperation) (m : pfs_mount_t) (sub count : Nat)
    (hbit : bit < 32) (hindex : index < 256) (hP : P = 8192 * chunk + 32 * index + bit) :
    (∀ c m', walkWords (allocFreeBit operation sub (m.sector sub chunk)) (256 - index) index bit
      (count, m) = .inl (c, m') → ∃ n, 0 < n ∧ c + n = count ∧ P + n = 8192 * (chunk + 1) ∧
        Changed (operation = .ALLOC) sub P n m m') ∧
    ∀ b, walkWords (allocFreeBit operation sub (m.sector sub chunk)) (256 - index) index bit
      (count, m) = .inr b → Changed (operation = .ALLOC) sub P count m b.2 := by
  have hwords : walkWords (allocFreeBit operation sub (m.sector sub chunk)) (256 - index) index bit
      (count, m) = walk (fun p => allocFreeBit operation sub (m.sector sub (p / 8192)) (p % 8192 / 32)
        (p % 32)) (32 * (256 - index) - bit) P (count, m) := by
    rw [hP]
    exact walkWords_zone (fun c => allocFreeBit operation sub (m.sector sub c)) hbit (by omega) _
  rw [hwords]
  have hwalk := walk_induct (n := 32 * (256 - index) - bit) (p := P) (s := (count, m))
    (f := fun p => allocFreeBit operation sub (m.sector sub (p / 8192)) (p % 8192 / 32) (p % 32))
    (motive := fun q t => t.1 + (q - P) = count ∧ Changed (operation = .ALLOC) sub P (q - P) m t.2)
    (R := fun b => Changed (operation = .ALLOC) sub P count m b.2)
    (by simpa using Changed.refl) ?_
  · refine ⟨fun c m' h => ?_, hwalk.2⟩
    obtain ⟨hcount, hchanged⟩ := hwalk.1 _ h
    rw [Nat.add_sub_cancel_left] at hcount hchanged
    exact ⟨32 * (256 - index) - bit, by omega, hcount, by omega, hchanged⟩
  · rintro q ⟨c, t⟩ hle - ⟨hcount, hchanged⟩
    simp only at hcount hchanged
    refine ⟨fun t' h => ?_, fun b h => ?_⟩
    · simp only [allocFreeBit] at h
      split at h
      · cases h
      · cases h
        have hset := hchanged.setBit
        rw [Nat.add_sub_cancel' hle, ← Nat.sub_add_comm hle] at hset
        exact ⟨by simp only; omega, hset⟩
    · simp only [allocFreeBit] at h
      split at h
      · cases h
        have hq : q - P = count := by omega
        rwa [hq] at hchanged
      · cases h

private theorem allocFreeChunks_changed {left : Nat} (operation : BitmapOperation) (sub : Nat) (hbit : bit < 32)
    (hindex : index < 256) (hleft : count < left) (hP : P = 8192 * chunk + 32 * index + bit) :
    Changed (operation = .ALLOC) sub P count m
      (allocFreeChunks operation sub left (m.sector sub chunk) chunk index bit count m) := by
  induction left generalizing P chunk index bit count m with
  | zero => omega
  | succ left ih =>
    obtain ⟨hgo, hend⟩ := allocFree_chunk operation m sub count hbit hindex hP
    rw [allocFreeChunks]
    split
    · rename_i c m' hwalk
      exact hend _ hwalk
    · rename_i c m' hwalk
      obtain ⟨n, hpos, hcount, hnext, hchanged⟩ := hgo c m' hwalk
      split
      · rename_i hzero
        rw [hzero, Nat.zero_add] at hcount
        rwa [hcount] at hchanged
      · have hrest : Changed (operation = .ALLOC) sub (P + n) c m'
            (allocFreeChunks operation sub left (m'.sector sub (chunk + 1)) (chunk + 1) 0 0 c m') :=
          ih (by decide) (by decide) (by omega) (by omega)
        rw [← hcount, Nat.add_comm c n]
        exact hchanged.trans hrest

theorem pfsBitmapAllocFree_changed (operation : BitmapOperation) (m : pfs_mount_t)
    (sub number count : Nat) :
    Changed (operation = .ALLOC) sub number count m
      (pfsBitmapAllocFree (m.sector sub (number / 8192)) operation sub (number / 8192)
        (number % 8192 / 32) (number % 32) count m) :=
  allocFreeChunks_changed operation sub (by omega) (by omega) (Nat.lt_succ_self count) (by omega)

/-- `pfsBitmapAllocateAdditionalZones` before the counters are adjusted. -/
private theorem additional_walk (hZ : 32 ∣ m.zones sub) (number count : Nat) :
    ∃ res m', (match walkPartition (fun chunk => additionalBit sub (m.sector sub chunk))
        (pfsBitmapSetupInfo m sub number) (count, 0, m) with
      | .inl (_, res, m) => (res, m)
      | .inr (res, m) => (res, m)) = (res, m') ∧
    Changed true sub number res m m' ∧ (0 < res → number + res ≤ m.zones sub) ∧
      ∀ p, number ≤ p → p < number + res → m.zone sub p = false := by
  rw [walkPartition_eq _ hZ]
  have hwalk := walk_induct (n := m.zones sub - number) (p := number) (s := (count, 0, m))
    (f := fun p => additionalBit sub (m.sector sub (p / 8192)) (p % 8192 / 32) (p % 32))
    (motive := fun q t => t.2.1 = q - number ∧ Changed true sub number (q - number) m t.2.2 ∧
      ∀ p, number ≤ p → p < q → m.zone sub p = false)
    (R := fun b => Changed true sub number b.1 m b.2 ∧ (0 < b.1 → number + b.1 ≤ m.zones sub) ∧
      ∀ p, number ≤ p → p < number + b.1 → m.zone sub p = false)
    ⟨by simp, by simpa using Changed.refl, by omega⟩ ?_
  · split
    · rename_i c res m' hinl
      obtain ⟨hres, hchanged, hclear⟩ := hwalk.1 _ hinl
      simp only [Nat.add_sub_cancel_left] at hres hchanged
      rw [← hres] at hchanged hclear
      exact ⟨res, m', rfl, hchanged, by omega, hclear⟩
    · rename_i res m' hinr
      exact ⟨res, m', rfl, hwalk.2 _ hinr⟩
  · rintro q ⟨c, r, t⟩ hle hlt ⟨hres, hchanged, hclear⟩
    simp only at hres hchanged
    have hstay : Changed true sub number r m t ∧ (0 < r → number + r ≤ m.zones sub) ∧
        ∀ p, number ≤ p → p < number + r → m.zone sub p = false := by
      subst hres
      exact ⟨hchanged, by omega, fun p hp hp' => hclear p hp (by omega)⟩
    refine ⟨fun t' h => ?_, fun b h => ?_⟩
    · simp only [additionalBit] at h
      split at h
      · cases h
      · rename_i hcount
        split at h
        · cases h
        · rename_i hfree
          cases h
          have hset := hchanged.setBit
          rw [Nat.add_sub_cancel' hle, ← Nat.sub_add_comm hle] at hset
          refine ⟨by simp only; omega, hset, fun p hp hp' => ?_⟩
          by_cases heq : p = q
          · subst heq
            -- the bit at hand was not among those set so far
            have hzone := hchanged.zone sub p
            rw [if_neg (by omega)] at hzone
            rw [← hzone]
            unfold pfs_mount_t.zone
            rw [hchanged.sector]
            simpa using hfree
          · exact hclear p hp (by omega)
    · simp only [additionalBit] at h
      split at h
      · cases h
        exact hstay
      · split at h
        · cases h
          exact hstay
        · cases h

/-- Where the loops of `pfsBitmapAllocZones` leave: with a run of free zones of the length looked for. -/
private theorem search_walk (hZ : 32 ∣ m.zones sub) (number : Nat) {run : FreeRun} {c : Nat}
    (h : walkPartition (searchBit m sub amount) (pfsBitmapSetupInfo m sub number) ⟨0, 0, 0, 0⟩ =
      .inr (run, c)) :
    ∃ start, run = ⟨start % 32, start % 8192 / 32, start / 8192, amount⟩ ∧ start / 8192 ≤ c ∧
      start + amount ≤ m.zones sub ∧ ∀ p, start ≤ p → p < start + amount → m.zone sub p = false := by
  rw [walkPartition_eq _ hZ] at h
  have hwalk := walk_induct (n := m.zones sub - number) (p := number) (s := (⟨0, 0, 0, 0⟩ : FreeRun))
    (f := fun p => searchBit m sub amount (p / 8192) (p % 8192 / 32) (p % 32))
    (motive := fun q run => run.count ≤ q ∧
      (run.count ≠ 0 → run = ⟨(q - run.count) % 32, (q - run.count) % 8192 / 32, (q - run.count) / 8192,
        run.count⟩) ∧ ∀ p, q - run.count ≤ p → p < q → m.zone sub p = false)
    (R := fun b => ∃ start, b.1 = ⟨start % 32, start % 8192 / 32, start / 8192, amount⟩ ∧
      start / 8192 ≤ b.2 ∧ start + amount ≤ m.zones sub ∧
        ∀ p, start ≤ p → p < start + amount → m.zone sub p = false)
    ⟨by simp, by simp, by simp only; omega⟩ ?_
  · exact hwalk.2 _ h
  · rintro q ⟨b, w, k, n⟩ hle hlt ⟨hn, hrun, hclear⟩
    simp only at hn hrun hclear
    -- the run with the bit at hand
    have hnext : m.zone sub q = false → (if n = 0 then (⟨q % 32, q % 8192 / 32, q / 8192, 0⟩ : FreeRun)
        else ⟨b, w, k, n⟩) = ⟨(q - n) % 32, (q - n) % 8192 / 32, (q - n) / 8192, n⟩ ∧
          ∀ p, q - n ≤ p → p < q + 1 → m.zone sub p = false := by
      intro hfree
      refine ⟨?_, fun p hp hp' => ?_⟩
      · split
        · rename_i hzero
          subst hzero
          rfl
        · rename_i hne
          exact hrun hne
      · by_cases heq : p = q
        · rw [heq]
          exact hfree
        · exact hclear p hp (by omega)
    refine ⟨fun run' h => ?_, fun r h => ?_⟩
    · simp only [searchBit] at h
      split at h
      · cases h
        exact ⟨Nat.zero_le _, by simp, by simp only; omega⟩
      · rename_i hfree
        obtain ⟨heq, hclear'⟩ := hnext (by simpa [pfs_mount_t.zone] using hfree)
        rw [heq] at h
        split at h
        · cases h
        · cases h
          have hstart : q + 1 - (n + 1) = q - n := by omega
          simp only
          rw [hstart]
          exact ⟨by omega, fun _ => rfl, hclear'⟩
    · simp only [searchBit] at h
      split at h
      · cases h
      · rename_i hfree
        obtain ⟨heq, hclear'⟩ := hnext (by simpa [pfs_mount_t.zone] using hfree)
        rw [heq] at h
        split at h
        · rename_i hamount
          cases h
          simp only at hamount
          refine ⟨q - n, by rw [← hamount], ?_, by omega, fun p hp hp' => hclear' p hp (by omega)⟩
          exact Nat.div_le_div_right (Nat.sub_le q n)
        · cases h

/-- `pfsBitmapAllocZones` takes a run of free zones, no more of them than were looked for. -/
theorem pfsBitmapAllocZones_spec (hZ : 32 ∣ m.zones bi.subpart)
    (h : pfsBitmapAllocZones m bi amount = some (bi', m')) :
    bi'.count = min amount bi.count ∧ bi'.subpart = bi.subpart ∧
      bi'.number + bi'.count ≤ m.zones bi.subpart ∧
      (∀ p, bi'.number ≤ p → p < bi'.number + amount → m.zone bi.subpart p = false) ∧
        Changed true bi.subpart bi'.number bi'.count m m' := by
  unfold pfsBitmapAllocZones at h
  simp only at h
  split at h
  · cases h
  · rename_i run c hwalk
    obtain ⟨start, rfl, hchunk, hinside, hclear⟩ := search_walk hZ bi.number hwalk
    have hnumber : start % 8192 / 32 * 32 + start / 8192 * 8192 + start % 32 = start := by omega
    -- the block at hand is the first one of the run, or that is read again
    have hclink : (if m.sector bi.subpart c ≠ start / 8192 + 2 ^ m.inode_scale then
        m.sector bi.subpart (start / 8192) else m.sector bi.subpart c) =
          m.sector bi.subpart (start / 8192) := by
      split
      · rfl
      · rename_i hblock
        simp only [pfs_mount_t.sector, ne_eq, Decidable.not_not] at hblock ⊢
        omega
    simp only [Option.some.injEq, Prod.mk.injEq] at h
    obtain ⟨rfl, rfl⟩ := h
    rw [hclink]
    simp only [hnumber]
    refine ⟨?_, trivial, ?_, hclear, ?_⟩
    · split <;> omega
    · split <;> omega
    · exact pfsBitmapAllocFree_changed .ALLOC m bi.subpart start _

/-- A run of zones was free, lies in its partition and was taken, with the counters adjusted. -/
structure Taken (bi : pfs_blockinfo_t) (m m' : pfs_mount_t) : Prop where
  subpart : bi.subpart ≤ m.num_subs
  inside : 0 < bi.count → bi.number + bi.count ≤ m.zones bi.subpart
  free : ∀ p, bi.number ≤ p → p < bi.number + bi.count → m.zone bi.subpart p = false
  changed : ∃ t, Changed true bi.subpart bi.number bi.count m t ∧ m' = t.take bi.subpart bi.count

theorem searchSizes_spec (h : searchSizes m bi n = some (bi', m')) :
    ∃ amount, 0 < amount ∧ amount ≤ m.free_zone bi.subpart ∧
      pfsBitmapAllocZones m bi amount = some (bi', m') := by
  induction n using Nat.strongRecOn with
  | ind n ih =>
    rw [searchSizes] at h
    split at h
    · cases h
    · rename_i hne
      split at h
      · rename_i found hfound
        cases h
        split at hfound
        · rename_i hle
          exact ⟨n, Nat.pos_of_ne_zero hne, hle, hfound⟩
        · cases hfound
      · exact ih (n / 2) (by omega) h

/-- What a search finds was allocated in one of its passes. -/
theorem searchPartitions_allocated {passes : Nat} (hsub : bi.subpart ≤ m.num_subs)
    (h : searchPartitions m count passes bi = some (bi', m')) :
    ∃ b amount t, b.subpart ≤ m.num_subs ∧ b.count = bi.count ∧ 0 < amount ∧
      pfsBitmapAllocZones m b amount = some (bi', t) ∧ m' = t.take bi'.subpart bi'.count := by
  induction passes generalizing bi with
  | zero => cases h
  | succ passes ih =>
    rw [searchPartitions] at h
    split at h
    · rename_i b t hsizes
      cases h
      obtain ⟨amount, hpos, -, hzones⟩ := searchSizes_spec hsizes
      exact ⟨bi, amount, t, hsub, rfl, hpos, hzones, rfl⟩
    · have hnext : (if bi.subpart + 1 = m.num_subs + 1 then 0 else bi.subpart + 1) ≤ m.num_subs := by
        split <;> omega
      exact @ih ⟨0, _, bi.count⟩ hnext h

private theorem searchPartitions_spec (hZ : ∀ i ≤ m.num_subs, 32 ∣ m.zones i) {passes : Nat}
    (hsub : bi.subpart ≤ m.num_subs) (h : searchPartitions m count passes bi = some (bi', m')) :
    Taken bi' m m' ∧ m.zone bi'.subpart bi'.number = false := by
  obtain ⟨b, amount, t, hsub, -, hpos, hzones, rfl⟩ := searchPartitions_allocated hsub h
  obtain ⟨hmin, hsubpart, hinside, hfree, hchanged⟩ := pfsBitmapAllocZones_spec (hZ _ hsub) hzones
  rw [← hsubpart] at hsub hinside hfree hchanged
  refine ⟨⟨hsub, fun _ => hinside, fun p hp hp' => hfree p hp (by omega), t, hchanged, rfl⟩, ?_⟩
  exact hfree _ le_rfl (by omega)

theorem pfsBitmapSearchFreeZone_free (hZ : ∀ i ≤ m.num_subs, 32 ∣ m.zones i) {passes max_count : Nat}
    (h : pfsBitmapSearchFreeZone passes m bi max_count = some (bi', m')) :
    Taken bi' m m' ∧ m.zone bi'.subpart bi'.number = false := by
  refine searchPartitions_spec hZ ?_ h
  split
  · exact Nat.zero_le _
  · omega

theorem pfsBitmapSearchFreeZone_spec (hZ : ∀ i ≤ m.num_subs, 32 ∣ m.zones i) {passes max_count : Nat}
    (h : pfsBitmapSearchFreeZone passes m bi max_count = some (bi', m')) : Taken bi' m m' :=
  (pfsBitmapSearchFreeZone_free hZ h).1

theorem pfsBitmapAllocateAdditionalZones_spec (hZ : ∀ i ≤ m.num_subs, 32 ∣ m.zones i)
    (hsub : bi.subpart ≤ m.num_subs) {res : Nat}
    (h : pfsBitmapAllocateAdditionalZones m bi count = (res, m')) :
    Taken ⟨bi.number + bi.count, bi.subpart, res⟩ m m' := by
  unfold pfsBitmapAllocateAdditionalZones at h
  simp only at h
  obtain ⟨r, t, heq, hchanged, hinside, hfree⟩ := additional_walk (hZ _ hsub) (bi.number + bi.count)
    (if USHRT_MAX - bi.count < count then USHRT_MAX - bi.count else count)
  rw [heq] at h
  cases h
  exact ⟨hsub, hinside, hfree, t, hchanged, rfl⟩

theorem pfsBitmapFreeBlockSegment_spec (m : pfs_mount_t) (bi : pfs_blockinfo_t) :
    ∃ t, Changed false bi.subpart bi.number bi.count m t ∧
      pfsBitmapFreeBlockSegment m bi = t.give bi.subpart bi.count :=
  ⟨_, pfsBitmapAllocFree_changed .FREE m bi.subpart bi.number bi.count, rfl⟩

/-! ### The counters -/

/-- The free zones of a partition. -/
def pfs_mount_t.clear (m : pfs_mount_t) (sub : Nat) : Finset Nat :=
  (Finset.range (m.zones sub)).filter fun p => m.zone sub p = false

/-- `free_zone` counts the clear bits of every partition, and `zfree` all of them. -/
structure Counted (m : pfs_mount_t) : Prop where
  free_zone : ∀ i ≤ m.num_subs, m.free_zone i = (m.clear i).card
  zfree : m.zfree = ∑ i ∈ Finset.range (m.num_subs + 1), m.free_zone i

theorem Changed.zones (h : Changed v sub P n m m') : m'.zones = m.zones := by
  rw [h.rest]
  rfl

theorem Changed.clear_of_ne (h : Changed v sub P n m m') {i : Nat} (hi : i ≠ sub) :
    m'.clear i = m.clear i := by
  ext p
  simp only [pfs_mount_t.clear, h.zones, Finset.mem_filter, h.zone]
  rw [if_neg fun hp => hi hp.1]

theorem Changed.clear_true (h : Changed true sub P n m m') :
    m'.clear sub = m.clear sub \ Finset.Ico P (P + n) := by
  ext p
  simp only [pfs_mount_t.clear, h.zones, Finset.mem_filter, Finset.mem_sdiff, Finset.mem_Ico, h.zone]
  by_cases hp : P ≤ p ∧ p < P + n
  · simp [hp]
  · simp [hp]

theorem Changed.clear_false (h : Changed false sub P n m m') (hinside : 0 < n → P + n ≤ m.zones sub) :
    m'.clear sub = m.clear sub ∪ Finset.Ico P (P + n) := by
  ext p
  simp only [pfs_mount_t.clear, h.zones, Finset.mem_filter, Finset.mem_union, Finset.mem_Ico, h.zone,
    Finset.mem_range]
  by_cases hp : P ≤ p ∧ p < P + n
  · have hlt : p < m.zones sub := by omega
    simp [hp, hlt]
  · simp [hp]

theorem sum_update {f : Nat → Nat} {N i x : Nat} (hi : i ≤ N) :
    (∑ j ∈ Finset.range (N + 1), Function.update f i x j) + f i =
      (∑ j ∈ Finset.range (N + 1), f j) + x := by
  have hmem : i ∈ Finset.range (N + 1) := Finset.mem_range.mpr (Nat.lt_succ_of_le hi)
  rw [Finset.sum_update_of_mem hmem, ← Finset.sum_sdiff (Finset.singleton_subset_iff.mpr hmem),
    Finset.sum_singleton]
  omega

theorem Counted.recount {v : Bool} {sub P n free zfree : Nat} (hm : Counted m)
    (h : Changed v sub P n m m') (hsub : sub ≤ m.num_subs) (hcard : (m'.clear sub).card = free)
    (htotal : zfree + m.free_zone sub = m.zfree + free) :
    Counted { m' with free_zone := Function.update m'.free_zone sub free, zfree := zfree } := by
  have hnum : m'.num_subs = m.num_subs := by rw [h.rest]
  have hfree : m'.free_zone = m.free_zone := by rw [h.rest]
  refine ⟨fun i hi => ?_, ?_⟩
  · change Function.update m'.free_zone sub free i = (m'.clear i).card
    by_cases heq : i = sub
    · subst heq
      rw [Function.update_self, hcard]
    · rw [Function.update_of_ne heq, h.clear_of_ne heq, hfree]
      exact hm.free_zone i (hnum ▸ hi)
  · change zfree = ∑ i ∈ Finset.range (m'.num_subs + 1), Function.update m'.free_zone sub free i
    have hsum := sum_update (f := m.free_zone) (x := free) hsub
    rw [← hm.zfree] at hsum
    rw [hnum, hfree]
    omega

theorem Taken.counted (h : Taken bi m m') (hm : Counted m) : Counted m' := by
  obtain ⟨t, hchanged, rfl⟩ := h.changed
  have hfree : t.free_zone = m.free_zone := by rw [hchanged.rest]
  have hzfree : t.zfree = m.zfree := by rw [hchanged.rest]
  have hcount := hm.free_zone _ h.subpart
  -- the run was among the clear bits
  have hsub : Finset.Ico bi.number (bi.number + bi.count) ⊆ m.clear bi.subpart := by
    intro p hp
    obtain ⟨hle, hlt⟩ := Finset.mem_Ico.mp hp
    have hinside := h.inside (by omega)
    exact Finset.mem_filter.mpr ⟨Finset.mem_range.mpr (by omega), h.free p hle hlt⟩
  have hcard : (t.clear bi.subpart).card = (m.clear bi.subpart).card - bi.count := by
    rw [hchanged.clear_true, Finset.card_sdiff_of_subset hsub, Nat.card_Ico, Nat.add_sub_cancel_left]
  have hle : bi.count ≤ (m.clear bi.subpart).card := by
    have := Finset.card_le_card hsub
    rwa [Nat.card_Ico, Nat.add_sub_cancel_left] at this
  have hall := sum_update (f := m.free_zone) (x := 0) h.subpart
  rw [← hm.zfree] at hall
  refine hm.recount hchanged h.subpart ?_ ?_
  · rw [hcard, hfree, hcount]
  · rw [hfree, hzfree]
    omega

/-- A run whose zones are all taken lies in its partition. -/
structure Live (m : pfs_mount_t) (bi : pfs_blockinfo_t) : Prop where
  subpart : bi.subpart ≤ m.num_subs
  inside : 0 < bi.count → bi.number + bi.count ≤ m.zones bi.subpart
  used : ∀ p, bi.number ≤ p → p < bi.number + bi.count → m.zone bi.subpart p = true

structure Given (bi : pfs_blockinfo_t) (m m' : pfs_mount_t) : Prop where
  changed : ∃ t, Changed false bi.subpart bi.number bi.count m t ∧ m' = t.give bi.subpart bi.count

theorem Given.counted (h : Given bi m m') (hlive : Live m bi) (hm : Counted m) : Counted m' := by
  obtain ⟨t, hchanged, rfl⟩ := h.changed
  have hfree : t.free_zone = m.free_zone := by rw [hchanged.rest]
  have hzfree : t.zfree = m.zfree := by rw [hchanged.rest]
  have hdisjoint : Disjoint (m.clear bi.subpart) (Finset.Ico bi.number (bi.number + bi.count)) := by
    rw [Finset.disjoint_left]
    intro p hp hp'
    obtain ⟨hle, hlt⟩ := Finset.mem_Ico.mp hp'
    have hused := hlive.used p hle hlt
    rw [(Finset.mem_filter.mp hp).2] at hused
    cases hused
  have hcard : (t.clear bi.subpart).card = (m.clear bi.subpart).card + bi.count := by
    rw [hchanged.clear_false hlive.inside, Finset.card_union_of_disjoint hdisjoint, Nat.card_Ico,
      Nat.add_sub_cancel_left]
  refine hm.recount hchanged hlive.subpart ?_ ?_
  · rw [hcard, hfree, hm.free_zone _ hlive.subpart]
  · rw [hfree, hzfree]
    omega

/-! ### All calls -/

/-- Two runs have no zone in common. -/
def Apart (a b : pfs_blockinfo_t) : Prop :=
  ∀ p, ¬ (a.subpart = b.subpart ∧ (a.number ≤ p ∧ p < a.number + a.count) ∧
    b.number ≤ p ∧ p < b.number + b.count)

theorem Apart.symm {a b : pfs_blockinfo_t} (h : Apart a b) : Apart b a :=
  fun p ⟨hsub, ha, hb⟩ => h p ⟨hsub.symm, hb, ha⟩

/-- What holds before and after every call. -/
structure Sound (s : Allocator) : Prop where
  words : ∀ i ≤ s.mount.num_subs, 32 ∣ s.mount.zones i
  counted : Counted s.mount
  live : ∀ bi ∈ s.live, Live s.mount bi
  apart : s.live.Pairwise Apart

theorem Taken.sound {live : List pfs_blockinfo_t} (h : Taken bi m m') (hs : Sound ⟨m, live⟩) :
    Sound ⟨m', bi :: live⟩ := by
  have hcounted := h.counted hs.counted
  obtain ⟨t, hchanged, rfl⟩ := h.changed
  have hnum : t.num_subs = m.num_subs := by rw [hchanged.rest]
  refine ⟨fun i hi => ?_, hcounted, fun c hc => ?_, List.pairwise_cons.mpr ⟨fun c hc => ?_, hs.apart⟩⟩
  · change 32 ∣ t.zones i
    rw [hchanged.zones]
    exact hs.words i (hnum ▸ hi)
  · rcases List.mem_cons.mp hc with rfl | hc
    · refine ⟨hnum ▸ h.subpart, ?_, fun p hp hp' => ?_⟩
      · change 0 < c.count → c.number + c.count ≤ t.zones c.subpart
        rw [hchanged.zones]
        exact h.inside
      · change t.zone c.subpart p = true
        rw [hchanged.zone, if_pos ⟨rfl, hp, hp'⟩]
    · have hlive := hs.live c hc
      refine ⟨hnum ▸ hlive.subpart, ?_, fun p hp hp' => ?_⟩
      · change 0 < c.count → c.number + c.count ≤ t.zones c.subpart
        rw [hchanged.zones]
        exact hlive.inside
      · change t.zone c.subpart p = true
        rw [hchanged.zone]
        split
        · rfl
        · exact hlive.used p hp hp'
  · -- what was free belongs to no other run
    rintro p ⟨hsub, ⟨hp, hp'⟩, hc1, hc2⟩
    have hused := (hs.live c hc).used p hc1 hc2
    rw [← hsub, h.free p hp hp'] at hused
    cases hused

theorem Given.sound {live : List pfs_blockinfo_t} (h : Given bi m m') (hs : Sound ⟨m, live⟩)
    (hbi : bi ∈ live) : Sound ⟨m', live.erase bi⟩ := by
  have hcounted := h.counted (hs.live bi hbi) hs.counted
  obtain ⟨t, hchanged, rfl⟩ := h.changed
  have hnum : t.num_subs = m.num_subs := by rw [hchanged.rest]
  have hapart := ((List.perm_cons_erase hbi).pairwise_iff fun hab => Apart.symm hab).mp hs.apart
  rw [List.pairwise_cons] at hapart
  refine ⟨fun i hi => ?_, hcounted, fun c hc => ?_, hapart.2⟩
  · change 32 ∣ t.zones i
    rw [hchanged.zones]
    exact hs.words i (hnum ▸ hi)
  · have hlive := hs.live c (List.mem_of_mem_erase hc)
    refine ⟨hnum ▸ hlive.subpart, ?_, fun p hp hp' => ?_⟩
    · change 0 < c.count → c.number + c.count ≤ t.zones c.subpart
      rw [hchanged.zones]
      exact hlive.inside
    · change t.zone c.subpart p = true
      rw [hchanged.zone, if_neg]
      · exact hlive.used p hp hp'
      · rintro ⟨hsub, hin⟩
        exact hapart.1 c hc p ⟨hsub.symm, hin, hp, hp'⟩

private theorem sound_join {live rest : List pfs_blockinfo_t} {a b : pfs_blockinfo_t}
    (hs : Sound ⟨m, live⟩) (h : live.Perm (a :: b :: rest)) (hsub : a.subpart = b.subpart)
    (hnext : a.number + a.count = b.number) :
    Sound ⟨m, ⟨a.number, a.subpart, a.count + b.count⟩ :: rest⟩ := by
  have hapart := (h.pairwise_iff fun hab => Apart.symm hab).mp hs.apart
  simp only [List.pairwise_cons, List.mem_cons, forall_eq_or_imp] at hapart
  obtain ⟨⟨-, ha⟩, hb, hrest⟩ := hapart
  have hla := hs.live a (h.mem_iff.mpr (by simp))
  have hlb := hs.live b (h.mem_iff.mpr (by simp))
  refine ⟨hs.words, hs.counted, fun c hc => ?_, List.pairwise_cons.mpr ⟨fun c hc p hp => ?_, hrest⟩⟩
  · rcases List.mem_cons.mp hc with rfl | hc
    · refine ⟨hla.subpart, fun hpos => ?_, fun p hp hp' => ?_⟩
      · have h1 := hla.inside
        have h2 := hlb.inside
        simp only at hpos h1 h2 ⊢
        rw [← hsub] at h2
        omega
      · simp only at hp hp' ⊢
        by_cases hlt : p < a.number + a.count
        · exact hla.used p hp hlt
        · rw [hsub]
          exact hlb.used p (by omega) (by omega)
    · exact hs.live c (h.mem_iff.mpr (by simp [hc]))
  · simp only at hp
    obtain ⟨hsubpart, ⟨hle, hlt⟩, hc'⟩ := hp
    by_cases hin : p < a.number + a.count
    · exact ha c hc p ⟨hsubpart, ⟨hle, hin⟩, hc'⟩
    · exact hb c hc p ⟨hsub ▸ hsubpart, ⟨by omega, by omega⟩, hc'⟩

theorem Call.sound {s s' : Allocator} (h : Call s s') (hs : Sound s) : Sound s' := by
  cases h with
  | search h => exact (pfsBitmapSearchFreeZone_spec hs.words h).sound hs
  | additional hsub h => exact (pfsBitmapAllocateAdditionalZones_spec hs.words hsub h).sound hs
  | free h => exact Given.sound ⟨pfsBitmapFreeBlockSegment_spec _ _⟩ hs h
  | join h hsub hnext _ => exact sound_join hs h hsub hnext

/-- A successful allocation: the run lies in a partition and was clear, and its bits are what was changed. -/
structure Allocates (bi : pfs_blockinfo_t) (m m' : pfs_mount_t) : Prop where
  subpart : bi.subpart ≤ m.num_subs
  inside : 0 < bi.count → bi.number + bi.count ≤ m.zones bi.subpart
  free : ∀ p, bi.number ≤ p → p < bi.number + bi.count → m.zone bi.subpart p = false
  zone : ∀ s p, m'.zone s p =
    if s = bi.subpart ∧ bi.number ≤ p ∧ p < bi.number + bi.count then true else m.zone s p

theorem Taken.allocates (h : Taken bi m m') : Allocates bi m m' := by
  obtain ⟨t, hchanged, rfl⟩ := h.changed
  exact ⟨h.subpart, h.inside, h.free, hchanged.zone⟩

theorem Taken.num_subs (h : Taken bi m m') : m'.num_subs = m.num_subs := by
  obtain ⟨t, hchanged, rfl⟩ := h.changed
  rw [hchanged.rest]
  rfl

theorem Taken.zones (h : Taken bi m m') : m'.zones = m.zones := by
  obtain ⟨t, hchanged, rfl⟩ := h.changed
  rw [hchanged.rest]
  rfl

theorem Taken.inode_scale (h : Taken bi m m') : m'.inode_scale = m.inode_scale := by
  obtain ⟨t, hchanged, rfl⟩ := h.changed
  rw [hchanged.rest]
  rfl

theorem Taken.used (h : Taken bi m m') {i p : Nat} (hused : m.zone i p = true) :
    m'.zone i p = true := by
  rw [h.allocates.zone]
  split
  · rfl
  · exact hused

/-- From a mount whose counters are right, after every sequence of successful calls: the counters are right, no two live runs overlap, and whatever is allocated or freed next, it is the bits of the run that change. -/
theorem allocator_sound (m : pfs_mount_t) (s : Allocator) (hwords : ∀ i ≤ m.num_subs, 32 ∣ m.zones i)
    (hcounted : Counted m) (hcalls : Relation.ReflTransGen Call ⟨m, []⟩ s) :
    Counted s.mount ∧ s.live.Pairwise Apart ∧
    (∀ passes bi max_count found m',
      pfsBitmapSearchFreeZone passes s.mount bi max_count = some (found, m') →
        Allocates found s.mount m') ∧
    (∀ bi count res m', bi.subpart ≤ s.mount.num_subs →
      pfsBitmapAllocateAdditionalZones s.mount bi count = (res, m') →
        Allocates ⟨bi.number + bi.count, bi.subpart, res⟩ s.mount m') ∧
    ∀ bi ∈ s.live, ∀ i p, (pfsBitmapFreeBlockSegment s.mount bi).zone i p =
      if i = bi.subpart ∧ bi.number ≤ p ∧ p < bi.number + bi.count then false
      else s.mount.zone i p := by
  have hs : Sound s := by
    induction hcalls with
    | refl => exact ⟨hwords, hcounted, by simp, List.Pairwise.nil⟩
    | tail _ hcall ih => exact hcall.sound ih
  refine ⟨hs.counted, hs.apart, ?_, ?_, ?_⟩
  · exact fun passes bi max_count found m' h => (pfsBitmapSearchFreeZone_spec hs.words h).allocates
  · exact fun bi count res m' hsub h =>
      (pfsBitmapAllocateAdditionalZones_spec hs.words hsub h).allocates
  · intro bi _ i p
    obtain ⟨t, hchanged, heq⟩ := pfsBitmapFreeBlockSegment_spec s.mount bi
    rw [heq]
    exact hchanged.zone i p

/-- A filesystem of one partition with 64 zones, all of them free. -/
def emptyMount : pfs_mount_t where
  getSize := fun i => if i = 0 then 64 else 0
  sector_scale := 0
  inode_scale := 1
  pfsBlockSize := 1
  num_subs := 0
  free_zone := fun _ => 64
  zfree := 64
  bits := fun _ _ _ _ => false

example : (pfsBitmapAllocateAdditionalZones emptyMount ⟨30, 0, 1⟩ 3).1 = 3 := by decide

/-- Three zones are allocated and freed again. -/
theorem allocator_sound_empty :
    Counted (pfsBitmapFreeBlockSegment (pfsBitmapAllocateAdditionalZones emptyMount ⟨30, 0, 1⟩ 3).2
      ⟨31, 0, (pfsBitmapAllocateAdditionalZones emptyMount ⟨30, 0, 1⟩ 3).1⟩) := by
  have hcounted : Counted emptyMount := by
    refine ⟨fun i hi => ?_, by decide⟩
    obtain rfl := Nat.le_zero.mp hi
    decide
  have hwords : ∀ i ≤ emptyMount.num_subs, 32 ∣ emptyMount.zones i := by decide
  have hadditional : Call ⟨emptyMount, []⟩
      ⟨(pfsBitmapAllocateAdditionalZones emptyMount ⟨30, 0, 1⟩ 3).2,
        [⟨31, 0, (pfsBitmapAllocateAdditionalZones emptyMount ⟨30, 0, 1⟩ 3).1⟩]⟩ :=
    @Call.additional emptyMount _ [] ⟨30, 0, 1⟩ 3 _ (by decide) rfl
  exact (allocator_sound emptyMount _ hwords hcounted
    ((Relation.ReflTransGen.single hadditional).tail (.free List.mem_cons_self))).1

end HddChecker.Pfs
