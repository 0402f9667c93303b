import HddChecker.Apa.View
import HddChecker.Lib.FreeRing

/-!
# The header cache as `cache.c` has it

The buffers of `apaCacheInit` with their links, their use counts and their keys, for any number of drives. The buffers without a reference form a ring through `cacheBuf[0]`, and the first of it is the next to be taken. A run is a sequence of calls; next to the state it keeps what was stored last under each key.
-/

namespace HddChecker.Apa.Cache

open HddChecker

def APA_IO_MODE_READ : Nat := 0
def APA_IO_MODE_WRITE : Nat := 1

def ENOMEM : Int := 12

/-- `apa_cache_t`. Of `flags` the cache uses `APA_CACHE_FLAG_DIRTY` alone. -/
structure apa_cache_t where
  next : Nat
  tail : Nat
  dirty : Bool
  device : Int
  sector : Nat
  header : ApaHeader
  nused : Nat

/-- The globals of `cache.c` and `journal.c`, and the sectors of the drives. A link is the index of a buffer. -/
structure State where
  cacheSize : Nat
  cacheBuf : Nat → apa_cache_t
  journalBuf : ApaJournal
  disk : Int → Nat → Sector

namespace State

/-- An assignment to fields of a buffer. -/
def modify (i : Nat) (f : apa_cache_t → apa_cache_t) (c : State) : State :=
  { c with cacheBuf := Function.update c.cacheBuf i (f (c.cacheBuf i)) }

/-! ### The drives -/

/-- `ata_device_sector_io(.., ATA_DIR_WRITE)` -/
def ataWrite (device : Int) (lba : Nat) (data : List Sector) (c : State) : State :=
  { c with disk := fun dev a =>
      if dev = device ∧ lba ≤ a then data[a - lba]?.getD (c.disk dev a) else c.disk dev a }

/-- `apaSaveError` into the buffer `i`. -/
def apaSaveError (device : Int) (i : Nat) (lba err_lba : Nat) (c : State) : State :=
  let error : Sector := fun k => if k.val = 0 then err_lba else 0
  ataWrite device lba [error]
    (c.modify i fun clink => { clink with header := .ofSectors error clink.header.second })

/-- `apaReadHeader`: the result, and the header. A transfer that fails leaves the header alone. -/
def apaReadHeader (device : Int) (header : ApaHeader) (lba : Nat) (fails : Bool) (c : State) : Int × ApaHeader :=
  if fails then (- EIO, header)
  else
    let header := ApaHeader.ofSectors (c.disk device lba) (c.disk device (lba + 1))
    (if header.accepted lba then 0 else - EIO, header)

/-! ### `journal.c` -/

def apaJournalFlush (device : Int) (c : State) : State :=
  ataWrite device APA_SECTOR_APAL [c.journalBuf.toSector] c

def apaJournalReset (device : Int) (c : State) : State :=
  apaJournalFlush device { c with journalBuf := ApaJournal.reset }

def apaJournalWrite (i : Nat) (c : State) : State :=
  let c := c.modify i fun clink => { clink with header := clink.header.sealed }
  let clink := c.cacheBuf i
  let c := ataWrite clink.device ((2 * c.journalBuf.num).toNat + APA_SECTOR_APAL_HEADERS)
    [clink.header.first, clink.header.second] c
  { c with journalBuf := c.journalBuf.push clink.sector }

/-! ### `cache.c` -/

def apaCacheLink (clink cnew : Nat) (c : State) : State :=
  let c := c.modify cnew fun b => { b with tail := clink }
  let c := c.modify cnew fun b => { b with next := (c.cacheBuf clink).next }
  let c := c.modify (c.cacheBuf clink).next fun b => { b with tail := cnew }
  c.modify clink fun b => { b with next := cnew }

def apaCacheUnLink (clink : Nat) (c : State) : State :=
  let c := c.modify (c.cacheBuf clink).tail fun b => { b with next := (c.cacheBuf clink).next }
  c.modify (c.cacheBuf clink).next fun b => { b with tail := (c.cacheBuf clink).tail }

/-- `apaCacheInit`, where the memory of the headers is what `apaAllocMem` finds. -/
def apaCacheInit (size : Nat) (memory : Nat → ApaHeader) (disk : Int → Nat → Sector) : State :=
  (List.range' 1 size).foldl (fun c i => apaCacheLink (c.cacheBuf 0).tail i c)
    { cacheSize := size
      cacheBuf := fun i => ⟨0, 0, false, if i = 0 then 0 else - 1, 0, memory i, 0⟩
      journalBuf := ApaJournal.reset
      disk := disk }

def apaCacheTransfer (i : Nat) (type : Nat) (fails : Bool) (c : State) : Int × State :=
  let clink := c.cacheBuf i
  let clean (b : apa_cache_t) := { b with dirty := false }
  if type ≠ 0 then
    (0, (ataWrite clink.device clink.sector [clink.header.first, clink.header.second] c).modify i clean)
  else
    let (err, header) := apaReadHeader clink.device clink.header clink.sector fails c
    let c := c.modify i fun b => { b with header := header }
    let c := if err ≠ 0 then apaSaveError clink.device i APA_SECTOR_SECTOR_ERROR clink.sector c else c
    (err, c.modify i clean)

/-- A buffer the flush of `device` is about. -/
def isDirtyOn (device : Int) (i : Nat) (c : State) : Bool :=
  (c.cacheBuf i).dirty && (c.cacheBuf i).device == device

/-- One of the two loops of `apaCacheFlushAllDirty`. -/
def forDirty (device : Int) (f : Nat → State → State) (c : State) : State :=
  (List.range' 1 c.cacheSize).foldl (fun c i => if isDirtyOn device i c then f i c else c) c

def apaCacheFlushAllDirty (device : Int) (c : State) : State :=
  let c := forDirty device apaJournalWrite c
  let c := apaJournalFlush device c
  let c := forDirty device (fun i c => (apaCacheTransfer i APA_IO_MODE_WRITE false c).2) c
  apaJournalReset device c

/-- No buffer is without a reference. -/
def isFull (c : State) : Bool :=
  (c.cacheBuf 0).tail == 0 && (c.cacheBuf 0).tail == (c.cacheBuf (c.cacheBuf 0).tail).next

/-- The first buffer with the key. -/
def lookup (device : Int) (sector : Nat) (c : State) : Option Nat :=
  (List.range' 1 c.cacheSize).find? fun i =>
    (c.cacheBuf i).sector == sector && (c.cacheBuf i).device == device

/-- The first buffer of the ring is given a key and a reference. -/
def take (device : Int) (sector : Nat) (c : State) : State :=
  let i := (c.cacheBuf 0).next
  apaCacheUnLink i (c.modify i fun clink =>
    { clink with dirty := false, nused := 1, device := device, sector := sector })

/-- `apaCacheGetHeader`: the buffer and `*result`. -/
def apaCacheGetHeader (device : Int) (sector mode : Nat) (fails : Bool) (c : State) :
    Option Nat × Int × State :=
  match lookup device sector c with
  | some i =>
    let c := if (c.cacheBuf i).nused = 0 then apaCacheUnLink i c else c
    (some i, 0, c.modify i fun clink => { clink with nused := (clink.nused + 1) % 2 ^ 16 })
  | none =>
    if isFull c then (none, - ENOMEM, c)
    else
      let i := (c.cacheBuf 0).next
      let c := take device sector c
      if mode = 0 then
        let (result, c) := apaCacheTransfer i APA_IO_MODE_READ fails c
        if result < 0 then
          (none, result, apaCacheLink 0 i (c.modify i fun clink => { clink with nused := 0, device := - 1 }))
        else (some i, result, c)
      else (some i, 0, c)

def apaCacheFree (i : Nat) (c : State) : State :=
  if (c.cacheBuf i).nused = 0 then c
  else
    let c := c.modify i fun clink => { clink with nused := clink.nused - 1 }
    if (c.cacheBuf i).nused = 0 then apaCacheLink (c.cacheBuf 0).tail i c else c

def apaCacheAlloc (c : State) : Option Nat × State :=
  if isFull c then (none, c) else (some (c.cacheBuf 0).next, take (- 1) (2 ^ 32 - 1) c)

/-- A caller fills in a header and marks it dirty. -/
def setHeader (i : Nat) (header : ApaHeader) (c : State) : State :=
  c.modify i fun clink => { clink with header := header, dirty := true }

end State

open State

/-! ### Runs -/

/-- A call. `fill` is what `apaFillHeader` and `apaRemovePartition` do: a header is had in write mode and filled in at once. -/
inductive Call
  | get (device : Int) (sector mode : Nat) (fails : Bool)
  | fill (device : Int) (sector : Nat) (header : ApaHeader)
  | alloc
  | modify (clink : Nat) (header : ApaHeader)
  | flush (device : Int)
  | free (clink : Nat)

/-- The cache, and what was stored last under each key. -/
structure Run where
  cache : State
  stored : Int → Nat → ApaHeader

/-- A header is stored under the key of a buffer. -/
def store (c : State) (i : Nat) (header : ApaHeader) (stored : Int → Nat → ApaHeader) : Int → Nat → ApaHeader :=
  fun device sector =>
    if device = (c.cacheBuf i).device ∧ sector = (c.cacheBuf i).sector then header else stored device sector

def exec : Call → Run → Run
  | .get device sector mode fails, s => ⟨(apaCacheGetHeader device sector mode fails s.cache).2.2, s.stored⟩
  | .fill device sector header, s =>
    match apaCacheGetHeader device sector APA_IO_MODE_WRITE false s.cache with
    | (some i, _, c) => ⟨setHeader i header c, store c i header s.stored⟩
    | (none, _, c) => ⟨c, s.stored⟩
  | .alloc, s => ⟨(apaCacheAlloc s.cache).2, s.stored⟩
  | .modify clink header, s => ⟨setHeader clink header s.cache, store s.cache clink header s.stored⟩
  | .flush device, s => ⟨apaCacheFlushAllDirty device s.cache, s.stored⟩
  | .free clink, s => ⟨apaCacheFree clink s.cache, s.stored⟩

/-- The buffers, without the one that holds the ring. -/
def InCache (c : State) (i : Nat) : Prop := 1 ≤ i ∧ i ≤ c.cacheSize

/-- Callers work on buffers they have a reference to, and flush a modified header before the last one goes. -/
def Allowed (c : State) : Call → Prop
  | .modify clink _ => InCache c clink ∧ 0 < (c.cacheBuf clink).nused
  | .free clink => InCache c clink ∧ 0 < (c.cacheBuf clink).nused ∧
      ((c.cacheBuf clink).nused = 1 → (c.cacheBuf clink).dirty = false)
  | _ => True

/-- A header had in write mode is filled in at once. -/
def Filled : Call → Prop
  | .get _ _ mode _ => mode = APA_IO_MODE_READ
  | _ => True

/-- Headers are at the places `S` of a drive. -/
def Placed (S : Int → Nat → Prop) : Call → Prop
  | .get device sector _ _ => 0 ≤ device ∧ S device sector
  | .fill device sector _ => 0 ≤ device ∧ S device sector
  | .flush device => 0 ≤ device
  | _ => True

/-- A buffer has less than 65535 references before it has one more, and a flush has no more than 126 headers to write. -/
def Bounded (c : State) : Call → Prop
  | .get device sector _ _ => ∀ i, lookup device sector c = some i → (c.cacheBuf i).nused < 65535
  | .fill device sector _ => ∀ i, lookup device sector c = some i → (c.cacheBuf i).nused < 65535
  | .flush device => ((List.range' 1 c.cacheSize).filter (isDirtyOn device · c)).length ≤ 126
  | _ => True

def Proper (S : Int → Nat → Prop) (c : State) (call : Call) : Prop :=
  Filled call ∧ Placed S call ∧ Bounded c call

/-- The cache is set up; what is on the drives counts as stored. -/
def start (size : Nat) (memory : Nat → ApaHeader) (disk : Int → Nat → Sector) : Run :=
  ⟨apaCacheInit size memory disk, fun device sector => .ofSectors (disk device sector) (disk device (sector + 1))⟩

/-- What sequences of allowed calls with the property `P` reach. -/
inductive Reaches (P : State → Call → Prop) (s₀ : Run) : Run → Prop
  | refl : Reaches P s₀ s₀
  | step {s : Run} {call : Call} : Reaches P s₀ s → Allowed s.cache call → P s.cache call →
      Reaches P s₀ (exec call s)

variable {c c' : State} {S : Int → Nat → Prop} {stored stored' : Int → Nat → ApaHeader} {i j x : Nat} {l : List Nat}

/-! ### Buffers and links -/

@[simp] theorem modify_cacheBuf (c : State) (i j : Nat) (f : apa_cache_t → apa_cache_t) :
    (c.modify i f).cacheBuf j = if j = i then f (c.cacheBuf i) else c.cacheBuf j := by
  change Function.update c.cacheBuf i (f (c.cacheBuf i)) j = _
  rw [Function.update_apply]

@[simp] theorem modify_cacheSize (c : State) (i : Nat) (f : apa_cache_t → apa_cache_t) :
    (c.modify i f).cacheSize = c.cacheSize := rfl

@[simp] theorem modify_disk (c : State) (i : Nat) (f : apa_cache_t → apa_cache_t) :
    (c.modify i f).disk = c.disk := rfl

@[simp] theorem modify_journalBuf (c : State) (i : Nat) (f : apa_cache_t → apa_cache_t) :
    (c.modify i f).journalBuf = c.journalBuf := rfl

@[simp] theorem ataWrite_cacheBuf (device : Int) (lba : Nat) (data : List Sector) (c : State) :
    (ataWrite device lba data c).cacheBuf = c.cacheBuf := rfl

/-- `apaCacheLink` puts a buffer behind another, and changes nothing else. -/
theorem link_data (c : State) {p i : Nat} (hne : p ≠ i) (j : Nat) : (apaCacheLink p i c).cacheBuf j =
    { c.cacheBuf j with
      next := if j = p then i else if j = i then (c.cacheBuf p).next else (c.cacheBuf j).next
      tail := if j = (c.cacheBuf p).next then i else if j = i then p else (c.cacheBuf j).tail } := by
  obtain ⟨n, hn⟩ : ∃ n, (c.cacheBuf p).next = n := ⟨_, rfl⟩
  obtain ⟨d, hd⟩ : ∃ d : State, d = (c.modify i fun b => { b with tail := p }).modify i fun b =>
    { b with next := ((c.modify i fun b => { b with tail := p }).cacheBuf p).next } := ⟨_, rfl⟩
  have hdata : ∀ k, d.cacheBuf k = if k = i then { c.cacheBuf i with tail := p, next := n } else c.cacheBuf k := by
    intro k
    simp only [hd, modify_cacheBuf, if_neg hne, if_true, hn]
    split <;> rfl
  have hlink : apaCacheLink p i c = (d.modify (d.cacheBuf p).next fun b => { b with tail := i }).modify p
      fun b => { b with next := i } := by
    rw [hd]
    rfl
  have hdn : (d.cacheBuf p).next = n := by rw [hdata, if_neg hne, hn]
  rw [hlink, hdn, hn, modify_cacheBuf, modify_cacheBuf, modify_cacheBuf]
  by_cases hjp : j = p
  · subst hjp
    rw [if_pos rfl, if_pos rfl, if_neg hne]
    by_cases hjn : j = n
    · rw [if_pos hjn, if_pos hjn, ← hjn, hdata, if_neg hne]
    · rw [if_neg hjn, if_neg hjn, hdata, if_neg hne]
  · rw [if_neg hjp, if_neg hjp]
    by_cases hjn : j = n
    · rw [if_pos hjn, if_pos hjn, ← hjn, hdata]
      split_ifs with hji
      · subst hji
        subst hjn
        rfl
      · rfl
    · rw [if_neg hjn, if_neg hjn, hdata]
      split_ifs with hji
      · subst hji
        rfl
      · rfl

/-- `apaCacheUnLink` links the neighbours of a buffer to each other, and changes nothing else. -/
theorem unlink_data (c : State) (i j : Nat) : (apaCacheUnLink i c).cacheBuf j =
    { c.cacheBuf j with
      next := if j = (c.cacheBuf i).tail then (c.cacheBuf i).next else (c.cacheBuf j).next
      tail := if j = (c.cacheBuf i).next then (c.cacheBuf i).tail else (c.cacheBuf j).tail } := by
  obtain ⟨n, hn⟩ : ∃ n, (c.cacheBuf i).next = n := ⟨_, rfl⟩
  obtain ⟨t, ht⟩ : ∃ t, (c.cacheBuf i).tail = t := ⟨_, rfl⟩
  obtain ⟨d, hd⟩ : ∃ d : State, d = c.modify (c.cacheBuf i).tail fun b =>
    { b with next := (c.cacheBuf i).next } := ⟨_, rfl⟩
  have hdata : ∀ k, d.cacheBuf k = if k = t then { c.cacheBuf t with next := n } else c.cacheBuf k := by
    intro k
    rw [hd, modify_cacheBuf, hn, ht]
  have hunlink : apaCacheUnLink i c = d.modify (d.cacheBuf i).next fun b =>
      { b with tail := (d.cacheBuf i).tail } := by
    rw [hd]
    rfl
  have hself : (d.cacheBuf i).next = n ∧ (d.cacheBuf i).tail = t := by
    rw [hdata]
    split
    · rename_i hit
      rw [← hit]
      exact ⟨rfl, ht.trans hit.symm⟩
    · exact ⟨hn, ht⟩
  rw [hunlink, hself.1, hself.2, hn, ht, modify_cacheBuf]
  by_cases hjn : j = n
  · rw [if_pos hjn, if_pos hjn, ← hjn, hdata]
    split_ifs with hjt
    · subst hjt
      subst hjn
      rfl
    · rfl
  · rw [if_neg hjn, if_neg hjn, hdata]
    split_ifs with hjt
    · subst hjt
      rfl
    · rfl

/-- The buffers `l` are the ring, in this order. -/
def Ring (c : State) (l : List Nat) : Prop :=
  FreeRing (fun i => (c.cacheBuf i).next) (fun i => (c.cacheBuf i).tail) 0 l

/-- The ring has the buffers nobody refers to. -/
structure Idle (c : State) (l : List Nat) : Prop where
  ring : Ring c l
  mem_iff : ∀ i, i ∈ l ↔ InCache c i ∧ (c.cacheBuf i).nused = 0

theorem Ring.congr (h : Ring c l) (hnext : ∀ j, (c'.cacheBuf j).next = (c.cacheBuf j).next)
    (htail : ∀ j, (c'.cacheBuf j).tail = (c.cacheBuf j).tail) : Ring c' l :=
  FreeRing.congr h hnext htail

theorem Ring.unlink (h : Ring c l) (hi : i ∈ l) : Ring (apaCacheUnLink i c) (l.erase i) := by
  apply FreeRing.erase h hi
  · intro j
    rw [unlink_data]
  · intro j
    rw [unlink_data]

theorem Ring.append (h : Ring c l) (hi : i ∉ 0 :: l) : Ring (apaCacheLink (c.cacheBuf 0).tail i c) (l ++ [i]) := by
  have hne : (c.cacheBuf 0).tail ≠ i := fun heq => hi (heq ▸ h.path.last_mem)
  apply FreeRing.append h hi
  · intro j
    rw [link_data c hne]
  · intro j
    rw [link_data c hne]

theorem Ring.push (h : Ring c l) (hi : i ∉ 0 :: l) : Ring (apaCacheLink 0 i c) (i :: l) := by
  have hne : 0 ≠ i := fun heq => hi (heq ▸ List.mem_cons_self)
  apply FreeRing.push h hi
  · intro j
    rw [link_data c hne]
  · intro j
    rw [link_data c hne]

theorem Ring.of_not_full (h : Ring c l) (hfull : isFull c = false) : ∃ m, l = (c.cacheBuf 0).next :: m := by
  cases l with
  | nil =>
    obtain ⟨hnext, htail⟩ := h.path
    dsimp only at hnext htail
    rw [isFull, htail, hnext] at hfull
    simp at hfull
  | cons x l => exact ⟨l, by rw [← h.next_root]⟩

/-! ### Contents -/

/-- Two buffers hold the same, whatever they are linked to. -/
structure SameData (a b : apa_cache_t) : Prop where
  dirty : a.dirty = b.dirty
  device : a.device = b.device
  sector : a.sector = b.sector
  header : a.header = b.header
  nused : a.nused = b.nused

theorem SameData.refl (b : apa_cache_t) : SameData b b := ⟨rfl, rfl, rfl, rfl, rfl⟩

def HasKey (b : apa_cache_t) (device : Int) (sector : Nat) : Prop := b.device = device ∧ b.sector = sector

/-- The two sectors of a header on a drive. -/
def onDisk (c : State) (device : Int) (sector : Nat) : ApaHeader :=
  .ofSectors (c.disk device sector) (c.disk device (sector + 1))

/-- Each key is that of one buffer at most. A buffer with a key holds what was stored under it, and so does the drive unless the buffer is dirty. -/
structure Content (S : Int → Nat → Prop) (c : State) (stored : Int → Nat → ApaHeader) : Prop where
  unique : ∀ i j, InCache c i → InCache c j → 0 ≤ (c.cacheBuf i).device →
    HasKey (c.cacheBuf j) (c.cacheBuf i).device (c.cacheBuf i).sector → j = i
  placed : ∀ i, InCache c i → 0 ≤ (c.cacheBuf i).device → S (c.cacheBuf i).device (c.cacheBuf i).sector
  idle : ∀ i, InCache c i → (c.cacheBuf i).nused = 0 → (c.cacheBuf i).dirty = false
  held : ∀ i, InCache c i → 0 ≤ (c.cacheBuf i).device →
    (c.cacheBuf i).header.sealed = (stored (c.cacheBuf i).device (c.cacheBuf i).sector).sealed
  clean : ∀ device sector, 0 ≤ device → S device sector →
    (∀ i, InCache c i → HasKey (c.cacheBuf i) device sector → (c.cacheBuf i).dirty = false) →
    (onDisk c device sector).sealed = (stored device sector).sealed

theorem sealed_sealed (h : ApaHeader) : h.sealed.sealed = h.sealed := by
  change ({ h.sealed with checksum := apaCheckSum h.sealed } : ApaHeader) = _
  rw [apaCheckSum_sealed]
  rfl

/-- The buffer `x` comes to hold what `b` holds; no other changes. -/
structure Changed (c c' : State) (x : Nat) (b : apa_cache_t) : Prop where
  size : c'.cacheSize = c.cacheSize
  self : SameData (c'.cacheBuf x) b
  other : ∀ j, j ≠ x → SameData (c'.cacheBuf j) (c.cacheBuf j)

/-- One buffer changes, and with it what is on the drives and what counts as stored. -/
theorem Content.replace (h : Content S c stored) {b : apa_cache_t} (hx : InCache c x) (hc : Changed c c' x b)
    (hfree : 0 ≤ b.device → ∀ j, InCache c j → HasKey (c.cacheBuf j) b.device b.sector → j = x)
    (hplaced : 0 ≤ b.device → S b.device b.sector) (hidle : b.nused = 0 → b.dirty = false)
    (hheld : 0 ≤ b.device → b.header.sealed = (stored' b.device b.sector).sealed)
    (hstored : ∀ j, j ≠ x → InCache c j → 0 ≤ (c.cacheBuf j).device →
      stored' (c.cacheBuf j).device (c.cacheBuf j).sector = stored (c.cacheBuf j).device (c.cacheBuf j).sector)
    (hclean : ∀ device sector, 0 ≤ device → S device sector → (HasKey b device sector → b.dirty = false) →
      (∀ j, j ≠ x → InCache c j → HasKey (c.cacheBuf j) device sector → (c.cacheBuf j).dirty = false) →
      (onDisk c' device sector).sealed = (stored' device sector).sealed) : Content S c' stored' := by
  obtain ⟨hsize, hself, hother⟩ := hc
  have hin : ∀ j, InCache c' j ↔ InCache c j := by
    intro j
    unfold InCache
    rw [hsize]
  have hkey : ∀ j, j ≠ x → ∀ device sector,
      HasKey (c'.cacheBuf j) device sector ↔ HasKey (c.cacheBuf j) device sector := by
    intro j hj device sector
    unfold HasKey
    rw [(hother j hj).device, (hother j hj).sector]
  have hxkey : ∀ device sector, HasKey (c'.cacheBuf x) device sector ↔ HasKey b device sector := by
    intro device sector
    unfold HasKey
    rw [hself.device, hself.sector]
  constructor
  case unique =>
    intro i j hi hj hdevice hij
    rw [hin] at hi hj
    by_cases hix : i = x
    · subst hix
      by_contra hji
      rw [hself.device, hself.sector] at hij
      rw [hself.device] at hdevice
      exact hji (hfree hdevice j hj ((hkey j hji _ _).mp hij))
    · rw [(hother i hix).device, (hother i hix).sector] at hij
      rw [(hother i hix).device] at hdevice
      by_cases hjx : j = x
      · subst hjx
        obtain ⟨hd, hs⟩ := (hxkey _ _).mp hij
        exact absurd (hfree (hd ▸ hdevice) i hi ⟨hd.symm, hs.symm⟩) hix
      · exact h.unique i j hi hj hdevice ((hkey j hjx _ _).mp hij)
  case placed =>
    intro i hi hdevice
    by_cases hix : i = x
    · subst hix
      rw [hself.device, hself.sector] at *
      exact hplaced hdevice
    · rw [(hother i hix).device, (hother i hix).sector] at *
      exact h.placed i ((hin i).mp hi) hdevice
  case idle =>
    intro i hi hused
    by_cases hix : i = x
    · subst hix
      rw [hself.nused] at hused
      rw [hself.dirty]
      exact hidle hused
    · rw [(hother i hix).nused] at hused
      rw [(hother i hix).dirty]
      exact h.idle i ((hin i).mp hi) hused
  case held =>
    intro i hi hdevice
    by_cases hix : i = x
    · subst hix
      rw [hself.device] at hdevice
      rw [hself.header, hself.device, hself.sector]
      exact hheld hdevice
    · rw [(hother i hix).device] at hdevice
      rw [(hother i hix).header, (hother i hix).device, (hother i hix).sector,
        hstored i hix ((hin i).mp hi) hdevice]
      exact h.held i ((hin i).mp hi) hdevice
  case clean =>
    intro device sector hdevice hplace hdirty
    apply hclean device sector hdevice hplace
    · intro hb
      rw [← hself.dirty]
      exact hdirty x ((hin x).mpr hx) ((hxkey _ _).mpr hb)
    · intro j hj hjin hjkey
      rw [← (hother j hj).dirty]
      exact hdirty j ((hin j).mpr hjin) ((hkey j hj _ _).mpr hjkey)

/-- A buffer keeps its key and its dirty bit, and its header up to the checksum. -/
theorem Content.keep (h : Content S c stored) {b : apa_cache_t} (hx : InCache c x) (hc : Changed c c' x b)
    (hkey : HasKey b (c.cacheBuf x).device (c.cacheBuf x).sector)
    (hheader : b.header.sealed = (c.cacheBuf x).header.sealed) (hdirty : b.dirty = (c.cacheBuf x).dirty)
    (hidle : b.nused = 0 → b.dirty = false)
    (hdisk : ∀ device sector, S device sector → onDisk c' device sector = onDisk c device sector) :
    Content S c' stored := by
  obtain ⟨hdevice, hsector⟩ := hkey
  apply h.replace hx hc
  · rw [hdevice, hsector]
    exact fun hd j hj hkey => h.unique x j hx hj hd hkey
  · rw [hdevice, hsector]
    exact h.placed x hx
  · exact hidle
  · rw [hdevice, hsector, hheader]
    exact h.held x hx
  · exact fun _ _ _ _ => rfl
  · intro device sector hd hplace hb hother
    rw [hdisk device sector hplace]
    apply h.clean device sector hd hplace
    intro j hj hjkey
    by_cases hjx : j = x
    · subst hjx
      rw [← hdirty]
      exact hb ⟨hdevice.trans hjkey.1, hsector.trans hjkey.2⟩
    · exact hother j hjx hj hjkey

/-- A buffer without a reference is given to a key, clean. -/
theorem Content.taken (h : Content S c stored) {b : apa_cache_t} (hx : InCache c x) (hc : Changed c c' x b)
    (hused : (c.cacheBuf x).nused = 0) (hdirty : b.dirty = false)
    (hfree : 0 ≤ b.device → ∀ j, InCache c j → ¬ HasKey (c.cacheBuf j) b.device b.sector)
    (hplaced : 0 ≤ b.device → S b.device b.sector)
    (hheld : 0 ≤ b.device → b.header.sealed = (onDisk c b.device b.sector).sealed)
    (hdisk : ∀ device sector, S device sector → onDisk c' device sector = onDisk c device sector) :
    Content S c' stored := by
  apply h.replace hx hc
  · exact fun hd j hj hkey => absurd hkey (hfree hd j hj)
  · exact hplaced
  · exact fun _ => hdirty
  · intro hd
    rw [hheld hd]
    apply h.clean b.device b.sector hd (hplaced hd)
    exact fun j hj hkey => absurd hkey (hfree hd j hj)
  · exact fun _ _ _ _ => rfl
  · intro device sector hd hplace _ hother
    rw [hdisk device sector hplace]
    apply h.clean device sector hd hplace
    intro j hj hjkey
    by_cases hjx : j = x
    · subst hjx
      exact h.idle j hj hused
    · exact hother j hjx hj hjkey

/-- A buffer is filled in under its key, which no other has. -/
theorem Content.filled (h : Content S c stored) {b : apa_cache_t} (hx : InCache c x) (hc : Changed c c' x b)
    (hold : (c.cacheBuf x).nused = 0 ∨ HasKey b (c.cacheBuf x).device (c.cacheBuf x).sector)
    (hdirty : b.dirty = true) (hused : b.nused ≠ 0)
    (hfree : 0 ≤ b.device → ∀ j, InCache c j → HasKey (c.cacheBuf j) b.device b.sector → j = x)
    (hplaced : 0 ≤ b.device → S b.device b.sector)
    (hdisk : ∀ device sector, S device sector → onDisk c' device sector = onDisk c device sector)
    (hself : stored' b.device b.sector = b.header)
    (hother : ∀ device sector, ¬ HasKey b device sector → stored' device sector = stored device sector) :
    Content S c' stored' := by
  apply h.replace hx hc
  · exact hfree
  · exact hplaced
  · exact fun hzero => absurd hzero hused
  · intro _
    rw [hself]
  · intro j hjx hj hd
    apply hother
    rintro ⟨hdevice, hsector⟩
    exact hjx (hfree (hdevice ▸ hd) j hj ⟨hdevice.symm, hsector.symm⟩)
  · intro device sector hd hplace hb hrest
    have hne : ¬ HasKey b device sector := by
      intro hkey
      rw [hb hkey] at hdirty
      cases hdirty
    rw [hdisk device sector hplace, hother device sector hne]
    apply h.clean device sector hd hplace
    intro j hj hjkey
    by_cases hjx : j = x
    · subst hjx
      rcases hold with hzero | ⟨hdevice, hsector⟩
      · exact h.idle j hj hzero
      · exact absurd ⟨hdevice.trans hjkey.1, hsector.trans hjkey.2⟩ hne
    · exact hrest j hjx hj hjkey

/-! ### The ring as buffers come and go -/

theorem Idle.leave {b : apa_cache_t} (h : Idle c l) (hc : Changed c c' x b) (hx : x ∈ l) (hused : b.nused ≠ 0)
    (hring : Ring c' (l.erase x)) : Idle c' (l.erase x) := by
  refine ⟨hring, fun j => ?_⟩
  have hnodup := (List.nodup_cons.mp h.ring.nodup).2
  rw [hnodup.mem_erase_iff, h.mem_iff]
  unfold InCache
  rw [hc.size]
  by_cases hjx : j = x
  · subst hjx
    rw [hc.self.nused]
    simp [hused]
  · rw [(hc.other j hjx).nused]
    simp [hjx]

theorem Idle.enter {b : apa_cache_t} {m : List Nat} (h : Idle c l) (hc : Changed c c' x b) (hx : InCache c x)
    (hused : b.nused = 0) (hm : ∀ j, j ∈ m ↔ j = x ∨ j ∈ l) (hring : Ring c' m) : Idle c' m := by
  refine ⟨hring, fun j => ?_⟩
  rw [hm, h.mem_iff]
  unfold InCache at *
  rw [hc.size]
  by_cases hjx : j = x
  · subst hjx
    rw [hc.self.nused]
    simp [hused, hx]
  · rw [(hc.other j hjx).nused]
    simp [hjx]

theorem Idle.stay {b : apa_cache_t} (h : Idle c l) (hc : Changed c c' x b)
    (hused : b.nused = 0 ↔ (c.cacheBuf x).nused = 0) (hring : Ring c' l) : Idle c' l := by
  refine ⟨hring, fun j => ?_⟩
  rw [h.mem_iff]
  unfold InCache
  rw [hc.size]
  by_cases hjx : j = x
  · subst hjx
    rw [hc.self.nused, hused]
  · rw [(hc.other j hjx).nused]

/-! ### What `apaCacheGetHeader` does -/

theorem sameData_link (c : State) {p : Nat} (hne : p ≠ i) (j : Nat) :
    SameData ((apaCacheLink p i c).cacheBuf j) (c.cacheBuf j) := by
  rw [link_data c hne]
  exact ⟨rfl, rfl, rfl, rfl, rfl⟩

theorem sameData_unlink (c : State) (i j : Nat) : SameData ((apaCacheUnLink i c).cacheBuf j) (c.cacheBuf j) := by
  rw [unlink_data]
  exact ⟨rfl, rfl, rfl, rfl, rfl⟩

theorem SameData.trans {a b d : apa_cache_t} (h : SameData a b) (h' : SameData b d) : SameData a d :=
  ⟨h.dirty.trans h'.dirty, h.device.trans h'.device, h.sector.trans h'.sector, h.header.trans h'.header,
    h.nused.trans h'.nused⟩

theorem changed_modify (c : State) (i : Nat) (f : apa_cache_t → apa_cache_t) :
    Changed c (c.modify i f) i (f (c.cacheBuf i)) := by
  refine ⟨rfl, ?_, fun j hj => ?_⟩
  · rw [modify_cacheBuf, if_pos rfl]
    exact SameData.refl _
  · rw [modify_cacheBuf, if_neg hj]
    exact SameData.refl _

theorem Changed.link {b : apa_cache_t} (h : Changed c c' x b) {p : Nat} (hne : p ≠ i) :
    Changed c (apaCacheLink p i c') x b where
  size := h.size
  self := (sameData_link c' hne x).trans h.self
  other := fun j hj => (sameData_link c' hne j).trans (h.other j hj)

theorem Changed.unlink {b : apa_cache_t} (h : Changed c c' x b) (i : Nat) :
    Changed c (apaCacheUnLink i c') x b where
  size := h.size
  self := (sameData_unlink c' i x).trans h.self
  other := fun j hj => (sameData_unlink c' i j).trans (h.other j hj)

theorem Ring.modify (h : Ring c l) {f : apa_cache_t → apa_cache_t} (hnext : ∀ b, (f b).next = b.next)
    (htail : ∀ b, (f b).tail = b.tail) : Ring (c.modify i f) l := by
  apply h.congr
  · intro j
    rw [modify_cacheBuf]
    split
    · rename_i hji
      rw [hji, hnext]
    · rfl
  · intro j
    rw [modify_cacheBuf]
    split
    · rename_i hji
      rw [hji, htail]
    · rfl

theorem lookup_some {device : Int} {sector : Nat} (h : lookup device sector c = some i) :
    InCache c i ∧ HasKey (c.cacheBuf i) device sector := by
  have hkey := List.find?_some h
  have hmem := List.mem_range'_1.mp (List.mem_of_find?_eq_some h)
  rw [Bool.and_eq_true, beq_iff_eq, beq_iff_eq] at hkey
  exact ⟨⟨hmem.1, by omega⟩, hkey.2, hkey.1⟩

theorem lookup_none {device : Int} {sector : Nat} (h : lookup device sector c = none) (hj : InCache c j) :
    ¬ HasKey (c.cacheBuf j) device sector := by
  rintro ⟨hdevice, hsector⟩
  obtain ⟨hlow, hhigh⟩ := hj
  have := List.find?_eq_none.mp h j (List.mem_range'_1.mpr ⟨hlow, by omega⟩)
  simp [hdevice, hsector] at this

/-- The first buffer of the ring is taken. -/
theorem take_spec (h : Idle c l) (hfull : isFull c = false) (device : Int) (sector : Nat) :
    InCache c (c.cacheBuf 0).next ∧ (c.cacheBuf (c.cacheBuf 0).next).nused = 0 ∧
    Changed c (take device sector c) (c.cacheBuf 0).next { c.cacheBuf (c.cacheBuf 0).next with
      dirty := false, nused := 1, device := device, sector := sector } ∧
    ∃ m, Idle (take device sector c) m := by
  obtain ⟨m, hm⟩ := h.ring.of_not_full hfull
  have hmem : (c.cacheBuf 0).next ∈ l := by
    rw [hm]
    exact List.mem_cons_self
  obtain ⟨hin, hused⟩ := (h.mem_iff _).mp hmem
  have hchanged : Changed c (take device sector c) (c.cacheBuf 0).next _ :=
    (changed_modify c (c.cacheBuf 0).next fun clink =>
      { clink with dirty := false, nused := 1, device := device, sector := sector }).unlink _
  refine ⟨hin, hused, hchanged, l.erase (c.cacheBuf 0).next, ?_⟩
  apply h.leave hchanged hmem one_ne_zero
  apply Ring.unlink _ hmem
  apply h.ring.modify
  · exact fun _ => rfl
  · exact fun _ => rfl

/-- The drives hold the same, except in the error sector. -/
def SameDisk (c c' : State) : Prop :=
  ∀ device a, a ≠ APA_SECTOR_SECTOR_ERROR → c'.disk device a = c.disk device a

/-- A read brings in what is on the drive, or it fails and leaves a header nobody may look at. -/
private theorem transfer_read (c : State) (i : Nat) (fails : Bool) :
    apaCacheTransfer i APA_IO_MODE_READ fails c = (0, c.modify i fun b =>
      { b with header := onDisk c b.device b.sector, dirty := false }) ∨
    ∃ header disk, apaCacheTransfer i APA_IO_MODE_READ fails c = (- EIO, { c.modify i fun b =>
      { b with header := header, dirty := false } with disk := disk }) ∧
      ∀ device a, a ≠ APA_SECTOR_SECTOR_ERROR → disk device a = c.disk device a := by
  obtain ⟨err, header, hread⟩ : ∃ err header, State.apaReadHeader (c.cacheBuf i).device (c.cacheBuf i).header
      (c.cacheBuf i).sector fails c = (err, header) := ⟨_, _, rfl⟩
  have hcases : (err = 0 ∧ header = onDisk c (c.cacheBuf i).device (c.cacheBuf i).sector) ∨ err = - EIO := by
    unfold State.apaReadHeader at hread
    split at hread
    · exact .inr (Prod.ext_iff.mp hread).1.symm
    · obtain ⟨herr, hheader⟩ := Prod.ext_iff.mp hread
      dsimp only at herr hheader
      split at herr
      · exact .inl ⟨herr.symm, hheader.symm⟩
      · exact .inr herr.symm
  have htransfer : apaCacheTransfer i APA_IO_MODE_READ fails c = (err,
      (if err ≠ 0 then apaSaveError (c.cacheBuf i).device i APA_SECTOR_SECTOR_ERROR (c.cacheBuf i).sector
        (c.modify i fun b => { b with header := header })
      else c.modify i fun b => { b with header := header }).modify i fun b => { b with dirty := false }) := by
    unfold apaCacheTransfer
    rw [if_neg (by decide), hread]
  rcases hcases with ⟨rfl, rfl⟩ | rfl
  · left
    rw [htransfer, if_neg (by decide)]
    unfold State.modify
    simp [Function.update_idem]
  · right
    rw [htransfer, if_pos (by decide)]
    refine ⟨.ofSectors (fun k => if k.val = 0 then (c.cacheBuf i).sector else 0) header.second,
      (ataWrite (c.cacheBuf i).device APA_SECTOR_SECTOR_ERROR
        [fun k => if k.val = 0 then (c.cacheBuf i).sector else 0] c).disk, ?_, ?_⟩
    · unfold apaSaveError State.modify ataWrite
      simp [Function.update_idem]
    · intro device a ha
      unfold ataWrite
      dsimp only
      split
      · rename_i hat
        obtain ⟨k, hk⟩ : ∃ k, a - APA_SECTOR_SECTOR_ERROR = k + 1 :=
          ⟨a - APA_SECTOR_SECTOR_ERROR - 1, by omega⟩
        rw [hk]
        rfl
      · rfl

/-- What `apaCacheGetHeader` answers, and what it changes: a buffer with the key has one more reference, or one of the ring is given the key, or the read fails and the buffer has none. -/
inductive Got (c : State) (device : Int) (sector mode : Nat) : Option Nat → State → Prop
  | found {i : Nat} {c' : State} : InCache c i → HasKey (c.cacheBuf i) device sector →
      Changed c c' i { c.cacheBuf i with nused := (c.cacheBuf i).nused + 1 } → c'.disk = c.disk →
      Got c device sector mode (some i) c'
  | full : Got c device sector mode none c
  | loaded {i : Nat} {c' : State} : InCache c i → (c.cacheBuf i).nused = 0 → lookup device sector c = none →
      Changed c c' i { c.cacheBuf i with
        dirty := false, nused := 1, device := device, sector := sector
        header := if mode = 0 then onDisk c device sector else (c.cacheBuf i).header } →
      c'.disk = c.disk → Got c device sector mode (some i) c'
  | failed {i : Nat} {c' : State} {header : ApaHeader} : InCache c i → (c.cacheBuf i).nused = 0 →
      Changed c c' i { c.cacheBuf i with
        dirty := false, nused := 0, device := - 1, sector := sector, header := header } →
      SameDisk c c' → Got c device sector mode none c'

theorem Changed.of_modify {d : State} {f : apa_cache_t → apa_cache_t} {b : apa_cache_t}
    (hsize : d.cacheSize = c.cacheSize) (hsame : ∀ j, SameData (d.cacheBuf j) (c.cacheBuf j))
    (hf : SameData (f (d.cacheBuf x)) b) : Changed c (d.modify x f) x b := by
  refine ⟨hsize, ?_, fun j hj => ?_⟩
  · rw [modify_cacheBuf, if_pos rfl]
    exact hf
  · rw [modify_cacheBuf, if_neg hj]
    exact hsame j

theorem Changed.trans_changed {d : State} {a a' b : apa_cache_t} (h : Changed c d x a) (h' : Changed d c' x a')
    (hb : SameData a' b) : Changed c c' x b where
  size := h'.size.trans h.size
  self := h'.self.trans hb
  other := fun j hj => (h'.other j hj).trans (h.other j hj)

theorem Changed.trans {d : State} {a b : apa_cache_t} (h : Changed c d x a) (hsize : c'.cacheSize = d.cacheSize)
    (hself : SameData (c'.cacheBuf x) b) (hother : ∀ j, j ≠ x → c'.cacheBuf j = d.cacheBuf j) :
    Changed c c' x b := by
  refine ⟨hsize.trans h.size, hself, fun j hj => ?_⟩
  rw [hother j hj]
  exact h.other j hj

/-- A buffer whose read failed goes back into the ring, without a key. -/
theorem Idle.failed {d : State} {m : List Nat} (h : Idle d m) (hin : InCache d i) (hused : (d.cacheBuf i).nused ≠ 0)
    (header : ApaHeader) (disk : Int → Nat → Sector) {e : State}
    (he : e = ({ d.modify i fun b => { b with header := header, dirty := false } with disk := disk } :
      State).modify i fun clink => { clink with nused := 0, device := - 1 }) :
    Changed d (apaCacheLink 0 i e) i
      { d.cacheBuf i with header := header, dirty := false, nused := 0, device := - 1 } ∧
    Idle (apaCacheLink 0 i e) (i :: m) := by
  have hself : e.cacheBuf i = { d.cacheBuf i with
      header := header, dirty := false, nused := 0, device := - 1 } := by
    rw [he, modify_cacheBuf, if_pos rfl]
    dsimp only
    rw [modify_cacheBuf, if_pos rfl]
  have hother : ∀ j, j ≠ i → e.cacheBuf j = d.cacheBuf j := by
    intro j hj
    rw [he, modify_cacheBuf, if_neg hj]
    dsimp only
    rw [modify_cacheBuf, if_neg hj]
  have hlinks : ∀ j, (e.cacheBuf j).next = (d.cacheBuf j).next ∧
      (e.cacheBuf j).tail = (d.cacheBuf j).tail := by
    intro j
    by_cases hj : j = i
    · rw [hj, hself]
      exact ⟨rfl, rfl⟩
    · rw [hother j hj]
      exact ⟨rfl, rfl⟩
  have hring : Ring e m := h.ring.congr (fun j => (hlinks j).1) fun j => (hlinks j).2
  have hnot : i ∉ 0 :: m := by
    rw [List.mem_cons, h.mem_iff]
    rintro (rfl | ⟨-, hzero⟩)
    · exact absurd hin.1 (by decide)
    · exact hused hzero
  have hne : 0 ≠ i := fun heq => hnot (heq ▸ List.mem_cons_self)
  have hchanged : Changed d e i { d.cacheBuf i with
      header := header, dirty := false, nused := 0, device := - 1 } := by
    refine ⟨by rw [he]; rfl, ?_, fun j hj => ?_⟩
    · rw [hself]
      exact SameData.refl _
    · rw [hother j hj]
      exact SameData.refl _
  refine ⟨hchanged.link hne, ?_⟩
  apply h.enter (hchanged.link hne) hin rfl
  · intro j
    exact List.mem_cons
  · exact hring.push hnot

theorem get_spec (h : Idle c l) (device : Int) (sector mode : Nat) (fails : Bool)
    (hfew : ∀ i, lookup device sector c = some i → (c.cacheBuf i).nused < 65535) :
    Got c device sector mode (apaCacheGetHeader device sector mode fails c).1
      (apaCacheGetHeader device sector mode fails c).2.2 ∧
    (apaCacheGetHeader device sector mode fails c).2.2.journalBuf = c.journalBuf ∧
    ∃ m, Idle (apaCacheGetHeader device sector mode fails c).2.2 m := by
  unfold apaCacheGetHeader
  cases hl : lookup device sector c with
  | some i =>
    obtain ⟨hin, hkey⟩ := lookup_some hl
    have hmod : ((c.cacheBuf i).nused + 1) % 2 ^ 16 = (c.cacheBuf i).nused + 1 :=
      Nat.mod_eq_of_lt (by have := hfew i hl; omega)
    dsimp only
    split
    · rename_i hused
      have hmem : i ∈ l := (h.mem_iff i).mpr ⟨hin, hused⟩
      have hsame := sameData_unlink c i i
      have hc : Changed c ((apaCacheUnLink i c).modify i fun clink =>
          { clink with nused := (clink.nused + 1) % 2 ^ 16 }) i
          { c.cacheBuf i with nused := (c.cacheBuf i).nused + 1 } := by
        apply Changed.of_modify (c := c) (d := apaCacheUnLink i c) rfl (sameData_unlink c i)
        exact ⟨hsame.dirty, hsame.device, hsame.sector, hsame.header, by rw [hsame.nused, hmod]⟩
      refine ⟨.found hin hkey hc rfl, rfl, l.erase i, ?_⟩
      apply h.leave hc hmem (Nat.succ_ne_zero _)
      apply (h.ring.unlink hmem).modify
      · exact fun _ => rfl
      · exact fun _ => rfl
    · rename_i hused
      have hc : Changed c (c.modify i fun clink => { clink with nused := (clink.nused + 1) % 2 ^ 16 }) i
          { c.cacheBuf i with nused := (c.cacheBuf i).nused + 1 } := by
        apply Changed.of_modify (c := c) (d := c) rfl fun _ => SameData.refl _
        exact ⟨rfl, rfl, rfl, rfl, hmod⟩
      refine ⟨.found hin hkey hc rfl, rfl, l, ?_⟩
      apply h.stay hc
      · exact iff_of_false (Nat.succ_ne_zero _) hused
      · apply h.ring.modify
        · exact fun _ => rfl
        · exact fun _ => rfl
  | none =>
    dsimp only
    split
    · exact ⟨.full, rfl, l, h⟩
    · rename_i hfull
      obtain ⟨hin, hused, hc, m, hm⟩ := take_spec h (Bool.not_eq_true _ ▸ hfull) device sector
      obtain ⟨i, hi⟩ : ∃ i, (c.cacheBuf 0).next = i := ⟨_, rfl⟩
      obtain ⟨d, hd⟩ : ∃ d, take device sector c = d := ⟨_, rfl⟩
      have hdisk : d.disk = c.disk := by
        rw [← hd]
        rfl
      have hjournal : d.journalBuf = c.journalBuf := by
        rw [← hd]
        rfl
      rw [hi] at hin hused hc ⊢
      rw [hd] at hc hm ⊢
      split
      · rename_i hmode
        have hkey : onDisk d (d.cacheBuf i).device (d.cacheBuf i).sector = onDisk c device sector := by
          rw [hc.self.device, hc.self.sector]
          unfold onDisk
          rw [hdisk]
        rcases transfer_read d i fails with heq | ⟨header, disk, heq, hsame⟩
        · rw [heq]
          dsimp only
          rw [if_neg (lt_irrefl 0)]
          refine ⟨.loaded hin hused hl (hc.trans rfl ?_ fun j hj => ?_) hdisk, hjournal, m, ?_⟩
          · rw [modify_cacheBuf, if_pos rfl, if_pos hmode]
            exact ⟨rfl, hc.self.device, hc.self.sector, hkey, hc.self.nused⟩
          · rw [modify_cacheBuf, if_neg hj]
          · dsimp only
            apply hm.stay (changed_modify d i _) Iff.rfl
            apply hm.ring.modify
            · exact fun _ => rfl
            · exact fun _ => rfl
        · rw [heq]
          dsimp only
          rw [if_pos (by decide)]
          obtain ⟨hback, hidle⟩ := hm.failed ⟨hin.1, hc.size ▸ hin.2⟩
            (by rw [hc.self.nused]; exact one_ne_zero) header disk rfl
          have hcleared : Changed c _ i { c.cacheBuf i with
              dirty := false, nused := 0, device := - 1, sector := sector, header := header } :=
            hc.trans_changed hback ⟨rfl, rfl, hc.self.sector, rfl, rfl⟩
          refine ⟨.failed hin hused hcleared fun device a ha => ?_, hjournal, i :: m, hidle⟩
          rw [← hdisk]
          exact hsame device a ha
      · rename_i hmode
        refine ⟨.loaded hin hused hl ?_ hdisk, hjournal, m, hm⟩
        rw [if_neg hmode]
        exact hc

/-! ### What a call preserves -/

structure Inv (S : Int → Nat → Prop) (s : Run) : Prop where
  content : Content S s.cache s.stored
  idle : ∃ l, Idle s.cache l
  num : s.cache.journalBuf.num = 0

/-- A buffer somebody refers to keeps its key. -/
def Keeps (c c' : State) : Prop :=
  ∀ i, InCache c i → 0 < (c.cacheBuf i).nused →
    HasKey (c'.cacheBuf i) (c.cacheBuf i).device (c.cacheBuf i).sector

theorem Keeps.refl (c : State) : Keeps c c := fun _ _ _ => ⟨rfl, rfl⟩

theorem Changed.keeps {b : apa_cache_t} (h : Changed c c' x b)
    (hx : (c.cacheBuf x).nused = 0 ∨ HasKey b (c.cacheBuf x).device (c.cacheBuf x).sector) : Keeps c c' := by
  intro i _ hused
  by_cases hix : i = x
  · subst hix
    rcases hx with hzero | ⟨hdevice, hsector⟩
    · omega
    · exact ⟨h.self.device.trans hdevice, h.self.sector.trans hsector⟩
  · exact ⟨(h.other i hix).device, (h.other i hix).sector⟩

theorem onDisk_congr {device : Int} {sector : Nat} (h₀ : c'.disk device sector = c.disk device sector)
    (h₁ : c'.disk device (sector + 1) = c.disk device (sector + 1)) :
    onDisk c' device sector = onDisk c device sector := by
  rw [onDisk, onDisk, h₀, h₁]

theorem SameDisk.onDisk (h : SameDisk c c') (hS : ∀ device, Places (S device)) {device : Int} {sector : Nat}
    (hs : S device sector) : onDisk c' device sector = onDisk c device sector := by
  have hclear := (hS device).clear sector hs
  simp only [APA_SECTOR_SECTOR_ERROR, APA_SECTOR_APAL_HEADERS] at hclear
  apply onDisk_congr
  · apply h
    simp only [APA_SECTOR_SECTOR_ERROR, ne_eq]
    omega
  · apply h
    simp only [APA_SECTOR_SECTOR_ERROR, ne_eq]
    omega

theorem Got.none_content {device : Int} {sector mode : Nat} (hg : Got c device sector mode none c')
    (hS : ∀ device, Places (S device)) (h : Content S c stored) : Content S c' stored ∧ Keeps c c' := by
  cases hg with
  | full => exact ⟨h, Keeps.refl _⟩
  | failed hin hused hc hdisk =>
    refine ⟨?_, hc.keeps (.inl hused)⟩
    apply h.taken hin hc hused rfl
    · exact fun hd => absurd (show (0 : Int) ≤ - 1 from hd) (by decide)
    · exact fun hd => absurd (show (0 : Int) ≤ - 1 from hd) (by decide)
    · exact fun hd => absurd (show (0 : Int) ≤ - 1 from hd) (by decide)
    · exact fun _ _ hs => hdisk.onDisk hS hs

theorem Got.read_content {device : Int} {sector : Nat} {r : Option Nat}
    (hg : Got c device sector APA_IO_MODE_READ r c') (hS : ∀ device, Places (S device)) (hs : S device sector)
    (h : Content S c stored) : Content S c' stored ∧ Keeps c c' := by
  cases r with
  | none => exact hg.none_content hS h
  | some i =>
    cases hg with
    | found hin hkey hc hdisk =>
      refine ⟨?_, hc.keeps (.inr ⟨rfl, rfl⟩)⟩
      apply h.keep hin hc ⟨rfl, rfl⟩ rfl rfl
      · exact fun hzero => absurd hzero (Nat.succ_ne_zero _)
      · exact fun _ _ _ => onDisk_congr (by rw [hdisk]) (by rw [hdisk])
    | loaded hin hused hl hc hdisk =>
      refine ⟨?_, hc.keeps (.inl hused)⟩
      apply h.taken hin hc hused rfl
      · exact fun _ _ hj => lookup_none hl hj
      · exact fun _ => hs
      · exact fun _ => rfl
      · exact fun _ _ _ => onDisk_congr (by rw [hdisk]) (by rw [hdisk])

theorem Changed.setHeader {b : apa_cache_t} (h : Changed c c' x b) (header : ApaHeader) :
    Changed c (setHeader x header c') x { b with header := header, dirty := true } := by
  refine h.trans (show (State.setHeader x header c').cacheSize = c'.cacheSize from rfl) ?_ ?_
  · unfold State.setHeader
    rw [modify_cacheBuf, if_pos rfl]
    exact ⟨rfl, h.self.device, h.self.sector, rfl, h.self.nused⟩
  · intro j hj
    unfold State.setHeader
    rw [modify_cacheBuf, if_neg hj]

theorem Idle.setHeader (h : Idle c l) (i : Nat) (header : ApaHeader) : Idle (setHeader i header c) l := by
  apply h.stay (changed_modify c i _) Iff.rfl
  apply h.ring.modify
  · exact fun _ => rfl
  · exact fun _ => rfl

theorem store_self {b : apa_cache_t} (h : SameData (c.cacheBuf i) b) (header : ApaHeader) :
    store c i header stored b.device b.sector = header := by
  unfold store
  rw [h.device, h.sector, if_pos ⟨rfl, rfl⟩]

theorem store_other {b : apa_cache_t} (h : SameData (c.cacheBuf i) b) (header : ApaHeader) {device : Int}
    {sector : Nat} (hne : ¬ HasKey b device sector) : store c i header stored device sector = stored device sector := by
  unfold store
  rw [h.device, h.sector, if_neg]
  rintro ⟨rfl, rfl⟩
  exact hne ⟨rfl, rfl⟩

theorem Got.fill_content {device : Int} {sector mode : Nat} (hg : Got c device sector mode (some i) c')
    (header : ApaHeader) (hs : S device sector) (h : Content S c stored) :
    Content S (setHeader i header c') (store c' i header stored) ∧ Keeps c (setHeader i header c') := by
  cases hg with
  | found hin hkey hc hdisk =>
    obtain ⟨hdevice, hsector⟩ := hkey
    have hset := hc.setHeader header
    refine ⟨?_, hset.keeps (.inr ⟨rfl, rfl⟩)⟩
    apply h.filled hin hset (.inr ⟨rfl, rfl⟩) rfl (Nat.succ_ne_zero _)
    · exact fun hd j hj hkey => h.unique i j hin hj hd hkey
    · exact h.placed i hin
    · exact fun _ _ _ => onDisk_congr (congrFun (congrFun hdisk _) _) (congrFun (congrFun hdisk _) _)
    · exact store_self hc.self header
    · exact fun _ _ hne => store_other hc.self header hne
  | loaded hin hused hl hc hdisk =>
    have hset := hc.setHeader header
    refine ⟨?_, hset.keeps (.inl hused)⟩
    apply h.filled hin hset (.inl hused) rfl one_ne_zero
    · exact fun _ j hj hkey => absurd hkey (lookup_none hl hj)
    · exact fun _ => hs
    · exact fun _ _ _ => onDisk_congr (congrFun (congrFun hdisk _) _) (congrFun (congrFun hdisk _) _)
    · exact store_self hc.self header
    · exact fun _ _ hne => store_other hc.self header hne

/-- A buffer is given back. -/
theorem free_spec (h : Content S c stored) (hidle : Idle c l) (hin : InCache c i) (hused : 0 < (c.cacheBuf i).nused)
    (hclean : (c.cacheBuf i).nused = 1 → (c.cacheBuf i).dirty = false) :
    Content S (apaCacheFree i c) stored ∧ Keeps c (apaCacheFree i c) ∧
      (apaCacheFree i c).journalBuf = c.journalBuf ∧ ∃ m, Idle (apaCacheFree i c) m := by
  obtain ⟨d, hd⟩ : ∃ d : State, d = c.modify i fun clink => { clink with nused := clink.nused - 1 } := ⟨_, rfl⟩
  have hc : Changed c d i { c.cacheBuf i with nused := (c.cacheBuf i).nused - 1 } := by
    rw [hd]
    exact changed_modify c i _
  have hring : Ring d l := by
    rw [hd]
    apply hidle.ring.modify
    · exact fun _ => rfl
    · exact fun _ => rfl
  have hcontent : ∀ e, Changed c e i { c.cacheBuf i with nused := (c.cacheBuf i).nused - 1 } →
      e.disk = c.disk → Content S e stored ∧ Keeps c e := by
    intro e he hdisk
    refine ⟨?_, he.keeps (.inr ⟨rfl, rfl⟩)⟩
    apply h.keep hin he ⟨rfl, rfl⟩ rfl rfl
    · intro hzero
      dsimp only at hzero
      exact hclean (by omega)
    · exact fun _ _ _ => onDisk_congr (by rw [hdisk]) (by rw [hdisk])
  unfold apaCacheFree
  rw [if_neg (by omega), ← hd]
  dsimp only
  split
  · rename_i hzero
    rw [hc.self.nused] at hzero
    dsimp only at hzero
    have hnot : i ∉ 0 :: l := by
      rw [List.mem_cons, hidle.mem_iff]
      rintro (rfl | ⟨-, hnone⟩)
      · exact absurd hin.1 (by decide)
      · omega
    have hne : (d.cacheBuf 0).tail ≠ i := fun heq => hnot (heq ▸ hring.path.last_mem)
    obtain ⟨hnew, hkeeps⟩ := hcontent _ (hc.link hne) (by rw [hd]; rfl)
    refine ⟨hnew, hkeeps, by rw [hd]; rfl, l ++ [i], ?_⟩
    apply hidle.enter (hc.link hne) hin hzero
    · intro j
      rw [List.mem_append, List.mem_singleton]
      exact or_comm
    · exact hring.append hnot
  · rename_i hzero
    rw [hc.self.nused] at hzero
    dsimp only at hzero
    obtain ⟨hnew, hkeeps⟩ := hcontent d hc (by rw [hd]; rfl)
    refine ⟨hnew, hkeeps, by rw [hd]; rfl, l, ?_⟩
    apply hidle.stay hc _ hring
    dsimp only
    omega

end HddChecker.Apa.Cache
