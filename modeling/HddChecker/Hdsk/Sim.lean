import HddChecker.Lib.FreeRing
import HddChecker.Lib.Dyadic
import HddChecker.Apa.Header

/-!
# The simulated list of partitions

`sim.c` moves partitions in `hdskBitmap`, a pool of records the linked ones of which stand for the partitions of the disk, in their order. Record 0 is the head of the ring, and a record that is not linked has length 0. A null pointer is an index behind the pool; what a null pointer is followed to is not modelled, and a function that does so has no result.
-/

namespace HddChecker.Hdsk.Sim

open HddChecker

def HDSK_BITMAP_SIZE : Nat := 0x4001
def HDSK_MIN_PART_SIZE : Nat := 0x40000

def NULL : Nat := HDSK_BITMAP_SIZE

/-- `hdskBitmap`, field by field. -/
structure Bitmap where
  next : Nat → Nat
  prev : Nat → Nat
  start : Nat → Nat
  length : Nat → Nat
  type : Nat → Nat

def apaCacheLink (clink cnew : Nat) (p : Bitmap) : Bitmap :=
  let p := { p with prev := Function.update p.prev cnew clink }
  let p := { p with next := Function.update p.next cnew (p.next clink) }
  let p := { p with prev := Function.update p.prev (p.next clink) cnew }
  { p with next := Function.update p.next clink cnew }

def apaCacheUnLink (clink : Nat) (p : Bitmap) : Bitmap :=
  let p := { p with next := Function.update p.next (p.prev clink) (p.next clink) }
  { p with prev := Function.update p.prev (p.next clink) (p.prev clink) }

def hdskSimClearHeader (header : Nat) (p : Bitmap) : Bitmap where
  next := Function.update p.next header NULL
  prev := Function.update p.prev header NULL
  start := Function.update p.start header 0
  length := Function.update p.length header 0
  type := Function.update p.type header 0

/-- The length of two records, which are joined if it divides the start of the first and is a power of two. -/
def joined (first second : Nat) (p : Bitmap) : Nat := u32 (p.length first + p.length second)

/-- The loop of `hdskSimDeleteFixPrev`, `n` passes at most. -/
def hdskSimDeleteFixPrev : Nat → Nat → Bitmap → Option (Nat × Bitmap)
  | 0, _, _ => none
  | n + 1, part, p =>
    if p.next 0 = part then some (part, p)
    else
      let prev := p.prev part
      if part = NULL ∨ prev = NULL then none
      else if p.type prev = 0 then
        let length := joined prev part p
        if p.start prev % length ≠ 0 then some (part, p)
        else if length &&& (length - 1) = 0 then
          hdskSimDeleteFixPrev n prev (hdskSimClearHeader part (apaCacheUnLink part
            { p with length := Function.update p.length prev length }))
        else some (part, p)
      else some (part, p)

/-- The loop of `hdskSimDeleteFixNext`, `n` passes at most. -/
def hdskSimDeleteFixNext : Nat → Nat → Bitmap → Option (Nat × Bitmap)
  | 0, _, _ => none
  | n + 1, part, p =>
    if p.prev 0 = part then some (part, p)
    else
      let next := p.next part
      if part = NULL ∨ next = NULL then none
      else if p.type next = 0 then
        let length := joined part next p
        if p.start part % length ≠ 0 then some (part, p)
        else if length &&& (length - 1) = 0 then
          hdskSimDeleteFixNext n part (hdskSimClearHeader part (apaCacheUnLink part { p with
            length := Function.update p.length part length
            type := Function.update p.type part 0 }))
        else some (part, p)
      else some (part, p)

/-- The first loop of `hdskSimSwapPartition`, `n` passes at most. -/
def removeLast : Nat → Nat → Bitmap → Option Bitmap
  | 0, _, _ => none
  | n + 1, part, p =>
    let p := hdskSimClearHeader part (apaCacheUnLink part p)
    let part := p.prev 0
    if part = NULL then some p
    else if p.type part ≠ 0 then removeLast n part p
    else some p

/-- `hdskSimDeleteFixNext(hdskSimDeleteFixPrev(start))` -/
def fix (start : Nat) (p : Bitmap) : Option (Nat × Bitmap) :=
  match hdskSimDeleteFixPrev HDSK_BITMAP_SIZE start p with
  | none => none
  | some (start, p) => hdskSimDeleteFixNext HDSK_BITMAP_SIZE start p

def hdskSimSwapPartition (start : Nat) (p : Bitmap) : Option Bitmap :=
  if p.prev 0 = start then removeLast HDSK_BITMAP_SIZE start p
  else
    match (fix start p).bind fun s => fix s.1 s.2 with
    | none => none
    | some (s, q) =>
      if q.start s = p.start start ∧ q.length s = p.length start then
        some { q with type := Function.update q.type s 0 }
      else some q

def hdskSimMovePartition (dest start : Nat) (p : Bitmap) : Option Bitmap :=
  if dest = NULL ∨ start = NULL then none
  else hdskSimSwapPartition start { p with type := Function.update p.type dest (p.type start) }

def hdskBitmapAlloc (p : Bitmap) : Nat :=
  ((List.range' 1 (HDSK_BITMAP_SIZE - 1)).find? fun i => p.length i == 0).getD NULL

/-- The loop of `hdskSimSplitEmptyPartition`, `n` passes at most. -/
def hdskSimSplitEmptyPartition : Nat → Nat → Nat → Bitmap → Option Bitmap
  | 0, _, _, _ => none
  | n + 1, part, length, p =>
    if part = NULL then none
    else if p.length part = length then some p
    else
      let last := hdskBitmapAlloc p
      let half := p.length part / 2
      if last = NULL then none
      else
        hdskSimSplitEmptyPartition n part length (apaCacheLink part last { p with
          length := Function.update (Function.update p.length part half) last half
          start := Function.update p.start last (u32 (p.start part + half))
          type := Function.update p.type last 0 })

/-- `hdskSimFindEmptyPartition` from `part` on, `n` records at most. -/
def hdskSimFindEmptyPartition (size : Nat) (p : Bitmap) : Nat → Nat → Option Nat
  | 0, _ => none
  | n + 1, part =>
    if p.next part = 0 then none
    else if p.length part = size ∧ p.type part = 0 then some part
    else hdskSimFindEmptyPartition size p n (p.next part)

/-- `hdskSimFindLastUsedPartition` from `part` on, `n` records at most. -/
def hdskSimFindLastUsedPartition (size start mode : Nat) (p : Bitmap) : Nat → Nat → Option Nat
  | 0, _ => none
  | n + 1, part =>
    if start < p.start part ∧ part ≠ 0 then
      let isEmpty (i : Nat) := p.length i = size ∧ p.type i = 0
      if p.length part = size ∧ p.type part ≠ 0 ∧ (mode = 0 ∨
          p.start part % (size * 2) ≠ 0 ∧ isEmpty (p.prev part) ∨
          p.start part % (size * 2) = 0 ∧ (part = p.prev 0 ∨ isEmpty (p.next part))) then some part
      else hdskSimFindLastUsedPartition size start mode p n (p.prev part)
    else none

/-- The loop of `hdskSimMovePartitionsBlock`, `n` passes at most. -/
def hdskSimMovePartitionsBlock : Nat → Nat → Nat → Nat → Bitmap → Option Bitmap
  | 0, _, _, _, _ => none
  | n + 1, dest, src, size, p =>
    if dest = NULL ∨ src = NULL then none
    else
      match hdskSimSplitEmptyPartition 33 dest (p.length src) p with
      | none => none
      | some p =>
        if p.next src = 0 then some p
        else
          match hdskSimMovePartition dest src p with
          | none => none
          | some p =>
            let dest := p.next dest
            let size := u32 (size + 2 ^ 32 - p.length dest)
            if dest = NULL then none
            else if size = 0 then some p
            else if dest = 0 then some p
            else hdskSimMovePartitionsBlock n dest (p.next src) size p

/-- A record `hdskBitmapInit` makes of a header. -/
structure Record where
  start : Nat
  length : Nat
  type : Nat

/-- `hdskBitmapInit` with the headers of the partition table. -/
def hdskBitmapInit (table : List Record) : Bitmap :=
  (List.range' 1 table.length).foldl (fun p i => apaCacheLink (p.prev 0) i p)
    { next := fun i => if i = 0 then 0 else NULL
      prev := fun i => if i = 0 then 0 else NULL
      start := fun i => if i = 0 then 0 else (table.map (·.start)).getD (i - 1) 0
      length := fun i => if i = 0 then 0 else (table.map (·.length)).getD (i - 1) 0
      type := fun i => if i = 0 then 0 else (table.map (·.type)).getD (i - 1) 0 }

variable {p q : Bitmap} {l A B : List Nat} {x y i j n s e m : Nat}

/-! ### Links -/

theorem link_next (p : Bitmap) {c x : Nat} (hne : c ≠ x) (y : Nat) : (apaCacheLink c x p).next y =
    if y = c then x else if y = x then p.next c else p.next y := by
  simp only [apaCacheLink, Function.update_apply, if_neg hne]

theorem link_prev (p : Bitmap) {c x : Nat} (hne : c ≠ x) (y : Nat) : (apaCacheLink c x p).prev y =
    if y = p.next c then x else if y = x then c else p.prev y := by
  simp only [apaCacheLink, Function.update_apply, if_neg hne]

private theorem unlink_next (p : Bitmap) (x y : Nat) : (apaCacheUnLink x p).next y =
    if y = p.prev x then p.next x else p.next y := by
  simp only [apaCacheUnLink, Function.update_apply]

theorem unlink_prev (p : Bitmap) (x y : Nat) : (apaCacheUnLink x p).prev y =
    if y = p.next x then p.prev x else p.prev y := by
  simp only [apaCacheUnLink, Function.update_apply]
  by_cases hx : x = p.prev x
  · rw [if_pos hx]
  · rw [if_neg hx]

/-- The records `l` are the ring. -/
def Ring (p : Bitmap) (l : List Nat) : Prop := FreeRing p.next p.prev 0 l

theorem Ring.notMem (h : Ring p (A ++ x :: B)) : x ∉ A ∧ x ∉ B := by
  have hnodup := List.nodup_middle.mp (List.nodup_cons.mp h.nodup).2
  exact not_or.mp (mt List.mem_append.mpr (List.nodup_cons.mp hnodup).1)

theorem clear_start (hz : y ≠ x) : (hdskSimClearHeader x (apaCacheUnLink x p)).start y = p.start y :=
  Function.update_of_ne hz _ _

theorem clear_length (hz : y ≠ x) : (hdskSimClearHeader x (apaCacheUnLink x p)).length y = p.length y :=
  Function.update_of_ne hz _ _

theorem clear_type (hz : y ≠ x) : (hdskSimClearHeader x (apaCacheUnLink x p)).type y = p.type y :=
  Function.update_of_ne hz _ _

theorem clear_length_self : (hdskSimClearHeader x (apaCacheUnLink x p)).length x = 0 := Function.update_self _ _ _

/-- A record leaves the ring and is cleared. -/
theorem Ring.clear (h : Ring p (A ++ x :: B)) : Ring (hdskSimClearHeader x (apaCacheUnLink x p)) (A ++ B) := by
  have hroot := h.root_notMem
  obtain ⟨hxA, hxB⟩ := h.notMem
  have herase : (A ++ x :: B).erase x = A ++ B := by
    rw [List.erase_append_right _ hxA, List.erase_cons_head]
  have hring : Ring (apaCacheUnLink x p) (A ++ B) := by
    have hout := FreeRing.erase h (List.mem_append_right _ List.mem_cons_self) (unlink_next p x) (unlink_prev p x)
    rwa [herase] at hout
  have hne : ∀ y ∈ 0 :: (A ++ B), y ≠ x := by
    rintro y hy rfl
    rcases List.mem_cons.mp hy with rfl | hy
    · exact hroot (List.mem_append_right _ List.mem_cons_self)
    · exact (List.mem_append.mp hy).elim hxA hxB
  refine ⟨hring.path.congr (fun y hy => ?_) fun y hy => ?_, hring.nodup⟩
  · exact Function.update_of_ne (hne y hy) _ _
  · apply Function.update_of_ne
    apply hne
    rcases List.mem_append.mp hy with hy | hy
    · exact List.mem_cons_of_mem _ hy
    · rw [List.mem_singleton.mp hy]
      exact List.mem_cons_self

/-! ### Tilings -/

/-- The records `l` lie one behind the other from `s` to `e`; each is aligned to its length, a power of two and that of a partition. -/
def Tiles (p : Bitmap) : Nat → List Nat → Nat → Prop
  | s, [], e => s = e
  | s, x :: l, e => p.start x = s ∧ Dyadic s (p.length x) ∧ HDSK_MIN_PART_SIZE ≤ p.length x ∧
      Tiles p (s + p.length x) l e

theorem tiles_append : Tiles p s (A ++ B) e ↔ ∃ m, Tiles p s A m ∧ Tiles p m B e := by
  induction A generalizing s with
  | nil =>
    constructor
    · exact fun h => ⟨s, rfl, h⟩
    · rintro ⟨m, rfl, h⟩
      exact h
  | cons x A ih =>
    rw [List.cons_append]
    constructor
    · rintro ⟨hstart, hdyadic, hmin, hrest⟩
      obtain ⟨m, hA, hB⟩ := ih.mp hrest
      exact ⟨m, ⟨hstart, hdyadic, hmin, hA⟩, hB⟩
    · rintro ⟨m, ⟨hstart, hdyadic, hmin, hA⟩, hB⟩
      exact ⟨hstart, hdyadic, hmin, ih.mpr ⟨m, hA, hB⟩⟩

theorem Tiles.congr (h : Tiles p s l e) (hstart : ∀ x ∈ l, q.start x = p.start x)
    (hlength : ∀ x ∈ l, q.length x = p.length x) : Tiles q s l e := by
  induction l generalizing s with
  | nil => exact h
  | cons x l ih =>
    obtain ⟨hs, hdyadic, hmin, hrest⟩ := h
    rw [Tiles, hstart x List.mem_cons_self, hlength x List.mem_cons_self]
    exact ⟨hs, hdyadic, hmin, ih hrest (fun y hy => hstart y (List.mem_cons_of_mem _ hy))
      fun y hy => hlength y (List.mem_cons_of_mem _ hy)⟩

theorem Tiles.le (h : Tiles p s l e) : s + l.length * HDSK_MIN_PART_SIZE ≤ e := by
  induction l generalizing s with
  | nil => exact (Nat.le_of_eq (by rw [List.length_nil, Nat.zero_mul, Nat.add_zero]; exact h))
  | cons x l ih =>
    obtain ⟨-, -, hmin, hrest⟩ := h
    have := ih hrest
    rw [List.length_cons, Nat.add_mul]
    omega

theorem Tiles.pos (h : Tiles p s l e) (hx : x ∈ l) : HDSK_MIN_PART_SIZE ≤ p.length x := by
  induction l generalizing s with
  | nil => cases hx
  | cons y l ih =>
    obtain ⟨-, -, hmin, hrest⟩ := h
    rcases List.mem_cons.mp hx with rfl | hx
    · exact hmin
    · exact ih hrest hx

/-! ### The used partitions -/

/-- The type and the length of a record, if it is used. -/
def usedOf (p : Bitmap) (x : Nat) : List (Nat × Nat) := if p.type x = 0 then [] else [(p.type x, p.length x)]

/-- The types and lengths of the used partitions. -/
def used (p : Bitmap) (l : List Nat) : List (Nat × Nat) := l.flatMap (usedOf p)

theorem used_append : used p (A ++ B) = used p A ++ used p B := List.flatMap_append

theorem used_cons : used p (x :: l) = usedOf p x ++ used p l := List.flatMap_cons

theorem used_congr (htype : ∀ x ∈ l, q.type x = p.type x) (hlength : ∀ x ∈ l, q.length x = p.length x) :
    used q l = used p l := by
  induction l with
  | nil => rfl
  | cons x l ih =>
    rw [used_cons, used_cons, usedOf, usedOf, htype x List.mem_cons_self, hlength x List.mem_cons_self,
      ih (fun y hy => htype y (List.mem_cons_of_mem _ hy)) fun y hy => hlength y (List.mem_cons_of_mem _ hy)]

/-! ### The invariant -/

/-- The linked records are a ring that tiles the disk up to `e`; the others are clear. -/
structure Good (p : Bitmap) (l : List Nat) : Prop where
  ring : Ring p l
  pool : ∀ x ∈ l, x < HDSK_BITMAP_SIZE
  rest : ∀ x, x ∉ l → p.length x = 0
  head : p.type 0 = 0
  tiles : ∃ e, e < 2 ^ 32 ∧ Tiles p 0 l e

theorem Good.mem_iff (h : Good p l) : x ∈ l ↔ p.length x ≠ 0 := by
  constructor
  · intro hx
    obtain ⟨e, -, ht⟩ := h.tiles
    have := ht.pos hx
    simp only [HDSK_MIN_PART_SIZE] at this
    omega
  · intro hx
    by_contra hnot
    exact hx (h.rest x hnot)

theorem Good.ne_null (h : Good p l) (hx : x ∈ 0 :: l) : x ≠ NULL := by
  rcases List.mem_cons.mp hx with rfl | hx
  · decide
  · exact (h.pool x hx).ne

/-- A record is joined with the free one before it. -/
theorem Good.join (h : Good p (A ++ y :: x :: B)) (hfree : p.type y = 0)
    (hmod : p.start y % (p.length y + p.length x) = 0) (hpow : (p.length y + p.length x).isPowerOfTwo)
    (hq : q = hdskSimClearHeader x (apaCacheUnLink x
      { p with length := Function.update p.length y (p.length y + p.length x) })) :
    Good q (A ++ y :: B) ∧ (usedOf p x ++ used q (A ++ y :: B)).Perm (used p (A ++ y :: x :: B)) ∧
      q.type y = 0 ∧ q.start y = p.start y := by
  have hroot := h.ring.root_notMem
  have hring : Ring p ((A ++ [y]) ++ x :: B) := by
    rw [List.append_assoc]
    exact h.ring
  obtain ⟨hyA, hyxB⟩ := h.ring.notMem
  obtain ⟨hyx, hyB⟩ := not_or.mp (mt List.mem_cons.mpr hyxB)
  obtain ⟨hxAy, hxB⟩ := hring.notMem
  have hxA : x ∉ A := fun hmem => hxAy (List.mem_append_left _ hmem)
  have hstart : ∀ z, z ≠ x → q.start z = p.start z := by
    intro z hz
    rw [hq, clear_start hz]
  have htype : ∀ z, z ≠ x → q.type z = p.type z := by
    intro z hz
    rw [hq, clear_type hz]
  have hlength : ∀ z, z ≠ x → z ≠ y → q.length z = p.length z := by
    intro z hz hzy
    rw [hq, clear_length hz]
    exact Function.update_of_ne hzy _ _
  have hjoined : q.length y = p.length y + p.length x := by
    rw [hq, clear_length hyx]
    exact Function.update_self _ _ _
  have hgone : q.length x = 0 := by
    rw [hq, clear_length_self]
  have hneA : ∀ z ∈ A, z ≠ x ∧ z ≠ y := fun z hz => ⟨fun heq => hxA (heq ▸ hz), fun heq => hyA (heq ▸ hz)⟩
  have hneB : ∀ z ∈ B, z ≠ x ∧ z ≠ y := fun z hz => ⟨fun heq => hxB (heq ▸ hz), fun heq => hyB (heq ▸ hz)⟩
  have hyfree : q.type y = 0 := (htype y hyx).trans hfree
  refine ⟨?_, ?_, hyfree, hstart y hyx⟩
  · constructor
    case ring =>
      have hclear := Ring.clear (p := { p with length := Function.update p.length y (p.length y + p.length x) }) hring
      rw [List.append_assoc] at hclear
      rw [hq]
      exact hclear
    case pool =>
      intro z hz
      apply h.pool
      rcases List.mem_append.mp hz with hz | hz
      · exact List.mem_append_left _ hz
      · rcases List.mem_cons.mp hz with rfl | hz
        · exact List.mem_append_right _ List.mem_cons_self
        · exact List.mem_append_right _ (List.mem_cons_of_mem _ (List.mem_cons_of_mem _ hz))
    case rest =>
      intro z hz
      rw [List.mem_append, List.mem_cons, not_or, not_or] at hz
      by_cases hzx : z = x
      · rw [hzx, hgone]
      · rw [hlength z hzx hz.2.1]
        apply h.rest
        rw [List.mem_append, List.mem_cons, List.mem_cons, not_or, not_or, not_or]
        exact ⟨hz.1, hz.2.1, hzx, hz.2.2⟩
    case head =>
      rw [htype, h.head]
      rintro rfl
      exact hroot (List.mem_append_right _ (List.mem_cons_of_mem _ List.mem_cons_self))
    case tiles =>
      obtain ⟨e, he, ht⟩ := h.tiles
      obtain ⟨m, hA, hs, -, hmin, -, -, -, hB⟩ := tiles_append.mp ht
      refine ⟨e, he, tiles_append.mpr ⟨m, ?_, ?_⟩⟩
      · exact hA.congr (fun z hz => hstart z (hneA z hz).1) fun z hz => hlength z (hneA z hz).1 (hneA z hz).2
      · rw [Tiles, hstart y hyx, hjoined]
        refine ⟨hs, ⟨hpow, Nat.dvd_of_mod_eq_zero (hs ▸ hmod)⟩, by omega, ?_⟩
        rw [← Nat.add_assoc]
        exact hB.congr (fun z hz => hstart z (hneB z hz).1) fun z hz => hlength z (hneB z hz).1 (hneB z hz).2
  · have hA : used q A = used p A :=
      used_congr (fun z hz => htype z (hneA z hz).1) fun z hz => hlength z (hneA z hz).1 (hneA z hz).2
    have hB : used q B = used p B :=
      used_congr (fun z hz => htype z (hneB z hz).1) fun z hz => hlength z (hneB z hz).1 (hneB z hz).2
    have hy : usedOf q y = [] ∧ usedOf p y = [] := ⟨if_pos hyfree, if_pos hfree⟩
    rw [used_append, used_cons, used_append, used_cons, used_cons, hA, hB, hy.1, hy.2, List.nil_append, List.nil_append]
    exact List.perm_append_comm_assoc _ _ _

/-! ### Moves -/

theorem Good.length_lt (h : Good p l) : l.length < HDSK_BITMAP_SIZE - 1 := by
  obtain ⟨e, he, ht⟩ := h.tiles
  have := ht.le
  simp only [HDSK_MIN_PART_SIZE, HDSK_BITMAP_SIZE] at *
  omega

theorem Good.joined_eq (h : Good p (A ++ y :: x :: B)) : joined y x p = p.length y + p.length x := by
  obtain ⟨e, he, ht⟩ := h.tiles
  obtain ⟨m, -, -, -, -, -, -, -, hB⟩ := tiles_append.mp ht
  have := hB.le
  exact Nat.mod_eq_of_lt (by omega)

/-- The record behind `part` is not free, or not its buddy. -/
def NoJoin (part : Nat) (p : Bitmap) : Prop :=
  p.prev 0 = part ∨ p.type (p.next part) ≠ 0 ∨ p.start part % joined part (p.next part) p ≠ 0 ∨
    joined part (p.next part) p &&& (joined part (p.next part) p - 1) ≠ 0

theorem Good.next_mem (h : Good p l) (hx : x ∈ l) : p.next x ∈ 0 :: l := by
  obtain ⟨A, B, rfl⟩ := List.append_of_mem hx
  rcases List.mem_append.mp h.ring.path.next_mem with hmem | hmem
  · exact List.mem_cons_of_mem _ (List.mem_append_right _ (List.mem_cons_of_mem _ hmem))
  · rw [List.mem_singleton.mp hmem]
    exact List.mem_cons_self

private theorem fixNext_stop (h : Good p l) (hx : x ∈ l) (hno : NoJoin x p) (k : Nat) :
    hdskSimDeleteFixNext (k + 1) x p = some (x, p) := by
  have hnull : ¬ (x = NULL ∨ p.next x = NULL) :=
    not_or.mpr ⟨h.ne_null (List.mem_cons_of_mem _ hx), h.ne_null (h.next_mem hx)⟩
  rw [hdskSimDeleteFixNext]
  split
  · rfl
  · rename_i hlast
    rw [if_neg hnull]
    rcases hno with heq | htype | hmod | hpow
    · exact absurd heq hlast
    · rw [if_neg htype]
    · simp only [if_pos hmod, ite_self]
    · simp only [if_neg hpow, ite_self]

/-- The loop towards the head ends at a record that it leaves alone, which is `x` itself, or a free one that `x` has been joined with. -/
private theorem fixPrev_spec (h : Good p (A ++ x :: B)) (hn : A.length < n) :
    ∃ r q A', hdskSimDeleteFixPrev n x p = some (r, q) ∧ Good q (A' ++ r :: B) ∧
      (∀ k, hdskSimDeleteFixPrev (k + 1) r q = some (r, q)) ∧
      (r = x ∧ q = p ∧ A' = A ∨ q.type r = 0 ∧ q.start r < p.start x ∧
        (usedOf p x ++ used q (A' ++ r :: B)).Perm (used p (A ++ x :: B))) := by
  induction A using List.reverseRecOn generalizing x p n with
  | nil =>
    have hfirst : ∀ k, hdskSimDeleteFixPrev (k + 1) x p = some (x, p) := by
      intro k
      rw [hdskSimDeleteFixPrev, if_pos h.ring.next_root]
    cases n with
    | zero => cases hn
    | succ n => exact ⟨x, p, [], hfirst n, h, hfirst, .inl ⟨rfl, rfl, rfl⟩⟩
  | append_singleton A y ih =>
    rw [List.append_assoc, List.cons_append, List.nil_append] at *
    have hprev : p.prev x = y := h.ring.path.adjacent.2
    have hfirst : p.next 0 ≠ x := by
      cases A with
      | nil =>
        rw [h.ring.next_root]
        rintro rfl
        exact h.ring.notMem.2 List.mem_cons_self
      | cons z A =>
        rw [h.ring.next_root]
        rintro rfl
        exact (Ring.notMem (A := []) h.ring).2 (by simp)
    have hnull : ¬ (x = NULL ∨ y = NULL) := by
      apply not_or.mpr
      exact ⟨h.ne_null (by simp), h.ne_null (by simp)⟩
    have hpass : ∀ k, hdskSimDeleteFixPrev (k + 1) x p = if p.type y = 0 then
        if p.start y % (p.length y + p.length x) ≠ 0 then some (x, p)
        else if (p.length y + p.length x) &&& (p.length y + p.length x - 1) = 0 then
          hdskSimDeleteFixPrev k y (hdskSimClearHeader x (apaCacheUnLink x
            { p with length := Function.update p.length y (p.length y + p.length x) }))
        else some (x, p) else some (x, p) := by
      intro k
      rw [hdskSimDeleteFixPrev, if_neg hfirst]
      simp only [hprev, if_neg hnull, h.joined_eq]
    cases n with
    | zero => cases hn
    | succ n =>
      by_cases hjoin : p.type y = 0 ∧ p.start y % (p.length y + p.length x) = 0 ∧
          (p.length y + p.length x) &&& (p.length y + p.length x - 1) = 0
      · obtain ⟨hfree, hmod, hand⟩ := hjoin
        have hx : 0 < p.length x := Nat.pos_of_ne_zero (h.mem_iff.mp (by simp))
        have hpow := (Nat.and_sub_one_eq_zero_iff_isPowerOfTwo (by omega)).mp hand
        obtain ⟨hgood, hperm, hyfree, hystart⟩ := h.join hfree hmod hpow rfl
        obtain ⟨r, q, A', hrun, hq, hstop, hcase⟩ := ih hgood (by simp at hn; omega)
        refine ⟨r, q, A', ?_, hq, hstop, .inr ?_⟩
        · rw [hpass, if_pos hfree, if_neg (not_not.mpr hmod), if_pos hand]
          exact hrun
        · have hbefore : p.start y < p.start x := by
            obtain ⟨e, -, ht⟩ := h.tiles
            obtain ⟨m, -, hs, -, hmin, hs', -⟩ := tiles_append.mp ht
            simp only [HDSK_MIN_PART_SIZE] at hmin
            omega
          rcases hcase with ⟨rfl, rfl, rfl⟩ | ⟨hrfree, hrstart, hrperm⟩
          · exact ⟨hyfree, hystart ▸ hbefore, hperm⟩
          · have hnone : usedOf (hdskSimClearHeader x (apaCacheUnLink x
                { p with length := Function.update p.length y (p.length y + p.length x) })) y = [] := if_pos hyfree
            rw [hnone, List.nil_append] at hrperm
            exact ⟨hrfree, by omega, (List.Perm.append_left _ hrperm).trans hperm⟩
      · have hstop : ∀ k, hdskSimDeleteFixPrev (k + 1) x p = some (x, p) := by
          intro k
          rw [hpass]
          split_ifs with hfree hmod hand
          · rfl
          · exact absurd ⟨hfree, not_not.mp hmod, hand⟩ hjoin
          · rfl
          · rfl
        refine ⟨x, p, A ++ [y], hstop n, ?_, hstop, .inl ⟨rfl, rfl, rfl⟩⟩
        rw [List.append_assoc, List.cons_append, List.nil_append]
        exact h

/-- The record at `dest` is filled. -/
def filled (dest start : Nat) (p : Bitmap) : Bitmap :=
  { p with type := Function.update p.type dest (p.type start) }

theorem Good.set_type (h : Good p l) (hx : x ∈ l) (t : Nat) :
    Good { p with type := Function.update p.type x t } l := by
  obtain ⟨hring, hpool, hrest, hhead, e, he, ht⟩ := h
  have hx0 : (0 : Nat) ≠ x := fun heq => hring.root_notMem (heq ▸ hx)
  refine ⟨hring, hpool, hrest, ?_, e, he, ht.congr (fun _ _ => rfl) fun _ _ => rfl⟩
  exact (Function.update_of_ne hx0 _ _).trans hhead

theorem Good.used_set_type (h : Good p (A ++ x :: B)) (t : Nat) :
    used { p with type := Function.update p.type x t } (A ++ x :: B) =
      used p A ++ ((if t = 0 then [] else [(t, p.length x)]) ++ used p B) := by
  obtain ⟨hxA, hxB⟩ := h.ring.notMem
  have hout : ∀ L : List Nat, x ∉ L → used { p with type := Function.update p.type x t } L = used p L := by
    intro L hL
    apply used_congr
    · intro z hz
      apply Function.update_of_ne
      rintro rfl
      exact hL hz
    · exact fun _ _ => rfl
  rw [used_append, used_cons, hout A hxA, hout B hxB, usedOf]
  simp only [Function.update_self]

/-- The last record is removed. -/
theorem Good.remove_last (h : Good p (A ++ [x])) (hq : q = hdskSimClearHeader x (apaCacheUnLink x p)) :
    Good q A ∧ used p (A ++ [x]) = used q A ++ usedOf p x := by
  have hxA := h.ring.notMem.1
  have hne : ∀ z ∈ A, z ≠ x := fun z hz heq => hxA (heq ▸ hz)
  have hstart : ∀ z, z ≠ x → q.start z = p.start z := by
    intro z hz
    rw [hq, clear_start hz]
  have htype : ∀ z, z ≠ x → q.type z = p.type z := by
    intro z hz
    rw [hq, clear_type hz]
  have hlength : ∀ z, z ≠ x → q.length z = p.length z := by
    intro z hz
    rw [hq, clear_length hz]
  constructor
  · constructor
    case ring =>
      have hclear := h.ring.clear
      rw [List.append_nil] at hclear
      rw [hq]
      exact hclear
    case pool => exact fun z hz => h.pool z (List.mem_append_left _ hz)
    case rest =>
      intro z hz
      by_cases hzx : z = x
      · rw [hzx, hq, clear_length_self]
      · rw [hlength z hzx]
        apply h.rest
        rw [List.mem_append, List.mem_singleton]
        exact not_or.mpr ⟨hz, hzx⟩
    case head =>
      rw [htype, h.head]
      rintro rfl
      exact h.ring.root_notMem (by simp)
    case tiles =>
      obtain ⟨e, he, ht⟩ := h.tiles
      obtain ⟨m, hA, hlast⟩ := tiles_append.mp ht
      have hle := hlast.le
      exact ⟨m, by omega, hA.congr (fun z hz => hstart z (hne z hz)) fun z hz => hlength z (hne z hz)⟩
  · rw [used_append, used_cons, used_congr (fun z hz => htype z (hne z hz)) fun z hz => hlength z (hne z hz)]
    simp [used]

/-- When a move keeps the list: `dest` is free and `start` used, they are linked and of one length; if `start` is the last record, the one before it is free then, and otherwise the one behind it is not joined with it. -/
structure MoveOk (dest start : Nat) (p : Bitmap) : Prop where
  linked : p.length dest ≠ 0
  free : p.type dest = 0
  used : p.type start ≠ 0
  same : p.length start = p.length dest
  last : p.prev 0 = start → (filled dest start p).type (p.prev start) = 0
  inner : p.prev 0 ≠ start → ∀ s, hdskSimDeleteFixPrev HDSK_BITMAP_SIZE start (filled dest start p) = some s →
    NoJoin s.1 s.2

private theorem move_spec {dest start : Nat} (h : Good p l) (hok : MoveOk dest start p) :
    ∃ q m, hdskSimMovePartition dest start p = some q ∧ Good q m ∧ (used q m).Perm (used p l) := by
  have hdest : dest ∈ l := h.mem_iff.mpr hok.linked
  have hstart : start ∈ l := h.mem_iff.mpr (hok.same ▸ hok.linked)
  have hne : start ≠ dest := by
    rintro rfl
    exact hok.used hok.free
  have hnull : ¬ (dest = NULL ∨ start = NULL) :=
    not_or.mpr ⟨h.ne_null (List.mem_cons_of_mem _ hdest), h.ne_null (List.mem_cons_of_mem _ hstart)⟩
  have hfilled : Good (filled dest start p) l := h.set_type hdest _
  have htype : (filled dest start p).type start = p.type start := Function.update_of_ne hne _ _
  have hstartUsed : usedOf (filled dest start p) start = [(p.type start, p.length start)] := by
    rw [usedOf, htype, if_neg hok.used]
    rfl
  have hgain : (used (filled dest start p) l).Perm ([(p.type start, p.length start)] ++ used p l) := by
    obtain ⟨A, B, rfl⟩ := List.append_of_mem hdest
    have hset := h.used_set_type (p.type start)
    rw [if_neg hok.used] at hset
    have hnone : usedOf p dest = [] := if_pos hok.free
    unfold filled
    rw [hset, used_append, used_cons, hnone, List.nil_append, hok.same]
    exact (List.perm_append_comm_assoc _ _ _).symm.symm
  rw [hdskSimMovePartition, if_neg hnull]
  change ∃ q m, hdskSimSwapPartition start (filled dest start p) = some q ∧ _
  rw [hdskSimSwapPartition]
  by_cases hlast : p.prev 0 = start
  · obtain ⟨L, z, rfl⟩ := (List.eq_nil_or_concat l).resolve_left (List.ne_nil_of_mem hstart)
    rw [List.concat_eq_append] at *
    have hz : z = start := hfilled.ring.path.last_eq.2.symm.trans hlast
    subst hz
    obtain ⟨hgood, hused⟩ := hfilled.remove_last rfl
    have hz0 : (0 : Nat) ≠ z := fun heq => h.ring.root_notMem (heq ▸ hstart)
    have hprev : (hdskSimClearHeader z (apaCacheUnLink z (filled dest z p))).prev 0 = p.prev z := by
      have hnext : (filled dest z p).next z = 0 := hfilled.ring.path.last_eq.1
      refine (Function.update_of_ne hz0 _ _).trans ?_
      rw [unlink_prev, if_pos hnext.symm]
      rfl
    have hmem := hgood.ring.path.last_mem
    have hpz : p.prev z ≠ z := by
      intro heq
      rw [hprev, heq] at hmem
      rcases List.mem_cons.mp hmem with hzero | hmem
      · exact hz0 hzero.symm
      · exact h.ring.notMem.1 hmem
    have hfree : (hdskSimClearHeader z (apaCacheUnLink z (filled dest z p))).type (p.prev z) = 0 :=
      (clear_type hpz).trans (hok.last hlast)
    refine ⟨_, L, ?_, hgood, ?_⟩
    · rw [if_pos (show (filled dest z p).prev 0 = z from hlast)]
      change removeLast (0x4000 + 1) z _ = _
      rw [removeLast]
      simp only [hprev, hfree]
      rw [if_neg (hprev ▸ hgood.ne_null hmem), if_neg (not_not.mpr rfl)]
    · rw [hused, hstartUsed] at hgain
      exact (List.perm_append_left_iff _).mp (List.perm_append_comm.trans hgain)
  · obtain ⟨A, B, rfl⟩ := List.append_of_mem hstart
    have hshort := h.length_lt
    rw [List.length_append] at hshort
    obtain ⟨r, q, A', hrun, hq, hstop, hcase⟩ := fixPrev_spec hfilled (n := HDSK_BITMAP_SIZE)
      (by simp only [HDSK_BITMAP_SIZE] at *; omega)
    have hno : NoJoin r q := hok.inner hlast _ hrun
    have hnext := fixNext_stop hq (List.mem_append_right _ List.mem_cons_self) hno 0x4000
    have hfix : fix start (filled dest start p) = some (r, q) := by
      unfold fix
      rw [hrun]
      exact hnext
    have hagain : fix r q = some (r, q) := by
      unfold fix
      rw [show hdskSimDeleteFixPrev HDSK_BITMAP_SIZE r q = some (r, q) from hstop 0x4000]
      exact hnext
    rw [if_neg (show (filled dest start p).prev 0 ≠ start from hlast), hfix, Option.bind_some, hagain]
    dsimp only
    rcases hcase with ⟨rfl, rfl, rfl⟩ | ⟨hfree, hbefore, hperm⟩
    · rw [if_pos ⟨rfl, rfl⟩]
      refine ⟨_, _, rfl, hq.set_type hstart 0, ?_⟩
      have hset := hq.used_set_type 0
      rw [if_pos rfl, List.nil_append] at hset
      rw [hset]
      rw [used_append, used_cons, hstartUsed] at hgain
      exact (List.perm_append_left_iff _).mp ((List.perm_append_comm_assoc _ _ _).trans hgain)
    · rw [if_neg (show ¬ (q.start r = (filled dest start p).start start ∧ _) from fun heq =>
        hbefore.ne heq.1)]
      refine ⟨q, _, rfl, hq, ?_⟩
      rw [hstartUsed] at hperm
      exact (List.perm_append_left_iff _).mp (hperm.trans hgain)

/-! ### Splits -/

/-- A free record is halved. -/
theorem Good.split {last half : Nat} (h : Good p (A ++ x :: B)) (hfree : p.type x = 0) (hhalf : p.length x = 2 * half)
    (hmin : HDSK_MIN_PART_SIZE ≤ half) (hlast : last < HDSK_BITMAP_SIZE) (hne0 : last ≠ 0) (hclear : p.length last = 0)
    (hq : q = apaCacheLink x last { p with
      length := Function.update (Function.update p.length x half) last half
      start := Function.update p.start last (u32 (p.start x + half))
      type := Function.update p.type last 0 }) :
    Good q (A ++ x :: last :: B) ∧ used q (A ++ x :: last :: B) = used p (A ++ x :: B) ∧ q.type x = 0 ∧
      q.length x = half := by
  have hnot : last ∉ A ++ x :: B := fun hmem => h.mem_iff.mp hmem hclear
  obtain ⟨hxA, hxB⟩ := h.ring.notMem
  obtain ⟨hlA, hlx, hlB⟩ : last ∉ A ∧ last ≠ x ∧ last ∉ B := by
    rw [List.mem_append, List.mem_cons, not_or, not_or] at hnot
    exact hnot
  have hstart : ∀ z, z ≠ last → q.start z = p.start z := by
    intro z hz
    rw [hq]
    exact Function.update_of_ne hz _ _
  have htype : ∀ z, z ≠ last → q.type z = p.type z := by
    intro z hz
    rw [hq]
    exact Function.update_of_ne hz _ _
  have hlength : ∀ z, z ≠ last → z ≠ x → q.length z = p.length z := by
    intro z hz hzx
    rw [hq]
    exact (Function.update_of_ne hz _ _).trans (Function.update_of_ne hzx _ _)
  have hxlength : q.length x = half := by
    rw [hq]
    exact (Function.update_of_ne (Ne.symm hlx) _ _).trans (Function.update_self _ _ _)
  have hlastlength : q.length last = half := by
    rw [hq]
    exact Function.update_self _ _ _
  have hlasttype : q.type last = 0 := by
    rw [hq]
    exact Function.update_self _ _ _
  have hneA : ∀ z ∈ A, z ≠ last ∧ z ≠ x := fun z hz => ⟨fun heq => hlA (heq ▸ hz), fun heq => hxA (heq ▸ hz)⟩
  have hneB : ∀ z ∈ B, z ≠ last ∧ z ≠ x := fun z hz => ⟨fun heq => hlB (heq ▸ hz), fun heq => hxB (heq ▸ hz)⟩
  refine ⟨?_, ?_, (htype x (Ne.symm hlx)).trans hfree, hxlength⟩
  · constructor
    case ring =>
      have hout : last ∉ 0 :: (A ++ x :: B) := by
        rw [List.mem_cons]
        exact not_or.mpr ⟨hne0, hnot⟩
      rw [hq]
      exact FreeRing.insert h.ring hout (link_next _ (Ne.symm hlx)) (link_prev _ (Ne.symm hlx))
    case pool =>
      intro z hz
      by_cases hzl : z = last
      · rw [hzl]
        exact hlast
      · apply h.pool
        rw [List.mem_append, List.mem_cons, List.mem_cons] at hz
        rw [List.mem_append, List.mem_cons]
        rcases hz with hz | hz | hz | hz
        · exact .inl hz
        · exact .inr (.inl hz)
        · exact absurd hz hzl
        · exact .inr (.inr hz)
    case rest =>
      intro z hz
      rw [List.mem_append, List.mem_cons, List.mem_cons, not_or, not_or, not_or] at hz
      rw [hlength z hz.2.2.1 hz.2.1]
      apply h.rest
      rw [List.mem_append, List.mem_cons, not_or, not_or]
      exact ⟨hz.1, hz.2.1, hz.2.2.2⟩
    case head => rw [htype 0 (Ne.symm hne0), h.head]
    case tiles =>
      obtain ⟨e, he, ht⟩ := h.tiles
      obtain ⟨m, hA, hs, hdyadic, -, hB⟩ := tiles_append.mp ht
      have hle := hB.le
      rw [hhalf] at hdyadic hle hB
      have hpow : half.isPowerOfTwo := by
        obtain ⟨k, hk⟩ := hdyadic.pow
        cases k with
        | zero => omega
        | succ k => exact ⟨k, by rw [Nat.pow_succ] at hk; omega⟩
      have hlaststart : q.start last = m + half := by
        rw [hq]
        refine (Function.update_self _ _ _).trans ?_
        rw [hs]
        exact Nat.mod_eq_of_lt (by omega)
      refine ⟨e, he, tiles_append.mpr ⟨m, ?_, ?_⟩⟩
      · exact hA.congr (fun z hz => hstart z (hneA z hz).1) fun z hz => hlength z (hneA z hz).1 (hneA z hz).2
      · rw [Tiles, Tiles, hstart x (Ne.symm hlx), hxlength, hlaststart, hlastlength]
        have hdvd : half ∣ m := (Nat.dvd_mul_left half 2).trans hdyadic.dvd
        refine ⟨hs, ⟨hpow, hdvd⟩, hmin, rfl, ⟨hpow, (Nat.dvd_add_right hdvd).mpr (dvd_refl half)⟩, hmin, ?_⟩
        rw [Nat.add_assoc, ← Nat.two_mul]
        exact hB.congr (fun z hz => hstart z (hneB z hz).1) fun z hz => hlength z (hneB z hz).1 (hneB z hz).2
  · have hA : used q A = used p A :=
      used_congr (fun z hz => htype z (hneA z hz).1) fun z hz => hlength z (hneA z hz).1 (hneA z hz).2
    have hB : used q B = used p B :=
      used_congr (fun z hz => htype z (hneB z hz).1) fun z hz => hlength z (hneB z hz).1 (hneB z hz).2
    have hnone : usedOf q x = [] ∧ usedOf q last = [] ∧ usedOf p x = [] :=
      ⟨if_pos ((htype x (Ne.symm hlx)).trans hfree), if_pos hlasttype, if_pos hfree⟩
    rw [used_append, used_cons, used_cons, used_append, used_cons, hA, hB, hnone.1, hnone.2.1, hnone.2.2,
      List.nil_append, List.nil_append]

theorem alloc_spec (h : Good p l) : hdskBitmapAlloc p < HDSK_BITMAP_SIZE ∧ hdskBitmapAlloc p ≠ 0 ∧
    p.length (hdskBitmapAlloc p) = 0 := by
  unfold hdskBitmapAlloc
  cases hfind : (List.range' 1 (HDSK_BITMAP_SIZE - 1)).find? fun i => p.length i == 0 with
  | some i =>
    have hmem := List.mem_range'_1.mp (List.mem_of_find?_eq_some hfind)
    have hzero := List.find?_some hfind
    simp only [HDSK_BITMAP_SIZE] at hmem
    refine ⟨?_, ?_, beq_iff_eq.mp hzero⟩
    · simp only [Option.getD_some, HDSK_BITMAP_SIZE]
      omega
    · simp only [Option.getD_some]
      omega
  | none =>
    have hsub : List.range' 1 (HDSK_BITMAP_SIZE - 1) ⊆ l := by
      intro i hi
      apply h.mem_iff.mpr
      have := List.find?_eq_none.mp hfind i hi
      simpa using this
    have hle := (List.subperm_of_subset List.nodup_range' hsub).length_le
    have hlt := h.length_lt
    rw [List.length_range'] at hle
    omega

private theorem split_spec {length k : Nat} (h : Good p l) (hx : x ∈ l) (hfree : p.type x = 0)
    (hlength : p.length x = length * 2 ^ k) (hmin : HDSK_MIN_PART_SIZE ≤ length) (hk : k < n) :
    ∃ q m, hdskSimSplitEmptyPartition n x length p = some q ∧ Good q m ∧ used q m = used p l := by
  induction k generalizing p l n with
  | zero =>
    obtain ⟨n, rfl⟩ := Nat.exists_eq_add_of_lt hk
    rw [Nat.zero_add, hdskSimSplitEmptyPartition, if_neg (h.ne_null (List.mem_cons_of_mem _ hx)),
      if_pos (by rw [hlength, Nat.pow_zero, Nat.mul_one])]
    exact ⟨p, l, rfl, h, rfl⟩
  | succ k ih =>
    cases n with
    | zero => omega
    | succ n =>
      have hpos : 0 < length := by
        simp only [HDSK_MIN_PART_SIZE] at hmin
        omega
      have htwo : 1 ≤ 2 ^ k := Nat.one_le_two_pow
      have hhalf : p.length x = 2 * (length * 2 ^ k) := by
        rw [hlength, Nat.pow_succ]
        ring
      have hge : length ≤ length * 2 ^ k := Nat.le_mul_of_pos_right _ htwo
      obtain ⟨hlast, hne0, hclear⟩ := alloc_spec h
      obtain ⟨A, B, rfl⟩ := List.append_of_mem hx
      obtain ⟨hgood, hused, hqfree, hqlength⟩ := h.split hfree hhalf (hmin.trans hge) hlast hne0 hclear rfl
      obtain ⟨q, m, hrun, hq, hsame⟩ := ih (n := n) hgood (by simp) hqfree hqlength (by omega)
      refine ⟨q, m, ?_, hq, hsame.trans hused⟩
      rw [hdskSimSplitEmptyPartition, if_neg (h.ne_null (List.mem_cons_of_mem _ hx)), if_neg (by omega)]
      dsimp only
      rw [if_neg (show ¬ hdskBitmapAlloc p = NULL from hlast.ne)]
      have hdiv : p.length x / 2 = length * 2 ^ k := by omega
      rw [hdiv]
      exact hrun

/-! ### Runs -/

/-- A call that changes the list. `hdskGetStat` makes them itself or through `hdskSimMovePartitionsBlock`. -/
inductive Call
  | split (part length : Nat)
  | move (dest start : Nat)

/-- A call is made. A split takes 32 passes at most. -/
def exec : Call → Bitmap → Option Bitmap
  | .split part length, p => hdskSimSplitEmptyPartition 33 part length p
  | .move dest start, p => hdskSimMovePartition dest start p

/-- When a split keeps the list: a free record is split to the length of a linked one. -/
structure SplitOk (part length : Nat) (p : Bitmap) : Prop where
  linked : p.length part ≠ 0
  free : p.type part = 0
  src : ∃ i, p.length i = length
  pos : length ≠ 0
  le : length ≤ p.length part

def CallOk : Call → Bitmap → Prop
  | .split part length, p => SplitOk part length p
  | .move dest start, p => MoveOk dest start p

theorem Tiles.pow (h : Tiles p s l e) (hx : x ∈ l) : (p.length x).isPowerOfTwo := by
  induction l generalizing s with
  | nil => cases hx
  | cons y l ih =>
    obtain ⟨-, hdyadic, -, hrest⟩ := h
    rcases List.mem_cons.mp hx with rfl | hx
    · exact hdyadic.pow
    · exact ih hrest hx

/-- A call that is made in order has a result, and keeps the list and the used partitions. -/
theorem exec_spec {call : Call} (h : Good p l) (hok : CallOk call p) :
    ∃ q m, exec call p = some q ∧ Good q m ∧ (used q m).Perm (used p l) := by
  cases call with
  | move dest start => exact move_spec h hok
  | split part length =>
    obtain ⟨hlinked, hfree, ⟨i, hi⟩, hpos, hle⟩ := hok
    have hpart : part ∈ l := h.mem_iff.mpr hlinked
    have hmem : i ∈ l := h.mem_iff.mpr (hi ▸ hpos)
    obtain ⟨e, he, ht⟩ := h.tiles
    have hmin := ht.pos hmem
    obtain ⟨a, ha⟩ := ht.pow hmem
    obtain ⟨b, hb⟩ := ht.pow hpart
    rw [hi] at ha hmin
    have hab : a ≤ b := by
      apply (Nat.pow_le_pow_iff_right (by decide : 1 < 2)).mp
      rw [← ha, ← hb]
      exact hle
    have hb32 : b < 32 := by
      apply (Nat.pow_lt_pow_iff_right (by decide : 1 < 2)).mp
      rw [← hb]
      obtain ⟨A, B, rfl⟩ := List.append_of_mem hpart
      obtain ⟨m, -, -, -, -, hB⟩ := tiles_append.mp ht
      have := hB.le
      omega
    have hlength : p.length part = length * 2 ^ (b - a) := by
      rw [hb, ha, ← Nat.pow_add, Nat.add_sub_cancel' hab]
    obtain ⟨q, m, hrun, hq, hused⟩ := split_spec (n := 33) h hpart hfree hlength hmin (by omega)
    exact ⟨q, m, hrun, hq, by rw [hused]⟩

/-- The table starts at sector 0 and leaves no gap; partitions are aligned to their lengths. -/
def WellFormed : Nat → List Record → Prop
  | s, [] => s < 2 ^ 32
  | s, r :: table => r.start = s ∧ Dyadic s r.length ∧ HDSK_MIN_PART_SIZE ≤ r.length ∧
      WellFormed (s + r.length) table

theorem initLoop_spec (hring : Ring p []) (n : Nat) :
    Ring ((List.range' 1 n).foldl (fun p i => apaCacheLink (p.prev 0) i p) p) (List.range' 1 n) ∧
    ((List.range' 1 n).foldl (fun p i => apaCacheLink (p.prev 0) i p) p).start = p.start ∧
    ((List.range' 1 n).foldl (fun p i => apaCacheLink (p.prev 0) i p) p).length = p.length ∧
    ((List.range' 1 n).foldl (fun p i => apaCacheLink (p.prev 0) i p) p).type = p.type := by
  induction n with
  | zero => exact ⟨hring, rfl, rfl, rfl⟩
  | succ n ih =>
    rw [List.range'_1_concat, List.foldl_append, List.foldl_cons, List.foldl_nil]
    generalize (List.range' 1 n).foldl (fun p i => apaCacheLink (p.prev 0) i p) p = q at *
    obtain ⟨hlist, hstart, hlength, htype⟩ := ih
    have hnot : 1 + n ∉ 0 :: List.range' 1 n := by
      rw [List.mem_cons, List.mem_range'_1]
      omega
    have hne : q.prev 0 ≠ 1 + n := fun heq => hnot (heq ▸ hlist.path.last_mem)
    refine ⟨?_, hstart, hlength, htype⟩
    apply FreeRing.append hlist hnot
    · exact link_next q hne
    · exact link_prev q hne

private theorem tiles_of_wellFormed (pre : List Record) {table : List Record} (h : WellFormed s table)
    (hstart : p.start = fun i => if i = 0 then 0 else ((pre ++ table).map (·.start)).getD (i - 1) 0)
    (hlength : p.length = fun i => if i = 0 then 0 else ((pre ++ table).map (·.length)).getD (i - 1) 0) :
    ∃ e, e < 2 ^ 32 ∧ Tiles p s (List.range' (pre.length + 1) table.length) e := by
  induction table generalizing s pre with
  | nil => exact ⟨s, h, rfl⟩
  | cons r table ih =>
    obtain ⟨hs, hdyadic, hmin, hrest⟩ := h
    obtain ⟨e, he, ht⟩ := ih (pre ++ [r]) hrest (by rw [List.append_assoc]; exact hstart)
      (by rw [List.append_assoc]; exact hlength)
    rw [List.length_append, List.length_singleton] at ht
    have hr : p.start (pre.length + 1) = r.start ∧ p.length (pre.length + 1) = r.length := by
      rw [hstart, hlength]
      simp
    refine ⟨e, he, ?_⟩
    rw [List.length_cons, List.range'_succ, Tiles, hr.1, hr.2]
    exact ⟨hs, hdyadic, hmin, ht⟩

private theorem init_spec {table : List Record} (h : WellFormed 0 table) :
    Good (hdskBitmapInit table) (List.range' 1 table.length) := by
  have hempty : Ring { next := fun i => if i = 0 then 0 else NULL
                       prev := fun i => if i = 0 then 0 else NULL
                       start := fun i => if i = 0 then 0 else (table.map (·.start)).getD (i - 1) 0
                       length := fun i => if i = 0 then 0 else (table.map (·.length)).getD (i - 1) 0
                       type := fun i => if i = 0 then 0 else (table.map (·.type)).getD (i - 1) 0 } [] :=
    ⟨⟨rfl, rfl⟩, List.nodup_singleton 0⟩
  obtain ⟨hring, hstart, hlength, htype⟩ := initLoop_spec hempty table.length
  obtain ⟨e, he, ht⟩ := tiles_of_wellFormed (p := hdskBitmapInit table) [] h hstart hlength
  have hle := ht.le
  rw [List.length_range'] at hle
  constructor
  case ring => exact hring
  case pool =>
    intro x hx
    have hmem := List.mem_range'_1.mp hx
    simp only [HDSK_MIN_PART_SIZE, HDSK_BITMAP_SIZE] at *
    omega
  case rest =>
    intro x hx
    rw [List.mem_range'_1] at hx
    refine (congrFun hlength x).trans ?_
    dsimp only
    split
    · rfl
    · rw [List.getD_eq_getElem?_getD, List.getElem?_eq_none]
      · rfl
      · rw [List.length_map]
        omega
  case head => exact congrFun htype 0
  case tiles => exact ⟨e, he, ht⟩

/-- What calls in order reach from the list of a table. -/
inductive Reaches (table : List Record) : Bitmap → Prop
  | init : Reaches table (hdskBitmapInit table)
  | step {p q : Bitmap} {call : Call} : Reaches table p → CallOk call p → exec call p = some q → Reaches table q

/-- The linked records are a ring without gap or overlap, with the used partitions of the table, and a record that is taken is not one of them. -/
structure Kept (table : List Record) (p : Bitmap) (l : List Nat) : Prop where
  good : Good p l
  used : (used p l).Perm (used (hdskBitmapInit table) (List.range' 1 table.length))
  alloc : hdskBitmapAlloc p ≠ NULL ∧ hdskBitmapAlloc p ∉ 0 :: l

/-- In a run whose calls are in order the list is kept, and each call has a result. -/
theorem moves_keep {table : List Record} (hwf : WellFormed 0 table) (h : Reaches table p) :
    (∃ l, Kept table p l) ∧ ∀ call, CallOk call p → ∃ q, exec call p = some q := by
  have hkept : ∃ l, Good p l ∧ (used p l).Perm (used (hdskBitmapInit table) (List.range' 1 table.length)) := by
    induction h with
    | init => exact ⟨_, init_spec hwf, List.Perm.refl _⟩
    | step _ hok hexec ih =>
      obtain ⟨l, hgood, hused⟩ := ih
      obtain ⟨q, m, hrun, hq, hperm⟩ := exec_spec hgood hok
      rw [hexec] at hrun
      cases hrun
      exact ⟨m, hq, hperm.trans hused⟩
  obtain ⟨l, hgood, hused⟩ := hkept
  refine ⟨⟨l, hgood, hused, ?_⟩, fun call hok => ?_⟩
  · obtain ⟨hlt, hne0, hclear⟩ := alloc_spec hgood
    refine ⟨hlt.ne, ?_⟩
    rw [List.mem_cons, not_or]
    exact ⟨hne0, fun hmem => hgood.mem_iff.mp hmem hclear⟩
  · obtain ⟨q, -, hrun, -⟩ := exec_spec hgood hok
    exact ⟨q, hrun⟩

/-- A free partition, room behind it, and a used partition of its length at the end. -/
def roomyTable : List Record :=
  [⟨0, 0x40000, 1⟩, ⟨0x40000, 0x40000, 0⟩, ⟨0x80000, 0x80000, 0⟩, ⟨0x100000, 0x40000, 0x100⟩]

theorem roomyTable_wellFormed : WellFormed 0 roomyTable :=
  ⟨rfl, ⟨⟨18, rfl⟩, by decide⟩, by decide, rfl, ⟨⟨18, rfl⟩, by decide⟩, by decide,
    rfl, ⟨⟨19, rfl⟩, by decide⟩, by decide, rfl, ⟨⟨18, rfl⟩, by decide⟩, by decide, show _ < 2 ^ 32 by decide⟩

theorem moves_keep_small : ∃ q, exec (.move 2 4) (hdskBitmapInit roomyTable) = some q ∧ ∃ l, Kept roomyTable q l := by
  have hok : CallOk (.move 2 4) (hdskBitmapInit roomyTable) :=
    ⟨by decide, by decide, by decide, by decide, fun _ => by decide, fun hne => absurd (by decide) hne⟩
  obtain ⟨q, hq⟩ := (moves_keep roomyTable_wellFormed .init).2 _ hok
  exact ⟨q, hq, (moves_keep roomyTable_wellFormed (.step .init hok hq)).1⟩

/-! ### The moves of `hdskGetStat` -/

theorem findEmpty_spec {size part dest : Nat} (h : Good p l) (hsize : size ≠ 0) (hpart : part ∈ 0 :: l)
    (hfind : hdskSimFindEmptyPartition size p n part = some dest) :
    p.length dest ≠ 0 ∧ p.type dest = 0 ∧ p.length dest = size := by
  induction n generalizing part with
  | zero => cases hfind
  | succ n ih =>
    rw [hdskSimFindEmptyPartition] at hfind
    split_ifs at hfind with hend hfound
    · cases hfind
      exact ⟨hfound.1.symm ▸ hsize, hfound.2, hfound.1⟩
    · refine ih ?_ hfind
      rcases List.mem_cons.mp hpart with rfl | hmem
      · cases l with
        | nil => exact absurd h.ring.path.1 hend
        | cons x l =>
          rw [h.ring.next_root]
          exact List.mem_cons_of_mem _ List.mem_cons_self
      · exact h.next_mem hmem

theorem findLast_spec {size start mode part src : Nat}
    (hfind : hdskSimFindLastUsedPartition size start mode p n part = some src) :
    p.type src ≠ 0 ∧ p.length src = size := by
  induction n generalizing part with
  | zero => cases hfind
  | succ n ih =>
    rw [hdskSimFindLastUsedPartition] at hfind
    split at hfind
    · dsimp only at hfind
      split at hfind
      · rename_i hfound
        cases hfind
        exact ⟨hfound.2.1, hfound.1⟩
      · exact ih hfind
    · cases hfind

/-- What a block move does is a sequence of calls. -/
theorem block_calls {dest src size : Nat} (h : hdskSimMovePartitionsBlock n dest src size p = some q) :
    ∃ calls : List Call, calls.foldlM (fun p call => exec call p) p = some q := by
  induction n generalizing dest src size p with
  | zero => cases h
  | succ n ih =>
    rw [hdskSimMovePartitionsBlock] at h
    split at h
    · cases h
    · cases hsplit : hdskSimSplitEmptyPartition 33 dest (p.length src) p with
      | none =>
        rw [hsplit] at h
        cases h
      | some p₁ =>
        rw [hsplit] at h
        dsimp only at h
        split at h
        · cases h
          exact ⟨[.split dest (p.length src)], by simp [exec, hsplit]⟩
        · cases hmove : hdskSimMovePartition dest src p₁ with
          | none =>
            rw [hmove] at h
            cases h
          | some p₂ =>
            rw [hmove] at h
            dsimp only at h
            have htwo : ∀ calls : List Call, calls.foldlM (fun p call => exec call p) p₂ = some q →
                (Call.split dest (p.length src) :: .move dest src :: calls).foldlM (fun p call => exec call p) p =
                  some q := by
              intro calls hcalls
              have hfirst : exec (.split dest (p.length src)) p = some p₁ := hsplit
              have hsecond : exec (.move dest src) p₁ = some p₂ := hmove
              simp only [List.foldlM_cons, hfirst, hsecond, Option.bind_eq_bind, Option.bind_some, hcalls]
            split_ifs at h
            · cases h
              exact ⟨_, htwo [] rfl⟩
            · cases h
              exact ⟨_, htwo [] rfl⟩
            · obtain ⟨calls, hcalls⟩ := ih h
              exact ⟨_, htwo calls hcalls⟩

/-- A used partition between two free ones of its length. -/
def buddyTable : List Record :=
  [⟨0, 0x40000, 1⟩, ⟨0x40000, 0x40000, 0⟩, ⟨0x80000, 0x40000, 0x100⟩, ⟨0xC0000, 0x40000, 0⟩, ⟨0x100000, 0x100000, 0x100⟩]

/-- The first move of `hdskGetStat` follows a null pointer: the record that is cleared is not the one that was joined, but the one it was joined to. -/
theorem move_loses_list : ¬ ∀ table size dest start, WellFormed 0 table →
    hdskSimFindEmptyPartition size (hdskBitmapInit table) HDSK_BITMAP_SIZE 0 = some dest →
    hdskSimFindLastUsedPartition size ((hdskBitmapInit table).start dest) 1 (hdskBitmapInit table) HDSK_BITMAP_SIZE
      ((hdskBitmapInit table).prev 0) = some start →
    ∃ q l, exec (.move dest start) (hdskBitmapInit table) = some q ∧ Kept table q l := by
  intro h
  have hwf : WellFormed 0 buddyTable :=
    ⟨rfl, ⟨⟨18, rfl⟩, by decide⟩, by decide, rfl, ⟨⟨18, rfl⟩, by decide⟩, by decide,
      rfl, ⟨⟨18, rfl⟩, by decide⟩, by decide, rfl, ⟨⟨18, rfl⟩, by decide⟩, by decide,
      rfl, ⟨⟨20, rfl⟩, by decide⟩, by decide, show _ < 2 ^ 32 by decide⟩
  obtain ⟨q, l, hrun, -⟩ := h buddyTable 0x40000 2 3 hwf (by decide) (by decide)
  have hnone : exec (.move 2 3) (hdskBitmapInit buddyTable) = none := rfl
  rw [hnone] at hrun
  cases hrun

end HddChecker.Hdsk.Sim
