import HddChecker.Apa.Partition
import HddChecker.Lib.Dyadic
import HddChecker.Lib.Ring

/-!
# Partition tables

A table is the list of its headers from the MBR on, each without its links and its checksum. The list is tiled when the partitions follow one another from sector 0 without a gap and each is a dyadic block; the ring of the headers in the cache or on the disk says that the links spell the list.
-/

namespace HddChecker.Apa

open HddChecker

/-- `"_tmp"` in a field of 32 bytes. -/
def tmpId : Fin 8 → Nat := ![0x706d745f, 0, 0, 0, 0, 0, 0, 0]

namespace ApaHeader

/-- What a header says of its own partition: all of it but the links and the checksum. -/
def body (h : ApaHeader) : ApaHeader := { h with checksum := 0, next := 0, prev := 0 }

@[simp] theorem sealed_body (h : ApaHeader) : h.sealed.body = h.body := by
  rw [sealed]
  rfl

@[simp] theorem body_start (h : ApaHeader) : h.body.start = h.start := rfl

@[simp] theorem body_length (h : ApaHeader) : h.body.length = h.length := rfl

theorem start_of_body {v x : ApaHeader} (h : v.body = x) : v.start = x.start := by
  rw [← h, body_start]

theorem length_of_body {v x : ApaHeader} (h : v.body = x) : v.length = x.length := by
  rw [← h, body_length]

@[simp] theorem body_type (h : ApaHeader) : h.body.type = h.type := rfl

@[simp] theorem body_main (h : ApaHeader) : h.body.main = h.main := rfl

@[simp] theorem body_isSub (h : ApaHeader) : h.body.isSub = h.isSub := rfl

@[simp] theorem body_isFree (h : ApaHeader) : h.body.isFree = h.isFree := rfl

/-- The partition `_tmp`. -/
def isTmp (h : ApaHeader) : Bool := !h.isSub && decide (h.id = tmpId)

theorem isFree_iff (h : ApaHeader) : h.isFree = true ↔ h.type = APA_TYPE_FREE := by
  rw [isFree, beq_iff_eq]

end ApaHeader

@[simps] def headerLinks : Linked ApaHeader ApaHeader where
  key := (·.start)
  body := ApaHeader.body
  next := (·.next)
  prev := (·.prev)

/-- What holds of each header of a table by itself. -/
structure Part (x : ApaHeader) : Prop where
  magic : x.magic = APA_MAGIC
  dyadic : Dyadic x.start x.length
  large : 0x40000 ≤ x.length
  top : x.start + x.length ≤ 2 ^ 32
  mbr : x.start = 0 → x.hasMBRMagic = true ∧ x.isFree = false ∧ x.isSub = false ∧ x.isTmp = false
  blank : x.isFree = true → x.flags = 0 ∧ x.nsub = 0 ∧ x.isTmp = false

/-- The partitions `L` lie one behind the other from sector `s` on. -/
def Tiles : Nat → List ApaHeader → Prop
  | _, [] => True
  | s, x :: L => x.start = s ∧ Part x ∧ Tiles (s + x.length) L

/-- The sectors of the partitions `L`. -/
def total (L : List ApaHeader) : Nat := (L.map (·.length)).sum

@[simp] theorem total_nil : total [] = 0 := rfl

@[simp] theorem total_cons (x : ApaHeader) (L : List ApaHeader) :
    total (x :: L) = x.length + total L := rfl

@[simp] theorem total_append (A B : List ApaHeader) : total (A ++ B) = total A + total B := by
  simp [total]

theorem tiles_append {s : Nat} {A B : List ApaHeader} :
    Tiles s (A ++ B) ↔ Tiles s A ∧ Tiles (s + total A) B := by
  induction A generalizing s with
  | nil => simp [Tiles]
  | cons x A ih => simp [Tiles, ih, and_assoc, Nat.add_assoc]

theorem Tiles.part {s : Nat} {L : List ApaHeader} (h : Tiles s L) {x : ApaHeader} (hx : x ∈ L) :
    Part x := by
  induction L generalizing s with
  | nil => cases hx
  | cons y L ih =>
    rcases List.mem_cons.mp hx with rfl | hx
    · exact h.2.1
    · exact ih h.2.2 hx

theorem Tiles.le_start {s : Nat} {L : List ApaHeader} (h : Tiles s L) {x : ApaHeader}
    (hx : x ∈ L) : s ≤ x.start := by
  induction L generalizing s with
  | nil => cases hx
  | cons y L ih =>
    rcases List.mem_cons.mp hx with rfl | hx
    · exact h.1.ge
    · have := ih h.2.2 hx
      omega

theorem Tiles.end_le {s : Nat} {L : List ApaHeader} (h : Tiles s L) {x : ApaHeader} (hx : x ∈ L) :
    x.start + x.length ≤ s + total L := by
  induction L generalizing s with
  | nil => cases hx
  | cons y L ih =>
    obtain ⟨hs, -, hL⟩ := h
    rw [total_cons]
    rcases List.mem_cons.mp hx with rfl | hx
    · omega
    · have := ih hL hx
      omega

/-- Earlier partitions lie before later ones. -/
theorem Tiles.pairwise {s : Nat} {L : List ApaHeader} (h : Tiles s L) :
    L.Pairwise fun x y => x.start + x.length ≤ y.start := by
  induction L generalizing s with
  | nil => exact .nil
  | cons x L ih =>
    obtain ⟨hs, -, hL⟩ := h
    refine .cons (fun y hy => ?_) (ih hL)
    have := hL.le_start hy
    omega

theorem Part.two_le {x : ApaHeader} (h : Part x) : 2 ≤ x.length := by
  have := h.large
  omega

/-- The header of a partition stands at a multiple of the smallest partition's length. -/
def Slot (s : Nat) : Prop := 0x40000 ∣ s

theorem places_slot : Places Slot where
  clear := fun s ⟨k, hk⟩ => by
    simp only [APA_SECTOR_SECTOR_ERROR, APA_SECTOR_APAL_HEADERS]
    omega
  apart := fun s t ⟨k, hk⟩ ⟨j, hj⟩ hlt => by omega

theorem pow_of_large {l : Nat} (hl : l.isPowerOfTwo) (hlarge : 0x40000 ≤ l) : 0x40000 ∣ l :=
  Dyadic.pow_dvd ⟨18, rfl⟩ hl hlarge

theorem Part.slot {x : ApaHeader} (h : Part x) : Slot x.start :=
  (pow_of_large h.dyadic.pow h.large).trans h.dyadic.dvd

@[simp] theorem emptyHeader_isFree (start next prev length : Nat) (created : Fin 2 → Nat) :
    (emptyHeader start next prev length created).isFree = true := rfl

/-- An empty partition in a dyadic block behind the MBR. -/
theorem Part.empty {start length : Nat} (hdyadic : Dyadic start length) (hlarge : 0x40000 ≤ length)
    (htop : start + length ≤ 2 ^ 32) (hstart : start ≠ 0) (created : Fin 2 → Nat) :
    Part (emptyHeader start 0 0 length created) where
  magic := rfl
  dyadic := hdyadic
  large := hlarge
  top := htop
  mbr := fun hzero => (hstart hzero).elim
  blank := fun _ => ⟨rfl, rfl, by
    have hne : emptyId ≠ tmpId := by decide
    simp [ApaHeader.isTmp, emptyHeader, hne]⟩

theorem Tiles.lt_of_ne {s : Nat} {L : List ApaHeader} (h : Tiles s L) {x y : ApaHeader}
    (hx : x ∈ L) (hy : y ∈ L) (hne : x ≠ y) :
    x.start + x.length ≤ y.start ∨ y.start + y.length ≤ x.start := by
  induction L generalizing s with
  | nil => cases hx
  | cons z L ih =>
    obtain ⟨hs, -, hL⟩ := h
    rcases List.mem_cons.mp hx with rfl | hxL
    · rcases List.mem_cons.mp hy with rfl | hyL
      · exact (hne rfl).elim
      · have := hL.le_start hyL
        omega
    · rcases List.mem_cons.mp hy with rfl | hyL
      · have := hL.le_start hxL
        omega
      · exact ih hL hxL hyL

theorem Tiles.eq_of_start {s : Nat} {L : List ApaHeader} (h : Tiles s L) {x y : ApaHeader}
    (hx : x ∈ L) (hy : y ∈ L) (heq : x.start = y.start) : x = y := by
  by_contra hne
  have := (h.part hx).two_le
  have := (h.part hy).two_le
  rcases h.lt_of_ne hx hy hne with hlt | hlt <;> omega

theorem Tiles.nodup {s : Nat} {L : List ApaHeader} (h : Tiles s L) : L.Nodup := by
  refine List.pairwise_iff_forall_sublist.mpr fun {x y} hsub heq => ?_
  have hlt := List.pairwise_iff_forall_sublist.mp h.pairwise hsub
  have := (h.part (hsub.subset List.mem_cons_self)).two_le
  subst heq
  omega

theorem Tiles.map {s : Nat} {L : List ApaHeader} {f : ApaHeader → ApaHeader} (h : Tiles s L)
    (hf : ∀ x ∈ L, (f x).start = x.start ∧ (f x).length = x.length ∧ Part (f x)) :
    Tiles s (L.map f) := by
  induction L generalizing s with
  | nil => trivial
  | cons x L ih =>
    obtain ⟨hs, -, hL⟩ := h
    obtain ⟨hstart, hlength, hpart⟩ := hf x List.mem_cons_self
    refine ⟨hstart.trans hs, hpart, ?_⟩
    rw [hlength]
    exact ih hL fun y hy => hf y (List.mem_cons_of_mem _ hy)

/-- No header stands in the data of a partition. -/
theorem Tiles.not_header {s : Nat} {L : List ApaHeader} (h : Tiles s L) {x y : ApaHeader}
    (hx : x ∈ L) (hy : y ∈ L) {a : Nat} (hlo : x.start + 2 ≤ a) (hhi : a < x.start + x.length) :
    a ≠ y.start ∧ a ≠ y.start + 1 := by
  by_cases hxy : x = y
  · subst hxy
    omega
  · have := (h.part hy).two_le
    rcases h.lt_of_ne hx hy hxy with hlt | hlt <;> omega

theorem Tiles.keys {m : ApaHeader} {L : List ApaHeader} (h : Tiles 0 (m :: L)) :
    headerLinks.Keys m L where
  zero := h.1
  nodup := by
    have hpair := h.pairwise
    rw [List.Nodup, List.pairwise_map]
    refine (List.pairwise_iff_forall_sublist.mpr fun {x y} hsub => ?_)
    have hlt := List.pairwise_iff_forall_sublist.mp hpair hsub
    have hx := h.part (hsub.subset List.mem_cons_self)
    have := hx.two_le
    simp only [headerLinks_key]
    omega

/-- The partitions that are not empty. -/
def used (L : List ApaHeader) : List ApaHeader := L.filter fun x => !x.isFree

theorem mem_used {L : List ApaHeader} {x : ApaHeader} :
    x ∈ used L ↔ x ∈ L ∧ x.isFree = false := by
  simp [used, List.mem_filter]

@[simp] theorem used_nil : used [] = [] := rfl

theorem used_cons (x : ApaHeader) (L : List ApaHeader) :
    used (x :: L) = if x.isFree then used L else x :: used L := by
  cases hx : x.isFree <;> simp [used, hx]

@[simp] theorem used_append (A B : List ApaHeader) : used (A ++ B) = used A ++ used B :=
  List.filter_append ..

theorem used_eq_nil {L : List ApaHeader} (h : ∀ x ∈ L, x.isFree = true) : used L = [] := by
  rw [used, List.filter_eq_nil_iff]
  intro x hx
  simp [h x hx]

end HddChecker.Apa
