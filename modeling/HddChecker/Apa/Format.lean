import HddChecker.Apa.Delete

/-!
# Tables at rest

A table a drive holds while nothing runs on it, and the disk that is made for a list of partitions: the headers are linked in the order of the list and sealed, the journal is empty, and everything else is zero.
-/

namespace HddChecker.Apa

open HddChecker WriteBack

variable {P L H : List ApaHeader} {x h : ApaHeader} {p n : Nat}

/-! ### Making a disk -/

def plainHeader (start length : Nat) (type : UInt16) : ApaHeader :=
  { ApaHeader.zero with magic := APA_MAGIC, start := start, length := length, type := type }

def mbrHeader : ApaHeader :=
  { plainHeader 0 0x40000 1 with
    mbr := fun i => if h : i.val < 8 then apaMBRMagic ⟨i.val, h⟩ else 0 }

/-- The header of the partition `x` between its neighbours at `p` and `n`. -/
def linkedHeader (p n : Nat) (x : ApaHeader) : ApaHeader :=
  ({ x with prev := p, next := n } : ApaHeader).sealed

/-- The headers of the partitions `L` between `p` and `n`. -/
def linkedHeaders : Nat → List ApaHeader → Nat → List ApaHeader
  | _, [], _ => []
  | p, x :: L, n => linkedHeader p (headerLinks.head L n) x :: linkedHeaders x.start L n

/-- The sectors of a disk that holds the headers `H`. -/
def headersDisk (H : List ApaHeader) : Content := fun a =>
  if a = APA_SECTOR_APAL then some ApaJournal.reset.toSector
  else
    match H.find? fun h => h.start == a || h.start + 1 == a with
    | some h => some (if h.start = a then h.first else h.second)
    | none => some Sector.zero

/-- The disk made for the partitions `P`. -/
def tableDisk (P : List ApaHeader) : Content :=
  headersDisk (linkedHeaders (headerLinks.last 0 P) P 0)

private theorem linkedHeader_start : (linkedHeader p n x).start = x.start := rfl

theorem linkedHeaders_start : (linkedHeaders p L n).map (·.start) = L.map (·.start) := by
  induction L generalizing p with
  | nil => rfl
  | cons x L ih => rw [linkedHeaders, List.map_cons, ih, List.map_cons, linkedHeader_start]

/-- A header of the disk is found at its place. -/
theorem holds_headersDisk (hslot : ∀ h ∈ H, Slot h.start) (hnodup : (H.map (·.start)).Nodup)
    (hh : h ∈ H) : Holds (headersDisk H) h.start h := by
  obtain ⟨k, hk⟩ := hslot h hh
  have hfind : ∀ a, a = h.start ∨ a = h.start + 1 →
      (H.find? fun h => h.start == a || h.start + 1 == a) = some h := by
    intro a ha
    cases hfound : H.find? fun h => h.start == a || h.start + 1 == a with
    | none =>
      have hnone := List.find?_eq_none.mp hfound h hh
      simp only [Bool.or_eq_true, beq_iff_eq] at hnone
      omega
    | some g =>
      have hg := List.mem_of_find?_eq_some hfound
      have hga := List.find?_some hfound
      simp only [Bool.or_eq_true, beq_iff_eq] at hga
      obtain ⟨j, hj⟩ := hslot g hg
      rw [List.inj_on_of_nodup_map hnodup hg hh (show g.start = h.start by omega)]
  have hclear := places_slot.clear h.start ⟨k, hk⟩
  simp only [APA_SECTOR_SECTOR_ERROR, APA_SECTOR_APAL_HEADERS] at hclear
  have hne : ∀ a, a = h.start ∨ a = h.start + 1 → a ≠ APA_SECTOR_APAL := by
    intro a ha
    simp only [APA_SECTOR_APAL]
    omega
  refine ⟨?_, ?_⟩
  · rw [headersDisk, if_neg (hne _ (.inl rfl)), hfind _ (.inl rfl)]
    simp
  · rw [headersDisk, if_neg (hne _ (.inr rfl)), hfind _ (.inr rfl)]
    simp

private theorem mem_linkedHeaders {A B : List ApaHeader} :
    linkedHeader (headerLinks.last p A) (headerLinks.head B n) x ∈
      linkedHeaders p (A ++ x :: B) n := by
  induction A generalizing p with
  | nil => exact List.mem_cons_self
  | cons a A ih => exact List.mem_cons_of_mem _ ih

/-- The disk made for a list of partitions holds the table of these. -/
theorem ring_tableDisk (htiles : Tiles 0 P) (hbody : ∀ x ∈ P, x.body = x) :
    headerLinks.Ring (apaReadHeader (tableDisk P)) P := by
  have hstarts := linkedHeaders_start (p := headerLinks.last 0 P) (L := P) (n := 0)
  have hread : ∀ p n x, x ∈ P →
      linkedHeader p n x ∈ linkedHeaders (headerLinks.last 0 P) P 0 →
      apaReadHeader (tableDisk P) x.start = some (linkedHeader p n x) := by
    intro p n x hx hmem
    have hholds := holds_headersDisk (fun h hh => ?_) ?_ hmem
    · exact apaReadHeader_of_sectors hholds.1 hholds.2
        (accepted_sealed (htiles.part hx) (hbody x hx))
    · have hmem : h.start ∈ P.map (·.start) := by
        rw [← hstarts]
        exact List.mem_map_of_mem hh
      obtain ⟨y, hy, hstart⟩ := List.mem_map.mp hmem
      rw [← hstart]
      exact (htiles.part hy).slot
    · rw [hstarts]
      cases P with
      | nil => exact List.nodup_nil
      | cons m L => exact htiles.keys.nodup
  suffices hgen : ∀ A B, P = A ++ B →
      headerLinks.Chain (apaReadHeader (tableDisk P)) (headerLinks.last (headerLinks.last 0 P) A)
        B 0 from hgen [] P rfl
  intro A B hP
  induction B generalizing A with
  | nil => trivial
  | cons x B ih =>
    have hx : x ∈ P := by simp [hP]
    refine ⟨⟨_, hread _ _ x hx (by nth_rewrite 2 [hP]; exact mem_linkedHeaders), ?_, rfl, rfl⟩, ?_⟩
    · nth_rewrite 2 [← hbody x hx]
      exact ApaHeader.sealed_body _
    · have hrest := ih (A ++ [x]) (by simp [hP])
      rwa [headerLinks.last_append] at hrest

private theorem plain_isTmp (start length : Nat) (type : UInt16) :
    (plainHeader start length type).isTmp = false := by
  change (!ApaHeader.zero.isSub && decide (ApaHeader.zero.id = tmpId)) = false
  decide

theorem part_plain {start length : Nat} {type : UInt16} (hdyadic : Dyadic start length)
    (hlarge : 0x40000 ≤ length) (htop : start + length ≤ 2 ^ 32) (hstart : start ≠ 0) :
    Part (plainHeader start length type) where
  magic := rfl
  dyadic := hdyadic
  large := hlarge
  top := htop
  mbr := fun h0 => (hstart h0).elim
  blank := fun _ => ⟨rfl, rfl, plain_isTmp _ _ _⟩

theorem part_mbr : Part mbrHeader where
  magic := rfl
  dyadic := ⟨⟨18, rfl⟩, Nat.dvd_zero _⟩
  large := le_refl _
  top := by decide
  mbr := fun _ => by decide
  blank := fun hfree => absurd hfree (by decide)

theorem tableDisk_idle : IdleSector (tableDisk P APA_SECTOR_APAL) := idleSector_reset

/-! ### A drive at rest -/

/-- Nothing is pending on the drive, and its cache has the headers of the table `P` as they are on the disk. -/
structure Device.Idle (d : Device) (P : List ApaHeader) : Prop where
  sound : d.Sound Slot
  clean : ∀ s, d.isDirty s = false
  stored : ∀ x ∈ P, apaReadHeader d.disk x.start = d.view x.start
  ops : d.ops = []

theorem Device.Idle.steady {π : Promise} {d : Device} (h : d.Idle P) (hne : P ≠ [])
    (hring : headerLinks.Ring (apaReadHeader d.disk) P) (htiles : Tiles 0 P)
    (hholds : π.holds (used P) d.disk) : Steady π ⟨d.disk, []⟩ d P := by
  obtain ⟨m, L, rfl⟩ := List.exists_cons_of_ne_nil hne
  refine ⟨h.sound, h.clean, hring.congr fun x hx => (h.stored x hx).symm, htiles, h.stored, hholds,
    ?_, ?_, ?_⟩
  · rw [h.ops]
    rfl
  · rw [h.ops]
    simp
  · rw [h.ops]
    exact always_nil fun c hc => survives_of_pending hring htiles hholds h.sound.idle
      (fun _ _ _ => rfl) (by simp) hc

theorem Device.idle_boot {c : Content} (hidle : IdleSector (c APA_SECTOR_APAL)) (clock : Nat → Fin 2 → Nat) :
    ({ Device.boot c with clock := clock } : Device).Idle P where
  sound := ⟨List.nodup_nil, fun _ => rfl, rfl, rfl, hidle, fun _ hb => absurd hb List.not_mem_nil⟩
  clean := fun _ => rfl
  stored := fun _ _ => rfl
  ops := rfl

end HddChecker.Apa
