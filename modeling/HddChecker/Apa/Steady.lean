import HddChecker.Apa.Table

/-!
# Tables that survive a power loss

`Steady` says that a drive holds a table between two flushes: the cache, the disk and the links agree, something promised of the used partitions holds, and it would still hold had the power gone at any operation so far. A flush of changed headers keeps it when the changed headers spell a table again, and a raw write keeps it when it stays in spare sectors.
-/

namespace HddChecker.Apa

open HddChecker WriteBack

abbrev Content := Nat → Option Sector

/-- Something that is promised of the used partitions of a table and of the sectors their data cover. -/
structure Promise where
  holds : List ApaHeader → Content → Prop
  covers : List ApaHeader → Nat → Prop
  inside : ∀ U a, covers U a → ∃ x ∈ U, x.start ≠ 0 ∧ x.start + 2 ≤ a ∧ a < x.start + x.length
  stable : ∀ U c c', holds U c → (∀ a, covers U a → c' a = c a) → holds U c'

/-- A content that holds a table which keeps the promise. -/
def OnDisk (π : Promise) (c : Content) : Prop :=
  ∃ m L, headerLinks.Ring (apaReadHeader c) (m :: L) ∧ Tiles 0 (m :: L) ∧
    π.holds (used (m :: L)) c

/-- Whatever restores follow, the content comes to hold such a table. -/
def Survives (π : Promise) (c : Content) : Prop := ∀ e, Restored c e → OnDisk π e

/-- A sector that no header, no promise and no log needs. -/
structure Spare (π : Promise) (P : List ApaHeader) (a : Nat) : Prop where
  outside : apaLog.Outside a
  data : ∀ x ∈ P, a ≠ x.start ∧ a ≠ x.start + 1
  free : ¬ π.covers (used P) a

/-- The drive holds the table `P` between two flushes, having issued its operations on `w`. -/
structure Steady (π : Promise) (w : WriteBack (Option Sector)) (d : Device)
    (P : List ApaHeader) : Prop where
  sound : d.Sound Slot
  clean : ∀ s, d.isDirty s = false
  ring : headerLinks.Ring d.view P
  tiles : Tiles 0 P
  stored : ∀ x ∈ P, apaReadHeader d.disk x.start = d.view x.start
  holds : π.holds (used P) d.disk
  contents : (w.run d.ops).contents = d.disk
  pending : ∀ p ∈ (w.run d.ops).pending, Spare π P p.1
  safe : Always (Survives π) w d.ops

/-! ### Raw transfers -/

theorem mem_writesAt {lba : Nat} {data : List Sector} {p : Nat × Option Sector}
    (h : p ∈ writesAt lba data) : lba ≤ p.1 ∧ p.1 < lba + data.length := by
  induction data generalizing lba with
  | nil => cases h
  | cons s data ih =>
    rcases List.mem_cons.mp h with rfl | h
    · simp
    · have := ih h
      simp only [List.length_cons]
      omega

theorem applyWrites_writesAt_outside {lba a : Nat} {data : List Sector} {c : Content}
    (h : a < lba ∨ lba + data.length ≤ a) : applyWrites (writesAt lba data) c a = c a := by
  refine applyWrites_of_not_mem fun p hp => ?_
  have := mem_writesAt hp
  omega

@[simp] theorem Device.ataWrite_cache (lba : Nat) (data : List Sector) (d : Device) :
    (ataWrite lba data d).2.cache = d.cache := by
  unfold ataWrite
  split <;> rfl

@[simp] theorem Device.ataWrite_journalBuf (lba : Nat) (data : List Sector) (d : Device) :
    (ataWrite lba data d).2.journalBuf = d.journalBuf := by
  unfold ataWrite
  split <;> rfl

/-- A write that fails or goes elsewhere leaves a sector alone. -/
theorem Device.ataWrite_disk_outside {lba a : Nat} {data : List Sector} {d : Device}
    (h : a < lba ∨ lba + data.length ≤ a) : (ataWrite lba data d).2.disk a = d.disk a := by
  unfold ataWrite
  split
  · rfl
  · exact applyWrites_writesAt_outside h

theorem applyWrites_writesAt {lba k : Nat} {data : List Sector} {c : Content}
    (hk : k < data.length) : applyWrites (writesAt lba data) c (lba + k) = data[k]? := by
  induction data generalizing lba k c with
  | nil => cases hk
  | cons s data ih =>
    rw [writesAt, applyWrites_cons]
    cases k with
    | zero =>
      rw [applyWrites_writesAt_outside (.inl (by omega))]
      exact Function.update_self ..
    | succ k =>
      have hk' : k < data.length := by simpa using hk
      rw [show lba + (k + 1) = lba + 1 + k by omega, ih hk', List.getElem?_cons_succ]

private theorem ataRead_some {lba n : Nat} {d : Device} {data : List Sector}
    (h : Device.ataRead lba n d = some data) :
    data.length = n ∧ ∀ k < n, d.disk (lba + k) = data[k]? := by
  induction n generalizing lba data with
  | zero =>
    rw [Device.ataRead, Option.some.injEq] at h
    subst h
    simp
  | succ n ih =>
    rw [Device.ataRead] at h
    split at h
    · rename_i s rest hs hrest
      rw [Option.some.injEq] at h
      subst h
      obtain ⟨hlen, hdata⟩ := ih hrest
      refine ⟨by simp [hlen], fun k hk => ?_⟩
      cases k with
      | zero => simpa using hs
      | succ k =>
        rw [List.getElem?_cons_succ, ← hdata k (by omega)]
        congr 1
        omega
    · cases h

variable {π : Promise} {w : WriteBack (Option Sector)} {P : List ApaHeader} {m : ApaHeader}
  {L : List ApaHeader}

theorem Part.outside {x : ApaHeader} (h : Part x) {a : Nat} (ha : a = x.start ∨ a = x.start + 1) :
    apaLog.Outside a := places_slot.outside h.slot ha

/-- A table is read from a content that has its headers and the promised sectors. -/
theorem ring_of_agrees {c c' : Content} (hring : headerLinks.Ring (apaReadHeader c) P)
    (hagree : ∀ x ∈ P, c' x.start = c x.start ∧ c' (x.start + 1) = c (x.start + 1)) :
    headerLinks.Ring (apaReadHeader c') P := by
  refine Linked.Chain.congr hring fun x hx => ?_
  exact apaReadHeader_congr (hagree x hx).1 (hagree x hx).2

theorem covers_outside (htiles : Tiles 0 P) {a : Nat} (ha : π.covers (used P) a) :
    apaLog.Outside a := by
  obtain ⟨x, hx, hzero, hlo, -⟩ := π.inside _ _ ha
  obtain ⟨k, hk⟩ := (htiles.part (mem_used.mp hx).1).slot
  have hk0 : k ≠ 0 := by
    rintro rfl
    exact hzero hk
  simp only [RedoLog.Outside, apaLog, APA_SECTOR_APAL, APA_SECTOR_APAL_HEADERS]
  omega

theorem onDisk_of_agrees {c c' : Content} (hring : headerLinks.Ring (apaReadHeader c) (m :: L))
    (htiles : Tiles 0 (m :: L)) (hholds : π.holds (used (m :: L)) c)
    (hagree : ∀ a, ¬ Spare π (m :: L) a → apaLog.Outside a → c' a = c a) : OnDisk π c' := by
  refine ⟨m, L, ring_of_agrees hring fun x hx => ⟨?_, ?_⟩, htiles, π.stable _ _ _ hholds ?_⟩
  · exact hagree _ (fun h => (h.data x hx).1 rfl) ((htiles.part hx).outside (.inl rfl))
  · exact hagree _ (fun h => (h.data x hx).2 rfl) ((htiles.part hx).outside (.inr rfl))
  · exact fun a ha => hagree a (fun h => h.free ha) (covers_outside htiles ha)

/-- With nothing but spare sectors pending, the power leaves a table whenever it goes. -/
theorem survives_of_pending {d : WriteBack (Option Sector)} {disk : Content}
    (hring : headerLinks.Ring (apaReadHeader disk) (m :: L)) (htiles : Tiles 0 (m :: L))
    (hholds : π.holds (used (m :: L)) disk) (hidle : IdleSector (disk APA_SECTOR_APAL))
    (hdurable : ∀ a, ¬ Spare π (m :: L) a → a = APA_SECTOR_APAL ∨ apaLog.Outside a →
      d.durable a = disk a)
    (hpending : ∀ p ∈ d.pending, Spare π (m :: L) p.1 ∨ apaLog.area p.1) {c : Content}
    (hc : d.Loses c) : Survives π c := by
  have hkeep : ∀ a, ¬ Spare π (m :: L) a → a = APA_SECTOR_APAL ∨ apaLog.Outside a →
      c a = disk a := by
    intro a ha hout
    rw [← hdurable a ha hout]
    refine (hc a).resolve_right fun hmem => ?_
    rcases hpending _ hmem with h | h
    · exact ha h
    · rcases hout with rfl | hout
      · exact apaLog.index_not_area h
      · exact hout.1 h
  intro e he
  have hindex : ¬ Spare π (m :: L) APA_SECTOR_APAL := fun h => h.outside.2 rfl
  have heq := he.eq_of_idle (by rw [hkeep _ hindex (.inl rfl)]; exact hidle)
  subst heq
  exact onDisk_of_agrees hring htiles hholds fun a ha hout => hkeep a ha (.inr hout)

section Walk

variable {d : Device} {A B : List ApaHeader} {x : ApaHeader}

theorem node_of_ring (hring : headerLinks.Ring d.view (A ++ x :: B)) :
    ∃ v, d.view x.start = some v ∧ v.body = x ∧
      v.prev = headerLinks.last (headerLinks.last 0 (A ++ x :: B)) A ∧
      v.next = headerLinks.head B 0 := Linked.Chain.node hring

theorem apaCacheGetHeader_of_ring (hring : headerLinks.Ring d.view P) (htiles : Tiles 0 P) (hx : x ∈ P) :
    ∃ e, d.apaCacheGetHeader x.start = (.ok x.start, e) ∧ Device.Same Slot d e := by
  obtain ⟨v, hv, -⟩ := Linked.Chain.mem hring hx
  exact Device.apaCacheGetHeader_ok hv (htiles.part hx).slot

/-- The walk over a table needs no repair. -/
theorem apaGetNextHeader_of_ring (hring : headerLinks.Ring d.view (A ++ x :: B))
    (htiles : Tiles 0 (A ++ x :: B)) :
    ∃ e, d.apaGetNextHeader x.start = (.ok (B.head?.map (·.start)), e) ∧ Device.Same Slot d e := by
  have hpart := htiles.part (x := x) (by simp)
  obtain ⟨v, hv, hbody, -, hnext⟩ := node_of_ring hring
  have hfree := Device.same_apaCacheFree (d := d) hpart.slot
  unfold Device.apaGetNextHeader
  simp only [Device.header_of_view hv, hnext]
  cases B with
  | nil => exact ⟨_, rfl, hfree⟩
  | cons b B =>
    have hstart : v.start = x.start := ApaHeader.start_of_body hbody
    have hb0 : b.start ≠ 0 := by
      have hsplit := (tiles_append.mp htiles).2.2.2.1
      have htwo := hpart.two_le
      omega
    have hring' : headerLinks.Ring d.view ((A ++ [x]) ++ b :: B) := by simpa using hring
    obtain ⟨vb, hvb, -, hprev, -⟩ := node_of_ring hring'
    have hprev : vb.prev = x.start := by
      rw [hprev, headerLinks.last_append]
      rfl
    have hring' := Linked.Chain.congr hring fun y _ => hfree.view y.start
    obtain ⟨e, hget, hsame⟩ := apaCacheGetHeader_of_ring hring' htiles (x := b) (by simp)
    have hhead : e.header b.start = vb := by
      rw [(hfree.trans hsame).header, Device.header_of_view hvb]
    simp only [headerLinks.head_cons, headerLinks_key, hb0, if_false, hget, hhead, hstart, hprev,
      ne_eq, not_true_eq_false]
    exact ⟨e, rfl, hfree.trans hsame⟩

end Walk

namespace Steady

variable {d : Device}

theorem ring_disk (h : Steady π w d P) : headerLinks.Ring (apaReadHeader d.disk) P :=
  Linked.Chain.congr h.ring fun x hx => h.stored x hx

theorem durable_eq (h : Steady π w d P) {a : Nat} (ha : ¬ Spare π P a) :
    (w.run d.ops).durable a = d.disk a := by
  rw [← h.contents, WriteBack.contents, applyWrites_of_not_mem]
  rintro p hp rfl
  exact ha (h.pending p hp)

theorem same {e : Device} (h : Steady π w d P) (hsame : Device.Same Slot d e) :
    Steady π w e P where
  sound := hsame.sound h.sound
  clean := fun s => by rw [hsame.isDirty, h.clean]
  ring := Linked.Chain.congr h.ring fun x _ => hsame.view _
  tiles := h.tiles
  stored := fun x hx => by rw [hsame.disk, hsame.view, h.stored x hx]
  holds := by
    rw [hsame.disk]
    exact h.holds
  contents := by rw [hsame.ops, hsame.disk, h.contents]
  pending := by
    rw [hsame.ops]
    exact h.pending
  safe := by
    rw [hsame.ops]
    exact h.safe

theorem node {A B : List ApaHeader} {x : ApaHeader} (h : Steady π w d (A ++ x :: B)) :
    ∃ v, d.view x.start = some v ∧ v.body = x ∧
      v.prev = headerLinks.last (headerLinks.last 0 (A ++ x :: B)) A ∧
      v.next = headerLinks.head B 0 := node_of_ring h.ring

theorem get {x : ApaHeader} (h : Steady π w d P) (hx : x ∈ P) :
    ∃ e, d.apaCacheGetHeader x.start = (.ok x.start, e) ∧ Device.Same Slot d e :=
  apaCacheGetHeader_of_ring h.ring h.tiles hx

theorem nextHeader {A B : List ApaHeader} {x : ApaHeader} (h : Steady π w d (A ++ x :: B)) :
    ∃ e, d.apaGetNextHeader x.start = (.ok (B.head?.map (·.start)), e) ∧
      Device.Same Slot d e :=
  apaGetNextHeader_of_ring h.ring h.tiles

/-- A change of the disk in spare sectors only. -/
private theorem of_spare {e : Device} {writes : List (Nat × Option Sector)} (h : Steady π w d (m :: L))
    (hspare : ∀ p ∈ writes, Spare π (m :: L) p.1)
    (he : e = { d with
      disk := applyWrites writes d.disk
      ops := d.ops ++ writes.map fun p => .write p.1 p.2 }) : Steady π w e (m :: L) := by
  have hdisk : e.disk = applyWrites writes d.disk := by rw [he]
  have hops : e.ops = d.ops ++ writes.map fun p => .write p.1 p.2 := by rw [he]
  have hcache : e.cache = d.cache := by rw [he]
  have hkeep : ∀ a, ¬ Spare π (m :: L) a → e.disk a = d.disk a := by
    intro a ha
    rw [hdisk, applyWrites_of_not_mem]
    rintro p hp rfl
    exact ha (hspare p hp)
  have hread : ∀ x ∈ m :: L, apaReadHeader e.disk x.start = apaReadHeader d.disk x.start := by
    intro x hx
    exact apaReadHeader_congr (hkeep _ fun hs => (hs.data x hx).1 rfl)
      (hkeep _ fun hs => (hs.data x hx).2 rfl)
  have hview : ∀ x ∈ m :: L, e.view x.start = d.view x.start := by
    intro x hx
    exact Device.view_of_eq hcache (hkeep _ fun hs => (hs.data x hx).1 rfl)
      (hkeep _ fun hs => (hs.data x hx).2 rfl)
  have hrun : w.run e.ops = ⟨(w.run d.ops).durable, (w.run d.ops).pending ++ writes⟩ := by
    rw [hops, run_append, run_writes]
  refine ⟨?_, ?_, ?_, h.tiles, ?_, ?_, ?_, ?_, ?_⟩
  · exact h.sound.of_eq hcache (by rw [he]) (by rw [he])
      (hkeep APA_SECTOR_APAL fun hs => hs.outside.2 rfl)
  · intro s
    rw [Device.isDirty, hcache, ← Device.isDirty, h.clean]
  · exact Linked.Chain.congr h.ring hview
  · intro x hx
    rw [hread x hx, hview x hx, h.stored x hx]
  · refine π.stable _ _ _ h.holds fun a ha => hkeep a fun hs => hs.free ha
  · rw [hrun, WriteBack.contents, applyWrites_append, hdisk, ← h.contents]
    rfl
  · intro p hp
    rw [hrun] at hp
    rcases List.mem_append.mp hp with hp | hp
    · exact h.pending p hp
    · exact hspare p hp
  · rw [hops]
    refine always_append h.safe (always_writes fun c hc => ?_)
    have hpending : ∀ p ∈ (w.run d.ops).pending ++ writes, Spare π (m :: L) p.1 := by
      intro p hp
      rcases List.mem_append.mp hp with hp | hp
      · exact h.pending p hp
      · exact hspare p hp
    exact survives_of_pending (d := ⟨(w.run d.ops).durable, (w.run d.ops).pending ++ writes⟩)
      h.ring_disk h.tiles h.holds h.sound.idle (fun a ha _ => h.durable_eq ha)
      (fun p hp => .inl (hpending p hp)) hc

theorem ataWrite (lba : Nat) (data : List Sector) (h : Steady π w d (m :: L))
    (hspare : ∀ p ∈ writesAt lba data, Spare π (m :: L) p.1) :
    (Device.ataWrite lba data d).1 = 0 ∧ Steady π w (Device.ataWrite lba data d).2 (m :: L) ∧
      (Device.ataWrite lba data d).2.disk = applyWrites (writesAt lba data) d.disk := by
  rw [Device.ataWrite_of_good h.sound.good]
  exact ⟨rfl, h.of_spare hspare rfl, rfl⟩

/-- Sectors are copied to spare ones. -/
theorem copy {src n : Nat} (dst : Nat) {data : List Sector} (h : Steady π w d (m :: L))
    (hread : Device.ataRead src n d = some data)
    (hspare : ∀ a, dst ≤ a → a < dst + n → Spare π (m :: L) a) :
    (Device.ataWrite dst data d).1 = 0 ∧ Steady π w (Device.ataWrite dst data d).2 (m :: L) ∧
      (∀ a, a < dst ∨ dst + n ≤ a → (Device.ataWrite dst data d).2.disk a = d.disk a) ∧
      ∀ k < n, (Device.ataWrite dst data d).2.disk (dst + k) = d.disk (src + k) := by
  obtain ⟨hlen, hdata⟩ := ataRead_some hread
  obtain ⟨hok, hsteady, hdisk⟩ := h.ataWrite dst data fun p hp => by
    have := mem_writesAt hp
    exact hspare p.1 this.1 (by omega)
  refine ⟨hok, hsteady, fun a ha => ?_, fun k hk => ?_⟩
  · rw [hdisk, applyWrites_writesAt_outside (by omega)]
  · rw [hdisk, applyWrites_writesAt (by omega), hdata k hk]

end Steady

/-! ### Changed headers -/

/-- The drive `d` has the disk of `d₀` and shows the headers `v`, of which those of `D` are dirty. -/
structure Shows (d₀ : Device) (v : Nat → Option ApaHeader) (D : List Nat) (d : Device) : Prop where
  disk : d.disk = d₀.disk
  ops : d.ops = d₀.ops
  sound : d.Sound Slot
  view : ∀ s, d.view s = v s
  dirty : ∀ s, d.isDirty s = true ↔ s ∈ D

namespace Shows

variable {d₀ d e : Device} {v : Nat → Option ApaHeader} {D : List Nat} {s : Nat}

theorem congr {v' : Nat → Option ApaHeader} (h : Shows d₀ v D d) (hv : ∀ t, v' t = v t) :
    Shows d₀ v' D d := { h with view := fun t => (h.view t).trans (hv t).symm }

theorem header (h : Shows d₀ v D d) (s : Nat) : d.header s = (v s).getD default := by
  rw [Device.header, h.view]

theorem same (h : Shows d₀ v D d) (hsame : Device.Same Slot d e) : Shows d₀ v D e where
  disk := hsame.disk.trans h.disk
  ops := hsame.ops.trans h.ops
  sound := hsame.sound h.sound
  view := fun s => (hsame.view s).trans (h.view s)
  dirty := fun s => by rw [hsame.isDirty, h.dirty]

theorem free (h : Shows d₀ v D d) (hs : Slot s) : Shows d₀ v D (d.apaCacheFree s) :=
  h.same (Device.same_apaCacheFree hs)

theorem setHeader (h : Shows d₀ v D d) (hs : Slot s) (g : ApaHeader → ApaHeader) :
    Shows d₀ (fun t => if t = s then (v t).map g else v t) D (d.setHeader s g) where
  disk := by rw [Device.setHeader, Device.store_disk, h.disk]
  ops := by rw [Device.setHeader, Device.store_ops, h.ops]
  sound := h.sound.setHeader hs g
  view := fun t => by rw [Device.view_setHeader, h.view]
  dirty := fun t => by rw [Device.isDirty_setHeader, h.dirty]

theorem setDirty (h : Shows d₀ v D d) (hs : Slot s) (hsome : (v s).isSome) :
    Shows d₀ v (s :: D) (d.setDirty s) where
  disk := by rw [Device.setDirty, Device.store_disk, h.disk]
  ops := by rw [Device.setDirty, Device.store_ops, h.ops]
  sound := h.sound.setDirty hs
  view := fun t => by rw [Device.view_setDirty, h.view]
  dirty := fun t => by
    rw [Device.isDirty_setDirty (by rwa [h.view])]
    simp [h.dirty]

theorem get (h : Shows d₀ v D d) (hs : Slot s) {x : ApaHeader} (hx : v s = some x) :
    ∃ e, d.apaCacheGetHeader s = (.ok s, e) ∧ Shows d₀ v D e := by
  obtain ⟨e, he, hsame⟩ := Device.apaCacheGetHeader_ok (S := Slot) ((h.view s).trans hx) hs
  exact ⟨e, he, h.same hsame⟩

theorem makeEmpty (h : Shows d₀ v D d) (hs : Slot s) (hsome : (v s).isSome) :
    ∃ created, Shows d₀ (fun t => if t = s then
        (v t).map fun h => emptyHeader h.start h.next h.prev h.length created else v t)
      (s :: D) (d.apaMakeEmpty s) := by
  refine ⟨d.apaGetTime, (h.setHeader hs _).setDirty hs ?_⟩
  simpa using hsome

end Shows

/-- A raw write of spare sectors between the changes. -/
theorem Steady.shows_ataWrite {d e : Device} {v : Nat → Option ApaHeader} {D : List Nat} (lba : Nat)
    (data : List Sector) (h : Steady π w d (m :: L)) (hs : Shows d v D e)
    (hspare : ∀ p ∈ writesAt lba data, Spare π (m :: L) p.1) :
    ∃ d' v', Steady π w d' (m :: L) ∧ Shows d' v' D (Device.ataWrite lba data e).2 ∧
      (∀ x ∈ m :: L, v' x.start = v x.start ∧ d'.view x.start = d.view x.start) ∧
      ∀ a, a < lba ∨ lba + data.length ≤ a → d'.disk a = d.disk a := by
  have hd := Device.ataWrite_of_good h.sound.good lba data
  have he := Device.ataWrite_of_good hs.sound.good lba data
  have hkeep : ∀ c : Content, ∀ a, ¬ Spare π (m :: L) a →
      applyWrites (writesAt lba data) c a = c a := by
    intro c a ha
    refine applyWrites_of_not_mem ?_
    rintro p hp rfl
    exact ha (hspare p hp)
  have hheader : ∀ x ∈ m :: L, ¬ Spare π (m :: L) x.start ∧ ¬ Spare π (m :: L) (x.start + 1) :=
    fun x hx => ⟨fun hs => (hs.data x hx).1 rfl, fun hs => (hs.data x hx).2 rfl⟩
  refine ⟨(Device.ataWrite lba data d).2, (Device.ataWrite lba data e).2.view,
    (h.ataWrite lba data hspare).2.1, ⟨?_, ?_, ?_, fun _ => rfl, ?_⟩, fun x hx => ⟨?_, ?_⟩, fun a ha => ?_⟩
  · rw [hd, he, hs.disk]
  · rw [hd, he, hs.ops]
  · rw [he]
    exact hs.sound.of_eq rfl rfl rfl (hkeep e.disk _ fun hs => hs.outside.2 rfl)
  · intro s
    rw [he]
    exact hs.dirty s
  · rw [← hs.view, he]
    exact Device.view_of_eq rfl (hkeep e.disk _ (hheader x hx).1) (hkeep e.disk _ (hheader x hx).2)
  · rw [hd]
    exact Device.view_of_eq rfl (hkeep d.disk _ (hheader x hx).1) (hkeep d.disk _ (hheader x hx).2)
  · rw [hd]
    exact applyWrites_writesAt_outside ha

theorem Steady.shows {d e : Device} (h : Steady π w d P) (hsame : Device.Same Slot d e) :
    Shows d d.view [] e where
  disk := hsame.disk
  ops := hsame.ops
  sound := hsame.sound h.sound
  view := hsame.view
  dirty := fun s => by simp [hsame.isDirty, h.clean]

/-! ### The flush of a new table -/

theorem ring_sealed {v : Nat → Option ApaHeader} {D : List Nat} (h : headerLinks.Ring v P) :
    headerLinks.Ring (fun s => if s ∈ D then (v s).map ApaHeader.sealed else v s) P := by
  have hmap := h.map (W := fun s => if s ∈ D then (v s).map ApaHeader.sealed else v s) (f := id)
    (fun _ => rfl) fun x _ y hy => ?_
  · rwa [List.map_id] at hmap
  · by_cases hD : headerLinks.key x ∈ D
    · refine ⟨y.sealed, by simp only [hD, if_true, hy, Option.map_some], ?_, ?_, ?_⟩
      · exact y.sealed_body
      · exact y.sealed_prev
      · exact y.sealed_next
    · exact ⟨y, by simp only [hD, if_false, hy], rfl, rfl, rfl⟩

theorem accepted_sealed {x h : ApaHeader} (hx : Part x) (hbody : h.body = x) :
    h.sealed.accepted x.start = true := by
  have hmagic : h.magic = APA_MAGIC := by
    rw [← hx.magic, ← hbody]
    rfl
  have hmbr : h.sealed.hasMBRMagic = x.hasMBRMagic := by
    rw [← hbody, ApaHeader.hasMBRMagic, h.sealed_mbr]
    rfl
  unfold ApaHeader.accepted
  rw [apaCheckSum_sealed, hmbr, h.sealed_magic, hmagic, h.sealed_checksum]
  by_cases hzero : x.start = APA_SECTOR_MBR
  · simp [(hx.mbr hzero).1]
  · simp [hzero]

namespace Steady

variable {d₀ d : Device} {v : Nat → Option ApaHeader} {D : List Nat} {m' : ApaHeader}
  {L' : List ApaHeader}

/-- The flush of changed headers that spell a table again. -/
theorem flush (h : Steady π w d₀ (m :: L)) (hs : Shows d₀ v D d)
    (hring : headerLinks.Ring v (m' :: L')) (htiles : Tiles 0 (m' :: L'))
    (hholds : π.holds (used (m' :: L')) d₀.disk) (hfew : D.length ≤ 126)
    (hlive : ∀ s ∈ D, ∃ x ∈ m' :: L', x.start = s)
    (hkeep : ∀ x ∈ m' :: L', x.start ∉ D →
      v x.start = d₀.view x.start ∧ ∃ y ∈ m :: L, y.start = x.start) :
    d.apaCacheFlushAllDirty.1 = 0 ∧ Steady π w d.apaCacheFlushAllDirty.2 (m' :: L') ∧
      (∀ s, Slot s → d.apaCacheFlushAllDirty.2.view s =
        if s ∈ D then (v s).map ApaHeader.sealed else v s) ∧
      ∀ a, apaLog.Outside a → (∀ s ∈ D, a ≠ s ∧ a ≠ s + 1) →
        d.apaCacheFlushAllDirty.2.disk a = d₀.disk a := by
  have hflushable := hs.sound.flushable places_slot (fun s => (hs.dirty s).mp) hfew
  have hflushed := hflushable.flushed places_slot hs.sound
  set e := d.apaCacheFlushAllDirty.2 with he
  have hview : ∀ s, Slot s → e.view s = if s ∈ D then (v s).map ApaHeader.sealed else v s := by
    intro s hslot
    rw [hflushed.view s hslot, hs.view]
    simp only [hs.dirty]
  have hframe : ∀ a, apaLog.Outside a → (∀ s ∈ D, a ≠ s ∧ a ≠ s + 1) → e.disk a = d₀.disk a := by
    intro a ha hnot
    rw [hflushed.frame a ha fun s hdirty => hnot s ((hs.dirty s).mp hdirty), hs.disk]
  have hring' : headerLinks.Ring e.view (m' :: L') :=
    (ring_sealed (D := D) hring).congr fun x hx => hview _ (htiles.part hx).slot
  have hstored : ∀ x ∈ m' :: L', apaReadHeader e.disk x.start = e.view x.start := by
    intro x hx
    obtain ⟨y, hy, hbody⟩ := hring.mem hx
    simp only [headerLinks_key, headerLinks_body] at hy hbody
    rw [hview _ (htiles.part hx).slot]
    by_cases hD : x.start ∈ D
    · have hheld := hflushed.held x.start y ((hs.dirty _).mpr hD) ((hs.view _).trans hy)
      rw [if_pos hD, hy, Option.map_some]
      exact apaReadHeader_of_sectors hheld.1 hheld.2 (accepted_sealed (htiles.part hx) hbody)
    · obtain ⟨hsame, z, hz, hzx⟩ := hkeep x hx hD
      rw [if_neg hD, hsame, ← hzx, ← h.stored z hz]
      have hapart : ∀ a, a = z.start ∨ a = z.start + 1 → e.disk a = d₀.disk a := by
        intro a ha
        refine hframe a ((h.tiles.part hz).outside ha) fun s hsD => ?_
        obtain ⟨x', hx', rfl⟩ := hlive s hsD
        have hne : z.start ≠ x'.start := by
          rintro heq
          exact hD (hzx ▸ heq ▸ hsD)
        have hlt := places_slot.apart _ _ (h.tiles.part hz).slot (htiles.part hx').slot
        have hgt := places_slot.apart _ _ (htiles.part hx').slot (h.tiles.part hz).slot
        omega
      exact apaReadHeader_congr (hapart _ (.inl rfl)) (hapart _ (.inr rfl))
  have hcovers : ∀ a, π.covers (used (m' :: L')) a → e.disk a = d₀.disk a := by
    intro a ha
    obtain ⟨x, hx, hzero, hlo, hhi⟩ := π.inside _ _ ha
    have hxP := (mem_used.mp hx).1
    refine hframe a (covers_outside htiles ha) fun s hsD => ?_
    obtain ⟨y, hy, rfl⟩ := hlive s hsD
    exact htiles.not_header hxP hy hlo hhi
  have hholds' : π.holds (used (m' :: L')) e.disk := π.stable _ _ _ hholds hcovers
  have hringDisk : headerLinks.Ring (apaReadHeader e.disk) (m' :: L') := hring'.congr hstored
  have hops : e.ops = d₀.ops ++ hflushable.transaction.commit := by
    rw [he, hflushable.issued_eq, hs.ops]
  have hbase : (w.run d₀.ops).contents = d.disk := h.contents.trans hs.disk.symm
  have hdisk : e.disk = (w.run e.ops).contents := by
    rw [hops, run_append, RedoLog.Transaction.commit_run, hbase, he,
      apaCacheFlushAllDirty_eq hflushable.keyed hflushable.good hflushable.num]
    rfl
  refine ⟨by rw [apaCacheFlushAllDirty_eq hflushable.keyed hflushable.good hflushable.num],
    ⟨hflushed.sound, hflushed.clean, hring', htiles, hstored, hholds', hdisk.symm, ?_, ?_⟩,
    hview, hframe⟩
  · rw [hops, run_append, RedoLog.Transaction.commit_run]
    exact fun p hp => absurd hp List.not_mem_nil
  · rw [hops]
    refine always_append h.safe ((hflushable.transaction.commit_always _).mono ?_)
    have hdone : ∀ c, (∀ a, apaLog.Outside a → c a = hflushable.transaction.result d.disk a) →
        OnDisk π c := by
      intro c hc
      refine onDisk_of_agrees hringDisk htiles hholds' fun a _ ha => ?_
      rw [hc a ha, hflushable.settled.2 a ha]
    rintro c (hmix | hlogged | hsettled)
    · refine survives_of_pending
        (d := ⟨(w.run d₀.ops).durable, (w.run d₀.ops).pending ++ hflushable.transaction.copies⟩)
        h.ring_disk h.tiles h.holds h.sound.idle (fun a ha _ => h.durable_eq ha)
        (fun p hp => ?_) hmix
      rcases List.mem_append.mp hp with hp | hp
      · exact .inl (h.pending p hp)
      · exact .inr (hflushable.transaction.copies_area p hp)
    · rw [hbase] at hlogged
      exact fun f hf => hdone f fun a ha => hflushable.outside_of_restored hlogged hf ha
    · rw [hbase] at hsettled
      intro f hf
      rw [hf.eq_of_idle hsettled.1]
      exact hdone c hsettled.2

end Steady

end HddChecker.Apa
