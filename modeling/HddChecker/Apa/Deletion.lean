import HddChecker.Apa.Format
import HddChecker.Apa.Refs

/-!
# What a deletion leaves behind

The table after `apaDelete` is whole and names the other partitions as before, and the reference the caller gave away is the only one that is gone. How far empty partitions are joined depends on where the buddies of the deleted one lie: `apaDelete` looks to the left, to the right, and once more to the left and to the right.
-/

namespace HddChecker.Apa

open HddChecker Prog

namespace Device

variable {d e : Device} {ρ : Nat → Nat} {L : List Nat} {clink : Nat}

/-! ### References -/

/-- A function that answers with a buffer holds a reference to it, and none where it answers with an error. -/
def Handed {α : Type} (ρ : Nat → Nat) (L : List Nat) (buffer : α → Nat) (r : Except Int α)
    (e : Device) : Prop :=
  match r with
  | .ok x => Holding e ρ (buffer x :: L)
  | .error _ => Holding e ρ L

private theorem fixPrevLoop_holding {length : Nat} (h : Holding d ρ (clink :: L)) :
    wlp (fixPrevLoop clink length) d (Handed ρ L Prod.fst) := by
  refine wlp_loop (fun y e => Holding e ρ (y.1 :: L)) ?_ h
  rintro ⟨clink, length⟩ e h
  dsimp only at h ⊢
  rw [wlp_read_bind]
  split
  · exact wlp_pure h
  · rw [wlp_ofState_bind]
    rcases h.get (s := (e.header clink).prev) with ⟨e', hget, h'⟩ | ⟨err, e', hget, h'⟩
    · rw [hget]
      simp only [wlp_read_bind]
      split
      · rw [wlp_modify_bind]
        exact wlp_pure h'.free
      · rw [wlp_modify_bind]
        exact wlp_pure (h'.perm (.swap ..)).free
    · rw [hget]
      simp only [wlp_modify_bind]
      exact wlp_pure h'.free

private theorem fixNextLoop_holding {start lnext length : Nat} (h : Holding d ρ (clink :: L)) :
    wlp (fixNextLoop clink start lnext length) d fun r e => Handed ρ L (fun _ => clink) r e := by
  refine wlp_loop (fun _ e => Holding e ρ (clink :: L)) ?_ h
  rintro ⟨lnext, length⟩ e h
  dsimp only
  split
  · exact wlp_pure h
  · rw [wlp_ofState_bind]
    rcases h.get (s := lnext) with ⟨e', hget, h'⟩ | ⟨err, e', hget, h'⟩
    · rw [hget]
      simp only [wlp_read_bind, wlp_modify_bind]
      split
      · exact wlp_pure h'.free
      · exact wlp_pure h'.free
    · rw [hget]
      simp only [wlp_modify_bind]
      exact wlp_pure h'.free

private theorem apaDeleteFixPrev_holding (h : Holding d ρ (clink :: L)) :
    wlp (apaDeleteFixPrev clink) d (Handed ρ L id) := by
  unfold apaDeleteFixPrev
  rw [wlp_read_bind]
  refine wlp_bind ((fixPrevLoop_holding h).mono ?_)
  rintro (err | ⟨clink', length⟩) e h'
  · exact wlp_pure h'
  · dsimp only
    split
    · rw [wlp_ofState_bind]
      rcases Holding.get (s := (d.header clink).next) h' with ⟨e', hget, h''⟩ | ⟨err, e', hget, h''⟩
      · rw [hget]
        simp only [wlp_modify_bind, wlp_read_bind, wlp_ofState_bind]
        refine wlp_pure (Holding.free (h''.of_refs fun t => ?_))
        simp
      · rw [hget]
        simp only [wlp_modify_bind]
        exact wlp_pure h''.free
    · exact wlp_pure h'

private theorem apaDeleteFixNext_holding (h : Holding d ρ (clink :: L)) :
    wlp (apaDeleteFixNext clink) d (Handed ρ L id) := by
  unfold apaDeleteFixNext
  rw [wlp_read_bind]
  refine wlp_bind ((fixNextLoop_holding h).mono ?_)
  rintro (err | ⟨lnext, length⟩) e h'
  · exact wlp_pure h'
  · dsimp only
    split
    · rw [wlp_ofState_bind]
      rcases Holding.get (s := lnext) h' with ⟨e', hget, h''⟩ | ⟨err, e', hget, h''⟩
      · rw [hget]
        simp only [wlp_modify_bind, wlp_read_bind, wlp_ofState_bind]
        refine wlp_pure (Holding.free (h''.of_refs fun t => ?_))
        simp
      · rw [hget]
        simp only [wlp_modify_bind]
        exact wlp_pure h''.free
    · exact wlp_pure h'

private theorem fixBoth_holding (i : Nat) (h : Holding d ρ (clink :: L)) :
    wlp (fixBoth i clink) d fun r e => Holding e ρ (r.toList ++ L) := by
  induction i generalizing d clink with
  | zero => exact wlp_pure h
  | succ i ih =>
    rw [fixBoth]
    refine wlp_bind ((apaDeleteFixPrev_holding h).mono ?_)
    rintro (err | clink') e h'
    · exact wlp_pure h'
    · refine wlp_bind ((apaDeleteFixNext_holding h').mono ?_)
      rintro (err | clink'') e' h''
      · exact wlp_pure h''
      · exact ih h''

private theorem cutLoop_holding {mbr : Nat} (h : Holding d ρ (clink :: L)) :
    wlp (cutLoop clink mbr) d fun r e => Holding e ρ (r.toList ++ L) := by
  refine wlp_loop (fun clink e => Holding e ρ (clink :: L)) (fun clink e h => ?_) h
  rw [wlp_modify_bind, wlp_read_bind, wlp_ofState_bind]
  rcases h.free.get (s := ((apaCacheFree clink e).header clink).prev) with
    ⟨e', hget, h'⟩ | ⟨err, e', hget, h'⟩
  · rw [hget]
    simp only [wlp_modify_bind, wlp_read_bind, wlp_ofState_bind]
    split
    · exact wlp_pure (h'.of_refs fun t => by simp)
    · exact wlp_pure (h'.of_refs fun t => by simp)
  · rw [hget]
    exact wlp_pure h'

variable {π : Promise} {w : WriteBack (Option Sector)} {m x : ApaHeader} {A B : List ApaHeader}

/-- `apaDelete` gives the reference of its argument back, and every other one it takes. -/
private theorem apaDelete_holding (h : Steady π w d (m :: (A ++ x :: B)))
    (hdrop : π.holds (used (m :: A)) d.disk ∨ B ≠ []) (hheld : Holding d ρ [x.start]) :
    wlp (apaDelete x.start) d fun _ e => Holding e ρ [] := by
  obtain ⟨vx, hvx, hxbody, -, hxnext⟩ := (show Steady π w d ((m :: A) ++ x :: B) from h).node
  obtain ⟨vm, hvm, -⟩ := (show Steady π w d ([] ++ m :: (A ++ x :: B)) from h).node
  have hxstart : vx.start = x.start := ApaHeader.start_of_body hxbody
  have hx0 : x.start ≠ 0 := h.tiles.keys.ne_zero (y := x) (by simp)
  rw [h.tiles.1] at hvm
  unfold apaDelete
  rw [wlp_read_bind, header_of_view hvx, if_neg (by rwa [hxstart]), hxnext]
  cases B with
  | nil =>
    rw [headerLinks.head_nil, if_pos rfl, wlp_ofState_bind]
    obtain ⟨e, hget, hsame⟩ := apaCacheGetHeader_ok (S := Slot) hvm ⟨0, rfl⟩
    have hheld' : Holding e ρ [0, x.start] := by
      rcases hheld.get (s := 0) with ⟨e', hget', h'⟩ | ⟨err, e', hget', -⟩
      · rw [hget] at hget'
        obtain ⟨-, rfl⟩ := Prod.mk.inj hget'
        exact h'
      · rw [hget] at hget'
        cases (Prod.mk.inj hget').1
    rw [hget]
    have hspec := cutLoop_spec (h.same hsame) (by
      rw [hsame.disk]
      simpa using hdrop)
    refine wlp_bind fun r e' hrun => ?_
    obtain ⟨A', F, u, -, -, rfl, -⟩ := hspec.wlp r e' hrun
    have hend := cutLoop_holding (hheld'.perm (.swap ..)) _ e' hrun
    simp only [wlp_modify_bind]
    exact wlp_pure (hend.perm (.swap ..)).free.free
  | cons b B =>
    have hb0 : b.start ≠ 0 := h.tiles.keys.ne_zero (y := b) (by simp)
    rw [headerLinks.head_cons, headerLinks_key, if_neg hb0]
    refine wlp_bind ((fixBoth_holding 2 hheld).mono ?_)
    rintro (_ | clink) e h'
    · exact wlp_pure h'
    · rw [wlp_read_bind]
      have hfree : ∀ e', Holding e' ρ [clink] →
          wlp (modify (apaCacheFree clink) >>= fun _ => (pure 0 : Prog Device Int)) e'
            fun _ e => Holding e ρ [] := fun e' he => wlp_pure he.free
      split
      · have hheld' : Holding (apaMakeEmpty clink e).apaCacheFlushAllDirty.2 ρ [clink] :=
          Holding.of_refs h' fun t => by rw [refs_apaCacheFlushAllDirty, refs_apaMakeEmpty]
        exact hfree _ hheld'
      · exact hfree _ h'

end Device

/-! ### The table -/

open Device

/-- Nothing is promised of the partitions. -/
def noPromise : Promise where
  holds := fun _ _ => True
  covers := fun _ _ => False
  inside := fun _ _ h => h.elim
  stable := fun _ _ _ h _ => h

/-- The drive holds the table `L` behind the MBR `m`: that of `A`, `x` and `B` without `x`, whole and with its last partition in use, in the cache and on the disk. -/
structure Without (e : Device) (m : ApaHeader) (A : List ApaHeader) (x : ApaHeader)
    (B L : List ApaHeader) : Prop where
  ring : headerLinks.Ring (apaReadHeader e.disk) (m :: L)
  stored : ∀ y ∈ m :: L, e.view y.start = apaReadHeader e.disk y.start
  tiles : Tiles 0 (m :: L)
  lastUsed : LastUsed (m :: L)
  used : used L = used A ++ used B
  gone : (∃ y ∈ L, y.isFree = true ∧ y.start ≤ x.start ∧ x.start + x.length ≤ y.start + y.length) ∨
    total (m :: L) ≤ x.start

variable {d : Device} {m x : ApaHeader} {A B L : List ApaHeader} {ρ : Nat → Nat}

/-- Where the deleted sectors are. -/
theorem Device.Deleted.gone (h : Deleted m A x B L) (htiles : Tiles 0 (m :: (A ++ x :: B)))
    (htiles' : Tiles 0 (m :: L)) :
    (∃ y ∈ L, y.isFree = true ∧ y.start ≤ x.start ∧ x.start + x.length ≤ y.start + y.length) ∨
      total (m :: L) ≤ x.start := by
  rw [← List.cons_append, tiles_append] at htiles
  have hx := htiles.2.1
  cases h with
  | @merged A' F G B' y hbefore hbehind hempty hfree hlength hmore =>
    subst hbefore hbehind
    rw [← List.cons_append, tiles_append] at htiles'
    have hy := htiles'.2.1
    refine .inl ⟨y, by simp, hfree, ?_⟩
    simp only [total_cons, total_append] at hx hy hlength
    omega
  | @cut _ F hend hbefore hempty hlast =>
    subst hbefore
    simp only [total_cons, total_append] at hx ⊢
    omega

/-- A deletion leaves a whole table without the partition and without a reference of its own. -/
theorem apaDelete_without (hidle : d.Idle (m :: (A ++ x :: B)))
    (hring : headerLinks.Ring (apaReadHeader d.disk) (m :: (A ++ x :: B)))
    (htiles : Tiles 0 (m :: (A ++ x :: B))) (hlast : LastUsed (m :: (A ++ x :: B)))
    (hheld : d.Holding ρ [x.start]) :
    wp (Device.apaDelete x.start) d fun r e => r = 0 ∧ e.Holding ρ [] ∧
      ∃ L, Without e m A x B L := by
  have hsteady : Steady noPromise ⟨d.disk, []⟩ d (m :: (A ++ x :: B)) :=
    hidle.steady (by simp) hring htiles trivial
  have hrefs := Device.apaDelete_holding hsteady (.inl trivial) hheld
  refine ((Device.apaDelete_spec hsteady hlast.used_ne_nil trivial).and_wlp hrefs).mono ?_
  rintro r e ⟨⟨hr, L, hdeleted, hafter⟩, hholding⟩
  exact ⟨hr, hholding, L, hafter.ring_disk, fun y hy => (hafter.stored y hy).symm, hafter.tiles,
    hdeleted.lastUsed hlast, hdeleted.used_eq, hdeleted.gone htiles hafter.tiles⟩

/-! ### Buddies that are left -/

/-- The disk holds a whole table behind the MBR `m` in which nothing can be joined. -/
def CoalescedOn (c : Content) (m : ApaHeader) : Prop :=
  ∃ L, headerLinks.Ring (apaReadHeader c) (m :: L) ∧ Tiles 0 (m :: L) ∧ Coalesced (m :: L)

private theorem coalescedOn_iff {c : Content} (hring : headerLinks.Ring (apaReadHeader c) (m :: L))
    (htiles : Tiles 0 (m :: L)) : CoalescedOn c m ↔ Coalesced (m :: L) := by
  refine ⟨?_, fun h => ⟨L, hring, htiles, h⟩⟩
  rintro ⟨L', hring', htiles', hcoalesced⟩
  obtain ⟨⟨v, hv, -, -, hnext⟩, hchain⟩ := hring
  obtain ⟨⟨v', hv', -, -, hnext'⟩, hchain'⟩ := hring'
  obtain rfl := Option.some.inj (hv.symm.trans hv')
  rwa [hchain.unique hchain' (fun x hx => htiles.keys.ne_zero hx)
    (fun x hx => htiles'.keys.ne_zero hx) (hnext.symm.trans hnext')]

theorem apaDelete_coalescedOn (hidle : d.Idle (m :: (A ++ x :: B)))
    (hring : headerLinks.Ring (apaReadHeader d.disk) (m :: (A ++ x :: B)))
    (htiles : Tiles 0 (m :: (A ++ x :: B))) (hlast : LastUsed (m :: (A ++ x :: B)))
    (hcoalesced : Coalesced (m :: (A ++ x :: B))) (hB : B ≠ []) :
    wp (Device.apaDelete x.start) d fun _ e =>
      CoalescedOn e.disk m ↔ skipBoth 2 (buddySides A.reverse x.start x.length B) = [] := by
  have hsteady : Steady noPromise ⟨d.disk, []⟩ d (m :: (A ++ x :: B)) :=
    hidle.steady (by simp) hring htiles trivial
  refine (Device.apaDelete_grown hsteady hlast.used_ne_nil trivial).mono ?_
  rintro r e ⟨-, L, -, hafter, hgrown⟩
  obtain ⟨A', y, B', rfl, ⟨F, rfl⟩, ⟨G, rfl⟩, hfree, hsides⟩ := hgrown hB
  have hm : m.isFree = false := ((htiles.part List.mem_cons_self).mbr htiles.1).2.1
  have hA' : Coalesced (m :: A') := by
    rw [Coalesced, List.append_assoc, ← List.cons_append] at hcoalesced
    exact hcoalesced.left_of_append
  have hB' : Coalesced B' := List.IsChain.suffix hcoalesced
    ⟨m :: (A' ++ F ++ x :: G), by simp⟩
  rw [coalescedOn_iff hafter.ring_disk hafter.tiles, coalesced_append hfree hm hA' hB', hsides]

/-- A deletion joins all that can be joined if and only if, from the smallest block on, the empty buddies lie to the left, then to the right, then to the left, then to the right, and on no side after that. -/
theorem apaDelete_coalesces (hidle : d.Idle (m :: (A ++ x :: B)))
    (hring : headerLinks.Ring (apaReadHeader d.disk) (m :: (A ++ x :: B)))
    (htiles : Tiles 0 (m :: (A ++ x :: B))) (hlast : LastUsed (m :: (A ++ x :: B)))
    (hcoalesced : Coalesced (m :: (A ++ x :: B))) (hB : B ≠ []) :
    wp (Device.apaDelete x.start) d (fun _ e => CoalescedOn e.disk m) ↔
      skipBoth 2 (buddySides A.reverse x.start x.length B) = [] := by
  have hiff := apaDelete_coalescedOn hidle hring htiles hlast hcoalesced hB
  constructor
  · intro h
    obtain ⟨r, e, hrun, hend⟩ := h
    exact (hiff.wlp r e hrun).mp hend
  · exact fun hnil => hiff.mono fun r e hend => hend.mpr hnil

/-! ### Small drives -/

/-- A drive just started with the table `P`, and the header at `s` fetched. -/
def fetched (P : List ApaHeader) (s : Nat) : Device :=
  (apaCacheGetHeader s (Device.boot (tableDisk P))).2

variable {P : List ApaHeader}

theorem fetched_same (htiles : Tiles 0 P) (hbody : ∀ y ∈ P, y.body = y) (hx : x ∈ P) :
    apaCacheGetHeader x.start (Device.boot (tableDisk P)) = (.ok x.start, fetched P x.start) ∧
      Same Slot (Device.boot (tableDisk P)) (fetched P x.start) := by
  obtain ⟨v, hv, -⟩ := Linked.Chain.mem (ring_tableDisk htiles hbody) hx
  obtain ⟨e, hget, hsame⟩ := apaCacheGetHeader_ok (S := Slot) (d := Device.boot (tableDisk P)) hv
    (htiles.part hx).slot
  have heq : fetched P x.start = e := congrArg Prod.snd hget
  rw [heq]
  exact ⟨hget, hsame⟩

theorem fetched_idle (htiles : Tiles 0 P) (hbody : ∀ y ∈ P, y.body = y) (hx : x ∈ P) :
    (fetched P x.start).Idle P := by
  have hsame := (fetched_same htiles hbody hx).2
  have hboot : (Device.boot (tableDisk P)).Idle P := Device.idle_boot tableDisk_idle fun _ _ => 0
  refine ⟨hsame.sound hboot.sound, fun s => ?_, fun y hy => ?_, ?_⟩
  · rw [hsame.isDirty, hboot.clean]
  · rw [hsame.disk, hsame.view, hboot.stored y hy]
  · rw [hsame.ops, hboot.ops]

theorem fetched_ring (htiles : Tiles 0 P) (hbody : ∀ y ∈ P, y.body = y) (hx : x ∈ P) :
    headerLinks.Ring (apaReadHeader (fetched P x.start).disk) P := by
  rw [(fetched_same htiles hbody hx).2.disk]
  exact ring_tableDisk htiles hbody

private theorem fetched_holding (htiles : Tiles 0 P) (hbody : ∀ y ∈ P, y.body = y) (hx : x ∈ P) :
    (fetched P x.start).Holding (fun _ => 0) [x.start] := by
  have hget := (fetched_same htiles hbody hx).1
  have hboot : (Device.boot (tableDisk P)).Holding (fun _ => 0) [] := fun _ => rfl
  rcases hboot.get (s := x.start) with ⟨e, hget', h⟩ | ⟨err, e, hget', -⟩
  · obtain ⟨-, rfl⟩ := Prod.mk.inj (hget.symm.trans hget')
    exact h
  · cases (Prod.mk.inj (hget.symm.trans hget')).1

def twoParts : List ApaHeader :=
  [mbrHeader, plainHeader 0x40000 0x40000 0x0100, plainHeader 0x80000 0x40000 0x0100]

theorem twoParts_tiles : Tiles 0 twoParts :=
  ⟨rfl, part_mbr, rfl, part_plain ⟨⟨18, rfl⟩, by decide⟩ (by decide) (by decide) (by decide), rfl,
    part_plain ⟨⟨18, rfl⟩, by decide⟩ (by decide) (by decide) (by decide), trivial⟩

theorem twoParts_body : ∀ y ∈ twoParts, y.body = y := by decide

theorem lastUsed_concat {I : List ApaHeader} (h : x.isFree = false) : LastUsed (I ++ [x]) := by
  intro J y heq
  obtain ⟨-, hy⟩ := List.append_inj' heq rfl
  rwa [← (List.cons.inj hy).1]

theorem twoParts_lastUsed : LastUsed twoParts :=
  lastUsed_concat (I := [mbrHeader, plainHeader 0x40000 0x40000 0x0100]) (by decide)

theorem apaDelete_without_twoParts :
    wp (Device.apaDelete 0x40000) (fetched twoParts 0x40000) fun r e =>
      r = 0 ∧ e.Holding (fun _ => 0) [] ∧ ∃ L, Without e mbrHeader []
        (plainHeader 0x40000 0x40000 0x0100) [plainHeader 0x80000 0x40000 0x0100] L :=
  have hx : plainHeader 0x40000 0x40000 0x0100 ∈ twoParts := by decide
  apaDelete_without (A := []) (x := plainHeader 0x40000 0x40000 0x0100)
    (fetched_idle twoParts_tiles twoParts_body hx) (fetched_ring twoParts_tiles twoParts_body hx)
    twoParts_tiles twoParts_lastUsed (fetched_holding twoParts_tiles twoParts_body hx)

instance (P : List ApaHeader) : Decidable (Coalesced P) :=
  inferInstanceAs (Decidable (P.IsChain fun a b =>
    ¬ (a.isFree = true ∧ b.isFree = true ∧ a.length = b.length ∧ a.start % (2 * b.length) = 0)))

theorem apaDelete_coalesces_twoParts :
    wp (Device.apaDelete 0x40000) (fetched twoParts 0x40000)
        (fun _ e => CoalescedOn e.disk mbrHeader) ↔
      skipBoth 2 (buddySides [] 0x40000 0x40000 [plainHeader 0x80000 0x40000 0x0100]) = [] :=
  have hx : plainHeader 0x40000 0x40000 0x0100 ∈ twoParts := by decide
  apaDelete_coalesces (A := []) (x := plainHeader 0x40000 0x40000 0x0100)
    (fetched_idle twoParts_tiles twoParts_body hx) (fetched_ring twoParts_tiles twoParts_body hx)
    twoParts_tiles twoParts_lastUsed (by decide) (by simp)

/-- The partitions before one whose buddies lie to the right, to the left, to the right and to the left. -/
def turnsBefore : List ApaHeader :=
  [plainHeader 0x40000 0x40000 0x0100, plainHeader 0x80000 0x80000 0x0100,
    plainHeader 0x100000 0x100000 0x0100, plainHeader 0x200000 0x200000 0x0100,
    plainHeader 0x400000 0x200000 APA_TYPE_FREE, plainHeader 0x600000 0x80000 APA_TYPE_FREE]

def turnsBehind : List ApaHeader :=
  [plainHeader 0x6c0000 0x40000 APA_TYPE_FREE, plainHeader 0x700000 0x100000 APA_TYPE_FREE,
    plainHeader 0x800000 0x40000 0x0100]

/-- A table in which the buddies of the partition at 0x680000 change sides three times. -/
def turns : List ApaHeader :=
  mbrHeader :: (turnsBefore ++ plainHeader 0x680000 0x40000 0x0100 :: turnsBehind)

private theorem turns_sides : buddySides turnsBefore.reverse 0x680000 0x40000 turnsBehind =
    [.right, .left, .right, .left] := by
  rw [buddySides_right (by decide) (by decide), buddySides_left (by decide),
    buddySides_right (by decide) (by decide), buddySides_left (by decide),
    buddySides_nil (by decide) (by decide)]

theorem turns_tiles : Tiles 0 turns :=
  ⟨rfl, part_mbr, rfl, part_plain ⟨⟨18, rfl⟩, by decide⟩ (by decide) (by decide) (by decide), rfl,
    part_plain ⟨⟨19, rfl⟩, by decide⟩ (by decide) (by decide) (by decide), rfl,
    part_plain ⟨⟨20, rfl⟩, by decide⟩ (by decide) (by decide) (by decide), rfl,
    part_plain ⟨⟨21, rfl⟩, by decide⟩ (by decide) (by decide) (by decide), rfl,
    part_plain ⟨⟨21, rfl⟩, by decide⟩ (by decide) (by decide) (by decide), rfl,
    part_plain ⟨⟨19, rfl⟩, by decide⟩ (by decide) (by decide) (by decide), rfl,
    part_plain ⟨⟨18, rfl⟩, by decide⟩ (by decide) (by decide) (by decide), rfl,
    part_plain ⟨⟨18, rfl⟩, by decide⟩ (by decide) (by decide) (by decide), rfl,
    part_plain ⟨⟨20, rfl⟩, by decide⟩ (by decide) (by decide) (by decide), rfl,
    part_plain ⟨⟨18, rfl⟩, by decide⟩ (by decide) (by decide) (by decide), trivial⟩

theorem turns_body : ∀ y ∈ turns, y.body = y := by decide

theorem turns_lastUsed : LastUsed turns :=
  lastUsed_concat (I := mbrHeader :: (turnsBefore ++ [plainHeader 0x680000 0x40000 0x0100,
    plainHeader 0x6c0000 0x40000 APA_TYPE_FREE, plainHeader 0x700000 0x100000 APA_TYPE_FREE]))
    (by decide)

/-- Nothing can be joined in the table, and after the deletion two empty partitions of one size can be. -/
theorem apaDelete_leaves_buddies :
    Coalesced turns ∧ LastUsed turns ∧ (fetched turns 0x680000).Idle turns ∧
      headerLinks.Ring (apaReadHeader (fetched turns 0x680000).disk) turns ∧ Tiles 0 turns ∧
      ¬ wp (Device.apaDelete 0x680000) (fetched turns 0x680000)
        fun _ e => CoalescedOn e.disk mbrHeader := by
  have hx : plainHeader 0x680000 0x40000 0x0100 ∈ turns := by decide
  have hidle := fetched_idle turns_tiles turns_body hx
  have hring := fetched_ring turns_tiles turns_body hx
  have hcoalesced : Coalesced turns := by decide
  refine ⟨hcoalesced, turns_lastUsed, hidle, hring, turns_tiles, fun hwp => ?_⟩
  have hiff := apaDelete_coalescedOn hidle hring turns_tiles turns_lastUsed hcoalesced (by decide)
  obtain ⟨r, e, hrun, hend⟩ := hwp
  have hnil := (hiff.wlp r e hrun).mp hend
  have hsides := turns_sides
  rw [show buddySides turnsBefore.reverse (plainHeader 0x680000 0x40000 0x0100).start
    (plainHeader 0x680000 0x40000 0x0100).length turnsBehind = _ from hsides] at hnil
  cases hnil

end HddChecker.Apa
