import HddChecker.Apa.Deletion
import HddChecker.Apa.Truthful
import HddChecker.Hdck.Links

/-!
# Joining the empty partitions of a drive

`DeleteFreePartitions` goes over the table once and joins each empty partition with those before it. The table stays whole as long as the last partition is not joined: a run that ends the table gets the sector behind it as its next header, unless that is sector 2^32, which reads as 0.
-/

namespace HddChecker.Hdck

open HddChecker Apa Prog Device WriteBack

variable {π : Promise} {w : WriteBack (Option Sector)} {d e : Device} {m x : ApaHeader}
  {D R L : List ApaHeader}

/-- The sector is in an empty partition of the table. -/
def FreeAt (P : List ApaHeader) (a : Nat) : Prop :=
  ∃ x ∈ P, x.isFree = true ∧ x.start ≤ a ∧ a < x.start + x.length

/-- The drive holds the table `L'` behind the MBR `m`, in the cache and on the disk: that of `L` with the same used partitions and the same empty sectors. -/
structure Joined (e : Device) (m : ApaHeader) (L L' : List ApaHeader) : Prop where
  ring : headerLinks.Ring (apaReadHeader e.disk) (m :: L')
  stored : ∀ y ∈ m :: L', e.view y.start = apaReadHeader e.disk y.start
  tiles : Tiles 0 (m :: L')
  used : used L' = used L
  free : ∀ a, FreeAt (m :: L') a ↔ FreeAt (m :: L) a

/-- The last partition of the table is empty and joins the one before it when the others are joined. -/
def EndJoins (m : ApaHeader) (L : List ApaHeader) : Prop :=
  ∃ I x, L = I ++ [x] ∧ x.isFree = true ∧ FreeBefore (m :: I) x

/-! ### The sectors of a table -/

private theorem exists_of_tiles {s a : Nat} {P : List ApaHeader} (h : Tiles s P) (hlo : s ≤ a)
    (hhi : a < s + total P) : ∃ x ∈ P, x.start ≤ a ∧ a < x.start + x.length := by
  induction P generalizing s with
  | nil =>
    rw [total_nil] at hhi
    omega
  | cons x P ih =>
    obtain ⟨hs, -, hP⟩ := h
    rw [total_cons] at hhi
    by_cases ha : a < s + x.length
    · exact ⟨x, List.mem_cons_self, by omega, by omega⟩
    · obtain ⟨y, hy, hya⟩ := ih hP (by omega) (by omega)
      exact ⟨y, List.mem_cons_of_mem _ hy, hya⟩

theorem slot_end {s : Nat} {P : List ApaHeader} (h : Tiles s P) (hs : Slot s) : Slot (s + total P) := by
  induction P generalizing s with
  | nil => exact hs
  | cons x P ih =>
    obtain ⟨-, hx, hP⟩ := h
    rw [total_cons, ← Nat.add_assoc]
    exact ih hP (Nat.dvd_add hs (pow_of_large hx.dyadic.pow hx.large))

theorem freeAt_iff {P : List ApaHeader} {a : Nat} (h : Tiles 0 P) :
    FreeAt P a ↔ a < total P ∧ ∀ x ∈ used P, ¬ (x.start ≤ a ∧ a < x.start + x.length) := by
  constructor
  · rintro ⟨x, hx, hfree, hlo, hhi⟩
    refine ⟨by have := h.end_le hx; omega, fun y hy hya => ?_⟩
    obtain ⟨hyP, hyused⟩ := mem_used.mp hy
    have hne : x ≠ y := by
      rintro rfl
      rw [hfree] at hyused
      cases hyused
    rcases h.lt_of_ne hx hyP hne with hlt | hlt <;> omega
  · rintro ⟨ha, hnone⟩
    obtain ⟨x, hx, hxa⟩ := exists_of_tiles h (Nat.zero_le a) (by omega)
    refine ⟨x, hx, ?_, hxa⟩
    cases hfree : x.isFree with
    | true => rfl
    | false => exact (hnone x (mem_used.mpr ⟨hx, hfree⟩) hxa).elim

private theorem freeAt_congr {P Q : List ApaHeader} (hP : Tiles 0 P) (hQ : Tiles 0 Q)
    (htotal : total P = total Q) (hused : used P = used Q) (a : Nat) : FreeAt P a ↔ FreeAt Q a := by
  rw [freeAt_iff hP, freeAt_iff hQ, htotal, hused]

/-! ### The pass -/

/-- The pass has come to the partitions `R`: those before them are `D` now and `L₁` at the start. -/
structure Passed (π : Promise) (w : WriteBack (Option Sector)) (e : Device) (m : ApaHeader)
    (L₁ D R : List ApaHeader) : Prop where
  steady : Steady π w e (m :: (D ++ R))
  coalesced : Coalesced (m :: D)
  sameUsed : used D = used L₁
  sameTotal : total D = total L₁

theorem coalesced_concat (hm : m.isFree = false) (h : Coalesced (m :: D))
    (hx : x.isFree = true → leftBuddy D.reverse x.length = false) : Coalesced (m :: (D ++ [x])) := by
  rw [← List.cons_append]
  refine List.isChain_append.mpr ⟨h, List.isChain_singleton _, fun u hu y hy hbuddies => ?_⟩
  obtain rfl : x = y := by simpa using hy
  exact (leftBuddy_eq_false hbuddies.2.1 hm).mp (hx hbuddies.2.1) u hu hbuddies

theorem Passed.leftBuddy_iff {I : List ApaHeader} (h : Passed π w e m I D [x]) :
    leftBuddy D.reverse x.length = true ↔ FreeBefore (m :: I) x := by
  rw [leftBuddy_iff_freeBefore h.steady.tiles h.coalesced, freeBefore_iff, freeBefore_iff, used_cons,
    used_cons, h.sameUsed]

/-- One partition of the pass that does not end in a run at the end of the table. -/
theorem Passed.fixPrev {L₁ : List ApaHeader} (h : Passed noPromise w e m L₁ D (x :: R))
    (hfree : x.isFree = true)
    (hR : R ≠ [] ∨ leftBuddy D.reverse x.length = false ∨ total (m :: (D ++ [x])) = 2 ^ 32) :
    wp (apaDeleteFixPrev x.start) e fun r e' => ∃ D' y, r = .ok y.start ∧
      Passed noPromise w e' m (L₁ ++ [x]) (D' ++ [y]) R ∧
      ∀ s, Slot s → total (m :: (D ++ x :: R)) ≤ s → e'.view s = e.view s := by
  have hm : m.isFree = false := ((h.steady.tiles.part List.mem_cons_self).mbr h.steady.tiles.1).2.1
  refine (apaDeleteFixPrev_spec h.steady hR trivial).mono ?_
  rintro r e' ⟨D', y, rfl, hfixed, ⟨htaken, -⟩, hsteady, -, hframe⟩
  have hyfree : y.isFree = true := by
    rcases hfixed.fate with ⟨-, rfl, -⟩ | ⟨hy, -⟩
    · exact hfree
    · exact hy
  obtain ⟨⟨F, G, rfl, hG, hempty, hlength⟩, -⟩ := hfixed
  obtain rfl : G = [] := by simpa using hG
  refine ⟨D', y, rfl, ⟨by simpa using hsteady, coalesced_concat hm ?_ fun _ => ?_, ?_, ?_⟩,
    fun s hslot hs => hframe s hslot fun z hz => ?_⟩
  · have hcoalesced := h.coalesced
    rw [← List.cons_append] at hcoalesced
    exact hcoalesced.left_of_append
  · by_contra hbuddy
    rw [Bool.not_eq_false] at hbuddy
    rw [buddySides_left hbuddy] at htaken
    have hhead := List.head?_dropWhile_not (· == Side.left)
      (buddySides (D' ++ F).reverse x.start x.length R)
    rw [show (buddySides (D' ++ F).reverse x.start x.length R).dropWhile (· == Side.left) = _ from
      htaken.symm] at hhead
    simp at hhead
  · have hused := h.sameUsed
    rw [used_append, used_eq_nil fun f hf => hempty f (List.mem_append_left _ hf),
      List.append_nil] at hused
    rw [used_append, used_append, hused, used_eq_nil (L := [y]) (by simpa using hyfree),
      used_eq_nil (L := [x]) (by simpa using hfree)]
  · have htotal := h.sameTotal
    simp only [total_append, total_cons, total_nil] at htotal hlength ⊢
    omega
  · have := h.steady.tiles.end_le hz
    have := (h.steady.tiles.part hz).two_le
    omega

theorem Passed.same {L₁ : List ApaHeader} {e' : Device} (h : Passed π w e m L₁ D R)
    (hsame : Same Slot e e') : Passed π w e' m L₁ D R :=
  ⟨h.steady.same hsame, h.coalesced, h.sameUsed, h.sameTotal⟩

/-! ### The end of the table -/

private theorem inChain_of_chain {V W : Nat → Option ApaHeader} {A B : List ApaHeader} {f : ApaHeader} {p : Nat}
    (h : headerLinks.Chain V p (A ++ f :: B) 0)
    (hnext : ∀ a ∈ A, (W a.start).map (·.next) = (V a.start).map (·.next))
    (hstart : InChain W (headerLinks.head (A ++ [f]) 0)) : InChain W f.start := by
  induction A generalizing p with
  | nil => exact hstart
  | cons a A ih =>
    obtain ⟨⟨v, hv, -, -, hvnext⟩, hrest⟩ := h
    have ha := hnext a List.mem_cons_self
    rw [show V a.start = some v from hv, Option.map_some, Option.map_eq_some_iff] at ha
    obtain ⟨u, hu, hunext⟩ := ha
    refine ih hrest (fun b hb => hnext b (List.mem_cons_of_mem _ hb)) ?_
    have hstep := InChain.next hstart hu
    rw [hunext, show v.next = headerLinks.head (A ++ f :: B) 0 from hvnext] at hstep
    rwa [headerLinks.head_append, headerLinks.head_cons, ← headerLinks.head_cons f [] 0,
      ← headerLinks.head_append] at hstep

private theorem mem_of_inChain {V : Nat → Option ApaHeader} {s : Nat} (h : InChain V s)
    (hring : headerLinks.Ring V (m :: L)) (htiles : Tiles 0 (m :: L)) : ∃ y ∈ m :: L, y.start = s := by
  induction h with
  | mbr => exact ⟨m, List.mem_cons_self, htiles.1⟩
  | @next s v _ hview ih =>
    obtain ⟨y, hy, rfl⟩ := ih
    obtain ⟨I, J, hIJ⟩ := List.append_of_mem hy
    obtain ⟨v', hv', -, -, hnext⟩ := Linked.Chain.node (hIJ ▸ hring)
    obtain rfl := Option.some.inj (hview.symm.trans hv')
    rw [show v.next = headerLinks.head J 0 from hnext]
    cases J with
    | nil => exact ⟨m, List.mem_cons_self, htiles.1⟩
    | cons z J => exact ⟨z, by rw [hIJ]; simp, rfl⟩

theorem not_joined_of_inChain {e : Device} {L' : List ApaHeader} (h : InChain e.view (total (m :: L)))
    (hm : m.length ≠ 0) (htiles : Tiles 0 (m :: L)) (hjoined : Joined e m L L') : False := by
  have hring : headerLinks.Ring e.view (m :: L') :=
    Linked.Chain.congr hjoined.ring fun y hy => hjoined.stored y hy
  obtain ⟨y, hy, hstart⟩ := mem_of_inChain h hring hjoined.tiles
  have htwo := (hjoined.tiles.part hy).two_le
  -- the header behind the table is a used one or has empty sectors there
  cases hfree : y.isFree with
  | true =>
    have hat : FreeAt (m :: L') y.start := ⟨y, hy, hfree, le_refl _, by omega⟩
    obtain ⟨z, hz, -, -, hhi⟩ := (hjoined.free _).mp hat
    have := htiles.end_le hz
    omega
  | false =>
    rcases List.mem_cons.mp hy with rfl | hy
    · rw [total_cons] at hstart
      have := htiles.1
      omega
    · have hused : y ∈ used L := by
        rw [← hjoined.used]
        exact mem_used.mpr ⟨hy, hfree⟩
      have := htiles.end_le (List.mem_cons_of_mem m (mem_used.mp hused).1)
      omega

theorem InChain.mono {V W : Nat → Option ApaHeader} {s : Nat} (h : InChain V s)
    (hVW : ∀ s v, V s = some v → W s = some v) : InChain W s := by
  induction h with
  | mbr => exact .mbr
  | next _ hview ih => exact .next ih (hVW _ _ hview)

/-- The chain of the drive leads behind the table, over headers at places where no error is noted. -/
def LeadsOut (e : Device) (last : Nat) : Prop :=
  ∃ V, InChain V last ∧ ∀ s v, V s = some v → Slot s ∧ e.view s = some v

theorem endJoins_concat {I : List ApaHeader} :
    EndJoins m (I ++ [x]) ↔ x.isFree = true ∧ FreeBefore (m :: I) x := by
  constructor
  · rintro ⟨J, y, heq, hjoins⟩
    obtain ⟨rfl, hy⟩ := List.append_inj' heq rfl
    obtain rfl := (List.cons.inj hy).1
    exact hjoins
  · exact fun h => ⟨I, x, rfl, h⟩

/-- The pass joins the last partition with the one before it. -/
theorem Passed.fixPrev_end {I : List ApaHeader} (h : Passed noPromise w e m I D [x])
    (hbuddy : leftBuddy D.reverse x.length = true) (hend : total (m :: (D ++ [x])) < 2 ^ 32) :
    wp (apaDeleteFixPrev x.start) e fun r e' => ∃ f ∈ D, r = .ok f.start ∧
      (∃ v, e'.view f.start = some v ∧ v.next = total (m :: (D ++ [x]))) ∧
      LeadsOut e' (total (m :: (D ++ [x]))) ∧
      (e.view (total (m :: (D ++ [x]))) = none → e'.view (total (m :: (D ++ [x]))) = none) := by
  refine (apaDeleteFixPrev_end h.steady hbuddy hend).mono ?_
  rintro r e' ⟨f, hf, rfl, -, ⟨v, hv, hvnext⟩, hnext⟩
  have htiles := h.steady.tiles
  obtain ⟨A, B, rfl⟩ := List.append_of_mem hf
  refine ⟨f, hf, rfl, ⟨v, hv, hvnext⟩, ?_, fun hnone => ?_⟩
  · have hslot : ∀ a ∈ m :: A, Slot a.start ∧ a.start ≠ f.start := by
      intro a ha
      have hsplit := htiles
      rw [show m :: (A ++ f :: B ++ [x]) = (m :: A) ++ f :: (B ++ [x]) by simp, tiles_append] at hsplit
      refine ⟨(hsplit.1.part ha).slot, ?_⟩
      have := hsplit.1.end_le ha
      have := (hsplit.1.part ha).two_le
      have := hsplit.2.1
      omega
    have hfslot : Slot f.start := (htiles.part (x := f) (by simp)).slot
    refine ⟨fun s => if s = f.start ∨ ∃ a ∈ m :: A, a.start = s then e'.view s else none, ?_, ?_⟩
    · have hchain : headerLinks.Ring e.view ((m :: A) ++ f :: (B ++ [x])) := by
        have hring := h.steady.ring
        rwa [show m :: (A ++ f :: B ++ [x]) = (m :: A) ++ f :: (B ++ [x]) by simp] at hring
      have hreach := inChain_of_chain (W := fun s =>
        if s = f.start ∨ ∃ a ∈ m :: A, a.start = s then e'.view s else none) hchain
        (fun a ha => by
          rw [if_pos (.inr ⟨a, ha, rfl⟩)]
          exact hnext _ (hslot a ha).1 (hslot a ha).2)
        (by
          rw [List.cons_append, headerLinks.head_cons, headerLinks_key, htiles.1]
          exact .mbr)
      rw [← hvnext]
      exact hreach.next (by rw [if_pos (.inl rfl)]; exact hv)
    · intro s u hu
      dsimp only at hu
      split at hu
      · rename_i hs
        rcases hs with rfl | ⟨a, ha, rfl⟩
        · exact ⟨hfslot, hu⟩
        · exact ⟨(hslot a ha).1, hu⟩
      · cases hu
  · have hplace : Slot (total (m :: (A ++ f :: B ++ [x]))) := by
      have hslot := slot_end htiles ⟨0, rfl⟩
      rwa [Nat.zero_add] at hslot
    have hlate := htiles.end_le (x := f) (by simp)
    have := (htiles.part (x := f) (by simp)).two_le
    have hsame := hnext _ hplace (by omega)
    rw [hnone] at hsame
    simpa using hsame

/-- Between two turns of the pass: it is at a partition of the table, or behind the table. -/
def Turns (w : WriteBack (Option Sector)) (m : ApaHeader) (L : List ApaHeader) (sector : Nat)
    (e : Device) : Prop :=
  (∃ L₁ D R, L = L₁ ++ R ∧ sector = headerLinks.head R 0 ∧ Passed noPromise w e m L₁ D R ∧
      (R = [] → ¬ EndJoins m L ∨ total (m :: L) = 2 ^ 32) ∧
      (EndJoins m L → total (m :: L) < 2 ^ 32 → e.view (total (m :: L)) = none)) ∨
    EndJoins m L ∧ total (m :: L) < 2 ^ 32 ∧ sector = total (m :: L) ∧ LeadsOut e sector ∧
      e.view sector = none

/-- How the pass ends: with the empty partitions joined, or with a chain that leads behind the table. -/
def Ends (m : ApaHeader) (L : List ApaHeader) (e : Device) : Prop :=
  ((¬ EndJoins m L ∨ total (m :: L) = 2 ^ 32) ∧ ∃ L', Joined e m L L') ∨
    EndJoins m L ∧ total (m :: L) < 2 ^ 32 ∧ InChain e.view (total (m :: L))

theorem Passed.joined (h : Passed π w e m L D []) (htiles : Tiles 0 (m :: L)) : Joined e m L D := by
  have hsteady := h.steady
  rw [List.append_nil] at hsteady
  refine ⟨hsteady.ring_disk, fun y hy => (hsteady.stored y hy).symm, hsteady.tiles, h.sameUsed,
    freeAt_congr hsteady.tiles htiles ?_ ?_⟩
  · rw [total_cons, total_cons, h.sameTotal]
  · rw [used_cons, used_cons, h.sameUsed]

theorem LeadsOut.of_view {e e' : Device} {last : Nat} (h : LeadsOut e last)
    (hview : ∀ s, Slot s → e'.view s = e.view s) : InChain e'.view last := by
  obtain ⟨V, hchain, hV⟩ := h
  refine InChain.mono hchain fun s v hv => ?_
  obtain ⟨hslot, hs⟩ := hV s v hv
  rw [hview s hslot, hs]

theorem Passed.endJoins_iff {I : List ApaHeader} (h : Passed noPromise w e m I D [x]) :
    EndJoins m (I ++ [x]) ↔ x.isFree = true ∧ leftBuddy D.reverse x.length = true := by
  rw [endJoins_concat, h.leftBuddy_iff]

theorem Passed.total_eq {I : List ApaHeader} (h : Passed π w e m I D R) :
    total (m :: (D ++ R)) = total (m :: (I ++ R)) := by
  rw [total_cons, total_cons, total_append, total_append, h.sameTotal]

/-- The body of the loop of `DeleteFreePartitions` at a partition of the table. -/
private theorem DeleteFreePartitions_turn {L₁ : List ApaHeader} (h : Passed noPromise w e m L₁ D (x :: R))
    (hend : EndJoins m (L₁ ++ x :: R) → total (m :: (L₁ ++ x :: R)) < 2 ^ 32 →
      e.view (total (m :: (L₁ ++ x :: R))) = none) :
    ∃ e₁ v, apaCacheGetHeader x.start e = (.ok x.start, e₁) ∧ e₁.header x.start = v ∧
      (v.type = APA_TYPE_FREE ↔ x.isFree = true) ∧
      wp (if v.type = APA_TYPE_FREE then apaDeleteFixPrev x.start else pure (.ok x.start)) e₁
        fun r e₂ => ∃ c, r = .ok c ∧ Turns w m (L₁ ++ x :: R) (e₂.header c).next (apaCacheFree c e₂) ∧
          ((e₂.header c).next ≠ 0 → x.start < (e₂.header c).next) := by
  have htiles := h.steady.tiles
  have hslot := (htiles.part (x := x) (by simp)).slot
  obtain ⟨v, hv, hbody, -, hvnext⟩ :=
    (show Steady noPromise w e ((m :: D) ++ x :: R) from h.steady).node
  obtain ⟨e₁, hget, hsame⟩ := apaCacheGetHeader_ok (S := Slot) hv hslot
  have h₁ := h.same hsame
  have hhead : e₁.header x.start = v := by
    rw [hsame.header]
    exact header_of_view hv
  have htype : v.type = APA_TYPE_FREE ↔ x.isFree = true := by
    rw [← hbody, ApaHeader.isFree, beq_iff_eq]
    rfl
  have hend₁ : EndJoins m (L₁ ++ x :: R) → total (m :: (L₁ ++ x :: R)) < 2 ^ 32 →
      e₁.view (total (m :: (L₁ ++ x :: R))) = none := by
    rw [hsame.view]
    exact hend
  have hxend := htiles.end_le (x := x) (by simp)
  have hxlen := (htiles.part (x := x) (by simp)).two_le
  have hlt : headerLinks.head R 0 ≠ 0 → x.start < headerLinks.head R 0 := by
    cases R with
    | nil => exact fun hne => (hne rfl).elim
    | cons b R =>
      intro _
      have hpair := htiles.pairwise
      rw [← List.cons_append, List.pairwise_append] at hpair
      have := List.rel_of_pairwise_cons hpair.2.1 List.mem_cons_self
      rw [headerLinks.head_cons, headerLinks_key]
      omega
  refine ⟨e₁, v, hget, hhead, htype, ?_⟩
  simp only [htype]
  cases hfree : x.isFree with
  | false =>
    rw [if_neg (by simp), wp_pure_iff]
    refine ⟨x.start, rfl, ?_⟩
    have hm : m.isFree = false := ((htiles.part List.mem_cons_self).mbr htiles.1).2.1
    rw [hhead, show v.next = headerLinks.head R 0 from hvnext]
    have hfreed : Same Slot e₁ (apaCacheFree x.start e₁) := same_apaCacheFree hslot
    refine ⟨.inl ⟨L₁ ++ [x], D ++ [x], R, by simp, rfl, ⟨?_, ?_, ?_, ?_⟩, ?_, ?_⟩, hlt⟩
    · simpa using h₁.steady.same hfreed
    · exact coalesced_concat hm h₁.coalesced fun hx => by
        rw [hfree] at hx
        cases hx
    · rw [used_append, used_append, h.sameUsed]
    · rw [total_append, total_append, h.sameTotal]
    · rintro rfl
      rw [endJoins_concat, hfree]
      exact .inl fun hx => Bool.noConfusion hx.1
    · rw [hfreed.view]
      exact hend₁
  | true =>
    rw [if_pos rfl]
    have htotal := h.total_eq
    by_cases hR : R ≠ [] ∨ leftBuddy D.reverse x.length = false ∨ total (m :: (D ++ [x])) = 2 ^ 32
    · refine (h₁.fixPrev hfree hR).mono ?_
      rintro r e₂ ⟨D', y, rfl, hpassed, hframe⟩
      obtain ⟨u, hu, -, -, hunext⟩ := (show Steady noPromise w e₂ ((m :: D') ++ y :: R) by
        simpa using hpassed.steady).node
      have hyslot := (hpassed.steady.tiles.part (x := y) (by simp)).slot
      have hfreed : Same Slot e₂ (apaCacheFree y.start e₂) := same_apaCacheFree hyslot
      refine ⟨y.start, rfl, ?_⟩
      rw [header_of_view hu, show u.next = headerLinks.head R 0 from hunext]
      refine ⟨.inl ⟨L₁ ++ [x], D' ++ [y], R, by simp, rfl, hpassed.same hfreed, ?_, ?_⟩, hlt⟩
      · rintro rfl
        rcases hR with hR | hR | hR
        · exact (hR rfl).elim
        · refine .inl fun hjoins => ?_
          rw [h.endJoins_iff, hR] at hjoins
          cases hjoins.2
        · exact .inr (htotal ▸ hR)
      · have hplace := slot_end htiles ⟨0, rfl⟩
        rw [Nat.zero_add] at hplace
        rw [hfreed.view, ← htotal, hframe _ hplace (le_refl _), htotal]
        exact hend₁
    · rw [not_or, not_or, not_not, Bool.not_eq_false] at hR
      obtain ⟨rfl, hbuddy, hne⟩ := hR
      have hjoins := h.endJoins_iff.mpr ⟨hfree, hbuddy⟩
      have htop : total (m :: (D ++ [x])) < 2 ^ 32 := by
        have := htiles.top (by simp)
        omega
      refine (h₁.fixPrev_end hbuddy htop).mono ?_
      rintro r e₂ ⟨f, hf, rfl, ⟨u, hu, hunext⟩, hleads, hnone⟩
      have hfslot := (htiles.part (x := f) (by simp [hf])).slot
      have hfreed : Same Slot e₂ (apaCacheFree f.start e₂) := same_apaCacheFree hfslot
      refine ⟨f.start, rfl, ?_⟩
      rw [header_of_view hu, hunext, htotal]
      rw [htotal] at hleads hnone
      refine ⟨.inr ⟨hjoins, htotal ▸ htop, rfl, ?_, ?_⟩, fun _ => by omega⟩
      · obtain ⟨V, hchain, hV⟩ := hleads
        exact ⟨V, hchain, fun s u hu => by rw [hfreed.view]; exact hV s u hu⟩
      · rw [hfreed.view]
        exact hnone (hend₁ hjoins (htotal ▸ htop))

theorem DeleteFreePartitions_ends (hidle : d.Idle (m :: L))
    (hring : headerLinks.Ring (apaReadHeader d.disk) (m :: L)) (htiles : Tiles 0 (m :: L))
    (hend : EndJoins m L → total (m :: L) < 2 ^ 32 → d.view (total (m :: L)) = none) :
    wp (DeleteFreePartitions APA_SECTOR_MBR) d fun _ e => Ends m L e := by
  have hsteady : Steady noPromise ⟨d.disk, []⟩ d (m :: L) := hidle.steady (by simp) hring htiles trivial
  obtain ⟨vm, hvm, -, -, hmnext⟩ := (show Steady noPromise _ d ([] ++ m :: L) from hsteady).node
  rw [htiles.1] at hvm
  unfold DeleteFreePartitions
  rw [wp_read_bind, show APA_SECTOR_MBR = 0 from rfl, header_of_view hvm,
    show vm.next = headerLinks.head L 0 from hmnext]
  refine wp_loop (Turns ⟨d.disk, []⟩ m L) (fun sector _ => if sector = 0 then 0 else 2 ^ 32 + 1 - sector)
    (fun sector e hturns => ?_) (.inl ⟨[], [], L, rfl, rfl, ⟨hsteady, ?_, rfl, rfl⟩, ?_, hend⟩)
  · rcases hturns with ⟨L₁, D, R, rfl, rfl, hpassed, hcond, hnone⟩ | ⟨hjoins, htop, rfl, hleads, hnone⟩
    · cases R with
      | nil =>
        rw [headerLinks.head_nil, if_pos rfl, wp_pure_iff]
        rw [List.append_nil] at *
        exact .inl ⟨hcond rfl, D, hpassed.joined htiles⟩
      | cons x R =>
        have hx0 : x.start ≠ 0 := hpassed.steady.tiles.keys.ne_zero (y := x) (by simp)
        obtain ⟨e₁, v, hget, hhead, htype, hturn⟩ := DeleteFreePartitions_turn hpassed hnone
        rw [headerLinks.head_cons, headerLinks_key, if_neg hx0, wp_ofState_bind, hget]
        dsimp only
        rw [wp_read_bind, hhead]
        have htop := (hpassed.steady.tiles.part (x := x) (by simp)).top
        have hless : ∀ n, (n ≠ 0 → x.start < n) →
            (if n = 0 then 0 else 2 ^ 32 + 1 - n) < if x.start = 0 then 0 else 2 ^ 32 + 1 - x.start := by
          intro n hn
          have := (hpassed.steady.tiles.part (x := x) (by simp)).two_le
          rw [if_neg hx0]
          split
          · omega
          · have := hn ‹_›
            omega
        by_cases hfree : v.type = APA_TYPE_FREE
        · rw [if_pos hfree] at hturn ⊢
          refine wp_bind (hturn.mono ?_)
          rintro r e₂ ⟨c, rfl, hturns, hlt⟩
          simp only [wp_read_bind, wp_modify_bind, wp_pure_iff]
          exact ⟨hturns, hless _ hlt⟩
        · rw [if_neg hfree] at hturn ⊢
          refine wp_bind (hturn.mono ?_)
          rintro r e₂ ⟨c, rfl, hturns, hlt⟩
          simp only [wp_read_bind, wp_modify_bind, wp_pure_iff]
          exact ⟨hturns, hless _ hlt⟩
    · have hpos : total (m :: L) ≠ 0 := by
        have := htiles.2.1.two_le
        rw [total_cons]
        omega
      rw [if_neg hpos, wp_ofState_bind]
      unfold view at hnone
      unfold apaCacheGetHeader
      cases hbuf : findBuf e.cache (total (m :: L)) with
      | some b =>
        rw [hbuf] at hnone
        cases hnone
      | none =>
        rw [hbuf] at hnone
        simp only [hnone, wp_pure_iff]
        exact .inr ⟨hjoins, htop, hleads.of_view fun s hs => view_apaSaveError hs⟩
  · exact List.isChain_singleton _
  · rintro rfl
    refine .inl ?_
    rintro ⟨I, x, hI, -⟩
    simp at hI

/-- The empty partitions are joined and nothing else changes unless the last partition is joined with one before it, or if the table ends at sector 2^32; and only then where nothing behind the table reads as a header. -/
theorem DeleteFreePartitions_joins (hidle : d.Idle (m :: L))
    (hring : headerLinks.Ring (apaReadHeader d.disk) (m :: L)) (htiles : Tiles 0 (m :: L)) :
    (¬ EndJoins m L ∨ total (m :: L) = 2 ^ 32 →
      wp (DeleteFreePartitions APA_SECTOR_MBR) d fun _ e => ∃ L', Joined e m L L') ∧
    (d.view (total (m :: L)) = none →
      wp (DeleteFreePartitions APA_SECTOR_MBR) d (fun _ e => ∃ L', Joined e m L L') →
      ¬ EndJoins m L ∨ total (m :: L) = 2 ^ 32) := by
  have hm : m.length ≠ 0 := by
    have := htiles.2.1.two_le
    omega
  constructor
  · intro hcond
    refine (DeleteFreePartitions_ends hidle hring htiles fun hjoins htop => ?_).mono ?_
    · rcases hcond with hcond | hcond
      · exact (hcond hjoins).elim
      · omega
    · rintro _ e (⟨-, hjoined⟩ | ⟨hjoins, htop, -⟩)
      · exact hjoined
      · rcases hcond with hcond | hcond
        · exact (hcond hjoins).elim
        · omega
  · rintro hnone ⟨r, e, hrun, L', hjoined⟩
    rcases (DeleteFreePartitions_ends hidle hring htiles fun _ _ => hnone).wlp r e hrun with
      ⟨hcond, -⟩ | ⟨-, -, hchain⟩
    · exact hcond
    · exact (not_joined_of_inChain hchain hm htiles hjoined).elim

/-! ### Small drives -/

/-- Two empty partitions of one size at the end of the table. -/
def freeEnd : List ApaHeader :=
  [plainHeader 0x40000 0x40000 0x0100, plainHeader 0x80000 0x40000 APA_TYPE_FREE,
    plainHeader 0xc0000 0x40000 APA_TYPE_FREE]

theorem freeEnd_tiles : Tiles 0 (mbrHeader :: freeEnd) :=
  ⟨rfl, part_mbr, rfl, part_plain ⟨⟨18, rfl⟩, by decide⟩ (by decide) (by decide) (by decide), rfl,
    part_plain ⟨⟨18, rfl⟩, by decide⟩ (by decide) (by decide) (by decide), rfl,
    part_plain ⟨⟨18, rfl⟩, by decide⟩ (by decide) (by decide) (by decide), trivial⟩

theorem freeEnd_idle : (Device.boot (tableDisk (mbrHeader :: freeEnd))).Idle (mbrHeader :: freeEnd) :=
  Device.idle_boot tableDisk_idle fun _ _ => 0

theorem freeEnd_ring : headerLinks.Ring (apaReadHeader (tableDisk (mbrHeader :: freeEnd)))
    (mbrHeader :: freeEnd) := ring_tableDisk freeEnd_tiles (by decide)

private theorem freeEnd_joins : EndJoins mbrHeader freeEnd :=
  ⟨[plainHeader 0x40000 0x40000 0x0100, plainHeader 0x80000 0x40000 APA_TYPE_FREE],
    plainHeader 0xc0000 0x40000 APA_TYPE_FREE, rfl, by decide, by decide, by decide⟩

/-- Two empty partitions of one size, and a used one behind them. -/
def freeMiddle : List ApaHeader :=
  [plainHeader 0x40000 0x40000 0x0100, plainHeader 0x80000 0x40000 APA_TYPE_FREE,
    plainHeader 0xc0000 0x40000 APA_TYPE_FREE, plainHeader 0x100000 0x40000 0x0100]

private theorem freeMiddle_tiles : Tiles 0 (mbrHeader :: freeMiddle) :=
  ⟨rfl, part_mbr, rfl, part_plain ⟨⟨18, rfl⟩, by decide⟩ (by decide) (by decide) (by decide), rfl,
    part_plain ⟨⟨18, rfl⟩, by decide⟩ (by decide) (by decide) (by decide), rfl,
    part_plain ⟨⟨18, rfl⟩, by decide⟩ (by decide) (by decide) (by decide), rfl,
    part_plain ⟨⟨18, rfl⟩, by decide⟩ (by decide) (by decide) (by decide), trivial⟩

/-- They are joined. -/
theorem DeleteFreePartitions_joins_freeMiddle :
    wp (DeleteFreePartitions APA_SECTOR_MBR) (Device.boot (tableDisk (mbrHeader :: freeMiddle)))
      fun _ e => ∃ L', Joined e mbrHeader freeMiddle L' := by
  have hidle : (Device.boot (tableDisk (mbrHeader :: freeMiddle))).Idle (mbrHeader :: freeMiddle) :=
    Device.idle_boot tableDisk_idle fun _ _ => 0
  have hring := ring_tableDisk freeMiddle_tiles (by decide)
  have hused : ¬ EndJoins mbrHeader freeMiddle := by
    rintro ⟨I, x, heq, hfree, -⟩
    have hlast := congrArg List.getLast? heq
    rw [List.getLast?_concat] at hlast
    cases hlast
    exact absurd hfree (by decide)
  exact (DeleteFreePartitions_joins hidle hring freeMiddle_tiles).1 (.inl hused)

/-- The joined partition at the end of the table names the sector behind it, and the chain does not end. -/
theorem DeleteFreePartitions_runs_out :
    (Device.boot (tableDisk (mbrHeader :: freeEnd))).Idle (mbrHeader :: freeEnd) ∧
      headerLinks.Ring (apaReadHeader (tableDisk (mbrHeader :: freeEnd))) (mbrHeader :: freeEnd) ∧
      Tiles 0 (mbrHeader :: freeEnd) ∧
      ¬ wp (DeleteFreePartitions APA_SECTOR_MBR) (Device.boot (tableDisk (mbrHeader :: freeEnd)))
        fun _ e => ∃ L', Joined e mbrHeader freeEnd L' := by
  refine ⟨freeEnd_idle, freeEnd_ring, freeEnd_tiles, ?_⟩
  rintro ⟨r, e, hrun, L', hjoined⟩
  have hnone : (Device.boot (tableDisk (mbrHeader :: freeEnd))).view
      (total (mbrHeader :: freeEnd)) = none := by decide +kernel
  rcases (DeleteFreePartitions_ends freeEnd_idle freeEnd_ring freeEnd_tiles fun _ _ => hnone).wlp r e
    hrun with ⟨hcond, -⟩ | ⟨-, -, hchain⟩
  · rcases hcond with hcond | hcond
    · exact hcond freeEnd_joins
    · exact absurd hcond (by decide)
  · exact not_joined_of_inChain hchain (by decide) freeEnd_tiles hjoined

end HddChecker.Hdck
