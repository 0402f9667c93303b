import HddChecker.Fsck.Accesses

/-!
# Marking a run of zones

`fsckCheckZones` takes the bits of a run of zones one after the other, page by page, and ends early at the first that is set already. The pages are seen as one array of bits.
-/

namespace HddChecker.Fsck

namespace Scratch

variable {s t u : Scratch} {l : List Nat} {i index zone bit left remaining a m n : Nat} {P : Nat → Prop}
  {F G : Nat → Page}

def bitAt (F : Nat → Page) (z : Nat) : Bool := F (z / 2 ^ 20) (z / 2 ^ 5 % 2 ^ 15) (z % 2 ^ 5)

/-- No bit of the run is set. -/
def Unmarked (F : Nat → Page) (a n : Nat) : Prop := ∀ z, a ≤ z → z < a + n → bitAt F z = false

/-- The array with the bits of a run set. -/
def mark (F : Nat → Page) (a n : Nat) : Nat → Page := fun k w b =>
  F k w b || decide (w < 2 ^ 15 ∧ b < 2 ^ 5 ∧ a ≤ k * 2 ^ 20 + w * 2 ^ 5 + b ∧ k * 2 ^ 20 + w * 2 ^ 5 + b < a + n)

theorem bitAt_mark (F : Nat → Page) (a n z : Nat) : bitAt (mark F a n) z = (bitAt F z || decide (a ≤ z ∧ z < a + n)) := by
  have hword : z / 2 ^ 5 % 2 ^ 15 < 2 ^ 15 := Nat.mod_lt _ (by decide)
  have hbit : z % 2 ^ 5 < 2 ^ 5 := Nat.mod_lt _ (by decide)
  have hz : z / 2 ^ 20 * 2 ^ 20 + z / 2 ^ 5 % 2 ^ 15 * 2 ^ 5 + z % 2 ^ 5 = z := by omega
  simp only [bitAt, mark, hz, hword, hbit, true_and]

theorem mark_zero (F : Nat → Page) (a : Nat) : mark F a 0 = F := by
  funext k w b
  have hnot : ¬ (w < 2 ^ 15 ∧ b < 2 ^ 5 ∧ a ≤ k * 2 ^ 20 + w * 2 ^ 5 + b ∧ k * 2 ^ 20 + w * 2 ^ 5 + b < a + 0) := by
    omega
  simp only [mark, hnot, decide_false, Bool.or_false]

theorem mark_mark (F : Nat → Page) (a m n : Nat) : mark (mark F a m) (a + m) n = mark F a (m + n) := by
  funext k w b
  simp only [mark, Bool.or_assoc, ← Bool.decide_or]
  congr 1
  apply decide_eq_decide.mpr
  omega

private theorem mark_one (F : Nat → Page) (index : Nat) (hzone : zone < 2 ^ 15) (hbit : bit < 2 ^ 5) :
    Function.update F index (Function.update (F index) zone (Function.update (F index zone) bit true)) =
      mark F (index * 2 ^ 20 + zone * 2 ^ 5 + bit) 1 := by
  funext k w b
  by_cases hk : k = index
  · subst hk
    rw [Function.update_self]
    by_cases hw : w = zone
    · subst hw
      rw [Function.update_self]
      by_cases hb : b = bit
      · subst hb
        rw [Function.update_self]
        have hplace : w < 2 ^ 15 ∧ b < 2 ^ 5 ∧ k * 2 ^ 20 + w * 2 ^ 5 + b ≤ k * 2 ^ 20 + w * 2 ^ 5 + b ∧
            k * 2 ^ 20 + w * 2 ^ 5 + b < k * 2 ^ 20 + w * 2 ^ 5 + b + 1 := ⟨hzone, hbit, Nat.le_refl _, Nat.lt_succ_self _⟩
        rw [mark, decide_eq_true hplace, Bool.or_true]
      · rw [Function.update_of_ne hb]
        have hnot : ¬ (w < 2 ^ 15 ∧ b < 2 ^ 5 ∧ k * 2 ^ 20 + w * 2 ^ 5 + bit ≤ k * 2 ^ 20 + w * 2 ^ 5 + b ∧
            k * 2 ^ 20 + w * 2 ^ 5 + b < k * 2 ^ 20 + w * 2 ^ 5 + bit + 1) := by omega
        simp only [mark, hnot, decide_false, Bool.or_false]
    · rw [Function.update_of_ne hw]
      have hnot : ¬ (w < 2 ^ 15 ∧ b < 2 ^ 5 ∧ k * 2 ^ 20 + zone * 2 ^ 5 + bit ≤ k * 2 ^ 20 + w * 2 ^ 5 + b ∧
          k * 2 ^ 20 + w * 2 ^ 5 + b < k * 2 ^ 20 + zone * 2 ^ 5 + bit + 1) := by omega
      simp only [mark, hnot, decide_false, Bool.or_false]
  · rw [Function.update_of_ne hk]
    have hnot : ¬ (w < 2 ^ 15 ∧ b < 2 ^ 5 ∧ index * 2 ^ 20 + zone * 2 ^ 5 + bit ≤ k * 2 ^ 20 + w * 2 ^ 5 + b ∧
        k * 2 ^ 20 + w * 2 ^ 5 + b < index * 2 ^ 20 + zone * 2 ^ 5 + bit + 1) := by omega
    simp only [mark, hnot, decide_false, Bool.or_false]

private theorem bitAt_index (F : Nat → Page) (index : Nat) (hzone : zone < 2 ^ 15) (hbit : bit < 2 ^ 5) :
    bitAt F (index * 2 ^ 20 + zone * 2 ^ 5 + bit) = F index zone bit := by
  have hpage : (index * 2 ^ 20 + zone * 2 ^ 5 + bit) / 2 ^ 20 = index := by omega
  have hword : (index * 2 ^ 20 + zone * 2 ^ 5 + bit) / 2 ^ 5 % 2 ^ 15 = zone := by omega
  have hlow : (index * 2 ^ 20 + zone * 2 ^ 5 + bit) % 2 ^ 5 = bit := by omega
  rw [bitAt, hpage, hword, hlow]

theorem Unmarked.zero (F : Nat → Page) (a : Nat) : Unmarked F a 0 := fun z _ _ => by omega

theorem Unmarked.append (h : Unmarked F a m) (h' : Unmarked (mark F a m) (a + m) n) : Unmarked F a (m + n) := by
  intro z hz hlt
  by_cases hfirst : z < a + m
  · exact h z hz hfirst
  · have hrest := h' z (Nat.le_of_not_lt hfirst) (by omega)
    rw [bitAt_mark] at hrest
    exact (Bool.or_eq_false_iff.mp hrest).1

/-! ### The bits of one page -/

/-- An entry is in use for a page of the array. -/
structure Holding (P : Nat → Prop) (s : Scratch) (F : Nat → Page) (i index : Nat) : Prop where
  faithful : Faithful P s F
  entry : Entry i
  label : (s.pfsBitmapData i).index = index
  page : P index

/-- The entries are in use as before. -/
structure Kept (s t : Scratch) : Prop where
  nused : ∀ j, (t.pfsBitmapData j).nused = (s.pfsBitmapData j).nused
  failure : t.failure = s.failure
  transfers : t.transfers = s.transfers

theorem Kept.refl (s : Scratch) : Kept s s := ⟨fun _ => rfl, rfl, rfl⟩

theorem Kept.trans (h : Kept s t) (h' : Kept t u) : Kept s u :=
  ⟨fun j => (h'.nused j).trans (h.nused j), h'.failure.trans h.failure, h'.transfers.trans h.transfers⟩

theorem Holding.bitmap (h : Holding P s F i index) : (s.pfsBitmapData i).bitmap = F index := by
  obtain ⟨l, hl⟩ := h.faithful.sound
  have hpage := h.faithful.page index h.page
  rwa [← h.label, hl.page_held h.entry, h.label] at hpage

/-- One bit is set in the entry. -/
theorem Holding.set (h : Holding P s F i index) (hzone : zone < 2 ^ 15) (hbit : bit < 2 ^ 5) :
    Holding P (s.modify i fun e => { e with
      isDirty := true
      bitmap := Function.update e.bitmap zone (Function.update (e.bitmap zone) bit true) })
      (mark F (index * 2 ^ 20 + zone * 2 ^ 5 + bit) 1) i index ∧
    Kept s (s.modify i fun e => { e with
      isDirty := true
      bitmap := Function.update e.bitmap zone (Function.update (e.bitmap zone) bit true) }) := by
  have hstore : (s.modify i fun e => { e with
      isDirty := true
      bitmap := Function.update e.bitmap zone (Function.update (e.bitmap zone) bit true) }) =
      s.store i zone (Function.update (F index zone) bit true) := by
    rw [← h.bitmap]
    rfl
  have hnext := h.faithful.store h.entry zone (Function.update (F index zone) bit true)
  rw [h.label, mark_one F index hzone hbit] at hnext
  rw [hstore]
  refine ⟨⟨hnext, h.entry, ?_, h.page⟩, ?_, rfl, rfl⟩
  · rw [store_data]
    exact h.label
  · intro j
    rw [store_data]

/-- How far a loop over bits got: so many were clear and are set, and it ended because there are no more, or at one that was set. -/
structure Marks (P : Nat → Prop) (s : Scratch) (F : Nat → Page) (i index a room remaining : Nat) (r : Marking)
    (t : Scratch) (n : Nat) : Prop where
  within : n ≤ room
  most : n ≤ remaining
  clear : Unmarked F a n
  holding : Holding P t (mark F a n) i index
  kept : Kept s t
  next : ∀ m, r = .next m → m + n = remaining ∧ (m = 0 ∨ n = room)
  overlapped : r = .overlapped → n < remaining ∧ bitAt F (a + n) = true

theorem Marks.none {room : Nat} {r : Marking} (h : Holding P s F i index)
    (hr : r = .next remaining ∧ (room = 0 ∨ remaining = 0)) : Marks P s F i index a room remaining r s 0 := by
  obtain ⟨rfl, hend⟩ := hr
  refine ⟨Nat.zero_le _, Nat.zero_le _, Unmarked.zero F a, ?_, Kept.refl s, ?_, nofun⟩
  · rw [mark_zero]
    exact h
  · intro m hm
    cases hm
    omega

theorem Marks.append {room room' remaining' : Nat} {r : Marking} (hclear : Unmarked F a m) (hkept : Kept s u)
    (h : Marks P u (mark F a m) i index (a + m) room' remaining' r t n) (hroom : m + room' = room)
    (hremaining : m + remaining' = remaining) : Marks P s F i index a room remaining r t (m + n) := by
  have hwithin := h.within
  have hmost := h.most
  have hholding := h.holding
  rw [mark_mark] at hholding
  refine ⟨by omega, by omega, hclear.append h.clear, hholding, hkept.trans h.kept, ?_, ?_⟩
  · intro m' hm'
    have hnext := h.next m' hm'
    omega
  · intro hr
    obtain ⟨hlt, hset⟩ := h.overlapped hr
    refine ⟨by omega, ?_⟩
    have hnot : ¬ (a ≤ a + m + n ∧ a + m + n < a + m) := by omega
    rw [bitAt_mark, decide_eq_false hnot, Bool.or_false, Nat.add_assoc] at hset
    exact hset

theorem Holding.markWord (h : Holding P s F i index) (remaining : Nat) (hzone : zone < 2 ^ 15) (hbit : bit + left = 2 ^ 5) :
    ∃ n, Marks P s F i index (index * 2 ^ 20 + zone * 2 ^ 5 + bit) left remaining
      (markWord i zone left bit remaining s).1 (markWord i zone left bit remaining s).2 n := by
  induction left generalizing s F bit remaining with
  | zero => exact ⟨0, Marks.none h ⟨rfl, .inl rfl⟩⟩
  | succ left ih =>
    have hbit5 : bit < 2 ^ 5 := by omega
    rw [Fsck.markWord]
    by_cases hremaining : remaining = 0
    · rw [if_pos hremaining, hremaining]
      exact ⟨0, Marks.none h ⟨rfl, .inr rfl⟩⟩
    · rw [if_neg hremaining]
      have hold : (s.pfsBitmapData i).bitmap zone bit = bitAt F (index * 2 ^ 20 + zone * 2 ^ 5 + bit) := by
        rw [h.bitmap, bitAt_index F index hzone hbit5]
      by_cases hset : (s.pfsBitmapData i).bitmap zone bit = true
      · rw [if_pos hset]
        refine ⟨0, Nat.zero_le _, Nat.zero_le _, Unmarked.zero F _, ?_, Kept.refl s, ?_, fun _ => ?_⟩
        · rw [mark_zero]
          exact h
        · intro rest hrest
          cases hrest
        · rw [Nat.add_zero]
          exact ⟨Nat.pos_of_ne_zero hremaining, hold.symm.trans hset⟩
      · rw [if_neg hset]
        obtain ⟨hnext, hkept⟩ := h.set hzone hbit5
        have hone : Unmarked F (index * 2 ^ 20 + zone * 2 ^ 5 + bit) 1 := by
          intro z hz hlt
          have heq : z = index * 2 ^ 20 + zone * 2 ^ 5 + bit := by omega
          rw [heq, ← hold]
          exact Bool.eq_false_iff.mpr hset
        obtain ⟨n, hn⟩ := ih hnext (remaining - 1) (show bit + 1 + left = 2 ^ 5 by omega)
        rw [← Nat.add_assoc] at hn
        exact ⟨1 + n, hn.append hone hkept (Nat.add_comm 1 left) (by omega)⟩

/-- The words of a page, up to its end. -/
theorem Holding.markPage {startBit : Nat} (h : Holding P s F i index) (remaining : Nat)
    (hzone : zone + left = 2 ^ 15) (hbit : startBit < 2 ^ 5) :
    ∃ n, Marks P s F i index (index * 2 ^ 20 + zone * 2 ^ 5 + startBit) (2 ^ 5 * left - startBit) remaining
      (markPage i left zone startBit remaining s).1 (markPage i left zone startBit remaining s).2 n := by
  induction left generalizing s F zone startBit remaining with
  | zero => exact ⟨0, Marks.none h ⟨rfl, .inl (by omega)⟩⟩
  | succ left ih =>
    rw [Fsck.markPage]
    by_cases hremaining : remaining = 0
    · rw [if_pos hremaining, hremaining]
      exact ⟨0, Marks.none h ⟨rfl, .inr rfl⟩⟩
    · rw [if_neg hremaining]
      obtain ⟨m, hm⟩ := h.markWord remaining (show zone < 2 ^ 15 by omega)
        (show startBit + (2 ^ 5 - startBit) = 2 ^ 5 by omega)
      have hfive : 32 - startBit = 2 ^ 5 - startBit := rfl
      rw [hfive]
      generalize Fsck.markWord i zone (2 ^ 5 - startBit) startBit remaining s = w at hm ⊢
      obtain ⟨r, u⟩ := w
      cases r with
      | overlapped =>
        obtain ⟨hlt, hset⟩ := hm.overlapped rfl
        have hwithin := hm.within
        refine ⟨m, by omega, hm.most, hm.clear, hm.holding, hm.kept, ?_, fun _ => ⟨hlt, hset⟩⟩
        intro rest hrest
        cases hrest
      | next rest =>
        obtain ⟨hsum, hend⟩ := hm.next rest rfl
        have hwithin := hm.within
        by_cases hrest : rest = 0
        · -- what is left of the page is not looked at
          have hmark : Fsck.markPage i left (zone + 1) 0 rest u = (.next 0, u) := by
            rw [hrest]
            cases left <;> rfl
          simp only [hmark]
          refine ⟨m, by omega, hm.most, hm.clear, hm.holding, hm.kept, ?_, ?_⟩
          · intro m' hm'
            cases hm'
            exact ⟨by omega, .inl rfl⟩
          · intro hoverlapped
            cases hoverlapped
        · have hfull : m = 2 ^ 5 - startBit := hend.resolve_left hrest
          obtain ⟨n, hn⟩ := ih hm.holding rest (show zone + 1 + left = 2 ^ 15 by omega) (show 0 < 2 ^ 5 by decide)
          have ha : index * 2 ^ 20 + (zone + 1) * 2 ^ 5 + 0 = index * 2 ^ 20 + zone * 2 ^ 5 + startBit + m := by omega
          rw [ha] at hn
          exact ⟨m + n, hn.append hm.clear hm.kept (by omega) (by omega)⟩

theorem Obtained.given_back (hgot : Obtained s t P index i) (hu : Faithful P u F) (hkept : Kept t u) :
    Faithful P (u.pfsBitmapFree i) F ∧
      (∀ j, ((u.pfsBitmapFree i).pfsBitmapData j).nused = (s.pfsBitmapData j).nused) ∧
      (u.pfsBitmapFree i).failure = s.failure ∧ (u.pfsBitmapFree i).transfers = t.transfers := by
  obtain ⟨l, hl⟩ := hu.sound
  have hstill := free_still hl.toBalanced hgot.entry
  have hused : (u.pfsBitmapData i).nused = (s.pfsBitmapData i).nused + 1 := by
    rw [hkept.nused, hgot.nused, if_pos rfl]
  refine ⟨hu.free hgot.entry, ?_, hstill.failure.trans (hkept.failure.trans hgot.failure),
    hstill.transfers.trans hkept.transfers⟩
  intro j
  rw [free_nused hl.toBalanced hgot.entry, hused]
  by_cases hj : j = i
  · rw [if_pos hj, hj, Nat.add_sub_cancel]
  · rw [if_neg hj, hkept.nused, hgot.nused, if_neg hj, Nat.add_zero]

/-! ### What is transferred -/

/-- Every page that was asked of `__mbr` between the two states was loaded. -/
def Loads (s t : Scratch) : Prop := ∃ rest, t.transfers = s.transfers ++ rest ∧
  ∀ (k : Nat) (x : hddIoctl2Transfer_t), rest[k]? = some x → x.mode = .READ →
    s.failure (s.transfers.length + k) = none

/-- The last transfer between the two states was to load a page, and failed. -/
def Spoils (s t : Scratch) : Prop := ∃ (rest : List hddIoctl2Transfer_t) (x : hddIoctl2Transfer_t),
  t.transfers = s.transfers ++ (rest ++ [x]) ∧ x.mode = .READ ∧ s.failure (s.transfers.length + rest.length) ≠ none

theorem Loads.of_eq (h : t.transfers = s.transfers) : Loads s t :=
  ⟨[], by rw [h, List.append_nil], fun k x hx => by simp at hx⟩

theorem Loads.trans (h : Loads s t) (hfailure : t.failure = s.failure) (h' : Loads t u) : Loads s u := by
  obtain ⟨rest, ht, hrest⟩ := h
  obtain ⟨rest', hu, hrest'⟩ := h'
  refine ⟨rest ++ rest', by rw [hu, ht, List.append_assoc], ?_⟩
  intro k x hx hmode
  by_cases hk : k < rest.length
  · rw [List.getElem?_append_left hk] at hx
    exact hrest k x hx hmode
  · have hle := Nat.le_of_not_lt hk
    rw [List.getElem?_append_right hle] at hx
    have hnone := hrest' _ x hx hmode
    rw [hfailure, ht, List.length_append] at hnone
    have hsum : s.transfers.length + rest.length + (k - rest.length) = s.transfers.length + k := by omega
    rwa [hsum] at hnone

theorem Loads.spoils (h : Loads s t) (hfailure : t.failure = s.failure) (h' : Spoils t u) : Spoils s u := by
  obtain ⟨rest, ht, -⟩ := h
  obtain ⟨rest', x, hu, hmode, hfail⟩ := h'
  refine ⟨rest ++ rest', x, ?_, hmode, ?_⟩
  · rw [hu, ht, List.append_assoc, List.append_assoc]
  · rw [hfailure, ht, List.length_append] at hfail
    rwa [List.length_append, ← Nat.add_assoc]

theorem Spoils.not_loads (h : Spoils s t) : ¬ Loads s t := by
  rintro ⟨rest', ht', hloads⟩
  obtain ⟨rest, x, ht, hmode, hfail⟩ := h
  rw [ht'] at ht
  have hrest := List.append_cancel_left ht
  refine hfail (hloads rest.length x ?_ hmode)
  rw [hrest, List.getElem?_append_right (Nat.le_refl _), Nat.sub_self]
  rfl

theorem read_loads (h : Sound s l) (index : Nat) :
    (((s.pfsBitmapRead index).1.isSome = true ∨ s.WriteFails) → Loads s (s.pfsBitmapRead index).2) ∧
    ((s.pfsBitmapRead index).1 = none → ¬ s.WriteFails → Spoils s (s.pfsBitmapRead index).2) := by
  by_cases hheld : s.Holds index
  · obtain ⟨i, hi, hindex⟩ := hheld
    rw [pfsBitmapRead_hit h hi hindex]
    exact ⟨fun _ => Loads.of_eq (hold_still s i).transfers, nofun⟩
  · have hfetch : ∀ (v : Scratch) i,
        ((v.fetch i index).1.isSome = true → Loads v (v.fetch i index).2) ∧
        ((v.fetch i index).1 = none → Spoils v (v.fetch i index).2) := by
      intro v i
      unfold fetch
      split
      · rename_i junk hfail
        refine ⟨nofun, fun _ => ⟨[], ⟨0, sector index, BITMAP_BUFFER_SIZE, .READ⟩, rfl, rfl, ?_⟩⟩
        rw [List.length_nil, Nat.add_zero, hfail]
        exact nofun
      · rename_i hok
        refine ⟨fun _ => ⟨[⟨0, sector index, BITMAP_BUFFER_SIZE, .READ⟩], rfl, ?_⟩, nofun⟩
        intro k x hx _
        cases k with
        | zero => exact hok
        | succ k => cases hx
    have hwrite : ∀ words, Loads s (s.write s.victim words) := by
      intro words
      refine ⟨[⟨0, sector (s.pfsBitmapData s.victim).index, BITMAP_BUFFER_SIZE, .WRITE⟩], rfl, ?_⟩
      intro k x hx hmode
      cases k with
      | zero =>
        cases hx
        cases hmode
      | succ k => cases hx
    rw [pfsBitmapRead_miss hheld]
    split
    · rename_i hdirty
      split
      · rename_i junk hfail
        refine ⟨fun _ => hwrite junk, fun _ hnot => absurd ⟨hdirty, ?_⟩ hnot⟩
        rw [hfail]
        exact nofun
      · rename_i hok
        have hclean : Loads s ((s.write s.victim (s.pfsBitmapData s.victim).bitmap).clean s.victim) := hwrite (s.pfsBitmapData s.victim).bitmap
        have hnot : ¬ s.WriteFails := fun hfails => hfails.2 hok
        constructor
        · intro hor
          exact hclean.trans rfl ((hfetch _ _).1 (hor.resolve_right hnot))
        · intro hnone _
          exact hclean.spoils rfl ((hfetch _ _).2 hnone)
    · rename_i hclean
      have hnot : ¬ s.WriteFails := fun hfails => hclean hfails.1
      exact ⟨fun hor => (hfetch s _).1 (hor.resolve_right hnot), fun hnone _ => (hfetch s _).2 hnone⟩

/-! ### The loop over pages -/

/-- How the loop ends: every bit was clear and is set; a page could not be written, or not be loaded; or a bit was set already. -/
inductive Ends (P : Nat → Prop) (s : Scratch) (F : Nat → Page) (a remaining : Nat) : Int → Scratch → Prop
  | done {t : Scratch} : Unmarked F a remaining → Faithful P t (mark F a remaining) →
      (∀ j, (t.pfsBitmapData j).nused = (s.pfsBitmapData j).nused) → t.failure = s.failure → Loads s t →
      Ends P s F a remaining 0 t
  | unwritten {t : Scratch} (n : Nat) : n < remaining → Unmarked F a n → Faithful P t (mark F a n) →
      (∀ j, (t.pfsBitmapData j).nused = (s.pfsBitmapData j).nused) → t.failure = s.failure → Loads s t →
      Ends P s F a remaining (-5) t
  | unread {t : Scratch} (j : Nat) : Entry j → (t.pfsBitmapData j).nused ≠ (s.pfsBitmapData j).nused → Spoils s t →
      Ends P s F a remaining (-5) t
  | overlapped {t : Scratch} (n j : Nat) : n < remaining → bitAt F (a + n) = true → Entry j →
      (t.pfsBitmapData j).nused ≠ (s.pfsBitmapData j).nused → Ends P s F a remaining 1 t

/-- The loop after a page that was taken up to its end. -/
theorem Ends.append {r : Int} (h : Ends P u (mark F a m) (a + m) n r t) (hclear : Unmarked F a m)
    (hnused : ∀ j, (u.pfsBitmapData j).nused = (s.pfsBitmapData j).nused) (hfailure : u.failure = s.failure)
    (hloads : Loads s u) : Ends P s F a (m + n) r t := by
  cases h with
  | done hrest hfaithful hsame hfail hload =>
    rw [mark_mark] at hfaithful
    exact .done (hclear.append hrest) hfaithful (fun j => (hsame j).trans (hnused j)) (hfail.trans hfailure)
      (hloads.trans hfailure hload)
  | unwritten k hk hrest hfaithful hsame hfail hload =>
    rw [mark_mark] at hfaithful
    exact .unwritten (m + k) (by omega) (hclear.append hrest) hfaithful (fun j => (hsame j).trans (hnused j))
      (hfail.trans hfailure) (hloads.trans hfailure hload)
  | unread j hj hchanged hspoils =>
    exact .unread j hj (fun heq => hchanged (heq.trans (hnused j).symm)) (hloads.spoils hfailure hspoils)
  | overlapped k j hk hset hj hchanged =>
    refine .overlapped (m + k) j (by omega) ?_ hj fun heq => hchanged (heq.trans (hnused j).symm)
    have hnot : ¬ (a ≤ a + m + k ∧ a + m + k < a + m) := by omega
    rwa [bitAt_mark, decide_eq_false hnot, Bool.or_false, Nat.add_assoc] at hset

theorem Free.congr (h : s.Free) (hnused : ∀ j, (t.pfsBitmapData j).nused = (s.pfsBitmapData j).nused) : t.Free := by
  obtain ⟨i, hi, hfree⟩ := h
  exact ⟨i, hi, (hnused i).trans hfree⟩

theorem Countable.congr (h : s.Countable) (hnused : ∀ j, (t.pfsBitmapData j).nused = (s.pfsBitmapData j).nused) :
    t.Countable := by
  intro i hi
  rw [hnused]
  exact h i hi

private theorem checkZonesLoop_ends {startBit : Nat} (hbit : startBit < 32) (h : Faithful P s F) (hfree : s.Free)
    (hcount : s.Countable) (hzone : zone < 2 ^ 15)
    (hpages : ∀ z, index * 2 ^ 20 + zone * 2 ^ 5 + startBit ≤ z →
      z < index * 2 ^ 20 + zone * 2 ^ 5 + startBit + remaining → P (z / 2 ^ 20)) :
    Ends P s F (index * 2 ^ 20 + zone * 2 ^ 5 + startBit) remaining
      (checkZonesLoop index zone startBit remaining hbit s).1 (checkZonesLoop index zone startBit remaining hbit s).2 := by
  induction remaining using Nat.strongRecOn generalizing index zone startBit s F with
  | ind remaining ih =>
    rw [checkZonesLoop]
    by_cases hremaining : remaining = 0
    · rw [dif_pos hremaining, hremaining]
      refine .done (Unmarked.zero F _) ?_ (fun _ => rfl) rfl (Loads.of_eq rfl)
      rw [mark_zero]
      exact h
    · rw [dif_neg hremaining]
      have hindex : P index := by
        have hpage := hpages _ (Nat.le_refl _) (Nat.lt_add_of_pos_right (Nat.pos_of_ne_zero hremaining))
        have heq : (index * 2 ^ 20 + zone * 2 ^ 5 + startBit) / 2 ^ 20 = index := by omega
        rwa [heq] at hpage
      obtain ⟨l, hl⟩ := h.sound
      have hring := hfree.ring hl.toBalanced
      have hlog := read_loads hl index
      have hread := hl.read h.serves hindex (h.small index hindex) hring (fun _ => hcount) (Prod.eta _).symm
      generalize s.pfsBitmapRead index = q at hread hlog ⊢
      obtain ⟨result, t⟩ := q
      rcases hread with ⟨i, rfl, hgot⟩ | ⟨rfl, hfails, hgot⟩ | ⟨rfl, hnot, hused, -⟩
      · have hloads : Loads s t := hlog.1 (.inl rfl)
        have hholding : Holding P t F i index := ⟨hgot.faithful h, hgot.entry, hgot.index, hindex⟩
        obtain ⟨n, hn⟩ := hholding.markPage remaining
          (show zone + (2 ^ 15 - 1 - zone + 1) = 2 ^ 15 by omega) hbit
        simp only
        split
        · rename_i u heq
          rw [heq] at hn
          obtain ⟨hlt, hset⟩ := hn.overlapped rfl
          refine .overlapped n i hlt hset hgot.entry ?_
          rw [hn.kept.nused, hgot.nused, if_pos rfl]
          exact Nat.succ_ne_self _
        · rename_i rest u heq
          have hlt := markPage_lt hbit hremaining heq
          rw [heq] at hn
          obtain ⟨hsum, hend⟩ := hn.next rest rfl
          obtain ⟨hfreed, hnused, hfailure, htransfers⟩ := hgot.given_back hn.holding.faithful hn.kept
          have hall : Loads s (u.pfsBitmapFree i) := hloads.trans hgot.failure (Loads.of_eq htransfers)
          have hnext : Ends P (u.pfsBitmapFree i) (mark F (index * 2 ^ 20 + zone * 2 ^ 5 + startBit) n)
              (index * 2 ^ 20 + zone * 2 ^ 5 + startBit + n) rest
              (checkZonesLoop (index + 1) 0 0 rest (by decide) (u.pfsBitmapFree i)).1
              (checkZonesLoop (index + 1) 0 0 rest (by decide) (u.pfsBitmapFree i)).2 := by
            by_cases hrest : rest = 0
            · subst hrest
              rw [checkZonesLoop, dif_pos rfl]
              refine .done (Unmarked.zero _ _) ?_ (fun _ => rfl) rfl (Loads.of_eq rfl)
              rw [mark_zero]
              exact hfreed
            · have hfull := hend.resolve_left hrest
              have ha : index * 2 ^ 20 + zone * 2 ^ 5 + startBit + n = (index + 1) * 2 ^ 20 + 0 * 2 ^ 5 + 0 := by omega
              rw [ha]
              apply ih rest hlt (by decide) hfreed (hfree.congr hnused) (hcount.congr hnused) (by decide)
              intro z hz hzlt
              rw [← ha] at hz hzlt
              refine hpages z (Nat.le_trans (Nat.le_add_right _ n) hz) (Nat.lt_of_lt_of_eq hzlt ?_)
              rw [Nat.add_assoc, Nat.add_comm n rest, hsum]
          have hends := hnext.append hn.clear hnused hfailure hall
          rwa [Nat.add_comm n rest, hsum] at hends
      · refine .unwritten 0 (Nat.pos_of_ne_zero hremaining) (Unmarked.zero F _) ?_ hgot.nused hgot.failure (hlog.1 (.inr hfails))
        rw [mark_zero]
        exact hgot.faithful h
      · have hmem : s.victim ∈ l := by
          obtain ⟨i, l, rfl⟩ := List.exists_cons_of_ne_nil hring
          have hvictim : s.victim = i := hl.ring.next_root
          rw [hvictim]
          exact List.mem_cons_self
        have hvictim := (hl.mem _).mp hmem
        refine .unread s.victim hvictim.1 ?_ (hlog.2 rfl hnot)
        rw [hvictim.2]
        intro hzero
        exact absurd (hused.symm.trans hzero) (by decide)

/-! ### A call -/

/-- What a call is to do: it says 1 exactly if a bit of the run was set, leaves all other bits as they are, has set the bits of the run if it says 0, and has given back every page it obtained. -/
structure Reports (P : Nat → Prop) (s : Scratch) (number size : Nat) (r : Int) (t : Scratch) : Prop where
  result : r = 1 ↔ ∃ z, number ≤ z ∧ z < number + size ∧ bitAt s.page z = true
  outside : ∀ z, P (z / 2 ^ 20) → ¬ (number ≤ z ∧ z < number + size) → bitAt t.page z = bitAt s.page z
  free : r = 0 → ∀ z, number ≤ z → z < number + size → bitAt s.page z = false ∧ bitAt t.page z = true
  released : ∀ i, Entry i → (t.pfsBitmapData i).nused = (s.pfsBitmapData i).nused
  balanced : ∃ l, Balanced t l

variable {number size : Nat}

theorem fsckCheckZones_ends (number size : Nat) (h : Faithful P s F) (hfree : s.Free) (hcount : s.Countable)
    (hpages : ∀ z, number ≤ z → z < number + size → P (z / 2 ^ 20)) :
    Ends P s F number size (fsckCheckZones number size s).1 (fsckCheckZones number size s).2 := by
  have ha : number / 2 ^ 20 * 2 ^ 20 + number / 2 ^ 5 % 2 ^ 15 * 2 ^ 5 + number % 2 ^ 5 = number := by omega
  have hends : Ends P s F (number / 2 ^ 20 * 2 ^ 20 + number / 2 ^ 5 % 2 ^ 15 * 2 ^ 5 + number % 2 ^ 5) size
      (fsckCheckZones number size s).1 (fsckCheckZones number size s).2 :=
    checkZonesLoop_ends (show number % 2 ^ 5 < 32 from Nat.mod_lt number (by decide)) h hfree hcount (Nat.mod_lt _ (by decide)) (by rw [ha]; exact hpages)
  rw [ha] at hends
  exact hends

theorem Faithful.bitAt (h : Faithful P s F) {z : Nat} (hz : P (z / 2 ^ 20)) : bitAt s.page z = bitAt F z := by
  rw [Scratch.bitAt, Scratch.bitAt, h.page _ hz]

/-- A call does what it is to do exactly if no bit of the run was set and every page that had to be loaded was loaded. -/
theorem reports_iff (h : Sound s l) (hs : s.Serves P) (hsmall : ∀ k, P k → k < 2 ^ 24) (hfree : s.Free)
    (hcount : s.Countable) (hpages : ∀ z, number ≤ z → z < number + size → P (z / 2 ^ 20)) :
    Reports P s number size (fsckCheckZones number size s).1 (fsckCheckZones number size s).2 ↔
      Unmarked s.page number size ∧ Loads s (fsckCheckZones number size s).2 := by
  have hfaithful : Faithful P s s.page := ⟨⟨l, h⟩, hs, fun _ _ => rfl, hsmall⟩
  have hends := fsckCheckZones_ends number size hfaithful hfree hcount hpages
  generalize fsckCheckZones number size s = q at hends ⊢
  obtain ⟨r, t⟩ := q
  have hnone : Unmarked s.page number size →
      ¬ ∃ z, number ≤ z ∧ z < number + size ∧ bitAt s.page z = true := by
    rintro hclear ⟨z, hz, hlt, hset⟩
    exact absurd (hset.symm.trans (hclear z hz hlt)) (by decide)
  have hsome : r ≠ 1 → Reports P s number size r t → Unmarked s.page number size := by
    intro hr hreports z hz hlt
    apply Bool.eq_false_iff.mpr
    intro hset
    exact hr (hreports.result.mpr ⟨z, hz, hlt, hset⟩)
  cases hends with
  | done hclear ht hnused hfailure hloads =>
    refine ⟨fun _ => ⟨hclear, hloads⟩, fun _ => ⟨?_, ?_, ?_, fun i _ => hnused i, ?_⟩⟩
    · exact ⟨nofun, fun hset => absurd hset (hnone hclear)⟩
    · intro z hz hout
      rw [ht.bitAt hz, bitAt_mark, decide_eq_false hout, Bool.or_false]
    · intro _ z hz hlt
      refine ⟨hclear z hz hlt, ?_⟩
      rw [ht.bitAt (hpages z hz hlt), bitAt_mark, decide_eq_true ⟨hz, hlt⟩, Bool.or_true]
    · obtain ⟨lt, hlt⟩ := ht.sound
      exact ⟨lt, hlt.toBalanced⟩
  | unwritten n hn hclear ht hnused hfailure hloads =>
    refine ⟨fun hreports => ⟨hsome (by decide) hreports, hloads⟩, fun hboth => ⟨?_, ?_, nofun, fun i _ => hnused i, ?_⟩⟩
    · exact ⟨nofun, fun hset => absurd hset (hnone hboth.1)⟩
    · intro z hz hout
      have hout' : ¬ (number ≤ z ∧ z < number + n) := by omega
      rw [ht.bitAt hz, bitAt_mark, decide_eq_false hout', Bool.or_false]
    · obtain ⟨lt, hlt⟩ := ht.sound
      exact ⟨lt, hlt.toBalanced⟩
  | unread j hj hchanged hspoils =>
    exact ⟨fun hreports => absurd (hreports.released j hj) hchanged, fun hboth => absurd hboth.2 hspoils.not_loads⟩
  | overlapped n j hn hset hj hchanged =>
    refine ⟨fun hreports => absurd (hreports.released j hj) hchanged, fun hboth => ?_⟩
    have hclear := hboth.1 (number + n) (Nat.le_add_right number n) (by omega)
    exact absurd (hset.symm.trans hclear) (by decide)

/-! ### Sessions -/

/-- Sessions one after the other, in which no bit is marked that was marked before and every page that has to be loaded is loaded. -/
inductive Sessions (mbr : Nat → Page) (failure : Nat → Option Page) : Scratch → Prop
  | init (size : Nat) : size < 2 ^ 32 → Sessions mbr failure ((pfsBitmapInit mbr failure).pfsBitmapPartInit size).2
  | partInit {s : Scratch} (size : Nat) : size < 2 ^ 32 → Sessions mbr failure s →
      Sessions mbr failure (s.pfsBitmapPartInit size).2
  | zones {s : Scratch} (P : Nat → Prop) (number size : Nat) : Sessions mbr failure s → s.Serves P →
      (∀ k, P k → k < 2 ^ 24) → (∀ z, number ≤ z → z < number + size → P (z / 2 ^ 20)) →
      Unmarked s.page number size → Loads s (fsckCheckZones number size s).2 →
      Sessions mbr failure (fsckCheckZones number size s).2
  | entry {s : Scratch} (index : Nat) : Sessions mbr failure s → s.Serves (· = index / 2 ^ 20) → index < 2 ^ 32 →
      Loads s (s.pfsGetBitmapEntry index).2 → Sessions mbr failure (s.pfsGetBitmapEntry index).2

/-- A session between two calls: no entry is in use. -/
def Quiet (s : Scratch) : Prop := (∃ l, Sound s l) ∧ ∀ i, Entry i → (s.pfsBitmapData i).nused = 0

theorem Quiet.idle (h : s.Quiet) : ∃ l, s.Idle l := by
  obtain ⟨⟨l, hl⟩, hnused⟩ := h
  exact ⟨l, hl.toBalanced, hnused⟩

theorem Quiet.free (h : s.Quiet) : s.Free := ⟨1, by decide, h.2 1 (by decide)⟩

theorem Quiet.countable (h : s.Quiet) : s.Countable := by
  intro i hi
  rw [h.2 i hi]
  decide

private theorem transfer_frame (s : Scratch) (i : Nat) (mode : IoMode) (j : Nat) :
    ((s.pfsBitmapTransfer i mode).2.pfsBitmapData j).next = (s.pfsBitmapData j).next ∧
    ((s.pfsBitmapTransfer i mode).2.pfsBitmapData j).prev = (s.pfsBitmapData j).prev ∧
    ((s.pfsBitmapTransfer i mode).2.pfsBitmapData j).nused = (s.pfsBitmapData j).nused ∧
    ((s.pfsBitmapTransfer i mode).2.pfsBitmapData j).index = (s.pfsBitmapData j).index := by
  unfold pfsBitmapTransfer
  by_cases hj : j = i
  · subst hj
    cases mode <;> cases s.failure s.transfers.length <;> simp [modify]
  · cases mode <;> cases s.failure s.transfers.length <;> simp [modify, hj]

/-- What comes of a page once its entry is labelled. -/
def afterPage (i : Nat) (pages : List (Nat × Option Nat)) (u : Scratch) : Bool × Scratch :=
  if (u.pfsBitmapTransfer i .WRITE).1 then writePages pages (u.pfsBitmapTransfer i .WRITE).2
  else (false, (u.pfsBitmapTransfer i .WRITE).2)

private theorem writePages_none (i : Nat) (pages : List (Nat × Option Nat)) (s : Scratch) :
    writePages ((i, none) :: pages) s = afterPage i pages s := by
  rw [writePages, afterPage]
  generalize s.pfsBitmapTransfer i .WRITE = q
  obtain ⟨ok, v⟩ := q
  cases ok with
  | false => rfl
  | true => rfl

private theorem writePages_some (i k : Nat) (pages : List (Nat × Option Nat)) (s : Scratch) :
    writePages ((i, some k) :: pages) s = afterPage i pages (s.modify i fun e => { e with index := k }) := by
  rw [writePages, afterPage]
  generalize (s.modify i fun e => { e with index := k }).pfsBitmapTransfer i .WRITE = q
  obtain ⟨ok, v⟩ := q
  cases ok with
  | false => rfl
  | true => rfl

/-- The transfers of `pfsBitmapPartInit` change no more than the labels of entries. -/
private theorem writePages_frame (pages : List (Nat × Option Nat)) (s : Scratch) (j : Nat) :
    ((writePages pages s).2.pfsBitmapData j).next = (s.pfsBitmapData j).next ∧
    ((writePages pages s).2.pfsBitmapData j).prev = (s.pfsBitmapData j).prev ∧
    ((writePages pages s).2.pfsBitmapData j).nused = (s.pfsBitmapData j).nused ∧
    (((writePages pages s).2.pfsBitmapData j).index = (s.pfsBitmapData j).index ∨
      ∃ k, (j, some k) ∈ pages ∧ ((writePages pages s).2.pfsBitmapData j).index = k) := by
  induction pages generalizing s with
  | nil => exact ⟨rfl, rfl, rfl, .inl rfl⟩
  | cons page pages ih =>
    obtain ⟨i, index⟩ := page
    have hlabel : ∃ u : Scratch, writePages ((i, index) :: pages) s = afterPage i pages u ∧
        (u.pfsBitmapData j).next = (s.pfsBitmapData j).next ∧ (u.pfsBitmapData j).prev = (s.pfsBitmapData j).prev ∧
        (u.pfsBitmapData j).nused = (s.pfsBitmapData j).nused ∧
        ((u.pfsBitmapData j).index = (s.pfsBitmapData j).index ∨ ∃ k, j = i ∧ index = some k ∧ (u.pfsBitmapData j).index = k) := by
      cases index with
      | none => exact ⟨s, writePages_none i pages s, rfl, rfl, rfl, .inl rfl⟩
      | some k =>
        refine ⟨s.modify i fun e => { e with index := k }, writePages_some i k pages s, ?_⟩
        rw [modify_data]
        by_cases hj : j = i
        · rw [if_pos hj, hj]
          exact ⟨rfl, rfl, rfl, .inr ⟨k, rfl, rfl, rfl⟩⟩
        · rw [if_neg hj]
          exact ⟨rfl, rfl, rfl, .inl rfl⟩
    obtain ⟨u, hu, hnext, hprev, hnused, hindex⟩ := hlabel
    obtain ⟨tnext, tprev, tnused, tindex⟩ := transfer_frame u i .WRITE j
    have hhere : ∀ v : Scratch, (v.pfsBitmapData j).index = (u.pfsBitmapData j).index →
        (v.pfsBitmapData j).index = (s.pfsBitmapData j).index ∨
          ∃ k, (j, some k) ∈ (i, index) :: pages ∧ (v.pfsBitmapData j).index = k := by
      intro v hv
      rcases hindex with hsame | ⟨k, rfl, rfl, hk⟩
      · exact .inl (hv.trans hsame)
      · exact .inr ⟨k, List.mem_cons_self, hv.trans hk⟩
    rw [hu, afterPage]
    generalize u.pfsBitmapTransfer i .WRITE = q at tnext tprev tnused tindex ⊢
    obtain ⟨ok, v⟩ := q
    cases ok with
    | false => exact ⟨tnext.trans hnext, tprev.trans hprev, tnused.trans hnused, hhere v tindex⟩
    | true =>
      obtain ⟨rnext, rprev, rnused, rindex⟩ := ih v
      refine ⟨rnext.trans (tnext.trans hnext), rprev.trans (tprev.trans hprev), rnused.trans (tnused.trans hnused), ?_⟩
      rcases rindex with hsame | ⟨k, hk, heq⟩
      · exact hhere _ (hsame.trans tindex)
      · exact .inr ⟨k, List.mem_cons_of_mem _ hk, heq⟩

/-- A session begins, whatever comes of its transfers. -/
theorem Idle.partInit (h : s.Idle l) (hsize : size < 2 ^ 32) : (s.pfsBitmapPartInit size).2.Quiet := by
  have hclear : s.clear.Quiet := by
    refine ⟨⟨l, h.clear⟩, ?_⟩
    intro i hi
    rw [clear_data, if_pos hi]
  rw [pfsBitmapPartInit]
  split
  · rename_i hcount
    have hbound : bitmapCount size ≤ 2 ^ 12 := le_trans (bitmapCount_bounds size).1 (pageCount_lt hsize)
    have hframe := writePages_frame ((List.range' 1 (NUM_BITMAP_ENTRIES - 1)).map (fun i => (i, none)) ++
      (List.range' (NUM_BITMAP_ENTRIES - 1) (bitmapCount size - (NUM_BITMAP_ENTRIES - 1))).map
        fun i => (NUM_BITMAP_ENTRIES - 1, some i)) s.clear
    generalize (writePages ((List.range' 1 (NUM_BITMAP_ENTRIES - 1)).map (fun i => (i, none)) ++
      (List.range' (NUM_BITMAP_ENTRIES - 1) (bitmapCount size - (NUM_BITMAP_ENTRIES - 1))).map
        fun i => (NUM_BITMAP_ENTRIES - 1, some i)) s.clear).2 = t at hframe ⊢
    -- an entry holds its own page, or the last entry a page from the fifth on
    have hindex : ∀ j, Entry j → (t.pfsBitmapData j).index = j - 1 ∨
        j = 4 ∧ 4 ≤ (t.pfsBitmapData j).index ∧ (t.pfsBitmapData j).index < 2 ^ 24 := by
      intro j hj
      rcases (hframe j).2.2.2 with hsame | ⟨k, hk, heq⟩
      · left
        rw [hsame, clear_data, if_pos hj]
      · right
        rcases List.mem_append.mp hk with hk | hk
        · obtain ⟨i, -, hi⟩ := List.mem_map.mp hk
          cases hi
        · obtain ⟨i, hi, hik⟩ := List.mem_map.mp hk
          cases hik
          rw [List.mem_range'_1] at hi
          rw [heq]
          simp only [NUM_BITMAP_ENTRIES] at hi
          exact ⟨rfl, hi.1, by omega⟩
    have hnused : ∀ j, Entry j → (t.pfsBitmapData j).nused = 0 := by
      intro j hj
      rw [(hframe j).2.2.1]
      exact hclear.2 j hj
    refine ⟨⟨l, h.labelled ?_ ?_ hnused ?_ ?_⟩, hnused⟩
    · intro j
      rw [(hframe j).1, clear_data]
      split <;> rfl
    · intro j
      rw [(hframe j).2.1, clear_data]
      split <;> rfl
    · intro j hj
      have hlt : j < 5 := hj.2
      rcases hindex j hj with heq | ⟨-, -, hsmall⟩
      · omega
      · exact hsmall
    · intro i j hi hj heq
      have hi1 := hi.1
      have hj1 := hj.1
      have hi5 : i < 5 := hi.2
      have hj5 : j < 5 := hj.2
      rcases hindex i hi with hii | ⟨hii, hi4, -⟩ <;> rcases hindex j hj with hjj | ⟨hjj, hj4, -⟩ <;> omega
  · exact hclear

theorem Quiet.zones (h : s.Quiet) (hs : s.Serves P) (hsmall : ∀ k, P k → k < 2 ^ 24)
    (hpages : ∀ z, number ≤ z → z < number + size → P (z / 2 ^ 20)) (hclear : Unmarked s.page number size)
    (hloads : Loads s (fsckCheckZones number size s).2) : (fsckCheckZones number size s).2.Quiet := by
  obtain ⟨l, hl⟩ := h.1
  have hends := fsckCheckZones_ends _ _ (F := s.page) ⟨⟨l, hl⟩, hs, fun _ _ => rfl, hsmall⟩ h.free h.countable hpages
  generalize fsckCheckZones number size s = q at hends hloads ⊢
  obtain ⟨r, t⟩ := q
  cases hends with
  | done _ ht hnused _ _ => exact ⟨ht.sound, fun i hi => (hnused i).trans (h.2 i hi)⟩
  | unwritten n _ _ ht hnused _ _ => exact ⟨ht.sound, fun i hi => (hnused i).trans (h.2 i hi)⟩
  | unread j _ _ hspoils => exact absurd hloads hspoils.not_loads
  | overlapped n j hn hset _ _ =>
    have hnot := hclear (number + n) (Nat.le_add_right number n) (by omega)
    exact absurd (hset.symm.trans hnot) (by decide)

theorem Quiet.entry (h : s.Quiet) (hs : s.Serves (· = index / 2 ^ 20)) (hindex : index < 2 ^ 32)
    (hloads : Loads s (s.pfsGetBitmapEntry index).2) : (s.pfsGetBitmapEntry index).2.Quiet := by
  obtain ⟨l, hl⟩ := h.1
  have hlog := read_loads hl (index / 2 ^ 20)
  have hread := hl.read hs rfl (by omega) (h.free.ring hl.toBalanced) (fun _ => h.countable) (Prod.eta _).symm
  rw [pfsGetBitmapEntry] at hloads ⊢
  generalize s.pfsBitmapRead (index / 2 ^ 20) = q at hread hlog hloads ⊢
  obtain ⟨result, t⟩ := q
  rcases hread with ⟨i, rfl, hgot⟩ | ⟨rfl, hfails, hgot⟩ | ⟨rfl, hnot, -⟩
  · have ht : Faithful (· = index / 2 ^ 20) t t.page := by
      refine ⟨hgot.sound, hgot.serves, fun _ _ => rfl, ?_⟩
      rintro k rfl
      omega
    obtain ⟨hfreed, hnused, -⟩ := hgot.given_back ht (Kept.refl t)
    exact ⟨hfreed.sound, fun j hj => (hnused j).trans (h.2 j hj)⟩
  · exact ⟨hgot.sound, fun i hi => (hgot.nused i).trans (h.2 i hi)⟩
  · exact absurd hloads (hlog.2 rfl hnot).not_loads

theorem Sessions.quiet {mbr : Nat → Page} {failure : Nat → Option Page} (h : Sessions mbr failure s) : s.Quiet := by
  induction h with
  | init size hsize => exact (idle_pfsBitmapInit mbr failure).partInit hsize
  | partInit size hsize h ih =>
    obtain ⟨l, hl⟩ := ih.idle
    exact hl.partInit hsize
  | zones P number size h hs hsmall hpages hclear hloads ih => exact ih.zones hs hsmall hpages hclear hloads
  | entry index h hs hindex hloads ih => exact ih.entry hs hindex hloads

/-- `fsckCheckZones` in every state of the cache in which an entry is free: a call reports correctly and gives back all it obtained exactly if no bit of its run was set and every page it needed was loaded. Over sessions of such calls each entry is on the ring exactly while nobody uses it. -/
theorem fsckCheckZones_reports_iff (h : Sound s l) (hs : s.Serves P) (hsmall : ∀ k, P k → k < 2 ^ 24) (hfree : s.Free)
    (hcount : s.Countable) (hpages : ∀ z, number ≤ z → z < number + size → P (z / 2 ^ 20)) :
    (Reports P s number size (fsckCheckZones number size s).1 (fsckCheckZones number size s).2 ↔
      Unmarked s.page number size ∧ Loads s (fsckCheckZones number size s).2) ∧
    ∀ (mbr : Nat → Page) (failure : Nat → Option Page) (t : Scratch), Sessions mbr failure t → ∃ l, Balanced t l := by
  refine ⟨reports_iff h hs hsmall hfree hcount hpages, ?_⟩
  intro mbr failure t ht
  obtain ⟨l, hl⟩ := ht.quiet.1
  exact ⟨l, hl.toBalanced⟩

private theorem fresh_unmarked (failure : Nat → Option Page) (number size : Nat) (hsize : number + size ≤ 2 ^ 22) :
    Unmarked (fresh failure).page number size := by
  intro z _ hlt
  have hentry : Entry (z / 2 ^ 20 + 1) :=
    ⟨Nat.le_add_left _ _, (by omega : z / 2 ^ 20 + 1 < 5)⟩
  have hlabel : ((fresh failure).pfsBitmapData (z / 2 ^ 20 + 1)).index = z / 2 ^ 20 := by
    rw [clear_data, if_pos hentry]
    exact Nat.add_sub_cancel _ 1
  have hpage := (fresh_sound failure).page_held hentry
  rw [hlabel] at hpage
  rw [bitAt, hpage, clear_data, if_pos hentry]

/-- Three zones of a filesystem of one page, in the first session. -/
theorem fsckCheckZones_reports_three :
    Reports (· < 2 ^ 24) (fresh fun _ => none) 5 3 (fsckCheckZones 5 3 (fresh fun _ => none)).1
      (fsckCheckZones 5 3 (fresh fun _ => none)).2 ∧ ∃ l, Balanced (fresh fun _ => none) l := by
  have hstart : Sessions (fun _ => blank) (fun _ => none) (fresh fun _ => none) := by
    have hinit : Sessions (fun _ => blank) (fun _ => none) _ := Sessions.init (2 ^ 20) (by decide)
    rwa [pfsBitmapPartInit, if_neg (by decide)] at hinit
  have hloads : Loads (fresh fun _ => none) (fsckCheckZones 5 3 (fresh fun _ => none)).2 :=
    ⟨(fsckCheckZones 5 3 (fresh fun _ => none)).2.transfers, rfl, fun _ _ _ _ => rfl⟩
  have hpages : ∀ z, 5 ≤ z → z < 5 + 3 → z / 2 ^ 20 < 2 ^ 24 := by
    intro z _ hlt
    omega
  have hboth := fsckCheckZones_reports_iff (P := (· < 2 ^ 24)) (fresh_sound fun _ => none) (.inl (fresh_backed _))
    (fun _ hk => hk) ⟨1, by decide, rfl⟩ (fresh_countable _) hpages
  exact ⟨hboth.1.mpr ⟨fresh_unmarked _ 5 3 (by decide), hloads⟩, hboth.2 _ _ _ hstart⟩

/-- A zone that is marked already: the page it is on is not given back. -/
theorem fsckCheckZones_not_reports : ¬ ∀ (P : Nat → Prop) (s : Scratch) (l : List Nat) (number size : Nat),
    Sound s l → s.Serves P → (∀ k, P k → k < 2 ^ 24) → s.Free → s.Countable →
    (∀ z, number ≤ z → z < number + size → P (z / 2 ^ 20)) →
    Reports P s number size (fsckCheckZones number size s).1 (fsckCheckZones number size s).2 := by
  intro h
  have hsound := (fresh_sound fun _ => none).store 1 0 fun _ => true
  have hserves : ((fresh fun _ => none).store 1 0 fun _ => true).Serves (· < 1) := by
    refine Serves.store (.inr ?_) 1 0 _
    intro k hk
    refine ⟨1, by decide, ?_⟩
    rw [clear_data, if_pos (by decide)]
    exact (Nat.lt_one_iff.mp hk).symm
  have hcount : ((fresh fun _ => none).store 1 0 fun _ => true).Countable := by
    intro i hi
    rw [store_data]
    exact fresh_countable _ i hi
  have hreports := h (· < 1) _ _ 0 1 hsound hserves (fun k hk => lt_trans hk (by decide)) ⟨1, by decide, rfl⟩ hcount
    (fun z _ hlt => by omega)
  have hreleased := hreports.released 1 (by decide)
  have hends := fsckCheckZones_ends 0 1 (P := (· < 1)) (F := ((fresh fun _ => none).store 1 0 fun _ => true).page)
    ⟨⟨_, hsound⟩, hserves, fun _ _ => rfl, fun k hk => lt_trans hk (by decide)⟩
    ⟨1, by decide, rfl⟩ hcount (fun z _ hlt => by omega)
  have hset : bitAt ((fresh fun _ => none).store 1 0 fun _ => true).page 0 = true := by decide
  have hresult := hreports.result.mpr ⟨0, Nat.le_refl _, by decide, hset⟩
  generalize fsckCheckZones 0 1 ((fresh fun _ => none).store 1 0 fun _ => true) = q at hreports hends hresult
  obtain ⟨r, t⟩ := q
  simp only at hresult
  subst hresult
  cases hends with
  | overlapped n j hn hset hj hchanged => exact hchanged (hreports.released j hj)

end Scratch

end HddChecker.Fsck
