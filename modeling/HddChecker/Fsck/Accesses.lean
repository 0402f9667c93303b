import HddChecker.Fsck.Pages

/-!
# What is read from the scratch bitmap

A user of the scratch bitmap reads pages, stores words in the entries he was given and gives the entries back. Over any sequence of these the pages are one array of words: what is read is what was stored last.
-/

namespace HddChecker.Fsck

namespace Scratch

variable {s t u : Scratch} {l : List Nat} {i index : Nat} {P : Nat → Prop} {F G : Nat → Page}

/-- A word is stored in an entry. -/
def store (i zone : Nat) (word : Nat → Bool) (s : Scratch) : Scratch :=
  s.modify i fun e => { e with isDirty := true, bitmap := Function.update e.bitmap zone word }

/-- An entry that nobody uses is left. -/
def Free (s : Scratch) : Prop := ∃ i, Entry i ∧ (s.pfsBitmapData i).nused = 0

/-- The accesses to the pages `P`, and what an array of pages would hold after the same accesses. An access is made while an entry is free and its use count can be raised, and no page fails to be loaded. -/
inductive Accesses (P : Nat → Prop) (s : Scratch) (F : Nat → Page) : Scratch → (Nat → Page) → Prop
  | start : Accesses P s F s F
  | read {t u : Scratch} {G : Nat → Page} {index : Nat} {result : Option Nat} : Accesses P s F t G → P index →
      t.Free → t.Countable → t.pfsBitmapRead index = (result, u) → (result = none → t.WriteFails) →
      Accesses P s F u G
  | store {t : Scratch} {G : Nat → Page} {i : Nat} (zone : Nat) (word : Nat → Bool) : Accesses P s F t G →
      Entry i → (t.pfsBitmapData i).nused ≠ 0 →
      Accesses P s F (t.store i zone word) (Function.update G (t.pfsBitmapData i).index
        (Function.update (G (t.pfsBitmapData i).index) zone word))
  | free {t : Scratch} {G : Nat → Page} {i : Nat} : Accesses P s F t G → Entry i →
      (t.pfsBitmapData i).nused ≠ 0 → Accesses P s F (t.pfsBitmapFree i) G

/-- The cache shows the pages of the array. -/
structure Faithful (P : Nat → Prop) (s : Scratch) (F : Nat → Page) : Prop where
  sound : ∃ l, Sound s l
  serves : s.Serves P
  page : ∀ k, P k → s.page k = F k
  small : ∀ k, P k → k < 2 ^ 24

/-! ### One access -/

theorem store_data (s : Scratch) (i j zone : Nat) (word : Nat → Bool) : (s.store i zone word).pfsBitmapData j =
    { s.pfsBitmapData j with
      isDirty := if j = i then true else (s.pfsBitmapData j).isDirty
      bitmap := if j = i then Function.update (s.pfsBitmapData i).bitmap zone word else (s.pfsBitmapData j).bitmap } := by
  unfold store
  rw [modify_data]
  split
  · rename_i hj
    rw [hj]
  · rfl

theorem Sound.store (h : Sound s l) (i zone : Nat) (word : Nat → Bool) : Sound (s.store i zone word) l := by
  apply h.congr
  all_goals
    intro j
    rw [store_data]

theorem store_page (h : Sound s l) (hi : Entry i) (zone : Nat) (word : Nat → Bool) (k : Nat) :
    (s.store i zone word).page k = if k = (s.pfsBitmapData i).index then
      Function.update (s.page k) zone word else s.page k := by
  have ht := h.store i zone word
  by_cases hheld : s.Holds k
  · obtain ⟨j, hj, rfl⟩ := hheld
    have hindex : ((s.store i zone word).pfsBitmapData j).index = (s.pfsBitmapData j).index := by
      rw [store_data]
    rw [← hindex, ht.page_held hj, hindex, h.page_held hj, store_data]
    by_cases hji : j = i
    · subst hji
      simp only [if_true]
    · rw [if_neg fun heq => hji (h.distinct j i hj hi heq)]
      simp only [if_neg hji]
  · have hheld' : ¬ (s.store i zone word).Holds k := by
      simpa only [Holds, store_data] using hheld
    rw [page_not_held hheld', page_not_held hheld, if_neg fun heq => hheld ⟨i, hi, heq.symm⟩]
    rfl

theorem Serves.store (h : s.Serves P) (i zone : Nat) (word : Nat → Bool) : (s.store i zone word).Serves P := by
  rcases h with hb | hheld
  · left
    intro j hj hclean
    rw [store_data] at hclean
    by_cases hji : j = i
    · simp only [if_pos hji] at hclean
      cases hclean
    · simp only [if_neg hji] at hclean
      have hbacked := hb j hj hclean
      simp only [store_data, if_neg hji]
      exact hbacked
  · right
    intro k hk
    simpa only [Holds, store_data] using hheld k hk

theorem Faithful.store (h : Faithful P s F) (hi : Entry i) (zone : Nat) (word : Nat → Bool) :
    Faithful P (s.store i zone word) (Function.update F (s.pfsBitmapData i).index
      (Function.update (F (s.pfsBitmapData i).index) zone word)) := by
  obtain ⟨l, hl⟩ := h.sound
  refine ⟨⟨l, hl.store i zone word⟩, h.serves.store i zone word, ?_, h.small⟩
  intro k hk
  rw [store_page hl hi, h.page k hk]
  by_cases hki : k = (s.pfsBitmapData i).index
  · rw [if_pos hki, ← hki, Function.update_self]
  · rw [if_neg hki, Function.update_of_ne hki]

theorem Faithful.free (h : Faithful P s F) (hi : Entry i) : Faithful P (s.pfsBitmapFree i) F := by
  obtain ⟨l, hl⟩ := h.sound
  have hstill := free_still hl.toBalanced hi
  obtain ⟨l', hl'⟩ := hl.toBalanced.free hi
  refine ⟨⟨l', hstill.sound hl hl'⟩, h.serves.still hstill, ?_, h.small⟩
  intro k hk
  rw [hstill.page, h.page k hk]

theorem Obtained.faithful (hgot : Obtained s t P index i) (h : Faithful P s F) : Faithful P t F := by
  refine ⟨hgot.sound, hgot.serves, ?_, h.small⟩
  intro k hk
  rw [hgot.page k (h.small k hk), h.page k hk]

theorem Refused.faithful (hgot : Refused s t P) (h : Faithful P s F) : Faithful P t F := by
  refine ⟨hgot.sound, hgot.serves, ?_, h.small⟩
  intro k hk
  rw [hgot.page k (h.small k hk), h.page k hk]

theorem Free.ring (h : s.Free) (hl : Balanced s l) : l ≠ [] := by
  obtain ⟨i, hi⟩ := h
  exact List.ne_nil_of_mem ((hl.mem i).mpr hi)

theorem Obtained.bitmap (hgot : Obtained s t P index i) (h : Faithful P s F) (hindex : P index) :
    (t.pfsBitmapData i).bitmap = F index := by
  obtain ⟨l, hl⟩ := hgot.sound
  have hpage := (hgot.faithful h).page index hindex
  rwa [← hgot.index, hl.page_held hgot.entry, hgot.index] at hpage

/-! ### A sequence of accesses -/

theorem Faithful.accesses (h : Faithful P s F) (hrun : Accesses P s F t G) : Faithful P t G := by
  induction hrun with
  | start => exact h
  | @read t u G index result hrun hindex hfree hcount hread hfail ih =>
    obtain ⟨l, hl⟩ := ih.sound
    rcases hl.read ih.serves hindex (ih.small index hindex) (hfree.ring hl.toBalanced) (fun _ => hcount) hread with
      ⟨i, -, hgot⟩ | ⟨-, -, hgot⟩ | ⟨hnone, hnot, -⟩
    · exact hgot.faithful ih
    · exact hgot.faithful ih
    · exact absurd (hfail hnone) hnot
  | store zone word hrun hi hused ih => exact ih.store hi zone word
  | free hrun hi hused ih => exact ih.free hi

theorem Faithful.read (h : Faithful P s F) (hindex : P index) (hfree : s.Free) (hcount : s.Countable)
    (hread : s.pfsBitmapRead index = (some i, t)) : (t.pfsBitmapData i).bitmap = F index := by
  obtain ⟨l, hl⟩ := h.sound
  rcases hl.read h.serves hindex (h.small index hindex) (hfree.ring hl.toBalanced) (fun _ => hcount) hread with
    ⟨j, hj, hgot⟩ | ⟨hnone, -⟩ | ⟨hnone, -⟩
  · cases hj
    exact hgot.bitmap h hindex
  · cases hnone
  · cases hnone

theorem Faithful.accesses_failure (h : Faithful P s F) (hrun : Accesses P s F t G) : t.failure = s.failure := by
  induction hrun with
  | start => rfl
  | @read t u G index result hrun hindex hfree hcount hread hfail ih =>
    have ht := h.accesses hrun
    obtain ⟨l, hl⟩ := ht.sound
    rcases hl.read ht.serves hindex (ht.small index hindex) (hfree.ring hl.toBalanced) (fun _ => hcount) hread with
      ⟨i, -, hgot⟩ | ⟨-, -, hgot⟩ | ⟨hnone, hnot, -⟩
    · exact hgot.failure.trans ih
    · exact hgot.failure.trans ih
    · exact absurd (hfail hnone) hnot
  | store zone word hrun hi hused ih => exact ih
  | free hrun hi hused ih =>
    obtain ⟨l, hl⟩ := (h.accesses hrun).sound
    exact (free_still hl.toBalanced hi).failure.trans ih

theorem read_isSome (h : Sound s l) (index : Nat) (hfailure : s.failure = fun _ => none) :
    (s.pfsBitmapRead index).1.isSome = true := by
  by_cases hheld : s.Holds index
  · obtain ⟨i, hi, heq⟩ := hheld
    rw [pfsBitmapRead_hit h hi heq]
    rfl
  · have hfetch : ∀ (u : Scratch) i, u.failure = s.failure → (u.fetch i index).1.isSome = true := by
      intro u i hu
      unfold fetch
      rw [hu, hfailure]
      rfl
    rw [pfsBitmapRead_miss hheld]
    split
    · rw [hfailure]
      exact hfetch _ _ rfl
    · exact hfetch s _ rfl

/-! ### A read that fails -/

/-- All that may be asked of the cache after a read that failed: over any later accesses each entry is on the ring exactly while nobody uses it, and what is read is what was stored last. -/
def Recovers (t : Scratch) (F : Nat → Page) : Prop :=
  ∀ u G, Accesses (· < 2 ^ 24) t F u G → (∃ l, Balanced u l) ∧ ∀ index i v, index < 2 ^ 24 → u.Free →
    u.Countable → u.pfsBitmapRead index = (some i, v) → (v.pfsBitmapData i).bitmap = G index

theorem Faithful.recovers (h : Faithful (· < 2 ^ 24) s F) : Recovers s F := by
  intro u G hrun
  have hu := h.accesses hrun
  obtain ⟨l, hl⟩ := hu.sound
  refine ⟨⟨l, hl.toBalanced⟩, ?_⟩
  intro index i v hindex hfree hcount hread
  exact hu.read hindex hfree hcount hread

private theorem load_root (h : Faithful P s F) (index : Nat) (words : Page) : Faithful P (s.load 0 index words) F := by
  obtain ⟨l, hl⟩ := h.sound
  have hdata : ∀ j, Entry j → (s.load 0 index words).pfsBitmapData j = s.pfsBitmapData j := by
    intro j hj
    rw [load_data, if_neg hj.ne_zero]
  refine ⟨⟨l, ⟨hl.ring.load 0 index words, ?_⟩, ?_, ?_⟩, ?_, ?_, h.small⟩
  · intro j
    rw [hl.mem]
    constructor
    · intro hj
      rwa [hdata j hj.1]
    · intro hj
      rwa [hdata j hj.1] at hj
  · intro j hj
    rw [hdata j hj]
    exact hl.small j hj
  · intro j k hj hk heq
    rw [hdata j hj, hdata k hk] at heq
    exact hl.distinct j k hj hk heq
  · rcases h.serves with hb | hheld
    · left
      intro j hj hclean
      rw [hdata j hj] at hclean ⊢
      exact hb j hj hclean
    · right
      intro k hk
      obtain ⟨j, hj, heq⟩ := hheld k hk
      exact ⟨j, hj, by rw [hdata j hj, heq]⟩
  · intro k hk
    rw [← h.page k hk]
    apply page_congr
    · intro j hj
      rw [hdata j hj]
      exact ⟨rfl, rfl⟩
    · rfl

theorem not_recovers (h : s.Ring l) (hfree : l ≠ []) (hused : (t.pfsBitmapData s.victim).nused = 1)
    (hring : t.Ring l) : ¬ Recovers t F := by
  intro hrecovers
  obtain ⟨l', hl'⟩ := (hrecovers t _ .start).1
  have hfirst : s.victim ∈ l' := by
    obtain ⟨i, l, rfl⟩ := List.exists_cons_of_ne_nil hfree
    have hi : (t.pfsBitmapData 0).next = s.victim := hring.next_root.trans h.next_root.symm
    cases l' with
    | nil =>
      have hzero : (t.pfsBitmapData 0).next = 0 := hl'.ring.path.1
      rw [hring.next_root] at hzero
      exact absurd (hzero ▸ List.mem_cons_self) hring.root_notMem
    | cons j l' =>
      rw [← hi, hl'.ring.next_root]
      exact List.mem_cons_self
  exact absurd (hused.symm.trans ((hl'.mem _).mp hfirst).2) (by decide)

/-- A read that fails leaves the cache as it should be exactly if it was the write that failed, or if every entry was in use. -/
theorem pfsBitmapRead_recovers_iff (h : Sound s l) (hb : s.Backed) (hroot : (s.pfsBitmapData 0).isDirty = false)
    (hindex : index < 2 ^ 24) (hread : s.pfsBitmapRead index = (none, t)) : Recovers t s.page ↔ s.WriteFails ∨ ∀ i, Entry i → (s.pfsBitmapData i).nused ≠ 0 := by
  have hs : Faithful (· < 2 ^ 24) s s.page := ⟨⟨l, h⟩, .inl hb, fun _ _ => rfl, fun _ hk => hk⟩
  have hheld : ¬ s.Holds index := by
    rintro ⟨i, hi, hindex⟩
    rw [pfsBitmapRead_hit h hi hindex] at hread
    cases hread
  by_cases hfree : l = []
  · subst hfree
    have hused : ∀ i, Entry i → (s.pfsBitmapData i).nused ≠ 0 := by
      intro i hi hfree
      exact absurd ((h.mem i).mpr ⟨hi, hfree⟩) List.not_mem_nil
    have hvictim : s.victim = 0 := h.ring.path.1
    rw [pfsBitmapRead_miss hheld, hvictim, hroot, if_neg (by decide), fetch] at hread
    refine ⟨fun _ => .inr hused, fun _ => ?_⟩
    split at hread
    · cases hread
      exact (load_root hs index _).recovers
    · cases hread
  · have hsome : ¬ ∀ i, Entry i → (s.pfsBitmapData i).nused ≠ 0 := by
      intro hused
      obtain ⟨i, hi⟩ := List.exists_mem_of_ne_nil l hfree
      exact hused i ((h.mem i).mp hi).1 ((h.mem i).mp hi).2
    rcases h.read (P := (· < 2 ^ 24)) (.inl hb) hindex hindex hfree
        (fun held => absurd held hheld) hread with
      ⟨i, hsome, -⟩ | ⟨-, hfails, hgot⟩ | ⟨-, hnot, hused, hring⟩
    · cases hsome
    · exact ⟨fun _ => .inl hfails, fun _ => (hgot.faithful hs).recovers⟩
    · constructor
      · intro hrecovers
        exact absurd hrecovers (not_recovers h.ring hfree hused hring)
      · intro hor
        exact absurd hor (not_or.mpr ⟨hnot, hsome⟩)

theorem clear_backed (s : Scratch) (hblank : ∀ k < 4, s.mbr (sector k) = blank) : s.clear.Backed := by
  intro i hi _
  rw [clear_data, if_pos hi]
  have hlt := hi.2
  have hpos := hi.1
  exact (hblank (i - 1) (by simp only [NUM_BITMAP_ENTRIES] at hlt; omega)).symm

/-- The cache at the start of a session over an empty `__mbr`, where transfers fail. -/
abbrev fresh (failure : Nat → Option Page) : Scratch := (pfsBitmapInit (fun _ => blank) failure).clear

theorem fresh_sound (failure : Nat → Option Page) : Sound (fresh failure) [1, 2, 3, 4] :=
  (idle_pfsBitmapInit _ failure).clear

theorem fresh_backed (failure : Nat → Option Page) : (fresh failure).Backed :=
  clear_backed _ fun _ _ => rfl

theorem fresh_countable (failure : Nat → Option Page) : (fresh failure).Countable := by
  intro i hi
  rw [clear_data, if_pos hi]
  exact (by decide : 0 + 1 < 2 ^ 16)

abbrev firstFails (n : Nat) : Option Page := if n = 0 then some blank else none

theorem read_eq_none (h : (s.pfsBitmapRead index).1 = none) :
    s.pfsBitmapRead index = (none, (s.pfsBitmapRead index).2) := by
  rw [← h]

/-- The first page has a bit, and cannot be written when its entry is to be used for another page. -/
theorem pfsBitmapRead_recovers_write : Recovers
    (((fresh firstFails).store 1 0 fun _ => true).pfsBitmapRead 4).2
    ((fresh firstFails).store 1 0 fun _ => true).page := by
  have hsound := (fresh_sound firstFails).store 1 0 fun _ => true
  have hserves := Serves.store (P := fun _ => True) (.inl (fresh_backed firstFails)) 1 0 fun _ => true
  have hbacked : ((fresh firstFails).store 1 0 fun _ => true).Backed := by
    rcases hserves with hb | hheld
    · exact hb
    · obtain ⟨i, hi, heq⟩ := hheld 4 trivial
      rw [store_data, clear_data, if_pos hi] at heq
      have hlt : i < 5 := hi.2
      simp only at heq
      omega
  have hread : ((fresh firstFails).store 1 0 fun _ => true).pfsBitmapRead 4 =
      (none, (((fresh firstFails).store 1 0 fun _ => true).pfsBitmapRead 4).2) :=
    read_eq_none (by decide +kernel)
  exact (pfsBitmapRead_recovers_iff hsound hbacked (by decide +kernel) (by decide) hread).mpr
    (.inl ⟨by decide +kernel, by decide +kernel⟩)

/-- The fifth page cannot be loaded, and the first entry is said to hold it. -/
theorem pfsBitmapRead_not_recovers : ¬ ∀ (s t : Scratch) (l : List Nat) (index : Nat), Sound s l → s.Backed →
    (s.pfsBitmapData 0).isDirty = false → index < 2 ^ 24 → s.pfsBitmapRead index = (none, t) →
    Recovers t s.page := by
  intro h
  have hsound := fresh_sound firstFails
  have hread : (fresh firstFails).pfsBitmapRead 4 = (none, ((fresh firstFails).pfsBitmapRead 4).2) :=
    read_eq_none (by decide +kernel)
  have hrecovers := h (fresh firstFails) _ _ 4 hsound (fresh_backed _) (by decide +kernel) (by decide) hread
  rcases hsound.read (P := (· < 2 ^ 24)) (.inl (fresh_backed _)) (by decide) (by decide) (by decide)
      (fun _ => fresh_countable _) hread with ⟨i, hsome, -⟩ | ⟨-, hfails, -⟩ | ⟨-, -, hused, hring⟩
  · cases hsome
  · exact absurd hfails.1 (by decide +kernel)
  · exact not_recovers hsound.ring (by decide) hused hring hrecovers

/-! ### The pages are cleared -/

/-- How many pages there are zones for. -/
def pageCount (size : Nat) : Nat := (size + (2 ^ 20 - 1)) / 2 ^ 20

/-- What a session that needs more than the four entries does not clear is clear already: the page that the count of pages leaves out, and the first four as well where they are not written because of it. -/
def Cleared (size : Nat) (mbr : Nat → Page) : Prop :=
  NUM_BITMAP_ENTRIES ≤ pageCount size → ∀ k < pageCount size,
    bitmapCount size ≤ k ∨ bitmapCount size < NUM_BITMAP_ENTRIES → mbr (sector k) = blank

/-- The entries are clear, and nothing has been stored in them. -/
def Blank (s : Scratch) : Prop := ∀ i, Entry i → (s.pfsBitmapData i).bitmap = blank ∧ (s.pfsBitmapData i).isDirty = false

variable {pages : List (Nat × Option Nat)} {sectors : List Nat}

theorem write_blank (hs : s.Blank) (hfailure : s.failure = fun _ => none) (hi : Entry i) :
    ∃ t, s.pfsBitmapTransfer i .WRITE = (true, t) ∧ t.pfsBitmapData = s.pfsBitmapData ∧ t.failure = s.failure ∧
      t.mbr = Function.update s.mbr (sector (s.pfsBitmapData i).index) blank := by
  rw [pfsBitmapTransfer_write, hfailure]
  refine ⟨_, rfl, ?_, hfailure, ?_⟩
  · funext j
    rw [clean_data, write_data]
    split
    · rename_i hj
      rw [← (hs i hi).2, hj]
    · rfl
  · rw [clean_mbr, write_mbr, (hs i hi).1]

private theorem writePages_own (pages : List (Nat × Option Nat)) (is : List Nat) (his : ∀ i ∈ is, Entry i) (hs : s.Blank)
    (hfailure : s.failure = fun _ => none) : ∃ t,
      writePages (is.map (fun i => (i, none)) ++ pages) s = writePages pages t ∧
      t.pfsBitmapData = s.pfsBitmapData ∧ t.failure = s.failure ∧
      ∀ k, t.mbr k = if k ∈ is.map fun i => sector (s.pfsBitmapData i).index then blank else s.mbr k := by
  induction is generalizing s with
  | nil => exact ⟨s, rfl, rfl, rfl, fun k => by rw [if_neg (by simp)]⟩
  | cons i is ih =>
    obtain ⟨u, hwrite, hdata, hfail, hmbr⟩ := write_blank hs hfailure (his i List.mem_cons_self)
    have hu : u.Blank := by
      intro j hj
      rw [hdata]
      exact hs j hj
    obtain ⟨t, hrest, hdata', hfail', hmbr'⟩ := ih (fun j hj => his j (List.mem_cons_of_mem _ hj)) hu
      (hfail.trans hfailure)
    refine ⟨t, ?_, hdata'.trans hdata, hfail'.trans hfail, ?_⟩
    · rw [List.map_cons, List.cons_append, writePages]
      simp only [hwrite]
      exact hrest
    · intro k
      rw [hmbr', hdata, hmbr, List.map_cons]
      by_cases hk : k = sector (s.pfsBitmapData i).index
      · rw [← hk, Function.update_self, ite_self, if_pos List.mem_cons_self]
      · rw [Function.update_of_ne hk]
        simp only [List.mem_cons, hk, false_or]

/-- One entry is written as one page after the other. -/
private theorem writePages_rest (ks : List Nat) (hi : Entry i) (hs : s.Blank) (hfailure : s.failure = fun _ => none) : ∃ t,
    writePages (ks.map fun k => (i, some k)) s = (true, t) ∧ t.failure = s.failure ∧
    (∀ j, t.pfsBitmapData j =
      { s.pfsBitmapData j with
        index := if j = i then ks.getLast?.getD (s.pfsBitmapData i).index else (s.pfsBitmapData j).index }) ∧
    ∀ k, t.mbr k = if k ∈ ks.map sector then blank else s.mbr k := by
  induction ks generalizing s with
  | nil =>
    refine ⟨s, rfl, rfl, ?_, fun k => by rw [if_neg (by simp)]⟩
    intro j
    split
    · rename_i hj
      rw [hj]
      rfl
    · rfl
  | cons n ks ih =>
    have hdata : ∀ j, (s.modify i fun e => { e with index := n }).pfsBitmapData j =
        { s.pfsBitmapData j with index := if j = i then n else (s.pfsBitmapData j).index } := by
      intro j
      rw [modify_data]
      split
      · rename_i hj
        rw [hj]
      · rfl
    have hv : (s.modify i fun e => { e with index := n }).Blank := by
      intro j hj
      rw [hdata]
      exact hs j hj
    have hlabel : ((s.modify i fun e => { e with index := n }).pfsBitmapData i).index = n := by
      rw [hdata]
      exact if_pos rfl
    obtain ⟨u, hwrite, hudata, hufail, humbr⟩ := write_blank hv hfailure hi
    have hu : u.Blank := by
      intro j hj
      rw [hudata]
      exact hv j hj
    obtain ⟨t, hrest, hfail, htdata, htmbr⟩ := ih hu (hufail.trans hfailure)
    refine ⟨t, ?_, hfail.trans hufail, ?_, ?_⟩
    · rw [List.map_cons, writePages]
      simp only [hwrite]
      exact hrest
    · intro j
      rw [htdata, hudata, hdata, hlabel]
      by_cases hj : j = i
      · simp only [if_pos hj, List.getLast?_cons, Option.getD_some]
      · simp only [if_neg hj]
    · intro k
      rw [htmbr, humbr, hlabel, List.map_cons]
      by_cases hk : k = sector n
      · rw [hk, Function.update_self, ite_self, if_pos List.mem_cons_self]
      · rw [Function.update_of_ne hk]
        simp only [List.mem_cons, hk, false_or]
        rfl

theorem clear_blank (s : Scratch) : s.clear.Blank := by
  intro i hi
  rw [clear_data, if_pos hi]
  exact ⟨rfl, rfl⟩

/-- A session has begun: the entries are clear, none is in use, and `__mbr` is clear as far as it will be read. -/
structure Begun (size : Nat) (t : Scratch) (l : List Nat) : Prop where
  sound : Sound t l
  clear : t.Blank
  nused : ∀ i, Entry i → (t.pfsBitmapData i).nused = 0
  failure : t.failure = fun _ => none
  mbr : ∀ k < pageCount size, ¬ t.Holds k → t.mbr (sector k) = blank
  backed : bitmapCount size < NUM_BITMAP_ENTRIES → pageCount size < NUM_BITMAP_ENTRIES ∨ t.Backed
  backed' : NUM_BITMAP_ENTRIES ≤ bitmapCount size → t.Backed
  held : bitmapCount size < NUM_BITMAP_ENTRIES → ∀ k < NUM_BITMAP_ENTRIES - 1, t.Holds k

variable {size : Nat}

theorem bitmapCount_bounds (size : Nat) : bitmapCount size ≤ pageCount size ∧ pageCount size ≤ bitmapCount size + 1 := by
  unfold bitmapCount pageCount
  split <;> omega

theorem pageCount_lt (hsize : size < 2 ^ 32) : pageCount size ≤ 2 ^ 12 := by
  unfold pageCount
  omega

private theorem begun_small (h : s.Idle l) (hfailure : s.failure = fun _ => none) (hcleared : Cleared size s.mbr)
    (hcount : bitmapCount size < NUM_BITMAP_ENTRIES) : Begun size s.clear l := by
  have hheld : ∀ k < NUM_BITMAP_ENTRIES - 1, s.clear.Holds k := by
    intro k hk
    have hentry : Entry (k + 1) := ⟨Nat.le_add_left 1 k, by simp only [NUM_BITMAP_ENTRIES] at hk ⊢; omega⟩
    refine ⟨k + 1, hentry, ?_⟩
    rw [clear_data, if_pos hentry]
    exact Nat.add_sub_cancel k 1
  refine ⟨h.clear, clear_blank s, ?_, hfailure, ?_, fun _ => ?_, ?_, fun _ => hheld⟩
  · intro i hi
    rw [clear_data, if_pos hi]
  · intro k hk hnot
    have hfar : NUM_BITMAP_ENTRIES - 1 ≤ k := Nat.le_of_not_lt fun hlt => hnot (hheld k hlt)
    refine hcleared ?_ k hk (.inr hcount)
    simp only [NUM_BITMAP_ENTRIES] at hfar ⊢
    omega
  · by_cases hpages : pageCount size < NUM_BITMAP_ENTRIES
    · exact .inl hpages
    · right
      apply clear_backed
      intro k hk
      have hle := Nat.le_of_not_lt hpages
      exact hcleared hle k (by simp only [NUM_BITMAP_ENTRIES] at hle; omega) (.inr hcount)
  · intro hle
    exact absurd hcount (Nat.not_lt.mpr hle)

/-- A filesystem that has more than four pages: they are written, by the last entry from the fifth on. -/
private theorem begun_large (h : s.Idle l) (hfailure : s.failure = fun _ => none) (hsize : size < 2 ^ 32)
    (hcleared : Cleared size s.mbr) (hcount : NUM_BITMAP_ENTRIES ≤ bitmapCount size) :
    ∃ t, s.pfsBitmapPartInit size = (true, t) ∧ Begun size t l := by
  have hcount5 : 5 ≤ bitmapCount size := hcount
  have hbound : bitmapCount size ≤ 2 ^ 12 := le_trans (bitmapCount_bounds size).1 (pageCount_lt hsize)
  obtain ⟨u, hown, hudata, hufail, humbr⟩ := writePages_own
    ((List.range' (NUM_BITMAP_ENTRIES - 1) (bitmapCount size - (NUM_BITMAP_ENTRIES - 1))).map
      fun i => (NUM_BITMAP_ENTRIES - 1, some i))
    (List.range' 1 (NUM_BITMAP_ENTRIES - 1)) (fun i hi => mem_range.mp hi) (clear_blank s) hfailure
  have hu : u.Blank := by
    intro i hi
    rw [hudata]
    exact clear_blank s i hi
  obtain ⟨t, hrest, htfail, htdata, htmbr⟩ := writePages_rest (i := NUM_BITMAP_ENTRIES - 1)
    (List.range' (NUM_BITMAP_ENTRIES - 1) (bitmapCount size - (NUM_BITMAP_ENTRIES - 1))) (by decide) hu
    (hufail.trans hfailure)
  have hlast : (List.range' (NUM_BITMAP_ENTRIES - 1) (bitmapCount size - (NUM_BITMAP_ENTRIES - 1))).getLast?.getD
      (u.pfsBitmapData (NUM_BITMAP_ENTRIES - 1)).index = bitmapCount size - 1 := by
    rw [List.getLast?_range', if_neg (by simp only [NUM_BITMAP_ENTRIES]; omega), Option.getD_some]
    simp only [NUM_BITMAP_ENTRIES]
    omega
  have hindex : ∀ j, Entry j → (t.pfsBitmapData j).index = if j = 4 then bitmapCount size - 1 else j - 1 := by
    intro j hj
    rw [htdata, hlast, hudata, clear_data, if_pos hj]
    rfl
  have hwritten : ∀ k < bitmapCount size, t.mbr (sector k) = blank := by
    intro k hk
    rw [htmbr]
    by_cases hfar : NUM_BITMAP_ENTRIES - 1 ≤ k
    · rw [if_pos]
      apply List.mem_map_of_mem
      rw [List.mem_range'_1]
      simp only [NUM_BITMAP_ENTRIES] at hfar ⊢
      omega
    · have hentry : Entry (k + 1) := ⟨Nat.le_add_left 1 k, by simp only [NUM_BITMAP_ENTRIES] at hfar ⊢; omega⟩
      have hown : sector k ∈ (List.range' 1 (NUM_BITMAP_ENTRIES - 1)).map
          fun i => sector (s.clear.pfsBitmapData i).index := by
        refine List.mem_map.mpr ⟨k + 1, mem_range.mpr hentry, ?_⟩
        rw [clear_data, if_pos hentry]
        rfl
      rw [humbr, if_pos hown, ite_self]
  have hkept : ∀ k, t.mbr k = blank ∨ t.mbr k = s.mbr k := by
    intro k
    rw [htmbr, humbr]
    split
    · exact .inl rfl
    · split
      · exact .inl rfl
      · exact .inr rfl
  have hblank : t.Blank := by
    intro i hi
    rw [htdata]
    exact hu i hi
  have hbacked : t.Backed := by
    intro i hi _
    rw [(hblank i hi).1, hwritten]
    rw [hindex i hi]
    have hlt : i < 5 := hi.2
    split <;> omega
  have hnused : ∀ i, Entry i → (t.pfsBitmapData i).nused = 0 := by
    intro i hi
    rw [htdata, hudata, clear_data, if_pos hi]
  refine ⟨t, ?_, ?_, hblank, hnused, (htfail.trans hufail).trans hfailure, ?_, fun _ => .inr hbacked,
    fun _ => hbacked, fun hlt => absurd hlt (Nat.not_lt.mpr hcount)⟩
  · rw [pfsBitmapPartInit, if_pos hcount, hown]
    exact hrest
  · apply h.labelled
    · intro j
      rw [htdata, hudata, clear_data]
      split <;> rfl
    · intro j
      rw [htdata, hudata, clear_data]
      split <;> rfl
    · exact hnused
    · intro j hj
      rw [hindex j hj]
      have hlt : j < 5 := hj.2
      split <;> omega
    · intro i j hi hj heq
      rw [hindex i hi, hindex j hj] at heq
      have hi5 : i < 5 := hi.2
      have hj5 : j < 5 := hj.2
      have hi1 := hi.1
      have hj1 := hj.1
      split at heq <;> split at heq <;> omega
  · intro k hk _
    by_cases hlt : k < bitmapCount size
    · exact hwritten k hlt
    · rcases hkept (sector k) with heq | heq
      · exact heq
      · exact heq.trans (hcleared (hcount.trans (bitmapCount_bounds size).1) k hk (.inl (Nat.le_of_not_lt hlt)))

private theorem begun (h : s.Idle l) (hfailure : s.failure = fun _ => none) (hsize : size < 2 ^ 32)
    (hcleared : Cleared size s.mbr) : ∃ t, s.pfsBitmapPartInit size = (true, t) ∧ Begun size t l := by
  by_cases hcount : NUM_BITMAP_ENTRIES ≤ bitmapCount size
  · exact begun_large h hfailure hsize hcleared hcount
  · refine ⟨s.clear, ?_, begun_small h hfailure hcleared (Nat.lt_of_not_le hcount)⟩
    rw [pfsBitmapPartInit, if_neg hcount]

theorem Begun.faithful (h : Begun size t l) (hsize : size < 2 ^ 32) : Faithful (· < pageCount size) t fun _ => blank := by
  refine ⟨⟨l, h.sound⟩, ?_, ?_, fun k hk => lt_of_lt_of_le hk (le_trans (pageCount_lt hsize) (by decide))⟩
  · by_cases hcount : NUM_BITMAP_ENTRIES ≤ bitmapCount size
    · exact .inl (h.backed' hcount)
    · have hlt := Nat.lt_of_not_le hcount
      rcases h.backed hlt with hpages | hb
      · right
        intro k hk
        exact h.held hlt k (by simp only [NUM_BITMAP_ENTRIES] at hpages ⊢; omega)
      · exact .inl hb
  · intro k hk
    by_cases hheld : t.Holds k
    · obtain ⟨i, hi, rfl⟩ := hheld
      rw [h.sound.page_held hi, (h.clear i hi).1]
    · rw [page_not_held hheld, h.mbr k hk hheld]

/-- The pages of a session are one array of words that is clear at first, if what the session does not clear is clear already: over all accesses in which an entry is free and no use count is exhausted, every page that is asked for is obtained and is the one of the array. -/
theorem pfsBitmapRead_array (h : s.Idle l) (hfailure : s.failure = fun _ => none) (hsize : size < 2 ^ 32)
    (hcleared : Cleared size s.mbr) : ∃ t, s.pfsBitmapPartInit size = (true, t) ∧
      ∀ u G, Accesses (· < pageCount size) t (fun _ => blank) u G → ∀ index < pageCount size, u.Free →
        u.Countable → ∃ i v, u.pfsBitmapRead index = (some i, v) ∧ (v.pfsBitmapData i).bitmap = G index := by
  obtain ⟨t, hinit, ht⟩ := begun h hfailure hsize hcleared
  refine ⟨t, hinit, ?_⟩
  intro u G hrun index hindex hfree hcount
  have hstart := ht.faithful hsize
  have hu := hstart.accesses hrun
  have hufailure : u.failure = fun _ => none := (hstart.accesses_failure hrun).trans ht.failure
  obtain ⟨lu, hlu⟩ := hu.sound
  have hread : u.pfsBitmapRead index = ((u.pfsBitmapRead index).1, (u.pfsBitmapRead index).2) := rfl
  obtain ⟨i, hi⟩ := Option.isSome_iff_exists.mp
    (read_isSome hlu _ hufailure)
  rw [hi] at hread
  exact ⟨i, _, hread, hu.read hindex hfree hcount hread⟩

/-- Five full pages over an `__mbr` that has every bit set. -/
theorem pfsBitmapRead_array_five : ∃ t,
    (pfsBitmapInit (fun _ _ _ => true) fun _ => none).pfsBitmapPartInit (5 * 2 ^ 20) = (true, t) ∧
      ∀ u G, Accesses (· < pageCount (5 * 2 ^ 20)) t (fun _ => blank) u G → ∀ index < pageCount (5 * 2 ^ 20), u.Free →
        u.Countable → ∃ i v, u.pfsBitmapRead index = (some i, v) ∧ (v.pfsBitmapData i).bitmap = G index := by
  apply pfsBitmapRead_array (idle_pfsBitmapInit _ _) rfl (by decide)
  intro _ k hk hnot
  have hcount : bitmapCount (5 * 2 ^ 20) = 5 := by decide
  have hpages : pageCount (5 * 2 ^ 20) = 5 := by decide
  rw [hcount] at hnot
  rw [hpages] at hk
  simp only [NUM_BITMAP_ENTRIES] at hnot
  omega

/-- One zone more than four pages: the fifth page is what was on `__mbr`. -/
theorem pfsBitmapRead_not_array : ¬ ∀ (s : Scratch) (l : List Nat) (size : Nat), s.Idle l →
    (s.failure = fun _ => none) → size < 2 ^ 32 → ∃ t, s.pfsBitmapPartInit size = (true, t) ∧
      ∀ u G, Accesses (· < pageCount size) t (fun _ => blank) u G → ∀ index < pageCount size, u.Free →
        u.Countable → ∃ i v, u.pfsBitmapRead index = (some i, v) ∧ (v.pfsBitmapData i).bitmap = G index := by
  intro h
  obtain ⟨t, hinit, ht⟩ := h (pfsBitmapInit (fun _ _ _ => true) fun _ => none) _ (2 ^ 22 + 1)
    (idle_pfsBitmapInit _ _) rfl (by decide)
  have hsmall : (pfsBitmapInit (fun _ _ _ => true) fun _ => none).pfsBitmapPartInit (2 ^ 22 + 1) =
      (true, (pfsBitmapInit (fun _ _ _ => true) fun _ => none).clear) := by
    rw [pfsBitmapPartInit, if_neg (by decide)]
  rw [hsmall] at hinit
  cases hinit
  have hcount : (pfsBitmapInit (fun _ _ _ => true) fun _ => none).clear.Countable := by
    intro i hi
    rw [clear_data, if_pos hi]
    exact (by decide : 0 + 1 < 2 ^ 16)
  obtain ⟨i, v, hread, hwords⟩ := ht _ _ .start 4 (by decide) ⟨1, by decide, rfl⟩ hcount
  have hfirst : ((pfsBitmapInit (fun _ _ _ => true) fun _ => none).clear.pfsBitmapRead 4).1 = some 1 := by decide +kernel
  have hset : (((pfsBitmapInit (fun _ _ _ => true) fun _ => none).clear.pfsBitmapRead 4).2.pfsBitmapData 1).bitmap 0 0 =
      true := by decide +kernel
  rw [hread] at hfirst hset
  cases hfirst
  rw [hwords] at hset
  cases hset

end Scratch

end HddChecker.Fsck
