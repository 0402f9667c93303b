import HddChecker.Fsck.Bounds
import HddChecker.Fsck.Zones

/-!
# The bitmaps on disk are replaced

At the end of a check `fsckCompareBitmap` goes through the bitmap of every partition, a zone of it at a time, and replaces each word that differs from what it finds in the scratch bitmap. The disk is told by its words.
-/

namespace HddChecker.Fsck

open HddChecker Prog Pfs

variable {σ : Type} {L : Libpfs σ} {m : Mount}

abbrev View : Type := Nat → Nat → Nat

/-- Transfers succeed, and read and write the words of the sectors they are for. -/
structure Transfers (L : Libpfs σ) (view : σ → View) : Prop where
  read : ∀ sub sector size s, ∃ r words s', L.transferRead sub sector size s = ((r, words), s') ∧ 0 ≤ r ∧
    view s' = view s ∧ ∀ k < size * 128, words k = view s sub (sector * 128 + k)
  write : ∀ sub sector size words s, ∃ r s', L.transferWrite sub sector size words s = (r, s') ∧
    view s' = fun sub' a => if sub' = sub ∧ sector * 128 ≤ a ∧ a < (sector + size) * 128 then words (a - sector * 128)
      else view s sub' a

/-- The zone size is one of a filesystem, and the partitions have sizes of 32 bits. -/
structure Geometry (m : Mount) : Prop where
  zsize : m.zsize = 512 * 2 ^ m.sector_scale
  scale : m.sector_scale ≤ 8
  sizes : ∀ i, m.ZoneSizes i < 2 ^ 32

/-- How many zones of the bitmap there are for a partition. -/
def pieces (m : Mount) (i : Nat) : Nat :=
  m.ZoneSizes i / 2 ^ m.sector_scale / (m.zsize * 8) +
    if m.ZoneSizes i / 2 ^ m.sector_scale % (m.zsize * 8) = 0 then 0 else 1

/-- How many zones of the partition a zone of its bitmap is for. -/
def pieceLength (m : Mount) (i p : Nat) : Nat :=
  if p = m.ZoneSizes i / 2 ^ m.sector_scale / (m.zsize * 8) then m.ZoneSizes i / 2 ^ m.sector_scale % (m.zsize * 8)
  else m.zsize * 8

/-- How many words of it are compared. -/
def pieceWords (m : Mount) (i p : Nat) : Nat := (pieceLength m i p / 8 + 3) / 4

/-- The first sector of a zone of the bitmap. -/
def pieceSector (m : Mount) (i p : Nat) : Nat :=
  u32 (((if i = 0 then 0x2000 / 2 ^ m.sector_scale + 1 else 1) + p) * 2 ^ m.sector_scale)

/-- What is looked up in the scratch bitmap. -/
def pieceIndex (m : Mount) (i p : Nat) : Nat := u32 (i + p * (m.zsize * 8))

/-- The bits that are compared with a word: of the page that was obtained, or of what is behind it in memory. -/
def source (m : Mount) (F : Nat → Page) (i p k : Nat) : Nat → Bool :=
  F (pieceIndex m i p / 2 ^ 20) (pieceIndex m i p / 2 ^ 5 % 2 ^ 15 + k)

/-! ### Words -/

private theorem wordOf_testBit (bits : Nat → Bool) (b : Nat) (hb : b < 32) : (wordOf bits).testBit b = bits b := by
  have hall : ∀ n, (List.range n).foldl (fun n i => if bits i then n + 2 ^ i else n) 0 < 2 ^ n ∧
      ∀ b < n, ((List.range n).foldl (fun n i => if bits i then n + 2 ^ i else n) 0).testBit b = bits b := by
    intro n
    induction n with
    | zero => exact ⟨Nat.two_pow_pos 0, fun b hb => absurd hb (Nat.not_lt_zero b)⟩
    | succ n ih =>
      obtain ⟨hlt, hbits⟩ := ih
      rw [List.range_succ, List.foldl_append]
      simp only [List.foldl_cons, List.foldl_nil]
      generalize (List.range n).foldl (fun n i => if bits i then n + 2 ^ i else n) 0 = v at hlt hbits ⊢
      have hpow : 2 ^ (n + 1) = 2 ^ n + 2 ^ n := by omega
      cases hn : bits n with
      | false =>
        simp only [Bool.false_eq_true, if_false]
        refine ⟨by omega, ?_⟩
        intro b hb
        by_cases hbn : b = n
        · rw [hbn, hn, Nat.testBit_lt_two_pow hlt]
        · exact hbits b (by omega)
      | true =>
        simp only [if_true]
        refine ⟨by omega, ?_⟩
        intro b hb
        rw [Nat.add_comm v]
        by_cases hbn : b = n
        · rw [hbn, hn, Nat.testBit_two_pow_add_eq, Nat.testBit_lt_two_pow hlt]
          rfl
        · rw [Nat.testBit_two_pow_add_gt (by omega)]
          exact hbits b (by omega)
  exact (hall 32).2 b hb

/-! ### The scratch bitmap -/

/-- The scratch bitmap between two calls, over the pages `P`, with these contents and no transfer that fails. -/
structure Ready (P : Nat → Prop) (F : Nat → Page) (scratch : Scratch) : Prop where
  faithful : Scratch.Faithful P scratch F
  quiet : scratch.Quiet
  failure : scratch.failure = fun _ => none

variable {P : Nat → Prop} {F : Nat → Page} {scratch : Scratch}

/-- The words from the one of a zone on, and the scratch bitmap is as it was. -/
theorem Ready.bitmapWords (h : Ready P F scratch) {index : Nat} (hindex : P (index / 2 ^ 20)) : ∃ scratch',
    bitmapWords index scratch = (some fun k => wordOf (F (index / 2 ^ 20) (index / 2 ^ 5 % 2 ^ 15 + k)), scratch') ∧
      Ready P F scratch' := by
  obtain ⟨l, hl⟩ := h.faithful.sound
  have hsome := Scratch.read_isSome hl (index / 2 ^ 20) h.failure
  have hread := hl.read h.faithful.serves hindex (h.faithful.small _ hindex) (h.quiet.free.ring hl.toBalanced)
    (fun _ => h.quiet.countable) (Prod.eta _).symm
  unfold Fsck.bitmapWords
  generalize scratch.pfsBitmapRead (index / 2 ^ 20) = q at hsome hread ⊢
  obtain ⟨result, t⟩ := q
  rcases hread with ⟨i, rfl, hgot⟩ | ⟨rfl, -⟩ | ⟨rfl, -⟩
  · obtain ⟨lt, hlt⟩ := hgot.sound
    have hstill := Scratch.free_still hlt.toBalanced hgot.entry
    have hfreed := (hgot.faithful h.faithful).free hgot.entry
    refine ⟨t.pfsBitmapFree i, ?_, hfreed, ⟨hfreed.sound, ?_⟩, ?_⟩
    · have hwords : (t.pfsBitmapData i).bitmap = F (index / 2 ^ 20) := hgot.bitmap h.faithful hindex
      simp only [hstill.bitmap, hwords]
    · intro j hj
      rw [Scratch.free_nused hlt.toBalanced hgot.entry, hgot.nused, hgot.nused, if_pos rfl, Nat.add_sub_cancel,
        h.quiet.2 i hgot.entry]
      by_cases hji : j = i
      · rw [if_pos hji]
      · rw [if_neg hji, if_neg hji, h.quiet.2 j hj]
    · exact hstill.failure.trans (hgot.failure.trans h.failure)
  · cases hsome
  · cases hsome

/-! ### A zone of the bitmap -/

/-- The state of the check but for the disk, the scratch bitmap and the buffer is what matters: repairs are made without a question. -/
structure Automatic (s : Check σ) : Prop where
  write : s.fsckWriteEnabled = true
  auto : s.fsckAutoMode = true

private theorem wp_prompt2 {s : Check σ} {Q : Bool → Check σ → Prop} (hs : Automatic s) (h : Q true s) :
    wp (fsckPromptUserAction2 true) s Q := by
  unfold fsckPromptUserAction2
  apply wp_bind
  apply wp_ofState
  simp only [id]
  rw [if_pos hs.write, if_pos hs.auto, if_pos trivial]
  apply wp_pure
  exact h

/-- The buffer after the comparison: the words that are compared are those of the scratch bitmap. -/
private theorem wp_compareWords {s : Check σ} (hs : Automatic s) (pBitmap : Words) (length : Nat) :
    wp (compareWords pBitmap length) s fun hasUpdate s' =>
      s' = { s with IOBuffer := fun k => if k < (length / 8 + 3) / 4 then pBitmap k else s.IOBuffer k } ∧
        (hasUpdate = false → s' = s) := by
  unfold compareWords
  refine wp_loop (fun (x : Nat × Bool) s' => x.1 ≤ (length / 8 + 3) / 4 ∧ Automatic s' ∧
    s' = { s with IOBuffer := fun k => if k < x.1 then pBitmap k else s.IOBuffer k } ∧ (x.2 = false → s' = s))
    (fun x _ => (length / 8 + 3) / 4 - x.1) ?_ ?_
  · rintro ⟨k, hasUpdate⟩ s₁ ⟨hk, hauto, hs₁, hsame⟩
    simp only at hk hs₁ hsame ⊢
    by_cases hend : length / 8 ≤ 4 * k
    · rw [if_pos hend]
      apply wp_pure
      have hfull : k = (length / 8 + 3) / 4 := by omega
      rw [← hfull]
      exact ⟨hs₁, hsame⟩
    · rw [if_neg hend]
      apply wp_bind
      apply wp_ofState
      simp only [id]
      have hlower : (length / 8 + 3) / 4 - (k + 1) < (length / 8 + 3) / 4 - k := by omega
      have hword : s₁.IOBuffer k = s.IOBuffer k := by
        rw [hs₁]
        exact if_neg (Nat.lt_irrefl k)
      -- one more word is as it is to be
      have hnext : ∀ f : Words, (∀ j, f j = if j < k + 1 then pBitmap j else s.IOBuffer j) →
          ({ s₁ with IOBuffer := f } : Check σ) =
            { s with IOBuffer := fun j => if j < k + 1 then pBitmap j else s.IOBuffer j } := by
        intro f hf
        rw [hs₁, funext hf]
      have hone : ∀ j, (if j < k + 1 then pBitmap j else s.IOBuffer j) =
          if j = k then pBitmap k else if j < k then pBitmap j else s.IOBuffer j := by
        intro j
        by_cases hjk : j = k
        · rw [if_pos hjk, hjk, if_pos (Nat.lt_succ_self k)]
        · rw [if_neg hjk]
          by_cases hlt : j < k
          · rw [if_pos hlt, if_pos (Nat.lt_succ_of_lt hlt)]
          · rw [if_neg hlt, if_neg (by omega)]
      have hbuffer : ∀ j, s₁.IOBuffer j = if j < k then pBitmap j else s.IOBuffer j := by
        intro j
        rw [hs₁]
      by_cases hequal : s₁.IOBuffer k = pBitmap k
      · rw [if_pos hequal]
        apply wp_pure
        refine ⟨⟨by simp only; omega, hauto, ?_, hsame⟩, hlower⟩
        refine (hnext s₁.IOBuffer ?_).symm ▸ rfl
        intro j
        rw [hone, hbuffer]
        by_cases hjk : j = k
        · rw [if_pos hjk, hjk, if_neg (Nat.lt_irrefl k), ← hword, hequal]
        · rw [if_neg hjk]
      · rw [if_neg hequal]
        apply wp_bind
        apply wp_prompt2 hauto
        rw [if_pos rfl]
        apply wp_bind
        apply wp_modify
        apply wp_pure
        refine ⟨⟨by simp only; omega, ⟨hauto.write, hauto.auto⟩, ?_, nofun⟩, hlower⟩
        apply hnext
        intro j
        rw [hone]
        by_cases hjk : j = k
        · rw [if_pos hjk, hjk, Function.update_self]
        · rw [if_neg hjk, Function.update_of_ne hjk, hbuffer]
  · refine ⟨Nat.zero_le _, hs, ?_, fun _ => rfl⟩
    simp only [Nat.not_lt_zero, if_false]

/-- The words of a zone of the bitmap are replaced, as far as they are compared. -/
def install (m : Mount) (F : Nat → Page) (i p : Nat) (D : View) : View := fun sub a =>
  if sub = i ∧ pieceSector m i p * 128 ≤ a ∧ a < pieceSector m i p * 128 + pieceWords m i p then
    wordOf (source m F i p (a - pieceSector m i p * 128))
  else D sub a

/-- The first zones of the bitmap of a partition are replaced. -/
def installPieces (m : Mount) (F : Nat → Page) (i : Nat) : Nat → View → View
  | 0, D => D
  | p + 1, D => install m F i p (installPieces m F i p D)

/-- The bitmaps of the first partitions are replaced. -/
def installAll (m : Mount) (F : Nat → Page) : Nat → View → View
  | 0, D => D
  | i + 1, D => installPieces m F i (pieces m i) (installAll m F i D)

variable {view : σ → View} {i p : Nat} {D : View}

theorem pieces_le_iff (m : Mount) (i zone : Nat) :
    ((m.ZoneSizes i / 2 ^ m.sector_scale % (m.zsize * 8) = 0 ∧ m.ZoneSizes i / 2 ^ m.sector_scale / (m.zsize * 8) ≤ zone) ∨
      (m.ZoneSizes i / 2 ^ m.sector_scale % (m.zsize * 8) ≠ 0 ∧
        m.ZoneSizes i / 2 ^ m.sector_scale / (m.zsize * 8) + 1 ≤ zone)) ↔ pieces m i ≤ zone := by
  unfold pieces
  split
  · rename_i hzero
    simp only [hzero, true_and, ne_eq, not_true_eq_false, false_and, or_false, Nat.add_zero]
  · rename_i hsome
    simp only [hsome, false_and, false_or, ne_eq, not_false_eq_true, true_and]

theorem Geometry.pieceLength_le (h : Geometry m) (i p : Nat) : pieceLength m i p ≤ m.zsize * 8 := by
  have hpos : 0 < m.zsize * 8 := by
    rw [h.zsize]
    exact Nat.mul_pos (Nat.mul_pos (by decide) (Nat.two_pow_pos _)) (by decide)
  unfold pieceLength
  split
  · exact (Nat.mod_lt _ hpos).le
  · exact Nat.le_refl _

theorem Geometry.pieceWords_le (h : Geometry m) (i p : Nat) : pieceWords m i p ≤ 2 ^ m.sector_scale * 128 := by
  have hlength := h.pieceLength_le i p
  rw [h.zsize] at hlength
  unfold pieceWords
  omega

private theorem wp_piece {β : Type} (next : β) (hgeo : Geometry m) (hL : Transfers L view) {s : Check σ} (hs : Automatic s)
    (hready : Ready P F s.scratch) (hp : P (pieceIndex m i p / 2 ^ 20)) {Q : β ⊕ Unit → Check σ → Prop}
    (hQ : ∀ s', Automatic s' → Ready P F s'.scratch → view s'.pfs = install m F i p (view s.pfs) → Q (.inl next) s') :
    wp (do
      let words ← ofState fun s : Check σ =>
        let (words, scratch) := bitmapWords (pieceIndex m i p) s.scratch
        (words, { s with scratch := scratch })
      if (← transferRead L i (pieceSector m i p) (2 ^ m.sector_scale)) < 0 then return .inr ()
      else
        match words with
        | none => crash
        | some pBitmap =>
          if ← compareWords pBitmap (pieceLength m i p) then
            let _ ← transferWrite L i (pieceSector m i p) (2 ^ m.sector_scale)
            return .inl next
          else return .inl next) s Q := by
  obtain ⟨scratch', hwords, hready'⟩ := hready.bitmapWords hp
  obtain ⟨r, words, pfs, hread, hr, hview, hbuffer⟩ := hL.read i (pieceSector m i p) (2 ^ m.sector_scale) s.pfs
  apply wp_bind
  apply wp_ofState
  simp only [hwords]
  apply wp_bind
  apply wp_ofState
  simp only [hread]
  rw [if_neg (Int.not_lt.mpr hr)]
  apply wp_bind
  refine (wp_compareWords (s := { s with scratch := scratch', pfs := pfs, IOBuffer := words })
    ⟨hs.write, hs.auto⟩ _ (pieceLength m i p)).mono ?_
  rintro hasUpdate s' ⟨hs', hsame⟩
  -- the buffer is what is to be in the zone
  have hinstall : ∀ a, pieceSector m i p * 128 ≤ a → a < (pieceSector m i p + 2 ^ m.sector_scale) * 128 →
      s'.IOBuffer (a - pieceSector m i p * 128) = install m F i p (view s.pfs) i a := by
    intro a hle hlt
    rw [Nat.add_mul] at hlt
    rw [hs', install]
    simp only
    by_cases hk : a - pieceSector m i p * 128 < (pieceLength m i p / 8 + 3) / 4
    · have hin : a < pieceSector m i p * 128 + pieceWords m i p := by
        unfold pieceWords
        omega
      rw [if_pos hk, if_pos ⟨trivial, hle, hin⟩]
      rfl
    · have hout : ¬ a < pieceSector m i p * 128 + pieceWords m i p := by
        unfold pieceWords
        omega
      rw [if_neg hk, if_neg fun hand => hout hand.2.2, hbuffer _ (by omega), Nat.add_sub_cancel' hle]
  have hbound := hgeo.pieceWords_le i p
  cases hasUpdate with
  | false =>
    rw [if_neg (by decide)]
    apply wp_pure
    have hs'' := hsame rfl
    apply hQ
    · rw [hs'']
      exact ⟨hs.write, hs.auto⟩
    · rw [hs'']
      exact hready'
    · have hview' : view s'.pfs = view s.pfs := by
        rw [hs'']
        exact hview
      rw [hview']
      funext sub a
      by_cases hin : sub = i ∧ pieceSector m i p * 128 ≤ a ∧ a < pieceSector m i p * 128 + pieceWords m i p
      · obtain ⟨rfl, hle, hlt⟩ := hin
        rw [← hinstall a hle (by rw [Nat.add_mul]; omega), hs'']
        simp only
        rw [hbuffer _ (by omega), Nat.add_sub_cancel' hle]
      · rw [install, if_neg hin]
  | true =>
    obtain ⟨r', pfs', hwrite, hview'⟩ := hL.write i (pieceSector m i p) (2 ^ m.sector_scale) s'.IOBuffer s'.pfs
    rw [if_pos rfl]
    apply wp_bind
    apply wp_ofState
    simp only [hwrite]
    apply wp_pure
    have hpfs : s'.pfs = pfs := by rw [hs']
    apply hQ
    · rw [hs']
      exact ⟨hs.write, hs.auto⟩
    · rw [hs']
      exact hready'
    · simp only
      rw [hview', hpfs, hview]
      funext sub a
      by_cases hin : sub = i ∧ pieceSector m i p * 128 ≤ a ∧ a < (pieceSector m i p + 2 ^ m.sector_scale) * 128
      · rw [if_pos hin, hinstall a hin.2.1 hin.2.2, hin.1]
      · rw [if_neg hin, install, if_neg]
        rintro ⟨hsub, hle, hlt⟩
        exact hin ⟨hsub, hle, by rw [Nat.add_mul]; omega⟩

/-- The pages that are looked up. -/
def Looked (m : Mount) (P : Nat → Prop) : Prop := ∀ i ≤ m.num_subs, ∀ p < pieces m i, P (pieceIndex m i p / 2 ^ 20)

private theorem wp_comparePartition (hgeo : Geometry m) (hL : Transfers L view) {s : Check σ} (hs : Automatic s)
    (hready : Ready P F s.scratch) (hP : ∀ p < pieces m i, P (pieceIndex m i p / 2 ^ 20)) :
    wp (comparePartition L m i) s fun _ s' => Automatic s' ∧ Ready P F s'.scratch ∧
      view s'.pfs = installPieces m F i (pieces m i) (view s.pfs) := by
  unfold comparePartition
  refine wp_loop (fun zone s' => zone ≤ pieces m i ∧ Automatic s' ∧ Ready P F s'.scratch ∧
    view s'.pfs = installPieces m F i zone (view s.pfs)) (fun zone _ => pieces m i - zone) ?_
    ⟨Nat.zero_le _, hs, hready, rfl⟩
  rintro zone s₁ ⟨hle, hauto, hready₁, hview⟩
  simp only
  by_cases hend : pieces m i ≤ zone
  · rw [if_pos ((pieces_le_iff m i zone).mpr hend)]
    apply wp_pure
    have hzone : zone = pieces m i := Nat.le_antisymm hle hend
    rw [← hzone]
    exact ⟨hauto, hready₁, hview⟩
  · rw [if_neg fun hle => hend ((pieces_le_iff m i zone).mp hle)]
    have hlt := Nat.lt_of_not_le hend
    refine wp_piece (zone + 1) hgeo hL hauto hready₁ (hP zone hlt) ?_
    intro s₂ hauto₂ hready₂ hview₂
    refine ⟨⟨hlt, hauto₂, hready₂, ?_⟩, by omega⟩
    rw [hview₂, hview]
    rfl

theorem wp_fsckCompareBitmap (hgeo : Geometry m) (hL : Transfers L view) {s : Check σ} (hs : Automatic s)
    (hready : Ready P F s.scratch) (hP : Looked m P) :
    wp (fsckCompareBitmap L m) s fun _ s' => view s'.pfs = installAll m F (m.num_subs + 1) (view s.pfs) := by
  unfold fsckCompareBitmap
  refine wp_loop (fun i s' => i ≤ m.num_subs + 1 ∧ Automatic s' ∧ Ready P F s'.scratch ∧
    view s'.pfs = installAll m F i (view s.pfs)) (fun i _ => m.num_subs + 1 - i) ?_
    ⟨Nat.zero_le _, hs, hready, rfl⟩
  rintro i s₁ ⟨hle, hauto, hready₁, hview⟩
  by_cases hend : m.num_subs < i
  · rw [if_pos hend]
    apply wp_pure
    have hi : i = m.num_subs + 1 := Nat.le_antisymm hle hend
    rw [← hi]
    exact hview
  · rw [if_neg hend]
    have hi := Nat.le_of_not_lt hend
    apply wp_bind
    refine (wp_comparePartition hgeo hL hauto hready₁ (hP i hi)).mono ?_
    rintro - s₂ ⟨hauto₂, hready₂, hview₂⟩
    apply wp_pure
    refine ⟨⟨Nat.succ_le_succ hi, hauto₂, hready₂, ?_⟩, by omega⟩
    rw [hview₂, hview]
    rfl

/-! ### Where the words are -/

/-- A zone of the bitmap has a number of 32 bits, and is the one of its number. -/
theorem Geometry.sector (h : Geometry m) (hp : p < pieces m i) : pieceSector m i p =
    ((if i = 0 then 0x2000 / 2 ^ m.sector_scale + 1 else 1) + p) * 2 ^ m.sector_scale := by
  have hpos : 0 < 2 ^ m.sector_scale := Nat.two_pow_pos _
  have hscale : 2 ^ m.sector_scale ≤ 2 ^ 8 := Nat.pow_le_pow_right (by decide) h.scale
  have hp' : p ≤ m.ZoneSizes i / 2 ^ m.sector_scale / (m.zsize * 8) := by
    unfold pieces at hp
    split at hp <;> omega
  -- the zones of the bitmap take up no more than the partition
  have hsize : p * 2 ^ m.sector_scale < 2 ^ 20 := by
    rw [h.zsize] at hp'
    have hbits : 512 * 2 ^ m.sector_scale * 8 = 2 ^ 12 * 2 ^ m.sector_scale := by omega
    rw [hbits, Nat.div_div_eq_div_mul, Nat.le_div_iff_mul_le (Nat.mul_pos hpos (Nat.mul_pos (by decide) hpos))] at hp'
    have hmul : p * 2 ^ m.sector_scale * 2 ^ 12 ≤ p * (2 ^ m.sector_scale * (2 ^ 12 * 2 ^ m.sector_scale)) := by
      have hone : 2 ^ m.sector_scale * 2 ^ 12 ≤ 2 ^ m.sector_scale * (2 ^ 12 * 2 ^ m.sector_scale) :=
        Nat.mul_le_mul_left _ (Nat.le_mul_of_pos_right _ hpos)
      calc p * 2 ^ m.sector_scale * 2 ^ 12 = p * (2 ^ m.sector_scale * 2 ^ 12) := Nat.mul_assoc _ _ _
        _ ≤ _ := Nat.mul_le_mul_left p hone
    have hlt := h.sizes i
    omega
  have hstart : (if i = 0 then 0x2000 / 2 ^ m.sector_scale + 1 else 1) * 2 ^ m.sector_scale ≤ 0x2000 + 2 ^ m.sector_scale := by
    split
    · rw [Nat.add_mul, Nat.one_mul]
      exact Nat.add_le_add_right (Nat.div_mul_le_self _ _) _
    · omega
  unfold pieceSector u32
  apply Nat.mod_eq_of_lt
  rw [Nat.add_mul]
  omega

theorem Geometry.zone (h : Geometry m) (hp : p < pieces m i) {a : Nat} (hle : pieceSector m i p * 128 ≤ a)
    (hlt : a < (pieceSector m i p + 2 ^ m.sector_scale) * 128) :
    a / (2 ^ m.sector_scale * 128) = (if i = 0 then 0x2000 / 2 ^ m.sector_scale + 1 else 1) + p := by
  rw [h.sector hp] at hle hlt
  generalize (if i = 0 then 0x2000 / 2 ^ m.sector_scale + 1 else 1) + p = n at hle hlt ⊢
  apply Nat.div_eq_of_lt_le
  · rw [← Nat.mul_assoc]
    exact hle
  · rw [← Nat.mul_assoc, Nat.add_one_mul]
    exact hlt

/-- The address is of a word that is compared. -/
def Compared (m : Mount) (i p a : Nat) : Prop :=
  pieceSector m i p * 128 ≤ a ∧ a < pieceSector m i p * 128 + pieceWords m i p

theorem Geometry.compared_unique (h : Geometry m) {p' a : Nat} (hp : p < pieces m i) (hp' : p' < pieces m i)
    (ha : Compared m i p a) (ha' : Compared m i p' a) : p = p' := by
  have hbound := h.pieceWords_le i p
  have hbound' := h.pieceWords_le i p'
  have hzone := h.zone hp ha.1 (by rw [Nat.add_mul]; have := ha.2; omega)
  have hzone' := h.zone hp' ha'.1 (by rw [Nat.add_mul]; have := ha'.2; omega)
  omega

theorem installPieces_other (m : Mount) (F : Nat → Page) (i n : Nat) (D : View) {sub a : Nat}
    (h : sub ≠ i ∨ ∀ p < n, ¬ Compared m i p a) : installPieces m F i n D sub a = D sub a := by
  induction n with
  | zero => rfl
  | succ n ih =>
    rw [installPieces, install, if_neg]
    · exact ih (h.imp id fun hall p hp => hall p (Nat.lt_succ_of_lt hp))
    · rintro ⟨hsub, hle, hlt⟩
      exact h.elim (fun hne => hne hsub) fun hall => hall n (Nat.lt_succ_self n) ⟨hle, hlt⟩

private theorem installPieces_word (h : Geometry m) (F : Nat → Page) (D : View) {n k : Nat} (hn : n ≤ pieces m i) (hp : p < n)
    (hk : k < pieceWords m i p) :
    installPieces m F i n D i (pieceSector m i p * 128 + k) = wordOf (source m F i p k) := by
  have hcompared : Compared m i p (pieceSector m i p * 128 + k) := ⟨Nat.le_add_right _ _, by omega⟩
  induction n with
  | zero => exact absurd hp (Nat.not_lt_zero p)
  | succ n ih =>
    rw [installPieces, install]
    by_cases hlast : p = n
    · subst hlast
      rw [if_pos ⟨rfl, hcompared⟩, Nat.add_sub_cancel_left]
    · rw [if_neg, ih (Nat.le_of_succ_le hn) (by omega)]
      rintro ⟨-, hin⟩
      exact hlast (h.compared_unique (by omega) (by omega) hcompared hin)

theorem installAll_other (m : Mount) (F : Nat → Page) (n : Nat) (D : View) {sub a : Nat}
    (h : n ≤ sub ∨ ∀ p < pieces m sub, ¬ Compared m sub p a) : installAll m F n D sub a = D sub a := by
  induction n with
  | zero => rfl
  | succ n ih =>
    rw [installAll, installPieces_other]
    · exact ih (h.imp Nat.le_of_succ_le id)
    · by_cases hsub : sub = n
      · subst hsub
        exact .inr (h.resolve_left (Nat.not_succ_le_self sub))
      · exact .inl hsub

private theorem installAll_word (h : Geometry m) (F : Nat → Page) (D : View) {n k : Nat} (hi : i < n) (hp : p < pieces m i)
    (hk : k < pieceWords m i p) :
    installAll m F n D i (pieceSector m i p * 128 + k) = wordOf (source m F i p k) := by
  induction n with
  | zero => exact absurd hi (Nat.not_lt_zero i)
  | succ n ih =>
    rw [installAll]
    by_cases hlast : i = n
    · subst hlast
      exact installPieces_word h F _ (Nat.le_refl _) hp hk
    · rw [installPieces_other m F n _ _ (.inl hlast)]
      exact ih (by omega)

/-! ### The bits of a partition -/

/-- The bit of a zone in the bitmap on disk. -/
def diskBit (m : Mount) (D : View) (i z : Nat) : Bool :=
  (D i (pieceSector m i (z / (m.zsize * 8)) * 128 + z % (m.zsize * 8) / 32)).testBit (z % 32)

/-- The bit of a zone as it is found: in the scratch bitmap where its word is compared, and else on disk. -/
def foundBit (m : Mount) (F : Nat → Page) (D : View) (i z : Nat) : Bool :=
  if z % (m.zsize * 8) / 32 < pieceWords m i (z / (m.zsize * 8)) then
    source m F i (z / (m.zsize * 8)) (z % (m.zsize * 8) / 32) (z % 32)
  else diskBit m D i z

/-- Every word that is looked up lies in the page that was obtained. -/
def Inside (m : Mount) : Prop := ∀ i ≤ m.num_subs, ∀ p < pieces m i, ∀ k < pieceWords m i p,
  pieceIndex m i p / 2 ^ 5 % 2 ^ 15 + k < 2 ^ 15

/-- What `fsckCompareBitmap` is to do: the bits of every partition are those of the scratch bitmap from its place on, nothing is changed outside the zones of the bitmaps, and no word is read from outside a page. -/
structure Installs (m : Mount) (F : Nat → Page) (D D' : View) : Prop where
  bits : ∀ i ≤ m.num_subs, ∀ z < m.zones i, diskBit m D' i z = Scratch.bitAt F (m.ZoneMap i + z)
  kept : ∀ sub a, ¬ (sub ≤ m.num_subs ∧ ∃ p < pieces m sub, pieceSector m sub p * 128 ≤ a ∧
    a < (pieceSector m sub p + 2 ^ m.sector_scale) * 128) → D' sub a = D sub a
  inside : Inside m

/-- The bits that are found are those that should be, and they are looked up in their pages. -/
structure Agrees (m : Mount) (F : Nat → Page) (D : View) : Prop where
  bits : ∀ i ≤ m.num_subs, ∀ z < m.zones i, foundBit m F D i z = Scratch.bitAt F (m.ZoneMap i + z)
  inside : Inside m

theorem Geometry.piece_lt (h : Geometry m) {z : Nat} (hz : z < m.zones i) : z / (m.zsize * 8) < pieces m i := by
  have hpos : 0 < m.zsize * 8 := by
    rw [h.zsize]
    exact Nat.mul_pos (Nat.mul_pos (by decide) (Nat.two_pow_pos _)) (by decide)
  unfold Mount.zones at hz
  unfold pieces
  generalize m.ZoneSizes i / 2 ^ m.sector_scale = size at hz ⊢
  have hle : z / (m.zsize * 8) ≤ size / (m.zsize * 8) := Nat.div_le_div_right hz.le
  split
  · rename_i hzero
    have hexact : size / (m.zsize * 8) * (m.zsize * 8) = size := Nat.div_mul_cancel (Nat.dvd_of_mod_eq_zero hzero)
    exact (Nat.div_lt_iff_lt_mul hpos).mpr (by rw [Nat.add_zero, hexact]; exact hz)
  · omega

theorem diskBit_installAll (h : Geometry m) (F : Nat → Page) (D : View) (hi : i ≤ m.num_subs) {z : Nat}
    (hz : z < m.zones i) : diskBit m (installAll m F (m.num_subs + 1) D) i z = foundBit m F D i z := by
  have hp := h.piece_lt hz
  unfold diskBit foundBit
  by_cases hk : z % (m.zsize * 8) / 32 < pieceWords m i (z / (m.zsize * 8))
  · rw [if_pos hk, installAll_word h F D (Nat.lt_succ_of_le hi) hp hk, wordOf_testBit _ _ (Nat.mod_lt _ (by decide))]
  · rw [if_neg hk, installAll_other]
    · rfl
    · right
      intro p' hp' hcompared
      -- the word is in the zone of the bitmap that is for it
      have hword : z % (m.zsize * 8) / 32 < 2 ^ m.sector_scale * 128 := by
        have hlt : z % (m.zsize * 8) < m.zsize * 8 := by
          apply Nat.mod_lt
          rw [h.zsize]
          exact Nat.mul_pos (Nat.mul_pos (by decide) (Nat.two_pow_pos _)) (by decide)
        rw [h.zsize] at hlt ⊢
        omega
      have hbound := h.pieceWords_le i p'
      have hzone := h.zone hp' hcompared.1 (by rw [Nat.add_mul]; have := hcompared.2; omega)
      have hzone' := h.zone hp (a := pieceSector m i (z / (m.zsize * 8)) * 128 + z % (m.zsize * 8) / 32)
        (Nat.le_add_right _ _) (by rw [Nat.add_mul]; omega)
      have heq : z / (m.zsize * 8) = p' := by omega
      rw [heq] at hk hcompared
      exact hk (by have := hcompared.2; omega)

/-- `fsckCompareBitmap` with all transfers succeeding, in write and automatic mode: it ends, and installs the scratch bitmap exactly if the bits it finds are those that should be. -/
theorem fsckCompareBitmap_installs_iff (hgeo : Geometry m) (hL : Transfers L view) {s : Check σ}
    (hwrite : s.fsckWriteEnabled = true) (hauto : s.fsckAutoMode = true) (hready : Ready P F s.scratch)
    (hP : Looked m P) : ∃ s', Runs (fsckCompareBitmap L m) s () s' ∧
      (Installs m F (view s.pfs) (view s'.pfs) ↔ Agrees m F (view s.pfs)) := by
  obtain ⟨_, s', hrun, hview⟩ := wp_fsckCompareBitmap hgeo hL ⟨hwrite, hauto⟩ hready hP
  refine ⟨s', hrun, ?_⟩
  rw [hview]
  constructor
  · intro h
    refine ⟨fun i hi z hz => ?_, h.inside⟩
    rw [← diskBit_installAll hgeo F (view s.pfs) hi hz]
    exact h.bits i hi z hz
  · intro h
    refine ⟨fun i hi z hz => ?_, fun sub a hout => ?_, h.inside⟩
    · rw [diskBit_installAll hgeo F (view s.pfs) hi hz]
      exact h.bits i hi z hz
    · apply installAll_other
      by_cases hsub : sub ≤ m.num_subs
      · right
        intro p hp hcompared
        have hbound := hgeo.pieceWords_le sub p
        refine hout ⟨hsub, p, hp, hcompared.1, ?_⟩
        rw [Nat.add_mul]
        have hlt := hcompared.2
        omega
      · exact .inl (Nat.lt_of_not_le hsub)

/-! ### A disk of words -/

/-- Transfers to and from a disk that has nothing else. -/
def viewStore : Libpfs View where
  sub _ _ := 0
  block _ _ := 0
  inode _ _ := ⟨⟨0, 0, 0⟩, ⟨0, 0, 0⟩, ⟨0, 0, 0⟩, fun _ => ⟨0, 0, 0⟩, 0, 0, 0, 0, 0, 0, 0⟩
  setInode _ _ s := s
  dentry _ _ _ := ⟨0, 0, 0, 0, fun _ => 0⟩
  setDentry _ _ _ s := s
  bitmap _ _ _ _ := false
  setBitmap _ _ _ s := s
  zero _ s := s
  setDirty _ s := s
  pfsCacheGetData _ _ _ s := (.ok 0, s)
  pfsCacheUsedAdd _ s := s
  pfsCacheFree _ s := s
  pfsCacheFlushAllDirty s := s
  pfsInodeGetData _ _ s := (.ok 0, s)
  transferRead sub sector _ s := ((0, fun k => s sub (sector * 128 + k)), s)
  transferWrite sub sector size words s := (0, fun sub' a =>
    if sub' = sub ∧ sector * 128 ≤ a ∧ a < (sector + size) * 128 then words (a - sector * 128) else s sub' a)
  flushCache s := s
  getPartError s := s
  rewind s := s
  read _ s := ((0, fun _ => 0), s)
  write _ _ s := (0, s)

theorem viewStore_transfers : Transfers viewStore id where
  read _ _ _ s := ⟨0, _, s, rfl, Int.le_refl 0, rfl, fun _ _ => rfl⟩
  write _ _ _ _ _ := ⟨0, _, rfl, rfl⟩

/-- The check over a scratch bitmap, and a disk all of whose words are 0xFFFFFFFF. -/
def viewCheck (scratch : Scratch) : Check View where
  pfs := fun _ _ => 0xFFFFFFFF
  scratch := scratch
  IOBuffer _ := 0
  fsckWriteEnabled := true
  fsckAutoMode := true
  answers _ := false
  stop := none
  hasError := false
  status := ⟨0, 0, 0, 0, 0, 0, 0⟩
  reported := 0
  repaired := 0
  walk := []
  used := []

/-- The scratch bitmap of a session of one page, whose first word is this one. -/
abbrev firstWord (word : Nat → Bool) : Scratch := (Scratch.fresh fun _ => none).store 1 0 word

theorem firstWord_ready (word : Nat → Bool) : Ready (· < 1) (firstWord word).page (firstWord word) := by
  have hsound := (Scratch.fresh_sound fun _ => none).store 1 0 word
  have hserves : (Scratch.fresh fun _ => none).Serves (· < 1) := .inl (Scratch.fresh_backed _)
  refine ⟨⟨⟨_, hsound⟩, hserves.store 1 0 word, fun _ _ => rfl, fun k hk => lt_trans hk (by decide)⟩, ⟨⟨_, hsound⟩, ?_⟩, rfl⟩
  intro i hi
  rw [Scratch.store_data, Scratch.clear_data, if_pos hi]

theorem firstWord_page (word : Nat → Bool) (w b : Nat) : (firstWord word).page 0 w b = if w = 0 then word b else false := by
  have hlabel : ((Scratch.fresh fun _ => none).pfsBitmapData 1).index = 0 := by
    rw [Scratch.clear_data, if_pos (by decide)]
  rw [Scratch.store_page (Scratch.fresh_sound _) (by decide), if_pos hlabel.symm]
  have hheld := (Scratch.fresh_sound fun _ => none).page_held (i := 1) (by decide)
  rw [Scratch.clear_data, if_pos (by decide)] at hheld
  by_cases hw : w = 0
  · rw [hw, Function.update_self, if_pos rfl]
  · rw [Function.update_of_ne hw, if_neg hw]
    exact congrFun (congrFun hheld w) b

def twoParts : Mount := { plainMount with num_subs := 1, ZoneMap := fun i => i * 16384 }

theorem twoParts_geometry : Geometry twoParts := ⟨by decide, by decide, fun _ => show 0x40000 < 2 ^ 32 by decide⟩

private theorem plainMount_geometry : Geometry plainMount := ⟨by decide, by decide, fun _ => show 0x40000 < 2 ^ 32 by decide⟩

theorem onePiece (hsize : m.ZoneSizes i = 0x40000) (hscale : m.sector_scale = 4) (hzsize : m.zsize = 8192) :
    pieces m i = 1 := by
  rw [pieces, hsize, hscale, hzsize]
  decide

/-- The bitmap of a filesystem of one partition. -/
theorem fsckCompareBitmap_installs_one : ∃ s',
    Runs (fsckCompareBitmap viewStore plainMount) (viewCheck (firstWord fun _ => true)) () s' ∧
      Installs plainMount (firstWord fun _ => true).page (viewCheck (firstWord fun _ => true)).pfs s'.pfs := by
  obtain ⟨s', hrun, hiff⟩ := fsckCompareBitmap_installs_iff (s := viewCheck (firstWord fun _ => true))
    plainMount_geometry viewStore_transfers rfl rfl (firstWord_ready fun _ => true) (by
      intro i _ p hp
      have hone : pieces plainMount i = 1 := onePiece rfl rfl rfl
      have hzero : p = 0 := by omega
      subst hzero
      have hi : i = 0 := Nat.le_zero.mp ‹_›
      subst hi
      decide)
  refine ⟨s', hrun, hiff.mpr ⟨?_, ?_⟩⟩
  · intro i hi z hz
    have hi0 : i = 0 := Nat.le_zero.mp hi
    subst hi0
    have hz' : z < 16384 := hz
    have hpiece : z / (plainMount.zsize * 8) = 0 := Nat.div_eq_of_lt (lt_trans hz' (by decide))
    have hplace : z % (plainMount.zsize * 8) = z := Nat.mod_eq_of_lt (lt_trans hz' (by decide))
    have hwords : pieceWords plainMount 0 0 = 512 := rfl
    have hindex : pieceIndex plainMount 0 0 = 0 := rfl
    have hmap : plainMount.ZoneMap 0 = 0 := rfl
    have hpage : z / 2 ^ 20 = 0 := Nat.div_eq_of_lt (lt_trans hz' (by decide))
    have hword : z / 2 ^ 5 % 2 ^ 15 = z / 32 := by omega
    rw [foundBit, hpiece, hplace, hwords, if_pos (by omega), source, hindex, hmap, Scratch.bitAt, Nat.zero_add, hpage, hword,
      Nat.zero_div, Nat.zero_div, Nat.zero_mod, Nat.zero_add]
    rfl
  · intro i hi p hp k hk
    have hi0 : i = 0 := Nat.le_zero.mp hi
    subst hi0
    have hone : pieces plainMount 0 = 1 := onePiece rfl rfl rfl
    have hzero : p = 0 := by omega
    subst hzero
    have hwords : pieceWords plainMount 0 0 = 512 := rfl
    have hindex : pieceIndex plainMount 0 0 = 0 := rfl
    rw [hindex]
    omega

/-- The first zone of the second partition gets the bit of the first zone of the first. -/
theorem fsckCompareBitmap_not_installs : ¬ ∀ (σ : Type) (L : Libpfs σ) (view : σ → View) (m : Mount)
    (P : Nat → Prop) (F : Nat → Page) (s : Check σ), Geometry m → Transfers L view → s.fsckWriteEnabled = true →
    s.fsckAutoMode = true → Ready P F s.scratch → Looked m P →
    ∃ s', Runs (fsckCompareBitmap L m) s () s' ∧ Installs m F (view s.pfs) (view s'.pfs) := by
  intro h
  have hlooked : Looked twoParts (· < 1) := by
    intro i hi p hp
    have hone : pieces twoParts i = 1 := onePiece rfl rfl rfl
    have hzero : p = 0 := by omega
    subst hzero
    have hcases : i = 0 ∨ i = 1 := Nat.le_one_iff_eq_zero_or_eq_one.mp hi
    rcases hcases with rfl | rfl
    · decide
    · decide
  obtain ⟨s', hrun, hinstalls⟩ := h View viewStore id twoParts _ _ (viewCheck (firstWord fun _ => true))
    twoParts_geometry viewStore_transfers rfl rfl (firstWord_ready fun _ => true) hlooked
  obtain ⟨_, s'', hrun', hview⟩ := wp_fsckCompareBitmap (s := viewCheck (firstWord fun _ => true)) twoParts_geometry
    viewStore_transfers ⟨rfl, rfl⟩ (firstWord_ready fun _ => true) hlooked
  obtain ⟨-, rfl⟩ := hrun.unique hrun'
  have hbit := hinstalls.bits 1 (Nat.le_refl 1) 0 (by decide)
  rw [hview, diskBit_installAll twoParts_geometry _ _ (Nat.le_refl 1) (by decide)] at hbit
  have hfound : foundBit twoParts (firstWord fun _ => true).page (viewCheck (firstWord fun _ => true)).pfs 1 0 = true := by
    have hwords : (0 % (twoParts.zsize * 8) / 32 < pieceWords twoParts 1 (0 / (twoParts.zsize * 8))) := by decide
    rw [foundBit, if_pos hwords]
    exact (firstWord_page _ 0 0).trans (if_pos rfl)
  have hshould : Scratch.bitAt (firstWord fun _ => true).page (twoParts.ZoneMap 1 + 0) = false :=
    (firstWord_page _ 512 0).trans (if_neg (by decide))
  rw [hshould] at hbit
  exact absurd (hfound.symm.trans hbit) (by decide)

end HddChecker.Fsck
