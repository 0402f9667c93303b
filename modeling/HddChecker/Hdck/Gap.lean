import HddChecker.Apa.Refs
import HddChecker.Hdck.Links

/-!
# Filling the gap of an unreadable partition

`MarkUnreadablePartionAsEmpty` is to fill a gap with empty partitions one behind the other. Every piece it makes starts at the same sector, and each turn gives back the buffer of the header before it rather than the new one. So a gap is never filled without a fault: a reference to the new header is left behind, or the new header is made to name itself as the next one.
-/

namespace HddChecker.Hdck

open HddChecker Apa Prog Device

variable {d e : Device} {st : State} {lba parent length clink : Nat}

/-- From `a` to `b` there are empty headers, each of a dyadic block that ends where the next one starts. -/
inductive EmptyRun (view : Nat → Option ApaHeader) : Nat → Nat → Prop where
  | done {b : Nat} : EmptyRun view b b
  | step {a b : Nat} {h : ApaHeader} (hview : view a = some h) (hstart : h.start = a)
      (hfree : h.isFree = true) (hdyadic : Dyadic a h.length) (hnext : h.next = a + h.length)
      (hrest : EmptyRun view (a + h.length) b) : EmptyRun view a b

/-- A gap of `length` sectors at `lba`, behind the partition of `parent`, on a drive on which nothing is pending and every write succeeds. -/
structure Gap (d : Device) (lba parent length : Nat) : Prop where
  sound : d.Sound Slot
  clean : ∀ s, d.isDirty s = false
  place : Slot lba
  parentPlace : Slot parent
  parent : ∃ p, d.view parent = some p ∧ p.start = parent ∧ 0 < p.length ∧ parent + p.length = lba
  multiple : Slot length
  positive : 0 < length
  fits : length < 2 ^ 32

/-- The gap is filled with empty partitions, nothing else is changed but the `next` of the parent, and no buffer is kept. -/
structure Filled (d e : Device) (lba parent length : Nat) : Prop where
  linked : ∀ p, d.view parent = some p →
    ∃ checksum, e.view parent = some { p with next := lba, checksum := checksum }
  run : EmptyRun e.view lba (lba + length)
  frame : ∀ s, Slot s → s ≠ parent → s < lba ∨ lba + length ≤ s → e.view s = d.view s
  refs : ∀ s, e.refs s = d.refs s

theorem EmptyRun.next_ne {view : Nat → Option ApaHeader} {a b : Nat} (h : EmptyRun view a b)
    (hlt : a < b) : ∃ x, view a = some x ∧ x.next ≠ a := by
  cases h with
  | done => exact (lt_irrefl _ hlt).elim
  | @step _ _ x hview hstart hfree hdyadic hnext hrest =>
    have := hdyadic.pos
    exact ⟨x, hview, by omega⟩

/-! ### The pieces -/

/-- What linking one piece does: the header at `lba` has the length of the piece, and it names itself where it is linked to itself. -/
structure Piece (d e : Device) (clink lba length : Nat) : Prop where
  sound : e.Sound Slot
  clean : ∀ s, e.isDirty s = false
  readable : ∀ s, Slot s → (d.view s).isSome → (e.view s).isSome
  piece : ∃ h, e.view lba = some h ∧ h.length = length ∧ (clink = lba → h.next = lba)
  refs : ∀ t, e.refs t =
    (if t = lba then d.refs t + 1 else d.refs t) - (if t = clink then 1 else 0)

theorem linkEmpty_spec (hsound : d.Sound Slot) (hclean : ∀ s, d.isDirty s = false)
    (hlba : Slot lba) (hclink : Slot clink) (hview : (d.view clink).isSome) :
    ∃ e, Runs (linkEmpty clink lba length) d () e ∧ Piece d e clink lba length := by
  set start := (d.header clink).start with hstart
  set d₁ := apaRemovePartition lba (u32 (lba + length)) start length d with hd₁
  set d₂ := setDirty clink (setHeader clink (fun h => { h with next := lba }) d₁) with hd₂
  have hsound₁ : d₁.Sound Slot :=
    ((hsound.apaCacheGetHeaderWrite hlba).setHeader hlba _).setDirty hlba
  have hsound₂ : d₂.Sound Slot := (hsound₁.setHeader hclink _).setDirty hclink
  obtain ⟨created, hview₁⟩ : ∃ created, ∀ t, d₁.view t =
      if t = lba then some (emptyHeader lba (u32 (lba + length)) start length created)
      else d.view t := by
    refine ⟨(apaCacheGetHeaderWrite lba d).apaGetTime, fun t => ?_⟩
    rw [hd₁, apaRemovePartition, view_setDirty, view_setHeader]
    split
    · rename_i ht
      obtain ⟨x, hx⟩ := Option.isSome_iff_exists.mp
        (view_apaCacheGetHeaderWrite_self (d := d) (s := lba))
      rw [ht, hx]
      rfl
    · rename_i ht
      exact view_apaCacheGetHeaderWrite ht
  have hsome₁ : ∀ t, (d.view t).isSome → (d₁.view t).isSome := by
    intro t ht
    rw [hview₁]
    split
    · rfl
    · exact ht
  have hview₂ : ∀ t, d₂.view t =
      if t = clink then (d₁.view t).map fun h => { h with next := lba } else d₁.view t := by
    intro t
    rw [hd₂, view_setDirty, view_setHeader]
  have hdirty : ∀ t, d₂.isDirty t = true → t ∈ [clink, lba] := by
    intro t ht
    rw [hd₂, isDirty_setDirty (by simpa using hsome₁ _ hview), isDirty_setHeader, hd₁,
      apaRemovePartition, isDirty_setDirty (by simpa using view_apaCacheGetHeaderWrite_self),
      isDirty_setHeader, isDirty_apaCacheGetHeaderWrite, hclean] at ht
    simpa using ht
  have hflushable := hsound₂.flushable places_slot hdirty (by simp)
  have hflushed := hflushable.flushed places_slot hsound₂
  set d₃ := d₂.apaCacheFlushAllDirty.2 with hd₃
  have hfree : Same Slot d₃ (apaCacheFree clink d₃) := same_apaCacheFree hclink
  refine ⟨apaCacheFree clink d₃, ?_, hfree.sound hflushed.sound, fun s => ?_, fun s hs hsome => ?_,
    ?_, fun t => ?_⟩
  · exact ⟨0, rfl⟩
  · rw [hfree.isDirty, hflushed.clean]
  · have hsome₂ : (d₂.view s).isSome := by
      rw [hview₂]
      split <;> simpa using hsome₁ s hsome
    rw [hfree.view, hflushed.view s hs]
    split <;> simpa using hsome₂
  · have hpiece : ∃ h, d₂.view lba = some h ∧ h.length = length ∧ (clink = lba → h.next = lba) := by
      rw [hview₂, hview₁]
      by_cases hl : lba = clink
      · subst hl
        exact ⟨_, by simp; rfl, rfl, fun _ => rfl⟩
      · exact ⟨_, by simp [hl]; rfl, rfl, fun h => (hl h.symm).elim⟩
    obtain ⟨h, hh, hlength, hnext⟩ := hpiece
    rw [hfree.view, hflushed.view lba hlba, hh]
    split
    · exact ⟨h.sealed, rfl, hlength, hnext⟩
    · exact ⟨h, rfl, hlength, hnext⟩
  · have hrefs₁ : d₁.refs t = if t = lba then d.refs lba + 1 else d.refs t := by
      rw [hd₁, apaRemovePartition, refs_setDirty, refs_setHeader, refs_apaCacheGetHeaderWrite]
    have hrefs₃ : ∀ t, d₃.refs t = d₁.refs t := by
      intro t
      rw [hd₃, refs_apaCacheFlushAllDirty, hd₂, refs_setDirty, refs_setHeader]
    rw [refs_apaCacheFree, hrefs₃, hrefs₃]
    by_cases htc : t = clink
    · subst htc
      rw [if_pos rfl, hrefs₁]
      by_cases htl : t = lba
      · subst htl
        simp
      · simp [htl]
    · rw [if_neg htc, hrefs₁]
      by_cases htl : t = lba
      · subst htl
        simp [htc]
      · simp [htl, htc]

/-! ### The pieces never fill the gap -/

private theorem alignedLength_some (hlba : Slot lba) {k fuel : Nat} (hfuel : k < fuel) :
    ∃ l, alignedLength lba fuel (2 ^ (18 + k)) = some l ∧ 0 < l ∧ l ≤ 2 ^ (18 + k) := by
  induction fuel generalizing k with
  | zero => omega
  | succ fuel ih =>
    have hpos : 0 < 2 ^ (18 + k) := Nat.two_pow_pos _
    have hlarge : 0x0003FFFF < 2 ^ (18 + k) := by
      have := Nat.pow_le_pow_right (n := 2) (by omega) (show 18 ≤ 18 + k by omega)
      omega
    rw [alignedLength, if_pos hlarge]
    split
    · exact ⟨_, rfl, hpos, le_refl _⟩
    · rename_i hmod
      cases k with
      | zero => exact (hmod (Nat.mod_eq_zero_of_dvd hlba)).elim
      | succ k =>
        have hhalf : 2 ^ (18 + (k + 1)) / 2 = 2 ^ (18 + k) := by
          rw [← Nat.add_assoc, Nat.pow_succ, Nat.mul_div_cancel _ (by omega)]
        obtain ⟨l, hl, hlpos, hle⟩ := ih (k := k) (by omega)
        have := Nat.pow_le_pow_right (n := 2) (by omega) (show 18 + k ≤ 18 + (k + 1) by omega)
        rw [hhalf]
        exact ⟨l, hl, hlpos, by omega⟩

private theorem alignedLength_of_unaligned (hlba : Slot lba) {n : Nat} (hn : n < 32)
    (hmod : lba % 2 ^ n ≠ 0) :
    ∃ l, alignedLength lba 32 (2 ^ n / 2) = some l ∧ 0 < l ∧ l < 2 ^ n := by
  have hlarge : 18 < n := by
    by_contra hle
    have hdvd : 2 ^ n ∣ 2 ^ 18 := Nat.pow_dvd_pow 2 (by omega)
    exact hmod (Nat.mod_eq_zero_of_dvd (hdvd.trans hlba))
  obtain ⟨k, rfl⟩ : ∃ k, n = 18 + k + 1 := ⟨n - 19, by omega⟩
  have hhalf : 2 ^ (18 + k + 1) / 2 = 2 ^ (18 + k) := by
    rw [Nat.pow_succ, Nat.mul_div_cancel _ (by omega)]
  obtain ⟨l, hl, hpos, hle⟩ := alignedLength_some hlba (show k < 32 by omega)
  have : 2 ^ (18 + k) < 2 ^ (18 + k + 1) := Nat.pow_lt_pow_right (by omega) (by omega)
  rw [hhalf]
  exact ⟨l, hl, hpos, by omega⟩

/-- At a turn of the loop, `a` references to `lba` being those of others: nothing is done yet, or a reference is lost for good, or the header at `lba` has just been made or names itself. -/
inductive Turn (lba parent a : Nat) (d : Device) : Nat → Nat → Prop where
  | first {len : Nat} (hrefs : d.refs lba = a) (hlen : 0 < len) : Turn lba parent a d parent len
  | leaked {len : Nat} (hrefs : a + 1 ≤ d.refs lba) : Turn lba parent a d parent len
  | leakedTwo {len : Nat} (hrefs : a + 2 ≤ d.refs lba) : Turn lba parent a d lba len
  | own {len : Nat} {h : ApaHeader} (hrefs : d.refs lba = a + 1) (hview : d.view lba = some h)
      (hlen : 0 < len ∨ h.next = lba) : Turn lba parent a d lba len

structure Loop (lba parent a : Nat) (d : Device) (clink len : Nat) : Prop where
  sound : d.Sound Slot
  clean : ∀ s, d.isDirty s = false
  fits : len < 2 ^ 32
  place : Slot clink
  readable : (d.view clink).isSome
  behind : (d.view parent).isSome
  turn : Turn lba parent a d clink len

theorem Piece.header {len : Nat} (h : Piece d e clink lba len) :
    ∃ x, e.view lba = some x ∧ (e.header lba).length = len ∧ (clink = lba → x.next = lba) := by
  obtain ⟨x, hx, hlength, hnext⟩ := h.piece
  exact ⟨x, hx, by rw [header_of_view hx, hlength], hnext⟩

private theorem markLoop_turn {a : Nat} (hlba : Slot lba) (hparent : Slot parent) (hne : lba ≠ parent)
    (h : Loop lba parent a d parent length) :
    wlp (markLoop lba parent length) d fun r e => ∃ clink, r = some clink ∧
      Loop lba parent a e clink 0 := by
  refine wlp_loop (fun x e => Loop lba parent a e x.1 x.2) ?_ h
  rintro ⟨clink, len⟩ e ⟨hsound, hclean, hfits, hplace, hreadable, hbehind, hturn⟩
  dsimp only
  split
  · rename_i hzero
    subst hzero
    exact wlp_pure ⟨clink, rfl, hsound, hclean, hfits, hplace, hreadable, hbehind, hturn⟩
  · rename_i hlen
    have hlog : Nat.log2 len < 32 := (Nat.log2_lt hlen).mpr hfits
    have hle : 2 ^ Nat.log2 len ≤ len := Nat.log2_self_le hlen
    split
    · rename_i hmod
      obtain ⟨l, hl, hpos, hlt⟩ := alignedLength_of_unaligned hlba hlog hmod
      obtain ⟨e', hrun, hpiece⟩ : ∃ e', Runs (linkEmpty clink lba l) e () e' ∧ Piece e e' clink lba l :=
        linkEmpty_spec hsound hclean hlba hplace hreadable
      obtain ⟨x, hx, hlength, hnext⟩ := hpiece.header
      have hcreate : Runs (apaCreateAlignedEmptyPartition clink lba (2 ^ Nat.log2 len)) e (some lba)
          e' := by
        unfold apaCreateAlignedEmptyPartition
        rw [hl]
        exact hrun.bind (runs_pure _ _)
      refine wlp_bind fun r e₁ hr => ?_
      obtain ⟨rfl, rfl⟩ := hr.unique hcreate
      rw [wlp_read_bind]
      refine wlp_pure ⟨hpiece.sound, hpiece.clean, Nat.mod_lt _ (by omega), hlba, by simp [hx],
        hpiece.readable _ hparent hbehind, ?_⟩
      have hrefs := hpiece.refs lba
      have hrest : u32 (len + 2 ^ 32 - u32 l) = len - l := by
        have hl32 : u32 l = l := Nat.mod_eq_of_lt (by omega)
        rw [hl32, show len + 2 ^ 32 - l = len - l + 2 ^ 32 by omega, u32, Nat.add_mod_right]
        exact Nat.mod_eq_of_lt (by omega)
      rw [hlength, hrest]
      cases hturn with
      | first hr _ =>
        rw [if_pos rfl, if_neg hne, hr] at hrefs
        exact .own hrefs hx (.inl (by omega))
      | leaked hr =>
        rw [if_pos rfl, if_neg hne] at hrefs
        exact .leakedTwo (by omega)
      | leakedTwo hr =>
        rw [if_pos rfl, if_pos rfl] at hrefs
        exact .leakedTwo (by omega)
      | own hr _ _ =>
        rw [if_pos rfl, if_pos rfl] at hrefs
        exact .own (by omega) hx (.inr (hnext rfl))
    · obtain ⟨e', hrun, hpiece⟩ : ∃ e', Runs (linkEmpty clink lba (2 ^ Nat.log2 len)) e () e' ∧
          Piece e e' clink lba (2 ^ Nat.log2 len) :=
        linkEmpty_spec hsound hclean hlba hplace hreadable
      obtain ⟨x, hx, hlength, hnext⟩ := hpiece.header
      refine wlp_bind fun r e₁ hr => ?_
      obtain ⟨-, rfl⟩ := hr.unique hrun
      rw [wlp_read_bind]
      refine wlp_pure ⟨hpiece.sound, hpiece.clean, Nat.mod_lt _ (by omega), hplace,
        hpiece.readable _ hplace hreadable, hpiece.readable _ hparent hbehind, ?_⟩
      have hrefs := hpiece.refs lba
      cases hturn with
      | first hr _ =>
        rw [if_pos rfl, if_neg hne, hr] at hrefs
        exact .leaked (by omega)
      | leaked hr =>
        rw [if_pos rfl, if_neg hne] at hrefs
        exact .leaked (by omega)
      | leakedTwo hr =>
        rw [if_pos rfl, if_pos rfl] at hrefs
        exact .leakedTwo (by omega)
      | own hr _ _ =>
        rw [if_pos rfl, if_pos rfl] at hrefs
        exact .own (by omega) hx (.inr (hnext rfl))

theorem Loop.not_filled {a : Nat} {d₀ : Device} (h : Loop lba parent a d clink 0)
    (hne : lba ≠ parent) (ha : d₀.refs lba = a) (hpos : 0 < length) :
    ¬ Filled d₀ (apaCacheFree clink d) lba parent length := by
  intro hfilled
  have hrefs := hfilled.refs lba
  rw [refs_apaCacheFree, ha] at hrefs
  cases h.turn with
  | first _ hlen => omega
  | leaked hr =>
    rw [if_neg hne] at hrefs
    omega
  | leakedTwo hr =>
    rw [if_pos rfl] at hrefs
    omega
  | @own _ x hr hview hlen =>
    obtain ⟨y, hy, hnext⟩ := hfilled.run.next_ne (by omega)
    rw [view_apaCacheFree, hview, Option.some.injEq] at hy
    subst hy
    exact hnext (hlen.resolve_left (by omega))

theorem not_filled (h : Gap st.dev lba parent length) :
    ¬ wp (MarkUnreadablePartionAsEmpty lba parent length) st fun _ st' =>
      Filled st.dev st'.dev lba parent length := by
  rintro ⟨r, st', hrun, hfilled⟩
  obtain ⟨p, hp, hstart, hlength, hend⟩ := h.parent
  have hne : lba ≠ parent := by omega
  obtain ⟨e, hget, hsame⟩ := apaCacheGetHeader_ok (S := Slot) hp h.parentPlace
  have hrefs : e.refs lba = st.dev.refs lba := by
    rcases refs_apaCacheGetHeader (d := st.dev) (s := parent) with ⟨-, hr⟩ | ⟨-, hr⟩
    · rw [hget] at hr
      simpa [hne] using hr lba
    · rw [hget] at hr
      exact hr lba
  have hloop : Loop lba parent (st.dev.refs lba) e parent length :=
    ⟨hsame.sound h.sound, fun s => by rw [hsame.isDirty, h.clean], h.fits, h.parentPlace,
      by simp [hsame.view, hp], by simp [hsame.view, hp], .first hrefs h.positive⟩
  suffices hwlp : wlp (MarkUnreadablePartionAsEmpty lba parent length) st fun _ st' =>
      ¬ Filled st.dev st'.dev lba parent length from hwlp r st' hrun hfilled
  unfold MarkUnreadablePartionAsEmpty
  rw [wlp_devOp_bind, hget]
  refine wlp_bind (wlp_onDev ((markLoop_turn h.place h.parentPlace hne hloop).mono ?_))
  rintro r e' ⟨clink, rfl, hend'⟩
  dsimp only
  rw [wlp_devDo_bind]
  exact wlp_modify (hend'.not_filled hne rfl h.positive)

/-- No gap is filled as it should be. -/
theorem MarkUnreadablePartionAsEmpty_never (h : Gap st.dev lba parent length) :
    ¬ wp (MarkUnreadablePartionAsEmpty lba parent length) st fun _ st' =>
      Filled st.dev st'.dev lba parent length := not_filled h

/-- A drive with a partition behind the MBR, one that cannot be read, and another one behind that. -/
def gapped : State :=
  bootState [linkedHeader 0xC0000 0x40000 mbrHeader,
    linkedHeader 0 0x80000 (plainHeader 0x40000 0x40000 0x0100),
    linkedHeader 0x80000 0 (plainHeader 0xC0000 0x40000 0x0100)]

private theorem gapped_parent : (gapped.dev.view 0x40000).map (fun p => (p.start, p.length)) =
    some (0x40000, 0x40000) := by
  decide +kernel

theorem gap_gapped : Gap gapped.dev 0x80000 0x40000 0x40000 where
  sound := (idle_boot (P := []) idleSector_reset fun _ _ => 0).sound
  clean := fun _ => rfl
  place := ⟨2, rfl⟩
  parentPlace := ⟨1, rfl⟩
  parent := by
    obtain ⟨p, hp, hpart⟩ := Option.map_eq_some_iff.mp gapped_parent
    obtain ⟨hstart, hlength⟩ := Prod.mk.inj hpart
    exact ⟨p, hp, hstart, by omega, by omega⟩
  multiple := ⟨1, rfl⟩
  positive := by decide
  fits := by decide

theorem MarkUnreadablePartionAsEmpty_never_gapped :
    ¬ wp (MarkUnreadablePartionAsEmpty 0x80000 0x40000 0x40000) gapped fun _ st' =>
      Filled gapped.dev st'.dev 0x80000 0x40000 0x40000 :=
  MarkUnreadablePartionAsEmpty_never gap_gapped

/-- A gap of one smallest partition, which needs a single piece. -/
theorem MarkUnreadablePartionAsEmpty_keeps_buffer :
    Gap gapped.dev 0x80000 0x40000 0x40000 ∧
      ¬ wp (MarkUnreadablePartionAsEmpty 0x80000 0x40000 0x40000) gapped fun _ st' =>
        Filled gapped.dev st'.dev 0x80000 0x40000 0x40000 :=
  ⟨gap_gapped, not_filled gap_gapped⟩

end HddChecker.Hdck
