import HddChecker.Apa.Hidden

/-!
# What the result of a deletion says

`apaDelete` fetches the headers of the empty block that grows in the place of the deleted partition, and those beside it; for the last partition it fetches the MBR and goes back over the empty partitions before it. When one of them cannot be read it gives up and returns 0, as if the partition were gone. Only the MBR that is fetched for the last partition makes it return an error.
-/

namespace HddChecker.Apa

open HddChecker Prog Device

variable {bad : Nat → Bool} {d : Device} {m x y q : ApaHeader} {A B : List ApaHeader}
  {w : WriteBack (Option Sector)}

/-- The length the empty block in the place of `x` has after two rounds over both sides: each buddy doubles it. -/
def grownLength (A : List ApaHeader) (x : ApaHeader) (B : List ApaHeader) : Nat :=
  x.length * 2 ^ ((buddySides A.reverse x.start x.length B).length -
    (skipBoth 2 (buddySides A.reverse x.start x.length B)).length)

def grownStart (A : List ApaHeader) (x : ApaHeader) (B : List ApaHeader) : Nat :=
  x.start / grownLength A x B * grownLength A x B

/-- `apaDelete` of `x` between `A` and `B` fetches the header of `q`. -/
def Fetches (m : ApaHeader) (A : List ApaHeader) (x : ApaHeader) (B : List ApaHeader)
    (q : ApaHeader) : Prop :=
  B = [] ∧ (q = m ∨ LeadsToEnd (m :: A) q) ∨
    B ≠ [] ∧ q ∈ m :: (A ++ B) ∧ grownStart A x B ≤ q.start + q.length ∧
      q.start ≤ grownStart A x B + grownLength A x B

private theorem length_skipBoth_le (i : Nat) (W : List Side) : (skipBoth i W).length ≤ W.length := by
  induction i generalizing W with
  | zero => exact le_refl _
  | succ i ih =>
    rw [skipBoth, Function.iterate_succ_apply]
    refine (ih _).trans ?_
    exact (List.dropWhile_sublist _).length_le.trans (List.dropWhile_sublist _).length_le

private theorem grown_eq (hy : Part y) (hlo : y.start ≤ x.start) (hhi : x.start < y.start + y.length)
    (hlength : y.length * 2 ^ (skipBoth 2 (buddySides A.reverse x.start x.length B)).length =
      x.length * 2 ^ (buddySides A.reverse x.start x.length B).length) :
    grownLength A x B = y.length ∧ grownStart A x B = y.start := by
  set W := buddySides A.reverse x.start x.length B with hW
  have hle := length_skipBoth_le 2 W
  have hgrown : grownLength A x B = y.length := by
    rw [grownLength, ← hW]
    refine Nat.eq_of_mul_eq_mul_right (Nat.two_pow_pos (skipBoth 2 W).length) ?_
    rw [Nat.mul_assoc, ← Nat.pow_add, Nat.sub_add_cancel hle, hlength]
  refine ⟨hgrown, ?_⟩
  obtain ⟨k, hk⟩ := hy.dyadic.dvd
  have hdiv : x.start / y.length = k := by
    refine Nat.div_eq_of_lt_le ?_ ?_
    · rw [Nat.mul_comm]
      omega
    · rw [Nat.succ_mul, Nat.mul_comm]
      omega
  rw [grownStart, hgrown, hdiv, hk, Nat.mul_comm]

namespace Device

theorem view_apaSaveError {s err : Nat} (hs : Slot s) :
    (apaSaveError APA_SECTOR_SECTOR_ERROR err d).view s = d.view s := by
  have hdisk : ∀ a, a ≠ APA_SECTOR_SECTOR_ERROR →
      (apaSaveError APA_SECTOR_SECTOR_ERROR err d).disk a = d.disk a := by
    intro a ha
    exact ataWrite_disk_outside (by
      simp only [List.length_singleton]
      omega)
  have hclear := places_slot.clear s hs
  simp only [APA_SECTOR_SECTOR_ERROR, APA_SECTOR_APAL_HEADERS] at hclear hdisk
  refine view_of_eq ?_ (hdisk _ (by omega)) (hdisk _ (by omega))
  rw [apaSaveError, ataFlushCache, ataWrite_cache]

private theorem apaDelete_mbr (h : Steady noPromise w d (m :: A)) (h0 : Readable bad 0) :
    wp (apaDelete 0) (hide bad d) fun rv e => rv < 0 ∧ ∀ s, e.view s = (hide bad d).view s := by
  obtain ⟨vm, hvm, hbody, -⟩ := (show Steady noPromise w d ([] ++ m :: A) from h).node
  have hm := h.tiles.1
  rw [hm] at hvm
  have hstart : vm.start = 0 := by
    rw [← hm, ← hbody]
    rfl
  rw [apaDelete]
  simp only [wp_read_bind, header_hide h0, header_of_view hvm, hstart, if_true, wp_modify_bind,
    wp_pure_iff]
  exact ⟨by decide, fun s => view_apaCacheFree⟩

private theorem apaDelete_refuses (h : Steady noPromise w d (m :: (A ++ [x]))) (hclear : Clear bad d)
    (hread : Readable bad x.start) (h0 : ¬ Readable bad 0) :
    wp (apaDelete x.start) (hide bad d) fun rv e => rv < 0 ∧
      ∀ s, Slot s → e.view s = (hide bad d).view s := by
  obtain ⟨vx, hvx, hbody, -, hnext⟩ := (show Steady noPromise w d ((m :: A) ++ x :: []) from h).node
  have hstart : vx.start = x.start := ApaHeader.start_of_body hbody
  have hx0 : x.start ≠ 0 := h.tiles.keys.ne_zero (y := x) (by simp)
  rw [apaDelete]
  simp only [wp_read_bind, header_hide hread, header_of_view hvx, hstart, hx0, if_false, hnext,
    headerLinks.head_nil, if_true, wp_ofState_bind, get_hidden hclear h0, wp_modify_bind, wp_pure_iff]
  exact ⟨by decide, fun s hs => by rw [view_apaCacheFree, view_apaSaveError hs]⟩

/-- Where the MBR is at hand for the last partition, the call returns 0 in each case: on the hidden drive it does the same where every header it fetches can be read. -/
theorem apaDelete_hide (h : Steady noPromise w d (m :: (A ++ x :: B))) (hclear : Clear bad d)
    (hread : Readable bad x.start) (hB : B = [] ∨ used B ≠ []) (h0 : B = [] → Readable bad 0) :
    wp (apaDelete x.start) d fun _ e =>
      (∀ q, Fetches m A x B q → Readable bad q.start) ∧
          wp (apaDelete x.start) (hide bad d) (fun r' e' => r' = 0 ∧ e' = hide bad e) ∨
        (∃ q, Fetches m A x B q ∧ ¬ Readable bad q.start) ∧
          wp (apaDelete x.start) (hide bad d) fun r' _ => r' = 0 := by
  have htiles := h.tiles
  obtain ⟨vx, hvx, hxbody, -, hxnext⟩ := (show Steady noPromise w d ((m :: A) ++ x :: B) from h).node
  have hxstart : vx.start = x.start := ApaHeader.start_of_body hxbody
  have hxlength : vx.length = x.length := ApaHeader.length_of_body hxbody
  have hx0 : x.start ≠ 0 := htiles.keys.ne_zero (y := x) (by simp)
  rw [apaDelete]
  simp only [wp_read_bind, header_hide hread, header_of_view hvx, hxstart, hx0, if_false, hxnext]
  cases B with
  | nil =>
    obtain ⟨vm, hvm, -⟩ := (show Steady noPromise w d ([] ++ m :: (A ++ [x])) from h).node
    rw [htiles.1] at hvm
    obtain ⟨e, hget, hsame⟩ := apaCacheGetHeader_ok (S := Slot) hvm ⟨0, rfl⟩
    obtain ⟨hget', hclear'⟩ := get_hide hclear (h0 rfl) hget
    have hfetches : ∀ q, Fetches m A x [] q ↔ q = m ∨ LeadsToEnd (m :: A) q := by
      simp [Fetches]
    simp only [headerLinks.head_nil, if_true, wp_ofState_bind, hget, hget', hfetches]
    refine wp_bind ((cutLoop_hide (h.same hsame) hclear' hread (h0 rfl)).mono ?_)
    rintro _ e' ⟨c, rfl, hcases⟩
    simp only [wp_modify_bind, wp_pure_iff]
    rcases hcases with ⟨hall, hclear'', hc, hrun⟩ | ⟨⟨q, hq, hbad⟩, hrun⟩
    · refine .inl ⟨?_, wp_bind (hrun.mono ?_)⟩
      · rintro q (rfl | hq)
        · rw [htiles.1]
          exact h0 rfl
        · exact hall q hq
      · rintro _ _ ⟨rfl, rfl⟩
        simp only [wp_modify_bind, wp_pure_iff, hide_apaCacheFree (h0 rfl), hide_apaCacheFree hc, and_self]
    · refine .inr ⟨⟨q, .inr hq, hbad⟩, wp_bind (hrun.mono ?_)⟩
      rintro _ _ rfl
      exact wp_pure rfl
  | cons b B =>
    have hb0 : b.start ≠ 0 := htiles.keys.ne_zero (y := b) (by simp)
    rw [headerLinks.head_cons, headerLinks_key, if_neg hb0]
    refine wp_bind ((fixBoth_hide 1 h hclear hread (by simpa using hB)).mono ?_)
    rintro _ e ⟨A', y, B', rfl, hfixed, hlength, hsteady, hcases⟩
    obtain ⟨hlo, hhi, -⟩ := hfixed.inside htiles hsteady.tiles
    have hxpart := htiles.part (x := x) (by simp)
    have hypart := hsteady.tiles.part (x := y) (by simp)
    obtain ⟨hgrown, hstart⟩ := grown_eq hypart hlo (by
      have := hxpart.two_le
      omega) hlength
    have hfetches : ∀ q, Fetches m A x (b :: B) q ↔ q ∈ m :: (A ++ b :: B) ∧ Beside y q := by
      simp [Fetches, hgrown, hstart, Beside]
    obtain ⟨vy, hvy, hybody, -⟩ := (show Steady noPromise w e ((m :: A') ++ y :: B') from hsteady).node
    have hystart : vy.start = y.start := ApaHeader.start_of_body hybody
    have hylength : vy.length = y.length := ApaHeader.length_of_body hybody
    have hyslot := hypart.slot
    simp only [wp_read_bind, header_of_view hvy, hystart, hylength, hxlength, hfetches]
    by_cases hkept : y.start = x.start ∧ y.length = x.length
    · simp only [if_pos hkept, wp_modify_bind, wp_ofState_bind, wp_pure_iff]
      rcases hcases with ⟨hall, hclear', hy, hrun⟩ | ⟨⟨q, hq, hbeside, hbad⟩, hrun⟩
      · refine .inl ⟨fun q hq => hall q hq.1 hq.2, wp_bind (hrun.mono ?_)⟩
        rintro _ _ ⟨rfl, rfl⟩
        obtain ⟨created, hs⟩ := (hsteady.shows (.refl _ _)).makeEmpty hyslot (by simp [hvy])
        obtain ⟨hflush, -⟩ := flush_hide_of_shows hs (hclear'.makeEmpty hy) (by simp)
        simp only [wp_read_bind, header_hide hy, header_of_view hvy, hystart, hylength, if_pos hkept,
          wp_modify_bind, wp_ofState_bind, hide_apaMakeEmpty hy, hflush, wp_pure_iff,
          hide_apaCacheFree hy, and_self]
      · refine .inr ⟨⟨q, ⟨hq, hbeside⟩, hbad⟩, wp_bind (hrun.mono ?_)⟩
        rintro _ _ rfl
        exact wp_pure rfl
    · simp only [if_neg hkept, wp_modify_bind, wp_pure_iff]
      rcases hcases with ⟨hall, hclear', hy, hrun⟩ | ⟨⟨q, hq, hbeside, hbad⟩, hrun⟩
      · refine .inl ⟨fun q hq => hall q hq.1 hq.2, wp_bind (hrun.mono ?_)⟩
        rintro _ _ ⟨rfl, rfl⟩
        simp only [wp_read_bind, header_hide hy, header_of_view hvy, hystart, hylength, if_neg hkept,
          wp_modify_bind, wp_pure_iff, hide_apaCacheFree hy, and_self]
      · refine .inr ⟨⟨q, ⟨hq, hbeside⟩, hbad⟩, wp_bind (hrun.mono ?_)⟩
        rintro _ _ rfl
        exact wp_pure rfl

end Device

/-! ### The claim of the result -/

/-- What the result of `apaDelete` should say on a drive some sectors of which cannot be read: 0 only where the table is now one without `x`, and an error with nothing changed where a header that is fetched cannot be read. -/
def Truthful (bad : Nat → Bool) (d : Device) (m : ApaHeader) (A : List ApaHeader) (x : ApaHeader)
    (B : List ApaHeader) : Prop :=
  wp (apaDelete x.start) (hide bad d) fun rv e' =>
    (rv = 0 → ∃ e L, e' = hide bad e ∧ Without e m A x B L) ∧
    ((∃ q, Fetches m A x B q ∧ ¬ Readable bad q.start) →
      rv < 0 ∧ ∀ s, Slot s → e'.view s = (hide bad d).view s)

theorem not_truthful (h : Steady noPromise w d (m :: (A ++ x :: B))) (hclear : Clear bad d)
    (hread : Readable bad x.start) (hB : B = [] ∨ used B ≠ []) (h0 : B = [] → Readable bad 0)
    (hq : Fetches m A x B q) (hbad : ¬ Readable bad q.start) : ¬ Truthful bad d m A x B := by
  intro htrue
  obtain ⟨r, e, -, hcases⟩ := apaDelete_hide h hclear hread hB h0
  rcases hcases with ⟨hall, -⟩ | ⟨-, rv, e', hrun, hzero⟩
  · exact hbad (hall q hq)
  · obtain ⟨rv', e'', hrun', -, hneg⟩ := htrue
    obtain ⟨rfl, -⟩ := hrun.unique hrun'
    have := (hneg ⟨q, hq, hbad⟩).1
    omega

private theorem readable_of_given (hclear : Clear bad d) (hgiven : ∃ b ∈ d.cache, b.sector = x.start) :
    Readable bad x.start := by
  obtain ⟨b, hb, hsector⟩ := hgiven
  rw [← hsector]
  exact hclear.cached b hb

/-- The result is true where each header that is fetched can be read, and where the last partition is deleted and the MBR cannot be read. Otherwise it is 0 for a partition that may still be there. The MBR itself is refused. -/
theorem apaDelete_truthful (hidle : d.Idle (m :: (A ++ x :: B)))
    (hring : headerLinks.Ring (apaReadHeader d.disk) (m :: (A ++ x :: B)))
    (htiles : Tiles 0 (m :: (A ++ x :: B))) (hlast : LastUsed (m :: (A ++ x :: B)))
    (hclear : Clear bad d) (hgiven : ∃ b ∈ d.cache, b.sector = x.start) :
    (Truthful bad d m A x B ↔
      B = [] ∧ ¬ Readable bad 0 ∨ ∀ q, Fetches m A x B q → Readable bad q.start) ∧
    (Readable bad 0 → wp (apaDelete 0) (hide bad d) fun rv e' => rv < 0 ∧
      ∀ s, e'.view s = (hide bad d).view s) := by
  have hsteady : Steady noPromise ⟨d.disk, []⟩ d (m :: (A ++ x :: B)) :=
    hidle.steady (by simp) hring htiles trivial
  have hread := readable_of_given hclear hgiven
  refine ⟨?_, apaDelete_mbr hsteady⟩
  by_cases hmbr : B = [] ∧ ¬ Readable bad 0
  · obtain ⟨rfl, h0⟩ := hmbr
    refine iff_of_true ?_ (.inl ⟨rfl, h0⟩)
    refine (apaDelete_refuses hsteady hclear hread h0).mono ?_
    rintro rv e' ⟨hneg, hview⟩
    exact ⟨fun hzero => absurd hzero (by omega), fun _ => ⟨hneg, hview⟩⟩
  · have h0 : B = [] → Readable bad 0 := fun hnil => by
      by_contra hnot
      exact hmbr ⟨hnil, hnot⟩
    simp only [hmbr, false_or]
    constructor
    · intro htrue q hq
      by_contra hbad
      exact not_truthful hsteady hclear hread hlast.used_ne_nil h0 hq hbad htrue
    · intro hall
      obtain ⟨r, e, hrun, hcases⟩ := apaDelete_hide hsteady hclear hread hlast.used_ne_nil h0
      rcases hcases with ⟨-, hhidden⟩ | ⟨⟨q, hq, hbad⟩, -⟩
      · refine hhidden.mono ?_
        rintro _ _ ⟨rfl, rfl⟩
        refine ⟨fun _ => ?_, fun ⟨q, hq, hbad⟩ => (hbad (hall q hq)).elim⟩
        obtain ⟨-, L, hdeleted, hafter⟩ :=
          (apaDelete_spec hsteady hlast.used_ne_nil trivial).wlp r e hrun
        exact ⟨e, L, rfl, hafter.ring_disk, fun y hy => (hafter.stored y hy).symm, hafter.tiles,
          hdeleted.lastUsed hlast, hdeleted.used_eq, hdeleted.gone htiles hafter.tiles⟩
      · exact (hbad (hall q hq)).elim

/-- The header of the second of two partitions cannot be read. -/
def badSecond (a : Nat) : Bool := a == 0x80000

theorem badSecond_clear : Clear badSecond (fetched twoParts 0x40000) where
  log := fun a ha => by
    by_contra hbad
    rw [Bool.not_eq_false, badSecond, beq_iff_eq] at hbad
    subst hbad
    refine ha ⟨fun harea => ?_, by decide⟩
    exact absurd harea.2 (by decide)
  cached := by decide +kernel

private theorem badSecond_given : ∃ b ∈ (fetched twoParts 0x40000).cache, b.sector = 0x40000 := by
  decide +kernel

theorem apaDelete_truthful_badSecond :
    (Truthful badSecond (fetched twoParts 0x40000) mbrHeader [] (plainHeader 0x40000 0x40000 0x0100)
        [plainHeader 0x80000 0x40000 0x0100] ↔
      [plainHeader 0x80000 0x40000 0x0100] = [] ∧ ¬ Readable badSecond 0 ∨
        ∀ q, Fetches mbrHeader [] (plainHeader 0x40000 0x40000 0x0100)
          [plainHeader 0x80000 0x40000 0x0100] q → Readable badSecond q.start) ∧
    (Readable badSecond 0 → wp (apaDelete 0) (hide badSecond (fetched twoParts 0x40000))
      fun rv e' => rv < 0 ∧
        ∀ s, e'.view s = (hide badSecond (fetched twoParts 0x40000)).view s) :=
  have hx : plainHeader 0x40000 0x40000 0x0100 ∈ twoParts := by decide
  apaDelete_truthful (A := []) (x := plainHeader 0x40000 0x40000 0x0100)
    (fetched_idle twoParts_tiles twoParts_body hx) (fetched_ring twoParts_tiles twoParts_body hx)
    twoParts_tiles twoParts_lastUsed badSecond_clear badSecond_given

private theorem badSecond_fetches : Fetches mbrHeader [] (plainHeader 0x40000 0x40000 0x0100)
    [plainHeader 0x80000 0x40000 0x0100] (plainHeader 0x80000 0x40000 0x0100) := by
  have hsides : buddySides [] 0x40000 0x40000 [plainHeader 0x80000 0x40000 0x0100] = [] :=
    buddySides_nil (by decide) (by decide)
  have hgrown : grownLength [] (plainHeader 0x40000 0x40000 0x0100)
      [plainHeader 0x80000 0x40000 0x0100] = 0x40000 := by
    unfold grownLength
    rw [show buddySides [].reverse (plainHeader 0x40000 0x40000 0x0100).start
      (plainHeader 0x40000 0x40000 0x0100).length [plainHeader 0x80000 0x40000 0x0100] = [] from hsides]
    decide
  refine .inr ⟨by simp, by simp, ?_⟩
  rw [grownStart, hgrown]
  decide

/-- A partition whose right neighbour cannot be read is reported as deleted. -/
theorem apaDelete_silent : Clear badSecond (fetched twoParts 0x40000) ∧
    (fetched twoParts 0x40000).Idle twoParts ∧
    headerLinks.Ring (apaReadHeader (fetched twoParts 0x40000).disk) twoParts ∧
    Tiles 0 twoParts ∧ LastUsed twoParts ∧
    ¬ Truthful badSecond (fetched twoParts 0x40000) mbrHeader []
      (plainHeader 0x40000 0x40000 0x0100) [plainHeader 0x80000 0x40000 0x0100] := by
  have hx : plainHeader 0x40000 0x40000 0x0100 ∈ twoParts := by decide
  have hidle := fetched_idle twoParts_tiles twoParts_body hx
  have hring := fetched_ring twoParts_tiles twoParts_body hx
  refine ⟨badSecond_clear, hidle, hring, twoParts_tiles, twoParts_lastUsed, ?_⟩
  exact not_truthful (A := []) (hidle.steady (by decide) hring twoParts_tiles trivial) badSecond_clear
    (by decide) (.inr (by decide)) (by simp) badSecond_fetches (by decide)

end HddChecker.Apa
