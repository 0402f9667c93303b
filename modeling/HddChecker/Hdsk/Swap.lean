import HddChecker.Hdsk.Copy

/-!
# Swapping two headers

`SwapPartition` lets the header of an empty partition and that of a used one of the same length change places: the used one goes with its references, and what it leaves is `_tmp`. All changed headers are written in one flush.
-/

namespace HddChecker.Hdsk

open HddChecker Apa Apa.Device Prog State

/-- The header `SwapPartition` leaves where `x` was. -/
def tmpHeader (x : ApaHeader) : ApaHeader :=
  { ApaHeader.zero with
    magic := APA_MAGIC, start := x.start, length := x.length, modver := APA_MODVER,
    type := x.type, id := tmpId }

/-- The header `y` of a table in which `x` went to `dest`. -/
def swapped (x : ApaHeader) (dest : Nat) (y : ApaHeader) : ApaHeader :=
  if y.start = dest then { x with start := dest }
  else if y.start = x.start then tmpHeader x
  else relocate (Equiv.swap x.start dest) y

/-- The used partition `x` and the empty one `dest` of the table `P` can change places. -/
structure Swappable (P : List ApaHeader) (dest x : ApaHeader) : Prop where
  tiles : Tiles 0 P
  refs : Refs False (used P)
  destMem : dest ∈ P
  free : dest.isFree = true
  mem : x ∈ P
  used : x.isFree = false
  start : x.start ≠ 0
  length : dest.length = x.length

variable {P : List ApaHeader} {dest x y : ApaHeader}

theorem tmpHeader_isTmp : (tmpHeader x).isTmp = true := by
  simp [tmpHeader, ApaHeader.isTmp, ApaHeader.isSub, ApaHeader.zero]

@[simp] theorem tmpHeader_isFree : (tmpHeader x).isFree = x.isFree := rfl

theorem relocate_eq {ρ : Equiv.Perm Nat} (hmain : x.isSub = true → ρ x.main = x.main)
    (hsubs : x.isSub = false → ∀ i < x.nsub, ρ (x.sub i).start = (x.sub i).start) :
    relocate ρ x = { x with start := ρ x.start } := by
  have hm : (relocate ρ x).main = x.main := by
    cases hx : x.isSub with
    | true => rw [relocate_main hx, hmain hx]
    | false => simp [relocate, hx]
  have hs : (relocate ρ x).subs = x.subs := by
    funext i
    by_cases hi : x.isSub = false ∧ i.val < x.nsub
    · have hsub := hsubs hi.1 i.val hi.2
      simp only [ApaHeader.sub, i.isLt, dite_true] at hsub
      simp [relocate, hi, hsub]
    · simp [relocate, hi]
  calc relocate ρ x = { relocate ρ x with main := (relocate ρ x).main, subs := (relocate ρ x).subs } := rfl
    _ = { x with start := ρ x.start } := by rw [hm, hs]; rfl

theorem relocate_listed (hsub : y.isSub = true) (hmain : y.main = x.start) :
    relocate (Equiv.swap x.start dest.start) y =
      { y with start := Equiv.swap x.start dest.start y.start, main := dest.start } := by
  have hsubs : (relocate (Equiv.swap x.start dest.start) y).subs = y.subs := by
    funext j
    simp [relocate, hsub]
  have hm : (relocate (Equiv.swap x.start dest.start) y).main = dest.start := by
    rw [relocate_main hsub, hmain, Equiv.swap_apply_left]
  calc relocate (Equiv.swap x.start dest.start) y
      = { relocate (Equiv.swap x.start dest.start) y with
          main := (relocate (Equiv.swap x.start dest.start) y).main
          subs := (relocate (Equiv.swap x.start dest.start) y).subs } := rfl
    _ = _ := by rw [hm, hsubs]; rfl

private theorem used_map_relocate (ρ : Equiv.Perm Nat) (R : List ApaHeader) :
    used (R.map (relocate ρ)) = (used R).map (relocate ρ) := by
  rw [Apa.used, Apa.used, List.filter_map]
  rfl

theorem swapped_dest (x dest : ApaHeader) :
    swapped x dest.start dest = { x with start := dest.start } := if_pos rfl

namespace Swappable

theorem dest_ne (h : Swappable P dest x) : dest ≠ x := by
  rintro rfl
  have hfree := h.free
  rw [h.used] at hfree
  cases hfree

theorem start_ne (h : Swappable P dest x) : dest.start ≠ x.start :=
  fun heq => h.dest_ne (h.tiles.eq_of_start h.destMem h.mem heq)

theorem dest_start (h : Swappable P dest x) : dest.start ≠ 0 := by
  intro hzero
  have hmbr := ((h.tiles.part h.destMem).mbr hzero).2.1
  rw [h.free] at hmbr
  cases hmbr

theorem mem_used (h : Swappable P dest x) : x ∈ Apa.used P := Apa.mem_used.mpr ⟨h.mem, h.used⟩

theorem used_start (h : Swappable P dest x) (hy : y ∈ Apa.used P) : y.start ≠ dest.start := by
  obtain ⟨hyP, hyused⟩ := Apa.mem_used.mp hy
  intro heq
  rw [h.tiles.eq_of_start hyP h.destMem heq, h.free] at hyused
  cases hyused

theorem main_ne (h : Swappable P dest x) (hy : y ∈ Apa.used P) (hsub : y.isSub = true) :
    y.main ≠ dest.start := by
  obtain ⟨m, hm, -, hstart, -⟩ := h.refs.listed y hy hsub
  rw [← hstart]
  exact h.used_start hm

theorem sub_ne (h : Swappable P dest x) (hy : y ∈ Apa.used P) (hmain : y.isSub = false) {i : Nat}
    (hi : i < y.nsub) : (y.sub i).start ≠ dest.start := by
  obtain ⟨z, hz, -, hstart, -⟩ := h.refs.named y hy hmain i hi
  rw [← hstart]
  exact h.used_start hz

theorem relocate_other (h : Swappable P dest x) (hy : y ∈ Apa.used P)
    (hmain : y.isSub = true → y.main ≠ x.start)
    (hsubs : y.isSub = false → ∀ i < y.nsub, (y.sub i).start ≠ x.start) :
    relocate (Equiv.swap x.start dest.start) y =
      { y with start := Equiv.swap x.start dest.start y.start } :=
  relocate_eq (fun hsub => Equiv.swap_apply_of_ne_of_ne (hmain hsub) (h.main_ne hy hsub))
    fun hm i hi => Equiv.swap_apply_of_ne_of_ne (hsubs hm i hi) (h.sub_ne hy hm hi)

theorem main_eq (h : Swappable P dest x) (hy : y ∈ Apa.used P) (hmain : y.isSub = false) {i : Nat}
    (hi : i < y.nsub) (hstart : (y.sub i).start = x.start) : x.isSub = true ∧ x.main = y.start := by
  obtain ⟨z, hz, hsub, hzstart, hzmain⟩ := h.refs.named y hy hmain i hi
  obtain rfl := h.tiles.eq_of_start (Apa.mem_used.mp hz).1 h.mem (hzstart.trans hstart)
  exact ⟨hsub, hzmain⟩

theorem isSub_eq (h : Swappable P dest x) (hy : y ∈ Apa.used P) (hsub : y.isSub = true)
    (hmain : y.main = x.start) : x.isSub = false ∧ ∃ i < x.nsub, (x.sub i).start = y.start := by
  obtain ⟨m, hm, hmmain, hstart, hlist⟩ := h.refs.listed y hy hsub
  obtain rfl := h.tiles.eq_of_start (Apa.mem_used.mp hm).1 h.mem (hstart.trans hmain)
  exact ⟨hmmain, hlist.resolve_right fun hf => hf.1⟩

theorem relocate_self (h : Swappable P dest x) :
    relocate (Equiv.swap x.start dest.start) x = { x with start := dest.start } := by
  rw [h.relocate_other h.mem_used ?_ ?_, Equiv.swap_apply_left]
  · intro hsub hmain
    rw [(h.isSub_eq h.mem_used hsub hmain).1] at hsub
    cases hsub
  · intro hmain i hi hstart
    rw [(h.main_eq h.mem_used hmain hi hstart).1] at hmain
    cases hmain

/-- The main of `x` names the new place. -/
theorem relocate_lister (h : Swappable P dest x) (hy : y ∈ Apa.used P) (hmain : y.isSub = false)
    {i : Nat} (hi : i < y.nsub) (hstart : (y.sub i).start = x.start) :
    relocate (Equiv.swap x.start dest.start) y =
      { y with
        start := Equiv.swap x.start dest.start y.start
        subs := fun j => if j.val = i then ⟨dest.start, (y.subs j).length⟩ else y.subs j } := by
  have hfew := h.refs.few y hy hmain
  have hsubs : (relocate (Equiv.swap x.start dest.start) y).subs =
      fun j => if j.val = i then ⟨dest.start, (y.subs j).length⟩ else y.subs j := by
    funext j
    have hsub : y.sub j.val = y.subs j := by simp [ApaHeader.sub]
    by_cases hj : j.val < y.nsub
    · simp only [relocate, hmain, hj, and_self, if_true]
      by_cases hji : j.val = i
      · rw [if_pos hji, ← hsub, hji, hstart, Equiv.swap_apply_left]
      · rw [if_neg hji, ← hsub, Equiv.swap_apply_of_ne_of_ne _ (h.sub_ne hy hmain hj)]
        exact fun heq => hji (h.refs.apart y hy hmain _ hj i hi (heq.trans hstart.symm))
    · rw [if_neg (show j.val ≠ i by omega)]
      simp [relocate, hj]
  have hm : (relocate (Equiv.swap x.start dest.start) y).main = y.main := by
    simp [relocate, hmain]
  rw [← hsubs]
  calc relocate (Equiv.swap x.start dest.start) y
      = { relocate (Equiv.swap x.start dest.start) y with
          main := (relocate (Equiv.swap x.start dest.start) y).main } := rfl
    _ = _ := by rw [hm]; rfl

private theorem relocate_free (h : Swappable P dest x) (hy : y ∈ P) (hfree : y.isFree = true)
    (hne : y ≠ dest) : relocate (Equiv.swap x.start dest.start) y = y := by
  have hblank := (h.tiles.part hy).blank hfree
  have hsub : y.isSub = false := by
    rw [ApaHeader.isSub, hblank.1]
    rfl
  rw [relocate_eq (fun h => ?_) (fun _ i hi => ?_)]
  · have hx : y.start ≠ x.start := by
      intro heq
      rw [h.tiles.eq_of_start hy h.mem heq, h.used] at hfree
      cases hfree
    rw [Equiv.swap_apply_of_ne_of_ne hx fun heq => hne (h.tiles.eq_of_start hy h.destMem heq)]
  · rw [hsub] at h
    cases h
  · omega

theorem relocate_unnamed (h : Swappable P dest x) (hy : y ∈ P) (hd : y ≠ dest) (hx : y ≠ x)
    (hmain : y ∈ Apa.used P → y.isSub = true → y.main ≠ x.start)
    (hsubs : y ∈ Apa.used P → y.isSub = false → ∀ i < y.nsub, (y.sub i).start ≠ x.start) :
    relocate (Equiv.swap x.start dest.start) y = y := by
  cases hfree : y.isFree with
  | true => exact h.relocate_free hy hfree hd
  | false =>
    have hyU : y ∈ Apa.used P := Apa.mem_used.mpr ⟨hy, hfree⟩
    rw [h.relocate_other hyU (hmain hyU) (hsubs hyU), Equiv.swap_apply_of_ne_of_ne]
    · exact fun heq => hx (h.tiles.eq_of_start hy h.mem heq)
    · exact h.used_start hyU

theorem swapped_self (h : Swappable P dest x) : swapped x dest.start x = tmpHeader x := by
  rw [swapped, if_neg h.start_ne.symm, if_pos rfl]

theorem swapped_other (h : Swappable P dest x) (hy : y ∈ P) (hd : y ≠ dest) (hx : y ≠ x) :
    swapped x dest.start y = relocate (Equiv.swap x.start dest.start) y := by
  rw [swapped, if_neg fun heq => hd (h.tiles.eq_of_start hy h.destMem heq),
    if_neg fun heq => hx (h.tiles.eq_of_start hy h.mem heq)]

end Swappable

theorem swapped_start (x : ApaHeader) (d : Nat) (y : ApaHeader) :
    (swapped x d y).start = y.start := by
  unfold swapped
  split
  · rename_i h
    exact h.symm
  · rename_i h
    split
    · rename_i h'
      exact h'.symm
    · rename_i h'
      exact Equiv.swap_apply_of_ne_of_ne h' h

namespace Swappable

private theorem length_swapped (h : Swappable P dest x) (hy : y ∈ P) :
    (swapped x dest.start y).length = y.length := by
  by_cases hd : y = dest
  · rw [hd, swapped_dest]
    exact h.length.symm
  · by_cases hx : y = x
    · rw [hx, h.swapped_self]
      rfl
    · rw [h.swapped_other hy hd hx]
      rfl

theorem part_swapped (h : Swappable P dest x) (hy : y ∈ P) : Part (swapped x dest.start y) := by
  have hpx := h.tiles.part h.mem
  have hpd := h.tiles.part h.destMem
  have hlength := h.length
  by_cases hd : y = dest
  · rw [hd, swapped_dest]
    refine ⟨hpx.magic, ?_, hpx.large, ?_, fun hzero => (h.dest_start hzero).elim, fun hfree => ?_⟩
    · rw [← hlength]
      exact hpd.dyadic
    · rw [← hlength]
      exact hpd.top
    · have hused : x.isFree = true := hfree
      rw [h.used] at hused
      cases hused
  · by_cases hx : y = x
    · rw [hx, h.swapped_self]
      refine ⟨rfl, hpx.dyadic, hpx.large, hpx.top, fun hzero => (h.start hzero).elim, fun hfree => ?_⟩
      rw [tmpHeader_isFree, h.used] at hfree
      cases hfree
    · rw [h.swapped_other hy hd hx]
      have hpy := h.tiles.part hy
      have hstart : (relocate (Equiv.swap x.start dest.start) y).start = y.start :=
        Equiv.swap_apply_of_ne_of_ne (fun heq => hx (h.tiles.eq_of_start hy h.mem heq))
          fun heq => hd (h.tiles.eq_of_start hy h.destMem heq)
      refine ⟨hpy.magic, ?_, hpy.large, ?_, ?_, hpy.blank⟩
      · rw [hstart]
        exact hpy.dyadic
      · rw [hstart]
        exact hpy.top
      · rw [hstart]
        exact hpy.mbr

private theorem tiles_swapped (h : Swappable P dest x) : Tiles 0 (P.map (swapped x dest.start)) :=
  h.tiles.map fun y hy => ⟨swapped_start x _ y, h.length_swapped hy, h.part_swapped hy⟩

/-- The used partitions after the swap: `_tmp`, and those before at their new places. -/
theorem used_swapped (h : Swappable P dest x) :
    (Apa.used (P.map (swapped x dest.start))).Perm
      (tmpHeader x :: (Apa.used P).map (relocate (Equiv.swap x.start dest.start))) := by
  set R := (P.erase dest).erase x with hR
  have hx : x ∈ P.erase dest := (List.mem_erase_of_ne h.dest_ne.symm).mpr h.mem
  have hP : P.Perm (dest :: x :: R) :=
    (List.perm_cons_erase h.destMem).trans ((List.perm_cons_erase hx).cons dest)
  have hnodup := h.tiles.nodup
  have hRmem : ∀ y ∈ R, y ∈ P ∧ y ≠ dest ∧ y ≠ x := by
    intro y hy
    have hy' := List.mem_of_mem_erase hy
    refine ⟨List.mem_of_mem_erase hy', ?_, ?_⟩
    · rintro rfl
      exact hnodup.not_mem_erase hy'
    · rintro rfl
      exact (hnodup.erase dest).not_mem_erase hy
  have hmap : R.map (swapped x dest.start) = R.map (relocate (Equiv.swap x.start dest.start)) :=
    List.map_congr_left fun y hy => by
      obtain ⟨hyP, hyd, hyx⟩ := hRmem y hy
      exact h.swapped_other hyP hyd hyx
  have hleft : (Apa.used (P.map (swapped x dest.start))).Perm
      ({ x with start := dest.start } :: tmpHeader x ::
        (Apa.used R).map (relocate (Equiv.swap x.start dest.start))) := by
    refine ((hP.map _).filter _).trans (List.Perm.of_eq ?_)
    rw [List.map_cons, List.map_cons, swapped_dest, h.swapped_self, hmap]
    change Apa.used _ = _
    have hused : ({ x with start := dest.start } : ApaHeader).isFree = false := h.used
    rw [used_cons, if_neg (by simp [hused]), used_cons, if_neg (by simp [h.used]), used_map_relocate]
  have hright : ((Apa.used P).map (relocate (Equiv.swap x.start dest.start))).Perm
      ({ x with start := dest.start } ::
        (Apa.used R).map (relocate (Equiv.swap x.start dest.start))) := by
    refine ((hP.filter _).map _).trans (List.Perm.of_eq ?_)
    change (Apa.used _).map _ = _
    rw [used_cons, if_pos h.free, used_cons, if_neg (by simp [h.used]), List.map_cons,
      h.relocate_self]
  exact (hleft.trans (.swap ..)).trans (hright.symm.cons _)

theorem refs_swapped (h : Swappable P dest x) :
    Refs False (Apa.used (P.map (swapped x dest.start))) :=
  ((h.refs.map _).cons (not_isSub_of_isTmp tmpHeader_isTmp) rfl).perm h.used_swapped.symm

private theorem users_swapped (h : Swappable P dest x) :
    (users (Apa.used (P.map (swapped x dest.start)))).Perm
      ((users (Apa.used P)).map (relocate (Equiv.swap x.start dest.start))) := by
  refine (users_perm h.used_swapped).trans (List.Perm.of_eq ?_)
  rw [users_cons_tmp tmpHeader_isTmp, users_relocate]
  intro y' hy' hsub hmain
  obtain ⟨y, hy, rfl⟩ := List.mem_map.mp hy'
  rw [relocate_isSub] at hsub
  rw [relocate_main hsub] at hmain
  have hswap : Equiv.swap x.start dest.start dest.start = x.start := Equiv.swap_apply_right ..
  exact h.main_ne hy hsub ((Equiv.injective _) (hmain.trans hswap.symm))

private theorem holds_swapped (h : Swappable P dest x) {o : Prop} {U₀ : List ApaHeader} {c₀ c : Content}
    (hkept : (promise o U₀ c₀).holds (Apa.used P) c)
    (hdata : x ∈ users (Apa.used P) → ∀ i, Keeps (users (Apa.used P)) x i →
      c (dest.start + i) = c (x.start + i)) :
    (promise o U₀ c₀).holds (Apa.used (P.map (swapped x dest.start))) c := by
  refine ⟨h.refs_swapped.imp fun hf => hf.elim, hkept.2.trans
    ⟨Equiv.swap x.start dest.start, ?_, h.users_swapped, fun y hy hzero i hi => ?_⟩⟩
  · exact Equiv.swap_apply_of_ne_of_ne h.start.symm h.dest_start.symm
  · have hyU := (mem_users.mp hy).1
    by_cases hx : y = x
    · subst hx
      rw [Equiv.swap_apply_left]
      exact hdata hy i hi
    · rw [Equiv.swap_apply_of_ne_of_ne _ (h.used_start hyU)]
      exact fun heq => hx (h.tiles.eq_of_start (Apa.mem_used.mp hyU).1 h.mem heq)

end Swappable

variable {w : WriteBack (Option Sector)} {d e : Device} {v : Nat → Option ApaHeader} {D : List Nat}
  {o : Prop} {U₀ : List ApaHeader} {c₀ : Content}

private theorem swap_flush (hswap : Swappable P dest x) (h : Steady (promise o U₀ c₀) w d P)
    (hs : Shows d v D e)
    (hnode : ∀ y ∈ P, ∀ u, d.view y.start = some u → ∃ u', v y.start = some u' ∧
      u'.body = swapped x dest.start u.body ∧ u'.prev = u.prev ∧ u'.next = u.next)
    (hlive : ∀ s ∈ D, ∃ y ∈ P, y.start = s) (hfew : D.length ≤ 126)
    (hclean : ∀ y ∈ P, y.start ∉ D → v y.start = d.view y.start)
    (hdata : x ∈ users (used P) → ∀ i, Keeps (users (used P)) x i →
      d.disk (dest.start + i) = d.disk (x.start + i)) :
    Steady (promise o U₀ c₀) w e.apaCacheFlushAllDirty.2 (P.map (swapped x dest.start)) ∧
      ∀ a, apaLog.Outside a → (∀ y ∈ P, a ≠ y.start ∧ a ≠ y.start + 1) →
        e.apaCacheFlushAllDirty.2.disk a = e.disk a := by
  obtain ⟨m, L, rfl⟩ := List.exists_cons_of_ne_nil (List.ne_nil_of_mem hswap.mem)
  have hring : headerLinks.Ring v ((m :: L).map (swapped x dest.start)) :=
    h.ring.map (swapped_start x _) hnode
  rw [List.map_cons] at hring ⊢
  have hlive' : ∀ s ∈ D, ∃ y ∈ swapped x dest.start m :: L.map (swapped x dest.start), y.start = s := by
    intro s hsD
    obtain ⟨y, hy, rfl⟩ := hlive s hsD
    exact ⟨_, List.mem_map_of_mem (f := swapped x dest.start) hy, swapped_start ..⟩
  obtain ⟨-, hsteady, -, hframe⟩ := h.flush hs hring hswap.tiles_swapped
    (hswap.holds_swapped h.holds hdata) hfew hlive' fun y' hy' hyD => by
      obtain ⟨y, hy, rfl⟩ := List.mem_map.mp (show y' ∈ (m :: L).map _ from hy')
      rw [swapped_start] at hyD ⊢
      exact ⟨hclean y hy hyD, y, hy, rfl⟩
  refine ⟨hsteady, fun a ha hheads => ?_⟩
  rw [hs.disk, hframe a ha fun s hsD => ?_]
  obtain ⟨y, hy, rfl⟩ := hlive s hsD
  exact hheads y hy

/-! ### The run of `SwapPartition` -/

/-- All headers of the swap are made in the cache of `e`, those at `clinks` marked dirty, and the data stand ready on the disk. -/
structure Ready (o : Prop) (U₀ : List ApaHeader) (c₀ : Content) (w : WriteBack (Option Sector))
    (P : List ApaHeader) (dest x : ApaHeader) (clinks : List Nat) (d : Device)
    (v : Nat → Option ApaHeader) (e : Device) : Prop where
  steady : Steady (promise o U₀ c₀) w d P
  shows : Shows d v clinks e
  node : ∀ y ∈ P, ∀ u, d.view y.start = some u → ∃ u', v y.start = some u' ∧
    u'.body = swapped x dest.start u.body ∧ u'.prev = u.prev ∧ u'.next = u.next
  live : ∀ s ∈ clinks, ∃ y ∈ P, y.start = s
  few : clinks.length ≤ 64
  clean : ∀ y ∈ P, y ≠ dest → y ≠ x → y.start ∉ clinks → v y.start = d.view y.start
  data : x ∈ users (used P) → ∀ i, Keeps (users (used P)) x i →
    d.disk (dest.start + i) = d.disk (x.start + i)

theorem same_frees {clinks : List Nat} (hslot : ∀ c ∈ clinks, Slot c) :
    Same Slot d (clinks.foldl (fun d c => apaCacheFree c d) d) := by
  induction clinks generalizing d with
  | nil => exact .refl _ _
  | cons c clinks ih =>
    exact (same_apaCacheFree (hslot c List.mem_cons_self)).trans
      (ih fun c' hc' => hslot c' (List.mem_cons_of_mem _ hc'))

private theorem finishSwap_spec {s : State} {clinks : List Nat} (hswap : Swappable P dest x)
    (h : Ready o U₀ c₀ w P dest x D d v s.dev) (hslot : ∀ c ∈ clinks, Slot c) :
    wp (finishSwap dest.start x.start clinks) s fun _ s' => Later s s' ∧
      Steady (promise o U₀ c₀) w s'.dev (P.map (swapped x dest.start)) ∧
        ∀ a, apaLog.Outside a → (∀ y ∈ P, a ≠ y.start ∧ a ≠ y.start + 1) →
          s'.dev.disk a = s.dev.disk a := by
  have hsome : ∀ y ∈ P, (v y.start).isSome := by
    intro y hy
    obtain ⟨u, hu, -⟩ := Linked.Chain.mem h.steady.ring hy
    obtain ⟨u', hu', -⟩ := h.node y hy u hu
    simp [hu']
  have hs := (h.shows.setDirty (hswap.tiles.part hswap.destMem).slot (hsome _ hswap.destMem)
    ).setDirty (hswap.tiles.part hswap.mem).slot (hsome _ hswap.mem)
  have hflush := swap_flush hswap h.steady hs h.node (fun t ht => ?_) ?_ (fun y hy hD => ?_) h.data
  · rw [finishSwap]
    simp only [wp_devDo_bind, wp_devOp_bind]
    refine wp_modify ⟨later_dev s _, hflush.1.same (same_frees hslot), fun a ha hheads => ?_⟩
    calc _ = (setDirty x.start (setDirty dest.start s.dev)).apaCacheFlushAllDirty.2.disk a := by
          rw [(same_frees hslot).disk]
      _ = (setDirty x.start (setDirty dest.start s.dev)).disk a := hflush.2 a ha hheads
      _ = s.dev.disk a := by rw [hs.disk, h.shows.disk]
  · rcases List.mem_cons.mp ht with rfl | ht
    · exact ⟨x, hswap.mem, rfl⟩
    · rcases List.mem_cons.mp ht with rfl | ht
      · exact ⟨dest, hswap.destMem, rfl⟩
      · exact h.live t ht
  · have := h.few
    simp only [List.length_cons]
    omega
  · simp only [List.mem_cons, not_or] at hD
    refine h.clean y hy ?_ ?_ hD.2.2
    · rintro rfl
      exact hD.2.1 rfl
    · rintro rfl
      exact hD.1 rfl

/-- The slice list is rewritten in sectors no promise covers. -/
theorem sliceInfo_spec {clinks : List Nat} (main part old new : Nat)
    (h : Ready o U₀ c₀ w P dest x clinks d v e) (hP : P ≠ [])
    (hspare : ∀ a, main + 2056 ≤ a → a < main + 2058 → Spare (promise o U₀ c₀) P a)
    (hdata : x ∈ users (used P) → ∀ i, Keeps (users (used P)) x i →
      (dest.start + i ≠ main + 2056 ∧ dest.start + i ≠ main + 2057) ∧
        x.start + i ≠ main + 2056 ∧ x.start + i ≠ main + 2057) :
    ∃ d' v', Ready o U₀ c₀ w P dest x clinks d' v' (hdlUpdateGameSliceInfo main part old new e) := by
  obtain ⟨m, L, rfl⟩ := List.exists_cons_of_ne_nil hP
  have hlba : main + (HDL_GAME_DATA_OFFSET + 4096) / 512 = main + 2056 := rfl
  unfold hdlUpdateGameSliceInfo
  rw [hlba]
  simp only
  split
  · split
    · set info := setWord (dataStartWord part) _ _
      obtain ⟨d', v', hsteady, hshows, hsame, hframe⟩ := h.steady.shows_ataWrite
        (main + 2056) [info.1, info.2] h.shows fun p hp => by
          have := mem_writesAt hp
          exact hspare p.1 this.1 (by simpa using this.2)
      refine ⟨d', v', hsteady, hshows, fun y hy u hu => ?_, h.live, h.few,
        fun y hy hyd hyx hD => ?_, fun hx i hi => ?_⟩
      · rw [(hsame y hy).2] at hu
        rw [(hsame y hy).1]
        exact h.node y hy u hu
      · rw [(hsame y hy).1, (hsame y hy).2]
        exact h.clean y hy hyd hyx hD
      · have hout : ∀ a, a ≠ main + 2056 → a ≠ main + 2057 → d'.disk a = d.disk a := by
          intro a h0 h1
          refine hframe a ?_
          simp only [List.length_cons, List.length_nil]
          omega
        obtain ⟨hd, hs⟩ := hdata hx i hi
        rw [hout _ hd.1 hd.2, hout _ hs.1 hs.2]
        exact h.data hx i hi
    · exact ⟨d, v, h⟩
  · exact ⟨d, v, h⟩

/-- What lies behind the header of an empty partition is spare. -/
theorem spare_of_free {π : Promise} (htiles : Tiles 0 P) (hd : dest ∈ P)
    (hfree : dest.isFree = true) {a : Nat} (hlo : dest.start + 2 ≤ a)
    (hhi : a < dest.start + dest.length) : Spare π P a := by
  have hpart := htiles.part hd
  have hne : dest.start ≠ 0 := by
    intro hzero
    rw [(hpart.mbr hzero).2.1] at hfree
    cases hfree
  obtain ⟨k, hk⟩ := hpart.slot
  refine ⟨?_, fun x hx => htiles.not_header hd hx hlo hhi, fun hcovers => ?_⟩
  · simp only [RedoLog.Outside, apaLog, APA_SECTOR_APAL, APA_SECTOR_APAL_HEADERS]
    omega
  · obtain ⟨x, hx, -, hxlo, hxhi⟩ := π.inside _ _ hcovers
    obtain ⟨hxP, hused⟩ := mem_used.mp hx
    have hxd : x ≠ dest := by
      rintro rfl
      rw [hused] at hfree
      cases hfree
    rcases htiles.lt_of_ne hxP hd hxd with hlt | hlt <;> omega

private theorem spare_of_info {m y : ApaHeader} (htiles : Tiles 0 P) (hm : m ∈ P) (hmain : m.isSub = false)
    (hy : y ∈ used P) (htype : y.type = APA_TYPE_HDLFS) (hsub : y.isSub = true)
    (hmy : y.main = m.start) {a : Nat} (ha : a = m.start + 2056 ∨ a = m.start + 2057) :
    Spare (promise o U₀ c₀) P a := by
  have hpart := htiles.part hm
  have hlarge := hpart.large
  obtain ⟨k, hk⟩ := hpart.slot
  refine ⟨?_, fun x hx => htiles.not_header hm hx (by omega) (by omega), ?_⟩
  · simp only [RedoLog.Outside, apaLog, APA_SECTOR_APAL, APA_SECTOR_APAL_HEADERS]
    omega
  · rintro ⟨z, hz, -, i, hi, rfl⟩
    obtain ⟨hzU, hzkept⟩ := mem_users.mp hz
    have hlt := hi.lt
    have htwo := hi.two_le
    have hzm : z = m := by
      by_contra hne
      rcases htiles.lt_of_ne (mem_used.mp hzU).1 hm hne with h | h <;> omega
    subst hzm
    refine hi.noInfo ⟨hmain, by omega, y, mem_users.mpr ⟨hy, ?_⟩, htype, .inr ⟨hsub, hmy⟩⟩
    -- the sub of a main that is kept is kept
    rw [Bool.eq_false_iff, Ne, doomed_iff]
    rintro (htmp | ⟨-, t, ht, htmp, hstart⟩)
    · rw [not_isSub_of_isTmp htmp] at hsub
      cases hsub
    · obtain rfl := htiles.eq_of_start (mem_used.mp ht).1 (mem_used.mp hzU).1 (hstart.trans hmy)
      rw [Bool.eq_false_iff, Ne, doomed_iff] at hzkept
      exact hzkept (.inl htmp)

/-- Two headers are filled in anew. -/
theorem shows_heads {A B : ApaHeader} {s t : Nat} (hs : Shows d d.view D e) (hslot : Slot s)
    (hslot' : Slot t) (hsome : (d.view s).isSome) (hsome' : (d.view t).isSome) (hne : s ≠ t) :
    Shows d (fun a => if a = s then some A else if a = t then some B else d.view a) D
      (setHeader t (fun _ => B) (setHeader s (fun _ => A) e)) := by
  refine ((hs.setHeader hslot fun _ => A).setHeader hslot' fun _ => B).congr fun a => ?_
  obtain ⟨u, hu⟩ := Option.isSome_iff_exists.mp hsome
  obtain ⟨u', hu'⟩ := Option.isSome_iff_exists.mp hsome'
  by_cases has : a = s
  · subst has
    simp [hne, hu]
  · by_cases hat : a = t
    · subst hat
      simp [has, hu']
    · simp [has, hat]

/-- The buffers of the subs are all had. -/
theorem getSubs_spec {s : State} (hd : ApaHeader) {clink n i : Nat} {clinks : List Nat}
    (hs : Shows d v D s.dev) (hv : v clink = some hd)
    (hsubs : ∀ j, i ≤ j → j < i + n → Slot (hd.sub j).start ∧ (v (hd.sub j).start).isSome) :
    wp (getSubs clink n i clinks) s fun r s' =>
      r = .ok (clinks ++ (List.range' i n).map fun j => (hd.sub j).start) ∧ Later s s' ∧
        Shows d v D s'.dev := by
  induction n generalizing i clinks s with
  | zero => exact wp_pure ⟨by simp, .refl _, hs⟩
  | succ n ih =>
    have hheader : s.dev.header clink = hd := by rw [hs.header, hv, Option.getD_some]
    obtain ⟨hslot, hsome⟩ := hsubs i (Nat.le_refl i) (by omega)
    obtain ⟨u, hu⟩ := Option.isSome_iff_exists.mp hsome
    obtain ⟨e', hget, hs'⟩ := hs.get hslot hu
    rw [getSubs]
    simp only [wp_headerOf_bind, hheader, wp_devOp_bind, hget]
    refine (ih (s := { s with dev := e' }) (i := i + 1) hs' fun j hlo hhi =>
      hsubs j (by omega) (by omega)).mono ?_
    rintro r s' ⟨rfl, hlater, hshows⟩
    exact ⟨by simp [List.range'_succ], (later_dev s e').trans hlater, hshows⟩

/-- The subs are told the new place of their main. -/
theorem shows_mains {a : Nat} {clinks : List Nat} (hs : Shows d v D e)
    (hsubs : ∀ c ∈ clinks, Slot c ∧ (v c).isSome) :
    Shows d (fun t => if t ∈ clinks then (v t).map (fun h => { h with main := a }) else v t)
      (clinks.reverse ++ D) (clinks.foldl (fun d clink =>
        setDirty clink (setHeader clink (fun h => { h with main := a }) d)) e) := by
  induction clinks generalizing e v D with
  | nil => exact hs.congr fun t => by simp
  | cons c clinks ih =>
    obtain ⟨hslot, hsome⟩ := hsubs c List.mem_cons_self
    have hone := (hs.setHeader hslot fun h => { h with main := a }).setDirty hslot (by simpa using hsome)
    have hrest := ih hone fun c' hc' => by
      obtain ⟨hslot', hsome'⟩ := hsubs c' (List.mem_cons_of_mem _ hc')
      refine ⟨hslot', ?_⟩
      split
      · simpa using hsome'
      · exact hsome'
    rw [List.foldl_cons, List.reverse_cons, List.append_assoc, List.singleton_append]
    refine hrest.congr fun t => ?_
    by_cases htc : t = c
    · subst htc
      by_cases ht : t ∈ clinks <;> simp [ht, Function.comp_def]
    · simp [htc]

section Run

variable {s : State} {vd vx : ApaHeader} {L : List ApaHeader}

/-- The headers once those of `dest` and `x` are filled in. -/
def headsView (d : Device) (dest x : ApaHeader) (vd vx : ApaHeader) (a : Nat) : Option ApaHeader :=
  if a = dest.start then some (destHeader vd vx)
  else if a = x.start then some (sourceHeader vx)
  else d.view a

theorem ready_of_heads {clinks : List Nat} (hswap : Swappable P dest x)
    (h : Steady (promise o U₀ c₀) w d P) (hvd : d.view dest.start = some vd)
    (hvx : d.view x.start = some vx) (hbody : vx.body = x) (hshows : Shows d v clinks e)
    (hdest : v dest.start = some (destHeader vd vx)) (hsource : v x.start = some (sourceHeader vx))
    (hrest : ∀ y ∈ P, y ≠ dest → y ≠ x → ∀ u, d.view y.start = some u → u.body = y →
      ∃ u', v y.start = some u' ∧
        u'.body = relocate (Equiv.swap x.start dest.start) y ∧ u'.prev = u.prev ∧ u'.next = u.next)
    (hlive : ∀ s ∈ clinks, ∃ y ∈ P, y.start = s) (hfew : clinks.length ≤ 64)
    (hclean : ∀ y ∈ P, y ≠ dest → y ≠ x → y.start ∉ clinks → v y.start = d.view y.start)
    (hdata : ∀ i, 2 ≤ i → i < x.length → d.disk (dest.start + i) = d.disk (x.start + i)) :
    Ready o U₀ c₀ w P dest x clinks d v e := by
  refine ⟨h, hshows, fun y hy u hu => ?_, hlive, hfew, hclean,
    fun _ i hi => hdata i hi.two_le hi.lt⟩
  obtain ⟨u', hu', hubody⟩ := Linked.Chain.mem h.ring hy
  obtain rfl : u' = u := Option.some.inj (hu'.symm.trans hu)
  have hubody : u'.body = y := hubody
  rw [hubody]
  by_cases hyd : y = dest
  · subst hyd
    obtain rfl : u' = vd := Option.some.inj (hu.symm.trans hvd)
    refine ⟨_, hdest, ?_, rfl, rfl⟩
    rw [swapped_dest, ← hbody, ← hubody]
    rfl
  · by_cases hyx : y = x
    · subst hyx
      obtain rfl : u' = vx := Option.some.inj (hu.symm.trans hvx)
      refine ⟨_, hsource, ?_, rfl, rfl⟩
      rw [hswap.swapped_self, ← hbody]
      rfl
    · rw [hswap.swapped_other hy hyd hyx]
      exact hrest y hy hyd hyx u' hu hubody

theorem Swappable.view_source {d : Device} {vd vx : ApaHeader} (h : Swappable P dest x) :
    headsView d dest x vd vx x.start = some (sourceHeader vx) := by
  rw [headsView, if_neg h.start_ne.symm, if_pos rfl]

theorem Swappable.view_other {d : Device} {vd vx : ApaHeader} (h : Swappable P dest x) (hy : y ∈ P) (hd : y ≠ dest)
    (hx : y ≠ x) : headsView d dest x vd vx y.start = d.view y.start := by
  have htiles := h.tiles
  rw [headsView, if_neg fun heq => hd (htiles.eq_of_start hy h.destMem heq),
    if_neg fun heq => hx (htiles.eq_of_start hy h.mem heq)]

/-- The headers of `dest` and `x` are filled in, and the data of `x` stand behind `dest` too. -/
structure Heads (o : Prop) (U₀ : List ApaHeader) (c₀ : Content) (w : WriteBack (Option Sector))
    (P : List ApaHeader) (dest x vd vx : ApaHeader) (d e : Device) : Prop where
  swappable : Swappable P dest x
  steady : Steady (promise o U₀ c₀) w d P
  atDest : d.view dest.start = some vd
  atSource : d.view x.start = some vx
  destBody : vd.body = dest
  body : vx.body = x
  shows : Shows d (headsView d dest x vd vx) [] e
  data : ∀ i, 2 ≤ i → i < x.length → d.disk (dest.start + i) = d.disk (x.start + i)

namespace Heads

theorem view_dest : headsView d dest x vd vx dest.start = some (destHeader vd vx) := if_pos rfl

/-- A sub is swapped: its main lists the new place. -/
private theorem ready_of_sub {m : ApaHeader} {i : Nat} (h : Heads o U₀ c₀ w P dest x vd vx d e)
    (hx : x.isSub = true) (hm : m ∈ used P) (hmmain : m.isSub = false) (hmx : m ≠ x)
    (hmstart : m.start = x.main) (hi : i < m.nsub) (hstart : (m.sub i).start = x.start) :
    ∃ v, Ready o U₀ c₀ w P dest x [m.start] d v (setDirty m.start (setHeader m.start (fun h =>
      { h with subs := fun j => if j.val = i then ⟨dest.start, (h.subs j).length⟩ else h.subs j })
        e)) := by
  have hswap := h.swappable
  have htiles := hswap.tiles
  have hmP := (mem_used.mp hm).1
  have hmd : m ≠ dest := fun heq => hswap.used_start hm (heq ▸ rfl)
  obtain ⟨vm, hvm, hmbody⟩ := Linked.Chain.mem h.steady.ring hmP
  have hvm : d.view m.start = some vm := hvm
  have hmbody : vm.body = m := hmbody
  have hset := (h.shows.setHeader (htiles.part hmP).slot fun h => { h with
    subs := fun j => if j.val = i then ⟨dest.start, (h.subs j).length⟩ else h.subs j }
    ).setDirty (htiles.part hmP).slot (by simp [h.swappable.view_other hmP hmd hmx, hvm])
  refine ⟨_, ready_of_heads hswap h.steady h.atDest h.atSource h.body hset ?_ ?_ ?_
    (fun t ht => ⟨m, hmP, (List.mem_singleton.mp ht).symm⟩) (by simp) ?_ h.data⟩
  · rw [if_neg fun heq => hswap.used_start hm heq.symm, view_dest]
  · rw [if_neg fun heq => hmx (htiles.eq_of_start hmP hswap.mem heq.symm), h.swappable.view_source]
  · intro y hy hyd hyx u hu hubody
    rw [h.swappable.view_other hy hyd hyx, hu]
    by_cases hym : y = m
    · subst hym
      obtain rfl : u = vm := Option.some.inj (hu.symm.trans hvm)
      refine ⟨_, (if_pos rfl).trans rfl, ?_, rfl, rfl⟩
      rw [hswap.relocate_lister hm hmmain hi hstart, Equiv.swap_apply_of_ne_of_ne
        (fun heq => hyx (htiles.eq_of_start hy hswap.mem heq)) (hswap.used_start hm), ← hubody]
      rfl
    · refine ⟨u, if_neg fun heq => hym (htiles.eq_of_start hy hmP heq), ?_, rfl, rfl⟩
      rw [hubody, hswap.relocate_unnamed hy hyd hyx]
      · intro hyU hsub hmain
        rw [(hswap.isSub_eq hyU hsub hmain).1] at hx
        cases hx
      · intro hyU hmain j hj hjstart
        have hmy := (hswap.main_eq hyU hmain hj hjstart).2
        exact hym (htiles.eq_of_start hy hmP (hmy.symm.trans hmstart.symm))
  · intro y hy hyd hyx hD
    rw [if_neg (by simpa using hD), h.swappable.view_other hy hyd hyx]

theorem sub_of_mem (h : Swappable P dest x) (hx : x.isSub = false) {c : Nat}
    (hc : c ∈ (List.range' 0 x.nsub).map fun j => (x.sub j).start) :
    ∃ z ∈ used P, z.isSub = true ∧ z.start = c ∧ z.main = x.start ∧ z ≠ dest ∧ z ≠ x := by
  obtain ⟨j, hj, rfl⟩ := List.mem_map.mp hc
  have hj := (List.mem_range'_1.mp hj).2
  obtain ⟨z, hz, hsub, hstart, hmain⟩ := h.refs.named x h.mem_used hx j (by omega)
  refine ⟨z, hz, hsub, hstart, hmain, fun heq => h.used_start hz (heq ▸ rfl), ?_⟩
  rintro rfl
  rw [hx] at hsub
  cases hsub

/-- A main is swapped: its subs name the new place. -/
private theorem ready_of_main (h : Heads o U₀ c₀ w P dest x vd vx d e) (hx : x.isSub = false) :
    ∃ D v, Ready o U₀ c₀ w P dest x D d v
      (((List.range' 0 x.nsub).map fun j => (x.sub j).start).foldl (fun d clink =>
        setDirty clink (setHeader clink (fun h => { h with main := dest.start }) d)) e) := by
  have hswap := h.swappable
  have htiles := hswap.tiles
  set clinks := (List.range' 0 x.nsub).map fun j => (x.sub j).start with hclinks
  have hsome : ∀ c ∈ clinks, Slot c ∧ (headsView d dest x vd vx c).isSome := by
    intro c hc
    obtain ⟨z, hz, -, rfl, -, hzd, hzx⟩ := sub_of_mem hswap hx hc
    have hzP := (mem_used.mp hz).1
    obtain ⟨u, hu, -⟩ := Linked.Chain.mem h.steady.ring hzP
    rw [h.swappable.view_other hzP hzd hzx]
    exact ⟨(htiles.part hzP).slot, Option.isSome_of_mem hu⟩
  have hnot : ∀ y ∈ P, y.isFree = true ∨ y = x → y.start ∉ clinks := by
    intro y hy hfree hc
    obtain ⟨z, hz, -, hstart, -, -, hzx⟩ := sub_of_mem hswap hx hc
    obtain ⟨hzP, hused⟩ := mem_used.mp hz
    obtain rfl := htiles.eq_of_start hzP hy hstart
    rcases hfree with hfree | rfl
    · rw [hused] at hfree
      cases hfree
    · exact hzx rfl
  refine ⟨_, _, ready_of_heads hswap h.steady h.atDest h.atSource h.body (shows_mains h.shows hsome)
    ?_ ?_ ?_ ?_ ?_ ?_ h.data⟩
  · rw [if_neg (hnot dest hswap.destMem (.inl hswap.free)), view_dest]
  · rw [if_neg (hnot x hswap.mem (.inr rfl)), h.swappable.view_source]
  · intro y hy hyd hyx u hu hubody
    rw [h.swappable.view_other hy hyd hyx, hu]
    by_cases hc : y.start ∈ clinks
    · obtain ⟨z, hz, hsub, hstart, hmain, -, -⟩ := sub_of_mem hswap hx hc
      obtain rfl := htiles.eq_of_start (mem_used.mp hz).1 hy hstart
      refine ⟨_, (if_pos hc).trans rfl, ?_, rfl, rfl⟩
      rw [relocate_listed hsub hmain, Equiv.swap_apply_of_ne_of_ne
        (fun heq => hyx (htiles.eq_of_start hy hswap.mem heq)) (hswap.used_start hz), ← hubody]
      rfl
    · refine ⟨u, if_neg hc, ?_, rfl, rfl⟩
      rw [hubody, hswap.relocate_unnamed hy hyd hyx]
      · intro hyU hsub hmain
        obtain ⟨-, i, hi, histart⟩ := hswap.isSub_eq hyU hsub hmain
        refine hc (List.mem_map.mpr ⟨i, List.mem_range'_1.mpr (by omega), histart⟩)
      · intro hyU hmain j hj hjstart
        rw [(hswap.main_eq hyU hmain hj hjstart).1] at hx
        cases hx
  · intro t ht
    rw [List.append_nil, List.mem_reverse] at ht
    obtain ⟨z, hz, -, hstart, -⟩ := sub_of_mem hswap hx ht
    exact ⟨z, (mem_used.mp hz).1, hstart⟩
  · have := hswap.refs.few x hswap.mem_used hx
    simpa [hclinks] using this
  · intro y hy hyd hyx hD
    rw [List.append_nil, List.mem_reverse] at hD
    rw [if_neg hD, h.swappable.view_other hy hyd hyx]

end Heads

/-- The search of `SwapPartition` in the list of the main. -/
theorem find_listed {m : ApaHeader} (h : ∃ i < m.nsub, (m.sub i).start = x.start) :
    ∃ i, (List.range m.nsub).find? (fun i => decide (x.start = (m.sub i).start)) = some i ∧
      i < m.nsub ∧ (m.sub i).start = x.start := by
  obtain ⟨i₀, hi₀, hi₀start⟩ := h
  cases hfind : (List.range m.nsub).find? fun i => decide (x.start = (m.sub i).start) with
  | none =>
    have hnone := List.find?_eq_none.mp hfind i₀ (List.mem_range.mpr hi₀)
    simp [hi₀start] at hnone
  | some i =>
    have hsome := List.find?_some hfind
    exact ⟨i, rfl, List.mem_range.mp (List.mem_of_find?_eq_some hfind),
      (of_decide_eq_true hsome).symm⟩

/-- What the swap of `x` passes to `hdlUpdateGameSliceInfo`: the place of the main of the game and the number of a slice. -/
inductive Passed (P : List ApaHeader) (dest x : ApaHeader) : Nat → Nat → Prop
  | main (hmain : x.isSub = false) : Passed P dest x dest.start 0
  | sub {m : ApaHeader} {i : Nat} (hsub : x.isSub = true) (hm : m ∈ used P)
      (hmain : m.isSub = false) (hstart : m.start = x.main) (hi : i < m.nsub)
      (hlisted : (m.sub i).start = x.start) : Passed P dest x m.start i

/-- Behind the headers the disk of `d'` is that of `d`, with one slice of a game rewritten. -/
def Rewrites (P : List ApaHeader) (dest x : ApaHeader) (d d' : Device) : Prop :=
  ∃ main part e, Passed P dest x main part ∧ e.disk = d.disk ∧ e.Sound Slot ∧
    ∀ a, apaLog.Outside a → (∀ y ∈ P, a ≠ y.start ∧ a ≠ y.start + 1) → d'.disk a =
      (if x.type = APA_TYPE_HDLFS then hdlUpdateGameSliceInfo main part x.start dest.start e
        else e).disk a

/-- The run of `SwapPartition` for a partition whose data were copied. -/
theorem SwapPartition_run (hswap : Swappable P dest x)
    (h : Steady (promise o U₀ c₀) w s.dev P)
    (hdata : ∀ i, 2 ≤ i → i < x.length →
      s.dev.disk (dest.start + i) = s.dev.disk (x.start + i)) :
    wp (SwapPartition dest.start x.start) s fun _ s' => Later s s' ∧
      Steady (promise o U₀ c₀) w s'.dev (P.map (swapped x dest.start)) ∧
        Rewrites P dest x s.dev s'.dev := by
  have htiles := hswap.tiles
  have hP : P ≠ [] := List.ne_nil_of_mem hswap.mem
  have hxlarge := (htiles.part hswap.mem).large
  have hlength := hswap.length
  obtain ⟨vd, hvd, hdbody⟩ := Linked.Chain.mem h.ring hswap.destMem
  obtain ⟨vx, hvx, hxbody⟩ := Linked.Chain.mem h.ring hswap.mem
  have hvd : s.dev.view dest.start = some vd := hvd
  have hvx : s.dev.view x.start = some vx := hvx
  have hxbody : vx.body = x := hxbody
  have hheads : Heads o U₀ c₀ w P dest x vd vx s.dev
      (setHeader x.start (fun _ => sourceHeader vx)
        (setHeader dest.start (fun _ => destHeader vd vx) s.dev)) :=
    ⟨hswap, h, hvd, hvx, hdbody, hxbody, shows_heads (h.shows (.refl _ _))
      (htiles.part hswap.destMem).slot (htiles.part hswap.mem).slot (by simp [hvd]) (by simp [hvx])
      hswap.start_ne, hdata⟩
  have hxstart : vx.start = x.start := by rw [← hxbody]; rfl
  have hsub : (destHeader vd vx).isSub = x.isSub := by rw [← hxbody]; rfl
  have hmain : (destHeader vd vx).main = x.main := by rw [← hxbody]; rfl
  have htype : (destHeader vd vx).type = x.type := by rw [← hxbody]; rfl
  have hnsub : (destHeader vd vx).nsub = x.nsub := by rw [← hxbody]; rfl
  have hsubs : ∀ i, (destHeader vd vx).sub i = x.sub i := fun i => by rw [← hxbody]; rfl
  have hstart : (destHeader vd vx).start = dest.start := by
    rw [← show vd.body = dest from hdbody]
    rfl
  have hfinish : ∀ (s' : State) (clinks D : List Nat) (d : Device) (v : Nat → Option ApaHeader),
      Later s s' → Ready o U₀ c₀ w P dest x D d v s'.dev → (∀ c ∈ clinks, Slot c) →
      (∃ main part e, Passed P dest x main part ∧ e.disk = s.dev.disk ∧ e.Sound Slot ∧
        s'.dev = if x.type = APA_TYPE_HDLFS then
          hdlUpdateGameSliceInfo main part x.start dest.start e else e) →
      wp (do finishSwap dest.start x.start clinks; return true) s' fun _ s'' => Later s s'' ∧
        Steady (promise o U₀ c₀) w s''.dev (P.map (swapped x dest.start)) ∧
          Rewrites P dest x s.dev s''.dev := by
    intro s' clinks D d v hlater hready hslot hslice
    refine wp_bind ((finishSwap_spec hswap hready hslot).mono ?_)
    rintro - s'' ⟨hlater', hsteady, hframe⟩
    obtain ⟨main, part, e, hpassed, hdisk, hsound, hdev⟩ := hslice
    refine wp_pure ⟨hlater.trans hlater', hsteady, main, part, e, hpassed, hdisk, hsound, ?_⟩
    intro a ha hheads
    rw [hframe a ha hheads, hdev]
  rw [SwapPartition]
  simp only [wp_headerOf_bind, wp_devDo_bind, header_of_view hvd, header_of_view hvx]
  generalize setHeader x.start (fun _ => sourceHeader vx)
    (setHeader dest.start (fun _ => destHeader vd vx) s.dev) = e at hheads ⊢
  have hread : e.header dest.start = destHeader vd vx := by
    rw [hheads.shows.header, Heads.view_dest, Option.getD_some]
  simp only [hread, hsub, hmain, htype, hnsub, hstart]
  split
  · rename_i hx
    obtain ⟨m, hm, hmmain, hmstart, hlist⟩ := hswap.refs.listed x hswap.mem_used hx
    obtain ⟨i₀, hi₀, hi₀start⟩ := hlist.resolve_right fun hf => hf.1
    have hmP := (mem_used.mp hm).1
    have hmslot := (htiles.part hmP).slot
    have hmd : m ≠ dest := fun heq => hswap.used_start hm (heq ▸ rfl)
    have hmx : m ≠ x := by
      rintro rfl
      rw [hmmain] at hx
      cases hx
    obtain ⟨vm, hvm, hmbody⟩ := Linked.Chain.mem h.ring hmP
    have hvm : s.dev.view m.start = some vm := hvm
    have hmbody : vm.body = m := hmbody
    have hvmnsub : vm.nsub = m.nsub := by rw [← hmbody]; rfl
    have hvmsub : ∀ i, vm.sub i = m.sub i := fun i => by rw [← hmbody]; rfl
    obtain ⟨e₁, hget, hshows⟩ := hheads.shows.get hmslot ((hheads.swappable.view_other hmP hmd hmx).trans hvm)
    have hmread : e₁.header m.start = vm := by
      rw [hshows.header, hheads.swappable.view_other hmP hmd hmx, hvm, Option.getD_some]
    obtain ⟨i, hfind, hi, histart⟩ := find_listed ⟨i₀, hi₀, hi₀start⟩
    rw [← hmstart]
    simp only [wp_devOp_bind, hget, wp_headerOf_bind, hmread, hvmnsub, hvmsub, hxstart, hfind,
      wp_devDo_bind]
    obtain ⟨v, hready⟩ := Heads.ready_of_sub { hheads with shows := hshows } hx hm hmmain hmx
      hmstart hi histart
    have hpassed : Passed P dest x m.start i := .sub hx hm hmmain hmstart hi histart
    split
    · rename_i hgame
      obtain ⟨d', v', hready'⟩ := sliceInfo_spec m.start i x.start
        dest.start hready hP
        (fun a hlo hhi => spare_of_info htiles hmP hmmain hswap.mem_used hgame hx hmstart.symm
          (by omega)) (fun _ j hj => by
            have hlt := hj.lt
            have := (htiles.part hmP).large
            have := htiles.lt_of_ne hmP hswap.destMem hmd
            have := htiles.lt_of_ne hmP hswap.mem hmx
            omega)
      rw [wp_devDo_bind]
      exact hfinish _ [m.start] _ d' v' (later_dev s _) hready' (by simpa using hmslot)
        ⟨_, _, _, hpassed, hready.shows.disk, hready.shows.sound, (if_pos hgame).symm⟩
    · rename_i hgame
      exact hfinish _ [m.start] _ _ _ (later_dev s _) hready (by simpa using hmslot)
        ⟨_, _, _, hpassed, hready.shows.disk, hready.shows.sound, (if_neg hgame).symm⟩
  · rename_i hx
    rw [Bool.not_eq_true] at hx
    refine wp_bind ((getSubs_spec (destHeader vd vx) (s := { s with dev := e }) hheads.shows
      Heads.view_dest fun j _ hj => ?_).mono ?_)
    · rw [hsubs]
      obtain ⟨z, hz, -, hzstart, -, hzd, hzx⟩ := Heads.sub_of_mem hswap hx
        (List.mem_map.mpr ⟨j, List.mem_range'_1.mpr (by omega), rfl⟩)
      have hzP := (mem_used.mp hz).1
      obtain ⟨u, hu, -⟩ := Linked.Chain.mem h.ring hzP
      rw [← hzstart, hheads.swappable.view_other hzP hzd hzx]
      exact ⟨(htiles.part hzP).slot, Option.isSome_of_mem hu⟩
    · rintro r s₁ ⟨rfl, hlater, hshows⟩
      have hslot : ∀ c ∈ (List.range' 0 x.nsub).map fun j => (x.sub j).start, Slot c := by
        intro c hc
        obtain ⟨z, hz, -, rfl, -⟩ := Heads.sub_of_mem hswap hx hc
        exact (htiles.part (mem_used.mp hz).1).slot
      simp only [List.nil_append, hsubs, wp_devDo_bind, hxstart]
      obtain ⟨D, v, hready⟩ := Heads.ready_of_main { hheads with shows := hshows } hx
      have hlater₁ := ((later_dev s e).trans hlater)
      split
      · rename_i hgame
        obtain ⟨d', v', hready'⟩ := sliceInfo_spec dest.start 0 x.start
          dest.start hready hP
          (fun a hlo hhi => spare_of_free htiles hswap.destMem hswap.free (by omega) (by omega))
          (fun hxU j hj => by
            have hlt := hj.lt
            have hno : ¬ (j = 2056 ∨ j = 2057) := fun hj' =>
              hj.noInfo ⟨hx, hj', x, hxU, hgame, .inl rfl⟩
            have := htiles.lt_of_ne hswap.mem hswap.destMem hswap.dest_ne.symm
            omega)
        rw [wp_devDo_bind]
        exact hfinish _ _ _ d' v' (hlater₁.trans (later_dev s₁ _)) hready' hslot
          ⟨_, _, _, .main hx, hready.shows.disk, hready.shows.sound, (if_pos hgame).symm⟩
      · rename_i hgame
        exact hfinish _ _ _ _ _ (hlater₁.trans (later_dev s₁ _)) hready hslot
          ⟨_, _, _, .main hx, hready.shows.disk, hready.shows.sound, (if_neg hgame).symm⟩

end Run

end HddChecker.Hdsk
