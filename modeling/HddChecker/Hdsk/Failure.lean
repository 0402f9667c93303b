import HddChecker.Hdsk.Games
import HddChecker.Apa.Truthful

/-!
# A swap that fails

`SwapPartition` fills the headers of the two partitions in before it fetches those that name the moved one. Where one of these cannot be read it returns an error with the headers changed in the cache, and `MovePartition` does not look at what it returns. For a main partition without subs the value returned was never set.
-/

namespace HddChecker.Hdsk

open HddChecker Apa Apa.Device Prog State

/-! ### What the swap returns -/

/-- `SwapPartition` with its result. -/
def SwapPartitionResult (dest start : Nat) : Prog State Int := do
  let result ← read fun s => s.uninit s.dev.ops.length
  let old ← headerOf dest
  let source ← headerOf start
  devDo (Device.setHeader dest fun _ => destHeader old source)
  devDo (Device.setHeader start fun _ => sourceHeader source)
  let header ← headerOf dest
  if header.isSub then
    match ← devOp (Device.apaCacheGetHeader header.main) with
    | .error err => return err
    | .ok clink =>
      let main ← headerOf clink
      match (List.range main.nsub).find? fun i => source.start = (main.sub i).start with
      | none =>
        devDo (Device.apaCacheFree clink)
        return -1
      | some i =>
        devDo (Device.setHeader clink fun h => { h with
          subs := fun j => if j.val = i then ⟨header.start, (h.subs j).length⟩ else h.subs j })
        devDo (Device.setDirty clink)
        if header.type = APA_TYPE_HDLFS then
          devDo (hdlUpdateGameSliceInfo header.main i source.start header.start)
        finishSwap dest start [clink]
        return 0
  else
    match ← getSubs dest header.nsub 0 [] with
    | .error err => return err
    | .ok clinks =>
      devDo fun d => clinks.foldl (fun d clink =>
        Device.setDirty clink (Device.setHeader clink (fun h => { h with main := header.start }) d)) d
      if header.type = APA_TYPE_HDLFS then
        devDo (hdlUpdateGameSliceInfo header.start 0 source.start header.start)
      finishSwap dest start clinks
      return if header.nsub = 0 then result else 0

section

variable {σ α β γ : Type} {p : Prog σ γ} {f : γ → Prog σ α} {g : γ → Prog σ β}

/-- Two programs that leave the same state, whatever they return. -/
def SameEffect (p : Prog σ α) (q : Prog σ β) : Prop :=
  ∀ n s, (p.run n s).map Prod.snd = (q.run n s).map Prod.snd

theorem sameEffect_pure (a : α) (b : β) : SameEffect (pure a : Prog σ α) (pure b) := fun _ _ => rfl

theorem SameEffect.bind (h : ∀ c, SameEffect (f c) (g c)) : SameEffect (p >>= f) (p >>= g) := by
  intro n s
  change ((Prog.bind p f).run n s).map Prod.snd = ((Prog.bind p g).run n s).map Prod.snd
  simp only [Prog.bind]
  cases p.run n s with
  | none => rfl
  | some r => exact h r.1 n r.2

private theorem sameEffect_read {τ : Type} {o : σ → τ} {k : τ → Prog σ α} {q : Prog σ β}
    (h : ∀ t, SameEffect (k t) q) : SameEffect (read o >>= k) q := fun n s => h (o s) n s

end

/-- The result is all that was left out. -/
theorem SwapPartition_sameEffect (dest start : Nat) :
    SameEffect (SwapPartitionResult dest start) (SwapPartition dest start) := by
  unfold SwapPartitionResult SwapPartition
  apply sameEffect_read
  intro result
  apply SameEffect.bind
  intro old
  apply SameEffect.bind
  intro source
  apply SameEffect.bind
  intro
  apply SameEffect.bind
  intro
  apply SameEffect.bind
  intro header
  split
  · apply SameEffect.bind
    intro r
    split
    · exact sameEffect_pure _ _
    · apply SameEffect.bind
      intro main
      generalize List.find? _ (List.range main.nsub) = found
      cases found with
      | none => exact SameEffect.bind fun _ => sameEffect_pure _ _
      | some i =>
        apply SameEffect.bind
        intro
        apply SameEffect.bind
        intro
        split
        · exact SameEffect.bind fun _ => SameEffect.bind fun _ => sameEffect_pure _ _
        · exact SameEffect.bind fun _ => sameEffect_pure _ _
  · apply SameEffect.bind
    intro r
    split
    · exact sameEffect_pure _ _
    · apply SameEffect.bind
      intro
      generalize (if header.nsub = 0 then result else 0) = r
      split
      · exact SameEffect.bind fun _ => SameEffect.bind fun _ => sameEffect_pure _ _
      · exact SameEffect.bind fun _ => sameEffect_pure _ _

variable {P : List ApaHeader} {dest x y vd vx : ApaHeader} {d e : Device}
  {v : Nat → Option ApaHeader} {D : List Nat} {s : State}

/-! ### Headers that cannot be read -/

/-- The drive shows the table `P`, as far as its headers can be read. -/
structure Seen (P : List ApaHeader) (d : Device) : Prop where
  sound : d.Sound Slot
  clean : ∀ s, d.isDirty s = false
  seen : ∀ y ∈ P, ∀ u, d.view y.start = some u → u.body = y

/-- The places of the headers that a swap of `x` fetches: its main, or its subs. -/
def fetched (x : ApaHeader) : List Nat :=
  if x.isSub then [x.main] else (List.range' 0 x.nsub).map fun j => (x.sub j).start

theorem Seen.shows (h : Seen P d) : Shows d d.view [] d where
  disk := rfl
  ops := rfl
  sound := h.sound
  view := fun _ => rfl
  dirty := fun s => by simp [h.clean]

theorem get_unread {a : Nat} (h : d.view a = none) :
    d.apaCacheGetHeader a = (.error (- EIO), apaSaveError APA_SECTOR_SECTOR_ERROR a d) := by
  unfold view at h
  unfold apaCacheGetHeader
  cases hbuf : findBuf d.cache a with
  | some b =>
    rw [hbuf] at h
    cases h
  | none =>
    rw [hbuf] at h
    have hread : apaReadHeader d.disk a = none := h
    rw [hread]

private theorem view_frees {clinks : List Nat} (hslot : ∀ c ∈ clinks, Slot c) (a : Nat) :
    (clinks.foldr apaCacheFree d).view a = d.view a := by
  induction clinks with
  | nil => rfl
  | cons c clinks ih =>
    have hrest := ih fun c' hc' => hslot c' (List.mem_cons_of_mem _ hc')
    rw [List.foldr_cons, (same_apaCacheFree (hslot c List.mem_cons_self)).view, hrest]

/-- One of the subs cannot be read: the buffers of those before it are released. -/
private theorem getSubs_fails (hd : ApaHeader) {clink n i : Nat} {clinks : List Nat}
    (hs : Shows d v D s.dev) (hv : v clink = some hd) (hclinks : ∀ c ∈ clinks, Slot c)
    (hslot : ∀ j, i ≤ j → j < i + n → Slot (hd.sub j).start)
    (hnone : ∃ j, i ≤ j ∧ j < i + n ∧ v (hd.sub j).start = none) :
    wp (getSubs clink n i clinks) s fun r s' =>
      r = .error (- EIO) ∧ ∀ a, Slot a → s'.dev.view a = v a := by
  induction n generalizing i clinks s with
  | zero =>
    obtain ⟨j, hlo, hhi, -⟩ := hnone
    omega
  | succ n ih =>
    have hheader : s.dev.header clink = hd := by rw [hs.header, hv, Option.getD_some]
    have hfirst := hslot i (Nat.le_refl i) (by omega)
    rw [getSubs]
    simp only [wp_headerOf_bind, hheader, wp_devOp_bind]
    cases hu : v (hd.sub i).start with
    | none =>
      rw [get_unread (by rw [hs.view, hu])]
      dsimp only
      rw [wp_devDo_bind]
      refine wp_pure ⟨rfl, fun a ha => ?_⟩
      calc _ = (apaSaveError APA_SECTOR_SECTOR_ERROR (hd.sub i).start s.dev).view a :=
            view_frees hclinks a
        _ = v a := by rw [view_apaSaveError ha, hs.view]
    | some u =>
      obtain ⟨e', hget, hs'⟩ := hs.get hfirst hu
      rw [hget]
      obtain ⟨j, hlo, hhi, hj⟩ := hnone
      have hji : j ≠ i := by
        rintro rfl
        rw [hu] at hj
        cases hj
      refine ih (s := { s with dev := e' }) hs' (fun c hc => ?_)
        (fun j hlo hhi => hslot j (by omega) (by omega)) ⟨j, by omega, by omega, hj⟩
      rcases List.mem_append.mp hc with hc | hc
      · exact hclinks c hc
      · rw [List.mem_singleton.mp hc]
        exact hfirst

theorem shows_sliceInfo {main : Nat} (part old new : Nat) (hs : Shows d v D e) (hmain : Slot main) :
    ∃ d' v', Shows d' v' D (hdlUpdateGameSliceInfo main part old new e) ∧
      ∀ a, Slot a → v' a = v a := by
  have hlba : main + (HDL_GAME_DATA_OFFSET + 4096) / 512 = main + 2056 := rfl
  obtain ⟨k, hk⟩ := hmain
  unfold hdlUpdateGameSliceInfo
  rw [hlba]
  simp only
  split
  · split
    · set info := setWord (dataStartWord part) _ _
      set e' := (ataWrite (main + 2056) [info.1, info.2] e).2 with he'
      have hdisk : ∀ a, a < main + 2056 ∨ main + 2058 ≤ a → e'.disk a = e.disk a :=
        fun a ha => ataWrite_disk_outside (by simpa using ha)
      have hcache : e'.cache = e.cache := ataWrite_cache ..
      refine ⟨e', e'.view, ⟨rfl, rfl, ?_, fun _ => rfl, fun t => ?_⟩, fun a ha => ?_⟩
      · refine hs.sound.of_eq hcache ?_ (ataWrite_journalBuf ..) (hdisk _ (by simp only [APA_SECTOR_APAL]; omega))
        rw [he', ataWrite_of_good hs.sound.good]
      · rw [isDirty, hcache, ← isDirty, hs.dirty]
      · obtain ⟨j, hj⟩ := ha
        rw [view_of_eq hcache (hdisk a (by omega)) (hdisk (a + 1) (by omega)), hs.view]
    · exact ⟨d, v, hs, fun _ _ => rfl⟩
  · exact ⟨d, v, hs, fun _ _ => rfl⟩

private theorem finishSwap_writes {clinks : List Nat} (hs : Shows d v D s.dev) (hdest : Slot dest.start)
    (hx : Slot x.start) (hvdest : (v dest.start).isSome) (hvx : (v x.start).isSome)
    (hfew : D.length ≤ 64) (hclinks : ∀ c ∈ clinks, Slot c) :
    wp (finishSwap dest.start x.start clinks) s fun _ s' =>
      ∀ a h, a ∈ x.start :: dest.start :: D → Slot a → v a = some h →
        s'.dev.view a = some h.sealed ∧ Holds s'.dev.disk a h.sealed := by
  have hset := (hs.setDirty hdest hvdest).setDirty hx hvx
  have hflushed := (hset.sound.flushable places_slot (fun s => (hset.dirty s).mp) (by
    simp only [List.length_cons]
    omega)).flushed places_slot hset.sound
  have hsame := same_frees (d := (setDirty x.start (setDirty dest.start s.dev)).apaCacheFlushAllDirty.2)
    hclinks
  rw [finishSwap]
  simp only [wp_devDo_bind, wp_devOp_bind]
  refine wp_modify fun a h ha hslot hva => ?_
  have hview := hflushed.view a hslot
  rw [if_pos ((hset.dirty a).mpr ha), hset.view, hva, Option.map_some] at hview
  have hheld := hflushed.held a h ((hset.dirty a).mpr ha) ((hset.view a).trans hva)
  rw [← hsame.disk] at hheld
  exact ⟨(hsame.view a).trans hview, hheld⟩

/-! ### The run of the swap -/

/-- The headers of `dest`, `x` and those that name `x` are what the swap makes of them, in the cache and on the disk. -/
def Swapped (P : List ApaHeader) (dest x : ApaHeader) (e : Device) : Prop :=
  ∀ y ∈ P, (y = dest ∨ y = x ∨ y.start ∈ fetched x) →
    ∃ u, e.view y.start = some u ∧ apaReadHeader e.disk y.start = some u ∧
      u.body = swapped x dest.start y

theorem finishSwap_swaps {clinks : List Nat} (hswap : Swappable P dest x) (hs : Shows d v D s.dev)
    (hnode : ∀ y ∈ P, (y = dest ∨ y = x ∨ y.start ∈ fetched x) →
      ∃ u, v y.start = some u ∧ u.body = swapped x dest.start y)
    (hlisted : ∀ a ∈ fetched x, a ∈ D) (hfew : D.length ≤ 64) (hclinks : ∀ c ∈ clinks, Slot c) :
    wp (finishSwap dest.start x.start clinks) s fun _ s' => Swapped P dest x s'.dev := by
  have hdest := (hswap.tiles.part hswap.destMem).slot
  have hx := (hswap.tiles.part hswap.mem).slot
  obtain ⟨ud, hud, -⟩ := hnode dest hswap.destMem (.inl rfl)
  obtain ⟨ux, hux, -⟩ := hnode x hswap.mem (.inr (.inl rfl))
  refine (finishSwap_writes hs hdest hx (by simp [hud]) (by simp [hux]) hfew hclinks).mono ?_
  intro _ s' hwrites y hy hcase
  obtain ⟨u, hu, hbody⟩ := hnode y hy hcase
  have hmem : y.start ∈ x.start :: dest.start :: D := by
    rcases hcase with rfl | rfl | hfetched
    · simp
    · simp
    · simp [hlisted _ hfetched]
  obtain ⟨hview, hheld⟩ := hwrites y.start u hmem (hswap.tiles.part hy).slot hu
  have hstart := swapped_start x dest.start y
  have haccepted := accepted_sealed (hswap.part_swapped hy) hbody
  rw [hstart] at haccepted
  exact ⟨u.sealed, hview, apaReadHeader_of_sectors hheld.1 hheld.2 haccepted,
    u.sealed_body.trans hbody⟩

/-- The headers of `dest` and `x` are filled in, whatever else can be read. -/
structure Filled (P : List ApaHeader) (dest x vd vx : ApaHeader) (d e : Device) : Prop where
  swappable : Swappable P dest x
  seen : Seen P d
  destBody : vd.body = dest
  body : vx.body = x
  shows : Shows d (headsView d dest x vd vx) [] e

namespace Filled

theorem dest_body (h : Filled P dest x vd vx d e) :
    (destHeader vd vx).body = swapped x dest.start dest := by
  rw [swapped_dest, ← h.body, ← h.destBody]
  rfl

theorem source_body (h : Filled P dest x vd vx d e) :
    (sourceHeader vx).body = swapped x dest.start x := by
  rw [h.swappable.swapped_self, ← h.body]
  rfl

theorem fetched_other (h : Filled P dest x vd vx d e) (hy : y ∈ P) (hfetched : y.start ∈ fetched x) :
    y ∈ used P ∧ y ≠ dest ∧ y ≠ x := by
  have htiles := h.swappable.tiles
  cases hx : x.isSub with
  | true =>
    rw [fetched, if_pos hx, List.mem_singleton] at hfetched
    obtain ⟨m, hm, hmmain, hmstart, -⟩ := h.swappable.refs.listed x h.swappable.mem_used hx
    obtain rfl := htiles.eq_of_start (mem_used.mp hm).1 hy (hmstart.trans hfetched.symm)
    refine ⟨hm, fun heq => h.swappable.used_start hm (heq ▸ rfl), ?_⟩
    rintro rfl
    rw [hmmain] at hx
    cases hx
  | false =>
    rw [fetched, if_neg (by simp [hx])] at hfetched
    obtain ⟨z, hz, -, hstart, -, hzd, hzx⟩ := Heads.sub_of_mem h.swappable hx hfetched
    obtain rfl := htiles.eq_of_start (mem_used.mp hz).1 hy hstart
    exact ⟨hz, hzd, hzx⟩

private theorem node_sub {m vm : ApaHeader} {i : Nat} (h : Filled P dest x vd vx d e)
    (hx : x.isSub = true) (hm : m ∈ used P) (hmmain : m.isSub = false) (hmstart : m.start = x.main)
    (hi : i < m.nsub) (hstart : (m.sub i).start = x.start) (hvm : d.view m.start = some vm)
    (hy : y ∈ P) (hcase : y = dest ∨ y = x ∨ y.start ∈ fetched x) :
    ∃ u, (if y.start = m.start then (headsView d dest x vd vx y.start).map (fun h => { h with
        subs := fun j => if j.val = i then ⟨dest.start, (h.subs j).length⟩ else h.subs j })
      else headsView d dest x vd vx y.start) = some u ∧ u.body = swapped x dest.start y := by
  have hswap := h.swappable
  have htiles := hswap.tiles
  have hmP := (mem_used.mp hm).1
  have hmfetched : m.start ∈ fetched x := by
    rw [fetched, if_pos hx]
    exact List.mem_singleton.mpr hmstart
  obtain ⟨-, hmd, hmx⟩ := h.fetched_other hmP hmfetched
  rcases hcase with rfl | rfl | hfetched
  · rw [if_neg fun heq => hmd (htiles.eq_of_start hmP hy heq.symm), Heads.view_dest]
    exact ⟨_, rfl, h.dest_body⟩
  · rw [if_neg fun heq => hmx (htiles.eq_of_start hmP hy heq.symm), h.swappable.view_source]
    exact ⟨_, rfl, h.source_body⟩
  · rw [fetched, if_pos hx, List.mem_singleton] at hfetched
    obtain rfl := htiles.eq_of_start hy hmP (hfetched.trans hmstart.symm)
    have hbody := h.seen.seen y hy vm hvm
    rw [if_pos rfl, h.swappable.view_other hy hmd hmx, hvm]
    refine ⟨_, rfl, ?_⟩
    rw [hswap.swapped_other hy hmd hmx, hswap.relocate_lister hm hmmain hi hstart,
      Equiv.swap_apply_of_ne_of_ne (fun heq => hmx (htiles.eq_of_start hy hswap.mem heq))
        (hswap.used_start hm), ← hbody]
    rfl

private theorem node_main (h : Filled P dest x vd vx d e) (hx : x.isSub = false)
    (hread : ∀ a ∈ fetched x, (d.view a).isSome) (hy : y ∈ P)
    (hcase : y = dest ∨ y = x ∨ y.start ∈ fetched x) :
    ∃ u, (if y.start ∈ (List.range' 0 x.nsub).map (fun j => (x.sub j).start) then
        (headsView d dest x vd vx y.start).map (fun h => { h with main := dest.start })
      else headsView d dest x vd vx y.start) = some u ∧ u.body = swapped x dest.start y := by
  have hswap := h.swappable
  have htiles := hswap.tiles
  have hfetch : fetched x = (List.range' 0 x.nsub).map fun j => (x.sub j).start := by
    rw [fetched, if_neg (by simp [hx])]
  rw [← hfetch]
  rcases hcase with rfl | rfl | hfetched
  · rw [if_neg fun hmem => (h.fetched_other hy hmem).2.1 rfl, Heads.view_dest]
    exact ⟨_, rfl, h.dest_body⟩
  · rw [if_neg fun hmem => (h.fetched_other hy hmem).2.2 rfl, h.swappable.view_source]
    exact ⟨_, rfl, h.source_body⟩
  · obtain ⟨hyU, hyd, hyx⟩ := h.fetched_other hy hfetched
    obtain ⟨u, hu⟩ := Option.isSome_iff_exists.mp (hread _ hfetched)
    have hbody := h.seen.seen y hy u hu
    rw [if_pos hfetched, h.swappable.view_other hy hyd hyx, hu]
    refine ⟨_, rfl, ?_⟩
    rw [hfetch] at hfetched
    obtain ⟨z, hz, hsub, hstart, hmain, -, -⟩ := Heads.sub_of_mem hswap hx hfetched
    obtain rfl := htiles.eq_of_start (mem_used.mp hz).1 hy hstart
    rw [hswap.swapped_other hy hyd hyx, relocate_listed hsub hmain, Equiv.swap_apply_of_ne_of_ne
      (fun heq => hyx (htiles.eq_of_start hy hswap.mem heq)) (hswap.used_start hz), ← hbody]
    rfl

end Filled

/-- What the swap returns and leaves: the swapped table where every header can be read that it fetches, and an error with the header of the destination filled in where not. -/
theorem SwapPartitionResult_run (hswap : Swappable P dest x) (h : Seen P s.dev)
    (hvd : s.dev.view dest.start = some vd) (hvx : s.dev.view x.start = some vx) :
    wp (SwapPartitionResult dest.start x.start) s fun r s' =>
      ((∀ a ∈ fetched x, (s.dev.view a).isSome) →
        r = (if x.isSub = true ∨ x.nsub ≠ 0 then 0 else s.uninit s.dev.ops.length) ∧
          Swapped P dest x s'.dev) ∧
      ((∃ a ∈ fetched x, s.dev.view a = none) →
        r = - EIO ∧ s'.dev.view dest.start = some (destHeader vd vx)) := by
  have htiles := hswap.tiles
  have hdbody := h.seen dest hswap.destMem vd hvd
  have hxbody := h.seen x hswap.mem vx hvx
  have hdslot := (htiles.part hswap.destMem).slot
  have hfilled : Filled P dest x vd vx s.dev
      (setHeader x.start (fun _ => sourceHeader vx)
        (setHeader dest.start (fun _ => destHeader vd vx) s.dev)) :=
    ⟨hswap, h, hdbody, hxbody, shows_heads h.shows hdslot (htiles.part hswap.mem).slot
      (by simp [hvd]) (by simp [hvx]) hswap.start_ne⟩
  have hxstart : vx.start = x.start := by rw [← hxbody]; rfl
  have hsub : (destHeader vd vx).isSub = x.isSub := by rw [← hxbody]; rfl
  have hmain : (destHeader vd vx).main = x.main := by rw [← hxbody]; rfl
  have hnsub : (destHeader vd vx).nsub = x.nsub := by rw [← hxbody]; rfl
  have hsubs : ∀ i, (destHeader vd vx).sub i = x.sub i := fun i => by rw [← hxbody]; rfl
  have hstart : (destHeader vd vx).start = dest.start := by
    rw [← show vd.body = dest from hdbody]
    rfl
  rw [SwapPartitionResult]
  simp only [wp_read_bind, wp_headerOf_bind, wp_devDo_bind, header_of_view hvd, header_of_view hvx]
  generalize setHeader x.start (fun _ => sourceHeader vx)
    (setHeader dest.start (fun _ => destHeader vd vx) s.dev) = e at hfilled ⊢
  have hread : e.header dest.start = destHeader vd vx := by
    rw [hfilled.shows.header, Heads.view_dest, Option.getD_some]
  simp only [hread, hsub, hmain, hnsub, hstart]
  split
  · rename_i hx
    obtain ⟨m, hm, hmmain, hmstart, hlist⟩ := hswap.refs.listed x hswap.mem_used hx
    have hmP := (mem_used.mp hm).1
    have hmslot := (htiles.part hmP).slot
    have hfetch : fetched x = [m.start] := by rw [fetched, if_pos hx, hmstart]
    obtain ⟨-, hmd, hmx⟩ := hfilled.fetched_other hmP (by simp [hfetch])
    have hother : headsView s.dev dest x vd vx m.start = s.dev.view m.start :=
      hfilled.swappable.view_other hmP hmd hmx
    rw [← hmstart]
    simp only [hfetch, List.mem_singleton, forall_eq, exists_eq_left, wp_devOp_bind]
    cases hvm : s.dev.view m.start with
    | none =>
      rw [hvm] at hother
      rw [get_unread ((hfilled.shows.view _).trans hother)]
      dsimp only
      refine wp_pure ⟨fun hsome => (by cases hsome), fun _ => ⟨rfl, ?_⟩⟩
      exact (view_apaSaveError hdslot).trans ((hfilled.shows.view _).trans Heads.view_dest)
    | some vm =>
      rw [hvm] at hother
      have hmbody := h.seen m hmP vm hvm
      have hvmnsub : vm.nsub = m.nsub := by rw [← hmbody]; rfl
      have hvmsub : ∀ i, vm.sub i = m.sub i := fun i => by rw [← hmbody]; rfl
      obtain ⟨e₁, hget, hshows⟩ := hfilled.shows.get hmslot hother
      have hmread : e₁.header m.start = vm := by rw [hshows.header, hother, Option.getD_some]
      obtain ⟨i, hfind, hi, histart⟩ := find_listed (hlist.resolve_right fun hf => hf.1)
      simp only [hget, wp_headerOf_bind, hmread, hvmnsub, hvmsub, hxstart, hfind, wp_devDo_bind]
      have hset := (hshows.setHeader hmslot fun h => { h with subs := fun j =>
        if j.val = i then ⟨dest.start, (h.subs j).length⟩ else h.subs j }).setDirty hmslot
          (by simp [hother])
      have hfinish : ∀ (s' : State) (d' : Device) (v' : Nat → Option ApaHeader), Shows d' v' [m.start] s'.dev →
          (∀ a, Slot a → v' a = if a = m.start then (headsView s.dev dest x vd vx a).map (fun h => { h with
            subs := fun j => if j.val = i then ⟨dest.start, (h.subs j).length⟩ else h.subs j })
            else headsView s.dev dest x vd vx a) →
          wp (do finishSwap dest.start x.start [m.start]; return (0 : Int)) s' fun r s'' =>
            ((some vm).isSome = true → r = (if x.isSub = true ∨ x.nsub ≠ 0 then 0 else
              s.uninit s.dev.ops.length) ∧ Swapped P dest x s''.dev) ∧
            (some vm = none → r = - EIO ∧ s''.dev.view dest.start = some (destHeader vd vx)) := by
        intro s' d' v' hs' hv'
        refine wp_bind ((finishSwap_swaps hswap hs' (fun y hy hcase => ?_) (by simp [hfetch])
          (by simp) (by simpa using hmslot)).mono ?_)
        · rw [hv' _ (htiles.part hy).slot]
          exact hfilled.node_sub hx hm hmmain hmstart hi histart hvm hy hcase
        · intro _ s'' hswapped
          exact wp_pure ⟨fun _ => ⟨by rw [if_pos (.inl hx)], hswapped⟩, fun hnone => by cases hnone⟩
      split
      · obtain ⟨d', v', hs', hv'⟩ := shows_sliceInfo i x.start dest.start hset hmslot
        rw [wp_devDo_bind]
        exact hfinish _ d' v' hs' hv'
      · exact hfinish _ _ _ hset fun _ _ => rfl
  · rename_i hx
    rw [Bool.not_eq_true] at hx
    have hfetch : fetched x = (List.range' 0 x.nsub).map fun j => (x.sub j).start := by
      rw [fetched, if_neg (by simp [hx])]
    have hmem : ∀ j < x.nsub, (x.sub j).start ∈ fetched x := by
      intro j hj
      rw [hfetch]
      exact List.mem_map.mpr ⟨j, List.mem_range'_1.mpr (by omega), rfl⟩
    have hview : ∀ a ∈ fetched x, Slot a ∧ headsView s.dev dest x vd vx a = s.dev.view a := by
      intro a ha
      rw [hfetch] at ha
      obtain ⟨z, hz, -, rfl, -, hzd, hzx⟩ := Heads.sub_of_mem hswap hx ha
      have hzP := (mem_used.mp hz).1
      exact ⟨(htiles.part hzP).slot, hfilled.swappable.view_other hzP hzd hzx⟩
    by_cases hall : ∀ a ∈ fetched x, (s.dev.view a).isSome
    · have hnot : ¬ ∃ a ∈ fetched x, s.dev.view a = none := by
        rintro ⟨a, ha, hnone⟩
        have := hall a ha
        rw [hnone] at this
        cases this
      refine wp_bind ((getSubs_spec (destHeader vd vx) (s := { s with dev := e }) hfilled.shows
        Heads.view_dest fun j _ hj => ?_).mono ?_)
      · rw [hsubs]
        obtain ⟨hslot, heq⟩ := hview _ (hmem j (by omega))
        rw [heq]
        exact ⟨hslot, hall _ (hmem j (by omega))⟩
      · rintro r s₁ ⟨rfl, -, hshows⟩
        simp only [List.nil_append, hsubs, wp_devDo_bind, hxstart, ← hfetch]
        have hmains : ∀ c ∈ fetched x, Slot c ∧ (headsView s.dev dest x vd vx c).isSome := by
          intro c hc
          rw [(hview c hc).2]
          exact ⟨(hview c hc).1, hall c hc⟩
        have hset := shows_mains (a := dest.start) hshows hmains
        have hfinish : ∀ (s' : State) (d' : Device) (v' : Nat → Option ApaHeader),
            Shows d' v' ((fetched x).reverse ++ []) s'.dev →
            (∀ a, Slot a → v' a = if a ∈ fetched x then (headsView s.dev dest x vd vx a).map
              (fun h => { h with main := dest.start }) else headsView s.dev dest x vd vx a) →
            wp (do finishSwap dest.start x.start (fetched x); return (if x.nsub = 0 then
              s.uninit s.dev.ops.length else 0)) s' fun r s'' =>
              ((∀ a ∈ fetched x, (s.dev.view a).isSome) → r = (if x.isSub = true ∨ x.nsub ≠ 0 then 0
                else s.uninit s.dev.ops.length) ∧ Swapped P dest x s''.dev) ∧
              ((∃ a ∈ fetched x, s.dev.view a = none) → r = - EIO ∧
                s''.dev.view dest.start = some (destHeader vd vx)) := by
          intro s' d' v' hs' hv'
          refine wp_bind ((finishSwap_swaps hswap hs' (fun y hy hcase => ?_) (by simp) ?_
            fun c hc => (hview c hc).1).mono ?_)
          · rw [hv' _ (htiles.part hy).slot, hfetch]
            exact hfilled.node_main hx hall hy hcase
          · have := hswap.refs.few x hswap.mem_used hx
            simpa [hfetch] using this
          · intro _ s'' hswapped
            refine wp_pure ⟨fun _ => ⟨?_, hswapped⟩, fun hnone => (hnot hnone).elim⟩
            by_cases hzero : x.nsub = 0 <;> simp [hx, hzero]
        split
        · obtain ⟨d', v', hs', hv'⟩ := shows_sliceInfo 0 x.start dest.start hset hdslot
          rw [wp_devDo_bind]
          exact hfinish _ d' v' hs' hv'
        · exact hfinish _ _ _ hset fun _ _ => rfl
    · simp only [not_forall] at hall
      obtain ⟨a, ha, hnone⟩ := hall
      have hnone : s.dev.view a = none := by simpa using hnone
      have hlisted := ha
      rw [hfetch] at hlisted
      obtain ⟨j, hj, hja⟩ := List.mem_map.mp hlisted
      have hj := (List.mem_range'_1.mp hj).2
      refine wp_bind ((getSubs_fails (destHeader vd vx) (s := { s with dev := e }) hfilled.shows
        Heads.view_dest (by simp) (fun j _ hj => ?_) ⟨j, by omega, hj, ?_⟩).mono ?_)
      · rw [hsubs]
        exact (hview _ (hmem j (by omega))).1
      · rw [hsubs, hja, (hview a ha).2, hnone]
      · rintro r s₁ ⟨rfl, hkeep⟩
        refine wp_pure ⟨fun hsome => ?_, fun _ => ⟨rfl, (hkeep _ hdslot).trans Heads.view_dest⟩⟩
        have := hsome a ha
        rw [hnone] at this
        cases this

/-! ### Whether the swap is atomic -/

/-- `MovePartition` comes from `s₀` to its call of `SwapPartition` in `s`. -/
def Reaches (dest start : Nat) (s₀ s : State) : Prop :=
  (s₀.dev.header dest).type = APA_TYPE_FREE ∧
    (s₀.dev.header dest).length = (s₀.dev.header start).length ∧
      ∃ s₁, Runs (onDev hdskRemoveTmp) s₀ 0 s₁ ∧
        ∃ s₂, Runs (CopyPartition (s₁.dev.header dest) (s₁.dev.header start)) s₁ 0 s₂ ∧
          Runs hdskStopFlag s₂ false s

/-- A swap that returns an error leaves every header as it was and is an error of `MovePartition` too; one that returns 0 is done. -/
def Atomic (P : List ApaHeader) (dest x : ApaHeader) (s : State) : Prop :=
  wp (SwapPartitionResult dest.start x.start) s fun r s' =>
    (r ≠ 0 → (∀ y ∈ P, s'.dev.view y.start = s.dev.view y.start ∧
      apaReadHeader s'.dev.disk y.start = apaReadHeader s.dev.disk y.start) ∧
      ∀ s₀, Reaches dest.start x.start s₀ s →
        wlp (MovePartition dest.start x.start) s₀ fun r' _ => r' ≠ 0) ∧
    (r = 0 → Swapped P dest x s'.dev)

private theorem MovePartition_unseen {dest start : Nat} {s₀ s : State} (h : Reaches dest start s₀ s) :
    wlp (MovePartition dest start) s₀ fun r _ => r = 0 := by
  obtain ⟨hfree, hlength, s₁, hremove, s₂, hcopy, hstop⟩ := h
  intro r s' hrun
  rw [MovePartition] at hrun
  obtain ⟨hdest, _, hread, hrun⟩ := hrun.of_bind
  obtain ⟨rfl, rfl⟩ := hread.unique (runs_ofState _ s₀)
  obtain ⟨hstart, _, hread, hrun⟩ := hrun.of_bind
  obtain ⟨rfl, rfl⟩ := hread.unique (runs_ofState _ _)
  dsimp only at hrun
  rw [if_neg (by simpa using hfree), if_neg (by simpa using hlength)] at hrun
  obtain ⟨r₁, _, hremove', hrun⟩ := hrun.of_bind
  obtain ⟨rfl, rfl⟩ := hremove'.unique hremove
  rw [if_neg (by simp)] at hrun
  obtain ⟨hdest, _, hread, hrun⟩ := hrun.of_bind
  obtain ⟨rfl, rfl⟩ := hread.unique (runs_ofState _ _)
  obtain ⟨hstart, _, hread, hrun⟩ := hrun.of_bind
  obtain ⟨rfl, rfl⟩ := hread.unique (runs_ofState _ _)
  dsimp only at hrun
  obtain ⟨r₂, _, hcopy', hrun⟩ := hrun.of_bind
  obtain ⟨rfl, rfl⟩ := hcopy'.unique hcopy
  rw [if_neg (by simp)] at hrun
  obtain ⟨stop, _, hstop', hrun⟩ := hrun.of_bind
  obtain ⟨rfl, rfl⟩ := hstop'.unique hstop
  rw [if_neg (by simp)] at hrun
  obtain ⟨_, s₄, -, hrun⟩ := hrun.of_bind
  exact (hrun.unique (runs_pure 0 s₄)).1

/-- The swap is atomic exactly when every header can be read that it fetches, and its result is set: by a fetch, or to 0 by chance. -/
theorem SwapPartition_atomic_iff (hswap : Swappable P dest x) (h : Seen P s.dev)
    (hdest : (s.dev.view dest.start).isSome) (hx : (s.dev.view x.start).isSome) :
    Atomic P dest x s ↔ (∀ a ∈ fetched x, (s.dev.view a).isSome) ∧
      (x.isSub = true ∨ x.nsub ≠ 0 ∨ s.uninit s.dev.ops.length = 0) := by
  obtain ⟨vd, hvd⟩ := Option.isSome_iff_exists.mp hdest
  obtain ⟨vx, hvx⟩ := Option.isSome_iff_exists.mp hx
  have hdbody := h.seen dest hswap.destMem vd hvd
  have hxbody := h.seen x hswap.mem vx hvx
  -- the header of the destination shows that the swap has begun
  have hbegun : ∀ u, u.isFree = false → some u ≠ s.dev.view dest.start := by
    intro u hu heq
    have hfree := hswap.free
    rw [hvd] at heq
    rw [← hdbody, ← Option.some.inj heq] at hfree
    exact Bool.false_ne_true (hu.symm.trans hfree)
  have hrun := SwapPartitionResult_run hswap h hvd hvx
  constructor
  · intro hatomic
    obtain ⟨r, s', -, hspec, hr, hzero⟩ := hatomic.and_wlp hrun.wlp |>.mono fun _ _ h => And.symm h
    have hdestMem := hswap.destMem
    have hresult : r = 0 := by
      by_contra hne
      have hkept := ((hr hne).1 dest hdestMem).1
      by_cases hall : ∀ a ∈ fetched x, (s.dev.view a).isSome
      · obtain ⟨u, hu, -, hbody⟩ := (hspec.1 hall).2 dest hdestMem (.inl rfl)
        rw [swapped_dest] at hbody
        refine hbegun u ?_ (hu.symm.trans hkept)
        calc u.isFree = u.body.isFree := rfl
          _ = x.isFree := by rw [hbody]; rfl
          _ = false := hswap.used
      · simp only [not_forall] at hall
        obtain ⟨a, ha, hnone⟩ := hall
        have hview := (hspec.2 ⟨a, ha, by simpa using hnone⟩).2
        refine hbegun _ ?_ (hview.symm.trans hkept)
        calc (destHeader vd vx).isFree = vx.body.isFree := rfl
          _ = x.isFree := by rw [hxbody]
          _ = false := hswap.used
    have hall : ∀ a ∈ fetched x, (s.dev.view a).isSome := by
      by_contra hnot
      simp only [not_forall] at hnot
      obtain ⟨a, ha, hnone⟩ := hnot
      have hfail := (hspec.2 ⟨a, ha, by simpa using hnone⟩).1
      rw [hresult] at hfail
      exact absurd hfail (by decide)
    refine ⟨hall, ?_⟩
    have hvalue := (hspec.1 hall).1
    rw [hresult] at hvalue
    split at hvalue
    · rename_i hset
      exact hset.elim .inl fun hne => .inr (.inl hne)
    · exact .inr (.inr hvalue.symm)
  · rintro ⟨hall, hset⟩
    refine hrun.mono fun r s' hspec => ?_
    obtain ⟨hr, hswapped⟩ := hspec.1 hall
    have hzero : r = 0 := by
      rw [hr]
      split
      · rfl
      · rename_i hunset
        simp only [not_or, not_not] at hunset
        rcases hset with hsub | hne | huninit
        · exact (hunset.1 hsub).elim
        · exact (hne hunset.2).elim
        · exact huninit
    exact ⟨fun hne => (hne hzero).elim, fun _ => hswapped⟩

/-! ### A sub that cannot be read -/

theorem seen_of_steady {π : Promise} {w : WriteBack (Option Sector)} (h : Steady π w d P) : Seen P d where
  sound := h.sound
  clean := h.clean
  seen := by
    intro y hy u hu
    obtain ⟨u', hu', hbody⟩ := Linked.Chain.mem h.ring hy
    rw [Option.some.inj (hu.symm.trans hu')]
    exact hbody

theorem view_hidden {bad : Nat → Bool} {a : Nat} (hclear : Apa.Device.Clear bad d) (ha : ¬ Readable bad a) :
    (hide bad d).view a = none := by
  rw [view, show (hide bad d).cache = d.cache from rfl, hclear.findBuf_hidden ha]
  exact apaReadHeader_hidden ha

theorem Seen.hide {bad : Nat → Bool} (h : Seen P d) (hclear : Apa.Device.Clear bad d) : Seen P (hide bad d) where
  sound := by
    refine h.sound.of_eq rfl rfl rfl ?_
    have hjournal : bad APA_SECTOR_APAL = false := hclear.log _ fun hout => hout.2 rfl
    simp [Device.hide, hjournal]
  clean := h.clean
  seen := by
    intro y hy u hu
    by_cases hread : Readable bad y.start
    · rw [view_hide hread] at hu
      exact h.seen y hy u hu
    · rw [view_hidden hclear hread] at hu
      cases hu

theorem SwapPartition_atomic_iff_small : Atomic gameBefore gameRoom gameMain gameState ↔
    (∀ a ∈ fetched gameMain, (gameState.dev.view a).isSome) ∧
      (gameMain.isSub = true ∨ gameMain.nsub ≠ 0 ∨
        gameState.uninit gameState.dev.ops.length = 0) := by
  have hview : ∀ y ∈ gameBefore, (gameState.dev.view y.start).isSome := by
    intro y hy
    obtain ⟨u, hu, -⟩ := Linked.Chain.mem gameState_steady.ring hy
    exact Option.isSome_of_mem hu
  exact SwapPartition_atomic_iff gameMain_swappable (seen_of_steady gameState_steady)
    (hview gameRoom (by decide)) (hview gameMain (by decide))

/-- The header of the sub of the small game cannot be read. -/
def badSub (a : Nat) : Bool := a == 0xC0000

/-- The swap of the main fails with the headers changed in the cache, and the move returns 0. -/
theorem SwapPartition_halfDone :
    ¬ Atomic gameBefore gameRoom gameMain { gameState with dev := hide badSub gameState.dev } ∧
      ∀ s₀, Reaches gameRoom.start gameMain.start s₀ { gameState with dev := hide badSub gameState.dev } →
        wlp (MovePartition gameRoom.start gameMain.start) s₀ fun r _ => r = 0 := by
  refine ⟨fun hatomic => ?_, fun s₀ => MovePartition_unseen⟩
  have hclear : Apa.Device.Clear badSub gameState.dev := by
    refine ⟨fun a ha => ?_, fun b hb => absurd hb List.not_mem_nil⟩
    simp only [RedoLog.Outside, apaLog, APA_SECTOR_APAL, APA_SECTOR_APAL_HEADERS] at ha
    simp only [badSub, beq_eq_false_iff_ne]
    omega
  have hseen := (seen_of_steady gameState_steady).hide hclear
  have hview : ∀ y ∈ gameBefore, y.start ≠ 0xC0000 →
      ∃ u, (hide badSub gameState.dev).view y.start = some u := by
    intro y hy hne
    obtain ⟨u, hu, -⟩ := Linked.Chain.mem gameState_steady.ring hy
    refine ⟨u, (view_hide ?_).trans hu⟩
    obtain ⟨k, hk⟩ := (gameBefore_tiles.part hy).slot
    constructor <;> simp only [badSub, beq_eq_false_iff_ne] <;> omega
  obtain ⟨vd, hvd⟩ := hview gameRoom (by decide) (by decide)
  obtain ⟨vx, hvx⟩ := hview gameMain (by decide) (by decide)
  obtain ⟨r, s', -, hspec, hr, -⟩ := (hatomic.and_wlp
    (SwapPartitionResult_run (s := { gameState with dev := hide badSub gameState.dev })
      gameMain_swappable hseen hvd hvx).wlp).mono fun _ _ h => And.symm h
  obtain ⟨hfail, hchanged⟩ := hspec.2 ⟨0xC0000, by decide, view_hidden hclear (by decide)⟩
  have hkept := ((hr (by rw [hfail]; decide)).1 gameRoom (by decide)).1
  rw [hchanged] at hkept
  have hdbody := hseen.seen gameRoom (by decide) vd hvd
  have hxbody := hseen.seen gameMain (by decide) vx hvx
  have hfree : (destHeader vd vx).isFree = gameRoom.isFree := by
    rw [← hdbody, Option.some.inj (hkept.trans hvd)]
    rfl
  have hused : (destHeader vd vx).isFree = gameMain.isFree := by
    rw [← hxbody]
    rfl
  exact absurd (hused.symm.trans hfree) (by decide)

end HddChecker.Hdsk
