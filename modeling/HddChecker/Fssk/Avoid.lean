import HddChecker.Pfs.Search
import HddChecker.Fssk.Space

/-!
# The search that avoids the partitions to be removed

`fsckBitmapSearchFreeZoneSpecial` goes around the partitions that stay, from the main one on. A hint in another partition is left as it is, so that the search goes on behind it and never comes back: it takes zones there, or runs out of the counters of free zones. It ends in a partition that stays exactly where the hint is in one and one of them has a free zone.
-/

namespace HddChecker.Fssk

open HddChecker Prog Pfs

variable {α : Type} {v : Volume α} {bi found : pfs_blockinfo_t} {m t : pfs_mount_t} {n count max_count : Nat}

/-! ### A pass -/

private theorem runs_searchPass_found (num : Nat) (hread : bi.subpart < FREE_ZONES)
    (h : searchSizes v.mount bi count = some (found, t)) :
    Runs (searchPass num count bi) v (.inr found) { v with mount := t.take found.subpart found.count } := by
  unfold searchPass
  apply (runs_ofState _ v).bind
  simp only [if_pos hread, h]
  exact (runs_ofState _ _).bind (runs_pure _ _)

private theorem runs_searchPass_next (num : Nat) (hread : bi.subpart < FREE_ZONES) (h : searchSizes v.mount bi count = none) :
    Runs (searchPass num count bi) v (.inl { bi with
      number := 0
      subpart := if num = u16 (bi.subpart + 1) then 0 else u16 (bi.subpart + 1) }) v := by
  unfold searchPass
  apply (runs_ofState _ v).bind
  simp only [if_pos hread, h]
  exact runs_pure _ _

theorem searchSizes_subpart (hm : Mounted m) (hread : bi.subpart < FREE_ZONES)
    (h : searchSizes m bi count = some (found, t)) : found.subpart = bi.subpart := by
  obtain ⟨amount, hpos, hle, hzones⟩ := searchSizes_spec h
  have hsub : bi.subpart ≤ m.num_subs := by
    by_contra hlt
    have hzero := hm.beyond bi.subpart (by omega) hread
    omega
  exact (pfsBitmapAllocZones_spec (hm.words _ hsub) hzones).2.1

theorem found_here (hm : Mounted v.mount) (num : Nat) (hread : bi.subpart < FREE_ZONES) {r : pfs_blockinfo_t × pfs_mount_t}
    (h : searchSizes v.mount bi count = some r) :
    ∃ found v', Runs (loop (searchPass num count) bi) v found v' ∧ found.subpart = bi.subpart :=
  ⟨r.1, _, (runs_searchPass_found num hread h).done, searchSizes_subpart hm hread h⟩

theorem Mounted.read (hm : Mounted m) {sub : Nat} (hsub : sub ≤ m.num_subs) : sub < FREE_ZONES :=
  Nat.lt_succ_of_le (hsub.trans hm.subs)

/-! ### The partitions that stay -/

private theorem next_kept (hn : n ≤ 64) (hsub : bi.subpart ≤ n) :
    (if n + 1 = u16 (bi.subpart + 1) then 0 else u16 (bi.subpart + 1)) = (bi.subpart + 1) % (n + 1) := by
  have hsmall : u16 (bi.subpart + 1) = bi.subpart + 1 := Nat.mod_eq_of_lt (by omega)
  rw [hsmall, ← next_eq hsub]
  simp only [eq_comm]

theorem kept_pass (hm : Mounted v.mount) (hn : n ≤ v.mount.num_subs) (hsub : bi.subpart ≤ n)
    (hnext : ∃ found v', Runs (loop (searchPass (n + 1) count)
      { bi with number := 0, subpart := (bi.subpart + 1) % (n + 1) }) v found v' ∧ found.subpart ≤ n) :
    ∃ found v', Runs (loop (searchPass (n + 1) count) bi) v found v' ∧ found.subpart ≤ n := by
  cases hsizes : searchSizes v.mount bi count with
  | some r =>
    obtain ⟨found, v', hrun, hfound⟩ := found_here hm (n + 1) (hm.read (hsub.trans hn)) hsizes
    exact ⟨found, v', hrun, hfound.trans_le hsub⟩
  | none =>
    obtain ⟨found, v', hrun, hle⟩ := hnext
    have hpass := runs_searchPass_next (n + 1) (hm.read (hsub.trans hn)) hsizes
    rw [next_kept (hn.trans hm.subs) hsub] at hpass
    exact ⟨found, v', hpass.step hrun, hle⟩

private theorem kept_finds (hm : Mounted v.mount) (hc : FreeCounted v.mount) (hn : n ≤ v.mount.num_subs)
    (hcount : 1 ≤ count) (hsub : bi.subpart ≤ n) (hzero : bi.number = 0) {d : Nat}
    (h : (v.mount.clear ((bi.subpart + d) % (n + 1))).Nonempty) :
    ∃ found v', Runs (loop (searchPass (n + 1) count) bi) v found v' ∧ found.subpart ≤ n := by
  induction d generalizing bi with
  | zero =>
    rw [Nat.add_zero, Nat.mod_eq_of_lt (by omega)] at h
    have hsome := (searchSizes_isSome (hm.words _ (by omega)) hcount (hc.pos (by omega))).mpr
      (ahead_of_zero hzero h)
    obtain ⟨r, hr⟩ := Option.isSome_iff_exists.mp hsome
    obtain ⟨found, v', hrun, hfound⟩ := found_here hm (n + 1) (hm.read (hsub.trans hn)) hr
    exact ⟨found, v', hrun, hfound.trans_le hsub⟩
  | succ d ih =>
    have hlt := Nat.mod_lt (bi.subpart + 1) (Nat.succ_pos n)
    apply kept_pass hm hn hsub
    apply ih
    · exact Nat.le_of_lt_succ hlt
    · rfl
    · simp only
      rwa [Nat.mod_add_mod, Nat.add_assoc, Nat.add_comm 1]

private theorem kept_ends (hm : Mounted v.mount) (hc : FreeCounted v.mount) (hn : n ≤ v.mount.num_subs)
    (hcount : 1 ≤ count) (hsub : bi.subpart ≤ n) {i : Nat} (hi : i ≤ n) (h : (v.mount.clear i).Nonempty) :
    ∃ found v', Runs (loop (searchPass (n + 1) count) bi) v found v' ∧ found.subpart ≤ n := by
  have hlt := Nat.mod_lt (bi.subpart + 1) (Nat.succ_pos n)
  obtain ⟨d, hd⟩ := exists_distance hi (Nat.le_of_lt_succ hlt)
  apply kept_pass hm hn hsub
  apply kept_finds hm hc hn hcount
  · exact Nat.le_of_lt_succ hlt
  · rfl
  · rwa [← hd] at h

/-! ### The others -/

private theorem doomed_wlp (hm : Mounted v.mount) (num : Nat) (hnum : num ≤ n + 1) (hsub : n < bi.subpart) :
    wlp (loop (searchPass num count) bi) v fun found _ => n < found.subpart := by
  refine wlp_loop (fun b v' => v' = v ∧ n < b.subpart) (fun b v' hinv => ?_) ⟨rfl, hsub⟩
  obtain ⟨rfl, hb⟩ := hinv
  unfold searchPass
  refine wlp_read_bind.mpr ?_
  split
  · rename_i hread
    split
    · rename_i found t hfound
      refine wlp_onMount_bind.mpr (wlp_pure ?_)
      have hfound : found.subpart = b.subpart := searchSizes_subpart hm hread hfound
      change n < found.subpart
      omega
    · -- the next partition is behind this one
      have hlt : b.subpart < 65 := hread
      have hsmall : u16 (b.subpart + 1) = b.subpart + 1 := Nat.mod_eq_of_lt (by omega)
      refine wlp_pure ⟨rfl, ?_⟩
      simp only [hsmall]
      rw [if_neg (by omega)]
      omega
  · exact wlp_stuck

/-! ### The search -/

def lastKept (v : Volume α) : Nat := v.mount.num_subs - v.partsDeleted

/-- The search ends, what it finds is a run of free zones in a partition that stays, which is taken, and it finds nothing where none of these has a free zone. -/
structure AvoidsDoomed (v : Volume α) (bi : pfs_blockinfo_t) (max_count : Nat) : Prop where
  ends : ∃ found v', Runs (fsckBitmapSearchFreeZoneSpecial bi max_count) v found v'
  kept : ∀ found v', Runs (fsckBitmapSearchFreeZoneSpecial bi max_count) v found v' →
    found.subpart ≤ lastKept v ∧ 0 < found.count ∧ Taken found v.mount v'.mount ∧
      v' = { v with mount := v'.mount } ∧
        v'.mount.free_zone found.subpart + found.count = v.mount.free_zone found.subpart ∧
          v'.mount.zfree + found.count = v.mount.zfree
  full : (∀ i ≤ lastKept v, v.mount.clear i = ∅) →
    ∀ found v', ¬ Runs (fsckBitmapSearchFreeZoneSpecial bi max_count) v found v'

theorem Found.counters {v' : Volume α} (hc : Counted v.mount) (h : Found bi found v v') :
    v'.mount.free_zone found.subpart + found.count = v.mount.free_zone found.subpart ∧
      v'.mount.zfree + found.count = v.mount.zfree := by
  obtain ⟨t, hchanged, heq⟩ := h.taken.changed
  have hfree := h.free_zone
  have hzfree := hfree.trans (free_zone_le_zfree hc h.taken.subpart)
  rw [heq, hchanged.rest]
  constructor
  · change Function.update v.mount.free_zone found.subpart _ found.subpart + found.count = _
    rw [Function.update_self]
    change v.mount.free_zone found.subpart - found.count + found.count = _
    omega
  · change v.mount.zfree - found.count + found.count = _
    omega

def startAt (n : Nat) (bi : pfs_blockinfo_t) : pfs_blockinfo_t :=
  if bi.subpart < n + 1 then { bi with subpart := 0 } else bi

/-- The run length it starts with. -/
def startCount (bi : pfs_blockinfo_t) (max_count : Nat) : Nat :=
  if (if max_count < 33 then max_count else 32) < bi.count then bi.count
  else if max_count < 33 then max_count else 32

private theorem runs_special {v' : Volume α} (hleft : v.subsLeft = n + 1)
    (h : Runs (loop (searchPass (n + 1) (startCount bi max_count)) (startAt n bi)) v found v') :
    Runs (fsckBitmapSearchFreeZoneSpecial bi max_count) v found v' := by
  unfold fsckBitmapSearchFreeZoneSpecial
  apply (runs_ofState _ v).bind
  simp only [hleft]
  exact h

private theorem runs_of_special {v' : Volume α} (hleft : v.subsLeft = n + 1)
    (h : Runs (fsckBitmapSearchFreeZoneSpecial bi max_count) v found v') :
    Runs (loop (searchPass (n + 1) (startCount bi max_count)) (startAt n bi)) v found v' := by
  obtain ⟨num, v₁, hread, hloop⟩ := h.of_bind
  obtain ⟨hnum, hv⟩ := hread.unique (runs_ofState (fun v : Volume α => (v.subsLeft, v)) v)
  simp only at hnum hv
  rw [hnum, hleft, hv] at hloop
  exact hloop

/-- The search avoids the partitions to be removed exactly where the hint is in one that stays and one of these has a free zone. -/
theorem fsckBitmapSearchFreeZoneSpecial_avoids (hm : Mounted v.mount) (hc : Counted v.mount)
    (hpos : 1 ≤ v.partsDeleted) (hdel : v.partsDeleted ≤ v.mount.num_subs) (hbi : 1 ≤ bi.count) (max_count : Nat) :
    AvoidsDoomed v bi max_count ↔ (∃ i ≤ lastKept v, (v.mount.clear i).Nonempty) ∧ bi.subpart ≤ lastKept v := by
  have hfc : FreeCounted v.mount := hc.free_zone
  have hleft : v.subsLeft = lastKept v + 1 := subsLeft_eq hm.subs hpos hdel
  have hcount : 1 ≤ startCount bi max_count := one_le_count hbi _
  have hkept : lastKept v ≤ v.mount.num_subs := Nat.sub_le _ _
  constructor
  · intro h
    obtain ⟨found, v', hrun⟩ := h.ends
    constructor
    · by_contra hnone
      refine h.full (fun i hi => ?_) found v' hrun
      by_contra hne
      exact hnone ⟨i, hi, Finset.nonempty_iff_ne_empty.mpr hne⟩
    · by_contra hdoomed
      have hstart : startAt (lastKept v) bi = bi := if_neg (by omega)
      have hloop := runs_of_special hleft hrun
      rw [hstart] at hloop
      have hbehind := doomed_wlp hm (lastKept v + 1) le_rfl (Nat.lt_of_not_le hdoomed) found v' hloop
      exact absurd (h.kept found v' hrun).1 (Nat.not_le.mpr hbehind)
  · rintro ⟨⟨i, hi, hclear⟩, hhint⟩
    -- the run that is found is in a partition that stays
    have hends : ∃ found v', Runs (fsckBitmapSearchFreeZoneSpecial bi max_count) v found v' ∧
        found.subpart ≤ lastKept v := by
      have hstart : startAt (lastKept v) bi = { bi with subpart := 0 } := if_pos (by omega)
      obtain ⟨found, v', hrun, hle⟩ := kept_ends hm hfc hkept hcount
        (show ({ bi with subpart := 0 } : pfs_blockinfo_t).subpart ≤ _ from Nat.zero_le _) hi hclear
      exact ⟨found, v', runs_special hleft (by rwa [hstart]), hle⟩
    obtain ⟨found, v', hrun, hle⟩ := hends
    refine ⟨⟨found, v', hrun⟩, fun found' v'' hrun' => ?_, fun hempty => ?_⟩
    · obtain ⟨rfl, rfl⟩ := hrun.unique hrun'
      have h := fsckBitmapSearchFreeZoneSpecial_spec hm bi hbi max_count _ _ hrun
      obtain ⟨hfree, hzfree⟩ := h.counters hc
      exact ⟨hle, h.pos, h.taken, h.same, hfree, hzfree⟩
    · rw [hempty i hi] at hclear
      exact absurd hclear Finset.not_nonempty_empty

/-- A hint in the partition that stays. -/
theorem fsckBitmapSearchFreeZoneSpecial_avoids_small :
    AvoidsDoomed (smallVolume 1 fun _ => none) ⟨10, 0, 1⟩ 1 :=
  (fsckBitmapSearchFreeZoneSpecial_avoids mounted_smallMount counted_smallMount (by decide)
    (by decide) (by decide) 1).mpr ⟨⟨0, by decide, by decide⟩, by decide⟩

/-- The same filesystem with a free zone in the partition to be removed. -/
def doomedVolume : Volume Nat :=
  { smallVolume 1 fun _ => none with
    mount := { smallMount with
      free_zone := fun i => if i = 0 then 2 else if i = 1 then 1 else 0
      zfree := 3
      bits := fun sub _ word bit =>
        !(sub == 0 && word == 1 && (bit == 8 || bit == 10) || sub == 1 && word == 1 && bit == 0) } }

/-- A hint in a partition to be removed that has a free zone is followed. -/
theorem fsckBitmapSearchFreeZoneSpecial_doomed :
    ¬ ∀ (v : Volume Nat) (bi : pfs_blockinfo_t) (max_count : Nat), Mounted v.mount → Counted v.mount →
      1 ≤ v.partsDeleted → v.partsDeleted ≤ v.mount.num_subs → 1 ≤ bi.count → bi.subpart ≤ v.mount.num_subs →
        1 ≤ max_count → AvoidsDoomed v bi max_count := by
  intro h
  have hm : Mounted doomedVolume.mount := by
    refine ⟨by decide, by decide, fun i hi _ => ?_⟩
    have hi' : 1 < i := hi
    change (if i = 0 then 2 else if i = 1 then 1 else 0) = 0
    rw [if_neg (by omega), if_neg (by omega)]
  have hc : Counted doomedVolume.mount := by
    refine ⟨fun i hi => ?_, by decide⟩
    have hi' : i ≤ 1 := hi
    obtain rfl | rfl : i = 0 ∨ i = 1 := by omega
    · decide
    · decide
  have havoids := h doomedVolume ⟨10, 1, 1⟩ 1 hm hc (by decide) (by decide) (by decide) (by decide) le_rfl
  obtain ⟨found, v', hrun, hfound⟩ := runs_of_any (p := fsckBitmapSearchFreeZoneSpecial ⟨10, 1, 1⟩ 1)
    (s := doomedVolume) (P := fun found _ => found.subpart == 1) 10 (by decide +kernel)
  have hle : found.subpart ≤ 0 := (havoids.kept found v' hrun).1
  rw [eq_of_beq hfound] at hle
  exact absurd hle (by decide)

end HddChecker.Fssk
