import HddChecker.Hdck.Links

/-!
# Checking the links of a table

`CheckAPAPartitionLinks` walks over the headers in one direction and sets the links of the other one right. `Still` is a drive on which nothing is pending, with headers at the places `S`; a scan along a path of readable headers keeps it still and changes the links back, and nothing else. What the whole check does is put together from its one or two scans.
-/

namespace HddChecker.Hdck

open HddChecker Apa Prog Device

variable {S : Nat → Prop} {st : State} {d e : Device} {dir : Direction} {h x : ApaHeader} {s t value : Nat}

/-- Nothing is pending on the drive, and the cache shows the headers at the places `S` as they are on the disk. -/
structure Still (S : Nat → Prop) (d : Device) : Prop where
  sound : d.Sound S
  clean : ∀ s, d.isDirty s = false
  stored : ∀ s, S s → d.view s = apaReadHeader d.disk s

theorem Still.same (h : Still S d) (hsame : Same S d e) : Still S e where
  sound := hsame.sound h.sound
  clean := fun s => by rw [hsame.isDirty, h.clean]
  stored := fun s hs => by rw [hsame.view, hsame.disk, h.stored s hs]

/-! ### One link -/

/-- A direction whose link back can be set without a change of anything else a scan looks at. -/
structure Scans (dir : Direction) : Prop where
  onward : ∀ v h, dir.onward (dir.setBack v h) = dir.onward h
  back : ∀ v h, dir.back (dir.setBack v h) = v
  start : ∀ v h, (dir.setBack v h).start = h.start
  magic : ∀ v h, (dir.setBack v h).magic = h.magic
  mbr : ∀ v h, (dir.setBack v h).mbr = h.mbr
  sealedOnward : ∀ h, dir.onward h.sealed = dir.onward h
  sealedBack : ∀ h, dir.back h.sealed = dir.back h

theorem scans_forward : Scans forward :=
  ⟨fun _ _ => rfl, fun _ _ => rfl, fun _ _ => rfl, fun _ _ => rfl, fun _ _ => rfl, fun _ => rfl,
    fun _ => rfl⟩

theorem scans_backward : Scans backward :=
  ⟨fun _ _ => rfl, fun _ _ => rfl, fun _ _ => rfl, fun _ _ => rfl, fun _ _ => rfl, fun _ => rfl,
    fun _ => rfl⟩

/-- The header with its link back set to `value`, as a repair leaves it. -/
def backTo (dir : Direction) (value : Nat) (h : ApaHeader) : ApaHeader :=
  if dir.back h = value then h else (dir.setBack value h).sealed

theorem onward_backTo (hdir : Scans dir) : dir.onward (backTo dir value h) = dir.onward h := by
  unfold backTo
  split
  · rfl
  · rw [hdir.sealedOnward, hdir.onward]

theorem back_backTo (hdir : Scans dir) : dir.back (backTo dir value h) = value := by
  unfold backTo
  split
  · assumption
  · rw [hdir.sealedBack, hdir.back]

theorem start_backTo (hdir : Scans dir) : (backTo dir value h).start = h.start := by
  unfold backTo
  split
  · rfl
  · rw [ApaHeader.sealed_start, hdir.start]

private theorem accepted_of_read {disk : Nat → Option Sector} (hread : apaReadHeader disk s = some h) :
    h.accepted s = true := by
  unfold apaReadHeader at hread
  split at hread
  · dsimp only at hread
    split at hread
    · rename_i haccepted
      rwa [← Option.some.inj hread]
    · cases hread
  · cases hread

private theorem accepted_setBack (hdir : Scans dir) (haccepted : h.accepted s = true) :
    (dir.setBack value h).sealed.accepted s = true := by
  have hmbr : (dir.setBack value h).sealed.hasMBRMagic = h.hasMBRMagic := by
    rw [ApaHeader.hasMBRMagic, ApaHeader.sealed_mbr, hdir.mbr, ← ApaHeader.hasMBRMagic]
  unfold ApaHeader.accepted at *
  rw [apaCheckSum_sealed, hmbr, ApaHeader.sealed_magic, hdir.magic, ApaHeader.sealed_checksum]
  simp only [Bool.and_eq_true, beq_self_eq_true, and_true] at *
  exact ⟨haccepted.1.1, haccepted.2⟩

/-- A header is written: the drive is still again, and no other header is changed. -/
theorem Still.write (hS : Places S) (hstill : Still S d) (hs : S s) (hview : d.view s = some x)
    (g : ApaHeader → ApaHeader) (hg : (g x).sealed.accepted s = true) :
    Still S (setDirty s (setHeader s g d)).apaCacheFlushAllDirty.2 ∧
      ∀ t, S t → (setDirty s (setHeader s g d)).apaCacheFlushAllDirty.2.view t =
        if t = s then some (g x).sealed else d.view t := by
  set d₁ := setDirty s (setHeader s g d) with hd₁
  have hsound : d₁.Sound S := (hstill.sound.setHeader hs g).setDirty hs
  have hdirty : ∀ t, d₁.isDirty t = true ↔ t = s := by
    intro t
    rw [hd₁, isDirty_setDirty (by simp [hview]), isDirty_setHeader, hstill.clean]
    simp
  have hview₁ : ∀ t, d₁.view t = if t = s then some (g x) else d.view t := by
    intro t
    rw [hd₁, view_setDirty, view_setHeader]
    split
    · rename_i hts
      rw [hts, hview]
      rfl
    · rfl
  have hflushed := (hsound.flushable hS (L := [s]) (fun t ht => by simpa using (hdirty t).mp ht)
    (by simp)).flushed hS hsound
  set e := d₁.apaCacheFlushAllDirty.2 with he
  have hafter : ∀ t, S t → e.view t = if t = s then some (g x).sealed else d.view t := by
    intro t ht
    rw [hflushed.view t ht, hview₁]
    by_cases hts : t = s
    · rw [if_pos ((hdirty t).mpr hts), if_pos hts, if_pos hts]
      rfl
    · rw [if_neg (mt (hdirty t).mp hts), if_neg hts, if_neg hts]
  refine ⟨⟨hflushed.sound, hflushed.clean, fun t ht => ?_⟩, hafter⟩
  rw [hafter t ht]
  by_cases hts : t = s
  · subst hts
    have hholds := hflushed.held t (g x) ((hdirty t).mpr rfl) (by rw [hview₁, if_pos rfl])
    rw [if_pos rfl, apaReadHeader_of_sectors hholds.1 hholds.2 hg]
  · have hframe : ∀ a, a = t ∨ a = t + 1 → e.disk a = d.disk a := by
      intro a ha
      rw [hflushed.frame a (hS.outside ht ha) fun u hu => ?_, hd₁, setDirty, store_disk, setHeader,
        store_disk]
      obtain rfl := (hdirty u).mp hu
      have hlt := hS.apart t u ht hs
      have hgt := hS.apart u t hs ht
      omega
    rw [if_neg hts, hstill.stored t ht]
    exact (apaReadHeader_congr (hframe t (.inl rfl)) (hframe _ (.inr rfl))).symm

/-- A link is set right where it is wrong. -/
theorem relink_spec (hS : Places S) (hdir : Scans dir) (hstill : Still S st.dev) (hs : S s)
    (hview : st.dev.view s = some x) :
    wp (relink s dir.back dir.setBack value) st fun _ st' => ∃ e, st' = { st with dev := e } ∧
      Still S e ∧ (∀ t, S t → e.view t = if t = s then some (backTo dir value x) else st.dev.view t) ∧
      (dir.back x = value → e = st.dev) := by
  unfold relink
  refine wp_zoom ?_
  rw [wp_read_bind, header_of_view hview]
  by_cases hback : dir.back x = value
  · rw [if_neg (not_not.mpr hback), wp_pure_iff]
    refine ⟨st.dev, rfl, hstill, fun t _ => ?_, fun _ => rfl⟩
    rw [backTo, if_pos hback]
    split
    · rename_i hts
      rw [hts, hview]
    · rfl
  · rw [if_pos hback]
    simp only [wp_modify_bind, wp_ofState_bind, wp_pure_iff]
    have haccepted := accepted_of_read ((hstill.stored s hs).symm.trans hview)
    obtain ⟨hafter, hviews⟩ := hstill.write hS hs hview (dir.setBack value)
      (accepted_setBack hdir haccepted)
    refine ⟨_, rfl, hafter, fun t ht => ?_, fun hright => (hback hright).elim⟩
    rw [hviews t ht, backTo, if_neg hback]

/-! ### A scan -/

/-- From `s` on the links lead over headers at the sectors `L` to the sector `t`. -/
inductive Path (onward : ApaHeader → Nat) (V : Nat → Option ApaHeader) : Nat → List Nat → Nat → Prop where
  | done {s : Nat} : Path onward V s [] s
  | step {s t : Nat} {h : ApaHeader} {L : List Nat} (hs : s ≠ 0) (hview : V s = some h)
      (hrest : Path onward V (onward h) L t) : Path onward V s (s :: L) t

variable {onward : ApaHeader → Nat} {V W : Nat → Option ApaHeader} {L list : List Nat} {p : Nat}

theorem Path.congr (h : Path onward V s L t) (heq : ∀ a ∈ L, W a = V a) : Path onward W s L t := by
  induction h with
  | done => exact .done
  | @step s t h L hs hview _ ih =>
    exact .step hs ((heq s List.mem_cons_self).trans hview)
      (ih fun a ha => heq a (List.mem_cons_of_mem _ ha))

/-- Headers that lead on to the same places make the same path. -/
theorem Path.map (h : Path onward V s L t)
    (hmap : ∀ a ∈ L, ∀ x, V a = some x → ∃ y, W a = some y ∧ onward y = onward x) :
    Path onward W s L t := by
  induction h with
  | done => exact .done
  | @step s t x L hs hview _ ih =>
    obtain ⟨y, hy, hnext⟩ := hmap s List.mem_cons_self x hview
    refine .step hs hy ?_
    rw [hnext]
    exact ih fun a ha => hmap a (List.mem_cons_of_mem _ ha)

theorem Path.readable (h : Path onward V s L t) {a : Nat} (ha : a ∈ L) : a ≠ 0 ∧ ∃ x, V a = some x := by
  induction h with
  | done => cases ha
  | step hs hview _ ih =>
    rcases List.mem_cons.mp ha with rfl | ha
    · exact ⟨hs, _, hview⟩
    · exact ih ha

private theorem path_nil_iff : Path onward V s [] t ↔ s = t := by
  constructor
  · rintro ⟨⟩
    rfl
  · rintro rfl
    exact .done

private theorem path_cons_iff {a : Nat} : Path onward V s (a :: L) t ↔
    s = a ∧ s ≠ 0 ∧ ∃ h, V s = some h ∧ Path onward V (onward h) L t := by
  constructor
  · intro h
    cases h with
    | step hs hview hrest => exact ⟨rfl, hs, _, hview, hrest⟩
  · rintro ⟨rfl, hs, h, hview, hrest⟩
    exact .step hs hview hrest

instance decidableFound {α : Type} {P : α → Prop} [DecidablePred P] :
    (o : Option α) → Decidable (∃ h, o = some h ∧ P h)
  | none => isFalse (by simp)
  | some h => decidable_of_iff (P h) (by simp)

instance Path.decidable : (L : List Nat) → (s : Nat) → Decidable (Path onward V s L t)
  | [], _ => decidable_of_iff _ path_nil_iff.symm
  | _ :: L, _ =>
    have (h : ApaHeader) := Path.decidable L (onward h)
    decidable_of_iff _ path_cons_iff.symm

/-- What a scan that came from `p` makes of the headers at `L`: each names the one before it. -/
def scanned (dir : Direction) (V : Nat → Option ApaHeader) : Nat → List Nat → Nat → Option ApaHeader
  | _, [], t => V t
  | p, s :: L, t => if t = s then (V t).map (backTo dir p) else scanned dir V s L t

theorem scanned_of_not_mem (ht : t ∉ L) : scanned dir V p L t = V t := by
  induction L generalizing p with
  | nil => rfl
  | cons s L ih =>
    rw [List.mem_cons, not_or] at ht
    rw [scanned, if_neg ht.1, ih ht.2]

private theorem scanned_congr (heq : W t = V t) : scanned dir W p L t = scanned dir V p L t := by
  induction L generalizing p with
  | nil => exact heq
  | cons s L ih => rw [scanned, scanned, heq, ih]

/-- The headers at `L` name the one before them already. -/
def BacksRight (dir : Direction) (V : Nat → Option ApaHeader) : Nat → List Nat → Prop
  | _, [] => True
  | p, s :: L => (∃ h, V s = some h ∧ dir.back h = p) ∧ BacksRight dir V s L

theorem BacksRight.congr (h : BacksRight dir V p L) (heq : ∀ a ∈ L, W a = V a) :
    BacksRight dir W p L := by
  induction L generalizing p with
  | nil => trivial
  | cons s L ih =>
    refine ⟨?_, ih h.2 fun a ha => heq a (List.mem_cons_of_mem _ ha)⟩
    rw [heq s List.mem_cons_self]
    exact h.1

/-- A pass of the loop of a scan. -/
def scanPass (dir : Direction) (x : Nat × Nat × List Nat × Int) :
    Prog State ((Nat × Nat × List Nat × Int) ⊕ (Int × Nat × Nat)) := do
  let (CurrentLBA, ParentLBA, list, result) := x
  if CurrentLBA = 0 then return .inr (result, CurrentLBA, ParentLBA)
  else
    let (result, list) := AddPartitionToList list CurrentLBA
    if result < 0 then return .inr (result, CurrentLBA, ParentLBA)
    else
      match ← devOp (Device.apaCacheGetHeader CurrentLBA) with
      | .error err => return .inr (err, CurrentLBA, ParentLBA)
      | .ok clink2 =>
        relink clink2 dir.back dir.setBack ParentLBA
        let header ← headerOf clink2
        devDo (Device.apaCacheFree clink2)
        return .inl (dir.onward header, header.start, list, 0)

theorem scanLinks_eq (CurrentLBA : Nat) (result : Int) :
    scanLinks dir CurrentLBA result = loop (scanPass dir) (CurrentLBA, 0, [], result) := rfl

theorem wp_devOp_bind {α β : Type} {f : Device → β × Device} {g : β → Prog State α}
    {Q : α → State → Prop} :
    wp (devOp f >>= g) st Q ↔ wp (g (f st.dev).1) { st with dev := (f st.dev).2 } Q := Iff.rfl

theorem wp_headerOf_bind {α : Type} {g : ApaHeader → Prog State α} {Q : α → State → Prop} :
    wp (headerOf s >>= g) st Q ↔ wp (g (st.dev.header s)) st Q := Iff.rfl

theorem wp_devDo_bind {α : Type} {f : Device → Device} {g : Unit → Prog State α}
    {Q : α → State → Prop} :
    wp (devDo f >>= g) st Q ↔ wp (g ()) { st with dev := f st.dev } Q := Iff.rfl

private theorem scanPass_next (hS : Places S) (hdir : Scans dir) (hstill : Still S st.dev) (hs : S s)
    (hs0 : s ≠ 0) (hnew : s ∉ list) (hview : st.dev.view s = some x) (hstart : x.start = s)
    (result : Int) :
    wp (scanPass dir (s, p, list, result)) st fun r st' => ∃ e,
      r = .inl (dir.onward x, s, list ++ [s], 0) ∧ st' = { st with dev := e } ∧ Still S e ∧
      (∀ t, S t → e.view t = if t = s then some (backTo dir p x) else st.dev.view t) ∧
      (dir.back x = p → e.ops = st.dev.ops) := by
  unfold scanPass
  obtain ⟨e₁, hget, hsame⟩ := apaCacheGetHeader_ok (S := S) hview hs
  have hlist : AddPartitionToList list s = (0, list ++ [s]) := if_neg hnew
  simp only [hlist, hs0, if_false, lt_irrefl]
  rw [wp_devOp_bind, hget]
  refine wp_bind ((relink_spec hS hdir (hstill.same hsame) hs ((hsame.view s).trans hview)).mono ?_)
  rintro _ st' ⟨e₂, rfl, hstill₂, hviews, hright⟩
  have hself : e₂.view s = some (backTo dir p x) := by rw [hviews s hs, if_pos rfl]
  rw [wp_headerOf_bind, wp_devDo_bind]
  dsimp only
  rw [header_of_view hself, wp_pure_iff, onward_backTo hdir, start_backTo hdir, hstart]
  have hfree : Same S e₂ (apaCacheFree s e₂) := same_apaCacheFree hs
  refine ⟨apaCacheFree s e₂, rfl, rfl, hstill₂.same hfree, fun t ht => ?_, fun hback => ?_⟩
  · rw [hfree.view, hviews t ht]
    simp only [hsame.view]
  · rw [hfree.ops, hright hback, hsame.ops]

/-- The scan follows a path, and what is behind it is left to do. -/
theorem scan_path (hS : Places S) (hdir : Scans dir) (hpath : Path dir.onward st.dev.view s L t)
    (hstill : Still S st.dev) (hplaces : ∀ a ∈ L, S a)
    (hstart : ∀ a ∈ L, ∀ x, st.dev.view a = some x → x.start = a) (hnodup : (list ++ L).Nodup)
    {result : Int} {Q : Int × Nat × Nat → State → Prop}
    (hrest : ∀ e, Still S e → (∀ u, S u → e.view u = scanned dir st.dev.view p L u) →
      (BacksRight dir st.dev.view p L → e.ops = st.dev.ops) →
      wp (loop (scanPass dir) (t, L.getLastD p, list ++ L, if L = [] then result else 0))
        { st with dev := e } Q) :
    wp (loop (scanPass dir) (s, p, list, result)) st Q := by
  induction L generalizing s p list st result with
  | nil =>
    cases hpath
    have hend := hrest st.dev hstill (fun _ _ => rfl) fun _ => rfl
    simpa using hend
  | cons s L ih =>
    cases hpath with
    | @step _ _ x _ hs0 hview hpath =>
    have hs : S s := hplaces s List.mem_cons_self
    have hnew : s ∉ list := fun hmem =>
      (List.nodup_append.mp hnodup).2.2 s hmem s List.mem_cons_self rfl
    have hnotL : s ∉ L := (List.nodup_cons.mp (List.nodup_append.mp hnodup).2.1).1
    refine wp_loop_pass ((scanPass_next hS hdir hstill hs hs0 hnew hview
      (hstart s List.mem_cons_self x hview) result).mono ?_)
    rintro _ st' ⟨e, rfl, rfl, hstill', hviews, hops⟩
    have hkeep : ∀ a ∈ L, e.view a = st.dev.view a := by
      intro a ha
      rw [hviews a (hplaces a (List.mem_cons_of_mem _ ha)), if_neg fun heq : a = s => hnotL (heq ▸ ha)]
    refine ih (hpath.congr hkeep) hstill' (fun a ha => hplaces a (List.mem_cons_of_mem _ ha))
      (fun a ha y hy => hstart a (List.mem_cons_of_mem _ ha) y ((hkeep a ha).symm.trans hy))
      (by simpa using hnodup) fun e' hstill'' hviews' hops' => ?_
    have hend := hrest e' hstill'' (fun u hu => ?_) fun hright => ?_
    · have hlast : (s :: L).getLastD p = L.getLastD s := by cases L <;> rfl
      rw [if_neg (by simp), hlast] at hend
      simpa using hend
    · rw [hviews' u hu, scanned]
      by_cases hus : u = s
      · subst hus
        rw [if_pos rfl, scanned_of_not_mem hnotL, hviews u hu, if_pos rfl, hview]
        rfl
      · rw [if_neg hus]
        exact scanned_congr (by rw [hviews u hu, if_neg hus])
    · obtain ⟨⟨y, hy, hback⟩, hright⟩ := hright
      obtain rfl := Option.some.inj (hview.symm.trans hy)
      rw [hops' (hright.congr hkeep), hops hback]

theorem Still.saveError (hS : Places S) (h : Still S d) (lba : Nat) :
    Still S (apaSaveError APA_SECTOR_SECTOR_ERROR lba d) ∧
      ∀ s, S s → (apaSaveError APA_SECTOR_SECTOR_ERROR lba d).view s = d.view s := by
  set e := apaSaveError APA_SECTOR_SECTOR_ERROR lba d with he
  have hcache : e.cache = d.cache := by
    rw [he, apaSaveError, ataFlushCache, ataWrite_cache]
  have hdisk : ∀ a, a < APA_SECTOR_SECTOR_ERROR ∨ APA_SECTOR_SECTOR_ERROR + 1 ≤ a →
      e.disk a = d.disk a := fun a ha => ataWrite_disk_outside ha
  have hplace : ∀ s, S s → e.disk s = d.disk s ∧ e.disk (s + 1) = d.disk (s + 1) := by
    intro s hs
    have hclear := hS.clear s hs
    simp only [APA_SECTOR_SECTOR_ERROR, APA_SECTOR_APAL_HEADERS] at hclear hdisk
    exact ⟨hdisk s (by omega), hdisk _ (by omega)⟩
  have hview : ∀ s, S s → e.view s = d.view s := fun s hs =>
    view_of_eq hcache (hplace s hs).1 (hplace s hs).2
  refine ⟨⟨h.sound.of_eq hcache ?_ ?_ (hdisk _ (by decide)), fun s => ?_, fun s hs => ?_⟩, hview⟩
  · rw [he, apaSaveError, ataWrite]
    split <;> rfl
  · rw [he, apaSaveError, ataFlushCache, ataWrite_journalBuf]
  · rw [isDirty, hcache, ← isDirty, h.clean]
  · rw [hview s hs, h.stored s hs]
    exact (apaReadHeader_congr (hplace s hs).1 (hplace s hs).2).symm

/-- What a scan over the headers at `L` leaves. -/
structure Scanned (S : Nat → Prop) (dir : Direction) (d e : Device) (L : List Nat) : Prop where
  still : Still S e
  view : ∀ u, S u → e.view u = scanned dir d.view 0 L u
  ops : BacksRight dir d.view 0 L → e.ops = d.ops

theorem scan_all (hS : Places S) (hdir : Scans dir) (hpath : Path dir.onward st.dev.view s L 0)
    (hstill : Still S st.dev) (hplaces : ∀ a ∈ L, S a)
    (hstart : ∀ a ∈ L, ∀ x, st.dev.view a = some x → x.start = a) (hnodup : L.Nodup) (result : Int) :
    wp (scanLinks dir s result) st fun r st' => ∃ e,
      r = (if L = [] then result else 0, 0, L.getLastD 0) ∧ st' = { st with dev := e } ∧
      Scanned S dir st.dev e L := by
  rw [scanLinks_eq]
  refine scan_path hS hdir hpath hstill hplaces hstart (by simpa using hnodup) fun e he hview hops => ?_
  refine wp_loop_pass (wp_pure ?_)
  exact ⟨e, rfl, rfl, he, hview, hops⟩

/-- A scan whose path comes to a header it has met, or to one that cannot be read. -/
theorem scan_stuck (hS : Places S) (hdir : Scans dir) (hpath : Path dir.onward st.dev.view s L t)
    (hstill : Still S st.dev) (hplaces : ∀ a ∈ L, S a)
    (hstart : ∀ a ∈ L, ∀ x, st.dev.view a = some x → x.start = a) (hnodup : L.Nodup) (ht : S t)
    (ht0 : t ≠ 0) (hbad : t ∈ L ∨ st.dev.view t = none) (result : Int) :
    wp (scanLinks dir s result) st fun r st' => ∃ e err, r = (err, t, L.getLastD 0) ∧ err < 0 ∧
      st' = { st with dev := e } ∧ Still S e ∧
      ∀ u, S u → e.view u = scanned dir st.dev.view 0 L u := by
  rw [scanLinks_eq]
  refine scan_path hS hdir hpath hstill hplaces hstart (by simpa using hnodup) fun e he hview hops => ?_
  refine wp_loop_pass ?_
  unfold scanPass
  by_cases hmet : t ∈ L
  · have hlist : AddPartitionToList ([] ++ L) t = (- EEXIST, L) := if_pos hmet
    simp only [hlist, ht0, if_false]
    rw [if_pos (by decide), wp_pure_iff]
    exact ⟨e, _, rfl, by decide, rfl, he, hview⟩
  · have hlist : AddPartitionToList ([] ++ L) t = (0, L ++ [t]) := if_neg hmet
    simp only [hlist, ht0, if_false, lt_irrefl]
    have hnone : e.view t = none := by
      rw [hview t ht, scanned_of_not_mem hmet]
      exact hbad.resolve_left hmet
    rw [wp_devOp_bind]
    unfold apaCacheGetHeader
    unfold view at hnone
    dsimp only
    cases hbuf : findBuf e.cache t with
    | some b =>
      rw [hbuf] at hnone
      cases hnone
    | none =>
      rw [hbuf] at hnone
      simp only [hnone, wp_pure_iff]
      obtain ⟨hnoted, hsame⟩ := he.saveError hS t
      exact ⟨_, _, rfl, by decide, rfl, hnoted, fun u hu => by rw [hsame u hu, hview u hu]⟩

/-- After a scan the links back are right. -/
theorem backsRight_scanned (hdir : Scans dir) (hnodup : L.Nodup)
    (hread : ∀ a ∈ L, ∃ x, V a = some x) (hW : ∀ a ∈ L, W a = scanned dir V p L a) :
    BacksRight dir W p L := by
  induction L generalizing p with
  | nil => trivial
  | cons s L ih =>
    obtain ⟨hnot, hnodup⟩ := List.nodup_cons.mp hnodup
    refine ⟨?_, ih hnodup (fun a ha => hread a (List.mem_cons_of_mem _ ha)) fun a ha => ?_⟩
    · obtain ⟨x, hx⟩ := hread s List.mem_cons_self
      refine ⟨backTo dir p x, ?_, back_backTo hdir⟩
      rw [hW s List.mem_cons_self, scanned, if_pos rfl, hx]
      rfl
    · rw [hW a (List.mem_cons_of_mem _ ha), scanned, if_neg]
      rintro rfl
      exact hnot ha

theorem scanned_eq (u : Nat) :
    scanned dir V p L u = V u ∨ ∃ q, scanned dir V p L u = (V u).map (backTo dir q) := by
  induction L generalizing p with
  | nil => exact .inl rfl
  | cons s L ih =>
    rw [scanned]
    split
    · exact .inr ⟨p, rfl⟩
    · exact ih

theorem scanned_some {P : ApaHeader → Prop} (hx : V t = some x) (hkeep : P x)
    (hback : ∀ q, P (backTo dir q x)) : ∃ y, scanned dir V p L t = some y ∧ P y := by
  rcases (scanned_eq t : scanned dir V p L t = _ ∨ _) with heq | ⟨q, heq⟩
  · exact ⟨x, heq.trans hx, hkeep⟩
  · exact ⟨backTo dir q x, by rw [heq, hx, Option.map_some], hback q⟩

private theorem scanned_none (hnone : V t = none) : scanned dir V p L t = none := by
  rcases (scanned_eq t : scanned dir V p L t = _ ∨ _) with heq | ⟨q, heq⟩
  · exact heq.trans hnone
  · rw [heq, hnone, Option.map_none]

/-! ### A chain that can be followed forward -/

/-- `h'` is `h` with another `prev` and the checksum that goes with it. -/
def PrevOnly (h h' : ApaHeader) : Prop := h' = { h with prev := h'.prev, checksum := h'.checksum }

theorem prevOnly_backTo (value : Nat) (h : ApaHeader) : PrevOnly h (backTo forward value h) := by
  unfold backTo
  split
  · rfl
  · rfl

/-- What the check makes of a drive whose chain goes over the headers at `L`: each names the one before it, the MBR names the last one, and no header is changed otherwise. -/
structure LinksChecked (S : Nat → Prop) (d e : Device) (L : List Nat) : Prop where
  still : Still S e
  same : ∀ s, S s → ∀ h, d.view s = some h → ∃ h', e.view s = some h' ∧ PrevOnly h h'
  none : ∀ s, S s → d.view s = none → e.view s = none
  prevs : BacksRight forward e.view 0 L
  last : ∃ h, e.view 0 = some h ∧ h.prev = L.getLastD 0

/-- A drive with a chain from the MBR over the headers at `L` to the end. -/
structure Forward (S : Nat → Prop) (d : Device) (L : List Nat) : Prop where
  still : Still S d
  zero : S 0
  places : ∀ a ∈ L, S a
  starts : ∀ a ∈ L, ∀ x, d.view a = some x → x.start = a
  nodup : L.Nodup
  path : ∃ m, d.view 0 = some m ∧ Path (·.next) d.view m.next L 0

theorem Path.not_mem_zero (h : Path onward V s L t) : 0 ∉ L := fun hmem => (h.readable hmem).1 rfl

/-- The state without the errors of an earlier check. -/
def State.cleared (st : State) : State :=
  { st with
    ErrorPartition2LBA := 0, ErrorPartitionLBA := 0
    ErrorPartition2PrevLBA := 0, ErrorPartitionPrevLBA := 0 }

theorem State.cleared_dev : st.cleared.dev = st.dev := rfl

/-- One check of such a drive: it finds no error, and writes nothing where every link back is right. -/
theorem check_forward (hS : Places S) (h : Forward S st.dev L) :
    wp (CheckAPAPartitionLinks APA_SECTOR_MBR) st fun lba st' => lba = 0 ∧
      LinksChecked S st.dev st'.dev L ∧
      (BacksRight forward st.dev.view 0 L → (∃ m, st.dev.view 0 = some m ∧ m.prev = L.getLastD 0) →
        st'.dev.ops = st.dev.ops) := by
  have h' : Forward S st.cleared.dev L := h
  obtain ⟨m, hm, hpath⟩ := h'.path
  have hnot := hpath.not_mem_zero
  unfold CheckAPAPartitionLinks
  rw [wp_modify_bind, wp_headerOf_bind, show APA_SECTOR_MBR = 0 from rfl]
  have hhead : st.dev.header 0 = m := header_of_view hm
  dsimp only
  rw [hhead]
  refine wp_bind ((scan_all hS scans_forward hpath h'.still h'.places h'.starts h'.nodup 0).mono ?_)
  rintro r st' ⟨e, rfl, rfl, hstill, hview, hops⟩
  rw [State.cleared_dev] at hview hops hm
  rw [ite_self]
  dsimp only
  rw [if_pos rfl]
  have hmbr : e.view 0 = some m := by rw [hview 0 h.zero, scanned_of_not_mem hnot, hm]
  refine wp_bind ((relink_spec hS scans_forward hstill h.zero hmbr).mono ?_)
  rintro _ st'' ⟨e', rfl, hstill', hview', hops'⟩
  refine wp_ofState ⟨rfl, ⟨hstill', fun s hs x hx => ?_, fun s hs hnone => ?_, ?_, ?_⟩, ?_⟩
  · by_cases hs0 : s = 0
    · subst hs0
      obtain rfl := Option.some.inj (hm.symm.trans hx)
      exact ⟨_, by rw [hview' 0 hs, if_pos rfl], prevOnly_backTo _ _⟩
    · rw [hview' s hs, if_neg hs0, hview s hs]
      exact scanned_some hx rfl fun q => prevOnly_backTo q x
  · have hs0 : s ≠ 0 := by
      rintro rfl
      rw [hm] at hnone
      cases hnone
    rw [hview' s hs, if_neg hs0, hview s hs]
    exact scanned_none hnone
  · refine backsRight_scanned (V := st.dev.view) scans_forward h.nodup
      (fun a ha => (hpath.readable ha).2) fun a ha => ?_
    rw [hview' a (h.places a ha), if_neg (hpath.readable ha).1, hview a (h.places a ha)]
  · exact ⟨_, by rw [hview' 0 h.zero, if_pos rfl], back_backTo scans_forward⟩
  · rintro hright ⟨m', hm', hlast⟩
    obtain rfl := Option.some.inj (hm.symm.trans hm')
    exact (congrArg Device.ops (hops' hlast)).trans (hops hright)

/-- The chain is the same after the check. -/
theorem LinksChecked.forward (hd : Forward S d L) (h : LinksChecked S d e L) : Forward S e L where
  still := h.still
  zero := hd.zero
  places := hd.places
  starts := fun a ha x hx => by
    obtain ⟨m, -, hpath⟩ := hd.path
    obtain ⟨-, y, hy⟩ := hpath.readable ha
    obtain ⟨y', hy', hprev⟩ := h.same a (hd.places a ha) y hy
    obtain rfl := Option.some.inj (hx.symm.trans hy')
    rw [hprev]
    exact hd.starts a ha y hy
  nodup := hd.nodup
  path := by
    obtain ⟨m, hm, hpath⟩ := hd.path
    obtain ⟨m', hm', hprev⟩ := h.same 0 hd.zero m hm
    refine ⟨m', hm', ?_⟩
    rw [hprev]
    refine hpath.map fun a ha x hx => ?_
    obtain ⟨y, hy, hprev⟩ := h.same a (hd.places a ha) x hx
    exact ⟨y, hy, by rw [hprev]⟩

/-- Where the chain can be followed forward, the check repairs the links back and nothing else, and a second check has nothing to write. -/
theorem CheckAPAPartitionLinks_forward (hS : Places S) (h : Forward S st.dev L) :
    wp (CheckAPAPartitionLinks APA_SECTOR_MBR) st fun lba st' => lba = 0 ∧
      LinksChecked S st.dev st'.dev L ∧
      wp (CheckAPAPartitionLinks APA_SECTOR_MBR) st' fun lba' st'' => lba' = 0 ∧
        st''.dev.ops = st'.dev.ops := by
  refine (check_forward hS h).mono ?_
  rintro lba st' ⟨hlba, hchecked, -⟩
  refine ⟨hlba, hchecked, (check_forward hS (hchecked.forward h)).mono ?_⟩
  rintro lba' st'' ⟨hlba', -, hops⟩
  exact ⟨hlba', hops hchecked.prevs hchecked.last⟩

theorem still_bootState {H : List ApaHeader} : Still S (bootState H).dev where
  sound := ⟨List.nodup_nil, fun _ => rfl, rfl, rfl, idleSector_reset, fun _ hb => (List.not_mem_nil hb).elim⟩
  clean := fun _ => rfl
  stored := fun _ _ => rfl

/-- A drive with two partitions, whose MBR and whose first partition have wrong links back. -/
def wrongPrevs : State :=
  bootState [linkedHeader 0 0x40000 mbrHeader,
    linkedHeader 0x80000 0x80000 (plainHeader 0x40000 0x40000 0x0100),
    linkedHeader 0x40000 0 (plainHeader 0x80000 0x80000 0x0100)]

private theorem wrongPrevs_path : ∃ m, wrongPrevs.dev.view 0 = some m ∧
    Path (·.next) wrongPrevs.dev.view m.next [0x40000, 0x80000] 0 := by
  decide +kernel

private theorem wrongPrevs_forward : Forward Slot wrongPrevs.dev [0x40000, 0x80000] where
  still := still_bootState
  zero := slot_zero
  places := by decide
  starts := fun a ha x hx =>
    (read_headersDisk (by decide) (by decide)
      ((show ∀ a ∈ [0x40000, 0x80000], Slot a by decide) a ha) hx).2
  nodup := by decide
  path := wrongPrevs_path

theorem CheckAPAPartitionLinks_forward_wrongPrevs :
    wp (CheckAPAPartitionLinks APA_SECTOR_MBR) wrongPrevs fun lba st' => lba = 0 ∧
      LinksChecked Slot wrongPrevs.dev st'.dev [0x40000, 0x80000] ∧
      wp (CheckAPAPartitionLinks APA_SECTOR_MBR) st' fun lba' st'' => lba' = 0 ∧
        st''.dev.ops = st'.dev.ops :=
  CheckAPAPartitionLinks_forward places_slot wrongPrevs_forward

/-- A drive whose second partition stands where the journal keeps its copies. -/
def inJournal : State :=
  bootState [linkedHeader 10 0x40000 mbrHeader,
    linkedHeader 0x40000 10 (plainHeader 0x40000 0x40000 0x0100),
    linkedHeader 0x40000 0 (plainHeader 10 0x40000 0x0100)]

private theorem inJournal_path : ∃ m, inJournal.dev.view 0 = some m ∧
    Path (·.next) inJournal.dev.view m.next [0x40000, 10] 0 := by
  decide +kernel

private theorem inJournal_run :
    (inJournal.dev.view 0x40000).map (·.next) = some 10 ∧
    ((CheckAPAPartitionLinks APA_SECTOR_MBR).run 6 inJournal).map
      (fun r => (r.2.dev.view 0x40000).map (·.next)) = some (some 0x40000) := by
  decide +kernel

theorem CheckAPAPartitionLinks_inJournal :
    (∀ s x, inJournal.dev.view s = some x → x.start = s) ∧
    (∃ m, inJournal.dev.view 0 = some m ∧
      Path (·.next) inJournal.dev.view m.next [0x40000, 10] 0) ∧
    ¬ wp (CheckAPAPartitionLinks APA_SECTOR_MBR) inJournal fun lba st' => lba = 0 ∧
      ∀ s x y, inJournal.dev.view s = some x → st'.dev.view s = some y → y.next = x.next := by
  refine ⟨fun s x hx => ?_, inJournal_path, fun hkept => ?_⟩
  · have hplace : s ∈ [8, 0, 1, 0x40000, 0x40001, 10, 11] := by
      rcases read_headersDisk_found hx with rfl | ⟨y, hy, hs⟩
      · decide
      · simp only [List.mem_cons, List.not_mem_nil, or_false] at hy
        obtain rfl | rfl | rfl := hy
        · rcases hs with rfl | rfl <;> decide
        · rcases hs with rfl | rfl <;> decide
        · rcases hs with rfl | rfl <;> decide
    have hstart : ∀ s ∈ [8, 0, 1, 0x40000, 0x40001, 10, 11],
        (inJournal.dev.view s).map (·.start) = none ∨
          (inJournal.dev.view s).map (·.start) = some s := by
      decide +kernel
    simpa [hx] using hstart s hplace
  · obtain ⟨lba, st', hruns, -, hkept⟩ := hkept
    obtain ⟨hbefore, hafter⟩ := inJournal_run
    obtain ⟨x, hx, hnext⟩ := Option.map_eq_some_iff.mp hbefore
    obtain ⟨⟨r, st''⟩, hrun, hshown⟩ := Option.map_eq_some_iff.mp hafter
    obtain ⟨y, hy, hnext'⟩ := Option.map_eq_some_iff.mp hshown
    obtain ⟨-, rfl⟩ := hruns.unique ⟨6, hrun⟩
    rw [← hkept 0x40000 x y hx hy, hnext'] at hnext
    exact absurd hnext (by decide)

end HddChecker.Hdck
