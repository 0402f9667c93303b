import HddChecker.Hdck.LinkCheck

/-!
# A chain that can only be followed backward

The forward scan runs first and sets the `prev` of every header it visits. Where it fails, the backward scan therefore follows the stored chain up to the first header the forward one has visited, and from there goes back over the headers of the forward walk. It comes to the end in each case, and it has followed the stored chain if and only if the forward scan had nothing to set in it.
-/

namespace HddChecker.Hdck

open HddChecker Apa Prog Device

variable {S : Nat → Prop} {st : State} {d e : Device} {dir : Direction} {h x m : ApaHeader}
  {onward back : ApaHeader → Nat} {V W : Nat → Option ApaHeader} {vs bs L L' pre post : List Nat}
  {s t u p : Nat}

/-! ### Paths -/

theorem Path.trans (h : Path onward V s L t) (h' : Path onward V t L' u) :
    Path onward V s (L ++ L') u := by
  induction h with
  | done => exact h'
  | step hs hview _ ih => exact .step hs hview (ih h')

theorem Path.unique (h : Path onward V s L 0) (h' : Path onward V s L' 0) : L = L' := by
  induction L generalizing s L' with
  | nil =>
    cases h
    cases h' with
    | done => rfl
    | step hs _ _ => exact (hs rfl).elim
  | cons s L ih =>
    cases h with
    | step hs hview hrest =>
    cases h' with
    | done => exact (hs rfl).elim
    | step hs' hview' hrest' =>
    obtain rfl := Option.some.inj (hview.symm.trans hview')
    rw [ih hrest hrest']

theorem Path.head (h : Path onward V s L t) : L.headD t = s := by
  cases h with
  | done => rfl
  | step _ _ _ => rfl

theorem Path.onward_eq (h : Path onward V s L t) (h' : Path onward W s L t) (hs : u ∈ L)
    {y : ApaHeader} (hV : V u = some x) (hW : W u = some y) : onward x = onward y := by
  induction L generalizing s with
  | nil => cases hs
  | cons s L ih =>
    cases h with
    | @step _ _ x' _ _ hview hrest =>
    cases h' with
    | @step _ _ y' _ _ hview' hrest' =>
    have hnext : onward x' = onward y' := hrest.head.symm.trans hrest'.head
    rcases List.mem_cons.mp hs with rfl | hs
    · obtain rfl := Option.some.inj (hview.symm.trans hV)
      obtain rfl := Option.some.inj (hview'.symm.trans hW)
      exact hnext
    · rw [hnext] at hrest
      exact ih hrest hrest' hs

private theorem backsRight_append : BacksRight dir V p (L ++ L') ↔
    BacksRight dir V p L ∧ BacksRight dir V (L.getLastD p) L' := by
  induction L generalizing p with
  | nil => simp [BacksRight]
  | cons s L ih =>
    have hlast : (s :: L).getLastD p = L.getLastD s := by cases L <;> rfl
    rw [List.cons_append, BacksRight, ih, BacksRight, hlast, and_assoc]

theorem getLastD_reverse (L : List Nat) (t : Nat) : L.reverse.getLastD t = L.headD t := by
  cases L with
  | nil => rfl
  | cons s L => simp

/-- Where each header of a backward path has the right `next`, the path can be followed forward. -/
theorem Path.reverse (h : Path (·.prev) V s L t) (hright : BacksRight backward V p L) :
    Path (·.next) V (L.getLastD p) L.reverse p := by
  induction L generalizing s p with
  | nil => exact .done
  | cons s L ih =>
    cases h with
    | step hs hview hrest =>
    obtain ⟨⟨y, hy, hback⟩, hright⟩ := hright
    have hlast : (s :: L).getLastD p = L.getLastD s := by cases L <;> rfl
    rw [List.reverse_cons, hlast]
    refine (ih hrest hright).trans (.step hs hy ?_)
    have hnext : y.next = p := hback
    rw [hnext]
    exact .done

theorem Path.prevs (h : Path (·.prev) V s L t) : BacksRight forward V t L.reverse := by
  induction L generalizing s with
  | nil => trivial
  | cons s L ih =>
    cases h with
    | @step _ _ x _ hs hview hrest =>
    rw [List.reverse_cons, backsRight_append, getLastD_reverse, hrest.head]
    exact ⟨ih hrest, ⟨x, hview, rfl⟩, trivial⟩

/-! ### What the forward scan leaves of the backward chain -/

/-- If the forward walk over `vs` visits the header at `b`, its `prev` names the header visited just before it. -/
def PrevRight (V : Nat → Option ApaHeader) (vs : List Nat) (b : Nat) : Prop :=
  ∀ pre post, vs = pre ++ b :: post → ∀ x, V b = some x → x.prev = pre.getLastD 0

theorem scanned_of_split (hnot : u ∉ pre) :
    scanned dir V p (pre ++ u :: post) u = (V u).map (backTo dir (pre.getLastD p)) := by
  induction pre generalizing p with
  | nil =>
    rw [List.nil_append, scanned, if_pos rfl]
    rfl
  | cons s pre ih =>
    rw [List.mem_cons, not_or] at hnot
    have hlast : (s :: pre).getLastD p = pre.getLastD s := by cases pre <;> rfl
    rw [List.cons_append, scanned, if_neg hnot.1, ih hnot.2, hlast]

private theorem backTo_of_eq {value : Nat} (hback : dir.back h = value) : backTo dir value h = h := if_pos hback

theorem exists_split (hu : u ∈ vs) (hnodup : vs.Nodup) : ∃ pre post, vs = pre ++ u :: post ∧ u ∉ pre := by
  obtain ⟨pre, post, rfl⟩ := List.append_of_mem hu
  refine ⟨pre, post, rfl, fun hpre => ?_⟩
  exact (List.nodup_append.mp hnodup).2.2 u hpre u List.mem_cons_self rfl

private theorem scanned_of_prevRight (hnodup : vs.Nodup) (hread : ∃ x, V u = some x)
    (hright : PrevRight V vs u) : scanned forward V 0 vs u = V u := by
  by_cases hu : u ∈ vs
  · obtain ⟨pre, post, hsplit, hnot⟩ := exists_split hu hnodup
    obtain ⟨x, hx⟩ := hread
    rw [hsplit, scanned_of_split hnot, hx, Option.map_some, backTo_of_eq]
    exact hright pre post hsplit x hx
  · exact scanned_of_not_mem hu

private theorem path_back (hread : ∀ a ∈ pre ++ u :: post, a ≠ 0 ∧ ∃ x, V a = some x)
    (hnodup : (pre ++ u :: post).Nodup) :
    Path (·.prev) (scanned forward V 0 (pre ++ u :: post)) u (u :: pre.reverse) 0 := by
  induction pre using List.reverseRecOn generalizing u post with
  | nil =>
    obtain ⟨hu, x, hx⟩ := hread u (by simp)
    refine .step hu (by rw [scanned_of_split (by simp), hx, Option.map_some]) ?_
    rw [show (backTo forward ([].getLastD 0) x).prev = 0 from back_backTo scans_forward]
    exact .done
  | append_singleton pre q ih =>
    obtain ⟨hu, x, hx⟩ := hread u (by simp)
    have hnot : u ∉ pre ++ [q] := by
      intro hmem
      exact (List.nodup_append.mp hnodup).2.2 u hmem u List.mem_cons_self rfl
    refine .step hu (by rw [scanned_of_split hnot, hx, Option.map_some]) ?_
    rw [show (backTo forward ((pre ++ [q]).getLastD 0) x).prev = (pre ++ [q]).getLastD 0 from
      back_backTo scans_forward]
    rw [show (pre ++ [q]).getLastD 0 = q by simp, List.reverse_append, List.reverse_singleton,
      List.singleton_append]
    rw [List.append_assoc, List.singleton_append] at hread hnodup ⊢
    exact ih hread hnodup

private theorem path_after (hread : ∀ a ∈ vs, a ≠ 0 ∧ ∃ x, V a = some x) (hnodup : vs.Nodup)
    (hpath : Path (·.prev) V s bs 0) (hnodup' : bs.Nodup) :
    ∃ L, Path (·.prev) (scanned forward V 0 vs) s L 0 ∧ L.Nodup ∧ ∀ a ∈ L, a ∈ bs ∨ a ∈ vs := by
  induction bs generalizing s with
  | nil =>
    cases hpath
    exact ⟨[], .done, List.nodup_nil, fun a ha => by cases ha⟩
  | cons s bs ih =>
    cases hpath with
    | @step _ _ x _ hs hview hrest =>
    by_cases hvisited : s ∈ vs
    · obtain ⟨pre, post, rfl, hnot⟩ := exists_split hvisited hnodup
      refine ⟨s :: pre.reverse, path_back hread hnodup, ?_, fun a ha => .inr ?_⟩
      · rw [List.nodup_cons, List.mem_reverse, List.nodup_reverse]
        exact ⟨hnot, (List.nodup_append.mp hnodup).1⟩
      · simp only [List.mem_cons, List.mem_reverse, List.mem_append] at ha ⊢
        tauto
    · obtain ⟨hnotbs, hnodup'⟩ := List.nodup_cons.mp hnodup'
      obtain ⟨L, hL, hnodupL, hsub⟩ := ih hrest hnodup'
      refine ⟨s :: L, .step hs ((scanned_of_not_mem hvisited).trans hview) hL, ?_, fun a ha => ?_⟩
      · refine List.nodup_cons.mpr ⟨fun hmem => ?_, hnodupL⟩
        exact (hsub s hmem).elim hnotbs hvisited
      · rcases List.mem_cons.mp ha with rfl | ha
        · exact .inl List.mem_cons_self
        · exact (hsub a ha).imp (List.mem_cons_of_mem _) id

private theorem path_after_eq (hnodup : vs.Nodup) (hpath : Path (·.prev) V s bs 0)
    (hafter : Path (·.prev) (scanned forward V 0 vs) s L 0) :
    L = bs ↔ ∀ b ∈ bs, PrevRight V vs b := by
  constructor
  · rintro rfl b hb pre post hsplit x hx
    have hnot : b ∉ pre := by
      rw [hsplit] at hnodup
      exact fun hmem => (List.nodup_append.mp hnodup).2.2 b hmem b List.mem_cons_self rfl
    have hnew : scanned forward V 0 vs b = some (backTo forward (pre.getLastD 0) x) := by
      rw [hsplit, scanned_of_split hnot, hx, Option.map_some]
    rw [hpath.onward_eq hafter hb hx hnew]
    exact back_backTo scans_forward
  · intro hright
    refine hafter.unique (hpath.congr fun b hb => ?_)
    exact scanned_of_prevRight hnodup (hpath.readable hb).2 (hright b hb)

/-! ### The check -/

/-- From the MBR the chain goes over the headers at `L` to the end, and the links back agree with it. -/
def ChainIs (V : Nat → Option ApaHeader) (L : List Nat) : Prop :=
  ∃ m, V 0 = some m ∧ Path (·.next) V m.next L 0 ∧ BacksRight forward V 0 L ∧ m.prev = L.getLastD 0

theorem ChainIs.unique (h : ChainIs V L) (h' : ChainIs V L') : L = L' := by
  obtain ⟨m, hm, hpath, -⟩ := h
  obtain ⟨m', hm', hpath', -⟩ := h'
  obtain rfl := Option.some.inj (hm.symm.trans hm')
  exact hpath.unique hpath'

theorem ChainIs.congr (hS : S 0) (hL : ∀ a ∈ L, S a) (heq : ∀ s, S s → W s = V s) (h : ChainIs V L) :
    ChainIs W L := by
  obtain ⟨m, hm, hpath, hprevs, hlast⟩ := h
  exact ⟨m, (heq 0 hS).trans hm, hpath.congr fun a ha => heq a (hL a ha),
    hprevs.congr fun a ha => heq a (hL a ha), hlast⟩

/-- A drive whose forward walk over `vs` fails at `t`, and whose backward walk over `bs` comes to the end. -/
structure Backward (S : Nat → Prop) (d : Device) (vs : List Nat) (t : Nat) (bs : List Nat) : Prop where
  still : Still S d
  zero : S 0
  places : ∀ a, a ∈ vs ∨ a ∈ bs ∨ a = t → S a
  starts : ∀ a, S a → ∀ x, d.view a = some x → x.start = a
  nodup : vs.Nodup
  nodup' : bs.Nodup
  stop : t ≠ 0
  fails : t ∈ vs ∨ d.view t = none
  paths : ∃ m, d.view 0 = some m ∧ Path (·.next) d.view m.next vs t ∧ Path (·.prev) d.view m.prev bs 0

/-- What the check does after a forward scan that has failed with `result`. -/
def checkBackward (clink : Nat) (result : Int) : Prog State Nat := do
  let (result, CurrentLBA, ParentLBA) ← scanLinks backward (← headerOf clink).prev result
  if result = 0 then
    relink clink backward.back backward.setBack ParentLBA
    modify fun s => { s with ErrorPartitionLBA := 0 }
    return (← read (·.ErrorPartitionLBA))
  else
    modify fun s => { s with ErrorPartition2LBA := CurrentLBA, ErrorPartition2PrevLBA := ParentLBA }
    return (← read (·.ErrorPartitionLBA))

theorem check_fails (hS : Places S) (h : Backward S st.dev vs t bs) (hm : st.dev.view 0 = some m)
    (hpath : Path (·.next) st.dev.view m.next vs t) {Q : Nat → State → Prop}
    (hrest : ∀ (err : Int) st', err < 0 → Still S st'.dev →
      (∀ u, S u → st'.dev.view u = scanned forward st.dev.view 0 vs u) →
      st'.ErrorPartitionLBA = t → wp (checkBackward 0 err) st' Q) :
    wp (CheckAPAPartitionLinks APA_SECTOR_MBR) st Q := by
  have hhead : st.dev.header 0 = m := header_of_view hm
  have hvs : ∀ a ∈ vs, S a := fun a ha => h.places a (.inl ha)
  have hpath' : Path (·.next) st.cleared.dev.view m.next vs t := hpath
  have hstill' : Still S st.cleared.dev := h.still
  unfold CheckAPAPartitionLinks
  rw [wp_modify_bind, wp_headerOf_bind, show APA_SECTOR_MBR = 0 from rfl]
  dsimp only
  rw [hhead]
  refine wp_bind ((scan_stuck hS scans_forward hpath' hstill' hvs (fun a ha => h.starts a (hvs a ha))
    h.nodup (h.places t (.inr (.inr rfl))) h.stop h.fails 0).mono ?_)
  rintro r st' ⟨e, err, rfl, herr, rfl, hstill, hview⟩
  dsimp only
  rw [if_neg (by omega), wp_modify_bind]
  exact hrest err _ herr hstill hview rfl

private theorem checkBackward_empty (hm : st.dev.view 0 = some m) (hprev : m.prev = 0) {err : Int}
    (herr : err < 0) : wp (checkBackward 0 err) st fun lba _ => lba = st.ErrorPartitionLBA := by
  unfold checkBackward
  rw [wp_headerOf_bind, header_of_view hm, hprev, scanLinks_eq]
  refine wp_bind (wp_loop_pass (wp_pure ?_))
  dsimp only
  rw [if_neg (by omega), wp_modify_bind]
  exact wp_ofState rfl

/-- The backward scan and the repair of the MBR make a chain of the headers the scan has met. -/
private theorem checkBackward_chain (hS : Places S) (hstill : Still S st.dev) (h0 : S 0)
    (hm : st.dev.view 0 = some m) (hpath : Path (·.prev) st.dev.view m.prev L 0) (hne : L ≠ [])
    (hplaces : ∀ a ∈ L, S a) (hstart : ∀ a ∈ L, ∀ x, st.dev.view a = some x → x.start = a)
    (hnodup : L.Nodup) (err : Int) :
    wp (checkBackward 0 err) st fun lba st' => lba = 0 ∧
      ChainIs (apaReadHeader st'.dev.disk) L.reverse := by
  have hnot := hpath.not_mem_zero
  unfold checkBackward
  rw [wp_headerOf_bind, header_of_view hm]
  refine wp_bind ((scan_all hS scans_backward hpath hstill hplaces hstart hnodup err).mono ?_)
  rintro r st' ⟨e, rfl, rfl, hstill', hview, -⟩
  rw [if_neg hne]
  dsimp only
  rw [if_pos rfl]
  have hmbr : e.view 0 = some m := by rw [hview 0 h0, scanned_of_not_mem hnot, hm]
  refine wp_bind ((relink_spec hS scans_backward hstill' h0 hmbr).mono ?_)
  rintro _ st'' ⟨e', rfl, hstill'', hview', -⟩
  rw [wp_modify_bind]
  have hafter : ∀ a ∈ L, e'.view a = scanned backward st.dev.view 0 L a := by
    intro a ha
    rw [hview' a (hplaces a ha), if_neg (hpath.readable ha).1, hview a (hplaces a ha)]
  have hback : Path (·.prev) e'.view m.prev L 0 := by
    refine hpath.map fun a ha x hx => ?_
    rw [hafter a ha]
    exact scanned_some hx rfl fun _ => onward_backTo scans_backward
  have hright : BacksRight backward e'.view 0 L :=
    backsRight_scanned scans_backward hnodup (fun a ha => (hpath.readable ha).2) hafter
  refine wp_ofState ⟨rfl, ChainIs.congr h0 (fun a ha => hplaces a (List.mem_reverse.mp ha))
    (fun s hs => (hstill''.stored s hs).symm) ?_⟩
  refine ⟨backTo backward (L.getLastD 0) m, by rw [hview' 0 h0, if_pos rfl], ?_, hback.prevs, ?_⟩
  · rw [show (backTo backward (L.getLastD 0) m).next = L.getLastD 0 from back_backTo scans_backward]
    exact hback.reverse hright
  · rw [show (backTo backward (L.getLastD 0) m).prev = m.prev from onward_backTo scans_backward,
      getLastD_reverse, hback.head]

/-- The first scan fails, and the second one follows what the first one has left of the backward chain. -/
private theorem check_backward (hS : Places S) (h : Backward S st.dev vs t bs) :
    (bs = [] → wp (CheckAPAPartitionLinks APA_SECTOR_MBR) st fun lba _ => lba = t) ∧
    (bs ≠ [] → ∃ L, (L = bs ↔ ∀ b ∈ bs, PrevRight st.dev.view vs b) ∧
      wp (CheckAPAPartitionLinks APA_SECTOR_MBR) st fun lba st' => lba = 0 ∧
        ChainIs (apaReadHeader st'.dev.disk) L.reverse) := by
  obtain ⟨m, hm, hforward, hbackward⟩ := h.paths
  have hmbr : ∀ e : Device, (∀ u, S u → e.view u = scanned forward st.dev.view 0 vs u) →
      e.view 0 = some m := fun e hview => by
    rw [hview 0 h.zero, scanned_of_not_mem hforward.not_mem_zero, hm]
  constructor
  · rintro rfl
    have hprev : m.prev = 0 := hbackward.head.symm
    refine check_fails hS h hm hforward fun err st' herr _ hview hstop => ?_
    rw [← hstop]
    exact checkBackward_empty (hmbr _ hview) hprev herr
  · intro hne
    obtain ⟨L, hL, hnodup, hsub⟩ :=
      path_after (fun a ha => hforward.readable ha) h.nodup hbackward h.nodup'
    have hLplaces : ∀ a ∈ L, S a := fun a ha => h.places a ((hsub a ha).symm.imp id .inl)
    have hLne : L ≠ [] := by
      rintro rfl
      have hprev : 0 = m.prev := hL.head
      obtain ⟨b, bs, rfl⟩ := List.exists_cons_of_ne_nil hne
      cases hbackward with
      | step hs _ _ => exact hs hprev.symm
    refine ⟨L, path_after_eq h.nodup hbackward hL, ?_⟩
    refine check_fails hS h hm hforward fun err st' _ hstill hview _ => ?_
    refine checkBackward_chain hS hstill h.zero (hmbr _ hview)
      (hL.congr fun a ha => hview a (hLplaces a ha)) hLne hLplaces (fun a ha x hx => ?_) hnodup err
    -- the forward scan leaves the starts as they are
    rw [hview a (hLplaces a ha)] at hx
    rcases (scanned_eq a : scanned forward st.dev.view 0 vs a = _ ∨ _) with heq | ⟨q, heq⟩
    · exact h.starts a (hLplaces a ha) x (heq ▸ hx)
    · rw [heq, Option.map_eq_some_iff] at hx
      obtain ⟨y, hy, rfl⟩ := hx
      rw [start_backTo scans_forward]
      exact h.starts a (hLplaces a ha) y hy

/-- The check makes the chain of the stored backward walk if and only if the MBR names a last header and the forward scan has set no link the backward walk goes over. -/
theorem CheckAPAPartitionLinks_backward_iff (hS : Places S) (h : Backward S st.dev vs t bs) :
    wp (CheckAPAPartitionLinks APA_SECTOR_MBR) st (fun lba st' => lba = 0 ∧
      ChainIs (apaReadHeader st'.dev.disk) bs.reverse) ↔
    bs ≠ [] ∧ ∀ b ∈ bs, PrevRight st.dev.view vs b := by
  obtain ⟨hempty, hfound⟩ := check_backward hS h
  constructor
  · rintro ⟨lba, st', hruns, rfl, hchain⟩
    have hne : bs ≠ [] := by
      intro hnil
      obtain ⟨lba, st'', hruns', hlba⟩ := hempty hnil
      obtain ⟨rfl, -⟩ := hruns.unique hruns'
      exact h.stop hlba.symm
    obtain ⟨L, hL, lba, st'', hruns', -, hchain'⟩ := hfound hne
    obtain ⟨-, rfl⟩ := hruns.unique hruns'
    exact ⟨hne, hL.mp (List.reverse_injective (hchain'.unique hchain))⟩
  · rintro ⟨hne, hright⟩
    obtain ⟨L, hL, hruns⟩ := hfound hne
    rwa [hL.mpr hright] at hruns

/-- A drive with three partitions. The MBR leads on to the second one, and that to a header that cannot be read. -/
def lostFirst : State :=
  bootState [linkedHeader 0xC0000 0x80000 mbrHeader,
    linkedHeader 0 0x80000 (plainHeader 0x40000 0x40000 0x0100),
    linkedHeader 0x40000 0x100000 (plainHeader 0x80000 0x40000 0x0100),
    linkedHeader 0x80000 0 (plainHeader 0xC0000 0x40000 0x0100)]

theorem lostFirst_backward :
    Backward Slot lostFirst.dev [0x80000] 0x100000 [0xC0000, 0x80000, 0x40000] where
  still := still_bootState
  zero := slot_zero
  places := by
    rintro a (ha | ha | rfl)
    · exact (show ∀ a ∈ [0x80000], Slot a by decide) a ha
    · exact (show ∀ a ∈ [0xC0000, 0x80000, 0x40000], Slot a by decide) a ha
    · decide
  starts := fun _ ha _ hx => (read_headersDisk (by decide) (by decide) ha hx).2
  nodup := by decide
  nodup' := by decide
  stop := by decide
  fails := .inr (Option.map_eq_none_iff.mp
    (show (lostFirst.dev.view 0x100000).map (·.next) = none by decide +kernel))
  paths := by decide +kernel

/-- A drive with three partitions. The MBR leads on to the first one, and the second to a header that cannot be read. -/
def keptFirst : State :=
  bootState [linkedHeader 0xC0000 0x40000 mbrHeader,
    linkedHeader 0 0x80000 (plainHeader 0x40000 0x40000 0x0100),
    linkedHeader 0x40000 0x100000 (plainHeader 0x80000 0x40000 0x0100),
    linkedHeader 0x80000 0 (plainHeader 0xC0000 0x40000 0x0100)]

private theorem keptFirst_backward :
    Backward Slot keptFirst.dev [0x40000, 0x80000] 0x100000 [0xC0000, 0x80000, 0x40000] where
  still := still_bootState
  zero := slot_zero
  places := by
    rintro a (ha | ha | rfl)
    · exact (show ∀ a ∈ [0x40000, 0x80000], Slot a by decide) a ha
    · exact (show ∀ a ∈ [0xC0000, 0x80000, 0x40000], Slot a by decide) a ha
    · decide
  starts := fun _ ha _ hx => (read_headersDisk (by decide) (by decide) ha hx).2
  nodup := by decide
  nodup' := by decide
  stop := by decide
  fails := .inr (Option.map_eq_none_iff.mp
    (show (keptFirst.dev.view 0x100000).map (·.next) = none by decide +kernel))
  paths := by decide +kernel

private theorem keptFirst_right : ∀ b ∈ [0xC0000, 0x80000, 0x40000], PrevRight keptFirst.dev.view [0x40000, 0x80000] b := by
  intro b hb pre post heq x hx
  have hprevs : (keptFirst.dev.view 0x40000).map (·.prev) = some 0 ∧
      (keptFirst.dev.view 0x80000).map (·.prev) = some 0x40000 := by decide +kernel
  have hprev := congrArg (Option.map (·.prev)) hx
  rcases pre with _ | ⟨a, _ | ⟨a', pre⟩⟩
  · obtain ⟨rfl, -⟩ := List.cons.inj heq
    exact Option.some.inj (hprev.symm.trans hprevs.1)
  · obtain ⟨rfl, hrest⟩ := List.cons.inj heq
    obtain ⟨rfl, -⟩ := List.cons.inj hrest
    exact Option.some.inj (hprev.symm.trans hprevs.2)
  · have hlength := congrArg List.length heq
    simp at hlength

/-- All three are kept. -/
theorem CheckAPAPartitionLinks_backward_iff_keptFirst :
    wp (CheckAPAPartitionLinks APA_SECTOR_MBR) keptFirst fun lba st' => lba = 0 ∧
      ChainIs (apaReadHeader st'.dev.disk) [0x40000, 0x80000, 0xC0000] :=
  (CheckAPAPartitionLinks_backward_iff places_slot keptFirst_backward).mpr ⟨by decide, keptFirst_right⟩

private theorem lostFirst_run :
    ((CheckAPAPartitionLinks APA_SECTOR_MBR).run 6 lostFirst).map
      (fun r => (apaReadHeader r.2.dev.disk 0).map (·.next)) = some (some 0x80000) := by
  decide +kernel

/-- The first partition could be reached backward, and it is lost. -/
theorem CheckAPAPartitionLinks_lostFirst :
    Backward Slot lostFirst.dev [0x80000] 0x100000 [0xC0000, 0x80000, 0x40000] ∧
    ¬ wp (CheckAPAPartitionLinks APA_SECTOR_MBR) lostFirst fun lba st' => lba = 0 ∧
      ChainIs (apaReadHeader st'.dev.disk) [0x40000, 0x80000, 0xC0000] := by
  refine ⟨lostFirst_backward, fun hkept => ?_⟩
  obtain ⟨lba, st', hruns, -, m, hm, hpath, -⟩ := hkept
  obtain ⟨⟨r, st''⟩, hrun, hshown⟩ := Option.map_eq_some_iff.mp lostFirst_run
  obtain ⟨y, hy, hnext⟩ := Option.map_eq_some_iff.mp hshown
  obtain ⟨-, rfl⟩ := hruns.unique ⟨6, hrun⟩
  obtain rfl := Option.some.inj (hm.symm.trans hy)
  have hfirst : 0x40000 = m.next := hpath.head
  rw [hnext] at hfirst
  exact absurd hfirst (by decide)

end HddChecker.Hdck
