import HddChecker.Hdck.Law

/-!
# What a repair keeps of a header

Every function of a repair that works on the drive alone keeps it within a law.
-/

namespace HddChecker.Hdck

open HddChecker Apa Apa.Device Prog

variable {V G : Nat → ApaHeader → Prop} {L : List Nat} {d : Device} {s : Nat}

/-! ### `apa.c` -/

variable {clink length : Nat}

/-- A header is fetched, and the two ways are followed. -/
theorem wlp_getHeader {α : Type} {g : Except Int Nat → Prog Device α} {Q : α → Device → Prop}
    (h : Within V G L d) (hs : Slot s)
    (hok : ∀ x e, (∀ t, e.view t = d.view t) → e.view s = some x → Within V G L e → wlp (g (.ok s)) e Q)
    (herror : ∀ e, Within V G L e → wlp (g (.error (- EIO))) e Q) :
    wlp (ofState (apaCacheGetHeader s) >>= g) d Q := by
  rw [wlp_ofState_bind]
  rcases h.getHeader hs with ⟨x, e, hview, heq, hsame, he⟩ | ⟨e, heq, he⟩
  · rw [heq]
    exact hok x e hsame (by rw [hsame, hview]) he
  · rw [heq]
    exact herror e he

private theorem fixPrevLoop_keeps (hlaw : Law G) (h : Within G G [] d) (hclink : Slot clink)
    (hne : clink ≠ 0) (hlength : Slot length) :
    wlp (fixPrevLoop clink length) d fun r e => Within G G [] e ∧ ∀ c len, r = .ok (c, len) →
      Slot c ∧ c ≠ 0 ∧ Slot len ∧ (len ≠ length → ∃ x, e.view c = some x ∧ x.isFree = true) := by
  refine wlp_loop (fun x e => Within G G [] e ∧ Slot x.1 ∧ x.1 ≠ 0 ∧ Slot x.2 ∧
    (x.2 ≠ length → ∃ y, e.view x.1 = some y ∧ y.isFree = true)) ?_
    ⟨h, hclink, hne, hlength, fun hlen => (hlen rfl).elim⟩
  rintro ⟨c, len⟩ e ⟨he, hc, hc0, hlen, hfree⟩
  simp only at hc hc0 hlen hfree
  simp only [wlp_read_bind]
  split
  · refine wlp_pure ⟨he, ?_⟩
    rintro c' len' ⟨⟩
    exact ⟨hc, hc0, hlen, hfree⟩
  · have hprev := (he.header_aligned hlaw hc).prev
    refine wlp_getHeader he hprev (fun x f hsame hfview hf => ?_) fun f hf => ?_
    · simp only [wlp_read_bind, header_of_view hfview]
      split
      · rw [wlp_modify_bind]
        refine wlp_pure ⟨hf.free hprev, ?_⟩
        rintro c' len' ⟨⟩
        refine ⟨hc, hc0, hlen, fun hlen' => ?_⟩
        obtain ⟨y, hy, hyfree⟩ := hfree hlen'
        exact ⟨y, by rw [view_apaCacheFree, hsame, hy], hyfree⟩
      · rename_i hmerge
        simp only [not_or, not_not] at hmerge
        have hxfree : x.isFree = true := (ApaHeader.isFree_iff x).mpr hmerge.1
        rw [wlp_modify_bind]
        refine wlp_pure ⟨hf.free hc, hprev, hf.ne_zero hlaw hfview (.inr hxfree), ?_, fun _ => ?_⟩
        · exact slot_u32 (slot_add (hlaw.aligned (hf.view _ _ hprev hfview)).length hlen)
        · exact ⟨x, by rw [view_apaCacheFree, hfview], hxfree⟩
    · simp only [wlp_modify_bind]
      refine wlp_pure ⟨hf.free hc, ?_⟩
      rintro c' len' ⟨⟩

theorem apaDeleteFixPrev_keeps (hlaw : Law G) (h : Within G G [] d) (hclink : Slot clink)
    (hne : clink ≠ 0) : wlp (apaDeleteFixPrev clink) d fun r e =>
      Within G G [] e ∧ ∀ c, r = .ok c → Slot c ∧ c ≠ 0 := by
  have hsaved := h.header_aligned hlaw hclink
  unfold apaDeleteFixPrev
  rw [wlp_read_bind]
  refine wlp_bind ((fixPrevLoop_keeps hlaw h hclink hne hsaved.length).mono ?_)
  rintro r e ⟨he, hr⟩
  cases r with
  | error err => exact wlp_pure ⟨he, by rintro c ⟨⟩⟩
  | ok x =>
    obtain ⟨c, len⟩ := x
    obtain ⟨hc, hc0, hlen, hfree⟩ := hr c len rfl
    simp only
    split
    · rename_i hgrown
      obtain ⟨x, hx, hxfree⟩ := hfree hgrown
      refine wlp_getHeader he hsaved.next (fun y f hsame _ hf => ?_) fun f hf => ?_
      · have hfview : f.view c = some x := by rw [hsame, hx]
        have hx' := hlaw.aligned (hf.view c x hc hfview)
        -- the first buffer of the run is empty, so its length may change
        have hlength : Within G G [] (Device.setHeader c (fun h => { h with length := len }) f) :=
          hf.setHeader hc fun z hz _ => by
            rw [hfview, Option.some.injEq] at hz
            subst hz
            exact hlaw.empty hc hc0 ⟨hx'.next, hx'.prev, hx'.start, hlen, hx'.sub⟩ hxfree
        have hnext := hlength.setHeader hc (f := fun h => { h with next := u32 (h.start + len) })
          fun z _ hz => hlaw.next hz (slot_u32 (slot_add (hlaw.aligned hz).start hlen))
        have hstart := (hnext.header_aligned hlaw hc).start
        simp only [wlp_modify_bind, wlp_read_bind, wlp_ofState_bind]
        have hprev := hnext.setHeader hsaved.next
          (f := fun h => { h with prev := (Device.header _ c).start }) fun z _ hz => hlaw.prev hz hstart
        have hflushed := ((hprev.dirtied hsaved.next).dirtied hc).flush hlaw (by simp)
        exact wlp_pure ⟨hflushed.free hsaved.next, by rintro c' ⟨⟩; exact ⟨hc, hc0⟩⟩
      · simp only [wlp_modify_bind]
        exact wlp_pure ⟨hf.free hc, by rintro c' ⟨⟩⟩
    · exact wlp_pure ⟨he, by rintro c' ⟨⟩; exact ⟨hc, hc0⟩⟩

private theorem fixNextLoop_keeps (hlaw : Law G) (h : Within G G [] d) (hclink : Slot clink)
    {start lnext : Nat} (hlnext : Slot lnext) (hlength : Slot length) :
    wlp (fixNextLoop clink start lnext length) d fun r e => Within G G [] e ∧
      ∀ lnext len, r = .ok (lnext, len) → Slot lnext ∧ Slot len := by
  refine wlp_loop (fun x e => Within G G [] e ∧ Slot x.1 ∧ Slot x.2) ?_ ⟨h, hlnext, hlength⟩
  rintro ⟨lnext, len⟩ e ⟨he, hnext, hlen⟩
  simp only at hnext hlen
  simp only
  split
  · refine wlp_pure ⟨he, ?_⟩
    rintro lnext' len' ⟨⟩
    exact ⟨hnext, hlen⟩
  · refine wlp_getHeader he hnext (fun x f _ hview hf => ?_) fun f hf => ?_
    · have hx := hlaw.aligned (hf.view _ x hnext hview)
      simp only [wlp_read_bind, header_of_view hview, wlp_modify_bind]
      split
      · refine wlp_pure ⟨hf.free hnext, ?_⟩
        rintro lnext' len' ⟨⟩
        exact ⟨hnext, hlen⟩
      · exact wlp_pure ⟨hf.free hnext, hx.next, slot_u32 (slot_add hx.length hlen)⟩
    · simp only [wlp_modify_bind]
      refine wlp_pure ⟨hf.free hclink, ?_⟩
      rintro lnext' len' ⟨⟩

/-- `apaMakeEmpty` makes any header empty whose links and length are right. -/
theorem Within.makeEmpty (hlaw : Law G) (h : Within V G L d) (hs : Slot s) (hne : s ≠ 0)
    (hother : ∀ t x, t ≠ s → V t x → G t x) (hself : ∀ x, V s x → Aligned x) :
    Within G G (s :: L) (apaMakeEmpty s d) := by
  refine (h.change hs (fun t x ht hx => hother t x ht hx) fun x _ hx => ?_).dirtied hs
  have haligned := hself x hx
  exact hlaw.empty hs hne
    (aligned_empty haligned.start haligned.next haligned.prev haligned.length _) (emptyHeader_isFree ..)

private theorem apaDeleteFixNext_keeps (hlaw : Law G) (h : Within G G [] d) (hclink : Slot clink)
    (hne : clink ≠ 0) : wlp (apaDeleteFixNext clink) d fun r e =>
      Within G G [] e ∧ ∀ c, r = .ok c → Slot c ∧ c ≠ 0 := by
  have hsaved := h.header_aligned hlaw hclink
  unfold apaDeleteFixNext
  rw [wlp_read_bind]
  refine wlp_bind ((fixNextLoop_keeps hlaw h hclink hsaved.next hsaved.length).mono ?_)
  rintro r e ⟨he, hr⟩
  cases r with
  | error err => exact wlp_pure ⟨he, by rintro c ⟨⟩⟩
  | ok x =>
    obtain ⟨lnext, len⟩ := x
    obtain ⟨hnext, hlen⟩ := hr lnext len rfl
    simp only
    split
    · refine wlp_getHeader he hnext (fun y f _ _ hf => ?_) fun f hf => ?_
      · -- between the two assignments and `apaMakeEmpty` the header may be anything that is aligned
        have hlength : Within (fun t x => if t = clink then Aligned x else G t x) G []
            (Device.setHeader clink (fun h => { h with length := len }) f) :=
          hf.change hclink (fun t x ht hx => by rwa [if_neg ht]) fun x _ hx => by
            rw [if_pos rfl]
            have hx' := hlaw.aligned hx
            exact ⟨hx'.next, hx'.prev, hx'.start, hlen, hx'.sub⟩
        have hlinked := hlength.setHeader hclink (f := fun h => { h with next := lnext })
          fun x _ hx => by
            rw [if_pos rfl] at hx ⊢
            exact ⟨hnext, hx.prev, hx.start, hx.length, hx.sub⟩
        have hempty := hlinked.makeEmpty hlaw hclink hne (fun t x ht hx => by rwa [if_neg ht] at hx)
          fun x hx => by rwa [if_pos rfl] at hx
        have hstart := (hempty.header_aligned hlaw hclink).start
        simp only [wlp_modify_bind, wlp_read_bind, wlp_ofState_bind]
        have hprev := hempty.setHeader hnext
          (f := fun h => { h with prev := (Device.header _ clink).start })
          fun z _ hz => hlaw.prev hz hstart
        have hflushed := (hprev.dirtied hnext).flush hlaw (by simp)
        exact wlp_pure ⟨hflushed.free hnext, by rintro c' ⟨⟩; exact ⟨hclink, hne⟩⟩
      · simp only [wlp_modify_bind]
        exact wlp_pure ⟨hf.free hclink, by rintro c' ⟨⟩⟩
    · exact wlp_pure ⟨he, by rintro c' ⟨⟩; exact ⟨hclink, hne⟩⟩

private theorem fixBoth_keeps (hlaw : Law G) (n : Nat) (h : Within G G [] d) (hclink : Slot clink)
    (hne : clink ≠ 0) : wlp (fixBoth n clink) d fun r e =>
      Within G G [] e ∧ ∀ c, r = some c → Slot c ∧ c ≠ 0 := by
  induction n generalizing d clink with
  | zero => exact wlp_pure ⟨h, by rintro c ⟨⟩; exact ⟨hclink, hne⟩⟩
  | succ n ih =>
    rw [fixBoth]
    refine wlp_bind ((apaDeleteFixPrev_keeps hlaw h hclink hne).mono ?_)
    rintro r e ⟨he, hr⟩
    cases r with
    | error err => exact wlp_pure ⟨he, by rintro c ⟨⟩⟩
    | ok c =>
      obtain ⟨hc, hc0⟩ := hr c rfl
      refine wlp_bind ((apaDeleteFixNext_keeps hlaw he hc hc0).mono ?_)
      rintro r e ⟨he, hr⟩
      cases r with
      | error err => exact wlp_pure ⟨he, by rintro c ⟨⟩⟩
      | ok c =>
        obtain ⟨hc, hc0⟩ := hr c rfl
        exact ih he hc hc0

private theorem cutLoop_keeps (hlaw : Law G) (h : Within G G [] d) (hclink : Slot clink) {mbr : Nat}
    (hmbr : Slot mbr) : wlp (cutLoop clink mbr) d fun r e =>
      Within G G [] e ∧ ∀ c, r = some c → Slot c := by
  refine wlp_loop (fun c e => Within G G [] e ∧ Slot c) ?_ ⟨h, hclink⟩
  rintro c e ⟨he, hc⟩
  simp only [wlp_modify_bind, wlp_read_bind]
  have hfree := he.free hc
  have hprev := (hfree.header_aligned hlaw hc).prev
  refine wlp_getHeader hfree hprev (fun x f _ _ hf => ?_) fun f hf => ?_
  · have hcut := (hf.setHeader hprev (f := fun h => { h with next := 0 })
      fun z _ hz => hlaw.next hz slot_zero).dirtied hprev
    have hstart := (Aligned.start <| Within.header_aligned hlaw hcut hprev)
    have hlast := (hcut.setHeader hmbr (f := fun h => { h with prev := (Device.header _ _).start })
      fun z _ hz => hlaw.prev hz hstart).dirtied hmbr
    have hflushed := hlast.flush hlaw (by simp)
    simp only [wlp_modify_bind, wlp_read_bind, wlp_ofState_bind]
    split
    · exact wlp_pure ⟨hflushed, hprev⟩
    · exact wlp_pure ⟨hflushed, by rintro c' ⟨⟩; exact hprev⟩
  · exact wlp_pure ⟨hf, by rintro c' ⟨⟩⟩

theorem apaDelete_keeps (hlaw : Law G) (h : Within G G [] d) (hclink : Slot clink) :
    wlp (apaDelete clink) d fun _ e => Within G G [] e := by
  unfold apaDelete
  rw [wlp_read_bind]
  split
  · simp only [wlp_modify_bind]
    exact wlp_pure (h.free hclink)
  · rename_i hstart
    have hne : clink ≠ 0 := by
      rintro rfl
      cases hview : d.view 0 with
      | some x =>
        rw [header_of_view hview] at hstart
        exact hstart (hlaw.mbr (h.view 0 x slot_zero hview)).1
      | none =>
        rw [Device.header, hview] at hstart
        exact hstart rfl
    split
    · refine wlp_getHeader h slot_zero (fun x e _ _ he => ?_) fun e he => ?_
      · refine wlp_bind ((cutLoop_keeps hlaw he hclink slot_zero).mono ?_)
        rintro r f ⟨hf, hr⟩
        cases r with
        | none => exact wlp_pure hf
        | some c =>
          simp only [wlp_modify_bind]
          exact wlp_pure ((hf.free slot_zero).free (hr c rfl))
      · simp only [wlp_modify_bind]
        exact wlp_pure (he.free hclink)
    · refine wlp_bind ((fixBoth_keeps hlaw 2 h hclink hne).mono ?_)
      rintro r e ⟨he, hr⟩
      cases r with
      | none => exact wlp_pure he
      | some c =>
        obtain ⟨hc, hc0⟩ := hr c rfl
        simp only [wlp_read_bind]
        split
        · have hempty := he.makeEmpty hlaw hc hc0 (fun _ _ _ hx => hx) fun x hx => hlaw.aligned hx
          have hflushed := hempty.flush hlaw (by simp)
          simp only [wlp_modify_bind, wlp_ofState_bind]
          exact wlp_pure (hflushed.free hc)
        · simp only [wlp_modify_bind]
          exact wlp_pure (he.free hc)

/-! ### `hdck.c`, on the drive alone -/

theorem DeleteFreePartitions_keeps (hlaw : Law G) (h : Within G G [] d) (hclink : Slot clink) :
    wlp (DeleteFreePartitions clink) d fun _ e => Within G G [] e := by
  unfold DeleteFreePartitions
  rw [wlp_read_bind]
  refine wlp_loop (fun sector e => Within G G [] e ∧ Slot sector) ?_
    ⟨h, (h.header_aligned hlaw hclink).next⟩
  rintro sector e ⟨he, hsector⟩
  simp only
  split
  · exact wlp_pure he
  · refine wlp_getHeader he hsector (fun x f _ hview hf => ?_) fun f hf => wlp_pure hf
    simp only [wlp_read_bind, header_of_view hview]
    split
    · rename_i hfree
      have hne := hf.ne_zero hlaw hview (.inr ((ApaHeader.isFree_iff x).mpr hfree))
      refine wlp_bind ((apaDeleteFixPrev_keeps hlaw hf hsector hne).mono ?_)
      rintro r g ⟨hg, hr⟩
      cases r with
      | error err => exact wlp_pure hg
      | ok c =>
        have hc := (hr c rfl).1
        simp only [wlp_read_bind, wlp_modify_bind]
        exact wlp_pure ⟨hg.free hc, (hg.header_aligned hlaw hc).next⟩
    · refine wlp_bind (wlp_pure ?_)
      simp only [wlp_read_bind, wlp_modify_bind]
      exact wlp_pure ⟨hf.free hsector, (hf.header_aligned hlaw hsector).next⟩

theorem ReadPartitionMap_keeps (hlaw : Law G) (h : Within G G [] d) (hclink : Slot clink) :
    wlp (ReadPartitionMap clink) d fun r e =>
      Within G G [] e ∧ (∀ s ∈ r.2.1, Slot s) ∧ ∀ s ∈ r.2.2, Slot s := by
  unfold ReadPartitionMap
  rw [wlp_read_bind]
  refine wlp_loop (fun x e => Within G G [] e ∧ Slot x.1 ∧ (∀ s ∈ x.2.1, Slot s) ∧ ∀ s ∈ x.2.2, Slot s) ?_
    ⟨h, (h.header_aligned hlaw hclink).next, by simp, by simp⟩
  rintro ⟨sector, MainMap, SubMap⟩ e ⟨he, hsector, hmain, hsub⟩
  simp only at hsector hmain hsub
  simp only
  split
  · exact wlp_pure ⟨he, hmain, hsub⟩
  · refine wlp_getHeader he hsector (fun x f _ hview hf => ?_) fun f hf => wlp_pure ⟨hf, hmain, hsub⟩
    have hx := hlaw.aligned (hf.view sector x hsector hview)
    have hmore : ∀ L : List Nat, (∀ s ∈ L, Slot s) → ∀ s ∈ L ++ [x.start], Slot s := by
      intro L hL s hs
      rcases List.mem_append.mp hs with hs | hs
      · exact hL s hs
      · rw [List.mem_singleton.mp hs]
        exact hx.start
    simp only [wlp_read_bind, header_of_view hview, wlp_modify_bind]
    split
    · exact wlp_pure ⟨hf.free hsector, hx.next, hmain, hsub⟩
    · split
      · exact wlp_pure ⟨hf.free hsector, hx.next, hmain, hmore _ hsub⟩
      · exact wlp_pure ⟨hf.free hsector, hx.next, hmore _ hmain, hsub⟩

private theorem checkSubs_keeps (hlaw : Law G) (h : Within G G [] d) (hclink : Slot clink) (SubMap : List Nat)
    (result : Int) : wlp (checkSubs clink SubMap result) d fun _ e => Within G G [] e := by
  refine wlp_loop (fun _ e => Within G G [] e) ?_ h
  rintro ⟨sub, missing, result⟩ e he
  have haligned := he.header_aligned hlaw hclink
  simp only [wlp_read_bind]
  split
  · exact wlp_pure he
  · rename_i hmore
    split
    · split
      · exact wlp_pure he
      · have hcut := he.setHeader hclink (f := fun h => { h with nsub := sub }) fun x hx hG => by
          rw [header_of_view hx] at hmore
          exact hlaw.nsub hG (by omega)
        have hflushed := (hcut.dirtied hclink).flush hlaw (by simp)
        simp only [wlp_modify_bind, wlp_ofState_bind]
        exact wlp_pure hflushed
    · split
      · have hsub := (haligned.sub sub).1
        refine wlp_getHeader he hsub (fun x f _ _ hf => ?_) fun f hf => wlp_pure hf
        refine wlp_bind ((apaDelete_keeps hlaw hf hsub).mono ?_)
        exact fun r g hg => wlp_pure hg
      · exact wlp_pure he

private theorem checkMains_keeps (hlaw : Law G) (SubMap : List Nat) {MainMap : List Nat}
    (h : Within G G [] d) (hmain : ∀ s ∈ MainMap, Slot s) :
    wlp (checkMains SubMap MainMap) d fun _ e => Within G G [] e := by
  induction MainMap generalizing d with
  | nil => exact wlp_pure h
  | cons main rest ih =>
    have hs := hmain main List.mem_cons_self
    rw [checkMains]
    refine wlp_getHeader h hs (fun x e _ _ he => ?_) fun e he => wlp_pure he
    refine wlp_bind ((checkSubs_keeps hlaw he hs SubMap 0).mono ?_)
    intro r f hf
    simp only [wlp_modify_bind]
    split
    · exact wlp_pure (hf.free hs)
    · exact ih (hf.free hs) fun s hs' => hmain s (List.mem_cons_of_mem _ hs')

private theorem checkSubPartitions_keeps (hlaw : Law G) {MainMap SubMap : List Nat} (h : Within G G [] d)
    (hmain : ∀ s ∈ MainMap, Slot s) (hsub : ∀ s ∈ SubMap, Slot s) :
    wlp (checkSubPartitions MainMap SubMap) d fun _ e => Within G G [] e := by
  induction SubMap generalizing d with
  | nil => exact wlp_pure h
  | cons start rest ih =>
    have hs := hsub start List.mem_cons_self
    have hrest := fun (e : Device) (he : Within G G [] e) =>
      ih he fun s hs' => hsub s (List.mem_cons_of_mem _ hs')
    rw [checkSubPartitions]
    refine wlp_getHeader h hs (fun x e _ _ he => ?_) fun e he => wlp_pure he
    simp only [wlp_read_bind]
    split
    · refine wlp_bind ((apaDelete_keeps hlaw he hs).mono fun r f hf => ?_)
      split
      · exact wlp_pure hf
      · exact hrest f hf
    · rename_i hlisted
      rw [not_not] at hlisted
      have hm := hmain _ hlisted
      refine wlp_getHeader he hm (fun y f _ _ hf => ?_) fun f hf => ?_
      · simp only [wlp_read_bind]
        split
        · refine wlp_bind ((apaDelete_keeps hlaw hf hs).mono fun r g hg => ?_)
          simp only [wlp_modify_bind]
          exact hrest _ (hg.free hm)
        · simp only [wlp_modify_bind]
          exact hrest _ ((hf.free hm).free hs)
      · simp only [wlp_modify_bind]
        exact wlp_pure (hf.free hs)

theorem CheckPartitions_keeps (hlaw : Law G) (h : Within G G [] d) (hclink : Slot clink) :
    wlp (CheckPartitions clink) d fun _ e => Within G G [] e := by
  unfold CheckPartitions
  refine wlp_bind ((ReadPartitionMap_keeps hlaw h hclink).mono ?_)
  rintro ⟨result, MainMap, SubMap⟩ e ⟨he, hmain, -⟩
  simp only
  split
  · exact wlp_pure he
  · refine wlp_bind ((checkMains_keeps hlaw SubMap he hmain).mono ?_)
    intro r f hf
    split
    · exact wlp_pure hf
    · refine wlp_bind ((ReadPartitionMap_keeps hlaw hf hclink).mono ?_)
      rintro ⟨result, MainMap, SubMap⟩ g ⟨hg, hmain, hsub⟩
      simp only
      split
      · exact wlp_pure hg
      · exact checkSubPartitions_keeps hlaw hg hmain hsub

theorem linkEmpty_keeps (hlaw : Law G) (h : Within G G [] d) (hclink : Slot clink) {lba : Nat}
    (hlba : Slot lba) (hne : lba ≠ 0) (hlength : Slot length) :
    wlp (linkEmpty clink lba length) d fun _ e => Within G G [] e := by
  have hstart := (h.header_aligned hlaw hclink).start
  have hzero : G lba ApaHeader.zero := hlaw.empty hlba hne aligned_zero rfl
  have hnext := slot_u32 (slot_add hlba hlength)
  have hbuffer := h.getHeaderWrite hlba hzero
  have hempty := (hbuffer.setHeader hlba
    (f := fun _ => emptyHeader lba (u32 (lba + length)) (d.header clink).start length
      (apaCacheGetHeaderWrite lba d).apaGetTime)
    fun _ _ _ => hlaw.empty hlba hne (aligned_empty hlba hnext hstart hlength _)
      (emptyHeader_isFree ..)).dirtied hlba
  have hlinked := (hempty.setHeader hclink (f := fun h => { h with next := lba })
    fun _ _ hG => hlaw.next hG hlba).dirtied hclink
  unfold linkEmpty
  simp only [wlp_read_bind, wlp_modify_bind, wlp_ofState_bind]
  exact wlp_modify ((hlinked.flush hlaw (by simp)).free hclink)

/-- A power of two that is not less than the length of the smallest partition. -/
theorem slot_pow {i : Nat} (hi : 18 ≤ i) : Slot (2 ^ i) := Nat.pow_dvd_pow 2 hi

/-- The highest bit of a length is a place, like the length. -/
private theorem slot_log2 (hlength : Slot length) (hne : length ≠ 0) : Slot (2 ^ Nat.log2 length) := by
  apply slot_pow
  rw [Nat.le_log2 hne]
  exact Nat.le_of_dvd (by omega) hlength

private theorem alignedLength_slot {lba fuel n : Nat} (hlength : ∃ i, length = 2 ^ i)
    (h : alignedLength lba fuel length = some n) : Slot n := by
  induction fuel generalizing length with
  | zero => cases h
  | succ fuel ih =>
    obtain ⟨i, rfl⟩ := hlength
    rw [alignedLength] at h
    split at h
    · rename_i hlarge
      have hi : 18 ≤ i := by
        by_contra hlt
        have := Nat.pow_le_pow_right (show 0 < 2 by omega) (show i ≤ 17 by omega)
        omega
      split at h
      · cases h
        exact slot_pow hi
      · refine ih ⟨i - 1, ?_⟩ h
        obtain ⟨j, rfl⟩ := Nat.exists_eq_add_of_le hi
        rw [show 18 + j = (17 + j) + 1 by omega, Nat.pow_succ, Nat.mul_div_cancel _ (by omega)]
        rfl
    · cases h

theorem markLoop_keeps (hlaw : Law G) (h : Within G G [] d) (hclink : Slot clink) {lba : Nat}
    (hlba : Slot lba) (hne : lba ≠ 0) (hlength : Slot length) :
    wlp (markLoop lba clink length) d fun r e => Within G G [] e ∧ ∀ c, r = some c → Slot c := by
  refine wlp_loop (fun x e => Within G G [] e ∧ Slot x.1 ∧ Slot x.2) ?_ ⟨h, hclink, hlength⟩
  rintro ⟨c, len⟩ e ⟨he, hc, hlen⟩
  simp only at hc hlen
  simp only
  split
  · exact wlp_pure ⟨he, by rintro c' ⟨⟩; exact hc⟩
  · rename_i hzero
    have hnew := slot_log2 hlen hzero
    split
    · unfold apaCreateAlignedEmptyPartition
      split
      · exact wlp_bind (wlp_pure (wlp_pure ⟨he, by rintro c' ⟨⟩⟩))
      · rename_i n hn
        have hhalf : ∃ i, 2 ^ Nat.log2 len / 2 = 2 ^ i := by
          obtain ⟨j, hj⟩ := Nat.exists_eq_add_of_le (Nat.le_of_dvd (Nat.two_pow_pos _) hnew)
          refine ⟨Nat.log2 len - 1, ?_⟩
          have hpos : 0 < Nat.log2 len := by
            by_contra hlog
            rw [show Nat.log2 len = 0 by omega] at hj
            omega
          rw [show Nat.log2 len = (Nat.log2 len - 1) + 1 by omega, Nat.pow_succ,
            Nat.mul_div_cancel _ (by omega)]
          rfl
        refine wlp_bind (wlp_bind ((linkEmpty_keeps hlaw he hc hlba hne
          (alignedLength_slot hhalf hn)).mono fun _ f hf => wlp_pure ?_))
        simp only [wlp_read_bind]
        exact wlp_pure ⟨hf, hlba, slot_sub hlen (hf.header_aligned hlaw hlba).length⟩
    · refine wlp_bind ((linkEmpty_keeps hlaw he hc hlba hne hnew).mono fun _ f hf => ?_)
      simp only [wlp_read_bind]
      exact wlp_pure ⟨hf, hc, slot_sub hlen (hf.header_aligned hlaw hc).length⟩

end HddChecker.Hdck
