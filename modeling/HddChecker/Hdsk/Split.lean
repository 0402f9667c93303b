import HddChecker.Hdsk.Failure

/-!
# Splitting an empty partition

`SplitEmptyPartition` halves an empty partition until it has the wanted length. Each round links the upper half behind it, before the header that followed, which is the MBR at the end of the table. The rounds need that one header and no other.
-/

namespace HddChecker.Hdsk

open HddChecker Apa Apa.Device Prog State

variable {P A B : List ApaHeader} {x m : ApaHeader} {d e : Device} {D : List Nat}
  {V W v : Nat → Option ApaHeader} {s : State}

/-- The headers `V` are the table `P`, and the cache and the disk show them as far as they can be read. -/
structure Partly (V : Nat → Option ApaHeader) (P : List ApaHeader) (d : Device) : Prop where
  sound : d.Sound Slot
  clean : ∀ s, d.isDirty s = false
  ring : headerLinks.Ring V P
  tiles : Tiles 0 P
  seen : ∀ y ∈ P, ∀ u, d.view y.start = some u → V y.start = some u
  stored : ∀ y ∈ P, ∀ u, apaReadHeader d.disk y.start = some u → V y.start = some u

/-- The headers once the partition at `p` has been halved to `l` sectors and the half at `mid` stands between it and `n`. -/
def splitView (p mid n l : Nat) (created : Fin 2 → Nat) (V : Nat → Option ApaHeader) (t : Nat) :
    Option ApaHeader :=
  if t = mid then some (emptyHeader mid n p l created)
  else if t = n then (V t).map fun h => { h with prev := mid }
  else if t = p then (V t).map fun h => { h with length := l, next := mid }
  else V t

section View

variable {p mid n l : Nat} {created : Fin 2 → Nat}

theorem splitView_mid : splitView p mid n l created V mid = some (emptyHeader mid n p l created) :=
  if_pos rfl

private theorem splitView_next (hmid : n ≠ mid) :
    splitView p mid n l created V n = (V n).map fun h => { h with prev := mid } := by
  rw [splitView, if_neg hmid, if_pos rfl]

private theorem splitView_first (hmid : p ≠ mid) (hnext : p ≠ n) :
    splitView p mid n l created V p = (V p).map fun h => { h with length := l, next := mid } := by
  rw [splitView, if_neg hmid, if_neg hnext, if_pos rfl]

theorem splitView_other {t : Nat} (hmid : t ≠ mid) (hnext : t ≠ n) (hfirst : t ≠ p) :
    splitView p mid n l created V t = V t := by
  rw [splitView, if_neg hmid, if_neg hnext, if_neg hfirst]

private theorem splitView_seen {t : Nat} (h : ∀ u, W t = some u → V t = some u) (u : ApaHeader)
    (hu : splitView p mid n l created W t = some u) : splitView p mid n l created V t = some u := by
  unfold splitView at hu ⊢
  split
  · rename_i hmid
    rwa [if_pos hmid] at hu
  · rename_i hmid
    rw [if_neg hmid] at hu
    cases hw : W t with
    | none => simp [hw] at hu
    | some u' =>
      rw [h u' hw]
      rwa [hw] at hu

end View

/-! ### The table after a round -/

/-- The lower half of the empty partition `x`. -/
def lowerHalf (x : ApaHeader) (l : Nat) : ApaHeader := { x with length := l }

/-- The upper half, as `apaRemovePartition` makes it. -/
def upperHalf (x : ApaHeader) (l : Nat) (created : Fin 2 → Nat) : ApaHeader :=
  emptyHeader (x.start + l) 0 0 l created

section Table

variable {l : Nat} (hlength : x.length = 2 * l) (hlarge : 0x40000 ≤ l)

include hlength hlarge

theorem Part.halves (h : Part x) (hpow : l.isPowerOfTwo) (created : Fin 2 → Nat) :
    Part (lowerHalf x l) ∧ Part (upperHalf x l created) := by
  have hdvd : l ∣ x.start := (Dvd.intro_left 2 (by rw [hlength])).trans h.dyadic.dvd
  have htop := h.top
  refine ⟨⟨h.magic, ⟨hpow, hdvd⟩, hlarge, ?_, h.mbr, h.blank⟩, Part.empty ⟨hpow, ?_⟩ hlarge ?_ ?_ created⟩
  · change x.start + l ≤ 2 ^ 32
    omega
  · exact Nat.dvd_add hdvd (Nat.dvd_refl l)
  · omega
  · omega

theorem Tiles.halves (h : Tiles 0 (m :: (A ++ x :: B))) (hpow : l.isPowerOfTwo)
    (created : Fin 2 → Nat) :
    Tiles 0 (m :: (A ++ lowerHalf x l :: upperHalf x l created :: B)) := by
  rw [← List.cons_append, tiles_append] at h ⊢
  obtain ⟨hA, hstart, hpart, hB⟩ := h
  obtain ⟨hlower, hupper⟩ := Part.halves hlength hlarge hpart hpow created
  refine ⟨hA, hstart, hlower, ?_, hupper, ?_⟩
  · change x.start + l = _
    rw [hstart]
    rfl
  · change Tiles (0 + total (m :: A) + l + l) B
    rwa [Nat.add_assoc _ l l, ← Nat.two_mul, ← hlength]

end Table

/-- The places a round touches are apart. -/
theorem places_apart {l : Nat} (htiles : Tiles 0 (m :: (A ++ x :: B))) (hlength : x.length = 2 * l)
    (hlarge : 0x40000 ≤ l) :
    x.start ≠ headerLinks.head B 0 ∧ headerLinks.head B 0 ≠ x.start + l ∧
      ∀ y ∈ m :: (A ++ B), y.start ≠ x.start + l ∧ y.start ≠ x.start := by
  have hxmem : x ∈ m :: (A ++ x :: B) := by simp
  have hsub : ∀ y ∈ m :: (A ++ B), y ∈ m :: (A ++ x :: B) := by
    intro y hy
    simp only [List.mem_cons, List.mem_append] at hy ⊢
    tauto
  have hinside : ∀ y ∈ m :: (A ++ x :: B), x.start + l ≠ y.start := fun y hy =>
    (htiles.not_header hxmem hy (by omega) (by omega)).1
  have hnodup : x ∉ m :: (A ++ B) := by
    have := htiles.nodup
    rw [← List.cons_append, List.nodup_middle, List.nodup_cons] at this
    simpa using this.1
  have hother : ∀ y ∈ m :: (A ++ B), y.start ≠ x.start := by
    intro y hy heq
    rw [htiles.eq_of_start (hsub y hy) hxmem heq] at hy
    exact hnodup hy
  have hfirst : m.start = 0 := htiles.1
  refine ⟨?_, ?_, fun y hy => ⟨(hinside y (hsub y hy)).symm, hother y hy⟩⟩
  · cases B with
    | nil =>
      rw [headerLinks.head_nil, ← hfirst]
      exact (hother m (by simp)).symm
    | cons b B => exact (hother b (by simp)).symm
  · cases B with
    | nil =>
      rw [headerLinks.head_nil]
      omega
    | cons b B => exact (hinside b (by simp)).symm

private theorem ring_split {l : Nat} (hring : headerLinks.Ring V (m :: (A ++ x :: B)))
    (htiles : Tiles 0 (m :: (A ++ x :: B))) (hlength : x.length = 2 * l) (hlarge : 0x40000 ≤ l)
    (created : Fin 2 → Nat) :
    headerLinks.Ring (splitView x.start (x.start + l) (headerLinks.head B 0) l created V)
      (m :: (A ++ lowerHalf x l :: upperHalf x l created :: B)) := by
  obtain ⟨hnext, hmid, hother⟩ := places_apart htiles hlength hlarge
  have hfirst : x.start ≠ x.start + l := by omega
  obtain ⟨u, hu, hbody, hprev, hunext⟩ :=
    Linked.Chain.node (A := m :: A) (show headerLinks.Chain V _ ((m :: A) ++ x :: B) 0 from hring)
  have hu : V x.start = some u := hu
  have hbody : u.body = x := hbody
  have hsplice := hring.splice (A := A) (X := [x])
    (Y := [lowerHalf x l, upperHalf x l created]) (B := B)
    (W := splitView x.start (x.start + l) (headerLinks.head B 0) l created V) htiles.keys
    (by simp) (by simp) rfl ?_ ?_ ?_
  · exact hsplice
  · refine ⟨⟨{ u with length := l, next := x.start + l }, ?_, ?_, ?_, rfl⟩, ?_, trivial⟩
    · exact (splitView_first hfirst hnext).trans (by rw [hu]; rfl)
    · change ({ u with length := l, next := x.start + l } : ApaHeader).body = lowerHalf x l
      rw [lowerHalf, ← hbody]
      rfl
    · exact hprev
    · exact ⟨_, splitView_mid, rfl, rfl, rfl⟩
  · intro w hw
    exact ⟨{ w with prev := x.start + l }, (splitView_next hmid).trans (by rw [hw]; rfl), rfl, rfl, rfl⟩
  · intro y hy hne
    exact splitView_other (hother y hy).1 hne (hother y hy).2

/-! ### A round -/

private theorem shows_apaRemovePartition {mid n p l : Nat} (hs : Shows d v D e) (hmid : Slot mid) :
    ∃ created, Shows d (fun t => if t = mid then some (emptyHeader mid n p l created) else v t)
      (mid :: D) (apaRemovePartition mid n p l e) := by
  refine ⟨(apaCacheGetHeaderWrite mid e).apaGetTime, ?_, ?_, ?_, fun t => ?_, fun t => ?_⟩
  · rw [apaRemovePartition, Device.setDirty, store_disk, Device.setHeader, store_disk,
      apaCacheGetHeaderWrite_disk, hs.disk]
  · rw [apaRemovePartition, Device.setDirty, store_ops, Device.setHeader, store_ops,
      apaCacheGetHeaderWrite_ops, hs.ops]
  · exact ((hs.sound.apaCacheGetHeaderWrite hmid).setHeader hmid _).setDirty hmid
  · rw [apaRemovePartition, view_setDirty, view_setHeader]
    split
    · rename_i ht
      obtain ⟨u, hu⟩ := Option.isSome_iff_exists.mp
        (view_apaCacheGetHeaderWrite_self (d := e) (s := mid))
      rw [ht, hu]
      rfl
    · rename_i ht
      rw [view_apaCacheGetHeaderWrite ht, hs.view]
  · rw [apaRemovePartition, isDirty_setDirty (by simpa using view_apaCacheGetHeaderWrite_self),
      isDirty_setHeader, isDirty_apaCacheGetHeaderWrite]
    simp [hs.dirty]

private theorem emptyHeader_start (start next prev length : Nat) (created : Fin 2 → Nat) :
    (emptyHeader start next prev length created).start = start := rfl

private theorem shows_split {p mid n l : Nat} {u : ApaHeader} (hs : Shows d d.view [] e) (hp : Slot p)
    (hmid : Slot mid) (hn : Slot n) (hpmid : p ≠ mid) (hnmid : n ≠ mid) (hpn : p ≠ n)
    (hu : d.view p = some u) (hlength : u.length / 2 = l) (hsome : (d.view n).isSome) :
    ∃ created, (apaRemovePartition mid n p l
        (setHeader p (fun h => { h with length := h.length / 2 }) e)).header mid =
          emptyHeader mid n p l created ∧
      Shows d (splitView p mid n l created d.view) [n, p, mid]
        (setDirty n (setHeader n (fun h => { h with prev := mid })
          (setDirty p (setHeader p (fun h => { h with next := mid })
            (apaRemovePartition mid n p l
              (setHeader p (fun h => { h with length := h.length / 2 }) e)))))) := by
  obtain ⟨created, hs₂⟩ := shows_apaRemovePartition (n := n) (p := p) (l := l)
    (hs.setHeader hp fun h => { h with length := h.length / 2 }) hmid
  have hs₃ := (hs₂.setHeader hp fun h => { h with next := mid }).setDirty hp (by simp [hpmid, hu])
  have hs₄ := (hs₃.setHeader hn fun h => { h with prev := mid }).setDirty hn
    (by simpa [hnmid, hpn.symm] using hsome)
  refine ⟨created, by rw [hs₂.header, if_pos rfl, Option.getD_some], hs₄.congr fun t => ?_⟩
  by_cases htm : t = mid
  · subst htm
    simp [splitView, hpmid.symm, hnmid.symm]
  · by_cases htn : t = n
    · subst htn
      simp [splitView, htm, hpn.symm]
    · by_cases htp : t = p
      · subst htp
        simp [splitView, htm, htn, hu, hlength]
      · simp [splitView, htm, htn, htp]

theorem splitView_some {p mid n l t : Nat} {created : Fin 2 → Nat} (h : (V t).isSome) :
    (splitView p mid n l created V t).isSome := by
  unfold splitView
  repeat' split
  all_goals simp [h]

theorem slot_next (h : Tiles 0 (m :: (A ++ x :: B))) : Slot (headerLinks.head B 0) := by
  cases B with
  | nil => exact Nat.dvd_zero _
  | cons b B => exact (h.part (show b ∈ m :: (A ++ x :: b :: B) by simp)).slot

/-- The table once the halves are written. -/
private theorem partly_flushed {l : Nat} {created : Fin 2 → Nat} (h : Partly V (m :: (A ++ x :: B)) d)
    (hlength : x.length = 2 * l) (hlarge : 0x40000 ≤ l) (hpow : l.isPowerOfTwo)
    (hx : (d.view x.start).isSome) (hnext : (d.view (headerLinks.head B 0)).isSome)
    (hs : Shows d (splitView x.start (x.start + l) (headerLinks.head B 0) l created d.view)
      [headerLinks.head B 0, x.start, x.start + l] e) :
    ∃ created V', Partly V' (m :: (A ++ lowerHalf x l :: upperHalf x l created :: B))
        (apaCacheFree (headerLinks.head B 0) (apaCacheFree (x.start + l) e.apaCacheFlushAllDirty.2)) ∧
      ((apaCacheFree (headerLinks.head B 0)
        (apaCacheFree (x.start + l) e.apaCacheFlushAllDirty.2)).view x.start).isSome ∧
      ((apaCacheFree (headerLinks.head B 0)
        (apaCacheFree (x.start + l) e.apaCacheFlushAllDirty.2)).view (x.start + l)).isSome := by
  have htiles := h.tiles
  have hxpart : Part x := htiles.part (by simp)
  have hmidslot : Slot (x.start + l) :=
    (Part.halves hlength hlarge hxpart hpow (fun _ => 0)).2.slot
  have hnslot := slot_next htiles
  obtain ⟨-, -, hother⟩ := places_apart htiles hlength hlarge
  have hflushed := (hs.sound.flushable places_slot (fun s => (hs.dirty s).mp) (by simp)).flushed
    places_slot hs.sound
  have hsame : Same Slot e.apaCacheFlushAllDirty.2 (apaCacheFree (headerLinks.head B 0)
      (apaCacheFree (x.start + l) e.apaCacheFlushAllDirty.2)) :=
    (same_apaCacheFree hmidslot).trans (same_apaCacheFree hnslot)
  generalize apaCacheFree (headerLinks.head B 0)
    (apaCacheFree (x.start + l) e.apaCacheFlushAllDirty.2) = e' at hsame ⊢
  set E := [headerLinks.head B 0, x.start, x.start + l] with hlist
  have hview : ∀ t, Slot t → e'.view t =
      if t ∈ E then (splitView x.start (x.start + l) (headerLinks.head B 0) l created d.view t).map
        ApaHeader.sealed
      else splitView x.start (x.start + l) (headerLinks.head B 0) l created d.view t := by
    intro t ht
    rw [hsame.view, hflushed.view t ht, hs.view]
    simp only [hs.dirty]
  have hsome : ∀ t, Slot t →
      (splitView x.start (x.start + l) (headerLinks.head B 0) l created d.view t).isSome →
        (e'.view t).isSome := by
    intro t ht hsome
    rw [hview t ht]
    split
    · simpa using hsome
    · exact hsome
  have hsplit := ring_split h.ring htiles hlength hlarge created
  have hnew := Tiles.halves hlength hlarge htiles hpow created
  have hold : ∀ y ∈ m :: (A ++ lowerHalf x l :: upperHalf x l created :: B), y.start ≠ x.start + l →
      ∃ z ∈ m :: (A ++ x :: B), z.start = y.start := by
    intro y hy hmid
    simp only [List.mem_cons, List.mem_append] at hy
    rcases hy with rfl | hy | rfl | rfl | hy
    · exact ⟨y, by simp, rfl⟩
    · exact ⟨y, by simp [hy], rfl⟩
    · exact ⟨x, by simp, rfl⟩
    · exact (hmid rfl).elim
    · exact ⟨y, by simp [hy], rfl⟩
  have hseen : ∀ y ∈ m :: (A ++ lowerHalf x l :: upperHalf x l created :: B), ∀ u,
      splitView x.start (x.start + l) (headerLinks.head B 0) l created d.view y.start = some u →
        splitView x.start (x.start + l) (headerLinks.head B 0) l created V y.start = some u := by
    intro y hy
    by_cases hmid : y.start = x.start + l
    · rw [hmid, splitView_mid, splitView_mid]
      exact fun _ hu => hu
    · obtain ⟨z, hz, hstart⟩ := hold y hy hmid
      rw [← hstart]
      exact splitView_seen (h.seen z hz)
  refine ⟨created, _, ⟨hsame.sound hflushed.sound, fun t => ?_, ring_sealed (D := E) hsplit, hnew,
    fun y hy w hw => ?_, fun y hy w hw => ?_⟩, ?_, ?_⟩
  · rw [hsame.isDirty, hflushed.clean]
  · rw [hview y.start (hnew.part hy).slot] at hw
    split at hw
    · rename_i hE
      obtain ⟨u, hu, rfl⟩ := Option.map_eq_some_iff.mp hw
      rw [if_pos hE, hseen y hy u hu]
      rfl
    · rename_i hE
      rw [if_neg hE]
      exact hseen y hy w hw
  · rw [hsame.disk] at hw
    by_cases hE : y.start ∈ E
    · have hshown : (splitView x.start (x.start + l) (headerLinks.head B 0) l created d.view
          y.start).isSome := by
        simp only [hlist, List.mem_cons, List.not_mem_nil, or_false] at hE
        rcases hE with hE | hE | hE
        · rw [hE]
          exact splitView_some hnext
        · rw [hE]
          exact splitView_some hx
        · rw [hE, splitView_mid]
          rfl
      obtain ⟨u, hu⟩ := Option.isSome_iff_exists.mp hshown
      obtain ⟨u', hu', hbody⟩ := Linked.Chain.mem hsplit hy
      obtain rfl : u' = u := Option.some.inj (hu'.symm.trans (hseen y hy u hu))
      have hheld := hflushed.held y.start u' ((hs.dirty _).mpr hE) ((hs.view _).trans hu)
      rw [apaReadHeader_of_sectors hheld.1 hheld.2 (accepted_sealed (hnew.part hy) hbody)] at hw
      rw [if_pos hE, hseen y hy u' hu]
      exact hw
    · have hnot : y.start ≠ x.start + l ∧ y.start ≠ headerLinks.head B 0 ∧ y.start ≠ x.start := by
        simp only [hlist, List.mem_cons, List.not_mem_nil, or_false, not_or] at hE
        exact ⟨hE.2.2, hE.1, hE.2.1⟩
      obtain ⟨z, hz, hstart⟩ := hold y hy hnot.1
      have hkeep : ∀ a, a = y.start ∨ a = y.start + 1 →
          e.apaCacheFlushAllDirty.2.disk a = d.disk a := by
        intro a ha
        rw [hflushed.frame a ((hnew.part hy).outside ha) fun t ht => ?_, hs.disk]
        have htE := (hs.dirty t).mp ht
        have htslot : Slot t := by
          simp only [hlist, List.mem_cons, List.not_mem_nil, or_false] at htE
          rcases htE with rfl | rfl | rfl
          · exact hnslot
          · exact hxpart.slot
          · exact hmidslot
        have hty : t ≠ y.start := fun heq => hE (heq ▸ htE)
        have hlt := places_slot.apart _ _ htslot (hnew.part hy).slot
        have hgt := places_slot.apart _ _ (hnew.part hy).slot htslot
        omega
      rw [apaReadHeader_congr (hkeep _ (.inl rfl)) (hkeep _ (.inr rfl)), ← hstart] at hw
      rw [if_neg hE, splitView_other hnot.1 hnot.2.1 hnot.2.2, ← hstart]
      exact h.stored z hz w hw
  · exact hsome _ hxpart.slot (splitView_some hx)
  · exact hsome _ hmidslot (by rw [splitView_mid]; rfl)

/-- The body of the loop of `SplitEmptyPartition`. -/
def splitRound (partition length : Nat) (result : Int) : Prog State (Int ⊕ Int) := do
  let header ← headerOf partition
  if header.length = length then return .inr result
  else
    match ← devOp (Device.apaCacheGetHeader header.next) with
    | .error err => return .inl err
    | .ok empty =>
      devDo (Device.setHeader partition fun h => { h with length := h.length / 2 })
      let header ← headerOf partition
      let clink := u32 (header.start + header.length)
      devDo (Device.apaRemovePartition clink header.next header.start header.length)
      let start := (← headerOf clink).start
      devDo (Device.setHeader partition fun h => { h with next := start })
      devDo (Device.setDirty partition)
      devDo (Device.setHeader empty fun h => { h with prev := start })
      devDo (Device.setDirty empty)
      let _ ← devOp Device.apaCacheFlushAllDirty
      devDo (Device.apaCacheFree clink)
      devDo (Device.apaCacheFree empty)
      return .inl 0

theorem SplitEmptyPartition_eq (partition length : Nat) : SplitEmptyPartition partition length = (do
    let result ← read fun s => s.uninit s.dev.ops.length
    loop (splitRound partition length) result) := rfl

/-- A round halves the partition, where the header behind it can be read. -/
private theorem splitRound_spec {l length : Nat} {result : Int} (h : Partly V (m :: (A ++ x :: B)) s.dev)
    (hlength : x.length = 2 * l) (hlarge : 0x40000 ≤ l) (hpow : l.isPowerOfTwo)
    (hne : x.length ≠ length) (hx : (s.dev.view x.start).isSome)
    (hnext : (s.dev.view (headerLinks.head B 0)).isSome) :
    wp (splitRound x.start length result) s fun r s' => r = .inl 0 ∧ ∃ created V',
      Partly V' (m :: (A ++ lowerHalf x l :: upperHalf x l created :: B)) s'.dev ∧
        (s'.dev.view x.start).isSome ∧ (s'.dev.view (x.start + l)).isSome := by
  obtain ⟨u, hu⟩ := Option.isSome_iff_exists.mp hx
  obtain ⟨n, hn⟩ := Option.isSome_iff_exists.mp hnext
  have htiles := h.tiles
  have hxpart : Part x := htiles.part (by simp)
  have htop := hxpart.top
  obtain ⟨hfirst, hmid, hother⟩ := places_apart htiles hlength hlarge
  have hl0 : l ≠ 0 := by omega
  have hxmid : x.start ≠ x.start + l := by omega
  have hxslot := hxpart.slot
  have hmidslot : Slot (x.start + l) :=
    (Part.halves hlength hlarge hxpart hpow (fun _ => 0)).2.slot
  have hnslot := slot_next htiles
  obtain ⟨u', hu', hbody, -, hunext⟩ :=
    Linked.Chain.node (A := m :: A) (show headerLinks.Chain V _ ((m :: A) ++ x :: B) 0 from h.ring)
  obtain rfl : u' = u := Option.some.inj (hu'.symm.trans (h.seen x (by simp) u hu))
  have hbody : u'.body = x := hbody
  have hunext : u'.next = headerLinks.head B 0 := hunext
  have hulength : u'.length = x.length := by rw [← hbody]; rfl
  have hustart : u'.start = x.start := by rw [← hbody]; rfl
  have hshows : Shows s.dev s.dev.view [] s.dev :=
    ⟨rfl, rfl, h.sound, fun _ => rfl, fun t => by simp [h.clean]⟩
  obtain ⟨e₀, hget, hs₀⟩ := hshows.get hnslot hn
  have hhalf : x.length / 2 = l := by omega
  have hread : (setHeader x.start (fun h => { h with length := h.length / 2 }) e₀).header x.start =
      { u' with length := l } := by
    rw [(hs₀.setHeader hxslot fun h => { h with length := h.length / 2 }).header, if_pos rfl, hu]
    simp [hulength, hhalf]
  have hmid32 : u32 (x.start + l) = x.start + l := Nat.mod_eq_of_lt (by omega)
  obtain ⟨created, hclink, hs₅⟩ := shows_split hs₀ hxslot hmidslot hnslot hxmid hmid hfirst hu
    (by rw [hulength, hhalf]) hnext
  rw [splitRound]
  simp only [wp_headerOf_bind, header_of_view hu, hulength, if_neg hne, hunext, wp_devOp_bind, hget,
    wp_devDo_bind, hread, hustart, hmid32, hclink, emptyHeader_start]
  have hdone := partly_flushed h hlength hlarge hpow hx hnext hs₅
  refine wp_pure ⟨rfl, ?_⟩
  dsimp only
  exact hdone

/-! ### All rounds -/

/-- The halves that are cut off a partition at `start` on its way from `2 ^ (b + k)` to `2 ^ b` sectors. -/
structure Halves (start b k : Nat) (F : List ApaHeader) : Prop where
  places : F.map (fun y => (y.start, y.length)) =
    (List.range' b k).map fun i => (start + 2 ^ i, 2 ^ i)
  free : ∀ y ∈ F, y.isFree = true

theorem Halves.concat {start b k : Nat} {F : List ApaHeader} (h : Halves start b k F)
    (hstart : x.start = start) (created : Fin 2 → Nat) :
    Halves start b (k + 1) (F ++ [upperHalf x (2 ^ (b + k)) created]) where
  places := by
    rw [List.map_append, h.places, List.range'_1_concat, List.map_append, ← hstart]
    rfl
  free := by
    intro y hy
    rcases List.mem_append.mp hy with hy | hy
    · exact h.free y hy
    · rw [List.mem_singleton.mp hy]
      exact emptyHeader_isFree ..

theorem splitLoop_spec {b k : Nat} {r : Int} (h : Partly V (m :: (A ++ x :: B)) s.dev)
    (hlength : x.length = 2 ^ (b + k)) (hlarge : 0x40000 ≤ 2 ^ b) (hx : (s.dev.view x.start).isSome)
    (hnext : k ≠ 0 → (s.dev.view (headerLinks.head B 0)).isSome) :
    wp (loop (splitRound x.start (2 ^ b)) r) s fun r' s' =>
      r' = (if k = 0 then r else 0) ∧ (s'.dev.view x.start).isSome ∧ ∃ F V',
        Halves x.start b k F ∧ Partly V' (m :: (A ++ lowerHalf x (2 ^ b) :: (F ++ B))) s'.dev := by
  induction k generalizing x B V s r with
  | zero =>
    obtain ⟨u, hu⟩ := Option.isSome_iff_exists.mp hx
    obtain ⟨u', hu', hbody⟩ := Linked.Chain.mem h.ring (x := x) (by simp)
    obtain rfl : u' = u := Option.some.inj (hu'.symm.trans (h.seen x (by simp) u hu))
    have hulength : u'.length = 2 ^ b := by
      rw [Nat.add_zero] at hlength
      rw [← hlength, ← show u'.body = x from hbody]
      rfl
    refine wp_loop_pass ?_
    rw [splitRound]
    simp only [wp_headerOf_bind, header_of_view hu, hulength, if_true]
    refine wp_pure ⟨rfl, hx, [], V, ⟨rfl, by simp⟩, ?_⟩
    have hlower : lowerHalf x (2 ^ b) = x := by
      rw [Nat.add_zero] at hlength
      rw [lowerHalf, ← hlength]
    rw [hlower]
    exact h
  | succ k ih =>
    have hpos : (2 : Nat) ^ b ≤ 2 ^ (b + k) := Nat.pow_le_pow_right (by decide) (by omega)
    have hdouble : x.length = 2 * 2 ^ (b + k) := by
      rw [hlength, ← Nat.add_assoc, Nat.pow_succ, Nat.mul_comm]
    refine wp_loop_pass ((splitRound_spec (l := 2 ^ (b + k)) h hdouble (by omega) ⟨b + k, rfl⟩
      (by omega) hx (hnext (by omega))).mono ?_)
    rintro r₁ s₁ ⟨rfl, created, V₁, h₁, hx₁, hmid₁⟩
    refine (ih (x := lowerHalf x (2 ^ (b + k))) (B := upperHalf x (2 ^ (b + k)) created :: B) (V := V₁)
      h₁ rfl hx₁ fun _ => hmid₁).mono ?_
    rintro r' s' ⟨hr, hx', F, V', hF, hpartly⟩
    have hpartly : Partly V' (m :: (A ++ lowerHalf x (2 ^ b) ::
        (F ++ upperHalf x (2 ^ (b + k)) created :: B))) s'.dev := hpartly
    refine ⟨by simpa using hr, hx', F ++ [upperHalf x (2 ^ (b + k)) created], V',
      hF.concat rfl created, ?_⟩
    rwa [List.append_assoc, List.singleton_append]

private theorem used_halves {l : Nat} {F : List ApaHeader} (hfree : x.isFree = true)
    (hF : ∀ y ∈ F, y.isFree = true) :
    used (m :: (A ++ lowerHalf x l :: (F ++ B))) = used (m :: (A ++ x :: B)) := by
  have hlower : (lowerHalf x l).isFree = true := hfree
  simp only [used_cons, used_append, used_eq_nil hF, hfree, hlower, List.nil_append, if_true]

/-- An empty partition is split until it has the wanted length, the last one as any other. -/
theorem SplitEmptyPartition_splits {a b : Nat} (h : Partly V (m :: (A ++ x :: B)) s.dev)
    (hfree : x.isFree = true) (hlength : x.length = 2 ^ a) (hlarge : 0x40000 ≤ 2 ^ b) (hba : b < a)
    (hx : (s.dev.view x.start).isSome) (hnext : (s.dev.view (headerLinks.head B 0)).isSome) :
    wp (SplitEmptyPartition x.start (2 ^ b)) s fun r s' => r = 0 ∧ (s'.dev.view x.start).isSome ∧
      ∃ F V', Halves x.start b (a - b) F ∧
        Partly V' (m :: (A ++ lowerHalf x (2 ^ b) :: (F ++ B))) s'.dev ∧
          used (m :: (A ++ lowerHalf x (2 ^ b) :: (F ++ B))) = used (m :: (A ++ x :: B)) := by
  rw [SplitEmptyPartition_eq, wp_read_bind]
  refine (splitLoop_spec (k := a - b) h (by rw [hlength]; congr 1; omega) hlarge hx
    fun _ => hnext).mono ?_
  rintro r s' ⟨hr, hx', F, V', hF, hpartly⟩
  exact ⟨by rw [hr, if_neg (by omega)], hx', F, V', hF, hpartly, used_halves hfree hF.free⟩

private theorem partly_of_idle (h : d.Idle P) (hring : headerLinks.Ring (apaReadHeader d.disk) P)
    (htiles : Tiles 0 P) : Partly (apaReadHeader d.disk) P d where
  sound := h.sound
  clean := h.clean
  ring := hring
  tiles := htiles
  seen := fun y hy u hu => by rw [h.stored y hy, hu]
  stored := fun _ _ _ hu => hu

/-- A partition of one unit behind the MBR and an empty one of two at the end. -/
def lastBefore : List ApaHeader :=
  [mbrHeader, plainHeader 0x40000 0x40000 0x0100, plainHeader 0x80000 0x80000 APA_TYPE_FREE]

theorem lastBefore_tiles : Tiles 0 lastBefore :=
  ⟨rfl, part_mbr, rfl, part_plain ⟨⟨18, rfl⟩, by decide⟩ (by decide) (by decide) (by decide), rfl,
    part_plain ⟨⟨19, rfl⟩, by decide⟩ (by decide) (by decide) (by decide), trivial⟩

theorem lastBefore_partly : Partly (apaReadHeader (tableDisk lastBefore)) lastBefore
    (restState lastBefore none).dev :=
  partly_of_idle (idle_restState _ _) (ring_tableDisk lastBefore_tiles (by decide)) lastBefore_tiles

theorem lastBefore_view {y : ApaHeader} (hy : y ∈ lastBefore) :
    ∃ u, (restState lastBefore none).dev.view y.start = some u ∧ u.body = y := by
  obtain ⟨u, hu, hbody⟩ := Linked.Chain.mem lastBefore_partly.ring hy
  exact ⟨u, ((idle_restState lastBefore none).stored y hy).symm.trans hu, hbody⟩

theorem SplitEmptyPartition_splits_last :
    wp (SplitEmptyPartition 0x80000 (2 ^ 18)) (restState lastBefore none) fun r s' => r = 0 ∧
      (s'.dev.view 0x80000).isSome ∧ ∃ F V', Halves 0x80000 18 1 F ∧
        Partly V' (mbrHeader :: ([plainHeader 0x40000 0x40000 0x0100] ++
          lowerHalf (plainHeader 0x80000 0x80000 APA_TYPE_FREE) (2 ^ 18) :: (F ++ []))) s'.dev ∧
        used (mbrHeader :: ([plainHeader 0x40000 0x40000 0x0100] ++
          lowerHalf (plainHeader 0x80000 0x80000 APA_TYPE_FREE) (2 ^ 18) :: (F ++ []))) =
            used lastBefore := by
  obtain ⟨u, hu, -⟩ := lastBefore_view (y := plainHeader 0x80000 0x80000 APA_TYPE_FREE) (by decide)
  obtain ⟨n, hn, -⟩ := lastBefore_view (y := mbrHeader) (by decide)
  exact SplitEmptyPartition_splits (a := 19) (b := 18) (A := [plainHeader 0x40000 0x40000 0x0100])
    (B := []) (x := plainHeader 0x80000 0x80000 APA_TYPE_FREE) lastBefore_partly (by decide) rfl
    (by decide) (by decide) (Option.isSome_of_mem hu) (Option.isSome_of_mem hn)

/-- The last partition is split without an error. -/
theorem SplitEmptyPartition_last :
    ¬ wp (SplitEmptyPartition 0x80000 (2 ^ 18)) (restState lastBefore none) fun r s' => r ≠ 0 ∧
      s'.dev.view 0x80000 = (restState lastBefore none).dev.view 0x80000 := by
  intro herror
  obtain ⟨u, hu, hbody⟩ := lastBefore_view (y := plainHeader 0x80000 0x80000 APA_TYPE_FREE) (by decide)
  obtain ⟨n, hn, -⟩ := lastBefore_view (y := mbrHeader) (by decide)
  rw [SplitEmptyPartition_eq, wp_read_bind] at herror
  have hsplit := splitLoop_spec (s := restState lastBefore none) (b := 18) (k := 1) (r := 0)
    (A := [plainHeader 0x40000 0x40000 0x0100]) (B := [])
    (x := plainHeader 0x80000 0x80000 APA_TYPE_FREE) lastBefore_partly rfl (by decide)
    (Option.isSome_of_mem hu) fun _ => Option.isSome_of_mem hn
  obtain ⟨r, s', -, ⟨hne, -⟩, hr, -⟩ := herror.and_wlp hsplit.wlp
  exact hne hr

end HddChecker.Hdsk
