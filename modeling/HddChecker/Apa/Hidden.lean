import HddChecker.Apa.Deletion

/-!
# A drive with headers that cannot be read

A drive some sectors of which cannot be read is a whole one, seen through `hide`. As long as each header that is fetched can be read, the functions of `apa.c` do on the hidden drive what they do on the whole one. The first header that cannot be read ends `apaDeleteFixPrev` and `apaDeleteFixNext` with an error, and `apaDelete` returns 0 then.
-/

namespace HddChecker.Apa

open HddChecker Prog

/-- The header at `s` can be read. -/
def Readable (bad : Nat → Bool) (s : Nat) : Prop := bad s = false ∧ bad (s + 1) = false

instance (bad : Nat → Bool) (s : Nat) : Decidable (Readable bad s) := inferInstanceAs (Decidable (_ ∧ _))

namespace Device

/-- The drive of which the sectors `bad` cannot be read. -/
def hide (bad : Nat → Bool) (d : Device) : Device :=
  { d with disk := fun a => if bad a then none else d.disk a }

variable {bad : Nat → Bool} {d e : Device} {s : Nat} {h : ApaHeader}

/-- Neither the journal nor a header in the cache is hidden. -/
structure Clear (bad : Nat → Bool) (d : Device) : Prop where
  log : ∀ a, ¬ apaLog.Outside a → bad a = false
  cached : ∀ b ∈ d.cache, Readable bad b.sector

theorem apaReadHeader_hide (hs : Readable bad s) :
    apaReadHeader (hide bad d).disk s = apaReadHeader d.disk s :=
  apaReadHeader_congr (by simp [hide, hs.1]) (by simp [hide, hs.2])

theorem apaReadHeader_hidden (hs : ¬ Readable bad s) : apaReadHeader (hide bad d).disk s = none := by
  unfold apaReadHeader hide
  by_cases hfirst : bad s = true
  · simp [hfirst]
  · have hsecond : bad (s + 1) = true := by
      rw [Bool.not_eq_true] at hfirst
      by_contra hgood
      exact hs ⟨hfirst, by simpa using hgood⟩
    simp only [hsecond, if_true]
    split
    · rename_i hnone
      cases hnone
    · rfl

theorem Clear.findBuf_hidden (hclear : Clear bad d) (hs : ¬ Readable bad s) :
    findBuf d.cache s = none := by
  cases hbuf : findBuf d.cache s with
  | none => rfl
  | some b =>
    obtain ⟨hb, rfl⟩ := findBuf_some hbuf
    exact (hs (hclear.cached b hb)).elim

theorem view_hide (hs : Readable bad s) : (hide bad d).view s = d.view s := by
  unfold view
  rw [apaReadHeader_hide hs]
  rfl

theorem header_hide (hs : Readable bad s) : (hide bad d).header s = d.header s := by
  rw [header, view_hide hs, header]

theorem store_hide {f : ApaCache → ApaCache} (hs : Readable bad s) :
    store s f (hide bad d) = hide bad (store s f d) := by
  unfold store
  rw [apaReadHeader_hide hs]
  rw [show (hide bad d).cache = d.cache from rfl]
  cases findBuf d.cache s with
  | some b => rfl
  | none =>
    cases apaReadHeader d.disk s with
    | some h => rfl
    | none => rfl

theorem Clear.store {f : ApaCache → ApaCache} (hclear : Clear bad d)
    (hf : ∀ b, (f b).sector = b.sector) (hs : Readable bad s) : Clear bad (store s f d) where
  log := hclear.log
  cached := by
    unfold Device.store
    cases hbuf : findBuf d.cache s with
    | some b =>
      intro c hc
      obtain ⟨b', hb', rfl⟩ := List.mem_map.mp hc
      have hsector : (if b'.sector = s then f b' else b').sector = b'.sector := by
        split
        · exact hf b'
        · rfl
      rw [hsector]
      exact hclear.cached b' hb'
    | none =>
      cases hread : apaReadHeader d.disk s with
      | none => exact hclear.cached
      | some h =>
        intro c hc
        rcases List.mem_append.mp hc with hc | hc
        · exact hclear.cached c hc
        · rw [List.mem_singleton.mp hc, hf]
          exact hs

theorem hide_setHeader (hs : Readable bad s) (g : ApaHeader → ApaHeader) :
    setHeader s g (hide bad d) = hide bad (setHeader s g d) := store_hide hs

theorem hide_setDirty (hs : Readable bad s) :
    setDirty s (hide bad d) = hide bad (setDirty s d) := store_hide hs

theorem hide_apaCacheFree (hs : Readable bad s) :
    apaCacheFree s (hide bad d) = hide bad (apaCacheFree s d) := store_hide hs

theorem Clear.setHeader (hclear : Clear bad d) (hs : Readable bad s) (g : ApaHeader → ApaHeader) :
    Clear bad (setHeader s g d) := hclear.store (fun _ => rfl) hs

theorem Clear.setDirty (hclear : Clear bad d) (hs : Readable bad s) : Clear bad (setDirty s d) :=
  hclear.store (fun _ => rfl) hs

theorem Clear.free (hclear : Clear bad d) (hs : Readable bad s) : Clear bad (apaCacheFree s d) := by
  refine hclear.store (fun b => ?_) hs
  split <;> rfl

theorem hide_apaMakeEmpty (hs : Readable bad s) :
    apaMakeEmpty s (hide bad d) = hide bad (apaMakeEmpty s d) := by
  unfold apaMakeEmpty
  dsimp only
  rw [hide_setHeader hs, hide_setDirty hs]
  rfl

theorem Clear.makeEmpty (hclear : Clear bad d) (hs : Readable bad s) : Clear bad (apaMakeEmpty s d) :=
  (hclear.setHeader hs _).setDirty hs

/-- A header that can be read is had on both drives. -/
theorem get_hide (hclear : Clear bad d) (hs : Readable bad s)
    (hget : apaCacheGetHeader s d = (.ok s, e)) :
    apaCacheGetHeader s (hide bad d) = (.ok s, hide bad e) ∧ Clear bad e := by
  unfold apaCacheGetHeader at hget ⊢
  rw [apaReadHeader_hide hs]
  rw [show (hide bad d).cache = d.cache from rfl]
  cases hbuf : findBuf d.cache s with
  | some b =>
    rw [hbuf] at hget
    obtain ⟨-, rfl⟩ := Prod.mk.inj hget
    exact ⟨congrArg _ (store_hide hs), hclear.store (fun _ => rfl) hs⟩
  | none =>
    rw [hbuf] at hget
    cases hread : apaReadHeader d.disk s with
    | some h =>
      rw [hread] at hget
      obtain ⟨-, rfl⟩ := Prod.mk.inj hget
      exact ⟨congrArg _ (store_hide hs), hclear.store (fun _ => rfl) hs⟩
    | none =>
      rw [hread] at hget
      obtain ⟨h, -⟩ := Prod.mk.inj hget
      cases h

/-- One that cannot be read is an error on the hidden one. -/
theorem get_hidden (hclear : Clear bad d) (hs : ¬ Readable bad s) :
    apaCacheGetHeader s (hide bad d) =
      (.error (- EIO), apaSaveError APA_SECTOR_SECTOR_ERROR s (hide bad d)) := by
  unfold apaCacheGetHeader
  rw [apaReadHeader_hidden hs, show (hide bad d).cache = d.cache from rfl, hclear.findBuf_hidden hs]

/-- The flush writes the same sectors on both drives, none of them hidden. -/
private theorem flush_hide (hclear : Clear bad d) (hsound : d.Sound Slot)
    (hfew : (dirtyBufs d.cache).length ≤ 126) :
    (hide bad d).apaCacheFlushAllDirty = (0, hide bad d.apaCacheFlushAllDirty.2) ∧
      Clear bad d.apaCacheFlushAllDirty.2 := by
  have hlog : ∀ a, bad a = true → apaLog.Outside a := by
    intro a ha
    by_contra hin
    rw [hclear.log a hin] at ha
    cases ha
  have hcopies : ∀ a, bad a = true →
      ∀ w ∈ journalCopies 0 (dirtyBufs d.cache), w.1 ≠ a := by
    rintro a ha w hw rfl
    have hplace := mem_journalCopies hw
    refine (hlog _ ha).1 ⟨?_, ?_⟩
    · simp only [APA_SECTOR_APAL_HEADERS]
      omega
    · simp only [APA_SECTOR_APAL_HEADERS]
      omega
  have hhomes : ∀ a, bad a = true → ∀ w ∈ homeWrites (dirtyBufs d.cache), w.1 ≠ a := by
    rintro a ha w hw rfl
    obtain ⟨b, hb, hw⟩ := mem_homeWrites.mp hw
    have hread := hclear.cached b (mem_dirtyBufs.mp hb).1
    rcases hw with rfl | rfl
    · rw [hread.1] at ha
      cases ha
    · rw [hread.2] at ha
      cases ha
  have hhide := apaCacheFlushAllDirty_eq (show Keyed (hide bad d).cache from hsound.keyed)
    (show ∀ a, (hide bad d).badWrite a = false from hsound.good)
    (show (hide bad d).journalBuf.num = 0 from hsound.num)
  rw [hhide, apaCacheFlushAllDirty_eq hsound.keyed hsound.good hsound.num]
  refine ⟨congrArg _ ?_, hclear.log, fun b hb => ?_⟩
  · unfold hide
    congr 1
    funext a
    by_cases hbad : bad a = true
    · have hne : a ≠ APA_SECTOR_APAL := (hlog a hbad).2
      rw [if_pos hbad, Function.update_of_ne hne, applyWrites_of_not_mem (hhomes a hbad),
        Function.update_of_ne hne, applyWrites_of_not_mem (hcopies a hbad)]
      exact if_pos hbad
    · rw [if_neg hbad]
      dsimp only
      by_cases hindex : a = APA_SECTOR_APAL
      · rw [hindex, Function.update_self, Function.update_self]
      · rw [Function.update_of_ne hindex, Function.update_of_ne hindex]
        refine applyWrites_congr fun _ => ?_
        rw [Function.update_of_ne hindex, Function.update_of_ne hindex]
        exact applyWrites_congr fun _ => if_neg hbad
  · obtain ⟨c, hc, rfl⟩ := List.mem_map.mp hb
    rw [ApaCache.flushed_sector]
    exact hclear.cached c hc

theorem flush_hide_of_shows {d₀ : Device} {v : Nat → Option ApaHeader} {D : List Nat}
    (hs : Shows d₀ v D d) (hclear : Clear bad d) (hfew : D.length ≤ 126) :
    (hide bad d).apaCacheFlushAllDirty = (0, hide bad d.apaCacheFlushAllDirty.2) ∧
      Clear bad d.apaCacheFlushAllDirty.2 :=
  flush_hide hclear hs.sound (hs.sound.flushable places_slot (fun s => (hs.dirty s).mp) hfew).few

/-! ### One program on both drives -/

/-- The program does on the hidden drive what it does on the whole one. -/
def Alike {α : Type} (bad : Nat → Bool) (p : Prog Device α) (d : Device) : Prop :=
  Clear bad d → wp p d fun a e => Clear bad e ∧ wp p (hide bad d) fun a' e' => a' = a ∧ e' = hide bad e

section

variable {α β : Type} {p : Prog Device α}

theorem alike_pure (a : α) : Alike bad (pure a) d := fun hclear =>
  wp_pure ⟨hclear, wp_pure ⟨rfl, rfl⟩⟩

theorem alike_read_bind {o : Device → α} {f : α → Prog Device β} (ho : o (hide bad d) = o d)
    (h : Alike bad (f (o d)) d) : Alike bad (read o >>= f) d := by
  unfold Alike at h ⊢
  simp only [wp_read_bind, ho]
  exact h

theorem alike_modify_bind {g : Device → Device} {f : Unit → Prog Device β}
    (hg : g (hide bad d) = hide bad (g d)) (hclear : Clear bad d → Clear bad (g d))
    (h : Alike bad (f ()) (g d)) : Alike bad (modify g >>= f) d := by
  unfold Alike at h ⊢
  simp only [wp_modify_bind, hg]
  exact fun hd => h (hclear hd)

theorem alike_get_bind {f : Except Int Nat → Prog Device β} (hs : Readable bad s)
    (hget : apaCacheGetHeader s d = (.ok s, e)) (h : Alike bad (f (.ok s)) e) :
    Alike bad (ofState (apaCacheGetHeader s) >>= f) d := by
  intro hclear
  obtain ⟨hget', hclear'⟩ := get_hide hclear hs hget
  simp only [wp_ofState_bind, hget, hget']
  exact h hclear'

theorem alike_flush_bind {d₀ : Device} {v : Nat → Option ApaHeader} {D : List Nat}
    {f : Int → Prog Device β} (hs : Shows d₀ v D d) (hfew : D.length ≤ 126)
    (h : Alike bad (f 0) d.apaCacheFlushAllDirty.2) :
    Alike bad (ofState apaCacheFlushAllDirty >>= f) d := by
  intro hclear
  obtain ⟨hflush, hclear'⟩ := flush_hide_of_shows hs hclear hfew
  have hdone : d.apaCacheFlushAllDirty.1 = 0 := by
    rw [apaCacheFlushAllDirty_eq hs.sound.keyed hs.sound.good hs.sound.num]
  simp only [wp_ofState_bind, hflush, hdone]
  exact h hclear'

theorem wp_alike {P : Prop} {Q R : α → Device → Prop} (hclear : Clear bad d) (h : wp p d Q)
    (hgood : P → Alike bad p d) (hbad : ¬ P → wp p (hide bad d) R) :
    wp p d fun a e => Q a e ∧
      (P → Clear bad e ∧ wp p (hide bad d) fun a' e' => a' = a ∧ e' = hide bad e) ∧
      (¬ P → wp p (hide bad d) R) := by
  by_cases hP : P
  · refine (h.and_wlp (hgood hP hclear).wlp).mono ?_
    rintro a e ⟨hQ, halike⟩
    exact ⟨hQ, fun _ => halike, fun hnot => (hnot hP).elim⟩
  · refine h.mono fun a e hQ => ?_
    exact ⟨hQ, fun hyes => (hP hyes).elim, fun _ => hbad hP⟩

end

/-! ### The loops -/

/-- A pass of the loop of `apaDeleteFixPrev`. -/
def prevPass (x : Nat × Nat) : Prog Device ((Nat × Nat) ⊕ Except Int (Nat × Nat)) := do
  let clink := x.1
  let length := x.2
  let header ← read (·.header clink)
  if header.start = 0 then return .inr (.ok (clink, length))
  else
    match ← ofState (apaCacheGetHeader header.prev) with
    | .error err =>
      modify (apaCacheFree clink)
      return .inr (.error err)
    | .ok clink2 =>
      let header ← read (·.header clink2)
      let tmp := u32 (header.length + length)
      if header.type ≠ APA_TYPE_FREE ∨ mergeable header.start tmp = false then
        modify (apaCacheFree clink2)
        return .inr (.ok (clink, length))
      else
        modify (apaCacheFree clink)
        return .inl (clink2, tmp)

private theorem fixPrevLoop_eq (clink length : Nat) : fixPrevLoop clink length = loop prevPass (clink, length) :=
  rfl

/-- A pass of the loop of `apaDeleteFixNext`. -/
def nextPass (clink start : Nat) (x : Nat × Nat) :
    Prog Device ((Nat × Nat) ⊕ Except Int (Nat × Nat)) := do
  let lnext := x.1
  let length := x.2
  if lnext = 0 then return .inr (.ok (lnext, length))
  else
    match ← ofState (apaCacheGetHeader lnext) with
    | .error err =>
      modify (apaCacheFree clink)
      return .inr (.error err)
    | .ok clink1 =>
      let header ← read (·.header clink1)
      let tmp := u32 (header.length + length)
      modify (apaCacheFree clink1)
      if header.type ≠ APA_TYPE_FREE ∨ mergeable start tmp = false then
        return .inr (.ok (lnext, length))
      else return .inl (header.next, tmp)

theorem fixNextLoop_eq (clink start lnext length : Nat) :
    fixNextLoop clink start lnext length = loop (nextPass clink start) (lnext, length) := rfl

variable {u z : ApaHeader} {l : Nat}

/-- One pass to the left on both drives: the same, or an error where the header before cannot be read. -/
private theorem prevPass_hide (hclear : Clear bad e) (hz : e.view s = some z) (hz0 : z.start ≠ 0)
    (hu : e.view z.prev = some u) (hs : Slot s) (hprev : Slot z.prev) (hread : Readable bad s) :
    wp (prevPass (s, l)) e fun r e₁ => (Same Slot e e₁ ∧
      (r = .inr (.ok (s, l)) ∨ u.type = APA_TYPE_FREE ∧ ∃ l', r = .inl (z.prev, l'))) ∧
      (Readable bad z.prev → Clear bad e₁ ∧ wp (prevPass (s, l)) (hide bad e) fun r' e' =>
        r' = r ∧ e' = hide bad e₁) ∧
      (¬ Readable bad z.prev → wp (prevPass (s, l)) (hide bad e) fun r' _ =>
        ∃ err, r' = .inr (.error err)) := by
  obtain ⟨e₁, hget, hsame⟩ := apaCacheGetHeader_ok (S := Slot) hu hprev
  have hhead : e.header s = z := header_of_view hz
  have hheadu : e₁.header z.prev = u := by
    rw [hsame.header]
    exact header_of_view hu
  refine wp_alike hclear ?_ (fun hgood => ?_) fun hnot => ?_
  · unfold prevPass
    simp only [wp_read_bind, hhead, hz0, if_false, wp_ofState_bind, hget, hheadu]
    by_cases hstop : u.type ≠ APA_TYPE_FREE ∨ mergeable u.start (u32 (u.length + l)) = false
    · simp only [if_pos hstop, wp_modify_bind, wp_pure_iff]
      exact ⟨hsame.trans (same_apaCacheFree hprev), .inl trivial⟩
    · have hfree : u.type = APA_TYPE_FREE := by
        by_contra hused
        exact hstop (.inl hused)
      simp only [if_neg hstop, wp_modify_bind, wp_pure_iff]
      exact ⟨hsame.trans (same_apaCacheFree hs), .inr ⟨hfree, _, rfl⟩⟩
  · unfold prevPass
    apply alike_read_bind (header_hide hread)
    rw [hhead, if_neg hz0]
    refine alike_get_bind hgood hget (alike_read_bind (header_hide hgood) ?_)
    dsimp only
    split
    · exact alike_modify_bind (hide_apaCacheFree hgood) (·.free hgood) (alike_pure _)
    · exact alike_modify_bind (hide_apaCacheFree hread) (·.free hread) (alike_pure _)
  · unfold prevPass
    simp only [wp_read_bind, header_hide hread, hhead, hz0, if_false, wp_ofState_bind,
      get_hidden hclear hnot, wp_modify_bind, wp_pure_iff]
    exact ⟨_, rfl⟩

/-- One pass to the right on both drives. -/
private theorem nextPass_hide {clink start : Nat} (hclear : Clear bad e) (hu : e.view s = some u)
    (hs : Slot s) (hs0 : s ≠ 0) :
    wp (nextPass clink start (s, l)) e fun r e₁ => (Same Slot e e₁ ∧
      (r = .inr (.ok (s, l)) ∨ u.type = APA_TYPE_FREE ∧ ∃ l', r = .inl (u.next, l'))) ∧
      (Readable bad s → Clear bad e₁ ∧ wp (nextPass clink start (s, l)) (hide bad e) fun r' e' =>
        r' = r ∧ e' = hide bad e₁) ∧
      (¬ Readable bad s → wp (nextPass clink start (s, l)) (hide bad e) fun r' _ =>
        ∃ err, r' = .inr (.error err)) := by
  obtain ⟨e₁, hget, hsame⟩ := apaCacheGetHeader_ok (S := Slot) hu hs
  have hheadu : e₁.header s = u := by
    rw [hsame.header]
    exact header_of_view hu
  have hsame' := hsame.trans (same_apaCacheFree (d := e₁) hs)
  refine wp_alike hclear ?_ (fun hgood => ?_) fun hnot => ?_
  · unfold nextPass
    simp only [hs0, if_false, wp_ofState_bind, hget, wp_read_bind, hheadu, wp_modify_bind]
    by_cases hstop : u.type ≠ APA_TYPE_FREE ∨ mergeable start (u32 (u.length + l)) = false
    · simp only [if_pos hstop, wp_pure_iff]
      exact ⟨hsame', .inl trivial⟩
    · have hfree : u.type = APA_TYPE_FREE := by
        by_contra hused
        exact hstop (.inl hused)
      simp only [if_neg hstop, wp_pure_iff]
      exact ⟨hsame', .inr ⟨hfree, _, rfl⟩⟩
  · unfold nextPass
    dsimp only
    rw [if_neg hs0]
    refine alike_get_bind hgood hget (alike_read_bind (header_hide hgood) ?_)
    apply alike_modify_bind (hide_apaCacheFree hgood) (·.free hgood)
    split
    · exact alike_pure _
    · exact alike_pure _
  · unfold nextPass
    simp only [hs0, if_false, wp_ofState_bind, get_hidden hclear hnot, wp_modify_bind, wp_pure_iff]
    exact ⟨_, rfl⟩

theorem clear_none : Clear (fun _ => false) d := ⟨fun _ _ => rfl, fun _ _ => ⟨rfl, rfl⟩⟩

theorem loop_error {β γ : Type} {body : β → Prog Device (β ⊕ Except Int γ)} {b : β}
    (h : wp (body b) d fun r _ => ∃ err, r = .inr (.error err)) :
    wp (loop body b) d fun r _ => ∃ err, r = .error err := by
  refine wp_loop_pass (h.mono ?_)
  rintro _ _ ⟨err, rfl⟩
  exact ⟨err, rfl⟩

theorem loop_follows {β γ : Type} {body : β → Prog Device (β ⊕ γ)} {b b' : β}
    {Q : γ → Device → Prop} (h : wp (body b) d fun r e' => r = .inl b' ∧ e' = e)
    (hrest : wp (loop body b') e Q) : wp (loop body b) d Q := by
  refine wp_loop_pass (h.mono ?_)
  rintro _ _ ⟨rfl, rfl⟩
  exact hrest

variable {π : Promise} {w : WriteBack (Option Sector)} {m x : ApaHeader} {A B R : List ApaHeader}

private theorem eq_of_end_le {I : List ApaHeader} {y : ApaHeader} (h : Tiles 0 (I ++ u :: R))
    (hy : y ∈ I ++ [u]) (hend : u.start + u.length ≤ y.start + y.length) : y = u := by
  rcases List.mem_append.mp hy with hy | hy
  · obtain ⟨hI, hu, hpart, -⟩ := tiles_append.mp h
    have hle := hI.end_le hy
    have := hpart.two_le
    omega
  · exact List.mem_singleton.mp hy

/-- The loop to the left on both drives: the same, or an error where a header it looks at cannot be read. These are the ones between `s`, at which it ends, and its start, and the one that touches `s`. -/
private theorem fixPrevLoop_hide (h : Steady π w d (m :: (A ++ z :: R))) (hsame : Same Slot d e)
    (hclear : Clear bad e) (hread : Readable bad z.start) :
    wp (fixPrevLoop z.start l) e fun r e₁ => ∃ s l', r = .ok (s, l') ∧ s ≤ z.start ∧
      ((∀ y ∈ m :: A, s ≤ y.start + y.length → Readable bad y.start) ∧ Clear bad e₁ ∧
          Readable bad s ∧ wp (fixPrevLoop z.start l) (hide bad e) (fun r' e' =>
            r' = r ∧ e' = hide bad e₁) ∨
        (∃ y ∈ m :: A, s ≤ y.start + y.length ∧ ¬ Readable bad y.start) ∧
          wp (fixPrevLoop z.start l) (hide bad e) fun r' _ => ∃ err, r' = .error err) := by
  generalize hn : A.length = n
  induction n using Nat.strongRecOn generalizing A z R l e bad with
  | ind n ih =>
  obtain ⟨I, u, hIu⟩ : ∃ I u, m :: A = I ++ [u] :=
    ⟨_, _, (List.dropLast_append_getLast (by simp)).symm⟩
  have hP : m :: (A ++ z :: R) = (I ++ [u]) ++ z :: R := by rw [← hIu, List.cons_append]
  have hP' : m :: (A ++ z :: R) = I ++ u :: (z :: R) := by
    rw [hP, List.append_assoc, List.singleton_append]
  have htiles := h.tiles
  obtain ⟨vz, hvz, hzbody, hzprev, -⟩ := (hP ▸ h).node
  obtain ⟨vu, hvu, hubody, -, -⟩ := (hP' ▸ h).node
  rw [headerLinks.last_append] at hzprev
  have hzprev : vz.prev = u.start := hzprev
  have hzstart : vz.start = z.start := ApaHeader.start_of_body hzbody
  have hz0 : z.start ≠ 0 := htiles.keys.ne_zero (by simp)
  have hzslot := (htiles.part (x := z) (by simp)).slot
  have huslot := (htiles.part (x := u) (by simp [hP'])).slot
  have htiles' := htiles
  rw [hP'] at htiles'
  have hend : u.start + u.length = z.start := by
    obtain ⟨-, hu, -, hz, -⟩ := tiles_append.mp htiles'
    omega
  have honly : ∀ y ∈ m :: A, z.start ≤ y.start + y.length → y = u := by
    intro y hy hle
    rw [hIu] at hy
    exact eq_of_end_le htiles' hy (hend ▸ hle)
  have hu : u ∈ m :: A := by simp [hIu]
  rw [fixPrevLoop_eq]
  refine wp_loop_pass ((prevPass_hide hclear ((hsame.view _).trans hvz) (hzstart ▸ hz0)
    (by rw [hzprev, hsame.view, hvu]) hzslot (hzprev ▸ huslot) hread).mono ?_)
  rintro r e₁ ⟨⟨hsame₁, hr⟩, hgood, hbad⟩
  rw [hzprev] at hr hgood hbad
  rcases hr with rfl | ⟨hfree, l', rfl⟩
  · refine ⟨z.start, l, rfl, le_refl _, ?_⟩
    by_cases hru : Readable bad u.start
    · obtain ⟨hclear₁, hpass⟩ := hgood hru
      refine .inl ⟨fun y hy hle => ?_, hclear₁, hread, wp_loop_pass (hpass.mono ?_)⟩
      · rw [honly y hy hle]
        exact hru
      · rintro _ _ ⟨rfl, rfl⟩
        exact ⟨rfl, rfl⟩
    · exact .inr ⟨⟨u, hu, by omega, hru⟩, loop_error (hbad hru)⟩
  · have hufree : u.isFree = true := by
      rw [← hubody]
      exact beq_iff_eq.mpr hfree
    obtain ⟨A'', rfl, rfl⟩ := exists_concat_of_free htiles hIu hufree
    have hshorter : A''.length < n := by
      rw [← hn]
      simp
    have hsteady : Steady π w d (m :: (A'' ++ u :: (z :: R))) := by simpa using h
    by_cases hru : Readable bad u.start
    · obtain ⟨hclear₁, hpass⟩ := hgood hru
      refine (ih _ hshorter hsteady (hsame.trans hsame₁) hclear₁ hru rfl).mono ?_
      rintro _ e₂ ⟨s, l'', rfl, hle, hcases⟩
      refine ⟨s, l'', rfl, by omega, ?_⟩
      rcases hcases with ⟨hall, hclear₂, hs, hrun⟩ | ⟨⟨y, hy, hfound⟩, hrun⟩
      · refine .inl ⟨fun y hy hys => ?_, hclear₂, hs, loop_follows hpass hrun⟩
        rw [← List.cons_append, List.mem_append] at hy
        rcases hy with hy | hy
        · exact hall y hy hys
        · rw [List.mem_singleton.mp hy]
          exact hru
      · refine .inr ⟨⟨y, ?_, hfound⟩, loop_follows hpass hrun⟩
        rw [← List.cons_append]
        exact List.mem_append_left _ hy
    · refine (ih _ hshorter hsteady (hsame.trans hsame₁) clear_none ⟨rfl, rfl⟩ rfl).mono ?_
      rintro _ e₂ ⟨s, l'', rfl, hle, -⟩
      exact ⟨s, l'', rfl, by omega, .inr ⟨⟨u, hu, by omega, hru⟩, loop_error (hbad hru)⟩⟩

/-- The loop to the right on both drives. It looks at the headers from its start to `t`, at which it ends, and at all of them where it comes to the end of the table. -/
private theorem fixNextLoop_hide {clink start : Nat} (h : Steady π w d (m :: (A ++ B)))
    (hsame : Same Slot d e) (hclear : Clear bad e) :
    wp (fixNextLoop clink start (headerLinks.head B 0) l) e fun r e₁ => ∃ t l', r = .ok (t, l') ∧
      (t = 0 ∨ ∃ b ∈ B, t = b.start) ∧
      ((∀ y ∈ B, t = 0 ∨ y.start ≤ t → Readable bad y.start) ∧ Clear bad e₁ ∧
          wp (fixNextLoop clink start (headerLinks.head B 0) l) (hide bad e) (fun r' e' =>
            r' = r ∧ e' = hide bad e₁) ∨
        (∃ y ∈ B, (t = 0 ∨ y.start ≤ t) ∧ ¬ Readable bad y.start) ∧
          wp (fixNextLoop clink start (headerLinks.head B 0) l) (hide bad e) fun r' _ =>
            ∃ err, r' = .error err) := by
  induction B generalizing A l e bad with
  | nil =>
    have hpass : ∀ d : Device, wp (fixNextLoop clink start (headerLinks.head [] 0) l) d fun r d' =>
        r = .ok (0, l) ∧ d' = d := by
      intro d
      rw [fixNextLoop_eq]
      refine wp_loop_pass ?_
      unfold nextPass
      simp only [headerLinks.head_nil, if_true, wp_pure_iff, and_self]
    refine (hpass e).mono ?_
    rintro _ _ ⟨rfl, rfl⟩
    exact ⟨0, l, rfl, .inl rfl, .inl ⟨fun _ hy => (List.not_mem_nil hy).elim, hclear, hpass _⟩⟩
  | cons b B ih =>
    have htiles := h.tiles
    obtain ⟨vb, hvb, -, -, hbnext⟩ := (show Steady π w d ((m :: A) ++ b :: B) from h).node
    have hb0 : b.start ≠ 0 := htiles.keys.ne_zero (by simp)
    have hbslot := (htiles.part (x := b) (by simp)).slot
    have hbehind : ∀ y ∈ B, b.start + b.length ≤ y.start := by
      intro y hy
      rw [← List.cons_append] at htiles
      obtain ⟨-, hb, -, hB⟩ := tiles_append.mp htiles
      have := hB.le_start hy
      omega
    have hblength := (htiles.part (x := b) (by simp)).two_le
    rw [fixNextLoop_eq, headerLinks.head_cons, headerLinks_key]
    refine wp_loop_pass ((nextPass_hide hclear ((hsame.view _).trans hvb) hbslot hb0).mono ?_)
    rintro r e₁ ⟨⟨hsame₁, hr⟩, hgood, hbad⟩
    rw [hbnext] at hr
    have hsteady : Steady π w d (m :: ((A ++ [b]) ++ B)) := by simpa using h
    rcases hr with rfl | ⟨-, l', rfl⟩
    · refine ⟨b.start, l, rfl, .inr ⟨b, List.mem_cons_self, rfl⟩, ?_⟩
      by_cases hrb : Readable bad b.start
      · obtain ⟨hclear₁, hpass⟩ := hgood hrb
        refine .inl ⟨fun y hy hle => ?_, hclear₁, wp_loop_pass (hpass.mono ?_)⟩
        · rcases List.mem_cons.mp hy with rfl | hy
          · exact hrb
          · have := hbehind y hy
            omega
        · rintro _ _ ⟨rfl, rfl⟩
          exact ⟨rfl, rfl⟩
      · exact .inr ⟨⟨b, List.mem_cons_self, .inr (le_refl _), hrb⟩, loop_error (hbad hrb)⟩
    · have hreach : ∀ t, (t = 0 ∨ ∃ b' ∈ B, t = b'.start) → t = 0 ∨ b.start ≤ t := by
        rintro t (rfl | ⟨b', hb', rfl⟩)
        · exact .inl rfl
        · have := hbehind b' hb'
          exact .inr (by omega)
      have hfound : ∀ t, (t = 0 ∨ ∃ b' ∈ B, t = b'.start) → t = 0 ∨ ∃ b' ∈ b :: B, t = b'.start := by
        rintro t (rfl | ⟨b', hb', rfl⟩)
        · exact .inl rfl
        · exact .inr ⟨b', List.mem_cons_of_mem _ hb', rfl⟩
      by_cases hrb : Readable bad b.start
      · obtain ⟨hclear₁, hpass⟩ := hgood hrb
        refine (ih hsteady (hsame.trans hsame₁) hclear₁).mono ?_
        rintro _ e₂ ⟨t, l'', rfl, ht, hcases⟩
        refine ⟨t, l'', rfl, hfound t ht, ?_⟩
        rcases hcases with ⟨hall, hclear₂, hrun⟩ | ⟨⟨y, hy, hyt⟩, hrun⟩
        · refine .inl ⟨fun y hy hyt => ?_, hclear₂, loop_follows hpass hrun⟩
          rcases List.mem_cons.mp hy with rfl | hy
          · exact hrb
          · exact hall y hy hyt
        · exact .inr ⟨⟨y, List.mem_cons_of_mem _ hy, hyt⟩, loop_follows hpass hrun⟩
      · refine (ih hsteady (hsame.trans hsame₁) clear_none).mono ?_
        rintro _ e₂ ⟨t, l'', rfl, ht, -⟩
        exact ⟨t, l'', rfl, hfound t ht,
          .inr ⟨⟨b, List.mem_cons_self, hreach t ht, hrb⟩, loop_error (hbad hrb)⟩⟩

/-! ### The joined header -/

/-- What `apaDeleteFixPrev` writes when the run from `clink` on has `length` sectors. -/
def joinPrev (clink length next : Nat) : Prog Device (Except Int Nat) := do
  match ← ofState (apaCacheGetHeader next) with
  | .error err =>
    modify (apaCacheFree clink)
    return .error err
  | .ok clink2 =>
    modify (setHeader clink fun h => { h with length := length })
    modify (setHeader clink fun h => { h with next := u32 (h.start + length) })
    let start := (← read (·.header clink)).start
    modify (setHeader clink2 fun h => { h with prev := start })
    modify (setDirty clink2)
    modify (setDirty clink)
    let _ ← ofState apaCacheFlushAllDirty
    modify (apaCacheFree clink2)
    return .ok clink

/-- What `apaDeleteFixNext` writes when the run from `clink` on has `length` sectors. -/
def joinNext (clink length lnext : Nat) : Prog Device (Except Int Nat) := do
  match ← ofState (apaCacheGetHeader lnext) with
  | .error err =>
    modify (apaCacheFree clink)
    return .error err
  | .ok clink2 =>
    modify (setHeader clink fun h => { h with length := length })
    modify (setHeader clink fun h => { h with next := lnext })
    modify (apaMakeEmpty clink)
    let start := (← read (·.header clink)).start
    modify (setHeader clink2 fun h => { h with prev := start })
    modify (setDirty clink2)
    let _ ← ofState apaCacheFlushAllDirty
    modify (apaCacheFree clink2)
    return .ok clink

private theorem apaDeleteFixPrev_eq (clink : Nat) : apaDeleteFixPrev clink = (do
    let saved ← read (·.header clink)
    match ← fixPrevLoop clink saved.length with
    | .error err => return .error err
    | .ok (clink, length) =>
      if length ≠ saved.length then joinPrev clink length saved.next else return .ok clink) := rfl

private theorem apaDeleteFixNext_eq (clink : Nat) : apaDeleteFixNext clink = (do
    let saved ← read (·.header clink)
    match ← fixNextLoop clink saved.start saved.next saved.length with
    | .error err => return .error err
    | .ok (lnext, length) =>
      if length ≠ saved.length then joinNext clink length lnext else return .ok clink) := rfl

variable {clink next length : Nat} {v : ApaHeader}

theorem joinPrev_hide (hsound : d.Sound Slot) (hclean : ∀ s, d.isDirty s = false)
    (hclear : Clear bad d) (hclink : Slot clink) (hview : d.view clink = some v) (hnext : Slot next)
    (hv : d.view next = some u) (hne : next ≠ clink) (hread : Readable bad clink) :
    wp (joinPrev clink length next) d fun r e => r = .ok clink ∧
      (Readable bad next → Clear bad e ∧ wp (joinPrev clink length next) (hide bad d) fun r' e' =>
        r' = r ∧ e' = hide bad e) ∧
      (¬ Readable bad next → wp (joinPrev clink length next) (hide bad d) fun r' _ =>
        ∃ err, r' = .error err) := by
  have hs₀ : Shows d d.view [] d := ⟨rfl, rfl, hsound, fun _ => rfl, fun s => by simp [hclean]⟩
  obtain ⟨e₁, hget, hs₁⟩ := hs₀.get hnext hv
  refine wp_alike hclear ?_ (fun hgood => ?_) fun hnot => ?_
  · unfold joinPrev
    simp only [wp_ofState_bind, hget, wp_modify_bind, wp_read_bind, wp_pure_iff]
  · unfold joinPrev
    apply alike_get_bind hgood hget
    apply alike_modify_bind (hide_setHeader hread _) (·.setHeader hread _)
    apply alike_modify_bind (hide_setHeader hread _) (·.setHeader hread _)
    apply alike_read_bind (header_hide hread)
    apply alike_modify_bind (hide_setHeader hgood _) (·.setHeader hgood _)
    apply alike_modify_bind (hide_setDirty hgood) (·.setDirty hgood)
    apply alike_modify_bind (hide_setDirty hread) (·.setDirty hread)
    have hs₂ := (hs₁.setHeader hclink fun h => { h with length := length }).setHeader hclink
      fun h => { h with next := u32 (h.start + length) }
    refine alike_flush_bind (((hs₂.setHeader hnext _).setDirty hnext (by simp [hne, hv])).setDirty
      hclink (by simp [hne.symm, hview])) (by simp) ?_
    exact alike_modify_bind (hide_apaCacheFree hgood) (·.free hgood) (alike_pure _)
  · unfold joinPrev
    simp only [wp_ofState_bind, get_hidden hclear hnot, wp_modify_bind, wp_pure_iff]
    exact ⟨_, rfl⟩

theorem joinNext_hide (hsound : d.Sound Slot) (hclean : ∀ s, d.isDirty s = false)
    (hclear : Clear bad d) (hclink : Slot clink) (hview : d.view clink = some v) (hnext : Slot next)
    (hv : d.view next = some u) (hne : next ≠ clink) (hread : Readable bad clink) :
    wp (joinNext clink length next) d fun r e => r = .ok clink ∧
      (Readable bad next → Clear bad e ∧ wp (joinNext clink length next) (hide bad d) fun r' e' =>
        r' = r ∧ e' = hide bad e) ∧
      (¬ Readable bad next → wp (joinNext clink length next) (hide bad d) fun r' _ =>
        ∃ err, r' = .error err) := by
  have hs₀ : Shows d d.view [] d := ⟨rfl, rfl, hsound, fun _ => rfl, fun s => by simp [hclean]⟩
  obtain ⟨e₁, hget, hs₁⟩ := hs₀.get hnext hv
  refine wp_alike hclear ?_ (fun hgood => ?_) fun hnot => ?_
  · unfold joinNext
    simp only [wp_ofState_bind, hget, wp_modify_bind, wp_read_bind, wp_pure_iff]
  · unfold joinNext
    apply alike_get_bind hgood hget
    apply alike_modify_bind (hide_setHeader hread _) (·.setHeader hread _)
    apply alike_modify_bind (hide_setHeader hread _) (·.setHeader hread _)
    apply alike_modify_bind (hide_apaMakeEmpty hread) (·.makeEmpty hread)
    apply alike_read_bind (header_hide hread)
    apply alike_modify_bind (hide_setHeader hgood _) (·.setHeader hgood _)
    apply alike_modify_bind (hide_setDirty hgood) (·.setDirty hgood)
    obtain ⟨created, hs₂⟩ := ((hs₁.setHeader hclink fun h => { h with length := length }).setHeader
      hclink fun h => { h with next := next }).makeEmpty hclink (by simp [hview])
    refine alike_flush_bind ((hs₂.setHeader hnext _).setDirty hnext (by simp [hne, hv])) (by simp) ?_
    exact alike_modify_bind (hide_apaCacheFree hgood) (·.free hgood) (alike_pure _)
  · unfold joinNext
    simp only [wp_ofState_bind, get_hidden hclear hnot, wp_modify_bind, wp_pure_iff]
    exact ⟨_, rfl⟩

/-! ### One side -/

theorem view_behind (h : Steady π w d (m :: (A ++ x :: B))) :
    Slot (headerLinks.head B 0) ∧ (∃ v, d.view (headerLinks.head B 0) = some v) ∧
      ∀ y ∈ A ++ [x], y.start ≠ headerLinks.head B 0 := by
  have htiles := h.tiles
  cases B with
  | nil =>
    obtain ⟨vm, hvm, -⟩ := (show Steady π w d ([] ++ m :: (A ++ x :: [])) from h).node
    rw [htiles.1] at hvm
    exact ⟨⟨0, rfl⟩, ⟨vm, hvm⟩, fun y hy => htiles.keys.ne_zero hy⟩
  | cons b B =>
    obtain ⟨vb, hvb, -⟩ := (show Steady π w d ((m :: (A ++ [x])) ++ b :: B) by simpa using h).node
    refine ⟨(htiles.part (x := b) (by simp)).slot, ⟨vb, hvb⟩, fun y hy => ?_⟩
    rw [show m :: (A ++ x :: b :: B) = (m :: (A ++ [x])) ++ b :: B by simp, tiles_append] at htiles
    have hle := htiles.1.end_le (List.mem_cons_of_mem m hy)
    have := (htiles.1.part (List.mem_cons_of_mem m hy)).two_le
    have hb := htiles.2.1
    rw [headerLinks.head_cons, headerLinks_key]
    omega

private theorem apaDeleteFixPrev_hide (h : Steady π w d (m :: (A ++ x :: B))) (hclear : Clear bad d)
    (hread : Readable bad x.start) :
    wp (apaDeleteFixPrev x.start) d fun r e => ∃ s, r = .ok s ∧ s ≤ x.start ∧
      ((∀ y ∈ m :: A, s ≤ y.start + y.length → Readable bad y.start) ∧
          (s ≠ x.start → Readable bad (headerLinks.head B 0)) ∧ Clear bad e ∧ Readable bad s ∧
          wp (apaDeleteFixPrev x.start) (hide bad d) (fun r' e' => r' = r ∧ e' = hide bad e) ∨
        ((∃ y ∈ m :: A, s ≤ y.start + y.length ∧ ¬ Readable bad y.start) ∨
            s ≠ x.start ∧ ¬ Readable bad (headerLinks.head B 0)) ∧
          wp (apaDeleteFixPrev x.start) (hide bad d) fun r' _ => ∃ err, r' = .error err) := by
  obtain ⟨vx, hvx, hxbody, -, hxnext⟩ := (show Steady π w d ((m :: A) ++ x :: B) from h).node
  have hxlength : vx.length = x.length := ApaHeader.length_of_body hxbody
  obtain ⟨hslot, ⟨vb, hvb⟩, hbehind⟩ := view_behind h
  rw [apaDeleteFixPrev_eq]
  simp only [wp_read_bind, header_hide hread, header_of_view hvx, hxlength, hxnext]
  refine wp_bind (((fixPrevLoop_spec h).and_wlp
    (fixPrevLoop_hide h (.refl _ _) hclear hread).wlp).mono ?_)
  rintro r e ⟨⟨A', F, hAF, hfree, hsame, hr, -, -, -, -⟩, s, l', rfl, hle, hcases⟩
  obtain ⟨rfl, rfl⟩ := Prod.mk.inj (Except.ok.inj hr)
  cases F with
  | nil =>
    simp only [List.nil_append, total_cons, total_nil, Nat.add_zero, ne_eq, not_true_eq_false,
      if_false, wp_pure_iff, headerLinks.head_cons, headerLinks_key] at hcases ⊢
    refine ⟨x.start, rfl, le_refl _, ?_⟩
    rcases hcases with ⟨hall, hclear', hs, hrun⟩ | ⟨hfound, hrun⟩
    · refine .inl ⟨hall, fun hne => (hne rfl).elim, hclear', hs, wp_bind (hrun.mono ?_)⟩
      rintro _ _ ⟨rfl, rfl⟩
      simp only [not_true_eq_false, if_false, wp_pure_iff, and_self]
    · refine .inr ⟨.inl hfound, wp_bind (hrun.mono ?_)⟩
      rintro _ _ ⟨err, rfl⟩
      exact wp_pure ⟨err, rfl⟩
  | cons f F =>
    have htiles := h.tiles
    have hfA : f ∈ A := by simp [hAF]
    have hfP : f ∈ m :: (A ++ x :: B) := by simp [hfA]
    have hfslot := (htiles.part hfP).slot
    obtain ⟨vf, hvf⟩ : ∃ vf, d.view f.start = some vf := by
      obtain ⟨v, hv, -⟩ := Linked.Chain.mem h.ring hfP
      exact ⟨v, hv⟩
    have hlong : total (f :: F ++ [x]) ≠ x.length := by
      have := (htiles.part hfP).two_le
      simp only [List.cons_append, total_cons, total_append, total_nil]
      omega
    have hfx : f.start ≠ x.start := by
      rw [← List.cons_append, tiles_append] at htiles
      have := htiles.1.end_le (List.mem_cons_of_mem m hfA)
      have := (htiles.1.part (List.mem_cons_of_mem m hfA)).two_le
      have := htiles.2.1
      omega
    have hclean : ∀ s, e.isDirty s = false := fun s => by rw [hsame.isDirty, h.clean]
    have hvf' := (hsame.view f.start).trans hvf
    have hvb' := (hsame.view _).trans hvb
    have hfb := (hbehind f (List.mem_append_left _ hfA)).symm
    simp only [ne_eq, hlong, not_false_eq_true, if_true]
    rcases hcases with ⟨hall, hclear', hs, hrun⟩ | ⟨hfound, hrun⟩
    · refine (joinPrev_hide (hsame.sound h.sound) hclean hclear' hfslot hvf' hslot hvb' hfb hs).mono ?_
      rintro r e₁ ⟨rfl, hgood, hbad⟩
      refine ⟨f.start, rfl, hle, ?_⟩
      by_cases hrb : Readable bad (headerLinks.head B 0)
      · obtain ⟨hclear₁, hjoin⟩ := hgood hrb
        refine .inl ⟨hall, fun _ => hrb, hclear₁, hs, wp_bind (hrun.mono ?_)⟩
        rintro _ _ ⟨rfl, rfl⟩
        simp only [hlong, not_false_eq_true, if_true]
        exact hjoin
      · refine .inr ⟨.inr ⟨hfx, hrb⟩, wp_bind (hrun.mono ?_)⟩
        rintro _ _ ⟨rfl, rfl⟩
        simp only [hlong, not_false_eq_true, if_true]
        exact hbad hrb
    · refine (joinPrev_hide (hsame.sound h.sound) hclean clear_none hfslot hvf' hslot hvb' hfb
        ⟨rfl, rfl⟩).mono ?_
      rintro r e₁ ⟨rfl, -, -⟩
      refine ⟨f.start, rfl, hle, .inr ⟨.inl hfound, wp_bind (hrun.mono ?_)⟩⟩
      rintro _ _ ⟨err, rfl⟩
      exact wp_pure ⟨err, rfl⟩

private theorem view_head (h : Steady π w d (m :: (A ++ x :: (R ++ B)))) :
    Slot (headerLinks.head B 0) ∧ (∃ v, d.view (headerLinks.head B 0) = some v) ∧
      headerLinks.head B 0 ≠ x.start := by
  rcases List.eq_nil_or_concat R with rfl | ⟨R', r, rfl⟩
  · obtain ⟨hslot, hview, hne⟩ := view_behind h
    exact ⟨hslot, hview, (hne x (by simp)).symm⟩
  · obtain ⟨hslot, hview, hne⟩ := view_behind
      (show Steady π w d (m :: ((A ++ x :: R') ++ r :: B)) by simpa using h)
    exact ⟨hslot, hview, (hne x (by simp)).symm⟩

private theorem apaDeleteFixNext_hide (h : Steady π w d (m :: (A ++ x :: B))) (hclear : Clear bad d)
    (hread : Readable bad x.start) (hB : used B ≠ []) :
    wp (apaDeleteFixNext x.start) d fun r e => r = .ok x.start ∧ ∃ l,
      l * 2 ^ (Side.right.skip (buddySides A.reverse x.start x.length B)).length =
        x.length * 2 ^ (buddySides A.reverse x.start x.length B).length ∧
      ((∀ y ∈ B, y.start ≤ x.start + l → Readable bad y.start) ∧ Clear bad e ∧
          wp (apaDeleteFixNext x.start) (hide bad d) (fun r' e' => r' = r ∧ e' = hide bad e) ∨
        (∃ y ∈ B, y.start ≤ x.start + l ∧ ¬ Readable bad y.start) ∧
          wp (apaDeleteFixNext x.start) (hide bad d) fun r' _ => ∃ err, r' = .error err) := by
  obtain ⟨vx, hvx, hxbody, -, hxnext⟩ := (show Steady π w d ((m :: A) ++ x :: B) from h).node
  have hxlength : vx.length = x.length := ApaHeader.length_of_body hxbody
  have hxstart : vx.start = x.start := ApaHeader.start_of_body hxbody
  have htiles := h.tiles
  have hxslot := (htiles.part (x := x) (by simp)).slot
  rw [apaDeleteFixNext_eq]
  simp only [wp_read_bind, header_hide hread, header_of_view hvx, hxlength, hxstart, hxnext]
  have hsplit : Steady π w d (m :: ((A ++ [x]) ++ B)) := by simpa using h
  refine wp_bind (((fixNextLoop_spec h).and_wlp
    (fixNextLoop_hide hsplit (.refl _ _) hclear).wlp).mono ?_)
  rintro r e ⟨⟨G, B', rfl, hfree, hsame, hr, -, hstop, hsides, hdouble⟩, t, l', rfl, -, hcases⟩
  obtain ⟨rfl, rfl⟩ := Prod.mk.inj (Except.ok.inj hr)
  have hB' : B' ≠ [] := by
    rintro rfl
    rw [List.append_nil, used_eq_nil hfree] at hB
    exact hB rfl
  obtain ⟨b, B'', rfl⟩ := List.exists_cons_of_ne_nil hB'
  obtain ⟨hbslot, ⟨vb, hvb⟩, hbx⟩ := view_head h
  have hb0 : b.start ≠ 0 := htiles.keys.ne_zero (by simp)
  have hend : b.start = x.start + total (x :: G) := by
    have hb := htiles
    rw [show m :: (A ++ x :: (G ++ b :: B'')) = (m :: A) ++ ((x :: G) ++ b :: B'') by simp,
      tiles_append, tiles_append] at hb
    obtain ⟨-, ⟨hx, -⟩, hb, -⟩ := hb
    omega
  rw [headerLinks.head_cons, headerLinks_key] at hbslot hvb hbx hcases
  have hreach : ∀ y : ApaHeader, (b.start = 0 ∨ y.start ≤ b.start) ↔
      y.start ≤ x.start + total (x :: G) := by
    intro y
    rw [hend] at hb0 ⊢
    simp only [hb0, false_or]
  simp only [hreach] at hcases
  have hdoubled : total (x :: G) *
      2 ^ (Side.right.skip (buddySides A.reverse x.start x.length (G ++ b :: B''))).length =
        x.length * 2 ^ (buddySides A.reverse x.start x.length (G ++ b :: B'')).length := by
    rw [hsides, Side.skip_append (buddySides_head_right hstop)]
    exact doubled_length hdouble
  cases G with
  | nil =>
    rw [total_cons, total_nil, Nat.add_zero] at hcases hdoubled ⊢
    simp only [headerLinks.head_cons, headerLinks_key, ne_eq, not_true_eq_false, if_false, wp_pure_iff]
    refine ⟨trivial, x.length, hdoubled, ?_⟩
    rcases hcases with ⟨hall, hclear', hrun⟩ | ⟨hfound, hrun⟩
    · refine .inl ⟨hall, hclear', wp_bind (hrun.mono ?_)⟩
      rintro _ _ ⟨rfl, rfl⟩
      simp only [not_true_eq_false, if_false, wp_pure_iff, and_self]
    · refine .inr ⟨hfound, wp_bind (hrun.mono ?_)⟩
      rintro _ _ ⟨err, rfl⟩
      exact wp_pure ⟨err, rfl⟩
  | cons g G =>
    have hlong : total (x :: g :: G) ≠ x.length := by
      have := (htiles.part (x := g) (by simp)).two_le
      simp only [total_cons]
      omega
    have hclean : ∀ s, e.isDirty s = false := fun s => by rw [hsame.isDirty, h.clean]
    have hvx' := (hsame.view x.start).trans hvx
    have hvb' := (hsame.view b.start).trans hvb
    have hsound := hsame.sound h.sound
    simp only [headerLinks.head_cons, headerLinks_key, ne_eq, hlong, not_false_eq_true, if_true]
    simp only [List.cons_append, headerLinks.head_cons, headerLinks_key] at hcases ⊢
    rcases hcases with ⟨hall, hclear', hrun⟩ | ⟨hfound, hrun⟩
    · refine (joinNext_hide hsound hclean hclear' hxslot hvx' hbslot hvb' hbx hread).mono ?_
      rintro r e₁ ⟨rfl, hgood, -⟩
      have hrb : Readable bad b.start := hall b (by simp) (le_of_eq hend)
      obtain ⟨hclear₁, hjoin⟩ := hgood hrb
      refine ⟨rfl, _, hdoubled, .inl ⟨hall, hclear₁, wp_bind (hrun.mono ?_)⟩⟩
      rintro _ _ ⟨rfl, rfl⟩
      simp only [hlong, not_false_eq_true, if_true]
      exact hjoin
    · refine (joinNext_hide hsound hclean clear_none hxslot hvx' hbslot hvb' hbx ⟨rfl, rfl⟩).mono ?_
      rintro r e₁ ⟨rfl, -, -⟩
      refine ⟨rfl, _, hdoubled, .inr ⟨hfound, wp_bind (hrun.mono ?_)⟩⟩
      rintro _ _ ⟨err, rfl⟩
      exact wp_pure ⟨err, rfl⟩

/-! ### Both sides -/

/-- `q` lies in the block of `y` or touches it. -/
def Beside (y q : ApaHeader) : Prop := y.start ≤ q.start + q.length ∧ q.start ≤ y.start + y.length

variable {y q : ApaHeader} {A' B' : List ApaHeader}

/-- The block has grown over `x`, and the partitions that are gone lie in it. -/
theorem Fixed.inside (h : Fixed A x B A' y B') (htiles : Tiles 0 (m :: (A ++ x :: B)))
    (htiles' : Tiles 0 (m :: (A' ++ y :: B'))) :
    y.start ≤ x.start ∧ x.start + x.length ≤ y.start + y.length ∧
      ∀ q, (q ∈ m :: (A' ++ B') → q ∈ m :: (A ++ B)) ∧
        (q ∈ m :: (A ++ B) → q ∈ m :: (A' ++ B') ∨ y.start ≤ q.start ∧
          q.start + q.length ≤ y.start + y.length) := by
  obtain ⟨F, G, rfl, rfl, -, hlength⟩ := h.shape
  rw [show m :: (A' ++ F ++ x :: (G ++ B')) = (m :: A') ++ (F ++ (x :: G ++ B')) by simp,
    tiles_append, tiles_append, tiles_append] at htiles
  rw [← List.cons_append, tiles_append] at htiles'
  obtain ⟨-, hF, ⟨hx, -, hG⟩, -⟩ := htiles
  obtain ⟨-, hy, -⟩ := htiles'
  rw [total_append, total_cons] at hlength
  refine ⟨by omega, by omega, fun q => ⟨fun hq => ?_, fun hq => ?_⟩⟩
  · simp only [List.mem_cons, List.mem_append] at hq ⊢
    tauto
  · have hq' : q ∈ m :: (A' ++ B') ∨ q ∈ F ∨ q ∈ G := by
      simp only [List.mem_cons, List.mem_append] at hq ⊢
      tauto
    rcases hq' with hq | hq | hq
    · exact .inl hq
    · have := hF.le_start hq
      have := hF.end_le hq
      exact .inr (by omega)
    · have := hG.le_start hq
      have := hG.end_le hq
      exact .inr (by omega)

private theorem beside_left (htiles : Tiles 0 (m :: (A ++ x :: B))) (hq : q ∈ m :: A)
    (hend : x.start ≤ y.start + y.length) : Beside y q ↔ y.start ≤ q.start + q.length := by
  rw [← List.cons_append, tiles_append] at htiles
  have := htiles.1.end_le hq
  have := htiles.2.1
  exact ⟨fun h => h.1, fun h => ⟨h, by omega⟩⟩

theorem beside_right (htiles : Tiles 0 (m :: (A ++ x :: B))) (hq : q ∈ B)
    (hstart : y.start ≤ x.start) : Beside y q ↔ q.start ≤ y.start + y.length := by
  rw [← List.cons_append, tiles_append] at htiles
  have := htiles.2.2.2.le_start hq
  have := htiles.2.1
  exact ⟨fun h => h.2, fun h => ⟨by omega, h⟩⟩

theorem fixNext_both (h : Steady noPromise w d (m :: (A ++ x :: B))) (hclear : Clear bad d)
    (hread : Readable bad x.start) (hB : used B ≠ []) :
    wp (apaDeleteFixNext x.start) d fun r e => ∃ y B', r = .ok y.start ∧ y.start = x.start ∧
      Fixed A x B A y B' ∧ Taken .right A x B A y B' ∧ Steady noPromise w e (m :: (A ++ y :: B')) ∧
      ((∀ q ∈ B, q.start ≤ y.start + y.length → Readable bad q.start) ∧ Clear bad e ∧
          wp (apaDeleteFixNext x.start) (hide bad d) (fun a s => a = .ok y.start ∧ s = hide bad e) ∨
        (∃ q ∈ B, q.start ≤ y.start + y.length ∧ ¬ Readable bad q.start) ∧
          wp (apaDeleteFixNext x.start) (hide bad d) fun a _ => ∃ err, a = .error err) := by
  refine ((apaDeleteFixNext_spec h trivial).and_wlp (apaDeleteFixNext_hide h hclear hread hB).wlp).mono ?_
  rintro _ e ⟨⟨y, B', rfl, hfixed, htaken, hsteady, -⟩, hstart, l, hl, hcases⟩
  have hstart := Except.ok.inj hstart
  have hlength : l = y.length := Nat.eq_of_mul_eq_mul_right (Nat.two_pow_pos _) (hl.trans htaken.2.symm)
  refine ⟨y, B', rfl, hstart, hfixed, htaken, hsteady, ?_⟩
  simp only [hlength, hstart] at hcases ⊢
  exact hcases

/-- A round over both sides, on both drives. -/
theorem fixRound_hide (h : Steady noPromise w d (m :: (A ++ x :: B))) (hclear : Clear bad d)
    (hread : Readable bad x.start) (hB : used B ≠ []) :
    wp (apaDeleteFixPrev x.start) d fun r e => ∃ c, r = .ok c ∧
      wp (apaDeleteFixNext c) e fun r' e' => ∃ A' y B', r' = .ok y.start ∧ Fixed A x B A' y B' ∧
        buddySides A'.reverse y.start y.length B' =
          skipBoth 1 (buddySides A.reverse x.start x.length B) ∧
        y.length * 2 ^ (buddySides A'.reverse y.start y.length B').length =
          x.length * 2 ^ (buddySides A.reverse x.start x.length B).length ∧
        Steady noPromise w e' (m :: (A' ++ y :: B')) ∧
        ((∀ q ∈ m :: (A ++ B), Beside y q → Readable bad q.start) ∧ Clear bad e' ∧
            Readable bad y.start ∧ wp (apaDeleteFixPrev x.start) (hide bad d) (fun a s => a = .ok c ∧
              wp (apaDeleteFixNext c) s fun a' s' => a' = .ok y.start ∧ s' = hide bad e') ∨
          (∃ q ∈ m :: (A ++ B), Beside y q ∧ ¬ Readable bad q.start) ∧
            wp (apaDeleteFixPrev x.start) (hide bad d) fun a s => (∃ err, a = .error err) ∨
              a = .ok c ∧ wp (apaDeleteFixNext c) s fun a' _ => ∃ err, a' = .error err) := by
  have hne : B ≠ [] := by
    rintro rfl
    exact hB rfl
  refine ((apaDeleteFixPrev_spec h (.inl hne) trivial).and_wlp
    (apaDeleteFixPrev_hide h hclear hread).wlp).mono ?_
  rintro _ e ⟨⟨A', y, rfl, hfixed, htaken, hsteady, -, -⟩, s, hs, -, hcases⟩
  obtain rfl := Except.ok.inj hs
  refine ⟨y.start, rfl, ?_⟩
  have htiles := h.tiles
  -- what the second half makes of the first one
  have hround : ∀ z B', Fixed A' y B A' z B' → Taken .right A' y B A' z B' →
      buddySides A'.reverse z.start z.length B' =
          skipBoth 1 (buddySides A.reverse x.start x.length B) ∧
        z.length * 2 ^ (buddySides A'.reverse z.start z.length B').length =
          x.length * 2 ^ (buddySides A.reverse x.start x.length B).length := by
    intro z B' _ htaken'
    have hsides : buddySides A'.reverse z.start z.length B' =
        skipBoth 1 (buddySides A.reverse x.start x.length B) := by
      rw [htaken'.1, htaken.1]
      rfl
    exact ⟨hsides, by rw [htaken'.1, htaken'.2, htaken.1, htaken.2]⟩
  rcases hcases with ⟨hall, hbehind, hclear', hy, hrun⟩ | ⟨hfound, hrun⟩
  · refine (fixNext_both hsteady hclear' hy hB).mono ?_
    rintro _ e' ⟨z, B', rfl, hstart, hfixed', htaken', hsteady', hcases⟩
    obtain ⟨hsides, hlength⟩ := hround z B' hfixed' htaken'
    obtain ⟨hlo, hhi, -⟩ := (hfixed.trans hfixed').inside htiles hsteady'.tiles
    refine ⟨A', z, B', rfl, hfixed.trans hfixed', hsides, hlength, hsteady', ?_⟩
    have hx2 := (htiles.part (x := x) (by simp)).two_le
    rcases hcases with ⟨hall', hclear'', hrun'⟩ | ⟨⟨q, hq, hqz, hbad⟩, hrun'⟩
    · refine .inl ⟨fun q hq hbeside => ?_, hclear'', hstart ▸ hy, hrun.mono ?_⟩
      · rw [← List.cons_append, List.mem_append] at hq
        rcases hq with hq | hq
        · exact hall q hq (hstart ▸ hbeside.1)
        · exact hall' q hq hbeside.2
      · rintro _ _ ⟨rfl, rfl⟩
        exact ⟨rfl, hrun'⟩
    · refine .inr ⟨⟨q, ?_, (beside_right htiles hq hlo).mpr hqz, hbad⟩, hrun.mono ?_⟩
      · rw [← List.cons_append]
        exact List.mem_append_right _ hq
      · rintro _ _ ⟨rfl, rfl⟩
        exact .inr ⟨rfl, hrun'⟩
  · refine (fixNext_both hsteady clear_none ⟨rfl, rfl⟩ hB).mono ?_
    rintro _ e' ⟨z, B', rfl, hstart, hfixed', htaken', hsteady', -⟩
    obtain ⟨hsides, hlength⟩ := hround z B' hfixed' htaken'
    obtain ⟨hlo, hhi, -⟩ := (hfixed.trans hfixed').inside htiles hsteady'.tiles
    refine ⟨A', z, B', rfl, hfixed.trans hfixed', hsides, hlength, hsteady', .inr ⟨?_, hrun.mono ?_⟩⟩
    · rcases hfound with ⟨q, hq, hqy, hbad⟩ | ⟨-, hbad⟩
      · refine ⟨q, ?_, (beside_left htiles hq (by omega)).mpr (hstart ▸ hqy), hbad⟩
        rw [← List.cons_append]
        exact List.mem_append_left _ hq
      · obtain ⟨b, B, rfl⟩ := List.exists_cons_of_ne_nil hne
        refine ⟨b, by simp, (beside_right htiles List.mem_cons_self hlo).mpr ?_, hbad⟩
        rw [← List.cons_append, tiles_append] at htiles
        obtain ⟨-, hx, -, hb, -⟩ := htiles
        omega
    · rintro _ _ ⟨err, rfl⟩
      exact .inl ⟨err, rfl⟩

theorem fixBoth_round {i c₀ : Nat} {Q : Option Nat → Device → Prop}
    (h : wp (apaDeleteFixPrev c₀) d fun a s => ∃ c, a = .ok c ∧
      wp (apaDeleteFixNext c) s fun a' s' => ∃ c₁, a' = .ok c₁ ∧ wp (fixBoth i c₁) s' Q) :
    wp (fixBoth (i + 1) c₀) d Q := by
  rw [fixBoth]
  refine wp_bind (h.mono ?_)
  rintro _ s ⟨c, rfl, hnext⟩
  refine wp_bind (hnext.mono ?_)
  rintro _ _ ⟨c₁, rfl, hrest⟩
  exact hrest

theorem fixBoth_follows {i c₀ c c₁ : Nat} {Q : Option Nat → Device → Prop}
    (hrun : wp (apaDeleteFixPrev c₀) d fun a s => a = .ok c ∧
      wp (apaDeleteFixNext c) s fun a' s' => a' = .ok c₁ ∧ s' = e)
    (hrest : wp (fixBoth i c₁) e Q) : wp (fixBoth (i + 1) c₀) d Q := by
  refine fixBoth_round (hrun.mono ?_)
  rintro _ s ⟨rfl, hnext⟩
  refine ⟨c, rfl, hnext.mono ?_⟩
  rintro _ _ ⟨rfl, rfl⟩
  exact ⟨c₁, rfl, hrest⟩

theorem fixBoth_stops {i c₀ c : Nat}
    (hrun : wp (apaDeleteFixPrev c₀) d fun a s => (∃ err, a = .error err) ∨
      a = .ok c ∧ wp (apaDeleteFixNext c) s fun a' _ => ∃ err, a' = .error err) :
    wp (fixBoth (i + 1) c₀) d fun a _ => a = none := by
  rw [fixBoth]
  refine wp_bind (hrun.mono ?_)
  rintro _ s (⟨err, rfl⟩ | ⟨rfl, hnext⟩)
  · exact wp_pure rfl
  · refine wp_bind (hnext.mono ?_)
    rintro _ _ ⟨err, rfl⟩
    exact wp_pure rfl

/-- Rounds over both sides, on both drives: the same, or none where a header in the block they make or beside it cannot be read. -/
theorem fixBoth_hide (i : Nat) (h : Steady noPromise w d (m :: (A ++ x :: B))) (hclear : Clear bad d)
    (hread : Readable bad x.start) (hB : used B ≠ []) :
    wp (fixBoth (i + 1) x.start) d fun r e => ∃ A' y B', r = some y.start ∧ Fixed A x B A' y B' ∧
      y.length * 2 ^ (skipBoth (i + 1) (buddySides A.reverse x.start x.length B)).length =
        x.length * 2 ^ (buddySides A.reverse x.start x.length B).length ∧
      Steady noPromise w e (m :: (A' ++ y :: B')) ∧
      ((∀ q ∈ m :: (A ++ B), Beside y q → Readable bad q.start) ∧ Clear bad e ∧
          Readable bad y.start ∧ wp (fixBoth (i + 1) x.start) (hide bad d) (fun a s =>
            a = some y.start ∧ s = hide bad e) ∨
        (∃ q ∈ m :: (A ++ B), Beside y q ∧ ¬ Readable bad q.start) ∧
          wp (fixBoth (i + 1) x.start) (hide bad d) fun a _ => a = none) := by
  induction i generalizing d A x B bad with
  | zero =>
    refine fixBoth_round ((fixRound_hide h hclear hread hB).mono ?_)
    rintro _ e ⟨c, rfl, hnext⟩
    refine ⟨c, rfl, hnext.mono ?_⟩
    rintro _ e' ⟨A', y, B', rfl, hfixed, hsides, hlength, hsteady, hcases⟩
    refine ⟨y.start, rfl, ?_⟩
    rw [hsides] at hlength
    refine wp_pure ⟨A', y, B', rfl, hfixed, hlength, hsteady, ?_⟩
    rcases hcases with ⟨hall, hclear', hy, hrun⟩ | ⟨hfound, hrun⟩
    · exact .inl ⟨hall, hclear', hy, fixBoth_follows hrun (wp_pure ⟨rfl, rfl⟩)⟩
    · exact .inr ⟨hfound, fixBoth_stops hrun⟩
  | succ i ih =>
    refine fixBoth_round ((fixRound_hide h hclear hread hB).mono ?_)
    rintro _ e ⟨c, rfl, hnext⟩
    refine ⟨c, rfl, hnext.mono ?_⟩
    rintro _ e' ⟨A', y, B', rfl, hfixed, hsides, hlength, hsteady, hcases⟩
    refine ⟨y.start, rfl, ?_⟩
    have hB' : used B' ≠ [] := by
      rw [hfixed.used_eq.2]
      exact hB
    have hskip : skipBoth (i + 1 + 1) (buddySides A.reverse x.start x.length B) =
        skipBoth (i + 1) (buddySides A'.reverse y.start y.length B') := by
      rw [hsides]
      exact Function.iterate_succ_apply ..
    obtain ⟨-, -, hgone⟩ := hfixed.inside h.tiles hsteady.tiles
    rcases hcases with ⟨hall, hclear', hy, hrun⟩ | ⟨⟨q, hq, hqy, hbad⟩, hrun⟩
    · refine (ih hsteady hclear' hy hB').mono ?_
      rintro _ e'' ⟨A'', z, B'', rfl, hfixed', hlength', hsteady', hcases'⟩
      refine ⟨A'', z, B'', rfl, hfixed.trans hfixed', by rw [hskip, hlength', hlength], hsteady', ?_⟩
      rcases hcases' with ⟨hall', hclear'', hz, hrun'⟩ | ⟨⟨q, hq, hfound⟩, hrun'⟩
      · refine .inl ⟨fun q hq hqz => ?_, hclear'', hz, fixBoth_follows hrun hrun'⟩
        rcases (hgone q).2 hq with hq' | hinside
        · exact hall' q hq' hqz
        · exact hall q hq ⟨by omega, by omega⟩
      · exact .inr ⟨⟨q, (hgone q).1 hq, hfound⟩, fixBoth_follows hrun hrun'⟩
    · refine (ih hsteady clear_none ⟨rfl, rfl⟩ hB').mono ?_
      rintro _ e'' ⟨A'', z, B'', rfl, hfixed', hlength', hsteady', -⟩
      obtain ⟨hlo, hhi, -⟩ := hfixed'.inside hsteady.tiles hsteady'.tiles
      exact ⟨A'', z, B'', rfl, hfixed.trans hfixed', by rw [hskip, hlength', hlength], hsteady',
        .inr ⟨⟨q, hq, ⟨hlo.trans hqy.1, hqy.2.trans hhi⟩, hbad⟩, fixBoth_stops hrun⟩⟩

/-! ### The end of the table -/

/-- A pass that cuts the last partition off, on both drives. -/
private theorem cutPass_hide {mbr : ApaHeader} {Q : Nat ⊕ Option Nat → Device → Prop}
    (hspec : wp (cutPass 0 s) d Q) (hsound : d.Sound Slot) (hclean : ∀ s, d.isDirty s = false)
    (hclear : Clear bad d) (hs : Slot s) (hz : d.view s = some z) (hread : Readable bad s)
    (hprev : Slot z.prev) (hu : d.view z.prev = some u) (hm : d.view 0 = some mbr)
    (h0 : Readable bad 0) :
    wp (cutPass 0 s) d fun r e => Q r e ∧
      (Readable bad z.prev → Clear bad e ∧ wp (cutPass 0 s) (hide bad d) fun r' e' =>
        r' = r ∧ e' = hide bad e) ∧
      (¬ Readable bad z.prev → wp (cutPass 0 s) (hide bad d) fun r' _ => r' = .inr none) := by
  have hs₀ : Shows d d.view [] d := ⟨rfl, rfl, hsound, fun _ => rfl, fun s => by simp [hclean]⟩
  obtain ⟨e₁, hget, hs₁⟩ := (hs₀.free hs).get hprev hu
  have hhead : (apaCacheFree s d).header s = z := by
    rw [(same_apaCacheFree hs).header]
    exact header_of_view hz
  refine wp_alike hclear hspec (fun hgood => ?_) fun hnot => ?_
  · unfold cutPass
    apply alike_modify_bind (hide_apaCacheFree hread) (·.free hread)
    apply alike_read_bind (header_hide hread)
    rw [hhead]
    apply alike_get_bind hgood hget
    apply alike_modify_bind (hide_setHeader hgood _) (·.setHeader hgood _)
    apply alike_modify_bind (hide_setDirty hgood) (·.setDirty hgood)
    apply alike_read_bind (header_hide hgood)
    apply alike_modify_bind (hide_setHeader h0 _) (·.setHeader h0 _)
    apply alike_modify_bind (hide_setDirty h0) (·.setDirty h0)
    have hs₂ := (hs₁.setHeader hprev fun h => { h with next := 0 }).setDirty hprev (by simp [hu])
    refine alike_flush_bind ((hs₂.setHeader ⟨0, rfl⟩ _).setDirty (s := 0) ⟨0, rfl⟩ ?_) (by simp) ?_
    · by_cases hu0 : 0 = z.prev
      · simp [← hu0, hm]
      · simp [hu0, hm]
    apply alike_read_bind (header_hide hgood)
    split
    · exact alike_pure _
    · exact alike_pure _
  · unfold cutPass
    simp only [wp_modify_bind, wp_read_bind, hide_apaCacheFree hread, header_hide hread, hhead,
      wp_ofState_bind, get_hidden (hclear.free hread) hnot, wp_pure_iff]

/-- From `q` on only empty partitions lead to the end of the partitions before the one that is cut off. -/
def LeadsToEnd (P : List ApaHeader) (q : ApaHeader) : Prop :=
  ∃ I F, P = I ++ q :: F ∧ ∀ f ∈ F, f.isFree = true

private theorem leadsToEnd_concat {I : List ApaHeader} :
    LeadsToEnd (I ++ [u]) q ↔ q = u ∨ u.isFree = true ∧ LeadsToEnd I q := by
  constructor
  · rintro ⟨J, F, heq, hfree⟩
    rcases List.eq_nil_or_concat F with rfl | ⟨F', f, rfl⟩
    · obtain ⟨-, hq⟩ := List.append_inj' heq rfl
      exact .inl (List.cons.inj hq).1.symm
    · rw [List.concat_eq_append, ← List.cons_append, ← List.append_assoc] at heq
      obtain ⟨rfl, hu⟩ := List.append_inj' heq rfl
      rw [(List.cons.inj hu).1]
      exact .inr ⟨hfree f (by simp), J, F', rfl, fun f hf => hfree f (by simp [hf])⟩
  · rintro (rfl | ⟨hfree, J, F, rfl, hF⟩)
    · exact ⟨I, [], rfl, by simp⟩
    · refine ⟨J, F ++ [u], by simp, fun f hf => ?_⟩
      rcases List.mem_append.mp hf with hf | hf
      · exact hF f hf
      · rw [List.mem_singleton.mp hf]
        exact hfree

/-- The loop that cuts the end off, on both drives. -/
theorem cutLoop_hide (h : Steady noPromise w d (m :: (A ++ [x]))) (hclear : Clear bad d)
    (hread : Readable bad x.start) (h0 : Readable bad 0) :
    wp (cutLoop x.start 0) d fun r e => ∃ c, r = some c ∧
      ((∀ q, LeadsToEnd (m :: A) q → Readable bad q.start) ∧ Clear bad e ∧ Readable bad c ∧
          wp (cutLoop x.start 0) (hide bad d) (fun r' e' => r' = r ∧ e' = hide bad e) ∨
        (∃ q, LeadsToEnd (m :: A) q ∧ ¬ Readable bad q.start) ∧
          wp (cutLoop x.start 0) (hide bad d) fun r' _ => r' = none) := by
  generalize hn : A.length = n
  induction n using Nat.strongRecOn generalizing A x d bad with
  | ind n ih =>
  obtain ⟨I, u, hIu⟩ : ∃ I u, m :: A = I ++ [u] :=
    ⟨_, _, (List.dropLast_append_getLast (by simp)).symm⟩
  have htiles := h.tiles
  have hPx : m :: (A ++ [x]) = (I ++ [u]) ++ x :: [] := by
    rw [← hIu]
    simp
  have hPu : m :: (A ++ [x]) = I ++ u :: [x] := by
    rw [hPx]
    simp
  obtain ⟨vx, hvx, -, hxprev, -⟩ := (hPx ▸ h).node
  obtain ⟨vu, hvu, -⟩ := (hPu ▸ h).node
  obtain ⟨vm, hvm, -⟩ := (show Steady noPromise w d ([] ++ m :: (A ++ [x])) from h).node
  rw [htiles.1] at hvm
  rw [headerLinks.last_append] at hxprev
  have hxprev : vx.prev = u.start := hxprev
  have huslot := (htiles.part (x := u) (by simp [hPu])).slot
  have hxslot := (htiles.part (x := x) (by simp)).slot
  have hpass := cutPass_hide (cutPass_spec h trivial hIu) h.sound h.clean hclear hxslot hvx hread
    (hxprev ▸ huslot) (hxprev ▸ hvu) hvm h0
  simp only [hIu, leadsToEnd_concat]
  rw [cutLoop_eq]
  refine wp_loop_pass (hpass.mono ?_)
  rintro _ e ⟨⟨hsteady, rfl⟩, hgood, hbad⟩
  rw [hxprev] at hgood hbad
  have herror : ¬ Readable bad u.start →
      wp (loop (cutPass 0) x.start) (hide bad d) fun r' _ => r' = none := by
    intro hru
    refine wp_loop_pass ((hbad hru).mono ?_)
    rintro _ _ rfl
    rfl
  by_cases hufree : u.isFree = true
  · rw [if_pos hufree] at hgood ⊢
    obtain ⟨A', rfl, rfl⟩ := exists_concat_of_free htiles hIu hufree
    have hshorter : A'.length < n := by
      rw [← hn]
      simp
    by_cases hru : Readable bad u.start
    · obtain ⟨hclear', hrun⟩ := hgood hru
      refine (ih _ hshorter hsteady hclear' hru h0 rfl).mono ?_
      rintro _ e' ⟨c, rfl, hcases⟩
      refine ⟨c, rfl, ?_⟩
      rcases hcases with ⟨hall, hclear'', hc, hrest⟩ | ⟨⟨q, hq, hfound⟩, hrest⟩
      · refine .inl ⟨?_, hclear'', hc, loop_follows hrun hrest⟩
        rintro q (rfl | ⟨-, hq⟩)
        · exact hru
        · exact hall q hq
      · exact .inr ⟨⟨q, .inr ⟨hufree, hq⟩, hfound⟩, loop_follows hrun hrest⟩
    · refine (ih _ hshorter hsteady clear_none ⟨rfl, rfl⟩ ⟨rfl, rfl⟩ rfl).mono ?_
      rintro _ e' ⟨c, rfl, -⟩
      exact ⟨c, rfl, .inr ⟨⟨u, .inl rfl, hru⟩, herror hru⟩⟩
  · rw [if_neg hufree] at hgood ⊢
    refine ⟨u.start, rfl, ?_⟩
    by_cases hru : Readable bad u.start
    · obtain ⟨hclear', hrun⟩ := hgood hru
      refine .inl ⟨?_, hclear', hru, wp_loop_pass (hrun.mono ?_)⟩
      · rintro q (rfl | ⟨hfree, -⟩)
        · exact hru
        · exact (hufree hfree).elim
      · rintro _ _ ⟨rfl, rfl⟩
        exact ⟨rfl, rfl⟩
    · exact .inr ⟨⟨u, .inl rfl, hru⟩, herror hru⟩

end Device

end HddChecker.Apa
