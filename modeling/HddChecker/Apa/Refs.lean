import HddChecker.Apa.Partition

/-!
# References to buffers

A function of `libapa` that works on a buffer holds a reference to it, and gives it back with `apaCacheFree`. `Holding` says which references a function holds at a point of its run: the counts are those of everybody else, and one more for each place in its list.
-/

namespace HddChecker.Apa

open HddChecker Prog

namespace Device

/-- `nused` of the buffer that holds `sector`. -/
def refs (d : Device) (sector : Nat) : Nat :=
  match findBuf d.cache sector with
  | some b => b.nused
  | none => 0

variable {d : Device} {s t : Nat}

private theorem refs_congr {e : Device} (h : e.cache = d.cache) : e.refs t = d.refs t := by
  rw [refs, refs, h]

/-- What a change of a buffer that keeps its sector does to the counts. -/
theorem refs_store {f : ApaCache → ApaCache} (hf : ∀ b, (f b).sector = b.sector) (g : Nat → Nat)
    (hg : ∀ b, (f b).nused = g b.nused) (hread : (d.view s).isSome ∨ g 0 = 0) :
    (store s f d).refs t = if t = s then g (d.refs s) else d.refs t := by
  unfold view at hread
  unfold refs store
  cases hbuf : findBuf d.cache s with
  | some b =>
    have hb := (findBuf_some hbuf).2
    by_cases hts : t = s
    · subst hts
      simp [findBuf_mapBuf hf, hbuf, hb, hg]
    · cases hbuf' : findBuf d.cache t with
      | some c =>
        have hc := (findBuf_some hbuf').2
        simp [findBuf_mapBuf hf, hbuf', hc, hts]
      | none => simp [findBuf_mapBuf hf, hbuf', hts]
  | none =>
    simp only [hbuf] at hread
    cases hheader : apaReadHeader d.disk s with
    | some h =>
      by_cases hts : t = s
      · subst hts
        simp [findBuf_append, hbuf, hf, hg]
      · cases hbuf' : findBuf d.cache t <;> simp [findBuf_append, hbuf', hf, hts, Ne.symm hts]
    | none =>
      rw [hheader] at hread
      have hzero : g 0 = 0 := by simpa using hread
      by_cases hts : t = s
      · subst hts
        simp [hbuf, hzero]
      · simp [hts]

theorem refs_store_id {f : ApaCache → ApaCache} (hf : ∀ b, (f b).sector = b.sector)
    (hg : ∀ b, (f b).nused = b.nused) : (store s f d).refs t = d.refs t := by
  rw [refs_store hf id hg (.inr rfl)]
  split
  · rename_i hts
    rw [hts]
    rfl
  · rfl

@[simp] theorem refs_setHeader (g : ApaHeader → ApaHeader) :
    (setHeader s g d).refs t = d.refs t :=
  refs_store_id (f := fun b => { b with header := g b.header }) (fun _ => rfl) fun _ => rfl

@[simp] theorem refs_setDirty : (setDirty s d).refs t = d.refs t :=
  refs_store_id (f := fun b => { b with dirty := true }) (fun _ => rfl) fun _ => rfl

@[simp] theorem refs_ataWrite (lba : Nat) (data : List Sector) :
    (ataWrite lba data d).2.refs t = d.refs t := by
  unfold ataWrite
  split <;> rfl

@[simp] theorem refs_ataFlushCache : (ataFlushCache d).refs t = d.refs t := rfl

@[simp] theorem refs_apaMakeEmpty : (apaMakeEmpty s d).refs t = d.refs t := by
  unfold apaMakeEmpty
  dsimp only
  rw [refs_setDirty, refs_setHeader]

@[simp] theorem refs_apaJournalFlush : (apaJournalFlush d).2.refs t = d.refs t := by
  unfold apaJournalFlush
  dsimp only
  split <;> simp

@[simp] theorem refs_apaJournalReset : (apaJournalReset d).2.refs t = d.refs t :=
  refs_apaJournalFlush

private theorem refs_apaJournalWrite (b : ApaCache) : (apaJournalWrite b d).2.refs t = d.refs t := by
  unfold apaJournalWrite
  dsimp only
  split
  · simp
  · exact (refs_congr (d := (ataWrite _ _ _).2) rfl).trans (by simp)

private theorem refs_apaCacheTransferWrite (b : ApaCache) :
    (apaCacheTransferWrite b d).2.refs t = d.refs t := by
  unfold apaCacheTransferWrite
  dsimp only
  rw [refs_store_id (f := fun b => { b with dirty := false }) (fun _ => rfl) fun _ => rfl]
  simp

theorem refs_forDirty {f : ApaCache → Device → Int × Device}
    (hf : ∀ b d, (f b d).2.refs t = d.refs t) (bufs : List ApaCache) :
    (forDirty f bufs d).refs t = d.refs t := by
  unfold forDirty
  induction bufs generalizing d with
  | nil => rfl
  | cons b bufs ih =>
    rw [List.foldl_cons, ih]
    split
    · exact hf b d
    · rfl

/-- A flush writes headers and keeps every reference. -/
@[simp] theorem refs_apaCacheFlushAllDirty : (apaCacheFlushAllDirty d).2.refs t = d.refs t := by
  unfold apaCacheFlushAllDirty
  dsimp only
  rw [refs_apaJournalReset, refs_forDirty fun b _ => refs_apaCacheTransferWrite b,
    refs_apaJournalFlush, refs_forDirty fun b _ => refs_apaJournalWrite b]

theorem refs_apaCacheFree :
    (apaCacheFree s d).refs t = if t = s then d.refs s - 1 else d.refs t := by
  refine refs_store (fun b => ?_) (· - 1) (fun b => ?_) (.inr rfl)
  · split <;> rfl
  · split
    · rename_i hzero
      rw [hzero]
    · rfl

theorem refs_apaCacheGetHeaderWrite :
    (apaCacheGetHeaderWrite s d).refs t = if t = s then d.refs s + 1 else d.refs t := by
  unfold apaCacheGetHeaderWrite
  cases hbuf : findBuf d.cache s with
  | some b =>
    exact refs_store (f := fun b => { b with nused := b.nused + 1 }) (fun _ => rfl) (· + 1)
      (fun _ => rfl) (.inl (by simp [view, hbuf]))
  | none =>
    by_cases hts : t = s
    · subst hts
      simp [refs, findBuf_append, hbuf]
    · simp [refs, findBuf_append, hts, Ne.symm hts]

/-- A header is had with a reference, or not at all. -/
theorem refs_apaCacheGetHeader :
    (apaCacheGetHeader s d).1 = .ok s ∧
      (∀ t, (apaCacheGetHeader s d).2.refs t = if t = s then d.refs s + 1 else d.refs t) ∨
    (∃ err, (apaCacheGetHeader s d).1 = .error err) ∧
      ∀ t, (apaCacheGetHeader s d).2.refs t = d.refs t := by
  unfold apaCacheGetHeader
  cases hbuf : findBuf d.cache s with
  | some b =>
    exact .inl ⟨rfl, fun t => refs_store (f := fun b => { b with nused := b.nused + 1 })
      (fun _ => rfl) (· + 1) (fun _ => rfl) (.inl (by simp [view, hbuf]))⟩
  | none =>
    cases hread : apaReadHeader d.disk s with
    | some h =>
      refine .inl ⟨rfl, fun t => ?_⟩
      have hnone : d.refs s = 0 := by simp [refs, hbuf]
      rw [refs_store (f := fun b => { b with nused := 1 }) (fun _ => rfl) (fun _ => 1)
        (fun _ => rfl) (.inl (by simp [view, hbuf, hread])), hnone]
    | none =>
      refine .inr ⟨⟨_, rfl⟩, fun t => ?_⟩
      simp [apaSaveError]

/-! ### The references a function holds -/

/-- The references are those of others, `ρ`, and one for each place in `L`. -/
def Holding (d : Device) (ρ : Nat → Nat) (L : List Nat) : Prop :=
  ∀ t, d.refs t = ρ t + L.count t

variable {ρ : Nat → Nat} {L : List Nat} {e : Device}

theorem Holding.of_refs (h : Holding d ρ L) (heq : ∀ t, e.refs t = d.refs t) : Holding e ρ L :=
  fun t => (heq t).trans (h t)

theorem Holding.perm {L' : List Nat} (h : Holding d ρ L) (hp : L.Perm L') : Holding d ρ L' :=
  fun t => by rw [h t, hp.count_eq]

theorem Holding.free (h : Holding d ρ (s :: L)) : Holding (apaCacheFree s d) ρ L := by
  intro t
  rw [refs_apaCacheFree]
  have hs := h s
  have ht := h t
  rw [List.count_cons] at hs ht
  simp only [beq_self_eq_true, if_true] at hs
  by_cases hts : t = s
  · subst hts
    rw [if_pos rfl]
    omega
  · rw [if_neg hts]
    simpa [Ne.symm hts] using ht

theorem Holding.got (h : Holding d ρ L)
    (heq : ∀ t, e.refs t = if t = s then d.refs s + 1 else d.refs t) : Holding e ρ (s :: L) := by
  intro t
  have ht := h t
  rw [heq, List.count_cons]
  by_cases hts : t = s
  · subst hts
    rw [if_pos rfl, ht]
    simp [Nat.add_assoc]
  · rw [if_neg hts, ht]
    simp [Ne.symm hts]

/-- Whatever `apaCacheGetHeader` answers, the caller knows what it holds. -/
theorem Holding.get (h : Holding d ρ L) :
    (∃ e, apaCacheGetHeader s d = (.ok s, e) ∧ Holding e ρ (s :: L)) ∨
      ∃ err e, apaCacheGetHeader s d = (.error err, e) ∧ Holding e ρ L := by
  rcases refs_apaCacheGetHeader (d := d) (s := s) with ⟨hok, hrefs⟩ | ⟨⟨err, herr⟩, hrefs⟩
  · exact .inl ⟨_, Prod.ext hok rfl, h.got hrefs⟩
  · exact .inr ⟨err, _, Prod.ext herr rfl, h.of_refs hrefs⟩

end Device

end HddChecker.Apa
