import HddChecker.Apa.Format
import HddChecker.Hdck.Frame

/-!
# A repair changes links only

Where a repair cuts no chain off and recovers no header over a used one, every used header keeps all of its fields but its links, its checksum and the number of its subs, in the cache and on the disk.
-/

namespace HddChecker.Hdck

open HddChecker Apa Apa.Device Prog

variable {G : Nat → ApaHeader → Prop} {U : Nat → Prop} {st : State} {s clink lba : Nat}

/-- The repairs so far: the chain was not cut off, and headers were recovered only where `U` allows it. -/
def Fine (U : Nat → Prop) (st : State) : Prop :=
  ∀ r ∈ st.repairs, match r with
    | .removed => False
    | .recovered lba => U lba

/-- The drive is within the law, and the errors found are at places of headers. -/
structure Held (G : Nat → ApaHeader → Prop) (st : State) : Prop where
  dev : Within G G [] st.dev
  first : Slot st.ErrorPartitionLBA
  second : Slot st.ErrorPartition2LBA
  firstPrev : Slot st.ErrorPartitionPrevLBA
  secondPrev : Slot st.ErrorPartition2PrevLBA

theorem Held.of_dev (h : Held G st) {e : Device} (he : Within G G [] e) :
    Held G { st with dev := e } := { h with dev := he }

/-! ### Steps on the drive -/

theorem wlp_onDev {α : Type} {p : Prog Device α} {Q : α → State → Prop}
    (h : wlp p st.dev fun a e => Q a { st with dev := e }) : wlp (onDev p) st Q := wlp_zoom h

theorem wlp_headerOf_bind {α : Type} {g : ApaHeader → Prog State α} {Q : α → State → Prop} :
    wlp (headerOf clink >>= g) st Q ↔ wlp (g (st.dev.header clink)) st Q := Iff.rfl

theorem wlp_devDo_bind {α : Type} {f : Device → Device} {g : Unit → Prog State α}
    {Q : α → State → Prop} :
    wlp (devDo f >>= g) st Q ↔ wlp (g ()) { st with dev := f st.dev } Q := Iff.rfl

theorem wlp_devOp_bind {α β : Type} {f : Device → β × Device} {g : β → Prog State α}
    {Q : α → State → Prop} :
    wlp (devOp f >>= g) st Q ↔ wlp (g (f st.dev).1) { st with dev := (f st.dev).2 } Q := Iff.rfl

theorem wlp_fetch {α : Type} {g : Except Int Nat → Prog State α} {Q : α → State → Prop}
    (h : Within G G [] st.dev) (hs : Slot s)
    (hok : ∀ x e, e.view s = some x → Within G G [] e → wlp (g (.ok s)) { st with dev := e } Q)
    (herror : ∀ e, Within G G [] e → wlp (g (.error (- EIO))) { st with dev := e } Q) :
    wlp (devOp (apaCacheGetHeader s) >>= g) st Q := by
  rw [wlp_devOp_bind]
  rcases h.getHeader hs with ⟨x, e, hview, heq, hsame, he⟩ | ⟨e, heq, he⟩
  · rw [heq]
    exact hok x e (by rw [hsame, hview]) he
  · rw [heq]
    exact herror e he

/-! ### The scans -/

/-- A direction that follows and sets links. -/
structure Direction.Lawful (dir : Direction) (G : Nat → ApaHeader → Prop) : Prop where
  onward : ∀ {h}, Aligned h → Slot (dir.onward h)
  setBack : ∀ {s h n}, G s h → Slot n → G s (dir.setBack n h)

theorem forward_lawful (hlaw : Law G) : forward.Lawful G := ⟨Aligned.next, hlaw.prev⟩

theorem backward_lawful (hlaw : Law G) : backward.Lawful G := ⟨Aligned.prev, hlaw.next⟩

theorem relink_keeps (hlaw : Law G) {dir : Direction} (hdir : dir.Lawful G)
    (h : Within G G [] st.dev) (hs : Slot clink) {value : Nat} (hvalue : Slot value) :
    wlp (relink clink dir.back dir.setBack value) st fun _ st' =>
      ∃ e, st' = { st with dev := e } ∧ Within G G [] e := by
  refine wlp_onDev ?_
  rw [wlp_read_bind]
  split
  · have hset := (h.setHeader hs (f := dir.setBack value) fun _ _ hG => hdir.setBack hG hvalue).dirtied hs
    simp only [wlp_modify_bind, wlp_ofState_bind]
    exact wlp_pure ⟨_, rfl, hset.flush hlaw (by simp)⟩
  · exact wlp_pure ⟨_, rfl, h⟩

theorem scanLinks_keeps (hlaw : Law G) {dir : Direction} (hdir : dir.Lawful G)
    (h : Within G G [] st.dev) (hs : Slot s) (result : Int) :
    wlp (scanLinks dir s result) st fun r st' => Slot r.2.1 ∧ Slot r.2.2 ∧
      ∃ e, st' = { st with dev := e } ∧ Within G G [] e := by
  refine wlp_loop (fun x st' => Slot x.1 ∧ Slot x.2.1 ∧ ∃ e, st' = { st with dev := e } ∧ Within G G [] e)
    ?_ ⟨hs, slot_zero, st.dev, rfl, h⟩
  rintro ⟨current, parent, list, result⟩ st' ⟨hcurrent, hparent, e, rfl, he⟩
  simp only at hcurrent hparent
  simp only
  split
  · exact wlp_pure ⟨hcurrent, hparent, e, rfl, he⟩
  · split
    · exact wlp_pure ⟨hcurrent, hparent, e, rfl, he⟩
    · refine wlp_fetch he hcurrent (fun x f _ hf => ?_) fun f hf => ?_
      · refine wlp_bind ((relink_keeps hlaw hdir hf hcurrent hparent).mono ?_)
        rintro _ _ ⟨g, rfl, hg⟩
        have haligned := hg.header_aligned hlaw hcurrent
        simp only [wlp_headerOf_bind, wlp_devDo_bind]
        exact wlp_pure ⟨hdir.onward haligned, haligned.start, _, rfl, hg.free hcurrent⟩
      · exact wlp_pure ⟨hcurrent, hparent, f, rfl, hf⟩

private theorem CheckAPAPartitionLinks_keeps (hlaw : Law G) (h : Within G G [] st.dev) (hs : Slot clink) :
    wlp (CheckAPAPartitionLinks clink) st fun _ st' => Held G st' := by
  have haligned := h.header_aligned hlaw hs
  unfold CheckAPAPartitionLinks
  simp only [wlp_modify_bind, wlp_headerOf_bind]
  refine wlp_bind (wlp.mono (scanLinks_keeps hlaw (forward_lawful hlaw) (by exact h) haligned.next 0) ?_)
  rintro ⟨result, current, parent⟩ _ ⟨hcurrent, hparent, e, rfl, he⟩
  simp only at hcurrent hparent
  simp only
  split
  · refine wlp_bind (wlp.mono (relink_keeps hlaw (forward_lawful hlaw) (by exact he) hs hparent) ?_)
    rintro _ _ ⟨f, rfl, hf⟩
    exact wlp_ofState ⟨hf, slot_zero, slot_zero, slot_zero, slot_zero⟩
  · have haligned := he.header_aligned hlaw hs
    simp only [wlp_modify_bind, wlp_headerOf_bind]
    refine wlp_bind (wlp.mono (scanLinks_keeps hlaw (backward_lawful hlaw) (by exact he) haligned.prev result) ?_)
    rintro ⟨result, current', parent'⟩ _ ⟨hcurrent', hparent', f, rfl, hf⟩
    simp only at hcurrent' hparent'
    simp only
    split
    · refine wlp_bind (wlp.mono (relink_keeps hlaw (backward_lawful hlaw) (by exact hf) hs hparent') ?_)
      rintro _ _ ⟨g, rfl, hg⟩
      rw [wlp_modify_bind]
      exact wlp_ofState ⟨hg, slot_zero, slot_zero, hparent, slot_zero⟩
    · rw [wlp_modify_bind]
      exact wlp_ofState ⟨hf, hcurrent, hcurrent', hparent, hparent'⟩

/-! ### Nothing bad so far

A repair that is recorded stays recorded, so a run that ends fine was fine all the way.
-/

theorem reflects_onDev {α : Type} (p : Prog Device α) : Reflects (Fine U) (onDev p) :=
  reflects_zoom fun _ _ h => h

theorem reflects_record {f : State → State} (h : ∀ s, ∃ r, (f s).repairs = s.repairs ++ r) :
    Reflects (Fine U) (modify f) := by
  refine reflects_ofState fun s hfine r hr => hfine r ?_
  obtain ⟨more, hmore⟩ := h s
  rw [hmore]
  exact List.mem_append_left _ hr

theorem reflects_other {f : State → State} (h : ∀ s, (f s).repairs = s.repairs) :
    Reflects (Fine U) (modify f) := reflects_record fun s => ⟨[], by rw [h s, List.append_nil]⟩

theorem reflects_read {α : Type} (f : State → α) : Reflects (Fine U) (read f) :=
  reflects_ofState fun _ h => h

@[simp] theorem settle_repairs (second : Bool) (s : State) : (s.settle second).repairs = s.repairs := by
  unfold State.settle
  split <;> rfl

theorem scanLinks_reflects (dir : Direction) (s : Nat) (result : Int) :
    Reflects (Fine U) (scanLinks dir s result) := by
  refine Reflects.loop ?_ _
  rintro ⟨current, parent, list, result⟩
  simp only
  split
  · exact reflects_pure _
  · split
    · exact reflects_pure _
    · refine (reflects_onDev _).bind fun r => ?_
      cases r with
      | error err => exact reflects_pure _
      | ok clink2 =>
        exact (reflects_onDev _).bind fun _ => (reflects_onDev _).bind fun _ =>
          (reflects_onDev _).bind fun _ => reflects_pure _

private theorem CheckAPAPartitionLinks_reflects (clink : Nat) :
    Reflects (Fine U) (CheckAPAPartitionLinks clink) := by
  refine (reflects_other fun _ => by rfl).bind fun _ => (reflects_onDev _).bind fun _ =>
    (scanLinks_reflects _ _ _).bind fun r => ?_
  dsimp only
  split
  · exact (reflects_onDev _).bind fun _ => reflects_read _
  · refine (reflects_other fun _ => by rfl).bind fun _ => (reflects_onDev _).bind fun _ =>
      (scanLinks_reflects _ _ _).bind fun r => ?_
    split
    · exact (reflects_onDev _).bind fun _ => (reflects_other fun _ => by rfl).bind fun _ => reflects_read _
    · exact (reflects_other fun _ => by rfl).bind fun _ => reflects_read _

theorem RemoveBadPartitions_reflects (clink : Nat) : Reflects (Fine U) (RemoveBadPartitions clink) := by
  refine (reflects_read _).bind fun _ => (reflects_onDev _).bind fun r => ?_
  cases r with
  | error err => exact reflects_pure _
  | ok clink2 => exact (reflects_onDev _).bind fun _ => reflects_record fun _ => ⟨[.removed], by rfl⟩

private theorem RecoverSubPartition_reflects (clink lba previous sublength substart : Nat) (type : UInt16)
    (sub : Nat) :
    Reflects (Fine U) (RecoverSubPartition clink lba previous sublength substart type sub) :=
  (reflects_onDev _).bind fun _ => reflects_record fun _ => ⟨[.recovered lba], by rfl⟩

theorem recoverIfListed_reflects (second : Bool) (clink clink2 sub : Nat) :
    Reflects (Fine U) (recoverIfListed second clink clink2 sub) := by
  refine (reflects_onDev _).bind fun _ => (reflects_read _).bind fun _ => ?_
  dsimp only
  split
  · exact (RecoverSubPartition_reflects _ _ _ _ _ _ _).bind fun _ => reflects_other (settle_repairs second)
  · exact reflects_pure _

theorem recoverSubs_reflects (clink clink2 : Nat) : Reflects (Fine U) (recoverSubs clink clink2) := by
  refine (reflects_onDev _).bind fun _ => ?_
  split
  · refine Reflects.loop (fun sub => (reflects_onDev _).bind fun _ => ?_) _
    split
    · exact reflects_pure _
    · exact (recoverIfListed_reflects _ _ _ _).bind fun _ => (recoverIfListed_reflects _ _ _ _).bind fun _ =>
        reflects_pure _
  · exact reflects_pure _

private theorem recoverWalk_reflects (onward : ApaHeader → Nat) (clink sector : Nat) :
    Reflects (Fine U) (recoverWalk onward clink sector) := by
  refine Reflects.loop (fun _ => (reflects_onDev _).bind fun r => ?_) _
  cases r with
  | error err => exact reflects_pure _
  | ok clink2 =>
    refine (recoverSubs_reflects _ _).bind fun _ => (reflects_onDev _).bind fun _ =>
      (reflects_onDev _).bind fun _ => (reflects_read _).bind fun _ => ?_
    split
    · exact reflects_pure _
    · split <;> exact reflects_pure _

theorem recoverFrom_reflects (onward : ApaHeader → Nat) (bad : State → Nat) (clink : Nat) :
    Reflects (Fine U) (recoverFrom onward bad clink) := by
  refine (reflects_onDev _).bind fun _ => (reflects_read _).bind fun _ => ?_
  split
  · exact recoverWalk_reflects _ _ _
  · exact reflects_pure _

private theorem RecoverPartitionIfSub_reflects (clink : Nat) :
    Reflects (Fine U) (RecoverPartitionIfSub clink) := by
  refine (recoverFrom_reflects _ _ _).bind fun found => ?_
  split
  · exact reflects_pure _
  · exact (recoverFrom_reflects _ _ _).bind fun _ => reflects_pure _

theorem MarkUnreadablePartionAsEmpty_reflects (lba parent length : Nat) :
    Reflects (Fine U) (MarkUnreadablePartionAsEmpty lba parent length) := by
  refine (reflects_onDev _).bind fun r => ?_
  cases r with
  | error err => exact reflects_pure _
  | ok clink =>
    refine (reflects_onDev _).bind fun r => ?_
    cases r with
    | none => exact reflects_pure _
    | some clink => exact (reflects_onDev _).bind fun _ => reflects_other fun _ => by rfl

private theorem repairError_reflects (clink : Nat) : Reflects (Fine U) (repairError clink) := by
  refine (reflects_read _).bind fun s => ?_
  split
  · refine (RecoverPartitionIfSub_reflects clink).bind fun _ => (reflects_read _).bind fun _ => ?_
    split
    · refine (reflects_onDev _).bind fun _ => ?_
      dsimp only
      split
      · exact (MarkUnreadablePartionAsEmpty_reflects _ _ _).bind fun _ => reflects_pure _
      · exact (RemoveBadPartitions_reflects _).bind fun _ => reflects_pure _
    · exact reflects_pure _
  · exact (RemoveBadPartitions_reflects _).bind fun _ => reflects_pure _

/-! ### The repairs -/

/-- Headers may be recovered where `U` allows it. -/
def Recoverable (G : Nat → ApaHeader → Prop) (U : Nat → Prop) : Prop :=
  ∀ lba h, Slot lba → lba ≠ 0 → U lba → Aligned h → G lba h

private theorem RemoveBadPartitions_keeps (h : Held G st) :
    wlp (RemoveBadPartitions clink) st fun _ st' => Fine U st' → Held G st' := by
  unfold RemoveBadPartitions
  rw [wlp_read_bind]
  refine wlp_fetch h.dev h.firstPrev (fun x e _ _ => ?_) fun e he => ?_
  · refine wlp_bind fun _ st₁ _ => wlp_modify fun hfine => ?_
    exact (hfine .removed (by simp)).elim
  · exact wlp_pure fun _ => h.of_dev he

private theorem aligned_subHeader {next previous sublength substart sub : Nat} {type : UInt16}
    {created : Fin 2 → Nat} (hlba : Slot lba) (hnext : Slot next) (hprevious : Slot previous)
    (hlength : Slot sublength) :
    Aligned (subHeader lba next previous sublength substart type sub created) where
  next := hnext
  prev := hprevious
  start := hlba
  length := hlength
  sub := aligned_zero.sub

private theorem RecoverSubPartition_keeps (hlaw : Law G) (hrecover : Recoverable G U) (h : Held G st)
    (hlba : Slot lba) (hne : lba ≠ 0) {previous sublength substart sub : Nat}
    {type : UInt16} (hprevious : Slot previous) (hlength : Slot sublength) :
    wlp (RecoverSubPartition clink lba previous sublength substart type sub) st fun _ st' =>
      Fine U st' → Held G st' := by
  have hzero : G lba ApaHeader.zero := hlaw.empty hlba hne aligned_zero rfl
  have hbuffer := (h.dev.getHeaderWrite hlba hzero).setHeader hlba
    (f := fun _ => ApaHeader.zero) fun _ _ _ => hzero
  refine wlp_bind (wlp_onDev ?_)
  simp only [wlp_modify_bind, wlp_read_bind, wlp_ofState_bind]
  refine wlp_modify (wlp_modify fun hfine => ?_)
  have hU : U lba := hfine (.recovered lba) (by simp)
  have hnext (last : Nat) : Slot (if lba < last then u32 (lba + sublength) else 0) := by
    split
    · exact slot_u32 (slot_add hlba hlength)
    · exact slot_zero
  have hfilled (next : Nat) (hnext : Slot next) (created : Fin 2 → Nat) := (hbuffer.setHeader hlba
    (f := fun _ => subHeader lba next previous sublength substart type sub created) fun _ _ _ =>
      hrecover lba _ hlba hne hU (aligned_subHeader hlba hnext hprevious hlength)).dirtied hlba
  exact ⟨((hfilled _ (hnext _) _).flush hlaw (by simp)).free hlba, h.first, h.second, h.firstPrev,
    h.secondPrev⟩

theorem Held.settle (h : Held G st) (second : Bool) : Held G (st.settle second) := by
  unfold State.settle
  split
  · exact { h with second := slot_zero }
  · refine { h with first := slot_zero, second := ?_ }
    dsimp only
    split
    · exact slot_zero
    · exact h.second

theorem recoverIfListed_keeps (hlaw : Law G) (hrecover : Recoverable G U) (h : Held G st)
    {clink2 : Nat} (hclink2 : Slot clink2) (second : Bool) (sub : Nat) :
    wlp (recoverIfListed second clink clink2 sub) st fun _ st' => Fine U st' → Held G st' := by
  have haligned := h.dev.header_aligned hlaw hclink2
  have hbad : Slot (st.bad second).1 ∧ Slot (st.bad second).2 := by
    unfold State.bad
    split
    · exact ⟨h.second, h.first⟩
    · exact ⟨h.first, h.firstPrev⟩
  unfold recoverIfListed
  simp only [wlp_headerOf_bind, wlp_read_bind, id]
  split
  · rename_i hlisted
    refine wlp_bind_of_reflects (RecoverSubPartition_keeps hlaw hrecover h hbad.1 hlisted.1 hbad.2
      (haligned.sub sub).2) (fun _ => reflects_other (settle_repairs second)) fun _ st₁ h₁ => ?_
    exact wlp_modify fun _ => h₁.settle second
  · exact wlp_pure fun _ => h

private theorem recoverSubs_keeps (hlaw : Law G) (hrecover : Recoverable G U) (h : Held G st)
    {clink2 : Nat} (hclink2 : Slot clink2) :
    wlp (recoverSubs clink clink2) st fun _ st' => Fine U st' → Held G st' := by
  unfold recoverSubs
  rw [wlp_headerOf_bind]
  split
  · refine wlp_loop_of_reflects (fun _ st' => Held G st') (fun sub => ?_) (fun sub st₁ h₁ => ?_) h
    · refine (reflects_onDev _).bind fun _ => ?_
      split
      · exact reflects_pure _
      · exact (recoverIfListed_reflects _ _ _ _).bind fun _ =>
          (recoverIfListed_reflects _ _ _ _).bind fun _ => reflects_pure _
    · rw [wlp_headerOf_bind]
      split
      · exact wlp_pure fun _ => h₁
      · refine wlp_bind_of_reflects (recoverIfListed_keeps hlaw hrecover h₁ hclink2 false sub)
          (fun _ => (recoverIfListed_reflects _ _ _ _).bind fun _ => reflects_pure _) fun _ st₂ h₂ => ?_
        refine wlp_bind_of_reflects (recoverIfListed_keeps hlaw hrecover h₂ hclink2 true sub)
          (fun _ => reflects_pure _) fun _ st₃ h₃ => ?_
        exact wlp_pure fun _ => h₃
  · exact wlp_pure fun _ => h

private theorem recoverWalk_keeps (hlaw : Law G) (hrecover : Recoverable G U) (h : Held G st)
    {onward : ApaHeader → Nat} (honward : ∀ {h}, Aligned h → Slot (onward h))
    (hs : Slot s) :
    wlp (recoverWalk onward clink s) st fun _ st' => Fine U st' → Held G st' := by
  refine wlp_loop_of_reflects (fun s st' => Held G st' ∧ Slot s) (fun sector => ?_)
    (fun sector st₁ ⟨h₁, hsector⟩ => ?_) ⟨h, hs⟩
  · refine (reflects_onDev _).bind fun r => ?_
    cases r with
    | error err => exact reflects_pure _
    | ok clink2 =>
      refine (recoverSubs_reflects _ _).bind fun _ => (reflects_onDev _).bind fun _ =>
        (reflects_onDev _).bind fun _ => (reflects_read _).bind fun _ => ?_
      split
      · exact reflects_pure _
      · split <;> exact reflects_pure _
  · refine wlp_fetch h₁.dev hsector (fun x e _ he => ?_) fun e he => wlp_pure fun _ => h₁.of_dev he
    refine wlp_bind_of_reflects (recoverSubs_keeps hlaw hrecover (h₁.of_dev he) hsector)
      (fun _ => ?_) fun _ st₂ h₂ => ?_
    · refine (reflects_onDev _).bind fun _ => (reflects_onDev _).bind fun _ =>
        (reflects_read _).bind fun _ => ?_
      split
      · exact reflects_pure _
      · split <;> exact reflects_pure _
    · have haligned := h₂.dev.header_aligned hlaw hsector
      have hfreed := h₂.of_dev (h₂.dev.free hsector)
      simp only [wlp_headerOf_bind, wlp_devDo_bind, wlp_read_bind]
      split
      · exact wlp_pure fun _ => hfreed
      · split
        · exact wlp_pure fun _ => hfreed
        · exact wlp_pure fun _ => ⟨hfreed, honward haligned⟩

theorem recoverFrom_keeps (hlaw : Law G) (hrecover : Recoverable G U) (h : Held G st)
    (hclink : Slot clink) {onward : ApaHeader → Nat} (honward : ∀ {h}, Aligned h → Slot (onward h))
    (bad : State → Nat) :
    wlp (recoverFrom onward bad clink) st fun _ st' => Fine U st' → Held G st' := by
  have haligned := h.dev.header_aligned hlaw hclink
  unfold recoverFrom
  simp only [wlp_headerOf_bind, wlp_read_bind]
  split
  · exact recoverWalk_keeps hlaw hrecover h honward (honward haligned)
  · exact wlp_pure fun _ => h

private theorem RecoverPartitionIfSub_keeps (hlaw : Law G) (hrecover : Recoverable G U) (h : Held G st)
    (hclink : Slot clink) :
    wlp (RecoverPartitionIfSub clink) st fun _ st' => Fine U st' → Held G st' := by
  refine wlp_bind_of_reflects (recoverFrom_keeps hlaw hrecover h hclink Aligned.next _)
    (fun found => ?_) fun found st₁ h₁ => ?_
  · split
    · exact reflects_pure _
    · exact (recoverFrom_reflects _ _ _).bind fun _ => reflects_pure _
  · split
    · exact wlp_pure fun _ => h₁
    · refine wlp_bind_of_reflects (recoverFrom_keeps hlaw hrecover h₁ hclink Aligned.prev _)
        (fun _ => reflects_pure _) fun _ st₂ h₂ => ?_
      exact wlp_pure fun _ => h₂

theorem MarkUnreadablePartionAsEmpty_keeps (hlaw : Law G) (h : Held G st) (hlba : Slot lba)
    (hne : lba ≠ 0) {parent length : Nat} (hparent : Slot parent) (hlength : Slot length) :
    wlp (MarkUnreadablePartionAsEmpty lba parent length) st fun _ st' => Held G st' := by
  unfold MarkUnreadablePartionAsEmpty
  refine wlp_fetch h.dev hparent (fun x e _ he => ?_) fun e he => wlp_pure (h.of_dev he)
  refine wlp_bind (wlp_onDev ((markLoop_keeps hlaw he hparent hlba hne hlength).mono ?_))
  rintro r f ⟨hf, hr⟩
  cases r with
  | none => exact wlp_pure (h.of_dev hf)
  | some clink =>
    rw [wlp_devDo_bind]
    exact wlp_modify ⟨hf.free (hr clink rfl), slot_zero, slot_zero, h.firstPrev, h.secondPrev⟩

private theorem repairError_keeps (hlaw : Law G) (hrecover : Recoverable G U) (h : Held G st)
    (hclink : Slot clink) :
    wlp (repairError clink) st fun _ st' => Fine U st' → Held G st' := by
  have hremove (st₁ : State) (h₁ : Held G st₁) :
      wlp (RemoveBadPartitions clink >>= fun _ => (pure true : Prog State Bool)) st₁
        fun _ st' => Fine U st' → Held G st' :=
    wlp_bind_of_reflects (RemoveBadPartitions_keeps h₁) (fun _ => reflects_pure _)
      fun _ st₂ h₂ => wlp_pure fun _ => h₂
  unfold repairError
  rw [wlp_read_bind]
  split
  · refine wlp_bind_of_reflects (RecoverPartitionIfSub_keeps hlaw hrecover h hclink) (fun _ => ?_)
      fun _ st₁ h₁ => ?_
    · refine (reflects_read _).bind fun _ => ?_
      split
      · refine (reflects_onDev _).bind fun _ => ?_
        dsimp only
        split
        · exact (MarkUnreadablePartionAsEmpty_reflects _ _ _).bind fun _ => reflects_pure _
        · exact (RemoveBadPartitions_reflects _).bind fun _ => reflects_pure _
      · exact reflects_pure _
    · rw [wlp_read_bind]
      split
      · rename_i hbad
        rw [wlp_headerOf_bind]
        dsimp only
        split
        · refine wlp_bind ((MarkUnreadablePartionAsEmpty_keeps hlaw h₁ h₁.first hbad.1 h₁.firstPrev
            (slot_sub h₁.secondPrev h₁.first)).mono fun _ st₂ h₂ => ?_)
          exact wlp_pure fun _ => h₂
        · exact hremove st₁ h₁
      · exact wlp_pure fun _ => h₁
  · exact hremove st h

/-- A pass of the repair loop keeps the law, whatever the errors found before it. -/
private theorem repairLoop_keeps (hlaw : Law G) (hrecover : Recoverable G U) (h : Within G G [] st.dev)
    (hclink : Slot clink) :
    wlp (repairLoop clink) st fun _ st' => Fine U st' → Within G G [] st'.dev := by
  refine wlp_loop_of_reflects (fun _ st' => Within G G [] st'.dev) (fun badParts => ?_)
    (fun badParts st₁ h₁ => ?_) h
  · refine (CheckAPAPartitionLinks_reflects clink).bind fun _ => ?_
    split
    · exact reflects_pure _
    · refine (repairError_reflects clink).bind fun _ => ?_
      split
      · split <;> exact reflects_pure _
      · exact reflects_pure _
  · refine wlp_bind ((CheckAPAPartitionLinks_keeps hlaw h₁ hclink).mono fun lba st₂ h₂ => ?_)
    split
    · exact wlp_pure fun _ => h₂.dev
    · refine wlp_bind_of_reflects (repairError_keeps hlaw hrecover h₂ hclink) (fun _ => ?_)
        fun bad st₃ h₃ => ?_
      · split
        · split <;> exact reflects_pure _
        · exact reflects_pure _
      · split
        · split <;> exact wlp_pure fun _ => h₃.dev
        · exact wlp_pure fun _ => h₃.dev

/-- A repair keeps the law if it is fine to its end. -/
theorem HdckDevctl_keeps (hlaw : Law G) (hrecover : Recoverable G U) (h : Within G G [] st.dev) :
    wlp HdckDevctl st fun _ st' => Fine U st' → Within G G [] st'.dev := by
  unfold HdckDevctl
  rw [wlp_read_bind]
  split
  · exact wlp_pure fun _ => h
  · refine wlp_fetch h slot_zero (fun x e _ he => ?_) fun e he => wlp_pure fun _ => he
    have hloop := @repairLoop_keeps G U { st with dev := e } APA_SECTOR_MBR hlaw hrecover he slot_zero
    refine wlp_bind_of_reflects hloop (fun gaveUp => ?_) fun gaveUp st₁ h₁ => ?_
    · split
      · exact (reflects_onDev _).bind fun _ => reflects_pure _
      · exact (reflects_onDev _).bind fun _ => (reflects_onDev _).bind fun _ =>
          (reflects_onDev _).bind fun _ => (reflects_onDev _).bind fun _ => reflects_pure _
    · split
      · rw [wlp_devDo_bind]
        exact wlp_pure fun _ => h₁.free slot_zero
      · rw [wlp_devDo_bind]
        refine wlp_bind (wlp_onDev ((DeleteFreePartitions_keeps hlaw (h₁.write rfl _) slot_zero).mono
          fun _ f hf => ?_))
        refine wlp_bind (wlp_onDev ((CheckPartitions_keeps hlaw hf slot_zero).mono fun r g hg => ?_))
        rw [wlp_devDo_bind]
        exact wlp_pure fun _ => hg.free slot_zero

end HddChecker.Hdck
