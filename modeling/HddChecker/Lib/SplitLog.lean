import HddChecker.Lib.PowerLoss

/-!
# Redo logs with an index of two sectors

An index that fills two sectors can be torn: the power may leave one sector of the new index beside one of the old. Such a log is sound when every torn index says that nothing is logged. A transaction copies its writes into the log, writes the index, carries the writes out in place and clears the index; a restore either clears the index or carries the transaction out again.
-/

namespace HddChecker

open WriteBack

variable {α : Type}

/-- Where a redo log lives: the two addresses of its index, its copies in `area`, and the index values that say that nothing is logged. -/
structure SplitLog (α : Type) where
  first : Nat
  second : Nat
  area : Nat → Prop
  idle : α → α → Prop
  apart : first ≠ second
  first_not_area : ¬ area first
  second_not_area : ¬ area second

namespace SplitLog

/-- The addresses that belong to neither the index nor the copies. -/
def Outside (log : SplitLog α) (a : Nat) : Prop := ¬ log.area a ∧ a ≠ log.first ∧ a ≠ log.second

/-- The operations that write the two sectors of the index. -/
def writeIndex (log : SplitLog α) (x : α × α) : List (DiskOp α) :=
  [.flush, .write log.first x.1, .write log.second x.2, .flush]

/-- A transaction of the log. No sector of its index beside one of the cleared index names anything, unless it is the index itself. -/
structure Transaction (log : SplitLog α) where
  copies : List (Nat × α)
  full : α × α
  empty : α × α
  home : List (Nat × α)
  copies_area : ∀ w ∈ copies, log.area w.1
  copies_unique : ∀ a x y, (a, x) ∈ copies → (a, y) ∈ copies → y = x
  empty_idle : log.idle empty.1 empty.2
  torn_first : log.idle empty.1 full.2
  torn_second : log.idle full.1 empty.2 ∨ full.2 = empty.2
  home_outside : ∀ w ∈ home, log.Outside w.1

variable {log : SplitLog α} (t : log.Transaction)

/-- The operations of the in-place writes and the clearing of the index. -/
def Transaction.carryOut : List (DiskOp α) :=
  (t.home.map fun w => .write w.1 w.2) ++ log.writeIndex t.empty

def Transaction.commit : List (DiskOp α) :=
  (t.copies.map fun w => .write w.1 w.2) ++ (log.writeIndex t.full ++ t.carryOut)

/-- Each sector of the index is from the full or from the empty one. -/
structure Transaction.Mixed (c : Nat → α) : Prop where
  first : c log.first = t.full.1 ∨ c log.first = t.empty.1
  second : c log.second = t.full.2 ∨ c log.second = t.empty.2

/-- Nothing is logged, and outside the log the content is `base`. -/
structure Transaction.Settled (base c : Nat → α) : Prop where
  mixed : t.Mixed c
  idle : log.idle (c log.first) (c log.second)
  same : ∀ a, log.Outside a → c a = base a

/-- The transaction is logged: all copies are there, and only the addresses of its home writes may differ from `base`. -/
structure Transaction.Logged (base c : Nat → α) : Prop where
  first : c log.first = t.full.1
  second : c log.second = t.full.2
  copies : ∀ w ∈ t.copies, c w.1 = w.2
  others : ∀ a, log.Outside a → (∀ w ∈ t.home, w.1 ≠ a) → c a = base a

/-- The content outside the log after the transaction. -/
def Transaction.result (base : Nat → α) : Nat → α := applyWrites t.home base

/-! ### Writing the index -/

theorem writeIndex_run (x : α × α) (d : WriteBack α) : d.run (log.writeIndex x) =
    ⟨Function.update (Function.update d.contents log.first x.1) log.second x.2, []⟩ := rfl

theorem writeIndex_always {P : (Nat → α) → Prop} {x : α × α} {d : WriteBack α}
    (hbefore : ∀ e, d.Loses e → P e)
    (hafter : ∀ e, (∀ a, a ≠ log.first → a ≠ log.second → e a = d.contents a) →
      (e log.first = d.contents log.first ∨ e log.first = x.1) →
      (e log.second = d.contents log.second ∨ e log.second = x.2) → P e) :
    Always P d (log.writeIndex x) := by
  have hne : log.first ≠ log.second := log.apart
  refine always_cons hbefore (always_cons (fun e he => ?_) (always_cons (fun e he => ?_)
    (always_cons (fun e he => ?_) (always_nil fun e he => ?_))))
  · have hend := loses_of_no_pending he
    subst hend
    exact hafter _ (fun _ _ _ => rfl) (.inl rfl) (.inl rfl)
  · simp only [step, List.nil_append] at he
    refine hafter e (fun a hfirst _ => ?_) ?_ ?_
    · simpa [hfirst] using he a
    · simpa using he log.first
    · exact .inl (by simpa [hne.symm] using he log.second)
  · simp only [step, List.nil_append, List.cons_append] at he
    refine hafter e (fun a hfirst hsecond => ?_) ?_ ?_
    · simpa [hfirst, hsecond] using he a
    · simpa [hne] using he log.first
    · simpa [hne.symm] using he log.second
  · have hend := loses_of_no_pending he
    subst hend
    refine hafter _ (fun a hfirst hsecond => ?_) (.inr ?_) (.inr ?_)
    · simp [step, contents, hfirst, hsecond]
    · simp [step, contents, hne]
    · simp [step, contents]

/-! ### Carrying a transaction out -/

namespace Transaction

variable {base c : Nat → α}

theorem idle_of_mixed (h : t.Mixed c) :
    log.idle (c log.first) (c log.second) ∨
      c log.first = t.full.1 ∧ c log.second = t.full.2 := by
  rcases h.first with hfirst | hfirst <;> rcases h.second with hsecond | hsecond
  · exact .inr ⟨hfirst, hsecond⟩
  · rw [hfirst, hsecond]
    exact t.torn_second.imp id fun heq => ⟨rfl, heq.symm⟩
  · rw [hfirst, hsecond]
    exact .inl t.torn_first
  · rw [hfirst, hsecond]
    exact .inl t.empty_idle

theorem Logged.mixed (h : t.Logged base c) : t.Mixed c := ⟨.inl h.first, .inl h.second⟩

theorem Logged.result_eq (h : t.Logged base c) {a : Nat} (ha : log.Outside a) :
    applyWrites t.home c a = t.result base a :=
  applyWrites_congr fun hnot => h.others a ha hnot

theorem Logged.home (h : t.Logged base c) {e : Nat → α} (he : (WriteBack.mk c t.home).Loses e) :
    t.Logged base e := by
  have hkeep : ∀ a, (∀ w ∈ t.home, w.1 ≠ a) → e a = c a := fun a ha =>
    (he a).resolve_right fun hmem => ha _ hmem rfl
  refine ⟨?_, ?_, fun w hw => ?_, fun a hout ha => (hkeep a ha).trans (h.others a hout ha)⟩
  · rw [hkeep _ fun w hw => (t.home_outside w hw).2.1, h.first]
  · rw [hkeep _ fun w hw => (t.home_outside w hw).2.2, h.second]
  · rw [hkeep _ fun w' hw' heq => (t.home_outside w' hw').1 (heq ▸ t.copies_area w hw),
      h.copies w hw]

/-- From a logged content the in-place writes and the clearing leave the transaction logged or done. -/
theorem carryOut_always (h : t.Logged base c) :
    Always (fun e => t.Logged base e ∨ t.Settled (t.result base) e) ⟨c, []⟩ t.carryOut := by
  refine always_append (always_writes fun e he => .inl (h.home t (by simpa using he))) ?_
  rw [run_writes]
  refine writeIndex_always (fun e he => .inl (h.home t he)) fun e hsame hfirst hsecond => ?_
  -- the in-place writes are durable from here on
  have hdone : t.Logged base (applyWrites t.home c) := h.home t (loses_contents ⟨c, t.home⟩)
  have hmixed : t.Mixed e :=
    ⟨hfirst.imp (fun heq => heq.trans hdone.first) id, hsecond.imp (fun heq => heq.trans hdone.second) id⟩
  rcases t.idle_of_mixed hmixed with hidle | ⟨hfull, hfull'⟩
  · exact .inr ⟨hmixed, hidle, fun a ha => (hsame a ha.2.1 ha.2.2).trans (h.result_eq t ha)⟩
  · refine .inl ⟨hfull, hfull', fun w hw => ?_, fun a ha hnot => ?_⟩
    · have harea := t.copies_area w hw
      rw [hsame _ (fun heq => log.first_not_area (heq ▸ harea))
        fun heq => log.second_not_area (heq ▸ harea)]
      exact hdone.copies w hw
    · exact (hsame a ha.2.1 ha.2.2).trans (hdone.others a ha hnot)

theorem carryOut_run (h : t.Logged base c) :
    ∃ e, (WriteBack.mk c []).run t.carryOut = ⟨e, []⟩ ∧ t.Settled (t.result base) e := by
  rw [carryOut, run_append, run_writes, writeIndex_run]
  have hne : log.first ≠ log.second := log.apart
  refine ⟨_, rfl, ⟨.inr ?_, .inr ?_⟩, ?_, fun a ha => ?_⟩
  · simp [hne]
  · simp
  · simpa [hne] using t.empty_idle
  · rw [Function.update_of_ne ha.2.2, Function.update_of_ne ha.2.1]
    exact h.result_eq t ha

/-! ### Clearing the index where nothing is logged -/

theorem Settled.clear (h : t.Settled base c) :
    Always (t.Settled base) ⟨c, []⟩ (log.writeIndex t.empty) := by
  refine writeIndex_always (fun e he => ?_) fun e hsame hfirst hsecond => ?_
  · rw [loses_of_no_pending he]
    exact h
  · have hfirst : e log.first = c log.first ∨ e log.first = t.empty.1 := hfirst
    have hsecond : e log.second = c log.second ∨ e log.second = t.empty.2 := hsecond
    have hmixed : t.Mixed e := by
      refine ⟨?_, ?_⟩
      · rcases hfirst with heq | heq
        · rw [heq]
          exact h.mixed.first
        · exact .inr heq
      · rcases hsecond with heq | heq
        · rw [heq]
          exact h.mixed.second
        · exact .inr heq
    refine ⟨hmixed, ?_, fun a ha => (hsame a ha.2.1 ha.2.2).trans (h.same a ha)⟩
    rcases hfirst with hfirst | hfirst
    · rcases hsecond with hsecond | hsecond
      · rw [hfirst, hsecond]
        exact h.idle
      · -- the second sector is cleared beside the first one of what was there
        rcases h.mixed.first with hwas | hwas
        · rcases t.torn_second with htorn | htorn
          · rw [hfirst, hwas, hsecond]
            exact htorn
          · have hsame' : c log.second = t.empty.2 :=
              h.mixed.second.elim (fun heq => heq.trans htorn) id
            rw [hfirst, hsecond, ← hsame']
            exact h.idle
        · rw [hfirst, hwas, hsecond]
          exact t.empty_idle
    · rw [hfirst]
      rcases hmixed.second with hsecond | hsecond
      · rw [hsecond]
        exact t.torn_first
      · rw [hsecond]
        exact t.empty_idle

/-! ### A whole commit -/

/-- A commit that starts with pending writes of its caller: until the copies are durable the power leaves a mix of these writes, and from then on the transaction happens as a whole. -/
theorem commit_always (d : WriteBack α) (hfirst : d.contents log.first = t.empty.1)
    (hsecond : d.contents log.second = t.empty.2) :
    Always (fun e => (WriteBack.mk d.durable (d.pending ++ t.copies)).Loses e ∨
      t.Settled d.contents e ∨ t.Logged d.contents e ∨ t.Settled (t.result d.contents) e)
      d t.commit := by
  set d₁ : WriteBack α := ⟨d.durable, d.pending ++ t.copies⟩ with hd₁
  have hcontents : d₁.contents = applyWrites t.copies d.contents := applyWrites_append ..
  have hsame : ∀ a, ¬ log.area a → d₁.contents a = d.contents a := by
    intro a ha
    rw [hcontents]
    exact applyWrites_of_not_mem fun w hw heq => ha (heq ▸ t.copies_area w hw)
  have hcopies : ∀ w ∈ t.copies, d₁.contents w.1 = w.2 := by
    intro w hw
    rw [hcontents]
    exact applyWrites_of_mem hw fun y hy => t.copies_unique _ _ _ hw hy
  -- what is known of a content with all copies and either index
  have hcopied : ∀ e, (∀ a, a ≠ log.first → a ≠ log.second → e a = d₁.contents a) →
      e log.first = t.full.1 → e log.second = t.full.2 → t.Logged d.contents e := by
    intro e hoff hfull hfull'
    refine ⟨hfull, hfull', fun w hw => ?_, fun a ha _ => ?_⟩
    · have harea := t.copies_area w hw
      rw [hoff _ (fun heq => log.first_not_area (heq ▸ harea))
        fun heq => log.second_not_area (heq ▸ harea)]
      exact hcopies w hw
    · exact (hoff a ha.2.1 ha.2.2).trans (hsame a ha.1)
  refine always_append (always_writes fun e he => .inl he) ?_
  rw [run_writes]
  refine always_append (writeIndex_always (fun e he => .inl he) ?_) ?_
  · intro e hoff hindex hindex'
    change ∀ a, a ≠ log.first → a ≠ log.second → e a = d₁.contents a at hoff
    change e log.first = d₁.contents log.first ∨ _ at hindex
    change e log.second = d₁.contents log.second ∨ _ at hindex'
    rw [hsame _ log.first_not_area, hfirst] at hindex
    rw [hsame _ log.second_not_area, hsecond] at hindex'
    have hmixed : t.Mixed e := ⟨hindex.symm, hindex'.symm⟩
    rcases t.idle_of_mixed hmixed with hidle | ⟨hfull, hfull'⟩
    · refine .inr (.inl ⟨hmixed, hidle, fun a ha => ?_⟩)
      exact (hoff a ha.2.1 ha.2.2).trans (hsame a ha.1)
    · exact .inr (.inr (.inl (hcopied e hoff hfull hfull')))
  · rw [writeIndex_run]
    have hlogged := hcopied (Function.update (Function.update d₁.contents log.first t.full.1)
      log.second t.full.2) (fun a hne hne' => by simp [hne, hne'])
      (by simp [log.apart]) (by simp)
    exact (t.carryOut_always hlogged).mono fun e he => .inr (.inr he)

end Transaction

end SplitLog

end HddChecker
