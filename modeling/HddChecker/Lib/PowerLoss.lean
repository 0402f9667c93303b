import Mathlib.Logic.Function.Basic
import Mathlib.Tactic.Common

/-!
# Disks that lose their write cache

A disk keeps a durable content and the writes it was given since its cache was last flushed. When the power goes, each address holds its durable value or one of the values still pending for it, in any combination. A property that every content left by a power loss has, at whatever operation of a sequence it comes, is `Always`.

The second half is the redo log: a transaction that copies its writes to a log area, names them in an index, carries them out in place and clears the index, each step behind a flush of the cache.
-/

namespace HddChecker

variable {α : Type}

/-- One operation of a driver on a disk. -/
inductive DiskOp (α : Type) where
  | write (address : Nat) (value : α)
  | flush

/-- The content a list of writes leaves, the later ones last. -/
def applyWrites (writes : List (Nat × α)) (content : Nat → α) : Nat → α :=
  writes.foldl (fun c w => Function.update c w.1 w.2) content

@[simp] theorem applyWrites_nil (content : Nat → α) : applyWrites [] content = content := rfl

@[simp] theorem applyWrites_cons (w : Nat × α) (writes : List (Nat × α)) (content : Nat → α) :
    applyWrites (w :: writes) content = applyWrites writes (Function.update content w.1 w.2) := rfl

theorem applyWrites_append (first second : List (Nat × α)) (content : Nat → α) :
    applyWrites (first ++ second) content = applyWrites second (applyWrites first content) :=
  List.foldl_append

theorem applyWrites_of_not_mem {writes : List (Nat × α)} {content : Nat → α} {a : Nat}
    (h : ∀ w ∈ writes, w.1 ≠ a) : applyWrites writes content a = content a := by
  induction writes generalizing content with
  | nil => rfl
  | cons w writes ih =>
    rw [applyWrites_cons, ih fun w' hw' => h w' (List.mem_cons_of_mem _ hw'),
      Function.update_of_ne (h w List.mem_cons_self).symm]

theorem applyWrites_mem (writes : List (Nat × α)) (content : Nat → α) (a : Nat) :
    applyWrites writes content a = content a ∨ (a, applyWrites writes content a) ∈ writes := by
  induction writes generalizing content with
  | nil => exact .inl rfl
  | cons w writes ih =>
    rw [applyWrites_cons]
    rcases ih (Function.update content w.1 w.2) with h | h
    · by_cases ha : a = w.1
      · subst ha
        right
        rw [h, Function.update_self]
        exact List.mem_cons_self
      · left
        rw [h, Function.update_of_ne ha]
    · exact .inr (List.mem_cons_of_mem _ h)

/-- An address that is written twice only with one value holds that value. -/
theorem applyWrites_of_mem {writes : List (Nat × α)} {content : Nat → α} {a : Nat} {x : α}
    (hmem : (a, x) ∈ writes) (huniq : ∀ y, (a, y) ∈ writes → y = x) :
    applyWrites writes content a = x := by
  induction writes generalizing content with
  | nil => cases hmem
  | cons w writes ih =>
    rw [applyWrites_cons]
    by_cases hrest : ∃ y, (a, y) ∈ writes
    · obtain ⟨y, hy⟩ := hrest
      have hyx := huniq y (List.mem_cons_of_mem _ hy)
      subst hyx
      exact ih hy fun z hz => huniq z (List.mem_cons_of_mem _ hz)
    · have hnot : ∀ w' ∈ writes, w'.1 ≠ a := by
        rintro ⟨b, y⟩ hw' rfl
        exact hrest ⟨y, hw'⟩
      rw [applyWrites_of_not_mem hnot]
      rcases List.mem_cons.mp hmem with rfl | hmem
      · exact Function.update_self ..
      · exact (hrest ⟨x, hmem⟩).elim

/-- Writes over two contents that agree outside the written addresses leave the same content. -/
theorem applyWrites_congr {writes : List (Nat × α)} {c d : Nat → α} {a : Nat}
    (h : (∀ w ∈ writes, w.1 ≠ a) → c a = d a) : applyWrites writes c a = applyWrites writes d a := by
  induction writes generalizing c d with
  | nil => exact h (by simp)
  | cons w writes ih =>
    rw [applyWrites_cons, applyWrites_cons]
    apply ih
    intro hnot
    by_cases ha : a = w.1
    · subst ha
      rw [Function.update_self, Function.update_self]
    · rw [Function.update_of_ne ha, Function.update_of_ne ha]
      refine h fun w' hw' => ?_
      rcases List.mem_cons.mp hw' with rfl | hw'
      · exact fun heq => ha heq.symm
      · exact hnot w' hw'

/-- A disk with a write cache. -/
structure WriteBack (α : Type) where
  durable : Nat → α
  pending : List (Nat × α)

namespace WriteBack

def contents (d : WriteBack α) : Nat → α := applyWrites d.pending d.durable

def step (d : WriteBack α) : DiskOp α → WriteBack α
  | .write a x => { d with pending := d.pending ++ [(a, x)] }
  | .flush => ⟨d.contents, []⟩

def run (d : WriteBack α) (ops : List (DiskOp α)) : WriteBack α := ops.foldl step d

/-- The contents the power may leave when it goes now. -/
def Loses (d : WriteBack α) (c : Nat → α) : Prop :=
  ∀ a, c a = d.durable a ∨ (a, c a) ∈ d.pending

/-- Every content left by a power loss before, between or after the operations has `P`. -/
def Always (P : (Nat → α) → Prop) (d : WriteBack α) (ops : List (DiskOp α)) : Prop :=
  ∀ n c, (d.run (ops.take n)).Loses c → P c

@[simp] theorem run_nil (d : WriteBack α) : d.run [] = d := rfl

@[simp] theorem run_cons (d : WriteBack α) (op : DiskOp α) (ops : List (DiskOp α)) :
    d.run (op :: ops) = (d.step op).run ops := rfl

theorem run_append (d : WriteBack α) (first second : List (DiskOp α)) :
    d.run (first ++ second) = (d.run first).run second := List.foldl_append

theorem loses_contents (d : WriteBack α) : d.Loses d.contents :=
  fun a => applyWrites_mem d.pending d.durable a

theorem loses_of_no_pending {c e : Nat → α} (h : (WriteBack.mk c []).Loses e) : e = c := by
  funext a
  simpa using h a

theorem Loses.mono {d e : WriteBack α} {c : Nat → α} (h : d.Loses c)
    (hdurable : e.durable = d.durable) (hpending : ∀ w ∈ d.pending, w ∈ e.pending) : e.Loses c :=
  fun a => (h a).imp (fun ha => hdurable ▸ ha) (hpending _)

theorem run_writes (d : WriteBack α) (writes : List (Nat × α)) :
    d.run (writes.map fun w => .write w.1 w.2) = ⟨d.durable, d.pending ++ writes⟩ := by
  induction writes generalizing d with
  | nil => simp
  | cons w writes ih =>
    rw [List.map_cons, run_cons, ih]
    simp [step]

variable {P Q : (Nat → α) → Prop} {d : WriteBack α}

theorem always_nil (h : ∀ c, d.Loses c → P c) : Always P d [] := by
  intro n c hc
  rw [List.take_nil] at hc
  exact h c hc

theorem always_cons {op : DiskOp α} {ops : List (DiskOp α)} (h : ∀ c, d.Loses c → P c)
    (hrest : Always P (d.step op) ops) : Always P d (op :: ops) := by
  intro n c hc
  cases n with
  | zero => exact h c hc
  | succ n =>
    rw [List.take_succ_cons, run_cons] at hc
    exact hrest n c hc

theorem always_append {first second : List (DiskOp α)} (hfirst : Always P d first)
    (hsecond : Always P (d.run first) second) : Always P d (first ++ second) := by
  intro n c hc
  rw [List.take_append] at hc
  by_cases hn : n ≤ first.length
  · rw [show n - first.length = 0 by omega, List.take_zero, List.append_nil] at hc
    exact hfirst n c hc
  · rw [List.take_of_length_le (by omega), run_append] at hc
    exact hsecond _ c hc

theorem Always.mono {ops : List (DiskOp α)} (h : Always P d ops) (hPQ : ∀ c, P c → Q c) :
    Always Q d ops := fun n c hc => hPQ c (h n c hc)

theorem Always.loses {ops : List (DiskOp α)} (h : Always P d ops) {c : Nat → α}
    (hc : (d.run ops).Loses c) : P c := h ops.length c (by rwa [List.take_length])

theorem Always.contents {ops : List (DiskOp α)} (h : Always P d ops) : P (d.run ops).contents :=
  h.loses (loses_contents _)

/-- Unflushed writes are safe when every part of them is. -/
theorem always_writes {writes : List (Nat × α)}
    (h : ∀ c, (WriteBack.mk d.durable (d.pending ++ writes)).Loses c → P c) :
    Always P d (writes.map fun w => .write w.1 w.2) := by
  intro n c hc
  rw [← List.map_take, run_writes] at hc
  refine h c (hc.mono rfl fun w hw => ?_)
  rcases List.mem_append.mp hw with hw | hw
  · exact List.mem_append_left _ hw
  · exact List.mem_append_right _ (List.mem_of_mem_take hw)

end WriteBack

/-! ### The redo log -/

/-- Where a redo log lives: the address of its index, the addresses of its copies, and which index values say that nothing is logged. -/
structure RedoLog (α : Type) where
  index : Nat
  area : Nat → Prop
  idle : α → Prop
  index_not_area : ¬ area index

namespace RedoLog

open WriteBack

/-- A transaction of a redo log: the copies it makes, the index value that names them, the value that clears it, and the writes it carries out in place. -/
structure Transaction (log : RedoLog α) where
  copies : List (Nat × α)
  full : α
  empty : α
  home : List (Nat × α)
  copies_area : ∀ w ∈ copies, log.area w.1
  copies_unique : ∀ a x y, (a, x) ∈ copies → (a, y) ∈ copies → y = x
  empty_idle : log.idle empty
  home_outside : ∀ w ∈ home, ¬ log.area w.1 ∧ w.1 ≠ log.index

variable {log : RedoLog α} (t : log.Transaction)

/-- The addresses that belong to neither the index nor the copies. -/
def Outside (log : RedoLog α) (a : Nat) : Prop := ¬ log.area a ∧ a ≠ log.index

/-- The operations that clear the index. -/
def Transaction.reset : List (DiskOp α) := [.flush, .write log.index t.empty, .flush]

/-- The operations of the in-place writes and the reset. -/
def Transaction.carryOut : List (DiskOp α) :=
  (t.home.map fun w => .write w.1 w.2) ++ t.reset

def Transaction.commit : List (DiskOp α) :=
  (t.copies.map fun w => .write w.1 w.2) ++ ([.flush, .write log.index t.full, .flush] ++ t.carryOut)

/-- Nothing is logged, and outside the log the content is `base`. -/
def Settled (log : RedoLog α) (base c : Nat → α) : Prop :=
  log.idle (c log.index) ∧ ∀ a, log.Outside a → c a = base a

/-- The transaction is logged: all copies are there, and only the addresses of its home writes may differ from `base`. -/
structure Transaction.Logged (base c : Nat → α) : Prop where
  index : c log.index = t.full
  copies : ∀ w ∈ t.copies, c w.1 = w.2
  others : ∀ a, log.Outside a → (∀ w ∈ t.home, w.1 ≠ a) → c a = base a

/-- The content outside the log after the transaction. -/
def Transaction.result (base : Nat → α) : Nat → α := applyWrites t.home base

theorem Transaction.Logged.result_eq {base c : Nat → α} (h : t.Logged base c) {a : Nat}
    (ha : log.Outside a) : applyWrites t.home c a = t.result base a :=
  applyWrites_congr fun hnot => h.others a ha hnot

/-- From a logged content the in-place writes and the reset leave the transaction logged or done, wherever the power goes. -/
theorem Transaction.carryOut_always {base c : Nat → α} (h : t.Logged base c) :
    Always (fun e => t.Logged base e ∨ log.Settled (t.result base) e) ⟨c, []⟩ t.carryOut := by
  have hlogged : ∀ e, (WriteBack.mk c t.home).Loses e → t.Logged base e := by
    intro e he
    have hkeep : ∀ a, (∀ w ∈ t.home, w.1 ≠ a) → e a = c a := fun a ha =>
      (he a).resolve_right fun hmem => ha _ hmem rfl
    refine ⟨?_, fun w hw => ?_, fun a hout ha => (hkeep a ha).trans (h.others a hout ha)⟩
    · rw [hkeep _ fun w hw => (t.home_outside w hw).2, h.index]
    · rw [hkeep _ fun w' hw' heq => (t.home_outside w' hw').1 (heq ▸ t.copies_area w hw),
        h.copies w hw]
  refine always_append (always_writes fun e he => .inl (hlogged e (by simpa using he))) ?_
  rw [run_writes]
  simp only [List.nil_append]
  refine always_cons (fun e he => .inl (hlogged e he)) ?_
  -- the in-place writes are durable from here on
  have hcontents : ∀ e, (∀ a, a ≠ log.index → e a = applyWrites t.home c a) →
      e log.index = applyWrites t.home c log.index ∨ e log.index = t.empty →
      t.Logged base e ∨ log.Settled (t.result base) e := by
    intro e hsame hindex
    rcases hindex with hindex | hindex
    · refine .inl (hlogged e fun a => ?_)
      rw [show e a = applyWrites t.home c a by
        by_cases ha : a = log.index
        · rw [ha, hindex]
        · exact hsame a ha]
      exact applyWrites_mem t.home c a
    · refine .inr ⟨hindex ▸ t.empty_idle, fun a ha => ?_⟩
      rw [hsame a ha.2, h.result_eq t ha]
  refine always_cons (fun e he => hcontents e ?_ ?_) ?_
  · exact fun a _ => congrFun (loses_of_no_pending he) a
  · exact .inl (congrFun (loses_of_no_pending he) _)
  refine always_cons (fun e he => hcontents e (fun a ha => ?_) ?_) ?_
  · rcases he a with hd | hp
    · exact hd
    · simp only [step, List.nil_append, List.mem_singleton, Prod.mk.injEq] at hp
      exact (ha hp.1).elim
  · rcases he log.index with hd | hp
    · exact .inl hd
    · simp only [step, List.nil_append, List.mem_singleton, Prod.mk.injEq] at hp
      exact .inr hp.2
  refine always_nil fun e he => ?_
  have hend := loses_of_no_pending he
  subst hend
  refine hcontents _ (fun a ha => ?_) (.inr ?_)
  · simp [step, contents, ha]
  · simp [step, contents]

theorem Transaction.carryOut_run {base c : Nat → α} (h : t.Logged base c) :
    ∃ e, (WriteBack.mk c []).run t.carryOut = ⟨e, []⟩ ∧ log.Settled (t.result base) e := by
  refine ⟨Function.update (applyWrites t.home c) log.index t.empty, ?_, ?_⟩
  · simp [carryOut, reset, run_append, run_writes, step, contents]
  · refine ⟨by rw [Function.update_self]; exact t.empty_idle, fun a ha => ?_⟩
    rw [Function.update_of_ne ha.2, h.result_eq t ha]

theorem Transaction.logged_of_copies (d : WriteBack α) (e : Nat → α)
    (hsame : ∀ a, a ≠ log.index → e a = applyWrites (d.pending ++ t.copies) d.durable a)
    (hindex : e log.index = t.full) : t.Logged d.contents e := by
  refine ⟨hindex, fun w hw => ?_, fun a ha _ => ?_⟩
  · have harea := t.copies_area w hw
    rw [hsame _ fun heq => log.index_not_area (heq ▸ harea), applyWrites_append]
    exact applyWrites_of_mem hw fun y hy => t.copies_unique _ _ _ hw hy
  · rw [hsame a ha.2, applyWrites_append]
    refine applyWrites_of_not_mem fun w hw heq => ha.1 (heq ▸ t.copies_area w hw)

theorem Transaction.commit_run (d : WriteBack α) :
    d.run t.commit = ⟨Function.update (applyWrites t.home (Function.update
      (applyWrites t.copies d.contents) log.index t.full)) log.index t.empty, []⟩ := by
  simp [commit, carryOut, reset, run_append, run_writes, step, contents, applyWrites_append]

/-- A commit that starts with pending writes of its caller: until the copies are durable the power leaves a mix of these writes, and from then on the caller's writes are durable and the transaction happens as a whole. -/
theorem Transaction.commit_always (d : WriteBack α) :
    Always (fun e => (WriteBack.mk d.durable (d.pending ++ t.copies)).Loses e ∨
      t.Logged d.contents e ∨ log.Settled (t.result d.contents) e) d t.commit := by
  refine always_append (always_writes fun e he => .inl he) ?_
  rw [run_writes]
  refine @always_append _ _ _ [_, _, _] _ ?_ ?_
  · refine always_cons (fun e he => .inl he) ?_
    have hmix : ∀ e, e = applyWrites (d.pending ++ t.copies) d.durable →
        (WriteBack.mk d.durable (d.pending ++ t.copies)).Loses e := by
      rintro e rfl
      exact loses_contents ⟨d.durable, d.pending ++ t.copies⟩
    refine always_cons (fun e he => .inl (hmix e (loses_of_no_pending he))) ?_
    refine always_cons (fun e he => ?_) (always_nil fun e he => ?_)
    · rcases he log.index with hd | hp
      · refine .inl (hmix e (funext fun a => ?_))
        rcases he a with ha | ha
        · exact ha
        · simp only [step, List.nil_append, List.mem_singleton, Prod.mk.injEq] at ha
          rw [ha.1, hd]
          rfl
      · simp only [step, List.nil_append, List.mem_singleton, Prod.mk.injEq] at hp
        refine .inr (.inl (t.logged_of_copies d e ?_ hp.2))
        intro a ha
        rcases he a with hd | hp'
        · exact hd
        · simp only [step, List.nil_append, List.mem_singleton, Prod.mk.injEq] at hp'
          exact (ha hp'.1).elim
    · have hend := loses_of_no_pending he
      subst hend
      refine .inr (.inl (t.logged_of_copies d _ (fun a ha => ?_) ?_))
      · simp [step, contents, ha]
      · simp [step, contents]
  · have hlogged : t.Logged d.contents
        (Function.update (applyWrites (d.pending ++ t.copies) d.durable) log.index t.full) :=
      t.logged_of_copies d _ (fun a ha => Function.update_of_ne ha ..) (Function.update_self ..)
    have hrun : (WriteBack.mk d.durable (d.pending ++ t.copies)).run
        [.flush, .write log.index t.full, .flush] = ⟨_, []⟩ := rfl
    rw [hrun]
    exact (t.carryOut_always hlogged).mono fun e he => .inr he

end RedoLog

end HddChecker
