import Mathlib.Order.Nat
import Mathlib.Order.Lattice
import Mathlib.Tactic.Common

/-!
# Fuelled state programs

A program over a state `σ` is a function of the fuel and the state. It answers `none` when the fuel is too small, and more fuel never changes an answer. The sources of `none` are `Prog.loop`, which spends one unit of fuel on each pass, and `Prog.stuck`, which has no answer at all. Total correctness is `wp`: with some fuel the program ends, and the result is good. Partial correctness is `wlp`: whatever the fuel, an answer is good. A program diverges from a state when no fuel gives an answer.
-/

namespace HddChecker

/-- A program over the state `σ` with a result in `α`. -/
structure Prog (σ α : Type) where
  run : Nat → σ → Option (α × σ)
  more : ∀ {n m s r}, n ≤ m → run n s = some r → run m s = some r

namespace Prog

variable {σ τ α β γ : Type}

protected def pure (a : α) : Prog σ α := ⟨fun _ s => some (a, s), fun _ h => h⟩

protected def bind (p : Prog σ α) (f : α → Prog σ β) : Prog σ β where
  run fuel s :=
    match p.run fuel s with
    | none => none
    | some (a, s') => (f a).run fuel s'
  more hle h := by
    split at h
    · cases h
    · rename_i a s' hp
      rw [p.more hle hp]
      exact (f a).more hle h

instance : Monad (Prog σ) where
  pure := Prog.pure
  bind := Prog.bind

/-- A state function as a program. -/
def ofState (f : σ → α × σ) : Prog σ α := ⟨fun _ s => some (f s), fun _ h => h⟩

def stuck : Prog σ α := ⟨fun _ _ => none, nofun⟩

/-- The value of an observation of the state. -/
def read (f : σ → α) : Prog σ α := ofState fun s => (f s, s)

def modify (f : σ → σ) : Prog σ Unit := ofState fun s => ((), f s)

/-- A program over a part of the state. -/
def zoom (part : σ → τ) (put : τ → σ → σ) (p : Prog τ α) : Prog σ α where
  run fuel s :=
    match p.run fuel (part s) with
    | none => none
    | some (a, t) => some (a, put t s)
  more hle h := by
    split at h
    · cases h
    · rename_i a t hp
      rw [p.more hle hp]
      exact h

/-- `n` passes of a loop body at most. -/
def loopN (body : β → Prog σ (β ⊕ α)) : Nat → β → Nat → σ → Option (α × σ)
  | 0, _, _, _ => none
  | n + 1, b, fuel, s =>
    match (body b).run fuel s with
    | none => none
    | some (.inl b', s') => loopN body n b' fuel s'
    | some (.inr a, s') => some (a, s')

theorem loopN_more {body : β → Prog σ (β ⊕ α)} {n m fuel fuel' : Nat} {b : β} {s : σ} {r : α × σ}
    (hn : n ≤ m) (hfuel : fuel ≤ fuel') (h : loopN body n b fuel s = some r) :
    loopN body m b fuel' s = some r := by
  induction n generalizing m b s with
  | zero => cases h
  | succ n ih =>
    obtain ⟨m, rfl⟩ := Nat.exists_eq_succ_of_ne_zero (show m ≠ 0 by omega)
    rw [loopN] at h ⊢
    split at h
    · cases h
    · rename_i b' s' hb
      rw [(body b).more hfuel hb]
      exact ih (by omega) h
    · rename_i a s' hb
      rw [(body b).more hfuel hb]
      exact h

/-- The body runs on the loop variables until it answers `inr`. -/
def loop (body : β → Prog σ (β ⊕ α)) (b : β) : Prog σ α :=
  ⟨fun fuel s => loopN body fuel b fuel s, fun hle h => loopN_more hle hle h⟩

/-! ### Runs -/

/-- The program ends in `a` and `s'`. -/
def Runs (p : Prog σ α) (s : σ) (a : α) (s' : σ) : Prop := ∃ fuel, p.run fuel s = some (a, s')

theorem Runs.unique {p : Prog σ α} {s s₁ s₂ : σ} {a₁ a₂ : α} (h₁ : Runs p s a₁ s₁)
    (h₂ : Runs p s a₂ s₂) : a₁ = a₂ ∧ s₁ = s₂ := by
  obtain ⟨n₁, h₁⟩ := h₁
  obtain ⟨n₂, h₂⟩ := h₂
  have heq := (p.more (le_max_left n₁ n₂) h₁).symm.trans (p.more (le_max_right n₁ n₂) h₂)
  simpa using heq

theorem runs_pure (a : α) (s : σ) : Runs (pure a) s a s := ⟨0, rfl⟩

theorem runs_ofState (f : σ → α × σ) (s : σ) : Runs (ofState f) s (f s).1 (f s).2 := ⟨0, rfl⟩

/-- A run that was computed. -/
theorem runs_of_any {p : Prog σ α} {s : σ} {P : α → σ → Bool} (n : Nat)
    (h : (p.run n s).any (fun r => P r.1 r.2) = true) : ∃ a s', Runs p s a s' ∧ P a s' = true := by
  cases hrun : p.run n s with
  | none =>
    rw [hrun] at h
    cases h
  | some r =>
    rw [hrun] at h
    exact ⟨r.1, r.2, ⟨n, hrun⟩, h⟩

theorem Runs.bind {p : Prog σ α} {f : α → Prog σ β} {s s₁ s₂ : σ} {a : α} {b : β}
    (hp : Runs p s a s₁) (hf : Runs (f a) s₁ b s₂) : Runs (p >>= f) s b s₂ := by
  obtain ⟨n₁, hp⟩ := hp
  obtain ⟨n₂, hf⟩ := hf
  refine ⟨max n₁ n₂, ?_⟩
  change (Prog.bind p f).run _ s = _
  simp only [Prog.bind, p.more (le_max_left n₁ n₂) hp]
  exact (f a).more (le_max_right n₁ n₂) hf

theorem Runs.zoom {part : σ → τ} {put : τ → σ → σ} {p : Prog τ α} {s : σ} {a : α} {t : τ}
    (hp : Runs p (part s) a t) : Runs (Prog.zoom part put p) s a (put t s) := by
  obtain ⟨n, hp⟩ := hp
  refine ⟨n, ?_⟩
  simp only [Prog.zoom, hp]

theorem Runs.done {body : β → Prog σ (β ⊕ α)} {b : β} {s s' : σ} {a : α}
    (hbody : Runs (body b) s (.inr a) s') : Runs (loop body b) s a s' := by
  obtain ⟨n, hbody⟩ := hbody
  refine ⟨n + 1, ?_⟩
  simp only [loop, loopN, (body b).more (Nat.le_succ n) hbody]

theorem Runs.step {body : β → Prog σ (β ⊕ α)} {b b' : β} {s s' s'' : σ} {a : α}
    (hbody : Runs (body b) s (.inl b') s') (hrest : Runs (loop body b') s' a s'') :
    Runs (loop body b) s a s'' := by
  obtain ⟨n, hbody⟩ := hbody
  obtain ⟨m, hrest⟩ := hrest
  refine ⟨n + m + 1, ?_⟩
  simp only [loop, loopN, (body b).more (show n ≤ n + m + 1 by omega) hbody]
  exact loopN_more (by omega) (by omega) hrest

/-! ### Total correctness -/

/-- The program ends, and in a result that meets `Q`. -/
def wp (p : Prog σ α) (s : σ) (Q : α → σ → Prop) : Prop := ∃ a s', Runs p s a s' ∧ Q a s'

theorem wp_pure {a : α} {s : σ} {Q : α → σ → Prop} (h : Q a s) : wp (pure a) s Q :=
  ⟨a, s, runs_pure a s, h⟩

theorem wp_ofState {f : σ → α × σ} {s : σ} {Q : α → σ → Prop} (h : Q (f s).1 (f s).2) :
    wp (ofState f) s Q := ⟨_, _, runs_ofState f s, h⟩

theorem wp_modify {f : σ → σ} {s : σ} {Q : Unit → σ → Prop} (h : Q () (f s)) :
    wp (modify f) s Q := wp_ofState h

theorem wp_bind {p : Prog σ α} {f : α → Prog σ β} {s : σ} {Q : β → σ → Prop}
    (h : wp p s fun a s' => wp (f a) s' Q) : wp (p >>= f) s Q := by
  obtain ⟨a, s₁, hp, b, s₂, hf, hQ⟩ := h
  exact ⟨b, s₂, hp.bind hf, hQ⟩

theorem wp_pure_iff {a : α} {s : σ} {Q : α → σ → Prop} : wp (pure a) s Q ↔ Q a s := by
  constructor
  · rintro ⟨a', s', hrun, hQ⟩
    obtain ⟨rfl, rfl⟩ := hrun.unique (runs_pure a s)
    exact hQ
  · exact wp_pure

theorem wp_ofState_bind {f : σ → α × σ} {g : α → Prog σ β} {s : σ} {Q : β → σ → Prop} :
    wp (ofState f >>= g) s Q ↔ wp (g (f s).1) (f s).2 Q := Iff.rfl

theorem wp_read_bind {f : σ → α} {g : α → Prog σ β} {s : σ} {Q : β → σ → Prop} :
    wp (read f >>= g) s Q ↔ wp (g (f s)) s Q := Iff.rfl

theorem wp_modify_bind {f : σ → σ} {g : Unit → Prog σ β} {s : σ} {Q : β → σ → Prop} :
    wp (modify f >>= g) s Q ↔ wp (g ()) (f s) Q := Iff.rfl

theorem wp_zoom {part : σ → τ} {put : τ → σ → σ} {p : Prog τ α} {s : σ} {Q : α → σ → Prop}
    (h : wp p (part s) fun a t => Q a (put t s)) : wp (zoom part put p) s Q := by
  obtain ⟨a, t, hp, hQ⟩ := h
  exact ⟨a, put t s, hp.zoom, hQ⟩

theorem wp.mono {p : Prog σ α} {s : σ} {Q R : α → σ → Prop} (h : wp p s Q)
    (hQR : ∀ a s', Q a s' → R a s') : wp p s R := by
  obtain ⟨a, s', hp, hQ⟩ := h
  exact ⟨a, s', hp, hQR a s' hQ⟩

/-- The loop rule of total correctness: an invariant of the loop variables and the state, and a measure that every pass which goes on lowers. -/
theorem wp_loop {body : β → Prog σ (β ⊕ α)} (Inv : β → σ → Prop) (measure : β → σ → Nat)
    {Q : α → σ → Prop}
    (hbody : ∀ b s, Inv b s → wp (body b) s fun r s' =>
      match r with
      | .inl b' => Inv b' s' ∧ measure b' s' < measure b s
      | .inr a => Q a s')
    {b : β} {s : σ} (hinv : Inv b s) : wp (loop body b) s Q := by
  induction hn : measure b s using Nat.strongRecOn generalizing b s with
  | ind n ih =>
    subst hn
    obtain ⟨r, s₁, hrun, hres⟩ := hbody b s hinv
    cases r with
    | inl b' =>
      obtain ⟨a, s', hloop, hQ⟩ := ih _ hres.2 hres.1 rfl
      exact ⟨a, s', hrun.step hloop, hQ⟩
    | inr a => exact ⟨a, s₁, hrun.done, hres⟩

/-- A loop makes a pass, and then it goes on or ends. -/
theorem wp_loop_pass {body : β → Prog σ (β ⊕ α)} {b : β} {s : σ} {Q : α → σ → Prop}
    (h : wp (body b) s fun r s' =>
      match r with
      | .inl b' => wp (loop body b') s' Q
      | .inr a => Q a s') : wp (loop body b) s Q := by
  obtain ⟨r, s₁, hrun, hres⟩ := h
  cases r with
  | inl b' =>
    obtain ⟨a, s', hloop, hQ⟩ := hres
    exact ⟨a, s', hrun.step hloop, hQ⟩
  | inr a => exact ⟨a, s₁, hrun.done, hres⟩

/-! ### Partial correctness -/

/-- Every answer of the program meets `Q`. -/
def wlp (p : Prog σ α) (s : σ) (Q : α → σ → Prop) : Prop := ∀ a s', Runs p s a s' → Q a s'

def Diverges (p : Prog σ α) (s : σ) : Prop := ∀ a s', ¬ Runs p s a s'

theorem wlp_pure {a : α} {s : σ} {Q : α → σ → Prop} (h : Q a s) : wlp (pure a) s Q := by
  intro a' s' hrun
  obtain ⟨rfl, rfl⟩ := hrun.unique (runs_pure a s)
  exact h

theorem wlp_stuck {s : σ} {Q : α → σ → Prop} : wlp stuck s Q := by
  rintro a s' ⟨fuel, h⟩
  cases h

theorem wlp_ofState {f : σ → α × σ} {s : σ} {Q : α → σ → Prop} (h : Q (f s).1 (f s).2) :
    wlp (ofState f) s Q := by
  intro a s' hrun
  obtain ⟨rfl, rfl⟩ := hrun.unique (runs_ofState f s)
  exact h

theorem Runs.of_bind {p : Prog σ α} {f : α → Prog σ β} {s s₂ : σ} {b : β}
    (h : Runs (p >>= f) s b s₂) : ∃ a s₁, Runs p s a s₁ ∧ Runs (f a) s₁ b s₂ := by
  obtain ⟨n, h⟩ := h
  change (Prog.bind p f).run n s = _ at h
  simp only [Prog.bind] at h
  split at h
  · cases h
  · rename_i a s₁ hp
    exact ⟨a, s₁, ⟨n, hp⟩, n, h⟩

theorem wlp_bind {p : Prog σ α} {f : α → Prog σ β} {s : σ} {Q : β → σ → Prop}
    (h : wlp p s fun a s' => wlp (f a) s' Q) : wlp (p >>= f) s Q := by
  intro b s₂ hrun
  obtain ⟨a, s₁, hp, hf⟩ := hrun.of_bind
  exact h a s₁ hp b s₂ hf

/-- Whatever the first of two programs does, the second meets `Q`. -/
theorem wlp_bind_any {p : Prog σ α} {f : α → Prog σ β} {s : σ} {Q : β → σ → Prop}
    (h : ∀ a s', wlp (f a) s' Q) : wlp (p >>= f) s Q :=
  wlp_bind fun a s' _ => h a s'

theorem wlp.mono {p : Prog σ α} {s : σ} {Q R : α → σ → Prop} (h : wlp p s Q)
    (hQR : ∀ a s', Q a s' → R a s') : wlp p s R :=
  fun a s' hp => hQR a s' (h a s' hp)

/-- What a program that ends in `Q` answers meets `Q`. -/
theorem wp.wlp {p : Prog σ α} {s : σ} {Q : α → σ → Prop} (h : wp p s Q) : Prog.wlp p s Q := by
  obtain ⟨a, s', hp, hQ⟩ := h
  intro a' s'' hp'
  obtain ⟨rfl, rfl⟩ := hp.unique hp'
  exact hQ

theorem wp.and_wlp {p : Prog σ α} {s : σ} {Q R : α → σ → Prop} (h : wp p s Q)
    (h' : Prog.wlp p s R) : wp p s fun a s' => Q a s' ∧ R a s' := by
  obtain ⟨a, s', hp, hQ⟩ := h
  exact ⟨a, s', hp, hQ, h' a s' hp⟩

/-- The loop rule of partial correctness. -/
theorem wlp_loop {body : β → Prog σ (β ⊕ α)} (Inv : β → σ → Prop) {Q : α → σ → Prop}
    (hbody : ∀ b s, Inv b s → wlp (body b) s fun r s' =>
      match r with
      | .inl b' => Inv b' s'
      | .inr a => Q a s')
    {b : β} {s : σ} (hinv : Inv b s) : wlp (loop body b) s Q := by
  rintro a s' ⟨fuel, hrun⟩
  suffices h : ∀ n, loopN body n b fuel s = some (a, s') → Q a s' from h fuel hrun
  clear hrun
  intro n
  induction n generalizing b s with
  | zero =>
    intro hrun
    cases hrun
  | succ n ih =>
    intro hrun
    rw [loopN] at hrun
    split at hrun
    · cases hrun
    · rename_i b' s₁ hb
      exact ih (hbody b s hinv _ _ ⟨fuel, hb⟩) hrun
    · rename_i a' s₁ hb
      cases hrun
      exact hbody b s hinv _ _ ⟨fuel, hb⟩

/-- A loop makes a pass, and then it goes on or ends. -/
theorem wlp_loop_pass {body : β → Prog σ (β ⊕ α)} {b : β} {s : σ} {Q : α → σ → Prop}
    (h : wlp (body b) s fun r s' =>
      match r with
      | .inl b' => wlp (loop body b') s' Q
      | .inr a => Q a s') : wlp (loop body b) s Q := by
  rintro a s' ⟨fuel, hrun⟩
  cases fuel with
  | zero => cases hrun
  | succ n =>
    change loopN body (n + 1) b (n + 1) s = some (a, s') at hrun
    rw [loopN] at hrun
    split at hrun
    · cases hrun
    · rename_i b' s₁ hb
      exact h _ _ ⟨n + 1, hb⟩ a s' ⟨n + 1, loopN_more (Nat.le_succ n) le_rfl hrun⟩
    · rename_i a' s₁ hb
      cases hrun
      exact h _ _ ⟨n + 1, hb⟩

theorem wlp_ofState_bind {f : σ → α × σ} {g : α → Prog σ β} {s : σ} {Q : β → σ → Prop} :
    wlp (ofState f >>= g) s Q ↔ wlp (g (f s).1) (f s).2 Q := Iff.rfl

theorem wlp_read_bind {f : σ → α} {g : α → Prog σ β} {s : σ} {Q : β → σ → Prop} :
    wlp (read f >>= g) s Q ↔ wlp (g (f s)) s Q := Iff.rfl

theorem wlp_modify_bind {f : σ → σ} {g : Unit → Prog σ β} {s : σ} {Q : β → σ → Prop} :
    wlp (modify f >>= g) s Q ↔ wlp (g ()) (f s) Q := Iff.rfl

theorem wlp_modify {f : σ → σ} {s : σ} {Q : Unit → σ → Prop} (h : Q () (f s)) :
    wlp (modify f) s Q := wlp_ofState h

theorem wlp_zoom {part : σ → τ} {put : τ → σ → σ} {p : Prog τ α} {s : σ} {Q : α → σ → Prop}
    (h : wlp p (part s) fun a t => Q a (put t s)) : wlp (zoom part put p) s Q := by
  rintro a s' ⟨n, hrun⟩
  simp only [zoom] at hrun
  split at hrun
  · cases hrun
  · rename_i a' t hp
    cases hrun
    exact h a t ⟨n, hp⟩

/-! ### Conditions on the past

A condition that a program reflects holds before it when it holds after it: a record of the past in which nothing bad is found. Under such a condition the steps of a program can be followed as if nothing bad could happen.
-/

/-- `F` after the program only where it held before. -/
def Reflects (F : σ → Prop) (p : Prog σ α) : Prop := ∀ s a s', Runs p s a s' → F s' → F s

variable {F : σ → Prop}

theorem reflects_pure (a : α) : Reflects F (pure a) := fun _ => wlp_pure id

theorem reflects_ofState {f : σ → α × σ} (h : ∀ s, F (f s).2 → F s) : Reflects F (ofState f) :=
  fun s => wlp_ofState (h s)

theorem Reflects.bind {p : Prog σ α} {f : α → Prog σ β} (hp : Reflects F p)
    (hf : ∀ a, Reflects F (f a)) : Reflects F (p >>= f) := by
  intro s b s₂ hrun hF
  obtain ⟨a, s₁, hrun, hrun'⟩ := hrun.of_bind
  exact hp s a s₁ hrun (hf a s₁ b s₂ hrun' hF)

theorem Reflects.loop {body : β → Prog σ (β ⊕ α)} (hbody : ∀ b, Reflects F (body b)) (b : β) :
    Reflects F (loop body b) := by
  intro s
  refine wlp_loop (fun _ s' => F s' → F s) (fun b' s₁ hinv => ?_) (fun hF => hF)
  intro r s₂ hrun
  have hback := hbody b' s₁ r s₂ hrun
  cases r with
  | inl b'' => exact fun hF => hinv (hback hF)
  | inr a => exact fun hF => hinv (hback hF)

theorem reflects_zoom {part : σ → τ} {put : τ → σ → σ} {p : Prog τ α}
    (h : ∀ s t, F (put t s) → F s) : Reflects F (zoom part put p) :=
  fun s => wlp_zoom fun _ t _ => h s t

/-- The first of two programs is followed under the condition, and so is the second. -/
theorem wlp_bind_of_reflects {p : Prog σ α} {f : α → Prog σ β} {s : σ} {A : α → σ → Prop}
    {Q : β → σ → Prop} (hp : wlp p s fun a s' => F s' → A a s') (hback : ∀ a, Reflects F (f a))
    (hf : ∀ a s', A a s' → wlp (f a) s' fun b s'' => F s'' → Q b s'') :
    wlp (p >>= f) s fun b s'' => F s'' → Q b s'' := by
  intro b s₂ hrun hF
  obtain ⟨a, s₁, hrun, hrun'⟩ := hrun.of_bind
  have hA := hp a s₁ hrun (hback a s₁ b s₂ hrun' hF)
  exact hf a s₁ hA b s₂ hrun' hF

/-- The loop rule under a condition that the body reflects. -/
theorem wlp_loop_of_reflects {body : β → Prog σ (β ⊕ α)} (Inv : β → σ → Prop) {Q : α → σ → Prop}
    (hback : ∀ b, Reflects F (body b))
    (hbody : ∀ b s, Inv b s → wlp (body b) s fun r s' => F s' →
      match r with
      | .inl b' => Inv b' s'
      | .inr a => Q a s')
    {b : β} {s : σ} (hinv : Inv b s) : wlp (loop body b) s fun a s' => F s' → Q a s' := by
  refine wlp_loop (fun b' s' => F s' → Inv b' s') (fun b' s₁ hinv => ?_) (fun _ => hinv)
  intro r s₂ hrun
  have hF := hback b' s₁ r s₂ hrun
  cases r with
  | inl b'' => exact fun hF' => hbody b' s₁ (hinv (hF hF')) _ _ hrun hF'
  | inr a => exact fun hF' => hbody b' s₁ (hinv (hF hF')) _ _ hrun hF'

/-! ### Preserved conditions -/

/-- `I` after the program where it held before. -/
def Preserves (I : σ → Prop) (p : Prog σ α) : Prop := ∀ s, I s → wlp p s fun _ s' => I s'

variable {I : σ → Prop}

theorem preserves_pure (a : α) : Preserves I (pure a) := fun _ h => wlp_pure h

theorem preserves_ofState {f : σ → α × σ} (h : ∀ s, I s → I (f s).2) : Preserves I (ofState f) :=
  fun s hI => wlp_ofState (h s hI)

theorem preserves_read (f : σ → α) : Preserves I (read f) := preserves_ofState fun _ h => h

theorem Preserves.bind {p : Prog σ α} {f : α → Prog σ β} (hp : Preserves I p)
    (hf : ∀ a, Preserves I (f a)) : Preserves I (p >>= f) :=
  fun s hI => wlp_bind ((hp s hI).mono fun a s' hI' => hf a s' hI')

theorem Preserves.loop {body : β → Prog σ (β ⊕ α)} (hbody : ∀ b, Preserves I (body b)) (b : β) :
    Preserves I (loop body b) := by
  intro s hI
  refine wlp_loop (fun _ s' => I s') (fun b' s' hI' => (hbody b' s' hI').mono ?_) hI
  intro r s'' hI''
  cases r <;> exact hI''

end Prog

end HddChecker
