import Mathlib.Data.List.Induction
import Mathlib.Data.List.Nodup
import Mathlib.Tactic.Common

/-!
# Doubly linked rings in a store

A store keeps nodes at keys. A node has a `next` and a `prev` key and a body, which knows its own key. `Chain` says that a list of bodies is linked in both directions between two given ends, and `Ring` closes it: the first node, at key 0, names the last one as its `prev`, and the last one names 0 as its `next`. The edits below are those of a list that is kept under its keys: a segment is replaced, the tail is cut off, the bodies are changed in place.
-/

namespace HddChecker

/-- How the nodes of a store are read. -/
structure Linked (ν β : Type) where
  key : β → Nat
  body : ν → β
  next : ν → Nat
  prev : ν → Nat

namespace Linked

variable {ν β : Type} (l : Linked ν β)

/-- The key of the first of `L`, or `n` where there is none. -/
def head (L : List β) (n : Nat) : Nat :=
  match L with
  | [] => n
  | x :: _ => l.key x

/-- The key of the last of `L`, or `p` where there is none. -/
def last (p : Nat) : List β → Nat
  | [] => p
  | x :: L => last (l.key x) L

@[simp] theorem head_nil (n : Nat) : l.head [] n = n := rfl

@[simp] theorem head_cons (x : β) (L : List β) (n : Nat) : l.head (x :: L) n = l.key x := rfl

@[simp] theorem last_nil (p : Nat) : l.last p [] = p := rfl

@[simp] theorem last_cons (p : Nat) (x : β) (L : List β) : l.last p (x :: L) = l.last (l.key x) L :=
  rfl

theorem head_append (A B : List β) (n : Nat) : l.head (A ++ B) n = l.head A (l.head B n) := by
  cases A <;> rfl

theorem last_append (p : Nat) (A B : List β) : l.last p (A ++ B) = l.last (l.last p A) B := by
  induction A generalizing p with
  | nil => rfl
  | cons x A ih => exact ih _

theorem last_of_ne_nil {L : List β} (h : L ≠ []) (p q : Nat) : l.last p L = l.last q L := by
  cases L with
  | nil => exact (h rfl).elim
  | cons x L => rfl

theorem head_of_ne_nil {L : List β} (h : L ≠ []) (n n' : Nat) : l.head L n = l.head L n' := by
  cases L with
  | nil => exact (h rfl).elim
  | cons x L => rfl

private theorem head_map {f : β → β} (hf : ∀ x, l.key (f x) = l.key x) (L : List β) (n : Nat) :
    l.head (L.map f) n = l.head L n := by
  cases L with
  | nil => rfl
  | cons x L => exact hf x

private theorem last_map {f : β → β} (hf : ∀ x, l.key (f x) = l.key x) (p : Nat) (L : List β) :
    l.last p (L.map f) = l.last p L := by
  induction L generalizing p with
  | nil => rfl
  | cons x L ih =>
    rw [List.map_cons, last_cons, last_cons, hf]
    exact ih _

/-- The bodies `L` are linked in the store: `p` comes before the first and `n` after the last. -/
def Chain (V : Nat → Option ν) : Nat → List β → Nat → Prop
  | _, [], _ => True
  | p, x :: L, n =>
    (∃ h, V (l.key x) = some h ∧ l.body h = x ∧ l.prev h = p ∧ l.next h = l.head L n) ∧
      Chain V (l.key x) L n

/-- The bodies `L` are linked to a ring through key 0. -/
def Ring (V : Nat → Option ν) (L : List β) : Prop := l.Chain V (l.last 0 L) L 0

variable {l} {V W : Nat → Option ν}

theorem chain_append {p n : Nat} {A B : List β} :
    l.Chain V p (A ++ B) n ↔ l.Chain V p A (l.head B n) ∧ l.Chain V (l.last p A) B n := by
  induction A generalizing p with
  | nil => simp [Chain]
  | cons x A ih => simp [Chain, ih, head_append, and_assoc]

theorem Chain.congr {p n : Nat} {L : List β} (h : l.Chain V p L n)
    (heq : ∀ x ∈ L, W (l.key x) = V (l.key x)) : l.Chain W p L n := by
  induction L generalizing p with
  | nil => trivial
  | cons x L ih =>
    refine ⟨?_, ih h.2 fun y hy => heq y (List.mem_cons_of_mem _ hy)⟩
    rw [heq x List.mem_cons_self]
    exact h.1

theorem Chain.mem {p n : Nat} {L : List β} (h : l.Chain V p L n) {x : β} (hx : x ∈ L) :
    ∃ v, V (l.key x) = some v ∧ l.body v = x := by
  induction L generalizing p with
  | nil => cases hx
  | cons y L ih =>
    rcases List.mem_cons.mp hx with rfl | hx
    · obtain ⟨v, hv, hb, -⟩ := h.1
      exact ⟨v, hv, hb⟩
    · exact ih h.2 hx

/-- A store holds one chain from a node to the end at key 0. -/
theorem Chain.unique {p p' : Nat} {L L' : List β} (h : l.Chain V p L 0) (h' : l.Chain V p' L' 0)
    (hne : ∀ x ∈ L, l.key x ≠ 0) (hne' : ∀ x ∈ L', l.key x ≠ 0) (hhead : l.head L 0 = l.head L' 0) :
    L = L' := by
  induction L generalizing p p' L' with
  | nil =>
    cases L' with
    | nil => rfl
    | cons y L' => exact (hne' y List.mem_cons_self hhead.symm).elim
  | cons x L ih =>
    cases L' with
    | nil => exact (hne x List.mem_cons_self hhead).elim
    | cons y L' =>
      obtain ⟨⟨v, hv, hbody, -, hnext⟩, hrest⟩ := h
      obtain ⟨⟨v', hv', hbody', -, hnext'⟩, hrest'⟩ := h'
      have hkey : l.key x = l.key y := hhead
      obtain rfl := Option.some.inj (hv.symm.trans (hkey ▸ hv'))
      rw [← hbody, ← hbody', ih hrest hrest' (fun z hz => hne z (List.mem_cons_of_mem _ hz))
        (fun z hz => hne' z (List.mem_cons_of_mem _ hz)) (hnext.symm.trans hnext')]

theorem Chain.node {p n : Nat} {A B : List β} {x : β} (h : l.Chain V p (A ++ x :: B) n) :
    ∃ v, V (l.key x) = some v ∧ l.body v = x ∧ l.prev v = l.last p A ∧ l.next v = l.head B n :=
  (chain_append.mp h).2.1

theorem Chain.rehang {p p' n : Nat} {x : β} {L : List β} (h : l.Chain V p (x :: L) n)
    (hnodup : ∀ y ∈ L, l.key y ≠ l.key x)
    (hx : ∀ v, V (l.key x) = some v → ∃ v', W (l.key x) = some v' ∧ l.body v' = l.body v ∧
      l.prev v' = p' ∧ l.next v' = l.next v)
    (heq : ∀ y ∈ L, l.key y ≠ l.key x → W (l.key y) = V (l.key y)) :
    l.Chain W p' (x :: L) n := by
  obtain ⟨⟨v, hv, hbody, -, hnext⟩, hrest⟩ := h
  obtain ⟨v', hv', hbody', hprev', hnext'⟩ := hx v hv
  exact ⟨⟨v', hv', hbody'.trans hbody, hprev', hnext'.trans hnext⟩,
    hrest.congr fun y hy => heq y hy (hnodup y hy)⟩

/-- The keys of a ring that starts at key 0. -/
structure Keys (l : Linked ν β) (m : β) (L : List β) : Prop where
  zero : l.key m = 0
  nodup : ((m :: L).map l.key).Nodup

theorem Keys.ne_zero {m : β} {L : List β} (h : l.Keys m L) {y : β} (hy : y ∈ L) : l.key y ≠ 0 := by
  have hnodup := h.nodup
  rw [List.map_cons, List.nodup_cons, h.zero] at hnodup
  exact fun heq => hnodup.1 (heq ▸ List.mem_map_of_mem hy)

theorem Keys.disjoint {m : β} {A B : List β} (h : l.Keys m (A ++ B)) {x y : β} (hx : x ∈ A)
    (hy : y ∈ B) : l.key x ≠ l.key y := by
  have hnodup := h.nodup
  rw [List.map_cons, List.nodup_cons, List.map_append] at hnodup
  exact (List.nodup_append.mp hnodup.2).2.2 _ (List.mem_map_of_mem hx) _ (List.mem_map_of_mem hy)

section Edits

variable {A B X Y : List β} {m : β}

/-- A segment of the ring is replaced by one that starts at the same key, and the node after it is told its new predecessor. -/
theorem Ring.splice (h : l.Ring V (m :: (A ++ (X ++ B)))) (hkeys : l.Keys m (A ++ (X ++ B)))
    (hX : X ≠ []) (hY : Y ≠ []) (hhead : l.head Y 0 = l.head X 0)
    (hseg : l.Chain W (l.last 0 (m :: A)) Y (l.head B 0))
    (hafter : ∀ v, V (l.head B 0) = some v → ∃ v', W (l.head B 0) = some v' ∧
      l.body v' = l.body v ∧ l.prev v' = l.last 0 Y ∧ l.next v' = l.next v)
    (hrest : ∀ y ∈ m :: (A ++ B), l.key y ≠ l.head B 0 → W (l.key y) = V (l.key y)) :
    l.Ring W (m :: (A ++ (Y ++ B))) := by
  obtain ⟨⟨v, hv, hbody, hprev, hnext⟩, htail⟩ := h
  obtain ⟨hA, hXB⟩ := chain_append.mp htail
  obtain ⟨-, hB⟩ := chain_append.mp hXB
  have hheads : ∀ n, l.head Y n = l.head X n := by
    intro n
    rw [l.head_of_ne_nil hY n 0, hhead, l.head_of_ne_nil hX 0 n]
  have hnotB : ∀ y ∈ A, l.key y ≠ l.head B 0 := by
    intro y hy
    cases B with
    | nil => exact hkeys.ne_zero (List.mem_append_left _ hy)
    | cons b B => exact hkeys.disjoint hy (List.mem_append_right _ List.mem_cons_self)
  -- the first node has a new predecessor when the segment ends the ring
  have hfirst : ∃ v', W (l.key m) = some v' ∧ l.body v' = m ∧
      l.prev v' = l.last 0 (m :: (A ++ (Y ++ B))) ∧ l.next v' = l.next v := by
    rw [last_cons, last_append, last_append, l.last_of_ne_nil hY _ 0]
    cases B with
    | nil =>
      obtain ⟨v', hv', hbody', hprev', hnext'⟩ := hafter v (by rwa [head_nil, ← hkeys.zero])
      exact ⟨v', by rwa [hkeys.zero], hbody'.trans hbody, hprev', hnext'⟩
    | cons b B =>
      have hb : l.key m ≠ l.key b := by
        rw [hkeys.zero]
        exact (hkeys.ne_zero (by simp)).symm
      refine ⟨v, ?_, hbody, ?_, rfl⟩
      · rw [hrest m List.mem_cons_self hb, hv]
      · rw [hprev, last_cons, last_append, last_append]
        rfl
  have hend : l.Chain W (l.last 0 Y) B 0 := by
    cases B with
    | nil => trivial
    | cons b B =>
      have hbB : ∀ y ∈ B, l.key y ≠ l.key b := by
        intro y hy heq
        have hnodup := hkeys.nodup
        rw [List.map_cons, List.nodup_cons, List.map_append, List.nodup_append, List.map_append,
          List.nodup_append, List.map_cons, List.nodup_cons] at hnodup
        exact hnodup.2.2.1.2.1.1 (heq ▸ List.mem_map_of_mem hy)
      exact hB.rehang hbB hafter fun y hy hne => hrest y (by simp [hy]) hne
  obtain ⟨v', hv', hbody', hprev', hnext'⟩ := hfirst
  refine ⟨⟨v', hv', hbody', hprev', ?_⟩, ?_⟩
  · rw [hnext', hnext, head_append, head_append, head_append, head_append, hheads]
  · rw [chain_append, chain_append]
    refine ⟨?_, ?_, ?_⟩
    · rw [head_append, hheads, ← l.head_append]
      exact hA.congr fun y hy => hrest y (by simp [hy]) (hnotB y hy)
    · exact hseg
    · rw [l.last_of_ne_nil hY _ 0]
      exact hend

/-- The ring is cut off behind `A`. -/
theorem Ring.truncate {x : β} (h : l.Ring V (m :: (A ++ x :: B))) (hkeys : l.Keys m (A ++ x :: B))
    (hlast : ∀ v, V (l.last 0 (m :: A)) = some v → ∃ v', W (l.last 0 (m :: A)) = some v' ∧
      l.body v' = l.body v ∧ l.next v' = 0 ∧
      (A ≠ [] → l.prev v' = l.prev v) ∧ (A = [] → l.prev v' = 0))
    (hfirst : A ≠ [] → ∀ v, V (l.key m) = some v → ∃ v', W (l.key m) = some v' ∧
      l.body v' = l.body v ∧ l.prev v' = l.last 0 (m :: A) ∧ l.next v' = l.next v)
    (hrest : ∀ y ∈ A, l.key y ≠ l.last 0 (m :: A) → W (l.key y) = V (l.key y)) :
    l.Ring W (m :: A) := by
  obtain ⟨⟨v, hv, hbody, hprev, hnext⟩, htail⟩ := h
  induction A using List.reverseRecOn with
  | nil =>
    obtain ⟨v', hv', hbody', hnext', -, hprev'⟩ := hlast v hv
    refine ⟨⟨v', hv', hbody'.trans hbody, ?_, hnext'⟩, trivial⟩
    rw [hprev' rfl, last_cons, last_nil, hkeys.zero]
  | append_singleton A a _ =>
    have hne : A ++ [a] ≠ [] := by simp
    obtain ⟨v', hv', hbody', hprev', hnext'⟩ := hfirst hne v hv
    refine ⟨⟨v', hv', hbody'.trans hbody, hprev', ?_⟩, ?_⟩
    · rw [hnext', hnext, head_append, l.head_of_ne_nil hne]
    · have hlasta : l.last 0 (m :: (A ++ [a])) = l.key a := by
        rw [last_cons, last_append]
        rfl
      rw [hlasta] at hlast hrest
      rw [chain_append] at htail
      obtain ⟨hA, -⟩ := htail
      rw [chain_append] at hA ⊢
      obtain ⟨hA, ⟨w, hw, hwbody, hwprev, -⟩, -⟩ := hA
      obtain ⟨w', hw', hwbody', hwnext', hwprev', -⟩ := hlast w hw
      refine ⟨hA.congr fun y hy => hrest y (by simp [hy]) ?_, ⟨w', hw', ?_, ?_, hwnext'⟩, trivial⟩
      · rw [List.append_assoc] at hkeys
        exact hkeys.disjoint hy List.mem_cons_self
      · exact hwbody'.trans hwbody
      · rw [hwprev' hne, hwprev]

/-- The bodies of the ring change in place. -/
theorem Ring.map {L : List β} {f : β → β} (h : l.Ring V L) (hf : ∀ x, l.key (f x) = l.key x)
    (hnode : ∀ x ∈ L, ∀ v, V (l.key x) = some v → ∃ v', W (l.key x) = some v' ∧
      l.body v' = f (l.body v) ∧ l.prev v' = l.prev v ∧ l.next v' = l.next v) :
    l.Ring W (L.map f) := by
  suffices hgen : ∀ p n, l.Chain V p L n → l.Chain W p (L.map f) n by
    unfold Ring
    rw [l.last_map hf]
    exact hgen _ _ h
  clear h
  induction L with
  | nil => exact fun _ _ _ => trivial
  | cons x L ih =>
    rintro p n ⟨⟨v, hv, hbody, hprev, hnext⟩, hrest⟩
    obtain ⟨v', hv', hbody', hprev', hnext'⟩ := hnode x List.mem_cons_self v hv
    refine ⟨⟨v', ?_, ?_, ?_, ?_⟩, ?_⟩
    · rw [hf, hv']
    · rw [hbody', hbody]
    · rw [hprev', hprev]
    · rw [hnext', hnext, l.head_map hf]
    · rw [hf]
      exact ih (fun y hy => hnode y (List.mem_cons_of_mem _ hy)) _ _ hrest

end Edits

end Linked

end HddChecker
