import Mathlib.Data.List.Basic
import Mathlib.Tactic.Common

/-!
# Records one behind the other

Records of different lengths, each of which says how long it is, from one place to another without a gap. `len` gives the length of the record at a place, where there is a good one.
-/

namespace HddChecker.Records

/-- The records from a place on, by their places, up to `stop`. -/
inductive Chain (len : Nat → Option Nat) (stop : Nat) : Nat → List Nat → Prop
  | nil : Chain len stop stop []
  | cons {d n : Nat} {l : List Nat} (hlen : len d = some n) (hpos : 0 < n) (rest : Chain len stop (d + n) l) :
      Chain len stop d (d :: l)

namespace Chain

variable {len len' : Nat → Option Nat} {stop stop' d p : Nat} {l l' l₁ l₂ : List Nat}

theorem le (h : Chain len stop d l) : d ≤ stop := by
  induction h with
  | nil => exact Nat.le_refl _
  | cons hlen hpos rest ih => omega

theorem bounds (h : Chain len stop d l) (hp : p ∈ l) : d ≤ p ∧ ∃ n, len p = some n ∧ 0 < n ∧ p + n ≤ stop := by
  induction h with
  | nil => cases hp
  | cons hlen hpos rest ih =>
    rcases List.mem_cons.mp hp with rfl | hp
    · exact ⟨Nat.le_refl _, _, hlen, hpos, rest.le⟩
    · obtain ⟨hle, hn⟩ := ih hp
      exact ⟨by omega, hn⟩

theorem length_le (h : Chain len stop d l) : d + l.length ≤ stop := by
  induction h with
  | nil => exact Nat.le_refl _
  | cons hlen hpos rest ih =>
    rw [List.length_cons]
    omega

theorem nodup (h : Chain len stop d l) : l.Nodup := by
  induction h with
  | nil => exact List.nodup_nil
  | cons hlen hpos rest ih =>
    refine List.nodup_cons.mpr ⟨fun hmem => ?_, ih⟩
    have hbounds := (rest.bounds hmem).1
    omega

theorem append (h : Chain len stop d l) (h' : Chain len stop' stop l') : Chain len stop' d (l ++ l') := by
  induction h with
  | nil => exact h'
  | cons hlen hpos _ ih => exact .cons hlen hpos ih

theorem split (h : Chain len stop d (l₁ ++ l₂)) : ∃ mid, Chain len mid d l₁ ∧ Chain len stop mid l₂ := by
  induction l₁ generalizing d with
  | nil => exact ⟨d, .nil, h⟩
  | cons x l₁ ih =>
    cases h with
    | cons hlen hpos rest =>
      obtain ⟨mid, hfirst, hlast⟩ := ih rest
      exact ⟨mid, .cons hlen hpos hfirst, hlast⟩

theorem eq_of_nil (h : Chain len stop d []) : d = stop := by
  cases h
  rfl

theorem uncons (h : Chain len stop d (p :: l)) : p = d ∧ ∃ n, len p = some n ∧ 0 < n ∧ Chain len stop (p + n) l := by
  cases h with
  | cons hlen hpos rest => exact ⟨rfl, _, hlen, hpos, rest⟩

/-- The lengths of the records of a chain are all that it rests on. -/
theorem congr (h : Chain len stop d l) (hsame : ∀ p ∈ l, len' p = len p) : Chain len' stop d l := by
  induction h with
  | nil => exact .nil
  | cons hlen hpos rest ih =>
    exact .cons ((hsame _ List.mem_cons_self).trans hlen) hpos (ih fun p hp => hsame p (List.mem_cons_of_mem _ hp))

end Chain

end HddChecker.Records
