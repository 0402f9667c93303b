import Mathlib.Data.List.Basic
import Mathlib.Tactic.Common

/-!
# Words

The words of a list between separators, of which several may stand side by side, and the runs of a list that a loop with a bound takes.
-/

namespace HddChecker.Words

section Runs

variable {α : Type} {p : α → Bool} {run rest : List α} {n : Nat}

/-- A loop through a run that stops at the end of the run or after `n` steps. -/
theorem takeWhile_take (hrun : ∀ x ∈ run, p x = true) (hrest : ∀ x, rest.head? = some x → p x = false) :
    ((run ++ rest).take n).takeWhile p = run.take n := by
  induction run generalizing n with
  | nil =>
    cases n with
    | zero => simp
    | succ n =>
      cases rest with
      | nil => simp
      | cons x rest => simp [hrest x rfl]
  | cons x run ih =>
    cases n with
    | zero => simp
    | succ n =>
      have hx : p x = true := hrun x (List.mem_cons_self ..)
      rw [List.cons_append, List.take_succ_cons, List.take_succ_cons, List.takeWhile_cons, if_pos hx,
        ih fun y hy => hrun y (List.mem_cons_of_mem _ hy)]

theorem exists_run (p : α → Bool) (l : List α) :
    ∃ run rest, l = run ++ rest ∧ (∀ x ∈ run, p x = true) ∧ ∀ x, rest.head? = some x → p x = false := by
  induction l with
  | nil => exact ⟨[], [], rfl, by simp, by simp⟩
  | cons x l ih =>
    cases hx : p x with
    | false => exact ⟨[], x :: l, rfl, by simp, by simp [hx]⟩
    | true =>
      obtain ⟨run, rest, rfl, hrun, hrest⟩ := ih
      exact ⟨x :: run, rest, rfl, by simpa [hx] using hrun, hrest⟩

end Runs

section Cuts

variable {α : Type} [DecidableEq α] {sep : α} {l lead word trail rest : List α}

def words (sep : α) (l : List α) : List (List α) := (l.splitOn sep).filter (· ≠ [])

/-- A list with the separators before its first word, the word and the separators behind it. -/
structure Cut (sep : α) (l lead word trail rest : List α) : Prop where
  eq : l = lead ++ (word ++ (trail ++ rest))
  lead_seps : ∀ x ∈ lead, x = sep
  word_free : ∀ x ∈ word, x ≠ sep
  trail_seps : ∀ x ∈ trail, x = sep
  trail_nil : word = [] → trail = []
  rest_nil : trail = [] → rest = []
  rest_head : rest.head? ≠ some sep

theorem exists_cut (sep : α) (l : List α) : ∃ lead word trail rest, Cut sep l lead word trail rest := by
  obtain ⟨lead, l₁, rfl, hlead, hl₁⟩ := exists_run (fun x => decide (x = sep)) l
  obtain ⟨word, l₂, rfl, hword, hl₂⟩ := exists_run (fun x => !decide (x = sep)) l₁
  obtain ⟨trail, rest, rfl, htrail, hrest⟩ := exists_run (fun x => decide (x = sep)) l₂
  simp only [decide_eq_true_eq, decide_eq_false_iff_not, Bool.not_eq_true', Bool.not_eq_false'] at *
  refine ⟨lead, word, trail, rest, rfl, hlead, hword, htrail, ?_, ?_, ?_⟩
  · rintro rfl
    cases trail with
    | nil => rfl
    | cons x trail => exact absurd (htrail x (List.mem_cons_self ..)) (hl₁ x rfl)
  · rintro rfl
    cases rest with
    | nil => rfl
    | cons x rest => exact absurd (hl₂ x rfl) (hrest x rfl)
  · exact fun hhead => hrest sep hhead rfl

theorem words_lead (hlead : ∀ x ∈ lead, x = sep) : words sep (lead ++ l) = words sep l := by
  induction lead with
  | nil => rfl
  | cons x lead ih =>
    obtain rfl : x = sep := hlead x (List.mem_cons_self ..)
    rw [← ih fun y hy => hlead y (List.mem_cons_of_mem _ hy)]
    simp [words, List.splitOn_cons_eq_if_modifyHead]

private theorem words_single (hword : ∀ x ∈ word, x ≠ sep) (hne : word ≠ []) : words sep word = [word] := by
  rw [words, List.splitOn_eq_singleton fun hmem => hword sep hmem rfl]
  simp [hne]

private theorem words_append (hword : ∀ x ∈ word, x ≠ sep) (hne : word ≠ []) (htrail : ∀ x ∈ trail, x = sep)
    (hsome : trail ≠ []) : words sep (word ++ (trail ++ rest)) = word :: words sep rest := by
  cases trail with
  | nil => exact absurd rfl hsome
  | cons x trail =>
    obtain rfl : x = sep := htrail x (List.mem_cons_self ..)
    have hrest := @words_lead α _ x rest trail fun y hy => htrail y (List.mem_cons_of_mem _ hy)
    rw [← hrest, words, List.splitOn_eq_splitOnP, List.cons_append,
      List.splitOnP_append_cons_of_forall_mem (fun y hy => by simpa using hword y hy) x (by simp)]
    simp [words, List.splitOn_eq_splitOnP, hne]

theorem Cut.words_eq (h : Cut sep l lead word trail rest) (hne : word ≠ []) :
    words sep l = word :: words sep rest := by
  rw [h.eq, words_lead h.lead_seps]
  by_cases htrail : trail = []
  · rw [htrail, h.rest_nil htrail, List.append_nil, List.append_nil, words_single h.word_free hne]
    rfl
  · exact words_append h.word_free hne h.trail_seps htrail

theorem Cut.words_nil (h : Cut sep l lead [] trail rest) : words sep l = [] := by
  have htrail := h.trail_nil rfl
  rw [h.eq, words_lead h.lead_seps, htrail, h.rest_nil htrail]
  rfl

theorem words_ne_nil (hhead : l.head? ≠ some sep) (hl : l ≠ []) : words sep l ≠ [] := by
  obtain ⟨lead, word, trail, rest, h⟩ := exists_cut sep l
  by_cases hword : word = []
  · subst hword
    have htrail := h.trail_nil rfl
    have heq := h.eq
    rw [htrail, h.rest_nil htrail, List.append_nil, List.append_nil, List.append_nil] at heq
    cases lead with
    | nil => exact absurd heq hl
    | cons x lead =>
      obtain rfl : x = sep := h.lead_seps x (List.mem_cons_self ..)
      exact absurd (congrArg List.head? heq) hhead
  · rw [h.words_eq hword]
    exact List.cons_ne_nil _ _

end Cuts

end HddChecker.Words
