import Mathlib.Logic.Function.Basic
import Mathlib.Tactic.Common

/-!
# Feistel networks

Rounds on a pair of halves, each of which mixes a function of one half and of the key of the round into the other. `mix` undoes itself, and nothing is asked of the function of the round.
-/

namespace HddChecker.Feistel

variable {α κ : Type}

/-- One round with the key `k`. -/
def round (mix : α → α → α) (f : α → κ → α) (x : α × α) (k : κ) : α × α := (x.2, mix x.1 (f x.2 k))

def run (mix : α → α → α) (f : α → κ → α) (keys : List κ) (x : α × α) : α × α := keys.foldl (round mix f) x

variable {mix : α → α → α} {f : α → κ → α} {x : α × α} {k : κ} {keys : List κ}

@[simp] theorem run_nil : run mix f [] x = x := rfl

@[simp] theorem run_cons : run mix f (k :: keys) x = run mix f keys (round mix f x k) := rfl

theorem run_append {keys' : List κ} : run mix f (keys ++ keys') x = run mix f keys' (run mix f keys x) :=
  List.foldl_append

private theorem round_swap (hmix : ∀ a b, mix (mix a b) b = a) :
    round mix f (round mix f x k).swap k = x.swap := by
  unfold round Prod.swap
  rw [hmix]

theorem run_reverse (hmix : ∀ a b, mix (mix a b) b = a) (keys : List κ) (x : α × α) :
    (run mix f keys.reverse (run mix f keys x).swap).swap = x := by
  induction keys generalizing x with
  | nil => exact Prod.swap_swap x
  | cons k keys ih =>
    rw [List.reverse_cons, run_append, run_cons, run_cons, run_nil]
    have hrest := congrArg Prod.swap (ih (round mix f x k))
    rw [Prod.swap_swap] at hrest
    rw [hrest, round_swap hmix, Prod.swap_swap]

theorem run_injective (hmix : ∀ a b, mix (mix a b) b = a) (keys : List κ) : Function.Injective (run mix f keys) :=
  fun x y h => by
  rw [← run_reverse (f := f) hmix keys x, h, run_reverse hmix]

/-- A change of the halves that the function of the round does not see, if the keys are changed too, is seen in the result as it is. -/
theorem run_changed {g : α → α} {h : κ → κ} (keys : List κ) (hmix : ∀ a b, mix (g a) b = g (mix a b))
    (hf : ∀ a k, f (g a) (h k) = f a k) (x : α × α) :
    run mix f (keys.map h) (g x.1, g x.2) = (g (run mix f keys x).1, g (run mix f keys x).2) := by
  induction keys generalizing x with
  | nil => rfl
  | cons k keys ih =>
    rw [List.map_cons, run_cons, run_cons]
    have hround : round mix f (g x.1, g x.2) (h k) = (g (round mix f x k).1, g (round mix f x k).2) := by
      unfold round
      rw [hf, hmix]
    rw [hround]
    exact ih _

end HddChecker.Feistel
