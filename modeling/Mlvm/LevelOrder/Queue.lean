import Mathlib.Algebra.BigOperators.Group.List.Basic
import Mathlib.Algebra.Order.Group.Nat
import Mathlib.Algebra.Ring.Int.Defs
import Mathlib.Algebra.Ring.Nat

/-!
# Going through trees level by level

A queue of trees: the first one is taken out and its children are put in behind the others.

**`queue_induction`.** When every tree is larger than its children together, the queue runs empty,
so what holds of the empty queue, and of a queue as soon as it holds of the next one, holds of every
queue.
-/

namespace LevelOrder

variable {α : Type*}

/-- **Induction along a queue.** -/
theorem queue_induction {children : α → List α} {size : α → ℕ}
    (hsize : ∀ a, ((children a).map size).sum < size a) {motive : List α → Prop}
    (nil : motive []) (cons : ∀ a q, motive (q ++ children a) → motive (a :: q)) :
    ∀ q, motive q := by
  intro q
  induction hn : (q.map size).sum using Nat.strong_induction_on generalizing q with
  | _ n ih =>
    cases q with
    | nil => exact nil
    | cons a q =>
      refine cons a q (ih _ ?_ _ rfl)
      have := hsize a
      simp only [List.map_append, List.sum_append, List.map_cons, List.sum_cons] at hn ⊢
      omega

end LevelOrder
