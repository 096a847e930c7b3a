import Mlvm.Creator.StackMove

/-!
# Doubles that are seen

The pass that moves a stack goes down, so it has to tell the end of a double from a cell by the word
two words below. **`Marked`**: in this part of the stack a word is the mark of a double exactly when
a double begins there.

**`Marked.passedOver_iff`.** When the lowest word is not a mark, the pass takes for a part of a
double what is one.
-/

namespace Mlvm.Creator

/-- The words from `lo` up to `hi` are cells and doubles, with the mark in its place only. -/
inductive Marked (w : Int → Int) (lo : Int) : Int → Prop
  | nil : Marked w lo lo
  | cell {hi : Int} : Marked w lo hi → w hi ≠ -1 → Marked w lo (hi + 1)
  | double {hi : Int} : Marked w lo hi → w hi = -1 → w (hi + 1) ≠ -1 → w (hi + 2) ≠ -1 →
      Marked w lo (hi + 3)

/-- A double begins at the word, or one or two words below. -/
def InDouble (w : Int → Int) (lo a : Int) : Prop :=
  w a = -1 ∨ (lo ≤ a - 1 ∧ w (a - 1) = -1) ∨ (lo ≤ a - 2 ∧ w (a - 2) = -1)

variable {w w' : Int → Int} {lo hi : Int}

/-- Only the marks matter; they may be moved by `d`. -/
theorem inDouble_shift {a d : Int} (ha : lo ≤ a)
    (hw : ∀ x, lo ≤ x → x ≤ a → (w' (x + d) = -1 ↔ w x = -1)) :
    InDouble w' (lo + d) (a + d) ↔ InDouble w lo a := by
  have hplace₁ : a + d - 1 = a - 1 + d := by omega
  have hplace₂ : a + d - 2 = a - 2 + d := by omega
  rw [InDouble, InDouble, hplace₁, hplace₂, hw a ha (Int.le_refl a)]
  refine or_congr_right (or_congr ?_ ?_)
  · constructor
    · rintro ⟨hle, hmark⟩
      exact ⟨by omega, (hw _ (by omega) (by omega)).1 hmark⟩
    · rintro ⟨hle, hmark⟩
      exact ⟨by omega, (hw _ (by omega) (by omega)).2 hmark⟩
  · constructor
    · rintro ⟨hle, hmark⟩
      exact ⟨by omega, (hw _ (by omega) (by omega)).1 hmark⟩
    · rintro ⟨hle, hmark⟩
      exact ⟨by omega, (hw _ (by omega) (by omega)).2 hmark⟩

theorem inDouble_congr {a : Int} (ha : lo ≤ a)
    (hw : ∀ x, lo ≤ x → x ≤ a → (w' x = -1 ↔ w x = -1)) :
    InDouble w' lo a ↔ InDouble w lo a := by
  have hshift := @inDouble_shift w w' lo a 0 ha fun x hx hx' => by
    rw [Int.add_zero]
    exact hw x hx hx'
  rwa [Int.add_zero, Int.add_zero] at hshift

theorem Marked.le (h : Marked w lo hi) : lo ≤ hi := by
  induction h with
  | nil => exact Int.le_refl lo
  | cell _ _ ih => omega
  | double _ _ _ _ ih => omega

/-- Behind a mark there are two words. -/
theorem Marked.room (h : Marked w lo hi) {p : Int} (hlo : lo ≤ p) (hp : p < hi) (hmark : w p = -1) :
    p + 2 < hi := by
  induction h with
  | nil => omega
  | @cell hi _ hne ih =>
    rcases Int.lt_or_eq_of_le (Int.le_of_lt_add_one hp) with hlt | rfl
    · have := ih hlt
      omega
    · exact absurd hmark hne
  | @double hi _ _ hne hne' ih =>
    rcases (by omega : p < hi ∨ p = hi ∨ p = hi + 1 ∨ p = hi + 2) with hlt | rfl | rfl | rfl
    · have := ih hlt
      omega
    · omega
    · exact absurd hmark hne
    · exact absurd hmark hne'

/-- A cell behind the marked words is not in a double. -/
theorem Marked.not_inDouble (h : Marked w lo hi) (hne : w hi ≠ -1) : ¬ InDouble w lo hi := by
  rintro (hmark | ⟨hlo, hmark⟩ | ⟨hlo, hmark⟩)
  · exact hne hmark
  · have := h.room hlo (by omega) hmark
    omega
  · have := h.room hlo (by omega) hmark
    omega

/-- Only the places of the marks matter. -/
theorem Marked.congr (h : Marked w lo hi) (hw : ∀ a, lo ≤ a → a < hi → (w' a = -1 ↔ w a = -1)) :
    Marked w' lo hi := by
  induction h with
  | nil => exact .nil
  | cell h hne ih =>
    have hle := h.le
    refine .cell (ih fun a ha ha' => hw a ha (by omega)) ?_
    rw [Ne, hw _ hle (by omega)]
    exact hne
  | double h hmark hne hne' ih =>
    have hle := h.le
    refine .double (ih fun a ha ha' => hw a ha (by omega)) ?_ ?_ ?_
    · rw [hw _ hle (by omega)]
      exact hmark
    · rw [Ne, hw _ (by omega) (by omega)]
      exact hne
    · rw [Ne, hw _ (by omega) (by omega)]
      exact hne'

/-- The same words higher up. -/
theorem Marked.shift (h : Marked w lo hi) (d : Int)
    (hw : ∀ a, lo ≤ a → a < hi → (w' (a + d) = -1 ↔ w a = -1)) : Marked w' (lo + d) (hi + d) := by
  induction h with
  | nil => exact .nil
  | @cell hi h hne ih =>
    have hle := h.le
    have hplace : hi + 1 + d = hi + d + 1 := by omega
    rw [hplace]
    refine .cell (ih fun a ha ha' => hw a ha (by omega)) ?_
    rw [Ne, hw _ hle (by omega)]
    exact hne
  | @double hi h hmark hne hne' ih =>
    have hle := h.le
    have hplace : hi + 3 + d = hi + d + 3 := by omega
    have hplace₁ : hi + d + 1 = hi + 1 + d := by omega
    have hplace₂ : hi + d + 2 = hi + 2 + d := by omega
    rw [hplace]
    refine .double (ih fun a ha ha' => hw a ha (by omega)) ?_ ?_ ?_
    · rw [hw _ hle (by omega)]
      exact hmark
    · rw [Ne, hplace₁, hw _ (by omega) (by omega)]
      exact hne
    · rw [Ne, hplace₂, hw _ (by omega) (by omega)]
      exact hne'

/-- **The pass sees the doubles.** -/
theorem Marked.passedOver_iff (h : Marked w lo hi) (hfirst : lo < hi → w lo ≠ -1) {a : Int}
    (hlo : lo ≤ a) (hhi : a < hi) : PassedOver lo w (hi - 1) a ↔ InDouble w lo a := by
  induction h with
  | nil => omega
  | @cell hi h hne ih =>
    have hle := h.le
    have hfirst' : lo < hi → w lo ≠ -1 := fun hlt => hfirst (by omega)
    -- a mark two words below would leave no place for a cell here
    have hcell : ¬ EndsDouble lo w (hi + 1 - 1) := by
      rintro ⟨hlt, hmark⟩
      have := h.room (p := hi + 1 - 1 - 2) (by omega) (by omega) hmark
      omega
    rw [PassedOver, if_pos (by omega), if_neg hcell]
    rcases Int.lt_or_eq_of_le (Int.le_of_lt_add_one hhi) with hlt | rfl
    · rw [Int.add_sub_cancel]
      exact ih hfirst' hlt
    · refine iff_of_false (fun hover => ?_) ?_
      · have := hover.le
        omega
      · exact h.not_inDouble hne
  | @double hi h hmark hne hne' ih =>
    have hle := h.le
    have hlt : lo < hi := by
      rcases Int.lt_or_eq_of_le hle with hlt | rfl
      · exact hlt
      · exact absurd hmark (hfirst (by omega))
    have hplace : hi + 3 - 1 - 2 = hi := by omega
    have hplace' : hi + 3 - 1 - 3 = hi - 1 := by omega
    have hdouble : EndsDouble lo w (hi + 3 - 1) := by
      refine ⟨by omega, ?_⟩
      rw [hplace]
      exact hmark
    rw [PassedOver, if_pos (by omega), if_pos hdouble, hplace, hplace']
    rcases (by omega : a < hi ∨ a = hi ∨ a = hi + 1 ∨ a = hi + 2) with hbelow | rfl | rfl | rfl
    · rw [or_iff_right (by omega)]
      exact ih (fun _ => hfirst (by omega)) hbelow
    · exact iff_of_true (.inl ⟨by omega, by omega⟩) (.inl hmark)
    · refine iff_of_true (.inl ⟨by omega, by omega⟩) (.inr (.inl ⟨by omega, ?_⟩))
      rw [Int.add_sub_cancel]
      exact hmark
    · refine iff_of_true (.inl ⟨by omega, by omega⟩) (.inr (.inr ⟨by omega, ?_⟩))
      rw [Int.add_sub_cancel]
      exact hmark

end Mlvm.Creator
