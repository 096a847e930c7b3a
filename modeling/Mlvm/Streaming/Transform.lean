import Mathlib.Data.List.Basic

/-!
# Streaming transformations

A transformation of rows of data that is given its input in pieces: each piece may give some output,
and so may the end.

**Pieces** (`chunks`): a row cut into pieces of a fixed size, the last one may be shorter.

**Undoing** (`Undoes`): whatever pieces the one is given, and however its output is cut into pieces
for the other, the other gives back the input.

**Losses** (`kept`): what arrives when some of the pieces of an output are lost. Everything has
arrived if and only if nothing but empty pieces was lost (`kept_eq_flatten_iff`).
-/

namespace Streaming

variable {α σ τ : Type*}

/-! ## Pieces -/

/-- The row in pieces of `n`. -/
def chunks (n : ℕ) (bs : List α) : List (List α) :=
  if bs = [] ∨ n = 0 then [] else bs.take n :: chunks n (bs.drop n)
termination_by bs.length
decreasing_by
  have := List.length_pos_of_ne_nil (not_or.1 ‹¬ _›).1
  have := Nat.pos_of_ne_zero (not_or.1 ‹¬ _›).2
  rw [List.length_drop]
  omega

@[simp] theorem chunks_nil (n : ℕ) : chunks n ([] : List α) = [] := by
  rw [chunks, if_pos (.inl rfl)]

theorem chunks_of_ne_nil {n : ℕ} (hn : 0 < n) {bs : List α} (h : bs ≠ []) :
    chunks n bs = bs.take n :: chunks n (bs.drop n) := by
  rw [chunks, if_neg (not_or.2 ⟨h, Nat.ne_of_gt hn⟩)]

theorem flatten_chunks {n : ℕ} (hn : 0 < n) (bs : List α) : (chunks n bs).flatten = bs := by
  fun_induction chunks n bs with
  | case1 bs h =>
    have := h.resolve_right (Nat.ne_of_gt hn)
    simp [this]
  | case2 bs h ih => rw [List.flatten_cons, ih, List.take_append_drop]

theorem ne_nil_of_mem_chunks {n : ℕ} {bs c : List α} (hc : c ∈ chunks n bs) : c ≠ [] := by
  fun_induction chunks n bs with
  | case1 => cases hc
  | case2 bs h ih =>
    obtain ⟨hne, hn⟩ := not_or.1 h
    rcases List.mem_cons.1 hc with rfl | hc
    · simp [hne, hn]
    · exact ih hc

/-! ## Transformations -/

/-- What a transformation does with one more piece, and at the end. -/
structure Transform (σ α : Type*) where
  update : σ → List α → Option (σ × List α)
  finish : σ → Option (List α)

namespace Transform

/-- The outputs for some pieces of input; the last one is that of the end. -/
def run (f : Transform σ α) : σ → List (List α) → Option (List (List α))
  | s, [] => (f.finish s).map fun out => [out]
  | s, c :: cs => (f.update s c).bind fun r => (f.run r.1 cs).map (r.2 :: ·)

/-- From the state `t`, `g` undoes what `f` does from the state `s`. -/
def Undoes (g : Transform τ α) (t : τ) (f : Transform σ α) (s : σ) : Prop :=
  ∀ ps cs outs, (∀ c ∈ ps ++ cs, c ≠ []) → f.run s ps = some outs → cs.flatten = outs.flatten →
    ∃ outs', g.run t cs = some outs' ∧ outs'.flatten = ps.flatten

/-- The transformation that changes nothing. -/
def id : Transform σ α := ⟨fun s c => some (s, c), fun _ => some []⟩

@[simp] theorem run_id (s : σ) (cs : List (List α)) :
    (id (α := α)).run s cs = some (cs ++ [[] ]) := by
  induction cs with
  | nil => rfl
  | cons c cs ih => simp [run, id] at ih ⊢; simp [ih]

/-- Changing nothing undoes itself. -/
theorem id_undoes_id (t : τ) (s : σ) : (id (α := α)).Undoes t (id (α := α)) s := by
  intro ps cs outs _ hrun hcs
  rw [run_id] at hrun
  obtain rfl := Option.some.inj hrun
  exact ⟨_, run_id t cs, by simp [hcs]⟩

end Transform

/-! ## Losses -/

/-- What is left of some pieces, counted from `k`, when those that do not fit are lost. -/
def kept (fits : ℕ → List α → Prop) [∀ k c, Decidable (fits k c)] : ℕ → List (List α) → List α
  | _, [] => []
  | k, c :: cs => (if fits k c then c else []) ++ kept fits (k + 1) cs

/-- Every piece that is not empty fits. -/
def AllFit (fits : ℕ → List α → Prop) : ℕ → List (List α) → Prop
  | _, [] => True
  | k, c :: cs => (c = [] ∨ fits k c) ∧ AllFit fits (k + 1) cs

variable (fits : ℕ → List α → Prop) [∀ k c, Decidable (fits k c)]

theorem length_kept_le (k : ℕ) (cs : List (List α)) :
    (kept fits k cs).length ≤ cs.flatten.length := by
  induction cs generalizing k with
  | nil => exact Nat.le_refl _
  | cons c cs ih =>
    rw [kept, List.length_append, List.flatten_cons, List.length_append]
    apply Nat.add_le_add _ (ih (k + 1))
    split_ifs
    · exact Nat.le_refl _
    · exact Nat.zero_le _

/-- **Nothing is missing if nothing but empty pieces was lost**, and only then. -/
theorem kept_eq_flatten_iff (k : ℕ) (cs : List (List α)) :
    kept fits k cs = cs.flatten ↔ AllFit fits k cs := by
  induction cs generalizing k with
  | nil => simp [kept, AllFit]
  | cons c cs ih =>
    rw [kept, List.flatten_cons, AllFit, ← ih]
    by_cases hfits : fits k c
    · simp [hfits]
    · by_cases hc : c = []
      · simp [hc]
      · simp only [hfits, hc, if_false, or_self, false_and, iff_false, List.nil_append]
        intro heq
        have hlen := congrArg List.length heq
        have := length_kept_le fits (k + 1) cs
        have := List.length_pos_of_ne_nil hc
        rw [List.length_append] at hlen
        omega

/-- Nothing is left where nothing fits. -/
theorem kept_eq_nil {fits : ℕ → List α → Prop} [∀ k c, Decidable (fits k c)]
    (h : ∀ k c, ¬ fits k c) (k : ℕ) (cs : List (List α)) : kept fits k cs = [] := by
  induction cs generalizing k with
  | nil => rfl
  | cons c cs ih => rw [kept, if_neg (h k c), ih, List.append_nil]

/-- Pieces of a row fit where there is room for the row. -/
theorem allFit_of_le {fits : ℕ → List α → Prop} {n : ℕ} (h : ∀ k c, c.length ≤ n → fits k c) {k : ℕ}
    {cs : List (List α)} (hcs : cs.flatten.length ≤ n) : AllFit fits k cs := by
  induction cs generalizing k with
  | nil => trivial
  | cons c cs ih =>
    rw [List.flatten_cons, List.length_append] at hcs
    exact ⟨.inr (h k c (by omega)), ih (by omega)⟩

/-- What is missing makes it shorter. -/
theorem length_kept_lt (k : ℕ) {cs : List (List α)} (h : ¬ AllFit fits k cs) :
    (kept fits k cs).length < cs.flatten.length := by
  induction cs generalizing k with
  | nil => exact absurd trivial h
  | cons c cs ih =>
    have hle := length_kept_le fits (k + 1) cs
    rw [kept, List.length_append, List.flatten_cons, List.length_append]
    by_cases hfits : c = [] ∨ fits k c
    · have hlt := ih (k + 1) fun hcs => h ⟨hfits, hcs⟩
      split_ifs
      · exact Nat.add_lt_add_left hlt _
      · rw [List.length_nil, Nat.zero_add]
        exact Nat.lt_of_lt_of_le hlt (Nat.le_add_left _ _)
    · obtain ⟨hc, hnot⟩ := not_or.1 hfits
      have := List.length_pos_of_ne_nil hc
      simp only [if_neg hnot, List.length_nil]
      omega

end Streaming
