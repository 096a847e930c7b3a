import Mathlib.Algebra.BigOperators.Group.List.Basic
import Mathlib.Algebra.Order.Group.Nat
import Mathlib.Algebra.Ring.Int.Defs
import Mathlib.Algebra.Ring.Nat

/-!
# First-order terms and their unifiers

Finite terms over function symbols `F` and variables `V`, substitution, unifiers and most
general unifiers.

**The occurs check.** `MeetsOccursCheck E` says that solving the equations `E` from left to
right by decomposition and elimination comes to an equation `x = t` with `x` inside a compound
`t`. Systems that meet it have no finite solution (`Unifies.not_meetsOccursCheck`), and they are
the ones on which a unification procedure without the check may give another answer, or none.
-/

namespace FirstOrder

variable {F V W : Type*}

/-- A finite first-order term. -/
inductive Term (F V : Type*) where
  | var (v : V)
  | app (f : F) (args : List (Term F V))

namespace Term

@[induction_eliminator]
theorem ind {motive : Term F V → Prop} (var : ∀ v, motive (.var v))
    (app : ∀ f ts, (∀ t ∈ ts, motive t) → motive (.app f ts)) : ∀ t, motive t
  | .var v => var v
  | .app f ts => app f ts fun t _ => ind var app t

/-! ## Substitution -/

/-- Replace every variable by the term `σ` gives it. -/
def subst (σ : V → Term F W) : Term F V → Term F W
  | var v => σ v
  | app f ts => app f (ts.map (subst σ))

@[simp] theorem subst_var_eq (σ : V → Term F W) (v : V) : (var v : Term F V).subst σ = σ v := by
  rw [subst]

@[simp] theorem subst_app (σ : V → Term F W) (f : F) (ts : List (Term F V)) :
    (app f ts).subst σ = app f (ts.map (subst σ)) := by
  rw [subst]

@[simp] theorem subst_var (t : Term F V) : t.subst var = t := by
  induction t with
  | var v => simp
  | app f ts ih => rw [subst_app, List.map_congr_left ih, List.map_id']

theorem subst_subst {X : Type*} (σ : V → Term F W) (τ : W → Term F X) (t : Term F V) :
    (t.subst σ).subst τ = t.subst fun v => (σ v).subst τ := by
  induction t with
  | var v => simp
  | app f ts ih =>
    simp only [subst_app, List.map_map, app.injEq, true_and]
    exact List.map_congr_left ih

/-! ## Occurrences and size -/

/-- The variable `x` occurs in a term. -/
inductive Occurs (x : V) : Term F V → Prop
  | var : Occurs x (.var x)
  | app {f : F} {ts : List (Term F V)} {t : Term F V} : t ∈ ts → Occurs x t → Occurs x (.app f ts)

@[simp] theorem occurs_var_iff {x y : V} : Occurs x (var y : Term F V) ↔ x = y :=
  ⟨fun h => by cases h; rfl, fun h => h ▸ .var⟩

@[simp] theorem occurs_app_iff {x : V} {f : F} {ts : List (Term F V)} :
    Occurs x (app f ts) ↔ ∃ t ∈ ts, Occurs x t :=
  ⟨fun h => by cases h with | app h₁ h₂ => exact ⟨_, h₁, h₂⟩, fun ⟨_, h₁, h₂⟩ => .app h₁ h₂⟩

theorem subst_congr {σ τ : V → Term F W} {t : Term F V} (h : ∀ x, Occurs x t → σ x = τ x) :
    t.subst σ = t.subst τ := by
  induction t with
  | var v => simpa using h v .var
  | app f ts ih =>
    rw [subst_app, subst_app, List.map_congr_left fun t ht => ih t ht fun x hx => h x (.app ht hx)]

/-- The number of variables and symbols in a term. -/
def size : Term F V → Nat
  | var _ => 1
  | app _ ts => 1 + (ts.map size).sum

@[simp] theorem size_var (v : V) : (var v : Term F V).size = 1 := by rw [size]

@[simp] theorem size_app (f : F) (ts : List (Term F V)) :
    (app f ts).size = 1 + (ts.map size).sum := by
  rw [size]

theorem size_pos (t : Term F V) : 0 < t.size := by
  cases t <;> simp only [size_var, size_app] <;> omega

theorem size_le_sum {t : Term F V} {ts : List (Term F V)} (h : t ∈ ts) :
    t.size ≤ (ts.map size).sum := by
  induction ts with
  | nil => cases h
  | cons u us ih =>
    rcases List.mem_cons.1 h with rfl | h
    · simp
    · have := ih h
      simp only [List.map_cons, List.sum_cons]
      omega

/-- A variable's value is no larger than the value of a term the variable occurs in, and
smaller unless the term is the variable. -/
theorem size_subst_of_occurs {x : V} {t : Term F V} (h : Occurs x t) (σ : V → Term F W) :
    t = var x ∨ (σ x).size < (t.subst σ).size := by
  induction h with
  | var => exact Or.inl rfl
  | @app f ts t ht _ ih =>
    refine Or.inr ?_
    have hle : (σ x).size ≤ (t.subst σ).size := by
      rcases ih with rfl | ih
      · simp
      · exact ih.le
    have hsum := size_le_sum (List.mem_map_of_mem (f := subst σ) ht)
    simp only [subst_app, size_app]
    omega

/-- No finite value solves `x = t` when `x` is properly inside `t`. -/
theorem ne_subst_of_occurs {x : V} {t : Term F V} (h : Occurs x t) (hne : t ≠ var x)
    (σ : V → Term F W) : σ x ≠ t.subst σ := by
  intro he
  rcases size_subst_of_occurs h σ with h | h
  · exact hne h
  · rw [← he] at h
    exact lt_irrefl _ h

/-! ## Elimination of one variable -/

section Elim

variable [DecidableEq V]

/-- The substitution that replaces `x` by `t` and keeps the other variables. -/
def elim (x : V) (t : Term F V) : V → Term F V := Function.update var x t

@[simp] theorem elim_self (x : V) (t : Term F V) : elim x t x = t := by simp [elim]

theorem elim_of_ne {x y : V} (t : Term F V) (h : y ≠ x) : elim x t y = var y := by
  simp [elim, h]

/-- A substitution that solves `x = t` absorbs the elimination of `x`. -/
theorem subst_elim_subst {x : V} {t : Term F V} {σ : V → Term F W} (h : σ x = t.subst σ)
    (u : Term F V) : (u.subst (elim x t)).subst σ = u.subst σ := by
  rw [subst_subst]
  refine subst_congr fun y _ => ?_
  by_cases hy : y = x
  · rw [hy, elim_self, h]
  · simp [elim_of_ne t hy]

end Elim

end Term

/-! ## Values -/

/-- Values built by the symbols of `F`, from different parts differently. -/
class Builds (F X : Type*) where
  build : F → List X → X
  build_inj {f g : F} {xs ys : List X} : build f xs = build g ys → f = g ∧ xs = ys

export Builds (build)

@[simp] theorem build_eq_iff {X : Type*} [Builds F X] {f g : F} {xs ys : List X} :
    build f xs = build g ys ↔ f = g ∧ xs = ys :=
  ⟨Builds.build_inj, fun h => by rw [h.1, h.2]⟩

instance : Builds F (Term F V) where
  build := .app
  build_inj h := by simpa using h

@[simp] theorem build_term (f : F) (ts : List (Term F V)) : build f ts = Term.app f ts := rfl

namespace Term

/-- The value of a term under an assignment of values to the variables. -/
def eval {X : Type*} [Builds F X] (τ : V → X) : Term F V → X
  | var v => τ v
  | app f ts => build f (ts.map (eval τ))

@[simp] theorem eval_var {X : Type*} [Builds F X] (τ : V → X) (v : V) :
    (var v : Term F V).eval τ = τ v := by
  rw [eval]

@[simp] theorem eval_app {X : Type*} [Builds F X] (τ : V → X) (f : F) (ts : List (Term F V)) :
    (app f ts).eval τ = build f (ts.map (eval τ)) := by
  rw [eval]

/-- Among the finite terms the value is the instance. -/
theorem eval_eq_subst (σ : V → Term F W) (t : Term F V) : t.eval σ = t.subst σ := by
  induction t with
  | var v => simp
  | app f ts ih => rw [eval_app, build_term, subst_app, List.map_congr_left ih]

end Term

/-! ## Unifiers -/

open Term

/-- `σ` makes the two terms equal. -/
def Unifier (σ : V → Term F W) (s t : Term F V) : Prop := s.subst σ = t.subst σ

/-- Two terms are unifiable when some substitution makes them equal. -/
def Unifiable (s t : Term F V) : Prop := ∃ σ : V → Term F V, Unifier σ s t

/-- `μ` unifies the two terms and every unifier factors through it. -/
def MostGeneralUnifier (μ : V → Term F V) (s t : Term F V) : Prop :=
  Unifier μ s t ∧ ∀ σ : V → Term F V, Unifier σ s t → ∃ ρ : V → Term F V, ∀ v, σ v = (μ v).subst ρ

theorem MostGeneralUnifier.unifiable {μ : V → Term F V} {s t : Term F V}
    (h : MostGeneralUnifier μ s t) : Unifiable s t :=
  ⟨μ, h.1⟩

/-- `σ` solves every equation of the list. -/
def Unifies (σ : V → Term F W) (E : List (Term F V × Term F V)) : Prop :=
  ∀ e ∈ E, Unifier σ e.1 e.2

/-! ## Meeting the occurs check -/

/-- Solving the equations from left to right comes to a variable equated with a compound term
the variable is inside. -/
inductive MeetsOccursCheck [DecidableEq V] : List (Term F V × Term F V) → Prop
  | occursLeft {x : V} {t : Term F V} {E : List (Term F V × Term F V)} :
      Occurs x t → t ≠ var x → MeetsOccursCheck ((var x, t) :: E)
  | occursRight {x : V} {t : Term F V} {E : List (Term F V × Term F V)} :
      Occurs x t → t ≠ var x → MeetsOccursCheck ((t, var x) :: E)
  | elimLeft {x : V} {t : Term F V} {E : List (Term F V × Term F V)} : ¬ Occurs x t →
      MeetsOccursCheck (E.map (Prod.map (subst (elim x t)) (subst (elim x t)))) →
      MeetsOccursCheck ((var x, t) :: E)
  | elimRight {x : V} {t : Term F V} {E : List (Term F V × Term F V)} : ¬ Occurs x t →
      MeetsOccursCheck (E.map (Prod.map (subst (elim x t)) (subst (elim x t)))) →
      MeetsOccursCheck ((t, var x) :: E)
  | delete {t : Term F V} {E : List (Term F V × Term F V)} :
      MeetsOccursCheck E → MeetsOccursCheck ((t, t) :: E)
  | decompose {f : F} {ts us : List (Term F V)} {E : List (Term F V × Term F V)} :
      ts.length = us.length → MeetsOccursCheck (ts.zip us ++ E) →
      MeetsOccursCheck ((app f ts, app f us) :: E)

theorem Unifies.map_elim [DecidableEq V] {σ : V → Term F W} {x : V} {t : Term F V}
    {E : List (Term F V × Term F V)} (hx : σ x = t.subst σ) (h : Unifies σ E) :
    Unifies σ (E.map (Prod.map (subst (elim x t)) (subst (elim x t)))) := by
  intro e he
  obtain ⟨e', he', rfl⟩ := List.mem_map.1 he
  simpa only [Unifier, Prod.map_fst, Prod.map_snd, subst_elim_subst hx] using h e' he'

theorem unifies_zip {σ : V → Term F W} {ts us : List (Term F V)}
    (h : ts.map (subst σ) = us.map (subst σ)) : Unifies σ (ts.zip us) := by
  induction ts generalizing us with
  | nil => intro e he; simp at he
  | cons t ts ih =>
    cases us with
    | nil => simp at h
    | cons u us =>
      simp only [List.map_cons, List.cons.injEq] at h
      intro e he
      rcases List.mem_cons.1 he with rfl | he
      · exact h.1
      · exact ih h.2 e he

theorem unifies_cons {σ : V → Term F W} {s t : Term F V} {E : List (Term F V × Term F V)} :
    Unifies σ ((s, t) :: E) ↔ Unifier σ s t ∧ Unifies σ E := by
  simp [Unifies]

/-- **A solvable system never meets the occurs check.** -/
theorem Unifies.not_meetsOccursCheck [DecidableEq V] {σ : V → Term F W}
    {E : List (Term F V × Term F V)} (h : Unifies σ E) : ¬ MeetsOccursCheck E := by
  intro hm
  induction hm with
  | occursLeft ho hne =>
    exact ne_subst_of_occurs ho hne σ (by simpa [Unifier] using (unifies_cons.1 h).1)
  | occursRight ho hne =>
    exact ne_subst_of_occurs ho hne σ (by simpa [Unifier] using (unifies_cons.1 h).1.symm)
  | elimLeft _ _ ih =>
    obtain ⟨hx, hE⟩ := unifies_cons.1 h
    exact ih (hE.map_elim (by simpa [Unifier] using hx))
  | elimRight _ _ ih =>
    obtain ⟨hx, hE⟩ := unifies_cons.1 h
    exact ih (hE.map_elim (by simpa [Unifier] using hx.symm))
  | delete _ ih => exact ih (unifies_cons.1 h).2
  | decompose _ _ ih =>
    obtain ⟨hx, hE⟩ := unifies_cons.1 h
    simp only [Unifier, subst_app, app.injEq, true_and] at hx
    refine ih fun e he => ?_
    rcases List.mem_append.1 he with he | he
    · exact unifies_zip hx e he
    · exact hE e he

end FirstOrder
