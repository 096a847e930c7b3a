import Mlvm.FirstOrder.Term
import Mathlib.Data.List.Nodup

/-!
# Variants

Two terms are **variants** when they have the same shape and two positions hold the same variable
in the one exactly when they do in the other.

**`variant_iff_linear`.** A term of the same shape in which no variable occurs twice is a variant
exactly of the terms in which none does.
-/

namespace FirstOrder

variable {F V W : Type*}

namespace Term

/-- The variables from left to right. -/
def vars : Term F V → List V
  | var v => [v]
  | app _ ts => (ts.map vars).flatten

@[simp] theorem vars_var (v : V) : (var v : Term F V).vars = [v] := by rw [vars]

@[simp] theorem vars_app (f : F) (ts : List (Term F V)) :
    (app f ts).vars = (ts.map vars).flatten := by
  rw [vars]

/-- No variable occurs twice. -/
def Linear (t : Term F V) : Prop := t.vars.Nodup

/-- The term with all its variables made one. -/
def shape (t : Term F V) : Term F Unit := t.subst fun _ => var ()

@[simp] theorem shape_var (v : V) : (var v : Term F V).shape = var () := by simp [shape]

@[simp] theorem shape_app (f : F) (ts : List (Term F V)) :
    (app f ts).shape = app f (ts.map shape) := by
  simp [shape]

theorem vars_shape (t : Term F V) : t.shape.vars = t.vars.map fun _ => () := by
  induction t with
  | var v => simp
  | app f ts ih =>
    rw [shape_app, vars_app, vars_app, List.map_flatten, List.map_map, List.map_map]
    exact congrArg List.flatten (List.map_congr_left ih)

end Term

open Term

/-- Equal up to a renaming of the variables. -/
def Variant (t : Term F V) (u : Term F W) : Prop :=
  t.shape = u.shape ∧ ∀ i j : ℕ, t.vars[i]? = t.vars[j]? ↔ u.vars[i]? = u.vars[j]?

theorem length_vars_of_shape {t : Term F V} {u : Term F W} (h : t.shape = u.shape) :
    t.vars.length = u.vars.length := by
  have hvars := congrArg (fun s : Term F Unit => s.vars.length) h
  simpa [vars_shape] using hvars

/-- Without repetition only the same position holds the same. -/
theorem nodup_iff_getElem? {α : Type*} {l : List α} :
    l.Nodup ↔ ∀ i j : ℕ, i < l.length → (l[i]? = l[j]? ↔ i = j) := by
  constructor
  · intro h i j hi
    refine ⟨fun heq => ?_, fun heq => by rw [heq]⟩
    exact (List.getElem?_inj hi h).1 heq
  · intro h
    rw [List.nodup_iff_injective_getElem]
    intro i j hij
    refine Fin.ext ((h i j i.2).1 ?_)
    rw [List.getElem?_eq_getElem i.2, List.getElem?_eq_getElem j.2]
    exact congrArg some hij

/-- **A linear term** is a variant of the linear terms of its shape. -/
theorem variant_iff_linear {t : Term F V} {u : Term F W} (hshape : t.shape = u.shape)
    (hu : u.Linear) : Variant t u ↔ t.Linear := by
  have hlen := length_vars_of_shape hshape
  rw [Linear, nodup_iff_getElem?] at hu
  rw [Linear, nodup_iff_getElem?]
  constructor
  · intro h i j hi
    rw [h.2 i j]
    exact hu i j (hlen ▸ hi)
  · intro ht
    refine ⟨hshape, fun i j => ?_⟩
    by_cases hi : i < t.vars.length
    · rw [ht i j hi, hu i j (hlen ▸ hi)]
    · have hi' : ¬ i < u.vars.length := hlen ▸ hi
      rw [List.getElem?_eq_none (Nat.not_lt.1 hi), List.getElem?_eq_none (Nat.not_lt.1 hi'),
        eq_comm, List.getElem?_eq_none_iff, eq_comm, List.getElem?_eq_none_iff, hlen]

end FirstOrder
