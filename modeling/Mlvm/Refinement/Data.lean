import Mathlib.Data.List.Basic

/-!
# Data refinement

A concrete object with operations that may fail to answer, an abstract one with operations that
always do, and a function `abs` from the one to the other.

**One operation** (`Agrees`): the concrete operation answers what the abstract one does, and the
state it leaves stands for the abstract one's.

**Runs** (`run_agrees`): when every operation of a run meets a condition under which it agrees,
the whole run gives the abstract answers.
-/

namespace Refinement

variable {C A Op R : Type*} (abs : C → A) (impl : Op → C → Option (R × C)) (spec : Op → A → R × A)

/-- The operation has the answer and the effect that it has on the abstract object. -/
def Agrees (op : Op) (c : C) : Prop :=
  ∃ r c', impl op c = some (r, c') ∧ spec op (abs c) = (r, abs c')

/-- The answers of a run and the state after it. -/
def runImpl : List Op → C → Option (List R × C)
  | [], c => some ([], c)
  | op :: ops, c => (impl op c).bind fun p => (runImpl ops p.2).map fun q => (p.1 :: q.1, q.2)

def runSpec : List Op → A → List R × A
  | [], a => ([], a)
  | op :: ops, a => ((spec op a).1 :: (runSpec ops (spec op a).2).1, (runSpec ops (spec op a).2).2)

/-- Every operation of a run meets the condition in the state in which it starts. -/
def MeetsAll (meets : Op → C → Prop) : List Op → C → Prop
  | [], _ => True
  | op :: ops, c => meets op c ∧ ∀ r c', impl op c = some (r, c') → MeetsAll meets ops c'

variable {abs impl spec}

/-- Another answer does not agree. -/
theorem not_agrees_of_answer {op : Op} {c c' : C} {r : R} (himpl : impl op c = some (r, c'))
    (hne : (spec op (abs c)).1 ≠ r) : ¬ Agrees abs impl spec op c := by
  rintro ⟨r', c'', himpl', hspec⟩
  rw [himpl] at himpl'
  obtain ⟨rfl, -⟩ := Prod.mk.inj (Option.some.inj himpl')
  exact hne (congrArg Prod.fst hspec)

theorem run_agrees {meets : Op → C → Prop}
    (h : ∀ op c, meets op c → Agrees abs impl spec op c) (ops : List Op) (c : C)
    (hops : MeetsAll impl meets ops c) :
    ∃ rs c', runImpl impl ops c = some (rs, c') ∧ runSpec spec ops (abs c) = (rs, abs c') := by
  induction ops generalizing c with
  | nil => exact ⟨[], c, rfl, rfl⟩
  | cons op ops ih =>
    obtain ⟨hmeets, hrest⟩ := hops
    obtain ⟨r, c₁, himpl, hspec⟩ := h op c hmeets
    obtain ⟨rs, c', hrun, habs⟩ := ih c₁ (hrest r c₁ himpl)
    refine ⟨r :: rs, c', ?_, ?_⟩
    · simp [runImpl, himpl, hrun]
    · simp [runSpec, hspec, habs]

end Refinement
