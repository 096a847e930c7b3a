import Mlvm.Descent.Grants
import Mlvm.Imagoc.Orderly

/-!
# What is counted and what is given

`need` is what a row of terms inside arguments takes, its own places apart; so much is counted for
it (`build_inner`).
-/

namespace Mlvm

namespace Cells

open Imagoc (DOTVAL COMMAVAL RULEIFVAL CUTVAL)
open Descent

variable {k : ClauseType} {n : ℕ → ℕ} {tok : Tok} {t first next : ImagoTerm} {level tlevel : ℤ}
  {s : Tally} {b shallow : Bool} {seen seen' : List ℕ}

/-! ## Levels -/

/-- The level of the arguments of a goal. -/
def argLevel : ClauseType → ℤ
  | .chain => 0
  | _ => 1

theorem argLevel_nonneg (k : ClauseType) : 0 ≤ argLevel k := by
  cases k <;> decide

/-- A row inside arguments: where it stands, and that it is counted. -/
structure Place (k : ClauseType) (b : Bool) (level : ℤ) : Prop where
  nonneg : 0 ≤ level
  goal : b = true → k ≠ .fact ∧ argLevel k ≤ level

theorem Place.succ (h : Place k b level) : Place k b (level + 1) := by
  constructor
  · have := h.nonneg
    omega
  · intro hb
    have := (h.goal hb).2
    exact ⟨(h.goal hb).1, by omega⟩

theorem enter_of_ne (htok : tok ≠ .func COMMAVAL) (hlevel : level ≠ -1) (s : Tally) :
    enter tok level s = (level, s) := by
  simp [enter, htok, hlevel]

theorem Place.enter (h : Place k b level) (htok : tok ≠ .func COMMAVAL) (s : Tally) :
    enter tok level s = (level, s) := by
  apply enter_of_ne htok
  have := h.nonneg
  omega

/-! ## Counting -/

theorem classifyAtom_enterbody (v : ℕ) : (classifyAtom v s).2.enterbody = s.enterbody := by
  unfold classifyAtom
  split_ifs <;> rfl

theorem classifyReal_enterbody (rval : ℚ) :
    (classifyReal k rval level s).2.enterbody = s.enterbody := by
  unfold classifyReal
  split_ifs <;> rfl

theorem classify_enterbody :
    (classify k n tok first level tlevel s).2.enterbody = s.enterbody := by
  cases tok with
  | var cv v => cases cv <;> rfl
  | real rval => exact classifyReal_enterbody rval
  | func v =>
    rw [classify]
    split_ifs
    · exact classifyAtom_enterbody v
    · rfl

theorem le_classifyAtom (v : ℕ) : s.mlvmallocn2 ≤ (classifyAtom v s).2.mlvmallocn2 := by
  unfold classifyAtom
  split_ifs
  all_goals first | exact Nat.le_refl _ | exact Nat.le_succ _

theorem le_classifyReal (rval : ℚ) :
    s.mlvmallocn2 ≤ (classifyReal k rval level s).2.mlvmallocn2 := by
  unfold classifyReal
  split_ifs
  · exact Nat.le_add_right _ _
  · exact Nat.le_refl _

theorem follow_enterbody (ty : MlvmType) :
    (follow ty first next s).enterbody = s.enterbody := rfl

theorem follow_mlvmallocn2 (ty : MlvmType) :
    (follow ty first next s).mlvmallocn2 = s.mlvmallocn2 := rfl

/-- What a term with arguments takes, its own place apart. -/
def ownCells (body : Bool) (tok : Tok) (first : ImagoTerm) : ℕ :=
  match tok with
  | .func v =>
      if first.siblings = 0 ∨ meets v = false ∨ body = true ∧ isOperator v = true then 0
      else selfCells v + first.siblings
  | _ => 0

/-- What a row of terms takes, the places of these terms apart. -/
def need (body : Bool) : ImagoTerm → ℕ
  | .null => 0
  | .node tok first next => ownCells body tok first + (need body first + need body next)

theorem meets_iff {v : ℕ} :
    meets v = true ↔ v ≠ COMMAVAL ∧ v ≠ RULEIFVAL ∧ v ≠ IFTHENELSEVAL := by
  simp [meets, and_assoc]

/-- What a compound term takes is counted, and its own place if it is an argument of a goal. -/
theorem ownCells_le_compound {v : ℕ} (hplace : Place k b level) (hne : first.siblings ≠ 0) :
    ownCells b (.func v) first ≤ compoundCells k b level v first.siblings ∧
      (b = true → level = argLevel k → meets v = true → isOperator v = false →
        ownCells b (.func v) first + 1 ≤ compoundCells k b level v first.siblings) := by
  have hnonneg := hplace.nonneg
  cases b with
  | false =>
    refine ⟨?_, fun h => absurd h Bool.false_ne_true⟩
    rw [ownCells, compoundCells]
    by_cases hown : first.siblings = 0 ∨ meets v = false ∨ false = true ∧ isOperator v = true
    · rw [if_pos hown]
      exact Nat.zero_le _
    · rw [if_neg hown]
      rw [not_or, not_or] at hown
      obtain ⟨hcomma, hrule, -⟩ := meets_iff.1 (Bool.not_eq_false _ ▸ hown.2.1)
      rw [if_pos ⟨hnonneg, hcomma, hrule⟩]
  | true =>
    obtain ⟨hk, hlevel⟩ := hplace.goal rfl
    by_cases hcounted : meets v = true ∧ isOperator v = false
    · obtain ⟨hcomma, hrule, hif⟩ := meets_iff.1 hcounted.1
      have hown : ownCells true (.func v) first = selfCells v + first.siblings := by
        rw [ownCells, if_neg]
        rintro (h | h | h)
        · exact hne h
        · rw [hcounted.1] at h
          cases h
        · rw [hcounted.2] at h
          exact absurd h.2 Bool.false_ne_true
      have hcells : compoundCells k true level v first.siblings =
          (if level = argLevel k then 1 else 0) + (selfCells v + first.siblings) := by
        cases k with
        | fact => exact absurd rfl hk
        | chain => exact if_pos ⟨hlevel, hcomma, hrule, hcounted.2⟩
        | userEnd => exact if_pos ⟨hlevel, hcomma, hrule, hif, hcounted.2⟩
      rw [hown, hcells]
      refine ⟨Nat.le_add_left _ _, fun _ heq _ _ => ?_⟩
      rw [if_pos heq]
      omega
    · have hown : ownCells true (.func v) first = 0 := by
        rw [ownCells, if_pos]
        cases hmeets : meets v with
        | false => exact .inr (.inl rfl)
        | true =>
          cases hop : isOperator v with
          | false => exact absurd ⟨hmeets, hop⟩ hcounted
          | true => exact .inr (.inr ⟨rfl, rfl⟩)
      rw [hown]
      exact ⟨Nat.zero_le _, fun _ _ hmeets hop => absurd ⟨hmeets, hop⟩ hcounted⟩

theorem ownCells_le_classify (tok : Tok) (first : ImagoTerm) (tlevel : ℤ)
    (hplace : Place k b level) (hb : s.enterbody = b) :
    s.mlvmallocn2 + ownCells b tok first ≤
      (classify k n tok first level tlevel s).2.mlvmallocn2 := by
  cases tok with
  | var cv v =>
    cases cv with
    | first => exact Nat.le_add_right _ _
    | seen => exact Nat.le_refl _
    | anonymous => exact Nat.le_refl _
  | real rval => exact le_classifyReal rval
  | func v =>
    rw [classify]
    by_cases hzero : first.siblings = 0
    · have hown : ownCells b (.func v) first = 0 := if_pos (.inl hzero)
      rw [if_pos hzero, hown]
      exact le_classifyAtom v
    · rw [if_neg hzero, ← hb]
      exact Nat.add_le_add_left (ownCells_le_compound (hb ▸ hplace) hzero).1 _

theorem build_node : build k n (.node tok first next) level s =
    (.node (visit k n tok first next level s).1 level
        (build k n first ((enter tok level s).1 + 1) (visit k n tok first next level s).2).1
        (build k n next (enter tok level s).1
          (build k n first ((enter tok level s).1 + 1) (visit k n tok first next level s).2).2).1,
      (build k n next (enter tok level s).1
        (build k n first ((enter tok level s).1 + 1) (visit k n tok first next level s).2).2).2) :=
  rfl

theorem Inner.noComma : ∀ {t : ImagoTerm} {shallow : Bool} {seen : List ℕ},
    Inner k b shallow seen t → NoComma t
  | .null, _, _, _ => trivial
  | .node _ _ _, _, _, h => ⟨h.1, h.2.2.2.1.noComma, h.2.2.2.2.noComma⟩

/-- Before the body. -/
theorem NoComma.inner : ∀ {t : ImagoTerm} {shallow : Bool} {seen : List ℕ}, NoComma t →
    Inner k false shallow seen t
  | .null, _, _, _ => trivial
  | .node _ _ _, _, _, h => ⟨h.1, fun _ _ hfalse => absurd hfalse Bool.false_ne_true,
      fun _ _ _ hfalse => absurd hfalse Bool.false_ne_true, h.2.1.inner, h.2.2.inner⟩

/-- The state behind a row of arguments: nothing but the counters changes, and what the row takes is
counted. -/
theorem build_inner : ∀ {t : ImagoTerm} {level : ℤ} {s : Tally}, NoComma t → Place k b level →
    s.enterbody = b → (build k n t level s).2.enterbody = b ∧
      s.mlvmallocn2 + need b t ≤ (build k n t level s).2.mlvmallocn2
  | .null, _, _, _, _, hb => ⟨hb, Nat.le_refl _⟩
  | .node tok first next, level, s, h, hplace, hb => by
    obtain ⟨htok, hfirst, hnext⟩ := h
    have henter := hplace.enter htok s
    have hown := ownCells_le_classify (n := n) tok first level hplace hb
    have hvisit : (visit k n tok first next level s).2.enterbody = b ∧
        s.mlvmallocn2 + ownCells b tok first ≤
          (visit k n tok first next level s).2.mlvmallocn2 := by
      simp only [visit, henter, follow_enterbody, classify_enterbody, follow_mlvmallocn2]
      exact ⟨hb, hown⟩
    have hkids := build_inner hfirst hplace.succ hvisit.1
    have hrest := build_inner hnext hplace hkids.1
    rw [build_node, henter]
    refine ⟨hrest.1, ?_⟩
    have h₁ := hvisit.2
    have h₂ := hkids.2
    have h₃ := hrest.2
    rw [need]
    dsimp only
    omega

end Cells

end Mlvm
