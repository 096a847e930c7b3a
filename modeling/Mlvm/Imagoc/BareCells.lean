import Mlvm.Imagoc.GoalCells

/-!
# Clauses without cells

The goals of a bare body have constants, anonymous variables and arithmetic on them as arguments.
Their numbers are taken back at once, and no structure is there to keep a part (`body_vacant`).
-/

namespace Mlvm

namespace Cells

open Imagoc (DOTVAL COMMAVAL RULEIFVAL CUTVAL)

variable {k : ClauseType} {n : ℕ → ℕ} {tok : Tok} {t first next : ImagoTerm} {level tlevel : ℤ}
  {s : Tally} {fr : Frame} {ty : MlvmType} {v : ℕ}

/-! ## Types without cells -/

/-- The types of arguments that need no cell. -/
def MlvmType.isPlain : MlvmType → Bool
  | .symComma | .symRuleIf | .operator | .comparison | .ifThenElse | .deepCut | .neckCut | .nil
  | .atom | .voidVar | .real | .int => true
  | _ => false

theorem compoundType_isPlain (hne : first ≠ .null) (h : BareTerm (.func v) first) :
    (compoundType v first).isPlain = true := by
  have hkind := h.2 v rfl hne
  unfold compoundType
  split_ifs with hcomma hrule hdot hvars hop hcmp hterm hif
  any_goals rfl
  · subst hdot
    revert hkind
    decide
  · subst hdot
    revert hkind
    decide
  all_goals
    rcases hkind with hop' | hcmp' | hmeets
    · exact absurd hop' hop
    · exact absurd hcmp' hcmp
    · have hif' : v = IFTHENELSEVAL := by
        by_contra hif'
        rw [meets_iff.2 ⟨hcomma, hrule, hif'⟩] at hmeets
        cases hmeets
      first
      | exact absurd hif' hif
      | subst hif'
        cases hterm

theorem visit_isPlain (next : ImagoTerm) (level : ℤ) (h : BareTerm tok first)
    (hs : s.owntermcomp = 0) :
    (visit k n tok first next level s).1.isPlain = true := by
  cases tok with
  | var cv v =>
    obtain rfl : cv = .anonymous := h.1 cv v rfl
    rfl
  | real rval =>
    rw [visit, classify, classifyReal]
    split_ifs <;> rfl
  | func v =>
    have hcomp : ¬ 0 < (enter (.func v) level s).2.owntermcomp := by
      show ¬ 0 < s.owntermcomp
      omega
    rw [visit, classify]
    split_ifs with hzero
    · rw [classifyAtom, if_neg hcomp]
      split_ifs <;> rfl
    · apply compoundType_isPlain _ h
      intro hnull
      exact hzero (hnull ▸ rfl)

theorem classify_owntermcomp :
    (classify k n tok first level tlevel s).2.owntermcomp = s.owntermcomp := by
  cases tok with
  | var cv v => cases cv <;> rfl
  | real rval =>
    rw [classify, classifyReal]
    split_ifs <;> rfl
  | func v =>
    rw [classify, classifyAtom]
    split_ifs <;> rfl

/-- Outside of a comparison of terms, an atom needs no cell. -/
theorem visit_owntermcomp (hs : s.owntermcomp = 0)
    (hty : (visit k n tok first next level s).1 ≠ .termComparison) :
    (visit k n tok first next level s).2.owntermcomp = 0 := by
  have hcomp : (classify k n tok first level (enter tok level s).1
      (enter tok level s).2).2.owntermcomp = 0 := classify_owntermcomp.trans hs
  show (follow (visit k n tok first next level s).1 first next _).owntermcomp = 0
  simp [follow, hcomp, compNext, compFirst, hty]

theorem not_termComparison (hty : ty.isPlain = true) : ty ≠ .termComparison := by
  intro heq
  subst heq
  cases hty

/-! ## Rows of arguments -/

theorem build_bareArgs : ∀ {t : ImagoTerm} {level : ℤ} {s : Tally}, BareArgs t →
    s.owntermcomp = 0 → (build k n t level s).2.owntermcomp = 0
  | .null, _, _, _, hs => hs
  | .node tok first next, level, s, h, hs => by
    obtain ⟨hterm, hfirst, hnext⟩ := h
    have hvisit := visit_owntermcomp (k := k) (n := n) hs
      (not_termComparison (visit_isPlain next level hterm hs))
    rw [build_node]
    exact build_bareArgs hnext (build_bareArgs hfirst hvisit)

/-- No number has been kept, and no structure has a part. -/
structure Vacant (fr : Frame) : Prop where
  enterbody : fr.enterbody = true
  firsttime : fr.firsttime ≠ 0
  given : ∀ c ∈ fr.given, c.kept = false ∧ c.part = none

theorem Vacant.enter (ty : MlvmType) (level : ℤ) (h : Vacant fr) : Vacant (fr.enter ty level) where
  enterbody := by
    show (fr.enterbody || _) = true
    rw [h.enterbody]
    exact Bool.true_or _
  firsttime := by
    show (if level = -1 then fr.firsttime + 1 else fr.firsttime) ≠ 0
    split_ifs
    · exact Nat.succ_ne_zero _
    · exact h.firsttime
  given := h.given

theorem Vacant.give (h : Vacant fr) : Vacant (fr.give none none false) where
  enterbody := h.enterbody
  firsttime := h.firsttime
  given := by
    intro c hc
    rcases List.mem_append.1 hc with hc | hc
    · exact h.given c hc
    · rw [List.mem_singleton.1 hc]
      exact ⟨rfl, rfl⟩

theorem mathKid_plain (hty : ty.isPlain = true) : mathKid ty fr = fr := by
  cases ty
  case var => cases hty
  all_goals rfl

/-- Operands that are not variables. -/
theorem mathLoop_bare : ∀ {t : ImagoTerm} {level : ℤ} {s : Tally}, BareArgs t →
    s.owntermcomp = 0 → kidLoop (fun ty _ => mathKid ty) (build k n t level s).1 fr = fr
  | .null, _, _, _, _ => rfl
  | .node tok first next, level, s, h, hs => by
    obtain ⟨hterm, hfirst, hnext⟩ := h
    have hplain := visit_isPlain (k := k) (n := n) next level hterm hs
    have hvisit := visit_owntermcomp hs (not_termComparison hplain)
    rw [kidLoop_node, mathKid_plain hplain]
    exact mathLoop_bare hnext (build_bareArgs hfirst hvisit)

/-- A plain term gets nothing. -/
theorem assignKind_plain {isHead : Bool} (h : Vacant fr) (hargs : BareArgs first)
    (hs : s.owntermcomp = 0) (hty : ty.isPlain = true) :
    assignKind k ty tlevel (build k n first level s).1 isHead fr = fr := by
  cases ty
  case operator | comparison =>
    rw [assignKind, if_pos h.enterbody]
    exact mathLoop_bare hargs hs
  case lvs | lis | termComparison | str | atomComp | var => cases hty
  all_goals rfl

theorem assignCell_bareArgs : ∀ {t : ImagoTerm} {level : ℤ} {s : Tally} {fr : Frame}, BareArgs t →
    s.owntermcomp = 0 → Vacant fr → Vacant (assignCell k (build k n t level s).1 fr)
  | .null, _, _, _, _, _, h => h
  | .node tok first next, level, s, fr, hargs, hs, h => by
    obtain ⟨hterm, hfirst, hnext⟩ := hargs
    have hplain := visit_isPlain (k := k) (n := n) next level hterm hs
    have hvisit := visit_owntermcomp hs (not_termComparison hplain)
    have hentered := h.enter (visit k n tok first next level s).1 level
    have hkids : Vacant (assignCell k (build k n first ((enter tok level s).1 + 1) _).1 _) :=
      assignCell_bareArgs hfirst hvisit hentered
    rw [assignCell_node, assignTerm, assignKind_plain hentered hfirst hvisit hplain]
    exact assignCell_bareArgs hnext (build_bareArgs hfirst hvisit) hkids

theorem strKid_plain (hk : k ≠ .fact) (hlevel : level ≤ argLevel k) (h : Vacant fr)
    (hty : ty.isPlain = true) : Vacant (strKid k none ty level fr) := by
  have hgive : Vacant (fr.give none none (constKept k level fr)) := by
    rw [constKept_goal hk h.enterbody hlevel]
    exact h.give
  cases ty
  case lvs | lis | termComparison | str | atomComp | var => cases hty
  all_goals exact hgive

theorem enter_le (tok : Tok) (hlevel : -1 ≤ level) :
    -1 ≤ (enter tok level s).1 ∧ (enter tok level s).1 ≤ level := by
  show -1 ≤ ite _ _ _ ∧ ite _ _ _ ≤ level
  split_ifs <;> omega

/-- The arguments of a goal. -/
theorem strLoop_bare (hk : k ≠ .fact) : ∀ {t : ImagoTerm} {level : ℤ} {s : Tally} {fr : Frame},
    BareArgs t → s.owntermcomp = 0 → -1 ≤ level → level ≤ argLevel k → Vacant fr →
    Vacant (kidLoop (strKid k none) (build k n t level s).1 fr)
  | .null, _, _, _, _, _, _, _, h => h
  | .node tok first next, level, s, fr, hargs, hs, hlow, hhigh, h => by
    obtain ⟨hterm, hfirst, hnext⟩ := hargs
    have hplain := visit_isPlain (k := k) (n := n) next level hterm hs
    have hvisit := visit_owntermcomp hs (not_termComparison hplain)
    obtain ⟨hlow', hle⟩ := enter_le (s := s) tok hlow
    rw [kidLoop_node]
    exact strLoop_bare hk hnext (build_bareArgs hfirst hvisit) hlow' (Int.le_trans hle hhigh)
      (strKid_plain hk hhigh h hplain)

/-! ## Goals -/

theorem visit_ne_termComparison (hgoal : ∀ v, tok = .func v → isTermComparison v = false) :
    (visit k n tok first next level s).1 ≠ .termComparison := by
  cases tok with
  | var cv v => cases cv <;> exact MlvmType.noConfusion
  | real rval =>
    rw [visit, classify, classifyReal]
    split_ifs <;> exact MlvmType.noConfusion
  | func v =>
    rw [visit, classify]
    split_ifs
    · rw [classifyAtom]
      split_ifs <;> exact MlvmType.noConfusion
    · show compoundType v first ≠ .termComparison
      have hterm : ¬ isTermComparison v = true := by
        rw [hgoal v rfl]
        exact Bool.false_ne_true
      unfold compoundType
      rw [if_neg hterm]
      split_ifs <;> exact MlvmType.noConfusion

theorem hasFunctor_bare (hk : k ≠ .fact) (hb : fr.enterbody = true) (hlevel : level < argLevel k) :
    hasFunctor k level fr = false := by
  unfold hasFunctor
  rw [if_pos hb]
  cases k with
  | fact => exact absurd rfl hk
  | chain => exact decide_eq_false (Int.not_le.2 hlevel)
  | userEnd => exact decide_eq_false (Int.not_le.2 hlevel)

/-- One goal. -/
theorem goal_vacant {m : ℤ} (next : ImagoTerm) (level tlevel : ℤ) (hk : k ≠ .fact)
    (htok : tok ≠ .func COMMAVAL) (hdot : tok ≠ .func DOTVAL) (hargs : BareArgs first)
    (hs : s.owntermcomp = 0)
    (hlevel : level < argLevel k) (hlow : -1 ≤ m) (hhigh : m ≤ argLevel k) (h : Vacant fr)
    {e : Tally} :
    Vacant (assignCell k (build k n first m s).1
      (assignKind k (visit k n tok first next tlevel e).1 level (build k n first m s).1 false
        fr)) := by
  apply assignCell_bareArgs hargs hs
  cases tok with
  | var cv v => cases cv <;> exact h
  | real rval =>
    rw [visit, classify, classifyReal]
    split_ifs <;> exact h
  | func v =>
    rw [visit, classify]
    split_ifs
    · rw [classifyAtom]
      split_ifs <;> exact h
    · have hcomma : v ≠ COMMAVAL := fun hv => htok (hv ▸ rfl)
      show Vacant (assignKind k (compoundType v first) level _ false fr)
      rcases compoundType_cases first hcomma with ⟨-, hty⟩ | ⟨rfl, -⟩ | ⟨-, -, hty⟩ |
        ⟨-, -, -, hty⟩
      · rcases hty with hty | hty <;> rw [hty] <;> exact h
      · exact absurd rfl hdot
      · rcases hty with hty | hty
        all_goals
          rw [hty, assignKind, if_pos h.enterbody, mathLoop_bare hargs hs]
          exact h
      · have hfunctor := hasFunctor_bare hk h.enterbody hlevel
        rcases hty with hty | hty
        all_goals
          rw [hty, assignKind, hfunctor]
          exact strLoop_bare hk hargs hs hlow hhigh h

/-- All goals. -/
theorem goals_vacant : ∀ {t : ImagoTerm} {level : ℤ} {s : Tally} {fr : Frame}, Bare t →
    s.owntermcomp = 0 → -1 ≤ level → level ≤ 0 → Vacant fr →
    Vacant (assignCell .userEnd (build .userEnd n t level s).1 fr) ∧
      (build .userEnd n t level s).2.owntermcomp = 0
  | .null, _, _, _, _, hs, _, _, h => ⟨h, hs⟩
  | .node tok first next, level, s, fr, hbare, hs, hlow, hhigh, h => by
    have hhead : (fr.firsttime == 0) = false := beq_false_of_ne h.firsttime
    obtain ⟨hlow', hle⟩ := enter_le (s := s) tok hlow
    rw [Bare] at hbare
    rw [assignCell_node, build_node, assignTerm, hhead]
    by_cases htok : tok = .func COMMAVAL
    · rw [if_pos htok] at hbare
      subst htok
      obtain ⟨hfirst, hnext⟩ := hbare
      have henter : (enter (.func COMMAVAL) level s).1 = -1 := (enter_body (.inl rfl)).1
      have hvisit : (visit .userEnd n (.func COMMAVAL) first next level s).2.owntermcomp = 0 :=
        visit_owntermcomp hs (visit_ne_termComparison fun v hv => by cases hv; rfl)
      rw [henter, assignKind_comma (.inl rfl)]
      have hzero : (-1 : ℤ) ≤ 0 ∧ (0 : ℤ) ≤ 0 := by decide
      have hminus : (-1 : ℤ) ≤ -1 ∧ (-1 : ℤ) ≤ 0 := by decide
      have hkids := goals_vacant hfirst hvisit hzero.1 hzero.2
        (h.enter (visit .userEnd n (.func COMMAVAL) first next level s).1 level)
      exact goals_vacant hnext hkids.2 hminus.1 hminus.2 hkids.1
    · rw [if_neg htok] at hbare
      obtain ⟨hgoal, hargs, hnext⟩ := hbare
      have hvisit : (visit .userEnd n tok first next level s).2.owntermcomp = 0 :=
        visit_owntermcomp hs (visit_ne_termComparison fun v hv => (hgoal v hv).2)
      have hdot : tok ≠ .func DOTVAL := fun hv => (hgoal DOTVAL hv).1 rfl
      have hvacant := goal_vacant (k := .userEnd) (n := n) (m := (enter tok level s).1 + 1) next
        level
        level (e := s) (by decide) htok hdot hargs hvisit
        (Int.lt_of_le_of_lt hhigh (by decide)) (by omega)
        (Int.add_le_add_right (Int.le_trans hle hhigh) 1) (h.enter
          (visit .userEnd n tok first next level s).1 level)
      exact goals_vacant hnext (build_bareArgs hargs hvisit) hlow' (Int.le_trans hle hhigh) hvacant

/-- **A bare body** keeps no number. -/
theorem body_vacant {body : ImagoTerm} (hk : k ≠ .fact)
    (hcomma : k = .userEnd ↔ body.functor = some COMMAVAL ∨ body.functor = some IFTHENELSEVAL)
    (hlast : body.next = .null) (hbare : Bare (bodyOf k body)) (hs : s.owntermcomp = 0)
    (htime : fr.firsttime = 1) (hgiven : fr.given = []) :
    ∀ c ∈ (assignCell k (build k n body (-1) s).1 fr).given, c.kept = false ∧ c.part = none := by
  cases body with
  | null =>
    intro c hc
    have hc' : c ∈ fr.given := hc
    rw [hgiven] at hc'
    exact absurd hc' List.not_mem_nil
  | node tok first next =>
    obtain rfl : next = .null := hlast
    have hhead : (fr.firsttime == 0) = false := by rw [htime]; rfl
    have hentered : Vacant (fr.enter (visit k n tok first .null (-1) s).1 (-1)) := by
      constructor
      · simp [Frame.enter, htime]
      · exact Nat.succ_ne_zero _
      · intro c hc
        have hc' : c ∈ fr.given := hc
        rw [hgiven] at hc'
        exact absurd hc' List.not_mem_nil
    obtain ⟨hlow', hle⟩ := enter_le (s := s) tok (Int.le_refl (-1))
    rw [assignCell_node, assignTerm, hhead]
    cases k with
    | fact => exact absurd rfl hk
    | userEnd =>
      obtain ⟨v, rfl, hv⟩ := tok_of_functor (hcomma.1 rfl)
      have hvisit : (visit .userEnd n (.func v) first .null (-1) s).2.owntermcomp = 0 := by
        apply visit_owntermcomp hs
        apply visit_ne_termComparison
        intro w hw
        cases hw
        rcases hv with rfl | rfl <;> rfl
      rw [assignKind_comma hv]
      exact (goals_vacant hbare hvisit (by omega) (by omega) hentered).1.given
    | chain =>
      have htok : tok ≠ .func COMMAVAL := by
        intro heq
        subst heq
        exact absurd (hcomma.2 (.inl rfl)) (by decide)
      have hbare' : Bare (.node tok first .null) := hbare
      rw [Bare, if_neg htok] at hbare'
      obtain ⟨hgoal, hargs, -⟩ := hbare'
      have hvisit : (visit .chain n tok first .null (-1) s).2.owntermcomp = 0 :=
        visit_owntermcomp hs (visit_ne_termComparison fun v hv => (hgoal v hv).2)
      have hdot : tok ≠ .func DOTVAL := fun hv => (hgoal DOTVAL hv).1 rfl
      have hvacant := goal_vacant (k := .chain) (n := n) (m := (enter tok (-1) s).1 + 1) .null (-1)
        (-1) (e := s) (by decide) htok hdot hargs hvisit (by decide) (by omega)
        (Int.add_le_add_right hle 1) hentered
      exact hvacant.given

end Cells

end Mlvm
