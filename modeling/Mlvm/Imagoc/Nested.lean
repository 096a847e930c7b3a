import Mlvm.Imagoc.Passes

/-!
# Terms in arguments

A term among the arguments of the head or of a goal, and everything in it, takes no more than was
counted for it (`visits`). The parts of a structure or a pair take one cell each; operands in the
body have been met and take none.
-/

namespace Mlvm

namespace Cells

open Imagoc (DOTVAL COMMAVAL RULEIFVAL CUTVAL)

variable {k : ClauseType} {n : ℕ → ℕ} {tok : Tok} {t first next : ImagoTerm} {level tlevel : ℤ}
  {s : Tally} {b shallow : Bool} {seen : List ℕ} {fr : Frame} {ty : MlvmType} {part : Option ℕ}
  {v : ℕ}

/-! ## Kinds of functors -/

/-- The kinds of terms with arguments, a comma apart. -/
theorem compoundType_cases (first : ImagoTerm) (hcomma : v ≠ COMMAVAL) :
    (meets v = false ∧ (compoundType v first = .symRuleIf ∨ compoundType v first = .ifThenElse)) ∨
    (v = DOTVAL ∧ (compoundType v first = .lvs ∨ compoundType v first = .lis)) ∨
    (meets v = true ∧ v ≠ DOTVAL ∧
      (compoundType v first = .operator ∨ compoundType v first = .comparison)) ∨
    (meets v = true ∧ v ≠ DOTVAL ∧ isOperator v = false ∧
      (compoundType v first = .str ∨ compoundType v first = .termComparison)) := by
  have hmeets : v ≠ RULEIFVAL →
      (isOperator v = true ∨ isComparison v = true ∨ isTermComparison v = true) →
        meets v = true := by
    intro hrule hkind
    apply meets_iff.2
    refine ⟨hcomma, hrule, ?_⟩
    intro hif
    subst hif
    revert hkind
    decide
  unfold compoundType
  rw [if_neg hcomma]
  split_ifs with hrule hdot hvars hop hcmp hterm hif
  · subst hrule
    exact .inl ⟨rfl, .inl rfl⟩
  · exact .inr (.inl ⟨hdot, .inl rfl⟩)
  · exact .inr (.inl ⟨hdot, .inr rfl⟩)
  · exact .inr (.inr (.inl ⟨hmeets hrule (.inl hop), hdot, .inl rfl⟩))
  · exact .inr (.inr (.inl ⟨hmeets hrule (.inr (.inl hcmp)), hdot, .inr rfl⟩))
  · exact .inr (.inr (.inr ⟨hmeets hrule (.inr (.inr hterm)), hdot, Bool.not_eq_true _ ▸ hop,
      .inr rfl⟩))
  · subst hif
    exact .inl ⟨rfl, .inr rfl⟩
  · exact .inr (.inr (.inr ⟨meets_iff.2 ⟨hcomma, hrule, hif⟩, hdot, Bool.not_eq_true _ ▸ hop,
      .inl rfl⟩))

theorem ownCells_eq (hne : first.siblings ≠ 0) (hmeets : meets v = true)
    (hop : b = true → isOperator v = false) :
    ownCells b (.func v) first = selfCells v + first.siblings := by
  rw [ownCells, if_neg]
  intro h
  rcases h with h | h | ⟨hb, h⟩
  · exact hne h
  · rw [hmeets] at h
    cases h
  · rw [hop hb] at h
    cases h

theorem metBy_eq (hmeets : meets v = true) : metBy (.func v) first = first.vars := if_pos hmeets

theorem classify_ne_comma (htok : tok ≠ .func COMMAVAL) :
    (classify k n tok first level tlevel s).1 ≠ .symComma := by
  cases tok with
  | var cv v => cases cv <;> exact MlvmType.noConfusion
  | real rval =>
    rw [classify, classifyReal]
    split_ifs <;> exact MlvmType.noConfusion
  | func v =>
    rw [classify]
    split_ifs
    · unfold classifyAtom
      split_ifs <;> exact MlvmType.noConfusion
    · have hv : v ≠ COMMAVAL := fun h => htok (h ▸ rfl)
      show compoundType v first ≠ .symComma
      unfold compoundType
      rw [if_neg hv]
      split_ifs <;> exact MlvmType.noConfusion

/-! ## The arguments of one term -/

theorem functor_pass (part : Option ℕ) (h : Knows fr seen) :
    Pass fr (fr.giveFunctor false part) 1 seen :=
  Pass.give h none fun hfalse => by cases hfalse

/-- Parts of a structure. In a chain those of an argument of the goal must be met there. -/
theorem strKids_nested (hplace : Place k b level)
    (hfresh : b = true → k = .chain →
      argLevel k < level ∨ first.vars.Nodup ∧ ∀ x ∈ first.vars, x ∉ seen)
    (hcomma : NoComma first) (h : Knows fr seen) (hb : fr.enterbody = b) :
    Pass fr (kidLoop (strKid k part) (build k n first (level + 1) s).1 fr) first.siblings
      (first.vars ++ seen) := by
  have hnonneg := hplace.nonneg
  have hkids : 0 ≤ level + 1 := by omega
  have hrow := kidLoop_row (k := k) (n := n) (s := s) (f := strKid k part) (c := 1)
    (R := fun seen t => b = true → k = .chain →
      argLevel k < level ∨ t.vars.Nodup ∧ ∀ x ∈ t.vars, x ∉ seen) ?_ ?_ hkids hcomma hfresh h hb
  · rwa [Nat.one_mul] at hrow
  · intro seen tok first next hold hbody hk
    rcases hold hbody hk with hlt | ⟨hnodup, hnew⟩
    · exact .inl hlt
    · right
      have hsplit := List.nodup_append.1 hnodup
      refine ⟨hsplit.2.1, fun x hx hmem => ?_⟩
      rcases List.mem_append.1 hmem with hmem | hmem
      · exact hsplit.2.2 x hmem x hx rfl
      · exact hnew x (List.mem_append_right _ hx) hmem
  · intro ty fr seen tok first next hold hvars h hb
    apply strKid_pass h
    right
    cases b with
    | false => exact .inl hb
    | true =>
      obtain ⟨hk, hlevel⟩ := hplace.goal rfl
      refine .inr ⟨hk, ?_⟩
      cases k with
      | fact => exact absurd rfl hk
      | userEnd =>
        left
        simp only [argLevel] at hlevel
        omega
      | chain =>
        rcases hold rfl rfl with hlt | ⟨-, hnew⟩
        · left
          simp only [argLevel] at hlt
          omega
        · refine .inr ⟨rfl, by omega, fun x hx => hnew x (List.mem_append_left _ ?_)⟩
          rwa [← hvars]

/-- Parts of a pair. -/
theorem lisKids_nested (hlevel : 0 ≤ level) (hcomma : NoComma first) (h : Knows fr seen) :
    Pass fr (kidLoop (fun ty _ => lisKid part ty) (build k n first (level + 1) s).1 fr)
      first.siblings (first.vars ++ seen) := by
  have hkids : 0 ≤ level + 1 := by omega
  have hrow := kidLoop_row (k := k) (n := n) (s := s) (b := fr.enterbody)
    (f := fun ty _ => lisKid part ty) (c := 1) (R := fun _ _ => True) (fun _ _ _ _ _ => trivial)
    (fun _ _ _ _ _ _ _ _ h _ => lisKid_pass h) hkids hcomma trivial h rfl
  rwa [Nat.one_mul] at hrow

/-- Operands. -/
theorem mathKids_nested (hlevel : -1 ≤ level) (hcomma : NoComma first) (h : Knows fr seen) :
    Pass fr (kidLoop (fun ty _ => mathKid ty) (build k n first (level + 1) s).1 fr)
      first.siblings (first.vars ++ seen) := by
  have hkids : 0 ≤ level + 1 := by omega
  have hrow := kidLoop_row (k := k) (n := n) (s := s) (b := fr.enterbody)
    (f := fun ty _ => mathKid ty) (c := 1) (R := fun _ _ => True) (fun _ _ _ _ _ => trivial) ?_
    hkids hcomma trivial h rfl
  · rwa [Nat.one_mul] at hrow
  · intro ty fr seen _ _ _ _ _ h _
    refine (mathKid_pass ty h).mono ?_
    split_ifs
    · exact mathBudget_le seen ty
    · exact Nat.le_refl _

/-- Operands in the body that have been met. -/
theorem mathKids_met (hlevel : 0 ≤ level) (hcomma : NoComma first) (h : Knows fr seen)
    (hbody : fr.enterbody = true) (hmet : ∀ x ∈ first.vars, x ∈ seen) :
    Pass fr (kidLoop (fun ty _ => mathKid ty) (build k n first (level + 1) s).1 fr) 0
      (first.vars ++ seen) := by
  have hkids : 0 ≤ level + 1 := by omega
  have hrow := kidLoop_row (k := k) (n := n) (s := s) (b := true)
    (f := fun ty _ => mathKid ty) (c := 0) (R := fun seen t => ∀ x ∈ t.vars, x ∈ seen) ?_ ?_
    hkids hcomma hmet h hbody
  · rwa [Nat.zero_mul] at hrow
  · intro seen tok first next hold x hx
    exact List.mem_append_right _ (hold x (List.mem_append_right _ hx))
  · intro ty fr seen tok first next hold hvars h hb
    have hpass := mathKid_pass ty h
    rw [if_pos hb] at hpass
    refine hpass.mono (Nat.le_of_eq ?_)
    cases ty
    case var v =>
      have hv : v ∈ tok.vars := hvars ▸ List.mem_singleton_self v
      exact if_pos (hold v (List.mem_append_left _ hv))
    all_goals rfl

/-! ## One term -/

theorem hasFunctor_nested (hplace : Place k b level) (hb : fr.enterbody = b) :
    hasFunctor k level fr = true := by
  unfold hasFunctor
  rw [hb]
  cases b with
  | false => rfl
  | true =>
    obtain ⟨hk, hlevel⟩ := hplace.goal rfl
    cases k with
    | fact => exact absurd rfl hk
    | chain => exact decide_eq_true hlevel
    | userEnd => exact decide_eq_true hlevel

/-- A functor with a place for each argument. -/
theorem functor_kids {fr' : Frame} (hne : first.siblings ≠ 0) (hmeets : meets v = true)
    (hop : b = true → isOperator v = false) (hdot : v ≠ DOTVAL) (h : Knows fr seen)
    (hkids : Pass (fr.giveFunctor false part) fr' first.siblings (first.vars ++ seen)) :
    Pass fr fr' (ownCells b (.func v) first) (metBy (.func v) first ++ seen) := by
  rw [ownCells_eq hne hmeets hop, metBy_eq hmeets, selfCells, if_neg hdot]
  exact (functor_pass part h).trans hkids

theorem str_nested (part : Option ℕ) (hplace : Place k b level) (hcomma : NoComma first)
    (hfresh : argLevel k < level ∨ Fresh k b seen (.func v) first)
    (hty : compoundType v first = .str ∨ compoundType v first = .termComparison)
    (hne : first.siblings ≠ 0) (hmeets : meets v = true) (hop : isOperator v = false)
    (hdot : v ≠ DOTVAL) (h : Knows fr seen) (hb : fr.enterbody = b) :
    Pass fr (kidLoop (strKid k part) (build k n first (level + 1) s).1 (fr.giveFunctor false part))
      (ownCells b (.func v) first) (metBy (.func v) first ++ seen) := by
  apply functor_kids hne hmeets (fun _ => hop) hdot h
  refine strKids_nested hplace ?_ hcomma (functor_pass part h).knows hb
  intro hbody hk
  rcases hfresh with hlt | hfresh
  · exact .inl hlt
  · exact .inr (hfresh v rfl hbody hk hty)

theorem lis_nested (part : Option ℕ) (hplace : Place k b level) (hcomma : NoComma first)
    (hne : first.siblings ≠ 0) (h : Knows fr seen) :
    Pass fr (kidLoop (fun ty _ => lisKid part ty) (build k n first (level + 1) s).1 fr)
      (ownCells b (.func DOTVAL) first) (metBy (.func DOTVAL) first ++ seen) := by
  rw [ownCells_eq hne rfl (fun _ => rfl), metBy_eq rfl, selfCells, if_pos rfl, Nat.zero_add]
  exact lisKids_nested hplace.nonneg hcomma h

/-- In the body an operator takes nothing, and a comparison less than was counted for it. -/
theorem math_nested (part : Option ℕ) (hplace : Place k b level) (hcomma : NoComma first)
    (hcomputes : Computes b seen (.func v) first) (hne : first.siblings ≠ 0)
    (hmeets : meets v = true) (hdot : v ≠ DOTVAL) (h : Knows fr seen) (hb : fr.enterbody = b) :
    Pass fr (kidLoop (fun ty _ => mathKid ty) (build k n first (level + 1) s).1
        (if fr.enterbody then fr else fr.giveFunctor false part))
      (ownCells b (.func v) first) (metBy (.func v) first ++ seen) := by
  cases b with
  | false =>
    have hkids := mathKids_nested (k := k) (n := n) (s := s)
      (Int.le_trans (by decide) hplace.nonneg) hcomma
      (functor_pass part h).knows
    rw [hb]
    exact functor_kids hne hmeets (fun hfalse => by cases hfalse) hdot h hkids
  | true =>
    rw [hb, metBy_eq hmeets]
    by_cases hop : isOperator v = true
    · have hown : ownCells true (.func v) first = 0 := if_pos (.inr (.inr ⟨rfl, hop⟩))
      rw [hown]
      exact mathKids_met hplace.nonneg hcomma h hb (hcomputes v rfl rfl hop)
    · rw [ownCells_eq hne hmeets fun _ => Bool.not_eq_true _ ▸ hop]
      have hlevel : -1 ≤ level := Int.le_trans (by decide) hplace.nonneg
      exact (mathKids_nested hlevel hcomma h).mono (Nat.le_add_left _ _)

/-- A term with arguments. -/
theorem compound_nested (hplace : Place k b level) (htok : v ≠ COMMAVAL) (hcomma : NoComma first)
    (hcomputes : Computes b seen (.func v) first)
    (hfresh : argLevel k < level ∨ Fresh k b seen (.func v) first) (hne : first.siblings ≠ 0)
    (h : Knows fr seen) (hb : fr.enterbody = b) :
    Pass fr (assignKind k (compoundType v first) level (build k n first (level + 1) s).1 false fr)
      (ownCells b (.func v) first) (metBy (.func v) first ++ seen) := by
  rcases compoundType_cases first htok with ⟨hmeets, hty⟩ | ⟨rfl, hty⟩ | ⟨hmeets, hdot, hty⟩ |
    ⟨hmeets, hdot, hop, hty⟩
  · have hown : ownCells b (.func v) first = 0 := if_pos (.inr (.inl hmeets))
    have hmet : metBy (.func v) first = [] := by
      rw [metBy, hmeets]
      exact if_neg Bool.false_ne_true
    rw [hown, hmet]
    rcases hty with hty | hty <;> rw [hty] <;> exact Pass.refl h
  · have hpair := lis_nested (n := n) (s := s) (some fr.compounds) hplace hcomma hne h
    rcases hty with hty | hty <;> rw [hty] <;> exact hpair
  · have hmath := math_nested (n := n) (s := s) (some fr.compounds) hplace hcomma hcomputes
      hne hmeets hdot h hb
    rcases hty with hty | hty <;> rw [hty] <;> exact hmath
  · have hstr := str_nested (n := n) (s := s) (some fr.compounds) hplace hcomma hfresh hty
      hne hmeets hop hdot h hb
    have hfunctor := hasFunctor_nested hplace hb
    rcases hty with hty | hty <;> rw [hty, assignKind, if_pos hfunctor] <;> exact hstr

/-- **One term among arguments**, its own parts included. -/
theorem assignKind_nested (tlevel : ℤ) (hplace : Place k b level) (htok : tok ≠ .func COMMAVAL)
    (hcomma : NoComma first) (hcomputes : Computes b seen tok first)
    (hfresh : argLevel k < level ∨ Fresh k b seen tok first) (h : Knows fr seen)
    (hb : fr.enterbody = b) (s' : Tally) :
    Pass fr (assignKind k (classify k n tok first level tlevel s).1 level
        (build k n first (level + 1) s').1 false fr) (ownCells b tok first)
      (metBy tok first ++ seen) := by
  cases tok with
  | var cv v => cases cv <;> exact Pass.refl h
  | real rval =>
    rw [classify, classifyReal]
    split_ifs <;> exact Pass.refl h
  | func v =>
    rw [classify]
    by_cases hne : first.siblings = 0
    · have hown : ownCells b (.func v) first = 0 := if_pos (.inl hne)
      have hmet : metBy (.func v) first = [] := by
        cases first with
        | null => exact ite_self _
        | node => cases hne
      rw [if_pos hne, classifyAtom, hown, hmet]
      split_ifs <;> exact Pass.refl h
    · rw [if_neg hne]
      exact compound_nested hplace (fun hv => htok (hv ▸ rfl)) hcomma hcomputes hfresh hne h hb

/-! ## Rows of terms -/

theorem enter_pass (h : Knows fr seen) (hty : ty ≠ .symComma) (hlevel : level ≠ -1) :
    Pass fr (fr.enter ty level) 0 seen := by
  apply Pass.still h
  all_goals simp [Frame.enter, hty, hlevel]

theorem assignCell_node : assignCell k (build k n (.node tok first next) level s).1 fr =
    assignCell k (build k n next (enter tok level s).1
        (build k n first ((enter tok level s).1 + 1) (visit k n tok first next level s).2).2).1
      (assignCell k (build k n first ((enter tok level s).1 + 1)
          (visit k n tok first next level s).2).1
        (assignTerm k (visit k n tok first next level s).1 level
          (build k n first ((enter tok level s).1 + 1) (visit k n tok first next level s).2).1
          fr)) :=
  rfl

/-- **The terms inside arguments** take no more than was counted for them. -/
theorem visits : ∀ {t : ImagoTerm} {level : ℤ} {s : Tally} {fr : Frame} {seen : List ℕ}
    {shallow : Bool}, Inner k b shallow seen t → Place k b level →
    (shallow = false → argLevel k < level ∨ b = false) → s.enterbody = b → fr.enterbody = b →
    fr.firsttime ≠ 0 → Knows fr seen →
    Pass fr (assignCell k (build k n t level s).1 fr) (need b t) (metIn t ++ seen)
  | .null, _, _, _, _, _, _, _, _, _, _, _, h => Pass.refl h
  | .node tok first next, level, s, fr, seen, shallow, hinner, hplace, hdeep, hs, hb, htime, h => by
    obtain ⟨htok, hcomputes, hshallow, hfirst, hnext⟩ := hinner
    have henter := hplace.enter htok s
    have hlevel : level ≠ -1 := by
      have := hplace.nonneg
      omega
    have hty : (visit k n tok first next level s).1 ≠ .symComma := classify_ne_comma htok
    have hstart := enter_pass h hty hlevel
    have hfresh : argLevel k < level ∨ Fresh k b seen tok first := by
      cases shallow with
      | true => exact .inr (hshallow rfl)
      | false =>
        rcases hdeep rfl with hlt | hbody
        · exact .inl hlt
        · exact .inr fun _ _ htrue => absurd htrue (hbody ▸ Bool.false_ne_true)
    -- the term itself
    have hterm : Pass fr (assignTerm k (visit k n tok first next level s).1 level
        (build k n first (level + 1) (visit k n tok first next level s).2).1 fr)
        (0 + ownCells b tok first) (metBy tok first ++ seen) := by
      have hhead : (fr.firsttime == 0) = false := beq_false_of_ne htime
      rw [assignTerm, hhead]
      have hkind := assignKind_nested (n := n) (enter tok level s).1
        (s := (enter tok level s).2) hplace htok hfirst.noComma hcomputes hfresh hstart.knows
        (hstart.enterbody.trans hb) (visit k n tok first next level s).2
      exact hstart.trans hkind
    have hvisit : (visit k n tok first next level s).2.enterbody = b := by
      simp only [visit, henter, follow_enterbody, classify_enterbody, hs]
    have hcounted := build_inner (n := n) hfirst.noComma hplace.succ hvisit
    -- what is in it, and what follows
    have hkids := visits hfirst hplace.succ
      (fun _ => by
        cases b with
        | false => exact .inr rfl
        | true => exact .inl (Int.lt_add_one_of_le (hplace.goal rfl).2))
      hvisit (hterm.enterbody.trans hb) (hterm.firsttime ▸ htime) hterm.knows
    have hrest := visits hnext hplace hdeep hcounted.1
      ((hkids.enterbody.trans hterm.enterbody).trans hb)
      (hkids.firsttime ▸ hterm.firsttime ▸ htime) hkids.knows
    rw [assignCell_node, henter]
    refine (((hterm.trans hkids).trans hrest).mono ?_).congr ?_
    · rw [need]
      omega
    · intro v
      simp only [metIn, List.append_assoc]

end Cells

end Mlvm
