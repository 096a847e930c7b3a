import Mlvm.Imagoc.Nested

/-!
# The goals of a body

A goal gets no functor. Its arguments take what is counted for them beside their parts, and what is
in them no more than that (`goal_pass`); so all goals together take no more than was counted
(`goals_granted`, `body_granted`).
-/

namespace Mlvm

namespace Cells

open Imagoc (DOTVAL COMMAVAL RULEIFVAL CUTVAL)

variable {k : ClauseType} {n : ℕ → ℕ} {tok : Tok} {t first next : ImagoTerm} {level tlevel : ℤ}
  {s e : Tally} {seen : List ℕ} {fr : Frame} {ty : MlvmType} {v : ℕ}

/-! ## One goal -/

theorem direct_of_vars_nil : ∀ {t : ImagoTerm} {seen : List ℕ}, t.vars = [] → Direct seen t
  | .null, _, _ => trivial
  | .node tok _ next, seen, h => by
    have hsplit := List.append_eq_nil_iff.1 h
    refine ⟨?_, direct_of_vars_nil hsplit.2⟩
    intro v hv
    rw [hsplit.1] at hv
    exact absurd hv List.not_mem_nil

theorem hasFunctor_goal (hk : k ≠ .fact) (hb : fr.enterbody = true) :
    hasFunctor k (argLevel k - 1) fr = false := by
  unfold hasFunctor
  rw [if_pos hb]
  cases k with
  | fact => exact absurd rfl hk
  | chain => rfl
  | userEnd => rfl

/-- What is done for the goal itself and its arguments. -/
theorem goalKind_pass (hk : k ≠ .fact) (htok : tok ≠ .func COMMAVAL) (hdot : tok ≠ .func DOTVAL)
    (hdirect : metBy tok first ≠ [] → Direct seen first) (hcomma : NoComma first)
    (hs : s.enterbody = true) (hb : fr.enterbody = true) (h : Knows fr seen) : ∃ c,
      Pass fr (assignKind k (classify k n tok first level tlevel e).1 (argLevel k - 1)
          (build k n first (argLevel k) s).1 false fr) c (metBy tok first ++ seen) ∧
        s.mlvmallocn2 + c + need true first ≤
          (build k n first (argLevel k) s).2.mlvmallocn2 := by
  have hplace : Place k true (argLevel k) := ⟨argLevel_nonneg k, fun _ => ⟨hk, Int.le_refl _⟩⟩
  have hcounted := (build_inner (n := n) hcomma hplace hs).2
  have hnothing : metBy tok first = [] → ∃ c, Pass fr fr c (metBy tok first ++ seen) ∧
      s.mlvmallocn2 + c + need true first ≤ (build k n first (argLevel k) s).2.mlvmallocn2 := by
    intro hmet
    rw [hmet]
    exact ⟨0, Pass.refl h, hcounted⟩
  cases tok with
  | var cv v => cases cv <;> exact hnothing rfl
  | real rval =>
    rw [classify, classifyReal]
    split_ifs <;> exact hnothing rfl
  | func v =>
    rw [classify]
    by_cases hne : first.siblings = 0
    · have hmet : metBy (.func v) first = [] := by
        cases first with
        | null => exact ite_self _
        | node => cases hne
      rw [if_pos hne, classifyAtom]
      split_ifs <;> exact hnothing hmet
    rw [if_neg hne]
    show ∃ c, Pass fr (assignKind k (compoundType v first) (argLevel k - 1) _ false fr) c _ ∧ _
    have hcomma' : v ≠ COMMAVAL := fun hv => htok (hv ▸ rfl)
    have hloop : ∀ f : MlvmType → ℤ → Frame → Frame, meets v = true →
        (∀ ty fr seen, Knows fr seen → fr.enterbody = true →
          Pass fr (f ty (argLevel k) fr) (goalBudget seen ty) (ty.vars ++ seen)) → ∃ c,
        Pass fr (kidLoop f (build k n first (argLevel k) s).1 fr) c
            (metBy (.func v) first ++ seen) ∧
          s.mlvmallocn2 + c + need true first ≤
            (build k n first (argLevel k) s).2.mlvmallocn2 := by
      intro f hmeets hf
      have hall : Direct seen first := by
        by_cases hvars : first.vars = []
        · exact direct_of_vars_nil hvars
        · apply hdirect
          rwa [metBy_eq hmeets]
      rw [metBy_eq hmeets]
      exact kidLoop_goal hk hf hcomma hall hs h hb
    rcases compoundType_cases first hcomma' with ⟨hmeets, hty⟩ | ⟨rfl, -⟩ | ⟨hmeets, -, hty⟩ |
      ⟨hmeets, -, -, hty⟩
    · have hmet : metBy (.func v) first = [] := by
        rw [metBy, hmeets]
        exact if_neg Bool.false_ne_true
      rcases hty with hty | hty <;> rw [hty] <;> exact hnothing hmet
    · exact absurd rfl hdot
    · have hmath := hloop (fun ty _ => mathKid ty) hmeets fun _ _ _ h hb => mathKid_goal h hb
      rcases hty with hty | hty <;> rw [hty, assignKind, if_pos hb] <;> exact hmath
    · have hstr := hloop (strKid k none) hmeets fun _ _ _ h hb => strKid_goal h hb hk
        (Int.le_refl _)
      have hfunctor := hasFunctor_goal hk hb
      rcases hty with hty | hty <;> rw [hty, assignKind, hfunctor] <;> exact hstr

/-- **One goal**, with what is in its arguments. -/
theorem goal_pass (hk : k ≠ .fact) (htok : tok ≠ .func COMMAVAL) (hdot : tok ≠ .func DOTVAL)
    (hdirect : metBy tok first ≠ [] → Direct seen first)
    (hinner : Inner k true true (metBy tok first ++ seen) first) (hs : s.enterbody = true)
    (hb : fr.enterbody = true) (htime : fr.firsttime ≠ 0) (h : Knows fr seen) : ∃ c,
      Pass fr (assignCell k (build k n first (argLevel k) s).1
          (assignKind k (classify k n tok first level tlevel e).1 (argLevel k - 1)
            (build k n first (argLevel k) s).1 false fr)) c
          (metIn first ++ (metBy tok first ++ seen)) ∧
        s.mlvmallocn2 + c ≤ (build k n first (argLevel k) s).2.mlvmallocn2 ∧
        (build k n first (argLevel k) s).2.enterbody = true := by
  have hplace : Place k true (argLevel k) := ⟨argLevel_nonneg k, fun _ => ⟨hk, Int.le_refl _⟩⟩
  obtain ⟨c, hkind, hcount⟩ := goalKind_pass (n := n) (e := e) hk
    htok hdot hdirect hinner.noComma hs hb h
  have hkids := visits (n := n) hinner hplace (fun hfalse => by cases hfalse) hs
    (hkind.enterbody.trans hb) (hkind.firsttime ▸ htime) hkind.knows
  refine ⟨c + need true first, hkind.trans hkids, ?_, ?_⟩
  · rwa [← Nat.add_assoc]
  · exact (build_inner hinner.noComma hplace hs).1

/-! ## All goals -/

theorem le_classify : s.mlvmallocn2 ≤ (classify k n tok first level tlevel s).2.mlvmallocn2 := by
  cases tok with
  | var cv v =>
    cases cv with
    | first => exact Nat.le_add_right _ _
    | seen => exact Nat.le_refl _
    | anonymous => exact Nat.le_refl _
  | real rval => exact le_classifyReal rval
  | func v =>
    rw [classify]
    split_ifs
    · exact le_classifyAtom v
    · exact Nat.le_add_right _ _

theorem enter_body (h : tok = .func COMMAVAL ∨ level = -1 ∧ s.firsttime = 1) :
    (enter tok level s).1 = -1 ∧ (enter tok level s).2.enterbody = true := by
  simp [enter, h]

theorem visit_enterbody : (visit k n tok first next level s).2.enterbody =
    (enter tok level s).2.enterbody := by
  simp only [visit, follow_enterbody, classify_enterbody]

theorem le_visit : s.mlvmallocn2 ≤ (visit k n tok first next level s).2.mlvmallocn2 :=
  Nat.le_trans (Nat.le_refl (enter tok level s).2.mlvmallocn2) le_classify

/-- A comma, or the arrow of an if-then-else, gets no cell. -/
theorem assignKind_comma {kids : MlvmTerm} {isHead : Bool}
    (hv : v = COMMAVAL ∨ v = IFTHENELSEVAL) :
    assignKind k (visit k n (.func v) first next level s).1 tlevel kids isHead fr = fr := by
  rw [visit, classify]
  split_ifs
  · rw [classifyAtom]
    split_ifs <;> rfl
  · rcases hv with rfl | rfl <;> rfl

theorem Granted.enter {fr' : Frame} {budget : ℕ} (h : Granted (fr.enter ty level) fr' budget) :
    Granted fr fr' budget where
  given := h.given
  within := h.within

/-- Later terms do not leave the body. -/
theorem enter_later (hb : fr.enterbody = true) (htime : fr.firsttime ≠ 0) (h : Knows fr seen) :
    (fr.enter ty level).enterbody = true ∧ (fr.enter ty level).firsttime ≠ 0 ∧
      Knows (fr.enter ty level) seen := by
  refine ⟨?_, ?_, h⟩
  · show (fr.enterbody || _) = true
    rw [hb]
    exact Bool.true_or _
  · show (if level = -1 then fr.firsttime + 1 else fr.firsttime) ≠ 0
    split_ifs
    · exact Nat.succ_ne_zero _
    · exact htime

/-- **The goals of a body** with a comma or an if-then-else. -/
theorem goals_granted : ∀ {t : ImagoTerm} {s : Tally} {fr : Frame} {seen : List ℕ},
    Goals .userEnd seen t → s.enterbody = true → fr.enterbody = true → fr.firsttime ≠ 0 →
    Knows fr seen → ∃ c,
      Granted fr (assignCell .userEnd (build .userEnd n t 0 s).1 fr) c ∧
        s.mlvmallocn2 + c ≤ (build .userEnd n t 0 s).2.mlvmallocn2
  | .null, _, _, _, _, _, _, _, _ => ⟨0, .still rfl rfl, Nat.le_refl _⟩
  | .node tok first next, s, fr, seen, hgoals, hs, hb, htime, h => by
    have hhead : (fr.firsttime == 0) = false := beq_false_of_ne htime
    have hcounted : s.mlvmallocn2 ≤ (visit .userEnd n tok first next 0 s).2.mlvmallocn2 := le_visit
    rw [Goals] at hgoals
    rw [assignCell_node, build_node, assignTerm, hhead]
    by_cases htok : tok = .func COMMAVAL
    · rw [if_pos htok] at hgoals
      obtain ⟨rfl, hgoals⟩ := hgoals
      subst htok
      obtain ⟨henter, hentered⟩ := enter_body (s := s) (.inl rfl)
      have hvisit : (visit .userEnd n (.func COMMAVAL) first .null 0 s).2.enterbody = true :=
        visit_enterbody.trans hentered
      obtain ⟨hbody, htime', h'⟩ := enter_later
        hb htime h
      obtain ⟨c, hgranted, hle⟩ := goals_granted hgoals hvisit hbody htime' h'
      rw [henter]
      refine ⟨c, ?_, Nat.le_trans (Nat.add_le_add_right hcounted c) hle⟩
      rw [assignKind_comma (.inl rfl)]
      exact hgranted.enter
    · rw [if_neg htok] at hgoals
      obtain ⟨hdot, hdirect, hinner, hnext⟩ := hgoals
      have henter : enter tok 0 s = (0, s) := enter_of_ne htok (by decide) s
      have hvisit : (visit .userEnd n tok first next 0 s).2.enterbody = true := by
        rw [visit_enterbody, henter]
        exact hs
      obtain ⟨hbody, htime', h'⟩ := enter_later
        hb htime h
      obtain ⟨c, hgoal, hle, hs'⟩ := goal_pass (n := n)
        (e := (enter tok 0 s).2) (k := .userEnd) (by decide) htok hdot hdirect hinner hvisit hbody
        htime' h'
      obtain ⟨c', hgranted, hle'⟩ := goals_granted hnext hs' (hgoal.enterbody.trans hbody)
        (hgoal.firsttime ▸ htime') hgoal.knows
      rw [henter]
      refine ⟨c + c', (hgoal.toGranted.trans hgranted).enter, ?_⟩
      refine Nat.le_trans ?_ hle'
      rw [← Nat.add_assoc]
      exact Nat.add_le_add_right (Nat.le_trans (Nat.add_le_add_right hcounted c) hle) c'

/-- The second term at level -1 is the body. -/
theorem enter_first (ty : MlvmType) (htime : fr.firsttime = 1) (h : Knows fr seen) :
    (fr.enter ty (-1)).enterbody = true ∧ (fr.enter ty (-1)).firsttime ≠ 0 ∧
      Knows (fr.enter ty (-1)) seen := by
  refine ⟨?_, Nat.succ_ne_zero _, h⟩
  simp [Frame.enter, htime]

theorem tok_of_functor (h : (ImagoTerm.node tok first next).functor = some COMMAVAL ∨
    (ImagoTerm.node tok first next).functor = some IFTHENELSEVAL) :
    ∃ v, tok = .func v ∧ (v = COMMAVAL ∨ v = IFTHENELSEVAL) := by
  cases tok with
  | func v => exact ⟨v, rfl, h.imp Option.some.inj Option.some.inj⟩
  | var cv v => exact absurd h (by simp [ImagoTerm.functor])
  | real rval => exact absurd h (by simp [ImagoTerm.functor])

/-- **The body** takes no more than was counted for it. -/
theorem body_granted {body : ImagoTerm} (hk : k ≠ .fact)
    (hcomma : k = .userEnd ↔
      body.functor = some COMMAVAL ∨ body.functor = some IFTHENELSEVAL)
    (hlast : body.next = .null) (hgoals : Goals k seen (bodyOf k body)) (hs : s.firsttime = 1)
    (htime : fr.firsttime = 1) (h : Knows fr seen) : ∃ c,
      Granted fr (assignCell k (build k n body (-1) s).1 fr) c ∧
        s.mlvmallocn2 + c ≤ (build k n body (-1) s).2.mlvmallocn2 := by
  cases body with
  | null => exact ⟨0, .still rfl rfl, Nat.le_refl _⟩
  | node tok first next =>
    obtain rfl : next = .null := hlast
    have hhead : (fr.firsttime == 0) = false := by rw [htime]; rfl
    have hcounted : s.mlvmallocn2 ≤ (visit k n tok first .null (-1) s).2.mlvmallocn2 := le_visit
    obtain ⟨henter, hentered⟩ := enter_body (s := s) (.inr ⟨rfl, hs⟩)
    have hvisit : (visit k n tok first .null (-1) s).2.enterbody = true :=
      visit_enterbody.trans hentered
    obtain ⟨hbody, htime', h'⟩ := enter_first
      (visit k n tok first .null (-1) s).1 htime h
    rw [assignCell_node, build_node, assignTerm, hhead, henter]
    cases k with
    | fact => exact absurd rfl hk
    | userEnd =>
      obtain ⟨v, rfl, hv⟩ := tok_of_functor (hcomma.1 rfl)
      obtain ⟨c, hgranted, hle⟩ := goals_granted (n := n) hgoals hvisit hbody htime' h'
      refine ⟨c, ?_, Nat.le_trans (Nat.add_le_add_right hcounted c) hle⟩
      rw [assignKind_comma hv]
      exact hgranted.enter
    | chain =>
      have htok : tok ≠ .func COMMAVAL := by
        intro heq
        subst heq
        exact absurd (hcomma.2 (.inl rfl)) (by decide)
      have hgoals' : Goals .chain seen (.node tok first .null) := hgoals
      rw [Goals, if_neg htok] at hgoals'
      obtain ⟨hdot, hdirect, hinner, -⟩ := hgoals'
      obtain ⟨c, hgoal, hle, -⟩ := goal_pass (n := n)
        (e := (enter tok (-1) s).2) (k := .chain) (by decide) htok
        hdot hdirect hinner hvisit hbody htime' h'
      exact ⟨c, hgoal.toGranted.enter, Nat.le_trans (Nat.add_le_add_right hcounted c) hle⟩

end Cells

end Mlvm
