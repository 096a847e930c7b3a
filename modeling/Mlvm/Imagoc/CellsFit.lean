import Mlvm.Imagoc.BareCells

/-!
# The cells of orderly clauses

**Theorem (`fits_of_orderly`).** The cells of an orderly clause fit.

The numbers begin at the top of the frame, with the functor of the head, which has no cell. What the
arguments of the head take, their parts and the goals of the body was counted; so the counter stops
above the reserved cells, and all cells are different because each number that is kept is taken
away. A head without arguments takes no number, so that its clause fits if it needs no cells at all
(`bare_vacant`).
-/

namespace Mlvm

namespace Cells

open Imagoc (DOTVAL COMMAVAL RULEIFVAL CUTVAL)
open Descent

variable {k : ClauseType} {n : ℕ → ℕ} {tok : Tok} {t first next args body root : ImagoTerm}
  {level tlevel size : ℤ} {s : Tally} {seen : List ℕ} {fr fr' : Frame} {ty : MlvmType} {v : ℕ}
  {budget : ℕ}

/-! ## The head -/

theorem classify_firsttime :
    (classify k n tok first level tlevel s).2.firsttime = s.firsttime := by
  cases tok with
  | var cv v => cases cv <;> rfl
  | real rval =>
    rw [classify, classifyReal]
    split_ifs <;> rfl
  | func v =>
    rw [classify, classifyAtom]
    split_ifs <;> rfl

theorem visit_firsttime : (visit k n tok first next level s).2.firsttime =
    (enter tok level s).2.firsttime := classify_firsttime

theorem build_firsttime : ∀ {t : ImagoTerm} {level : ℤ} {s : Tally}, NoComma t → 0 ≤ level →
    (build k n t level s).2.firsttime = s.firsttime
  | .null, _, _, _, _ => rfl
  | .node tok first next, level, s, h, hlevel => by
    obtain ⟨htok, hfirst, hnext⟩ := h
    have henter : enter tok level s = (level, s) := enter_of_ne htok (by omega) s
    rw [build_node, henter]
    calc (build k n next level _).2.firsttime
        = (build k n first (level + 1) (visit k n tok first next level s).2).2.firsttime :=
          build_firsttime hnext hlevel
      _ = (visit k n tok first next level s).2.firsttime :=
          build_firsttime hfirst (by omega)
      _ = s.firsttime := by rw [visit_firsttime, henter]

/-- The number of the functor is passed over. -/
def headFrame (size : ℤ) (ty : MlvmType) : Frame :=
  ((Frame.start size).enter ty (-1)).giveFunctor true none

theorem headFrame_enterbody (hty : ty ≠ .symComma) : (headFrame size ty).enterbody = false := by
  simp [headFrame, Frame.giveFunctor, Frame.enter, Frame.start, hty]

theorem headFrame_knows : Knows (headFrame size ty) [] := by
  intro v
  exact iff_of_true rfl List.not_mem_nil

/-- The arguments of the head take one cell each. -/
theorem headKind_pass (size : ℤ) (hmeets : meets v = true) (hdot : v ≠ DOTVAL)
    (hcomma : NoComma args) :
    Pass (headFrame size (compoundType v args))
      (assignKind k (compoundType v args) (-1) (build k n args 0 s).1 true
        ((Frame.start size).enter (compoundType v args) (-1))) args.siblings args.vars := by
  obtain ⟨hcomma', -, -⟩ := meets_iff.1 hmeets
  have hbody : ∀ {ty}, ty ≠ .symComma → ((Frame.start size).enter ty (-1)).enterbody = false :=
    headFrame_enterbody
  rcases compoundType_cases args hcomma' with ⟨hmeets', -⟩ | ⟨hdot', -⟩ | ⟨-, -, hty⟩ |
    ⟨-, -, -, hty⟩
  · rw [hmeets] at hmeets'
    cases hmeets'
  · exact absurd hdot' hdot
  · have hkids : ∀ ty, Pass (headFrame size ty)
        (kidLoop (fun ty _ => mathKid ty) (build k n args 0 s).1 (headFrame size ty)) args.siblings
        (args.vars ++ []) :=
      fun ty => mathKids_nested (Int.le_refl _) hcomma headFrame_knows
    rw [← List.append_nil args.vars]
    rcases hty with hty | hty
    all_goals
      rw [hty, assignKind, hbody (by decide)]
      exact hkids _
  · have hkids : ∀ ty, ty ≠ .symComma → Pass (headFrame size ty)
        (kidLoop (strKid k none) (build k n args 0 s).1 (headFrame size ty)) (1 * args.siblings)
        (args.vars ++ []) := by
      intro ty hty
      exact kidLoop_row (R := fun _ _ => True) (fun _ _ _ _ _ => trivial)
        (fun _ _ _ _ _ _ _ _ h _ => strKid_pass h (.inl rfl)) (Int.le_refl 0) hcomma trivial
        headFrame_knows (headFrame_enterbody hty)
    rw [← List.append_nil args.vars, ← Nat.one_mul args.siblings]
    rcases hty with hty | hty
    all_goals
      have hfunctor : hasFunctor k (-1) ((Frame.start size).enter (compoundType v args) (-1)) =
          true := by
        unfold hasFunctor
        rw [hty, hbody (by decide)]
        rfl
      rw [hty] at hfunctor ⊢
      rw [assignKind, if_pos hfunctor]
      exact hkids _ (by decide)

/-- **The head**, with what is in its arguments. -/
theorem head_pass (hmeets : meets v = true) (hdot : v ≠ DOTVAL) (hne : args ≠ .null)
    (hcomma : NoComma args) (hs : s = (visit k n (.func v) args next (-1) .start).2)
    (hty : ty = (visit k n (.func v) args next (-1) .start).1) :
    Pass (headFrame size ty)
        (assignCell k (build k n args 0 s).1
          (assignTerm k ty (-1) (build k n args 0 s).1 (.start size)))
        (args.siblings + need false args) (metIn args ++ args.vars) ∧
      need false args ≤ (build k n args 0 s).2.mlvmallocn2 ∧
      (build k n args 0 s).2.firsttime = 1 := by
  have hsiblings : args.siblings ≠ 0 := by
    cases args with
    | null => exact absurd rfl hne
    | node => exact Nat.succ_ne_zero _
  have htok : (Tok.func v) ≠ .func COMMAVAL := by
    intro heq
    cases heq
    cases hmeets
  have henter : (enter (.func v) (-1) .start).2.enterbody = false ∧
      (enter (.func v) (-1) .start).2.firsttime = 1 := by
    simp [enter, htok, Tally.start]
  have hentered : s.enterbody = false := by rw [hs, visit_enterbody, henter.1]
  have hfirsttime : s.firsttime = 1 := by rw [hs, visit_firsttime, henter.2]
  have hkind : ty = compoundType v args := by
    rw [hty, visit, classify, if_neg hsiblings]
    rfl
  subst hkind
  have hplace : Place k false 0 := ⟨Int.le_refl 0, fun hfalse => absurd hfalse Bool.false_ne_true⟩
  have hargs := headKind_pass (k := k) (n := n) (s := s) size hmeets hdot hcomma
  have hbody : (headFrame size (compoundType v args)).enterbody = false :=
    headFrame_enterbody (hty ▸ classify_ne_comma htok)
  have htime : (headFrame size (compoundType v args)).firsttime = 1 := rfl
  have hparts := visits (n := n) (s := s) (b := false) (hcomma.inner : Inner k false false _ args)
    hplace
    (fun _ => .inr rfl) hentered (hargs.enterbody.trans hbody)
    ((hargs.firsttime.trans htime).symm ▸ Nat.one_ne_zero) hargs.knows
  have hcounted := (build_inner (n := n) hcomma hplace hentered).2
  refine ⟨hargs.trans hparts, Nat.le_trans (Nat.le_add_left _ _) hcounted, ?_⟩
  rw [build_firsttime hcomma (Int.le_refl 0), hfirsttime]

/-! ## Cells that fit -/

/-- What the two passes make of a clause. -/
def finish (n : ℕ → ℕ) (root : ImagoTerm) : Frame :=
  assignCell (clausetype root) (mlvmtermtree n root).1
    (.start (allocated n root + (headOf root).first.siblings))

/-- **Numbers that are given downwards fit**, if no more are kept than were counted. -/
theorem fits_of_granted (hstart : fr.size = allocated n root + (headOf root).first.siblings - 1)
    (hgiven : fr.given = []) (h : Granted fr (finish n root) budget)
    (hle : budget ≤ (mlvmtermtree n root).2.mlvmallocn2 + (headOf root).first.siblings) :
    Fits n root := by
  obtain ⟨new, hnew, hdescends, hparts⟩ := h.given
  have hwithin := h.within
  rw [hgiven, List.nil_append] at hnew
  have hrest := hdescends.rest_eq
  have hcells : cells n root = new.filter fun c => c.kept || c.part.isSome := by
    show (finish n root).given.filter _ = _
    rw [hnew]
  have hkept : ∀ c ∈ cells n root, c ∈ new ∧ c.kept = true := by
    intro c hc
    rw [hcells, List.mem_filter] at hc
    refine ⟨hc.1, ?_⟩
    by_contra hfalse
    rw [Bool.not_eq_true] at hfalse
    rw [hfalse, hparts c hc.1 hfalse] at hc
    exact absurd hc.2 Bool.false_ne_true
  have hcount : (cells n root).countP (fun c => c.kept) = new.countP Cell.kept := by
    rw [hcells, List.countP_filter]
    congr 1
    funext c
    show (c.kept && (c.kept || c.part.isSome)) = c.kept
    cases c.kept <;> rfl
  have hallocated : allocated n root = (mlvmtermtree n root).2.mlvmallocn2 +
      reserved (clausetype root) (mlvmtermtree n root).2 := rfl
  constructor
  · rw [hcount]
    omega
  · intro c hc
    have hlt := hdescends.lt_number c (hkept c hc).1 (hkept c hc).2
    have hle' := hdescends.number_le c (hkept c hc).1
    constructor <;> omega
  · intro c hc d hd hnumber v hv
    have heq := hdescends.eq_of_number_eq c (hkept c hc).1 d (hkept d hd).1 (hkept c hc).2
      (hkept d hd).2 hnumber
    subst heq
    refine ⟨fun w hw => ?_, fun p hp => hp⟩
    rw [hv] at hw
    exact Option.some.inj hw


/-- A clause of which no number is kept fits. -/
theorem fits_of_vacant (h : ∀ c ∈ (finish n root).given, c.kept = false ∧ c.part = none) :
    Fits n root := by
  have hcells : cells n root = [] := by
    apply List.filter_eq_nil_iff.2
    intro c hc
    obtain ⟨hkept, hpart⟩ := h c hc
    rw [hkept, hpart]
    exact Bool.false_ne_true
  constructor
  · rw [hcells, List.countP_nil, Nat.zero_add]
    exact Nat.le_trans (Nat.le_add_left _ _) (Nat.le_add_right _ _)
  · intro c hc
    rw [hcells] at hc
    exact absurd hc List.not_mem_nil
  · intro c hc
    rw [hcells] at hc
    exact absurd hc List.not_mem_nil

/-! ## Orderly clauses -/

theorem clausetype_fact (args : ImagoTerm) (hmeets : meets v = true) :
    clausetype (.node (.func v) args .null) = .fact := by
  apply if_neg
  intro heq
  cases heq
  cases hmeets

theorem clausetype_rule : clausetype (.node (.func RULEIFVAL) (.node tok args body) .null) ≠ .fact ∧
    (clausetype (.node (.func RULEIFVAL) (.node tok args body) .null) = .userEnd ↔
      body.functor = some COMMAVAL ∨ body.functor = some IFTHENELSEVAL) := by
  have htype : clausetype (.node (.func RULEIFVAL) (.node tok args body) .null) =
      if body.functor = some COMMAVAL ∨ body.functor = some IFTHENELSEVAL then .userEnd
      else .chain := rfl
  rw [htype]
  by_cases h : body.functor = some COMMAVAL ∨ body.functor = some IFTHENELSEVAL
  · rw [if_pos h]
    exact ⟨by decide, iff_of_true rfl h⟩
  · rw [if_neg h]
    exact ⟨by decide, iff_of_false (by decide) h⟩

theorem headOf_rule : headOf (.node (.func RULEIFVAL) (.node tok args body) .null) =
    .node tok args body := if_neg clausetype_rule.1

/-- The two passes over the head and the body. -/
theorem finish_eq (hroot : headOf root = .node (.func v) args body) (hk : clausetype root = k)
    (hs : s = (visit k n (.func v) args body (-1) .start).2)
    (hty : ty = (visit k n (.func v) args body (-1) .start).1) :
    (mlvmtermtree n root).2 = (build k n body (-1) (build k n args 0 s).2).2 ∧
      finish n root = assignCell k (build k n body (-1) (build k n args 0 s).2).1
        (assignCell k (build k n args 0 s).1
          (assignTerm k ty (-1) (build k n args 0 s).1
            (.start (allocated n root + args.siblings)))) := by
  have henter : (enter (.func v) (-1) .start).1 = -1 := ite_self _
  have htree : mlvmtermtree n root =
      (.node ty (-1) (build k n args 0 s).1 (build k n body (-1) (build k n args 0 s).2).1,
        (build k n body (-1) (build k n args 0 s).2).2) := by
    rw [mlvmtermtree, hroot, hk, build_node, henter, ← hs, ← hty]
    rfl
  rw [finish, htree, hroot, hk]
  exact ⟨rfl, rfl⟩

/-- A clause whose head has arguments, if its body takes no more than was counted. -/
theorem fits_of_body (hmeets : meets v = true) (hdot : v ≠ DOTVAL) (hne : args ≠ .null)
    (hcomma : NoComma args) (hroot : headOf root = .node (.func v) args body)
    (hk : clausetype root = k)
    (hbody : ∀ (s : Tally) (fr : Frame), s.firsttime = 1 → fr.firsttime = 1 →
      Knows fr (metIn args ++ args.vars) → ∃ c,
        Granted fr (assignCell k (build k n body (-1) s).1 fr) c ∧
          s.mlvmallocn2 + c ≤ (build k n body (-1) s).2.mlvmallocn2) : Fits n root := by
  obtain ⟨htree, hfinish⟩ := finish_eq (n := n) hroot hk rfl rfl
  obtain ⟨hhead, hcounted, htime⟩ := head_pass (k := k)
    (n := n) hmeets hdot hne hcomma rfl rfl
  obtain ⟨c, hgranted, hle⟩ := hbody _ _ htime hhead.firsttime hhead.knows
  have hsiblings : (headOf root).first.siblings = args.siblings := by rw [hroot]; rfl
  have hall := hhead.toGranted.trans hgranted
  rw [← hfinish] at hall
  refine fits_of_granted ?_ rfl hall ?_
  · rw [hsiblings]
    rfl
  · rw [htree, hsiblings]
    omega

/-- A head without arguments gets nothing. -/
theorem visit_constant :
    (∀ l kids isHead fr, assignKind k (visit k n (.func v) .null next level s).1 l kids isHead fr =
      fr) ∧ (visit k n (.func v) .null next level s).1 ≠ .termComparison := by
  have htype : (visit k n (.func v) .null next level s).1 =
      (classifyAtom v (enter (.func v) level s).2).1 := rfl
  rw [htype, classifyAtom]
  split_ifs
  all_goals exact ⟨fun _ _ _ _ => rfl, MlvmType.noConfusion⟩

theorem assignTerm_constant {kids : MlvmTerm} :
    assignTerm k (visit k n (.func v) .null next level s).1 level kids fr =
      fr.enter (visit k n (.func v) .null next level s).1 level :=
  visit_constant.1 _ _ _ _

/-- **The cells of an orderly clause fit**: enough were counted, each lies inside the frame and
above the reserved ones, and no variable shares its cell. -/
theorem fits_of_orderly (n : ℕ → ℕ) (root : ImagoTerm) (h : Orderly root) : Fits n root := by
  cases h with
  | fact v args head inner =>
    obtain ⟨hmeets, hdot⟩ := head
    have hk := clausetype_fact args hmeets
    have hroot : headOf (.node (.func v) args .null) = .node (.func v) args .null := if_pos hk
    by_cases hne : args = .null
    · subst hne
      apply fits_of_vacant
      rw [(finish_eq (n := n) hroot hk rfl rfl).2]
      intro c hc
      rw [assignTerm_constant] at hc
      exact absurd hc List.not_mem_nil
    · apply fits_of_body hmeets hdot hne inner hroot hk
      intro s fr _ _ _
      exact ⟨0, .still rfl rfl, Nat.le_refl _⟩
  | rule v args body head ne inner last goals =>
    obtain ⟨hmeets, hdot⟩ := head
    apply fits_of_body hmeets hdot ne inner headOf_rule rfl
    intro s fr hs htime h
    exact body_granted clausetype_rule.1 clausetype_rule.2 last goals hs htime h
  | bare v body last bare =>
    obtain ⟨htree, hfinish⟩ := finish_eq (n := n) headOf_rule rfl rfl rfl
    apply fits_of_vacant
    rw [hfinish]
    apply body_vacant clausetype_rule.1 clausetype_rule.2 last bare
    · apply visit_owntermcomp rfl
      exact visit_constant.2
    · rw [assignTerm_constant]
      rfl
    · rw [assignTerm_constant]
      rfl

/-- `nrev([X|R], L) :- nrev(R, T), append(T, [X], L).` -/
def nreverse : ImagoTerm :=
  .node (.func RULEIFVAL)
    (.node (.func 300)
      (.node (.func DOTVAL)
        (.node (.var .first 0) .null (.node (.var .first 1) .null .null))
        (.node (.var .first 2) .null .null))
      (.node (.func COMMAVAL)
        (.node (.func 300)
          (.node (.var .seen 1) .null (.node (.var .first 3) .null .null))
          (.node (.func 301)
            (.node (.var .seen 3) .null
              (.node (.func DOTVAL)
                (.node (.var .seen 0) .null (.node (.func NILLISTVAL) .null .null))
                (.node (.var .seen 2) .null .null)))
            .null))
        .null))
    .null

theorem orderly_nreverse : Orderly nreverse := by
  apply Orderly.rule
  · decide
  · exact ImagoTerm.noConfusion
  · simp [NoComma, DOTVAL, COMMAVAL]
  · rfl
  · simp [clausetype, bodyOf, Goals, Inner, Direct, Computes, Fresh, metIn, metBy, ImagoTerm.vars,
      Tok.vars, meets, isOperator, compoundType, ImagoTerm.functor, ImagoTerm.first,
      ImagoTerm.next, DOTVAL, COMMAVAL, RULEIFVAL, NILLISTVAL, IFTHENELSEVAL, ISVAL]

/-- Naive reversal. -/
theorem nreverse_fits : Fits (fun _ => 1) nreverse := fits_of_orderly _ nreverse orderly_nreverse

end Cells

end Mlvm
