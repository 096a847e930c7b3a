import Mlvm.Imagoc.Budget

/-!
# Passes

What `assign_cell` does for the terms of an orderly clause, term by term. A **pass** (`Pass`) leads
from one state to a later one: cells are given downwards, every part of a structure keeps its place,
and the counter comes down no further than the budget says.

The arguments of a goal take what is counted for them beside their parts (`kidLoop_goal`), the parts
of a term in them take one cell each (`kidLoop_nested`), operands none (`kidLoop_met`).
-/

namespace Mlvm

namespace Cells

open Imagoc (DOTVAL COMMAVAL RULEIFVAL CUTVAL)
open Descent

variable {k : ClauseType} {n : ℕ → ℕ} {tok : Tok} {t first next : ImagoTerm} {level tlevel : ℤ}
  {s : Tally} {b shallow : Bool} {seen seen' : List ℕ} {fr fr' fr'' : Frame} {budget budget' : ℕ}
  {ty : MlvmType} {part : Option ℕ}

/-! ## Passes -/

/-- The cells that are given between two states. -/
structure Granted (fr fr' : Frame) (budget : ℕ) : Prop where
  given : ∃ new, fr'.given = fr.given ++ new ∧
    Descends Cell.number Cell.kept fr.size new fr'.size ∧ ∀ c ∈ new, c.kept = false → c.part = none
  within : fr.size ≤ fr'.size + budget

theorem Granted.still (hsize : fr'.size = fr.size) (hgiven : fr'.given = fr.given) :
    Granted fr fr' 0 where
  given := by
    refine ⟨[], ?_, hsize, fun c hc => absurd hc List.not_mem_nil⟩
    rw [List.append_nil, hgiven]
  within := by omega

theorem Granted.trans (h : Granted fr fr' budget) (h' : Granted fr' fr'' budget') :
    Granted fr fr'' (budget + budget') where
  given := by
    obtain ⟨new, hgiven, hdescends, hparts⟩ := h.given
    obtain ⟨new', hgiven', hdescends', hparts'⟩ := h'.given
    refine ⟨new ++ new', ?_, hdescends.append hdescends', ?_⟩
    · rw [hgiven', hgiven, List.append_assoc]
    · intro c hc
      rcases List.mem_append.1 hc with hc | hc
      · exact hparts c hc
      · exact hparts' c hc
  within := by
    have h₁ := h.within
    have h₂ := h'.within
    omega

theorem Granted.mono (h : Granted fr fr' budget) (hle : budget ≤ budget') :
    Granted fr fr' budget' where
  given := h.given
  within := by
    have := h.within
    omega

/-- The variables that have been met. -/
def Knows (fr : Frame) (seen : List ℕ) : Prop := ∀ v, fr.met v = none ↔ v ∉ seen

structure Pass (fr fr' : Frame) (budget : ℕ) (seen : List ℕ) : Prop
    extends Granted fr fr' budget where
  knows : Knows fr' seen
  enterbody : fr'.enterbody = fr.enterbody
  firsttime : fr'.firsttime = fr.firsttime

theorem Pass.refl (h : Knows fr seen) : Pass fr fr 0 seen where
  toGranted := .still rfl rfl
  knows := h
  enterbody := rfl
  firsttime := rfl

theorem Pass.trans (h : Pass fr fr' budget seen) (h' : Pass fr' fr'' budget' seen') :
    Pass fr fr'' (budget + budget') seen' where
  toGranted := h.toGranted.trans h'.toGranted
  knows := h'.knows
  enterbody := h'.enterbody.trans h.enterbody
  firsttime := h'.firsttime.trans h.firsttime

theorem Pass.mono (h : Pass fr fr' budget seen) (hle : budget ≤ budget') :
    Pass fr fr' budget' seen where
  toGranted := h.toGranted.mono hle
  knows := h.knows
  enterbody := h.enterbody
  firsttime := h.firsttime

theorem Pass.congr (h : Pass fr fr' budget seen) (hseen : ∀ v, v ∈ seen ↔ v ∈ seen') :
    Pass fr fr' budget seen' where
  toGranted := h.toGranted
  knows := fun v => (h.knows v).trans (not_congr (hseen v))
  enterbody := h.enterbody
  firsttime := h.firsttime

/-- The number of the term is counted, and nothing else happens. -/
theorem Pass.still (h : Knows fr seen) (hsize : fr'.size = fr.size) (hgiven : fr'.given = fr.given)
    (hmet : fr'.met = fr.met) (henter : fr'.enterbody = fr.enterbody)
    (htime : fr'.firsttime = fr.firsttime) : Pass fr fr' 0 seen where
  toGranted := .still hsize hgiven
  knows := by
    intro v
    rw [hmet]
    exact h v
  enterbody := henter
  firsttime := htime

/-- One number is given. -/
theorem Pass.give {kept : Bool} (h : Knows fr seen) (var : Option ℕ)
    (hpart : kept = false → part = none) :
    Pass fr (fr.give var part kept) (if kept then 1 else 0) seen where
  given := by
    refine ⟨[⟨fr.size, var, part, kept⟩], rfl, ⟨rfl, rfl⟩, ?_⟩
    intro c hc
    rw [List.mem_singleton.1 hc]
    exact hpart
  within := by
    cases kept
    · exact Int.le_of_eq (Int.add_zero _).symm
    · exact Int.le_of_eq (Int.sub_add_cancel _ _).symm
  knows := h
  enterbody := rfl
  firsttime := rfl

/-- A variable is met. -/
theorem Pass.meet (h : Knows fr seen) (v : ℕ) (part : Option ℕ) :
    Pass fr ((fr.meet v).give (some v) part true) 1 (v :: seen) where
  given := by
    refine ⟨[⟨fr.size, some v, part, true⟩], rfl, ⟨rfl, rfl⟩, ?_⟩
    intro c hc hkept
    rw [List.mem_singleton.1 hc] at hkept
    cases hkept
  within := Int.le_of_eq (Int.sub_add_cancel _ _).symm
  knows := by
    intro w
    by_cases hw : w = v
    · subst hw
      refine iff_of_false ?_ fun hmem => hmem (List.mem_cons_self ..)
      have hmet : ((fr.meet w).give (some w) part true).met w = some fr.size :=
        Function.update_self _ _ _
      rw [hmet]
      exact Option.some_ne_none _
    · have hmet : ((fr.meet v).give (some v) part true).met w = fr.met w :=
        Function.update_of_ne hw _ _
      rw [hmet, h w, List.mem_cons, not_or, and_iff_right hw]
  enterbody := rfl
  firsttime := rfl

/-! ## Types -/

/-- The variable a type tells. -/
def MlvmType.vars : MlvmType → List ℕ
  | .var v => [v]
  | _ => []

theorem compoundType_vars (v : ℕ) (first : ImagoTerm) : (compoundType v first).vars = [] := by
  unfold compoundType
  split_ifs <;> rfl

theorem classifyAtom_vars (v : ℕ) : (classifyAtom v s).1.vars = [] := by
  unfold classifyAtom
  split_ifs <;> rfl

theorem classify_vars : (classify k n tok first level tlevel s).1.vars = tok.vars := by
  cases tok with
  | var cv v => cases cv <;> rfl
  | real rval =>
    rw [classify, classifyReal]
    split_ifs <;> rfl
  | func v =>
    rw [classify]
    split_ifs
    · exact classifyAtom_vars v
    · exact compoundType_vars v first

/-! ## One argument -/

/-- A part of a structure keeps its place: before the body, inside an argument, or if it is met. -/
def KeepsPlace (k : ClauseType) (seen : List ℕ) (ty : MlvmType) (level : ℤ) (fr : Frame) : Prop :=
  fr.enterbody = false ∨ k ≠ .fact ∧
    (2 ≤ level ∨ k = .chain ∧ 1 ≤ level ∧ ∀ v ∈ ty.vars, v ∉ seen)

/-- A number that is not needed is given again. -/
theorem Pass.maybe (h : Knows fr seen) (kept : Bool) (hpart : kept = false → part = none) :
    Pass fr (fr.give none part kept) 1 seen := by
  refine (Pass.give h none hpart).mono ?_
  split_ifs
  · exact Nat.le_refl _
  · exact Nat.zero_le _

/-- A variable that is met again. -/
theorem Pass.known {v : ℕ} (h : Pass fr fr' budget seen) (hmem : v ∈ seen) :
    Pass fr fr' budget ((MlvmType.var v).vars ++ seen) := by
  refine h.congr fun w => ?_
  rw [MlvmType.vars, List.singleton_append, List.mem_cons]
  refine ⟨.inr, ?_⟩
  rintro (rfl | hw)
  · exact hmem
  · exact hw

theorem mem_of_met {v : ℕ} (h : Knows fr seen) (hmet : ¬ fr.met v = none) : v ∈ seen := by
  by_contra hmem
  exact hmet ((h v).2 hmem)

theorem strKid_pass (h : Knows fr seen) (hkept : part = none ∨ KeepsPlace k seen ty level fr) :
    Pass fr (strKid k part ty level fr) 1 (ty.vars ++ seen) := by
  have hplace : ∀ m : ℤ, (m = 2 ∧ (k = .chain → ∃ v ∈ ty.vars, v ∈ seen) ∨ m = 1 ∧ k = .chain) →
      (!(fr.enterbody && decide (level < m))) = false → part = none := by
    intro m hm hfalse
    rcases hkept with hpart | hbody | ⟨-, hlevel⟩
    · exact hpart
    · rw [hbody] at hfalse
      cases hfalse
    · have hlt : level < m := by
        simp only [Bool.not_eq_false', Bool.and_eq_true, decide_eq_true_eq] at hfalse
        exact hfalse.2
      rcases hm with ⟨rfl, hmet⟩ | ⟨rfl, -⟩
      · rcases hlevel with hlevel | ⟨hk, -, hfresh⟩
        · omega
        · obtain ⟨v, hv, hmem⟩ := hmet hk
          exact absurd hmem (hfresh v hv)
      · rcases hlevel with hlevel | ⟨-, hlevel, -⟩ <;> omega
  have hother : Pass fr (fr.give none part (constKept k level fr)) 1 seen := by
    apply Pass.maybe h
    cases k with
    | fact => exact fun hfalse => by cases hfalse
    | chain => exact hplace 1 (.inr ⟨rfl, rfl⟩)
    | userEnd => exact hplace 2 (.inl ⟨rfl, fun hk => by cases hk⟩)
  cases ty with
  | var v =>
    rw [strKid]
    split_ifs with hmet
    · exact Pass.meet h v part
    · have hmem := mem_of_met h hmet
      exact (Pass.maybe h _
        (hplace 2 (.inl ⟨rfl, fun _ => ⟨v, List.mem_singleton_self v, hmem⟩⟩))).known hmem
  | str | lis | lvs | atomComp => exact Pass.maybe h true fun hfalse => by cases hfalse
  | symComma | symRuleIf | operator | comparison | termComparison | ifThenElse | deepCut | neckCut
  | nil | atom | voidVar | real | int => exact hother

theorem lisKid_pass (h : Knows fr seen) : Pass fr (lisKid part ty fr) 1 (ty.vars ++ seen) := by
  have hkeep : Pass fr (fr.give none part true) 1 seen :=
    Pass.maybe h true fun hfalse => by cases hfalse
  cases ty with
  | var v =>
    rw [lisKid]
    split_ifs with hmet
    · exact Pass.meet h v part
    · exact hkeep.known (mem_of_met h hmet)
  | symComma | symRuleIf | lvs | lis | operator | comparison | termComparison | ifThenElse | str
  | deepCut | neckCut | nil | atom | atomComp | voidVar | real | int => exact hkeep

/-- What an operand in the body takes: a variable that has not been met. -/
def mathBudget (seen : List ℕ) : MlvmType → ℕ
  | .var v => if v ∈ seen then 0 else 1
  | _ => 0

theorem mathBudget_le (seen : List ℕ) (ty : MlvmType) : mathBudget seen ty ≤ 1 := by
  unfold mathBudget
  split
  · split_ifs <;> decide
  · decide

theorem mathKid_pass (ty : MlvmType) (h : Knows fr seen) :
    Pass fr (mathKid ty fr) (if fr.enterbody then mathBudget seen ty else 1) (ty.vars ++ seen) := by
  have hother : Pass fr fr (if fr.enterbody then 0 else 1) seen :=
    (Pass.refl h).mono (Nat.zero_le _)
  cases ty with
  | var v =>
    rw [mathKid]
    split_ifs with hmet hbody hbody
    · have hmem : v ∉ seen := (h v).1 hmet
      rw [mathBudget, if_neg hmem]
      exact Pass.meet h v none
    · exact Pass.meet h v none
    · have hmem := mem_of_met h hmet
      rw [mathBudget, if_pos hmem, hbody]
      exact (Pass.give h none fun _ => rfl).known hmem
    · exact (Pass.maybe h _ fun _ => rfl).known (mem_of_met h hmet)
  | symComma | symRuleIf | lvs | lis | operator | comparison | termComparison | ifThenElse | str
  | deepCut | neckCut | nil | atom | atomComp | voidVar | real | int => exact hother

/-! ## Rows of arguments -/

theorem kidLoop_node (f : MlvmType → ℤ → Frame → Frame) :
    kidLoop f (build k n (.node tok first next) level s).1 fr =
      kidLoop f (build k n next (enter tok level s).1
          (build k n first ((enter tok level s).1 + 1) (visit k n tok first next level s).2).2).1
        (f (visit k n tok first next level s).1 level fr) :=
  rfl

/-- The arguments of one term, if each takes `c` cells at most; `R` is what holds along the row. -/
theorem kidLoop_row {f : MlvmType → ℤ → Frame → Frame} {c : ℕ} {R : List ℕ → ImagoTerm → Prop}
    (hR : ∀ seen tok first next, R seen (.node tok first next) → R (tok.vars ++ seen) next)
    (hf : ∀ ty fr seen tok first next, R seen (.node tok first next) → ty.vars = tok.vars →
      Knows fr seen → fr.enterbody = b → Pass fr (f ty level fr) c (ty.vars ++ seen))
    (hlevel : 0 ≤ level) : ∀ {t : ImagoTerm} {s : Tally} {fr : Frame} {seen : List ℕ}, NoComma t →
      R seen t → Knows fr seen → fr.enterbody = b →
        Pass fr (kidLoop f (build k n t level s).1 fr) (c * t.siblings) (t.vars ++ seen)
  | .null, _, _, _, _, _, h, _ => Pass.refl h
  | .node tok first next, s, fr, seen, hcomma, hrow, h, hb => by
    obtain ⟨htok, -, hnext⟩ := hcomma
    have henter : enter tok level s = (level, s) := enter_of_ne htok (by omega) s
    have hvars : (visit k n tok first next level s).1.vars = tok.vars := classify_vars
    have hkid := hf _ fr seen tok first next hrow hvars h hb
    rw [hvars] at hkid
    have hrest := kidLoop_row hR hf hlevel
      (s := (build k n first (level + 1) (visit k n tok first next level s).2).2) hnext
      (hR _ _ _ _ hrow) hkid.knows (hkid.enterbody.trans hb)
    rw [kidLoop_node, henter]
    refine ((hkid.trans hrest).mono ?_).congr ?_
    · rw [ImagoTerm.siblings, Nat.mul_succ, Nat.add_comm]
    · intro v
      simp only [ImagoTerm.vars, List.mem_append]
      rw [or_assoc, or_left_comm]

/-- What an argument of a goal takes. -/
def goalBudget (seen : List ℕ) : MlvmType → ℕ
  | .var v => if v ∈ seen then 0 else 1
  | .str | .lis | .lvs | .atomComp => 1
  | _ => 0

theorem mathBudget_le_goalBudget (seen : List ℕ) (ty : MlvmType) :
    mathBudget seen ty ≤ goalBudget seen ty := by
  cases ty
  case var v => exact Nat.le_refl _
  all_goals exact Nat.zero_le _

/-- A constant among the arguments of a goal needs no cell. -/
theorem constKept_goal (hk : k ≠ .fact) (hbody : fr.enterbody = true)
    (hlevel : level ≤ argLevel k) : constKept k level fr = false := by
  cases k with
  | fact => exact absurd rfl hk
  | chain =>
    have hlt : level < 1 := Int.lt_of_le_of_lt hlevel (by decide)
    simp [constKept, hbody, hlt]
  | userEnd =>
    have hlt : level < 2 := Int.lt_of_le_of_lt hlevel (by decide)
    simp [constKept, hbody, hlt]

theorem strKid_goal (h : Knows fr seen) (hbody : fr.enterbody = true) (hk : k ≠ .fact)
    (hlevel : level ≤ argLevel k) :
    Pass fr (strKid k none ty level fr) (goalBudget seen ty) (ty.vars ++ seen) := by
  have hlt : level < 2 := by
    refine Int.lt_of_le_of_lt hlevel ?_
    cases k <;> decide
  have hother : Pass fr (fr.give none none (constKept k level fr)) 0 seen := by
    rw [constKept_goal hk hbody hlevel]
    exact Pass.give h none fun _ => rfl
  cases ty with
  | var v =>
    rw [strKid, goalBudget]
    split_ifs with hmet hmem hmem
    · exact absurd hmem ((h v).1 hmet)
    · exact Pass.meet h v none
    · have hpeek : (!(fr.enterbody && decide (level < 2))) = false := by simp [hbody, hlt]
      rw [hpeek]
      exact (Pass.give h none fun _ => rfl).known hmem
    · exact absurd (mem_of_met h hmet) hmem
  | str | lis | lvs | atomComp => exact Pass.give h none fun _ => rfl
  | symComma | symRuleIf | operator | comparison | termComparison | ifThenElse | deepCut | neckCut
  | nil | atom | voidVar | real | int => exact hother

theorem mathKid_goal (h : Knows fr seen) (hbody : fr.enterbody = true) :
    Pass fr (mathKid ty fr) (goalBudget seen ty) (ty.vars ++ seen) := by
  have hpass := mathKid_pass ty h
  rw [if_pos hbody] at hpass
  exact hpass.mono (mathBudget_le_goalBudget seen ty)

/-- A structure or a pair is counted with its own place. -/
theorem compound_counted {v : ℕ} (hty : compoundType v first = .str ∨ compoundType v first = .lis ∨
    compoundType v first = .lvs) : meets v = true ∧ isOperator v = false := by
  unfold compoundType at hty
  split_ifs at hty with hcomma hrule hdot hvars hop hcmp hterm hif
  all_goals try simp at hty
  · subst hdot
    exact ⟨rfl, rfl⟩
  · subst hdot
    exact ⟨rfl, rfl⟩
  · refine ⟨meets_iff.2 ⟨hcomma, hrule, hif⟩, ?_⟩
    exact Bool.not_eq_true _ ▸ hop

/-- What an argument of a goal takes is counted. -/
theorem goalBudget_counted (first : ImagoTerm) (hk : k ≠ .fact) (hbody : s.enterbody = true)
    (hdirect : ∀ v ∈ tok.vars, tok = .var .first v ∨ v ∈ seen) :
    s.mlvmallocn2 + ownCells true tok first +
        goalBudget seen (classify k n tok first (argLevel k) (argLevel k) s).1 ≤
      (classify k n tok first (argLevel k) (argLevel k) s).2.mlvmallocn2 := by
  have hplace : Place k true (argLevel k) := ⟨argLevel_nonneg k, fun _ => ⟨hk, Int.le_refl _⟩⟩
  cases tok with
  | var cv v =>
    cases cv with
    | first =>
      have hcells : varCells k s.enterbody (argLevel k) = 1 := by
        rw [hbody]
        cases k with
        | fact => exact absurd rfl hk
        | chain => rfl
        | userEnd => rfl
      have hle : goalBudget seen (.var v) ≤ 1 := by
        rw [goalBudget]
        split_ifs <;> decide
      exact Nat.add_le_add_left (hcells ▸ hle) _
    | seen =>
      have hmem : v ∈ seen := by
        rcases hdirect v (List.mem_singleton_self v) with heq | hmem
        · cases heq
        · exact hmem
      have hzero : goalBudget seen (.var v) = 0 := if_pos hmem
      exact Nat.le_of_eq (congrArg _ hzero)
    | anonymous => exact Nat.le_refl _
  | real rval =>
    have hzero : goalBudget seen (classifyReal k rval (argLevel k) s).1 = 0 := by
      unfold classifyReal
      split_ifs <;> rfl
    exact Nat.le_trans (Nat.le_of_eq (congrArg _ hzero)) (le_classifyReal rval)
  | func v =>
    rw [classify]
    by_cases hzero : first.siblings = 0
    · have hown : ownCells true (.func v) first = 0 := if_pos (.inl hzero)
      rw [if_pos hzero, hown]
      unfold classifyAtom
      split_ifs
      all_goals exact Nat.le_refl _
    · obtain ⟨hle, hgoal⟩ := ownCells_le_compound (v := v) hplace hzero
      rw [if_neg hzero, classifyCompound, hbody]
      by_cases hty : compoundType v first = .str ∨ compoundType v first = .lis ∨
          compoundType v first = .lvs
      · obtain ⟨hmeets, hop⟩ := compound_counted hty
        have hcells := hgoal rfl rfl hmeets hop
        have hbudget : goalBudget seen (compoundType v first) = 1 := by
          rcases hty with hty | hty | hty <;> rw [hty] <;> rfl
        rw [hbudget]
        dsimp only
        omega
      · have hbudget : goalBudget seen (compoundType v first) = 0 := by
          rw [not_or, not_or] at hty
          have hvars := compoundType_vars v first
          have hatom : compoundType v first ≠ .atomComp := by
            unfold compoundType
            split_ifs <;> decide
          revert hty hvars hatom
          generalize compoundType v first = ty
          intro hty hvars hatom
          cases ty
          case var w => cases hvars
          case str => exact absurd rfl hty.1
          case lis => exact absurd rfl hty.2.1
          case lvs => exact absurd rfl hty.2.2
          case atomComp => exact absurd rfl hatom
          all_goals rfl
        rw [hbudget]
        dsimp only
        omega

/-- **The arguments of a goal** take what is counted for them beside their parts. -/
theorem kidLoop_goal {f : MlvmType → ℤ → Frame → Frame} (hk : k ≠ .fact)
    (hf : ∀ ty fr seen, Knows fr seen → fr.enterbody = true →
      Pass fr (f ty (argLevel k) fr) (goalBudget seen ty) (ty.vars ++ seen)) :
    ∀ {t : ImagoTerm} {s : Tally} {fr : Frame} {seen : List ℕ}, NoComma t → Direct seen t →
      s.enterbody = true → Knows fr seen → fr.enterbody = true → ∃ c,
        Pass fr (kidLoop f (build k n t (argLevel k) s).1 fr) c (t.vars ++ seen) ∧
          s.mlvmallocn2 + c + need true t ≤ (build k n t (argLevel k) s).2.mlvmallocn2
  | .null, _, _, _, _, _, _, h, _ => ⟨0, Pass.refl h, Nat.le_refl _⟩
  | .node tok first next, s, fr, seen, hcomma, hdirect, hbody, h, hb => by
    obtain ⟨htok, hfirst, hnext⟩ := hcomma
    obtain ⟨hvar, hdirect⟩ := hdirect
    have hplace : Place k true (argLevel k) := ⟨argLevel_nonneg k, fun _ => ⟨hk, Int.le_refl _⟩⟩
    have henter := hplace.enter htok s
    have hvars : (visit k n tok first next (argLevel k) s).1.vars = tok.vars := classify_vars
    have hcounted := goalBudget_counted (n := n) first hk hbody hvar
    have hvisit : (visit k n tok first next (argLevel k) s).2.enterbody = true := by
      simp only [visit, henter, follow_enterbody, classify_enterbody, hbody]
    have hkids := build_inner (n := n) hfirst hplace.succ hvisit
    have hkid := hf (visit k n tok first next (argLevel k) s).1 fr seen h hb
    rw [hvars] at hkid
    obtain ⟨c, hrest, hcount⟩ := kidLoop_goal hk hf (s := (build k n first (argLevel k + 1)
      (visit k n tok first next (argLevel k) s).2).2) hnext hdirect hkids.1 hkid.knows
      (hkid.enterbody.trans hb)
    have hpass := hkid.trans hrest
    refine ⟨goalBudget seen (visit k n tok first next (argLevel k) s).1 + c, ?_, ?_⟩
    · rw [kidLoop_node, henter]
      refine hpass.congr fun v => ?_
      simp only [ImagoTerm.vars, List.mem_append]
      rw [or_assoc, or_left_comm]
    · have hmid := hkids.2
      have hfollow : (visit k n tok first next (argLevel k) s).2.mlvmallocn2 =
          (classify k n tok first (argLevel k) (argLevel k) s).2.mlvmallocn2 := by
        simp only [visit, henter, follow_mlvmallocn2]
      have hsame : (visit k n tok first next (argLevel k) s).1 =
          (classify k n tok first (argLevel k) (argLevel k) s).1 := by
        simp only [visit, henter]
      rw [build_node, henter, need, hsame]
      dsimp only
      omega

end Cells

end Mlvm
