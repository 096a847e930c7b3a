import Mlvm.Imagoc.Names
import Mathlib.Data.Rat.Floor
import Mathlib.Algebra.Ring.Int.Defs

/-!
# The tree of a clause

`clausetype` and `mlvmtermtree` of `lhlib.c`. The terms of a clause, which the parser has linked by
`first` and `next`, are gone through in preorder; each gets a type and a level, and the cells that
the clause needs are counted in `mlvmallocn2`.

**Levels.** The head has level -1 and its arguments level 0. A comma, wherever it stands, and the
body give their own arguments level 0 and what follows them level -1, which puts the goals of a body
at level 0; the one goal of a chain is the body itself, at level -1.

What is counted depends on the type of the clause, on the level, and on what has been seen so far:
whether the body has been entered, and whether the term stands in arithmetic or in a comparison of
terms. `MLVMSPENDCLAUSE` is never set.
-/

namespace Mlvm

namespace Cells

open Imagoc (DOTVAL COMMAVAL RULEIFVAL CUTVAL)

/-! ## Terms -/

/-- `FIRST_VAR`, `SEEN_VAR` and `ANONYMOUS_VAR`. -/
inductive CreateVar where
  | first
  | seen
  | anonymous
  deriving DecidableEq, Repr

/-- What `ty` says of a term, with the number of a variable or of a functor. -/
inductive Tok where
  | var (createVar : CreateVar) (val : ℕ)
  | real (rval : ℚ)
  | func (val : ℕ)
  deriving DecidableEq

/-- `IMAGOTERM`: a term with its first argument and the next term. -/
inductive ImagoTerm where
  | null
  | node (tok : Tok) (first next : ImagoTerm)
  deriving DecidableEq

def NILLISTVAL : ℕ := 5

def ISVAL : ℕ := 251

def IFTHENELSEVAL : ℕ := 253

/-- The operators of arithmetic, and `is`. -/
def isOperator (v : ℕ) : Bool := 20 ≤ v && v ≤ 25 || v == ISVAL

/-- The comparisons of numbers. -/
def isComparison (v : ℕ) : Bool := 40 ≤ v && v ≤ 45

/-- The comparisons of terms. -/
def isTermComparison (v : ℕ) : Bool := 66 ≤ v && v ≤ 73

namespace ImagoTerm

/-- The number of terms in a row, for the arguments of a term its `argunum`. -/
def siblings : ImagoTerm → ℕ
  | null => 0
  | node _ _ next => next.siblings + 1

def first : ImagoTerm → ImagoTerm
  | null => null
  | node _ first _ => first

def next : ImagoTerm → ImagoTerm
  | null => null
  | node _ _ next => next

/-- The number of a functor. -/
def functor : ImagoTerm → Option ℕ
  | node (.func v) _ _ => some v
  | _ => none

/-- `create_var == 1`. -/
def isFirstVar : ImagoTerm → Bool
  | node (.var .first _) _ _ => true
  | _ => false

end ImagoTerm

/-! ## Types -/

/-- `mlvmclausetype`. -/
inductive ClauseType where
  | fact
  | chain
  | userEnd
  deriving DecidableEq, Repr

/-- `clausetype`. -/
def clausetype (root : ImagoTerm) : ClauseType :=
  if root.functor = some RULEIFVAL then
    if root.first.next.functor = some COMMAVAL ∨ root.first.next.functor = some IFTHENELSEVAL then
      .userEnd
    else .chain
  else .fact

/-- The types of `MLVMTERM`; a variable has its number. -/
inductive MlvmType where
  | symComma
  | symRuleIf
  | lvs
  | lis
  | operator
  | comparison
  | termComparison
  | ifThenElse
  | str
  | deepCut
  | neckCut
  | nil
  | atom
  | atomComp
  | voidVar
  | real
  | int
  | var (v : ℕ)
  deriving DecidableEq, Repr

/-- `MLVMTERM`, as `mlvmtermtree` leaves it. -/
inductive MlvmTerm where
  | null
  | node (type : MlvmType) (level : ℤ) (kids next : MlvmTerm)

/-- The type of a term with arguments. -/
def compoundType (v : ℕ) (first : ImagoTerm) : MlvmType :=
  if v = COMMAVAL then .symComma
  else if v = RULEIFVAL then .symRuleIf
  else if v = DOTVAL then (if first.isFirstVar && first.next.isFirstVar then .lvs else .lis)
  else if isOperator v then .operator
  else if isComparison v then .comparison
  else if isTermComparison v then .termComparison
  else if v = IFTHENELSEVAL then .ifThenElse
  else .str

/-- `rval - (int) rval > 0`. -/
def isReal (rval : ℚ) : Bool := 0 < rval - (rval.num.tdiv rval.den : ℤ)

/-! ## Counting -/

/-- The variables of the traversal. -/
structure Tally where
  mlvmallocn2 : ℕ
  enterbody : Bool
  firsttime : ℕ
  entermathexp : Bool
  owntermcomp : ℕ
  ownmathexp : Bool
  owndeepcut : Bool
  nondetermgoal : Bool
  deriving DecidableEq

def Tally.start : Tally := ⟨0, false, 0, false, 0, false, false, false⟩

/-- The cell of the functor, which a pair does not have. -/
def selfCells (v : ℕ) : ℕ := if v = DOTVAL then 0 else 1

/-- The cells that are counted for a term with arguments, once the body has been entered or before.
-/
def compoundCells : ClauseType → Bool → ℤ → ℕ → ℕ → ℕ
  | _, false, level, v, argunum =>
      if 0 ≤ level ∧ v ≠ COMMAVAL ∧ v ≠ RULEIFVAL then selfCells v + argunum else 0
  | .userEnd, true, level, v, argunum =>
      if 1 ≤ level ∧ v ≠ COMMAVAL ∧ v ≠ RULEIFVAL ∧ v ≠ IFTHENELSEVAL ∧ isOperator v = false then
        (if level = 1 then 1 else 0) + (selfCells v + argunum)
      else 0
  | .chain, true, level, v, argunum =>
      if 0 ≤ level ∧ v ≠ COMMAVAL ∧ v ≠ RULEIFVAL ∧ isOperator v = false then
        (if level = 0 then 1 else 0) + (selfCells v + argunum)
      else 0
  | .fact, true, _, _, _ => 0

/-- The cells that are counted for a number with a fraction. -/
def realCells (k : ClauseType) (s : Tally) (level : ℤ) : ℕ :=
  if s.enterbody then
    match k with
    | .userEnd => if level = 1 ∧ s.entermathexp = false then 1 else 0
    | .chain => if level = 0 ∧ s.entermathexp = false then 1 else 0
    | .fact => 0
  else if 1 < level then 1
  else 0

/-- The cells that are counted for the first occurrence of a variable. -/
def varCells (k : ClauseType) (enterbody : Bool) (tlevel : ℤ) : ℕ :=
  match k with
  | .userEnd => if tlevel = 1 ∧ enterbody = true then 1 else 0
  | .chain => if tlevel = 0 ∧ enterbody = true then 1 else 0
  | .fact => 0

/-- What a comma and the second term at level -1 do, and the level of the next term. -/
def enter (tok : Tok) (level : ℤ) (s : Tally) : ℤ × Tally :=
  let inBody := tok = .func COMMAVAL ∨ level = -1 ∧ s.firsttime = 1
  (if inBody then -1 else level,
    { s with
      enterbody := s.enterbody || decide inBody
      firsttime := if level = -1 then s.firsttime + 1 else s.firsttime })

/-- A term with arguments. -/
def classifyCompound (k : ClauseType) (nClauses : ℕ → ℕ) (v : ℕ) (first : ImagoTerm) (level : ℤ)
    (s : Tally) : MlvmType × Tally :=
  let math := isOperator v || isComparison v
  let ty := compoundType v first
  (ty,
    { s with
      mlvmallocn2 := s.mlvmallocn2 + compoundCells k s.enterbody level v first.siblings
      entermathexp := math || s.entermathexp && (ty = .termComparison || ty = .ifThenElse)
      ownmathexp := s.ownmathexp || math
      nondetermgoal := s.nondetermgoal || ty = .str && s.enterbody && 1 < nClauses v })

/-- A cut, the empty list or an atom. -/
def classifyAtom (v : ℕ) (s : Tally) : MlvmType × Tally :=
  if v = CUTVAL then
    if s.nondetermgoal then (.deepCut, { s with owndeepcut := true }) else (.neckCut, s)
  else if v = NILLISTVAL then (.nil, s)
  else if 0 < s.owntermcomp then (.atomComp, { s with mlvmallocn2 := s.mlvmallocn2 + 1 })
  else (.atom, s)

/-- A number. -/
def classifyReal (k : ClauseType) (rval : ℚ) (level : ℤ) (s : Tally) : MlvmType × Tally :=
  if isReal rval then (.real, { s with mlvmallocn2 := s.mlvmallocn2 + realCells k s level })
  else (.int, s)

/-- The type of a term, and what is counted for it. -/
def classify (k : ClauseType) (nClauses : ℕ → ℕ) (tok : Tok) (first : ImagoTerm) (level tlevel : ℤ)
    (s : Tally) : MlvmType × Tally :=
  match tok with
  | .func v =>
      if first.siblings = 0 then classifyAtom v s else classifyCompound k nClauses v first level s
  | .var .anonymous _ => (.voidVar, s)
  | .var .seen v => (.var v, s)
  | .var .first v =>
      (.var v, { s with mlvmallocn2 := s.mlvmallocn2 + varCells k s.enterbody tlevel })
  | .real rval => classifyReal k rval level s

/-- `owntermcomp` at a next term. -/
def compNext (n : ℕ) : ℕ := if n = 2 then 0 else if n = 1 then 2 else n

/-- `owntermcomp` at a first argument. -/
def compFirst (ty : MlvmType) (n : ℕ) : ℕ :=
  if ty = .termComparison then 1 else if n = 2 then 0 else n

/-- `owntermcomp`, for the terms that follow. -/
def follow (ty : MlvmType) (first next : ImagoTerm) (s : Tally) : Tally :=
  let n := if next = .null then s.owntermcomp else compNext s.owntermcomp
  { s with owntermcomp := if first = .null then n else compFirst ty n }

/-- The type of a term, and the state for the terms that follow. -/
def visit (k : ClauseType) (nClauses : ℕ → ℕ) (tok : Tok) (first next : ImagoTerm) (level : ℤ)
    (s : Tally) : MlvmType × Tally :=
  let e := enter tok level s
  let c := classify k nClauses tok first level e.1 e.2
  (c.1, follow c.1 first next c.2)

/-- The loop of `mlvmtermtree`, over a row of terms. -/
def build (k : ClauseType) (nClauses : ℕ → ℕ) : ImagoTerm → ℤ → Tally → MlvmTerm × Tally
  | .null, _, s => (.null, s)
  | .node tok first next, level, s =>
      let v := visit k nClauses tok first next level s
      let tlevel := (enter tok level s).1
      let kids := build k nClauses first (tlevel + 1) v.2
      let rest := build k nClauses next tlevel kids.2
      (.node v.1 level kids.1 rest.1, rest.2)

/-- `ACTIVATIONFRAME`. -/
def ACTIVATIONFRAME : ℕ := 3

/-- The cells at the bottom of the frame: those of the activation frame, the four temporary cells
and the one of `deeplabel`. -/
def reserved (k : ClauseType) (s : Tally) : ℕ :=
  (if s.ownmathexp then 4 else 0) +
    if k = .userEnd then ACTIVATIONFRAME + (if s.owndeepcut then 1 else 0) else 0

/-- The term at which `mlvmtermtree` begins. -/
def headOf (root : ImagoTerm) : ImagoTerm := if clausetype root = .fact then root else root.first

/-- `mlvmtermtree`, before the reserved cells are added. -/
def mlvmtermtree (nClauses : ℕ → ℕ) (root : ImagoTerm) : MlvmTerm × Tally :=
  build (clausetype root) nClauses (headOf root) (-1) .start

/-- The final `mlvmallocn2`. -/
def allocated (nClauses : ℕ → ℕ) (root : ImagoTerm) : ℕ :=
  (mlvmtermtree nClauses root).2.mlvmallocn2 +
    reserved (clausetype root) (mlvmtermtree nClauses root).2

end Cells

end Mlvm
