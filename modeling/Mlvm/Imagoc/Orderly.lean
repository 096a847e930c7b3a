import Mlvm.Imagoc.AssignCell

/-!
# Orderly clauses

What a clause must be like for its cells to fit, read off its terms alone. The two passes do not
agree about

- a comma among arguments, or to the left of another one, which changes the levels,
- a variable that stands in a goal but was marked as first inside an earlier argument of that goal,
  and one that is first in arithmetic (`Direct`, `Inner`),
- a variable that is not first in a structure of a chain, whose place is given twice (`Inner`),
- a head without arguments: the numbers begin where the functor of the head would be (`Bare`).
-/

namespace Mlvm

namespace Cells

open Imagoc (DOTVAL COMMAVAL RULEIFVAL CUTVAL)

/-- A variable that is not anonymous. -/
def Tok.vars : Tok → List ℕ
  | .var .anonymous _ => []
  | .var _ v => [v]
  | _ => []

/-- The variables of a row. -/
def ImagoTerm.vars : ImagoTerm → List ℕ
  | null => []
  | node tok _ next => tok.vars ++ next.vars

/-- Whether the variables among the arguments are met. -/
def meets (v : ℕ) : Bool := v != COMMAVAL && v != RULEIFVAL && v != IFTHENELSEVAL

/-- The variables that are met at a term. -/
def metBy (tok : Tok) (first : ImagoTerm) : List ℕ :=
  match tok with
  | .func v => if meets v then first.vars else []
  | _ => []

/-- The variables that are met in a row of terms. -/
def metIn : ImagoTerm → List ℕ
  | .null => []
  | .node tok first next => metIn next ++ (metIn first ++ metBy tok first)

/-- A variable among the arguments of a goal is first, or has been met. -/
def Direct (seen : List ℕ) : ImagoTerm → Prop
  | .null => True
  | .node tok _ next =>
      (∀ v ∈ tok.vars, tok = .var .first v ∨ v ∈ seen) ∧ Direct (tok.vars ++ seen) next

/-- The operands in the body have been met. -/
def Computes (body : Bool) (seen : List ℕ) (tok : Tok) (first : ImagoTerm) : Prop :=
  ∀ v, tok = .func v → body = true → isOperator v = true → ∀ x ∈ first.vars, x ∈ seen

/-- The variables in the structures of a chain are met there. -/
def Fresh (k : ClauseType) (body : Bool) (seen : List ℕ) (tok : Tok) (first : ImagoTerm) : Prop :=
  ∀ v, tok = .func v → body = true → k = .chain →
    compoundType v first = .str ∨ compoundType v first = .termComparison →
      first.vars.Nodup ∧ ∀ x ∈ first.vars, x ∉ seen

/-- No term in a row is a comma. -/
def NoComma : ImagoTerm → Prop
  | .null => True
  | .node tok first next => tok ≠ .func COMMAVAL ∧ NoComma first ∧ NoComma next

/-- The arguments of a goal, and the terms in them; `shallow` says that the row is the one of the
arguments themselves. Before the body (`body` is false) nothing but commas matters. -/
def Inner (k : ClauseType) (body : Bool) : Bool → List ℕ → ImagoTerm → Prop
  | _, _, .null => True
  | shallow, seen, .node tok first next =>
      tok ≠ .func COMMAVAL ∧ Computes body seen tok first ∧
        (shallow = true → Fresh k body seen tok first) ∧
          Inner k body false (metBy tok first ++ seen) first ∧
            Inner k body shallow (metIn first ++ (metBy tok first ++ seen)) next

/-- The goals of a body. -/
def Goals (k : ClauseType) : List ℕ → ImagoTerm → Prop
  | _, .null => True
  | seen, .node tok first next =>
      if tok = .func COMMAVAL then next = .null ∧ Goals k seen first
      else
        tok ≠ .func DOTVAL ∧ (metBy tok first ≠ [] → Direct seen first) ∧
          Inner k true true (metBy tok first ++ seen) first ∧
            Goals k (metIn first ++ (metBy tok first ++ seen)) next

/-- A constant, an anonymous variable, or a term for whose arguments no cells are needed. -/
def BareTerm (tok : Tok) (first : ImagoTerm) : Prop :=
  (∀ cv v, tok = .var cv v → cv = .anonymous) ∧
  (∀ v, tok = .func v → first ≠ .null →
    isOperator v = true ∨ isComparison v = true ∨ meets v = false)

/-- Arguments that need no cells. -/
def BareArgs : ImagoTerm → Prop
  | .null => True
  | .node tok first next => BareTerm tok first ∧ BareArgs first ∧ BareArgs next

/-- Goals that need no cells. -/
def Bare : ImagoTerm → Prop
  | .null => True
  | .node tok first next =>
      if tok = .func COMMAVAL then Bare first ∧ Bare next
      else
        (∀ v, tok = .func v → v ≠ DOTVAL ∧ isTermComparison v = false) ∧ BareArgs first ∧ Bare next

/-- The body of a rule with the given head. -/
def bodyOf (k : ClauseType) (body : ImagoTerm) : ImagoTerm :=
  if k = .userEnd then body.first else body

/-- **Orderly clauses.** The head is a structure; what it has met is known in the body. -/
inductive Orderly : ImagoTerm → Prop
  | fact (v : ℕ) (args : ImagoTerm) (head : meets v = true ∧ v ≠ DOTVAL) (inner : NoComma args) :
      Orderly (.node (.func v) args .null)
  | rule (v : ℕ) (args body : ImagoTerm) (head : meets v = true ∧ v ≠ DOTVAL) (ne : args ≠ .null)
      (inner : NoComma args) (last : body.next = .null)
      (goals : Goals (clausetype (.node (.func RULEIFVAL) (.node (.func v) args body) .null))
        (metIn args ++ args.vars)
        (bodyOf (clausetype (.node (.func RULEIFVAL) (.node (.func v) args body) .null)) body)) :
      Orderly (.node (.func RULEIFVAL) (.node (.func v) args body) .null)
  | bare (v : ℕ) (body : ImagoTerm) (last : body.next = .null)
      (bare : Bare (bodyOf (clausetype (.node (.func RULEIFVAL) (.node (.func v) .null body) .null))
        body)) :
      Orderly (.node (.func RULEIFVAL) (.node (.func v) .null body) .null)

end Cells

end Mlvm
