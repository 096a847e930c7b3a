import Mathlib

/-!
# Code for arithmetic

`intostack1`, `math_set`, `math_op`, `math_code`, `goal_math_clause` and `goal_math_chaincall` of
`lhlib.c`, with what `mlvmtermtree` decides about operators and numbers.

**Two stacks.** The nodes of a goal are pushed in preorder on `mlvmmathstack1` and popped, so that
the right operand of an operator comes before the left one. `mlvmmathstack2` holds the operands. A
push on a full stack ends the compiler, and so does an operator without its operands, which are
`NULL`.

**Cells.** Four cells of the frame are reserved: two alternate for intermediate values, and two hold
the literals of an instruction.

A literal is an exact rational number. A number that is no `int` cannot be converted to one.
-/

namespace Mlvm.MathCode

/-! ## Expressions -/

/-- `mlvmclausetype`, of a clause with goals. -/
inductive ClauseType where
  | chain
  | userEnd
  deriving DecidableEq

namespace ClauseType

/-- The first cell for intermediate values. -/
def first : ClauseType → Int
  | chain => 0
  | userEnd => 3

/-- The second cell for intermediate values. -/
def second : ClauseType → Int
  | chain => 1
  | userEnd => 4

/-- The cell for a literal on the left. -/
def leftCell : ClauseType → Int
  | chain => 2
  | userEnd => 5

/-- The cell for a literal on the right. -/
def rightCell : ClauseType → Int
  | chain => 3
  | userEnd => 6

/-- The four temporary cells for math calculation. -/
def reserved (k : ClauseType) : List Int := [k.first, k.second, k.leftCell, k.rightCell]

end ClauseType

/-- An occurrence of a variable. It is the first of the clause if `index` and `annot` agree;
`annot` is the cell of the variable. -/
structure Variable (k : ClauseType) where
  index : Int
  annot : Int
  apart : annot ∉ k.reserved

inductive BinOp where
  | plus
  | minus
  | mult
  | div
  | mod
  deriving DecidableEq

/-- `PLUSVAL`, `MINUSVAL`, `MULTVAL`, `DIVVAL`, `MODVAL`. -/
def BinOp.val : BinOp → ℕ
  | plus => 20
  | minus => 22
  | mult => 23
  | div => 24
  | mod => 25

def U_MINUSVAL : ℕ := 21

def ISVAL : ℕ := 251

inductive Comparison where
  | eq
  | lt
  | gt
  | le
  | ge
  | ne
  deriving DecidableEq

/-- `EQVAL`, `LTVAL`, `GTVAL`, `LEVAL`, `GEVAL`, `NEVAL`. -/
def Comparison.val : Comparison → ℕ
  | eq => 40
  | lt => 41
  | gt => 42
  | le => 43
  | ge => 44
  | ne => 45

/-- An expression over variables that have a value, so that it is not their first occurrence. -/
inductive Expr (k : ClauseType) where
  | var (x : Variable k) (bound : x.index ≠ x.annot)
  | number (rval : ℚ)
  | neg (e : Expr k)
  | binary (o : BinOp) (left right : Expr k)

/-- The cells of the variables. -/
def Expr.cells {k : ClauseType} : Expr k → List Int
  | var x _ => [x.annot]
  | number _ => []
  | neg e => e.cells
  | binary _ left right => left.cells ++ right.cells

/-- A goal. Before `->` a comparison becomes an `MLVMIFCOMPARISON`, which is in no chain. -/
inductive Goal : ClauseType → Type where
  | is {k : ClauseType} (x : Variable k) (e : Expr k)
      (fresh : x.index = x.annot → x.annot ∉ e.cells) : Goal k
  | compare {k : ClauseType} (c : Comparison) (left right : Expr k) : Goal k
  | ifCompare (c : Comparison) (left right : Expr .userEnd) : Goal .userEnd

/-- The terms of `mlvmmathstack1`: variables, numbers, `MLVMOPERATOR` and `MLVMCOMPARISON`. -/
inductive MathTerm where
  | var (index annot : Int)
  | number (rval : ℚ)
  | operator (rval : ℕ)
  | comparison (rval : ℕ)
  | ifComparison (rval : ℕ)

/-! ## Numbers -/

/-- `(int) rval`. -/
def toInt (rval : ℚ) : Option Int :=
  let i := rval.num.tdiv rval.den
  if -2 ^ 31 ≤ i ∧ i < 2 ^ 31 then some i else none

/-- The number that `%f` prints. -/
def printed (rval : ℚ) : ℚ := round (rval * 10 ^ 6) / 10 ^ 6

/-! ## Instructions -/

inductive Target where
  | fail
  | ifLabel
  deriving DecidableEq

inductive Instr where
  | setvar (cell : Int)
  | setint (cell : Int) (n : Int)
  | setfloat (cell : Int) (v : ℚ)
  | add (left right dest : Int)
  | sub (left right dest : Int)
  | mul (left right dest : Int)
  | div (left right dest : Int)
  | mod (left right dest : Int)
  | is (right left : Int)
  | ifeq (left right : Int) (target : Target)
  | ifne (left right : Int) (target : Target)
  | iflt (left right : Int) (target : Target)
  | ifgt (left right : Int) (target : Target)
  | ifle (left right : Int) (target : Target)
  | ifge (left right : Int) (target : Target)
  deriving DecidableEq

/-- `MLVMMATHSTACKTERM`. -/
inductive Operand where
  | var (address : Int)
  | int (intval : Int)
  | real (floatval : ℚ)
  | intermed (address : Int)
  deriving DecidableEq

structure MathState where
  stack1 : List MathTerm
  stack2 : List Operand
  intermediatevalue : Int
  output : List Instr

def MLVMSTACKTREESIZE : ℕ := 1000

def MLVMMATHARGUSIZE : ℕ := 50

/-- `pushmlvmmath1`. -/
def pushMath1 (t : MathTerm) (st : List MathTerm) : Option (List MathTerm) :=
  if st.length = MLVMSTACKTREESIZE then none else some (t :: st)

/-- `pushmlvmmath2`. -/
def pushMath2 (o : Operand) (s : MathState) : Option MathState :=
  if s.stack2.length = MLVMMATHARGUSIZE then none else some { s with stack2 := o :: s.stack2 }

def emit (is : List Instr) (s : MathState) : MathState := { s with output := s.output ++ is }

variable {k : ClauseType}

/-- `intostack1`, for an operand. -/
def intostack1 : Expr k → List MathTerm → Option (List MathTerm)
  | .var x _, st => pushMath1 (.var x.index x.annot) st
  | .number v, st => pushMath1 (.number v) st
  | .neg e, st => (pushMath1 (.operator U_MINUSVAL) st).bind (intostack1 e)
  | .binary o left right, st =>
      (pushMath1 (.operator o.val) st).bind fun st => (intostack1 left st).bind (intostack1 right)

/-- `intostack1`, for a goal. -/
def goalIntostack1 : Goal k → List MathTerm → Option (List MathTerm)
  | .is x e _, st =>
      (pushMath1 (.operator ISVAL) st).bind fun st =>
        (pushMath1 (.var x.index x.annot) st).bind (intostack1 e)
  | .compare c left right, st =>
      (pushMath1 (.comparison c.val) st).bind fun st => (intostack1 left st).bind (intostack1 right)
  | .ifCompare c left right, st =>
      (pushMath1 (.ifComparison c.val) st).bind fun st =>
        (intostack1 left st).bind (intostack1 right)

/-- `math_set`: the cell of an operand, and the instruction that loads a literal into `cellnum`. -/
def mathSet (cellnum : Int) : Operand → Int × List Instr
  | .var address => (address, [])
  | .real floatval => (cellnum, [.setfloat cellnum (printed floatval)])
  | .int intval => (cellnum, [.setint cellnum intval])
  | .intermed address => (address, [])

/-- `math_op`, for an operator. There is no case for the unary minus. -/
def mathOp (rval : ℕ) (left right dest : Int) (s : MathState) : Option MathState :=
  match rval with
  | 20 => pushMath2 (.intermed dest) (emit [.add left right dest] s)
  | 22 => pushMath2 (.intermed dest) (emit [.sub left right dest] s)
  | 23 => pushMath2 (.intermed dest) (emit [.mul left right dest] s)
  | 24 => pushMath2 (.intermed dest) (emit [.div left right dest] s)
  | 25 => pushMath2 (.intermed dest) (emit [.mod left right dest] s)
  | 251 => some (emit [.is right left] s)
  | _ => some s

/-- `math_op`, for a comparison. -/
def mathCompare (rval : ℕ) (target : Target) (left right : Int) (s : MathState) : MathState :=
  match rval with
  | 40 => emit [.ifeq left right target] s
  | 45 => emit [.ifne left right target] s
  | 41 => emit [.iflt left right target] s
  | 42 => emit [.ifgt left right target] s
  | 43 => emit [.ifle left right target] s
  | 44 => emit [.ifge left right target] s
  | _ => s

/-- The other cell for intermediate values. -/
def toggle (k : ClauseType) (iv : Int) : Int :=
  if iv = k.first then k.second else if iv = k.second then k.first else iv

/-- `destcell`, and `intermediatevalue` afterwards. -/
def destination (k : ClauseType) (left right : Operand) (iv : Int) : Int × Int :=
  match left, right with
  | .intermed address, _ => (address, iv)
  | _, .intermed address => (address, iv)
  | _, _ => (toggle k iv, toggle k iv)

/-- `math_code`: `op` gets the cells of the operands and `destcell`. -/
def mathCode (k : ClauseType) (op : Int → Int → Int → MathState → Option MathState)
    (left right : Operand) (s : MathState) : Option MathState :=
  let (arg1, set1) := mathSet k.leftCell left
  let (arg2, set2) := mathSet k.rightCell right
  let (dest, iv) := destination k left right s.intermediatevalue
  op arg1 arg2 dest { emit (set1 ++ set2) s with intermediatevalue := iv }

/-- Two `popmlvmmath2` and `math_code`. -/
def operate (k : ClauseType) (op : Int → Int → Int → MathState → Option MathState)
    (s : MathState) : Option MathState :=
  match s.stack2 with
  | left :: right :: st => mathCode k op left right { s with stack2 := st }
  | _ => none

/-- A number is an `MLVMINT` or a `REAL`, as `mlvmtermtree` finds out. -/
def numberOperand (rval : ℚ) : Option Operand :=
  (toInt rval).map fun i : Int => if rval - (i : ℚ) > 0 then .real rval else .int i

/-- One term in `goal_math_clause` and `goal_math_chaincall`. Only the former sets a variable. -/
def mathStep (k : ClauseType) (t : MathTerm) (s : MathState) : Option MathState :=
  match t with
  | .var index annot =>
      pushMath2 (.var annot)
        (if k = .userEnd ∧ index = annot then emit [.setvar index] s else s)
  | .number rval => (numberOperand rval).bind (pushMath2 · s)
  | .operator rval => operate k (mathOp rval) s
  | .comparison rval => operate k (fun l r _ s => some (mathCompare rval .fail l r s)) s
  | .ifComparison rval =>
      match k with
      | .userEnd => operate k (fun l r _ s => some (mathCompare rval .ifLabel l r s)) s
      | .chain => some s

/-- The loop over `mlvmmathstack1`. -/
def mathLoop (k : ClauseType) : List MathTerm → MathState → Option MathState
  | [], s => some { s with stack1 := [] }
  | t :: st, s => (mathStep k t s).bind (mathLoop k st)

/-- `goal_math_clause` or `goal_math_chaincall`. -/
def goalMath (g : Goal k) (s : MathState) : Option MathState :=
  (goalIntostack1 g s.stack1).bind fun st => mathLoop k st s

/-- The state at the first goal of a clause, as `mlvmtermtree` leaves it. -/
def MathState.start (k : ClauseType) : MathState where
  stack1 := []
  stack2 := []
  intermediatevalue := k.first
  output := []

end Mlvm.MathCode
