import Mlvm.Imagoc.MathCode

/-!
# Two cells for intermediate values

**What the code does** is stated for every machine that has the operations, and for all contents of
the cells. The instruction at the end of the goal reads the values of its expressions, both stacks
are empty again, and no intermediate value that is still on the stack is overwritten.

**Allocations.** An operator with two leaves for operands takes the other cell; every other operator
reuses the cell of an operand. So an expression with one such operator leaves the current cell
alone, and one with two of them does not.

**`math_right_iff`.** The goals of a clause are right exactly when there is no unary minus, every
literal is loaded exactly, the stacks are large enough, and of two operands that are compound the
left one allocates once.
-/

namespace Mlvm.MathCode

variable {k : ClauseType} {V : Type}

/-! ## Machines -/

/-- The operations of a machine. -/
structure Machine (V : Type) where
  int : Int → V
  float : ℚ → V
  unbound : V
  neg : V → V
  op : BinOp → V → V → V

/-- The value of an expression. A literal is an `int` if it is integral. -/
def Expr.value (M : Machine V) (cells : Int → V) : Expr k → V
  | var x _ => cells x.annot
  | number v => if v.den = 1 then M.int v.num else M.float v
  | neg e => M.neg (e.value M cells)
  | binary o left right => M.op o (left.value M cells) (right.value M cells)

/-- The cells that an instruction writes. -/
def Instr.writes : Instr → List Int
  | setvar cell | setint cell _ | setfloat cell _ => [cell]
  | add _ _ d | sub _ _ d | mul _ _ d | div _ _ d | mod _ _ d => [d]
  | _ => []

def Instr.exec (M : Machine V) (cells : Int → V) : Instr → Int → V
  | setvar cell => Function.update cells cell M.unbound
  | setint cell n => Function.update cells cell (M.int n)
  | setfloat cell v => Function.update cells cell (M.float v)
  | add l r d => Function.update cells d (M.op .plus (cells l) (cells r))
  | sub l r d => Function.update cells d (M.op .minus (cells l) (cells r))
  | mul l r d => Function.update cells d (M.op .mult (cells l) (cells r))
  | div l r d => Function.update cells d (M.op .div (cells l) (cells r))
  | mod l r d => Function.update cells d (M.op .mod (cells l) (cells r))
  | _ => cells

def run (M : Machine V) (is : List Instr) (cells : Int → V) : Int → V :=
    is.foldl (Instr.exec M) cells

/-- The instruction of a comparison. -/
def Comparison.instr (c : Comparison) (left right : Int) (target : Target) : Instr :=
  match c with
  | eq => .ifeq left right target
  | ne => .ifne left right target
  | lt => .iflt left right target
  | gt => .ifgt left right target
  | le => .ifle left right target
  | ge => .ifge left right target

/-! ## Properties -/

/-- After the instructions the cell has the value of the expression. -/
def Holds (is : List Instr) (c : Int) (e : Expr k) : Prop :=
  ∀ (V : Type) (M : Machine V) (cells : Int → V), run M is cells c = e.value M cells

/-- What the last instruction of a goal reads. -/
def Reads (is : List Instr) (last : Instr) : Goal k → Prop
  | .is x e _ => ∃ c, last = .is c x.annot ∧ Holds is c e
  | .compare c left right => ∃ a b, last = c.instr a b .fail ∧ Holds is a left ∧ Holds is b right
  | .ifCompare c left right =>
      ∃ a b, last = c.instr a b .ifLabel ∧ Holds is a left ∧ Holds is b right

/-- The operands that stay on the stack while a term is dealt with. -/
def needed (s : MathState) : MathTerm → List Operand
  | .var .. | .number _ => s.stack2
  | _ => s.stack2.drop 2

/-- Nothing that is added to the code overwrites an intermediate value that is needed. -/
def Keeps (t : MathTerm) (s s' : MathState) : Prop :=
  ∀ i ∈ s'.output.drop s.output.length, ∀ c ∈ i.writes, .intermed c ∉ needed s t

/-- Every term of the loop keeps what is needed. -/
def KeepsNeeded (k : ClauseType) : List MathTerm → MathState → Prop
  | [], _ => True
  | t :: st, s => ∀ s', mathStep k t s = some s' → Keeps t s s' ∧ KeepsNeeded k st s'

/-- The code for a goal computes what is written. -/
structure GoalRight (g : Goal k) (s s' : MathState) : Prop where
  empty : s'.stack1 = [] ∧ s'.stack2 = []
  kept : ∀ st, goalIntostack1 g s.stack1 = some st → KeepsNeeded k st s
  reads : ∃ is last, s'.output = s.output ++ is ++ [last] ∧ Reads is last g

/-- The goals of a clause are right, one after the other. -/
def MathRight : List (Goal k) → MathState → Prop
  | [], _ => True
  | g :: gs, s => ∃ s', goalMath g s = some s' ∧ GoalRight g s s' ∧ MathRight gs s'

/-! ## The condition -/

namespace Expr

def isLeaf : Expr k → Bool
  | var .. | number _ => true
  | _ => false

/-- How often a cell for an intermediate value is taken: at every operator with two leaves. -/
def allocs : Expr k → ℕ
  | binary _ left right => if left.isLeaf && right.isLeaf then 1 else left.allocs + right.allocs
  | _ => 0

/-- The number of nodes. -/
def size : Expr k → ℕ
  | var .. | number _ => 1
  | neg e => e.size + 1
  | binary _ left right => left.size + right.size + 1

/-- How many operands are on the stack at once. -/
def need : Expr k → ℕ
  | var .. | number _ => 1
  | neg e => e.need
  | binary _ left right => max right.need (left.need + 1)

def NegFree : Expr k → Prop
  | var .. | number _ => True
  | neg _ => False
  | binary _ left right => left.NegFree ∧ right.NegFree

/-- Every number is in the range of an `int`. -/
def InRange : Expr k → Prop
  | var .. => True
  | number v => (toInt v).isSome
  | neg e => e.InRange
  | binary _ left right => left.InRange ∧ right.InRange

/-- A number that is integral, or positive with six decimals at most. -/
def Exact : Expr k → Prop
  | var .. => True
  | number v => v.den = 1 ∨ 0 < v ∧ (v * 10 ^ 6).den = 1
  | neg e => e.Exact
  | binary _ left right => left.Exact ∧ right.Exact

/-- Of two compound operands, the left one allocates once. -/
def Shape : Expr k → Prop
  | var .. | number _ => True
  | neg e => e.Shape
  | binary _ left right => left.Shape ∧ right.Shape ∧ (right.isLeaf = false → left.allocs ≤ 1)

/-- An expression that is compiled right. -/
structure Fits (e : Expr k) : Prop where
  negFree : e.NegFree
  range : e.InRange
  exact : e.Exact
  shape : e.Shape

end Expr

/-- The condition for two operands of a comparison. -/
structure PairFits (left right : Expr k) : Prop where
  fitsLeft : left.Fits
  fitsRight : right.Fits
  shape : right.isLeaf = false → left.allocs ≤ 1
  size : left.size + right.size + 1 ≤ MLVMSTACKTREESIZE
  need : max right.need (left.need + 1) ≤ MLVMMATHARGUSIZE

/-- The condition for a goal. -/
def Goal.Fits : Goal k → Prop
  | .is _ e _ => e.Fits ∧ e.size + 2 ≤ MLVMSTACKTREESIZE ∧ e.need ≤ MLVMMATHARGUSIZE
  | .compare _ left right => PairFits left right
  | .ifCompare _ left right => PairFits left right

/-! ## Pushing an expression -/

namespace Expr

/-- The terms of an expression, the last one first. -/
def pushed : Expr k → List MathTerm
  | var x _ => [.var x.index x.annot]
  | number v => [.number v]
  | neg e => e.pushed ++ [.operator U_MINUSVAL]
  | binary o left right => right.pushed ++ left.pushed ++ [.operator o.val]

theorem length_pushed (e : Expr k) : e.pushed.length = e.size := by
  induction e with
  | var x h => rfl
  | number v => rfl
  | neg e ih => simp [pushed, size, ih]
  | binary o left right ihl ihr =>
    simp only [pushed, size, List.length_append, List.length_singleton, ihl, ihr]
    omega

theorem size_pos (e : Expr k) : 0 < e.size := by
  cases e <;> simp [size]

end Expr

theorem pushMath1_eq (t : MathTerm) {st : List MathTerm} (h : st.length ≤ MLVMSTACKTREESIZE) :
    pushMath1 t st = if st.length + 1 ≤ MLVMSTACKTREESIZE then some (t :: st) else none := by
  rw [pushMath1]
  split_ifs <;> first | rfl | omega

/-- **The first stack** holds the expression, if it is large enough. -/
theorem intostack1_eq (e : Expr k) {st : List MathTerm} (h : st.length ≤ MLVMSTACKTREESIZE) :
    intostack1 e st =
      if st.length + e.size ≤ MLVMSTACKTREESIZE then some (e.pushed ++ st) else none := by
  induction e generalizing st with
  | var x hx => exact pushMath1_eq _ h
  | number v => exact pushMath1_eq _ h
  | neg e ih =>
    rw [intostack1, pushMath1_eq _ h, Expr.size, Expr.pushed]
    by_cases hroom : st.length + 1 ≤ MLVMSTACKTREESIZE
    · rw [if_pos hroom, Option.bind_some, ih (by simpa using hroom)]
      simp only [List.length_cons, List.append_assoc, List.singleton_append, Nat.add_assoc,
        Nat.add_comm 1]
    · rw [if_neg hroom, Option.bind_none, if_neg (by omega)]
  | binary o left right ihl ihr =>
    rw [intostack1, pushMath1_eq _ h, Expr.size, Expr.pushed]
    by_cases hroom : st.length + 1 ≤ MLVMSTACKTREESIZE
    · rw [if_pos hroom, Option.bind_some, ihl (by simpa using hroom), List.length_cons]
      by_cases hleft : st.length + 1 + left.size ≤ MLVMSTACKTREESIZE
      · have hlength : (left.pushed ++ MathTerm.operator o.val :: st).length =
            st.length + 1 + left.size := by
          simp only [List.length_append, List.length_cons, Expr.length_pushed]
          omega
        rw [if_pos hleft, Option.bind_some, ihr (by omega), hlength]
        by_cases hright : st.length + 1 + left.size + right.size ≤ MLVMSTACKTREESIZE
        · rw [if_pos hright, if_pos (by omega)]
          simp
        · rw [if_neg hright, if_neg (by omega)]
      · rw [if_neg hleft, Option.bind_none, if_neg (by omega)]
    · rw [if_neg hroom, Option.bind_none, if_neg (by omega)]

/-! ## Compiling an expression -/

/-- The operand that an expression becomes, its code, and `intermediatevalue` afterwards. -/
structure Compiled where
  operand : Operand
  code : List Instr
  iv : Int

/-- The instruction of an operator. -/
def BinOp.instr (o : BinOp) (left right dest : Int) : Instr :=
  match o with
  | plus => .add left right dest
  | minus => .sub left right dest
  | mult => .mul left right dest
  | div => .div left right dest
  | mod => .mod left right dest

/-- The literals of two operands are loaded. -/
def loads (k : ClauseType) (left right : Operand) : List Instr :=
  (mathSet k.leftCell left).2 ++ (mathSet k.rightCell right).2

def leftArg (k : ClauseType) (o : Operand) : Int := (mathSet k.leftCell o).1

def rightArg (k : ClauseType) (o : Operand) : Int := (mathSet k.rightCell o).1

/-- The right operand comes first. -/
def Expr.compile : Expr k → Int → Compiled
  | var x _, iv => ⟨.var x.annot, [], iv⟩
  | number v, iv => ⟨(numberOperand v).getD (.int 0), [], iv⟩
  | neg e, iv => e.compile iv
  | binary o left right, iv =>
    let r := right.compile iv
    let l := left.compile r.iv
    let d := destination k l.operand r.operand l.iv
    ⟨.intermed d.1, r.code ++ l.code ++ loads k l.operand r.operand ++
      [o.instr (leftArg k l.operand) (rightArg k r.operand) d.1], d.2⟩

/-- An expression has been compiled. -/
def MathState.after (s : MathState) (e : Expr k) : MathState :=
  { s with
    stack2 := (e.compile s.intermediatevalue).operand :: s.stack2
    intermediatevalue := (e.compile s.intermediatevalue).iv
    output := s.output ++ (e.compile s.intermediatevalue).code }

theorem Expr.need_pos (e : Expr k) : 0 < e.need := by
  induction e with
  | var x h => exact Nat.one_pos
  | number v => exact Nat.one_pos
  | neg e ih => exact ih
  | binary o left right ihl ihr => exact lt_max_of_lt_left ihr

theorem pushMath2_eq {o : Operand} {s : MathState} (h : s.stack2.length ≤ MLVMMATHARGUSIZE) :
    pushMath2 o s = if s.stack2.length + 1 ≤ MLVMMATHARGUSIZE then
      some { s with stack2 := o :: s.stack2 } else none := by
  rw [pushMath2]
  split_ifs <;> first | rfl | omega

theorem mathOp_val (o : BinOp) (l r d : Int) (s : MathState) :
    mathOp o.val l r d s = pushMath2 (.intermed d) (emit [o.instr l r d] s) := by
  cases o <;> rfl

theorem numberOperand_eq_none {v : ℚ} : numberOperand v = none ↔ ¬ (toInt v).isSome := by
  rw [numberOperand, Option.map_eq_none_iff, Option.not_isSome_iff_eq_none]

/-- An operator takes the operands of its two expressions. -/
theorem mathStep_operator (o : BinOp) (left right : Expr k) {s : MathState}
    (h : s.stack2.length + 1 ≤ MLVMMATHARGUSIZE) :
    mathStep k (.operator o.val) ((s.after right).after left) =
      some (s.after (.binary o left right)) := by
  have hroom : s.stack2.length ≠ MLVMMATHARGUSIZE := by omega
  simp only [mathStep, MathState.after, operate, mathCode, mathOp_val, pushMath2, emit,
    if_neg hroom, Expr.compile, loads, leftArg, rightArg, List.append_assoc]

/-- **The second stack** gets the operand, if it is large enough. -/
theorem mathLoop_pushed (e : Expr k) (hneg : e.NegFree) (st : List MathTerm) {s s' : MathState}
    (h : s.stack2.length ≤ MLVMMATHARGUSIZE) :
    mathLoop k (e.pushed ++ st) s = some s' ↔
      (s.stack2.length + e.need ≤ MLVMMATHARGUSIZE ∧ e.InRange) ∧
        mathLoop k st (s.after e) = some s' := by
  induction e generalizing st s with
  | var x hx =>
    have hset : ¬ (k = .userEnd ∧ x.index = x.annot) := fun hand => hx hand.2
    rw [Expr.pushed, List.singleton_append, mathLoop, mathStep, if_neg hset, pushMath2_eq h]
    by_cases hroom : s.stack2.length + 1 ≤ MLVMMATHARGUSIZE
    · simp [hroom, Expr.need, Expr.InRange, MathState.after, Expr.compile]
    · simp [hroom, Expr.need]
  | number v =>
    rw [Expr.pushed, List.singleton_append, mathLoop, mathStep, Expr.InRange]
    cases hv : numberOperand v with
    | none =>
      simp [numberOperand_eq_none.1 hv]
    | some o =>
      have hrange : (toInt v).isSome := by
        by_contra hnot
        rw [numberOperand_eq_none.2 hnot] at hv
        cases hv
      rw [Option.bind_some, pushMath2_eq h]
      by_cases hroom : s.stack2.length + 1 ≤ MLVMMATHARGUSIZE
      · simp [hroom, Expr.need, hrange, MathState.after, Expr.compile, hv]
      · simp [hroom, Expr.need]
  | neg e ih => exact absurd hneg id
  | binary o left right ihl ihr =>
    have hpos := left.need_pos
    rw [Expr.pushed, List.append_assoc, List.append_assoc, List.singleton_append,
      ihr hneg.2 _ h, Expr.InRange, Expr.need]
    by_cases hright : s.stack2.length + right.need ≤ MLVMMATHARGUSIZE
    · have hpush : (s.after right).stack2.length = s.stack2.length + 1 := rfl
      have hrpos := right.need_pos
      rw [ihl hneg.1 _ (by omega), hpush]
      by_cases hleft : s.stack2.length + 1 + left.need ≤ MLVMMATHARGUSIZE
      · rw [mathLoop, mathStep_operator o left right (by omega), Option.bind_some]
        have hmax : s.stack2.length + max right.need (left.need + 1) ≤ MLVMMATHARGUSIZE := by
          omega
        simp only [hright, hleft, hmax, true_and]
        tauto
      · have hmax : ¬ s.stack2.length + max right.need (left.need + 1) ≤ MLVMMATHARGUSIZE := by
          omega
        simp [hleft, hmax]
    · have hmax : ¬ s.stack2.length + max right.need (left.need + 1) ≤ MLVMMATHARGUSIZE := by
        omega
      simp [hright, hmax]

/-! ## Every operand is used -/

/-- What a term does to the height of the second stack. -/
def MathTerm.effect (k : ClauseType) : MathTerm → Int
  | var .. | number _ => 1
  | operator rval => if rval ∈ [20, 22, 23, 24, 25] then -1 else -2
  | comparison _ => -2
  | ifComparison _ => if k = .userEnd then -2 else 0

theorem length_pushMath2 {o : Operand} {s s' : MathState} (h : pushMath2 o s = some s') :
    s'.stack2.length = s.stack2.length + 1 := by
  rw [pushMath2] at h
  split_ifs at h
  obtain rfl := Option.some.inj h
  rfl

theorem length_mathOp {rval : ℕ} {l r d : Int} {s s' : MathState}
    (h : mathOp rval l r d s = some s') : (s'.stack2.length : Int) =
      s.stack2.length + 2 + (MathTerm.operator rval).effect k := by
  rw [MathTerm.effect]
  unfold mathOp at h
  split at h
  case h_6 =>
    obtain rfl := Option.some.inj h
    simp [emit]
  case h_7 h20 h22 h23 h24 h25 _ =>
    obtain rfl := Option.some.inj h
    have hnot : rval ∉ [20, 22, 23, 24, 25] := by
      simp only [List.mem_cons, List.not_mem_nil, or_false, not_or]
      exact ⟨h20, h22, h23, h24, h25⟩
    rw [if_neg hnot]
    omega
  all_goals
    have hlength := length_pushMath2 h
    simp only [emit] at hlength
    simp [hlength]
    omega

theorem stack2_mathCompare (rval : ℕ) (target : Target) (l r : Int) (s : MathState) :
    (mathCompare rval target l r s).stack2 = s.stack2 := by
  unfold mathCompare
  split <;> rfl

theorem length_operate {op : Int → Int → Int → MathState → Option MathState} {n : Int}
    (hop : ∀ {l r d s s'}, op l r d s = some s' →
    (s'.stack2.length : Int) = s.stack2.length + 2 + n)
    {s s' : MathState} (h : operate k op s = some s') :
    (s'.stack2.length : Int) = s.stack2.length + n := by
  rw [operate] at h
  split at h
  case h_1 left right st hst =>
    rw [hop h, hst]
    simp only [emit, List.length_cons]
    omega
  case h_2 => cases h

/-- **One term** changes the height of the stack by its effect. -/
theorem length_mathStep {t : MathTerm} {s s' : MathState} (h : mathStep k t s = some s') :
    (s'.stack2.length : Int) = s.stack2.length + t.effect k := by
  cases t with
  | var index annot =>
    have hlength := length_pushMath2 h
    rw [hlength, MathTerm.effect]
    split_ifs <;> simp [emit]
  | number v =>
    obtain ⟨o, -, ho⟩ := Option.bind_eq_some_iff.1 h
    rw [length_pushMath2 ho, MathTerm.effect]
    omega
  | operator rval => exact length_operate length_mathOp h
  | comparison rval =>
    refine length_operate (fun hop => ?_) h
    obtain rfl := Option.some.inj hop
    rw [stack2_mathCompare, MathTerm.effect]
    omega
  | ifComparison rval =>
    cases k with
    | userEnd =>
      refine length_operate (fun hop => ?_) h
      obtain rfl := Option.some.inj hop
      rw [stack2_mathCompare, MathTerm.effect, if_pos rfl]
      omega
    | chain =>
      obtain rfl := Option.some.inj h
      simp [MathTerm.effect]

/-- **A run** changes it by the effects of its terms. -/
theorem length_mathLoop {st : List MathTerm} {s s' : MathState} (h : mathLoop k st s = some s') :
    (s'.stack2.length : Int) = s.stack2.length + (st.map (·.effect k)).sum := by
  induction st generalizing s with
  | nil =>
    obtain rfl := Option.some.inj h
    simp
  | cons t st ih =>
    obtain ⟨s₁, hstep, hrest⟩ := Option.bind_eq_some_iff.1 h
    rw [ih hrest, length_mathStep hstep, List.map_cons, List.sum_cons, Int.add_assoc]

/-- The number of unary minus. -/
def Expr.negs : Expr k → ℕ
  | var .. | number _ => 0
  | neg e => e.negs + 1
  | binary _ left right => left.negs + right.negs

theorem Expr.negFree_iff (e : Expr k) : e.NegFree ↔ e.negs = 0 := by
  induction e with
  | var x h => simp [NegFree, negs]
  | number v => simp [NegFree, negs]
  | neg e ih => simp [NegFree, negs]
  | binary o left right ihl ihr => simp [NegFree, negs, ihl, ihr]

/-- A unary minus takes two operands and leaves none. -/
theorem Expr.effect_pushed (e : Expr k) :
    (e.pushed.map (·.effect k)).sum = 1 - 2 * e.negs := by
  induction e with
  | var x h => rfl
  | number v => rfl
  | neg e ih =>
    have hneg : (MathTerm.operator U_MINUSVAL).effect k = -2 := rfl
    simp only [pushed, negs, List.map_append, List.sum_append, ih, List.map_cons, List.map_nil,
      List.sum_cons, List.sum_nil, hneg]
    omega
  | binary o left right ihl ihr =>
    have hop : (MathTerm.operator o.val).effect k = -1 := by cases o <;> rfl
    simp only [pushed, negs, List.map_append, List.sum_append, ihl, ihr, List.map_cons,
      List.map_nil, List.sum_cons, List.sum_nil, hop]
    omega

/-! ## The two cells -/

/-- A cell for intermediate values. -/
def InPair (k : ClauseType) (iv : Int) : Prop := iv = k.first ∨ iv = k.second

theorem ClauseType.cells_ne (k : ClauseType) : k.first ≠ k.second ∧ k.first ≠ k.leftCell ∧
    k.first ≠ k.rightCell ∧ k.second ≠ k.leftCell ∧ k.second ≠ k.rightCell ∧
    k.leftCell ≠ k.rightCell := by
  cases k <;> decide

theorem InPair.toggle {iv : Int} (h : InPair k iv) : InPair k (toggle k iv) := by
  rw [MathCode.toggle]
  split_ifs
  · exact .inr rfl
  · exact .inl rfl
  · exact h

theorem InPair.toggle_toggle {iv : Int} (h : InPair k iv) :
    MathCode.toggle k (MathCode.toggle k iv) = iv := by
  have hne := k.cells_ne.1
  rcases h with rfl | rfl
  · simp [MathCode.toggle, hne.symm]
  · simp [MathCode.toggle, hne.symm]

theorem InPair.toggle_ne {iv : Int} (h : InPair k iv) : MathCode.toggle k iv ≠ iv := by
  have hne := k.cells_ne.1
  rcases h with rfl | rfl
  · simpa [MathCode.toggle] using hne.symm
  · simpa [MathCode.toggle, hne.symm] using hne

/-- The one cell or the other. -/
theorem InPair.cases {iv c : Int} (h : InPair k iv) (hc : InPair k c) :
    c = iv ∨ c = MathCode.toggle k iv := by
  have hne := k.cells_ne.1
  rcases h with rfl | rfl <;> rcases hc with rfl | rfl <;> simp [MathCode.toggle, hne.symm]

/-- The operand is no intermediate value. -/
def Operand.isLiteralOrVar : Operand → Bool
  | intermed _ => false
  | _ => true

theorem destination_left (a : Int) (right : Operand) (iv : Int) :
    destination k (.intermed a) right iv = (a, iv) := rfl

theorem destination_right {left : Operand} (h : left.isLiteralOrVar = true) (a iv : Int) :
    destination k left (.intermed a) iv = (a, iv) := by
  cases left <;> first | rfl | cases h

theorem destination_toggle {left right : Operand} (hl : left.isLiteralOrVar = true)
    (hr : right.isLiteralOrVar = true) (iv : Int) :
    destination k left right iv = (toggle k iv, toggle k iv) := by
  cases left with
  | intermed a => cases hl
  | _ =>
    cases right with
    | intermed a => cases hr
    | _ => rfl

theorem number_operand (v : ℚ) : (∃ n, (numberOperand v).getD (.int 0) = .int n) ∨
    (numberOperand v).getD (.int 0) = .real v := by
  rw [numberOperand]
  cases toInt v with
  | none => exact .inl ⟨0, rfl⟩
  | some i =>
    simp only [Option.map_some, Option.getD_some]
    split_ifs
    · exact .inr rfl
    · exact .inl ⟨i, rfl⟩

/-- **A leaf** needs no code. -/
theorem Expr.compile_leaf {e : Expr k} (h : e.isLeaf = true) (iv : Int) :
    (e.compile iv).operand.isLiteralOrVar = true ∧ (e.compile iv).code = [] ∧
      (e.compile iv).iv = iv ∧ e.allocs = 0 := by
  cases e with
  | var x hx => exact ⟨rfl, rfl, rfl, rfl⟩
  | number v =>
    refine ⟨?_, rfl, rfl, rfl⟩
    rw [compile]
    rcases number_operand v with ⟨n, h⟩ | h <;> rw [h] <;> rfl
  | neg e => cases h
  | binary o left right => cases h

/-- **A compound expression** leaves its value in the current cell. -/
theorem Expr.compile_compound {e : Expr k} (hneg : e.NegFree) (h : e.isLeaf = false) (iv : Int) :
    (e.compile iv).operand = .intermed (e.compile iv).iv ∧ 0 < e.allocs := by
  induction e generalizing iv with
  | var x hx => cases h
  | number v => cases h
  | neg e ih => exact absurd hneg id
  | binary o left right ihl ihr =>
    simp only [compile, allocs]
    by_cases hl : left.isLeaf = true
    · have hleft := compile_leaf hl
      by_cases hr : right.isLeaf = true
      · rw [destination_toggle (hleft _).1 (compile_leaf hr _).1]
        simp [hl, hr]
      · have hright := ihr hneg.2 (by simpa using hr) iv
        rw [hright.1, destination_right (hleft _).1, (hleft _).2.2.1]
        simp only [hr, Bool.and_false, Bool.false_eq_true, if_false, true_and]
        omega
    · have hleft := ihl hneg.1 (by simpa using hl)
      rw [(hleft _).1, destination_left]
      simp only [hl, Bool.false_and, Bool.false_eq_true, if_false, true_and]
      exact Nat.add_pos_left (hleft iv).2 _

/-- **The current cell** changes with every allocation. -/
theorem Expr.compile_iv {e : Expr k} (hneg : e.NegFree) (iv : Int) :
    (e.compile iv).iv = (toggle k)^[e.allocs] iv := by
  induction e generalizing iv with
  | var x hx => rfl
  | number v => rfl
  | neg e ih => exact absurd hneg id
  | binary o left right ihl ihr =>
    simp only [compile, allocs]
    by_cases hl : left.isLeaf = true
    · obtain ⟨hlvar, -, hliv, hlallocs⟩ := compile_leaf hl (right.compile iv).iv
      by_cases hr : right.isLeaf = true
      · obtain ⟨hrvar, -, hriv, -⟩ := compile_leaf hr iv
        rw [destination_toggle hlvar hrvar, hliv, hriv]
        simp [hl, hr]
      · have hright := compile_compound hneg.2 (by simpa using hr) iv
        rw [hright.1, destination_right hlvar, hliv, ihr hneg.2]
        simp [hr, hlallocs]
    · have hleft := compile_compound hneg.1 (by simpa using hl) (right.compile iv).iv
      rw [hleft.1, destination_left, ihl hneg.1, ihr hneg.2]
      simp [hl, Function.iterate_add_apply]

theorem InPair.compile {e : Expr k} (hneg : e.NegFree) {iv : Int} (h : InPair k iv) :
    InPair k (e.compile iv).iv := by
  rw [Expr.compile_iv hneg]
  induction e.allocs with
  | zero => exact h
  | succ n ih =>
    rw [Function.iterate_succ_apply']
    exact ih.toggle

/-! ## What is overwritten -/

/-- The cells for intermediate values that the code of an expression writes. -/
def Expr.Writes (e : Expr k) (iv c : Int) : Prop :=
  1 ≤ e.allocs ∧ c = toggle k iv ∨ 2 ≤ e.allocs ∧ c = iv

theorem Expr.writes_leaf {e : Expr k} (h : e.isLeaf = true) {iv c : Int} : ¬ e.Writes iv c := by
  rw [Writes, (compile_leaf h iv).2.2.2]
  omega

/-- A compound expression writes the cell that is current afterwards. -/
theorem Expr.writes_iv {e : Expr k} (hneg : e.NegFree) (h : e.isLeaf = false) {iv : Int}
    (hiv : InPair k iv) : e.Writes iv (e.compile iv).iv := by
  have hpos := (compile_compound hneg h iv).2
  by_cases htwo : 2 ≤ e.allocs
  · rcases hiv.cases (hiv.compile hneg) with heq | heq
    · exact .inr ⟨htwo, heq⟩
    · exact .inl ⟨hpos, heq⟩
  · have hone : e.allocs = 1 := by omega
    refine .inl ⟨hpos, ?_⟩
    rw [compile_iv hneg, hone]
    rfl

/-- With two allocations both cells are written. -/
theorem Expr.writes_of_two {e : Expr k} (h : 2 ≤ e.allocs) {iv c : Int} (hiv : InPair k iv)
    (hc : InPair k c) : e.Writes iv c := by
  rcases hiv.cases hc with heq | heq
  · exact .inr ⟨h, heq⟩
  · exact .inl ⟨by omega, heq⟩

theorem Expr.Writes.inPair {e : Expr k} {iv c : Int} (hiv : InPair k iv) (h : e.Writes iv c) :
    InPair k c := by
  rcases h with ⟨-, rfl⟩ | ⟨-, rfl⟩
  · exact hiv.toggle
  · exact hiv

/-- **An operator** writes what its operands write, and its destination. -/
theorem Expr.writes_binary {o : BinOp} {left right : Expr k} (hneg : (binary o left right).NegFree)
    {iv c : Int} (hiv : InPair k iv) :
    (binary o left right).Writes iv c ↔ right.Writes iv c ∨
      left.Writes (right.compile iv).iv c ∨
      c = (destination k (left.compile (right.compile iv).iv).operand (right.compile iv).operand
        (left.compile (right.compile iv).iv).iv).1 := by
  have hiv₁ := hiv.compile hneg.2
  by_cases hl : left.isLeaf = true
  · obtain ⟨hlvar, -, hliv, hlallocs⟩ := compile_leaf hl (right.compile iv).iv
    by_cases hr : right.isLeaf = true
    · obtain ⟨hrvar, -, hriv, -⟩ := compile_leaf hr iv
      rw [destination_toggle hlvar hrvar, hliv, hriv]
      simp [Writes, allocs, hl, hr, hlallocs, (compile_leaf hr iv).2.2.2]
    · have hr : right.isLeaf = false := by simpa using hr
      have hright := compile_compound hneg.2 hr iv
      rw [hright.1, destination_right hlvar]
      have hwrites : (binary o left right).Writes iv c ↔ right.Writes iv c := by
        simp [Writes, allocs, hr, hlallocs]
      rw [hwrites]
      refine ⟨.inl, ?_⟩
      rintro (h | h | rfl)
      · exact h
      · exact absurd h (writes_leaf hl)
      · exact writes_iv hneg.2 hr hiv
  · have hl : left.isLeaf = false := by simpa using hl
    have hleft := compile_compound hneg.1 hl (right.compile iv).iv
    rw [hleft.1, destination_left]
    have hlast := writes_iv hneg.1 hl hiv₁
    have hallocs : (binary o left right).allocs = left.allocs + right.allocs := by
      simp [allocs, hl]
    by_cases hr : right.allocs = 0
    · have hsame : (right.compile iv).iv = iv := by
        rw [compile_iv hneg.2, hr]
        rfl
      rw [hsame] at hlast ⊢
      rw [Writes, hallocs, hr, Nat.add_zero]
      refine ⟨fun h => .inr (.inl h), ?_⟩
      rintro (h | h | rfl)
      · rw [Writes, hr] at h
        omega
      · exact h
      · exact hlast
    · constructor
      · intro h
        rcases hiv.cases (h.inPair hiv) with rfl | rfl
        · -- the first cell is written when there are two allocations on one side or one on each
          by_cases htwo : 2 ≤ right.allocs
          · exact .inl (writes_of_two htwo hiv hiv)
          · have hone : right.allocs = 1 := by omega
            have hother : (right.compile c).iv = toggle k c := by
              rw [compile_iv hneg.2, hone]
              rfl
            refine .inr (.inl (.inl ⟨hleft.2, ?_⟩))
            rw [hother, hiv.toggle_toggle]
        · exact .inl (.inl ⟨by omega, rfl⟩)
      · intro h
        have htwo : 2 ≤ (binary o left right).allocs := by
          have := hleft.2
          omega
        refine writes_of_two htwo hiv ?_
        rcases h with h | h | rfl
        · exact h.inPair hiv
        · exact h.inPair hiv₁
        · exact hlast.inPair hiv₁

/-! ## What is kept -/

/-- The intermediate values on the stack are in the two cells. -/
def StackInPair (k : ClauseType) (st : List Operand) : Prop :=
  ∀ c, Operand.intermed c ∈ st → InPair k c

theorem InPair.ne_args {c : Int} (h : InPair k c) : c ≠ k.leftCell ∧ c ≠ k.rightCell := by
  obtain ⟨-, h1, h2, h3, h4, -⟩ := k.cells_ne
  rcases h with rfl | rfl
  · exact ⟨h1, h2⟩
  · exact ⟨h3, h4⟩

/-- Loading literals writes the two cells for them. -/
theorem writes_loads {left right : Operand} {i : Instr} (h : i ∈ loads k left right) :
    i.writes = [k.leftCell] ∨ i.writes = [k.rightCell] := by
  rw [loads, List.mem_append] at h
  rcases h with h | h
  · cases left with
    | int n => exact .inl (by rw [List.mem_singleton.1 h]; rfl)
    | real v => exact .inl (by rw [List.mem_singleton.1 h]; rfl)
    | var a => cases h
    | intermed a => cases h
  · cases right with
    | int n => exact .inr (by rw [List.mem_singleton.1 h]; rfl)
    | real v => exact .inr (by rw [List.mem_singleton.1 h]; rfl)
    | var a => cases h
    | intermed a => cases h

theorem BinOp.writes_instr (o : BinOp) (l r d : Int) : (o.instr l r d).writes = [d] := by
  cases o <;> rfl

theorem drop_output (s : MathState) (is : List Instr) :
    (s.output ++ is).drop s.output.length = is := List.drop_left

/-- What an operator keeps: its destination is not needed. -/
theorem keeps_operator (o : BinOp) (left right : Expr k) {s : MathState}
    (hs : StackInPair k s.stack2) :
    Keeps (.operator o.val) ((s.after right).after left) (s.after (.binary o left right)) ↔
      .intermed (destination k (left.compile (right.compile s.intermediatevalue).iv).operand
        (right.compile s.intermediatevalue).operand
        (left.compile (right.compile s.intermediatevalue).iv).iv).1 ∉ s.stack2 := by
  have hneeded : needed ((s.after right).after left) (.operator o.val) = s.stack2 := rfl
  obtain ⟨is, l, r, houtput, hloads⟩ : ∃ is l r, (s.after (.binary o left right)).output =
      ((s.after right).after left).output ++ (is ++ [o.instr l r (destination k
        (left.compile (right.compile s.intermediatevalue).iv).operand
        (right.compile s.intermediatevalue).operand
        (left.compile (right.compile s.intermediatevalue).iv).iv).1]) ∧
      ∀ i ∈ is, i.writes = [k.leftCell] ∨ i.writes = [k.rightCell] :=
    ⟨loads k (left.compile (right.compile s.intermediatevalue).iv).operand
      (right.compile s.intermediatevalue).operand, _, _,
      by simp only [MathState.after, Expr.compile, List.append_assoc]; rfl,
      fun _ hi => writes_loads hi⟩
  rw [Keeps, hneeded, houtput, drop_output]
  constructor
  · intro h
    refine h _ (List.mem_append_right _ (List.mem_singleton_self _)) _ ?_
    rw [BinOp.writes_instr]
    exact List.mem_singleton_self _
  · intro h i hi c hc hmem
    rcases List.mem_append.1 hi with hi | hi
    · obtain ⟨hleft, hright⟩ := (hs c hmem).ne_args
      rcases hloads i hi with hw | hw
      · exact hleft (List.mem_singleton.1 (hw ▸ hc))
      · exact hright (List.mem_singleton.1 (hw ▸ hc))
    · rw [List.mem_singleton.1 hi, BinOp.writes_instr] at hc
      exact h (List.mem_singleton.1 hc ▸ hmem)

/-- A leaf writes nothing. -/
theorem keeps_leaf {e : Expr k} {t : MathTerm} (h : e.isLeaf = true) (s : MathState) :
    Keeps t s (s.after e) := by
  intro i hi
  have hcode : (s.after e).output.drop s.output.length = [] := by
    simp [MathState.after, (Expr.compile_leaf h s.intermediatevalue).2.1]
  rw [hcode] at hi
  cases hi

theorem StackInPair.after {e : Expr k} (hneg : e.NegFree) {s : MathState}
    (hs : StackInPair k s.stack2) (hiv : InPair k s.intermediatevalue) :
    StackInPair k (s.after e).stack2 := by
  intro c hc
  rcases List.mem_cons.1 hc with hc | hc
  · by_cases hleaf : e.isLeaf = true
    · have hvar := (Expr.compile_leaf hleaf s.intermediatevalue).1
      rw [← hc] at hvar
      cases hvar
    · rw [(Expr.compile_compound hneg (by simpa using hleaf) _).1] at hc
      injection hc with hc
      rw [hc]
      exact hiv.compile hneg
  · exact hs c hc

/-- **The left operand** spares the right one if it allocates once, or if that is a leaf. -/
theorem spares_iff {left right : Expr k} (hneg : right.NegFree) {s : MathState}
    (hiv : InPair k s.intermediatevalue) :
    (∀ c, left.Writes (s.after right).intermediatevalue c →
      .intermed c ∉ (s.after right).stack2) ↔
      (right.isLeaf = false → left.allocs ≤ 1) ∧
        ∀ c, left.Writes (s.after right).intermediatevalue c → .intermed c ∉ s.stack2 := by
  have hiv₁ : InPair k (s.after right).intermediatevalue := hiv.compile hneg
  constructor
  · intro h
    refine ⟨fun hr => ?_, fun c hc hmem => h c hc (List.mem_cons_of_mem _ hmem)⟩
    by_contra htwo
    refine h _ (Expr.writes_of_two (by omega) hiv₁ hiv₁) ?_
    rw [MathState.after, (Expr.compile_compound hneg hr _).1]
    exact List.mem_cons_self
  · rintro ⟨hshape, h⟩ c hc hmem
    rcases List.mem_cons.1 hmem with heq | hmem
    · by_cases hr : right.isLeaf = true
      · have hvar := (Expr.compile_leaf hr s.intermediatevalue).1
        rw [← heq] at hvar
        cases hvar
      · have hr : right.isLeaf = false := by simpa using hr
        rw [(Expr.compile_compound hneg hr _).1] at heq
        injection heq with heq
        subst heq
        rcases hc with ⟨-, hc⟩ | ⟨htwo, -⟩
        · exact hiv₁.toggle_ne hc.symm
        · have hone := hshape hr
          omega
    · exact h c hc hmem

/-- **The stack** keeps what is needed exactly when the expression has the right shape and writes no
cell that holds an intermediate value below it. -/
theorem keepsNeeded_pushed (e : Expr k) (hneg : e.NegFree) (hrange : e.InRange)
    (st : List MathTerm) {s : MathState} (hneed : s.stack2.length + e.need ≤ MLVMMATHARGUSIZE)
    (hiv : InPair k s.intermediatevalue) (hs : StackInPair k s.stack2) :
    KeepsNeeded k (e.pushed ++ st) s ↔
      (e.Shape ∧ ∀ c, e.Writes s.intermediatevalue c → .intermed c ∉ s.stack2) ∧
        KeepsNeeded k st (s.after e) := by
  induction e generalizing st s with
  | var x hx =>
    have hrun : mathStep k (.var x.index x.annot) s = some (s.after (.var x hx)) := by
      have hset : ¬ (k = .userEnd ∧ x.index = x.annot) := fun hand => hx hand.2
      have hroom : s.stack2.length ≠ MLVMMATHARGUSIZE := by
        rw [Expr.need] at hneed
        omega
      simp [mathStep, hset, pushMath2, hroom, MathState.after, Expr.compile]
    have hleaf : (Expr.var x hx).isLeaf = true := rfl
    simp only [Expr.pushed, List.singleton_append, KeepsNeeded, hrun, Option.some.injEq,
      forall_eq', keeps_leaf hleaf, true_and, Expr.Shape, Expr.writes_leaf hleaf, false_imp_iff,
      implies_true]
  | number v =>
    have hrun : mathStep k (.number v) s = some (s.after (.number v : Expr k)) := by
      cases hv : numberOperand v with
      | none => exact absurd hrange (numberOperand_eq_none.1 hv)
      | some o =>
        have hroom : s.stack2.length ≠ MLVMMATHARGUSIZE := by
          rw [Expr.need] at hneed
          omega
        simp [mathStep, hv, pushMath2, hroom, MathState.after, Expr.compile]
    have hleaf : (Expr.number v : Expr k).isLeaf = true := rfl
    simp only [Expr.pushed, List.singleton_append, KeepsNeeded, hrun, Option.some.injEq,
      forall_eq', keeps_leaf hleaf, true_and, Expr.Shape, Expr.writes_leaf hleaf, false_imp_iff,
      implies_true]
  | neg e ih => exact absurd hneg id
  | binary o left right ihl ihr =>
    have hlpos := left.need_pos
    rw [Expr.need] at hneed
    have hiv₁ := hiv.compile hneg.2
    have hs₁ := hs.after hneg.2 hiv
    have hlength : (s.after right).stack2.length = s.stack2.length + 1 := rfl
    rw [Expr.pushed, List.append_assoc, List.append_assoc, List.singleton_append,
      ihr hneg.2 hrange.2 _ (by omega) hiv hs,
      ihl hneg.1 hrange.1 _ (by rw [hlength]; omega) hiv₁ hs₁, spares_iff hneg.2 hiv,
      KeepsNeeded,
      mathStep_operator o left right (by omega)]
    simp only [Option.some.injEq, forall_eq', keeps_operator o left right hs, Expr.Shape,
      Expr.writes_binary hneg hiv]
    constructor
    · rintro ⟨⟨hr, hwr⟩, ⟨hl, hshape, hwl⟩, hdest, hrest⟩
      refine ⟨⟨⟨hl, hr, hshape⟩, ?_⟩, hrest⟩
      rintro c (hc | hc | rfl)
      · exact hwr c hc
      · exact hwl c hc
      · exact hdest
    · rintro ⟨⟨⟨hl, hr, hshape⟩, hw⟩, hrest⟩
      exact ⟨⟨hr, fun c hc => hw c (.inl hc)⟩,
        ⟨hl, hshape, fun c hc => hw c (.inr (.inl hc))⟩, hw _ (.inr (.inr rfl)), hrest⟩

/-! ## What is computed -/

/-- The value of an operand. -/
def Operand.read (M : Machine V) (cells : Int → V) : Operand → V
  | var address => cells address
  | int intval => M.int intval
  | real floatval => M.float (printed floatval)
  | intermed address => cells address

/-- The value of an expression with the literals as they are loaded. -/
def Expr.loaded (M : Machine V) (cells : Int → V) : Expr k → V
  | var x _ => cells x.annot
  | number v => ((numberOperand v).getD (.int 0)).read M cells
  | neg e => M.neg (e.loaded M cells)
  | binary o left right => M.op o (left.loaded M cells) (right.loaded M cells)

/-- The operand is in no cell for a literal. -/
def Operand.Apart (k : ClauseType) : Operand → Prop
  | var a | intermed a => a ≠ k.leftCell ∧ a ≠ k.rightCell
  | _ => True

theorem run_append (M : Machine V) (is js : List Instr) (cells : Int → V) :
    run M (is ++ js) cells = run M js (run M is cells) := List.foldl_append

theorem BinOp.exec_instr (M : Machine V) (o : BinOp) (l r d : Int) (cells : Int → V) :
    (o.instr l r d).exec M cells = Function.update cells d (M.op o (cells l) (cells r)) := by
  cases o <;> rfl

theorem Variable.ne_args (x : Variable k) : x.annot ≠ k.leftCell ∧ x.annot ≠ k.rightCell := by
  have hapart := x.apart
  simp only [ClauseType.reserved, List.mem_cons, List.not_mem_nil, or_false, not_or] at hapart
  exact ⟨hapart.2.2.1, hapart.2.2.2⟩

theorem Variable.not_inPair (x : Variable k) : ¬ InPair k x.annot := by
  have hapart := x.apart
  simp only [ClauseType.reserved, List.mem_cons, List.not_mem_nil, or_false, not_or] at hapart
  rintro (h | h)
  · exact hapart.1 h
  · exact hapart.2.1 h

/-- **A literal** is loaded where nothing else is. -/
theorem run_loads (M : Machine V) (cells : Int → V) {left right : Operand} (hl : left.Apart k)
    (hr : right.Apart k) :
    run M (loads k left right) cells (leftArg k left) = left.read M cells ∧
      run M (loads k left right) cells (rightArg k right) = right.read M cells ∧
      ∀ c, c ≠ k.leftCell → c ≠ k.rightCell → run M (loads k left right) cells c = cells c := by
  have hne : k.leftCell ≠ k.rightCell := k.cells_ne.2.2.2.2.2
  cases left <;> cases right <;>
    simp_all [loads, run, mathSet, Instr.exec, leftArg, rightArg, Operand.read, Operand.Apart]

/-- An expression reads variables, which are in no reserved cell. -/
theorem Expr.loaded_congr (M : Machine V) (e : Expr k) {cells cells' : Int → V}
    (h : ∀ x : Variable k, cells' x.annot = cells x.annot) :
    e.loaded M cells' = e.loaded M cells := by
  induction e with
  | var x hx => exact h x
  | number v =>
    rw [loaded, loaded]
    rcases number_operand v with ⟨n, h⟩ | h <;> rw [h] <;> rfl
  | neg e ih => rw [loaded, loaded, ih]
  | binary o left right ihl ihr => rw [loaded, loaded, ihl, ihr]

/-- The code leaves the value in the operand and writes only its cells. -/
structure Expr.Computes (e : Expr k) (iv : Int) : Prop where
  apart : (e.compile iv).operand.Apart k
  value : ∀ {V : Type} (M : Machine V) (cells : Int → V),
    (e.compile iv).operand.read M (run M (e.compile iv).code cells) = e.loaded M cells
  frame : ∀ {V : Type} (M : Machine V) (cells : Int → V) (c : Int), c ≠ k.leftCell →
    c ≠ k.rightCell → ¬ e.Writes iv c → run M (e.compile iv).code cells c = cells c

/-- The code for two operands, with their literals. -/
def pairCode (left right : Expr k) (iv : Int) : List Instr :=
  (right.compile iv).code ++ (left.compile (right.compile iv).iv).code ++
    loads k (left.compile (right.compile iv).iv).operand (right.compile iv).operand

/-- **Two operands** are both there, if the left one does not overwrite the right one. -/
theorem run_pairCode (M : Machine V) (cells : Int → V) {left right : Expr k} {iv : Int}
    (hiv : InPair k iv) (hneg : right.NegFree) (hr : right.Computes iv)
    (hl : left.Computes (right.compile iv).iv) (hshape : right.isLeaf = false → left.allocs ≤ 1) :
    run M (pairCode left right iv) cells
        (leftArg k (left.compile (right.compile iv).iv).operand) = left.loaded M cells ∧
      run M (pairCode left right iv) cells (rightArg k (right.compile iv).operand) =
        right.loaded M cells ∧
      ∀ c, c ≠ k.leftCell → c ≠ k.rightCell → ¬ right.Writes iv c →
        ¬ left.Writes (right.compile iv).iv c →
          run M (pairCode left right iv) cells c = cells c := by
  have hiv₁ := hiv.compile hneg
  -- the variables are where they were
  have hvars : ∀ x : Variable k, run M (right.compile iv).code cells x.annot = cells x.annot := by
    intro x
    exact hr.frame M cells _ x.ne_args.1 x.ne_args.2 fun h => x.not_inPair (h.inPair hiv)
  have hkept : (right.compile iv).operand.read M (run M (left.compile (right.compile iv).iv).code
      (run M (right.compile iv).code cells)) =
      (right.compile iv).operand.read M (run M (right.compile iv).code cells) := by
    cases hop : (right.compile iv).operand with
    | int n => rfl
    | real v => rfl
    | var a =>
      have hapart := hr.apart
      rw [hop] at hapart
      refine hl.frame M _ _ hapart.1 hapart.2 ?_
      cases right with
      | var x hx =>
        injection hop with hop
        rw [← hop]
        exact fun h => x.not_inPair (h.inPair hiv₁)
      | number v =>
        rw [Expr.compile] at hop
        rcases number_operand v with ⟨n, h⟩ | h <;> rw [h] at hop <;> cases hop
      | neg e => exact absurd hneg id
      | binary o l r => cases hop
    | intermed a =>
      have hapart := hr.apart
      rw [hop] at hapart
      refine hl.frame M _ _ hapart.1 hapart.2 ?_
      by_cases hleaf : right.isLeaf = true
      · have hvar := (Expr.compile_leaf hleaf iv).1
        rw [hop] at hvar
        cases hvar
      · have hleaf : right.isLeaf = false := by simpa using hleaf
        rw [(Expr.compile_compound hneg hleaf iv).1] at hop
        injection hop with hop
        rw [← hop]
        rintro (⟨-, h⟩ | ⟨h, -⟩)
        · exact hiv₁.toggle_ne h.symm
        · have hone := hshape hleaf
          omega
  obtain ⟨hleft, hright, hframe⟩ := run_loads M (run M (left.compile (right.compile iv).iv).code
    (run M (right.compile iv).code cells)) hl.apart hr.apart
  rw [pairCode, run_append, run_append]
  refine ⟨?_, ?_, ?_⟩
  · rw [hleft, hl.value, Expr.loaded_congr M left hvars]
  · rw [hright, hkept, hr.value]
  · intro c hc hc' hwr hwl
    rw [hframe c hc hc', hl.frame M _ c hc hc' hwl, hr.frame M cells c hc hc' hwr]

/-- **The code of an expression** of the right shape computes it. -/
theorem Expr.computes {e : Expr k} (hneg : e.NegFree) (hshape : e.Shape) {iv : Int}
    (hiv : InPair k iv) : e.Computes iv := by
  induction e generalizing iv with
  | var x hx => exact ⟨x.ne_args, fun M cells => rfl, fun M cells c _ _ _ => rfl⟩
  | number v =>
    refine ⟨?_, fun M cells => rfl, fun M cells c _ _ _ => rfl⟩
    rw [compile]
    rcases number_operand v with ⟨n, h⟩ | h <;> rw [h] <;> trivial
  | neg e ih => exact absurd hneg id
  | binary o left right ihl ihr =>
    have hr := ihr hneg.2 hshape.2.1 hiv
    have hl := ihl hneg.1 hshape.1 (hiv.compile hneg.2)
    have hwrites := fun c => writes_binary (o := o) hneg (c := c) hiv
    refine ⟨((hwrites _).2 (.inr (.inr rfl))).inPair hiv |>.ne_args, ?_, ?_⟩
    · intro V M cells
      obtain ⟨hleft, hright, -⟩ := run_pairCode M cells hiv hneg.2 hr hl hshape.2.2
      have hlast : ∀ l r d, run M (pairCode left right iv ++ [o.instr l r d]) cells d =
          M.op o (run M (pairCode left right iv) cells l)
            (run M (pairCode left right iv) cells r) := by
        intro l r d
        rw [run_append, run, List.foldl_cons, List.foldl_nil, BinOp.exec_instr,
          Function.update_self]
      rw [loaded, ← hleft, ← hright]
      exact hlast _ _ _
    · intro V M cells c hc hc' hnot
      obtain ⟨-, -, hframe⟩ := run_pairCode M cells hiv hneg.2 hr hl hshape.2.2
      rw [hwrites, not_or, not_or] at hnot
      have hlast : ∀ l r d, c ≠ d → run M (pairCode left right iv ++ [o.instr l r d]) cells c =
          run M (pairCode left right iv) cells c := by
        intro l r d hd
        rw [run_append, run, List.foldl_cons, List.foldl_nil, BinOp.exec_instr,
          Function.update_of_ne hd]
      rw [← hframe c hc hc' hnot.1 hnot.2.1]
      exact hlast _ _ _ hnot.2.2

/-! ## Literals -/

theorem tdiv_num_den_of_nonneg {v : ℚ} (h : 0 ≤ v) : v.num.tdiv v.den = ⌊v⌋ := by
  rw [Int.tdiv_eq_ediv_of_nonneg (Rat.num_nonneg.2 h), Rat.floor_def']

theorem tdiv_num_den_of_nonpos {v : ℚ} (h : v ≤ 0) : v.num.tdiv v.den = -⌊-v⌋ := by
  rw [← tdiv_num_den_of_nonneg (Left.nonneg_neg_iff.2 h), Rat.num_neg_eq_neg_num,
    Rat.den_neg_eq_den, Int.neg_tdiv, Int.neg_neg]

theorem sub_tdiv_pos_iff {v : ℚ} (h : v.den ≠ 1) : v - (v.num.tdiv v.den : ℤ) > 0 ↔ 0 < v := by
  rcases lt_or_ge 0 v with hv | hv
  · refine iff_of_true ?_ hv
    rw [tdiv_num_den_of_nonneg hv.le, gt_iff_lt, sub_pos]
    refine lt_of_le_of_ne (Int.floor_le v) ?_
    intro heq
    exact h (by rw [← heq]; rfl)
  · refine iff_of_false ?_ (not_lt.2 hv)
    rw [tdiv_num_den_of_nonpos hv, gt_iff_lt, sub_pos, not_lt, Int.cast_neg]
    have := Int.floor_le (-v)
    linarith

theorem printed_eq_iff (v : ℚ) : printed v = v ↔ (v * 10 ^ 6).den = 1 := by
  rw [printed, div_eq_iff (by norm_num)]
  constructor
  · intro h
    rw [← h]
    rfl
  · intro h
    have hint : v * 10 ^ 6 = ((v * 10 ^ 6).num : ℚ) := (Rat.den_eq_one_iff _).1 h |>.symm
    rw [hint, round_intCast]

/-- **A number** is loaded exactly as an `int` if it is integral, and with six decimals if it is
positive. -/
theorem number_exact {v : ℚ} (hrange : (toInt v).isSome) :
    (v.den = 1 ∨ 0 < v ∧ (v * 10 ^ 6).den = 1) ↔
      (v.den = 1 ∧ (numberOperand v).getD (.int 0) = .int v.num) ∨
        (v.den ≠ 1 ∧ (numberOperand v).getD (.int 0) = .real v ∧ printed v = v) := by
  obtain ⟨i, hi⟩ := Option.isSome_iff_exists.1 hrange
  have htdiv : v.num.tdiv v.den = i := by
    simp only [toInt] at hi
    split_ifs at hi
    exact Option.some.inj hi
  rw [numberOperand, hi, Option.map_some, Option.getD_some]
  by_cases hden : v.den = 1
  · have hnum : i = v.num := by rw [← htdiv, hden, Nat.cast_one, Int.tdiv_one]
    have hsub : ¬ v - (i : ℚ) > 0 := by
      rw [hnum, (Rat.den_eq_one_iff v).1 hden]
      simp
    simp [hden, hnum ▸ hsub, hnum]
  · rw [← printed_eq_iff, ← sub_tdiv_pos_iff hden, htdiv]
    by_cases hpos : v - (i : ℚ) > 0
    · rw [if_pos hpos]
      simp [hden, sub_pos.1 hpos]
    · rw [if_neg hpos]
      simp [hden, hpos]

/-- The machine that computes with terms. -/
inductive Value where
  | cell (c : Int)
  | int (n : Int)
  | float (v : ℚ)
  | unbound
  | neg (v : Value)
  | op (o : BinOp) (left right : Value)

def freeMachine : Machine Value := ⟨.int, .float, .unbound, .neg, .op⟩

theorem Expr.loaded_eq_value {e : Expr k} (hrange : e.InRange) (hexact : e.Exact) (M : Machine V)
    (cells : Int → V) : e.loaded M cells = e.value M cells := by
  induction e with
  | var x hx => rfl
  | number v =>
    rw [loaded, value]
    rcases (number_exact hrange).1 hexact with ⟨hden, h⟩ | ⟨hden, h, hprinted⟩
    · rw [h, if_pos hden]
      rfl
    · rw [h, if_neg hden, Operand.read, hprinted]
  | neg e ih => rw [loaded, value, ih hrange hexact]
  | binary o left right ihl ihr =>
    rw [loaded, value, ihl hrange.1 hexact.1, ihr hrange.2 hexact.2]

/-- Terms show what has been loaded. -/
theorem Expr.exact_of_loaded {e : Expr k} (hrange : e.InRange)
    (h : e.loaded freeMachine .cell = e.value freeMachine .cell) : e.Exact := by
  induction e with
  | var x hx => trivial
  | number v =>
    refine (number_exact hrange).2 ?_
    rw [loaded, value] at h
    by_cases hden : v.den = 1
    · rw [if_pos hden] at h
      refine .inl ⟨hden, ?_⟩
      rcases number_operand v with ⟨n, hn⟩ | hv
      · rw [hn] at h ⊢
        injection h with h
        rw [h]
      · rw [hv] at h
        cases h
    · rw [if_neg hden] at h
      refine .inr ⟨hden, ?_⟩
      rcases number_operand v with ⟨n, hn⟩ | hv
      · rw [hn] at h
        cases h
      · rw [hv] at h
        injection h with h
        exact ⟨hv, h⟩
  | neg e ih =>
    injection h with h
    exact ih hrange h
  | binary o left right ihl ihr =>
    injection h with _ hl hr
    exact ⟨ihl hrange.1 hl, ihr hrange.2 hr⟩

/-! ## A goal -/

/-- Between two goals the stacks are empty. -/
structure AtGoal (k : ClauseType) (s : MathState) : Prop where
  stack1 : s.stack1 = []
  stack2 : s.stack2 = []
  iv : InPair k s.intermediatevalue

theorem atGoal_start (k : ClauseType) : AtGoal k (.start k) := ⟨rfl, rfl, .inl rfl⟩

/-- The state after a goal with two expressions. -/
def MathState.afterPair (s : MathState) (left right : Expr k) (i : Int → Int → Instr) :
    MathState where
  stack1 := []
  stack2 := []
  intermediatevalue :=
    let r := right.compile s.intermediatevalue
    let l := left.compile r.iv
    (destination k l.operand r.operand l.iv).2
  output :=
    let r := right.compile s.intermediatevalue
    let l := left.compile r.iv
    s.output ++ pairCode left right s.intermediatevalue ++
      [i (leftArg k l.operand) (rightArg k r.operand)]

/-- The loop over a comparison, whose instruction is `i`. -/
theorem mathLoop_pair {t : MathTerm} {i : Int → Int → Instr}
    (ht : ∀ s, mathStep k t s = operate k (fun l r _ s => some (emit [i l r] s)) s)
    (left right : Expr k) {s s' : MathState} (hs : AtGoal k s) (hl : left.NegFree)
    (hr : right.NegFree) :
    mathLoop k (right.pushed ++ left.pushed ++ [t]) s = some s' ↔
      (max right.need (left.need + 1) ≤ MLVMMATHARGUSIZE ∧ left.InRange ∧ right.InRange) ∧
        s.afterPair left right i = s' := by
  have hlast : mathLoop k [t] ((s.after right).after left) = some (s.afterPair left right i) := by
    simp only [mathLoop, ht, MathState.after, operate, mathCode, emit, Option.bind_some,
      MathState.afterPair, pairCode, loads, leftArg, rightArg, List.append_assoc, hs.stack2]
  have hlength : s.stack2.length = 0 := by rw [hs.stack2]; rfl
  have hpush : (s.after right).stack2.length = 1 := by
    rw [MathState.after, List.length_cons, hlength]
  rw [List.append_assoc, mathLoop_pushed right hr _ (by rw [hlength]; exact Nat.zero_le _),
    mathLoop_pushed left hl _ (by rw [hpush]; decide), hlast, hlength, hpush, Option.some.injEq]
  constructor
  · rintro ⟨⟨hneed, hrange⟩, ⟨hneed', hrange'⟩, heq⟩
    exact ⟨⟨by omega, hrange', hrange⟩, heq⟩
  · rintro ⟨⟨hneed, hrange', hrange⟩, heq⟩
    exact ⟨⟨by omega, hrange⟩, ⟨by omega, hrange'⟩, heq⟩

/-- A goal that has been compiled has no unary minus. -/
theorem negFree_of_loop {left right : Expr k} {t : MathTerm} (ht : t.effect k = -2)
    {s s' : MathState} (hs : AtGoal k s)
    (h : mathLoop k (right.pushed ++ left.pushed ++ [t]) s = some s') :
    left.NegFree ∧ right.NegFree := by
  have hlength := length_mathLoop h
  simp only [hs.stack2, List.map_append, List.sum_append, Expr.effect_pushed, List.map_cons,
    List.map_nil, List.sum_cons, List.sum_nil, ht, List.length_nil] at hlength
  rw [Expr.negFree_iff, Expr.negFree_iff]
  omega

/-- **What is kept** by a goal with two expressions. -/
theorem keepsNeeded_pair {t : MathTerm} (hneeded : ∀ s, needed s t = s.stack2.drop 2)
    {left right : Expr k} {s : MathState} (hs : AtGoal k s) (hl : left.NegFree)
    (hr : right.NegFree) (hrangel : left.InRange) (hranger : right.InRange)
    (hneed : max right.need (left.need + 1) ≤ MLVMMATHARGUSIZE) :
    KeepsNeeded k (right.pushed ++ left.pushed ++ [t]) s ↔
      left.Shape ∧ right.Shape ∧ (right.isLeaf = false → left.allocs ≤ 1) := by
  have hlength : s.stack2.length = 0 := by rw [hs.stack2]; rfl
  have hpush : (s.after right).stack2.length = 1 := by
    rw [MathState.after, List.length_cons, hlength]
  have hempty : StackInPair k s.stack2 := by
    intro c hc
    rw [hs.stack2] at hc
    cases hc
  have hlast : KeepsNeeded k [t] ((s.after right).after left) := by
    intro s' _
    refine ⟨?_, trivial⟩
    intro j _ c _ hmem
    have hnil : ((s.after right).after left).stack2.drop 2 = [] := by
      simp [MathState.after, hs.stack2]
    rw [hneeded, hnil] at hmem
    cases hmem
  rw [List.append_assoc, keepsNeeded_pushed right hr hranger _ (by omega) hs.iv hempty,
    keepsNeeded_pushed left hl hrangel _ (by omega) (hs.iv.compile hr) (hempty.after hr hs.iv),
    spares_iff hr hs.iv]
  simp only [hlast, and_true, hs.stack2, List.not_mem_nil, not_false_eq_true, implies_true]
  tauto

/-- **Two expressions** are compiled right exactly when they fit. -/
theorem pair_iff {t : MathTerm} {i : Int → Int → Instr} (heffect : t.effect k = -2)
    (hneeded : ∀ s, needed s t = s.stack2.drop 2)
    (ht : ∀ s, mathStep k t s = operate k (fun l r _ s => some (emit [i l r] s)) s)
    (hi : ∀ {a b a' b'}, i a b = i a' b' → a = a' ∧ b = b') (left right : Expr k) {s : MathState}
    (hs : AtGoal k s) :
    (∃ s', mathLoop k (right.pushed ++ left.pushed ++ [t]) s = some s' ∧
      (s'.stack1 = [] ∧ s'.stack2 = []) ∧
      KeepsNeeded k (right.pushed ++ left.pushed ++ [t]) s ∧
      ∃ is a b, s'.output = s.output ++ is ++ [i a b] ∧ Holds is a left ∧ Holds is b right) ↔
    left.Fits ∧ right.Fits ∧ (right.isLeaf = false → left.allocs ≤ 1) ∧
      max right.need (left.need + 1) ≤ MLVMMATHARGUSIZE := by
  have hvalues : ∀ {V : Type} (M : Machine V) (cells : Int → V), left.NegFree → right.NegFree →
      left.Shape → right.Shape → (right.isLeaf = false → left.allocs ≤ 1) → _ :=
    fun M cells hl hr hls hrs hshape => run_pairCode M cells hs.iv hr (Expr.computes hr hrs hs.iv)
      (Expr.computes hl hls (hs.iv.compile hr)) hshape
  constructor
  · rintro ⟨s', hloop, -, hkept, is, a, b, houtput, ha, hb⟩
    obtain ⟨hl, hr⟩ := negFree_of_loop heffect hs hloop
    obtain ⟨⟨hneed, hrangel, hranger⟩, rfl⟩ := (mathLoop_pair ht left right hs hl hr).1 hloop
    obtain ⟨hls, hrs, hshape⟩ := (keepsNeeded_pair hneeded hs hl hr hrangel hranger hneed).1 hkept
    -- the code is the one that has been emitted
    rw [MathState.afterPair, List.append_assoc, List.append_assoc] at houtput
    obtain ⟨hcode, hlast⟩ := List.append_inj' (List.append_cancel_left houtput) rfl
    injection hlast with hlast _
    obtain ⟨rfl, rfl⟩ := hi hlast
    obtain ⟨hleft, hright, -⟩ := hvalues freeMachine .cell hl hr hls hrs hshape
    rw [hcode] at hleft hright
    refine ⟨⟨hl, hrangel, Expr.exact_of_loaded hrangel ?_, hls⟩,
      ⟨hr, hranger, Expr.exact_of_loaded hranger ?_, hrs⟩, hshape, hneed⟩
    · rw [← hleft]
      exact ha _ _ _
    · rw [← hright]
      exact hb _ _ _
  · rintro ⟨⟨hl, hrangel, hexactl, hls⟩, ⟨hr, hranger, hexactr, hrs⟩, hshape, hneed⟩
    refine ⟨_, (mathLoop_pair ht left right hs hl hr).2 ⟨⟨hneed, hrangel, hranger⟩, rfl⟩,
      ⟨rfl, rfl⟩, (keepsNeeded_pair hneeded hs hl hr hrangel hranger hneed).2 ⟨hls, hrs, hshape⟩,
      _, _, _, rfl, ?_, ?_⟩
    · intro V M cells
      rw [(hvalues M cells hl hr hls hrs hshape).1, Expr.loaded_eq_value hrangel hexactl]
    · intro V M cells
      rw [(hvalues M cells hl hr hls hrs hshape).2.1, Expr.loaded_eq_value hranger hexactr]

/-! ## The goal `is` -/

/-- The variable on the left is set when it occurs for the first time. -/
def setCode (x : Variable k) : List Instr :=
  if k = .userEnd ∧ x.index = x.annot then [.setvar x.index] else []

/-- The code before the instruction `is`. -/
def isCode (x : Variable k) (e : Expr k) (iv : Int) : List Instr :=
  (e.compile iv).code ++ setCode x ++ loads k (.var x.annot) (e.compile iv).operand

def MathState.afterIs (s : MathState) (x : Variable k) (e : Expr k) : MathState where
  stack1 := []
  stack2 := []
  intermediatevalue :=
    (destination k (.var x.annot) (e.compile s.intermediatevalue).operand
      (e.compile s.intermediatevalue).iv).2
  output := s.output ++ isCode x e s.intermediatevalue ++
    [.is (rightArg k (e.compile s.intermediatevalue).operand) x.annot]

/-- The variable has been pushed. -/
def MathState.pushVar (s : MathState) (x : Variable k) : MathState :=
  { s with stack2 := .var x.annot :: s.stack2, output := s.output ++ setCode x }

theorem mathStep_var (x : Variable k) {s : MathState} (h : s.stack2.length + 1 ≤ MLVMMATHARGUSIZE) :
    mathStep k (.var x.index x.annot) s = some (s.pushVar x) := by
  have hroom : s.stack2.length ≠ MLVMMATHARGUSIZE := by omega
  simp only [mathStep, pushMath2, MathState.pushVar, setCode]
  split_ifs <;> simp_all [emit]

theorem mathLoop_is (x : Variable k) (e : Expr k) {s s' : MathState} (hs : AtGoal k s)
    (hneg : e.NegFree) :
    mathLoop k (e.pushed ++ [.var x.index x.annot, .operator ISVAL]) s = some s' ↔
      (e.need ≤ MLVMMATHARGUSIZE ∧ e.InRange) ∧ s.afterIs x e = s' := by
  have hlength : s.stack2.length = 0 := by rw [hs.stack2]; rfl
  have hpush : (s.after e).stack2.length + 1 ≤ MLVMMATHARGUSIZE := by
    rw [MathState.after, List.length_cons, hlength]
    decide
  have hlast : mathLoop k [.operator ISVAL] ((s.after e).pushVar x) = some (s.afterIs x e) := by
    simp only [mathLoop, mathStep, ISVAL, mathOp, MathState.after, MathState.pushVar, operate,
      mathCode, emit, Option.bind_some, MathState.afterIs, isCode, loads, rightArg,
      List.append_assoc, hs.stack2]
    rfl
  rw [mathLoop_pushed e hneg _ (by rw [hlength]; exact Nat.zero_le _), mathLoop,
    mathStep_var x hpush, Option.bind_some, hlast, hlength, Nat.zero_add, Option.some.injEq]

theorem negFree_of_is {x : Variable k} {e : Expr k} {s s' : MathState} (hs : AtGoal k s)
    (h : mathLoop k (e.pushed ++ [.var x.index x.annot, .operator ISVAL]) s = some s') :
    e.NegFree := by
  have hlength := length_mathLoop h
  have his : (MathTerm.operator ISVAL).effect k = -2 := rfl
  have hvar : (MathTerm.var x.index x.annot).effect k = 1 := rfl
  simp only [hs.stack2, List.map_append, List.sum_append, Expr.effect_pushed, List.map_cons,
    List.map_nil, List.sum_cons, List.sum_nil, his, hvar, List.length_nil] at hlength
  rw [Expr.negFree_iff]
  omega

/-- Setting the variable overwrites no intermediate value. -/
theorem keepsNeeded_is (x : Variable k) {e : Expr k} {s : MathState} (hs : AtGoal k s)
    (hneg : e.NegFree) (hrange : e.InRange) (hneed : e.need ≤ MLVMMATHARGUSIZE) :
    KeepsNeeded k (e.pushed ++ [.var x.index x.annot, .operator ISVAL]) s ↔ e.Shape := by
  have hlength : s.stack2.length = 0 := by rw [hs.stack2]; rfl
  have hempty : StackInPair k s.stack2 := by
    intro c hc
    rw [hs.stack2] at hc
    cases hc
  have hpush : (s.after e).stack2.length + 1 ≤ MLVMMATHARGUSIZE := by
    rw [MathState.after, List.length_cons, hlength]
    decide
  have hrest : KeepsNeeded k [.var x.index x.annot, .operator ISVAL] (s.after e) := by
    intro s₁ hs₁
    rw [mathStep_var x hpush] at hs₁
    obtain rfl := Option.some.inj hs₁
    refine ⟨?_, ?_⟩
    · intro i hi c hc hmem
      rw [MathState.pushVar, drop_output, setCode] at hi
      split_ifs at hi with hfirst
      · rw [List.mem_singleton.1 hi, Instr.writes, List.mem_singleton] at hc
        refine x.not_inPair ?_
        rw [← hfirst.2, ← hc]
        exact hempty.after hneg hs.iv c hmem
      · cases hi
    · intro s₂ _
      refine ⟨?_, trivial⟩
      intro j _ c _ hmem
      have hnil : needed ((s.after e).pushVar x) (.operator ISVAL) = [] := by
        simp [needed, MathState.pushVar, MathState.after, hs.stack2]
      rw [hnil] at hmem
      cases hmem
  rw [keepsNeeded_pushed e hneg hrange _ (by omega) hs.iv hempty]
  simp only [hrest, and_true, hs.stack2, List.not_mem_nil, not_false_eq_true, implies_true]

/-- **The value of the expression** is where `is` reads it. -/
theorem run_isCode (M : Machine V) (cells : Int → V) {x : Variable k} {e : Expr k} {iv : Int}
    (hiv : InPair k iv) (hneg : e.NegFree) (hshape : e.Shape)
    (hfresh : x.index = x.annot → x.annot ∉ e.cells) :
    run M (isCode x e iv) cells (rightArg k (e.compile iv).operand) = e.loaded M cells := by
  have hcomputes := Expr.computes hneg hshape hiv
  have hset : ∀ cells', (e.compile iv).operand.read M (run M (setCode x) cells') =
      (e.compile iv).operand.read M cells' := by
    intro cells'
    rw [setCode]
    split_ifs with hfirst
    · have hother : ∀ a, a ≠ x.index → run M [.setvar x.index] cells' a = cells' a :=
        fun a ha => Function.update_of_ne ha _ _
      cases hop : (e.compile iv).operand with
      | int n => rfl
      | real v => rfl
      | var a =>
        refine hother a ?_
        cases e with
        | var y hy =>
          injection hop with hop
          rintro rfl
          exact hfresh hfirst.2 (by rw [← hfirst.2, ← hop]; exact List.mem_singleton_self _)
        | number v =>
          rw [Expr.compile] at hop
          rcases number_operand v with ⟨n, h⟩ | h <;> rw [h] at hop <;> cases hop
        | neg e => exact absurd hneg id
        | binary o l r => cases hop
      | intermed a =>
        refine hother a ?_
        rintro rfl
        by_cases hleaf : e.isLeaf = true
        · have hvar := (Expr.compile_leaf hleaf iv).1
          rw [hop] at hvar
          cases hvar
        · rw [(Expr.compile_compound hneg (by simpa using hleaf) iv).1] at hop
          injection hop with hop
          refine x.not_inPair ?_
          rw [← hfirst.2, ← hop]
          exact hiv.compile hneg
    · rfl
  have hx : (Operand.var x.annot).Apart k := x.ne_args
  rw [isCode, run_append, run_append, (run_loads M _ hx hcomputes.apart).2.1, hset,
    hcomputes.value]

theorem is_iff (x : Variable k) (e : Expr k) (hfresh : x.index = x.annot → x.annot ∉ e.cells)
    {s : MathState} (hs : AtGoal k s) :
    (∃ s', mathLoop k (e.pushed ++ [.var x.index x.annot, .operator ISVAL]) s = some s' ∧
      (s'.stack1 = [] ∧ s'.stack2 = []) ∧
      KeepsNeeded k (e.pushed ++ [.var x.index x.annot, .operator ISVAL]) s ∧
      ∃ is c, s'.output = s.output ++ is ++ [.is c x.annot] ∧ Holds is c e) ↔
    e.Fits ∧ e.need ≤ MLVMMATHARGUSIZE := by
  constructor
  · rintro ⟨s', hloop, -, hkept, is, c, houtput, hc⟩
    have hneg := negFree_of_is hs hloop
    obtain ⟨⟨hneed, hrange⟩, rfl⟩ := (mathLoop_is x e hs hneg).1 hloop
    have hshape := (keepsNeeded_is x hs hneg hrange hneed).1 hkept
    rw [MathState.afterIs, List.append_assoc, List.append_assoc] at houtput
    obtain ⟨hcode, hlast⟩ := List.append_inj' (List.append_cancel_left houtput) rfl
    injection hlast with hlast _
    injection hlast with hcell _
    have hvalue := run_isCode freeMachine .cell hs.iv hneg hshape hfresh
    rw [hcode, hcell] at hvalue
    refine ⟨⟨hneg, hrange, Expr.exact_of_loaded hrange ?_, hshape⟩, hneed⟩
    rw [← hvalue]
    exact hc _ _ _
  · rintro ⟨⟨hneg, hrange, hexact, hshape⟩, hneed⟩
    refine ⟨_, (mathLoop_is x e hs hneg).2 ⟨⟨hneed, hrange⟩, rfl⟩, ⟨rfl, rfl⟩,
      (keepsNeeded_is x hs hneg hrange hneed).2 hshape, _, _, rfl, ?_⟩
    intro V M cells
    rw [run_isCode M cells hs.iv hneg hshape hfresh, Expr.loaded_eq_value hrange hexact]

/-! ## Every goal -/

/-- The terms of a goal, the last one first. -/
def Goal.pushed : Goal k → List MathTerm
  | .is x e _ => e.pushed ++ [.var x.index x.annot, .operator ISVAL]
  | .compare c left right => right.pushed ++ left.pushed ++ [.comparison c.val]
  | .ifCompare c left right => right.pushed ++ left.pushed ++ [.ifComparison c.val]

theorem goalIntostack1_pair (t : MathTerm) (left right : Expr k) :
    (pushMath1 t []).bind (fun st => (intostack1 left st).bind (intostack1 right)) =
      if left.size + right.size + 1 ≤ MLVMSTACKTREESIZE then
        some (right.pushed ++ left.pushed ++ [t]) else none := by
  rw [show pushMath1 t [] = some [t] from rfl, Option.bind_some,
    intostack1_eq left (Nat.le_of_ble_eq_true rfl), List.length_singleton]
  by_cases hleft : 1 + left.size ≤ MLVMSTACKTREESIZE
  · have hlength : (left.pushed ++ [t]).length = 1 + left.size := by
      rw [List.length_append, Expr.length_pushed, List.length_singleton, Nat.add_comm]
    rw [if_pos hleft, Option.bind_some, intostack1_eq right (by omega), hlength]
    by_cases hright : 1 + left.size + right.size ≤ MLVMSTACKTREESIZE
    · rw [if_pos hright, if_pos (by omega), List.append_assoc]
    · rw [if_neg hright, if_neg (by omega)]
  · rw [if_neg hleft, Option.bind_none, if_neg (by omega)]

theorem goalIntostack1_is (x : Variable k) (e : Expr k)
    (h : x.index = x.annot → x.annot ∉ e.cells) :
    goalIntostack1 (.is x e h) [] =
      if e.size + 2 ≤ MLVMSTACKTREESIZE then
        some (e.pushed ++ [.var x.index x.annot, .operator ISVAL]) else none := by
  have hpush : pushMath1 (.var x.index x.annot) [.operator ISVAL] =
      some [.var x.index x.annot, .operator ISVAL] := rfl
  rw [goalIntostack1, show pushMath1 (.operator ISVAL) [] = some [.operator ISVAL] from rfl,
    Option.bind_some, hpush, Option.bind_some, intostack1_eq e (Nat.le_of_ble_eq_true rfl)]
  simp only [List.length_cons, List.length_nil, Nat.zero_add, Nat.add_comm]

/-- A goal is right when it can be pushed and its loop is right. -/
theorem goal_right_iff (g : Goal k) {s : MathState} (hs : AtGoal k s) {n : ℕ}
    (hpush : goalIntostack1 g [] = if n ≤ MLVMSTACKTREESIZE then some g.pushed else none) :
    (∃ s', goalMath g s = some s' ∧ GoalRight g s s') ↔
      n ≤ MLVMSTACKTREESIZE ∧ ∃ s', mathLoop k g.pushed s = some s' ∧
        (s'.stack1 = [] ∧ s'.stack2 = []) ∧ KeepsNeeded k g.pushed s ∧
        ∃ is last, s'.output = s.output ++ is ++ [last] ∧ Reads is last g := by
  rw [goalMath, hs.stack1, hpush]
  split_ifs with hsize
  · constructor
    · rintro ⟨s', hloop, hright⟩
      refine ⟨hsize, s', hloop, hright.empty, hright.kept _ ?_, hright.reads⟩
      rw [hs.stack1, hpush, if_pos hsize]
    · rintro ⟨-, s', hloop, hempty, hkept, hreads⟩
      refine ⟨s', hloop, hempty, ?_, hreads⟩
      intro st hst
      rw [hs.stack1, hpush, if_pos hsize] at hst
      obtain rfl := Option.some.inj hst
      exact hkept
  · simp [hsize]

theorem mathCompare_val (c : Comparison) (target : Target) (l r : Int) (s : MathState) :
    mathCompare c.val target l r s = emit [c.instr l r target] s := by
  cases c <;> rfl

theorem Comparison.instr_inj (c : Comparison) (target : Target) {a b a' b' : Int}
    (h : c.instr a b target = c.instr a' b' target) : a = a' ∧ b = b' := by
  cases c <;> injection h with h h' <;> exact ⟨h, h'⟩

/-- A comparison is right exactly when its expressions fit. -/
theorem comparison_iff (g : Goal k) {t : MathTerm} {c : Comparison} {target : Target}
    {left right : Expr k} (heffect : t.effect k = -2)
    (hneeded : ∀ s, needed s t = s.stack2.drop 2)
    (ht : ∀ s, mathStep k t s = operate k (fun l r _ s => some (mathCompare c.val target l r s)) s)
    (hpushed : g.pushed = right.pushed ++ left.pushed ++ [t])
    (hintostack : goalIntostack1 g [] =
      (pushMath1 t []).bind fun st => (intostack1 left st).bind (intostack1 right))
    (hreads : ∀ is last, Reads is last g ↔
      ∃ a b, last = c.instr a b target ∧ Holds is a left ∧ Holds is b right)
    {s : MathState} (hs : AtGoal k s) :
    (∃ s', goalMath g s = some s' ∧ GoalRight g s s') ↔ PairFits left right := by
  have h := pair_iff (i := fun a b => c.instr a b target) heffect hneeded
    (fun s => by simp only [ht, mathCompare_val]) (c.instr_inj target) left right hs
  rw [goalIntostack1_pair, ← hpushed] at hintostack
  rw [goal_right_iff g hs hintostack, hpushed]
  constructor
  · rintro ⟨hsize, s', hloop, hempty, hkept, is, last, houtput, hlast⟩
    obtain ⟨a, b, rfl, ha, hb⟩ := (hreads is last).1 hlast
    obtain ⟨hl, hr, hshape, hneed⟩ := h.1 ⟨s', hloop, hempty, hkept, is, a, b, houtput, ha, hb⟩
    exact ⟨hl, hr, hshape, hsize, hneed⟩
  · rintro ⟨hl, hr, hshape, hsize, hneed⟩
    obtain ⟨s', hloop, hempty, hkept, is, a, b, houtput, ha, hb⟩ := h.2 ⟨hl, hr, hshape, hneed⟩
    exact ⟨hsize, s', hloop, hempty, hkept, is, _, houtput, (hreads is _).2 ⟨a, b, rfl, ha, hb⟩⟩

/-- **A goal** is right exactly when it fits. -/
theorem goal_iff (g : Goal k) {s : MathState} (hs : AtGoal k s) :
    (∃ s', goalMath g s = some s' ∧ GoalRight g s s') ↔ g.Fits := by
  cases g with
  | is x e hfresh =>
    have h := is_iff x e hfresh hs
    rw [goal_right_iff _ hs (goalIntostack1_is x e hfresh), Goal.Fits]
    constructor
    · rintro ⟨hsize, s', hloop, hempty, hkept, is, _, houtput, c, rfl, hc⟩
      obtain ⟨hfits, hneed⟩ := h.1 ⟨s', hloop, hempty, hkept, is, c, houtput, hc⟩
      exact ⟨hfits, hsize, hneed⟩
    · rintro ⟨hfits, hsize, hneed⟩
      obtain ⟨s', hloop, hempty, hkept, is, c, houtput, hc⟩ := h.2 ⟨hfits, hneed⟩
      exact ⟨hsize, s', hloop, hempty, hkept, is, _, houtput, c, rfl, hc⟩
  | compare c left right =>
    exact comparison_iff (.compare c left right) rfl (fun _ => rfl) (fun _ => rfl) rfl rfl
      (fun _ _ => Iff.rfl) hs
  | ifCompare c left right =>
    exact comparison_iff (.ifCompare c left right) rfl (fun _ => rfl) (fun _ => rfl) rfl rfl
      (fun _ _ => Iff.rfl) hs

theorem InPair.destination {iv : Int} (h : InPair k iv) (left right : Operand) :
    InPair k (MathCode.destination k left right iv).2 := by
  unfold MathCode.destination
  split
  · exact h
  · exact h
  · exact h.toggle

/-- After a comparison the next goal begins. -/
theorem AtGoal.next_pair {t : MathTerm} {i : Int → Int → Instr} {left right : Expr k}
    (ht : ∀ s, mathStep k t s = operate k (fun l r _ s => some (emit [i l r] s)) s)
    (heffect : t.effect k = -2) {s s' : MathState} (hs : AtGoal k s)
    (h : mathLoop k (right.pushed ++ left.pushed ++ [t]) s = some s') : AtGoal k s' := by
  obtain ⟨hl, hr⟩ := negFree_of_loop heffect hs h
  obtain ⟨-, rfl⟩ := (mathLoop_pair ht left right hs hl hr).1 h
  exact ⟨rfl, rfl, ((hs.iv.compile hr).compile hl).destination _ _⟩

/-- **After a goal** the next one begins. -/
theorem AtGoal.next {g : Goal k} {s s' : MathState} (hs : AtGoal k s)
    (h : goalMath g s = some s') : AtGoal k s' := by
  rw [goalMath, hs.stack1] at h
  obtain ⟨st, hst, hloop⟩ := Option.bind_eq_some_iff.1 h
  cases g with
  | is x e hfresh =>
    rw [goalIntostack1_is] at hst
    split_ifs at hst
    obtain rfl := Option.some.inj hst
    have hneg := negFree_of_is hs hloop
    obtain ⟨-, rfl⟩ := (mathLoop_is x e hs hneg).1 hloop
    exact ⟨rfl, rfl, (hs.iv.compile hneg).destination _ _⟩
  | compare c left right =>
    rw [goalIntostack1, goalIntostack1_pair] at hst
    split_ifs at hst
    obtain rfl := Option.some.inj hst
    exact hs.next_pair (i := fun a b => c.instr a b .fail)
      (fun s => by simp only [mathStep, mathCompare_val]) rfl hloop
  | ifCompare c left right =>
    rw [goalIntostack1, goalIntostack1_pair] at hst
    split_ifs at hst
    obtain rfl := Option.some.inj hst
    exact hs.next_pair (i := fun a b => c.instr a b .ifLabel)
      (fun s => by simp only [mathStep, mathCompare_val]) rfl hloop

/-- **The goals of a clause** are right exactly when every one of them fits. -/
theorem math_right_iff (k : ClauseType) (gs : List (Goal k)) :
    MathRight gs (.start k) ↔ ∀ g ∈ gs, g.Fits := by
  have hrun : ∀ s, AtGoal k s → (MathRight gs s ↔ ∀ g ∈ gs, g.Fits) := by
    induction gs with
    | nil =>
      intro s _
      simp [MathRight]
    | cons g gs ih =>
      intro s hs
      rw [MathRight, List.forall_mem_cons]
      constructor
      · rintro ⟨s', hgoal, hright, hrest⟩
        have hfits := (goal_iff g hs).1 ⟨s', hgoal, hright⟩
        exact ⟨hfits, (ih s' (hs.next hgoal)).1 hrest⟩
      · rintro ⟨hfits, hrest⟩
        obtain ⟨s', hgoal, hright⟩ := (goal_iff g hs).2 hfits
        exact ⟨s', hgoal, hright, (ih s' (hs.next hgoal)).2 hrest⟩
  exact hrun _ (atGoal_start k)

/-! ## Two products and a product -/

/-- The variable of the first cell behind the temporary ones. -/
def firstVariable : Variable .userEnd := ⟨8, 7, by decide⟩

/-- `(A * A + A * A) - A * A`. -/
def clashing : Expr .userEnd :=
  let a : Expr .userEnd := .var firstVariable (by decide)
  .binary .minus (.binary .plus (.binary .mult a a) (.binary .mult a a)) (.binary .mult a a)

/-- The left operand of the difference allocates twice, and overwrites the right one. -/
theorem not_mathRight_clashing :
    ¬ MathRight [.is ⟨8, 8, by decide⟩ clashing (by decide)] (.start .userEnd) := by
  rintro ⟨s', hgoal, hright, -⟩
  have hfits := (goal_iff _ (atGoal_start .userEnd)).1 ⟨s', hgoal, hright⟩
  have hshape := hfits.1.shape.2.2 rfl
  exact absurd hshape (by decide)

end Mlvm.MathCode
