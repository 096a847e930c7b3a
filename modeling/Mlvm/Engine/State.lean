import Mlvm.Opcode.Word
import Mathlib.Logic.Function.Basic

/-!
# The state of the engine

The registers of the engine with the two ends of an imago's block: the stack, which grows up, and
the trail, which grows down from the block's ceiling.

**Two stores.** The stack cells and the trail slots are separate functions of the address, which is
what the machine does as long as `st < tt`.

**Labels.** The labels of the interpreter loop are data, so that one step of the machine is one pass
through the code between two labels.
-/

namespace Mlvm

/-- Why the engine gave the imago back to the scheduler. -/
inductive Status where
  | ready
  | backtrack
  | expansion
  | collection
  | waiting
  | terminate
  | error
  deriving DecidableEq, Repr, Inhabited

/-- The instruction that started a general unification. -/
inductive UnifyOp where
  /-- `getval` and `cgetval`, through the label `UNIFY`. -/
  | getval
  /-- `unifiable`, `nonunifiable` and `tryunifiable`. -/
  | unifiable
  deriving DecidableEq, Repr, Inhabited

/-- The labels of the interpreter loop. -/
inductive Label where
  | control
  /-- The loop that dereferences `ax`; `bx` is next when the flag is set. -/
  | derefAx (both : Bool)
  | derefBx
  /-- The rest of an instruction, after its operands are dereferenced. -/
  | exec
  | axdef (op : UnifyOp)
  | bxdef (op : UnifyOp)
  /-- After a general unification that leaves its outcome in `dx`. -/
  | cleanUp
  /-- The loop of the term comparison. -/
  | compare
  /-- After a term comparison that leaves its outcome in `dx`. -/
  | compared
  /-- The search for a generation line on the trail. -/
  | gline
  /-- The probing loop of a hash table. -/
  | probe
  /-- The loop of `detrail`, before the rest of `retry` and `trust`. -/
  | detrail
  | backtrack
  | contextSwitch
  /-- A machine trap: the process is killed. -/
  | trap
  deriving DecidableEq, Repr, Inhabited

/-- The registers, the stack and the trail. -/
structure Engine where
  mem : Int → Word
  trl : Int → Word
  stack_base : Int
  pp : Int
  af : Int
  cf : Int
  st : Int
  gp : Int
  ax : Word
  bx : Word
  cx : Int
  dx : Word
  bb : Int
  b0 : Int
  gl : Int
  tt : Int
  nl : Int
  bt : Int
  status : Status
  /-- `plt->nl`: the supplemental information of a context switch. -/
  info : Int
  lbl : Label
  deriving Inhabited

namespace Engine

/-- `*a = w`. -/
def assign (e : Engine) (a : Int) (w : Word) : Engine :=
  { e with mem := Function.update e.mem a w }

/-- `*(++st) = w`. -/
def push (e : Engine) (w : Word) : Engine :=
  { e with st := e.st + 1, mem := Function.update e.mem (e.st + 1) w }

/-- `*tt-- = w`. -/
def record (e : Engine) (w : Word) : Engine :=
  { e with trl := Function.update e.trl e.tt w, tt := e.tt - 1 }

/-- Record a cell at or below the generation line. -/
def trail (e : Engine) (a : Int) : Engine :=
  if a ≤ e.gl then e.record (.ref a) else e

/-- Record a cell below the choice frame. -/
def bbtrail (e : Engine) (a : Int) : Engine :=
  if a < e.bb then e.record (.ref a) else e

/-- Record the generation line. -/
def newGeneration (e : Engine) : Engine := e.record (.str e.gl)

/-- Bind the cell `a` to `w`: constants are recorded against the choice frame, all other words
against the generation line. -/
def bind (e : Engine) (a : Int) (w : Word) : Engine :=
  if w.isCst then (e.assign a w).bbtrail a else (e.assign a w).trail a

/-- `cell(n)`. -/
def cell (e : Engine) (n : Int) : Int := e.af - n

/-- `next(n)`. -/
def next (e : Engine) (n : Int) : Engine := { e with pp := e.pp + n, lbl := .control }

/-- `jump(a)`. -/
def jump (e : Engine) (a : Int) : Engine := { e with pp := a, lbl := .control }

/-- `context_switch(s, i)`. -/
def contextSwitch (e : Engine) (s : Status) (i : Int) : Engine :=
  { e with status := s, info := i, lbl := .contextSwitch }

/-- Take the label `l`. -/
def goto (e : Engine) (l : Label) : Engine := { e with lbl := l }

/-! ## Reads after writes -/

variable (e : Engine)

theorem assign_mem_self (a : Int) (w : Word) : (e.assign a w).mem a = w := by
  simp only [assign, Function.update_self]

theorem assign_mem_of_ne {a b : Int} (w : Word) (h : b ≠ a) : (e.assign a w).mem b = e.mem b := by
  simp only [assign, Function.update_of_ne h]

theorem push_mem_self (w : Word) : (e.push w).mem (e.st + 1) = w := by
  simp only [push, Function.update_self]

theorem push_mem_of_ne {a : Int} (w : Word) (h : a ≠ e.st + 1) : (e.push w).mem a = e.mem a := by
  simp only [push, Function.update_of_ne h]

@[simp] theorem push_st (w : Word) : (e.push w).st = e.st + 1 := rfl

theorem record_trl_self (w : Word) : (e.record w).trl e.tt = w := by
  simp only [record, Function.update_self]

theorem record_trl_of_ne {t : Int} (w : Word) (h : t ≠ e.tt) : (e.record w).trl t = e.trl t := by
  simp only [record, Function.update_of_ne h]

@[simp] theorem record_tt (w : Word) : (e.record w).tt = e.tt - 1 := rfl

theorem bind_mem (a : Int) (w : Word) : (e.bind a w).mem = Function.update e.mem a w := by
  unfold bind bbtrail trail
  split_ifs <;> rfl

theorem bind_st (a : Int) (w : Word) : (e.bind a w).st = e.st := by
  unfold bind bbtrail trail
  split_ifs <;> rfl

theorem bind_cx (a : Int) (w : Word) : (e.bind a w).cx = e.cx := by
  unfold bind bbtrail trail
  split_ifs <;> rfl

theorem bind_dx (a : Int) (w : Word) : (e.bind a w).dx = e.dx := by
  unfold bind bbtrail trail
  split_ifs <;> rfl

end Engine

end Mlvm
