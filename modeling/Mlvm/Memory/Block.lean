import Mlvm.Opcode.Layout
import Mlvm.Relocation.Scan
import Mathlib.Algebra.Order.Ring.Int

/-!
# The block of an imago

An imago has one block of memory with five segments: **procedure table, code, names, stack and
trail**. Pointers are held as word addresses in the control block and as machine words in the
segments, where the pointer to word `a` is the integer `4 * a` with the tag in its two low bits.
The distinction matters: adding `n` to an `int*` moves it by `n` words, adding `n` to an `int` that
holds a pointer moves it by `n` bytes.

The layouts say which words of the code and of the stack are pointers; the loops that relocate a
block read them the same way.
-/

namespace Mlvm

open Relocation

/-- The memory of the machine: words, and the bytes of the name tables. -/
structure Memory where
  word : Int → Int
  byte : Int → UInt8

/-- The pointers of `struct imago_control_block`. `name_base` and `name_top` are `char*` and count
bytes, the others count words. -/
structure Icb where
  expansions : Nat
  block_base : Int
  block_ceiling : Int
  name_base : Int
  name_top : Int
  proc_base : Int
  code_base : Int
  stack_base : Int
  pp : Int
  af : Int
  cp : Int
  cf : Int
  st : Int
  bb : Int
  b0 : Int
  gl : Int
  tt : Int
  deriving DecidableEq, Repr

/-! ## Tagged words -/

/-- `is_var`. -/
def isVarWord (v : Int) : Prop := v % 4 = 0

/-- `is_cst`. -/
def isCstWord (v : Int) : Prop := v % 4 = 3

/-- `is_fvl`. -/
def isFvlWord (v : Int) : Prop := v = -1

instance (v : Int) : Decidable (isVarWord v) := inferInstanceAs (Decidable (_ = _))

instance (v : Int) : Decidable (isCstWord v) := inferInstanceAs (Decidable (_ = _))

instance (v : Int) : Decidable (isFvlWord v) := inferInstanceAs (Decidable (_ = _))

/-! ## The layouts -/

/-- `adjust_code`: the words of the instruction at an address; `true` for a label. -/
def codeItem : Layout Int Bool := fun m p =>
  (opcodeType (m p)).bind fun ty =>
    if ty = .htab then
      if m (p + 1) < 0 then none
      else some ([false, false, true] ++ (List.replicate (m (p + 1)).toNat [false, true]).flatten)
    else some (false :: ty.adjusted)

/-- The scan of the stack: the mark of a double is followed by two words of data; every word that
is not a constant is a pointer. -/
def stackItem : Layout Int Bool := fun m p =>
  if isCstWord (m p) then
    if isFvlWord (m p) then some [false, false, false] else some [false]
  else some [true]

theorem local_codeItem : Local codeItem := by
  intro m m' p p' item h hsame
  rw [codeItem] at h ⊢
  obtain ⟨ty, hty, hitem⟩ := Option.bind_eq_some_iff.mp h
  have hat : ∀ i : Nat, i < item.length → m' (p' + i) = m (p + i) := hsame
  by_cases hhtab : ty = .htab
  · rw [if_pos hhtab] at hitem
    split_ifs at hitem with hneg
    obtain rfl := Option.some.inj hitem
    have hfirst : m' p' = m p := by simpa using hat 0 (by simp)
    have hsecond : m' (p' + 1) = m (p + 1) := hat 1 (by simp)
    rw [hfirst, hty, Option.bind_some, if_pos hhtab, hsecond, if_neg hneg]
  · rw [if_neg hhtab] at hitem
    obtain rfl := Option.some.inj hitem
    have hfirst : m' p' = m p := by simpa using hat 0 (by simp)
    rw [hfirst, hty, Option.bind_some, if_neg hhtab]

theorem local_stackItem : Local stackItem := by
  intro m m' p p' item h hsame
  have hnonempty : 0 < item.length := by
    rw [stackItem] at h
    split_ifs at h <;> obtain rfl := Option.some.inj h <;> simp
  have hfirst : m' p' = m p := by simpa using hsame 0 hnonempty
  rw [stackItem] at h ⊢
  rwa [hfirst]

/-! ## Well-formed blocks -/

/-- The part of a block that holds the program: `n` entries of a functor and an address, code whose
labels are marked in `code`, and names. -/
structure Icb.CodeFormed (ip : Icb) (m : Memory) (n : Nat) (code : List Bool) : Prop where
  block : ip.proc_base = ip.block_base
  procs : ip.code_base = ip.proc_base + 2 * n
  functor : ∀ k < n, isCstWord (m.word (ip.proc_base + 2 * (k : Nat)))
  entry : ∀ k < n, isVarWord (m.word (ip.proc_base + 2 * (k : Nat) + 1))
  instrs : Tiled codeItem m.word ip.code_base code
  name_base : ip.name_base = 4 * (ip.code_base + code.length)
  names : ip.name_base ≤ ip.name_top
  inside : ip.name_top ≤ 4 * ip.block_ceiling

/-- The whole block: besides the program a stack whose pointers are marked in `stack`, and a trail
of references and generation lines. -/
structure Icb.Formed (ip : Icb) (m : Memory) (n : Nat) (code stack : List Bool) : Prop
    extends ip.CodeFormed m n code where
  name_top : ip.name_top ≤ 4 * ip.stack_base
  cells : Tiled stackItem m.word ip.stack_base stack
  st : ip.st + 1 = ip.stack_base + stack.length
  free : ip.st < ip.tt
  tt : ip.tt < ip.block_ceiling
  trail : ∀ x, ip.tt < x → x < ip.block_ceiling → m.word x % 4 = 0 ∨ m.word x % 4 = 2


/-! ## A block with one procedure -/

/-- A worker whose procedure begins at word 106, with one unbound cell on the stack. -/
def workerMemory : Memory where
  word x := [8389487, 424, 133, 424, 135, 8389487, 6, 0, 432, 0, 0, 434].getD (x - 100).toNat 0
  byte x := [91, 93].getD (x - 428).toNat 0

def worker : Icb where
  expansions := 0
  block_base := 100
  block_ceiling := 112
  name_base := 428
  name_top := 431
  proc_base := 100
  code_base := 102
  stack_base := 108
  pp := 102
  af := 108
  cp := 102
  cf := 108
  st := 108
  bb := 108
  b0 := 108
  gl := 108
  tt := 110

def workerCode : List Bool := [false, true, false, false, false]

theorem workerCode_tiled : Tiled codeItem workerMemory.word 102 workerCode := by
  refine .cons (rfl : codeItem workerMemory.word 102 = some [false, true]) (List.cons_ne_nil _ _) ?_
  refine .cons (rfl : codeItem workerMemory.word 104 = some [false, false])
    (List.cons_ne_nil _ _) ?_
  exact .cons (rfl : codeItem workerMemory.word 106 = some [false]) (List.cons_ne_nil _ _) (.nil _)

theorem workerStack_tiled : Tiled stackItem workerMemory.word 108 [true] :=
  .cons (rfl : stackItem workerMemory.word 108 = some [true]) (List.cons_ne_nil _ _) (.nil _)

theorem worker_formed : worker.Formed workerMemory 1 workerCode [true] where
  block := rfl
  procs := rfl
  functor k hk := by
    obtain rfl := Nat.lt_one_iff.mp hk
    decide
  entry k hk := by
    obtain rfl := Nat.lt_one_iff.mp hk
    decide
  instrs := workerCode_tiled
  name_base := rfl
  names := by decide
  inside := by decide
  name_top := by decide
  cells := workerStack_tiled
  st := rfl
  free := by decide
  tt := by decide
  trail x hx hx' := by
    have hslot : x = 111 := by
      change 110 < x at hx
      change x < 112 at hx'
      omega
    subst hslot
    decide

end Mlvm
