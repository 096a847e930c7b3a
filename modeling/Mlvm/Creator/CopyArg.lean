import Mlvm.Creator.NameTable
import Mlvm.Opcode.Word

/-!
# Copying an argument into another imago

`arg_size` and `copy_arg` of `creator.c`.

**`copyArg`** writes the term to the word above the stack of the child and scans the words of the
copy from there on. A word that is scanned still points into the parent; what it points to is
written behind the copy, to be scanned later, and the word itself is settled. Names are looked up in
the name table of the child, which may move the copy up.

**`argSize`** goes through the term with a stack of its own above the stack of the parent.

Loops that need not end have a bound on their rounds. A name that would run over the stack of the
child has no result.
-/

namespace Mlvm

/-! ## Words in memory -/

/-- The word with these bits. -/
def Word.ofBits (v : Int) : Word :=
  if v % 4 = 0 then .ref (v / 4)
  else if v % 4 = 1 then .lis (v / 4)
  else if v % 4 = 2 then .str (v / 4)
  else .cst (v / 4)

@[simp] theorem Word.ofBits_bits (w : Word) : Word.ofBits w.bits = w := by
  have hdiv : ∀ a r : Int, 0 ≤ r → r < 4 → (4 * a + r) / 4 = a ∧ (4 * a + r) % 4 = r := by
    intro a r hr hr'
    omega
  cases w with
  | ref a => simp [bits, ofBits]
  | lis a => simp [bits, ofBits, hdiv a 1 (by decide) (by decide)]
  | str a => simp [bits, ofBits, hdiv a 2 (by decide) (by decide)]
  | cst a => simp [bits, ofBits, hdiv a 3 (by decide) (by decide)]

@[simp] theorem Word.bits_ofBits (v : Int) : (Word.ofBits v).bits = v := by
  rw [ofBits]
  split_ifs <;> simp only [bits] <;> omega

/-- The word at an address. -/
def Memory.read (m : Memory) (a : Int) : Word := .ofBits (m.word a)

def Memory.write (m : Memory) (a : Int) (w : Word) : Memory :=
  { m with word := Function.update m.word a w.bits }

@[simp] theorem Memory.read_write_self (m : Memory) (a : Int) (w : Word) :
    (m.write a w).read a = w := by
  simp [read, write]

theorem Memory.read_write_of_ne (m : Memory) {a b : Int} (h : b ≠ a) (w : Word) :
    (m.write a w).read b = m.read b := by
  exact congrArg Word.ofBits (Function.update_of_ne h ..)

namespace Creator

/-- `con_nil`. -/
def conNil : Word := .makeCon ASCII_SIZE

/-- `IMAGO_EXPANSION`. -/
def IMAGO_EXPANSION : Int := 3

/-! ## Reading the term -/

/-- `deref`: the word at the end of a chain of references. -/
def deref (m : Memory) : ℕ → Word → Option Word
  | 0, _ => none
  | n + 1, .ref a => if m.read a = .ref a then some (.ref a) else deref m n (m.read a)
  | _ + 1, w => some w

/-- `derefstr`, for the address of a structure. -/
def derefstr (m : Memory) : ℕ → Int → Option Int
  | 0, _ => none
  | n + 1, p =>
    match m.read p with
    | .str q => if q = p then some p else derefstr m n q
    | _ => some p

/-- The string that begins at an address. -/
def nameAt (byte : Int → UInt8) : ℕ → Int → Option (List UInt8)
  | 0, _ => none
  | n + 1, a => if byte a = 0 then some [] else (nameAt byte n (a + 1)).map (byte a :: ·)

/-! ## The size of a term -/

/-- `*stk++ = *(addr(v) + i)`, for `n` words from `p` on. -/
def stackCells : ℕ → Int → Int → Memory → Memory
  | 0, _, _, m => m
  | n + 1, p, stk, m => stackCells n (p + 1) (stk + 1) (m.write stk (m.read p))

/-- The cases of one round, for the term at the end of the references; `loop` is what follows. -/
def argSizeRound (loop : Int → Int → Memory → Option (Int × Memory)) (fuel : ℕ) (stk size : Int)
    (m : Memory) : Word → Option (Int × Memory)
  | .ref _ => loop stk (size + 1) m
  | .cst c => loop stk (if (Word.cst c).isInt then size + 1 else size + 2) m
  | .lis p => loop (stk + 2) (size + 1) (stackCells 2 p stk m)
  | .str p =>
    if m.read p = .fvlTag then loop stk (size + 4) m
    else
      (derefstr m fuel p).bind fun v =>
        loop (stk + (m.read v).arity) (size + 2) (stackCells (m.read v).arity (v + 1) stk m)

/-- `while (stk > btk)`: the size, and the memory with what the stack has left in it. -/
def argSizeLoop (btk : Int) : ℕ → Int → Int → Memory → Option (Int × Memory)
  | 0, _, _, _ => none
  | n + 1, stk, size, m =>
    if btk < stk then
      (deref m n (m.read (stk - 1))).bind (argSizeRound (argSizeLoop btk n) n (stk - 1) size m)
    else some (size, m)

/-- `arg_size`, for a parent whose stack ends at `st`. -/
def argSize (fuel : ℕ) (term : Word) (st : Int) (m : Memory) : Option (Int × Memory) :=
  argSizeLoop (st + 1) fuel (st + 2) 0 (m.write (st + 1) term)

/-! ## Copying -/

/-- The copy under construction: the words from `skbot` to `sktop` are still to be scanned. `high`
is ghost: the highest word that has been written. -/
structure Copy where
  child : Icb
  mem : Memory
  nl : Int
  skbot : Int
  sktop : Int
  high : Int

namespace Copy

def set (s : Copy) (a : Int) (w : Word) : Copy :=
  { s with mem := s.mem.write a w, high := max s.high a }

/-- `*skbot++ = w`. -/
def settle (s : Copy) (w : Word) : Copy := { s.set s.skbot w with skbot := s.skbot + 1 }

/-- `*sktop++ = w`. -/
def push (s : Copy) (w : Word) : Copy := { s.set s.sktop w with sktop := s.sktop + 1 }

/-- `*sktop++ = *(addr(root) + con)`, for `n` words from `p` on. -/
def pushCells : ℕ → Int → Copy → Copy
  | 0, _, s => s
  | n + 1, p, s => pushCells n (p + 1) (s.push (s.mem.read p))

/-- `search_index` and what follows, for the name at `pcon`: the stack may have been moved. -/
def intern (fuel : ℕ) (pcon : List UInt8) (arity : ℕ) (s : Copy) : Option Copy :=
  (searchIndex fuel pcon s.child (s.sktop - 1) s.mem).bind fun (con, nl, child, mem) =>
    if child.name_top ≤ 4 * child.stack_base then
      some (settle { child, mem, nl, skbot := s.skbot + nl, sktop := s.sktop + nl,
                     high := max s.high (s.sktop + nl - 1) } (.makeFun (con + ASCII_SIZE) arity))
    else none

/-- One constant: an integer, a name, or the mark of a double. -/
def scanConst (fuel : ℕ) (name_base : Int) (root : Word) (s : Copy) : Option Copy :=
  if root.isInt ∨ root = conNil then some (s.settle root)
  else if root = .fvlTag then some { s with skbot := s.skbot + 3 }
  else if root.funValue < ASCII_SIZE then some (s.settle root)
  else (nameAt s.mem.byte fuel (name_base + (root.funValue - ASCII_SIZE))).bind fun pcon =>
    s.intern fuel pcon root.arity

/-- One structure or double. -/
def scanStr (fuel : ℕ) (p : Int) (s : Copy) : Option Copy :=
  let s₁ := s.settle (.str s.sktop)
  (derefstr s₁.mem fuel p).map fun q =>
    if s₁.mem.read q = .fvlTag then pushCells 2 (q + 1) (s₁.push .fvlTag)
    else pushCells ((s₁.mem.read q).arity + 1) q s₁

/-- The cases of one round, for the word at the end of the references. -/
def scanRoot (fuel : ℕ) (name_base : Int) (s : Copy) : Word → Option Copy
  | .ref _ => some (s.settle (.ref s.skbot))
  | .cst c => s.scanConst fuel name_base (.cst c)
  | .lis p => some (pushCells 2 p (s.settle (.lis s.sktop)))
  | .str p => s.scanStr fuel p

/-- One round of `while (skbot < sktop)`. -/
def scan (fuel : ℕ) (name_base : Int) (s : Copy) : Option Copy :=
  (deref s.mem fuel (s.mem.read s.skbot)).bind (s.scanRoot fuel name_base)

/-- `while (skbot < sktop)`: `none` for `NULL`, or the new top of the stack. -/
def loop (name_base ftt : Int) : ℕ → Copy → Option (Option Int × Copy)
  | 0, _ => none
  | n + 1, s =>
    if s.skbot < s.sktop then
      if ftt ≤ s.sktop then some (none, { s with nl := IMAGO_EXPANSION })
      else (s.scan n name_base).bind (loop name_base ftt n)
    else some (some s.sktop, s.set s.sktop (s.mem.read (s.child.st + 1)))

end Copy

/-- `copy_arg`. -/
def copyArg (fuel : ℕ) (proot : Word) (name_base : Int) (child : Icb) (m : Memory) :
    Option (Option Int × Copy) :=
  Copy.loop name_base (child.tt - 6) fuel
    { child, mem := m.write (child.st + 1) proot, nl := 0, skbot := child.st + 1,
      sktop := child.st + 2, high := child.st + 1 }

end Creator

end Mlvm
