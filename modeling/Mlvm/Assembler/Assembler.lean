import Mlvm.Opcode.Layout
import Mlvm.Opcode.Word
import Mathlib.Data.Nat.Find
import Mathlib.Data.Nat.Prime.Basic
import Mathlib.Data.Nat.Prime.Infinite
import Mathlib.Logic.Function.Basic

/-!
# The assembler

The translation of a program into byte code (`assembler.cc`, `hash_table.cc`). The text is taken as
the tokens the scanner makes of it: lines with the labels in front of them, an opcode and its
operands.

**Labels.** A label that is not yet defined leaves a *request* for the cell that refers to it; its
definition fixes all requests. **Hash tables** are collected first and then written, so that the
request of an undefined label in a table is for the first cell of the table.

Whatever makes the assembler exit with an error gives `none`.
-/

namespace Mlvm

/-- A character string. -/
abbrev Name := List UInt8

/-- A `char`, which is signed. -/
def charValue (c : UInt8) : Int := if c.toNat < 128 then c.toNat else c.toNat - 256

def MAX_NAMES : Nat := 40000

def MAX_LABELS : Nat := 40000

def MAX_CODE : Nat := 80000

def MAX_HASH_ENTRIES : Nat := 2000

def MAX_PROC_ENTRIES : Nat := 2000

/-- A node of the label table: a label with its place in the code, or, with the place negated, a
cell that waits for it. -/
structure LabelNode where
  name : Name
  val : Int
  deriving DecidableEq, Repr

/-- The assembler. `names` are the strings of the name table in their order, `labelPos` the bytes
of labels stored so far. -/
structure Assembler where
  names : List Name
  labels : List LabelNode
  labelPos : Nat
  code : Int → Int
  cc : Nat
  procs : List (Int × Int)
  imago : Int

/-! ## Names -/

/-- The bytes of a name table, every name with the NUL at its end. -/
def namesSize (names : List Name) : Nat := (names.map fun n => n.length + 1).sum

/-- Where a name begins. -/
def offsetOf : List Name → Name → Option Nat
  | [], _ => none
  | n :: ns, s => if n = s then some 0 else (offsetOf ns s).map (· + (n.length + 1))

namespace Assembler

/-- `NameHashTable::lookup`, which adds a new name at the end. -/
def lookupName (a : Assembler) (s : Name) : Option (Assembler × Int) :=
  match offsetOf a.names s with
  | some pos => some (a, pos)
  | none =>
      if MAX_NAMES < namesSize a.names + (s.length + 1) then none
      else some ({ a with names := a.names ++ [s] }, namesSize a.names)

/-- `get_con`: a single character stands for itself, any other constant for its place in the name
table. -/
def getCon (a : Assembler) : Name → Option (Assembler × Int)
  | [] => some (a, (Word.makeCon 0).bits)
  | [c] => some (a, (Word.makeCon (charValue c)).bits)
  | s => (a.lookupName s).map fun (a, loc) => (a, (Word.makeCon (loc + ASCII_SIZE)).bits)

/-- `make_fun` on machine integers. -/
def rawFun (f a : Int) : Int :=
  (BitVec.ofInt 32 a <<< 23 ||| BitVec.ofInt 32 f <<< 3 ||| 7#32).toInt

/-- `get_fun`. -/
def getFun (a : Assembler) : Name → Nat → Option (Assembler × Int)
  | [c], arity => some (a, rawFun (charValue c) arity)
  | s, arity => (a.lookupName s).map fun (a, loc) => (a, rawFun (loc + ASCII_SIZE) arity)

/-! ## Labels and code -/

/-- The place of a label, once it is defined. -/
def labelAt (a : Assembler) (l : Name) : Option Int :=
  (a.labels.find? fun n => n.name = l ∧ 0 ≤ n.val).map LabelNode.val

/-- `LabelHashTable::lookup` and `get_label`: an undefined label gives 0, and a request. -/
def getLabel (a : Assembler) (l : Name) : Option (Assembler × Int) :=
  match a.labelAt l with
  | some loc => some (a, loc)
  | none =>
      if MAX_LABELS < a.labelPos + (l.length + 1) then none
      else some ({ a with labels := ⟨l, -a.cc⟩ :: a.labels,
                          labelPos := a.labelPos + (l.length + 1) }, 0)

/-- `pp[-val] = loc` for every request of the label. -/
def fixRequests (l : Name) (loc : Int) (code : Int → Int) : List LabelNode → Int → Int
  | [] => code
  | n :: ns =>
      fixRequests l loc (if n.name = l then Function.update code (-n.val) loc else code) ns

/-- `LabelHashTable::insert`, at the place `cc`. -/
def insertLabel (a : Assembler) (l : Name) : Option Assembler :=
  if MAX_LABELS < a.labelPos + (l.length + 1) ∨ (a.labelAt l).isSome then none
  else some { a with
    code := fixRequests l a.cc a.code a.labels
    labels := ⟨l, a.cc⟩ :: a.labels.filter fun n => n.name ≠ l
    labelPos := a.labelPos + (l.length + 1) }

def insertLabels (a : Assembler) : List Name → Option Assembler
  | [] => some a
  | l :: ls => (a.insertLabel l).bind (insertLabels · ls)

/-- `put_code`. -/
def putCode (a : Assembler) (w : Int) : Option Assembler :=
  if MAX_CODE ≤ a.cc then none
  else some { a with code := Function.update a.code a.cc w, cc := a.cc + 1 }

def putCodes (a : Assembler) : List Int → Option Assembler
  | [] => some a
  | w :: ws => (a.putCode w).bind (putCodes · ws)

/-- `put_proc_entry`; the procedure begins after the two words of the directive. -/
def putProcEntry (a : Assembler) (t : Int) : Option Assembler :=
  if MAX_CODE ≤ a.cc ∨ MAX_PROC_ENTRIES ≤ a.procs.length then none
  else
    (putCode { a with procs := a.procs ++ [(t, (a.cc : Int) + 1)] } t).map fun b : Assembler =>
      if t = b.imago then { b with code := Function.update b.code 1 b.cc } else b

/-! ## Hash tables -/

theorem exists_stop (s : Nat) :
    ∃ p ≥ s, p % 2 = s % 2 ∧ ∀ i, 3 ≤ i → i < p / 2 → p % i ≠ 0 := by
  obtain ⟨q, hq, hprime⟩ := Nat.exists_infinite_primes (s + 3)
  rcases Nat.mod_two_eq_zero_or_one s with heven | hodd
  · refine ⟨2 * q, by omega, by omega, fun i hi hiq hmod => ?_⟩
    have hdvd : i ∣ 2 * q := Nat.dvd_of_mod_eq_zero hmod
    have hcop : Nat.Coprime i q := by
      rw [Nat.coprime_comm, Nat.Prime.coprime_iff_not_dvd hprime]
      exact Nat.not_dvd_of_pos_of_lt (by omega) (by omega)
    have htwo := Nat.le_of_dvd (by omega) (hcop.dvd_of_dvd_mul_right hdvd)
    omega
  · have hqodd := hprime.eq_two_or_odd
    refine ⟨q, by omega, by omega, fun i hi hiq hmod => ?_⟩
    rcases (Nat.dvd_prime hprime).mp (Nat.dvd_of_mod_eq_zero hmod) with h | h <;> omega

/-- Where the search for a prime stops at the latest. -/
def stopAt (s : Nat) : Nat := Nat.find (exists_stop s)

theorem stopAt_add_two {s i : Nat} (hi : 3 ≤ i) (his : i < s / 2) (hmod : s % i = 0) :
    stopAt (s + 2) - (s + 2) < stopAt s - s := by
  obtain ⟨hle, hpar, hno⟩ := Nat.find_spec (exists_stop s)
  have hne : stopAt s ≠ s := fun h => hno i hi (by rwa [← stopAt, h]) (by rwa [← stopAt, h])
  have hge : s + 2 ≤ stopAt s := by
    rw [← stopAt] at hle hpar
    omega
  have hnext : stopAt (s + 2) ≤ stopAt s :=
    Nat.find_min' _ ⟨hge, by rw [← stopAt] at hpar; omega, hno⟩
  omega

/-- The loop of `get_prime`: after a divisor is found, the next number is tried from 5 on. -/
def getPrimeLoop (s i : Nat) (hi : 3 ≤ i) : Nat :=
  if _h : i < s / 2 then
    if _hmod : s % i = 0 then getPrimeLoop (s + 2) 5 (by omega)
    else getPrimeLoop s (i + 2) (by omega)
  else s
termination_by (stopAt s - s, s - i)
decreasing_by
  · exact Prod.Lex.left _ _ (stopAt_add_two hi _h _hmod)
  · exact Prod.Lex.right _ (by omega)

/-- `get_prime`: a number larger than the number of entries. -/
def getPrime (s : Nat) : Nat :=
  getPrimeLoop (if s % 2 = 1 then s + 8 else s + 9) 3 (Nat.le_refl 3)

theorem le_getPrimeLoop (s i : Nat) (hi : 3 ≤ i) : s ≤ getPrimeLoop s i hi := by
  fun_induction getPrimeLoop s i hi with
  | case1 s i hi h hmod ih => omega
  | case2 s i hi h hmod ih => exact ih
  | case3 s i hi h => exact Nat.le_refl s

theorem lt_getPrime (s : Nat) : s < getPrime s := by
  refine Nat.lt_of_lt_of_le ?_ (le_getPrimeLoop _ 3 (Nat.le_refl 3))
  split_ifs <;> omega

/-- A hash table in the source: constants with their labels, and the label for variables. -/
structure TableSource where
  entries : List (Name × Name)
  var : Name

/-- The pairs of a hash table, as `get_table` reads them into `table_base`. -/
def getEntries (a : Assembler) : List (Name × Name) → Option (Assembler × List (Int × Int))
  | [] => some (a, [])
  | (c, l) :: es => do
      let (a, term) ← a.getCon c
      let (a, loc) ← a.getLabel l
      let (a, pairs) ← getEntries a es
      return (a, (term, loc) :: pairs)

/-- `get_table`. -/
def getTable (a : Assembler) (t : TableSource) : Option (Assembler × List (Int × Int) × Int) :=
  if MAX_HASH_ENTRIES ≤ t.entries.length then none
  else do
    let (a, pairs) ← a.getEntries t.entries
    let (a, loc) ← a.getLabel t.var
    return (a, pairs, loc)

/-- The loop of `put_hash_code`, with the number of probes left; `addr` has the sign of the key. -/
def putHashLoop (code : Int → Int) (pc : Int) (prime : Nat) (e : Int × Int) :
    Nat → Int → Int → Int
  | 0, _ => code
  | n + 1, addr =>
      if code (pc + addr * 2) = 0 then
        Function.update (Function.update code (pc + addr * 2) e.1) (pc + addr * 2 + 1) e.2
      else if code (pc + addr * 2) = e.1 then code
      else putHashLoop code pc prime e n ((addr + 1).tmod prime)

/-- `put_hash_code`. -/
def putHashCode (pc : Int) (prime : Nat) (code : Int → Int) (e : Int × Int) : Int → Int :=
  putHashLoop code pc prime e prime (e.1.tmod prime)

/-- The empty entries of a table. -/
def emptyEntries (prime : Nat) (var : Int) : List Int :=
  (List.replicate prime [0, var]).flatten

/-- `put_table`. -/
def putTable (a : Assembler) (pairs : List (Int × Int)) (var : Int) : Option Assembler := do
  let prime := getPrime pairs.length
  let b ← a.putCodes (prime :: var :: emptyEntries prime var)
  return { b with code := pairs.foldl (putHashCode ((a.cc : Int) + 2) prime) b.code }

/-! ## Lines -/

/-- An operand in the source. -/
inductive Operand where
  | num (n : Int)
  | label (l : Name)
  | con (s : Name)
  | functor (s : Name) (arity : Nat)
  | builtin (s : Name)
  | int (n : Int)
  | procedure (s : Name) (arity : Nat)
  | float (w₁ w₂ : Int)

/-- What follows an opcode. -/
inductive Operands where
  | plain (os : List Operand)
  | table (t : TableSource)

/-- A line: the labels in front of it, the opcode and the operands. -/
structure Line where
  labels : List Name
  op : Nat
  operands : Operands

/-- One operand of the kind the opcode asks for; `builtins` gives the index of a builtin the imago
may use. -/
def putOperand (builtins : Name → Option Nat) (a : Assembler) :
    OperandKind → Operand → Option Assembler
  | .num, .num n => a.putCode n
  | .label, .label l => (a.getLabel l).bind fun (a, loc) => a.putCode loc
  | .con, .con s => (a.getCon s).bind fun (a, w) => a.putCode w
  | .functor, .functor s arity => (a.getFun s arity).bind fun (a, w) => a.putCode w
  | .builtin, .builtin s => (builtins s).bind fun n => a.putCode n
  | .int, .int n => a.putCode (Word.makeInt n).bits
  | .procedure, .procedure s arity => (a.getFun s arity).bind fun (a, w) => a.putProcEntry w
  | .float, .float w₁ w₂ => a.putCodes [w₁, w₂]
  | _, _ => none

def putOperands (builtins : Name → Option Nat) (a : Assembler) :
    List OperandKind → List Operand → Option Assembler
  | [], [] => some a
  | k :: ks, o :: os => (a.putOperand builtins k o).bind (putOperands builtins · ks os)
  | _, _ => none

/-- A line of the program, after the imago directive. -/
def putLine (builtins : Name → Option Nat) (a : Assembler) (l : Line) : Option Assembler := do
  let a ← a.insertLabels l.labels
  let ty ← opcodeType l.op
  if ty.isImago then none
  else
    let a ← a.putCode l.op
    match l.operands with
    | .plain os => if ty = .htab then none else a.putOperands builtins ty.operands os
    | .table t =>
        if ty = .htab then (a.getTable t).bind fun (a, pairs, var) => a.putTable pairs var
        else none

def putLines (builtins : Name → Option Nat) (a : Assembler) : List Line → Option Assembler
  | [] => some a
  | l :: ls => (a.putLine builtins l).bind (putLines builtins · ls)

/-- A program: the imago directive with the labels in front of it and the entry procedure, and the
other lines. -/
structure Source where
  labels : List Name
  op : Nat
  entry : Name
  arity : Nat
  lines : List Line

/-- An assembler before the first line; `[]` is the first name. -/
def start : Assembler where
  names := [[91, 93]]
  labels := []
  labelPos := 0
  code := fun _ => 0
  cc := 0
  procs := []
  imago := 0

/-- `translate`. -/
def translate (builtins : Name → Option Nat) (p : Source) : Option Assembler := do
  let a ← start.insertLabels p.labels
  let ty ← opcodeType p.op
  if ty.isImago then
    let a ← a.putCodes [(p.op : Int), 0]
    let (a, imago) ← a.getFun p.entry p.arity
    { a with imago := imago }.putLines builtins p.lines
  else none

/-! ## The file -/

/-- The byte code file. -/
structure Object where
  type : Nat
  names : List UInt8
  procs : List (Int × Int)
  code : List Int
  deriving DecidableEq, Repr

/-- `codegen`: the file is written when there is an entry procedure and no request is left. The NUL
at the end of a name becomes a newline. -/
def codegen (a : Assembler) (type : Nat) : Option Object :=
  if a.code 1 = 0 ∨ a.labels.any (fun n => n.val < 0) then none
  else some {
    type := type
    names := a.names.flatMap fun n => n ++ [10]
    procs := a.procs
    code := (List.range a.cc).map fun i : Nat => a.code i }

end Assembler

/-- **The assembler**: from the tokens of a program to its file. -/
def assemble (builtins : Name → Option Nat) (p : Assembler.Source) : Option Assembler.Object :=
  (Assembler.translate builtins p).bind fun a => a.codegen (p.op - 132)

end Mlvm
