import Mlvm.Opcode.Word

/-!
# Instructions

The instructions of the machine with their operands, as the loader leaves them in the code area.
Instructions that differ only in how often they do one thing, or in whether the location is an index
or the one after the previous location, are one constructor with a parameter; the mnemonics that the
source gives them are definitions below.
-/

namespace Mlvm

/-- Where a `get` or `set` instruction works: an indexed cell, or the cell after `gp`. -/
inductive Loc where
  | cell (n : Int)
  | next
  deriving DecidableEq, Repr

/-- The words of the opcode and the index. -/
def Loc.size : Loc → Int
  | cell _ => 2
  | next => 1

/-- What a `set` instruction stores. -/
inductive Source where
  | var
  | con (w : Word)
  | val (n : Int)
  | float (w₁ w₂ : Word)
  | list (n : Int)
  | str (n : Int)
  deriving DecidableEq, Repr

/-- The words of the operands of a `set` instruction. -/
def Source.size : Source → Int
  | var => 0
  | float _ _ => 2
  | _ => 1

/-- Arithmetic on integers and doubles. -/
inductive AriOp where
  | add
  | sub
  | mul
  | div
  deriving DecidableEq, Repr

/-- Arithmetic on integers only. -/
inductive IntOp where
  | mod
  | and
  | or
  | eor
  | rshift
  | lshift
  deriving DecidableEq, Repr

inductive CmpOp where
  | eq
  | ne
  | lt
  | le
  | gt
  | ge
  deriving DecidableEq, Repr

/-- The type tests. -/
inductive TypeTest where
  | isatom
  | isatomic
  | isfloat
  | isinteger
  | isnumber
  | isnonvar
  | isvar
  | islist
  | isstr
  | iscompound
  | isnil
  | iszero
  deriving DecidableEq, Repr

/-- A hash table: its prime, the label for variables, and the pairs of key and label. -/
structure HashTable where
  prime : Int
  varBranch : Int
  entry : Int → Int × Int

/-- The instructions. -/
inductive Instr where
  | noop
  | alloa (n₁ n₂ : Nat)
  | allod (n₁ n₂ : Nat)
  | call (e : Int)
  | lastcall (e : Int)
  | chaincall (e : Int)
  | proceed
  | return_
  /-- `try` and `shallowtry`. -/
  | try_ (n : Nat) (e : Int)
  | retry (n : Nat) (e : Int)
  | trust
  | neckcut
  | deeplabel (n : Int)
  | deepcut (n : Int)
  | builtin (i : Nat)
  | fail
  | finish
  | putvoids (k : Nat)
  | putvars (ns : List Int)
  | putrval (n : Int)
  | putvals (ns : List Int)
  /-- `putcon` and `putint`. -/
  | putcon (w : Word)
  | putlist (n : Int)
  | putstr (n : Int)
  | set (l : Loc) (s : Source)
  | jump (e : Int)
  | branch (e₁ e₂ e₃ e₄ : Int)
  /-- `getcon`, `getint` and their inherited forms. -/
  | getcon (l : Loc) (w : Word)
  | getval (l : Loc) (n : Int)
  | getfloat (l : Loc) (w₁ w₂ : Word)
  | getlist (l : Loc) (n : Int) (nl : Int) (e : Int)
  | getvlist (l : Loc) (n : Int)
  | getstr (l : Loc) (n : Int) (nl : Int) (f : Word) (e : Int)
  | ari (op : AriOp) (n₁ n₂ n₃ : Int)
  | minus (n₁ n₂ : Int)
  | int (op : IntOp) (n₁ n₂ n₃ : Int)
  | inc (n₁ n₂ : Int)
  | dec (n₁ n₂ : Int)
  | is (n₁ n₂ : Int)
  | test (t : TypeTest) (n e : Int)
  /-- `lastnil` and `lastzero`. -/
  | lasttest (t : TypeTest) (e : Int)
  | isground (n e : Int)
  | switch (n e₀ e₁ e₂ e₃ : Int)
  | lastswitch (e₀ e₁ e₂ e₃ : Int)
  | hashing (n : Int) (te : HashTable)
  | lasthashing (te : HashTable)
  /-- `identical`, `nonidentical`, `precede`, `preidentical`, `follow` and `floidentical`. -/
  | compare (op : CmpOp) (n₁ n₂ e : Int)
  | termcompare (n₁ n₂ n₃ : Int)
  /-- `ifeq`, `ifne`, `iflt`, `ifle`, `ifgt` and `ifge`. -/
  | ifcmp (op : CmpOp) (n₁ n₂ e : Int)
  | aricmp (n₁ n₂ n₃ : Int)
  /-- `ifeq0`, `ifne0`, `iflt0`, `ifle0`, `ifgt0` and `ifge0`. -/
  | ifcmp0 (op : CmpOp) (n e : Int)
  | unifiable (n₁ n₂ e : Int)
  | nonunifiable (n₁ n₂ e : Int)
  | tryunifiable (n₁ n₂ n₃ : Int)
  | stationary (e : Int)
  /-- `worker` and `messenger`. -/
  | worker (e : Int)
  | unknown

namespace Instr

/-! ## Mnemonics of the families -/

def putvoid : Instr := putvoids 1
def put2void : Instr := putvoids 2
def putvar (n : Int) : Instr := putvars [n]
def put2var (n₁ n₂ : Int) : Instr := putvars [n₁, n₂]
def put3var (n₁ n₂ n₃ : Int) : Instr := putvars [n₁, n₂, n₃]
def put4var (n₁ n₂ n₃ n₄ : Int) : Instr := putvars [n₁, n₂, n₃, n₄]
def putval (n : Int) : Instr := putvals [n]
def put2val (n₁ n₂ : Int) : Instr := putvals [n₁, n₂]
def put3val (n₁ n₂ n₃ : Int) : Instr := putvals [n₁, n₂, n₃]
def put4val (n₁ n₂ n₃ n₄ : Int) : Instr := putvals [n₁, n₂, n₃, n₄]
def put5val (n₁ n₂ n₃ n₄ n₅ : Int) : Instr := putvals [n₁, n₂, n₃, n₄, n₅]
def put6val (n₁ n₂ n₃ n₄ n₅ n₆ : Int) : Instr := putvals [n₁, n₂, n₃, n₄, n₅, n₆]
def put7val (n₁ n₂ n₃ n₄ n₅ n₆ n₇ : Int) : Instr := putvals [n₁, n₂, n₃, n₄, n₅, n₆, n₇]
def put8val (n₁ n₂ n₃ n₄ n₅ n₆ n₇ n₈ : Int) : Instr := putvals [n₁, n₂, n₃, n₄, n₅, n₆, n₇, n₈]
def setvar (n : Int) : Instr := set (.cell n) .var
def csetvar : Instr := set .next .var
def setcon (n : Int) (w : Word) : Instr := set (.cell n) (.con w)
def csetcon (w : Word) : Instr := set .next (.con w)
def setval (n₁ n₂ : Int) : Instr := set (.cell n₁) (.val n₂)
def csetval (n : Int) : Instr := set .next (.val n)
def setfloat (n : Int) (w₁ w₂ : Word) : Instr := set (.cell n) (.float w₁ w₂)
def csetfloat (w₁ w₂ : Word) : Instr := set .next (.float w₁ w₂)
def setlist (n₁ n₂ : Int) : Instr := set (.cell n₁) (.list n₂)
def csetlist (n : Int) : Instr := set .next (.list n)
/-- `setfun`: a functor is stored like a constant. -/
def setfun (n : Int) (f : Word) : Instr := set (.cell n) (.con f)
def csetfun (f : Word) : Instr := set .next (.con f)
def setstr (n₁ n₂ : Int) : Instr := set (.cell n₁) (.str n₂)
def csetstr (n : Int) : Instr := set .next (.str n)
def cgetcon (w : Word) : Instr := getcon .next w
def cgetval (n : Int) : Instr := getval .next n
def cgetfloat (w₁ w₂ : Word) : Instr := getfloat .next w₁ w₂
def cgetlist (n nl e : Int) : Instr := getlist .next n nl e
def cgetvlist (n : Int) : Instr := getvlist .next n
def cgetstr (n nl : Int) (f : Word) (e : Int) : Instr := getstr .next n nl f e
def lastnil (e : Int) : Instr := lasttest .isnil e
def lastzero (e : Int) : Instr := lasttest .iszero e
/-- The standard order: `@<` is `precede`, `@>` is `follow`. -/
def identical (n₁ n₂ e : Int) : Instr := compare .eq n₁ n₂ e
def nonidentical (n₁ n₂ e : Int) : Instr := compare .ne n₁ n₂ e
def precede (n₁ n₂ e : Int) : Instr := compare .lt n₁ n₂ e
def preidentical (n₁ n₂ e : Int) : Instr := compare .le n₁ n₂ e
def follow (n₁ n₂ e : Int) : Instr := compare .gt n₁ n₂ e
def floidentical (n₁ n₂ e : Int) : Instr := compare .ge n₁ n₂ e

end Instr

end Mlvm
