import Mathlib.Data.List.Basic

/-!
# Instruction layouts

The table of opcodes with the type of each instruction, and the layout of its operands, which the
source spells out three times: in the assembler, in the loader and in the macro that relocates
loaded code. **The three agree** for every type but that of a hash table, whose length is data.
-/

namespace Mlvm

/-- `InstType`; the digits of a name come last. -/
inductive InstType where
  | stationary | worker | messenger | o | n | e | c | f | b | i | p | r
  | n2 | n3 | n4 | n5 | n6 | n7 | n8 | ne | nc | nf | ni | nr
  | n2e | n2f | nfe | n2fe | n3e | n3fe | e4 | ne4 | htab
  deriving DecidableEq, Repr

/-- `opcode_tab`: an opcode is the place of its row. -/
def opcodeTab : List (String × InstType) :=
  [("noop", .o), ("alloa", .n2), ("allod", .n2), ("call", .e), ("lastcall", .e), ("chaincall", .e),
   ("proceed", .o), ("return", .o), ("shallowtry", .ne), ("try", .ne), ("retry", .ne),
   ("trust", .o), ("neckcut", .o), ("deeplabel", .n), ("deepcut", .n), ("builtin", .b),
   ("fail", .o), ("finish", .o), ("putvoid", .o), ("put2void", .o), ("putvar", .n),
   ("put2var", .n2), ("put3var", .n3), ("put4var", .n4), ("putrval", .n), ("putval", .n),
   ("put2val", .n2), ("put3val", .n3), ("put4val", .n4), ("put5val", .n5), ("put6val", .n6),
   ("put7val", .n7), ("put8val", .n8), ("putcon", .c), ("putint", .i), ("putlist", .n),
   ("putstr", .n), ("resv0", .n), ("resv1", .n), ("setvar", .n), ("csetvar", .o), ("setcon", .nc),
   ("csetcon", .c), ("setint", .ni), ("csetint", .i), ("setval", .n2), ("csetval", .n),
   ("setfloat", .nr), ("csetfloat", .r), ("setlist", .n2), ("csetlist", .n), ("setfun", .nf),
   ("csetfun", .f), ("setstr", .n2), ("csetstr", .n), ("resv2", .n), ("resv3", .n), ("jump", .e),
   ("branch", .e4), ("getcon", .nc), ("cgetcon", .c), ("getint", .ni), ("cgetint", .i),
   ("getval", .n2), ("cgetval", .n), ("getfloat", .nr), ("cgetfloat", .r), ("getlist", .n3e),
   ("cgetlist", .n2e), ("getvlist", .n2), ("cgetvlist", .n), ("getstr", .n3fe), ("cgetstr", .n2fe),
   ("add", .n3), ("sub", .n3), ("mul", .n3), ("div", .n3), ("minus", .n2), ("mod", .n3),
   ("inc", .n2), ("dec", .n2), ("is", .n2), ("and", .n3), ("or", .n3), ("eor", .n3),
   ("rshift", .n3), ("lshift", .n3), ("isatom", .ne), ("isatomic", .ne), ("isfloat", .ne),
   ("isinteger", .ne), ("isnumber", .ne), ("isnonvar", .ne), ("isvar", .ne), ("islist", .ne),
   ("isstr", .ne), ("iscompound", .ne), ("isground", .ne), ("isnil", .ne), ("lastnil", .e),
   ("iszero", .ne), ("lastzero", .e), ("switch", .ne4), ("lastswitch", .e4), ("hashing", .ne),
   ("lasthashing", .e), ("identical", .n2e), ("nonidentical", .n2e), ("precede", .n2e),
   ("preidentical", .n2e), ("follow", .n2e), ("floidentical", .n2e), ("termcompare", .n3),
   ("ifeq", .n2e), ("ifne", .n2e), ("iflt", .n2e), ("ifle", .n2e), ("ifgt", .n2e), ("ifge", .n2e),
   ("aricmp", .n3), ("ifeq0", .ne), ("ifne0", .ne), ("iflt0", .ne), ("ifle0", .ne), ("ifgt0", .ne),
   ("ifge0", .ne), ("unifiable", .n2e), ("nonunifiable", .n2e), ("tryunifiable", .n3),
   ("integer", .n), ("char", .n), ("float", .n), ("stationary", .stationary), ("worker", .worker),
   ("messenger", .messenger), ("procedure", .p), ("hashtable", .htab)]

/-- `opcode_tab[op].type`. -/
def opcodeType (op : Int) : Option InstType :=
  if op < 0 then none else (opcodeTab[op.toNat]?).map Prod.snd

/-- What an operand is in the source text. -/
inductive OperandKind where
  | num | label | con | functor | builtin | int | procedure | float
  deriving DecidableEq, Repr

open OperandKind in
/-- The operands that `translate` reads and puts. -/
def InstType.operands : InstType → List OperandKind
  | .stationary | .worker | .messenger | .o | .htab => []
  | .n => [num]
  | .e => [label]
  | .c => [con]
  | .f => [functor]
  | .b => [builtin]
  | .i => [int]
  | .p => [procedure]
  | .r => [float]
  | .n2 => [num, num]
  | .n3 => [num, num, num]
  | .n4 => [num, num, num, num]
  | .n5 => [num, num, num, num, num]
  | .n6 => [num, num, num, num, num, num]
  | .n7 => [num, num, num, num, num, num, num]
  | .n8 => [num, num, num, num, num, num, num, num]
  | .ne => [num, label]
  | .nc => [num, con]
  | .nf => [num, functor]
  | .ni => [num, int]
  | .nr => [num, float]
  | .n2e => [num, num, label]
  | .n2f => [num, num, functor]
  | .nfe => [num, functor, label]
  | .n2fe => [num, num, functor, label]
  | .n3e => [num, num, num, label]
  | .n3fe => [num, num, num, functor, label]
  | .e4 => [label, label, label, label]
  | .ne4 => [num, label, label, label, label]

/-- The words after the opcode that `load_code` reads, and which of them it relocates. -/
def InstType.loaded : InstType → List Bool
  | .stationary | .worker | .messenger | .e => [true]
  | .o | .htab => []
  | .n | .c | .f | .b | .i | .p => [false]
  | .r | .n2 | .nc | .nf | .ni => [false, false]
  | .n3 | .nr | .n2f => [false, false, false]
  | .n4 => [false, false, false, false]
  | .n5 => [false, false, false, false, false]
  | .n6 => [false, false, false, false, false, false]
  | .n7 => [false, false, false, false, false, false, false]
  | .n8 => [false, false, false, false, false, false, false, false]
  | .ne => [false, true]
  | .n2e | .nfe => [false, false, true]
  | .n2fe | .n3e => [false, false, false, true]
  | .n3fe => [false, false, false, false, true]
  | .e4 => [true, true, true, true]
  | .ne4 => [false, true, true, true, true]

/-- The words after the opcode that `adjust_code` copies with `IDIRECT` or moves with `IADJUST`. -/
def InstType.adjusted : InstType → List Bool
  | .stationary | .worker | .messenger | .e => [true]
  | .o | .htab => []
  | .n | .c | .f | .b | .i | .p => [false]
  | .r | .n2 | .nc | .nf | .ni => [false, false]
  | .n3 | .nr | .n2f => [false, false, false]
  | .n4 => [false, false, false, false]
  | .n5 => [false, false, false, false, false]
  | .n6 => [false, false, false, false, false, false]
  | .n7 => [false, false, false, false, false, false, false]
  | .n8 => [false, false, false, false, false, false, false, false]
  | .ne => [false, true]
  | .n2e | .nfe => [false, false, true]
  | .n2fe | .n3e => [false, false, false, true]
  | .n3fe => [false, false, false, false, true]
  | .e4 => [true, true, true, true]
  | .ne4 => [false, true, true, true, true]

/-- Whether each word of an operand is a label. -/
def OperandKind.words : OperandKind → List Bool
  | label => [true]
  | float => [false, false]
  | _ => [false]

/-- The imago instruction, whose operand is the address of the entry procedure. -/
def InstType.isImago : InstType → Bool
  | stationary | worker | messenger => true
  | _ => false

theorem loaded_eq_operands {ty : InstType} (h : ty.isImago = false) :
    ty.loaded = ty.operands.flatMap OperandKind.words := by
  cases ty <;> first | rfl | cases h

end Mlvm
