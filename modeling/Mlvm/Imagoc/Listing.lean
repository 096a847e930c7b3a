import Mlvm.Assembler.Reader
import Mlvm.StringTable.Packed

/-!
# The listing

The text that imagoc writes for the assembler (`lhlib.c`, `codegen.c`). It prints the names of the
program as they are: constants between quotes, and functors, predicates and labels bare, in front of
a slash and a number.

**Layout.** A line is a newline, the labels that are defined there, and an opcode with its operands;
blanks are counted, since columns are twenty characters wide (`%-20s`). `Instr` is any line the
formats allow; `codingGet` and the others say which line is written for what.
-/

namespace Mlvm

namespace Listing

open Assembler

/-- A name in the tables of imagoc: a string of C. -/
abbrev Atom := StringTable.Str (0 : UInt8)

def blanks (n : ℕ) : Name := List.replicate n blank

/-- `%d`, for a number that is not negative. -/
def printNat (n : ℕ) : Name := (Nat.toDigits 10 n).map Char.toUInt8

/-- `%d`. -/
def printInt (n : Int) : Name := if n < 0 then 45 :: printNat n.natAbs else printNat n.natAbs

/-- `%s/%d`. -/
def slashed (s : Name) (n : ℕ) : Name := s ++ slash :: printNat n

/-! ## Labels -/

/-- The places of a procedure that have labels. -/
inductive Place where
  | entry
  | clause (n : ℕ)
  | read (clause k : ℕ)
  | readEnd (clause : ℕ)
  | write (clause k : ℕ)
  | orElse (k : ℕ)
  | switch (k : ℕ)
  | hash
  deriving DecidableEq, Repr

/-- The number of a clause in a label, which the first clause does not have. -/
def clausePart (n : ℕ) : List Name := if n = 0 then [] else [printNat n]

/-- What a label has after the name of the procedure, without the dots. -/
def Place.parts : Place → List Name
  | .entry => []
  | .clause n => [printNat n]
  | .read c k => clausePart c ++ [ascii "r", printNat k]
  | .readEnd c => clausePart c ++ [ascii "r", ascii "end"]
  | .write c k => clausePart c ++ [ascii "w", printNat k]
  | .orElse k => [ascii "if", printNat k]
  | .switch k => [ascii "op", printNat k]
  | .hash => [ascii "h"]

/-- A label: `fail`, or a place of a procedure. -/
inductive Label where
  | fail
  | at (proname : Atom) (argnum : ℕ) (place : Place)

def Label.text : Label → Name
  | .fail => ascii "fail"
  | .at proname argnum place =>
      slashed proname.chars argnum ++ place.parts.flatMap (dot :: ·)

/-! ## Lines -/

/-- What `%f` makes of a floating number. -/
structure Printed where
  digits : Name
  ne_nil : digits ≠ []
  float : ∀ c ∈ digits, isFloat c = true

/-- An operand. -/
inductive Arg where
  | num (n : BitVec 32)
  | int (n : BitVec 32)
  | float (d : Printed)
  | con (s : Atom)
  | functor (s : Atom) (arity : ℕ)
  | procedure (s : Atom) (arity : ℕ)
  | builtin (s : Atom) (arity : ℕ)
  | label (l : Label)

namespace Arg

def text : Arg → Name
  | .num n | .int n => printInt n.toInt
  | .float d => d.digits
  | .con s => quote :: (s.chars ++ [quote])
  | .functor s arity | .procedure s arity | .builtin s arity => slashed s.chars arity
  | .label l => l.text

def kind : Arg → OperandKind
  | .num _ => .num
  | .int _ => .int
  | .float _ => .float
  | .con _ => .con
  | .functor _ _ => .functor
  | .procedure _ _ => .procedure
  | .builtin _ _ => .builtin
  | .label _ => .label

/-- What the operand means to the assembler. -/
def operand (strtod : Name → Int × Int) : Arg → Operand
  | .num n => .num n.toInt
  | .int n => .int n.toInt
  | .float d => .float (strtod d.digits).1 (strtod d.digits).2
  | .con s => .con s.chars
  | .functor s arity => .functor s.chars arity
  | .procedure s arity => .procedure s.chars arity
  | .builtin s arity => .builtin (slashed s.chars arity)
  | .label l => .label l.text

end Arg

/-- The operands of an instruction the assembler knows. -/
def operandsOf (mnemonic : Name) : Option (List OperandKind) :=
  (opcodeIndex mnemonic).bind fun op => (opcodeType op).bind fun ty =>
    if ty.isImago ∨ ty = .htab then none else some ty.operands

/-- An opcode with its operands. An operand has one blank and the given number of further blanks in
front. The operands are what the assembler expects, if it knows the opcode at all. -/
structure Instr where
  mnemonic : Name
  args : List (ℕ × Arg)
  trail : ℕ
  shape : opcodeIndex mnemonic = none ∨ operandsOf mnemonic = some (args.map fun a => a.2.kind)

def argsText (args : List (ℕ × Arg)) : Name :=
  args.flatMap fun a => blanks (a.1 + 1) ++ a.2.text

/-- What follows the opcode. -/
def Instr.rest (i : Instr) : Name := argsText i.args ++ blanks i.trail

/-- A label that is defined, and the blanks behind it; without a newline there is one blank more. -/
structure LabelAt where
  label : Label
  pad : ℕ
  ends : Bool

def LabelAt.gap (l : LabelAt) : Name :=
  if l.ends then blanks l.pad ++ [newline] else blanks (l.pad + 1)

def LabelAt.text (l : LabelAt) : Name := l.label.text ++ colon :: l.gap

/-- A line, with the number of empty lines in front of it. -/
structure Line where
  empty : ℕ
  labels : List LabelAt
  indent : ℕ
  instr : Instr

/-- What stands in front of the opcode. -/
def Line.front (l : Line) : Name :=
  List.replicate (l.empty + 1) newline ++ (l.labels.flatMap LabelAt.text ++ blanks l.indent)

def Line.text (l : Line) : Name := l.front ++ (l.instr.mnemonic ++ l.instr.rest)

def linesText (ls : List Line) : Name := ls.flatMap Line.text

/-! ## Programs -/

/-- The labels that are defined, and the labels that are referred to. -/
def definitions (ls : List Line) : List Label := ls.flatMap fun l => l.labels.map LabelAt.label

def references (ls : List Line) : List Label :=
  ls.flatMap fun l => l.instr.args.filterMap fun
    | (_, .label l) => some l
    | _ => none

/-- The listing of an imago: its type, its name and the lines. The labels that are defined are
`fail` and those of the procedures that are declared. -/
structure Program where
  type : Fin 3
  file : Atom
  lines : List Line
  newlines : ℕ
  declared : ∀ d ∈ definitions lines, d = .fail ∨ ∃ proname argnum place,
    d = .at proname argnum place ∧
      ∃ l ∈ lines, ∃ g, (g, Arg.procedure proname argnum) ∈ l.instr.args

namespace Program

/-- `stationary`, `worker` or `messenger`. -/
def op (p : Program) : ℕ := 132 + p.type

def mnemonic (p : Program) : Name := ascii ((opcodeTab[p.op]?.map Prod.fst).getD "")

/-- What follows the first line. -/
def body (p : Program) : Name := linesText p.lines ++ List.replicate p.newlines newline

def text (p : Program) : Name :=
  blanks 3 ++ (p.mnemonic ++ (blanks 2 ++ (slashed p.file.chars 1 ++ p.body)))

end Program

/-! ## What is written -/

/-- `"%-20s%-20s"`, the second column with the opcode, and the operands; `lead` blanks are written
in front of the first operand. -/
def columns (mnemonic : String) (lead : ℕ) (args : List (ℕ × Arg)) (trail : ℕ)
    (h : operandsOf (ascii mnemonic) = some (args.map fun a => a.2.kind)) : Instr :=
  match args, h with
  | [], h => ⟨ascii mnemonic, [], 20 - (ascii mnemonic).length + trail, .inr h⟩
  | (g, a) :: args, h =>
      ⟨ascii mnemonic, (19 - (ascii mnemonic).length + lead + g, a) :: args, trail, .inr h⟩

/-- A term in a clause, with what is printed of it. -/
inductive MlvmTerm where
  | var (index annot : BitVec 32)
  | void (index : BitVec 32)
  | real (index : BitVec 32) (rval : Printed)
  | int (index rval : BitVec 32)
  | atom (index : BitVec 32) (name : Atom)
  | nil (index : BitVec 32) (name : Atom)
  | lis (index annot level : BitVec 32)
  | lvs (index annot : BitVec 32)
  | str (index annot level : BitVec 32) (name : Atom) (argunum : ℕ)

/-- `coding_get`, in the procedure `proname/argnum`. -/
def codingGet (proname : Atom) (argnum : ℕ) (c : Bool) (wlab inputclausenum : ℕ) :
    MlvmTerm → Option Instr
  | .var index annot =>
      if index ≠ annot then
        some (if c then columns "cgetval" 0 [(0, .num annot)] 0 rfl
          else columns "getval" 0 [(0, .num index), (1, .num annot)] 0 rfl)
      else none
  | .void _ => none
  | .real index rval =>
      some (if c then columns "cgetfloat" 0 [(0, .float rval)] 0 rfl
        else columns "getfloat" 0 [(0, .num index), (1, .float rval)] 0 rfl)
  | .int index rval =>
      some (if c then columns "cgetint" 0 [(0, .int rval)] 0 rfl
        else columns "getint" 0 [(0, .num index), (1, .int rval)] 0 rfl)
  | .atom index name =>
      some (if c then columns "cgetcon" 1 [(0, .con name)] 0 rfl
        else columns "getcon" 0 [(0, .num index), (0, .con name)] 0 rfl)
  | .nil index name =>
      some (if c then columns "cgetcon" 1 [(0, .con name)] 0 rfl
        else columns "getcon" 0 [(0, .num index), (1, .con name)] 1 rfl)
  | .lis index annot level =>
      let w := Arg.label (.at proname argnum (.write inputclausenum wlab))
      some (if c then columns "cgetlist" 0 [(0, .num annot), (1, .num level), (1, w)] 0 rfl
        else columns "getlist" 0 [(0, .num index), (1, .num annot), (1, .num level), (1, w)] 0 rfl)
  | .lvs index annot =>
      some (if c then columns "cgetvlist" 0 [(0, .num annot)] 2 rfl
        else columns "getvlist" 0 [(0, .num index), (1, .num annot)] 1 rfl)
  | .str index annot level name argunum =>
      let w := Arg.label (.at proname argnum (.write inputclausenum wlab))
      some (if c then
          columns "cgetstr" 0 [(0, .num annot), (1, .num level), (1, .functor name argunum), (1, w)]
            1 rfl
        else columns "getstr" 0
          [(0, .num index), (1, .num annot), (1, .num level), (1, .functor name argunum), (1, w)]
            1 rfl)

/-- The directive at the beginning of a procedure. -/
def procedure (proname : Atom) (argnum : ℕ) : Instr :=
  columns "procedure" 0 [(0, .procedure proname argnum)] 0 rfl

/-- A line of its own for a label, `"%s:\n"`. -/
def labelLine (l : Label) : LabelAt := ⟨l, 0, true⟩

/-- The line `"%-20s%-20s\n"` for `fail:` and `fail`. -/
def failLine : Line := ⟨0, [⟨.fail, 14, false⟩], 0, columns "fail" 0 [] 0 rfl⟩

end Listing

end Mlvm
