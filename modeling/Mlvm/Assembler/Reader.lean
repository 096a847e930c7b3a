import Mlvm.Assembler.Assembler
import Mlvm.Extraction.Words

/-!
# The reader of the assembler

The part of `assembler.cc` that takes the text of a program apart, into the tokens that the
translation works with. Words are read with `inf >> buf`, into an array of `MAX_LEN` characters that
a longer word overruns; only `get_con`, which looks for a closing quote, reads single characters.

Whatever makes the assembler exit, and whatever it does outside its arrays, gives `none`. How the
digits of a floating number become two words is left to `strtod`.
-/

namespace Mlvm

namespace Assembler

def MAX_LEN : ℕ := 80

def newline : UInt8 := 10

def blank : UInt8 := 32

def quote : UInt8 := 39

def dot : UInt8 := 46

def slash : UInt8 := 47

def colon : UInt8 := 58

def backslash : UInt8 := 92

/-- The characters of a name in the source of the programs. -/
def ascii (s : String) : Name := s.toList.map Char.toUInt8

/-- `isspace`. -/
def isSpace (c : UInt8) : Bool := c = 32 ∨ 9 ≤ c ∧ c ≤ 13

/-- `isdigit`. -/
def isDigit (c : UInt8) : Bool := 48 ≤ c ∧ c ≤ 57

/-- `inf >> buf`. -/
def nextWord (s : Name) : Option (Name × Name) :=
  if (Extraction.word isSpace s).1 = [] ∨ MAX_LEN ≤ (Extraction.word isSpace s).1.length then none
  else some (Extraction.word isSpace s)

/-- `new_line`. -/
def newLine (s : Name) : Name := (s.dropWhile fun c => decide (c ≠ newline)).drop 1

/-- `my_atoi`. -/
def myAtoi (s : Name) : ℕ := (s.takeWhile isDigit).foldl (fun i c => i * 10 + (c.toNat - 48)) 0

/-! ## Operands -/

/-- `inf >> loc`, for a number in 32 bits. -/
def getNum (s : Name) : Option (Int × Name) :=
  let s := s.dropWhile isSpace
  let t := if s.head? = some 43 ∨ s.head? = some 45 then s.tail else s
  let n : Int := if s.head? = some 45 then -myAtoi t else myAtoi t
  if t.takeWhile isDigit = [] ∨ n < -2147483648 ∨ 2147483648 ≤ n then none
  else some (n, t.dropWhile isDigit)

/-- The characters of a floating number. -/
def isFloat (c : UInt8) : Bool := isDigit c ∨ c ∈ ascii "+-.eE"

/-- `get_float`. -/
def getFloat (strtod : Name → Int × Int) (s : Name) : Option ((Int × Int) × Name) :=
  let s := s.dropWhile isSpace
  if s.takeWhile isFloat = [] then none
  else some (strtod (s.takeWhile isFloat), s.dropWhile isFloat)

/-- The hunt for the closing quote, with the room in `buf`. A backslash makes the next quote an
ordinary character, however far it is. -/
def hunt : ℕ → Bool → Name → Option (Name × Name)
  | 0, _, _ => none
  | _ + 1, _, [] => none
  | room + 1, ignore, c :: s =>
      if c = newline ∨ c = quote ∧ ignore = false then some ([], s)
      else
        (hunt room (if c = backslash then true else if c = quote then false else ignore) s).map
          fun (n, s) => (c :: n, s)

/-- `get_con`, up to the name of the constant. -/
def getConName (s : Name) : Option (Name × Name) :=
  (nextWord s).bind fun (w, s) =>
    if w.head? ≠ some quote then some (w, s)
    else if w.tail.getLast? = some quote then some (w.tail.dropLast, s)
    else
      -- with nothing but the quote, the character behind the name has not been read
      (hunt (MAX_LEN - w.length) false s).bind fun (n, s) =>
        if w.tail ++ n = [] then none else some (w.tail ++ n, s)

/-- `get_fun`, up to the name and the arity. -/
def getFunName (s : Name) : Option ((Name × ℕ) × Name) :=
  (nextWord s).bind fun (w, s) =>
    if slash ∈ w then
      some ((w.takeWhile fun c => decide (c ≠ slash),
        myAtoi ((w.dropWhile fun c => decide (c ≠ slash)).drop 1)), s)
    else none

/-- `get_label`, up to the label. -/
def getLabelName (s : Name) : Option (Name × Name) :=
  (nextWord s).bind fun (w, s) => if w.take 2 = [slash, slash] then none else some (w, s)

/-- An operand of the kind the opcode asks for. -/
def readOperand (strtod : Name → Int × Int) : OperandKind → Name → Option (Operand × Name)
  | .num, s => (getNum s).map fun (n, s) => (.num n, s)
  | .label, s => (getLabelName s).map fun (l, s) => (.label l, s)
  | .con, s => (getConName s).map fun (n, s) => (.con n, s)
  | .functor, s => (getFunName s).map fun (f, s) => (.functor f.1 f.2, s)
  | .builtin, s => (nextWord s).map fun (w, s) => (.builtin w, s)
  | .int, s => (getNum s).map fun (n, s) => (.int n, s)
  | .procedure, s => (getFunName s).map fun (f, s) => (.procedure f.1 f.2, s)
  | .float, s => (getFloat strtod s).map fun (d, s) => (.float d.1 d.2, s)

def readOperands (strtod : Name → Int × Int) :
    List OperandKind → Name → Option (List Operand × Name)
  | [], s => some ([], s)
  | k :: ks, s =>
      (readOperand strtod k s).bind fun (o, s) =>
        (readOperands strtod ks s).map fun (os, s) => (o :: os, s)

/-- The pairs of a hash table. -/
def readEntries : ℕ → Name → Option (List (Name × Name) × Name)
  | 0, s => some ([], s)
  | n + 1, s =>
      (getConName s).bind fun (c, s) => (getLabelName s).bind fun (l, s) =>
        (readEntries n s).map fun (es, s) => ((c, l) :: es, s)

/-- `get_table`, up to the tokens. -/
def readTable (s : Name) : Option (TableSource × Name) :=
  (getNum s).bind fun (n, s) => (readEntries n.toNat s).bind fun (es, s) =>
    (getLabelName s).map fun (l, s) => (⟨es, l⟩, s)

/-! ## Lines -/

/-- To the first character that is neither blank nor in a comment; `comment` says that a comment is
being skipped. -/
def skipLines : Bool → Name → Name
  | _, [] => []
  | true, c :: s => skipLines (c ≠ newline) s
  | false, c :: s =>
      if c = slash then skipLines true s
      else if c = newline ∨ c = blank ∨ c = 9 then skipLines false s
      else if c = 0 then []
      else c :: s

/-- The labels in front of an opcode, and the opcode. -/
def opcodeWord : ℕ → Name → Option (List Name × Name × Name)
  | 0, _ => none
  | fuel + 1, s =>
      (nextWord s).bind fun (w, s) =>
        if w.getLast? = some colon then
          (opcodeWord fuel s).map fun (ls, op, s) => (w.dropLast :: ls, op, s)
        else if w.head? = some slash then opcodeWord fuel (newLine s)
        else some ([], w, s)

/-- `ops.lookup`. -/
def opcodeIndex (w : Name) : Option ℕ := opcodeTab.findIdx? fun row => decide (ascii row.1 = w)

/-- `get_opcode`: the labels it defines, the opcode and the rest, or `some none` at the end of the
file. -/
def getOpcode (s : Name) : Option (Option (List Name × ℕ × Name)) :=
  if skipLines false s = [] then some none
  else
    (opcodeWord (s.length + 1) (skipLines false s)).bind fun (ls, w, s) =>
      (opcodeIndex w).map fun op => some (ls, op, s)

/-- The operands of an opcode. -/
def readArguments (strtod : Name → Int × Int) (op : ℕ) (s : Name) : Option (Operands × Name) :=
  (opcodeType op).bind fun ty =>
    if ty = .htab then (readTable s).map fun (t, s) => (.table t, s)
    else (readOperands strtod ty.operands s).map fun (os, s) => (.plain os, s)

/-- The loop of `translate`, up to the tokens. -/
def readLines (strtod : Name → Int × Int) : ℕ → Name → Option (List Line)
  | 0, _ => none
  | fuel + 1, s =>
      (getOpcode s).bind fun
        | none => some []
        | some (labels, op, s) =>
            (readArguments strtod op s).bind fun (operands, s) =>
              (readLines strtod fuel (newLine s)).map fun ls => ⟨labels, op, operands⟩ :: ls

/-- **The reader**: from the text of a program to its tokens. -/
def readSource (strtod : Name → Int × Int) (s : Name) : Option Source :=
  (getOpcode s).bind fun
    | none => none
    | some (labels, op, s) =>
        (opcodeType op).bind fun ty =>
          if ty.isImago then
            (getFunName s).bind fun (f, s) =>
              (readLines strtod (s.length + 1) s).map fun ls => ⟨labels, op, f.1, f.2, ls⟩
          else none

end Assembler

end Mlvm
