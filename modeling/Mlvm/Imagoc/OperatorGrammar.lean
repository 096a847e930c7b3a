import Mlvm.Imagoc.TermParser

/-!
# The grammar of terms

Two relations between lexemes and terms, over any table of operators.

**`Written`** says how a term is properly written: `Climb ops comma bar n p r ts t` when `ts` writes
`t` with operators of priorities up to `n`, `p` is the priority of the term and `r` is the right
priority of its last operator. An operand has a priority within the limit that its operator declares
for its side, and an operator that follows a right operand does not fit into it.

**`Spelled`** is what can be said of every text that is accepted. It differs in what stands to the
left of an operator, where a term with an operator in front of it counts as if it were in brackets,
and in operators without an operand: such an operator is an atom, even where it is followed by `()`.

The flags tell whether a comma and a bar are punctuation here. `Term.number` numbers the variables
of a term from left to right.
-/

namespace Mlvm

namespace Parsing

/-- A lexeme that is scanned as a name. -/
def Lexeme.IsName (comma bar : Bool) (sym : String) : Lexeme → Prop
  | .name s => s = sym
  | .comma => comma = false ∧ sym = ","
  | .bar => bar = false ∧ sym = "|"
  | _ => False

/-- A lexeme that ends a term. -/
def Lexeme.Closes (comma bar : Bool) : Lexeme → Prop
  | .comma => comma = true
  | .bar => bar = true
  | .paren c => c = .rparen ∨ c = .rbracket
  | .stop => True
  | _ => False

section

variable (ops : Operators)

mutual

/-- A term that is not an operator with its operands. -/
inductive Basic : Bool → Bool → List Lexeme → Term String → Prop
  | var {comma bar : Bool} (sym : String) : Basic comma bar [.var sym] (.var sym)
  | real {comma bar : Bool} (rval : ℚ) : Basic comma bar [.real rval] (.real rval)
  | negative {comma bar : Bool} (rval : ℚ) (hop : ops .PREFIX "-" ≠ none) :
    Basic comma bar [.name "-", .real rval] (.real (-rval))
  | atom {comma bar : Bool} {l : Lexeme} {sym : String} (hl : l.IsName comma bar sym)
    (hop : ops .PREFIX sym = none) : Basic comma bar [l] (.func sym [])
  | compound {comma bar : Bool} {l : Lexeme} {sym : String} {ts : List Lexeme}
    {args : List (Term String)} (hl : l.IsName comma bar sym) (hop : ops .PREFIX sym = none)
    (hargs : Items bar ts args) :
    Basic comma bar (l :: .paren .lparen :: ts ++ [.paren .rparen]) (.func sym args)
  | brackets {comma bar : Bool} {ts : List Lexeme} {t : Term String} (ht : Whole false bar ts t) :
    Basic comma bar (.paren .lparen :: ts ++ [.paren .rparen]) t
  | list {comma bar : Bool} {ts : List Lexeme} {t : Term String} (ht : Elements ts t) :
    Basic comma bar (.paren .lbracket :: ts ++ [.paren .rbracket]) t

/-- Arguments. -/
inductive Items : Bool → List Lexeme → List (Term String) → Prop
  | one {bar : Bool} {ts : List Lexeme} {t : Term String} (ht : Whole true bar ts t) :
    Items bar ts [t]
  | more {bar : Bool} {ts us : List Lexeme} {t : Term String} {args : List (Term String)}
    (ht : Whole true bar ts t) (hargs : Items bar us args) :
    Items bar (ts ++ .comma :: us) (t :: args)

/-- The elements of a list. -/
inductive Elements : List Lexeme → Term String → Prop
  | one {ts : List Lexeme} {t : Term String} (ht : Whole true true ts t) :
    Elements ts (.cons t .nil)
  | tail {ts us : List Lexeme} {t t' : Term String} (ht : Whole true true ts t)
    (ht' : Whole true true us t') : Elements (ts ++ .bar :: us) (.cons t t')
  | more {ts us : List Lexeme} {t t' : Term String} (ht : Whole true true ts t)
    (ht' : Elements us t') : Elements (ts ++ .comma :: us) (.cons t t')

/-- A term with operators. -/
inductive Climb : Bool → Bool → ℕ → ℕ → ℕ → List Lexeme → Term String → Prop
  | basic {comma bar : Bool} {ts : List Lexeme} {t : Term String} (n : ℕ)
    (ht : Basic comma bar ts t) : Climb comma bar n 0 0 ts t
  | before {comma bar : Bool} {n p r : ℕ} {l : Lexeme} {sym : String} {op : Op} {ts : List Lexeme}
    {t : Term String} (hl : l.IsName comma bar sym) (hop : ops .PREFIX sym = some op)
    (hpri : op.pri ≤ n) (hreal : sym = "-" → ∀ rval, ts.head? ≠ some (.real rval))
    (ht : Climb comma bar op.right p r ts t) :
    Climb comma bar n op.pri op.right (l :: ts) (.func sym [t])
  | between {comma bar : Bool} {n p r p' r' : ℕ} {l : Lexeme} {sym : String} {op : Op}
    {ts us : List Lexeme} {t t' : Term String} (ht : Climb comma bar n p r ts t)
    (hl : l.IsName comma bar sym) (hop : ops .BINARY sym = some op) (hpri : op.pri ≤ n)
    (hleft : p ≤ op.left) (hlast : r < op.pri) (ht' : Climb comma bar op.right p' r' us t') :
    Climb comma bar n op.pri op.right (ts ++ l :: us) (.func sym [t, t'])
  | behind {comma bar : Bool} {n p r : ℕ} {l : Lexeme} {sym : String} {op : Op} {ts : List Lexeme}
    {t : Term String} (ht : Climb comma bar n p r ts t) (hl : l.IsName comma bar sym)
    (hbin : ops .BINARY sym = none) (hop : ops .POSTFIX sym = some op) (hpri : op.pri ≤ n)
    (hleft : p ≤ op.left) (hlast : r < op.pri) :
    Climb comma bar n op.pri 0 (ts ++ [l]) (.func sym [t])

/-- What stands between brackets or punctuation: a term, or an operator that is an atom. -/
inductive Whole : Bool → Bool → List Lexeme → Term String → Prop
  | climb {comma bar : Bool} {p r : ℕ} {ts : List Lexeme} {t : Term String}
    (ht : Climb comma bar MAXPRI p r ts t) : Whole comma bar ts t
  | alone {comma bar : Bool} {l : Lexeme} {sym : String} (hl : l.IsName comma bar sym)
    (hop : ops .PREFIX sym ≠ none) : Whole comma bar [l] (.func sym [])

end

/-- Brackets around nothing. -/
inductive Void : List Lexeme → Prop
  | nil : Void []
  | brackets {ts : List Lexeme} (h : Void ts) : Void (.paren .lparen :: ts ++ [.paren .rparen])

mutual

/-- What an accepted text says. -/
inductive Spelled : Bool → Bool → ℕ → ℕ → List Lexeme → Term String → Prop
  | var {comma bar : Bool} (n : ℕ) (sym : String) : Spelled comma bar n 0 [.var sym] (.var sym)
  | real {comma bar : Bool} (n : ℕ) (rval : ℚ) : Spelled comma bar n 0 [.real rval] (.real rval)
  | negative {comma bar : Bool} (n : ℕ) (rval : ℚ) (hop : ops .PREFIX "-" ≠ none) :
    Spelled comma bar n 0 [.name "-", .real rval] (.real (-rval))
  | atom {comma bar : Bool} (n : ℕ) {l : Lexeme} {sym : String} (hl : l.IsName comma bar sym) :
    Spelled comma bar n 0 [l] (.func sym [])
  | idle {comma bar : Bool} (n : ℕ) {l : Lexeme} {sym : String} {ts : List Lexeme}
    (hl : l.IsName comma bar sym) (hop : ops .PREFIX sym ≠ none) (hts : Void ts) :
    Spelled comma bar n 0 (l :: ts) (.func sym [])
  | compound {comma bar : Bool} (n : ℕ) {l : Lexeme} {sym : String} {ts : List Lexeme}
    {args : List (Term String)} (hl : l.IsName comma bar sym) (hop : ops .PREFIX sym = none)
    (hargs : SpelledItems bar ts args) :
    Spelled comma bar n 0 (l :: .paren .lparen :: ts ++ [.paren .rparen]) (.func sym args)
  | brackets {comma bar : Bool} (n : ℕ) {p : ℕ} {ts : List Lexeme} {t : Term String}
    (ht : Spelled false bar MAXPRI p ts t) :
    Spelled comma bar n 0 (.paren .lparen :: ts ++ [.paren .rparen]) t
  | list {comma bar : Bool} (n : ℕ) {ts : List Lexeme} {t : Term String}
    (ht : SpelledElements ts t) :
    Spelled comma bar n 0 (.paren .lbracket :: ts ++ [.paren .rbracket]) t
  | before {comma bar : Bool} {n p : ℕ} {l : Lexeme} {sym : String} {op : Op} {ts : List Lexeme}
    {t : Term String} (hl : l.IsName comma bar sym) (hop : ops .PREFIX sym = some op)
    (hpri : op.pri ≤ n) (ht : Spelled comma bar op.right p ts t) :
    Spelled comma bar n 0 (l :: ts) (.func sym [t])
  | between {comma bar : Bool} {n p p' : ℕ} {l : Lexeme} {sym : String} {op : Op}
    {ts us : List Lexeme} {t t' : Term String} (ht : Spelled comma bar n p ts t)
    (hl : l.IsName comma bar sym) (hop : ops .BINARY sym = some op) (hpri : op.pri ≤ n)
    (hleft : p ≤ op.left) (ht' : Spelled comma bar op.right p' us t') :
    Spelled comma bar n op.pri (ts ++ l :: us) (.func sym [t, t'])
  | behind {comma bar : Bool} {n p : ℕ} {l : Lexeme} {sym : String} {op : Op} {ts : List Lexeme}
    {t : Term String} (ht : Spelled comma bar n p ts t) (hl : l.IsName comma bar sym)
    (hbin : ops .BINARY sym = none) (hop : ops .POSTFIX sym = some op) (hpri : op.pri ≤ n)
    (hleft : p ≤ op.left) : Spelled comma bar n op.pri (ts ++ [l]) (.func sym [t])

/-- The arguments of an accepted text. -/
inductive SpelledItems : Bool → List Lexeme → List (Term String) → Prop
  | one {bar : Bool} {p : ℕ} {ts : List Lexeme} {t : Term String}
    (ht : Spelled true bar MAXPRI p ts t) : SpelledItems bar ts [t]
  | more {bar : Bool} {p : ℕ} {ts us : List Lexeme} {t : Term String} {args : List (Term String)}
    (ht : Spelled true bar MAXPRI p ts t) (hargs : SpelledItems bar us args) :
    SpelledItems bar (ts ++ .comma :: us) (t :: args)

/-- The elements of a list of an accepted text. -/
inductive SpelledElements : List Lexeme → Term String → Prop
  | one {p : ℕ} {ts : List Lexeme} {t : Term String} (ht : Spelled true true MAXPRI p ts t) :
    SpelledElements ts (.cons t .nil)
  | tail {p p' : ℕ} {ts us : List Lexeme} {t t' : Term String}
    (ht : Spelled true true MAXPRI p ts t) (ht' : Spelled true true MAXPRI p' us t') :
    SpelledElements (ts ++ .bar :: us) (.cons t t')
  | more {p : ℕ} {ts us : List Lexeme} {t t' : Term String}
    (ht : Spelled true true MAXPRI p ts t) (ht' : SpelledElements us t') :
    SpelledElements (ts ++ .comma :: us) (.cons t t')

end

end

/-! ## Numbers of variables -/

mutual

/-- The term with the numbers of its variables, after those of `vs`. -/
def Term.number : Term String → Vars → Term Var × Vars
  | .var sym, vs => (.var (vs.lookup sym).1, (vs.lookup sym).2)
  | .real rval, vs => (.real rval, vs)
  | .func str args, vs => (.func str (numberAll args vs).1, (numberAll args vs).2)

def numberAll : List (Term String) → Vars → List (Term Var) × Vars
  | [], vs => ([], vs)
  | t :: ts, vs =>
    ((t.number vs).1 :: (numberAll ts (t.number vs).2).1, (numberAll ts (t.number vs).2).2)

end

end Parsing

end Mlvm
