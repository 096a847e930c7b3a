import Mlvm.Imagoc.TermTree

/-!
# The operator parser

`parser.c` and `scan.c`. A source text is a sequence of **lexemes**; `imagoscan` turns the next one
into a token. A comma and a bar are punctuation or names, by the flags of the context in which they
are scanned, and a variable is numbered when it is scanned.

`get_imagoterm(n)` reads a term whose operators have priorities up to `n`: a first part, and then,
in a loop, the operators that follow it with their right operands. The parser is always one token
ahead.

Every call is given a bound on the depth of the calls below it, and has no result when the bound is
too small. `getimagoterm` sets the bound by the length of the text.
-/

namespace Mlvm

namespace Parsing

open Cells (CreateVar)

/-! ## Operators -/

inductive OpKind where
  | BINARY
  | POSTFIX
  | PREFIX
  deriving DecidableEq

/-- An entry of `struct OPERATOR`. -/
structure Op where
  pri : ℕ
  left : ℕ
  right : ℕ
  left_le : left ≤ pri
  right_le : right ≤ pri

/-- What `is_operator_node` finds. -/
abbrev Operators := OpKind → String → Option Op

/-- The styles of `operator_add`. -/
inductive Style where
  | xfx
  | xfy
  | yfx
  | yfy
  | fx
  | fy
  | xf
  | yf

def Style.kind : Style → OpKind
  | xfx | xfy | yfx | yfy => .BINARY
  | fx | fy => .PREFIX
  | xf | yf => .POSTFIX

def Style.op (pri : ℕ) : Style → Op
  | xfx => ⟨pri, pri - 1, pri - 1, Nat.sub_le .., Nat.sub_le ..⟩
  | xfy => ⟨pri, pri - 1, pri, Nat.sub_le .., Nat.le_refl _⟩
  | yfx => ⟨pri, pri, pri - 1, Nat.le_refl _, Nat.sub_le ..⟩
  | yfy => ⟨pri, pri, pri, Nat.le_refl _, Nat.le_refl _⟩
  | fx => ⟨pri, 0, pri - 1, Nat.zero_le _, Nat.sub_le ..⟩
  | fy => ⟨pri, 0, pri, Nat.zero_le _, Nat.le_refl _⟩
  | xf => ⟨pri, pri - 1, 0, Nat.sub_le .., Nat.zero_le _⟩
  | yf => ⟨pri, pri, 0, Nat.le_refl _, Nat.zero_le _⟩

/-- `operator_add`, which takes an operator away when its priority is 0. -/
def operatorAdd (ops : Operators) (sym : String) (style : Style) (pri : ℕ) : Operators :=
  fun kind name => if kind = style.kind ∧ name = sym then
    if pri = 0 then none else some (style.op pri) else ops kind name

/-- The calls of `operator_add` in `init_name`. -/
def declared : List (String × Style × ℕ) :=
  [("is", .xfx, 40), (".", .xfy, 51), (",", .xfy, 252), (":-", .xfx, 255), ("-", .fy, 21),
   (":-", .fx, 255), ("-", .yfx, 31), ("=", .xfx, 40), ("->", .xfy, 254), (";", .xfy, 253),
   ("'", .fx, 50), ("+", .yfx, 31), ("/", .yfx, 21), ("*", .yfx, 21), (">", .xfx, 37),
   (">=", .xfx, 37), ("<", .xfx, 37), ("<=", .xfx, 37), ("==", .xfx, 37), ("mod", .yfx, 21),
   ("=/=", .yfx, 37), ("=:=", .xfx, 37), ("/=", .xfx, 40), ("/==.", .xfx, 40), ("@<", .xfx, 40),
   ("@=<", .xfx, 40), ("@>", .xfx, 40), ("@>=", .xfx, 40)]

/-- The operators after `init_name`. -/
def initOperators : Operators :=
  declared.foldl (fun ops d => operatorAdd ops d.1 d.2.1 d.2.2) fun _ _ => none

/-! ## Terms -/

/-- `IMAGOTERM`, over what is known of a variable. -/
inductive Term (V : Type) where
  | var (v : V)
  | real (rval : ℚ)
  | func (str : String) (args : List (Term V))

/-- A cell of a list. -/
def Term.cons {V : Type} (t t' : Term V) : Term V := .func "." [t, t']

/-- `create_pt_emptylist`. -/
def Term.nil {V : Type} : Term V := .func "[]" []

/-- A variable of a clause. -/
structure Var where
  str : String
  createVar : CreateVar
  val : ℕ
  deriving DecidableEq

/-- The variables seen in a clause with their numbers, and `var_cnt`. -/
structure Vars where
  used : List (String × ℕ)
  varCnt : ℕ

/-- `zero_vars`. -/
def Vars.zero : Vars := ⟨[], 0⟩

/-- `lookuimago_var`. -/
def Vars.lookup (vs : Vars) (sym : String) : Var × Vars :=
  if sym = "_" then (⟨sym, .anonymous, vs.varCnt⟩, { vs with varCnt := vs.varCnt + 1 })
  else match vs.used.lookup sym with
    | none => (⟨sym, .first, vs.varCnt⟩, ⟨(sym, vs.varCnt) :: vs.used, vs.varCnt + 1⟩)
    | some val => (⟨sym, .seen, val⟩, vs)

/-! ## The scanner -/

inductive Bracket where
  | lparen
  | rparen
  | lbracket
  | rbracket
  deriving DecidableEq

/-- What stands in the text. -/
inductive Lexeme where
  | name (sym : String)
  | var (sym : String)
  | real (rval : ℚ)
  | comma
  | bar
  | paren (c : Bracket)
  | stop

inductive Punc where
  | comma
  | bar
  | dot
  deriving DecidableEq

/-- `tokentype`, with `tokenpointer`, `tok_node` and `tokenchar`. -/
inductive Token where
  | name (sym : String)
  | var (v : Var)
  | real (rval : ℚ)
  | punc (c : Punc)
  | paren (c : Bracket)
  | endfile
  deriving DecidableEq

/-- The token of a lexeme, by `comma_flg` and `bar_flg`. -/
def Lexeme.token (commaFlg barFlg : Bool) (vs : Vars) : Lexeme → Token × Vars
  | name sym => (.name sym, vs)
  | var sym => ((Token.var (vs.lookup sym).1), (vs.lookup sym).2)
  | real rval => (.real rval, vs)
  | comma => (if commaFlg then .punc .comma else .name ",", vs)
  | bar => (if barFlg then .punc .bar else .name "|", vs)
  | paren c => (.paren c, vs)
  | stop => (.punc .dot, vs)

structure State where
  commaFlg : Bool
  barFlg : Bool
  vars : Vars
  token : Token
  rest : List Lexeme

/-- `imagoscan`. -/
def imagoscan (s : State) : State :=
  match s.rest with
  | [] => { s with token := .endfile }
  | l :: ls =>
    let r := l.token s.commaFlg s.barFlg s.vars
    { s with token := r.1, vars := r.2, rest := ls }

/-! ## The parser -/

/-- A call of `error_syntax`, or an access to an operand that is missing. -/
inductive Failure where
  | syntaxError (s : String)
  | fault
  deriving DecidableEq

/-- What a call returns, and the state it leaves. -/
abbrev Parse (α : Type) := Option (Except Failure (α × State))

variable {α β : Type}

def done (a : α) (s : State) : Parse α := some (.ok (a, s))

def fail (e : Failure) : Parse α := some (.error e)

def Parse.andThen (p : Parse α) (k : α → State → Parse β) : Parse β :=
  p.bind fun
    | .error e => fail e
    | .ok (a, s) => k a s

/-- `error_syntax`, when `NULL` is returned. -/
def Parse.require (p : Parse (Option α)) (msg : String) : Parse α :=
  p.andThen fun a s =>
    match a with
    | none => fail (.syntaxError msg)
    | some a => done a s

/-- A bracket must come now. -/
def expect (c : Bracket) (msg : String) (s : State) : Parse Unit :=
  if s.token = .paren c then done () (imagoscan s) else fail (.syntaxError msg)

def MAXPRI : ℕ := 1200

/-- A number behind the minus sign. The name of the minus sign has the number `U_MINUSVAL`, and no
other name has it. -/
def negated (sym : String) : Token → Option ℚ
  | .real rval => if sym = "-" then some (-rval) else none
  | _ => none

section

variable (ops : Operators)

/-- The operator behind a term, with `binflg`. -/
def following (sym : String) : Option (Bool × Op) :=
  match ops .BINARY sym with
  | some op => some (true, op)
  | none => (ops .POSTFIX sym).map fun op => (false, op)

mutual

/-- `get_imagoterm`. -/
def getImagoterm : ℕ → ℕ → State → Parse (Option (Term Var))
  | 0, _, _ => none
  | k + 1, n, s =>
    match s.token with
    | .name sym => nameTerm k n sym (imagoscan s)
    | .var v => operators k n 0 (some (.var v)) (imagoscan s)
    | .real rval => operators k n 0 (some (.real rval)) (imagoscan s)
    | .paren .lparen =>
      (getImagoterm k MAXPRI (imagoscan { s with commaFlg := false })).andThen fun t s₁ =>
        (expect .rparen "expected closing ')'" { s₁ with commaFlg := s.commaFlg }).andThen
          fun _ s₂ => operators k n 0 t s₂
    | .paren .lbracket =>
      (getList k { s with commaFlg := true, barFlg := true }).andThen fun t s₁ =>
        (expect .rbracket "expected closing ]"
          { s₁ with commaFlg := s.commaFlg, barFlg := s.barFlg }).andThen
            fun _ s₂ => operators k n 0 (some t) s₂
    | _ => done none s
termination_by structural k => k

/-- The case `NAME` of `get_imagoterm`, after the next token has been scanned. -/
def nameTerm : ℕ → ℕ → String → State → Parse (Option (Term Var))
  | 0, _, _, _ => none
  | k + 1, n, sym, s =>
    match ops .PREFIX sym with
    | some op =>
      match negated sym s.token with
      | some rval => operators k n 0 (some (.real rval)) (imagoscan s)
      | none =>
        if op.pri ≤ n then
          (getImagoterm k op.right s).andThen fun t s₁ =>
            t.elim (done (some (.func sym [])) s₁) fun t =>
              operators k n 0 (some (.func sym [t])) s₁
        else done (some (.func sym [])) s
    | none =>
      if s.token = .paren .lparen then
        (getArgs k s).andThen fun args s₁ => operators k n 0 (some (.func sym args)) s₁
      else operators k n 0 (some (.func sym [])) s
termination_by structural k => k

/-- The loop of `get_imagoterm`, which keeps `oldpri` and `exp[0]`. -/
def operators : ℕ → ℕ → ℕ → Option (Term Var) → State → Parse (Option (Term Var))
  | 0, _, _, _, _ => none
  | k + 1, n, oldpri, exp, s =>
    match s.token with
    | .name sym =>
      match following ops sym with
      | none => done exp s
      | some (binflg, op) =>
        if n < op.pri then done exp s
        else if op.left < oldpri then done exp s
        else if binflg then
          ((getImagoterm k op.right (imagoscan s)).require "expected right operand").andThen
            fun t s₁ =>
              match exp with
              | none => fail .fault
              | some e => operators k n op.pri (some (.func sym [e, t])) s₁
        else
          match exp with
          | none => fail .fault
          | some e => operators k n op.pri (some (.func sym [e])) (imagoscan s)
    | _ => done exp s
termination_by structural k => k

/-- `get_args`. -/
def getArgs : ℕ → State → Parse (List (Term Var))
  | 0, _ => none
  | k + 1, s =>
    (((getImagoterm k MAXPRI (imagoscan { s with commaFlg := true })).require
      "expected first argument").andThen fun t s₁ =>
        (moreArgs k s₁).andThen fun ts s₂ => done (t :: ts) s₂).andThen fun args s₂ =>
          (expect .rparen "expected ')' to close functor"
          { s₂ with commaFlg := s.commaFlg }).andThen
            fun _ s₃ => done args s₃
termination_by structural k => k

/-- The loop of `get_args`. -/
def moreArgs : ℕ → State → Parse (List (Term Var))
  | 0, _ => none
  | k + 1, s =>
    if s.token = .punc .comma then
      ((getImagoterm k MAXPRI (imagoscan s)).require "expected argument").andThen fun t s₁ =>
        (moreArgs k s₁).andThen fun ts s₂ => done (t :: ts) s₂
    else done [] s
termination_by structural k => k

/-- `get_list`. -/
def getList : ℕ → State → Parse (Term Var)
  | 0, _ => none
  | k + 1, s =>
    ((getImagoterm k MAXPRI (imagoscan s)).require "malformed list head").andThen fun t s₁ =>
      if s₁.token = .punc .bar then
        ((getImagoterm k MAXPRI (imagoscan s₁)).require "malformed list tail").andThen
          fun t' s₂ => done (.cons t t') s₂
      else if s₁.token = .punc .comma then
        (getList k s₁).andThen fun t' s₂ => done (.cons t t') s₂
      else if s₁.token = .paren .rbracket then done (.cons t .nil) s₁
      else fail (.syntaxError "expected one of \x7b'|',',',']'\x7d in list")
termination_by structural k => k
end

/-- The most variables of a clause. -/
def MAXVAR : ℕ := 200

/-- `getimagoterm`, for calls up to a depth. It ends at a full stop, which stays the token, and more
than `MAXVAR` variables run over their table. -/
def getimagotermFrom (k : ℕ) (ls : List Lexeme) : Parse (Option (Term Var)) :=
  let s := imagoscan ⟨false, false, .zero, .endfile, ls⟩
  if s.token = .endfile then done none s
  else (getImagoterm ops k MAXPRI s).andThen fun t s₁ =>
    if MAXVAR < s₁.vars.used.length then fail .fault
    else if s₁.token = .punc .dot then
      ((done t s₁).require "expected a term").andThen fun t s₂ => done (some t) s₂
    else if s₁.token = .endfile then fail (.syntaxError "unexpected end of file in term")
    else fail (.syntaxError "unexpected symbol (expected '.')")

/-- `getimagoterm`. -/
def getimagoterm (ls : List Lexeme) : Parse (Option (Term Var)) :=
  getimagotermFrom ops (3 * ls.length + 1) ls

/-- The terms that the loop of `readsourcefile` gets, for a bound on their number. The first term
that cannot be read, or that `check_clause` does not accept, ends the loop. -/
def readTermsFrom (accepts : Term Var → Bool) :
    ℕ → List Lexeme → Option (Except Failure (List (Term Var)))
  | 0, _ => none
  | k + 1, ls =>
    (getimagoterm ops ls).bind fun
      | .ok (some t, s) =>
        if accepts t then (readTermsFrom accepts k s.rest).map (Except.map (t :: ·))
        else some (.ok [])
      | .ok (none, _) => some (.ok [])
      | .error (.syntaxError _) => some (.ok [])
      | .error .fault => some (.error .fault)

/-- The terms that `readsourcefile` gets and `check_clause` accepts. -/
def readTerms (accepts : Term Var → Bool) (ls : List Lexeme) :
    Option (Except Failure (List (Term Var))) :=
  readTermsFrom ops accepts (ls.length + 1) ls

end

end Parsing

end Mlvm
