import Mlvm.Imagoc.OperatorGrammar
import Mlvm.Fuel.Comes

/-!
# What is written is read

The parser reads every properly written text, whatever the table of operators.

The parser has always scanned the token after what it has read, so its state is `scanned comma bar
vs us`, where `us` is still to be read. In the state before `ts ++ us`, where `ts` writes a term
with operators, it comes to the loop with that term and `us` (`ReadsClimb`); whether the loop goes
on depends on `us` (`Stops`).
-/

namespace Mlvm

namespace Parsing

open Fuel

variable {α β : Type} {ops : Operators} {comma bar : Bool} {vs : Vars} {us ts : List Lexeme}

/-! ## States -/

/-- The state in which a text is to be read. -/
def scanned (comma bar : Bool) (vs : Vars) (ls : List Lexeme) : State :=
  imagoscan ⟨comma, bar, vs, .endfile, ls⟩

theorem imagoscan_eq (s : State) :
    imagoscan s = scanned s.commaFlg s.barFlg s.vars s.rest := by
  unfold scanned imagoscan
  cases s.rest with
  | nil => rfl
  | cons l ls => rfl

theorem scanned_cons (comma bar : Bool) (vs : Vars) (l : Lexeme) (ls : List Lexeme) :
    scanned comma bar vs (l :: ls) =
      ⟨comma, bar, (l.token comma bar vs).2, (l.token comma bar vs).1, ls⟩ := rfl

theorem Lexeme.IsName.token {l : Lexeme} {sym : String} (h : l.IsName comma bar sym) (vs : Vars) :
    l.token comma bar vs = (.name sym, vs) := by
  cases l with
  | name s => rw [← (h : s = sym), Lexeme.token]
  | comma =>
    obtain ⟨hc, rfl⟩ := h
    simp [Lexeme.token, hc]
  | bar =>
    obtain ⟨hb, rfl⟩ := h
    simp [Lexeme.token, hb]
  | _ => exact absurd h (by simp [Lexeme.IsName])

theorem scanned_name {l : Lexeme} {sym : String} (h : l.IsName comma bar sym) (vs : Vars)
    (ls : List Lexeme) : scanned comma bar vs (l :: ls) = ⟨comma, bar, vs, .name sym, ls⟩ := by
  rw [scanned_cons, h.token]

/-- The tokens that end a term. -/
def Token.Ends : Token → Prop
  | .punc _ => True
  | .paren c => c = .rparen ∨ c = .rbracket
  | .endfile => True
  | _ => False

/-- A text that ends a term. -/
def Closing (comma bar : Bool) (us : List Lexeme) : Prop :=
  ∀ l ∈ us.head?, l.Closes comma bar

theorem Lexeme.Closes.closing {l : Lexeme} (h : l.Closes comma bar) (us : List Lexeme) :
    Closing comma bar (l :: us) := by
  intro l' hl'
  cases hl'
  exact h

theorem closing_rparen (us : List Lexeme) : Closing comma bar (.paren .rparen :: us) :=
  Lexeme.Closes.closing (l := .paren .rparen) (Or.inl rfl) us

theorem closing_rbracket (us : List Lexeme) : Closing comma bar (.paren .rbracket :: us) :=
  Lexeme.Closes.closing (l := .paren .rbracket) (Or.inr rfl) us

theorem closing_comma (us : List Lexeme) : Closing true bar (.comma :: us) :=
  Lexeme.Closes.closing (l := .comma) rfl us

theorem closing_bar (us : List Lexeme) : Closing comma true (.bar :: us) :=
  Lexeme.Closes.closing (l := .bar) rfl us

theorem Closing.ends (h : Closing comma bar us) (vs : Vars) :
    (scanned comma bar vs us).token.Ends := by
  cases us with
  | nil => trivial
  | cons l us =>
    have hl := h l rfl
    cases l with
    | comma => simp_all [Lexeme.Closes, scanned_cons, Lexeme.token, Token.Ends]
    | bar => simp_all [Lexeme.Closes, scanned_cons, Lexeme.token, Token.Ends]
    | paren c => exact hl
    | stop => trivial
    | _ => exact absurd hl (by simp [Lexeme.Closes])

/-- A text in front of which the loop stops, when priorities up to `m` are accepted. -/
def Stops (ops : Operators) (comma bar : Bool) (m : ℕ) (us : List Lexeme) : Prop :=
  ∀ l ∈ us.head?, l.Closes comma bar ∨
    ∃ sym, l.IsName comma bar sym ∧ ∀ q, following ops sym = some q → m < q.2.pri

theorem Closing.stops (h : Closing comma bar us) (m : ℕ) : Stops ops comma bar m us :=
  fun l hl => Or.inl (h l hl)

theorem Stops.mono {m m' : ℕ} (h : Stops ops comma bar m us) (hm : m' ≤ m) :
    Stops ops comma bar m' us := by
  intro l hl
  refine (h l hl).imp id ?_
  rintro ⟨sym, hname, hpri⟩
  exact ⟨sym, hname, fun q hq => Nat.lt_of_le_of_lt hm (hpri q hq)⟩

/-- An atom in front of it is not taken for a functor. -/
theorem Stops.not_lparen {m : ℕ} (h : Stops ops comma bar m us) (vs : Vars) :
    (scanned comma bar vs us).token ≠ .paren .lparen := by
  cases us with
  | nil => exact Token.noConfusion
  | cons l us =>
    rcases h l rfl with hl | ⟨sym, hname, -⟩
    · have hends := (hl.closing us).ends vs
      intro htoken
      rw [htoken] at hends
      exact absurd hends (by simp [Token.Ends])
    · rw [scanned_name hname]
      exact Token.noConfusion

/-! ## Calls one after the other -/

theorem comes_andThen {g : ℕ → Parse α} {a : α} {s : State} {k : ℕ → α → State → Parse β}
    {o : Parse β} (hg : Comes g (done a s)) (hk : Comes (fun n => k n a s) o) :
    Comes (fun n => (g n).andThen (k n)) o :=
  hg.bind hk

theorem comes_require {g : ℕ → Parse (Option α)} {a : α} {s : State}
    (hg : Comes g (done (some a) s)) (msg : String) :
    Comes (fun n => (g n).require msg) (done a s) :=
  comes_andThen hg (comes_const _)

theorem comes_done (a : α) (s : State) : Comes (fun _ => done a s) (done a s) := comes_const _

/-- The loop stops. -/
theorem operators_stops {n : ℕ} (h : Stops ops comma bar n us) (p : ℕ) (exp : Option (Term Var))
    (vs : Vars) : Comes (fun k => operators ops k n p exp (scanned comma bar vs us))
      (done exp (scanned comma bar vs us)) := by
  refine Comes.of_succ rfl ?_
  refine (comes_done exp _).congr fun k => ?_
  cases us with
  | nil => rfl
  | cons l us =>
    rcases h l rfl with hl | ⟨sym, hname, hpri⟩
    · have hends := (hl.closing us).ends vs
      rw [operators]
      generalize (scanned comma bar vs (l :: us)).token = token at hends ⊢
      cases token with
      | name sym => exact hends.elim
      | _ => rfl
    · rw [scanned_name hname, operators]
      cases hfollow : following ops sym with
      | none => simp only [hfollow]
      | some q => simp only [hfollow, if_pos (hpri q hfollow)]

/-- No term begins here. -/
theorem getImagoterm_closing (h : Closing comma bar us) (n : ℕ) (vs : Vars) :
    Comes (fun k => getImagoterm ops k n (scanned comma bar vs us))
      (done none (scanned comma bar vs us)) := by
  refine Comes.of_succ rfl ?_
  refine (comes_done none _).congr fun k => ?_
  have hends := h.ends vs
  rw [getImagoterm]
  generalize (scanned comma bar vs us).token = token at hends ⊢
  cases token with
  | paren c =>
    rcases hends with rfl | rfl
    · rfl
    · rfl
  | punc c => rfl
  | endfile => rfl
  | _ => exact hends.elim

/-- A name is read. -/
theorem getImagoterm_name {l : Lexeme} {sym : String} {n : ℕ} {o : Parse (Option (Term Var))}
    (hl : l.IsName comma bar sym)
    (h : Comes (fun k => nameTerm ops k n sym (scanned comma bar vs us)) o) :
    Comes (fun k => getImagoterm ops k n (scanned comma bar vs (l :: us))) o := by
  refine Comes.of_succ rfl (h.congr fun k => ?_)
  rw [scanned_name hl, getImagoterm, imagoscan_eq]

/-- The loop takes an operator with its right operand. -/
theorem operators_binary {l : Lexeme} {sym : String} {op : Op} {n p : ℕ} {e t : Term Var}
    {s : State} {o : Parse (Option (Term Var))} (hl : l.IsName comma bar sym)
    (hop : ops .BINARY sym = some op) (hpri : op.pri ≤ n) (hleft : p ≤ op.left)
    (ht : Comes (fun k => getImagoterm ops k op.right (scanned comma bar vs us)) (done (some t) s))
    (h : Comes (fun k => operators ops k n op.pri (some (.func sym [e, t])) s) o) :
    Comes (fun k => operators ops k n p (some e) (scanned comma bar vs (l :: us))) o := by
  have hboth : Comes (fun k => ((getImagoterm ops k op.right (scanned comma bar vs us)).require
      "expected right operand").andThen fun t s => operators ops k n op.pri
        (some (.func sym [e, t])) s) o := comes_andThen (comes_require ht _) h
  refine Comes.of_succ rfl (hboth.congr fun k => ?_)
  rw [scanned_name hl, operators]
  simp only [following, hop, imagoscan_eq, if_neg (Nat.not_lt.2 hpri), if_neg (Nat.not_lt.2 hleft),
    if_true]

/-- The loop takes an operator that stands behind its operand. -/
theorem operators_behind {l : Lexeme} {sym : String} {op : Op} {n p : ℕ} {e : Term Var}
    {o : Parse (Option (Term Var))} (hl : l.IsName comma bar sym)
    (hbin : ops .BINARY sym = none) (hop : ops .POSTFIX sym = some op) (hpri : op.pri ≤ n)
    (hleft : p ≤ op.left)
    (h : Comes (fun k => operators ops k n op.pri (some (.func sym [e]))
      (scanned comma bar vs us)) o) :
    Comes (fun k => operators ops k n p (some e) (scanned comma bar vs (l :: us))) o := by
  refine Comes.of_succ rfl (h.congr fun k => ?_)
  rw [scanned_name hl, operators]
  simp only [following, hbin, hop, Option.map_some, imagoscan_eq, if_neg (Nat.not_lt.2 hpri),
    if_neg (Nat.not_lt.2 hleft), Bool.false_eq_true, if_false]

section

variable {n : ℕ} {sym : String} {s s' : State} {o : Parse (Option (Term Var))}

theorem nameTerm_atom (hop : ops .PREFIX sym = none) (hs : s.token ≠ .paren .lparen)
    (h : Comes (fun k => operators ops k n 0 (some (.func sym [])) s) o) :
    Comes (fun k => nameTerm ops k n sym s) o := by
  refine Comes.of_succ rfl (h.congr fun k => ?_)
  rw [nameTerm]
  simp only [hop, if_neg hs]

theorem nameTerm_call {args : List (Term Var)} (hop : ops .PREFIX sym = none)
    (hs : s.token = .paren .lparen) (hargs : Comes (fun k => getArgs ops k s) (done args s'))
    (h : Comes (fun k => operators ops k n 0 (some (.func sym args)) s') o) :
    Comes (fun k => nameTerm ops k n sym s) o := by
  have hboth : Comes (fun k => (getArgs ops k s).andThen fun args s =>
      operators ops k n 0 (some (.func sym args)) s) o := comes_andThen hargs h
  refine Comes.of_succ rfl (hboth.congr fun k => ?_)
  rw [nameTerm]
  simp only [hop, if_pos hs]

theorem nameTerm_negative {rval : ℚ} (hop : ops .PREFIX "-" ≠ none)
    (hs : s.token = .real rval)
    (h : Comes (fun k => operators ops k n 0 (some (.real (-rval))) (imagoscan s)) o) :
    Comes (fun k => nameTerm ops k n "-" s) o := by
  obtain ⟨op, hop⟩ := Option.ne_none_iff_exists'.1 hop
  refine Comes.of_succ rfl (h.congr fun k => ?_)
  rw [nameTerm]
  simp only [hop, hs, negated, if_true]

theorem nameTerm_before {op : Op} {t : Term Var} (hop : ops .PREFIX sym = some op)
    (hs : negated sym s.token = none) (hpri : op.pri ≤ n)
    (ht : Comes (fun k => getImagoterm ops k op.right s) (done (some t) s'))
    (h : Comes (fun k => operators ops k n 0 (some (.func sym [t])) s') o) :
    Comes (fun k => nameTerm ops k n sym s) o := by
  have hboth : Comes (fun k => (getImagoterm ops k op.right s).andThen fun t s =>
      t.elim (done (some (.func sym [])) s) fun t =>
        operators ops k n 0 (some (.func sym [t])) s) o := comes_andThen ht h
  refine Comes.of_succ rfl (hboth.congr fun k => ?_)
  rw [nameTerm]
  simp only [hop, hs, if_pos hpri]

/-- An operator without an operand is an atom. -/
theorem nameTerm_alone (hop : ops .PREFIX sym ≠ none) (h : Closing comma bar us) (n : ℕ)
    (vs : Vars) : Comes (fun k => nameTerm ops k n sym (scanned comma bar vs us))
      (done (some (.func sym [])) (scanned comma bar vs us)) := by
  obtain ⟨op, hop⟩ := Option.ne_none_iff_exists'.1 hop
  have hs : negated sym (scanned comma bar vs us).token = none := by
    have hends := h.ends vs
    cases htoken : (scanned comma bar vs us).token with
    | real rval => exact absurd (htoken ▸ hends) (by simp [Token.Ends])
    | _ => rfl
  have hboth : Comes (fun k =>
      (getImagoterm ops k op.right (scanned comma bar vs us)).andThen fun t s =>
        t.elim (done (some (.func sym [])) s) fun t =>
          operators ops k n 0 (some (.func sym [t])) s)
      (done (some (.func sym [])) (scanned comma bar vs us)) :=
    comes_andThen (getImagoterm_closing h op.right vs) (comes_done _ _)
  by_cases hpri : op.pri ≤ n
  · refine Comes.of_succ rfl (hboth.congr fun k => ?_)
    rw [nameTerm]
    simp only [hop, hs, if_pos hpri]
  · refine Comes.of_succ rfl ((comes_done _ _).congr fun k => ?_)
    rw [nameTerm]
    simp only [hop, hs, if_neg hpri]

end

/-! ## Brackets -/

theorem expect_scanned (comma bar comma' bar' : Bool) (c : Bracket) (msg : String) (vs : Vars)
    (us : List Lexeme) :
    expect c msg { scanned comma bar vs (.paren c :: us) with commaFlg := comma', barFlg := bar' } =
      done () (scanned comma' bar' vs us) := by
  rw [expect, scanned_cons, imagoscan_eq]
  exact if_pos rfl

section

variable {n : ℕ} {t : Term Var} {vs' : Vars} {o : Parse (Option (Term Var))}

theorem getImagoterm_brackets
    (ht : Comes (fun k => getImagoterm ops k MAXPRI (scanned false bar vs ts))
      (done (some t) (scanned false bar vs' (.paren .rparen :: us))))
    (h : Comes (fun k => operators ops k n 0 (some t) (scanned comma bar vs' us)) o) :
    Comes (fun k => getImagoterm ops k n (scanned comma bar vs (.paren .lparen :: ts))) o := by
  have hclose := expect_scanned false bar comma bar .rparen "expected closing ')'" vs' us
  have hboth : Comes (fun k => (getImagoterm ops k MAXPRI (scanned false bar vs ts)).andThen
      fun t s₁ => (expect .rparen "expected closing ')'" { s₁ with commaFlg := comma }).andThen
        fun _ s₂ => operators ops k n 0 t s₂) o := by
    refine comes_andThen ht (h.congr fun k => ?_)
    exact congrArg (fun p => Parse.andThen p fun _ s₂ => operators ops k n 0 (some t) s₂) hclose
  refine Comes.of_succ rfl (hboth.congr fun k => ?_)
  rw [scanned_cons, getImagoterm]
  rfl

theorem getImagoterm_list
    (ht : ∀ s : State, imagoscan s = scanned true true vs ts →
      Comes (fun k => getList ops k s) (done t (scanned true true vs' (.paren .rbracket :: us))))
    (h : Comes (fun k => operators ops k n 0 (some t) (scanned comma bar vs' us)) o) :
    Comes (fun k => getImagoterm ops k n (scanned comma bar vs (.paren .lbracket :: ts))) o := by
  have hclose := expect_scanned true true comma bar .rbracket "expected closing ]" vs' us
  have hboth : Comes (fun k => (getList ops k ⟨true, true, vs, .paren .lbracket, ts⟩).andThen
      fun t s₁ => (expect .rbracket "expected closing ]"
        { s₁ with commaFlg := comma, barFlg := bar }).andThen
          fun _ s₂ => operators ops k n 0 (some t) s₂) o := by
    refine comes_andThen (ht _ (imagoscan_eq _)) (h.congr fun k => ?_)
    exact congrArg (fun p => Parse.andThen p fun _ s₂ => operators ops k n 0 (some t) s₂) hclose
  refine Comes.of_succ rfl (hboth.congr fun k => ?_)
  rw [scanned_cons, getImagoterm]
  rfl

theorem getArgs_brackets {args : List (Term Var)}
    (h : ∀ msg, Comes (fun k =>
      ((getImagoterm ops k MAXPRI (scanned true bar vs ts)).require msg).andThen fun t s₁ =>
        (moreArgs ops k s₁).andThen fun ts s₂ => done (t :: ts) s₂)
      (done args (scanned true bar vs' (.paren .rparen :: us)))) :
    Comes (fun k => getArgs ops k (scanned comma bar vs (.paren .lparen :: ts)))
      (done args (scanned comma bar vs' us)) := by
  have hclose := expect_scanned true bar comma bar .rparen "expected ')' to close functor" vs' us
  have hboth : Comes (fun k =>
      (((getImagoterm ops k MAXPRI (scanned true bar vs ts)).require
        "expected first argument").andThen fun t s₁ =>
          (moreArgs ops k s₁).andThen fun ts s₂ => done (t :: ts) s₂).andThen fun args s₂ =>
            (expect .rparen "expected ')' to close functor" { s₂ with commaFlg := comma }).andThen
              fun _ s₃ => done args s₃) (done args (scanned comma bar vs' us)) := by
    refine comes_andThen (h _) ((comes_done _ _).congr fun k => ?_)
    exact congrArg (fun p => Parse.andThen p fun _ s₃ => done args s₃) hclose
  refine Comes.of_succ rfl (hboth.congr fun k => ?_)
  rw [scanned_cons, getArgs]
  rfl

end

/-! ## The grammar -/

theorem Climb.last_le {n p r : ℕ} {t : Term String} (h : Climb ops comma bar n p r ts t) :
    r ≤ n := by
  cases h with
  | basic => exact Nat.zero_le _
  | before hl hop hpri => exact Nat.le_trans (Op.right_le _) hpri
  | between ht hl hop hpri => exact Nat.le_trans (Op.right_le _) hpri
  | behind => exact Nat.zero_le _

theorem Climb.ne_nil {n p r : ℕ} {t : Term String} (h : Climb ops comma bar n p r ts t) :
    ts ≠ [] := by
  cases h with
  | basic n ht => cases ht <;> simp
  | _ => simp

/-- A term behind a minus sign that does not begin with a number. -/
theorem negated_eq_none {sym : String}
    (h : sym = "-" → ∀ rval, ts.head? ≠ some (.real rval)) (hts : ts ≠ []) (vs : Vars)
    (us : List Lexeme) : negated sym (scanned comma bar vs (ts ++ us)).token = none := by
  obtain ⟨l, ts, rfl⟩ := List.exists_cons_of_ne_nil hts
  rw [List.cons_append, scanned_cons]
  cases l with
  | real rval => exact if_neg fun hsym => h hsym rval rfl
  | comma => cases comma <;> rfl
  | bar => cases bar <;> rfl
  | _ => rfl

/-! ## One production at a time -/

section

variable (ops)

/-- A term is read, and the loop is entered with it. -/
def ReadsBasic (comma bar : Bool) (ts : List Lexeme) (t : Term String) : Prop :=
  ∀ (n : ℕ) (vs : Vars) (us : List Lexeme),
    (∀ vs', (scanned comma bar vs' us).token ≠ .paren .lparen) → ∀ o,
      Comes (fun k => operators ops k n 0 (some (t.number vs).1)
        (scanned comma bar (t.number vs).2 us)) o →
      Comes (fun k => getImagoterm ops k n (scanned comma bar vs (ts ++ us))) o

/-- Arguments are read up to the bracket. -/
def ReadsItems (bar : Bool) (ts : List Lexeme) (args : List (Term String)) : Prop :=
  ∀ (vs : Vars) (us : List Lexeme) (msg : String),
    Comes (fun k => ((getImagoterm ops k MAXPRI
      (scanned true bar vs (ts ++ .paren .rparen :: us))).require msg).andThen fun t s₁ =>
        (moreArgs ops k s₁).andThen fun ts s₂ => done (t :: ts) s₂)
      (done (numberAll args vs).1 (scanned true bar (numberAll args vs).2 (.paren .rparen :: us)))

/-- The elements of a list are read up to the bracket. -/
def ReadsElements (ts : List Lexeme) (t : Term String) : Prop :=
  ∀ (vs : Vars) (us : List Lexeme) (s : State),
    imagoscan s = scanned true true vs (ts ++ .paren .rbracket :: us) →
      Comes (fun k => getList ops k s)
        (done (t.number vs).1 (scanned true true (t.number vs).2 (.paren .rbracket :: us)))

/-- A term of priority `p` is read, and the loop comes to it with no higher `oldpri`. -/
def ReadsClimb (comma bar : Bool) (n p r : ℕ) (ts : List Lexeme) (t : Term String) : Prop :=
  ∀ (vs : Vars) (us : List Lexeme), Stops ops comma bar r us →
    ∃ q ≤ p, ∀ o, Comes (fun k => operators ops k n q (some (t.number vs).1)
      (scanned comma bar (t.number vs).2 us)) o →
        Comes (fun k => getImagoterm ops k n (scanned comma bar vs (ts ++ us))) o

/-- A term is read up to what ends it. -/
def ReadsWhole (comma bar : Bool) (ts : List Lexeme) (t : Term String) : Prop :=
  ∀ (vs : Vars) (us : List Lexeme), Closing comma bar us →
    Comes (fun k => getImagoterm ops k MAXPRI (scanned comma bar vs (ts ++ us)))
      (done (some (t.number vs).1) (scanned comma bar (t.number vs).2 us))

end

section

variable {l : Lexeme} {sym : String} {t t' : Term String} {args : List (Term String)}

theorem reads_var (sym : String) : ReadsBasic ops comma bar [.var sym] (.var sym) := by
  intro n vs us _ o ho
  refine Comes.of_succ rfl (ho.congr fun k => ?_)
  rw [List.singleton_append, scanned_cons, getImagoterm, imagoscan_eq]
  rfl

theorem reads_real (rval : ℚ) : ReadsBasic ops comma bar [.real rval] (.real rval) := by
  intro n vs us _ o ho
  refine Comes.of_succ rfl (ho.congr fun k => ?_)
  rw [List.singleton_append, scanned_cons, getImagoterm, imagoscan_eq]
  rfl

theorem reads_negative (rval : ℚ) (hop : ops .PREFIX "-" ≠ none) :
    ReadsBasic ops comma bar [.name "-", .real rval] (.real (-rval)) := by
  intro n vs us _ o ho
  refine getImagoterm_name (rfl : Lexeme.IsName comma bar "-" (.name "-")) ?_
  refine nameTerm_negative hop rfl (ho.congr fun k => ?_)
  rw [imagoscan_eq]
  rfl

theorem reads_atom (hl : l.IsName comma bar sym) (hop : ops .PREFIX sym = none) :
    ReadsBasic ops comma bar [l] (.func sym []) := by
  intro n vs us hus o ho
  rw [List.singleton_append]
  exact getImagoterm_name hl (nameTerm_atom hop (hus vs) ho)

theorem reads_compound (hl : l.IsName comma bar sym) (hop : ops .PREFIX sym = none)
    (hargs : ReadsItems ops bar ts args) :
    ReadsBasic ops comma bar (l :: .paren .lparen :: ts ++ [.paren .rparen]) (.func sym args) := by
  intro n vs us _ o ho
  rw [List.cons_append, List.cons_append, List.append_assoc]
  exact getImagoterm_name hl
    (nameTerm_call hop rfl (getArgs_brackets fun msg => hargs vs us msg) ho)

theorem reads_brackets (ht : ReadsWhole ops false bar ts t) :
    ReadsBasic ops comma bar (.paren .lparen :: ts ++ [.paren .rparen]) t := by
  intro n vs us _ o ho
  rw [List.cons_append, List.cons_append, List.append_assoc]
  exact getImagoterm_brackets (ht vs _ (closing_rparen us)) ho

theorem reads_list (ht : ReadsElements ops ts t) :
    ReadsBasic ops comma bar (.paren .lbracket :: ts ++ [.paren .rbracket]) t := by
  intro n vs us _ o ho
  rw [List.cons_append, List.cons_append, List.append_assoc]
  exact getImagoterm_list (fun s hs => ht vs us s hs) ho

theorem reads_item (ht : ReadsWhole ops true bar ts t) : ReadsItems ops bar ts [t] := by
  intro vs us msg
  have hfirst := ht vs (.paren .rparen :: us) (closing_rparen us)
  refine comes_andThen (comes_require hfirst msg) ?_
  refine comes_andThen (Comes.of_succ rfl ?_) (comes_done _ _)
  exact (comes_done [] _).congr fun k => rfl

theorem reads_items {ts' : List Lexeme} (ht : ReadsWhole ops true bar ts t)
    (hargs : ReadsItems ops bar ts' args) :
    ReadsItems ops bar (ts ++ .comma :: ts') (t :: args) := by
  intro vs us msg
  rw [List.append_assoc]
  have hfirst := ht vs (.comma :: ts' ++ .paren .rparen :: us) (closing_comma _)
  refine comes_andThen (comes_require hfirst msg) ?_
  refine comes_andThen (Comes.of_succ rfl ?_) (comes_done _ _)
  exact (hargs (t.number vs).2 us "expected argument").congr fun k => rfl

theorem reads_element (ht : ReadsWhole ops true true ts t) :
    ReadsElements ops ts (.cons t .nil) := by
  intro vs us s hs
  have hhead := ht vs (.paren .rbracket :: us) (closing_rbracket us)
  rw [← hs] at hhead
  refine Comes.of_succ rfl (comes_andThen (comes_require hhead _) ?_)
  exact (comes_done _ _).congr fun k => rfl

theorem reads_tail {ts' : List Lexeme} (ht : ReadsWhole ops true true ts t)
    (ht' : ReadsWhole ops true true ts' t') :
    ReadsElements ops (ts ++ .bar :: ts') (.cons t t') := by
  intro vs us s hs
  rw [List.append_assoc] at hs
  have hhead := ht vs (.bar :: ts' ++ .paren .rbracket :: us) (closing_bar _)
  have htail := ht' (t.number vs).2 (.paren .rbracket :: us) (closing_rbracket us)
  rw [← hs] at hhead
  refine Comes.of_succ rfl (comes_andThen (comes_require hhead _) ?_)
  exact comes_andThen (comes_require htail _) (comes_done _ _)

theorem reads_elements {ts' : List Lexeme} (ht : ReadsWhole ops true true ts t)
    (ht' : ReadsElements ops ts' t') : ReadsElements ops (ts ++ .comma :: ts') (.cons t t') := by
  intro vs us s hs
  rw [List.append_assoc] at hs
  have hhead := ht vs (.comma :: ts' ++ .paren .rbracket :: us) (closing_comma _)
  rw [← hs] at hhead
  refine Comes.of_succ rfl (comes_andThen (comes_require hhead _) ?_)
  exact comes_andThen (ht' (t.number vs).2 us _ (imagoscan_eq _)) (comes_done _ _)

theorem reads_basic (n : ℕ) (ht : ReadsBasic ops comma bar ts t) :
    ReadsClimb ops comma bar n 0 0 ts t :=
  fun vs us hus => ⟨0, Nat.le_refl _, fun o ho => ht n vs us hus.not_lparen o ho⟩

/-- A term that stops at `us` is read. -/
theorem ReadsClimb.stops {n p r : ℕ} (ht : ReadsClimb ops comma bar n p r ts t) (hr : r ≤ n)
    (hus : Stops ops comma bar n us) (vs : Vars) :
    Comes (fun k => getImagoterm ops k n (scanned comma bar vs (ts ++ us)))
      (done (some (t.number vs).1) (scanned comma bar (t.number vs).2 us)) := by
  obtain ⟨q, -, hreads⟩ := ht vs us (hus.mono hr)
  exact hreads _ (operators_stops hus q _ _)

section

variable {n p r : ℕ} {op : Op}

theorem reads_before {p' r' : ℕ} (hl : l.IsName comma bar sym) (hop : ops .PREFIX sym = some op)
    (hpri : op.pri ≤ n) (hreal : sym = "-" → ∀ rval, ts.head? ≠ some (.real rval))
    (h : Climb ops comma bar op.right p' r' ts t)
    (ht : ReadsClimb ops comma bar op.right p' r' ts t) :
    ReadsClimb ops comma bar n op.pri op.right (l :: ts) (.func sym [t]) := by
  intro vs us hus
  refine ⟨0, Nat.zero_le _, fun o ho => ?_⟩
  have hoperand := ht.stops h.last_le hus vs
  have hneg : negated sym (scanned comma bar vs (ts ++ us)).token = none :=
    negated_eq_none hreal h.ne_nil vs us
  exact getImagoterm_name hl (nameTerm_before hop hneg hpri hoperand ho)

theorem reads_between {ts' : List Lexeme} {p' r' : ℕ} (ht : ReadsClimb ops comma bar n p r ts t)
    (hl : l.IsName comma bar sym) (hop : ops .BINARY sym = some op) (hpri : op.pri ≤ n)
    (hleft : p ≤ op.left) (hlast : r < op.pri) (h' : Climb ops comma bar op.right p' r' ts' t')
    (ht' : ReadsClimb ops comma bar op.right p' r' ts' t') :
    ReadsClimb ops comma bar n op.pri op.right (ts ++ l :: ts') (.func sym [t, t']) := by
  intro vs us hus
  have hstops : Stops ops comma bar r (l :: ts' ++ us) := by
    intro l' hl'
    cases hl'
    refine Or.inr ⟨sym, hl, fun q hq => ?_⟩
    simp only [following, hop] at hq
    cases hq
    exact hlast
  obtain ⟨q, hq, hreads⟩ := ht vs (l :: ts' ++ us) hstops
  have hoperand := ht'.stops h'.last_le hus (t.number vs).2
  refine ⟨op.pri, Nat.le_refl _, fun o ho => ?_⟩
  rw [List.append_assoc]
  exact hreads o (operators_binary hl hop hpri (Nat.le_trans hq hleft) hoperand ho)

theorem reads_behind (ht : ReadsClimb ops comma bar n p r ts t) (hl : l.IsName comma bar sym)
    (hbin : ops .BINARY sym = none) (hop : ops .POSTFIX sym = some op) (hpri : op.pri ≤ n)
    (hleft : p ≤ op.left) (hlast : r < op.pri) :
    ReadsClimb ops comma bar n op.pri 0 (ts ++ [l]) (.func sym [t]) := by
  intro vs us _
  have hstops : Stops ops comma bar r (l :: us) := by
    intro l' hl'
    cases hl'
    refine Or.inr ⟨sym, hl, fun q hq => ?_⟩
    simp only [following, hbin, hop, Option.map_some] at hq
    cases hq
    exact hlast
  obtain ⟨q, hq, hreads⟩ := ht vs (l :: us) hstops
  refine ⟨op.pri, Nat.le_refl _, fun o ho => ?_⟩
  rw [List.append_assoc]
  exact hreads o (operators_behind hl hbin hop hpri (Nat.le_trans hq hleft) ho)

end

theorem reads_alone (hl : l.IsName comma bar sym) (hop : ops .PREFIX sym ≠ none) :
    ReadsWhole ops comma bar [l] (.func sym []) := by
  intro vs us hus
  rw [List.singleton_append]
  exact getImagoterm_name hl (nameTerm_alone hop hus MAXPRI vs)

/-- **A term that is properly written is read**, up to whatever ends it. -/
theorem Whole.reads (h : Whole ops comma bar ts t) : ReadsWhole ops comma bar ts t := by
  apply @Whole.rec ops (fun comma bar ts t _ => ReadsBasic ops comma bar ts t)
    (fun bar ts args _ => ReadsItems ops bar ts args) (fun ts t _ => ReadsElements ops ts t)
    (fun comma bar n p r ts t _ => ReadsClimb ops comma bar n p r ts t)
    (fun comma bar ts t _ => ReadsWhole ops comma bar ts t)
  · exact fun sym => reads_var sym
  · exact fun rval => reads_real rval
  · exact fun rval hop => reads_negative rval hop
  · exact fun hl hop => reads_atom hl hop
  · exact fun hl hop _ hargs => reads_compound hl hop hargs
  · exact fun _ ht => reads_brackets ht
  · exact fun _ ht => reads_list ht
  · exact fun _ ht => reads_item ht
  · exact fun _ _ ht hargs => reads_items ht hargs
  · exact fun _ ht => reads_element ht
  · exact fun _ _ ht ht' => reads_tail ht ht'
  · exact fun _ _ ht ht' => reads_elements ht ht'
  · exact fun n _ ht => reads_basic n ht
  · exact fun hl hop hpri hreal h ht => reads_before hl hop hpri hreal h ht
  · exact fun _ hl hop hpri hleft hlast h' ht ht' =>
      reads_between ht hl hop hpri hleft hlast h' ht'
  · exact fun _ hl hbin hop hpri hleft hlast ht => reads_behind ht hl hbin hop hpri hleft hlast
  · exact fun h ht vs us hus => ht.stops h.last_le (hus.stops _) vs
  · exact fun hl hop => reads_alone hl hop
  · exact h

end

end Parsing

end Mlvm
