import Mathlib.Data.List.TakeWhile
import Mlvm.Imagoc.ReadsAll

/-!
# Every term can be written

The plainest writing of a term: a functor before its arguments, a list cell as `[head|tail]`, and an
operator that is a prefix operator in brackets of its own, with its operand in brackets. In this
writing nothing depends on priorities, so what has been written is read back under every table of
operators (`reads_back`).

A prefix operator cannot be the functor of a term with two arguments: the brackets behind it are
read as its operand. With the operators of imagoc three names are left out by that
(`fits_initOperators_iff`). A negative number needs the minus sign.
-/

namespace Mlvm

namespace Parsing

/-- In brackets. -/
def brackets (us : List Lexeme) : List Lexeme := .paren .lparen :: us ++ [.paren .rparen]

def commas : List (List Lexeme) → List Lexeme
  | [] => []
  | [us] => us
  | us :: uss => us ++ .comma :: commas uss

def call (str : String) (uss : List (List Lexeme)) : List Lexeme :=
  .name str :: .paren .lparen :: commas uss ++ [.paren .rparen]

variable (ops : Operators)

/-- A functor with the texts of its arguments. -/
def funcText (str : String) : List (List Lexeme) → List Lexeme
  | [] => if (ops .PREFIX str).isSome then brackets [.name str] else [.name str]
  | [us] => if (ops .PREFIX str).isSome then brackets (.name str :: brackets us) else call str [us]
  | [us, us'] =>
    if str = "." then .paren .lbracket :: (us ++ .bar :: us') ++ [.paren .rbracket]
    else call str [us, us']
  | uss => call str uss

mutual

/-- The text of a term. -/
def Term.text : Term String → List Lexeme
  | .var sym => [.var sym]
  | .real rval => if 0 ≤ rval then [.real rval] else [.name "-", .real (-rval)]
  | .func str args => funcText ops str (texts args)

def texts : List (Term String) → List (List Lexeme)
  | [] => []
  | t :: ts => t.text :: texts ts

end

/-- A functor that can stand before so many arguments. -/
def Fits (str : String) (argunum : ℕ) : Prop :=
  ∀ op, ops .PREFIX str = some op → op.pri ≤ MAXPRI ∧ argunum ≤ 1

mutual

def Term.Writable : Term String → Prop
  | .var _ => True
  | .real rval => 0 ≤ rval ∨ ops .PREFIX "-" ≠ none
  | .func str args => Fits ops str args.length ∧ AllWritable args

def AllWritable : List (Term String) → Prop
  | [] => True
  | t :: ts => t.Writable ∧ AllWritable ts

end

/-- A text that writes a term wherever it stands. -/
def Writes (us : List Lexeme) (t : Term String) : Prop :=
  ∀ comma bar, Basic ops comma bar us t

variable {ops} {us us' : List Lexeme} {uss : List (List Lexeme)} {t t' : Term String}
  {args : List (Term String)} {str : String}

theorem Writes.whole (h : Writes ops us t) (comma bar : Bool) : Whole ops comma bar us t :=
  .climb (.basic MAXPRI (h comma bar))

theorem Whole.brackets (h : ∀ bar, Whole ops false bar us t) : Writes ops (brackets us) t :=
  fun _ bar => .brackets (h bar)

theorem items_commas (h : List.Forall₂ (Writes ops) uss args) (hne : uss ≠ []) (bar : Bool) :
    Items ops bar (commas uss) args := by
  induction h with
  | nil => exact absurd rfl hne
  | @cons us t uss args ht hargs ih =>
    cases hargs with
    | nil => exact .one (ht.whole true bar)
    | cons ht' hargs' => exact .more (ht.whole true bar) (ih (List.cons_ne_nil _ _))

theorem writes_call (h : List.Forall₂ (Writes ops) uss args) (hne : uss ≠ [])
    (hop : ops .PREFIX str = none) : Writes ops (call str uss) (.func str args) :=
  fun _ bar => .compound (l := .name str) rfl hop (items_commas h hne bar)

theorem writes_atom (str : String) : Writes ops (funcText ops str []) (.func str []) := by
  unfold funcText
  cases hop : ops .PREFIX str with
  | none => exact fun _ _ => .atom (l := .name str) rfl hop
  | some op =>
    exact Whole.brackets fun _ => .alone (l := .name str) rfl
      (by rw [hop]; exact Option.some_ne_none _)

theorem writes_before {op : Op} (h : Writes ops us t) (hop : ops .PREFIX str = some op)
    (hpri : op.pri ≤ MAXPRI) : Writes ops (brackets (.name str :: brackets us))
    (.func str [t]) := by
  refine Whole.brackets fun bar => ?_
  have hoperand : Basic ops false bar (brackets us) t := .brackets (h.whole false bar)
  have hterm : Climb ops false bar MAXPRI op.pri op.right (.name str :: brackets us)
      (.func str [t]) :=
    .before (l := .name str) rfl hop hpri (by simp [brackets]) (.basic op.right hoperand)
  exact .climb hterm

theorem writes_list (h : Writes ops us t) (h' : Writes ops us' t') :
    Writes ops (.paren .lbracket :: (us ++ .bar :: us') ++ [.paren .rbracket]) (.cons t t') :=
  fun _ _ => .list (.tail (h.whole true true) (h'.whole true true))

theorem writes_func (h : List.Forall₂ (Writes ops) uss args) (hfits : Fits ops str args.length) :
    Writes ops (funcText ops str uss) (.func str args) := by
  have hcall (hop : ops .PREFIX str = none) (hne : uss ≠ []) :
      Writes ops (call str uss) (.func str args) := writes_call h hne hop
  have hnone (hlen : 2 ≤ args.length) : ops .PREFIX str = none := by
    refine Option.eq_none_iff_forall_ne_some.2 fun op hop => ?_
    exact absurd (hfits op hop).2 (by omega)
  cases h with
  | nil => exact writes_atom str
  | cons ht h =>
    cases h with
    | nil =>
      rw [funcText]
      cases hop : ops .PREFIX str with
      | none => exact hcall hop (List.cons_ne_nil _ _)
      | some op => exact writes_before ht hop (hfits op hop).1
    | cons ht' h =>
      have hop := hnone (by simp)
      cases h with
      | nil =>
        rw [funcText]
        split_ifs with hdot
        · rw [hdot]
          exact writes_list ht ht'
        · exact hcall hop (List.cons_ne_nil _ _)
      | cons _ _ => exact hcall hop (List.cons_ne_nil _ _)

theorem writes_real {rval : ℚ} (h : 0 ≤ rval ∨ ops .PREFIX "-" ≠ none) :
    Writes ops ((Term.real rval).text ops) (.real rval) := by
  rw [Term.text]
  split_ifs with hsign
  · exact fun _ _ => .real rval
  · intro comma bar
    have hminus : Basic ops comma bar [.name "-", .real (-rval)] (.real (- -rval)) :=
      .negative (-rval) (h.resolve_left hsign)
    rwa [neg_neg] at hminus

mutual

theorem writes_text : ∀ t : Term String, t.Writable ops → Writes ops (t.text ops) t
  | .var sym, _ => by
    rw [Term.text]
    exact fun _ _ => .var sym
  | .real _, h => writes_real h
  | .func _ args, h => by
    rw [Term.text]
    exact writes_func (writes_texts args h.2) h.1

theorem writes_texts : ∀ ts : List (Term String), AllWritable ops ts →
    List.Forall₂ (Writes ops) (texts ops ts) ts
  | [], _ => .nil
  | t :: ts, h => .cons (writes_text t h.1) (writes_texts ts h.2)

end

/-! ## The operators of imagoc -/

/-- An operator in the table was put there by one of the calls. -/
theorem operatorAdd_calls {ds : List (String × Style × ℕ)} {ops : Operators} {kind : OpKind}
    {name : String} {op : Op}
    (h : ds.foldl (fun ops d => operatorAdd ops d.1 d.2.1 d.2.2) ops kind name = some op) :
    ops kind name = some op ∨ ∃ d ∈ ds, name = d.1 ∧ kind = d.2.1.kind ∧ op = d.2.1.op d.2.2 := by
  induction ds generalizing ops with
  | nil => exact .inl h
  | cons d ds ih =>
    rcases ih h with h | ⟨d', hd', hcall⟩
    · dsimp only [operatorAdd] at h
      split_ifs at h with hname
      · exact .inr ⟨d, List.mem_cons_self .., hname.2, hname.1, (Option.some.inj h).symm⟩
      · exact .inl h
    · exact .inr ⟨d', List.mem_cons_of_mem _ hd', hcall⟩

/-- **Three names are prefix operators**: with them a functor may not have two arguments. -/
theorem fits_initOperators_iff (str : String) (argunum : ℕ) :
    Fits initOperators str argunum ↔ (str ∈ ["-", ":-", "'"] → argunum ≤ 1) := by
  constructor
  · intro hfits hstr
    have hop : ∃ op, initOperators .PREFIX str = some op := by
      simp only [List.mem_cons, List.not_mem_nil, or_false] at hstr
      rcases hstr with rfl | rfl | rfl <;> exact ⟨_, rfl⟩
    obtain ⟨op, hop⟩ := hop
    exact (hfits op hop).2
  · intro hargs op hop
    have hkinds : ∀ d ∈ declared, OpKind.PREFIX = d.2.1.kind →
        d.1 ∈ ["-", ":-", "'"] ∧ (d.2.1.op d.2.2).pri ≤ MAXPRI := by
      decide
    rcases operatorAdd_calls hop with h | ⟨d, hd, rfl, hkind, rfl⟩
    · cases h
    · exact ⟨(hkinds d hd hkind).2, hargs (hkinds d hd hkind).1⟩

/-- A negative number can be written. -/
theorem writable_real_initOperators (rval : ℚ) : (Term.real rval).Writable initOperators := by
  rw [Term.Writable]
  exact .inr (Option.some_ne_none _)

/-! ## There and back -/

/-- A term that can be written, with no more variables than there is room for. -/
structure WritableTerm (ops : Operators) where
  term : Term String
  writable : term.Writable ops
  vars : (term.number .zero).2.used.length ≤ MAXVAR

/-- The term as a clause. -/
def WritableTerm.clause (t : WritableTerm ops) : WrittenClause ops :=
  ⟨t.term.text ops, t.term, (writes_text t.term t.writable).whole false false, t.vars⟩

/-- **What has been written is read back**, with the same names and arguments, whatever the table of
operators. -/
theorem reads_back (ops : Operators) (ts : List (WritableTerm ops)) :
    (readTerms ops (fun _ => true) (ts.flatMap fun t => t.term.text ops ++ [.stop])).map
      (Except.map (List.map Term.plain)) = some (.ok (ts.map WritableTerm.term)) := by
  have hread : readTerms ops (fun _ => true)
      ((ts.map WritableTerm.clause).flatMap WrittenClause.text) = some (.ok
        (((ts.map WritableTerm.clause).map WrittenClause.numbered).takeWhile fun _ => true)) :=
    readTermsFrom_text _ (Nat.lt_succ_of_le (length_le_text _))
  rw [List.flatMap_map, List.map_map] at hread
  have hplain : Term.plain ∘ WrittenClause.numbered ∘ WritableTerm.clause =
      (WritableTerm.term : WritableTerm ops → Term String) := by
    funext t
    exact plain_number t.term .zero
  have hall : (ts.map (WrittenClause.numbered ∘ WritableTerm.clause)).takeWhile (fun _ => true) =
      ts.map (WrittenClause.numbered ∘ WritableTerm.clause) :=
    List.takeWhile_eq_self_iff.2 fun _ _ => rfl
  have htext : (ts.flatMap fun t => t.term.text ops ++ [.stop]) =
      ts.flatMap fun t => t.clause.text := rfl
  rw [htext, hread, hall, Option.map_some, Except.map, List.map_map, hplain]

end Parsing

end Mlvm
