import Mlvm.Imagoc.SpelledText

/-!
# Reading a source text

What `getimagoterm` and the loop of `readsourcefile` make of a whole text.

**The bound.** Every call scans a lexeme before it comes to itself again, so three calls for a
lexeme are enough (`enough`), and the bound of `getimagoterm` never cuts it off.

**Texts that are read.** A text of clauses, each properly written and followed by a full stop, is
read as the list of their terms (`reads_text`).

**Nothing else is read.** The reading of any text ends, and the terms that are read are spelled by
the clauses at its beginning (`reads_spelled`).
-/

namespace Mlvm

namespace Parsing

open Fuel

variable {α β : Type} {ops : Operators} {comma bar : Bool} {vs : Vars} {us ts : List Lexeme}

/-! ## The depth of the calls -/

theorem andThen_ne_none {p : Parse α} {k : α → State → Parse β} (hp : p ≠ none)
    (hk : ∀ a s, p = done a s → k a s ≠ none) : p.andThen k ≠ none := by
  obtain ⟨r, rfl⟩ := Option.ne_none_iff_exists'.1 hp
  cases r with
  | error e => exact Option.some_ne_none _
  | ok r => exact hk r.1 r.2 rfl

theorem done_ne_none (a : α) (s : State) : done a s ≠ none := Option.some_ne_none _

theorem fail_ne_none (e : Failure) : (fail e : Parse α) ≠ none := Option.some_ne_none _

theorem require_ne_none {p : Parse (Option α)} {msg : String} (hp : p ≠ none) :
    p.require msg ≠ none := by
  refine andThen_ne_none hp fun a s _ => ?_
  cases a with
  | none => exact fail_ne_none _
  | some a => exact done_ne_none a s

theorem expect_ne_none {c : Bracket} {msg : String} {s : State} : expect c msg s ≠ none := by
  unfold expect
  split_ifs
  · exact done_ne_none _ _
  · exact fail_ne_none _

section

variable (ops)

/-- A depth of `k` is enough for the calls before a text of `ls.length` lexemes. -/
structure Enough (k : ℕ) : Prop where
  term : ∀ comma bar n vs (ls : List Lexeme), 3 * ls.length + 1 ≤ k →
    getImagoterm ops k n (scanned comma bar vs ls) ≠ none
  name : ∀ comma bar n vs sym (ls : List Lexeme), 3 * ls.length + 3 ≤ k →
    nameTerm ops k n sym (scanned comma bar vs ls) ≠ none
  loop : ∀ comma bar n p exp vs (ls : List Lexeme), 3 * ls.length + 1 ≤ k →
    operators ops k n p exp (scanned comma bar vs ls) ≠ none
  args : ∀ comma bar vs (ls : List Lexeme), 3 * ls.length + 2 ≤ k →
    getArgs ops k (scanned comma bar vs (.paren .lparen :: ls)) ≠ none
  more : ∀ bar vs (ls : List Lexeme), 3 * ls.length + 1 ≤ k →
    moreArgs ops k (scanned true bar vs ls) ≠ none
  list : ∀ vs s₀ (ls : List Lexeme), imagoscan s₀ = scanned true true vs ls →
    3 * ls.length + 2 ≤ k → getList ops k s₀ ≠ none

end

theorem imagoscan_scanned (comma bar : Bool) (vs : Vars) (l : Lexeme) (ls : List Lexeme) :
    imagoscan (scanned comma bar vs (l :: ls)) =
      scanned comma bar (l.token comma bar vs).2 ls := imagoscan_eq _

/-- What a call leaves is no longer than the text it is called before. -/
theorem TookTerm.rest {n : ℕ} {ls : List Lexeme} {s : State} {r : Option (Term Var)}
    (h : TookTerm ops comma bar n vs ls s r) :
    ∃ vs' us, s = scanned comma bar vs' us ∧ us.length ≤ ls.length := by
  cases r with
  | none =>
    obtain ⟨ts, us, rfl, rfl, -⟩ := h
    exact ⟨vs, us, rfl, by simp⟩
  | some t' =>
    obtain ⟨ts, us, vs', p, t, rfl, rfl, -⟩ := h
    exact ⟨vs', us, rfl, by simp⟩

theorem TookArgs.rest {ls : List Lexeme} {s : State} {r : List (Term Var)}
    (h : TookArgs ops comma bar vs ls r s) :
    ∃ vs' us, s = scanned comma bar vs' us ∧ us.length ≤ ls.length := by
  obtain ⟨ts, us, vs', args, rfl, rfl, -⟩ := h
  exact ⟨vs', us, rfl, by simp; omega⟩

theorem TookList.rest {ls : List Lexeme} {s : State} {r : Term Var}
    (h : TookList ops vs ls r s) :
    ∃ vs' us, s = scanned true true vs' us ∧ us.length ≤ ls.length := by
  obtain ⟨ts, us, vs', t, rfl, rfl, -⟩ := h
  exact ⟨vs', us, rfl, by simp⟩

section

variable {k n : ℕ} {ls : List Lexeme}

/-- An operand or an argument is read, and what is left is no longer. -/
theorem Enough.operand (h : Enough ops k) {msg : String} {next : Term Var → State → Parse β}
    (hk : 3 * ls.length + 1 ≤ k)
    (hnext : ∀ t vs' us, us.length ≤ ls.length → next t (scanned comma bar vs' us) ≠ none) :
    ((getImagoterm ops k n (scanned comma bar vs ls)).require msg).andThen next ≠ none := by
  refine andThen_ne_none (require_ne_none (h.term _ _ _ _ _ hk)) fun t s ht => ?_
  obtain ⟨vs', us, rfl, hle⟩ := ((sound ops k).term (require_eq_done ht)).rest
  exact hnext t vs' us hle

theorem enough_name (h : Enough ops k) (sym : String) (hk : 3 * ls.length + 3 ≤ k + 1) :
    nameTerm ops (k + 1) n sym (scanned comma bar vs ls) ≠ none := by
  rw [nameTerm]
  split
  · next op hop =>
    split
    · next rval hneg =>
      obtain ⟨rfl, rval', htoken, rfl⟩ := negated_eq_some hneg
      obtain ⟨us, rfl⟩ := of_token_real htoken
      rw [List.length_cons] at hk
      rw [imagoscan_scanned]
      exact h.loop _ _ _ _ _ _ _ (by omega)
    · split_ifs
      · refine andThen_ne_none (h.term _ _ _ _ _ (by omega)) fun t s ht => ?_
        obtain ⟨vs', us, rfl, hle⟩ := ((sound ops k).term ht).rest
        cases t with
        | none => exact done_ne_none _ _
        | some t' => exact h.loop _ _ _ _ _ _ _ (by omega)
      · exact done_ne_none _ _
  · split_ifs with hparen
    · obtain ⟨us, rfl⟩ := of_token_paren hparen
      rw [List.length_cons] at hk
      refine andThen_ne_none (h.args _ _ _ _ (by omega)) fun args s hargs => ?_
      obtain ⟨vs', us', rfl, hle⟩ := ((sound ops k).args hargs).rest
      exact h.loop _ _ _ _ _ _ _ (by omega)
    · exact h.loop _ _ _ _ _ _ _ (by omega)

theorem enough_loop (h : Enough ops k) (p : ℕ) (exp : Option (Term Var))
    (hk : 3 * ls.length + 1 ≤ k + 1) :
    operators ops (k + 1) n p exp (scanned comma bar vs ls) ≠ none := by
  rw [operators]
  split
  · next sym htoken =>
    obtain ⟨l, us, rfl, hl⟩ := of_token_name htoken
    rw [List.length_cons] at hk
    split
    · exact done_ne_none _ _
    · next binflg op hfollow =>
      rw [imagoscan_scanned]
      split_ifs
      · exact done_ne_none _ _
      · exact done_ne_none _ _
      · refine h.operand (by omega) fun t vs' us' hle => ?_
        cases exp with
        | none => exact fail_ne_none _
        | some e => exact h.loop _ _ _ _ _ _ _ (by omega)
      · cases exp with
        | none => exact fail_ne_none _
        | some e => exact h.loop _ _ _ _ _ _ _ (by omega)
  · exact done_ne_none _ _

theorem enough_args (h : Enough ops k) (hk : 3 * ls.length + 2 ≤ k + 1) :
    getArgs ops (k + 1) (scanned comma bar vs (.paren .lparen :: ls)) ≠ none := by
  rw [getArgs, scanned_cons, imagoscan_eq]
  dsimp only
  refine andThen_ne_none ?_ fun args s _ =>
    andThen_ne_none expect_ne_none fun _ s' _ => done_ne_none _ _
  refine h.operand (by omega) fun t vs' us hle => ?_
  exact andThen_ne_none (h.more _ _ _ (by omega)) fun ts s' _ => done_ne_none _ _

theorem enough_more (h : Enough ops k) (hk : 3 * ls.length + 1 ≤ k + 1) :
    moreArgs ops (k + 1) (scanned true bar vs ls) ≠ none := by
  rw [moreArgs]
  split_ifs with hcomma
  · obtain ⟨us, rfl⟩ := of_token_punc hcomma
    rw [List.length_cons] at hk
    rw [imagoscan_scanned]
    refine h.operand (by omega) fun t vs' us' hle => ?_
    exact andThen_ne_none (h.more _ _ _ (by omega)) fun ts s' _ => done_ne_none _ _
  · exact done_ne_none _ _

theorem enough_list (h : Enough ops k) {s₀ : State} (hs₀ : imagoscan s₀ = scanned true true vs ls)
    (hk : 3 * ls.length + 2 ≤ k + 1) : getList ops (k + 1) s₀ ≠ none := by
  rw [getList, hs₀]
  refine h.operand (by omega) fun t vs' us hle => ?_
  split_ifs with hbar hcomma
  · obtain ⟨us, rfl⟩ := of_token_punc hbar
    rw [List.length_cons] at hle
    rw [imagoscan_scanned]
    exact h.operand (by omega) fun t vs' us' _ => done_ne_none _ _
  · obtain ⟨us, rfl⟩ := of_token_punc hcomma
    rw [List.length_cons] at hle
    refine andThen_ne_none (h.list _ _ us (imagoscan_eq _) (by omega)) fun t s _ => done_ne_none _ _
  · exact done_ne_none _ _
  · exact fail_ne_none _

theorem enough_term (h : Enough ops k) (hk : 3 * ls.length + 1 ≤ k + 1) :
    getImagoterm ops (k + 1) n (scanned comma bar vs ls) ≠ none := by
  rw [getImagoterm]
  split
  · next sym htoken =>
    obtain ⟨l, us, rfl, hl⟩ := of_token_name htoken
    rw [List.length_cons] at hk
    rw [imagoscan_scanned]
    exact h.name _ _ _ _ _ _ (by omega)
  · next v htoken =>
    obtain ⟨sym, us, rfl, rfl⟩ := of_token_var htoken
    rw [List.length_cons] at hk
    rw [imagoscan_scanned]
    exact h.loop _ _ _ _ _ _ us (by omega)
  · next rval htoken =>
    obtain ⟨us, rfl⟩ := of_token_real htoken
    rw [List.length_cons] at hk
    rw [imagoscan_scanned]
    exact h.loop _ _ _ _ _ _ us (by omega)
  · next htoken =>
    obtain ⟨us, rfl⟩ := of_token_paren htoken
    rw [List.length_cons] at hk
    rw [scanned_cons, imagoscan_eq]
    dsimp only
    refine andThen_ne_none (h.term _ _ _ _ us (by omega)) fun t s ht => ?_
    obtain ⟨vs', us', rfl, hle⟩ := ((sound ops k).term ht).rest
    refine andThen_ne_none expect_ne_none fun _ s' hs' => ?_
    obtain ⟨hparen, rfl⟩ := expect_eq_done hs'
    obtain ⟨us', rfl⟩ := of_token_paren hparen
    rw [List.length_cons] at hle
    rw [imagoscan_eq]
    exact h.loop _ _ _ _ _ _ us' (by omega)
  · next htoken =>
    obtain ⟨us, rfl⟩ := of_token_paren htoken
    rw [List.length_cons] at hk
    have hscan : imagoscan { scanned comma bar vs (.paren .lbracket :: us) with
        commaFlg := true, barFlg := true } = scanned true true vs us := imagoscan_eq _
    refine andThen_ne_none (h.list _ _ us hscan (by omega)) fun t s ht => ?_
    obtain ⟨vs', us', rfl, hle⟩ := ((sound ops k).list hscan ht).rest
    refine andThen_ne_none expect_ne_none fun _ s' hs' => ?_
    obtain ⟨hparen, rfl⟩ := expect_eq_done hs'
    obtain ⟨us', rfl⟩ := of_token_paren hparen
    rw [List.length_cons] at hle
    rw [imagoscan_eq]
    exact h.loop _ _ _ _ _ _ us' (by omega)
  · exact done_ne_none _ _

end

/-- **The parser ends**, at a depth of three calls for a lexeme. -/
theorem enough (ops : Operators) (k : ℕ) : Enough ops k := by
  induction k with
  | zero => constructor <;> intros <;> omega
  | succ k ih =>
    exact ⟨fun _ _ _ _ _ => enough_term ih, fun _ _ _ _ sym _ => enough_name ih sym,
      fun _ _ _ p exp _ _ => enough_loop ih p exp, fun _ _ _ _ => enough_args ih,
      fun _ _ _ => enough_more ih, fun _ _ _ => enough_list ih⟩

/-! ## What is written has one meaning -/

mutual

/-- The term without the numbers of its variables. -/
def Term.plain : Term Var → Term String
  | .var v => .var v.str
  | .real rval => .real rval
  | .func str args => .func str (plainAll args)

def plainAll : List (Term Var) → List (Term String)
  | [] => []
  | t :: ts => t.plain :: plainAll ts

end

theorem lookup_str (vs : Vars) (sym : String) : (vs.lookup sym).1.str = sym := by
  unfold Vars.lookup
  split_ifs
  · rfl
  · split <;> rfl

mutual

theorem plain_number : ∀ (t : Term String) (vs : Vars), (t.number vs).1.plain = t
  | .var sym, vs => by rw [Term.number, Term.plain, lookup_str]
  | .real _, _ => rfl
  | .func _ args, vs => by rw [Term.number, Term.plain, plainAll_numberAll args vs]

theorem plainAll_numberAll : ∀ (ts : List (Term String)) (vs : Vars),
    plainAll (numberAll ts vs).1 = ts
  | [], _ => rfl
  | t :: ts, vs => by
    rw [numberAll, plainAll, plain_number t vs, plainAll_numberAll ts (t.number vs).2]

end

/-! ## One clause -/

theorem scanned_ne_endfile (comma bar : Bool) (vs : Vars) {ls : List Lexeme} (h : ls ≠ []) :
    (scanned comma bar vs ls).token ≠ .endfile := fun htoken => h (token_eq_endfile htoken)

/-- `getimagoterm` returns. -/
theorem getimagoterm_ne_none (ops : Operators) (ls : List Lexeme) : getimagoterm ops ls ≠ none := by
  unfold getimagoterm getimagotermFrom
  dsimp only
  split_ifs
  · exact done_ne_none _ _
  · refine andThen_ne_none ((enough ops _).term _ _ _ _ _ (Nat.le_refl _)) fun t s _ => ?_
    split_ifs
    · exact fail_ne_none _
    · exact andThen_ne_none (require_ne_none (done_ne_none _ _)) fun _ _ _ => done_ne_none _ _
    · exact fail_ne_none _
    · exact fail_ne_none _

/-- A clause is read. -/
theorem getimagoterm_eq {t : Term String} (h : Whole ops false false ts t)
    (hvars : (t.number .zero).2.used.length ≤ MAXVAR) (us : List Lexeme) :
    getimagoterm ops (ts ++ .stop :: us) =
      done (some (t.number .zero).1) (scanned false false (t.number .zero).2 (.stop :: us)) := by
  have hne : ts ++ .stop :: us ≠ [] := List.append_ne_nil_of_right_ne_nil _ (List.cons_ne_nil _ _)
  have hcomes : Comes (fun k => getimagotermFrom ops k (ts ++ .stop :: us))
      (done (some (t.number .zero).1) (scanned false false (t.number .zero).2 (.stop :: us))) := by
    unfold getimagotermFrom
    dsimp only
    rw [imagoscan_eq]
    simp only [if_neg (scanned_ne_endfile false false .zero hne)]
    refine comes_andThen (h.reads .zero (.stop :: us) ?_) ?_
    · exact Lexeme.Closes.closing (l := .stop) trivial us
    · have hle : ¬MAXVAR < (scanned false false (t.number .zero).2
        (.stop :: us)).vars.used.length :=
        Nat.not_lt.2 hvars
      have hstop : (scanned false false (t.number .zero).2 (.stop :: us)).token = .punc .dot := rfl
      rw [if_neg hle, if_pos hstop]
      exact comes_const _
  obtain ⟨r, hr⟩ := Option.ne_none_iff_exists'.1 (getimagoterm_ne_none ops (ts ++ .stop :: us))
  rw [hr]
  exact (hcomes.only _ r hr).symm

/-- What is read is spelled by the text up to the full stop. -/
theorem spelled_of_getimagoterm {ls : List Lexeme} {t' : Term Var} {s : State}
    (h : getimagoterm ops ls = done (some t') s) :
    ∃ ts p t, ls = ts ++ .stop :: s.rest ∧ Spelled ops false false MAXPRI p ts t ∧
      t.number .zero = (t', s.vars) ∧ s.vars.used.length ≤ MAXVAR := by
  unfold getimagoterm getimagotermFrom at h
  dsimp only at h
  rw [imagoscan_eq] at h
  split_ifs at h
  · exact absurd (done_inj h).1 (by simp)
  · obtain ⟨r, s₁, hr, h⟩ := andThen_eq_done h
    split_ifs at h with hvars hstop hend
    · exact absurd h fail_ne_done
    · obtain ⟨t₁, s₂, hreq, h⟩ := andThen_eq_done h
      obtain ⟨ht, rfl⟩ := done_inj h
      obtain ⟨hr', rfl⟩ := done_inj (require_eq_done hreq)
      obtain rfl := Option.some.inj ht
      subst hr'
      obtain ⟨ts, us, vs, p, t, rfl, rfl, hspelled, hnumber⟩ := (sound ops _).term hr
      obtain ⟨us, rfl⟩ := of_token_punc hstop
      exact ⟨ts, p, t, rfl, hspelled, hnumber, Nat.not_lt.1 hvars⟩
    · exact absurd h fail_ne_done
    · exact absurd h fail_ne_done

/-! ## All clauses -/

section

variable (ops)

/-- A clause that is properly written, with no more variables than there is room for. -/
structure WrittenClause where
  lexemes : List Lexeme
  term : Term String
  written : Whole ops false false lexemes term
  vars : (term.number .zero).2.used.length ≤ MAXVAR

/-- A clause as it can be accepted. -/
structure SpelledClause where
  lexemes : List Lexeme
  term : Term String
  pri : ℕ
  spelled : Spelled ops false false MAXPRI pri lexemes term
  vars : (term.number .zero).2.used.length ≤ MAXVAR

end

def WrittenClause.text (c : WrittenClause ops) : List Lexeme := c.lexemes ++ [.stop]

def WrittenClause.numbered (c : WrittenClause ops) : Term Var := (c.term.number .zero).1

def SpelledClause.text (c : SpelledClause ops) : List Lexeme := c.lexemes ++ [.stop]

def SpelledClause.numbered (c : SpelledClause ops) : Term Var := (c.term.number .zero).1

variable {accepts : Term Var → Bool}

theorem WrittenClause.getimagoterm_text (c : WrittenClause ops) (us : List Lexeme) :
    getimagoterm ops (c.text ++ us) =
      done (some c.numbered) (scanned false false (c.term.number .zero).2 (.stop :: us)) := by
  rw [WrittenClause.text, List.append_assoc, List.singleton_append]
  exact getimagoterm_eq c.written c.vars us

theorem readTermsFrom_text (cs : List (WrittenClause ops)) {k : ℕ} (hk : cs.length < k) :
    readTermsFrom ops accepts k (cs.flatMap WrittenClause.text) =
      some (.ok ((cs.map WrittenClause.numbered).takeWhile accepts)) := by
  induction cs generalizing k with
  | nil =>
    obtain ⟨k, rfl⟩ := Nat.exists_eq_add_of_lt hk
    rfl
  | cons c cs ih =>
    obtain ⟨k, rfl⟩ : ∃ j, k = j + 1 := ⟨k - 1, by omega⟩
    rw [List.length_cons, Nat.add_lt_add_iff_right] at hk
    rw [List.flatMap_cons, readTermsFrom, c.getimagoterm_text, List.map_cons, List.takeWhile_cons]
    have hrest := ih hk
    cases hc : accepts c.numbered with
    | true => simp [done, hc, scanned_cons, hrest, Except.map]
    | false => simp [done, hc]

/-- There is a lexeme for every clause. -/
theorem length_le_text (cs : List (WrittenClause ops)) :
    cs.length ≤ (cs.flatMap WrittenClause.text).length := by
  induction cs with
  | nil => exact Nat.le_refl _
  | cons c cs ih =>
    rw [List.flatMap_cons, List.length_append, WrittenClause.text, List.length_append,
      List.length_cons, List.length_singleton]
    omega

/-- **Every text of properly written clauses is read**, whatever the table of operators: as the
terms that have been written, up to the first one that is not accepted. -/
theorem reads_text (ops : Operators) (accepts : Term Var → Bool) (cs : List (WrittenClause ops)) :
    readTerms ops accepts (cs.flatMap WrittenClause.text) =
      some (.ok ((cs.map WrittenClause.numbered).takeWhile accepts)) :=
  readTermsFrom_text cs (Nat.lt_succ_of_le (length_le_text cs))

/-- The reading of a text ends with a fault, or with the accepted terms of the clauses at its
beginning. -/
def Reads (ops : Operators) (accepts : Term Var → Bool) (ls : List Lexeme) :
    Except Failure (List (Term Var)) → Prop
  | .error e => e = .fault
  | .ok terms => ∃ (cs : List (SpelledClause ops)) (us : List Lexeme),
      ls = cs.flatMap SpelledClause.text ++ us ∧ terms = cs.map SpelledClause.numbered ∧
        (∀ t ∈ terms, accepts t = true) ∧
          ∀ t s, getimagoterm ops us = done (some t) s → accepts t = false

theorem reads_nil {ls : List Lexeme}
    (h : ∀ t s, getimagoterm ops ls = done (some t) s → accepts t = false) :
    Reads ops accepts ls (.ok []) :=
  ⟨[], ls, rfl, rfl, fun _ ht => absurd ht List.not_mem_nil, h⟩

theorem Reads.cons {c : SpelledClause ops} {r : Except Failure (List (Term Var))}
    (h : Reads ops accepts us r) (hc : accepts c.numbered = true) :
    Reads ops accepts (c.text ++ us) (r.map (c.numbered :: ·)) := by
  cases r with
  | error e => exact h
  | ok terms =>
    obtain ⟨cs, us', rfl, rfl, haccepts, hends⟩ := h
    refine ⟨c :: cs, us', by simp, rfl, ?_, hends⟩
    intro t ht
    rcases List.mem_cons.1 ht with rfl | ht
    · exact hc
    · exact haccepts t ht

theorem readTermsFrom_reads (k : ℕ) (ls : List Lexeme) (hk : ls.length < k) :
    ∃ r, readTermsFrom ops accepts k ls = some r ∧ Reads ops accepts ls r := by
  induction k generalizing ls with
  | zero => exact absurd hk (Nat.not_lt_zero _)
  | succ k ih =>
    obtain ⟨r, hr⟩ := Option.ne_none_iff_exists'.1 (getimagoterm_ne_none ops ls)
    rw [readTermsFrom, hr, Option.bind_some]
    rcases r with (msg | -) | ⟨- | t, s⟩
    · exact ⟨_, rfl, reads_nil fun t s ht => absurd (hr.symm.trans ht) fail_ne_done⟩
    · exact ⟨_, rfl, rfl⟩
    · refine ⟨_, rfl, reads_nil fun t s' ht => ?_⟩
      exact absurd (done_inj (hr.symm.trans ht)).1 (by simp)
    · obtain ⟨ts, p, t', rfl, hspelled, hnumber, hvars⟩ := spelled_of_getimagoterm hr
      have hlen : s.rest.length < k := by
        rw [List.length_append, List.length_cons] at hk
        omega
      have hvars' : (t'.number .zero).2.used.length ≤ MAXVAR := by rwa [hnumber]
      have hc : (⟨ts, t', p, hspelled, hvars'⟩ : SpelledClause ops).numbered = t :=
        congrArg Prod.fst hnumber
      obtain ⟨r, hr', hreads⟩ := ih s.rest hlen
      dsimp only
      split_ifs with haccepts
      · refine ⟨_, by rw [hr', Option.map_some], ?_⟩
        have hcons := hreads.cons (c := ⟨ts, t', p, hspelled, hvars'⟩) (by rwa [hc])
        rw [hc] at hcons
        simpa [SpelledClause.text] using hcons
      · refine ⟨_, rfl, reads_nil fun t₁ s₁ ht => ?_⟩
        obtain rfl := Option.some.inj (done_inj (hr.symm.trans ht)).1
        exact Bool.not_eq_true _ ▸ haccepts

/-- **Every text is read to an end**, and the terms that are read of it are those of the clauses it
begins with. -/
theorem reads_spelled (ops : Operators) (accepts : Term Var → Bool) (ls : List Lexeme) :
    ∃ r, readTerms ops accepts ls = some r ∧ Reads ops accepts ls r :=
  readTermsFrom_reads _ ls (Nat.lt_succ_self _)

/-- `X is 1+2*Y. p([a|X]):-q,-X.` -/
example : readTerms initOperators (fun _ => true)
    [.var "X", .name "is", .real 1, .name "+", .real 2, .name "*", .var "Y", .stop,
      .name "p", .paren .lparen, .paren .lbracket, .name "a", .bar, .var "X", .paren .rbracket,
      .paren .rparen, .name ":-", .name "q", .comma, .name "-", .var "X", .stop] =
    some (.ok
      [.func "is" [.var ⟨"X", .first, 0⟩, .func "+" [.real 1,
        .func "*" [.real 2, .var ⟨"Y", .first, 1⟩]]],
      .func ":-" [.func "p" [.func "." [.func "a" [], .var ⟨"X", .first, 0⟩]],
        .func "," [.func "q" [], .func "-" [.var ⟨"X", .seen, 0⟩]]]]) := by
  rfl

end Parsing

end Mlvm
