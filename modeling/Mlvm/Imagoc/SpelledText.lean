import Mlvm.Imagoc.ReadsWritten

/-!
# Only what is spelled is read

Whatever the parser accepts, it has taken the lexemes of a text that spells the term it returns
(`Sound`), and no text makes it run on: the depth of its calls is at most three times the number of
lexemes that are left.
-/

namespace Mlvm

namespace Parsing

variable {α β : Type} {ops : Operators} {comma bar : Bool} {vs : Vars} {us ts : List Lexeme}

/-! ## Calls that return -/

theorem done_inj {a a' : α} {s s' : State} (h : done a s = done a' s') : a = a' ∧ s = s' :=
  Prod.mk.inj (Except.ok.inj (Option.some.inj h))

theorem fail_ne_done {e : Failure} {a : α} {s : State} : fail e ≠ done a s := by
  intro h
  cases Option.some.inj h

theorem andThen_eq_done {p : Parse α} {k : α → State → Parse β} {b : β} {s : State}
    (h : p.andThen k = done b s) : ∃ a s₁, p = done a s₁ ∧ k a s₁ = done b s := by
  obtain ⟨r, hr, hk⟩ := Option.bind_eq_some_iff.1 h
  cases r with
  | error e => exact absurd hk fail_ne_done
  | ok r => exact ⟨r.1, r.2, hr, hk⟩

theorem require_eq_done {p : Parse (Option α)} {msg : String} {a : α} {s : State}
    (h : p.require msg = done a s) : p = done (some a) s := by
  obtain ⟨r, s₁, hp, hr⟩ := andThen_eq_done h
  cases r with
  | none => exact absurd hr fail_ne_done
  | some a' =>
    obtain ⟨rfl, rfl⟩ := done_inj hr
    exact hp

theorem expect_eq_done {c : Bracket} {msg : String} {s s' : State} {u : Unit}
    (h : expect c msg s = done u s') : s.token = .paren c ∧ s' = imagoscan s := by
  unfold expect at h
  split_ifs at h with hc
  · exact ⟨hc, (done_inj h).2.symm⟩
  · exact absurd h fail_ne_done

/-! ## The token of a text -/

theorem of_token_name {sym : String} (h : (scanned comma bar vs us).token = .name sym) :
    ∃ l us', us = l :: us' ∧ l.IsName comma bar sym := by
  cases us with
  | nil => cases h
  | cons l us =>
    refine ⟨l, us, rfl, ?_⟩
    rw [scanned_cons] at h
    cases l with
    | name s => exact Token.name.inj h
    | comma => cases comma <;> simp_all [Lexeme.token, Lexeme.IsName]
    | bar => cases bar <;> simp_all [Lexeme.token, Lexeme.IsName]
    | _ => cases h

theorem of_token_var {v : Var} (h : (scanned comma bar vs us).token = .var v) :
    ∃ sym us', us = .var sym :: us' ∧ v = (vs.lookup sym).1 := by
  cases us with
  | nil => cases h
  | cons l us =>
    rw [scanned_cons] at h
    cases l with
    | var sym => exact ⟨sym, us, rfl, (Token.var.inj h).symm⟩
    | comma => cases comma <;> cases h
    | bar => cases bar <;> cases h
    | _ => cases h

theorem of_token_real {rval : ℚ} (h : (scanned comma bar vs us).token = .real rval) :
    ∃ us', us = .real rval :: us' := by
  cases us with
  | nil => cases h
  | cons l us =>
    rw [scanned_cons] at h
    cases l with
    | real r => exact ⟨us, by rw [Token.real.inj h]⟩
    | comma => cases comma <;> cases h
    | bar => cases bar <;> cases h
    | _ => cases h

theorem of_token_paren {c : Bracket} (h : (scanned comma bar vs us).token = .paren c) :
    ∃ us', us = .paren c :: us' := by
  cases us with
  | nil => cases h
  | cons l us =>
    rw [scanned_cons] at h
    cases l with
    | paren c' => exact ⟨us, by rw [Token.paren.inj h]⟩
    | comma => cases comma <;> cases h
    | bar => cases bar <;> cases h
    | _ => cases h

/-- The lexeme that is scanned as punctuation. -/
def Punc.lexeme : Punc → Lexeme
  | .comma => .comma
  | .bar => .bar
  | .dot => .stop

theorem of_token_punc {c : Punc} (h : (scanned comma bar vs us).token = .punc c) :
    ∃ us', us = c.lexeme :: us' := by
  cases us with
  | nil => cases h
  | cons l us =>
    refine ⟨us, ?_⟩
    rw [scanned_cons] at h
    cases l with
    | comma => cases comma <;> cases h; rfl
    | bar => cases bar <;> cases h; rfl
    | stop => cases h; rfl
    | _ => cases h

theorem token_eq_endfile (h : (scanned comma bar vs us).token = .endfile) : us = [] := by
  cases us with
  | nil => rfl
  | cons l us =>
    rw [scanned_cons] at h
    cases l with
    | comma => cases comma <;> cases h
    | bar => cases bar <;> cases h
    | _ => cases h

/-! ## What the calls take -/

section

variable (ops)

/-- A call has taken a text for a term, or brackets around nothing. -/
def TookTerm (comma bar : Bool) (n : ℕ) (vs : Vars) (ls : List Lexeme) (s : State) :
    Option (Term Var) → Prop
  | none => ∃ ts us, ls = ts ++ us ∧ s = scanned comma bar vs us ∧ Void ts
  | some t' => ∃ ts us vs' p t, ls = ts ++ us ∧ s = scanned comma bar vs' us ∧
      Spelled ops comma bar n p ts t ∧ t.number vs = (t', vs')

/-- The loop has taken what belongs to a term that has been read. -/
def TookOperators (comma bar : Bool) (n p : ℕ) (vs : Vars) (ls : List Lexeme)
    (r : Option (Term Var)) (s : State) : Option (Term Var) → Prop
  | none => r = none ∧ s = scanned comma bar vs ls
  | some t' => ∀ ts t vs₀, Spelled ops comma bar n p ts t → t.number vs₀ = (t', vs) →
      ∃ ws us vs' q u u', r = some u' ∧ ls = ws ++ us ∧ s = scanned comma bar vs' us ∧
        Spelled ops comma bar n q (ts ++ ws) u ∧ u.number vs₀ = (u', vs')

def TookArgs (comma bar : Bool) (vs : Vars) (ls : List Lexeme) (r : List (Term Var)) (s : State) :
    Prop :=
  ∃ ts us vs' args, ls = ts ++ .paren .rparen :: us ∧ s = scanned comma bar vs' us ∧
    SpelledItems ops bar ts args ∧ numberAll args vs = (r, vs')

def TookMore (bar : Bool) (vs : Vars) (ls : List Lexeme) (r : List (Term Var)) (s : State) : Prop :=
  (r = [] ∧ s = scanned true bar vs ls) ∨
    ∃ ts us vs' args, ls = .comma :: ts ++ us ∧ s = scanned true bar vs' us ∧
      SpelledItems ops bar ts args ∧ numberAll args vs = (r, vs')

def TookList (vs : Vars) (ls : List Lexeme) (r : Term Var) (s : State) : Prop :=
  ∃ ts us vs' t, ls = ts ++ us ∧ s = scanned true true vs' us ∧ SpelledElements ops ts t ∧
    t.number vs = (r, vs')

/-- Calls of depth `k` take what spells the terms they return. -/
structure Sound (k : ℕ) : Prop where
  term : ∀ {comma bar n vs ls r s}, getImagoterm ops k n (scanned comma bar vs ls) = done r s →
    TookTerm ops comma bar n vs ls s r
  name : ∀ {comma bar n vs l sym ls r s}, Lexeme.IsName comma bar sym l →
    nameTerm ops k n sym (scanned comma bar vs ls) = done r s →
    TookTerm ops comma bar n vs (l :: ls) s r
  loop : ∀ {comma bar n p exp vs ls r s},
    operators ops k n p exp (scanned comma bar vs ls) = done r s →
    TookOperators ops comma bar n p vs ls r s exp
  args : ∀ {comma bar vs ls r s},
    getArgs ops k (scanned comma bar vs (.paren .lparen :: ls)) = done r s →
    TookArgs ops comma bar vs ls r s
  more : ∀ {bar vs ls r s}, moreArgs ops k (scanned true bar vs ls) = done r s →
    TookMore ops bar vs ls r s
  list : ∀ {vs ls r s s₀}, imagoscan s₀ = scanned true true vs ls → getList ops k s₀ = done r s →
    TookList ops vs ls r s

end

/-- What the loop takes is put behind what has been read. -/
theorem TookOperators.term {n p : ℕ} {t' : Term Var} {t : Term String} {vs' : Vars}
    {ls : List Lexeme} {r : Option (Term Var)} {s : State}
    (h : TookOperators ops comma bar n p vs' ls r s (some t'))
    (ht : Spelled ops comma bar n p ts t) (hnumber : t.number vs = (t', vs')) :
    TookTerm ops comma bar n vs (ts ++ ls) s r := by
  obtain ⟨ws, us, vs'', q, u, u', rfl, rfl, rfl, hu, hnumber'⟩ := h ts t vs ht hnumber
  exact ⟨ts ++ ws, us, vs'', q, u, (List.append_assoc ..).symm, rfl, hu, hnumber'⟩

section

variable {k n : ℕ} {ls : List Lexeme} {s : State}

theorem negated_eq_some {sym : String} {token : Token} {rval : ℚ}
    (h : negated sym token = some rval) :
    sym = "-" ∧ ∃ rval', token = .real rval' ∧ rval = -rval' := by
  cases token with
  | real rval' =>
    simp only [negated] at h
    split_ifs at h with hsym
    exact ⟨hsym, rval', rfl, (Option.some.inj h).symm⟩
  | _ => cases h

/-- A name is scanned as the minus sign only where it is written. -/
theorem Lexeme.IsName.eq_minus {l : Lexeme} (h : l.IsName comma bar "-") : l = .name "-" := by
  cases l with
  | name s => rw [(h : s = "-")]
  | comma => exact absurd h.2 (by decide)
  | bar => exact absurd h.2 (by decide)
  | _ => exact h.elim

theorem sound_name (h : Sound ops k) {l : Lexeme} {sym : String} {r : Option (Term Var)}
    (hl : l.IsName comma bar sym)
    (hr : nameTerm ops (k + 1) n sym (scanned comma bar vs ls) = done r s) :
    TookTerm ops comma bar n vs (l :: ls) s r := by
  rw [nameTerm] at hr
  cases hop : ops .PREFIX sym with
  | some op =>
    simp only [hop] at hr
    cases hneg : negated sym (scanned comma bar vs ls).token with
    | some rval =>
      simp only [hneg] at hr
      obtain ⟨rfl, rval', htoken, rfl⟩ := negated_eq_some hneg
      obtain ⟨us, rfl⟩ := of_token_real htoken
      obtain rfl := hl.eq_minus
      rw [imagoscan_eq] at hr
      exact (h.loop hr).term (.negative n rval' (by simp [hop])) rfl
    | none =>
      simp only [hneg] at hr
      split_ifs at hr with hpri
      · obtain ⟨t, s₁, ht, hr⟩ := andThen_eq_done hr
        have htook := h.term ht
        cases t with
        | none =>
          obtain ⟨ts, us, rfl, rfl, hvoid⟩ := htook
          obtain ⟨rfl, rfl⟩ := done_inj hr
          exact ⟨l :: ts, us, vs, 0, _, rfl, rfl, .idle n hl (by simp [hop]) hvoid, rfl⟩
        | some t' =>
          obtain ⟨ts, us, vs', p, t, rfl, rfl, ht, hnumber⟩ := htook
          refine (h.loop hr).term (.before hl hop hpri ht) ?_
          simp [Term.number, numberAll, hnumber]
      · obtain ⟨rfl, rfl⟩ := done_inj hr
        exact ⟨[l], ls, vs, 0, _, rfl, rfl, .atom n hl, rfl⟩
  | none =>
    simp only [hop] at hr
    split_ifs at hr with hparen
    · obtain ⟨args, s₁, hargs, hr⟩ := andThen_eq_done hr
      obtain ⟨us, rfl⟩ := of_token_paren hparen
      obtain ⟨ts, us, vs', args', rfl, rfl, hitems, hnumber⟩ := h.args hargs
      have hterm : (Term.func sym args').number vs = (.func sym args, vs') := by
        simp [Term.number, hnumber]
      have htook := (h.loop hr).term (.compound n hl hop hitems) hterm
      simpa using htook
    · exact (h.loop hr).term (.atom n hl) rfl

theorem following_binary {sym : String} {op : Op} (h : following ops sym = some (true, op)) :
    ops .BINARY sym = some op := by
  unfold following at h
  cases hop : ops .BINARY sym with
  | some op' =>
    rw [hop] at h
    cases h
    rfl
  | none =>
    rw [hop] at h
    obtain ⟨op', -, hop'⟩ := Option.map_eq_some_iff.1 h
    cases hop'

theorem following_behind {sym : String} {op : Op} (h : following ops sym = some (false, op)) :
    ops .BINARY sym = none ∧ ops .POSTFIX sym = some op := by
  unfold following at h
  cases hop : ops .BINARY sym with
  | some op' =>
    rw [hop] at h
    cases h
  | none =>
    rw [hop] at h
    obtain ⟨op', hop', heq⟩ := Option.map_eq_some_iff.1 h
    cases heq
    exact ⟨rfl, hop'⟩

theorem sound_loop (h : Sound ops k) {p : ℕ} {exp r : Option (Term Var)}
    (hr : operators ops (k + 1) n p exp (scanned comma bar vs ls) = done r s) :
    TookOperators ops comma bar n p vs ls r s exp := by
  -- where the loop ends, nothing more is taken
  have hend (hr : done exp (scanned comma bar vs ls) = done r s) :
      TookOperators ops comma bar n p vs ls r s exp := by
    obtain ⟨rfl, rfl⟩ := done_inj hr
    cases exp with
    | none => exact ⟨rfl, rfl⟩
    | some t' =>
      intro ts t vs₀ ht hnumber
      exact ⟨[], ls, vs, p, t, t', rfl, rfl, rfl, by rwa [List.append_nil], hnumber⟩
  rw [operators] at hr
  split at hr
  · next sym htoken =>
    obtain ⟨l, us, rfl, hl⟩ := of_token_name htoken
    split at hr
    · exact hend hr
    · next binflg op hfollow =>
      rw [imagoscan_eq, scanned_name hl] at hr
      split_ifs at hr with hpri hleft hbin
      · exact hend (by rw [scanned_name hl]; exact hr)
      · exact hend (by rw [scanned_name hl]; exact hr)
      · obtain ⟨t₁, s₁, ht₁, hr⟩ := andThen_eq_done hr
        obtain ⟨ts', us', vs', p', u, rfl, rfl, hu, hnumber'⟩ := h.term (require_eq_done ht₁)
        cases exp with
        | none => exact absurd hr fail_ne_done
        | some t' =>
          intro ts t vs₀ ht hnumber
          have hboth : Spelled ops comma bar n op.pri (ts ++ l :: ts') (.func sym [t, u]) :=
            .between ht hl (following_binary (hbin ▸ hfollow)) (Nat.not_lt.1 hpri)
              (Nat.not_lt.1 hleft) hu
          obtain ⟨ws, us, vs'', q, v, v', rfl, rfl, rfl, hv, hnumber''⟩ :=
            h.loop hr _ _ vs₀ hboth (by simp [Term.number, numberAll, hnumber, hnumber'])
          refine ⟨l :: ts' ++ ws, us, vs'', q, v, v', rfl, ?_, rfl, ?_, hnumber''⟩
          · rw [List.cons_append, List.cons_append, List.append_assoc]
          · rwa [List.append_assoc] at hv
      · cases exp with
        | none => exact absurd hr fail_ne_done
        | some t' =>
          intro ts t vs₀ ht hnumber
          obtain ⟨hnone, hop⟩ := following_behind (eq_false_of_ne_true hbin ▸ hfollow)
          have hbehind : Spelled ops comma bar n op.pri (ts ++ [l]) (.func sym [t]) :=
            .behind ht hl hnone hop (Nat.not_lt.1 hpri) (Nat.not_lt.1 hleft)
          obtain ⟨ws, us', vs'', q, v, v', rfl, rfl, rfl, hv, hnumber''⟩ :=
            h.loop hr _ _ vs₀ hbehind (by simp [Term.number, numberAll, hnumber])
          refine ⟨l :: ws, us', vs'', q, v, v', rfl, rfl, rfl, ?_, hnumber''⟩
          rwa [List.append_assoc] at hv
  · exact hend hr

/-- An argument and those that follow it. -/
theorem TookTerm.items {t' : Term Var} {s₁ : State} {r : List (Term Var)}
    (h : TookTerm ops true bar MAXPRI vs ls s₁ (some t'))
    (hmore : ∀ {vs' us}, s₁ = scanned true bar vs' us → TookMore ops bar vs' us r s) :
    ∃ ts us vs' args, ls = ts ++ us ∧ s = scanned true bar vs' us ∧
      SpelledItems ops bar ts args ∧ numberAll args vs = (t' :: r, vs') := by
  obtain ⟨ts, us, vs₁, p, t, rfl, rfl, ht, hnumber⟩ := h
  rcases hmore rfl with ⟨rfl, rfl⟩ | ⟨ts', us', vs', args, rfl, rfl, hargs, hnumber'⟩
  · exact ⟨ts, us, vs₁, [t], rfl, rfl, .one ht, by simp [numberAll, hnumber]⟩
  · refine ⟨ts ++ .comma :: ts', us', vs', t :: args, ?_, rfl, .more ht hargs, ?_⟩
    · rw [List.append_assoc]
    · simp [numberAll, hnumber, hnumber']

theorem sound_args (h : Sound ops k) {r : List (Term Var)}
    (hr : getArgs ops (k + 1) (scanned comma bar vs (.paren .lparen :: ls)) = done r s) :
    TookArgs ops comma bar vs ls r s := by
  rw [getArgs, scanned_cons, imagoscan_eq] at hr
  obtain ⟨args, s₂, hargs, hr⟩ := andThen_eq_done hr
  obtain ⟨u, s₃, hclose, hr⟩ := andThen_eq_done hr
  obtain ⟨rfl, rfl⟩ := done_inj hr
  obtain ⟨t₁, s₁, ht₁, hargs⟩ := andThen_eq_done hargs
  obtain ⟨args', s₂', hmore, hargs⟩ := andThen_eq_done hargs
  obtain ⟨rfl, rfl⟩ := done_inj hargs
  obtain ⟨ts, us, vs', args, rfl, rfl, hitems, hnumber⟩ :=
    (h.term (require_eq_done ht₁)).items fun hs => h.more (hs ▸ hmore)
  obtain ⟨htoken, rfl⟩ := expect_eq_done hclose
  obtain ⟨us, rfl⟩ := of_token_paren htoken
  exact ⟨ts, us, vs', args, rfl, imagoscan_eq _, hitems, hnumber⟩

theorem sound_more (h : Sound ops k) {r : List (Term Var)}
    (hr : moreArgs ops (k + 1) (scanned true bar vs ls) = done r s) :
    TookMore ops bar vs ls r s := by
  rw [moreArgs] at hr
  split_ifs at hr with hcomma
  · obtain ⟨us, rfl⟩ := of_token_punc hcomma
    obtain ⟨t₁, s₁, ht₁, hr⟩ := andThen_eq_done hr
    rw [imagoscan_eq] at ht₁
    obtain ⟨args', s₂', hmore, hr⟩ := andThen_eq_done hr
    obtain ⟨rfl, rfl⟩ := done_inj hr
    obtain ⟨ts, us, vs', args, rfl, rfl, hitems, hnumber⟩ :=
      (h.term (require_eq_done ht₁)).items fun hs => h.more (hs ▸ hmore)
    exact Or.inr ⟨ts, us, vs', args, rfl, rfl, hitems, hnumber⟩
  · obtain ⟨rfl, rfl⟩ := done_inj hr
    exact Or.inl ⟨rfl, rfl⟩

theorem sound_list (h : Sound ops k) {r : Term Var} {s₀ : State}
    (hs₀ : imagoscan s₀ = scanned true true vs ls) (hr : getList ops (k + 1) s₀ = done r s) :
    TookList ops vs ls r s := by
  rw [getList, hs₀] at hr
  obtain ⟨t₁, s₁, ht₁, hr⟩ := andThen_eq_done hr
  obtain ⟨ts, us, vs₁, p, t, rfl, rfl, ht, hnumber⟩ := h.term (require_eq_done ht₁)
  split_ifs at hr with hbar hcomma hclose
  · obtain ⟨us, rfl⟩ := of_token_punc hbar
    obtain ⟨t₂, s₂, ht₂, hr⟩ := andThen_eq_done hr
    obtain ⟨rfl, rfl⟩ := done_inj hr
    rw [imagoscan_eq] at ht₂
    obtain ⟨ts', us', vs₂, p', t', rfl, rfl, ht', hnumber'⟩ := h.term (require_eq_done ht₂)
    refine ⟨ts ++ .bar :: ts', us', vs₂, .cons t t', ?_, rfl, .tail ht ht', ?_⟩
    · rw [List.append_assoc]
      rfl
    · have hvs : (scanned true true vs₁ (Punc.bar.lexeme :: (ts' ++ us'))).vars = vs₁ := rfl
      rw [hvs] at hnumber'
      simp [Term.cons, Term.number, numberAll, hnumber, hnumber']
  · obtain ⟨us, rfl⟩ := of_token_punc hcomma
    obtain ⟨t₂, s₂, ht₂, hr⟩ := andThen_eq_done hr
    obtain ⟨rfl, rfl⟩ := done_inj hr
    obtain ⟨ts', us', vs₂, t', rfl, rfl, ht', hnumber'⟩ := h.list (imagoscan_eq _) ht₂
    refine ⟨ts ++ .comma :: ts', us', vs₂, .cons t t', ?_, rfl, .more ht ht', ?_⟩
    · rw [List.append_assoc]
      rfl
    · have hvs : (scanned true true vs₁ (Punc.comma.lexeme :: (ts' ++ us'))).vars = vs₁ := rfl
      rw [hvs] at hnumber'
      simp [Term.cons, Term.number, numberAll, hnumber, hnumber']
  · obtain ⟨rfl, rfl⟩ := done_inj hr
    refine ⟨ts, us, vs₁, .cons t .nil, rfl, rfl, .one ht, ?_⟩
    simp [Term.cons, Term.nil, Term.number, numberAll, hnumber]
  · exact absurd hr fail_ne_done

theorem sound_term (h : Sound ops k) {r : Option (Term Var)}
    (hr : getImagoterm ops (k + 1) n (scanned comma bar vs ls) = done r s) :
    TookTerm ops comma bar n vs ls s r := by
  rw [getImagoterm] at hr
  split at hr
  · next sym htoken =>
    obtain ⟨l, us, rfl, hl⟩ := of_token_name htoken
    rw [scanned_name hl, imagoscan_eq] at hr
    exact h.name hl hr
  · next v htoken =>
    obtain ⟨sym, us, rfl, rfl⟩ := of_token_var htoken
    rw [imagoscan_eq] at hr
    exact (h.loop hr).term (.var n sym) rfl
  · next rval htoken =>
    obtain ⟨us, rfl⟩ := of_token_real htoken
    rw [imagoscan_eq] at hr
    exact (h.loop hr).term (.real n rval) rfl
  · next htoken =>
    obtain ⟨us, rfl⟩ := of_token_paren htoken
    obtain ⟨t, s₁, ht, hr⟩ := andThen_eq_done hr
    obtain ⟨u, s₂, hclose, hr⟩ := andThen_eq_done hr
    obtain ⟨hparen, rfl⟩ := expect_eq_done hclose
    rw [imagoscan_eq] at ht
    have htook := h.term ht
    cases t with
    | none =>
      obtain ⟨ts, us', rfl, rfl, hvoid⟩ := htook
      obtain ⟨us', rfl⟩ := of_token_paren hparen
      rw [imagoscan_eq] at hr
      obtain ⟨rfl, rfl⟩ := h.loop hr
      exact ⟨.paren .lparen :: ts ++ [.paren .rparen], us', by simp, rfl, .brackets hvoid⟩
    | some t' =>
      obtain ⟨ts, us', vs', p, t, rfl, rfl, ht, hnumber⟩ := htook
      obtain ⟨us', rfl⟩ := of_token_paren hparen
      rw [imagoscan_eq] at hr
      have htook : TookTerm ops comma bar n vs
          (.paren .lparen :: ts ++ [.paren .rparen] ++ us') s r :=
        (h.loop hr).term (.brackets n ht) hnumber
      simpa using htook
  · next htoken =>
    obtain ⟨us, rfl⟩ := of_token_paren htoken
    obtain ⟨t, s₁, hlist, hr⟩ := andThen_eq_done hr
    obtain ⟨u, s₂, hclose, hr⟩ := andThen_eq_done hr
    obtain ⟨hparen, rfl⟩ := expect_eq_done hclose
    obtain ⟨ts, us', vs', t', rfl, rfl, ht, hnumber⟩ := h.list (imagoscan_eq _) hlist
    obtain ⟨us', rfl⟩ := of_token_paren hparen
    rw [imagoscan_eq] at hr
    have htook : TookTerm ops comma bar n vs
        (.paren .lbracket :: ts ++ [.paren .rbracket] ++ us') s r :=
      (h.loop hr).term (.list n ht) hnumber
    simpa using htook
  · obtain ⟨rfl, rfl⟩ := done_inj hr
    exact ⟨[], ls, rfl, rfl, .nil⟩

end

/-- **Whatever a call returns is spelled by what it has taken.** -/
theorem sound (ops : Operators) (k : ℕ) : Sound ops k := by
  induction k with
  | zero =>
    constructor <;> intros <;> contradiction
  | succ k ih =>
    exact ⟨sound_term ih, sound_name ih, sound_loop ih, sound_args ih, sound_more ih,
      sound_list ih⟩

end Parsing

end Mlvm
