import Mlvm.Builtins.Functor
import Mlvm.Fuel.Comes

/-!
# Term structure with `functor/3` and `arg/3`

**Making a term** takes the place of the three arguments. Below them only the variable changes.

**Taking a term apart** compares its name and its arity, or binds variables to them. A term that has
been made gives back what it was made of.

**An argument** is chosen by its number. A variable on either side is bound. A number that is out of
range is an illegal argument.

**`functor_arg_spec`** puts these together, for every store in which references end.
-/

namespace Mlvm.Builtins

open Creator Fuel

/-- The word leads to this one through references. -/
def Leads (m : Memory) (w v : Word) : Prop := Comes (fun n => deref m n w) (some v)

/-- The store of an imago that calls a builtin. Some words of its stack are cells of terms, the
three arguments among them; the others (of frames, or inside doubles) can be anything. Cells lead to
cells, references end, and there is room for two entries of the trail. -/
structure Caller (ip : Icb) (m : Memory) (cells : Int → Prop) : Prop where
  room : ip.st < ip.tt - 1
  below : ∀ a, cells a → a ≤ ip.st
  args : ∀ k : ℕ, k ≤ 2 → cells (ip.st - k)
  refs : ∀ a b, cells a → m.read a = .ref b → cells b
  lists : ∀ a p, cells a → m.read a = .lis p → cells p ∧ cells (p + 1)
  strs : ∀ a p, cells a → m.read a = .str p → m.read p ≠ .fvlTag →
    ∀ i : ℕ, 1 ≤ i → i ≤ (m.read p).arity → cells (p + i)
  ends : ∀ a, cells a → ∃ w, Leads m (m.read a) w

/-- The word unifies with a constant. -/
def Unifies (w c : Word) : Prop := w.isVar = true ∨ w = c

/-! ## What the builtins do -/

/-- A new term with this name and arity, for the variable `x`. -/
structure Built (ip : Icb) (m : Memory) (x : Int) (name : Word) (arity : Int) (ip' : Icb)
    (m' : Memory) : Prop where
  term : m'.read x = .str (ip.st - 2)
  hasName : .makeCon (m'.read (ip.st - 2)).funValue = name
  hasArity : ((m'.read (ip.st - 2)).arity : Int) = arity
  args : ∀ i, 1 ≤ i → i ≤ arity → m'.read (ip.st - 2 + i) = .ref (ip.st - 2 + i)
  frame : ∀ a < ip.st - 2, a ≠ x → m'.read a = m.read a
  registers : ip' = { ip with
    st := ip.st - 2 + arity, tt := if x ≤ ip.gl then ip.tt - 1 else ip.tt }
  trail : (x ≤ ip.gl → m'.read ip.tt = .ref x) ∧ ∀ a > ip.tt, m'.read a = m.read a

/-- `functor(-, name, arity)`, for the variable `x`. -/
structure ConstructSpec (ip : Icb) (m : Memory) (x : Int) (name arity : Word)
    (r : Exit × Icb × Memory) : Prop where
  illegal : name.isCst = false ∨ arity.isInt = false ∨ MAX_ARITY < arity.intValue →
    r = (.illegal, ip, m)
  atomic : name.isCst = true → arity.isInt = true → arity.intValue = 0 →
    r = (.succeed, assign ip m x name)
  built : ∀ c, name = .makeCon c → 0 ≤ c → c < 2 ^ 20 → arity.isInt = true →
    1 ≤ arity.intValue → arity.intValue ≤ MAX_ARITY → x < ip.st - 2 →
    ip.st - 2 + arity.intValue < ip.tt →
    r.1 = .succeed ∧ Built ip m x name arity.intValue r.2.1 r.2.2

/-- `functor(+, w2, w3)`, for a term with this name and arity. -/
structure InspectSpec (ip : Icb) (m : Memory) (name : Word) (arity : Int) (w2 w3 : Word)
    (r : Exit × Icb × Memory) : Prop where
  succeeds : r.1 = .succeed ↔ Unifies w2 name ∧ Unifies w3 (.makeInt arity)
  fails : r.1 ≠ .succeed → r.1 = .backtrack
  bindsName : r.1 = .succeed → ∀ x, w2 = .ref x → r.2.2.read x = name
  bindsArity : r.1 = .succeed → ∀ y, w3 = .ref y → r.2.2.read y = .makeInt arity
  frame : ∀ a ≤ ip.st, w2 ≠ .ref a → w3 ≠ .ref a → r.2.2.read a = m.read a

/-- `functor/3`, for a variable, a structure or a constant. The name and the arity are two variables
if both are unbound, and the arity is a variable or an integer. -/
def FunctorSpec (ip : Icb) (m : Memory) (w1 w2 w3 : Word) (r : Exit × Icb × Memory) : Prop :=
  match w1 with
  | .ref x => ConstructSpec ip m x w2 w3 r
  | .str p => m.read p ≠ .fvlTag → w3.isInt = true ∨ w3.isVar = true ∧ w2 ≠ w3 →
      InspectSpec ip m (.makeCon (m.read p).funValue) (m.read p).arity w2 w3 r
  | .cst _ => r = (.illegal, ip, m)
  | .lis _ => True

/-- The argument at `c` is unified with `w`, if one of them is a variable. -/
structure ArgumentSpec (ip : Icb) (m : Memory) (c : Int) (w : Word) (r : Exit × Icb × Memory) :
    Prop where
  unbound : ∀ x v, w = .ref x → Leads m (m.read c) v → v ≠ .ref x ∨ m.read c = .ref x →
    r.1 = .succeed ∧ Leads r.2.2 (.ref x) v ∧ Leads r.2.2 (r.2.2.read c) v ∧
      ∀ a ≤ ip.st, a ≠ x → r.2.2.read a = m.read a
  argument : ∀ y, w.isVar = false → Leads m (m.read c) (.ref y) →
    r.1 = .succeed ∧ r.2.2.read y = w ∧ ∀ a ≤ ip.st, a ≠ y → r.2.2.read a = m.read a

/-- `arg/3`, for a list or a structure. -/
structure ArgSpec (ip : Icb) (m : Memory) (w1 w2 w3 : Word) (r : Exit × Icb × Memory) : Prop where
  illegal : w1.isInt = false ∨ (w2.isList = false ∧ w2.isStr = false) → r = (.illegal, ip, m)
  range : ∀ below arity, compound m w2 = some (below, arity) →
    w1.intValue < 1 ∨ arity < w1.intValue → r = (.illegal, ip, m)
  chosen : ∀ below arity, compound m w2 = some (below, arity) → w1.isInt = true →
    1 ≤ w1.intValue → w1.intValue ≤ arity → ArgumentSpec ip m (below + w1.intValue) w3 r

/-- The word is no boxed double. -/
def NoFloat (m : Memory) (w : Word) : Prop := ∀ p, w = .str p → m.read p ≠ .fvlTag

variable {ip : Icb} {m : Memory} {cells : Int → Prop}

/-! ## Following references -/

/-- A word that comes out of the store: an unbound variable, or what a cell holds. -/
theorem Caller.source (h : Caller ip m cells) {a : Int} (ha : cells a) {v : Word}
    (hv : Leads m (m.read a) v) : (∃ x, cells x ∧ v = .ref x ∧ m.read x = .ref x) ∨
      (v.isVar = false ∧ ∃ b, cells b ∧ m.read b = v) := by
  obtain ⟨n, hn⟩ := hv.large _ rfl
  have hderef := hn n (Nat.le_refl n)
  clear hn hv
  induction n generalizing a with
  | zero => cases hderef
  | succ n ih =>
    cases hread : m.read a with
    | ref b =>
      have hb := h.refs a b ha hread
      rw [hread, deref] at hderef
      split_ifs at hderef with hself
      · exact .inl ⟨b, hb, (Option.some.inj hderef).symm, hself⟩
      · exact ih hb hderef
    | lis p =>
      rw [hread] at hderef
      obtain rfl := Option.some.inj hderef
      exact .inr ⟨rfl, a, ha, hread⟩
    | str p =>
      rw [hread] at hderef
      obtain rfl := Option.some.inj hderef
      exact .inr ⟨rfl, a, ha, hread⟩
    | cst c =>
      rw [hread] at hderef
      obtain rfl := Option.some.inj hderef
      exact .inr ⟨rfl, a, ha, hread⟩

theorem leads_nonvar (m : Memory) {w : Word} (hw : w.isVar = false) : Leads m w w := by
  refine .of_succ rfl ((comes_const _).congr fun n => ?_)
  cases w with
  | ref a => cases hw
  | _ => rfl

theorem leads_unbound {x : Int} (hx : m.read x = .ref x) : Leads m (.ref x) (.ref x) := by
  refine .of_succ rfl ((comes_const _).congr fun n => ?_)
  rw [deref, if_pos hx]

/-- One reference further. -/
theorem leads_ref {a : Int} (ha : m.read a ≠ .ref a) {v : Word} :
    Leads m (m.read a) v → Leads m (.ref a) v := by
  intro h
  refine .of_succ rfl (h.congr fun n => ?_)
  rw [deref, if_neg ha]

/-- **Binding a variable** leaves alone what does not lead to it. -/
theorem Caller.leads_write (h : Caller ip m cells) {x : Int} (hx : m.read x = .ref x) {m' : Memory}
    (hsame : ∀ a ≤ ip.st, a ≠ x → m'.read a = m.read a) {a : Int} (ha : cells a) {v : Word}
    (hv : Leads m (m.read a) v) (hne : v ≠ .ref x) : Leads m' (m.read a) v := by
  obtain ⟨n, hn⟩ := hv.large _ rfl
  have hderef := hn n (Nat.le_refl n)
  clear hn hv
  induction n generalizing a with
  | zero => cases hderef
  | succ n ih =>
    cases hread : m.read a with
    | ref b =>
      have hb := h.refs a b ha hread
      rw [hread, deref] at hderef
      split_ifs at hderef with hself
      · obtain rfl := Option.some.inj hderef
        have hbx : b ≠ x := fun heq => hne (by rw [heq])
        exact leads_unbound (by rw [hsame b (h.below b hb) hbx, hself])
      · have hbx : b ≠ x := fun heq => hself (by rw [heq, hx])
        have hstep := ih hb hderef
        rw [← hsame b (h.below b hb) hbx] at hstep hself
        exact leads_ref hself hstep
    | lis p =>
      rw [hread] at hderef
      obtain rfl := Option.some.inj hderef
      exact leads_nonvar m' rfl
    | str p =>
      rw [hread] at hderef
      obtain rfl := Option.some.inj hderef
      exact leads_nonvar m' rfl
    | cst c =>
      rw [hread] at hderef
      obtain rfl := Option.some.inj hderef
      exact leads_nonvar m' rfl

/-! ## Bindings -/

/-- The variable is bound; otherwise only a trail entry is written. -/
structure Binds (ip : Icb) (m : Memory) (x : Int) (w : Word) (r : Icb × Memory) : Prop where
  bound : r.2.read x = w
  rest : ∀ a, a ≠ x → a ≠ ip.tt → r.2.read a = m.read a
  st : r.1.st = ip.st
  tt : r.1.tt = ip.tt ∨ r.1.tt = ip.tt - 1

/-- **Both ways of trailing** bind the variable. -/
theorem binds_assign {x : Int} (hx : x ≠ ip.tt) (w : Word) :
    Binds ip m x w (assign ip m x w) ∧ Binds ip m x w (assignTrail ip m x w) := by
  have htrail : ∀ a, a ≠ ip.tt → ((m.write x w).write ip.tt (.ref x)).read a =
      (m.write x w).read a := fun a ha => Memory.read_write_of_ne _ ha _
  have hrest : ∀ a, a ≠ x → (m.write x w).read a = m.read a :=
    fun a ha => Memory.read_write_of_ne _ ha _
  constructor
  · rw [assign]
    split_ifs
    · refine ⟨?_, fun a ha ha' => ?_, rfl, .inr rfl⟩
      · rw [htrail x hx, Memory.read_write_self]
      · rw [htrail a ha', hrest a ha]
    · exact ⟨Memory.read_write_self .., fun a ha _ => hrest a ha, rfl, .inl rfl⟩
  · rw [assignTrail]
    split_ifs
    · refine ⟨?_, fun a ha ha' => ?_, rfl, .inr rfl⟩
      · rw [htrail x hx, Memory.read_write_self]
      · rw [htrail a ha', hrest a ha]
    · exact ⟨Memory.read_write_self .., fun a ha _ => hrest a ha, rfl, .inl rfl⟩

theorem assignTrail_trail (ip : Icb) (m : Memory) (x : Int) (w : Word) :
    (assignTrail ip m x w).1 = { ip with tt := if x ≤ ip.gl then ip.tt - 1 else ip.tt } ∧
      (x ≤ ip.gl → (assignTrail ip m x w).2.read ip.tt = .ref x) := by
  rw [assignTrail]
  by_cases hx : x ≤ ip.gl
  · rw [if_pos hx, if_pos hx]
    exact ⟨rfl, fun _ => Memory.read_write_self ..⟩
  · rw [if_neg hx, if_neg hx]
    exact ⟨rfl, fun hle => absurd hle hx⟩

/-! ## Making a term -/

theorem isCst_makeCon (c : Int) : (Word.makeCon c).isCst = true := rfl

/-- The name that a functor was made with. -/
theorem funValue_makeFun {c n : Int} (hc : 0 ≤ c) (hc' : c < 2 ^ 20) :
    (Word.makeFun c n).funValue = c := by
  simp only [Word.funValue, Word.makeFun, Word.bits]
  split_ifs <;> omega

/-- **The loop** makes unbound variables, one for every round. -/
theorem newVars_eq (m : Memory) (st : Int) (n : ℕ) :
    (newVars m st n).1 = st + n ∧
      (∀ i : ℕ, 1 ≤ i → i ≤ n → (newVars m st n).2.read (st + i) = .ref (st + i)) ∧
      ∀ a, (a ≤ st ∨ st + n < a) → (newVars m st n).2.read a = m.read a := by
  induction n generalizing m st with
  | zero =>
    refine ⟨by simp [newVars], fun i hi hi' => by omega, fun a _ => rfl⟩
  | succ n ih =>
    obtain ⟨hst, hvars, hrest⟩ := ih (m.write (st + 1) (.ref (st + 1))) (st + 1)
    rw [newVars]
    refine ⟨?_, ?_, ?_⟩
    · rw [hst]
      push_cast
      omega
    · intro i hi hi'
      by_cases hone : i = 1
      · rw [hone, Nat.cast_one, hrest _ (.inl (Int.le_refl _)), Memory.read_write_self]
      · have hvar := hvars (i - 1) (by omega) (by omega)
        have hplace : st + 1 + ((i - 1 : ℕ) : Int) = st + i := by omega
        rw [← hplace]
        exact hvar
    · intro a ha
      push_cast at ha
      rw [hrest a (by omega), Memory.read_write_of_ne _ (by omega)]

/-- **A term is built** over the arguments, if its name and arity fit into a functor. -/
theorem construct_built (h : Caller ip m cells) {x c : Int} {w : Word} (hc : 0 ≤ c)
    (hc' : c < 2 ^ 20)
    (hint : w.isInt = true) (hone : 1 ≤ w.intValue) (hmax : w.intValue ≤ MAX_ARITY)
    (hx : x < ip.st - 2) (hroom : ip.st - 2 + w.intValue < ip.tt) :
    (construct ip m x (.makeCon c) w).1 = .succeed ∧
      Built ip m x (.makeCon c) w.intValue (construct ip m x (.makeCon c) w).2.1
        (construct ip m x (.makeCon c) w).2.2 := by
  have hlist : Word.makeCon c ≠ conList := by
    intro heq
    cases heq
  have hbase : ip.st - 3 + 1 = ip.st - 2 := by omega
  rw [MAX_ARITY] at hmax
  have hcount : (w.intValue % 2 ^ 32).toNat = w.intValue.toNat := by omega
  have hnat : ((w.intValue.toNat : ℕ) : Int) = w.intValue := by omega
  obtain ⟨n, hn⟩ : ∃ n : ℕ, w.intValue = n := ⟨_, hnat.symm⟩
  generalize hm₀ : m.write (ip.st - 2) (.makeFun c w.intValue) = m₀
  have hroom' := h.room
  have hne : x ≠ ip.tt := by omega
  obtain ⟨hbound, hrest, hst, -⟩ := (binds_assign (m := m₀) hne (.str (ip.st - 2))).2
  obtain ⟨hregs, htrail⟩ := assignTrail_trail ip m₀ x (.str (ip.st - 2))
  generalize hr : assignTrail ip m₀ x (.str (ip.st - 2)) = r at hbound hrest hst hregs htrail
  have hfun : r.2.read (ip.st - 2) = .makeFun c w.intValue := by
    rw [hrest _ (by omega) (by omega), ← hm₀, Memory.read_write_self]
  obtain ⟨htop, hvars, hkeep⟩ := newVars_eq r.2 (ip.st - 2) w.intValue.toNat
  rw [hnat] at htop hkeep
  have hrun : construct ip m x (.makeCon c) w =
      (.succeed, { r.1 with st := ip.st - 2 + w.intValue },
        (newVars r.2 (ip.st - 2) w.intValue.toNat).2) := by
    have hzero : w.intValue ≠ 0 := by omega
    have hlarge : ¬ w.intValue > 511 := by omega
    simp only [construct, isCst_makeCon, hint, Bool.not_true, Bool.or_self, Bool.false_eq_true,
      if_false, MAX_ARITY, if_neg hlarge, if_neg hzero, if_neg hlist, hbase, intValue_makeCon,
      hm₀, hr, hcount, htop]
  rw [hrun]
  refine ⟨rfl, ?_, ?_, ?_, ?_, ?_, ?_, ?_⟩
  · rw [hkeep x (by omega), hbound]
  · rw [hkeep _ (by omega), hfun, funValue_makeFun hc hc']
  · rw [hkeep _ (by omega), hfun, Word.arity_makeFun hc hc' (by omega) (by omega), hnat]
  · intro i hi hi'
    have hvar := hvars i.toNat (by omega) (by omega)
    rw [show ((i.toNat : ℕ) : Int) = i by omega] at hvar
    exact hvar
  · intro a ha hother
    rw [hkeep a (by omega), hrest a hother (by omega), ← hm₀, Memory.read_write_of_ne _ (by omega)]
  · rw [hregs]
  · refine ⟨fun hle => ?_, fun a ha => ?_⟩
    · rw [hkeep _ (by omega), htrail hle]
    · rw [hkeep a (by omega), hrest a (by omega) (by omega), ← hm₀,
        Memory.read_write_of_ne _ (by omega)]

/-- **`functor/3` of a variable**. -/
theorem construct_spec (h : Caller ip m cells) (x : Int) (w2 w3 : Word) :
    ConstructSpec ip m x w2 w3 (construct ip m x w2 w3) := by
  refine ⟨?_, ?_, ?_⟩
  · intro hill
    rw [construct]
    by_cases hcheck : (!w2.isCst || !w3.isInt) = true
    · rw [if_pos hcheck]
    · rw [if_neg hcheck]
      simp only [Bool.or_eq_true, Bool.not_eq_true', not_or, Bool.not_eq_false] at hcheck
      rcases hill with hill | hill | hill
      · exact absurd hill (by simp [hcheck.1])
      · exact absurd hill (by simp [hcheck.2])
      · rw [if_pos hill]
  · intro hcst hint hzero
    have hmax : ¬ (0 : Int) > MAX_ARITY := by decide
    simp only [construct, hcst, hint, Bool.not_true, Bool.or_self, Bool.false_eq_true, if_false,
      if_neg hmax, hzero, if_true]
  · rintro c rfl hc hc' hint hone hmax hx hroom
    exact construct_built h hc hc' hint hone hmax hx hroom

/-! ## Taking a term apart -/

/-- An integer is the one that `make_int` makes. -/
theorem eq_makeInt_iff {w : Word} (hw : w.isInt = true) {n : Int} (hn : 0 ≤ n) (hn' : n < 512) :
    w = .makeInt n ↔ w.intValue = n := by
  cases w with
  | cst c =>
    have heven : c % 2 = 0 := by simpa [Word.isInt] using hw
    have hmod : Int.bmod (2 * n) (2 ^ 30) = 2 * n := by
      rw [Int.bmod_eq_of_le] <;> omega
    rw [Word.makeInt, hmod, Word.intValue, Word.bits]
    constructor
    · intro heq
      injection heq with heq
      omega
    · intro heq
      congr 1
      omega
  | _ => cases hw

theorem arity_lt (w : Word) : w.arity < 512 := by
  rw [Word.arity]
  omega

/-- The word unifies with a constant, whether or not it is bound to it. -/
def unify (ip : Icb) (m : Memory) (w c : Word) : Icb × Memory :=
  if w.isVar then assign ip m w.addr c else (ip, m)

/-- What is bound on the way. -/
theorem unify_binds {ip : Icb} {m : Memory} {st : Int} (hst : st < ip.tt) {w : Word}
    (hw : (∃ x ≤ st, w = .ref x) ∨ w.isVar = false) (c : Word) :
    (∀ x, w = .ref x → (unify ip m w c).2.read x = c) ∧
      (∀ a ≤ st, w ≠ .ref a → (unify ip m w c).2.read a = m.read a) ∧
      ip.tt - 1 ≤ (unify ip m w c).1.tt := by
  rcases hw with ⟨x, hx, rfl⟩ | hw
  · have hne : x ≠ ip.tt := by omega
    obtain ⟨hbound, hrest, -, htt⟩ := (binds_assign (m := m) hne c).1
    have hrun : unify ip m (.ref x) c = assign ip m x c := rfl
    rw [hrun]
    refine ⟨?_, ?_, by omega⟩
    · intro y hy
      injection hy with hy
      rw [← hy, hbound]
    · intro a ha hother
      exact hrest a (fun heq => hother (by rw [heq])) (by omega)
  · have hrun : unify ip m w c = (ip, m) := if_neg (by simp [hw])
    rw [hrun]
    refine ⟨?_, fun a _ _ => rfl, by simp⟩
    rintro x rfl
    cases hw

/-- **`functor/3` of a structure**. -/
theorem inspect_spec (h : Caller ip m cells) {w2 w3 name : Word} {n : ℕ} (hn : n < 512)
    (h2 : (∃ x ≤ ip.st, w2 = .ref x) ∨ w2.isVar = false)
    (h3 : (∃ y ≤ ip.st, w3 = .ref y ∧ w2 ≠ w3) ∨ w3.isInt = true) :
    InspectSpec ip m name n w2 w3 (inspect ip m name n w2 w3) := by
  have hroom := h.room
  by_cases hname : Unifies w2 name
  · have hbelow : ip.st < ip.tt := by omega
    obtain ⟨hbound, hrest, htt⟩ := unify_binds (m := m) hbelow h2 name
    have hpass : (!w2.isVar && decide (w2 ≠ name)) = false := by
      rcases hname with hvar | rfl
      · simp [hvar]
      · simp
    rcases h3 with ⟨y, hy, rfl, hne⟩ | hint
    · have hvars : (∃ x ≤ ip.st, Word.ref y = .ref x) ∨ (Word.ref y).isVar = false :=
        .inl ⟨y, hy, rfl⟩
      have hbelow' : ip.st < (unify ip m w2 name).1.tt := by omega
      obtain ⟨hbound', hrest', -⟩ := unify_binds (m := (unify ip m w2 name).2) hbelow' hvars
        (.makeInt n)
      have hrun : inspect ip m name n w2 (.ref y) = (.succeed,
          unify (unify ip m w2 name).1 (unify ip m w2 name).2 (.ref y) (.makeInt n)) := by
        simp only [inspect, hpass, Bool.false_eq_true, if_false]
        rfl
      rw [hrun]
      refine ⟨iff_of_true rfl ⟨hname, .inl rfl⟩, fun hnot => absurd rfl hnot, ?_, ?_, ?_⟩
      · rintro - x rfl
        have hx : x ≤ ip.st := by
          rcases h2 with ⟨z, hz, heq⟩ | hvar
          · injection heq with heq
            omega
          · cases hvar
        rw [hrest' x hx hne.symm, hbound x rfl]
      · intro _ z hz
        exact hbound' z hz
      · intro a ha hne2 hne3
        rw [hrest' a ha hne3, hrest a ha hne2]
    · have hvar : w3.isVar = false := by
        cases w3 with
        | cst c => rfl
        | _ => cases hint
      have hunifies : Unifies w3 (.makeInt n) ↔ w3.intValue = n := by
        rw [Unifies, hvar, eq_makeInt_iff hint (by omega) (by omega)]
        simp
      have hrun : inspect ip m name n w2 w3 =
          if w3.intValue ≠ n then (.backtrack, unify ip m w2 name)
          else (.succeed, unify ip m w2 name) := by
        simp only [inspect, hpass, hvar, Bool.false_eq_true, if_false]
        rfl
      rw [hrun]
      have hnotvar : ∀ y, w3 ≠ .ref y := by
        rintro y rfl
        cases hvar
      by_cases heq : w3.intValue = n
      · rw [if_neg (not_not.2 heq)]
        exact ⟨iff_of_true rfl ⟨hname, hunifies.2 heq⟩, fun hnot => absurd rfl hnot,
          fun _ x hx => hbound x hx, fun _ y hy => absurd hy (hnotvar y),
          fun a ha hne2 _ => hrest a ha hne2⟩
      · rw [if_pos heq]
        exact ⟨iff_of_false (by simp) (fun hboth => heq (hunifies.1 hboth.2)), fun _ => rfl,
          fun hs => by simp at hs, fun hs => by simp at hs, fun a ha hne2 _ => hrest a ha hne2⟩
  · have hcheck : (!w2.isVar && decide (w2 ≠ name)) = true := by
      rw [Unifies, not_or] at hname
      simp [hname]
    have hrun : inspect ip m name n w2 w3 = (.backtrack, ip, m) := by
      rw [inspect, if_pos hcheck]
    rw [hrun]
    exact ⟨iff_of_false (by simp) (fun hboth => hname hboth.1), fun _ => rfl,
      fun hs => by simp at hs, fun hs => by simp at hs, fun a _ _ _ => rfl⟩

/-! ## Arguments -/

/-- An unbound variable leads to nothing else. -/
theorem eq_of_leads_unbound {x : Int} (hx : m.read x = .ref x) {v : Word}
    (h : Leads m (.ref x) v) : v = .ref x := by
  obtain ⟨n, hn⟩ := h.large _ rfl
  have hderef := hn (n + 1) (Nat.le_succ n)
  simp only [deref, if_pos hx] at hderef
  exact (Option.some.inj hderef).symm

/-- The argument of a compound term that is no double is a cell. -/
theorem Caller.argument_cell (h : Caller ip m cells) {a : Int} (ha : cells a) {w : Word}
    (hw : m.read a = w) (hfloat : NoFloat m w) {below arity i : Int}
    (hcompound : compound m w = some (below, arity)) (hlow : 1 ≤ i) (hi : i ≤ arity) :
    cells (below + i) := by
  cases w with
  | lis p =>
    obtain ⟨hhead, htail⟩ := h.lists a p ha hw
    simp only [compound, Option.some.injEq, Prod.mk.injEq] at hcompound
    obtain rfl | rfl : i = 1 ∨ i = 2 := by omega
    · rwa [← hcompound.1, Int.sub_add_cancel]
    · rwa [← hcompound.1, show p - 1 + 2 = p + 1 by omega]
  | str p =>
    simp only [compound, Option.some.injEq, Prod.mk.injEq] at hcompound
    have harg := h.strs a p ha hw (hfloat p rfl) i.toNat (by omega) (by omega)
    rwa [show ((i.toNat : ℕ) : Int) = i by omega, hcompound.1] at harg
  | ref b => cases hcompound
  | cst c => cases hcompound

/-- Whichever way the binding is trailed. -/
theorem binds_either {x : Int} (hx : x ≠ ip.tt) (w : Word) (b : Bool) :
    Binds ip m x w (if b then assign ip m x w else assignTrail ip m x w) := by
  cases b
  · exact (binds_assign hx w).2
  · exact (binds_assign hx w).1

/-- **A variable** is bound to the argument, and leads to what it leads to. -/
theorem Caller.unify_variable (h : Caller ip m cells) {c x : Int} (hc : cells c) (hx : cells x)
    (hunbound : m.read x = .ref x) {r : Icb × Memory} (hr : Binds ip m x (m.read c) r) {v : Word}
    (hv : Leads m (m.read c) v) (hsafe : v ≠ .ref x ∨ m.read c = .ref x) :
    Leads r.2 (.ref x) v ∧ Leads r.2 (r.2.read c) v ∧
      ∀ a ≤ ip.st, a ≠ x → r.2.read a = m.read a := by
  have hroom := h.room
  have hsame : ∀ a ≤ ip.st, a ≠ x → r.2.read a = m.read a :=
    fun a ha hne => hr.rest a hne (by omega)
  by_cases hself : m.read c = .ref x
  · rw [hself] at hv
    obtain rfl := eq_of_leads_unbound hunbound hv
    have hx' : r.2.read x = .ref x := hr.bound.trans hself
    refine ⟨leads_unbound hx', ?_, hsame⟩
    by_cases hcx : c = x
    · rw [hcx, hx']
      exact leads_unbound hx'
    · rw [hsame c (h.below c hc) hcx, hself]
      exact leads_unbound hx'
  · have hne : v ≠ .ref x := hsafe.resolve_right hself
    have hcx : c ≠ x := by
      rintro rfl
      exact hself hunbound
    have hleads := h.leads_write hunbound hsame hc hv hne
    refine ⟨?_, ?_, hsame⟩
    · refine leads_ref ?_ ?_
      · rw [hr.bound]
        exact hself
      · rw [hr.bound]
        exact hleads
    · rw [hsame c (h.below c hc) hcx]
      exact hleads

/-- **The chosen argument** is unified with a word that comes out of the store. -/
theorem Caller.unifyArg_spec (h : Caller ip m cells) {c : Int} (hc : cells c) {w : Word}
    (hw : (∃ x, cells x ∧ w = .ref x ∧ m.read x = .ref x) ∨ w.isVar = false) :
    ∃ r, Comes (fun n => unifyArg n ip m c w) (some r) ∧ ArgumentSpec ip m c w r := by
  have hroom := h.room
  rcases hw with ⟨x, hx, rfl, hunbound⟩ | hvar
  · have hbelow := h.below x hx
    have hne : x ≠ ip.tt := by omega
    refine ⟨_, (comes_const _).congr fun n => rfl, ?_, ?_⟩
    · intro y v hy hv hsafe
      injection hy with hy
      subst hy
      exact ⟨rfl, h.unify_variable hc hx hunbound (binds_either hne _ _) hv hsafe⟩
    · intro y hy
      cases hy
  · obtain ⟨v, hv⟩ := h.ends c hc
    have hcell : Leads m (.ref c) v := by
      by_cases hself : m.read c = .ref c
      · rw [hself] at hv
        exact hv
      · exact leads_ref hself hv
    have hrun : ∃ f : Word → Exit × Icb × Memory,
        (∀ n, unifyArg n ip m c w = (deref m n (.ref c)).map f) ∧
        ∀ y, f (.ref y) =
          (.succeed, if w.isCon then assign ip m y w else assignTrail ip m y w) := by
      cases w with
      | ref a => cases hvar
      | _ => exact ⟨_, fun n => rfl, fun y => rfl⟩
    obtain ⟨f, hrun, hbound⟩ := hrun
    refine ⟨_, (hcell.map f).congr hrun, ?_, ?_⟩
    · rintro x _ rfl
      cases hvar
    · intro y _ hy
      obtain rfl := Option.some.inj (hv.unique hy)
      have hle : y ≤ ip.st := by
        rcases h.source hc hy with ⟨z, hz, heq, -⟩ | ⟨hnot, -⟩
        · injection heq with heq
          rw [heq]
          exact h.below z hz
        · cases hnot
      have hne : y ≠ ip.tt := by omega
      have hbinds := binds_either (m := m) hne w w.isCon
      rw [hbound]
      exact ⟨rfl, hbinds.bound, fun a ha hother => hbinds.rest a hother (by omega)⟩

/-- The three arguments are dereferenced. -/
theorem comes_arguments {α : Type} {w1 w2 w3 : Word} (h1 : Leads m (m.read (ip.st - 2)) w1)
    (h2 : Leads m (m.read (ip.st - 1)) w2) (h3 : Leads m (m.read ip.st) w3)
    {k : ℕ → Word → Word → Word → Option α} {o : Option α} (hk : Comes (fun n => k n w1 w2 w3) o) :
    Comes (fun n => (argument n ip m 2).bind fun r1 => (argument n ip m 1).bind fun r2 =>
      (argument n ip m 0).bind fun r3 => k n r1 r2 r3) o := by
  rw [← Int.sub_zero ip.st] at h3
  exact h1.bind (k := fun n r1 => (argument n ip m 1).bind fun r2 =>
    (argument n ip m 0).bind fun r3 => k n r1 r2 r3) (h2.bind (k := fun n r2 =>
      (argument n ip m 0).bind fun r3 => k n w1 r2 r3) (h3.bind (k := fun n r3 => k n w1 w2 r3) hk))

/-- `arg/3` of arguments that have been dereferenced. -/
theorem Caller.argTerm_spec (h : Caller ip m cells) (w1 : Word) {w2 w3 : Word} {a b : Int}
    (ha : cells a) (hw2 : w2.isVar = true ∨ m.read a = w2) (hfloat : NoFloat m w2)
    (hb : cells b) (hw3 : Leads m (m.read b) w3) :
    ∃ r, Comes (fun n => argTerm n ip m w1 w2 w3) (some r) ∧ ArgSpec ip m w1 w2 w3 r := by
  by_cases hint : w1.isInt = true
  · cases hcompound : compound m w2 with
    | none =>
      refine ⟨(.illegal, ip, m), (comes_const _).congr fun n => ?_, fun _ => rfl, ?_, ?_⟩
      · simp only [argTerm, hint, hcompound, Bool.not_true, Bool.false_eq_true, if_false]
      · intro below arity heq
        cases hcompound.symm.trans heq
      · intro below arity heq
        cases hcompound.symm.trans heq
    | some place =>
      obtain ⟨below, arity⟩ := place
      have hkind : ¬ (w1.isInt = false ∨ w2.isList = false ∧ w2.isStr = false) := by
        rw [hint]
        cases w2 with
        | lis p => simp [Word.isList]
        | str p => simp [Word.isStr]
        | _ => cases hcompound
      by_cases hrange : w1.intValue < 1 ∨ w1.intValue > arity
      · refine ⟨(.illegal, ip, m), (comes_const _).congr fun n => ?_,
          fun hill => absurd hill hkind, fun _ _ _ _ => rfl, ?_⟩
        · simp only [argTerm, hint, hcompound, Bool.not_true, Bool.false_eq_true, if_false,
            if_pos hrange]
        · intro below' arity' heq _ hlow hhigh
          rw [hcompound, Option.some.injEq, Prod.mk.injEq] at heq
          omega
      · have hcell : cells (below + w1.intValue) := by
          rcases hw2 with hvar | hread
          · cases w2 with
            | ref x => cases hcompound
            | _ => cases hvar
          · exact h.argument_cell ha hread hfloat hcompound (by omega) (by omega)
        have hw3' : (∃ x, cells x ∧ w3 = .ref x ∧ m.read x = .ref x) ∨ w3.isVar = false :=
          (h.source hb hw3).imp_right And.left
        obtain ⟨r, hr, hspec⟩ := h.unifyArg_spec hcell hw3'
        refine ⟨r, hr.congr fun n => ?_, fun hill => absurd hill hkind, ?_, ?_⟩
        · simp only [argTerm, hint, hcompound, Bool.not_true, Bool.false_eq_true, if_false,
            if_neg hrange]
        · intro below' arity' heq hout
          rw [hcompound, Option.some.injEq, Prod.mk.injEq] at heq
          omega
        · intro below' arity' heq _ _ _
          rw [hcompound, Option.some.injEq, Prod.mk.injEq] at heq
          rw [← heq.1]
          exact hspec
  · have hnot : w1.isInt = false := by simpa using hint
    refine ⟨(.illegal, ip, m), (comes_const _).congr fun n => ?_, fun _ => rfl,
      fun _ _ _ _ => rfl, ?_⟩
    · simp only [argTerm, hnot, Bool.not_false, if_true]
    · intro below arity _ hyes
      exact absurd hyes hint

/-- **`functor/3` and `arg/3`** do what they are for, in every store whose cells lead to cells and
in which references end. -/
theorem functor_arg_spec (h : Caller ip m cells) : ∃ w1 w2 w3, Leads m (m.read (ip.st - 2)) w1 ∧
    Leads m (m.read (ip.st - 1)) w2 ∧ Leads m (m.read ip.st) w3 ∧
    (∃ fuel r, bpFunctor3 ip m fuel = some r ∧ FunctorSpec ip m w1 w2 w3 r) ∧
    (NoFloat m w2 → ∃ fuel r, bpArg ip m fuel = some r ∧ ArgSpec ip m w1 w2 w3 r) := by
  have hcell1 : cells (ip.st - 2) := h.args 2 (Nat.le_refl _)
  have hcell2 : cells (ip.st - 1) := h.args 1 (by decide)
  have hcell3 : cells ip.st := by
    have hcell := h.args 0 (Nat.zero_le _)
    rwa [Nat.cast_zero, Int.sub_zero] at hcell
  obtain ⟨w1, h1⟩ := h.ends _ hcell1
  obtain ⟨w2, h2⟩ := h.ends _ hcell2
  obtain ⟨w3, h3⟩ := h.ends _ hcell3
  refine ⟨w1, w2, w3, h1, h2, h3, ?_, ?_⟩
  · have hrun : Comes (bpFunctor3 ip m) (some (functorTerm ip m w1 w2 w3)) := by
      refine (comes_arguments (k := fun _ r1 r2 r3 => some (functorTerm ip m r1 r2 r3)) h1 h2 h3
        (comes_const _)).congr fun n => ?_
      simp only [bpFunctor3, Option.map_eq_bind, Function.comp_def]
    obtain ⟨fuel, hfuel⟩ := (hrun.exists_iff _).2 rfl
    refine ⟨fuel, _, hfuel, ?_⟩
    cases w1 with
    | ref x => exact construct_spec h x w2 w3
    | lis p => trivial
    | cst c => rfl
    | str p =>
      intro _ hw3
      refine inspect_spec h (arity_lt _) ?_ ?_
      · rcases h.source hcell2 h2 with ⟨x, hx, heq, -⟩ | ⟨hnot, -⟩
        · exact .inl ⟨x, h.below x hx, heq⟩
        · exact .inr hnot
      · rcases hw3 with hint | ⟨hvar, hne⟩
        · exact .inr hint
        · rcases h.source hcell3 h3 with ⟨y, hy, heq, -⟩ | ⟨hnot, -⟩
          · exact .inl ⟨y, h.below y hy, heq, hne⟩
          · rw [hvar] at hnot
            cases hnot
  · intro hfloat
    obtain ⟨b, hb, hw2⟩ : ∃ b, cells b ∧ (w2.isVar = true ∨ m.read b = w2) := by
      rcases h.source hcell2 h2 with ⟨x, hx, rfl, -⟩ | ⟨-, b, hb, hw⟩
      · exact ⟨x, hx, .inl rfl⟩
      · exact ⟨b, hb, .inr hw⟩
    obtain ⟨r, hr, hspec⟩ := h.argTerm_spec w1 hb hw2 hfloat hcell3 h3
    obtain ⟨fuel, hfuel⟩ := ((comes_arguments (k := fun n r1 r2 r3 => argTerm n ip m r1 r2 r3)
      h1 h2 h3 hr).exists_iff _).2 rfl
    exact ⟨fuel, r, hfuel, hspec⟩

/-! ## Two calls -/

/-- An imago with three arguments at 100, 101 and 102. -/
def frame : Icb := { worker with st := 102, bb := 99, gl := 99, tt := 199 }

/-- A variable at 50, a list at 90, three arguments, and elsewhere the words of a frame. -/
def threeArgs (w1 w2 w3 : Word) : Memory :=
  ((((((({ word := fun _ => 4 * 1000, byte := fun _ => 0 } : Memory).write 50 (.ref 50)).write 90
    (.cst 0)).write 91 (.cst 0)).write 100 w1).write 101 w2).write 102 w3)

def threeCells (a : Int) : Prop := a = 50 ∨ a = 90 ∨ a = 91 ∨ a = 100 ∨ a = 101 ∨ a = 102

theorem read_threeArgs (w1 w2 w3 : Word) : (threeArgs w1 w2 w3).read 50 = .ref 50 ∧
    (threeArgs w1 w2 w3).read 90 = .cst 0 ∧ (threeArgs w1 w2 w3).read 91 = .cst 0 ∧
    (threeArgs w1 w2 w3).read 100 = w1 ∧ (threeArgs w1 w2 w3).read 101 = w2 ∧
    (threeArgs w1 w2 w3).read 102 = w3 := by
  simp [threeArgs, Memory.read_write_of_ne]

/-- A word that is a constant, a list below the arguments, or the variable. -/
def Simple (w : Word) : Prop := w.isCst = true ∨ w = .lis 90 ∨ w = .ref 50

theorem simple_read {w1 w2 w3 : Word} (h1 : Simple w1) (h2 : Simple w2) (h3 : Simple w3)
    {a : Int} (ha : threeCells a) : Simple ((threeArgs w1 w2 w3).read a) := by
  obtain ⟨hr50, hr90, hr91, hr100, hr101, hr102⟩ := read_threeArgs w1 w2 w3
  rcases ha with rfl | rfl | rfl | rfl | rfl | rfl
  · exact .inr (.inr hr50)
  · exact .inl (by rw [hr90]; rfl)
  · exact .inl (by rw [hr91]; rfl)
  · rwa [hr100]
  · rwa [hr101]
  · rwa [hr102]

theorem threeArgs_caller {w1 w2 w3 : Word} (h1 : Simple w1) (h2 : Simple w2) (h3 : Simple w3) :
    Caller frame (threeArgs w1 w2 w3) threeCells where
  room := by decide
  below := by
    rintro a (rfl | rfl | rfl | rfl | rfl | rfl) <;> decide
  args := by
    intro k hk
    obtain rfl | rfl | rfl : k = 0 ∨ k = 1 ∨ k = 2 := by omega
    · exact .inr (.inr (.inr (.inr (.inr rfl))))
    · exact .inr (.inr (.inr (.inr (.inl rfl))))
    · exact .inr (.inr (.inr (.inl rfl)))
  refs := by
    intro a b ha hb
    rcases simple_read h1 h2 h3 ha with h | h | h <;> rw [hb] at h
    · cases h
    · cases h
    · injection h with h
      exact .inl h
  lists := by
    intro a p ha hp
    rcases simple_read h1 h2 h3 ha with h | h | h <;> rw [hp] at h
    · cases h
    · injection h with h
      rw [h]
      exact ⟨.inr (.inl rfl), .inr (.inr (.inl rfl))⟩
    · cases h
  strs := by
    intro a p ha hp
    rcases simple_read h1 h2 h3 ha with h | h | h <;> rw [hp] at h <;> cases h
  ends := by
    intro a ha
    rcases simple_read h1 h2 h3 ha with h | h | h
    · refine ⟨_, leads_nonvar _ ?_⟩
      cases hw : (threeArgs w1 w2 w3).read a with
      | cst c => rfl
      | _ => rw [hw] at h; cases h
    · rw [h]
      exact ⟨_, leads_nonvar _ rfl⟩
    · rw [h]
      exact ⟨_, leads_unbound (read_threeArgs w1 w2 w3).1⟩

/-- `functor(X, f, 2)` makes `f(_, _)`. -/
theorem functor_arg_spec_pair : ∃ fuel r,
    bpFunctor3 frame (threeArgs (.ref 50) (.makeCon 200) (.makeInt 2)) fuel = some r ∧
      r.1 = .succeed ∧ Built frame (threeArgs (.ref 50) (.makeCon 200) (.makeInt 2)) 50
        (.makeCon 200) 2 r.2.1 r.2.2 := by
  obtain ⟨hvar, -, -, hr1, hr2, hr3⟩ := read_threeArgs (.ref 50) (.makeCon 200) (.makeInt 2)
  obtain ⟨w1, w2, w3, h1, h2, h3, ⟨fuel, r, hrun, hspec⟩, -⟩ := functor_arg_spec
    (threeArgs_caller (.inr (.inr rfl)) (.inl rfl) (.inl rfl) :
      Caller frame (threeArgs (.ref 50) (.makeCon 200) (.makeInt 2)) threeCells)
  rw [show frame.st - 2 = 100 from rfl, hr1] at h1
  rw [show frame.st - 1 = 101 from rfl, hr2] at h2
  rw [show frame.st = 102 from rfl, hr3] at h3
  obtain rfl := eq_of_leads_unbound hvar h1
  obtain rfl := Option.some.inj (h2.unique (leads_nonvar _ rfl))
  obtain rfl := Option.some.inj (h3.unique (leads_nonvar _ rfl))
  exact ⟨fuel, r, hrun, hspec.built 200 rfl (by decide) (by decide) rfl (by decide) (by decide)
    (by decide) (by decide)⟩

/-- `arg(3, [0|0], X)` does not fail: it is an error. -/
theorem not_fails_out_of_range : ¬ ∃ fuel ip' m',
    bpArg frame (threeArgs (.makeInt 3) (.lis 90) (.ref 50)) fuel = some (.backtrack, ip', m') := by
  rintro ⟨fuel, ip', m', hrun⟩
  obtain ⟨hvar, -, -, hr1, hr2, hr3⟩ := read_threeArgs (.makeInt 3) (.lis 90) (.ref 50)
  have hillegal : Comes (bpArg frame (threeArgs (.makeInt 3) (.lis 90) (.ref 50)))
      (some (.illegal, frame, threeArgs (.makeInt 3) (.lis 90) (.ref 50))) := by
    have hrange : Comes (fun n => argTerm n frame
        (threeArgs (.makeInt 3) (.lis 90) (.ref 50)) (.makeInt 3) (.lis 90) (.ref 50))
        (some (.illegal, frame, threeArgs (.makeInt 3) (.lis 90) (.ref 50))) :=
      (comes_const _).congr fun n => rfl
    refine comes_arguments (k := fun n r1 r2 r3 => argTerm n frame _ r1 r2 r3) ?_ ?_ ?_ hrange
    · rw [show frame.st - 2 = 100 from rfl, hr1]
      exact leads_nonvar _ rfl
    · rw [show frame.st - 1 = 101 from rfl, hr2]
      exact leads_nonvar _ rfl
    · rw [show frame.st = 102 from rfl, hr3]
      exact leads_unbound hvar
  have heq := hillegal.only fuel _ hrun
  injection heq with heq
  injection heq with heq
  cases heq

end Mlvm.Builtins
