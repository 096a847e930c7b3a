import Mlvm.Creator.LevelWalk
import Mathlib.Algebra.Order.BigOperators.Group.List

/-!
# The size of an argument

`arg_size` counts the words of a term, with one word more for every name, and does not change the
term: **`comes_argSize`**.
-/

namespace Mlvm.Creator

open FirstOrder StringTable

/-! ## Counting -/

/-- What `arg_size` counts for a symbol. -/
def Sym.argWords : Sym → ℕ
  | .con (.same c) => if (Word.cst c).isInt then 1 else 2
  | .con (.name _ _) => 2
  | .list => 1
  | .str _ => 2
  | .double _ _ => 4

/-- What `arg_size` counts for a term. -/
def argWords : Term Sym Int → ℕ
  | .var _ => 1
  | .app f ts => f.argWords + (ts.map argWords).sum

@[simp] theorem argWords_var (v : Int) : argWords (.var v) = 1 := by rw [argWords]

@[simp] theorem argWords_app (f : Sym) (ts : List (Term Sym Int)) :
    argWords (.app f ts) = f.argWords + (ts.map argWords).sum := by
  rw [argWords]

/-! ## The stack of `arg_size` -/

/-- The words below `stk` hold these terms, the last one at the top. -/
inductive Stacked (A : Area) (m : Memory) (btk : Int) : Int → List (Term Sym Int) → Prop
  | nil : Stacked A m btk btk []
  | cons {stk : Int} {t : Term Sym Int} {ts : List (Term Sym Int)} : Reads A m (m.read stk) t →
      Stacked A m btk stk ts → Stacked A m btk (stk + 1) (t :: ts)

variable {A : Area} {m m' : Memory} {btk stk : Int} {ts : List (Term Sym Int)}

theorem Stacked.le (h : Stacked A m btk stk ts) : btk ≤ stk := by
  induction h with
  | nil => exact Int.le_refl _
  | cons _ _ ih => omega

theorem Stacked.eq_add (h : Stacked A m btk stk ts) : stk = btk + ts.length := by
  induction h with
  | nil => simp
  | cons _ _ ih =>
    rw [ih, List.length_cons]
    omega

theorem length_le_sizes (ts : List (Term Sym Int)) : ts.length ≤ (ts.map Term.size).sum := by
  induction ts with
  | nil => exact Nat.le_refl 0
  | cons t ts ih =>
    have := t.size_pos
    rw [List.length_cons, List.map_cons, List.sum_cons]
    omega

theorem stackCells_above (n : ℕ) (p stk : Int) (m : Memory) {a : Int} (ha : stk + n ≤ a) :
    (stackCells n p stk m).word a = m.word a := by
  induction n generalizing p stk m with
  | zero => rfl
  | succ n ih =>
    refine (ih (p + 1) (stk + 1) _ (by omega)).trans ?_
    exact Function.update_of_ne (by omega) ..

theorem Stacked.congr (h : Stacked A m btk stk ts) (hword : ∀ a, A.word a → a < btk)
    (hsame : ∀ a, a < stk → m'.word a = m.word a) (hbyte : m'.byte = m.byte) :
    Stacked A m' btk stk ts := by
  induction h with
  | nil => exact .nil
  | @cons stk t ts ht h ih =>
    have hle := h.le
    refine .cons ?_ (ih fun a ha => hsame a (by omega))
    rw [Memory.read, hsame stk (by omega)]
    exact ht.congr (fun a ha => hsame a (by have := hword a ha; omega)) fun b _ => by rw [hbyte]

/-- **Arguments are pushed** one after the other. -/
theorem stacked_stackCells {us : List (Term Sym Int)} (hword : ∀ a, A.word a → a < btk) (p : Int)
    (h : Stacked A m btk stk ts) (hargs : ∀ i : ℕ, i < us.length → A.word (p + i))
    (hus : ∀ i : ℕ, ∀ u, us[i]? = some u → Reads A m (m.read (p + i)) u) :
    Stacked A (stackCells us.length p stk m) btk (stk + us.length) (us.reverse ++ ts) ∧
      (∀ a, a < stk → (stackCells us.length p stk m).word a = m.word a) ∧
      (stackCells us.length p stk m).byte = m.byte := by
  induction us generalizing m stk ts p with
  | nil =>
    rw [List.length_nil, Int.natCast_zero, Int.add_zero]
    exact ⟨h, fun _ _ => rfl, rfl⟩
  | cons u us ih =>
    have hle := h.le
    have hbelow : ∀ a, a < stk → (m.write stk (m.read p)).word a = m.word a :=
      fun a ha => Function.update_of_ne (by omega) ..
    have hsource : ∀ a, A.word a → (m.write stk (m.read p)).word a = m.word a :=
      fun a ha => hbelow a (by have := hword a ha; omega)
    have hfirst : Reads A (m.write stk (m.read p)) ((m.write stk (m.read p)).read stk) u := by
      rw [Memory.read_write_self]
      have := hus 0 u rfl
      rw [Int.natCast_zero, Int.add_zero] at this
      exact this.congr hsource fun _ _ => rfl
    have hplace : ∀ i : ℕ, p + 1 + (i : Int) = p + ((i + 1 : ℕ) : Int) := fun i => by omega
    obtain ⟨hstacked, hsame, hbyte⟩ := ih (p + 1) (.cons hfirst (h.congr hword hbelow rfl))
      (fun i hi => by
        rw [hplace]
        exact hargs (i + 1) (by rw [List.length_cons]; omega))
      (fun i v hv => by
        have hi := (List.getElem?_eq_some_iff.1 hv).1
        have hread : (m.write stk (m.read p)).read (p + 1 + i) = m.read (p + 1 + i) :=
          congrArg Word.ofBits (hsource _ (by
            rw [hplace]
            exact hargs (i + 1) (by rw [List.length_cons]; omega)))
        rw [hread, hplace]
        exact (hus (i + 1) v hv).congr hsource fun _ _ => rfl)
    have hend : stk + ((u :: us).length : ℕ) = stk + 1 + us.length := by
      rw [List.length_cons]
      omega
    rw [hend, List.reverse_cons, List.append_assoc]
    exact ⟨hstacked, fun a ha => (hsame a (by omega)).trans (hbelow a ha), hbyte⟩

/-- A round goes on with the terms `us` in the place of the term at the top: the sum of what has
been and what will be counted is the same, and the terms are smaller. -/
structure Round (A : Area) (btk stk size : Int) (m : Memory) (root : Word) (t : Term Sym Int)
    (ts : List (Term Sym Int)) (stk' size' : Int) (m' : Memory) (us : List (Term Sym Int)) :
    Prop where
  stacked : Stacked A m' btk stk' us
  smaller : (us.map Term.size).sum < t.size + (ts.map Term.size).sum
  counted : size' + (us.map argWords).sum = size + (argWords t + (ts.map argWords).sum : ℕ)
  below : ∀ a, a < stk → m'.word a = m.word a
  byte : m'.byte = m.byte
  above : ∀ a, btk + (t.size + (ts.map Term.size).sum : ℕ) ≤ a → m'.word a = m.word a
  comes : ∀ {o}, Fuel.Comes (fun n => argSizeLoop btk n stk' size' m') o →
    Fuel.Comes (fun n => argSizeRound (argSizeLoop btk n) n stk size m root) o

/-- Nothing is pushed for a variable, a constant or a double. -/
theorem Round.leaf {size size' : Int} {root : Word} {t : Term Sym Int}
    (hrest : Stacked A m btk stk ts) (hcounted : size' = size + argWords t)
    (hround : ∀ n, argSizeRound (argSizeLoop btk n) n stk size m root =
      argSizeLoop btk n stk size' m) : Round A btk stk size m root t ts stk size' m ts where
  stacked := hrest
  smaller := by
    have := t.size_pos
    omega
  counted := by omega
  below _ _ := rfl
  byte := rfl
  above _ _ := rfl
  comes ho := ho.congr hround

/-- The arguments of a compound term are pushed. -/
theorem Round.args {size size' : Int} {root : Word} {f : Sym} {us : List (Term Sym Int)} {p : Int}
    (hword : ∀ a, A.word a → a < btk) (hrest : Stacked A m btk stk ts)
    (hargs : ∀ i : ℕ, i < us.length → A.word (p + i))
    (hus : ∀ i : ℕ, ∀ u, us[i]? = some u → Reads A m (m.read (p + i)) u)
    (hcounted : size' = size + f.argWords)
    (hcomes : ∀ {o}, Fuel.Comes (fun n => argSizeLoop btk n (stk + us.length) size'
        (stackCells us.length p stk m)) o →
      Fuel.Comes (fun n => argSizeRound (argSizeLoop btk n) n stk size m root) o) :
    Round A btk stk size m root (.app f us) ts (stk + us.length) size'
      (stackCells us.length p stk m) (us.reverse ++ ts) where
  stacked := (stacked_stackCells hword p hrest hargs hus).1
  smaller := by
    rw [List.map_append, List.sum_append, List.map_reverse, List.sum_reverse, Term.size_app]
    omega
  counted := by
    rw [List.map_append, List.sum_append, List.map_reverse, List.sum_reverse, argWords_app]
    omega
  below := (stacked_stackCells hword p hrest hargs hus).2.1
  byte := (stacked_stackCells hword p hrest hargs hus).2.2
  above a ha := by
    have hstk := hrest.eq_add
    have hlen := length_le_sizes ts
    have hlen' := length_le_sizes us
    rw [Term.size_app] at ha
    exact stackCells_above _ _ _ _ (by omega)
  comes := hcomes

/-- **One round**, for the term at the end of the references. -/
theorem exists_round {root : Word} {t : Term Sym Int} (hword : ∀ a, A.word a → a < btk) (size : Int)
    (hshows : Shows A m root t) (hrest : Stacked A m btk stk ts) :
    ∃ stk' size' m' us, Round A btk stk size m root t ts stk' size' m' us := by
  cases hshows with
  | unbound =>
    exact ⟨_, size + 1, _, _, .leaf hrest (by rw [argWords_var]; omega) fun _ => rfl⟩
  | @con c k hk =>
    refine ⟨_, if (Word.cst c).isInt then size + 1 else size + 2, _, _,
      .leaf hrest ?_ fun _ => rfl⟩
    simp only [argWords_app, List.map_nil, List.sum_nil]
    cases hk with
    | same _ =>
      rw [Sym.argWords]
      split_ifs <;> omega
    | name hsame _ _ _ =>
      rw [if_neg fun h => hsame (.inl h), Sym.argWords]
      omega
  | @list p t u hp hp' ht' hu =>
    have hplace : ∀ i : ℕ, i < [t, u].length → i = 0 ∨ i = 1 := fun i hi => by
      rw [List.length_cons, List.length_singleton] at hi
      omega
    have hwords : ∀ i : ℕ, i < [t, u].length → A.word (p + i) := fun i hi => by
      rcases hplace i hi with rfl | rfl
      · simpa using hp
      · exact hp'
    have hreads : ∀ i : ℕ, ∀ v, [t, u][i]? = some v → Reads A m (m.read (p + i)) v := by
      intro i v hv
      rcases hplace i (List.getElem?_eq_some_iff.1 hv).1 with rfl | rfl
      · obtain rfl := Option.some.inj hv
        simpa using ht'
      · obtain rfl := Option.some.inj hv
        exact hu
    exact ⟨_, size + 1, _, _, .args hword hrest hwords hreads rfl id⟩
  | double _ _ _ hmark =>
    refine ⟨_, size + 4, _, _, .leaf hrest ?_ fun n => by rw [argSizeRound, if_pos hmark]⟩
    simp only [argWords_app, Sym.argWords, List.map_nil, List.sum_nil]
    omega
  | @str p c k us hp hfun hk har hargs hts =>
    have hread : (m.read p).arity = us.length := by rw [hfun, har]
    refine ⟨_, size + 2, _, _, .args hword hrest hargs hts rfl fun ho => ?_⟩
    refine ((comes_derefstr hfun).bind (k := fun n v => argSizeLoop btk n
      (stk + (m.read v).arity) (size + 2) (stackCells (m.read v).arity (v + 1) stk m)) ?_).congr
      fun n => ?_
    · rw [hread]
      exact ho
    · rw [argSizeRound, if_neg (by rw [hfun]; exact hk.ne_mark)]

/-- **The loop counts the terms on the stack** and leaves alone what is below it, and what is above
all parts of the terms. -/
theorem comes_argSizeLoop (hword : ∀ a, A.word a → a < btk) (size : Int)
    (h : Stacked A m btk stk ts) :
    ∃ m', Fuel.Comes (fun n => argSizeLoop btk n stk size m)
        (some (size + (ts.map argWords).sum, m')) ∧
      (∀ a, a < btk → m'.word a = m.word a) ∧ m'.byte = m.byte ∧
      ∀ a, btk + (ts.map Term.size).sum ≤ a → m'.word a = m.word a := by
  induction hn : (ts.map Term.size).sum using Nat.strong_induction_on generalizing ts m stk
    size with
  | _ n ih =>
    cases h with
    | nil =>
      refine ⟨m, .of_succ rfl ((Fuel.comes_const _).congr fun n => ?_), fun _ _ => rfl, rfl,
        fun _ _ => rfl⟩
      rw [argSizeLoop, if_neg (Int.lt_irrefl btk)]
      simp
    | @cons stk t ts ht hrest =>
      have hle := hrest.le
      rw [List.map_cons, List.sum_cons] at hn
      obtain ⟨root, hroot, hshows⟩ := ht.deref
      obtain ⟨stk', size', m₁, us, hround⟩ := exists_round hword size hshows hrest
      have hsmaller := hround.smaller
      obtain ⟨m', hm', hsame, hbyte, habove⟩ := ih _ (hn ▸ hsmaller) size' hround.stacked rfl
      rw [hround.counted] at hm'
      refine ⟨m', ?_, fun a ha => (hsame a ha).trans (hround.below a (by omega)),
        hbyte.trans hround.byte,
        fun a ha => (habove a (by omega)).trans (hround.above a (by omega))⟩
      rw [List.map_cons, List.sum_cons]
      refine .of_succ rfl ((hroot.bind (hround.comes hm')).congr fun n => ?_)
      rw [argSizeLoop, if_pos (by omega), Int.add_sub_cancel]

/-- **`arg_size`** counts the term, and writes no more words above the stack of the parent than the
term has nodes. -/
theorem comes_argSize {w : Word} {t : Term Sym Int} {st : Int} (h : Reads A m w t)
    (hword : ∀ a, A.word a → a ≤ st) :
    ∃ m', Fuel.Comes (fun n => argSize n w st m) (some ((argWords t : ℕ), m')) ∧
      (∀ a ≤ st, m'.word a = m.word a) ∧ m'.byte = m.byte ∧
      ∀ a, st + 1 + t.size ≤ a → m'.word a = m.word a := by
  have hbelow : ∀ a ≤ st, (m.write (st + 1) w).word a = m.word a :=
    fun a ha => Function.update_of_ne (by omega) ..
  have htwo : st + 2 = st + 1 + 1 := by omega
  have hstacked : Stacked A (m.write (st + 1) w) (st + 1) (st + 2) [t] := by
    rw [htwo]
    refine .cons ?_ .nil
    rw [Memory.read_write_self]
    exact h.congr (fun a ha => hbelow a (hword a ha)) fun _ _ => rfl
  obtain ⟨m', hm', hsame, hbyte, habove⟩ := comes_argSizeLoop
    (fun a ha => Int.lt_add_one_of_le (hword a ha)) 0 hstacked
  have hpos := t.size_pos
  rw [List.map_singleton, List.sum_singleton] at habove
  refine ⟨m', ?_, fun a ha => (hsame a (by omega)).trans (hbelow a ha), hbyte,
    fun a ha => (habove a ha).trans (Function.update_of_ne (by omega) ..)⟩
  simpa [argSize] using hm'

end Mlvm.Creator
