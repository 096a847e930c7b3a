import Mlvm.Creator.CopySpace
import Mathlib.Data.List.Perm.Basic

/-!
# What a copy denotes

The rounds that are still to come settle the words that are pending and leave the settled ones
alone, up to the moves of the stack. So what the words of the queue denote in the end is put
together from what their parts denote:

* `Yields` — in the finished copy an item has become a term of the same shape.
* `Finished` — the words below `skbot` have only been moved.
* **`Finished.yields_plain`**, **`Finished.yields_name`** — the item that is scanned first becomes a
  term of the same shape, when its parts do.
-/

namespace Mlvm.Creator

open FirstOrder StringTable

/-! ## Moved pointers -/

theorem carry_ref {d lo hi p : Int} (hlo : lo ≤ p) (hhi : p < hi) :
    carry d lo hi (Word.ref p).bits = (Word.ref (p + d)).bits := by
  have hptr : IsStackPointer lo (hi - 1) (Word.ref p).bits := by
    simp only [IsStackPointer, isCstWord, Word.bits]
    omega
  rw [carry, if_pos hptr]
  simp only [Word.bits]
  omega

theorem carry_lis {d lo hi p : Int} (hlo : lo ≤ p) (hhi : p < hi) :
    carry d lo hi (Word.lis p).bits = (Word.lis (p + d)).bits := by
  have hptr : IsStackPointer lo (hi - 1) (Word.lis p).bits := by
    simp only [IsStackPointer, isCstWord, Word.bits]
    omega
  rw [carry, if_pos hptr]
  simp only [Word.bits]
  omega

theorem carry_str {d lo hi p : Int} (hlo : lo ≤ p) (hhi : p < hi) :
    carry d lo hi (Word.str p).bits = (Word.str (p + d)).bits := by
  have hptr : IsStackPointer lo (hi - 1) (Word.str p).bits := by
    simp only [IsStackPointer, isCstWord, Word.bits]
    omega
  rw [carry, if_pos hptr]
  simp only [Word.bits]
  omega

theorem carry_cst {d lo hi c : Int} : carry d lo hi (Word.cst c).bits = (Word.cst c).bits := by
  refine carry_of_not fun h => h.1 ?_
  simp only [isCstWord, Word.bits]
  omega

/-- Moving twice, when nothing points above the words that are moved. -/
theorem carry_carry {d d' lo hi top v : Int} (hd : 0 ≤ d) (hhi : hi + d ≤ top)
    (hv : ¬ IsStackPointer hi (top - 1) v) :
    carry d' (lo + d) (hi + d) (carry d lo hi v) = carry (d + d') lo hi v := by
  by_cases hptr : IsStackPointer lo (hi - 1) v
  · have hmoved : IsStackPointer (lo + d) (hi + d - 1) (v + 4 * d) := by
      obtain ⟨hcst, hlow, hhigh⟩ := hptr
      rw [isCstWord] at hcst
      refine ⟨by rw [isCstWord]; omega, by omega, by omega⟩
    rw [carry, carry, if_pos hptr, if_pos hmoved, carry, if_pos hptr]
    omega
  · have hmoved : ¬ IsStackPointer (lo + d) (hi + d - 1) v := by
      rintro ⟨hcst, hlow, hhigh⟩
      by_cases hlt : v / 4 < hi
      · exact hptr ⟨hcst, by omega, by omega⟩
      · exact hv ⟨hcst, by omega, by omega⟩
    rw [carry, carry, if_neg hptr, if_neg hmoved, carry, if_neg hptr]

/-- A higher end does not matter, when nothing points above the words that are moved. -/
theorem carry_top {d lo hi hi' top v : Int} (hle : hi ≤ hi') (htop : hi' ≤ top)
    (hv : ¬ IsStackPointer hi (top - 1) v) : carry d lo hi' v = carry d lo hi v := by
  rw [carry, carry]
  refine if_congr ⟨fun h => ?_, fun h => ?_⟩ rfl rfl
  · obtain ⟨hcst, hlow, hhigh⟩ := h
    refine ⟨hcst, hlow, ?_⟩
    by_contra hlt
    exact hv ⟨hcst, by omega, by omega⟩
  · exact ⟨h.1, h.2.1, by have := h.2.2; omega⟩

/-! ## What the items have become -/

/-- In the finished copy the item at `a` has become these terms: one, for a term. -/
inductive Yields (A : Area) (m : Memory) (a : Int) : Item → List (Term Sym Int) → Prop
  | term {t u : Term Sym Int} : A.word a → Reads A m (m.read a) u → t.shape = u.shape →
      Yields A m a (.term t) [u]
  | functor {c : Int} {k : Const} : A.word a → m.read a = .cst c → Spells A m.byte c k →
      Yields A m a (.functor k) []
  | double {w₁ w₂ : Int} : A.word a → A.word (a + 1) → A.word (a + 2) → m.read a = .fvlTag →
      m.word (a + 1) = w₁ → m.word (a + 2) = w₂ → Yields A m a (.double w₁ w₂) []

/-- The items from `a` on have become these terms. -/
inductive YieldsAll (A : Area) (m : Memory) : Int → List Item → List (Term Sym Int) → Prop
  | nil {a : Int} : YieldsAll A m a [] []
  | cons {a : Int} {i : Item} {q : List Item} {us vs : List (Term Sym Int)} : Yields A m a i us →
      YieldsAll A m (a + i.words) q vs → YieldsAll A m a (i :: q) (us ++ vs)

variable {A B : Area} {m : Memory}

theorem yieldsAll_append {a : Int} {q q' : List Item} {us : List (Term Sym Int)}
    (h : YieldsAll B m a (q ++ q') us) :
    ∃ vs vs', us = vs ++ vs' ∧ YieldsAll B m a q vs ∧ YieldsAll B m (a + queueWords q) q' vs' := by
  induction q generalizing a us with
  | nil => exact ⟨[], us, rfl, .nil, by simpa using h⟩
  | cons i q ih =>
    obtain ⟨⟩ | ⟨hi, hrest⟩ := h
    obtain ⟨vs, vs', rfl, hvs, hvs'⟩ := ih hrest
    have hplace : a + (queueWords (i :: q) : ℕ) = a + i.words + queueWords q := by
      rw [queueWords_cons]
      omega
    exact ⟨_, vs', (List.append_assoc ..).symm, .cons hi hvs, hplace ▸ hvs'⟩

/-- Terms one after the other. -/
theorem yieldsAll_terms {a : Int} {ts us : List (Term Sym Int)}
    (h : YieldsAll B m a (ts.map Item.term) us) :
    ts.map Term.shape = us.map Term.shape ∧ (∀ i : ℕ, i < us.length → B.word (a + i)) ∧
      ∀ i : ℕ, ∀ u, us[i]? = some u → Reads B m (m.read (a + i)) u := by
  induction ts generalizing a us with
  | nil =>
    cases h
    exact ⟨rfl, fun i hi => absurd hi (Nat.not_lt_zero i), fun i u hu => by cases hu⟩
  | cons t ts ih =>
    obtain ⟨⟩ | ⟨hi, hrest⟩ := h
    cases hi with
    | @term _ u ha hu hshape =>
      obtain ⟨hshapes, hwords, hreads⟩ := ih hrest
      have hplace : ∀ i : ℕ, a + ((i + 1 : ℕ) : Int) = a + 1 + i := fun i => by omega
      refine ⟨?_, fun i hi => ?_, fun i v hv => ?_⟩
      · rw [List.map_cons, hshape, hshapes]
        rfl
      · cases i with
        | zero => simpa using ha
        | succ i =>
          rw [hplace]
          exact hwords i (Nat.lt_of_succ_lt_succ hi)
      · cases i with
        | zero =>
          obtain rfl := Option.some.inj hv
          simpa using hu
        | succ i =>
          rw [hplace]
          exact hreads i v hv

/-! ## No pointer above the copy -/

/-- No settled cell points between the copy and the trail. -/
def Tight (move : Prop) (s : Copy) : Prop :=
  move → ∀ a, s.child.stack_base ≤ a → a < s.skbot →
    ¬ InDouble s.mem.word s.child.stack_base a →
    ¬ IsStackPointer s.sktop (s.child.tt - 1) (s.mem.word a)

/-- A settled word is a constant, or points to itself, or to parts behind the copy. -/
theorem settled_points {keep : Prop} {x y a : Int} {i : Item} (h : Holds A keep m a i) {w : Word}
    (hw : i.settled x y = some w) :
    (∃ c, w = .cst c) ∨ w = .ref x ∨ (w = .lis y ∨ w = .str y) ∧ 0 < i.pushed := by
  cases h with
  | @term t ht =>
    obtain ⟨root, -, hshows⟩ := ht.deref
    cases hshows with
    | unbound =>
      obtain rfl := Option.some.inj hw
      exact .inr (.inl rfl)
    | @con _ k _ =>
      cases k with
      | same c =>
        obtain rfl := Option.some.inj hw
        exact .inl ⟨c, rfl⟩
      | name => cases hw
    | list =>
      obtain rfl := Option.some.inj hw
      exact .inr (.inr ⟨.inl rfl, by simp [Item.pushed, Item.children]⟩)
    | double =>
      obtain rfl := Option.some.inj hw
      exact .inr (.inr ⟨.inr rfl, by simp [Item.pushed, Item.children]⟩)
    | str =>
      obtain rfl := Option.some.inj hw
      refine .inr (.inr ⟨.inr rfl, ?_⟩)
      rw [Item.pushed_eq, Item.children, queueWords_cons, Item.words_functor]
      omega
  | @functor _ k _ _ =>
    cases k with
    | same c =>
      obtain rfl := Option.some.inj hw
      exact .inl ⟨c, rfl⟩
    | name => cases hw
  | double => cases hw

/-- Without a name, an item that is not settled is a double. -/
theorem eq_double_of_settled {x y : Int} {i : Item} (hname : i.name = none)
    (hw : i.settled x y = none) : ∃ w₁ w₂, i = .double w₁ w₂ := by
  rcases i with (v | ⟨f, ts⟩) | c | ⟨w₁, w₂⟩
  · cases hw
  · cases f with
    | con c =>
      cases c with
      | same c => cases hw
      | name s n => cases hname
    | _ => cases hw
  · cases c with
    | same c => cases hw
    | name s n => cases hname
  · exact ⟨w₁, w₂, rfl⟩

section Step

variable {move : Prop} {s s₁ : Copy} {es es₁ : List CString} {i : Item} {q : List Item} {d : Int}

/-- Nothing below `skbot` is written. -/
theorem Plain.below {keep : Prop} (hs : Plain A keep s s₁ i) (hlt : s.skbot < s.sktop) {a : Int}
    (ha : a < s.skbot) : s₁.mem.word a = s.mem.word a :=
  hs.frame a (by omega) (.inl (by omega))

theorem Plain.inDouble {keep : Prop} (hs : Plain A keep s s₁ i) (hlt : s.skbot < s.sktop) {a : Int}
    (ha : s.child.stack_base ≤ a) (ha' : a < s.skbot) :
    InDouble s₁.mem.word s₁.child.stack_base a ↔ InDouble s.mem.word s.child.stack_base a := by
  rw [hs.child]
  exact inDouble_congr ha fun x _ hx => by rw [hs.below hlt (by omega)]

/-- A settled word is not in a double. -/
theorem Plain.settled_not_inDouble (h : Scanning A True move s es (i :: q)) (hm : move)
    (hs : Plain A True s s₁ i) {w : Word} (hw : i.settled s.skbot s.sktop = some w) :
    ¬ InDouble s₁.mem.word s₁.child.stack_base s.skbot := by
  have hlt := h.lt
  have hholds := (pending_cons.1 h.pending).1
  have hne : s₁.mem.word s.skbot ≠ -1 := by
    rw [Ne, ← read_eq_mark, hs.cell w hw]
    exact hholds.settled_ne hw
  have hmarked : Marked s₁.mem.word s.child.stack_base s.skbot :=
    (h.seen trivial hm).1.congr fun a _ ha => by rw [hs.below (by omega) ha]
  rw [hs.child]
  exact hmarked.not_inDouble hne

theorem Tight.plain (h : Scanning A True move s es (i :: q)) (ht : Tight move s)
    (hname : i.name = none) (hs : Plain A True s s₁ i) : Tight move s₁ := by
  intro hm a ha ha' hdouble hptr
  have hlt := h.lt
  have hsktop := hs.sktop
  have hskbot := hs.skbot
  rw [hs.child] at ha hptr
  by_cases hbelow : a < s.skbot
  · rw [hs.inDouble (by omega) ha hbelow] at hdouble
    rw [hs.below (by omega) hbelow] at hptr
    exact ht hm a ha hbelow hdouble ⟨hptr.1, by have := hptr.2.1; omega, hptr.2.2⟩
  · have hholds := (pending_cons.1 h.pending).1
    cases hw : i.settled s.skbot s.sktop with
    | none =>
      obtain ⟨w₁, w₂, rfl⟩ := eq_double_of_settled hname hw
      rw [Item.words_double] at hskbot
      have hmark : s₁.mem.word s.skbot = -1 := by
        rw [hs.kept hw]
        cases hholds with
        | double hmark _ => exact read_eq_mark.1 hmark
      have hbase := Int.le_trans h.base h.st
      refine hdouble ?_
      rw [hs.child]
      rcases (by omega : a = s.skbot ∨ a - 1 = s.skbot ∨ a - 2 = s.skbot) with heq | heq | heq
      · exact .inl (by rwa [heq])
      · exact .inr (.inl ⟨by omega, by rwa [heq]⟩)
      · exact .inr (.inr ⟨by omega, by rwa [heq]⟩)
    | some w =>
      have hone : i.words = 1 := by
        cases i with
        | double => cases hw
        | _ => rfl
      obtain rfl : a = s.skbot := by omega
      have hword : s₁.mem.word s.skbot = w.bits := by
        rw [← Word.bits_ofBits (s₁.mem.word s.skbot)]
        exact congrArg Word.bits (hs.cell w hw)
      rw [hword] at hptr
      obtain ⟨hcst, hlow, -⟩ := hptr
      rcases settled_points hholds hw with ⟨c, rfl⟩ | rfl | ⟨rfl | rfl, hpos⟩
      · refine hcst ?_
        simp only [isCstWord, Word.bits]
        omega
      · simp only [Word.bits] at hlow
        omega
      · simp only [Word.bits] at hlow
        omega
      · simp only [Word.bits] at hlow
        omega

/-- A word below the name, after the round. -/
theorem Named.below {pcon : CString} {arity : ℕ} (h : Scanning A True move s es (i :: q))
    (hs : Named s s₁ d pcon arity es₁) (hmove : d ≠ 0 → move) {a : Int}
    (ha : s.child.stack_base ≤ a) (ha' : a < s.skbot) :
    (d = 0 ∨ ¬ InDouble s.mem.word s.child.stack_base a →
      s₁.mem.word (a + d) = carry d s.child.stack_base s.sktop (s.mem.word a)) ∧
    (d = 0 ∨ InDouble s.mem.word s.child.stack_base a →
      s₁.mem.word (a + d) = s.mem.word a) := by
  have hlt := h.lt
  have hover : d ≠ 0 → (PassedOver s.child.stack_base s.mem.word (s.sktop - 1) a ↔
      InDouble s.mem.word s.child.stack_base a) := fun hzero =>
    (h.marked trivial (hmove hzero)).passedOver_iff
      (fun _ => (h.seen trivial (hmove hzero)).2.1) ha (by omega)
  by_cases hzero : d = 0
  · exact ⟨fun _ => hs.cell a ha (by omega) (by omega) (.inl hzero),
      fun _ => hs.data a ha (by omega) (by omega) (.inl hzero)⟩
  · rw [← hover hzero]
    exact ⟨fun hnot => hs.cell a ha (by omega) (by omega) hnot,
      fun hin => hs.data a ha (by omega) (by omega) hin⟩

theorem Named.inDouble {pcon : CString} {arity : ℕ} (h : Scanning A True move s es (i :: q))
    (hname : i.name = some pcon) (hs : Named s s₁ d pcon arity es₁)
    (hindex : ∀ k, IndexOf es₁ pcon k → (k : Int) + ASCII_SIZE < 2 ^ 20 - 1) {a : Int}
    (ha : s.child.stack_base ≤ a) (ha' : a < s.sktop) :
    InDouble s₁.mem.word s₁.child.stack_base (a + d) ↔
      InDouble s.mem.word s.child.stack_base a := by
  rw [hs.stack_base]
  exact inDouble_shift ha fun x hx hx' => h.named_marks hname hs hindex hx (by omega)

theorem Tight.named {pcon : CString} {arity : ℕ} (h : Scanning A True move s es (i :: q))
    (ht : Tight move s) (hname : i.name = some pcon) (hs : Named s s₁ d pcon arity es₁)
    (hd : 0 ≤ d) (hmove : d ≠ 0 → move)
    (hindex : ∀ k, IndexOf es₁ pcon k → (k : Int) + ASCII_SIZE < 2 ^ 20 - 1) : Tight move s₁ := by
  intro hm a ha ha' hdouble hptr
  have hlt := h.lt
  have hskbot := hs.skbot
  rw [hs.stack_base] at ha
  rw [hs.sktop, hs.tt] at hptr
  obtain ⟨b, rfl⟩ : ∃ b, a = b + d := ⟨a - d, by omega⟩
  rw [hs.inDouble h hname hindex (by omega) (by omega)] at hdouble
  by_cases hself : b = s.skbot
  · -- the name itself is a constant
    obtain ⟨k, -, hword⟩ := hs.self
    rw [← hself] at hword
    have hcst : isCstWord (s₁.mem.word (b + d)) := by
      rw [← Word.bits_ofBits (s₁.mem.word (b + d))]
      change isCstWord (s₁.mem.read (b + d)).bits
      rw [hword]
      simp only [isCstWord, Word.makeFun, Word.bits]
      omega
    exact hptr.1 hcst
  · have hword := (hs.below h hmove (by omega) (by omega : b < s.skbot)).1 (.inr hdouble)
    have hold := ht hm b (by omega) (by omega) hdouble
    rw [hword, carry] at hptr
    split_ifs at hptr with hcarried
    · have := hcarried.2.2
      have := hptr.2.1
      omega
    · exact hold ⟨hptr.1, by have := hptr.2.1; omega, hptr.2.2⟩

end Step

/-! ## What is left of the settled words -/

/-- From `s` on the loop has come to its end in `s'`: what has been settled has only been moved. -/
structure Finished (move : Prop) (s s' : Copy) (es es' : List CString) (d : Int) : Prop where
  shift : 0 ≤ d
  moved : d ≠ 0 → move
  names : es <+: es'
  table : Table s'.child s'.mem es'
  name_base : s'.child.name_base = s.child.name_base
  stack_base : s'.child.stack_base = s.child.stack_base + d
  st : s'.child.st = s.child.st + d
  tt : s'.child.tt = s.child.tt
  grown : s.sktop + d ≤ s'.sktop
  top : s'.sktop < s'.child.tt
  cell : ∀ a, s.child.stack_base ≤ a → a < s.skbot →
    d = 0 ∨ ¬ InDouble s.mem.word s.child.stack_base a →
    s'.mem.word (a + d) = carry d s.child.stack_base s.sktop (s.mem.word a)
  data : ∀ a, s.child.stack_base ≤ a → a < s.skbot →
    d = 0 ∨ InDouble s.mem.word s.child.stack_base a → s'.mem.word (a + d) = s.mem.word a
  outside : ∀ a, a < s.child.stack_base ∨ s.child.tt ≤ a → s'.mem.word a = s.mem.word a
  byte : ∀ b, b < s.child.name_base ∨ 4 * s.child.tt ≤ b → s'.mem.byte b = s.mem.byte b

section Finish

variable {move : Prop} {s s₁ s' : Copy} {es es₁ es' : List CString} {i : Item} {q : List Item}
  {d d₁ : Int}

theorem finished_refl (h : Scanning A True move s es []) (htop : s.sktop < s.child.tt) :
    Finished move s s es es 0 where
  shift := Int.le_refl 0
  moved h := absurd rfl h
  names := List.prefix_rfl
  table := h.table
  name_base := rfl
  stack_base := (Int.add_zero _).symm
  st := (Int.add_zero _).symm
  tt := rfl
  grown := by omega
  top := htop
  cell a _ _ _ := by rw [carry_zero, Int.add_zero]
  data a _ _ _ := by rw [Int.add_zero]
  outside _ _ := rfl
  byte _ _ := rfl

/-- **Before a round without a name.** -/
theorem Finished.of_plain (h : Scanning A True move s es (i :: q)) (ht : Tight move s)
    (hs : Plain A True s s₁ i) (hf : Finished move s₁ s' es es' d) :
    Finished move s s' es es' d := by
  have hlt := h.lt
  have hskbot := hs.skbot
  have hsktop := hs.sktop
  have hbase := Int.le_trans h.base h.st
  have hgrown := hf.grown
  have htop := hf.top
  have htt := hf.tt
  have hshift := hf.shift
  rw [hs.child] at htt
  refine ⟨hf.shift, hf.moved, hf.names, hf.table, ?_, ?_, ?_, htt, by omega, htop,
    fun a ha ha' hnot => ?_, fun a ha ha' hin => ?_, fun a ha => ?_, fun b hb => ?_⟩
  · rw [hf.name_base, hs.child]
  · rw [hf.stack_base, hs.child]
  · rw [hf.st, hs.child]
  · have hcell := hf.cell a (by rw [hs.child]; exact ha) (by omega)
    rw [hs.inDouble (by omega) ha ha', hs.below (by omega) ha', hs.child] at hcell
    rw [hcell hnot]
    by_cases hzero : d = 0
    · rw [hzero, carry_zero, carry_zero]
    · exact carry_top (by omega) (by omega)
        (ht (hf.moved hzero) a ha ha' (hnot.resolve_left hzero))
  · have hdata := hf.data a (by rw [hs.child]; exact ha) (by omega)
    rw [hs.inDouble (by omega) ha ha', hs.below (by omega) ha'] at hdata
    exact hdata hin
  · rw [hf.outside a (by rw [hs.child]; exact ha)]
    exact hs.frame a (by omega) (by omega)
  · rw [hf.byte b (by rw [hs.child]; exact hb), hs.byte]

/-- **Before a round on a name.** -/
theorem Finished.of_named {pcon : CString} {arity : ℕ} (h : Scanning A True move s es (i :: q))
    (ht : Tight move s) (hname : i.name = some pcon) (hs : Named s s₁ d₁ pcon arity es₁)
    (hd : 0 ≤ d₁) (hmove : d₁ ≠ 0 → move)
    (hindex : ∀ k, IndexOf es₁ pcon k → (k : Int) + ASCII_SIZE < 2 ^ 20 - 1)
    (hnames : es <+: es₁) (hf : Finished move s₁ s' es₁ es' d) :
    Finished move s s' es es' (d₁ + d) := by
  have hlt := h.lt
  have hskbot := hs.skbot
  have hsktop := hs.sktop
  have hgrown := hf.grown
  have htop := hf.top
  have htt := hf.tt
  have hshift := hf.shift
  have hbase := h.base
  have hst := h.st
  rw [hs.tt] at htt
  refine ⟨by omega, fun hzero => ?_, hnames.trans hf.names, hf.table, ?_, ?_, ?_, htt, by omega,
    htop, fun a ha ha' hnot => ?_, fun a ha ha' hin => ?_, fun a ha => ?_, fun b hb => ?_⟩
  · by_cases hzero' : d₁ = 0
    · exact hf.moved (by omega)
    · exact hmove hzero'
  · rw [hf.name_base, hs.name_base]
  · rw [hf.stack_base, hs.stack_base]
    omega
  · rw [hf.st, hs.st]
    omega
  · have hcell := hf.cell (a + d₁) (by rw [hs.stack_base]; omega) (by omega)
    rw [hs.inDouble h hname hindex ha (by omega), Int.add_assoc, hs.stack_base, hs.sktop] at hcell
    by_cases hzero : d₁ + d = 0
    · obtain ⟨rfl, rfl⟩ : d₁ = 0 ∧ d = 0 := by omega
      rw [hcell (.inl rfl), (hs.below h hmove ha ha').1 (.inl rfl)]
      simp only [carry_zero, Int.add_zero]
    · have hnot := hnot.resolve_left hzero
      rw [hcell (.inr hnot), (hs.below h hmove ha ha').1 (.inr hnot)]
      have hm : move := by
        by_cases hzero' : d₁ = 0
        · exact hf.moved (by omega)
        · exact hmove hzero'
      exact carry_carry hd (by omega) (ht hm a ha ha' hnot)
  · have hdata := hf.data (a + d₁) (by rw [hs.stack_base]; omega) (by omega)
    rw [hs.inDouble h hname hindex ha (by omega), Int.add_assoc] at hdata
    by_cases hzero : d₁ + d = 0
    · obtain ⟨rfl, rfl⟩ : d₁ = 0 ∧ d = 0 := by omega
      rw [hdata (.inl rfl), (hs.below h hmove ha ha').2 (.inl rfl)]
    · have hin := hin.resolve_left hzero
      rw [hdata (.inr hin), (hs.below h hmove ha ha').2 (.inr hin)]
  · rw [hf.outside a (by rw [hs.stack_base, hs.tt]; omega)]
    exact hs.outside a (by omega)
  · rw [hf.byte b (by rw [hs.name_base, hs.tt]; exact hb)]
    have hroom := hs.table.room
    have hstack := hs.stack_base
    exact hs.byte b (by omega)

end Finish

/-! ## Putting terms together -/

/-- The words of a finished copy, and the names of the child. -/
def Copy.area (s : Copy) : Area where
  word a := s.child.st < a ∧ a < s.sktop
  byte b := s.child.name_base ≤ b ∧ b < s.child.name_top
  name_base := s.child.name_base

section Yield

variable {move : Prop} {s s₁ s' : Copy} {es es₁ es' : List CString} {i : Item} {q : List Item}
  {d d₁ : Int}

theorem Finished.settled_word (h : Scanning A True move s es (i :: q)) (hs : Plain A True s s₁ i)
    (hf : Finished move s₁ s' es es' d) {w : Word} (hone : i.words = 1)
    (hw : i.settled s.skbot s.sktop = some w) :
    s'.mem.word (s.skbot + d) = carry d s.child.stack_base s₁.sktop w.bits := by
  have hskbot := hs.skbot
  have hbase := Int.le_trans h.base h.st
  have hword : s₁.mem.word s.skbot = w.bits := by
    rw [← Word.bits_ofBits (s₁.mem.word s.skbot)]
    exact congrArg Word.bits (hs.cell w hw)
  have hcell := hf.cell s.skbot (by rw [hs.child]; exact hbase) (by omega)
  rw [hword, hs.child] at hcell
  refine hcell ?_
  by_cases hzero : d = 0
  · exact .inl hzero
  · have hnot := hs.settled_not_inDouble h (hf.moved hzero) hw
    rw [hs.child] at hnot
    exact .inr hnot

/-- The word of the item lies in the copy. -/
theorem Finished.area_word (h : Scanning A True move s es (i :: q)) (hs : Plain A True s s₁ i)
    (hf : Finished move s₁ s' es es' d) : s'.area.word (s.skbot + d) := by
  have hst := h.st
  have hlt := h.lt
  have hst' := hf.st
  have hgrown := hf.grown
  have hsktop := hs.sktop
  rw [hs.child] at hst'
  exact ⟨by omega, by omega⟩

/-- The words of a double are left as they are. -/
theorem Finished.double_words {w₁ w₂ : Int}
    (h : Scanning A True move s es (.double w₁ w₂ :: q)) (hs : Plain A True s s₁ (.double w₁ w₂))
    (hf : Finished move s₁ s' es es' d) (hmark : s.mem.word s.skbot = -1) :
    (∀ j : ℕ, j < 3 → s'.mem.word (s.skbot + d + j) = s.mem.word (s.skbot + j)) ∧
      ∀ j : ℕ, j < 3 → s'.area.word (s.skbot + d + j) := by
  have hlt := h.lt
  have hskbot := hs.skbot
  have hbase := Int.le_trans h.base h.st
  have hst := h.st
  have hst' := hf.st
  have hgrown := hf.grown
  have hsktop := hs.sktop
  rw [hs.child] at hst'
  rw [Item.words_double] at hlt hskbot
  have hsame : ∀ j : ℕ, j < 3 → s₁.mem.word (s.skbot + j) = s.mem.word (s.skbot + j) := by
    intro j hj
    cases j with
    | zero =>
      rw [Int.natCast_zero, Int.add_zero]
      exact hs.kept rfl
    | succ j => exact hs.frame _ (by omega) (.inl (by omega))
  have hfirst : s₁.mem.word s.skbot = -1 := by
    rw [hs.kept rfl]
    exact hmark
  refine ⟨fun j hj => ?_, fun j hj => ⟨by omega, by omega⟩⟩
  have hin : InDouble s₁.mem.word s₁.child.stack_base (s.skbot + j) := by
    rw [hs.child]
    rcases (by omega : j = 0 ∨ j = 1 ∨ j = 2) with rfl | rfl | rfl
    · refine .inl ?_
      rwa [Int.natCast_zero, Int.add_zero]
    · refine .inr (.inl ⟨by omega, ?_⟩)
      rwa [Int.natCast_one, Int.add_sub_cancel]
    · refine .inr (.inr ⟨by omega, ?_⟩)
      have hplace : s.skbot + ((2 : ℕ) : Int) - 2 = s.skbot := by omega
      rwa [hplace]
  have hdata := hf.data (s.skbot + j) (by rw [hs.child]; omega) (by omega) (.inr hin)
  rw [hsame j hj] at hdata
  have hplace : s.skbot + d + (j : Int) = s.skbot + j + d := by omega
  rw [hplace]
  exact hdata

/-- What is read from a word with known bits. -/
theorem read_of_bits {m : Memory} {a : Int} {w : Word} (h : m.word a = w.bits) : m.read a = w := by
  rw [Memory.read, h, Word.ofBits_bits]

/-- **An item without a name** becomes a term when its parts do. -/
theorem Finished.yields_plain (h : Scanning A True move s es (i :: q)) (hname : i.name = none)
    (hs : Plain A True s s₁ i) (hf : Finished move s₁ s' es es' d) {vs : List (Term Sym Int)}
    (hparts : YieldsAll s'.area s'.mem (s.sktop + d) i.children vs) :
    ∃ us, Yields s'.area s'.mem (s.skbot + d) i us ∧
      (us.flatMap Term.vars = vs.flatMap Term.vars ∨
        vs = [] ∧ us.flatMap Term.vars = [s.skbot + d]) := by
  have hlt := h.lt
  have hbase := Int.le_trans h.base h.st
  have hsktop := hs.sktop
  have harea := hf.area_word h hs
  have hholds := (pending_cons.1 h.pending).1
  have hsettled := @Finished.settled_word A move s s₁ s' es es' i q d h hs hf
  cases hholds with
  | term ht =>
    obtain ⟨root, -, hshows⟩ := ht.deref
    cases hshows with
    | unbound =>
      have hword := hsettled rfl rfl
      rw [carry_ref hbase (by omega)] at hword
      cases hparts
      have hread := read_of_bits hword
      refine ⟨_, .term harea (by rw [hread]; exact .unbound harea hread) (by simp), .inr ⟨rfl, ?_⟩⟩
      simp
    | con hk =>
      cases hk with
      | same hsame =>
        have hword := hsettled rfl rfl
        rw [carry_cst] at hword
        cases hparts
        refine ⟨_, .term harea (by rw [read_of_bits hword]; exact .con (.same hsame)) (by simp),
          .inl ?_⟩
        simp
      | name => cases hname
    | @list p t u =>
      have hword := hsettled rfl rfl
      have hpushed : 0 < (Item.term (.app .list [t, u])).pushed := by
        simp [Item.pushed, Item.children]
      rw [carry_lis (by omega) (by omega)] at hword
      obtain ⟨hshapes, hwords, hreads⟩ := yieldsAll_terms hparts
      obtain ⟨v₁, v₂, rfl⟩ : ∃ v₁ v₂, vs = [v₁, v₂] :=
        List.length_eq_two.1 (by simpa using (congrArg List.length hshapes).symm)
      have hp := hwords 0 (by simp)
      have hp' := hwords 1 (by simp)
      have h₁ := hreads 0 v₁ rfl
      have h₂ := hreads 1 v₂ rfl
      rw [Int.natCast_zero, Int.add_zero] at hp h₁
      rw [Int.natCast_one] at hp' h₂
      refine ⟨_, .term harea (by rw [read_of_bits hword]; exact .list hp hp' h₁ h₂) ?_, .inl ?_⟩
      · rw [Term.shape_app, hshapes, Term.shape_app]
      · simp
    | double hp hp₁ hp₂ hmark =>
      have hword := hsettled rfl rfl
      have hpushed : s₁.sktop = s.sktop + 3 := by simpa [Item.pushed, Item.children] using hsktop
      rw [carry_str (by omega) (by omega)] at hword
      obtain ⟨⟩ | ⟨hdouble, ⟨⟩⟩ := hparts
      cases hdouble with
      | double ha₁ ha₂ ha₃ hmark' hw₁ hw₂ =>
        refine ⟨_, .term harea (by rw [read_of_bits hword]; exact .double ha₁ ha₂ ha₃ hmark') ?_,
          .inl ?_⟩
        · rw [hw₁, hw₂]
        · simp
    | @str p c k ts hp hfun hk har hargs hts =>
      have hword := hsettled rfl rfl
      have hpushed : 0 < (Item.term (.app (.str k) ts)).pushed := by
        rw [Item.pushed_eq, Item.children, queueWords_cons, Item.words_functor]
        omega
      rw [carry_str (by omega) (by omega)] at hword
      obtain ⟨⟩ | ⟨hfunctor, hargs'⟩ := hparts
      cases hfunctor with
      | functor hp' hfun' hk' =>
        obtain ⟨hshapes, hwords, hreads⟩ := yieldsAll_terms hargs'
        have hlen := congrArg List.length hshapes
        rw [List.length_map, List.length_map] at hlen
        rw [Item.words_functor, Int.natCast_one] at hwords hreads
        have hstr := Reads.str hp' hfun' hk'
          (by rw [hk'.arity, ← hk.arity, har, hlen]) hwords hreads
        refine ⟨_, .term harea (by rw [read_of_bits hword]; exact hstr) ?_, .inl ?_⟩
        · rw [Term.shape_app, hshapes, Term.shape_app]
        · simp [List.flatMap]
  | functor hc hk =>
    cases hk with
    | same hsame =>
      have hword := hsettled rfl rfl
      rw [carry_cst] at hword
      cases hparts
      exact ⟨[], .functor harea (read_of_bits hword) (.same hsame), .inl rfl⟩
    | name => cases hname
  | double hmark hdata =>
    cases hparts
    obtain ⟨hwords, hareas⟩ := hf.double_words h hs (read_eq_mark.1 hmark)
    have hword := hwords 0 (by decide)
    rw [Int.natCast_zero, Int.add_zero, Int.add_zero] at hword
    obtain ⟨hw₁, hw₂⟩ := hdata trivial
    exact ⟨[], .double harea (hareas 1 (by decide)) (hareas 2 (by decide))
      ((read_eq hword).trans hmark) ((hwords 1 (by decide)).trans hw₁)
      ((hwords 2 (by decide)).trans hw₂), .inl rfl⟩

/-- An index that a name of this arity can have: the word for it is neither `[]` nor the mark of a
double. -/
def FitsFunctor (n k : ℕ) : Prop := (n = 0 → 0 < k) ∧ (k : Int) + ASCII_SIZE < 2 ^ 20 - 1

/-- The functor that has been made for a name stands for it. -/
theorem spells_makeFun {B : Area} {byte : Int → UInt8} {k n : ℕ} {s : CString}
    (hk : FitsFunctor n k) (hn : n < 512) (hat : At byte (B.name_base + k) s.packed)
    (harea : ∀ j < s.packed.length, B.byte (B.name_base + k + (j : ℕ))) :
    ∃ c, Word.makeFun (k + ASCII_SIZE) n = .cst c ∧ Spells B byte c (.name s n) := by
  obtain ⟨hnil, hindex⟩ := hk
  have hsize : ASCII_SIZE = 128 := rfl
  rw [hsize] at hindex ⊢
  have hmark := makeFun_ne_mark (f := k + 128) (a := n) (by omega) (by omega)
  have harity := Word.arity_makeFun (f := k + 128) (a := n) (by omega) (by omega) (by omega)
    (by omega)
  obtain ⟨c, hc⟩ : ∃ c, Word.makeFun (k + 128) n = .cst c := ⟨_, rfl⟩
  have hvalue : (Word.makeFun (k + 128) n).funValue = k + 128 := by
    simp only [Word.funValue, Word.makeFun, Word.bits]
    split <;> omega
  have hint : ¬ (Word.makeFun (k + 128) n).isInt := by
    simp only [Word.isInt, Word.makeFun, beq_iff_eq]
    omega
  have hcon : Word.makeFun (k + 128) n ≠ conNil := by
    intro h
    have hword := Word.cst.inj h
    rw [hsize] at hword
    split_ifs at hword <;> omega
  rw [hc] at hmark harity hvalue hint hcon
  refine ⟨c, hc, ?_⟩
  have hname : Spells B byte c (.name s (Word.cst c).arity) := by
    refine .name ?_ hmark ?_ ?_
    · rintro (h | h | ⟨-, h⟩)
      · exact hint h
      · exact hcon h
      · rw [hvalue, hsize] at h
        omega
    · rw [hvalue, hsize, Int.add_sub_cancel]
      exact hat
    · rw [hvalue, hsize, Int.add_sub_cancel]
      exact harea
  rwa [harity, Int.toNat_natCast] at hname

/-- The arity of a name that is held is one of a word. -/
theorem Holds.arity_lt {keep : Prop} {a : Int} (h : Holds A keep m a i) {pcon : CString}
    (hname : i.name = some pcon) : i.arity < 512 := by
  have hword : ∀ c, (Word.cst c).arity < 512 := by
    intro c
    rw [Word.arity]
    omega
  cases h with
  | term ht =>
    obtain ⟨root, -, hshows⟩ := ht.deref
    cases hshows with
    | unbound => cases hname
    | con hk =>
      cases hk with
      | same => cases hname
      | name => exact hword _
    | _ => cases hname
  | functor _ hk =>
    cases hk with
    | same => cases hname
    | name => exact hword _
  | double => cases hname

/-- The name in the finished table. -/
theorem Finished.name_at (hf : Finished move s₁ s' es₁ es' d) {pcon : CString} {k : ℕ}
    (hk : IndexOf es₁ pcon k) :
    At s'.mem.byte (s'.area.name_base + k) pcon.packed ∧
      ∀ j < pcon.packed.length, s'.area.byte (s'.area.name_base + k + (j : ℕ)) := by
  obtain ⟨more, hmore⟩ := hf.names
  have hk' := hk.append more
  rw [hmore] at hk'
  obtain ⟨pre, post, hes, rfl⟩ := hk'
  have hnames := hf.table.names
  have htop := hf.table.name_top
  rw [hes, pack_append, pack_cons, List.length_append, List.length_append] at htop
  rw [hes, pack_append, pack_cons, at_append, at_append] at hnames
  refine ⟨hnames.2.1, fun j hj => ⟨?_, ?_⟩⟩
  · show s'.child.name_base ≤ s'.child.name_base + _ + _
    omega
  · show s'.child.name_base + _ + _ < s'.child.name_top
    omega

/-- **An item with a name** becomes the name. -/
theorem Finished.yields_name {pcon : CString} (h : Scanning A True move s es (i :: q))
    (hname : i.name = some pcon) (hs : Named s s₁ d₁ pcon i.arity es₁)
    (hindex : ∀ k, IndexOf es₁ pcon k → FitsFunctor i.arity k)
    (hf : Finished move s₁ s' es₁ es' d) :
    ∃ us, Yields s'.area s'.mem (s.skbot + (d₁ + d)) i us ∧ us.flatMap Term.vars = [] := by
  have hlt := h.lt
  have hbase := Int.le_trans h.base h.st
  have hst := h.st
  have hskbot := hs.skbot
  have hsktop := hs.sktop
  have hgrown := hf.grown
  have hst' := hf.st
  have hstack := hs.stack_base
  rw [hs.st] at hst'
  have hholds := (pending_cons.1 h.pending).1
  obtain ⟨k, hk, hself⟩ := hs.self
  obtain ⟨hat, hbytes⟩ := hf.name_at hk
  obtain ⟨c, hc, hspells⟩ := spells_makeFun (hindex k hk) (hholds.arity_lt hname) hat hbytes
  rw [hc] at hself
  -- the word is a constant, which the later moves leave as it is
  have hread : s'.mem.read (s.skbot + (d₁ + d)) = .cst c := by
    have hword : s₁.mem.word (s.skbot + d₁) = (Word.cst c).bits := by
      rw [← Word.bits_ofBits (s₁.mem.word (s.skbot + d₁))]
      exact congrArg Word.bits hself
    have hcell := hf.cell (s.skbot + d₁) (by omega) (by omega)
    rw [hword, carry_cst, Int.add_assoc] at hcell
    refine read_of_bits (hcell ?_)
    by_cases hzero : d = 0
    · exact .inl hzero
    · rw [hs.inDouble h hname (fun k hk => (hindex k hk).2) hbase (by omega)]
      exact .inr ((h.seen trivial (hf.moved hzero)).1.not_inDouble (h.name_word hname).2)
  have harea : s'.area.word (s.skbot + (d₁ + d)) := ⟨by omega, by omega⟩
  cases hholds with
  | term ht =>
    obtain ⟨root, -, hshows⟩ := ht.deref
    cases hshows with
    | con hk' =>
      cases hk' with
      | same => cases hname
      | name =>
        obtain rfl := Option.some.inj hname
        refine ⟨_, .term harea (by rw [hread]; exact .con hspells) rfl, ?_⟩
        simp
    | _ => cases hname
  | functor _ hk' =>
    cases hk' with
    | same => cases hname
    | name =>
      obtain rfl := Option.some.inj hname
      exact ⟨[], .functor harea hread hspells, rfl⟩
  | double => cases hname

end Yield

end Mlvm.Creator
