import Mlvm.Engine.CompareRun
import Mlvm.Engine.Step
import Mlvm.FirstOrder.Order
import Mathlib.Data.Nat.Find

/-!
# The standard order of terms

The comparison instructions are meant to compute a total order of terms: variables, doubles,
integers, atoms, lists, structures. `TotalPreorder` states what that means for the terms of a store,
and `compares_iff` **which stores the loop does it for**.

Four things go wrong. A structure whose functor is one character long never equals anything, itself
included. A list and a constant are each below the other, and a structure that meets a constant
takes it for an address. The arity of a structure is not compared. And when two arguments decide,
the arguments behind them stay on the stack, so only the last arguments may differ.

Where none of this happens the answer is the order of the prefix notations of the two terms
(`Term.order`), with names of one character before all others.
-/

namespace Mlvm

open FirstOrder Engine

/-! ## Reading the symbols -/

/-- What a symbol is on paper. -/
inductive Spelled (D : Type*) where
  | double (x : D)
  | int (n : Int)
  | atom (s : List Int)
  | list
  | fn (s : List Int) (k : Nat)

/-- The names of the name table by their offsets, as character codes, and the values of doubles. -/
structure Reading (D : Type*) where
  names : Int → List Int
  float_value : Word × Word → D

variable {D : Type*}

/-- The name with that value: one character, or an entry of the name table. -/
def Reading.name (R : Reading D) (v : Int) : List Int :=
  if v < ASCII_SIZE then [v] else R.names (v - ASCII_SIZE)

def Reading.spell (R : Reading D) : Sym → Spelled D
  | .con w => if w.isInt then .int w.intValue else .atom (R.name w.intValue)
  | .list => .list
  | .str f => .fn (R.name f.funValue) f.arity
  | .float w₁ w₂ => .double (R.float_value (w₁, w₂))

/-- The terms are structurally identical: the same shape, names, arities, numbers and variables. -/
def Identical (R : Reading D) (t u : Term Sym Int) : Prop := t.mapSym R.spell = u.mapSym R.spell

/-- The data words of the doubles of the store. -/
def IsDouble (mem : Int → Word) (cells : Finset Int) (x : Word × Word) : Prop :=
  ∃ a ∈ cells, ∃ p, mem a = .str p ∧ mem p = .fvlTag ∧ x = (mem (p + 1), mem (p + 2))

/-- `strcmp` compares the names by character codes, and the doubles of the store are numbers. -/
structure Reading.Reads [LinearOrder D] (R : Reading D) (P : Program) (mem : Int → Word)
    (cells : Finset Int) : Prop where
  above : ∀ x y, 0 < P.strcmp x y ↔ R.names y < R.names x
  below : ∀ x y, P.strcmp x y < 0 ↔ R.names x < R.names y
  doubles : ∀ x y, IsDouble mem cells x → IsDouble mem cells y →
    (P.doubles.lt x y = true ↔ R.float_value x < R.float_value y)

/-! ## What the comparison is to do -/

/-- The state in which a comparison instruction on the cells `n₁` and `n₂` enters the loop. -/
def Engine.startCompare (e : Engine) (n₁ n₂ : Int) : Engine :=
  { e with ax := e.mem (e.cell n₁), bx := e.mem (e.cell n₂), cx := e.st, lbl := .compare }

/-- A comparison instruction on the cells `a` and `b`, with the terms up to `top` on the stack,
comes to `o`, and `st` is back. -/
def Answers (P : Program) (mem : Int → Word) (top : Int) (a b : Int) (o : Ordering) : Prop :=
  ∀ (e : Engine) (n₁ n₂ : Int), e.mem = mem → e.st = top → e.cell n₁ = a → e.cell n₂ = b →
    ∃ f, (e.startCompare n₁ n₂).Comparing P f ∧ f.lbl = .compared ∧ f.dx = answer o ∧ f.st = e.st

/-- **The answers for the terms of the store are those of a total preorder**, in which exactly the
identical terms are equal. -/
structure TotalPreorder (P : Program) (R : Reading D) (mem : Int → Word) (cells : Finset Int)
    (top : Int) : Prop where
  answers : ∀ a ∈ cells, ∀ b ∈ cells, ∃ o, Answers P mem top a b o
  swap : ∀ a ∈ cells, ∀ b ∈ cells, ∀ o, Answers P mem top a b o → Answers P mem top b a o.swap
  trans : ∀ a ∈ cells, ∀ b ∈ cells, ∀ c ∈ cells, ∀ o o' o'', Answers P mem top a b o →
    Answers P mem top b c o' → Answers P mem top a c o'' → o ≠ .gt → o' ≠ .gt → o'' ≠ .gt
  identical : ∀ a ∈ cells, ∀ b ∈ cells, ∀ t u, Den (graph mem cells) (.ref a) t →
    Den (graph mem cells) (.ref b) u → (Answers P mem top a b .eq ↔ Identical R t u)

/-- The cells denote identical terms. -/
def SameTerm (R : Reading D) (mem : Int → Word) (cells : Finset Int) (a b : Int) : Prop :=
  ∃ t u, Den (graph mem cells) (.ref a) t ∧ Den (graph mem cells) (.ref b) u ∧ Identical R t u

/-- The word is a list or a structure. -/
def IsCompound (mem : Int → Word) (v : Word) : Prop :=
  v.isList ∨ ∃ p, v = .str p ∧ mem p ≠ .fvlTag

/-- No functor of one character, and no constant beside a compound term. -/
structure Proper (mem : Int → Word) (cells : Finset Int) : Prop where
  functors : ∀ a ∈ cells, ∀ p, mem a = .str p → mem p ≠ .fvlTag → ASCII_SIZE < (mem p).funValue
  apart : ∀ a ∈ cells, ∀ b ∈ cells, IsCompound mem (mem a) → (mem b).isCst = false

/-- Besides, lists have identical heads; structures with one name have one arity, and all their
arguments but the last are identical; and an atom is not written in two ways of which one is a
single character (or the first entry of the name table). -/
structure ComparesWell (R : Reading D) (mem : Int → Word) (cells : Finset Int) : Prop
    extends Proper mem cells where
  lists : ∀ a ∈ cells, ∀ b ∈ cells, ∀ p q, mem a = .lis p → mem b = .lis q →
    SameTerm R mem cells p q
  structs : ∀ a ∈ cells, ∀ b ∈ cells, ∀ p q, mem a = .str p → mem b = .str q → mem p ≠ .fvlTag →
    mem q ≠ .fvlTag → R.name (mem p).funValue = R.name (mem q).funValue →
      (mem p).arity = (mem q).arity ∧ ∀ j, j + 1 < (mem p).arity →
        SameTerm R mem cells (p + 1 + (j : Nat)) (q + 1 + (j : Nat))
  atoms : ∀ a ∈ cells, ∀ b ∈ cells, (mem a).isCon → (mem b).isCon →
    (mem a).intValue ≤ ASCII_SIZE → R.name (mem a).intValue = R.name (mem b).intValue →
      (mem a).intValue = (mem b).intValue

/-! ## The order of the symbols -/

/-- Doubles, integers, names of one character, other names, the list symbol, functors. -/
abbrev Key (D : Type*) := D ⊕ₗ (ℤ ⊕ₗ (ℤ ⊕ₗ (List ℤ ⊕ₗ (Unit ⊕ₗ (List ℤ ×ₗ ℕ)))))

def Reading.key (R : Reading D) : Sym → Key D
  | .float w₁ w₂ => toLex (.inl (R.float_value (w₁, w₂)))
  | .con w =>
    if w.isInt then toLex (.inr (toLex (.inl w.intValue)))
    else if w.intValue ≤ ASCII_SIZE then toLex (.inr (toLex (.inr (toLex (.inl w.intValue)))))
    else toLex (.inr (toLex (.inr (toLex (.inr (toLex (.inl (R.name w.intValue))))))))
  | .list => toLex (.inr (toLex (.inr (toLex (.inr (toLex (.inr (toLex (.inl ())))))))))
  | .str f => toLex (.inr (toLex (.inr (toLex (.inr (toLex (.inr (toLex (.inr
      (toLex (R.name f.funValue, f.arity)))))))))))

/-! ## Answers -/

variable {P : Program} {R : Reading D} {mem : Int → Word} {cells : Finset Int} {top : Int}
  {a b : Int} {o o' : Ordering} {d : Nat}

theorem startCompare_scratch {e : Engine} {n₁ n₂ : Int} (hmem : e.mem = mem) (hst : e.st = top)
    (h₁ : e.cell n₁ = a) (h₂ : e.cell n₂ = b) :
    Scratch mem top (e.startCompare n₁ n₂) ∧ (e.startCompare n₁ n₂).ax = mem a ∧
      (e.startCompare n₁ n₂).bx = mem b := by
  subst hmem hst h₁ h₂
  exact ⟨⟨rfl, fun _ _ => rfl, rfl, Int.le_refl _⟩, rfl, rfl⟩

/-- With nothing pending the comparison is over. -/
theorem After.answer {e f : Engine} (h : After e o d f) (hempty : e.st = e.cx) :
    f.lbl = .compared ∧ f.dx = Mlvm.answer o := by
  cases h with
  | @equal g hlbl hcx hst hmem =>
    rw [comparePop, if_pos (hst.trans (hempty.trans hcx.symm))]
    exact ⟨rfl, rfl⟩
  | differ _ hlbl hdx _ => exact ⟨hlbl, hdx⟩

theorem After.st {e f : Engine} (h : After e o d f) (hempty : e.st = e.cx) :
    f.st = e.st + 2 * (d : Nat) := by
  cases h with
  | @equal g hlbl hcx hst hmem =>
    rw [comparePop, if_pos (hst.trans (hempty.trans hcx.symm))]
    exact hst.trans (by simp)
  | differ _ _ _ hst => exact hst

/-- What a comparison instruction comes to. -/
theorem Compares.answer (h : Compares P mem top (mem a) (mem b) o d) {e : Engine} {n₁ n₂ : Int}
    (hmem : e.mem = mem) (hst : e.st = top) (h₁ : e.cell n₁ = a) (h₂ : e.cell n₂ = b) :
    ∃ f, (e.startCompare n₁ n₂).Comparing P f ∧ f.lbl = .compared ∧ f.dx = Mlvm.answer o ∧
      f.st = e.st + 2 * (d : Nat) := by
  obtain ⟨hscratch, hax, hbx⟩ := startCompare_scratch hmem hst h₁ h₂
  obtain ⟨f, hf, hafter⟩ := h _ hscratch hax hbx
  obtain ⟨hlbl, hdx⟩ := hafter.answer rfl
  exact ⟨f, hf, hlbl, hdx, hafter.st rfl⟩

theorem answers_of_compares (h : Compares P mem top (mem a) (mem b) o 0) :
    Answers P mem top a b o := by
  intro e n₁ n₂ hmem hst h₁ h₂
  obtain ⟨f, hf, hlbl, hdx, hst'⟩ := h.answer hmem hst h₁ h₂
  exact ⟨f, hf, hlbl, hdx, by omega⟩

/-- A state with the terms on the stack. -/
def termState (mem : Int → Word) (top : Int) : Engine :=
  { (default : Engine) with mem := mem, st := top, af := 0 }

theorem Answers.unique (h : Answers P mem top a b o)
    (h' : Compares P mem top (mem a) (mem b) o' d) : o = o' ∧ d = 0 := by
  have hcell : ∀ c, (termState mem top).cell (-c) = c := fun c => by
    simp [cell, termState]
  obtain ⟨f, hf, hlbl, hdx, hst⟩ := h (termState mem top) (-a) (-b) rfl rfl (hcell a) (hcell b)
  obtain ⟨g, hg, hlbl', hdx', hst'⟩ := h'.answer (e := termState mem top) rfl rfl (hcell a)
    (hcell b)
  obtain rfl := hf.unique hg hlbl hlbl'
  exact ⟨answer_inj.mp (hdx.symm.trans hdx'), by omega⟩

theorem Compares.unique {v w : Word} {d' : Nat} (h : Compares P mem top v w o d)
    (h' : Compares P mem top v w o' d') : o = o' := by
  have hscratch : Scratch mem top
      { (termState mem top) with ax := v, bx := w, cx := top, lbl := .compare } :=
    ⟨rfl, fun _ _ => rfl, rfl, Int.le_refl _⟩
  obtain ⟨f, hf, hafter⟩ := h _ hscratch rfl rfl
  obtain ⟨g, hg, hafter'⟩ := h' _ hscratch rfl rfl
  obtain ⟨hlbl, hdx⟩ := hafter.answer rfl
  obtain ⟨hlbl', hdx'⟩ := hafter'.answer rfl
  obtain rfl := hf.unique hg hlbl hlbl'
  exact answer_inj.mp (hdx.symm.trans hdx')

/-- A structure that meets a constant has no answer. -/
theorem not_answers_of_constant {p n : Int} (ha : mem a = .str p) (hp : mem p ≠ .fvlTag)
    (hb : mem b = .cst n) : ¬ Answers P mem top a b o := by
  intro h
  have hcell : ∀ c, (termState mem top).cell (-c) = c := fun c => by
    simp [cell, termState]
  obtain ⟨f, hf, hlbl, -⟩ := h (termState mem top) (-a) (-b) rfl rfl (hcell a) (hcell b)
  have hmem : (termState mem top).mem = mem := rfl
  obtain ⟨hscratch, hax, hbx⟩ := startCompare_scratch hmem rfl (hcell a) (hcell b)
  have hstuck : ∀ g, ((termState mem top).startCompare (-a) (-b)).Comparing P g →
      g = (termState mem top).startCompare (-a) (-b) := by
    intro g hg
    induction hg with
    | start => rfl
    | step _ _ hconst ih =>
      rw [ih] at hconst
      exact (hconst ⟨p, n, hax.trans ha, hp, hbx.trans hb⟩).elim
  rw [hstuck f hf, hscratch.lbl] at hlbl
  cases hlbl

/-! ## References to terms -/

/-- Following the references of `v` ends at the cell `c`. -/
inductive Leads (mem : Int → Word) (top : Int) : Word → Int → Prop
  | here {c : Int} (h : Final mem top (mem c)) : Leads mem top (mem c) c
  | ref {a c : Int} (ha : a ≤ top) (hne : mem a ≠ .ref a) (h : Leads mem top (mem a) c) :
      Leads mem top (.ref a) c

theorem Leads.final {v : Word} {c : Int} (h : Leads mem top v c) : Final mem top (mem c) := by
  induction h with
  | here h => exact h
  | ref _ _ _ ih => exact ih

/-- **The loop follows references first.** -/
theorem compares_of_leads {v w : Word} {c c' : Int} (hv : Leads mem top v c)
    (hw : Leads mem top w c') (h : Compares P mem top (mem c) (mem c') o d) :
    Compares P mem top v w o d := by
  have hfinal := hv.final
  have hright : Compares P mem top (mem c) w o d := by
    clear hv
    induction hw with
    | here => exact h
    | ref ha hne _ ih => exact compares_ref_right hfinal ha hne (ih h)
  clear hw h hfinal
  induction hv with
  | here => exact hright
  | ref ha hne _ ih => exact compares_ref_left ha hne (ih hright)

/-- What a cell that leads on no further denotes. -/
inductive Root (mem : Int → Word) (cells : Finset Int) (c : Int) : Term Sym Int → Prop
  | unbound (h : mem c = .ref c) : Root mem cells c (.var c)
  | app {f : Sym} {as : List Int} {ts : List (Term Sym Int)} (h : view mem (mem c) = .app f as)
      (hlen : as.length = ts.length)
      (hargs : ∀ p ∈ as.zip ts, Den (graph mem cells) (.ref p.1) p.2) :
      Root mem cells c (.app f ts)

theorem root_of_den (ha : a ∈ cells) (hnv : ∀ c, mem a ≠ .ref c) {t : Term Sym Int}
    (h : Den (graph mem cells) (.ref a) t) : Root mem cells a t := by
  have hden := h.deref
  rw [graph_of_mem ha] at hden
  cases hview : view mem (mem a) with
  | ref b => exact (hnv b (view_eq_ref.mp hview)).elim
  | app f as =>
    rw [hview] at hden
    cases hden with
    | app hlen hargs => exact .app hview hlen hargs

/-- Every cell leads to the root of its term. -/
theorem exists_leads (hstore : WellFormed mem cells top) {t : Term Sym Int} (ha : a ∈ cells)
    (h : Den (graph mem cells) (.ref a) t) : ∃ c ∈ cells, Leads mem top (.ref a) c ∧
      Leads mem top (mem a) c ∧ Root mem cells c t := by
  generalize hn : (Node.ref a : Node Sym Int) = n at h
  induction h generalizing a with
  | @unbound c hc =>
    cases hn
    have hself : mem c = .ref c := (graph_eq_ref ha).mp hc
    have hfinal : Final mem top (mem c) := fun b hb => by
      obtain rfl : c = b := Word.ref.inj (hself.symm.trans hb)
      exact ⟨hstore.below c ha, hself⟩
    have hhere : Leads mem top (mem c) c := .here hfinal
    exact ⟨c, ha, by rw [← hself]; exact hhere, hhere, .unbound hself⟩
  | @ref c t hne hden ih =>
    cases hn
    have hne' : mem c ≠ .ref c := fun hself => hne ((graph_eq_ref ha).mpr hself)
    have hle := hstore.below c ha
    by_cases href : ∃ b, mem c = .ref b
    · obtain ⟨b, hb⟩ := href
      have hbcell : b ∈ cells := by
        have := hstore.placed c ha
        rwa [hb] at this
      obtain ⟨c', hc', hleads, -, hroot⟩ := ih hbcell ((graph_eq_ref ha).mpr hb).symm
      have hmem : Leads mem top (mem c) c' := hb ▸ hleads
      exact ⟨c', hc', .ref hle hne' hmem, hmem, hroot⟩
    · have hfinal : Final mem top (mem c) := fun b hb => (href ⟨b, hb⟩).elim
      have hhere : Leads mem top (mem c) c := .here hfinal
      exact ⟨c, ha, .ref hle hne' hhere, hhere,
        root_of_den ha (fun b hb => href ⟨b, hb⟩) (.ref hne hden)⟩
  | app => cases hn

/-! ## One look at two terms -/

/-- Decided unless equal. -/
def Engine.Verdict.ofOrdering (o : Ordering) (equal : Verdict) : Verdict :=
  match o with
  | .eq => equal
  | .lt => .decided (answer .lt)
  | .gt => .decided (answer .gt)

theorem Engine.Verdict.ofOrdering_of_ne {o : Ordering} (hne : o ≠ .eq) (equal : Verdict) :
    ofOrdering o equal = .decided (answer o) := by
  cases o with
  | eq => exact (hne rfl).elim
  | _ => rfl

theorem Engine.Verdict.ofOrder_eq {A : Type*} [LinearOrder A] {x y : A} {l g : Bool}
    (hl : l = true ↔ x < y) (hg : g = true ↔ y < x) :
    ofOrder l g = ofOrdering (Term.compared x y) .next := by
  have h := Term.compares_compared x y
  cases hcmp : Term.compared x y <;> rw [hcmp] at h
  · rw [ofOrder, if_pos (hl.mpr h)]
    rfl
  · have hxy : x = y := h
    have hl' : ¬ l = true := fun hlt => (hl.mp hlt).ne hxy
    have hg' : ¬ g = true := fun hgt => (hg.mp hgt).ne hxy.symm
    rw [ofOrder, if_neg hl', if_neg hg']
    rfl
  · have hl' : ¬ l = true := fun hlt => lt_asymm (hl.mp hlt) h
    rw [ofOrder, if_neg hl', if_pos (hg.mpr h)]
    rfl

theorem key_int {n : Int} (h : n % 2 = 0) :
    R.key (.con (.cst n)) = toLex (.inr (toLex (.inl (Word.cst n).intValue))) := by
  simp [Reading.key, Word.isInt, h]

theorem key_short {n : Int} (h : n % 2 = 1) (hv : (Word.cst n).intValue ≤ ASCII_SIZE) :
    R.key (.con (.cst n)) =
      toLex (.inr (toLex (.inr (toLex (.inl (Word.cst n).intValue))))) := by
  simp [Reading.key, Word.isInt, h, hv]

theorem key_long {n : Int} (h : n % 2 = 1) (hv : ASCII_SIZE < (Word.cst n).intValue) :
    R.key (.con (.cst n)) =
      toLex (.inr (toLex (.inr (toLex (.inr (toLex (.inl (R.name (Word.cst n).intValue)))))))) := by
  simp [Reading.key, Word.isInt, h, not_le.mpr hv]

theorem spell_int {n : Int} (h : n % 2 = 0) :
    R.spell (.con (.cst n)) = .int (Word.cst n).intValue := by
  simp [Reading.spell, Word.isInt, h]

theorem spell_atom {n : Int} (h : n % 2 = 1) :
    R.spell (.con (.cst n)) = .atom (R.name (Word.cst n).intValue) := by
  simp [Reading.spell, Word.isInt, h]

@[simp] theorem key_list : R.key .list =
    toLex (.inr (toLex (.inr (toLex (.inr (toLex (.inr (toLex (.inl ())))))))))  := rfl

@[simp] theorem key_float (w₁ w₂ : Word) :
    R.key (.float w₁ w₂) = toLex (.inl (R.float_value (w₁, w₂))) := rfl

@[simp] theorem key_str (f : Word) : R.key (.str f) =
    toLex (.inr (toLex (.inr (toLex (.inr (toLex (.inr (toLex (.inr
      (toLex (R.name f.funValue, f.arity)))))))))))  := rfl

@[simp] theorem spell_list : R.spell .list = .list := rfl

@[simp] theorem spell_float (w₁ w₂ : Word) :
    R.spell (.float w₁ w₂) = .double (R.float_value (w₁, w₂)) := rfl

@[simp] theorem spell_str (f : Word) : R.spell (.str f) = .fn (R.name f.funValue) f.arity := rfl

theorem exists_key_atom (R : Reading D) {n : Int} (h : n % 2 = 1) :
    ∃ k, R.key (.con (.cst n)) = toLex (.inr (toLex (.inr k))) := by
  rcases lt_or_ge ASCII_SIZE (Word.cst n).intValue with hv | hv
  · exact ⟨_, key_long h hv⟩
  · exact ⟨_, key_short h hv⟩

section Look

variable [LinearOrder D]

/-- Two names of which one is a single character. -/
theorem ofNames_short {x y : Int} (hshort : x ≤ ASCII_SIZE ∨ y ≤ ASCII_SIZE) (hne : x ≠ y)
    (equal : Verdict) : Verdict.ofNames P x y equal = .decided (answer (Term.compared x y)) := by
  rw [Verdict.ofNames, if_pos hshort]
  rcases lt_trichotomy x y with hlt | heq | hgt
  · rw [Term.compared_eq (o := .lt) hlt, if_neg (by omega)]
    rfl
  · exact (hne heq).elim
  · rw [Term.compared_eq (o := .gt) hgt, if_pos hgt]
    rfl

/-- Two names of the name table. -/
theorem ofNames_long (hR : R.Reads P mem cells) {x y : Int} (hx : ASCII_SIZE < x)
    (hy : ASCII_SIZE < y) (equal : Verdict) : Verdict.ofNames P x y equal =
      .ofOrdering (Term.compared (R.name x) (R.name y)) equal := by
  have habove := hR.above (x - ASCII_SIZE) (y - ASCII_SIZE)
  have hbelow := hR.below (x - ASCII_SIZE) (y - ASCII_SIZE)
  have hname : ∀ v, ASCII_SIZE < v → R.name v = R.names (v - ASCII_SIZE) := fun v hv => by
    rw [Reading.name, if_neg (by omega)]
  rw [Verdict.ofNames, if_neg (by omega), hname x hx, hname y hy]
  have h := Term.compares_compared (R.names (x - ASCII_SIZE)) (R.names (y - ASCII_SIZE))
  cases hcmp : Term.compared (R.names (x - ASCII_SIZE)) (R.names (y - ASCII_SIZE)) <;>
    rw [hcmp] at h
  · have hlt := hbelow.mpr h
    rw [if_neg (by omega), if_pos hlt]
    rfl
  · have hsame : R.names (x - ASCII_SIZE) = R.names (y - ASCII_SIZE) := h
    rw [hsame] at habove hbelow
    rw [if_neg fun hgt => lt_irrefl _ (habove.mp hgt),
      if_neg fun hlt => lt_irrefl _ (hbelow.mp hlt)]
    rfl
  · rw [if_pos (habove.mpr h)]
    rfl

/-- The words of compound terms and constants, with their symbols. -/
inductive WordKind (mem : Int → Word) : Word → Sym → List Int → Prop
  | int (n : Int) (h : n % 2 = 0) : WordKind mem (.cst n) (.con (.cst n)) []
  | atom (n : Int) (h : n % 2 = 1) : WordKind mem (.cst n) (.con (.cst n)) []
  | lis (p : Int) : WordKind mem (.lis p) .list [p, p + 1]
  | float (p : Int) (h : mem p = .fvlTag) :
      WordKind mem (.str p) (.float (mem (p + 1)) (mem (p + 2))) []
  | str (p : Int) (h : mem p ≠ .fvlTag) :
      WordKind mem (.str p) (.str (mem p)) (argCells p (mem p).arity)

theorem wordKind_of_view {w : Word} {f : Sym} {as : List Int} (h : view mem w = .app f as) :
    WordKind mem w f as := by
  cases w with
  | ref a => cases h
  | lis p =>
    cases h
    exact .lis p
  | cst n =>
    cases h
    rcases Int.emod_two_eq_zero_or_one n with hn | hn
    · exact .int n hn
    · exact .atom n hn
  | str p =>
    rw [view] at h
    split_ifs at h with hf
    · cases h
      exact .float p hf
    · cases h
      exact .str p hf

/-- What one look at the roots of two terms finds. -/
inductive Seen (P : Program) (R : Reading D) (mem : Int → Word) (a b : Int)
    (t u : Term Sym Int) : Prop
  | decided (hne : Term.order (t.mapSym R.key) (u.mapSym R.key) ≠ .eq)
      (h : verdictOf P mem (mem a) (mem b) =
        .decided (answer (Term.order (t.mapSym R.key) (u.mapSym R.key))))
  | same (h : verdictOf P mem (mem a) (mem b) = .next) (heq : t.mapSym R.key = u.mapSym R.key)
  | lists {p q : Int} (ha : mem a = .lis p) (hb : mem b = .lis q)
  | args {p q : Int} (ha : mem a = .str p) (hb : mem b = .str q) (hp : mem p ≠ .fvlTag)
      (hq : mem q ≠ .fvlTag) (hname : R.name (mem p).funValue = R.name (mem q).funValue)
      (h : verdictOf P mem (mem a) (mem b) = .args p q (mem p).arity)

theorem Seen.of_ordering {t u : Term Sym Int} {equal : Verdict}
    (h : verdictOf P mem (mem a) (mem b) =
      .ofOrdering (Term.order (t.mapSym R.key) (u.mapSym R.key)) equal)
    (hequal : t.mapSym R.key = u.mapSym R.key →
      verdictOf P mem (mem a) (mem b) = .next) : Seen P R mem a b t u := by
  by_cases heq : t.mapSym R.key = u.mapSym R.key
  · exact .same (hequal heq) heq
  · have hne : Term.order (t.mapSym R.key) (u.mapSym R.key) ≠ .eq := fun h =>
      heq (Term.order_eq_iff.mp h)
    exact .decided hne (by rw [h, Verdict.ofOrdering_of_ne hne])

theorem Seen.of_symbols {f g : Sym} {ts us : List (Term Sym Int)} (hne : R.key f ≠ R.key g)
    (h : verdictOf P mem (mem a) (mem b) =
      .decided (answer (Term.compared (R.key f) (R.key g)))) :
    Seen P R mem a b (.app f ts) (.app g us) := by
  have horder : Term.order ((Term.app f ts).mapSym R.key) ((Term.app g us).mapSym R.key) =
      Term.compared (R.key f) (R.key g) := by
    rw [Term.mapSym_app, Term.mapSym_app, Term.order_app_of_ne hne]
  refine .decided (fun heq => hne ?_) (by rw [h, horder])
  rw [horder] at heq
  exact Term.compared_eq_iff.mp heq

/-- Symbols without arguments. -/
theorem Seen.of_constants {f g : Sym} (h : verdictOf P mem (mem a) (mem b) =
    .ofOrdering (Term.compared (R.key f) (R.key g)) .next) :
    Seen P R mem a b (.app f []) (.app g []) := by
  by_cases heq : R.key f = R.key g
  · rw [heq, Term.compared_self] at h
    exact .same h (by rw [Term.mapSym_app, Term.mapSym_app, heq, List.map_nil])
  · refine .of_symbols heq ?_
    rw [h, Verdict.ofOrdering_of_ne fun hcmp => heq (Term.compared_eq_iff.mp hcmp)]

/-- Two atoms. -/
theorem seen_atoms (hR : R.Reads P mem cells) {n m : Int} (ha : mem a = .cst n)
    (hb : mem b = .cst m) (hn : n % 2 = 1) (hm : m % 2 = 1) :
    Seen P R mem a b (.app (.con (.cst n)) []) (.app (.con (.cst m)) []) := by
  have hverdict : verdictOf P mem (mem a) (mem b) = if n = m then .next
      else .ofNames P (Word.cst n).intValue (Word.cst m).intValue .next := by
    rw [ha, hb]
    simp [verdictOf, verdict, Word.isInt, Word.isVar, Word.isFloat, hn, hm]
  by_cases hnm : n = m
  · subst hnm
    refine .of_constants ?_
    rw [hverdict, if_pos rfl, Term.compared_self, Verdict.ofOrdering]
  · have hne : (Word.cst n).intValue ≠ (Word.cst m).intValue := by
      simp only [Word.intValue, Word.bits]
      omega
    rw [if_neg hnm] at hverdict
    rcases lt_or_ge ASCII_SIZE (Word.cst n).intValue with hx | hx
    · rcases lt_or_ge ASCII_SIZE (Word.cst m).intValue with hy | hy
      · refine .of_constants ?_
        rw [hverdict, ofNames_long hR hx hy, key_long hn hx, key_long hm hy]
        simp
      · refine .of_symbols ?_ ?_
        · rw [key_long hn hx, key_short hm hy]
          exact fun h => by cases h
        · rw [hverdict, ofNames_short (Or.inr hy) hne, key_long hn hx, key_short hm hy,
            Term.compared_eq (o := .gt) (lt_of_le_of_lt hy hx)]
          simp
    · rcases lt_or_ge ASCII_SIZE (Word.cst m).intValue with hy | hy
      · refine .of_symbols ?_ ?_
        · rw [key_short hn hx, key_long hm hy]
          exact fun h => by cases h
        · rw [hverdict, ofNames_short (Or.inl hx) hne, key_short hn hx, key_long hm hy,
            Term.compared_eq (o := .lt) (lt_of_le_of_lt hx hy)]
          simp
      · refine .of_symbols ?_ ?_
        · rw [key_short hn hx, key_short hm hy]
          exact fun h => hne (Sum.inl.inj (Sum.inr.inj (Sum.inr.inj h)))
        · rw [hverdict, ofNames_short (Or.inl hx) hne, key_short hn hx, key_short hm hy]
          simp

theorem verdict_structs (hR : R.Reads P mem cells) {p q : Int} (ha : mem a = .str p)
    (hb : mem b = .str q) (hp : mem p ≠ .fvlTag) (hq : mem q ≠ .fvlTag)
    (hx : ASCII_SIZE < (mem p).funValue) (hy : ASCII_SIZE < (mem q).funValue) :
    verdictOf P mem (mem a) (mem b) =
      .ofOrdering (Term.compared (R.name (mem p).funValue) (R.name (mem q).funValue))
        (.args p q (mem p).arity) := by
  rw [ha, hb, ← ofNames_long hR hx hy]
  simp [verdictOf, verdict, Word.isFloat, Word.tag, hp, hq]

/-- Two structures. -/
theorem seen_structs (hR : R.Reads P mem cells) {p q : Int} (ha : mem a = .str p)
    (hb : mem b = .str q) (hp : mem p ≠ .fvlTag) (hq : mem q ≠ .fvlTag)
    (hx : ASCII_SIZE < (mem p).funValue) (hy : ASCII_SIZE < (mem q).funValue)
    (ts us : List (Term Sym Int)) :
    Seen P R mem a b (.app (.str (mem p)) ts) (.app (.str (mem q)) us) := by
  have hverdict := verdict_structs hR ha hb hp hq hx hy
  by_cases hname : R.name (mem p).funValue = R.name (mem q).funValue
  · rw [hname, Term.compared_self] at hverdict
    exact .args ha hb hp hq hname hverdict
  · have hkey : R.key (.str (mem p)) ≠ R.key (.str (mem q)) := fun h =>
      hname (Prod.mk.inj (Sum.inr.inj (Sum.inr.inj (Sum.inr.inj (Sum.inr.inj (Sum.inr.inj h)))))).1
    have hcmp : Term.compared (R.key (.str (mem p))) (R.key (.str (mem q))) =
        Term.compared (R.name (mem p).funValue) (R.name (mem q).funValue) := by
      simp only [Reading.key, Term.compared_inr_inr]
      exact Term.compared_pair_of_ne hname _ _
    refine .of_symbols hkey ?_
    rw [hverdict, hcmp, Verdict.ofOrdering_of_ne fun h => hname (Term.compared_eq_iff.mp h)]

/-- Two integers. -/
theorem seen_ints {n m : Int} (ha : mem a = .cst n) (hb : mem b = .cst m) (hn : n % 2 = 0)
    (hm : m % 2 = 0) : Seen P R mem a b (.app (.con (.cst n)) []) (.app (.con (.cst m)) []) := by
  have hn' : (Word.cst n).intValue = n / 2 := by
    simp only [Word.intValue, Word.bits]
    omega
  have hm' : (Word.cst m).intValue = m / 2 := by
    simp only [Word.intValue, Word.bits]
    omega
  have hless : decide (n < m) = true ↔ (Word.cst n).intValue < (Word.cst m).intValue := by
    rw [hn', hm', decide_eq_true_iff]
    omega
  have hgreater : decide (m < n) = true ↔ (Word.cst m).intValue < (Word.cst n).intValue := by
    rw [hn', hm', decide_eq_true_iff]
    omega
  refine .of_constants ?_
  rw [key_int hn, key_int hm, Term.compared_inr_inr, Term.compared_inl_inl,
    ← Verdict.ofOrder_eq hless hgreater, ha, hb]
  simp [verdictOf, verdict, Word.isInt, Word.isVar, Word.isFloat, hn, hm]

/-- Two doubles. -/
theorem seen_doubles (hR : R.Reads P mem cells) (hacells : a ∈ cells) (hbcells : b ∈ cells)
    {p q : Int} (ha : mem a = .str p) (hb : mem b = .str q) (hp : mem p = .fvlTag)
    (hq : mem q = .fvlTag) : Seen P R mem a b (.app (.float (mem (p + 1)) (mem (p + 2))) [])
      (.app (.float (mem (q + 1)) (mem (q + 2))) []) := by
  have hx : IsDouble mem cells (mem (p + 1), mem (p + 2)) := ⟨a, hacells, p, ha, hp, rfl⟩
  have hy : IsDouble mem cells (mem (q + 1), mem (q + 2)) := ⟨b, hbcells, q, hb, hq, rfl⟩
  refine .of_constants ?_
  rw [Reading.key, Reading.key, Term.compared_inl_inl,
    ← Verdict.ofOrder_eq (hR.doubles _ _ hx hy) (hR.doubles _ _ hy hx), ha, hb]
  simp [verdictOf, verdict, hp, hq]

/-- A variable is below every other term. -/
theorem seen_var_app {f : Sym} {as : List Int} (ha : mem a = .ref a)
    (hb : WordKind mem (mem b) f as) (ts : List (Term Sym Int)) :
    Seen P R mem a b (.var a) (.app f ts) := by
  have horder : Term.order ((Term.var a).mapSym R.key) ((Term.app f ts).mapSym R.key) = .lt := by
    simp
  refine .decided (by rw [horder]; decide) ?_
  rw [horder, ha]
  generalize mem b = w at hb
  cases hb <;> rfl

theorem seen_app_var {f : Sym} {as : List Int} (ha : WordKind mem (mem a) f as)
    (hb : mem b = .ref b) (ts : List (Term Sym Int)) :
    Seen P R mem a b (.app f ts) (.var b) := by
  have horder : Term.order ((Term.app f ts).mapSym R.key) ((Term.var b).mapSym R.key) = .gt := by
    simp
  refine .decided (by rw [horder]; decide) ?_
  rw [horder, hb]
  generalize mem a = w at ha
  cases ha with
  | int n hn => simp [verdictOf, verdict, Word.isInt, Word.isVar, hn, answer]
  | atom n hn => simp [verdictOf, verdict, Word.isInt, Word.isVar, hn, answer]
  | lis p => simp [verdictOf, verdict, Word.isVar, answer]
  | float p hp => simp [verdictOf, verdict, hp, answer]
  | str p hp => simp [verdictOf, verdict, hp, Word.tag, answer]

/-- Two variables are told apart by their addresses. -/
theorem seen_vars (ha : mem a = .ref a) (hb : mem b = .ref b) :
    Seen P R mem a b (.var a) (.var b) := by
  have hverdict : verdictOf P mem (mem a) (mem b) = .ofOrder (a < b) (b < a) := by
    rw [ha, hb]
    rfl
  rw [Verdict.ofOrder_eq (x := a) (y := b) (by simp) (by simp)] at hverdict
  refine .of_ordering (by simpa using hverdict) fun heq => ?_
  obtain rfl : a = b := by simpa using heq
  rw [hverdict, Term.compared_self, Verdict.ofOrdering]

/-! A constant meets no list and no structure: these stand in one argument place with compound terms
only. The other words of different kinds are told apart by their kinds. -/

section Kinds

variable {g : Sym} {bs : List Int} {us : List (Term Sym Int)}

theorem seen_int {n : Int} (ha : mem a = .cst n) (hn : n % 2 = 0) (hg : WordKind mem (mem b) g bs)
    (hlen : bs.length = us.length) (hapart : IsCompound mem (mem b) → (mem a).isCst = false) :
    Seen P R mem a b (.app (.con (.cst n)) []) (.app g us) := by
  generalize hb : mem b = w at hg
  rw [ha, hb] at hapart
  cases hg with
  | int m hm =>
    obtain rfl := List.eq_nil_of_length_eq_zero hlen.symm
    exact seen_ints ha hb hn hm
  | atom m hm =>
    obtain ⟨k, hk⟩ := exists_key_atom R hm
    refine .of_symbols (by rw [key_int hn, hk]; exact fun h => by cases h) ?_
    rw [key_int hn, hk, ha, hb]
    simp [verdictOf, verdict, Word.isInt, Word.isVar, Word.isFloat, hn, hm, answer]
  | lis q => exact absurd (hapart (Or.inl rfl)) (by simp [Word.isCst])
  | float q hq =>
    refine .of_symbols (by rw [key_int hn]; exact fun h => by cases h) ?_
    rw [key_int hn, ha, hb]
    simp [verdictOf, verdict, Word.isInt, Word.isFloat, Reading.key, hn, hq, answer]
  | str q hq => exact absurd (hapart (Or.inr ⟨q, rfl, hq⟩)) (by simp [Word.isCst])

theorem seen_atom (hR : R.Reads P mem cells) {n : Int} (ha : mem a = .cst n) (hn : n % 2 = 1)
    (hg : WordKind mem (mem b) g bs) (hlen : bs.length = us.length)
    (hapart : IsCompound mem (mem b) → (mem a).isCst = false) :
    Seen P R mem a b (.app (.con (.cst n)) []) (.app g us) := by
  obtain ⟨k, hk⟩ := exists_key_atom R hn
  generalize hb : mem b = w at hg
  rw [ha, hb] at hapart
  cases hg with
  | int m hm =>
    refine .of_symbols (by rw [key_int hm, hk]; exact fun h => by cases h) ?_
    rw [key_int hm, hk, ha, hb]
    simp [verdictOf, verdict, Word.isInt, hn, hm, answer]
  | atom m hm =>
    obtain rfl := List.eq_nil_of_length_eq_zero hlen.symm
    exact seen_atoms hR ha hb hn hm
  | lis q => exact absurd (hapart (Or.inl rfl)) (by simp [Word.isCst])
  | float q hq =>
    refine .of_symbols (by rw [hk]; exact fun h => by cases h) ?_
    rw [hk, ha, hb]
    simp [verdictOf, verdict, Word.isInt, Word.isFloat, Reading.key, hn, hq, answer]
  | str q hq => exact absurd (hapart (Or.inr ⟨q, rfl, hq⟩)) (by simp [Word.isCst])

theorem seen_list {p : Int} (ha : mem a = .lis p) (hg : WordKind mem (mem b) g bs)
    (hapart : IsCompound mem (mem a) → (mem b).isCst = false) (ts : List (Term Sym Int)) :
    Seen P R mem a b (.app .list ts) (.app g us) := by
  generalize hb : mem b = w at hg
  rw [ha, hb] at hapart
  cases hg with
  | int m hm => exact absurd (hapart (Or.inl rfl)) (by simp [Word.isCst])
  | atom m hm => exact absurd (hapart (Or.inl rfl)) (by simp [Word.isCst])
  | lis q => exact .lists ha hb
  | float q hq =>
    refine .of_symbols (fun h => by cases h) ?_
    rw [ha, hb]
    simp [verdictOf, verdict, Word.isFloat, Reading.key, hq, answer]
  | str q hq =>
    refine .of_symbols (fun h => by cases h) ?_
    rw [ha, hb]
    simp [verdictOf, verdict, Word.isVar, Word.isFloat, Reading.key, hq, answer]

theorem seen_double (hR : R.Reads P mem cells) (hacells : a ∈ cells) (hbcells : b ∈ cells) {p : Int}
    (ha : mem a = .str p) (hp : mem p = .fvlTag) (hg : WordKind mem (mem b) g bs)
    (hlen : bs.length = us.length) :
    Seen P R mem a b (.app (.float (mem (p + 1)) (mem (p + 2))) []) (.app g us) := by
  generalize hb : mem b = w at hg
  cases hg with
  | int m hm =>
    refine .of_symbols (by rw [key_int hm]; exact fun h => by cases h) ?_
    rw [key_int hm, ha, hb]
    simp [verdictOf, verdict, Reading.key, hp, answer]
  | atom m hm =>
    obtain ⟨k, hk⟩ := exists_key_atom R hm
    refine .of_symbols (by rw [hk]; exact fun h => by cases h) ?_
    rw [hk, ha, hb]
    simp [verdictOf, verdict, Reading.key, hp, answer]
  | lis q =>
    refine .of_symbols (fun h => by cases h) ?_
    rw [ha, hb]
    simp [verdictOf, verdict, Reading.key, hp, answer]
  | float q hq =>
    obtain rfl := List.eq_nil_of_length_eq_zero hlen.symm
    exact seen_doubles hR hacells hbcells ha hb hp hq
  | str q hq =>
    refine .of_symbols (fun h => by cases h) ?_
    rw [ha, hb]
    simp [verdictOf, verdict, Reading.key, hp, hq, answer]

theorem seen_str (hR : R.Reads P mem cells) {p : Int} (ha : mem a = .str p) (hp : mem p ≠ .fvlTag)
    (hx : ASCII_SIZE < (mem p).funValue) (hg : WordKind mem (mem b) g bs)
    (hfunctors : ∀ q, mem b = .str q → mem q ≠ .fvlTag → ASCII_SIZE < (mem q).funValue)
    (hapart : IsCompound mem (mem a) → (mem b).isCst = false) (ts : List (Term Sym Int)) :
    Seen P R mem a b (.app (.str (mem p)) ts) (.app g us) := by
  generalize hb : mem b = w at hg
  rw [ha, hb] at hapart
  cases hg with
  | int m hm => exact absurd (hapart (Or.inr ⟨p, rfl, hp⟩)) (by simp [Word.isCst])
  | atom m hm => exact absurd (hapart (Or.inr ⟨p, rfl, hp⟩)) (by simp [Word.isCst])
  | lis q =>
    refine .of_symbols (fun h => by cases h) ?_
    rw [ha, hb]
    simp [verdictOf, verdict, Word.tag, Reading.key, hp, answer]
  | float q hq =>
    refine .of_symbols (fun h => by cases h) ?_
    rw [ha, hb]
    simp [verdictOf, verdict, Word.isFloat, Reading.key, hp, hq, answer]
  | str q hq => exact seen_structs hR ha hb hp hq hx (hfunctors q hb hq) ts us

end Kinds

/-- **One look at the roots of two terms.** -/
theorem seen_of_roots (hR : R.Reads P mem cells) (hp : Proper mem cells) (ha : a ∈ cells)
    (hb : b ∈ cells) {t u : Term Sym Int} (ht : Root mem cells a t) (hu : Root mem cells b u) :
    Seen P R mem a b t u := by
  have hapart := hp.apart a ha b hb
  have hapart' := hp.apart b hb a ha
  cases ht with
  | unbound hself =>
    cases hu with
    | unbound hself' => exact seen_vars hself hself'
    | @app _ _ us hview _ _ => exact seen_var_app hself (wordKind_of_view hview) us
  | @app f as ts hview hlen _ =>
    have hf := wordKind_of_view hview
    cases hu with
    | unbound hself' => exact seen_app_var hf hself' ts
    | @app g bs us hview' hlen' _ =>
      have hg := wordKind_of_view hview'
      generalize hv : mem a = v at hf
      cases hf with
      | int n hn =>
        obtain rfl := List.eq_nil_of_length_eq_zero hlen.symm
        exact seen_int hv hn hg hlen' hapart'
      | atom n hn =>
        obtain rfl := List.eq_nil_of_length_eq_zero hlen.symm
        exact seen_atom hR hv hn hg hlen' hapart'
      | lis p => exact seen_list hv hg hapart ts
      | float p hfloat =>
        obtain rfl := List.eq_nil_of_length_eq_zero hlen.symm
        exact seen_double hR ha hb hv hfloat hg hlen'
      | str p hstr =>
        exact seen_str hR hv hstr (hp.functors a ha p hv hstr) hg (hp.functors b hb) hapart ts

end Look

/-! ## Arguments -/

theorem looks_of_final (hstore : WellFormed mem cells top) (hp : Proper mem cells) (ha : a ∈ cells)
    (hb : b ∈ cells) (hfa : Final mem top (mem a)) (hfb : Final mem top (mem b)) :
    Looks mem cells top (mem a) (mem b) where
  left := hstore.placed a ha
  right := hstore.placed b hb
  leftFinal := hfa
  rightFinal := hfb
  proper p n hv hf hw := by
    have hcst := hp.apart a ha b hb (Or.inr ⟨p, hv, hf⟩)
    rw [hw] at hcst
    cases hcst

/-- The terms of the arguments. -/
theorem exists_arguments {f : Sym} {ts : List (Term Sym Int)} {c : Nat → Int} {k : Nat}
    (hview : view mem (mem a) = .app f ((List.range k).map c))
    (hroot : Root mem cells a (.app f ts)) : ∃ T : Nat → Term Sym Int,
      ts = (List.range k).map T ∧ ∀ j < k, Den (graph mem cells) (.ref (c j)) (T j) := by
  cases hroot with
  | @app _ as _ hview' hlen hargs =>
    obtain rfl : as = (List.range k).map c := by
      rw [hview] at hview'
      cases hview'
      rfl
    rw [List.length_map, List.length_range] at hlen
    have hget : ∀ j, (hj : j < k) → ts[j]? = some (ts.get ⟨j, by omega⟩) := fun j hj => by
      rw [List.getElem?_eq_getElem (by omega), List.get_eq_getElem]
    refine ⟨fun j => ts[j]?.getD (.var 0), ?_, fun j hj => hargs (c j, _) ?_⟩
    · refine List.ext_getElem? fun j => ?_
      rw [List.getElem?_map]
      rcases Nat.lt_or_ge j k with hj | hj
      · rw [List.getElem?_range hj, Option.map_some, hget j hj, Option.getD_some]
      · rw [List.getElem?_eq_none (by omega), List.getElem?_eq_none (by simpa using hj)]
        rfl
    · refine List.mem_iff_getElem?.mpr ⟨j, ?_⟩
      rw [List.getElem?_zip_eq_some, List.getElem?_map, List.getElem?_range hj]
      exact ⟨rfl, by simp [hget j hj]⟩

theorem argCells_eq (p : Int) (k : Nat) :
    argCells p k = (List.range k).map fun j => p + 1 + (j : Nat) := rfl

/-- A list or a structure with its arguments: their cells and their terms. -/
structure Compound (store : Int → Word) (cells : Finset Int) (f : Sym) (c : Nat → Int) (k : Nat)
    (t : Term Sym Int) (T : Nat → Term Sym Int) : Prop where
  term : t = .app f ((List.range k).map T)
  pos : 0 < k
  mem : ∀ j < k, c j ∈ cells
  den : ∀ j < k, Den (graph store cells) (.ref (c j)) (T j)

theorem Root.list (hstore : WellFormed mem cells top) (ha : a ∈ cells) {t : Term Sym Int} {p : Int}
    (hp : mem a = .lis p) (h : Root mem cells a t) :
    ∃ T, Compound mem cells .list (fun j => p + (j : Nat)) 2 t T := by
  have hplaced := hstore.placed a ha
  rw [hp] at hplaced
  have hview : view mem (mem a) = .app .list ((List.range 2).map fun j : Nat => p + (j : Nat)) := by
    rw [hp]
    simp [view, List.range_succ]
  have hcells : ∀ j < 2, p + ((j : Nat) : Int) ∈ cells := fun j hj => by
    rcases Nat.lt_or_ge j 1 with hj' | hj'
    · obtain rfl : j = 0 := by omega
      simpa using hplaced.1
    · obtain rfl : j = 1 := by omega
      exact hplaced.2
  cases h with
  | unbound hself =>
    rw [hself] at hp
    cases hp
  | @app f as ts hview' hlen hargs =>
    have hroot : Root mem cells a (.app f ts) := .app hview' hlen hargs
    obtain rfl : f = .list := by
      rw [hview] at hview'
      cases hview'
      rfl
    obtain ⟨T, rfl, hden⟩ := exists_arguments hview hroot
    exact ⟨T, rfl, by omega, hcells, hden⟩

theorem Root.struct (hstore : WellFormed mem cells top) (ha : a ∈ cells) {t : Term Sym Int}
    {p : Int} (hp : mem a = .str p) (hf : mem p ≠ .fvlTag) (h : Root mem cells a t) :
    ∃ T, Compound mem cells (.str (mem p)) (fun j => p + 1 + (j : Nat)) (mem p).arity t T := by
  have hplaced := hstore.placed a ha
  rw [hp, Placed, if_neg hf] at hplaced
  obtain ⟨-, -, hpos, hcells⟩ := hplaced
  have hview : view mem (mem a) =
      .app (.str (mem p)) ((List.range (mem p).arity).map fun j => p + 1 + (j : Nat)) := by
    rw [hp, view, if_neg hf, argCells_eq]
  cases h with
  | unbound hself =>
    rw [hself] at hp
    cases hp
  | @app f as ts hview' hlen hargs =>
    have hroot : Root mem cells a (.app f ts) := .app hview' hlen hargs
    obtain rfl : f = .str (mem p) := by
      rw [hview] at hview'
      cases hview'
      rfl
    obtain ⟨T, rfl, hden⟩ := exists_arguments hview hroot
    refine ⟨T, rfl, hpos, fun j hj => hcells _ ?_, hden⟩
    exact List.mem_map.mpr ⟨j, List.mem_range.mpr hj, rfl⟩

/-! ## The loop computes the order -/

theorem SameTerm.identical (h : SameTerm R mem cells a b) {t u : Term Sym Int}
    (ht : Den (graph mem cells) (.ref a) t) (hu : Den (graph mem cells) (.ref b) u) :
    Identical R t u := by
  obtain ⟨t', u', ht', hu', hident⟩ := h
  rwa [ht.unique ht', hu.unique hu']

theorem Compound.size_lt {f : Sym} {c : Nat → Int} {k : Nat} {t : Term Sym Int}
    {T : Nat → Term Sym Int} (h : Compound mem cells f c k t T) {j : Nat} (hj : j < k) :
    (T j).size < t.size := by
  have hmem : T j ∈ (List.range k).map T := List.mem_map.mpr ⟨j, List.mem_range.mpr hj, rfl⟩
  have hle := Term.size_le_sum hmem
  rw [h.term, Term.size_app]
  omega

/-- The words of an argument: the cell itself, or a reference to it. -/
def WordOf (mem : Int → Word) (c : Int) (v : Word) : Prop := v = .ref c ∨ v = mem c

theorem exists_leads_of_wordOf (hstore : WellFormed mem cells top) (ha : a ∈ cells)
    {t : Term Sym Int} (ht : Den (graph mem cells) (.ref a) t) : ∃ r ∈ cells,
      Root mem cells r t ∧ ∀ v, WordOf mem a v → Leads mem top v r := by
  obtain ⟨r, hr, href, hmem, hroot⟩ := exists_leads hstore ha ht
  refine ⟨r, hr, hroot, fun v hv => ?_⟩
  rcases hv with rfl | rfl
  · exact href
  · exact hmem

section Order

variable [LinearOrder D]

/-- Compound terms whose arguments are identical up to the last. -/
theorem compares_last {v w : Word} {X Y : Nat → Word} {k m : Nat} {T U : Nat → Term (Key D) Int}
    (hpush : Pushes P mem top v w X Y (k + 1) m) (hkm : k + 1 ≤ m)
    (hargs : ∀ j < k + 1, Compares P mem top (X j) (Y j) (Term.order (T j) (U j)) 0)
    (hinit : ∀ j < k, T j = U j) : Compares P mem top v w (Term.order (T k) (U k)) 0 := by
  have heq : ∀ j < k, Compares P mem top (X j) (Y j) .eq 0 := fun j hj => by
    have h := hargs j (by omega)
    rwa [Term.order_eq_iff.mpr (hinit j hj)] at h
  have hlast := hargs k (by omega)
  by_cases ho : Term.order (T k) (U k) = .eq
  · rw [ho] at hlast ⊢
    refine hpush.equal (fun j hj => ?_) hkm
    rcases Nat.lt_or_ge j k with hj' | hj'
    · exact heq j hj'
    · obtain rfl : j = k := by omega
      exact hlast
  · have h := hpush.differ heq (by omega) (by omega) ho hlast
    rwa [Nat.add_sub_cancel, Nat.sub_self] at h

theorem order_last {φ : Sym → Key D} {f g : Sym} {k : Nat} {T U : Nat → Term Sym Int}
    (hsym : φ f = φ g) (hinit : ∀ j < k, (T j).mapSym φ = (U j).mapSym φ) :
    Term.order ((Term.app f ((List.range (k + 1)).map T)).mapSym φ)
        ((Term.app g ((List.range (k + 1)).map U)).mapSym φ) =
      Term.order ((T k).mapSym φ) ((U k).mapSym φ) := by
  rw [Term.mapSym_app, Term.mapSym_app, hsym, List.map_map, List.map_map]
  have hget : ∀ (V : Nat → Term Sym Int) (j : Nat), j < k + 1 →
      ((List.range (k + 1)).map (Term.mapSym φ ∘ V))[j]? = some ((V j).mapSym φ) := fun V j hj => by
    rw [List.getElem?_map, List.getElem?_range hj]
    rfl
  refine Term.order_app_init (by simp) (by simp) (hget T k (by omega)) (hget U k (by omega))
    fun j hj => ?_
  rw [hget T j (by omega), hget U j (by omega), hinit j hj]

/-- The symbols of the store. -/
def IsSymbol (mem : Int → Word) (cells : Finset Int) (f : Sym) : Prop :=
  ∃ a ∈ cells, ∃ as, view mem (mem a) = .app f as

theorem symsIn_of_den (hstore : WellFormed mem cells top) {n : Node Sym Int} {t : Term Sym Int}
    (h : Den (graph mem cells) n t) (hin : n.In (· ∈ cells))
    (hsym : ∀ f as, n = .app f as → IsSymbol mem cells f) :
    Term.SymsIn (IsSymbol mem cells) t := by
  induction h with
  | unbound => exact .var _
  | @ref a t hne hden ih =>
    refine ih (hstore.closed a hin) fun f as hf => ?_
    rw [graph_of_mem hin] at hf
    exact ⟨a, hin, as, hf⟩
  | @app f as ts hlen hargs ih =>
    refine .app (hsym f as rfl) fun t ht => ?_
    obtain ⟨j, hj, rfl⟩ := List.mem_iff_getElem.mp ht
    have hpair : (as.get ⟨j, by omega⟩, ts[j]) ∈ as.zip ts := by
      refine List.mem_iff_getElem.mpr ⟨j, by simp [hlen, hj], ?_⟩
      rw [List.getElem_zip, List.get_eq_getElem]
    exact ih _ hpair (hin _ (List.get_mem _ _)) fun f as hf => by cases hf

theorem key_atom_eq_iff (hwell : ComparesWell R mem cells) (ha : a ∈ cells) (hb : b ∈ cells)
    {n m : Int} (hn : mem a = .cst n) (hm : mem b = .cst m) (hodd : n % 2 = 1) (hodd' : m % 2 = 1) :
    R.key (.con (.cst n)) = R.key (.con (.cst m)) ↔
      R.name (Word.cst n).intValue = R.name (Word.cst m).intValue := by
  have hcon : (mem a).isCon ∧ (mem b).isCon := by simp [hn, hm, Word.isCon, hodd, hodd']
  have hatoms := hwell.atoms a ha b hb hcon.1 hcon.2
  have hatoms' := hwell.atoms b hb a ha hcon.2 hcon.1
  rw [hn, hm] at hatoms hatoms'
  rcases lt_or_ge ASCII_SIZE (Word.cst n).intValue with hx | hx <;>
    rcases lt_or_ge ASCII_SIZE (Word.cst m).intValue with hy | hy
  · rw [key_long hodd hx, key_long hodd' hy]
    refine ⟨fun h => ?_, fun h => by rw [h]⟩
    exact Sum.inl.inj (Sum.inr.inj (Sum.inr.inj (Sum.inr.inj h)))
  · rw [key_long hodd hx, key_short hodd' hy]
    refine ⟨fun h => (by cases h), fun h => ?_⟩
    have := hatoms' hy h.symm
    omega
  · rw [key_short hodd hx, key_long hodd' hy]
    refine ⟨fun h => (by cases h), fun h => ?_⟩
    have := hatoms hx h
    omega
  · rw [key_short hodd hx, key_short hodd' hy]
    refine ⟨fun h => ?_, fun h => by rw [hatoms hx h]⟩
    rw [show (Word.cst n).intValue = (Word.cst m).intValue from
      Sum.inl.inj (Sum.inr.inj (Sum.inr.inj h))]

/-- Where atoms are written in one way, the keys of the symbols say what they are on paper. -/
theorem key_eq_iff_spell_eq (hwell : ComparesWell R mem cells) {f g : Sym}
    (hf : IsSymbol mem cells f) (hg : IsSymbol mem cells g) :
    R.key f = R.key g ↔ R.spell f = R.spell g := by
  obtain ⟨a, ha, as, hview⟩ := hf
  obtain ⟨b, hb, bs, hview'⟩ := hg
  have hkind := wordKind_of_view hview
  have hkind' := wordKind_of_view hview'
  generalize hv : mem a = v at hkind
  generalize hw : mem b = w at hkind'
  cases hkind with
  | int n hn =>
    rw [key_int hn, spell_int hn]
    cases hkind' with
    | int m hm => simp [key_int hm, spell_int hm]
    | atom m hm =>
      obtain ⟨k, hk⟩ := exists_key_atom R hm
      simp [hk, spell_atom hm]
    | lis q => simp
    | float q hq => simp
    | str q hq => simp
  | atom n hn =>
    obtain ⟨k, hk⟩ := exists_key_atom R hn
    cases hkind' with
    | int m hm => simp [hk, key_int hm, spell_atom hn, spell_int hm]
    | atom m hm =>
      rw [key_atom_eq_iff hwell ha hb hv hw hn hm, spell_atom hn, spell_atom hm, Spelled.atom.injEq]
    | float q hq => simp [hk, spell_atom hn]
    | lis q =>
      have hcst := hwell.apart b hb a ha (Or.inl (by rw [hw]; rfl))
      rw [hv] at hcst
      cases hcst
    | str q hq =>
      have hcst := hwell.apart b hb a ha (Or.inr ⟨q, hw, hq⟩)
      rw [hv] at hcst
      cases hcst
  | lis p =>
    cases hkind' with
    | int m hm => simp [key_int hm, spell_int hm]
    | atom m hm =>
      have hcst := hwell.apart a ha b hb (Or.inl (by rw [hv]; rfl))
      rw [hw] at hcst
      cases hcst
    | lis q => simp
    | float q hq => simp
    | str q hq => simp
  | float p hp =>
    cases hkind' with
    | int m hm => simp [key_int hm, spell_int hm]
    | atom m hm =>
      obtain ⟨k, hk⟩ := exists_key_atom R hm
      simp [hk, spell_atom hm]
    | lis q => simp
    | float q hq => simp
    | str q hq => simp
  | str p hp =>
    cases hkind' with
    | int m hm => simp [key_int hm, spell_int hm]
    | atom m hm =>
      have hcst := hwell.apart a ha b hb (Or.inr ⟨p, hv, hp⟩)
      rw [hw] at hcst
      cases hcst
    | lis q => simp
    | float q hq => simp
    | str q hq => simp

/-- Identical terms have the same keys. -/
theorem identical_iff (hstore : WellFormed mem cells top) (hwell : ComparesWell R mem cells)
    (ha : a ∈ cells) (hb : b ∈ cells) {t u : Term Sym Int}
    (ht : Den (graph mem cells) (.ref a) t) (hu : Den (graph mem cells) (.ref b) u) :
    t.mapSym R.key = u.mapSym R.key ↔ Identical R t u :=
  Term.mapSym_eq_iff (fun _ _ hf hg => key_eq_iff_spell_eq hwell hf hg)
    (symsIn_of_den hstore ht ha fun _ _ h => by cases h)
    (symsIn_of_den hstore hu hb fun _ _ h => by cases h)

/-- Two compound terms with the same symbol and identical arguments up to the last. -/
theorem compares_compound {f g : Sym} {c c' : Nat → Int} {k : Nat} {t u : Term Sym Int}
    {T U : Nat → Term Sym Int} {v w : Word} {X Y : Nat → Word}
    (hT : Compound mem cells f c (k + 1) t T) (hU : Compound mem cells g c' (k + 1) u U)
    (hsym : R.key f = R.key g) (hpush : Pushes P mem top v w X Y (k + 1) (k + 1))
    (hinit : ∀ j < k, (T j).mapSym R.key = (U j).mapSym R.key)
    (hargs : ∀ j < k + 1, Compares P mem top (X j) (Y j)
      (Term.order ((T j).mapSym R.key) ((U j).mapSym R.key)) 0) :
    Compares P mem top v w (Term.order (t.mapSym R.key) (u.mapSym R.key)) 0 := by
  rw [hT.term, hU.term, order_last hsym hinit]
  exact compares_last (T := fun j => (T j).mapSym R.key) (U := fun j => (U j).mapSym R.key) hpush
    (Nat.le_refl _) hargs hinit

/-- **On a store that compares well the loop computes the order of the terms.** -/
theorem compares_order (hR : R.Reads P mem cells) (hstore : WellFormed mem cells top)
    (hwell : ComparesWell R mem cells) (t : Term Sym Int) :
    ∀ {a b : Int} {u : Term Sym Int} {v w : Word}, a ∈ cells → b ∈ cells →
      Den (graph mem cells) (.ref a) t → Den (graph mem cells) (.ref b) u → WordOf mem a v →
      WordOf mem b w →
      Compares P mem top v w (Term.order (t.mapSym R.key) (u.mapSym R.key)) 0 := by
  -- Induction on the term `t`: the arguments of its root are smaller.
  induction h : t.size using Nat.strong_induction_on generalizing t with
  | _ s ih =>
    intro a b u v w ha hb ht hu hv hw
    obtain ⟨r, hr, hroot, hleads⟩ := exists_leads_of_wordOf hstore ha ht
    obtain ⟨r', hr', hroot', hleads'⟩ := exists_leads_of_wordOf hstore hb hu
    refine compares_of_leads (hleads v hv) (hleads' w hw) ?_
    have hlooks := looks_of_final hstore hwell.toProper hr hr' (hleads v hv).final
      (hleads' w hw).final
    cases seen_of_roots hR hwell.toProper hr hr' hroot hroot' with
    | decided hne hverdict => exact compares_decided hlooks hne hverdict
    | same hverdict heq =>
      rw [heq, Term.order_eq_iff.mpr rfl]
      exact compares_next hlooks hverdict
    | @lists p q hp hq =>
      obtain ⟨T, hT⟩ := hroot.list hstore hr hp
      obtain ⟨U, hU⟩ := hroot'.list hstore hr' hq
      have hsame : (T 0).mapSym R.key = (U 0).mapSym R.key := by
        have hden := hT.den 0 (by omega)
        have hden' := hU.den 0 (by omega)
        rw [identical_iff hstore hwell (hT.mem 0 (by omega)) (hU.mem 0 (by omega)) hden hden']
        simp only [Int.natCast_zero, Int.add_zero] at hden hden'
        exact (hwell.lists r hr r' hr' p q hp hq).identical hden hden'
      have hpush : Pushes P mem top (mem r) (mem r') (fun j => .ref (p + (j : Nat)))
          (fun j => .ref (q + (j : Nat))) 2 2 := by
        rw [hp, hq] at hlooks ⊢
        exact pushes_lists hlooks
      refine compares_compound (k := 1) hT hU rfl hpush (fun j hj => ?_) fun j hj => ?_
      · obtain rfl : j = 0 := by omega
        exact hsame
      · exact ih _ (h ▸ hT.size_lt hj) (T j) rfl (hT.mem j hj) (hU.mem j hj) (hT.den j hj)
          (hU.den j hj) (Or.inl rfl) (Or.inl rfl)
    | @args p q hp hq hpf hqf hname hverdict =>
      obtain ⟨harity, hinit⟩ := hwell.structs r hr r' hr' p q hp hq hpf hqf hname
      obtain ⟨T, hT⟩ := hroot.struct hstore hr hp hpf
      obtain ⟨U, hU⟩ := hroot'.struct hstore hr' hq hqf
      obtain ⟨k, hk⟩ := Nat.exists_eq_add_one_of_ne_zero hT.pos.ne'
      have hsym : R.key (.str (mem p)) = R.key (.str (mem q)) := by
        rw [key_str, key_str, hname, harity]
      rw [← harity, hk] at hU
      rw [hk] at hT hverdict
      have hpush := pushes_args (P := P) (m := k + 1) hlooks hverdict fun j hj =>
        ⟨hstore.below _ (hT.mem j hj), hstore.below _ (hU.mem j hj)⟩
      refine compares_compound hT hU hsym hpush (fun j hj => ?_) fun j hj => ?_
      · have hj' : j < k + 1 := by omega
        rw [identical_iff hstore hwell (hT.mem j hj') (hU.mem j hj') (hT.den j hj') (hU.den j hj')]
        exact (hinit j (by omega)).identical (hT.den j hj') (hU.den j hj')
      · exact ih _ (h ▸ hT.size_lt hj) (T j) rfl (hT.mem j hj) (hU.mem j hj) (hT.den j hj)
          (hU.den j hj) (Or.inr rfl) (Or.inr rfl)

theorem totalPreorder_of_comparesWell (hR : R.Reads P mem cells) (hstore : Acyclic mem cells top)
    (hwell : ComparesWell R mem cells) : TotalPreorder P R mem cells top := by
  have hwf := hstore.toWellFormed
  have hcompares : ∀ a ∈ cells, ∀ b ∈ cells, ∀ t u, Den (graph mem cells) (.ref a) t →
      Den (graph mem cells) (.ref b) u →
      Compares P mem top (mem a) (mem b) (Term.order (t.mapSym R.key) (u.mapSym R.key)) 0 :=
    fun a ha b hb t u ht hu =>
      compares_order hR hwf hwell t ha hb ht hu (Or.inr rfl) (Or.inr rfl)
  constructor
  · intro a ha b hb
    obtain ⟨t, ht⟩ := hstore.denotes a ha
    obtain ⟨u, hu⟩ := hstore.denotes b hb
    exact ⟨_, answers_of_compares (hcompares a ha b hb t u ht hu)⟩
  · intro a ha b hb o ho
    obtain ⟨t, ht⟩ := hstore.denotes a ha
    obtain ⟨u, hu⟩ := hstore.denotes b hb
    rw [(ho.unique (hcompares a ha b hb t u ht hu)).1, Term.order_swap]
    exact answers_of_compares (hcompares b hb a ha u t hu ht)
  · intro a ha b hb c hc o o' o'' hab hbc hac ho ho'
    obtain ⟨t, ht⟩ := hstore.denotes a ha
    obtain ⟨u, hu⟩ := hstore.denotes b hb
    obtain ⟨v, hv⟩ := hstore.denotes c hc
    rw [(hab.unique (hcompares a ha b hb t u ht hu)).1] at ho
    rw [(hbc.unique (hcompares b hb c hc u v hu hv)).1] at ho'
    rw [(hac.unique (hcompares a ha c hc t v ht hv)).1]
    exact Term.order_trans ho ho'
  · intro a ha b hb t u ht hu
    have hcmp := hcompares a ha b hb t u ht hu
    rw [← identical_iff hwf hwell ha hb ht hu, ← Term.order_eq_iff]
    refine ⟨fun h => (h.unique hcmp).1.symm, fun h => ?_⟩
    rw [h] at hcmp
    exact answers_of_compares hcmp

end Order

/-! ## What a total preorder needs -/

theorem final_of_not_var (h : ∀ c, mem a ≠ .ref c) : Final mem top (mem a) :=
  fun c hc => (h c hc).elim

theorem answers_eq_self (h : TotalPreorder P R mem cells top) (hstore : Acyclic mem cells top)
    (ha : a ∈ cells) : Answers P mem top a a .eq := by
  obtain ⟨t, ht⟩ := hstore.denotes a ha
  exact (h.identical a ha a ha t t ht ht).mpr rfl

theorem proper_of_totalPreorder (h : TotalPreorder P R mem cells top)
    (hstore : Acyclic mem cells top) : Proper mem cells := by
  constructor
  · -- A functor of one character is below itself.
    intro a ha p hp hf
    by_contra hshort
    rw [not_lt] at hshort
    have hfin : Final mem top (mem a) := final_of_not_var fun c hc => by
      rw [hp] at hc
      cases hc
    have hlooks : Looks mem cells top (mem a) (mem a) := by
      refine ⟨hstore.placed a ha, hstore.placed a ha, hfin, hfin, fun q n _ _ hn => ?_⟩
      rw [hp] at hn
      cases hn
    have hverdict : verdictOf P mem (mem a) (mem a) = .decided (answer .lt) := by
      rw [hp]
      simp [verdictOf, verdict, Word.isFloat, Word.tag, hf, Verdict.ofNames, hshort, answer]
    have hcmp := compares_decided hlooks (by decide) hverdict
    cases ((answers_eq_self h hstore ha).unique hcmp).1
  · -- A list and a constant are both below each other; a structure takes a constant for an address.
    intro a ha b hb hcompound
    cases hw : mem b with
    | cst n =>
      rcases hcompound with hlist | ⟨p, hp, hf⟩
      · cases hv : mem a with
        | lis p =>
          have hfa : Final mem top (mem a) := final_of_not_var fun c hc => by
            rw [hv] at hc
            cases hc
          have hfb : Final mem top (mem b) := final_of_not_var fun c hc => by
            rw [hw] at hc
            cases hc
          have hlooks : Looks mem cells top (mem a) (mem b) := by
            refine ⟨hstore.placed a ha, hstore.placed b hb, hfa, hfb, fun q m hq _ _ => ?_⟩
            rw [hv] at hq
            cases hq
          have hlooks' : Looks mem cells top (mem b) (mem a) := by
            refine ⟨hstore.placed b hb, hstore.placed a ha, hfb, hfa, fun q m hq _ _ => ?_⟩
            rw [hw] at hq
            cases hq
          have hcmp : Compares P mem top (mem a) (mem b) .lt 0 := by
            refine compares_decided hlooks (by decide) ?_
            rw [hv, hw]
            simp [verdictOf, verdict, Word.isVar, Word.isFloat, answer]
          have hcmp' : Compares P mem top (mem b) (mem a) .lt 0 := by
            refine compares_decided hlooks' (by decide) ?_
            rw [hv, hw]
            simp [verdictOf, verdict, Word.isVar, Word.isFloat, Word.isInt, answer]
          have hswap := h.swap a ha b hb .lt (answers_of_compares hcmp)
          cases (hswap.unique hcmp').1
        | _ => rw [hv] at hlist; cases hlist
      · obtain ⟨o, ho⟩ := h.answers a ha b hb
        exact (not_answers_of_constant hp hf hw ho).elim
    | _ => rfl

theorem atoms_of_totalPreorder (h : TotalPreorder P R mem cells top)
    (hstore : Acyclic mem cells top) (ha : a ∈ cells) (hb : b ∈ cells) (hca : (mem a).isCon)
    (hcb : (mem b).isCon) (hshort : (mem a).intValue ≤ ASCII_SIZE)
    (hname : R.name (mem a).intValue = R.name (mem b).intValue) :
    (mem a).intValue = (mem b).intValue := by
  by_contra hne
  cases hv : mem a with
  | cst n =>
    cases hw : mem b with
    | cst m =>
      have hn : n % 2 = 1 := by simpa [hv, Word.isCon] using hca
      have hm : m % 2 = 1 := by simpa [hw, Word.isCon] using hcb
      rw [hv, hw] at hname hne
      rw [hv] at hshort
      have hfa : Final mem top (mem a) := final_of_not_var fun c hc => by
        rw [hv] at hc
        cases hc
      have hfb : Final mem top (mem b) := final_of_not_var fun c hc => by
        rw [hw] at hc
        cases hc
      have hlooks : Looks mem cells top (mem a) (mem b) := by
        refine ⟨hstore.placed a ha, hstore.placed b hb, hfa, hfb, fun q k hq _ _ => ?_⟩
        rw [hv] at hq
        cases hq
      have hnm : n ≠ m := fun hnm => hne (by rw [hnm])
      have hverdict : verdictOf P mem (mem a) (mem b) = .decided (answer
          (Term.compared (Word.cst n).intValue (Word.cst m).intValue)) := by
        rw [← ofNames_short (P := P) (Or.inl hshort) hne .next, hv, hw]
        simp [verdictOf, verdict, Word.isInt, Word.isVar, Word.isFloat, hn, hm, hnm]
      have hcmp := compares_decided hlooks (fun h => hne (Term.compared_eq_iff.mp h)) hverdict
      have hden : Den (graph mem cells) (.ref a) (.app (.con (.cst n)) []) := by
        refine .ref ?_ ?_ <;> rw [graph_of_mem ha, hv]
        · simp [view]
        · exact .app rfl (by simp)
      have hden' : Den (graph mem cells) (.ref b) (.app (.con (.cst m)) []) := by
        refine .ref ?_ ?_ <;> rw [graph_of_mem hb, hw]
        · simp [view]
        · exact .app rfl (by simp)
      have hident : Identical R (.app (.con (.cst n)) []) (.app (.con (.cst m)) []) := by
        rw [Identical, Term.mapSym_app, Term.mapSym_app, spell_atom hn, spell_atom hm, hname]
      have heq := ((h.identical a ha b hb _ _ hden hden').mpr hident).unique hcmp
      exact hne (Term.compared_eq_iff.mp heq.1.symm)
    | _ => rw [hw] at hcb; cases hcb
  | _ => rw [hv] at hca; cases hca

/-- Only the last of several pairs can differ, or pairs would be left on the stack. -/
theorem pairs_of_answers {X Y : Nat → Word} {k m : Nat}
    (hunique : ∀ o d, Compares P mem top (mem a) (mem b) o d → d = 0)
    (hpush : Pushes P mem top (mem a) (mem b) X Y k m) (hkm : k ≤ m)
    (hargs : ∀ j < k, ∃ o, Compares P mem top (X j) (Y j) o 0) :
    (∃ o, Compares P mem top (mem a) (mem b) o 0) ∧
      ∀ j, j + 1 < k → Compares P mem top (X j) (Y j) .eq 0 := by
  by_cases hall : ∀ j < k, Compares P mem top (X j) (Y j) .eq 0
  · exact ⟨⟨.eq, hpush.equal hall hkm⟩, fun j hj => hall j (by omega)⟩
  · -- The first pair that is not equal decides.
    have hex : ∃ i, i < k ∧ ¬ Compares P mem top (X i) (Y i) .eq 0 := by
      simpa only [not_forall, exists_prop] using hall
    classical
    obtain ⟨hik, hne⟩ := Nat.find_spec hex
    have hfirst : ∀ j < Nat.find hex, Compares P mem top (X j) (Y j) .eq 0 := fun j hj => by
      by_contra hno
      exact Nat.find_min hex hj ⟨by omega, hno⟩
    obtain ⟨o, ho⟩ := hargs _ hik
    have hoeq : o ≠ .eq := fun h => hne (h ▸ ho)
    have hdiff := hpush.differ hfirst hik (by omega) hoeq ho
    have hd := hunique _ _ hdiff
    rw [hd] at hdiff
    exact ⟨⟨o, hdiff⟩, fun j hj => hfirst j (by omega)⟩

/-- Two structures with one name, and what is known of their arguments. -/
structure Structs (P : Program) (R : Reading D) (mem : Int → Word) (cells : Finset Int) (top : Int)
    (a b p q : Int) : Prop where
  left : a ∈ cells ∧ mem a = .str p ∧ mem p ≠ .fvlTag
  right : b ∈ cells ∧ mem b = .str q ∧ mem q ≠ .fvlTag
  name : R.name (mem p).funValue = R.name (mem q).funValue
  args : ∀ j, j < (mem p).arity → j < (mem q).arity → p + 1 + (j : Nat) ∈ cells ∧
    q + 1 + (j : Nat) ∈ cells ∧
    (∃ o, Compares P mem top (mem (p + 1 + (j : Nat))) (mem (q + 1 + (j : Nat))) o 0) ∧
    ∃ o, Compares P mem top (mem (q + 1 + (j : Nat))) (mem (p + 1 + (j : Nat))) o 0

variable {p q : Int}

theorem Structs.symm (h : Structs P R mem cells top a b p q) :
    Structs P R mem cells top b a q p where
  left := h.right
  right := h.left
  name := h.name.symm
  args j hq hp :=
    let ⟨h₁, h₂, h₃, h₄⟩ := h.args j hp hq
    ⟨h₂, h₁, h₄, h₃⟩

theorem unique_of_totalPreorder (h : TotalPreorder P R mem cells top) (ha : a ∈ cells)
    (hb : b ∈ cells) : ∀ o d, Compares P mem top (mem a) (mem b) o d → d = 0 := by
  intro o d hcmp
  obtain ⟨o', ho'⟩ := h.answers a ha b hb
  exact (ho'.unique hcmp).2

section Needs

variable [LinearOrder D]

theorem Structs.pushes (h : Structs P R mem cells top a b p q) (hR : R.Reads P mem cells)
    (hstore : WellFormed mem cells top) (hproper : Proper mem cells) {m : Nat}
    (hm : m ≤ (mem p).arity) (hm' : m ≤ (mem q).arity) :
    Pushes P mem top (mem a) (mem b) (fun j => mem (p + 1 + (j : Nat)))
      (fun j => mem (q + 1 + (j : Nat))) (mem p).arity m := by
  obtain ⟨ha, hp, hpf⟩ := h.left
  obtain ⟨hb, hq, hqf⟩ := h.right
  have hverdict := verdict_structs hR hp hq hpf hqf (hproper.functors a ha p hp hpf)
    (hproper.functors b hb q hq hqf)
  rw [h.name, Term.compared_self] at hverdict
  have hlooks : Looks mem cells top (mem a) (mem b) := looks_of_final hstore hproper ha hb
    (final_of_not_var fun c hc => by rw [hp] at hc; cases hc)
    (final_of_not_var fun c hc => by rw [hq] at hc; cases hc)
  refine pushes_args hlooks hverdict fun j hj => ?_
  obtain ⟨hc, hc', -⟩ := h.args j (by omega) (by omega)
  exact ⟨hstore.below _ hc, hstore.below _ hc'⟩

/-- **The arity of a structure is not compared**, so there is only one for each name. -/
theorem Structs.not_arity_lt (h : Structs P R mem cells top a b p q)
    (htotal : TotalPreorder P R mem cells top) (hR : R.Reads P mem cells)
    (hstore : Acyclic mem cells top) (hproper : Proper mem cells) :
    ¬ (mem p).arity < (mem q).arity := by
  intro hlt
  have hwf := hstore.toWellFormed
  obtain ⟨ha, hp, hpf⟩ := h.left
  obtain ⟨hb, hq, hqf⟩ := h.right
  have hpush := h.pushes hR hwf hproper (Nat.le_refl _) hlt.le
  have hpush' := h.symm.pushes hR hwf hproper hlt.le (Nat.le_refl _)
  by_cases hall : ∀ j < (mem p).arity,
      Compares P mem top (mem (q + 1 + (j : Nat))) (mem (p + 1 + (j : Nat))) .eq 0
  · have heq : ∀ j < (mem p).arity,
        Compares P mem top (mem (p + 1 + (j : Nat))) (mem (q + 1 + (j : Nat))) .eq 0 := by
      intro j hj
      obtain ⟨hc, hc', ⟨o, ho⟩, -⟩ := h.args j hj (by omega)
      have hswap := htotal.swap _ hc' _ hc .eq (answers_of_compares (hall j hj))
      rwa [show o = .eq from (hswap.unique ho).1.symm] at ho
    have hans := answers_of_compares (hpush.equal heq (Nat.le_refl _))
    obtain ⟨t, ht⟩ := hstore.denotes a ha
    obtain ⟨u, hu⟩ := hstore.denotes b hb
    have hident := (htotal.identical a ha b hb t u ht hu).mp hans
    have hroot := root_of_den ha (fun c hc => by rw [hp] at hc; cases hc) ht
    have hroot' := root_of_den hb (fun c hc => by rw [hq] at hc; cases hc) hu
    obtain ⟨T, hT⟩ := hroot.struct hwf ha hp hpf
    obtain ⟨U, hU⟩ := hroot'.struct hwf hb hq hqf
    rw [Identical, hT.term, hU.term, Term.mapSym_app, Term.mapSym_app, Term.app.injEq, spell_str,
      spell_str, Spelled.fn.injEq] at hident
    exact hlt.ne hident.1.2
  · have hex : ∃ i, i < (mem p).arity ∧
        ¬ Compares P mem top (mem (q + 1 + (i : Nat))) (mem (p + 1 + (i : Nat))) .eq 0 := by
      simpa only [not_forall, exists_prop] using hall
    classical
    obtain ⟨hik, hne⟩ := Nat.find_spec hex
    have hfirst : ∀ j < Nat.find hex,
        Compares P mem top (mem (q + 1 + (j : Nat))) (mem (p + 1 + (j : Nat))) .eq 0 :=
      fun j hj => by
        by_contra hno
        exact Nat.find_min hex hj ⟨by omega, hno⟩
    obtain ⟨-, -, -, o, ho⟩ := h.args _ hik (by omega)
    have hoeq : o ≠ .eq := fun h => hne (h ▸ ho)
    have hd := unique_of_totalPreorder htotal hb ha _ _
      (hpush'.differ hfirst (by omega) hik hoeq ho)
    omega

theorem Structs.arity_eq (h : Structs P R mem cells top a b p q)
    (htotal : TotalPreorder P R mem cells top) (hR : R.Reads P mem cells)
    (hstore : Acyclic mem cells top) (hproper : Proper mem cells) :
    (mem p).arity = (mem q).arity :=
  Nat.le_antisymm (not_lt.mp (h.symm.not_arity_lt htotal hR hstore hproper))
    (not_lt.mp (h.not_arity_lt htotal hR hstore hproper))

/-- What the comparison of two roots needs, when the comparisons of their arguments come to an
answer. -/
theorem roots_of_totalPreorder (htotal : TotalPreorder P R mem cells top)
    (hR : R.Reads P mem cells) (hstore : Acyclic mem cells top) (hproper : Proper mem cells)
    (ha : a ∈ cells) (hb : b ∈ cells) {t u : Term Sym Int} (ht : Root mem cells a t)
    (hu : Root mem cells b u) (hfa : Final mem top (mem a)) (hfb : Final mem top (mem b))
    (hlists : ∀ p q, mem a = .lis p → mem b = .lis q → ∀ j < 2,
      ∃ o, Compares P mem top (.ref (p + (j : Nat))) (.ref (q + (j : Nat))) o 0)
    (hstructs : ∀ p q, mem a = .str p → mem p ≠ .fvlTag → mem b = .str q → mem q ≠ .fvlTag →
      R.name (mem p).funValue = R.name (mem q).funValue → Structs P R mem cells top a b p q) :
    ∃ o, Compares P mem top (mem a) (mem b) o 0 := by
  have hwf := hstore.toWellFormed
  have hlooks := looks_of_final hwf hproper ha hb hfa hfb
  have hunique := unique_of_totalPreorder htotal ha hb
  cases seen_of_roots hR hproper ha hb ht hu with
  | decided hne hverdict => exact ⟨_, compares_decided hlooks hne hverdict⟩
  | same hverdict => exact ⟨_, compares_next hlooks hverdict⟩
  | @lists p q hp hq =>
    have hpush : Pushes P mem top (mem a) (mem b) (fun j => .ref (p + (j : Nat)))
        (fun j => .ref (q + (j : Nat))) 2 2 := by
      rw [hp, hq] at hlooks ⊢
      exact pushes_lists hlooks
    exact (pairs_of_answers hunique hpush (Nat.le_refl 2) (hlists p q hp hq)).1
  | @args p q hp hq hpf hqf hname =>
    have hs := hstructs p q hp hpf hq hqf hname
    have harity := hs.arity_eq htotal hR hstore hproper
    have hpush := hs.pushes hR hwf hproper (Nat.le_refl _) harity.le
    exact (pairs_of_answers hunique hpush (Nat.le_refl _) fun j hj =>
      (hs.args j hj (by omega)).2.2.1).1

/-- **Every two terms have an answer, whatever is pending.** -/
theorem compares_of_totalPreorder (htotal : TotalPreorder P R mem cells top)
    (hR : R.Reads P mem cells) (hstore : Acyclic mem cells top) (hproper : Proper mem cells)
    (s : Nat) : ∀ {a b : Int} {t u : Term Sym Int}, a ∈ cells → b ∈ cells → t.size + u.size = s →
      Den (graph mem cells) (.ref a) t → Den (graph mem cells) (.ref b) u →
      ∃ o, ∀ v w, WordOf mem a v → WordOf mem b w → Compares P mem top v w o 0 := by
  -- Induction on the two sizes together, for the arguments may change sides.
  induction s using Nat.strong_induction_on with
  | _ s ih =>
    intro a b t u ha hb hs ht hu
    have hwf := hstore.toWellFormed
    obtain ⟨r, hr, hroot, hleads⟩ := exists_leads_of_wordOf hwf ha ht
    obtain ⟨r', hr', hroot', hleads'⟩ := exists_leads_of_wordOf hwf hb hu
    have hcmp : ∃ o, Compares P mem top (mem r) (mem r') o 0 := by
      refine roots_of_totalPreorder htotal hR hstore hproper hr hr' hroot hroot'
        (hleads _ (Or.inr rfl)).final (hleads' _ (Or.inr rfl)).final
        (fun p q hp hq j hj => ?_) fun p q hp hpf hq hqf hname => ?_
      · obtain ⟨T, hT⟩ := hroot.list hwf hr hp
        obtain ⟨U, hU⟩ := hroot'.list hwf hr' hq
        have hsize := hT.size_lt hj
        have hsize' := hU.size_lt hj
        obtain ⟨o, ho⟩ := ih _ (by omega) (hT.mem j hj) (hU.mem j hj) rfl (hT.den j hj)
          (hU.den j hj)
        exact ⟨o, ho _ _ (Or.inl rfl) (Or.inl rfl)⟩
      · obtain ⟨T, hT⟩ := hroot.struct hwf hr hp hpf
        obtain ⟨U, hU⟩ := hroot'.struct hwf hr' hq hqf
        refine ⟨⟨hr, hp, hpf⟩, ⟨hr', hq, hqf⟩, hname, fun j hj hj' => ?_⟩
        have hsize := hT.size_lt hj
        have hsize' := hU.size_lt hj'
        obtain ⟨o, ho⟩ := ih _ (by omega) (hT.mem j hj) (hU.mem j hj') rfl (hT.den j hj)
          (hU.den j hj')
        obtain ⟨o', ho'⟩ := ih _ (by omega) (hU.mem j hj') (hT.mem j hj) rfl (hU.den j hj')
          (hT.den j hj)
        exact ⟨hT.mem j hj, hU.mem j hj', ⟨o, ho _ _ (Or.inr rfl) (Or.inr rfl)⟩,
          o', ho' _ _ (Or.inr rfl) (Or.inr rfl)⟩
    obtain ⟨o, ho⟩ := hcmp
    exact ⟨o, fun v w hv hw => compares_of_leads (hleads v hv) (hleads' w hw) ho⟩

theorem sameTerm_of_compares (htotal : TotalPreorder P R mem cells top) (hR : R.Reads P mem cells)
    (hstore : Acyclic mem cells top) (hproper : Proper mem cells) (ha : a ∈ cells) (hb : b ∈ cells)
    {v w : Word} (hv : WordOf mem a v) (hw : WordOf mem b w)
    (h : Compares P mem top v w .eq 0) : SameTerm R mem cells a b := by
  obtain ⟨t, ht⟩ := hstore.denotes a ha
  obtain ⟨u, hu⟩ := hstore.denotes b hb
  obtain ⟨o, ho⟩ := compares_of_totalPreorder htotal hR hstore hproper _ ha hb rfl ht hu
  have heq : o = .eq := (ho v w hv hw).unique h
  have hans := answers_of_compares (heq ▸ ho _ _ (Or.inr rfl) (Or.inr rfl))
  exact ⟨t, u, ht, hu, (htotal.identical a ha b hb t u ht hu).mp hans⟩

theorem comparesWell_of_totalPreorder (htotal : TotalPreorder P R mem cells top)
    (hR : R.Reads P mem cells) (hstore : Acyclic mem cells top) : ComparesWell R mem cells := by
  have hproper := proper_of_totalPreorder htotal hstore
  have hwf := hstore.toWellFormed
  have hargs := compares_of_totalPreorder htotal hR hstore hproper
  refine ⟨hproper, fun a ha b hb p q hp hq => ?_, fun a ha b hb p q hp hq hpf hqf hname => ?_,
    fun a ha b hb hca hcb hshort hname =>
      atoms_of_totalPreorder htotal hstore ha hb hca hcb hshort hname⟩
  · have hunique := unique_of_totalPreorder htotal ha hb
    obtain ⟨t, ht⟩ := hstore.denotes a ha
    obtain ⟨u, hu⟩ := hstore.denotes b hb
    obtain ⟨T, hT⟩ := (root_of_den ha (fun c hc => by rw [hp] at hc; cases hc) ht).list hwf ha hp
    obtain ⟨U, hU⟩ := (root_of_den hb (fun c hc => by rw [hq] at hc; cases hc) hu).list hwf hb hq
    have hlooks : Looks mem cells top (mem a) (mem b) := looks_of_final hwf hproper ha hb
      (final_of_not_var fun c hc => by rw [hp] at hc; cases hc)
      (final_of_not_var fun c hc => by rw [hq] at hc; cases hc)
    have hpush : Pushes P mem top (mem a) (mem b) (fun j => .ref (p + (j : Nat)))
        (fun j => .ref (q + (j : Nat))) 2 2 := by
      rw [hp, hq] at hlooks ⊢
      exact pushes_lists hlooks
    have hheads := (pairs_of_answers hunique hpush (Nat.le_refl 2) fun j hj => by
      obtain ⟨o, ho⟩ := hargs _ (hT.mem j hj) (hU.mem j hj) rfl (hT.den j hj) (hU.den j hj)
      exact ⟨o, ho _ _ (Or.inl rfl) (Or.inl rfl)⟩).2 0 (by omega)
    have hsame := sameTerm_of_compares htotal hR hstore hproper (hT.mem 0 (by omega))
      (hU.mem 0 (by omega)) (Or.inl rfl) (Or.inl rfl) hheads
    simpa using hsame
  · obtain ⟨t, ht⟩ := hstore.denotes a ha
    obtain ⟨u, hu⟩ := hstore.denotes b hb
    obtain ⟨T, hT⟩ := (root_of_den ha (fun c hc => by rw [hp] at hc; cases hc) ht).struct hwf ha hp
      hpf
    obtain ⟨U, hU⟩ := (root_of_den hb (fun c hc => by rw [hq] at hc; cases hc) hu).struct hwf hb hq
      hqf
    have hs : Structs P R mem cells top a b p q := by
      refine ⟨⟨ha, hp, hpf⟩, ⟨hb, hq, hqf⟩, hname, fun j hj hj' => ?_⟩
      obtain ⟨o, ho⟩ := hargs _ (hT.mem j hj) (hU.mem j hj') rfl (hT.den j hj) (hU.den j hj')
      obtain ⟨o', ho'⟩ := hargs _ (hU.mem j hj') (hT.mem j hj) rfl (hU.den j hj') (hT.den j hj)
      exact ⟨hT.mem j hj, hU.mem j hj', ⟨o, ho _ _ (Or.inr rfl) (Or.inr rfl)⟩,
        o', ho' _ _ (Or.inr rfl) (Or.inr rfl)⟩
    have harity := hs.arity_eq htotal hR hstore hproper
    have hpush := hs.pushes hR hwf hproper (Nat.le_refl _) harity.le
    have hinit := (pairs_of_answers (unique_of_totalPreorder htotal ha hb) hpush (Nat.le_refl _)
      fun j hj => (hs.args j hj (by omega)).2.2.1).2
    refine ⟨harity, fun j hj => ?_⟩
    exact sameTerm_of_compares htotal hR hstore hproper (hT.mem j (by omega)) (hU.mem j (by omega))
      (Or.inr rfl) (Or.inr rfl) (hinit j hj)

/-- **The comparison is a total preorder on exactly the stores that compare well.** -/
theorem compares_iff (hR : R.Reads P mem cells) (hstore : Acyclic mem cells top) :
    TotalPreorder P R mem cells top ↔ ComparesWell R mem cells :=
  ⟨fun h => comparesWell_of_totalPreorder h hR hstore,
    totalPreorder_of_comparesWell hR hstore⟩

end Needs

/-! ## Two stores -/

/-- The program for a name table: `strcmp` compares by character codes. -/
def namedProgram (names : Int → List Int) : Program where
  code _ := .proceed
  strcmp x y := if names x < names y then -1 else if names y < names x then 1 else 0
  con_nil := .makeCon ASCII_SIZE
  doubles := ⟨fun x => (.makeInt x, .mlvmZero), fun _ x _ => x, id, fun _ _ => false,
    fun _ _ => true⟩
  legal _ := false
  btin _ e := e

/-- The names `[]` and `foo`. -/
def fooNames (x : Int) : List Int :=
  if x = 0 then [91, 93] else if x = 3 then [102, 111, 111] else []

def fooReading : Reading Int := ⟨fooNames, fun _ => 0⟩

theorem fooReading_reads (mem : Int → Word) (cells : Finset Int) :
    fooReading.Reads (namedProgram fooNames) mem cells := by
  refine ⟨fun x y => ?_, fun x y => ?_, fun x y _ _ => ?_⟩
  · change 0 < (if fooNames x < fooNames y then (-1 : Int) else
      if fooNames y < fooNames x then 1 else 0) ↔ fooNames y < fooNames x
    split_ifs with hlt hgt
    · exact ⟨fun h => absurd h (by decide), fun h => (lt_asymm hlt h).elim⟩
    · exact ⟨fun _ => hgt, fun _ => by decide⟩
    · exact ⟨fun h => absurd h (by decide), fun h => (hgt h).elim⟩
  · change (if fooNames x < fooNames y then (-1 : Int) else
      if fooNames y < fooNames x then 1 else 0) < 0 ↔ fooNames x < fooNames y
    split_ifs with hlt hgt
    · exact ⟨fun _ => hlt, fun _ => by decide⟩
    · exact ⟨fun h => absurd h (by decide), fun h => (hlt h).elim⟩
    · exact ⟨fun h => absurd h (by decide), fun h => (hlt h).elim⟩
  · exact ⟨fun h => absurd h Bool.false_ne_true, fun h => (lt_irrefl _ h).elim⟩

/-- Cell 0 holds the structure `foo(X)`. -/
def fooStore (x : Int) : Word :=
  if x = 0 then .str 1 else if x = 1 then .makeFun 131 1 else .ref x

theorem fooStore_acyclic : Acyclic fooStore {0, 2} 2 := by
  have hfun : (Word.makeFun 131 1).arity = 1 := by decide
  have hne : Word.makeFun 131 1 ≠ .fvlTag := by decide
  have hone : fooStore 1 = .makeFun 131 1 := rfl
  have hden : Den (graph fooStore {0, 2}) (.ref 2) (.var 2) := .unbound rfl
  refine ⟨⟨by decide, fun a ha => ?_⟩, fun a ha => ?_⟩
  · rcases Finset.mem_insert.mp ha with rfl | ha
    · rw [show fooStore 0 = .str 1 from rfl, Placed, hone, if_neg hne, hfun]
      decide
    · rw [Finset.mem_singleton.mp ha]
      exact (by decide : (2 : Int) ∈ ({0, 2} : Finset Int))
  · rcases Finset.mem_insert.mp ha with rfl | ha
    · refine ⟨.app (.str (.makeFun 131 1)) [.var 2], .ref (by decide) ?_⟩
      have hnode : graph fooStore {0, 2} 0 = .app (.str (.makeFun 131 1)) [2] := rfl
      rw [hnode]
      exact .app rfl (by simpa using hden)
    · rw [Finset.mem_singleton.mp ha]
      exact ⟨_, hden⟩

theorem compares_iff_foo :
    TotalPreorder (namedProgram fooNames) fooReading fooStore {0, 2} 2 ↔
      ComparesWell fooReading fooStore {0, 2} :=
  compares_iff (fooReading_reads fooStore {0, 2}) fooStore_acyclic

/-- The list `[0]` and its tail. -/
def listStore (x : Int) : Word :=
  if x = 0 then .lis 1 else if x = 1 then .makeInt 0 else if x = 2 then .makeCon ASCII_SIZE
  else .ref x

theorem listStore_acyclic : Acyclic listStore {0, 1, 2} 2 := by
  have hden₁ : Den (graph listStore {0, 1, 2}) (.ref 1) (.app (.con (.makeInt 0)) []) :=
    .ref (by decide) (.app rfl (by simp))
  have hden₂ : Den (graph listStore {0, 1, 2}) (.ref 2) (.app (.con (.makeCon ASCII_SIZE)) []) :=
    .ref (by decide) (.app rfl (by simp))
  refine ⟨⟨by decide, fun a ha => ?_⟩, fun a ha => ?_⟩
  · simp only [Finset.mem_insert, Finset.mem_singleton] at ha
    rcases ha with rfl | rfl | rfl
    · exact ⟨by decide, by decide⟩
    · exact trivial
    · exact trivial
  · simp only [Finset.mem_insert, Finset.mem_singleton] at ha
    rcases ha with rfl | rfl | rfl
    · refine ⟨.app .list [.app (.con (.makeInt 0)) [], .app (.con (.makeCon ASCII_SIZE)) [] ],
        .ref (by decide) ?_⟩
      have hnode : graph listStore {0, 1, 2} 0 = .app .list [1, 2] := rfl
      rw [hnode]
      exact .app rfl (by simpa using ⟨hden₁, hden₂⟩)
    · exact ⟨_, hden₁⟩
    · exact ⟨_, hden₂⟩

/-- **`[0]` is below `[]`, and `[]` is below `[0]`.** -/
theorem list_and_nil_below_each_other :
    Acyclic listStore {0, 1, 2} 2 ∧ Answers (namedProgram fooNames) listStore 2 0 2 .lt ∧
      Answers (namedProgram fooNames) listStore 2 2 0 .lt ∧
      ¬ TotalPreorder (namedProgram fooNames) fooReading listStore {0, 1, 2} 2 := by
  have hlist : Final listStore 2 (listStore 0) := fun c hc => by cases hc
  have hnil : Final listStore 2 (listStore 2) := fun c hc => by cases hc
  have hlooks : Looks listStore {0, 1, 2} 2 (listStore 0) (listStore 2) :=
    ⟨listStore_acyclic.placed 0 (by decide), listStore_acyclic.placed 2 (by decide), hlist, hnil,
      fun p n hp => by cases hp⟩
  have hlooks' : Looks listStore {0, 1, 2} 2 (listStore 2) (listStore 0) :=
    ⟨listStore_acyclic.placed 2 (by decide), listStore_acyclic.placed 0 (by decide), hnil, hlist,
      fun p n hp => by cases hp⟩
  have hcmp : Compares (namedProgram fooNames) listStore 2 (listStore 0) (listStore 2) .lt 0 :=
    compares_decided hlooks (by decide) rfl
  have hcmp' : Compares (namedProgram fooNames) listStore 2 (listStore 2) (listStore 0) .lt 0 :=
    compares_decided hlooks' (by decide) rfl
  refine ⟨listStore_acyclic, answers_of_compares hcmp, answers_of_compares hcmp', fun h => ?_⟩
  have hswap := h.swap 0 (by decide) 2 (by decide) .lt (answers_of_compares hcmp)
  cases (hswap.unique hcmp').1

end Mlvm
