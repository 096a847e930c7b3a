import Mlvm.Creator.CopyArg
import Mlvm.Creator.Interning
import Mlvm.FirstOrder.Variant
import Mlvm.Fuel.Comes

/-!
# Terms of an imago

What a word denotes: a finite term over symbols in which every name is spelled out, so that terms of
two imagos can be compared.

* `Area` — the words and bytes that belong to an imago, and where its names begin.
* `Spells` — the constant a word stands for.
* `Reads` — the term a word stands for.
* `Reads.deref` — the loop over references comes to a word that shows the symbol of the term.
-/

namespace Mlvm.Creator

open FirstOrder StringTable

/-! ## Symbols -/

/-- A constant: a word that is the same in every imago, or a name with an arity. -/
inductive Const where
  | same (c : Int)
  | name (s : CString) (arity : ℕ)

/-- The symbols of terms. The data of a double are two words. -/
inductive Sym where
  | con (c : Const)
  | list
  | str (c : Const)
  | double (w₁ w₂ : Int)

/-- The words and the bytes of an imago, and its name space. -/
structure Area where
  word : Int → Prop
  byte : Int → Prop
  name_base : Int

/-- The words that are the same in every imago: integers, names of one character and `[]`. -/
def IsSame (c : Int) : Prop :=
  (Word.cst c).isInt ∨ Word.cst c = conNil ∨
    (Word.cst c ≠ .fvlTag ∧ (Word.cst c).funValue < ASCII_SIZE)

instance (c : Int) : Decidable (IsSame c) := inferInstanceAs (Decidable (_ ∨ _ ∨ _))

/-- The constant that `cst c` stands for. -/
inductive Spells (A : Area) (byte : Int → UInt8) (c : Int) : Const → Prop
  | same : IsSame c → Spells A byte c (.same c)
  | name {s : CString} : ¬ IsSame c → Word.cst c ≠ .fvlTag →
      At byte (A.name_base + ((Word.cst c).funValue - ASCII_SIZE)) s.packed →
      (∀ i < s.packed.length,
        A.byte (A.name_base + ((Word.cst c).funValue - ASCII_SIZE) + (i : ℕ))) →
      Spells A byte c (.name s (Word.cst c).arity)

/-! ## Terms -/

/-- The term that a word stands for; its variables are the addresses of the unbound words. -/
inductive Reads (A : Area) (m : Memory) : Word → Term Sym Int → Prop
  | unbound {a : Int} : A.word a → m.read a = .ref a → Reads A m (.ref a) (.var a)
  | ref {a : Int} {t : Term Sym Int} : A.word a → m.read a ≠ .ref a → Reads A m (m.read a) t →
      Reads A m (.ref a) t
  | con {c : Int} {k : Const} : Spells A m.byte c k → Reads A m (.cst c) (.app (.con k) [])
  | list {p : Int} {t u : Term Sym Int} : A.word p → A.word (p + 1) → Reads A m (m.read p) t →
      Reads A m (m.read (p + 1)) u → Reads A m (.lis p) (.app .list [t, u])
  | double {p : Int} : A.word p → A.word (p + 1) → A.word (p + 2) → m.read p = .fvlTag →
      Reads A m (.str p) (.app (.double (m.word (p + 1)) (m.word (p + 2))) [])
  | str {p c : Int} {k : Const} {ts : List (Term Sym Int)} : A.word p → m.read p = .cst c →
      Spells A m.byte c k → (Word.cst c).arity = ts.length →
      (∀ i : ℕ, i < ts.length → A.word (p + 1 + (i : ℕ))) →
      (∀ i : ℕ, ∀ t, ts[i]? = some t → Reads A m (m.read (p + 1 + (i : ℕ))) t) →
      Reads A m (.str p) (.app (.str k) ts)

variable {A : Area} {m m' : Memory}

theorem Spells.congr {byte byte' : Int → UInt8} {c : Int} {k : Const} (h : Spells A byte c k)
    (hbyte : ∀ a, A.byte a → byte' a = byte a) : Spells A byte' c k := by
  cases h with
  | same h => exact .same h
  | name hsame hmark hat harea =>
    refine .name hsame hmark (fun i b hb => ?_) harea
    rw [hbyte _ (harea i (List.getElem?_eq_some_iff.1 hb).1)]
    exact hat i b hb

/-- The mark of a double stands for no constant. -/
theorem Spells.ne_mark {byte : Int → UInt8} {c : Int} {k : Const} (h : Spells A byte c k) :
    Word.cst c ≠ .fvlTag := by
  cases h with
  | same h =>
    rintro hmark
    obtain rfl := Word.cst.inj hmark
    exact absurd h (by decide)
  | name _ hmark _ _ => exact hmark

/-- The arity that stands in the word. -/
def Const.arity : Const → ℕ
  | .same c => (Word.cst c).arity
  | .name _ n => n

theorem Spells.arity {byte : Int → UInt8} {c : Int} {k : Const} (h : Spells A byte c k) :
    (Word.cst c).arity = k.arity := by
  cases h with
  | same _ => rfl
  | name _ _ _ _ => rfl

/-- Only the words and bytes of the imago matter. -/
theorem Reads.congr {w : Word} {t : Term Sym Int} (h : Reads A m w t)
    (hword : ∀ a, A.word a → m'.word a = m.word a) (hbyte : ∀ a, A.byte a → m'.byte a = m.byte a) :
    Reads A m' w t := by
  have hread : ∀ a, A.word a → m'.read a = m.read a := fun a ha => congrArg Word.ofBits (hword a ha)
  induction h with
  | unbound ha hself => exact .unbound ha ((hread _ ha).trans hself)
  | ref ha hne _ ih =>
    rw [← hread _ ha] at hne ih
    exact .ref ha hne ih
  | con hc => exact .con (hc.congr hbyte)
  | list hp hp' _ _ ih ih' =>
    rw [← hread _ hp] at ih
    rw [← hread _ hp'] at ih'
    exact .list hp hp' ih ih'
  | double hp hp₁ hp₂ hmark =>
    rw [← hword _ hp₁, ← hword _ hp₂]
    exact .double hp hp₁ hp₂ ((hread _ hp).trans hmark)
  | str hp hfun hc har hargs _ ih =>
    refine .str hp ((hread _ hp).trans hfun) (hc.congr hbyte) har hargs fun i t ht => ?_
    rw [hread _ (hargs i (List.getElem?_eq_some_iff.1 ht).1)]
    exact ih i t ht

/-- More words and bytes do not matter. -/
theorem Reads.mono {B : Area} {w : Word} {t : Term Sym Int} (h : Reads A m w t)
    (hword : ∀ a, A.word a → B.word a) (hbyte : ∀ a, A.byte a → B.byte a)
    (hbase : B.name_base = A.name_base) : Reads B m w t := by
  have hspells : ∀ {c k}, Spells A m.byte c k → Spells B m.byte c k := by
    intro c k hk
    cases hk with
    | same hsame => exact .same hsame
    | name hsame hmark hat harea =>
      rw [← hbase] at hat harea
      exact .name hsame hmark hat fun i hi => hbyte _ (harea i hi)
  induction h with
  | unbound ha hself => exact .unbound (hword _ ha) hself
  | ref ha hne _ ih => exact .ref (hword _ ha) hne ih
  | con hk => exact .con (hspells hk)
  | list hp hp' _ _ ih ih' => exact .list (hword _ hp) (hword _ hp') ih ih'
  | double hp hp₁ hp₂ hmark => exact .double (hword _ hp) (hword _ hp₁) (hword _ hp₂) hmark
  | str hp hfun hk har hargs _ ih =>
    exact .str (hword _ hp) hfun (hspells hk) har (fun i hi => hword _ (hargs i hi)) ih

theorem Spells.unique {byte : Int → UInt8} {c : Int} {k k' : Const} (h : Spells A byte c k)
    (h' : Spells A byte c k') : k = k' := by
  cases h with
  | same hsame =>
    cases h' with
    | same => rfl
    | name hnot => exact absurd hsame hnot
  | name hnot _ hat _ =>
    cases h' with
    | same hsame => exact absurd hsame hnot
    | name _ _ hat' _ => rw [hat.packed_unique hat']

/-- **A word denotes one term.** -/
theorem Reads.unique {w : Word} {t u : Term Sym Int} (h : Reads A m w t) (h' : Reads A m w u) :
    t = u := by
  induction h generalizing u with
  | unbound _ hself =>
    cases h' with
    | unbound => rfl
    | ref _ hne _ => exact absurd hself hne
  | ref _ hne _ ih =>
    cases h' with
    | unbound _ hself => exact absurd hself hne
    | ref _ _ hu => exact ih hu
  | con hk =>
    cases h' with
    | con hk' => rw [hk.unique hk']
  | list _ _ _ _ ih ih' =>
    cases h' with
    | list _ _ h₁ h₂ => rw [ih h₁, ih' h₂]
  | double _ _ _ hmark =>
    cases h' with
    | double => rfl
    | str _ hfun hk => exact absurd (hfun.symm.trans hmark) hk.ne_mark
  | @str p c k ts _ hfun hk har _ _ ih =>
    cases h' with
    | double _ _ _ hmark => exact absurd (hfun.symm.trans hmark) hk.ne_mark
    | @str _ c' k' us _ hfun' hk' har' _ hus =>
      obtain rfl := Word.cst.inj (hfun.symm.trans hfun')
      have hlen : ts.length = us.length := har.symm.trans har'
      have hts : ts = us := by
        refine List.ext_getElem hlen fun i hi hi' => ?_
        exact ih i ts[i] (List.getElem?_eq_getElem hi) (hus i us[i] (List.getElem?_eq_getElem hi'))
      rw [hk.unique hk', hts]

/-! ## References -/

/-- The word shows the symbol of the term. -/
inductive Shows (A : Area) (m : Memory) : Word → Term Sym Int → Prop
  | unbound {a : Int} : A.word a → m.read a = .ref a → Shows A m (.ref a) (.var a)
  | con {c : Int} {k : Const} : Spells A m.byte c k → Shows A m (.cst c) (.app (.con k) [])
  | list {p : Int} {t u : Term Sym Int} : A.word p → A.word (p + 1) → Reads A m (m.read p) t →
      Reads A m (m.read (p + 1)) u → Shows A m (.lis p) (.app .list [t, u])
  | double {p : Int} : A.word p → A.word (p + 1) → A.word (p + 2) → m.read p = .fvlTag →
      Shows A m (.str p) (.app (.double (m.word (p + 1)) (m.word (p + 2))) [])
  | str {p c : Int} {k : Const} {ts : List (Term Sym Int)} : A.word p → m.read p = .cst c →
      Spells A m.byte c k → (Word.cst c).arity = ts.length →
      (∀ i : ℕ, i < ts.length → A.word (p + 1 + (i : ℕ))) →
      (∀ i : ℕ, ∀ t, ts[i]? = some t → Reads A m (m.read (p + 1 + (i : ℕ))) t) →
      Shows A m (.str p) (.app (.str k) ts)

theorem comes_deref_of_ne {w : Word} (h : ∀ a, w ≠ .ref a) :
    Fuel.Comes (fun n => deref m n w) (some w) := by
  refine .of_succ rfl ((Fuel.comes_const (some w)).congr fun n => ?_)
  cases w with
  | ref a => exact absurd rfl (h a)
  | _ => rfl

/-- **References** lead to the symbol of the term. -/
theorem Reads.deref {w : Word} {t : Term Sym Int} (h : Reads A m w t) :
    ∃ root, Fuel.Comes (fun n => deref m n w) (some root) ∧ Shows A m root t := by
  induction h with
  | @unbound a ha hself =>
    refine ⟨.ref a, .of_succ rfl ((Fuel.comes_const _).congr fun n => ?_), .unbound ha hself⟩
    rw [Creator.deref, if_pos hself]
  | @ref a t ha hne _ ih =>
    obtain ⟨root, hroot, hshows⟩ := ih
    refine ⟨root, .of_succ rfl (hroot.congr fun n => ?_), hshows⟩
    rw [Creator.deref, if_neg hne]
  | con hc => exact ⟨_, comes_deref_of_ne (by simp), .con hc⟩
  | list hp hp' h h' _ _ => exact ⟨_, comes_deref_of_ne (by simp), .list hp hp' h h'⟩
  | double hp hp₁ hp₂ hmark => exact ⟨_, comes_deref_of_ne (by simp), .double hp hp₁ hp₂ hmark⟩
  | str hp hfun hc har hargs h _ =>
    exact ⟨_, comes_deref_of_ne (by simp), .str hp hfun hc har hargs h⟩

/-- At a constant there is no chain of structures. -/
theorem comes_derefstr {p c : Int} (h : m.read p = .cst c) :
    Fuel.Comes (fun n => derefstr m n p) (some p) := by
  refine .of_succ rfl ((Fuel.comes_const (some p)).congr fun n => ?_)
  rw [derefstr, h]

/-- **A name** is read up to its zero byte. -/
theorem comes_nameAt {byte : Int → UInt8} {a : Int} (s : CString) (h : At byte a s.packed) :
    Fuel.Comes (fun n => nameAt byte n a) (some s.chars) := by
  obtain ⟨chars, clean⟩ := s
  simp only [Str.packed] at h
  induction chars generalizing a with
  | nil =>
    refine .of_succ rfl ((Fuel.comes_const _).congr fun n => ?_)
    rw [nameAt, if_pos (at_cons.1 h).1]
  | cons b bs ih =>
    obtain ⟨hb, hrest⟩ := at_cons.1 h
    have hne : byte a ≠ 0 := by
      rw [hb]
      exact fun h => clean (by simp [h])
    have hname := (ih (fun h => clean (List.mem_cons_of_mem _ h)) hrest).map (byte a :: ·)
    rw [Option.map_some, hb] at hname
    refine .of_succ rfl (hname.congr fun n => ?_)
    rw [nameAt, if_neg hne, hb]

end Mlvm.Creator
