import Mathlib.Logic.Function.Basic
import Mathlib.Data.List.Basic

/-!
# The compiler's name table

The parser numbers every functor it meets: a **functor number** stands for a name together with
a number of arguments, and everything after the parser (the clause table, the code generator)
knows a predicate by that number only. The numbers of the operators and of the library
predicates are fixed (`builtinOperator`, `btinTab`); all the others are counted up from
`UNSER_DEF_PREDICATE` in the order in which the source text is read, and the table is kept from
one source module to the next.

**Results.** Whatever is read, in whatever order, a functor keeps the number it has once got
(`NameTable.val_readAll`), and two functors have the same number only if they are the same
functor (`NameTable.Numbered`), with one exception that the table of operators itself
contains: `|` with two arguments is declared with the number of `:-` with two arguments.
-/

namespace Mlvm.Imagoc

/-! ## The table -/

/-- A name with a number of arguments. -/
structure Func where
  name : String
  argunum : Nat
deriving DecidableEq

/-- An entry of the name table. `t` lists the numbers of arguments the name has been met with,
each with the functor number given to it; `val` is a number of the name's own. -/
structure HashTabNode where
  val : Nat
  t : List (Nat × Nat)

/-- The name table and the next functor number. -/
structure NameTable where
  hashNameTab : String → Option HashTabNode
  curFuncId : Nat

/-- The lower bound of the numbers given by the parser. -/
def UNSER_DEF_PREDICATE : Nat := 250

/-- The number of the first library predicate. -/
def IMAGO_LIB_START : Nat := 120

namespace NameTable

/-- The number of a functor, if it has one. -/
def val (n : NameTable) (f : Func) : Option Nat :=
  (n.hashNameTab f.name).bind fun hnode => hnode.t.lookup f.argunum

/-- The numbers as the terms carry them. -/
def num (n : NameTable) (f : Func) : Nat := (n.val f).getD 0

/-- `insert_name`: find a name, or enter it. A new entry uses up a functor number. -/
def insertName (sym : String) (n : NameTable) : NameTable :=
  match n.hashNameTab sym with
  | some _ => n
  | none =>
    { hashNameTab := Function.update n.hashNameTab sym (some ⟨n.curFuncId, []⟩)
      curFuncId := n.curFuncId + 1 }

/-- `argunum_imagoterm`: find the number of a name with `argunum` arguments, or give it one.
The new term is linked in before `hnode->t` is tested, so that the branch which would use the
name's own number is never taken. -/
def argunumImagoterm (sym : String) (argunum : Nat) (n : NameTable) : NameTable :=
  match n.hashNameTab sym with
  | none => n
  | some hnode =>
    match hnode.t.lookup argunum with
    | some _ => n
    | none =>
      { hashNameTab := Function.update n.hashNameTab sym
          (some { hnode with t := (argunum, n.curFuncId) :: hnode.t })
        curFuncId := n.curFuncId + 1 }

/-- `func_argunum_imagoterm` and `hashbuiltina`: the two in a row. -/
def funcArgunumImagoterm (f : Func) (n : NameTable) : NameTable :=
  argunumImagoterm f.name f.argunum (insertName f.name n)

/-- `addhashnametab`: declare a functor with a number. Declaring it twice is a fatal error. -/
def addhashnametab (f : Func) (val : Nat) (n : NameTable) : Option NameTable :=
  let cur := (n.hashNameTab f.name).getD ⟨val, []⟩
  if (cur.t.lookup f.argunum).isSome then none
  else some { n with
    hashNameTab := Function.update n.hashNameTab f.name
      (some { cur with t := (f.argunum, val) :: cur.t }) }

/-- Declare a list of functors. -/
def addAll : List (Func × Nat) → NameTable → Option NameTable
  | [], n => some n
  | e :: es, n => (addhashnametab e.1 e.2 n).bind (addAll es)

end NameTable

/-- What the parser asks of the table while it reads: a name when the scanner meets it, a
functor when its arguments have been counted. -/
inductive Lookup
  | name (sym : String)
  | func (f : Func)
deriving DecidableEq

namespace NameTable

/-- One question of the parser. -/
def read : Lookup → NameTable → NameTable
  | .name sym, n => insertName sym n
  | .func f, n => funcArgunumImagoterm f n

/-- All the questions of the parser over a piece of text. -/
def readAll (ls : List Lookup) (n : NameTable) : NameTable :=
  ls.foldl (fun n l => read l n) n

end NameTable

/-! ## The declared functors -/

def DOTVAL : Nat := 2
def COMMAVAL : Nat := 3
def RULEIFVAL : Nat := 4
def QUOTEVAL : Nat := 33
def CUTVAL : Nat := 113

/-- `builtin_operator`. -/
def builtinOperator : List (Func × Nat) :=
  [(⟨".", 2⟩, DOTVAL), (⟨"|", 2⟩, 4), (⟨",", 2⟩, COMMAVAL), (⟨":-", 2⟩, RULEIFVAL),
   (⟨"[]", 0⟩, 5), (⟨":-", 1⟩, 7), (⟨";", 2⟩, 6), (⟨"+", 2⟩, 20), (⟨"-", 1⟩, 21),
   (⟨"-", 2⟩, 22), (⟨"*", 2⟩, 23), (⟨"mod", 2⟩, 25), (⟨"/", 2⟩, 24), (⟨"sin", 1⟩, 26),
   (⟨"cos", 1⟩, 27), (⟨"abs", 1⟩, 28), (⟨"min", 2⟩, 29), (⟨"max", 2⟩, 30), (⟨"eval", 1⟩, 32),
   (⟨"quote", 1⟩, QUOTEVAL), (⟨"arcsin", 1⟩, 34), (⟨"arccos", 1⟩, 35), (⟨"=:=", 2⟩, 40),
   (⟨"=/=", 2⟩, 45), (⟨"<", 2⟩, 41), (⟨">", 2⟩, 42), (⟨"<=", 2⟩, 43), (⟨">=", 2⟩, 44),
   (⟨"==", 2⟩, 71), (⟨"=", 2⟩, 72), (⟨"/=", 2⟩, 73), (⟨"/==", 2⟩, 66), (⟨"@<", 2⟩, 67),
   (⟨"@=<", 2⟩, 68), (⟨"@>", 2⟩, 69), (⟨"@>=", 2⟩, 70), (⟨"clause", 2⟩, 103),
   (⟨"fail", 0⟩, 111), (⟨"!", 0⟩, CUTVAL), (⟨"true", 0⟩, 115)]

/-- The functors that the calls of `operator_add` look up. -/
def operatorAdd : List Lookup :=
  [.func ⟨"is", 2⟩, .func ⟨".", 2⟩, .func ⟨",", 2⟩, .func ⟨":-", 2⟩, .func ⟨"-", 1⟩,
   .func ⟨":-", 1⟩, .func ⟨"-", 2⟩, .func ⟨"=", 2⟩, .func ⟨"->", 2⟩, .func ⟨";", 2⟩,
   .func ⟨"'", 1⟩, .func ⟨"+", 2⟩, .func ⟨"/", 2⟩, .func ⟨"*", 2⟩, .func ⟨">", 2⟩,
   .func ⟨">=", 2⟩, .func ⟨"<", 2⟩, .func ⟨"<=", 2⟩, .func ⟨"==", 2⟩, .func ⟨"mod", 2⟩,
   .func ⟨"=/=", 2⟩, .func ⟨"=:=", 2⟩, .func ⟨"/=", 2⟩, .func ⟨"/==.", 2⟩, .func ⟨"@<", 2⟩,
   .func ⟨"@=<", 2⟩, .func ⟨"@>", 2⟩, .func ⟨"@>=", 2⟩]

/-- The library predicates of `btin_tab`, in its order. -/
def btinTab : List Func :=
  [⟨"var", 1⟩, ⟨"nonvar", 1⟩, ⟨"atom", 1⟩, ⟨"integer", 1⟩, ⟨"float", 1⟩, ⟨"atomic", 1⟩,
   ⟨"compound", 1⟩, ⟨"ground", 1⟩, ⟨"number", 1⟩, ⟨"abs", 2⟩, ⟨"ceiling", 2⟩, ⟨"floor", 2⟩,
   ⟨"sqrt", 2⟩, ⟨"log", 2⟩, ⟨"minus", 2⟩, ⟨"pow", 2⟩, ⟨"round", 2⟩, ⟨"sin", 2⟩, ⟨"arcsin", 2⟩,
   ⟨"cos", 2⟩, ⟨"arccos", 2⟩, ⟨"tan", 2⟩, ⟨"arctan", 2⟩, ⟨"rand", 1⟩, ⟨"srand", 2⟩,
   ⟨"functor", 3⟩, ⟨"arg", 3⟩, ⟨"length", 2⟩, ⟨"univ", 2⟩, ⟨"atom_length", 2⟩,
   ⟨"atom_concat", 3⟩, ⟨"sub_atom", 4⟩, ⟨"atom_chars", 2⟩, ⟨"char_code", 2⟩,
   ⟨"number_chars", 2⟩, ⟨"integer_float", 2⟩, ⟨"current_input", 1⟩, ⟨"current_output", 1⟩,
   ⟨"set_input", 1⟩, ⟨"set_output", 1⟩, ⟨"open", 4⟩, ⟨"open", 3⟩, ⟨"close", 2⟩, ⟨"close", 1⟩,
   ⟨"flush_output", 1⟩, ⟨"flush_output", 0⟩, ⟨"nl", 0⟩, ⟨"set_stream_position", 2⟩,
   ⟨"get_char", 1⟩, ⟨"get_char", 2⟩, ⟨"get_code", 1⟩, ⟨"get_code", 2⟩, ⟨"peek_char", 1⟩,
   ⟨"peek_char", 2⟩, ⟨"peek_code", 1⟩, ⟨"peek_code", 2⟩, ⟨"put_char", 1⟩, ⟨"put_char", 2⟩,
   ⟨"put_code", 1⟩, ⟨"put_code", 2⟩, ⟨"get_byte", 1⟩, ⟨"get_byte", 2⟩, ⟨"peek_byte", 1⟩,
   ⟨"peek_byte", 2⟩, ⟨"put_byte", 1⟩, ⟨"put_byte", 2⟩, ⟨"write", 1⟩, ⟨"write", 2⟩, ⟨"spy", 0⟩,
   ⟨"nospy", 0⟩, ⟨"spy", 2⟩, ⟨"nospy", 2⟩, ⟨"trace", 0⟩, ⟨"notrace", 0⟩, ⟨"debugging", 0⟩,
   ⟨"ctime", 1⟩, ⟨"sleep", 1⟩, ⟨"stats", 1⟩, ⟨"accept", 2⟩, ⟨"attach", 3⟩, ⟨"clone", 2⟩,
   ⟨"create", 3⟩, ⟨"current_host", 1⟩, ⟨"database_search", 3⟩, ⟨"dispatch", 3⟩, ⟨"dispose", 0⟩,
   ⟨"move", 1⟩, ⟨"reset_sender", 1⟩, ⟨"sender", 1⟩, ⟨"stationary_host", 1⟩, ⟨"terminate", 0⟩,
   ⟨"wait_accept", 2⟩, ⟨"web_search", 3⟩, ⟨"workers", 3⟩, ⟨"syscall", 3⟩]

/-- `init_name`: the operators, then the operator priorities, then the library. -/
def initName : Option NameTable :=
  (NameTable.addAll builtinOperator ⟨fun _ => none, UNSER_DEF_PREDICATE⟩).bind fun n =>
    if UNSER_DEF_PREDICATE ≤ IMAGO_LIB_START + btinTab.length then none
    else NameTable.addAll (btinTab.zipIdx IMAGO_LIB_START) (NameTable.readAll operatorAdd n)

/-- The name table after `init_all`. -/
def initNames : Option NameTable :=
  initName.map (NameTable.read (.func ⟨"real", 1⟩))

/-! ## What reading does to the numbers -/

namespace NameTable

theorem val_insertName (n : NameTable) (sym : String) (f : Func) :
    (insertName sym n).val f = n.val f := by
  unfold insertName
  split
  · rfl
  · rename_i h
    by_cases hf : f.name = sym
    · simp [val, hf, h]
    · simp [val, Function.update_of_ne hf]

theorem curFuncId_le_insertName (n : NameTable) (sym : String) :
    n.curFuncId ≤ (insertName sym n).curFuncId := by
  unfold insertName
  split
  · exact Nat.le_refl _
  · exact Nat.le_succ _

theorem insertName_ne_none (n : NameTable) (sym : String) :
    (insertName sym n).hashNameTab sym ≠ none := by
  unfold insertName
  split
  · rename_i h
    simp [h]
  · simp

/-- **A functor is numbered when it is first met**, with the next number. -/
theorem val_argunumImagoterm (n : NameTable) {sym : String} (k : Nat)
    (h : n.hashNameTab sym ≠ none) (f : Func) :
    (argunumImagoterm sym k n).val f =
      if f = ⟨sym, k⟩ ∧ n.val f = none then some n.curFuncId else n.val f := by
  obtain ⟨hnode, hn⟩ := Option.ne_none_iff_exists'.mp h
  unfold argunumImagoterm
  rw [hn]
  simp only
  by_cases hf : f = ⟨sym, k⟩
  · subst hf
    cases hk : hnode.t.lookup k with
    | none => simp [val, hn, hk]
    | some a => simp [val, hn, hk]
  · rw [if_neg (fun h => hf h.1)]
    cases hk : hnode.t.lookup k with
    | some a => rfl
    | none =>
      by_cases hs : f.name = sym
      · have hne : f.argunum ≠ k := by
          intro hfk
          exact hf (by cases f; simp_all)
        simp [val, hs, hn, List.lookup_cons, beq_false_of_ne hne]
      · simp [val, Function.update_of_ne hs]

theorem curFuncId_argunumImagoterm (n : NameTable) {sym : String} (k : Nat)
    (h : n.hashNameTab sym ≠ none) :
    (argunumImagoterm sym k n).curFuncId =
      if n.val ⟨sym, k⟩ = none then n.curFuncId + 1 else n.curFuncId := by
  obtain ⟨hnode, hn⟩ := Option.ne_none_iff_exists'.mp h
  unfold argunumImagoterm
  rw [hn]
  cases hk : hnode.t.lookup k with
  | none => simp [val, hn, hk]
  | some a => simp [val, hn, hk]

theorem val_funcArgunumImagoterm (n : NameTable) (g f : Func) :
    (funcArgunumImagoterm g n).val f =
      if f = g ∧ n.val f = none then some (insertName g.name n).curFuncId else n.val f := by
  rw [funcArgunumImagoterm, val_argunumImagoterm _ _ (insertName_ne_none n g.name),
    val_insertName]

/-- A number once given is kept. -/
theorem val_read {n : NameTable} {f : Func} {a : Nat} (h : n.val f = some a) (l : Lookup) :
    (read l n).val f = some a := by
  cases l with
  | name sym => rw [read, val_insertName, h]
  | func g => rw [read, val_funcArgunumImagoterm, if_neg (by simp [h]), h]

/-- A functor that is looked up has a number from then on. -/
theorem val_read_self (n : NameTable) (f : Func) : (read (.func f) n).val f ≠ none := by
  rw [read, val_funcArgunumImagoterm]
  split
  · simp
  · rename_i h
    simpa using h

/-- **Reading keeps every number.** -/
theorem val_readAll {n : NameTable} {f : Func} {a : Nat} (h : n.val f = some a)
    (ls : List Lookup) : (readAll ls n).val f = some a := by
  induction ls generalizing n with
  | nil => exact h
  | cons l ls ih => exact ih (val_read h l)

theorem val_readAll_of_mem {ls : List Lookup} {f : Func} (hf : .func f ∈ ls) (n : NameTable) :
    (readAll ls n).val f ≠ none := by
  induction ls generalizing n with
  | nil => simp at hf
  | cons l ls ih =>
    rcases List.mem_cons.mp hf with rfl | hf
    · obtain ⟨a, ha⟩ := Option.ne_none_iff_exists'.mp (val_read_self n f)
      have := val_readAll ha ls
      simp only [readAll, List.foldl_cons] at this ⊢
      simp [this]
    · exact ih hf (read l n)

/-! ## The invariant of the table -/

/-- The two functors that the table of operators declares with one number. -/
def Clash (f : Func) : Prop := f = ⟨"|", 2⟩ ∨ f = ⟨":-", 2⟩

/-- **The numbers tell the functors apart**, all but the two that clash, and lie below the next
number. -/
structure Numbered (n : NameTable) : Prop where
  inj : ∀ f g a, n.val f = some a → n.val g = some a → f = g ∨ Clash f ∧ Clash g
  pos : ∀ f a, n.val f = some a → 0 < a
  lt : ∀ f a, n.val f = some a → a < n.curFuncId

theorem Numbered.insertName {n : NameTable} (h : Numbered n) (sym : String) :
    Numbered (insertName sym n) := by
  refine ⟨fun f g a hf hg => ?_, fun f a hf => ?_, fun f a hf => ?_⟩
  · rw [val_insertName] at hf hg
    exact h.inj f g a hf hg
  · rw [val_insertName] at hf
    exact h.pos f a hf
  · rw [val_insertName] at hf
    exact Nat.lt_of_lt_of_le (h.lt f a hf) (curFuncId_le_insertName n sym)

theorem Numbered.argunumImagoterm {n : NameTable} (h : Numbered n) (h0 : 0 < n.curFuncId)
    {sym : String} (k : Nat) (hs : n.hashNameTab sym ≠ none) :
    Numbered (argunumImagoterm sym k n) := by
  have hle : n.curFuncId ≤ (NameTable.argunumImagoterm sym k n).curFuncId := by
    rw [curFuncId_argunumImagoterm n k hs]
    split <;> omega
  refine ⟨fun f g a hf hg => ?_, fun f a hf => ?_, fun f a hf => ?_⟩
  · rw [val_argunumImagoterm n k hs] at hf hg
    split at hf <;> split at hg
    · rename_i hf' hg'
      exact .inl (hf'.1.trans hg'.1.symm)
    · have := h.lt g a hg
      simp only [Option.some.injEq] at hf
      omega
    · have := h.lt f a hf
      simp only [Option.some.injEq] at hg
      omega
    · exact h.inj f g a hf hg
  · rw [val_argunumImagoterm n k hs] at hf
    split at hf
    · simp only [Option.some.injEq] at hf
      omega
    · exact h.pos f a hf
  · have hcur := curFuncId_argunumImagoterm n k hs
    rw [val_argunumImagoterm n k hs] at hf
    split at hf
    · rename_i hf'
      rw [if_pos (by rw [← hf'.1]; exact hf'.2)] at hcur
      simp only [Option.some.injEq] at hf
      omega
    · exact Nat.lt_of_lt_of_le (h.lt f a hf) hle

theorem curFuncId_le_read (n : NameTable) (l : Lookup) :
    n.curFuncId ≤ (read l n).curFuncId := by
  cases l with
  | name sym => exact curFuncId_le_insertName n sym
  | func f =>
    have := curFuncId_le_insertName n f.name
    rw [read, funcArgunumImagoterm, curFuncId_argunumImagoterm _ _ (insertName_ne_none n f.name)]
    split <;> omega

theorem curFuncId_le_readAll (n : NameTable) (ls : List Lookup) :
    n.curFuncId ≤ (readAll ls n).curFuncId := by
  induction ls generalizing n with
  | nil => exact Nat.le_refl _
  | cons l ls ih => exact Nat.le_trans (curFuncId_le_read n l) (ih (read l n))

theorem Numbered.read {n : NameTable} (h : Numbered n) (h0 : 0 < n.curFuncId) (l : Lookup) :
    Numbered (read l n) := by
  cases l with
  | name sym => exact h.insertName sym
  | func f =>
    exact (h.insertName f.name).argunumImagoterm
      (Nat.lt_of_lt_of_le h0 (curFuncId_le_insertName n f.name)) f.argunum
      (insertName_ne_none n f.name)

/-- **Reading keeps the functors apart.** -/
theorem Numbered.readAll {n : NameTable} (h : Numbered n) (h0 : 0 < n.curFuncId)
    (ls : List Lookup) : Numbered (readAll ls n) := by
  induction ls generalizing n with
  | nil => exact h
  | cons l ls ih => exact ih (h.read h0 l) (Nat.lt_of_lt_of_le h0 (curFuncId_le_read n l))

/-! ## The table at the start -/

/-- A declaration that does not fail adds the number of a functor that had none. -/
theorem addhashnametab_spec {n n' : NameTable} {f : Func} {v : Nat}
    (h : addhashnametab f v n = some n') :
    n.val f = none ∧ n'.curFuncId = n.curFuncId ∧
      ∀ g, n'.val g = if g = f then some v else n.val g := by
  simp only [addhashnametab] at h
  split at h
  · cases h
  · rename_i hk
    simp only [Option.some.injEq] at h
    subst h
    refine ⟨?_, rfl, fun g => ?_⟩
    · cases hn : n.hashNameTab f.name with
      | none => simp [val, hn]
      | some hnode =>
        simp only [hn, Option.getD_some, Bool.not_eq_true, Option.isSome_eq_false_iff,
          Option.isNone_iff_eq_none] at hk
        rw [val, hn, Option.bind_some, hk]
    · by_cases hs : g.name = f.name
      · by_cases hf : g = f
        · simp [val, hf]
        · have hne : g.argunum ≠ f.argunum := by
            intro hfk
            exact hf (by cases f; cases g; simp_all)
          rw [if_neg hf]
          cases hn : n.hashNameTab f.name with
          | none => simp [val, hs, hn, List.lookup_cons, beq_false_of_ne hne]
          | some hnode => simp [val, hs, hn, List.lookup_cons, beq_false_of_ne hne]
      · have hf : g ≠ f := fun h => hs (by rw [h])
        simp [val, Function.update_of_ne hs, hf]

theorem curFuncId_addAll {es : List (Func × Nat)} {n n' : NameTable}
    (h : addAll es n = some n') : n'.curFuncId = n.curFuncId := by
  induction es generalizing n with
  | nil =>
    simp only [addAll, Option.some.injEq] at h
    rw [h]
  | cons e es ih =>
    obtain ⟨m, hm, h⟩ := Option.bind_eq_some_iff.mp h
    rw [ih h, (addhashnametab_spec hm).2.1]

/-- Declarations that do not fail add exactly the numbers they list. -/
theorem val_addAll_iff {es : List (Func × Nat)} {n n' : NameTable} (h : addAll es n = some n')
    (f : Func) (a : Nat) : n'.val f = some a ↔ n.val f = some a ∨ (f, a) ∈ es := by
  induction es generalizing n with
  | nil =>
    simp only [addAll, Option.some.injEq] at h
    simp [h]
  | cons e es ih =>
    obtain ⟨m, hm, h⟩ := Option.bind_eq_some_iff.mp h
    obtain ⟨hnew, -, hval⟩ := addhashnametab_spec hm
    rw [ih h, hval, List.mem_cons]
    by_cases hf : f = e.1
    · simp [hf, hnew, Prod.ext_iff, eq_comm]
    · simp [hf, Prod.ext_iff]

/-- The numbers of the declared operators differ, all but one pair. -/
theorem builtinOperator_inj : ∀ e ∈ builtinOperator, ∀ e' ∈ builtinOperator, e.2 = e'.2 →
    e.1 = e'.1 ∨ (e.1 = ⟨"|", 2⟩ ∨ e.1 = ⟨":-", 2⟩) ∧ (e'.1 = ⟨"|", 2⟩ ∨ e'.1 = ⟨":-", 2⟩) := by
  decide +kernel

theorem builtinOperator_range : ∀ e ∈ builtinOperator, 0 < e.2 ∧ e.2 < IMAGO_LIB_START := by
  decide +kernel

/-- Library numbers are still free while no number lies in their range. -/
theorem Numbered.addAll_zipIdx {fs : List Func} {k : Nat} {n n' : NameTable} (hn : Numbered n)
    (h : addAll (fs.zipIdx k) n = some n') (h0 : 0 < k)
    (hfree : ∀ f a, n.val f = some a → a < k ∨ k + fs.length ≤ a)
    (hlt : k + fs.length ≤ n.curFuncId) : Numbered n' := by
  have hcur := curFuncId_addAll h
  have hmem : ∀ f a, (f, a) ∈ fs.zipIdx k → k ≤ a ∧ a < k + fs.length ∧ fs[a - k]? = some f := by
    intro f a hf
    rw [List.mem_zipIdx_iff_le_and_getElem?_sub] at hf
    exact ⟨hf.1, by have := (List.getElem?_eq_some_iff.mp hf.2).1; omega, hf.2⟩
  refine ⟨fun f g a hf hg => ?_, fun f a hf => ?_, fun f a hf => ?_⟩
  · rw [val_addAll_iff h] at hf hg
    rcases hf with hf | hf <;> rcases hg with hg | hg
    · exact hn.inj f g a hf hg
    · have := hfree f a hf
      have := hmem g a hg
      omega
    · have := hfree g a hg
      have := hmem f a hf
      omega
    · have hf := (hmem f a hf).2.2
      rw [(hmem g a hg).2.2] at hf
      exact .inl (Option.some.inj hf).symm
  · rw [val_addAll_iff h] at hf
    rcases hf with hf | hf
    · exact hn.pos f a hf
    · exact Nat.lt_of_lt_of_le h0 (hmem f a hf).1
  · rw [val_addAll_iff h] at hf
    rw [hcur]
    rcases hf with hf | hf
    · exact hn.lt f a hf
    · exact Nat.lt_of_lt_of_le (hmem f a hf).2.1 hlt

/-- What the parser has numbered itself lies above a bound that it started from. -/
theorem val_readAll_range {n : NameTable} {b : Nat} (hb : b ≤ n.curFuncId) (ls : List Lookup)
    {f : Func} {a : Nat} (h : (readAll ls n).val f = some a) : n.val f = some a ∨ b ≤ a := by
  induction ls generalizing n with
  | nil => exact .inl h
  | cons l ls ih =>
    have hle := curFuncId_le_read n l
    rcases ih (Nat.le_trans hb hle) h with h | h
    · cases l with
      | name sym =>
        rw [read, val_insertName] at h
        exact .inl h
      | func g =>
        rw [read, val_funcArgunumImagoterm] at h
        split at h
        · have := curFuncId_le_insertName n g.name
          simp only [Option.some.injEq] at h
          omega
        · exact .inl h
    · exact .inr h

end NameTable

open NameTable

/-- **The table the compiler starts with tells the functors apart** and gives every declared
functor its number. -/
theorem initNames_numbered {n : NameTable} (h : initNames = some n) :
    Numbered n ∧ 0 < n.curFuncId ∧ ∀ e ∈ builtinOperator, n.val e.1 = some e.2 := by
  obtain ⟨n3, h3, rfl⟩ := Option.map_eq_some_iff.mp h
  obtain ⟨n1, h1, h3⟩ := Option.bind_eq_some_iff.mp h3
  have hlib : ¬ UNSER_DEF_PREDICATE ≤ IMAGO_LIB_START + btinTab.length := by decide
  rw [if_neg hlib] at h3
  have hcur1 : n1.curFuncId = UNSER_DEF_PREDICATE := curFuncId_addAll h1
  have hval1 : ∀ f a, n1.val f = some a ↔ (f, a) ∈ builtinOperator := by
    intro f a
    rw [val_addAll_iff h1]
    simp [val]
  have hnum1 : Numbered n1 := by
    refine ⟨fun f g a hf hg => ?_, fun f a hf => ?_, fun f a hf => ?_⟩
    · exact builtinOperator_inj _ ((hval1 f a).mp hf) _ ((hval1 g a).mp hg) rfl
    · exact (builtinOperator_range _ ((hval1 f a).mp hf)).1
    · have := (builtinOperator_range _ ((hval1 f a).mp hf)).2
      rw [hcur1]
      exact Nat.lt_trans this (by decide)
  have hcur2 := curFuncId_le_readAll n1 operatorAdd
  rw [hcur1] at hcur2
  have hnum2 := hnum1.readAll (by rw [hcur1]; decide) operatorAdd
  have hcur3 := curFuncId_addAll h3
  have hnum3 : Numbered n3 := by
    refine hnum2.addAll_zipIdx h3 (by decide) (fun f a hf => ?_) (by omega)
    rcases val_readAll_range (Nat.le_of_eq hcur1.symm) operatorAdd hf with hf | hf
    · exact .inl (builtinOperator_range _ ((hval1 f a).mp hf)).2
    · exact .inr (by omega)
  have h0 : 0 < n3.curFuncId := by
    rw [hcur3]
    exact Nat.lt_of_lt_of_le (by decide) hcur2
  refine ⟨hnum3.read h0 _, Nat.lt_of_lt_of_le h0 (curFuncId_le_read n3 _), fun e he => ?_⟩
  have he1 : n1.val e.1 = some e.2 := (hval1 e.1 e.2).mpr he
  exact val_read ((val_addAll_iff h3 e.1 e.2).mpr (.inl (val_readAll he1 operatorAdd))) _

end Mlvm.Imagoc
