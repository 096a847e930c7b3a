import Mlvm.Creator.LevelWalk
import Mlvm.Creator.Marks

/-!
# One round of copying

**`Scanning`** is the invariant of the loop: the words from `skbot` to `sktop` hold the items of a
queue, which still lead into the source, and the source is apart from the free words of the child.

`scan_plain`: a round on an item without a name settles a word and writes the parts of the item
behind the copy, and the invariant holds again (`Scanning.plain`) as long as there is room.

With `keep` the invariant is about the data of doubles as well; with `move` the stack may have to be
moved, and then the marks of the doubles have to be seen.
-/

namespace Mlvm.Creator

open FirstOrder StringTable

/-! ## Pending words -/

/-- The words from `a` on hold the item. -/
inductive Holds (A : Area) (keep : Prop) (m : Memory) (a : Int) : Item → Prop
  | term {t : Term Sym Int} : Reads A m (m.read a) t → Holds A keep m a (.term t)
  | functor {c : Int} {k : Const} : m.read a = .cst c → Spells A m.byte c k →
      Holds A keep m a (.functor k)
  | double {w₁ w₂ : Int} : m.read a = .fvlTag →
      (keep → m.word (a + 1) = w₁ ∧ m.word (a + 2) = w₂) → Holds A keep m a (.double w₁ w₂)

/-- The words from `a` to `b` hold these items. -/
inductive Pending (A : Area) (keep : Prop) (m : Memory) (b : Int) : Int → List Item → Prop
  | nil : Pending A keep m b b []
  | cons {a : Int} {i : Item} {q : List Item} : Holds A keep m a i →
      Pending A keep m b (a + i.words) q → Pending A keep m b a (i :: q)

variable {A : Area} {keep move : Prop} {m m' : Memory}

/-- What is read from a word is what has been copied to it. -/
theorem read_eq {a b : Int} (h : m'.word a = m.word b) : m'.read a = m.read b :=
  congrArg Word.ofBits h

/-- A word that holds an item is no pointer out of the source. -/
theorem Holds.points {a : Int} {i : Item} (h : Holds A keep m a i) {y : Int}
    (hy : m.read a = .ref y ∨ m.read a = .lis y ∨ m.read a = .str y) : A.word y := by
  cases h with
  | term ht =>
    rcases hy with hy | hy | hy
    · rw [hy] at ht
      cases ht with
      | unbound ha _ => exact ha
      | ref ha _ _ => exact ha
    · rw [hy] at ht
      cases ht with
      | list hp _ _ _ => exact hp
    · rw [hy] at ht
      cases ht with
      | double hp _ _ _ => exact hp
      | str hp _ _ _ _ _ => exact hp
  | functor hc _ =>
    rw [hc] at hy
    rcases hy with hy | hy | hy <;> cases hy
  | double hmark _ =>
    rw [hmark] at hy
    rcases hy with hy | hy | hy <;> cases hy

theorem read_eq_mark {a : Int} : m.read a = .fvlTag ↔ m.word a = -1 := by
  constructor
  · intro h
    rw [← Word.bits_ofBits (m.word a)]
    exact congrArg Word.bits h
  · intro h
    rw [Memory.read, h]
    rfl

/-- A term or a functor is not held by a mark. -/
theorem Holds.eq_double {a : Int} {i : Item} (h : Holds A keep m a i) (hmark : m.word a = -1) :
    ∃ w₁ w₂, i = .double w₁ w₂ := by
  rw [← read_eq_mark] at hmark
  cases h with
  | term ht =>
    rw [hmark] at ht
    cases ht with
    | con hk => exact absurd rfl hk.ne_mark
  | functor hc hk => exact absurd (hc.symm.trans hmark) hk.ne_mark
  | double _ _ => exact ⟨_, _, rfl⟩

/-- A word is not settled as a mark. -/
theorem Holds.settled_ne {a x y : Int} {i : Item} (h : Holds A keep m a i) {w : Word}
    (hw : i.settled x y = some w) : w ≠ .fvlTag := by
  cases h with
  | @term t ht =>
    rcases t with v | ⟨f, ts⟩
    · obtain rfl := Option.some.inj hw
      simp [Word.fvlTag]
    · cases f with
      | con k =>
        cases k with
        | same c =>
          obtain rfl := Option.some.inj hw
          obtain ⟨root, -, hshows⟩ := ht.deref
          cases hshows with
          | con hk =>
            cases hk with
            | same hsame => exact (@Spells.same A m.byte _ hsame).ne_mark
        | name s n => cases hw
      | list =>
        obtain rfl := Option.some.inj hw
        simp [Word.fvlTag]
      | str k =>
        obtain rfl := Option.some.inj hw
        simp [Word.fvlTag]
      | double w₁ w₂ =>
        obtain rfl := Option.some.inj hw
        simp [Word.fvlTag]
  | functor hc hk =>
    cases hk with
    | same hsame =>
      obtain rfl := Option.some.inj hw
      exact (@Spells.same A m.byte _ hsame).ne_mark
    | name => cases hw
  | double _ _ => cases hw

/-- The item in another place. -/
theorem Holds.moved {a b : Int} {i : Item} (h : Holds A keep m a i)
    (hword : ∀ x, A.word x → m'.word x = m.word x) (hbyte : ∀ x, A.byte x → m'.byte x = m.byte x)
    (hcell : m'.word b = m.word a)
    (hdata : keep → m.read a = .fvlTag →
      m'.word (b + 1) = m.word (a + 1) ∧ m'.word (b + 2) = m.word (a + 2)) :
    Holds A keep m' b i := by
  have hread := read_eq hcell
  cases h with
  | term ht =>
    refine .term ?_
    rw [hread]
    exact ht.congr hword hbyte
  | functor hc hk => exact .functor (hread.trans hc) (hk.congr hbyte)
  | double hmark hkept =>
    refine .double (hread.trans hmark) fun hk => ?_
    obtain ⟨h₁, h₂⟩ := hdata hk hmark
    rw [h₁, h₂]
    exact hkept hk

theorem pending_cons {a b : Int} {i : Item} {q : List Item} :
    Pending A keep m b a (i :: q) ↔ Holds A keep m a i ∧ Pending A keep m b (a + i.words) q := by
  constructor
  · intro h
    cases h with
    | cons hi hq => exact ⟨hi, hq⟩
  · rintro ⟨hi, hq⟩
    exact .cons hi hq

theorem Pending.eq_add {a b : Int} {q : List Item} (h : Pending A keep m b a q) :
    b = a + queueWords q := by
  induction h with
  | nil => simp
  | cons _ _ ih =>
    rw [ih, queueWords_cons]
    omega

theorem Pending.append {a b c : Int} {q q' : List Item} (h : Pending A keep m b a q)
    (h' : Pending A keep m c b q') : Pending A keep m c a (q ++ q') := by
  induction h with
  | nil => exact h'
  | cons hi _ ih => exact .cons hi ih

theorem pending_single {a : Int} {i : Item} (h : Holds A keep m a i) :
    Pending A keep m (a + i.words) a [i] := .cons h .nil

/-- The words are moved by `d`; the data of doubles are when they are to be kept. -/
theorem Pending.shift {a b d : Int} {q : List Item} (h : Pending A keep m b a q)
    (hword : ∀ x, A.word x → m'.word x = m.word x) (hbyte : ∀ x, A.byte x → m'.byte x = m.byte x)
    (hcell : ∀ x, a ≤ x → x < b →
      (∀ y, m.read x = .ref y ∨ m.read x = .lis y ∨ m.read x = .str y → A.word y) →
      m'.word (x + d) = m.word x)
    (hdata : keep → ∀ x, a ≤ x → x + 2 < b → m.read x = .fvlTag →
      m'.word (x + d + 1) = m.word (x + 1) ∧ m'.word (x + d + 2) = m.word (x + 2)) :
    Pending A keep m' (b + d) (a + d) q := by
  induction h with
  | nil => exact .nil
  | @cons a i q hi hq ih =>
    have hadd := hq.eq_add
    have hpos : 0 < i.words := i.words_pos
    have hplace : a + d + (i.words : ℕ) = a + i.words + d := by omega
    refine .cons (hi.moved hword hbyte (hcell a (Int.le_refl a) (by omega) fun y => hi.points)
      fun hk hmark => hdata hk a (Int.le_refl a) ?_ hmark) ?_
    · obtain ⟨w₁, w₂, rfl⟩ := hi.eq_double (read_eq_mark.1 hmark)
      rw [Item.words_double] at hadd
      omega
    · rw [hplace]
      exact ih (fun x hx hx' => hcell x (by omega) hx') fun hk x hx hx' => hdata hk x (by omega) hx'

/-- Only the source and the words themselves matter. -/
theorem Pending.congr {a b : Int} {q : List Item} (h : Pending A keep m b a q)
    (hword : ∀ x, A.word x → m'.word x = m.word x) (hbyte : ∀ x, A.byte x → m'.byte x = m.byte x)
    (hcell : ∀ x, a ≤ x → x < b → m'.word x = m.word x) : Pending A keep m' b a q := by
  have hshift := h.shift (d := 0) hword hbyte
    (fun x hx hx' _ => by rw [Int.add_zero, hcell x hx hx'])
    fun _ x hx hx' _ => by
      rw [Int.add_zero]
      exact ⟨hcell _ (by omega) (by omega), hcell _ (by omega) hx'⟩
  rwa [Int.add_zero, Int.add_zero] at hshift

/-- The marks stand where the doubles are. -/
theorem Pending.marked {a b : Int} {q : List Item} (h : Pending A keep m b a q) (hk : keep)
    (hclean : ∀ i ∈ q, i.Clean) {lo : Int} (hlo : Marked m.word lo a) : Marked m.word lo b := by
  induction h with
  | nil => exact hlo
  | @cons a i q hi _ ih =>
    refine ih (fun j hj => hclean j (List.mem_cons_of_mem _ hj)) ?_
    by_cases hmark : m.word a = -1
    · obtain ⟨w₁, w₂, rfl⟩ := hi.eq_double hmark
      obtain ⟨hw₁, hw₂⟩ := hclean _ List.mem_cons_self
      cases hi with
      | double _ hdata =>
        obtain ⟨h₁, h₂⟩ := hdata hk
        exact .double hlo hmark (by rwa [h₁]) (by rwa [h₂])
    · have hone : i.words = 1 := by
        cases hi with
        | double h _ => exact absurd (read_eq_mark.1 h) hmark
        | _ => rfl
      rw [hone]
      exact .cell hlo hmark

/-! ## Writing behind the copy -/

namespace Copy

/-- `n` words have been written behind the copy. -/
structure Grows (s s' : Copy) (n : ℕ) : Prop where
  child : s'.child = s.child
  skbot : s'.skbot = s.skbot
  sktop : s'.sktop = s.sktop + n
  byte : s'.mem.byte = s.mem.byte
  frame : ∀ a, a < s.sktop ∨ s.sktop + n ≤ a → s'.mem.word a = s.mem.word a
  mono : s.high ≤ s'.high
  high : s.high < s.sktop → s'.high < s'.sktop
  reach : 0 < n → s'.sktop ≤ s'.high + 1

theorem grows_refl (s : Copy) : Grows s s 0 :=
  ⟨rfl, rfl, by simp, rfl, fun _ _ => rfl, Int.le_refl _, id, fun h => absurd h (by decide)⟩

theorem grows_push (s : Copy) (w : Word) : Grows s (s.push w) 1 where
  child := rfl
  skbot := rfl
  sktop := rfl
  byte := rfl
  frame a ha := Function.update_of_ne (by omega) ..
  mono := Int.le_max_left _ _
  high h := by simp only [push, set]; omega
  reach _ := by simp only [push, set]; omega

theorem Grows.trans {s s' s'' : Copy} {n n' : ℕ} (h : Grows s s' n) (h' : Grows s' s'' n') :
    Grows s s'' (n + n') where
  child := h'.child.trans h.child
  skbot := h'.skbot.trans h.skbot
  sktop := by rw [h'.sktop, h.sktop]; omega
  byte := h'.byte.trans h.byte
  frame a ha := by
    have := h.sktop
    rw [h'.frame a (by omega), h.frame a (by omega)]
  mono := Int.le_trans h.mono h'.mono
  high hs := h'.high (h.high hs)
  reach hn := by
    rcases Nat.eq_zero_or_pos n' with rfl | hn'
    · have := h.reach (by omega)
      have := h'.mono
      have := h'.sktop
      omega
    · exact h'.reach hn'

/-- The words that are copied, when the source is not overwritten. -/
theorem pushCells_spec (n : ℕ) (p : Int) (s : Copy) :
    Grows s (pushCells n p s) n ∧
      ((∀ i : ℕ, i < n → p + i < s.sktop ∨ s.sktop + n ≤ p + i) →
        ∀ i : ℕ, i < n → (pushCells n p s).mem.word (s.sktop + i) = s.mem.word (p + i)) := by
  induction n generalizing p s with
  | zero => exact ⟨grows_refl s, fun _ i hi => absurd hi (by omega)⟩
  | succ n ih =>
    obtain ⟨hgrows, hcells⟩ := ih (p + 1) (s.push (s.mem.read p))
    have hpush := grows_push s (s.mem.read p)
    have htrans := hpush.trans hgrows
    rw [Nat.add_comm 1 n] at htrans
    refine ⟨htrans, fun hapart i hi => ?_⟩
    have htop := hpush.sktop
    cases i with
    | zero =>
      have hsame := hgrows.frame s.sktop (by omega)
      have hself : (s.push (s.mem.read p)).mem.word s.sktop = s.mem.word p := by
        simp [push, set, Memory.write, Memory.read]
      rw [pushCells]
      simpa using hsame.trans hself
    | succ i =>
      have hplace : s.sktop + ((i + 1 : ℕ) : Int) = (s.push (s.mem.read p)).sktop + i := by omega
      have hplace' : p + ((i + 1 : ℕ) : Int) = p + 1 + i := by omega
      have hsource : ∀ j : ℕ, j < n → p + 1 + j < (s.push (s.mem.read p)).sktop ∨
          (s.push (s.mem.read p)).sktop + n ≤ p + 1 + j := fun j hj => by
        have := hapart (j + 1) (by omega)
        omega
      have hi' := hapart (i + 1) hi
      rw [hplace, hplace', pushCells, hcells hsource i (by omega)]
      exact hpush.frame _ (by omega)

end Copy

/-! ## The invariant -/

/-- The copy so far, with the items that are still to be scanned. -/
structure Scanning (A : Area) (keep move : Prop) (s : Copy) (es : List CString) (q : List Item) :
    Prop where
  table : Table s.child s.mem es
  pending : Pending A keep s.mem s.sktop s.skbot q
  words : ∀ a, A.word a → a < s.child.stack_base ∨ s.child.tt ≤ a
  bytes : ∀ b, A.byte b → b < s.child.name_base ∨ 4 * s.child.tt ≤ b
  base : s.child.stack_base ≤ s.child.st + 1
  st : s.child.st + 1 ≤ s.skbot
  top : s.sktop ≤ s.child.tt
  high : s.high < s.sktop
  seen : keep → move → Marked s.mem.word s.child.stack_base s.skbot ∧
    s.mem.word s.child.stack_base ≠ -1 ∧ ∀ i ∈ q, i.Clean

/-- The marks of the whole copy are seen. -/
theorem Scanning.marked {s : Copy} {es : List CString} {q : List Item}
    (h : Scanning A keep move s es q) (hk : keep) (hm : move) :
    Marked s.mem.word s.child.stack_base s.sktop :=
  h.pending.marked hk (h.seen hk hm).2.2 (h.seen hk hm).1

/-- The queue is not empty. -/
theorem Scanning.lt {s : Copy} {es : List CString} {i : Item} {q : List Item}
    (h : Scanning A keep move s es (i :: q)) : s.skbot + i.words ≤ s.sktop ∧ 0 < i.words := by
  have hadd := h.pending.eq_add
  rw [queueWords_cons] at hadd
  have hpos := i.words_pos
  omega

/-! ## Items without a name -/

/-- The first item has been scanned: its word is settled and its parts stand behind the copy. -/
structure Plain (A : Area) (keep : Prop) (s s' : Copy) (i : Item) : Prop where
  child : s'.child = s.child
  skbot : s'.skbot = s.skbot + i.words
  sktop : s'.sktop = s.sktop + i.pushed
  byte : s'.mem.byte = s.mem.byte
  frame : ∀ a, a ≠ s.skbot → a < s.sktop ∨ s'.sktop ≤ a → s'.mem.word a = s.mem.word a
  cell : ∀ w, i.settled s.skbot s.sktop = some w → s'.mem.read s.skbot = w
  kept : i.settled s.skbot s.sktop = none → s'.mem.word s.skbot = s.mem.word s.skbot
  mono : s.high ≤ s'.high
  high : s'.high < s'.sktop
  reach : 0 < i.pushed → s'.sktop ≤ s'.high + 1
  parts : s'.sktop ≤ s.child.tt → Pending A keep s'.mem s'.sktop s.sktop i.children

section Settle

variable {s s' : Copy} {es : List CString} {i : Item} {q : List Item}

/-- The word is settled and the parts are written. -/
theorem Plain.of_settle (h : Scanning A keep move s es (i :: q)) {w : Word} (hone : i.words = 1)
    (hw : i.settled s.skbot s.sktop = some w) (hgrows : (s.settle w).Grows s' i.pushed)
    (hparts : s'.sktop ≤ s.child.tt → Pending A keep s'.mem s'.sktop s.sktop i.children) :
    Plain A keep s s' i := by
  have hlt := h.lt
  have hhigh := h.high
  have htop : s'.sktop = s.sktop + i.pushed := hgrows.sktop
  have hself : s'.mem.word s.skbot = w.bits := by
    rw [hgrows.frame _ (.inl (by show s.skbot < s.sktop; omega))]
    exact Function.update_self ..
  refine ⟨hgrows.child, ?_, htop, hgrows.byte, fun a ha ha' => ?_, fun w' hw' => ?_,
    fun hnone => ?_, Int.le_trans (Int.le_max_left _ _) hgrows.mono, hgrows.high ?_, hgrows.reach,
    hparts⟩
  · rw [hgrows.skbot, hone]
    rfl
  · rw [hgrows.frame a (by show a < s.sktop ∨ s.sktop + i.pushed ≤ a; omega)]
    exact Function.update_of_ne ha ..
  · obtain rfl := Option.some.inj (hw.symm.trans hw')
    rw [Memory.read, hself, Word.ofBits_bits]
  · cases hw.symm.trans hnone
  · show max s.high s.skbot < s.sktop
    omega

/-- Nothing is written to the source. -/
theorem Plain.source (h : Scanning A keep move s es (i :: q)) (hs : Plain A keep s s' i)
    (htop : s'.sktop ≤ s.child.tt) (a : Int) (ha : A.word a) : s'.mem.word a = s.mem.word a := by
  have := h.words a ha
  have := h.base
  have := h.st
  have := h.lt
  have := h.top
  exact hs.frame a (by omega) (by omega)

/-- A constant that is the same everywhere. -/
theorem scanConst_same {c : Int} (h : IsSame c) (fuel : ℕ) (name_base : Int) :
    s.scanConst fuel name_base (.cst c) = some (s.settle (.cst c)) := by
  rw [Copy.scanConst]
  by_cases hfirst : (Word.cst c).isInt ∨ Word.cst c = conNil
  · rw [if_pos hfirst]
  · obtain ⟨hmark, hvalue⟩ : Word.cst c ≠ .fvlTag ∧ (Word.cst c).funValue < ASCII_SIZE := by
      rcases h with h | h | h
      · exact absurd (.inl h) hfirst
      · exact absurd (.inr h) hfirst
      · exact h
    rw [if_neg hfirst, if_neg hmark, if_pos hvalue]

/-- A name. -/
theorem comes_scanConst_name {c : Int} {pcon : CString} {name_base : Int} {o : Option Copy}
    (hsame : ¬ IsSame c) (hmark : Word.cst c ≠ .fvlTag)
    (hat : At s.mem.byte (name_base + ((Word.cst c).funValue - ASCII_SIZE)) pcon.packed)
    (ho : Fuel.Comes (fun n => s.intern n pcon.chars (Word.cst c).arity) o) :
    Fuel.Comes (fun n => s.scanConst n name_base (.cst c)) o := by
  have hfirst : ¬ ((Word.cst c).isInt ∨ Word.cst c = conNil) := by
    rintro (h | h)
    · exact hsame (.inl h)
    · exact hsame (.inr (.inl h))
  have hvalue : ¬ (Word.cst c).funValue < ASCII_SIZE := fun h => hsame (.inr (.inr ⟨hmark, h⟩))
  have hbind := (comes_nameAt pcon hat).bind (k := fun n p => s.intern n p (Word.cst c).arity) ho
  refine hbind.congr fun n => ?_
  rw [Copy.scanConst, if_neg hfirst, if_neg hmark, if_neg hvalue]

/-- Settled without parts. -/
theorem Plain.settle (h : Scanning A keep move s es (i :: q)) {w : Word} (hone : i.words = 1)
    (hw : i.settled s.skbot s.sktop = some w) (hnil : i.children = []) :
    Plain A keep s (s.settle w) i := by
  have hpushed : i.pushed = 0 := by rw [Item.pushed, hnil]; rfl
  refine .of_settle h hone hw (by rw [hpushed]; exact Copy.grows_refl _) fun _ => ?_
  rw [hnil]
  exact .nil

/-- `n` words of the source are written behind a settled word. -/
theorem Scanning.copied (h : Scanning A keep move s es (i :: q)) (w : Word) {n : ℕ} {p : Int}
    (hp : ∀ j : ℕ, j < n → A.word (p + j)) (htop : s.sktop + n ≤ s.child.tt) :
    (∀ j : ℕ, j < n → (Copy.pushCells n p (s.settle w)).mem.word (s.sktop + j) =
      s.mem.word (p + j)) ∧
    ∀ a, A.word a → (Copy.pushCells n p (s.settle w)).mem.word a = s.mem.word a := by
  obtain ⟨hgrows, hcells⟩ := Copy.pushCells_spec n p (s.settle w)
  have hlt := h.lt
  have hbase := h.base
  have hst := h.st
  have htt := h.top
  have hsettle : ∀ a, A.word a → (s.settle w).mem.word a = s.mem.word a := fun a ha => by
    have := h.words a ha
    exact Function.update_of_ne (by omega) ..
  have hapart : ∀ a, A.word a → a < s.sktop ∨ s.sktop + n ≤ a := fun a ha => by
    have := h.words a ha
    omega
  refine ⟨fun j hj => ?_, fun a ha => ?_⟩
  · have hj' := hcells (fun k hk => hapart _ (hp k hk)) j hj
    exact hj'.trans (hsettle _ (hp j hj))
  · rw [hgrows.frame a (hapart a ha)]
    exact hsettle a ha

/-- Terms one after the other. -/
theorem pending_terms {a : Int} {ts : List (Term Sym Int)}
    (h : ∀ i : ℕ, ∀ t, ts[i]? = some t → Reads A m (m.read (a + i)) t) :
    Pending A keep m (a + ts.length) a (ts.map .term) := by
  induction ts generalizing a with
  | nil =>
    rw [List.length_nil, Int.natCast_zero, Int.add_zero]
    exact .nil
  | cons t ts ih =>
    have hend : a + ((t :: ts).length : ℕ) = a + 1 + ts.length := by
      rw [List.length_cons]
      omega
    rw [hend]
    refine .cons (.term (by simpa using h 0 t rfl)) (ih fun i u hu => ?_)
    have hplace : a + 1 + (i : ℕ) = a + ((i + 1 : ℕ) : Int) := by omega
    rw [hplace]
    exact h (i + 1) u hu

/-- **A list.** -/
theorem plain_list (h : Scanning A keep move s es (i :: q)) {p : Int} {t u : Term Sym Int}
    (hi : i = .term (.app .list [t, u])) (hp : A.word p) (hp' : A.word (p + 1))
    (ht : Reads A s.mem (s.mem.read p) t) (hu : Reads A s.mem (s.mem.read (p + 1)) u) :
    Plain A keep s (Copy.pushCells 2 p (s.settle (.lis s.sktop))) i := by
  subst hi
  have hgrows := (Copy.pushCells_spec 2 p (s.settle (.lis s.sktop))).1
  have hend : (Copy.pushCells 2 p (s.settle (.lis s.sktop))).sktop = s.sktop + (2 : ℕ) :=
    hgrows.sktop
  refine .of_settle h rfl rfl hgrows fun htop => ?_
  have hwords : ∀ j : ℕ, j < 2 → A.word (p + j) := by
    intro j hj
    rcases (by omega : j = 0 ∨ j = 1) with rfl | rfl
    · simpa using hp
    · exact hp'
  obtain ⟨hcells, hsource⟩ := h.copied (.lis s.sktop) hwords (hend ▸ htop)
  have hbyte : ∀ b, A.byte b → (Copy.pushCells 2 p (s.settle (.lis s.sktop))).mem.byte b =
      s.mem.byte b := fun b _ => congrFun hgrows.byte b
  rw [hend]
  show Pending A keep _ (s.sktop + ([t, u].length : ℕ)) s.sktop ([t, u].map .term)
  refine pending_terms fun j x hx => ?_
  have hj : j < 2 := (List.getElem?_eq_some_iff.1 hx).1
  rw [read_eq (hcells j hj)]
  refine Reads.congr ?_ hsource hbyte
  rcases (by omega : j = 0 ∨ j = 1) with rfl | rfl
  · obtain rfl := Option.some.inj hx
    simpa using ht
  · obtain rfl := Option.some.inj hx
    exact hu

/-- **A structure.** -/
theorem plain_str (h : Scanning A keep move s es (i :: q)) {p c : Int} {k : Const}
    {ts : List (Term Sym Int)} (hi : i = .term (.app (.str k) ts)) (hp : A.word p)
    (hfun : s.mem.read p = .cst c) (hk : Spells A s.mem.byte c k)
    (hargs : ∀ j : ℕ, j < ts.length → A.word (p + 1 + j))
    (hts : ∀ j : ℕ, ∀ t, ts[j]? = some t → Reads A s.mem (s.mem.read (p + 1 + j)) t) :
    Plain A keep s (Copy.pushCells (ts.length + 1) p (s.settle (.str s.sktop))) i := by
  subst hi
  have hgrows := (Copy.pushCells_spec (ts.length + 1) p (s.settle (.str s.sktop))).1
  have hpushed : (Item.term (.app (.str k) ts)).pushed = ts.length + 1 := by
    rw [Item.pushed_eq, Item.children, queueWords_cons, queueWords_terms, Item.words_functor,
      Nat.add_comm]
  have hend : (Copy.pushCells (ts.length + 1) p (s.settle (.str s.sktop))).sktop =
      s.sktop + (ts.length + 1 : ℕ) := hgrows.sktop
  refine .of_settle h rfl rfl (by rw [hpushed]; exact hgrows) fun htop => ?_
  have hplace : ∀ j : ℕ, p + ((j + 1 : ℕ) : Int) = p + 1 + j := fun j => by omega
  have hwords : ∀ j : ℕ, j < ts.length + 1 → A.word (p + j) := by
    intro j hj
    cases j with
    | zero => simpa using hp
    | succ j =>
      rw [hplace]
      exact hargs j (by omega)
  obtain ⟨hcells, hsource⟩ := h.copied (.str s.sktop) hwords (hend ▸ htop)
  have hbyte : ∀ b, A.byte b → (Copy.pushCells (ts.length + 1) p
      (s.settle (.str s.sktop))).mem.byte b = s.mem.byte b := fun b _ => congrFun hgrows.byte b
  have hend' : s.sktop + ((ts.length + 1 : ℕ) : Int) = s.sktop + 1 + ts.length := by omega
  rw [hend, hend']
  refine .cons (.functor (c := c) ?_ (hk.congr hbyte)) (pending_terms fun j t ht => ?_)
  · rw [← hfun]
    exact read_eq (by simpa using hcells 0 (by omega))
  · have hj := (List.getElem?_eq_some_iff.1 ht).1
    have hcell := hcells (j + 1) (by omega)
    have hplace' : s.sktop + ((j + 1 : ℕ) : Int) = s.sktop + 1 + j := by omega
    rw [hplace, hplace'] at hcell
    rw [read_eq hcell]
    exact (hts j t ht).congr hsource hbyte

/-- **A double.** -/
theorem plain_double (h : Scanning A keep move s es (i :: q)) {p : Int} (hp₁ : A.word (p + 1))
    (hp₂ : A.word (p + 2))
    (hi : i = .term (.app (.double (s.mem.word (p + 1)) (s.mem.word (p + 2))) [])) :
    Plain A keep s (Copy.pushCells 2 (p + 1) ((s.settle (.str s.sktop)).push .fvlTag)) i := by
  subst hi
  have hmark := Copy.grows_push (s.settle (.str s.sktop)) .fvlTag
  obtain ⟨hdata, hcells⟩ := Copy.pushCells_spec 2 (p + 1) ((s.settle (.str s.sktop)).push .fvlTag)
  have hgrows := hmark.trans hdata
  have hlt := h.lt
  have hbase := h.base
  have hst := h.st
  have htop₁ : ((s.settle (.str s.sktop)).push .fvlTag).sktop = s.sktop + 1 := rfl
  have hend := hdata.sktop
  refine .of_settle h rfl rfl hgrows fun htop => ?_
  have hplace : ∀ j : ℕ, j < 2 → A.word (p + 1 + j) := by
    intro j hj
    rcases (by omega : j = 0 ∨ j = 1) with rfl | rfl
    · simpa using hp₁
    · rw [Int.add_assoc]
      exact hp₂
  have hapart : ∀ j : ℕ, j < 2 → p + 1 + (j : Int) < s.sktop + 1 ∨
      s.sktop + 1 + (2 : ℕ) ≤ p + 1 + (j : Int) := by
    intro j hj
    have := h.words _ (hplace j hj)
    omega
  have hword : (Copy.pushCells 2 (p + 1) ((s.settle (.str s.sktop)).push .fvlTag)).mem.word
    s.sktop =
      Word.fvlTag.bits := by
    rw [hdata.frame _ (.inl (by omega))]
    exact Function.update_self ..
  -- the data are still what they have been in the source
  have hcell : ∀ j : ℕ, j < 2 → (Copy.pushCells 2 (p + 1)
      ((s.settle (.str s.sktop)).push .fvlTag)).mem.word (s.sktop + 1 + j) =
        s.mem.word (p + 1 + j) := by
    intro j hj
    have := h.words _ (hplace j hj)
    refine (hcells hapart j hj).trans ?_
    rw [hmark.frame _ (by show _ < s.sktop ∨ s.sktop + _ ≤ _; omega)]
    exact Function.update_of_ne (by omega) ..
  have hstop : (Copy.pushCells 2 (p + 1) ((s.settle (.str s.sktop)).push .fvlTag)).sktop =
      s.sktop + ((Item.double (s.mem.word (p + 1)) (s.mem.word (p + 2))).words : ℕ) := by
    rw [hend, htop₁, Item.words_double]
    omega
  rw [hstop]
  refine pending_single (.double ?_ fun _ => ⟨?_, ?_⟩)
  · rw [Memory.read, hword, Word.ofBits_bits]
  · simpa using hcell 0 (by decide)
  · have := hcell 1 (by decide)
    rwa [Int.add_assoc, Int.add_assoc] at this

/-- The source is read behind the settled word. -/
theorem Scanning.read_settle (h : Scanning A keep move s es (i :: q)) {p : Int} (hp : A.word p)
    (w : Word) : (s.settle w).mem.read p = s.mem.read p := by
  have := h.words p hp
  have := h.lt
  have := h.base
  have := h.st
  have := h.top
  exact Memory.read_write_of_ne _ (by omega) _

theorem comes_deref_cst {a c : Int} (h : m.read a = .cst c) :
    Fuel.Comes (fun n => deref m n (m.read a)) (some (.cst c)) := by
  rw [h]
  exact comes_deref_of_ne (by simp)

/-- **One round on an item without a name.** -/
theorem scan_plain (h : Scanning A keep move s es (i :: q)) (hname : i.name = none) :
    ∃ s', Fuel.Comes (fun n => s.scan n A.name_base) (some s') ∧ Plain A keep s s' i := by
  have hholds := (pending_cons.1 h.pending).1
  cases hholds with
  | term hterm =>
    obtain ⟨root, hroot, hshows⟩ := hterm.deref
    cases hshows with
    | unbound ha hself => exact ⟨_, hroot.bind (Fuel.comes_const _), .settle h rfl rfl rfl⟩
    | con hk =>
      cases hk with
      | same hsame =>
        refine ⟨_, hroot.bind ((Fuel.comes_const _).congr fun n => ?_), .settle h rfl rfl rfl⟩
        exact scanConst_same hsame n A.name_base
      | name => cases hname
    | list hp hp' ht hu =>
      exact ⟨_, hroot.bind (Fuel.comes_const _), plain_list h rfl hp hp' ht hu⟩
    | double hp hp₁ hp₂ hmark =>
      have hmark' := (h.read_settle hp (.str s.sktop)).trans hmark
      refine ⟨_, hroot.bind (((comes_derefstr hmark').map _).congr fun n => rfl), ?_⟩
      rw [if_pos hmark']
      exact plain_double h hp₁ hp₂ rfl
    | str hp hfun hk har hargs hts =>
      have hfun' := (h.read_settle hp (.str s.sktop)).trans hfun
      refine ⟨_, hroot.bind (((comes_derefstr hfun').map _).congr fun n => rfl), ?_⟩
      rw [if_neg (by rw [hfun']; exact hk.ne_mark), hfun', har]
      exact plain_str h rfl hp hfun hk hargs hts
  | functor hc hk =>
    cases hk with
    | same hsame =>
      refine ⟨_, (comes_deref_cst hc).bind ((Fuel.comes_const _).congr fun n => ?_),
        .settle h rfl rfl rfl⟩
      exact scanConst_same hsame n A.name_base
    | name => cases hname
  | double hmark _ =>
    refine ⟨{ s with skbot := s.skbot + 3 },
      (comes_deref_cst hmark).bind ((Fuel.comes_const _).congr fun n => ?_), ?_⟩
    · show s.scanConst n A.name_base .fvlTag = _
      rw [Copy.scanConst, if_neg (by decide), if_pos rfl]
    · exact ⟨rfl, rfl, by simp [Item.pushed, Item.children], rfl, fun _ _ _ => rfl,
        fun w hw => (by cases hw), fun _ => rfl, Int.le_refl _, h.high,
        fun hpos => absurd hpos (by simp [Item.pushed, Item.children]), fun _ => .nil⟩

/-- **The invariant** after a round on an item without a name. -/
theorem Scanning.plain (h : Scanning A keep move s es (i :: q)) (hs : Plain A keep s s' i)
    (htop : s'.sktop ≤ s.child.tt) : Scanning A keep move s' es (q ++ i.children) := by
  have hsource := hs.source h htop
  have hlt := h.lt
  have hst := h.st
  have hsktop := hs.sktop
  have hbyte : ∀ b, A.byte b → s'.mem.byte b = s.mem.byte b := fun b _ => congrFun hs.byte b
  refine ⟨?_, ?_, ?_, ?_, ?_, ?_, ?_, hs.high, ?_⟩
  · exact ⟨by rw [hs.child, hs.byte]; exact h.table.names, by rw [hs.child]; exact h.table.name_top,
      by rw [hs.child]; exact h.table.room⟩
  · refine Pending.append ?_ (hs.parts htop)
    rw [hs.skbot]
    refine (pending_cons.1 h.pending).2.congr hsource hbyte fun x hx hx' => ?_
    exact hs.frame x (by omega) (.inl hx')
  · rw [hs.child]
    exact h.words
  · rw [hs.child]
    exact h.bytes
  · rw [hs.child]
    exact h.base
  · rw [hs.child, hs.skbot]
    omega
  · rw [hs.child]
    exact htop
  · intro hk hm
    obtain ⟨hmarked, hfirst, hclean⟩ := h.seen hk hm
    have hholds := (pending_cons.1 h.pending).1
    have hbase := h.base
    -- the word that is settled is no mark, before or after
    have hself : s'.mem.word s.skbot = -1 ↔ s.mem.word s.skbot = -1 := by
      cases hw : i.settled s.skbot s.sktop with
      | none => rw [hs.kept hw]
      | some w =>
        refine iff_of_false (fun h => ?_) fun h => ?_
        · exact hholds.settled_ne hw ((hs.cell w hw).symm.trans (read_eq_mark.2 h))
        · obtain ⟨w₁, w₂, rfl⟩ := hholds.eq_double h
          cases hw
    have hsame : ∀ a, a < s.sktop → (s'.mem.word a = -1 ↔ s.mem.word a = -1) := by
      intro a ha
      by_cases hskbot : a = s.skbot
      · rw [hskbot]
        exact hself
      · rw [hs.frame a hskbot (.inl ha)]
    have hfirstItem : Marked s.mem.word s.child.stack_base (s.skbot + i.words) :=
      (pending_single hholds).marked hk (fun j hj => hclean j (by
        rw [List.mem_singleton.1 hj]
        exact List.mem_cons_self)) hmarked
    rw [hs.child, hs.skbot]
    refine ⟨hfirstItem.congr fun a _ ha => hsame a (by omega), ?_, ?_⟩
    · rw [Ne, hsame _ (by omega)]
      exact hfirst
    · intro j hj
      rcases List.mem_append.1 hj with hj | hj
      · exact hclean j (List.mem_cons_of_mem _ hj)
      · exact (hclean _ List.mem_cons_self).children j hj

end Settle

end Mlvm.Creator
