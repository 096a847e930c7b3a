import Mlvm.Creator.Source
import Mlvm.LevelOrder.Queue

/-!
# The level walk of a term

What a copy has to take in, without the memory: the term is gone through level by level.

**Items.** What stands in the words that are still to be scanned: terms, functors and doubles. A
term brings its parts along as new items (`Item.children`).

**`Walk`** says when there is room for everything that comes up. `free` words are there for the
copy, `used` of them are taken; the name table has the names `es` and `room` bytes behind them.
Whether the stack can be moved up for the name table (`move`), and which indices a constant of some
arity can hold (`index`), are parameters.
-/

namespace Mlvm.Creator

open FirstOrder StringTable

/-! ## Items -/

/-- What is still to be scanned. -/
inductive Item where
  | term (t : Term Sym Int)
  | functor (c : Const)
  | double (w₁ w₂ : Int)

/-- No data of a double look like the mark of one. -/
inductive Seen : Term Sym Int → Prop
  | var (v : Int) : Seen (.var v)
  | app {f : Sym} {ts : List (Term Sym Int)} :
      (∀ w₁ w₂, f = .double w₁ w₂ → w₁ ≠ -1 ∧ w₂ ≠ -1) → (∀ t ∈ ts, Seen t) → Seen (.app f ts)

namespace Item

/-- The words of an item. -/
def words : Item → ℕ
  | double _ _ => 3
  | _ => 1

@[simp] theorem words_term (t : Term Sym Int) : (term t).words = 1 := rfl

@[simp] theorem words_functor (c : Const) : (functor c).words = 1 := rfl

@[simp] theorem words_double (w₁ w₂ : Int) : (double w₁ w₂).words = 3 := rfl

theorem words_pos (i : Item) : 0 < i.words := by cases i <;> simp

/-- The parts of a term. -/
def children : Item → List Item
  | term (.app .list ts) => ts.map term
  | term (.app (.str c) ts) => functor c :: ts.map term
  | term (.app (.double w₁ w₂) _) => [double w₁ w₂]
  | _ => []

/-- The name that has to be looked up. -/
def name : Item → Option CString
  | term (.app (.con (.name s _)) _) => some s
  | functor (.name s _) => some s
  | _ => none

/-- The arity that stands with the name. -/
def arity : Item → ℕ
  | term (.app (.con (.name _ n)) _) => n
  | functor (.name _ n) => n
  | _ => 0

/-- What the word of an item becomes, except for a name and for the mark of a double. -/
def settled (skbot sktop : Int) : Item → Option Word
  | term (.var _) => some (.ref skbot)
  | term (.app (.con (.same c)) _) => some (.cst c)
  | term (.app .list _) => some (.lis sktop)
  | term (.app (.str _) _) => some (.str sktop)
  | term (.app (.double _ _) _) => some (.str sktop)
  | functor (.same c) => some (.cst c)
  | _ => none

/-- The words that an item brings along. -/
def pushed (i : Item) : ℕ := (i.children.map words).sum

def weight : Item → ℕ
  | term t => 2 * t.size
  | _ => 1

theorem sum_weight_terms (ts : List (Term Sym Int)) :
    ((ts.map term).map weight).sum = 2 * (ts.map Term.size).sum := by
  induction ts with
  | nil => rfl
  | cons t ts ih =>
    simp only [List.map_cons, List.sum_cons, ih, weight]
    omega

theorem weight_children (i : Item) : (i.children.map weight).sum < i.weight := by
  rcases i with (v | ⟨f, ts⟩) | c | ⟨w₁, w₂⟩
  · simp [children, weight]
  · cases f with
    | con c => simp [children, weight]
    | list =>
      simp only [children, sum_weight_terms, weight, Term.size_app]
      omega
    | str c =>
      simp only [children, List.map_cons, List.sum_cons, sum_weight_terms, weight, Term.size_app]
      omega
    | double w₁ w₂ =>
      simp only [children, List.map_cons, List.map_nil, List.sum_cons, List.sum_nil, weight,
        Term.size_app]
      omega
  · simp [children, weight]
  · simp [children, weight]

def Clean : Item → Prop
  | term t => Seen t
  | functor _ => True
  | double w₁ w₂ => w₁ ≠ -1 ∧ w₂ ≠ -1

theorem Clean.children {i : Item} (h : i.Clean) : ∀ j ∈ i.children, j.Clean := by
  rcases i with (v | ⟨f, ts⟩) | c | ⟨w₁, w₂⟩
  · exact fun j hj => absurd hj List.not_mem_nil
  · obtain ⟨⟩ | ⟨hdata, hts⟩ := h
    have hterms : ∀ j ∈ ts.map term, j.Clean := by
      intro j hj
      obtain ⟨t, ht, rfl⟩ := List.mem_map.1 hj
      exact hts t ht
    cases f with
    | con c => exact fun j hj => absurd hj List.not_mem_nil
    | list => exact hterms
    | str c =>
      intro j hj
      rcases List.mem_cons.1 hj with rfl | hj
      · trivial
      · exact hterms j hj
    | double w₁ w₂ =>
      intro j hj
      obtain rfl := List.mem_singleton.1 hj
      exact hdata w₁ w₂ rfl
  · exact fun j hj => absurd hj List.not_mem_nil
  · exact fun j hj => absurd hj List.not_mem_nil

/-- Along a queue of items. -/
theorem queue_induction {motive : List Item → Prop} (nil : motive [])
    (cons : ∀ i q, motive (q ++ i.children) → motive (i :: q)) (q : List Item) : motive q :=
  LevelOrder.queue_induction weight_children nil cons q

/-- An item with a name has no parts. -/
theorem children_of_name {i : Item} {s : CString} (h : i.name = some s) : i.children = [] := by
  rcases i with (v | ⟨f, ts⟩) | c | ⟨w₁, w₂⟩
  · cases h
  · cases f with
    | con c => rfl
    | _ => cases h
  · rfl
  · cases h

end Item

/-- The words of the items of a queue. -/
def queueWords (q : List Item) : ℕ := (q.map Item.words).sum

@[simp] theorem queueWords_nil : queueWords [] = 0 := rfl

@[simp] theorem queueWords_cons (i : Item) (q : List Item) :
    queueWords (i :: q) = i.words + queueWords q := by simp [queueWords]

theorem Item.pushed_eq (i : Item) : i.pushed = queueWords i.children := rfl

@[simp] theorem queueWords_terms (ts : List (Term Sym Int)) :
    queueWords (ts.map Item.term) = ts.length := by
  induction ts with
  | nil => rfl
  | cons t ts ih => simp [ih, Item.words, Nat.add_comm]

/-! ## The walk -/

/-- **There is room** for everything that comes up in the queue, to the end (`true`) or until no
more than six words are left (`false`). -/
inductive Walk (move : Prop) (index : ℕ → ℕ → Prop) :
    Int → Int → List CString → Int → List Item → Bool → Prop
  | done {free used : Int} {es : List CString} {room : Int} : used < free →
      Walk move index free used es room [] true
  | full {free used : Int} {es : List CString} {room : Int} {i : Item} {q : List Item} :
      free - 6 ≤ used → used ≤ free → Walk move index free used es room (i :: q) false
  | parts {free used : Int} {es : List CString} {room : Int} {i : Item} {q : List Item} {b : Bool} :
      used < free - 6 → i.name = none → used + i.pushed ≤ free →
      Walk move index free (used + i.pushed) es room (q ++ i.children) b →
      Walk move index free used es room (i :: q) b
  | known {free used : Int} {es : List CString} {room : Int} {i : Item} {q : List Item} {b : Bool}
      {s : CString} : used < free - 6 → i.name = some s → s ∈ es →
      (∀ k, IndexOf es s k → index i.arity k) →
      Walk move index free used es room q b →
      Walk move index free used es room (i :: q) b
  | fits {free used : Int} {es : List CString} {room : Int} {i : Item} {q : List Item} {b : Bool}
      {s : CString} : used < free - 6 → i.name = some s → s ∉ es →
      index i.arity (pack es).length → s.chars.length < room →
      Walk move index free used (es ++ [s]) (room - (s.chars.length + 1)) q b →
      Walk move index free used es room (i :: q) b
  | moved {free used : Int} {es : List CString} {room : Int} {i : Item} {q : List Item} {b : Bool}
      {s : CString} : used < free - 6 → i.name = some s → s ∉ es →
      index i.arity (pack es).length → move → room ≤ s.chars.length →
        s.chars.length < room + 4 * nameExpWords →
      used + nameExpWords ≤ free →
      Walk move index (free - nameExpWords) used (es ++ [s])
        (room + 4 * nameExpWords - (s.chars.length + 1)) q b →
      Walk move index free used es room (i :: q) b

variable {move : Prop} {index : ℕ → ℕ → Prop} {free used room : Int} {es : List CString} {i : Item}
  {q : List Item} {b : Bool} {s : CString}

/-- With fewer demands there is still room. -/
theorem Walk.mono {move' : Prop} {index' : ℕ → ℕ → Prop}
    (h : Walk move index free used es room q b) (hmove : move → move')
    (hindex : ∀ n k, index n k → index' n k) : Walk move' index' free used es room q b := by
  induction h with
  | done hfree => exact .done hfree
  | full hle hfree => exact .full hle hfree
  | parts hused hname hpushed _ ih => exact .parts hused hname hpushed ih
  | known hused hname hmem hk _ ih =>
    exact .known hused hname hmem (fun k hs => hindex _ k (hk k hs)) ih
  | fits hused hname hmem hk hroom _ ih => exact .fits hused hname hmem (hindex _ _ hk) hroom ih
  | moved hused hname hmem hk hm hroom hlong hfree _ ih =>
    exact .moved hused hname hmem (hindex _ _ hk) (hmove hm) hroom hlong hfree ih

theorem walk_nil_iff : Walk move index free used es room [] b ↔ used < free ∧ b = true := by
  constructor
  · rintro ⟨h⟩
    exact ⟨h, rfl⟩
  · rintro ⟨h, rfl⟩
    exact .done h

theorem walk_full_iff (h : free - 6 ≤ used) :
    Walk move index free used es room (i :: q) b ↔ used ≤ free ∧ b = false := by
  constructor
  · intro hwalk
    cases hwalk with
    | full _ hle => exact ⟨hle, rfl⟩
    | _ hlt => omega
  · rintro ⟨hle, rfl⟩
    exact .full h hle

theorem walk_parts_iff (h : used < free - 6) (hname : i.name = none) :
    Walk move index free used es room (i :: q) b ↔
      used + i.pushed ≤ free ∧
        Walk move index free (used + i.pushed) es room (q ++ i.children) b := by
  constructor
  · intro hwalk
    cases hwalk with
    | full hle _ => omega
    | parts _ _ hpushed hrest => exact ⟨hpushed, hrest⟩
    | known _ hs => cases hname.symm.trans hs
    | fits _ hs => cases hname.symm.trans hs
    | moved _ hs => cases hname.symm.trans hs
  · rintro ⟨hpushed, hrest⟩
    exact .parts h hname hpushed hrest

theorem walk_known_iff (h : used < free - 6) (hname : i.name = some s) (hmem : s ∈ es) :
    Walk move index free used es room (i :: q) b ↔
      (∀ k, IndexOf es s k → index i.arity k) ∧ Walk move index free used es room q b := by
  constructor
  · intro hwalk
    cases hwalk with
    | full hle _ => omega
    | parts _ hnone => cases hname.symm.trans hnone
    | known _ hs _ hindex hrest =>
      obtain rfl := Option.some.inj (hname.symm.trans hs)
      exact ⟨hindex, hrest⟩
    | fits _ hs hnot =>
      obtain rfl := Option.some.inj (hname.symm.trans hs)
      exact absurd hmem hnot
    | moved _ hs hnot =>
      obtain rfl := Option.some.inj (hname.symm.trans hs)
      exact absurd hmem hnot
  · rintro ⟨hindex, hrest⟩
    exact .known h hname hmem hindex hrest

theorem walk_fits_iff (h : used < free - 6) (hname : i.name = some s) (hmem : s ∉ es)
    (hroom : s.chars.length < room) :
    Walk move index free used es room (i :: q) b ↔
      index i.arity (pack es).length ∧
        Walk move index free used (es ++ [s]) (room - (s.chars.length + 1)) q b := by
  constructor
  · intro hwalk
    cases hwalk with
    | full hle _ => omega
    | parts _ hnone => cases hname.symm.trans hnone
    | known _ hs hin =>
      obtain rfl := Option.some.inj (hname.symm.trans hs)
      exact absurd hin hmem
    | fits _ hs _ hindex _ hrest =>
      obtain rfl := Option.some.inj (hname.symm.trans hs)
      exact ⟨hindex, hrest⟩
    | moved _ hs _ _ _ hlong =>
      obtain rfl := Option.some.inj (hname.symm.trans hs)
      omega
  · rintro ⟨hindex, hrest⟩
    exact .fits h hname hmem hindex hroom hrest

theorem walk_moved_iff (h : used < free - 6) (hname : i.name = some s) (hmem : s ∉ es)
    (hroom : room ≤ s.chars.length) :
    Walk move index free used es room (i :: q) b ↔
      move ∧ s.chars.length < room + 4 * nameExpWords ∧ used + nameExpWords ≤ free ∧
        index i.arity (pack es).length ∧
        Walk move index (free - nameExpWords) used (es ++ [s])
          (room + 4 * nameExpWords - (s.chars.length + 1)) q b := by
  constructor
  · intro hwalk
    cases hwalk with
    | full hle _ => omega
    | parts _ hnone => cases hname.symm.trans hnone
    | known _ hs hin =>
      obtain rfl := Option.some.inj (hname.symm.trans hs)
      exact absurd hin hmem
    | fits _ hs _ _ hlong =>
      obtain rfl := Option.some.inj (hname.symm.trans hs)
      omega
    | moved _ hs _ hindex hmove _ hlong hfree hrest =>
      obtain rfl := Option.some.inj (hname.symm.trans hs)
      exact ⟨hmove, hlong, hfree, hindex, hrest⟩
  · rintro ⟨hmove, hlong, hfree, hindex, hrest⟩
    exact .moved h hname hmem hindex hmove hroom hlong hfree hrest

end Mlvm.Creator
