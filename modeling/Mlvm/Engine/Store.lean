import Mlvm.Engine.State
import Mlvm.FirstOrder.Graph

/-!
# Stores of terms

The stack read as a term graph: every tagged cell is a node, a reference or a symbol with its
argument cells.

* `view` — the node a word stands for.
* `WellFormed` — a finite set of tagged cells, closed under references, list pointers and structure
  pointers, with the functor words and the data words of doubles outside of what can be bound.
* `graph_assign` — binding an unbound cell rebinds its node and no other.
-/

namespace Mlvm

open FirstOrder

/-- The symbols of the store: constants, the list pair, functors and doubles. -/
inductive Sym where
  | con (w : Word)
  | list
  | str (f : Word)
  | float (w₁ w₂ : Word)
  deriving DecidableEq, Repr

/-- The `n` argument cells above the functor at `p`. -/
def argCells (p : Int) (n : Nat) : List Int := (List.range n).map fun i => p + 1 + ↑i

/-- The node a word stands for. -/
def view (mem : Int → Word) : Word → Node Sym Int
  | .ref a => .ref a
  | .lis p => .app .list [p, p + 1]
  | .str p =>
    if mem p = .fvlTag then .app (.float (mem (p + 1)) (mem (p + 2))) []
    else .app (.str (mem p)) (argCells p (mem p).arity)
  | .cst n => .app (.con (.cst n)) []

/-- The node of every tagged cell. -/
def graph (mem : Int → Word) (cells : Finset Int) : TermGraph Sym Int := fun a =>
  if a ∈ cells then view mem (mem a) else .ref a

/-- The word leads to tagged cells at or below `top`. The data words of a double are not tagged
cells. -/
def Placed (mem : Int → Word) (cells : Finset Int) (top : Int) : Word → Prop
  | .ref a => a ∈ cells
  | .lis p => p ∈ cells ∧ p + 1 ∈ cells
  | .str p =>
    if mem p = .fvlTag then p + 1 ∉ cells ∧ p + 2 ∉ cells ∧ p + 2 ≤ top
    else p ≤ top ∧ (mem p).isCst ∧ 1 ≤ (mem p).arity ∧ ∀ a ∈ argCells p (mem p).arity, a ∈ cells
  | .cst _ => True

/-- A store of tagged cells, all at or below `top`. -/
structure WellFormed (mem : Int → Word) (cells : Finset Int) (top : Int) : Prop where
  below : ∀ a ∈ cells, a ≤ top
  placed : ∀ a ∈ cells, Placed mem cells top (mem a)

/-- A well-formed store in which every cell denotes a finite term: reference chains end, and lists
and structures are acyclic. -/
structure Acyclic (mem : Int → Word) (cells : Finset Int) (top : Int) : Prop extends
    WellFormed mem cells top where
  denotes : Denotes (· ∈ cells) (graph mem cells)

variable {mem mem' : Int → Word} {cells : Finset Int} {top : Int}

theorem graph_of_mem {a : Int} (ha : a ∈ cells) : graph mem cells a = view mem (mem a) :=
  if_pos ha

theorem view_eq_ref {w : Word} {a : Int} : view mem w = .ref a ↔ w = .ref a := by
  cases w with
  | str p => simp only [view]; split <;> simp
  | _ => simp [view]

theorem graph_eq_ref {a b : Int} (ha : a ∈ cells) : graph mem cells a = .ref b ↔
    mem a = .ref b := by
  rw [graph_of_mem ha, view_eq_ref]

theorem Placed.view_in {w : Word} (h : Placed mem cells top w) : (view mem w).In (· ∈ cells) := by
  cases w with
  | ref a => exact h
  | lis p =>
    obtain ⟨h₁, h₂⟩ := h
    intro a ha
    rcases List.mem_cons.1 ha with rfl | ha
    · exact h₁
    · rw [List.mem_singleton.1 ha]; exact h₂
  | str p =>
    simp only [view]
    simp only [Placed] at h
    split
    · simp [Node.In]
    · rw [if_neg ‹_›] at h
      exact h.2.2.2
  | cst n => simp [view, Node.In]

theorem WellFormed.closed (h : WellFormed mem cells top) : Closed (· ∈ cells) (graph mem cells) :=
  fun a ha => by
    rw [graph_of_mem ha]
    exact (h.placed a ha).view_in

/-! ## What a binding and a push leave alone -/

/-- The words that are not tagged cells, and the constants, are the same. -/
def Agree (mem mem' : Int → Word) (cells : Finset Int) (top : Int) : Prop :=
  ∀ q ≤ top, q ∉ cells ∨ (mem q).isCst → mem' q = mem q

theorem Agree.view (h : Agree mem mem' cells top) {w : Word} (hw : Placed mem cells top w) :
    view mem' w = view mem w := by
  cases w with
  | str p =>
    simp only [Placed] at hw
    by_cases hf : mem p = .fvlTag
    · rw [if_pos hf] at hw
      have hp : mem' p = mem p := h p (by omega) (Or.inr (by rw [hf]; rfl))
      simp only [Mlvm.view, hp, hf, if_true, h (p + 1) (by omega) (Or.inl hw.1),
        h (p + 2) hw.2.2 (Or.inl hw.2.1)]
    · rw [if_neg hf] at hw
      simp only [Mlvm.view, h p hw.1 (Or.inr hw.2.1), if_neg hf]
  | _ => rfl

theorem Agree.placed (h : Agree mem mem' cells top) {w : Word} (hw : Placed mem cells top w) :
    Placed mem' cells top w := by
  cases w with
  | str p =>
    have hp : mem' p = mem p := by
      simp only [Placed] at hw
      split at hw
      · exact h p (by omega) (Or.inr (by rw [‹mem p = _›]; rfl))
      · exact h p hw.1 (Or.inr hw.2.1)
    simp only [Placed, hp] at hw ⊢
    exact hw
  | _ => exact hw

theorem agree_assign (top : Int) {a : Int} (ha : a ∈ cells) (hu : mem a = .ref a) (w : Word) :
    Agree mem (Function.update mem a w) cells top := by
  intro q _ hq
  refine Function.update_of_ne ?_ _ _
  rintro rfl
  rw [hu] at hq
  exact hq.elim (fun hq => hq ha) fun hq => by cases hq

theorem agree_above (h : ∀ q ≤ top, mem' q = mem q) : Agree mem mem' cells top :=
  fun q hq _ => h q hq

/-- **Binding a cell rebinds its node and no other.** -/
theorem graph_assign (h : WellFormed mem cells top) {a : Int} (ha : a ∈ cells)
    (hu : mem a = .ref a) {w : Word} (hw : Placed mem cells top w) :
    graph (Function.update mem a w) cells = Function.update (graph mem cells) a (view mem w) := by
  have hagree := agree_assign top ha hu w
  funext b
  by_cases hba : b = a
  · rw [hba, Function.update_self, graph_of_mem ha, Function.update_self, hagree.view hw]
  · rw [Function.update_of_ne hba]
    by_cases hb : b ∈ cells
    · rw [graph_of_mem hb, graph_of_mem hb, Function.update_of_ne hba, hagree.view (h.placed b hb)]
    · simp [graph, hb]

theorem WellFormed.assign (h : WellFormed mem cells top) {a : Int} (ha : a ∈ cells)
    (hu : mem a = .ref a) {w : Word} (hw : Placed mem cells top w) :
    WellFormed (Function.update mem a w) cells top := by
  have hagree := agree_assign top ha hu w
  refine ⟨h.below, fun b hb => hagree.placed ?_⟩
  by_cases hba : b = a
  · rw [hba, Function.update_self]; exact hw
  · rw [Function.update_of_ne hba]; exact h.placed b hb

theorem graph_above (h : WellFormed mem cells top) (hsame : ∀ q ≤ top, mem' q = mem q) :
    graph mem' cells = graph mem cells := by
  funext b
  by_cases hb : b ∈ cells
  · rw [graph_of_mem hb, graph_of_mem hb, hsame b (h.below b hb),
      (agree_above hsame).view (h.placed b hb)]
  · simp [graph, hb]

theorem WellFormed.above (h : WellFormed mem cells top) (hsame : ∀ q ≤ top, mem' q = mem q) :
    WellFormed mem' cells top :=
  ⟨h.below, fun b hb => by
    rw [hsame b (h.below b hb)]
    exact (agree_above hsame).placed (h.placed b hb)⟩

end Mlvm
