import Mlvm.Engine.Store
import Mlvm.Engine.Unify
import Mlvm.FirstOrder.GraphUnification

/-!
# The unification loop as unification on the term graph

The registers `ax` and `bx` and the pairs on the scratch stack are the equations of a configuration
over the graph of the store. Every step of the loop is a step between configurations, except that
passing from `AXDEF` to `BXDEF` changes none.

* `LoopInv` — the store is well formed, and the scratch stack above it holds the pairs.
* `LoopInv.step` — what one step does to the configuration.
-/

namespace Mlvm

open FirstOrder

/-! ## The scratch stack -/

/-- The words from `cx` up to `st` are the pairs, the first one on top. -/
inductive Stacked (mem : Int → Word) (cx : Int) : Int → List (Word × Word) → Prop
  | nil : Stacked mem cx cx []
  | cons {st : Int} {E : List (Word × Word)} : Stacked mem cx st E →
      Stacked mem cx (st + 2) ((mem (st + 2), mem (st + 1)) :: E)

theorem Stacked.le {mem : Int → Word} {cx st : Int} {E : List (Word × Word)}
    (h : Stacked mem cx st E) : cx ≤ st := by
  induction h with
  | nil => exact le_rfl
  | cons _ ih => omega

theorem Stacked.congr {mem mem' : Int → Word} {cx st : Int} {E : List (Word × Word)}
    (h : Stacked mem cx st E) (hsame : ∀ q, cx < q → q ≤ st → mem' q = mem q) :
    Stacked mem' cx st E := by
  induction h with
  | nil => exact .nil
  | @cons st E hE ih =>
    have hle := hE.le
    rw [← hsame (st + 2) (by omega) le_rfl, ← hsame (st + 1) (by omega) (by omega)]
    exact .cons (ih fun q hq hq' => hsame q hq (by omega))

/-! ## The invariant -/

/-- The configuration of a state with the pairs `E` on its scratch stack. -/
def config (cells : Finset Int) (e : Engine) (E : List (Word × Word)) : Config Sym Int :=
  ⟨graph e.mem cells,
    (view e.mem e.ax, view e.mem e.bx) :: E.map (Prod.map (view e.mem) (view e.mem))⟩

/-- The words of a pair lead to tagged cells. -/
def PlacedPair (mem : Int → Word) (cells : Finset Int) (top : Int) (p : Word × Word) : Prop :=
  Placed mem cells top p.1 ∧ Placed mem cells top p.2

/-- The store below `cx` is well formed, and the pairs are on the stack above it. -/
structure StackInv (cells : Finset Int) (e : Engine) (E : List (Word × Word)) : Prop where
  store : WellFormed e.mem cells e.cx
  stacked : Stacked e.mem e.cx e.st E
  pairs : ∀ p ∈ E, PlacedPair e.mem cells e.cx p

/-- The invariant of the loop started by `op`. -/
structure LoopInv (cells : Finset Int) (op : UnifyOp) (e : Engine) (E : List (Word × Word)) :
    Prop extends StackInv cells e E where
  label : e.lbl = .axdef op ∨ e.lbl = .bxdef op ∧ e.ax.isVar = false
  current : PlacedPair e.mem cells e.cx (e.ax, e.bx)
  undecided : op = .unifiable → e.dx = .mlvmZero

/-- What a step of the loop does to the configuration. -/
inductive Simulates (cells : Finset Int) (op : UnifyOp) (c : Config Sym Int) (e : Engine) : Prop
  /-- The loop goes on. -/
  | next {E : List (Word × Word)} : LoopInv cells op e E → UStep c (config cells e E) →
      Simulates cells op c e
  /-- No pair was left. -/
  | done {f : Engine} : e = f.succeed op → f.st = f.cx → (op = .unifiable → f.dx = .mlvmZero) →
      UStep c ⟨graph f.mem cells, []⟩ → Simulates cells op c e
  /-- The words differ. -/
  | clash {f : Engine} : e = f.mismatch op → c.graph = graph f.mem cells → c.Clash →
      Simulates cells op c e

variable {cells : Finset Int} {op : UnifyOp}

/-- Taking the next pair, after a step that left the pairs `E`. -/
theorem StackInv.popPair {e : Engine} {E : List (Word × Word)} (h : StackInv cells e E)
    {c : Config Sym Int} (hdx : op = .unifiable → e.dx = .mlvmZero)
    (hc : UStep c ⟨graph e.mem cells, E.map (Prod.map (view e.mem) (view e.mem))⟩) :
    Simulates cells op c (e.popPair op) := by
  obtain ⟨hstore, hstacked, hpairs⟩ := h
  have hle := hstacked.le
  generalize hst : e.st = st at hstacked
  cases hstacked with
  | nil => exact .done (if_pos hst) hst hdx hc
  | @cons st E hE =>
    have hle := hE.le
    have hpop : e.popPair op = { e with
        ax := e.mem (st + 2), bx := e.mem (st + 1), st := st, lbl := .axdef op } := by
      rw [Engine.popPair, if_neg (by omega), hst]
      congr 3 <;> omega
    rw [hpop]
    exact .next ⟨⟨hstore, hE, fun p hp => hpairs p (List.mem_cons_of_mem _ hp)⟩, Or.inl rfl,
      hpairs _ List.mem_cons_self, hdx⟩ hc

/-- Binding an unbound cell keeps the pairs and their nodes. -/
theorem StackInv.bind {e : Engine} {E : List (Word × Word)} (h : StackInv cells e E) {a : Int}
    (ha : a ∈ cells) (hu : e.mem a = .ref a) {w : Word} (hw : Placed e.mem cells e.cx w) :
    StackInv cells (e.bind a w) E ∧
      graph (e.bind a w).mem cells = Function.update (graph e.mem cells) a (view e.mem w) ∧
      E.map (Prod.map (view (e.bind a w).mem) (view (e.bind a w).mem)) =
        E.map (Prod.map (view e.mem) (view e.mem)) := by
  obtain ⟨hstore, hstacked, hpairs⟩ := h
  have hagree := agree_assign e.cx ha hu w
  rw [Engine.bind_mem]
  refine ⟨⟨?_, ?_, ?_⟩, graph_assign hstore ha hu hw, ?_⟩
  · rw [Engine.bind_mem, Engine.bind_cx]
    exact hstore.assign ha hu hw
  · rw [Engine.bind_mem, Engine.bind_cx, Engine.bind_st]
    refine hstacked.congr fun q hq _ => Function.update_of_ne ?_ _ _
    have := hstore.below a ha
    omega
  · rw [Engine.bind_mem, Engine.bind_cx]
    exact fun p hp => ⟨hagree.placed (hpairs p hp).1, hagree.placed (hpairs p hp).2⟩
  · refine List.map_congr_left fun p hp => Prod.ext ?_ ?_
    · exact hagree.view (hpairs p hp).1
    · exact hagree.view (hpairs p hp).2

/-! ## Pushing the arguments -/

theorem push_mem_of_le (e : Engine) (w : Word) {q : Int} (hq : q ≤ e.st) :
    (e.push w).mem q = e.mem q :=
  Function.update_of_ne (by omega) _ _

/-- Two pushes put one pair on top. -/
theorem Stacked.push₂ {e : Engine} {cx : Int} {E : List (Word × Word)}
    (h : Stacked e.mem cx e.st E) (v w : Word) :
    Stacked ((e.push v).push w).mem cx ((e.push v).push w).st ((w, v) :: E) := by
  have hst : ((e.push v).push w).st = e.st + 2 := by simp only [Engine.push]; omega
  have hw : ((e.push v).push w).mem (e.st + 2) = w := by
    rw [← hst]; exact Function.update_self ..
  have hv : ((e.push v).push w).mem (e.st + 1) = v := by
    rw [push_mem_of_le _ _ (by simp [Engine.push])]
    exact Function.update_self ..
  have hE : Stacked ((e.push v).push w).mem cx e.st E := h.congr fun q _ hq => by
    rw [push_mem_of_le _ _ (by simp only [Engine.push]; omega), push_mem_of_le _ _ hq]
  have := hE.cons
  rwa [hw, hv, ← hst] at this

/-- The pairs of arguments that `pushArgs` adds to `E`. -/
def argPairs (mem : Int → Word) (x y : Int) : Nat → List (Word × Word) → List (Word × Word)
  | k + 2, E => argPairs mem x y (k + 1) ((mem (x + ↑(k + 2)), mem (y + ↑(k + 2))) :: E)
  | _, E => E

theorem pushArgs_spec {mem : Int → Word} (top : Int) {x y : Int} : ∀ {n : Nat} {e : Engine}
    {E : List (Word × Word)}, top ≤ e.st → (∀ q ≤ top, e.mem q = mem q) → x + ↑n ≤ top →
    y + ↑n ≤ top → Stacked e.mem e.cx e.st E →
    (e.pushArgs x y n).cx = e.cx ∧ (∀ q ≤ top, (e.pushArgs x y n).mem q = mem q) ∧
      Stacked (e.pushArgs x y n).mem e.cx (e.pushArgs x y n).st (argPairs mem x y n E)
  | 0, _, _, _, hm, _, _, h => ⟨rfl, hm, h⟩
  | 1, _, _, _, hm, _, _, h => ⟨rfl, hm, h⟩
  | k + 2, e, E, htop, hm, hx, hy, h => by
    have hst : top ≤ ((e.push (e.mem (y + ↑(k + 2)))).push
        ((e.push (e.mem (y + ↑(k + 2)))).mem (x + ↑(k + 2)))).st := by
      simp only [Engine.push]; omega
    have hx' : (e.push (e.mem (y + ↑(k + 2)))).mem (x + ↑(k + 2)) = mem (x + ↑(k + 2)) := by
      rw [push_mem_of_le _ _ (by omega), hm _ hx]
    have hy' : e.mem (y + ↑(k + 2)) = mem (y + ↑(k + 2)) := hm _ hy
    refine pushArgs_spec top (n := k + 1) hst (fun q hq => ?_) (by omega) (by omega) ?_
    · rw [push_mem_of_le _ _ (by simp only [Engine.push]; omega), push_mem_of_le _ _ (by omega),
        hm q hq]
    · have := h.push₂ (e.mem (y + ↑(k + 2)))
        ((e.push (e.mem (y + ↑(k + 2)))).mem (x + ↑(k + 2)))
      rwa [hx', hy'] at this ⊢

theorem pushArgs_dx (x y : Int) : ∀ (n : Nat) (e : Engine), (e.pushArgs x y n).dx = e.dx
  | 0, _ => rfl
  | 1, _ => rfl
  | k + 2, e => by rw [Engine.pushArgs, pushArgs_dx x y (k + 1)]; rfl

/-- The first pair with the pushed ones is the list of all pairs of arguments. -/
theorem argPairs_eq (mem : Int → Word) (x y : Int) (n : Nat) (E : List (Word × Word)) :
    (mem (x + 1), mem (y + 1)) :: argPairs mem x y (n + 1) E =
      (List.range (n + 1)).map (fun i : Nat => (mem (x + 1 + ↑i), mem (y + 1 + ↑i))) ++ E := by
  induction n generalizing E with
  | zero => simp [argPairs]
  | succ n ih =>
    rw [argPairs, ih, List.range_succ (n := n + 1), List.map_append, List.append_assoc]
    have hx : x + ↑(n + 2) = x + 1 + ↑(n + 1) := by omega
    have hy : y + ↑(n + 2) = y + 1 + ↑(n + 1) := by omega
    rw [hx, hy]
    rfl

/-- The pairs of arguments are the equations between the argument cells. -/
theorem map_view_args {mem : Int → Word} {cells : Finset Int} {x y : Int} {n : Nat}
    (hx : ∀ a ∈ argCells x n, a ∈ cells) (hy : ∀ a ∈ argCells y n, a ∈ cells) :
    ((List.range n).map fun i : Nat => (mem (x + 1 + ↑i), mem (y + 1 + ↑i))).map
        (Prod.map (view mem) (view mem)) =
      (graph mem cells).zip (argCells x n) (argCells y n) := by
  simp only [TermGraph.zip, argCells, List.zip_map', List.map_map]
  refine List.map_congr_left fun i hi => Prod.ext ?_ ?_
  · exact (graph_of_mem (hx _ (List.mem_map_of_mem hi))).symm
  · exact (graph_of_mem (hy _ (List.mem_map_of_mem hi))).symm

/-! ## One step -/

theorem view_app (mem : Int → Word) {w : Word} (h : w.isVar = false) :
    ∃ f as, view mem w = .app f as := by
  cases w with
  | ref a => cases h
  | str p => simp only [view]; split <;> exact ⟨_, _, rfl⟩
  | _ => exact ⟨_, _, rfl⟩

theorem view_str_float {mem : Int → Word} {p : Int} (h : mem p = .fvlTag) :
    view mem (.str p) = .app (.float (mem (p + 1)) (mem (p + 2))) [] :=
  if_pos h

theorem view_str_functor {mem : Int → Word} {p : Int} (h : mem p ≠ .fvlTag) :
    view mem (.str p) = .app (.str (mem p)) (argCells p (mem p).arity) :=
  if_neg h

theorem view_str (mem : Int → Word) (p : Int) :
    ∃ f as, view mem (.str p) = .app f as ∧ f ≠ .list ∧ ∀ w, f ≠ .con w := by
  by_cases h : mem p = .fvlTag
  · exact ⟨_, _, view_str_float h, by simp, by simp⟩
  · exact ⟨_, _, view_str_functor h, by simp, by simp⟩

/-- Words with different symbols clash. -/
theorem clash_of_ne {e : Engine} {E : List (Word × Word)} {f g : Sym} {as bs : List Int}
    (hf : view e.mem e.ax = .app f as) (hg : view e.mem e.bx = .app g bs) (hne : f ≠ g) :
    (config cells e E).Clash := by
  rw [config, hf, hg]
  exact .intro hne

/-- Going on with the pairs of arguments `P`, the first one in the registers. -/
theorem StackInv.decompose {e f : Engine} {E E' P : List (Word × Word)} (h : StackInv cells e E)
    {g : Sym} (as bs : List Int) (hax : view e.mem e.ax = .app g as)
    (hbx : view e.mem e.bx = .app g bs) (hne : as ≠ bs) (hlen : as.length = bs.length)
    (hP : P.map (Prod.map (view e.mem) (view e.mem)) = (graph e.mem cells).zip as bs)
    (hplaced : ∀ p ∈ P, PlacedPair e.mem cells e.cx p) (hpairs : (f.ax, f.bx) :: E' = P ++ E)
    (hsame : ∀ a ≤ e.cx, f.mem a = e.mem a) (hcx : f.cx = e.cx)
    (hstacked : Stacked f.mem e.cx f.st E') (hlbl : f.lbl = .axdef op)
    (hdx : op = .unifiable → f.dx = .mlvmZero) : Simulates cells op (config cells e E) f := by
  have hagree : Agree e.mem f.mem cells e.cx := agree_above hsame
  have hall : ∀ p ∈ (f.ax, f.bx) :: E', PlacedPair e.mem cells e.cx p := by
    rw [hpairs]
    intro p hp
    rcases List.mem_append.1 hp with hp | hp
    · exact hplaced p hp
    · exact h.pairs p hp
  have hall' : ∀ p ∈ (f.ax, f.bx) :: E', PlacedPair f.mem cells f.cx p := fun p hp => by
    rw [hcx]
    exact ⟨hagree.placed (hall p hp).1, hagree.placed (hall p hp).2⟩
  have hview : ((f.ax, f.bx) :: E').map (Prod.map (view f.mem) (view f.mem)) =
      (graph e.mem cells).zip as bs ++ E.map (Prod.map (view e.mem) (view e.mem)) := by
    rw [← hP, ← List.map_append, ← hpairs]
    exact List.map_congr_left fun p hp =>
      Prod.ext (hagree.view (hall p hp).1) (hagree.view (hall p hp).2)
  refine .next ⟨⟨?_, ?_, fun p hp => hall' p (List.mem_cons_of_mem _ hp)⟩, Or.inl hlbl,
    hall' _ List.mem_cons_self, hdx⟩ ?_
  · rw [hcx]; exact h.store.above hsame
  · rwa [hcx]
  · simp only [List.map_cons, Prod.map] at hview
    simp only [config, hview, hax, hbx, graph_above h.store hsame]
    exact .decompose hne hlen

/-- Two lists: the tails are pushed, the heads are next. -/
theorem StackInv.heads_list {e : Engine} {E : List (Word × Word)} (h : StackInv cells e E)
    {p q : Int} (hax : e.ax = .lis p) (hbx : e.bx = .lis q) (hne : e.ax ≠ e.bx)
    (hcur : PlacedPair e.mem cells e.cx (e.ax, e.bx)) (hdx : op = .unifiable → e.dx = .mlvmZero) :
    Simulates cells op (config cells e E) (e.heads op) := by
  obtain ⟨⟨hp, hp'⟩, hq, hq'⟩ : (p ∈ cells ∧ p + 1 ∈ cells) ∧ q ∈ cells ∧ q + 1 ∈ cells := by
    simpa only [PlacedPair, hax, hbx, Placed] using hcur
  have hle := h.stacked.le
  have hbelow := h.store.below
  have hsame : ∀ a ≤ e.cx, ((e.push (e.mem (q + 1))).push
      ((e.push (e.mem (q + 1))).mem (p + 1))).mem a = e.mem a := fun a ha => by
    rw [push_mem_of_le _ _ (by simp only [Engine.push]; omega), push_mem_of_le _ _ (by omega)]
  have hstacked := h.stacked.push₂ (e.mem (q + 1)) ((e.push (e.mem (q + 1))).mem (p + 1))
  have hheads : e.heads op = { (e.push (e.mem (q + 1))).push
      ((e.push (e.mem (q + 1))).mem (p + 1)) with
      bx := e.mem q, ax := e.mem p, lbl := .axdef op } := by
    rw [Engine.heads, if_neg hne]
    simp only [hax, hbx]
    rw [hsame q (hbelow q hq), hsame p (hbelow p hp)]
  rw [push_mem_of_le e _ ((hbelow _ hp').trans hle)] at hstacked
  rw [hheads]
  have hplaced := h.store.placed
  refine h.decompose (g := .list) [p, p + 1] [q, q + 1]
    (P := [(e.mem p, e.mem q), (e.mem (p + 1), e.mem (q + 1))]) (by rw [hax]; rfl)
    (by rw [hbx]; rfl) ?_ rfl ?_ ?_ rfl hsame rfl ?_ rfl hdx
  · intro h
    rw [hax, hbx, List.head_eq_of_cons_eq h] at hne
    exact hne rfl
  · simp [TermGraph.zip, graph_of_mem, hp, hp', hq, hq']
  · intro r hr
    rcases List.mem_cons.1 hr with rfl | hr
    · exact ⟨hplaced p hp, hplaced q hq⟩
    · rw [List.mem_singleton.1 hr]
      exact ⟨hplaced _ hp', hplaced _ hq'⟩
  · rwa [push_mem_of_le e _ ((hbelow _ hp').trans hle)]

/-- Two structures with the same functor: the arguments are pushed, the first ones are next. -/
theorem StackInv.heads_str {e : Engine} {E : List (Word × Word)} (h : StackInv cells e E)
    {p q : Int} (hax : e.ax = .str p) (hbx : e.bx = .str q) (hne : e.ax ≠ e.bx)
    (hcur : PlacedPair e.mem cells e.cx (e.ax, e.bx)) (hf : e.mem p ≠ .fvlTag)
    (heq : e.mem p = e.mem q) (hdx : op = .unifiable → e.dx = .mlvmZero) :
    Simulates cells op (config cells e E) (e.heads op) := by
  have hf' : e.mem q ≠ .fvlTag := heq ▸ hf
  simp only [PlacedPair, hax, hbx, Placed, if_neg hf, ← heq] at hcur
  obtain ⟨⟨hp, -, hpos, has⟩, hq, -, -, hbs⟩ := hcur
  have hle := h.stacked.le
  have hbelow := h.store.below
  obtain ⟨n, hn⟩ : ∃ n, (e.mem p).arity = n + 1 := ⟨_, (Nat.sub_add_cancel hpos).symm⟩
  rw [hn] at has hbs
  have hargs : ∀ {r : Int}, (∀ a ∈ argCells r (n + 1), a ∈ cells) → r + ↑(n + 1) ≤ e.cx ∧
      r + 1 ∈ cells := fun {r} hr => by
    constructor
    · have := hbelow _ (hr (r + 1 + ↑n) (List.mem_map_of_mem (List.mem_range.2 n.lt_succ_self)))
      omega
    · simpa using hr (r + 1 + ↑(0 : Nat)) (List.mem_map_of_mem (List.mem_range.2 n.succ_pos))
  obtain ⟨hcx, hsame, hstacked⟩ := pushArgs_spec e.cx hle (fun _ _ => rfl)
    (hargs has).1 (hargs hbs).1 h.stacked
  have hheads : e.heads op = { e.pushArgs p q (n + 1) with
      bx := e.mem (q + 1), ax := e.mem (p + 1), lbl := .axdef op } := by
    rw [Engine.heads, if_neg hne]
    simp only [hax, hbx, Word.isFloat, beq_iff_eq, ← heq, hf, false_and, if_false, ne_eq,
      not_true_eq_false]
    rw [hn, hsame _ (hbelow _ (hargs has).2), hsame _ (hbelow _ (hargs hbs).2)]
  rw [hheads]
  refine h.decompose (g := .str (e.mem p)) (argCells p (n + 1)) (argCells q (n + 1))
    (by rw [hax, view_str_functor hf, hn]) (by rw [hbx, view_str_functor hf', ← heq, hn]) ?_
    (by simp [argCells]) (map_view_args has hbs) ?_ (argPairs_eq e.mem p q n E) hsame hcx hstacked
    rfl ((pushArgs_dx p q (n + 1) e).symm ▸ hdx)
  · intro h
    have hfirst : p = q ∧ ∀ a < n, p = q := by
      simpa [argCells, List.range_succ_eq_map] using h
    rw [hax, hbx, hfirst.1] at hne
    exact hne rfl
  intro r hr
  obtain ⟨i, hi, rfl⟩ := List.mem_map.1 hr
  exact ⟨h.store.placed _ (has _ (List.mem_map_of_mem hi)),
    h.store.placed _ (hbs _ (List.mem_map_of_mem hi))⟩

/-- A structure or a double against another one. -/
theorem StackInv.heads_strs {e : Engine} {E : List (Word × Word)} (h : StackInv cells e E)
    {p q : Int} (hax : e.ax = .str p) (hbx : e.bx = .str q) (hne : e.ax ≠ e.bx)
    (hcur : PlacedPair e.mem cells e.cx (e.ax, e.bx)) (hdx : op = .unifiable → e.dx = .mlvmZero) :
    Simulates cells op (config cells e E) (e.heads op) := by
  by_cases hp : e.mem p = .fvlTag
  · have hf := view_str_float hp
    rw [← hax] at hf
    by_cases hq : e.mem q = .fvlTag
    · have hg := view_str_float hq
      rw [← hbx] at hg
      rw [Engine.heads, if_neg hne]
      simp only [hax, hbx, Word.isFloat, hp, hq, beq_self_eq_true, and_self, if_true]
      split
      · refine .clash rfl rfl (clash_of_ne hf hg ?_)
        simp only [ne_eq, Sym.float.injEq]
        tauto
      · refine h.popPair hdx ?_
        have hw : e.mem (p + 1) = e.mem (q + 1) ∧ e.mem (p + 2) = e.mem (q + 2) := by tauto
        rw [config, hf, hg, hw.1, hw.2]
        exact .delete
    · rw [Engine.heads, if_neg hne]
      simp only [hax, hbx, Word.isFloat, beq_iff_eq, hq, and_false, if_false, ne_eq]
      rw [if_pos (by rw [hp]; exact Ne.symm hq)]
      exact .clash rfl rfl (clash_of_ne hf (by rw [hbx]; exact view_str_functor hq) (by simp))
  · by_cases heq : e.mem p = e.mem q
    · exact h.heads_str hax hbx hne hcur hp heq hdx
    · have hf := view_str_functor hp
      rw [← hax] at hf
      rw [Engine.heads, if_neg hne]
      simp only [hax, hbx, Word.isFloat, beq_iff_eq, hp, false_and, if_false, ne_eq, heq,
        not_false_eq_true, if_true]
      by_cases hq : e.mem q = .fvlTag
      · exact .clash rfl rfl (clash_of_ne hf (by rw [hbx]; exact view_str_float hq) (by simp))
      · exact .clash rfl rfl
          (clash_of_ne hf (by rw [hbx]; exact view_str_functor hq) (by simpa using heq))

/-- The comparison of two words that are not variables. -/
theorem StackInv.heads {e : Engine} {E : List (Word × Word)} (h : StackInv cells e E)
    (hcur : PlacedPair e.mem cells e.cx (e.ax, e.bx)) (hax : e.ax.isVar = false)
    (hbx : e.bx.isVar = false) (hdx : op = .unifiable → e.dx = .mlvmZero) :
    Simulates cells op (config cells e E) (e.heads op) := by
  by_cases heq : e.ax = e.bx
  · obtain ⟨f, as, hf⟩ := view_app e.mem hax
    rw [Engine.heads, if_pos heq]
    refine h.popPair hdx ?_
    rw [config, ← heq, hf]
    exact .delete
  · have hmis : ∀ {f g : Sym} {as bs : List Int}, e.heads op = e.mismatch op →
        view e.mem e.ax = .app f as → view e.mem e.bx = .app g bs → f ≠ g →
        Simulates cells op (config cells e E) (e.heads op) := fun he hf hg hne => by
      rw [he]
      exact .clash rfl rfl (clash_of_ne hf hg hne)
    rw [Engine.heads, if_neg heq] at hmis
    cases ha : e.ax with
    | ref a => rw [ha] at hax; cases hax
    | lis p =>
      cases hb : e.bx with
      | ref b => rw [hb] at hbx; cases hbx
      | lis q => exact h.heads_list ha hb heq hcur hdx
      | str q =>
        obtain ⟨g, bs, hg, hne, -⟩ := view_str e.mem q
        rw [ha, hb] at hmis
        rw [Engine.heads, if_neg heq, ha, hb]
        exact hmis rfl rfl hg hne.symm
      | cst n =>
        rw [ha, hb] at hmis
        rw [Engine.heads, if_neg heq, ha, hb]
        exact hmis rfl rfl rfl (by simp)
    | str p =>
      obtain ⟨f, as, hf, hl, hc⟩ := view_str e.mem p
      cases hb : e.bx with
      | ref b => rw [hb] at hbx; cases hbx
      | str q => exact h.heads_strs ha hb heq hcur hdx
      | lis q =>
        rw [ha, hb] at hmis
        rw [Engine.heads, if_neg heq, ha, hb]
        exact hmis rfl hf rfl hl
      | cst n =>
        rw [ha, hb] at hmis
        rw [Engine.heads, if_neg heq, ha, hb]
        exact hmis rfl hf rfl (hc _)
    | cst m =>
      rw [ha] at hmis
      rw [Engine.heads, if_neg heq, ha]
      cases hb : e.bx with
      | ref b => rw [hb] at hbx; cases hbx
      | lis q => rw [hb] at hmis; exact hmis rfl rfl rfl (by simp)
      | str q =>
        obtain ⟨g, bs, hg, -, hc⟩ := view_str e.mem q
        rw [hb] at hmis
        exact hmis rfl rfl hg (hc _).symm
      | cst n =>
        rw [hb] at hmis
        exact hmis rfl rfl rfl (by simpa [ha, hb] using heq)

/-- **One step of the loop is one step between configurations**, or passes from `AXDEF` to
`BXDEF`. -/
theorem LoopInv.step {e : Engine} {E : List (Word × Word)} (h : LoopInv cells op e E) :
    (e.lbl = .axdef op ∧ e.unifyStep = e.goto (.bxdef op) ∧ LoopInv cells op e.unifyStep E) ∨
      Simulates cells op (config cells e E) e.unifyStep := by
  obtain ⟨hinv, hlbl, hcur, hdx⟩ := h
  rcases hlbl with hlbl | ⟨hlbl, hax⟩
  · have hstep : e.unifyStep = e.axdef op := by rw [Engine.unifyStep, hlbl]
    rw [hstep]
    cases ha : e.ax with
    | ref a =>
      have hmem : a ∈ cells := by
        have := hcur.1
        rwa [ha] at this
      refine Or.inr ?_
      by_cases hu : e.mem a = .ref a
      · have haxdef : e.axdef op = (e.bind a e.bx).popPair op := by
          simp [Engine.axdef, ha, hu]
        obtain ⟨hinv', hgraph, hE⟩ := hinv.bind hmem hu hcur.2
        rw [haxdef]
        refine hinv'.popPair (by rwa [Engine.bind_dx]) ?_
        rw [hgraph, hE, config, ha]
        exact .bindLeft ((graph_eq_ref hmem).2 hu)
      · have haxdef : e.axdef op = { e with ax := e.mem a } := by
          simp [Engine.axdef, ha, Ne.symm hu]
        rw [haxdef]
        refine .next (E := E) ⟨⟨hinv.store, hinv.stacked, hinv.pairs⟩, Or.inl hlbl,
          ⟨hinv.store.placed a hmem, hcur.2⟩, hdx⟩ ?_
        simp only [config, ha]
        rw [← graph_of_mem hmem]
        exact .derefLeft fun hr => hu ((graph_eq_ref hmem).1 hr)
    | _ =>
      refine Or.inl ⟨hlbl, ?_, ?_⟩
      · simp [Engine.axdef, ha]
      · have haxdef : e.axdef op = e.goto (.bxdef op) := by simp [Engine.axdef, ha]
        rw [haxdef]
        exact ⟨⟨hinv.store, hinv.stacked, hinv.pairs⟩,
          Or.inr ⟨rfl, by simp [Engine.goto, ha, Word.isVar]⟩, hcur, hdx⟩
  · have hstep : e.unifyStep = e.bxdef op := by rw [Engine.unifyStep, hlbl]
    refine Or.inr ?_
    rw [hstep]
    obtain ⟨f, as, hf⟩ := view_app e.mem hax
    cases hb : e.bx with
    | ref b =>
      have hmem : b ∈ cells := by
        have := hcur.2
        rwa [hb] at this
      by_cases hu : e.mem b = .ref b
      · have hbxdef : e.bxdef op = (e.bind b e.ax).popPair op := by
          simp [Engine.bxdef, hb, hu]
        obtain ⟨hinv', hgraph, hE⟩ := hinv.bind hmem hu hcur.1
        rw [hbxdef]
        refine hinv'.popPair (by rwa [Engine.bind_dx]) ?_
        rw [hgraph, hE, config, hb, hf]
        exact .bindRight ((graph_eq_ref hmem).2 hu)
      · have hbxdef : e.bxdef op = { e with bx := e.mem b } := by
          simp [Engine.bxdef, hb, Ne.symm hu]
        rw [hbxdef]
        refine .next (E := E) ⟨⟨hinv.store, hinv.stacked, hinv.pairs⟩, Or.inr ⟨hlbl, hax⟩,
          ⟨hcur.1, hinv.store.placed b hmem⟩, hdx⟩ ?_
        simp only [config, hb, hf]
        rw [← graph_of_mem hmem]
        exact .derefRight fun hr => hu ((graph_eq_ref hmem).1 hr)
    | _ =>
      have hbxdef : e.bxdef op = e.heads op := by simp [Engine.bxdef, hb]
      rw [hbxdef]
      exact hinv.heads hcur hax (by rw [hb]; rfl) hdx

end Mlvm
