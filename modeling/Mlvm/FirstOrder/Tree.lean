import Mlvm.FirstOrder.Graph
import Mathlib.Data.PFunctor.Univariate.M

/-!
# Infinite trees

Trees over function symbols `F` with leaves in `V`, which may be infinite.

**The occurs check.** Two terms that have no common instance can still have a common value among the
trees (`TreeUnifiable`): these are the pairs whose answer depends on the occurs check.

**Unfolding.** A graph whose chains of references end has a solution among the trees, also when its
cells lead back to themselves (`solves_unfold`).
-/

namespace FirstOrder

open PFunctor

variable {F A V : Type*}

/-- The top of a tree: a leaf, or a symbol with the number of its children. -/
inductive Top (F V : Type*) where
  | leaf (v : V)
  | symbol (f : F) (n : ℕ)

/-- The number of children. -/
def Top.arity : Top F V → ℕ
  | leaf _ => 0
  | symbol _ n => n

def treeShape (F V : Type*) : PFunctor := ⟨Top F V, fun t => Fin t.arity⟩

/-- A finite or infinite tree. -/
def Tree (F V : Type*) := (treeShape F V).M

namespace Tree

variable {X Y : Type*} {f g : F} {xs ys : List X}

/-- A symbol on top of its children. -/
def layer (f : F) (xs : List X) : treeShape F V X := ⟨.symbol f xs.length, xs.get⟩

def node (f : F) (ts : List (Tree F V)) : Tree F V := M.mk (layer f ts)

/-- The symbol and the children of a layer. -/
def parts : treeShape F V X → Option (F × List X)
  | ⟨.leaf _, _⟩ => none
  | ⟨.symbol f _, xs⟩ => some (f, List.ofFn xs)

theorem parts_layer : parts (layer f xs : treeShape F V X) = some (f, xs) := by
  show some (f, List.ofFn xs.get) = _
  rw [List.ofFn_get]

theorem eq_layer {l : treeShape F V X} (h : parts l = some (f, xs)) : l = layer f xs := by
  obtain ⟨v | ⟨g, n⟩, ys⟩ := l
  · cases h
  · obtain ⟨rfl, hys⟩ : g = f ∧ List.ofFn ys = xs := by simpa [parts] using h
    have hsame := List.ofFn_inj'.1 (hys.trans (List.ofFn_get xs).symm)
    exact congrArg (fun p : Σ n, Fin n → X => (⟨.symbol g p.1, p.2⟩ : treeShape F V X)) hsame

theorem layer_inj (h : (layer f xs : treeShape F V X) = layer g ys) : f = g ∧ xs = ys := by
  have hparts := congrArg parts h
  simpa [parts_layer] using hparts

theorem map_layer (φ : X → Y) (f : F) (xs : List X) :
    (treeShape F V).map φ (layer f xs) = layer f (xs.map φ) := by
  apply eq_layer
  show some (f, List.ofFn (φ ∘ xs.get)) = _
  rw [← List.map_ofFn, List.ofFn_get]

end Tree

instance : Builds F (Tree F V) where
  build := Tree.node
  build_inj h := Tree.layer_inj (M.mk_inj h)

/-- The two terms have a common value among the trees. -/
def TreeUnifiable (s t : Term F V) : Prop := ∃ τ : V → Tree F V, s.eval τ = t.eval τ

/-! ## Unfolding a graph -/

/-- Where the chain of references from a node ends. -/
inductive EndsAt (G : TermGraph F A) : Node F A → Node F A → Prop
  | unbound {a : A} : G a = .ref a → EndsAt G (.ref a) (.ref a)
  | ref {a : A} {m : Node F A} : G a ≠ .ref a → EndsAt G (G a) m → EndsAt G (.ref a) m
  | app {f : F} {as : List A} : EndsAt G (.app f as) (.app f as)

variable {G : TermGraph F A}

theorem EndsAt.unique {n m m' : Node F A} (h : EndsAt G n m) (h' : EndsAt G n m') : m = m' := by
  induction h with
  | unbound ha =>
    cases h' with
    | unbound => rfl
    | ref hne => exact (hne ha).elim
  | ref hne _ ih =>
    cases h' with
    | unbound ha => exact (hne ha).elim
    | ref _ h' => exact ih h'
  | app => cases h'; rfl

theorem ChainEnds.exists_endsAt {n : Node F A} (h : ChainEnds G n) : ∃ m, EndsAt G n m := by
  induction h with
  | unbound ha => exact ⟨_, .unbound ha⟩
  | @ref a _ ih =>
    by_cases ha : G a = .ref a
    · exact ⟨_, .unbound ha⟩
    · exact ih.imp fun _ hm => .ref ha hm
  | app => exact ⟨_, .app⟩

/-- The end of the chain from a node, and the node itself where there is none. -/
noncomputable def chainEnd (G : TermGraph F A) (n : Node F A) : Node F A :=
  open Classical in if h : ∃ m, EndsAt G n m then h.choose else n

theorem EndsAt.chainEnd_eq {n m : Node F A} (h : EndsAt G n m) : chainEnd G n = m := by
  have he : ∃ m, EndsAt G n m := ⟨m, h⟩
  rw [chainEnd, dif_pos he]
  exact he.choose_spec.unique h

/-- The layer of the tree of a node. -/
noncomputable def unfoldLayer (G : TermGraph F A) (n : Node F A) : treeShape F A (Node F A) :=
  match chainEnd G n with
  | .ref a => ⟨.leaf a, Fin.elim0⟩
  | .app f as => Tree.layer f (as.map .ref)

/-- The tree of a node. -/
noncomputable def unfold (G : TermGraph F A) (n : Node F A) : Tree F A := M.corec (unfoldLayer G) n

theorem unfold_app (f : F) (as : List A) :
    unfold G (.app f as) = build f (as.map fun a => unfold G (.ref a)) := by
  rw [unfold, M.corec_def, unfoldLayer, EndsAt.app.chainEnd_eq]
  simp only [Tree.map_layer, List.map_map]
  rfl

/-- Following a reference keeps the tree. -/
theorem unfold_ref {a : A} (h : ChainEnds G (.ref a)) : unfold G (.ref a) = unfold G (G a) := by
  by_cases ha : G a = .ref a
  · rw [ha]
  · have hend : chainEnd G (.ref a) = chainEnd G (G a) := by
      obtain ⟨m, hm⟩ := h.exists_endsAt
      cases hm with
      | unbound hu => exact absurd hu ha
      | ref hne hm => rw [(EndsAt.ref hne hm).chainEnd_eq, hm.chainEnd_eq]
    rw [unfold, unfold, M.corec_def, M.corec_def, unfoldLayer, unfoldLayer, hend]

/-- **Unfolding solves.** -/
theorem solves_unfold {D : A → Prop} (h : ∀ a, D a → ChainEnds G (.ref a)) :
    Solves (fun a => unfold G (.ref a)) D G := fun a ha => by
  show unfold G (.ref a) = _
  rw [unfold_ref (h a ha)]
  cases G a with
  | ref b => rfl
  | app f as => rw [unfold_app, Node.eval_app]

end FirstOrder
