import Mlvm.FirstOrder.Tree
import Mathlib.Data.Prod.Lex
import Mathlib.Logic.Relation
import Mathlib.Order.WellFounded

/-!
# Unification on term graphs

A worklist of equations between nodes, solved from the left: references are followed, an unbound
cell is bound to the node it meets, and equal symbols are replaced by the equations between their
arguments. There is no occurs check, so a cell can be bound to a symbol it is inside.

**Solutions are kept.** Every step keeps the solutions (`UStep.solved_iff`), among the finite terms
and among the trees, with no assumption on the graph, and a clash has none
(`Config.Clash.not_solved`).

**The cyclic binding.** A step that binds an unbound cell to another reference that leads back to it
(`Config.Cyclic`) makes an endless chain; every other step keeps the chains (`UStep.orderly`). A
configuration is **tame** (`Tame`) when its steps come to an end and none of them binds in a cycle.
From a tame configuration a finished run has a solution among the trees (`Run.treeUnifiable`), and a
most general unifier as soon as there is a unifier (`Run.mostGeneralUnifier`).

**Termination.** Where the equations do not meet the occurs check the steps end by themselves, and
only the cyclic binding has to be left out (`Config.Good.tame_iff`).
-/

namespace FirstOrder

open Term

variable {F A W X : Type*}

/-- A graph with the equations still to be solved. -/
structure Config (F A : Type*) where
  graph : TermGraph F A
  eqs : List (Node F A × Node F A)

/-- The equations between the contents of two lists of cells. -/
def TermGraph.zip (G : TermGraph F A) (as bs : List A) : List (Node F A × Node F A) :=
  (as.zip bs).map (Prod.map G G)

/-- One step of the procedure. -/
inductive UStep [DecidableEq A] : Config F A → Config F A → Prop
  | derefLeft {G : TermGraph F A} {a : A} {n : Node F A} {E} : G a ≠ .ref a →
      UStep ⟨G, (.ref a, n) :: E⟩ ⟨G, (G a, n) :: E⟩
  | bindLeft {G : TermGraph F A} {a : A} {n : Node F A} {E} : G a = .ref a →
      UStep ⟨G, (.ref a, n) :: E⟩ ⟨Function.update G a n, E⟩
  | derefRight {G : TermGraph F A} {f : F} {as : List A} {b : A} {E} : G b ≠ .ref b →
      UStep ⟨G, (.app f as, .ref b) :: E⟩ ⟨G, (.app f as, G b) :: E⟩
  | bindRight {G : TermGraph F A} {f : F} {as : List A} {b : A} {E} : G b = .ref b →
      UStep ⟨G, (.app f as, .ref b) :: E⟩ ⟨Function.update G b (.app f as), E⟩
  | delete {G : TermGraph F A} {f : F} {as : List A} {E} :
      UStep ⟨G, (.app f as, .app f as) :: E⟩ ⟨G, E⟩
  | decompose {G : TermGraph F A} {f : F} {as bs : List A} {E} : as ≠ bs → as.length = bs.length →
      UStep ⟨G, (.app f as, .app f bs) :: E⟩ ⟨G, G.zip as bs ++ E⟩

namespace Config

/-- The first equation is between different symbols. -/
inductive Clash : Config F A → Prop
  | intro {G : TermGraph F A} {f g : F} {as bs : List A} {E} : f ≠ g →
      Clash ⟨G, (.app f as, .app g bs) :: E⟩

/-- The first equation is between an unbound cell and another reference that leads to it. -/
inductive Cyclic : Config F A → Prop
  | intro {G : TermGraph F A} {a : A} {n : Node F A} {E} : G a = .ref a → n ≠ .ref a →
      Den G n (.var a) → Cyclic ⟨G, (.ref a, n) :: E⟩

/-- The first equation binds an unbound cell. -/
inductive Binds : Config F A → Prop
  | left {G : TermGraph F A} {a : A} {n : Node F A} {E} : G a = .ref a →
      Binds ⟨G, (.ref a, n) :: E⟩
  | right {G : TermGraph F A} {f : F} {as : List A} {b : A} {E} : G b = .ref b →
      Binds ⟨G, (.app f as, .ref b) :: E⟩

/-- The equations are between nodes that lead to cells of `D`. -/
def In (D : A → Prop) (c : Config F A) : Prop := ∀ e ∈ c.eqs, e.1.In D ∧ e.2.In D

/-- `θ` solves the graph and the equations. -/
def Solved [Builds F X] (θ : A → X) (D : A → Prop) (c : Config F A) : Prop :=
  Solves θ D c.graph ∧ ∀ e ∈ c.eqs, e.1.eval θ = e.2.eval θ

theorem solved_cons [Builds F X] {θ : A → X} {D : A → Prop} {G : TermGraph F A} {m n : Node F A}
    {E} : Solved θ D ⟨G, (m, n) :: E⟩ ↔ m.eval θ = n.eval θ ∧ Solved θ D ⟨G, E⟩ := by
  simp only [Solved, List.mem_cons, forall_eq_or_imp]
  tauto

theorem In.tail {D : A → Prop} {G G' : TermGraph F A} {e : Node F A × Node F A} {E}
    (h : In D ⟨G, e :: E⟩) : In D ⟨G', E⟩ := fun e he => h e (List.mem_cons_of_mem _ he)

/-- Different symbols have no common value. -/
theorem Clash.not_solved [Builds F X] {c : Config F A} (h : c.Clash) {D : A → Prop} (θ : A → X) :
    ¬ c.Solved θ D := by
  obtain ⟨hne⟩ := h
  intro hs
  have he := (solved_cons.1 hs).1
  simp only [Node.eval_app, build_eq_iff] at he
  exact hne he.1

end Config

/-! ## Solutions -/

open Config

theorem map_eq_map_iff_zip {B : Type*} {as bs : List A} (hlen : as.length = bs.length)
    {φ : A → B} : as.map φ = bs.map φ ↔ ∀ p ∈ as.zip bs, φ p.1 = φ p.2 := by
  refine ⟨fun h => ?_, fun h => map_eq_of_zip hlen h⟩
  induction as generalizing bs with
  | nil => simp
  | cons a as ih =>
    cases bs with
    | nil => simp at hlen
    | cons b bs =>
      simp only [List.map_cons, List.cons.injEq] at h
      simp only [List.zip_cons_cons, List.mem_cons, forall_eq_or_imp]
      exact ⟨h.1, ih (by simpa using hlen) h.2⟩

theorem eval_zip [Builds F X] {G : TermGraph F A} {D : A → Prop} {θ : A → X} (hθ : Solves θ D G)
    {as bs : List A} (hlen : as.length = bs.length) (has : ∀ a ∈ as, D a) (hbs : ∀ b ∈ bs, D b) :
    (∀ e ∈ G.zip as bs, e.1.eval θ = e.2.eval θ) ↔ as.map θ = bs.map θ := by
  rw [map_eq_map_iff_zip hlen]
  simp only [TermGraph.zip, List.forall_mem_map, Prod.map_fst, Prod.map_snd]
  refine forall₂_congr fun p hp => ?_
  have hp' := List.of_mem_zip hp
  rw [hθ p.1 (has _ hp'.1), hθ p.2 (hbs _ hp'.2)]

/-- **Every step keeps the solutions.** -/
theorem UStep.solved_iff [DecidableEq A] [Builds F X] {c c' : Config F A} (h : UStep c c')
    {D : A → Prop} (hc : c.In D) (θ : A → X) : c'.Solved θ D ↔ c.Solved θ D := by
  cases h with
  | @derefLeft G a n E hne =>
    have ha : D a := (hc _ List.mem_cons_self).1
    simp only [solved_cons, Node.eval_ref]
    refine and_congr_left fun hs => ?_
    rw [hs.1 a ha]
  | @bindLeft G a n E hG =>
    have ha : D a := (hc _ List.mem_cons_self).1
    rw [solved_cons]
    simp only [Solved, solves_update ha hG, Node.eval_ref]
    tauto
  | @derefRight G f as b E hne =>
    have hb : D b := (hc _ List.mem_cons_self).2
    simp only [solved_cons, Node.eval_ref]
    refine and_congr_left fun hs => ?_
    rw [hs.1 b hb]
  | @bindRight G f as b E hG =>
    have hb : D b := (hc _ List.mem_cons_self).2
    rw [solved_cons]
    simp only [Solved, solves_update hb hG, Node.eval_ref, eq_comm (a := θ b)]
    tauto
  | delete => rw [solved_cons]; simp
  | @decompose G f as bs E hne hlen =>
    obtain ⟨has, hbs⟩ := hc _ List.mem_cons_self
    rw [solved_cons]
    simp only [Solved, List.mem_append, or_imp, forall_and, Node.eval_app, build_eq_iff, true_and]
    constructor
    · rintro ⟨hs, hz, hE⟩
      exact ⟨(eval_zip hs hlen has hbs).1 hz, hs, hE⟩
    · rintro ⟨hz, hs, hE⟩
      exact ⟨hs, (eval_zip hs hlen has hbs).2 hz, hE⟩

/-- There is one way to go on. -/
theorem UStep.unique [DecidableEq A] {c c₁ c₂ : Config F A} (h₁ : UStep c c₁) (h₂ : UStep c c₂) :
    c₁ = c₂ := by
  cases h₁ <;> cases h₂ <;> first | rfl | contradiction

theorem UStep.closed [DecidableEq A] {c c' : Config F A} (h : UStep c c') {D : A → Prop}
    (hD : Closed D c.graph) (hc : c.In D) : Closed D c'.graph ∧ c'.In D := by
  cases h with
  | derefLeft =>
    obtain ⟨ha, hn⟩ := hc _ List.mem_cons_self
    refine ⟨hD, fun e he => ?_⟩
    rcases List.mem_cons.1 he with rfl | he
    · exact ⟨hD _ ha, hn⟩
    · exact hc e (List.mem_cons_of_mem _ he)
  | bindLeft => exact ⟨hD.update (hc _ List.mem_cons_self).2 _, hc.tail⟩
  | derefRight =>
    obtain ⟨hn, hb⟩ := hc _ List.mem_cons_self
    refine ⟨hD, fun e he => ?_⟩
    rcases List.mem_cons.1 he with rfl | he
    · exact ⟨hn, hD _ hb⟩
    · exact hc e (List.mem_cons_of_mem _ he)
  | bindRight => exact ⟨hD.update (hc _ List.mem_cons_self).1 _, hc.tail⟩
  | delete => exact ⟨hD, hc.tail⟩
  | decompose =>
    obtain ⟨has, hbs⟩ := hc _ List.mem_cons_self
    refine ⟨hD, fun e he => ?_⟩
    rcases List.mem_append.1 he with he | he
    · obtain ⟨p, hp, rfl⟩ := List.mem_map.1 he
      have hp' := List.of_mem_zip hp
      exact ⟨hD _ (has _ hp'.1), hD _ (hbs _ hp'.2)⟩
    · exact hc e (List.mem_cons_of_mem _ he)

/-- A step binds cells and never frees one. -/
theorem UStep.unbound [DecidableEq A] {c c' : Config F A} (h : UStep c c') {a : A}
    (ha : c'.graph a = .ref a) : c.graph a = .ref a := by
  cases h with
  | @bindLeft G b n E hG =>
    by_cases hab : a = b
    · rw [hab]; exact hG
    · simpa [hab] using ha
  | @bindRight G f as b E hG =>
    by_cases hab : a = b
    · rw [hab]; exact hG
    · simpa [hab] using ha
  | _ => exact ha

/-! ## Runs -/

/-- Any number of steps. -/
abbrev Run [DecidableEq A] : Config F A → Config F A → Prop := Relation.ReflTransGen UStep

namespace Run

variable [DecidableEq A] {c c' : Config F A}

theorem closed (h : Run c c') {D : A → Prop} (hD : Closed D c.graph) (hc : c.In D) :
    Closed D c'.graph ∧ c'.In D := by
  induction h with
  | refl => exact ⟨hD, hc⟩
  | tail _ hstep ih => exact hstep.closed ih.1 ih.2

theorem solved_iff [Builds F X] (h : Run c c') {D : A → Prop} (hD : Closed D c.graph) (hc : c.In D)
    (θ : A → X) : c'.Solved θ D ↔ c.Solved θ D := by
  induction h with
  | refl => rfl
  | tail hrun hstep ih => rw [hstep.solved_iff (closed hrun hD hc).2, ih]

theorem unbound (h : Run c c') {a : A} (ha : c'.graph a = .ref a) : c.graph a = .ref a := by
  induction h with
  | refl => exact ha
  | tail _ hstep ih => exact ih (hstep.unbound ha)

end Run

/-- A run from one equation between terms with a unifier solves it. -/
theorem solved_of_unifier {G : TermGraph F A} {D : A → Prop} (hD : Denotes D G) {x y : Node F A}
    {s t : Term F A} (hx : Den G x s) (hy : Den G y t) {σ : A → Term F W}
    (hσ : Unifier σ s t) : Solved (fun a => (value G a).subst σ) D ⟨G, [(x, y)]⟩ := by
  refine ⟨(solves_value hD).subst σ, fun e he => ?_⟩
  rw [List.mem_singleton] at he
  subst he
  rw [Node.eval_subst, Node.eval_subst, hx.eval_value, hy.eval_value]
  exact hσ

/-- **A clash refutes.** -/
theorem Run.not_unifiable [DecidableEq A] {G : TermGraph F A} {D : A → Prop} (hclosed : Closed D G)
    (hD : Denotes D G) {x y : Node F A} {s t : Term F A} (hx : Den G x s) (hy : Den G y t)
    (hin : Config.In D ⟨G, [(x, y)]⟩) {c : Config F A} (h : Run ⟨G, [(x, y)]⟩ c)
    (hclash : c.Clash) : ¬ Unifiable s t := fun ⟨_, hσ⟩ =>
  hclash.not_solved _ ((h.solved_iff hclosed hin _).2 (solved_of_unifier hD hx hy hσ))

/-- **A finished run is a most general unifier**, as soon as its graph has finite terms: the
terms of the new graph are the instances of the old ones under it. -/
theorem Run.mostGeneralUnifier [DecidableEq A] {G G' : TermGraph F A} {D : A → Prop}
    (hclosed : Closed D G) (hD : Denotes D G) {x y : Node F A} {s t : Term F A} (hx : Den G x s)
    (hy : Den G y t) (hin : Config.In D ⟨G, [(x, y)]⟩) (h : Run ⟨G, [(x, y)]⟩ ⟨G', []⟩)
    (hD' : Denotes D G') : ∃ μ : A → Term F A, MostGeneralUnifier μ s t ∧
      ∀ n : Node F A, n.In D → ∀ u, Den G n u → Den G' n (u.subst μ) := by
  classical
  let μ : A → Term F A := fun v => if G v = .ref v ∧ D v then value G' v else var v
  have hμ : ∀ {u : Term F A} {n : Node F A}, n.In D → Den G n u →
      u.subst μ = u.subst (value G') := fun hn hu => subst_congr fun v hv =>
    if_pos ⟨hu.unbound_of_occurs hv, hu.in_of_occurs hclosed hn hv⟩
  have hsolved := (h.solved_iff hclosed hin (value G')).1 ⟨solves_value hD', by simp⟩
  have hden : ∀ n : Node F A, n.In D → ∀ u, Den G n u → Den G' n (u.subst μ) := by
    intro n hn u hu
    obtain ⟨u', hu'⟩ := hD'.node hn
    rwa [hμ hn hu, ← eval_eq_subst, ← hu.eval_eq hsolved.1 hclosed hn, hu'.eval_value]
  refine ⟨μ, ⟨?_, fun σ hσ => ⟨σ, fun v => ?_⟩⟩, hden⟩
  · obtain ⟨hxD, hyD⟩ := hin _ List.mem_cons_self
    show s.subst μ = t.subst μ
    rw [hμ hxD hx, hμ hyD hy, ← eval_eq_subst, ← eval_eq_subst,
      ← hx.eval_eq hsolved.1 hclosed hxD, ← hy.eval_eq hsolved.1 hclosed hyD]
    exact hsolved.2 _ List.mem_cons_self
  · by_cases hv : G v = .ref v ∧ D v
    · have hθ := ((h.solved_iff hclosed hin _).2 (solved_of_unifier hD hx hy hσ)).1
      obtain ⟨u, hu⟩ := hD' v hv.2
      have heq := hu.eval_eq hθ (h.closed hclosed hin).1 hv.2
      rw [eval_eq_subst] at heq
      simp only [Node.eval_ref, (Den.unbound hv.1).value_eq, subst_var_eq] at heq
      rw [heq]
      simp only [μ, if_pos hv, hu.value_eq]
      refine subst_congr fun w hw => ?_
      rw [(Den.unbound (h.unbound (hu.unbound_of_occurs hw))).value_eq, subst_var_eq]
    · simp [μ, if_neg hv]

/-! ## Tame configurations -/

/-- The equations can be solved from the left: this comes to an end, and it never equates an unbound
cell with another reference that leads to it. -/
inductive Tame [DecidableEq A] : Config F A → Prop
  | done {G : TermGraph F A} : Tame ⟨G, []⟩
  | derefLeft {G : TermGraph F A} {a : A} {n : Node F A} {E} : G a ≠ .ref a →
      Tame ⟨G, (G a, n) :: E⟩ → Tame ⟨G, (.ref a, n) :: E⟩
  | bindLeft {G : TermGraph F A} {a : A} {n : Node F A} {E} : G a = .ref a →
      (n = .ref a ∨ ¬ Den G n (.var a)) → Tame ⟨Function.update G a n, E⟩ →
      Tame ⟨G, (.ref a, n) :: E⟩
  | derefRight {G : TermGraph F A} {f : F} {as : List A} {b : A} {E} : G b ≠ .ref b →
      Tame ⟨G, (.app f as, G b) :: E⟩ → Tame ⟨G, (.app f as, .ref b) :: E⟩
  | bindRight {G : TermGraph F A} {f : F} {as : List A} {b : A} {E} : G b = .ref b →
      Tame ⟨Function.update G b (.app f as), E⟩ → Tame ⟨G, (.app f as, .ref b) :: E⟩
  | delete {G : TermGraph F A} {f : F} {as : List A} {E} :
      Tame ⟨G, E⟩ → Tame ⟨G, (.app f as, .app f as) :: E⟩
  | decompose {G : TermGraph F A} {f : F} {as bs : List A} {E} : as ≠ bs →
      as.length = bs.length → Tame ⟨G, G.zip as bs ++ E⟩ → Tame ⟨G, (.app f as, .app f bs) :: E⟩
  | clash {G : TermGraph F A} {f g : F} {as bs : List A} {E} : (f, as.length) ≠ (g, bs.length) →
      Tame ⟨G, (.app f as, .app g bs) :: E⟩

/-- The steps come to an end, and none of them binds a cell. -/
inductive Still [DecidableEq A] : Config F A → Prop
  | intro {c : Config F A} : ¬ c.Binds → (∀ c', UStep c c' → Still c') → Still c

/-- A tame configuration over a part of the graph whose chains end. -/
structure Config.Orderly [DecidableEq A] (D : A → Prop) (c : Config F A) : Prop where
  closed : Closed D c.graph
  within : c.In D
  chains : ∀ a, D a → ChainEnds c.graph (.ref a)
  tame : Tame c

section Tame

variable [DecidableEq A]

theorem Still.step {c c' : Config F A} (h : Still c) (hstep : UStep c c') : Still c' := by
  cases h with
  | intro _ hnext => exact hnext c' hstep

theorem Still.not_binds {c : Config F A} (h : Still c) : ¬ c.Binds := by
  cases h with
  | intro hb => exact hb

theorem Tame.not_cyclic {c : Config F A} (h : Tame c) : ¬ c.Cyclic := by
  rintro ⟨hG, hne, hden⟩
  cases h with
  | derefLeft hG' => exact hG' hG
  | bindLeft _ hout =>
    rcases hout with heq | hout
    · exact hne heq
    · exact hout hden

theorem Tame.step {c c' : Config F A} (h : Tame c) (hstep : UStep c c') : Tame c' := by
  cases h with
  | done => cases hstep
  | derefLeft hG h => exact hstep.unique (.derefLeft hG) ▸ h
  | bindLeft hG _ h => exact hstep.unique (.bindLeft hG) ▸ h
  | derefRight hG h => exact hstep.unique (.derefRight hG) ▸ h
  | bindRight hG h => exact hstep.unique (.bindRight hG) ▸ h
  | delete h => exact hstep.unique .delete ▸ h
  | decompose hne hlen h => exact hstep.unique (.decompose hne hlen) ▸ h
  | clash hne =>
    cases hstep with
    | delete => exact (hne rfl).elim
    | decompose _ hlen => exact (hne (by rw [hlen])).elim

/-- Induction over the steps. -/
@[elab_as_elim] theorem Tame.induction {motive : ∀ c : Config F A, Tame c → Prop}
    (step : ∀ c (h : Tame c), (∀ c' (hs : UStep c c'), motive c' (h.step hs)) → motive c h)
    {c : Config F A} (h : Tame c) : motive c h := by
  have hnext : ∀ {c c'} (h : Tame c) (hs : UStep c c'), motive c' (h.step hs) → motive c h := by
    intro c c' h hs hc
    refine step c h fun c'' hs' => ?_
    obtain rfl := hs'.unique hs
    exact hc
  induction h with
  | done => exact step _ .done fun _ hs => by cases hs
  | derefLeft hG h ih => exact hnext (.derefLeft hG h) (.derefLeft hG) ih
  | bindLeft hG hout h ih => exact hnext (.bindLeft hG hout h) (.bindLeft hG) ih
  | derefRight hG h ih => exact hnext (.derefRight hG h) (.derefRight hG) ih
  | bindRight hG h ih => exact hnext (.bindRight hG h) (.bindRight hG) ih
  | delete h ih => exact hnext (.delete h) .delete ih
  | decompose hne hlen h ih => exact hnext (.decompose hne hlen h) (.decompose hne hlen) ih
  | clash hne =>
    refine step _ (.clash hne) fun _ hs => ?_
    cases hs with
    | delete => exact (hne rfl).elim
    | decompose _ hlen => exact (hne (by rw [hlen])).elim

/-- A configuration without a cyclic binding is as tame as what follows. -/
theorem tame_of_steps {c : Config F A} (hcyc : ¬ c.Cyclic) (h : ∀ c', UStep c c' → Tame c') :
    Tame c := by
  obtain ⟨G, E⟩ := c
  cases E with
  | nil => exact .done
  | cons e E =>
    obtain ⟨m, n⟩ := e
    cases m with
    | ref a =>
      by_cases hG : G a = .ref a
      · refine .bindLeft hG ?_ (h _ (.bindLeft hG))
        by_contra hout
        rw [not_or, not_not] at hout
        exact hcyc (.intro hG hout.1 hout.2)
      · exact .derefLeft hG (h _ (.derefLeft hG))
    | app f as =>
      cases n with
      | ref b =>
        by_cases hG : G b = .ref b
        · exact .bindRight hG (h _ (.bindRight hG))
        · exact .derefRight hG (h _ (.derefRight hG))
      | app g bs =>
        by_cases hsame : (f, as.length) = (g, bs.length)
        · obtain ⟨rfl, hlen⟩ := Prod.mk.inj hsame
          by_cases hargs : as = bs
          · subst hargs
            exact .delete (h _ .delete)
          · exact .decompose hargs hlen (h _ (.decompose hargs hlen))
        · exact .clash hsame

/-- Going back over a step. -/
theorem Tame.of_step {c c' : Config F A} (hcyc : ¬ c.Cyclic) (hstep : UStep c c') (h : Tame c') :
    Tame c :=
  tame_of_steps hcyc fun _ hstep' => hstep'.unique hstep ▸ h

theorem Config.Clash.tame {c : Config F A} (h : c.Clash) : Tame c := by
  obtain ⟨hne⟩ := h
  exact .clash fun heq => hne (Prod.mk.inj heq).1

/-- **Steps that bind in no cycle keep the chains.** -/
theorem UStep.orderly {c c' : Config F A} (h : UStep c c') {D : A → Prop} (hc : c.Orderly D) :
    c'.Orderly D := by
  obtain ⟨hclosed', hin'⟩ := h.closed hc.closed hc.within
  refine ⟨hclosed', hin', ?_, hc.tame.step h⟩
  have hends := hc.chains
  cases h with
  | @bindLeft G a n E hG =>
    by_cases hna : n = .ref a
    · rwa [hna, ← hG, Function.update_eq_self]
    · have hn : ChainEnds G n := by
        cases n with
        | ref b => exact hends b (hc.within _ List.mem_cons_self).2
        | app => exact .app
      have hout : ¬ Den G n (.var a) := fun hden => hc.tame.not_cyclic (.intro hG hna hden)
      exact fun b hb => ChainEnds.update hG hn hout (hends b hb)
  | @bindRight G f as a E hG =>
    have hout : ¬ Den G (.app f as) (.var a) := fun hden => by cases hden
    exact fun b hb => ChainEnds.update hG .app hout (hends b hb)
  | _ => exact hends

/-- **A finished run has a solution among the trees.** -/
theorem Run.treeUnifiable {G G' : TermGraph F A} {D : A → Prop} (hclosed : Closed D G)
    {x y : Node F A} {s t : Term F A} (hx : Den G x s) (hy : Den G y t)
    (hin : Config.In D ⟨G, [(x, y)]⟩) (h : Run ⟨G, [(x, y)]⟩ ⟨G', []⟩)
    (hends : ∀ a, D a → ChainEnds G' (.ref a)) : TreeUnifiable s t := by
  have hsolved := (h.solved_iff hclosed hin fun a => unfold G' (.ref a)).1
    ⟨solves_unfold hends, by simp⟩
  obtain ⟨hxD, hyD⟩ := hin _ List.mem_cons_self
  refine ⟨fun a => unfold G' (.ref a), ?_⟩
  rw [← hx.eval_eq hsolved.1 hclosed hxD, ← hy.eval_eq hsolved.1 hclosed hyD]
  exact hsolved.2 _ List.mem_cons_self

/-- A run between terms with a unifier keeps the terms finite, as far as its chains end. -/
theorem Run.denotes {G : TermGraph F A} {D : A → Prop} (hclosed : Closed D G) (hD : Denotes D G)
    {x y : Node F A} {s t : Term F A} (hx : Den G x s) (hy : Den G y t)
    (hin : Config.In D ⟨G, [(x, y)]⟩) {c : Config F A} (h : Run ⟨G, [(x, y)]⟩ c)
    (hends : ∀ a, D a → ChainEnds c.graph (.ref a)) (hu : Unifiable s t) : Denotes D c.graph := by
  obtain ⟨σ, hσ⟩ := hu
  have hsolved := (h.solved_iff hclosed hin _).2 (solved_of_unifier hD hx hy hσ)
  exact hsolved.1.denotes (h.closed hclosed hin).1 hends

end Tame

/-! ## Configurations of finite terms -/

namespace Config

/-- The equations between the denoted terms. -/
noncomputable def terms (c : Config F A) : List (Term F A × Term F A) :=
  c.eqs.map (Prod.map (Node.eval (value c.graph)) (Node.eval (value c.graph)))

theorem terms_cons {G : TermGraph F A} {m n : Node F A} {s t : Term F A} (hm : Den G m s)
    (hn : Den G n t) (E) : terms ⟨G, (m, n) :: E⟩ = (s, t) :: terms ⟨G, E⟩ := by
  simp [terms, hm.eval_value, hn.eval_value]

/-- Every cell of `D` denotes a finite term, and solving the equations does not meet the occurs
check. -/
structure Good [DecidableEq A] (D : A → Prop) (c : Config F A) : Prop where
  closed : Closed D c.graph
  denotes : Denotes D c.graph
  within : c.In D
  noOccursCheck : ¬ MeetsOccursCheck c.terms

end Config

theorem terms_zip {G : TermGraph F A} {D : A → Prop} (hD : Denotes D G) {as bs : List A}
    (has : ∀ a ∈ as, D a) (hbs : ∀ b ∈ bs, D b) (E) :
    terms ⟨G, G.zip as bs ++ E⟩ = (as.map (value G)).zip (bs.map (value G)) ++ terms ⟨G, E⟩ := by
  simp only [terms, List.map_append, TermGraph.zip, List.map_map, List.zip_map]
  refine congrArg (· ++ _) (List.map_congr_left fun p hp => ?_)
  have hp' := List.of_mem_zip hp
  exact Prod.ext (solves_value hD _ (has _ hp'.1)).symm (solves_value hD _ (hbs _ hp'.2)).symm

section Steps

variable [DecidableEq A]

/-- Binding substitutes in the values of all nodes. -/
theorem eval_value_update {G : TermGraph F A} {D : A → Prop} (hD : Denotes D G) {a : A}
    {n : Node F A} {t : Term F A} (hG : G a = .ref a) (hn : Den G n t) (ho : ¬ Occurs a t)
    {m : Node F A} (hm : m.In D) :
    m.eval (value (Function.update G a n)) = (m.eval (value G)).subst (elim a t) := by
  obtain ⟨s, hs⟩ := hD.node hm
  rw [hs.eval_value]
  exact (Den.update hG hn ho hs).eval_value

theorem terms_update {G : TermGraph F A} {D : A → Prop} (hD : Denotes D G) {a : A} {n : Node F A}
    {t : Term F A} (hG : G a = .ref a) (hn : Den G n t) (ho : ¬ Occurs a t) {E}
    (hE : Config.In D ⟨G, E⟩) :
    terms ⟨Function.update G a n, E⟩ =
      (terms ⟨G, E⟩).map (Prod.map (subst (elim a t)) (subst (elim a t))) := by
  simp only [terms, List.map_map]
  refine List.map_congr_left fun e he => Prod.ext ?_ ?_
  · exact eval_value_update hD hG hn ho (hE e he).1
  · exact eval_value_update hD hG hn ho (hE e he).2

/-- **Steps that make no cycle keep the terms finite.** -/
theorem UStep.good {c c' : Config F A} (h : UStep c c') {D : A → Prop} (hc : c.Good D)
    (hcyc : ¬ c.Cyclic) : c'.Good D := by
  obtain ⟨hclosed', hin'⟩ := h.closed hc.closed hc.within
  have hno := hc.noOccursCheck
  cases h with
  | @derefLeft G a n E hne =>
    refine ⟨hclosed', hc.denotes, hin', ?_⟩
    obtain ⟨hx, hn⟩ := hc.within _ List.mem_cons_self
    obtain ⟨s, hs⟩ := hc.denotes a hx
    obtain ⟨t, ht⟩ := hc.denotes.node hn
    rw [terms_cons hs ht] at hno
    rwa [terms_cons hs.deref ht]
  | @bindLeft G a n E hG =>
    obtain ⟨t, ht⟩ := hc.denotes.node (hc.within _ List.mem_cons_self).2
    rw [terms_cons (.unbound hG) ht] at hno
    by_cases hna : n = .ref a
    · subst hna
      have ht' : t = var a := ht.unique (.unbound hG)
      rw [← hG, Function.update_eq_self] at hclosed' hin' ⊢
      refine ⟨hclosed', hc.denotes, hin', fun hm => hno ?_⟩
      rw [ht']
      exact .delete hm
    · have htv : t ≠ var a := fun he => hcyc (.intro hG hna (he ▸ ht))
      have ho : ¬ Occurs a t := fun ho => hno (.occursLeft ho htv)
      refine ⟨hclosed', hc.denotes.update hG ht ho, hin', fun hm => hno (.elimLeft ho ?_)⟩
      rwa [terms_update hc.denotes hG ht ho hc.within.tail] at hm
  | @derefRight G f as b E hne =>
    refine ⟨hclosed', hc.denotes, hin', ?_⟩
    obtain ⟨hm, hy⟩ := hc.within _ List.mem_cons_self
    obtain ⟨s, hs⟩ := hc.denotes.node hm
    obtain ⟨t, ht⟩ := hc.denotes b hy
    rw [terms_cons hs ht] at hno
    rwa [terms_cons hs ht.deref]
  | @bindRight G f as b E hG =>
    obtain ⟨t, ht⟩ := hc.denotes.node (hc.within _ List.mem_cons_self).1
    rw [terms_cons ht (.unbound hG)] at hno
    have htv : t ≠ var b := by
      rintro rfl
      cases ht
    have ho : ¬ Occurs b t := fun ho => hno (.occursRight ho htv)
    refine ⟨hclosed', hc.denotes.update hG ht ho, hin', fun hm => hno (.elimRight ho ?_)⟩
    rwa [terms_update hc.denotes hG ht ho hc.within.tail] at hm
  | @delete G f as E =>
    refine ⟨hclosed', hc.denotes, hin', fun hm => hno ?_⟩
    exact .delete hm
  | @decompose G f as bs E hne hlen =>
    obtain ⟨has, hbs⟩ := hc.within _ List.mem_cons_self
    refine ⟨hclosed', hc.denotes, hin', fun hm => hno ?_⟩
    rw [terms_zip hc.denotes has hbs] at hm
    exact .decompose (by simpa using hlen) hm

end Steps

/-! ## No infinite run -/

section Termination

variable [DecidableEq A] [DecidableEq (Node F A)]

namespace Config

/-- The size of the equations still to be solved. -/
noncomputable def size (c : Config F A) : Nat :=
  (c.terms.map fun e => e.1.size + e.2.size).sum

/-- The unbound cells, then the size of the equations. -/
noncomputable def measure (D : Finset A) (c : Config F A) : ℕ ×ₗ ℕ :=
  toLex ((unboundIn D c.graph).card, c.size)

omit [DecidableEq A] [DecidableEq (Node F A)] in
theorem size_cons {G : TermGraph F A} {m n : Node F A} {s t : Term F A} (hm : Den G m s)
    (hn : Den G n t) (E) : size ⟨G, (m, n) :: E⟩ = s.size + t.size + size ⟨G, E⟩ := by
  simp [size, terms_cons hm hn]

omit [DecidableEq A] [DecidableEq (Node F A)] in
theorem size_zip_le (ts us : List (Term F A)) :
    ((ts.zip us).map fun e => e.1.size + e.2.size).sum ≤
      (ts.map Term.size).sum + (us.map Term.size).sum := by
  induction ts generalizing us with
  | nil => simp
  | cons t ts ih =>
    cases us with
    | nil => simp
    | cons u us =>
      have := ih us
      simp only [List.zip_cons_cons, List.map_cons, List.sum_cons]
      omega

/-- One step between configurations of finite terms. -/
def Next (c' c : Config F A) : Prop := UStep c c' ∧ ¬ c.Cyclic

theorem measure_bind {D : Finset A} {G : TermGraph F A} {a : A} {n : Node F A} {E} (ha : a ∈ D)
    (hG : G a = .ref a) {e : Node F A × Node F A} (hlt : size ⟨G, E⟩ < size ⟨G, e :: E⟩) :
    measure D ⟨Function.update G a n, E⟩ < measure D ⟨G, e :: E⟩ := by
  by_cases hn : n = .ref a
  · rw [hn, ← hG, Function.update_eq_self]
    exact Prod.Lex.toLex_lt_toLex.2 (Or.inr ⟨rfl, hlt⟩)
  · exact Prod.Lex.toLex_lt_toLex.2 (Or.inl (card_unboundIn_update ha hG hn))

/-- A step that follows no reference makes the measure smaller. -/
theorem Good.measure_lt {D : Finset A} {G : TermGraph F A} {f : F} {as bs : List A} {E}
    (hc : Good (· ∈ D) ⟨G, (.app f as, .app f bs) :: E⟩) :
    measure D ⟨G, G.zip as bs ++ E⟩ < measure D ⟨G, (.app f as, .app f bs) :: E⟩ := by
  obtain ⟨has, hbs⟩ := hc.within _ List.mem_cons_self
  refine Prod.Lex.toLex_lt_toLex.2 (Or.inr ⟨rfl, ?_⟩)
  have hle := size_zip_le (as.map (value G)) (bs.map (value G))
  simp only [size, terms_zip hc.denotes has hbs, List.map_append, List.sum_append]
  simp only [terms, List.map_cons, List.sum_cons, Prod.map, Node.eval_app, build_term, size_app]
  omega

/-- **Termination.** No run through configurations of finite terms is infinite. -/
theorem Good.acc {D : Finset A} {c : Config F A} (hc : c.Good (· ∈ D)) : Acc Next c := by
  suffices h : ∀ (p : ℕ ×ₗ ℕ) (c : Config F A), c.Good (· ∈ D) → c.measure D = p → Acc Next c from
    h _ c hc rfl
  intro p
  induction p using WellFoundedLT.induction with
  | ind p ih =>
    rintro ⟨G, E⟩ hc rfl
    cases E with
    | nil => exact .intro _ fun c' hc' => by cases hc'.1
    | cons e E =>
      obtain ⟨x, y⟩ := e
      obtain ⟨s, hs⟩ : ∃ s, Den G x s := hc.denotes.node (hc.within _ List.mem_cons_self).1
      obtain ⟨t, ht⟩ : ∃ t, Den G y t := hc.denotes.node (hc.within _ List.mem_cons_self).2
      have hsize := size_cons hs ht E
      have hpos := s.size_pos
      generalize hp : measure D ⟨G, (x, y) :: E⟩ = p at ih
      -- Following references keeps the measure and shortens the derivation of the denotation.
      induction hs generalizing y t with
      | @unbound a ha =>
        refine .intro _ fun c' ⟨hstep, hcyc⟩ => ?_
        have hD := (hc.within _ List.mem_cons_self).1
        cases hstep with
        | derefLeft hne => exact (hne ha).elim
        | bindLeft =>
          refine ih _ ?_ _ (UStep.good (.bindLeft ha) hc hcyc) rfl
          rw [← hp]
          exact measure_bind hD ha (by omega)
      | @ref a s hne hs ihs =>
        refine .intro _ fun c' ⟨hstep, hcyc⟩ => ?_
        cases hstep with
        | bindLeft ha => exact (hne ha).elim
        | derefLeft =>
          have hsize' := size_cons hs ht E
          refine ihs y (UStep.good (.derefLeft hne) hc hcyc) t ht hsize' hpos ?_
          rw [← hp]
          simp only [measure, hsize, hsize']
      | @app f as ss hlen hss =>
        clear * - hc ht hsize hpos hp ih hlen hss
        have hs : Den G (.app f as) (.app f ss) := .app hlen hss
        induction ht with
        | @unbound b hb =>
          refine .intro _ fun c' ⟨hstep, hcyc⟩ => ?_
          have hD := (hc.within _ List.mem_cons_self).2
          cases hstep with
          | derefRight hne => exact (hne hb).elim
          | bindRight =>
            refine ih _ ?_ _ (UStep.good (.bindRight hb) hc hcyc) rfl
            rw [← hp]
            exact measure_bind hD hb (by omega)
        | @ref b t hne ht iht =>
          refine .intro _ fun c' ⟨hstep, hcyc⟩ => ?_
          cases hstep with
          | bindRight hb => exact (hne hb).elim
          | derefRight =>
            have hsize' := size_cons hs ht E
            refine iht (UStep.good (.derefRight hne) hc hcyc) hsize' ?_
            rw [← hp]
            simp only [measure, hsize, hsize']
        | app =>
          refine .intro _ fun c' ⟨hstep, hcyc⟩ => ?_
          have hgood := hstep.good hc hcyc
          cases hstep with
          | delete =>
            refine ih _ ?_ _ hgood rfl
            rw [← hp]
            exact Prod.Lex.toLex_lt_toLex.2 (Or.inr ⟨rfl, by omega⟩)
          | decompose =>
            refine ih _ ?_ _ hgood rfl
            rw [← hp]
            exact hc.measure_lt

/-- **Without the occurs check.** Equations that do not meet it are tame when no step binds in a
cycle. -/
theorem Good.tame_iff {D : Finset A} {c : Config F A} (hc : c.Good (· ∈ D)) :
    Tame c ↔ ∀ c', Run c c' → ¬ c'.Cyclic := by
  constructor
  · intro h c' hrun
    induction hrun using Relation.ReflTransGen.head_induction_on with
    | refl => exact h.not_cyclic
    | head hstep _ ih => exact ih (hstep.good hc h.not_cyclic) (h.step hstep)
  · intro hcyc
    have hacc := hc.acc
    clear hc
    induction hacc with
    | intro c _ ih =>
      have hc := hcyc c .refl
      exact tame_of_steps hc fun c' hstep => ih c' ⟨hstep, hc⟩ fun d hd => hcyc d (.head hstep hd)

end Config

end Termination

end FirstOrder
