import Mlvm.FirstOrder.Term
import Mathlib.Data.Finset.Card

/-!
# Term graphs

A graph whose nodes are references to cells or symbols applied to cells, with one node at every
cell. A cell that refers to itself is an unbound variable.

**Denotation.** `Den G n t`: unfolding the node `n` in `G` ends and gives the finite term `t`,
whose variables are the unbound cells it comes to.

**Solutions.** `Solves θ D G`: the assignment `θ` of values to cells respects the node of every
cell of `D`. The denotation is the most general solution (`Den.eval_eq`), and binding an unbound
cell adds exactly one equation to what a solution has to satisfy (`solves_update`). Unification
by binding is therefore sound and most general as soon as every step keeps the solutions of
the pending equations.

**Chains.** `ChainEnds G n`: the references from `n` end. A graph of finite terms has such chains;
the other way round it needs a finite solution (`Solves.denotes`), as cells may lead to each other
through symbols.
-/

namespace FirstOrder

open Term

variable {F A W X : Type*}

/-- A reference to a cell, or a symbol with its argument cells. -/
inductive Node (F A : Type*) where
  | ref (a : A)
  | app (f : F) (args : List A)
  deriving DecidableEq

/-- One node at every cell. -/
abbrev TermGraph (F A : Type*) := A → Node F A

namespace Node

/-- The cells a node leads to lie in `D`. -/
def In (D : A → Prop) : Node F A → Prop
  | ref a => D a
  | app _ as => ∀ a ∈ as, D a

/-- The value of a node under an assignment of values to cells. -/
def eval [Builds F X] (θ : A → X) : Node F A → X
  | ref a => θ a
  | app f as => build f (as.map θ)

@[simp] theorem eval_ref [Builds F X] (θ : A → X) (a : A) : (ref a : Node F A).eval θ = θ a := rfl

@[simp] theorem eval_app [Builds F X] (θ : A → X) (f : F) (as : List A) :
    (app f as).eval θ = build f (as.map θ) := rfl

end Node

/-! ## Denotation -/

/-- Unfolding the node ends and gives the term. -/
inductive Den (G : TermGraph F A) : Node F A → Term F A → Prop
  | unbound {a : A} : G a = .ref a → Den G (.ref a) (.var a)
  | ref {a : A} {t : Term F A} : G a ≠ .ref a → Den G (G a) t → Den G (.ref a) t
  | app {f : F} {as : List A} {ts : List (Term F A)} : as.length = ts.length →
      (∀ p ∈ as.zip ts, Den G (.ref p.1) p.2) → Den G (.app f as) (.app f ts)

theorem zip_unique {A B : Type*} {R : A → B → Prop} {as : List A} {ts us : List B}
    (ht : as.length = ts.length) (hu : as.length = us.length)
    (hR : ∀ p ∈ as.zip ts, ∀ u, R p.1 u → p.2 = u) (hus : ∀ p ∈ as.zip us, R p.1 p.2) :
    ts = us := by
  induction as generalizing ts us with
  | nil => cases ts <;> cases us <;> simp_all
  | cons a as ih =>
    cases ts with
    | nil => simp at ht
    | cons t ts =>
      cases us with
      | nil => simp at hu
      | cons u us =>
        simp only [List.zip_cons_cons, List.mem_cons, forall_eq_or_imp] at hR hus
        rw [hR.1 u hus.1, ih (by simpa using ht) (by simpa using hu) hR.2 hus.2]

theorem Den.unique {G : TermGraph F A} {n : Node F A} {t u : Term F A} (ht : Den G n t)
    (hu : Den G n u) : t = u := by
  induction ht generalizing u with
  | unbound ha =>
    cases hu with
    | unbound => rfl
    | ref hne => exact (hne ha).elim
  | ref hne _ ih =>
    cases hu with
    | unbound ha => exact (hne ha).elim
    | ref _ hu => exact ih hu
  | app hlen _ ih =>
    cases hu with
    | app hlen' hus =>
      rw [zip_unique (R := fun a u => Den G (.ref a) u) hlen hlen' (fun p hp u hu => ih p hp hu)
        hus]

/-- Every cell of `D` denotes a finite term. -/
def Denotes (D : A → Prop) (G : TermGraph F A) : Prop := ∀ a, D a → ∃ t, Den G (.ref a) t

/-- The nodes of the cells of `D` lead to cells of `D`. -/
def Closed (D : A → Prop) (G : TermGraph F A) : Prop := ∀ a, D a → (G a).In D

theorem exists_den_list {G : TermGraph F A} {as : List A} (h : ∀ a ∈ as, ∃ t, Den G (.ref a) t) :
    ∃ ts : List (Term F A), as.length = ts.length ∧ ∀ p ∈ as.zip ts, Den G (.ref p.1) p.2 := by
  induction as with
  | nil => exact ⟨[], rfl, by simp⟩
  | cons a as ih =>
    obtain ⟨t, ht⟩ := h a List.mem_cons_self
    obtain ⟨ts, hlen, hts⟩ := ih fun b hb => h b (List.mem_cons_of_mem _ hb)
    refine ⟨t :: ts, by simp [hlen], fun p hp => ?_⟩
    rcases List.mem_cons.1 hp with rfl | hp
    · exact ht
    · exact hts p hp

theorem Denotes.node {D : A → Prop} {G : TermGraph F A} (h : Denotes D G) {n : Node F A}
    (hn : n.In D) : ∃ t, Den G n t := by
  cases n with
  | ref a => exact h a hn
  | app f as =>
    obtain ⟨ts, hlen, hts⟩ := exists_den_list fun a ha => h a (hn a ha)
    exact ⟨.app f ts, .app hlen hts⟩

/-- The variables of a denoted term are unbound cells. -/
theorem Den.unbound_of_occurs {G : TermGraph F A} {n : Node F A} {t : Term F A} (h : Den G n t)
    {x : A} (hx : Occurs x t) : G x = .ref x := by
  induction h with
  | unbound ha => cases hx; exact ha
  | ref _ _ ih => exact ih hx
  | @app f as ts hlen _ ih =>
    obtain ⟨t, ht, hx⟩ := occurs_app_iff.1 hx
    obtain ⟨i, hi, rfl⟩ := List.mem_iff_getElem.1 ht
    exact ih (as[i], ts[i]) (List.mem_iff_getElem.2 ⟨i, by simp [hlen, hi], by simp⟩) hx

/-- The variables of a denoted term are cells of the part the node leads to. -/
theorem Den.in_of_occurs {G : TermGraph F A} {D : A → Prop} (hD : Closed D G) {n : Node F A}
    {t : Term F A} (h : Den G n t) (hn : n.In D) {x : A} (hx : Occurs x t) : D x := by
  induction h with
  | unbound => cases hx; exact hn
  | @ref a t _ _ ih => exact ih (hD a hn) hx
  | @app f as ts hlen _ ih =>
    obtain ⟨t, ht, hx⟩ := occurs_app_iff.1 hx
    obtain ⟨i, hi, rfl⟩ := List.mem_iff_getElem.1 ht
    have hi' : i < as.length := by rwa [hlen]
    exact ih (as[i], ts[i]) (List.mem_iff_getElem.2 ⟨i, by simp [hi, hi'], by simp⟩)
      (hn _ (List.getElem_mem hi')) hx

/-- The cells whose terms have no other variables than those of `P`. -/
def VarsIn (G : TermGraph F A) (P : A → Prop) (a : A) : Prop :=
  ∃ t, Den G (.ref a) t ∧ ∀ x, Occurs x t → P x

theorem Den.in_varsIn {G : TermGraph F A} {P : A → Prop} {n : Node F A} {t : Term F A}
    (h : Den G n t) (ht : ∀ x, Occurs x t → P x) : n.In (VarsIn G P) := by
  cases h with
  | unbound ha => exact ⟨_, .unbound ha, ht⟩
  | ref hne h => exact ⟨_, .ref hne h, ht⟩
  | @app f as ts hlen hts =>
    intro a ha
    obtain ⟨i, hi, rfl⟩ := List.mem_iff_getElem.1 ha
    have hi' : i < ts.length := by rwa [← hlen]
    refine ⟨ts[i], hts (as[i], ts[i]) ?_, fun x hx => ht x (.app (List.getElem_mem hi') hx)⟩
    exact List.mem_iff_getElem.2 ⟨i, by simp [hi, hi'], by simp⟩

/-- Following one reference keeps the term. -/
theorem Den.deref {G : TermGraph F A} {a : A} {t : Term F A} (h : Den G (.ref a) t) :
    Den G (G a) t := by
  cases h with
  | unbound ha => rw [ha]; exact .unbound ha
  | ref _ h => exact h

theorem closed_varsIn (G : TermGraph F A) (P : A → Prop) : Closed (VarsIn G P) G :=
  fun _ ⟨_, ha, ht⟩ => ha.deref.in_varsIn ht

/-! ## Solutions -/

/-- The assignment respects the node of every cell of `D`. -/
def Solves [Builds F X] (θ : A → X) (D : A → Prop) (G : TermGraph F A) : Prop :=
  ∀ a, D a → θ a = (G a).eval θ

theorem map_eq_of_zip {A B : Type*} {as : List A} {ts : List B} {φ : A → W} {ψ : B → W}
    (hlen : as.length = ts.length) (h : ∀ p ∈ as.zip ts, φ p.1 = ψ p.2) :
    as.map φ = ts.map ψ := by
  induction as generalizing ts with
  | nil => cases ts <;> simp_all
  | cons a as ih =>
    cases ts with
    | nil => simp at hlen
    | cons t ts =>
      simp only [List.zip_cons_cons, List.mem_cons, forall_eq_or_imp] at h
      rw [List.map_cons, List.map_cons, h.1, ih (by simpa using hlen) h.2]

/-- **Every solution is an instance of the denotation.** -/
theorem Den.eval_eq [Builds F X] {G : TermGraph F A} {D : A → Prop} {θ : A → X}
    (hθ : Solves θ D G) (hD : Closed D G) {n : Node F A} {t : Term F A} (h : Den G n t)
    (hn : n.In D) : n.eval θ = t.eval θ := by
  induction h with
  | unbound => simp
  | @ref a t _ _ ih => rw [Node.eval_ref, hθ a hn, ih (hD a hn)]
  | app hlen _ ih =>
    rw [Node.eval_app, Term.eval_app, map_eq_of_zip hlen fun p hp => ?_]
    exact ih p hp (hn p.1 (List.of_mem_zip hp).1)

/-- The term a cell denotes, and the cell itself where there is none. -/
noncomputable def value (G : TermGraph F A) (a : A) : Term F A :=
  open Classical in if h : ∃ t, Den G (.ref a) t then h.choose else .var a

theorem Den.value_eq {G : TermGraph F A} {a : A} {t : Term F A} (h : Den G (.ref a) t) :
    value G a = t := by
  have he : ∃ t, Den G (.ref a) t := ⟨t, h⟩
  rw [value, dif_pos he]
  exact he.choose_spec.unique h

theorem Den.eval_value {G : TermGraph F A} {n : Node F A} {t : Term F A} (h : Den G n t) :
    n.eval (value G) = t := by
  cases h with
  | unbound ha => exact (Den.unbound ha).value_eq
  | ref hne h => exact (Den.ref hne h).value_eq
  | @app f as ts hlen h =>
    have hmap : as.map (value G) = ts.map id :=
      map_eq_of_zip hlen fun p hp => (h p hp).value_eq
    rw [Node.eval_app, build_term, hmap, List.map_id]

/-- The denotation is a solution. -/
theorem solves_value {G : TermGraph F A} {D : A → Prop} (h : Denotes D G) :
    Solves (value G) D G := fun a ha => by
  obtain ⟨t, ht⟩ := h a ha
  rw [ht.value_eq]
  cases ht with
  | unbound hu => rw [hu, Node.eval_ref, (Den.unbound hu).value_eq]
  | ref _ ht => exact ht.eval_value.symm

theorem Solves.subst {X : Type*} {θ : A → Term F W} {D : A → Prop} {G : TermGraph F A}
    (h : Solves θ D G) (σ : W → Term F X) : Solves (fun a => (θ a).subst σ) D G := fun a ha => by
  show (θ a).subst σ = _
  rw [h a ha]
  cases G a with
  | ref b => rfl
  | app f as => simp [Function.comp_def]

theorem Node.eval_subst {X : Type*} (θ : A → Term F W) (σ : W → Term F X) (n : Node F A) :
    n.eval (fun a => (θ a).subst σ) = (n.eval θ).subst σ := by
  cases n with
  | ref a => rfl
  | app f as => simp [Function.comp_def]

/-! ## Binding an unbound cell -/

section Update

variable [DecidableEq A]

/-- **Binding a cell adds one equation.** -/
theorem solves_update [Builds F X] {G : TermGraph F A} {D : A → Prop} {a : A} {n : Node F A}
    (ha : D a) (hG : G a = .ref a) (θ : A → X) :
    Solves θ D (Function.update G a n) ↔ Solves θ D G ∧ θ a = n.eval θ := by
  constructor
  · refine fun h => ⟨fun b hb => ?_, by simpa using h a ha⟩
    by_cases hba : b = a
    · rw [hba, hG, Node.eval_ref]
    · simpa [hba] using h b hb
  · rintro ⟨h, hn⟩ b hb
    by_cases hba : b = a
    · rw [hba, Function.update_self, hn]
    · simpa [hba] using h b hb

theorem Closed.update {G : TermGraph F A} {D : A → Prop} (h : Closed D G) {n : Node F A}
    (hn : n.In D) (a : A) : Closed D (Function.update G a n) := fun b hb => by
  by_cases hba : b = a
  · rw [hba, Function.update_self]; exact hn
  · rw [Function.update_of_ne hba]; exact h b hb

theorem Den.update_of_not_occurs {G : TermGraph F A} {a : A} (n : Node F A) (hG : G a = .ref a)
    {m : Node F A} {s : Term F A} (h : Den G m s) (ho : ¬ Occurs a s) :
    Den (Function.update G a n) m s := by
  induction h with
  | @unbound b hb =>
    have hne : b ≠ a := fun he => ho (by simp [he])
    exact .unbound (by rw [Function.update_of_ne hne, hb])
  | @ref b t hb _ ih =>
    have hne : b ≠ a := fun he => hb (by rw [he, hG])
    have hGb : Function.update G a n b = G b := Function.update_of_ne hne _ _
    refine .ref (by rwa [hGb]) ?_
    rw [hGb]
    exact ih ho
  | app hlen _ ih =>
    exact .app hlen fun p hp => ih p hp fun hx => ho (.app (List.of_mem_zip hp).2 hx)

/-- **Binding substitutes.** Binding the unbound cell `a` to a node that denotes `t` turns every
denoted term into its instance under `a ↦ t`, when `a` is not in `t`. -/
theorem Den.update {G : TermGraph F A} {a : A} {n : Node F A} {t : Term F A} (hG : G a = .ref a)
    (hn : Den G n t) (ho : ¬ Occurs a t) {m : Node F A} {s : Term F A} (h : Den G m s) :
    Den (Function.update G a n) m (s.subst (elim a t)) := by
  induction h with
  | @unbound b hb =>
    by_cases hba : b = a
    · subst hba
      rw [subst_var_eq, elim_self]
      have hna : n ≠ .ref b := fun he => ho (by
        rw [he] at hn
        rw [hn.unique (.unbound hG)]
        exact .var)
      refine .ref (by rwa [Function.update_self]) ?_
      rw [Function.update_self]
      exact hn.update_of_not_occurs n hG ho
    · rw [subst_var_eq, elim_of_ne _ hba]
      exact .unbound (by rw [Function.update_of_ne hba, hb])
  | @ref b t hb _ ih =>
    have hne : b ≠ a := fun he => hb (by rw [he, hG])
    have hGb : Function.update G a n b = G b := Function.update_of_ne hne _ _
    refine .ref (by rwa [hGb]) ?_
    rw [hGb]
    exact ih
  | @app f as ts hlen _ ih =>
    rw [subst_app]
    refine .app (by simpa using hlen) fun p hp => ?_
    rw [List.zip_map_right] at hp
    obtain ⟨q, hq, rfl⟩ := List.mem_map.1 hp
    exact ih q hq

theorem Denotes.update {G : TermGraph F A} {D : A → Prop} (h : Denotes D G) {a : A} {n : Node F A}
    {t : Term F A} (hG : G a = .ref a) (hn : Den G n t) (ho : ¬ Occurs a t) :
    Denotes D (Function.update G a n) := fun b hb => by
  obtain ⟨s, hs⟩ := h b hb
  exact ⟨_, Den.update hG hn ho hs⟩

/-! ## Reference chains -/

/-- The chain of references from a node comes to an unbound cell or a symbol. -/
inductive ChainEnds (G : TermGraph F A) : Node F A → Prop
  | unbound {a : A} : G a = .ref a → ChainEnds G (.ref a)
  | ref {a : A} : ChainEnds G (G a) → ChainEnds G (.ref a)
  | app {f : F} {as : List A} : ChainEnds G (.app f as)

omit [DecidableEq A] in
/-- **Finite solutions give finite terms.** -/
theorem Solves.denotes {G : TermGraph F A} {D : A → Prop} {θ : A → Term F W} (hθ : Solves θ D G)
    (hD : Closed D G) (hends : ∀ a, D a → ChainEnds G (.ref a)) : Denotes D G := by
  suffices h : ∀ k, ∀ n : Node F A, ChainEnds G n → n.In D → (n.eval θ).size ≤ k →
    ∃ t, Den G n t from
    fun a ha => h _ _ (hends a ha) ha le_rfl
  -- The size goes down at a symbol, and between symbols the chain is followed.
  intro k
  induction k with
  | zero => exact fun n _ _ hk => absurd hk (by have := (n.eval θ).size_pos; omega)
  | succ k ih =>
    intro n hn
    induction hn with
    | unbound ha => exact fun _ _ => ⟨_, .unbound ha⟩
    | @ref a _ iha =>
      intro ha hk
      by_cases hu : G a = .ref a
      · exact ⟨_, .unbound hu⟩
      · rw [Node.eval_ref, hθ a ha] at hk
        exact (iha (hD a ha) hk).imp fun _ ht => .ref hu ht
    | @app f as =>
      intro hin hk
      have hargs : ∀ a ∈ as, ∃ t, Den G (.ref a) t := by
        intro a ha
        refine ih _ (hends a (hin a ha)) (hin a ha) ?_
        have hle := size_le_sum (List.mem_map_of_mem (f := θ) ha)
        simp only [Node.eval_app, build_term, size_app] at hk
        rw [Node.eval_ref]
        omega
      obtain ⟨ts, hlen, hts⟩ := exists_den_list hargs
      exact ⟨_, .app hlen hts⟩

omit [DecidableEq A] in
theorem Den.chainEnds {G : TermGraph F A} {n : Node F A} {t : Term F A} (h : Den G n t) :
    ChainEnds G n := by
  induction h with
  | unbound ha => exact .unbound ha
  | ref _ _ ih => exact .ref ih
  | app => exact .app

/-- **A cyclic chain.** Binding an unbound cell to another reference that leads back to it makes a
chain of references that never ends. -/
theorem not_chainEnds_update {G : TermGraph F A} {a : A} {n : Node F A} (hG : G a = .ref a)
    (hn : Den G n (.var a)) (hne : n ≠ .ref a) : ¬ ChainEnds (Function.update G a n) (.ref a) := by
  -- No node that denotes the variable in `G` ends in the new graph.
  suffices h : ∀ m, ChainEnds (Function.update G a n) m → ¬ Den G m (.var a) from
    fun hc => h _ hc (.unbound hG)
  intro m hm
  induction hm with
  | @unbound b hb =>
    intro hd
    by_cases hba : b = a
    · subst hba
      exact hne (by simpa using hb)
    · rw [Function.update_of_ne hba] at hb
      have := hd.unique (.unbound hb)
      exact hba (by simpa using this.symm)
  | @ref b _ ih =>
    intro hd
    by_cases hba : b = a
    · rw [hba, Function.update_self] at ih
      exact ih hn
    · rw [Function.update_of_ne hba] at ih
      cases hd with
      | unbound => exact hba rfl
      | ref _ hd => exact ih hd
  | app => intro hd; cases hd

/-- A chain that does not lead to `a` is as before. -/
theorem ChainEnds.update_of_not_den {G : TermGraph F A} {a : A} (n : Node F A) (hG : G a = .ref a)
    {m : Node F A} (h : ChainEnds G m) (hm : ¬ Den G m (.var a)) :
    ChainEnds (Function.update G a n) m := by
  induction h with
  | @unbound b hb =>
    have hba : b ≠ a := by
      rintro rfl
      exact hm (.unbound hb)
    exact .unbound (by rw [Function.update_of_ne hba, hb])
  | @ref b _ ih =>
    have hba : b ≠ a := by
      rintro rfl
      exact hm (.unbound hG)
    refine .ref ?_
    rw [Function.update_of_ne hba]
    refine ih fun hd => hm ?_
    by_cases hb : G b = .ref b
    · rwa [hb] at hd
    · exact .ref hb hd
  | app => exact .app

/-- **Other bindings keep the chains.** -/
theorem ChainEnds.update {G : TermGraph F A} {a : A} {n : Node F A} (hG : G a = .ref a)
    (hn : ChainEnds G n) (hna : ¬ Den G n (.var a)) {m : Node F A} (h : ChainEnds G m) :
    ChainEnds (Function.update G a n) m := by
  have hend : ChainEnds (Function.update G a n) (.ref a) := by
    refine .ref ?_
    rw [Function.update_self]
    exact hn.update_of_not_den n hG hna
  induction h with
  | @unbound b hb =>
    by_cases hba : b = a
    · rwa [hba]
    · exact .unbound (by rw [Function.update_of_ne hba, hb])
  | @ref b _ ih =>
    by_cases hba : b = a
    · rwa [hba]
    · refine .ref ?_
      rwa [Function.update_of_ne hba]
  | app => exact .app

/-! ## Counting unbound cells -/

variable [DecidableEq (Node F A)]

/-- The unbound cells of a finite set. -/
def unboundIn (D : Finset A) (G : TermGraph F A) : Finset A := D.filter fun a => G a = .ref a

theorem card_unboundIn_update {D : Finset A} {G : TermGraph F A} {a : A} {n : Node F A} (ha : a ∈ D)
    (hG : G a = .ref a) (hne : n ≠ .ref a) :
    (unboundIn D (Function.update G a n)).card < (unboundIn D G).card := by
  refine Finset.card_lt_card ⟨fun b hb => ?_, fun hsub => ?_⟩
  · simp only [unboundIn, Finset.mem_filter] at hb ⊢
    have hba : b ≠ a := by
      rintro rfl
      exact hne (by simpa using hb.2)
    exact ⟨hb.1, by simpa [hba] using hb.2⟩
  · have := hsub (Finset.mem_filter.2 ⟨ha, hG⟩)
    simp only [unboundIn, Finset.mem_filter, Function.update_self] at this
    exact hne this.2

end Update

end FirstOrder
