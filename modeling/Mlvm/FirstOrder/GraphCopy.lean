import Mlvm.FirstOrder.Graph

/-!
# Copies of term graphs

A copy of a term graph need not keep the lengths of its reference chains: a copying collector
shortens some of them and makes others longer.

**`Answers`**: what two related nodes have to offer. Both are unbound, or both are the same symbol,
or one of them or both follow a reference. Steps of the copy alone lower a rank, so that they come
to an end; steps of the original alone end because the original denotes a finite term.

**`Den.copy`.** When all related nodes answer each other, the copy denotes the same term up to the
names of the variables.
-/

namespace FirstOrder

open Term

variable {F A B : Type*}

/-- How the nodes of the original `G` and of the copy `G'` go on, for a relation `R` with a rank.
The unbound cell `a` has the name `ν a` in the copy, where it is one of the cells `L`. -/
inductive Answers (G : TermGraph F A) (G' : TermGraph F B) (ν : A → B) (L : A → Prop)
    (R : ℕ → Node F A → Node F B → Prop) (k : ℕ) : Node F A → Node F B → Prop
  | unbound {a : A} : G a = .ref a → G' (ν a) = .ref (ν a) → L a →
      Answers G G' ν L R k (.ref a) (.ref (ν a))
  | left {a : A} {n' : Node F B} (k' : ℕ) : G a ≠ .ref a → R k' (G a) n' →
      Answers G G' ν L R k (.ref a) n'
  | right {b : B} {n : Node F A} (k' : ℕ) : G' b ≠ .ref b → k' < k → R k' n (G' b) →
      Answers G G' ν L R k n (.ref b)
  | both {a : A} {b : B} (k' : ℕ) : G a ≠ .ref a → G' b ≠ .ref b → R k' (G a) (G' b) →
      Answers G G' ν L R k (.ref a) (.ref b)
  | app {f : F} {as : List A} {bs : List B} : as.length = bs.length →
      (∀ p ∈ as.zip bs, ∃ k', R k' (.ref p.1) (.ref p.2)) →
      Answers G G' ν L R k (.app f as) (.app f bs)

/-- The term under other names. -/
def Term.rename (ν : A → B) (t : Term F A) : Term F B := t.subst fun a => .var (ν a)

@[simp] theorem Term.rename_var (ν : A → B) (a : A) : (var a : Term F A).rename ν = .var (ν a) := by
  rw [rename, subst_var_eq]

@[simp] theorem Term.rename_app (ν : A → B) (f : F) (ts : List (Term F A)) :
    (app f ts).rename ν = .app f (ts.map (rename ν)) := by
  rw [rename, subst_app]
  rfl

/-- Two cells with one node denote the same, unless one of them is unbound. -/
theorem Den.mirror {G : TermGraph F A} {a b : A} {t : Term F A} (h : Den G (.ref a) t)
    (heq : G b = G a) (hne : G b ≠ .ref b) : Den G (.ref b) t := by
  refine .ref hne ?_
  rw [heq]
  exact h.deref

/-- **A copy denotes the same terms.** -/
theorem Den.copy {G : TermGraph F A} {G' : TermGraph F B} {ν : A → B} {L : A → Prop}
    {R : ℕ → Node F A → Node F B → Prop}
    (hR : ∀ k n n', R k n n' → Answers G G' ν L R k n n') {n : Node F A} {t : Term F A}
    (h : Den G n t) {k : ℕ} {n' : Node F B} (hn : R k n n') :
    Den G' n' (t.rename ν) ∧ ∀ x, Occurs x t → L x := by
  induction h generalizing k n' with
  | @unbound a ha =>
    induction k using Nat.strong_induction_on generalizing n' with
    | _ k ih =>
      cases hR k _ n' hn with
      | unbound _ ha' hL =>
        rw [rename_var]
        exact ⟨.unbound ha', fun x hx => by rwa [occurs_var_iff.1 hx]⟩
      | left _ hne => exact absurd ha hne
      | right k' hne hlt hk => exact ⟨.ref hne (ih k' hlt hk).1, (ih k' hlt hk).2⟩
      | both _ hne => exact absurd ha hne
  | @ref a t ha _ ihref =>
    induction k using Nat.strong_induction_on generalizing n' with
    | _ k ih =>
      cases hR k _ n' hn with
      | unbound hu => exact absurd hu ha
      | left k' _ hk => exact ihref hk
      | right k' hne hlt hk => exact ⟨.ref hne (ih k' hlt hk).1, (ih k' hlt hk).2⟩
      | both k' _ hne hk => exact ⟨.ref hne (ihref hk).1, (ihref hk).2⟩
  | @app f as ts hlen _ ihapp =>
    induction k using Nat.strong_induction_on generalizing n' with
    | _ k ih =>
      cases hR k _ n' hn with
      | right k' hne hlt hk => exact ⟨.ref hne (ih k' hlt hk).1, (ih k' hlt hk).2⟩
      | @app _ _ bs hlen' hargs =>
        have hchild : ∀ i (hi : i < ts.length) (hib : i < bs.length),
            Den G' (.ref bs[i]) ((ts[i]).rename ν) ∧ ∀ x, Occurs x ts[i] → L x := by
          intro i hi hib
          have hia : i < as.length := by omega
          have hp : (as[i], bs[i]) ∈ as.zip bs :=
            List.mem_iff_getElem.2 ⟨i, by simp [hia, hib], by simp⟩
          obtain ⟨k', hk'⟩ := hargs _ hp
          exact ihapp (as[i], ts[i]) (List.mem_iff_getElem.2 ⟨i, by simp [hia, hi], by simp⟩) hk'
        rw [rename_app]
        refine ⟨.app (by simp [← hlen', hlen]) fun p hp => ?_, fun x hx => ?_⟩
        · obtain ⟨i, hi, rfl⟩ := List.mem_iff_getElem.1 hp
          simp only [List.length_zip, List.length_map] at hi
          simpa using (hchild i (by omega) (by omega)).1
        · obtain ⟨u, hu, hx⟩ := occurs_app_iff.1 hx
          obtain ⟨i, hi, rfl⟩ := List.mem_iff_getElem.1 hu
          exact (hchild i hi (by omega)).2 x hx

end FirstOrder
