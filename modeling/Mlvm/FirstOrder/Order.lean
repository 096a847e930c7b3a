import Mlvm.FirstOrder.Term
import Mathlib.Data.List.Lex
import Mathlib.Data.Prod.Lex
import Mathlib.Data.Sum.Order
import Mathlib.Order.Compare

/-!
# The standard order of terms

**Prefix notation.** A term is written as a list: a variable as itself, a compound term as its
symbol with the number of its arguments, and then the arguments. No term's notation begins another's
(`polish_append_inj`), so the notation determines the term.

**Order.** Terms are ordered as their notations, lexicographically: variables, then compound terms
by symbol, number of arguments, and arguments from the left. The order is linear because lists are.
-/

namespace FirstOrder

variable {F G H V : Type*}

/-- A letter of the prefix notation. -/
abbrev Letter (F V : Type*) := V ⊕ₗ (F ×ₗ ℕ)

namespace Term

/-! ## Renaming symbols -/

/-- Replace every symbol `f` by `φ f`. -/
def mapSym (φ : F → G) : Term F V → Term G V
  | var v => var v
  | app f ts => app (φ f) (ts.map (mapSym φ))

@[simp] theorem mapSym_var (φ : F → G) (v : V) : (var v : Term F V).mapSym φ = var v := by
  rw [mapSym]

@[simp] theorem mapSym_app (φ : F → G) (f : F) (ts : List (Term F V)) :
    (app f ts).mapSym φ = app (φ f) (ts.map (mapSym φ)) := by
  rw [mapSym]

/-- The symbols of a term satisfy `R`. -/
inductive SymsIn (R : F → Prop) : Term F V → Prop
  | var (v : V) : SymsIn R (.var v)
  | app {f : F} {ts : List (Term F V)} : R f → (∀ t ∈ ts, SymsIn R t) → SymsIn R (.app f ts)

/-- Two renamings that identify the same symbols identify the same terms. -/
theorem mapSym_eq_iff {R : F → Prop} {φ : F → G} {ψ : F → H}
    (h : ∀ f g, R f → R g → (φ f = φ g ↔ ψ f = ψ g)) {t u : Term F V} (ht : SymsIn R t)
    (hu : SymsIn R u) : t.mapSym φ = u.mapSym φ ↔ t.mapSym ψ = u.mapSym ψ := by
  induction ht generalizing u with
  | var v => cases hu <;> simp
  | @app f ts hf hts ih =>
    cases hu with
    | var => simp
    | @app g us hg hus =>
      have hargs : ts.map (mapSym φ) = us.map (mapSym φ) ↔
          ts.map (mapSym ψ) = us.map (mapSym ψ) := by
        clear hf
        induction ts generalizing us with
        | nil => cases us <;> simp
        | cons t ts iht =>
          cases us with
          | nil => simp
          | cons u us =>
            simp only [List.map_cons, List.cons.injEq]
            rw [ih t List.mem_cons_self (hus u List.mem_cons_self),
              iht (fun s hs => hts s (List.mem_cons_of_mem _ hs))
                (fun s hs _ => ih s (List.mem_cons_of_mem _ hs))
                fun s hs => hus s (List.mem_cons_of_mem _ hs)]
      simp only [mapSym_app, app.injEq]
      rw [h f g hf hg, hargs]

/-! ## Prefix notation -/

/-- The prefix notation of a term. -/
def polish : Term F V → List (Letter F V)
  | var v => [toLex (.inl v)]
  | app f ts => toLex (.inr (toLex (f, ts.length))) :: (ts.map polish).flatten

theorem polish_var (v : V) : (var v : Term F V).polish = [toLex (.inl v)] := by
  rw [polish]

theorem polish_app (f : F) (ts : List (Term F V)) :
    (app f ts).polish = toLex (.inr (toLex (f, ts.length))) :: (ts.map polish).flatten := by
  rw [polish]

/-- **No notation begins another one.** -/
theorem polish_append_inj {t u : Term F V} {r s : List (Letter F V)}
    (h : t.polish ++ r = u.polish ++ s) : t = u ∧ r = s := by
  induction t generalizing u r s with
  | var v =>
    cases u with
    | var w =>
      rw [polish_var, polish_var] at h
      obtain ⟨hvw, hrs⟩ := List.cons.inj h
      exact ⟨congrArg var (Sum.inl.inj hvw), hrs⟩
    | app g us =>
      rw [polish_var, polish_app] at h
      cases (List.cons.inj h).1
  | app f ts ih =>
    cases u with
    | var w =>
      rw [polish_var, polish_app] at h
      cases (List.cons.inj h).1
    | app g us =>
      rw [polish_app, polish_app] at h
      obtain ⟨hhead, htail⟩ := List.cons.inj h
      obtain ⟨rfl, hlen⟩ := Prod.mk.inj (Sum.inr.inj hhead)
      have hargs : ts = us ∧ r = s := by
        clear h hhead
        induction ts generalizing us r s with
        | nil =>
          cases us with
          | nil => exact ⟨rfl, htail⟩
          | cons => cases hlen
        | cons t ts iht =>
          cases us with
          | nil => cases hlen
          | cons u us =>
            simp only [List.map_cons, List.flatten_cons] at htail
            have hfirst : t.polish ++ ((ts.map polish).flatten ++ r) =
                u.polish ++ ((us.map polish).flatten ++ s) := by
              rw [← List.append_assoc, ← List.append_assoc]
              exact htail
            obtain ⟨rfl, hrest⟩ := ih t List.mem_cons_self hfirst
            obtain ⟨rfl, rfl⟩ := iht (fun s hs => ih s (List.mem_cons_of_mem _ hs)) us hrest
              (Nat.succ.inj hlen)
            exact ⟨rfl, rfl⟩
      exact ⟨congrArg (app f) hargs.1, hargs.2⟩

theorem polish_inj {t u : Term F V} : t.polish = u.polish ↔ t = u := by
  refine ⟨fun h => ?_, fun h => h ▸ rfl⟩
  have happend : t.polish ++ [] = u.polish ++ [] := by rw [h]
  exact (polish_append_inj happend).1

/-! ## The order -/

section Comparison

variable {A B : Type*} [LinearOrder A] [LinearOrder B]

/-- The comparison of a linear order. -/
def compared (a b : A) : Ordering := cmp a b

theorem compared_eq {a b : A} {o : Ordering} (h : o.Compares a b) : compared a b = o := h.cmp_eq

theorem compares_compared (a b : A) : (compared a b).Compares a b := cmp_compares a b

theorem compared_self (a : A) : compared a a = .eq := cmp_self_eq_eq a

theorem compared_swap (a b : A) : (compared a b).swap = compared b a := cmp_swap a b

theorem compared_eq_iff {a b : A} : compared a b = .eq ↔ a = b := cmp_eq_eq_iff a b

theorem compared_trans {a b c : A} (hab : compared a b ≠ .gt) (hbc : compared b c ≠ .gt) :
    compared a c ≠ .gt := by
  rw [compared, Ne, cmp_eq_gt_iff, not_lt] at *
  exact hab.trans hbc

/-- A strictly monotone map keeps comparisons. -/
theorem compared_map (φ : A → B) (hφ : ∀ a b, a < b → φ a < φ b) (a b : A) :
    compared (φ a) (φ b) = compared a b := by
  refine compared_eq ?_
  have h := compares_compared a b
  cases hcmp : compared a b <;> rw [hcmp] at h
  · exact hφ a b h
  · exact congrArg φ h
  · exact hφ b a h

theorem compared_append_left (l r s : List A) : compared (l ++ r) (l ++ s) = compared r s := by
  refine compared_map (fun r => l ++ r) (fun r s h => ?_) r s
  induction l with
  | nil => exact h
  | cons a l ih => exact List.cons_lt_cons_iff.mpr (Or.inr ⟨rfl, ih⟩)

theorem compared_cons_of_ne {a b : A} (hne : a ≠ b) (r s : List A) :
    compared (a :: r) (b :: s) = compared a b := by
  refine compared_eq ?_
  have h := compares_compared a b
  cases hcmp : compared a b <;> rw [hcmp] at h
  · exact List.cons_lt_cons_iff.mpr (Or.inl h)
  · exact (hne h).elim
  · exact List.cons_lt_cons_iff.mpr (Or.inl h)

@[simp] theorem compared_inl_inl (a b : A) :
    compared (toLex (.inl a) : A ⊕ₗ B) (toLex (.inl b)) = compared a b :=
  compared_map (fun a => (toLex (.inl a) : A ⊕ₗ B))
    (fun _ _ h => Sum.Lex.inl_lt_inl_iff.mpr h) a b

@[simp] theorem compared_inr_inr (a b : B) :
    compared (toLex (.inr a) : A ⊕ₗ B) (toLex (.inr b)) = compared a b :=
  compared_map (fun b => (toLex (.inr b) : A ⊕ₗ B))
    (fun _ _ h => Sum.Lex.inr_lt_inr_iff.mpr h) a b

@[simp] theorem compared_inl_inr (a : A) (b : B) :
    compared (toLex (.inl a) : A ⊕ₗ B) (toLex (.inr b)) = .lt :=
  compared_eq (Sum.Lex.inl_lt_inr a b)

@[simp] theorem compared_inr_inl (a : A) (b : B) :
    compared (toLex (.inr b) : A ⊕ₗ B) (toLex (.inl a)) = .gt :=
  compared_eq (Sum.Lex.inl_lt_inr a b)

/-- Different first components decide. -/
theorem compared_pair_of_ne {a a' : A} (hne : a ≠ a') (b b' : B) :
    compared (toLex (a, b)) (toLex (a', b')) = compared a a' := by
  refine compared_eq ?_
  have h := compares_compared a a'
  cases hcmp : compared a a' <;> rw [hcmp] at h
  · exact Prod.Lex.toLex_lt_toLex.mpr (Or.inl h)
  · exact (hne h).elim
  · exact Prod.Lex.toLex_lt_toLex.mpr (Or.inl h)

end Comparison

variable [LinearOrder F] [LinearOrder V]

/-- **The standard order.** -/
def order (t u : Term F V) : Ordering := compared t.polish u.polish

theorem order_swap (t u : Term F V) : (order t u).swap = order u t := compared_swap _ _

theorem order_eq_iff {t u : Term F V} : order t u = .eq ↔ t = u :=
  compared_eq_iff.trans polish_inj

theorem order_trans {t u v : Term F V} (htu : order t u ≠ .gt) (huv : order u v ≠ .gt) :
    order t v ≠ .gt :=
  compared_trans htu huv

@[simp] theorem order_var_var (v w : V) : order (var v : Term F V) (var w) = compared v w := by
  by_cases hvw : v = w
  · rw [hvw, compared_self, order_eq_iff]
  · have hletter : (toLex (.inl v) : Letter F V) ≠ toLex (.inl w) := fun h => hvw (Sum.inl.inj h)
    rw [order, polish_var, polish_var, compared_cons_of_ne hletter]
    exact compared_inl_inl v w

@[simp] theorem order_var_app (v : V) (f : F) (ts : List (Term F V)) :
    order (var v) (app f ts) = .lt := by
  have hletter : (toLex (.inl v) : Letter F V) ≠ toLex (.inr (toLex (f, ts.length))) :=
    fun h => by cases h
  rw [order, polish_var, polish_app, compared_cons_of_ne hletter, compared_inl_inr]

@[simp] theorem order_app_var (f : F) (ts : List (Term F V)) (v : V) :
    order (app f ts) (var v) = .gt := by
  rw [← order_swap, order_var_app, Ordering.swap_lt]

/-- Different symbols decide. -/
theorem order_app_of_ne {f g : F} (hne : f ≠ g) (ts us : List (Term F V)) :
    order (app f ts) (app g us) = compared f g := by
  have hletter : (toLex (.inr (toLex (f, ts.length))) : Letter F V) ≠
      toLex (.inr (toLex (g, us.length))) := fun h => hne (Prod.mk.inj (Sum.inr.inj h)).1
  rw [order, polish_app, polish_app, compared_cons_of_ne hletter, compared_inr_inr,
    compared_pair_of_ne hne]

/-- **With the same symbol and the same arguments before, the last argument decides.** -/
theorem order_app_last (f : F) (ts : List (Term F V)) (t u : Term F V) :
    order (app f (ts ++ [t])) (app f (ts ++ [u])) = order t u := by
  have hlast : ∀ s : Term F V, (app f (ts ++ [s])).polish =
      (toLex (.inr (toLex (f, ts.length + 1))) :: (ts.map polish).flatten) ++ s.polish := by
    intro s
    simp [polish_app]
  rw [order, hlast, hlast, compared_append_left, order]

theorem order_app_init {f : F} {ts us : List (Term F V)} {t u : Term F V} {k : ℕ}
    (ht : ts.length = k + 1) (hu : us.length = k + 1) (htk : ts[k]? = some t)
    (huk : us[k]? = some u) (hinit : ∀ j < k, ts[j]? = us[j]?) :
    order (app f ts) (app f us) = order t u := by
  have hsplit : ∀ (l : List (Term F V)) (s : Term F V), l.length = k + 1 → l[k]? = some s →
      l = l.take k ++ [s] := by
    intro l s hl hs
    have htake : l.take (k + 1) = l.take k ++ [s] := by
      rw [List.take_add_one, hs, Option.toList_some]
    rwa [← hl, List.take_length] at htake
  have htake : ts.take k = us.take k := by
    refine List.ext_getElem? fun j => ?_
    rw [List.getElem?_take, List.getElem?_take]
    split_ifs with hj
    · exact hinit j hj
    · rfl
  rw [hsplit ts t ht htk, hsplit us u hu huk, htake, order_app_last]

end Term

end FirstOrder
