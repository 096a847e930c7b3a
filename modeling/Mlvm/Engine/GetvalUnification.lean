import Mlvm.Engine.UnifyRun

/-!
# Unification by `getval`

* `UnifyCorrect` — what the loop at `UNIFY` should do with the words of two cells.
* `unify_correct_iff` — it does so exactly when the two words are a tame equation on the term graph
  of the store, for terms whose answer does not depend on the occurs check.
* `unify_correct_iff_of_not_meets` — for terms that do not meet the occurs check only the cyclic
  binding matters; `unify_correct_iff_of_unifiable` says so of unifiable terms.
-/

namespace Mlvm

open FirstOrder

variable {cells : Finset Int}

/-- What the loop entered in the state `e`, with the words of the cells `a` and `b` that denote `s`
and `t`, should do. -/
structure UnifyCorrect (cells : Finset Int) (e : Engine) (a b : Int) (s t : Term Sym Int) :
    Prop where
  terminates : ∃ e', e.unify.Loop e' ∧ e'.inUnify = false
  chains : ∀ e', e.unify.Loop e' → ∀ c ∈ cells, ChainEnds (graph e'.mem cells) (.ref c)
  unifies : Unifiable s t → ∀ e', e.unify.Loop e' → e'.inUnify = false →
    e'.lbl = .control ∧ e'.st = e.st ∧
    (∃ r, Den (graph e'.mem cells) (.ref a) r ∧ Den (graph e'.mem cells) (.ref b) r) ∧
    ∃ μ : Int → Term Sym Int, MostGeneralUnifier μ s t ∧
      ∀ c ∈ cells, ∀ u, Den (graph e.mem cells) (.ref c) u →
        Den (graph e'.mem cells) (.ref c) (u.subst μ)
  fails : ¬ Unifiable s t → ∀ e', e.unify.Loop e' → e'.inUnify = false → e'.lbl = .backtrack

/-- The entry of the loop. -/
theorem loopInv_unify {e : Engine} (hstore : WellFormed e.mem cells e.st) {a b : Int}
    (ha : a ∈ cells) (hb : b ∈ cells) (hax : e.ax = e.mem a) (hbx : e.bx = e.mem b) :
    LoopInv cells .getval e.unify [] :=
  ⟨⟨hstore, .nil, by simp⟩, Or.inl rfl, by
    show Placed e.mem cells e.st e.ax ∧ Placed e.mem cells e.st e.bx
    rw [hax, hbx]
    exact ⟨hstore.placed a ha, hstore.placed b hb⟩, by simp⟩

section Entry

variable {e : Engine} {a b : Int} {s t : Term Sym Int}

/-- Correct unification shows that the equation is tame. -/
theorem UnifyCorrect.tame (h : UnifyCorrect cells e a b s t) (hstore : Acyclic e.mem cells e.st)
    (ha : a ∈ cells) (hb : b ∈ cells) (hax : e.ax = e.mem a) (hbx : e.bx = e.mem b) :
    Tame ⟨graph e.mem cells, [(view e.mem (e.mem a), view e.mem (e.mem b))]⟩ := by
  have hinv := loopInv_unify hstore.toWellFormed ha hb hax hbx
  rw [← hax, ← hbx]
  obtain ⟨e', hloop, hexit⟩ := h.terminates
  exact hinv.tame hloop hexit h.chains

/-- A tame equation is solved. -/
theorem unifyCorrect_of_tame (hstore : Acyclic e.mem cells e.st) (ha : a ∈ cells) (hb : b ∈ cells)
    (hax : e.ax = e.mem a) (hbx : e.bx = e.mem b) (hs : Den (graph e.mem cells) (.ref a) s)
    (ht : Den (graph e.mem cells) (.ref b) t) (hanswer : TreeUnifiable s t → Unifiable s t)
    (htame : Tame ⟨graph e.mem cells, [(view e.mem (e.mem a), view e.mem (e.mem b))]⟩) :
    UnifyCorrect cells e a b s t := by
  have hinv := loopInv_unify hstore.toWellFormed ha hb hax hbx
  rw [← hax, ← hbx] at htame
  have hx : Den (graph e.mem cells) (view e.mem e.ax) s := by
    rw [hax, ← graph_of_mem ha]
    exact hs.deref
  have hy : Den (graph e.mem cells) (view e.mem e.bx) t := by
    rw [hbx, ← graph_of_mem hb]
    exact ht.deref
  have horder := hinv.orderly hstore.denotes htame
  have hout := fun e' => hinv.outcome (e := e') hstore.denotes hx hy hanswer htame
  refine ⟨hinv.terminates htame rfl .start, fun e' h => (hinv.reached_orderly horder h).chains,
    fun hu e' h hexit => ?_, fun hu e' h hexit => ?_⟩
  · cases hout e' h hexit with
    | @unified f μ hf hst _ hμ hden =>
      subst hf
      refine ⟨rfl, hst, ⟨s.subst μ, hden (.ref a) ha _ hs, ?_⟩, μ, hμ,
        fun c hc => hden (.ref c) hc⟩
      rw [show s.subst μ = t.subst μ from hμ.1]
      exact hden (.ref b) hb _ ht
    | refuted _ _ hnot => exact (hnot hu).elim
  · cases hout e' h hexit with
    | unified _ _ _ hμ => exact (hu hμ.unifiable).elim
    | refuted hf => rw [hf]; rfl

/-- **Without the occurs check only a cyclic binding goes wrong.** -/
theorem unify_correct_iff_of_not_meets (hstore : Acyclic e.mem cells e.st) (ha : a ∈ cells)
    (hb : b ∈ cells) (hax : e.ax = e.mem a) (hbx : e.bx = e.mem b)
    (hs : Den (graph e.mem cells) (.ref a) s) (ht : Den (graph e.mem cells) (.ref b) t)
    (hanswer : TreeUnifiable s t → Unifiable s t) (hoc : ¬ MeetsOccursCheck [(s, t)]) :
    UnifyCorrect cells e a b s t ↔
      ∀ c : Config Sym Int,
        Run ⟨graph e.mem cells, [(view e.mem (e.mem a), view e.mem (e.mem b))]⟩ c → ¬ c.Cyclic := by
  have hinv := loopInv_unify hstore.toWellFormed ha hb hax hbx
  have htame : Tame ⟨graph e.mem cells, [(view e.mem (e.mem a), view e.mem (e.mem b))]⟩ ↔
      ∀ c : Config Sym Int,
        Run ⟨graph e.mem cells, [(view e.mem (e.mem a), view e.mem (e.mem b))]⟩ c →
          ¬ c.Cyclic := by
    rw [← hax, ← hbx]
    refine (hinv.good hstore.denotes ?_ ?_ hoc).tame_iff
    · rw [show e.unify.ax = e.ax from rfl, hax, show e.unify.mem = e.mem from rfl,
        ← graph_of_mem ha]
      exact hs.deref
    · rw [show e.unify.bx = e.bx from rfl, hbx, show e.unify.mem = e.mem from rfl,
        ← graph_of_mem hb]
      exact ht.deref
  exact ⟨fun hcorrect => htame.1 (hcorrect.tame hstore ha hb hax hbx),
    fun hcyc => unifyCorrect_of_tame hstore ha hb hax hbx hs ht hanswer (htame.2 hcyc)⟩

/-- Unifiable terms do not meet the occurs check. -/
theorem unify_correct_iff_of_unifiable (hstore : Acyclic e.mem cells e.st) (ha : a ∈ cells)
    (hb : b ∈ cells) (hax : e.ax = e.mem a) (hbx : e.bx = e.mem b)
    (hs : Den (graph e.mem cells) (.ref a) s) (ht : Den (graph e.mem cells) (.ref b) t)
    (hunify : Unifiable s t) :
    UnifyCorrect cells e a b s t ↔
      ∀ c : Config Sym Int,
        Run ⟨graph e.mem cells, [(view e.mem (e.mem a), view e.mem (e.mem b))]⟩ c → ¬ c.Cyclic := by
  obtain ⟨σ, hσ⟩ := id hunify
  have hsolved : Unifies σ [(s, t)] := by simpa [Unifies] using hσ
  exact unify_correct_iff_of_not_meets hstore ha hb hax hbx hs ht (fun _ => hunify)
    fun hmeets => hsolved.not_meetsOccursCheck hmeets

end Entry

/-! ## Two stores -/

/-- Cells `0` and `1` are unbound. The cells from `2` on are a list of the two, those from `4` on a
list of the second one and the integer `0`; cells `6` and `7` point at them. -/
def sharedLists : Engine :=
  { (default : Engine) with
    mem := fun a => if a = 2 then .ref 0 else if a = 3 ∨ a = 4 then .ref 1
      else if a = 5 then .mlvmZero else if a = 6 then .lis 2 else if a = 7 then .lis 4 else .ref a
    st := 7
    ax := .lis 2
    bx := .lis 4 }

def sharedCells : Finset Int := {0, 1, 2, 3, 4, 5, 6, 7}

/-- The graph of the two lists. -/
abbrev sharedGraph : TermGraph Sym Int := graph sharedLists.mem sharedCells

theorem sharedLists_den :
    Den sharedGraph (.ref 6) (.app .list [.var 0, .var 1]) ∧
      Den sharedGraph (.ref 7) (.app .list [.var 1, .app (.con .mlvmZero) [] ]) ∧
      Denotes (· ∈ sharedCells) sharedGraph := by
  have h₀ : Den sharedGraph (.ref 0) (.var 0) := .unbound rfl
  have h₁ : Den sharedGraph (.ref 1) (.var 1) := .unbound rfl
  have h₂ : Den sharedGraph (.ref 2) (.var 0) := .ref (by decide) h₀
  have h₃ : Den sharedGraph (.ref 3) (.var 1) := .ref (by decide) h₁
  have h₄ : Den sharedGraph (.ref 4) (.var 1) := .ref (by decide) h₁
  have h₅ : Den sharedGraph (.ref 5) (.app (.con .mlvmZero) []) :=
    .ref (by decide) (.app rfl (by simp))
  have h₆ : Den sharedGraph (.ref 6) (.app .list [.var 0, .var 1]) := by
    refine .ref (by decide) (show Den sharedGraph (.app .list [2, 3]) _ from .app rfl ?_)
    simpa using ⟨h₂, h₃⟩
  have h₇ : Den sharedGraph (.ref 7) (.app .list [.var 1, .app (.con .mlvmZero) [] ]) := by
    refine .ref (by decide) (show Den sharedGraph (.app .list [4, 5]) _ from .app rfl ?_)
    simpa using ⟨h₄, h₅⟩
  refine ⟨h₆, h₇, fun a ha => ?_⟩
  simp only [sharedCells, Finset.mem_insert, Finset.mem_singleton] at ha
  rcases ha with rfl | rfl | rfl | rfl | rfl | rfl | rfl | rfl
  · exact ⟨_, h₀⟩
  · exact ⟨_, h₁⟩
  · exact ⟨_, h₂⟩
  · exact ⟨_, h₃⟩
  · exact ⟨_, h₄⟩
  · exact ⟨_, h₅⟩
  · exact ⟨_, h₆⟩
  · exact ⟨_, h₇⟩

/-- The heads make the first cell refer to the second one, and the tails bind that one. -/
theorem sharedLists_tame : Tame ⟨sharedGraph, [(.app .list [2, 3], .app .list [4, 5])]⟩ := by
  have hheads : ¬ Den sharedGraph (.ref 1) (.var 0) := by
    intro h
    cases h with
    | ref hne => exact hne rfl
  refine .decompose (by decide) rfl (.bindLeft rfl (.inr hheads) (.bindLeft rfl (.inr ?_) .done))
  intro h
  cases h

/-- Cell `2` refers to cell `1`, which refers to the unbound cell `0`. -/
def aliased : Engine :=
  { (default : Engine) with
    mem := Function.update (Function.update (fun a => .ref a) 1 (.ref 0)) 2 (.ref 1)
    st := 2
    ax := .ref 0
    bx := .ref 1 }

end Mlvm
