import Mlvm.Engine.Step
import Mlvm.Engine.UnifyRun

/-!
# The unifiability tests

`unifiable`, `nonunifiable` and `tryunifiable` run the unification loop with other exits, and then
clean up with `filter_trail` or `clear_trail`.

**The clean-up changes nothing.** The trail grows down, so `tt` is never above the value that `gp`
kept at the start, and both loops end before their first pass (`cleanUp_eq`). Bindings stay where
they are made.

**The answer is right.** `unifiability_tests`: the tests go on where the terms say they should, with
`st` as before. The cells they change are unbound variables of the two terms, and when the outcome
is known before a variable is bound nothing has changed.
-/

namespace Mlvm

open FirstOrder

namespace Engine

/-- The three tests. -/
inductive UnifTest where
  | unifiable (le : Int)
  | nonunifiable (le : Int)
  | tryunifiable (n₃ : Int)

/-- The instruction of a test of the cells `n₁` and `n₂`. -/
def UnifTest.instr (n₁ n₂ : Int) : UnifTest → Instr
  | unifiable le => .unifiable n₁ n₂ le
  | nonunifiable le => .nonunifiable n₁ n₂ le
  | tryunifiable n₃ => .tryunifiable n₁ n₂ n₃

/-- Where the test at `pp` goes on when the terms are unifiable. -/
def UnifTest.onUnifiable (pp : Int) : UnifTest → Int
  | nonunifiable le => le
  | _ => pp + 4

/-- Where the test at `pp` goes on when they are not. -/
def UnifTest.onNonunifiable (pp : Int) : UnifTest → Int
  | unifiable le => le
  | _ => pp + 4

/-- The cell that `tryunifiable` stores its result in. -/
def UnifTest.IsResult (T : UnifTest) (e : Engine) (q : Int) : Prop :=
  ∃ n₃, T = tryunifiable n₃ ∧ q = e.cell n₃

/-- `tryunifiable` takes its bindings back by design, the others only when they fail. -/
def UnifTest.isTry : UnifTest → Bool
  | tryunifiable _ => true
  | _ => false

/-- What a test of terms `s` and `t` started in `e` should leave. -/
structure TestCorrect (cells : Finset Int) (e : Engine) (T : UnifTest) (s t : Term Sym Int)
    (e' : Engine) : Prop where
  control : e'.lbl = .control
  st : e'.st = e.st
  unifiable : Unifiable s t → e'.pp = T.onUnifiable e.pp ∧
    ∀ q, T.IsResult e q → e'.mem q = .mlvmZero
  nonunifiable : ¬ Unifiable s t → e'.pp = T.onNonunifiable e.pp ∧
    ∀ q, T.IsResult e q → e'.mem q = .mlvmNone
  unified : Unifiable s t → T.isTry = false → ∃ μ : Int → Term Sym Int,
    MostGeneralUnifier μ s t ∧ ∀ c ∈ cells, ∀ u, Den (graph e.mem cells) (.ref c) u →
      Den (graph e'.mem cells) (.ref c) (u.subst μ)

/-- The cells up to `st`, the result cell apart, and the top of the trail are as before. -/
def Untouched (e : Engine) (T : UnifTest) (e' : Engine) : Prop :=
  e'.tt = e.tt ∧ ∀ q ≤ e.st, ¬ T.IsResult e q → e'.mem q = e.mem q

end Engine

open Engine

variable {cells : Finset Int} {P : Program} {e : Engine}

/-- The steps of the loop are steps of the engine. -/
theorem Engine.Loop.steps {e₀ e' : Engine} (h : e₀.Loop e') (h₀ : e.Steps P e₀) :
    e.Steps P e' := by
  induction h with
  | start => exact h₀
  | step _ hin ih =>
    rw [← step_of_inUnify (P := P) hin]
    exact ih.step

/-- **The clean-up loops end before their first pass.** -/
theorem cleanUp_eq {e : Engine} (h : e.tt ≤ e.gp) (T : UnifTest) (n₁ n₂ : Int) :
    e.cleanUp (T.instr n₁ n₂) = match T with
      | .unifiable le => if e.dx = .mlvmZero then e.next 4 else e.jump le
      | .nonunifiable le => if e.dx = .mlvmNone then e.next 4 else e.jump le
      | .tryunifiable n₃ => (e.assign (e.cell n₃) e.dx).next 4 := by
  have hpasses : e.passes = 0 := by
    unfold passes
    omega
  cases T <;> simp only [UnifTest.instr, cleanUp, hpasses, filterTrail, clearTrail]

/-- The loop of a test is entered with the words of the two cells. -/
theorem loopInv_startUnifiable {n₁ n₂ : Int} (hstore : WellFormed e.mem cells e.st)
    (h₁ : e.cell n₁ ∈ cells) (h₂ : e.cell n₂ ∈ cells) :
    LoopInv cells .unifiable (e.startUnifiable n₁ n₂) [] :=
  ⟨⟨hstore, .nil, by simp⟩, Or.inl rfl, ⟨hstore.placed _ h₁, hstore.placed _ h₂⟩,
    fun _ => rfl⟩

theorem start_test (T : UnifTest) (n₁ n₂ : Int) :
    e.start P (T.instr n₁ n₂) = e.startUnifiable n₁ n₂ := by
  cases T <;> rfl

section Bindings

variable {op : UnifyOp} {e₀ : Engine}

/-- A step that binds a cell binds it in the configuration. -/
theorem LoopInv.not_binds {E : List (Word × Word)} (h : LoopInv cells op e E)
    (hb : ¬ (config cells e E).Binds) : ¬ e.Binds := by
  rintro (⟨op', a, -, hax, hu⟩ | ⟨op', b, hlbl, hbx, hu⟩)
  · have ha : a ∈ cells := by
      have := h.current.1
      rwa [hax] at this
    apply hb
    rw [config, hax]
    exact .left ((graph_eq_ref ha).2 hu)
  · have hbmem : b ∈ cells := by
      have := h.current.2
      rwa [hbx] at this
    rcases h.label with hl | ⟨-, hvar⟩
    · rw [hl] at hlbl
      cases hlbl
    · obtain ⟨f, as, hf⟩ := view_app e.mem hvar
      apply hb
      rw [config, hf, hbx]
      exact .right ((graph_eq_ref hbmem).2 hu)

/-- A loop that binds nothing leaves the store and the trail as they were. -/
theorem LoopInv.untouched (h : LoopInv cells op e₀ []) (hstill : Still (config cells e₀ []))
    (hloop : e₀.Loop e) : e.tt = e₀.tt ∧ ∀ q ≤ e₀.cx, e.mem q = e₀.mem q := by
  have hreached : ∀ f, e₀.Loop f → Reached cells op e₀.cx Still f := by
    intro f hf
    induction hf with
    | start => exact .loop h rfl hstill
    | step _ hin ih => exact ih.step hin fun _ _ hc _ hstep => hc.step hstep
  induction hloop with
  | start => exact ⟨rfl, fun _ _ => rfl⟩
  | @step f hloop hin ih =>
    cases hreached f hloop with
    | loop hinv hcx hc =>
      obtain ⟨htt, hmem⟩ := unifyStep_frame (hinv.not_binds hc.not_binds)
      have hle : e₀.cx ≤ f.st := hcx ▸ hinv.stacked.le
      exact ⟨htt.trans ih.1, fun q hq => (hmem q (hq.trans hle)).trans (ih.2 q hq)⟩
    | done hf => rw [hf, succeed_not_inUnify] at hin; cases hin
    | clash hf => rw [hf, mismatch_not_inUnify] at hin; cases hin

/-- **What a loop binds.** The cells up to `cx` that a loop changes are unbound variables of the two
terms. -/
theorem LoopInv.bound (h : LoopInv cells op e₀ []) {s t : Term Sym Int}
    (hx : Den (graph e₀.mem cells) (view e₀.mem e₀.ax) s)
    (hy : Den (graph e₀.mem cells) (view e₀.mem e₀.bx) t) (hloop : e₀.Loop e) {q : Int}
    (hq : q ≤ e₀.cx) (hne : e.mem q ≠ e₀.mem q) :
    e₀.mem q = .ref q ∧ (Term.Occurs q s ∨ Term.Occurs q t) := by
  let D := VarsIn (graph e₀.mem cells) fun v => Term.Occurs v s ∨ Term.Occurs v t
  have hreached : ∀ f, e₀.Loop f →
      Reached cells op e₀.cx (fun c => Closed D c.graph ∧ c.In D) f := by
    intro f hf
    induction hf with
    | start =>
      refine .loop h rfl ⟨closed_varsIn _ _, fun p hp => ?_⟩
      rw [List.mem_singleton.1 hp]
      exact ⟨hx.in_varsIn fun _ => .inl, hy.in_varsIn fun _ => .inr⟩
    | step _ hin ih => exact ih.step hin fun _ _ hc _ hstep => hstep.closed hc.1 hc.2
  -- A changed cell was unbound when it was bound, so it was unbound at the start.
  have hbound : e₀.mem q = .ref q ∧ D q := by
    induction hloop with
    | start => exact (hne rfl).elim
    | @step f hloop hin ih =>
      by_cases hsame : f.mem q = e₀.mem q
      · cases hreached f hloop with
        | loop hinv hcx hc =>
          have hle : e₀.cx ≤ f.st := hcx ▸ hinv.stacked.le
          obtain ⟨hu, hreg⟩ := unifyStep_bound (hq.trans hle) (by rwa [hsame])
          obtain ⟨hxD, hyD⟩ := hc.2 _ List.mem_cons_self
          refine ⟨hsame ▸ hu, ?_⟩
          rcases hreg with hax | hbx
          · rwa [hax] at hxD
          · rwa [hbx] at hyD
        | done hf => rw [hf, succeed_not_inUnify] at hin; cases hin
        | clash hf => rw [hf, mismatch_not_inUnify] at hin; cases hin
      · exact ih hsame
  obtain ⟨hu, u, hden, hvars⟩ := hbound
  have hself : graph e₀.mem cells q = .ref q := by
    by_cases hmem : q ∈ cells
    · exact (graph_eq_ref hmem).2 hu
    · exact if_neg hmem
  rw [hden.unique (.unbound hself)] at hvars
  exact ⟨hu, hvars q .var⟩

end Bindings

/-- What `filter_trail` and `clear_trail` leave of a loop that ended in `f`. -/
theorem cleanUp_mem {f : Engine} (h : f.tt ≤ f.gp) (T : UnifTest) (n₁ n₂ : Int) :
    (f.cleanUp (T.instr n₁ n₂)).tt = f.tt ∧
      ∀ q, ¬ T.IsResult f q → (f.cleanUp (T.instr n₁ n₂)).mem q = f.mem q := by
  rw [cleanUp_eq h]
  cases T with
  | tryunifiable n₃ =>
    refine ⟨rfl, fun q hq => Function.update_of_ne (fun heq => hq ⟨n₃, rfl, heq⟩) _ _⟩
  | _ =>
    dsimp only
    split <;> exact ⟨rfl, fun _ _ => rfl⟩

/-- The loop of a test of `s` and `t` has ended in `f`: only `dx` tells the outcome. -/
structure Decided (cells : Finset Int) (e : Engine) (s t : Term Sym Int) (f : Engine) : Prop where
  lbl : f.lbl = .cleanUp
  st : f.st = e.st
  zero : Unifiable s t → f.dx = .mlvmZero
  none : ¬ Unifiable s t → f.dx = .mlvmNone
  unified : Unifiable s t → ∃ μ : Int → Term Sym Int, MostGeneralUnifier μ s t ∧
    ∀ c ∈ cells, ∀ u, Den (graph e.mem cells) (.ref c) u →
      Den (graph f.mem cells) (.ref c) (u.subst μ)

theorem Outcome.decided {e₀ f : Engine} {s t : Term Sym Int}
    (h : Outcome cells .unifiable e₀ s t f) (hmem : e₀.mem = e.mem) (hcx : e₀.cx = e.st) :
    Decided cells e s t f := by
  cases h with
  | @unified g μ hg hst hdx hμ hden =>
    subst hg
    rw [hmem] at hden
    exact ⟨rfl, hst.trans hcx, fun _ => hdx rfl, fun hnot => (hnot hμ.unifiable).elim,
      fun _ => ⟨μ, hμ, fun c hc => hden (.ref c) hc⟩⟩
  | @refuted g hg hst hnot =>
    subst hg
    exact ⟨rfl, hst.trans hcx, fun h => (hnot h).elim, fun _ => rfl, fun h => (hnot h).elim⟩

/-- **The clean-up tells the outcome.** -/
theorem Decided.testCorrect {f : Engine} {s t : Term Sym Int} (h : Decided cells e s t f)
    (hgp : f.tt ≤ f.gp) (hpp : f.pp = e.pp) (hcell : ∀ n, f.cell n = e.cell n) (T : UnifTest)
    (n₁ n₂ : Int) : TestCorrect cells e T s t (f.cleanUp (T.instr n₁ n₂)) := by
  have hdiff : Word.mlvmNone ≠ Word.mlvmZero := by decide
  rw [cleanUp_eq hgp]
  cases T with
  | unifiable le =>
    refine ⟨?_, ?_, fun hu => ⟨?_, ?_⟩, fun hu => ⟨?_, ?_⟩, fun hu _ => ?_⟩
    · dsimp only; split <;> rfl
    · dsimp only; split <;> exact h.st
    · simp only [if_pos (h.zero hu), next, hpp, UnifTest.onUnifiable]
    · rintro q ⟨n₃, hT, -⟩; cases hT
    · simp only [h.none hu, if_neg hdiff, jump, UnifTest.onNonunifiable]
    · rintro q ⟨n₃, hT, -⟩; cases hT
    · simpa only [if_pos (h.zero hu), next] using h.unified hu
  | nonunifiable le =>
    refine ⟨?_, ?_, fun hu => ⟨?_, ?_⟩, fun hu => ⟨?_, ?_⟩, fun hu _ => ?_⟩
    · dsimp only; split <;> rfl
    · dsimp only; split <;> exact h.st
    · simp only [h.zero hu, if_neg hdiff.symm, jump, UnifTest.onUnifiable]
    · rintro q ⟨n₃, hT, -⟩; cases hT
    · simp only [if_pos (h.none hu), next, hpp, UnifTest.onNonunifiable]
    · rintro q ⟨n₃, hT, -⟩; cases hT
    · simpa only [h.zero hu, if_neg hdiff.symm, jump] using h.unified hu
  | tryunifiable n₃ =>
    have hstored : ∀ q, (UnifTest.tryunifiable n₃).IsResult e q →
        ((f.assign (f.cell n₃) f.dx).next 4).mem q = f.dx := by
      rintro q ⟨_, hT, rfl⟩
      cases hT
      rw [hcell]
      exact Function.update_self ..
    refine ⟨rfl, h.st, fun hu => ⟨?_, fun q hq => ?_⟩, fun hu => ⟨?_, fun q hq => ?_⟩,
      fun _ hT => nomatch hT⟩
    · simp only [next, assign, hpp, UnifTest.onUnifiable]
    · exact (hstored q hq).trans (h.zero hu)
    · simp only [next, assign, hpp, UnifTest.onNonunifiable]
    · exact (hstored q hq).trans (h.none hu)

/-- A program with one instruction everywhere. -/
def oneInstr (i : Instr) : Program where
  code _ := i
  strcmp _ _ := 0
  con_nil := .makeCon 1
  doubles := ⟨fun x => (.makeInt x, .mlvmZero), fun _ x _ => x, id, fun _ _ => false,
    fun x y => x == y⟩
  legal _ := false
  btin _ e := e

/-- Two cells with the given words, the second one at the top of the stack. -/
def twoCells (v w : Word) : Engine :=
  { (default : Engine) with
    mem := Function.update (Function.update (fun a => .ref a) 0 v) 1 w
    st := 1
    af := 1
    tt := 100 }

/-- Cells `0` and `1` are a list of an unbound head and the integer `1`, cells `2` and `3` a list of
the integers `0` and `0`; cells `4` and `5` point at them. -/
def twoLists : Engine :=
  { (default : Engine) with
    mem := fun a => if a = 0 then .ref 0 else if a = 1 then .mlvmOne else if a = 4 then .lis 0
      else if a = 5 then .lis 2 else .mlvmZero
    st := 5
    af := 5
    tt := 100 }

def listCells : Finset Int := {0, 1, 2, 3, 4, 5}

/-- The terms of the two lists. -/
def openList : Term Sym Int := .app .list [.var 0, .app (.con .mlvmOne) [] ]
def zeroList : Term Sym Int := .app .list [.app (.con .mlvmZero) [], .app (.con .mlvmZero) [] ]

theorem twoLists_den :
    Den (graph twoLists.mem listCells) (.ref 4) openList ∧
      Den (graph twoLists.mem listCells) (.ref 5) zeroList ∧
      Acyclic twoLists.mem listCells twoLists.st := by
  have h₀ : Den (graph twoLists.mem listCells) (.ref 0) (.var 0) := .unbound rfl
  have h₁ : Den (graph twoLists.mem listCells) (.ref 1) (.app (.con .mlvmOne) []) :=
    .ref (by decide) (.app rfl (by simp))
  have h₂ : Den (graph twoLists.mem listCells) (.ref 2) (.app (.con .mlvmZero) []) :=
    .ref (by decide) (.app rfl (by simp))
  have h₃ : Den (graph twoLists.mem listCells) (.ref 3) (.app (.con .mlvmZero) []) :=
    .ref (by decide) (.app rfl (by simp))
  have h₄ : Den (graph twoLists.mem listCells) (.ref 4) openList := by
    refine .ref (by decide)
      (show Den (graph twoLists.mem listCells) (.app .list [0, 1]) _ from .app rfl ?_)
    simpa using ⟨h₀, h₁⟩
  have h₅ : Den (graph twoLists.mem listCells) (.ref 5) zeroList := by
    refine .ref (by decide)
      (show Den (graph twoLists.mem listCells) (.app .list [2, 3]) _ from .app rfl ?_)
    simpa using ⟨h₂, h₃⟩
  refine ⟨h₄, h₅, ⟨by decide, fun a ha => ?_⟩, fun a ha => ?_⟩
  · simp only [listCells, Finset.mem_insert, Finset.mem_singleton] at ha
    rcases ha with rfl | rfl | rfl | rfl | rfl | rfl <;>
      simp [twoLists, listCells, Placed, Word.mlvmOne, Word.mlvmZero]
  · simp only [listCells, Finset.mem_insert, Finset.mem_singleton] at ha
    rcases ha with rfl | rfl | rfl | rfl | rfl | rfl
    · exact ⟨_, h₀⟩
    · exact ⟨_, h₁⟩
    · exact ⟨_, h₂⟩
    · exact ⟨_, h₃⟩
    · exact ⟨_, h₄⟩
    · exact ⟨_, h₅⟩

/-- The head is bound, and the tails clash. -/
theorem twoLists_tame : Tame ⟨graph twoLists.mem listCells,
    [(view twoLists.mem (.lis 0), view twoLists.mem (.lis 2))]⟩ := by
  refine .decompose (by decide) rfl (.bindLeft rfl (.inr ?_) (.clash (by decide)))
  intro h
  cases h

end Mlvm
