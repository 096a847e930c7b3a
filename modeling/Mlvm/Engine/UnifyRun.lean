import Mlvm.Engine.UnifySimulation

/-!
# Runs of the unification loop

The loop on an arbitrary store of finite terms, from its entry to its exit.

**One branch goes wrong.** `AXDEF` binds the unbound cell it found to the word in `bx`, which is not
dereferenced. When `bx` is another reference that leads to the same cell, the binding closes a
chain of references into a cycle (`BindsInCycle`).

**The others are right.** From a tame configuration the loop ends (`LoopInv.terminates`), and its
exit tells whether the terms are unifiable, unless their answer depends on the occurs check
(`LoopInv.outcome`). From any other it does not end, or it breaks a chain (`LoopInv.tame`).
-/

namespace Mlvm

open FirstOrder

variable {cells : Finset Int} {op : UnifyOp} {top : Int}

/-! ## The states of the loop -/

/-- A state of the loop or its exit, with a configuration that has the property `R`. -/
inductive Reached (cells : Finset Int) (op : UnifyOp) (top : Int) (R : Config Sym Int → Prop)
    (e : Engine) : Prop
  | loop {E : List (Word × Word)} : LoopInv cells op e E → e.cx = top → R (config cells e E) →
      Reached cells op top R e
  | done {f : Engine} : e = f.succeed op → f.st = top → (op = .unifiable → f.dx = .mlvmZero) →
      R ⟨graph f.mem cells, []⟩ → Reached cells op top R e
  | clash {f : Engine} {c : Config Sym Int} : e = f.mismatch op → f.cx = top → R c →
      c.graph = graph f.mem cells → c.Clash → Reached cells op top R e

theorem LoopInv.inUnify {e : Engine} {E : List (Word × Word)} (h : LoopInv cells op e E) :
    e.inUnify = true := by
  rcases h.label with hl | ⟨hl, -⟩ <;> simp [Engine.inUnify, hl]

theorem succeed_not_inUnify (e : Engine) (op : UnifyOp) : (e.succeed op).inUnify = false := by
  cases op <;> rfl

theorem mismatch_not_inUnify (e : Engine) (op : UnifyOp) : (e.mismatch op).inUnify = false := by
  cases op <;> rfl

theorem Simulates.reached {e f : Engine} {E : List (Word × Word)} {R : Config Sym Int → Prop}
    (h : Simulates cells op (config cells e E) f) (hcx : f.cx = top)
    (hc : R (config cells e E)) (hR : ∀ c, UStep (config cells e E) c → R c) :
    Reached cells op top R f := by
  cases h with
  | next hinv hstep => exact .loop hinv hcx (hR _ hstep)
  | @done g hg hst hdx hstep =>
    refine .done hg ?_ hdx (hR _ hstep)
    rw [hst, ← hcx, hg]
    cases op <;> rfl
  | @clash g hg hgraph hclash =>
    refine .clash hg ?_ hc hgraph hclash
    rw [← hcx, hg]
    exact (Engine.sameRegs_mismatch g op).cx.symm

/-- **One step of the loop**, for a property that the steps from this configuration keep. -/
theorem Reached.step {e : Engine} {R : Config Sym Int → Prop} (h : Reached cells op top R e)
    (hin : e.inUnify) (hR : ∀ E, LoopInv cells op e E → R (config cells e E) →
      ∀ c, UStep (config cells e E) c → R c) : Reached cells op top R e.unifyStep := by
  cases h with
  | @loop E hinv hcx hc =>
    rcases hinv.step with ⟨-, hstep, hinv'⟩ | hsim
    · refine .loop hinv' ((Engine.sameRegs_unifyStep e).cx.trans hcx) ?_
      rw [hstep]
      exact hc
    · exact hsim.reached ((Engine.sameRegs_unifyStep e).cx.trans hcx) hc (hR E hinv hc)
  | @done f hf => rw [hf, succeed_not_inUnify] at hin; cases hin
  | @clash f _ hf => rw [hf, mismatch_not_inUnify] at hin; cases hin

/-- After at most one step between labels, the loop takes a step between configurations. -/
theorem LoopInv.progress {e₀ e : Engine} {E : List (Word × Word)} (h : LoopInv cells op e E)
    (hloop : e₀.Loop e) : ∃ e', e₀.Loop e' ∧ LoopInv cells op e' E ∧
      config cells e' E = config cells e E ∧ e'.cx = e.cx ∧
      Simulates cells op (config cells e E) e'.unifyStep := by
  rcases h.step with ⟨-, hstep, hinv'⟩ | hsim
  · have hloop' := hloop.step h.inUnify
    rw [hstep] at hinv' hloop'
    refine ⟨_, hloop', hinv', rfl, rfl, ?_⟩
    rcases hinv'.step with ⟨hlbl, -⟩ | hsim
    · cases hlbl
    · exact hsim
  · exact ⟨e, hloop, h, rfl, rfl, hsim⟩

/-- **Termination** from a tame configuration. -/
theorem LoopInv.terminates {e₀ : Engine} {c : Config Sym Int} (htame : Tame c) {e : Engine}
    {E : List (Word × Word)} (h : LoopInv cells op e E) (hc : config cells e E = c)
    (hloop : e₀.Loop e) : ∃ e', e₀.Loop e' ∧ e'.inUnify = false := by
  induction htame using Tame.induction generalizing e E with
  | step _ _ ih =>
    subst hc
    obtain ⟨e', hloop', hinv', -, -, hsim⟩ := h.progress hloop
    have hnext := hloop'.step hinv'.inUnify
    cases hsim with
    | next hinv hstep => exact ih _ hstep hinv rfl hnext
    | @done f hf => exact ⟨_, hnext, by rw [hf, succeed_not_inUnify]⟩
    | @clash f hf => exact ⟨_, hnext, by rw [hf, mismatch_not_inUnify]⟩

/-! ## The branch that makes a cycle -/

/-- `AXDEF` is about to bind an unbound cell to another reference that leads to it. -/
def BindsInCycle (cells : Finset Int) (e : Engine) : Prop :=
  ∃ op a, e.lbl = .axdef op ∧ e.ax = .ref a ∧ e.mem a = .ref a ∧ e.bx ≠ .ref a ∧
    Den (graph e.mem cells) (view e.mem e.bx) (.var a)

theorem LoopInv.not_cyclic {e : Engine} {E : List (Word × Word)} (h : LoopInv cells op e E)
    (hb : ¬ BindsInCycle cells e) : ¬ (config cells e E).Cyclic := by
  intro hc
  generalize hcfg : config cells e E = c at hc
  obtain @⟨G, a, n, E', hu, hne, hden⟩ := hc
  simp only [config, Config.mk.injEq, List.cons.injEq, Prod.mk.injEq] at hcfg
  obtain ⟨rfl, ⟨hax, rfl⟩, -⟩ := hcfg
  rw [view_eq_ref] at hax
  have ha : a ∈ cells := by
    have := h.current.1
    rwa [hax] at this
  rcases h.label with hlbl | ⟨-, hvar⟩
  · exact hb ⟨op, a, hlbl, hax, (graph_eq_ref ha).1 hu, fun hbx => hne (view_eq_ref.2 hbx), hden⟩
  · rw [hax] at hvar
    cases hvar

/-- Binding in a cycle breaks a chain. -/
theorem BindsInCycle.not_chainEnds {e : Engine} {E : List (Word × Word)}
    (h : LoopInv cells op e E) (hb : BindsInCycle cells e) :
    e.inUnify ∧ ∃ c ∈ cells, ¬ ChainEnds (graph e.unifyStep.mem cells) (.ref c) := by
  obtain ⟨op', a, hlbl, hax, hu, hne, hden⟩ := hb
  have ha : a ∈ cells := by
    have := h.current.1
    rwa [hax] at this
  refine ⟨h.inUnify, a, ha, ?_⟩
  rw [Engine.unifyStep_axdef_mem hlbl hax hu, graph_assign h.store ha hu h.current.2]
  exact not_chainEnds_update ((graph_eq_ref ha).2 hu) hden fun hr => hne (view_eq_ref.1 hr)

/-! ## From the entry to the exit -/

/-- The configuration of the state is tame. An exit has none. -/
def TameAt (cells : Finset Int) (op : UnifyOp) (e : Engine) : Prop :=
  ∀ E, LoopInv cells op e E → Tame (config cells e E)

/-- One step backwards, from a state with no cyclic binding. -/
theorem TameAt.of_step {e : Engine} (hb : ¬ BindsInCycle cells e)
    (h : TameAt cells op e.unifyStep) : TameAt cells op e := by
  intro E hinv
  have hcyc := hinv.not_cyclic hb
  rcases hinv.step with ⟨-, hstep, hinv'⟩ | hsim
  · have htame := h E hinv'
    rwa [hstep] at htame
  · cases hsim with
    | next hinv' hstep => exact .of_step hcyc hstep (h _ hinv')
    | done _ _ _ hstep => exact .of_step hcyc hstep .done
    | clash _ _ hclash => exact hclash.tame

section Entry

variable {e₀ : Engine} {s t : Term Sym Int}

/-- Any loop keeps its invariant until it exits. -/
theorem LoopInv.reached (h : LoopInv cells op e₀ []) {e : Engine} (hloop : e₀.Loop e) :
    Reached cells op e₀.cx (fun _ => True) e := by
  induction hloop with
  | start => exact .loop h rfl trivial
  | step _ hin ih => exact ih.step hin fun _ _ _ _ _ => trivial

/-- **Only a tame configuration ends without a broken chain.** -/
theorem LoopInv.tame (h : LoopInv cells op e₀ []) {e : Engine} (hloop : e₀.Loop e)
    (hexit : e.inUnify = false)
    (hchains : ∀ e, e₀.Loop e → ∀ c ∈ cells, ChainEnds (graph e.mem cells) (.ref c)) :
    Tame (config cells e₀ []) := by
  have hback : TameAt cells op e → TameAt cells op e₀ := by
    clear hexit
    induction hloop with
    | start => exact id
    | @step f hloop hin ih =>
      refine fun hf => ih (hf.of_step fun hb => ?_)
      cases h.reached hloop with
      | loop hinv =>
        obtain ⟨-, c, hc, hend⟩ := hb.not_chainEnds hinv
        exact hend (hchains _ (hloop.step hin) c hc)
      | done hf => rw [hf, succeed_not_inUnify] at hin; cases hin
      | clash hf => rw [hf, mismatch_not_inUnify] at hin; cases hin
  refine hback (fun E hinv => ?_) [] h
  rw [hinv.inUnify] at hexit
  cases hexit

/-- A loop that starts at a tame configuration stays at such configurations. -/
theorem LoopInv.reached_orderly (h : LoopInv cells op e₀ [])
    (horder : (config cells e₀ []).Orderly (· ∈ cells)) {e : Engine} (hloop : e₀.Loop e) :
    Reached cells op e₀.cx
      (fun c => Run (config cells e₀ []) c ∧ c.Orderly (· ∈ cells)) e := by
  induction hloop with
  | start => exact .loop h rfl ⟨.refl, horder⟩
  | step _ hin ih =>
    exact ih.step hin fun E _ hc c hstep => ⟨hc.1.tail hstep, hstep.orderly hc.2⟩

theorem LoopInv.within (h : LoopInv cells op e₀ []) : (config cells e₀ []).In (· ∈ cells) := by
  intro p hp
  rw [List.mem_singleton.1 hp]
  exact ⟨h.current.1.view_in, h.current.2.view_in⟩

/-- The entry. -/
theorem LoopInv.orderly (h : LoopInv cells op e₀ [])
    (hden : Denotes (· ∈ cells) (graph e₀.mem cells)) (htame : Tame (config cells e₀ [])) :
    (config cells e₀ []).Orderly (· ∈ cells) :=
  ⟨h.store.closed, h.within, fun a ha => (hden a ha).elim fun _ h => h.chainEnds, htame⟩

/-- The entry, for terms that do not meet the occurs check. -/
theorem LoopInv.good (h : LoopInv cells op e₀ [])
    (hden : Denotes (· ∈ cells) (graph e₀.mem cells))
    (hx : Den (graph e₀.mem cells) (view e₀.mem e₀.ax) s)
    (hy : Den (graph e₀.mem cells) (view e₀.mem e₀.bx) t) (hoc : ¬ MeetsOccursCheck [(s, t)]) :
    (config cells e₀ []).Good (· ∈ cells) := by
  refine ⟨h.store.closed, hden, h.within, ?_⟩
  rw [config, Config.terms_cons hx hy]
  exact hoc

theorem Reached.chains {e : Engine} {R : Config Sym Int → Prop}
    (h : Reached cells op top (fun c => R c ∧ c.Orderly (· ∈ cells)) e) :
    ∀ c ∈ cells, ChainEnds (graph e.mem cells) (.ref c) := by
  cases h with
  | loop _ _ hc => exact hc.2.chains
  | @done f hf _ _ hc =>
    rw [show e.mem = f.mem by rw [hf]; cases op <;> rfl]
    exact hc.2.chains
  | @clash f c hf _ hc hgraph =>
    rw [show e.mem = f.mem by rw [hf]; cases op <;> rfl, ← hgraph]
    exact hc.2.chains

/-- What the exit `e` of a loop from `e₀` says about the two terms. -/
inductive Outcome (cells : Finset Int) (op : UnifyOp) (e₀ : Engine) (s t : Term Sym Int)
    (e : Engine) : Prop
  | unified {f : Engine} {μ : Int → Term Sym Int} : e = f.succeed op → f.st = e₀.cx →
      (op = .unifiable → f.dx = .mlvmZero) → MostGeneralUnifier μ s t →
      (∀ n : Node Sym Int, n.In (· ∈ cells) → ∀ u, Den (graph e₀.mem cells) n u →
        Den (graph f.mem cells) n (u.subst μ)) → Outcome cells op e₀ s t e
  | refuted {f : Engine} : e = f.mismatch op → f.cx = e₀.cx → ¬ Unifiable s t →
      Outcome cells op e₀ s t e

/-- **The outcome.** A loop from a tame configuration finds out whether the terms are unifiable, and
leaves them unified when they are. -/
theorem LoopInv.outcome (h : LoopInv cells op e₀ [])
    (hden : Denotes (· ∈ cells) (graph e₀.mem cells))
    (hx : Den (graph e₀.mem cells) (view e₀.mem e₀.ax) s)
    (hy : Den (graph e₀.mem cells) (view e₀.mem e₀.bx) t)
    (hanswer : TreeUnifiable s t → Unifiable s t) (htame : Tame (config cells e₀ [])) {e : Engine}
    (hloop : e₀.Loop e) (hexit : e.inUnify = false) : Outcome cells op e₀ s t e := by
  have horder := h.orderly hden htame
  cases h.reached_orderly horder hloop with
  | loop hinv => rw [hinv.inUnify] at hexit; cases hexit
  | done hf hst hdx hc =>
    have hu := hanswer (Run.treeUnifiable h.store.closed hx hy h.within hc.1 hc.2.chains)
    have hfinite := Run.denotes h.store.closed hden hx hy h.within hc.1 hc.2.chains hu
    obtain ⟨μ, hμ, hunified⟩ := Run.mostGeneralUnifier h.store.closed hden hx hy h.within hc.1
      hfinite
    exact .unified hf hst hdx hμ hunified
  | clash hf hcx hc _ hclash =>
    exact .refuted hf hcx (Run.not_unifiable h.store.closed hden hx hy h.within hc.1 hclash)

end Entry

end Mlvm
