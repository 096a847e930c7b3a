import Mlvm.Engine.FrameOps

/-!
# Backtracking restores the choice point

A run from a TRY on, through any instructions, nested choice frames and cuts, comes back to the
frame of the TRY by `backtrack` and `retry` or `trust`. Then the machine has the registers and the
cells again that it had at the TRY, cells apart that were overwritten by a destructive assignment
(`set`, the results of arithmetic, the reset of a cell by `putvar`): these are not undone.

* `LiveRun` — the runs, with the frames of the TRYs not yet removed and the cells overwritten.
* `LiveRun.live` — the invariant along a run.
* `backtracking_restores` — the main theorem.
-/

namespace Mlvm

namespace Engine

/-! ## What an operation does to the frames and to old cells -/

/-- The cells that an operation overwrites for good. -/
def overwrites (e : Engine) : Op → List Int
  | .assign a _ => [a]
  | .move a _ => [a]
  | .trail a => [a]
  | .retry _ _ => [(e.mem e.bb).addr - 1]
  | .trust => [(e.mem e.bb).addr - 1]
  | _ => []

/-- The choice frames after an operation. -/
def framesAfter (e : Engine) (L : List Engine) : Op → List Engine
  | .choice _ _ => e :: L
  | .trust => L.tail
  | .neckcut => framesFrom L e.b0
  | .setBb b => framesFrom L b
  | _ => L

/-- Compiled code overwrites no word of a choice frame, makes a choice frame on top of what the
frame saves, and gives labels in the code area below `base`; the frame of the TRY is not removed,
and builtins are not looked at. -/
structure Orderly (base : Int) (e : Engine) (L : List Engine) (o : Op) : Prop where
  builtin : ∀ i, o ≠ .builtin i
  offFrames : ∀ a ∈ e.overwrites o, ∀ s ∈ L, ¬ s.InFrame a
  settled : ∀ n l, o = .choice n l → e.Settled base ∧ l < base
  label : ∀ n l, o = .retry n l → l < base
  left : e.framesAfter L o ≠ []

variable (P : Program)

def OrderlyAll (base : Int) : Engine → List Engine → List Op → Prop
  | _, _, [] => True
  | e, L, o :: os => e.Orderly base L o ∧ OrderlyAll base (e.apply P o) (e.framesAfter L o) os

def overwritesAll : Engine → List Op → List Int
  | _, [] => []
  | e, o :: os => e.overwrites o ++ overwritesAll (e.apply P o) os

def framesAfterAll : Engine → List Engine → List Op → List Engine
  | _, L, [] => L
  | e, L, o :: os => framesAfterAll (e.apply P o) (e.framesAfter L o) os

/-- The next step of `e` executes a TRY. -/
structure Tries (e : Engine) (n : Nat) (l : Int) : Prop where
  code : P.code e.pp = .try_ n l
  lbl : e.lbl = .control ∨ e.lbl = .gline
  ops : e.ops P = [.choice n l]

/-- The runs from the TRY executed in `e₀` on, as long as its frame is there. -/
inductive LiveRun (e₀ : Engine) (n : Nat) (l : Int) : List Engine → List Int → Engine → Prop
  | try_ : Tries P e₀ n l → l < e₀.stack_base → LiveRun e₀ n l [e₀] [] (e₀.step P)
  | step {L : List Engine} {O : List Int} {e : Engine} : LiveRun e₀ n l L O e →
      OrderlyAll P e₀.stack_base e L (e.ops P) →
      LiveRun e₀ n l (framesAfterAll P e L (e.ops P)) (overwritesAll P e (e.ops P) ++ O) (e.step P)
  /-- The scheduler gives the engine back after the time slice. -/
  | resume {L : List Engine} {O : List Int} {e : Engine} : LiveRun e₀ n l L O e →
      e.lbl = .contextSwitch → e.status = .ready → LiveRun e₀ n l L O e.enter

variable {P} {e₀ e : Engine} {L : List Engine} {O : List Int}

/-! ## The invariant along a run -/

/-- **Every operation keeps the invariant.** -/
theorem Live.apply (h : Live e₀ L O e) {o : Op} (hv : o.Valid e)
    (ho : e.Orderly e₀.stack_base L o) :
    Live e₀ (e.framesAfter L o) (e.overwrites o ++ O) (e.apply P o) := by
  have hoff := ho.offFrames
  have hleft := ho.left
  cases o with
  | assign a w => exact h.assign w (hoff a List.mem_cons_self)
  | move a b => exact h.assign (e.mem b) (hoff a List.mem_cons_self)
  | push w => exact h.push w
  | pushCell a => exact h.push (e.mem a)
  | setSt s => exact h.setSt hv.2
  | bindBb a w => exact h.bindBb w hv
  | bindGl a w => exact h.bindGl w hv
  | trail a => exact h.trail (hoff a List.mem_cons_self)
  | generation => exact h.newGeneration h.bounds.2.2.2.1 le_rfl
  | choice n l =>
    obtain ⟨hset, hl⟩ := ho.settled n l rfl
    exact h.choice hset hv n hl
  | detrail => exact h.detrail
  | retry n l => exact h.retry hv (hoff _ List.mem_cons_self) n (ho.label n l rfl)
  | trust =>
    obtain ⟨s, L', rfl, -⟩ := h.linked
    cases L' with
    | nil => exact (hleft rfl).elim
    | cons s' L' => exact h.trust hv (hoff _ List.mem_cons_self)
  | neckcut => exact h.neckcut hv hleft
  | setBb b => exact h.setBb hleft
  | builtin i => exact (ho.builtin i rfl).elim

theorem Live.applyAll (os : List Op) : ∀ {e : Engine} {L : List Engine} {O : List Int},
    Live e₀ L O e → e.ValidAll P os → OrderlyAll P e₀.stack_base e L os →
    Live e₀ (framesAfterAll P e L os) (overwritesAll P e os ++ O) (e.applyAll P os) := by
  induction os with
  | nil => exact fun h _ _ => h
  | cons o os ih =>
    intro e L O h hv ho
    refine (ih (h.apply hv.1 ho.1) hv.2 ho.2).mono fun a ha => ?_
    simp only [overwritesAll, List.mem_append] at ha ⊢
    tauto

theorem Live.below (h : Live e₀ L O e) : e.bb ≤ e.st ∧ e.gl ≤ e.st :=
  ⟨h.bounds.2.2.1.trans h.bounds.2.2.2.1, h.bounds.2.2.2.1⟩

theorem LabelInv.cleanUp (h : e.LabelInv P) : e.lbl = .cleanUp → e.tt ≤ e.gp := fun hlbl => by
  simpa only [LabelInv, hlbl] using h

theorem Tries.labelInv {n : Nat} {l : Int} (h : Tries P e n l)
    (hroom : CHOICE_SIZE * GC_FACTOR ≤ e.tt - e.st) : e.LabelInv P := by
  rcases h.lbl with hlbl | hlbl
  · exact labelInv_of_atRest (Or.inl hlbl)
  · simp only [LabelInv, hlbl]
    exact fun _ _ _ => hroom

/-- **The invariant holds along a run.** -/
theorem LiveRun.live {n : Nat} {l : Int} (hready : e₀.Ready e₀.stack_base)
    (h : LiveRun P e₀ n l L O e) : Live e₀ L O e ∧ e.LabelInv P := by
  induction h with
  | try_ htries hl =>
    have hlabel := htries.labelInv hready.room
    have hstart : Live e₀ [e₀] [] (e₀.makeCframe n l) := live_start hready hl
    refine ⟨hstart.congr ?_, labelInv_step hready.bb hready.gl hlabel⟩
    rw [step_core e₀ hlabel.cleanUp, htries.ops]
    rfl
  | step _ hord ih =>
    obtain ⟨hlive, hlabel⟩ := ih
    obtain ⟨hbb, hgl⟩ := hlive.below
    exact ⟨(hlive.applyAll _ (validAll_ops hbb hgl hlabel) hord).congr
      (step_core _ hlabel.cleanUp), labelInv_step hbb hgl hlabel⟩
  | resume _ hlbl hstatus ih =>
    refine ⟨ih.1.congr ?_, labelInv_enter⟩
    simp only [enter, hstatus]
    rfl

/-! ## Coming back to the frame -/

theorem Steps.trans {e' e'' : Engine} (h : Steps P e e') (h' : Steps P e' e'') :
    Steps P e e'' := by
  induction h' with
  | refl => exact h
  | step _ ih => exact ih.step

/-- `backtrack()`, and the next time slice when this one is over. -/
def reenter (e : Engine) : Engine := if e.bt < 0 then e.backtrack.enter else e.backtrack

/-- The top frame is the one of the TRY. -/
theorem Live.frames_eq (h : Live e₀ L O e) (hbb : e.bb = e₀.st + CHOICE_SIZE) : L = [e₀] := by
  obtain ⟨s, L', rfl, hlinked, -⟩ := h.linked
  cases L' with
  | nil =>
    have hlast := h.last
    simp only [List.getLast?_singleton, Option.some.injEq] at hlast
    rw [hlast]
  | cons s' L' =>
    have hover : Over s e₀ :=
      (List.pairwise_cons.1 (List.pairwise_cons.1 h.pairwise).2).1 e₀ (List.mem_of_getLast? h.last)
    have hst := hlinked.bb
    obtain ⟨h₁, -, h₃, -⟩ := hover
    simp only [CHOICE_SIZE] at *
    omega

/-- When the trail is as it was at the TRY, so are the cells. -/
theorem Live.restored (h : Live e₀ L O e) (htt : e.tt = e₀.tt) {a : Int} (ha : a ≤ e₀.st)
    (hO : a ∉ O) : e.mem a = e₀.mem a := by
  obtain ⟨hu, hb⟩ := h.kept a ha hO
  by_cases h₀ : e₀.mem a = .ref a
  · rw [h₀]
    refine (hu h₀).resolve_right ?_
    rintro ⟨t, ht, ht', -⟩
    omega
  · exact (hb h₀).1

/-- **The loop of `detrail` ends.** -/
theorem detrail_ends (k : Nat) : ∀ {d : Engine}, d.lbl = .detrail → Live e₀ [e₀] O d →
    e₀.tt - d.tt ≤ k → ∃ d', Steps P d d' ∧ d'.lbl = .exec ∧ d'.pp = d.pp ∧ d'.b0 = d.b0 ∧
      Live e₀ [e₀] O d' ∧ d'.tt = e₀.tt := by
  induction k with
  | zero =>
    intro d hlbl hlive hk
    have hlinked := (List.isChain_cons_cons.1 hlive.chain).1
    have htt : d.tt = e₀.tt := le_antisymm hlinked.tt (by omega)
    have hbtt : d.BTT = e₀.tt := by
      rw [BTT, ((hlive.saved e₀ hlive.mem_base).words hlinked.bb).2.2.1, Word.addr_ref]
    have hstep : d.step P = d.goto .exec := by
      rw [step, hlbl]
      exact if_neg (by omega)
    exact ⟨d.step P, Steps.refl.step, by rw [hstep]; rfl, by rw [hstep]; rfl, by rw [hstep]; rfl,
      by rw [hstep]; exact hlive.congr rfl, by rw [hstep]; exact htt⟩
  | succ k ih =>
    intro d hlbl hlive hk
    by_cases htt : d.tt = e₀.tt
    · exact ih hlbl hlive (by omega)
    · have hlinked := (List.isChain_cons_cons.1 hlive.chain).1
      have hlt : d.tt < e₀.tt := lt_of_le_of_ne hlinked.tt htt
      have hbtt : d.BTT = e₀.tt := by
        rw [BTT, ((hlive.saved e₀ hlive.mem_base).words hlinked.bb).2.2.1, Word.addr_ref]
      have hstep : d.step P = d.detrail := by rw [step, hlbl]
      have hfields : d.detrail.lbl = .detrail ∧ d.detrail.pp = d.pp ∧ d.detrail.b0 = d.b0 ∧
          d.detrail.tt = d.tt + 1 := by
        rw [Engine.detrail, if_pos (by omega)]
        dsimp only
        split_ifs <;> exact ⟨hlbl, rfl, rfl, rfl⟩
      obtain ⟨hlbl', hpp, hb0, htt'⟩ := hfields
      obtain ⟨d', hsteps, h₁, h₂, h₃, h₄⟩ := ih hlbl' hlive.detrail (by omega)
      refine ⟨d', ?_, h₁, h₂.trans hpp, h₃.trans hb0, h₄⟩
      exact Steps.trans (hstep ▸ Steps.refl.step) hsteps

/-- At the frame, `backtrack` goes to the label in it and loads `b0`. -/
theorem reenter_spec {base : Int} (h : e.Saved base e₀) (hbb : e.bb = e₀.st + CHOICE_SIZE)
    (hbase : e.stack_base < e.bb) : e.reenter.lbl = .control ∧
      e.reenter.pp = (e.mem (e.bb - 5)).addr ∧ e.reenter.b0 = e₀.b0 ∧
      e.reenter.core = e.core := by
  have hb0 := (h.words hbb).2.2.2.2.1
  by_cases hbt : e.bt < 0
  · rw [reenter, if_pos hbt, backtrack, if_neg (not_le.2 hbase)]
    dsimp only
    rw [if_pos hbt]
    exact ⟨rfl, rfl, congrArg Word.addr hb0, rfl⟩
  · rw [reenter, if_neg hbt, backtrack, if_neg (not_le.2 hbase)]
    dsimp only
    rw [if_neg hbt]
    exact ⟨rfl, rfl, congrArg Word.addr hb0, rfl⟩

/-- The machine is again what it was at the TRY in `e₀`: `d` is its state after `detrail`, and `r`
its state after the RETRY or TRUST. -/
structure Restored (e₀ : Engine) (O : List Int) (i : Instr) (e d r : Engine) : Prop where
  cf : r.cf = e₀.cf
  ccp : r.mem (r.cf - 1) = e₀.mem (e₀.cf - 1)
  b0 : r.b0 = e₀.b0
  /-- A cell that was unbound is unbound again. -/
  unbound : ∀ a ≤ e₀.st, a ∉ O → e₀.mem a = .ref a → d.mem a = .ref a ∧ r.mem a = .ref a
  /-- A cell that was bound is left alone, and holds its word. -/
  bound : ∀ a ≤ e₀.st, a ∉ O → e₀.mem a ≠ .ref a →
    d.mem a = e.mem a ∧ r.mem a = e.mem a ∧ r.mem a = e₀.mem a
  /-- The arguments are pushed again as the TRY has pushed them. -/
  retry : ∀ m l, i = .retry m l → r.bb = e₀.st + CHOICE_SIZE ∧ r.gl = r.bb ∧ r.st = r.bb + m ∧
    r.af = r.st ∧ ∀ k : Nat, k < m → e₀.st - m + 1 + k ∉ O →
      r.mem (r.bb + 1 + k) = e₀.mem (e₀.st - m + 1 + k)
  trust : i = .trust → r.gl = e₀.gl ∧ r.bb = e₀.bb ∧ r.st = e₀.st ∧ r.tt = e₀.tt ∧ r.af = e₀.st

/-- `retry` on the frame of the TRY, after `detrail`. -/
theorem Live.restored_retry (h : Live e₀ [e₀] O e) (htt : e.tt = e₀.tt) (m : Nat) (l : Int) :
    (e.retry m l).cf = e₀.cf ∧ (e.retry m l).b0 = e.b0 ∧
      (∀ a ≤ e₀.st, a ∉ O ∨ a = e₀.cf - 1 → (e.retry m l).mem a = e₀.mem a) ∧
      (e.retry m l).bb = e₀.st + CHOICE_SIZE ∧ (e.retry m l).gl = e.bb ∧
      (e.retry m l).st = e.bb + m ∧ (e.retry m l).af = (e.retry m l).st ∧
      ∀ k : Nat, k < m → e₀.st - m + 1 + k ∉ O →
        (e.retry m l).mem (e.bb + 1 + k) = e₀.mem (e₀.st - m + 1 + k) := by
  have hbb := (List.isChain_cons_cons.1 h.chain).1.bb
  obtain ⟨hcf, hccp, -⟩ := (h.saved e₀ h.mem_base).words hbb
  have hcfst := (h.ready e₀ h.mem_base).cf
  let e₁ := { e with cf := (e.mem e.bb).addr }
  let e₂ := (e₁.assign (e₁.cf - 1) (e₁.mem (e₁.bb - 1))).assign (e₁.bb - 5) (.ref l)
  let e₃ := Engine.newGeneration { e₂ with st := e₂.bb, gl := e₂.bb }
  let e₄ : Engine := { e₃ with af := e₃.st - (CHOICE_SIZE + ↑m) }
  have hretry : e.retry m l = Engine.next { (e₄.mirror m) with af := (e₄.mirror m).st } 3 := rfl
  obtain ⟨mem, hcore, hmem⟩ := mirror_core m e₄
  obtain ⟨hcf', hb0'⟩ := mirror_cf_b0 m e₄
  have hmirror : (e₄.mirror m).mem = mem := congrArg Core.mem hcore
  -- Below the frame, only the word of the continuation was written.
  have hold : ∀ a ≤ e₀.st, a ∉ O ∨ a = e₀.cf - 1 → e₄.mem a = e₀.mem a := fun a ha hO => by
    have hne : a ≠ e.bb - 5 := by
      simp only [CHOICE_SIZE] at hbb
      omega
    show Function.update (Function.update e.mem ((e.mem e.bb).addr - 1) (e.mem (e.bb - 1)))
      (e.bb - 5) (.ref l) a = _
    rw [Function.update_of_ne hne, hcf, Word.addr_ref, hccp]
    by_cases hac : a = e₀.cf - 1
    · rw [hac, Function.update_self]
    · rw [Function.update_of_ne hac]
      exact h.restored htt ha (hO.resolve_right hac)
  have hst₄ : e₄.st = e.bb := rfl
  refine ⟨?_, hb0', fun a ha hO => ?_, ?_, congrArg Core.gl hcore, congrArg Core.st hcore, rfl,
    fun k hk hO => ?_⟩
  · exact hcf'.trans (by show (e.mem e.bb).addr = _; rw [hcf, Word.addr_ref])
  · refine (congrFun hmirror a).trans ((hmem a ?_).trans (hold a ha hO))
    rw [hst₄, hbb]
    simp only [CHOICE_SIZE]
    omega
  · exact (congrArg Core.bb hcore).trans hbb
  · have haf : e₄.af = e.bb - (CHOICE_SIZE + m) := rfl
    have hcopy := mirror_copies m e₄ (by rw [haf, hst₄]; simp only [CHOICE_SIZE]; omega) k hk
    rw [hst₄, haf, hbb] at hcopy
    have hslot : e₀.st + CHOICE_SIZE - (CHOICE_SIZE + (m : Int)) + 1 + k = e₀.st - m + 1 + k := by
      omega
    rw [hslot, hold _ (by omega) (Or.inl hO), ← hbb] at hcopy
    exact hcopy

/-- `trust` on the frame of the TRY, after `detrail`. -/
theorem Live.trust_eq (h : Live e₀ [e₀] O e) : e.trust =
    { (e.assign (e₀.cf - 1) (e₀.mem (e₀.cf - 1))) with
      cf := e₀.cf, gl := e₀.gl, st := e₀.st, af := e₀.st, bb := e₀.bb, pp := e.pp + 1,
      lbl := .control } := by
  have hcfst := (h.ready e₀ h.mem_base).cf
  exact trust_spec (h.saved e₀ h.mem_base) (List.isChain_cons_cons.1 h.chain).1.bb
    (h.not_inFrame (by omega) h.mem_base)

/-- **Backtracking restores the choice point.** Whatever happens between a TRY and the return to its
frame by `backtrack` and RETRY or TRUST, the machine is again what it was at the TRY, cells that
were overwritten by destructive assignments apart. -/
theorem backtracking_restores {n : Nat} {l : Int} (hready : e₀.Ready e₀.stack_base)
    (hrun : LiveRun P e₀ n l L O e) (hlbl : e.lbl = .backtrack)
    (hbb : e.bb = e₀.st + CHOICE_SIZE) {i : Instr}
    (hi : i = .trust ∨ ∃ m l', i = .retry m l') (hcode : P.code (e.mem (e.bb - 5)).addr = i) :
    ∃ d, Steps P e e.backtrack ∧ Steps P e.reenter d ∧ d.lbl = .exec ∧ P.code d.pp = i ∧
      Restored e₀ O i e d (d.step P) := by
  obtain ⟨hlive, -⟩ := hrun.live hready
  obtain rfl := hlive.frames_eq hbb
  have hsaved := hlive.saved e₀ hlive.mem_base
  have hbase : e.stack_base < e.bb := by
    have hle := (hlive.ready e₀ hlive.mem_base).base
    rw [hlive.base, hbb]
    simp only [CHOICE_SIZE]
    omega
  obtain ⟨hlbl₁, hpp₁, hb0₁, hcore₁⟩ := reenter_spec hsaved hbb hbase
  -- The instruction starts with `detrail`.
  have hstep₁ : e.reenter.step P = e.reenter.goto .detrail := by
    rw [step, hlbl₁]
    dsimp only
    rw [hpp₁, hcode]
    rcases hi with rfl | ⟨m, l', rfl⟩ <;> rfl
  have hlive₁ : Live e₀ [e₀] O (e.reenter.goto .detrail) := hlive.congr hcore₁
  obtain ⟨d, hsteps, hlbl_d, hpp_d, hb0_d, hlive_d, htt_d⟩ :=
    detrail_ends (e₀.tt - (e.reenter.goto .detrail).tt).toNat (P := P) rfl hlive₁ (by omega)
  have hcode_d : P.code d.pp = i := by
    rw [hpp_d, show (e.reenter.goto .detrail).pp = e.reenter.pp from rfl, hpp₁, hcode]
  have hb0 : d.b0 = e₀.b0 := hb0_d.trans hb0₁
  have hcell : ∀ a ≤ e₀.st, a ∉ O → d.mem a = e₀.mem a := fun a ha hO =>
    hlive_d.restored htt_d ha hO
  have hbound : ∀ a ≤ e₀.st, a ∉ O → e₀.mem a ≠ .ref a → e.mem a = e₀.mem a := fun a ha hO h₀ =>
    ((hlive.kept a ha hO).bound h₀).1
  refine ⟨d, ?_, Steps.trans (hstep₁ ▸ Steps.refl.step) hsteps, hlbl_d, hcode_d, ?_⟩
  · have hstep : e.step P = e.backtrack := by rw [step, hlbl]
    exact hstep ▸ Steps.refl.step
  have hexec : d.step P = d.exec P i := by rw [step, hlbl_d, hcode_d]
  rw [hexec]
  have hcfst := (hlive.ready e₀ hlive.mem_base).cf
  rcases hi with rfl | ⟨m, l', rfl⟩
  · show Restored e₀ O .trust e d d.trust
    rw [hlive_d.trust_eq]
    have hmem : ∀ a ≤ e₀.st, a ∉ O →
        (d.assign (e₀.cf - 1) (e₀.mem (e₀.cf - 1))).mem a = e₀.mem a := fun a ha hO => by
      by_cases hac : a = e₀.cf - 1
      · rw [hac, assign_mem_self]
      · rw [assign_mem_of_ne _ _ hac, hcell a ha hO]
    refine ⟨rfl, assign_mem_self _ _ _, hb0, fun a ha hO h₀ => ?_, fun a ha hO h₀ => ?_,
      fun m l h => (by cases h), fun _ => ⟨rfl, rfl, rfl, htt_d, rfl⟩⟩
    · exact ⟨(hcell a ha hO).trans h₀, (hmem a ha hO).trans h₀⟩
    · have he := hbound a ha hO h₀
      exact ⟨(hcell a ha hO).trans he.symm, (hmem a ha hO).trans he.symm, hmem a ha hO⟩
  · show Restored e₀ O (.retry m l') e d (d.retry m l')
    obtain ⟨h₁, h₂, h₃, h₄, h₅, h₆, h₇, h₈⟩ := hlive_d.restored_retry htt_d m l'
    have hbb_d := (List.isChain_cons_cons.1 hlive_d.chain).1.bb
    refine ⟨h₁, ?_, h₂.trans hb0, fun a ha hO h₀ => ?_, fun a ha hO h₀ => ?_,
      fun m' l'' h => ?_, fun h => (by cases h)⟩
    · rw [h₁]
      exact h₃ _ (by omega) (Or.inr rfl)
    · exact ⟨(hcell a ha hO).trans h₀, (h₃ a ha (Or.inl hO)).trans h₀⟩
    · have he := hbound a ha hO h₀
      have hr := h₃ a ha (Or.inl hO)
      exact ⟨(hcell a ha hO).trans he.symm, hr.trans he.symm, hr⟩
    · obtain ⟨rfl, rfl⟩ := Instr.retry.inj h
      refine ⟨h₄, h₅.trans (hbb_d.trans h₄.symm), ?_, h₇, fun k hk hO => ?_⟩
      · rw [h₆, h₄, hbb_d]
      · rw [h₄, ← hbb_d]
        exact h₈ k hk hO

/-! ## A predicate of two clauses -/

/-- TRY at `0`; the first clause is `i` and then fails, and the second one, at `20`, is TRUST. -/
def twoClauses (i : Instr) : Program where
  code pp := if pp = 0 then .try_ 1 20 else if pp = 3 then i else if pp = 20 then .trust else .fail
  strcmp _ _ := 0
  con_nil := .makeCon 1
  doubles := ⟨fun x => (.makeInt x, .mlvmZero), fun _ x _ => x, id, fun _ _ => false,
    fun x y => x == y⟩
  legal _ := false
  btin _ e := e

/-- The argument of the call, cell `50`, is unbound. -/
def called : Engine :=
  { (default : Engine) with
    mem := fun a => if a = 48 then .ref 10 else .ref a
    stack_base := 40
    af := 50
    cf := 49
    st := 50
    bb := 40
    b0 := 40
    gl := 40
    tt := 200
    bt := 100
    lbl := .control }

theorem called_ready : called.Ready called.stack_base where
  cf := by decide
  b0 := by decide
  ccp := by decide
  base := by decide
  bb := by decide
  gl := by decide
  room := by decide

/-- After the TRY. -/
def tried : Engine :=
  { called with
    mem := (called.makeCframe 1 20).mem
    trl := Function.update called.trl 200 (.str 57)
    pp := 3
    af := 58
    st := 58
    bb := 57
    gl := 57
    tt := 199 }

theorem called_tries (i : Instr) : Tries (twoClauses i) called 1 20 :=
  ⟨rfl, Or.inl rfl, rfl⟩

/-- A step with its operations and its outcome written out. -/
theorem LiveRun.next {n : Nat} {l : Int} (h : LiveRun P e₀ n l L O e) (os : List Op) {e' : Engine}
    (hops : e.ops P = os) (hord : OrderlyAll P e₀.stack_base e L os) (hstep : e.step P = e') :
    LiveRun P e₀ n l (framesAfterAll P e L os) (overwritesAll P e os ++ O) e' := by
  subst hops hstep
  exact h.step hord

/-- `getcon` binds the argument, the clause fails, and TRUST finds the argument unbound. -/
theorem backtracking_restores_getcon : ∃ e d : Engine, e.lbl = .backtrack ∧ e.mem 50 = .mlvmZero ∧
    Steps (twoClauses (.getcon (.cell 8) .mlvmZero)) e.reenter d ∧
    (d.step (twoClauses (.getcon (.cell 8) .mlvmZero))).mem 50 = .ref 50 := by
  let P := twoClauses (.getcon (.cell 8) .mlvmZero)
  let fetched : Engine := { tried with gp := 50, ax := .ref 50, lbl := .derefAx false }
  let bound : Engine :=
    { fetched with
      mem := Function.update tried.mem 50 .mlvmZero
      trl := Function.update tried.trl 199 (.ref 50)
      tt := 198
      pp := 6
      lbl := .control }
  have hrun₁ : LiveRun P called 1 20 [called] [] tried :=
    .try_ (called_tries _) (by decide)
  have hrun₂ : LiveRun P called 1 20 [called] [] fetched := hrun₁.next [] rfl trivial rfl
  have hrun₃ : LiveRun P called 1 20 [called] [] { fetched with lbl := .exec } :=
    hrun₂.next [] rfl trivial rfl
  have hbind : OrderlyAll P called.stack_base { fetched with lbl := .exec } [called]
      [.bindBb 50 .mlvmZero] :=
    ⟨⟨fun _ h => (nomatch h), fun _ h => (nomatch h), fun _ _ h => (nomatch h),
      fun _ _ h => (nomatch h), List.cons_ne_nil _ _⟩, trivial⟩
  have hrun₄ : LiveRun P called 1 20 [called] [] bound := hrun₃.next _ rfl hbind rfl
  have hrun₅ : LiveRun P called 1 20 [called] [] { bound with lbl := .backtrack } :=
    hrun₄.next [] rfl trivial rfl
  obtain ⟨d, -, hsteps, -, -, hrestored⟩ :=
    backtracking_restores called_ready hrun₅ rfl rfl (i := .trust) (Or.inl rfl) rfl
  exact ⟨_, d, rfl, rfl, hsteps, (hrestored.unbound 50 (by decide) (by simp) rfl).2⟩

/-- **Stores of `set` are not undone.** `setcon` overwrites the argument, the clause fails, and
TRUST finds the constant in the cell that was unbound at the TRY. -/
theorem set_not_undone : ¬ ∀ (P : Program) (e₀ e d : Engine) (n : Nat) (l : Int) (L : List Engine)
    (O : List Int), e₀.Ready e₀.stack_base → LiveRun P e₀ n l L O e → e.lbl = .backtrack →
    e.bb = e₀.st + CHOICE_SIZE → P.code (e.mem (e.bb - 5)).addr = .trust → Steps P e.reenter d →
    d.lbl = .exec → ∀ a ≤ e₀.st, e₀.mem a = .ref a → (d.step P).mem a = .ref a := by
  intro h
  let P := twoClauses (.setcon 8 .mlvmZero)
  let stored : Engine :=
    { tried with gp := 50, mem := Function.update tried.mem 50 .mlvmZero, pp := 6 }
  have hrun₁ : LiveRun P called 1 20 [called] [] tried :=
    .try_ (called_tries _) (by decide)
  have hset : OrderlyAll P called.stack_base tried [called] [.assign 50 .mlvmZero] := by
    refine ⟨⟨fun _ h => (nomatch h), fun a ha s hs => ?_, fun _ _ h => (nomatch h),
      fun _ _ h => (nomatch h), List.cons_ne_nil _ _⟩, trivial⟩
    rw [List.mem_singleton.1 ha, List.mem_singleton.1 hs]
    exact fun hin => absurd hin.1 (by decide)
  have hrun₂ : LiveRun P called 1 20 [called] [50] stored := hrun₁.next _ rfl hset rfl
  have hrun₃ : LiveRun P called 1 20 [called] [50] { stored with lbl := .backtrack } :=
    hrun₂.next [] rfl trivial rfl
  -- The trail holds only the generation line of the TRY.
  let d : Engine :=
    { stored with pp := 20, b0 := 40, bt := 99, gp := 57, tt := 200, lbl := .exec }
  have hsteps : Steps P (reenter { stored with lbl := .backtrack }) d :=
    Steps.refl.step.step.step
  have hmem := h P called _ d 1 20 [called] [50] called_ready hrun₃ rfl rfl rfl hsteps rfl 50
    (by decide) rfl
  have htrust : (d.step P).mem 50 = .mlvmZero := rfl
  rw [htrust] at hmem
  cases hmem

end Engine

end Mlvm
