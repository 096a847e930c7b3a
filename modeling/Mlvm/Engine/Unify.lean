import Mlvm.Engine.State

/-!
# The general unification loop

The loop at the label `UNIFY`, shared by `getval`, `cgetval` and, with other exits, by the three
unifiability tests. The stack above the entry value `cx` of `st` holds the pairs still to be
unified.
-/

namespace Mlvm

namespace Engine

/-- What the loop does when no pair is left. -/
def succeed (e : Engine) : UnifyOp → Engine
  | .getval => e.goto .control
  | .unifiable => e.goto .cleanUp

/-- What the loop does on a mismatch. -/
def mismatch (e : Engine) : UnifyOp → Engine
  | .getval => e.goto .backtrack
  | .unifiable => { e with dx := .mlvmNone, st := e.cx, lbl := .cleanUp }

/-- Take the next pair from the stack. -/
def popPair (e : Engine) (op : UnifyOp) : Engine :=
  if e.st = e.cx then e.succeed op
  else { e with ax := e.mem e.st, bx := e.mem (e.st - 1), st := e.st - 2, lbl := .axdef op }

/-- `AXDEF`: dereference `ax`, and bind it when it is unbound. -/
def axdef (e : Engine) (op : UnifyOp) : Engine :=
  match e.ax with
  | .ref a => if e.ax ≠ e.mem a then { e with ax := e.mem a } else (e.bind a e.bx).popPair op
  | _ => e.goto (.bxdef op)

/-- The pairs of arguments from the last down to the second. -/
def pushArgs (e : Engine) (x y : Int) : Nat → Engine
  | k + 2 =>
    let e₁ := e.push (e.mem (y + ↑(k + 2)))
    let e₂ := e₁.push (e₁.mem (x + ↑(k + 2)))
    e₂.pushArgs x y (k + 1)
  | _ => e

/-- Compare two dereferenced words that are not variables. -/
def heads (e : Engine) (op : UnifyOp) : Engine :=
  if e.ax = e.bx then e.popPair op
  else match e.ax, e.bx with
    | .lis p, .lis q =>
      let e₁ := e.push (e.mem (q + 1))
      let e₂ := e₁.push (e₁.mem (p + 1))
      { e₂ with bx := e₂.mem q, ax := e₂.mem p, lbl := .axdef op }
    | .str p, .str q =>
      if e.ax.isFloat e.mem ∧ e.bx.isFloat e.mem then
        if e.mem (p + 1) ≠ e.mem (q + 1) ∨ e.mem (p + 2) ≠ e.mem (q + 2) then e.mismatch op
        else e.popPair op
      else if e.mem p ≠ e.mem q then { e with ax := e.mem p, bx := e.mem q }.mismatch op
      else
        let e₁ := e.pushArgs p q (e.mem p).arity
        { e₁ with bx := e₁.mem (q + 1), ax := e₁.mem (p + 1), lbl := .axdef op }
    | _, _ => e.mismatch op

/-- `BXDEF`: dereference `bx`, bind it when it is unbound, and compare otherwise. -/
def bxdef (e : Engine) (op : UnifyOp) : Engine :=
  match e.bx with
  | .ref b => if e.bx ≠ e.mem b then { e with bx := e.mem b } else (e.bind b e.ax).popPair op
  | _ => e.heads op

/-- `UNIFY`: keep the entry value of `st` and start with the pair in `ax` and `bx`. -/
def unify (e : Engine) : Engine := { e with cx := e.st, lbl := .axdef .getval }

/-- One step of the loop; the other labels are left as they are. -/
def unifyStep (e : Engine) : Engine :=
  match e.lbl with
  | .axdef op => e.axdef op
  | .bxdef op => e.bxdef op
  | _ => e

/-- The label is inside the loop. -/
def inUnify (e : Engine) : Bool :=
  match e.lbl with
  | .axdef _ => true
  | .bxdef _ => true
  | _ => false

/-- The states the loop comes to from `e`, the exit included. -/
inductive Loop (e : Engine) : Engine → Prop
  | start : Loop e e
  | step {e' : Engine} : Loop e e' → e'.inUnify → Loop e e'.unifyStep

/-! ## What the loop leaves alone -/

/-- The registers that the loop never writes. -/
structure Registers where
  stack_base : Int
  pp : Int
  af : Int
  cf : Int
  gp : Int
  cx : Int
  bb : Int
  b0 : Int
  gl : Int
  status : Status

def registers (e : Engine) : Registers :=
  ⟨e.stack_base, e.pp, e.af, e.cf, e.gp, e.cx, e.bb, e.b0, e.gl, e.status⟩

/-- The registers that the loop never writes are the same, and the trail has not shrunk. -/
structure SameRegs (e e' : Engine) : Prop where
  registers : e'.registers = e.registers
  tt : e'.tt ≤ e.tt

theorem SameRegs.refl (e : Engine) : SameRegs e e := ⟨rfl, le_rfl⟩

theorem SameRegs.trans {e e' e'' : Engine} (h : SameRegs e e') (h' : SameRegs e' e'') :
    SameRegs e e'' :=
  ⟨h'.registers.trans h.registers, h'.tt.trans h.tt⟩

theorem SameRegs.pp {e e' : Engine} (h : SameRegs e e') : e'.pp = e.pp :=
  congrArg Registers.pp h.registers

theorem SameRegs.af {e e' : Engine} (h : SameRegs e e') : e'.af = e.af :=
  congrArg Registers.af h.registers

theorem SameRegs.gp {e e' : Engine} (h : SameRegs e e') : e'.gp = e.gp :=
  congrArg Registers.gp h.registers

theorem SameRegs.cx {e e' : Engine} (h : SameRegs e e') : e'.cx = e.cx :=
  congrArg Registers.cx h.registers

theorem SameRegs.bb {e e' : Engine} (h : SameRegs e e') : e'.bb = e.bb :=
  congrArg Registers.bb h.registers

theorem SameRegs.gl {e e' : Engine} (h : SameRegs e e') : e'.gl = e.gl :=
  congrArg Registers.gl h.registers

theorem sameRegs_bind (e : Engine) (a : Int) (w : Word) : SameRegs e (e.bind a w) := by
  have htt : e.tt - 1 ≤ e.tt := by omega
  unfold bind bbtrail trail
  split_ifs
  · exact ⟨rfl, htt⟩
  · exact ⟨rfl, le_rfl⟩
  · exact ⟨rfl, htt⟩
  · exact ⟨rfl, le_rfl⟩

theorem sameRegs_succeed (e : Engine) (op : UnifyOp) : SameRegs e (e.succeed op) := by
  cases op <;> exact ⟨rfl, le_rfl⟩

theorem sameRegs_mismatch (e : Engine) (op : UnifyOp) : SameRegs e (e.mismatch op) := by
  cases op <;> exact ⟨rfl, le_rfl⟩

theorem sameRegs_popPair (e : Engine) (op : UnifyOp) : SameRegs e (e.popPair op) := by
  unfold popPair
  split_ifs
  · exact sameRegs_succeed e op
  · exact ⟨rfl, le_rfl⟩

/-- The pushes of the loop write above `st` and touch no register but `st`. -/
theorem pushArgs_frame (x y : Int) : ∀ (n : Nat) (e : Engine),
    SameRegs e (e.pushArgs x y n) ∧ (e.pushArgs x y n).tt = e.tt ∧
      ∀ q ≤ e.st, (e.pushArgs x y n).mem q = e.mem q
  | 0, e => ⟨SameRegs.refl e, rfl, fun _ _ => rfl⟩
  | 1, e => ⟨SameRegs.refl e, rfl, fun _ _ => rfl⟩
  | k + 2, e => by
    obtain ⟨hregs, htt, hmem⟩ := pushArgs_frame x y (k + 1) ((e.push (e.mem (y + ↑(k + 2)))).push
      ((e.push (e.mem (y + ↑(k + 2)))).mem (x + ↑(k + 2))))
    refine ⟨⟨hregs.registers, hregs.tt⟩, htt, fun q hq => ?_⟩
    rw [pushArgs, hmem q (by simp only [push]; omega)]
    simp only [push]
    rw [Function.update_of_ne (by omega), Function.update_of_ne (by omega)]

theorem heads_frame (e : Engine) (op : UnifyOp) : SameRegs e (e.heads op) ∧
    (e.heads op).tt = e.tt ∧ ∀ q ≤ e.st, (e.heads op).mem q = e.mem q := by
  have hpop : (e.popPair op).tt = e.tt ∧ (e.popPair op).mem = e.mem := by
    unfold popPair
    split_ifs
    · cases op <;> exact ⟨rfl, rfl⟩
    · exact ⟨rfl, rfl⟩
  have hmis : ∀ f : Engine, (f.mismatch op).tt = f.tt ∧ (f.mismatch op).mem = f.mem := fun f => by
    cases op <;> exact ⟨rfl, rfl⟩
  by_cases heq : e.ax = e.bx
  · rw [heads, if_pos heq]
    exact ⟨sameRegs_popPair e op, hpop.1, fun q _ => by rw [hpop.2]⟩
  · rw [heads, if_neg heq]
    split
    · refine ⟨⟨rfl, le_rfl⟩, rfl, fun q hq => ?_⟩
      simp only [push]
      rw [Function.update_of_ne (by omega), Function.update_of_ne (by omega)]
    · split_ifs
      · exact ⟨sameRegs_mismatch e op, (hmis e).1, fun q _ => by rw [(hmis e).2]⟩
      · exact ⟨sameRegs_popPair e op, hpop.1, fun q _ => by rw [hpop.2]⟩
      · exact ⟨⟨(sameRegs_mismatch _ op).registers, (sameRegs_mismatch _ op).tt⟩, (hmis _).1,
          fun q _ => by rw [(hmis _).2]⟩
      · obtain ⟨hregs, htt, hmem⟩ := pushArgs_frame _ _ _ e
        exact ⟨⟨hregs.registers, hregs.tt⟩, htt, hmem⟩
    · exact ⟨sameRegs_mismatch e op, (hmis e).1, fun q _ => by rw [(hmis e).2]⟩

theorem sameRegs_unifyStep (e : Engine) : SameRegs e e.unifyStep := by
  unfold unifyStep
  split
  · unfold axdef
    split
    · split_ifs
      · exact ⟨rfl, le_rfl⟩
      · exact (sameRegs_bind e _ _).trans (sameRegs_popPair _ _)
    · exact ⟨rfl, le_rfl⟩
  · unfold bxdef
    split
    · split_ifs
      · exact ⟨rfl, le_rfl⟩
      · exact (sameRegs_bind e _ _).trans (sameRegs_popPair _ _)
    · exact (heads_frame e _).1
  · exact ⟨rfl, le_rfl⟩

theorem Loop.sameRegs {e e' : Engine} (h : e.Loop e') : SameRegs e e' := by
  induction h with
  | start => exact SameRegs.refl e
  | step _ _ ih => exact ih.trans (sameRegs_unifyStep _)

/-- The step is about to bind an unbound cell. -/
def Binds (e : Engine) : Prop :=
  (∃ op a, e.lbl = .axdef op ∧ e.ax = .ref a ∧ e.mem a = .ref a) ∨
    ∃ op b, e.lbl = .bxdef op ∧ e.bx = .ref b ∧ e.mem b = .ref b

/-- A step that binds no cell changes no cell up to `st` and records nothing. -/
theorem unifyStep_frame {e : Engine} (h : ¬ e.Binds) :
    e.unifyStep.tt = e.tt ∧ ∀ q ≤ e.st, e.unifyStep.mem q = e.mem q := by
  unfold unifyStep
  split
  · rename_i op hlbl
    unfold axdef
    split
    · rename_i a hax
      rw [if_pos]
      · exact ⟨rfl, fun _ _ => rfl⟩
      · exact fun hu => h (Or.inl ⟨op, a, hlbl, hax, by rw [← hu, hax]⟩)
    · exact ⟨rfl, fun _ _ => rfl⟩
  · rename_i op hlbl
    unfold bxdef
    split
    · rename_i b hbx
      rw [if_pos]
      · exact ⟨rfl, fun _ _ => rfl⟩
      · exact fun hu => h (Or.inr ⟨op, b, hlbl, hbx, by rw [← hu, hbx]⟩)
    · exact (heads_frame e op).2
  · exact ⟨rfl, fun _ _ => rfl⟩

theorem popPair_mem (e : Engine) (op : UnifyOp) : (e.popPair op).mem = e.mem := by
  unfold popPair
  split_ifs
  · cases op <;> rfl
  · rfl

/-- `AXDEF` binds the unbound cell in `ax`. -/
theorem unifyStep_axdef_mem {e : Engine} {op : UnifyOp} {a : Int} (hlbl : e.lbl = .axdef op)
    (hax : e.ax = .ref a) (hu : e.mem a = .ref a) :
    e.unifyStep.mem = Function.update e.mem a e.bx := by
  rw [unifyStep, hlbl]
  simp only [axdef, hax, hu, ne_eq, not_true_eq_false, if_false, popPair_mem, bind_mem]

/-- `BXDEF` binds the one in `bx`. -/
theorem unifyStep_bxdef_mem {e : Engine} {op : UnifyOp} {b : Int} (hlbl : e.lbl = .bxdef op)
    (hbx : e.bx = .ref b) (hu : e.mem b = .ref b) :
    e.unifyStep.mem = Function.update e.mem b e.ax := by
  rw [unifyStep, hlbl]
  simp only [bxdef, hbx, hu, ne_eq, not_true_eq_false, if_false, popPair_mem, bind_mem]

/-- A step that changes a cell up to `st` has found it unbound in one of the two registers. -/
theorem unifyStep_bound {e : Engine} {q : Int} (hq : q ≤ e.st) (h : e.unifyStep.mem q ≠ e.mem q) :
    e.mem q = .ref q ∧ (e.ax = .ref q ∨ e.bx = .ref q) := by
  have hb : e.Binds := by_contra fun hb => h ((unifyStep_frame hb).2 q hq)
  obtain ⟨op, a, hlbl, hax, hu⟩ | ⟨op, b, hlbl, hbx, hu⟩ := hb
  · have hqa : q = a := by
      by_contra hne
      exact h (by rw [unifyStep_axdef_mem hlbl hax hu, Function.update_of_ne hne])
    rw [hqa]
    exact ⟨hu, .inl hax⟩
  · have hqb : q = b := by
      by_contra hne
      exact h (by rw [unifyStep_bxdef_mem hlbl hbx hu, Function.update_of_ne hne])
    rw [hqb]
    exact ⟨hu, .inr hbx⟩

end Engine

end Mlvm
