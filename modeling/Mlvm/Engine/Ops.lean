import Mlvm.Engine.Step

/-!
# Steps as elementary operations

Every step of the engine is a short list of elementary operations on the stack and the trail; the
rest of a step moves registers. What a run does to the two stores is therefore a matter of one
lemma for each operation.

* `Op` — the operations, destructive assignments apart from bindings.
* `ops` — the operations of the next step.
* `step_core` — carrying them out gives the stores that the step gives.
-/

namespace Mlvm

/-- An elementary operation on the stack and the trail. -/
inductive Op where
  /-- A destructive assignment. -/
  | assign (a : Int) (w : Word)
  /-- A destructive assignment of the word at `b`. -/
  | move (a b : Int)
  | push (w : Word)
  | pushCell (a : Int)
  | setSt (s : Int)
  /-- A binding that is recorded against the choice frame. -/
  | bindBb (a : Int) (w : Word)
  /-- A binding that is recorded against the generation line. -/
  | bindGl (a : Int) (w : Word)
  /-- The record of a destructive assignment. -/
  | trail (a : Int)
  /-- A new generation at the top of the stack. -/
  | generation
  | choice (n : Nat) (l : Int)
  | detrail
  | retry (n : Nat) (l : Int)
  | trust
  | neckcut
  | setBb (b : Int)
  | builtin (i : Nat)

namespace Engine

/-- The stack, the trail and the registers that tell which parts of them are in use. -/
structure Core where
  mem : Int → Word
  trl : Int → Word
  stack_base : Int
  st : Int
  tt : Int
  bb : Int
  gl : Int

def core (e : Engine) : Core := ⟨e.mem, e.trl, e.stack_base, e.st, e.tt, e.bb, e.gl⟩

/-- Carry out an operation. -/
def apply (P : Program) (e : Engine) : Op → Engine
  | .assign a w => e.assign a w
  | .move a b => e.assign a (e.mem b)
  | .push w => e.push w
  | .pushCell a => e.push (e.mem a)
  | .setSt s => { e with st := s }
  | .bindBb a w => (e.assign a w).bbtrail a
  | .bindGl a w => (e.assign a w).trail a
  | .trail a => e.trail a
  | .generation => newGeneration { e with gl := e.st }
  | .choice n l => e.makeCframe n l
  | .detrail => e.detrail
  | .retry n l => e.retry n l
  | .trust => e.trust
  | .neckcut => e.neckcut
  | .setBb b => { e with bb := b }
  | .builtin i => e.builtin P i

def applyAll (P : Program) (e : Engine) (os : List Op) : Engine := os.foldl (apply P) e

theorem applyAll_append {P : Program} (e : Engine) (os os' : List Op) :
    e.applyAll P (os ++ os') = (e.applyAll P os).applyAll P os' :=
  List.foldl_append ..

/-! ## The operations of the parts of a step -/

def bindOp (a : Int) (w : Word) : Op := if w.isCst then .bindBb a w else .bindGl a w

/-- `popPair` and `comparePop` at the stack top `st`. -/
def popOps (st cx : Int) : List Op := if st = cx then [] else [.setSt (st - 2)]

/-- The words of a double. -/
def boxOps (w : Word × Word) : List Op := [.push .fvlTag, .push w.1, .push w.2]

def pushArgsOps (x y : Int) : Nat → List Op
  | k + 2 => .pushCell (y + ↑(k + 2)) :: .pushCell (x + ↑(k + 2)) :: pushArgsOps x y (k + 1)
  | _ => []

def compareArgsOps (x y : Int) : Nat → List Op
  | k + 1 => .pushCell (y + ↑(k + 1)) :: .pushCell (x + ↑(k + 1)) :: compareArgsOps x y k
  | 0 => []

/-- The state after an allocation of `n` cells. -/
def allocOps (e : Engine) (n : Int) : List Op := [.setSt (e.st + n)]

def aframeOps (e : Engine) (n : Int) : List Op :=
  [.setSt (e.st + n), .assign (e.st + n) (.ref e.cf), .assign (e.st + n - 2) (.ref e.tt)]

/-- The new generation after an allocation of `n` cells, when it is due. -/
def generationOps (e : Engine) (n : Int) : List Op :=
  if e.st + n - e.gl > GC_LIMIT then [.generation] else []

def putvoidsOps (st : Int) : Nat → List Op
  | 0 => []
  | k + 1 => .push (.ref (st + 1)) :: putvoidsOps (st + 1) k

def putvarsOps (e : Engine) (ns : List Int) : List Op :=
  ns.flatMap fun n => [.assign (e.cell n) (.ref (e.cell n)), .push (.ref (e.cell n))]

def putvalsOps (e : Engine) (ns : List Int) : List Op := ns.map fun n => .pushCell (e.cell n)

def setOps (e : Engine) (l : Loc) : Source → List Op
  | .var => [.assign (e.loc l) (.ref (e.loc l))]
  | .con w => [.assign (e.loc l) w]
  | .val n => [.assign (e.loc l) (.ref (e.cell n))]
  | .float w₁ w₂ =>
    .assign (e.loc l) (.str (e.st + 1)) :: boxOps (w₁, w₂) ++ [.trail (e.loc l)]
  | .list n => [.assign (e.loc l) (.lis (e.cell n))]
  | .str n => [.assign (e.loc l) (.str (e.cell n))]

def copyPairOps (b p : Int) : List Op := [.move b p, .move (b + 1) (p + 1)]

def copyWordsOps (b p : Int) (i : Nat) : Nat → List Op
  | 0 => []
  | k + 1 => .move (b + ↑i) (p + ↑i) :: copyWordsOps b p (i + 1) k

/-- The result of an arithmetic instruction in the cell `n`: an integer, a double, or none. -/
def storeFloatOps (e : Engine) (n : Int) (w : Word × Word) : List Op :=
  boxOps w ++ [.assign (e.cell n) (.str (e.st + 1)), .trail (e.cell n)]

def storeIntOps (e : Engine) (n : Int) : Option Int → List Op
  | some x => [.assign (e.cell n) (.makeInt x)]
  | none => []

def ariCpuOps (D : Doubles) (e : Engine) (op : AriOp) (n₃ : Int) : List Op :=
  match e.number e.ax, e.number e.bx with
  | some (.inl x), some (.inl y) => e.storeIntOps n₃ (AriOp.onInts op x y)
  | some (.inl x), some (.inr y) => e.storeFloatOps n₃ (D.arith op (D.ofInt x) y)
  | some (.inr x), some (.inl y) => e.storeFloatOps n₃ (D.arith op x (D.ofInt y))
  | some (.inr x), some (.inr y) => e.storeFloatOps n₃ (D.arith op x y)
  | _, _ => []

def intCpuOps (e : Engine) (op : IntOp) (n₃ : Int) : List Op :=
  match e.number e.ax, e.number e.bx with
  | some (.inl x), some (.inl y) => e.storeIntOps n₃ (IntOp.onInts op x y)
  | _, _ => []

def minusOps (D : Doubles) (e : Engine) (n₂ : Int) : List Op :=
  match e.number e.ax with
  | some (.inl x) => [.assign (e.cell n₂) (.makeInt (-x))]
  | some (.inr x) => boxOps (D.neg x) ++ [.assign (e.cell n₂) (.str (e.st + 1))]
  | none => []

def intOneOps (e : Engine) (d : Int) (n₂ : Int) : List Op :=
  match e.ax with
  | .cst n =>
    if (Word.cst n).isInt then [.assign (e.cell n₂) (.cst (Int.bmod (n + d) (2 ^ 30)))] else []
  | _ => []

def aricmpOps (D : Doubles) (e : Engine) (n₃ : Int) : List Op :=
  match e.compareNumbers D .gt, e.compareNumbers D .lt with
  | some gt, some lt =>
    [.assign (e.cell n₃) (if gt then .mlvmOne else if lt then .mlvmNone else .mlvmZero)]
  | _, _ => []

def stationaryOps (e : Engine) : List Op :=
  [.setSt (e.st + 2), .assign (e.st + 2) (.ref e.cf), .assign (e.st + 2 - 2) (.ref e.tt)] ++
    putvoidsOps (e.st + 2) 2 ++ [.assign (e.st + 2 - 1) (.ref e.pp)]

def workerOps (e : Engine) : List Op :=
  [.setSt (e.st + 3), .assign (e.st + 3) (.ref e.cf), .assign (e.st + 3 - 2) (.ref e.tt)] ++
    [.push (.ref (e.st + 3 + 1)), .pushCell (e.st + 3 - 3), .assign (e.st + 3 - 1) (.ref e.pp)]

/-! ## The operations of a step -/

/-- At `control`. -/
def startOps (e : Engine) : Instr → List Op
  | .alloa _ n₂ =>
    if e.tt - e.st < n₂ * GC_FACTOR then []
    else if e.cf > e.gl then e.aframeOps n₂ ++ e.generationOps n₂
    else []
  | .allod _ n₂ =>
    if e.tt - e.st < n₂ * GC_FACTOR then []
    else if e.cf > e.gl then e.allocOps n₂ ++ e.generationOps n₂
    else []
  | .call _ => [.assign (e.af - 1) (.ref (e.pp + 2))]
  | .try_ n le =>
    if e.tt - e.st < CHOICE_SIZE * GC_FACTOR then []
    else if e.cf > e.gl then [.choice n le]
    else []
  | .neckcut => if e.bb > e.b0 then [.neckcut] else []
  | .deeplabel n => [.assign (e.cell n) (.ref e.b0)]
  | .deepcut n => [.setBb (e.mem (e.cell n)).addr]
  | .builtin i => [.builtin i]
  | .putvoids k => putvoidsOps e.st k
  | .putvars ns => e.putvarsOps ns
  | .putrval n => [.pushCell (e.cell n), .assign (e.cell n) (.ref (e.cell n))]
  | .putvals ns => e.putvalsOps ns
  | .putcon w => [.push w]
  | .putlist n => [.push (.lis (e.cell n))]
  | .putstr n => [.push (.str (e.cell n))]
  | .set l s => e.setOps l s
  | .stationary _ => e.stationaryOps
  | .worker _ => e.workerOps
  | _ => []

/-- At `exec`. -/
def execOps (P : Program) (e : Engine) : Instr → List Op
  | .retry n le => [.retry n le]
  | .trust => [.trust]
  | .getcon _ w =>
    match e.ax with
    | .ref a => [.bindBb a w]
    | _ => []
  | .getfloat _ w₁ w₂ =>
    match e.ax with
    | .ref a => .bindBb a (.str (e.st + 1)) :: boxOps (w₁, w₂)
    | _ => []
  | .getlist _ _ _ _ =>
    match e.ax with
    | .ref a => [.bindGl a (.lis e.bx.addr)]
    | .lis p => copyPairOps e.bx.addr p
    | _ => []
  | .getvlist _ _ =>
    match e.ax with
    | .ref a => [.bindGl a (.lis e.bx.addr), .assign e.bx.addr (.ref e.bx.addr),
        .assign (e.bx.addr + 1) (.ref (e.bx.addr + 1))]
    | .lis p => copyPairOps e.bx.addr p
    | _ => []
  | .getstr _ _ _ f _ =>
    match e.ax with
    | .ref a => [.bindGl a (.str e.bx.addr)]
    | .str p => if e.mem p = f then copyWordsOps e.bx.addr p 0 (f.arity + 1) else []
    | _ => []
  | .ari op _ _ n₃ => e.ariCpuOps P.doubles op n₃
  | .minus _ n₂ => e.minusOps P.doubles n₂
  | .int op _ _ n₃ => e.intCpuOps op n₃
  | .inc _ n₂ => e.intOneOps 2 n₂
  | .dec _ n₂ => e.intOneOps (-2) n₂
  | .is n₁ _ =>
    match e.bx with
    | .ref b => [.bindBb b (e.mem (e.cell n₁))]
    | _ => []
  | .aricmp _ _ n₃ => e.aricmpOps P.doubles n₃
  | _ => []

/-- At `AXDEF` and `BXDEF` with the reference `a` in one register and `w` in the other. -/
def bindOps (e : Engine) (a : Int) (w : Word) : List Op :=
  if e.mem a ≠ .ref a then [] else bindOp a w :: popOps e.st e.cx

def mismatchOps (e : Engine) : UnifyOp → List Op
  | .getval => []
  | .unifiable => [.setSt e.cx]

def headsOps (e : Engine) (op : UnifyOp) : List Op :=
  if e.ax = e.bx then popOps e.st e.cx
  else match e.ax, e.bx with
    | .lis p, .lis q => [.pushCell (q + 1), .pushCell (p + 1)]
    | .str p, .str q =>
      if e.ax.isFloat e.mem ∧ e.bx.isFloat e.mem then
        if e.mem (p + 1) ≠ e.mem (q + 1) ∨ e.mem (p + 2) ≠ e.mem (q + 2) then e.mismatchOps op
        else popOps e.st e.cx
      else if e.mem p ≠ e.mem q then e.mismatchOps op
      else pushArgsOps p q (e.mem p).arity
    | _, _ => e.mismatchOps op

/-- At `cleanUp`, whose trail loops do nothing. -/
def cleanUpOps (e : Engine) : Instr → List Op
  | .tryunifiable _ _ n₃ => [.assign (e.cell n₃) e.dx]
  | _ => []

/-- At `compare`, after the references are followed. -/
def compareOps (e : Engine) : Verdict → List Op
  | .decided _ => []
  | .next => popOps e.st e.cx
  | .lists p q =>
    [.push (.ref (q + 1)), .push (.ref (p + 1)), .push (.ref q), .push (.ref p)] ++
      popOps (e.st + 4) e.cx
  | .args p q k => compareArgsOps p q k ++ popOps (e.st + 2 * k) e.cx

/-- At `gline`, on the line searched for. -/
def allocateOps (e : Engine) (i : Instr) : List Op :=
  if e.st - (e.trl e.af).addr < GC_LIMIT then
    match i with
    | .alloa _ n₂ => e.aframeOps n₂
    | .allod _ n₂ => e.allocOps n₂
    | .try_ n le => [.choice n le]
    | _ => []
  else []

/-- **The operations of the next step.** -/
def ops (P : Program) (e : Engine) : List Op :=
  match e.lbl with
  | .control => e.startOps (P.code e.pp)
  | .exec => e.execOps P (P.code e.pp)
  | .axdef _ =>
    match e.ax with
    | .ref a => e.bindOps a e.bx
    | _ => []
  | .bxdef op =>
    match e.bx with
    | .ref b => e.bindOps b e.ax
    | _ => e.headsOps op
  | .cleanUp => e.cleanUpOps (P.code e.pp)
  | .compare =>
    if e.leadsOn e.ax ∨ e.leadsOn e.bx then [] else e.compareOps (e.verdict P)
  | .compared =>
    match P.code e.pp with
    | .termcompare _ _ n₃ => [.assign (e.cell n₃) e.dx]
    | _ => []
  | .gline => if (e.trl e.af).isStr then e.allocateOps (P.code e.pp) else []
  | .detrail => [.detrail]
  | _ => []

/-! ## The operations are the step -/

variable {P : Program}

@[simp] theorem core_next (e : Engine) (n : Int) : (e.next n).core = e.core := rfl

@[simp] theorem core_jump (e : Engine) (a : Int) : (e.jump a).core = e.core := rfl

@[simp] theorem core_goto (e : Engine) (l : Label) : (e.goto l).core = e.core := rfl

@[simp] theorem core_contextSwitch (e : Engine) (s : Status) (i : Int) :
    (e.contextSwitch s i).core = e.core := rfl

@[simp] theorem core_unknownType (e : Engine) : e.unknownType.core = e.core := rfl

@[simp] theorem core_branchIf (e : Engine) (b : Bool) (k le : Int) :
    (e.branchIf b k le).core = e.core := by
  cases b <;> rfl

@[simp] theorem applyAll_nil (e : Engine) : e.applyAll P [] = e := rfl

theorem putvoids_apply (k : Nat) (e : Engine) :
    e.putvoids k = e.applyAll P (putvoidsOps e.st k) := by
  induction k generalizing e with
  | zero => rfl
  | succ k ih => exact ih _

theorem putvals_apply (ns : List Int) (e : Engine) :
    e.putvals ns = e.applyAll P (e.putvalsOps ns) := by
  induction ns generalizing e with
  | nil => rfl
  | cons n ns ih => exact ih _

theorem pushArgs_apply (x y : Int) : ∀ (k : Nat) (e : Engine),
    e.pushArgs x y k = e.applyAll P (pushArgsOps x y k)
  | 0, _ => rfl
  | 1, _ => rfl
  | k + 2, _ => pushArgs_apply x y (k + 1) _

theorem compareArgs_apply (x y : Int) (k : Nat) (e : Engine) :
    e.compareArgs x y k = e.applyAll P (compareArgsOps x y k) := by
  induction k generalizing e with
  | zero => rfl
  | succ k ih => exact ih _

theorem copyWords_apply (b p : Int) (k : Nat) (i : Nat) (e : Engine) :
    e.copyWords b p i k = e.applyAll P (copyWordsOps b p i k) := by
  induction k generalizing e i with
  | zero => rfl
  | succ k ih => exact ih _ _

theorem putvars_core (ns : List Int) (e e' : Engine) (hcore : e.core = e'.core)
    (haf : e.af = e'.af) :
    (e.putvars ns).core = (e'.applyAll P (e'.putvarsOps ns)).core := by
  induction ns generalizing e e' with
  | nil => exact hcore
  | cons n ns ih =>
    refine ih _ _ ?_ haf
    simp only [core, Core.mk.injEq] at hcore
    obtain ⟨hmem, htrl, hbase, hst, htt, hbb, hgl⟩ := hcore
    simp only [core, apply, assign, push, cell, haf, hmem, htrl, hbase, hst, htt, hbb, hgl]

/-- Recording depends on the core only. -/
theorem trail_core {e e' : Engine} (h : e.core = e'.core) (a : Int) :
    (e.trail a).core = (e'.trail a).core := by
  simp only [core, Core.mk.injEq] at h
  obtain ⟨hmem, htrl, hbase, hst, htt, hbb, hgl⟩ := h
  unfold trail
  rw [hgl]
  split_ifs <;> simp only [core, record, hmem, htrl, hbase, hst, htt, hbb, hgl]

/-- Writing a double and recording a cell may be done in either order. -/
theorem box_bbtrail_core (e : Engine) (w : Word × Word) (a : Int) :
    ((e.box w).bbtrail a).core = ((e.bbtrail a).box w).core := by
  have hbb : (e.box w).bb = e.bb := rfl
  unfold bbtrail
  rw [hbb]
  split_ifs <;> rfl

theorem set_core (e : Engine) (l : Loc) (s : Source) :
    (e.set l s).core = (e.applyAll P (e.setOps l s)).core := by
  cases s with
  | float w₁ w₂ =>
    show (trail _ (e.loc l)).core = (trail _ (e.loc l)).core
    refine trail_core ?_ _
    rfl
  | _ => rfl

theorem openGeneration_core (e : Engine) (n : Int) :
    (openGeneration { e with af := e.st + n, st := e.st + n }).core =
      (e.applyAll P (e.allocOps n ++ e.generationOps n)).core := by
  by_cases h : e.st + n - e.gl > GC_LIMIT
  · rw [openGeneration, generationOps, if_pos h, if_pos h]; rfl
  · rw [openGeneration, generationOps, if_neg h, if_neg h]; rfl

theorem aframe_core (e : Engine) (n : Int) :
    ((e.makeAframe n).openGeneration).core =
      (e.applyAll P (e.aframeOps n ++ e.generationOps n)).core := by
  by_cases h : e.st + n - e.gl > GC_LIMIT
  · rw [openGeneration, generationOps, if_pos h, if_pos]
    · rfl
    · exact h
  · rw [openGeneration, generationOps, if_neg h, if_neg]
    · rfl
    · exact h

/-- At `control`. -/
theorem start_core (e : Engine) (i : Instr) :
    (e.start P i).core = (e.applyAll P (e.startOps i)).core := by
  cases i with
  | alloa n₁ n₂ =>
    simp only [start, startOps]
    split_ifs
    · rfl
    · exact aframe_core e n₂
    · rfl
  | allod n₁ n₂ =>
    simp only [start, startOps]
    split_ifs
    · rfl
    · exact openGeneration_core e n₂
    · rfl
  | try_ n le =>
    simp only [start, startOps]
    split_ifs <;> rfl
  | neckcut =>
    simp only [start, startOps]
    split_ifs <;> rfl
  | putvoids k => rw [start, startOps, core_next, putvoids_apply (P := P)]
  | putvars ns => exact putvars_core ns e e rfl rfl
  | putvals ns => rw [start, startOps, core_next, putvals_apply (P := P)]
  | set l s => exact set_core e l s
  | stationary le =>
    simp only [start, stationary]
    split_ifs <;> rfl
  | worker le =>
    simp only [start, worker]
    split_ifs <;> rfl
  | branch e₁ e₂ e₃ e₄ =>
    simp only [start]
    split_ifs <;> rfl
  | _ => rfl

theorem storeInt_core (e : Engine) (n : Int) (r : Option Int) :
    (e.storeInt n r).core = (e.applyAll P (e.storeIntOps n r)).core := by
  cases r <;> rfl

theorem storeFloat_core (e : Engine) (n : Int) (w : Word × Word) (k : Int) :
    ((e.storeFloat n w).next k).core = (e.applyAll P (e.storeFloatOps n w)).core := by
  show (trail _ (e.cell n)).core = (trail _ (e.cell n)).core
  refine trail_core ?_ _
  rfl

/-- At `exec`. -/
theorem exec_core (e : Engine) (i : Instr) :
    (e.exec P i).core = (e.applyAll P (e.execOps P i)).core := by
  cases i with
  | getcon l w =>
    cases hax : e.ax with
    | ref a => simp only [exec, getcon, execOps, hax]; rfl
    | _ =>
      simp only [exec, getcon, execOps, hax]
      split_ifs <;> rfl
  | getfloat l w₁ w₂ =>
    cases hax : e.ax with
    | ref a =>
      simp only [exec, getfloat, execOps, hax]
      exact box_bbtrail_core _ (w₁, w₂) a
    | str p =>
      simp only [exec, getfloat, execOps, hax]
      split_ifs <;> rfl
    | _ => simp only [exec, getfloat, execOps, hax]; rfl
  | getlist l n nl le => cases hax : e.ax <;> simp only [exec, getlist, execOps, hax] <;> rfl
  | getvlist l n => cases hax : e.ax <;> simp only [exec, getvlist, execOps, hax] <;> rfl
  | getstr l n nl f le =>
    cases hax : e.ax with
    | str p =>
      simp only [exec, getstr, execOps, hax]
      split_ifs
      · rw [core_next, copyWords_apply (P := P)]
      · rfl
    | _ => simp only [exec, getstr, execOps, hax]; rfl
  | ari op n₁ n₂ n₃ =>
    simp only [exec, ariCpu, execOps, ariCpuOps]
    rcases e.number e.ax with _ | x | x <;> rcases e.number e.bx with _ | y | y
    · rfl
    · rfl
    · rfl
    · rfl
    · exact storeInt_core e n₃ _
    · exact storeFloat_core e n₃ _ 4
    · rfl
    · exact storeFloat_core e n₃ _ 4
    · exact storeFloat_core e n₃ _ 4
  | minus n₁ n₂ =>
    simp only [exec, minus, execOps, minusOps]
    rcases e.number e.ax with _ | x | x <;> rfl
  | int op n₁ n₂ n₃ =>
    simp only [exec, intCpu, execOps, intCpuOps]
    rcases e.number e.ax with _ | x | x <;> rcases e.number e.bx with _ | y | y
    · rfl
    · rfl
    · rfl
    · rfl
    · exact storeInt_core e n₃ _
    all_goals rfl
  | inc n₁ n₂ =>
    cases hax : e.ax with
    | cst n =>
      simp only [exec, intOne, execOps, intOneOps, hax]
      split_ifs <;> rfl
    | _ => simp only [exec, intOne, execOps, intOneOps, hax]; rfl
  | dec n₁ n₂ =>
    cases hax : e.ax with
    | cst n =>
      simp only [exec, intOne, execOps, intOneOps, hax]
      split_ifs <;> rfl
    | _ => simp only [exec, intOne, execOps, intOneOps, hax]; rfl
  | is n₁ n₂ => cases hbx : e.bx <;> simp only [exec, is, execOps, hbx] <;> rfl
  | aricmp n₁ n₂ n₃ =>
    simp only [exec, aricmp, execOps, aricmpOps]
    rcases e.compareNumbers P.doubles .gt with _ | gt <;>
      rcases e.compareNumbers P.doubles .lt with _ | lt <;> rfl
  | hashing n te => cases hax : e.ax <;> simp only [exec, doHash, execOps, hax] <;> rfl
  | lasthashing te => cases hax : e.ax <;> simp only [exec, doHash, execOps, hax] <;> rfl
  | ifcmp op n₁ n₂ le =>
    simp only [exec, ariCmp, execOps]
    rcases e.compareNumbers P.doubles op with _ | b
    · rfl
    · exact core_branchIf e b 4 le
  | test t n le => exact core_branchIf e _ 3 le
  | lasttest t le => exact core_branchIf e _ 2 le
  | ifcmp0 op n le => exact core_branchIf e _ 3 le
  | _ => rfl

theorem popPair_core (e : Engine) (op : UnifyOp) :
    (e.popPair op).core = (e.applyAll P (popOps e.st e.cx)).core := by
  unfold popPair popOps
  split_ifs
  · cases op <;> rfl
  · rfl

theorem comparePop_core (e : Engine) :
    e.comparePop.core = (e.applyAll P (popOps e.st e.cx)).core := by
  unfold comparePop popOps
  split_ifs <;> rfl

theorem bind_apply (e : Engine) (a : Int) (w : Word) : e.bind a w = e.apply P (bindOp a w) := by
  unfold bind bindOp
  split_ifs <;> rfl

theorem bindOps_core (e : Engine) (a : Int) (w : Word) (op : UnifyOp) (h : e.mem a = .ref a) :
    ((e.bind a w).popPair op).core = (e.applyAll P (e.bindOps a w)).core := by
  rw [popPair_core (P := P), bindOps, if_neg (by simp [h]), bind_st, bind_cx, bind_apply (P := P)]
  rfl

theorem mismatch_core (e : Engine) (op : UnifyOp) :
    (e.mismatch op).core = (e.applyAll P (e.mismatchOps op)).core := by
  cases op <;> rfl

theorem heads_core (e : Engine) (op : UnifyOp) :
    (e.heads op).core = (e.applyAll P (e.headsOps op)).core := by
  by_cases heq : e.ax = e.bx
  · rw [heads, headsOps, if_pos heq, if_pos heq]
    exact popPair_core e op
  · rw [heads, headsOps, if_neg heq, if_neg heq]
    cases hax : e.ax with
    | lis p =>
      cases hbx : e.bx with
      | lis q => rfl
      | _ => exact mismatch_core e op
    | str p =>
      cases hbx : e.bx with
      | str q =>
        dsimp only
        split_ifs
        · exact mismatch_core e op
        · exact popPair_core e op
        · cases op <;> rfl
        · show (pushArgs e _ _ _).core = _
          rw [pushArgs_apply (P := P)]
      | _ => exact mismatch_core e op
    | _ => exact mismatch_core e op

theorem compareArgs_st (x y : Int) (k : Nat) (e : Engine) :
    (e.compareArgs x y k).st = e.st + 2 * k ∧ (e.compareArgs x y k).cx = e.cx := by
  induction k generalizing e with
  | zero => exact ⟨by simp [compareArgs], rfl⟩
  | succ k ih =>
    obtain ⟨hst, hcx⟩ := ih ((e.push (e.mem (y + ↑(k + 1)))).push
      ((e.push (e.mem (y + ↑(k + 1)))).mem (x + ↑(k + 1))))
    refine ⟨?_, hcx⟩
    rw [compareArgs, hst]
    simp only [push]
    omega

theorem compareAct_core (e : Engine) (v : Verdict) :
    (e.compareAct v).core = (e.applyAll P (e.compareOps v)).core := by
  cases v with
  | decided w => rfl
  | next => exact comparePop_core e
  | lists p q =>
    rw [compareAct, comparePop_core (P := P), compareOps, applyAll_append]
    have hst : ((((e.push (.ref (q + 1))).push (.ref (p + 1))).push (.ref q)).push
        (.ref p)).st = e.st + 4 := by
      simp only [push]
      omega
    rw [hst]
    rfl
  | args p q k =>
    rw [compareAct, comparePop_core (P := P), compareOps, applyAll_append,
      (compareArgs_st p q k e).1, (compareArgs_st p q k e).2, compareArgs_apply (P := P)]

theorem allocate_core (e : Engine) (i : Instr) :
    (e.allocate i).core = (e.applyAll P (e.allocateOps i)).core := by
  cases i with
  | alloa n₁ n₂ =>
    simp only [allocate, allocOrCollect, allocateOps]
    split_ifs <;> rfl
  | allod n₁ n₂ =>
    simp only [allocate, allocOrCollect, allocateOps]
    split_ifs <;> rfl
  | try_ n le =>
    simp only [allocate, allocOrCollect, allocateOps]
    split_ifs <;> rfl
  | _ =>
    simp only [allocate, allocateOps]
    split_ifs <;> rfl

/-- The trail loops of the clean-up end before their first pass. -/
theorem cleanUp_core (e : Engine) (i : Instr) (h : e.tt ≤ e.gp) :
    (e.cleanUp i).core = (e.applyAll P (e.cleanUpOps i)).core := by
  have hpasses : e.passes = 0 := by
    unfold passes
    omega
  cases i with
  | unifiable n₁ n₂ le =>
    simp only [cleanUp, cleanUpOps, hpasses, filterTrail, clearTrail]
    split_ifs <;> rfl
  | nonunifiable n₁ n₂ le =>
    simp only [cleanUp, cleanUpOps, hpasses, filterTrail, clearTrail]
    split_ifs <;> rfl
  | tryunifiable n₁ n₂ n₃ =>
    simp only [cleanUp, cleanUpOps, hpasses, clearTrail]
    rfl
  | _ => rfl

/-- **A step is its operations.** -/
theorem step_core (e : Engine) (h : e.lbl = .cleanUp → e.tt ≤ e.gp) :
    (e.step P).core = (e.applyAll P (e.ops P)).core := by
  unfold step ops
  cases hlbl : e.lbl with
  | control => exact start_core e _
  | exec => exact exec_core e _
  | derefAx both =>
    dsimp only
    split_ifs <;> rfl
  | derefBx =>
    dsimp only
    split_ifs <;> rfl
  | axdef op =>
    cases hax : e.ax with
    | ref a =>
      by_cases hu : e.mem a = .ref a
      · simp only [axdef, hax, hu, ne_eq, not_true_eq_false, if_false]
        exact bindOps_core e a e.bx op hu
      · simp only [axdef, hax, bindOps, ne_eq, hu, Ne.symm hu, not_false_eq_true, if_true]
        rfl
    | _ => simp only [axdef, hax]; rfl
  | bxdef op =>
    cases hbx : e.bx with
    | ref b =>
      by_cases hu : e.mem b = .ref b
      · simp only [bxdef, hbx, hu, ne_eq, not_true_eq_false, if_false]
        exact bindOps_core e b e.ax op hu
      · simp only [bxdef, hbx, bindOps, ne_eq, hu, Ne.symm hu, not_false_eq_true, if_true]
        rfl
    | _ => simp only [bxdef, hbx]; exact heads_core e op
  | cleanUp => exact cleanUp_core e _ (h hlbl)
  | compare =>
    dsimp only
    unfold compareStep
    by_cases hax : e.leadsOn e.ax
    · simp only [hax, if_true, true_or]; rfl
    · by_cases hbx : e.leadsOn e.bx
      · simp only [hax, hbx, if_true, or_true]; rfl
      · simp only [hax, hbx, or_self]
        exact compareAct_core e _
  | compared =>
    dsimp only
    generalize P.code e.pp = i
    cases i with
    | compare op n₁ n₂ le => simp [afterCompare]
    | _ => rfl
  | gline =>
    dsimp only
    split_ifs
    · exact allocate_core e _
    · rfl
  | probe =>
    dsimp only
    generalize P.code e.pp = i
    cases i with
    | hashing n te => simp only [probing, probe]; split_ifs <;> rfl
    | lasthashing te => simp only [probing, probe]; split_ifs <;> rfl
    | _ => rfl
  | backtrack =>
    dsimp only
    unfold backtrack
    split_ifs <;> rfl
  | _ => rfl

end Engine

end Mlvm
