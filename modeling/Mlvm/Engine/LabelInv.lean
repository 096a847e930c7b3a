import Mlvm.Engine.Ops

/-!
# What holds at each label

The engine reaches a label only from certain others, and what the code before a label has checked or
computed is still so there: operands are dereferenced at `exec`, the scratch stack of a loop holds
pairs above `cx`, and the unifiability tests have not shrunk the trail since they started.
-/

namespace Mlvm

/-- The operands that an instruction dereferences. -/
inductive Operands where
  | none
  | ax
  | both
  | bx
  deriving DecidableEq

def Instr.operands : Instr → Operands
  | getcon _ _ => .ax
  | getfloat _ _ _ => .ax
  | getlist _ _ _ _ => .ax
  | getvlist _ _ => .ax
  | getstr _ _ _ _ _ => .ax
  | minus _ _ => .ax
  | inc _ _ => .ax
  | dec _ _ => .ax
  | test _ _ _ => .ax
  | lasttest _ _ => .ax
  | isground _ _ => .ax
  | switch _ _ _ _ _ => .ax
  | lastswitch _ _ _ _ => .ax
  | hashing _ _ => .ax
  | lasthashing _ => .ax
  | ifcmp0 _ _ _ => .ax
  | ari _ _ _ _ => .both
  | int _ _ _ _ => .both
  | ifcmp _ _ _ _ => .both
  | aricmp _ _ _ => .both
  | is _ _ => .bx
  | _ => .none

namespace Engine

/-- A loop with pairs on the scratch stack above `cx`, which is above the frames. -/
structure InLoop (e : Engine) : Prop where
  le : e.cx ≤ e.st
  even : (e.st - e.cx) % 2 = 0
  bb : e.bb ≤ e.cx
  gl : e.gl ≤ e.cx

/-- What the code before the label has established. -/
def LabelInv (P : Program) (e : Engine) : Prop :=
  match e.lbl with
  | .derefAx both => (P.code e.pp).operands = if both then .both else .ax
  | .derefBx => (P.code e.pp).operands = .both ∧ e.leadsOn e.ax = false ∨
      (P.code e.pp).operands = .bx
  | .exec =>
    match (P.code e.pp).operands with
    | .ax => e.leadsOn e.ax = false
    | .both => e.leadsOn e.ax = false ∧ e.leadsOn e.bx = false
    | .bx => e.leadsOn e.bx = false
    | .none => e.BTT ≤ e.tt
  | .axdef op => e.InLoop ∧ (op = .unifiable → e.tt ≤ e.gp)
  | .bxdef op => e.InLoop ∧ (op = .unifiable → e.tt ≤ e.gp)
  | .cleanUp => e.tt ≤ e.gp
  | .compare => e.InLoop
  | .gline => ∀ n l, P.code e.pp = .try_ n l → CHOICE_SIZE * GC_FACTOR ≤ e.tt - e.st
  | .detrail => (P.code e.pp).operands = .none
  | _ => True

/-- The label is one that needs nothing. -/
def atRest (e : Engine) : Prop :=
  e.lbl = .control ∨ e.lbl = .compared ∨ e.lbl = .probe ∨ e.lbl = .backtrack ∨
    e.lbl = .contextSwitch ∨ e.lbl = .trap

variable {P : Program} {e : Engine}

theorem labelInv_of_atRest (h : e.atRest) : e.LabelInv P := by
  rcases h with h | h | h | h | h | h <;> simp [LabelInv, h]

theorem atRest_next (n : Int) : (e.next n).atRest := Or.inl rfl

theorem atRest_jump (a : Int) : (e.jump a).atRest := Or.inl rfl

theorem atRest_contextSwitch (s : Status) (i : Int) : (e.contextSwitch s i).atRest := by
  simp [atRest, contextSwitch]

theorem atRest_unknownType : e.unknownType.atRest := atRest_contextSwitch _ _

theorem atRest_backtrack : (e.goto .backtrack).atRest := by simp [atRest, goto]

theorem atRest_branchIf (b : Bool) (k le : Int) : (e.branchIf b k le).atRest := by
  cases b
  · exact atRest_jump le
  · exact atRest_next k

theorem atRest_storeInt (n : Int) (r : Option Int) : (e.storeInt n r).atRest := by
  cases r with
  | none => simp [atRest, storeInt, goto]
  | some x => exact atRest_next 4

/-! Every instruction that `exec` runs ends at a label at rest. -/

theorem atRest_getcon (l : Loc) (w : Word) : (e.getcon l w).atRest := by
  unfold getcon
  split
  · exact atRest_next _
  · split_ifs
    · exact atRest_next _
    · exact atRest_backtrack

theorem atRest_getfloat (l : Loc) (w₁ w₂ : Word) : (e.getfloat l w₁ w₂).atRest := by
  unfold getfloat
  split
  · exact atRest_next _
  · split_ifs
    · exact atRest_next _
    · exact atRest_backtrack
  · exact atRest_backtrack

theorem atRest_getlist (l : Loc) (nl le : Int) : (e.getlist l nl le).atRest := by
  unfold getlist
  split
  · exact atRest_jump _
  · exact atRest_next _
  · exact atRest_backtrack

theorem atRest_getvlist (l : Loc) : (e.getvlist l).atRest := by
  unfold getvlist
  split
  · exact atRest_next _
  · exact atRest_next _
  · exact atRest_backtrack

theorem atRest_getstr (l : Loc) (nl : Int) (f : Word) (le : Int) :
    (e.getstr l nl f le).atRest := by
  unfold getstr
  split
  · exact atRest_jump _
  · split_ifs
    · exact atRest_next _
    · exact atRest_backtrack
  · exact atRest_backtrack

theorem atRest_ariCpu (D : Doubles) (op : AriOp) (n₃ : Int) : (e.ariCpu D op n₃).atRest := by
  unfold ariCpu
  split
  · exact atRest_storeInt _ _
  · exact atRest_next _
  · exact atRest_next _
  · exact atRest_next _
  · exact atRest_unknownType

theorem atRest_minus (D : Doubles) (n₂ : Int) : (e.minus D n₂).atRest := by
  unfold minus
  split
  · exact atRest_next _
  · exact atRest_next _
  · exact atRest_unknownType

theorem atRest_intCpu (op : IntOp) (n₃ : Int) : (e.intCpu op n₃).atRest := by
  unfold intCpu
  split
  · exact atRest_storeInt _ _
  · exact atRest_unknownType

theorem atRest_intOne (d n₂ : Int) : (e.intOne d n₂).atRest := by
  unfold intOne
  split
  · split_ifs
    · exact atRest_next _
    · exact atRest_unknownType
  · exact atRest_unknownType

theorem atRest_is (n₁ : Int) : (e.is n₁).atRest := by
  unfold is
  split
  · exact atRest_next _
  · exact atRest_unknownType

theorem atRest_doHash (te : HashTable) : (e.doHash te).atRest := by
  unfold doHash
  split
  · exact atRest_jump _
  · exact Or.inr (Or.inr (Or.inl rfl))
  · exact atRest_unknownType

theorem atRest_ariCmp (D : Doubles) (op : CmpOp) (le : Int) : (e.ariCmp D op le).atRest := by
  unfold ariCmp
  split
  · exact atRest_branchIf _ _ _
  · exact atRest_unknownType

theorem atRest_aricmp (D : Doubles) (n₃ : Int) : (e.aricmp D n₃).atRest := by
  unfold aricmp
  split
  · exact atRest_next _
  · exact atRest_unknownType

/-- `exec` ends an instruction. -/
theorem atRest_exec (i : Instr) (h : i.operands ≠ .none) : (e.exec P i).atRest := by
  cases i with
  | getcon l w => exact atRest_getcon l w
  | getfloat l w₁ w₂ => exact atRest_getfloat l w₁ w₂
  | getlist l n nl le => exact atRest_getlist l nl le
  | getvlist l n => exact atRest_getvlist l
  | getstr l n nl f le => exact atRest_getstr l nl f le
  | ari op n₁ n₂ n₃ => exact atRest_ariCpu P.doubles op n₃
  | minus n₁ n₂ => exact atRest_minus P.doubles n₂
  | int op n₁ n₂ n₃ => exact atRest_intCpu op n₃
  | inc n₁ n₂ => exact atRest_intOne 2 n₂
  | dec n₁ n₂ => exact atRest_intOne (-2) n₂
  | is n₁ n₂ => exact atRest_is n₁
  | test t n le => exact atRest_branchIf _ _ _
  | lasttest t le => exact atRest_branchIf _ _ _
  | isground n le => exact atRest_contextSwitch _ _
  | switch n e₀ e₁ e₂ e₃ => exact atRest_jump _
  | lastswitch e₀ e₁ e₂ e₃ => exact atRest_jump _
  | hashing n te => exact atRest_doHash te
  | lasthashing te => exact atRest_doHash te
  | ifcmp op n₁ n₂ le => exact atRest_ariCmp P.doubles op le
  | aricmp n₁ n₂ n₃ => exact atRest_aricmp P.doubles n₃
  | ifcmp0 op n le => exact atRest_branchIf _ _ _
  | _ => exact (h rfl).elim

theorem atRest_exec_none (i : Instr) (h : i.operands = .none) :
    (e.exec P i).atRest ∨ e.exec P i = e := by
  cases i with
  | retry n le => exact Or.inl (atRest_next _)
  | trust => exact Or.inl (atRest_next _)
  | _ => first | exact Or.inr rfl | cases h

/-- The entry of a loop. -/
theorem inLoop_entry (hbb : e.bb ≤ e.st) (hgl : e.gl ≤ e.st) {e' : Engine} (hcx : e'.cx = e.st)
    (hst : e'.st = e.st) (hbb' : e'.bb = e.bb) (hgl' : e'.gl = e.gl) : e'.InLoop :=
  ⟨by omega, by rw [hcx, hst]; simp, by omega, by omega⟩

/-- At `control`, the label an instruction goes to and what it needs. -/
theorem labelInv_start (hbb : e.bb ≤ e.st) (hgl : e.gl ≤ e.st) (i : Instr)
    (hi : P.code e.pp = i) : (e.start P i).LabelInv P := by
  have hloop : ∀ e' : Engine, e'.cx = e.st → e'.st = e.st → e'.bb = e.bb → e'.gl = e.gl →
      e'.InLoop := fun _ => inLoop_entry hbb hgl
  cases i with
  | alloa n₁ n₂ =>
    unfold start
    dsimp only
    split_ifs
    · exact labelInv_of_atRest (atRest_contextSwitch _ _)
    · exact labelInv_of_atRest (atRest_next _)
    · intro n l hcode
      rw [show (e.searchLine).pp = e.pp from rfl, hi] at hcode
      cases hcode
  | allod n₁ n₂ =>
    unfold start
    dsimp only
    split_ifs
    · exact labelInv_of_atRest (atRest_contextSwitch _ _)
    · exact labelInv_of_atRest (atRest_next _)
    · intro n l hcode
      rw [show (e.searchLine).pp = e.pp from rfl, hi] at hcode
      cases hcode
  | try_ n le =>
    unfold start
    dsimp only
    split_ifs with h
    · exact labelInv_of_atRest (atRest_contextSwitch _ _)
    · exact labelInv_of_atRest (atRest_next _)
    · exact fun _ _ _ => not_lt.1 h
  | neckcut =>
    unfold start
    dsimp only
    split_ifs
    · exact labelInv_of_atRest (atRest_next _)
    · exact labelInv_of_atRest (atRest_next _)
  | retry n le =>
    show (P.code e.pp).operands = .none
    rw [hi]; rfl
  | trust =>
    show (P.code e.pp).operands = .none
    rw [hi]; rfl
  | set l s =>
    unfold start set
    exact labelInv_of_atRest (atRest_next _)
  | builtin i =>
    unfold start builtin
    dsimp only
    split_ifs
    · split
      · exact labelInv_of_atRest (Or.inr (Or.inr (Or.inr (Or.inl rfl))))
      · exact labelInv_of_atRest (atRest_next _)
      · exact labelInv_of_atRest (Or.inr (Or.inr (Or.inr (Or.inr (Or.inl rfl)))))
    · exact labelInv_of_atRest (atRest_contextSwitch _ _)
  | stationary le =>
    unfold start stationary
    dsimp only
    split_ifs
    · exact labelInv_of_atRest (atRest_contextSwitch _ _)
    · exact labelInv_of_atRest (atRest_jump _)
  | worker le =>
    unfold start worker
    dsimp only
    split_ifs
    · exact labelInv_of_atRest (atRest_contextSwitch _ _)
    · exact labelInv_of_atRest (atRest_jump _)
  | branch e₁ e₂ e₃ e₄ =>
    unfold start
    dsimp only
    split_ifs <;> exact labelInv_of_atRest (Or.inl rfl)
  | getval l n => exact ⟨hloop _ rfl rfl rfl rfl, fun h => nomatch h⟩
  | unifiable n₁ n₂ le => exact ⟨hloop _ rfl rfl rfl rfl, fun _ => le_rfl⟩
  | nonunifiable n₁ n₂ le => exact ⟨hloop _ rfl rfl rfl rfl, fun _ => le_rfl⟩
  | tryunifiable n₁ n₂ n₃ => exact ⟨hloop _ rfl rfl rfl rfl, fun _ => le_rfl⟩
  | compare op n₁ n₂ le => exact hloop _ rfl rfl rfl rfl
  | termcompare n₁ n₂ n₃ => exact hloop _ rfl rfl rfl rfl
  | fail => exact labelInv_of_atRest atRest_backtrack
  | finish => exact labelInv_of_atRest (atRest_contextSwitch _ _)
  | unknown => exact labelInv_of_atRest (atRest_contextSwitch _ _)
  | is n₁ n₂ =>
    refine Or.inr ?_
    show (P.code e.pp).operands = .bx
    rw [hi]; rfl
  | _ =>
    first
      | exact labelInv_of_atRest (Or.inl rfl)
      | (show (P.code e.pp).operands = _; rw [hi]; rfl)

/-! ## One step keeps it -/

/-- What the loop of unification needs for the exit `op`. -/
def LoopReady (e : Engine) (op : UnifyOp) : Prop := e.InLoop ∧ (op = .unifiable → e.tt ≤ e.gp)

theorem LoopReady.popPair {op : UnifyOp} (h : e.LoopReady op) : (e.popPair op).LabelInv P := by
  obtain ⟨⟨hle, heven, hbb, hgl⟩, htt⟩ := h
  unfold Engine.popPair
  split_ifs with hst
  · cases op with
    | getval => exact labelInv_of_atRest (Or.inl rfl)
    | unifiable => exact htt rfl
  · exact ⟨⟨show e.cx ≤ e.st - 2 by omega, show (e.st - 2 - e.cx) % 2 = 0 by omega, hbb, hgl⟩, htt⟩

theorem LoopReady.mismatch {op : UnifyOp} (h : e.LoopReady op) :
    (e.mismatch op).LabelInv P := by
  cases op with
  | getval => exact labelInv_of_atRest atRest_backtrack
  | unifiable => exact h.2 rfl

/-- A binding leaves the scratch stack alone. -/
theorem InLoop.bind (h : e.InLoop) (a : Int) (w : Word) : (e.bind a w).InLoop := by
  obtain ⟨hle, heven, hbb, hgl⟩ := h
  have hregs := sameRegs_bind e a w
  have hst := bind_st e a w
  refine ⟨?_, ?_, ?_, ?_⟩
  · rw [hregs.cx, hst]; exact hle
  · rw [hregs.cx, hst]; exact heven
  · rw [hregs.cx, hregs.bb]; exact hbb
  · rw [hregs.cx, hregs.gl]; exact hgl

theorem LoopReady.bind {op : UnifyOp} (h : e.LoopReady op) (a : Int) (w : Word) :
    (e.bind a w).LoopReady op := by
  have hregs := sameRegs_bind e a w
  refine ⟨h.1.bind a w, fun hop => ?_⟩
  rw [hregs.gp]
  exact hregs.tt.trans (h.2 hop)

/-- Pushing pairs keeps the shape of the scratch stack. -/
theorem LoopReady.grow {op : UnifyOp} {e' : Engine} (h : e.LoopReady op) (hregs : SameRegs e e')
    (hst : ∃ k : Nat, e'.st = e.st + 2 * k) : e'.LoopReady op := by
  obtain ⟨⟨hle, heven, hbb, hgl⟩, htt⟩ := h
  obtain ⟨k, hst⟩ := hst
  refine ⟨⟨?_, ?_, ?_, ?_⟩, fun hop => ?_⟩
  · rw [hregs.cx]; omega
  · rw [hregs.cx]; omega
  · rw [hregs.cx, hregs.bb]; exact hbb
  · rw [hregs.cx, hregs.gl]; exact hgl
  · rw [hregs.gp]; exact hregs.tt.trans (htt hop)

theorem pushArgs_st (x y : Int) : ∀ (n : Nat) (e : Engine),
    ∃ k : Nat, (e.pushArgs x y n).st = e.st + 2 * k
  | 0, _ => ⟨0, by simp [pushArgs]⟩
  | 1, _ => ⟨0, by simp [pushArgs]⟩
  | n + 2, e => by
    obtain ⟨k, hk⟩ := pushArgs_st x y (n + 1) ((e.push (e.mem (y + ↑(n + 2)))).push
      ((e.push (e.mem (y + ↑(n + 2)))).mem (x + ↑(n + 2))))
    refine ⟨k + 1, ?_⟩
    rw [pushArgs, hk]
    simp only [push]
    omega

theorem LoopReady.heads {op : UnifyOp} (h : e.LoopReady op) : (e.heads op).LabelInv P := by
  by_cases heq : e.ax = e.bx
  · rw [Engine.heads, if_pos heq]
    exact h.popPair
  · rw [Engine.heads, if_neg heq]
    split
    · have hst : (e.st + 1 + 1 : Int) = e.st + 2 * (1 : Nat) := by omega
      exact LoopReady.grow h ⟨rfl, le_rfl⟩ ⟨1, hst⟩
    · split_ifs
      · exact h.mismatch
      · exact h.popPair
      · exact LoopReady.mismatch ⟨⟨h.1.le, h.1.even, h.1.bb, h.1.gl⟩, h.2⟩
      · obtain ⟨hregs, -, -⟩ := pushArgs_frame _ _ (e.mem _).arity e
        exact LoopReady.grow h ⟨hregs.registers, hregs.tt⟩ (pushArgs_st _ _ _ e)
    · exact h.mismatch

theorem labelInv_axdef {op : UnifyOp} (h : e.LoopReady op) (hlbl : e.lbl = .axdef op) :
    (e.axdef op).LabelInv P := by
  unfold axdef
  split
  · split_ifs
    · show Engine.LabelInv P { e with ax := _ }
      simp only [LabelInv, hlbl]
      exact ⟨⟨h.1.le, h.1.even, h.1.bb, h.1.gl⟩, h.2⟩
    · exact (h.bind _ _).popPair
  · exact ⟨⟨h.1.le, h.1.even, h.1.bb, h.1.gl⟩, h.2⟩

theorem labelInv_bxdef {op : UnifyOp} (h : e.LoopReady op) (hlbl : e.lbl = .bxdef op) :
    (e.bxdef op).LabelInv P := by
  unfold bxdef
  split
  · split_ifs
    · show Engine.LabelInv P { e with bx := _ }
      simp only [LabelInv, hlbl]
      exact ⟨⟨h.1.le, h.1.even, h.1.bb, h.1.gl⟩, h.2⟩
    · exact (h.bind _ _).popPair
  · exact h.heads

theorem InLoop.comparePop (h : e.InLoop) (hlbl : e.lbl = .compare) :
    e.comparePop.LabelInv P := by
  obtain ⟨hle, heven, hbb, hgl⟩ := h
  unfold Engine.comparePop
  split_ifs with hst
  · exact labelInv_of_atRest (Or.inr (Or.inl rfl))
  · simp only [LabelInv, hlbl]
    exact ⟨show e.cx ≤ e.st - 2 by omega, show (e.st - 2 - e.cx) % 2 = 0 by omega, hbb, hgl⟩

theorem compareArgs_frame (x y : Int) (k : Nat) (e : Engine) :
    (e.compareArgs x y k).bb = e.bb ∧ (e.compareArgs x y k).gl = e.gl ∧
      (e.compareArgs x y k).lbl = e.lbl := by
  induction k generalizing e with
  | zero => exact ⟨rfl, rfl, rfl⟩
  | succ k ih => exact ih _

theorem InLoop.compareAct (h : e.InLoop) (hlbl : e.lbl = .compare) (v : Verdict) :
    (e.compareAct v).LabelInv P := by
  have ⟨hle, heven, hbb, hgl⟩ := h
  cases v with
  | decided w => exact labelInv_of_atRest (Or.inr (Or.inl rfl))
  | next => exact h.comparePop hlbl
  | lists p q =>
    refine InLoop.comparePop ⟨?_, ?_, hbb, hgl⟩ hlbl
    · simp only [push]; omega
    · simp only [push]; omega
  | args p q k =>
    obtain ⟨hst, hcx⟩ := compareArgs_st p q k e
    obtain ⟨hbb', hgl', hlbl'⟩ := compareArgs_frame p q k e
    exact InLoop.comparePop ⟨by omega, by rw [hst, hcx]; omega, by omega, by omega⟩
      (hlbl'.trans hlbl)

theorem atRest_allocOrCollect (n₁ : Int) (make : Engine → Engine) :
    (e.allocOrCollect n₁ make).atRest := by
  unfold allocOrCollect
  split_ifs
  · exact atRest_next _
  · exact atRest_contextSwitch _ _

/-- At `cleanUp`, an instruction that is not a unifiability test does nothing. -/
theorem atRest_cleanUp (i : Instr) : (e.cleanUp i).atRest ∨ e.cleanUp i = e := by
  cases i with
  | unifiable n₁ n₂ le =>
    unfold cleanUp
    dsimp only
    split_ifs
    · exact Or.inl (atRest_next _)
    · exact Or.inl (atRest_jump _)
  | nonunifiable n₁ n₂ le =>
    unfold cleanUp
    dsimp only
    split_ifs
    · exact Or.inl (atRest_next _)
    · exact Or.inl (atRest_jump _)
  | tryunifiable n₁ n₂ n₃ => exact Or.inl (atRest_next _)
  | _ => exact Or.inr rfl

theorem atRest_afterCompare (i : Instr) : (e.afterCompare i).atRest ∨ e.afterCompare i = e := by
  cases i with
  | compare op n₁ n₂ le => exact Or.inl (atRest_branchIf _ _ _)
  | termcompare n₁ n₂ n₃ => exact Or.inl (atRest_next _)
  | _ => exact Or.inr rfl

theorem atRest_allocate (i : Instr) : (e.allocate i).atRest ∨ e.allocate i = e := by
  cases i with
  | alloa n₁ n₂ => exact Or.inl (atRest_allocOrCollect _ _)
  | allod n₁ n₂ => exact Or.inl (atRest_allocOrCollect _ _)
  | try_ n le => exact Or.inl (atRest_allocOrCollect _ _)
  | _ => exact Or.inr rfl

theorem atRest_probe (h : e.lbl = .probe) (te : HashTable) : (e.probe te).atRest := by
  unfold probe
  split_ifs
  · exact atRest_jump _
  · exact Or.inr (Or.inr (Or.inl h))

theorem atRest_probing (h : e.lbl = .probe) (i : Instr) : (e.probing i).atRest := by
  cases i with
  | hashing n te => exact atRest_probe h te
  | lasthashing te => exact atRest_probe h te
  | _ => exact Or.inr (Or.inr (Or.inl h))

theorem labelInv_of_atRest_or_same {e' : Engine} (h : e'.atRest ∨ e' = e) (he : e.LabelInv P) :
    e'.LabelInv P := by
  rcases h with h | rfl
  · exact labelInv_of_atRest h
  · exact he

/-- **What the labels promise is kept by every step.** -/
theorem labelInv_step (hbb : e.bb ≤ e.st) (hgl : e.gl ≤ e.st) (h : e.LabelInv P) :
    (e.step P).LabelInv P := by
  have h₀ := h
  unfold step
  cases hlbl : e.lbl with
  | control => exact labelInv_start hbb hgl _ rfl
  | derefAx both =>
    simp only [LabelInv, hlbl] at h
    dsimp only
    split_ifs with hleads hboth
    · simpa only [LabelInv, hlbl] using h
    · exact Or.inl ⟨by rw [goto, h, if_pos hboth], by simpa [leadsOn, goto] using hleads⟩
    · simp only [LabelInv, goto, h, hboth]
      simpa [leadsOn] using hleads
  | derefBx =>
    simp only [LabelInv, hlbl] at h
    dsimp only
    split_ifs with hleads
    · simp only [LabelInv]
      rcases h with ⟨hop, hax⟩ | hop
      · exact Or.inl ⟨hop, by simpa [leadsOn] using hax⟩
      · exact Or.inr hop
    · rcases h with ⟨hop, hax⟩ | hop
      · simp only [LabelInv, goto, hop]
        exact ⟨by simpa [leadsOn] using hax, by simpa [leadsOn] using hleads⟩
      · simp only [LabelInv, goto, hop]
        simpa [leadsOn] using hleads
  | exec =>
    by_cases hop : (P.code e.pp).operands = .none
    · exact labelInv_of_atRest_or_same (atRest_exec_none _ hop) h₀
    · exact labelInv_of_atRest (atRest_exec _ hop)
  | axdef op =>
    simp only [LabelInv, hlbl] at h
    exact labelInv_axdef h hlbl
  | bxdef op =>
    simp only [LabelInv, hlbl] at h
    exact labelInv_bxdef h hlbl
  | cleanUp => exact labelInv_of_atRest_or_same (atRest_cleanUp _) h₀
  | compare =>
    simp only [LabelInv, hlbl] at h
    dsimp only
    unfold compareStep
    split_ifs
    · simp only [LabelInv, hlbl]
      exact ⟨h.le, h.even, h.bb, h.gl⟩
    · simp only [LabelInv, hlbl]
      exact ⟨h.le, h.even, h.bb, h.gl⟩
    · exact h.compareAct hlbl _
  | compared => exact labelInv_of_atRest_or_same (atRest_afterCompare _) h₀
  | gline =>
    dsimp only
    split_ifs
    · exact labelInv_of_atRest_or_same (atRest_allocate _) h₀
    · simp only [LabelInv, hlbl] at h ⊢
      exact h
  | probe => exact labelInv_of_atRest (atRest_probing hlbl _)
  | detrail =>
    simp only [LabelInv, hlbl] at h
    show Engine.LabelInv P e.detrail
    by_cases htt : e.tt < e.BTT
    · rw [detrail, if_pos htt]
      dsimp only
      split_ifs
      · simpa only [LabelInv, hlbl, assign] using h
      · simpa only [LabelInv, hlbl] using h
    · rw [detrail, if_neg htt]
      simp only [LabelInv, goto, h]
      simpa [BTT] using htt
  | backtrack =>
    dsimp only
    unfold backtrack
    split_ifs
    · exact labelInv_of_atRest (atRest_contextSwitch _ _)
    · exact labelInv_of_atRest (atRest_contextSwitch _ _)
    · exact labelInv_of_atRest (Or.inl rfl)
  | contextSwitch => exact h₀
  | trap => exact h₀

theorem labelInv_enter : e.enter.LabelInv P := by
  unfold enter
  dsimp only
  split
  · exact labelInv_of_atRest (Or.inr (Or.inr (Or.inr (Or.inl rfl))))
  · exact labelInv_of_atRest (Or.inl rfl)
  · exact labelInv_of_atRest (atRest_contextSwitch _ _)

end Engine

end Mlvm
