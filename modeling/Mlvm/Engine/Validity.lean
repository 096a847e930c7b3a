import Mlvm.Engine.LabelInv

/-!
# When an operation is called for

The engine carries out an elementary operation only where the code before it has made sure of
something: a cell is unbound when it is bound, the stack top never drops below the frames, there is
room for a choice frame, and `detrail` has run before a frame is used again.
-/

namespace Mlvm

/-- What the code before an operation has made sure of. -/
def Op.Valid (e : Engine) : Op → Prop
  | setSt s => e.bb ≤ s ∧ e.gl ≤ s
  | bindBb a _ => e.mem a = .ref a
  | bindGl a _ => e.mem a = .ref a
  | choice _ _ => CHOICE_SIZE * GC_FACTOR ≤ e.tt - e.st
  | retry _ _ => e.BTT ≤ e.tt
  | trust => e.BTT ≤ e.tt
  | neckcut => e.b0 < e.bb
  | _ => True

/-- An operation that needs nothing and leaves `bb` and `gl` alone. -/
def Op.isPlain : Op → Bool
  | assign _ _ => true
  | move _ _ => true
  | push _ => true
  | pushCell _ => true
  | trail _ => true
  | _ => false

namespace Engine

/-- Every operation is valid in the state in which its turn comes. -/
def ValidAll (P : Program) (e : Engine) : List Op → Prop
  | [] => True
  | o :: os => o.Valid e ∧ ValidAll P (e.apply P o) os

variable {P : Program}

theorem validAll_append {e : Engine} {os os' : List Op} :
    e.ValidAll P (os ++ os') ↔ e.ValidAll P os ∧ (e.applyAll P os).ValidAll P os' := by
  induction os generalizing e with
  | nil => simp [ValidAll]
  | cons o os ih =>
    simp only [List.cons_append, ValidAll, ih, and_assoc]
    rfl

theorem Op.isPlain.valid {o : Op} (h : o.isPlain) (e : Engine) : o.Valid e := by
  cases o with
  | assign a w => trivial
  | move a b => trivial
  | push w => trivial
  | pushCell a => trivial
  | trail a => trivial
  | _ => cases h

theorem validAll_of_plain {os : List Op} (h : ∀ o ∈ os, o.isPlain) (e : Engine) :
    e.ValidAll P os := by
  induction os generalizing e with
  | nil => trivial
  | cons o os ih =>
    exact ⟨Op.isPlain.valid (h o List.mem_cons_self) e,
      ih (fun o' ho' => h o' (List.mem_cons_of_mem o ho')) _⟩

theorem trail_bb_gl (e : Engine) (a : Int) : (e.trail a).bb = e.bb ∧ (e.trail a).gl = e.gl := by
  unfold trail
  split_ifs <;> exact ⟨rfl, rfl⟩

/-- Plain operations leave the lower bounds of the stack top alone. -/
theorem applyAll_plain_bb_gl {os : List Op} (h : ∀ o ∈ os, o.isPlain) (e : Engine) :
    (e.applyAll P os).bb = e.bb ∧ (e.applyAll P os).gl = e.gl := by
  induction os generalizing e with
  | nil => exact ⟨rfl, rfl⟩
  | cons o os ih =>
    obtain ⟨hbb, hgl⟩ := ih (fun o' ho' => h o' (List.mem_cons_of_mem o ho')) (e.apply P o)
    have ho : (e.apply P o).bb = e.bb ∧ (e.apply P o).gl = e.gl := by
      have hplain := h o List.mem_cons_self
      cases o with
      | trail a => exact trail_bb_gl e a
      | assign a w => exact ⟨rfl, rfl⟩
      | move a b => exact ⟨rfl, rfl⟩
      | push w => exact ⟨rfl, rfl⟩
      | pushCell a => exact ⟨rfl, rfl⟩
      | _ => cases hplain
    exact ⟨hbb.trans ho.1, hgl.trans ho.2⟩

/-! ## Plain lists -/

theorem plain_boxOps (w : Word × Word) : ∀ o ∈ boxOps w, o.isPlain := by
  simp [boxOps, Op.isPlain]

theorem plain_putvoidsOps (k : Nat) : ∀ st, ∀ o ∈ putvoidsOps st k, o.isPlain := by
  induction k with
  | zero => simp [putvoidsOps]
  | succ k ih =>
    intro st o ho
    rcases List.mem_cons.1 ho with rfl | ho
    · rfl
    · exact ih _ o ho

theorem plain_pushArgsOps (x y : Int) : ∀ k, ∀ o ∈ pushArgsOps x y k, o.isPlain
  | 0 => by simp [pushArgsOps]
  | 1 => by simp [pushArgsOps]
  | k + 2 => by
    intro o ho
    rcases List.mem_cons.1 ho with rfl | ho
    · rfl
    rcases List.mem_cons.1 ho with rfl | ho
    · rfl
    · exact plain_pushArgsOps x y (k + 1) o ho

theorem plain_compareArgsOps (x y : Int) (k : Nat) : ∀ o ∈ compareArgsOps x y k, o.isPlain := by
  induction k with
  | zero => simp [compareArgsOps]
  | succ k ih =>
    intro o ho
    rcases List.mem_cons.1 ho with rfl | ho
    · rfl
    rcases List.mem_cons.1 ho with rfl | ho
    · rfl
    · exact ih o ho

theorem plain_copyWordsOps (b p : Int) (k : Nat) : ∀ i, ∀ o ∈ copyWordsOps b p i k, o.isPlain := by
  induction k with
  | zero => simp [copyWordsOps]
  | succ k ih =>
    intro i o ho
    rcases List.mem_cons.1 ho with rfl | ho
    · rfl
    · exact ih _ o ho

theorem plain_setOps (e : Engine) (l : Loc) (s : Source) : ∀ o ∈ e.setOps l s, o.isPlain := by
  cases s <;> simp [setOps, boxOps, Op.isPlain]

theorem plain_storeFloatOps (e : Engine) (n : Int) (w : Word × Word) :
    ∀ o ∈ e.storeFloatOps n w, o.isPlain := by
  simp [storeFloatOps, boxOps, Op.isPlain]

theorem plain_storeIntOps (e : Engine) (n : Int) (r : Option Int) :
    ∀ o ∈ e.storeIntOps n r, o.isPlain := by
  cases r <;> simp [storeIntOps, Op.isPlain]

theorem plain_ariCpuOps (D : Doubles) (e : Engine) (op : AriOp) (n₃ : Int) :
    ∀ o ∈ e.ariCpuOps D op n₃, o.isPlain := by
  unfold ariCpuOps
  split
  · exact plain_storeIntOps e n₃ _
  · exact plain_storeFloatOps e n₃ _
  · exact plain_storeFloatOps e n₃ _
  · exact plain_storeFloatOps e n₃ _
  · simp

theorem plain_intCpuOps (e : Engine) (op : IntOp) (n₃ : Int) :
    ∀ o ∈ e.intCpuOps op n₃, o.isPlain := by
  unfold intCpuOps
  split
  · exact plain_storeIntOps e n₃ _
  · simp

theorem plain_minusOps (D : Doubles) (e : Engine) (n₂ : Int) :
    ∀ o ∈ e.minusOps D n₂, o.isPlain := by
  unfold minusOps
  split <;> simp [boxOps, Op.isPlain]

theorem plain_intOneOps (e : Engine) (d n₂ : Int) : ∀ o ∈ e.intOneOps d n₂, o.isPlain := by
  unfold intOneOps
  split
  · split_ifs <;> simp [Op.isPlain]
  · simp

theorem plain_aricmpOps (D : Doubles) (e : Engine) (n₃ : Int) :
    ∀ o ∈ e.aricmpOps D n₃, o.isPlain := by
  unfold aricmpOps
  split <;> simp [Op.isPlain]

/-! ## The operations of a step are valid -/

/-- Taking a pair from the scratch stack leaves the top above the frames. -/
theorem validAll_popOps {e : Engine} (h : e.InLoop) : e.ValidAll P (popOps e.st e.cx) := by
  obtain ⟨hle, heven, hbb, hgl⟩ := h
  unfold popOps
  split_ifs with hst
  · trivial
  · exact ⟨⟨by omega, by omega⟩, trivial⟩

theorem validAll_allocation {e : Engine} (hbb : e.bb ≤ e.st) (hgl : e.gl ≤ e.st) {n : Int}
    (hn : 0 ≤ n) {os : List Op} (hos : ∀ o ∈ os, o.isPlain) :
    e.ValidAll P (.setSt (e.st + n) :: os) :=
  ⟨⟨by omega, by omega⟩, validAll_of_plain hos _⟩

theorem validAll_generationOps (e' e : Engine) (n : Int) :
    e'.ValidAll P (e.generationOps n) := by
  unfold generationOps
  split_ifs
  · exact ⟨trivial, trivial⟩
  · trivial

theorem validAll_startOps {e : Engine} (hbb : e.bb ≤ e.st) (hgl : e.gl ≤ e.st) (i : Instr) :
    e.ValidAll P (e.startOps i) := by
  cases i with
  | alloa n₁ n₂ =>
    unfold startOps
    dsimp only
    split_ifs
    · trivial
    · exact validAll_append.2 ⟨validAll_allocation hbb hgl (by omega) (by simp [Op.isPlain]),
        validAll_generationOps _ _ _⟩
    · trivial
  | allod n₁ n₂ =>
    unfold startOps
    dsimp only
    split_ifs
    · trivial
    · exact validAll_append.2 ⟨validAll_allocation hbb hgl (by omega) (by simp),
        validAll_generationOps _ _ _⟩
    · trivial
  | try_ n le =>
    unfold startOps
    dsimp only
    split_ifs with h
    · trivial
    · exact ⟨not_lt.1 h, trivial⟩
    · trivial
  | neckcut =>
    unfold startOps
    dsimp only
    split_ifs with h
    · exact ⟨h, trivial⟩
    · trivial
  | putvoids k => exact validAll_of_plain (plain_putvoidsOps k e.st) e
  | putvars ns =>
    refine validAll_of_plain (fun o ho => ?_) e
    obtain ⟨n, -, ho⟩ := List.mem_flatMap.1 ho
    rcases List.mem_cons.1 ho with rfl | ho
    · rfl
    · rw [List.mem_singleton.1 ho]; rfl
  | putvals ns =>
    refine validAll_of_plain (fun o ho => ?_) e
    obtain ⟨n, -, rfl⟩ := List.mem_map.1 ho
    rfl
  | set l s => exact validAll_of_plain (plain_setOps e l s) e
  | stationary le =>
    exact validAll_allocation hbb hgl (by decide) (by simp [putvoidsOps, Op.isPlain])
  | worker le => exact validAll_allocation hbb hgl (by decide) (by simp [Op.isPlain])
  | call le => exact ⟨trivial, trivial⟩
  | deeplabel n => exact ⟨trivial, trivial⟩
  | deepcut n => exact ⟨trivial, trivial⟩
  | builtin i => exact ⟨trivial, trivial⟩
  | putrval n => exact ⟨trivial, trivial, trivial⟩
  | putcon w => exact ⟨trivial, trivial⟩
  | putlist n => exact ⟨trivial, trivial⟩
  | putstr n => exact ⟨trivial, trivial⟩
  | _ => trivial

theorem unbound_of_leadsOn {e : Engine} {a : Int} {w : Word} (h : e.leadsOn w = false)
    (hw : w = .ref a) : e.mem a = .ref a := by
  rw [hw] at h
  simpa [leadsOn] using h

/-- At `exec`, with the operands of the instruction dereferenced. -/
theorem validAll_execOps {e : Engine} (hlbl : e.lbl = .exec) (h : e.LabelInv P) :
    e.ValidAll P (e.execOps P (P.code e.pp)) := by
  simp only [LabelInv, hlbl] at h
  cases hi : P.code e.pp with
  | retry n le =>
    rw [hi] at h
    exact ⟨h, trivial⟩
  | trust =>
    rw [hi] at h
    exact ⟨h, trivial⟩
  | getcon l w =>
    rw [hi] at h
    unfold execOps
    dsimp only
    split
    · exact ⟨unbound_of_leadsOn h ‹_›, trivial⟩
    · trivial
  | getfloat l w₁ w₂ =>
    rw [hi] at h
    unfold execOps
    dsimp only
    split
    · exact ⟨unbound_of_leadsOn h ‹_›, validAll_of_plain (plain_boxOps _) _⟩
    · trivial
  | getlist l n nl le =>
    rw [hi] at h
    unfold execOps
    dsimp only
    split
    · exact ⟨unbound_of_leadsOn h ‹_›, trivial⟩
    · exact validAll_of_plain (by simp [copyPairOps, Op.isPlain]) e
    · trivial
  | getvlist l n =>
    rw [hi] at h
    unfold execOps
    dsimp only
    split
    · exact ⟨unbound_of_leadsOn h ‹_›, trivial, trivial, trivial⟩
    · exact validAll_of_plain (by simp [copyPairOps, Op.isPlain]) e
    · trivial
  | getstr l n nl f le =>
    rw [hi] at h
    unfold execOps
    dsimp only
    split
    · exact ⟨unbound_of_leadsOn h ‹_›, trivial⟩
    · split_ifs
      · exact validAll_of_plain (plain_copyWordsOps _ _ _ _) e
      · trivial
    · trivial
  | ari op n₁ n₂ n₃ => exact validAll_of_plain (plain_ariCpuOps P.doubles e op n₃) e
  | minus n₁ n₂ => exact validAll_of_plain (plain_minusOps P.doubles e n₂) e
  | int op n₁ n₂ n₃ => exact validAll_of_plain (plain_intCpuOps e op n₃) e
  | inc n₁ n₂ => exact validAll_of_plain (plain_intOneOps e 2 n₂) e
  | dec n₁ n₂ => exact validAll_of_plain (plain_intOneOps e (-2) n₂) e
  | is n₁ n₂ =>
    rw [hi] at h
    unfold execOps
    dsimp only
    split
    · exact ⟨unbound_of_leadsOn h ‹_›, trivial⟩
    · trivial
  | aricmp n₁ n₂ n₃ => exact validAll_of_plain (plain_aricmpOps P.doubles e n₃) e
  | _ => trivial

theorem validAll_bindOps {e : Engine} (h : e.InLoop) (a : Int) (w : Word) :
    e.ValidAll P (e.bindOps a w) := by
  unfold bindOps
  split_ifs with hu
  · trivial
  have hu : e.mem a = .ref a := not_not.1 hu
  have hpop : (e.apply P (bindOp a w)).ValidAll P (popOps e.st e.cx) := by
    rw [← bind_apply, ← bind_st e a w, ← bind_cx e a w]
    exact validAll_popOps (h.bind a w)
  refine ⟨?_, hpop⟩
  unfold bindOp
  split_ifs
  · exact hu
  · exact hu

theorem validAll_mismatchOps {e : Engine} (h : e.InLoop) (op : UnifyOp) :
    e.ValidAll P (e.mismatchOps op) := by
  cases op with
  | getval => trivial
  | unifiable => exact ⟨⟨h.bb, h.gl⟩, trivial⟩

theorem validAll_headsOps {e : Engine} (h : e.InLoop) (op : UnifyOp) :
    e.ValidAll P (e.headsOps op) := by
  by_cases heq : e.ax = e.bx
  · rw [headsOps, if_pos heq]
    exact validAll_popOps h
  · rw [headsOps, if_neg heq]
    split
    · exact validAll_of_plain (by simp [Op.isPlain]) e
    · split_ifs
      · exact validAll_mismatchOps h op
      · exact validAll_popOps h
      · exact validAll_mismatchOps h op
      · exact validAll_of_plain (plain_pushArgsOps _ _ _) e
    · exact validAll_mismatchOps h op

theorem validAll_compareOps {e : Engine} (h : e.InLoop) (v : Verdict) :
    e.ValidAll P (e.compareOps v) := by
  have ⟨hle, heven, hbb, hgl⟩ := h
  cases v with
  | decided w => trivial
  | next => exact validAll_popOps h
  | lists p q =>
    refine validAll_append.2 ⟨validAll_of_plain (by simp [Op.isPlain]) e, ?_⟩
    unfold popOps
    split_ifs
    · trivial
    · refine ⟨⟨?_, ?_⟩, trivial⟩
      · show e.bb ≤ _
        omega
      · show e.gl ≤ _
        omega
  | args p q k =>
    have hplain := plain_compareArgsOps p q k
    obtain ⟨hbb', hgl'⟩ := applyAll_plain_bb_gl (P := P) hplain e
    refine validAll_append.2 ⟨validAll_of_plain hplain e, ?_⟩
    unfold popOps
    split_ifs
    · trivial
    · refine ⟨⟨?_, ?_⟩, trivial⟩
      · rw [hbb']
        omega
      · rw [hgl']
        omega

theorem validAll_allocateOps {e : Engine} (hbb : e.bb ≤ e.st) (hgl : e.gl ≤ e.st) (i : Instr)
    (htry : ∀ n l, i = .try_ n l → CHOICE_SIZE * GC_FACTOR ≤ e.tt - e.st) :
    e.ValidAll P (e.allocateOps i) := by
  unfold allocateOps
  split_ifs
  · cases i with
    | alloa n₁ n₂ => exact validAll_allocation hbb hgl (by omega) (by simp [Op.isPlain])
    | allod n₁ n₂ => exact validAll_allocation hbb hgl (by omega) (by simp)
    | try_ n le => exact ⟨htry n le rfl, trivial⟩
    | _ => trivial
  · trivial

/-- **The operations of a step are valid.** -/
theorem validAll_ops {e : Engine} (hbb : e.bb ≤ e.st) (hgl : e.gl ≤ e.st) (h : e.LabelInv P) :
    e.ValidAll P (e.ops P) := by
  have h₀ := h
  unfold LabelInv at h
  unfold ops
  cases hlbl : e.lbl with
  | control => exact validAll_startOps hbb hgl _
  | exec => exact validAll_execOps hlbl h₀
  | axdef op =>
    rw [hlbl] at h
    dsimp only
    split
    · exact validAll_bindOps h.1 _ _
    · trivial
  | bxdef op =>
    rw [hlbl] at h
    dsimp only
    split
    · exact validAll_bindOps h.1 _ _
    · exact validAll_headsOps h.1 op
  | cleanUp =>
    dsimp only
    unfold cleanUpOps
    split
    · exact ⟨trivial, trivial⟩
    · trivial
  | compare =>
    rw [hlbl] at h
    dsimp only
    split_ifs
    · trivial
    · exact validAll_compareOps h _
  | compared =>
    dsimp only
    split
    · exact ⟨trivial, trivial⟩
    · trivial
  | gline =>
    rw [hlbl] at h
    dsimp only
    split_ifs
    · exact validAll_allocateOps hbb hgl _ h
    · trivial
  | detrail => exact ⟨trivial, trivial⟩
  | _ => trivial

end Engine

end Mlvm
