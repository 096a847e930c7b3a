import Mlvm.Engine.Standing

/-!
# What most steps leave alone

The choice frames are removed or needed by RETRY, TRUST, the two cuts and the builtins only, and
`b0` is loaded by the two last calls and by `backtrack` only.

* `Free` — the steps that remove no choice frame.
* `step_b0` — the steps that leave `b0` alone.
-/

namespace Mlvm

/-- The operation removes no choice frame and needs none. -/
def Op.isFree : Op → Bool
  | retry _ _ => false
  | trust => false
  | neckcut => false
  | setBb _ => false
  | builtin _ => false
  | _ => true

namespace Engine

/-! ## Steps that keep the frames -/

variable {P : Program} {b base : Int} {e : Engine}

theorem free_of_plain {os : List Op} (h : ∀ o ∈ os, o.isPlain) : ∀ o ∈ os, o.isFree := by
  intro o ho
  have hplain := h o ho
  cases o <;> first | rfl | cases hplain

theorem free_of_local {os : List Op} (h : ∀ o ∈ os, o.isLocal) : ∀ o ∈ os, o.isFree := by
  intro o ho
  have hlocal := h o ho
  cases o <;> first | rfl | cases hlocal

theorem free_append {os os' : List Op} (h : ∀ o ∈ os, o.isFree) (h' : ∀ o ∈ os', o.isFree) :
    ∀ o ∈ os ++ os', o.isFree := fun o ho =>
  (List.mem_append.1 ho).elim (h o) (h' o)

theorem free_popOps (st cx : Int) : ∀ o ∈ popOps st cx, o.isFree := by
  unfold popOps
  split_ifs <;> simp [Op.isFree]

theorem free_bindOp (a : Int) (w : Word) : (bindOp a w).isFree := by
  unfold bindOp
  split_ifs <;> rfl

theorem free_generationOps (n : Int) : ∀ o ∈ e.generationOps n, o.isFree := by
  unfold generationOps
  split_ifs <;> simp [Op.isFree]

theorem free_startOps {i : Instr} (hneck : i ≠ .neckcut) (hdeep : ∀ n, i ≠ .deepcut n)
    (hbuiltin : ∀ k, i ≠ .builtin k) : ∀ o ∈ e.startOps i, o.isFree := by
  cases i with
  | neckcut => exact (hneck rfl).elim
  | deepcut n => exact (hdeep n rfl).elim
  | builtin k => exact (hbuiltin k rfl).elim
  | alloa n₁ n₂ =>
    unfold startOps
    dsimp only
    split_ifs
    · simp
    · exact free_append (by simp [aframeOps, Op.isFree]) (free_generationOps n₂)
    · simp
  | allod n₁ n₂ =>
    unfold startOps
    dsimp only
    split_ifs
    · simp
    · exact free_append (by simp [allocOps, Op.isFree]) (free_generationOps n₂)
    · simp
  | try_ n le =>
    unfold startOps
    dsimp only
    split_ifs <;> simp [Op.isFree]
  | putvoids k => exact free_of_plain (plain_putvoidsOps k e.st)
  | putvars ns =>
    intro o ho
    obtain ⟨n, -, ho⟩ := List.mem_flatMap.1 ho
    rcases List.mem_cons.1 ho with rfl | ho
    · rfl
    · rw [List.mem_singleton.1 ho]; rfl
  | putvals ns =>
    intro o ho
    obtain ⟨n, -, rfl⟩ := List.mem_map.1 ho
    rfl
  | set l s => exact free_of_plain (plain_setOps e l s)
  | stationary le => simp [startOps, stationaryOps, putvoidsOps, Op.isFree]
  | worker le => simp [startOps, workerOps, Op.isFree]
  | _ => simp [startOps, Op.isFree]

theorem free_execOps {i : Instr} (hretry : ∀ n l, i ≠ .retry n l) (htrust : i ≠ .trust) :
    ∀ o ∈ e.execOps P i, o.isFree := by
  cases i with
  | retry n l => exact (hretry n l rfl).elim
  | trust => exact (htrust rfl).elim
  | getcon l w =>
    unfold execOps
    dsimp only
    split <;> simp [Op.isFree]
  | getfloat l w₁ w₂ =>
    unfold execOps
    dsimp only
    split <;> simp [boxOps, Op.isFree]
  | getlist l n nl le =>
    unfold execOps
    dsimp only
    split <;> simp [copyPairOps, Op.isFree]
  | getvlist l n =>
    unfold execOps
    dsimp only
    split <;> simp [copyPairOps, Op.isFree]
  | getstr l n nl f le =>
    unfold execOps
    dsimp only
    split
    · simp [Op.isFree]
    · split_ifs
      · exact free_of_plain (plain_copyWordsOps _ _ _ _)
      · simp
    · simp
  | ari op n₁ n₂ n₃ => exact free_of_plain (plain_ariCpuOps P.doubles e op n₃)
  | minus n₁ n₂ => exact free_of_plain (plain_minusOps P.doubles e n₂)
  | int op n₁ n₂ n₃ => exact free_of_plain (plain_intCpuOps e op n₃)
  | inc n₁ n₂ => exact free_of_plain (plain_intOneOps e 2 n₂)
  | dec n₁ n₂ => exact free_of_plain (plain_intOneOps e (-2) n₂)
  | is n₁ n₂ =>
    unfold execOps
    dsimp only
    split <;> simp [Op.isFree]
  | aricmp n₁ n₂ n₃ => exact free_of_plain (plain_aricmpOps P.doubles e n₃)
  | _ => simp [execOps]

theorem free_bindOps (a : Int) (w : Word) : ∀ o ∈ e.bindOps a w, o.isFree := by
  unfold bindOps
  split_ifs
  · simp
  · intro o ho
    rcases List.mem_cons.1 ho with rfl | ho
    · exact free_bindOp a w
    · exact free_popOps _ _ o ho

theorem free_mismatchOps (op : UnifyOp) : ∀ o ∈ e.mismatchOps op, o.isFree := by
  cases op <;> simp [mismatchOps, Op.isFree]

theorem free_headsOps (op : UnifyOp) : ∀ o ∈ e.headsOps op, o.isFree := by
  by_cases heq : e.ax = e.bx
  · rw [headsOps, if_pos heq]
    exact free_popOps _ _
  · rw [headsOps, if_neg heq]
    split
    · simp [Op.isFree]
    · split_ifs
      · exact free_mismatchOps op
      · exact free_popOps _ _
      · exact free_mismatchOps op
      · exact free_of_plain (plain_pushArgsOps _ _ _)
    · exact free_mismatchOps op

theorem free_compareOps (v : Verdict) : ∀ o ∈ e.compareOps v, o.isFree := by
  cases v with
  | decided w => simp [compareOps]
  | next => exact free_popOps _ _
  | lists p q => exact free_append (by simp [Op.isFree]) (free_popOps _ _)
  | args p q k => exact free_append (free_of_plain (plain_compareArgsOps p q k)) (free_popOps _ _)

theorem free_allocateOps (i : Instr) : ∀ o ∈ e.allocateOps i, o.isFree := by
  unfold allocateOps
  split_ifs
  · cases i <;> simp [aframeOps, allocOps, Op.isFree]
  · simp

/-- The next step is none of RETRY, TRUST, the cuts and the builtins. -/
structure Free (P : Program) (e : Engine) : Prop where
  cut : ¬ Cuts P e
  builtin : ∀ k, ¬ Starts P e (.builtin k)
  alternative : e.lbl = .exec → ¬ (P.code e.pp = .trust ∨ ∃ n l, P.code e.pp = .retry n l)

theorem Free.isFree (h : Free P e) : ∀ o ∈ e.ops P, o.isFree := by
  unfold Engine.ops
  cases hlbl : e.lbl with
  | control =>
    exact free_startOps (fun hi => h.cut (Or.inl ⟨hlbl, hi⟩))
      (fun n hi => h.cut (Or.inr ⟨n, hlbl, hi⟩)) fun k hi => h.builtin k ⟨hlbl, hi⟩
  | exec =>
    exact free_execOps (fun n l hi => h.alternative hlbl (Or.inr ⟨n, l, hi⟩))
      fun hi => h.alternative hlbl (Or.inl hi)
  | axdef op =>
    dsimp only
    split
    · exact free_bindOps _ _
    · simp
  | bxdef op =>
    dsimp only
    split
    · exact free_bindOps _ _
    · exact free_headsOps op
  | cleanUp =>
    dsimp only
    unfold cleanUpOps
    split <;> simp [Op.isFree]
  | compare =>
    dsimp only
    split_ifs
    · simp
    · exact free_compareOps _
  | compared =>
    dsimp only
    split <;> simp [Op.isFree]
  | gline =>
    dsimp only
    split_ifs
    · exact free_allocateOps _
    · simp
  | detrail => simp [Op.isFree]
  | _ => simp

theorem Target.of_free {o : Op} (h : o.isFree) (L : List Engine) : Target b e L o := by
  cases o <;> trivial

theorem targetAll_of_free {os : List Op} (h : ∀ o ∈ os, o.isFree) : ∀ (e : Engine)
    (L : List Engine), TargetAll P b e L os := by
  induction os with
  | nil => exact fun _ _ => trivial
  | cons o os ih =>
    exact fun e L => ⟨Target.of_free (h o List.mem_cons_self) L,
      ih (fun o' ho' => h o' (List.mem_cons_of_mem o ho')) _ _⟩

/-! ## Steps that keep `b0` -/

theorem trail_b0 (e : Engine) (a : Int) : (e.trail a).b0 = e.b0 := by
  unfold trail
  split_ifs <;> rfl

theorem bbtrail_b0 (e : Engine) (a : Int) : (e.bbtrail a).b0 = e.b0 := by
  unfold bbtrail
  split_ifs <;> rfl

theorem openGeneration_b0 (e : Engine) : e.openGeneration.b0 = e.b0 := by
  unfold openGeneration
  split_ifs <;> rfl

theorem makeCframe_b0 (e : Engine) (n : Nat) (l : Int) : (e.makeCframe n l).b0 = e.b0 :=
  (mirror_cf_b0 n _).2

theorem filterTrail_b0 (k : Nat) : ∀ e : Engine, (e.filterTrail k).b0 = e.b0 := by
  induction k with
  | zero => exact fun _ => rfl
  | succ k ih =>
    intro e
    unfold filterTrail
    split_ifs
    · exact ih _
    · exact ih _
    · rfl

theorem clearTrail_b0 (k : Nat) : ∀ e : Engine, (e.clearTrail k).b0 = e.b0 := by
  induction k with
  | zero => exact fun _ => rfl
  | succ k ih =>
    intro e
    unfold clearTrail
    split_ifs
    · exact ih _
    · rfl

theorem putvoids_b0 (k : Nat) : ∀ e : Engine, (e.putvoids k).b0 = e.b0 := by
  induction k with
  | zero => exact fun _ => rfl
  | succ k ih => exact fun e => ih _

theorem putvars_b0 (ns : List Int) : ∀ e : Engine, (e.putvars ns).b0 = e.b0 := by
  induction ns with
  | nil => exact fun _ => rfl
  | cons n ns ih => exact fun e => ih _

theorem putvals_b0 (ns : List Int) : ∀ e : Engine, (e.putvals ns).b0 = e.b0 := by
  induction ns with
  | nil => exact fun _ => rfl
  | cons n ns ih => exact fun e => ih _

theorem set_b0 (e : Engine) (l : Loc) (s : Source) : (e.set l s).b0 = e.b0 := by
  cases s with
  | float w₁ w₂ => exact trail_b0 _ _
  | _ => rfl

theorem copyWords_b0 (x y : Int) (k : Nat) : ∀ (i : Nat) (e : Engine),
    (e.copyWords x y i k).b0 = e.b0 := by
  induction k with
  | zero => exact fun _ _ => rfl
  | succ k ih => exact fun i e => ih _ _

theorem compareArgs_b0 (x y : Int) (k : Nat) : ∀ e : Engine, (e.compareArgs x y k).b0 = e.b0 := by
  induction k with
  | zero => exact fun _ => rfl
  | succ k ih => exact fun e => ih _

theorem comparePop_b0 (e : Engine) : e.comparePop.b0 = e.b0 := by
  unfold comparePop
  split_ifs <;> rfl

theorem branchIf_b0 (e : Engine) (c : Bool) (k le : Int) : (e.branchIf c k le).b0 = e.b0 := by
  cases c <;> rfl

theorem builtin_b0 (e : Engine) (k : Nat) : (e.builtin P k).b0 = e.b0 := by
  unfold builtin
  split_ifs
  · dsimp only
    split <;> rfl
  · rfl

theorem start_b0 {i : Instr} (hlast : ∀ le, i ≠ .lastcall le) (hchain : ∀ le, i ≠ .chaincall le) :
    (e.start P i).b0 = e.b0 := by
  cases i with
  | lastcall le => exact (hlast le rfl).elim
  | chaincall le => exact (hchain le rfl).elim
  | alloa n₁ n₂ =>
    unfold start
    dsimp only
    split_ifs
    · rfl
    · exact openGeneration_b0 _
    · rfl
  | allod n₁ n₂ =>
    unfold start
    dsimp only
    split_ifs
    · rfl
    · exact openGeneration_b0 _
    · rfl
  | try_ n le =>
    unfold start
    dsimp only
    split_ifs
    · rfl
    · exact makeCframe_b0 e n le
    · rfl
  | neckcut =>
    unfold start
    dsimp only
    split_ifs
    · exact filterTrail_b0 _ _
    · rfl
  | builtin k => exact builtin_b0 e k
  | putvoids k => exact putvoids_b0 k e
  | putvars ns => exact putvars_b0 ns e
  | putvals ns => exact putvals_b0 ns e
  | set l s => exact set_b0 e l s
  | branch e₁ e₂ e₃ e₄ =>
    unfold start
    dsimp only
    split_ifs <;> rfl
  | stationary le =>
    unfold start stationary
    dsimp only
    split_ifs <;> rfl
  | worker le =>
    unfold start worker
    dsimp only
    split_ifs <;> rfl
  | _ => rfl

theorem storeInt_b0 (e : Engine) (n : Int) (r : Option Int) : (e.storeInt n r).b0 = e.b0 := by
  cases r <;> rfl

theorem storeFloat_b0 (e : Engine) (n : Int) (w : Word × Word) : (e.storeFloat n w).b0 = e.b0 :=
  trail_b0 _ _

theorem getcon_b0 (e : Engine) (l : Loc) (w : Word) : (e.getcon l w).b0 = e.b0 := by
  unfold getcon
  split
  · exact bbtrail_b0 _ _
  · split_ifs <;> rfl

theorem getfloat_b0 (e : Engine) (l : Loc) (w₁ w₂ : Word) : (e.getfloat l w₁ w₂).b0 = e.b0 := by
  unfold getfloat
  split
  · exact bbtrail_b0 _ _
  · split_ifs <;> rfl
  · rfl

theorem getlist_b0 (e : Engine) (l : Loc) (nl le : Int) : (e.getlist l nl le).b0 = e.b0 := by
  unfold getlist
  split
  · exact trail_b0 _ _
  · rfl
  · rfl

theorem getvlist_b0 (e : Engine) (l : Loc) : (e.getvlist l).b0 = e.b0 := by
  unfold getvlist
  split
  · exact trail_b0 _ _
  · rfl
  · rfl

theorem getstr_b0 (e : Engine) (l : Loc) (nl : Int) (f : Word) (le : Int) :
    (e.getstr l nl f le).b0 = e.b0 := by
  unfold getstr
  split
  · exact trail_b0 _ _
  · split_ifs
    · exact copyWords_b0 _ _ _ _ _
    · rfl
  · rfl

theorem ariCpu_b0 (D : Doubles) (e : Engine) (op : AriOp) (n₃ : Int) :
    (e.ariCpu D op n₃).b0 = e.b0 := by
  unfold ariCpu
  split
  · exact storeInt_b0 e n₃ _
  · exact storeFloat_b0 e n₃ _
  · exact storeFloat_b0 e n₃ _
  · exact storeFloat_b0 e n₃ _
  · rfl

theorem minus_b0 (D : Doubles) (e : Engine) (n₂ : Int) : (e.minus D n₂).b0 = e.b0 := by
  unfold minus
  split <;> rfl

theorem intCpu_b0 (e : Engine) (op : IntOp) (n₃ : Int) : (e.intCpu op n₃).b0 = e.b0 := by
  unfold intCpu
  split
  · exact storeInt_b0 e n₃ _
  · rfl

theorem intOne_b0 (e : Engine) (d n₂ : Int) : (e.intOne d n₂).b0 = e.b0 := by
  unfold intOne
  split
  · split_ifs <;> rfl
  · rfl

theorem is_b0 (e : Engine) (n₁ : Int) : (e.is n₁).b0 = e.b0 := by
  unfold is
  split
  · exact bbtrail_b0 _ _
  · rfl

theorem doHash_b0 (e : Engine) (te : HashTable) : (e.doHash te).b0 = e.b0 := by
  unfold doHash
  split <;> rfl

theorem ariCmp_b0 (D : Doubles) (e : Engine) (op : CmpOp) (le : Int) :
    (e.ariCmp D op le).b0 = e.b0 := by
  unfold ariCmp
  split
  · exact branchIf_b0 e _ _ _
  · rfl

theorem aricmp_b0 (D : Doubles) (e : Engine) (n₃ : Int) : (e.aricmp D n₃).b0 = e.b0 := by
  unfold aricmp
  split <;> rfl

theorem exec_b0 (i : Instr) : (e.exec P i).b0 = e.b0 := by
  cases i with
  | retry n l => exact (mirror_cf_b0 n _).2
  | getcon l w => exact getcon_b0 e l w
  | getfloat l w₁ w₂ => exact getfloat_b0 e l w₁ w₂
  | getlist l n nl le => exact getlist_b0 e l nl le
  | getvlist l n => exact getvlist_b0 e l
  | getstr l n nl f le => exact getstr_b0 e l nl f le
  | ari op n₁ n₂ n₃ => exact ariCpu_b0 P.doubles e op n₃
  | minus n₁ n₂ => exact minus_b0 P.doubles e n₂
  | int op n₁ n₂ n₃ => exact intCpu_b0 e op n₃
  | inc n₁ n₂ => exact intOne_b0 e 2 n₂
  | dec n₁ n₂ => exact intOne_b0 e (-2) n₂
  | is n₁ n₂ => exact is_b0 e n₁
  | test t n le => exact branchIf_b0 e _ _ _
  | lasttest t le => exact branchIf_b0 e _ _ _
  | hashing n te => exact doHash_b0 e te
  | lasthashing te => exact doHash_b0 e te
  | ifcmp op n₁ n₂ le => exact ariCmp_b0 P.doubles e op le
  | aricmp n₁ n₂ n₃ => exact aricmp_b0 P.doubles e n₃
  | ifcmp0 op n le => exact branchIf_b0 e _ _ _
  | _ => rfl

theorem compareStep_b0 : (e.compareStep P).b0 = e.b0 := by
  unfold compareStep
  split_ifs
  · rfl
  · rfl
  · cases e.verdict P with
    | decided w => rfl
    | next => exact comparePop_b0 e
    | lists p q => exact comparePop_b0 _
    | args p q k => exact (comparePop_b0 _).trans (compareArgs_b0 p q k e)

theorem cleanUp_b0 (i : Instr) : (e.cleanUp i).b0 = e.b0 := by
  cases i with
  | unifiable n₁ n₂ le =>
    unfold cleanUp
    dsimp only
    split_ifs
    · exact filterTrail_b0 _ e
    · exact clearTrail_b0 _ e
  | nonunifiable n₁ n₂ le =>
    unfold cleanUp
    dsimp only
    split_ifs
    · exact clearTrail_b0 _ e
    · exact filterTrail_b0 _ e
  | tryunifiable n₁ n₂ n₃ => exact clearTrail_b0 _ e
  | _ => rfl

theorem allocate_b0 (i : Instr) : (e.allocate i).b0 = e.b0 := by
  cases i with
  | alloa n₁ n₂ =>
    unfold allocate allocOrCollect
    split_ifs <;> rfl
  | allod n₁ n₂ =>
    unfold allocate allocOrCollect
    split_ifs <;> rfl
  | try_ n le =>
    unfold allocate allocOrCollect
    split_ifs
    · exact makeCframe_b0 e n le
    · rfl
  | _ => rfl

theorem afterCompare_b0 (i : Instr) : (e.afterCompare i).b0 = e.b0 := by
  cases i with
  | compare op n₁ n₂ le => exact branchIf_b0 e _ _ _
  | _ => rfl

theorem probing_b0 (i : Instr) : (e.probing i).b0 = e.b0 := by
  cases i with
  | hashing n te =>
    unfold probing probe
    dsimp only
    split_ifs <;> rfl
  | lasthashing te =>
    unfold probing probe
    dsimp only
    split_ifs <;> rfl
  | _ => rfl

theorem detrail_b0 (e : Engine) : e.detrail.b0 = e.b0 := by
  unfold detrail
  dsimp only
  split_ifs <;> rfl

/-- Only the calls and `backtrack` load `b0`. -/
theorem step_b0 (hlast : ∀ le, ¬ Starts P e (.lastcall le))
    (hchain : ∀ le, ¬ Starts P e (.chaincall le)) (hback : e.lbl ≠ .backtrack) :
    (e.step P).b0 = e.b0 := by
  have hunify : e.inUnify → (e.step P).b0 = e.b0 := fun h => by
    rw [step_of_inUnify h]
    exact congrArg Registers.b0 (sameRegs_unifyStep e).registers
  unfold step
  cases hlbl : e.lbl with
  | control => exact start_b0 (fun le hi => hlast le ⟨hlbl, hi⟩) fun le hi => hchain le ⟨hlbl, hi⟩
  | derefAx both =>
    dsimp only
    split_ifs <;> rfl
  | derefBx =>
    dsimp only
    split_ifs <;> rfl
  | exec => exact exec_b0 _
  | axdef op => simpa [step, hlbl, inUnify] using hunify
  | bxdef op => simpa [step, hlbl, inUnify] using hunify
  | cleanUp => exact cleanUp_b0 _
  | compare => exact compareStep_b0
  | compared => exact afterCompare_b0 _
  | gline =>
    dsimp only
    split_ifs
    · exact allocate_b0 _
    · rfl
  | probe => exact probing_b0 _
  | detrail => exact detrail_b0 e
  | backtrack => exact (hback hlbl).elim
  | contextSwitch => rfl
  | trap => rfl

end Engine

end Mlvm
