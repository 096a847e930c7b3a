import Mlvm.Engine.Activation

/-!
# All choice frames of a run

`Live` looks at one choice frame. Here it is put together for all the frames on the stack, down to
an imago that has none: every frame is live with the ones above it, `bb` is the top one, and below
the lowest frame lies the bottom `b` of the stack.

* `Grounded` — each frame has saved the one below.
* `Standing` — the invariant, kept by every operation.
-/

namespace Mlvm

namespace Engine

/-! ## The chain of the frames -/

/-- The top frame of `L`, or the bottom. -/
def topBb (b : Int) : List Engine → Int
  | [] => b
  | s :: _ => s.st + CHOICE_SIZE

/-- Each frame was made on top of the next one. -/
def Grounded (b : Int) : List Engine → Prop
  | [] => True
  | s :: L => s.bb = topBb b L ∧ s.bb ≤ s.gl ∧ s.gl ≤ s.st ∧ Grounded b L

variable {b base : Int} {L l : List Engine}

theorem Grounded.suffix (h : Grounded b L) (hl : l <:+ L) : Grounded b l := by
  induction L with
  | nil =>
    rw [List.suffix_nil.1 hl]
    trivial
  | cons s L ih =>
    rcases List.suffix_cons_iff.1 hl with rfl | hl
    · exact h
    · exact ih h.2.2.2 hl

/-- Frames further down are at lower addresses. -/
theorem Grounded.le (h : Grounded b L) (hl : l <:+ L) : topBb b l ≤ topBb b L := by
  induction L with
  | nil => rw [List.suffix_nil.1 hl]
  | cons s L ih =>
    rcases List.suffix_cons_iff.1 hl with rfl | hl
    · exact le_rfl
    · obtain ⟨hbb, hgl, hst, hL⟩ := h
      have hle := ih hL hl
      show topBb b l ≤ s.st + 7
      omega

theorem Grounded.lt {s : Engine} (h : Grounded b (s :: L)) (hl : l <:+ L) :
    topBb b l < s.st + CHOICE_SIZE := by
  obtain ⟨hbb, hgl, hst, hL⟩ := h
  have hle := hL.le hl
  simp only [CHOICE_SIZE]
  omega

theorem Grounded.eq_of_le (h : Grounded b L) (hl : l <:+ L) (hle : topBb b L ≤ topBb b l) :
    l = L := by
  cases L with
  | nil => exact List.suffix_nil.1 hl
  | cons s L =>
    rcases List.suffix_cons_iff.1 hl with rfl | hl
    · rfl
    · exact absurd (h.lt hl) (not_lt.2 hle)

/-- Loading `bb` with the address of a frame leaves just this frame and those below it. -/
theorem Grounded.framesFrom (h : Grounded b L) (hl : l <:+ L) : framesFrom L (topBb b l) = l := by
  induction L with
  | nil =>
    rw [List.suffix_nil.1 hl]
    rfl
  | cons s L ih =>
    rcases List.suffix_cons_iff.1 hl with rfl | hl
    · simp [Engine.framesFrom, topBb]
    · have hne : s.st + CHOICE_SIZE ≠ topBb b l := (h.lt hl).ne'
      rw [Engine.framesFrom, List.dropWhile_cons_of_pos (by simpa using hne)]
      exact ih h.2.2.2 hl

/-! ## The choice points -/

variable {e : Engine} {cs : List Activation} {F : List ChoicePoint}

theorem frames_append (A B : List ChoicePoint) : frames (A ++ B) = frames A ++ frames B :=
  List.map_append ..

theorem frames_overwrite (O : List Int) (F : List ChoicePoint) :
    frames (F.map (ChoicePoint.overwrite O)) = frames F := by
  simp only [frames, List.map_map]
  rfl

theorem frames_dropWhile (F : List ChoicePoint) (a : Int) :
    frames (F.dropWhile fun c => c.made.st + CHOICE_SIZE != a) = framesFrom (frames F) a := by
  simp only [frames, framesFrom, List.dropWhile_map]
  rfl

/-- The choice points have the frames that the operation leaves. -/
theorem frames_pointsAfter (o : Op) :
    frames (e.pointsAfter cs F o) = e.framesAfter (frames F) o := by
  cases o with
  | choice n l => rfl
  | trust => exact (frames_overwrite _ F.tail).trans List.map_tail
  | neckcut => exact frames_dropWhile F e.b0
  | setBb a => exact frames_dropWhile F a
  | _ => exact frames_overwrite _ F

theorem exists_of_overwrite {O : List Int} {A B : List ChoicePoint} {c : ChoicePoint}
    (h : F.map (ChoicePoint.overwrite O) = A ++ c :: B) : ∃ A₀ c₀ B₀, F = A₀ ++ c₀ :: B₀ ∧
      frames (A₀ ++ [c₀]) = frames (A ++ [c]) ∧ c = c₀.overwrite O := by
  obtain ⟨A₀, R, rfl, rfl, hR⟩ := List.map_eq_append_iff.1 h
  obtain ⟨c₀, B₀, rfl, rfl, rfl⟩ := List.map_eq_cons_iff.1 hR
  refine ⟨A₀, c₀, B₀, rfl, ?_, rfl⟩
  rw [frames_append, frames_append, frames_overwrite]
  rfl

theorem exists_of_dropWhile {a : Int} {A B : List ChoicePoint} {c : ChoicePoint}
    (h : (F.dropWhile fun c => c.made.st + CHOICE_SIZE != a) = A ++ c :: B) : ∃ A₀,
      F = A₀ ++ c :: B ∧ framesFrom (frames (A₀ ++ [c])) a = frames (A ++ [c]) := by
  induction F with
  | nil => simp at h
  | cons d F ih =>
    by_cases hd : d.made.st + CHOICE_SIZE = a
    · rw [List.dropWhile_cons_of_neg (by simpa using hd)] at h
      refine ⟨A, h, ?_⟩
      -- The frame at `a` is the first one.
      cases A with
      | nil =>
        obtain ⟨rfl, -⟩ := List.cons.inj h
        simp [framesFrom, frames, hd]
      | cons d' A =>
        obtain ⟨rfl, -⟩ := List.cons.inj h
        simp [framesFrom, frames, hd]
    · rw [List.dropWhile_cons_of_pos (by simpa using hd)] at h
      obtain ⟨A₀, rfl, hA⟩ := ih h
      refine ⟨d :: A₀, rfl, ?_⟩
      rw [← hA]
      exact List.dropWhile_cons_of_pos (by simpa using hd)

/-- A choice point after an operation is a new one, or was there before. -/
theorem exists_of_pointsAfter {o : Op} {A B : List ChoicePoint} {c : ChoicePoint}
    (h : e.pointsAfter cs F o = A ++ c :: B) :
    (∃ n l, o = .choice n l ∧ A = [] ∧ c = ⟨e, cs, []⟩) ∨
      ∃ A₀ c₀ B₀, F = A₀ ++ c₀ :: B₀ ∧ c = c₀.overwrite (e.overwrites o) ∧
        e.framesAfter (frames (A₀ ++ [c₀])) o = frames (A ++ [c]) := by
  cases o with
  | choice n l =>
    cases A with
    | nil =>
      obtain ⟨rfl, -⟩ := List.cons.inj h
      exact Or.inl ⟨n, l, rfl, rfl, rfl⟩
    | cons d A =>
      obtain ⟨rfl, hF⟩ := List.cons.inj h
      exact Or.inr ⟨A, c, B, hF, rfl, rfl⟩
  | trust =>
    right
    obtain ⟨A₀, c₀, B₀, hF, hframes, hc⟩ := exists_of_overwrite h
    cases F with
    | nil => simp at hF
    | cons d F =>
      refine ⟨d :: A₀, c₀, B₀, ?_, hc, hframes⟩
      rw [List.tail_cons] at hF
      rw [hF]
      rfl
  | neckcut =>
    obtain ⟨A₀, hF, hframes⟩ := exists_of_dropWhile h
    exact Or.inr ⟨A₀, c, B, hF, rfl, hframes⟩
  | setBb a =>
    obtain ⟨A₀, hF, hframes⟩ := exists_of_dropWhile h
    exact Or.inr ⟨A₀, c, B, hF, rfl, hframes⟩
  | _ =>
    obtain ⟨A₀, c₀, B₀, hF, hframes, hc⟩ := exists_of_overwrite h
    exact Or.inr ⟨A₀, c₀, B₀, hF, hc, hframes⟩

/-! ## The invariant -/

/-- All choice frames are live, `bb` is the top one, and the generation line is above it. -/
structure Standing (b base : Int) (F : List ChoicePoint) (e : Engine) : Prop where
  live : ∀ A c B, F = A ++ c :: B → Live c.made (frames (A ++ [c])) c.overwritten e
  grounded : Grounded b (frames F)
  made : ∀ c ∈ F, c.made.stack_base = base
  stack_base : e.stack_base = base
  bottom : base ≤ b
  bb : e.bb = topBb b (frames F)
  gl : e.bb ≤ e.gl
  st : e.gl ≤ e.st

/-- A cut goes to a frame or to the bottom, and RETRY and TRUST have a frame. -/
def Target (b : Int) (e : Engine) (L : List Engine) : Op → Prop
  | .neckcut => ∃ l, l <:+ L ∧ e.b0 = topBb b l
  | .setBb a => ∃ l, l <:+ L ∧ a = topBb b l
  | .retry _ _ => L ≠ []
  | .trust => L ≠ []
  | .builtin _ => False
  | _ => True

theorem Standing.congr {e' : Engine} (h : Standing b base F e) (hcore : e'.core = e.core) :
    Standing b base F e' := by
  have hcore' := hcore
  simp only [core, Core.mk.injEq] at hcore
  obtain ⟨-, -, hbase, hst, -, hbb, hgl⟩ := hcore
  refine ⟨fun A c B hF => (h.live A c B hF).congr hcore', h.grounded, h.made,
    hbase.trans h.stack_base, h.bottom, hbb.trans h.bb, ?_, ?_⟩
  · rw [hbb, hgl]
    exact h.gl
  · rw [hgl, hst]
    exact h.st

/-- The top frame. -/
theorem Standing.top {c : ChoicePoint} (h : Standing b base (c :: F) e) :
    Live c.made [c.made] c.overwritten e ∧ e.Saved base c.made ∧
      e.bb = c.made.st + CHOICE_SIZE := by
  have hlive := h.live [] c F rfl
  refine ⟨hlive, ?_, h.bb⟩
  have hsaved := hlive.saved c.made List.mem_cons_self
  rwa [h.made c List.mem_cons_self] at hsaved

theorem bindBb_registers (e : Engine) (a : Int) (w : Word) :
    ((e.assign a w).bbtrail a).gl = e.gl ∧ ((e.assign a w).bbtrail a).st = e.st ∧
      ((e.assign a w).bbtrail a).bb = e.bb ∧
      ((e.assign a w).bbtrail a).stack_base = e.stack_base := by
  unfold bbtrail
  split_ifs <;> exact ⟨rfl, rfl, rfl, rfl⟩

theorem trail_registers (e : Engine) (a : Int) : (e.trail a).gl = e.gl ∧ (e.trail a).st = e.st ∧
    (e.trail a).bb = e.bb ∧ (e.trail a).stack_base = e.stack_base := by
  unfold trail
  split_ifs <;> exact ⟨rfl, rfl, rfl, rfl⟩

theorem detrail_registers (e : Engine) : e.detrail.gl = e.gl ∧ e.detrail.st = e.st ∧
    e.detrail.bb = e.bb ∧ e.detrail.stack_base = e.stack_base := by
  unfold detrail
  dsimp only
  split_ifs <;> exact ⟨rfl, rfl, rfl, rfl⟩

theorem neckcut_registers (e : Engine) : e.neckcut.gl = (e.mem (e.bb - 6)).addr ∧
    e.neckcut.st = e.st ∧ e.neckcut.bb = e.b0 ∧ e.neckcut.stack_base = e.stack_base := by
  let e₁ : Engine := { e with gl := (e.mem (e.bb - 6)).addr, gp := e.tt, tt := e.BTT }
  have hfilter : ∀ (k : Nat) (d : Engine), (d.filterTrail k).gl = d.gl ∧
      (d.filterTrail k).st = d.st ∧ (d.filterTrail k).stack_base = d.stack_base := by
    intro k
    induction k with
    | zero => exact fun d => ⟨rfl, rfl, rfl⟩
    | succ k ih =>
      intro d
      unfold filterTrail
      split_ifs
      · exact ih _
      · exact ih _
      · exact ⟨rfl, rfl, rfl⟩
  obtain ⟨hgl, hst, hbase⟩ := hfilter e₁.passes e₁
  exact ⟨hgl, hst, rfl, hbase⟩

/-! ## Operations -/

variable {P : Program} {o : Op}

theorem Tidy.orderly (h : e.Tidy base L o) (hl : ∀ s ∈ l, s ∈ L) (hb : ∀ i, o ≠ .builtin i)
    (hleft : e.framesAfter l o ≠ []) : e.Orderly base l o :=
  ⟨hb, fun a ha s hs => h.offFrames a ha s (hl s hs), h.settled, h.label, hleft⟩

theorem Target.not_builtin (h : Target b e L o) : ∀ i, o ≠ .builtin i := by
  rintro i rfl
  exact h

/-- Every choice frame that is left is live. -/
theorem Standing.live_apply (h : Standing b base F e) (hv : o.Valid e)
    (ht : e.Tidy base (frames F) o) (htarget : Target b e (frames F) o)
    {A B : List ChoicePoint} {c : ChoicePoint} (hF : e.pointsAfter cs F o = A ++ c :: B) :
    Live c.made (frames (A ++ [c])) c.overwritten (e.apply P o) := by
  rcases exists_of_pointsAfter hF with ⟨n, l, rfl, rfl, rfl⟩ | ⟨A₀, c₀, B₀, rfl, rfl, hframes⟩
  · obtain ⟨hset, hl⟩ := ht.settled n l rfl
    rw [← h.stack_base] at hset hl
    have hb : b ≤ e.bb := by
      rw [h.bb]
      exact h.grounded.le (List.nil_suffix ..)
    have hready : e.Ready e.stack_base := by
      refine ⟨hset, ?_, h.gl.trans h.st, h.st, hv⟩
      rw [h.stack_base]
      exact h.bottom.trans (hb.trans (h.gl.trans h.st))
    exact live_start hready hl
  · have hord : e.Orderly c₀.made.stack_base (frames (A₀ ++ [c₀])) o := by
      rw [h.made c₀ (List.mem_append_right A₀ List.mem_cons_self)]
      refine ht.orderly (fun s hs => ?_) htarget.not_builtin ?_
      · rw [List.append_cons, frames_append]
        exact List.mem_append_left _ hs
      · rw [hframes, frames_append]
        exact List.append_ne_nil_of_right_ne_nil _ (List.cons_ne_nil _ _)
    have hlive := (h.live A₀ c₀ B₀ rfl).apply (P := P) hv hord
    rwa [hframes] at hlive

theorem Standing.made_apply (h : Standing b base F e) :
    ∀ c ∈ e.pointsAfter cs F o, c.made.stack_base = base := by
  intro c hc
  obtain ⟨A, B, hF⟩ := List.append_of_mem hc
  rcases exists_of_pointsAfter hF with ⟨n, l, rfl, rfl, rfl⟩ | ⟨A₀, c₀, B₀, rfl, rfl, -⟩
  · exact h.stack_base
  · exact h.made c₀ (List.mem_append_right A₀ List.mem_cons_self)

/-- The chain of frames, with `bb` at its top and the generation line above. -/
structure Levels (b base : Int) (L : List Engine) (e : Engine) : Prop where
  grounded : Grounded b L
  stack_base : e.stack_base = base
  bb : e.bb = topBb b L
  gl : e.bb ≤ e.gl
  st : e.gl ≤ e.st

/-- The chain of frames and `bb` stay, and the generation line is not lowered. -/
theorem Standing.raise (h : Standing b base F e) {e' : Engine}
    (hbase : e'.stack_base = e.stack_base) (hbb : e'.bb = e.bb) (hgl : e.gl ≤ e'.gl)
    (hst : e'.gl ≤ e'.st) : Levels b base (frames F) e' :=
  ⟨h.grounded, hbase.trans h.stack_base, hbb.trans h.bb, hbb.le.trans (h.gl.trans hgl), hst⟩

theorem Standing.registers_cut (h : Standing b base F e) (hl : l <:+ frames F) {e' : Engine}
    (hbase : e'.stack_base = e.stack_base) (hbb : e'.bb = topBb b l) (hgl : e'.bb ≤ e'.gl)
    (hst : e'.gl ≤ e'.st) : Levels b base (framesFrom (frames F) (topBb b l)) e' := by
  rw [h.grounded.framesFrom hl]
  exact ⟨h.grounded.suffix hl, hbase.trans h.stack_base, hbb, hgl, hst⟩

theorem Standing.registers_trust (h : Standing b base F e) (ht : e.Tidy base (frames F) .trust)
    (hne : frames F ≠ []) : Levels b base (frames F).tail e.trust := by
  cases F with
  | nil => exact (hne rfl).elim
  | cons c F =>
    obtain ⟨-, hsaved, hbb⟩ := h.top
    obtain ⟨hcbb, hcgl, hcst, hgrounded⟩ := h.grounded
    have hoff : ¬ c.made.InFrame (c.made.cf - 1) := by
      refine ht.offFrames _ ?_ c.made List.mem_cons_self
      rw [overwrites, (hsaved.words hbb).1]
      exact List.mem_cons_self
    rw [trust_spec hsaved hbb hoff]
    exact ⟨hgrounded, h.stack_base, hcbb, hcgl, hcst⟩

theorem Standing.registers_neckcut (h : Standing b base F e) (hv : e.b0 < e.bb)
    (hl : l <:+ frames F) (hb0 : e.b0 = topBb b l) :
    Levels b base (framesFrom (frames F) e.b0) e.neckcut := by
  obtain ⟨hgl, hst, hbb, hbase⟩ := neckcut_registers e
  rw [hb0]
  cases F with
  | nil =>
    rw [List.suffix_nil.1 hl] at hb0
    have := h.bb
    exact absurd (hb0.trans this.symm) (ne_of_lt hv)
  | cons c F =>
    obtain ⟨-, hsaved, htop⟩ := h.top
    obtain ⟨hcbb, hcgl, hcst, hgrounded⟩ := h.grounded
    have hline : e.neckcut.gl = c.made.gl := by
      rw [hgl, (hsaved.words htop).2.2.2.2.2, Word.addr_ref]
    have hsuffix : l <:+ frames F := by
      rcases List.suffix_cons_iff.1 hl with rfl | hl
      · exact absurd (hb0.trans h.bb.symm) (ne_of_lt hv)
      · exact hl
    have hle := hgrounded.le hsuffix
    have hgl₀ := h.gl
    have hst₀ := h.st
    refine h.registers_cut hl hbase (hbb.trans hb0) ?_ ?_
    · rw [hline, hbb, hb0]
      omega
    · rw [hline, hst]
      simp only [CHOICE_SIZE] at htop
      omega

theorem Standing.registers_apply (h : Standing b base F e) (hv : o.Valid e)
    (ht : e.Tidy base (frames F) o) (htarget : Target b e (frames F) o) :
    Levels b base (e.framesAfter (frames F) o) (e.apply P o) := by
  cases o with
  | assign a w =>
    refine h.raise rfl rfl le_rfl ?_
    exact h.st
  | move a a' =>
    refine h.raise rfl rfl le_rfl ?_
    exact h.st
  | push w =>
    refine h.raise rfl rfl le_rfl ?_
    show e.gl ≤ e.st + 1
    have := h.st
    omega
  | pushCell a =>
    refine h.raise rfl rfl le_rfl ?_
    show e.gl ≤ e.st + 1
    have := h.st
    omega
  | setSt s =>
    refine h.raise rfl rfl le_rfl ?_
    exact hv.2
  | bindBb a w =>
    obtain ⟨hgl, hst, hbb, hbase⟩ := bindBb_registers e a w
    refine h.raise hbase hbb hgl.ge ?_
    show ((e.assign a w).bbtrail a).gl ≤ ((e.assign a w).bbtrail a).st
    rw [hgl, hst]
    exact h.st
  | bindGl a w =>
    obtain ⟨hgl, hst, hbb, hbase⟩ := trail_registers (e.assign a w) a
    refine h.raise hbase hbb hgl.ge ?_
    show ((e.assign a w).trail a).gl ≤ ((e.assign a w).trail a).st
    rw [hgl, hst]
    exact h.st
  | trail a =>
    obtain ⟨hgl, hst, hbb, hbase⟩ := trail_registers e a
    refine h.raise hbase hbb hgl.ge ?_
    show (e.trail a).gl ≤ (e.trail a).st
    rw [hgl, hst]
    exact h.st
  | generation =>
    refine h.raise rfl rfl ?_ ?_
    · exact h.st
    · exact le_refl e.st
  | choice n l =>
    obtain ⟨hset, hl⟩ := ht.settled n l rfl
    obtain ⟨mem, hcore, -⟩ := makeCframe_spec e n l base hset.cf hl
    simp only [core, Core.mk.injEq] at hcore
    obtain ⟨-, -, hbase, hst, -, hbb, hgl⟩ := hcore
    refine ⟨⟨h.bb, h.gl, h.st, h.grounded⟩, hbase.trans h.stack_base, hbb, ?_, ?_⟩
    · show (e.makeCframe n l).bb ≤ (e.makeCframe n l).gl
      rw [hbb, hgl]
    · show (e.makeCframe n l).gl ≤ (e.makeCframe n l).st
      rw [hgl, hst]
      omega
  | detrail =>
    obtain ⟨hgl, hst, hbb, hbase⟩ := detrail_registers e
    refine h.raise hbase hbb hgl.ge ?_
    show e.detrail.gl ≤ e.detrail.st
    rw [hgl, hst]
    exact h.st
  | retry n l =>
    obtain ⟨mem, hcore, -⟩ := retry_spec e n l
    simp only [core, Core.mk.injEq] at hcore
    obtain ⟨-, -, hbase, hst, -, hbb, hgl⟩ := hcore
    refine ⟨h.grounded, hbase.trans h.stack_base, hbb.trans h.bb, ?_, ?_⟩
    · show (e.retry n l).bb ≤ (e.retry n l).gl
      rw [hbb, hgl]
    · show (e.retry n l).gl ≤ (e.retry n l).st
      rw [hgl, hst]
      omega
  | trust => exact h.registers_trust ht htarget
  | neckcut =>
    obtain ⟨l, hl, hb0⟩ := htarget
    exact h.registers_neckcut hv hl hb0
  | setBb a =>
    obtain ⟨l, hl, rfl⟩ := htarget
    refine h.registers_cut hl rfl rfl ?_ h.st
    show topBb b l ≤ e.gl
    exact (h.grounded.le hl).trans (h.bb.ge.trans h.gl)
  | builtin i => exact htarget.elim

/-- **Every operation keeps the invariant.** -/
theorem Standing.apply (h : Standing b base F e) (hv : o.Valid e)
    (ht : e.Tidy base (frames F) o) (htarget : Target b e (frames F) o) :
    Standing b base (e.pointsAfter cs F o) (e.apply P o) := by
  obtain ⟨hgrounded, hbase, hbb, hgl, hst⟩ := h.registers_apply (P := P) hv ht htarget
  refine ⟨fun A c B hF => h.live_apply hv ht htarget hF, ?_, h.made_apply, hbase, h.bottom, ?_,
    hgl, hst⟩
  · rw [frames_pointsAfter]
    exact hgrounded
  · rw [frames_pointsAfter]
    exact hbb

def TargetAll (P : Program) (b : Int) : Engine → List Engine → List Op → Prop
  | _, _, [] => True
  | e, L, o :: os => Target b e L o ∧ TargetAll P b (e.apply P o) (e.framesAfter L o) os

theorem Standing.applyAll (os : List Op) : ∀ {e : Engine} {F : List ChoicePoint},
    Standing b base F e → e.ValidAll P os → TidyAll P base e (frames F) os →
    TargetAll P b e (frames F) os → Standing b base (pointsAfterAll P cs e F os)
      (e.applyAll P os) := by
  induction os with
  | nil => exact fun h _ _ _ => h
  | cons o os ih =>
    intro e F h hv ht htarget
    refine ih (h.apply hv.1 ht.1 htarget.1) hv.2 ?_ ?_
    · rw [frames_pointsAfter]
      exact ht.2
    · rw [frames_pointsAfter]
      exact htarget.2

end Engine

end Mlvm
