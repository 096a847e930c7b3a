import Mlvm.Engine.FreeSteps

/-!
# Cuts are local to their clauses

NECKCUT loads `bb` from `b0`, and DEEPCUT from the cell in which DEEPLABEL has kept `b0`. Both leave
the choice frame on top that was there when the predicate was called if `b0` was `bb` after the
call, which LASTCALL and CHAINCALL see to and CALL does not.

* `Nested` — the calls of a history and the frames fit.
* `Sound` — the invariant of a run in which cuts are executed by predicates entered so.
* `cut_local` — the main theorem.
-/

namespace Mlvm

namespace Engine

variable {P : Program} {b : Int} {e : Engine} {F : List ChoicePoint} {L L' : List Engine}
  {cs : List Activation} {a : Activation} {b₀ : Int}

/-! ## Calls and frames -/

/-- The calls are nested above the frames that were there, and `b₀` is the `b0` of the newest one
until it calls a predicate. -/
structure Nested (b : Int) (L : List Engine) (cs : List Activation) (b₀ : Int) : Prop where
  chain : (L :: cs.map Activation.choices).Pairwise fun l l' => l' <:+ l
  bb : ∀ a ∈ cs, a.bb = topBb b a.choices
  callers : ∀ a ∈ cs.tail, a.neck = false
  b0 : ∀ a ∈ cs.head?, a.neck → b₀ = a.b0
  labels : ∀ a ∈ cs, ∀ l ∈ a.labels, l.2 = a.b0

/-- The calls of every choice point fit the frames below it. -/
def Rooted (b : Int) : List ChoicePoint → Prop
  | [] => True
  | c :: F => Nested b (frames F) c.calls c.made.b0 ∧ Rooted b F

theorem Nested.suffix (h : Nested b L cs b₀) (ha : a ∈ cs) : a.choices <:+ L :=
  (List.pairwise_cons.1 h.chain).1 _ (List.mem_map_of_mem ha)

theorem Nested.grow (h : Nested b L cs b₀) (hL : L <:+ L') : Nested b L' cs b₀ := by
  obtain ⟨hhead, htail⟩ := List.pairwise_cons.1 h.chain
  exact ⟨List.pairwise_cons.2 ⟨fun l hl => (hhead l hl).trans hL, htail⟩, h.bb, h.callers, h.b0,
    h.labels⟩

/-- The clause whose call has the frames `a.choices` may cut back to them. -/
theorem Nested.cut (h : Nested b L (a :: cs) b₀) : Nested b a.choices (a :: cs) b₀ := by
  obtain ⟨-, htail⟩ := List.pairwise_cons.1 h.chain
  refine ⟨List.pairwise_cons.2 ⟨fun l hl => ?_, htail⟩, h.bb, h.callers, h.b0, h.labels⟩
  rcases List.mem_cons.1 hl with rfl | hl
  · exact List.suffix_rfl
  · exact (List.pairwise_cons.1 htail).1 l hl

theorem choices_leaveNeck (cs : List Activation) :
    (leaveNeck cs).map Activation.choices = cs.map Activation.choices := by
  cases cs <;> rfl

theorem Nested.call (h : Nested b L cs b₀) {bb b₁ : Int} (hbb : bb = topBb b L) :
    Nested b L (⟨L, bb, b₁, true, []⟩ :: leaveNeck cs) b₁ := by
  have hchain := h.chain
  rw [← choices_leaveNeck] at hchain
  refine ⟨List.pairwise_cons.2 ⟨fun l hl => ?_, hchain⟩, ?_, ?_, ?_, ?_⟩
  · rcases List.mem_cons.1 hl with rfl | hl
    · exact List.suffix_rfl
    · exact (List.pairwise_cons.1 hchain).1 l hl
  · intro a ha
    rcases List.mem_cons.1 ha with rfl | ha
    · exact hbb
    · cases cs with
      | nil => cases ha
      | cons d cs =>
        rcases List.mem_cons.1 ha with rfl | ha
        · exact h.bb d List.mem_cons_self
        · exact h.bb a (List.mem_cons_of_mem d ha)
  · intro a ha
    cases cs with
    | nil => cases ha
    | cons d cs =>
      rcases List.mem_cons.1 ha with rfl | ha
      · rfl
      · exact h.callers a ha
  · intro a ha _
    cases ha
    rfl
  · intro a ha
    rcases List.mem_cons.1 ha with rfl | ha
    · simp
    · cases cs with
      | nil => cases ha
      | cons d cs =>
        rcases List.mem_cons.1 ha with rfl | ha
        · exact h.labels d List.mem_cons_self
        · exact h.labels a (List.mem_cons_of_mem d ha)

theorem Nested.tail_chain (h : Nested b L cs b₀) :
    (L :: cs.tail.map Activation.choices).Pairwise fun l l' => l' <:+ l := by
  cases cs with
  | nil => exact h.chain
  | cons a cs =>
    obtain ⟨hhead, htail⟩ := List.pairwise_cons.1 h.chain
    exact List.pairwise_cons.2 ⟨fun l hl => hhead l (List.mem_cons_of_mem _ hl),
      (List.pairwise_cons.1 htail).2⟩

/-- A last call takes the place of its clause. -/
theorem Nested.lastcall (h : Nested b L cs b₀) {bb : Int} (hbb : bb = topBb b L) :
    Nested b L (⟨L, bb, bb, true, []⟩ :: cs.tail) bb := by
  have hchain := h.tail_chain
  refine ⟨List.pairwise_cons.2 ⟨fun l hl => ?_, hchain⟩, ?_, h.callers, ?_, ?_⟩
  · rcases List.mem_cons.1 hl with rfl | hl
    · exact List.suffix_rfl
    · exact (List.pairwise_cons.1 hchain).1 l hl
  · intro a ha
    rcases List.mem_cons.1 ha with rfl | ha
    · exact hbb
    · exact h.bb a (List.mem_of_mem_tail ha)
  · intro a ha _
    cases ha
    rfl
  · intro a ha
    rcases List.mem_cons.1 ha with rfl | ha
    · simp
    · exact h.labels a (List.mem_of_mem_tail ha)

/-- The clause of the caller goes on. -/
theorem Nested.pop (h : Nested b L cs b₀) (b₁ : Int) : Nested b L cs.tail b₁ := by
  refine ⟨h.tail_chain, fun a ha => h.bb a (List.mem_of_mem_tail ha),
    fun a ha => h.callers a (List.mem_of_mem_tail ha), fun a ha hneck => ?_,
    fun a ha => h.labels a (List.mem_of_mem_tail ha)⟩
  rw [h.callers a (List.mem_of_mem_head? ha)] at hneck
  cases hneck

theorem Nested.label (h : Nested b L cs b₀) (n : Int) (hneck : ∃ a ∈ cs.head?, a.neck) :
    Nested b L (label n b₀ cs) b₀ := by
  cases cs with
  | nil =>
    obtain ⟨a, ha, -⟩ := hneck
    cases ha
  | cons d cs =>
    obtain ⟨a, ha, hneck⟩ := hneck
    cases ha
    have hb0 := h.b0 d rfl hneck
    refine ⟨h.chain, fun a ha => ?_, h.callers, fun a ha _ => ?_, fun a ha => ?_⟩
    · rcases List.mem_cons.1 ha with rfl | ha
      · exact h.bb d List.mem_cons_self
      · exact h.bb a (List.mem_cons_of_mem d ha)
    · cases ha
      exact hb0
    · rcases List.mem_cons.1 ha with rfl | ha
      · intro l hl
        rcases List.mem_cons.1 hl with rfl | hl
        · exact hb0
        · exact h.labels d List.mem_cons_self l hl
      · exact h.labels a (List.mem_cons_of_mem d ha)

theorem Rooted.overwrite (h : Rooted b F) (O : List Int) :
    Rooted b (F.map (ChoicePoint.overwrite O)) := by
  induction F with
  | nil => trivial
  | cons c F ih =>
    refine ⟨?_, ih h.2⟩
    rw [frames_overwrite]
    exact h.1

theorem Rooted.tail (h : Rooted b F) : Rooted b F.tail := by
  cases F with
  | nil => trivial
  | cons c F => exact h.2

theorem Rooted.dropWhile (h : Rooted b F) (p : ChoicePoint → Bool) : Rooted b (F.dropWhile p) := by
  induction F with
  | nil => trivial
  | cons c F ih =>
    by_cases hc : p c
    · rw [List.dropWhile_cons_of_pos hc]
      exact ih h.2
    · rw [List.dropWhile_cons_of_neg hc]
      exact h

/-! ## Operations that remove no frame -/

theorem apply_b0 {o : Op} (h : ∀ k, o ≠ .builtin k) : (e.apply P o).b0 = e.b0 := by
  cases o with
  | bindBb x w => exact bbtrail_b0 _ _
  | bindGl x w => exact trail_b0 _ _
  | trail x => exact trail_b0 _ _
  | choice n l => exact makeCframe_b0 e n l
  | detrail => exact detrail_b0 e
  | retry n l => exact (mirror_cf_b0 n _).2
  | neckcut => exact filterTrail_b0 _ _
  | builtin k => exact (h k rfl).elim
  | _ => rfl

/-- Choice frames are only added. -/
theorem Rooted.free {os : List Op} (hos : ∀ o ∈ os, o.isFree) : ∀ {e : Engine}
    {F : List ChoicePoint}, Rooted b F → Nested b (frames F) cs e.b0 →
    Rooted b (pointsAfterAll P cs e F os) ∧ frames F <:+ frames (pointsAfterAll P cs e F os) := by
  induction os with
  | nil => exact fun hF _ => ⟨hF, List.suffix_rfl⟩
  | cons o os ih =>
    intro e F hF hnested
    have ho := hos o List.mem_cons_self
    have hb0 : (e.apply P o).b0 = e.b0 := apply_b0 fun k => by
      rintro rfl
      cases ho
    have hone : Rooted b (e.pointsAfter cs F o) ∧ frames F <:+ frames (e.pointsAfter cs F o) := by
      cases o with
      | choice n l => exact ⟨⟨hnested, hF⟩, List.suffix_cons e _⟩
      | retry n l => cases ho
      | trust => cases ho
      | neckcut => cases ho
      | setBb x => cases ho
      | builtin k => cases ho
      | _ => exact ⟨hF.overwrite _, (frames_overwrite _ F).symm ▸ List.suffix_rfl⟩
    obtain ⟨hrooted, hsuffix⟩ := hone
    obtain ⟨hrooted', hsuffix'⟩ := ih (fun o' ho' => hos o' (List.mem_cons_of_mem o ho')) hrooted
      (hb0.symm ▸ hnested.grow hsuffix)
    exact ⟨hrooted', hsuffix.trans hsuffix'⟩

/-! ## The invariant -/

/-- The predicate that executes a cut was entered with `b0` at the top choice frame. -/
def Entered (P : Program) (H : History) (e : Engine) : Prop :=
  Cuts P e → ∀ a ∈ H.calls.head?, a.b0 = a.bb

/-- **The invariant of a run.** -/
structure Sound (P : Program) (base : Int) (H : History) (e : Engine) : Prop where
  standing : Standing base base H.points e
  nested : Nested base (frames H.points) H.calls e.b0
  rooted : Rooted base H.points
  label : e.LabelInv P

variable {base : Int} {H : History} {os : List Op} {e₀ : Engine}

theorem Sound.label_step (h : Sound P base H e) : (e.step P).LabelInv P :=
  labelInv_step (h.standing.gl.trans h.standing.st) h.standing.st h.label

/-- The frames after a step. -/
theorem Sound.standing_step (h : Sound P base H e) (hdoes : Does P e os)
    (htidy : TidyAll P base e (frames H.points) os)
    (htarget : TargetAll P base e (frames H.points) os) :
    Standing base base (pointsAfterAll P H.calls e H.points os) (e.step P) := by
  cases hdoes with
  | ops _ =>
    have hvalid := validAll_ops (h.standing.gl.trans h.standing.st) h.standing.st h.label
    exact (h.standing.applyAll _ hvalid htidy htarget).congr (step_core e h.label.cleanUp)
  | builtin _ _ hcore hvalid _ => exact (h.standing.applyAll _ hvalid htidy htarget).congr hcore

/-- A step that removes no frame. -/
theorem Sound.step_free (h : Sound P base H e) (hdoes : Does P e os)
    (htidy : TidyAll P base e (frames H.points) os) (hfree : ∀ o ∈ os, o.isFree)
    {cs : List Activation} (hnested : Nested base (frames H.points) cs (e.step P).b0) :
    Sound P base ⟨cs, pointsAfterAll P H.calls e H.points os⟩ (e.step P) := by
  obtain ⟨hrooted, hsuffix⟩ := h.rooted.free (P := P) hfree h.nested
  exact ⟨h.standing_step hdoes htidy (targetAll_of_free hfree e _),
    hnested.grow hsuffix, hrooted, h.label_step⟩

/-- A cut comes out at the frames of the call. -/
theorem Sound.step_cut (h : Sound P base H e) (hdoes : Does P e os)
    (htidy : TidyAll P base e (frames H.points) os) {cs : List Activation}
    (hcalls : H.calls = a :: cs) (hb0 : (e.step P).b0 = e.b0)
    (hos : os = [] ∧ frames H.points = a.choices ∨
      os = [.neckcut] ∧ e.b0 = topBb base a.choices ∨
      ∃ t, os = [.setBb t] ∧ t = topBb base a.choices) :
    frames (pointsAfterAll P H.calls e H.points os) = a.choices ∧
      Sound P base ⟨H.calls, pointsAfterAll P H.calls e H.points os⟩ (e.step P) := by
  have hnested := h.nested
  rw [hcalls] at hnested
  have hsuffix : a.choices <:+ frames H.points := hnested.suffix List.mem_cons_self
  have hfrom := h.standing.grounded.framesFrom hsuffix
  -- The frames are those of the call, and the cut has a target.
  have hframes : frames (pointsAfterAll P H.calls e H.points os) = a.choices ∧
      Rooted base (pointsAfterAll P H.calls e H.points os) ∧
      TargetAll P base e (frames H.points) os := by
    rcases hos with ⟨rfl, hsame⟩ | ⟨rfl, htop⟩ | ⟨t, rfl, htop⟩
    · exact ⟨hsame, h.rooted, trivial⟩
    · refine ⟨?_, h.rooted.dropWhile _, ⟨_, hsuffix, htop⟩, trivial⟩
      show frames (H.points.dropWhile _) = _
      rw [frames_dropWhile, htop]
      exact hfrom
    · refine ⟨?_, h.rooted.dropWhile _, ⟨_, hsuffix, htop⟩, trivial⟩
      show frames (H.points.dropWhile _) = _
      rw [frames_dropWhile, htop]
      exact hfrom
  obtain ⟨hframes, hrooted, htarget⟩ := hframes
  refine ⟨hframes, h.standing_step hdoes htidy htarget, ?_, hrooted, h.label_step⟩
  show Nested base (frames _) H.calls _
  rw [hframes, hb0, hcalls]
  exact hnested.cut

theorem Does.eq_ops (h : Does P e os) (hb : ∀ k, ¬ Starts P e (.builtin k)) : os = e.ops P := by
  cases h with
  | ops _ => rfl
  | builtin hlbl hcode _ _ _ => exact (hb _ ⟨hlbl, hcode⟩).elim

theorem Starts.not_of_ne {i j : Instr} (h : Starts P e i) (hne : i ≠ j) : ¬ Starts P e j :=
  fun h' => hne (h.2.symm.trans h'.2)

theorem Starts.b0 {i : Instr} (h : Starts P e i) (hlast : ∀ le, i ≠ .lastcall le)
    (hchain : ∀ le, i ≠ .chaincall le) : (e.step P).b0 = e.b0 :=
  step_b0 (fun le => h.not_of_ne (hlast le)) (fun le => h.not_of_ne (hchain le)) fun hlbl => by
    cases h.1.symm.trans hlbl

theorem Starts.callsAfter {i : Instr} (h : Starts P e i) :
    callsAfter P e H = e.callsStart H i := by
  rw [Engine.callsAfter, h.1]
  exact congrArg (e.callsStart H) h.2

/-- **A cut leaves the frames of the call.** -/
theorem Sound.cut (h : Sound P base H e) (hdoes : Does P e os) (hlaid : Laid P base H e os)
    (hent : Entered P H e) (hcut : Cuts P e) (ha : a ∈ H.calls.head?) :
    frames (H.next P e os).points = a.choices ∧ Sound P base (H.next P e os) (e.step P) := by
  obtain ⟨cs, hcalls⟩ : ∃ cs, H.calls = a :: cs := by
    cases hH : H.calls with
    | nil =>
      rw [hH] at ha
      cases ha
    | cons d cs =>
      rw [hH] at ha
      cases ha
      exact ⟨cs, rfl⟩
  have hmem : a ∈ H.calls := hcalls ▸ List.mem_cons_self
  have hbb : a.b0 = topBb base a.choices := (hent hcut a ha).trans (h.nested.bb a hmem)
  rcases hcut with hneck | ⟨n, hdeep⟩
  · obtain ⟨a', ha', hneck'⟩ := hlaid.neckcut hneck
    cases Option.mem_unique ha ha'
    have hb0 : e.b0 = topBb base a.choices := (h.nested.b0 a ha hneck').trans hbb
    have hos := hdoes.eq_ops fun k => hneck.not_of_ne (by simp)
    have hcallsAfter : callsAfter P e H = H.calls := hneck.callsAfter
    rw [History.next, hcallsAfter]
    refine h.step_cut hdoes hlaid.tidy hcalls (hneck.b0 (by simp) (by simp)) ?_
    rw [hos, ops, hneck.1]
    dsimp only
    rw [hneck.2, startOps]
    by_cases hlt : e.bb > e.b0
    · rw [if_pos hlt]
      exact Or.inr (Or.inl ⟨rfl, hb0⟩)
    · rw [if_neg hlt]
      left
      refine ⟨rfl, (h.standing.grounded.eq_of_le (h.nested.suffix hmem) ?_).symm⟩
      rw [← hb0, ← h.standing.bb]
      exact not_lt.1 hlt
  · obtain ⟨a', ha', w, hw, hcell⟩ := hlaid.deepcut n hdeep
    cases Option.mem_unique ha ha'
    have hw' : w = topBb base a.choices := (h.nested.labels a hmem _ hw).trans hbb
    have hos := hdoes.eq_ops fun k => hdeep.not_of_ne (by simp)
    have hcallsAfter : callsAfter P e H = H.calls := hdeep.callsAfter
    rw [History.next, hcallsAfter]
    refine h.step_cut hdoes hlaid.tidy hcalls (hdeep.b0 (by simp) (by simp)) ?_
    rw [hos, ops, hdeep.1]
    dsimp only
    rw [hdeep.2, startOps, hcell]
    exact Or.inr (Or.inr ⟨w, rfl, hw'⟩)

/-! ## The invariant along a run -/

/-- A step that neither cuts nor comes from a choice frame, with what becomes of the calls. -/
theorem Sound.step_start (h : Sound P base H e) (hdoes : Does P e os)
    (hlaid : Laid P base H e os) (hlbl : e.lbl = .control) (hcut : ¬ Cuts P e) :
    Sound P base (H.next P e os) (e.step P) := by
  have hfree : ∀ o ∈ os, o.isFree := by
    cases hdoes with
    | ops hb =>
      refine Free.isFree ⟨hcut, fun k hk => hb k hk.1 hk.2, fun hexec => ?_⟩
      cases hlbl.symm.trans hexec
    | builtin _ _ _ _ hlocal => exact free_of_local hlocal
  refine h.step_free hdoes hlaid.tidy hfree ?_
  have hstep : ∀ i, P.code e.pp = i → (e.step P).b0 = (e.start P i).b0 := fun i hi => by
    rw [step, hlbl, ← hi]
  have hnested := h.nested
  have hbb := h.standing.bb
  cases hi : P.code e.pp with
  | call le =>
    have hstarts : Starts P e (.call le) := ⟨hlbl, hi⟩
    rw [hstarts.callsAfter, hstarts.b0 (by simp) (by simp)]
    exact hnested.call hbb
  | stationary le =>
    have hstarts : Starts P e (.stationary le) := ⟨hlbl, hi⟩
    rw [hstarts.callsAfter, hstarts.b0 (by simp) (by simp)]
    exact hnested.call hbb
  | worker le =>
    have hstarts : Starts P e (.worker le) := ⟨hlbl, hi⟩
    rw [hstarts.callsAfter, hstarts.b0 (by simp) (by simp)]
    exact hnested.call hbb
  | lastcall le =>
    have hstarts : Starts P e (.lastcall le) := ⟨hlbl, hi⟩
    rw [hstarts.callsAfter, hstep _ hi]
    exact hnested.lastcall hbb
  | chaincall le =>
    have hstarts : Starts P e (.chaincall le) := ⟨hlbl, hi⟩
    rw [hstarts.callsAfter, hstep _ hi]
    exact hnested.lastcall hbb
  | proceed =>
    have hstarts : Starts P e .proceed := ⟨hlbl, hi⟩
    rw [hstarts.callsAfter]
    exact hnested.pop _
  | return_ =>
    have hstarts : Starts P e .return_ := ⟨hlbl, hi⟩
    rw [hstarts.callsAfter]
    exact hnested.pop _
  | deeplabel n =>
    have hstarts : Starts P e (.deeplabel n) := ⟨hlbl, hi⟩
    rw [hstarts.callsAfter, hstarts.b0 (by simp) (by simp)]
    exact hnested.label n (hlaid.deeplabel n hstarts)
  | _ =>
    have hstarts : Starts P e _ := ⟨hlbl, hi⟩
    rw [hstarts.callsAfter, hstarts.b0 (by simp) (by simp)]
    exact hnested

/-- A step at another label than `control` and `backtrack` leaves the calls alone. -/
theorem callsAfter_of_ne (hlbl : e.lbl ≠ .control) (hback : e.lbl ≠ .backtrack) :
    callsAfter P e H = H.calls := by
  unfold callsAfter
  split
  · exact (hlbl ‹_›).elim
  · exact (hback ‹_›).elim
  · rfl

theorem b0_of_ne (hlbl : e.lbl ≠ .control) (hback : e.lbl ≠ .backtrack) :
    (e.step P).b0 = e.b0 :=
  step_b0 (fun _ h => hlbl h.1) (fun _ h => hlbl h.1) hback

/-- RETRY and TRUST on the frame that the run has come back to. -/
theorem Sound.step_alternative (h : Sound P base H e) (hdoes : Does P e os)
    (hlaid : Laid P base H e os) (hlbl : e.lbl = .exec)
    (hi : P.code e.pp = .trust ∨ ∃ n l, P.code e.pp = .retry n l) :
    Sound P base (H.next P e os) (e.step P) := by
  have hcontrol : e.lbl ≠ .control := by simp [hlbl]
  have hback : e.lbl ≠ .backtrack := by simp [hlbl]
  obtain ⟨c, hc, hcalls⟩ := hlaid.alternative hlbl hi
  obtain ⟨F, hF⟩ : ∃ F, H.points = c :: F := by
    cases hH : H.points with
    | nil =>
      rw [hH] at hc
      cases hc
    | cons d F =>
      rw [hH] at hc
      cases hc
      exact ⟨F, rfl⟩
  have hne : frames H.points ≠ [] := by
    rw [hF]
    exact List.cons_ne_nil _ _
  have hos := hdoes.eq_ops fun k hk => hcontrol hk.1
  rw [ops, hlbl] at hos
  dsimp only at hos
  have hnested := h.nested
  rw [History.next, callsAfter_of_ne hcontrol hback]
  rcases hi with hi | ⟨n, l, hi⟩
  · have hos : os = [.trust] := by rw [hos, hi]; rfl
    subst hos
    have hrooted := h.rooted
    rw [hF] at hrooted
    refine ⟨h.standing_step hdoes hlaid.tidy ⟨hne, trivial⟩, ?_, (h.rooted.tail).overwrite _,
      h.label_step⟩
    show Nested base (frames (H.points.tail.map _)) H.calls _
    rw [frames_overwrite, b0_of_ne hcontrol hback, hF, List.tail_cons]
    have hchain := hrooted.1.chain
    rw [← hcalls] at hchain
    exact ⟨hchain, hnested.bb, hnested.callers, hnested.b0, hnested.labels⟩
  · have hos : os = [.retry n l] := by rw [hos, hi]; rfl
    subst hos
    refine ⟨h.standing_step hdoes hlaid.tidy ⟨hne, trivial⟩, ?_, h.rooted.overwrite _,
      h.label_step⟩
    show Nested base (frames (H.points.map _)) H.calls _
    rw [frames_overwrite, b0_of_ne hcontrol hback]
    exact hnested

/-- `backtrack` goes on with the calls and the `b0` of the top frame. -/
theorem Sound.step_backtrack (h : Sound P base H e) (hdoes : Does P e os)
    (hlaid : Laid P base H e os) (hlbl : e.lbl = .backtrack) :
    Sound P base (H.next P e os) (e.step P) := by
  have hos : os = [] := by
    rw [hdoes.eq_ops fun k hk => by simp [hk.1] at hlbl, ops, hlbl]
  subst hos
  have hstanding := h.standing_step hdoes hlaid.tidy trivial
  have hstep : e.step P = e.backtrack := by rw [step, hlbl]
  refine ⟨hstanding, ?_, h.rooted, h.label_step⟩
  show Nested base (frames H.points) (callsAfter P e H) _
  rw [callsAfter, hlbl, hstep, backtrack]
  dsimp only
  cases hF : H.points with
  | nil =>
    have hbb : e.bb ≤ e.stack_base := by
      rw [h.standing.bb, h.standing.stack_base, hF]
      exact le_rfl
    rw [if_pos hbb]
    have hnested := h.nested
    rwa [hF] at hnested
  | cons c F =>
    have hstand := h.standing
    have hrooted := h.rooted
    rw [hF] at hstand hrooted
    obtain ⟨-, hsaved, htop⟩ := hstand.top
    have hlt : base < e.bb := by
      rw [htop]
      exact hstand.grounded.lt (List.nil_suffix ..)
    have hb0 : (e.mem (e.bb - 4)).addr = c.made.b0 := by
      rw [(hsaved.words htop).2.2.2.2.1, Word.addr_ref]
    rw [if_neg (by rw [hstand.stack_base]; exact not_le.2 hlt)]
    have hnested := hrooted.1.grow (List.suffix_cons c.made _)
    rw [← hb0] at hnested
    split_ifs
    · exact hnested
    · exact hnested

/-- **Every step keeps the invariant.** -/
theorem Sound.step (h : Sound P base H e) (hdoes : Does P e os) (hlaid : Laid P base H e os)
    (hent : Entered P H e) : Sound P base (H.next P e os) (e.step P) := by
  by_cases hcut : Cuts P e
  · have hcall : ∃ a, a ∈ H.calls.head? := by
      rcases hcut with hneck | ⟨n, hdeep⟩
      · obtain ⟨a, ha, -⟩ := hlaid.neckcut hneck
        exact ⟨a, ha⟩
      · obtain ⟨a, ha, -⟩ := hlaid.deepcut n hdeep
        exact ⟨a, ha⟩
    obtain ⟨a, ha⟩ := hcall
    exact (h.cut hdoes hlaid hent hcut ha).2
  by_cases hlbl : e.lbl = .control
  · exact h.step_start hdoes hlaid hlbl hcut
  by_cases hback : e.lbl = .backtrack
  · exact h.step_backtrack hdoes hlaid hback
  by_cases halt : e.lbl = .exec ∧ (P.code e.pp = .trust ∨ ∃ n l, P.code e.pp = .retry n l)
  · exact h.step_alternative hdoes hlaid halt.1 halt.2
  have hos := hdoes.eq_ops fun k hk => hlbl hk.1
  have hfree : ∀ o ∈ os, o.isFree := by
    rw [hos]
    exact Free.isFree ⟨hcut, fun k hk => hlbl hk.1, fun hexec hi => halt ⟨hexec, hi⟩⟩
  refine h.step_free hdoes hlaid.tidy hfree ?_
  rw [callsAfter_of_ne hlbl hback, b0_of_ne hlbl hback]
  exact h.nested

theorem sound_initial (h : Loaded e₀) : Sound P e₀.stack_base (History.initial e₀) e₀ := by
  refine ⟨⟨fun A c B hF => ?_, trivial, by simp [History.initial], rfl, le_rfl, h.bb, ?_, ?_⟩,
    ⟨?_, ?_, ?_, ?_, ?_⟩, trivial, labelInv_of_atRest (Or.inl h.lbl)⟩
  · simp [History.initial] at hF
  · rw [h.bb, h.gl]
  · rw [h.gl]
    exact h.st
  · simp [History.initial, frames]
  · intro a ha
    rw [List.mem_singleton.1 ha]
    exact h.bb
  · simp [History.initial]
  · intro a ha _
    cases ha
    rfl
  · intro a ha
    rw [List.mem_singleton.1 ha]
    simp

theorem enter_core (e : Engine) : e.enter.core = e.core ∧ e.enter.b0 = e.b0 := by
  unfold enter
  dsimp only
  split <;> exact ⟨rfl, rfl⟩

/-- **The invariant holds along a run.** -/
theorem Traces.sound (hload : Loaded e₀)
    (hrun : Traces P (fun H e os => Laid P e₀.stack_base H e os ∧ Entered P H e) e₀ H e) :
    Sound P e₀.stack_base H e := by
  induction hrun with
  | start => exact sound_initial hload
  | step _ hdoes hmeets ih => exact ih.step hdoes hmeets.1 hmeets.2
  | resume _ _ _ ih =>
    obtain ⟨hcore, hb0⟩ := enter_core _
    exact ⟨ih.standing.congr hcore, hb0.symm ▸ ih.nested, ih.rooted, labelInv_enter⟩

/-! ## Cuts -/

/-- **What a cut in the clause of `a` should leave**: the choice frames of the call, with `gl` and
the trail as RETRY, TRUST and the bindings need them. -/
structure CutLocal (base : Int) (a : Activation) (H : History) (e : Engine) : Prop where
  bb : e.bb = a.bb
  choices : frames H.points = a.choices
  gl : e.bb ≤ e.gl
  st : e.gl ≤ e.st
  saved : ∀ c ∈ H.points, e.Saved base c.made
  /-- The records of a choice frame name cells at or below the generation line. -/
  records : ∀ c ∈ H.points, ∀ t x, e.tt < t → t ≤ c.made.tt → e.trl t = .ref x → x ≤ e.gl
  /-- A variable that is older than a choice frame is unbound, or its binding is recorded. -/
  trailed : ∀ c ∈ H.points, ∀ x ≤ c.made.st, x ∉ c.overwritten → c.made.mem x = .ref x →
    e.mem x = .ref x ∨ e.Recorded c.made.tt x

theorem Sound.cutLocal (h : Sound P base H e) (hframes : frames H.points = a.choices)
    (hbb : a.bb = topBb base a.choices) : CutLocal base a H e := by
  have hstanding := h.standing
  have hlive : ∀ c ∈ H.points, ∃ A, Live c.made (frames (A ++ [c])) c.overwritten e :=
      fun c hc => by
    obtain ⟨A, B, hF⟩ := List.append_of_mem hc
    exact ⟨A, hstanding.live A c B hF⟩
  refine ⟨?_, hframes, hstanding.gl, hstanding.st, fun c hc => ?_, fun c hc t x ht ht' hx => ?_,
    fun c hc x hx hO hu => ?_⟩
  · rw [hstanding.bb, hframes, hbb]
  · obtain ⟨A, hlive⟩ := hlive c hc
    have hsaved := hlive.saved c.made hlive.mem_base
    rwa [hstanding.made c hc] at hsaved
  · obtain ⟨A, hlive⟩ := hlive c hc
    exact hlive.records e List.mem_cons_self t x ht ht' hx
  · obtain ⟨A, hlive⟩ := hlive c hc
    exact (hlive.kept x hx hO).unbound hu

/-- **Cuts are local.** When every predicate that executes a cut was entered with `b0` at the top
choice frame, a cut leaves the choice frames that were there when its predicate was called. -/
theorem cut_local (hload : Loaded e₀)
    (hrun : Traces P (fun H e os => Laid P e₀.stack_base H e os ∧ Entered P H e) e₀ H e)
    (hdoes : Does P e os) (hlaid : Laid P e₀.stack_base H e os) (hent : Entered P H e)
    (hcut : Cuts P e) (ha : a ∈ H.calls.head?) :
    CutLocal e₀.stack_base a (H.next P e os) (e.step P) := by
  have hsound := hrun.sound hload
  obtain ⟨hframes, hsound'⟩ := hsound.cut hdoes hlaid hent hcut ha
  exact hsound'.cutLocal hframes (hsound.nested.bb a (List.mem_of_mem_head? ha))

/-! ## A predicate with two clauses that calls another one -/

/-- The entry of the imago goes on to a predicate at `10` with a second clause at `20`. After its
TRY comes `i`; at `16` it calls a predicate whose one clause starts with NECKCUT. -/
def calling (i : Instr) : Program :=
  { twoClauses i with
    code := fun pp => if pp = 0 then .chaincall 10 else if pp = 10 then .try_ 0 20 else
      if pp = 13 then i else if pp = 16 then .call 30 else if pp = 30 then .neckcut else
      if pp = 20 then .trust else .fail }

theorem called_loaded : Loaded called := ⟨rfl, rfl, rfl, by decide, rfl⟩

/-- After the last call. -/
def chained : Engine := { called with pp := 10 }

/-- After the TRY of the predicate. -/
def choosing : Engine :=
  { chained with
    mem := (chained.makeCframe 0 20).mem
    trl := Function.update called.trl 200 (.str 57)
    pp := 13
    af := 57
    st := 57
    bb := 57
    gl := 57
    tt := 199 }

/-- The predicate was called without choice frames. -/
def entry : Activation := ⟨[], 40, 40, true, []⟩

theorem Traces.next {C : History → Engine → List Op → Prop} (h : Traces P C e₀ H e)
    (hdoes : Does P e os) (hmeets : C H e os) {H' : History} {e' : Engine}
    (hH : H.next P e os = H') (he : e.step P = e') : Traces P C e₀ H' e' := by
  subst hH he
  exact h.step hdoes hmeets

theorem Traces.mono {C C' : History → Engine → List Op → Prop}
    (hC : ∀ H e os, C H e os → C' H e os) (h : Traces P C e₀ H e) : Traces P C' e₀ H e := by
  induction h with
  | start => exact .start
  | step _ hdoes hmeets ih => exact ih.step hdoes (hC _ _ _ hmeets)
  | resume _ hlbl hstatus ih => exact ih.resume hlbl hstatus

/-- The layout says nothing else about other instructions. -/
theorem Laid.of_tidy (htidy : TidyAll P base e (frames H.points) os)
    (hneck : ¬ Starts P e .neckcut) (hlabel : ∀ n, ¬ Starts P e (.deeplabel n))
    (hdeep : ∀ n, ¬ Starts P e (.deepcut n)) (hexec : e.lbl ≠ .exec) :
    Laid P base H e os ∧ Entered P H e :=
  ⟨⟨htidy, fun h => (hneck h).elim, fun n h => (hlabel n h).elim, fun n h => (hdeep n h).elim,
    fun h => (hexec h).elim⟩, fun h => (h.elim hneck fun ⟨n, h⟩ => hdeep n h).elim⟩

/-- The run to the first clause of the predicate. -/
theorem choosing_run (i : Instr) :
    Traces (calling i) (fun H e os => Laid (calling i) 40 H e os ∧ Entered (calling i) H e) called
      ⟨[entry], [⟨chained, [entry], []⟩]⟩ choosing := by
  have hchain : Starts (calling i) called (.chaincall 10) := ⟨rfl, rfl⟩
  have htry : Starts (calling i) chained (.try_ 0 20) := ⟨rfl, rfl⟩
  have hdoes : Does (calling i) called [] := .ops fun k _ => by simp [hchain.2]
  have hdoes' : Does (calling i) chained [.choice 0 20] := .ops fun k _ => by simp [htry.2]
  have htidy : TidyAll (calling i) 40 called (frames (History.initial called).points) [] := trivial
  have hrun : Traces (calling i)
      (fun H e os => Laid (calling i) 40 H e os ∧ Entered (calling i) H e)
      called ⟨[entry], []⟩ chained :=
    Traces.start.next hdoes (Laid.of_tidy htidy (hchain.not_of_ne (by simp))
      (fun n => hchain.not_of_ne (by simp)) (fun n => hchain.not_of_ne (by simp)) (by decide)) rfl
      rfl
  refine hrun.next hdoes' (Laid.of_tidy ⟨⟨?_, ?_, ?_⟩, trivial⟩
    (htry.not_of_ne (by simp)) (fun n => htry.not_of_ne (by simp))
    (fun n => htry.not_of_ne (by simp)) (by decide)) rfl rfl
  · simp [overwrites]
  · intro n l h
    cases h
    exact ⟨⟨by decide, by decide, by decide⟩, by decide⟩
  · intro n l h
    cases h

/-- NECKCUT in the first clause of the predicate leaves the imago without choice frames. -/
theorem cut_local_choosing : CutLocal 40 entry ⟨[entry], []⟩
    (choosing.step (calling .neckcut)) := by
  have hneck : Starts (calling .neckcut) choosing .neckcut := ⟨rfl, rfl⟩
  have hdoes : Does (calling .neckcut) choosing [.neckcut] := .ops fun k _ => by simp [hneck.2]
  have hlaid : Laid (calling .neckcut) 40 ⟨[entry], [⟨chained, [entry], []⟩]⟩ choosing
      [.neckcut] := by
    refine ⟨⟨⟨by simp [overwrites], fun _ _ h => (nomatch h), fun _ _ h => (nomatch h)⟩, trivial⟩,
      fun _ => ⟨entry, rfl, rfl⟩, fun n h => ?_, fun n h => ?_, fun h => (nomatch h)⟩
    · exact (hneck.not_of_ne (by simp) h).elim
    · exact (hneck.not_of_ne (by simp) h).elim
  have hent : Entered (calling .neckcut) ⟨[entry], [⟨chained, [entry], []⟩]⟩ choosing := by
    intro _ a ha
    cases ha
    rfl
  exact cut_local called_loaded (choosing_run .neckcut) hdoes hlaid hent (Or.inl hneck) rfl

/-- `alloa` in the first clause. -/
def allocating : Engine := { choosing with af := 200, lbl := .gline }

def allocated : Engine :=
  { choosing with
    mem := Function.update (Function.update choosing.mem 60 (.ref 49)) 58 (.ref 199)
    pp := 16
    af := 60
    st := 60 }

/-- The call of the other predicate, with the choice frame of the first one on top. -/
def calledAgain : Engine :=
  { allocated with
    mem := Function.update allocated.mem 59 (.ref 18)
    pp := 30
    cf := 60 }

def inner : Activation := ⟨[chained], 57, 40, true, []⟩

/-- **CALL leaves `b0` behind.** NECKCUT in a predicate that was entered by CALL removes the choice
frame of its caller. -/
theorem call_cuts_caller : ¬ ∀ (P : Program) (e₀ e : Engine) (H : History) (os : List Op)
    (a : Activation), Loaded e₀ → Traces P (Laid P e₀.stack_base) e₀ H e → Does P e os →
    Laid P e₀.stack_base H e os → Cuts P e → a ∈ H.calls.head? →
    CutLocal e₀.stack_base a (H.next P e os) (e.step P) := by
  intro h
  let P := calling (.alloa 0 3)
  let points : List ChoicePoint := [⟨chained, [entry], []⟩]
  have halloa : Starts P choosing (.alloa 0 3) := ⟨rfl, rfl⟩
  have hcall : Starts P allocated (.call 30) := ⟨rfl, rfl⟩
  have hneck : Starts P calledAgain .neckcut := ⟨rfl, rfl⟩
  have hoff : ∀ x, 57 < x → ∀ s ∈ frames points, ¬ s.InFrame x := by
    intro x hx s hs hin
    rw [List.mem_singleton.1 hs] at hin
    exact absurd (hin.2 : x ≤ 57) (not_le.2 hx)
  have htidy : ∀ (e : Engine) (x : Int) (w : Word), 57 < x →
      e.Tidy 40 (frames points) (.assign x w) := by
    intro e x w hx
    refine ⟨fun y hy s hs => ?_, fun _ _ h => (by cases h), fun _ _ h => (by cases h)⟩
    rw [List.mem_singleton.1 hy]
    exact hoff x hx s hs
  have hset : ∀ (e : Engine) (x : Int), e.Tidy 40 (frames points) (.setSt x) := fun e x =>
    ⟨by simp [overwrites], fun _ _ h => (by cases h), fun _ _ h => (by cases h)⟩
  let C : History → Engine → List Op → Prop := fun H e os => Laid P 40 H e os ∧ Entered P H e
  have hrun₁ : Traces P C called ⟨[entry], points⟩ choosing := choosing_run (.alloa 0 3)
  have hdoes₁ : Does P choosing [] := .ops fun k _ => by simp [halloa.2]
  have hlaid₁ : C ⟨[entry], points⟩ choosing [] :=
    Laid.of_tidy trivial (halloa.not_of_ne (by simp)) (fun n => halloa.not_of_ne (by simp))
      (fun n => halloa.not_of_ne (by simp)) (by decide)
  have hrun₂ : Traces P C called ⟨[entry], points⟩ allocating := hrun₁.next hdoes₁ hlaid₁ rfl rfl
  have hgline : ∀ i, ¬ Starts P allocating i := fun i h => absurd h.1 (by decide)
  have hdoes₂ : Does P allocating (allocating.aframeOps 3) := .ops fun k hk => by cases hk
  have hlaid₂ : C ⟨[entry], points⟩ allocating (allocating.aframeOps 3) :=
    Laid.of_tidy ⟨hset _ _, htidy _ _ _ (by decide), htidy _ _ _ (by decide), trivial⟩
      (hgline _) (fun n => hgline _) (fun n => hgline _) (by decide)
  have hrun₃ : Traces P C called ⟨[entry], [⟨chained, [entry], [58, 60]⟩]⟩ allocated :=
    hrun₂.next hdoes₂ hlaid₂ rfl rfl
  have hdoes₃ : Does P allocated [.assign 59 (.ref 18)] := .ops fun k _ => by simp [hcall.2]
  have hlaid₃ : C ⟨[entry], [⟨chained, [entry], [58, 60]⟩]⟩ allocated [.assign 59 (.ref 18)] :=
    Laid.of_tidy ⟨htidy _ _ _ (by decide), trivial⟩ (hcall.not_of_ne (by simp))
      (fun n => hcall.not_of_ne (by simp)) (fun n => hcall.not_of_ne (by simp)) (by decide)
  have hrun₄ : Traces P C called
      ⟨[inner, { entry with neck := false }], [⟨chained, [entry], [59, 58, 60]⟩]⟩ calledAgain :=
    hrun₃.next hdoes₃ hlaid₃ rfl rfl
  have hdoes₄ : Does P calledAgain [.neckcut] := .ops fun k _ => by simp [hneck.2]
  have hlaid₄ : Laid P 40
      ⟨[inner, { entry with neck := false }], [⟨chained, [entry], [59, 58, 60]⟩]⟩ calledAgain
      [.neckcut] := by
    refine ⟨⟨⟨by simp [overwrites], fun _ _ h => (by cases h), fun _ _ h => (by cases h)⟩, trivial⟩,
      fun _ => ⟨inner, rfl, rfl⟩, fun n h => ?_, fun n h => ?_, fun h => (by cases h)⟩
    · exact (hneck.not_of_ne (by simp) h).elim
    · exact (hneck.not_of_ne (by simp) h).elim
  have hlocal := h P called calledAgain _ _ inner called_loaded
    (hrun₄.mono fun _ _ _ h => h.1) hdoes₄ hlaid₄ (Or.inl hneck) rfl
  -- The choice frame of the caller, at 57, is gone.
  have hbb : (calledAgain.step P).bb = 40 := rfl
  exact absurd (hbb.symm.trans hlocal.bb) (by decide)

end Engine

end Mlvm
