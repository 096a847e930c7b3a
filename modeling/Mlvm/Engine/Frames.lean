import Mlvm.Engine.Validity
import Mathlib.Data.List.Chain

/-!
# Choice frames and the trail

What holds between the choice frames on the stack, the segments of the trail that belong to them and
the cells below them. The frames that a TRY made and that are not removed yet are kept as a list,
newest first, of the states in which the TRYs were executed; the last one is the TRY that is looked
at, executed in `e₀`.

* `Saved` — a frame holds the registers of its TRY.
* `Linked` — how the registers of one state stand to the frame below.
* `Kept` — a cell below the frame holds its old word, or the trail knows of it.
* `Live` — the invariant, with one lemma for each operation.
-/

namespace Mlvm

namespace Engine

/-- The choice frame of a TRY that was executed in `s`. -/
def InFrame (s : Engine) (a : Int) : Prop := s.st < a ∧ a ≤ s.st + CHOICE_SIZE

/-- The registers that a choice frame saves point below it, and its continuation is code. -/
structure Settled (base : Int) (s : Engine) : Prop where
  cf : s.cf ≤ s.st
  b0 : s.b0 ≤ s.st
  ccp : (s.mem (s.cf - 1)).addr < base

/-- The state is fit for a TRY. -/
structure Ready (base : Int) (s : Engine) : Prop extends Settled base s where
  base : base ≤ s.st
  bb : s.bb ≤ s.st
  gl : s.gl ≤ s.st
  room : CHOICE_SIZE * GC_FACTOR ≤ s.tt - s.st

/-- The choice frame of a TRY that was executed in `s` is intact. -/
structure Saved (base : Int) (e s : Engine) : Prop where
  cf : e.mem (s.st + 7) = .ref s.cf
  ccp : e.mem (s.st + 6) = s.mem (s.cf - 1)
  tt : e.mem (s.st + 5) = .ref s.tt
  bb : e.mem (s.st + 4) = .ref s.bb
  b0 : e.mem (s.st + 3) = .ref s.b0
  next : ∃ l < base, e.mem (s.st + 2) = .ref l
  gl : e.mem (s.st + 1) = .ref s.gl

/-- The state `s` has the choice frame of `s'` on top. -/
structure Linked (s s' : Engine) : Prop where
  bb : s.bb = s'.st + CHOICE_SIZE
  gl : s.bb ≤ s.gl
  st : s.gl ≤ s.st
  tt : s.tt ≤ s'.tt

/-- The trail holds the cell above the slot `top`. -/
def Recorded (e : Engine) (top a : Int) : Prop := ∃ t, e.tt < t ∧ t ≤ top ∧ e.trl t = .ref a

/-- A cell that was unbound in `e₀` is unbound or recorded; a cell that was bound holds the same
word and is not recorded. -/
structure Kept (e₀ e : Engine) (a : Int) : Prop where
  unbound : e₀.mem a = .ref a → e.mem a = .ref a ∨ e.Recorded e₀.tt a
  bound : e₀.mem a ≠ .ref a → e.mem a = e₀.mem a ∧ ¬ e.Recorded e₀.tt a

/-- The frames `L`, the trail and the cells that are not among the overwritten ones `O` fit. -/
structure Traced (e₀ : Engine) (L : List Engine) (O : List Int) (e : Engine) : Prop where
  base : e.stack_base = e₀.stack_base
  chain : (e :: L).IsChain Linked
  ready : ∀ s ∈ L, s.Ready e₀.stack_base
  saved : ∀ s ∈ L, e.Saved e₀.stack_base s
  records : ∀ s ∈ e :: L, ∀ t a, s.tt < t → t ≤ e₀.tt → e.trl t = .ref a → a ≤ s.gl
  offFrames : ∀ s ∈ L, ∀ a, e.Recorded e₀.tt a → ¬ s.InFrame a
  kept : ∀ a ≤ e₀.st, a ∉ O → Kept e₀ e a

/-- **The invariant**: the frame looked at is still there. -/
structure Live (e₀ : Engine) (L : List Engine) (O : List Int) (e : Engine) : Prop
    extends Traced e₀ L O e where
  last : L.getLast? = some e₀

variable {e₀ e : Engine} {L : List Engine} {O : List Int}

/-! ## What the chain says -/

/-- What `Linked` says of frames further below. -/
def Over (s s' : Engine) : Prop :=
  s'.st + CHOICE_SIZE ≤ s.gl ∧ s'.st + CHOICE_SIZE ≤ s.bb ∧ s.gl ≤ s.st ∧ s.bb ≤ s.st ∧ s.tt ≤ s'.tt

theorem Linked.over {s s' : Engine} (h : Linked s s') : Over s s' := by
  obtain ⟨hbb, hgl, hst, htt⟩ := h
  exact ⟨by omega, by omega, by omega, by omega, htt⟩

instance : Trans Over Over Over where
  trans := by
    intro s s' s'' h h'
    unfold Over CHOICE_SIZE at *
    omega

theorem Live.pairwise (h : Live e₀ L O e) : (e :: L).Pairwise Over :=
  List.isChain_iff_pairwise.1 (h.chain.imp fun _ _ hl => hl.over)

theorem Live.over (h : Live e₀ L O e) {s : Engine} (hs : s ∈ L) : Over e s :=
  (List.pairwise_cons.1 h.pairwise).1 s hs

theorem Live.mem_base (h : Live e₀ L O e) : e₀ ∈ L := List.mem_of_getLast? h.last

/-- The frame looked at is the lowest. -/
theorem Live.base_le (h : Live e₀ L O e) {s : Engine} (hs : s ∈ L) :
    e₀.st ≤ s.st ∧ s.tt ≤ e₀.tt := by
  obtain ⟨init, rfl⟩ := List.getLast?_eq_some_iff.1 h.last
  rcases List.mem_append.1 hs with hs | hs
  · have hpair := (List.pairwise_append.1 (List.pairwise_cons.1 h.pairwise).2).2.2 s hs e₀
      (List.mem_singleton.2 rfl)
    obtain ⟨h₁, -, h₃, -, h₅⟩ := hpair
    simp only [CHOICE_SIZE] at h₁
    exact ⟨by omega, h₅⟩
  · rw [List.mem_singleton.1 hs]
    exact ⟨le_rfl, le_rfl⟩

theorem Live.linked (h : Live e₀ L O e) :
    ∃ s L', L = s :: L' ∧ Linked e s ∧ (s :: L').IsChain Linked := by
  cases L with
  | nil => cases h.last
  | cons s L' =>
    obtain ⟨hlinked, hchain⟩ := List.isChain_cons_cons.1 h.chain
    exact ⟨s, L', rfl, hlinked, hchain⟩

/-- The cells looked at are below all frames. -/
theorem Live.bounds (h : Live e₀ L O e) : e₀.st + CHOICE_SIZE ≤ e.bb ∧ e₀.st + CHOICE_SIZE ≤ e.gl ∧
    e.bb ≤ e.gl ∧ e.gl ≤ e.st ∧ e.tt ≤ e₀.tt := by
  obtain ⟨s, L', rfl, hlinked, -⟩ := h.linked
  have hover := h.over h.mem_base
  exact ⟨hover.2.1, hover.1, hlinked.gl, hlinked.st, hover.2.2.2.2⟩

theorem Live.not_inFrame (h : Live e₀ L O e) {a : Int} (ha : a ≤ e₀.st) {s : Engine}
    (hs : s ∈ L) : ¬ s.InFrame a := by
  have := (h.base_le hs).1
  unfold InFrame
  omega

/-- A self-reference is no word of a frame. -/
theorem Saved.not_inFrame {base : Int} {s : Engine} (h : e.Saved base s) (hs : s.Ready base)
    {a : Int} (ha : e.mem a = .ref a) : ¬ s.InFrame a := by
  rintro ⟨hlt, hle⟩
  have hroom := hs.room
  have hcf := hs.cf
  have hb0 := hs.b0
  have hbb := hs.bb
  have hgl := hs.gl
  have hbase := hs.base
  simp only [CHOICE_SIZE, GC_FACTOR] at hle hroom
  have hcases : a = s.st + 7 ∨ a = s.st + 6 ∨ a = s.st + 5 ∨ a = s.st + 4 ∨ a = s.st + 3 ∨
      a = s.st + 2 ∨ a = s.st + 1 := by omega
  rcases hcases with rfl | rfl | rfl | rfl | rfl | rfl | rfl
  · have := Word.ref.inj (ha.symm.trans h.cf)
    omega
  · have hccp := hs.ccp
    rw [← h.ccp, ha, Word.addr_ref] at hccp
    omega
  · have := Word.ref.inj (ha.symm.trans h.tt)
    omega
  · have := Word.ref.inj (ha.symm.trans h.bb)
    omega
  · have := Word.ref.inj (ha.symm.trans h.b0)
    omega
  · obtain ⟨l, hl, hnext⟩ := h.next
    have := Word.ref.inj (ha.symm.trans hnext)
    omega
  · have := Word.ref.inj (ha.symm.trans h.gl)
    omega

/-- A frame stays intact when its words stay. -/
theorem Saved.congr {base : Int} {e' s : Engine} (h : e.Saved base s)
    (hmem : ∀ a, s.InFrame a → e'.mem a = e.mem a) : e'.Saved base s := by
  have hword : ∀ k, 1 ≤ k → k ≤ 7 → e'.mem (s.st + k) = e.mem (s.st + k) := fun k hk hk' =>
    hmem _ ⟨by omega, by simp only [CHOICE_SIZE]; omega⟩
  obtain ⟨l, hl, hnext⟩ := h.next
  exact ⟨(hword 7 (by decide) (by decide)).trans h.cf,
    (hword 6 (by decide) (by decide)).trans h.ccp,
    (hword 5 (by decide) (by decide)).trans h.tt, (hword 4 (by decide) (by decide)).trans h.bb,
    (hword 3 (by decide) (by decide)).trans h.b0,
    ⟨l, hl, (hword 2 (by decide) (by decide)).trans hnext⟩,
    (hword 1 (by decide) (by decide)).trans h.gl⟩

/-- The invariant with fewer cells to look at. -/
theorem Live.mono {O' : List Int} (h : Live e₀ L O e) (hO : ∀ a ∈ O, a ∈ O') : Live e₀ L O' e :=
  { h with kept := fun a ha hO' => h.kept a ha fun hmem => hO' (hO a hmem) }

theorem chain_congr {e' : Engine} (h : (e :: L).IsChain Linked) (hbb : e'.bb = e.bb)
    (hgl : e'.gl = e.gl) (hst : e'.gl ≤ e'.st) (htt : e'.tt ≤ e.tt) :
    (e' :: L).IsChain Linked := by
  cases L with
  | nil => exact List.isChain_singleton e'
  | cons s L =>
    obtain ⟨hlinked, hchain⟩ := List.isChain_cons_cons.1 h
    refine List.isChain_cons_cons.2 ⟨⟨?_, ?_, hst, htt.trans hlinked.tt⟩, hchain⟩
    · rw [hbb, hlinked.bb]
    · rw [hbb, hgl]
      exact hlinked.gl

/-- The invariant is about the core of the state. -/
theorem Live.congr {e' : Engine} (h : Live e₀ L O e) (hcore : e'.core = e.core) :
    Live e₀ L O e' := by
  simp only [core, Core.mk.injEq] at hcore
  obtain ⟨hmem, htrl, hbase, hst, htt, hbb, hgl⟩ := hcore
  have hrec : ∀ a, e'.Recorded e₀.tt a ↔ e.Recorded e₀.tt a := fun a => by
    unfold Recorded
    rw [htt, htrl]
  refine ⟨⟨hbase.trans h.base, ?_, h.ready, fun s hs => ?_, ?_, fun s hs a ha => ?_,
    fun a ha hO => ?_⟩, h.last⟩
  · exact chain_congr h.chain hbb hgl (by rw [hgl, hst]; exact h.bounds.2.2.2.1) htt.le
  · exact (h.saved s hs).congr fun a _ => by rw [hmem]
  · intro s hs t a hs' ht ha
    rw [htrl] at ha
    rcases List.mem_cons.1 hs with rfl | hs
    · rw [hgl]
      exact h.records e List.mem_cons_self t a (by rw [← htt]; exact hs') ht ha
    · exact h.records s (List.mem_cons_of_mem e hs) t a hs' ht ha
  · exact h.offFrames s hs a ((hrec a).1 ha)
  · obtain ⟨hu, hb⟩ := h.kept a ha hO
    refine ⟨fun h₀ => ?_, fun h₀ => ?_⟩
    · rw [hmem, hrec]
      exact hu h₀
    · rw [hmem, hrec]
      exact hb h₀

/-! ## Writes -/

/-- A write outside of the frames, to a cell above, an overwritten one, or one that the trail
knows of. -/
theorem Live.write (h : Live e₀ L O e) {a : Int} (w : Word) (hoff : ∀ s ∈ L, ¬ s.InFrame a)
    (ha : a ≤ e₀.st → a ∉ O → e₀.mem a = .ref a ∧ e.Recorded e₀.tt a) :
    Live e₀ L O (e.assign a w) := by
  refine ⟨⟨h.base, ?_, h.ready, fun s hs => ?_, ?_, h.offFrames, fun b hb hO => ?_⟩, h.last⟩
  · exact chain_congr h.chain rfl rfl h.bounds.2.2.2.1 le_rfl
  · refine (h.saved s hs).congr fun b hb => Function.update_of_ne ?_ _ _
    rintro rfl
    exact hoff s hs hb
  · intro s hs
    rcases List.mem_cons.1 hs with rfl | hs
    · exact h.records e List.mem_cons_self
    · exact h.records s (List.mem_cons_of_mem e hs)
  · by_cases hba : b = a
    · rw [hba] at hb hO ⊢
      obtain ⟨hu, hrec⟩ := ha hb hO
      exact ⟨fun _ => Or.inr hrec, fun hne => (hne hu).elim⟩
    · have hmem : (e.assign a w).mem b = e.mem b := Function.update_of_ne hba _ _
      obtain ⟨hu, hb'⟩ := h.kept b hb hO
      refine ⟨fun h₀ => ?_, fun h₀ => ?_⟩
      · rw [hmem]
        exact hu h₀
      · rw [hmem]
        exact hb' h₀

/-- A destructive assignment outside of the frames. -/
theorem Live.assign (h : Live e₀ L O e) {a : Int} (w : Word) (hoff : ∀ s ∈ L, ¬ s.InFrame a) :
    Live e₀ L (a :: O) (e.assign a w) :=
  (h.mono fun _ => List.mem_cons_of_mem a).write w hoff fun _ ha =>
    (ha List.mem_cons_self).elim

theorem Live.setSt (h : Live e₀ L O e) {s : Int} (hs : e.gl ≤ s) :
    Live e₀ L O { e with st := s } :=
  ⟨⟨h.base, chain_congr h.chain rfl rfl hs le_rfl, h.ready,
    fun s hs => (h.saved s hs).congr fun _ _ => rfl, fun s hs => by
      rcases List.mem_cons.1 hs with rfl | hs
      · exact h.records e List.mem_cons_self
      · exact h.records s (List.mem_cons_of_mem e hs),
    h.offFrames, fun a ha hO => ⟨(h.kept a ha hO).unbound, (h.kept a ha hO).bound⟩⟩, h.last⟩

theorem Live.push (h : Live e₀ L O e) (w : Word) : Live e₀ L O (e.push w) := by
  obtain ⟨-, hgl₀, -, hgl, -⟩ := h.bounds
  have hst : Live e₀ L O { e with st := e.st + 1 } := h.setSt (by omega)
  refine hst.write w (fun s hs => ?_) fun hle => ?_
  · obtain ⟨hsgl, -⟩ := h.over hs
    unfold InFrame
    omega
  · simp only [CHOICE_SIZE] at hgl₀
    omega

/-! ## Records -/

theorem recorded_record {w : Word} {top a : Int} (htop : e.tt ≤ top) :
    (e.record w).Recorded top a ↔ w = .ref a ∨ e.Recorded top a := by
  constructor
  · rintro ⟨t, ht, ht', hw⟩
    by_cases htt : t = e.tt
    · left
      rw [htt] at hw
      exact (e.record_trl_self w).symm.trans hw
    · right
      refine ⟨t, ?_, ht', (e.record_trl_of_ne w htt).symm.trans hw⟩
      rw [record_tt] at ht
      omega
  · rintro (rfl | ⟨t, ht, ht', hw⟩)
    · exact ⟨e.tt, by rw [record_tt]; omega, htop, e.record_trl_self _⟩
    · refine ⟨t, ?_, ht', (e.record_trl_of_ne w (by omega)).trans hw⟩
      rw [record_tt]
      omega

/-- A record of a generation line, or of a cell up to the generation line that is unbound. -/
theorem Live.record (h : Live e₀ L O e) {w : Word}
    (hw : ∀ a, w = .ref a → a ≤ e.gl ∧ (∀ s ∈ L, ¬ s.InFrame a) ∧
      (a ≤ e₀.st → a ∉ O → e₀.mem a = .ref a)) : Live e₀ L O (e.record w) := by
  obtain ⟨-, -, -, hgl, htt⟩ := h.bounds
  have hslot : ∀ t, e.tt < t → (e.record w).trl t = e.trl t := fun t ht =>
    e.record_trl_of_ne w (by omega)
  refine ⟨⟨h.base, ?_, h.ready, fun s hs => (h.saved s hs).congr fun _ _ => rfl, ?_,
    fun s hs a ha => ?_, fun a ha hO => ?_⟩, h.last⟩
  · exact chain_congr h.chain rfl rfl hgl (by rw [record_tt]; omega)
  · intro s hs t a ht ht' ha
    rcases List.mem_cons.1 hs with rfl | hs
    · by_cases htt' : t = e.tt
      · rw [htt'] at ha
        exact (hw a ((e.record_trl_self w).symm.trans ha)).1
      · have ht : e.tt < t := by
          rw [record_tt] at ht
          omega
        exact h.records e List.mem_cons_self t a ht ht' ((hslot t ht).symm.trans ha)
    · have hlt : e.tt < t := (h.over hs).2.2.2.2.trans_lt ht
      exact h.records s (List.mem_cons_of_mem e hs) t a ht ht' ((hslot t hlt).symm.trans ha)
  · rcases (recorded_record htt).1 ha with hwa | ha
    · exact (hw a hwa).2.1 s hs
    · exact h.offFrames s hs a ha
  · obtain ⟨hu, hb⟩ := h.kept a ha hO
    refine ⟨fun h₀ => ?_, fun h₀ => ?_⟩
    · rw [recorded_record htt]
      exact (hu h₀).imp_right Or.inr
    · rw [recorded_record htt]
      refine ⟨(hb h₀).1, ?_⟩
      rintro (hwa | hrec)
      · exact h₀ ((hw a hwa).2.2 ha hO)
      · exact (hb h₀).2 hrec

/-- The record of a destructive assignment. -/
theorem Live.trail (h : Live e₀ L O e) {a : Int} (hoff : ∀ s ∈ L, ¬ s.InFrame a) :
    Live e₀ L (a :: O) (e.trail a) := by
  have h' : Live e₀ L (a :: O) e := h.mono fun _ => List.mem_cons_of_mem a
  unfold Engine.trail
  split_ifs with hle
  · refine h'.record fun b hb => ?_
    cases hb
    exact ⟨hle, hoff, fun _ hO => (hO List.mem_cons_self).elim⟩
  · exact h'

/-- A new generation. -/
theorem Live.newGeneration (h : Live e₀ L O e) {g : Int} (hg : e.gl ≤ g) (hst : g ≤ e.st) :
    Live e₀ L O (newGeneration { e with gl := g }) := by
  obtain ⟨s, L', rfl, hlinked, hchain⟩ := h.linked
  have h' : Live e₀ (s :: L') O { e with gl := g } := by
    refine ⟨⟨h.base, ?_, h.ready, fun s hs => (h.saved s hs).congr fun _ _ => rfl, ?_,
      h.offFrames, fun a ha hO => ⟨(h.kept a ha hO).unbound, (h.kept a ha hO).bound⟩⟩, h.last⟩
    · exact List.isChain_cons_cons.2
        ⟨⟨hlinked.bb, hlinked.gl.trans hg, hst, hlinked.tt⟩, hchain⟩
    · intro s' hs' t a ht ht' ha
      rcases List.mem_cons.1 hs' with rfl | hs'
      · exact (h.records e List.mem_cons_self t a ht ht' ha).trans hg
      · exact h.records s' (List.mem_cons_of_mem e hs') t a ht ht' ha
  exact h'.record fun a ha => by cases ha

/-! ## Bindings -/

/-- An unbound cell may be bound when it is recorded, or above the cells looked at. -/
theorem Live.bind (h : Live e₀ L O e) {a : Int} (w : Word) (ha : e.mem a = .ref a) :
    Live e₀ L O ((e.record (.ref a)).assign a w) ∨ e.gl < a := by
  rcases le_or_gt a e.gl with hle | hlt
  · left
    have hoff : ∀ s ∈ L, ¬ s.InFrame a := fun s hs => (h.saved s hs).not_inFrame (h.ready s hs) ha
    have hu : a ≤ e₀.st → a ∉ O → e₀.mem a = .ref a := fun hle hO => by
      by_contra hne
      exact hne (((h.kept a hle hO).bound hne).1.symm.trans ha)
    have hrec : Live e₀ L O (e.record (.ref a)) := h.record fun b hb => by
      cases hb
      exact ⟨hle, hoff, hu⟩
    refine hrec.write w hoff fun hle' hO => ⟨hu hle' hO, ?_⟩
    exact (recorded_record h.bounds.2.2.2.2).2 (Or.inl rfl)
  · exact Or.inr hlt

theorem Live.assign_above (h : Live e₀ L O e) {a : Int} (w : Word) (ha : e.bb ≤ a)
    (hu : e.mem a = .ref a) : Live e₀ L O (e.assign a w) := by
  obtain ⟨hbb, -⟩ := h.bounds
  refine h.write w (fun s hs => (h.saved s hs).not_inFrame (h.ready s hs) hu) fun hle => ?_
  simp only [CHOICE_SIZE] at hbb
  omega

theorem Live.bindGl (h : Live e₀ L O e) {a : Int} (w : Word) (ha : e.mem a = .ref a) :
    Live e₀ L O ((e.assign a w).trail a) := by
  unfold Engine.trail
  split_ifs with hle
  · exact (h.bind w ha).resolve_right (not_lt.2 hle)
  · have hgl : e.gl < a := not_le.1 hle
    have hbb := h.bounds.2.2.1
    exact h.assign_above w (by omega) ha

theorem Live.bindBb (h : Live e₀ L O e) {a : Int} (w : Word) (ha : e.mem a = .ref a) :
    Live e₀ L O ((e.assign a w).bbtrail a) := by
  unfold Engine.bbtrail
  split_ifs with hlt
  · have hlt' : a < e.bb := hlt
    have hbb := h.bounds.2.2.1
    exact (h.bind w ha).resolve_right (by omega)
  · exact h.assign_above w (not_lt.1 hlt) ha

end Engine

end Mlvm
