import Mlvm.Engine.Frames

/-!
# The operations on choice frames

`make_cframe`, `retry`, `trust`, `neckcut`, `deepcut` and `detrail` keep the invariant of the choice
frames. Only `neckcut` writes to old parts of the trail: it moves records within the segment of the
top frame, and drops those of cells above the generation line that comes back.
-/

namespace Mlvm

namespace Engine

variable {e₀ e : Engine} {L : List Engine} {O : List Int}

/-! ## Mirrored arguments -/

/-- The arguments are pushed, and nothing else changes. -/
theorem mirror_core (n : Nat) : ∀ m : Engine, ∃ mem,
    (m.mirror n).core = { m.core with mem := mem, st := m.st + n } ∧
    ∀ a ≤ m.st, mem a = m.mem a := by
  induction n with
  | zero => exact fun m => ⟨m.mem, by simp [mirror, core], fun _ _ => rfl⟩
  | succ n ih =>
    intro m
    obtain ⟨mem, hcore, hmem⟩ := ih { (m.push (m.mem (m.af + 1))) with af := m.af + 1 }
    refine ⟨mem, ?_, fun a ha => ?_⟩
    · rw [mirror, hcore]
      simp only [core, push, Core.mk.injEq, true_and, and_true]
      omega
    · rw [hmem a (by simp only [push]; omega)]
      exact m.push_mem_of_ne _ (by omega)

theorem mirror_cf_b0 (n : Nat) : ∀ m : Engine, (m.mirror n).cf = m.cf ∧ (m.mirror n).b0 = m.b0 := by
  induction n with
  | zero => exact fun m => ⟨rfl, rfl⟩
  | succ n ih => exact fun m => ih _

/-- The arguments are those above `af`. -/
theorem mirror_copies (n : Nat) : ∀ m : Engine, m.af + n ≤ m.st → ∀ i : Nat, i < n →
    (m.mirror n).mem (m.st + 1 + i) = m.mem (m.af + 1 + i) := by
  induction n with
  | zero => exact fun m _ i hi => (Nat.not_lt_zero i hi).elim
  | succ n ih =>
    intro m haf i hi
    set m' : Engine := { (m.push (m.mem (m.af + 1))) with af := m.af + 1 } with hm'
    cases i with
    | zero =>
      obtain ⟨mem, hcore, hmem⟩ := mirror_core n m'
      have hmirror : (m'.mirror n).mem = mem := congrArg Core.mem hcore
      rw [mirror, ← hm', hmirror, hmem _ (by simp [hm']), hm']
      simpa using m.push_mem_self (m.mem (m.af + 1))
    | succ i =>
      have hi' := ih m' (by simp only [hm', push]; omega) i (by omega)
      have hst : m'.st + 1 + (i : Int) = m.st + 1 + ((i + 1 : Nat) : Int) := by
        simp only [hm', push]
        omega
      have haf' : m'.af + 1 + (i : Int) = m.af + 1 + ((i + 1 : Nat) : Int) := by
        simp only [hm']
        omega
      rw [mirror, ← hm', ← hst, hi', haf', hm']
      exact m.push_mem_of_ne _ (by omega)

/-! ## `make_cframe` -/

/-- The frame that `make_cframe` writes; the continuation is below the frame. -/
theorem makeCframe_spec (e : Engine) (n : Nat) (l base : Int) (hcf : e.cf ≤ e.st) (hl : l < base) :
    ∃ mem, (e.makeCframe n l).core =
        ⟨mem, Function.update e.trl e.tt (.str (e.st + CHOICE_SIZE)), e.stack_base,
          e.st + CHOICE_SIZE + n, e.tt - 1, e.st + CHOICE_SIZE, e.st + CHOICE_SIZE⟩ ∧
      (∀ a ≤ e.st, mem a = e.mem a) ∧ (e.makeCframe n l).Saved base e := by
  unfold makeCframe
  dsimp only
  set m := newGeneration _ with hm
  obtain ⟨mem, hcore, hmem⟩ := mirror_core n m
  have hmirror : (m.mirror n).mem = mem := congrArg Core.mem hcore
  have hst : m.st = e.st + CHOICE_SIZE := rfl
  have hccp : e.cf - 1 ≠ e.st + 7 := by omega
  refine ⟨mem, ?_, fun a ha => ?_, ?_⟩
  · rw [show ∀ x : Engine, ({ x with af := x.st } : Engine).core = x.core from fun _ => rfl, hcore]
    rfl
  · rw [hmem a (by rw [hst]; simp only [CHOICE_SIZE]; omega), hm]
    simp only [newGeneration, record, assign, CHOICE_SIZE]
    iterate 7 rw [Function.update_of_ne (by omega)]
  · have hword : ∀ k, k ≤ 7 → mem (e.st + k) = m.mem (e.st + k) := fun k hk =>
      hmem _ (by rw [hst]; simp only [CHOICE_SIZE]; omega)
    refine ⟨?_, ?_, ?_, ?_, ?_, ⟨l, hl, ?_⟩, ?_⟩ <;>
      show (m.mirror n).mem _ = _ <;> rw [hmirror, hword _ (by decide), hm] <;>
      simp [newGeneration, record, assign, hccp, CHOICE_SIZE, add_sub_assoc]

theorem recorded_congr {e' : Engine} (htrl : e'.trl = e.trl) (htt : e'.tt = e.tt) {top a : Int} :
    e'.Recorded top a ↔ e.Recorded top a := by
  unfold Recorded
  rw [htrl, htt]

/-- The start: nothing has happened since `e₀`. -/
theorem traced_start (e₀ : Engine) : Traced e₀ [] [] e₀ where
  base := rfl
  chain := List.isChain_singleton e₀
  ready := by simp
  saved := by simp
  records := by
    intro s hs t a ht ht'
    rw [List.mem_singleton.1 hs] at ht
    omega
  offFrames := by simp
  kept := fun a _ _ => ⟨Or.inl, fun _ => ⟨rfl, by rintro ⟨t, ht, ht', -⟩; omega⟩⟩

/-- `make_cframe` adds a frame. -/
theorem Traced.choice (h : Traced e₀ L O e) (hst : e₀.st ≤ e.st) (htt : e.tt ≤ e₀.tt)
    (hover : ∀ s ∈ L, Over e s) (hready : e.Ready e₀.stack_base) (n : Nat) {l : Int}
    (hl : l < e₀.stack_base) : Traced e₀ (e :: L) O (e.makeCframe n l) := by
  obtain ⟨mem, hcore, hmem, hsaved⟩ := makeCframe_spec e n l e₀.stack_base hready.cf hl
  set c := e.makeCframe n l
  simp only [core, Core.mk.injEq] at hcore
  obtain ⟨rfl, htrl, hbase, hst', htt', hbb, hgl⟩ := hcore
  have hrec : ∀ a, c.Recorded e₀.tt a ↔ e.Recorded e₀.tt a := fun a => by
    have hc : c.Recorded e₀.tt a ↔ (e.record (.str (e.st + CHOICE_SIZE))).Recorded e₀.tt a :=
      recorded_congr htrl htt'
    rw [hc, recorded_record htt]
    simp
  have hslot : ∀ t, e.tt < t → c.trl t = e.trl t := fun t ht => by
    rw [htrl, Function.update_of_ne (by omega)]
  refine ⟨hbase.trans h.base, List.isChain_cons_cons.2 ⟨⟨hbb, ?_, ?_, ?_⟩, h.chain⟩, ?_, ?_, ?_,
    ?_, fun a ha hO => ?_⟩
  · rw [hbb, hgl]
  · rw [hgl, hst']
    omega
  · rw [htt']
    omega
  · intro s hs
    rcases List.mem_cons.1 hs with rfl | hs
    · exact hready
    · exact h.ready s hs
  · intro s hs
    rcases List.mem_cons.1 hs with rfl | hs
    · exact hsaved
    · refine (h.saved s hs).congr fun a ha => hmem a ?_
      obtain ⟨-, hsbb, -, hsst, -⟩ := hover s hs
      exact ha.2.trans (hsbb.trans hsst)
  · intro s hs t a ht ht' ha
    rcases List.mem_cons.1 hs with rfl | hs
    · obtain ⟨t', ht₁, ht₂, ha'⟩ := (hrec a).1 ⟨t, ht, ht', ha⟩
      have hle := h.records _ List.mem_cons_self t' a ht₁ ht₂ ha'
      have hegl := hready.gl
      rw [hgl]
      simp only [CHOICE_SIZE]
      omega
    · have hlt : e.tt < t := by
        rcases List.mem_cons.1 hs with rfl | hs
        · exact ht
        · exact (hover s hs).2.2.2.2.trans_lt ht
      rw [hslot t hlt] at ha
      exact h.records s hs t a ht ht' ha
  · intro s hs a ha
    rcases List.mem_cons.1 hs with rfl | hs
    · obtain ⟨t, ht, ht', ha⟩ := (hrec a).1 ha
      have hle := h.records _ List.mem_cons_self t a ht ht' ha
      have hegl := hready.gl
      unfold InFrame
      omega
    · exact h.offFrames s hs a ((hrec a).1 ha)
  · obtain ⟨hu, hb⟩ := h.kept a ha hO
    have hsame := hmem a (ha.trans hst)
    refine ⟨fun h₀ => ?_, fun h₀ => ?_⟩
    · rw [hsame, hrec]
      exact hu h₀
    · rw [hsame, hrec]
      exact hb h₀

/-- **A TRY.** -/
theorem live_start {n : Nat} {l : Int} (hready : e₀.Ready e₀.stack_base)
    (hl : l < e₀.stack_base) : Live e₀ [e₀] [] (e₀.makeCframe n l) :=
  ⟨(traced_start e₀).choice le_rfl le_rfl (by simp) hready n hl, rfl⟩

/-- A nested TRY. -/
theorem Live.choice (h : Live e₀ L O e) (hset : e.Settled e₀.stack_base)
    (hroom : CHOICE_SIZE * GC_FACTOR ≤ e.tt - e.st) (n : Nat) {l : Int}
    (hl : l < e₀.stack_base) : Live e₀ (e :: L) O (e.makeCframe n l) := by
  obtain ⟨hbb, hgl, hbbgl, hglst, htt⟩ := h.bounds
  have hst : e₀.st ≤ e.st := by
    simp only [CHOICE_SIZE] at hgl
    omega
  have hbase := (h.ready e₀ h.mem_base).base
  refine ⟨h.toTraced.choice hst htt (fun s hs => h.over hs)
    ⟨hset, hbase.trans hst, hbbgl.trans hglst, hglst, hroom⟩ n hl, ?_⟩
  obtain ⟨s, L', rfl, -⟩ := h.linked
  exact h.last

/-! ## `retry` and `trust` -/

theorem Live.mirror (n : Nat) : ∀ {m : Engine}, Live e₀ L O m → Live e₀ L O (m.mirror n) := by
  induction n with
  | zero => exact fun h => h
  | succ n ih => exact fun h => ih ((h.push _).congr rfl)

/-- The word of the top frame that tells where to go on may change. -/
theorem Live.relabel (h : Live e₀ L O e) {l : Int} (hl : l < e₀.stack_base) :
    Live e₀ L O (e.assign (e.bb - 5) (.ref l)) := by
  obtain ⟨s, L', rfl, hlinked, hchain⟩ := h.linked
  have hbb := hlinked.bb
  simp only [CHOICE_SIZE] at hbb
  have hmem : ∀ a, a ≠ e.bb - 5 → (e.assign (e.bb - 5) (.ref l)).mem a = e.mem a := fun a ha =>
    e.assign_mem_of_ne _ ha
  refine ⟨⟨h.base, chain_congr h.chain rfl rfl h.bounds.2.2.2.1 le_rfl, h.ready, fun s' hs' => ?_,
    fun s' hs' => ?_, h.offFrames, fun a ha hO => ?_⟩, h.last⟩
  · rcases List.mem_cons.1 hs' with rfl | hs''
    · have hsaved := h.saved _ hs'
      refine ⟨(hmem _ (by omega)).trans hsaved.cf, (hmem _ (by omega)).trans hsaved.ccp,
        (hmem _ (by omega)).trans hsaved.tt, (hmem _ (by omega)).trans hsaved.bb,
        (hmem _ (by omega)).trans hsaved.b0, ⟨l, hl, ?_⟩, (hmem _ (by omega)).trans hsaved.gl⟩
      have hslot : s'.st + 2 = e.bb - 5 := by omega
      rw [hslot]
      exact e.assign_mem_self _ _
    · refine (h.saved s' hs').congr fun a ha => hmem a ?_
      have hpair := (List.pairwise_cons.1 (List.pairwise_cons.1 h.pairwise).2).1 s' hs''
      obtain ⟨h₁, -, h₃, -⟩ := hpair
      have ha' := ha.2
      omega
  · rcases List.mem_cons.1 hs' with rfl | hs'
    · exact h.records e List.mem_cons_self
    · exact h.records s' (List.mem_cons_of_mem e hs')
  · have hne : a ≠ e.bb - 5 := by
      have hle := (h.base_le List.mem_cons_self).1
      omega
    obtain ⟨hu, hb⟩ := h.kept a ha hO
    refine ⟨fun h₀ => ?_, fun h₀ => ?_⟩
    · rw [hmem a hne]
      exact hu h₀
    · rw [hmem a hne]
      exact hb h₀

/-- After `detrail`, the trail is as it was when the top frame was made. -/
theorem Live.detrailed {s : Engine} (h : Live e₀ (s :: L) O e) (hbtt : e.BTT ≤ e.tt) :
    e.tt = s.tt := by
  have hlinked := (List.isChain_cons_cons.1 h.chain).1
  have hslot : e.bb - 2 = s.st + 5 := by
    have := hlinked.bb
    simp only [CHOICE_SIZE] at this
    omega
  have hsaved := (h.saved s List.mem_cons_self).tt
  rw [BTT, hslot, hsaved, Word.addr_ref] at hbtt
  exact le_antisymm hlinked.tt hbtt

/-- The generation line falls back to the top frame. -/
theorem Live.reset {s : Engine} (h : Live e₀ (s :: L) O e) (htt : e.tt = s.tt) :
    Live e₀ (s :: L) O { e with st := e.bb, gl := e.bb } := by
  obtain ⟨hlinked, hchain⟩ := List.isChain_cons_cons.1 h.chain
  refine ⟨⟨h.base, List.isChain_cons_cons.2 ⟨⟨hlinked.bb, le_rfl, le_rfl, hlinked.tt⟩, hchain⟩,
    h.ready, fun s hs => (h.saved s hs).congr fun _ _ => rfl, ?_, h.offFrames,
    fun a ha hO => ⟨(h.kept a ha hO).unbound, (h.kept a ha hO).bound⟩⟩, h.last⟩
  intro s' hs' t a ht ht' ha
  rcases List.mem_cons.1 hs' with rfl | hs'
  · have hle := h.records s (List.mem_cons_of_mem e List.mem_cons_self) t a (htt ▸ ht) ht' ha
    have hgl := (h.ready s List.mem_cons_self).gl
    have hbb := hlinked.bb
    simp only [CHOICE_SIZE] at hbb
    show a ≤ e.bb
    omega
  · exact h.records s' (List.mem_cons_of_mem e hs') t a ht ht' ha

/-- `retry`. -/
theorem Live.retry (h : Live e₀ L O e) (hbtt : e.BTT ≤ e.tt)
    (hoff : ∀ s ∈ L, ¬ s.InFrame ((e.mem e.bb).addr - 1)) (n : Nat) {l : Int}
    (hl : l < e₀.stack_base) : Live e₀ L (((e.mem e.bb).addr - 1) :: O) (e.retry n l) := by
  obtain ⟨s, L', rfl, -⟩ := h.linked
  have htt := h.detrailed hbtt
  have h₁ := (h.assign (e.mem (e.bb - 1)) hoff).relabel hl
  have h₂ := h₁.reset htt
  have h₃ := h₂.record (w := Word.str e.bb) fun a ha => by cases ha
  let e₁ := { e with cf := (e.mem e.bb).addr }
  let e₂ := (e₁.assign (e₁.cf - 1) (e₁.mem (e₁.bb - 1))).assign (e₁.bb - 5) (.ref l)
  let e₃ := Engine.newGeneration { e₂ with st := e₂.bb, gl := e₂.bb }
  let e₄ : Engine := { e₃ with af := e₃.st - (CHOICE_SIZE + ↑n) }
  have h₄ : Live e₀ (s :: L') _ e₄ := h₃.congr rfl
  exact (h₄.mirror n).congr rfl

/-- The registers that a frame has saved come back, and the frame goes. -/
theorem Live.pop {s s' : Engine} (h : Live e₀ (s :: s' :: L) O e) (htt : e.tt = s.tt) :
    Live e₀ (s' :: L) O { e with gl := s.gl, st := s.st, bb := s.bb } := by
  obtain ⟨-, hchain⟩ := List.isChain_cons_cons.1 h.chain
  obtain ⟨hlinked, hchain'⟩ := List.isChain_cons_cons.1 hchain
  refine ⟨⟨h.base, List.isChain_cons_cons.2
      ⟨⟨hlinked.bb, hlinked.gl, hlinked.st, htt.le.trans hlinked.tt⟩, hchain'⟩,
    fun s hs => h.ready s (List.mem_cons_of_mem _ hs),
    fun s hs => (h.saved s (List.mem_cons_of_mem _ hs)).congr fun _ _ => rfl, ?_,
    fun s hs => h.offFrames s (List.mem_cons_of_mem _ hs),
    fun a ha hO => ⟨(h.kept a ha hO).unbound, (h.kept a ha hO).bound⟩⟩, h.last⟩
  intro s'' hs'' t a ht ht' ha
  rcases List.mem_cons.1 hs'' with rfl | hs''
  · exact h.records s (List.mem_cons_of_mem e List.mem_cons_self) t a (htt ▸ ht) ht' ha
  · exact h.records s'' (List.mem_cons_of_mem e (List.mem_cons_of_mem s hs'')) t a ht ht' ha

/-- The words that `trust` reads from the top frame. -/
theorem Saved.words {base : Int} {s : Engine} (h : e.Saved base s)
    (hbb : e.bb = s.st + CHOICE_SIZE) : e.mem e.bb = .ref s.cf ∧
      e.mem (e.bb - 1) = s.mem (s.cf - 1) ∧ e.mem (e.bb - 2) = .ref s.tt ∧
      e.mem (e.bb - 3) = .ref s.bb ∧ e.mem (e.bb - 4) = .ref s.b0 ∧
      e.mem (e.bb - 6) = .ref s.gl := by
  have hslot : ∀ k, e.bb - k = s.st + (7 - k) := fun k => by
    rw [hbb]
    simp only [CHOICE_SIZE]
    omega
  refine ⟨?_, ?_, ?_, ?_, ?_, ?_⟩
  · rw [hbb]
    exact h.cf
  · rw [hslot]
    exact h.ccp
  · rw [hslot]
    exact h.tt
  · rw [hslot]
    exact h.bb
  · rw [hslot]
    exact h.b0
  · rw [hslot]
    exact h.gl

/-- What `trust` does on an intact frame. -/
theorem trust_spec {base : Int} {s : Engine} (h : e.Saved base s)
    (hbb : e.bb = s.st + CHOICE_SIZE) (hoff : ¬ s.InFrame (s.cf - 1)) :
    e.trust = { (e.assign (s.cf - 1) (s.mem (s.cf - 1))) with
      cf := s.cf, gl := s.gl, st := s.st, af := s.st, bb := s.bb, pp := e.pp + 1,
      lbl := .control } := by
  obtain ⟨hcf, hccp, -, hbb', -, hgl⟩ := h.words hbb
  have hne : ∀ k, 0 ≤ k → k ≤ 6 → e.bb - k ≠ s.cf - 1 := fun k hk hk' heq => by
    apply hoff
    rw [← heq]
    simp only [InFrame, CHOICE_SIZE] at hbb ⊢
    omega
  have hst : e.bb - CHOICE_SIZE = s.st := by omega
  simp only [trust, assign, hcf, hccp, Word.addr_ref, next, hst,
    Function.update_of_ne (hne 3 (by decide) (by decide)),
    Function.update_of_ne (hne 6 (by decide) (by decide)), hgl, hbb']

/-- `trust`. -/
theorem Live.trust {s s' : Engine} (h : Live e₀ (s :: s' :: L) O e) (hbtt : e.BTT ≤ e.tt)
    (hoff : ∀ s'' ∈ s :: s' :: L, ¬ s''.InFrame ((e.mem e.bb).addr - 1)) :
    Live e₀ (s' :: L) (((e.mem e.bb).addr - 1) :: O) e.trust := by
  have hsaved := h.saved s List.mem_cons_self
  have hbb := (List.isChain_cons_cons.1 h.chain).1.bb
  have hcf : e.mem e.bb = .ref s.cf := (hsaved.words hbb).1
  rw [hcf, Word.addr_ref] at hoff ⊢
  rw [trust_spec hsaved hbb (hoff s List.mem_cons_self)]
  exact ((h.assign (s.mem (s.cf - 1)) hoff).pop (h.detrailed hbtt)).congr rfl

/-- The stores after the two assignments of `retry` and the new generation. -/
theorem retry_spec (e : Engine) (n : Nat) (l : Int) : ∃ mem,
    (e.retry n l).core = ⟨mem, Function.update e.trl e.tt (.str e.bb), e.stack_base, e.bb + n,
      e.tt - 1, e.bb, e.bb⟩ ∧
    ∀ a ≤ e.bb, mem a = (assign (e.assign ((e.mem e.bb).addr - 1) (e.mem (e.bb - 1)))
      (e.bb - 5) (.ref l)).mem a := by
  let e₁ := { e with cf := (e.mem e.bb).addr }
  let e₂ := (e₁.assign (e₁.cf - 1) (e₁.mem (e₁.bb - 1))).assign (e₁.bb - 5) (.ref l)
  let e₃ := newGeneration { e₂ with st := e₂.bb, gl := e₂.bb }
  obtain ⟨mem, hcore, hmem⟩ := mirror_core n { e₃ with af := e₃.st - (CHOICE_SIZE + ↑n) }
  exact ⟨mem, hcore, hmem⟩

/-! ## Cuts -/

/-- Frames are removed by loading `bb`. -/
theorem Live.cut {pre : List Engine} {s : Engine} (h : Live e₀ (pre ++ s :: L) O e) :
    Live e₀ (s :: L) O { e with bb := s.st + CHOICE_SIZE } := by
  have hmem : ∀ s' ∈ s :: L, s' ∈ pre ++ s :: L := fun s' hs' => List.mem_append_right pre hs'
  have hchain : (s :: L).IsChain Linked := (h.chain.tail).right_of_append
  obtain ⟨h₁, -, h₃, -, h₅⟩ := h.over (hmem s List.mem_cons_self)
  refine ⟨⟨h.base, List.isChain_cons_cons.2 ⟨⟨rfl, h₁, h₃, h₅⟩, hchain⟩,
    fun s' hs' => h.ready s' (hmem s' hs'),
    fun s' hs' => (h.saved s' (hmem s' hs')).congr fun _ _ => rfl, ?_,
    fun s' hs' => h.offFrames s' (hmem s' hs'),
    fun a ha hO => ⟨(h.kept a ha hO).unbound, (h.kept a ha hO).bound⟩⟩, ?_⟩
  · intro s' hs'
    rcases List.mem_cons.1 hs' with rfl | hs'
    · exact h.records e List.mem_cons_self
    · exact h.records s' (List.mem_cons_of_mem e (hmem s' hs'))
  · have hlast := h.last
    rwa [List.getLast?_append_of_ne_nil pre (List.cons_ne_nil s L)] at hlast

/-- The frames below the one at `b`, this one included. -/
def framesFrom (L : List Engine) (b : Int) : List Engine :=
  L.dropWhile fun s => s.st + CHOICE_SIZE != b

theorem exists_of_framesFrom {b : Int} (h : framesFrom L b ≠ []) :
    ∃ pre s L', L = pre ++ s :: L' ∧ s.st + CHOICE_SIZE = b ∧ framesFrom L b = s :: L' := by
  induction L with
  | nil => exact (h rfl).elim
  | cons s L ih =>
    unfold framesFrom at h ih ⊢
    by_cases hs : s.st + CHOICE_SIZE = b
    · exact ⟨[], s, L, rfl, hs, by simp [hs]⟩
    · rw [List.dropWhile_cons_of_pos (by simpa using hs)] at h ⊢
      obtain ⟨pre, s', L', rfl, hs', hL'⟩ := ih h
      exact ⟨s :: pre, s', L', rfl, hs', hL'⟩

/-- `deepcut`. -/
theorem Live.setBb (h : Live e₀ L O e) {b : Int} (hb : framesFrom L b ≠ []) :
    Live e₀ (framesFrom L b) O { e with bb := b } := by
  obtain ⟨pre, s, L', rfl, rfl, hframes⟩ := exists_of_framesFrom hb
  rw [hframes]
  exact h.cut

/-- `filter_trail` moves the records that it keeps to the old end of the segment. -/
theorem filterTrail_spec (k : Nat) : ∀ e : Engine, e.tt - e.gp ≤ k → e.gp ≤ e.tt → ∃ trl tt,
    (e.filterTrail k).core = { e.core with trl := trl, tt := tt } ∧ e.gp ≤ tt ∧ tt ≤ e.tt ∧
    (∀ t, e.tt < t → trl t = e.trl t) ∧
    (∀ t, tt < t → t ≤ e.tt → e.keeps (trl t)) ∧
    ∀ w, e.keeps w → ((∃ t, tt < t ∧ t ≤ e.tt ∧ trl t = w) ↔
      ∃ t, e.gp < t ∧ t ≤ e.tt ∧ e.trl t = w) := by
  induction k with
  | zero =>
    intro e hk hgp
    refine ⟨e.trl, e.tt, rfl, hgp, le_rfl, fun _ _ => rfl, fun t ht ht' => by omega, fun w _ => ?_⟩
    constructor <;> rintro ⟨t, ht, ht', -⟩ <;> omega
  | succ k ih =>
    intro e hk hgp
    unfold filterTrail
    split_ifs with hlt hkeep
    · obtain ⟨trl, tt, hcore, hge, hle, hsame, hkept, hiff⟩ :=
        ih { e with tt := e.tt - 1 } (by dsimp only; omega) (by dsimp only; omega)
      dsimp only at hge hle hsame hkept hiff
      have hslot : trl e.tt = e.trl e.tt := hsame e.tt (by omega)
      refine ⟨trl, tt, hcore, hge, by omega, fun t ht => hsame t (by omega), fun t ht ht' => ?_,
        fun w hw => ⟨?_, ?_⟩⟩
      · by_cases htt : t = e.tt
        · rw [htt, hslot]
          exact hkeep
        · exact hkept t ht (by omega)
      · rintro ⟨t, ht, ht', rfl⟩
        by_cases htt : t = e.tt
        · exact ⟨e.tt, hlt, le_rfl, by rw [htt, hslot]⟩
        · obtain ⟨t', h₁, h₂, h₃⟩ := (hiff _ hw).1 ⟨t, ht, by omega, rfl⟩
          exact ⟨t', h₁, by omega, h₃⟩
      · rintro ⟨t, ht, ht', rfl⟩
        by_cases htt : t = e.tt
        · exact ⟨e.tt, by omega, le_rfl, by rw [htt, hslot]⟩
        · obtain ⟨t', h₁, h₂, h₃⟩ := (hiff _ hw).2 ⟨t, ht, by omega, rfl⟩
          exact ⟨t', h₁, by omega, h₃⟩
    · obtain ⟨trl, tt, hcore, hge, hle, hsame, hkept, hiff⟩ :=
        ih { e with gp := e.gp + 1, trl := Function.update e.trl e.tt (e.trl (e.gp + 1)) }
          (by dsimp only; omega) (by dsimp only; omega)
      dsimp only at hge hle hsame hkept hiff
      refine ⟨trl, tt, hcore, by omega, hle, fun t ht => ?_, hkept,
        fun w hw => (hiff w hw).trans ?_⟩
      · rw [hsame t ht, Function.update_of_ne (by omega)]
      constructor
      · rintro ⟨t, ht, ht', rfl⟩
        by_cases htt : t = e.tt
        · exact ⟨e.gp + 1, by omega, by omega, by rw [htt, Function.update_self]⟩
        · exact ⟨t, by omega, ht', by rw [Function.update_of_ne htt]⟩
      · rintro ⟨t, ht, ht', rfl⟩
        -- The word at `tt` is dropped, and the oldest one takes its place.
        have htt : t ≠ e.tt := by
          rintro rfl
          exact hkeep hw
        by_cases hgp' : t = e.gp + 1
        · exact ⟨e.tt, by omega, le_rfl, by rw [Function.update_self, hgp']⟩
        · exact ⟨t, by omega, ht', by rw [Function.update_of_ne htt]⟩
    · refine ⟨e.trl, e.tt, rfl, hgp, le_rfl, fun _ _ => rfl, fun t ht ht' => by omega,
        fun w _ => ?_⟩
      constructor <;> rintro ⟨t, ht, ht', -⟩ <;> omega

theorem keeps_ref (e : Engine) (a : Int) : e.keeps (.ref a) ↔ a ≤ e.gl := by
  have h : e.keeps (.ref a) ↔ 4 * a ≤ 4 * e.gl := decide_eq_true_iff
  rw [h]
  omega

/-- `neckcut`. -/
theorem Live.neckcut (h : Live e₀ L O e) (hlt : e.b0 < e.bb) (hL : framesFrom L e.b0 ≠ []) :
    Live e₀ (framesFrom L e.b0) O e.neckcut := by
  obtain ⟨s, L', rfl, hlinked, hchain⟩ := h.linked
  have hwords := (h.saved s List.mem_cons_self).words hlinked.bb
  have hbtt : e.BTT = s.tt := by
    rw [BTT, hwords.2.2.1, Word.addr_ref]
  have hgl : (e.mem (e.bb - 6)).addr = s.gl := by
    rw [hwords.2.2.2.2.2, Word.addr_ref]
  -- The frame at `b0` is below the top frame.
  have hframes : framesFrom (s :: L') e.b0 = framesFrom L' e.b0 := by
    have hne : s.st + CHOICE_SIZE ≠ e.b0 := by
      have := hlinked.bb
      omega
    exact List.dropWhile_cons_of_pos (by simpa using hne)
  rw [hframes] at hL ⊢
  obtain ⟨pre, s', L'', rfl, hs', hL''⟩ := exists_of_framesFrom hL
  rw [hL'']
  have hs'mem : s' ∈ s :: (pre ++ s' :: L'') := by simp
  have hmem : ∀ r ∈ s' :: L'', r ∈ s :: (pre ++ s' :: L'') := fun r hr =>
    List.mem_cons_of_mem s (List.mem_append_right pre hr)
  have hover : Over s s' :=
    (List.pairwise_cons.1 (List.pairwise_cons.1 h.pairwise).2).1 s' (by simp)
  have hsgl : e₀.st ≤ s.gl := by
    have := (h.base_le hs'mem).1
    have := hover.1
    simp only [CHOICE_SIZE] at this
    omega
  obtain ⟨-, htt₀⟩ := h.base_le (List.mem_cons_self : s ∈ s :: (pre ++ s' :: L''))
  let e₁ : Engine := { e with gl := (e.mem (e.bb - 6)).addr, gp := e.tt, tt := e.BTT }
  obtain ⟨trl, tt, hcore, hge, hle, hsame, hkept, hiff⟩ := filterTrail_spec e₁.passes e₁
    (by simp only [passes]; omega) (by show e.tt ≤ e.BTT; rw [hbtt]; exact hlinked.tt)
  change e.tt ≤ tt at hge
  have hle : tt ≤ s.tt := hbtt ▸ hle
  have hsame : ∀ t, s.tt < t → trl t = e.trl t :=
    fun t ht => hsame t (by rw [← hbtt] at ht; exact ht)
  have hgl₁ : e₁.gl = s.gl := hgl
  have htt₁ : e₁.tt = s.tt := hbtt
  have hcut : ∀ t a, tt < t → t ≤ e₀.tt → trl t = .ref a → a ≤ s.gl := fun t a ht ht' ha => by
    rcases le_or_gt t s.tt with hle' | hlt'
    · have := hkept t ht (htt₁ ▸ hle')
      rwa [ha, keeps_ref, hgl₁] at this
    · rw [hsame t hlt'] at ha
      exact h.records s (List.mem_cons_of_mem e List.mem_cons_self) t a hlt' ht' ha
  have hrec : ∀ a ≤ s.gl, ((∃ t, tt < t ∧ t ≤ e₀.tt ∧ trl t = .ref a) ↔ e.Recorded e₀.tt a) := by
    intro a ha
    have hk : e₁.keeps (.ref a) := (keeps_ref e₁ a).2 (hgl₁ ▸ ha)
    constructor
    · rintro ⟨t, ht, ht', hta⟩
      rcases le_or_gt t s.tt with hle' | hlt'
      · obtain ⟨t', h₁, h₂, h₃⟩ := (hiff _ hk).1 ⟨t, ht, htt₁ ▸ hle', hta⟩
        exact ⟨t', h₁, (htt₁ ▸ h₂).trans htt₀, h₃⟩
      · exact ⟨t, by omega, ht', (hsame t hlt').symm.trans hta⟩
    · rintro ⟨t, ht, ht', hta⟩
      rcases le_or_gt t s.tt with hle' | hlt'
      · obtain ⟨t', h₁, h₂, h₃⟩ := (hiff _ hk).2 ⟨t, ht, htt₁ ▸ hle', hta⟩
        exact ⟨t', h₁, (htt₁ ▸ h₂).trans htt₀, h₃⟩
      · exact ⟨t, by omega, ht', (hsame t hlt').trans hta⟩
  have hfilter : Live e₀ (s' :: L'') O
      { e with trl := trl, tt := tt, gl := s.gl, bb := s'.st + CHOICE_SIZE } := by
    have hst := h.over hs'mem
    have hglst := h.bounds.2.2.2.1
    refine ⟨⟨h.base, List.isChain_cons_cons.2 ⟨⟨rfl, hover.1, ?_, hle.trans hover.2.2.2.2⟩,
      (h.chain.tail.tail).right_of_append⟩, fun r hr => h.ready r (hmem r hr),
      fun r hr => (h.saved r (hmem r hr)).congr fun _ _ => rfl, ?_, fun r hr a ha => ?_,
      fun a ha hO => ?_⟩, ?_⟩
    · have hsgl := (h.ready s List.mem_cons_self).gl
      have hsst := hlinked.bb
      have hbbgl := hlinked.gl
      simp only [CHOICE_SIZE] at hsst
      show s.gl ≤ e.st
      omega
    · intro r hr t a ht ht' ha
      rcases List.mem_cons.1 hr with rfl | hr
      · exact hcut t a ht ht' ha
      · have hsr : s.tt ≤ r.tt := by
          have := (List.pairwise_cons.1 (List.pairwise_cons.1 h.pairwise).2).1 r
            (List.mem_append_right pre hr)
          exact this.2.2.2.2
        refine h.records r (List.mem_cons_of_mem e (hmem r hr)) t a ht ht' ?_
        exact (hsame t (by omega)).symm.trans ha
    · obtain ⟨t, ht, ht', hta⟩ := ha
      exact h.offFrames r (hmem r hr) a ((hrec a (hcut t a ht ht' hta)).1 ⟨t, ht, ht', hta⟩)
    · obtain ⟨hu, hb⟩ := h.kept a ha hO
      have hra := hrec a (ha.trans hsgl)
      exact ⟨fun h₀ => (hu h₀).imp_right hra.2,
        fun h₀ => ⟨(hb h₀).1, fun hr => (hb h₀).2 (hra.1 hr)⟩⟩
    · have hlast := h.last
      rw [← List.cons_append, List.getLast?_append_of_ne_nil _ (List.cons_ne_nil s' L'')] at hlast
      exact hlast
  refine hfilter.congr ?_
  have hfields : (e.neckcut).core = { (e₁.filterTrail e₁.passes).core with bb := e.b0 } := rfl
  rw [hfields, hcore, ← hs']
  simp only [core, hgl₁]
  rfl

/-! ## `detrail` -/

/-- The newest record goes, and the cell that it names is an unbound variable again. -/
theorem Live.undo {s : Engine} (h : Live e₀ (s :: L) O e) (htt : e.tt < s.tt)
    (mem : Int → Word) (hmem : ∀ a, mem a = e.mem a ∨ e.trl (e.tt + 1) = .ref a ∧ mem a = .ref a)
    (hreset : ∀ a ≤ e₀.st, e.trl (e.tt + 1) = .ref a → mem a = .ref a) :
    Live e₀ (s :: L) O { e with mem := mem, tt := e.tt + 1 } := by
  obtain ⟨hlinked, hchain⟩ := List.isChain_cons_cons.1 h.chain
  have htop : s.tt ≤ e₀.tt := (h.base_le List.mem_cons_self).2
  have hslot : ∀ a, e.trl (e.tt + 1) = .ref a → e.Recorded e₀.tt a := fun a ha =>
    ⟨e.tt + 1, by omega, by omega, ha⟩
  have hless : ∀ a, Recorded { e with mem := mem, tt := e.tt + 1 } e₀.tt a →
      e.Recorded e₀.tt a := by
    rintro a ⟨t, ht, ht', ha⟩
    exact ⟨t, (Int.lt_succ e.tt).trans ht, ht', ha⟩
  refine ⟨⟨h.base, List.isChain_cons_cons.2
      ⟨⟨hlinked.bb, hlinked.gl, hlinked.st, Int.add_one_le_iff.2 htt⟩, hchain⟩, h.ready,
    fun s' hs' => (h.saved s' hs').congr fun a ha => ?_, ?_,
    fun s' hs' a ha => h.offFrames s' hs' a (hless a ha), fun a ha hO => ?_⟩, h.last⟩
  · rcases hmem a with hsame | ⟨hta, -⟩
    · exact hsame
    · exact (h.offFrames s' hs' a (hslot a hta) ha).elim
  · intro s' hs' t a ht ht' ha
    rcases List.mem_cons.1 hs' with rfl | hs'
    · exact h.records e List.mem_cons_self t a ((Int.lt_succ e.tt).trans ht) ht' ha
    · exact h.records s' (List.mem_cons_of_mem e hs') t a ht ht' ha
  · obtain ⟨hu, hb⟩ := h.kept a ha hO
    refine ⟨fun h₀ => ?_, fun h₀ => ?_⟩
    · by_cases hta : e.trl (e.tt + 1) = .ref a
      · exact Or.inl (hreset a ha hta)
      · have hsame : mem a = e.mem a := (hmem a).resolve_right fun hr => hta hr.1
        refine (hu h₀).imp (fun hua => hsame.trans hua) ?_
        rintro ⟨t, ht, ht', hta'⟩
        refine ⟨t, ?_, ht', hta'⟩
        have hne : t ≠ e.tt + 1 := fun heq => hta (heq ▸ hta')
        show e.tt + 1 < t
        omega
    · obtain ⟨hsame, hrec⟩ := hb h₀
      refine ⟨((hmem a).resolve_right fun hr => hrec (hslot a hr.1)).trans hsame, fun hr => ?_⟩
      exact hrec (hless a hr)

/-- One pass of `detrail`. -/
theorem Live.detrail (h : Live e₀ L O e) : Live e₀ L O e.detrail := by
  obtain ⟨s, L', rfl, hlinked, -⟩ := h.linked
  by_cases htt : e.tt < e.BTT
  · have hbtt : e.BTT = s.tt := by
      rw [BTT, ((h.saved s List.mem_cons_self).words hlinked.bb).2.2.1, Word.addr_ref]
    rw [Engine.detrail, if_pos htt]
    dsimp only
    split_ifs with hreset
    · obtain ⟨hvar, hbb⟩ := hreset
      have hw : e.trl (e.tt + 1) = .ref (e.trl (e.tt + 1)).addr := by
        cases hw : e.trl (e.tt + 1) with
        | ref a => rfl
        | _ => rw [hw] at hvar; cases hvar
      refine (h.undo (hbtt ▸ htt) (Function.update e.mem (e.trl (e.tt + 1)).addr
        (.ref (e.trl (e.tt + 1)).addr)) (fun a => ?_) fun a _ ha => ?_).congr rfl
      · by_cases ha : a = (e.trl (e.tt + 1)).addr
        · right
          rw [ha, Function.update_self]
          exact ⟨hw, rfl⟩
        · exact Or.inl (Function.update_of_ne ha _ _)
      · rw [ha]
        exact Function.update_self ..
    · refine (h.undo (hbtt ▸ htt) e.mem (fun a => Or.inl rfl) fun a ha hta => ?_).congr rfl
      refine (hreset ⟨by rw [hta]; rfl, ?_⟩).elim
      have hbb := h.bounds.1
      rw [hta]
      simp only [CHOICE_SIZE] at hbb
      show a < e.bb
      omega
  · rw [Engine.detrail, if_neg htt]
    exact h.congr rfl

end Engine

end Mlvm
