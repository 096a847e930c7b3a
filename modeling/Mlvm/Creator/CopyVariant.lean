import Mlvm.Creator.CopyRun

/-!
# Copies are linear

**`run`.** When there is room for what comes up, the loop comes to its end, every item of the queue
has become a term of its shape, and no variable occurs twice in these terms.

**`copyArg_variant_iff`.** So the copy is a variant of the term exactly when no variable occurs
twice in the term: an unbound word of the source becomes a new variable each time it comes up.
-/

namespace Mlvm.Creator

open FirstOrder StringTable

/-! ## To the end of the loop -/

/-- From `s` on the loop comes to its end and makes terms of the items, without a variable twice. -/
def Whole (A : Area) (move : Prop) (s : Copy) (es : List CString) (q : List Item) : Prop :=
  ∃ s' es' d us,
    Fuel.Comes (fun n => Copy.loop A.name_base (s.child.tt - 6) n s)
      (some (some s'.sktop, s'.set s'.sktop (s'.mem.read (s'.child.st + 1)))) ∧
    Finished move s s' es es' d ∧ YieldsAll s'.area s'.mem (s.skbot + d) q us ∧
    (us.flatMap Term.vars).Nodup ∧ ∀ v ∈ us.flatMap Term.vars, s.skbot + d ≤ v

section Run

variable {A : Area} {move : Prop} {s s₁ : Copy} {es es₁ : List CString} {i : Item} {q : List Item}
  {d₁ : Int} {pcon : CString}

/-- **A round without a name.** -/
theorem whole_plain (h : Scanning A True move s es (i :: q)) (ht : Tight move s)
    (hfull : s.sktop < s.child.tt - 6) (hname : i.name = none) (hs : Plain A True s s₁ i)
    (hscan : Fuel.Comes (fun n => s.scan n A.name_base) (some s₁))
    (hrest : Whole A move s₁ es (q ++ i.children)) : Whole A move s es (i :: q) := by
  obtain ⟨s', es', d, us, hloop, hf, hyields, hnodup, hvars⟩ := hrest
  have hlt := h.lt
  have hadd := h.pending.eq_add
  have hskbot := hs.skbot
  rw [queueWords_cons] at hadd
  obtain ⟨us, vs, rfl, hus, hvs⟩ := yieldsAll_append hyields
  have hplace : s₁.skbot + d + (queueWords q : ℕ) = s.sktop + d := by omega
  have hplace' : s₁.skbot + d = s.skbot + d + i.words := by omega
  rw [hplace] at hvs
  rw [hplace'] at hus
  obtain ⟨ws, hi, hws⟩ := hf.yields_plain h hname hs hvs
  rw [List.flatMap_append, List.nodup_append_comm] at hnodup
  rw [hs.child] at hloop
  refine ⟨s', es', d, ws ++ us, comes_loop_step (by omega) hfull hscan hloop, hf.of_plain h ht hs,
    .cons hi hus, ?_, fun v hv => ?_⟩
  · rw [List.flatMap_append]
    rcases hws with hws | ⟨rfl, hws⟩
    · rw [hws]
      exact hnodup
    · -- the new variable is below all others
      rw [hws, List.singleton_append, List.nodup_cons]
      refine ⟨fun hmem => ?_, by simpa using hnodup⟩
      have := hvars (s.skbot + d) (by simpa using hmem)
      omega
  · rw [List.flatMap_append, List.mem_append] at hv
    rcases hv with hv | hv
    · rcases hws with hws | ⟨-, hws⟩
      · rw [hws] at hv
        have := hvars v (by rw [List.flatMap_append]; exact List.mem_append_right _ hv)
        omega
      · rw [hws] at hv
        exact Int.le_of_eq (List.mem_singleton.1 hv).symm
    · have := hvars v (by rw [List.flatMap_append]; exact List.mem_append_left _ hv)
      omega

/-- **A round on a name.** -/
theorem whole_named (h : Scanning A True move s es (i :: q)) (ht : Tight move s)
    (hfull : s.sktop < s.child.tt - 6) (hname : i.name = some pcon)
    (hs : Named s s₁ d₁ pcon i.arity es₁) (hd : 0 ≤ d₁) (hmove : d₁ ≠ 0 → move)
    (hnames : es <+: es₁) (hindex : ∀ k, IndexOf es₁ pcon k → FitsFunctor i.arity k)
    (htop : s.sktop + d₁ ≤ s.child.tt)
    (hscan : Fuel.Comes (fun n => s.scan n A.name_base) (some s₁))
    (ih : Scanning A True move s₁ es₁ q → Tight move s₁ → Whole A move s₁ es₁ q) :
    Whole A move s es (i :: q) := by
  have hlt := h.lt
  have hskbot := hs.skbot
  have hone := (h.name_word hname).1
  have hbound : ∀ k, IndexOf es₁ pcon k → (k : Int) + ASCII_SIZE < 2 ^ 20 - 1 := fun k hk =>
    (hindex k hk).2
  have hscanning := h.named hname hs hd hmove (fun _ => hbound) (by rw [hs.sktop]; exact htop)
  obtain ⟨s', es', d, us, hloop, hf, hyields, hnodup, hvars⟩ :=
    ih hscanning (ht.named h hname hs hd hmove hbound)
  have hplace : s₁.skbot + d = s.skbot + (d₁ + d) + i.words := by omega
  rw [hplace] at hyields
  rw [hs.tt] at hloop
  obtain ⟨ws, hi, hws⟩ := hf.yields_name h hname hs hindex
  refine ⟨s', es', d₁ + d, ws ++ us, comes_loop_step (by omega) hfull hscan hloop,
    hf.of_named h ht hname hs hd hmove hbound hnames, .cons hi hyields, ?_, fun v hv => ?_⟩
  · rw [List.flatMap_append, hws]
    exact hnodup
  · rw [List.flatMap_append, hws] at hv
    have := hvars v hv
    omega

end Run

/-- **The loop** comes to its end when there is room for what comes up. -/
theorem run {A : Area} {move : Prop} (q : List Item) (s : Copy) (es : List CString)
    (h : Scanning A True move s es q) (ht : Tight move s) (hmovable : move → Movable s.child)
    (hwalk : Walk move FitsFunctor (free s.child) s.used es (room s.child) q true) :
    Whole A move s es q := by
  induction q using Item.queue_induction generalizing s es with
  | nil =>
    have heq : s.skbot = s.sktop := by simpa using h.pending.eq_add.symm
    have hend := (walk_nil_iff.1 hwalk).1
    rw [Copy.used, free] at hend
    exact ⟨s, es, 0, [], comes_loop_done heq, finished_refl h (by omega), .nil, List.nodup_nil,
      fun v hv => absurd hv List.not_mem_nil⟩
  | cons i q ih =>
    have hlt := h.lt
    have hbase : s.child.stack_base ≤ s.skbot := Int.le_trans h.base h.st
    -- after a round on a name
    have hround : ∀ {pcon : CString} {s₁ : Copy} {es₁ : List CString} {d₁ : Int},
        s.sktop < s.child.tt - 6 → i.name = some pcon → Named s s₁ d₁ pcon i.arity es₁ → 0 ≤ d₁ →
        (d₁ ≠ 0 → move) → es <+: es₁ → (∀ k, IndexOf es₁ pcon k → FitsFunctor i.arity k) →
        s.sktop + d₁ ≤ s.child.tt → Fuel.Comes (fun n => s.intern n pcon.chars i.arity) (some s₁) →
        Walk move FitsFunctor (free s.child - d₁) s.used es₁
          (room s.child + 4 * d₁ - ((pack es₁).length - (pack es).length)) q true →
        Whole A move s es (i :: q) := by
      intro pcon s₁ es₁ d₁ hfull hname hs hd hmove hnames hindex htop hintern hrest
      obtain ⟨hmovable', hfree, hused, hroom⟩ := hs.given h.table
      rw [Item.children_of_name hname, List.append_nil] at ih
      refine whole_named h ht hfull hname hs hd hmove hnames hindex htop
        (comes_scan_name h hname hintern) fun hscanning htight => ?_
      refine ih s₁ es₁ hscanning htight ?_ ?_
      · rw [hmovable']
        exact hmovable
      · rw [hfree, hused, hroom]
        exact hrest
    cases hwalk with
    | parts hused hname hpushed hrest =>
      rw [Copy.used, free] at hused hpushed
      obtain ⟨s₁, hscan, hs⟩ := scan_plain h hname
      have hsktop := hs.sktop
      have htop : s₁.sktop ≤ s.child.tt := by omega
      refine whole_plain h ht (by omega) hname hs hscan ?_
      refine ih s₁ es (h.plain hs htop) (ht.plain h hname hs) ?_ ?_
      · rw [hs.child]
        exact hmovable
      · have hgiven : s₁.used = s.used + i.pushed := by
          rw [Copy.used, Copy.used, hs.child]
          omega
        rw [hs.child, hgiven]
        exact hrest
    | known hused hname hmem hindex hrest =>
      rw [Copy.used, free] at hused
      obtain ⟨s₁, hintern, hs⟩ := comes_intern_known h.table (by omega) hbase hmem i.arity
      refine hround (by omega) hname hs (Int.le_refl 0) (fun hne => absurd rfl hne)
        List.prefix_rfl hindex (by omega) hintern ?_
      rwa [Int.mul_zero, Int.add_zero, Int.sub_zero, Int.sub_self, Int.sub_zero]
    | @fits _ _ _ _ _ _ _ pcon hused hname hmem hindex hroom hrest =>
      rw [Copy.used, free] at hused
      rw [room] at hroom
      obtain ⟨s₁, hintern, hs⟩ := comes_intern_fits h.table (by omega) hbase hmem (by omega) i.arity
      refine hround (by omega) hname hs (Int.le_refl 0) (fun hne => absurd rfl hne)
        (List.prefix_append _ _) (fun k hk => by rwa [hk.eq_length hmem]) (by omega) hintern ?_
      rwa [Int.mul_zero, Int.add_zero, Int.sub_zero, length_pack_append_sub]
    | @moved _ _ _ _ _ _ _ pcon hused hname hmem hindex hmove hroom hlong hfree hrest =>
      rw [Copy.used, free] at hused hfree
      rw [room] at hroom hlong
      obtain ⟨s₁, hintern, hs⟩ := comes_intern_moved h.table (by omega) hbase hmem (by omega)
        (hmovable hmove) (by omega) i.arity
      refine hround (by omega) hname hs (by decide) (fun _ => hmove) (List.prefix_append _ _)
        (fun k hk => by rwa [hk.eq_length hmem]) (by omega) hintern ?_
      rwa [length_pack_append_sub]

/-! ## The copy -/

/-- The stack of the child can be moved as it should: the doubles in it are seen, and nothing in it
points above it. -/
structure Steady (child : Icb) (m : Memory) : Prop where
  marked : Marked m.word child.stack_base (child.st + 1)
  first : child.stack_base < child.st + 1 → m.word child.stack_base ≠ -1
  below : ∀ a, child.stack_base ≤ a → a ≤ child.st → ¬ InDouble m.word child.stack_base a →
    ¬ IsStackPointer (child.st + 1) (child.tt - 1) (m.word a)

/-- The stack of the child is as before, moved up by `d`. -/
def Unchanged (child : Icb) (m m' : Memory) (d : Int) : Prop :=
  ∀ a, child.stack_base ≤ a → a ≤ child.st →
    (d = 0 ∨ ¬ InDouble m.word child.stack_base a →
      m'.word (a + d) = carry d child.stack_base (child.st + 1) (m.word a)) ∧
    (d = 0 ∨ InDouble m.word child.stack_base a → m'.word (a + d) = m.word a)

/-- **The copy is a variant** of the term: the copy comes to an end inside the free words, the word
at the top denotes a variant in words of its own, and the stack below is as before. -/
def CopiesRight (A : Area) (m : Memory) (proot : Word) (t : Term Sym Int) (child : Icb) : Prop :=
  ∃ fuel top s, copyArg fuel proot A.name_base child m = some (some top, s) ∧ s.high < child.tt ∧
    (∃ u, Reads s.area s.mem (s.mem.read top) u ∧ Variant t u) ∧
    (∀ a, s.area.word a → ¬ A.word a) ∧
    ∃ d, 0 ≤ d ∧ s.child.st = child.st + d ∧ Unchanged child m s.mem d

section Copy

variable {A : Area} {m : Memory} {proot : Word} {t : Term Sym Int} {child : Icb} {es : List CString}

/-- The term `u` has been copied, as linear as it can be, and the stack of the child is as before,
up to a move by `d`. -/
structure Copied (A : Area) (m : Memory) (proot : Word) (t : Term Sym Int) (child : Icb) (s : Copy)
    (u : Term Sym Int) (d : Int) : Prop where
  comes : Fuel.Comes (fun n => copyArg n proot A.name_base child m) (some (some s.sktop, s))
  high : s.high < child.tt
  reads : Reads s.area s.mem (s.mem.read s.sktop) u
  shape : t.shape = u.shape
  linear : u.Linear
  apart : ∀ a, s.area.word a → ¬ A.word a
  shift : 0 ≤ d
  st : s.child.st = child.st + d
  tt : s.child.tt = child.tt
  unchanged : Unchanged child m s.mem d
  outside : ∀ a, a < child.stack_base ∨ child.tt ≤ a → s.mem.word a = m.word a
  byte : ∀ b, b < child.name_base ∨ 4 * child.tt ≤ b → s.mem.byte b = m.byte b

/-- **What the copy is** when there is room for what comes up. -/
theorem Source.copies (h : Source A m proot t child es) (hfree : 1 ≤ free child)
    (hwalk : Walk (Movable child ∧ Steady child m ∧ Seen t) FitsFunctor (free child) 1 es
    (room child)
      [.term t] true) : ∃ s u d, Copied A m proot t child s u d := by
  have hbase := h.base
  have hscanning := @Source.scanning A m proot t child es True
    (Movable child ∧ Steady child m ∧ Seen t) h hfree
    fun _ hm => ⟨hm.2.1.marked, hm.2.1.first, hm.2.2⟩
  -- the word that is written first stands above the stack
  have hsame : ∀ a, a ≤ child.st → (Copy.init proot child m).mem.word a = m.word a :=
    fun a ha => Function.update_of_ne (by omega) ..
  have hdouble : ∀ a, child.stack_base ≤ a → a ≤ child.st →
      (InDouble (Copy.init proot child m).mem.word child.stack_base a ↔
        InDouble m.word child.stack_base a) :=
    fun a ha ha' => inDouble_congr ha fun x _ hx => by rw [hsame x (by omega)]
  have htight : Tight (Movable child ∧ Steady child m ∧ Seen t) (.init proot child m) := by
    intro hm a ha ha' hnot hptr
    have hle : a ≤ child.st := Int.le_of_lt_add_one ha'
    rw [hsame a hle] at hptr
    refine hm.2.1.below a ha hle (fun hin => hnot ((hdouble a ha hle).2 hin))
      ⟨hptr.1, ?_, hptr.2.2⟩
    exact Int.le_trans (show child.st + 1 ≤ child.st + 2 by omega) hptr.2.1
  have hused : (Copy.init proot child m).used = 1 := by
    show child.st + 2 - (child.st + 1) = 1
    omega
  obtain ⟨s, es', d, us, hloop, hf, hyields, hnodup, -⟩ :=
    run _ _ _ hscanning htight (fun hm => hm.1) (by rw [hused]; exact hwalk)
  obtain ⟨⟩ | ⟨hi, ⟨⟩⟩ := hyields
  cases hi with
  | @term _ u hword hreads hshape =>
  have hst : s.child.st = child.st + d := hf.st
  have htop : s.sktop < child.tt := hf.tt ▸ hf.top
  have hgrown : child.st + 2 + d ≤ s.sktop := hf.grown
  have hfirst : s.child.st + 1 = child.st + 1 + d := by omega
  rw [hfirst] at hloop
  have hmem : ∀ a, a ≠ s.sktop →
      (s.set s.sktop (s.mem.read (child.st + 1 + d))).mem.word a = s.mem.word a :=
    fun a ha => Function.update_of_ne ha ..
  -- what has been written is known from the walk
  have hhigh : (s.set s.sktop (s.mem.read (child.st + 1 + d))).high < child.tt := by
    obtain ⟨o, ho, hends⟩ := h.comes
    obtain ⟨r, s', rfl, hlt, -⟩ := (hends true).2
      ⟨hfree, hwalk.mono (fun hm => hm.1) fun _ _ _ => trivial⟩
    obtain ⟨-, rfl⟩ := Prod.mk.inj (Option.some.inj (ho.unique hloop))
    exact hlt
  rw [free] at hfree
  refine ⟨s.set s.sktop (s.mem.read (child.st + 1 + d)), u, d, hloop, hhigh, ?_, hshape, ?_,
    fun a ha hA => ?_, hf.shift, hst, hf.tt, fun a ha ha' => ?_, fun a ha => ?_, hf.byte⟩
  · have hroot : (s.set s.sktop (s.mem.read (child.st + 1 + d))).mem.read s.sktop =
        s.mem.read (child.st + 1 + d) := Memory.read_write_self ..
    show Reads s.area _ (Memory.read _ s.sktop) u
    rw [hroot]
    exact hreads.congr (fun a ha => hmem a (Int.ne_of_lt ha.2)) fun _ _ => rfl
  · simpa [Term.Linear] using hnodup
  · have hlow : s.child.st < a := ha.1
    have hhigh : a < s.sktop := ha.2
    have hshift := hf.shift
    have := h.words a hA
    omega
  · have hcell := hf.cell a ha (Int.lt_add_one_of_le ha')
    have hdata := hf.data a ha (Int.lt_add_one_of_le ha')
    have hne : a + d ≠ s.sktop := by omega
    rw [hmem _ hne]
    rw [hsame a ha'] at hcell hdata
    refine ⟨fun hnot => ?_, fun hin => ?_⟩
    · refine (hcell (hnot.imp_right (mt (hdouble a ha ha').1))).trans ?_
      by_cases hzero : d = 0
      · rw [hzero, carry_zero, carry_zero]
      · refine carry_top (show child.st + 1 ≤ child.st + 2 by omega) ?_
          ((hf.moved hzero).2.1.below a ha ha' (hnot.resolve_left hzero))
        show child.st + 2 ≤ child.tt
        omega
    · exact hdata (hin.imp_right (hdouble a ha ha').2)
  · rw [hmem a (by have := hf.shift; omega), hf.outside a ha]
    exact Function.update_of_ne (by omega) ..

theorem Source.copiesRight_iff_linear (h : Source A m proot t child es) (hfree : 1 ≤ free child)
    (hwalk : Walk (Movable child ∧ Steady child m ∧ Seen t) FitsFunctor (free child) 1 es
    (room child)
      [.term t] true) : CopiesRight A m proot t child ↔ t.Linear := by
  obtain ⟨s, u, d, hc⟩ := h.copies hfree hwalk
  constructor
  · rintro ⟨fuel, top, s', hrun, -, ⟨u', hreads, hvariant⟩, -⟩
    obtain ⟨htop, rfl⟩ := Prod.mk.inj (Option.some.inj (hc.comes.only fuel _ hrun))
    obtain rfl := Option.some.inj htop
    obtain rfl := hc.reads.unique hreads
    exact (variant_iff_linear hc.shape hc.linear).1 hvariant
  · intro ht
    obtain ⟨fuel, hrun⟩ := (hc.comes.exists_iff _).2 rfl
    exact ⟨fuel, s.sktop, s, hrun, hc.high,
      ⟨u, hc.reads, (variant_iff_linear hc.shape hc.linear).2 ht⟩, hc.apart, d, hc.shift, hc.st,
      hc.unchanged⟩

/-- **With room** for what comes up, the copy is a variant exactly of a term in which no variable
occurs twice; and without, it is none. -/
theorem copyArg_variant_iff (h : Source A m proot t child es) :
    (1 ≤ free child → Walk (Movable child ∧ Steady child m ∧ Seen t) FitsFunctor (free child) 1 es
        (room child) [.term t] true → (CopiesRight A m proot t child ↔ t.Linear)) ∧
      (CopiesRight A m proot t child → 1 ≤ free child ∧
        Walk (Movable child) (fun _ _ => True) (free child) 1 es (room child) [.term t] true) := by
  refine ⟨h.copiesRight_iff_linear, ?_⟩
  rintro ⟨fuel, top, s, hrun, hhigh, -⟩
  obtain ⟨o, ho, hends⟩ := h.comes
  exact (hends true).1 ⟨some top, s, ho.only fuel _ hrun, hhigh, rfl⟩

end Copy

/-! ## Two variables -/

/-- An unbound word, a list cell that leads to it twice, and one that leads to it and to itself. -/
def pairMemory : Memory where
  word a := [0, 0, 0, 0, 16].getD a.toNat 3
  byte _ := 0

def pairArea : Area where
  word a := 0 ≤ a ∧ a ≤ 4
  byte _ := False
  name_base := 0

/-- A child with an empty stack and twenty free words. -/
def pairChild : Icb :=
  { worker with name_base := 400, name_top := 400, stack_base := 100, st := 99, tt := 120,
                block_ceiling := 122 }

theorem pair_source {w : Word} {t : Term Sym Int} (h : Reads pairArea pairMemory w t) :
    Source pairArea pairMemory w t pairChild [] where
  reads := h
  table := ⟨at_nil _ _, rfl, by decide⟩
  words a ha := .inl (Int.lt_of_le_of_lt ha.2 (by decide))
  bytes b hb := hb.elim
  base := by decide

/-- There is room for a list of two variables. -/
theorem pair_walk (move : Prop) (v w : Int) :
    Walk move FitsFunctor (free pairChild) 1 [] (room pairChild)
      [.term (.app .list [.var v, .var w])] true := by
  have hfree : free pairChild = 20 := by decide
  have hlist : (Item.term (.app .list [.var v, .var w])).pushed = 2 := rfl
  have hvar : ∀ x, (Item.term (.var x)).pushed = 0 := fun _ => rfl
  refine .parts (by omega) rfl (by omega) ?_
  rw [hlist]
  refine .parts (by omega) rfl (by rw [hvar]; omega) (.parts ?_ rfl ?_ (.done ?_)) <;>
    simp only [hvar] <;> omega

theorem pair_reads_shared :
    Reads pairArea pairMemory (.lis 1) (.app .list [.var 0, .var 0]) :=
  .list ⟨by decide, by decide⟩ ⟨by decide, by decide⟩ (.unbound ⟨by decide, by decide⟩ (by decide))
    (.unbound ⟨by decide, by decide⟩ (by decide))

/-- The two variables of the copy are not the same. -/
theorem not_copiesRight_shared :
    Source pairArea pairMemory (.lis 1) (.app .list [.var 0, .var 0]) pairChild [] ∧
      1 ≤ free pairChild ∧
      Walk (Movable pairChild ∧ Steady pairChild pairMemory ∧
          Seen (.app .list [.var 0, .var 0])) FitsFunctor (free pairChild) 1 [] (room pairChild)
        [.term (.app .list [.var 0, .var 0])] true ∧
      ¬ CopiesRight pairArea pairMemory (.lis 1) (.app .list [.var 0, .var 0]) pairChild := by
  have hsource := pair_source pair_reads_shared
  have hwalk := pair_walk
    (Movable pairChild ∧ Steady pairChild pairMemory ∧ Seen (.app .list [.var 0, .var 0])) 0 0
  refine ⟨hsource, by decide, hwalk, ?_⟩
  rw [hsource.copiesRight_iff_linear (by decide) hwalk]
  simp [Term.Linear]

/-- Two variables are copied as they should be. -/
theorem copiesRight_apart :
    CopiesRight pairArea pairMemory (.lis 3) (.app .list [.var 0, .var 4]) pairChild := by
  have hreads : Reads pairArea pairMemory (.lis 3) (.app .list [.var 0, .var 4]) :=
    .list ⟨by decide, by decide⟩ ⟨by decide, by decide⟩
      (.unbound ⟨by decide, by decide⟩ (by decide)) (.unbound ⟨by decide, by decide⟩ (by decide))
  refine ((copyArg_variant_iff (pair_source hreads)).1 (by decide) (pair_walk _ 0 4)).2 ?_
  simp [Term.Linear]

end Mlvm.Creator
