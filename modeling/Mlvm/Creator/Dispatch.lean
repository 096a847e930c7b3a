import Mlvm.Creator.ArgSize
import Mlvm.Creator.CopyVariant
import Mlvm.Creator.Cyclic
import Mlvm.Creator.Loader

/-!
# Dispatching a messenger

`imago_dispatcher` loads a messenger with room for a message, builds the list of the destination and
the message from the two words at the top of the parent's stack, and copies the list to the
messenger.

**`dispatch_iff`.** When there is room for the names, the messenger gets the list exactly when no
variable occurs twice in the message, and the message is not the unbound word at the top of the
stack: this word becomes a part of the list, which is then cyclic.
-/

namespace Mlvm.Creator

open FirstOrder StringTable

/-! ## The dispatcher -/

/-- The list `[destination, message]` is built from the words at `st - 1` and `st`; `ip->st + 3`
leads to it. -/
def buildArgument (st : Int) (m : Memory) : Memory :=
  let m₁ := m.write (st + 1) (m.read st)
  let m₂ := m₁.write st (.lis (st + 1))
  let m₃ := m₂.write (st + 2) conNil
  m₃.write (st + 3) (.lis (st - 1))

/-- `imago_dispatcher`, for a parent whose stack ends at `st` and a new block at `base`: what
`copy_arg` returns. -/
def imagoDispatcher (fuel : ℕ) (p : Program) (base st name_base : Int) (m : Memory) :
    Option (Option Int × Copy) :=
  (argSize fuel (m.read st) st m).bind fun (v, m₁) =>
    (p.load v base m₁).bind fun (cip, m₂) =>
      copyArg fuel ((buildArgument st m₂).read (st + 3)) name_base cip (buildArgument st m₂)

/-- **What is built** at the top of the stack. -/
theorem buildArgument_spec (st : Int) (m : Memory) :
    (buildArgument st m).read st = .lis (st + 1) ∧
      (buildArgument st m).read (st + 1) = m.read st ∧
      (buildArgument st m).read (st + 2) = conNil ∧
      (buildArgument st m).read (st + 3) = .lis (st - 1) ∧
      ∀ a, a < st ∨ st + 3 < a → (buildArgument st m).word a = m.word a := by
  simp only [buildArgument]
  refine ⟨?_, ?_, ?_, Memory.read_write_self .., fun a ha => ?_⟩
  · rw [Memory.read_write_of_ne _ (by omega), Memory.read_write_of_ne _ (by omega),
      Memory.read_write_self]
  · rw [Memory.read_write_of_ne _ (by omega), Memory.read_write_of_ne _ (by omega),
      Memory.read_write_of_ne _ (by omega), Memory.read_write_self]
  · rw [Memory.read_write_of_ne _ (by omega), Memory.read_write_self]
  · simp only [Memory.write]
    rw [Function.update_of_ne (by omega), Function.update_of_ne (by omega),
      Function.update_of_ne (by omega), Function.update_of_ne (by omega)]

/-! ## The call -/

/-- The words at the top of the stack are a destination and a message. The message may be the
unbound word at the top itself. -/
structure Call (A : Area) (m : Memory) (st : Int) (dest msg : Term Sym Int) : Prop where
  words : ∀ a, A.word a → a < st
  own : A.word (st - 1)
  destination : Reads A m (m.read (st - 1)) dest
  flat : Flat dest
  message : m.read st = .ref st ∧ msg = .var st ∨ Reads A m (m.read st) msg

/-- The messenger has a program with these names, and a block that is apart from the parent; the
words that `arg_size` uses are apart from a builtin messenger. -/
structure Placed (A : Area) (m : Memory) (st : Int) (msg : Term Sym Int) (p : Program)
    (es : List CString) (base : Int) : Prop where
  formed : p.Formed m es (argWords msg) base
  words : ∀ a, A.word a ∨ (st ≤ a ∧ a ≤ st + 3) →
    a < base ∨ (p.child (argWords msg) base).block_ceiling ≤ a
  bytes : ∀ b, A.byte b → b < 4 * base ∨ 4 * (p.child (argWords msg) base).block_ceiling ≤ b
  scratch : ∀ bip, p = .system bip →
    bip.block_ceiling ≤ st + 1 ∨ st + 1 + (msg.size : ℕ) ≤ bip.block_base

/-- The list of two elements. -/
def argumentTerm (dest msg : Term Sym Int) : Term Sym Int :=
  .app .list [dest, .app .list [msg, .app (.con (.same 257)) [] ] ]

/-- **The message is passed**: the copy comes to an end inside the block, the argument denotes the
list of variants of the two terms, and the terms of the parent are as before. -/
def DispatchesRight (A : Area) (m : Memory) (st : Int) (dest msg : Term Sym Int) (p : Program)
    (base : Int) : Prop :=
  ∃ fuel top s, imagoDispatcher fuel p base st A.name_base m = some (some top, s) ∧
    s.high < (p.child (argWords msg) base).tt ∧
    (∃ d u, Reads s.area s.mem (s.mem.read top) (argumentTerm d u) ∧ Variant dest d ∧
      Variant msg u) ∧
    (∀ a, A.word a → s.mem.word a = m.word a) ∧ ∀ b, A.byte b → s.mem.byte b = m.byte b

/-- **Before the copy**: the memory with the messenger and the list. -/
structure Prepared (A : Area) (m : Memory) (st : Int) (msg : Term Sym Int) (p : Program)
    (es : List CString) (base : Int) (m' : Memory) : Prop where
  comes : ∀ o,
    Fuel.Comes (fun n => copyArg n (.lis (st - 1)) A.name_base (p.child (argWords msg) base) m') o →
    Fuel.Comes (fun n => imagoDispatcher n p base st A.name_base m) o
  only : ∀ fuel r, imagoDispatcher fuel p base st A.name_base m = some r →
    copyArg fuel (.lis (st - 1)) A.name_base (p.child (argWords msg) base) m' = some r
  table : Table (p.child (argWords msg) base) m' es
  allocated : Allocated (argWords msg : ℕ) (p.child (argWords msg) base)
  block : 4 * base ≤ (p.child (argWords msg) base).name_base
  stack : base ≤ (p.child (argWords msg) base).stack_base
  word : ∀ a, A.word a → m'.word a = m.word a
  byte : ∀ b, A.byte b → m'.byte b = m.byte b
  cell : m'.read st = .lis (st + 1)
  head : m'.read (st + 1) = m.read st
  tail : m'.read (st + 2) = conNil

section Call

variable {A : Area} {m m' : Memory} {st base : Int} {dest msg : Term Sym Int} {p : Program}
  {es : List CString} {n : ℕ} {code : List Bool}

/-- The program is where it has been. -/
theorem codeFormed_congr {bip : Icb} (h : bip.CodeFormed m n code)
    (hword : ∀ a, bip.block_base ≤ a → a < bip.block_ceiling → m'.word a = m.word a) :
    bip.CodeFormed m' n code := by
  have hblock := h.block
  have hprocs := h.procs
  have hend := h.name_base
  have hnames := h.names
  have hinside := h.inside
  refine ⟨hblock, hprocs, fun k hk => ?_, fun k hk => ?_, ?_, hend, hnames, hinside⟩
  · rw [hword _ (by omega) (by omega)]
    exact h.functor k hk
  · rw [hword _ (by omega) (by omega)]
    exact h.entry k hk
  · exact h.instrs.move local_codeItem fun i hi => hword _ (by omega) (by omega)

/-- **Sizing, loading and building** come to an end. -/
theorem Call.prepared (h : Call A m st dest msg) (hp : Placed A m st msg p es base) :
    ∃ m', Prepared A m st msg p es base m' := by
  -- the message is read with the word at the top
  have hmsg : Reads { A with word := fun a => A.word a ∨ a = st } m (m.read st) msg := by
    rcases h.message with ⟨hself, rfl⟩ | hreads
    · rw [hself]
      exact .unbound (.inr rfl) hself
    · exact hreads.mono (fun _ => .inl) (fun _ => id) rfl
  have hle : ∀ a, A.word a ∨ a = st → a ≤ st := by
    rintro a (ha | rfl)
    · exact Int.le_of_lt (h.words a ha)
    · exact Int.le_refl _
  obtain ⟨m₁, hsize, hsame₁, hbyte₁, habove₁⟩ := comes_argSize hmsg hle
  have hformed : p.Formed m₁ es (argWords msg) base := by
    cases hp.formed with
    | @system bip n code hcode hat htop hapart =>
      refine .system (codeFormed_congr hcode fun a ha ha' => ?_) (by rw [hbyte₁]; exact hat) htop
        hapart
      have := hp.scratch bip rfl
      rcases (by omega : a ≤ st ∨ st + 1 + (msg.size : ℕ) ≤ a) with hlow | hhigh
      · exact hsame₁ a hlow
      · exact habove₁ a hhigh
    | user htype hnames => exact .user htype hnames
  obtain ⟨m₂, hl⟩ := hformed.loads (Int.natCast_nonneg _)
  obtain ⟨hcell, hhead, htail, htop, hframe⟩ := buildArgument_spec st m₂
  refine ⟨buildArgument st m₂, fun o ho => ?_, fun fuel r hrun => ?_,
    ⟨hl.table.names, hl.table.name_top, hl.table.room⟩, hl.allocated, hl.block, hl.stack,
    fun a ha => ?_, fun b hb => ?_, hcell, ?_, htail⟩
  · refine hsize.bind (ho.congr fun n => ?_)
    dsimp only
    rw [hl.load, Option.bind_some, htop]
  · obtain ⟨⟨v, m₃⟩, hv, hrest⟩ := Option.bind_eq_some_iff.1 hrun
    obtain ⟨rfl, rfl⟩ := Prod.mk.inj (Option.some.inj (hsize.only fuel _ hv))
    dsimp only at hrest
    rwa [hl.load, Option.bind_some, htop] at hrest
  · have hlt := h.words a ha
    rw [hframe a (.inl hlt), hl.word a (hp.words a (.inl ha)), hsame₁ a (Int.le_of_lt hlt)]
  · show m₂.byte b = m.byte b
    rw [hl.byte b (hp.bytes b hb), hbyte₁]
  · have hword : m₂.word st = m.word st := by
      rw [hl.word st (hp.words st (.inr ⟨Int.le_refl _, by omega⟩)), hsame₁ st (Int.le_refl _)]
    rw [hhead, read_eq hword]

/-! ## The list -/

/-- The parent with the three words of the list. -/
def Area.withArgument (A : Area) (st : Int) : Area :=
  { A with word := fun a => A.word a ∨ (st ≤ a ∧ a ≤ st + 2) }

/-- **The list denotes** the destination and the message, if the message is not the word at the
top. -/
theorem Prepared.reads (hp : Prepared A m st msg p es base m') (h : Call A m st dest msg)
    (hmsg : Reads A m (m.read st) msg) :
    Reads (A.withArgument st) m' (.lis (st - 1)) (argumentTerm dest msg) := by
  have hmono : ∀ {w t}, Reads A m w t → Reads (A.withArgument st) m' w t := fun hreads =>
    (hreads.congr hp.word hp.byte).mono (fun _ => .inl) (fun _ => id) rfl
  have hown : m'.read (st - 1) = m.read (st - 1) := read_eq (hp.word _ h.own)
  have hst : st - 1 + 1 = st := by omega
  have htail : st + 1 + 1 = st + 2 := by omega
  refine .list (.inl h.own) (.inr ⟨by omega, by omega⟩) ?_ ?_
  · rw [hown]
    exact hmono h.destination
  · rw [hst, hp.cell]
    refine .list (.inr ⟨by omega, by omega⟩) (.inr ⟨by omega, by omega⟩) ?_ ?_
    · rw [hp.head]
      exact hmono hmsg
    · rw [htail, hp.tail]
      exact .con (.same (by decide))

theorem Prepared.source (hp : Prepared A m st msg p es base m') (h : Call A m st dest msg)
    (hplaced : Placed A m st msg p es base) (hmsg : Reads A m (m.read st) msg) :
    Source (A.withArgument st) m' (.lis (st - 1)) (argumentTerm dest msg)
      (p.child (argWords msg) base) es := by
  have hst := hp.allocated.st
  have hstack := hp.stack
  have hblock := hp.block
  have htt : (p.child (argWords msg) base).tt < (p.child (argWords msg) base).block_ceiling := by
    rcases hp.allocated.tt with htt | htt <;> omega
  refine ⟨hp.reads h hmsg, hp.table, fun a ha => ?_, fun b hb => ?_, by omega⟩
  · have hapart : a < base ∨ (p.child (argWords msg) base).block_ceiling ≤ a := by
      refine hplaced.words a ?_
      rcases ha with ha | ha
      · exact .inl ha
      · exact .inr ⟨ha.1, by omega⟩
    omega
  · have := hplaced.bytes b hb
    omega

/-- A term of the shape of the list. -/
theorem eq_argumentTerm {dest msg u : Term Sym Int} (h : (argumentTerm dest msg).shape = u.shape) :
    ∃ d v, u = argumentTerm d v ∧ dest.shape = d.shape ∧ msg.shape = v.shape := by
  have htwo : ∀ {x y u : Term Sym Int}, (Term.app Sym.list [x, y]).shape = u.shape →
      ∃ x' y', u = .app .list [x', y'] ∧ x.shape = x'.shape ∧ y.shape = y'.shape := by
    intro x y u hu
    rcases u with v | ⟨f, ts⟩
    · simp at hu
    · rw [Term.shape_app, Term.shape_app] at hu
      obtain ⟨rfl, hts⟩ := Term.app.inj hu
      obtain ⟨x', y', rfl⟩ := List.length_eq_two.1 (by simpa using (congrArg List.length hts).symm)
      simp only [List.map_cons, List.map_nil, List.cons.injEq, and_true] at hts
      exact ⟨x', y', rfl, hts.1, hts.2⟩
  obtain ⟨d, r, rfl, hd, hr⟩ := htwo h
  obtain ⟨v, e, rfl, hv, he⟩ := htwo hr
  rcases e with x | ⟨f, ts⟩
  · simp at he
  · rw [Term.shape_app, Term.shape_app] at he
    obtain ⟨rfl, hts⟩ := Term.app.inj he
    obtain rfl := List.map_eq_nil_iff.1 hts.symm
    exact ⟨d, v, rfl, hd, hv⟩

theorem Flat.linear {t : Term Sym Int} (h : Flat t) : t.Linear := by
  cases h <;> simp [Term.Linear]

theorem vars_argumentTerm (d v : Term Sym Int) : (argumentTerm d v).vars = d.vars ++ v.vars := by
  simp [argumentTerm]

/-- **The list arrives** as it should exactly when no variable occurs twice in the message. -/
theorem Prepared.dispatches_iff (hp : Prepared A m st msg p es base m') (h : Call A m st dest msg)
    (hplaced : Placed A m st msg p es base) (hmsg : Reads A m (m.read st) msg)
    (hwalk : Walk (Movable (p.child (argWords msg) base) ∧ Seen (argumentTerm dest msg)) FitsFunctor
      (free (p.child (argWords msg) base)) 1 es (room (p.child (argWords msg) base))
      [.term (argumentTerm dest msg)] true) :
    DispatchesRight A m st dest msg p base ↔ msg.Linear := by
  have hst := hp.allocated.st
  have hsource := hp.source h hplaced hmsg
  have hsteady : Steady (p.child (argWords msg) base) m' := by
    refine ⟨?_, fun hlt => by omega, fun a ha ha' => by omega⟩
    rw [hst, Int.sub_add_cancel]
    exact .nil
  have hfree : 1 ≤ free (p.child (argWords msg) base) := by
    obtain ⟨hmessenger, hworker⟩ := units_eq
    rw [free]
    rcases hp.allocated.block_ceiling with hceiling | hceiling <;>
      rcases hp.allocated.tt with htt | htt <;> omega
  obtain ⟨s, u, d, hc⟩ := hsource.copies hfree
    (hwalk.mono (fun hm => ⟨hm.1, hsteady, hm.2⟩) fun _ _ => id)
  have hcomes := hp.comes _ hc.comes
  obtain ⟨d', v, rfl, hd, hv⟩ := eq_argumentTerm hc.shape
  have hlinear := hc.linear
  rw [Term.Linear, vars_argumentTerm, List.nodup_append'] at hlinear
  constructor
  · rintro ⟨fuel, top, s', hrun, -, ⟨d'', v', hreads, -, hvariant⟩, -⟩
    obtain ⟨htop, rfl⟩ := Prod.mk.inj (Option.some.inj (hcomes.only fuel _ hrun))
    obtain rfl := Option.some.inj htop
    have hsame := hc.reads.unique hreads
    simp only [argumentTerm, Term.app.injEq, List.cons.injEq, true_and, and_true] at hsame
    obtain ⟨rfl, rfl⟩ := hsame
    exact (variant_iff_linear hv hlinear.2.1).1 hvariant
  · intro ht
    obtain ⟨fuel, hrun⟩ := (hcomes.exists_iff _).2 rfl
    refine ⟨fuel, s.sktop, s, hrun, hc.high, ⟨d', v, hc.reads,
      (variant_iff_linear hd hlinear.1).2 h.flat.linear, (variant_iff_linear hv hlinear.2.1).2 ht⟩,
      fun a ha => ?_, fun b hb => ?_⟩
    · rw [hc.outside a (hsource.words a (.inl ha)), hp.word a ha]
    · rw [hc.byte b (hsource.bytes b hb), hp.byte b hb]

/-- Without room the list does not arrive. -/
theorem Prepared.walk (hp : Prepared A m st msg p es base m') (h : Call A m st dest msg)
    (hplaced : Placed A m st msg p es base) (hmsg : Reads A m (m.read st) msg)
    (hright : DispatchesRight A m st dest msg p base) :
    Walk (Movable (p.child (argWords msg) base)) (fun _ _ => True)
      (free (p.child (argWords msg) base)) 1 es (room (p.child (argWords msg) base))
      [.term (argumentTerm dest msg)] true := by
  obtain ⟨fuel, top, s, hrun, hhigh, -⟩ := hright
  obtain ⟨o, ho, hends⟩ := (hp.source h hplaced hmsg).comes
  exact ((hends true).1 ⟨some top, s, ho.only fuel _ (hp.only fuel _ hrun), hhigh, rfl⟩).2

/-! ## The word at the top -/

/-- **A message that is the unbound word at the top** does not arrive: the word has become the list.
-/
theorem Prepared.not_dispatches (hp : Prepared A m st msg p es base m') (h : Call A m st dest msg)
    (hplaced : Placed A m st msg p es base) (hself : m.read st = .ref st) :
    ¬ DispatchesRight A m st dest msg p base := by
  rintro ⟨fuel, top, s, hrun, -⟩
  refine (?_ : Never A.name_base (.init (.lis (st - 1)) (p.child (argWords msg) base) m')) fuel top
    s
    (hp.only fuel _ hrun)
  have hst := hp.allocated.st
  have hstack := hp.stack
  have hbounds : (p.child (argWords msg) base).st + 100 ≤ (p.child (argWords msg) base).tt ∧
      (p.child (argWords msg) base).tt < (p.child (argWords msg) base).block_ceiling := by
    obtain ⟨hmessenger, hworker⟩ := units_eq
    rcases hp.allocated.block_ceiling with hceiling | hceiling <;>
      rcases hp.allocated.tt with htt | htt <;> omega
  have happart : ∀ a, A.word a ∨ (st ≤ a ∧ a ≤ st + 3) →
      a < (p.child (argWords msg) base).stack_base ∨ (p.child (argWords msg) base).tt ≤ a := by
    intro a ha
    have := hplaced.words a ha
    omega
  have hloops : Loops m' st := ⟨hp.cell, hp.head.trans hself, hp.tail⟩
  refine hloops.never_copied hp.table (by omega) hbounds.1 (fun a ha => happart a ?_) h.own ?_
    h.flat
  · exact ha.imp_right fun ha => ⟨ha.1, by omega⟩
  · rw [read_eq (hp.word _ h.own)]
    exact h.destination.congr hp.word hp.byte

/-! ## What is passed -/

/-- **With room** for the names, the message is passed exactly when it is not the unbound word at
the top and no variable occurs twice in it; and without, it is not. -/
theorem dispatch_iff (h : Call A m st dest msg) (hplaced : Placed A m st msg p es base) :
    ((m.read st ≠ .ref st →
        Walk (Movable (p.child (argWords msg) base) ∧ Seen (argumentTerm dest msg)) FitsFunctor
          (free (p.child (argWords msg) base)) 1 es (room (p.child (argWords msg) base))
          [.term (argumentTerm dest msg)] true) →
      (DispatchesRight A m st dest msg p base ↔ m.read st ≠ .ref st ∧ msg.Linear)) ∧
    (DispatchesRight A m st dest msg p base → m.read st ≠ .ref st ∧
      Walk (Movable (p.child (argWords msg) base)) (fun _ _ => True)
        (free (p.child (argWords msg) base)) 1 es (room (p.child (argWords msg) base))
        [.term (argumentTerm dest msg)] true) := by
  obtain ⟨m', hp⟩ := h.prepared hplaced
  by_cases hself : m.read st = .ref st
  · have hnot := hp.not_dispatches h hplaced hself
    exact ⟨fun _ => iff_of_false hnot fun hright => hright.1 hself,
      fun hright => absurd hright hnot⟩
  · have hmsg := h.message.resolve_left fun htop => hself htop.1
    refine ⟨fun hwalk => ?_, fun hright => ⟨hself, hp.walk h hplaced hmsg hright⟩⟩
    rw [and_iff_right hself]
    exact hp.dispatches_iff h hplaced hmsg (hwalk hself)

end Call

/-! ## A void message -/

/-- The name of one character `a`, and a void variable at the top of the stack. -/
def voidMemory : Memory where
  word x := [(Word.makeCon 97).bits, 40].getD (x - 9).toNat 0
  byte _ := 0

/-- An unbound word, the name `a`, and a reference to the unbound word at the top of the stack. -/
def variableMemory : Memory where
  word x := [32, (Word.makeCon 97).bits, 32].getD (x - 8).toNat 0
  byte _ := 0

def callerArea : Area where
  word a := 8 ≤ a ∧ a ≤ 9
  byte _ := False
  name_base := 0

/-- A messenger without code and with the name `[]` only. -/
def silent : UserFile where
  itype := 2
  psize := 0
  csize := 0
  names := [91, 93, 10]
  words _ := 0

/-- The name `a`. -/
def letter : Term Sym Int := .app (.con (.same 195)) []

theorem silent_placed (m : Memory) (msg : Term Sym Int) :
    Placed callerArea m 10 msg (.user silent) [⟨[91, 93], by decide⟩] 100 where
  formed := .user (by decide) (by decide)
  words a ha := by
    left
    rcases ha with ha | ha
    · exact Int.lt_of_le_of_lt ha.2 (by decide)
    · exact Int.lt_of_le_of_lt ha.2 (by decide)
  bytes b hb := hb.elim
  scratch bip h := by cases h

/-- A void message is the word at the top itself, and is not passed. -/
theorem not_dispatchesRight_void :
    Call callerArea voidMemory 10 letter (.var 10) ∧
      Placed callerArea voidMemory 10 (.var 10) (.user silent) [⟨[91, 93], by decide⟩] 100 ∧
      ¬ DispatchesRight callerArea voidMemory 10 letter (.var 10) (.user silent) 100 := by
  have hcall : Call callerArea voidMemory 10 letter (.var 10) :=
    ⟨fun a ha => Int.lt_of_le_of_lt ha.2 (by decide), ⟨by decide, by decide⟩,
      .con (.same (by decide)), .con _, .inl ⟨by decide, rfl⟩⟩
  have hplaced := silent_placed voidMemory (.var 10)
  obtain ⟨m', hp⟩ := hcall.prepared hplaced
  exact ⟨hcall, hplaced, hp.not_dispatches hcall hplaced (by decide)⟩

/-- There is room for the name and a variable. -/
theorem silent_walk (move : Prop) (v : Int) :
    Walk move FitsFunctor (free ((Program.user silent).child 1 100)) 1 [⟨[91, 93], by decide⟩]
      (room ((Program.user silent).child 1 100)) [.term (argumentTerm letter (.var v))] true := by
  have hfree : free ((Program.user silent).child 1 100) = 4095 := by decide
  rw [hfree]
  have hlist : ∀ x y, (Item.term (.app .list [x, y])).pushed = 2 := fun _ _ => rfl
  have hcon : ∀ c, (Item.term (.app (.con (.same c)) [])).pushed = 0 := fun _ => rfl
  have hvar : ∀ x, (Item.term (.var x)).pushed = 0 := fun _ => rfl
  refine .parts (by decide) rfl ?_ (.parts ?_ rfl ?_ (.parts ?_ rfl ?_ (.parts ?_ rfl ?_
    (.parts ?_ rfl ?_ (.done ?_))))) <;> simp only [argumentTerm, letter, hlist, hcon, hvar] <;>
    decide

/-- A variable that is not the word at the top is passed. -/
theorem dispatchesRight_variable :
    DispatchesRight callerArea variableMemory 10 letter (.var 8) (.user silent) 100 := by
  have hcall : Call callerArea variableMemory 10 letter (.var 8) :=
    ⟨fun a ha => Int.lt_of_le_of_lt ha.2 (by decide), ⟨by decide, by decide⟩,
      .con (.same (by decide)), .con _,
      .inr (.unbound ⟨by decide, by decide⟩ (by decide))⟩
  have hplaced := silent_placed variableMemory (.var 8)
  refine ((dispatch_iff hcall hplaced).1 fun _ => ?_).2 ⟨by decide, by simp [Term.Linear]⟩
  rw [argWords_var]
  exact silent_walk _ 8

end Mlvm.Creator
