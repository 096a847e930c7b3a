import Mlvm.Creator.CopySpace

/-!
# A list that is its own element

`copy_arg` does not mark what it has copied, so it goes round in a cyclic term until there is no
room left. The cycle here is the one that the dispatcher builds when the message is the unbound word
at the top of the stack: the word is made a list whose first element is a reference to this word.

**`Turning.never`.** While a word of the cycle is pending, the copy does not become whole.
-/

namespace Mlvm.Creator

open FirstOrder StringTable

/-! ## Going round -/

/-- The word at `st` is the list that follows, the first element of which is a reference to it. -/
structure Loops (m : Memory) (st : Int) : Prop where
  cell : m.read st = .lis (st + 1)
  head : m.read (st + 1) = .ref st
  tail : m.read (st + 2) = conNil

theorem Loops.congr {m m' : Memory} {st : Int} (h : Loops m st)
    (hword : ∀ a, st ≤ a → a ≤ st + 2 → m'.word a = m.word a) : Loops m' st where
  cell := (read_eq (hword st (by omega) (by omega))).trans h.cell
  head := (read_eq (hword (st + 1) (by omega) (by omega))).trans h.head
  tail := (read_eq (hword (st + 2) (by omega) (by omega))).trans h.tail

/-- Only words of the cycle are pending, and not only the ends of the lists. -/
structure Turning (st : Int) (s : Copy) : Prop where
  loops : Loops s.mem st
  apart : st + 2 < s.child.stack_base ∨ s.child.tt ≤ st
  base : s.child.stack_base ≤ s.skbot
  top : s.sktop ≤ s.child.tt
  pending : ∀ a, s.skbot ≤ a → a < s.sktop →
    s.mem.read a = conNil ∨ s.mem.read a = .ref st ∨ s.mem.read a = .lis (st + 1)
  live : ∃ a, s.skbot ≤ a ∧ a < s.sktop ∧ s.mem.read a ≠ conNil

variable {st name_base : Int} {s s' : Copy}

/-- A word of the cycle leads to the list. -/
theorem Loops.deref {m : Memory} (h : Loops m st) {w : Word} (hw : w = .ref st ∨
    w = .lis (st + 1)) :
    Fuel.Comes (fun n => deref m n w) (some (.lis (st + 1))) := by
  have hlist : Fuel.Comes (fun n => Creator.deref m n (.lis (st + 1))) (some (.lis (st + 1))) :=
    comes_deref_of_ne (by simp)
  rcases hw with rfl | rfl
  · refine .of_succ rfl (hlist.congr fun n => ?_)
    rw [Creator.deref, h.cell, if_neg (by simp)]
  · exact hlist

/-- **The end of a list** is settled. -/
theorem Turning.settle (h : Turning st s) (hnil : s.mem.read s.skbot = conNil) :
    Turning st (s.settle conNil) := by
  obtain ⟨b, hb, hb', hne⟩ := h.live
  have happart := h.apart
  have hbase := h.base
  have htop := h.top
  have hlt : s.skbot < b := by
    rcases Int.lt_or_eq_of_le hb with hlt | rfl
    · exact hlt
    · exact absurd hnil hne
  have hsame : ∀ a, a ≠ s.skbot → (s.settle conNil).mem.word a = s.mem.word a :=
    fun a ha => Function.update_of_ne ha ..
  refine ⟨h.loops.congr fun a ha ha' => hsame a (by omega), happart, ?_, htop, fun a ha ha' => ?_,
    b, Int.add_one_le_of_lt hlt, hb', ?_⟩
  · show s.child.stack_base ≤ s.skbot + 1
    omega
  · have hlow : s.skbot + 1 ≤ a := ha
    rw [read_eq (hsame a (by omega))]
    exact h.pending a (by omega) ha'
  · rwa [read_eq (hsame b (by omega))]

/-- **The list** is written behind the copy once more. -/
theorem Turning.turn (h : Turning st s) (hfull : s.sktop < s.child.tt - 6) :
    Turning st (Copy.pushCells 2 (st + 1) (s.settle (.lis s.sktop))) := by
  obtain ⟨b, hb, hb', -⟩ := h.live
  have happart := h.apart
  have hbase := h.base
  obtain ⟨hgrows, hcells⟩ := Copy.pushCells_spec 2 (st + 1) (s.settle (.lis s.sktop))
  have hsktop : (Copy.pushCells 2 (st + 1) (s.settle (.lis s.sktop))).sktop = s.sktop + 2 :=
    hgrows.sktop
  have hskbot : (Copy.pushCells 2 (st + 1) (s.settle (.lis s.sktop))).skbot = s.skbot + 1 :=
    hgrows.skbot
  have hchild : (Copy.pushCells 2 (st + 1) (s.settle (.lis s.sktop))).child = s.child :=
    hgrows.child
  have hsettle : ∀ a, a ≠ s.skbot → (s.settle (.lis s.sktop)).mem.word a = s.mem.word a :=
    fun a ha => Function.update_of_ne ha ..
  have hsame : ∀ a, a ≠ s.skbot → a < s.sktop ∨ s.sktop + 2 ≤ a →
      (Copy.pushCells 2 (st + 1) (s.settle (.lis s.sktop))).mem.word a = s.mem.word a :=
    fun a ha ha' => (hgrows.frame a ha').trans (hsettle a ha)
  have hcells' : ∀ j : ℕ, j < 2 →
      (Copy.pushCells 2 (st + 1) (s.settle (.lis s.sktop))).mem.word (s.sktop + j) =
        s.mem.word (st + 1 + j) := by
    intro j hj
    have hplace : ∀ k : ℕ, k < 2 → st + 1 + (k : Int) < s.sktop ∨
        s.sktop + 2 ≤ st + 1 + (k : Int) :=
      fun k hk => by omega
    exact (hcells hplace j hj).trans (hsettle _ (by omega))
  have hfirst : (Copy.pushCells 2 (st + 1) (s.settle (.lis s.sktop))).mem.read s.sktop =
      .ref st := by
    rw [← h.loops.head]
    exact read_eq (by simpa using hcells' 0 (by decide))
  have hsecond : (Copy.pushCells 2 (st + 1) (s.settle (.lis s.sktop))).mem.read (s.sktop + 1) =
      conNil := by
    rw [← h.loops.tail]
    have hcell := hcells' 1 (by decide)
    rw [Int.natCast_one, Int.add_assoc st] at hcell
    exact read_eq hcell
  refine ⟨h.loops.congr fun a ha ha' => hsame a (by omega) (by omega), ?_, ?_, ?_,
    fun a ha ha' => ?_, s.sktop, ?_, ?_, ?_⟩
  · rw [hchild]
    exact happart
  · rw [hchild, hskbot]
    omega
  · rw [hchild, hsktop]
    omega
  · rw [hskbot] at ha
    rw [hsktop] at ha'
    rcases (by omega : a < s.sktop ∨ a = s.sktop ∨ a = s.sktop + 1) with hlt | rfl | rfl
    · rw [read_eq (hsame a (by omega) (.inl hlt))]
      exact h.pending a (by omega) hlt
    · exact .inr (.inl hfirst)
    · exact .inl hsecond
  · rw [hskbot]
    omega
  · rw [hsktop]
    omega
  · rw [hfirst]
    simp [conNil, Word.makeCon]

/-- **One round** on the cycle. -/
theorem Turning.scan (h : Turning st s) (hfull : s.sktop < s.child.tt - 6) (name_base : Int) :
    ∃ s', Fuel.Comes (fun n => s.scan n name_base) (some s') ∧ Turning st s' ∧
      s'.child = s.child := by
  obtain ⟨b, hb, hb', -⟩ := h.live
  rcases h.pending s.skbot (Int.le_refl _) (Int.lt_of_le_of_lt hb hb') with hnil | hcycle
  · refine ⟨s.settle conNil, (comes_deref_cst hnil).bind ((Fuel.comes_const _).congr fun n => ?_),
      h.settle hnil, rfl⟩
    exact scanConst_same (.inr (.inl rfl)) n name_base
  · exact ⟨_, (h.loops.deref hcycle).bind (Fuel.comes_const _), h.turn hfull,
      (Copy.pushCells_spec 2 (st + 1) (s.settle (.lis s.sktop))).1.child⟩

/-- The copy does not become whole from `s` on. -/
def Never (name_base : Int) (s : Copy) : Prop :=
  ∀ n top s', Copy.loop name_base (s.child.tt - 6) n s ≠ some (some top, s')

/-- After one round. -/
theorem Never.of_scan (hlt : s.skbot < s.sktop) {o : Option Copy}
    (hscan : Fuel.Comes (fun n => s.scan n name_base) o)
    (hrest : ∀ s', o = some s' → s'.child.tt = s.child.tt ∧ Never name_base s') :
    Never name_base s := by
  intro n top s' hrun
  cases n with
  | zero => cases hrun
  | succ n =>
    rw [Copy.loop, if_pos hlt] at hrun
    split_ifs at hrun
    · cases (Prod.mk.inj (Option.some.inj hrun)).1
    · obtain ⟨s₁, hs₁, hloop⟩ := Option.bind_eq_some_iff.1 hrun
      obtain ⟨htt, hnever⟩ := hrest s₁ (hscan.only n s₁ hs₁)
      rw [← htt] at hloop
      exact hnever n top s' hloop

/-- **A cycle** is never copied whole. -/
theorem Turning.never (h : Turning st s) (name_base : Int) : Never name_base s := by
  intro n
  induction n generalizing s with
  | zero =>
    intro top s' hrun
    cases hrun
  | succ n ih =>
    intro top s' hrun
    obtain ⟨b, hb, hb', -⟩ := h.live
    rw [Copy.loop, if_pos (Int.lt_of_le_of_lt hb hb')] at hrun
    split_ifs at hrun with hfull
    · cases (Prod.mk.inj (Option.some.inj hrun)).1
    · obtain ⟨s₁, hscan, hturning, hchild⟩ := h.scan (Int.not_le.1 hfull) name_base
      obtain ⟨s₂, hs₂, hloop⟩ := Option.bind_eq_some_iff.1 hrun
      obtain rfl := Option.some.inj (hscan.only n s₂ hs₂)
      rw [← hchild] at hloop
      exact ih hturning top s' hloop

/-! ## Into the cycle -/

/-- When the list is the last word that is pending. -/
theorem turning_of_last (h : Loops s.mem st)
    (happart : st + 2 < s.child.stack_base ∨ s.child.tt ≤ st) (hbase : s.child.stack_base ≤ s.skbot)
    (htop : s.sktop ≤ s.child.tt) (hlast : s.skbot + 1 = s.sktop)
    (hcell : s.mem.read s.skbot = .lis (st + 1)) : Turning st s where
  loops := h
  apart := happart
  base := hbase
  top := htop
  pending a ha ha' := by
    obtain rfl : a = s.skbot := by omega
    exact .inr (.inr hcell)
  live := ⟨s.skbot, Int.le_refl _, by omega, by rw [hcell]; simp [conNil, Word.makeCon]⟩

section Start

variable {A : Area} {es : List CString} {t : Term Sym Int}

/-- An atom or a variable. -/
inductive Flat : Term Sym Int → Prop
  | var (v : Int) : Flat (.var v)
  | con (k : Const) : Flat (.app (.con k) [])

/-- The last but one word that is pending is an atom or a variable, the last one the cycle. -/
structure Entering (A : Area) (st : Int) (s : Copy) (es : List CString) : Prop where
  loops : Loops s.mem st
  table : Table s.child s.mem es
  apart : st + 2 < s.child.stack_base ∨ s.child.tt ≤ st
  base : s.child.stack_base ≤ s.skbot
  top : s.sktop + nameExpWords ≤ s.child.tt
  last : s.skbot + 2 = s.sktop
  cell : s.mem.read (s.skbot + 1) = .lis (st + 1)

/-- **A word is settled**, and the cycle is left. -/
theorem Entering.settle (h : Entering A st s es) (w : Word) : Turning st (s.settle w) := by
  have happart := h.apart
  have hbase := h.base
  have hlast := h.last
  have htop := h.top
  have hd : nameExpWords = 64 := rfl
  have hsame : ∀ a, a ≠ s.skbot → (s.settle w).mem.word a = s.mem.word a :=
    fun a ha => Function.update_of_ne ha ..
  refine turning_of_last (h.loops.congr fun a ha ha' => hsame a (by omega)) happart ?_ ?_ ?_ ?_
  · show s.child.stack_base ≤ s.skbot + 1
    omega
  · show s.sktop ≤ s.child.tt
    omega
  · show s.skbot + 1 + 1 = s.sktop
    omega
  · exact (read_eq (hsame (s.skbot + 1) (by omega))).trans h.cell

/-- **A name** is settled, and the cycle is left. -/
theorem Entering.named (h : Entering A st s es) {d : Int} {pcon : CString} {arity : ℕ}
    {es' : List CString} (hs : Named s s' d pcon arity es') (hd : 0 ≤ d) (hd' : d ≤ nameExpWords) :
    Turning st s' := by
  have happart := h.apart
  have hbase := h.base
  have hlast := h.last
  have htop := h.top
  have hskbot := hs.skbot
  have hsktop := hs.sktop
  have htt := hs.tt
  have hstack := hs.stack_base
  refine turning_of_last (h.loops.congr fun a ha ha' => hs.outside a (by omega)) (by omega)
    (by omega) (by omega) (by omega) ?_
  have hplace : s'.skbot = s.skbot + 1 + d := by omega
  rw [← h.cell, hplace]
  refine read_eq ?_
  -- a pointer out of the stack is not changed by a move
  have hword : s.mem.word (s.skbot + 1) = (Word.lis (st + 1)).bits := by
    rw [← h.cell]
    exact (Word.bits_ofBits _).symm
  by_cases hover : PassedOver s.child.stack_base s.mem.word (s.sktop - 1) (s.skbot + 1)
  · exact hs.data _ (by omega) (by omega) (by omega) (.inr hover)
  · rw [hs.cell _ (by omega) (by omega) (by omega) (.inr hover)]
    refine carry_of_not fun hptr => ?_
    rw [hword] at hptr
    obtain ⟨-, hlow, hhigh⟩ := hptr
    simp only [Word.bits] at hlow hhigh
    omega

/-- **The name of an atom** is looked up, and the cycle is left. -/
theorem Entering.intern (h : Entering A st s es) (pcon : CString) (arity : ℕ) :
    ∃ o, Fuel.Comes (fun n => s.intern n pcon.chars arity) o ∧
      ∀ s', o = some s' → s'.child.tt = s.child.tt ∧ Turning st s' := by
  have hlast := h.last
  have hlt : s.skbot < s.sktop := by omega
  by_cases hmem : pcon ∈ es
  · obtain ⟨s₁, ho, hs⟩ := comes_intern_known h.table hlt h.base hmem arity
    exact ⟨some s₁, ho, fun s' hs' => by
      obtain rfl := Option.some.inj hs'
      exact ⟨hs.tt, h.named hs (Int.le_refl 0) (by decide)⟩⟩
  by_cases hroom : s.child.name_top + pcon.chars.length < 4 * s.child.stack_base
  · obtain ⟨s₁, ho, hs⟩ := comes_intern_fits h.table hlt h.base hmem hroom arity
    exact ⟨some s₁, ho, fun s' hs' => by
      obtain rfl := Option.some.inj hs'
      exact ⟨hs.tt, h.named hs (Int.le_refl 0) (by decide)⟩⟩
  rw [Int.not_lt] at hroom
  by_cases hmove : Movable s.child
  · by_cases hlong : s.child.name_top + pcon.chars.length < 4 * (s.child.stack_base + nameExpWords)
    · obtain ⟨s₁, ho, hs⟩ := comes_intern_moved h.table hlt h.base hmem hroom hmove hlong arity
      exact ⟨some s₁, ho, fun s' hs' => by
        obtain rfl := Option.some.inj hs'
        exact ⟨hs.tt, h.named hs (by decide) (Int.le_refl _)⟩⟩
    · exact ⟨none, comes_intern_long h.table hmem hroom hmove (Int.not_lt.1 hlong) arity,
        fun s' hs' => by cases hs'⟩
  · exact ⟨none, comes_intern_stuck h.table hmem hroom (Int.not_le.1 hmove) arity,
      fun s' hs' => by cases hs'⟩

/-- **An atom or a variable** before the cycle. -/
theorem Entering.never (h : Entering A st s es) (hreads : Reads A s.mem (s.mem.read s.skbot) t)
    (hflat : Flat t) : Never A.name_base s := by
  have hlast := h.last
  have hlt : s.skbot < s.sktop := by omega
  obtain ⟨root, hroot, hshows⟩ := hreads.deref
  cases hshows with
  | unbound =>
    refine .of_scan hlt (hroot.bind (Fuel.comes_const _)) fun s' hs' => ?_
    obtain rfl := Option.some.inj hs'
    exact ⟨rfl, (h.settle _).never A.name_base⟩
  | con hk =>
    cases hk with
    | same hsame =>
      refine .of_scan hlt (hroot.bind ((Fuel.comes_const _).congr fun n =>
        scanConst_same hsame n A.name_base)) fun s' hs' => ?_
      obtain rfl := Option.some.inj hs'
      exact ⟨rfl, (h.settle _).never A.name_base⟩
    | @name pcon hsame hmark hat _ =>
      obtain ⟨o, ho, hrest⟩ := h.intern pcon _
      refine .of_scan hlt (hroot.bind (comes_scanConst_name hsame hmark hat ho)) fun s' hs' => ?_
      obtain ⟨htt, hturning⟩ := hrest s' hs'
      exact ⟨htt, hturning.never A.name_base⟩
  | list => cases hflat
  | double => cases hflat
  | str => cases hflat

/-- **The list that begins below the cycle** is never copied whole. -/
theorem Loops.never_copied {m : Memory} {child : Icb} (h : Loops m st) (htable : Table child m es)
    (hst : child.st + 1 = child.stack_base) (hroom : child.st + 100 ≤ child.tt)
    (happart : ∀ a, A.word a ∨ (st ≤ a ∧ a ≤ st + 2) → a < child.stack_base ∨ child.tt ≤ a)
    (hown : A.word (st - 1)) (hreads : Reads A m (m.read (st - 1)) t) (hflat : Flat t) :
    Never A.name_base (.init (.lis (st - 1)) child m) := by
  set s := Copy.init (.lis (st - 1)) child m
  have hd : nameExpWords = 64 := rfl
  have hskbot : s.skbot = child.st + 1 := rfl
  have hsktop : s.sktop = child.st + 2 := rfl
  have hcell := happart st (.inr ⟨by omega, by omega⟩)
  have hhead := happart (st + 1) (.inr ⟨by omega, by omega⟩)
  have htail := happart (st + 2) (.inr ⟨by omega, by omega⟩)
  have hbefore := happart (st - 1) (.inl hown)
  have hroot : Fuel.Comes (fun n => Creator.deref s.mem n (s.mem.read s.skbot))
      (some (.lis (st - 1))) := by
    have hfirst : s.mem.read s.skbot = .lis (st - 1) := Memory.read_write_self ..
    rw [hfirst]
    exact comes_deref_of_ne (by simp)
  -- the first round writes the two words of the list
  obtain ⟨hgrows, hcells⟩ := Copy.pushCells_spec 2 (st - 1) (s.settle (.lis s.sktop))
  set s₁ := Copy.pushCells 2 (st - 1) (s.settle (.lis s.sktop))
  have hchild : s₁.child = child := hgrows.child
  have hskbot₁ : s₁.skbot = child.st + 2 := by
    have hskbot' : s₁.skbot = s.skbot + 1 := hgrows.skbot
    omega
  have hsktop₁ : s₁.sktop = child.st + 4 := by
    have hsktop' : s₁.sktop = s.sktop + 2 := hgrows.sktop
    omega
  have hsame : ∀ a, a < child.stack_base ∨ child.tt ≤ a → s₁.mem.word a = m.word a := by
    intro a ha
    rw [hgrows.frame a (show a < s.sktop ∨ s.sktop + 2 ≤ a by omega)]
    have hsettle : (s.settle (.lis s.sktop)).mem.word a = s.mem.word a :=
      Function.update_of_ne (by omega) ..
    rw [hsettle]
    exact Function.update_of_ne (by omega) ..
  have hcopied : ∀ j : ℕ, j < 2 → s₁.mem.word (child.st + 2 + j) = m.word (st - 1 + j) := by
    intro j hj
    have hplace : ∀ k : ℕ, k < 2 → st - 1 + (k : Int) < s.sktop ∨
        s.sktop + 2 ≤ st - 1 + (k : Int) := fun k hk => by omega
    refine (hcells hplace j hj).trans ?_
    have hsettle : (s.settle (.lis s.sktop)).mem.word (st - 1 + j) = s.mem.word (st - 1 + j) :=
      Function.update_of_ne (by omega) ..
    rw [hsettle]
    exact Function.update_of_ne (by omega) ..
  have hlast : s₁.mem.read (s₁.skbot + 1) = .lis (st + 1) := by
    have hword := hcopied 1 (by decide)
    have hplace : child.st + 2 + ((1 : ℕ) : Int) = s₁.skbot + 1 := by omega
    have hplace' : st - 1 + ((1 : ℕ) : Int) = st := by omega
    rw [hplace, hplace'] at hword
    exact (read_eq hword).trans h.cell
  have hfirst : s₁.mem.read s₁.skbot = m.read (st - 1) := by
    have hword := hcopied 0 (by decide)
    rw [Int.natCast_zero, Int.add_zero, Int.add_zero, ← hskbot₁] at hword
    exact read_eq hword
  have hbyte : s₁.mem.byte = m.byte := hgrows.byte
  have hentering : Entering A st s₁ es := by
    refine ⟨h.congr fun a ha ha' => hsame a (happart a (.inr ⟨ha, ha'⟩)), ?_, ?_, ?_, ?_, ?_, hlast⟩
    · rw [hchild]
      exact ⟨by rw [hbyte]; exact htable.names, htable.name_top, htable.room⟩
    · rw [hchild]
      omega
    · rw [hchild]
      omega
    · rw [hchild]
      omega
    · omega
  refine .of_scan (by omega) (hroot.bind (Fuel.comes_const _)) fun s' hs' => ?_
  obtain rfl := Option.some.inj hs'
  refine ⟨congrArg Icb.tt hchild, hentering.never ?_ hflat⟩
  rw [hfirst]
  exact hreads.congr (fun a ha => hsame a (happart a (.inl ha))) fun b _ => congrFun hbyte b

end Start

end Mlvm.Creator
