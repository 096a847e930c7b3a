import Mlvm.Creator.ScanName

/-!
# The space for a copy

`copy_arg` looks once a round whether there are more than six words left, and what a round writes
may be more. **`copyArg_inside_iff`** says when the copy stays below the trail: what the level walk
of the term asks for.
-/

namespace Mlvm.Creator

open FirstOrder StringTable

/-! ## What the walk is given -/

/-- The words between the stack and the trail. -/
def free (c : Icb) : Int := c.tt - (c.st + 1)

/-- The bytes between the names and the stack. -/
def room (c : Icb) : Int := 4 * c.stack_base - c.name_top

/-- The words that the copy has taken. -/
def Copy.used (s : Copy) : Int := s.sktop - (s.child.st + 1)

/-- There is no entry in the trail, so the stack can be moved. -/
def Movable (c : Icb) : Prop := c.block_ceiling ≤ c.tt + 1

/-! ## The loop -/

variable {name_base ftt tt : Int} {s s' : Copy} {o : Option (Option Int × Copy)}

theorem comes_loop_done (h : s.skbot = s.sktop) :
    Fuel.Comes (fun n => Copy.loop name_base ftt n s)
      (some (some s.sktop, s.set s.sktop (s.mem.read (s.child.st + 1)))) := by
  refine .of_succ rfl ((Fuel.comes_const _).congr fun n => ?_)
  rw [Copy.loop, if_neg (by omega)]

theorem comes_loop_full (h : s.skbot < s.sktop) (hfull : ftt ≤ s.sktop) :
    Fuel.Comes (fun n => Copy.loop name_base ftt n s)
      (some (none, { s with nl := IMAGO_EXPANSION })) := by
  refine .of_succ rfl ((Fuel.comes_const _).congr fun n => ?_)
  rw [Copy.loop, if_pos h, if_pos hfull]

theorem comes_loop_step (h : s.skbot < s.sktop) (hfull : s.sktop < ftt)
    (hscan : Fuel.Comes (fun n => s.scan n name_base) (some s'))
    (hrest : Fuel.Comes (fun n => Copy.loop name_base ftt n s') o) :
    Fuel.Comes (fun n => Copy.loop name_base ftt n s) o := by
  refine .of_succ rfl ((hscan.bind (k := Copy.loop name_base ftt) hrest).congr fun n => ?_)
  rw [Copy.loop, if_pos h, if_neg (Int.not_le.2 hfull)]

theorem comes_loop_none (h : s.skbot < s.sktop) (hfull : s.sktop < ftt)
    (hscan : Fuel.Comes (fun n => s.scan n name_base) none) :
    Fuel.Comes (fun n => Copy.loop name_base ftt n s) none := by
  refine .of_succ rfl ((hscan.bind_none (Copy.loop name_base ftt)).congr fun n => ?_)
  rw [Copy.loop, if_pos h, if_neg (Int.not_le.2 hfull)]

/-! ## Staying below the trail -/

/-- The copy has come to an end below `tt`: it is whole (`true`), or there is no room for it. -/
def Ends (tt : Int) (o : Option (Option Int × Copy)) (b : Bool) : Prop :=
  ∃ r s', o = some (r, s') ∧ s'.high < tt ∧ r.isSome = b

/-- What has been written cannot be taken back. -/
theorem comes_loop_over (name_base : Int) (hle : s.skbot ≤ s.sktop) (htop : tt < s.sktop)
    (hhigh : tt ≤ s.high) :
    ∃ o, Fuel.Comes (fun n => Copy.loop name_base (tt - 6) n s) o ∧ ∀ b, ¬ Ends tt o b := by
  rcases Int.lt_or_eq_of_le hle with hlt | heq
  · refine ⟨_, comes_loop_full hlt (by omega), fun b => ?_⟩
    rintro ⟨r, s', hs, hend, -⟩
    obtain ⟨-, rfl⟩ := Prod.mk.inj (Option.some.inj hs)
    exact absurd hend (Int.not_lt.2 hhigh)
  · refine ⟨_, comes_loop_done heq, fun b => ?_⟩
    rintro ⟨r, s', hs, hend, -⟩
    obtain ⟨-, rfl⟩ := Prod.mk.inj (Option.some.inj hs)
    exact absurd hend (Int.not_lt.2 (Int.le_trans hhigh (Int.le_max_left _ _)))

theorem not_ends_none (b : Bool) : ¬ Ends tt none b := by
  rintro ⟨r, s', hs, -⟩
  cases hs

/-- What the walk is given after a name. -/
theorem Named.given {d : Int} {pcon : CString} {arity : ℕ} {es es' : List CString}
    (hs : Named s s' d pcon arity es') (h : Table s.child s.mem es) :
    Movable s'.child = Movable s.child ∧ free s'.child = free s.child - d ∧ s'.used = s.used ∧
      room s'.child = room s.child + 4 * d - ((pack es').length - (pack es).length) := by
  have htop := h.name_top
  have htop' := hs.table.name_top
  have hbase := hs.name_base
  have hstack := hs.stack_base
  have hst := hs.st
  have htt := hs.tt
  have hsktop := hs.sktop
  refine ⟨?_, ?_, ?_, ?_⟩
  · rw [Movable, hs.block_ceiling, hs.tt, Movable]
  · rw [free, free]
    omega
  · rw [Copy.used, Copy.used]
    omega
  · rw [room, room]
    omega

section Round

variable {A : Area} {es es' : List CString} {i : Item} {q : List Item} {pcon : CString} {d : Int}

/-- What the loop comes to from `s` on, and what the walk says. -/
def Agrees (A : Area) (s : Copy) (es : List CString) (q : List Item) : Prop :=
  ∃ o, Fuel.Comes (fun n => Copy.loop A.name_base (s.child.tt - 6) n s) o ∧
    ∀ b, Ends s.child.tt o b ↔
      Walk (Movable s.child) (fun _ _ => True) (free s.child) s.used es (room s.child) q b

/-- **A round without a name.** -/
theorem agrees_parts (h : Scanning A False (Movable s.child) s es (i :: q))
    (hfull : s.sktop < s.child.tt - 6) (hname : i.name = none)
    (ih : ∀ s' : Copy, Scanning A False (Movable s'.child) s' es (q ++ i.children) →
      Agrees A s' es (q ++ i.children)) : Agrees A s es (i :: q) := by
  obtain ⟨s', hscan, hs⟩ := scan_plain h hname
  have hlt := h.lt
  have hsktop := hs.sktop
  have hskbot := hs.skbot
  have hused : s.used < free s.child - 6 := by
    rw [Copy.used, free]
    omega
  simp only [Agrees, walk_parts_iff hused hname]
  by_cases htop : s'.sktop ≤ s.child.tt
  · have hscanning := h.plain hs htop
    rw [← hs.child] at hscanning
    obtain ⟨o, ho, hends⟩ := ih s' hscanning
    rw [hs.child] at ho hends
    refine ⟨o, comes_loop_step (by omega) hfull hscan ho, fun b => (hends b).trans ?_⟩
    have hgiven : s'.used = s.used + i.pushed := by
      rw [Copy.used, Copy.used, hs.child]
      omega
    rw [hgiven]
    refine (and_iff_right ?_).symm
    rw [Copy.used, free]
    omega
  · have hreach := hs.reach (by omega)
    have hle : s'.skbot ≤ s'.sktop := by omega
    have hhigh : s.child.tt ≤ s'.high := by omega
    obtain ⟨o, ho, hends⟩ := comes_loop_over A.name_base hle (Int.not_le.1 htop) hhigh
    refine ⟨o, comes_loop_step (by omega) hfull hscan ho, fun b => iff_of_false (hends b) ?_⟩
    rintro ⟨hroom, -⟩
    rw [Copy.used, free] at hroom
    omega

/-- **A round on a name** that has been found or appended. -/
theorem agrees_named (h : Scanning A False (Movable s.child) s es (i :: q))
    (hfull : s.sktop < s.child.tt - 6) (hname : i.name = some pcon) {arity : ℕ}
    (hs : Named s s' d pcon arity es') (hd : 0 ≤ d) (hmove : d ≠ 0 → Movable s.child)
    (hscan : Fuel.Comes (fun n => s.scan n A.name_base) (some s'))
    (ih : ∀ s' : Copy, ∀ es, Scanning A False (Movable s'.child) s' es q → Agrees A s' es q) :
    ∃ o, Fuel.Comes (fun n => Copy.loop A.name_base (s.child.tt - 6) n s) o ∧
      ∀ b, Ends s.child.tt o b ↔ s.used + d ≤ free s.child ∧
        Walk (Movable s.child) (fun _ _ => True) (free s.child - d) s.used es'
          (room s.child + 4 * d - ((pack es').length - (pack es).length)) q b := by
  have hlt := h.lt
  have hsktop := hs.sktop
  have hskbot := hs.skbot
  have hone := (h.name_word hname).1
  obtain ⟨hmovable, hfree, hused, hroom⟩ := hs.given h.table
  by_cases htop : s'.sktop ≤ s.child.tt
  · have hscanning := h.named hname hs hd hmove (fun hk => hk.elim) htop
    rw [← hmovable] at hscanning
    obtain ⟨o, ho, hends⟩ := ih s' es' hscanning
    rw [hs.tt, hmovable, hfree, hused, hroom] at hends
    rw [hs.tt] at ho
    refine ⟨o, comes_loop_step (by omega) hfull hscan ho, fun b => (hends b).trans ?_⟩
    refine (and_iff_right ?_).symm
    rw [Copy.used, free]
    omega
  · have hreach := hs.reach
    have hle : s'.skbot ≤ s'.sktop := by omega
    have hhigh : s.child.tt ≤ s'.high := by omega
    obtain ⟨o, ho, hends⟩ := comes_loop_over A.name_base hle (Int.not_le.1 htop) hhigh
    refine ⟨o, comes_loop_step (by omega) hfull hscan ho, fun b => iff_of_false (hends b) ?_⟩
    rintro ⟨hroom, -⟩
    rw [Copy.used, free] at hroom
    omega

end Round

/-- **The loop stays below the trail** exactly when there is room for what comes up. -/
theorem agrees {A : Area} (q : List Item) (s : Copy) (es : List CString)
    (h : Scanning A False (Movable s.child) s es q) : Agrees A s es q := by
  induction q using Item.queue_induction generalizing s es with
  | nil =>
    have heq : s.skbot = s.sktop := by simpa using h.pending.eq_add.symm
    refine ⟨_, comes_loop_done heq, fun b => ?_⟩
    have hhigh := h.high
    rw [walk_nil_iff, Copy.used, free]
    constructor
    · rintro ⟨r, s', hs, hend, rfl⟩
      obtain ⟨rfl, rfl⟩ := Prod.mk.inj (Option.some.inj hs)
      simp only [Copy.set] at hend
      exact ⟨by omega, rfl⟩
    · rintro ⟨hlt, rfl⟩
      refine ⟨_, _, rfl, ?_, rfl⟩
      simp only [Copy.set]
      omega
  | cons i q ih =>
    have hlt := h.lt
    have htop := h.top
    have hhigh := h.high
    by_cases hfull : s.child.tt - 6 ≤ s.sktop
    · -- no more than six words are left
      refine ⟨_, comes_loop_full (by omega) hfull, fun b => ?_⟩
      rw [walk_full_iff (by rw [Copy.used, free]; omega), Copy.used, free]
      constructor
      · rintro ⟨r, s', hs, -, rfl⟩
        obtain ⟨rfl, -⟩ := Prod.mk.inj (Option.some.inj hs)
        exact ⟨by omega, rfl⟩
      · rintro ⟨-, rfl⟩
        refine ⟨_, _, rfl, ?_, rfl⟩
        show s.high < s.child.tt
        omega
    · rw [Int.not_le] at hfull
      cases hname : i.name with
      | none => exact agrees_parts h hfull hname fun s' h' => ih s' es h'
      | some pcon =>
        have hnil := Item.children_of_name hname
        rw [hnil, List.append_nil] at ih
        have hused : s.used < free s.child - 6 := by
          rw [Copy.used, free]
          omega
        have hbase : s.child.stack_base ≤ s.skbot := Int.le_trans h.base h.st
        by_cases hmem : pcon ∈ es
        · obtain ⟨s', hsearch, hs⟩ := comes_intern_known h.table (by omega) hbase hmem i.arity
          obtain ⟨o, ho, hends⟩ := agrees_named h hfull hname hs (Int.le_refl 0)
            (fun hne => absurd rfl hne) (comes_scan_name h hname hsearch) ih
          refine ⟨o, ho, fun b => (hends b).trans ?_⟩
          rw [walk_known_iff hused hname hmem, Int.mul_zero, Int.add_zero, Int.add_zero,
            Int.sub_zero, Int.sub_self, Int.sub_zero]
          exact and_congr_left' (iff_of_true (by omega) fun _ _ => trivial)
        have hlen := length_pack_append_sub es pcon
        by_cases hroom : pcon.chars.length < room s.child
        · have hroom' : s.child.name_top + pcon.chars.length < 4 * s.child.stack_base := by
            rw [room] at hroom
            omega
          obtain ⟨s', hsearch, hs⟩ := comes_intern_fits h.table (by omega) hbase hmem hroom' i.arity
          obtain ⟨o, ho, hends⟩ := agrees_named h hfull hname hs (Int.le_refl 0)
            (fun hne => absurd rfl hne) (comes_scan_name h hname hsearch) ih
          refine ⟨o, ho, fun b => (hends b).trans ?_⟩
          rw [walk_fits_iff hused hname hmem hroom, Int.mul_zero, Int.add_zero, Int.add_zero,
            Int.sub_zero, hlen]
          exact and_congr_left' (iff_of_true (by omega) trivial)
        rw [Int.not_lt] at hroom
        have hroom' : 4 * s.child.stack_base ≤ s.child.name_top + pcon.chars.length := by
          rw [room] at hroom
          omega
        by_cases hmove : Movable s.child
        · by_cases hlong : s.child.name_top + pcon.chars.length <
              4 * (s.child.stack_base + nameExpWords)
          · obtain ⟨s', hsearch, hs⟩ := comes_intern_moved h.table (by omega) hbase hmem hroom'
              hmove hlong i.arity
            obtain ⟨o, ho, hends⟩ := agrees_named h hfull hname hs (by decide) (fun _ => hmove)
              (comes_scan_name h hname hsearch) ih
            refine ⟨o, ho, fun b => (hends b).trans ?_⟩
            have hshort : pcon.chars.length < room s.child + 4 * nameExpWords := by
              rw [room]
              omega
            rw [walk_moved_iff hused hname hmem hroom, hlen, and_iff_right hmove,
              and_iff_right hshort, true_and]
          · refine ⟨none, comes_loop_none (by omega) hfull (comes_scan_name h hname
              (comes_intern_long h.table hmem hroom' hmove (Int.not_lt.1 hlong) i.arity)),
              fun b => ?_⟩
            rw [walk_moved_iff hused hname hmem hroom]
            refine iff_of_false (not_ends_none b) ?_
            rintro ⟨-, hshort, -⟩
            rw [room] at hshort
            omega
        · refine ⟨none, comes_loop_none (by omega) hfull (comes_scan_name h hname
            (comes_intern_stuck h.table hmem hroom' (Int.not_le.1 hmove) i.arity)), fun b => ?_⟩
          rw [walk_moved_iff hused hname hmem hroom]
          exact iff_of_false (not_ends_none b) fun hwalk => hmove hwalk.1

/-! ## The copy -/

/-- A term of another imago that is to be copied to a child. -/
structure Source (A : Area) (m : Memory) (proot : Word) (t : Term Sym Int) (child : Icb)
    (es : List CString) : Prop where
  reads : Reads A m proot t
  table : Table child m es
  words : ∀ a, A.word a → a < child.stack_base ∨ child.tt ≤ a
  bytes : ∀ b, A.byte b → b < child.name_base ∨ 4 * child.tt ≤ b
  base : child.stack_base ≤ child.st + 1

/-- The copy at the beginning. -/
def Copy.init (proot : Word) (child : Icb) (m : Memory) : Copy :=
  { child, mem := m.write (child.st + 1) proot, nl := 0, skbot := child.st + 1,
    sktop := child.st + 2, high := child.st + 1 }

section Start

variable {A : Area} {m : Memory} {proot : Word} {t : Term Sym Int} {child : Icb} {es : List CString}
  {keep move : Prop}

/-- **The invariant** at the beginning. -/
theorem Source.scanning (h : Source A m proot t child es) (hfree : 1 ≤ free child)
    (hseen : keep → move → Marked m.word child.stack_base (child.st + 1) ∧
      (child.stack_base < child.st + 1 → m.word child.stack_base ≠ -1) ∧ Seen t) :
    Scanning A keep move (.init proot child m) es [.term t] := by
  have hbase := h.base
  rw [free] at hfree
  have hsource : ∀ a, A.word a → (Copy.init proot child m).mem.word a = m.word a := by
    intro a ha
    have := h.words a ha
    exact Function.update_of_ne (by omega) ..
  have hroot : (Copy.init proot child m).mem.read (child.st + 1) = proot :=
    Memory.read_write_self ..
  have hholds : Holds A keep (Copy.init proot child m).mem (child.st + 1) (.term t) := by
    refine .term ?_
    rw [hroot]
    exact h.reads.congr hsource fun _ _ => rfl
  have hend : child.st + 2 = child.st + 1 + ((Item.term t).words : ℕ) := by
    rw [Item.words_term]
    omega
  refine ⟨⟨h.table.names, h.table.name_top, h.table.room⟩, ?_, h.words, h.bytes, hbase,
    Int.le_refl _, by show child.st + 2 ≤ child.tt; omega,
    by show child.st + 1 < child.st + 2; omega, fun hk hm => ?_⟩
  · show Pending A keep _ (child.st + 2) (child.st + 1) [.term t]
    rw [hend]
    exact pending_single hholds
  · obtain ⟨hmarked, hfirst, hclean⟩ := hseen hk hm
    have hne : (Copy.init proot child m).mem.word (child.st + 1) ≠ -1 := by
      intro hmark
      obtain ⟨w₁, w₂, hdouble⟩ := hholds.eq_double hmark
      cases hdouble
    have hsame : ∀ a, a < child.st + 1 → (Copy.init proot child m).mem.word a = m.word a :=
      fun a ha => Function.update_of_ne (by omega) ..
    refine ⟨hmarked.congr fun a _ ha => by rw [hsame a ha], ?_, fun j hj => ?_⟩
    · show (Copy.init proot child m).mem.word child.stack_base ≠ -1
      rcases Int.lt_or_eq_of_le hbase with hlt | heq
      · rw [hsame _ hlt]
        exact hfirst hlt
      · rw [heq]
        exact hne
    · obtain rfl := List.mem_singleton.1 hj
      exact hclean

/-- **What `copy_arg` comes to.** -/
theorem Source.comes (h : Source A m proot t child es) :
    ∃ o, Fuel.Comes (fun n => copyArg n proot A.name_base child m) o ∧
      ∀ b, Ends child.tt o b ↔ 1 ≤ free child ∧
        Walk (Movable child) (fun _ _ => True) (free child) 1 es (room child) [.term t] b := by
  by_cases hfree : 1 ≤ free child
  · obtain ⟨o, ho, hends⟩ := agrees [.term t] _ es (h.scanning hfree (fun hk _ => hk.elim))
    have hused : (Copy.init proot child m).used = 1 := by
      show child.st + 2 - (child.st + 1) = 1
      omega
    rw [hused] at hends
    exact ⟨o, ho, fun b => (hends b).trans (and_iff_right hfree).symm⟩
  · have hover : child.tt ≤ child.st + 1 := by
      rw [free] at hfree
      omega
    have hle : (Copy.init proot child m).skbot ≤ (Copy.init proot child m).sktop := by
      show child.st + 1 ≤ child.st + 2
      omega
    have htop : child.tt < (Copy.init proot child m).sktop := by
      show child.tt < child.st + 2
      omega
    obtain ⟨o, ho, hends⟩ := comes_loop_over A.name_base hle htop hover
    exact ⟨o, ho, fun b => iff_of_false (hends b) fun hb => hfree hb.1⟩

end Start

end Mlvm.Creator
