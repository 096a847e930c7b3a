import Mlvm.Creator.NameTable

/-!
# Moving the stack for the name table

**The stack** comes to stand `NAME_EXP_SIZE` bytes higher; a word is moved as it is when the pass
takes it for a part of a double (`PassedOver`), and otherwise as what its tag says
(`moveStack_apply`).

**The trail.** The loop counts down where it should count up, so it never ends when there is an
entry (`adjustTrail_of_lt`), for instance the generation line that the dispatcher pushes.

**The room above the stack** is not looked at: an imago whose block has not `NAME_EXP_SIZE` bytes
left is moved as well (`RoomAbove`).

Main result: `preserved_iff`.
-/

namespace Mlvm.Creator

/-! ## The pass over the stack -/

/-- The pass that is at `oldp` takes the word at `a` for a part of a double. -/
def PassedOver (oldbase : Int) (w : Int → Int) (oldp a : Int) : Prop :=
  if oldbase ≤ oldp then
    if EndsDouble oldbase w oldp then (oldp - 2 ≤ a ∧ a ≤ oldp) ∨ PassedOver oldbase w (oldp - 3) a
    else PassedOver oldbase w (oldp - 1) a
  else False
termination_by (oldp + 1 - oldbase).toNat
decreasing_by
  · omega
  · omega

theorem PassedOver.le {oldbase : Int} {w : Int → Int} {oldp a : Int}
    (h : PassedOver oldbase w oldp a) : oldbase ≤ a ∧ a ≤ oldp := by
  fun_induction PassedOver oldbase w oldp a with
  | case1 oldp hle hdouble ih =>
    rcases h with h | h
    · have := hdouble.1
      omega
    · have := ih h
      omega
  | case2 oldp hle hdouble ih =>
    have := ih h
    omega
  | case3 => exact h.elim

/-- Only the words up to `oldp` matter. -/
theorem passedOver_congr {oldbase : Int} {w w' : Int → Int} {oldp : Int} (a : Int)
    (h : ∀ x ≤ oldp, w' x = w x) : PassedOver oldbase w' oldp a ↔ PassedOver oldbase w oldp a := by
  fun_induction PassedOver oldbase w oldp a with
  | case1 oldp hle hdouble ih =>
    have hdouble' : EndsDouble oldbase w' oldp := by
      rwa [EndsDouble, h _ (by omega)]
    rw [PassedOver, if_pos hle, if_pos hdouble', ih fun x hx => h x (by omega)]
  | case2 oldp hle hdouble ih =>
    have hdouble' : ¬ EndsDouble oldbase w' oldp := by
      rwa [EndsDouble, h _ (by omega)]
    rw [PassedOver, if_pos hle, if_neg hdouble', ih fun x hx => h x (by omega)]
  | case3 oldp hle => rw [PassedOver, if_neg hle]

theorem copyUp_apply (p : Int) (w : Int → Int) (x : Int) :
    copyUp p w x = if x = p + nameExpWords then w p else w x := Function.update_apply ..

/-- A double is copied. -/
theorem copyUp_double (p : Int) (w : Int → Int) (x : Int) :
    copyUp (p - 2) (copyUp (p - 1) (copyUp p w)) x =
      if p - 2 + nameExpWords ≤ x ∧ x ≤ p + nameExpWords then w (x - nameExpWords) else w x := by
  rw [copyUp_apply, copyUp_apply (p - 1), copyUp_apply (p - 1), copyUp_apply p, copyUp_apply p,
    copyUp_apply p]
  have hd : nameExpWords = 64 := rfl
  rcases (by omega : x = p - 2 + nameExpWords ∨ x = p - 1 + nameExpWords ∨ x = p + nameExpWords ∨
    (x ≠ p - 2 + nameExpWords ∧ x ≠ p - 1 + nameExpWords ∧ x ≠ p + nameExpWords)) with
    hx | hx | hx | ⟨hx, hx', hx''⟩
  · rw [if_pos hx, if_neg (by omega), if_neg (by omega), if_pos (by omega)]
    exact congrArg w (by omega)
  · rw [if_neg (by omega), if_pos hx, if_neg (by omega), if_pos (by omega)]
    exact congrArg w (by omega)
  · rw [if_neg (by omega), if_neg (by omega), if_pos hx, if_pos (by omega)]
    exact congrArg w (by omega)
  · rw [if_neg hx, if_neg hx', if_neg hx'', if_neg (by omega)]

/-- What becomes of the word at `a`. -/
def movedWord (oldbase oldtop : Int) (w : Int → Int) (oldp a : Int)
    [Decidable (PassedOver oldbase w oldp a)] : Int :=
  if PassedOver oldbase w oldp a then w a else shiftWord oldbase oldtop (w a)

open Classical in
/-- **The pass moves the stack** and nothing else. -/
theorem moveStack_apply (oldbase oldtop oldp : Int) (w : Int → Int) (x : Int) :
    moveStack oldbase oldtop oldp w x =
      if oldbase + nameExpWords ≤ x ∧ x ≤ oldp + nameExpWords then
        movedWord oldbase oldtop w oldp (x - nameExpWords)
      else w x := by
  fun_induction moveStack oldbase oldtop oldp w with
  | case1 oldp w hle hdouble ih =>
    have hcongr : ∀ a, PassedOver oldbase (copyUp (oldp - 2) (copyUp (oldp - 1) (copyUp oldp w)))
        (oldp - 3) a ↔ PassedOver oldbase w (oldp - 3) a := fun a =>
      passedOver_congr a fun x hx => by rw [copyUp_double, if_neg (by simp [nameExpWords]; omega)]
    rw [ih]
    by_cases hx : oldbase + nameExpWords ≤ x ∧ x ≤ oldp + nameExpWords
    · rw [if_pos hx]
      by_cases hx' : x ≤ oldp - 3 + nameExpWords
      · have hover : PassedOver oldbase w oldp (x - nameExpWords) ↔
            PassedOver oldbase w (oldp - 3) (x - nameExpWords) := by
          rw [PassedOver, if_pos hle, if_pos hdouble]
          exact or_iff_right (by omega)
        have hword : copyUp (oldp - 2) (copyUp (oldp - 1) (copyUp oldp w)) (x - nameExpWords) =
            w (x - nameExpWords) := by
          rw [copyUp_double, if_neg (by simp only [nameExpWords] at *; omega)]
        rw [if_pos ⟨hx.1, hx'⟩]
        simp only [movedWord, hcongr, hover, hword]
      · have hover : PassedOver oldbase w oldp (x - nameExpWords) := by
          rw [PassedOver, if_pos hle, if_pos hdouble]
          exact .inl (by omega)
        rw [if_neg (fun h => hx' h.2), copyUp_double, if_pos (by omega), movedWord, if_pos hover]
    · rw [if_neg hx, if_neg (by omega), copyUp_double, if_neg]
      have := hdouble.1
      omega
  | case2 oldp w hle hdouble ih =>
    have hbelow : ∀ a ≤ oldp, Function.update w (oldp + nameExpWords)
        (shiftWord oldbase oldtop (w oldp)) a = w a := fun a ha =>
      Function.update_of_ne (by simp only [nameExpWords]; omega) ..
    have hcongr : ∀ a, PassedOver oldbase (Function.update w (oldp + nameExpWords)
        (shiftWord oldbase oldtop (w oldp))) (oldp - 1) a ↔ PassedOver oldbase w (oldp - 1) a :=
      fun a => passedOver_congr a fun x hx => hbelow x (by omega)
    have hstep : ∀ a, PassedOver oldbase w oldp a ↔ PassedOver oldbase w (oldp - 1) a := by
      intro a
      rw [PassedOver, if_pos hle, if_neg hdouble]
    rw [ih]
    by_cases hx : oldbase + nameExpWords ≤ x ∧ x ≤ oldp + nameExpWords
    · rw [if_pos hx]
      by_cases hx' : x ≤ oldp - 1 + nameExpWords
      · rw [if_pos ⟨hx.1, hx'⟩]
        simp only [movedWord, hstep, hcongr, hbelow (x - nameExpWords) (by omega)]
      · have hlast : x = oldp + nameExpWords := by omega
        have hover : ¬ PassedOver oldbase w oldp (x - nameExpWords) := by
          rw [hstep]
          intro h
          have := h.le
          omega
        rw [if_neg (fun h => hx' h.2), hlast, Function.update_self, movedWord,
          if_neg (hlast ▸ hover), Int.add_sub_cancel]
    · rw [if_neg hx, if_neg (by omega)]
      exact Function.update_of_ne (by omega) ..
  | case3 oldp w hle =>
    rw [if_neg]
    omega

/-! ## The pass over the trail -/

/-- **With an entry in the trail the loop does not end.** -/
theorem adjustTrail_of_lt {block_ceiling newp : Int} (h : newp < block_ceiling) (fuel : ℕ)
    (w : Int → Int) : adjustTrail block_ceiling fuel newp w = none := by
  induction fuel generalizing newp w with
  | zero => rfl
  | succ fuel ih =>
    rw [adjustTrail, if_pos h]
    exact ih (by omega) _

theorem adjustTrail_of_le {block_ceiling newp : Int} (h : block_ceiling ≤ newp) (fuel : ℕ)
    (w : Int → Int) : adjustTrail block_ceiling (fuel + 1) newp w = some w := by
  rw [adjustTrail, if_neg (Int.not_lt.2 h)]

/-- **With an entry in the trail nothing comes of an expansion.** -/
theorem nameTableExpansion_of_lt {cip : Icb} (h : cip.tt + 1 < cip.block_ceiling) (fuel : ℕ)
    (top : Int) (m : Memory) : nameTableExpansion fuel cip top m = none := by
  rw [nameTableExpansion, adjustTrail_of_lt h, Option.map_none]

/-! ## What an expansion is to be -/

/-- A word of the stack that is a cell, of a term or of a frame, or a part of a double. -/
inductive Kind where
  | cell
  | double

/-- What is to become of a word. -/
def Kind.shift (k : Kind) (oldbase oldtop v : Int) : Int :=
  match k with
  | .cell => shiftWord oldbase oldtop v
  | .double => v

/-- The last word of a stack with words of these kinds. -/
def lastWord (cip : Icb) (kinds : List Kind) : Int := cip.stack_base + kinds.length - 1

/-- The moved stack ends below the trail, inside the block. -/
def RoomAbove (cip : Icb) (kinds : List Kind) : Prop :=
  lastWord cip kinds + nameExpWords < min cip.tt cip.block_ceiling

/-- **The imago is the same**: the stack, whose words are of these kinds, stands higher, still
inside the block, every pointer into it still points to the same cell, and the trail is where it
was. -/
structure Raised (cip cip' : Icb) (m m' : Memory) (kinds : List Kind) : Prop where
  registers : cip' = raised cip
  inside : RoomAbove cip kinds
  names : m'.byte = m.byte
  cells : ∀ i k, kinds[i]? = some k →
    m'.word (cip.stack_base + nameExpWords + (i : ℕ)) =
      k.shift cip.stack_base (lastWord cip kinds)
        (m.word (cip.stack_base + (i : ℕ)))
  trail : ∀ x, cip.tt < x → x < cip.block_ceiling → m'.word x = shiftTrail (m.word x)

/-- The expansion comes to an end and preserves the imago. -/
def Preserved (cip : Icb) (m : Memory) (kinds : List Kind) : Prop :=
  ∃ fuel cip' m', nameTableExpansion fuel cip (lastWord cip kinds) m =
    some (cip', m') ∧ Raised cip cip' m m' kinds

/-! ## The condition -/

/-- A word is moved as its kind asks if its kind is seen, or if it is no pointer into the stack. -/
theorem movedWord_eq_iff (k : Kind) (oldbase oldtop : Int) (w : Int → Int) (a : Int)
    [Decidable (PassedOver oldbase w oldtop a)] :
    movedWord oldbase oldtop w oldtop a = k.shift oldbase oldtop (w a) ↔
      (IsStackPointer oldbase oldtop (w a) →
        (PassedOver oldbase w oldtop a ↔ k = .double)) := by
  by_cases hptr : IsStackPointer oldbase oldtop (w a)
  · have hne : shiftWord oldbase oldtop (w a) ≠ w a := by
      rw [shiftWord, if_pos hptr]
      exact fun h => absurd h (by simp [nameExpWords])
    by_cases hover : PassedOver oldbase w oldtop a
    · cases k <;> simp [movedWord, Kind.shift, hptr, hover, hne.symm]
    · cases k <;> simp [movedWord, Kind.shift, hptr, hover, hne]
  · have heq : shiftWord oldbase oldtop (w a) = w a := by rw [shiftWord, if_neg hptr]
    cases k <;> simp [movedWord, Kind.shift, hptr, heq]

/-- The double that a word belongs to is seen, for every word that looks like a pointer into the
stack. -/
def KindsSeen (cip : Icb) (m : Memory) (kinds : List Kind) : Prop :=
  ∀ i k, kinds[i]? = some k →
    IsStackPointer cip.stack_base (lastWord cip kinds)
      (m.word (cip.stack_base + (i : ℕ))) →
    (PassedOver cip.stack_base m.word (lastWord cip kinds)
      (cip.stack_base + (i : ℕ)) ↔ k = .double)

/-- Without an entry in the trail the expansion comes to an end. -/
theorem nameTableExpansion_of_le {cip : Icb} (h : cip.block_ceiling ≤ cip.tt + 1) (fuel : ℕ)
    (top : Int) (m : Memory) : nameTableExpansion (fuel + 1) cip top m =
      some (raised cip, { m with word := moveStack cip.stack_base top top m.word }) := by
  rw [nameTableExpansion, adjustTrail_of_le h, Option.map_some]

open Classical in
theorem raised_iff {cip : Icb} (h : cip.block_ceiling ≤ cip.tt + 1) (m : Memory)
    (kinds : List Kind) :
    Raised cip (raised cip) m { m with
      word := moveStack cip.stack_base (lastWord cip kinds) (lastWord cip kinds) m.word } kinds ↔
    RoomAbove cip kinds ∧ KindsSeen cip m kinds := by
  have hword : ∀ i k, kinds[i]? = some k → moveStack cip.stack_base
      (lastWord cip kinds) (lastWord cip kinds) m.word
        (cip.stack_base + nameExpWords + (i : ℕ)) =
      movedWord cip.stack_base (lastWord cip kinds) m.word
        (lastWord cip kinds) (cip.stack_base + (i : ℕ)) := by
    intro i k hk
    have hlt := (List.getElem?_eq_some_iff.1 hk).1
    have hplace : cip.stack_base + nameExpWords + (i : ℕ) - nameExpWords =
        cip.stack_base + (i : ℕ) := by omega
    rw [moveStack_apply, if_pos (by rw [lastWord]; omega), hplace]
  constructor
  · intro hraised
    refine ⟨hraised.inside, fun i k hk => ?_⟩
    rw [← movedWord_eq_iff, ← hword i k hk]
    exact hraised.cells i k hk
  · rintro ⟨hinside, hseen⟩
    refine ⟨rfl, hinside, rfl, fun i k hk => ?_, fun x hx hx' => by omega⟩
    exact (hword i k hk).trans ((movedWord_eq_iff ..).2 (hseen i k hk))

/-- **An expansion preserves the imago** exactly when there is no entry in the trail, there is room
above the stack, and the kinds of the words are seen. -/
theorem preserved_iff (cip : Icb) (m : Memory) (kinds : List Kind) :
    Preserved cip m kinds ↔
      cip.block_ceiling ≤ cip.tt + 1 ∧ RoomAbove cip kinds ∧ KindsSeen cip m kinds := by
  constructor
  · rintro ⟨fuel, cip', m', hrun, hraised⟩
    have hle : cip.block_ceiling ≤ cip.tt + 1 := by
      by_contra hlt
      rw [nameTableExpansion_of_lt (Int.not_le.1 hlt)] at hrun
      cases hrun
    refine ⟨hle, ?_⟩
    cases fuel with
    | zero => cases hrun
    | succ fuel =>
      rw [nameTableExpansion_of_le hle] at hrun
      obtain ⟨rfl, rfl⟩ := Prod.mk.inj (Option.some.inj hrun)
      exact (raised_iff hle m kinds).1 hraised
  · rintro ⟨hle, hseen⟩
    exact ⟨1, _, _, nameTableExpansion_of_le hle 0 _ m, (raised_iff hle m kinds).2 hseen⟩

/-- The worker of the block model, as it is loaded, can have no more names. -/
theorem not_preserved_worker : ¬ Preserved worker workerMemory [.cell] := by
  rintro ⟨fuel, cip', m', hrun, -⟩
  rw [nameTableExpansion_of_lt (by decide)] at hrun
  cases hrun

end Mlvm.Creator
