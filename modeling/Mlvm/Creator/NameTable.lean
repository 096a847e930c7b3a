import Mlvm.Memory.Block

/-!
# The name table of an imago

`name_table_expansion` and `search_index` of `creator.c`. The name table of an imago is a row of
strings, each with its zero byte, below the stack. `search_index` looks for a string from the first
one on and appends it when it is not there; when the room below the stack is too small,
`name_table_expansion` first moves the stack up by `NAME_EXP_SIZE` bytes.

**The stack** is moved from the top down. Words are pointers by their tags, but a word two words
above the mark of a double is taken for the end of the double.

**The trail** is to be adjusted by a loop of its own. A loop of the source that has no end has no
result with any bound on the number of its rounds (`fuel`).
-/

namespace Mlvm.Creator

/-- `NAME_EXP_SIZE / sizeof(int)`. -/
def nameExpWords : Int := 64

/-! ## Expansion -/

/-- `*newp-- = *oldp--`. -/
def copyUp (p : Int) (w : Int → Int) : Int → Int := Function.update w (p + nameExpWords) (w p)

/-- A pointer into the stack as it was, with its tag. -/
def IsStackPointer (oldbase oldtop v : Int) : Prop :=
  ¬ isCstWord v ∧ oldbase ≤ v / 4 ∧ v / 4 ≤ oldtop

instance (oldbase oldtop v : Int) : Decidable (IsStackPointer oldbase oldtop v) :=
  inferInstanceAs (Decidable (_ ∧ _ ∧ _))

/-- `(int)(addr(temp) + distance) | tag(temp)`, for a pointer into the stack. -/
def shiftWord (oldbase oldtop v : Int) : Int :=
  if IsStackPointer oldbase oldtop v then v + 4 * nameExpWords else v

/-- There seems to be a double that ends at `oldp`. -/
def EndsDouble (oldbase : Int) (w : Int → Int) (oldp : Int) : Prop :=
  oldbase < oldp - 2 ∧ isFvlWord (w (oldp - 2))

instance (oldbase : Int) (w : Int → Int) (oldp : Int) : Decidable (EndsDouble oldbase w oldp) :=
  inferInstanceAs (Decidable (_ ∧ _))

/-- `while (oldp >= oldbase)`: the stack, from `oldp` down. -/
def moveStack (oldbase oldtop : Int) (oldp : Int) (w : Int → Int) : Int → Int :=
  if oldbase ≤ oldp then
    if EndsDouble oldbase w oldp then
      moveStack oldbase oldtop (oldp - 3) (copyUp (oldp - 2) (copyUp (oldp - 1) (copyUp oldp w)))
    else
      moveStack oldbase oldtop (oldp - 1)
        (Function.update w (oldp + nameExpWords) (shiftWord oldbase oldtop (w oldp)))
  else w
termination_by (oldp + 1 - oldbase).toNat
decreasing_by
  · omega
  · omega

/-- An entry of the trail, moved: what is not a reference becomes a generation line. -/
def shiftTrail (v : Int) : Int :=
  if isVarWord v then v + 4 * nameExpWords else v - v % 4 + 4 * nameExpWords + 2

/-- `while (newp < cip->block_ceiling)`: the trail. -/
def adjustTrail (block_ceiling : Int) : ℕ → Int → (Int → Int) → Option (Int → Int)
  | 0, _, _ => none
  | fuel + 1, newp, w =>
    if newp < block_ceiling then
      adjustTrail block_ceiling fuel (newp - 1) (Function.update w newp (shiftTrail (w newp)))
    else some w

/-- The registers of the stack, moved. -/
def raised (cip : Icb) : Icb :=
  { cip with
    stack_base := cip.stack_base + nameExpWords
    st := cip.st + nameExpWords
    bb := cip.bb + nameExpWords
    b0 := cip.b0 + nameExpWords
    cf := cip.cf + nameExpWords
    af := cip.af + nameExpWords
    gl := cip.gl + nameExpWords }

/-- `name_table_expansion`. -/
def nameTableExpansion (fuel : ℕ) (cip : Icb) (top : Int) (m : Memory) : Option (Icb × Memory) :=
  (adjustTrail cip.block_ceiling fuel (cip.tt + 1) (moveStack cip.stack_base top top m.word)).map
    fun w => (raised cip, { m with word := w })

/-! ## Interning -/

/-- `while (*pp && *pp == *cp)`, for the rest `pp` of a string: what is left of it, and `cp`. -/
def compareFrom (byte : Int → UInt8) : List UInt8 → Int → List UInt8 × Int
  | [], cp => ([], cp)
  | c :: pp, cp => if c = byte cp then compareFrom byte pp (cp + 1) else (c :: pp, cp)

theorem le_compareFrom (byte : Int → UInt8) (pp : List UInt8) (cp : Int) :
    cp ≤ (compareFrom byte pp cp).2 := by
  induction pp generalizing cp with
  | nil => exact Int.le_refl _
  | cons c pp ih =>
    rw [compareFrom]
    split_ifs
    · exact Int.le_trans (Int.le_add_of_nonneg_right (by decide)) (ih (cp + 1))
    · exact Int.le_refl _

/-- `while (*cp++ && cp < child->name_top)`. -/
def nextString (byte : Int → UInt8) (name_top : Int) (cp : Int) : Int :=
  if byte cp ≠ 0 ∧ cp + 1 < name_top then nextString byte name_top (cp + 1) else cp + 1
termination_by (name_top - cp).toNat
decreasing_by omega

theorem lt_nextString (byte : Int → UInt8) (name_top cp : Int) :
    cp < nextString byte name_top cp := by
  fun_induction nextString byte name_top cp with
  | case1 cp _ ih => omega
  | case2 cp _ => omega

/-- `while (cp < child->name_top)`: the string that is found, or where the search has ended. -/
def searchFrom (byte : Int → UInt8) (name_top : Int) (pcon : List UInt8) (cp : Int) : Int ⊕ Int :=
  if cp < name_top then
    let r := compareFrom byte pcon cp
    if r.1 = [] ∧ byte r.2 = 0 then .inl cp
    else searchFrom byte name_top pcon (nextString byte name_top r.2)
  else .inr cp
termination_by (name_top - cp).toNat
decreasing_by
  have := le_compareFrom byte pcon cp
  have := lt_nextString byte name_top (compareFrom byte pcon cp).2
  omega

/-- `while ((*cp++ = *pp++))`. -/
def copyString : List UInt8 → Int → (Int → UInt8) → Int → UInt8
  | [], cp, byte => Function.update byte cp 0
  | c :: pp, cp, byte => copyString pp (cp + 1) (Function.update byte cp c)

/-- `search_index`: the index, `child->nl`, the control block and the memory. -/
def searchIndex (fuel : ℕ) (pcon : List UInt8) (child : Icb) (top : Int) (m : Memory) :
    Option (Int × Int × Icb × Memory) :=
  match searchFrom m.byte child.name_top pcon child.name_base with
  | .inl ccon => some (ccon - child.name_base, 0, child, m)
  | .inr cp =>
    let expanded :=
      if 4 * child.stack_base ≤ cp + pcon.length then
        (nameTableExpansion fuel child top m).map fun r => (nameExpWords, r)
      else some (0, child, m)
    expanded.map fun r =>
      (cp - child.name_base, r.1, { r.2.1 with name_top := cp + pcon.length + 1 },
        { r.2.2 with byte := copyString pcon cp r.2.2.byte })

end Mlvm.Creator
