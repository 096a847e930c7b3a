import Mlvm.Engine.Backtracking
import Mlvm.Engine.Unifiability
import Mlvm.TwosComplement.Bitwise

/-!
# Integer arithmetic

An integer of the machine is a **cell** of 29 bits with the tag `INT`. The arithmetic instructions
take the values out of two cells, compute on 32-bit words and put the result back with
`make_int`, which keeps the low 29 bits. Nothing asks whether the result fits.

**Outcome.** What an instruction does for integer operands is stated once (`Outcome`): the result
cell holds the mathematical result **wrapped** to 29 bits, which is the result itself when it fits;
a comparison goes by the order of the values; a division by zero is a trap.

Main result: `integer_arithmetic_wraps`.
-/

namespace Mlvm

/-! ## Integer cells -/

/-- The integers that fit a cell. -/
def InRange (x : Int) : Prop := -(2 ^ 28) ≤ x ∧ x < 2 ^ 28

instance (x : Int) : Decidable (InRange x) := inferInstanceAs (Decidable (_ ∧ _))

/-- The value of a cell that keeps the low 29 bits of `x`. -/
def wrap (x : Int) : Int := Int.bmod x (2 ^ 29)

theorem wrap_inRange (x : Int) : InRange (wrap x) := by
  simp only [InRange, wrap, Int.bmod_eq_emod]
  split <;> omega

theorem wrap_of_inRange {x : Int} (h : InRange x) : wrap x = x := by
  obtain ⟨hlow, hhigh⟩ := h
  rw [wrap, Int.bmod_eq_emod]
  split <;> omega

namespace Word

/-- The cell of the integer `x`. -/
def intCell (x : Int) : Word := cst (2 * x)

@[simp] theorem isInt_intCell (x : Int) : (intCell x).isInt = true := by
  simp [intCell, isInt]

@[simp] theorem intValue_intCell (x : Int) : (intCell x).intValue = x := by
  simp only [intCell, intValue, bits]
  omega

theorem bits_intCell (x : Int) : (intCell x).bits = 8 * x + 3 := by
  simp only [intCell, bits]
  omega

theorem intCell_ne_fvlTag (x : Int) : intCell x ≠ fvlTag := by
  simp only [intCell, fvlTag, ne_eq, cst.injEq]
  omega

theorem bmod_two_mul (x : Int) : Int.bmod (2 * x) (2 ^ 30) = 2 * wrap x := by
  rw [wrap, Int.bmod_eq_emod, Int.bmod_eq_emod]
  split <;> split <;> omega

theorem makeInt_eq (x : Int) : makeInt x = intCell (wrap x) := by
  rw [makeInt, intCell, bmod_two_mul]

end Word

/-! ## Mathematical results -/

/-- The mathematical result; there is none for a division by zero. -/
def AriOp.result : AriOp → Int → Int → Option Int
  | .add, x, y => some (x + y)
  | .sub, x, y => some (x - y)
  | .mul, x, y => some (x * y)
  | .div, x, y => if y = 0 then none else some (x.tdiv y)

/-- The mathematical result; a shift multiplies or divides by a power of two, and a division
rounds down. -/
def IntOp.result : IntOp → Int → Int → Option Int
  | .mod, x, y => if y = 0 then none else some (x.tmod y)
  | .and, x, y => some (x.land y)
  | .or, x, y => some (x.lor y)
  | .eor, x, y => some (x.xor y)
  | .rshift, x, y => some (x / 2 ^ y.toNat)
  | .lshift, x, y => some (x * 2 ^ y.toNat)

/-- The shifts, whose count is the second operand. -/
def IntOp.isShift : IntOp → Bool
  | .rshift | .lshift => true
  | _ => false

theorem wrap_toInt_ofInt (x : Int) : wrap (BitVec.ofInt 32 x).toInt = wrap x := by
  rw [BitVec.toInt_ofInt, wrap, wrap]
  exact Int.bmod_bmod_of_dvd ⟨8, rfl⟩

namespace Engine

/-- **Computing on 32-bit words and keeping 29 bits is computing on integers and wrapping.** -/
theorem wrap_onInts (op : IntOp) {x y : Int} (hx : InRange x)
    (hshift : op.isShift → 0 ≤ y ∧ y < 32) :
    (IntOp.onInts op x y).map wrap = (op.result x y).map wrap := by
  cases op with
  | mod => rfl
  | and => rw [IntOp.onInts, ← TwosComplement.ofInt_land, Option.map_some, wrap_toInt_ofInt]; rfl
  | or => rw [IntOp.onInts, ← TwosComplement.ofInt_lor, Option.map_some, wrap_toInt_ofInt]; rfl
  | eor => rw [IntOp.onInts, ← TwosComplement.ofInt_xor, Option.map_some, wrap_toInt_ofInt]; rfl
  | lshift =>
    obtain ⟨hlow, hhigh⟩ := hshift rfl
    rw [IntOp.onInts, Int.emod_eq_of_lt hlow hhigh, ← TwosComplement.ofInt_mul_two_pow,
      Option.map_some, wrap_toInt_ofInt]
    rfl
  | rshift =>
    obtain ⟨hlow, hhigh⟩ := hshift rfl
    have hself : (BitVec.ofInt 32 x).toInt = x :=
      BitVec.toInt_ofInt_eq_self (by decide) (by have := hx.1; omega) (by have := hx.2; omega)
    rw [IntOp.onInts, Int.emod_eq_of_lt hlow hhigh, BitVec.toInt_sshiftRight, hself,
      Int.shiftRight_eq_div_pow]
    rfl

/-! ## Dereferencing -/

/-- The word `w` leads through references of `mem` to the word `v`, which is no reference. -/
inductive Denotes (mem : Int → Word) (v : Word) : Word → Prop
  | here : v.isVar = false → Denotes mem v v
  | ref {a : Int} : mem a ≠ .ref a → Denotes mem v (mem a) → Denotes mem v (.ref a)

theorem leadsOn_of_not_isVar {v : Word} (h : v.isVar = false) (e : Engine) :
    e.leadsOn v = false := by
  cases v with
  | ref a => simp [Word.isVar] at h
  | _ => rfl

variable {P : Program}

/-- The first register is dereferenced. -/
theorem steps_derefAx {e : Engine} {v : Word} {both : Bool} (hlbl : e.lbl = .derefAx both)
    (h : Denotes e.mem v e.ax) :
    Steps P e { e with ax := v, lbl := if both then .derefBx else .exec } := by
  obtain ⟨mem, w, hmem, hw⟩ : ∃ mem w, e.mem = mem ∧ e.ax = w := ⟨_, _, rfl, rfl⟩
  rw [hmem, hw] at h
  induction h generalizing e with
  | here hv =>
    subst hw
    have hstep : e.step P = { e with ax := e.ax, lbl := if both then .derefBx else .exec } := by
      rw [step, hlbl]
      simp [leadsOn_of_not_isVar hv, goto]
    exact hstep ▸ Steps.refl.step
  | @ref a hne _ ih =>
    have hstep : e.step P = { e with ax := mem a } := by
      rw [step, hlbl]
      simp [hw, leadsOn, hmem, hne]
    have hrest := ih (e := { e with ax := mem a }) hlbl hmem rfl
    exact Steps.trans (hstep ▸ Steps.refl.step) hrest

/-- The second register is dereferenced. -/
theorem steps_derefBx {e : Engine} {v : Word} (hlbl : e.lbl = .derefBx)
    (h : Denotes e.mem v e.bx) : Steps P e { e with bx := v, lbl := .exec } := by
  obtain ⟨mem, w, hmem, hw⟩ : ∃ mem w, e.mem = mem ∧ e.bx = w := ⟨_, _, rfl, rfl⟩
  rw [hmem, hw] at h
  induction h generalizing e with
  | here hv =>
    subst hw
    have hstep : e.step P = { e with bx := e.bx, lbl := .exec } := by
      rw [step, hlbl]
      simp [leadsOn_of_not_isVar hv, goto]
    exact hstep ▸ Steps.refl.step
  | @ref a hne _ ih =>
    have hstep : e.step P = { e with bx := mem a } := by
      rw [step, hlbl]
      simp [hw, leadsOn, hmem, hne]
    have hrest := ih (e := { e with bx := mem a }) hlbl hmem rfl
    exact Steps.trans (hstep ▸ Steps.refl.step) hrest

/-- The operand of an instruction is dereferenced. -/
theorem steps_deref {e : Engine} {v v' : Word} (hv : Denotes e.mem v v') :
    Steps P (e.deref v') { e with ax := v, lbl := .exec } :=
  steps_derefAx (e := e.deref v') rfl hv

/-- Both operands of an instruction are dereferenced. -/
theorem steps_deref₂ {e : Engine} {v w v' w' : Word} (hv : Denotes e.mem v v')
    (hw : Denotes e.mem w w') :
    Steps P (e.deref₂ v' w') { e with ax := v, bx := w, lbl := .exec } :=
  Steps.trans (steps_derefAx rfl hv) (steps_derefBx rfl hw)

/-! ## Outcomes -/

/-- The cells that an arithmetic instruction reads, and the one it writes. -/
def arithmeticCells : Instr → Option (Int × Int × Int)
  | .ari _ n₁ n₂ n₃ | .int _ n₁ n₂ n₃ | .aricmp n₁ n₂ n₃ => some (n₁, n₂, n₃)
  | .minus n₁ n₂ | .inc n₁ n₂ | .dec n₁ n₂ => some (n₁, n₁, n₂)
  | .ifcmp _ n₁ n₂ _ => some (n₁, n₂, n₂)
  | _ => none

/-- The mathematical result of an arithmetic instruction; a comparison comes to `-1`, `0` or
`1`. -/
def result (x y : Int) : Instr → Option Int
  | .ari op _ _ _ => op.result x y
  | .int op _ _ _ => op.result x y
  | .minus _ _ => some (-x)
  | .inc _ _ => some (x + 1)
  | .dec _ _ => some (x - 1)
  | .aricmp _ _ _ => some (if y < x then 1 else if x < y then -1 else 0)
  | _ => none

/-- The number of words of an arithmetic instruction. -/
def arithmeticSize : Instr → Int
  | .minus _ _ | .inc _ _ | .dec _ _ => 3
  | _ => 4

/-- The engine has stored `w` in the cell `n` and gone on behind an instruction of `k` words. -/
def Stored (e f : Engine) (n k : Int) (w : Word) : Prop :=
  f.lbl = .control ∧ f.pp = e.pp + k ∧ f.status = e.status ∧
    f.mem = Function.update e.mem (e.cell n) w

/-- The engine has stored the result, wrapped, or it has trapped because there is none. -/
def StoredResult (e f : Engine) (n k : Int) : Option Int → Prop
  | some r => Stored e f n k (.intCell (wrap r))
  | none => f.lbl = .trap

/-- **The outcome of an arithmetic instruction** on the integers `x` and `y`. -/
def Outcome (e f : Engine) (x y n : Int) (i : Instr) : Prop :=
  match i with
  | .ifcmp op _ _ le =>
    f.lbl = .control ∧ f.status = e.status ∧ f.mem = e.mem ∧
      f.pp = if CmpOp.onInts op x y then e.pp + 4 else le
  | i => StoredResult e f n (arithmeticSize i) (result x y i)

@[simp] theorem number_intCell (e : Engine) (x : Int) :
    e.number (.intCell x) = some (.inl x) := by
  have hint := Word.isInt_intCell x
  have hval := Word.intValue_intCell x
  simp only [Word.intCell] at hint hval ⊢
  simp only [number, hint, hval, if_true]

theorem stored_assign (e : Engine) (n k : Int) (w : Word) :
    Stored e ((e.assign (e.cell n) w).next k) n k w :=
  ⟨rfl, rfl, rfl, rfl⟩

/-- Storing a computed value stores the wrapped result, when the two agree on 29 bits. -/
theorem outcome_storeInt (e : Engine) (n : Int) {r r' : Option Int}
    (h : r.map wrap = r'.map wrap) : StoredResult e (e.storeInt n r) n 4 r' := by
  cases r with
  | none =>
    cases r' with
    | none => rfl
    | some z => simp at h
  | some z =>
    cases r' with
    | none => simp at h
    | some z' =>
      have hwrap : wrap z = wrap z' := by simpa using h
      simp only [StoredResult, storeInt, ← hwrap, Word.makeInt_eq]
      exact stored_assign e n 4 _

/-- The tagged words of integers are ordered as the integers. -/
theorem onInts_bits (op : CmpOp) (x y : Int) :
    CmpOp.onInts op (Word.intCell x).bits (Word.intCell y).bits = CmpOp.onInts op x y := by
  rw [Word.bits_intCell, Word.bits_intCell, Bool.eq_iff_iff]
  cases op <;> simp [CmpOp.onInts]

variable {e : Engine} {x y : Int}

theorem compareNumbers_int (D : Doubles) (op : CmpOp) (hax : e.ax = .intCell x)
    (hbx : e.bx = .intCell y) : e.compareNumbers D op = some (CmpOp.onInts op x y) := by
  simp only [compareNumbers, hax, hbx, number_intCell, onInts_bits]

theorem outcome_ari (op : AriOp) (n₁ n₂ n₃ : Int) (hax : e.ax = .intCell x)
    (hbx : e.bx = .intCell y) :
    Outcome e (e.exec P (.ari op n₁ n₂ n₃)) x y n₃ (.ari op n₁ n₂ n₃) := by
  have hexec : e.exec P (.ari op n₁ n₂ n₃) = e.storeInt n₃ (op.result x y) := by
    simp only [exec, ariCpu, hax, hbx, number_intCell]
    cases op <;> rfl
  rw [hexec]
  exact outcome_storeInt e n₃ rfl

theorem outcome_int (op : IntOp) (n₁ n₂ n₃ : Int) (hax : e.ax = .intCell x)
    (hbx : e.bx = .intCell y) (hx : InRange x) (hshift : op.isShift → 0 ≤ y ∧ y < 32) :
    Outcome e (e.exec P (.int op n₁ n₂ n₃)) x y n₃ (.int op n₁ n₂ n₃) := by
  have hexec : e.exec P (.int op n₁ n₂ n₃) = e.storeInt n₃ (IntOp.onInts op x y) := by
    simp only [exec, intCpu, hax, hbx, number_intCell]
  rw [hexec]
  exact outcome_storeInt e n₃ (wrap_onInts op hx hshift)

theorem outcome_minus (n₁ n₂ : Int) (hax : e.ax = .intCell x) :
    Outcome e (e.exec P (.minus n₁ n₂)) x y n₂ (.minus n₁ n₂) := by
  have hexec : e.exec P (.minus n₁ n₂) =
      (e.assign (e.cell n₂) (.intCell (wrap (-x)))).next 3 := by
    simp only [exec, minus, hax, number_intCell, Word.makeInt_eq]
  rw [hexec]
  exact stored_assign e n₂ 3 _

/-- Adding twice `d` to the payload of a cell adds `d` to its value, wrapped. -/
theorem intOne_intCell {k d : Int} (hk : k = 2 * d) (n : Int) (hax : e.ax = .intCell x) :
    e.intOne k n = (e.assign (e.cell n) (.intCell (wrap (x + d)))).next 3 := by
  have hint := Word.isInt_intCell x
  simp only [Word.intCell] at hint hax ⊢
  simp only [intOne, hax, hint, if_true, hk, ← Int.mul_add, Word.bmod_two_mul]

theorem outcome_inc (n₁ n₂ : Int) (hax : e.ax = .intCell x) :
    Outcome e (e.exec P (.inc n₁ n₂)) x y n₂ (.inc n₁ n₂) := by
  have hexec : e.exec P (.inc n₁ n₂) =
      (e.assign (e.cell n₂) (.intCell (wrap (x + 1)))).next 3 := by
    rw [exec, intOne_intCell (by decide : (2 : Int) = 2 * 1) n₂ hax]
  rw [hexec]
  exact stored_assign e n₂ 3 _

theorem outcome_dec (n₁ n₂ : Int) (hax : e.ax = .intCell x) :
    Outcome e (e.exec P (.dec n₁ n₂)) x y n₂ (.dec n₁ n₂) := by
  have hexec : e.exec P (.dec n₁ n₂) =
      (e.assign (e.cell n₂) (.intCell (wrap (x - 1)))).next 3 := by
    rw [exec, intOne_intCell (by decide : (-2 : Int) = 2 * -1) n₂ hax, Int.sub_eq_add_neg]
  rw [hexec]
  exact stored_assign e n₂ 3 _

theorem outcome_ifcmp (op : CmpOp) (n₁ n₂ le n : Int) (hax : e.ax = .intCell x)
    (hbx : e.bx = .intCell y) :
    Outcome e (e.exec P (.ifcmp op n₁ n₂ le)) x y n (.ifcmp op n₁ n₂ le) := by
  simp only [exec, ariCmp, compareNumbers_int P.doubles op hax hbx, branchIf, Outcome]
  split <;> exact ⟨rfl, rfl, rfl, rfl⟩

theorem outcome_aricmp (n₁ n₂ n₃ : Int) (hax : e.ax = .intCell x) (hbx : e.bx = .intCell y) :
    Outcome e (e.exec P (.aricmp n₁ n₂ n₃)) x y n₃ (.aricmp n₁ n₂ n₃) := by
  have hword : (if CmpOp.onInts .gt x y then Word.mlvmOne
      else if CmpOp.onInts .lt x y then .mlvmNone else .mlvmZero) =
      .intCell (wrap (if y < x then 1 else if x < y then -1 else 0)) := by
    simp only [CmpOp.onInts, decide_eq_true_eq]
    split_ifs <;> rfl
  simp only [exec, aricmp, compareNumbers_int P.doubles _ hax hbx, Outcome, StoredResult, result,
    ← hword]
  exact stored_assign e n₃ 4 _

/-- A whole arithmetic instruction, from its start. -/
theorem steps_outcome {i : Instr} {n₁ n₂ n₃ : Int} (hcode : P.code e.pp = i)
    (hlbl : e.lbl = .control) (hcells : arithmeticCells i = some (n₁, n₂, n₃)) (hx : InRange x)
    (h₁ : Denotes e.mem (.intCell x) (e.mem (e.cell n₁)))
    (h₂ : Denotes e.mem (.intCell y) (e.mem (e.cell n₂)))
    (hshift : ∀ op m₁ m₂ m₃, i = .int op m₁ m₂ m₃ → op.isShift → 0 ≤ y ∧ y < 32) :
    ∃ f, Steps P e f ∧ Outcome e f x y n₃ i := by
  have hstart : e.step P = e.start P i := by
    simp only [step, hlbl, hcode]
  have hrun {d : Engine} (hcode' : P.code d.pp = i) (hd : d.lbl = .exec)
      (hsteps : Steps P (e.start P i) d) : Steps P e (d.exec P i) := by
    have hlast : d.step P = d.exec P i := by simp only [step, hd, hcode']
    exact hlast ▸ (Steps.trans (hstart ▸ Steps.refl.step) hsteps).step
  let one := { e with ax := .intCell x, lbl := .exec }
  let both := { e with ax := .intCell x, bx := .intCell y, lbl := .exec }
  cases i with
  | ari op m₁ m₂ m₃ =>
    obtain ⟨rfl, rfl, rfl⟩ : m₁ = n₁ ∧ m₂ = n₂ ∧ m₃ = n₃ := by simpa [arithmeticCells] using hcells
    exact ⟨_, hrun (d := both) hcode rfl (steps_deref₂ h₁ h₂),
      outcome_ari (P := P) (e := both) op m₁ m₂ m₃ rfl rfl⟩
  | int op m₁ m₂ m₃ =>
    obtain ⟨rfl, rfl, rfl⟩ : m₁ = n₁ ∧ m₂ = n₂ ∧ m₃ = n₃ := by simpa [arithmeticCells] using hcells
    exact ⟨_, hrun (d := both) hcode rfl (steps_deref₂ h₁ h₂),
      outcome_int (P := P) (e := both) op m₁ m₂ m₃ rfl rfl hx (hshift op m₁ m₂ m₃ rfl)⟩
  | aricmp m₁ m₂ m₃ =>
    obtain ⟨rfl, rfl, rfl⟩ : m₁ = n₁ ∧ m₂ = n₂ ∧ m₃ = n₃ := by simpa [arithmeticCells] using hcells
    exact ⟨_, hrun (d := both) hcode rfl (steps_deref₂ h₁ h₂),
      outcome_aricmp (P := P) (e := both) m₁ m₂ m₃ rfl rfl⟩
  | ifcmp op m₁ m₂ le =>
    obtain ⟨rfl, rfl, -⟩ : m₁ = n₁ ∧ m₂ = n₂ ∧ m₂ = n₃ := by simpa [arithmeticCells] using hcells
    exact ⟨_, hrun (d := both) hcode rfl (steps_deref₂ h₁ h₂),
      outcome_ifcmp (P := P) (e := both) op m₁ m₂ le n₃ rfl rfl⟩
  | minus m₁ m₂ =>
    obtain ⟨rfl, -, rfl⟩ : m₁ = n₁ ∧ m₁ = n₂ ∧ m₂ = n₃ := by simpa [arithmeticCells] using hcells
    exact ⟨_, hrun (d := one) hcode rfl (steps_deref h₁),
      outcome_minus (P := P) (e := one) (y := y) m₁ m₂ rfl⟩
  | inc m₁ m₂ =>
    obtain ⟨rfl, -, rfl⟩ : m₁ = n₁ ∧ m₁ = n₂ ∧ m₂ = n₃ := by simpa [arithmeticCells] using hcells
    exact ⟨_, hrun (d := one) hcode rfl (steps_deref h₁),
      outcome_inc (P := P) (e := one) (y := y) m₁ m₂ rfl⟩
  | dec m₁ m₂ =>
    obtain ⟨rfl, -, rfl⟩ : m₁ = n₁ ∧ m₁ = n₂ ∧ m₂ = n₃ := by simpa [arithmeticCells] using hcells
    exact ⟨_, hrun (d := one) hcode rfl (steps_deref h₁),
      outcome_dec (P := P) (e := one) (y := y) m₁ m₂ rfl⟩
  | _ => simp [arithmeticCells] at hcells

/-- The word is a well-formed cell of the integer `z`. -/
structure IsCell (w : Word) (z : Int) : Prop where
  tag : w.isInt = true
  value : w.intValue = z
  range : InRange z
  word : -(2 ^ 31) ≤ w.bits ∧ w.bits < 2 ^ 31
  not_fvl : w ≠ .fvlTag

theorem isCell_intCell {z : Int} (h : InRange z) : IsCell (.intCell z) z where
  tag := Word.isInt_intCell z
  value := Word.intValue_intCell z
  range := h
  word := by
    obtain ⟨hlow, hhigh⟩ := h
    rw [Word.bits_intCell]
    omega
  not_fvl := Word.intCell_ne_fvlTag z

/-- **Integer arithmetic wraps.** An arithmetic instruction whose operands denote integers stores
the mathematical result wrapped to 29 bits, which is a well-formed cell and is exact when the
result fits; a comparison goes by the order of the values, and a division by zero is a trap. -/
theorem integer_arithmetic_wraps {i : Instr} {n₁ n₂ n₃ : Int} (hcode : P.code e.pp = i)
    (hlbl : e.lbl = .control) (hcells : arithmeticCells i = some (n₁, n₂, n₃)) (hx : InRange x)
    (h₁ : Denotes e.mem (.intCell x) (e.mem (e.cell n₁)))
    (h₂ : Denotes e.mem (.intCell y) (e.mem (e.cell n₂)))
    (hshift : ∀ op m₁ m₂ m₃, i = .int op m₁ m₂ m₃ → op.isShift → 0 ≤ y ∧ y < 32) :
    (∃ f, Steps P e f ∧ Outcome e f x y n₃ i) ∧
      ∀ r, result x y i = some r →
        IsCell (.intCell (wrap r)) (wrap r) ∧ (InRange r → wrap r = r) :=
  ⟨steps_outcome hcode hlbl hcells hx h₁ h₂ hshift,
    fun r _ => ⟨isCell_intCell (wrap_inRange r), wrap_of_inRange⟩⟩

/-! ## The largest integer plus one -/

/-- A frame with the given integers in cells 2 and 1. -/
def operands (x y : Int) : Engine :=
  { (default : Engine) with mem := fun a => if a = 0 then .intCell x else .intCell y, af := 2 }

theorem operands_denote (x y : Int) :
    Denotes (operands x y).mem (.intCell x) ((operands x y).mem ((operands x y).cell 2)) ∧
      Denotes (operands x y).mem (.intCell y) ((operands x y).mem ((operands x y).cell 1)) :=
  ⟨.here rfl, .here rfl⟩

/-- `sub` of `1` from the smallest integer gives the largest one. -/
theorem integer_arithmetic_wraps_sub :
    (∃ f, Steps (oneInstr (.ari .sub 2 1 0)) (operands (-(2 ^ 28)) 1) f ∧
      Outcome (operands (-(2 ^ 28)) 1) f (-(2 ^ 28)) 1 0 (.ari .sub 2 1 0)) ∧
      ∀ r, result (-(2 ^ 28)) 1 (.ari .sub 2 1 0) = some r →
        IsCell (.intCell (wrap r)) (wrap r) ∧ (InRange r → wrap r = r) :=
  integer_arithmetic_wraps rfl rfl rfl (by decide) (operands_denote _ _).1
    (operands_denote _ _).2 fun _ _ _ _ h => by cases h

/-- The result is stored if it fits, and otherwise the engine is in the error status. -/
def ExactOrRefused (e f : Engine) (n k : Int) : Option Int → Prop
  | some r => if InRange r then Stored e f n k (.intCell r) else f.status = .error
  | none => f.status = .error

/-- `add` of `1` to the largest integer is not refused: it gives the smallest one. -/
theorem not_exactOrRefused_add :
    ∃ f, Steps (oneInstr (.ari .add 2 1 0)) (operands (2 ^ 28 - 1) 1) f ∧
      f.mem ((operands (2 ^ 28 - 1) 1).cell 0) = .intCell (-(2 ^ 28)) ∧
      ¬ ExactOrRefused (operands (2 ^ 28 - 1) 1) f 0 4 (some (2 ^ 28 - 1 + 1)) := by
  obtain ⟨hden₁, hden₂⟩ := operands_denote (2 ^ 28 - 1) 1
  obtain ⟨f, hsteps, -, -, hstatus, hmem⟩ := steps_outcome (P := oneInstr (.ari .add 2 1 0))
    rfl rfl rfl (by decide) hden₁ hden₂ fun _ _ _ _ h => by cases h
  refine ⟨f, hsteps, ?_, fun h => ?_⟩
  · rw [hmem, Function.update_self]
    decide
  · rw [ExactOrRefused, if_neg (by decide), hstatus] at h
    cases h

end Engine

end Mlvm
