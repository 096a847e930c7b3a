import Mathlib.Algebra.Order.Ring.Int

/-!
# Tagged words

Every stack cell, register and trail slot of the machine is a 32-bit word whose two low bits are
its tag. Here a word is one of four constructors, and the payload is the word without the tag:
a word address for `ref`, `lis` and `str`, and the upper thirty bits for a constant. Payloads are
unbounded, so address arithmetic never wraps.

A boxed double is a `str` word that points at `fvlTag` followed by two words of raw data, which
may carry any tag.
-/

namespace Mlvm

/-- The values below this one are the names of one character. -/
def ASCII_SIZE : Int := 128

/-- A tagged word. -/
inductive Word where
  /-- `REF_TAG`: a reference; the reference to its own cell is an unbound variable. -/
  | ref (a : Int)
  /-- `LIS_TAG`: a list pair at `a` and `a + 1`. -/
  | lis (a : Int)
  /-- `STR_TAG`: a structure or a boxed double at `a`. -/
  | str (a : Int)
  /-- `CST_TAG`: a constant, integer, functor or the mark of a double. -/
  | cst (n : Int)
  deriving DecidableEq, Repr, Inhabited

namespace Word

/-- The machine integer of a word. -/
def bits : Word → Int
  | ref a => 4 * a
  | lis a => 4 * a + 1
  | str a => 4 * a + 2
  | cst n => 4 * n + 3

/-- The address part of a word. -/
def addr : Word → Int
  | ref a => a
  | lis a => a
  | str a => a
  | cst n => n

def isVar : Word → Bool
  | ref _ => true
  | _ => false

def isCst : Word → Bool
  | cst _ => true
  | _ => false

def isList : Word → Bool
  | lis _ => true
  | _ => false

def isStr : Word → Bool
  | str _ => true
  | _ => false

/-- Sub-tag `011`: a 29-bit integer. -/
def isInt : Word → Bool
  | cst n => n % 2 == 0
  | _ => false

/-- Sub-tag `111`: an atom or a functor. -/
def isCon : Word → Bool
  | cst n => n % 2 == 1
  | _ => false

/-- The word before the two data words of a double. -/
def fvlTag : Word := cst (-1)

def isFloat (mem : Int → Word) : Word → Bool
  | str p => mem p == fvlTag
  | _ => false

/-- `(X << TG3_SHIFT) | INT_TAG`, which keeps 29 bits. -/
def makeInt (x : Int) : Word := cst (Int.bmod (2 * x) (2 ^ 30))

def makeCon (x : Int) : Word := cst (2 * x + 1)

/-- Functor `f` with `a` arguments; the arity takes the nine high bits, and from 256 on it turns
the word negative. -/
def makeFun (f a : Int) : Word :=
  cst (2 * (if a < 256 then a * 2 ^ 20 + f else (a - 512) * 2 ^ 20 + f) + 1)

/-- The tag as a number: `REF`, `LIS`, `STR`, `CST`. -/
def tag : Word → Nat
  | ref _ => 0
  | lis _ => 1
  | str _ => 2
  | cst _ => 3

/-- `X >> TG3_SHIFT`, for integers and atoms. -/
def intValue (w : Word) : Int := w.bits / 8

/-- `(X & FUN_MASK) >> TG3_SHIFT`. -/
def funValue (w : Word) : Int := w.bits % 2 ^ 23 / 8

/-- The nine high bits. -/
def arity (w : Word) : Nat := (w.bits % 2 ^ 32 / 2 ^ 23).toNat

def mlvmZero : Word := cst 0

def mlvmNone : Word := cst (-2)

def mlvmOne : Word := cst 2

example : mlvmNone.bits = -5 ∧ mlvmOne.bits = 11 ∧ mlvmZero.bits = 3 := by decide

@[simp] theorem addr_ref (a : Int) : (ref a).addr = a := rfl

@[simp] theorem addr_str (a : Int) : (str a).addr = a := rfl

/-- The arity of a functor is the one it was made with. -/
theorem arity_makeFun {f a : Int} (hf : 0 ≤ f) (hf' : f < 2 ^ 20) (ha : 0 ≤ a) (ha' : a < 512) :
    (makeFun f a).arity = a.toNat := by
  simp only [arity, makeFun, bits]
  split <;> omega

end Word

end Mlvm
