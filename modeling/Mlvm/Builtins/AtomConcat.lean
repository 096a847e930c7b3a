import Mlvm.Creator.CopyArg

/-!
# `atom_concat/3`

`bp_atom_concat` of `bp_impl.c`. The three arguments are on top of the stack. Two atoms are joined,
compared with a third, or one is taken off either end of a third; the name that comes out is looked
up in the name table, which may move the stack.

A byte that is read outside the name table counts as a fault, and so does an array without any
elements. `memcmp` reads up to the first byte that differs.
-/

namespace Mlvm.Builtins

open Creator

/-- How a builtin comes back: `IMAGO_BACKTRACK`, or `IMAGO_ERROR` with `E_ILLEGAL_ARGUMENT`. -/
inductive Exit where
  | succeed
  | backtrack
  | illegal
  deriving DecidableEq

theorem intValue_makeCon (x : Int) : (Word.makeCon x).intValue = x := by
  simp only [Word.intValue, Word.makeCon, Word.bits]
  omega

/-- `name_ptr`. -/
def namePtr (ip : Icb) (index : Int) : Int := ip.name_base + index - ASCII_SIZE

/-- The string at an address in the name table. -/
def nameIn (ip : Icb) (byte : Int → UInt8) : ℕ → Int → Option (List UInt8)
  | 0, _ => none
  | n + 1, a =>
    if ip.name_base ≤ a ∧ a < ip.name_top then
      if byte a = 0 then some [] else (nameIn ip byte n (a + 1)).map (byte a :: ·)
    else none

/-- `memcmp` gives zero, for as many bytes as the string has. -/
def memcmp (ip : Icb) (byte : Int → UInt8) : List UInt8 → Int → Option Bool
  | [], _ => some true
  | c :: cs, a =>
    if ip.name_base ≤ a ∧ a < ip.name_top then
      if c = byte a then memcmp ip byte cs (a + 1) else some false
    else none

/-- `*(int*) x = w`, and `bt_bbtrail`. -/
def assign (ip : Icb) (m : Memory) (x : Int) (w : Word) : Icb × Memory :=
  let m := m.write x w
  if x ≤ ip.bb then ({ ip with tt := ip.tt - 1 }, m.write ip.tt (.ref x)) else (ip, m)

/-- The argument that is `k` words below the top of the stack. -/
def argument (fuel : ℕ) (ip : Icb) (m : Memory) (k : Int) : Option Word :=
  deref m fuel (m.read (ip.st - k))

/-- The string of an argument, which is empty for a variable. -/
def argName (fuel : ℕ) (ip : Icb) (m : Memory) (w : Word) : Option (List UInt8) :=
  if w.isCon then nameIn ip m.byte fuel (namePtr ip w.intValue) else some []

/-- The name is looked up and assigned to argument `k`, which has been dereferenced to `r`. -/
def assignName (fuel : ℕ) (ip : Icb) (m : Memory) (name : List UInt8) (k : Int) (r : Word) :
    Option (Exit × Icb × Memory) :=
  (searchIndex fuel name ip ip.st m).bind fun (v, nl, ip, m) =>
    (if nl = 0 then some r else argument fuel ip m k).map fun r =>
      (.succeed, assign ip m r.addr (.makeCon (v + ASCII_SIZE)))

/-- The four modes, for arguments that have passed the checks. -/
def concatModes (fuel : ℕ) (ip : Icb) (m : Memory) (r1 r2 r3 : Word) :
    Option (Exit × Icb × Memory) :=
  (argName fuel ip m r1).bind fun s1 =>
  (argName fuel ip m r2).bind fun s2 =>
  (argName fuel ip m r3).bind fun s3 =>
    let c3 := namePtr ip r3.intValue
    if r1.isCon && r2.isCon then
      if r3.isCon then
        if s1.length + s2.length ≠ s3.length then some (.backtrack, ip, m)
        else
          (memcmp ip m.byte s1 c3).bind fun same =>
            if !same then some (.backtrack, ip, m)
            else
              (memcmp ip m.byte s2 (c3 + (s3.length - s2.length : Int))).map fun same =>
                (if same then .succeed else .backtrack, ip, m)
      else assignName fuel ip m (s1 ++ s2) 0 r3
    else if r1.isCon then
      (memcmp ip m.byte s1 c3).bind fun same =>
        if !same then some (.backtrack, ip, m)
        else
          (nameIn ip m.byte fuel (c3 + s1.length)).bind fun s => assignName fuel ip m s 1 r2
    else
      -- `char buf[l3-l2+1]`
      if (s3.length - s2.length + 1 : Int) ≤ 0 then none
      else
        (memcmp ip m.byte s2 (c3 + (s3.length - s2.length : Int))).bind fun same =>
          if !same then some (.backtrack, ip, m)
          else assignName fuel ip m (s3.take (s3.length - s2.length)) 2 r1

/-- The checks of the arguments. -/
def concatChecked (fuel : ℕ) (ip : Icb) (m : Memory) (r1 r2 r3 : Word) :
    Option (Exit × Icb × Memory) :=
  if r1.isVar && r2.isVar then some (.illegal, ip, m)
  else if (r1.isVar || r2.isVar) && r3.isVar then some (.illegal, ip, m)
  else if (!r1.isVar && !r1.isCon) || (!r2.isVar && !r2.isCon) || (!r3.isVar && !r3.isCon) then
    some (.illegal, ip, m)
  else concatModes fuel ip m r1 r2 r3

/-- `bp_atom_concat`. -/
def bpAtomConcat (ip : Icb) (m : Memory) (fuel : ℕ) : Option (Exit × Icb × Memory) :=
  (argument fuel ip m 2).bind fun r1 =>
  (argument fuel ip m 1).bind fun r2 =>
  (argument fuel ip m 0).bind fun r3 =>
    concatChecked fuel ip m r1 r2 r3

end Mlvm.Builtins
