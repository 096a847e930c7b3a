import Mlvm.Builtins.AtomConcat

/-!
# `functor/3` and `arg/3`

`bp_functor3` and `bp_arg` of `bp_impl.c`. The three arguments are on top of the stack, and the
first of them is two words below its top. A term that `functor/3` makes is written over the
arguments.

Nothing ever assigns `con_list`, so that it is zero. The loop over the unbound arguments counts a
32-bit integer down to zero.
-/

namespace Mlvm.Builtins

open Creator

/-- `con_list`, which no code sets. -/
def conList : Word := .ref 0

def MAX_ARITY : Int := 511

/-- `*(int*) x = w`, and `bt_trail`. -/
def assignTrail (ip : Icb) (m : Memory) (x : Int) (w : Word) : Icb × Memory :=
  let m := m.write x w
  if x ≤ ip.gl then ({ ip with tt := ip.tt - 1 }, m.write ip.tt (.ref x)) else (ip, m)

/-- Unbound variables are pushed. -/
def newVars (m : Memory) (st : Int) : ℕ → Int × Memory
  | 0 => (st, m)
  | n + 1 => newVars (m.write (st + 1) (.ref (st + 1))) (st + 1) n

/-- `functor(-, r2, r3)`, for the variable `x`. -/
def construct (ip : Icb) (m : Memory) (x : Int) (r2 r3 : Word) : Exit × Icb × Memory :=
  if !r2.isCst || !r3.isInt then (.illegal, ip, m)
  else if r3.intValue > MAX_ARITY then (.illegal, ip, m)
  else if r3.intValue = 0 then (.succeed, assign ip m x r2)
  else if r2 = conList then
    let st := ip.st - 3 + 1
    let (ip, m) := assignTrail ip (m.write st (.ref st)) x (.lis st)
    (.succeed, { ip with st := st + 1 }, m.write (st + 1) (.ref (st + 1)))
  else
    let st := ip.st - 3 + 1
    let (ip, m) := assignTrail ip (m.write st (.makeFun r2.intValue r3.intValue)) x (.str st)
    let (st, m) := newVars m st (r3.intValue % 2 ^ 32).toNat
    (.succeed, { ip with st }, m)

/-- `functor(+, r2, r3)`, for a term with this name and arity. -/
def inspect (ip : Icb) (m : Memory) (name : Word) (arity : Int) (r2 r3 : Word) :
    Exit × Icb × Memory :=
  if !r2.isVar && r2 ≠ name then (.backtrack, ip, m)
  else
    let (ip, m) := if r2.isVar then assign ip m r2.addr name else (ip, m)
    if r3.isVar then (.succeed, assign ip m r3.addr (.makeInt arity))
    else if r3.intValue ≠ arity then (.backtrack, ip, m)
    else (.succeed, ip, m)

/-- `functor/3`, for arguments that have been dereferenced. -/
def functorTerm (ip : Icb) (m : Memory) (r1 r2 r3 : Word) : Exit × Icb × Memory :=
  match r1 with
  | .ref x => construct ip m x r2 r3
  | .lis _ => inspect ip m conList 2 r2 r3
  | .str p => inspect ip m (.makeCon (m.read p).funValue) (m.read p).arity r2 r3
  | .cst _ => (.illegal, ip, m)

/-- `bp_functor3`. -/
def bpFunctor3 (ip : Icb) (m : Memory) (fuel : ℕ) : Option (Exit × Icb × Memory) :=
  (argument fuel ip m 2).bind fun r1 =>
  (argument fuel ip m 1).bind fun r2 =>
  (argument fuel ip m 0).map fun r3 => functorTerm ip m r1 r2 r3

/-- The address below the arguments of a compound term, and its arity. -/
def compound (m : Memory) : Word → Option (Int × Int)
  | .lis p => some (p - 1, 2)
  | .str p => some (p, (m.read p).arity)
  | _ => none

/-- The argument at `r4` is unified with `r3`. Two terms are not unified yet. -/
def unifyArg (fuel : ℕ) (ip : Icb) (m : Memory) (r4 : Int) (r3 : Word) :
    Option (Exit × Icb × Memory) :=
  match r3 with
  | .ref x =>
    let w := m.read r4
    some (.succeed, if w.isCon then assign ip m x w else assignTrail ip m x w)
  | r3 =>
    (deref m fuel (.ref r4)).map fun w =>
      match w with
      | .ref y => (.succeed, if r3.isCon then assign ip m y r3 else assignTrail ip m y r3)
      | _ => (.succeed, ip, m)

/-- `arg/3`, for arguments that have been dereferenced. -/
def argTerm (fuel : ℕ) (ip : Icb) (m : Memory) (r1 r2 r3 : Word) : Option (Exit × Icb × Memory) :=
  if !r1.isInt then some (.illegal, ip, m)
  else
    match compound m r2 with
    | none => some (.illegal, ip, m)
    | some (below, arity) =>
      if r1.intValue < 1 ∨ r1.intValue > arity then some (.illegal, ip, m)
      else unifyArg fuel ip m (below + r1.intValue) r3

/-- `bp_arg`. -/
def bpArg (ip : Icb) (m : Memory) (fuel : ℕ) : Option (Exit × Icb × Memory) :=
  (argument fuel ip m 2).bind fun r1 =>
  (argument fuel ip m 1).bind fun r2 =>
  (argument fuel ip m 0).bind fun r3 => argTerm fuel ip m r1 r2 r3

end Mlvm.Builtins
