import Mlvm.Opcode.Word
import Mathlib.Data.List.Basic

/-!
# Collecting garbage

`do_collection` of `mmanager.c`, with `do_gc_start` and `do_gc_stop`.

The cells above a generation line are copied into a buffer and back: first the arguments and the
old cells that may lead above the line, then what the copies lead to, in the order of the copies.
**`scanp`** is the next word of the copy to look at, **`freep`** the end of the copy. A word that
is settled already holds the address of its target after the copies are moved back to the stack.

A cell that has been copied holds a reference into the buffer: the tail of a list, the functor of
a structure, and a variable. The head of a list keeps its word.

**The trail.** The slots from the top down to the generation line at `af` are a list, and so are the
older slots behind it. `prevp`, which the source reads at addresses between two words, is a
parameter.

The loops that need not end have a bound on their rounds. The source does not ask whether the words
fit into the buffer; here the scan stops behind its end.
-/

namespace Mlvm

namespace Collection

/-- `GC_LIMIT`. -/
def GC_LIMIT : Int := 81920

/-- `GC_STATIC`. -/
def GC_STATIC : Int := GC_LIMIT * 2

/-- The registers that never change: the collecting line, the stack pointer, the bottom of the stack
and the bottom of the buffer, with the end of the buffer. -/
structure Area where
  cline : Int
  st : Int
  stack_bottom : Int
  copy_bottom : Int
  copy_end : Int
  deriving DecidableEq, Repr

/-- The memory and the two pointers into the buffer. -/
structure Copy where
  mem : Int → Word
  scanp : Int
  freep : Int

namespace Area

variable (K : Area)

/-- The address on the stack for a word of the buffer. -/
def dest (x : Int) : Int := K.cline + (x - K.copy_bottom)

def hitOld (a : Int) : Bool := a < K.cline && K.stack_bottom ≤ a

def hitMid (a : Int) : Bool := a ≤ K.st && K.cline ≤ a

def hitPrevious (prevp a : Int) : Bool := a < prevp && K.stack_bottom ≤ a

def hitCopiedVar (c : Copy) (a : Int) : Bool := a < c.freep && K.copy_bottom ≤ a

end Area

namespace Copy

variable (c : Copy)

/-- `*a = w`. -/
def set (a : Int) (w : Word) : Copy := { c with mem := Function.update c.mem a w }

/-- `*scanp++ = w`. -/
def settle (w : Word) : Copy :=
  { c with mem := Function.update c.mem c.scanp w, scanp := c.scanp + 1 }

/-- `*freep++ = w`. -/
def put (w : Word) : Copy :=
  { c with mem := Function.update c.mem c.freep w, freep := c.freep + 1 }

/-- `*freep++ = *p++`, `n` times. -/
def putCells : ℕ → Int → Copy → Copy
  | 0, _, c => c
  | n + 1, p, c => putCells n (p + 1) (c.put (c.mem p))

end Copy

/-! ## Scanning -/

variable (K : Area)

/-- A variable: the copy refers to itself and the cell at `a` to the copy. -/
def forward (a : Int) (c : Copy) : Copy :=
  { (c.set c.scanp (.ref (K.dest c.scanp))).set a (.ref c.scanp) with scanp := c.scanp + 1 }

/-- A list pair whose tail stays as it is; `ax` is the tail. -/
def copyAgain (p : Int) (ax : Word) (c : Copy) : Copy :=
  let d := c.settle (.lis (K.dest c.freep))
  (d.put (d.mem p)).put ax

/-- A list pair whose tail is forwarded. -/
def copyPair (p : Int) (ax : Word) (c : Copy) : Copy :=
  let d := c.settle (.lis (K.dest c.freep))
  let e := d.put (d.mem p)
  (e.set (p + 1) (.ref e.freep)).put ax

def copyList (p : Int) (c : Copy) : Copy :=
  match c.mem (p + 1) with
  | .ref x =>
    if K.hitCopiedVar c x then
      if c.scanp < x then c.settle (.lis (K.dest (x - 1))) else copyAgain K p (.ref x) c
    else copyPair K p (.ref x) c
  | ax => copyPair K p ax c

/-- The number of words behind the first one. -/
def blockSize (ax : Word) : ℕ := if ax = .fvlTag then 2 else ax.arity

/-- A structure or a double, whose first word is `ax`. -/
def copyBlock (p : Int) (ax : Word) (c : Copy) : Copy :=
  let d := (c.set p (.ref c.freep)).settle (.str (K.dest c.freep))
  (d.put ax).putCells (blockSize ax) (p + 1)

def copyStr (p : Int) (c : Copy) : Copy :=
  match c.mem p with
  | .ref x =>
    if K.hitCopiedVar c x then c.settle (.str (K.dest x)) else copyBlock K p (.ref x) c
  | ax => copyBlock K p ax c

/-- The root after shunting. The mark of a double is a constant too, so that the case that would
pass over the words of a double is never taken. -/
def checkRoot (root : Word) (c : Copy) : Copy :=
  match root with
  | .ref _ => c
  | .cst n => c.settle (.cst n)
  | .lis p => if K.hitOld p then c.settle (.lis p) else copyList K p c
  | .str p => if K.hitOld p then c.settle (.str p) else copyStr K p c

/-- Pointer shunting. -/
def shunt : ℕ → Word → Copy → Option Copy
  | 0, _, _ => none
  | n + 1, .ref a, c =>
    if K.hitOld a then some (c.settle (.ref a))
    else if K.hitCopiedVar c a then some (c.settle (.ref (K.dest a)))
    else if c.mem a = .ref a then some (forward K a c)
    else shunt n (c.mem a) c
  | _ + 1, root, c => some (checkRoot K root c)

/-- `while (scanp < freep)`, as long as the buffer has not been left. -/
def scan : ℕ → Copy → Option Copy
  | 0, _ => none
  | n + 1, c =>
    if c.scanp < c.freep ∧ c.freep ≤ K.copy_end then (shunt K n (c.mem c.scanp) c).bind (scan n)
    else some c

/-! ## Roots -/

/-- A slot of the trail: a recorded cell or a generation line. -/
inductive Slot where
  | cell (a : Int)
  | line (g : Int)
  deriving DecidableEq, Repr

/-- The trail while its roots are taken from the top: the slots that are left, the roots that
stay, and the copy. -/
structure Roots where
  left : List Slot
  kept : List Slot
  copy : Copy

/-- The word of a root goes to the buffer, the cell refers to the place of the copy. -/
def copyRoot (a : Int) (c : Copy) : Copy := (c.put (c.mem a)).set a (.ref (K.dest c.freep))

/-- `gc_push(*scanp)`: the slot at the bottom goes to the top, which makes room at the bottom. -/
def pushBottom (l : List Slot) : List Slot := l.getLast?.toList ++ l.dropLast

theorem length_pushBottom (l : List Slot) : (pushBottom l).length = l.length := by
  rcases List.eq_nil_or_concat l with rfl | ⟨l, z, rfl⟩
  · rfl
  · simp [pushBottom]

/-- `while (root = gc_pop())`: generation lines and cells above the line are dropped, roots below
the previous generation stay on the trail. A slot that holds zero ends the loop. -/
def popRoots (prevp : Int) : List Slot → List Slot → Copy → Roots
  | [], kept, c => ⟨[], kept, c⟩
  | .line _ :: l, kept, c => popRoots prevp l kept c
  | .cell a :: l, kept, c =>
    if a = 0 then ⟨l, kept, c⟩
    else if K.hitMid a then popRoots prevp l kept c
    else if K.hitPrevious prevp a then
      popRoots prevp (pushBottom l) (.cell a :: kept) (copyRoot K a c)
    else popRoots prevp l kept (copyRoot K a c)
termination_by l => l.length
decreasing_by all_goals simp [length_pushBottom]

/-! ## Moving back -/

/-- `*rp++ = *scanp++`, `n` times. -/
def moveCells : ℕ → Int → Int → (Int → Word) → Int → Word
  | 0, _, _, m => m
  | n + 1, src, rp, m => moveCells n (src + 1) (rp + 1) (Function.update m rp (m src))

/-! ## The buffer -/

/-- The errors of `do_gc_start`. -/
inductive GcError where
  | memoryOut
  | resourceBusy
  deriving DecidableEq, Repr

/-- Where buffers come from: the static one with its lock, and `malloc`. -/
structure Buffers where
  gc_static : Int
  locked : Bool
  malloc : Int → Option Int

/-- `do_gc_start`, for the generation line `g`: the buffer and its size. -/
def doGcStart (b : Buffers) (st g : Int) : Except GcError (Int × Int) :=
  if GC_STATIC ≤ st - g then
    match b.malloc (st - g) with
    | none => .error .memoryOut
    | some p => .ok (p, st - g)
  else if b.locked then .error .resourceBusy
  else .ok (b.gc_static, GC_STATIC)

/-- `memset`: the words of the buffer are zero. -/
def clear (p : Int) (mem : Int → Word) : Int → Word := fun x =>
  if p ≤ x ∧ x < p + GC_STATIC then .ref 0 else mem x

/-! ## The collection -/

/-- The address of a slot's word. -/
def Slot.addr : Slot → Int
  | cell a => a
  | line g => g

/-- The fields of the control block the collection reads and writes, with the slots of the trail
from the top on. -/
structure Imago where
  mem : Int → Word
  trail : List Slot
  stack_base : Int
  block_ceiling : Int
  af : Int
  st : Int
  gl : Int
  nl : ℕ
  collections : ℕ

namespace Imago

variable (im : Imago)

/-- `plt->tt`: the free slot above the trail. -/
def tt : Int := im.block_ceiling - 1 - im.trail.length

/-- The number of slots above the one at `af`. -/
def above : ℕ := (im.af - im.tt - 1).toNat

/-- `*plt->af`. -/
def atAf : Option Slot := im.trail[im.above]?

/-- The registers of a collection above the line `g`. -/
def area (g copy_bottom size : Int) : Area where
  cline := g + 1
  st := im.st
  stack_bottom := im.stack_base
  copy_bottom := copy_bottom
  copy_end := copy_bottom + size

end Imago

/-- What comes of a collection. -/
inductive Outcome where
  | done (im : Imago)
  | failed (e : GcError)
  /-- The copies do not fit into the buffer, or not under the trail. -/
  | overrun

/-- The arguments and the roots. -/
def copyRoots (prevp : Int) (K : Area) (im : Imago) : Roots :=
  popRoots K prevp (im.trail.take (im.above + 1)) []
    (Copy.putCells im.nl (im.st - im.nl + 1)
      ⟨clear K.copy_bottom im.mem, K.copy_bottom, K.copy_bottom⟩)

/-- The copies go back to the stack, with the arguments once more on top, and their end is the new
generation line. -/
def moveBack (K : Area) (im : Imago) (r : Roots) (c : Copy) : Imago :=
  let n := (c.freep - K.copy_bottom).toNat
  let top := K.cline + n + im.nl - 1
  { im with
    mem := moveCells im.nl K.cline (K.cline + n) (moveCells n K.copy_bottom K.cline c.mem)
    trail := .line top :: (r.left ++ r.kept ++ im.trail.drop (im.above + 1))
    st := top
    gl := top
    collections := im.collections + 1 }

/-- What the collection leaves, when the copies fit. -/
def finish (K : Area) (im : Imago) (r : Roots) (c : Copy) : Outcome :=
  let im' := moveBack K im r c
  if c.freep ≤ K.copy_end ∧ im'.st ≤ im'.tt then .done im' else .overrun

/-- `do_collection`; there is no result while the bound on the rounds is too small. -/
def doCollection (b : Buffers) (prevp : Int) (im : Imago) (fuel : ℕ) : Option Outcome :=
  im.atAf.bind fun s =>
    match doGcStart b im.st s.addr with
    | .error e => some (.failed e)
    | .ok (copy_bottom, size) =>
      let K := im.area s.addr copy_bottom size
      let r := copyRoots prevp K im
      (scan K fuel r.copy).map (finish K im r)

end Collection

end Mlvm
