import Mlvm.Imagoc.TermTree

/-!
# Giving out the cells

`assign_cell` of `lhlib.c`. It goes through the tree of a clause once more and gives every functor,
every argument and every first occurrence of a variable a cell, from the top of the frame downwards.
In the body of a clause a number is taken back at once where no cell is needed.

**`Fits`** says what the two passes promise each other: the cells lie inside the frame that was
counted, above the reserved ones, and a variable shares its cell with nothing but its own place.
-/

namespace Mlvm

namespace Cells

/-! ## Cells -/

/-- A number that is written into `index` or `annot`: the variable that has its cell there, the
structure or list that has a part there, and whether the number was kept. -/
structure Cell where
  number : ℤ
  var : Option ℕ
  part : Option ℕ
  kept : Bool
  deriving DecidableEq, Repr

/-- The variables of the traversal. `met` is `node->first` of the variables; `compounds` numbers the
terms with arguments, and `given` is what was written. -/
structure Frame where
  size : ℤ
  enterbody : Bool
  firsttime : ℕ
  met : ℕ → Option ℤ
  compounds : ℕ
  given : List Cell

def Frame.start (size : ℤ) : Frame := ⟨size, false, 0, fun _ => none, 0, []⟩

/-- `size--`, and `size++` if the number is not kept. -/
def Frame.give (s : Frame) (var part : Option ℕ) (kept : Bool) : Frame :=
  { s with
    size := if kept then s.size - 1 else s.size
    given := s.given ++ [⟨s.size, var, part, kept⟩] }

/-- `sib->node->first = sib->index`. -/
def Frame.meet (s : Frame) (v : ℕ) : Frame :=
  { s with met := Function.update s.met v (some s.size) }

/-! ## Arguments -/

/-- Whether a constant keeps its number. -/
def constKept : ClauseType → ℤ → Frame → Bool
  | .userEnd, level, s => !(s.enterbody && level < 2)
  | .chain, level, s => !(s.enterbody && level < 1)
  | .fact, _, _ => true

/-- An argument of a structure or of a goal. -/
def strKid (k : ClauseType) (part : Option ℕ) (ty : MlvmType) (level : ℤ) (s : Frame) : Frame :=
  match ty with
  | .var v =>
      if s.met v = none then (s.meet v).give (some v) part true
      else s.give none part (!(s.enterbody && level < 2))
  | .str | .lis | .lvs | .atomComp => s.give none part true
  | _ => s.give none part (constKept k level s)

/-- A part of a pair. -/
def lisKid (part : Option ℕ) (ty : MlvmType) (s : Frame) : Frame :=
  match ty with
  | .var v =>
      if s.met v = none then (s.meet v).give (some v) part true else s.give none part true
  | _ => s.give none part true

/-- An operand. -/
def mathKid (ty : MlvmType) (s : Frame) : Frame :=
  match ty with
  | .var v =>
      if s.met v = none then (s.meet v).give (some v) none true
      else s.give none none (!s.enterbody)
  | _ => s

/-- The loop over the arguments. -/
def kidLoop (f : MlvmType → ℤ → Frame → Frame) : MlvmTerm → Frame → Frame
  | .null, s => s
  | .node ty level _ next, s => kidLoop f next (f ty level s)

/-! ## Terms -/

/-- Whether a structure gets a cell for its functor. -/
def hasFunctor (k : ClauseType) (level : ℤ) (s : Frame) : Bool :=
  if s.enterbody then
    match k with
    | .userEnd => 1 ≤ level
    | .chain => 0 ≤ level
    | .fact => false
  else true

/-- `t->annot = size--`. The functor of the head gets a number too, but it has no cell. -/
def Frame.giveFunctor (s : Frame) (isHead : Bool) (part : Option ℕ) : Frame :=
  if isHead then { s with size := s.size - 1 } else s.give none part true

/-- What a comma and the second term at level -1 do. -/
def Frame.enter (s : Frame) (ty : MlvmType) (level : ℤ) : Frame :=
  { s with
    enterbody := s.enterbody || (ty = .symComma || level = -1 && s.firsttime = 1)
    firsttime := if level = -1 then s.firsttime + 1 else s.firsttime
    compounds := s.compounds + 1 }

/-- The cells of one term and its arguments; `isHead` holds for the first term. -/
def assignKind (k : ClauseType) (ty : MlvmType) (level : ℤ) (kids : MlvmTerm) (isHead : Bool)
    (s : Frame) : Frame :=
  let part := if isHead then none else some s.compounds
  match ty with
  | .str | .termComparison =>
      if hasFunctor k level s then kidLoop (strKid k part) kids (s.giveFunctor isHead part)
      else kidLoop (strKid k none) kids s
  | .lis | .lvs => kidLoop (fun ty _ => lisKid (some s.compounds) ty) kids s
  | .operator | .comparison =>
      kidLoop (fun ty _ => mathKid ty) kids (if s.enterbody then s else s.giveFunctor isHead part)
  | _ => s

/-- What is done for one term. -/
def assignTerm (k : ClauseType) (ty : MlvmType) (level : ℤ) (kids : MlvmTerm) (s : Frame) : Frame :=
  assignKind k ty level kids (s.firsttime == 0) (s.enter ty level)

/-- `assign_cell`, over a row of terms. -/
def assignCell (k : ClauseType) : MlvmTerm → Frame → Frame
  | .null, s => s
  | .node ty level kids next, s =>
      assignCell k next (assignCell k kids (assignTerm k ty level kids s))

/-- What `assign_cell` writes for a clause. -/
def givenCells (nClauses : ℕ → ℕ) (root : ImagoTerm) : List Cell :=
  (assignCell (clausetype root) (mlvmtermtree nClauses root).1
    (.start (allocated nClauses root + (headOf root).first.siblings))).given

/-- The cells of a clause: the numbers that were kept, and the places of the parts of structures. -/
def cells (nClauses : ℕ → ℕ) (root : ImagoTerm) : List Cell :=
  (givenCells nClauses root).filter fun c => c.kept || c.part.isSome

/-! ## What is promised -/

/-- **The cells fit**: enough were counted, so that each lies in the frame and above the reserved
ones; and two variables, or a variable and a part of another structure, have different cells. -/
structure Fits (nClauses : ℕ → ℕ) (root : ImagoTerm) : Prop where
  enough : ((cells nClauses root).countP fun c => c.kept) +
      reserved (clausetype root) (mlvmtermtree nClauses root).2 ≤
    allocated nClauses root + (headOf root).first.siblings
  inside : ∀ c ∈ cells nClauses root,
    (reserved (clausetype root) (mlvmtermtree nClauses root).2 : ℤ) ≤ c.number ∧
      c.number < allocated nClauses root + (headOf root).first.siblings
  apart : ∀ c ∈ cells nClauses root, ∀ d ∈ cells nClauses root, c.number = d.number →
    ∀ v, c.var = some v → (∀ w, d.var = some w → v = w) ∧ ∀ p, d.part = some p → c.part = some p

end Cells

end Mlvm
