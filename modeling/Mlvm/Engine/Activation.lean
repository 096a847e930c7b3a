import Mlvm.Engine.Backtracking

/-!
# Calls of predicates

The engine keeps no record of which choice frame was on top when a predicate was called; `b0` is its
only trace. Here a run carries that record along: the calls whose clauses are not finished, newest
first, and for every choice frame the calls that its alternatives go on with.

* `Activation` — one call, with the frames there were.
* `History` — the calls and the choice points of a run.
* `Laid` — what the layout of compiled code promises about a step.
* `Traces` — the runs.
-/

namespace Mlvm

/-- An operation that leaves the choice frames and the generations alone. -/
def Op.isLocal : Op → Bool
  | assign _ _ => true
  | move _ _ => true
  | push _ => true
  | pushCell _ => true
  | setSt _ => true
  | bindBb _ _ => true
  | bindGl _ _ => true
  | trail _ => true
  | _ => false

namespace Engine

/-! ## Calls and choice points -/

/-- A call of a predicate. -/
structure Activation where
  /-- The states in which the TRYs of the choice frames at the call were executed, newest first. -/
  choices : List Engine
  /-- The top choice frame at the call. -/
  bb : Int
  /-- `b0` after the call. -/
  b0 : Int
  /-- The clause has not called a predicate yet. -/
  neck : Bool
  /-- The cells that the clause has named by `deeplabel`, with what was stored there. -/
  labels : List (Int × Int)

/-- A choice frame that is still there. -/
structure ChoicePoint where
  /-- The state in which the TRY was executed. -/
  made : Engine
  calls : List Activation
  /-- The cells that were overwritten for good since. -/
  overwritten : List Int

def ChoicePoint.overwrite (O : List Int) (c : ChoicePoint) : ChoicePoint :=
  { c with overwritten := O ++ c.overwritten }

structure History where
  calls : List Activation
  points : List ChoicePoint

/-- The choice frames as states of their TRYs. -/
def frames (F : List ChoicePoint) : List Engine := F.map ChoicePoint.made

/-- The entry of the imago counts as a call. -/
def History.initial (e : Engine) : History := ⟨[⟨[], e.bb, e.b0, true, []⟩], []⟩

/-- The choice points after an operation. -/
def pointsAfter (e : Engine) (cs : List Activation) (F : List ChoicePoint) :
    Op → List ChoicePoint
  | .choice _ _ => ⟨e, cs, []⟩ :: F
  | .trust => F.tail.map (ChoicePoint.overwrite (e.overwrites .trust))
  | .neckcut => F.dropWhile fun c => c.made.st + CHOICE_SIZE != e.b0
  | .setBb b => F.dropWhile fun c => c.made.st + CHOICE_SIZE != b
  | o => F.map (ChoicePoint.overwrite (e.overwrites o))

variable (P : Program)

def pointsAfterAll (cs : List Activation) :
    Engine → List ChoicePoint → List Op → List ChoicePoint
  | _, F, [] => F
  | e, F, o :: os => pointsAfterAll cs (e.apply P o) (e.pointsAfter cs F o) os

/-- The caller goes on after the call. -/
def leaveNeck : List Activation → List Activation
  | [] => []
  | a :: cs => { a with neck := false } :: cs

/-- `deeplabel n` has stored `w`. -/
def label (n w : Int) : List Activation → List Activation
  | [] => []
  | a :: cs => { a with labels := (n, w) :: a.labels } :: cs

/-- The calls after an instruction that starts in `e`. -/
def callsStart (e : Engine) (H : History) : Instr → List Activation
  | .call _ => ⟨frames H.points, e.bb, e.b0, true, []⟩ :: leaveNeck H.calls
  | .lastcall _ => ⟨frames H.points, e.bb, e.bb, true, []⟩ :: H.calls.tail
  | .chaincall _ => ⟨frames H.points, e.bb, e.bb, true, []⟩ :: H.calls.tail
  | .proceed => H.calls.tail
  | .return_ => H.calls.tail
  | .stationary _ => ⟨frames H.points, e.bb, e.b0, true, []⟩ :: leaveNeck H.calls
  | .worker _ => ⟨frames H.points, e.bb, e.b0, true, []⟩ :: leaveNeck H.calls
  | .deeplabel n => label n e.b0 H.calls
  | _ => H.calls

/-- The calls after the next step: a backtrack goes on with the calls of the top choice point. -/
def callsAfter (e : Engine) (H : History) : List Activation :=
  match e.lbl with
  | .control => e.callsStart H (P.code e.pp)
  | .backtrack =>
    match H.points with
    | [] => H.calls
    | c :: _ => c.calls
  | _ => H.calls

/-- The history after a step that carries out `os`. -/
def History.next (H : History) (e : Engine) (os : List Op) : History :=
  ⟨callsAfter P e H, pointsAfterAll P H.calls e H.points os⟩

/-! ## Steps of compiled code -/

/-- The operations of a step. What a builtin does to the stack and the trail is stores, pushes and
bindings. -/
inductive Does (e : Engine) : List Op → Prop
  | ops : (∀ i, e.lbl = .control → P.code e.pp ≠ .builtin i) → Does e (e.ops P)
  | builtin {i : Nat} {os : List Op} : e.lbl = .control → P.code e.pp = .builtin i →
      (e.step P).core = (e.applyAll P os).core → e.ValidAll P os → (∀ o ∈ os, o.isLocal) →
      Does e os

/-- Compiled code overwrites no word of a choice frame, makes a choice frame on top of what the
frame saves, and gives labels in the code area below `base`. -/
structure Tidy (base : Int) (e : Engine) (L : List Engine) (o : Op) : Prop where
  offFrames : ∀ a ∈ e.overwrites o, ∀ s ∈ L, ¬ s.InFrame a
  settled : ∀ n l, o = .choice n l → e.Settled base ∧ l < base
  label : ∀ n l, o = .retry n l → l < base

def TidyAll (base : Int) : Engine → List Engine → List Op → Prop
  | _, _, [] => True
  | e, L, o :: os => e.Tidy base L o ∧ TidyAll base (e.apply P o) (e.framesAfter L o) os

/-- The next instruction is `i`. -/
def Starts (e : Engine) (i : Instr) : Prop := e.lbl = .control ∧ P.code e.pp = i

/-- **The layout of compiled code.** A clause has NECKCUT and DEEPLABEL before its calls, DEEPCUT n
after DEEPLABEL n with the cell as DEEPLABEL has left it; the alternatives of a predicate, which
start with RETRY or TRUST, are entered by backtracking. -/
structure Laid (base : Int) (H : History) (e : Engine) (os : List Op) : Prop where
  tidy : TidyAll P base e (frames H.points) os
  neckcut : Starts P e .neckcut → ∃ a ∈ H.calls.head?, a.neck
  deeplabel : ∀ n, Starts P e (.deeplabel n) → ∃ a ∈ H.calls.head?, a.neck
  deepcut : ∀ n, Starts P e (.deepcut n) →
    ∃ a ∈ H.calls.head?, ∃ w, (n, w) ∈ a.labels ∧ e.mem (e.cell n) = .ref w
  alternative : e.lbl = .exec → (P.code e.pp = .trust ∨ ∃ n l, P.code e.pp = .retry n l) →
    ∃ c ∈ H.points.head?, H.calls = c.calls

/-- The next instruction is a cut. -/
def Cuts (e : Engine) : Prop := Starts P e .neckcut ∨ ∃ n, Starts P e (.deepcut n)

/-! ## Runs -/

/-- A freshly loaded imago. -/
structure Loaded (e : Engine) : Prop where
  bb : e.bb = e.stack_base
  b0 : e.b0 = e.stack_base
  gl : e.gl = e.stack_base
  st : e.stack_base ≤ e.st
  lbl : e.lbl = .control

/-- The runs from `e₀` on whose steps all meet `C`. -/
inductive Traces (C : History → Engine → List Op → Prop) (e₀ : Engine) :
    History → Engine → Prop
  | start : Traces C e₀ (History.initial e₀) e₀
  | step {H : History} {e : Engine} {os : List Op} : Traces C e₀ H e → Does P e os → C H e os →
      Traces C e₀ (H.next P e os) (e.step P)
  /-- The scheduler gives the engine back. -/
  | resume {H : History} {e : Engine} : Traces C e₀ H e → e.lbl = .contextSwitch →
      e.status = .ready ∨ e.status = .backtrack → Traces C e₀ H e.enter

end Engine

end Mlvm
