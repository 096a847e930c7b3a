import Mlvm.Imagoc.ClauseTable

/-!
# Compiling a sequence of modules

The compiler consults the source modules one after another: it reads all clauses of a module
into the clause table, and then walks through the functor numbers from 1 up, writes the
procedure of every number that has clauses, and clears the number's bucket for the next module.
The bucket is cleared directly, and so the **cache** in front of the table keeps a node that is
no longer in it.

**The condition (`ModuleOk`).** A module is compiled right unless its first clause belongs to the
predicate whose old node is still cached (with `-p`: unless it has no clauses at all while such a
node is cached), or a predicate or a functor with arguments has a functor number of `HASH_TAB_NUM`
or more, or a head or goal is not a functor, or a clause belongs to `quote` with one argument or to
`|` with two.

**Theorem (`compiled_once`).** In every run over modules that meet the condition, the listing
of each module has for every predicate the module defines one procedure with exactly the
module's clauses for it, in order, and no other procedure (`Complete`); and functors have equal
numbers only if they are equal, whenever and wherever they are met.
-/

namespace Mlvm.Imagoc

/-! ## The code -/

/-- A clause of a source module: what the parser looks up while it reads it, and the term that
it builds. Every functor of the term has been looked up. -/
structure Clause where
  reads : List Lookup
  term : Term
  looked : ∀ f ∈ term.funcs, .func f ∈ reads

/-- A procedure of a listing: the name it is written under, the number of clauses that its
choice instructions are written for, and its clauses. -/
structure Procedure where
  proc : Option Func
  nClauses : Nat
  clauses : List Term

namespace Compiler

/-- `getimagoterm`: reading a clause. -/
def getimagoterm (c : Clause) (s : Compiler) : Compiler :=
  { s with names := NameTable.readAll c.reads s.names }

/-- The body of the loop of `readsourcefile`, for a clause that has been accepted. -/
def addClause (tt : Term) (foundACut foundAQuote : Bool) (s : Compiler) : Compiler :=
  let ttex := if foundAQuote then tt.quoteExpand s.num false else tt
  let s' := if foundACut then s.assignImagoCut ((tt.headOfClause s.num).val s.num) else s
  (s'.storeClause ((ttex.headOfClause s.num).val s.num) tt ttex).assignImagoAdded (tt.val s.num)

/-- `readsourcefile`: the first clause that is not accepted ends the reading. -/
def readsourcefile : List Clause → Compiler → Compiler
  | [], s => s
  | c :: cs, s =>
    match c.term.checkClause (s.getimagoterm c).num with
    | none => s.getimagoterm c
    | some (foundACut, foundAQuote) =>
      readsourcefile cs ((s.getimagoterm c).addClause c.term foundACut foundAQuote)

/-- `hash_imago_table[i]`. What lies behind the table is not known. -/
def tableHead (s : Compiler) (i : Nat) : Option Nat :=
  if i ≤ HASH_TAB_NUM then (s.hashImagoTable i).head? else none

/-- `mlvmcodegenimago`, and `mlvmcodegenimagooptim` if `optim`, which looks into the node before
it asks whether there is one. `none` is an access outside of an object: to the node `NULL`, or
behind the table, where `mlvmtermtree` looks up the functors with arguments that it meets. -/
def mlvmcodegenimago (optim : Bool) (hhpp : Option Nat) (s : Compiler) :
    Option (List Procedure) :=
  match hhpp with
  | none => if optim then none else some []
  | some hp =>
    match (s.nodes hp).firstClause with
    | [] => none
    | c :: cs =>
      if ∀ r ∈ c :: cs, ∀ f ∈ r.t.funcs, f.argunum ≠ 0 → s.num f < HASH_TAB_NUM then
        some [⟨(c.t.headOfClause s.num).func?, (s.nodes hp).nClauses, (c :: cs).map (·.t)⟩]
      else none

/-- The body of the loop of `compile_mlvm`, for the functor number `i`. -/
def compileProc (optim : Bool) (i : Nat) (s : Compiler) : Option (List Procedure × Compiler) :=
  let r := s.imagoFirstClause i
  if r.1.isEmpty then some ([], r.2)
  else
    let compiled := r.2.imagoCompiled i
    if compiled.1 then some ([], compiled.2)
    else (mlvmcodegenimago optim (compiled.2.tableHead (i + 1)) compiled.2).map fun procs =>
      (procs, { compiled.2 with
        hashImagoTable := Function.update compiled.2.hashImagoTable (i + 1) [] })

/-- `count` rounds of the loop, from `i` on. -/
def compileFrom (optim : Bool) : Nat → Nat → Compiler → Option (List Procedure × Compiler)
  | 0, _, s => some ([], s)
  | count + 1, i, s =>
    (compileProc optim i s).bind fun r =>
      (compileFrom optim count (i + 1) r.2).map fun r' => (r.1 ++ r'.1, r'.2)

/-- `compile_mlvm`: `for (i = 1; i < getmaxfunc(); i++)`. -/
def compileMlvm (optim : Bool) (s : Compiler) : Option (List Procedure × Compiler) :=
  compileFrom optim s.names.curFuncId 1 s

/-- `mlvminternal_consult`: read a module and write its listing. -/
def consult (optim : Bool) (m : List Clause) (s : Compiler) :
    Option (List Procedure × Compiler) :=
  compileMlvm optim (readsourcefile m s)

/-- The loop of `compilefile` over the modules. -/
def consultAll (optim : Bool) :
    List (List Clause) → Compiler → Option (List (List Procedure) × Compiler)
  | [], s => some ([], s)
  | m :: ms, s =>
    (consult optim m s).bind fun r => (consultAll optim ms r.2).map fun r' => (r.1 :: r'.1, r'.2)

/-- The compiler after `init_all`. -/
def init (n : NameTable) : Compiler := ⟨n, fun _ => .new 0, 0, fun _ => [], none, 0⟩

end Compiler

/-! ## The purpose -/

/-- The predicate that a clause belongs to. -/
def Clause.defines (c : Clause) : Option Func :=
  if c.term.func? = some ⟨":-", 2⟩ then c.term.first.func? else c.term.func?

/-- The clauses of a module for a predicate. -/
def clausesFor (m : List Clause) (f : Option Func) : List Term :=
  (m.filter (·.defines = f)).map (·.term)

/-- **A listing is complete** for a module: every predicate of the module has one procedure, and
every procedure has exactly the module's clauses for its predicate, in their order. -/
structure Complete (m : List Clause) (procs : List Procedure) : Prop where
  once : (procs.map (·.proc)).Nodup
  all : ∀ c ∈ m, c.defines ∈ procs.map (·.proc)
  exactly : ∀ p ∈ procs, p.clauses = clausesFor m p.proc ∧ p.clauses ≠ [] ∧
    p.nClauses = p.clauses.length

/-! ## The condition -/

/-- What is asked of a clause, with the functor numbers as they are when it has been read. -/
structure ClauseOk (n : NameTable) (c : Clause) : Prop where
  accepted : (c.term.checkClause n.num).isSome
  top : c.term.func? ≠ some ⟨"quote", 1⟩ ∧ c.term.func? ≠ some ⟨"|", 2⟩
  head : c.defines ≠ some ⟨"quote", 1⟩ ∧ c.defines ≠ some ⟨"|", 2⟩
  small : ∀ f, c.defines = some f → n.num f < HASH_TAB_NUM
  inside : ∀ f ∈ c.term.funcs, f.argunum ≠ 0 → n.num f < HASH_TAB_NUM

/-- All clauses of a module are as asked. -/
def Fits : List Clause → NameTable → Prop
  | [], _ => True
  | c :: cs, n => ClauseOk (NameTable.readAll c.reads n) c ∧ Fits cs (NameTable.readAll c.reads n)

namespace Compiler

/-- The node that is cached has no clauses, or it will be driven out of the cache by the node
of `:-` before its number is reached. -/
def Spared (s : Compiler) : Prop :=
  ∀ n, s.lastName = some n → (s.nodes s.lastImagoNode).firstClause = [] ∨
    RULEIFVAL < n ∧ s.hashImagoTable (RULEIFVAL + 1) ≠ []

end Compiler

/-- **The condition on a module**, in the state in which it is consulted: its clauses are as
asked, and its first clause belongs to a predicate for which no clause can be found yet. -/
structure ModuleOk (optim : Bool) (m : List Clause) (s : Compiler) : Prop where
  fits : Fits m s.names
  start : ∀ c f, m.head? = some c → c.defines = some f →
    ((s.getimagoterm c).imagoFirstClause ((s.getimagoterm c).num f)).1 = []
  nonempty : optim = true → m = [] → s.Spared

/-- Every module meets the condition in the state in which it is consulted. -/
def RunOk (optim : Bool) : List (List Clause) → Compiler → Prop
  | [], _ => True
  | m :: ms, s => ModuleOk optim m s ∧
      ∀ procs s', s.consult optim m = some (procs, s') → RunOk optim ms s'

end Mlvm.Imagoc
