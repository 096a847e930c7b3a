import Mlvm.Imagoc.Names

/-!
# The compiler's clause table

A clause that has been read is linked to the **clause node** of the predicate that it belongs
to. The nodes are found by functor number, through a hash table of `HASH_TAB_NUM` buckets, and
in front of the table stands a **cache of one entry**: the number asked for last, if it was
found, and its node. A node that has just been created is not cached.

**The view.** While every predicate has a number below `HASH_TAB_NUM` no two of them share a
bucket, and the table is a map from numbers to nodes (`Compiler.view`). What the operations do
is stated on this map: `find_after` for the look-ups, `assign_after` for the assignments and
`storeClause_after` for a whole clause, each for a number whose cache entry, if it has one, is
in the table (`LiveAt`).
-/

namespace Mlvm.Imagoc

/-! ## Terms -/

/-- A term as the parser builds it. A variable carries its index in `val`. -/
inductive Term
  | var (str : String) (val : Nat)
  | str (str : String)
  | real (str : String)
  | func (str : String) (args : List Term)

namespace Term

/-- Name and number of arguments, for a term that is a functor. -/
def func? : Term → Option Func
  | .func s args => some ⟨s, args.length⟩
  | _ => none

/-- The first argument. -/
def first : Term → Term
  | .func _ (a :: _) => a
  | t => t

/-- The argument after the first one. -/
def second : Term → Term
  | .func _ (_ :: b :: _) => b
  | t => t

mutual

/-- All functors of a term. -/
def funcs : Term → List Func
  | .func s args => ⟨s, args.length⟩ :: funcsAll args
  | _ => []

def funcsAll : List Term → List Func
  | [] => []
  | t :: ts => funcs t ++ funcsAll ts

end

theorem mem_funcs_of_func? {t : Term} {f : Func} (h : t.func? = some f) : f ∈ t.funcs := by
  cases t with
  | func s args =>
    rw [func?, Option.some.injEq] at h
    simp [funcs, h]
  | _ => simp [func?] at h

theorem mem_funcs_of_first {t : Term} {f : Func} (h : t.first.func? = some f) :
    f ∈ t.funcs := by
  cases t with
  | func s args =>
    cases args with
    | nil => exact mem_funcs_of_func? h
    | cons a args =>
      have := mem_funcs_of_func? (t := a) h
      simp [funcs, funcsAll, this]
  | _ => exact mem_funcs_of_func? h

section

-- the functor numbers at the moment
variable (num : Func → Nat)

/-- The field `val`: a functor's number or a variable's index. -/
def val : Term → Nat
  | .func s args => num ⟨s, args.length⟩
  | .var _ v => v
  | _ => 0

/-- `t->ty == FUNC && t->val == v`. -/
def hasVal (v : Nat) : Term → Bool
  | .func s args => num ⟨s, args.length⟩ == v
  | _ => false

/-- `head_of_clause`. -/
def headOfClause (t : Term) : Term :=
  if t.hasVal num RULEIFVAL then t.first else t

mutual

/-- `quote_expand`: take away the outermost quotes. -/
def quoteExpand (quoted : Bool) : Term → Term
  | .func s args =>
    if num ⟨s, args.length⟩ = QUOTEVAL ∧ quoted = false then
      (quoteExpands true args).headD (.func s args)
    else .func s (quoteExpands quoted args)
  | t => t

def quoteExpands (quoted : Bool) : List Term → List Term
  | [] => []
  | t :: ts => quoteExpand quoted t :: quoteExpands quoted ts

end

mutual

/-- `check_quote`: is there a quote anywhere in the term? -/
def checkQuote : Term → Bool
  | .func s args => !args.isEmpty && (num ⟨s, args.length⟩ == QUOTEVAL || checkQuotes args)
  | _ => false

def checkQuotes : List Term → Bool
  | [] => false
  | t :: ts => checkQuote t || checkQuotes ts

end

/-- `check_pred`: a goal or a head must be a functor. Keeps track of whether a cut and whether
a quote has been met; a goal that is the first cut is not searched for quotes. -/
def checkPred (foundCut foundQuote : Bool) (pt : Term) : Option (Bool × Bool) :=
  match pt with
  | .func _ _ =>
    if pt.hasVal num CUTVAL && !foundCut then some (true, foundQuote)
    else if !foundQuote then some (foundCut, pt.checkQuote num)
    else some (foundCut, foundQuote)
  | _ => none

/-- The loop of `check_clause` over the goals of a body. -/
def checkBody (foundCut foundQuote : Bool) : Term → Option (Bool × Bool)
  | .func s [l, r] =>
    if num ⟨s, 2⟩ = COMMAVAL then
      (checkPred num foundCut foundQuote l).bind fun found => checkBody found.1 found.2 r
    else checkPred num foundCut foundQuote (.func s [l, r])
  | t => checkPred num foundCut foundQuote t

/-- `check_clause`: fails, or tells whether the clause has a cut and whether it has a quote. -/
def checkClause (pt : Term) : Option (Bool × Bool) :=
  if pt.hasVal num RULEIFVAL then
    (checkPred num false false pt.first).bind fun found => checkBody num false found.2 pt.second
  else checkPred num false false pt

end

end Term

/-! ## Clause nodes -/

/-- A clause as it is stored: as it was read, and with its quotes taken away. -/
structure StoredClause where
  t : Term
  wt : Term
  id : Int

/-- The node of a predicate. `firstClause` is the chain of clauses that starts there. -/
structure HashClauseNode where
  name : Nat
  nClauses : Nat
  firstClause : List StoredClause
  lastClause : Option StoredClause
  compiled : Bool
  protect : Bool
  cut : Bool
  added : Bool

/-- A node as `calloc` leaves it, with its name. -/
def HashClauseNode.new (name : Nat) : HashClauseNode :=
  ⟨name, 0, [], none, false, false, false, false⟩

/-- The number of clauses that a node records is the length of its chain. -/
def HashClauseNode.Counted (node : HashClauseNode) : Prop :=
  node.nClauses = node.firstClause.length

/-- The number of buckets of the clause table, of which bucket 0 is not used. -/
def HASH_TAB_NUM : Nat := 3073

/-- The state of the compiler between two clauses: the name table, the clause nodes by their
address with the next free address, the chains of the clause table, and the cache. -/
structure Compiler where
  names : NameTable
  nodes : Nat → HashClauseNode
  free : Nat
  hashImagoTable : Nat → List Nat
  lastName : Option Nat
  lastImagoNode : Nat

def hashP (name : Nat) : Nat := name % HASH_TAB_NUM + 1

namespace Compiler

/-- The functor numbers at the moment. -/
def num (s : Compiler) (f : Func) : Nat := s.names.num f

/-- Walk a bucket in search of a number. -/
def walk (s : Compiler) (name : Nat) : Option Nat :=
  (s.hashImagoTable (hashP name)).find? fun hp => (s.nodes hp).name == name

/-- `find_hash_clause_node`. -/
def findHashClauseNode (name : Nat) (s : Compiler) : Option Nat × Compiler :=
  if s.lastName = some name then (some s.lastImagoNode, s)
  else match s.walk name with
    | some hp => (some hp, { s with lastName := some name, lastImagoNode := hp })
    | none => (none, s)

/-- `create_hash_clause_node`. A new node is put in front of its bucket, and not cached. -/
def createHashClauseNode (name : Nat) (s : Compiler) : Nat × Compiler :=
  if s.lastName = some name then (s.lastImagoNode, s)
  else match s.walk name with
    | some hp => (hp, { s with lastName := some name, lastImagoNode := hp })
    | none =>
      (s.free, { s with
        nodes := Function.update s.nodes s.free (.new name)
        free := s.free + 1
        hashImagoTable := Function.update s.hashImagoTable (hashP name)
          (s.free :: s.hashImagoTable (hashP name)) })

/-- The read functions of a node's fields: `default` where there is no node. -/
def get {α : Type} (default : α) (field : HashClauseNode → α) (name : Nat) (s : Compiler) :
    α × Compiler :=
  ((s.findHashClauseNode name).1.elim default
      fun hp => field ((s.findHashClauseNode name).2.nodes hp),
    (s.findHashClauseNode name).2)

def imagoFirstClause : Nat → Compiler → List StoredClause × Compiler := get [] (·.firstClause)
def imagoLastClause : Nat → Compiler → Option StoredClause × Compiler := get none (·.lastClause)
def imagoNClauses : Nat → Compiler → Nat × Compiler := get 0 (·.nClauses)
def imagoCompiled : Nat → Compiler → Bool × Compiler := get false (·.compiled)

/-- The assignments to a node's fields, which create the node where there is none. -/
def assign (name : Nat) (field : HashClauseNode → HashClauseNode) (s : Compiler) : Compiler :=
  { (s.createHashClauseNode name).2 with
    nodes := Function.update (s.createHashClauseNode name).2.nodes (s.createHashClauseNode name).1
      (field ((s.createHashClauseNode name).2.nodes (s.createHashClauseNode name).1)) }

def assignImagoFirstClause (name : Nat) (clause : List StoredClause) : Compiler → Compiler :=
  assign name ({ · with firstClause := clause })
def assignImagoLastClause (name : Nat) (clause : StoredClause) : Compiler → Compiler :=
  assign name ({ · with lastClause := some clause })
def assignImagoNClauses (name i : Nat) : Compiler → Compiler :=
  assign name ({ · with nClauses := i })
def assignImagoCut (name : Nat) : Compiler → Compiler := assign name ({ · with cut := true })
def assignImagoAdded (name : Nat) : Compiler → Compiler := assign name ({ · with added := true })

/-- `tr->next = r`, where `tr` is the last clause of the node that `imago_last_clause` finds. -/
def link (name : Nat) (r : StoredClause) (s : Compiler) : Compiler :=
  match s.findHashClauseNode name with
  | (some hp, s) =>
    { s with
      nodes := Function.update s.nodes hp
        { s.nodes hp with firstClause := (s.nodes hp).firstClause ++ [r] } }
  | (none, s) => s

/-- `store_clause`: append a clause to those of the predicate with the number `val`. -/
def storeClause (val : Nat) (orig t : Term) (s : Compiler) : Compiler :=
  let first := s.imagoFirstClause val
  if first.1.isEmpty then
    let r : StoredClause := ⟨orig, t, 1⟩
    ((first.2.assignImagoFirstClause val [r]).assignImagoLastClause val r).assignImagoNClauses
      val 1
  else
    let tr := first.2.imagoLastClause val
    let trId := tr.1.elim (-1) (·.id)
    let r : StoredClause := ⟨orig, t, if trId = -1 then 1 else trId + 1⟩
    let s := tr.2.link val r
    let n := s.imagoNClauses val
    (n.2.assignImagoNClauses val (n.1 + 1)).assignImagoLastClause val r

/-! ## The table as a map -/

/-- The node of a number that lies in its bucket. -/
def view (s : Compiler) (n : Nat) : Option HashClauseNode :=
  (s.hashImagoTable (n + 1)).head?.map s.nodes

/-- The clauses of a number. -/
def clauses (s : Compiler) (n : Nat) : List StoredClause := (s.view n).elim [] (·.firstClause)

/-- Every bucket holds at most one node, which lies in the bucket of its number and has not
been marked as compiled. -/
structure Shaped (s : Compiler) : Prop where
  single : ∀ i, s.hashImagoTable i = [] ∨ ∃ hp, s.hashImagoTable i = [hp]
  place : ∀ i hp, hp ∈ s.hashImagoTable i → (s.nodes hp).name + 1 = i ∧ i ≤ HASH_TAB_NUM
  used : ∀ i hp, hp ∈ s.hashImagoTable i → hp < s.free
  uncompiled : ∀ hp, (s.nodes hp).compiled = false
  small : ∀ n, s.lastName = some n → n < HASH_TAB_NUM

/-- If the number is cached then with the node that the table holds. -/
def LiveAt (s : Compiler) (n : Nat) : Prop :=
  s.lastName = some n → s.hashImagoTable (n + 1) = [s.lastImagoNode]

/-- The cache agrees with the table. -/
def Live (s : Compiler) : Prop := ∀ n, s.LiveAt n

/-- **What an operation on the node of `v` leaves**: the node of `v` is `w` and all other nodes
are as before, and so are the names; the cache is right about `v`, and about every number that
it was right about; and if there was a node for `v` then the cache is right. -/
structure After (s s' : Compiler) (v : Nat) (w : Option HashClauseNode) : Prop where
  shaped : s'.Shaped
  view : ∀ n, s'.view n = if n = v then w else s.view n
  keep : ∀ n, s.LiveAt n → s'.LiveAt n
  cached : s.view v ≠ none → s'.Live
  names : s'.names = s.names

theorem After.trans {s s1 s2 : Compiler} {v : Nat} {w1 w2 : Option HashClauseNode}
    (h1 : After s s1 v w1) (h2 : After s1 s2 v w2) : After s s2 v w2 := by
  refine ⟨h2.shaped, fun n => ?_, fun n h => h2.keep n (h1.keep n h),
    fun h n => h2.keep n (h1.cached h n), h2.names.trans h1.names⟩
  rw [h2.view]
  split
  · rfl
  · rename_i hn
    rw [h1.view, if_neg hn]

theorem After.view_self {s s' : Compiler} {v : Nat} {w : Option HashClauseNode}
    (h : After s s' v w) : s'.view v = w := by
  rw [h.view, if_pos rfl]

theorem hashP_of_lt {n : Nat} (h : n < HASH_TAB_NUM) : hashP n = n + 1 := by
  rw [hashP, Nat.mod_eq_of_lt h]

/-- Walking the bucket of a number finds the node that the map has. -/
theorem Shaped.walk_eq {s : Compiler} (hs : s.Shaped) (n : Nat) :
    s.walk n = (s.hashImagoTable (n + 1)).head? := by
  by_cases hn : n < HASH_TAB_NUM
  · rw [walk, hashP_of_lt hn]
    rcases hs.single (n + 1) with h | ⟨hp, h⟩
    · simp [h]
    · have := (hs.place (n + 1) hp (by simp [h])).1
      have hname : (s.nodes hp).name = n := by omega
      simp [h, hname]
  · have htop : s.hashImagoTable (n + 1) = [] := by
      rcases hs.single (n + 1) with h | ⟨hp, h⟩
      · exact h
      · have := (hs.place (n + 1) hp (by simp [h])).2
        omega
    rw [htop, walk, List.head?_nil, List.find?_eq_none]
    intro hp hmem
    have := (hs.place _ hp hmem)
    have hlt : hashP n < n + 1 := by
      have : n % HASH_TAB_NUM < n :=
        Nat.lt_of_lt_of_le (Nat.mod_lt n (by decide)) (Nat.not_lt.mp hn)
      rw [hashP]
      omega
    simp only [beq_iff_eq]
    omega

theorem view_eq_none {s : Compiler} {n : Nat} :
    s.view n = none ↔ s.hashImagoTable (n + 1) = [] := by
  simp [view]

/-- The state after a look-up that has found a node. -/
theorem cache_after {s : Compiler} (hs : s.Shaped) {v hp : Nat}
    (hv : (s.hashImagoTable (v + 1)).head? = some hp) :
    After s { s with lastName := some v, lastImagoNode := hp } v (s.view v) := by
  have hbucket : s.hashImagoTable (v + 1) = [hp] := by
    rcases hs.single (v + 1) with h | ⟨q, h⟩
    · simp [h] at hv
    · simp only [h, List.head?_cons, Option.some.injEq] at hv
      rw [h, hv]
  have hlive : Live { s with lastName := some v, lastImagoNode := hp } := by
    intro n hn
    simp only [Option.some.injEq] at hn
    rw [← hn]
    exact hbucket
  refine ⟨⟨hs.single, hs.place, hs.used, hs.uncompiled, fun n hn => ?_⟩, fun n => ?_,
    fun n _ => hlive n, fun _ => hlive, rfl⟩
  · simp only [Option.some.injEq] at hn
    have := (hs.place (v + 1) hp (by simp [hbucket])).2
    omega
  · split
    · rename_i hn
      rw [hn]
      rfl
    · rfl

/-- **A look-up finds the node of the map**, and changes the cache only. -/
theorem find_after {s : Compiler} (hs : s.Shaped) {v : Nat} (hv : s.LiveAt v) :
    (s.findHashClauseNode v).1 = (s.hashImagoTable (v + 1)).head? ∧
      (s.findHashClauseNode v).2.nodes = s.nodes ∧
      After s (s.findHashClauseNode v).2 v (s.view v) := by
  unfold findHashClauseNode
  split
  · rename_i hlast
    have hb := hv hlast
    refine ⟨by simp [hb], rfl, ⟨hs, fun n => ?_, fun n h => h, fun _ n hn => ?_, rfl⟩⟩
    · by_cases hn : n = v
      · rw [if_pos hn, hn]
      · rw [if_neg hn]
    · rw [hlast, Option.some.injEq] at hn
      rw [← hn]
      exact hb
  · rw [hs.walk_eq]
    cases hw : (s.hashImagoTable (v + 1)).head? with
    | none =>
      refine ⟨rfl, rfl, ⟨hs, fun n => ?_, fun n h => h, fun h => absurd ?_ h, rfl⟩⟩
      · by_cases hn : n = v
        · rw [if_pos hn, hn]
        · rw [if_neg hn]
      · simp [view, hw]
    | some hp => exact ⟨rfl, rfl, cache_after hs hw⟩

/-- **A field that is read is the field of the node of the map.** -/
theorem get_after {α : Type} (d : α) (field : HashClauseNode → α) {s : Compiler} (hs : s.Shaped)
    {v : Nat} (hv : s.LiveAt v) :
    (get d field v s).1 = (s.view v).elim d field ∧
      After s (get d field v s).2 v (s.view v) := by
  obtain ⟨h1, h2, h3⟩ := find_after hs hv
  refine ⟨?_, h3⟩
  rw [get, h1, h2, view]
  cases (s.hashImagoTable (v + 1)).head? with
  | none => rfl
  | some hp => rfl

theorem imagoFirstClause_after {s : Compiler} (hs : s.Shaped) {v : Nat} (hv : s.LiveAt v) :
    (s.imagoFirstClause v).1 = s.clauses v ∧ After s (s.imagoFirstClause v).2 v (s.view v) :=
  get_after [] (·.firstClause) hs hv

/-- No predicate has been marked as compiled. -/
theorem imagoCompiled_after {s : Compiler} (hs : s.Shaped) {v : Nat} (hv : s.LiveAt v) :
    (s.imagoCompiled v).1 = false ∧ After s (s.imagoCompiled v).2 v (s.view v) := by
  obtain ⟨h, hafter⟩ := get_after false (·.compiled) hs hv
  refine ⟨h.trans ?_, hafter⟩
  unfold view
  cases (s.hashImagoTable (v + 1)).head? with
  | none => rfl
  | some hp => exact hs.uncompiled hp

theorem clauses_congr {s s' : Compiler} {n n' : Nat} (h : s'.view n' = s.view n) :
    s'.clauses n' = s.clauses n := by
  rw [clauses, h, clauses]

/-- Overwriting the node of `v` in place. -/
theorem After.modify {s s1 : Compiler} {v hp : Nat} {w : Option HashClauseNode}
    (h : After s s1 v w) (hb : s1.hashImagoTable (v + 1) = [hp]) {d : HashClauseNode}
    (hname : d.name = (s1.nodes hp).name) (hcomp : d.compiled = false) :
    After s { s1 with nodes := Function.update s1.nodes hp d } v (some d) := by
  have hplace := fun i q => h.shaped.place i q
  have hother : ∀ i q, q ∈ s1.hashImagoTable i → i ≠ v + 1 → q ≠ hp := by
    intro i q hq hi heq
    have h1 := (hplace i q hq).1
    have h2 := (hplace (v + 1) hp (by simp [hb])).1
    rw [heq, h2] at h1
    exact hi h1.symm
  refine ⟨⟨h.shaped.single, fun i q hq => ?_, h.shaped.used, fun q => ?_, h.shaped.small⟩,
    fun n => ?_, h.keep, h.cached, h.names⟩
  · by_cases hqp : q = hp
    · subst hqp
      simpa [hname] using hplace i q hq
    · simpa [Function.update_of_ne hqp] using hplace i q hq
  · by_cases hqp : q = hp
    · subst hqp
      simpa using hcomp
    · simpa [Function.update_of_ne hqp] using h.shaped.uncompiled q
  · by_cases hn : n = v
    · rw [if_pos hn, hn]
      simp [Compiler.view, hb]
    · have hview := h.view n
      rw [if_neg hn] at hview ⊢
      rw [← hview]
      unfold Compiler.view
      cases hq : (s1.hashImagoTable (n + 1)).head? with
      | none => rfl
      | some q =>
        have := hother (n + 1) q (List.mem_of_mem_head? hq) (by omega)
        simp [Function.update_of_ne this]

/-- **Asking for the node of a number to write to it** gives the node of the map, or a new one,
which is in the table from then on. -/
theorem create_after {s : Compiler} (hs : s.Shaped) {v : Nat} (hv : s.LiveAt v)
    (hlt : v < HASH_TAB_NUM) :
    (s.createHashClauseNode v).2.hashImagoTable (v + 1) = [(s.createHashClauseNode v).1] ∧
      After s (s.createHashClauseNode v).2 v (some ((s.view v).getD (.new v))) := by
  have hhead : ∀ hp, (s.hashImagoTable (v + 1)).head? = some hp →
      s.hashImagoTable (v + 1) = [hp] ∧ s.view v = some ((s.view v).getD (.new v)) := by
    intro hp hw
    refine ⟨?_, by simp [view, hw]⟩
    rcases hs.single (v + 1) with h | ⟨q, h⟩
    · simp [h] at hw
    · simp only [h, List.head?_cons, Option.some.injEq] at hw
      rw [h, hw]
  unfold createHashClauseNode
  split
  · rename_i hlast
    have hb := hv hlast
    have hfind := find_after hs hv
    rw [findHashClauseNode, if_pos hlast] at hfind
    exact ⟨hb, (hhead s.lastImagoNode (by simp [hb])).2 ▸ hfind.2.2⟩
  · rename_i hlast
    rw [hs.walk_eq]
    cases hw : (s.hashImagoTable (v + 1)).head? with
    | some hp => exact ⟨(hhead hp hw).1, (hhead hp hw).2 ▸ cache_after hs hw⟩
    | none =>
      have hnil : s.hashImagoTable (v + 1) = [] := List.head?_eq_none_iff.mp hw
      have hnone : s.view v = none := view_eq_none.mpr hnil
      have hfresh : ∀ i q, q ∈ s.hashImagoTable i → q ≠ s.free := fun i q hq heq =>
        absurd (hs.used i q hq) (by rw [heq]; exact Nat.lt_irrefl _)
      rw [hashP_of_lt hlt, hnil, hnone]
      refine ⟨by simp, ⟨⟨fun i => ?_, fun i q hq => ?_, fun i q hq => ?_, fun q => ?_, hs.small⟩,
        fun n => ?_, fun n hn hlast' => ?_, fun h => absurd hnone h, rfl⟩⟩
      · by_cases hi : i = v + 1
        · exact .inr ⟨s.free, by simp [hi]⟩
        · simpa [Function.update_of_ne hi] using hs.single i
      · by_cases hi : i = v + 1
        · subst hi
          simp only [Function.update_self, List.mem_singleton] at hq
          subst hq
          exact ⟨by simp [HashClauseNode.new], hlt⟩
        · simp only [Function.update_of_ne hi] at hq
          simpa [Function.update_of_ne (hfresh i q hq)] using hs.place i q hq
      · by_cases hi : i = v + 1
        · subst hi
          simp only [Function.update_self, List.mem_singleton] at hq
          exact hq ▸ Nat.lt_succ_self _
        · simp only [Function.update_of_ne hi] at hq
          exact Nat.lt_succ_of_lt (hs.used i q hq)
      · by_cases hq : q = s.free
        · simp [hq, HashClauseNode.new]
        · simpa [Function.update_of_ne hq] using hs.uncompiled q
      · by_cases hn : n = v
        · simp [view, hn]
        · have hne : n + 1 ≠ v + 1 := by omega
          rw [if_neg hn]
          simp only [view, Function.update_of_ne hne]
          cases hq : (s.hashImagoTable (n + 1)).head? with
          | none => rfl
          | some q =>
            simp [Function.update_of_ne (hfresh (n + 1) q (List.mem_of_mem_head? hq))]
      · have hne : n + 1 ≠ v + 1 := by
          intro h
          rw [Nat.succ.inj h] at hlast'
          exact hlast hlast'
        simpa [Function.update_of_ne hne] using hn hlast'

/-- **An assignment changes the node of its number**, which is created if it is not there. -/
theorem assign_after {s : Compiler} (hs : s.Shaped) {v : Nat} (hv : s.LiveAt v)
    (hlt : v < HASH_TAB_NUM) {g : HashClauseNode → HashClauseNode}
    (hname : ∀ node, (g node).name = node.name)
    (hcomp : ∀ node, (g node).compiled = node.compiled) :
    After s (s.assign v g) v (some (g ((s.view v).getD (.new v)))) := by
  obtain ⟨hb, hafter⟩ := create_after hs hv hlt
  have hview := hafter.view_self
  rw [view, hb, List.head?_cons, Option.map_some, Option.some.injEq] at hview
  rw [← hview]
  exact hafter.modify hb (hname _) (by rw [hcomp, hafter.shaped.uncompiled])

/-- After an assignment to a node that was there the cache is right. -/
theorem After.live {s s' : Compiler} {v : Nat} {w : Option HashClauseNode} (h : After s s' v w)
    (hw : s.view v ≠ none) : s'.Live := h.cached hw

/-- Linking a clause behind the clauses of a number that has a node. -/
theorem link_after {s : Compiler} (hs : s.Shaped) {v : Nat} (hv : s.LiveAt v)
    {node : HashClauseNode} (hnode : s.view v = some node) (r : StoredClause) :
    After s (s.link v r) v
      (some { node with firstClause := node.firstClause ++ [r] }) := by
  obtain ⟨h1, h2, hafter⟩ := find_after hs hv
  have hnode' := hnode
  rw [view] at hnode'
  cases hw : (s.hashImagoTable (v + 1)).head? with
  | none => simp [hw] at hnode'
  | some hp =>
    simp only [hw, Option.map_some, Option.some.injEq] at hnode'
    have hview := hafter.view_self
    have hb : (s.findHashClauseNode v).2.hashImagoTable (v + 1) = [hp] := by
      unfold findHashClauseNode
      have hbucket : s.hashImagoTable (v + 1) = [hp] := by
        rcases hs.single (v + 1) with h | ⟨q, h⟩
        · simp [h] at hw
        · simp only [h, List.head?_cons, Option.some.injEq] at hw
          rw [h, hw]
      split
      · exact hbucket
      · split <;> exact hbucket
    have heq : s.findHashClauseNode v = (some hp, (s.findHashClauseNode v).2) :=
      Prod.ext (h1.trans hw) rfl
    rw [link, heq]
    have := hafter.modify hb
      (d := { node with firstClause := node.firstClause ++ [r] })
      (by rw [h2, hnode']) (by rw [← hnode']; exact hs.uncompiled hp)
    simpa only [h2, hnode'] using this

/-- **Storing a clause appends it to the clauses of its number**; afterwards the cache is
right. -/
theorem storeClause_after {s : Compiler} (hs : s.Shaped) {v : Nat} (hv : s.LiveAt v)
    (hlt : v < HASH_TAB_NUM) (hcount : ∀ node, s.view v = some node → node.Counted)
    (orig t : Term) :
    ∃ node : HashClauseNode, After s (s.storeClause v orig t) v (some node) ∧ node.Counted ∧
      node.firstClause.map (·.t) = (s.clauses v).map (·.t) ++ [orig] ∧
      (s.storeClause v orig t).Live := by
  obtain ⟨hfst, h1⟩ := imagoFirstClause_after hs hv
  have hv1 := h1.keep v hv
  unfold storeClause
  simp only [hfst]
  split
  · rename_i hempty
    rw [List.isEmpty_iff] at hempty
    have h2 := assign_after (g := ({ · with firstClause := [⟨orig, t, 1⟩] })) h1.shaped hv1
      hlt (fun _ => rfl) (fun _ => rfl)
    have h3 := assign_after (g := ({ · with lastClause := some ⟨orig, t, 1⟩ })) h2.shaped
      (h2.keep v hv1) hlt (fun _ => rfl) (fun _ => rfl)
    have hlive3 := h3.live (by rw [h2.view_self]; simp)
    have h4 := assign_after (g := ({ · with nClauses := 1 })) h3.shaped (hlive3 v) hlt
      (fun _ => rfl) (fun _ => rfl)
    refine ⟨_, ((h1.trans h2).trans h3).trans h4, ?_, ?_, fun n => h4.keep n (hlive3 n)⟩
    · rw [h3.view_self, h2.view_self]
      rfl
    · rw [h3.view_self, h2.view_self, hempty]
      rfl
  · rename_i hne
    rw [List.isEmpty_iff] at hne
    cases hnode : s.view v with
    | none => exact absurd (by rw [clauses, hnode]; rfl) hne
    | some node =>
      have hlive1 := h1.live (by rw [hnode]; simp)
      have hnode1 := h1.view_self.trans hnode
      obtain ⟨-, h2⟩ := get_after (none : Option StoredClause) (·.lastClause) h1.shaped hv1
      have hnode2 := h2.view_self.trans hnode1
      have hlive2 : (imagoLastClause v (imagoFirstClause v s).2).2.Live :=
        fun n => h2.keep n (hlive1 n)
      generalize (imagoLastClause v (imagoFirstClause v s).2).1.elim (-1) (·.id) = trId
      generalize hr : (⟨orig, t, if trId = -1 then 1 else trId + 1⟩ : StoredClause) = r
      have h3 := link_after h2.shaped (hlive2 v) hnode2 r
      have hlive3 := h3.live (by rw [hnode2]; simp)
      obtain ⟨hn, h4⟩ := get_after 0 (·.nClauses) h3.shaped (hlive3 v)
      have hn' : (imagoNClauses v (link v r
          (imagoLastClause v (imagoFirstClause v s).2).2)).1 = node.nClauses := by
        refine hn.trans ?_
        rw [h3.view_self]
        rfl
      have hnode4 := h4.view_self.trans h3.view_self
      have hlive4 := h4.live (by rw [h3.view_self]; simp)
      have h5 := assign_after (g := ({ · with nClauses := node.nClauses + 1 })) h4.shaped
        (hlive4 v) hlt (fun _ => rfl) (fun _ => rfl)
      have hlive5 := h5.live (by rw [hnode4]; simp)
      have h6 := assign_after (g := ({ · with lastClause := some r })) h5.shaped
        (hlive5 v) hlt (fun _ => rfl) (fun _ => rfl)
      rw [hn']
      refine ⟨_, ((((h1.trans h2).trans h3).trans h4).trans h5).trans h6, ?_, ?_,
        fun n => h6.keep n (hlive5 n)⟩
      · have hcnt := hcount node hnode
        rw [h5.view_self, hnode4]
        simp [HashClauseNode.Counted] at hcnt ⊢
        exact hcnt
      · rw [h5.view_self, hnode4, clauses, hnode]
        simp [← hr]

end Compiler

end Mlvm.Imagoc
