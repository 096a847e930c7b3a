import Mlvm.Imagoc.Consult
import Mathlib.Data.List.Nodup

/-!
# Every module is compiled once and complete

The two halves of `mlvminternal_consult` are proved one after the other. **Reading**
(`readsourcefile_gathered`) keeps, for each functor number, the clauses read so far in the chain
of the number's node (`Gathered`); a clause is appended to its chain whether the node is found
in the cache or in the table, because after the first clause the two agree. **Writing**
(`compileFrom_spec`) lists the chains in the order of their numbers and takes the nodes out of
the table; the cache ends on a node that has been taken out (`Cached`), which is what the
condition on the first clause of the next module is about.
-/

namespace Mlvm.Imagoc

open Compiler
open NameTable hiding num

/-! ## What a clause defines -/

/-- The names are told apart and the declared functors have their numbers. -/
structure Named (n : NameTable) : Prop where
  numbered : Numbered n
  cur_pos : 0 < n.curFuncId
  declared : ∀ e ∈ builtinOperator, n.val e.1 = some e.2

theorem Named.readAll {n : NameTable} (h : Named n) (ls : List Lookup) :
    Named (readAll ls n) :=
  ⟨h.numbered.readAll h.cur_pos ls, Nat.lt_of_lt_of_le h.cur_pos (curFuncId_le_readAll n ls),
    fun e he => val_readAll (h.declared e he) ls⟩

theorem num_eq_of_val {n : NameTable} {f : Func} {v : Nat} (h : n.val f = some v) :
    n.num f = v := by
  rw [NameTable.num, h, Option.getD_some]

/-- A functor with the number of a declared one is that one, if neither is `|`. -/
theorem Named.eq_of_num {n : NameTable} (h : Named n) {f g : Func} {v : Nat}
    (hg : (g, v) ∈ builtinOperator) (hgbar : g ≠ ⟨"|", 2⟩) (hfbar : f ≠ ⟨"|", 2⟩)
    (hf : n.num f = v) : f = g := by
  have hgval := h.declared _ hg
  have hpos := h.numbered.pos _ _ hgval
  cases hval : n.val f with
  | none =>
    rw [NameTable.num, hval, Option.getD_none] at hf
    simp only at hpos
    omega
  | some a =>
    rw [num_eq_of_val hval] at hf
    rw [hf] at hval
    rcases h.numbered.inj f g v hval hgval with heq | ⟨hf', hg'⟩
    · exact heq
    · rw [hf'.resolve_left hfbar, hg'.resolve_left hgbar]

theorem Named.num_rule {n : NameTable} (h : Named n) : n.num ⟨":-", 2⟩ = RULEIFVAL :=
  num_eq_of_val (h.declared _ (by decide : ((⟨":-", 2⟩, RULEIFVAL) : Func × Nat) ∈ builtinOperator))

/-- `t->val == RULEIFVAL` is asked of rules. -/
theorem Named.hasVal_rule {n : NameTable} (h : Named n) {t : Term}
    (hbar : t.func? ≠ some ⟨"|", 2⟩) :
    t.hasVal n.num RULEIFVAL = true ↔ t.func? = some ⟨":-", 2⟩ := by
  cases t with
  | func s args =>
    simp only [Term.hasVal, beq_iff_eq, Term.func?, Option.some.injEq] at hbar ⊢
    refine ⟨fun hnum => ?_, fun heq => ?_⟩
    · exact h.eq_of_num (by decide) (by decide) (fun heq => hbar (by rw [heq])) hnum
    · rw [heq, h.num_rule]
  | _ => simp [Term.hasVal, Term.func?]

/-- The head that the compiler works with is the one that the clause defines. -/
theorem Named.func?_headOfClause {n : NameTable} (h : Named n) {c : Clause}
    (hbar : c.term.func? ≠ some ⟨"|", 2⟩) :
    (c.term.headOfClause n.num).func? = c.defines := by
  unfold Term.headOfClause Clause.defines
  by_cases hrule : c.term.func? = some ⟨":-", 2⟩
  · rw [if_pos ((h.hasVal_rule hbar).mpr hrule), if_pos hrule]
  · rw [if_neg (fun hv => hrule ((h.hasVal_rule hbar).mp hv)), if_neg hrule]

theorem val_of_func? {num : Func → Nat} {t : Term} {f : Func} (h : t.func? = some f) :
    t.val num = num f := by
  cases t with
  | func s args =>
    simp only [Term.func?, Option.some.injEq] at h
    rw [Term.val, h]
  | _ => simp [Term.func?] at h

theorem func?_of_checkPred {num : Func → Nat} {c q : Bool} {t : Term}
    (h : (t.checkPred num c q).isSome) : t.func? ≠ none := by
  cases t with
  | func s args => simp [Term.func?]
  | _ => simp [Term.checkPred] at h

/-- A clause that is accepted defines a predicate. -/
theorem Named.defines_ne_none {n : NameTable} (h : Named n) {c : Clause} (hc : ClauseOk n c) :
    c.defines ≠ none := by
  have hacc := hc.accepted
  rw [← h.func?_headOfClause hc.top.2]
  unfold Term.checkClause at hacc
  unfold Term.headOfClause
  split at hacc
  · rename_i hrule
    rw [if_pos hrule]
    obtain ⟨r, hr⟩ := Option.isSome_iff_exists.mp hacc
    obtain ⟨found, hfound, -⟩ := Option.bind_eq_some_iff.mp hr
    exact func?_of_checkPred (by rw [hfound]; rfl)
  · rename_i hrule
    rw [if_neg hrule]
    exact func?_of_checkPred hacc

theorem length_quoteExpands (num : Func → Nat) (q : Bool) (ts : List Term) :
    (Term.quoteExpands num q ts).length = ts.length := by
  induction ts with
  | nil => simp [Term.quoteExpands]
  | cons t ts ih => simp [Term.quoteExpands, ih]

/-- Taking the quotes out of a term that is not a quote is doing so in its arguments. -/
theorem Named.quoteExpand_func {n : NameTable} (h : Named n) {s : String} {args : List Term}
    (hquote : (Term.func s args).func? ≠ some ⟨"quote", 1⟩)
    (hbar : (Term.func s args).func? ≠ some ⟨"|", 2⟩) :
    (Term.func s args).quoteExpand n.num false =
      .func s (Term.quoteExpands n.num false args) := by
  have hnum : n.num ⟨s, args.length⟩ ≠ QUOTEVAL := fun hnum =>
    hquote (congrArg some
      (h.eq_of_num (by decide) (by decide) (fun heq => hbar (congrArg some heq)) hnum))
  rw [Term.quoteExpand, if_neg (fun hq => hnum hq.1)]

theorem Named.func?_quoteExpand {n : NameTable} (h : Named n) {t : Term}
    (hquote : t.func? ≠ some ⟨"quote", 1⟩) (hbar : t.func? ≠ some ⟨"|", 2⟩) :
    (t.quoteExpand n.num false).func? = t.func? := by
  cases t with
  | func s args =>
    rw [h.quoteExpand_func hquote hbar, Term.func?, Term.func?, length_quoteExpands]
  | _ => simp [Term.quoteExpand]

theorem Named.first_quoteExpand {n : NameTable} (h : Named n) {t : Term}
    (hrule : t.func? = some ⟨":-", 2⟩) :
    (t.quoteExpand n.num false).first = t.first.quoteExpand n.num false := by
  cases t with
  | func s args =>
    rw [h.quoteExpand_func (by rw [hrule]; decide) (by rw [hrule]; decide)]
    cases args with
    | nil => simp [Term.func?] at hrule
    | cons a args => rfl
  | _ => simp [Term.func?] at hrule

/-- **A clause is stored under the number of the predicate it defines**, with its quotes or
without them. -/
theorem Named.val_head {n : NameTable} (h : Named n) {c : Clause} (hc : ClauseOk n c) {f : Func}
    (hf : c.defines = some f) (quote : Bool) :
    ((if quote then c.term.quoteExpand n.num false else c.term).headOfClause n.num).val n.num =
      n.num f := by
  cases quote with
  | false =>
    apply val_of_func?
    simpa [hf] using h.func?_headOfClause hc.top.2
  | true =>
    apply val_of_func?
    have htop := h.func?_quoteExpand hc.top.1 hc.top.2
    have hbar : (c.term.quoteExpand n.num false).func? ≠ some ⟨"|", 2⟩ := by
      rw [htop]
      exact hc.top.2
    simp only [if_true]
    unfold Term.headOfClause
    by_cases hrule : c.term.func? = some ⟨":-", 2⟩
    · have hdef : c.term.first.func? = some f := by
        rw [← hf, Clause.defines, if_pos hrule]
      rw [if_pos ((h.hasVal_rule hbar).mpr (by rw [htop, hrule])),
        h.first_quoteExpand hrule, h.func?_quoteExpand, hdef]
      · rw [hdef, ← hf]
        exact hc.head.1
      · rw [hdef, ← hf]
        exact hc.head.2
    · rw [if_neg (fun hv => hrule (htop ▸ (h.hasVal_rule hbar).mp hv)), htop, ← hf,
        Clause.defines, if_neg hrule]

/-- The number of the whole term is the predicate's number or that of `:-`. -/
theorem Named.val_term {n : NameTable} (h : Named n) {c : Clause} {f : Func}
    (hf : c.defines = some f) :
    c.term.val n.num = n.num f ∨ c.term.val n.num = RULEIFVAL := by
  by_cases hrule : c.term.func? = some ⟨":-", 2⟩
  · exact .inr (by rw [val_of_func? hrule, h.num_rule])
  · rw [Clause.defines, if_neg hrule] at hf
    exact .inl (val_of_func? hf)

/-- What a clause defines has been looked up. -/
theorem val_defines {n : NameTable} {c : Clause} {f : Func} (hf : c.defines = some f) :
    (readAll c.reads n).val f ≠ none := by
  unfold Clause.defines at hf
  split at hf
  · exact val_readAll_of_mem (c.looked f (Term.mem_funcs_of_first hf)) n
  · exact val_readAll_of_mem (c.looked f (Term.mem_funcs_of_func? hf)) n

/-! ## Reading -/

/-- An operation that leaves the clauses of every number alone. -/
structure Quiet (s s' : Compiler) : Prop where
  shaped : s'.Shaped
  clauses : ∀ n, s'.clauses n = s.clauses n
  counted : (∀ v node, s.view v = some node → node.Counted) →
    ∀ v node, s'.view v = some node → node.Counted
  keep : ∀ n, s.LiveAt n → s'.LiveAt n
  names : s'.names = s.names

theorem Quiet.refl {s : Compiler} (h : s.Shaped) : Quiet s s :=
  ⟨h, fun _ => rfl, fun h => h, fun _ h => h, rfl⟩

/-- Setting a flag of a node is quiet. -/
theorem assign_quiet {s : Compiler} (hs : s.Shaped) {v : Nat} (hv : s.LiveAt v)
    (hlt : v < HASH_TAB_NUM) {g : HashClauseNode → HashClauseNode}
    (hname : ∀ d, (g d).name = d.name) (hcomp : ∀ d, (g d).compiled = d.compiled)
    (hclauses : ∀ d, (g d).firstClause = d.firstClause)
    (hn : ∀ d, (g d).nClauses = d.nClauses) : Quiet s (s.assign v g) := by
  have h := assign_after hs hv hlt hname hcomp
  refine ⟨h.shaped, fun n => ?_, fun hcount n node hnode => ?_, h.keep, h.names⟩
  · unfold clauses
    rw [h.view]
    by_cases hnv : n = v
    · rw [if_pos hnv, hnv]
      cases s.view v with
      | none => simp [hclauses, HashClauseNode.new]
      | some d => simp [hclauses]
    · rw [if_neg hnv]
  · rw [h.view] at hnode
    by_cases hnv : n = v
    · rw [if_pos hnv, Option.some.injEq] at hnode
      rw [← hnode, HashClauseNode.Counted, hclauses, hn]
      cases hview : s.view v with
      | none => rfl
      | some d => exact hcount v d hview
    · rw [if_neg hnv] at hnode
      exact hcount n node hnode

/-- The clauses of a module that belong to a number. -/
def numbered (n : NameTable) (m : List Clause) (v : Nat) : List Term :=
  (m.filter fun c => c.defines.bind n.val = some v).map (·.term)

/-- What is known of a clause that has been stored. -/
structure Stored (n : NameTable) (c : Clause) : Prop where
  known : ∃ f v, c.defines = some f ∧ n.val f = some v
  top : c.term.func? ≠ some ⟨"|", 2⟩
  head : c.defines ≠ some ⟨"|", 2⟩
  inside : ∀ f ∈ c.term.funcs, ∃ v, n.val f = some v ∧ (f.argunum ≠ 0 → v < HASH_TAB_NUM)

theorem Stored.readAll {n : NameTable} {c : Clause} (h : Stored n c) (ls : List Lookup) :
    Stored (readAll ls n) c := by
  obtain ⟨f, v, hf, hv⟩ := h.known
  refine ⟨⟨f, v, hf, val_readAll hv ls⟩, h.top, h.head, fun g hg => ?_⟩
  obtain ⟨a, ha, hlt⟩ := h.inside g hg
  exact ⟨a, val_readAll ha ls, hlt⟩

theorem numbered_readAll {n : NameTable} {m : List Clause} (h : ∀ c ∈ m, Stored n c)
    (ls : List Lookup) (v : Nat) : numbered (readAll ls n) m v = numbered n m v := by
  refine congrArg (List.map _) (List.filter_congr fun c hc => ?_)
  obtain ⟨f, a, hf, ha⟩ := (h c hc).known
  simp [hf, ha, val_readAll ha ls]

/-- **The clauses read so far** are linked, in order, to the nodes of their numbers. -/
structure Gathered (m : List Clause) (s : Compiler) : Prop where
  shaped : s.Shaped
  named : Named s.names
  counted : ∀ v node, s.view v = some node → node.Counted
  live : m ≠ [] → s.Live
  stored : ∀ c ∈ m, Stored s.names c
  chains : ∀ v, (s.clauses v).map (·.t) = numbered s.names m v

/-- **Reading one more clause**, which is stored right if the cache is right about its number. -/
theorem Gathered.addClause {m : List Clause} {s : Compiler} (h : Gathered m s) {c : Clause}
    (hc : ClauseOk (readAll c.reads s.names) c) {f : Func} (hf : c.defines = some f)
    (hstart : m = [] → (s.getimagoterm c).LiveAt ((s.getimagoterm c).num f)) (cut quote : Bool) :
    Gathered (m ++ [c]) ((s.getimagoterm c).addClause c.term cut quote) ∧
      ((s.getimagoterm c).addClause c.term cut quote).names = readAll c.reads s.names := by
  have hnamed := h.named.readAll c.reads
  obtain ⟨v, hval⟩ := Option.ne_none_iff_exists'.mp (val_defines hf (n := s.names))
  have hnum : (s.getimagoterm c).num f = v := num_eq_of_val hval
  have hlt : v < HASH_TAB_NUM := hnum ▸ hc.small f hf
  have hshaped : (s.getimagoterm c).Shaped :=
    ⟨h.shaped.single, h.shaped.place, h.shaped.used, h.shaped.uncompiled, h.shaped.small⟩
  have hlive : (s.getimagoterm c).LiveAt v := by
    by_cases hm : m = []
    · exact hnum ▸ hstart hm
    · exact h.live hm v
  -- the clause is stored under `v`
  have hstore := hnamed.val_head hc hf quote
  have hcutval := hnamed.val_head hc hf false
  have htop := hnamed.val_term hf
  rw [num_eq_of_val hval] at hstore hcutval htop
  unfold Compiler.addClause
  generalize hs2 : (if cut = true then (s.getimagoterm c).assignImagoCut
    ((c.term.headOfClause (s.getimagoterm c).num).val (s.getimagoterm c).num)
    else s.getimagoterm c) = s2
  have hquiet : Quiet (s.getimagoterm c) s2 := by
    rw [← hs2]
    split
    · refine assign_quiet hshaped ?_ ?_ (fun _ => rfl) (fun _ => rfl) (fun _ => rfl)
        (fun _ => rfl)
      · exact hcutval ▸ hlive
      · exact hcutval ▸ hlt
    · exact Quiet.refl hshaped
  have hcounted := hquiet.counted h.counted
  obtain ⟨node, hafter, hcnt, hchain, hlive3⟩ := storeClause_after hquiet.shaped
    (hquiet.keep v hlive) hlt (hcounted v) c.term
    (if quote then c.term.quoteExpand (s.getimagoterm c).num false else c.term)
  have hstore' : (((if quote = true then c.term.quoteExpand (s.getimagoterm c).num false
      else c.term).headOfClause (s.getimagoterm c).num).val (s.getimagoterm c).num) = v := hstore
  simp only [hstore']
  -- and the number of the whole term gets its flag
  have hlast : Quiet (s2.storeClause v c.term
      (if quote then c.term.quoteExpand (s.getimagoterm c).num false else c.term))
      ((s2.storeClause v c.term
        (if quote then c.term.quoteExpand (s.getimagoterm c).num false
          else c.term)).assignImagoAdded
          (c.term.val (s.getimagoterm c).num)) := by
    refine assign_quiet hafter.shaped (hlive3 _) ?_ (fun _ => rfl) (fun _ => rfl) (fun _ => rfl)
      (fun _ => rfl)
    rcases htop with htop | htop
    · exact htop ▸ hlt
    · exact Nat.lt_of_le_of_lt (Nat.le_of_eq htop) (by decide)
  have hnames := (hlast.names.trans hafter.names).trans hquiet.names
  refine ⟨⟨hlast.shaped, by rw [hnames]; exact hnamed, hlast.counted fun u d hd => ?_,
    fun _ n => hlast.keep n (hlive3 n), fun d hd => ?_, fun u => ?_⟩, hnames⟩
  · rw [hafter.view] at hd
    split at hd
    · simp only [Option.some.injEq] at hd
      exact hd ▸ hcnt
    · exact hcounted u d hd
  · rw [hnames]
    rcases List.mem_append.mp hd with hd | hd
    · exact (h.stored d hd).readAll c.reads
    · rw [List.mem_singleton] at hd
      subst hd
      refine ⟨⟨f, v, hf, hval⟩, hc.top.2, hc.head.2, fun g hg => ?_⟩
      obtain ⟨a, ha⟩ := Option.ne_none_iff_exists'.mp (val_readAll_of_mem (d.looked g hg) s.names)
      exact ⟨a, ha, fun hne => num_eq_of_val ha ▸ hc.inside g hg hne⟩
  · have hold : (s2.clauses u).map (·.t) = numbered (readAll c.reads s.names) m u := by
      rw [hquiet.clauses, numbered_readAll h.stored, ← h.chains]
      rfl
    have hnew : numbered (readAll c.reads s.names) (m ++ [c]) u =
        numbered (readAll c.reads s.names) m u ++ if u = v then [c.term] else [] := by
      unfold numbered
      rw [List.filter_append, List.map_append]
      congr 1
      by_cases hu : u = v
      · simp [hf, hval, hu]
      · simp [hf, hval, hu, Ne.symm hu]
    rw [hlast.clauses, hnames]
    refine Eq.trans ?_ hnew.symm
    rw [← hold]
    unfold clauses
    rw [hafter.view]
    by_cases hu : u = v
    · rw [if_pos hu, if_pos hu, hu]
      exact hchain
    · rw [if_neg hu, if_neg hu, List.append_nil]

/-- **Reading a module that meets the condition** gathers all of its clauses. -/
theorem readsourcefile_gathered {cs m : List Clause} {s : Compiler} (h : Gathered m s)
    (hfits : Fits cs s.names)
    (hstart : ∀ c f, m = [] → cs.head? = some c → c.defines = some f →
      (s.getimagoterm c).LiveAt ((s.getimagoterm c).num f)) :
    Gathered (m ++ cs) (readsourcefile cs s) ∧
      ∀ f a, s.names.val f = some a → (readsourcefile cs s).names.val f = some a := by
  induction cs generalizing m s with
  | nil => exact ⟨by simpa [readsourcefile] using h, fun f a ha => ha⟩
  | cons c cs ih =>
    obtain ⟨hc, hrest⟩ := hfits
    obtain ⟨f, hf⟩ := Option.ne_none_iff_exists'.mp
      ((h.named.readAll c.reads).defines_ne_none hc)
    obtain ⟨⟨cut, quote⟩, hcheck⟩ := Option.isSome_iff_exists.mp hc.accepted
    have hcheck' : c.term.checkClause (s.getimagoterm c).num = some (cut, quote) := hcheck
    obtain ⟨hadd, hnames⟩ := h.addClause hc hf (fun hm => hstart c f hm rfl hf) cut quote
    rw [readsourcefile, hcheck', List.append_cons]
    obtain ⟨hall, hkeep⟩ := ih hadd (by rw [hnames]; exact hrest) fun d g hm _ _ => by simp at hm
    exact ⟨hall, fun f a ha => hkeep f a (by rw [hnames]; exact val_readAll ha c.reads)⟩
/-! ## Writing -/

/-- The cached node is in the table, or has been taken out of it with its clauses. -/
def Cached (s : Compiler) : Prop :=
  ∀ n, s.lastName = some n → s.hashImagoTable (n + 1) = [s.lastImagoNode] ∨
    s.hashImagoTable (n + 1) = [] ∧ (s.nodes s.lastImagoNode).firstClause ≠ []

/-- A node that has been taken out is not met any more from the number `i` on. -/
def SparedFrom (i : Nat) (s : Compiler) : Prop :=
  ∀ n, s.lastName = some n → s.hashImagoTable (n + 1) = [] →
    n < i ∨ i ≤ RULEIFVAL ∧ RULEIFVAL < n ∧ s.hashImagoTable (RULEIFVAL + 1) ≠ []

/-- The functors with arguments of the clauses in the table have numbers below its size. -/
def Inside (s : Compiler) : Prop :=
  ∀ v, ∀ r ∈ s.clauses v, ∀ f ∈ r.t.funcs, f.argunum ≠ 0 → s.num f < HASH_TAB_NUM

/-- The procedure of a number, if it has clauses. -/
def entry (s : Compiler) (n : Nat) : Option Procedure :=
  (s.view n).bind fun node =>
    node.firstClause.head?.map fun c =>
      ⟨(c.t.headOfClause s.num).func?, node.nClauses, node.firstClause.map (·.t)⟩

/-- What a round of the loop leaves: the nodes of the numbers `i ≤ n < j` that have clauses are
taken out of the table. -/
structure Written (i j : Nat) (s s' : Compiler) : Prop where
  shaped : s'.Shaped
  cached : Cached s'
  view : ∀ n, s'.view n = if i ≤ n ∧ n < j ∧ s.clauses n ≠ [] then none else s.view n
  names : s'.names = s.names

theorem entry_eq_none {s : Compiler} {n : Nat} (h : s.clauses n = []) : entry s n = none := by
  unfold clauses at h
  unfold entry
  cases hv : s.view n with
  | none => rfl
  | some node =>
    rw [hv, Option.elim_some] at h
    simp [h]

/-- Looking for a number without a node changes nothing. -/
theorem find_of_view_none {s : Compiler} (hs : s.Shaped) {v : Nat}
    (hnone : s.view v = none) : (s.findHashClauseNode v).2 = s := by
  have htable := view_eq_none.mp hnone
  unfold findHashClauseNode
  split
  · rfl
  · rw [hs.walk_eq, htable]
    rfl

/-- A round for a number without clauses leaves the table alone. -/
theorem Written.of_empty {i : Nat} {s s' : Compiler} (hs : s'.Shaped) (hc : Cached s')
    (hview : ∀ n, s'.view n = s.view n) (hnames : s'.names = s.names)
    (hempty : s.clauses i = []) : Written i (i + 1) s s' := by
  refine ⟨hs, hc, fun n => ?_, hnames⟩
  split
  · rename_i hn
    exact absurd ((Nat.le_antisymm (Nat.le_of_lt_succ hn.2.1) hn.1) ▸ hempty) hn.2.2
  · exact hview n

theorem Live.cached {s : Compiler} (h : s.Live) : Cached s := fun n hn => .inl (h n hn)

theorem Live.sparedFrom {s : Compiler} (h : s.Live) (i : Nat) : SparedFrom i s := by
  intro n hn hnil
  rw [h n hn] at hnil
  cases hnil

/-- Going on to the next number, when this one has no node. -/
theorem SparedFrom.succ {i : Nat} {s : Compiler} (h : SparedFrom i s) (hnone : s.view i = none) :
    SparedFrom (i + 1) s := by
  intro n hn hnil
  have htable := view_eq_none.mp hnone
  rcases h n hn hnil with hlt | ⟨hi, hlt, hrule⟩
  · exact .inl (by omega)
  · have hne : i ≠ RULEIFVAL := by
      intro heq
      exact hrule (heq ▸ htable)
    exact .inr ⟨by omega, hlt, hrule⟩

/-- The node of a number is the head of its bucket. -/
theorem tableHead_of_view {s : Compiler} (hs : s.Shaped) {n : Nat} {node : HashClauseNode}
    (h : s.view n = some node) :
    ∃ hp, s.tableHead (n + 1) = some hp ∧ s.nodes hp = node ∧ s.hashImagoTable (n + 1) = [hp] := by
  rcases hs.single (n + 1) with hb | ⟨hp, hb⟩
  · rw [view_eq_none.mpr hb] at h
    cases h
  · rw [view, hb, List.head?_cons, Option.map_some, Option.some.injEq] at h
    have hle := (hs.place (n + 1) hp (by simp [hb])).2
    exact ⟨hp, by rw [tableHead, if_pos hle, hb, List.head?_cons], h, hb⟩

/-- **Clearing the bucket of a number with clauses**: the cache may now hold the node that has
been taken out. -/
theorem clear_spec {s : Compiler} (hs : s.Shaped) (hlive : s.Live) {i : Nat}
    (hne : s.clauses i ≠ []) :
    Written i (i + 1) s
        { s with hashImagoTable := Function.update s.hashImagoTable (i + 1) [] } ∧
      SparedFrom (i + 1)
        { s with hashImagoTable := Function.update s.hashImagoTable (i + 1) [] } := by
  have hmem : ∀ {j hp}, hp ∈ Function.update s.hashImagoTable (i + 1) [] j →
      hp ∈ s.hashImagoTable j := by
    intro j hp hmem
    by_cases hj : j = i + 1
    · simp [hj] at hmem
    · simpa [Function.update_of_ne hj] using hmem
  refine ⟨⟨⟨fun j => ?_, fun j hp h => hs.place j hp (hmem h), fun j hp h => hs.used j hp (hmem h),
    hs.uncompiled, hs.small⟩, fun n hn => ?_, fun n => ?_, rfl⟩, fun n hn hnil => ?_⟩
  · by_cases hj : j = i + 1
    · exact .inl (by simp [hj])
    · simpa [Function.update_of_ne hj] using hs.single j
  · have hb := hlive n hn
    by_cases hni : n = i
    · refine .inr ⟨by simp [hni], ?_⟩
      rw [hni] at hb
      simpa [clauses, view, hb] using hne
    · have hj : n + 1 ≠ i + 1 := by omega
      exact .inl (by simpa [Function.update_of_ne hj] using hb)
  · by_cases hni : n = i
    · subst hni
      rw [if_pos ⟨Nat.le_refl n, Nat.lt_succ_self n, hne⟩]
      simp [view]
    · have hj : n + 1 ≠ i + 1 := by omega
      rw [if_neg (fun h => hni (by omega))]
      simp only [view, Function.update_of_ne hj]
  · by_cases hni : n = i
    · exact .inl (by omega)
    · have hj : n + 1 ≠ i + 1 := by omega
      have hb := hlive n hn
      simp only [Function.update_of_ne hj] at hnil
      rw [hb] at hnil
      cases hnil

/-- **One round of the loop** writes the procedure of the number, if it has one, and takes its
node out of the table. Meeting a cached node that is not in the table any more is harmless
without `-p`. -/
theorem compileProc_spec (optim : Bool) {i : Nat} {s : Compiler} (hs : s.Shaped)
    (hc : Cached s) (hin : Inside s) (hspared : optim = true → SparedFrom i s) :
    ∃ s', compileProc optim i s = some ((entry s i).toList, s') ∧ Written i (i + 1) s s' ∧
      (optim = true → SparedFrom (i + 1) s') := by
  by_cases hlive : s.LiveAt i
  · obtain ⟨hr, h1⟩ := imagoFirstClause_after hs hlive
    have hview1 : ∀ n, (s.imagoFirstClause i).2.view n = s.view n := by
      intro n
      rw [h1.view]
      split
      · rename_i hn
        rw [hn]
      · rfl
    by_cases hempty : s.clauses i = []
    · have heq : compileProc optim i s = some ([], (s.imagoFirstClause i).2) := by
        rw [compileProc, hr, hempty]
        rfl
      rw [heq, entry_eq_none hempty]
      refine ⟨_, rfl, ?_⟩
      cases hview : s.view i with
      | none =>
        have hsame : (s.imagoFirstClause i).2 = s := find_of_view_none hs hview
        rw [hsame]
        exact ⟨.of_empty hs hc (fun _ => rfl) rfl hempty, fun ho => (hspared ho).succ hview⟩
      | some node =>
        have hl := h1.live (by rw [hview]; simp)
        exact ⟨.of_empty h1.shaped (Live.cached hl) hview1 h1.names hempty,
          fun _ => Live.sparedFrom hl _⟩
    · obtain ⟨node, hview, hchain⟩ : ∃ node, s.view i = some node ∧ node.firstClause ≠ [] := by
        cases hview : s.view i with
        | none => exact absurd (by rw [clauses, hview]; rfl) hempty
        | some node => exact ⟨node, rfl, by simpa [clauses, hview] using hempty⟩
      have hl1 := h1.live (by rw [hview]; simp)
      obtain ⟨hcompiled, h2⟩ := imagoCompiled_after h1.shaped (hl1 i)
      have hl2 : ((s.imagoFirstClause i).2.imagoCompiled i).2.Live := fun n => h2.keep n (hl1 n)
      have hview2 : ((s.imagoFirstClause i).2.imagoCompiled i).2.view i = some node :=
        h2.view_self.trans (h1.view_self.trans hview)
      have hnames : ((s.imagoFirstClause i).2.imagoCompiled i).2.names = s.names :=
        h2.names.trans h1.names
      have hviews : ∀ n, ((s.imagoFirstClause i).2.imagoCompiled i).2.view n = s.view n := by
        intro n
        rw [h2.view]
        split
        · rename_i hn
          rw [hview1, hn]
        · exact hview1 n
      obtain ⟨hp, hhead, hnode, -⟩ := tableHead_of_view h2.shaped hview2
      have hclauses2 : ∀ n, ((s.imagoFirstClause i).2.imagoCompiled i).2.clauses n = s.clauses n :=
        fun n => clauses_congr (hviews n)
      obtain ⟨hw, hsp⟩ := clear_spec h2.shaped hl2 (i := i) (by rw [hclauses2]; exact hempty)
      refine ⟨_, ?_, ⟨hw.shaped, hw.cached, fun n => ?_, hw.names.trans hnames⟩, fun _ => hsp⟩
      · obtain ⟨c, cs, hcs⟩ := List.exists_cons_of_ne_nil hchain
        have hnum : ((s.imagoFirstClause i).2.imagoCompiled i).2.num = s.num := by
          funext f
          rw [Compiler.num, hnames, Compiler.num]
        have hinside : ∀ r ∈ c :: cs, ∀ f ∈ r.t.funcs, f.argunum ≠ 0 → s.num f < HASH_TAB_NUM := by
          intro r hr f hf hne
          exact hin i r (by rw [clauses, hview, Option.elim_some, hcs]; exact hr) f hf hne
        have hgen : mlvmcodegenimago optim
            (((s.imagoFirstClause i).2.imagoCompiled i).2.tableHead (i + 1))
            ((s.imagoFirstClause i).2.imagoCompiled i).2 = some (entry s i).toList := by
          simp only [hhead, mlvmcodegenimago, hnode, entry, hview, Option.bind_some, hcs, hnum]
          rw [if_pos hinside]
          rfl
        simp only [compileProc, hr, hcompiled, hgen, List.isEmpty_iff, hempty, Option.map_some]
        rfl
      · refine (hw.view n).trans ?_
        rw [hclauses2, hviews]
  · -- the cached node is the one of an earlier module
    obtain ⟨hlast, hb⟩ := Classical.not_imp.mp hlive
    obtain ⟨hnil, hne⟩ := (hc i hlast).resolve_left hb
    have hview : s.view i = none := view_eq_none.mpr hnil
    have hfind : s.findHashClauseNode i = (some s.lastImagoNode, s) := if_pos hlast
    have hopt : optim = false := by
      by_contra ho
      rcases hspared (by simpa using ho) i hlast hnil with h | h <;> omega
    have hhead : s.tableHead (i + 1) = none := by
      rw [tableHead, hnil]
      split <;> rfl
    have hsame : { s with hashImagoTable := Function.update s.hashImagoTable (i + 1) [] } = s := by
      rw [← hnil, Function.update_eq_self]
    refine ⟨s, ?_, .of_empty hs hc (fun _ => rfl) rfl (by rw [clauses, hview]; rfl),
      fun ho => by simp [hopt] at ho⟩
    rw [entry, hview, Option.bind_none, Option.toList_none]
    simp only [compileProc, imagoFirstClause, imagoCompiled, Compiler.get, hfind, Option.elim_some,
      List.isEmpty_iff, hne, hs.uncompiled, hhead, mlvmcodegenimago, hopt, hsame]
    rfl
theorem entry_congr {s s' : Compiler} {n : Nat} (hview : s'.view n = s.view n)
    (hnames : s'.names = s.names) : entry s' n = entry s n := by
  have hnum : s'.num = s.num := by
    funext f
    rw [Compiler.num, hnames, Compiler.num]
  rw [entry, hview, hnum, entry]

theorem Written.trans {i j k : Nat} {s s1 s2 : Compiler} (h1 : Written i j s s1)
    (h2 : Written j k s1 s2) (hij : i ≤ j) (hjk : j ≤ k) : Written i k s s2 := by
  refine ⟨h2.shaped, h2.cached, fun n => ?_, h2.names.trans h1.names⟩
  have hv1 := h1.view n
  rw [h2.view]
  by_cases hn : i ≤ n ∧ n < j ∧ s.clauses n ≠ []
  · rw [if_pos hn] at hv1
    rw [if_pos (⟨hn.1, by omega, hn.2.2⟩ : i ≤ n ∧ n < k ∧ s.clauses n ≠ []), hv1]
    split <;> rfl
  · rw [if_neg hn] at hv1
    rw [clauses_congr hv1, hv1]
    by_cases hc : s.clauses n = []
    · simp [hc]
    · have hiff : (j ≤ n ∧ n < k ∧ s.clauses n ≠ []) ↔ (i ≤ n ∧ n < k ∧ s.clauses n ≠ []) := by
        refine ⟨fun h => ⟨by omega, h.2⟩, fun h => ⟨?_, h.2⟩⟩
        by_contra hlt
        exact hn ⟨h.1, by omega, hc⟩
      simp only [hiff]

theorem Written.inside {i j : Nat} {s s' : Compiler} (h : Written i j s s') (hin : Inside s) :
    Inside s' := by
  intro v r hr
  have hnum : s'.num = s.num := by
    funext f
    rw [Compiler.num, h.names, Compiler.num]
  have hview := h.view v
  split at hview
  · rw [clauses, hview, Option.elim_none] at hr
    cases hr
  · rw [clauses_congr hview] at hr
    rw [hnum]
    exact hin v r hr

/-- **The loop writes the procedures in the order of their numbers**, each once. -/
theorem compileFrom_spec (optim : Bool) (count : Nat) {i : Nat} {s : Compiler} (hs : s.Shaped)
    (hc : Cached s) (hin : Inside s) (hspared : optim = true → SparedFrom i s) :
    ∃ s', compileFrom optim count i s = some ((List.range' i count).filterMap (entry s), s') ∧
      Written i (i + count) s s' := by
  induction count generalizing i s with
  | zero =>
    refine ⟨s, rfl, hs, hc, fun n => ?_, rfl⟩
    rw [if_neg (fun h => by omega)]
  | succ count ih =>
    obtain ⟨s1, hproc, hw, hsp⟩ := compileProc_spec optim hs hc hin hspared
    obtain ⟨s2, hrest, hw'⟩ := ih hw.shaped hw.cached (hw.inside hin) hsp
    refine ⟨s2, ?_, by
      have := hw.trans hw' (by omega) (by omega)
      rwa [show i + 1 + count = i + (count + 1) by omega] at this⟩
    have hentry : (List.range' (i + 1) count).filterMap (entry s1) =
        (List.range' (i + 1) count).filterMap (entry s) := by
      refine List.filterMap_congr fun n hn => entry_congr ?_ hw.names
      rw [hw.view, if_neg]
      intro h
      have := (List.mem_range'_1.mp hn).1
      omega
    rw [compileFrom, hproc, Option.bind_some, hrest, Option.map_some, hentry, List.range'_succ,
      List.filterMap_cons]
    cases entry s i with
    | none => rfl
    | some p => rfl

/-! ## One module -/

/-- Among stored clauses, having a number and defining the functor with that number are one. -/
theorem numbered_eq_clausesFor {n : NameTable} (h : Named n) {m : List Clause}
    (hm : ∀ c ∈ m, Stored n c) {f : Func} {v : Nat} (hf : n.val f = some v)
    (hbar : f ≠ ⟨"|", 2⟩) : numbered n m v = clausesFor m (some f) := by
  refine congrArg (List.map _) (List.filter_congr fun c hc => ?_)
  obtain ⟨g, a, hg, ha⟩ := (hm c hc).known
  have hgbar : g ≠ ⟨"|", 2⟩ := fun heq => (hm c hc).head (by rw [hg, heq])
  have hiff : a = v ↔ g = f := by
    refine ⟨fun hav => ?_, fun hgf => ?_⟩
    · subst hav
      rcases h.numbered.inj g f a ha hf with heq | ⟨hg', hf'⟩
      · exact heq
      · rw [hg'.resolve_left hgbar, hf'.resolve_left hbar]
    · rw [hgf, hf, Option.some.injEq] at ha
      exact ha.symm
  simp [hg, ha, hiff]

/-- **What is written under a number** when a module has been read: the clauses of the predicate
that has the number. -/
theorem Gathered.entry_eq {m : List Clause} {s : Compiler} (h : Gathered m s) {v : Nat}
    {p : Procedure} (hp : entry s v = some p) :
    ∃ f, s.names.val f = some v ∧ f ≠ ⟨"|", 2⟩ ∧ p.proc = some f ∧
      p.clauses = clausesFor m (some f) ∧ p.clauses ≠ [] ∧ p.nClauses = p.clauses.length := by
  obtain ⟨node, hview, hp⟩ := Option.bind_eq_some_iff.mp hp
  obtain ⟨c, hc, rfl⟩ := Option.map_eq_some_iff.mp hp
  obtain ⟨cs, hcs⟩ := List.head?_eq_some_iff.mp hc
  have hchain := h.chains v
  have hclauses : s.clauses v = node.firstClause := by rw [clauses, hview, Option.elim_some]
  rw [hclauses] at hchain
  -- the first clause of the chain is a clause of the module with this number
  have hmem : c.t ∈ numbered s.names m v := by
    rw [← hchain, hcs]
    simp
  obtain ⟨d, hd, hdc⟩ := List.mem_map.mp hmem
  rw [List.mem_filter, decide_eq_true_eq] at hd
  obtain ⟨f, a, hf, ha⟩ := (h.stored d hd.1).known
  have hfv : s.names.val f = some v := by simpa [hf] using hd.2
  have hbar : f ≠ ⟨"|", 2⟩ := fun heq => (h.stored d hd.1).head (by rw [hf, heq])
  refine ⟨f, hfv, hbar, ?_, ?_, ?_, ?_⟩
  · rw [← hf, ← hdc]
    exact h.named.func?_headOfClause (h.stored d hd.1).top
  · rw [← numbered_eq_clausesFor h.named h.stored hfv hbar]
    exact hchain
  · simp [hcs]
  · rw [List.length_map]
    exact h.counted v node hview

theorem Gathered.inside {m : List Clause} {s : Compiler} (h : Gathered m s) : Inside s := by
  intro v r hr f hf hne
  have hmem : r.t ∈ numbered s.names m v := by
    rw [← h.chains]
    exact List.mem_map_of_mem hr
  obtain ⟨c, hc, heq⟩ := List.mem_map.mp hmem
  obtain ⟨a, ha, hlt⟩ := (h.stored c (List.mem_filter.mp hc).1).inside f (by rw [heq]; exact hf)
  rw [Compiler.num, num_eq_of_val ha]
  exact hlt hne

/-- A number with clauses has an entry. -/
theorem entry_ne_none {s : Compiler} {v : Nat} (h : s.clauses v ≠ []) : entry s v ≠ none := by
  unfold clauses at h
  unfold entry
  cases hview : s.view v with
  | none => simp [hview] at h
  | some node =>
    rw [hview, Option.elim_some] at h
    obtain ⟨c, cs, hcs⟩ := List.exists_cons_of_ne_nil h
    simp [hcs]

/-- The state between two modules: no clauses are left in the table. -/
structure Between (s : Compiler) : Prop where
  shaped : s.Shaped
  cached : Cached s
  named : Named s.names
  counted : ∀ v node, s.view v = some node → node.Counted
  empty : ∀ v, s.clauses v = []

theorem Between.gathered {s : Compiler} (h : Between s) : Gathered [] s :=
  ⟨h.shaped, h.named, h.counted, fun hne => absurd rfl hne, by simp,
    fun v => by rw [h.empty]; rfl⟩

/-- If no clause can be found for a number then the cache is right about it. -/
theorem Between.liveAt {s : Compiler} (h : Between s) {c : Clause} {v : Nat}
    (hv : ((s.getimagoterm c).imagoFirstClause v).1 = []) : (s.getimagoterm c).LiveAt v := by
  intro hlast
  refine (h.cached v hlast).resolve_right fun ⟨_, hne⟩ => hne ?_
  have hfind : (s.getimagoterm c).findHashClauseNode v =
      (some s.lastImagoNode, s.getimagoterm c) := if_pos hlast
  rw [imagoFirstClause, Compiler.get, hfind] at hv
  exact hv

theorem Between.sparedFrom {s : Compiler} (h : Between s) (hsp : s.Spared) :
    SparedFrom 1 s := by
  intro n hn hnil
  rcases h.cached n hn with hb | ⟨_, hne⟩
  · rw [hb] at hnil
    cases hnil
  · obtain ⟨hlt, hrule⟩ := (hsp n hn).resolve_left hne
    exact .inr ⟨by decide, hlt, hrule⟩

/-- **One module**: the listing is complete, and the table is left without clauses. -/
theorem consult_spec {optim : Bool} {m : List Clause} {s : Compiler} (h : Between s)
    (hok : ModuleOk optim m s) :
    ∃ procs s', consult optim m s = some (procs, s') ∧ Complete m procs ∧ Between s' ∧
      ∀ f a, s.names.val f = some a → s'.names.val f = some a := by
  obtain ⟨hg, hkeep⟩ := readsourcefile_gathered h.gathered hok.fits fun c f _ hc hf =>
    h.liveAt (hok.start c f hc hf)
  rw [List.nil_append] at hg
  obtain ⟨hcached, hspared⟩ : Cached (readsourcefile m s) ∧
      (optim = true → SparedFrom 1 (readsourcefile m s)) := by
    by_cases hm : m = []
    · subst hm
      exact ⟨h.cached, fun ho => h.sparedFrom (hok.nonempty ho rfl)⟩
    · exact ⟨Live.cached (hg.live hm), fun _ => Live.sparedFrom (hg.live hm) 1⟩
  obtain ⟨s', hcompile, hw⟩ := compileFrom_spec optim (readsourcefile m s).names.curFuncId
    hg.shaped hcached hg.inside hspared
  have hrange : ∀ f v, (readsourcefile m s).names.val f = some v →
      v ∈ List.range' 1 (readsourcefile m s).names.curFuncId := by
    intro f v hf
    have hpos := hg.named.numbered.pos f v hf
    have hlt := hg.named.numbered.lt f v hf
    exact List.mem_range'_1.mpr (by omega)
  refine ⟨_, s', hcompile, ⟨?_, fun c hc => ?_, fun p hp => ?_⟩,
    ⟨hw.shaped, hw.cached, by rw [hw.names]; exact hg.named, fun v d hd => ?_, fun v => ?_⟩,
    fun f a ha => by rw [hw.names]; exact hkeep f a ha⟩
  · rw [List.map_filterMap]
    refine (List.nodup_range').filterMap fun v u q hv hu => ?_
    obtain ⟨p, hp, rfl⟩ := Option.map_eq_some_iff.mp hv
    obtain ⟨p', hp', heq⟩ := Option.map_eq_some_iff.mp hu
    obtain ⟨f, hf, -, hpf, -⟩ := hg.entry_eq hp
    obtain ⟨g, hgv, -, hpg, -⟩ := hg.entry_eq hp'
    rw [hpf, hpg, Option.some.injEq] at heq
    rw [heq, hf, Option.some.injEq] at hgv
    exact hgv
  · obtain ⟨f, v, hf, hv⟩ := (hg.stored c hc).known
    have hbar : f ≠ ⟨"|", 2⟩ := fun heq => (hg.stored c hc).head (by rw [hf, heq])
    have hne : (readsourcefile m s).clauses v ≠ [] := by
      intro hnil
      have hchain := hg.chains v
      rw [hnil, List.map_nil] at hchain
      have hmem : c.term ∈ numbered (readsourcefile m s).names m v :=
        List.mem_map_of_mem (List.mem_filter.mpr ⟨hc, by simp [hf, hv]⟩)
      rw [← hchain] at hmem
      cases hmem
    obtain ⟨p, hp⟩ := Option.ne_none_iff_exists'.mp (entry_ne_none hne)
    obtain ⟨g, hgv, hgbar, hpg, -⟩ := hg.entry_eq hp
    have hfg : f = g := by
      rcases hg.named.numbered.inj f g v hv hgv with heq | ⟨hf', hg'⟩
      · exact heq
      · rw [hf'.resolve_left hbar, hg'.resolve_left hgbar]
    refine List.mem_map.mpr ⟨p, List.mem_filterMap.mpr ⟨v, hrange f v hv, hp⟩, ?_⟩
    rw [hpg, hf, hfg]
  · obtain ⟨v, -, hv⟩ := List.mem_filterMap.mp hp
    obtain ⟨f, -, -, hpf, hcl, hne, hlen⟩ := hg.entry_eq hv
    exact ⟨by rw [hpf, hcl], hne, hlen⟩
  · rw [hw.view] at hd
    split at hd
    · cases hd
    · exact hg.counted v d hd
  · by_cases hne : (readsourcefile m s).clauses v = []
    · have hview := hw.view v
      rw [if_neg (fun h => h.2.2 hne)] at hview
      rw [clauses_congr hview, hne]
    · obtain ⟨p, hp⟩ := Option.ne_none_iff_exists'.mp (entry_ne_none hne)
      obtain ⟨f, hf, -⟩ := hg.entry_eq hp
      have hmem := List.mem_range'_1.mp (hrange f v hf)
      have hview := hw.view v
      rw [if_pos ⟨hmem.1, hmem.2, hne⟩] at hview
      rw [clauses, hview, Option.elim_none]

/-! ## Runs -/

theorem init_between {n : NameTable} (h : Named n) : Between (Compiler.init n) :=
  ⟨⟨fun _ => .inl rfl, by simp [Compiler.init], by simp [Compiler.init], fun _ => rfl,
    by simp [Compiler.init]⟩, by simp [Cached, Compiler.init], h,
    by simp [view, Compiler.init], fun _ => rfl⟩

/-- **All modules of a run** that meet the condition. -/
theorem consultAll_spec {optim : Bool} {ms : List (List Clause)} {s : Compiler} (h : Between s)
    (hok : RunOk optim ms s) :
    ∃ ls s', consultAll optim ms s = some (ls, s') ∧ List.Forall₂ Complete ms ls ∧ Between s' ∧
      ∀ ms₁ ms₂ ls₁ s₁, ms = ms₁ ++ ms₂ → consultAll optim ms₁ s = some (ls₁, s₁) →
        ∀ f a, s₁.names.val f = some a → s'.names.val f = some a := by
  induction ms generalizing s with
  | nil =>
    refine ⟨[], s, rfl, .nil, h, fun ms₁ ms₂ ls₁ s₁ hms h₁ f a ha => ?_⟩
    obtain ⟨rfl, -⟩ := List.append_eq_nil_iff.mp hms.symm
    simp only [consultAll, Option.some.injEq, Prod.mk.injEq] at h₁
    rw [h₁.2]
    exact ha
  | cons m ms ih =>
    obtain ⟨procs, s1, hm, hcomp, hb, hkeep⟩ := consult_spec h hok.1
    obtain ⟨ls, s2, hms, hall, hb2, hkeep2⟩ := ih hb (hok.2 procs s1 hm)
    refine ⟨procs :: ls, s2, by rw [consultAll, hm, Option.bind_some, hms]; rfl, .cons hcomp hall,
      hb2, fun ms₁ ms₂ ls₁ s₁ heq h₁ f a ha => ?_⟩
    cases ms₁ with
    | nil =>
      simp only [consultAll, Option.some.injEq, Prod.mk.injEq] at h₁
      rw [← h₁.2] at ha
      exact hkeep2 [] ms [] s1 rfl rfl f a (hkeep f a ha)
    | cons m' ms₁ =>
      obtain ⟨rfl, htail⟩ := List.cons.inj heq
      rw [consultAll, hm, Option.bind_some] at h₁
      obtain ⟨r, hr, h₁⟩ := Option.map_eq_some_iff.mp h₁
      rw [Prod.mk.injEq] at h₁
      exact hkeep2 ms₁ ms₂ r.1 s₁ htail (by rw [hr, ← h₁.2]) f a ha

/-- **Every predicate of every module is compiled once, complete and in order**, in every run
over modules that meet the condition: each listing is complete for its module, the numbers tell
all functors apart but `|` and `:-` with two arguments, and a number given in an earlier module
is kept in all later ones. -/
theorem compiled_once (optim : Bool) (ms : List (List Clause)) (n : NameTable)
    (hn : initNames = some n) (hok : RunOk optim ms (Compiler.init n)) :
    ∃ ls s', consultAll optim ms (Compiler.init n) = some (ls, s') ∧
      List.Forall₂ Complete ms ls ∧ Numbered s'.names ∧
      ∀ ms₁ ms₂ ls₁ s₁, ms = ms₁ ++ ms₂ →
        consultAll optim ms₁ (Compiler.init n) = some (ls₁, s₁) →
        ∀ f a, s₁.names.val f = some a → s'.names.val f = some a := by
  obtain ⟨hnum, hpos, hdecl⟩ := initNames_numbered hn
  obtain ⟨ls, s', hrun, hall, hb, hkeep⟩ :=
    consultAll_spec (init_between ⟨hnum, hpos, hdecl⟩) hok
  exact ⟨ls, s', hrun, hall, hb.named.numbered, hkeep⟩

/-- A fact with a name and no arguments. -/
def atomFact (sym : String) : Clause where
  reads := [.name sym, .func ⟨sym, 0⟩]
  term := .func sym []
  looked := by
    intro f hf
    simp only [Term.funcs, Term.funcsAll, List.length_nil, List.mem_singleton] at hf
    simp [hf]

theorem defines_atomFact (sym : String) : (atomFact sym).defines = some ⟨sym, 0⟩ := by
  rw [Clause.defines, if_neg (by simp [atomFact, Term.func?])]
  rfl

theorem clauseOk_atomFact {n : NameTable} {sym : String}
    (hsmall : n.num ⟨sym, 0⟩ < HASH_TAB_NUM) : ClauseOk n (atomFact sym) := by
  have hpred : ∀ c q, (Term.checkPred n.num c q (.func sym [])).isSome := by
    intro c q
    simp only [Term.checkPred]
    split
    · rfl
    · split <;> rfl
  refine ⟨?_, ?_, ?_, fun f hf => ?_, fun f hf hne => ?_⟩
  · unfold Term.checkClause
    split
    · obtain ⟨found, hfound⟩ := Option.isSome_iff_exists.mp (hpred false false)
      simpa [atomFact, Term.first, Term.second, Term.checkBody, hfound] using hpred false found.2
    · exact hpred false false
  · simp [atomFact, Term.func?]
  · simp [defines_atomFact]
  · rw [defines_atomFact, Option.some.injEq] at hf
    exact hf ▸ hsmall
  · simp only [atomFact, Term.funcs, Term.funcsAll, List.length_nil, List.mem_singleton] at hf
    exact absurd (by rw [hf]) hne

/-- Two modules that both define `p`, the second one after another predicate. -/
theorem compiled_once_two : ∃ n ls s', initNames = some n ∧
    consultAll false [[atomFact "p"], [atomFact "q", atomFact "p"]] (Compiler.init n) =
      some (ls, s') ∧
    List.Forall₂ Complete [[atomFact "p"], [atomFact "q", atomFact "p"]] ls := by
  obtain ⟨n, hn⟩ := Option.isSome_iff_exists.mp (by decide +kernel : initNames.isSome = true)
  have hchecks : initNames.all (fun n =>
      decide ((readAll (atomFact "p").reads n).num ⟨"p", 0⟩ < HASH_TAB_NUM) &&
      (consult false [atomFact "p"] (Compiler.init n)).all fun r =>
        decide ((readAll (atomFact "q").reads r.2.names).num ⟨"q", 0⟩ < HASH_TAB_NUM) &&
        decide ((readAll (atomFact "p").reads (readAll (atomFact "q").reads r.2.names)).num
          ⟨"p", 0⟩ < HASH_TAB_NUM) &&
        ((r.2.getimagoterm (atomFact "q")).imagoFirstClause
          ((r.2.getimagoterm (atomFact "q")).num ⟨"q", 0⟩)).1.isEmpty) = true := by
    decide +kernel
  rw [hn, Option.all_some, Bool.and_eq_true, decide_eq_true_eq] at hchecks
  have hrun : RunOk false [[atomFact "p"], [atomFact "q", atomFact "p"]] (Compiler.init n) := by
    refine ⟨⟨⟨clauseOk_atomFact hchecks.1, trivial⟩, fun _ _ _ _ => rfl, by simp⟩,
      fun procs s' hs' => ⟨?_, fun _ _ _ => trivial⟩⟩
    have h := hchecks.2
    rw [hs', Option.all_some] at h
    simp only [Bool.and_eq_true, decide_eq_true_eq, List.isEmpty_iff] at h
    refine ⟨⟨clauseOk_atomFact h.1.1, clauseOk_atomFact h.1.2, trivial⟩, fun c f hc hf => ?_,
      by simp⟩
    rw [List.head?_cons, Option.some.injEq] at hc
    subst hc
    rw [defines_atomFact, Option.some.injEq] at hf
    subst hf
    exact h.2
  obtain ⟨ls, s', hall, hcomplete, -⟩ := compiled_once false _ n hn hrun
  exact ⟨n, ls, s', hn, hall, hcomplete⟩

/-- **The same fact in two modules in a row**: the listing of the second module is empty. -/
theorem second_listing_empty : ∃ n l₁ l₂ s', initNames = some n ∧
    consultAll false [[atomFact "p"], [atomFact "p"]] (Compiler.init n) = some ([l₁, l₂], s') ∧
      l₂ = [] ∧ ¬ Complete [atomFact "p"] l₂ := by
  have hrun : (initNames.bind fun n => (consultAll false [[atomFact "p"], [atomFact "p"]]
      (Compiler.init n)).map fun r => r.1.map (·.length)) = some [1, 0] := by
    decide +kernel
  obtain ⟨n, hn, hrun⟩ := Option.bind_eq_some_iff.mp hrun
  obtain ⟨⟨ls, s'⟩, hall, hlens⟩ := Option.map_eq_some_iff.mp hrun
  obtain ⟨l₁, l₂, rfl⟩ : ∃ l₁ l₂, ls = [l₁, l₂] :=
    List.length_eq_two.mp (by simpa using congrArg List.length hlens)
  have hnil : l₂ = [] := by simpa using (List.cons.inj (List.cons.inj hlens).2).1
  refine ⟨n, l₁, l₂, s', hn, hall, hnil, fun hcomplete => ?_⟩
  have hmem := hcomplete.all (atomFact "p") (by simp)
  rw [hnil] at hmem
  cases hmem

end Mlvm.Imagoc
