import Mlvm.Assembler.HashTable
import Mlvm.Engine.Step

/-!
# Hash dispatch

The search of the engine in a hash table that was assembled and loaded.

Writer and searcher probe the same way, so a search for a key finds the label of its **first**
pair, or the label for variables. But the writer files a pair under the whole word of the constant,
and the searcher looks for the name value without its tag; and the searcher compares a tag of two
bits with the three bits of an atom, so that no constant is ever looked up.
-/

namespace Mlvm

open Assembler

variable {code : Int → Int} {pc base : Int} {prime : Nat} {k : Int} {var : Int}
  {pairs : List (Int × Int)}

/-! ## The search of the engine -/

namespace Engine

/-- The engine is executing a hashing instruction. -/
def dispatching (e : Engine) : Prop := e.lbl = .exec ∨ e.lbl = .probe

/-- The steps of one dispatch. -/
inductive Dispatch (P : Program) : Engine → Engine → Prop
  | done {e : Engine} (h : ¬ e.dispatching) : Dispatch P e e
  | step {e e' : Engine} (h : e.dispatching) (hrest : Dispatch P (e.step P) e') : Dispatch P e e'

theorem Dispatch.unique {P : Program} {e e₁ e₂ : Engine} (h₁ : Dispatch P e e₁)
    (h₂ : Dispatch P e e₂) : e₁ = e₂ := by
  induction h₁ with
  | done h =>
      cases h₂ with
      | done _ => rfl
      | step h' _ => exact absurd h' h
  | step h _ ih =>
      cases h₂ with
      | done h' => exact absurd h h'
      | step _ hrest => exact ih hrest

/-- The dispatch ends, and the engine goes on at `a`. -/
def DispatchesTo (P : Program) (e : Engine) (a : Int) : Prop :=
  ∃ e', Dispatch P e e' ∧ e'.lbl = .control ∧ e'.pp = a

theorem DispatchesTo.unique {P : Program} {e : Engine} {a b : Int} (ha : DispatchesTo P e a)
    (hb : DispatchesTo P e b) : a = b := by
  obtain ⟨e₁, h₁, -, rfl⟩ := ha
  obtain ⟨e₂, h₂, -, rfl⟩ := hb
  rw [h₁.unique h₂]

variable {P : Program} {e : Engine} {te : HashTable} {a : Int}

/-- The engine is at an instruction that uses the table. -/
def Uses (P : Program) (e : Engine) (te : HashTable) : Prop :=
  (∃ n, P.code e.pp = .hashing n te) ∨ P.code e.pp = .lasthashing te

theorem dispatchesTo_jump (hlbl : e.dispatching) (h : ∃ e₀ : Engine, e.step P = e₀.jump a) :
    DispatchesTo P e a := by
  obtain ⟨e₀, he₀⟩ := h
  refine ⟨e₀.jump a, .step hlbl ?_, rfl, rfl⟩
  rw [he₀]
  exact .done (by simp [dispatching, jump])

theorem step_exec (huses : Uses P e te) (hlbl : e.lbl = .exec) : e.step P = e.doHash te := by
  rcases huses with ⟨n, h⟩ | h <;> simp [step, hlbl, h, exec]

theorem step_probe (huses : Uses P e te) (hlbl : e.lbl = .probe) : e.step P = e.probe te := by
  rcases huses with ⟨n, h⟩ | h <;> simp [step, hlbl, h, probing]

/-- The loop of the engine goes around the table up to the first slot that is free or holds the
key. -/
theorem dispatchesTo_probe (huses : Uses P e te) (hlbl : e.lbl = .probe) (hax : e.ax = .cst k)
    {i d : Nat} (hgp : e.gp = (i : Nat)) (hi : i < prime) (hprime : te.prime = prime)
    (hstop : (te.entry ((i + d) % prime : Nat)).1 = 0 ∨ (te.entry ((i + d) % prime : Nat)).1 = k)
    (hbefore : ∀ c < d, ¬ ((te.entry ((i + c) % prime : Nat)).1 = 0 ∨
      (te.entry ((i + c) % prime : Nat)).1 = k)) :
    DispatchesTo P e (te.entry ((i + d) % prime : Nat)).2 := by
  have hstep := step_probe huses hlbl
  induction d generalizing e i with
  | zero =>
      rw [Nat.add_zero, Nat.mod_eq_of_lt hi, ← hgp] at hstop ⊢
      refine dispatchesTo_jump (Or.inr hlbl) ⟨e, ?_⟩
      rw [hstep, probe, hax]
      exact if_pos hstop
  | succ d ih =>
      have hfirst := hbefore 0 (Nat.succ_pos d)
      rw [Nat.add_zero, Nat.mod_eq_of_lt hi, ← hgp] at hfirst
      have hnext : ∀ c, ((i + 1) % prime + c) % prime = (i + (c + 1)) % prime := fun c => by
        rw [Nat.mod_add_mod, Nat.add_assoc, Nat.add_comm 1 c]
      have hgo : e.step P = { e with gp := ((i + 1) % prime : Nat) } := by
        have hmod : (((i + 1) % prime : Nat) : Int) = (e.gp + 1) % te.prime := by
          rw [hprime, hgp]
          rfl
        rw [hstep, probe, hax, hmod]
        exact if_neg hfirst
      obtain ⟨e', hdispatch, hctl, hpp⟩ := ih (e := { e with gp := ((i + 1) % prime : Nat) })
        (i := (i + 1) % prime) huses hlbl hax rfl (Nat.mod_lt _ (by omega))
        (by rw [hnext]; exact hstop) (fun c hc => by rw [hnext]; exact hbefore _ (by omega))
        (step_probe (e := { e with gp := ((i + 1) % prime : Nat) }) huses hlbl)
      refine ⟨e', .step (Or.inr hlbl) (hgo ▸ hdispatch), hctl, ?_⟩
      rw [hpp, hnext]

/-- The table in loaded words, as the engine reads it. -/
theorem ofWords_loads {ws : List Int} (h : Loads base code (pc - 2) prime ws) :
    (HashTable.ofWords ws).prime = prime ∧ (HashTable.ofWords ws).varBranch = base + code (pc - 1) ∧
      ∀ j < prime, (HashTable.ofWords ws).entry (j : Nat) =
        (code (pc + (j : Nat) * 2), base + code (pc + (j : Nat) * 2 + 1)) := by
  have hpc : pc - 2 + 2 = pc := by omega
  have hvar : pc - 2 + 1 = pc - 1 := by omega
  refine ⟨?_, ?_, fun j hj => ?_⟩
  · rw [HashTable.ofWords, List.getD_eq_getElem?_getD, h.size]
    rfl
  · rw [HashTable.ofWords, List.getD_eq_getElem?_getD (i := 1), h.varBranch, hvar]
    rfl
  · have hkey := h.key j hj
    have hbranch := h.branch j hj
    rw [hpc] at hkey hbranch
    simp only [HashTable.ofWords, Int.toNat_natCast, List.getD_eq_getElem?_getD, hkey, hbranch,
      Option.getD_some]

variable {d : Assembler} {t : TableSource} {ws : List Int}

theorem dispatchesTo_var (h : Filed d base t ws pairs var) (huses : Uses P e (.ofWords ws))
    (hlbl : e.lbl = .exec) (hax : e.ax = .ref a) : DispatchesTo P e (base + var) := by
  obtain ⟨code, pc, hwritten, hloads⟩ := h.written
  obtain ⟨-, hvar, -⟩ := ofWords_loads hloads
  refine dispatchesTo_jump (Or.inl hlbl) ⟨e, ?_⟩
  rw [step_exec huses hlbl, doHash, hax, ← hwritten.var, ← hvar]

/-- **The search** goes to the first pair whose key is the name value of the structure. -/
theorem dispatchesTo_str (h : Filed d base t ws pairs var) (huses : Uses P e (.ofWords ws))
    (hlbl : e.lbl = .exec) (hax : e.ax = .str a) :
    DispatchesTo P e (base + (pairs.lookup (e.mem a).funValue).getD var) := by
  obtain ⟨code, pc, hwritten, hloads⟩ := h.written
  obtain ⟨hprime, -, hentry⟩ := ofWords_loads hloads
  have hnonneg : 0 ≤ (e.mem a).funValue := by
    rw [Word.funValue]
    omega
  have hpos := lt_getPrime pairs.length
  have hstart : hashStart (getPrime pairs.length) (e.mem a).funValue < getPrime pairs.length :=
    Nat.mod_lt _ (by omega)
  obtain ⟨dist, hdist, hfirst, hslot⟩ := hwritten.built.search hpos hnonneg hstart
  have hlt : ∀ c, (hashStart (getPrime pairs.length) (e.mem a).funValue + c) %
      getPrime pairs.length < getPrime pairs.length := fun c => Nat.mod_lt _ (by omega)
  have hgp : (e.mem a).funValue % (HashTable.ofWords ws).prime =
      (hashStart (getPrime pairs.length) (e.mem a).funValue : Nat) := by
    rw [hprime, hashStart, Int.natCast_mod, Int.toNat_of_nonneg hnonneg]
  obtain ⟨e', hdispatch, hctl, hpp⟩ := dispatchesTo_probe
    (e := { e with ax := .cst (e.mem a).funValue, cx := (HashTable.ofWords ws).prime,
                   gp := (e.mem a).funValue % (HashTable.ofWords ws).prime, lbl := .probe })
    huses rfl rfl hgp hstart hprime (d := dist)
    (by rw [hentry _ (hlt dist)]; exact (stops_slots _).mp hfirst.stop)
    (fun c hc hstop => by
      rw [hentry _ (hlt c)] at hstop
      have hbefore := hfirst.before c hc
      rw [(stops_slots _).mpr hstop] at hbefore
      cases hbefore)
  refine ⟨e', .step (Or.inl hlbl) ?_, hctl, ?_⟩
  · rw [step_exec huses hlbl, doHash, hax]
    exact hdispatch
  · rw [hpp, hentry _ (hlt dist)]
    -- the slot is free, or it holds the key
    cases hlook : pairs.lookup (e.mem a).funValue with
    | none =>
        rw [hlook, Option.map_none, slots] at hslot
        split_ifs at hslot with hzero
        · rw [hwritten.empty _ (hlt dist) hzero]
          rfl
    | some v =>
        rw [hlook, Option.map_some, slots] at hslot
        split_ifs at hslot
        · obtain ⟨-, rfl⟩ := Prod.mk.inj (Option.some.inj hslot)
          rfl

theorem not_dispatchesTo_cst {te : HashTable} {n : Int} (huses : Uses P e te)
    (hlbl : e.lbl = .exec) (hax : e.ax = .cst n) (a : Int) : ¬ DispatchesTo P e a := by
  rintro ⟨e', hdispatch, hctl, -⟩
  have hend : Dispatch P e (e.step P) := by
    refine .step (Or.inl hlbl) (.done ?_)
    rw [step_exec huses hlbl, doHash, hax]
    simp [dispatching, unknownType, contextSwitch]
  rw [hdispatch.unique hend, step_exec huses hlbl, doHash, hax] at hctl
  cases hctl

end Engine

/-! ## Labels of values -/

/-- The label of a constant or functor with this name value: that of its first pair, or the one
for variables. -/
def Assembler.TableSource.labelFor (t : TableSource) (names : List Name) (v : Int) : Name :=
  ((t.entries.find? fun e => conValue names e.1 = some v).map Prod.snd).getD t.var

theorem Entered.place {d : Assembler} {es : List (Name × Name)} {m : Name}
    (h : Entered d es pairs) (hvar : d.labelAt m = some var) (v : Int) :
    d.labelAt (((es.find? fun e => conValue d.names e.1 = some v).map Prod.snd).getD m) =
      some ((pairs.lookup (Word.makeCon v).bits).getD var) := by
  induction h with
  | nil => exact hvar
  | @cons e p es ps hhead _ ih =>
      obtain ⟨⟨v', hv', hterm⟩, hlabel⟩ := hhead
      obtain ⟨k, loc⟩ := p
      dsimp only at hterm hlabel
      by_cases hv : v' = v
      · subst hv
        rw [List.lookup_cons, hterm, beq_self_eq_true, List.find?_cons_of_pos (by simpa using hv')]
        exact hlabel
      · have hne : ((Word.makeCon v).bits == k) = false := beq_eq_false_iff_ne.mpr fun heq => by
          rw [hterm, Word.makeCon, Word.makeCon, Word.bits, Word.bits] at heq
          omega
        rw [List.lookup_cons, hne, List.find?_cons_of_neg (by simpa [hv'] using hv)]
        exact ih

/-- Every key is the word of a constant. -/
theorem Entered.lookup_none {d : Assembler} {es : List (Name × Name)} (h : Entered d es pairs)
    (hk : k % 8 ≠ 7) : pairs.lookup k = none := by
  induction h with
  | nil => rfl
  | @cons e p es ps hhead _ ih =>
      obtain ⟨⟨v', -, hterm⟩, -⟩ := hhead
      have hne : (k == p.1) = false := beq_eq_false_iff_ne.mpr fun heq => by
        rw [hterm, Word.makeCon, Word.bits] at heq
        omega
      rw [List.lookup_cons, hne]
      exact ih

/-- Where a search for `k` ends: the label of the value whose word is `k`. -/
def Assembler.TableSource.searched (t : TableSource) (names : List Name) (k : Int) : Name :=
  if k % 8 = 7 then t.labelFor names (k / 8) else t.var

theorem Filed.searched {d : Assembler} {t : TableSource} {ws : List Int}
    (h : Filed d base t ws pairs var) (k : Int) :
    d.labelAt (t.searched d.names k) = some ((pairs.lookup k).getD var) := by
  rw [TableSource.searched]
  split_ifs with hk
  · have hword : (Word.makeCon (k / 8)).bits = k := by
      rw [Word.makeCon, Word.bits]
      omega
    rw [TableSource.labelFor, h.entered.place h.varLabel, hword]
  · rw [h.varLabel, h.entered.lookup_none hk]
    rfl

/-! ## Dispatch -/

namespace Engine

/-- The dispatch ends, and the engine goes on at the label. -/
def DispatchesToLabel (d : Assembler) (base : Int) (P : Program) (e : Engine) (l : Name) : Prop :=
  ∃ k, d.labelAt l = some k ∧ DispatchesTo P e (base + k)

/-- **The dispatch on `e.ax` is correct**: it ends, for an unbound argument and for a constant or
structure that is not in the table at the label for variables, and for one that is at the label of
its first pair. An integer is never in a table. -/
def Dispatched (d : Assembler) (base : Int) (t : TableSource) (P : Program) (e : Engine) : Prop :=
  match e.ax with
  | .ref _ => DispatchesToLabel d base P e t.var
  | .cst n =>
      DispatchesToLabel d base P e (if n % 2 = 1 then t.labelFor d.names (n / 2) else t.var)
  | .lis _ => ∃ e', Dispatch P e e'
  | .str q =>
      if e.mem q = Word.fvlTag then ∃ e', Dispatch P e e'
      else DispatchesToLabel d base P e (t.labelFor d.names (e.mem q).funValue)

/-- The argument is no constant, and for a structure the label that belongs to its name value is
the one that belongs to the value whose word equals this name value. -/
def Agrees (d : Assembler) (t : TableSource) (e : Engine) : Prop :=
  match e.ax with
  | .cst _ => False
  | .str q => e.mem q = Word.fvlTag ∨ d.labelAt (t.labelFor d.names (e.mem q).funValue) =
      d.labelAt (t.searched d.names (e.mem q).funValue)
  | _ => True

variable {P : Program} {e : Engine} {d : Assembler} {t : TableSource} {ws : List Int}

theorem dispatched_iff (h : Filed d base t ws pairs var) (huses : Uses P e (.ofWords ws))
    (hlbl : e.lbl = .exec) : Dispatched d base t P e ↔ Agrees d t e := by
  rw [Dispatched.eq_def, Agrees.eq_def]
  cases hax : e.ax with
  | ref a => exact iff_of_true ⟨var, h.varLabel, dispatchesTo_var h huses hlbl hax⟩ trivial
  | lis a =>
      refine iff_of_true ⟨e.step P, .step (Or.inl hlbl) (.done ?_)⟩ trivial
      rw [step_exec huses hlbl, doHash, hax]
      simp [dispatching, unknownType, contextSwitch]
  | cst n =>
      refine iff_of_false ?_ id
      rintro ⟨k, -, hto⟩
      exact not_dispatchesTo_cst huses hlbl hax _ hto
  | str q =>
      have hto := dispatchesTo_str h huses hlbl hax
      dsimp only
      split_ifs with hfloat
      · obtain ⟨e', hdispatch, -⟩ := hto
        exact iff_of_true ⟨e', hdispatch⟩ (Or.inl hfloat)
      · rw [h.searched, or_iff_right hfloat]
        refine ⟨fun ⟨k, hk, hto'⟩ => ?_, fun hk => ⟨_, hk, hto⟩⟩
        rw [hk, ← Int.add_left_cancel (hto'.unique hto)]

/-- **Hash dispatch.** For a program whose tables have their labels in front of them and no negative
constants, a dispatch is correct exactly when the label of the name value of the structure and the
label found under this value agree. For a constant it is never correct, in any program. -/
theorem hash_dispatch (builtins : Name → Option Nat) (p : Assembler.Source) (d : Assembler)
    (type : Nat) (o : Object) (block : Int) (img : Image) (i : Nat) (line : Line) (t : TableSource)
    (P : Program) (e : Engine) (hd : translate builtins p = some d) (ho : d.codegen type = some o)
    (himg : loadCode block o = some img) (hi : p.lines[i]? = some line)
    (ht : line.operands = .table t) (hlbl : e.lbl = .exec)
    (huses : Uses P e (.ofWords (img.code.drop (p.offset i + 1)))) :
    (RegularTables p.labels p.lines →
      (Dispatched d img.codeBase t P e ↔ Agrees d t e)) ∧
    (e.ax.isCst → ¬ Dispatched d img.codeBase t P e) := by
  refine ⟨fun hreg => ?_, fun hcst => ?_⟩
  · obtain ⟨pairs, var, hfiled⟩ := filed_loadCode hd ho himg hreg hi ht
    exact dispatched_iff hfiled huses hlbl
  · rw [Dispatched.eq_def]
    cases hax : e.ax with
    | cst n =>
        rintro ⟨k, -, hto⟩
        exact not_dispatchesTo_cst huses hlbl hax _ hto
    | _ => rw [hax] at hcst; cases hcst

/-! ## A program with a table -/

theorem getPrime_one : getPrime 1 = 11 := by
  have hstop : getPrimeLoop 11 5 (by omega) = 11 := by
    rw [getPrimeLoop, dif_neg (by decide)]
  show getPrimeLoop 9 3 _ = 11
  rw [getPrimeLoop, dif_pos (by decide), dif_pos (by decide)]
  exact hstop

theorem putLines_append (builtins : Name → Option Nat) (a : Assembler) (ls ls' : List Line) :
    a.putLines builtins (ls ++ ls') = (a.putLines builtins ls).bind (putLines builtins · ls') := by
  induction ls generalizing a with
  | nil => rfl
  | cons l ls ih =>
      rw [List.cons_append, putLines, putLines, Option.bind_assoc]
      exact Option.bind_congr fun b _ => ih b

/-- A program with a dispatch on the last argument. -/
def untabled : Assembler.Source where
  labels := []
  op := 133
  entry := [109]
  arity := 1
  lines := [⟨[], 135, .plain [.procedure [109] 1]⟩, ⟨[], 105, .plain [.label [116]]⟩,
    ⟨[[118]], 6, .plain []⟩, ⟨[[102]], 6, .plain []⟩]

def fooTable : TableSource := ⟨[([102, 111, 111], [102])], [118]⟩

def tabled : Assembler.Source :=
  { untabled with lines := untabled.lines ++ [⟨[[116]], 136, .table fooTable⟩] }

def beforeTable : Assembler := (translate (fun _ => none) untabled).get (by decide)

def atTable : Assembler :=
  ((beforeTable.insertLabels [[116]]).bind (putCode · 136)).get (by decide)

def readTable : Assembler := ((atTable.getTable fooTable).get (by decide)).1

def afterTable : Assembler :=
  let b := (readTable.putCodes (11 :: 6 :: emptyEntries 11 6)).get (by decide)
  { b with code := putHashCode ((readTable.cc : Int) + 2) 11 b.code (1055, 7) }

theorem putTable_foo : readTable.putTable [(1055, 7)] 6 = some afterTable := by
  rw [putTable, List.length_singleton, getPrime_one]
  rfl

def directive : Assembler :=
  (translate (fun _ => none) { untabled with lines := [] }).get (by decide)

theorem translate_tabled : translate (fun _ => none) tabled = some afterTable := by
  have hlines : ∀ ls, translate (fun _ => none) { untabled with lines := ls } =
      directive.putLines (fun _ => none) ls := fun _ => rfl
  have hline : beforeTable.putLine (fun _ => none) ⟨[[116]], 136, .table fooTable⟩ =
      readTable.putTable [(1055, 7)] 6 := rfl
  rw [tabled, hlines, putLines_append, ← hlines]
  show (beforeTable.putLine (fun _ => none) ⟨[[116]], 136, .table fooTable⟩).bind some = _
  rw [hline, putTable_foo]
  rfl

def tabledObject : Object where
  type := 1
  names := [91, 93, 10, 102, 111, 111, 10]
  procs := [(8389487, 4)]
  code := [133, 4, 135, 8389487, 105, 8, 6, 6, 136, 11, 6, 0, 6, 0, 6, 0, 6, 0, 6, 0, 6, 0, 6, 0, 6,
    0, 6, 0, 6, 0, 6, 1055, 7]

def tabledImage : Image where
  procBase := 0
  codeBase := 2
  names := [91, 93, 0, 102, 111, 111, 0]
  procs := [(8389487, 4)]
  code := [133, 6, 135, 8389487, 105, 10, 6, 6, 136, 11, 8, 0, 8, 0, 8, 0, 8, 0, 8, 0, 8, 0, 8, 0,
    8, 0, 8, 0, 8, 0, 8, 1055, 9]

theorem codegen_tabled : afterTable.codegen 1 = some tabledObject := by decide

theorem load_tabled : loadCode 0 tabledObject = some tabledImage := by decide

/-- The engine at the dispatch on `w`. -/
def dispatchOn (w : Word) : Engine := { (default : Engine) with pp := 6, ax := w, lbl := .exec }

def tabledProgram : Program where
  code pp := if pp = 6 then .lasthashing (.ofWords (tabledImage.code.drop 9)) else .proceed
  strcmp _ _ := 0
  con_nil := .makeCon 128
  doubles := ⟨fun x => (.makeInt x, .mlvmZero), fun _ x _ => x, id, fun _ _ => false,
    fun x y => x == y⟩
  legal _ := false
  btin _ e := e

theorem uses_tabled (w : Word) :
    Uses tabledProgram (dispatchOn w) (.ofWords (tabledImage.code.drop 9)) := Or.inr rfl

theorem regular_tabled : RegularTables tabled.labels tabled.lines := by
  refine regularTables_plain rfl (regularTables_plain rfl (regularTables_plain rfl
    (regularTables_plain rfl (regularTables_table rfl (fun e he c hc => ?_) (by decide) trivial))))
  rw [List.mem_singleton.mp he] at hc
  cases hc

/-- The dispatch on an unbound argument is correct, on the constant `foo` it is not. -/
theorem hash_dispatch_tabled :
    Dispatched afterTable tabledImage.codeBase fooTable tabledProgram (dispatchOn (.ref 50)) ∧
      ¬ Dispatched afterTable tabledImage.codeBase fooTable tabledProgram
        (dispatchOn (.makeCon 131)) := by
  have h := fun w => hash_dispatch (fun _ => none) tabled afterTable 1 tabledObject 0 tabledImage 4
    _
    fooTable tabledProgram (dispatchOn w) translate_tabled codegen_tabled load_tabled rfl rfl rfl
    (uses_tabled w)
  exact ⟨((h (.ref 50)).1 regular_tabled).mpr trivial, (h (.makeCon 131)).2 rfl⟩

theorem constant_not_dispatched :
    translate (fun _ => none) tabled = some afterTable ∧ afterTable.codegen 1 = some tabledObject ∧
      loadCode 0 tabledObject = some tabledImage ∧
      fooTable.labelFor afterTable.names 131 = [102] ∧
      ((dispatchOn (.makeCon 131)).step tabledProgram).lbl = .contextSwitch ∧
      ((dispatchOn (.makeCon 131)).step tabledProgram).info = E_UNKNOWN_TYPE ∧
      ¬ Dispatched afterTable tabledImage.codeBase fooTable tabledProgram
        (dispatchOn (.makeCon 131)) := by
  refine ⟨translate_tabled, codegen_tabled, load_tabled, by decide, rfl, rfl, ?_⟩
  rintro ⟨k, -, hto⟩
  exact not_dispatchesTo_cst (uses_tabled _) rfl rfl _ hto

end Engine

end Mlvm
