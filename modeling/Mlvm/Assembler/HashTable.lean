import Mlvm.Assembler.Keeps
import Mlvm.Opcode.Instr
import Mlvm.Probing.Linear

/-!
# Hash tables

What the assembler writes for a hash table and what the loader makes of it: a table of linear
probing in which every constant of the source is **settled**, with its label relocated. This needs
that the labels of all tables are in front of them, since the request of a later label is for the
first cell of the table; and that no key is negative, since it would be written to the left of the
table.
-/

namespace Mlvm

open Assembler

/-! ## The table as linear probing -/

/-- The slots of a table whose entries begin at `pc`; a key is never 0. -/
def slots (code : Int → Int) (pc : Int) : Probing.Table Int Int := fun j =>
  if code (pc + j * 2) = 0 then none else some (code (pc + j * 2), code (pc + j * 2 + 1))

/-- Where the search for a key begins. -/
def hashStart (prime : Nat) (k : Int) : Nat := k.toNat % prime

variable {code : Int → Int} {pc base : Int} {prime : Nat} {k : Int}

theorem stops_slots (j : Nat) :
    Probing.stops (slots code pc) k j = true ↔
      code (pc + j * 2) = 0 ∨ code (pc + j * 2) = k := by
  rw [Probing.stops, slots]
  by_cases hzero : code (pc + j * 2) = 0
  · simp [hzero]
  · simp [hzero]

theorem slots_update (hk : k ≠ 0) (v : Int) (i : Nat) :
    slots (Function.update (Function.update code (pc + i * 2) k) (pc + i * 2 + 1) v) pc =
      Function.update (slots code pc) i (some (k, v)) := by
  funext j
  by_cases hij : j = i
  · subst hij
    have hne : pc + (j : Int) * 2 ≠ pc + j * 2 + 1 := by omega
    simp only [slots, Function.update_self, Function.update_of_ne hne, if_neg hk]
  · have hne : pc + (j : Int) * 2 ≠ pc + i * 2 + 1 := by omega
    have hne' : pc + (j : Int) * 2 ≠ pc + i * 2 := by omega
    have hne₁ : pc + (j : Int) * 2 + 1 ≠ pc + i * 2 + 1 := by omega
    have hne₂ : pc + (j : Int) * 2 + 1 ≠ pc + i * 2 := by omega
    simp only [slots, Function.update_of_ne hne, Function.update_of_ne hne',
      Function.update_of_ne hne₁, Function.update_of_ne hne₂, Function.update_of_ne hij]

/-- **The loop of the writer is an insertion**, from any place of the table on. -/
theorem slots_putHashLoop {e : Int × Int} (he : e.1 ≠ 0) (n i : Nat) :
    slots (putHashLoop code pc prime e n i) pc =
      Probing.insert (slots code pc) prime e.1 e.2 n i := by
  induction n generalizing i with
  | zero => rfl
  | succ n ih =>
      have hstop : Probing.stops (slots code pc) e.1 i = true ↔ _ := stops_slots i
      rw [putHashLoop, Probing.insert, Probing.seek]
      by_cases hzero : code (pc + i * 2) = 0
      · have hnone : slots code pc i = none := by rw [slots, if_pos hzero]
        rw [if_pos hzero, if_pos (hstop.mpr (Or.inl hzero))]
        simp only [hnone, Option.isNone_none, if_true]
        exact slots_update he e.2 i
      · by_cases hkey : code (pc + i * 2) = e.1
        · have hsome : slots code pc i = some (e.1, code (pc + i * 2 + 1)) := by
            rw [slots, if_neg hzero, hkey]
          rw [if_neg hzero, if_pos hkey, if_pos (hstop.mpr (Or.inr hkey))]
          simp only [hsome, Option.isNone_some, Bool.false_eq_true, if_false]
        · have hgo : ¬ Probing.stops (slots code pc) e.1 i = true := fun h =>
            (hstop.mp h).elim hzero hkey
          have hnext : ((i : Int) + 1).tmod prime = ((i + 1) % prime : Nat) := by
            rw [Int.tmod_eq_emod_of_nonneg (by omega)]
            rfl
          rw [if_neg hzero, if_neg hkey, if_neg hgo, hnext, ih]
          rfl

/-- A table that is being written: what is filed so far, with the label for variables in the
empty slots, and the two words before the entries. -/
structure Written (code : Int → Int) (pc : Int) (prime : Nat) (var : Int)
    (pairs : List (Int × Int)) : Prop where
  built : Probing.Built (0 ≤ ·) (hashStart prime) (slots code pc) prime pairs
  empty : ∀ j < prime, code (pc + (j : Nat) * 2) = 0 → code (pc + (j : Nat) * 2 + 1) = var
  prime : code (pc - 2) = prime
  var : code (pc - 1) = var

variable {var : Int} {pairs : List (Int × Int)}

theorem Written.putHashCode (h : Written code pc prime var pairs) {e : Int × Int} (he : 0 < e.1)
    (hlen : pairs.length < prime) :
    Written (putHashCode pc prime code e) pc prime var (pairs ++ [e]) := by
  have hstart : e.1.tmod prime = (hashStart prime e.1 : Nat) := by
    rw [Int.tmod_eq_emod_of_nonneg (by omega), hashStart, Int.natCast_mod,
      Int.toNat_of_nonneg (by omega)]
  have hlt : hashStart prime e.1 < prime := Nat.mod_lt _ (by omega)
  have hbuilt : Probing.Built _ _ (Probing.insert _ _ _ e.2 _ _) _ _ := h.built.insert hlt hlen
  rw [← slots_putHashLoop (by omega)] at hbuilt
  rw [Assembler.putHashCode, hstart]
  rcases putHashLoop_cells e prime (hashStart prime e.1) with heq | ⟨i, heq⟩
  · rw [heq] at hbuilt ⊢
    exact ⟨hbuilt, h.empty, h.prime, h.var⟩
  · rw [heq] at hbuilt ⊢
    refine ⟨hbuilt, fun j hj hzero => ?_, ?_, ?_⟩
    · have hne : pc + (j : Int) * 2 ≠ pc + i * 2 + 1 := by omega
      by_cases hij : j = i
      · subst hij
        rw [Function.update_of_ne hne, Function.update_self] at hzero
        omega
      · rw [Function.update_of_ne hne, Function.update_of_ne (by omega)] at hzero
        rw [Function.update_of_ne (by omega), Function.update_of_ne (by omega)]
        exact h.empty j hj hzero
    · rw [Function.update_of_ne (by omega), Function.update_of_ne (by omega)]
      exact h.prime
    · rw [Function.update_of_ne (by omega), Function.update_of_ne (by omega)]
      exact h.var

theorem Written.foldl {ps : List (Int × Int)} (h : Written code pc prime var pairs)
    (hps : ∀ e ∈ ps, 0 < e.1) (hlen : pairs.length + ps.length ≤ prime) :
    Written (ps.foldl (Assembler.putHashCode pc prime) code) pc prime var (pairs ++ ps) := by
  induction ps generalizing code pairs with
  | nil => rwa [List.append_nil]
  | cons e ps ih =>
      rw [List.length_cons] at hlen
      have hone := h.putHashCode (hps e List.mem_cons_self) (by omega)
      have hrest := ih hone (fun e' he' => hps e' (List.mem_cons_of_mem _ he'))
        (by rw [List.length_append, List.length_singleton]; omega)
      rwa [List.append_assoc] at hrest

/-! ## The whole table -/

theorem getElem?_emptyEntries {j : Nat} (hj : j < prime) (var : Int) :
    (emptyEntries prime var)[2 * j]? = some 0 ∧
    (emptyEntries prime var)[2 * j + 1]? = some var := by
  induction prime generalizing j with
  | zero => cases hj
  | succ prime ih =>
      rw [emptyEntries, List.replicate_succ, List.flatten_cons, ← emptyEntries]
      cases j with
      | zero => exact ⟨rfl, rfl⟩
      | succ j => exact ih (Nat.lt_of_succ_lt_succ hj)

/-- **`put_table` writes the table**, when no constant is a single character that is negative. -/
theorem written_putTable {a c : Assembler} (h : a.putTable pairs var = some c)
    (hpairs : ∀ e ∈ pairs, 0 < e.1) :
    Written c.code (a.cc + 2) (getPrime pairs.length) var pairs := by
  obtain ⟨b, hputs, hc⟩ := Option.bind_eq_some_iff.mp h
  obtain rfl := Option.some.inj hc
  obtain ⟨hcells, -⟩ := code_putCodes hputs
  have hkey : ∀ j < getPrime pairs.length, b.code ((a.cc : Int) + 2 + (j : Nat) * 2) = 0 ∧
      b.code ((a.cc : Int) + 2 + (j : Nat) * 2 + 1) = var := fun j hj => by
    obtain ⟨hzero, hvar⟩ := getElem?_emptyEntries hj var
    have hfirst := hcells (2 * j + 2) 0 hzero
    have hsecond := hcells (2 * j + 3) var hvar
    refine ⟨?_, ?_⟩
    · rw [← hfirst]
      congr 1
      omega
    · rw [← hsecond]
      congr 1
      omega
  have hprime := hcells 0 _ rfl
  have hvar := hcells 1 _ rfl
  have hlt := lt_getPrime pairs.length
  have hstart : Written b.code (a.cc + 2) (getPrime pairs.length) var [] := by
    refine ⟨⟨fun _ _ _ hlook => ?_, fun k _ _ j hj x hx => ?_, ?_⟩, fun j hj _ => (hkey j hj).2,
      ?_, ?_⟩
    · cases hlook
    · rw [slots, if_pos (hkey j hj).1] at hx
      cases hx
    · refine Nat.le_of_eq (List.countP_eq_zero.mpr fun j hj hsome => ?_)
      rw [slots, if_pos (hkey j (List.mem_range.mp hj)).1] at hsome
      cases hsome
    · rw [← hprime]
      congr 1
      omega
    · rw [← hvar]
      congr 1
      omega
  exact hstart.foldl hpairs (by rw [List.length_nil]; omega)

/-! ## What the assembler files -/

/-- Constants of the table with their pairs: the word of the constant and the place of the
label. -/
def Entered (a : Assembler) (es : List (Name × Name)) (pairs : List (Int × Int)) : Prop :=
  List.Forall₂ (fun e p => (∃ v, conValue a.names e.1 = some v ∧ p.1 = (Word.makeCon v).bits) ∧
    a.labelAt e.2 = some p.2) es pairs

/-- The words of a hash table from `q` on, with the labels relocated. -/
structure Loads (base : Int) (code : Int → Int) (q : Int) (prime : Nat) (ws : List Int) :
    Prop where
  size : ws[0]? = some (prime : Int)
  varBranch : ws[1]? = some (base + code (q + 1))
  key : ∀ j < prime, ws[2 * j + 2]? = some (code (q + 2 + (j : Nat) * 2))
  branch : ∀ j < prime, ws[2 * j + 3]? = some (base + code (q + 2 + (j : Nat) * 2 + 1))

/-- The table is in the loaded words `ws` as it was written. -/
structure Filed (d : Assembler) (base : Int) (t : TableSource) (ws : List Int)
    (pairs : List (Int × Int)) (var : Int) : Prop where
  entered : Entered d t.entries pairs
  varLabel : d.labelAt t.var = some var
  written : ∃ (code : Int → Int) (pc : Int),
    Written code pc (getPrime pairs.length) var pairs ∧
      Loads base code (pc - 2) (getPrime pairs.length) ws

/-- Every hash table has its labels in front of it, and no negative constants. -/
def RegularTables : List Name → List Line → Prop
  | _, [] => True
  | known, l :: ls => l.Positive ∧
      (∀ t, l.operands = .table t → (∀ e ∈ t.entries, e.2 ∈ known ++ l.labels) ∧
        t.var ∈ known ++ l.labels) ∧ RegularTables (known ++ l.labels) ls

theorem regularTables_plain {known : List Name} {l : Line} {ls : List Line} {os : List Operand}
    (hl : l.operands = .plain os) (h : RegularTables (known ++ l.labels) ls) :
    RegularTables known (l :: ls) := by
  have hno : ∀ t, l.operands ≠ .table t := fun t ht => by
    rw [hl] at ht
    cases ht
  exact ⟨fun t ht => absurd ht (hno t), fun t ht => absurd ht (hno t), h⟩

theorem regularTables_table {known : List Name} {l : Line} {ls : List Line} {t : TableSource}
    (hl : l.operands = .table t) (hpos : t.Positive)
    (hdef : (∀ e ∈ t.entries, e.2 ∈ known ++ l.labels) ∧ t.var ∈ known ++ l.labels)
    (h : RegularTables (known ++ l.labels) ls) : RegularTables known (l :: ls) := by
  have huniq : ∀ t', l.operands = .table t' → t' = t := fun t' ht' =>
    Operands.table.inj (ht'.symm.trans hl)
  refine ⟨fun t' ht' => ?_, fun t' ht' => ?_, h⟩
  · rwa [huniq t' ht']
  · rwa [huniq t' ht']

theorem RegularTables.positive {known : List Name} {ls : List Line} (h : RegularTables known ls) :
    ∀ l ∈ ls, l.Positive := by
  induction ls generalizing known with
  | nil => exact fun l hl => absurd hl List.not_mem_nil
  | cons l ls ih =>
      intro l' hl'
      rcases List.mem_cons.mp hl' with rfl | hl'
      · exact h.1
      · exact ih h.2.2 l' hl'

section Filing

variable {builtins : Name → Option Nat} {a b d : Assembler} {l : Line} {t : TableSource}

/-- A table that is read with all its labels defined. -/
theorem entered_getTable {b : Assembler} (hdef : ∀ e ∈ t.entries, (a.labelAt e.2).isSome)
    (hvar : (a.labelAt t.var).isSome) (h : a.getTable t = some (b, pairs, var))
    (hkeep : Keeps b d) :
    Entered d t.entries pairs ∧ d.labelAt t.var = some var ∧ b.labels = a.labels := by
  have hread := (keeps_getTable h).1
  rw [getTable] at h
  split_ifs at h
  obtain ⟨⟨a₁, pairs₁⟩, hentries, h⟩ := Option.bind_eq_some_iff.mp h
  obtain ⟨⟨a₂, loc⟩, hlabel, h⟩ := Option.bind_eq_some_iff.mp h
  obtain ⟨rfl, hpair⟩ := Prod.mk.inj (Option.some.inj h)
  obtain ⟨rfl, rfl⟩ := Prod.mk.inj hpair
  obtain ⟨hkeep₁, hpairs⟩ := keeps_getEntries hentries
  have hlabels := labels_getEntries hdef hentries
  have hsame : ∀ l, a₁.labelAt l = a.labelAt l := fun l => by rw [labelAt, hlabels, labelAt]
  obtain ⟨rfl, hloc⟩ := getLabel_defined (by rw [hsame]; exact hvar) hlabel
  refine ⟨?_, hkeep.labels _ _ hloc, hlabels⟩
  refine List.Forall₂.mp (Q := fun e _ => e ∈ t.entries) (fun e p he hp => ?_) ?_ hpairs
  · obtain ⟨⟨v, hv, hterm⟩, hlabel⟩ := hp
    exact ⟨⟨v, hkeep.conValue hv, hterm⟩, hkeep.labels _ _ (hkeep₁.labels _ _ (hlabel (hdef e he)))⟩
  · exact List.forall₂_iff_get.mpr ⟨hpairs.length_eq, fun i hi _ => List.get_mem _ _⟩

/-- The opcode of a line stays. -/
theorem code_op (hb : a.Below) (hcc : 2 ≤ a.cc) (hpos : l.Positive)
    (h : a.putLine builtins l = some b) (hkeep : Keeps b d) : d.code a.cc = l.op := by
  obtain ⟨a₁, a₂, ty, hlabels, -, -, hput, hrest⟩ := putLine_cases h
  have hcc₁ := (keeps_insertLabels hlabels).2.2
  have hbelow := hb.insertLabels hlabels
  have hkeep₂ : Keeps a₂ d := by
    refine Keeps.trans ?_ hkeep
    rcases hrest with ⟨os, -, -, hputs⟩ | ⟨t, a₃, pairs, var, hos, -, hget, hputs⟩
    · exact keeps_putOperands hputs
    · obtain ⟨hread, hpairs⟩ := keeps_getTable hget
      exact hread.trans (keeps_putTable (hpairs (hpos t hos)) hputs).1
  obtain rfl := code_putCode hput
  rw [hkeep₂.code a.cc (by dsimp only; omega) (by omega), ← hcc₁]
  · exact Function.update_self ..
  · exact fun hwait => absurd (hbelow a.cc hwait) (by omega)

/-- **A table whose labels are in front of it** is in the final code as it was written. -/
theorem filed_putLine (hb : a.Below) (hcc : 2 ≤ a.cc) (hpos : l.Positive)
    (h : a.putLine builtins l = some b) (hkeep : Keeps b d) (ht : l.operands = .table t)
    {known : List Name} (hknown : ∀ m ∈ known, (a.labelAt m).isSome)
    (hdef : (∀ e ∈ t.entries, e.2 ∈ known ++ l.labels) ∧ t.var ∈ known ++ l.labels) :
    ∃ pairs var code, Entered d t.entries pairs ∧ d.labelAt t.var = some var ∧
      pairs.length = t.entries.length ∧
      Written code (a.cc + 3) (getPrime t.entries.length) var pairs ∧
      ∀ x : Int, a.cc < x → x < b.cc → d.code x = code x := by
  obtain ⟨a₁, a₂, ty, hlabels, -, -, hput, hrest⟩ := putLine_cases h
  obtain ⟨hkeep₁, hline, hcc₁⟩ := keeps_insertLabels hlabels
  have hbelow := hb.insertLabels hlabels
  have hkeep₂ := keeps_putCode hput
  rcases hrest with ⟨os, hos, -⟩ | ⟨t', a₃, pairs, var, hos, -, hget, hputs⟩
  · rw [hos] at ht
    cases ht
  · obtain rfl : t' = t := Operands.table.inj (hos.symm.trans ht)
    have hsome : ∀ m ∈ known ++ l.labels, (a₂.labelAt m).isSome := fun m hm => by
      rcases List.mem_append.mp hm with hm | hm
      · obtain ⟨k, hk⟩ := Option.isSome_iff_exists.mp (hknown m hm)
        rw [hkeep₂.labels _ _ (hkeep₁.labels _ _ hk)]
        rfl
      · rw [hkeep₂.labels _ _ (hline m hm)]
        rfl
    have hpairs := (keeps_getTable hget).2 (hpos t' hos)
    obtain ⟨hput₃, hlabels₃⟩ := keeps_putTable hpairs hputs
    obtain ⟨hentered, hvar, hlabels₂⟩ := entered_getTable (fun e he => hsome _ (hdef.1 e he))
      (hsome _ hdef.2) hget (hput₃.trans hkeep)
    obtain ⟨hmoves, hlen⟩ := moves_getTable hget
    have hwritten := written_putTable hputs hpairs
    obtain rfl := code_putCode hput
    have hcc₃ : a₃.cc = a.cc + 1 := by
      rw [hmoves.cc, ← hcc₁]
    refine ⟨pairs, var, b.code, hentered, hvar, hlen, ?_, fun x hx hxb => ?_⟩
    · rw [hcc₃, hlen] at hwritten
      have hplace : (((a.cc + 1 : Nat) : Int) + 2) = a.cc + 3 := by omega
      rwa [hplace] at hwritten
    · refine hkeep.code x hxb (by omega) fun hwait => ?_
      rw [Waiting, hlabels₃, hlabels₂] at hwait
      exact absurd (hbelow x hwait) (by omega)

end Filing

/-! ## The loader -/

/-- The table that the words after the opcode make. -/
def HashTable.ofWords (ws : List Int) : HashTable where
  prime := ws.getD 0 0
  varBranch := ws.getD 1 0
  entry i := (ws.getD (2 * i.toNat + 2) 0, ws.getD (2 * i.toNat + 3) 0)

/-- `n` words of the code from `q` on. -/
def cells (code : Int → Int) (q : Int) : Nat → List Int
  | 0 => []
  | n + 1 => code q :: cells code (q + 1) n

theorem length_cells (code : Int → Int) (q : Int) (n : Nat) : (cells code q n).length = n := by
  induction n generalizing q with
  | zero => rfl
  | succ n ih => exact congrArg Nat.succ (ih (q + 1))

theorem loadWords_cells (code : Int → Int) (base q : Int) (bs : List Bool) (m : Nat) :
    ∃ ws, loadWords base bs (cells code q (bs.length + m)) =
        some (ws, cells code (q + bs.length) m) ∧ ws.length = bs.length := by
  induction bs generalizing q with
  | nil => exact ⟨[], by simp [loadWords], rfl⟩
  | cons x bs ih =>
      obtain ⟨ws, hload, hlen⟩ := ih (q + 1)
      refine ⟨(if x then base + code q else code q) :: ws, ?_, congrArg Nat.succ hlen⟩
      have hplace : q + 1 + (bs.length : Int) = q + ((bs.length + 1 : Nat) : Int) := by omega
      rw [List.length_cons, Nat.add_right_comm, cells, loadWords, hload, hplace]
      rfl

theorem loadPairs_cells (code : Int → Int) (base q : Int) (n m : Nat) :
    ∃ ws, loadPairs base n (cells code q (2 * n + m)) =
      some (ws, cells code (q + (2 * n : Nat)) m) ∧
      ws.length = 2 * n ∧ ∀ j < n, ws[2 * j]? = some (code (q + (j : Nat) * 2)) ∧
        ws[2 * j + 1]? = some (base + code (q + (j : Nat) * 2 + 1)) := by
  induction n generalizing q with
  | zero => exact ⟨[], by simp [loadPairs], rfl, fun j hj => absurd hj (Nat.not_lt_zero j)⟩
  | succ n ih =>
      obtain ⟨ws, hload, hlen, hws⟩ := ih (q + 1 + 1)
      refine ⟨code q :: (base + code (q + 1)) :: ws, ?_, ?_, fun j hj => ?_⟩
      · have hplace : q + 1 + 1 + ((2 * n : Nat) : Int) = q + ((2 * (n + 1) : Nat) : Int) := by
          omega
        have hlength : 2 * (n + 1) + m = 2 * n + m + 1 + 1 := by omega
        rw [hlength, cells, cells, loadPairs, hload, hplace]
        rfl
      · rw [List.length_cons, List.length_cons, hlen]
        rfl
      · cases j with
        | zero => exact ⟨by simp, by simp⟩
        | succ j =>
            obtain ⟨hkey, hbranch⟩ := hws j (Nat.lt_of_succ_lt_succ hj)
            have hplace : q + 1 + 1 + (j : Int) * 2 = q + ((j + 1 : Nat) : Int) * 2 := by omega
            rw [hplace] at hkey hbranch
            exact ⟨hkey, hbranch⟩

/-- The loader keeps the keys of a table and relocates its labels. -/
theorem loadTable_cells (hprime : code pc = prime) (base : Int) (m : Nat) :
    ∃ ws, loadTable base (cells code pc (2 + 2 * prime + m)) =
        some (ws, cells code (pc + (2 + 2 * prime : Nat)) m) ∧
      ws.length = 2 + 2 * prime ∧ Loads base code pc prime ws := by
  obtain ⟨ws, hload, hlen, hws⟩ := loadPairs_cells code base (pc + 1 + 1) prime m
  refine ⟨(prime : Int) :: (base + code (pc + 1)) :: ws, ?_, ?_, ?_⟩
  · have hlength : 2 + 2 * prime + m = 2 * prime + m + 1 + 1 := by omega
    have hplace : pc + 1 + 1 + ((2 * prime : Nat) : Int) = pc + ((2 + 2 * prime : Nat) : Int) := by
      omega
    rw [hlength, cells, cells, hprime, loadTable, if_neg (by omega), Int.toNat_natCast, hload,
      hplace]
    rfl
  · rw [List.length_cons, List.length_cons, hlen]
    omega
  · have hplace : pc + 1 + 1 = pc + 2 := by omega
    rw [hplace] at hws
    exact ⟨rfl, rfl, fun j hj => (hws j hj).1, fun j hj => (hws j hj).2⟩

theorem Loads.congr {base : Int} {code code' : Int → Int} {q : Int} {prime : Nat} {ws : List Int}
    (h : Loads base code q prime ws)
    (hcode : ∀ x, q < x → x < q + 2 + prime * 2 → code x = code' x) :
    Loads base code' q prime ws where
  size := h.size
  varBranch := by
    rw [h.varBranch, hcode _ (by omega) (by omega)]
  key j hj := by
    rw [h.key j hj, hcode _ (by omega) (by omega)]
  branch j hj := by
    rw [h.branch j hj, hcode _ (by omega) (by omega)]

theorem Loads.append {base : Int} {code : Int → Int} {q : Int} {prime : Nat} {ws : List Int}
    (h : Loads base code q prime ws) (ws' : List Int) : Loads base code q prime (ws ++ ws') := by
  have hleft : ∀ {i : Nat} {w : Int}, ws[i]? = some w → (ws ++ ws')[i]? = some w := fun hi => by
    rw [List.getElem?_append_left (List.getElem?_eq_some_iff.mp hi).1]
    exact hi
  exact ⟨hleft h.size, hleft h.varBranch, fun j hj => hleft (h.key j hj),
    fun j hj => hleft (h.branch j hj)⟩

section Loading

variable {builtins : Name → Option Nat} {a b d : Assembler} {l : Line}

theorem length_operands {ks : List OperandKind} {os : List Operand}
    (h : a.putOperands builtins ks os = some b) :
    (ks.flatMap OperandKind.words).length = (os.map Operand.size).sum := by
  induction os generalizing a ks with
  | nil =>
      cases ks with
      | nil => rfl
      | cons k ks => cases h
  | cons o os ih =>
      cases ks with
      | nil => cases h
      | cons k ks =>
          obtain ⟨a', hput, hputs⟩ := Option.bind_eq_some_iff.mp h
          have hone : k.words.length = o.size := by
            rw [putOperand.eq_def] at hput
            split at hput
            all_goals first | rfl | cases hput
          rw [List.flatMap_cons, List.length_append, hone, ih hputs, List.map_cons, List.sum_cons]

/-- **The loader keeps in step with the assembler** for one line. -/
theorem loadInstr_line {base : Int} (h : a.putLine builtins l = some b)
    (hop : code a.cc = l.op)
    (hprime : ∀ t, l.operands = .table t → code (a.cc + 1) = (getPrime t.entries.length : Nat))
    (m : Nat) :
    ∃ ws, loadInstr base (cells code a.cc (l.size + m)) = some (ws, cells code b.cc m) ∧
      ws.length = l.size ∧ ∀ t, l.operands = .table t →
        Loads base code (a.cc + 1) (getPrime t.entries.length) (ws.drop 1) := by
  have hcc := (moves_putLine h).cc
  obtain ⟨a₁, a₂, ty, -, hty, himago, -, hrest⟩ := putLine_cases h
  rcases hrest with ⟨os, hos, hhtab, hputs⟩ | ⟨t, a₃, pairs, var, hos, hhtab, -, -⟩
  · have hsize : l.size = ty.loaded.length + 1 := by
      rw [Line.size, hos, loaded_eq_operands himago, length_operands hputs]
      exact Nat.add_comm _ _
    obtain ⟨ws, hload, hlen⟩ := loadWords_cells code base (a.cc + 1) ty.loaded m
    refine ⟨l.op :: ws, ?_, ?_, fun t ht => ?_⟩
    · have hplace : (a.cc : Int) + 1 + ty.loaded.length = b.cc := by omega
      rw [hsize, Nat.add_right_comm, cells, hop, loadInstr, hty, Option.bind_some, if_neg hhtab,
        hload, hplace]
      rfl
    · rw [List.length_cons, hlen, hsize]
    · rw [hos] at ht
      cases ht
  · have hsize : l.size = 2 + 2 * getPrime t.entries.length + 1 := by
      rw [Line.size, hos]
      dsimp only
      omega
    obtain ⟨ws, hload, hlen, hloads⟩ := loadTable_cells (hprime t hos) base m
    refine ⟨l.op :: ws, ?_, ?_, fun t' ht' => ?_⟩
    · have hplace : (a.cc : Int) + 1 + (2 + 2 * getPrime t.entries.length : Nat) = b.cc := by omega
      rw [hsize, Nat.add_right_comm, cells, hop, loadInstr, hty, Option.bind_some, if_pos hhtab,
        hload, hplace]
      rfl
    · rw [List.length_cons, hlen, hsize]
    · obtain rfl : t = t' := Operands.table.inj (hos.symm.trans ht')
      exact hloads

/-- **Every table is loaded as it was written.** -/
theorem filed_loadLoop {base : Int} {ls : List Line} (h : a.putLines builtins ls = some d)
    (hb : a.Below) (hcc : 2 ≤ a.cc) {known : List Name}
    (hknown : ∀ m ∈ known, (a.labelAt m).isSome) (hreg : RegularTables known ls) {n : Nat}
    {code : List Int} (hload : loadLoop base n (cells d.code a.cc (d.cc - a.cc)) = some code)
    {i : Nat} {t : TableSource} (hi : ls[i]? = some l) (ht : l.operands = .table t) :
    ∃ pairs var, Filed d base t (code.drop (((ls.take i).map Line.size).sum + 1)) pairs var := by
  induction ls generalizing a known n code i with
  | nil => simp at hi
  | cons l' ls ih =>
      obtain ⟨b, hput, hputs⟩ := Option.bind_eq_some_iff.mp h
      obtain ⟨hpos, htable, hreg'⟩ := hreg
      have hkeep := keeps_putLines hreg'.positive hputs
      have hmoves := moves_putLine hput
      have hbcc : b.cc = a.cc + l'.size := hmoves.cc
      have hop := code_op hb hcc hpos hput hkeep
      have hprime : ∀ t, l'.operands = .table t →
          d.code (a.cc + 1) = (getPrime t.entries.length : Nat) := fun t ht => by
        obtain ⟨pairs, var, c, -, -, -, hwritten, hsame⟩ :=
          filed_putLine hb hcc hpos hput hkeep ht hknown (htable t ht)
        have hsize : l'.size = 3 + 2 * getPrime t.entries.length := by rw [Line.size, ht]
        rw [hsame _ (by omega) (by omega), ← hwritten.prime]
        congr 1
        omega
      have hdcc := hkeep.cc
      obtain ⟨ws, hinstr, hlen, hloads⟩ := loadInstr_line hput hop hprime (d.cc - b.cc)
      have hlength : d.cc - a.cc = l'.size + (d.cc - b.cc) := by omega
      have hpositive : 0 < l'.size := by
        rw [Line.size]
        split <;> omega
      obtain ⟨w, rest, hcells⟩ : ∃ w rest,
          cells d.code a.cc (l'.size + (d.cc - b.cc)) = w :: rest := by
        obtain ⟨k, hk⟩ := Nat.exists_eq_succ_of_ne_zero (Nat.ne_of_gt hpositive)
        rw [hk, Nat.succ_add]
        exact ⟨_, _, rfl⟩
      rw [hlength, hcells] at hload
      cases n with
      | zero => cases hload
      | succ n =>
          rw [loadLoop, ← hcells, hinstr] at hload
          obtain ⟨code', hload', hcode⟩ := Option.map_eq_some_iff.mp hload
          cases i with
          | zero =>
              obtain rfl := Option.some.inj hi
              obtain ⟨pairs, var, c, hentered, hvar, hpairs, hwritten, hsame⟩ :=
                filed_putLine hb hcc hpos hput hkeep ht hknown (htable t ht)
              refine ⟨pairs, var, hentered, hvar, c, a.cc + 3, by rwa [hpairs], ?_⟩
              have hsize : l'.size = 3 + 2 * getPrime t.entries.length := by rw [Line.size, ht]
              have hplace : (a.cc : Int) + 3 - 2 = a.cc + 1 := by omega
              rw [hplace, hpairs, ← hcode, List.take_zero, List.map_nil, List.sum_nil, Nat.zero_add,
                List.drop_append_of_le_length (by omega)]
              exact ((hloads t ht).append _).congr fun x hx hx' => hsame x (by omega) (by omega)
          | succ i =>
              have hknown' : ∀ m ∈ known ++ l'.labels, (b.labelAt m).isSome := fun m hm => by
                obtain ⟨a₁, hlabels, hkeep₁⟩ := keeps_labels hpos hput
                obtain ⟨hinsert, hline, -⟩ := keeps_insertLabels hlabels
                rcases List.mem_append.mp hm with hm | hm
                · obtain ⟨k, hk⟩ := Option.isSome_iff_exists.mp (hknown m hm)
                  rw [(hinsert.trans hkeep₁).labels _ _ hk]
                  rfl
                · rw [hkeep₁.labels _ _ (hline m hm)]
                  rfl
              have hrec := ih hputs (hb.putLine hput) (by omega) hknown' hreg' hload' hi
              rw [← hcode, List.take_succ_cons, List.map_cons, List.sum_cons, ← hlen, Nat.add_assoc,
                ← List.drop_drop, List.drop_left]
              exact hrec

theorem cells_range (code : Int → Int) (n : Nat) :
    (List.range n).map (fun i : Nat => code i) = cells code 0 n := by
  have hshift : ∀ (n : Nat) (k : Int),
      (List.range n).map (fun i : Nat => code (k + i)) = cells code k n := fun n => by
    induction n with
    | zero => exact fun _ => rfl
    | succ n ih =>
        intro k
        rw [List.range_succ_eq_map, List.map_cons, List.map_map, cells, ← ih]
        congr 1
        · exact congrArg code (Int.add_zero k)
        · refine List.map_congr_left fun i _ => congrArg code ?_
          rw [Nat.succ_eq_add_one]
          omega
  rw [← hshift]
  exact List.map_congr_left fun i _ => congrArg code (Int.zero_add _).symm

/-- The hash table of line `i` of a loaded program. -/
theorem filed_loadCode {p : Assembler.Source} (hd : translate builtins p = some d) {type : Nat}
    {o : Object}
    (ho : d.codegen type = some o) {block : Int} {img : Image} (himg : loadCode block o = some img)
    (hreg : RegularTables p.labels p.lines) {i : Nat} (hi : p.lines[i]? = some l) {t : TableSource}
    (ht : l.operands = .table t) :
    ∃ pairs var, Filed d img.codeBase t (img.code.drop (p.offset i + 1)) pairs var := by
  obtain ⟨a₁, hlabels, hd⟩ := Option.bind_eq_some_iff.mp hd
  obtain ⟨ty, hty, hd⟩ := Option.bind_eq_some_iff.mp hd
  split_ifs at hd with himago
  obtain ⟨a₂, hput, hd⟩ := Option.bind_eq_some_iff.mp hd
  obtain ⟨⟨a₃, imago⟩, hget, hlines⟩ := Option.bind_eq_some_iff.mp hd
  obtain ⟨-, hline, hcc₁⟩ := keeps_insertLabels hlabels
  obtain ⟨hcells, -, hlabels₂, -⟩ := code_putCodes hput
  obtain ⟨hkeep₃, hlabels₃⟩ := keeps_getFun hget
  have hkeep₂ := keeps_putCodes hput
  have hcc₂ : a₂.cc = 2 := by
    rw [(moves_putCodes hput).cc, hcc₁]
    rfl
  have hcc₃ : a₃.cc = 2 := by rw [(moves_getFun hget).cc, hcc₂]
  have hstart : start.Below := fun x ⟨n, hn, _⟩ => absurd hn List.not_mem_nil
  have hbelow₁ := hstart.insertLabels hlabels
  have hnone : ∀ x, ¬ a₂.Waiting x := fun x hx => by
    rw [Waiting, hlabels₂] at hx
    have hlt := hbelow₁ x hx
    obtain ⟨n, hn, hneg, rfl⟩ := hx
    rw [hcc₁] at hlt
    change -n.val < (0 : Int) at hlt
    omega
  have hbelow₃ : Below { a₃ with imago := imago } := fun x hx => by
    rw [Waiting] at hx
    dsimp only at hx
    rw [hlabels₃] at hx
    exact absurd hx (hnone x)
  have hknown : ∀ m ∈ p.labels, (labelAt { a₃ with imago := imago } m).isSome := fun m hm => by
    have hm' := hkeep₃.labels _ _ (hkeep₂.labels _ _ (hline m hm))
    change (a₃.labelAt m).isSome = true
    rw [hm']
    rfl
  -- the imago instruction, of two words
  have hop : d.code 0 = (p.op : Int) := by
    have hfirst := hcells 0 p.op rfl
    have hrest := hkeep₃.code 0 (by omega) (by decide) (hnone 0)
    have hlast := (keeps_putLines hreg.positive hlines).code 0 (by dsimp only; omega) (by decide)
      (fun hwait => by
        rw [Waiting] at hwait
        dsimp only at hwait
        rw [hlabels₃] at hwait
        exact hnone 0 hwait)
    dsimp only at hlast
    rw [hlast, hrest, ← hfirst, hcc₁]
    rfl
  have hdcc := (keeps_putLines hreg.positive hlines).cc
  rw [codegen] at ho
  split_ifs at ho
  obtain rfl := Option.some.inj ho
  obtain ⟨code, hload, rfl⟩ := Option.map_eq_some_iff.mp himg
  dsimp only at hload hdcc ⊢
  rw [cells_range, length_cells] at hload
  obtain ⟨n, hn⟩ : ∃ n, d.cc = n + 2 := ⟨d.cc - 2, by omega⟩
  have hloaded : ty.loaded = [true] := by cases ty <;> first | rfl | cases himago
  have hnot : ty ≠ .htab := fun heq => by
    rw [heq] at himago
    cases himago
  rw [hn, cells, hop] at hload
  have hinstr :
      loadInstr (block + 2 * d.procs.length) ((p.op : Int) :: cells d.code (0 + 1) (n + 1)) =
        some ([(p.op : Int), block + 2 * d.procs.length + d.code (0 + 1)],
          cells d.code (0 + 1 + 1) n) := by
    rw [loadInstr, hty, Option.bind_some, if_neg hnot, hloaded]
    rfl
  rw [loadLoop, hinstr] at hload
  obtain ⟨code', hload', rfl⟩ := Option.map_eq_some_iff.mp hload
  have hload₃ : loadLoop (block + 2 * d.procs.length) (n + 1)
      (cells d.code (a₃.cc : Int) (d.cc - a₃.cc)) = some code' := by
    rw [hcc₃, hn]
    exact hload'
  have hfiled := filed_loadLoop hlines hbelow₃ (by dsimp only; omega) hknown hreg hload₃ hi ht
  have hoffset : p.offset i + 1 = 2 + (((p.lines.take i).map Line.size).sum + 1) := by
    rw [Source.offset, Nat.add_assoc]
  rw [hoffset, ← List.drop_drop]
  exact hfiled

end Loading

end Mlvm
