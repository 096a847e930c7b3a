import Mlvm.Assembler.Load
import Mathlib.Data.List.Forall2

/-!
# What the assembler keeps

A word that has been put changes only when a label is defined for which it **waits**; a label that
is defined and a name that is in the table stay where they are. The two exceptions are the operand
of the imago instruction, which the entry procedure fills in, and a hash table with a negative key,
which is written to the left of the table.
-/

namespace Mlvm

namespace Assembler

/-- A request is for this cell. -/
def Waiting (a : Assembler) (x : Int) : Prop := ∃ n ∈ a.labels, n.val < 0 ∧ -n.val = x

/-- Requests are for cells that have been put. -/
def Below (a : Assembler) : Prop := ∀ x, a.Waiting x → x < a.cc

/-- `b` comes after `a`. -/
structure Keeps (a b : Assembler) : Prop where
  names : ∀ s k, offsetOf a.names s = some k → offsetOf b.names s = some k
  labels : ∀ l k, a.labelAt l = some k → b.labelAt l = some k
  waiting : ∀ x, b.Waiting x → a.Waiting x ∨ a.cc ≤ x
  cc : a.cc ≤ b.cc
  code : ∀ x : Int, x < a.cc → x ≠ 1 → ¬ a.Waiting x → b.code x = a.code x

variable {a b c : Assembler}

theorem Keeps.refl (a : Assembler) : Keeps a a :=
  ⟨fun _ _ => id, fun _ _ => id, fun _ => Or.inl, Nat.le_refl _, fun _ _ _ _ => rfl⟩

theorem Keeps.trans (h : Keeps a b) (h' : Keeps b c) : Keeps a c := by
  have hcc := h.cc
  refine ⟨fun s k hs => h'.names s k (h.names s k hs),
    fun l k hl => h'.labels l k (h.labels l k hl),
    fun x hx => ?_, Nat.le_trans h.cc h'.cc, fun x hx hone hwait => ?_⟩
  · rcases h'.waiting x hx with hb | hle
    · exact h.waiting x hb
    · exact Or.inr (by omega)
  · have hb : ¬ b.Waiting x := fun hb => (h.waiting x hb).elim hwait (by omega)
    rw [h'.code x (by omega) hone hb, h.code x hx hone hwait]

/-- Nothing but words from the next one on is put. -/
theorem keeps_of_code (hnames : b.names = a.names) (hlabels : b.labels = a.labels)
    (hcc : a.cc ≤ b.cc) (hcode : ∀ x : Int, x < a.cc → x ≠ 1 → b.code x = a.code x) :
    Keeps a b := by
  refine ⟨fun s k hs => by rwa [hnames], fun l k hl => ?_, fun x hx => Or.inl ?_, hcc,
    fun x hx hone _ => hcode x hx hone⟩
  · rwa [labelAt, hlabels]
  · rwa [Waiting, hlabels] at hx

/-! ## Words -/

theorem code_putCode {w : Int} (h : a.putCode w = some b) :
    b = { a with code := Function.update a.code a.cc w, cc := a.cc + 1 } := by
  rw [putCode] at h
  split_ifs at h
  exact (Option.some.inj h).symm

theorem keeps_putCode {w : Int} (h : a.putCode w = some b) : Keeps a b := by
  obtain rfl := code_putCode h
  exact keeps_of_code rfl rfl (Nat.le_succ _) fun x hx _ => Function.update_of_ne (by omega) ..

/-- The words are put, and those before them stay. -/
theorem code_putCodes {ws : List Int} (h : a.putCodes ws = some b) :
    (∀ i w, ws[i]? = some w → b.code (a.cc + (i : Nat)) = w) ∧
      (∀ x < (a.cc : Int), b.code x = a.code x) ∧ b.labels = a.labels ∧ b.names = a.names := by
  induction ws generalizing a with
  | nil =>
      obtain rfl := Option.some.inj h
      exact ⟨fun i w hw => by simp at hw, fun _ _ => rfl, rfl, rfl⟩
  | cons w ws ih =>
      obtain ⟨a', hput, hputs⟩ := Option.bind_eq_some_iff.mp h
      obtain ⟨hcells, hbelow, hlabels, hnames⟩ := ih hputs
      obtain rfl := code_putCode hput
      dsimp only at hbelow
      refine ⟨fun i v hv => ?_, fun x hx => ?_, hlabels, hnames⟩
      · cases i with
        | zero =>
            obtain rfl := Option.some.inj hv
            rw [Nat.cast_zero, Int.add_zero, hbelow _ (by omega)]
            exact Function.update_self ..
        | succ i =>
            rw [← hcells i v hv]
            congr 1
            dsimp only
            omega
      · rw [hbelow x (by omega)]
        exact Function.update_of_ne (by omega) ..

theorem keeps_putCodes {ws : List Int} (h : a.putCodes ws = some b) : Keeps a b := by
  obtain ⟨-, hbelow, hlabels, hnames⟩ := code_putCodes h
  exact keeps_of_code hnames hlabels (by rw [(moves_putCodes h).cc]; omega)
    fun x hx _ => hbelow x hx

/-! ## Names -/

theorem offsetOf_append {ns : List Name} {s : Name} {k : Nat} (h : offsetOf ns s = some k)
    (ms : List Name) : offsetOf (ns ++ ms) s = some k := by
  induction ns generalizing k with
  | nil => cases h
  | cons n ns ih =>
      rw [List.cons_append, offsetOf]
      rw [offsetOf] at h
      by_cases hn : n = s
      · rwa [if_pos hn] at h ⊢
      · rw [if_neg hn] at h ⊢
        obtain ⟨j, hj, rfl⟩ := Option.map_eq_some_iff.mp h
        rw [ih hj]
        rfl

theorem offsetOf_append_self {ns : List Name} {s : Name} (h : offsetOf ns s = none) :
    offsetOf (ns ++ [s]) s = some (namesSize ns) := by
  induction ns with
  | nil => exact if_pos rfl
  | cons n ns ih =>
      rw [offsetOf] at h
      by_cases hn : n = s
      · rw [if_pos hn] at h
        cases h
      · rw [if_neg hn] at h
        rw [List.cons_append, offsetOf, if_neg hn, ih (Option.map_eq_none_iff.mp h)]
        exact congrArg some (Nat.add_comm _ _)

theorem keeps_lookupName {s : Name} {loc : Int} (h : a.lookupName s = some (b, loc)) :
    Keeps a b ∧ b.labels = a.labels ∧ ∃ k : Nat, offsetOf b.names s = some k ∧ loc = k := by
  rw [lookupName] at h
  split at h
  · rename_i pos hpos
    obtain ⟨rfl, rfl⟩ := Prod.mk.inj (Option.some.inj h)
    exact ⟨Keeps.refl a, rfl, pos, hpos, rfl⟩
  · rename_i hnone
    split_ifs at h
    obtain ⟨rfl, rfl⟩ := Prod.mk.inj (Option.some.inj h)
    refine ⟨⟨fun t k ht => offsetOf_append ht _, fun _ _ => id, fun _ => Or.inl, Nat.le_refl _,
      fun _ _ _ _ => rfl⟩, rfl, _, offsetOf_append_self hnone, rfl⟩

/-- The value of a constant in a name table. -/
def conValue (names : List Name) : Name → Option Int
  | [] => some 0
  | [c] => some (charValue c)
  | s => (offsetOf names s).map fun pos : Nat => (pos : Int) + ASCII_SIZE

theorem Keeps.conValue (h : Keeps a b) {s : Name} {v : Int} (hs : conValue a.names s = some v) :
    conValue b.names s = some v := by
  match s, hs with
  | [], hs => exact hs
  | [_], hs => exact hs
  | c₁ :: c₂ :: s, hs =>
      obtain ⟨pos, hpos, rfl⟩ := Option.map_eq_some_iff.mp hs
      exact Option.map_eq_some_iff.mpr ⟨pos, h.names _ _ hpos, rfl⟩

theorem keeps_getCon {s : Name} {w : Int} (h : a.getCon s = some (b, w)) :
    Keeps a b ∧ b.labels = a.labels ∧
      ∃ v, conValue b.names s = some v ∧ w = (Word.makeCon v).bits := by
  match s, h with
  | [], h =>
      obtain ⟨rfl, rfl⟩ := Prod.mk.inj (Option.some.inj h)
      exact ⟨Keeps.refl a, rfl, _, rfl, rfl⟩
  | [_], h =>
      obtain ⟨rfl, rfl⟩ := Prod.mk.inj (Option.some.inj h)
      exact ⟨Keeps.refl a, rfl, _, rfl, rfl⟩
  | c₁ :: c₂ :: s, h =>
      obtain ⟨⟨a', loc⟩, hlook, hmap⟩ := Option.map_eq_some_iff.mp h
      obtain ⟨rfl, rfl⟩ := Prod.mk.inj hmap
      obtain ⟨hkeep, hlabels, k, hk, rfl⟩ := keeps_lookupName hlook
      exact ⟨hkeep, hlabels, _, Option.map_eq_some_iff.mpr ⟨k, hk, rfl⟩, rfl⟩

theorem keeps_getFun {s : Name} {arity : Nat} {w : Int} (h : a.getFun s arity = some (b, w)) :
    Keeps a b ∧ b.labels = a.labels := by
  have hmap : ∀ {s : Name}, (a.lookupName s).map
      (fun x => (x.1, rawFun (x.2 + ASCII_SIZE) arity)) = some (b, w) →
      Keeps a b ∧ b.labels = a.labels := fun h => by
    obtain ⟨⟨a', loc⟩, hlook, hmap⟩ := Option.map_eq_some_iff.mp h
    obtain ⟨rfl, -⟩ := Prod.mk.inj hmap
    obtain ⟨hkeep, hlabels, -⟩ := keeps_lookupName hlook
    exact ⟨hkeep, hlabels⟩
  match s, h with
  | [], h => exact hmap h
  | [_], h =>
      obtain ⟨rfl, -⟩ := Prod.mk.inj (Option.some.inj h)
      exact ⟨Keeps.refl a, rfl⟩
  | _ :: _ :: _, h => exact hmap h

/-! ## Labels -/

/-- An undefined label waits for the next cell; a defined one changes nothing. -/
theorem keeps_getLabel {l : Name} {loc : Int} (h : a.getLabel l = some (b, loc)) : Keeps a b := by
  rw [getLabel] at h
  split at h
  · obtain ⟨rfl, -⟩ := Prod.mk.inj (Option.some.inj h)
    exact Keeps.refl a
  · rename_i hnone
    split_ifs at h
    obtain ⟨rfl, -⟩ := Prod.mk.inj (Option.some.inj h)
    refine ⟨fun _ _ => id, fun l' k hl => ?_, fun x hx => ?_, Nat.le_refl _, fun _ _ _ _ => rfl⟩
    · have hne : l' ≠ l := fun heq => by
        subst heq
        rw [hnone] at hl
        cases hl
      rw [labelAt, List.find?_cons_of_neg (by simpa using fun heq => absurd heq.symm hne)]
      exact hl
    · obtain ⟨n, hn, hneg, rfl⟩ := hx
      rcases List.mem_cons.mp hn with rfl | hn
      · exact Or.inr (Int.le_of_eq (Int.neg_neg _).symm)
      · exact Or.inl ⟨n, hn, hneg, rfl⟩

theorem getLabel_defined {l : Name} {loc : Int} (hdef : (a.labelAt l).isSome)
    (h : a.getLabel l = some (b, loc)) : b = a ∧ a.labelAt l = some loc := by
  rw [getLabel] at h
  split at h
  · rename_i k hk
    obtain ⟨rfl, rfl⟩ := Prod.mk.inj (Option.some.inj h)
    exact ⟨rfl, hk⟩
  · rename_i hnone
    rw [hnone] at hdef
    cases hdef

theorem fixRequests_of_ne {l : Name} {loc x : Int} {code : Int → Int} {ns : List LabelNode}
    (h : ∀ n ∈ ns, n.name = l → -n.val ≠ x) : fixRequests l loc code ns x = code x := by
  induction ns generalizing code with
  | nil => rfl
  | cons n ns ih =>
      rw [fixRequests, ih fun m hm => h m (List.mem_cons_of_mem _ hm)]
      split_ifs with hn
      · exact Function.update_of_ne (h n List.mem_cons_self hn).symm ..
      · rfl

theorem keeps_insertLabel {l : Name} (h : a.insertLabel l = some b) :
    Keeps a b ∧ b.labelAt l = some (a.cc : Int) ∧ b.cc = a.cc := by
  rw [insertLabel] at h
  split_ifs at h with hguard
  obtain rfl := Option.some.inj h
  obtain ⟨-, hnone⟩ := not_or.mp hguard
  rw [Option.not_isSome_iff_eq_none] at hnone
  refine ⟨⟨fun _ _ => id, fun l' k hl => ?_, fun x hx => ?_, Nat.le_refl _,
    fun x hx hone hwait => ?_⟩, ?_, rfl⟩
  · have hne : l' ≠ l := fun heq => by
      subst heq
      rw [hnone] at hl
      cases hl
    rw [labelAt, List.find?_cons_of_neg (by simpa using fun heq => absurd heq.symm hne),
      List.find?_filter]
    rw [labelAt] at hl
    rw [← hl]
    congr 2
    funext n
    by_cases hn : n.name = l'
    · simp [hn, hne]
    · simp [hn]
  · obtain ⟨n, hn, hneg, rfl⟩ := hx
    rcases List.mem_cons.mp hn with rfl | hn
    · exact absurd hneg (Int.not_lt.mpr (Int.natCast_nonneg _))
    · exact Or.inl ⟨n, (List.mem_filter.mp hn).1, hneg, rfl⟩
  · refine fixRequests_of_ne fun n hn hname heq => hwait ⟨n, hn, ?_, heq⟩
    -- a label that is not defined has requests only
    by_contra hpos
    rw [labelAt, Option.map_eq_none_iff, List.find?_eq_none] at hnone
    exact hnone n hn (by simpa using ⟨hname, Int.not_lt.mp hpos⟩)
  · rw [labelAt, List.find?_cons_of_pos (by simp)]
    rfl

/-- The labels of a line are defined after it. -/
theorem keeps_insertLabels {ls : List Name} (h : a.insertLabels ls = some b) :
    Keeps a b ∧ (∀ l ∈ ls, b.labelAt l = some (a.cc : Int)) ∧ b.cc = a.cc := by
  induction ls generalizing a with
  | nil =>
      obtain rfl := Option.some.inj h
      exact ⟨Keeps.refl a, fun l hl => absurd hl List.not_mem_nil, rfl⟩
  | cons l ls ih =>
      obtain ⟨a', hput, hputs⟩ := Option.bind_eq_some_iff.mp h
      obtain ⟨hkeep, hlabel, hcc⟩ := keeps_insertLabel hput
      obtain ⟨hkeeps, hlabels, hcc'⟩ := ih hputs
      refine ⟨hkeep.trans hkeeps, fun l' hl' => ?_, hcc'.trans hcc⟩
      rcases List.mem_cons.mp hl' with rfl | hl'
      · exact hkeeps.labels _ _ hlabel
      · rw [hlabels l' hl', hcc]

/-! ## Hash tables -/

/-- A table without constants of a single character that is negative. -/
def TableSource.Positive (t : TableSource) : Prop :=
  ∀ e ∈ t.entries, ∀ c, e.1 = [c] → c.toNat < 128

theorem conValue_nonneg {names : List Name} {s : Name} {v : Int} (hs : conValue names s = some v)
    (hpos : ∀ c, s = [c] → c.toNat < 128) : 0 ≤ v := by
  match s, hs with
  | [], hs =>
      obtain rfl := Option.some.inj hs
      exact Int.le_refl 0
  | [c], hs =>
      obtain rfl := Option.some.inj hs
      rw [charValue, if_pos (hpos c rfl)]
      exact Int.natCast_nonneg _
  | c₁ :: c₂ :: s, hs =>
      obtain ⟨pos, -, rfl⟩ := Option.map_eq_some_iff.mp hs
      rw [ASCII_SIZE]
      omega

/-- The pairs have the words of the constants and, where they are defined, the labels. -/
theorem keeps_getEntries {es : List (Name × Name)} {pairs : List (Int × Int)}
    (h : a.getEntries es = some (b, pairs)) :
    Keeps a b ∧ List.Forall₂ (fun e p => (∃ v, conValue b.names e.1 = some v ∧
        p.1 = (Word.makeCon v).bits) ∧ ((a.labelAt e.2).isSome → a.labelAt e.2 = some p.2))
      es pairs := by
  induction es generalizing a pairs with
  | nil =>
      obtain ⟨rfl, rfl⟩ := Prod.mk.inj (Option.some.inj h)
      exact ⟨Keeps.refl a, List.Forall₂.nil⟩
  | cons e es ih =>
      obtain ⟨⟨a₁, term⟩, hcon, h⟩ := Option.bind_eq_some_iff.mp h
      obtain ⟨⟨a₂, loc⟩, hlabel, h⟩ := Option.bind_eq_some_iff.mp h
      obtain ⟨⟨a₃, rest⟩, hrest, h⟩ := Option.bind_eq_some_iff.mp h
      obtain ⟨rfl, rfl⟩ := Prod.mk.inj (Option.some.inj h)
      obtain ⟨hkeep₁, hlabels, v, hv, rfl⟩ := keeps_getCon hcon
      have hkeep₂ := keeps_getLabel hlabel
      obtain ⟨hkeep₃, hpairs⟩ := ih hrest
      have hsame : ∀ l, a₁.labelAt l = a.labelAt l := fun l => by rw [labelAt, hlabels, labelAt]
      have hkeep := hkeep₁.trans hkeep₂
      refine ⟨hkeep.trans hkeep₃, List.Forall₂.cons ⟨⟨v, ?_, rfl⟩, fun hdef => ?_⟩
        (hpairs.imp fun e' p hp => ⟨hp.1, fun hdef => ?_⟩)⟩
      · exact (hkeep₂.trans hkeep₃).conValue hv
      · rw [← hsame] at hdef ⊢
        exact (getLabel_defined hdef hlabel).2
      · obtain ⟨k, hk⟩ := Option.isSome_iff_exists.mp hdef
        have hk' := hkeep.labels _ _ hk
        rw [hk, ← hk']
        exact hp.2 (by rw [hk']; rfl)

/-- When all labels are defined, no cell waits for one. -/
theorem labels_getEntries {es : List (Name × Name)} {pairs : List (Int × Int)}
    (hdef : ∀ e ∈ es, (a.labelAt e.2).isSome) (h : a.getEntries es = some (b, pairs)) :
    b.labels = a.labels := by
  induction es generalizing a pairs with
  | nil =>
      obtain ⟨rfl, rfl⟩ := Prod.mk.inj (Option.some.inj h)
      rfl
  | cons e es ih =>
      obtain ⟨⟨a₁, term⟩, hcon, h⟩ := Option.bind_eq_some_iff.mp h
      obtain ⟨⟨a₂, loc⟩, hlabel, h⟩ := Option.bind_eq_some_iff.mp h
      obtain ⟨⟨a₃, rest⟩, hrest, h⟩ := Option.bind_eq_some_iff.mp h
      obtain ⟨rfl, rfl⟩ := Prod.mk.inj (Option.some.inj h)
      obtain ⟨-, hlabels, -⟩ := keeps_getCon hcon
      have hsame : ∀ l, a₁.labelAt l = a.labelAt l := fun l => by rw [labelAt, hlabels, labelAt]
      obtain ⟨rfl, -⟩ := getLabel_defined (by rw [hsame]; exact hdef e List.mem_cons_self) hlabel
      rw [ih (fun e' he' => by rw [hsame]; exact hdef e' (List.mem_cons_of_mem _ he')) hrest,
        hlabels]

theorem keys_positive {names : List Name} {es : List (Name × Name)} {pairs : List (Int × Int)}
    {q : Name × Name → Int × Int → Prop}
    (h : List.Forall₂ (fun e p => (∃ v, conValue names e.1 = some v ∧
      p.1 = (Word.makeCon v).bits) ∧ q e p) es pairs)
    (hpos : ∀ e ∈ es, ∀ c, e.1 = [c] → c.toNat < 128) : ∀ p ∈ pairs, 0 < p.1 := by
  induction h with
  | nil => exact fun p hp => absurd hp List.not_mem_nil
  | cons hhead _ ih =>
      intro p hp
      rcases List.mem_cons.mp hp with rfl | hp
      · obtain ⟨⟨v, hv, hterm⟩, -⟩ := hhead
        have hnonneg := conValue_nonneg hv (hpos _ List.mem_cons_self)
        rw [hterm, Word.makeCon, Word.bits]
        omega
      · exact ih (fun e he => hpos e (List.mem_cons_of_mem _ he)) p hp

/-- What `get_table` reads. -/
theorem keeps_getTable {t : TableSource} {pairs : List (Int × Int)} {var : Int}
    (h : a.getTable t = some (b, pairs, var)) :
    Keeps a b ∧ (t.Positive → ∀ e ∈ pairs, 0 < e.1) := by
  rw [getTable] at h
  split_ifs at h
  obtain ⟨⟨a₁, pairs₁⟩, hentries, h⟩ := Option.bind_eq_some_iff.mp h
  obtain ⟨⟨a₂, loc⟩, hlabel, h⟩ := Option.bind_eq_some_iff.mp h
  obtain ⟨rfl, hpair⟩ := Prod.mk.inj (Option.some.inj h)
  obtain ⟨rfl, -⟩ := Prod.mk.inj hpair
  obtain ⟨hkeep, hpairs⟩ := keeps_getEntries hentries
  exact ⟨hkeep.trans (keeps_getLabel hlabel), fun hpos => keys_positive hpairs hpos⟩

variable {code : Int → Int} {pc : Int} {prime : Nat}

/-- The loop of the writer fills one slot of the table, or none. -/
theorem putHashLoop_cells (e : Int × Int) (n i : Nat) :
    putHashLoop code pc prime e n i = code ∨ ∃ j : Nat, putHashLoop code pc prime e n i =
      Function.update (Function.update code (pc + j * 2) e.1) (pc + j * 2 + 1) e.2 := by
  induction n generalizing i with
  | zero => exact Or.inl rfl
  | succ n ih =>
      rw [putHashLoop]
      split_ifs
      · exact Or.inr ⟨i, rfl⟩
      · exact Or.inl rfl
      · have hnext : ((i : Int) + 1).tmod prime = ((i + 1) % prime : Nat) := by
          rw [Int.tmod_eq_emod_of_nonneg (by omega)]
          rfl
        rw [hnext]
        exact ih _

theorem putHashCode_eq {e : Int × Int} (he : 0 ≤ e.1) :
    putHashCode pc prime code e = putHashLoop code pc prime e prime (e.1.toNat % prime : Nat) := by
  rw [putHashCode, Int.tmod_eq_emod_of_nonneg he, Int.natCast_mod, Int.toNat_of_nonneg he]

theorem putHashCodes_below {pairs : List (Int × Int)} (hpairs : ∀ e ∈ pairs, 0 < e.1) {x : Int}
    (hx : x < pc) : pairs.foldl (putHashCode pc prime) code x = code x := by
  induction pairs generalizing code with
  | nil => rfl
  | cons e pairs ih =>
      rw [List.foldl_cons, ih fun e' he' => hpairs e' (List.mem_cons_of_mem _ he'),
        putHashCode_eq (Int.le_of_lt (hpairs e List.mem_cons_self))]
      rcases putHashLoop_cells e prime (e.1.toNat % prime) with heq | ⟨j, heq⟩
      · rw [heq]
      · rw [heq, Function.update_of_ne (by omega), Function.update_of_ne (by omega)]

theorem keeps_putTable {pairs : List (Int × Int)} {var : Int} (hpairs : ∀ e ∈ pairs, 0 < e.1)
    (h : a.putTable pairs var = some b) : Keeps a b ∧ b.labels = a.labels := by
  obtain ⟨a', hputs, hb⟩ := Option.bind_eq_some_iff.mp h
  obtain rfl := Option.some.inj hb
  obtain ⟨-, hbelow, hlabels, hnames⟩ := code_putCodes hputs
  refine ⟨keeps_of_code hnames hlabels ?_ fun x hx _ => ?_, hlabels⟩
  · dsimp only
    rw [(moves_putCodes hputs).cc]
    omega
  · rw [← hbelow x hx]
    exact putHashCodes_below hpairs (by omega)

/-! ## Lines -/

variable {builtins : Name → Option Nat}

theorem keeps_putProcEntry {t : Int} (h : a.putProcEntry t = some b) : Keeps a b := by
  rw [putProcEntry] at h
  split_ifs at h
  obtain ⟨a', hput, hb⟩ := Option.map_eq_some_iff.mp h
  obtain rfl := code_putCode hput
  split_ifs at hb
  · subst hb
    refine keeps_of_code rfl rfl (Nat.le_succ _) fun x hx hone => ?_
    dsimp only
    rw [Function.update_of_ne hone]
    exact Function.update_of_ne (Int.ne_of_lt hx) ..
  · subst hb
    exact keeps_of_code rfl rfl (Nat.le_succ _) fun x hx _ =>
      Function.update_of_ne (Int.ne_of_lt hx) ..

theorem keeps_putOperand {k : OperandKind} {o : Operand} (h : a.putOperand builtins k o = some b) :
    Keeps a b := by
  rw [putOperand.eq_def] at h
  split at h
  · exact keeps_putCode h
  · obtain ⟨⟨a', w⟩, hget, hput⟩ := Option.bind_eq_some_iff.mp h
    exact (keeps_getLabel hget).trans (keeps_putCode hput)
  · obtain ⟨⟨a', w⟩, hget, hput⟩ := Option.bind_eq_some_iff.mp h
    exact (keeps_getCon hget).1.trans (keeps_putCode hput)
  · obtain ⟨⟨a', w⟩, hget, hput⟩ := Option.bind_eq_some_iff.mp h
    exact (keeps_getFun hget).1.trans (keeps_putCode hput)
  · obtain ⟨n, -, hput⟩ := Option.bind_eq_some_iff.mp h
    exact keeps_putCode hput
  · exact keeps_putCode h
  · obtain ⟨⟨a', w⟩, hget, hput⟩ := Option.bind_eq_some_iff.mp h
    exact (keeps_getFun hget).1.trans (keeps_putProcEntry hput)
  · exact keeps_putCodes h
  · cases h

theorem keeps_putOperands {ks : List OperandKind} {os : List Operand}
    (h : a.putOperands builtins ks os = some b) : Keeps a b := by
  induction os generalizing a ks with
  | nil =>
      cases ks with
      | nil =>
          obtain rfl := Option.some.inj h
          exact Keeps.refl a
      | cons k ks => cases h
  | cons o os ih =>
      cases ks with
      | nil => cases h
      | cons k ks =>
          obtain ⟨a', hput, hputs⟩ := Option.bind_eq_some_iff.mp h
          exact (keeps_putOperand hput).trans (ih hputs)

/-- A line whose table has no negative constants. -/
def Line.Positive (l : Line) : Prop := ∀ t, l.operands = .table t → t.Positive

/-- A line keeps what its own labels leave. -/
theorem keeps_labels {l : Line} (hpos : l.Positive) (h : a.putLine builtins l = some b) :
    ∃ a₁, a.insertLabels l.labels = some a₁ ∧ Keeps a₁ b := by
  obtain ⟨a₁, a₂, ty, hlabels, -, -, hput, hrest⟩ := putLine_cases h
  refine ⟨a₁, hlabels, (keeps_putCode hput).trans ?_⟩
  rcases hrest with ⟨os, -, -, hputs⟩ | ⟨t, a₃, pairs, var, hos, -, hget, hputs⟩
  · exact keeps_putOperands hputs
  · obtain ⟨hkeep, hpairs⟩ := keeps_getTable hget
    exact hkeep.trans (keeps_putTable (hpairs (hpos t hos)) hputs).1

theorem keeps_putLine {l : Line} (hpos : l.Positive) (h : a.putLine builtins l = some b) :
    Keeps a b := by
  obtain ⟨a₁, hlabels, hkeep⟩ := keeps_labels hpos h
  exact (keeps_insertLabels hlabels).1.trans hkeep

theorem keeps_putLines {ls : List Line} (hpos : ∀ l ∈ ls, l.Positive)
    (h : a.putLines builtins ls = some b) : Keeps a b := by
  induction ls generalizing a with
  | nil =>
      obtain rfl := Option.some.inj h
      exact Keeps.refl a
  | cons l ls ih =>
      obtain ⟨a', hput, hputs⟩ := Option.bind_eq_some_iff.mp h
      exact (keeps_putLine (hpos l List.mem_cons_self) hput).trans
        (ih (fun l' hl' => hpos l' (List.mem_cons_of_mem _ hl')) hputs)

/-! ## Between lines no request is open for the next cell -/

theorem Below.requests (h : a.Below) : a.RequestsBelow := fun n hn hneg =>
  Int.le_of_lt (h _ ⟨n, hn, hneg, rfl⟩)

theorem RequestsBelow.below (h : a.RequestsBelow) (hlabels : b.labels = a.labels)
    (hcc : a.cc < b.cc) : b.Below := by
  rintro x ⟨n, hn, hneg, rfl⟩
  rw [hlabels] at hn
  have hle := h n hn hneg
  omega

theorem RequestsBelow.putCode {w : Int} (h : a.RequestsBelow) (hput : a.putCode w = some b) :
    b.Below := by
  obtain rfl := code_putCode hput
  exact h.below rfl (Nat.lt_succ_self _)

theorem RequestsBelow.putOperand {k : OperandKind} {o : Operand} (hr : a.RequestsBelow)
    (h : a.putOperand builtins k o = some b) : b.Below := by
  rw [Assembler.putOperand.eq_def] at h
  split at h
  · exact hr.putCode h
  · obtain ⟨⟨a', w⟩, hget, hput⟩ := Option.bind_eq_some_iff.mp h
    exact ((moves_getLabel hget).requests hr).putCode hput
  · obtain ⟨⟨a', w⟩, hget, hput⟩ := Option.bind_eq_some_iff.mp h
    exact ((moves_getCon hget).requests hr).putCode hput
  · obtain ⟨⟨a', w⟩, hget, hput⟩ := Option.bind_eq_some_iff.mp h
    exact ((moves_getFun hget).requests hr).putCode hput
  · obtain ⟨n, -, hput⟩ := Option.bind_eq_some_iff.mp h
    exact hr.putCode hput
  · exact hr.putCode h
  · obtain ⟨⟨a', w⟩, hget, hput⟩ := Option.bind_eq_some_iff.mp h
    have hr' := (moves_getFun hget).requests hr
    change a'.putProcEntry w = some b at hput
    rw [putProcEntry] at hput
    split_ifs at hput
    obtain ⟨a'', hword, hb⟩ := Option.map_eq_some_iff.mp hput
    obtain rfl := code_putCode hword
    split_ifs at hb <;> subst hb
    · exact hr'.below rfl (Nat.lt_succ_self _)
    · exact hr'.below rfl (Nat.lt_succ_self _)
  · obtain ⟨-, -, hlabels, -⟩ := code_putCodes h
    refine hr.below hlabels ?_
    rw [(moves_putCodes h).cc]
    exact Nat.lt_add_of_pos_right (Nat.succ_pos _)
  · cases h

theorem Below.putOperands {ks : List OperandKind} {os : List Operand} (hb : a.Below)
    (h : a.putOperands builtins ks os = some b) : b.Below := by
  induction os generalizing a ks with
  | nil =>
      cases ks with
      | nil =>
          obtain rfl := Option.some.inj h
          exact hb
      | cons k ks => cases h
  | cons o os ih =>
      cases ks with
      | nil => cases h
      | cons k ks =>
          obtain ⟨a', hput, hputs⟩ := Option.bind_eq_some_iff.mp h
          exact ih (hb.requests.putOperand hput) hputs

theorem Below.insertLabels {ls : List Name} (hb : a.Below) (h : a.insertLabels ls = some b) :
    b.Below := by
  induction ls generalizing a with
  | nil =>
      obtain rfl := Option.some.inj h
      exact hb
  | cons l ls ih =>
      obtain ⟨a', hput, hputs⟩ := Option.bind_eq_some_iff.mp h
      refine ih (a := a') ?_ hputs
      rw [insertLabel] at hput
      split_ifs at hput
      obtain rfl := Option.some.inj hput
      rintro y ⟨n, hn, hneg, rfl⟩
      rcases List.mem_cons.mp hn with rfl | hn
      · exact absurd hneg (Int.not_lt.mpr (Int.natCast_nonneg _))
      · exact hb _ ⟨n, (List.mem_filter.mp hn).1, hneg, rfl⟩

/-- **Between lines** all requests are for cells that have been put. -/
theorem Below.putLine {l : Line} (hb : a.Below) (h : a.putLine builtins l = some b) : b.Below := by
  obtain ⟨a₁, a₂, ty, hlabels, -, -, hput, hrest⟩ := putLine_cases h
  have hop := (hb.insertLabels hlabels).requests.putCode hput
  rcases hrest with ⟨os, -, -, hputs⟩ | ⟨t, a₃, pairs, var, -, -, hget, hputs⟩
  · exact hop.putOperands hputs
  · have hr := (moves_getTable hget).1.requests hop.requests
    obtain ⟨a', hwords, hb'⟩ := Option.bind_eq_some_iff.mp hputs
    obtain rfl := Option.some.inj hb'
    obtain ⟨-, -, hsame, -⟩ := code_putCodes hwords
    refine hr.below hsame ?_
    dsimp only
    rw [(moves_putCodes hwords).cc]
    exact Nat.lt_add_of_pos_right (Nat.succ_pos _)

end Assembler

end Mlvm
