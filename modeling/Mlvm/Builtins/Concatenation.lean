import Mlvm.Builtins.AtomConcat
import Mlvm.Creator.Interning
import Mlvm.Creator.Source

/-!
# `atom_concat/3` is concatenation

**Names are read** from the table as long as they are not of one character: those are codes, and
`name_ptr` makes an address before the table of them.

**Names are made** by `search_index`, also those of one character, which have a code already. The
stack may move, and the variable is found again from its argument.

**`atom_concat_iff`.** What `bp_atom_concat` does is concatenation exactly when no argument is a
name of one character, the name that comes out is none, there is room for it, and a part that is to
be taken off the end is not longer than the whole.
-/

namespace Mlvm.Builtins

open Creator StringTable Fuel

/-! ## Arguments -/

/-- The code of a character, which is signed. -/
def charCode (c : UInt8) : Int := if c.toNat < 128 then c.toNat else c.toNat - 256

/-- The cell is the atom of this name: a name of one character is its code. -/
def Denotes (es : List CString) (w : Word) (s : CString) : Prop :=
  (∃ c, s.chars = [c] ∧ w = .makeCon (charCode c)) ∨
  (s.chars.length ≠ 1 ∧ ∃ i : ℕ, IndexOf es s i ∧ w = .makeCon (i + ASCII_SIZE))

/-- An argument: an unbound variable, an atom, or something else. -/
inductive Arg where
  | var (x : Int)
  | atom (s : CString)
  | other

/-- The argument at an address of the stack. -/
def Arg.At (es : List CString) (m : Memory) (a : Int) : Arg → Prop
  | .var x => Comes (fun n => deref m n (m.read a)) (some (.ref x))
  | .atom s => ∃ w, Comes (fun n => deref m n (m.read a)) (some w) ∧ Denotes es w s
  | .other => ∃ w, Comes (fun n => deref m n (m.read a)) (some w) ∧ w.isVar = false ∧
    w.isCon = false

/-- A cell of the stack. -/
def IsCell (ip : Icb) (kinds : List Kind) (a : Int) : Prop :=
  ∃ i : ℕ, kinds[i]? = some .cell ∧ a = ip.stack_base + i

/-- The stack of an imago that calls a builtin: references lead from cell to cell. -/
structure Calls (ip : Icb) (m : Memory) (es : List CString) (kinds : List Kind) : Prop where
  table : Table ip m es
  st : ip.st = lastWord ip kinds
  below : ip.st < ip.tt
  args : ∀ k : ℕ, k ≤ 2 → IsCell ip kinds (ip.st - k)
  refs : ∀ a b, IsCell ip kinds a → m.read a = .ref b → IsCell ip kinds b

/-! ## Properties -/

/-- The name is looked up and the variable is bound to its atom. -/
def Bound (ip : Icb) (m : Memory) (es : List CString) (kinds : List Kind) (x : Int) (s : CString)
    (r : Exit × Icb × Memory) : Prop :=
  ∃ fuel index nl ip₁ m₁,
    searchIndex fuel s.chars ip ip.st m = some (index, nl, ip₁, m₁) ∧
    Sound ip ip₁ m m₁ es kinds s index nl ∧
    r = (.succeed, assign ip₁ m₁ (x + nl) (.makeCon (index + ASCII_SIZE))) ∧
    ∃ es', Table r.2.1 r.2.2 es' ∧ Denotes es' (r.2.2.read (x + nl)) s

/-- `atom_concat/3` is concatenation, for these arguments. -/
def ConcatRight (ip : Icb) (m : Memory) (es : List CString) (kinds : List Kind) :
    Arg → Arg → Arg → Prop
  | .atom s1, .atom s2, .atom s3 => ∃ fuel, bpAtomConcat ip m fuel =
      some (if s1.chars ++ s2.chars = s3.chars then .succeed else .backtrack, ip, m)
  | .atom s1, .atom s2, .var x => ∃ fuel r s, bpAtomConcat ip m fuel = some r ∧
      s.chars = s1.chars ++ s2.chars ∧ Bound ip m es kinds x s r
  | .atom s1, .var x, .atom s3 =>
    (∃ fuel r s, bpAtomConcat ip m fuel = some r ∧ s3.chars = s1.chars ++ s.chars ∧
      Bound ip m es kinds x s r) ∨
    (¬ s1.chars <+: s3.chars ∧ ∃ fuel, bpAtomConcat ip m fuel = some (.backtrack, ip, m))
  | .var x, .atom s2, .atom s3 =>
    (∃ fuel r s, bpAtomConcat ip m fuel = some r ∧ s3.chars = s.chars ++ s2.chars ∧
      Bound ip m es kinds x s r) ∨
    (¬ s2.chars <:+ s3.chars ∧ ∃ fuel, bpAtomConcat ip m fuel = some (.backtrack, ip, m))
  | _, _, _ => ∃ fuel, bpAtomConcat ip m fuel = some (.illegal, ip, m)

/-- The name has not one character. -/
def Long (s : CString) : Prop := s.chars.length ≠ 1

/-- A variable can be bound to the atom of the name: the name has not one character, and there is
room for it. -/
structure CanBind (ip : Icb) (m : Memory) (es : List CString) (kinds : List Kind) (s : CString) :
    Prop where
  long : Long s
  room : s ∈ es ∨ HasRoom ip m kinds s

/-- When `atom_concat/3` is concatenation. -/
def ConcatCond (ip : Icb) (m : Memory) (es : List CString) (kinds : List Kind) :
    Arg → Arg → Arg → Prop
  | .atom s1, .atom s2, .atom s3 => Long s1 ∧ Long s2 ∧ Long s3
  | .atom s1, .atom s2, .var _ => Long s1 ∧ Long s2 ∧
      ∀ s : CString, s.chars = s1.chars ++ s2.chars → CanBind ip m es kinds s
  | .atom s1, .var _, .atom s3 => Long s1 ∧ Long s3 ∧
      ∀ s : CString, s3.chars = s1.chars ++ s.chars → CanBind ip m es kinds s
  | .var _, .atom s2, .atom s3 => Long s2 ∧ Long s3 ∧ s2.chars.length ≤ s3.chars.length ∧
      ∀ s : CString, s3.chars = s.chars ++ s2.chars → CanBind ip m es kinds s
  | _, _, _ => True

variable {ip : Icb} {m : Memory} {es : List CString} {kinds : List Kind}

/-! ## Reading names -/

theorem isCon_makeCon (x : Int) : (Word.makeCon x).isCon = true := by
  simp only [Word.isCon, Word.makeCon, beq_iff_eq]
  omega

theorem isCon_ref (x : Int) : (Word.ref x).isCon = false := rfl

theorem isVar_ref (x : Int) : (Word.ref x).isVar = true := rfl

theorem charCode_lt (c : UInt8) : charCode c < ASCII_SIZE := by
  have := c.toNat_lt
  simp only [charCode, ASCII_SIZE]
  split_ifs <;> omega

/-- What stands in the table, with its zero byte, is read. -/
theorem comes_nameIn {byte : Int → UInt8} {a : Int} {cs : List UInt8} (hcs : 0 ∉ cs)
    (hat : At byte a (cs ++ [0])) (hlow : ip.name_base ≤ a) (htop : a + cs.length < ip.name_top) :
    Comes (fun n => nameIn ip byte n a) (some cs) := by
  induction cs generalizing a with
  | nil =>
    refine .of_succ rfl ((comes_const _).congr fun n => ?_)
    rw [nameIn, if_pos ⟨hlow, by simpa using htop⟩, if_pos (at_cons.1 hat).1]
  | cons c cs ih =>
    rw [List.length_cons] at htop
    obtain ⟨hc, hrest⟩ := at_cons.1 hat
    have hne : byte a ≠ 0 := by
      rw [hc]
      intro h
      exact hcs (by simp [h])
    have htail := (ih (fun h => hcs (List.mem_cons_of_mem _ h)) hrest (by omega) (by omega)).map
      (byte a :: ·)
    rw [Option.map_some, hc] at htail
    refine .of_succ rfl (htail.congr fun n => ?_)
    rw [nameIn, if_pos ⟨hlow, by omega⟩, if_neg hne, hc]

/-- A string that is in the table stands there. -/
theorem at_index (h : Table ip m es) {s : CString} {i : ℕ} (hi : IndexOf es s i) :
    At m.byte (ip.name_base + i) (s.chars ++ [0]) ∧
      ip.name_base + i + s.chars.length < ip.name_top := by
  obtain ⟨pre, post, rfl, rfl⟩ := hi
  have hnames := h.names
  rw [pack_append, at_append, pack_cons, at_append] at hnames
  refine ⟨hnames.2.1, ?_⟩
  rw [h.name_top, pack_append, pack_cons]
  simp only [List.length_append, length_packed]
  omega

/-- `memcmp` with a string in the table finds out whether it begins with these bytes. -/
theorem memcmp_eq {byte : Int → UInt8} {a : Int} {ds cs : List UInt8} (hds : 0 ∉ ds)
    (hat : At byte a (cs ++ [0])) (hlow : ip.name_base ≤ a) (htop : a + cs.length < ip.name_top) :
    memcmp ip byte ds a = some (decide (ds <+: cs)) := by
  induction ds generalizing a cs with
  | nil => simp [memcmp]
  | cons d ds ih =>
    have hd : d ≠ 0 := by
      rintro rfl
      exact hds (List.mem_cons_self ..)
    cases cs with
    | nil =>
      have hzero : byte a = 0 := (at_cons.1 hat).1
      rw [memcmp, if_pos ⟨hlow, by simpa using htop⟩, hzero, if_neg hd]
      simp
    | cons c cs =>
      rw [List.length_cons] at htop
      obtain ⟨hc, hrest⟩ := at_cons.1 hat
      rw [memcmp, if_pos ⟨hlow, by omega⟩, hc]
      by_cases hdc : d = c
      · rw [if_pos hdc, ih (fun h => hds (List.mem_cons_of_mem _ h)) hrest (by omega) (by omega)]
        simp [List.cons_prefix_cons, hdc]
      · rw [if_neg hdc]
        simp [List.cons_prefix_cons, hdc]

/-- **The name of an argument** is read, unless it has one character. -/
theorem comes_argName (h : Table ip m es) {w : Word} {s : CString} (hs : Denotes es w s) :
    Comes (fun n => argName n ip m w) (if s.chars.length = 1 then none else some s.chars) := by
  rcases hs with ⟨c, hc, rfl⟩ | ⟨hlong, i, hi, rfl⟩
  · rw [hc, if_pos (by rfl)]
    apply comes_none
    intro n
    have hlt := charCode_lt c
    rw [argName, if_pos (isCon_makeCon _), intValue_makeCon, namePtr]
    cases n with
    | zero => rfl
    | succ n => rw [nameIn, if_neg (by omega)]
  · rw [if_neg hlong]
    obtain ⟨hat, htop⟩ := at_index h hi
    refine (comes_nameIn s.clean hat (by omega) htop).congr fun n => ?_
    rw [argName, if_pos (isCon_makeCon _), intValue_makeCon, namePtr]
    congr 1
    omega

/-- The string of an atom that is not of one character. -/
theorem at_name (h : Table ip m es) {w : Word} {s : CString} (hs : Denotes es w s)
    (hlong : Long s) : At m.byte (namePtr ip w.intValue) (s.chars ++ [0]) ∧
      ip.name_base ≤ namePtr ip w.intValue ∧
      namePtr ip w.intValue + s.chars.length < ip.name_top := by
  rcases hs with ⟨c, hc, -⟩ | ⟨-, i, hi, rfl⟩
  · exact absurd (by rw [hc]; rfl) hlong
  · obtain ⟨hat, htop⟩ := at_index h hi
    have hplace : namePtr ip (Word.makeCon (i + ASCII_SIZE)).intValue = ip.name_base + i := by
      rw [intValue_makeCon, namePtr]
      omega
    rw [hplace]
    exact ⟨hat, by omega, htop⟩

theorem Denotes.isCon {w : Word} {s : CString} (hs : Denotes es w s) :
    w.isCon = true ∧ w.isVar = false := by
  rcases hs with ⟨c, -, rfl⟩ | ⟨-, i, -, rfl⟩ <;> exact ⟨isCon_makeCon _, rfl⟩

/-! ## Moved references -/

theorem IsCell.bounds {a : Int} (h : IsCell ip kinds a) :
    ip.stack_base ≤ a ∧ a ≤ lastWord ip kinds := by
  obtain ⟨i, hi, rfl⟩ := h
  have hlt := (List.getElem?_eq_some_iff.1 hi).1
  rw [lastWord]
  omega

theorem word_of_read {a : Int} {w : Word} (h : m.read a = w) : m.word a = w.bits := by
  rw [← h, Memory.read, Word.bits_ofBits]

/-- A reference in a cell moves with the stack. -/
theorem read_raised {ip' : Icb} {m' : Memory} (h : Raised ip ip' m m' kinds) {a b : Int}
    (ha : IsCell ip kinds a) (hb : IsCell ip kinds b) (hread : m.read a = .ref b) :
    m'.read (a + nameExpWords) = .ref (b + nameExpWords) := by
  obtain ⟨i, hi, rfl⟩ := ha
  have hcell := h.cells i .cell hi
  have hplace : ip.stack_base + i + nameExpWords = ip.stack_base + nameExpWords + i := by omega
  have hbits := word_of_read hread
  rw [Word.bits] at hbits
  have hptr : IsStackPointer ip.stack_base (lastWord ip kinds) (4 * b) := by
    obtain ⟨hlow, hhigh⟩ := hb.bounds
    refine ⟨?_, ?_, ?_⟩
    · rw [isCstWord]
      omega
    · omega
    · omega
  rw [hbits, Kind.shift, shiftWord, if_pos hptr] at hcell
  rw [Memory.read, hplace, hcell, ← Int.mul_add]
  exact Word.ofBits_bits (.ref (b + nameExpWords))

/-- **A variable** is found again from its argument, after the stack has moved. -/
theorem comes_deref_raised (h : Calls ip m es kinds) {ip' : Icb} {m' : Memory}
    (hraised : Raised ip ip' m m' kinds) {a x : Int} (ha : IsCell ip kinds a)
    (hx : Comes (fun n => deref m n (m.read a)) (some (.ref x))) :
    Comes (fun n => deref m' n (m'.read (a + nameExpWords))) (some (.ref (x + nameExpWords))) := by
  obtain ⟨n, hn⟩ := hx.large _ rfl
  have hderef := hn n (Nat.le_refl n)
  clear hn hx
  induction n generalizing a with
  | zero => cases hderef
  | succ n ih =>
    cases hread : m.read a with
    | ref b =>
      have hb := h.refs a b ha hread
      have hread' := read_raised hraised ha hb hread
      rw [hread, deref] at hderef
      rw [hread']
      split_ifs at hderef with hself
      · obtain ⟨rfl⟩ := Option.some.inj hderef
        refine .of_succ rfl ((comes_const _).congr fun n => ?_)
        rw [deref, if_pos (read_raised hraised hb hb hself)]
      · have hne : m'.read (b + nameExpWords) ≠ .ref (b + nameExpWords) := by
          cases hnext : m.read b with
          | ref c =>
            rw [read_raised hraised hb (h.refs b c hb hnext) hnext]
            intro heq
            injection heq with heq
            have hcb : c = b := by omega
            exact hself (by rw [hnext, hcb])
          | lis p => rw [hnext] at hderef; cases n <;> cases hderef
          | str p => rw [hnext] at hderef; cases n <;> cases hderef
          | cst p => rw [hnext] at hderef; cases n <;> cases hderef
        refine .of_succ rfl ((ih hb hderef).congr fun n => ?_)
        rw [deref, if_neg hne]
    | lis p => rw [hread] at hderef; cases hderef
    | str p => rw [hread] at hderef; cases hderef
    | cst p => rw [hread] at hderef; cases hderef

/-- An argument leads to a variable of the stack. -/
theorem cell_of_deref (h : Calls ip m es kinds) {a x : Int} (ha : IsCell ip kinds a)
    (hx : Comes (fun n => deref m n (m.read a)) (some (.ref x))) : IsCell ip kinds x := by
  obtain ⟨n, hn⟩ := hx.large _ rfl
  have hderef := hn n (Nat.le_refl n)
  clear hn hx
  induction n generalizing a with
  | zero => cases hderef
  | succ n ih =>
    cases hread : m.read a with
    | ref b =>
      have hb := h.refs a b ha hread
      rw [hread, deref] at hderef
      split_ifs at hderef with hself
      · obtain ⟨rfl⟩ := Option.some.inj hderef
        exact hb
      · exact ih hb hderef
    | lis p => rw [hread] at hderef; cases hderef
    | str p => rw [hread] at hderef; cases hderef
    | cst p => rw [hread] at hderef; cases hderef

/-! ## Binding a name -/

/-- More rounds do not change what the search gives. -/
theorem comes_searchIndex {fuel : ℕ} {name : List UInt8} {child : Icb} {top : Int}
    {r : Int × Int × Icb × Memory} (h : searchIndex fuel name child top m = some r) :
    Comes (fun n => searchIndex n name child top m) (some r) := by
  cases hsearch : searchFrom m.byte child.name_top name child.name_base with
  | inl cp =>
    refine (comes_const (some r)).congr fun n => ?_
    rw [← h]
    simp only [searchIndex, hsearch]
  | inr cp =>
    by_cases hfits : 4 * child.stack_base ≤ cp + name.length
    · by_cases htrail : child.block_ceiling ≤ child.tt + 1
      · cases fuel with
        | zero => simp [searchIndex, hsearch, hfits, nameTableExpansion, Creator.adjustTrail] at h
        | succ fuel =>
          refine .of_succ ?_ ((comes_const (some r)).congr fun n => ?_)
          · simp [searchIndex, hsearch, hfits, nameTableExpansion, Creator.adjustTrail]
          · rw [← h]
            simp only [searchIndex, hsearch, nameTableExpansion_of_le htrail]
      · simp [searchIndex, hsearch, hfits, nameTableExpansion_of_lt (Int.not_le.1 htrail)] at h
    · refine (comes_const (some r)).congr fun n => ?_
      rw [← h]
      simp only [searchIndex, hsearch, if_neg hfits]

/-- What a search leaves of the registers; the stack moves only for a name that does not fit. -/
theorem searched (h : Table ip m es) {s : CString} {fuel : ℕ} {top index nl : Int} {ip₁ : Icb}
    {m₁ : Memory} (hrun : searchIndex fuel s.chars ip top m = some (index, nl, ip₁, m₁)) :
    ip₁.tt = ip.tt ∧ ip₁.bb = ip.bb + nl ∧ ip₁.st = ip.st + nl ∧
      (nl = 0 ∧ (s ∉ es → ¬ 4 * ip.stack_base ≤ ip.name_top + s.chars.length) ∨
        nl = nameExpWords ∧ s ∉ es ∧ 4 * ip.stack_base ≤ ip.name_top + s.chars.length) := by
  by_cases hmem : s ∈ es
  · obtain ⟨i, -, hfound⟩ := h.found hmem
    rw [hfound] at hrun
    simp only [Option.some.injEq, Prod.mk.injEq] at hrun
    obtain ⟨-, rfl, rfl, -⟩ := hrun
    exact ⟨rfl, (Int.add_zero _).symm, (Int.add_zero _).symm,
      .inl ⟨rfl, fun hnot => absurd hmem hnot⟩⟩
  · rw [h.missing hmem] at hrun
    by_cases hfits : 4 * ip.stack_base ≤ ip.name_top + s.chars.length
    · rw [if_pos hfits, nameTableExpansion] at hrun
      cases htrail : Creator.adjustTrail ip.block_ceiling fuel (ip.tt + 1)
          (moveStack ip.stack_base top top m.word) with
      | none => simp [htrail] at hrun
      | some w =>
        simp only [htrail, Option.map_some, Option.some.injEq, Prod.mk.injEq] at hrun
        obtain ⟨-, rfl, rfl, -⟩ := hrun
        exact ⟨rfl, rfl, rfl, .inr ⟨rfl, hmem, hfits⟩⟩
    · rw [if_neg hfits] at hrun
      simp only [Option.map_some, Option.some.injEq, Prod.mk.injEq] at hrun
      obtain ⟨-, rfl, rfl, -⟩ := hrun
      exact ⟨rfl, (Int.add_zero _).symm, (Int.add_zero _).symm, .inl ⟨rfl, fun _ => hfits⟩⟩

/-- The cell is read back, unless the trail runs over it. -/
theorem read_assign (ip : Icb) (m : Memory) (x c : Int) :
    (assign ip m x (.makeCon c)).2.read x = .makeCon c ↔ (x ≤ ip.bb → x ≠ ip.tt) := by
  rw [assign]
  split_ifs with hbb
  · by_cases hx : x = ip.tt
    · rw [← hx, Memory.read_write_self]
      exact iff_of_false (by simp [Word.makeCon]) (fun h => h hbb rfl)
    · rw [Memory.read_write_of_ne _ hx, Memory.read_write_self]
      exact iff_of_true rfl fun _ => hx
  · rw [Memory.read_write_self]
    exact iff_of_true rfl fun h => absurd h hbb

theorem table_assign {ip₁ : Icb} {m₁ : Memory} (h : Table ip₁ m₁ es) (x : Int) (w : Word) :
    Table (assign ip₁ m₁ x w).1 (assign ip₁ m₁ x w).2 es := by
  rw [assign]
  split_ifs
  · exact ⟨h.names, h.name_top, h.room⟩
  · exact ⟨h.names, h.name_top, h.room⟩

theorem CanBind.interned {s : CString} (hbind : CanBind ip m es kinds s) (h : Table ip m es) :
    Interned ip m es kinds s := by
  by_cases hmem : s ∈ es
  · exact h.interned hmem kinds
  · exact h.interned_of_room hmem (hbind.room.resolve_left hmem)

/-- **A name is assigned** to the variable that an argument leads to. -/
theorem comes_assignName (h : Calls ip m es kinds) {x : Int} {k : ℕ} (hk : k ≤ 2)
    (hx : (Arg.var x).At es m (ip.st - k)) {s : CString} (hbind : CanBind ip m es kinds s) :
    ∃ r, Comes (fun n => assignName n ip m s.chars k (.ref x)) (some r) ∧
      Bound ip m es kinds x s r := by
  obtain ⟨fuel, index, nl, ip₁, m₁, hrun, hsound⟩ := hbind.interned h.table
  rw [← h.st] at hrun
  obtain ⟨htt, hbb, hst, hmoved⟩ := searched h.table hrun
  obtain ⟨es', -, htable, i, rfl, hindex, -⟩ := hsound.table
  refine ⟨(.succeed, assign ip₁ m₁ (x + nl) (.makeCon (i + ASCII_SIZE))), ?_, fuel, _, nl, ip₁, m₁,
    hrun, hsound, rfl, es', table_assign htable .., ?_⟩
  · refine (comes_searchIndex hrun).bind ?_
    have hderef : Comes (fun n => if nl = 0 then some (Word.ref x) else argument n ip₁ m₁ k)
        (some (.ref (x + nl))) := by
      by_cases hnl : nl = 0
      · rw [hnl, Int.add_zero]
        exact (comes_const _).congr fun n => if_pos rfl
      · obtain ⟨child₁, m₂, hstack, -, hword⟩ := hsound.stack
        rcases hstack with ⟨hzero, -⟩ | ⟨hexp, hraised⟩
        · exact absurd hzero hnl
        · have hmem : ∀ a, m₁.read a = m₂.read a := by
            intro a
            rw [Memory.read, Memory.read, hword]
          have hsame : ∀ n w, deref m₁ n w = deref m₂ n w := by
            intro n
            induction n with
            | zero => intro w; rfl
            | succ n ih =>
              intro w
              cases w with
              | ref b => rw [deref, deref, hmem, ih]
              | _ => rfl
          have hfound := comes_deref_raised h hraised (h.args k hk) hx
          rw [hexp]
          refine hfound.congr fun n => ?_
          have hplace : ip₁.st - k = ip.st - k + nameExpWords := by omega
          rw [if_neg (by decide), argument, hsame, hmem, hplace]
    exact hderef.map _
  · have hread : (assign ip₁ m₁ (x + nl) (.makeCon (i + ASCII_SIZE))).2.read (x + nl) =
        .makeCon (i + ASCII_SIZE) := by
      rw [read_assign, htt, hbb]
      intro hle
      have hcell := (cell_of_deref h (h.args k hk) hx).bounds.2
      rcases hmoved with ⟨rfl, -⟩ | ⟨rfl, hmem, hfits⟩
      · have hst := h.st
        have hbelow := h.below
        omega
      · -- the moved stack ends below the trail
        have hroom := hbind.room.resolve_left hmem
        have hinside := (hroom.resolve_left (Int.not_lt.2 hfits)).2.1
        rw [RoomAbove] at hinside
        omega
    exact .inr ⟨hbind.long, i, hindex, hread⟩

/-- What a bound variable says about the name. -/
theorem Bound.canBind (h : Calls ip m es kinds) {x : Int} {s : CString} {r : Exit × Icb × Memory}
    (hbound : Bound ip m es kinds x s r) : CanBind ip m es kinds s := by
  obtain ⟨fuel, index, nl, ip₁, m₁, hrun, hsound, rfl, es', -, hdenotes⟩ := hbound
  obtain ⟨_, -, -, i, rfl, -⟩ := hsound.table
  -- the cell that is read is the one that was written
  have hkept : x + nl ≤ ip₁.bb → x + nl ≠ ip₁.tt := by
    by_contra hnot
    simp only [not_forall, not_not] at hnot
    obtain ⟨hle, heq⟩ := hnot
    have hcon := hdenotes.isCon.1
    rw [assign, if_pos hle, heq, Memory.read_write_self] at hcon
    cases hcon
  have hread := (read_assign ip₁ m₁ (x + nl) (i + ASCII_SIZE)).2 hkept
  refine ⟨?_, ?_⟩
  · rcases hdenotes with ⟨c, -, hc⟩ | ⟨hlong, -⟩
    · rw [hread] at hc
      have hvalue := congrArg Word.intValue hc
      rw [intValue_makeCon, intValue_makeCon] at hvalue
      have hlt := charCode_lt c
      omega
    · exact hlong
  · rw [h.st] at hrun
    by_cases hmem : s ∈ es
    · exact .inl hmem
    · exact .inr (Interned.hasRoom ⟨fuel, _, nl, ip₁, m₁, hrun, hsound⟩ h.table hmem)

/-! ## The modes -/

variable {w1 w2 w3 : Word} {s1 s2 s3 : CString} {x : Int}

theorem comes_bpAtomConcat
    (h1 : Comes (fun n => deref m n (m.read (ip.st - 2))) (some w1))
    (h2 : Comes (fun n => deref m n (m.read (ip.st - 1))) (some w2))
    (h3 : Comes (fun n => deref m n (m.read ip.st)) (some w3))
    {o : Option (Exit × Icb × Memory)}
    (h : Comes (fun n => concatChecked n ip m w1 w2 w3) o) : Comes (bpAtomConcat ip m) o := by
  have h3' : Comes (fun n => argument n ip m 0) (some w3) :=
    h3.congr fun n => by rw [argument, Int.sub_zero]
  exact (h1.bind (h2.bind (h3'.bind h)))

/-- A run through the modes has read three names. -/
theorem long_of_run (h : Table ip m es) {fuel : ℕ} {r : Exit × Icb × Memory}
    (hrun : concatModes fuel ip m w1 w2 w3 = some r) :
    (∀ s, Denotes es w1 s → Long s) ∧ (∀ s, Denotes es w2 s → Long s) ∧
      ∀ s, Denotes es w3 s → Long s := by
  have hread : ∀ {w : Word} {s : CString} {name}, argName fuel ip m w = some name →
      Denotes es w s → Long s := by
    intro w s name hname hs hone
    have honly := (comes_argName h hs).only fuel _ hname
    rw [if_pos hone] at honly
    cases honly
  obtain ⟨_, h1, hrun⟩ := Option.bind_eq_some_iff.1 hrun
  obtain ⟨_, h2, hrun⟩ := Option.bind_eq_some_iff.1 hrun
  obtain ⟨_, h3, -⟩ := Option.bind_eq_some_iff.1 hrun
  exact ⟨fun s => hread h1, fun s => hread h2, fun s => hread h3⟩

theorem comes_argName_long (h : Table ip m es) {w : Word} {s : CString} (hs : Denotes es w s)
    (hlong : Long s) : Comes (fun n => argName n ip m w) (some s.chars) := by
  have hname := comes_argName h hs
  rwa [if_neg hlong] at hname

theorem comes_argName_var (x : Int) : Comes (fun n => argName n ip m (.ref x)) (some []) :=
  (comes_const _).congr fun _ => rfl

/-- Two atoms and a third are compared. -/
theorem comes_compare (h : Table ip m es) (h1 : Denotes es w1 s1) (h2 : Denotes es w2 s2)
    (h3 : Denotes es w3 s3) (hl1 : Long s1) (hl2 : Long s2) (hl3 : Long s3) :
    Comes (fun n => concatModes n ip m w1 w2 w3)
      (some (if s1.chars ++ s2.chars = s3.chars then .succeed else .backtrack, ip, m)) := by
  refine (comes_argName_long h h1 hl1).bind ((comes_argName_long h h2 hl2).bind
    ((comes_argName_long h h3 hl3).bind ?_))
  obtain ⟨hat, hlow, htop⟩ := at_name h h3 hl3
  refine (comes_const _).congr fun n => ?_
  simp only [h1.isCon.1, h2.isCon.1, h3.isCon.1, Bool.and_self, if_true]
  by_cases hlen : s1.chars.length + s2.chars.length = s3.chars.length
  · rw [if_neg (not_not.2 hlen), memcmp_eq s1.clean hat hlow htop, Option.bind_some]
    by_cases hbegins : s1.chars <+: s3.chars
    · obtain ⟨rest, hrest⟩ := hbegins
      have hsize := congrArg List.length hrest
      rw [List.length_append] at hsize
      rw [← hrest, List.append_assoc, at_append] at hat
      have hplace : namePtr ip w3.intValue + (s3.chars.length - s2.chars.length : Int) =
          namePtr ip w3.intValue + s1.chars.length := by omega
      have hrestlen : s2.chars.length = rest.length := by omega
      rw [decide_eq_true ⟨rest, hrest⟩, hplace, memcmp_eq s2.clean hat.2 (by omega) (by omega),
        ← hrest]
      simp only [Bool.not_true, Bool.false_eq_true, if_false, Option.map_some,
        decide_eq_true_eq, List.append_cancel_left_eq]
      have hiff : s2.chars <+: rest ↔ s2.chars = rest :=
        ⟨fun hp => hp.eq_of_length hrestlen, fun heq => heq ▸ List.prefix_rfl⟩
      simp only [hiff]
    · rw [decide_eq_false hbegins, if_neg (fun heq => hbegins ⟨_, heq⟩)]
      rfl
  · have hne : s1.chars ++ s2.chars ≠ s3.chars := by
      intro heq
      exact hlen (by rw [← heq, List.length_append])
    rw [if_pos hlen, if_neg hne]

/-- Two atoms are joined. -/
theorem comes_join (h : Calls ip m es kinds) (h1 : Denotes es w1 s1) (h2 : Denotes es w2 s2)
    (hx : (Arg.var x).At es m ip.st) (hl1 : Long s1) (hl2 : Long s2) {s : CString}
    (hs : s.chars = s1.chars ++ s2.chars) (hbind : CanBind ip m es kinds s) :
    ∃ r, Comes (fun n => concatModes n ip m w1 w2 (.ref x)) (some r) ∧
      Bound ip m es kinds x s r := by
  have hx0 : (Arg.var x).At es m (ip.st - (0 : ℕ)) := by
    rwa [Int.natCast_zero, Int.sub_zero]
  obtain ⟨r, hr, hbound⟩ := comes_assignName h (Nat.zero_le 2) hx0 hbind
  refine ⟨r, ?_, hbound⟩
  refine (comes_argName_long h.table h1 hl1).bind ((comes_argName_long h.table h2 hl2).bind
    ((comes_argName_var x).bind (hr.congr fun n => ?_)))
  simp only [h1.isCon.1, h2.isCon.1, isCon_ref, Bool.and_self, if_true, Bool.false_eq_true,
    if_false, hs]
  rfl

/-- An atom is taken off the front of another, which begins with it. -/
theorem comes_suffix (h : Calls ip m es kinds) (h1 : Denotes es w1 s1) (h3 : Denotes es w3 s3)
    (hx : (Arg.var x).At es m (ip.st - 1)) (hl1 : Long s1) (hl3 : Long s3) {s : CString}
    (hs : s3.chars = s1.chars ++ s.chars) (hbind : CanBind ip m es kinds s) :
    ∃ r, Comes (fun n => concatModes n ip m w1 (.ref x) w3) (some r) ∧
      Bound ip m es kinds x s r := by
  obtain ⟨r, hr, hbound⟩ := comes_assignName h (Nat.le_succ 1) hx hbind
  refine ⟨r, ?_, hbound⟩
  obtain ⟨hat, hlow, htop⟩ := at_name h.table h3 hl3
  have hsame := memcmp_eq s1.clean hat hlow htop
  rw [decide_eq_true ⟨s.chars, hs.symm⟩] at hsame
  have hsize := congrArg List.length hs
  rw [List.length_append] at hsize
  rw [hs, List.append_assoc, at_append] at hat
  have hname : Comes (fun n => nameIn ip m.byte n (namePtr ip w3.intValue + s1.chars.length))
      (some s.chars) := comes_nameIn s.clean hat.2 (by omega) (by omega)
  refine (comes_argName_long h.table h1 hl1).bind ((comes_argName_var x).bind
    ((comes_argName_long h.table h3 hl3).bind ((hname.bind
      (k := fun n name => assignName n ip m name 1 (.ref x)) hr).congr fun n => ?_)))
  simp only [h1.isCon.1, isCon_ref, Bool.and_false, Bool.false_eq_true, if_false, if_true, hsame,
    Option.bind_some, Bool.not_true]

theorem comes_suffix_fail (h : Table ip m es) (h1 : Denotes es w1 s1) (h3 : Denotes es w3 s3)
    (hl1 : Long s1) (hl3 : Long s3) (hne : ¬ s1.chars <+: s3.chars) :
    Comes (fun n => concatModes n ip m w1 (.ref x) w3) (some (.backtrack, ip, m)) := by
  obtain ⟨hat, hlow, htop⟩ := at_name h h3 hl3
  have hsame := memcmp_eq s1.clean hat hlow htop
  rw [decide_eq_false hne] at hsame
  refine (comes_argName_long h h1 hl1).bind ((comes_argName_var x).bind
    ((comes_argName_long h h3 hl3).bind ((comes_const _).congr fun n => ?_)))
  simp only [h1.isCon.1, isCon_ref, Bool.and_false, Bool.false_eq_true, if_false, if_true, hsame,
    Option.bind_some, Bool.not_false]

/-- The part that is taken off the end is longer than the whole. -/
theorem concatModes_longer (h : Table ip m es) (h2 : Denotes es w2 s2) (h3 : Denotes es w3 s3)
    (hlt : s3.chars.length < s2.chars.length) (fuel : ℕ) :
    concatModes fuel ip m (.ref x) w2 w3 = none := by
  by_contra hsome
  obtain ⟨r, hrun⟩ := Option.ne_none_iff_exists'.1 hsome
  obtain ⟨-, hl2, hl3⟩ := long_of_run h hrun
  have hcomes : Comes (fun n => concatModes n ip m (.ref x) w2 w3) none := by
    refine (comes_argName_var x).bind ((comes_argName_long h h2 (hl2 s2 h2)).bind
      ((comes_argName_long h h3 (hl3 s3 h3)).bind (comes_none fun n => ?_)))
    have hle : (s3.chars.length - s2.chars.length + 1 : Int) ≤ 0 := by omega
    simp only [isCon_ref, Bool.false_and, Bool.false_eq_true, if_false, if_pos hle]
  exact absurd (hcomes.only fuel r hrun) (by simp)

/-- What is left when an atom is taken off the end of another. -/
theorem memcmp_end (h : Table ip m es) (h3 : Denotes es w3 s3) (hl3 : Long s3)
    (hle : s2.chars.length ≤ s3.chars.length) :
    memcmp ip m.byte s2.chars
      (namePtr ip w3.intValue + (s3.chars.length - s2.chars.length : Int)) =
      some (decide (s2.chars <:+ s3.chars)) := by
  obtain ⟨hat, hlow, htop⟩ := at_name h h3 hl3
  have hsplit := List.take_append_drop (s3.chars.length - s2.chars.length) s3.chars
  have htake : (s3.chars.take (s3.chars.length - s2.chars.length)).length =
      s3.chars.length - s2.chars.length := by
    rw [List.length_take]
    omega
  have hdrop : (s3.chars.drop (s3.chars.length - s2.chars.length)).length = s2.chars.length := by
    rw [List.length_drop]
    omega
  rw [← hsplit, List.append_assoc, at_append, htake] at hat
  have hplace : namePtr ip w3.intValue + (s3.chars.length - s2.chars.length : Int) =
      namePtr ip w3.intValue + ((s3.chars.length - s2.chars.length : ℕ) : Int) := by omega
  rw [hplace, memcmp_eq s2.clean hat.2 (by omega) (by omega)]
  congr 1
  rw [decide_eq_decide, List.suffix_iff_eq_drop]
  constructor
  · intro hp
    exact hp.eq_of_length hdrop.symm
  · intro heq
    exact heq ▸ List.prefix_rfl

/-- An atom is taken off the end of another, which ends with it. -/
theorem comes_prefix (h : Calls ip m es kinds) (h2 : Denotes es w2 s2) (h3 : Denotes es w3 s3)
    (hx : (Arg.var x).At es m (ip.st - 2)) (hl2 : Long s2) (hl3 : Long s3) {s : CString}
    (hs : s3.chars = s.chars ++ s2.chars) (hbind : CanBind ip m es kinds s) :
    ∃ r, Comes (fun n => concatModes n ip m (.ref x) w2 w3) (some r) ∧
      Bound ip m es kinds x s r := by
  obtain ⟨r, hr, hbound⟩ := comes_assignName h (Nat.le_refl 2) hx hbind
  refine ⟨r, ?_, hbound⟩
  have hsize := congrArg List.length hs
  rw [List.length_append] at hsize
  have hle : s2.chars.length ≤ s3.chars.length := by omega
  have hsame := memcmp_end h.table h3 hl3 hle
  rw [decide_eq_true ⟨s.chars, hs.symm⟩] at hsame
  have hroom : ¬ (s3.chars.length - s2.chars.length + 1 : Int) ≤ 0 := by omega
  have htake : s3.chars.take (s3.chars.length - s2.chars.length) = s.chars := by
    rw [hs, List.length_append, Nat.add_sub_cancel, List.take_left]
  refine (comes_argName_var x).bind ((comes_argName_long h.table h2 hl2).bind
    ((comes_argName_long h.table h3 hl3).bind (hr.congr fun n => ?_)))
  simp only [isCon_ref, Bool.false_and, Bool.false_eq_true, if_false, if_neg hroom, hsame,
    Option.bind_some, Bool.not_true, htake]
  rfl

theorem comes_prefix_fail (h : Table ip m es) (h2 : Denotes es w2 s2) (h3 : Denotes es w3 s3)
    (hl2 : Long s2) (hl3 : Long s3) (hle : s2.chars.length ≤ s3.chars.length)
    (hne : ¬ s2.chars <:+ s3.chars) :
    Comes (fun n => concatModes n ip m (.ref x) w2 w3) (some (.backtrack, ip, m)) := by
  have hsame := memcmp_end h h3 hl3 hle
  rw [decide_eq_false hne] at hsame
  have hroom : ¬ (s3.chars.length - s2.chars.length + 1 : Int) ≤ 0 := by omega
  refine (comes_argName_var x).bind ((comes_argName_long h h2 hl2).bind
    ((comes_argName_long h h3 hl3).bind ((comes_const _).congr fun n => ?_)))
  simp only [isCon_ref, Bool.false_and, Bool.false_eq_true, if_false, if_neg hroom, hsame,
    Option.bind_some, Bool.not_false, if_true]

/-! ## All arguments -/

def Arg.isVar : Arg → Bool
  | .var _ => true
  | _ => false

def Arg.isCon : Arg → Bool
  | .atom _ => true
  | _ => false

/-- The word that an argument leads to. -/
theorem Arg.At.word {a : Arg} {p : Int} (h : a.At es m p) :
    ∃ w, Comes (fun n => deref m n (m.read p)) (some w) ∧ w.isVar = a.isVar ∧
      w.isCon = a.isCon := by
  cases a with
  | var x => exact ⟨.ref x, h, rfl, rfl⟩
  | atom s =>
    obtain ⟨w, hw, hs⟩ := h
    exact ⟨w, hw, hs.isCon.2, hs.isCon.1⟩
  | other =>
    obtain ⟨w, hw, hvar, hcon⟩ := h
    exact ⟨w, hw, hvar, hcon⟩

/-- Arguments that are in no mode. -/
theorem illegal_of {a1 a2 a3 : Arg} (h1 : a1.At es m (ip.st - 2)) (h2 : a2.At es m (ip.st - 1))
    (h3 : a3.At es m ip.st)
    (hmode : (a1.isVar && a2.isVar || (a1.isVar || a2.isVar) && a3.isVar ||
      (!a1.isVar && !a1.isCon || !a2.isVar && !a2.isCon || !a3.isVar && !a3.isCon)) = true) :
    ∃ fuel, bpAtomConcat ip m fuel = some (.illegal, ip, m) := by
  obtain ⟨w1, hw1, hv1, hc1⟩ := h1.word
  obtain ⟨w2, hw2, hv2, hc2⟩ := h2.word
  obtain ⟨w3, hw3, hv3, hc3⟩ := h3.word
  have hcomes : Comes (bpAtomConcat ip m) (some (.illegal, ip, m)) := by
    refine comes_bpAtomConcat hw1 hw2 hw3 ((comes_const _).congr fun n => ?_)
    rw [concatChecked, hv1, hv2, hv3, hc1, hc2, hc3]
    split_ifs with hboth hone hother
    · rfl
    · rfl
    · rfl
    · simp only [hboth, hone, hother, Bool.or_false, Bool.false_eq_true] at hmode
  exact (hcomes.exists_iff _).2 rfl

/-- Arguments that pass the checks. -/
theorem comes_modes {o : Option (Exit × Icb × Memory)}
    (h1 : Comes (fun n => deref m n (m.read (ip.st - 2))) (some w1))
    (h2 : Comes (fun n => deref m n (m.read (ip.st - 1))) (some w2))
    (h3 : Comes (fun n => deref m n (m.read ip.st)) (some w3))
    (hmode : (w1.isVar && w2.isVar || (w1.isVar || w2.isVar) && w3.isVar ||
      (!w1.isVar && !w1.isCon || !w2.isVar && !w2.isCon || !w3.isVar && !w3.isCon)) = false) :
    Comes (fun n => concatModes n ip m w1 w2 w3) o → Comes (bpAtomConcat ip m) o := by
  intro h
  refine comes_bpAtomConcat h1 h2 h3 (h.congr fun n => ?_)
  simp only [Bool.or_eq_false_iff] at hmode
  rw [concatChecked, hmode.1.1, hmode.1.2]
  simp only [Bool.false_eq_true, if_false, hmode.2.1.1, hmode.2.1.2, hmode.2.2, Bool.or_self]

/-- A result comes from the modes. -/
theorem modes_of_run {fuel : ℕ} {r : Exit × Icb × Memory}
    (h1 : Comes (fun n => deref m n (m.read (ip.st - 2))) (some w1))
    (h2 : Comes (fun n => deref m n (m.read (ip.st - 1))) (some w2))
    (h3 : Comes (fun n => deref m n (m.read ip.st)) (some w3))
    (hmode : (w1.isVar && w2.isVar || (w1.isVar || w2.isVar) && w3.isVar ||
      (!w1.isVar && !w1.isCon || !w2.isVar && !w2.isCon || !w3.isVar && !w3.isCon)) = false)
    (hrun : bpAtomConcat ip m fuel = some r) : concatModes fuel ip m w1 w2 w3 = some r := by
  obtain ⟨r1, hr1, hrun⟩ := Option.bind_eq_some_iff.1 hrun
  obtain ⟨r2, hr2, hrun⟩ := Option.bind_eq_some_iff.1 hrun
  obtain ⟨r3, hr3, hrun⟩ := Option.bind_eq_some_iff.1 hrun
  rw [argument, Int.sub_zero] at hr3
  obtain rfl := Option.some.inj (h1.only fuel r1 hr1)
  obtain rfl := Option.some.inj (h2.only fuel r2 hr2)
  obtain rfl := Option.some.inj (h3.only fuel r3 hr3)
  simp only [Bool.or_eq_false_iff] at hmode
  rw [concatChecked, hmode.1.1, hmode.1.2] at hrun
  simpa only [Bool.false_eq_true, if_false, hmode.2.1.1, hmode.2.1.2, hmode.2.2, Bool.or_self]
    using hrun

theorem compare_iff (h : Calls ip m es kinds) (h1 : (Arg.atom s1).At es m (ip.st - 2))
    (h2 : (Arg.atom s2).At es m (ip.st - 1)) (h3 : (Arg.atom s3).At es m ip.st) :
    ConcatRight ip m es kinds (.atom s1) (.atom s2) (.atom s3) ↔
      ConcatCond ip m es kinds (.atom s1) (.atom s2) (.atom s3) := by
  obtain ⟨w1, hw1, hs1⟩ := h1
  obtain ⟨w2, hw2, hs2⟩ := h2
  obtain ⟨w3, hw3, hs3⟩ := h3
  constructor
  · rintro ⟨fuel, hrun⟩
    have hmodes := modes_of_run hw1 hw2 hw3 (by simp [hs1.isCon, hs2.isCon, hs3.isCon]) hrun
    obtain ⟨hl1, hl2, hl3⟩ := long_of_run h.table hmodes
    exact ⟨hl1 s1 hs1, hl2 s2 hs2, hl3 s3 hs3⟩
  · rintro ⟨hl1, hl2, hl3⟩
    have hcomes := comes_modes hw1 hw2 hw3 (by simp [hs1.isCon, hs2.isCon, hs3.isCon])
      (comes_compare h.table hs1 hs2 hs3 hl1 hl2 hl3)
    exact (hcomes.exists_iff _).2 rfl

theorem join_iff (h : Calls ip m es kinds) (h1 : (Arg.atom s1).At es m (ip.st - 2))
    (h2 : (Arg.atom s2).At es m (ip.st - 1)) (h3 : (Arg.var x).At es m ip.st) :
    ConcatRight ip m es kinds (.atom s1) (.atom s2) (.var x) ↔
      ConcatCond ip m es kinds (.atom s1) (.atom s2) (.var x) := by
  obtain ⟨w1, hw1, hs1⟩ := h1
  obtain ⟨w2, hw2, hs2⟩ := h2
  have hmode : (w1.isVar && w2.isVar || (w1.isVar || w2.isVar) && (Word.ref x).isVar ||
      (!w1.isVar && !w1.isCon || !w2.isVar && !w2.isCon ||
        !(Word.ref x).isVar && !(Word.ref x).isCon)) = false := by
    simp [hs1.isCon, hs2.isCon, isVar_ref]
  constructor
  · rintro ⟨fuel, r, s, hrun, hs, hbound⟩
    obtain ⟨hl1, hl2, -⟩ := long_of_run h.table (modes_of_run hw1 hw2 h3 hmode hrun)
    refine ⟨hl1 s1 hs1, hl2 s2 hs2, ?_⟩
    intro s' hs'
    obtain rfl := Str.ext (hs'.trans hs.symm)
    exact hbound.canBind h
  · rintro ⟨hl1, hl2, hbind⟩
    have hclean : 0 ∉ s1.chars ++ s2.chars := by
      rw [List.mem_append, not_or]
      exact ⟨s1.clean, s2.clean⟩
    obtain ⟨r, hr, hbound⟩ := comes_join h hs1 hs2 h3 hl1 hl2 (s := ⟨_, hclean⟩) rfl
      (hbind ⟨_, hclean⟩ rfl)
    obtain ⟨fuel, hfuel⟩ := ((comes_modes hw1 hw2 h3 hmode hr).exists_iff _).2 rfl
    exact ⟨fuel, r, ⟨_, hclean⟩, hfuel, rfl, hbound⟩

theorem suffix_iff (h : Calls ip m es kinds) (h1 : (Arg.atom s1).At es m (ip.st - 2))
    (h2 : (Arg.var x).At es m (ip.st - 1)) (h3 : (Arg.atom s3).At es m ip.st) :
    ConcatRight ip m es kinds (.atom s1) (.var x) (.atom s3) ↔
      ConcatCond ip m es kinds (.atom s1) (.var x) (.atom s3) := by
  obtain ⟨w1, hw1, hs1⟩ := h1
  obtain ⟨w3, hw3, hs3⟩ := h3
  have hmode : (w1.isVar && (Word.ref x).isVar || (w1.isVar || (Word.ref x).isVar) && w3.isVar ||
      (!w1.isVar && !w1.isCon || !(Word.ref x).isVar && !(Word.ref x).isCon ||
        !w3.isVar && !w3.isCon)) = false := by
    simp [hs1.isCon, hs3.isCon, isVar_ref]
  constructor
  · rintro (⟨fuel, r, s, hrun, hs, hbound⟩ | ⟨hne, fuel, hrun⟩)
    · obtain ⟨hl1, -, hl3⟩ := long_of_run h.table (modes_of_run hw1 h2 hw3 hmode hrun)
      refine ⟨hl1 s1 hs1, hl3 s3 hs3, ?_⟩
      intro s' hs'
      obtain rfl := Str.ext (List.append_cancel_left (hs'.symm.trans hs))
      exact hbound.canBind h
    · obtain ⟨hl1, -, hl3⟩ := long_of_run h.table (modes_of_run hw1 h2 hw3 hmode hrun)
      refine ⟨hl1 s1 hs1, hl3 s3 hs3, ?_⟩
      intro s' hs'
      exact absurd ⟨s'.chars, hs'.symm⟩ hne
  · rintro ⟨hl1, hl3, hbind⟩
    by_cases hbegins : s1.chars <+: s3.chars
    · obtain ⟨rest, hrest⟩ := hbegins
      have hclean : 0 ∉ rest := by
        intro hmem
        exact s3.clean (hrest ▸ List.mem_append_right _ hmem)
      obtain ⟨r, hr, hbound⟩ := comes_suffix h hs1 hs3 h2 hl1 hl3 (s := ⟨rest, hclean⟩)
        hrest.symm (hbind ⟨rest, hclean⟩ hrest.symm)
      obtain ⟨fuel, hfuel⟩ := ((comes_modes hw1 h2 hw3 hmode hr).exists_iff _).2 rfl
      exact .inl ⟨fuel, r, ⟨rest, hclean⟩, hfuel, hrest.symm, hbound⟩
    · have hcomes := comes_modes hw1 h2 hw3 hmode
        (comes_suffix_fail h.table hs1 hs3 hl1 hl3 hbegins)
      exact .inr ⟨hbegins, (hcomes.exists_iff _).2 rfl⟩

theorem prefix_iff (h : Calls ip m es kinds) (h1 : (Arg.var x).At es m (ip.st - 2))
    (h2 : (Arg.atom s2).At es m (ip.st - 1)) (h3 : (Arg.atom s3).At es m ip.st) :
    ConcatRight ip m es kinds (.var x) (.atom s2) (.atom s3) ↔
      ConcatCond ip m es kinds (.var x) (.atom s2) (.atom s3) := by
  obtain ⟨w2, hw2, hs2⟩ := h2
  obtain ⟨w3, hw3, hs3⟩ := h3
  have hmode : ((Word.ref x).isVar && w2.isVar || ((Word.ref x).isVar || w2.isVar) && w3.isVar ||
      (!(Word.ref x).isVar && !(Word.ref x).isCon || !w2.isVar && !w2.isCon ||
        !w3.isVar && !w3.isCon)) = false := by
    simp [hs2.isCon, hs3.isCon, isVar_ref]
  have hfits : ∀ {fuel r}, bpAtomConcat ip m fuel = some r → Long s2 ∧ Long s3 ∧
      s2.chars.length ≤ s3.chars.length := by
    intro fuel r hrun
    have hmodes := modes_of_run h1 hw2 hw3 hmode hrun
    obtain ⟨-, hl2, hl3⟩ := long_of_run h.table hmodes
    refine ⟨hl2 s2 hs2, hl3 s3 hs3, ?_⟩
    by_contra hlt
    rw [concatModes_longer h.table hs2 hs3 (Nat.lt_of_not_le hlt)] at hmodes
    cases hmodes
  constructor
  · rintro (⟨fuel, r, s, hrun, hs, hbound⟩ | ⟨hne, fuel, hrun⟩)
    · obtain ⟨hl2, hl3, hle⟩ := hfits hrun
      refine ⟨hl2, hl3, hle, ?_⟩
      intro s' hs'
      obtain rfl := Str.ext (List.append_cancel_right (hs'.symm.trans hs))
      exact hbound.canBind h
    · obtain ⟨hl2, hl3, hle⟩ := hfits hrun
      refine ⟨hl2, hl3, hle, ?_⟩
      intro s' hs'
      exact absurd ⟨s'.chars, hs'.symm⟩ hne
  · rintro ⟨hl2, hl3, hle, hbind⟩
    by_cases hends : s2.chars <:+ s3.chars
    · obtain ⟨rest, hrest⟩ := hends
      have hclean : 0 ∉ rest := by
        intro hmem
        exact s3.clean (hrest ▸ List.mem_append_left _ hmem)
      obtain ⟨r, hr, hbound⟩ := comes_prefix h hs2 hs3 h1 hl2 hl3 (s := ⟨rest, hclean⟩)
        hrest.symm (hbind ⟨rest, hclean⟩ hrest.symm)
      obtain ⟨fuel, hfuel⟩ := ((comes_modes h1 hw2 hw3 hmode hr).exists_iff _).2 rfl
      exact .inl ⟨fuel, r, ⟨rest, hclean⟩, hfuel, hrest.symm, hbound⟩
    · have hcomes := comes_modes h1 hw2 hw3 hmode
        (comes_prefix_fail h.table hs2 hs3 hl2 hl3 hle hends)
      exact .inr ⟨hends, (hcomes.exists_iff _).2 rfl⟩

/-- **`atom_concat/3` is concatenation** exactly when no argument is a name of one character, what
is taken off the end is not longer than the whole, and the name that comes out has not one character
and has room. -/
theorem atom_concat_iff (h : Calls ip m es kinds) {a1 a2 a3 : Arg}
    (h1 : a1.At es m (ip.st - 2)) (h2 : a2.At es m (ip.st - 1)) (h3 : a3.At es m ip.st) :
    ConcatRight ip m es kinds a1 a2 a3 ↔ ConcatCond ip m es kinds a1 a2 a3 := by
  match a1, a2, a3 with
  | .atom s1, .atom s2, .atom s3 => exact compare_iff h h1 h2 h3
  | .atom s1, .atom s2, .var x => exact join_iff h h1 h2 h3
  | .atom s1, .var x, .atom s3 => exact suffix_iff h h1 h2 h3
  | .var x, .atom s2, .atom s3 => exact prefix_iff h h1 h2 h3
  | .var x, .var y, a3 =>
    cases a3 <;> exact iff_of_true (illegal_of h1 h2 h3 (by simp [Arg.isVar])) trivial
  | .other, a2, a3 =>
    cases a2 <;> cases a3 <;>
      exact iff_of_true (illegal_of h1 h2 h3 (by simp [Arg.isVar, Arg.isCon])) trivial
  | .var x, .other, a3 =>
    cases a3 <;> exact iff_of_true (illegal_of h1 h2 h3 (by simp [Arg.isVar, Arg.isCon])) trivial
  | .atom s1, .other, a3 =>
    cases a3 <;> exact iff_of_true (illegal_of h1 h2 h3 (by simp [Arg.isVar, Arg.isCon])) trivial
  | .atom s1, .atom s2, .other =>
    exact iff_of_true (illegal_of h1 h2 h3 (by simp [Arg.isVar, Arg.isCon])) trivial
  | .atom s1, .var x, .var y =>
    exact iff_of_true (illegal_of h1 h2 h3 (by simp [Arg.isVar])) trivial
  | .atom s1, .var x, .other =>
    exact iff_of_true (illegal_of h1 h2 h3 (by simp [Arg.isVar, Arg.isCon])) trivial
  | .var x, .atom s2, .var y =>
    exact iff_of_true (illegal_of h1 h2 h3 (by simp [Arg.isVar])) trivial
  | .var x, .atom s2, .other =>
    exact iff_of_true (illegal_of h1 h2 h3 (by simp [Arg.isVar, Arg.isCon])) trivial

/-! ## A caller -/

/-- An imago with three names and three arguments on its stack. -/
def caller : Icb where
  expansions := 0
  block_base := 0
  block_ceiling := 200
  name_base := 0
  name_top := 7
  proc_base := 0
  code_base := 0
  stack_base := 100
  pp := 0
  af := 0
  cp := 0
  cf := 100
  st := 102
  bb := 99
  b0 := 99
  gl := 99
  tt := 199

/-- The names `''`, `ab` and `cd`. -/
def callerNames : List CString := [⟨[], by decide⟩, ⟨[97, 98], by decide⟩, ⟨[99, 100], by decide⟩]

def callerMemory (w1 w2 w3 : Word) : Memory :=
  ((({ word := fun _ => 0, byte := fun a => (pack callerNames).getD a.toNat 0 } : Memory).write
    100 w1).write 101 w2).write 102 w3

theorem read_callerMemory (w1 w2 w3 : Word) : (callerMemory w1 w2 w3).read 100 = w1 ∧
    (callerMemory w1 w2 w3).read 101 = w2 ∧ (callerMemory w1 w2 w3).read 102 = w3 := by
  simp [callerMemory, Memory.read_write_of_ne]

theorem caller_calls {w1 w2 w3 : Word} (h1 : w1.isVar = false) (h2 : w2.isVar = false)
    (h3 : w3 = .ref 102 ∨ w3.isVar = false) :
    Calls caller (callerMemory w1 w2 w3) callerNames [.cell, .cell, .cell] where
  table := by
    refine ⟨?_, by decide, by decide⟩
    intro i b h
    have hplace : (caller.name_base + i).toNat = i := by simp [caller]
    show (pack callerNames).getD (caller.name_base + i).toNat 0 = b
    rw [hplace, List.getD_eq_getElem?_getD, h, Option.getD_some]
  st := by decide
  below := by decide
  args := by
    intro k hk
    obtain rfl | rfl | rfl : k = 0 ∨ k = 1 ∨ k = 2 := by omega
    · exact ⟨2, rfl, rfl⟩
    · exact ⟨1, rfl, rfl⟩
    · exact ⟨0, rfl, rfl⟩
  refs := by
    rintro a b ⟨i, hi, rfl⟩ hread
    obtain ⟨hr1, hr2, hr3⟩ := read_callerMemory w1 w2 w3
    have hlt : i < 3 := (List.getElem?_eq_some_iff.1 hi).1
    obtain rfl | rfl | rfl : i = 0 ∨ i = 1 ∨ i = 2 := by omega
    · have : w1 = .ref b := hr1.symm.trans hread
      rw [this] at h1
      cases h1
    · have : w2 = .ref b := hr2.symm.trans hread
      rw [this] at h2
      cases h2
    · have hw : w3 = .ref b := hr3.symm.trans hread
      rcases h3 with h3 | h3
      · rw [h3] at hw
        injection hw with hb
        exact ⟨2, rfl, hb.symm⟩
      · rw [hw] at h3
        cases h3

/-- A constant is what it leads to. -/
theorem comes_deref_con (m : Memory) {w : Word} (hw : w.isCon = true) :
    Comes (fun n => deref m n w) (some w) := by
  refine .of_succ rfl ((comes_const _).congr fun n => ?_)
  cases w with
  | cst v => rfl
  | _ => cases hw

/-- An argument with the atom of a name of the caller. -/
theorem atom_at {m : Memory} {a : Int} {s : CString} {i : ℕ}
    (h : m.read a = .makeCon (i + ASCII_SIZE))
    (hlong : Long s) (hindex : IndexOf callerNames s i) : (Arg.atom s).At callerNames m a := by
  have hcon := comes_deref_con m (isCon_makeCon (i + ASCII_SIZE))
  exact ⟨.makeCon (i + ASCII_SIZE), by rwa [h], .inr ⟨hlong, i, hindex, rfl⟩⟩

/-- `ab` and `cd` are joined to the new name `abcd`. -/
theorem atom_concat_iff_join :
    ConcatRight caller (callerMemory (.makeCon (1 + ASCII_SIZE)) (.makeCon (4 + ASCII_SIZE))
      (.ref 102))
      callerNames [.cell, .cell, .cell] (.atom ⟨[97, 98], by decide⟩)
      (.atom ⟨[99, 100], by decide⟩) (.var 102) := by
  obtain ⟨h1, h2, h3⟩ :=
    read_callerMemory (.makeCon (1 + ASCII_SIZE)) (.makeCon (4 + ASCII_SIZE)) (.ref 102)
  have hvar : (Arg.var 102).At callerNames
      (callerMemory (.makeCon (1 + ASCII_SIZE)) (.makeCon (4 + ASCII_SIZE)) (.ref 102))
        caller.st := by
    refine .of_succ rfl ((comes_const _).congr fun n => ?_)
    rw [show caller.st = 102 from rfl, h3, deref, if_pos h3]
  have hab : IndexOf callerNames ⟨[97, 98], by decide⟩ 1 := ⟨[⟨[], by decide⟩], _, rfl, rfl⟩
  have hcd : IndexOf callerNames ⟨[99, 100], by decide⟩ 4 :=
    ⟨[⟨[], by decide⟩, ⟨[97, 98], by decide⟩], _, rfl, rfl⟩
  have hlong : ∀ s : CString, s.chars.length = 2 → Long s := fun s hs => by rw [Long, hs]; decide
  refine (atom_concat_iff (caller_calls rfl rfl (.inl rfl)) (atom_at h1 (hlong _ rfl) hab)
    (atom_at h2 (hlong _ rfl) hcd) hvar).2 ⟨hlong _ rfl, hlong _ rfl, ?_⟩
  intro s hs
  have hlen : s.chars.length = 4 := by rw [hs]; rfl
  refine ⟨by rw [Long, hlen]; decide, .inr (.inl ?_)⟩
  rw [hlen]
  decide

/-- `atom_concat('', a, a)` reads outside the name table. -/
theorem not_concatRight_letter :
    ¬ ConcatRight caller (callerMemory (.makeCon ASCII_SIZE) (.makeCon 97) (.makeCon 97))
      callerNames
      [.cell, .cell, .cell] (.atom ⟨[], by decide⟩) (.atom ⟨[97], by decide⟩)
      (.atom ⟨[97], by decide⟩) := by
  obtain ⟨h1, h2, h3⟩ := read_callerMemory (.makeCon ASCII_SIZE) (.makeCon 97) (.makeCon 97)
  have hletter : ∀ {m : Memory} {a : Int}, m.read a = .makeCon 97 →
      (Arg.atom ⟨[97], by decide⟩).At callerNames m a := by
    intro m a h
    exact ⟨.makeCon 97, by rw [h]; exact comes_deref_con m rfl, .inl ⟨97, rfl, rfl⟩⟩
  have hempty : IndexOf callerNames ⟨[], by decide⟩ 0 := ⟨[], _, rfl, rfl⟩
  have hlong : Long ⟨[], by decide⟩ := Nat.zero_ne_one
  intro h
  have hcond := (compare_iff (caller_calls rfl rfl (.inr rfl))
    (atom_at (i := 0) h1 hlong hempty) (hletter h2) (hletter h3)).1 h
  exact hcond.2.1 rfl

end Mlvm.Builtins
