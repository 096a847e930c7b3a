import Mlvm.Imagoc.Operands

/-!
# The listing is read back

The reader of the assembler is followed over a whole listing. **In step** (`Program.ReadsBack`): at
every line it finds the labels and the opcode that were written, at every operand the operand, and
it stands right behind it; so that the tokens of the program are those that were meant, and a
reference meets the definition of its own label only.

**What decides** (`Program.Plain`) is the names alone, next to the one opcode that imagoc writes and
the assembler does not know. The reader skips nothing that is written: the characters of the labels
and the opcode it returns are all the characters there are, so that a label which is taken for a
comment is missed.

Main results: `getOpcode_of_plain` and `getOpcode_iff`.
-/

namespace Mlvm

namespace Listing

open Assembler Extraction

variable {s t w : Name}

/-! ## In step -/

/-- Every operand is read, and what follows it is left. -/
def ReadsArgs (strtod : Name → Int × Int) : List (ℕ × Arg) → Name → Prop
  | [], _ => True
  | (g, a) :: args, t =>
      readOperand strtod a.kind (blanks (g + 1) ++ (a.text ++ (argsText args ++ t))) =
        some (a.operand strtod, argsText args ++ t) ∧ ReadsArgs strtod args t

/-- The labels, the opcode and the operands of a line are read in front of `t`. -/
structure Line.Reads (strtod : Name → Int × Int) (l : Line) (t : Name) : Prop where
  opcode : ∃ op, opcodeIndex l.instr.mnemonic = some op ∧
    getOpcode (l.front ++ (l.instr.mnemonic ++ (l.instr.rest ++ t))) =
      some (some (l.labels.map fun d => d.label.text, op, l.instr.rest ++ t))
  args : ReadsArgs strtod l.instr.args (blanks l.instr.trail ++ t)

def ReadsLines (strtod : Name → Int × Int) : List Line → Name → Prop
  | [], _ => True
  | l :: ls, t => l.Reads strtod (linesText ls ++ t) ∧ ReadsLines strtod ls t

/-- A line, to the assembler. -/
def Line.source (strtod : Name → Int × Int) (op : ℕ) (l : Line) : Assembler.Line :=
  ⟨l.labels.map fun d => d.label.text, op, .plain (l.instr.args.map fun a => a.2.operand strtod)⟩

def linesSource (strtod : Name → Int × Int) : List Line → Option (List Assembler.Line)
  | [] => some []
  | l :: ls =>
      (opcodeIndex l.instr.mnemonic).bind fun op =>
        (linesSource strtod ls).map (l.source strtod op :: ·)

namespace Program

/-- The program, to the assembler. -/
def source (strtod : Name → Int × Int) (p : Program) : Option Assembler.Source :=
  (linesSource strtod p.lines).map fun ls => ⟨[], p.op, p.file.chars, 1, ls⟩

/-- **The listing is read back**: in step from the first line to the last, as the same program, in
which a reference meets no definition but its own. -/
structure ReadsBack (strtod : Name → Int × Int) (p : Program) : Prop where
  type : getOpcode p.text = some (some ([], p.op, blanks 2 ++ (slashed p.file.chars 1 ++ p.body)))
  file : getFunName (blanks 2 ++ (slashed p.file.chars 1 ++ p.body)) =
    some ((p.file.chars, 1), p.body)
  lines : ReadsLines strtod p.lines (List.replicate p.newlines newline)
  whole : ∃ src, p.source strtod = some src ∧ readSource strtod p.text = some src
  labels : ∀ r ∈ references p.lines, ∀ d ∈ definitions p.lines, r.text = d.text → r = d

end Program

/-! ## What decides -/

/-- A label that is defined and survives. -/
def LabelAt.Plain (l : LabelAt) : Prop :=
  NoSpace isSpace l.label.text ∧ l.label.text.length + 1 < MAX_LEN

/-- A line survives: its first label does not look like a comment, all labels and operands are
plain, and the assembler knows the opcode. -/
structure Line.Plain (l : Line) : Prop where
  known : (opcodeIndex l.instr.mnemonic).isSome
  labels : ∀ d ∈ l.labels, d.Plain
  first : ∀ d, l.labels.head? = some d → d.label.text.head? ≠ some slash
  args : ∀ a ∈ l.instr.args, a.2.Plain

/-- The name of the imago and all lines survive. -/
structure Program.Plain (p : Program) : Prop where
  file : NoSpace isSpace p.file.chars ∧ slash ∉ p.file.chars ∧
    (slashed p.file.chars 1).length < MAX_LEN
  lines : ∀ l ∈ p.lines, l.Plain

/-! ## Opcodes -/

/-- An opcode that is read as one. -/
structure Mnemonic (w : Name) : Prop where
  ne_nil : w ≠ []
  noSpace : NoSpace isSpace w
  short : w.length < MAX_LEN
  noComment : w.head? ≠ some slash
  noLabel : w.getLast? ≠ some colon
  noNul : w.head? ≠ some 0

theorem mnemonics : opcodeTab.all (fun row => !(ascii row.1).isEmpty &&
    (ascii row.1).all (fun c => !isSpace c) && decide ((ascii row.1).length < MAX_LEN) &&
    (ascii row.1).head? != some slash && (ascii row.1).getLast? != some colon &&
    (ascii row.1).head? != some 0) = true := by
  decide +kernel

theorem opcodeIndex_row {op : ℕ} (h : opcodeIndex w = some op) :
    ∃ row, opcodeTab[op]? = some row ∧ ascii row.1 = w := by
  obtain ⟨hlt, hrow, -⟩ := List.findIdx?_eq_some_iff_getElem.1 h
  exact ⟨opcodeTab[op], List.getElem?_eq_getElem hlt, of_decide_eq_true hrow⟩

theorem mnemonic_of_index {op : ℕ} (h : opcodeIndex w = some op) : Mnemonic w := by
  obtain ⟨row, hrow, rfl⟩ := opcodeIndex_row h
  have := List.all_eq_true.1 mnemonics row (List.mem_of_getElem? hrow)
  simp only [Bool.and_eq_true, Bool.not_eq_true', List.isEmpty_eq_false_iff, List.all_eq_true,
    decide_eq_true_eq, bne_iff_ne] at this
  obtain ⟨⟨⟨⟨⟨hne, hspace⟩, hlen⟩, hslash⟩, hcolon⟩, hnul⟩ := this
  exact ⟨hne, hspace, hlen, hslash, hcolon, hnul⟩

theorem opcodeIndex_inj {w' : Name} {op : ℕ} (h : opcodeIndex w = some op)
    (h' : opcodeIndex w' = some op) : w = w' := by
  obtain ⟨row, hrow, rfl⟩ := opcodeIndex_row h
  obtain ⟨row', hrow', rfl⟩ := opcodeIndex_row h'
  rw [hrow] at hrow'
  rw [Option.some.inj hrow']

/-! ## Blank lines and comments -/

theorem skipLines_gap {g : Name} (hg : ∀ c ∈ g, c = newline ∨ c = blank) (s : Name) :
    skipLines false (g ++ s) = skipLines false s := by
  induction g with
  | nil => rfl
  | cons c g ih =>
    have hc := hg c (List.mem_cons_self ..)
    have hslash : c ≠ slash := by
      rintro rfl
      revert hc
      decide
    have hblank : c = newline ∨ c = blank ∨ c = 9 := hc.imp_right Or.inl
    rw [List.cons_append, skipLines, if_neg hslash, if_pos hblank]
    exact ih fun d hd => hg d (List.mem_cons_of_mem _ hd)

theorem skipLines_stop {c : UInt8} (hspace : isSpace c = false) (hslash : c ≠ slash) (hnul : c ≠ 0)
    (s : Name) : skipLines false (c :: s) = c :: s := by
  have hblank : ¬ (c = newline ∨ c = blank ∨ c = 9) := by
    rintro (rfl | rfl | rfl) <;> cases hspace
  rw [skipLines, if_neg hslash, if_neg hblank, if_neg hnul]

theorem weight_cons_le (c : UInt8) (s : Name) : weight isSpace s ≤ weight isSpace (c :: s) :=
  (List.sublist_cons_self c s).countP_le

theorem weight_skipLines (comment : Bool) (s : Name) :
    weight isSpace (skipLines comment s) ≤ weight isSpace s := by
  induction s generalizing comment with
  | nil => rw [skipLines]
  | cons c s ih =>
    have hcons := weight_cons_le c s
    cases comment with
    | true =>
      rw [skipLines]
      exact (ih _).trans hcons
    | false =>
      rw [skipLines]
      split_ifs
      · exact (ih _).trans hcons
      · exact (ih _).trans hcons
      · exact Nat.zero_le _
      · exact Nat.le_refl _

/-- The slash of a comment is skipped. -/
theorem weight_skipLines_comment {g : Name} (hg : ∀ c ∈ g, c = newline ∨ c = blank) (s : Name) :
    weight isSpace (skipLines false (g ++ slash :: s)) < weight isSpace (g ++ slash :: s) := by
  have hslash : weight isSpace (slash :: s) = weight isSpace s + 1 :=
    List.countP_cons_of_pos rfl
  have hskip : skipLines false (slash :: s) = skipLines true s := by rw [skipLines, if_pos rfl]
  rw [skipLines_gap hg, hskip, weight_append, hslash]
  have := weight_skipLines true s
  omega

theorem weight_newLine (s : Name) : weight isSpace (newLine s) ≤ weight isSpace s :=
  ((List.drop_sublist 1 _).trans (List.dropWhile_sublist _)).countP_le

/-- The end of a line is behind what is in it. -/
theorem newLine_append {g : Name} (hg : newline ∉ g) (hs : ∀ c, s.head? = some c → c = newline) :
    newLine (g ++ s) = s.drop 1 := by
  rw [newLine, dropWhile_run]
  · intro c hc
    exact decide_eq_true fun heq => hg (heq ▸ hc)
  · intro c hc
    exact decide_eq_false fun hne => hne (hs c hc)

/-! ## Labels in front of an opcode -/

theorem LabelAt.gap_spaces (d : LabelAt) : Spaces isSpace d.gap := by
  have hblanks := spaces_blanks d.pad
  rw [LabelAt.gap]
  split_ifs
  · refine hblanks.append ?_
    intro c hc
    rw [List.mem_singleton.1 hc]
    rfl
  · exact spaces_blanks _

theorem LabelAt.gap_ne_nil (d : LabelAt) : d.gap ≠ [] := by
  rw [LabelAt.gap]
  split_ifs
  · exact List.append_ne_nil_of_right_ne_nil _ (List.cons_ne_nil _ _)
  · exact List.cons_ne_nil _ _

theorem LabelAt.gap_ends (d : LabelAt) (s : Name) : Ends isSpace (d.gap ++ s) := by
  obtain ⟨c, cs, hcs⟩ := List.exists_cons_of_ne_nil d.gap_ne_nil
  have hc := d.gap_spaces c (hcs ▸ List.mem_cons_self ..)
  rw [hcs]
  exact .cons hc

theorem length_le_labels (ds : List LabelAt) : ds.length ≤ (ds.flatMap LabelAt.text).length := by
  induction ds with
  | nil => exact Nat.le_refl _
  | cons d ds ih =>
    rw [List.length_cons, List.flatMap_cons, List.length_append, LabelAt.text, List.length_append,
      List.length_cons]
    omega

/-- Plain labels are found, and the opcode behind them. -/
theorem opcodeWord_labels (hw : Mnemonic w) (ht : Ends isSpace t) {g' : Name}
    (hg' : Spaces isSpace g') : ∀ (ds : List LabelAt) (g : Name) (fuel : ℕ), Spaces isSpace g →
    (∀ d ∈ ds, d.Plain) → ds.length < fuel →
    opcodeWord fuel (g ++ (ds.flatMap LabelAt.text ++ (g' ++ (w ++ t)))) =
      some (ds.map fun d => d.label.text, w, t)
  | _, _, 0, _, _, h => absurd h (Nat.not_lt_zero _)
  | [], g, fuel + 1, hg, _, _ => by
    have hword := (word_iff (hg.append hg') hw.ne_nil ht).2 ⟨hw.noSpace, hw.short⟩
    rw [List.flatMap_nil, List.nil_append, ← List.append_assoc, opcodeWord, hword, Option.bind_some]
    dsimp only
    rw [if_neg hw.noLabel, if_neg hw.noComment]
    rfl
  | d :: ds, g, fuel + 1, hg, hds, hfuel => by
    obtain ⟨hspace, hlen⟩ := hds d (List.mem_cons_self ..)
    have htext : (d :: ds).flatMap LabelAt.text ++ (g' ++ (w ++ t)) = d.label.text ++ [colon] ++
        (d.gap ++ (ds.flatMap LabelAt.text ++ (g' ++ (w ++ t)))) := by
      simp [LabelAt.text]
    have hcolon : NoSpace isSpace (d.label.text ++ [colon]) := by
      intro c hc
      rcases List.mem_append.1 hc with hc | hc
      · exact hspace c hc
      · rw [List.mem_singleton.1 hc]
        rfl
    have hshort : (d.label.text ++ [colon]).length < MAX_LEN := by
      rw [List.length_append, List.length_singleton]
      exact hlen
    have hword := (word_iff hg (List.append_ne_nil_of_right_ne_nil _ (List.cons_ne_nil _ _))
      (d.gap_ends (ds.flatMap LabelAt.text ++ (g' ++ (w ++ t))))).2 ⟨hcolon, hshort⟩
    have hrest := opcodeWord_labels hw ht hg' ds d.gap fuel d.gap_spaces
      (fun e he => hds e (List.mem_cons_of_mem _ he)) (Nat.lt_of_succ_lt_succ hfuel)
    rw [htext, opcodeWord, hword, Option.bind_some]
    dsimp only
    rw [if_pos List.getLast?_concat, hrest, List.dropLast_concat]
    rfl

/-- Every character that is not a space is in a label or the opcode, or left, unless it is in a
comment. -/
theorem opcodeWord_weight : ∀ {fuel : ℕ} {s : Name} {ls : List Name} {w r : Name},
    opcodeWord fuel s = some (ls, w, r) →
      (∀ l ∈ ls, NoSpace isSpace l ∧ l.length + 1 < MAX_LEN) ∧
      (ls.map fun l => l.length + 1).sum + (w.length + weight isSpace r) ≤ weight isSpace s
  | 0, _, _, _, _, h => by cases h
  | fuel + 1, s, ls, w, r, h => by
    rw [opcodeWord] at h
    obtain ⟨⟨v, s'⟩, hword, h⟩ := Option.bind_eq_some_iff.1 h
    obtain ⟨hspace, -, hshort, hweight⟩ := word_cases hword
    dsimp only at h
    by_cases hlabel : v.getLast? = some colon
    · rw [if_pos hlabel] at h
      obtain ⟨⟨ls', w', r'⟩, hrest, heq⟩ := Option.map_eq_some_iff.1 h
      simp only [Prod.mk.injEq] at heq
      obtain ⟨rfl, rfl, rfl⟩ := heq
      obtain ⟨hplain, hle⟩ := opcodeWord_weight hrest
      obtain ⟨l, rfl⟩ := List.getLast?_eq_some_iff.1 hlabel
      rw [List.length_append, List.length_singleton] at hshort hweight
      rw [List.dropLast_concat, List.map_cons, List.sum_cons]
      refine ⟨?_, by omega⟩
      intro l' hl'
      rcases List.mem_cons.1 hl' with rfl | hl'
      · exact ⟨fun c hc => hspace c (List.mem_append_left _ hc), hshort⟩
      · exact hplain l' hl'
    · rw [if_neg hlabel] at h
      split_ifs at h with hcomment
      · obtain ⟨hplain, hle⟩ := opcodeWord_weight h
        have hline := weight_newLine s'
        exact ⟨hplain, by omega⟩
      · simp only [Option.some.injEq, Prod.mk.injEq] at h
        obtain ⟨rfl, rfl, rfl⟩ := h
        refine ⟨fun l hl => absurd hl (List.not_mem_nil), ?_⟩
        rw [List.map_nil, List.sum_nil]
        omega

/-- What `get_opcode` has found. -/
theorem getOpcode_cases {ls : List Name} {op : ℕ} {r : Name}
    (h : getOpcode s = some (some (ls, op, r))) : ∃ w fuel, opcodeIndex w = some op ∧
      opcodeWord fuel (skipLines false s) = some (ls, w, r) := by
  rw [getOpcode] at h
  split_ifs at h
  · cases h
  obtain ⟨⟨ls', w, r'⟩, hword, h⟩ := Option.bind_eq_some_iff.1 h
  obtain ⟨op', hop, heq⟩ := Option.map_eq_some_iff.1 h
  simp only [Option.some.injEq, Prod.mk.injEq] at heq
  obtain ⟨rfl, rfl, rfl⟩ := heq
  exact ⟨w, _, hop, hword⟩

/-! ## The opcode of a line -/

/-- A label begins like the name of its procedure, or with the slash behind it. -/
theorem Label.head_cases (l : Label) : ∃ c, l.text.head? = some c ∧ c ≠ 0 := by
  cases l with
  | fail => exact ⟨102, rfl, by decide⟩
  | «at» proname argnum place =>
    cases hname : proname.chars with
    | nil => exact ⟨slash, by rw [Label.text, hname]; rfl, by decide⟩
    | cons c cs =>
      refine ⟨c, by rw [Label.text, hname]; rfl, ?_⟩
      rintro rfl
      exact proname.clean (hname ▸ List.mem_cons_self ..)

/-- **A line is entered**: plain labels and a known opcode are found behind newlines and blanks. -/
theorem getOpcode_of_plain {op : ℕ} {g : Name} (hg : ∀ c ∈ g, c = newline ∨ c = blank)
    (ds : List LabelAt) (indent : ℕ) (hop : opcodeIndex w = some op) (ht : Ends isSpace t)
    (hplain : ∀ d ∈ ds, d.Plain)
    (hfirst : ∀ d, ds.head? = some d → d.label.text.head? ≠ some slash) :
    getOpcode (g ++ (ds.flatMap LabelAt.text ++ (blanks indent ++ (w ++ t)))) =
      some (some (ds.map fun d => d.label.text, op, t)) := by
  have hw := mnemonic_of_index hop
  have hspaces : Spaces isSpace ([] : Name) := fun c hc => absurd hc List.not_mem_nil
  -- the text from the first character that is not skipped
  obtain ⟨g', hg', hskip⟩ : ∃ g', Spaces isSpace g' ∧
      skipLines false (g ++ (ds.flatMap LabelAt.text ++ (blanks indent ++ (w ++ t)))) =
        ds.flatMap LabelAt.text ++ (g' ++ (w ++ t)) := by
    rw [skipLines_gap hg]
    cases ds with
    | nil =>
      obtain ⟨c, cs, rfl⟩ := List.exists_cons_of_ne_nil hw.ne_nil
      have hc := hw.noSpace c (List.mem_cons_self ..)
      have hslash : c ≠ slash := fun heq => hw.noComment (congrArg some heq)
      have hnul : c ≠ 0 := fun heq => hw.noNul (congrArg some heq)
      have hblanks : ∀ d ∈ blanks indent, d = newline ∨ d = blank :=
        fun d hd => .inr (List.eq_of_mem_replicate hd)
      refine ⟨[], hspaces, ?_⟩
      rw [List.flatMap_nil, List.nil_append, List.nil_append, skipLines_gap hblanks]
      exact skipLines_stop hc hslash hnul _
    | cons d ds =>
      obtain ⟨c, hhead, hnul⟩ := d.label.head_cases
      have hslash : c ≠ slash := by
        rintro rfl
        exact hfirst d rfl hhead
      obtain ⟨cs, hcs⟩ := List.head?_eq_some_iff.1 hhead
      have hc := (hplain d (List.mem_cons_self ..)).1 c (hcs ▸ List.mem_cons_self ..)
      refine ⟨blanks indent, spaces_blanks _, ?_⟩
      rw [List.flatMap_cons, LabelAt.text, hcs]
      exact skipLines_stop hc hslash hnul _
  have hfuel : ds.length < (g ++ (ds.flatMap LabelAt.text ++ (blanks indent ++ (w ++ t)))).length
      + 1 := by
    have := length_le_labels ds
    rw [List.length_append, List.length_append]
    omega
  have hword := opcodeWord_labels hw ht hg' ds [] _ hspaces hplain hfuel
  rw [List.nil_append] at hword
  have hne : ds.flatMap LabelAt.text ++ (g' ++ (w ++ t)) ≠ [] :=
    List.append_ne_nil_of_right_ne_nil _
      (List.append_ne_nil_of_right_ne_nil _ (List.append_ne_nil_of_left_ne_nil hw.ne_nil _))
  rw [getOpcode, hskip, if_neg hne, hword, Option.bind_some]
  dsimp only
  rw [hop, Option.map_some]

theorem front_gap (l : Line) : ∀ c ∈ List.replicate (l.empty + 1) newline, c = newline ∨
    c = blank :=
  fun _ hc => .inl (List.eq_of_mem_replicate hc)

/-- **The labels and the opcode of a line are found**, with what follows left, just when the labels
are plain and the first one is not taken for a comment. -/
theorem getOpcode_iff (l : Line) {op : ℕ} (hop : opcodeIndex l.instr.mnemonic = some op)
    (ht : Ends isSpace t) :
    getOpcode (l.front ++ (l.instr.mnemonic ++ t)) =
        some (some (l.labels.map fun d => d.label.text, op, t)) ↔
      (∀ d ∈ l.labels, d.Plain) ∧
        ∀ d, l.labels.head? = some d → d.label.text.head? ≠ some slash := by
  have htext : l.front ++ (l.instr.mnemonic ++ t) = List.replicate (l.empty + 1) newline ++
      (l.labels.flatMap LabelAt.text ++ (blanks l.indent ++ (l.instr.mnemonic ++ t))) := by
    simp [Line.front]
  rw [htext]
  constructor
  · intro h
    obtain ⟨w, fuel, hw, hword⟩ := getOpcode_cases h
    obtain rfl := opcodeIndex_inj hw hop
    obtain ⟨hplain, hle⟩ := opcodeWord_weight hword
    have hlabels : ∀ d ∈ l.labels, d.Plain := by
      intro d hd
      exact hplain _ (List.mem_map_of_mem hd)
    refine ⟨hlabels, fun d hd hslash => ?_⟩
    -- the label would be skipped, but nothing is missing
    have hweight : ∀ ds : List LabelAt, (∀ d ∈ ds, d.Plain) →
        weight isSpace (ds.flatMap LabelAt.text) =
          ((ds.map fun d => d.label.text).map fun l => l.length + 1).sum := by
      intro ds hds
      induction ds with
      | nil => rfl
      | cons d ds ih =>
        have hd := (hds d (List.mem_cons_self ..)).1
        have hcolon : weight isSpace (colon :: d.gap) = 1 := by
          have := d.gap_spaces.weight_eq
          rw [weight, List.countP_cons_of_pos rfl]
          exact congrArg (· + 1) this
        rw [List.flatMap_cons, weight_append, LabelAt.text, weight_append, hd.weight_eq, hcolon,
          ih fun e he => hds e (List.mem_cons_of_mem _ he), List.map_cons, List.map_cons,
          List.sum_cons]
    have hnewlines : Spaces isSpace (List.replicate (l.empty + 1) newline) := by
      intro c hc
      rw [List.eq_of_mem_replicate hc]
      rfl
    have hskip : weight isSpace (skipLines false (List.replicate (l.empty + 1) newline ++
          (l.labels.flatMap LabelAt.text ++ (blanks l.indent ++ (l.instr.mnemonic ++ t))))) <
        weight isSpace (List.replicate (l.empty + 1) newline ++
          (l.labels.flatMap LabelAt.text ++ (blanks l.indent ++ (l.instr.mnemonic ++ t)))) := by
      obtain ⟨ds, hds⟩ := List.head?_eq_some_iff.1 hd
      obtain ⟨cs, hcs⟩ := List.head?_eq_some_iff.1 hslash
      rw [hds, List.flatMap_cons, LabelAt.text, hcs]
      exact weight_skipLines_comment (front_gap l) _
    rw [weight_append, hnewlines.weight_eq, weight_append, hweight _ hlabels, weight_append,
      (spaces_blanks _).weight_eq, weight_append,
      (mnemonic_of_index hop).noSpace.weight_eq] at hskip
    omega
  · rintro ⟨hplain, hfirst⟩
    exact getOpcode_of_plain (front_gap l) l.labels l.indent hop ht hplain hfirst

end Listing

end Mlvm
