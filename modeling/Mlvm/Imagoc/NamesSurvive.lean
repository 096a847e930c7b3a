import Mlvm.Imagoc.ReadBack
import Mlvm.Imagoc.Scanner

/-!
# Names survive

Line by line the listing is read in step just when its names are plain, and then the tokens are
those of the program.

**Labels.** Where every procedure has a name without slashes, the text of a label tells its
procedure, its arity and its place (`Label.eq_of_text`).

Main result: `names_survive_iff`.
-/

namespace Mlvm

namespace Listing

open Assembler Extraction

variable {t : Name} (strtod : Name → Int × Int)

/-! ## Operands -/

theorem ends_argsText (ht : Ends isSpace t) (args : List (ℕ × Arg)) :
    Ends isSpace (argsText args ++ t) := by
  cases args with
  | nil => exact ht
  | cons a args => exact .cons rfl

theorem argsText_cons (g : ℕ) (a : Arg) (args : List (ℕ × Arg)) (t : Name) :
    argsText ((g, a) :: args) ++ t = blanks (g + 1) ++ (a.text ++ (argsText args ++ t)) := by
  simp [argsText]

theorem readsArgs_iff (ht : Ends isSpace t) (args : List (ℕ × Arg)) :
    ReadsArgs strtod args t ↔ ∀ a ∈ args, a.2.Plain := by
  induction args with
  | nil => exact iff_of_true trivial fun a ha => absurd ha List.not_mem_nil
  | cons a args ih =>
    obtain ⟨g, a⟩ := a
    rw [ReadsArgs, readOperand_iff strtod (spaces_blanks _) (ends_argsText ht args), ih,
      List.forall_mem_cons]

theorem readOperands_of_reads : ∀ {args : List (ℕ × Arg)}, ReadsArgs strtod args t →
    readOperands strtod (args.map fun a => a.2.kind) (argsText args ++ t) =
      some (args.map fun a => a.2.operand strtod, t)
  | [], _ => rfl
  | (g, a) :: args, h => by
    obtain ⟨hread, hrest⟩ := h
    rw [argsText_cons, List.map_cons, readOperands, hread, Option.bind_some]
    dsimp only
    rw [readOperands_of_reads hrest, Option.map_some]
    rfl

/-! ## Lines -/

theorem rest_append (i : Instr) (t : Name) :
    i.rest ++ t = argsText i.args ++ (blanks i.trail ++ t) := by
  rw [Instr.rest, List.append_assoc]

theorem ends_rest (i : Instr) (ht : Ends isSpace t) : Ends isSpace (i.rest ++ t) := by
  rw [rest_append]
  exact ends_argsText ((spaces_blanks _).ends ht) _

/-- **A line is read** just when it is plain. -/
theorem Line.reads_iff (l : Line) (ht : Ends isSpace t) : l.Reads strtod t ↔ l.Plain := by
  have hargs := readsArgs_iff strtod ((spaces_blanks l.instr.trail).ends ht) l.instr.args
  constructor
  · intro h
    obtain ⟨op, hop, hread⟩ := h.opcode
    obtain ⟨hlabels, hfirst⟩ := (getOpcode_iff l hop (ends_rest _ ht)).1 hread
    exact ⟨Option.isSome_iff_exists.2 ⟨op, hop⟩, hlabels, hfirst, hargs.1 h.args⟩
  · intro h
    obtain ⟨op, hop⟩ := Option.isSome_iff_exists.1 h.known
    exact ⟨⟨op, hop, (getOpcode_iff l hop (ends_rest _ ht)).2 ⟨h.labels, h.first⟩⟩, hargs.2 h.args⟩

theorem linesText_cons (l : Line) (ls : List Line) (t : Name) :
    linesText (l :: ls) ++ t = l.front ++ (l.instr.mnemonic ++ (l.instr.rest ++
      (linesText ls ++ t))) := by
  simp [linesText, Line.text]

/-- A line begins with a newline. -/
theorem linesText_head (ls : List Line) (k : ℕ) : ∀ c,
    (linesText ls ++ List.replicate k newline).head? = some c → c = newline := by
  intro c hc
  cases ls with
  | nil => exact List.eq_of_mem_replicate (List.mem_of_head? hc)
  | cons l ls =>
    rw [linesText_cons, Line.front] at hc
    exact (Option.some.inj hc).symm

theorem ends_linesText (ls : List Line) (k : ℕ) :
    Ends isSpace (linesText ls ++ List.replicate k newline) := by
  intro c hc
  rw [linesText_head ls k c hc]
  rfl

theorem readsLines_iff (k : ℕ) (ls : List Line) :
    ReadsLines strtod ls (List.replicate k newline) ↔ ∀ l ∈ ls, l.Plain := by
  induction ls with
  | nil => exact iff_of_true trivial fun l hl => absurd hl List.not_mem_nil
  | cons l ls ih =>
    rw [ReadsLines, l.reads_iff strtod (ends_linesText ls k), ih, List.forall_mem_cons]

/-! ## Labels -/

/-- The place that the parts of a label tell. -/
def Place.ofParts : List Name → Option Place
  | [] => some .entry
  | [a] => some (if a = ascii "h" then .hash else .clause (myAtoi a))
  | [a, b] =>
      if a = ascii "r" then
        some (if b = ascii "end" then .readEnd 0 else .read 0 (myAtoi b))
      else if a = ascii "w" then some (.write 0 (myAtoi b))
      else if a = ascii "if" then some (.orElse (myAtoi b))
      else some (.switch (myAtoi b))
  | [c, a, b] =>
      if a = ascii "r" then
        some (if b = ascii "end" then .readEnd (myAtoi c) else .read (myAtoi c) (myAtoi b))
      else some (.write (myAtoi c) (myAtoi b))
  | _ => none

theorem myAtoi_printed (n : ℕ) : myAtoi (printNat n) = n := by
  have h := myAtoi_printNat (t := []) n fun c hc => by cases hc
  rwa [List.append_nil] at h

/-- A word is not a number. -/
theorem printNat_ne {c : UInt8} {s : Name} (hc : isDigit c = false) (hs : c ∈ s) (n : ℕ) :
    printNat n ≠ s := by
  rintro rfl
  exact not_mem_printNat hc n hs

theorem Place.ofParts_parts (p : Place) : ofParts p.parts = some p := by
  have hh := printNat_ne (c := 104) (s := ascii "h") rfl (by decide)
  have hend := printNat_ne (c := 101) (s := ascii "end") rfl (by decide)
  cases p with
  | entry => rfl
  | clause n => rw [parts, ofParts, if_neg (hh n), myAtoi_printed]
  | read c k =>
    rw [parts, clausePart]
    split_ifs with hzero
    · rw [List.nil_append, ofParts, if_pos rfl, if_neg (hend k), myAtoi_printed, hzero]
    · rw [List.singleton_append, ofParts, if_pos rfl, if_neg (hend k), myAtoi_printed,
        myAtoi_printed]
  | readEnd c =>
    rw [parts, clausePart]
    split_ifs with hzero
    · rw [List.nil_append, ofParts, if_pos rfl, if_pos rfl, hzero]
    · rw [List.singleton_append, ofParts, if_pos rfl, if_pos rfl, myAtoi_printed]
  | write c k =>
    have hw : ascii "w" ≠ ascii "r" := by decide
    rw [parts, clausePart]
    split_ifs with hzero
    · rw [List.nil_append, ofParts, if_neg hw, if_pos rfl, myAtoi_printed, hzero]
    · rw [List.singleton_append, ofParts, if_neg hw, myAtoi_printed, myAtoi_printed]
  | orElse k =>
    have hr : ascii "if" ≠ ascii "r" := by decide
    have hw : ascii "if" ≠ ascii "w" := by decide
    rw [parts, ofParts, if_neg hr, if_neg hw, if_pos rfl, myAtoi_printed]
  | switch k =>
    have hr : ascii "op" ≠ ascii "r" := by decide
    have hw : ascii "op" ≠ ascii "w" := by decide
    have hif : ascii "op" ≠ ascii "if" := by decide
    rw [parts, ofParts, if_neg hr, if_neg hw, if_neg hif, myAtoi_printed]
  | hash => rfl

theorem Place.parts_injective : Function.Injective Place.parts := by
  intro p q h
  apply Option.some.inj
  rw [← p.ofParts_parts, h, q.ofParts_parts]

/-- A part of a label is a number or a word of the compiler. -/
theorem Place.parts_cases (p : Place) : ∀ s ∈ p.parts, (∃ n, s = printNat n) ∨
    s ∈ [ascii "r", ascii "end", ascii "w", ascii "if", ascii "op", ascii "h"] := by
  have hclause : ∀ c, ∀ s ∈ clausePart c, ∃ n, s = printNat n := by
    intro c s hs
    rw [clausePart] at hs
    split_ifs at hs
    · cases hs
    · exact ⟨c, List.mem_singleton.1 hs⟩
  intro s hs
  cases p with
  | entry => cases hs
  | clause n => exact .inl ⟨n, List.mem_singleton.1 hs⟩
  | read c k =>
    rcases List.mem_append.1 hs with hs | hs
    · exact .inl (hclause c s hs)
    · simp only [List.mem_cons, List.not_mem_nil, or_false] at hs
      rcases hs with rfl | rfl
      · exact .inr (by decide)
      · exact .inl ⟨k, rfl⟩
  | readEnd c =>
    rcases List.mem_append.1 hs with hs | hs
    · exact .inl (hclause c s hs)
    · simp only [List.mem_cons, List.not_mem_nil, or_false] at hs
      rcases hs with rfl | rfl <;> exact .inr (by decide)
  | write c k =>
    rcases List.mem_append.1 hs with hs | hs
    · exact .inl (hclause c s hs)
    · simp only [List.mem_cons, List.not_mem_nil, or_false] at hs
      rcases hs with rfl | rfl
      · exact .inr (by decide)
      · exact .inl ⟨k, rfl⟩
  | orElse k =>
    simp only [parts, List.mem_cons, List.not_mem_nil, or_false] at hs
    rcases hs with rfl | rfl
    · exact .inr (by decide)
    · exact .inl ⟨k, rfl⟩
  | switch k =>
    simp only [parts, List.mem_cons, List.not_mem_nil, or_false] at hs
    rcases hs with rfl | rfl
    · exact .inr (by decide)
    · exact .inl ⟨k, rfl⟩
  | hash =>
    rw [List.mem_singleton.1 hs]
    exact .inr (by decide)

/-- No part of a label has a slash or a dot. -/
theorem Place.not_mem_parts (p : Place) {s : Name} (hs : s ∈ p.parts) : slash ∉ s ∧ dot ∉ s := by
  rcases p.parts_cases s hs with ⟨n, rfl⟩ | hword
  · exact ⟨not_mem_printNat rfl n, not_mem_printNat rfl n⟩
  · have hwords : [ascii "r", ascii "end", ascii "w", ascii "if", ascii "op", ascii "h"].all
        (fun s => decide (slash ∉ s ∧ dot ∉ s)) = true := by
      decide
    exact of_decide_eq_true (List.all_eq_true.1 hwords s hword)

/-- What a label has behind its slash. -/
def labelTail (argnum : ℕ) (place : Place) : Name :=
  printNat argnum ++ place.parts.flatMap (dot :: ·)

theorem Label.text_at (proname : Atom) (argnum : ℕ) (place : Place) :
    (Label.at proname argnum place).text = proname.chars ++ slash :: labelTail argnum place := by
  rw [Label.text, slashed, List.append_assoc, List.cons_append, labelTail]

theorem slash_mem_text (proname : Atom) (argnum : ℕ) (place : Place) :
    slash ∈ (Label.at proname argnum place).text := by
  rw [Label.text_at]
  exact List.mem_append_right _ (List.mem_cons_self ..)

theorem slash_not_mem_fail : slash ∉ Label.fail.text := by
  decide

theorem not_mem_labelTail (argnum : ℕ) (place : Place) : slash ∉ labelTail argnum place := by
  intro h
  rcases List.mem_append.1 h with h | h
  · exact not_mem_printNat rfl argnum h
  · obtain ⟨s, hs, hmem⟩ := List.mem_flatMap.1 h
    rcases List.mem_cons.1 hmem with heq | hmem
    · cases heq
    · exact (place.not_mem_parts hs).1 hmem

/-- The tail of a label tells the arity and the place. -/
theorem labelTail_inj {m n : ℕ} {p q : Place} (h : labelTail m p = labelTail n q) :
    m = n ∧ p = q := by
  have hstop : ∀ r : Place, ∀ c, (r.parts.flatMap (dot :: ·)).head? = some c →
      isDigit c = false := by
    intro r c hc
    cases hparts : r.parts with
    | nil =>
      rw [hparts] at hc
      cases hc
    | cons s ss =>
      rw [hparts] at hc
      rw [← Option.some.inj hc]
      rfl
  have hnum : printNat m = printNat n := by
    rw [← takeWhile_run (isDigit_printNat m) (hstop p),
      ← takeWhile_run (isDigit_printNat n) (hstop q)]
    exact congrArg _ h
  have hplace : p.parts.flatMap (dot :: ·) = q.parts.flatMap (dot :: ·) := by
    rw [← dropWhile_run (isDigit_printNat m) (hstop p),
      ← dropWhile_run (isDigit_printNat n) (hstop q)]
    exact congrArg _ h
  have hparts := parts_unique (fun s hs => (p.not_mem_parts hs).2)
    (fun s hs => (q.not_mem_parts hs).2) hplace
  exact ⟨printNat_inj hnum, Place.parts_injective hparts⟩

/-- **A label is told from all others** by its text, if the name of its procedure has no slash. -/
theorem Label.eq_of_text {r : Label} {proname : Atom} {argnum : ℕ} {place : Place}
    (hname : slash ∉ proname.chars) (h : r.text = (Label.at proname argnum place).text) :
    r = .at proname argnum place := by
  cases r with
  | fail =>
    have hmem := slash_mem_text proname argnum place
    rw [← h] at hmem
    exact absurd hmem slash_not_mem_fail
  | «at» proname' argnum' place' =>
    rw [text_at, text_at] at h
    have hname' : slash ∉ proname'.chars := by
      intro hmem
      -- there would be two slashes
      have hcount := congrArg (List.count slash) h
      have htail := List.count_eq_zero_of_not_mem (not_mem_labelTail argnum place)
      have htail' := List.count_eq_zero_of_not_mem (not_mem_labelTail argnum' place')
      rw [List.count_append, List.count_append, List.count_cons_self, List.count_cons_self,
        List.count_eq_zero_of_not_mem hname, htail, htail'] at hcount
      have := List.count_pos_iff.2 hmem
      omega
    obtain ⟨hchars, htail⟩ := split_unique hname' hname h
    obtain ⟨rfl, rfl⟩ := labelTail_inj htail
    obtain rfl : proname' = proname := StringTable.Str.ext hchars
    rfl

theorem Label.eq_fail_of_text {r : Label} (h : r.text = Label.fail.text) : r = .fail := by
  cases r with
  | fail => rfl
  | «at» proname argnum place =>
    have hmem := slash_mem_text proname argnum place
    rw [h] at hmem
    exact absurd hmem slash_not_mem_fail

/-! ## The whole text -/

/-- The operands of a plain line, as `translate` asks for them. -/
theorem readArguments_of_plain {l : Line} (h : l.Plain) {op : ℕ}
    (hop : opcodeIndex l.instr.mnemonic = some op) (ht : Ends isSpace t) :
    readArguments strtod op (l.instr.rest ++ t) =
      some (.plain (l.instr.args.map fun a => a.2.operand strtod), blanks l.instr.trail ++ t) := by
  have hshape : operandsOf l.instr.mnemonic = some (l.instr.args.map fun a => a.2.kind) := by
    rcases l.instr.shape with hnone | hshape
    · rw [hnone] at hop
      cases hop
    · exact hshape
  rw [operandsOf, hop, Option.bind_some] at hshape
  obtain ⟨ty, hty, hshape⟩ := Option.bind_eq_some_iff.1 hshape
  split_ifs at hshape with hkind
  rw [not_or] at hkind
  have hreads := (readsArgs_iff strtod ((spaces_blanks l.instr.trail).ends ht) _).2 h.args
  rw [readArguments, hty, Option.bind_some, if_neg hkind.2, Option.some.inj hshape, rest_append,
    readOperands_of_reads strtod hreads]
  rfl

/-- **Plain lines are read**, after the newline at their beginning or before. -/
theorem readLines_of_plain (k : ℕ) : ∀ (ls : List Line), (∀ l ∈ ls, l.Plain) → ∀ (j fuel : ℕ),
    j ≤ 1 → ls.length < fuel → ∃ src, linesSource strtod ls = some src ∧
      readLines strtod fuel ((linesText ls ++ List.replicate k newline).drop j) = some src
  | _, _, _, 0, _, h => absurd h (Nat.not_lt_zero _)
  | [], _, j, fuel + 1, _, _ => by
    have hnewlines : ∀ c ∈ List.replicate (k - j) newline, c = newline ∨ c = blank :=
      fun c hc => .inl (List.eq_of_mem_replicate hc)
    have hend := skipLines_gap hnewlines []
    rw [List.append_nil, skipLines] at hend
    have htext : (linesText [] ++ List.replicate k newline).drop j =
        List.replicate (k - j) newline := List.drop_replicate
    refine ⟨[], rfl, ?_⟩
    rw [htext, readLines, getOpcode, if_pos hend]
    rfl
  | l :: ls, h, j, fuel + 1, hj, hfuel => by
    have hl := h l (List.mem_cons_self ..)
    obtain ⟨op, hop⟩ := Option.isSome_iff_exists.1 hl.known
    obtain ⟨src, hsource, hread⟩ := readLines_of_plain k ls
      (fun l' hl' => h l' (List.mem_cons_of_mem _ hl')) 1 fuel (Nat.le_refl 1)
      (Nat.lt_of_succ_lt_succ hfuel)
    have hends := ends_linesText ls k
    have htext : (linesText (l :: ls) ++ List.replicate k newline).drop j =
        List.replicate (l.empty + 1 - j) newline ++ (l.labels.flatMap LabelAt.text ++
          (blanks l.indent ++ (l.instr.mnemonic ++ (l.instr.rest ++
            (linesText ls ++ List.replicate k newline))))) := by
      rw [linesText_cons, Line.front, List.append_assoc, List.append_assoc,
        List.drop_append_of_le_length (by rw [List.length_replicate]; omega), List.drop_replicate]
    have hnewlines : ∀ c ∈ List.replicate (l.empty + 1 - j) newline, c = newline ∨ c = blank :=
      fun c hc => .inl (List.eq_of_mem_replicate hc)
    have hopcode := getOpcode_of_plain hnewlines l.labels l.indent hop (ends_rest l.instr hends)
      hl.labels hl.first
    have hblanks : newline ∉ blanks l.instr.trail := by
      intro hmem
      cases List.eq_of_mem_replicate hmem
    refine ⟨l.source strtod op :: src, ?_, ?_⟩
    · rw [linesSource, hop, Option.bind_some, hsource, Option.map_some]
    · rw [htext, readLines, hopcode, Option.bind_some]
      dsimp only
      rw [readArguments_of_plain strtod hl hop hends, Option.bind_some]
      dsimp only
      rw [newLine_append hblanks (linesText_head ls k), hread, Option.map_some]
      rfl

theorem length_le_linesText (ls : List Line) : ls.length ≤ (linesText ls).length := by
  induction ls with
  | nil => exact Nat.le_refl _
  | cons l ls ih =>
    have hcons := congrArg List.length (linesText_cons l ls [])
    simp only [List.append_nil, List.length_append, Line.front, List.length_replicate] at hcons
    rw [List.length_cons]
    omega

namespace Program

variable (p : Program)

theorem opcodeIndex_mnemonic : opcodeIndex p.mnemonic = some p.op := by
  have htypes : ∀ k : Fin 3, opcodeIndex (ascii ((opcodeTab[132 + k.val]?.map Prod.fst).getD "")) =
      some (132 + k.val) := by
    decide +kernel
  exact htypes p.type

theorem isImago_op : ∃ ty, opcodeType p.op = some ty ∧ ty.isImago = true := by
  have htypes : ∀ k : Fin 3,
      (opcodeType ((132 + k.val : ℕ) : Int)).map InstType.isImago = some true := by
    decide
  exact Option.map_eq_some_iff.1 (htypes p.type)

theorem getOpcode_text :
    getOpcode p.text = some (some ([], p.op, blanks 2 ++ (slashed p.file.chars 1 ++ p.body))) := by
  have hnone : ∀ c ∈ ([] : Name), c = newline ∨ c = blank := fun c hc => absurd hc List.not_mem_nil
  exact getOpcode_of_plain hnone [] 3 p.opcodeIndex_mnemonic (.cons rfl)
    (fun d hd => absurd hd List.not_mem_nil) (fun d hd => by cases hd)

variable {p}

/-- A plain program is read as what it is. -/
theorem Plain.whole (h : p.Plain) :
    ∃ src, p.source strtod = some src ∧ readSource strtod p.text = some src := by
  have hfile := (getFunName_iff (spaces_blanks 2) (ends_linesText p.lines p.newlines) _ 1).2 h.file
  obtain ⟨ty, hty, himago⟩ := p.isImago_op
  have hlength : p.lines.length < p.body.length + 1 := by
    have := length_le_linesText p.lines
    rw [body, List.length_append]
    omega
  obtain ⟨src, hsource, hread⟩ := readLines_of_plain strtod p.newlines p.lines h.lines 0 _
    (Nat.zero_le 1) hlength
  rw [List.drop_zero] at hread
  refine ⟨_, by rw [source, hsource, Option.map_some], ?_⟩
  rw [readSource, p.getOpcode_text, Option.bind_some]
  dsimp only
  rw [hty, Option.bind_some, if_pos himago]
  have hfun : getFunName (blanks 2 ++ (slashed p.file.chars 1 ++ p.body)) =
    some ((p.file.chars, 1), p.body) := hfile
  have hlines : readLines strtod (p.body.length + 1) p.body = some src := hread
  rw [hfun, Option.bind_some]
  dsimp only
  rw [hlines, Option.map_some]

/-- The labels of a plain program are told apart. -/
theorem Plain.references (h : p.Plain) : ∀ r ∈ references p.lines, ∀ d ∈ definitions p.lines,
    r.text = d.text → r = d := by
  intro r hr d hd htext
  rcases p.declared d hd with rfl | ⟨proname, argnum, place, rfl, l, hl, g, hmem⟩
  · exact Label.eq_fail_of_text htext
  · have hplain := (h.lines l hl).args _ hmem
    exact Label.eq_of_text hplain.2.1 htext

/-- **Names survive** from the compiler to the assembler: the listing of a program is read back just
when the program is plain. -/
theorem names_survive_iff (strtod : Name → Int × Int) (p : Program) :
    p.ReadsBack strtod ↔ p.Plain := by
  have hends := ends_linesText p.lines p.newlines
  constructor
  · intro h
    have hfile := (getFunName_iff (spaces_blanks 2) hends p.file.chars 1).1 h.file
    exact ⟨hfile, (readsLines_iff strtod p.newlines p.lines).1 h.lines⟩
  · intro h
    exact {
      type := p.getOpcode_text
      file := (getFunName_iff (spaces_blanks 2) hends p.file.chars 1).2 h.file
      lines := (readsLines_iff strtod p.newlines p.lines).2 h.lines
      whole := h.whole strtod
      labels := h.references
    }

/-- The predicate `w/1` of the example. -/
def unary : Atom := ⟨ascii "w", by decide⟩

/-- The listing of a messenger with the fact `w("a b's").` -/
def apostrophe : Program where
  type := Fin.last 2
  file := ⟨ascii "m", by decide⟩
  lines :=
    [failLine, ⟨1, [], 20, procedure unary 1⟩] ++
      ((codingGet unary 1 false 0 0 (.atom 0 ⟨ascii "a b's", by decide⟩)).toList.map
        fun i => ⟨0, [labelLine (.at unary 1 .entry)], 20, i⟩) ++
      [⟨0, [labelLine (.at unary 1 (.readEnd 0))], 20, columns "proceed" 0 [] 0 rfl⟩]
  newlines := 1
  declared := by
    intro d hd
    have hlabels : d ∈ [.fail, .at unary 1 .entry, .at unary 1 (.readEnd 0)] := hd
    have hdeclared : (0 + (19 - (ascii "procedure").length), Arg.procedure unary 1) ∈
        (procedure unary 1).args := List.mem_cons_self ..
    simp only [List.mem_cons, List.not_mem_nil, or_false] at hlabels
    rcases hlabels with rfl | rfl | rfl
    · exact .inl rfl
    · exact .inr ⟨unary, 1, _, rfl, _, .tail _ (.head _), _, hdeclared⟩
    · exact .inr ⟨unary, 1, _, rfl, _, .tail _ (.head _), _, hdeclared⟩

/-- The scanner accepts names that do not survive: of `'a b's'` the assembler reads `a b`. -/
theorem not_names_survive :
    ¬ ∀ p : Program, (∀ s ∈ p.names, Accepted s.chars) → p.ReadsBack fun _ => (0, 0) := by
  intro h
  have haccepted : ∀ s ∈ apostrophe.names, Accepted s.chars := by
    intro s hs
    have hnames : s.chars ∈ [ascii "m", ascii "w", ascii "w", ascii "a b's", ascii "w"] :=
      List.mem_map_of_mem (f := StringTable.Str.chars) hs
    have hwritten : ∀ n ∈ [ascii "m", ascii "w", ascii "w", ascii "a b's", ascii "w"],
        n.length < LINE_BUF ∧ n.all (fun c => decide (IsChar c)) ∧ 34 ∉ n := by
      decide
    obtain ⟨hlen, hchars, hdouble⟩ := hwritten _ hnames
    exact (accepted_iff s.chars).2
      ⟨hlen, fun c hc => of_decide_eq_true (List.all_eq_true.1 hchars c hc), .inr hdouble⟩
  have hback := (h apostrophe haccepted).lines
  have hcon := congrArg (Option.map Prod.snd) hback.2.2.1.args.2.1
  revert hcon
  decide +kernel

end Program

end Listing

end Mlvm
