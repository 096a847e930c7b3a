import Mlvm.Imagoc.Listing

/-!
# The scanner of imagoc

The part of `imagoscan` (`scan.c`) that gives names. A name is lower-case, symbolic, one solo
character, the empty list, or anything between quotes, single or double; there is no way to write
the closing quote inside.

**What is accepted** (`accepted_iff`). Any text of ASCII characters which fits into the buffer, as
long as it has not both kinds of quotes.
-/

namespace Mlvm

namespace Listing

open Assembler

/-- The room of `buffer`. -/
def LINE_BUF : ℕ := 511

inductive CharClass where
  | uc | ul | lc | n | qt | dc | sy | sl | bk | bs | endf
  deriving DecidableEq, Repr

open CharClass in
/-- `ascii_classes`. -/
def asciiClasses : List CharClass :=
  [endf, bs, bs, bs, bs, bs, bs, bs, bs, bs, bs, bs, bs, bs, bs, bs,
   bs, bs, bs, bs, bs, bs, bs, bs, bs, bs, bs, bs, bs, bs, bs, bs,
   bs, sl, dc, sl, lc, sl, sy, qt, bk, bk, sy, sy, sl, sy, sy, sy,
   n, n, n, n, n, n, n, n, n, n, sy, sl, sy, sy, sy, sy,
   sy, uc, uc, uc, uc, uc, uc, uc, uc, uc, uc, uc, uc, uc, uc, uc,
   uc, uc, uc, uc, uc, uc, uc, uc, uc, uc, uc, bk, sy, bk, sy, ul,
   sy, lc, lc, lc, lc, lc, lc, lc, lc, lc, lc, lc, lc, lc, lc, lc,
   lc, lc, lc, lc, lc, lc, lc, lc, lc, lc, lc, sy, sl, sy, sy, bs]

/-- `chtype[c]`; a character that is not ASCII is outside the table. -/
def chtype (c : UInt8) : Option CharClass := asciiClasses[c.toNat]?

/-- What follows, `\0` at the end of the file. -/
def peekchar (s : Name) : UInt8 := s.headD 0

/-- `get_name`, behind the first character. -/
def getName : Name → Option (Name × Name)
  | [] => some ([], [])
  | c :: s =>
      (chtype c).bind fun k =>
        if k = .uc ∨ k = .ul ∨ k = .lc ∨ k = .n then (getName s).map fun (n, s) => (c :: n, s)
        else some ([], c :: s)

/-- The characters of a symbolic name, up to a comment. -/
def getSymbols : Name → Option (Name × Name)
  | [] => some ([], [])
  | c :: s =>
      (chtype c).bind fun k =>
        if k = .sy ∧ ¬ (c = slash ∧ peekchar s = 42) then
          (getSymbols s).map fun (n, s) => (c :: n, s)
        else some ([], c :: s)

/-- The characters up to the closing quote. -/
def getQuoted (closeQuote : UInt8) : Name → Option (Name × Name)
  | [] => none
  | c :: s =>
      if c = closeQuote then some ([], s)
      else
        (chtype c).bind fun k =>
          if k = .endf then none else (getQuoted closeQuote s).map fun (n, s) => (c :: n, s)

/-- `imagoscan`, at the beginning of a token that is a name. -/
def scanName (commaFlg barFlg : Bool) : Name → Option (Name × Name)
  | [] => none
  | c :: s =>
      (chtype c).bind fun
        | .lc => (getName s).map fun (n, s) => (c :: n, s)
        | .sy =>
            if c = dot ∧ (chtype (peekchar s)).all (fun k => k = .bs ∨ k = .endf) then none
            else if c = slash ∧ peekchar s = 42 then none
            else getSymbols (c :: s)
        | .qt | .dc => getQuoted c s
        | .sl =>
            if c = 37 ∨ c = 44 ∧ commaFlg = true ∨ c = 124 ∧ barFlg = true then none
            else some ([c], s)
        | .bk => if c = 91 ∧ peekchar s = 93 then some ([91, 93], s.tail) else none
        | _ => none

/-- A name the scanner accepts. -/
def Accepted (s : Name) : Prop :=
  s.length < LINE_BUF ∧ ∃ commaFlg barFlg text rest, scanName commaFlg barFlg text = some (s, rest)

/-- The names in an operand. -/
def Arg.names : Arg → List Atom
  | .con s | .functor s _ | .procedure s _ | .builtin s _ | .label (.at s _ _) => [s]
  | .num _ | .int _ | .float _ | .label .fail => []

/-- The names in a program. -/
def Program.names (p : Program) : List Atom :=
  p.file :: p.lines.flatMap fun l =>
    l.labels.flatMap (fun d => (Arg.label d.label).names) ++ l.instr.args.flatMap fun a => a.2.names

/-! ## What is accepted -/

variable {c : UInt8} {k : CharClass} {s n r : Name}

/-- A character of the table. -/
def IsChar (c : UInt8) : Prop := 0 < c.toNat ∧ c.toNat < 128

instance : DecidablePred IsChar := fun _ => inferInstanceAs (Decidable (_ ∧ _))

/-- The classes of which there is one character. -/
structure Only (k : CharClass) (n : ℕ) : Prop where
  endf : k = .endf ↔ n = 0
  qt : k = .qt ↔ n = 39
  dc : k = .dc ↔ n = 34

theorem only_classes : asciiClasses.zipIdx.all (fun p => decide ((p.1 = .endf ↔ p.2 = 0) ∧
    (p.1 = .qt ↔ p.2 = 39) ∧ (p.1 = .dc ↔ p.2 = 34))) = true := by
  decide

theorem only_of_chtype (h : chtype c = some k) : Only k c.toNat := by
  have hmem : (k, c.toNat) ∈ asciiClasses.zipIdx := List.mem_zipIdx_iff_getElem?.2 h
  obtain ⟨hendf, hqt, hdc⟩ := of_decide_eq_true (List.all_eq_true.1 only_classes _ hmem)
  exact ⟨hendf, hqt, hdc⟩

theorem isChar_of_chtype (h : chtype c = some k) (hk : k ≠ .endf) : IsChar c := by
  obtain ⟨hlt, -⟩ := List.getElem?_eq_some_iff.1 h
  refine ⟨Nat.pos_of_ne_zero ?_, hlt⟩
  intro hzero
  exact hk ((only_of_chtype h).endf.2 hzero)

/-- A character that may stand in a name without quotes. -/
structure Bare (c : UInt8) : Prop where
  isChar : IsChar c
  not_quote : c ≠ quote
  not_double : c ≠ 34

theorem bare_of_chtype (h : chtype c = some k) (hk : k ≠ .endf ∧ k ≠ .qt ∧ k ≠ .dc) : Bare c := by
  refine ⟨isChar_of_chtype h hk.1, ?_, ?_⟩
  · rintro rfl
    exact hk.2.1 (Option.some.inj h).symm
  · rintro rfl
    exact hk.2.2 (Option.some.inj h).symm

theorem getName_bare : ∀ {s n r : Name}, getName s = some (n, r) → ∀ c ∈ n, Bare c
  | [], n, r, h => by
    obtain ⟨rfl, -⟩ := Prod.mk.inj (Option.some.inj h)
    exact fun c hc => absurd hc List.not_mem_nil
  | c :: s, n, r, h => by
    obtain ⟨k, hk, hrest⟩ := Option.bind_eq_some_iff.1 h
    split_ifs at hrest with hclass
    · obtain ⟨⟨n', r'⟩, hrec, heq⟩ := Option.map_eq_some_iff.1 hrest
      obtain ⟨rfl, -⟩ := Prod.mk.inj heq
      intro d hd
      rcases List.mem_cons.1 hd with rfl | hd
      · apply bare_of_chtype hk
        rcases hclass with rfl | rfl | rfl | rfl <;> decide
      · exact getName_bare hrec d hd
    · obtain ⟨rfl, -⟩ := Prod.mk.inj (Option.some.inj hrest)
      exact fun c hc => absurd hc List.not_mem_nil

theorem getSymbols_bare : ∀ {s n r : Name}, getSymbols s = some (n, r) → ∀ c ∈ n, Bare c
  | [], n, r, h => by
    obtain ⟨rfl, -⟩ := Prod.mk.inj (Option.some.inj h)
    exact fun c hc => absurd hc List.not_mem_nil
  | c :: s, n, r, h => by
    obtain ⟨k, hk, hrest⟩ := Option.bind_eq_some_iff.1 h
    split_ifs at hrest with hclass
    · obtain ⟨⟨n', r'⟩, hrec, heq⟩ := Option.map_eq_some_iff.1 hrest
      obtain ⟨rfl, -⟩ := Prod.mk.inj heq
      intro d hd
      rcases List.mem_cons.1 hd with rfl | hd
      · apply bare_of_chtype hk
        rw [hclass.1]
        decide
      · exact getSymbols_bare hrec d hd
    · obtain ⟨rfl, -⟩ := Prod.mk.inj (Option.some.inj hrest)
      exact fun c hc => absurd hc List.not_mem_nil

theorem getQuoted_chars {q : UInt8} : ∀ {s n r : Name}, getQuoted q s = some (n, r) →
    (∀ c ∈ n, IsChar c) ∧ q ∉ n
  | [], n, r, h => by cases h
  | c :: s, n, r, h => by
    rw [getQuoted] at h
    split_ifs at h with hclose
    · obtain ⟨rfl, -⟩ := Prod.mk.inj (Option.some.inj h)
      exact ⟨fun c hc => absurd hc List.not_mem_nil, List.not_mem_nil⟩
    · obtain ⟨k, hk, hrest⟩ := Option.bind_eq_some_iff.1 h
      split_ifs at hrest with hend
      obtain ⟨⟨n', r'⟩, hrec, heq⟩ := Option.map_eq_some_iff.1 hrest
      obtain ⟨rfl, -⟩ := Prod.mk.inj heq
      obtain ⟨hchars, hquote⟩ := getQuoted_chars hrec
      refine ⟨?_, ?_⟩
      · intro d hd
        rcases List.mem_cons.1 hd with rfl | hd
        · exact isChar_of_chtype hk hend
        · exact hchars d hd
      · intro hmem
        rcases List.mem_cons.1 hmem with heq | hmem
        · exact hclose heq.symm
        · exact hquote hmem

/-- A text without the quote is read up to it. -/
theorem getQuoted_append {q : UInt8} (hchars : ∀ c ∈ s, IsChar c) (hquote : q ∉ s) (r : Name) :
    getQuoted q (s ++ q :: r) = some (s, r) := by
  induction s with
  | nil => exact if_pos rfl
  | cons c s ih =>
    obtain ⟨hpos, hlt⟩ := hchars c (List.mem_cons_self ..)
    have hclose : c ≠ q := fun heq => hquote (heq ▸ List.mem_cons_self ..)
    have hclass : chtype c = some asciiClasses[c.toNat] := List.getElem?_eq_getElem hlt
    have hend : asciiClasses[c.toNat] ≠ .endf := by
      intro heq
      have hzero := (only_of_chtype hclass).endf.1 heq
      omega
    have hrec := ih (fun d hd => hchars d (List.mem_cons_of_mem _ hd))
      fun hmem => hquote (List.mem_cons_of_mem _ hmem)
    rw [List.cons_append, getQuoted, if_neg hclose, hclass, Option.bind_some, if_neg hend, hrec,
      Option.map_some]

theorem scanName_chars {commaFlg barFlg : Bool} (h : scanName commaFlg barFlg s = some (n, r)) :
    (∀ c ∈ n, IsChar c) ∧ (quote ∉ n ∨ 34 ∉ n) := by
  have of_bare : (∀ c ∈ n, Bare c) → (∀ c ∈ n, IsChar c) ∧ (quote ∉ n ∨ 34 ∉ n) := fun hbare =>
    ⟨fun c hc => (hbare c hc).isChar, .inl fun hmem => (hbare _ hmem).not_quote rfl⟩
  cases s with
  | nil => cases h
  | cons c s =>
    obtain ⟨k, hk, hrest⟩ := Option.bind_eq_some_iff.1 h
    cases k with
    | lc =>
      obtain ⟨⟨n', r'⟩, hname, heq⟩ := Option.map_eq_some_iff.1 hrest
      obtain ⟨rfl, -⟩ := Prod.mk.inj heq
      apply of_bare
      intro d hd
      rcases List.mem_cons.1 hd with rfl | hd
      · exact bare_of_chtype hk (by decide)
      · exact getName_bare hname d hd
    | sy =>
      dsimp only at hrest
      split_ifs at hrest
      exact of_bare (getSymbols_bare hrest)
    | qt =>
      obtain ⟨hchars, hquote⟩ := getQuoted_chars hrest
      have hc : c = quote := UInt8.toNat_inj.1 ((only_of_chtype hk).qt.1 rfl)
      exact ⟨hchars, .inl (hc ▸ hquote)⟩
    | dc =>
      obtain ⟨hchars, hquote⟩ := getQuoted_chars hrest
      have hc : c = 34 := UInt8.toNat_inj.1 ((only_of_chtype hk).dc.1 rfl)
      exact ⟨hchars, .inr (hc ▸ hquote)⟩
    | sl =>
      dsimp only at hrest
      split_ifs at hrest
      obtain ⟨rfl, -⟩ := Prod.mk.inj (Option.some.inj hrest)
      apply of_bare
      intro d hd
      rw [List.mem_singleton.1 hd]
      exact bare_of_chtype hk (by decide)
    | bk =>
      dsimp only at hrest
      split_ifs at hrest
      obtain ⟨rfl, -⟩ := Prod.mk.inj (Option.some.inj hrest)
      apply of_bare
      intro d hd
      simp only [List.mem_cons, List.not_mem_nil, or_false] at hd
      rcases hd with rfl | rfl <;> exact ⟨⟨by decide, by decide⟩, by decide, by decide⟩
    | uc | ul | n | bs | endf => cases hrest

/-- **The names that are accepted** are the texts of ASCII characters that fit into the buffer and
have one kind of quotes at most. -/
theorem accepted_iff (s : Name) :
    Accepted s ↔ s.length < LINE_BUF ∧ (∀ c ∈ s, IsChar c) ∧ (quote ∉ s ∨ 34 ∉ s) := by
  constructor
  · rintro ⟨hlen, commaFlg, barFlg, text, rest, hscan⟩
    exact ⟨hlen, scanName_chars hscan⟩
  · rintro ⟨hlen, hchars, hquote | hdouble⟩
    · exact ⟨hlen, false, false, quote :: (s ++ quote :: []), [], getQuoted_append hchars hquote []⟩
    · exact ⟨hlen, false, false, 34 :: (s ++ 34 :: []), [], getQuoted_append hchars hdouble []⟩

end Listing

end Mlvm
