import Mlvm.Imagoc.Listing

/-!
# Operands that are read back

An operand of the listing is **plain** when the assembler reads what imagoc has written:

- a functor has neither a space nor a slash in its name (`getFunName_iff`),
- a label has no space and does not begin with two slashes (`getLabelName_iff`),
- a constant may have spaces, but from the first one on each of its quotes needs a backslash
  somewhere between it and the quote before, and there must be none after the last
  (`getConName_iff`),

and all have to fit into the array of the reader. Numbers are always read back.
-/

namespace Mlvm

namespace Listing

open Assembler Extraction

variable {gap s t w : Name}

/-! ## Digits -/

theorem toUInt8_of_isDigit {c : Char} (h : c.isDigit = true) :
    isDigit c.toUInt8 = true ∧ c.toUInt8.toNat = c.toNat := by
  have hrange : 48 ≤ c.toNat ∧ c.toNat ≤ 57 := by
    simp only [Char.isDigit, Bool.and_eq_true, decide_eq_true_eq] at h
    exact ⟨h.1, h.2⟩
  have hnat : c.toUInt8.toNat = c.toNat := by
    rw [Char.toUInt8, UInt32.toNat_toUInt8]
    exact Nat.mod_eq_of_lt (Nat.lt_of_le_of_lt hrange.2 (by decide))
  refine ⟨decide_eq_true ⟨?_, ?_⟩, hnat⟩
  · exact UInt8.le_iff_toNat_le.2 (hnat ▸ hrange.1)
  · exact UInt8.le_iff_toNat_le.2 (hnat ▸ hrange.2)

theorem isDigit_printNat (n : ℕ) : ∀ c ∈ printNat n, isDigit c = true := by
  intro c hc
  obtain ⟨d, hd, rfl⟩ := List.mem_map.1 hc
  exact (toUInt8_of_isDigit (Nat.isDigit_of_mem_toDigits (by decide) (by decide) hd)).1

theorem printNat_ne_nil (n : ℕ) : printNat n ≠ [] := by
  intro h
  exact Nat.toDigits_ne_nil (List.map_eq_nil_iff.1 h)

theorem isSpace_of_isDigit {c : UInt8} (h : isDigit c = true) : isSpace c = false := by
  simp only [isDigit, decide_eq_true_eq] at h
  simp only [isSpace, decide_eq_false_iff_not]
  rw [UInt8.le_iff_toNat_le, UInt8.le_iff_toNat_le] at h
  rw [UInt8.le_iff_toNat_le, UInt8.le_iff_toNat_le, ← UInt8.toNat_inj]
  simp only [UInt8.reduceToNat] at h ⊢
  omega

theorem noSpace_printNat (n : ℕ) : NoSpace isSpace (printNat n) := by
  intro c hc
  exact isSpace_of_isDigit (isDigit_printNat n c hc)

/-- A character that is no digit is not printed. -/
theorem not_mem_printNat {c : UInt8} (h : isDigit c = false) (n : ℕ) : c ∉ printNat n := by
  intro hc
  rw [isDigit_printNat n c hc] at h
  cases h

theorem isDigit_head (ht : Ends isSpace t) : ∀ c, t.head? = some c → isDigit c = false := by
  intro c hc
  cases hdigit : isDigit c with
  | false => rfl
  | true =>
    have hspace := ht c hc
    rw [isSpace_of_isDigit hdigit] at hspace
    cases hspace

/-- A number is read back from its digits. -/
theorem myAtoi_printNat (n : ℕ) (ht : ∀ c, t.head? = some c → isDigit c = false) :
    myAtoi (printNat n ++ t) = n := by
  rw [myAtoi, takeWhile_run (isDigit_printNat n) ht, printNat, List.foldl_map]
  have hfold : ∀ cs : List Char, (∀ c ∈ cs, c.isDigit = true) → ∀ i : ℕ,
      cs.foldl (fun i c => i * 10 + (c.toUInt8.toNat - 48)) i =
        cs.foldl (fun i c => 10 * i + (c.toNat - '0'.toNat)) i := by
    intro cs
    induction cs with
    | nil => exact fun _ i => rfl
    | cons c cs ih =>
      intro hcs i
      have hc := (toUInt8_of_isDigit (hcs c (List.mem_cons_self ..))).2
      rw [List.foldl_cons, List.foldl_cons, hc, Nat.mul_comm i 10]
      exact ih (fun d hd => hcs d (List.mem_cons_of_mem _ hd)) _
  rw [hfold _ (fun c hc => Nat.isDigit_of_mem_toDigits (by decide) (by decide) hc),
    ← Nat.ofDigitChars_eq_foldl]
  exact Nat.ofDigitChars_ten_toDigits

theorem printNat_inj {m n : ℕ} (h : printNat m = printNat n) : m = n := by
  have hm := myAtoi_printNat (t := []) m (by simp)
  rw [List.append_nil, h] at hm
  have hn := myAtoi_printNat (t := []) n (by simp)
  rw [List.append_nil] at hn
  exact hm.symm.trans hn

/-! ## Numbers -/

theorem spaces_blanks (n : ℕ) : Spaces isSpace (blanks n) := by
  intro c hc
  rw [List.eq_of_mem_replicate hc]
  rfl

/-- **A number is read back.** -/
theorem getNum_printInt (hgap : Spaces isSpace gap) (n : BitVec 32) (ht : Ends isSpace t) :
    getNum (gap ++ (printInt n.toInt ++ t)) = some (n.toInt, t) := by
  have hlow := BitVec.le_toInt n
  have hhigh := BitVec.toInt_lt (x := n)
  have hdrop := dropWhile_run (isDigit_printNat n.toInt.natAbs) (isDigit_head ht)
  have htake := takeWhile_run (isDigit_printNat n.toInt.natAbs) (isDigit_head ht)
  have hatoi := myAtoi_printNat n.toInt.natAbs (isDigit_head ht)
  have hne := printNat_ne_nil n.toInt.natAbs
  rw [getNum, List.dropWhile_append_of_pos hgap]
  by_cases hneg : n.toInt < 0
  · have hskip : (45 :: printNat n.toInt.natAbs ++ t).dropWhile isSpace =
        45 :: (printNat n.toInt.natAbs ++ t) := rfl
    rw [printInt, if_pos hneg, hskip]
    simp only [List.head?_cons, List.tail_cons, if_true, or_true, hatoi, htake, hdrop]
    rw [if_neg (by simp only [hne, false_or]; omega)]
    simp only [Option.some.injEq, Prod.mk.injEq, and_true]
    omega
  · obtain ⟨c, cs, hcs⟩ := List.exists_cons_of_ne_nil hne
    have hc : isDigit c = true := isDigit_printNat n.toInt.natAbs c (hcs ▸ List.mem_cons_self ..)
    have hskip :
        (printNat n.toInt.natAbs ++ t).dropWhile isSpace = printNat n.toInt.natAbs ++ t := by
      rw [hcs, List.cons_append, List.dropWhile_cons_of_neg]
      rw [isSpace_of_isDigit hc]
      exact Bool.false_ne_true
    have hhead : (printNat n.toInt.natAbs ++ t).head? = some c := by rw [hcs]; rfl
    have hplus : ¬ (some c = some 43 ∨ some c = some 45) := by
      rintro (h | h) <;> rw [Option.some.inj h] at hc <;> cases hc
    rw [not_or] at hplus
    rw [printInt, if_neg hneg, hskip]
    simp only [hhead, hplus, if_false, or_self, hatoi, htake, hdrop]
    rw [if_neg (by simp only [hne, false_or]; omega)]
    simp only [Option.some.injEq, Prod.mk.injEq, and_true]
    omega

/-- **A floating number is read back**, as the characters that were printed. -/
theorem getFloat_digits (strtod : Name → Int × Int) (hgap : Spaces isSpace gap) (d : Printed)
    (ht : Ends isSpace t) :
    getFloat strtod (gap ++ (d.digits ++ t)) = some (strtod d.digits, t) := by
  have hnospace : ∀ c, isFloat c = true → isSpace c = false := by
    intro c hc
    have hsigns : ascii "+-.eE" = [43, 45, 46, 101, 69] := rfl
    simp only [isFloat, hsigns, decide_eq_true_eq, List.mem_cons, List.not_mem_nil, or_false] at hc
    rcases hc with hc | rfl | rfl | rfl | rfl | rfl
    · exact isSpace_of_isDigit hc
    all_goals rfl
  have hend : ∀ c, t.head? = some c → isFloat c = false := by
    intro c hc
    cases hfloat : isFloat c with
    | false => rfl
    | true =>
      have hspace := ht c hc
      rw [hnospace c hfloat] at hspace
      cases hspace
  obtain ⟨c, cs, hcs⟩ := List.exists_cons_of_ne_nil d.ne_nil
  have hc : isFloat c = true := d.float c (hcs ▸ List.mem_cons_self ..)
  have hskip : (d.digits ++ t).dropWhile isSpace = d.digits ++ t := by
    rw [hcs, List.cons_append, List.dropWhile_cons_of_neg]
    rw [hnospace c hc]
    exact Bool.false_ne_true
  rw [getFloat, List.dropWhile_append_of_pos hgap, hskip]
  simp only [takeWhile_run d.float hend, dropWhile_run d.float hend, if_neg d.ne_nil]

/-! ## Words -/

/-- What a word that was read is like. -/
theorem word_cases {r : Name} (h : nextWord s = some (w, r)) : NoSpace isSpace w ∧ w ≠ [] ∧
    w.length < MAX_LEN ∧ weight isSpace s = w.length + weight isSpace r := by
  rw [nextWord] at h
  split_ifs at h with hlong
  rw [not_or, Nat.not_le] at hlong
  have hs := Option.some.inj h
  have hword := @noSpace_word _ isSpace s
  have hweight := @weight_word _ isSpace s
  rw [hs] at hlong hword hweight
  exact ⟨hword, hlong.1, hlong.2, hweight⟩

/-- A word is read back if it is one, and fits. -/
theorem word_iff (hgap : Spaces isSpace gap) (hne : w ≠ []) (ht : Ends isSpace t) :
    nextWord (gap ++ (w ++ t)) = some (w, t) ↔ NoSpace isSpace w ∧ w.length < MAX_LEN := by
  constructor
  · intro h
    obtain ⟨hw, -, hlen, -⟩ := word_cases h
    exact ⟨hw, hlen⟩
  · rintro ⟨hw, hlen⟩
    rw [nextWord, word_append hgap hne hw ht, if_neg]
    rw [not_or, Nat.not_le]
    exact ⟨hne, hlen⟩

theorem slashed_ne_nil (s : Name) (n : ℕ) : slashed s n ≠ [] := by
  rw [slashed]
  exact List.append_ne_nil_of_right_ne_nil _ (List.cons_ne_nil _ _)

theorem noSpace_slashed (hs : NoSpace isSpace s) (n : ℕ) : NoSpace isSpace (slashed s n) := by
  intro c hc
  rcases List.mem_append.1 hc with h | h
  · exact hs c h
  · rcases List.mem_cons.1 h with rfl | h
    · rfl
    · exact noSpace_printNat n c h

/-- **A functor is read back** if neither spaces nor slashes are in its name. -/
theorem getFunName_iff (hgap : Spaces isSpace gap) (ht : Ends isSpace t) (s : Name) (n : ℕ) :
    getFunName (gap ++ (slashed s n ++ t)) = some ((s, n), t) ↔
      NoSpace isSpace s ∧ slash ∉ s ∧ (slashed s n).length < MAX_LEN := by
  constructor
  · intro h
    obtain ⟨⟨w, r⟩, hword, hrest⟩ := Option.bind_eq_some_iff.1 h
    dsimp only at hrest
    split_ifs at hrest
    simp only [Option.some.injEq, Prod.mk.injEq] at hrest
    obtain ⟨⟨hname, -⟩, rfl⟩ := hrest
    obtain ⟨hw, -, -, -⟩ := word_cases hword
    have hs : NoSpace isSpace s := by
      intro c hc
      rw [← hname] at hc
      exact hw c (List.takeWhile_subset _ hc)
    have hslash : slash ∉ s := by
      intro hc
      rw [← hname] at hc
      have := List.mem_takeWhile_imp hc
      exact of_decide_eq_true this rfl
    -- the word was the whole operand, so that it has fitted
    have hwhole := word_append hgap (slashed_ne_nil s n) (noSpace_slashed hs n) ht
    rw [nextWord, hwhole] at hword
    split_ifs at hword with hlong
    rw [not_or, Nat.not_le] at hlong
    exact ⟨hs, hslash, hlong.2⟩
  · rintro ⟨hs, hslash, hlen⟩
    have hword := (word_iff hgap (slashed_ne_nil s n) ht).2 ⟨noSpace_slashed hs n, hlen⟩
    have hmem : slash ∈ slashed s n := List.mem_append_right _ (List.mem_cons_self ..)
    have hatoi := myAtoi_printNat (t := []) n (by simp)
    rw [List.append_nil] at hatoi
    rw [getFunName, hword, Option.bind_some]
    dsimp only
    rw [if_pos hmem, slashed, takeWhile_separator hslash, dropWhile_separator hslash, List.drop_one,
      List.tail_cons, hatoi]

/-- **A label is read back** if it has no space and does not begin with two slashes. -/
theorem getLabelName_iff (hgap : Spaces isSpace gap) (hne : w ≠ []) (ht : Ends isSpace t) :
    getLabelName (gap ++ (w ++ t)) = some (w, t) ↔
      NoSpace isSpace w ∧ w.take 2 ≠ [slash, slash] ∧ w.length < MAX_LEN := by
  constructor
  · intro h
    obtain ⟨⟨w', r⟩, hword, hrest⟩ := Option.bind_eq_some_iff.1 h
    dsimp only at hrest
    split_ifs at hrest with hslashes
    simp only [Option.some.injEq, Prod.mk.injEq] at hrest
    obtain ⟨rfl, rfl⟩ := hrest
    obtain ⟨hw, -, hlen, -⟩ := word_cases hword
    exact ⟨hw, hslashes, hlen⟩
  · rintro ⟨hw, hslashes, hlen⟩
    rw [getLabelName, (word_iff hgap hne ht).2 ⟨hw, hlen⟩, Option.bind_some]
    dsimp only
    rw [if_neg hslashes]

/-! ## Quotes -/

/-- A backslash stands behind the last quote. -/
def pending (u : Name) : Bool :=
  decide (backslash ∈ u.reverse.takeWhile fun c => decide (c ≠ quote))

/-- Every quote but the one at the end has a backslash between it and the quote before, and that one
has not. -/
def Escaped (r : Name) : Prop :=
  ∀ u v, r ++ [quote] = u ++ quote :: v → (pending u = true ↔ v ≠ [])

theorem pending_append (u : Name) (c : UInt8) : pending (u ++ [c]) =
    if c = backslash then true else if c = quote then false else pending u := by
  rw [pending, List.reverse_append, List.reverse_singleton, List.singleton_append]
  by_cases hquote : c = quote
  · subst hquote
    rfl
  · have hpos : decide (c ≠ quote) = true := decide_eq_true hquote
    rw [List.takeWhile_cons, if_pos hpos, if_neg hquote, pending]
    by_cases hback : c = backslash
    · rw [if_pos hback, hback]
      exact decide_eq_true (List.mem_cons_self ..)
    · rw [if_neg hback, decide_eq_decide, List.mem_cons]
      exact or_iff_right fun h => hback h.symm

/-- The hunt finds the end of the name. -/
theorem hunt_iff (t : Name) : ∀ (r u : Name) (room : ℕ),
    hunt room (pending u) (r ++ quote :: t) = some (r, t) ↔
      r.length < room ∧ newline ∉ r ∧
        ∀ a b, r ++ [quote] = a ++ quote :: b → (pending (u ++ a) = true ↔ b ≠ [])
  | [], u, 0 => by simp [hunt]
  | [], u, room + 1 => by
    have honly : (∀ a b : Name, [quote] = a ++ quote :: b → (pending (u ++ a) = true ↔ b ≠ [])) ↔
        pending u = false := by
      constructor
      · intro h
        have hnone := h [] [] rfl
        rw [List.append_nil] at hnone
        cases hpending : pending u with
        | false => rfl
        | true => exact absurd rfl (hnone.1 hpending)
      · intro h a b hab
        cases a with
        | nil =>
          rw [List.append_nil, h, (List.cons.inj hab).2.symm]
          exact iff_of_false Bool.false_ne_true (fun hne => hne rfl)
        | cons c a =>
          have hnil := (List.cons.inj hab).2
          exact absurd hnil.symm (List.append_ne_nil_of_right_ne_nil _ (List.cons_ne_nil _ _))
    rw [List.nil_append, List.nil_append, honly, hunt]
    cases hpending : pending u with
    | false => simp
    | true =>
      have hne : ¬ (quote = newline ∨ quote = quote ∧ true = false) := by decide
      rw [if_neg hne]
      refine iff_of_false ?_ ?_
      · intro h
        obtain ⟨⟨n, r⟩, -, heq⟩ := Option.map_eq_some_iff.1 h
        cases heq
      · rintro ⟨-, -, h⟩
        cases h
  | c :: r, u, 0 => by simp [hunt]
  | c :: r, u, room + 1 => by
    rw [List.cons_append, hunt]
    by_cases hstop : c = newline ∨ c = quote ∧ pending u = false
    · rw [if_pos hstop]
      refine iff_of_false (fun h => by cases h) ?_
      rintro ⟨-, hline, hquotes⟩
      rcases hstop with rfl | ⟨rfl, hpending⟩
      · exact hline (List.mem_cons_self ..)
      · have := (hquotes [] (r ++ [quote]) rfl).2
          (List.append_ne_nil_of_right_ne_nil _ (List.cons_ne_nil _ _))
        rw [List.append_nil, hpending] at this
        cases this
    · rw [if_neg hstop, ← pending_append]
      have hmap : ((hunt room (pending (u ++ [c])) (r ++ quote :: t)).map fun x : Name × Name =>
          (c :: x.1, x.2)) = some (c :: r, t) ↔
          hunt room (pending (u ++ [c])) (r ++ quote :: t) = some (r, t) := by
        constructor
        · intro h
          obtain ⟨⟨n, t'⟩, hhunt, heq⟩ := Option.map_eq_some_iff.1 h
          simp only [Prod.mk.injEq, List.cons.injEq, true_and] at heq
          rw [hhunt, heq.1, heq.2]
        · intro h
          rw [h, Option.map_some]
      rw [not_or, not_and] at hstop
      refine hmap.trans ((hunt_iff t r (u ++ [c]) room).trans ?_)
      refine and_congr ?_ (and_congr ?_ ?_)
      · rw [List.length_cons]
        omega
      · rw [List.mem_cons, not_or]
        exact ⟨fun h => ⟨fun heq => hstop.1 heq.symm, h⟩, fun h => h.2⟩
      · constructor
        · intro h a b hab
          cases a with
          | nil =>
            -- the first quote is ignored, and others follow
            obtain ⟨rfl, rfl⟩ := List.cons.inj hab
            rw [List.append_nil]
            refine iff_of_true ?_ (List.append_ne_nil_of_right_ne_nil _ (List.cons_ne_nil _ _))
            have := hstop.2 rfl
            rwa [Bool.not_eq_false] at this
          | cons d a =>
            obtain rfl := (List.cons.inj hab).1
            have := h a b (List.cons.inj hab).2
            rwa [List.append_assoc] at this
        · intro h a b hab
          have := h (c :: a) b (congrArg (c :: ·) hab)
          rwa [List.append_assoc]

/-! ## Constants -/

/-- A name that survives between quotes. -/
def QuotedPlain (s : Name) : Prop :=
  NoSpace isSpace s ∧ s.length + 2 < MAX_LEN ∨
    ¬ NoSpace isSpace s ∧ s.length + 2 ≤ MAX_LEN ∧ newline ∉ s ∧
      (s.takeWhile fun c => !isSpace c).getLast? ≠ some quote ∧
      Escaped (s.dropWhile fun c => !isSpace c)

/-- A word with a quote in front is taken off its quotes, or the hunt goes on. -/
theorem getConName_quoted {f r : Name} (h : nextWord s = some (quote :: f, r)) : getConName s =
    if f.getLast? = some quote then some (f.dropLast, r)
    else (hunt (MAX_LEN - (f.length + 1)) false r).bind fun (n, s) =>
      if f ++ n = [] then none else some (f ++ n, s) := by
  rw [getConName, h, Option.bind_some]
  exact if_neg fun hne => hne rfl

theorem getConName_of_noSpace (hgap : Spaces isSpace gap) (ht : Ends isSpace t)
    (hs : NoSpace isSpace s) : getConName (gap ++ (quote :: (s ++ [quote]) ++ t)) = some (s, t) ↔
      s.length + 2 < MAX_LEN := by
  have hquoted : NoSpace isSpace (quote :: (s ++ [quote])) := by
    intro c hc
    rcases List.mem_cons.1 hc with rfl | hc
    · rfl
    · rcases List.mem_append.1 hc with hc | hc
      · exact hs c hc
      · rw [List.mem_singleton.1 hc]
        rfl
  have hlength : (quote :: (s ++ [quote])).length = s.length + 2 := by
    rw [List.length_cons, List.length_append, List.length_singleton]
  constructor
  · intro h
    obtain ⟨⟨w, r⟩, hword, -⟩ := Option.bind_eq_some_iff.1 h
    by_contra hlong
    rw [nextWord, word_append hgap (List.cons_ne_nil _ _) hquoted ht, if_pos] at hword
    · cases hword
    · exact .inr (hlength ▸ Nat.not_lt.1 hlong)
  · intro hlen
    have hword := (word_iff hgap (List.cons_ne_nil _ _) ht).2 ⟨hquoted, hlength ▸ hlen⟩
    rw [getConName_quoted hword, if_pos List.getLast?_concat, List.dropLast_concat]

/-- **A constant is read back** under these conditions, and no others. -/
theorem getConName_iff (hgap : Spaces isSpace gap) (ht : Ends isSpace t) (s : Name) :
    getConName (gap ++ (quote :: (s ++ [quote]) ++ t)) = some (s, t) ↔ QuotedPlain s := by
  by_cases hs : NoSpace isSpace s
  · rw [getConName_of_noSpace hgap ht hs, QuotedPlain, and_iff_right hs,
      or_iff_left fun h => h.1 hs]
  rw [QuotedPlain, or_iff_right fun h => hs h.1, and_iff_right hs]
  -- the first word of the name, and the rest, which is left to the hunt
  have hsplit := List.takeWhile_append_dropWhile (p := fun c => !isSpace c) (l := s)
  have hfirst : NoSpace isSpace (s.takeWhile fun c => !isSpace c) := by
    intro c hc
    have := List.mem_takeWhile_imp hc
    rwa [Bool.not_eq_true'] at this
  have hends : Ends isSpace (s.dropWhile fun c => !isSpace c) := by
    intro c hc
    have := dropWhile_head hc
    rwa [Bool.not_eq_false'] at this
  generalize (s.takeWhile fun c => !isSpace c) = f at hsplit hfirst ⊢
  generalize (s.dropWhile fun c => !isSpace c) = r at hsplit hends ⊢
  subst hsplit
  have hr : r ≠ [] := by
    rintro rfl
    rw [List.append_nil] at hs
    exact hs hfirst
  have hlength : (f ++ r).length = f.length + r.length := List.length_append
  have hpos := List.length_pos_of_ne_nil hr
  have htext : quote :: (f ++ r ++ [quote]) ++ t = (quote :: f) ++ (r ++ quote :: t) := by simp
  have hquoted : NoSpace isSpace (quote :: f) := by
    intro c hc
    rcases List.mem_cons.1 hc with rfl | hc
    · rfl
    · exact hfirst c hc
  have hends' : Ends isSpace (r ++ quote :: t) := by
    obtain ⟨c, cs, rfl⟩ := List.exists_cons_of_ne_nil hr
    exact .cons (hends c rfl)
  have hline : newline ∉ f ++ r ↔ newline ∉ r := by
    rw [List.mem_append, not_or, and_iff_right]
    intro hmem
    exact Bool.noConfusion (hfirst newline hmem : isSpace newline = false)
  rw [htext, hline]
  by_cases hlen : f.length + 1 < MAX_LEN
  · have hword := (word_iff hgap (List.cons_ne_nil quote f) hends').2 ⟨hquoted, hlen⟩
    rw [getConName_quoted hword]
    by_cases hlast : f.getLast? = some quote
    · rw [if_pos hlast]
      refine iff_of_false ?_ fun h => h.2.2.1 hlast
      intro h
      have := congrArg List.length (Prod.mk.inj (Option.some.inj h)).2
      rw [List.length_append, List.length_cons] at this
      omega
    · have hhunt := hunt_iff t r [] (MAX_LEN - (f.length + 1))
      have hbind : ((hunt (MAX_LEN - (f.length + 1)) false (r ++ quote :: t)).bind
          fun x : Name × Name => if f ++ x.1 = [] then none else some (f ++ x.1, x.2)) =
            some (f ++ r, t) ↔
          hunt (MAX_LEN - (f.length + 1)) (pending []) (r ++ quote :: t) = some (r, t) := by
        constructor
        · intro h
          obtain ⟨⟨n, t'⟩, hrun, hresult⟩ := Option.bind_eq_some_iff.1 h
          dsimp only at hresult
          split_ifs at hresult
          simp only [Option.some.injEq, Prod.mk.injEq, List.append_cancel_left_eq] at hresult
          obtain ⟨rfl, rfl⟩ := hresult
          exact hrun
        · intro h
          have hrun : hunt (MAX_LEN - (f.length + 1)) false (r ++ quote :: t) = some (r, t) := h
          rw [hrun, Option.bind_some]
          exact if_neg (List.append_ne_nil_of_right_ne_nil _ hr)
      rw [if_neg hlast]
      refine hbind.trans (hhunt.trans (and_congr ?_ (and_congr_right fun _ => ?_)))
      · rw [hlength]
        omega
      · exact (and_iff_right hlast).symm
  · refine iff_of_false ?_ ?_
    · intro h
      obtain ⟨⟨w, r'⟩, hword, -⟩ := Option.bind_eq_some_iff.1 h
      rw [nextWord, word_append hgap (List.cons_ne_nil quote f) hquoted hends', if_pos] at hword
      · cases hword
      · exact .inr (Nat.not_lt.1 hlen)
    · rintro ⟨hle, -⟩
      omega

/-! ## Operands -/

theorem Label.text_ne_nil (l : Label) : l.text ≠ [] := by
  cases l with
  | fail => decide
  | «at» proname argnum place =>
    exact List.append_ne_nil_of_left_ne_nil (slashed_ne_nil _ _) _

/-- The names in an operand survive. -/
def Arg.Plain : Arg → Prop
  | .con s => QuotedPlain s.chars
  | .functor s arity | .procedure s arity =>
      NoSpace isSpace s.chars ∧ slash ∉ s.chars ∧ (slashed s.chars arity).length < MAX_LEN
  | .builtin s arity => NoSpace isSpace s.chars ∧ (slashed s.chars arity).length < MAX_LEN
  | .label l =>
      NoSpace isSpace l.text ∧ l.text.take 2 ≠ [slash, slash] ∧ l.text.length < MAX_LEN
  | .num _ | .int _ | .float _ => True

/-- A token is what was read, if the name of the token tells it. -/
theorem map_token_iff {α : Type} {f : α → Operand} (hf : Function.Injective f)
    (x : Option (α × Name)) (n : α) :
    (x.map fun (n, s) => (f n, s)) = some (f n, t) ↔ x = some (n, t) := by
  constructor
  · intro h
    obtain ⟨⟨m, r⟩, hx, heq⟩ := Option.map_eq_some_iff.1 h
    rw [Prod.mk.injEq] at heq
    rw [hx, hf heq.1, heq.2]
  · intro h
    rw [h, Option.map_some]

/-- **An operand is read back**, and the reader left right behind it, just when it is plain. -/
theorem readOperand_iff (strtod : Name → Int × Int) (hgap : Spaces isSpace gap)
    (ht : Ends isSpace t) (a : Arg) :
    readOperand strtod a.kind (gap ++ (a.text ++ t)) = some (a.operand strtod, t) ↔ a.Plain := by
  cases a with
  | num n =>
    simp only [Arg.kind, Arg.text, readOperand, getNum_printInt hgap n ht]
    exact iff_of_true rfl trivial
  | int n =>
    simp only [Arg.kind, Arg.text, readOperand, getNum_printInt hgap n ht]
    exact iff_of_true rfl trivial
  | float d =>
    simp only [Arg.kind, Arg.text, readOperand, getFloat_digits strtod hgap d ht]
    exact iff_of_true rfl trivial
  | con s =>
    rw [Arg.Plain, ← getConName_iff hgap ht]
    exact map_token_iff (fun m n h => Operand.con.inj h) _ _
  | functor s arity =>
    rw [Arg.Plain, ← getFunName_iff hgap ht]
    apply map_token_iff (n := (s.chars, arity)) (f := fun f : Name × ℕ => Operand.functor f.1 f.2)
    exact fun m n h => Prod.ext (Operand.functor.inj h).1 (Operand.functor.inj h).2
  | procedure s arity =>
    rw [Arg.Plain, ← getFunName_iff hgap ht]
    apply map_token_iff (n := (s.chars, arity)) (f := fun f : Name × ℕ => Operand.procedure f.1 f.2)
    exact fun m n h => Prod.ext (Operand.procedure.inj h).1 (Operand.procedure.inj h).2
  | builtin s arity =>
    have hspace : NoSpace isSpace (slashed s.chars arity) ↔ NoSpace isSpace s.chars :=
      ⟨fun h c hc => h c (List.mem_append_left _ hc), fun h => noSpace_slashed h arity⟩
    rw [Arg.Plain, ← hspace, ← word_iff hgap (slashed_ne_nil _ _) ht]
    exact map_token_iff (fun m n h => Operand.builtin.inj h) _ _
  | label l =>
    rw [Arg.Plain, ← getLabelName_iff hgap l.text_ne_nil ht]
    exact map_token_iff (fun m n h => Operand.label.inj h) _ _

end Listing

end Mlvm
