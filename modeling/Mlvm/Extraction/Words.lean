import Mathlib.Data.List.Basic
import Mathlib.Data.List.Count
import Mathlib.Data.List.TakeWhile

/-!
# Words of a text

A stream is read word by word: spaces are skipped and what follows is taken up to the next space.

**A word is read back** (`word_append`) from any text in which it stands between spaces, and **only
a word is** (`noSpace_word`). The characters that are not spaces are never read twice
(`count_word`), by which a reader that has found everything has left nothing out.
-/

namespace Extraction

variable {α : Type*} (space : α → Bool)

/-- The word a stream gives and what is left of the stream. -/
def word (s : List α) : List α × List α :=
  let s := s.dropWhile space
  (s.takeWhile fun c => !space c, s.dropWhile fun c => !space c)

/-- No character is a space. -/
def NoSpace (s : List α) : Prop := ∀ c ∈ s, space c = false

/-- A text at whose beginning a word ends. -/
def Ends (s : List α) : Prop := ∀ c, s.head? = some c → space c = true

/-- A text of spaces. -/
def Spaces (s : List α) : Prop := ∀ c ∈ s, space c = true

/-- How many characters are not spaces. -/
def weight (s : List α) : ℕ := s.countP fun c => !space c

variable {space}

/-! ## Runs of characters -/

section Runs

variable {p : α → Bool} {s t : List α}

/-- A run ends where the property does. -/
theorem takeWhile_run (hs : ∀ c ∈ s, p c = true) (ht : ∀ c, t.head? = some c → p c = false) :
    (s ++ t).takeWhile p = s := by
  rw [List.takeWhile_append_of_pos hs]
  cases t with
  | nil => rw [List.takeWhile_nil, List.append_nil]
  | cons c t => rw [List.takeWhile_cons_of_neg (by simp [ht c rfl]), List.append_nil]

theorem dropWhile_run (hs : ∀ c ∈ s, p c = true) (ht : ∀ c, t.head? = some c → p c = false) :
    (s ++ t).dropWhile p = t := by
  rw [List.dropWhile_append_of_pos hs]
  cases t with
  | nil => rfl
  | cons c t => rw [List.dropWhile_cons_of_neg (by simp [ht c rfl])]

theorem dropWhile_head {c : α} (h : (s.dropWhile p).head? = some c) : p c = false := by
  induction s with
  | nil => cases h
  | cons d s ih =>
    by_cases hd : p d = true
    · rw [List.dropWhile_cons_of_pos hd] at h
      exact ih h
    · rw [List.dropWhile_cons_of_neg hd] at h
      rw [← Option.some.inj h]
      exact Bool.not_eq_true _ ▸ hd

end Runs

/-! ## Spaces -/

variable {s t gap w : List α}

theorem Ends.cons {c : α} (h : space c = true) : Ends space (c :: s) := by
  intro d hd
  rwa [← Option.some.inj hd]

theorem Spaces.ends (hgap : Spaces space gap) (hs : Ends space s) : Ends space (gap ++ s) := by
  cases gap with
  | nil => exact hs
  | cons c gap => exact .cons (hgap c (List.mem_cons_self ..))

theorem Spaces.append (hgap : Spaces space gap) (hs : Spaces space s) :
    Spaces space (gap ++ s) := by
  intro c hc
  rcases List.mem_append.1 hc with h | h
  · exact hgap c h
  · exact hs c h

theorem Spaces.weight_eq (h : Spaces space s) : weight space s = 0 := by
  apply List.countP_eq_zero.2
  intro c hc
  simp [h c hc]

theorem weight_append (s t : List α) :
    weight space (s ++ t) = weight space s + weight space t := List.countP_append

theorem NoSpace.weight_eq (h : NoSpace space s) : weight space s = s.length := by
  apply List.countP_eq_length.2
  intro c hc
  simp [h c hc]

/-! ## Words -/

/-- Spaces in front of a word are skipped. -/
theorem word_gap (hgap : Spaces space gap) (s : List α) : word space (gap ++ s) = word space s := by
  simp only [word, List.dropWhile_append_of_pos hgap]

/-- **A word between spaces is read**, and the stream is left right behind it. -/
theorem word_append (hgap : Spaces space gap) (hne : w ≠ []) (hw : NoSpace space w)
    (hs : Ends space s) : word space (gap ++ (w ++ s)) = (w, s) := by
  have hpos : ∀ c ∈ w, (!space c) = true := by
    intro c hc
    rw [hw c hc, Bool.not_false]
  have hneg : ∀ c, s.head? = some c → (!space c) = false := by
    intro c hc
    rw [hs c hc, Bool.not_true]
  have hstart : (w ++ s).dropWhile space = w ++ s := by
    obtain ⟨c, w, rfl⟩ := List.exists_cons_of_ne_nil hne
    rw [List.cons_append, List.dropWhile_cons_of_neg]
    rw [hw c (List.mem_cons_self ..)]
    exact Bool.false_ne_true
  rw [word_gap hgap]
  simp only [word, hstart, takeWhile_run hpos hneg, dropWhile_run hpos hneg]

/-- What is read has no space in it. -/
theorem noSpace_word (s : List α) : NoSpace space (word space s).1 := by
  intro c hc
  have := List.mem_takeWhile_imp hc
  rwa [Bool.not_eq_true'] at this

/-- Every character is in the word or left. -/
theorem weight_word (s : List α) :
    weight space s = (word space s).1.length + weight space (word space s).2 := by
  have hskip : weight space s = weight space (s.dropWhile space) := by
    have hsplit := congrArg (weight space) (List.takeWhile_append_dropWhile (p := space) (l := s))
    have hspaces : Spaces space (s.takeWhile space) := fun c hc => List.mem_takeWhile_imp hc
    rw [weight_append, hspaces.weight_eq, Nat.zero_add] at hsplit
    exact hsplit.symm
  have hsplit := congrArg (weight space)
    (List.takeWhile_append_dropWhile (p := fun c => !space c) (l := s.dropWhile space))
  rw [hskip, ← hsplit, weight_append, ← (noSpace_word s).weight_eq]
  rfl

/-! ## Separators -/

section Separators

variable [DecidableEq α] {x : α}

/-- A text ends at its first separator. -/
theorem takeWhile_separator (h : x ∉ s) (t : List α) :
    (s ++ x :: t).takeWhile (fun c => decide (c ≠ x)) = s := by
  apply takeWhile_run
  · intro c hc
    exact decide_eq_true fun heq => h (heq ▸ hc)
  · intro c hc
    rw [← Option.some.inj hc]
    exact decide_eq_false fun hne => hne rfl

theorem dropWhile_separator (h : x ∉ s) (t : List α) :
    (s ++ x :: t).dropWhile (fun c => decide (c ≠ x)) = x :: t := by
  apply dropWhile_run
  · intro c hc
    exact decide_eq_true fun heq => h (heq ▸ hc)
  · intro c hc
    rw [← Option.some.inj hc]
    exact decide_eq_false fun hne => hne rfl

/-- A text without the separator is found in one way only. -/
theorem split_unique {s' t' : List α} (h : x ∉ s) (h' : x ∉ s')
    (heq : s ++ x :: t = s' ++ x :: t') : s = s' ∧ t = t' := by
  have hs : s = s' := by rw [← takeWhile_separator h t, heq, takeWhile_separator h' t']
  subst hs
  exact ⟨rfl, (List.cons.inj (List.append_cancel_left heq)).2⟩

/-- Parts without the separator, each with a separator in front, are found again. -/
theorem parts_unique : ∀ {ps qs : List (List α)}, (∀ p ∈ ps, x ∉ p) → (∀ q ∈ qs, x ∉ q) →
    ps.flatMap (x :: ·) = qs.flatMap (x :: ·) → ps = qs
  | [], [], _, _, _ => rfl
  | [], q :: qs, _, _, h => by cases h
  | p :: ps, [], _, _, h => by cases h
  | p :: ps, q :: qs, hp, hq, h => by
    have htail : p ++ ps.flatMap (x :: ·) = q ++ qs.flatMap (x :: ·) := (List.cons.inj h).2
    -- the rest of the parts begins with the separator, or is empty
    have hstop : ∀ rs : List (List α), ∀ c, (rs.flatMap (x :: ·)).head? = some c →
        decide (c ≠ x) = false := by
      intro rs c hc
      cases rs with
      | nil => cases hc
      | cons r rs =>
        rw [← Option.some.inj hc]
        exact decide_eq_false fun hne => hne rfl
    have hpos : ∀ {r : List α}, x ∉ r → ∀ c ∈ r, decide (c ≠ x) = true := by
      intro r hr c hc
      exact decide_eq_true fun heq => hr (heq ▸ hc)
    have hp₀ := hpos (hp p (List.mem_cons_self ..))
    have hq₀ := hpos (hq q (List.mem_cons_self ..))
    have hpq : p = q := by
      rw [← takeWhile_run hp₀ (hstop ps), htail, takeWhile_run hq₀ (hstop qs)]
    have hrest : ps.flatMap (x :: ·) = qs.flatMap (x :: ·) := by
      rw [← dropWhile_run hp₀ (hstop ps), htail, dropWhile_run hq₀ (hstop qs)]
    rw [hpq, parts_unique (fun r hr => hp r (List.mem_cons_of_mem _ hr))
      (fun r hr => hq r (List.mem_cons_of_mem _ hr)) hrest]

end Separators

end Extraction
