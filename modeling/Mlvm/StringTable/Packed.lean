import Mathlib.Data.List.Basic
import Mathlib.Logic.Function.Basic
import Mathlib.Tactic.SplitIfs

/-!
# Packed strings

Strings that end in a terminator and stand one after the other in a memory.

**Strings** (`Str`) do not contain the terminator, so a row of packed strings can be taken apart in
one way only: **`IndexOf.unique`**.

**Memory** (`At`): some values stand in a memory from an address on.
-/

namespace StringTable

variable {α : Type*} {z : α}

/-! ## Values in a memory -/

/-- The values stand in the memory from `a` on. -/
def At (mem : Int → α) (a : Int) (bs : List α) : Prop :=
  ∀ i b, bs[i]? = some b → mem (a + (i : ℕ)) = b

theorem at_nil (mem : Int → α) (a : Int) : At mem a [] := fun i b h => by simp at h

theorem at_cons {mem : Int → α} {a : Int} {b : α} {bs : List α} :
    At mem a (b :: bs) ↔ mem a = b ∧ At mem (a + 1) bs := by
  have hplace : ∀ i : ℕ, a + ((i + 1 : ℕ) : Int) = a + 1 + i := fun i => by omega
  constructor
  · intro h
    refine ⟨?_, fun i b' hb => ?_⟩
    · have := h 0 b rfl
      rwa [Int.natCast_zero, Int.add_zero] at this
    · rw [← hplace]
      exact h (i + 1) b' hb
  · rintro ⟨hb, hbs⟩ i b' h
    cases i with
    | zero =>
      rw [Int.natCast_zero, Int.add_zero, hb]
      exact Option.some.inj h
    | succ i =>
      rw [hplace]
      exact hbs i b' h

theorem at_append {mem : Int → α} {a : Int} {bs cs : List α} :
    At mem a (bs ++ cs) ↔ At mem a bs ∧ At mem (a + bs.length) cs := by
  induction bs generalizing a with
  | nil => simp [at_nil]
  | cons b bs ih =>
    have hplace : a + ((b :: bs).length : ℕ) = a + 1 + bs.length := by
      rw [List.length_cons]
      omega
    rw [List.cons_append, at_cons, at_cons, ih, hplace, and_assoc]

/-- The values are still there when the memory is the same where they stand. -/
theorem At.congr {mem mem' : Int → α} {a : Int} {bs : List α} (h : At mem a bs)
    (hsame : ∀ x, a ≤ x → x < a + bs.length → mem' x = mem x) : At mem' a bs := by
  intro i b hb
  have hlt := (List.getElem?_eq_some_iff.1 hb).1
  rw [hsame _ (by omega) (by omega)]
  exact h i b hb

/-- The memory with these values from `a` on. -/
def place : List α → Int → (Int → α) → Int → α
  | [], _, mem => mem
  | b :: bs, a, mem => place bs (a + 1) (Function.update mem a b)

/-- **The values are placed**, and everything else is as before. -/
theorem at_place (bs : List α) (a : Int) (mem : Int → α) :
    At (place bs a mem) a bs ∧
      ∀ x, x < a ∨ a + bs.length ≤ x → place bs a mem x = mem x := by
  induction bs generalizing a mem with
  | nil => exact ⟨at_nil _ _, fun _ _ => rfl⟩
  | cons b bs ih =>
    obtain ⟨hat, hframe⟩ := ih (a + 1) (Function.update mem a b)
    refine ⟨at_cons.2 ⟨?_, hat⟩, fun x hx => ?_⟩
    · rw [place, hframe a (.inl (by omega))]
      exact Function.update_self ..
    · rw [List.length_cons] at hx
      rw [place, hframe x (by omega)]
      exact Function.update_of_ne (by omega) ..

/-! ## Strings -/

/-- A string without the terminator `z` in it. -/
structure Str (z : α) where
  chars : List α
  clean : z ∉ chars

theorem Str.ext {s t : Str z} (h : s.chars = t.chars) : s = t := by
  cases s
  cases t
  cases h
  rfl

/-- A string with its terminator. -/
def Str.packed (s : Str z) : List α := s.chars ++ [z]

/-- **At an address stands one string.** -/
theorem At.packed_unique {mem : Int → α} {a : Int} {s t : Str z} (hs : At mem a s.packed)
    (ht : At mem a t.packed) : s = t := by
  obtain ⟨cs, hcs⟩ := s
  obtain ⟨ds, hds⟩ := t
  simp only [Str.packed] at hs ht
  refine Str.ext ?_
  show cs = ds
  induction cs generalizing a ds with
  | nil =>
    cases ds with
    | nil => rfl
    | cons d ds =>
      have hend := (at_cons.1 hs).1.symm.trans (at_cons.1 ht).1
      exact absurd (by simp [hend]) hds
  | cons c cs ih =>
    cases ds with
    | nil =>
      have hend := (at_cons.1 ht).1.symm.trans (at_cons.1 hs).1
      exact absurd (by simp [hend]) hcs
    | cons d ds =>
      obtain ⟨hc, hs⟩ := at_cons.1 hs
      obtain ⟨hd, ht⟩ := at_cons.1 ht
      rw [← hc, ← hd, ih (fun h => hcs (List.mem_cons_of_mem _ h)) hs ds
        (fun h => hds (List.mem_cons_of_mem _ h)) ht]

/-- The strings one after the other. -/
def pack (es : List (Str z)) : List α := es.flatMap Str.packed

@[simp] theorem pack_nil : pack ([] : List (Str z)) = [] := rfl

@[simp] theorem pack_cons (e : Str z) (es : List (Str z)) : pack (e :: es) = e.packed ++ pack es :=
  rfl

@[simp] theorem pack_append (es es' : List (Str z)) : pack (es ++ es') = pack es ++ pack es' :=
  List.flatMap_append

@[simp] theorem length_packed (s : Str z) : s.packed.length = s.chars.length + 1 := by
  simp [Str.packed]

/-- What one string more takes. -/
theorem length_pack_append_sub (es : List (Str z)) (s : Str z) :
    ((pack (es ++ [s])).length : Int) - (pack es).length = s.chars.length + 1 := by
  rw [pack_append, List.length_append, pack_cons, pack_nil, List.append_nil, length_packed]
  omega

/-! ## Indices -/

/-- The string stands at index `i` of the row. -/
def IndexOf (es : List (Str z)) (s : Str z) (i : ℕ) : Prop :=
  ∃ pre post, es = pre ++ s :: post ∧ i = (pack pre).length

/-- **At an index stands one string.** -/
theorem IndexOf.unique {es : List (Str z)} {s t : Str z} {i : ℕ} (hs : IndexOf es s i)
    (ht : IndexOf es t i) : s = t := by
  obtain ⟨pre, post, rfl, rfl⟩ := hs
  obtain ⟨pre', post', heq, hlen⟩ := ht
  induction pre generalizing pre' with
  | nil =>
    cases pre' with
    | nil => exact (List.cons.inj heq).1
    | cons e pre' =>
      rw [pack_nil, pack_cons, List.length_append, length_packed, List.length_nil] at hlen
      omega
  | cons e pre ih =>
    cases pre' with
    | nil =>
      rw [pack_nil, pack_cons, List.length_append, length_packed, List.length_nil] at hlen
      omega
    | cons e' pre' =>
      obtain ⟨rfl, htail⟩ := List.cons.inj heq
      rw [pack_cons, pack_cons, List.length_append, List.length_append] at hlen
      exact ih pre' htail (Nat.add_left_cancel hlen)

/-- More strings behind leave the indices as they are. -/
theorem IndexOf.append {es : List (Str z)} {s : Str z} {i : ℕ} (h : IndexOf es s i)
    (es' : List (Str z)) : IndexOf (es ++ es') s i := by
  obtain ⟨pre, post, rfl, rfl⟩ := h
  exact ⟨pre, post ++ es', by simp, rfl⟩

/-- A new string behind the others stands at their end only. -/
theorem IndexOf.eq_length {es : List (Str z)} {s : Str z} {i : ℕ} (h : IndexOf (es ++ [s]) s i)
    (hnew : s ∉ es) : i = (pack es).length := by
  obtain ⟨pre, post, heq, rfl⟩ := h
  rcases List.eq_nil_or_concat post with rfl | ⟨post', t, rfl⟩
  · rw [(List.append_inj' heq rfl).1]
  · have hsplit : es ++ [s] = (pre ++ s :: post') ++ [t] := by simpa using heq
    refine absurd ?_ hnew
    rw [(List.append_inj' hsplit rfl).1]
    exact List.mem_append_right _ List.mem_cons_self

end StringTable
