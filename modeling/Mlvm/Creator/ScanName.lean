import Mlvm.Creator.ScanStep

/-!
# One round on a name

A name is looked up in the name table of the child.

* `comes_intern_known` — it is there.
* `comes_intern_fits` — it is appended, there being room below the stack.
* `comes_intern_moved` — it is appended when the stack has been moved up.
* `comes_intern_stuck`, `comes_intern_long` — there is an entry in the trail, or the name is too
  long even then, and there is no result.

**`Named`** says what the round has changed; `Scanning.named`: the invariant holds again.
-/

namespace Mlvm.Creator

open FirstOrder StringTable

/-! ## What a name changes -/

/-- A word that is moved up by `d` with the words from `lo` to `hi`. -/
def carry (d lo hi v : Int) : Int := if IsStackPointer lo (hi - 1) v then v + 4 * d else v

@[simp] theorem carry_zero (lo hi v : Int) : carry 0 lo hi v = v := by simp [carry]

theorem carry_of_not {d lo hi v : Int} (h : ¬ IsStackPointer lo (hi - 1) v) : carry d lo hi v = v :=
  if_neg h

/-- A mark is moved as it is, and nothing else becomes one. -/
theorem carry_eq_mark {d lo hi v : Int} : carry d lo hi v = -1 ↔ v = -1 := by
  rw [carry]
  split_ifs with h
  · have := h.1
    rw [isCstWord] at this
    omega
  · rfl

/-- The word at `skbot` has become the name, and the words of the copy have been moved up by `d`. -/
structure Named (s s' : Copy) (d : Int) (pcon : CString) (arity : ℕ) (es' : List CString) :
    Prop where
  table : Table s'.child s'.mem es'
  name_base : s'.child.name_base = s.child.name_base
  stack_base : s'.child.stack_base = s.child.stack_base + d
  st : s'.child.st = s.child.st + d
  tt : s'.child.tt = s.child.tt
  block_ceiling : s'.child.block_ceiling = s.child.block_ceiling
  skbot : s'.skbot = s.skbot + d + 1
  sktop : s'.sktop = s.sktop + d
  self : ∃ k, IndexOf es' pcon k ∧
    s'.mem.read (s.skbot + d) = .makeFun ((k : ℕ) + ASCII_SIZE) arity
  byte : ∀ b, b < s.child.name_base ∨ s'.child.name_top ≤ b → s'.mem.byte b = s.mem.byte b
  cell : ∀ a, s.child.stack_base ≤ a → a < s.sktop → a ≠ s.skbot →
    d = 0 ∨ ¬ PassedOver s.child.stack_base s.mem.word (s.sktop - 1) a →
    s'.mem.word (a + d) = carry d s.child.stack_base s.sktop (s.mem.word a)
  data : ∀ a, s.child.stack_base ≤ a → a < s.sktop → a ≠ s.skbot →
    d = 0 ∨ PassedOver s.child.stack_base s.mem.word (s.sktop - 1) a →
    s'.mem.word (a + d) = s.mem.word a
  outside : ∀ a, a < s.child.stack_base ∨ s.sktop + d ≤ a → s'.mem.word a = s.mem.word a
  mono : s.high ≤ s'.high
  high : s.high < s.sktop → s'.high < s'.sktop
  reach : s'.sktop ≤ s'.high + 1

/-- Settling the word, after the names and the stack have come to be as they should. -/
def Copy.named (s : Copy) (d : Int) (child : Icb) (mem : Memory) (k : Int) (arity : ℕ) : Copy :=
  Copy.settle { child, mem, nl := d, skbot := s.skbot + d, sktop := s.sktop + d,
                high := max s.high (s.sktop + d - 1) } (.makeFun (k + ASCII_SIZE) arity)

theorem intern_eq {s : Copy} {fuel : ℕ} {pcon : List UInt8} {arity : ℕ} {k d : Int} {child : Icb}
    {mem : Memory}
    (h : searchIndex fuel pcon s.child (s.sktop - 1) s.mem = some (k, d, child, mem)) :
    s.intern fuel pcon arity =
      if child.name_top ≤ 4 * child.stack_base then some (s.named d child mem k arity)
      else none := by
  rw [Copy.intern, h]
  rfl

/-- Copying a string changes nothing behind it. -/
theorem copyString_above (pcon : List UInt8) (cp : Int) (byte : Int → UInt8) {x : Int}
    (hx : cp + pcon.length + 1 ≤ x) : copyString pcon cp byte x = byte x := by
  induction pcon generalizing cp byte with
  | nil =>
    rw [List.length_nil] at hx
    exact Function.update_of_ne (by omega) ..
  | cons c pp ih =>
    rw [List.length_cons] at hx
    rw [copyString, ih _ _ (by omega)]
    exact Function.update_of_ne (by omega) ..

section Intern

variable {A : Area} {keep move : Prop} {s : Copy} {es es' : List CString} {pcon : CString}
  {arity : ℕ} {child : Icb} {mem : Memory} {d : Int} {k : ℕ}

/-- The registers are those of a stack that has been moved up by `d`. -/
structure RegistersUp (c c' : Icb) (d : Int) : Prop where
  name_base : c'.name_base = c.name_base
  stack_base : c'.stack_base = c.stack_base + d
  st : c'.st = c.st + d
  tt : c'.tt = c.tt
  block_ceiling : c'.block_ceiling = c.block_ceiling

/-- The words of the copy have been moved up by `d`. -/
structure WordsUp (s : Copy) (mem : Memory) (d : Int) : Prop where
  cell : ∀ a, s.child.stack_base ≤ a → a < s.sktop →
    d = 0 ∨ ¬ PassedOver s.child.stack_base s.mem.word (s.sktop - 1) a →
    mem.word (a + d) = carry d s.child.stack_base s.sktop (s.mem.word a)
  data : ∀ a, s.child.stack_base ≤ a → a < s.sktop →
    d = 0 ∨ PassedOver s.child.stack_base s.mem.word (s.sktop - 1) a →
    mem.word (a + d) = s.mem.word a
  outside : ∀ a, a < s.child.stack_base ∨ s.sktop + d ≤ a → mem.word a = s.mem.word a

theorem wordsUp_zero (s : Copy) (byte : Int → UInt8) :
    WordsUp s { s.mem with byte } 0 where
  cell a _ _ _ := by rw [carry_zero, Int.add_zero]
  data a _ _ _ := by rw [Int.add_zero]
  outside _ _ := rfl

open Classical in
theorem wordsUp_moveStack (s : Copy) (byte : Int → UInt8) :
    WordsUp s { word := moveStack s.child.stack_base (s.sktop - 1) (s.sktop - 1) s.mem.word, byte }
      nameExpWords := by
  have hmoved : ∀ a, s.child.stack_base ≤ a → a < s.sktop →
      moveStack s.child.stack_base (s.sktop - 1) (s.sktop - 1) s.mem.word (a + nameExpWords) =
        movedWord s.child.stack_base (s.sktop - 1) s.mem.word (s.sktop - 1) a := by
    intro a ha ha'
    rw [moveStack_apply, if_pos (by omega), Int.add_sub_cancel]
  refine ⟨fun a ha ha' hover => ?_, fun a ha ha' hover => ?_, fun a ha => ?_⟩
  · refine (hmoved a ha ha').trans ?_
    rw [movedWord, if_neg (hover.resolve_left (by decide))]
    rfl
  · refine (hmoved a ha ha').trans ?_
    rw [movedWord, if_pos (hover.resolve_left (by decide))]
  · show moveStack _ _ _ _ a = _
    have hd : nameExpWords = 64 := rfl
    rw [moveStack_apply, if_neg (by omega)]

/-- **Settling the word** of a name, when the names and the stack are as they should be. -/
theorem named_of (hlt : s.skbot < s.sktop) (hbase : s.child.stack_base ≤ s.skbot) (hd : 0 ≤ d)
    (htable : Table child mem es') (hregs : RegistersUp s.child child d) (hk : IndexOf es' pcon k)
    (hbyte : ∀ b, b < s.child.name_base ∨ child.name_top ≤ b → mem.byte b = s.mem.byte b)
    (hwords : WordsUp s mem d) : Named s (s.named d child mem k arity) d pcon arity es' where
  table := ⟨htable.names, htable.name_top, htable.room⟩
  name_base := hregs.name_base
  stack_base := hregs.stack_base
  st := hregs.st
  tt := hregs.tt
  block_ceiling := hregs.block_ceiling
  skbot := rfl
  sktop := rfl
  self := ⟨k, hk, Memory.read_write_self ..⟩
  byte := hbyte
  cell a ha ha' hne hover := by
    rw [← hwords.cell a ha ha' hover]
    exact Function.update_of_ne (show a + d ≠ s.skbot + d by omega) ..
  data a ha ha' hne hover := by
    rw [← hwords.data a ha ha' hover]
    exact Function.update_of_ne (show a + d ≠ s.skbot + d by omega) ..
  outside a ha := by
    rw [← hwords.outside a ha]
    exact Function.update_of_ne (show a ≠ s.skbot + d by omega) ..
  mono := by
    simp only [Copy.named, Copy.settle, Copy.set]
    omega
  high _ := by
    simp only [Copy.named, Copy.settle, Copy.set]
    omega
  reach := by
    simp only [Copy.named, Copy.settle, Copy.set]
    omega

/-! ## The outcomes of the search -/

/-- **The name is there.** -/
theorem comes_intern_known (h : Table s.child s.mem es) (hlt : s.skbot < s.sktop)
    (hbase : s.child.stack_base ≤ s.skbot) (hmem : pcon ∈ es) (arity : ℕ) :
    ∃ s', Fuel.Comes (fun n => s.intern n pcon.chars arity) (some s') ∧
      Named s s' 0 pcon arity es := by
  obtain ⟨k, hk, hfound⟩ := h.found hmem
  refine ⟨s.named 0 s.child s.mem k arity, (Fuel.comes_const _).congr fun n => ?_, ?_⟩
  · rw [intern_eq (hfound n _), if_pos h.room]
  · exact named_of hlt hbase (Int.le_refl 0) h
      ⟨rfl, (Int.add_zero _).symm, (Int.add_zero _).symm, rfl, rfl⟩ hk (fun _ _ => rfl)
      (wordsUp_zero s s.mem.byte)

/-- The name behind the others. -/
theorem named_append (h : Table s.child s.mem es) (hlt : s.skbot < s.sktop)
    (hbase : s.child.stack_base ≤ s.skbot) (hd : 0 ≤ d) {word : Int → Int}
    (hregs : RegistersUp s.child child d) (hwords : ∀ byte, WordsUp s { word, byte } d)
    (hroom : s.child.name_top + pcon.chars.length < 4 * child.stack_base) :
    Named s (s.named d { child with name_top := s.child.name_top + pcon.chars.length + 1 }
      { word, byte := copyString pcon.chars s.child.name_top s.mem.byte } (pack es).length arity)
      d pcon arity (es ++ [pcon]) := by
  have htop := h.name_top
  refine named_of hlt hbase hd (h.append pcon hregs.name_base rfl rfl hroom)
    ⟨hregs.name_base, hregs.stack_base, hregs.st, hregs.tt, hregs.block_ceiling⟩
    ⟨es, [], rfl, rfl⟩ (fun b hb => ?_) (hwords _)
  rcases hb with hb | hb
  · exact (at_copyString pcon.chars s.child.name_top s.mem.byte).2 b (by omega)
  · exact copyString_above pcon.chars s.child.name_top s.mem.byte hb

/-- **The name is appended** below the stack. -/
theorem comes_intern_fits (h : Table s.child s.mem es) (hlt : s.skbot < s.sktop)
    (hbase : s.child.stack_base ≤ s.skbot) (hmem : pcon ∉ es)
    (hroom : s.child.name_top + pcon.chars.length < 4 * s.child.stack_base) (arity : ℕ) :
    ∃ s', Fuel.Comes (fun n => s.intern n pcon.chars arity) (some s') ∧
      Named s s' 0 pcon arity (es ++ [pcon]) := by
  refine ⟨_, (Fuel.comes_const _).congr fun n => ?_, named_append h hlt hbase (Int.le_refl 0)
    ⟨rfl, (Int.add_zero _).symm, (Int.add_zero _).symm, rfl, rfl⟩ (wordsUp_zero s) hroom⟩
  have hsearch := h.missing hmem n (s.sktop - 1)
  rw [if_neg (Int.not_le.2 hroom), Option.map_some] at hsearch
  exact (intern_eq hsearch).trans (if_pos hroom)

/-- **There is no place for the name** and there is an entry in the trail. -/
theorem comes_intern_stuck (h : Table s.child s.mem es) (hmem : pcon ∉ es)
    (hroom : 4 * s.child.stack_base ≤ s.child.name_top + pcon.chars.length)
    (htrail : s.child.tt + 1 < s.child.block_ceiling) (arity : ℕ) :
    Fuel.Comes (fun n => s.intern n pcon.chars arity) none := by
  refine Fuel.comes_none fun n => ?_
  have hsearch := h.missing hmem n (s.sktop - 1)
  rw [if_pos hroom, nameTableExpansion_of_lt htrail] at hsearch
  rw [Copy.intern, hsearch]
  rfl

/-- What the search gives when the stack has been moved. -/
theorem comes_search_moved (h : Table s.child s.mem es) (hmem : pcon ∉ es)
    (hroom : 4 * s.child.stack_base ≤ s.child.name_top + pcon.chars.length)
    (htrail : s.child.block_ceiling ≤ s.child.tt + 1) (arity : ℕ) (n : ℕ) :
    s.intern (n + 1) pcon.chars arity =
      if s.child.name_top + pcon.chars.length < 4 * (s.child.stack_base + nameExpWords) then
        some (s.named nameExpWords
          { raised s.child with name_top := s.child.name_top + pcon.chars.length + 1 }
          { word := moveStack s.child.stack_base (s.sktop - 1) (s.sktop - 1) s.mem.word,
            byte := copyString pcon.chars s.child.name_top s.mem.byte } (pack es).length arity)
      else none := by
  have hsearch := h.missing hmem (n + 1) (s.sktop - 1)
  rw [if_pos hroom, nameTableExpansion_of_le htrail] at hsearch
  exact intern_eq hsearch

/-- **The name is appended** when the stack has been moved up. -/
theorem comes_intern_moved (h : Table s.child s.mem es) (hlt : s.skbot < s.sktop)
    (hbase : s.child.stack_base ≤ s.skbot) (hmem : pcon ∉ es)
    (hroom : 4 * s.child.stack_base ≤ s.child.name_top + pcon.chars.length)
    (htrail : s.child.block_ceiling ≤ s.child.tt + 1)
    (hlong : s.child.name_top + pcon.chars.length < 4 * (s.child.stack_base + nameExpWords))
    (arity : ℕ) :
    ∃ s', Fuel.Comes (fun n => s.intern n pcon.chars arity) (some s') ∧
      Named s s' nameExpWords pcon arity (es ++ [pcon]) := by
  have hzero : s.intern 0 pcon.chars arity = none := by
    have hsearch := h.missing hmem 0 (s.sktop - 1)
    rw [if_pos hroom] at hsearch
    rw [Copy.intern, hsearch]
    rfl
  have hregs : RegistersUp s.child (raised s.child) nameExpWords := ⟨rfl, rfl, rfl, rfl, rfl⟩
  refine ⟨_, .of_succ hzero ((Fuel.comes_const _).congr fun n => ?_), named_append h hlt hbase
    (by decide) hregs (wordsUp_moveStack s) hlong⟩
  rw [comes_search_moved h hmem hroom htrail, if_pos hlong]

/-- **The name is too long** even then. -/
theorem comes_intern_long (h : Table s.child s.mem es) (hmem : pcon ∉ es)
    (hroom : 4 * s.child.stack_base ≤ s.child.name_top + pcon.chars.length)
    (htrail : s.child.block_ceiling ≤ s.child.tt + 1)
    (hlong : 4 * (s.child.stack_base + nameExpWords) ≤ s.child.name_top + pcon.chars.length)
    (arity : ℕ) : Fuel.Comes (fun n => s.intern n pcon.chars arity) none := by
  refine Fuel.comes_none fun n => ?_
  cases n with
  | zero =>
    have hsearch := h.missing hmem 0 (s.sktop - 1)
    rw [if_pos hroom] at hsearch
    rw [Copy.intern, hsearch]
    rfl
  | succ n => rw [comes_search_moved h hmem hroom htrail, if_neg (Int.not_lt.2 hlong)]

end Intern

/-! ## The round -/

section Round

variable {A : Area} {keep move : Prop} {s s' : Copy} {es es' : List CString} {i : Item}
  {q : List Item} {pcon : CString} {d : Int}

/-- **One round on a name** comes to what the search comes to. -/
theorem comes_scan_name (h : Scanning A keep move s es (i :: q)) (hname : i.name = some pcon)
    {o : Option Copy} (ho : Fuel.Comes (fun n => s.intern n pcon.chars i.arity) o) :
    Fuel.Comes (fun n => s.scan n A.name_base) o := by
  have hholds := (pending_cons.1 h.pending).1
  cases hholds with
  | @term t ht =>
    rcases t with v | ⟨f, ts⟩
    · cases hname
    · obtain ⟨root, hroot, hshows⟩ := ht.deref
      cases hshows with
      | con hk =>
        cases hk with
        | same => cases hname
        | name hsame hmark hat _ =>
          obtain rfl := Option.some.inj hname
          exact hroot.bind (comes_scanConst_name hsame hmark hat ho)
      | list => cases hname
      | double => cases hname
      | str => cases hname
  | functor hc hk =>
    cases hk with
    | same => cases hname
    | name hsame hmark hat _ =>
      obtain rfl := Option.some.inj hname
      exact (comes_deref_cst hc).bind (comes_scanConst_name hsame hmark hat ho)
  | double _ _ => cases hname

/-- A name is one word, and no mark. -/
theorem Scanning.name_word (h : Scanning A keep move s es (i :: q)) (hname : i.name = some pcon) :
    i.words = 1 ∧ s.mem.word s.skbot ≠ -1 := by
  have hholds := (pending_cons.1 h.pending).1
  have hne : ∀ w₁ w₂, i ≠ .double w₁ w₂ := by
    rintro w₁ w₂ rfl
    cases hname
  refine ⟨?_, fun hmark => ?_⟩
  · cases i with
    | double w₁ w₂ => exact absurd rfl (hne w₁ w₂)
    | _ => rfl
  · obtain ⟨w₁, w₂, hdouble⟩ := hholds.eq_double hmark
    exact hne w₁ w₂ hdouble

/-- An index that a functor can hold does not make it a mark. -/
theorem makeFun_ne_mark {f a : Int} (hf : 0 ≤ f) (hf' : f < 2 ^ 20 - 1) :
    Word.makeFun f a ≠ .fvlTag := by
  intro h
  have hword := Word.cst.inj h
  split_ifs at hword <;> omega

/-- A word that is no constant is a pointer. -/
theorem read_points {m : Memory} {a : Int} (h : ¬ isCstWord (m.word a)) :
    m.read a = .ref (m.word a / 4) ∨ m.read a = .lis (m.word a / 4) ∨
      m.read a = .str (m.word a / 4) := by
  rw [isCstWord] at h
  rw [Memory.read, Word.ofBits]
  split_ifs with h₀ h₁ h₂
  · exact .inl rfl
  · exact .inr (.inl rfl)
  · exact .inr (.inr rfl)
  · omega

/-- The marks are moved with the words. -/
theorem Scanning.named_marks (h : Scanning A keep move s es (i :: q)) (hname : i.name = some pcon)
    {arity : ℕ} (hs : Named s s' d pcon arity es')
    (hindex : ∀ k, IndexOf es' pcon k → (k : Int) + ASCII_SIZE < 2 ^ 20 - 1) {a : Int}
    (ha : s.child.stack_base ≤ a) (ha' : a < s.sktop) :
    s'.mem.word (a + d) = -1 ↔ s.mem.word a = -1 := by
  by_cases hself : a = s.skbot
  · obtain ⟨k, hk, hword⟩ := hs.self
    rw [hself, ← read_eq_mark, hword]
    refine iff_of_false (makeFun_ne_mark ?_ (hindex k hk)) (h.name_word hname).2
    exact Int.add_nonneg (Int.natCast_nonneg k) (by decide)
  · by_cases hover : PassedOver s.child.stack_base s.mem.word (s.sktop - 1) a
    · rw [hs.data a ha ha' hself (.inr hover)]
    · rw [hs.cell a ha ha' hself (.inr hover)]
      exact carry_eq_mark

/-- **The invariant** after a round on a name. -/
theorem Scanning.named (h : Scanning A keep move s es (i :: q)) (hname : i.name = some pcon)
    {arity : ℕ} (hs : Named s s' d pcon arity es') (hd : 0 ≤ d) (hmove : d ≠ 0 → move)
    (hindex : keep → ∀ k, IndexOf es' pcon k → (k : Int) + ASCII_SIZE < 2 ^ 20 - 1)
    (htop : s'.sktop ≤ s.child.tt) : Scanning A keep move s' es' q := by
  obtain ⟨hone, hne⟩ := h.name_word hname
  have hlt := h.lt
  have hst := h.st
  have hbase := h.base
  have hsktop := hs.sktop
  have hsource : ∀ a, A.word a → s'.mem.word a = s.mem.word a := by
    intro a ha
    have := h.words a ha
    exact hs.outside a (by omega)
  have hbyte : ∀ b, A.byte b → s'.mem.byte b = s.mem.byte b := by
    intro b hb
    have := h.bytes b hb
    have := hs.table.room
    have := hs.stack_base
    exact hs.byte b (by omega)
  refine ⟨hs.table, ?_, ?_, ?_, ?_, ?_, ?_, hs.high h.high, ?_⟩
  · rw [hs.sktop, hs.skbot]
    have hplace : s.skbot + d + 1 = s.skbot + i.words + d := by
      rw [hone]
      omega
    rw [hplace]
    refine (pending_cons.1 h.pending).2.shift hsource hbyte (fun x hx hx' hpoint => ?_)
      fun hk x hx hx' hmark => ?_
    · -- what leads into the source is no pointer into the stack
      by_cases hover : PassedOver s.child.stack_base s.mem.word (s.sktop - 1) x
      · exact hs.data x (by omega) hx' (by omega) (.inr hover)
      · rw [hs.cell x (by omega) hx' (by omega) (.inr hover)]
        refine carry_of_not fun hptr => ?_
        obtain ⟨hcst, hlow, hhigh⟩ := hptr
        have := h.words _ (hpoint _ (read_points hcst))
        have := h.top
        omega
    · rw [read_eq_mark] at hmark
      have hdata : ∀ y, InDouble s.mem.word s.child.stack_base y → x < y → y < s.sktop →
          s'.mem.word (y + d) = s.mem.word y := by
        intro y hy hxy hy'
        refine hs.data y (by omega) hy' (by omega) ?_
        by_cases hzero : d = 0
        · exact .inl hzero
        · obtain ⟨-, hfirst, -⟩ := h.seen hk (hmove hzero)
          exact .inr (((h.marked hk (hmove hzero)).passedOver_iff (fun _ => hfirst) (by omega)
            hy').2 hy)
      have h₁ := hdata (x + 1) (.inr (.inl ⟨by omega, by rwa [Int.add_sub_cancel]⟩)) (by omega)
        (by omega)
      have h₂ := hdata (x + 2) (.inr (.inr ⟨by omega, by rwa [Int.add_sub_cancel]⟩)) (by omega) hx'
      have hplace₁ : x + d + 1 = x + 1 + d := by omega
      have hplace₂ : x + d + 2 = x + 2 + d := by omega
      rw [hplace₁, hplace₂]
      exact ⟨h₁, h₂⟩
  · rw [hs.tt, hs.stack_base]
    intro a ha
    have := h.words a ha
    omega
  · rw [hs.tt, hs.name_base]
    exact h.bytes
  · rw [hs.stack_base, hs.st]
    omega
  · rw [hs.st, hs.skbot]
    omega
  · rw [hs.tt]
    exact htop
  · intro hk hm
    obtain ⟨hmarked, hfirst, hclean⟩ := h.seen hk hm
    have hplace : s.skbot + d + 1 = s.skbot + 1 + d := by omega
    rw [hs.stack_base, hs.skbot, hplace]
    have hmarks : ∀ a, s.child.stack_base ≤ a → a < s.sktop →
        (s'.mem.word (a + d) = -1 ↔ s.mem.word a = -1) := fun a ha ha' =>
      h.named_marks hname hs (hindex hk) ha ha'
    refine ⟨(Marked.cell hmarked hne).shift d fun a ha ha' => hmarks a ha (by omega), ?_,
      fun j hj => hclean j (List.mem_cons_of_mem _ hj)⟩
    rw [Ne, hmarks _ (Int.le_refl _) (by omega)]
    exact hfirst

end Round

end Mlvm.Creator
