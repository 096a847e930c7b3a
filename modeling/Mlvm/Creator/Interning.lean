import Mlvm.Creator.StackMove
import Mlvm.StringTable.Packed

/-!
# Interning names

**The search** (`searchFrom_eq`) finds the string if it is in the table, at its index, and otherwise
ends at the end of the table: the two cursors are set to the next string after any partial match.

**The append** (`Interned`): the table has one string more, everything else is as before, up to the
stack that may have been moved. This is so if there is room below the stack; otherwise the stack has
to be moved, for which there must be no entry in the trail, and by a fixed number of bytes, which
must be enough.

Main result: `interned_iff`.
-/

namespace Mlvm.Creator

open StringTable

/-- A name: no zero byte. -/
abbrev CString := Str (0 : UInt8)

/-! ## The search -/

/-- **Comparing** a string with one of the table ends in that string, and says whether they are the
same. -/
theorem compareFrom_eq {byte : Int → UInt8} {cp : Int} {pcon e : List UInt8}
    (hpcon : 0 ∉ pcon) (he : 0 ∉ e) (hat : At byte cp (e ++ [0])) :
    ∃ e₁ e₂, e = e₁ ++ e₂ ∧ (compareFrom byte pcon cp).2 = cp + e₁.length ∧
      ((compareFrom byte pcon cp).1 = [] ∧ byte (compareFrom byte pcon cp).2 = 0 ↔ pcon = e) := by
  induction pcon generalizing cp e with
  | nil =>
    refine ⟨[], e, rfl, by simp [compareFrom], ?_⟩
    cases e with
    | nil => simpa [compareFrom] using (at_cons.1 hat).1
    | cons b e =>
      have hb := (at_cons.1 hat).1
      have : b ≠ 0 := fun h => he (by simp [h])
      simpa [compareFrom, hb] using this
  | cons c pp ih =>
    have hc : c ≠ 0 := fun h => hpcon (by simp [h])
    by_cases hsame : c = byte cp
    · cases e with
      | nil => exact absurd (hsame.trans (at_cons.1 hat).1) hc
      | cons b e =>
        obtain ⟨hb, hrest⟩ := at_cons.1 hat
        obtain ⟨e₁, e₂, rfl, hend, hiff⟩ := ih (fun h => hpcon (List.mem_cons_of_mem _ h))
          (fun h => he (List.mem_cons_of_mem _ h)) hrest
        refine ⟨b :: e₁, e₂, rfl, ?_, ?_⟩
        · rw [compareFrom, if_pos hsame, hend, List.length_cons]
          omega
        · rw [compareFrom, if_pos hsame, hiff, hsame, hb]
          simp
    · refine ⟨[], e, rfl, by simp [compareFrom, hsame], ?_⟩
      rw [compareFrom, if_neg hsame]
      refine iff_of_false (fun h => absurd h.1 (List.cons_ne_nil _ _)) ?_
      rintro rfl
      exact hsame (at_cons.1 hat).1.symm

/-- **The next string** begins behind the zero byte. -/
theorem nextString_eq {byte : Int → UInt8} {name_top cp : Int} {e : List UInt8} (he : 0 ∉ e)
    (hat : At byte cp (e ++ [0])) (htop : cp + e.length < name_top) :
    nextString byte name_top cp = cp + e.length + 1 := by
  induction e generalizing cp with
  | nil =>
    have hb := (at_cons.1 hat).1
    rw [nextString, if_neg (fun h => h.1 hb)]
    simp
  | cons b e ih =>
    obtain ⟨hb, hrest⟩ := at_cons.1 hat
    have hne : byte cp ≠ 0 := by
      rw [hb]
      exact fun h => he (by simp [h])
    rw [List.length_cons] at htop ⊢
    rw [nextString, if_pos ⟨hne, by omega⟩, ih (fun h => he (List.mem_cons_of_mem _ h)) hrest
      (by omega)]
    omega

/-- **The search** finds what is there. -/
theorem searchFrom_eq {byte : Int → UInt8} {cp : Int} (pcon : CString) {es : List CString}
    (hat : At byte cp (pack es)) :
    (∃ pre post, es = pre ++ pcon :: post ∧
      searchFrom byte (cp + (pack es).length) pcon.chars cp = .inl (cp + (pack pre).length)) ∨
    (pcon ∉ es ∧
      searchFrom byte (cp + (pack es).length) pcon.chars cp = .inr (cp + (pack es).length)) := by
  induction es generalizing cp with
  | nil =>
    refine .inr ⟨List.not_mem_nil, ?_⟩
    rw [searchFrom, if_neg (by simp)]
    simp
  | cons e es ih =>
    have hlen : (pack (e :: es)).length = e.chars.length + 1 + (pack es).length := by
      rw [pack_cons, List.length_append, length_packed]
    obtain ⟨hfirst, hrest⟩ := at_append.1 hat
    obtain ⟨e₁, e₂, he, hend, hiff⟩ := compareFrom_eq pcon.clean e.clean hfirst
    have hpos : cp < cp + ((pack (e :: es)).length : ℕ) := by omega
    rw [searchFrom, if_pos hpos]
    simp only
    by_cases hsame : pcon.chars = e.chars
    · obtain rfl := Str.ext hsame
      rw [if_pos (hiff.2 rfl)]
      exact .inl ⟨[], es, rfl, by simp⟩
    · rw [if_neg (mt hiff.1 hsame)]
      have hnext : nextString byte (cp + ((pack (e :: es)).length : ℕ))
          (compareFrom byte pcon.chars cp).2 = cp + e.packed.length := by
        rw [Str.packed, he, List.append_assoc] at hfirst
        have hclean : 0 ∉ e₂ := fun h => e.clean (by rw [he]; exact List.mem_append_right _ h)
        have hsize := congrArg List.length he
        rw [List.length_append] at hsize
        rw [hend, nextString_eq hclean (at_append.1 hfirst).2 (by omega), length_packed]
        omega
      have htop : cp + ((pack (e :: es)).length : ℕ) =
          cp + (e.packed.length : ℕ) + (pack es).length := by
        rw [pack_cons, List.length_append]
        omega
      rw [hnext, htop]
      rcases ih hrest with ⟨pre, post, rfl, hfound⟩ | ⟨hnot, hmissing⟩
      · refine .inl ⟨e :: pre, post, rfl, ?_⟩
        rw [hfound, pack_cons, List.length_append]
        congr 1
        omega
      · refine .inr ⟨?_, hmissing⟩
        rw [List.mem_cons, not_or]
        exact ⟨fun h => hsame (congrArg Str.chars h), hnot⟩

/-! ## The append -/

/-- **The string** stands where it has been copied to. -/
theorem at_copyString (pcon : List UInt8) (cp : Int) (byte : Int → UInt8) :
    At (copyString pcon cp byte) cp (pcon ++ [0]) ∧
      ∀ x < cp, copyString pcon cp byte x = byte x := by
  induction pcon generalizing cp byte with
  | nil =>
    refine ⟨at_cons.2 ⟨Function.update_self .., at_nil _ _⟩, fun x hx => ?_⟩
    exact Function.update_of_ne (Int.ne_of_lt hx) ..
  | cons c pp ih =>
    obtain ⟨hat, hframe⟩ := ih (cp + 1) (Function.update byte cp c)
    refine ⟨at_cons.2 ⟨?_, hat⟩, fun x hx => ?_⟩
    · rw [copyString, hframe cp (by omega)]
      exact Function.update_self ..
    · rw [copyString, hframe x (by omega)]
      exact Function.update_of_ne (Int.ne_of_lt hx) ..

/-! ## Name tables -/

/-- The name table of an imago: some strings below the stack. -/
structure Table (ip : Icb) (m : Memory) (es : List CString) : Prop where
  names : At m.byte ip.name_base (pack es)
  name_top : ip.name_top = ip.name_base + (pack es).length
  room : ip.name_top ≤ 4 * ip.stack_base

variable {child : Icb} {m : Memory} {es : List CString}

/-- A string that is there is found, and nothing changes. -/
theorem Table.found (h : Table child m es) {pcon : CString} (hmem : pcon ∈ es) :
    ∃ i, IndexOf es pcon i ∧
      ∀ fuel top, searchIndex fuel pcon.chars child top m =
        some (((i : ℕ) : Int), 0, child, m) := by
  rcases searchFrom_eq pcon h.names with ⟨pre, post, hes, hfound⟩ | ⟨hnot, -⟩
  · refine ⟨_, ⟨pre, post, hes, rfl⟩, fun fuel top => ?_⟩
    have hindex : child.name_base + ((pack pre).length : ℕ) - child.name_base =
        ((pack pre).length : ℕ) := by omega
    simp [searchIndex, h.name_top, hfound, hindex]
  · exact absurd hmem hnot

/-- A string that is not there is appended, perhaps behind an expansion. -/
theorem Table.missing (h : Table child m es) {pcon : CString} (hmem : pcon ∉ es) (fuel : ℕ)
    (top : Int) :
    searchIndex fuel pcon.chars child top m =
      (if 4 * child.stack_base ≤ child.name_top + pcon.chars.length then
        (nameTableExpansion fuel child top m).map fun r => (nameExpWords, r)
      else some (0, child, m)).map fun r =>
        (((pack es).length : Int), r.1,
          { r.2.1 with name_top := child.name_top + pcon.chars.length + 1 },
          { r.2.2 with byte := copyString pcon.chars child.name_top r.2.2.byte }) := by
  rcases searchFrom_eq pcon h.names with ⟨pre, post, hes, -⟩ | ⟨-, hmissing⟩
  · exact absurd (by simp [hes]) hmem
  · rw [← h.name_top] at hmissing
    have hindex : child.name_top - child.name_base = ((pack es).length : ℕ) := by
      rw [h.name_top]
      omega
    simp only [searchIndex, hmissing, hindex]

/-- The table with the string behind it. -/
theorem Table.append (h : Table child m es) (pcon : CString) {child' : Icb} {m' : Memory}
    (hbase : child'.name_base = child.name_base)
    (htop : child'.name_top = child.name_top + pcon.chars.length + 1)
    (hbyte : m'.byte = copyString pcon.chars child.name_top m.byte)
    (hroom : child'.name_top ≤ 4 * child'.stack_base) :
    Table child' m' (es ++ [pcon]) := by
  have hlen : (pack (es ++ [pcon])).length = (pack es).length + (pcon.chars.length + 1) := by simp
  obtain ⟨hat, hframe⟩ := at_copyString pcon.chars child.name_top m.byte
  have htop' := h.name_top
  refine ⟨?_, ?_, hroom⟩
  · rw [hbase, hbyte, pack_append, at_append, ← h.name_top]
    refine ⟨h.names.congr fun x _ hx => hframe x (by omega), ?_⟩
    simpa [Str.packed] using hat
  · rw [htop, hbase, hlen]
    omega

/-! ## Interning -/

/-- **The name is interned**: the old names are where they were, at the index stands this name only,
the stack has stayed or has been moved as it should, and the next search finds the name. -/
structure Sound (child child' : Icb) (m m' : Memory) (es : List CString) (kinds : List Kind)
    (pcon : CString) (index nl : Int) : Prop where
  table : ∃ es', es <+: es' ∧ Table child' m' es' ∧
    ∃ i : ℕ, index = i ∧ IndexOf es' pcon i ∧ ∀ s, IndexOf es' s i → s = pcon
  name_base : child'.name_base = child.name_base
  stack : ∃ child₁ m₁, ((nl = 0 ∧ child₁ = child ∧ m₁ = m) ∨
      (nl = nameExpWords ∧ Raised child child₁ m m₁ kinds)) ∧
    child' = { child₁ with name_top := child'.name_top } ∧ m'.word = m₁.word
  again : ∀ fuel top, searchIndex fuel pcon.chars child' top m' = some (index, 0, child', m')

/-- A search for the name comes to an end and interns it. -/
def Interned (child : Icb) (m : Memory) (es : List CString) (kinds : List Kind) (pcon : CString) :
    Prop :=
  ∃ fuel index nl child' m',
    searchIndex fuel pcon.chars child (lastWord child kinds) m = some (index, nl, child', m') ∧
    Sound child child' m m' es kinds pcon index nl

/-- There is room for a name, or there can be. -/
def HasRoom (child : Icb) (m : Memory) (kinds : List Kind) (pcon : CString) : Prop :=
  child.name_top + pcon.chars.length < 4 * child.stack_base ∨
  (child.block_ceiling ≤ child.tt + 1 ∧ RoomAbove child kinds ∧ KindsSeen child m kinds ∧
    child.name_top + pcon.chars.length < 4 * (child.stack_base + nameExpWords))

/-- The name behind the others. -/
theorem Sound.of_append (h : Table child m es) {pcon : CString} (hmem : pcon ∉ es)
    {child₁ : Icb} {m₁ : Memory} {kinds : List Kind} {nl : Int}
    (hstack : (nl = 0 ∧ child₁ = child ∧ m₁ = m) ∨
      (nl = nameExpWords ∧ Raised child child₁ m m₁ kinds))
    (hroom : child.name_top + pcon.chars.length < 4 * child₁.stack_base) :
    Sound child { child₁ with name_top := child.name_top + pcon.chars.length + 1 } m
      { m₁ with byte := copyString pcon.chars child.name_top m₁.byte } es kinds pcon
      ((pack es).length : Int) nl := by
  have hbase : child₁.name_base = child.name_base := by
    rcases hstack with ⟨-, rfl, -⟩ | ⟨-, hraised⟩
    · rfl
    · rw [hraised.registers]
      rfl
  have hbyte : m₁.byte = m.byte := by
    rcases hstack with ⟨-, -, rfl⟩ | ⟨-, hraised⟩
    · rfl
    · exact hraised.names
  have htable : Table { child₁ with name_top := child.name_top + pcon.chars.length + 1 }
      { m₁ with byte := copyString pcon.chars child.name_top m₁.byte } (es ++ [pcon]) :=
    h.append pcon hbase rfl (by rw [hbyte]) (by simp only; omega)
  have hindex : IndexOf (es ++ [pcon]) pcon (pack es).length := ⟨es, [], rfl, rfl⟩
  refine ⟨⟨_, List.prefix_append _ _, htable, _, rfl, hindex, fun s hs => hs.unique hindex⟩, hbase,
    ⟨child₁, m₁, hstack, rfl, rfl⟩, ?_⟩
  obtain ⟨i, hi, hagain⟩ := htable.found (List.mem_append_right _ List.mem_cons_self)
  obtain rfl := hi.eq_length hmem
  exact hagain

/-- A name that is there. -/
theorem Table.interned (h : Table child m es) {pcon : CString} (hmem : pcon ∈ es)
    (kinds : List Kind) : Interned child m es kinds pcon := by
  obtain ⟨i, hi, hfound⟩ := h.found hmem
  exact ⟨0, i, 0, child, m, hfound 0 _,
    ⟨⟨es, List.prefix_rfl, h, i, rfl, hi, fun s hs => hs.unique hi⟩, rfl,
      ⟨child, m, .inl ⟨rfl, rfl, rfl⟩, rfl, rfl⟩, hfound⟩⟩

/-- A name that there is, or can be, room for. -/
theorem Table.interned_of_room (h : Table child m es) {pcon : CString} (hmem : pcon ∉ es)
    {kinds : List Kind} (hroom : HasRoom child m kinds pcon) : Interned child m es kinds pcon := by
  by_cases hfits : child.name_top + pcon.chars.length < 4 * child.stack_base
  · -- the name is appended
    exact ⟨0, _, _, _, _, by rw [h.missing hmem, if_neg (Int.not_le.2 hfits)]; rfl,
      .of_append h hmem (.inl ⟨rfl, rfl, rfl⟩) hfits⟩
  · obtain ⟨hle, hinside, hseen, hroom⟩ := hroom.resolve_left hfits
    exact ⟨1, _, _, _, _, by rw [h.missing hmem, if_pos (Int.not_lt.1 hfits),
        nameTableExpansion_of_le hle]; rfl,
      .of_append h hmem (.inr ⟨rfl, (raised_iff hle m kinds).2 ⟨hinside, hseen⟩⟩) hroom⟩

/-- A name that is interned without having been there has got room. -/
theorem Interned.hasRoom {pcon : CString} {kinds : List Kind}
    (hinterned : Interned child m es kinds pcon) (h : Table child m es) (hmem : pcon ∉ es) :
    HasRoom child m kinds pcon := by
  by_cases hfits : child.name_top + pcon.chars.length < 4 * child.stack_base
  · exact .inl hfits
  · obtain ⟨fuel, index, nl, child', m', hrun, hsound⟩ := hinterned
    rw [h.missing hmem, if_pos (Int.not_lt.1 hfits)] at hrun
    have hle : child.block_ceiling ≤ child.tt + 1 := by
      by_contra hlt
      rw [nameTableExpansion_of_lt (Int.not_le.1 hlt)] at hrun
      cases hrun
    cases fuel with
    | zero => cases hrun
    | succ fuel =>
      rw [nameTableExpansion_of_le hle] at hrun
      simp only [Option.map_some, Option.some.injEq, Prod.mk.injEq] at hrun
      obtain ⟨-, rfl, rfl, rfl⟩ := hrun
      obtain ⟨es', -, htable, -⟩ := hsound.table
      obtain ⟨child₁, m₁, hstack, -, hword⟩ := hsound.stack
      rcases hstack with ⟨hzero, -⟩ | ⟨-, hraised⟩
      · exact absurd hzero (by decide)
      · have hm₁ : m₁ = { m with word := m₁.word } := by
          rw [← hraised.names]
        rw [hraised.registers, hm₁, ← hword] at hraised
        obtain ⟨hinside, hseen⟩ := (raised_iff hle m kinds).1 hraised
        exact .inr ⟨hle, hinside, hseen, Int.lt_of_add_one_le htable.room⟩

/-- **Interning is sound** exactly when the name is there already or there is, or can be, room for
it. -/
theorem interned_iff (h : Table child m es) (kinds : List Kind) (pcon : CString) :
    Interned child m es kinds pcon ↔ pcon ∈ es ∨ HasRoom child m kinds pcon := by
  by_cases hmem : pcon ∈ es
  · exact iff_of_true (h.interned hmem kinds) (.inl hmem)
  · rw [or_iff_right hmem]
    exact ⟨fun hinterned => hinterned.hasRoom h hmem, h.interned_of_room hmem⟩

/-- The table of the worker of the block model. -/
theorem worker_table : Table worker workerMemory [⟨[91, 93], by decide⟩] where
  names := by
    intro i b h
    match i, h with
    | 0, h | 1, h | 2, h => exact Option.some.inj h
    | n + 3, h => simp [pack, Str.packed] at h
  name_top := by decide
  room := by decide

theorem interned_worker_nil :
    Interned worker workerMemory [⟨[91, 93], by decide⟩] [.cell] ⟨[91, 93], by decide⟩ :=
  (interned_iff worker_table [.cell] ⟨[91, 93], by decide⟩).2 (.inl List.mem_cons_self)

/-- The worker can have no other name: there is no room, and there will be none. -/
theorem not_interned_worker :
    ¬ Interned worker workerMemory [⟨[91, 93], by decide⟩] [.cell] ⟨[97], by decide⟩ := by
  have hmem : (⟨[97], by decide⟩ : CString) ∉ [⟨[91, 93], by decide⟩] := by
    intro h
    exact absurd (congrArg Str.chars (List.mem_singleton.1 h)) (by decide)
  rintro ⟨fuel, index, nl, child', m', hrun, -⟩
  rw [worker_table.missing hmem, if_pos (by decide), nameTableExpansion_of_lt (by decide)] at hrun
  cases hrun

end Mlvm.Creator
