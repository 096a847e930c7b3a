import Mlvm.Frames.Bytes
import Mlvm.Memory.Migration

/-!
# The rows of bytes of the upper layers

The rendez-vous layer and the marshaling layer are modelled over the row of bytes that the frames of
a PDU hold. What their functions do to the row is what `frame.c` does to the frames.

Main results: `contents_headed` and `contents_marshalingDown`, for what is written; the theorems
`readBack_int`, `readBack_short`, `readBack_byte`, `frameReadString_row` and `frameReadText_row`,
for what is read.
-/

namespace Mlvm.Frames

open Transport

/-! ## Writing -/

/-- The row after some items have been written. -/
def writeRow (f : List UInt8) (its : List Item) : List UInt8 :=
  its.foldl (fun f it => it.bytes ++ f) f

theorem contents_writeItems_eq_writeRow {avail : ℕ} {lt lt' : List Frame} {its : List Item}
    (h : writeItems avail lt its = some lt') : contents lt' = writeRow (contents lt) its := by
  have hrow : ∀ f : List UInt8, its.reverse.flatMap Item.bytes ++ f = writeRow f its := by
    clear h
    induction its with
    | nil => exact fun f => rfl
    | cons it its ih =>
      intro f
      rw [List.reverse_cons, List.flatMap_append, List.append_assoc, List.flatMap_singleton, ih]
      rfl
  rw [contents_writeItems h, hrow]

theorem bytes_int (v : UInt32) (f : List UInt8) :
    (Item.int v.toBitVec).bytes ++ f = frameWriteInt v f := by
  have hsecond : v.toNat % 16777216 / 65536 = v.toNat / 65536 % 256 := by omega
  have hthird : v.toNat % 65536 / 256 = v.toNat / 256 % 256 := by omega
  simp [Item.bytes, bigEndian, frameWriteInt, hsecond, hthird]

theorem bytes_short (v : UInt16) (f : List UInt8) :
    (Item.short v.toBitVec).bytes ++ f = frameWriteShort v f := by
  simp [Item.bytes, bigEndian, frameWriteShort]

theorem bytes_text {te : List UInt8} {max : ℕ} (hzero : 0 ∉ te) (hmax : te.length < max)
    (f : List UInt8) : (Item.text te max hzero hmax).bytes ++ f = frameWriteText te f := by
  simp [Item.bytes, frameWriteText]

/-- **The header of the rendez-vous layer** is three numbers in front of the payload. -/
theorem contents_headed {avail : ℕ} {lt lt' : List Frame} {genid adaType : UInt16} {seqid : UInt32}
    (h : writeItems avail lt
      [.int seqid.toBitVec, .short adaType.toBitVec, .short genid.toBitVec] = some lt') :
    contents lt' = headed genid adaType seqid (contents lt) := by
  rw [contents_writeItems_eq_writeRow h, headed, ← bytes_short, ← bytes_short, ← bytes_int]
  rfl

/-- The bytes of the memory from `a` on. -/
def memoryBytes (b : Int → UInt8) (a length : Int) : List UInt8 :=
  (List.range length.toNat).map fun i : ℕ => b (a + i)

/-- What `imago_layer_marshaling_down` writes, one after the other. -/
def marshalItems (who : Identity) (hnames : ∀ s ∈ [who.name, who.queen.name, who.citizenship.name],
    0 ∉ s ∧ s.length < MAX_DNS_NAME_SIZE) (this_icb : Icb) (b : Int → UInt8) : List Item :=
  let name := hnames who.name (by simp)
  let queen := hnames who.queen.name (by simp)
  let citizenship := hnames who.citizenship.name (by simp)
  [.string (memoryBytes b (4 * this_icb.tt) (4 * this_icb.block_ceiling - 4 * this_icb.tt)),
   .string (memoryBytes b (4 * this_icb.stack_base) (4 * this_icb.st - 4 * this_icb.stack_base)),
   .string
     (memoryBytes b (4 * this_icb.block_base) (this_icb.name_top - 4 * this_icb.block_base))] ++
  ([pointerInt this_icb.block_ceiling, pointerInt this_icb.stack_base, .ofInt this_icb.name_top,
    .ofInt this_icb.name_base, pointerInt this_icb.code_base, pointerInt this_icb.block_base,
    pointerInt this_icb.pp, pointerInt this_icb.af, pointerInt this_icb.cp, pointerInt this_icb.cf,
    pointerInt this_icb.st, pointerInt this_icb.bb, pointerInt this_icb.b0, pointerInt this_icb.gl,
    pointerInt this_icb.tt, who.jumps, who.citizenship.host_id].map fun v => .int v.toBitVec) ++
  [.text who.citizenship.name MAX_DNS_NAME_SIZE citizenship.1 citizenship.2,
   .int who.queen.host_id.toBitVec,
   .text who.queen.name MAX_DNS_NAME_SIZE queen.1 queen.2,
   .text who.name MAX_DNS_NAME_SIZE name.1 name.2,
   .byte who.type,
   .int who.application.toBitVec]

/-- **A marshaled imago**: the frames hold the row of `marshalingDown`. -/
theorem contents_marshalingDown {avail : ℕ} {lt lt' : List Frame} {who : Identity}
    {hnames : ∀ s ∈ [who.name, who.queen.name, who.citizenship.name],
      0 ∉ s ∧ s.length < MAX_DNS_NAME_SIZE} {this_icb : Icb} {b : Int → UInt8}
    (h : writeItems avail lt (marshalItems who hnames this_icb b) = some lt') :
    contents lt' = marshalingDown who this_icb b (contents lt) := by
  rw [contents_writeItems_eq_writeRow h]
  simp only [writeRow, marshalItems, List.map_cons, List.map_nil, List.cons_append,
    List.nil_append, List.foldl_cons, List.foldl_nil, bytes_int, bytes_text]
  rfl

/-! ## Reading -/

/-- `frame_read_int` on the frames reads the number that stands in front of the row. -/
theorem readBack_int (old : UInt32) (v : BitVec 32) (lt : List Frame) :
    ((Item.int v).readBack lt).1 =
        (if 4 ≤ (contents lt).length then some (.int (frameReadInt old (contents lt)).1.toBitVec)
          else none) ∧
      contents ((Item.int v).readBack lt).2 = (frameReadInt old (contents lt)).2 := by
  obtain ⟨lt', hrun, hlt'⟩ := frameReadString_eq lt 4
  simp only [Item.readBack, hrun, hlt']
  rcases contents lt with _ | ⟨c₁, _ | ⟨c₂, _ | ⟨c₃, _ | ⟨c₄, f⟩⟩⟩⟩
  case cons.cons.cons.cons =>
    have hnumber : ofBigEndian [c₁, c₂, c₃, c₄] =
        c₁.toNat * 16777216 + c₂.toNat * 65536 + c₃.toNat * 256 + c₄.toNat := by
      simp only [ofBigEndian, List.foldl_cons, List.foldl_nil]
      omega
    simp [frameReadInt, hnumber, UInt32.ofNat]
  all_goals simp [frameReadInt]

theorem readBack_short (old : UInt16) (v : BitVec 16) (lt : List Frame) :
    ((Item.short v).readBack lt).1 =
        (if 2 ≤ (contents lt).length then
          some (.short (frameReadShort old (contents lt)).1.toBitVec) else none) ∧
      contents ((Item.short v).readBack lt).2 = (frameReadShort old (contents lt)).2 := by
  obtain ⟨lt', hrun, hlt'⟩ := frameReadString_eq lt 2
  simp only [Item.readBack, hrun, hlt']
  rcases contents lt with _ | ⟨c₁, _ | ⟨c₂, f⟩⟩
  case cons.cons =>
    have hnumber : ofBigEndian [c₁, c₂] = c₁.toNat * 256 + c₂.toNat := by
      simp [ofBigEndian]
    simp [frameReadShort, hnumber, UInt16.ofNat]
  all_goals simp [frameReadShort]

theorem readBack_byte (old c : UInt8) (lt : List Frame) :
    ((Item.byte c).readBack lt).1 =
        (if 1 ≤ (contents lt).length then some (.byte (frameReadByte old (contents lt)).1)
          else none) ∧
      contents ((Item.byte c).readBack lt).2 = (frameReadByte old (contents lt)).2 := by
  obtain ⟨lt', hrun, hlt'⟩ := frameReadString_eq lt 1
  simp only [Item.readBack, hrun, hlt']
  rcases contents lt with _ | ⟨c₁, f⟩ <;> simp [frameReadByte]

/-- `frame_read_string` stores the first bytes of the row. -/
theorem frameReadString_row (lt : List Frame) (a : Int) (n : ℕ) (b : Int → UInt8) :
    ∃ v bs lt', frameReadString lt n = (v, bs, lt') ∧
      contents lt' = (Mlvm.frameReadString a n b (contents lt)).2 ∧
      ∀ i : ℕ, i < n → (Mlvm.frameReadString a n b (contents lt)).1 (a + i) =
        bs.getD i (b (a + i)) := by
  obtain ⟨lt', hrun, hlt'⟩ := frameReadString_eq lt n
  refine ⟨_, _, lt', hrun, by simpa [Mlvm.frameReadString] using hlt', fun i hi => ?_⟩
  have hinside : a ≤ a + i ∧ a + (i : Int) < a + n := by omega
  have hindex : (a + (i : Int) - a).toNat = i := by omega
  simp only [Mlvm.frameReadString, if_pos hinside, hindex, List.getD_eq_getElem?_getD,
    List.getElem?_take_of_lt hi]

/-- `frame_read_text` stores the characters of the row up to a zero, and the zero. -/
theorem frameReadText_row (lt : List Frame) (max : ℕ) :
    ∃ v bs lt', frameReadText lt max = (v, bs, lt') ∧
      contents lt' = (Mlvm.frameReadText max (contents lt)).2 ∧
      bs.takeWhile (· ≠ 0) = (Mlvm.frameReadText max (contents lt)).1 := by
  have hrow : ∀ f : List UInt8, f.drop (firstText max f).2.length = (Mlvm.frameReadText max f).2 ∧
      (firstText max f).2.takeWhile (· ≠ 0) = (Mlvm.frameReadText max f).1 := by
    intro f
    induction f generalizing max with
    | nil => cases max <;> simp [firstText, Mlvm.frameReadText]
    | cons c f ih =>
      cases max with
      | zero => simp [firstText, Mlvm.frameReadText]
      | succ max =>
        obtain ⟨hrest, htext⟩ := ih max
        by_cases hc : c = 0
        · simp [firstText, Mlvm.frameReadText, hc]
        · simp only [firstText, Mlvm.frameReadText, if_neg hc, List.length_cons,
            List.drop_succ_cons, hrest, true_and]
          rw [List.takeWhile_cons_of_pos (by simpa using hc), htext]
  obtain ⟨lt', hrun, hlt'⟩ := frameReadText_eq lt max
  exact ⟨_, _, lt', hrun, hlt'.trans (hrow _).1, (hrow _).2⟩

end Mlvm.Frames
