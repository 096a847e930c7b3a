import Mlvm.Frames.Exhaustion
import Mlvm.Refinement.Data

/-!
# A list of frames is a row of bytes

**The abstract object** is a family of rows of bytes. Writing puts a text in front of a row,
appending puts it behind, reading and erasing take bytes from the front, and copying and moving
transfer the first bytes of one row to the end of another.

**The refinement.** The operations of `frame.c` do this to the bytes that the frames hold, whatever
the fill levels of the frames, under a condition for each of them (`Meets`): a text needs frames,
peeking must not go behind the last byte, and copying must not meet an empty frame.

Main results: `agrees_iff`, one operation; `readItems_writeItems`, what is written in one order is
read back in the reverse order; `frame_list_refines`.
-/

namespace Mlvm.Frames

open Transport

/-! ## Operations on rows of bytes -/

/-- The operations. The two lists of a transfer are different ones. -/
inductive Op where
  | writeString (i : ℕ) (st : List UInt8)
  | appendString (i : ℕ) (st : List UInt8)
  | readString (i n : ℕ)
  | readText (i max : ℕ)
  | erase (i n : ℕ)
  | peekString (i n : ℕ)
  | copy (d s : ℕ) (hne : d ≠ s) (l : ℕ)
  | move (d s : ℕ) (hne : d ≠ s) (l : ℕ)
  | size (i : ℕ)

/-- What an operation answers: the value returned and the bytes stored. -/
abbrev Answer := ℤ × List UInt8

/-- The first bytes up to a zero byte, which is among them, and at most `max`; and how many they
are without the zero byte. -/
def firstText : ℕ → List UInt8 → ℕ × List UInt8
  | 0, _ => (0, [])
  | _ + 1, [] => (0, [])
  | max + 1, b :: bs =>
    if b = 0 then (0, [b]) else ((firstText max bs).1 + 1, b :: (firstText max bs).2)

/-- **What the operations do to rows of bytes.** -/
def Op.spec (op : Op) (rows : ℕ → List UInt8) : Answer × (ℕ → List UInt8) :=
  match op with
  | .writeString i st => ((st.length, []), Function.update rows i (st ++ rows i))
  | .appendString i st => ((st.length, []), Function.update rows i (rows i ++ st))
  | .readString i n =>
    (((min n (rows i).length : ℕ), (rows i).take n), Function.update rows i ((rows i).drop n))
  | .readText i max =>
    let r := firstText max (rows i)
    ((r.1, r.2), Function.update rows i ((rows i).drop r.2.length))
  | .erase i n => (((min n (rows i).length : ℕ), []), Function.update rows i ((rows i).drop n))
  | .peekString i n => (((min n (rows i).length : ℕ), (rows i).take n), rows)
  | .copy d s _ l =>
    (((min l (rows s).length : ℕ), []), Function.update rows d (rows d ++ (rows s).take l))
  | .move d s _ l =>
    (((min l (rows s).length : ℕ), []),
      Function.update (Function.update rows d (rows d ++ (rows s).take l)) s ((rows s).drop l))
  | .size i => (((rows i).length, []), rows)

/-! ## Operations on lists of frames -/

/-- A call with the number of frames that can be had, on a family of lists. There is no answer when
the code reads behind the last frame. -/
def exec (call : ℕ × Op) (s : ℕ → List Frame) : Option (Answer × (ℕ → List Frame)) :=
  match call.2 with
  | .writeString i st =>
    let r := frameWriteString call.1 (s i) st
    some ((r.1, []), Function.update s i r.2.2)
  | .appendString i st =>
    let r := frameAppendString call.1 (s i) st
    some ((r.1, []), Function.update s i r.2.2)
  | .readString i n =>
    let r := frameReadString (s i) n
    some ((r.1, r.2.1), Function.update s i r.2.2)
  | .readText i max =>
    let r := frameReadText (s i) max
    some ((r.1, r.2.1), Function.update s i r.2.2)
  | .erase i n =>
    let r := frameErase (s i) n
    some ((r.1, []), Function.update s i r.2)
  | .peekString i n => (framePeekString (s i) n).map fun bs => ((bs.length, bs), s)
  | .copy d j _ l =>
    let r := frameCopy call.1 (s d) (s j) l
    some ((r.1, []), Function.update s d r.2.2)
  | .move d j _ l =>
    (frameMove (0 < call.1) (s d) (s j) l).map fun r =>
      ((r.1, []), Function.update (Function.update s d r.2.1) j r.2.2)
  | .size i => some ((frameSize (s i), []), s)

/-- The rows of bytes that the lists hold. -/
def rows (s : ℕ → List Frame) (i : ℕ) : List UInt8 := contents (s i)

/-- **The condition** under which a call does what it should. -/
def Meets (call : ℕ × Op) (s : ℕ → List Frame) : Prop :=
  match call.2 with
  | .writeString i st => st.length ≤ capacity (call.1, s i) ∧ 0 < capacity (call.1, s i)
  | .appendString _ st => st.length ≤ capacity (call.1, []) ∧ 0 < call.1
  | .peekString i n => n ≤ (contents (s i)).length ∨ s i = []
  | .copy _ j _ l => min l (contents (s j)).length ≤ reach call.1 (s j)
  | .move _ _ _ _ => 0 < call.1
  | .size i => (contents (s i)).length < 2 ^ 31
  | _ => True

/-! ## Reading -/

/-- Reading goes on in the next frame as if the two were one. -/
theorem readFrame_append (flag : Bool) (l1 : ℕ) (bs bs' : List UInt8) :
    if (readFrame flag l1 bs).2.2.2 ∨ (readFrame flag l1 bs).2.1 = 0 then
      readFrame flag l1 (bs ++ bs') = ((readFrame flag l1 bs).1, (readFrame flag l1 bs).2.1,
        (readFrame flag l1 bs).2.2.1 ++ bs', (readFrame flag l1 bs).2.2.2)
    else
      (readFrame flag l1 bs).2.2.1 = [] ∧ readFrame flag l1 (bs ++ bs') =
        ((readFrame flag l1 bs).1 ++ (readFrame flag (readFrame flag l1 bs).2.1 bs').1,
          (readFrame flag (readFrame flag l1 bs).2.1 bs').2) := by
  induction bs generalizing l1 with
  | nil => cases l1 <;> simp [readFrame]
  | cons b bs ih =>
    cases l1 with
    | zero => simp [readFrame]
    | succ l1 =>
      by_cases hstop : flag && b == 0
      · simp [readFrame, hstop]
      · have := ih l1
        split_ifs at this with hdone
        · simp [readFrame, hstop, hdone, this]
        · simp [readFrame, hstop, hdone, this]

theorem frameReadLoop_eq (flag : Bool) (l1 : ℕ) (lt : List Frame) :
    ∃ lt', frameReadLoop flag l1 lt =
        ((readFrame flag l1 (contents lt)).1, (readFrame flag l1 (contents lt)).2.1, lt') ∧
      contents lt' = (readFrame flag l1 (contents lt)).2.2.1 := by
  induction lt generalizing l1 with
  | nil => exact ⟨[], by cases l1 <;> simp [frameReadLoop, readFrame]⟩
  | cons cf lt ih =>
    have happend := readFrame_append flag l1 cf.bytes (contents lt)
    rw [frameReadLoop]
    split_ifs at happend ⊢ with hdone hempty
    · exact ⟨lt, by simp [happend], by simp [happend, hempty]⟩
    · exact ⟨_, by rw [contents_cons, happend], by simp [happend]⟩
    · obtain ⟨-, happend⟩ := happend
      obtain ⟨lt', hrun, hlt'⟩ := ih (readFrame flag l1 cf.bytes).2.1
      exact ⟨lt', by simp [happend, hrun], by simp [happend, hlt']⟩

theorem readFrame_false (n : ℕ) (bs : List UInt8) :
    readFrame false n bs = (bs.take n, n - bs.length, bs.drop n, false) := by
  induction bs generalizing n with
  | nil => cases n <;> simp [readFrame]
  | cons b bs ih => cases n <;> simp [readFrame, ih]

theorem readFrame_true (n : ℕ) (bs : List UInt8) :
    (readFrame true n bs).1 = (firstText n bs).2 ∧
      (readFrame true n bs).2.1 + (firstText n bs).1 = n ∧
      (readFrame true n bs).2.2.1 = bs.drop (firstText n bs).2.length := by
  induction bs generalizing n with
  | nil => cases n <;> simp [readFrame, firstText]
  | cons b bs ih =>
    cases n with
    | zero => simp [readFrame, firstText]
    | succ n =>
      obtain ⟨hout, hcount, hrest⟩ := ih n
      by_cases hb : b = 0
      · simp [readFrame, firstText, hb]
      · simp only [readFrame, firstText, hb, Bool.true_and, beq_iff_eq, if_false]
        exact ⟨by rw [hout], by omega, by simpa using hrest⟩

/-- **`frame_read_string`** takes the first bytes. -/
theorem frameReadString_eq (lt : List Frame) (n : ℕ) :
    ∃ lt', frameReadString lt n =
        (((min n (contents lt).length : ℕ) : ℤ), (contents lt).take n, lt') ∧
      contents lt' = (contents lt).drop n := by
  obtain ⟨lt', hrun, hlt'⟩ := frameReadLoop_eq false n lt
  rw [readFrame_false] at hrun hlt'
  refine ⟨lt', ?_, hlt'⟩
  simp only [frameReadString, frameReadStringAux, hrun, Prod.mk.injEq, and_true]
  omega

/-- **`frame_read_text`** takes a text up to its zero byte, which it does not count. -/
theorem frameReadText_eq (lt : List Frame) (max : ℕ) :
    ∃ lt', frameReadText lt max =
        (((firstText max (contents lt)).1 : ℤ), (firstText max (contents lt)).2, lt') ∧
      contents lt' = (contents lt).drop (firstText max (contents lt)).2.length := by
  obtain ⟨lt', hrun, hlt'⟩ := frameReadLoop_eq true max lt
  obtain ⟨hout, hcount, hrest⟩ := readFrame_true max (contents lt)
  refine ⟨lt', ?_, hlt'.trans hrest⟩
  simp only [frameReadText, frameReadStringAux, hrun, hout, Prod.mk.injEq, and_true]
  omega

/-- **`frame_erase`** drops the first bytes. -/
theorem frameErase_eq (lt : List Frame) (n : ℕ) :
    ∃ lt', frameErase lt n = (((min n (contents lt).length : ℕ) : ℤ), lt') ∧
      contents lt' = (contents lt).drop n := by
  have hloop : ∀ n, ∃ lt', frameEraseLoop n lt = (n - (contents lt).length, lt') ∧
      contents lt' = (contents lt).drop n := by
    induction lt with
    | nil => exact fun n => ⟨[], by simp [frameEraseLoop]⟩
    | cons cf lt ih =>
      intro n
      rw [frameEraseLoop]
      split_ifs with hwhole hlast
      · have hn : n = cf.bytes.length := by omega
        exact ⟨lt, by simp [hn], by simp [hn]⟩
      · obtain ⟨lt', hrun, hlt'⟩ := ih (n - cf.bytes.length)
        refine ⟨lt', ?_, ?_⟩
        · rw [hrun, contents_cons, List.length_append, Nat.sub_add_eq]
        · rw [hlt', contents_cons, List.drop_append, List.drop_of_length_le hwhole,
            List.nil_append]
      · refine ⟨cf.drop n :: lt, ?_, ?_⟩
        · rw [contents_cons, List.length_append, Nat.sub_eq_zero_of_le (by omega)]
        · simp [Frame.drop, List.drop_append_of_le_length (le_of_not_ge hwhole)]
  obtain ⟨lt', hrun, hlt'⟩ := hloop n
  refine ⟨lt', ?_, hlt'⟩
  simp only [frameErase, hrun, Prod.mk.injEq, and_true]
  omega

/-- **`frame_peek_string`** answers while the bytes are there, or when there is no frame. -/
theorem framePeekString_eq_none {lt : List Frame} {n : ℕ} :
    framePeekString lt n = none ↔ (contents lt).length < n ∧ lt ≠ [] := by
  have hfrom : ∀ (rest : List Frame) (bytes : List UInt8) (n : ℕ),
      (bytes ++ contents rest).length < n → framePeekFrom bytes rest n = none := by
    intro rest
    induction rest with
    | nil =>
      intro bytes n h
      rw [framePeekFrom, if_neg (by simpa using h)]
    | cons cf rest ih =>
      intro bytes n h
      simp only [contents_cons, List.length_append] at h
      rw [framePeekFrom, if_neg (by omega), ih _ _ (by rw [List.length_append]; omega),
        Option.map_none]
  rcases le_or_gt n (contents lt).length with hle | hlt
  · simp [framePeekString_eq hle, hle]
  · cases lt with
    | nil => simp [framePeekString]
    | cons cf rest => simpa [framePeekString, hfrom rest cf.bytes n hlt] using hlt

/-- **`frame_move`** transfers the first bytes, when the extra frame can be had. -/
theorem frameMove_nat (dlt slt : List Frame) (l : ℕ) :
    ∃ dlt' slt', frameMove true dlt slt l =
        some (((min l (contents slt).length : ℕ) : ℤ), dlt', slt') ∧
      contents dlt' = contents dlt ++ (contents slt).take l ∧
      contents slt' = (contents slt).drop l := by
  have hloop : ∃ dlt' slt', frameMoveLoop dlt slt l =
      some (((l - (contents slt).length : ℕ) : ℤ), dlt', slt') ∧
      contents dlt' = contents dlt ++ (contents slt).take l ∧
      contents slt' = (contents slt).drop l := by
    induction slt generalizing dlt l with
    | nil => exact ⟨dlt, [], by simp [frameMoveLoop]⟩
    | cons cf slt ih =>
      rw [frameMoveLoop]
      split_ifs with hwhole hlast hpos hzero
      · have hl : l = cf.bytes.length := by omega
        exact ⟨dlt ++ [cf], slt, by simp [hl], by simp [hl], by simp [hl]⟩
      · have hle : cf.bytes.length ≤ l := by omega
        obtain ⟨dlt', slt', hrun, hdlt', hslt'⟩ := ih (dlt ++ [cf]) (l - cf.bytes.length)
        refine ⟨dlt', slt', ?_, ?_, ?_⟩
        · rw [← Int.ofNat_sub hle, hrun, contents_cons, List.length_append, Nat.sub_add_eq]
        · simp [hdlt', List.take_append, List.take_of_length_le hle]
        · simp [hslt', List.drop_append, List.drop_of_length_le hle]
      · have hle : l ≤ cf.bytes.length := by omega
        refine ⟨dlt ++ [cf.take l], cf.drop l :: slt, ?_, ?_, ?_⟩
        · rw [contents_cons, List.length_append, Nat.sub_eq_zero_of_le (by omega)]
          simp
        · simp [Frame.take, List.take_append_of_le_length hle]
        · simp [Frame.drop, List.drop_append_of_le_length hle]
      · have hl : l = 0 := by omega
        exact ⟨dlt, cf :: slt, by simp [hl], by simp [hl], by simp [hl]⟩
      · omega
  obtain ⟨dlt', slt', hrun, hdlt', hslt'⟩ := hloop
  refine ⟨dlt', slt', ?_, hdlt', hslt'⟩
  simp only [frameMove, if_true, hrun, Option.map_some, Option.some.injEq, Prod.mk.injEq, and_true]
  omega

/-- Any row of bytes can stand in frames. -/
theorem exists_frames (bs : List UInt8) : ∃ frames, contents frames = bs := by
  refine ⟨bs.map Frame.single, ?_⟩
  induction bs with
  | nil => rfl
  | cons b bs ih => simpa [contents, Frame.single] using ih

/-! ## One operation -/

theorem rows_update (s : ℕ → List Frame) (i : ℕ) (lt : List Frame) :
    rows (Function.update s i lt) = Function.update (rows s) i (contents lt) := by
  funext j
  by_cases hj : j = i
  · simp [rows, hj]
  · simp [rows, Function.update_of_ne hj]

/-- **One operation**: it does to the bytes what it should, exactly when its condition is met. -/
theorem agrees_iff (call : ℕ × Op) (s : ℕ → List Frame) :
    Refinement.Agrees rows exec (fun call => call.2.spec) call s ↔ Meets call s := by
  obtain ⟨avail, op⟩ := call
  cases op with
  | writeString i st =>
    rcases frameWriteString_eq avail (s i) st with
      ⟨hfits, hpos, s', hrun, hs'⟩ | ⟨hfull, s', hrun, -⟩
    · refine iff_of_true ⟨_, _, rfl, ?_⟩ ⟨hfits, hpos⟩
      simp [Op.spec, hrun, rows_update, hs', rows]
    · refine iff_of_false (Refinement.not_agrees_of_answer rfl ?_) ?_
      · simp only [Op.spec, hrun, ne_eq, Prod.mk.injEq]
        omega
      · rintro ⟨hfits, hpos⟩
        simp only at hfits hpos
        omega
  | appendString i st =>
    have hcap : capacity (avail, []) = 4095 * avail := by simp [capacity, room, sizeOfFrame]
    rcases frameWriteString_eq avail [] st with
      ⟨hfits, hpos, s', hrun, hs'⟩ | ⟨hfull, s', hrun, -⟩
    · refine iff_of_true ⟨_, _, rfl, ?_⟩ ⟨hfits, by rw [hcap] at hpos; simp only; omega⟩
      have hneg : ¬ (st.length : ℤ) < 0 := by omega
      simp [Op.spec, frameAppendString, hrun, hneg, rows_update, hs', rows]
    · refine iff_of_false (Refinement.not_agrees_of_answer rfl ?_) ?_
      · have hneg : (-1 : ℤ) < 0 := by decide
        simp only [Op.spec, frameAppendString, hrun, if_pos hneg, ne_eq, Prod.mk.injEq]
        omega
      · rintro ⟨hfits, hpos⟩
        simp only at hfits hpos
        omega
  | readString i n =>
    obtain ⟨lt', hrun, hlt'⟩ := frameReadString_eq (s i) n
    refine iff_of_true ⟨_, _, rfl, ?_⟩ trivial
    simp [Op.spec, hrun, rows_update, hlt', rows]
  | readText i max =>
    obtain ⟨lt', hrun, hlt'⟩ := frameReadText_eq (s i) max
    refine iff_of_true ⟨_, _, rfl, ?_⟩ trivial
    simp [Op.spec, hrun, rows_update, hlt', rows]
  | erase i n =>
    obtain ⟨lt', hrun, hlt'⟩ := frameErase_eq (s i) n
    refine iff_of_true ⟨_, _, rfl, ?_⟩ trivial
    simp [Op.spec, hrun, rows_update, hlt', rows]
  | peekString i n =>
    by_cases hmeets : n ≤ (contents (s i)).length ∨ s i = []
    · refine iff_of_true ⟨_, _, ?_, rfl⟩ hmeets
      have hpeek : framePeekString (s i) n = some ((contents (s i)).take n) := by
        rcases hmeets with hle | hnil
        · exact framePeekString_eq hle
        · simp [hnil, framePeekString]
      simp [exec, hpeek, rows]
    · refine iff_of_false ?_ hmeets
      rw [not_or, not_le] at hmeets
      rintro ⟨r, c', hexec, -⟩
      simp [exec, framePeekString_eq_none.2 hmeets] at hexec
  | copy d j hne l =>
    obtain ⟨avail', dlt', hrun, hdlt'⟩ := frameCopy_eq avail (s d) (s j) l
    have hreach := reach_le avail (s j)
    by_cases hmeets : min l (contents (s j)).length ≤ reach avail (s j)
    · have hmin : min l (reach avail (s j)) = min l (contents (s j)).length := by omega
      refine iff_of_true ⟨_, _, rfl, ?_⟩ hmeets
      have htake : (contents (s j)).take (min l (contents (s j)).length) =
          (contents (s j)).take l := by
        rw [← List.take_take, List.take_length]
      rw [hmin, htake] at hdlt'
      simp [Op.spec, hrun, hmin, rows_update, hdlt', rows]
    · refine iff_of_false (Refinement.not_agrees_of_answer rfl ?_) hmeets
      simp only [Op.spec, hrun, rows, ne_eq, Prod.mk.injEq]
      omega
  | move d j hne l =>
    rcases Nat.eq_zero_or_pos avail with rfl | hpos
    · refine iff_of_false (Refinement.not_agrees_of_answer rfl ?_) (lt_irrefl 0)
      simp only [Op.spec, rows, ne_eq, Prod.mk.injEq]
      omega
    · obtain ⟨dlt', slt', hrun, hdlt', hslt'⟩ := frameMove_nat (s d) (s j) l
      refine iff_of_true ⟨(((min l (contents (s j)).length : ℕ) : ℤ), []),
        Function.update (Function.update s d dlt') j slt', ?_, ?_⟩ hpos
      · simp [exec, hpos, hrun]
      · simp [Op.spec, rows_update, hdlt', hslt', rows]
  | size i =>
    by_cases hshort : (contents (s i)).length < 2 ^ 31
    · refine iff_of_true ⟨_, _, rfl, ?_⟩ hshort
      simp [Op.spec, frameSize_eq hshort, rows]
    · refine iff_of_false (Refinement.not_agrees_of_answer rfl ?_) hshort
      have hlt : frameSize (s i) < 2 ^ 31 := wrapInt_lt _
      simp only [Op.spec, rows, ne_eq, Prod.mk.injEq]
      omega

/-! ## Typed forms -/

/-- The `k` bytes of a number in network order. -/
def bigEndian : ℕ → ℕ → List UInt8
  | 0, _ => []
  | k + 1, v => UInt8.ofNat (v / 256 ^ k) :: bigEndian k (v % 256 ^ k)

/-- The number of some bytes in network order. -/
def ofBigEndian (bs : List UInt8) : ℕ := bs.foldl (fun v b => v * 256 + b.toNat) 0

@[simp] theorem length_bigEndian (k v : ℕ) : (bigEndian k v).length = k := by
  induction k generalizing v with
  | zero => rfl
  | succ k ih => simp [bigEndian, ih]

theorem ofBigEndian_bigEndian {k v : ℕ} (h : v < 256 ^ k) : ofBigEndian (bigEndian k v) = v := by
  have hfold : ∀ acc, (bigEndian k v).foldl (fun v b => v * 256 + b.toNat) acc =
      acc * 256 ^ k + v := by
    induction k generalizing v with
    | zero =>
      intro acc
      have : v = 0 := by simpa using h
      simp [bigEndian, this]
    | succ k ih =>
      intro acc
      have hpos : 0 < 256 ^ k := Nat.pow_pos (by decide)
      have hdigit : v / 256 ^ k < 256 := by
        rw [Nat.div_lt_iff_lt_mul hpos, ← Nat.pow_succ']
        exact h
      have hsplit := Nat.div_add_mod v (256 ^ k)
      rw [bigEndian, List.foldl_cons, ih (Nat.mod_lt v hpos), UInt8.toNat_ofNat_of_lt' hdigit,
        Nat.pow_succ, Nat.add_mul, Nat.mul_assoc, Nat.mul_comm 256, Nat.mul_comm (v / 256 ^ k),
        Nat.add_assoc, hsplit]
  rw [ofBigEndian, hfold]
  omega

/-- What is read and written: a number, a row of bytes, or a text without zero bytes. -/
inductive Item where
  | int (v : BitVec 32)
  | short (v : BitVec 16)
  | byte (c : UInt8)
  | string (st : List UInt8)
  /-- A text that is read back into a buffer of `max` bytes. -/
  | text (te : List UInt8) (max : ℕ) (hzero : 0 ∉ te) (hmax : te.length < max)

/-- `frame_write_int`, `frame_write_short`, `frame_write_byte`, `frame_write_string` and
`frame_write_text`: the bytes that they hand to `frame_write_string`. -/
def Item.bytes : Item → List UInt8
  | .int v => bigEndian 4 v.toNat
  | .short v => bigEndian 2 v.toNat
  | .byte c => [c]
  | .string st => st
  | .text te _ _ _ => te ++ [0]

/-- What `frame_read_int`, `frame_read_short`, `frame_read_byte`, `frame_read_string` and
`frame_read_text` give for an item of this kind, and the list. The first three fail when there are
not enough bytes. -/
def Item.readBack (lt : List Frame) : Item → Option Item × List Frame
  | .int _ =>
    let r := frameReadString lt 4
    (if r.1 = 4 then some (.int (BitVec.ofNat 32 (ofBigEndian r.2.1))) else none, r.2.2)
  | .short _ =>
    let r := frameReadString lt 2
    (if r.1 = 2 then some (.short (BitVec.ofNat 16 (ofBigEndian r.2.1))) else none, r.2.2)
  | .byte _ =>
    let r := frameReadString lt 1
    (if r.1 = 1 then some (.byte (r.2.1.headD 0)) else none, r.2.2)
  | .string st =>
    let r := frameReadString lt st.length
    (some (.string r.2.1), r.2.2)
  | .text _ max _ _ =>
    let r := frameReadText lt max
    let te := r.2.1.takeWhile (· ≠ 0)
    (if h : 0 ∉ te ∧ te.length < max then some (.text te max h.1 h.2) else none, r.2.2)

/-- Write some items one after the other; `none` when a frame cannot be had. -/
def writeItems : ℕ → List Frame → List Item → Option (List Frame)
  | _, lt, [] => some lt
  | avail, lt, it :: its =>
    let r := frameWriteString avail lt it.bytes
    if r.1 < 0 then none else writeItems r.2.1 r.2.2 its

/-- Read items of the given kinds one after the other. -/
def readItems : List Frame → List Item → Option (List Item × List Frame)
  | lt, [] => some ([], lt)
  | lt, it :: its =>
    (it.readBack lt).1.bind fun got =>
      (readItems (it.readBack lt).2 its).map fun r => (got :: r.1, r.2)

theorem firstText_append {te : List UInt8} (rest : List UInt8) {max : ℕ} (hzero : 0 ∉ te)
    (hmax : te.length < max) : (firstText max (te ++ 0 :: rest)).2 = te ++ [0] := by
  induction te generalizing max with
  | nil =>
    obtain ⟨max, rfl⟩ := Nat.exists_eq_add_of_lt hmax
    simp [firstText]
  | cons b te ih =>
    rw [List.mem_cons, not_or] at hzero
    rw [List.length_cons] at hmax
    obtain ⟨m, rfl⟩ : ∃ m, max = m + 1 := ⟨max - 1, by omega⟩
    have hb : b ≠ 0 := fun h => hzero.1 h.symm
    have hrest := ih hzero.2 (Nat.lt_of_succ_lt_succ hmax)
    simp [firstText, hb, hrest]

/-- **An item is read back** when its bytes stand in front. -/
theorem readBack_eq {it : Item} {lt : List Frame} {rest : List UInt8}
    (h : contents lt = it.bytes ++ rest) :
    ∃ lt', it.readBack lt = (some it, lt') ∧ contents lt' = rest := by
  have hstring : ∀ n, n = it.bytes.length → ∃ lt', frameReadString lt n = (↑n, it.bytes, lt') ∧
      contents lt' = rest := by
    rintro n rfl
    obtain ⟨lt', hrun, hlt'⟩ := frameReadString_eq lt it.bytes.length
    rw [h, List.take_left, List.length_append, Nat.min_eq_left (Nat.le_add_right _ _)] at hrun
    rw [h, List.drop_left] at hlt'
    exact ⟨lt', hrun, hlt'⟩
  cases it with
  | int v =>
    obtain ⟨lt', hrun, hlt'⟩ := hstring 4 (by simp [Item.bytes])
    refine ⟨lt', ?_, hlt'⟩
    simp [Item.readBack, hrun, Item.bytes, ofBigEndian_bigEndian (k := 4) v.isLt]
  | short v =>
    obtain ⟨lt', hrun, hlt'⟩ := hstring 2 (by simp [Item.bytes])
    refine ⟨lt', ?_, hlt'⟩
    simp [Item.readBack, hrun, Item.bytes, ofBigEndian_bigEndian (k := 2) v.isLt]
  | byte c =>
    obtain ⟨lt', hrun, hlt'⟩ := hstring 1 (by simp [Item.bytes])
    refine ⟨lt', ?_, hlt'⟩
    simp [Item.readBack, hrun, Item.bytes]
  | string st =>
    obtain ⟨lt', hrun, hlt'⟩ := hstring st.length rfl
    refine ⟨lt', ?_, hlt'⟩
    simp [Item.readBack, hrun, Item.bytes]
  | text te max hzero hmax =>
    obtain ⟨lt', hrun, hlt'⟩ := frameReadText_eq lt max
    have htext := firstText_append rest hzero hmax
    have hcontents : contents lt = te ++ 0 :: rest := by simpa [Item.bytes] using h
    have hte : (te ++ [0]).takeWhile (fun b => !decide (b = 0)) = te := by
      rw [List.takeWhile_append_of_pos fun b hb => ?_]
      · simp
      · have : b ≠ 0 := fun h0 => hzero (h0 ▸ hb)
        simpa using this
    rw [hcontents, htext] at hrun hlt'
    refine ⟨lt', ?_, ?_⟩
    · simp [Item.readBack, hrun, hte, hzero, hmax]
    · simpa using hlt'

theorem contents_writeItems {avail : ℕ} {lt lt' : List Frame} {its : List Item}
    (h : writeItems avail lt its = some lt') :
    contents lt' = its.reverse.flatMap Item.bytes ++ contents lt := by
  induction its generalizing avail lt with
  | nil =>
    obtain rfl := Option.some.inj h
    rfl
  | cons it its ih =>
    rw [writeItems] at h
    split_ifs at h with hneg
    simp [ih h, contents_frameWriteString hneg]

theorem readItems_eq {its : List Item} {lt : List Frame} {rest : List UInt8}
    (h : contents lt = its.flatMap Item.bytes ++ rest) :
    ∃ lt', readItems lt its = some (its, lt') ∧ contents lt' = rest := by
  induction its generalizing lt with
  | nil => exact ⟨lt, rfl, h⟩
  | cons it its ih =>
    rw [List.flatMap_cons, List.append_assoc] at h
    obtain ⟨lt₁, hread, hlt₁⟩ := readBack_eq h
    obtain ⟨lt', hrun, hlt'⟩ := ih hlt₁
    exact ⟨lt', by simp [readItems, hread, hrun], hlt'⟩

/-- **What is written in one order is read back in the reverse order.** -/
theorem readItems_writeItems {avail : ℕ} {lt lt' : List Frame} {its : List Item}
    (h : writeItems avail lt its = some lt') :
    ∃ lt'', readItems lt' its.reverse = some (its.reverse, lt'') ∧
      contents lt'' = contents lt :=
  readItems_eq (contents_writeItems h)

/-! ## The refinement -/

/-- **A list of frames refines a row of bytes**: an operation does what it should exactly when its
condition is met, so a run in which every operation meets its condition gives the answers of the
run on rows of bytes; and whatever has been written is read back in the reverse order. -/
theorem frame_list_refines (call : ℕ × Op) (s : ℕ → List Frame) :
    (Refinement.Agrees rows exec (fun call => call.2.spec) call s ↔ Meets call s) ∧
    (∀ calls s, Refinement.MeetsAll exec Meets calls s → ∃ rs s',
      Refinement.runImpl exec calls s = some (rs, s') ∧
        Refinement.runSpec (fun call => call.2.spec) calls (rows s) = (rs, rows s')) ∧
    (∀ avail lt its lt', writeItems avail lt its = some lt' → ∃ lt'',
      readItems lt' its.reverse = some (its.reverse, lt'') ∧ contents lt'' = contents lt) :=
  ⟨agrees_iff call s, Refinement.run_agrees fun call s => (agrees_iff call s).2,
    fun _ _ _ _ => readItems_writeItems⟩

/-- Copying two bytes out of a list with an empty frame between them copies one. -/
theorem not_agrees_copy_empty :
    ¬ Refinement.Agrees rows exec (fun call => call.2.spec) (9, .copy 0 1 (by decide) 2)
      (fun i => if i = 1 then [Frame.single 7, ⟨[], by decide⟩, Frame.single 8] else []) := by
  rw [agrees_iff]
  change ¬ min 2 _ ≤ _
  decide

end Mlvm.Frames
