import Mlvm.Transport.Pdu
import Mathlib.Algebra.Order.Group.Int
import Mathlib.Data.List.Basic
import Mathlib.Algebra.Ring.Int.Defs
import Mathlib.Algebra.Ring.Nat

/-!
# Lists of frames

`frame.c`: the bytes of a PDU or of a connection stand in a list of **frames** of a fixed size. A
frame is filled from its end, so what it holds is what stands behind its `top`, and the byte at
index 0 stays free. Moving bytes from one list to another moves whole frames and copies only the
part of the last one into a frame of its own.

Main results: `contents_writeByte`, `framePeekString_eq` and `frameMove_eq` say what the functions
do to the row of bytes the frames hold; `frameMove_neg` says that a negative count is never moved.
-/

namespace Mlvm.Transport

/-- `FRAME_SIZE`. -/
def sizeOfFrame : ℕ := 4096

/-- `struct frame_str`: the bytes behind `top`, which are `FRAME_SIZE - (top+1)` many. -/
structure Frame where
  bytes : List UInt8
  fits : bytes.length < sizeOfFrame
  deriving DecidableEq, Repr

namespace Frame

/-- A fresh frame with one byte written. -/
def single (b : UInt8) : Frame := ⟨[b], by simp [sizeOfFrame]⟩

/-- One more byte in front, while `top` is not 0. -/
def push (f : Frame) (b : UInt8) (h : f.bytes.length + 1 < sizeOfFrame) : Frame :=
  ⟨b :: f.bytes, by simpa using h⟩

def take (f : Frame) (n : ℕ) : Frame :=
  ⟨f.bytes.take n, by have := f.fits; rw [List.length_take]; omega⟩

def drop (f : Frame) (n : ℕ) : Frame :=
  ⟨f.bytes.drop n, by have := f.fits; rw [List.length_drop]; omega⟩

end Frame

/-- The row of bytes a list of frames holds. -/
def contents (lt : List Frame) : List UInt8 := lt.flatMap Frame.bytes

@[simp] theorem contents_nil : contents [] = [] := rfl

@[simp] theorem contents_cons (f : Frame) (lt : List Frame) :
    contents (f :: lt) = f.bytes ++ contents lt := rfl

@[simp] theorem contents_append (lt lt' : List Frame) :
    contents (lt ++ lt') = contents lt ++ contents lt' := List.flatMap_append

/-- The value of an `int` that would be `x` without the bound. -/
def wrapInt (x : ℤ) : ℤ := Int.bmod x (2 ^ 32)

theorem wrapInt_of_bounds {x : ℤ} (hlow : -(2 ^ 31) ≤ x) (hhigh : x < 2 ^ 31) : wrapInt x = x := by
  rw [wrapInt, Int.bmod_eq_emod]
  split <;> omega

/-- `frame_size`. -/
def frameSize (lt : List Frame) : ℤ :=
  wrapInt (lt.map fun f => (f.bytes.length : ℤ)).sum

theorem frameSize_eq {lt : List Frame} (h : (contents lt).length < 2 ^ 31) :
    frameSize lt = (contents lt).length := by
  have hsum : (lt.map fun f => (f.bytes.length : ℤ)).sum = (contents lt).length := by
    clear h
    induction lt with
    | nil => rfl
    | cons f lt ih => simp [ih]
  rw [frameSize, hsum, wrapInt_of_bounds] <;> omega

/-! ## Writing -/

/-- The loop of `frame_write_string` for one byte: into the first frame while its `top` is not 0,
otherwise into a new frame. `avail` frames can be had. -/
def writeByte (b : UInt8) : ℕ × List Frame → Option (ℕ × List Frame)
  | (avail, cf :: lt) =>
    if h : cf.bytes.length + 1 < sizeOfFrame then some (avail, cf.push b h :: lt)
    else newFrame avail (cf :: lt)
  | (avail, []) => newFrame avail []
where
  newFrame : ℕ → List Frame → Option (ℕ × List Frame)
    | 0, _ => none
    | avail + 1, lt => some (avail, Frame.single b :: lt)

theorem contents_writeByte {b : UInt8} {s s' : ℕ × List Frame} (h : writeByte b s = some s') :
    contents s'.2 = b :: contents s.2 := by
  have hnew : ∀ {avail lt}, writeByte.newFrame b avail lt = some s' →
      contents s'.2 = b :: contents lt := by
    intro avail lt hs
    cases avail with
    | zero => simp [writeByte.newFrame] at hs
    | succ avail =>
      obtain rfl := Option.some.inj hs
      rfl
  obtain ⟨avail, lt⟩ := s
  cases lt with
  | nil => exact hnew h
  | cons cf lt =>
    rw [writeByte] at h
    split at h
    · obtain rfl := Option.some.inj h
      rfl
    · exact hnew h

/-! ## Peeking -/

/-- The loop of `frame_peek_string` with `bytes` of the frame at hand and `rest` behind it. There
is no answer when it steps to a frame that is not there. -/
def framePeekFrom : List UInt8 → List Frame → ℕ → Option (List UInt8)
  | bytes, rest, l1 =>
    if l1 ≤ bytes.length then some (bytes.take l1)
    else match rest with
      | [] => none
      | cf :: rest => (framePeekFrom cf.bytes rest (l1 - bytes.length)).map (bytes ++ ·)

/-- `frame_peek_string`. -/
def framePeekString : List Frame → ℕ → Option (List UInt8)
  | [], _ => some []
  | cf :: rest, length => framePeekFrom cf.bytes rest length

theorem framePeekFrom_eq {bytes : List UInt8} {rest : List Frame} {l1 : ℕ}
    (h : l1 ≤ (bytes ++ contents rest).length) :
    framePeekFrom bytes rest l1 = some ((bytes ++ contents rest).take l1) := by
  induction rest generalizing bytes l1 with
  | nil =>
    have hle : l1 ≤ bytes.length := by simpa using h
    rw [framePeekFrom, if_pos hle, contents_nil, List.append_nil]
  | cons cf rest ih =>
    rw [framePeekFrom]
    split
    · next hle => rw [List.take_append_of_le_length hle]
    · next hlt =>
      have hrest : l1 - bytes.length ≤ (cf.bytes ++ contents rest).length := by
        rw [List.length_append, contents_cons] at h
        omega
      have htake : (bytes ++ (cf.bytes ++ contents rest)).take l1 =
          bytes ++ (cf.bytes ++ contents rest).take (l1 - bytes.length) := by
        rw [List.take_append, List.take_of_length_le (by omega)]
      rw [ih hrest, Option.map_some, contents_cons, htake]

/-- **Peeking gives the first bytes**, when they are there. -/
theorem framePeekString_eq {lt : List Frame} {l : ℕ} (h : l ≤ (contents lt).length) :
    framePeekString lt l = some ((contents lt).take l) := by
  cases lt with
  | nil => simp [framePeekString]
  | cons cf rest => exact framePeekFrom_eq h

/-! ## Moving -/

/-- The loop of `frame_move`, which goes on until `l1` is 0 or the list is empty. There is no
answer when it goes on for ever: a negative `l1` takes neither branch and nothing changes. -/
def frameMoveLoop : List Frame → List Frame → ℤ → Option (ℤ × List Frame × List Frame)
  | dlt, [], l1 => some (l1, dlt, [])
  | dlt, cf :: slt, l1 =>
    if (cf.bytes.length : ℤ) ≤ l1 then
      if l1 - cf.bytes.length = 0 then some (0, dlt ++ [cf], slt)
      else frameMoveLoop (dlt ++ [cf]) slt (l1 - cf.bytes.length)
    else if 0 < l1 then some (0, dlt ++ [cf.take l1.toNat], cf.drop l1.toNat :: slt)
    else if l1 = 0 then some (0, dlt, cf :: slt)
    else none

/-- `frame_move` of `l` bytes from `slt` to `dlt`; `extra` says whether the one extra frame can be
had. -/
def frameMove (extra : Bool) (dlt slt : List Frame) (l : ℤ) :
    Option (ℤ × List Frame × List Frame) :=
  if extra then (frameMoveLoop dlt slt l).map fun r => (l - r.1, r.2) else some (-1, dlt, slt)

theorem frameMoveLoop_eq (dlt : List Frame) {slt : List Frame} {l : ℕ} (hpos : 0 < l)
    (hle : l ≤ (contents slt).length) :
    ∃ dlt' slt', frameMoveLoop dlt slt l = some (0, dlt', slt') ∧
      contents dlt' = contents dlt ++ (contents slt).take l ∧
      contents slt' = (contents slt).drop l := by
  induction slt generalizing dlt l with
  | nil => simp at hle; omega
  | cons cf slt ih =>
    rw [frameMoveLoop]
    split_ifs with hwhole hlast h0 h0
    · -- the last byte wanted is the last one of this frame
      have hl : l = cf.bytes.length := by omega
      exact ⟨_, _, rfl, by simp [hl], by simp [hl]⟩
    · have hlen : cf.bytes.length ≤ l := by omega
      have hrest : l - cf.bytes.length ≤ (contents slt).length := by
        rw [contents_cons, List.length_append] at hle
        omega
      obtain ⟨dlt', slt', hmove, hd, hs⟩ := ih (dlt ++ [cf]) (by omega) hrest
      refine ⟨dlt', slt', ?_, ?_, ?_⟩
      · rw [← hmove, Int.ofNat_sub hlen]
      · rw [hd, contents_cons, List.take_append, List.take_of_length_le hlen]
        simp
      · rw [hs, contents_cons, List.drop_append, List.drop_of_length_le hlen, List.nil_append]
    · have hlen : l ≤ cf.bytes.length := by omega
      refine ⟨_, _, rfl, ?_, ?_⟩
      · simp [Frame.take, List.take_append_of_le_length hlen]
      · simp [Frame.drop, List.drop_append_of_le_length hlen]
    all_goals omega

/-- **Moving moves the first bytes**, when there are so many and the extra frame can be had. -/
theorem frameMove_eq (dlt : List Frame) {slt : List Frame} {l : ℕ} (hpos : 0 < l)
    (hle : l ≤ (contents slt).length) :
    ∃ dlt' slt', frameMove true dlt slt l = some ((l : ℤ), dlt', slt') ∧
      contents dlt' = contents dlt ++ (contents slt).take l ∧
      contents slt' = (contents slt).drop l := by
  obtain ⟨dlt', slt', hmove, hd, hs⟩ := frameMoveLoop_eq dlt hpos hle
  exact ⟨dlt', slt', by simp [frameMove, hmove], hd, hs⟩

/-- **A negative count is never moved**: the loop has no end while there is a frame. -/
theorem frameMove_neg {dlt slt : List Frame} {l : ℤ} (hneg : l < 0) (hne : slt ≠ []) :
    frameMove true dlt slt l = none := by
  cases slt with
  | nil => exact absurd rfl hne
  | cons cf slt =>
    have hloop : frameMoveLoop dlt (cf :: slt) l = none := by
      rw [frameMoveLoop, if_neg (by omega), if_neg (by omega), if_neg (by omega)]
    simp [frameMove, hloop]

end Mlvm.Transport
