import Mlvm.Transport.FrameList

/-!
# The operations on lists of frames

`frame.c` once more, with what happens when no frame can be had. `avail` is the number of times
that `frame_new` still gives a frame.

**Writing** fills the first frame from its end and takes a new one when it is full. When there is
none, the loop at `undo` takes back what has been written; its size of a frame is one byte more than
the bytes that the frame holds.

**Capacity.** `room` is the free space of the first frame and `capacity` all the space there is:
each byte written takes one (`capacity_writeByte`).
-/

namespace Mlvm.Frames

open Transport

/-! ## Writing -/

/-- `cf->top` of the first frame: the bytes that still go into it. -/
def room : List Frame → ℕ
  | [] => 0
  | cf :: _ => sizeOfFrame - 1 - cf.bytes.length

/-- All bytes that can still be written. -/
def capacity (s : ℕ × List Frame) : ℕ := room s.2 + (sizeOfFrame - 1) * s.1

/-- The first frame, or a new one on top when that is full or there is none. -/
def firstFrame (s : ℕ × List Frame) : Option (ℕ × List Frame) :=
  if 0 < room s.2 then some s
  else if 0 < s.1 then some (s.1 - 1, ⟨[], by decide⟩ :: s.2)
  else none

/-- The writing loops, over the bytes from the last one on. When a frame cannot be had there remain
the frames as they are then and the number of bytes in them that are new. -/
def writeBytes : List UInt8 → ℕ → ℕ × List Frame → (ℕ × List Frame) ⊕ (ℕ × List Frame)
  | [], _, s => .inl s
  | b :: bs, k, s =>
    match writeByte b s with
    | some s' => writeBytes bs (k + 1) s'
    | none => .inr (k, s.2)

/-- The loop at `undo`, with `r` bytes to take back. A frame that is given up counts for
`FRAME_SIZE - top` bytes. -/
def undo : ℕ → ℕ → List Frame → ℕ × List Frame
  | _, avail, [] => (avail, [])
  | r, avail, cf :: lt =>
    if r < cf.bytes.length + 1 then (avail, cf.drop r :: lt)
    else if r - (cf.bytes.length + 1) = 0 then (avail + 1, lt)
    else undo (r - (cf.bytes.length + 1)) (avail + 1) lt

/-- `frame_write_string`: the value returned, the frames left to be had, and the list. -/
def frameWriteString (avail : ℕ) (lt : List Frame) (st : List UInt8) : ℤ × ℕ × List Frame :=
  match firstFrame (avail, lt) with
  | none => (-1, undo 0 avail lt)
  | some s =>
    match writeBytes st.reverse 0 s with
    | .inl s' => (st.length, s')
    | .inr (k, lt') => (-1, undo k 0 lt')

/-- `frame_append_string`: the text goes into a list of its own first. -/
def frameAppendString (avail : ℕ) (lt : List Frame) (st : List UInt8) : ℤ × ℕ × List Frame :=
  let r := frameWriteString avail [] st
  if r.1 < 0 then (-1, r.2.1, lt) else (r.1, r.2.1, lt ++ r.2.2)

/-- The loop of `frame_copy` with `l1` bytes to go. -/
def frameCopyLoop : ℕ → List Frame → List Frame → ℤ → ℤ × ℕ × List Frame
  | avail, dlt, [], l1 => (l1, avail, dlt)
  | avail, dlt, cf :: slt, l1 =>
    let l2 := min l1 cf.bytes.length
    if l1 ≤ 0 ∨ l2 ≤ 0 then (l1, avail, dlt)
    else
      let r := frameAppendString avail dlt (cf.bytes.take l2.toNat)
      if r.1 < 0 then (l1, r.2) else frameCopyLoop r.2.1 r.2.2 slt (l1 - r.1)

/-- `frame_copy`. -/
def frameCopy (avail : ℕ) (dlt slt : List Frame) (l : ℤ) : ℤ × ℕ × List Frame :=
  let r := frameCopyLoop avail dlt slt l
  (l - r.1, r.2)

/-- `pdu_clone`, as far as the frames go; `fresh` says whether there is a control block for the
clone. -/
def pduClone (fresh : Bool) (avail : ℕ) (frames : List Frame) : Option (List Frame) :=
  if fresh then
    let r := frameCopy avail [] frames (frameSize frames)
    if r.1 < 0 then none else some r.2.2
  else none

/-! ## Reading -/

/-- The loop of `frame_erase`: what is still to be erased, and the list. -/
def frameEraseLoop : ℕ → List Frame → ℕ × List Frame
  | s, [] => (s, [])
  | s, cf :: lt =>
    if cf.bytes.length ≤ s then
      if s - cf.bytes.length = 0 then (0, lt) else frameEraseLoop (s - cf.bytes.length) lt
    else (0, cf.drop s :: lt)

/-- `frame_erase`. -/
def frameErase (lt : List Frame) (length : ℕ) : ℤ × List Frame :=
  let r := frameEraseLoop length lt
  (length - r.1, r.2)

/-- Reading from one frame: the bytes read, how many are still to be read, what is left, and
whether a zero byte has stopped the reading, which is then not counted. -/
def readFrame (flag : Bool) : ℕ → List UInt8 → List UInt8 × ℕ × List UInt8 × Bool
  | 0, bs => ([], 0, bs, false)
  | l1 + 1, [] => ([], l1 + 1, [], false)
  | l1 + 1, b :: bs =>
    if flag && b == 0 then ([b], l1 + 1, bs, true)
    else ((b :: (readFrame flag l1 bs).1), (readFrame flag l1 bs).2)

theorem length_readFrame (flag : Bool) (l1 : ℕ) (bs : List UInt8) :
    (readFrame flag l1 bs).2.2.1.length ≤ bs.length := by
  induction bs generalizing l1 with
  | nil => cases l1 <;> simp [readFrame]
  | cons b bs ih =>
    cases l1 with
    | zero => simp [readFrame]
    | succ l1 =>
      have := ih l1
      rw [readFrame]
      split
      · simp
      · simp
        omega

/-- The loop of `frame_read_string_aux`: the bytes read, how many are still to be read, and the
list. A frame that is empty is given up. -/
def frameReadLoop (flag : Bool) : ℕ → List Frame → List UInt8 × ℕ × List Frame
  | l1, [] => ([], l1, [])
  | l1, cf :: lt =>
    let r := readFrame flag l1 cf.bytes
    let rest : List Frame :=
      if r.2.2.1 = [] then lt
      else ⟨r.2.2.1, (length_readFrame flag l1 cf.bytes).trans_lt cf.fits⟩ :: lt
    if r.2.2.2 ∨ r.2.1 = 0 then (r.1, r.2.1, rest)
    else
      -- there is more to be read only when the frame is empty
      let r' := frameReadLoop flag r.2.1 lt
      (r.1 ++ r'.1, r'.2)

/-- `frame_read_string_aux`: the value returned, the bytes stored, and the list. -/
def frameReadStringAux (lt : List Frame) (length : ℕ) (flag : Bool) :
    ℤ × List UInt8 × List Frame :=
  let r := frameReadLoop flag length lt
  (length - r.2.1, r.1, r.2.2)

/-- `frame_read_string`. -/
def frameReadString (lt : List Frame) (length : ℕ) : ℤ × List UInt8 × List Frame :=
  frameReadStringAux lt length false

/-- `frame_read_text`. -/
def frameReadText (lt : List Frame) (max : ℕ) : ℤ × List UInt8 × List Frame :=
  frameReadStringAux lt max true

end Mlvm.Frames
