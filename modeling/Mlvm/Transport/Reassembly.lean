import Mlvm.Framing.Splitter
import Mlvm.Frames.Exhaustion

/-!
# Reassembly of PDUs from a TCP stream

The receiving end of a TCP connection (`imago_layer_connection.c`, `connection.c`). Whatever part
of the stream has arrived is added to the frames of the connection, and a loop takes whole PDUs
off the front: a **header** with a magic number and the length of what follows, then so many
bytes. A PDU that is not complete waits for the next reception, and a bad magic number closes the
connection.

**The specification** (`pduSplitter`). Where the first PDU of a stream ends, with lengths that
never wrap. Draining the stream with it gives the PDUs the peer wrote.

**The handler** (`sigioHandler`). The count of the available bytes is an `int` from which the
length field of the header, any 32-bit value, is taken away. When the field is so large that the
difference wraps, the loop takes the PDU for complete, and the count it gives to `frame_move` is
negative: the handler never returns (`sigioHandler_overlong`).

**Runs** (`Run`). Any receptions with any outcome of the allocations, as long as the length
fields the loop comes to do not make the count wrap (`Fits`).

Main results: `passes_spec` (the loop drains the buffer) and `reassembles` (every run hands the
PDUs on that the peer wrote).
-/

namespace Mlvm.Transport

open Framing Splitter

/-! ## The header -/

/-- `struct connection_header`. -/
structure ConnectionHeader where
  magic : UInt32
  version : UInt16
  flags : UInt16
  length : UInt32
  deriving DecidableEq, Repr

/-- `sizeof(struct connection_header)`. -/
def sizeofConnectionHeader : ℕ := 12

/-- `MAGIC_NUMBER`. -/
def magicNumber : UInt32 := 0x01234567

namespace ConnectionHeader

/-- The header in network order, in front of the payload. -/
def write (hdr : ConnectionHeader) (payload : List UInt8) : List UInt8 :=
  frameWriteInt hdr.magic (frameWriteShort hdr.version (frameWriteShort hdr.flags
    (frameWriteInt hdr.length payload)))

/-- The fields of the header, turned to host order. -/
def read (bs : List UInt8) : ConnectionHeader :=
  let (magic, bs) := frameReadInt 0 bs
  let (version, bs) := frameReadShort 0 bs
  let (flags, bs) := frameReadShort 0 bs
  let (length, _) := frameReadInt 0 bs
  ⟨magic, version, flags, length⟩

theorem read_write (hdr : ConnectionHeader) (payload : List UInt8) :
    read (hdr.write payload) = hdr := by
  simp [read, write, frameReadInt_write, frameReadShort_write]

theorem write_eq (hdr : ConnectionHeader) (payload : List UInt8) :
    hdr.write payload = hdr.write [] ++ payload := by
  simp [write, frameWriteInt, frameWriteShort]

theorem length_write (hdr : ConnectionHeader) (payload : List UInt8) :
    (hdr.write payload).length = sizeofConnectionHeader + payload.length := by
  simp [write, frameWriteInt, frameWriteShort, sizeofConnectionHeader]
  omega

end ConnectionHeader

/-- The header at the front of a stream. -/
def headerOf (xs : List UInt8) : ConnectionHeader :=
  ConnectionHeader.read (xs.take sizeofConnectionHeader)

theorem headerOf_append {xs : List UInt8} (ys : List UInt8)
    (h : sizeofConnectionHeader ≤ xs.length) : headerOf (xs ++ ys) = headerOf xs := by
  rw [headerOf, headerOf, List.take_append_of_le_length h]

theorem headerOf_write (hdr : ConnectionHeader) (payload : List UInt8) :
    headerOf (hdr.write payload) = hdr := by
  have hlen : (hdr.write []).length = sizeofConnectionHeader := hdr.length_write []
  rw [headerOf, hdr.write_eq, ← hlen, List.take_left, ConnectionHeader.read_write]

/-! ## The PDUs of a stream -/

/-- How many bytes the first PDU of a stream has, by its header. -/
def pduLength (xs : List UInt8) : ℕ := (headerOf xs).length.toNat + sizeofConnectionHeader

/-- Where the first PDU of a stream ends. -/
def cutPdu (xs : List UInt8) : Cut :=
  if xs.length < sizeofConnectionHeader then .more
  else if (headerOf xs).magic ≠ magicNumber then .bad
  else if pduLength xs ≤ xs.length then .record (pduLength xs)
  else .more

theorem cutPdu_record {xs : List UInt8} {n : ℕ} (h : cutPdu xs = .record n) :
    sizeofConnectionHeader ≤ xs.length ∧ (headerOf xs).magic = magicNumber ∧
      pduLength xs = n ∧ n ≤ xs.length := by
  unfold cutPdu at h
  split_ifs at h with hlen hmagic hall
  obtain rfl : pduLength xs = n := by simpa using h
  exact ⟨by omega, by simpa using hmagic, rfl, hall⟩

theorem cutPdu_bad {xs : List UInt8} (h : cutPdu xs = .bad) :
    sizeofConnectionHeader ≤ xs.length ∧ (headerOf xs).magic ≠ magicNumber := by
  unfold cutPdu at h
  split_ifs at h with hlen hmagic hall
  exact ⟨by omega, hmagic⟩

/-- The PDUs of a stream. -/
def pduSplitter : Splitter UInt8 where
  cut := cutPdu
  pos h := by
    obtain ⟨-, -, rfl, -⟩ := cutPdu_record h
    simp [pduLength, sizeofConnectionHeader]
  le_length h := (cutPdu_record h).2.2.2
  record_append ys h := by
    obtain ⟨hlen, hmagic, hn, hle⟩ := cutPdu_record h
    have hpdu := hn
    rw [pduLength] at hpdu
    rw [cutPdu, pduLength, headerOf_append ys hlen, List.length_append, if_neg (by omega),
      if_neg (by simpa using hmagic), hpdu, if_pos (by omega)]
  bad_append ys h := by
    obtain ⟨hlen, hmagic⟩ := cutPdu_bad h
    rw [cutPdu, headerOf_append ys hlen, List.length_append, if_neg (by omega), if_pos hmagic]

@[simp] theorem pduSplitter_cut (xs : List UInt8) : pduSplitter.cut xs = cutPdu xs := rfl

theorem sizeof_le_of_cut {xs : List UInt8} {n : ℕ} (h : pduSplitter.cut xs = .record n) :
    sizeofConnectionHeader ≤ n := by
  obtain ⟨-, -, rfl, -⟩ := cutPdu_record h
  exact Nat.le_add_left _ _

/-- A PDU as the peer writes it: the length field says how long the payload is. -/
structure WrittenPdu where
  version : UInt16
  flags : UInt16
  payload : List UInt8
  fits : payload.length < 2 ^ 32

/-- What `imago_layer_connection_down_transport` and `connection_async_send` send. -/
def WrittenPdu.bytes (p : WrittenPdu) : List UInt8 :=
  ConnectionHeader.write ⟨magicNumber, p.version, p.flags, .ofNat p.payload.length⟩ p.payload

/-- What the peer wrote is cut where it ends. -/
theorem cut_written (p : WrittenPdu) (ys : List UInt8) :
    pduSplitter.cut (p.bytes ++ ys) = .record p.bytes.length := by
  have hfits := p.fits
  have hlen : p.bytes.length = sizeofConnectionHeader + p.payload.length :=
    ConnectionHeader.length_write _ _
  have hhdr : headerOf p.bytes = ⟨magicNumber, p.version, p.flags, .ofNat p.payload.length⟩ :=
    headerOf_write _ _
  have hfield : (UInt32.ofNat p.payload.length).toNat = p.payload.length := by
    rw [UInt32.toNat_ofNat']
    omega
  have hcut : pduSplitter.cut p.bytes = .record p.bytes.length := by
    rw [pduSplitter_cut, cutPdu, pduLength, hhdr, if_neg (by omega), if_neg (by simp),
      if_pos (by simp only [hfield]; omega)]
    simp only [hfield, hlen, Nat.add_comm]
  exact pduSplitter.record_append ys hcut

/-! ## The handler -/

/-- The states of the state machine the connection layer registers. -/
inductive ConnectionState where
  | up
  | down
  | asyncSend
  deriving DecidableEq, Repr

/-- The flag `PDU_FLAG_INCOMING`. -/
def pduFlagIncoming : UInt16 := 0x0001

variable {Addr : Type}

/-- The fields of `con_t` the handler uses. -/
structure Con (Addr : Type) where
  peer : Addr
  localAddr : Addr
  frames : List Frame

/-- A PDU given to the list handler. -/
structure IncomingPdu (Addr : Type) where
  remoteAddr : Addr
  localAddr : Addr
  flags : UInt16
  state : ConnectionState
  frames : List Frame

/-- Whether `pdu_new` and the `frame_new` of `frame_move` succeed in one round of the loop. -/
structure Alloc where
  pdu : Bool
  frame : Bool

/-- What one round of the loop does: leave the loop with these frames kept, give the connection
up, hand a PDU on and go round again with this amount, or never come out. -/
inductive Round (Addr : Type) where
  | unlock (frames : List Frame)
  | free
  | again (pdu : IncomingPdu Addr) (frames : List Frame) (amount : ℤ)
  | stuck

/-- One round of the loop of `SIGIO_handler`, from the label `repeat`. The comparison with
`sizeof` is one of unsigned numbers, and so is the sum that is taken away from `amount`. -/
def round (cid : Con Addr) (amount : ℤ) (a : Alloc) : Round Addr :=
  if amount % 2 ^ 64 < sizeofConnectionHeader then .unlock cid.frames
  else
    match framePeekString cid.frames sizeofConnectionHeader with
    | none => .stuck
    | some bs =>
        let hdr := ConnectionHeader.read bs
        if hdr.magic ≠ magicNumber then .free
        else
          let total : ℕ := hdr.length.toNat + sizeofConnectionHeader
          let amount := wrapInt (amount - total)
          if 0 ≤ amount then
            if a.pdu then
              match frameMove a.frame [] cid.frames (wrapInt total) with
              | none => .stuck
              | some (moved, dlt, slt) =>
                  if moved < 0 then .unlock slt
                  else .again ⟨cid.peer, cid.localAddr, pduFlagIncoming, .up, dlt⟩ slt amount
            else .unlock cid.frames
          else .unlock cid.frames

/-- The loop for one connection, `fuel` rounds at most: what is left of the connection and the
PDUs handed on. `a i` is what the allocations of round `i` do. -/
def rounds : ℕ → (ℕ → Alloc) → Con Addr → ℤ → List (IncomingPdu Addr) →
    Option (Option (Con Addr) × List (IncomingPdu Addr))
  | 0, _, _, _, _ => none
  | fuel + 1, a, cid, amount, handed =>
      match round cid amount (a 0) with
      | .unlock frames => some (some { cid with frames := frames }, handed)
      | .free => some (none, handed)
      | .again pdu frames amount =>
          rounds fuel (fun i => a (i + 1)) { cid with frames := frames } amount (handed ++ [pdu])
      | .stuck => none

/-- What `con_rcv` meets: nothing to read, an error of `recv`, or the bytes `recv` gives, with
the number of frames that can be had for them. -/
inductive Reception where
  | nothing
  | failed
  | bytes (buf : List UInt8) (avail : ℕ)

/-- The bytes that have left the socket. -/
def Reception.data : Reception → List UInt8
  | .bytes buf _ => buf
  | _ => []

/-- `con_rcv`: how much has been received, and the frames of the connection. -/
def conRcv (frames : List Frame) : Reception → ℤ × List Frame
  | .nothing => (0, frames)
  | .failed => (-1, frames)
  | .bytes buf avail =>
      if buf.length = 0 then (0, frames)
      else
        let r := Frames.frameAppendString avail frames buf
        (r.1, r.2.2)

/-- What happens on a connection: a signal finds it locked, a signal finds it free, or it is
closed (`SIGPIPE_handler`, `SIGALRM_cleanup`). -/
inductive SigioEvent where
  | locked
  | io (r : Reception) (a : ℕ → Alloc)
  | close

/-- A connection, while there is one, and the PDUs handed on from it. `received` is all that has
left the socket; no function of the model reads it. -/
structure Link (Addr : Type) where
  con : Option (Con Addr)
  handed : List (IncomingPdu Addr)
  received : List UInt8

/-- `SIGIO_handler` for one connection. -/
def sigioHandler (fuel : ℕ) (s : Link Addr) : SigioEvent → Option (Link Addr)
  | .locked => some s
  | .close => some { s with con := none }
  | .io r a =>
      match s.con with
      | none => some s
      | some cid =>
          let (err, frames) := conRcv cid.frames r
          if err = 0 then some s
          else if err < 0 then some { s with con := none, received := s.received ++ r.data }
          else
            (rounds fuel a { cid with frames := frames } (frameSize frames) s.handed).map
              fun (con, handed) => ⟨con, handed, s.received ++ r.data⟩

/-! ## One round -/

/-- The length fields the loop comes to in a buffer do not make the count wrap: what is there and
the PDU that is announced differ by an `int`. -/
structure LengthsFit (xs : List UInt8) : Prop where
  bounded : xs.length < 2 ^ 31
  field : ∀ rest, pduSplitter.Left xs rest → sizeofConnectionHeader ≤ rest.length →
    (headerOf rest).magic = magicNumber → pduLength rest ≤ rest.length + 2 ^ 31

theorem LengthsFit.drop {xs : List UInt8} {n : ℕ} (h : LengthsFit xs)
    (hc : pduSplitter.cut xs = .record n) : LengthsFit (xs.drop n) := by
  refine ⟨?_, fun rest hrest => h.field rest (.behind hc hrest)⟩
  have hbounded := h.bounded
  rw [List.length_drop]
  omega

variable {cid : Con Addr} {a : Alloc}

/-- A round with the count and the frames in step reads the header at the front. -/
theorem round_eq (hlen : (contents cid.frames).length < 2 ^ 31)
    (hhdr : sizeofConnectionHeader ≤ (contents cid.frames).length) :
    round cid (contents cid.frames).length a =
      if (headerOf (contents cid.frames)).magic ≠ magicNumber then .free
      else if 0 ≤ wrapInt ((contents cid.frames).length - pduLength (contents cid.frames)) then
        if a.pdu then
          match frameMove a.frame [] cid.frames (wrapInt (pduLength (contents cid.frames))) with
          | none => .stuck
          | some (moved, dlt, slt) =>
              if moved < 0 then .unlock slt
              else .again ⟨cid.peer, cid.localAddr, pduFlagIncoming, .up, dlt⟩ slt
                (wrapInt ((contents cid.frames).length - pduLength (contents cid.frames)))
        else .unlock cid.frames
      else .unlock cid.frames := by
  have hcmp : ¬((contents cid.frames).length : ℤ) % 2 ^ 64 < sizeofConnectionHeader := by
    rw [Int.emod_eq_of_lt] <;> omega
  rw [round, if_neg hcmp, framePeekString_eq hhdr]
  rfl

theorem round_more (hfit : LengthsFit (contents cid.frames))
    (hc : pduSplitter.cut (contents cid.frames) = .more) :
    round cid (contents cid.frames).length a = .unlock cid.frames := by
  have hbounded := hfit.bounded
  by_cases hhdr : sizeofConnectionHeader ≤ (contents cid.frames).length
  · rw [pduSplitter_cut, cutPdu, if_neg (by omega)] at hc
    split_ifs at hc with hmagic hall
    have hfield := hfit.field _ (.all _) hhdr (by simpa using hmagic)
    have hwrap : ¬0 ≤ wrapInt ((contents cid.frames).length - pduLength (contents cid.frames)) := by
      rw [wrapInt_of_bounds] <;> omega
    rw [round_eq hbounded hhdr, if_neg hmagic, if_neg hwrap]
  · have hcmp : ((contents cid.frames).length : ℤ) % 2 ^ 64 < sizeofConnectionHeader := by
      rw [Int.emod_eq_of_lt] <;> omega
    rw [round, if_pos hcmp]

theorem round_bad (hfit : LengthsFit (contents cid.frames))
    (hc : pduSplitter.cut (contents cid.frames) = .bad) :
    round cid (contents cid.frames).length a = .free := by
  obtain ⟨hhdr, hmagic⟩ := cutPdu_bad hc
  rw [round_eq hfit.bounded hhdr, if_pos hmagic]

/-- A round that finds a whole PDU comes to the point where it hands it on. -/
theorem round_whole {n : ℕ} (hfit : LengthsFit (contents cid.frames))
    (hc : pduSplitter.cut (contents cid.frames) = .record n) :
    round cid (contents cid.frames).length a =
      if a.pdu then
        match frameMove a.frame [] cid.frames n with
        | none => .stuck
        | some (moved, dlt, slt) =>
            if moved < 0 then .unlock slt
            else .again ⟨cid.peer, cid.localAddr, pduFlagIncoming, .up, dlt⟩ slt
              ((contents cid.frames).length - n)
      else .unlock cid.frames := by
  have hbounded := hfit.bounded
  obtain ⟨hhdr, hmagic, hn, hle⟩ := cutPdu_record hc
  have hcount : wrapInt ((contents cid.frames).length - n) = (contents cid.frames).length - n :=
    wrapInt_of_bounds (by omega) (by omega)
  have htotal : wrapInt n = n := wrapInt_of_bounds (by omega) (by omega)
  rw [round_eq hbounded hhdr, if_neg (by simpa using hmagic), hn, hcount, htotal,
    if_pos (by omega)]

/-- A round that finds a whole PDU and has the memory hands it on. -/
theorem round_hand {n : ℕ} (hfit : LengthsFit (contents cid.frames))
    (hc : pduSplitter.cut (contents cid.frames) = .record n) (hpdu : a.pdu) (hframe : a.frame) :
    ∃ dlt slt, round cid (contents cid.frames).length a =
        .again ⟨cid.peer, cid.localAddr, pduFlagIncoming, .up, dlt⟩ slt (contents slt).length ∧
      contents dlt = (contents cid.frames).take n ∧
      contents slt = (contents cid.frames).drop n := by
  have hle := pduSplitter.le_length hc
  obtain ⟨dlt, slt, hmove, hd, hs⟩ := frameMove_eq [] (pduSplitter.pos hc) hle
  refine ⟨dlt, slt, ?_, by simpa using hd, hs⟩
  have hcount : ((contents slt).length : ℤ) = (contents cid.frames).length - n := by
    rw [hs, List.length_drop]
    omega
  rw [round_whole hfit hc, if_pos hpdu, hframe, hmove, hcount]
  exact if_neg (by omega)

/-- A round that lacks the memory leaves everything where it is. -/
theorem round_shortage {n : ℕ} (hfit : LengthsFit (contents cid.frames))
    (hc : pduSplitter.cut (contents cid.frames) = .record n) (h : ¬(a.pdu ∧ a.frame)) :
    round cid (contents cid.frames).length a = .unlock cid.frames := by
  rw [round_whole hfit hc]
  split_ifs with hpdu
  · have hframe : a.frame = false := by simpa [hpdu] using h
    simp [frameMove, hframe]
  · rfl

/-- **A length field that makes the count wrap catches the handler**: `frame_move` is given a
negative count. -/
theorem round_overlong (hlen : (contents cid.frames).length < 2 ^ 31)
    (hhdr : sizeofConnectionHeader ≤ (contents cid.frames).length)
    (hmagic : (headerOf (contents cid.frames)).magic = magicNumber)
    (hlong : (contents cid.frames).length + 2 ^ 31 < pduLength (contents cid.frames))
    (hword : pduLength (contents cid.frames) < 2 ^ 32) (hpdu : a.pdu) (hframe : a.frame) :
    round cid (contents cid.frames).length a = .stuck := by
  have hwrap : ∀ x : ℤ, -(2 ^ 32) ≤ x → x < -(2 ^ 31) → wrapInt x = x + 2 ^ 32 := fun x h h' => by
    rw [wrapInt, Int.bmod_eq_emod]
    split <;> omega
  have hneg : wrapInt (pduLength (contents cid.frames)) < 0 := by
    rw [wrapInt, Int.bmod_eq_emod]
    split <;> omega
  have hne : cid.frames ≠ [] := by
    rintro hnil
    rw [hnil] at hhdr
    simp [sizeofConnectionHeader] at hhdr
  rw [round_eq hlen hhdr, if_neg (by simpa using hmagic), if_pos (by rw [hwrap] <;> omega),
    if_pos hpdu, hframe, frameMove_neg hneg hne]

/-! ## The loop -/

/-- The bytes of the PDUs handed on. -/
def handedBytes (handed : List (IncomingPdu Addr)) : List (List UInt8) :=
  handed.map fun p => contents p.frames

/-- The bytes kept for the next reception, while there is a connection. -/
def keptBytes (con : Option (Con Addr)) : Option (List UInt8) :=
  con.map fun cid => contents cid.frames

/-- A PDU handed on bears the addresses of its connection, is marked as incoming, and has at least
a header. -/
structure FromCon (peer localAddr : Addr) (p : IncomingPdu Addr) : Prop where
  remoteAddr : p.remoteAddr = peer
  localAddr : p.localAddr = localAddr
  flags : p.flags = pduFlagIncoming
  state : p.state = .up
  header : sizeofConnectionHeader ≤ (contents p.frames).length

/-- What the loop leaves: the records handed on and the tail kept are on track in the stream `xs`,
and no whole PDU is left unless an allocation failed. -/
structure Drained (xs : List UInt8) (peer localAddr : Addr) (con : Option (Con Addr))
    (handed : List (IncomingPdu Addr)) (ample : Prop) : Prop where
  tracks : pduSplitter.Tracks xs (handedBytes handed) (keptBytes con)
  marked : ∀ p ∈ handed, FromCon peer localAddr p
  own : ∀ cid, con = some cid → cid.peer = peer ∧ cid.localAddr = localAddr
  all : ample → ∀ cid, con = some cid → pduSplitter.cut (contents cid.frames) = .more

theorem handedBytes_append (handed : List (IncomingPdu Addr)) (p : IncomingPdu Addr) :
    handedBytes (handed ++ [p]) = handedBytes handed ++ [contents p.frames] := by
  simp [handedBytes]

/-- **The loop drains the buffer**: whatever it returns, it has handed on the first PDUs, in order
and byte for byte, and kept the rest. -/
theorem rounds_spec {xs : List UInt8} {fuel : ℕ} (a : ℕ → Alloc) (cid : Con Addr)
    {handed handed' : List (IncomingPdu Addr)} {con : Option (Con Addr)}
    (hfit : LengthsFit (contents cid.frames))
    (htracks : pduSplitter.Tracks xs (handedBytes handed) (some (contents cid.frames)))
    (hmarked : ∀ p ∈ handed, FromCon cid.peer cid.localAddr p)
    (h : rounds fuel a cid (contents cid.frames).length handed = some (con, handed')) :
    Drained xs cid.peer cid.localAddr con handed' (∀ i, (a i).pdu ∧ (a i).frame) := by
  induction fuel generalizing a cid handed with
  | zero => simp [rounds] at h
  | succ fuel ih =>
    cases hc : pduSplitter.cut (contents cid.frames) with
    | more =>
      rw [rounds, round_more hfit hc] at h
      obtain ⟨rfl, rfl⟩ : some cid = con ∧ handed = handed' := by simpa using h
      exact ⟨htracks, hmarked, by simp, fun _ => by simpa using hc⟩
    | bad =>
      rw [rounds, round_bad hfit hc] at h
      obtain ⟨rfl, rfl⟩ : none = con ∧ handed = handed' := by simpa using h
      exact ⟨htracks.bad hc, hmarked, by simp, by simp⟩
    | record n =>
      by_cases ha : (a 0).pdu ∧ (a 0).frame
      · obtain ⟨dlt, slt, hround, hd, hs⟩ := round_hand hfit hc ha.1 ha.2
        rw [rounds, hround] at h
        have hhand := htracks.hand hc
        rw [← hd, ← hs] at hhand
        have hdlt : sizeofConnectionHeader ≤ (contents dlt).length := by
          have hle := pduSplitter.le_length hc
          have hsize := sizeof_le_of_cut hc
          rw [hd, List.length_take]
          omega
        have hrest := ih (fun i => a (i + 1)) { cid with frames := slt }
          (by rw [hs]; exact hfit.drop hc) (by rw [handedBytes_append]; exact hhand) ?_ h
        · exact ⟨hrest.tracks, hrest.marked, hrest.own,
            fun hall => hrest.all fun i => hall (i + 1)⟩
        · intro p hp
          rcases List.mem_append.1 hp with hp | hp
          · exact hmarked p hp
          · obtain rfl := List.mem_singleton.1 hp
            exact ⟨rfl, rfl, rfl, rfl, hdlt⟩
      · rw [rounds, round_shortage hfit hc ha] at h
        obtain ⟨rfl, rfl⟩ : some cid = con ∧ handed = handed' := by simpa using h
        exact ⟨htracks, hmarked, by simp, fun hall => absurd (hall 0) ha⟩

/-- **The loop ends**: each round but the last consumes a header at least. -/
theorem rounds_returns {fuel : ℕ} (a : ℕ → Alloc) (cid : Con Addr)
    (handed : List (IncomingPdu Addr)) (hfit : LengthsFit (contents cid.frames))
    (hfuel : (contents cid.frames).length / sizeofConnectionHeader < fuel) :
    ∃ out, rounds fuel a cid (contents cid.frames).length handed = some out := by
  induction fuel generalizing a cid handed with
  | zero => exact absurd hfuel (Nat.not_lt_zero _)
  | succ fuel ih =>
    cases hc : pduSplitter.cut (contents cid.frames) with
    | more => exact ⟨_, by rw [rounds, round_more hfit hc]⟩
    | bad => exact ⟨_, by rw [rounds, round_bad hfit hc]⟩
    | record n =>
      by_cases ha : (a 0).pdu ∧ (a 0).frame
      · obtain ⟨dlt, slt, hround, hd, hs⟩ := round_hand hfit hc ha.1 ha.2
        have hless : (contents slt).length / sizeofConnectionHeader < fuel := by
          have hle := pduSplitter.le_length hc
          have hsize := sizeof_le_of_cut hc
          rw [hs, List.length_drop]
          simp only [sizeofConnectionHeader] at hfuel hsize ⊢
          omega
        rw [rounds, hround]
        exact ih _ { cid with frames := slt } _ (by rw [hs]; exact hfit.drop hc) hless
      · exact ⟨_, by rw [rounds, round_shortage hfit hc ha]⟩

/-! ## Runs -/

theorem contents_conRcv {frames : List Frame} {r : Reception} (h : 0 < (conRcv frames r).1) :
    contents (conRcv frames r).2 = contents frames ++ r.data := by
  cases r with
  | nothing => simp [conRcv] at h
  | failed => simp [conRcv] at h
  | bytes buf avail =>
    rw [conRcv] at h ⊢
    split_ifs at h ⊢
    · simp at h
    · exact (Frames.contents_frameAppendString h.not_gt).2

/-- The condition on a step: no length field in what is buffered makes the count wrap. -/
def Fits (s : Link Addr) : SigioEvent → Prop
  | .io r _ => ∀ cid, s.con = some cid → LengthsFit (contents cid.frames ++ r.data)
  | _ => True

/-- How many bytes are buffered once the event has brought its own. -/
def Link.buffered (s : Link Addr) : SigioEvent → ℕ
  | .io r _ => ((keptBytes s.con).getD []).length + r.data.length
  | _ => 0

/-- The states of a connection from its beginning, as long as the lengths fit. -/
inductive Run (peer localAddr : Addr) : Link Addr → Prop
  | start : Run peer localAddr ⟨some ⟨peer, localAddr, []⟩, [], []⟩
  | step {s s' : Link Addr} {ev : SigioEvent} {fuel : ℕ} (hrun : Run peer localAddr s)
      (hfit : Fits s ev) (h : sigioHandler fuel s ev = some s') : Run peer localAddr s'

/-- What a run keeps. -/
structure OnTrack (peer localAddr : Addr) (s : Link Addr) : Prop where
  first : handedBytes s.handed <+: (pduSplitter.drain s.received).1
  tracks : ∀ cid, s.con = some cid →
    pduSplitter.Tracks s.received (handedBytes s.handed) (some (contents cid.frames))
  marked : ∀ p ∈ s.handed, FromCon peer localAddr p
  own : ∀ cid, s.con = some cid → cid.peer = peer ∧ cid.localAddr = localAddr

/-- A state after a reception that had the memory: all whole PDUs are handed on, what is kept is
a part of one, and the connection is closed exactly when a bad header has been met. -/
structure UpToDate (s : Link Addr) : Prop where
  drained : pduSplitter.drain s.received = (handedBytes s.handed, keptBytes s.con)
  closed : s.con = none ↔ ∃ rest, pduSplitter.Left s.received rest ∧ pduSplitter.cut rest = .bad

/-- What the handler does to a connection that received something. -/
theorem sigioHandler_received {s s' : Link Addr} {cid : Con Addr} {r : Reception}
    {a : ℕ → Alloc} {fuel : ℕ} (hcon : s.con = some cid) (hpos : 0 < (conRcv cid.frames r).1)
    (h : sigioHandler fuel s (.io r a) = some s') :
    ∃ frames, contents frames = contents cid.frames ++ r.data ∧
      s'.received = s.received ++ r.data ∧
      ((contents frames).length < 2 ^ 31 →
        rounds fuel a { cid with frames := frames } (contents frames).length s.handed =
          some (s'.con, s'.handed)) := by
  refine ⟨_, contents_conRcv hpos, ?_⟩
  have h0 : (conRcv cid.frames r).1 ≠ 0 := by omega
  have hneg : ¬(conRcv cid.frames r).1 < 0 := by omega
  simp only [sigioHandler, hcon, if_neg h0, if_neg hneg] at h
  obtain ⟨⟨con, handed⟩, hrounds, rfl⟩ := Option.map_eq_some_iff.1 h
  refine ⟨rfl, fun hlen => ?_⟩
  rw [← hrounds, frameSize_eq hlen]

/-- After a reception the loop has drained the buffer. -/
theorem OnTrack.drained {peer localAddr : Addr} {s s' : Link Addr} {cid : Con Addr}
    {r : Reception} {a : ℕ → Alloc} {fuel : ℕ} (hs : OnTrack peer localAddr s)
    (hfit : Fits s (.io r a)) (hcon : s.con = some cid) (hpos : 0 < (conRcv cid.frames r).1)
    (h : sigioHandler fuel s (.io r a) = some s') :
    Drained s'.received peer localAddr s'.con s'.handed (∀ i, (a i).pdu ∧ (a i).frame) := by
  obtain ⟨frames, hframes, hreceived, hrounds⟩ := sigioHandler_received hcon hpos h
  obtain ⟨rfl, rfl⟩ := hs.own cid hcon
  have hlengths : LengthsFit (contents frames) := by
    rw [hframes]
    exact hfit cid hcon
  have htracks := (hs.tracks cid hcon).arrive r.data
  rw [← hreceived, ← hframes] at htracks
  exact rounds_spec a { cid with frames := frames } hlengths htracks hs.marked
    (hrounds hlengths.bounded)

/-- **A step keeps a connection on track.** -/
theorem OnTrack.step {peer localAddr : Addr} {s s' : Link Addr} {ev : SigioEvent} {fuel : ℕ}
    (hs : OnTrack peer localAddr s) (hfit : Fits s ev) (h : sigioHandler fuel s ev = some s') :
    OnTrack peer localAddr s' := by
  cases ev with
  | locked =>
    obtain rfl := Option.some.inj h
    exact hs
  | close =>
    obtain rfl := Option.some.inj h
    exact ⟨hs.first, by simp, hs.marked, by simp⟩
  | io r a =>
    cases hcon : s.con with
    | none =>
      simp only [sigioHandler, hcon] at h
      obtain rfl := Option.some.inj h
      exact hs
    | some cid =>
      rcases lt_trichotomy (conRcv cid.frames r).1 0 with hneg | hzero | hpos
      · simp only [sigioHandler, hcon, if_neg (ne_of_lt hneg), if_pos hneg] at h
        obtain rfl := Option.some.inj h
        exact ⟨hs.first.trans (drain_fst_append _ _), by simp, hs.marked, by simp⟩
      · simp only [sigioHandler, hcon, if_pos hzero] at h
        obtain rfl := Option.some.inj h
        exact hs
      · have hdrained := hs.drained hfit hcon hpos h
        refine ⟨hdrained.tracks.isPrefix, fun cid' hcid' => ?_, hdrained.marked, hdrained.own⟩
        have htracks := hdrained.tracks
        rwa [hcid'] at htracks

theorem OnTrack.of_run {peer localAddr : Addr} {s : Link Addr} (h : Run peer localAddr s) :
    OnTrack peer localAddr s := by
  induction h with
  | start =>
    refine ⟨by simp [handedBytes], fun cid hcid => ?_, by simp, fun cid hcid => ?_⟩
    · obtain rfl := Option.some.inj hcid
      exact Tracks.start pduSplitter
    · obtain rfl := Option.some.inj hcid
      exact ⟨rfl, rfl⟩
  | step _ hfit h ih => exact ih.step hfit h

/-- A reception that has the memory brings the connection up to date. -/
theorem OnTrack.upToDate {peer localAddr : Addr} {s s' : Link Addr} {cid : Con Addr}
    {r : Reception} {a : ℕ → Alloc} {fuel : ℕ} (hs : OnTrack peer localAddr s)
    (hfit : Fits s (.io r a)) (ha : ∀ i, (a i).pdu ∧ (a i).frame) (hcon : s.con = some cid)
    (hpos : 0 < (conRcv cid.frames r).1) (h : sigioHandler fuel s (.io r a) = some s') :
    UpToDate s' := by
  have hdrained := hs.drained hfit hcon hpos h
  have heq : pduSplitter.drain s'.received = (handedBytes s'.handed, keptBytes s'.con) := by
    have htracks := hdrained.tracks
    cases hcon' : s'.con with
    | none =>
      rw [hcon'] at htracks
      simpa [resume, keptBytes] using htracks.1
    | some cid' =>
      rw [hcon'] at htracks
      exact htracks.drain_eq (hdrained.all ha cid' hcon')
  refine ⟨heq, ?_⟩
  rw [← drain_snd_eq_none_iff, heq, keptBytes, Option.map_eq_none_iff]

/-- The handler returns, within one round more than the headers the buffer can hold. -/
theorem sigioHandler_returns {s : Link Addr} {ev : SigioEvent} (hfit : Fits s ev) :
    ∃ s', sigioHandler (s.buffered ev / sizeofConnectionHeader + 1) s ev = some s' := by
  cases ev with
  | locked => exact ⟨s, rfl⟩
  | close => exact ⟨_, rfl⟩
  | io r a =>
    cases hcon : s.con with
    | none => exact ⟨s, by simp [sigioHandler, hcon]⟩
    | some cid =>
      rcases lt_trichotomy (conRcv cid.frames r).1 0 with hneg | hzero | hpos
      · exact ⟨_, by simp only [sigioHandler, hcon, if_neg (ne_of_lt hneg), if_pos hneg]; rfl⟩
      · exact ⟨s, by simp only [sigioHandler, hcon, if_pos hzero]⟩
      · have hframes := contents_conRcv hpos
        have hlengths : LengthsFit (contents (conRcv cid.frames r).2) := by
          rw [hframes]
          exact hfit cid hcon
        have hbuffered : s.buffered (.io r a) = (contents (conRcv cid.frames r).2).length := by
          simp [Link.buffered, keptBytes, hcon, hframes]
        obtain ⟨out, hout⟩ := rounds_returns a { cid with frames := (conRcv cid.frames r).2 }
          s.handed hlengths (Nat.lt_succ_self _)
        have h0 : (conRcv cid.frames r).1 ≠ 0 := by omega
        have hnonneg : ¬(conRcv cid.frames r).1 < 0 := by omega
        simp only [sigioHandler, hcon, if_neg h0, if_neg hnonneg, frameSize_eq hlengths.bounded,
          hbuffered]
        exact ⟨_, by rw [hout]; rfl⟩

theorem cut_map_written (ws : List WrittenPdu) :
    ∀ w ∈ ws.map WrittenPdu.bytes, ∀ ys, pduSplitter.cut (w ++ ys) = .record w.length := by
  intro w hw ys
  obtain ⟨p, -, rfl⟩ := List.mem_map.1 hw
  exact cut_written p ys

theorem cut_nil : pduSplitter.cut [] = .more := by
  simp [cutPdu, sizeofConnectionHeader]

/-- A connection that is up to date with a piece of what the peer wrote has handed on the first
PDUs and keeps a part of the next. -/
theorem UpToDate.written {s : Link Addr} (h : UpToDate s) {ws : List WrittenPdu}
    (hws : s.received <+: (ws.map WrittenPdu.bytes).flatten) :
    handedBytes s.handed <+: ws.map WrittenPdu.bytes ∧
      ∃ kept, keptBytes s.con = some kept ∧ pduSplitter.cut kept = .more ∧
        (handedBytes s.handed).flatten ++ kept = s.received := by
  obtain ⟨hfirst, hne⟩ := drain_of_isPrefix (cut_map_written ws) cut_nil hws
  rw [h.drained] at hfirst hne
  obtain ⟨kept, hkept⟩ := Option.ne_none_iff_exists'.1 hne
  have hsnd : (pduSplitter.drain s.received).2 = some kept := by rw [h.drained, hkept]
  have hall := flatten_drain hsnd
  rw [h.drained] at hall
  exact ⟨hfirst, kept, hkept, cut_of_drain_snd hsnd, hall⟩

/-- A connection that is up to date with all the peer wrote has handed all of it on. -/
theorem UpToDate.written_all {s : Link Addr} (h : UpToDate s) {ws : List WrittenPdu}
    (hws : s.received = (ws.map WrittenPdu.bytes).flatten) :
    handedBytes s.handed = ws.map WrittenPdu.bytes ∧ keptBytes s.con = some [] := by
  have hall := drain_flatten (cut_map_written ws) cut_nil
  rw [← hws, h.drained, Prod.mk.injEq] at hall
  exact hall

/-- **Reassembly does not depend on how the stream is cut.** In every state of a run, the next
signal is handled within a bounded number of rounds. What has been handed on are the first PDUs
of the stream, and the rest is kept. After a reception that had the memory, these are all the
whole PDUs there are; a bad header, and nothing else, has then closed the connection; and of a
stream of written PDUs they are the ones written, in order and byte for byte. -/
theorem reassembles {peer localAddr : Addr} {s : Link Addr} (hrun : Run peer localAddr s) :
    (∀ ev, Fits s ev →
      ∃ s', sigioHandler (s.buffered ev / sizeofConnectionHeader + 1) s ev = some s') ∧
    (∀ p ∈ s.handed, FromCon peer localAddr p) ∧
    handedBytes s.handed <+: (pduSplitter.drain s.received).1 ∧
    (∀ kept, keptBytes s.con = some kept → (handedBytes s.handed).flatten ++ kept = s.received) ∧
    (∀ ws : List WrittenPdu, s.received <+: (ws.map WrittenPdu.bytes).flatten →
      handedBytes s.handed <+: ws.map WrittenPdu.bytes) ∧
    ∀ (cid : Con Addr) (r : Reception) (a : ℕ → Alloc) (fuel : ℕ) (s' : Link Addr),
      Fits s (.io r a) → s.con = some cid → 0 < (conRcv cid.frames r).1 →
      (∀ i, (a i).pdu ∧ (a i).frame) → sigioHandler fuel s (.io r a) = some s' →
      pduSplitter.drain s'.received = (handedBytes s'.handed, keptBytes s'.con) ∧
      (s'.con = none ↔
        ∃ rest, pduSplitter.Left s'.received rest ∧ pduSplitter.cut rest = .bad) ∧
      (∀ ws : List WrittenPdu, s'.received <+: (ws.map WrittenPdu.bytes).flatten →
        handedBytes s'.handed <+: ws.map WrittenPdu.bytes ∧
        ∃ kept, keptBytes s'.con = some kept ∧ pduSplitter.cut kept = .more ∧
          (handedBytes s'.handed).flatten ++ kept = s'.received) ∧
      ∀ ws : List WrittenPdu, s'.received = (ws.map WrittenPdu.bytes).flatten →
        handedBytes s'.handed = ws.map WrittenPdu.bytes ∧ keptBytes s'.con = some [] := by
  have hs := OnTrack.of_run hrun
  refine ⟨fun ev hfit => sigioHandler_returns hfit, hs.marked, hs.first, ?_, ?_, ?_⟩
  · intro kept hkept
    obtain ⟨cid, hcid, rfl⟩ := Option.map_eq_some_iff.1 hkept
    exact (hs.tracks cid hcid).2 _ rfl
  · intro ws hws
    exact hs.first.trans (drain_of_isPrefix (cut_map_written ws) cut_nil hws).1
  · intro cid r a fuel s' hfit hcon hpos ha h
    have hup := hs.upToDate hfit ha hcon hpos h
    exact ⟨hup.drained, hup.closed, fun ws hws => hup.written hws,
      fun ws hws => hup.written_all hws⟩

/-- A PDU with a payload of one byte. -/
def shortPdu : WrittenPdu := ⟨0x0100, 0x8000, [7], by decide⟩

theorem shortPdu_fits : LengthsFit shortPdu.bytes := by
  have hcut : pduSplitter.cut shortPdu.bytes = .record 13 := by decide +kernel
  have hrest : pduSplitter.cut (shortPdu.bytes.drop 13) = .more := by decide +kernel
  refine ⟨by decide +kernel, fun rest hleft hlen _ => ?_⟩
  cases hleft with
  | all => decide +kernel
  | behind hc hleft =>
    obtain rfl := Cut.record.inj (hcut.symm.trans hc)
    cases hleft with
    | all => exact absurd hlen (by decide +kernel)
    | behind hc _ => exact absurd (hrest.symm.trans hc) (by simp)

/-- A connection that has just been accepted. -/
def accepted : Link Unit := ⟨some ⟨(), (), []⟩, [], []⟩

theorem reassembles_shortPdu : ∃ s', Run () () s' ∧
    sigioHandler 2 accepted (.io (.bytes shortPdu.bytes 1) fun _ => ⟨true, true⟩) = some s' ∧
    handedBytes s'.handed = [shortPdu.bytes] ∧ keptBytes s'.con = some [] := by
  have hfit : Fits accepted (.io (.bytes shortPdu.bytes 1) fun _ => ⟨true, true⟩) := by
    intro cid hcid
    obtain rfl := Option.some.inj hcid
    exact shortPdu_fits
  obtain ⟨hreturns, -, -, -, -, hcurrent⟩ := reassembles (s := accepted) .start
  obtain ⟨s', hs'⟩ := hreturns _ hfit
  have hpos : 0 < (conRcv [] (.bytes shortPdu.bytes 1)).1 := by decide +kernel
  have hreceived : s'.received = ([shortPdu].map WrittenPdu.bytes).flatten := by
    obtain ⟨_, _, hreceived, -⟩ := sigioHandler_received rfl hpos hs'
    rw [hreceived]
    rfl
  obtain ⟨-, -, -, hall⟩ := hcurrent _ _ _ _ s' hfit rfl hpos (by simp) hs'
  exact ⟨s', .step .start hfit hs', hs', (hall [shortPdu] hreceived).1,
    (hall [shortPdu] hreceived).2⟩

/-- A header that announces 2^32 - 16 bytes. -/
def overlongHeader : List UInt8 :=
  ConnectionHeader.write ⟨magicNumber, 0x0100, 0x8000, 0xfffffff0⟩ []

def overlongFrame : Frame := ⟨overlongHeader, by decide +kernel⟩

/-- **One header catches the handler for ever**: with the header, the announced PDU has -4 bytes
for `frame_move`. -/
theorem sigioHandler_overlong : Run () () accepted ∧ ∀ fuel,
    sigioHandler fuel accepted (.io (.bytes overlongHeader 1) fun _ => ⟨true, true⟩) = none := by
  refine ⟨.start, fun fuel => ?_⟩
  have happend : Frames.frameAppendString 1 [] overlongHeader = (12, 0, [overlongFrame]) := by
    decide +kernel
  have hsize : frameSize [overlongFrame] = (contents [overlongFrame]).length := by decide +kernel
  have hround : round (⟨(), (), [overlongFrame]⟩ : Con Unit) (contents [overlongFrame]).length
      ⟨true, true⟩ = .stuck :=
    round_overlong (by decide +kernel) (by decide +kernel) (by decide +kernel)
      (by decide +kernel) (by decide +kernel) rfl rfl
  have hrounds : rounds fuel (fun _ => ⟨true, true⟩) (⟨(), (), [overlongFrame]⟩ : Con Unit)
      (frameSize [overlongFrame]) [] = none := by
    cases fuel with
    | zero => rfl
    | succ fuel => rw [hsize, rounds, hround]
  have hlen : overlongHeader.length = 12 := by decide +kernel
  simp [sigioHandler, accepted, conRcv, happend, hlen, hrounds]

end Mlvm.Transport
