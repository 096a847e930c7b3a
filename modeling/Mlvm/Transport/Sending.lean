import Mlvm.Connections.Table
import Mlvm.Frames.Operations
import Mlvm.Transport.Reassembly

/-!
# Sending PDUs over TCP

The sending end of `imago_layer_connection.c`. A PDU that goes out locks a connection to its host,
or makes a new one, puts its **header** there, and then goes on in a state of its own
(`connection_async_send`) that puts the **body** there, as much at a time as the socket takes. When
it takes nothing, the PDU is parked in `waiting_to_send` until `SIGIO_handler` hands it back. A
small control PDU goes over an open connection in one `send`, and over UDP otherwise.

A run interleaves the steps of the PDUs with those of the signal handlers, which lock connections
too and may close them. Each call of `send` and `write` gives what the socket gives: an error, or
the number of bytes it has taken.

`log`, `records` and the `stream` of a PDU are no data of the program. Connections get numbers, and
`log` says which PDUs have been put whole on which of them.
-/

namespace Mlvm.Sending

open Connections (Table SockAddr lookupCon conNew conTrylock conUnlock conFree)
open Transport (Frame contents frameSize wrapInt ConnectionHeader magicNumber)
open Frames (frameErase)

/-! ## PDUs -/

/-- Where a PDU is. -/
inductive Place where
  | down
  | async
  | waiting
  deriving DecidableEq

/-- `PDU_TYPE_SITP`. -/
def pduTypeSitp : UInt16 := 0x8000

/-- `PDU_ERROR`. -/
def pduError : UInt16 := 0x0010

/-- `PDU_FLAG_FORWARDING`. -/
def pduFlagForwarding : UInt16 := 0x0002

/-- `PDU_FLAG_RESERVED`. -/
def pduFlagReserved : UInt16 := 0x00ff

/-- `IMAGO_TRANSPORT_SITP_VERSION`. -/
def sitpVersion : UInt16 := 0x0102

/-- `IMAGO_TRANSPORT_SICP_VERSION`. -/
def sicpVersion : UInt16 := 0x0102

/-- `UDP_MTU`. -/
def udpMtu : ℕ := 1024

/-- `pdu_error_t`, as far as this layer sets it. -/
inductive PduErrno where
  | success
  | connrefused
  deriving DecidableEq

/-- A PDU in this layer; `stream` is the number of the connection it was given last. -/
structure Pdu where
  flags : UInt16
  errno : PduErrno
  remoteAddr : SockAddr
  frames : List Frame
  cId : Option ℕ
  cTotal : ℤ
  place : Place
  stream : Option ℕ

/-- `pdu_size`, an `unsigned int`. -/
def pduSize (frames : List Frame) : ℕ := (frameSize frames % 2 ^ 32).toNat

/-- The header that goes before a PDU. -/
def header (flags : UInt16) (frames : List Frame) : ConnectionHeader where
  magic := magicNumber
  version := if flags &&& pduTypeSitp ≠ 0 then sitpVersion else sicpVersion
  flags := flags &&& ~~~pduFlagReserved
  length := UInt32.ofNat (pduSize frames)

/-- The complete record of a PDU. -/
def record (flags : UInt16) (frames : List Frame) : List UInt8 :=
  (header flags frames).write (contents frames)

/-! ## Frames -/

/-- The inner loop of `frame_send`: the bytes put, whether all were, and the results that are left.
A `write` that has no result fails. -/
def writeAll : List UInt8 → List (Option ℕ) → List UInt8 × Bool × List (Option ℕ)
  | _, [] => ([], false, [])
  | _, none :: rs => ([], false, rs)
  | bs, some k :: rs =>
    if k < bs.length then
      let r := writeAll (bs.drop k) rs
      (bs.take k ++ r.1, r.2)
    else (bs, true, rs)

/-- The bytes `frame_send` puts; it returns how many. -/
def frameSend : List Frame → List (Option ℕ) → List UInt8
  | [], _ => []
  | f :: lt, rs =>
    let r := writeAll f.bytes rs
    if r.2.1 then r.1 ++ frameSend lt r.2.2 else r.1

/-! ## Connections and PDUs -/

/-- The connection table, the connections by their numbers with the bytes put on them and whether
they have failed for good, the slots that a signal handler has locked, and the PDUs that are under
way or have been returned with an error. -/
structure State where
  table : Table
  conn : ℕ → ℕ
  fresh : ℕ
  out : ℕ → List UInt8
  failed : ℕ → Bool
  held : ℕ → Bool
  pdus : ℕ → Option Pdu
  next : ℕ
  returned : List (ℕ × Pdu)
  log : List (ℕ × ℕ)
  records : ℕ → List UInt8

def State.init : State where
  table := fun _ => ⟨.free, ⟨0, 0⟩⟩
  conn := fun _ => 0
  fresh := 0
  out := fun _ => []
  failed := fun _ => false
  held := fun _ => false
  pdus := fun _ => none
  next := 0
  returned := []
  log := []
  records := fun _ => []

/-- Bytes go to the socket of a slot. -/
def State.put (s : State) (c : ℕ) (bs : List UInt8) : State :=
  { s with out := Function.update s.out (s.conn c) (s.out (s.conn c) ++ bs) }

def State.setPdu (s : State) (p : ℕ) (pdu : Option Pdu) : State :=
  { s with pdus := Function.update s.pdus p pdu }

/-- A slot has got a new socket. -/
def State.open (s : State) (c : ℕ) : State :=
  { s with conn := Function.update s.conn c s.fresh, fresh := s.fresh + 1 }

/-- The end of `imago_layer_connection_down_transport` at `error`. -/
def State.refuse (s : State) (p : ℕ) (pdu : Pdu) : State :=
  if pdu.flags &&& pduFlagForwarding ≠ 0 then s.setPdu p none
  else { s.setPdu p none with
    returned := s.returned ++
      [(p, { pdu with flags := pdu.flags ||| pduError, errno := .connrefused })] }

/-- `imago_layer_connection_down_transport` with a connection: `r` is what `send` gives. -/
def State.sendHeader (s : State) (p : ℕ) (pdu : Pdu) (c : ℕ) (r : Option ℕ) : State :=
  let pdu := { pdu with
    cId := some c
    cTotal := pduSize pdu.frames
    stream := some (s.conn c) }
  match r with
  | none => { s with table := (conUnlock s.table c).2 }.setPdu p (some pdu)
  | some k => (s.put c (((header pdu.flags pdu.frames).write []).take k)).setPdu p
      (some { pdu with place := .async })

/-- `imago_layer_connection_down_transport`: `connect` is whether a connection can be made. -/
def State.downTransport (s : State) (max p : ℕ) (pdu : Pdu) (connect : Bool) (r : Option ℕ) :
    State :=
  match lookupCon s.table max pdu.remoteAddr with
  | (some c, t) => { s with table := t }.sendHeader p pdu c r
  | (none, t) =>
    match conNew t max pdu.remoteAddr with
    | (none, t) => { s with table := t }.refuse p pdu
    | (some c, t) =>
      if connect then ({ s with table := t }.open c).sendHeader p pdu c r
      else { s with table := conFree t c }.refuse p pdu

/-- `imago_layer_connection_down_control`. -/
def State.downControl (s : State) (max p : ℕ) (pdu : Pdu) (r : Option ℕ) : State :=
  match lookupCon s.table max pdu.remoteAddr with
  | (none, t) => { s with table := t }.setPdu p none
  | (some c, t) =>
    let buf := record pdu.flags pdu.frames
    let s' := { s with table := (conUnlock t c).2 }.setPdu p none
    match r with
    | none => s'
    | some k =>
      { s'.put c (buf.take k) with
        log := if buf.length ≤ k then s.log ++ [(s.conn c, p)] else s.log }

/-- A PDU is a control PDU that is small enough for UDP. -/
def Pdu.control (pdu : Pdu) : Bool :=
  pdu.flags &&& pduTypeSitp = 0 ∧ pduSize pdu.frames < udpMtu

/-- `imago_layer_connection_down`. -/
def State.down (s : State) (max p : ℕ) (pdu : Pdu) (connect : Bool) (r : Option ℕ) : State :=
  if pdu.control then s.downControl max p pdu r else s.downTransport max p pdu connect r

/-- `connection_async_send`. -/
def State.asyncSend (s : State) (p : ℕ) (pdu : Pdu) (c : ℕ) (rs : List (Option ℕ)) : State :=
  let sent := frameSend pdu.frames rs
  let count := wrapInt sent.length
  let pdu := { pdu with
    frames := (frameErase pdu.frames count.toNat).2
    cTotal := pdu.cTotal - count }
  let s := s.put c sent
  if 0 < pdu.cTotal then
    s.setPdu p (some { pdu with place := if count = 0 then .waiting else .async })
  else
    { s.setPdu p none with
      table := (conUnlock s.table c).2
      log := s.log ++ [(s.conn c, p)] }

/-- A PDU that comes back from `waiting_to_send`. -/
def Pdu.wake (pdu : Pdu) : Pdu :=
  { pdu with place := if pdu.place = .waiting then .async else pdu.place }

/-- A new connection is accepted. -/
def State.accept (s : State) (max : ℕ) (addr : SockAddr) : State :=
  match conNew s.table max addr with
  | (none, t) => { s with table := t }
  | (some c, t) => { s.open c with table := (conUnlock t c).2 }

/-! ## Runs -/

inductive Op where
  | submit (flags : UInt16) (addr : SockAddr) (frames : List Frame)
  | down (p : ℕ) (connect : Bool) (r : Option ℕ)
  | async (p : ℕ) (rs : List (Option ℕ))
  | sigio
  | hold (c : ℕ)
  | release (c : ℕ)
  | close (c : ℕ)
  | accept (addr : SockAddr)
  | fail (c : ℕ)

/-- The PDU whose step it is. -/
def Op.pdu : Op → Option ℕ
  | .down p _ _ => some p
  | .async p _ => some p
  | _ => none

/-- The connection that `imago_layer_connection_down` is about to use has failed. -/
def State.Broken (s : State) (max : ℕ) (pdu : Pdu) : Prop :=
  ∃ c, (lookupCon s.table max pdu.remoteAddr).1 = some c ∧ s.failed (s.conn c) = true

/-- The steps. Nothing can be sent on a connection that has failed. Signal handlers lock a
connection, and unlock or close it. -/
inductive Step (max : ℕ) (s : State) : Op → State → Prop
  | submit (flags : UInt16) (addr : SockAddr) (frames : List Frame) :
      Step max s (.submit flags addr frames)
        { s.setPdu s.next (some ⟨flags, .success, addr, frames, none, 0, .down, none⟩) with
          next := s.next + 1
          records := Function.update s.records s.next (record flags frames) }
  | down {p : ℕ} {pdu : Pdu} (connect : Bool) (r : Option ℕ) (run : s.pdus p = some pdu)
      (place : pdu.place = .down) (fails : s.Broken max pdu → r = none) :
      Step max s (.down p connect r) (s.down max p pdu connect r)
  | async {p c : ℕ} {pdu : Pdu} (rs : List (Option ℕ)) (run : s.pdus p = some pdu)
      (place : pdu.place = .async) (con : pdu.cId = some c)
      (fails : s.failed (s.conn c) = true → rs = []) :
      Step max s (.async p rs) (s.asyncSend p pdu c rs)
  | sigio : Step max s .sigio { s with pdus := fun p => (s.pdus p).map Pdu.wake }
  | hold {c : ℕ} (lock : (conTrylock s.table c).1 = true) : Step max s (.hold c)
      { s with table := (conTrylock s.table c).2, held := Function.update s.held c true }
  | release {c : ℕ} (held : s.held c = true) : Step max s (.release c)
      { s with table := (conUnlock s.table c).2, held := Function.update s.held c false }
  | close {c : ℕ} (held : s.held c = true) : Step max s (.close c)
      { s with table := conFree s.table c, held := Function.update s.held c false }
  | accept (addr : SockAddr) : Step max s (.accept addr) (s.accept max addr)
  | fail {c : ℕ} (used : (s.table c).status ≠ .free) : Step max s (.fail c)
      { s with failed := Function.update s.failed (s.conn c) true }

/-- What can be reached by steps that meet a condition. -/
inductive Reaches (max : ℕ) (ok : State → Op → Prop) : State → Prop
  | init : Reaches max ok State.init
  | step {s s' : State} {op : Op} : Reaches max ok s → ok s op → Step max s op s' →
      Reaches max ok s'

/-- Runs with so many steps of a PDU. -/
inductive Within (max p : ℕ) (s : State) : ℕ → State → Prop
  | refl : Within max p s 0 s
  | own {k : ℕ} {s' s'' : State} {op : Op} : Within max p s k s' → Step max s' op s'' →
      op.pdu = some p → Within max p s (k + 1) s''
  | other {k : ℕ} {s' s'' : State} {op : Op} : Within max p s k s' → Step max s' op s'' →
      op.pdu ≠ some p → Within max p s k s''

/-! ## What is promised -/

/-- PDU `p` is being sent on the connection in slot `c`. -/
def Sends (s : State) (p c : ℕ) : Prop :=
  ∃ pdu, s.pdus p = some pdu ∧ pdu.place ≠ .down ∧ pdu.cId = some c

/-- The records that have been put on a connection. -/
def logged (s : State) (n : ℕ) : List UInt8 :=
  ((s.log.filter fun e => e.1 = n).map fun e => s.records e.2).flatten

/-- What is on a connection is complete records, and as much of the record of the one PDU that is
being sent as this has put there; each PDU is sent once. -/
structure Whole (s : State) : Prop where
  whole : ∀ n, (∀ p c, Sends s p c → s.conn c ≠ n) → s.out n = logged s n
  part : ∀ p pdu c, s.pdus p = some pdu → pdu.place ≠ .down → pdu.cId = some c →
    ∃ part, s.out (s.conn c) = logged s (s.conn c) ++ part ∧
      part ++ contents pdu.frames = s.records p
  alone : ∀ p q c d, Sends s p c → Sends s q d → s.conn c = s.conn d → p = q
  once : (s.log.map Prod.snd).Nodup ∧ ∀ e ∈ s.log, s.pdus e.2 = none

/-- Whoever has locked a connection still works on it. -/
def Released (s : State) : Prop :=
  ∀ c, (s.table c).status = .locked → s.held c = true ∨ ∃ p, Sends s p c

/-- After finitely many of its own steps the PDU is no longer in this layer. -/
def GivesUp (max : ℕ) (s : State) (p : ℕ) : Prop :=
  ∃ b, ∀ k s', Within max p s k s' → b ≤ k → s'.pdus p = none

/-- The connection that the PDU was given has failed for good. -/
def OnFailed (s : State) (p : ℕ) : Prop :=
  ∃ pdu n, s.pdus p = some pdu ∧ pdu.stream = some n ∧ s.failed n = true

/-- A header or a control PDU is taken by the socket as a whole or not at all, and no connection
fails while a PDU that it was given has still bytes to send. -/
def Sound (max : ℕ) (s : State) : Op → Prop
  | .submit _ _ frames => (contents frames).length < 2 ^ 31
  | .down p _ r => ∀ pdu, s.pdus p = some pdu →
      (∀ k, r = some k → if pdu.control then (record pdu.flags pdu.frames).length ≤ k
        else Transport.sizeofConnectionHeader ≤ k) ∧
      (pdu.control = false → ¬ s.Broken max pdu)
  | .fail c => ∀ p pdu, s.pdus p = some pdu → pdu.stream = some (s.conn c) →
      pdu.place ≠ .down ∧ pdu.cTotal ≤ 0
  | _ => True

end Mlvm.Sending
