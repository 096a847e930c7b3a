import Mlvm.Frames.Bytes

/-!
# The routing layer

`imago_layer_routing.c`: a PDU carries the names of its destination and of its source and a **TTL**
in front of its data. A router that takes a PDU in reads this header, hands the PDU to the layer
above when the destination is one of its own names, and otherwise counts the TTL down and writes
the header again.

**Names.** The two names are read into arrays of `MAX_DNS_NAME_SIZE` bytes. A name that is longer
fills its array and has no zero byte there; what the C library does with such an array is not
defined (`Down.fault`): it goes on with what is behind the array.

**Aliases.** A host that cannot resolve its own name has no list of aliases, not even an empty one.
It reads the list all the same when a PDU is not for its `hostname`, and that is its end
(`Up.crash`).
-/

namespace Mlvm.Routing

open Transport (Frame contents)
open Frames

/-- `MAX_DNS_NAME_SIZE`. -/
def maxDnsNameSize : ℕ := 80

/-- A name that fits its array together with the zero byte. -/
structure Name where
  chars : List UInt8
  nonzero : 0 ∉ chars
  short : chars.length < maxDnsNameSize

/-- A name as it stands in its array. -/
def Name.array (n : Name) : List UInt8 := n.chars ++ [0]

/-- What a router goes by: `hostname` and `hostname_aliases`, which can be `NULL`. -/
structure Host where
  hostname : Name
  aliases : Option (List Name)

def Host.names (us : Host) : List Name := us.hostname :: us.aliases.getD []

/-- `tolower`. -/
def toLower (c : UInt8) : UInt8 := if 65 ≤ c ∧ c ≤ 90 then c + 32 else c

/-- `!strncasecmp(a, b, strlen(a))`, for the bytes `b` of an array. -/
def strncasecmpEq (a : Name) (b : List UInt8) : Bool :=
  (a.chars.map toLower).isPrefixOf (b.map toLower)

/-- A PDU in this layer. The two arrays are the bytes that have been stored in them. -/
structure Pdu where
  destinationServer : List UInt8
  sourceServer : List UInt8
  ttl : UInt8
  frames : List Frame

/-! ## Incoming PDUs -/

/-- The part of `imago_layer_routing_up` that reads the header. Reading a text never fails. -/
def readHeader (frames : List Frame) : Option Pdu :=
  let d := Frames.frameReadText frames maxDnsNameSize
  if d.1 < 0 then none
  else
    let s := Frames.frameReadText d.2.2 maxDnsNameSize
    if s.1 < 0 then none
    else
      let t := Frames.frameReadString s.2.2 1
      if t.1 = 1 then some ⟨d.2.1, s.2.1, t.2.1.headD 0, t.2.2⟩ else none

/-- One of the names of the host begins the array. -/
def Host.known (us : Host) (destination : List UInt8) : Bool :=
  us.names.any fun n => strncasecmpEq n destination

/-- Where a PDU goes from `imago_layer_routing_up`. -/
inductive Up where
  | security (p : Pdu)
  | down (p : Pdu)
  | freed
  /-- The list of aliases is read through `NULL`. -/
  | crash

/-- `imago_layer_routing_up`, for a PDU that is not in error. -/
def routingUp (us : Host) (frames : List Frame) : Up :=
  match readHeader frames with
  | none => .freed
  | some p =>
    if strncasecmpEq us.hostname p.destinationServer then .security p
    else
      match us.aliases with
      | none => .crash
      | some aliases =>
        if aliases.any fun n => strncasecmpEq n p.destinationServer then .security p
        else if p.ttl = 0 then .freed
        else .down { p with ttl := p.ttl - 1 }

/-! ## Outgoing PDUs -/

/-- The text in an array, if there is a zero byte in it. -/
def cString (bs : List UInt8) : Option (List UInt8) :=
  if 0 ∈ bs then some (bs.takeWhile fun b => !decide (b = 0)) else none

/-- Where a PDU goes from `imago_layer_routing_down`. -/
inductive Down where
  | connection (frames : List Frame)
  /-- The host is not found or a frame cannot be had: the PDU is freed, or handed back to the layer
  above when it is from here. -/
  | refused
  /-- A string function has been given an array without a zero byte. -/
  | fault

/-- Set the source and the TTL, unless the PDU is forwarded. -/
def stamp (us : Host) (forwarding : Bool) (p : Pdu) : Pdu :=
  if forwarding then p else { p with sourceServer := us.hostname.array, ttl := 255 }

/-- `pdu_write_text` of an array, and what comes after it. -/
def writeText (avail : ℕ) (lt : List Frame) (array : List UInt8)
    (next : ℕ → List Frame → Down) : Down :=
  match cString array with
  | none => .fault
  | some te =>
    let r := Frames.frameWriteString avail lt (te ++ [0])
    if r.1 < 0 then .refused else next r.2.1 r.2.2

/-- `imago_layer_routing_down`. `resolve` says whether there is a route to a server, and `avail`
how many frames can be had. -/
def routingDown (us : Host) (forwarding : Bool) (resolve : List UInt8 → Bool) (avail : ℕ)
    (p : Pdu) : Down :=
  let p := stamp us forwarding p
  match cString p.destinationServer with
  | none => .fault
  | some d =>
    if resolve d then
      let r := Frames.frameWriteString avail p.frames [p.ttl]
      if r.1 < 0 then .refused
      else
        writeText r.2.1 r.2.2 p.sourceServer fun avail lt =>
          writeText avail lt p.destinationServer fun _ lt => .connection lt
    else .refused

end Mlvm.Routing
