import Mlvm.Ownership.Ledger
import Mlvm.Transport.Pdu

/-!
# The handlers of the protocol stack

`transport_run` takes one PDU from the queue, calls the handler of its state, and puts the PDU
back when the handler returns the id of a state. Each of the six layers has a handler for the way
up and one for the way down, and the connection layer a third one that sends.

**What a step does** (`Event`). A handler returns the calls it makes that concern a PDU, a slot
of the key store or `host_key_lock`, in order, and the state it returns. The last event of a step
is added by `transport_run`.

**What a step meets** (`Outcomes`). Every call that may fail is answered by `ok`; what is read
from the frames of an incoming PDU and what the rest of the server holds are the other fields.

**Undefined behaviour.** Lengths come from the frames unchecked, so a handler goes on in order only
while they suit its buffers (`Bound`, answered by `within`). Past a bound, or at a null pointer, the
trace of the step has an event that no ledger allows. A name that fills its field is read on into
the fields behind it; nothing here depends on its characters.

Main definitions: one function for each handler, `handler` and `transportRun`.
-/

namespace Mlvm.Stack

open Mlvm.Ownership
open Mlvm.Transport (PduError)

/-! ## States -/

inductive StateId where
  | connectionUp | connectionDown | asyncSend
  | routingUp | routingDown
  | securityUp | securityDown
  | adaUp | adaDown
  | marshalingUp | marshalingDown
  | protocolUp | protocolDown
  deriving DecidableEq, Repr

/-- `state_machine_table`, in the order in which `transport_init` registers. -/
def stateTable : List StateId :=
  [.connectionUp, .connectionDown, .asyncSend, .routingUp, .routingDown, .securityUp,
    .securityDown, .adaUp, .adaDown, .marshalingUp, .marshalingDown, .protocolUp, .protocolDown]

/-- The `state_id_t` that `state_machine_register` returned. -/
def StateId.id (s : StateId) : ℕ := stateTable.idxOf s

/-- The layer of a state, counted from the network. -/
def StateId.level : StateId → ℕ
  | .connectionUp | .connectionDown | .asyncSend => 0
  | .routingUp | .routingDown => 1
  | .securityUp | .securityDown => 2
  | .adaUp | .adaDown => 3
  | .marshalingUp | .marshalingDown => 4
  | .protocolUp | .protocolDown => 5

def StateId.up : StateId → Bool
  | .connectionUp | .routingUp | .securityUp | .adaUp | .marshalingUp | .protocolUp => true
  | _ => false

/-! ## PDUs -/

def pduTypeSitp : BitVec 16 := 0x8000
def pduError : BitVec 16 := 0x0010
def pduFlagForwarding : BitVec 16 := 0x0002

/-- A layer that writes to the frames of a PDU on its way down. -/
inductive Layer where
  | connection | routing | security | rendezvous | marshaling
  deriving DecidableEq, Repr

/-- The status of an imago in its control block. -/
inductive Status where
  | moveOut | moveIn | error
  deriving DecidableEq, Repr

/-- The fields of `struct pdu_str` the handlers use. `icb` is the status of the imago behind
`icb_ptr`, and `frames` has one entry for each write of this server to the frames, the last one
first: the bytes of an entry stand in front of those of the entries behind it. -/
structure Pdu where
  state : StateId
  flags : BitVec 16
  errno : PduError
  eLayer : StateId
  icb : Option Status
  genid : BitVec 16
  adaType : BitVec 16
  ttl : BitVec 8
  cTotal : ℤ
  frames : List Layer
  deriving DecidableEq, Repr

/-- `pdu_new` with its state set. -/
def pduNew (s : StateId) : Pdu where
  state := s
  flags := pduTypeSitp
  errno := .success
  eLayer := .connectionUp
  icb := none
  genid := 0
  adaType := 0
  ttl := 0
  cTotal := 0
  frames := []

namespace Pdu

def sitp (p : Pdu) : Bool := p.flags &&& pduTypeSitp != 0
def failed (p : Pdu) : Bool := p.flags &&& pduError != 0
def forwarding (p : Pdu) : Bool := p.flags &&& pduFlagForwarding != 0

/-- The error exit of a handler on the way down: the flag, the error and where it happened. -/
def fail (p : Pdu) (e : PduError) (l : StateId) : Pdu :=
  { p with flags := p.flags ||| pduError, errno := e, eLayer := l }

/-- `pdu_set_state`. -/
def setState (p : Pdu) (s : StateId) : Pdu := { p with state := s }

/-- `n` writes of a layer. -/
def push (p : Pdu) (l : Layer) (n : ℕ) : Pdu :=
  { p with frames := .replicate n l ++ p.frames }

end Pdu

/-- A PDU in the backup: `backup_save` is only called for one that has not failed. -/
structure Stored where
  pdu : Pdu
  unfailed : pdu.failed = false

/-! ## What a step meets -/

/-- The fields of the host key that are put into a PDU, in `rsa_host_key_send`. -/
inductive KeyField where
  | dsaPubKey | dsaG | dsaQ | dsaP | rsaE | rsaN | reqid | cipherMask | flags
  deriving DecidableEq, Repr

/-- Whether `host_key_lock` is held while the field is put. -/
def KeyField.locked : KeyField → Bool
  | .reqid | .flags => false
  | _ => true

/-- The calls that may fail, or that answer yes or no. A handler makes each of them once. -/
inductive Call where
  | pduNew | icbNew | malloc
  | keyNew | keyNewKnown | loadKey | openKnownHosts | sameKey | rsaNew | dsaNew | getBignum (n : ℕ)
  | backupSave | backupLoad
  | write (n : ℕ) | controlWrite (n : ℕ) | hostKeyWrite (f : KeyField) | read (n : ℕ)
  | encrypt | rsaPublicEncrypt | dsaSign | encryptSign | rsaPrivateDecrypt | verify | decrypt
  | resolveRoute | lookupCon | makeCon | sendHeader | udpSocket | udpConnect
  deriving DecidableEq, Repr

/-- What the code takes for granted about the lengths in the frames. -/
inductive Bound where
  /-- The length of the session key is there and positive, as an array needs it. -/
  | keyLength
  /-- The decrypted session key fits the array of this length. -/
  | keyText
  /-- It has the 32 bytes that are used. -/
  | keyWhole
  | signatureLength
  | signatureText
  /-- The length of a number in `get_bignum` is there and positive. -/
  | bignum (n : ℕ)
  /-- The three segments of an imago, and what its pointers lead to, lie in the new block. -/
  | segments
  deriving DecidableEq, Repr

/-- `struct connection_header`. -/
structure ConnectionHeader where
  magic : BitVec 32
  version : BitVec 16
  flags : BitVec 16
  deriving DecidableEq, Repr

def magicNumber : BitVec 32 := 0x01234567
def sitpVersion : BitVec 16 := 0x0102
def sicpVersion : BitVec 16 := 0x0102

/-- How the server was built: `IMAGO_SECURITY_ENABLED` and `IMAGO_SIGN_ENABLED`. -/
structure Config where
  security : Bool
  sign : Bool

/-- What a step meets. The header fields are those in the frames of an incoming PDU, `size` is
its `pdu_size` and `sent` what `pdu_send_frame` returns; `destDsa` says whether the key that was
loaded has a DSA part, `blockBounds` whether the bounds of the imago block are in order,
`forHostname` whether the destination is the name of this server, `forAlias` whether it is one of
`hostname_aliases`, if `gethostbyname` has left a list, `handler` whether a receive handler is
registered. -/
structure Outcomes where
  ok : Call → Bool
  within : Bound → Bool
  hdr : ConnectionHeader
  secFlags : BitVec 8
  genid : BitVec 16
  adaType : BitVec 16
  ttl : BitVec 8
  blockBounds : Bool
  forHostname : Bool
  forAlias : Option Bool
  size : ℕ
  sent : ℕ
  destDsa : Bool
  generation : BitVec 16
  shutdown : Bool
  handler : Bool
  backup : Stored

/-- How many of a row of calls succeed before the first that fails. -/
def Outcomes.done (o : Outcomes) (calls : List Call) : ℕ := (calls.takeWhile o.ok).length

/-! ## What a step does -/

/-- The PDUs of a step: the one it is about, the control PDU it makes, the one it loads from the
backup. -/
inductive PduRef where
  | this | control | loaded
  deriving DecidableEq, Repr

/-- The key slots of a step: that of the peer or of the key offered by it, and that of
`check_save_key`. -/
inductive KeyRef where
  | peer | known
  deriving DecidableEq, Repr

/-- What a step may hold. Nothing takes `null`, so what uses it is out of order. -/
inductive Handle where
  | pdu (r : PduRef)
  | key (k : KeyRef)
  | hostKeyLock
  | null
  deriving DecidableEq, Repr

inductive Event where
  /-- `pdu_new` for the control PDU. -/
  | newControl
  /-- A `backup_load` that found the backup. -/
  | load
  | touch (r : PduRef)
  | free (r : PduRef)
  | enqueue (r : PduRef) (q : Pdu)
  /-- The PDU is put into `waiting_to_send`. -/
  | wait
  /-- `backup_save` copies the PDU. -/
  | save (q : Pdu)
  /-- The header of a layer is read from the frames. -/
  | parse (l : Layer)
  /-- The imago is read from the frames. -/
  | unmarshal
  /-- The receive handler gets the imago. -/
  | handBack (icb : Option Status)
  | lock
  | unlock
  | keyNew (k : KeyRef)
  /-- A pointer to a key is followed; `none` is the null pointer. -/
  | keyUse (k : Option KeyRef)
  | keyFree (k : Option KeyRef)
  /-- Any other null pointer is followed. -/
  | nullUse
  /-- A bound does not hold, and memory outside of its object is used. -/
  | overrun
  deriving DecidableEq, Repr

/-- What a pointer to a key points to. -/
def keyHandle : Option KeyRef → Handle
  | some k => .key k
  | none => .null

/-- What an event does to what the step holds. -/
def Event.move : Event → Move Handle
  | .newControl => .take (.pdu .control)
  | .load => .take (.pdu .loaded)
  | .touch r => .use (.pdu r)
  | .free r | .enqueue r _ => .give (.pdu r)
  | .wait => .give (.pdu .this)
  | .save _ | .parse _ | .unmarshal | .handBack _ => .use (.pdu .this)
  | .lock => .take .hostKeyLock
  | .unlock => .give .hostKeyLock
  | .keyNew k => .take (.key k)
  | .keyUse k => .use (keyHandle k)
  | .keyFree k => .give (keyHandle k)
  | .nullUse | .overrun => .use .null

/-- What a handler does, the state it returns (`none` is `STATE_MACHINE_ID_INVALID`), and the PDU
as it leaves it. -/
structure Step where
  events : List Event
  next : Option StateId
  pdu : Pdu

/-- `es` happens first. -/
def Step.after (es : List Event) (r : Step) : Step := { r with events := es ++ r.events }

def goTo (s : StateId) (p : Pdu) : Step := ⟨[], some s, p⟩

/-- `pdu_free` and `STATE_MACHINE_ID_INVALID`. -/
def discard (p : Pdu) : Step := ⟨[.free .this], none, p⟩

/-- The rest of a step, where a bound is taken for granted. -/
def Outcomes.inside (o : Outcomes) (b : Bound) (p : Pdu) (r : Step) : Step :=
  if o.within b then r else ⟨[.overrun], none, p⟩

/-! ## The connection layer -/

/-- `imago_layer_connection_down_control`: the PDU goes at whatever the outcome. -/
def connectionDownControl (o : Outcomes) (p : Pdu) : Step :=
  if !o.ok .lookupCon && !(o.ok .udpSocket && o.ok .udpConnect) then discard p
  else .after [.touch .this] (discard p)

/-- `imago_layer_connection_down_transport`. -/
def connectionDownTransport (o : Outcomes) (p : Pdu) : Step :=
  if !o.ok .lookupCon && !o.ok .makeCon then
    if p.forwarding then discard p
    else goTo .routingUp (p.fail .connrefused .connectionDown)
  else
    let p := { p with cTotal := o.size }
    if !o.ok .sendHeader then goTo .connectionDown p else goTo .asyncSend p

def udpMtu : ℕ := 1024

/-- `imago_layer_connection_down`. -/
def connectionDown (o : Outcomes) (p : Pdu) : Step :=
  if !p.sitp && o.size < udpMtu then connectionDownControl o p else connectionDownTransport o p

/-- `connection_async_send`. -/
def asyncSend (o : Outcomes) (p : Pdu) : Step :=
  let p := { p with cTotal := p.cTotal - o.sent }
  .after [.touch .this] <|
    if 0 < p.cTotal then
      if o.sent = 0 then ⟨[.wait], none, p⟩ else goTo .asyncSend p
    else discard p

/-- The tests of `imago_layer_connection_up`. -/
def ConnectionHeader.accepted (h : ConnectionHeader) : Bool :=
  h.magic == magicNumber &&
    (if h.flags &&& pduTypeSitp != 0 then h.version == sitpVersion else h.version == sicpVersion)

/-- `imago_layer_connection_up`. The flags are set before the version is tested. -/
def connectionUp (o : Outcomes) (p : Pdu) : Step :=
  .after [.parse .connection] <|
    if !o.hdr.accepted then
      discard (if o.hdr.magic == magicNumber then { p with flags := o.hdr.flags } else p)
    else goTo .routingUp { p with flags := o.hdr.flags }

/-! ## The routing layer -/

/-- The error exit of `imago_layer_routing_down`. -/
def routingFail (e : PduError) (p : Pdu) : Step :=
  if p.forwarding || !p.sitp then discard p else goTo .securityUp (p.fail e .routingDown)

/-- The writes of `imago_layer_routing_down`: the TTL and the names of the two servers. -/
def routingWrites : List Call := [.write 0, .write 1, .write 2]

/-- The PDU starts here unless it is forwarded. -/
def startRoute (p : Pdu) : Pdu := if p.forwarding then p else { p with ttl := 0xff }

/-- `imago_layer_routing_down`. -/
def routingDown (o : Outcomes) (p : Pdu) : Step :=
  let q := (startRoute p).push .routing (o.done routingWrites)
  if !o.ok .resolveRoute then routingFail .hostNotFound (startRoute p)
  else if routingWrites.all o.ok then goTo .connectionDown q
  else routingFail .mframe q

/-- The PDU is for another server. -/
def forward (ttl : BitVec 8) (p : Pdu) : Pdu :=
  { p with ttl := ttl - 1, flags := p.flags ||| pduFlagForwarding }

/-- The reads of `imago_layer_routing_up`: the names of the two servers and the TTL. -/
def routingReads : List Call := [.read 0, .read 1, .read 2]

/-- The part of `imago_layer_routing_up` that goes through `hostname_aliases`. -/
def searchAliases (o : Outcomes) (p : Pdu) : Step :=
  match o.forAlias with
  | none => ⟨[.nullUse], none, p⟩
  | some true => goTo .securityUp { p with ttl := o.ttl }
  | some false =>
      if o.ttl = 0 then discard { p with ttl := o.ttl - 1 } else goTo .routingDown (forward o.ttl p)

/-- `imago_layer_routing_up`. -/
def routingUp (o : Outcomes) (p : Pdu) : Step :=
  if p.failed then goTo .securityUp p
  else
    .after [.parse .routing] <|
      if !routingReads.all o.ok then discard p
      else if o.forHostname then goTo .securityUp { p with ttl := o.ttl }
      else searchAliases o p

/-! ## The security layer -/

def secTypeRequest : BitVec 8 := 0x01
def secTypeSigned : BitVec 8 := 0x02
def secTypeRsaKey : BitVec 8 := 0x10
def secTypeDsaKey : BitVec 8 := 0x20
def secTypeEnabled : BitVec 8 := 0x80

/-- Whether a flag is set in the security header. -/
def Outcomes.has (o : Outcomes) (f : BitVec 8) : Bool := o.secFlags &&& f != 0

/-- A new PDU with `PDU_TYPE_SITP` cleared. -/
def controlPdu (s : StateId) : Pdu :=
  { pduNew s with flags := (pduNew s).flags &&& ~~~pduTypeSitp }

/-- The fields that `rsa_host_key_send` puts, in order. -/
def hostKeyFields (cfg : Config) : List KeyField :=
  (if cfg.sign then [.dsaPubKey, .dsaG, .dsaQ, .dsaP] else []) ++
    [.rsaE, .rsaN, .reqid, .cipherMask, .flags]

/-- The part of `rsa_host_key_send` that puts the fields. Each exit to `error` is taken inside
the lines it stands in. -/
def putFields (o : Outcomes) : List KeyField → List Event
  | [] => [.enqueue .control (controlPdu .routingDown)]
  | f :: fs =>
      (if f.locked then [.lock, .touch .control] else [.touch .control]) ++
        if o.ok (.hostKeyWrite f) then (if f.locked then [.unlock] else []) ++ putFields o fs
        else [.free .control]

/-- `rsa_host_key_send`. -/
def rsaHostKeySend (cfg : Config) (o : Outcomes) : List Event :=
  if !o.ok .pduNew then [] else .newControl :: .touch .this :: putFields o (hostKeyFields cfg)

/-- Whether `rsa_host_key_send` returns 0. -/
def rsaHostKeySent (cfg : Config) (o : Outcomes) : Bool :=
  o.ok .pduNew && (hostKeyFields cfg).all fun f => o.ok (.hostKeyWrite f)

/-- The pointer that `Key_new` returns. -/
def keyPtr (o : Outcomes) (c : Call) (k : KeyRef) : Option KeyRef := if o.ok c then some k else none

/-- `Key_new`. -/
def newKey (o : Outcomes) (c : Call) (k : KeyRef) : List Event :=
  if o.ok c then [.keyNew k] else []

/-- The writes of the signature in `imago_layer_security_transport_down`. -/
def signWrites : List Call := [.write 0, .write 1]

/-- The writes of the rest of the security header. -/
def securityWrites : List Call := [.write 2, .write 3, .write 4, .write 5]

/-- Whether the session key is signed. -/
def signs (cfg : Config) (o : Outcomes) : Bool :=
  cfg.sign && o.destDsa && o.ok .dsaSign && o.ok .encryptSign

/-- Everything that `imago_layer_security_transport_down` writes when it has the key. -/
def securityHeader (cfg : Config) (o : Outcomes) : List Call :=
  (if signs cfg o then signWrites else []) ++ securityWrites

/-- The error exit of `imago_layer_security_transport_down`. -/
def securityFail (k : Option KeyRef) (e : PduError) (p : Pdu) : Step :=
  .after [.keyFree k] (goTo .adaUp (p.fail e .securityDown))

/-- `imago_layer_security_transport_down`. -/
def securityTransportDown (cfg : Config) (o : Outcomes) (p : Pdu) : Step :=
  let k := keyPtr o .keyNew .peer
  .after (newKey o .keyNew .peer) <|
    if !o.ok .loadKey then
      .after (rsaHostKeySend cfg o) <|
        if !rsaHostKeySent cfg o then securityFail k .secRsa p
        else if !o.ok .backupSave then securityFail k .nback p
        else ⟨[.save p, .keyFree k, .free .this], none, p⟩
    else
      .after [.keyUse k, .lock, .unlock] <|
        if !o.ok .encrypt then securityFail k .encrypt p
        else if !o.ok .rsaPublicEncrypt then securityFail k .rsaE p
        else
          let q := p.push .security (o.done (securityHeader cfg o))
          if (securityHeader cfg o).all o.ok then .after [.keyFree k] (goTo .routingDown q)
          else securityFail k .mframe q

/-- `imago_layer_security_control_down`. -/
def securityControlDown (o : Outcomes) (p : Pdu) : Step :=
  if !o.ok (.write 0) then discard p else goTo .routingDown (p.push .security 1)

/-- `imago_layer_security_down`. Without security the error exit only returns. -/
def securityDown (cfg : Config) (o : Outcomes) (p : Pdu) : Step :=
  if cfg.security then
    if p.sitp then securityTransportDown cfg o p else securityControlDown o p
  else if !o.ok (.write 0) then ⟨[], none, { p with errno := .mframe }⟩
  else goTo .routingDown (p.push .security 1)

/-- `check_save_key`. The exit for a host that is not found has no `Key_free`. -/
def checkSaveKey (o : Outcomes) : List Event :=
  let k := keyPtr o .keyNewKnown .known
  newKey o .keyNewKnown .known ++
    if !o.ok .loadKey then []
    else [.keyUse k] ++ (if o.has secTypeRsaKey then [.keyUse k] else [.nullUse]) ++ [.keyFree k]

/-- What `check_save_key` answers: the key was saved, or it is the one that is known. -/
def keyAccepted (o : Outcomes) : Bool :=
  if !o.ok .loadKey then o.has secTypeRsaKey && o.ok .openKnownHosts else o.ok .sameKey

/-- A row of calls of `get_bignum`, up to the first that fails; `none` is one with a length out of
its bound. -/
def getBignums (o : Outcomes) : List ℕ → Option Bool
  | [] => some true
  | n :: ns =>
      if !o.within (.bignum n) then none
      else if !o.ok (.getBignum n) then some false
      else getBignums o ns

/-- One of the two keys in the frames, if it is there: its structure and its numbers. -/
def readKey (o : Outcomes) (f : BitVec 8) (new : Call) (numbers : List ℕ) : Option Bool :=
  if !o.has f then some true else if !o.ok new then some false else getBignums o numbers

/-- Whether the keys in the frames are complete. -/
def readKeys (o : Outcomes) : Option Bool :=
  match readKey o secTypeRsaKey .rsaNew [0, 1] with
  | some true => readKey o secTypeDsaKey .dsaNew [2, 3, 4, 5]
  | r => r

/-- What `imago_layer_security_control_up` does with the keys of a request. -/
def answerRequest (cfg : Config) (o : Outcomes) : List Event :=
  checkSaveKey o ++ if keyAccepted o then rsaHostKeySend cfg o else []

/-- What it does with those of a response. -/
def takeResponse (o : Outcomes) : List Event :=
  if !o.ok .backupLoad then []
  else
    [.load, .touch .this] ++ checkSaveKey o ++
      if keyAccepted o then
        [.enqueue .loaded (o.backup.pdu.setState .securityDown)]
      else [.free .loaded]

/-- What it does between reading the keys and freeing its own copy. -/
def useKeys (cfg : Config) (o : Outcomes) : List Event :=
  match readKeys o with
  | none => [.overrun]
  | some false => []
  | some true => if o.has secTypeRequest then answerRequest cfg o else takeResponse o

/-- `imago_layer_security_control_up`. -/
def securityControlUp (cfg : Config) (o : Outcomes) (p : Pdu) : Step :=
  .after [.parse .security] <|
    if !o.ok (.read 0) then discard p
    else if !o.has secTypeEnabled then goTo .adaUp p
    else if !cfg.security then discard p
    else
      let k := keyPtr o .keyNew .peer
      .after (newKey o .keyNew .peer) <| .after [.keyUse k] <| .after (useKeys cfg o) <|
        .after [.keyFree k] (discard p)

/-- The end of `imago_layer_security_transport_up`. -/
def decryptUp (o : Outcomes) (p : Pdu) : Step :=
  o.inside .keyWhole p <| if !o.ok .decrypt then discard p else goTo .adaUp p

/-- The key of the source of a signed PDU is loaded, or asked for. -/
def sourceKey (cfg : Config) (o : Outcomes) (k : Option KeyRef) : List Event :=
  if !o.ok .loadKey then rsaHostKeySend cfg o else [.keyUse k]

/-- The part of `imago_layer_security_transport_up` that verifies a signature. -/
def verifyUp (cfg : Config) (o : Outcomes) (p : Pdu) : Step :=
  let k := keyPtr o .keyNew .peer
  .after (newKey o .keyNew .peer) <|
    if !o.ok (.read 2) then ⟨[.free .this, .keyFree k], none, p⟩
    else
      .after (sourceKey cfg o k) <| .after [.lock, .unlock] <|
        o.inside .signatureText p <| o.inside .keyWhole p <|
          .after [.keyUse k, .keyFree k] <|
            if !o.ok .verify then discard p else decryptUp o p

/-- The signature is read, and looked at if signatures are built in. -/
def signatureUp (cfg : Config) (o : Outcomes) (p : Pdu) : Step :=
  o.inside .signatureLength p <|
    if cfg.sign then verifyUp cfg o p
    else if !o.ok (.read 2) then discard p
    else decryptUp o p

/-- The part of `imago_layer_security_transport_up` from the session key on. -/
def sessionKeyUp (cfg : Config) (o : Outcomes) (p : Pdu) : Step :=
  o.inside .keyLength p <|
    if !o.ok (.read 1) then discard p
    else
      .after [.lock, .unlock] <|
        if !o.ok .rsaPrivateDecrypt then discard p
        else
          o.inside .keyText p <|
            if o.has secTypeSigned then signatureUp cfg o p else decryptUp o p

/-- `imago_layer_security_transport_up`. -/
def securityTransportUp (cfg : Config) (o : Outcomes) (p : Pdu) : Step :=
  if p.failed then goTo .adaUp p
  else
    .after [.parse .security] <|
      if !o.ok (.read 0) then discard p
      else if !o.has secTypeEnabled then goTo .adaUp p
      else if !cfg.security then discard p
      else sessionKeyUp cfg o p

/-- `imago_layer_security_up`. -/
def securityUp (cfg : Config) (o : Outcomes) (p : Pdu) : Step :=
  if p.sitp then securityTransportUp cfg o p else securityControlUp cfg o p

/-! ## The rendez-vous layer -/

def adaTypeRequest : BitVec 16 := 0x0100
def adaTypeAccept : BitVec 16 := 0x0200
def adaTypeAck : BitVec 16 := 0x0400
def adaTypeNack : BitVec 16 := 0x0800
def adaTypeRetry : BitVec 16 := 0x0001

/-- The writes of `write_header` to the PDU that comes down. -/
def headerWrites : List Call := [.write 0, .write 1, .write 2]

/-- The writes of `write_header` to a control PDU. -/
def controlHeaderWrites : List Call := [.controlWrite 0, .controlWrite 1, .controlWrite 2]

/-- `dispatch_control_pdu`. -/
def dispatchControlPdu (o : Outcomes) (type : BitVec 16) (p : Pdu) : List Event :=
  if !o.ok .pduNew then []
  else
    [.newControl, .touch .this] ++
      if controlHeaderWrites.all o.ok then
        [.enqueue .control
          ({ controlPdu .securityDown with genid := p.genid, adaType := type }.push .rendezvous 3)]
      else [.free .control]

/-- A PDU that is sent for the first time gets its ids and its type. -/
def startRequest (o : Outcomes) (p : Pdu) : Pdu :=
  if p.adaType &&& adaTypeRetry = 0 then
    { p with genid := o.generation, adaType := adaTypeRequest }
  else p

/-- `imago_layer_ADArendezvous_down`. -/
def adaDown (o : Outcomes) (p : Pdu) : Step :=
  let q := (startRequest o p).push .rendezvous (o.done headerWrites)
  if !o.ok .backupSave then goTo .marshalingUp ((startRequest o p).fail .nback .adaDown)
  else
    .after [.save (startRequest o p)] <|
      if headerWrites.all o.ok then goTo .securityDown q
      else goTo .marshalingUp (q.fail .mframe .adaDown)

/-- `read_header`: the fields that are read here. -/
def readHeader (o : Outcomes) (p : Pdu) : Pdu := { p with genid := o.genid, adaType := o.adaType }

/-- The answer to an `ACCEPT`. -/
def adaAccept (o : Outcomes) (p : Pdu) : List Event :=
  if p.genid ≠ o.generation then dispatchControlPdu o adaTypeNack p
  else if !o.ok .backupLoad then dispatchControlPdu o adaTypeNack p
  else [.load, .touch .loaded] ++ dispatchControlPdu o adaTypeAck p ++ [.free .loaded]

/-- `imago_layer_ADArendezvous_control_up`. -/
def adaControlUp (o : Outcomes) (p : Pdu) : Step :=
  let p := readHeader o p
  .after [.parse .rendezvous] <|
    if o.adaType = adaTypeAccept then .after (adaAccept o p) (discard p)
    else if o.adaType = adaTypeAck then
      .after (if !o.ok .backupLoad then []
        else [.load, .touch .loaded,
          .enqueue .loaded (o.backup.pdu.setState .marshalingUp)]) (discard p)
    else if o.adaType = adaTypeNack then
      .after (if !o.ok .backupLoad then [] else [.load, .touch .loaded, .free .loaded])
        (discard p)
    else goTo .marshalingUp p

/-- `imago_layer_ADArendezvous_transport_up`. -/
def adaTransportUp (o : Outcomes) (p : Pdu) : Step :=
  if p.failed then
    .after [.touch .this, .free .this] <|
      if !o.ok .backupLoad then ⟨[], none, p⟩
      else
        let b := o.backup.pdu
        ⟨[.load, .touch .loaded,
          .enqueue .loaded ((b.fail p.errno p.eLayer).setState .marshalingUp)], none, p⟩
  else if o.shutdown then discard p
  else
    let p := readHeader o p
    .after [.parse .rendezvous] <|
      if !o.ok .backupSave then discard p
      else .after (.save p :: dispatchControlPdu o adaTypeAccept p ++ [.touch .this]) (discard p)

/-- `imago_layer_ADArendezvous_up`. -/
def adaUp (o : Outcomes) (p : Pdu) : Step :=
  if p.sitp then adaTransportUp o p else adaControlUp o p

/-! ## The marshaling layer -/

/-- The writes of `imago_layer_marshaling_down`: three parts of the block, six bases, nine
registers and the eight fields of the identity. -/
def marshalWrites : List Call := (List.range 26).map .write

/-- `icb_free`, and the pointer is cleared. -/
def freeIcb (p : Pdu) : Pdu := { p with icb := none }

/-- `imago_layer_marshaling_down`. -/
def marshalingDown (o : Outcomes) (p : Pdu) : Step :=
  if p.icb = none then ⟨[.nullUse], none, p⟩
  else
    .after [.touch .this] <|
      let q := p.push .marshaling (o.done marshalWrites)
      if marshalWrites.all o.ok then goTo .adaDown (freeIcb q)
      else goTo .marshalingUp (q.fail .mframe .marshalingDown)

/-- The end of `imago_layer_marshaling_up`: the status of the imago. -/
def restoreStatus (p : Pdu) : Pdu :=
  { p with icb := some (if p.failed then .error else .moveIn) }

/-- The part of `imago_layer_marshaling_up` that reads an imago from the frames. -/
def unmarshalUp (o : Outcomes) (p : Pdu) : Step :=
  .after [.unmarshal] <|
    if !o.blockBounds then discard p
    else if !o.ok .malloc then discard p
    else o.inside .segments p <| goTo .protocolUp (restoreStatus p)

/-- `imago_layer_marshaling_up`. It tests the result of `icb_new`, but `icb_new` itself follows the
head of the free queue when there is none. -/
def marshalingUp (o : Outcomes) (p : Pdu) : Step :=
  if p.icb ≠ none then goTo .protocolUp (restoreStatus p)
  else if !o.ok .icbNew then ⟨[.nullUse], none, p⟩
  else unmarshalUp o p

/-! ## The interface -/

/-- `imago_protocol_down`. -/
def protocolDown (p : Pdu) : Step :=
  if p.icb = none then discard p else goTo .marshalingDown p

/-- `imago_protocol_up`. -/
def protocolUp (o : Outcomes) (p : Pdu) : Step :=
  .after (if o.handler then [.handBack p.icb] else []) (discard p)

/-! ## The state machine -/

/-- The action registered for a state. -/
def handler (cfg : Config) (o : Outcomes) (p : Pdu) : Step :=
  match p.state with
  | .connectionUp => connectionUp o p
  | .connectionDown => connectionDown o p
  | .asyncSend => asyncSend o p
  | .routingUp => routingUp o p
  | .routingDown => routingDown o p
  | .securityUp => securityUp cfg o p
  | .securityDown => securityDown cfg o p
  | .adaUp => adaUp o p
  | .adaDown => adaDown o p
  | .marshalingUp => marshalingUp o p
  | .marshalingDown => marshalingDown o p
  | .protocolUp => protocolUp o p
  | .protocolDown => protocolDown p

/-- What `transport_run` does once `state_machine` has returned: only an id above zero puts the
PDU back. -/
def requeue (r : Step) : List Event :=
  match r.next with
  | some s => if 0 < s.id then [.enqueue .this (r.pdu.setState s)] else []
  | none => []

/-- Everything from the call of a handler on. -/
def Step.all (r : Step) : List Event := r.events ++ requeue r

/-- `transport_run`, from where it has taken a PDU from the queue. -/
def transportRun (cfg : Config) (o : Outcomes) (p : Pdu) : List Event :=
  .touch .this :: (handler cfg o p).all

/-! ## Reading a step -/

variable {o : Outcomes} {p : Pdu} {r : Step} {es : List Event}

@[simp] theorem all_after : (Step.after es r).all = es ++ r.all := by
  rw [Step.all, Step.all, Step.after, List.append_assoc, requeue, requeue]

@[simp] theorem all_goTo (t : StateId) : (goTo t p).all =
    if t = .connectionUp then [] else [.enqueue .this (p.setState t)] := by
  cases t <;> rfl

@[simp] theorem all_discard : (discard p).all = [.free .this] := rfl

@[simp] theorem all_stop : (⟨es, none, p⟩ : Step).all = es := List.append_nil es

theorem all_inside (b : Bound) :
    (o.inside b p r).all = if o.within b then r.all else [.overrun] := by
  rw [Outcomes.inside]
  split_ifs <;> rfl

/-- Every state is registered, at its id. -/
theorem stateTable_id (s : StateId) : stateTable[s.id]? = some s := by
  cases s <;> rfl

/-! ## The fields of a PDU -/

@[simp] theorem state_setState (t : StateId) : (p.setState t).state = t := rfl
@[simp] theorem failed_setState (t : StateId) : (p.setState t).failed = p.failed := rfl
@[simp] theorem sitp_setState (t : StateId) : (p.setState t).sitp = p.sitp := rfl
@[simp] theorem icb_setState (t : StateId) : (p.setState t).icb = p.icb := rfl
@[simp] theorem frames_setState (t : StateId) : (p.setState t).frames = p.frames := rfl
@[simp] theorem failed_push (l n) : (p.push l n).failed = p.failed := rfl
@[simp] theorem sitp_push (l n) : (p.push l n).sitp = p.sitp := rfl
@[simp] theorem icb_push (l n) : (p.push l n).icb = p.icb := rfl
@[simp] theorem icb_fail (e l) : (p.fail e l).icb = p.icb := rfl
@[simp] theorem frames_fail (e l) : (p.fail e l).frames = p.frames := rfl

@[simp] theorem failed_fail (e l) : (p.fail e l).failed = true := by
  have hor : (p.flags ||| pduError) &&& pduError = pduError := by
    ext i hi
    simpa using Or.inr
  rw [Pdu.failed, Pdu.fail, hor]
  decide

@[simp] theorem failed_controlPdu (t : StateId) : (controlPdu t).failed = false := by
  cases t <;> decide

@[simp] theorem failed_forward (ttl) : (forward ttl p).failed = p.failed := by
  have hand : pduFlagForwarding &&& pduError = 0 := by decide
  rw [Pdu.failed, forward, Pdu.failed, BitVec.and_or_distrib_right, hand]
  simp

@[simp] theorem failed_startRoute : (startRoute p).failed = p.failed := by
  rw [startRoute]
  split_ifs <;> rfl

@[simp] theorem failed_startRequest : (startRequest o p).failed = p.failed := by
  rw [startRequest]
  split_ifs <;> rfl

@[simp] theorem frames_startRequest : (startRequest o p).frames = p.frames := by
  rw [startRequest]
  split_ifs <;> rfl

@[simp] theorem failed_readHeader : (readHeader o p).failed = p.failed := rfl
@[simp] theorem failed_freeIcb : (freeIcb p).failed = p.failed := rfl
@[simp] theorem failed_restoreStatus : (restoreStatus p).failed = p.failed := rfl

end Mlvm.Stack
