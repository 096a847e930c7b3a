import Mlvm.Transport.Pdu

/-!
# The ADA rendez-vous

The handlers of `imago_layer_ADArendezvous.c` on the state of one server, and the system of all
servers: PDUs handed to the lower layers are in flight until they arrive, are lost, or come back
as a send error; a timer may expire at any moment. Handlers run one at a time, with the one
interleaving the source itself points at: a timer may fire in the ACCEPT handler between the
load of the backup and the release of the timer.

The sender stores an imago under its generation and sequence ids and sends a **REQUEST**. The
receiver stores it and answers **ACCEPT**; the sender forgets its backup and answers **ACK** (or
**NACK**, when it has none); on ACK the receiver hands the imago to its marshaling layer.
-/

namespace Mlvm.Transport

variable {Host : Type} [DecidableEq Host] [Inhabited Host]

/-! ## One server -/

/-- A server. `queue` holds the PDUs waiting for this layer, `lower` those handed to the layers
below and not yet arrived anywhere, `upper` all those ever handed to the marshaling layer.
`acknowledged` records the imagos this server has acknowledged; no function reads it. -/
structure Server (Host : Type) where
  shutdown : Bool
  generation : UInt16
  sequence : UInt32
  backupId : Nat
  backupList : List (Nat × BackupKey Host)
  files : List (BackupFile Host)
  timerTlb : Nat → Timer
  queue : List (Pdu Host)
  lower : List (Pdu Host)
  upper : List (Pdu Host)
  acknowledged : List Nat

/-- A server just started, at the time `generation`. -/
def Server.start (generation : UInt16) : Server Host where
  shutdown := false
  generation := generation
  sequence := 0
  backupId := 0
  backupList := []
  files := []
  timerTlb := fun _ => Timer.clear
  queue := []
  lower := []
  upper := []
  acknowledged := []

/-- What the host grants to one run of a handler: whether the backup file can be opened, how many
writes of the header find a frame, whether a control PDU can be made, and `time(NULL) & 0xffff`. -/
structure Resources where
  saved : Bool
  room : Nat
  control : Bool
  time : UInt16

/-- Everything is at hand. -/
def Resources.ample : Resources := ⟨true, 3, true, 0⟩

namespace Server

/-- `pdu_enqueue`, by the state of the PDU. -/
def pduEnqueue (s : Server Host) (p : Pdu Host) : Server Host :=
  match p.state with
  | .securityDown => { s with lower := p :: s.lower }
  | .marshalingUp => { s with upper := p :: s.upper }
  | _ => { s with queue := p :: s.queue }

/-- `backup_save`: a new entry of the list and, if the file can be opened, the file. -/
def backupSave (saved : Bool) (s : Server Host) (key : BackupKey Host) (p : Pdu Host) :
    Server Host × Option Nat :=
  let s' := { s with backupId := s.backupId + 1,
                     backupList := s.backupList ++ [(s.backupId, key)] }
  if saved then ({ s' with files := writeFile s.files ⟨key, s.backupId, p⟩ }, some s.backupId)
  else (s', none)

/-- `backup_load`. -/
def backupLoad (s : Server Host) (key : BackupKey Host) : Option (Pdu Host) :=
  (fileOf s.files key).map BackupFile.pdu

/-- `backup_idload`: the PDU now stored under the name listed for the id. -/
def backupIdload (s : Server Host) (id : Nat) : Option (Pdu Host) :=
  (findEntry s.backupList id).bind s.backupLoad

/-- `backup_cancel`. -/
def backupCancel (s : Server Host) (key : BackupKey Host) : Server Host :=
  match fileOf s.files key with
  | none => s
  | some f => { s with backupList := removeEntry f.id s.backupList,
                       files := unlink s.files key }

/-- `backup_idcancel`. -/
def backupIdcancel (s : Server Host) (id : Nat) : Server Host :=
  match findEntry s.backupList id with
  | none => s
  | some key => s.backupCancel key

/-- `timer_free`, in the server. -/
def timerFree (s : Server Host) (id : Int) : Server Host :=
  { s with timerTlb := Transport.timerFree s.timerTlb id }

/-- `timer_set`, in the server. -/
def timerSet (s : Server Host) (id : Int) (arg : Nat) : Server Host :=
  { s with timerTlb := Transport.timerSet s.timerTlb id arg }

/-- The timer in slot `id` is marked as fired. -/
def fire (s : Server Host) (id : Nat) : Server Host :=
  { s with timerTlb := Function.update s.timerTlb id ⟨.fired, (s.timerTlb id).arg⟩ }

/-- The PDU at place `n` leaves the lower layers. -/
def leave (s : Server Host) (n : Nat) : Server Host :=
  { s with lower := s.lower.eraseIdx n }

end Server

/-! ## The handlers -/

/-- The control PDU of `dispatch_control_pdu`, with its header written. -/
def controlPdu (type : UInt16) (p : Pdu Host) : Pdu Host :=
  { (pduNew p.imago : Pdu Host) with
    sitp := false
    genid := p.genid
    seqid := p.seqid
    adaType := type
    destinationServer := p.sourceServer
    state := .securityDown
    frames := headed p.genid type p.seqid [] }

/-- `dispatch_control_pdu`. -/
def dispatchControlPdu (r : Resources) (s : Server Host) (type : UInt16) (p : Pdu Host) :
    Server Host :=
  if r.control then s.pduEnqueue (controlPdu type p) else s

/-- `timeout_callback`, for the timer `id` with the backup id `arg`. -/
def timeoutCallback (r : Resources) (s : Server Host) (id : Int) (arg : Nat) : Server Host :=
  match s.backupIdload arg with
  | none => s
  | some p =>
      if p.adaType &&& adaTypeRequest ≠ 0 then
        if adaMaxRetry ≤ p.retry then
          ((s.timerFree id).backupIdcancel arg).pduEnqueue
            { p with error := true, errno := .nada, eLayer := .adaDown, state := .marshalingUp }
        else
          (s.backupIdcancel arg).pduEnqueue { p with adaType := p.adaType ||| adaTypeRetry }
      else if p.adaType &&& adaTypeAccept ≠ 0 then
        (dispatchControlPdu r s adaTypeAccept p).timerSet id arg
      else
        (s.backupIdcancel arg).timerFree id

/-- `get_gen_id` and `get_seq_id`, with the wrap around of the sequence. -/
def nextIds (r : Resources) (s : Server Host) : Server Host × UInt16 × UInt32 :=
  ({ s with sequence := s.sequence + 1,
            generation := if s.sequence + 1 = 0 then r.time else s.generation },
    s.generation, s.sequence)

/-- The first lines of `imago_layer_ADArendezvous_down`: the ADA fields of a PDU that is not a
retry. -/
def initializeAda (r : Resources) (s : Server Host) (p : Pdu Host) : Server Host × Pdu Host :=
  if p.adaType &&& adaTypeRetry = 0 then
    let (s, genid, seqid) := nextIds r s
    let (tlb, timer) := timerNew s.timerTlb
    ({ s with timerTlb := tlb },
      { p with genid := genid, seqid := seqid, adaType := adaTypeRequest, timer := timer,
               retry := 0 })
  else (s, p)

/-- The `error:` label of `imago_layer_ADArendezvous_down`. -/
def downError (s : Server Host) (p : Pdu Host) : Server Host :=
  (s.timerFree p.timer).pduEnqueue
    { p with error := true, eLayer := .adaDown, state := .marshalingUp }

/-- `imago_layer_ADArendezvous_down` after the ADA fields are set. -/
def sendRequest (r : Resources) (s : Server Host) (p : Pdu Host) : Server Host :=
  match s.backupSave r.saved (.sent p.genid p.seqid) p with
  | (s, none) => downError s { p with errno := .nback }
  | (s, some b) =>
      match writeHeader r.room p with
      | (p, false) => downError s p
      | (p, true) => (s.timerSet p.timer b).pduEnqueue { p with state := .securityDown }

/-- `imago_layer_ADArendezvous_down`. -/
def imagoLayerADArendezvousDown (r : Resources) (s : Server Host) (p : Pdu Host) : Server Host :=
  let (s, p) := initializeAda r s p
  sendRequest r s { p with retry := p.retry + 1 }

/-- An ACCEPT that is not too late: the timer of the loaded backup `inc` is freed, the ACK sent,
the backup destroyed. -/
def acknowledge (r : Resources) (s : Server Host) (p inc : Pdu Host) : Server Host :=
  let s := dispatchControlPdu r (s.timerFree inc.timer) adaTypeAck p
  let s := s.backupCancel (.sent p.genid p.seqid)
  { s with acknowledged := p.imago :: s.acknowledged }

/-- The case `ADA_TYPE_ACCEPT` of `imago_layer_ADArendezvous_control_up`. `between` is what
happens on the server between the load of the backup and the release of its timer. -/
def controlAccept (r : Resources) (between : Server Host → Server Host) (s : Server Host)
    (p : Pdu Host) : Server Host :=
  if p.genid ≠ s.generation then dispatchControlPdu r s adaTypeNack p
  else
    match s.backupLoad (.sent p.genid p.seqid) with
    | none => dispatchControlPdu r s adaTypeNack p
    | some inc => acknowledge r (between s) p inc

/-- The case `ADA_TYPE_ACK`. -/
def controlAck (s : Server Host) (p : Pdu Host) : Server Host :=
  let key := .received p.sourceServer p.genid p.seqid
  match s.backupLoad key with
  | none => s
  | some inc =>
      ((s.timerFree inc.timer).backupCancel key).pduEnqueue { inc with state := .marshalingUp }

/-- The case `ADA_TYPE_NACK`. -/
def controlNack (s : Server Host) (p : Pdu Host) : Server Host :=
  let key := .received p.sourceServer p.genid p.seqid
  match s.backupLoad key with
  | none => s.backupCancel key
  | some inc => (s.timerFree inc.timer).backupCancel key

/-- `imago_layer_ADArendezvous_control_up`. -/
def imagoLayerADArendezvousControlUp (r : Resources) (between : Server Host → Server Host)
    (s : Server Host) (p : Pdu Host) : Server Host :=
  let p := readHeader p
  if p.adaType = adaTypeAccept then controlAccept r between s p
  else if p.adaType = adaTypeAck then controlAck s p
  else if p.adaType = adaTypeNack then controlNack s p
  else s.pduEnqueue { p with state := .marshalingUp }

/-- The branch of `imago_layer_ADArendezvous_transport_up` for a PDU in error. -/
def recoverBackup (s : Server Host) (p : Pdu Host) : Server Host :=
  match s.backupLoad (.sent p.genid p.seqid) with
  | none => s
  | some inc =>
      s.pduEnqueue { inc with errno := p.errno, eLayer := p.eLayer, error := true,
                              state := .marshalingUp }

/-- `imago_layer_ADArendezvous_transport_up` after the header is read. -/
def storeRequest (r : Resources) (s : Server Host) (p : Pdu Host) : Server Host :=
  let (tlb, timer) := timerNew s.timerTlb
  let s := { s with timerTlb := tlb }
  let p := { p with timer := timer }
  match s.backupSave r.saved (.received p.sourceServer p.genid p.seqid) p with
  | (s, none) => s
  | (s, some b) => (dispatchControlPdu r s adaTypeAccept p).timerSet p.timer b

/-- `imago_layer_ADArendezvous_transport_up`. -/
def imagoLayerADArendezvousTransportUp (r : Resources) (s : Server Host) (p : Pdu Host) :
    Server Host :=
  if p.error then recoverBackup s p
  else if s.shutdown then s
  else storeRequest r s (readHeader p)

/-- `imago_layer_ADArendezvous_up`. -/
def imagoLayerADArendezvousUp (r : Resources) (between : Server Host → Server Host)
    (s : Server Host) (p : Pdu Host) : Server Host :=
  if p.sitp then imagoLayerADArendezvousTransportUp r s p
  else imagoLayerADArendezvousControlUp r between s p

/-- `SIGALRM_handler` for one expired timer. -/
def sigalrmHandler (r : Resources) (s : Server Host) (id : Nat) : Server Host :=
  if id < maxTimer ∧ (s.timerTlb id).status = .active then
    timeoutCallback r (s.fire id) ((id : Int) + 1) (s.timerTlb id).arg
  else s

/-! ## The system -/

/-- An imago handed down to be sent: by which server, to which, and its bytes. -/
structure Request (Host : Type) where
  source : Host
  destination : Host
  data : List UInt8

/-- All servers, and the imagos sent so far; imago `i` is the one of request `i`. -/
structure World (Host : Type) where
  server : Host → Server Host
  requests : List (Request Host)

/-- How many imagos have been sent. -/
def World.sent (w : World Host) : Nat := w.requests.length

/-- All servers just started. -/
def World.start (generation : Host → UInt16) : World Host where
  server h := .start (generation h)
  requests := []

def World.set (w : World Host) (h : Host) (s : Server Host) : World Host :=
  { w with server := Function.update w.server h s }

/-- What happens. PDUs are named by their place in the list they are in, so any order of
processing, delivery and loss is possible. -/
inductive Event (Host : Type) where
  /-- The marshaling layer of `h` passes down a new imago for the server `destination`. -/
  | send (h destination : Host) (data : List UInt8)
  /-- `h` runs the handler of a queued PDU. -/
  | process (h : Host) (n : Nat) (r : Resources)
  /-- A PDU handed down by `h` arrives; `fired` is a timer that expires in the ACCEPT handler. -/
  | arrive (h : Host) (n : Nat) (r : Resources) (fired : Option Nat)
  /-- A PDU handed down by `h` is lost. -/
  | lose (h : Host) (n : Nat)
  /-- The lower layers of `h` report that a PDU could not be sent. -/
  | sendError (h : Host) (n : Nat) (errno : PduError) (eLayer : StateId) (r : Resources)
  /-- A timer of `h` expires. -/
  | alarm (h : Host) (id : Nat) (r : Resources)
  /-- `h` is told to accept no more requests. -/
  | shutdown (h : Host)

/-- A PDU as it comes in from the network: a new PDU with the bytes, the flags on the wire and
the names of the routing header, where the source is the server that sent it. -/
def received (source : Host) (p : Pdu Host) : Pdu Host :=
  { (pduNew p.imago : Pdu Host) with
    sitp := p.sitp
    destinationServer := p.destinationServer
    sourceServer := source
    frames := p.frames }

/-- A new PDU of the marshaling layer. -/
def marshaled (imago : Nat) (destination : Host) (data : List UInt8) : Pdu Host :=
  { (pduNew imago : Pdu Host) with
    destinationServer := destination
    state := .adaDown
    frames := data }

/-- The timer that fires in the ACCEPT handler. -/
def between (r : Resources) (fired : Option Nat) (s : Server Host) : Server Host :=
  match fired with
  | none => s
  | some id => sigalrmHandler r s id

/-- One step of the system; nothing happens when the event names no PDU. -/
def World.step (w : World Host) : Event Host → World Host
  | .send h destination data =>
      { w.set h ((w.server h).pduEnqueue (marshaled w.sent destination data)) with
        requests := w.requests ++ [⟨h, destination, data⟩] }
  | .process h n r =>
      match (w.server h).queue[n]? with
      | none => w
      | some p =>
          let s := { w.server h with queue := (w.server h).queue.eraseIdx n }
          w.set h (if p.state = .adaDown then imagoLayerADArendezvousDown r s p
            else imagoLayerADArendezvousUp r id s p)
  | .arrive h n r fired =>
      match (w.server h).lower[n]? with
      | none => w
      | some p =>
          let w := w.set h ((w.server h).leave n)
          w.set p.destinationServer
            (imagoLayerADArendezvousUp r (between r fired) (w.server p.destinationServer)
              (received h p))
  | .lose h n => w.set h ((w.server h).leave n)
  | .sendError h n errno eLayer r =>
      match (w.server h).lower[n]? with
      | none => w
      | some p =>
          if p.sitp then
            w.set h (imagoLayerADArendezvousUp r id ((w.server h).leave n)
              { p with error := true, errno := errno, eLayer := eLayer })
          else w.set h ((w.server h).leave n)
  | .alarm h id r => w.set h (sigalrmHandler r (w.server h) id)
  | .shutdown h => w.set h { w.server h with shutdown := true }

/-- A run of the system. -/
def World.run (w : World Host) : List (Event Host) → World Host
  | [] => w
  | e :: es => (w.step e).run es

end Mlvm.Transport
