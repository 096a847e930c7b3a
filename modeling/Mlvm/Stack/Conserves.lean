import Mlvm.Stack.Settles

/-!
# What a step of the protocol conserves

A step starts with one PDU, taken off the queue. It is **in order** (`Conserves`) when

- the ledger of its trace ends empty: each PDU, key slot and lock was given away exactly once and
  none was touched after that, no null pointer was followed and no bound was passed;
- a PDU that carries `PDU_ERROR` only climbs, and nothing is read from its frames but the imago
  that this server itself wrote last;
- the flag never comes from the network;
- an imago whose PDU fails before there is a backup of it moves on towards the receive handler.

Whether a step is in order depends on `Sound`, a condition on the PDU and on what the step meets.

Main result: `go_handler` (a step queues valid PDUs only, and saves none that has failed).
-/

namespace Mlvm.Stack

open Mlvm.Ownership

/-! ## Queued PDUs -/

/-- What a PDU in the queue satisfies: the error flag is only there on the way up; the marshaling
layer gets an imago; one that comes back with the flag is marked. -/
structure Valid (p : Pdu) : Prop where
  climbing : p.failed = true → p.state ∈
    [StateId.routingUp, .securityUp, .adaUp, .marshalingUp, .protocolUp]
  imago : p.state = .marshalingDown → p.icb ≠ none
  marked : p.state = .protocolUp → p.failed = true → p.icb = some .error

/-- The PDU failed while this server held the imago in memory only: in the marshaling layer, or
where the rendez-vous layer could not save it. -/
def Pdu.unsaved (p : Pdu) : Bool :=
  p.failed && p.sitp &&
    (p.eLayer == .marshalingDown || p.eLayer == .adaDown && p.errno == .nback)

/-! ## A step in order -/

/-- A flagged PDU goes up, past the layer it is in if it was on its way up already. -/
def Climbs (p q : Pdu) : Prop :=
  q.failed = true → q.state.up = true ∧ p.state.level ≤ q.state.level ∧
    (p.state.up = true → p.state.level < q.state.level)

/-- The event reads the frames as those of an incoming PDU: a header, or an imago in front of
which something else was written. -/
def Event.misreads (p : Pdu) : Event → Bool
  | .parse _ => true
  | .unmarshal => p.frames.head? != some .marshaling
  | _ => false

/-- An outgoing imago moves on, or back towards the receive handler. -/
def HandsBack (p : Pdu) (es : List Event) : Prop :=
  match p.state with
  | .protocolDown => p.icb ≠ none →
      ∃ q, .enqueue .this q ∈ es ∧ q.state = .marshalingDown ∧ q.icb = p.icb
  | .marshalingDown => ∃ q, .enqueue .this q ∈ es ∧
      (q.state = .adaDown ∧ q.failed = false ∨
        q.state = .marshalingUp ∧ q.failed = true ∧ q.icb = p.icb)
  | .adaDown => (∃ q, .save q ∈ es) ∨
      ∃ q, .enqueue .this q ∈ es ∧ q.state = .marshalingUp ∧ q.failed = true ∧
        q.frames = p.frames
  | .marshalingUp => p.unsaved = true →
      ∃ q, .enqueue .this q ∈ es ∧ q.state = .protocolUp ∧ q.failed = true ∧
        q.icb = some .error
  | .protocolUp => p.unsaved = true → .handBack (some .error) ∈ es
  | _ => True

/-- **A step in order.** -/
structure Conserves (cfg : Config) (o : Outcomes) (p : Pdu) : Prop where
  settled : play {.pdu .this} ((transportRun cfg o p).map Event.move) = some ∅
  placed : (transportRun cfg o p).countP Event.places = 1
  untouched : ∀ before e after, transportRun cfg o p = before ++ e :: after →
    e.places = true → .use (.pdu .this) ∉ after.map Event.move
  registered : ∀ r q, .enqueue r q ∈ transportRun cfg o p →
    stateTable[q.state.id]? = some q.state
  climbs : ∀ r q, .enqueue r q ∈ transportRun cfg o p → Climbs p q
  unread : p.failed = true → ∀ e ∈ transportRun cfg o p, e.misreads p = false
  network : p.state = .connectionUp → ∀ q, .enqueue .this q ∈ transportRun cfg o p →
    q.failed = false
  handsBack : HandsBack p (transportRun cfg o p)

/-! ## The condition -/

/-- An imago that comes back to the marshaling layer. -/
def ReturnSound (o : Outcomes) (p : Pdu) : Prop :=
  p.icb = none →
    p.frames.head? = some .marshaling ∧
      (p.unsaved = true → o.blockBounds = true ∧ o.ok .malloc = true)

/-- The condition under which a step is in order. -/
def Sound (cfg : Config) (o : Outcomes) (p : Pdu) : Prop :=
  match p.state with
  | .connectionUp => o.hdr.accepted = true → o.hdr.flags &&& pduError = 0
  | .routingUp => p.failed = false → AliasesSound o
  | .securityUp =>
      if p.sitp then p.failed = false → TransportSound cfg o
      else p.failed = false ∧ ControlSound cfg o
  | .securityDown =>
      if cfg.security then
        p.sitp = true → o.ok .keyNew = true ∧ (o.ok .loadKey = false → KeySendClean cfg o)
      else o.ok (.write 0) = true
  | .adaUp => p.failed = true → p.sitp = true
  | .marshalingUp => ImagoSound o p ∧ (p.failed = true → ReturnSound o p)
  | .protocolUp => p.unsaved = true → o.handler = true
  | _ => True

variable {cfg : Config} {o : Outcomes} {p q : Pdu} {es fs : List Event}

/-! ## Where PDUs go -/

/-- What is queued is valid and climbs, and what is saved has not failed. -/
def Event.Goes (p : Pdu) : Event → Prop
  | .enqueue _ q => Valid q ∧ Climbs p q
  | .save q => q.failed = false
  | _ => True

theorem goes_of_unfailed {r : PduRef} (hf : q.failed = false) (hs : q.state ≠ .marshalingDown) :
    (Event.enqueue r q).Goes p := by
  refine ⟨⟨fun h => ?_, fun h => absurd h hs, fun _ h => ?_⟩, fun h => ?_⟩ <;>
  · rw [hf] at h
    cases h

theorem goes_up {r : PduRef} (hs : q.state ∈
      [StateId.routingUp, .securityUp, .adaUp, .marshalingUp])
    (hl : p.state.level ≤ q.state.level) (hup : p.state.up = true → p.state.level < q.state.level) :
    (Event.enqueue r q).Goes p := by
  refine ⟨⟨fun _ => ?_, fun h => ?_, fun h => ?_⟩, fun _ => ⟨?_, hl, hup⟩⟩ <;> revert hs <;>
    generalize q.state = t at * <;> cases t <;> simp [StateId.up] at *

/-- All events of a step go where they should. -/
def Go (p : Pdu) (es : List Event) : Prop := ∀ e ∈ es, e.Goes p

theorem go_append (h₁ : Go p es) (h₂ : Go p fs) : Go p (es ++ fs) :=
  List.forall_mem_append.2 ⟨h₁, h₂⟩

theorem go_cons {e : Event} (h₁ : e.Goes p) (h₂ : Go p es) : Go p (e :: es) :=
  List.forall_mem_cons.2 ⟨h₁, h₂⟩

theorem go_after {r : Step} (h₁ : Go p es) (h₂ : Go p r.all) : Go p (r.after es).all := by
  rw [all_after]
  exact go_append h₁ h₂

theorem go_discard : Go p (discard q).all := by
  simp [Go, Event.Goes]

theorem go_inside {b : Bound} {r : Step} (h : Go p r.all) : Go p (o.inside b q r).all := by
  rw [all_inside]
  split_ifs
  · exact h
  · simp [Go, Event.Goes]

theorem go_unfailed {t : StateId} (hf : q.failed = false) (ht : t ≠ .marshalingDown) :
    Go p (goTo t q).all := by
  rw [all_goTo]
  split_ifs
  · simp [Go]
  · simpa [Go] using goes_of_unfailed (by simpa using hf) (by simpa using ht)

theorem go_up {t : StateId} (ht : t ∈ [StateId.routingUp, .securityUp, .adaUp, .marshalingUp])
    (hl : p.state.level ≤ t.level) (hup : p.state.up = true → p.state.level < t.level) :
    Go p (goTo t q).all := by
  rw [all_goTo]
  split_ifs
  · simp [Go]
  · simpa [Go] using goes_up (by simpa using ht) (by simpa using hl) (by simpa using hup)

/-- A control PDU has not failed. -/
theorem goes_control {r : PduRef} {t : StateId} (ht : t ≠ .marshalingDown) (gen : BitVec 16)
    (type : BitVec 16) (n : ℕ) :
    (Event.enqueue r
      ({ controlPdu t with genid := gen, adaType := type }.push .rendezvous n)).Goes p :=
  goes_of_unfailed (failed_controlPdu t) ht

/-- A PDU from the backup has not failed. -/
theorem goes_stored {r : PduRef} {t : StateId} (ht : t ≠ .marshalingDown) :
    (Event.enqueue r (o.backup.pdu.setState t)).Goes p :=
  goes_of_unfailed (by simpa using o.backup.unfailed) (by simpa using ht)

theorem go_rsaHostKeySend : Go p (rsaHostKeySend cfg o) := by
  have hput : ∀ fields, Go p (putFields o fields) := by
    intro fields
    induction fields with
    | nil =>
      rw [putFields]
      simpa [Go] using goes_of_unfailed (q := controlPdu .routingDown) (by decide) (by decide)
    | cons f fields ih =>
      rw [putFields]
      apply go_append
      · split_ifs <;> simp [Go, Event.Goes]
      · split_ifs
        · exact go_append (by simp [Go, Event.Goes]) ih
        · exact go_append (by simp [Go]) ih
        · simp [Go, Event.Goes]
  rw [rsaHostKeySend]
  split_ifs
  · simp [Go]
  · exact go_cons trivial (go_cons trivial (hput _))

theorem go_dispatchControlPdu (type : BitVec 16) : Go p (dispatchControlPdu o type q) := by
  rw [dispatchControlPdu]
  split_ifs
  · simp [Go]
  · apply go_append (by simp [Go, Event.Goes])
    simpa [Go] using goes_control (by simp) _ _ _
  · simp [Go, Event.Goes]

/-! ## The lower layers -/

theorem go_connectionUp (hs : p.state = .connectionUp) : Go p (connectionUp o p).all := by
  apply go_after (by simp [Go, Event.Goes])
  split_ifs
  · exact go_discard
  · exact go_discard
  · exact go_up (by simp) (by simp [hs, StateId.level]) (by simp [hs, StateId.level])

theorem go_connectionDown (hs : p.state = .connectionDown) (hf : p.failed = false) :
    Go p (connectionDown o p).all := by
  rw [connectionDown, connectionDownControl, connectionDownTransport]
  dsimp only
  split_ifs
  · exact go_discard
  · exact go_after (by simp [Go, Event.Goes]) go_discard
  · exact go_discard
  · exact go_up (by simp) (by simp [hs, StateId.level]) (by simp [hs, StateId.up])
  · exact go_unfailed hf (by simp)
  · exact go_unfailed hf (by simp)

theorem go_asyncSend (hf : p.failed = false) : Go p (asyncSend o p).all := by
  apply go_after (by simp [Go, Event.Goes])
  split_ifs
  · simp [Go, Event.Goes]
  · exact go_unfailed hf (by simp)
  · exact go_discard

theorem go_routingFail (e) (hs : p.state = .routingDown) : Go p (routingFail e q).all := by
  rw [routingFail]
  split_ifs
  · exact go_discard
  · exact go_up (by simp) (by simp [hs, StateId.level]) (by simp [hs, StateId.up])

theorem go_routingDown (hs : p.state = .routingDown) (hf : p.failed = false) :
    Go p (routingDown o p).all := by
  rw [routingDown]
  split_ifs
  · exact go_routingFail _ hs
  · exact go_unfailed (by simpa using hf) (by simp)
  · exact go_routingFail _ hs

theorem go_routingUp (hs : p.state = .routingUp) : Go p (routingUp o p).all := by
  have hup : ∀ q, Go p (goTo .securityUp q).all := fun q =>
    go_up (by simp) (by simp [hs, StateId.level]) (by simp [hs, StateId.level])
  rw [routingUp]
  split
  case isTrue => exact hup p
  case isFalse hf =>
    apply go_after (by simp [Go, Event.Goes])
    split_ifs
    · exact go_discard
    · exact hup _
    · rw [searchAliases]
      rcases o.forAlias with _ | _ | _
      · simp [Go, Event.Goes]
      · dsimp only
        split_ifs
        · exact go_discard
        · exact go_unfailed (by simpa using hf) (by simp)
      · exact hup _

/-! ## The security layer -/

theorem go_newKey (c : Call) (k : KeyRef) : Go p (newKey o c k) := by
  rw [newKey]
  split_ifs <;> simp [Go, Event.Goes]

theorem go_checkSaveKey : Go p (checkSaveKey o) := by
  rw [checkSaveKey]
  apply go_append (go_newKey _ _)
  split_ifs <;> simp [Go, Event.Goes]

theorem go_useKeys : Go p (useKeys cfg o) := by
  rw [useKeys, answerRequest, takeResponse]
  rcases readKeys o with _ | _ | _
  · simp [Go, Event.Goes]
  · simp [Go]
  dsimp only
  split_ifs
  · exact go_append go_checkSaveKey go_rsaHostKeySend
  · exact go_append go_checkSaveKey (by simp [Go])
  · simp [Go]
  · apply go_append (go_append (by simp [Go, Event.Goes]) go_checkSaveKey)
    simpa [Go] using goes_stored (by simp)
  · apply go_append (go_append (by simp [Go, Event.Goes]) go_checkSaveKey)
    simp [Go, Event.Goes]

theorem go_securityControlUp (hs : p.state = .securityUp) :
    Go p (securityControlUp cfg o p).all := by
  apply go_after (by simp [Go, Event.Goes])
  split
  · exact go_discard
  split
  · exact go_up (by simp) (by simp [hs, StateId.level]) (by simp [hs, StateId.level])
  split
  · exact go_discard
  · apply go_after (go_newKey _ _)
    apply go_after (by simp [Go, Event.Goes])
    apply go_after go_useKeys
    exact go_after (by simp [Go, Event.Goes]) go_discard

theorem go_decryptUp (hs : p.state = .securityUp) : Go p (decryptUp o p).all := by
  apply go_inside
  split_ifs
  · exact go_discard
  · exact go_up (by simp) (by simp [hs, StateId.level]) (by simp [hs, StateId.level])

theorem go_verifyUp (hs : p.state = .securityUp) : Go p (verifyUp cfg o p).all := by
  apply go_after (go_newKey _ _)
  split
  · simp [Go, Event.Goes]
  · apply go_after
    · rw [sourceKey]
      split_ifs
      · exact go_rsaHostKeySend
      · simp [Go, Event.Goes]
    · apply go_after (by simp [Go, Event.Goes])
      apply go_inside
      apply go_inside
      apply go_after (by simp [Go, Event.Goes])
      split_ifs
      · exact go_discard
      · exact go_decryptUp hs

theorem go_sessionKeyUp (hs : p.state = .securityUp) : Go p (sessionKeyUp cfg o p).all := by
  apply go_inside
  split
  · exact go_discard
  apply go_after (by simp [Go, Event.Goes])
  split
  · exact go_discard
  apply go_inside
  split
  · apply go_inside
    split_ifs
    · exact go_verifyUp hs
    · exact go_discard
    · exact go_decryptUp hs
  · exact go_decryptUp hs

theorem go_securityTransportUp (hs : p.state = .securityUp) :
    Go p (securityTransportUp cfg o p).all := by
  have hup : Go p (goTo .adaUp p).all :=
    go_up (by simp) (by simp [hs, StateId.level]) (by simp [hs, StateId.level])
  rw [securityTransportUp]
  split
  · exact hup
  · apply go_after (by simp [Go, Event.Goes])
    split_ifs
    · exact go_discard
    · exact hup
    · exact go_discard
    · exact go_sessionKeyUp hs

theorem go_securityUp (hs : p.state = .securityUp) : Go p (securityUp cfg o p).all := by
  rw [securityUp]
  split_ifs
  · exact go_securityTransportUp hs
  · exact go_securityControlUp hs

theorem go_securityTransportDown (hs : p.state = .securityDown) (hf : p.failed = false) :
    Go p (securityTransportDown cfg o p).all := by
  have hfail : ∀ k e q, Go p (securityFail k e q).all := fun k e q =>
    go_after (by simp [Go, Event.Goes])
      (go_up (by simp) (by simp [hs, StateId.level]) (by simp [hs, StateId.up]))
  apply go_after (go_newKey _ _)
  split
  · apply go_after go_rsaHostKeySend
    split_ifs
    · exact hfail _ _ _
    · exact hfail _ _ _
    · simpa [Go, Event.Goes] using hf
  · apply go_after (by simp [Go, Event.Goes])
    split
    · exact hfail _ _ _
    split
    · exact hfail _ _ _
    split
    · exact go_after (by simp [Go, Event.Goes]) (go_unfailed (by simpa using hf) (by simp))
    · exact hfail _ _ _

theorem go_securityDown (hs : p.state = .securityDown) (hf : p.failed = false) :
    Go p (securityDown cfg o p).all := by
  have hdown : Go p (goTo .routingDown (p.push .security 1)).all :=
    go_unfailed (by simpa using hf) (by simp)
  rw [securityDown, securityControlDown]
  split_ifs
  · exact go_securityTransportDown hs hf
  · exact go_discard
  · exact hdown
  · simp [Go]
  · exact hdown

/-! ## The upper layers -/

theorem go_adaAccept : Go p (adaAccept o q) := by
  rw [adaAccept]
  split_ifs
  · exact go_dispatchControlPdu _
  · exact go_dispatchControlPdu _
  · exact go_append (go_append (by simp [Go, Event.Goes]) (go_dispatchControlPdu _))
      (by simp [Go, Event.Goes])

theorem go_adaControlUp (hs : p.state = .adaUp) : Go p (adaControlUp o p).all := by
  apply go_after (by simp [Go, Event.Goes])
  split
  · exact go_after go_adaAccept go_discard
  split
  · apply go_after _ go_discard
    split_ifs
    · simp [Go]
    · exact go_cons trivial (go_cons trivial (go_cons (goes_stored (by simp)) (by simp [Go])))
  split
  · apply go_after _ go_discard
    split_ifs <;> simp [Go, Event.Goes]
  · exact go_up (by simp) (by simp [hs, StateId.level]) (by simp [hs, StateId.level])

theorem go_adaTransportUp (hs : p.state = .adaUp) : Go p (adaTransportUp o p).all := by
  rw [adaTransportUp]
  split
  case isTrue =>
    apply go_after (by simp [Go, Event.Goes])
    split_ifs
    · simp [Go]
    · rw [all_stop]
      refine go_cons trivial (go_cons trivial (go_cons ?_ (by simp [Go])))
      exact goes_up (by simp) (by simp [hs, StateId.level]) (by simp [hs, StateId.level])
  case isFalse hf =>
    split
    · exact go_discard
    · have hsave : (Event.save (readHeader o p)).Goes p := by
        simpa [Event.Goes] using hf
      apply go_after (by simp [Go, Event.Goes])
      split_ifs
      · exact go_discard
      · apply go_after _ go_discard
        exact go_append (go_cons hsave (go_dispatchControlPdu _)) (by simp [Go, Event.Goes])

theorem go_adaUp (hs : p.state = .adaUp) : Go p (adaUp o p).all := by
  rw [adaUp]
  split_ifs
  · exact go_adaTransportUp hs
  · exact go_adaControlUp hs

theorem go_adaDown (hs : p.state = .adaDown) (hf : p.failed = false) :
    Go p (adaDown o p).all := by
  have hup : ∀ q, Go p (goTo .marshalingUp q).all := fun q =>
    go_up (by simp) (by simp [hs, StateId.level]) (by simp [hs, StateId.up])
  rw [adaDown]
  split
  case isTrue => exact hup _
  case isFalse =>
    apply go_after (by simpa [Go, Event.Goes] using hf)
    split_ifs
    · exact go_unfailed (by simpa using hf) (by simp)
    · exact hup _

theorem go_marshalingDown (hs : p.state = .marshalingDown) (hf : p.failed = false) :
    Go p (marshalingDown o p).all := by
  rw [marshalingDown]
  split
  case isTrue => simp [Go, Event.Goes]
  case isFalse =>
    apply go_after (by simp [Go, Event.Goes])
    split_ifs
    · exact go_unfailed (by simpa using hf) (by simp)
    · exact go_up (by simp) (by simp [hs, StateId.level]) (by simp [hs, StateId.up])

theorem go_marshalingUp (hs : p.state = .marshalingUp) : Go p (marshalingUp o p).all := by
  have hback : Go p (goTo .protocolUp (restoreStatus p)).all := by
    have hval : Valid ((restoreStatus p).setState .protocolUp) := by
      refine ⟨fun _ => by simp, fun h => by simp at h, fun _ h => ?_⟩
      rw [failed_setState, failed_restoreStatus] at h
      simp [restoreStatus, h]
    simpa [Go, Event.Goes] using ⟨hval, fun _ => by simp [hs, StateId.up, StateId.level]⟩
  rw [marshalingUp]
  split
  · exact hback
  split
  · simp [Go, Event.Goes]
  apply go_after (by simp [Go, Event.Goes])
  split_ifs
  · exact go_discard
  · exact go_discard
  · exact go_inside hback

theorem go_protocolUp : Go p (protocolUp o p).all := by
  apply go_after _ go_discard
  split_ifs <;> simp [Go, Event.Goes]

theorem go_protocolDown (hf : p.failed = false) : Go p (protocolDown p).all := by
  rw [protocolDown]
  split_ifs with hicb
  · exact go_discard
  · have hval : Valid (p.setState .marshalingDown) := by
      refine ⟨fun h => ?_, fun _ => hicb, fun h => by simp at h⟩
      rw [failed_setState, hf] at h
      cases h
    have hclimb : Climbs p (p.setState .marshalingDown) := by
      intro h
      rw [failed_setState, hf] at h
      cases h
    simpa [Go, Event.Goes] using ⟨hval, hclimb⟩

/-- A valid PDU has not failed unless it is on its way up. -/
theorem Valid.unfailed (hp : Valid p) (h : p.state.up = false ∨ p.state = .connectionUp) :
    p.failed = false := by
  by_contra hf
  have hmem := hp.climbing (by simpa using hf)
  revert h hmem
  cases p.state <;> simp [StateId.up]

/-- **What a step queues.** -/
theorem go_handler (hp : Valid p) : Go p (handler cfg o p).all := by
  rw [handler]
  split
  case h_1 h => exact go_connectionUp h
  case h_2 h => exact go_connectionDown h (hp.unfailed (by simp [h, StateId.up]))
  case h_3 h => exact go_asyncSend (hp.unfailed (by simp [h, StateId.up]))
  case h_4 h => exact go_routingUp h
  case h_5 h => exact go_routingDown h (hp.unfailed (by simp [h, StateId.up]))
  case h_6 h => exact go_securityUp h
  case h_7 h => exact go_securityDown h (hp.unfailed (by simp [h, StateId.up]))
  case h_8 h => exact go_adaUp h
  case h_9 h => exact go_adaDown h (hp.unfailed (by simp [h, StateId.up]))
  case h_10 h => exact go_marshalingUp h
  case h_11 h => exact go_marshalingDown h (hp.unfailed (by simp [h, StateId.up]))
  case h_12 h => exact go_protocolUp
  case h_13 h => exact go_protocolDown (hp.unfailed (by simp [h, StateId.up]))

end Mlvm.Stack
