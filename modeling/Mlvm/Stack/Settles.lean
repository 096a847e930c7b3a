import Mlvm.Stack.Handlers

/-!
# The ledger of a step

A step starts with one PDU, taken off the queue. It **settles** (`Settles`) when the ledger of its
trace ends empty: each PDU, key slot and lock it holds or takes is given away exactly once, none is
touched after that, and no null pointer is followed.

Most handlers settle on every outcome. Those of the security layer do so under conditions:
`rsa_host_key_send` leaves `host_key_lock` held when a field cannot be put under the lock,
`check_save_key` leaves its slot taken when the host is not known, no caller of `Key_new` tests its
result, and no length from the network is tested before an array of this length is declared. The
routing layer relies on the list of aliases, and the marshaling layer on a free control block and on
the lengths of the segments.

Main results: `Settles.placed`, `Settles.untouched`, `play_putFields` (the loop of
`rsa_host_key_send`), `settles_securityUp_iff`, `settles_securityDown_iff`, `settles_routingUp_iff`
and `settles_marshalingUp_iff`.
-/

namespace Mlvm.Stack

open Mlvm.Ownership

/-! ## Conditions -/

/-- No field is the first to fail while the lock is held. -/
def KeySendClean (cfg : Config) (o : Outcomes) : Prop :=
  o.ok .pduNew = true →
    ∀ f, (hostKeyFields cfg).find? (fun f => !o.ok (.hostKeyWrite f)) = some f → f.locked = false

/-- `check_save_key` finds the host, gets a slot for its key, and has an RSA key to compare; or it
does not find it and gets no slot. -/
def CheckClean (o : Outcomes) : Prop :=
  if o.ok .loadKey then o.ok .keyNewKnown = true ∧ o.has secTypeRsaKey = true
  else o.ok .keyNewKnown = false

/-- The keys of a control PDU stay in their bounds; and they are not used, or the check is clean and
so is the answer. -/
def KeysClean (cfg : Config) (o : Outcomes) : Prop :=
  readKeys o ≠ none ∧
    (readKeys o = some true → o.has secTypeRequest = true ∨ o.ok .backupLoad = true →
      CheckClean o ∧ (o.has secTypeRequest = true → keyAccepted o = true → KeySendClean cfg o))

/-- A control PDU with keys in it gets a slot, and its keys are clean. -/
def ControlSound (cfg : Config) (o : Outcomes) : Prop :=
  o.ok (.read 0) = true → o.has secTypeEnabled = true → cfg.security = true →
    o.ok .keyNew = true ∧ KeysClean cfg o

/-- A signature that is verified. -/
def VerifySound (cfg : Config) (o : Outcomes) : Prop :=
  o.ok .keyNew = true ∧
    (o.ok (.read 2) = true →
      (o.ok .loadKey = false → KeySendClean cfg o) ∧ o.within .signatureText = true ∧
        o.within .keyWhole = true)

/-- A transport PDU with a signature. -/
def SignatureSound (cfg : Config) (o : Outcomes) : Prop :=
  o.within .signatureLength = true ∧
    if cfg.sign then VerifySound cfg o else o.ok (.read 2) = true → o.within .keyWhole = true

/-- A transport PDU with a session key. -/
def SessionKeySound (cfg : Config) (o : Outcomes) : Prop :=
  o.within .keyLength = true ∧
    (o.ok (.read 1) = true → o.ok .rsaPrivateDecrypt = true →
      o.within .keyText = true ∧
        if o.has secTypeSigned then SignatureSound cfg o else o.within .keyWhole = true)

/-- A transport PDU that is decrypted. -/
def TransportSound (cfg : Config) (o : Outcomes) : Prop :=
  o.ok (.read 0) = true → o.has secTypeEnabled = true → cfg.security = true → SessionKeySound cfg o

/-- A PDU that is not for this server by its first name is compared with a list that exists. -/
def AliasesSound (o : Outcomes) : Prop :=
  routingReads.all o.ok = true → o.forHostname = false → o.forAlias ≠ none

/-- An imago without a control block gets one, and fits the block it is read into. -/
def ImagoSound (o : Outcomes) (p : Pdu) : Prop :=
  p.icb = none →
    o.ok .icbNew = true ∧
      (o.blockBounds = true → o.ok .malloc = true → o.within .segments = true)

/-! ## The ledger of a step -/

/-- The rest of a step, from where `s` is held, leaves nothing held. -/
def Settles (s : Finset Handle) (es : List Event) : Prop := play s (es.map Event.move) = some ∅

instance (s : Finset Handle) (es : List Event) : Decidable (Settles s es) :=
  inferInstanceAs (Decidable (play s (es.map Event.move) = some ∅))

variable {cfg : Config} {o : Outcomes} {p q : Pdu} {es fs : List Event} {s s' : Finset Handle}

theorem settles_transportRun_iff :
    play {.pdu .this} ((transportRun cfg o p).map Event.move) = some ∅ ↔
      Settles {.pdu .this} (handler cfg o p).all := by
  simp [transportRun, Settles, Event.move]

theorem play_events_append (h : play s (es.map Event.move) = some s') :
    play s ((es ++ fs).map Event.move) = play s' (fs.map Event.move) := by
  rw [List.map_append, play_append_of h]

theorem settles_append_iff (h : play s (es.map Event.move) = some s') :
    Settles s (es ++ fs) ↔ Settles s' fs := by
  rw [Settles, Settles, play_events_append h]

theorem not_settles_append (h : play s (es.map Event.move) = none) : ¬ Settles s (es ++ fs) := by
  rw [Settles, List.map_append, play_append_of_none h]
  simp

/-- Nothing takes the null pointer or the PDU of the step. -/
theorem take_notMem (es : List Event) :
    Move.take Handle.null ∉ es.map Event.move ∧ Move.take (.pdu .this) ∉ es.map Event.move := by
  constructor <;>
  · rw [List.mem_map]
    rintro ⟨e, -, he⟩
    cases e <;> simp [Event.move] at he

/-- A step that settles follows no null pointer. -/
theorem Settles.null_notMem (h : Settles s es) (hs : Handle.null ∉ s) :
    Move.use Handle.null ∉ es.map Event.move ∧ Move.give Handle.null ∉ es.map Event.move :=
  not_mem_of_play h hs (take_notMem es).1

/-- The event leaves the PDU in a place: free, in the queue or in `waiting_to_send`. -/
def Event.places : Event → Bool
  | .free .this | .enqueue .this _ | .wait => true
  | _ => false

theorem Event.places_iff (e : Event) : e.places = true ↔ e.move = .give (.pdu .this) := by
  cases e with
  | free r => cases r <;> simp [Event.places, Event.move]
  | enqueue r q => cases r <;> simp [Event.places, Event.move]
  | keyFree k => cases k <;> simp [Event.places, Event.move, keyHandle]
  | _ => simp [Event.places, Event.move]

/-- What is held and never given away keeps the rest from settling. -/
theorem not_settles_of_mem {h : Handle} (hh : h ∈ s) (hg : .give h ∉ es.map Event.move) :
    ¬ Settles s es := by
  intro hset
  have hmem := mem_of_play hset hh hg
  simp at hmem

/-- **One place.** A step that settles frees or queues its PDU exactly once. -/
theorem Settles.placed (h : Settles {.pdu .this} es) : es.countP Event.places = 1 := by
  have hcount := count_give (h := Handle.pdu .this) h
  rw [List.count_eq_zero.2 (take_notMem es).2, List.count_eq_countP, List.countP_map] at hcount
  have hsame : es.countP ((· == Move.give (Handle.pdu .this)) ∘ Event.move) =
      es.countP Event.places := by
    apply List.countP_congr
    intro e _
    simp [Event.places_iff]
  simpa [hsame] using hcount

/-- **Nothing touches the PDU after it was freed or queued.** -/
theorem Settles.untouched {e : Event} (h : Settles {.pdu .this} (es ++ e :: fs))
    (he : e.places = true) : .use (.pdu .this) ∉ fs.map Event.move := by
  rw [Settles, List.map_append, List.map_cons, e.places_iff.1 he] at h
  exact (not_mem_of_play_give h (take_notMem fs).2).1

/-! ## Sending the host key -/

/-- **The loop of `rsa_host_key_send`.** The lock stays held just when the first field that fails
is one that is put under the lock. -/
theorem play_putFields (fields : List KeyField) (hc : Handle.pdu .control ∈ s)
    (hl : Handle.hostKeyLock ∉ s) :
    play s ((putFields o fields).map Event.move) = some
      (if ∃ f, fields.find? (fun f => !o.ok (.hostKeyWrite f)) = some f ∧ f.locked = true then
        insert .hostKeyLock (s.erase (.pdu .control)) else s.erase (.pdu .control)) := by
  induction fields with
  | nil => simp [putFields, Event.move, hc]
  | cons f fields ih =>
    rw [putFields]
    by_cases hok : o.ok (.hostKeyWrite f) = true <;> by_cases hf : f.locked = true
    · simp [hok, hf, Event.move, hl, hc, Finset.erase_insert hl, ih]
    · simp [hok, hf, Event.move, hc, ih]
    · have herase : (insert Handle.hostKeyLock s).erase (.pdu .control) =
          insert Handle.hostKeyLock (s.erase (.pdu .control)) :=
        Finset.erase_insert_of_ne (by simp)
      simp [hok, hf, Event.move, hl, hc, herase]
    · simp [hok, hf, Event.move, hc]

/-- `rsa_host_key_send` leaves what it found, and the lock unless it is clean. -/
theorem play_rsaHostKeySend (ht : Handle.pdu .this ∈ s) (hc : Handle.pdu .control ∉ s)
    (hl : Handle.hostKeyLock ∉ s) :
    (KeySendClean cfg o → play s ((rsaHostKeySend cfg o).map Event.move) = some s) ∧
      (¬ KeySendClean cfg o →
        play s ((rsaHostKeySend cfg o).map Event.move) = some (insert .hostKeyLock s)) := by
  by_cases hnew : o.ok .pduNew = true
  · have hclean : (∃ f, (hostKeyFields cfg).find? (fun f => !o.ok (.hostKeyWrite f)) = some f ∧
        f.locked = true) ↔ ¬ KeySendClean cfg o := by
      simp [KeySendClean, hnew]
    have hloop := play_putFields (o := o) (s := insert (.pdu .control) s) (hostKeyFields cfg)
      (Finset.mem_insert_self _ _) (by simp [hl])
    rw [Finset.erase_insert hc] at hloop
    constructor <;> intro h <;>
    · simp only [hclean, h, not_true_eq_false, not_false_eq_true, if_true, if_false] at hloop
      simpa [rsaHostKeySend, hnew, Event.move, hc, ht] using hloop
  · have hclean : KeySendClean cfg o := fun h => absurd h hnew
    exact ⟨fun _ => by simp [rsaHostKeySend, hnew], fun h => absurd hclean h⟩

/-- `dispatch_control_pdu` leaves what it found. -/
theorem play_dispatchControlPdu (type : BitVec 16) (ht : Handle.pdu .this ∈ s)
    (hc : Handle.pdu .control ∉ s) :
    play s ((dispatchControlPdu o type p).map Event.move) = some s := by
  rw [dispatchControlPdu]
  split_ifs <;> simp [Event.move, ht, hc]

theorem settles_after_iff {r : Step} {t : Finset Handle}
    (h : play s (es.map Event.move) = some t) : Settles s (r.after es).all ↔ Settles t r.all := by
  rw [all_after, settles_append_iff h]

/-- Out of its bounds nothing settles. -/
theorem settles_inside_iff {b : Bound} {r : Step} (hs : Handle.null ∉ s) :
    Settles s (o.inside b p r).all ↔ o.within b = true ∧ Settles s r.all := by
  rw [all_inside]
  by_cases hb : o.within b = true <;> simp [hb, Settles, Event.move, hs]

/-! ## Handlers that always settle -/

theorem settles_goTo {t : StateId} (ht : t ≠ .connectionUp) :
    Settles {.pdu .this} (goTo t p).all := by
  simp [Settles, ht, Event.move]

theorem settles_discard : Settles {.pdu .this} (discard p).all := by
  simp [Settles, Event.move]

theorem settles_connectionUp : Settles {.pdu .this} (connectionUp o p).all := by
  rw [connectionUp]
  split_ifs <;> simp [Settles, Event.move]

theorem settles_connectionDown : Settles {.pdu .this} (connectionDown o p).all := by
  rw [connectionDown, connectionDownControl, connectionDownTransport]
  split_ifs <;> simp [Settles, Event.move]

theorem settles_asyncSend : Settles {.pdu .this} (asyncSend o p).all := by
  simp only [asyncSend]
  split_ifs <;> simp [Settles, Event.move]

theorem settles_routingFail (e) : Settles {.pdu .this} (routingFail e p).all := by
  rw [routingFail]
  split_ifs <;> simp [Settles, Event.move]

theorem settles_routingDown : Settles {.pdu .this} (routingDown o p).all := by
  rw [routingDown]
  split_ifs
  · exact settles_routingFail _
  · exact settles_goTo (by simp)
  · exact settles_routingFail _

theorem play_adaAccept : play {.pdu .this} ((adaAccept o p).map Event.move) =
    some {.pdu .this} := by
  rw [adaAccept]
  split_ifs
  · exact play_dispatchControlPdu _ (by simp) (by simp)
  · exact play_dispatchControlPdu _ (by simp) (by simp)
  · have hload : play {.pdu .this} ([Event.load, .touch .loaded].map Event.move) =
        some {.pdu .loaded, .pdu .this} := by
      simp [Event.move]
    rw [List.append_assoc, play_events_append hload,
      play_events_append (play_dispatchControlPdu _ (by simp) (by simp))]
    simp [Event.move]

theorem settles_adaControlUp : Settles {.pdu .this} (adaControlUp o p).all := by
  rw [adaControlUp, settles_after_iff (t := {.pdu .this}) (by simp [Event.move])]
  split
  · rw [settles_after_iff play_adaAccept]
    exact settles_discard
  split
  · split_ifs <;> simp [Settles, Event.move]
  split
  · split_ifs <;> simp [Settles, Event.move]
  · exact settles_goTo (by simp)

theorem settles_adaTransportUp : Settles {.pdu .this} (adaTransportUp o p).all := by
  rw [adaTransportUp]
  split
  · split_ifs <;> simp [Settles, Event.move]
  split
  · exact settles_discard
  rw [settles_after_iff (t := {.pdu .this}) (by simp [Event.move])]
  split
  · exact settles_discard
  · have hsave : play {.pdu .this} ([Event.save (readHeader o p)].map Event.move) =
        some {.pdu .this} := by
      simp [Event.move]
    rw [settles_after_iff (t := {.pdu .this})]
    · exact settles_discard
    · rw [← List.singleton_append, List.append_assoc, play_events_append hsave,
        play_events_append (play_dispatchControlPdu _ (by simp) (by simp))]
      simp [Event.move]

theorem settles_adaUp : Settles {.pdu .this} (adaUp o p).all := by
  rw [adaUp]
  split_ifs
  · exact settles_adaTransportUp
  · exact settles_adaControlUp

theorem settles_adaDown : Settles {.pdu .this} (adaDown o p).all := by
  simp only [adaDown]
  split_ifs <;> simp [Settles, Event.move]

theorem settles_marshalingDown (h : p.icb ≠ none) :
    Settles {.pdu .this} (marshalingDown o p).all := by
  simp only [marshalingDown, h, if_false]
  split_ifs <;> simp [Settles, Event.move]

theorem settles_protocolUp : Settles {.pdu .this} (protocolUp o p).all := by
  rw [protocolUp]
  split_ifs <;> simp [Settles, Event.move]

theorem settles_protocolDown : Settles {.pdu .this} (protocolDown p).all := by
  rw [protocolDown]
  split_ifs <;> simp [Settles, Event.move]

/-! ## Handlers that rely on what they are given -/

theorem settles_searchAliases_iff :
    Settles {.pdu .this} (searchAliases o p).all ↔ o.forAlias ≠ none := by
  rw [searchAliases]
  rcases o.forAlias with _ | _ | _
  · simp [Settles, Event.move]
  · split_ifs <;> simp [Settles, Event.move]
  · simp [Settles, Event.move]

theorem settles_routingUp_iff :
    Settles {.pdu .this} (routingUp o p).all ↔ (p.failed = false → AliasesSound o) := by
  rw [routingUp, AliasesSound]
  by_cases hf : p.failed = true
  · rw [if_pos hf]
    exact iff_of_true (settles_goTo (by simp)) fun h => by simp [hf] at h
  rw [if_neg hf, settles_after_iff (t := {.pdu .this}) (by simp [Event.move])]
  by_cases hread : routingReads.all o.ok = true
  case neg =>
    rw [if_pos (by simpa using hread)]
    exact iff_of_true settles_discard fun _ h => absurd h hread
  rw [if_neg (by simp [hread])]
  by_cases hname : o.forHostname = true
  · rw [if_pos hname]
    exact iff_of_true (settles_goTo (by simp)) fun _ _ h => by simp [hname] at h
  · rw [if_neg hname, settles_searchAliases_iff]
    simp [hf, hread, hname]

theorem settles_unmarshalUp_iff : Settles {.pdu .this} (unmarshalUp o p).all ↔
    (o.blockBounds = true → o.ok .malloc = true → o.within .segments = true) := by
  rw [unmarshalUp, settles_after_iff (t := {.pdu .this}) (by simp [Event.move])]
  by_cases hb : o.blockBounds = true <;> by_cases hm : o.ok .malloc = true
  · rw [if_neg (by simp [hb]), if_neg (by simp [hm]), settles_inside_iff (by simp)]
    simp only [hb, hm, forall_const]
    exact and_iff_left (settles_goTo (by simp))
  all_goals simp [hb, hm, Settles, Event.move]

theorem settles_marshalingUp_iff :
    Settles {.pdu .this} (marshalingUp o p).all ↔ ImagoSound o p := by
  rw [marshalingUp, ImagoSound]
  by_cases hicb : p.icb = none
  case neg =>
    rw [if_pos hicb]
    exact iff_of_true (settles_goTo (by simp)) fun h => absurd h hicb
  rw [if_neg (not_not.2 hicb)]
  by_cases hnew : o.ok .icbNew = true
  · rw [if_neg (by simp [hnew]), settles_unmarshalUp_iff]
    simp [hicb, hnew]
  · rw [if_pos (by simpa using hnew)]
    simp [hicb, hnew, Settles, Event.move]

/-! ## Handlers of the security layer -/

theorem settles_decryptUp_iff :
    Settles {.pdu .this} (decryptUp o p).all ↔ o.within .keyWhole = true := by
  rw [decryptUp, settles_inside_iff (by simp)]
  split_ifs
  · exact and_iff_left settles_discard
  · exact and_iff_left (settles_goTo (by simp))

/-- A step that settles stays within its bounds. -/
theorem Settles.overrun_notMem (h : Settles s es) (hs : Handle.null ∉ s) : .overrun ∉ es :=
  fun hmem => (h.null_notMem hs).1 (List.mem_map_of_mem hmem)

/-- A step that settles frees no key through the null pointer. -/
theorem Settles.ok_of_keyFree {c : Call} {k : KeyRef} (h : Settles s es) (hs : Handle.null ∉ s)
    (hk : .keyFree (keyPtr o c k) ∈ es) : o.ok c = true := by
  by_contra hc
  apply (h.null_notMem hs).2
  rw [List.mem_map]
  exact ⟨_, hk, by simp [keyPtr, hc, Event.move, keyHandle]⟩

/-- What is held once the step has its slot for the key of the peer. -/
def withKey : Finset Handle := {.key .peer, .pdu .this}

theorem play_newKey (hnew : o.ok .keyNew = true) :
    play {.pdu .this} ((newKey o .keyNew .peer).map Event.move) = some withKey := by
  simp [newKey, hnew, Event.move, withKey]

/-- `rsa_host_key_send` while a slot is held. -/
theorem play_send_withKey :
    (KeySendClean cfg o →
      play withKey ((rsaHostKeySend cfg o).map Event.move) = some withKey) ∧
    (¬ KeySendClean cfg o →
      play withKey ((rsaHostKeySend cfg o).map Event.move) = some (insert .hostKeyLock withKey)) :=
  play_rsaHostKeySend (by decide) (by decide) (by decide)

/-- What `imago_layer_security_transport_up` does with a signature once it holds the slot. -/
theorem settles_checkSignature_iff :
    Settles withKey (o.inside .signatureText p <| o.inside .keyWhole p <|
        .after [.keyUse (some .peer), .keyFree (some .peer)] <|
          if !o.ok .verify then discard p else decryptUp o p).all ↔
      o.within .signatureText = true ∧ o.within .keyWhole = true := by
  rw [settles_inside_iff (by decide), settles_inside_iff (by decide),
    settles_after_iff (t := {.pdu .this}) (by decide)]
  apply and_congr_right'
  refine and_iff_left_of_imp fun hkey => ?_
  split_ifs
  · exact settles_discard
  · exact settles_decryptUp_iff.2 hkey

theorem settles_verifyUp_iff :
    Settles {.pdu .this} (verifyUp cfg o p).all ↔ VerifySound cfg o := by
  rw [VerifySound]
  by_cases hnew : o.ok .keyNew = true
  · have hptr : keyPtr o .keyNew .peer = some .peer := if_pos hnew
    have hlock : play withKey ([Event.lock, .unlock].map Event.move) = some withKey := by
      decide
    have hlocked : play (insert .hostKeyLock withKey) ([Event.lock, .unlock].map Event.move) =
        none := by
      decide
    rw [verifyUp, settles_after_iff (play_newKey hnew), hptr]
    by_cases hread : o.ok (.read 2) = true
    · rw [if_neg (by simp [hread])]
      by_cases hload : o.ok .loadKey = true
      · have hsource : play withKey ((sourceKey cfg o (some .peer)).map Event.move) =
            some withKey := by
          rw [sourceKey, if_neg (by simp [hload])]
          decide
        rw [settles_after_iff hsource, settles_after_iff hlock, settles_checkSignature_iff]
        simp [hnew, hread, hload]
      · have hsource : sourceKey cfg o (some .peer) = rsaHostKeySend cfg o :=
          if_pos (by simpa using hload)
        rw [hsource]
        by_cases hclean : KeySendClean cfg o
        · rw [settles_after_iff (play_send_withKey.1 hclean), settles_after_iff hlock,
            settles_checkSignature_iff]
          simp [hnew, hread, hclean]
        · rw [settles_after_iff (play_send_withKey.2 hclean), all_after]
          simpa [hread, hload, hclean] using not_settles_append hlocked
    · rw [if_pos (by simpa using hread), all_stop]
      have hfree : Settles withKey [.free .this, .keyFree (some .peer)] := by
        decide
      simpa [hnew, hread] using hfree
  · have hnot : ¬ Settles {.pdu .this} (verifyUp cfg o p).all := by
      intro h
      have hin := h.overrun_notMem (by simp)
      apply hnew
      apply h.ok_of_keyFree (by simp) (k := .peer)
      rw [verifyUp, all_after] at hin ⊢
      by_cases hread : o.ok (.read 2) = true
      · rw [if_neg (by simp [hread]), all_after, all_after, all_inside, all_inside] at hin ⊢
        split_ifs at hin ⊢ <;> simp at hin ⊢
      · rw [if_pos (by simpa using hread)]
        simp
    simpa [hnew] using hnot

theorem settles_signatureUp_iff :
    Settles {.pdu .this} (signatureUp cfg o p).all ↔ SignatureSound cfg o := by
  rw [signatureUp, SignatureSound, settles_inside_iff (by simp)]
  apply and_congr_right'
  split_ifs with hsign hread
  · exact settles_verifyUp_iff
  · have hnot : ¬ o.ok (.read 2) = true := by simpa using hread
    exact iff_of_true settles_discard fun h => absurd h hnot
  · have hok : o.ok (.read 2) = true := by simpa using hread
    simpa [hok] using settles_decryptUp_iff

theorem settles_sessionKeyUp_iff :
    Settles {.pdu .this} (sessionKeyUp cfg o p).all ↔ SessionKeySound cfg o := by
  rw [sessionKeyUp, SessionKeySound, settles_inside_iff (by simp)]
  apply and_congr_right'
  by_cases hkey : o.ok (.read 1) = true
  case neg =>
    rw [if_pos (by simpa using hkey)]
    exact iff_of_true settles_discard fun h => absurd h hkey
  rw [if_neg (by simp [hkey]), settles_after_iff (t := {.pdu .this}) (by decide)]
  by_cases hrsa : o.ok .rsaPrivateDecrypt = true
  case neg =>
    rw [if_pos (by simpa using hrsa)]
    exact iff_of_true settles_discard fun _ h => absurd h hrsa
  rw [if_neg (by simp [hrsa]), settles_inside_iff (by simp)]
  simp only [hkey, hrsa, forall_const]
  apply and_congr_right'
  split_ifs
  · exact settles_signatureUp_iff
  · exact settles_decryptUp_iff

theorem settles_securityTransportUp_iff :
    Settles {.pdu .this} (securityTransportUp cfg o p).all ↔
      (p.failed = false → TransportSound cfg o) := by
  rw [securityTransportUp, TransportSound]
  by_cases hf : p.failed = true
  · rw [if_pos hf]
    exact iff_of_true (settles_goTo (by simp)) (fun h => by simp [hf] at h)
  rw [if_neg hf, settles_after_iff (t := {.pdu .this}) (by simp [Event.move])]
  by_cases hflags : o.ok (.read 0) = true
  case neg =>
    rw [if_pos (by simpa using hflags)]
    exact iff_of_true settles_discard fun _ h => absurd h hflags
  by_cases henabled : o.has secTypeEnabled = true
  case neg =>
    rw [if_neg (by simp [hflags]), if_pos (by simpa using henabled)]
    exact iff_of_true (settles_goTo (by simp)) fun _ _ h => absurd h henabled
  by_cases hsec : cfg.security = true
  case neg =>
    rw [if_neg (by simp [hflags]), if_neg (by simp [henabled]), if_pos (by simpa using hsec)]
    exact iff_of_true settles_discard fun _ _ _ h => absurd h hsec
  rw [if_neg (by simp [hflags]), if_neg (by simp [henabled]), if_neg (by simp [hsec]),
    settles_sessionKeyUp_iff]
  simp [hf, hflags, henabled, hsec]

theorem settles_securityTransportDown_iff :
    Settles {.pdu .this} (securityTransportDown cfg o p).all ↔
      o.ok .keyNew = true ∧ (o.ok .loadKey = false → KeySendClean cfg o) := by
  by_cases hnew : o.ok .keyNew = true
  · have hptr : keyPtr o .keyNew .peer = some .peer := if_pos hnew
    have hfail : ∀ e q, Settles withKey (securityFail (some .peer) e q).all := by
      intro e q
      rw [securityFail, settles_after_iff (t := {.pdu .this}) (by decide)]
      exact settles_goTo (by simp)
    rw [securityTransportDown, settles_after_iff (play_newKey hnew), hptr]
    by_cases hload : o.ok .loadKey = true
    · have huse : play withKey ([Event.keyUse (some .peer), .lock, .unlock].map Event.move) =
          some withKey := by
        decide
      rw [if_neg (by simp [hload]), settles_after_iff huse]
      simp only [hnew, hload, true_and, Bool.true_eq_false, false_implies, iff_true]
      split
      · exact hfail _ _
      split
      · exact hfail _ _
      split
      · rw [settles_after_iff (t := {.pdu .this}) (by decide)]
        exact settles_goTo (by simp)
      · exact hfail _ _
    · rw [if_pos (by simpa using hload)]
      by_cases hclean : KeySendClean cfg o
      · rw [settles_after_iff (play_send_withKey.1 hclean)]
        simp only [hnew, hclean, implies_true, and_self, iff_true]
        split_ifs
        · exact hfail _ _
        · exact hfail _ _
        · simp [Settles, Event.move, keyHandle, withKey]
      · rw [settles_after_iff (play_send_withKey.2 hclean)]
        refine iff_of_false ?_ fun h => hclean (h.2 (by simpa using hload))
        apply not_settles_of_mem (h := .hostKeyLock) (by simp)
        split_ifs <;> simp [securityFail, Event.move, keyHandle]
  · have hnot : ¬ Settles {.pdu .this} (securityTransportDown cfg o p).all := by
      intro h
      apply hnew
      apply h.ok_of_keyFree (by simp) (k := .peer)
      rw [securityTransportDown, all_after]
      simp only [securityFail]
      split_ifs <;> simp
    simpa [hnew] using hnot

theorem play_checkSaveKey (hk : Handle.key .known ∉ s) (hn : Handle.null ∉ s) :
    (CheckClean o → play s ((checkSaveKey o).map Event.move) = some s) ∧
      (¬ CheckClean o → play s ((checkSaveKey o).map Event.move) = none ∨
        play s ((checkSaveKey o).map Event.move) = some (insert (.key .known) s)) := by
  by_cases hload : o.ok .loadKey = true <;> by_cases hnew : o.ok .keyNewKnown = true <;>
    by_cases hrsa : o.has secTypeRsaKey = true <;>
    simp [checkSaveKey, CheckClean, newKey, keyPtr, hload, hnew, hrsa, Event.move, keyHandle, hk,
      hn]

/-- The lock or the slot of `check_save_key` stays behind. -/
def Leaves (es : List Event) : Prop :=
  ∀ s', play withKey (es.map Event.move) = some s' → .hostKeyLock ∈ s' ∨ .key .known ∈ s'

theorem play_answerRequest :
    (CheckClean o → (keyAccepted o = true → KeySendClean cfg o) →
        play withKey ((answerRequest cfg o).map Event.move) = some withKey) ∧
      (¬ (CheckClean o ∧ (keyAccepted o = true → KeySendClean cfg o)) →
        Leaves (answerRequest cfg o)) := by
  have hcheck := play_checkSaveKey (o := o) (s := withKey) (by decide) (by decide)
  constructor
  · intro hclean hsend
    rw [answerRequest, play_events_append (hcheck.1 hclean)]
    split
    case isTrue hacc => exact play_send_withKey.1 (hsend hacc)
    case isFalse => rfl
  · intro hnot s' hplay
    rw [answerRequest] at hplay
    by_cases hclean : CheckClean o
    · rw [play_events_append (hcheck.1 hclean)] at hplay
      rw [not_and, Classical.not_imp] at hnot
      obtain ⟨hacc, hsend⟩ := hnot hclean
      rw [if_pos hacc, play_send_withKey.2 hsend] at hplay
      obtain rfl := Option.some.inj hplay
      simp
    · rcases hcheck.2 hclean with hnone | hsome
      · rw [List.map_append, play_append_of_none hnone] at hplay
        cases hplay
      · rw [play_events_append hsome] at hplay
        right
        split at hplay
        · have hsend : (KeySendClean cfg o → _) ∧ (¬ KeySendClean cfg o → _) :=
            play_rsaHostKeySend (s := insert (.key .known) withKey) (by decide) (by decide)
              (by decide)
          by_cases hk : KeySendClean cfg o
          · rw [hsend.1 hk] at hplay
            obtain rfl := Option.some.inj hplay
            simp
          · rw [hsend.2 hk] at hplay
            obtain rfl := Option.some.inj hplay
            simp
        · obtain rfl := Option.some.inj hplay
          simp

theorem play_takeResponse (hload : o.ok .backupLoad = true) :
    (CheckClean o → play withKey ((takeResponse o).map Event.move) = some withKey) ∧
      (¬ CheckClean o → Leaves (takeResponse o)) := by
  have hcheck := play_checkSaveKey (o := o) (s := insert (.pdu .loaded) withKey) (by decide)
    (by decide)
  have hstart : play withKey ([Event.load, .touch .this].map Event.move) =
      some (insert (.pdu .loaded) withKey) := by
    decide
  rw [takeResponse, if_neg (by simp [hload]), Leaves, List.append_assoc]
  simp only [play_events_append hstart]
  constructor
  · intro hclean
    rw [play_events_append (hcheck.1 hclean)]
    split_ifs <;> simp [Event.move, withKey]
  · intro hclean s' hplay
    rcases hcheck.2 hclean with hnone | hsome
    · rw [List.map_append, play_append_of_none hnone] at hplay
      cases hplay
    · rw [play_events_append hsome] at hplay
      right
      refine mem_of_play hplay (by simp) ?_
      split_ifs <;> simp [Event.move]

theorem play_useKeys :
    (KeysClean cfg o → play withKey ((useKeys cfg o).map Event.move) = some withKey) ∧
      (¬ KeysClean cfg o → Leaves (useKeys cfg o)) := by
  rw [useKeys, KeysClean]
  cases hread : readKeys o with
  | none =>
    have hplay : play withKey ([Event.overrun].map Event.move) = none := by decide
    refine ⟨fun h => absurd rfl h.1, fun _ s' h => ?_⟩
    rw [hplay] at h
    cases h
  | some complete =>
    cases complete with
    | false => simp
    | true =>
      simp only [ne_eq, reduceCtorEq, not_false_eq_true, true_and, forall_const]
      by_cases hreq : o.has secTypeRequest = true
      · simp only [hreq, true_or, forall_const, if_true]
        exact ⟨fun h => play_answerRequest.1 h.1 h.2, play_answerRequest.2⟩
      by_cases hload : o.ok .backupLoad = true
      · simpa [hreq, hload] using play_takeResponse hload
      · simp [hreq, hload, takeResponse]

theorem settles_securityControlUp_iff :
    Settles {.pdu .this} (securityControlUp cfg o p).all ↔ ControlSound cfg o := by
  rw [securityControlUp, settles_after_iff (t := {.pdu .this}) (by simp [Event.move]),
    ControlSound]
  by_cases hflags : o.ok (.read 0) = true
  case neg =>
    rw [if_pos (by simpa using hflags)]
    exact iff_of_true settles_discard fun h => absurd h hflags
  by_cases henabled : o.has secTypeEnabled = true
  case neg =>
    rw [if_neg (by simp [hflags]), if_pos (by simpa using henabled)]
    exact iff_of_true (settles_goTo (by simp)) fun _ h => absurd h henabled
  by_cases hsec : cfg.security = true
  case neg =>
    rw [if_neg (by simp [hflags]), if_neg (by simp [henabled]), if_pos (by simpa using hsec)]
    exact iff_of_true settles_discard fun _ _ h => absurd h hsec
  rw [if_neg (by simp [hflags]), if_neg (by simp [henabled]), if_neg (by simp [hsec])]
  simp only [hflags, henabled, hsec, forall_const]
  by_cases hnew : o.ok .keyNew = true
  case neg =>
    refine iff_of_false (fun h => hnew ?_) fun h => hnew h.1
    apply h.ok_of_keyFree (by simp) (k := .peer)
    simp
  have hptr : keyPtr o .keyNew .peer = some .peer := if_pos hnew
  rw [settles_after_iff (play_newKey hnew), hptr, settles_after_iff (t := withKey) (by decide),
    all_after]
  by_cases hclean : KeysClean cfg o
  · rw [settles_append_iff (play_useKeys.1 hclean), settles_after_iff (t := {.pdu .this})
      (by decide)]
    exact iff_of_true settles_discard ⟨hnew, hclean⟩
  · refine iff_of_false ?_ fun h => hclean h.2
    cases hplay : play withKey ((useKeys cfg o).map Event.move) with
    | none => exact not_settles_append hplay
    | some s' =>
      rw [settles_append_iff hplay]
      rcases play_useKeys.2 hclean s' hplay with hmem | hmem
      · exact not_settles_of_mem hmem (by simp [Event.move, keyHandle])
      · exact not_settles_of_mem hmem (by simp [Event.move, keyHandle])

/-! ## The two handlers -/

theorem settles_securityUp_iff : Settles {.pdu .this} (securityUp cfg o p).all ↔
    if p.sitp then p.failed = false → TransportSound cfg o else ControlSound cfg o := by
  rw [securityUp]
  split_ifs
  · exact settles_securityTransportUp_iff
  · exact settles_securityControlUp_iff

theorem settles_securityDown_iff : Settles {.pdu .this} (securityDown cfg o p).all ↔
    if cfg.security then
      p.sitp = true → o.ok .keyNew = true ∧ (o.ok .loadKey = false → KeySendClean cfg o)
    else o.ok (.write 0) = true := by
  rw [securityDown]
  split_ifs with hsec hsitp hwrite
  · simpa [hsitp] using settles_securityTransportDown_iff
  · rw [securityControlDown]
    split_ifs <;> simp [hsitp, Settles, Event.move]
  · simpa [Settles] using hwrite
  · simpa [Settles, Event.move] using hwrite

end Mlvm.Stack
