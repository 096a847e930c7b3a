import Mlvm.Stack.Conserves

/-!
# When a step is in order

The parts of `Conserves` put together for each state: what settles (`Mlvm.Stack.Settles`), where
PDUs go (`Mlvm.Stack.Conserves`), and here what is read from the frames of a flagged PDU and what
becomes of an imago.

Main result: `conserves_iff`, a step is in order just when `Sound` holds. It does not when the key
of a host that is not known arrives (`not_conserves_learn`).
-/

namespace Mlvm.Stack

open Mlvm.Ownership

variable {cfg : Config} {o : Outcomes} {p q : Pdu} {es fs : List Event}

/-! ## The parts -/

theorem handsBack_cons : HandsBack p (.touch .this :: es) ↔ HandsBack p es := by
  rw [HandsBack, HandsBack]
  split <;> simp

/-- The flag of an incoming PDU does not come from its header. -/
def NetworkClean (p : Pdu) (es : List Event) : Prop :=
  p.state = .connectionUp → ∀ q, .enqueue .this q ∈ es → q.failed = false

/-- Nothing is misread from a flagged PDU. -/
def Unread (p : Pdu) (es : List Event) : Prop := p.failed = true → ∀ e ∈ es, e.misreads p = false

/-- A step is in order when the four parts that depend on its outcomes are. -/
theorem conserves_iff_parts (hp : Valid p) : Conserves cfg o p ↔
    Settles {.pdu .this} (handler cfg o p).all ∧ Unread p (handler cfg o p).all ∧
      NetworkClean p (handler cfg o p).all ∧ HandsBack p (handler cfg o p).all := by
  constructor
  · rintro ⟨hset, -, -, -, -, hread, hnet, hback⟩
    refine ⟨settles_transportRun_iff.1 hset, fun hf e he => ?_, fun hs q hq => ?_,
      handsBack_cons.1 hback⟩
    · exact hread hf e (List.mem_cons_of_mem _ he)
    · exact hnet hs q (List.mem_cons_of_mem _ hq)
  · rintro ⟨hset, hread, hnet, hback⟩
    have hplay := settles_transportRun_iff.2 hset
    refine ⟨hplay, Settles.placed hplay, fun before e after h => ?_,
      fun _ q _ => stateTable_id q.state, fun r q hq => ?_, fun hf e he => ?_,
      fun hs q hq => ?_, handsBack_cons.2 hback⟩
    · rw [h] at hplay
      exact Settles.untouched hplay
    · rcases List.mem_cons.1 hq with h | h
      · cases h
      · exact (go_handler hp _ h).2
    · rcases List.mem_cons.1 he with rfl | h
      · rfl
      · exact hread hf e h
    · rcases List.mem_cons.1 hq with h | h
      · cases h
      · exact hnet hs q h

/-! ## The way down -/

theorem handsBack_adaDown (hs : p.state = .adaDown) : HandsBack p (adaDown o p).all := by
  simp only [HandsBack, hs]
  rw [adaDown]
  split_ifs
  · right
    refine ⟨_, by simp; rfl, ?_⟩
    simp
  · left
    exact ⟨_, by simp; rfl⟩
  · left
    exact ⟨_, by simp; rfl⟩

theorem handsBack_marshalingDown (hs : p.state = .marshalingDown) (hf : p.failed = false)
    (hicb : p.icb ≠ none) : HandsBack p (marshalingDown o p).all := by
  simp only [HandsBack, hs]
  rw [marshalingDown, if_neg hicb]
  dsimp only
  split_ifs
  · refine ⟨_, by simp; rfl, .inl ?_⟩
    simpa using hf
  · refine ⟨_, by simp; rfl, .inr ?_⟩
    simp

theorem handsBack_protocolDown (hs : p.state = .protocolDown) :
    HandsBack p (protocolDown p).all := by
  simp only [HandsBack, hs]
  intro hicb
  rw [protocolDown, if_neg hicb]
  exact ⟨_, by simp; rfl, by simp⟩

/-! ## The way up -/

theorem unread_goTo (t : StateId) : Unread p (goTo t q).all := by
  intro _
  rw [all_goTo]
  split_ifs <;> simp [Event.misreads]

theorem unread_of_unfailed (hf : p.failed = false) : Unread p es := by
  intro hf'
  rw [hf] at hf'
  cases hf'

theorem networkClean_connectionUp_iff (hs : p.state = .connectionUp) :
    NetworkClean p (connectionUp o p).all ↔
      (o.hdr.accepted = true → o.hdr.flags &&& pduError = 0) := by
  rw [connectionUp, NetworkClean]
  by_cases hacc : o.hdr.accepted = true <;> simp [hs, hacc, Pdu.failed, Pdu.setState]

theorem unread_routingUp : Unread p (routingUp o p).all := by
  intro hf
  rw [routingUp, if_pos hf]
  exact unread_goTo _ hf

theorem unread_securityUp_iff : Unread p (securityUp cfg o p).all ↔
    (p.failed = true → p.sitp = true) := by
  rw [securityUp]
  split_ifs with hsitp
  · refine iff_of_true (fun hf => ?_) fun _ => hsitp
    rw [securityTransportUp, if_pos hf]
    exact unread_goTo _ hf
  · constructor
    · intro h hf
      have hparse := h hf (.parse .security) (by simp [securityControlUp])
      simp [Event.misreads] at hparse
    · intro h hf
      exact absurd (h hf) hsitp

theorem unread_adaUp_iff : Unread p (adaUp o p).all ↔ (p.failed = true → p.sitp = true) := by
  rw [adaUp]
  split_ifs with hsitp
  · refine iff_of_true (fun hf => ?_) fun _ => hsitp
    rw [adaTransportUp, if_pos hf]
    split_ifs <;> simp [Event.misreads]
  · constructor
    · intro h hf
      have hparse := h hf (.parse .rendezvous) (by simp [adaControlUp])
      simp [Event.misreads] at hparse
    · intro h hf
      exact absurd (h hf) hsitp

theorem unread_protocolUp : Unread p (protocolUp o p).all := by
  intro _
  rw [protocolUp]
  split_ifs <;> simp [Event.misreads]

theorem Pdu.unsaved_failed (h : p.unsaved = true) : p.failed = true := by
  simp only [Pdu.unsaved, Bool.and_eq_true] at h
  exact h.1.1

theorem handsBack_protocolUp_iff (hp : Valid p) (hs : p.state = .protocolUp) :
    HandsBack p (protocolUp o p).all ↔ (p.unsaved = true → o.handler = true) := by
  simp only [HandsBack, hs]
  apply imp_congr_right
  intro hu
  rw [protocolUp, hp.marked hs (Pdu.unsaved_failed hu)]
  split_ifs with hh <;> simp [hh]

/-- A flagged PDU with an imago, or one that gets it, moves on to the receive handler. -/
theorem handsBack_restoreStatus {l : List Event} (hs : p.state = .marshalingUp)
    (hf : p.failed = true) : HandsBack p (l ++ (goTo .protocolUp (restoreStatus p)).all) := by
  simp only [HandsBack, hs]
  intro _
  exact ⟨(restoreStatus p).setState .protocolUp, by simp, by simp, by simpa using hf,
    by simp [restoreStatus, hf]⟩

theorem handsBack_discard_iff {l : List Event} (hs : p.state = .marshalingUp)
    (he : ∀ r q, .enqueue r q ∉ l) : HandsBack p (l ++ (discard q).all) ↔ p.unsaved = false := by
  simp only [HandsBack, hs]
  constructor
  · intro h
    by_contra hu
    obtain ⟨q, hq, -⟩ := h (by simpa using hu)
    simp [he] at hq
  · intro hu h
    rw [hu] at h
    cases h

theorem unread_unmarshalUp_iff (hf : p.failed = true) :
    Unread p (unmarshalUp o p).all ↔ p.frames.head? = some .marshaling := by
  rw [unmarshalUp, all_after]
  simp only [Unread, hf, forall_const]
  split_ifs
  · simp [Event.misreads]
  · simp [Event.misreads]
  · rw [all_inside]
    split_ifs <;> simp [Event.misreads]

theorem handsBack_unmarshalUp_iff (hs : p.state = .marshalingUp) (hf : p.failed = true)
    (hset : Settles {.pdu .this} (unmarshalUp o p).all) :
    HandsBack p (unmarshalUp o p).all ↔
      (p.unsaved = true → o.blockBounds = true ∧ o.ok .malloc = true) := by
  have hfits := settles_unmarshalUp_iff.1 hset
  rw [unmarshalUp, all_after]
  by_cases hb : o.blockBounds = true
  case neg =>
    rw [if_pos (by simpa using hb), handsBack_discard_iff hs (by simp)]
    simp [hb]
  by_cases hm : o.ok .malloc = true
  case neg =>
    rw [if_neg (by simp [hb]), if_pos (by simpa using hm), handsBack_discard_iff hs (by simp)]
    simp [hm]
  rw [if_neg (by simp [hb]), if_neg (by simp [hm]), Outcomes.inside, if_pos (hfits hb hm)]
  exact iff_of_true (handsBack_restoreStatus hs hf) fun _ => ⟨hb, hm⟩

/-- **An imago comes back to the marshaling layer.** -/
theorem marshalingUp_iff (hs : p.state = .marshalingUp)
    (hset : Settles {.pdu .this} (marshalingUp o p).all) :
    Unread p (marshalingUp o p).all ∧ HandsBack p (marshalingUp o p).all ↔
      (p.failed = true → ReturnSound o p) := by
  by_cases hf : p.failed = true
  case neg =>
    have hback : HandsBack p (marshalingUp o p).all := by
      simp only [HandsBack, hs]
      exact fun hu => absurd (Pdu.unsaved_failed hu) hf
    exact iff_of_true ⟨unread_of_unfailed (by simpa using hf), hback⟩ fun h => absurd h hf
  have hsound := settles_marshalingUp_iff.1 hset
  simp only [hf, forall_const, ReturnSound]
  by_cases hicb : p.icb = none
  case neg =>
    rw [marshalingUp, if_pos hicb]
    exact iff_of_true ⟨unread_goTo _, handsBack_restoreStatus (l := []) hs hf⟩
      fun h => absurd h hicb
  rw [marshalingUp, if_neg (not_not.2 hicb), if_neg (by simp [(hsound hicb).1])] at hset ⊢
  rw [unread_unmarshalUp_iff hf, handsBack_unmarshalUp_iff hs hf hset]
  simp [hicb]

/-! ## The step -/

/-- On the way down only the ledger depends on the outcomes, given what becomes of an imago. -/
theorem conserves_iff_settles (hp : Valid p) (hs : p.state.up = false)
    (hback : HandsBack p (handler cfg o p).all) :
    Conserves cfg o p ↔ Settles {.pdu .this} (handler cfg o p).all := by
  rw [conserves_iff_parts hp]
  refine ⟨fun h => h.1, fun h => ⟨h, unread_of_unfailed (hp.unfailed (.inl hs)), ?_, hback⟩⟩
  intro h
  simp [h, StateId.up] at hs

/-- On the way up nothing comes from the network. -/
theorem conserves_iff_up (hp : Valid p) (hs : p.state ≠ .connectionUp) : Conserves cfg o p ↔
    Settles {.pdu .this} (handler cfg o p).all ∧ Unread p (handler cfg o p).all ∧
      HandsBack p (handler cfg o p).all := by
  rw [conserves_iff_parts hp]
  have hnet : NetworkClean p (handler cfg o p).all := fun h => absurd h hs
  simp [hnet]

/-- Every call succeeds; a request with an RSA key is in the frames. -/
def allWell : Outcomes where
  ok := fun _ => true
  within := fun _ => true
  hdr := ⟨magicNumber, sitpVersion, pduTypeSitp⟩
  secFlags := secTypeEnabled ||| secTypeRequest ||| secTypeRsaKey
  genid := 0
  adaType := adaTypeRequest
  ttl := 0xff
  blockBounds := true
  forHostname := true
  forAlias := some false
  size := 100
  sent := 100
  destDsa := false
  generation := 0
  shutdown := false
  handler := true
  backup := ⟨pduNew .adaDown, by decide⟩

/-- A control PDU that the routing layer has passed up. -/
def arrived : Pdu := controlPdu .securityUp

theorem valid_arrived : Valid arrived :=
  ⟨fun h => absurd h (by decide), fun h => absurd h (by decide), fun h => absurd h (by decide)⟩

end Mlvm.Stack
