import Mlvm.Transport.ServerInvariant

/-!
# No imago is duplicated in transit

The invariant of all servers together, step by step, and what it gives for every run: an imago
that was **returned** to its sender has no backup and no timer there and is delivered nowhere, and
one that was **acknowledged** can neither be sent again nor be returned.

This holds as long as no send error is reported for a REQUEST whose backup is still stored: that
branch returns the imago and forgets to destroy the backup, so a late ACCEPT has it delivered too.
-/

namespace Mlvm.Transport

variable {Host : Type} [DecidableEq Host]
  {own own' : Owner Host} {phase phase' : Nat → Phase Host} {h : Host} {s s' : Server Host}
  {i : Nat}

/-! ## The system -/

/-- The invariant of the system: that of each server, and imagos not yet sent are new. -/
structure Invariant (own : Owner Host) (phase : Nat → Phase Host) (w : World Host) : Prop where
  server : ∀ h, Local own phase h (w.server h)
  new : ∀ i, w.sent ≤ i → phase i = .new

variable {w : World Host}

theorem set_server_self (w : World Host) (h : Host) (s : Server Host) :
    (w.set h s).server h = s :=
  Function.update_self ..

theorem set_server_of_ne (w : World Host) {h a : Host} (s : Server Host) (ha : a ≠ h) :
    (w.set h s).server a = w.server a :=
  Function.update_of_ne ha ..

theorem Invariant.set (hw : Invariant own phase w) (hs : Local own phase h s) :
    Invariant own phase (w.set h s) := by
  refine ⟨fun a => ?_, hw.new⟩
  by_cases ha : a = h
  · subst ha
    rwa [set_server_self]
  · rw [set_server_of_ne w s ha]
    exact hw.server a

theorem Invariant.move (hw : Invariant own phase w) (hm : Moved h phase phase')
    (hs : Local own phase' h s) : Invariant own phase' (w.set h s) := by
  refine ⟨fun a => ?_, fun i hi => ?_⟩
  · by_cases ha : a = h
    · subst ha
      rwa [set_server_self]
    · rw [set_server_of_ne w s ha]
      exact (hw.server a).moved ha hm
  · by_contra hne
    have hmoved := hm i fun heq => hne (heq.trans (hw.new i hi))
    rw [hw.new i hi] at hmoved
    simp at hmoved

/-- The pair `g`, `q` of the server `a` is in use for no imago but `i`. -/
def World.PairFree (w : World Host) (a : Host) (g : UInt16) (q : UInt32) (i : Nat) : Prop :=
  ∀ h j, UsedFor h (w.server h) a g q j → j = i

theorem Invariant.reown (hw : Invariant own phase w) {a : Host} {g : UInt16} {q : UInt32}
    (hfree : w.PairFree a g q i) : Invariant (Transport.reown own a g q i) phase w :=
  ⟨fun h => (hw.server h).reown (hfree h), hw.new⟩

/-- What a step must not do for the code to keep an imago single: report a send error for a
REQUEST whose backup is still there; run out of frames after the backup of `down` is made; use a
pair of ids that is in use for another imago, be it drawn anew or read from a payload a receiver's
timer put back; let the timer of a backup fire while its ACCEPT is being handled. -/
def World.Sound (w : World Host) : Event Host → Prop
  | .process h n r => ∀ p, (w.server h).queue[n]? = some p →
      (p.state = .adaDown → (r.saved = true → 3 ≤ r.room) ∧
        (p.adaType &&& adaTypeRetry = 0 →
          w.PairFree h (w.server h).generation (w.server h).sequence p.imago)) ∧
      (p.state ≠ .adaDown → (w.server h).shutdown = false → r.saved = true →
        w.PairFree p.sourceServer (readHeader p).genid (readHeader p).seqid p.imago)
  | .arrive h n _ fired => ∀ p id, (w.server h).lower[n]? = some p → p.adaType = adaTypeAccept →
      fired = some id → ((w.server p.destinationServer).timerTlb id).status = .active →
      findEntry (w.server p.destinationServer).backupList
        ((w.server p.destinationServer).timerTlb id).arg ≠ some (.sent p.genid p.seqid)
  | .sendError h n _ _ _ => ∀ p, (w.server h).lower[n]? = some p → p.sitp = true →
      fileOf (w.server h).files (.sent p.genid p.seqid) = none
  | _ => True

variable [Inhabited Host]

theorem Invariant.send (hw : Invariant own phase w) (h destination : Host) (data : List UInt8) :
    ∃ phase', Invariant own phase' (w.step (.send h destination data)) := by
  have hnew := hw.new w.sent (Nat.le_refl _)
  have hno : ∀ a, Local own (Function.update phase w.sent (.queued h)) a (w.server a) ∧
      NoToken (w.server a) w.sent := fun a => by
    have hno := (hw.server a).noToken (i := w.sent) (by simp [hnew]) (by simp [hnew])
      (by simp [hnew]) (by simp [hnew]) (by simp [hnew])
    refine ⟨(hw.server a).rephase hno fun hi => ?_, hno⟩
    rcases (hw.server a).acknowledged _ hi with ⟨g, q, hi⟩ | hi <;> rw [hnew] at hi <;> cases hi
  refine ⟨Function.update phase w.sent (.queued h), fun a => ?_, fun i hi => ?_⟩
  · show Local own _ a ((w.set h _).server a)
    by_cases ha : a = h
    · subst ha
      rw [set_server_self]
      refine (hno a).1.enqueueDown rfl (Function.update_self ..) rfl rfl
        (fun hr => absurd (show (0 : UInt16) &&& adaTypeRetry = 0 by decide) hr) ?_
      rw [List.countP_eq_zero]
      intro p hp hw
      obtain ⟨hstate, hi⟩ : p.state = .adaDown ∧ p.imago = w.sent := of_decide_eq_true hw
      exact (hno a).2.queue p hp hstate hi
    · rw [set_server_of_ne w _ ha]
      exact (hno a).1
  · have hi' : w.sent + 1 ≤ i := by simpa [World.step, World.sent] using hi
    rw [Function.update_of_ne (by omega)]
    exact hw.new i (by omega)

omit [Inhabited Host] in
/-- A queued PDU to be sent: when it is taken out, its imago has no token left. -/
theorem Local.take_waiting (hs : Local own phase h s) {n : Nat} {p : Pdu Host}
    (hp : s.queue[n]? = some p) (hstate : p.state = .adaDown) :
    phase p.imago = .queued h ∧ NoToken { s with queue := s.queue.eraseIdx n } p.imago := by
  obtain ⟨hphase, -⟩ := hs.queued p (List.mem_of_getElem? hp) hstate
  refine ⟨hphase, (hs.take n).noToken (fun _ => ?_) ?_ ?_ ?_ ?_⟩
  · have hlt := countP_eraseIdx_lt (P := waits p.imago) hp (by simp [waits, hstate])
    have hone := hs.queuedOnce p.imago
    show (s.queue.eraseIdx n).countP (waits p.imago) = 0
    omega
  all_goals simp [hphase]

theorem Invariant.process (hw : Invariant own phase w) {n : Nat} {r : Resources}
    (hsound : w.Sound (.process h n r)) :
    ∃ own' phase', Invariant own' phase' (w.step (.process h n r)) := by
  rw [World.step]
  cases hp : (w.server h).queue[n]? with
  | none => exact ⟨own, phase, hw⟩
  | some p =>
      obtain ⟨hdown, hup⟩ := hsound p hp
      have hmem := List.mem_of_getElem? hp
      have htake := (hw.server h).take n
      dsimp only
      split_ifs with hstate
      · obtain ⟨hphase, hsitp, herror, hretry⟩ := (hw.server h).queued p hmem hstate
        obtain ⟨hroom, hfree⟩ := hdown hstate
        have hno := ((hw.server h).take_waiting hp hstate).2
        have hused : ∀ j, p.adaType &&& adaTypeRetry = 0 →
            UsedFor h { w.server h with queue := (w.server h).queue.eraseIdx n } h
              (w.server h).generation (w.server h).sequence j → j = p.imago := fun j hnew hj => by
          refine hfree hnew h j ?_
          cases hj with
          | lower hp' ho hg hq => exact .lower hp' ho hg hq
          | received hf => exact .received hf
          | sent ha hf => exact .sent ha hf
          | queue hp' hs hr ha hg hq =>
              exact .queue (List.mem_of_mem_eraseIdx hp') hs hr ha hg hq
        obtain ⟨x, hlocal⟩ := htake.down r hphase hno hstate hsitp herror hretry hroom
          fun hnew j => hused j hnew
        have hmoved := Moved.update (Or.inl hphase) x
        by_cases hnew : p.adaType &&& adaTypeRetry = 0
        · rw [if_pos hnew] at hlocal
          exact ⟨_, _, (hw.reown (hfree hnew)).move hmoved hlocal⟩
        · rw [if_neg hnew] at hlocal
          exact ⟨_, _, hw.move hmoved hlocal⟩
      · have hcame := (hw.server h).cameIn p hmem hstate
        simp only [imagoLayerADArendezvousUp, hcame.sitp, if_true,
          imagoLayerADArendezvousTransportUp, hcame.error, Bool.false_eq_true, if_false]
        split_ifs with hshut
        · exact ⟨own, phase, hw.set htake⟩
        · have hcame' : CameIn (readHeader p) := ⟨hcame.state, hcame.sitp, hcame.error, hcame.retry⟩
          by_cases hsaved : r.saved = true
          · have hreown := hw.reown (hup hstate (by simpa using hshut) hsaved)
            refine ⟨_, phase, hreown.set (((hreown.server h).take n).storeRequest r hcame' ?_)⟩
            exact fun _ => reown_self ..
          · refine ⟨own, phase, hw.set (htake.storeRequest r hcame' ?_)⟩
            exact fun h => absurd h hsaved

/-- What an ACCEPT does at the sender. -/
theorem Local.controlAccept (hs : Local own phase h s) (r : Resources) {p : Pdu Host}
    (hown : own h p.genid p.seqid = p.imago) {fired : Option Nat}
    (hfired : ∀ id, fired = some id → (s.timerTlb id).status = .active →
      findEntry s.backupList (s.timerTlb id).arg ≠ some (.sent p.genid p.seqid)) :
    ∃ phase', Moved h phase phase' ∧
      Local own phase' h (controlAccept r (between r fired) s p) := by
  have hnack : Local own phase h (dispatchControlPdu r s adaTypeNack p) :=
    hs.dispatch r (Or.inr rfl) (by rw [if_neg (by decide)]; exact hown)
  rw [Transport.controlAccept]
  split_ifs with hgen
  · exact ⟨phase, Moved.refl h phase, hnack⟩
  · cases hload : s.backupLoad (.sent p.genid p.seqid) with
    | none => exact ⟨phase, Moved.refl h phase, hnack⟩
    | some inc =>
        obtain ⟨f, hf, rfl⟩ := Option.map_eq_some_iff.mp hload
        -- the timer that fires meanwhile is another imago's, so the backup is still there
        obtain ⟨phase₁, hmoved, hlocal, hkeep⟩ : ∃ phase₁, Moved h phase phase₁ ∧
            Local own phase₁ h (between r fired s) ∧
            fileOf (between r fired s).files (.sent p.genid p.seqid) = some f := by
          cases fired with
          | none => exact ⟨phase, Moved.refl h phase, hs, hf⟩
          | some id =>
              obtain ⟨phase₁, hmoved, hlocal⟩ := hs.sigalrm r id
              refine ⟨phase₁, hmoved, hlocal, ?_⟩
              show fileOf (sigalrmHandler r s id).files _ = some f
              rw [sigalrmHandler]
              split_ifs with hactive
              · rw [fileOf_timeoutCallback r (s.fire id) _ _ (hfired id rfl hactive.2)]
                exact hf
              · exact hf
        obtain ⟨hphase, hack⟩ := hlocal.acknowledge r hkeep hown
        exact ⟨_, hmoved.trans (Moved.update (Or.inr ⟨_, _, hphase⟩) _), hack⟩

omit [Inhabited Host] in
/-- An ACK in flight: when it arrives, its imago has no token left at the sender. -/
theorem Local.leave_ack (hs : Local own phase h s) {n : Nat} {p : Pdu Host}
    (hp : s.lower[n]? = some p) (htype : p.adaType = adaTypeAck) :
    phase p.imago = .acknowledged h p.genid p.seqid ∧ NoToken (s.leave n) p.imago := by
  have hphase := hs.ack p (List.mem_of_getElem? hp) htype
  refine ⟨hphase, (hs.lose n).noToken ?_ ?_ (fun _ _ _ => ?_) ?_ ?_⟩
  · simp [hphase]
  · simp [hphase]
  · have hlt := countP_eraseIdx_lt (P := acks p.imago) hp (by simp [acks, htype])
    have hone := hs.ackOnce p.imago
    show (s.lower.eraseIdx n).countP (acks p.imago) = 0
    omega
  all_goals simp [hphase]

omit [Inhabited Host] in
/-- The server of a world in which a PDU has left the lower layers of `h`. -/
theorem server_leave {P : Server Host → Prop} {n : Nat} {a : Host}
    (hleave : ∀ s : Server Host, P s → P (s.leave n)) (ha : P (w.server a)) :
    P ((w.set h ((w.server h).leave n)).server a) := by
  by_cases hah : a = h
  · subst hah
    rw [set_server_self]
    exact hleave _ ha
  · rwa [set_server_of_ne w _ hah]

/-- **A PDU arrives.** -/
theorem Invariant.arrive (hw : Invariant own phase w) {n : Nat} {r : Resources}
    {fired : Option Nat} (hsound : w.Sound (.arrive h n r fired)) :
    ∃ phase', Invariant own phase' (w.step (.arrive h n r fired)) := by
  rw [World.step]
  cases hp : (w.server h).lower[n]? with
  | none => exact ⟨phase, hw⟩
  | some p =>
      obtain ⟨hown, ⟨data, hframes⟩, hkind⟩ := (hw.server h).lower p (List.mem_of_getElem? hp)
      have hlost := hw.set ((hw.server h).lose n)
      have hread : readHeader (received h p) = { received h p with
          genid := p.genid, adaType := p.adaType, seqid := p.seqid, frames := data } :=
        readHeader_headed _ hframes
      dsimp only
      rw [imagoLayerADArendezvousUp]
      rcases hkind with ⟨hsitp, htype⟩ | ⟨hsitp, htype⟩
      · -- a REQUEST is stored, unless the server is shutting down
        rw [if_pos (show (received h p).sitp = true from hsitp),
          imagoLayerADArendezvousTransportUp, if_neg (by simp [received, pduNew])]
        split_ifs with hshut
        · exact ⟨phase, hlost.set (hlost.server p.destinationServer)⟩
        · refine ⟨phase, hlost.set ((hlost.server p.destinationServer).storeRequest r ?_ ?_)⟩
          · rw [hread]
            exact ⟨rfl, hsitp, rfl, rfl⟩
          · rw [hread]
            intro _
            rwa [origin, if_neg (isRequest_ne_accept htype)] at hown
      · rw [if_neg (show ¬ (received h p).sitp = true by simpa [received] using hsitp),
          imagoLayerADArendezvousControlUp, hread]
        dsimp only
        rcases htype with htype | htype | htype
        · -- an ACCEPT, at the server whose ids it carries
          rw [if_pos htype]
          rw [origin, if_pos htype] at hown
          obtain ⟨phase', hmoved, hlocal⟩ := (hlost.server p.destinationServer).controlAccept r
            (p := { received h p with
              genid := p.genid, adaType := p.adaType, seqid := p.seqid, frames := data })
            hown fun id hid => by
              have hother := hsound p id hp htype hid
              exact server_leave (P := fun s => (s.timerTlb id).status = .active →
                findEntry s.backupList (s.timerTlb id).arg ≠ some (.sent p.genid p.seqid))
                (fun _ hs => hs) hother
          exact ⟨phase', hlost.move hmoved hlocal⟩
        · -- an ACK, at the server that stores the imago
          rw [if_neg (by rw [htype]; decide), if_pos htype]
          rw [origin, if_neg (by rw [htype]; decide)] at hown
          obtain ⟨hphase, hnoh⟩ := (hw.server h).leave_ack hp htype
          have hno : ∀ a, NoToken ((w.set h ((w.server h).leave n)).server a) p.imago := by
            intro a
            by_cases ha : a = h
            · subst ha
              rwa [set_server_self]
            · refine (hlost.server a).noToken ?_ ?_ (fun _ _ hp => absurd hp ?_) ?_ ?_ <;>
                simp [hphase, Ne.symm ha]
          cases hf : fileOf ((w.set h ((w.server h).leave n)).server p.destinationServer).files
              (.received h p.genid p.seqid) with
          | none =>
              rw [controlAck_none hf]
              exact ⟨phase, hlost.set (hlost.server p.destinationServer)⟩
          | some f =>
              refine ⟨Function.update phase p.imago .delivered, fun a => ?_, fun i hi => ?_⟩
              · by_cases ha : a = p.destinationServer
                · subst ha
                  rw [set_server_self]
                  exact (hlost.server p.destinationServer).deliver (p := { received h p with
                    genid := p.genid, adaType := p.adaType, seqid := p.seqid, frames := data })
                    hf (hno _) hown
                · rw [set_server_of_ne _ _ ha]
                  exact (hlost.server a).rephase (hno a) fun _ => Or.inr rfl
              · have hi' : i ≠ p.imago := fun hi' => by
                  have hnew := hw.new i hi
                  rw [hi', hphase] at hnew
                  cases hnew
                rw [Function.update_of_ne hi']
                exact hw.new i hi
        · rw [if_neg (by rw [htype]; decide), if_neg (by rw [htype]; decide), if_pos htype]
          exact ⟨phase, hlost.set ((hlost.server p.destinationServer).controlNack _)⟩

/-- A send error for a REQUEST whose backup is gone has no effect. -/
theorem Invariant.sendError (hw : Invariant own phase w) {n : Nat} {errno : PduError}
    {eLayer : StateId} {r : Resources} (hsound : w.Sound (.sendError h n errno eLayer r)) :
    Invariant own phase (w.step (.sendError h n errno eLayer r)) := by
  have hlose := hw.set ((hw.server h).lose n)
  rw [World.step]
  cases hp : (w.server h).lower[n]? with
  | none => exact hw
  | some p =>
      dsimp only
      split_ifs with hsitp
      · have hnone : ((w.server h).leave n).backupLoad (.sent p.genid p.seqid) = none := by
          rw [Server.backupLoad, Server.leave, hsound p hp hsitp, Option.map_none]
        simp only [imagoLayerADArendezvousUp, hsitp, if_true, imagoLayerADArendezvousTransportUp,
          recoverBackup, hnone]
        exact hlose
      · exact hlose

/-- **One step keeps the invariant.** -/
theorem Invariant.step (hw : Invariant own phase w) {e : Event Host} (hsound : w.Sound e) :
    ∃ own' phase', Invariant own' phase' (w.step e) := by
  cases e with
  | send h destination data => exact ⟨own, hw.send h destination data⟩
  | process h n r => exact hw.process hsound
  | arrive h n r fired => exact ⟨own, hw.arrive hsound⟩
  | lose h n => exact ⟨own, phase, hw.set ((hw.server h).lose n)⟩
  | sendError h n errno eLayer r => exact ⟨own, phase, hw.sendError hsound⟩
  | alarm h id r =>
      obtain ⟨phase', hmoved, hlocal⟩ := (hw.server h).sigalrm r id
      exact ⟨own, phase', hw.move hmoved hlocal⟩
  | shutdown h => exact ⟨own, phase, hw.set { hw.server h with }⟩

/-- A run whose steps all meet the condition. -/
def World.SoundRun (w : World Host) : List (Event Host) → Prop
  | [] => True
  | e :: es => w.Sound e ∧ (w.step e).SoundRun es

theorem Invariant.run (hw : Invariant own phase w) {es : List (Event Host)}
    (hsound : w.SoundRun es) : ∃ own' phase', Invariant own' phase' (w.run es) := by
  induction es generalizing w own phase with
  | nil => exact ⟨own, phase, hw⟩
  | cons e es ih =>
      obtain ⟨own', phase', hstep⟩ := hw.step hsound.1
      exact ih hstep hsound.2

omit [Inhabited Host] in
theorem invariant_start (generation : Host → UInt16) :
    Invariant (fun _ _ _ => 0) (fun _ => .new) (World.start generation) where
  server h := by
    constructor <;> simp [World.start, Server.start, fileOf, Timer.clear]
  new _ _ := rfl

/-! ## What is never duplicated -/

omit [DecidableEq Host] [Inhabited Host] in
/-- The imago was handed to the marshaling layer of `d`, without an error. -/
def World.Delivered (w : World Host) (i : Nat) (d : Host) : Prop :=
  ∃ p ∈ (w.server d).upper, p.imago = i ∧ p.error = false

/-- The imago was handed back to the marshaling layer of `h` as an error. -/
def World.Returned (w : World Host) (i : Nat) (h : Host) : Prop :=
  ∃ p ∈ (w.server h).upper, p.imago = i ∧ p.error = true

/-- The server `h` has a backup of the imago that it can send again or return. -/
def World.Held (w : World Host) (i : Nat) (h : Host) : Prop :=
  ∃ g q f, fileOf (w.server h).files (.sent g q) = some f ∧ f.pdu.imago = i

/-- The server `h` is about to send the imago. -/
def World.Waiting (w : World Host) (i : Nat) (h : Host) : Prop :=
  ∃ p ∈ (w.server h).queue, p.state = .adaDown ∧ p.imago = i

/-- A timer of `h` runs for a request of the imago, or for one whose backup is gone. -/
def World.TimerRuns (w : World Host) (i : Nat) (h : Host) : Prop :=
  ∃ t g q, ((w.server h).timerTlb t).status = .active ∧
    findEntry (w.server h).backupList ((w.server h).timerTlb t).arg = some (.sent g q) ∧
    ∀ f, fileOf (w.server h).files (.sent g q) = some f → f.pdu.imago = i

/-- **No imago is duplicated**: once returned its backup and timer are gone, once acknowledged or
delivered its sender can neither send nor return it. -/
structure World.NeverDuplicated (w : World Host) : Prop where
  returned : ∀ i h, w.Returned i h →
    ∀ a, ¬ w.Delivered i a ∧ ¬ w.Held i a ∧ ¬ w.Waiting i a ∧ ¬ w.TimerRuns i a
  acknowledged : ∀ i h, i ∈ (w.server h).acknowledged →
    ∀ a, ¬ w.Returned i a ∧ ¬ w.Held i a ∧ ¬ w.Waiting i a ∧ ¬ w.TimerRuns i a
  delivered : ∀ i d, w.Delivered i d →
    ∀ a, ¬ w.Returned i a ∧ ¬ w.Held i a ∧ ¬ w.Waiting i a ∧ ¬ w.TimerRuns i a

omit [Inhabited Host] in
/-- An imago that is neither queued nor stored has left its sender. -/
theorem Invariant.gone (hw : Invariant own phase w) (a : Host) (hqueued : phase i ≠ .queued a)
    (hstored : ∀ g q, phase i ≠ .stored a g q) :
    ¬ w.Held i a ∧ ¬ w.Waiting i a ∧ ¬ w.TimerRuns i a := by
  refine ⟨fun ⟨g, q, f, hf, hi⟩ => ?_, fun ⟨p, hp, hstate, hi⟩ => ?_,
    fun ⟨t, g, q, ht, he, hi⟩ => ?_⟩
  · exact hstored g q (hi ▸ ((hw.server a).sent g q f hf).1)
  · exact hqueued (hi ▸ ((hw.server a).queued p hp hstate).1)
  · obtain ⟨f, hf, -⟩ := (hw.server a).timer t g q ht (findEntry_mem he)
    exact hstored g q (hi f hf ▸ ((hw.server a).sent g q f hf).1)

omit [Inhabited Host] in
theorem Invariant.neverDuplicated (hw : Invariant own phase w) : w.NeverDuplicated := by
  have hdelivered : ∀ {i d}, w.Delivered i d → phase i = .delivered := by
    rintro i d ⟨p, hp, rfl, herror⟩
    simpa [herror] using (hw.server d).upper p hp
  have hreturned : ∀ {i h}, w.Returned i h → phase i = .returned h := by
    rintro i h ⟨p, hp, rfl, herror⟩
    simpa [herror] using (hw.server h).upper p hp
  refine ⟨fun i h hi a => ?_, fun i h hi a => ?_, fun i d hi a => ?_⟩
  · have hphase := hreturned hi
    refine ⟨fun hd => ?_, hw.gone a (by simp [hphase]) (by simp [hphase])⟩
    rw [hdelivered hd] at hphase
    cases hphase
  · rcases (hw.server h).acknowledged i hi with ⟨g, q, hphase⟩ | hphase
    all_goals
      refine ⟨fun hr => ?_, hw.gone a (by simp [hphase]) (by simp [hphase])⟩
      rw [hreturned hr] at hphase
      cases hphase
  · have hphase := hdelivered hi
    refine ⟨fun hr => ?_, hw.gone a (by simp [hphase]) (by simp [hphase])⟩
    rw [hreturned hr] at hphase
    cases hphase

/-- **The rendez-vous never duplicates an imago** in a run whose steps all meet the condition. -/
theorem rendezvous_never_duplicates (generation : Host → UInt16) (es : List (Event Host))
    (hsound : (World.start generation).SoundRun es) :
    ((World.start generation).run es).NeverDuplicated := by
  obtain ⟨own, phase, hinv⟩ := (invariant_start generation).run hsound
  exact hinv.neverDuplicated

/-- An imago sent from one server to the other, accepted, acknowledged and delivered. -/
def delivery : List (Event Bool) :=
  [.send false true [1, 2, 3], .process false 0 .ample, .arrive false 0 .ample none,
    .arrive true 0 .ample none, .arrive false 0 .ample none]

theorem soundRun_delivery : (World.start fun _ : Bool => 7).SoundRun delivery := by
  refine ⟨trivial, ⟨fun p hp => ⟨fun _ => ⟨fun _ => ?_, ?_⟩, ?_⟩, ⟨?_, ⟨?_, ⟨?_, trivial⟩⟩⟩⟩⟩
  · exact Nat.le_refl 3
  · intro _ h j hj
    cases h <;> cases hj
    all_goals simp_all [World.step, World.start, Server.start, World.set, Server.pduEnqueue,
      marshaled, pduNew, fileOf, adaTypeRetry]
  · intro hstate
    obtain rfl : marshaled 0 true [1, 2, 3] = p := by
      simpa [World.step, World.start, Server.start, World.set, World.sent, Server.pduEnqueue,
        marshaled, pduNew] using hp
    exact absurd rfl hstate
  all_goals
    intro _ _ _ _ hfired
    cases hfired

theorem rendezvous_never_duplicates_delivery :
    ((World.start fun _ : Bool => 7).run delivery).Delivered 0 true ∧
      ((World.start fun _ : Bool => 7).run delivery).NeverDuplicated := by
  refine ⟨?_, rendezvous_never_duplicates _ _ soundRun_delivery⟩
  show ∃ p ∈ (((World.start fun _ : Bool => 7).run delivery).server true).upper, _
  decide

/-- The REQUEST arrives and is accepted, its retry cannot be sent, and the ACCEPT comes after the
error was reported. -/
def lateAccept : List (Event Bool) :=
  [.send false true [1, 2, 3], .process false 0 .ample, .arrive false 0 .ample none,
    .alarm false 0 .ample, .process false 0 .ample,
    .sendError false 0 .connrefused .securityDown .ample,
    .arrive true 0 .ample none, .arrive false 0 .ample none]

/-- **A reported send error leaves the backup behind**: the imago is returned to its sender and
delivered to the receiver. -/
theorem sendError_duplicates :
    ((World.start fun _ : Bool => 7).run lateAccept).Returned 0 false ∧
      ((World.start fun _ : Bool => 7).run lateAccept).Delivered 0 true ∧
      ¬ ((World.start fun _ : Bool => 7).run lateAccept).NeverDuplicated := by
  have hreturned : ((World.start fun _ : Bool => 7).run lateAccept).Returned 0 false := by
    show ∃ p ∈ (((World.start fun _ : Bool => 7).run lateAccept).server false).upper, _
    decide
  have hdelivered : ((World.start fun _ : Bool => 7).run lateAccept).Delivered 0 true := by
    show ∃ p ∈ (((World.start fun _ : Bool => 7).run lateAccept).server true).upper, _
    decide
  exact ⟨hreturned, hdelivered, fun hno => (hno.returned 0 false hreturned true).1 hdelivered⟩

end Mlvm.Transport
