import Mlvm.Transport.Intact

/-!
# No imago is lost in transit

From the sending on, an imago is queued or stored with a running timer at its sender, or stored
**intact** with a running timer at its receiver, or it was delivered or returned. This is so as
long as no answer NACK destroys the receiver's copy while an ACCEPT of the same imago is in flight
or after the sender has acknowledged it; the timer of a receiver's backup must not fire, because
it strips and re-reads the stored payload instead of sending the ACCEPT again.
-/

namespace Mlvm.Transport

variable {Host : Type} [DecidableEq Host]
  {req : Nat → Request Host} {own : Owner Host} {phase : Nat → Phase Host} {h : Host}
  {s s' : Server Host}

/-! ## Someone holds every imago -/

/-- The receiver holds imago `i` under the pair `g`, `q`. -/
def ReceiverHolds (req : Nat → Request Host) (w : World Host) (i : Nat) (g : UInt16) (q : UInt32) :
    Prop :=
  ∃ f, fileOf (w.server (req i).destination).files (.received (req i).source g q) = some f ∧
    f.pdu.imago = i

/-- The sender has the imago still, or has acknowledged or returned it. -/
def SenderKeeps (req : Nat → Request Host) (w : World Host) (i : Nat) : Prop :=
  w.Waiting i (req i).source ∨ w.Held i (req i).source ∨
    i ∈ (w.server (req i).source).acknowledged ∨ w.Returned i (req i).source

/-- An acknowledged imago is delivered, or held where its ACK will look it up. -/
def AckKept (req : Nat → Request Host) (w : World Host) (i : Nat) : Prop :=
  i ∈ (w.server (req i).source).acknowledged → w.Delivered i (req i).destination ∨
    ∃ g q, ReceiverHolds req w i g q ∧ ∀ p ∈ (w.server (req i).source).lower,
      p.adaType = adaTypeAck → p.imago = i → p.genid = g ∧ p.seqid = q

/-- What an ACCEPT in flight offers is held by its receiver, unless the sender is done with it. -/
def AcceptKept (req : Nat → Request Host) (w : World Host) (i : Nat) : Prop :=
  ∀ b, ∀ p ∈ (w.server b).lower, p.adaType = adaTypeAccept → p.imago = i →
    w.Delivered i (req i).destination ∨ i ∈ (w.server (req i).source).acknowledged ∨
      w.Returned i (req i).source ∨ ReceiverHolds req w i p.genid p.seqid

structure Present (req : Nat → Request Host) (w : World Host) : Prop where
  sender : ∀ i < w.sent, SenderKeeps req w i
  ack : ∀ i, AckKept req w i
  accept : ∀ i, AcceptKept req w i

/-- What a step at `h` passes on: nothing is lost but the sender's hold on the imagos in `P` and
the receiver's hold on those in `Q`; the imagos in `R` may be acknowledged. -/
structure Passes (req : Nat → Request Host) (h : Host) (P Q R : Nat → Prop)
    (s s' : Server Host) : Prop where
  queue : ∀ p ∈ s.queue, ¬ P p.imago → p ∈ s'.queue
  sent : ∀ g q f, fileOf s.files (.sent g q) = some f → ¬ P f.pdu.imago →
    fileOf s'.files (.sent g q) = some f
  received : ∀ a g q f, fileOf s.files (.received a g q) = some f → ¬ Q f.pdu.imago →
    ∃ f', fileOf s'.files (.received a g q) = some f' ∧ f'.pdu.imago = f.pdu.imago
  upper : ∀ p ∈ s.upper, p ∈ s'.upper
  acknowledged : ∀ i ∈ s.acknowledged, i ∈ s'.acknowledged
  new : ∀ i ∈ s'.acknowledged, ¬ R i → i ∈ s.acknowledged
  ack : ∀ p ∈ s'.lower, p.adaType = adaTypeAck → ¬ R p.imago → p ∈ s.lower
  accept : ∀ p ∈ s'.lower, p.adaType = adaTypeAccept → p ∈ s.lower ∨
    (req p.imago).destination = h ∧
      ∃ f, fileOf s'.files (.received (req p.imago).source p.genid p.seqid) = some f ∧
        f.pdu.imago = p.imago

variable {w : World Host} {P Q R : Nat → Prop} {i : Nat}

/-- Nothing changes at the other servers. -/
theorem Passes.at (hpass : Passes req h P Q R (w.server h) s') (a : Host) :
    Passes req a P Q R (w.server a) ((w.set h s').server a) := by
  by_cases ha : a = h
  · subst ha
    rwa [set_server_self]
  · rw [set_server_of_ne w _ ha]
    exact ⟨fun _ hp _ => hp, fun _ _ _ hf _ => hf, fun _ _ _ f hf _ => ⟨f, hf, rfl⟩,
      fun _ hp => hp, fun _ hi => hi, fun _ hi _ => hi, fun _ hp _ _ => hp,
      fun _ hp _ => Or.inl hp⟩

theorem Passes.delivered (hpass : Passes req h P Q R (w.server h) s') {a : Host}
    (hd : w.Delivered i a) : (w.set h s').Delivered i a := by
  obtain ⟨p, hp, hi, he⟩ := hd
  exact ⟨p, (hpass.at a).upper p hp, hi, he⟩

theorem Passes.returned (hpass : Passes req h P Q R (w.server h) s') {a : Host}
    (hd : w.Returned i a) : (w.set h s').Returned i a := by
  obtain ⟨p, hp, hi, he⟩ := hd
  exact ⟨p, (hpass.at a).upper p hp, hi, he⟩

theorem Passes.receiverHolds (hpass : Passes req h P Q R (w.server h) s') {g : UInt16}
    {q : UInt32} (hi : ¬ Q i) (hr : ReceiverHolds req w i g q) :
    ReceiverHolds req (w.set h s') i g q := by
  obtain ⟨f, hf, rfl⟩ := hr
  exact (hpass.at _).received _ g q f hf hi

theorem Passes.senderKeeps (hpass : Passes req h P Q R (w.server h) s') (hi : ¬ P i)
    (hk : SenderKeeps req w i) : SenderKeeps req (w.set h s') i := by
  rcases hk with ⟨p, hp, hstate, rfl⟩ | ⟨g, q, f, hf, rfl⟩ | hk | hk
  · exact Or.inl ⟨p, (hpass.at _).queue p hp hi, hstate, rfl⟩
  · exact Or.inr (Or.inl ⟨g, q, f, (hpass.at _).sent g q f hf hi, rfl⟩)
  · exact Or.inr (Or.inr (Or.inl ((hpass.at _).acknowledged i hk)))
  · exact Or.inr (Or.inr (Or.inr (hpass.returned hk)))

theorem Passes.ackKept (hpass : Passes req h P Q R (w.server h) s') (hQ : ¬ Q i) (hR : ¬ R i)
    (hk : AckKept req w i) : AckKept req (w.set h s') i := by
  intro ha
  rcases hk ((hpass.at _).new i ha hR) with hk | ⟨g, q, hk, hpair⟩
  · exact Or.inl (hpass.delivered hk)
  · refine Or.inr ⟨g, q, hpass.receiverHolds hQ hk, fun p hp htype hi => ?_⟩
    subst hi
    exact hpair p ((hpass.at _).ack p hp htype hR) htype rfl

theorem Passes.acceptKept (hpass : Passes req h P Q R (w.server h) s') (hQ : ¬ Q i)
    (hk : AcceptKept req w i) : AcceptKept req (w.set h s') i := by
  intro b p hp htype hi
  rcases (hpass.at b).accept p hp htype with hp | ⟨hdestination, f, hf, hf'⟩
  · rcases hk b p hp htype hi with hk | hk | hk | hk
    · exact Or.inl (hpass.delivered hk)
    · exact Or.inr (Or.inl ((hpass.at _).acknowledged i hk))
    · exact Or.inr (Or.inr (Or.inl (hpass.returned hk)))
    · exact Or.inr (Or.inr (Or.inr (hpass.receiverHolds hQ hk)))
  · subst hi hdestination
    exact Or.inr (Or.inr (Or.inr ⟨f, hf, hf'⟩))

/-- **A step keeps every imago in some hand** when it does so for the imagos it concerns. -/
theorem Present.pass (hw : Present req w) (hpass : Passes req h P Q R (w.server h) s')
    (hP : ∀ i < w.sent, P i → SenderKeeps req (w.set h s') i)
    (hQ : ∀ i, Q i ∨ R i → AckKept req (w.set h s') i)
    (hR : ∀ i, Q i → AcceptKept req (w.set h s') i) : Present req (w.set h s') where
  sender i hi := by
    by_cases hPi : P i
    · exact hP i hi hPi
    · exact hpass.senderKeeps hPi (hw.sender i hi)
  ack i := by
    by_cases hi : Q i ∨ R i
    · exact hQ i hi
    · exact hpass.ackKept (fun h => hi (Or.inl h)) (fun h => hi (Or.inr h)) (hw.ack i)
  accept i := by
    by_cases hi : Q i
    · exact hR i hi
    · exact hpass.acceptKept hi (hw.accept i)

/-- A step that concerns no imago. -/
theorem Present.pass_all (hw : Present req w)
    (hpass : Passes req h (fun _ => False) (fun _ => False) (fun _ => False) (w.server h) s') :
    Present req (w.set h s') :=
  hw.pass hpass (fun _ _ hi => hi.elim) (fun _ hi => (hi.elim id id).elim) fun _ hi => hi.elim

/-! ## What each handler passes on -/

theorem Passes.refl (req : Nat → Request Host) (h : Host) (s : Server Host) :
    Passes req h P Q R s s :=
  ⟨fun _ hp _ => hp, fun _ _ _ hf _ => hf, fun _ _ _ f hf _ => ⟨f, hf, rfl⟩, fun _ hp => hp,
    fun _ hi => hi, fun _ hi _ => hi, fun _ hp _ _ => hp, fun _ hp _ => Or.inl hp⟩

theorem Passes.leave (req : Nat → Request Host) (h : Host) (s : Server Host) (n : Nat) :
    Passes req h P Q R s (s.leave n) :=
  { Passes.refl req h s with
    ack := fun _ hp _ _ => List.mem_of_mem_eraseIdx hp
    accept := fun _ hp _ => Or.inl (List.mem_of_mem_eraseIdx hp) }

/-- A PDU handed down. -/
theorem Passes.enqueueLower (hpass : Passes req h P Q R s s') {p : Pdu Host}
    (hp : p.state = .securityDown) (hack : p.adaType = adaTypeAck → R p.imago)
    (haccept : p.adaType = adaTypeAccept → (req p.imago).destination = h ∧
      ∃ f, fileOf s'.files (.received (req p.imago).source p.genid p.seqid) = some f ∧
        f.pdu.imago = p.imago) :
    Passes req h P Q R s (s'.pduEnqueue p) := by
  rw [Server.pduEnqueue, hp]
  refine { hpass with ack := fun p' hp' htype hR => ?_, accept := fun p' hp' htype => ?_ }
  · rcases List.mem_cons.mp hp' with rfl | hp'
    · exact absurd (hack htype) hR
    · exact hpass.ack p' hp' htype hR
  · rcases List.mem_cons.mp hp' with rfl | hp'
    · exact Or.inr (haccept htype)
    · exact hpass.accept p' hp' htype

theorem Passes.maybeLower (hpass : Passes req h P Q R s s') {p : Pdu Host} (b : Bool)
    (hp : Passes req h P Q R s (s'.pduEnqueue p)) :
    Passes req h P Q R s (s'.maybeLower b p) := by
  rw [Server.maybeLower]
  split_ifs
  · exact hp
  · exact hpass

theorem Passes.enqueueUpper (hpass : Passes req h P Q R s s') {p : Pdu Host}
    (hp : p.state = .marshalingUp) : Passes req h P Q R s (s'.pduEnqueue p) := by
  rw [Server.pduEnqueue, hp]
  exact { hpass with upper := fun p' hp' => List.mem_cons_of_mem _ (hpass.upper p' hp') }

theorem Passes.enqueueDown (hpass : Passes req h P Q R s s') {p : Pdu Host}
    (hp : p.state = .adaDown) : Passes req h P Q R s (s'.pduEnqueue p) := by
  rw [Server.pduEnqueue, hp]
  exact { hpass with queue := fun p' hp' hi => List.mem_cons_of_mem _ (hpass.queue p' hp' hi) }

/-- A backup stored under a new name, or in place of one of the same imago. -/
theorem Passes.store (hpass : Passes req h P Q R s s') {k : BackupKey Host} {p : Pdu Host}
    (hlower : s'.lower = s.lower)
    (hsent : ∀ g q, k = .sent g q → fileOf s.files (.sent g q) = none)
    (hreceived : ∀ a g q f, k = .received a g q → fileOf s.files (.received a g q) = some f →
      f.pdu.imago = p.imago) :
    Passes req h P Q R s (s'.store k p) := by
  have hne : ∀ {k'}, k' ≠ k → fileOf (s'.store k p).files k' = fileOf s'.files k' :=
    fun hk => fileOf_writeFile_of_ne _ _ hk
  refine { hpass with
    sent := fun g q f hf hP => ?_
    received := fun a g q f hf hQ => ?_
    accept := fun p' hp' _ => Or.inl (hlower ▸ hp') }
  · have hk : BackupKey.sent g q ≠ k := fun hk => by
      rw [hsent g q hk.symm] at hf
      cases hf
    rw [hne hk]
    exact hpass.sent g q f hf hP
  · by_cases hk : BackupKey.received a g q = k
    · rw [hk]
      exact ⟨_, fileOf_writeFile_self _ ⟨k, s'.backupId, p⟩, (hreceived a g q f hk.symm hf).symm⟩
    · rw [hne hk]
      exact hpass.received a g q f hf hQ

/-- A backup destroyed, of an imago the step concerns. -/
theorem Passes.unlink (req : Nat → Request Host) (h : Host) (s : Server Host)
    (tlb : Nat → Timer) (list : List (Nat × BackupKey Host)) {k : BackupKey Host}
    (hsent : ∀ g q f, k = .sent g q → fileOf s.files k = some f → P f.pdu.imago)
    (hreceived : ∀ a g q f, k = .received a g q → fileOf s.files k = some f → Q f.pdu.imago) :
    Passes req h P Q R s { s with timerTlb := tlb, backupList := list,
                                  files := Transport.unlink s.files k } := by
  refine { (Passes.refl req h s : Passes req h P Q R s s) with
    sent := fun g q f hf hP => ?_
    received := fun a g q f hf hQ => ?_
    accept := fun _ hp _ => Or.inl hp }
  · have hk : BackupKey.sent g q ≠ k := fun hk => hP (hsent g q f hk.symm (hk ▸ hf))
    exact (fileOf_unlink_of_ne _ hk).trans hf
  · have hk : BackupKey.received a g q ≠ k := fun hk => hQ (hreceived a g q f hk.symm (hk ▸ hf))
    exact ⟨f, (fileOf_unlink_of_ne _ hk).trans hf, rfl⟩

theorem mem_eraseIdx_of_ne {α : Type} {l : List α} {n : Nat} {x y : α} (hx : l[n]? = some x)
    (hy : y ∈ l) (hne : y ≠ x) : y ∈ l.eraseIdx n := by
  obtain ⟨hn, rfl⟩ := List.getElem?_eq_some_iff.mp hx
  have hmem := (List.getElem_cons_eraseIdx_perm hn).mem_iff.mpr hy
  exact (List.mem_cons.mp hmem).resolve_left hne

/-! ## The system -/

/-- What a step must not do for the receiver's and the sender's copies to last: run out of files,
frames or timers; drop the entry of another backup from the list; let the timer of a received
imago fire; let a NACK reach the receiver while an ACCEPT of the same imago is in flight or after
the sender has acknowledged it. -/
def World.Calm (w : World Host) : Event Host → Prop
  | .process h _ r =>
      r.saved = true ∧ 3 ≤ r.room ∧ (timerNew (w.server h).timerTlb).2 ≠ -1
  | .arrive h n r fired => fired = none ∧ r.saved = true ∧
      ∀ p, (w.server h).lower[n]? = some p →
        (timerNew (w.server p.destinationServer).timerTlb).2 ≠ -1 ∧
        (p.adaType = adaTypeAccept →
          (w.server p.destinationServer).CancelSafe (.sent p.genid p.seqid)) ∧
        (p.adaType = adaTypeAck ∨ p.adaType = adaTypeNack →
          (w.server p.destinationServer).CancelSafe (.received h p.genid p.seqid)) ∧
        (p.adaType = adaTypeNack →
          w.Delivered p.imago p.destinationServer ∨ w.Returned p.imago h ∨
            p.imago ∉ (w.server h).acknowledged ∧
              ∀ p' ∈ (w.server p.destinationServer).lower, p'.adaType = adaTypeAccept →
                p'.imago ≠ p.imago)
  | .alarm h id _ => ((w.server h).timerTlb id).status = .active → ∀ f,
      findEntry (w.server h).backupList ((w.server h).timerTlb id).arg = some f.key →
      fileOf (w.server h).files f.key = some f →
      (∃ g q, f.key = .sent g q) ∧ (w.server h).CancelSafe f.key
  | _ => True

/-- Everything that is held is intact, and every imago is held. -/
structure Safe (req : Nat → Request Host) (w : World Host) : Prop where
  intact : ∀ h, Intact req h (w.server h)
  present : Present req w

theorem intact_set (hw : ∀ h, Intact req h (w.server h)) (hs : Intact req h s') (a : Host) :
    Intact req a ((w.set h s').server a) := by
  by_cases ha : a = h
  · subst ha
    rwa [set_server_self]
  · rw [set_server_of_ne w _ ha]
    exact hw a

theorem Safe.leave (hw : Safe req w) (h : Host) (n : Nat) :
    Safe req (w.set h ((w.server h).leave n)) :=
  ⟨intact_set hw.intact ((hw.intact h).leave n),
    hw.present.pass_all (Passes.leave req h _ n)⟩

variable [Inhabited Host]

theorem Safe.send (hw : Safe req w) {destination : Host} {data : List UInt8}
    (hreq : req w.sent = ⟨h, destination, data⟩) :
    Safe req (w.step (.send h destination data)) := by
  have hpass : Passes req h (fun _ => False) (fun _ => False) (fun _ => False) (w.server h)
      ((w.server h).pduEnqueue (marshaled w.sent destination data)) :=
    { (Passes.refl req h (w.server h) :
        Passes req h (fun _ => False) (fun _ => False) (fun _ => False) _ _) with
      queue := fun _ hp _ => List.mem_cons_of_mem _ hp }
  have hpresent := hw.present.pass_all hpass
  have hintact : Intact req h ((w.server h).pduEnqueue (marshaled w.sent destination data)) :=
    { hw.intact h with
      queue := fun p hp => by
        rcases List.mem_cons.mp hp with rfl | hp
        · exact ⟨rfl, by simp [marshaled, pduNew, hreq], by simp [marshaled, pduNew, hreq],
            by simp [marshaled, pduNew, hreq]⟩
        · exact (hw.intact h).queue p hp
      keeps := fun p hp hr => by
        rcases List.mem_cons.mp hp with rfl | hp
        · exact absurd (show (0 : UInt16) &&& adaTypeRetry = 0 by decide) hr
        · exact (hw.intact h).keeps p hp hr
      timers := fun p hp p' hp' hr hr' => by
        rcases List.mem_cons.mp hp with rfl | hp
        · exact absurd (show (0 : UInt16) &&& adaTypeRetry = 0 by decide) hr
        · rcases List.mem_cons.mp hp' with rfl | hp'
          · exact absurd (show (0 : UInt16) &&& adaTypeRetry = 0 by decide) hr'
          · exact (hw.intact h).timers p hp p' hp' hr hr'
      guarded := fun k f hf =>
        ⟨((hw.intact h).guarded k f hf).timer, ((hw.intact h).guarded k f hf).entry⟩ }
  refine ⟨intact_set hw.intact hintact, ⟨fun i hi => ?_, hpresent.ack, hpresent.accept⟩⟩
  by_cases hlast : i = w.sent
  · subst hlast
    refine Or.inl ⟨marshaled w.sent destination data, ?_, rfl, rfl⟩
    rw [hreq]
    show _ ∈ ((w.set h _).server h).queue
    rw [set_server_self]
    exact List.mem_cons_self
  · refine hpresent.sender i ?_
    have hlt : i < w.sent + 1 := by simpa [World.step, World.sent] using hi
    show i < w.sent
    omega

omit [DecidableEq Host] [Inhabited Host] in
theorem exists_initializeAda (r : Resources) (s : Server Host) (p : Pdu Host) :
    ∃ q g tlb, (initializeAda r s p).1 =
        { s with sequence := q, generation := g, timerTlb := tlb } ∧
      (initializeAda r s p).2.imago = p.imago ∧
      ((initializeAda r s p).2.adaType = adaTypeRequest ∨
        (initializeAda r s p).2 = p ∧ p.adaType &&& adaTypeRetry ≠ 0) := by
  rw [initializeAda]
  split_ifs with hnew
  · exact ⟨_, _, _, rfl, rfl, Or.inl rfl⟩
  · exact ⟨s.sequence, s.generation, s.timerTlb, rfl, rfl, Or.inr ⟨rfl, hnew⟩⟩

/-- **A queued PDU is sent**: its imago passes from the queue to the backups. -/
theorem Safe.process (hw : Safe req w) (hinv : Invariant own phase w) {n : Nat} {r : Resources}
    (hsound : w.Sound (.process h n r)) (hcalm : w.Calm (.process h n r)) :
    Safe req (w.step (.process h n r)) := by
  obtain ⟨hsaved, hroom, hnew⟩ := hcalm
  rw [World.step]
  cases hp : (w.server h).queue[n]? with
  | none => exact hw
  | some p =>
      have hmem := List.mem_of_getElem? hp
      obtain ⟨hstate, hsent⟩ := (hw.intact h).queue p hmem
      obtain ⟨hphase, -, -, hretry⟩ := (hinv.server h).queued p hmem hstate
      obtain ⟨-, hfree⟩ := (hsound p hp).1 hstate
      have hlater : ∀ p' ∈ (w.server h).queue.eraseIdx n, p'.imago ≠ p.imago := by
        intro p' hp'
        exact ((hinv.server h).take_waiting hp hstate).2.queue p' hp'
          ((hw.intact h).queue p' (List.mem_of_mem_eraseIdx hp')).1
      dsimp only
      rw [if_pos hstate]
      have hintact := ((hw.intact h).take n).down hsaved hroom (p := p)
        (hinv.server h).listId hsent (fun hr => (hretry hr).1) (fun _ => hnew)
        (fun hr => (hw.intact h).keeps p hmem hr) fun hr p' hp' hr' heq => hlater p' hp'
          ((hw.intact h).timers p' (List.mem_of_mem_eraseIdx hp') p hmem hr' hr heq)
      refine ⟨intact_set hw.intact hintact, ?_⟩
      -- the pair names no backup yet
      have hnone : fileOf (w.server h).files (.sent
          (initializeAda r { w.server h with queue := (w.server h).queue.eraseIdx n } p).2.genid
          (initializeAda r { w.server h with queue := (w.server h).queue.eraseIdx n } p).2.seqid) =
            none := by
        rw [Option.eq_none_iff_forall_not_mem]
        intro f hf
        have hstored := ((hinv.server h).sent _ _ f hf).1
        have himago : f.pdu.imago = p.imago := by
          by_cases hr : p.adaType &&& adaTypeRetry = 0
          · rw [initializeAda, if_pos hr] at hf
            exact hfree hr h _ (.sent rfl hf)
          · rw [initializeAda, if_neg hr] at hf
            rw [← (hretry hr).2]
            exact ((hinv.server h).sent _ _ f hf).2.1.symm
        rw [himago, hphase] at hstored
        cases hstored
      rw [down_eq hsaved hroom]
      obtain ⟨q, g, tlb, hserver, himago, htype⟩ := exists_initializeAda r
        { w.server h with queue := (w.server h).queue.eraseIdx n } p
      have hrequest : IsRequest (initializeAda r
          { w.server h with queue := (w.server h).queue.eraseIdx n } p).2.adaType := by
        rcases htype with htype | ⟨htype, hr⟩
        · exact Or.inl htype
        · rw [htype]
          exact (hretry hr).1
      generalize (initializeAda r
        { w.server h with queue := (w.server h).queue.eraseIdx n } p).2 = p₁ at *
      rw [hserver]
      have hbase : Passes req h (fun i => i = p.imago) (fun _ => False) (fun _ => False)
          (w.server h) { w.server h with
            queue := (w.server h).queue.eraseIdx n, sequence := q, generation := g,
            timerTlb := tlb } :=
        { (Passes.refl req h (w.server h) :
            Passes req h (fun i => i = p.imago) (fun _ => False) (fun _ => False) _ _) with
          queue := fun p' hp' hi => mem_eraseIdx_of_ne hp hp' fun heq => hi (by rw [heq])
          accept := fun _ hp _ => Or.inl hp }
      refine hw.present.pass ((hbase.store (k := .sent p₁.genid p₁.seqid)
        (p := { p₁ with retry := p₁.retry + 1 }) rfl ?_ (by simp)).enqueueLower rfl
        (fun ha => ?_) fun ha => ?_) (fun i _ hi => ?_) (fun i hi => ?_) fun i hi => ?_
      · intro g q hk
        obtain ⟨rfl, rfl⟩ := (BackupKey.sent.injEq ..).mp hk
        exact hnone
      · exact absurd ha (isRequest_ne_ack hrequest)
      · exact absurd ha (isRequest_ne_accept hrequest)
      · subst hi
        refine Or.inr (Or.inl ?_)
        rw [hsent.source]
        have hfile := fileOf_writeFile_self (w.server h).files ⟨.sent p₁.genid p₁.seqid,
          (w.server h).backupId, { p₁ with retry := p₁.retry + 1 }⟩
        exact ⟨p₁.genid, p₁.seqid, _, by rw [set_server_self]; exact hfile, himago⟩
      · exact (hi.elim id id).elim
      · exact hi.elim

/-! ## A PDU arrives -/

/-- **A REQUEST arrives**: the receiver holds its imago and offers it. -/
theorem Safe.request (hw : Safe req w) (hinv : Invariant own phase w) {r : Resources}
    (hsaved : r.saved = true) {p : Pdu Host} (hnew : (timerNew (w.server h).timerTlb).2 ≠ -1)
    (hsource : (req p.imago).source = p.sourceServer) (hdestination : (req p.imago).destination = h)
    (hdata : p.frames = (req p.imago).data)
    (hown : own p.sourceServer p.genid p.seqid = p.imago) :
    Safe req (w.set h (storeRequest r (w.server h) p)) := by
  have hintact := (hw.intact h).storeRequest hsaved (hinv.server h).listId hnew hsource
    hdestination hdata
  refine ⟨intact_set hw.intact hintact, ?_⟩
  rw [storeRequest_eq hsaved]
  have htimer : Passes req h (fun _ => False) (fun _ => False) (fun _ => False) (w.server h)
      { w.server h with timerTlb := (timerNew (w.server h).timerTlb).1 } :=
    { (Passes.refl req h (w.server h) :
        Passes req h (fun _ => False) (fun _ => False) (fun _ => False) _ _) with
      accept := fun _ hp _ => Or.inl hp }
  have hstore := htimer.store (k := .received p.sourceServer p.genid p.seqid)
    (p := { p with timer := (timerNew (w.server h).timerTlb).2 }) rfl
    (by simp) fun a g q f hk hf => by
      obtain ⟨rfl, rfl, rfl⟩ := (BackupKey.received.injEq ..).mp hk
      exact ((hinv.server h).received _ _ _ f hf).1.symm.trans hown
  refine hw.present.pass_all (hstore.maybeLower _ (hstore.enqueueLower rfl ?_ fun _ => ?_))
  · intro hack
    exact absurd hack (show ¬ adaTypeAccept = adaTypeAck by decide)
  · have hfile := fileOf_writeFile_self (w.server h).files
      ⟨.received p.sourceServer p.genid p.seqid, (w.server h).backupId,
        { p with timer := (timerNew (w.server h).timerTlb).2 }⟩
    refine ⟨hdestination, ⟨.received p.sourceServer p.genid p.seqid, (w.server h).backupId,
      { p with timer := (timerNew (w.server h).timerTlb).2 }⟩, ?_, rfl⟩
    show fileOf _ (.received (req p.imago).source _ _) = _
    rw [hsource]
    exact hfile

omit [Inhabited Host] in
/-- An imago its sender still stores is neither acknowledged nor returned. -/
theorem Invariant.stored (hinv : Invariant own phase w) {g : UInt16} {q : UInt32}
    (hi : phase i = .stored h g q) (a : Host) :
    i ∉ (w.server a).acknowledged ∧ ¬ w.Returned i a ∧
      ∀ p ∈ (w.server a).lower, p.adaType = adaTypeAck → p.imago ≠ i := by
  refine ⟨fun ha => ?_, fun ⟨p, hp, hpi, herror⟩ => ?_, fun p hp htype hpi => ?_⟩
  · rcases (hinv.server a).acknowledged i ha with ⟨g', q', ha⟩ | ha <;> simp [hi] at ha
  · have hupper := (hinv.server a).upper p hp
    simp [hpi, hi, herror] at hupper
  · have hack := (hinv.server a).ack p hp htype
    simp [hpi, hi] at hack

/-- What the sender keeps when it acknowledges: all but the imago, which is on record. -/
theorem Passes.acknowledge (req : Nat → Request Host) (hs : Intact req h s) (r : Resources)
    {p : Pdu Host} {f : BackupFile Host} (hf : fileOf s.files (.sent p.genid p.seqid) = some f)
    (hi : f.pdu.imago = p.imago) :
    Passes req h (fun i => i = p.imago) (fun _ => False) (fun i => i = p.imago) s
      (acknowledge r s p f.pdu) := by
  obtain ⟨⟨t, ht, htimer, -⟩, -⟩ := hs.guarded _ f hf
  have hunlink := Passes.unlink (P := fun i => i = p.imago) (Q := fun _ => False)
    (R := fun i => i = p.imago) req h s (Function.update s.timerTlb t Timer.clear)
    (removeEntry f.id s.backupList) (k := .sent p.genid p.seqid)
    (fun g q f' _ hf' => by
      rw [hf, Option.some.injEq] at hf'
      rw [← hf', hi]) (by simp)
  have hrecorded : Passes req h (fun i => i = p.imago) (fun _ => False) (fun i => i = p.imago) s
      { s with timerTlb := Function.update s.timerTlb t Timer.clear,
               backupList := removeEntry f.id s.backupList,
               files := Transport.unlink s.files (.sent p.genid p.seqid),
               acknowledged := p.imago :: s.acknowledged } :=
    { hunlink with
      acknowledged := fun i hi => List.mem_cons_of_mem _ hi
      new := fun i hi hR => (List.mem_cons.mp hi).resolve_left hR
      accept := fun _ hp _ => Or.inl hp }
  rw [acknowledge_eq, timerFree_backupCancel hf ht htimer]
  show Passes _ _ _ _ _ s (if r.control = true then _ else _)
  split_ifs
  · refine hrecorded.enqueueLower rfl (fun _ => rfl) fun ha => ?_
    exact absurd ha (show ¬ adaTypeAck = adaTypeAccept by decide)
  · exact hrecorded

theorem mem_acknowledge (r : Resources) (s : Server Host) (p inc : Pdu Host) :
    p.imago ∈ (acknowledge r s p inc).acknowledged :=
  List.mem_cons_self

theorem mem_lower_acknowledge {r : Resources} {p p' inc : Pdu Host}
    (hp : p' ∈ (acknowledge r s p inc).lower) :
    p' = controlPdu adaTypeAck p ∨ p' ∈ s.lower := by
  have hcancel : ∀ (s : Server Host) key, (s.backupCancel key).lower = s.lower := fun s key => by
    rw [Server.backupCancel]
    cases fileOf s.files key <;> rfl
  simp only [acknowledge, hcancel, dispatchControlPdu] at hp
  split_ifs at hp
  · exact List.mem_cons.mp hp
  · exact Or.inr hp

/-- **An ACCEPT arrives**: when the sender forgets the imago, the receiver holds it. -/
theorem Safe.accept (hw : Safe req w) (hinv : Invariant own phase w) (r : Resources) {p : Pdu Host}
    (hown : own h p.genid p.seqid = p.imago) (hsource : (req p.imago).source = h)
    (hdestination : p.sourceServer = (req p.imago).destination)
    (hsafe : (w.server h).CancelSafe (.sent p.genid p.seqid))
    (hoffer : w.Delivered p.imago (req p.imago).destination ∨
      p.imago ∈ (w.server (req p.imago).source).acknowledged ∨
        w.Returned p.imago (req p.imago).source ∨
          ReceiverHolds req w p.imago p.genid p.seqid) :
    Safe req (w.set h (controlAccept r id (w.server h) p)) := by
  have hnack : Safe req (w.set h (dispatchControlPdu r (w.server h) adaTypeNack p)) := by
    refine ⟨intact_set hw.intact ((hw.intact h).dispatchNack r p), hw.present.pass_all ?_⟩
    rw [dispatchControlPdu]
    split_ifs
    · refine (Passes.refl req h _).enqueueLower rfl (fun ha => ?_) fun ha => ?_
      · exact absurd ha (show ¬ adaTypeNack = adaTypeAck by decide)
      · exact absurd ha (show ¬ adaTypeNack = adaTypeAccept by decide)
    · exact Passes.refl req h _
  rw [controlAccept]
  split_ifs with hgen
  · exact hnack
  · rw [Server.backupLoad]
    cases hf : fileOf (w.server h).files (.sent p.genid p.seqid) with
    | none => exact hnack
    | some f =>
        obtain ⟨hstored, hfown, -⟩ := (hinv.server h).sent _ _ f hf
        have hfi : f.pdu.imago = p.imago := hfown.symm.trans hown
        rw [hfi] at hstored
        have hintact := (hw.intact h).acknowledge (r := r) hf hsafe hsource hdestination
        refine ⟨intact_set hw.intact hintact, ?_⟩
        have hpass := Passes.acknowledge req (hw.intact h) r hf hfi
        refine hw.present.pass hpass (fun i _ hi => ?_) (fun i hi => ?_) fun _ hi => hi.elim
        · subst hi
          refine Or.inr (Or.inr (Or.inl ?_))
          rw [hsource, set_server_self]
          exact mem_acknowledge ..
        · obtain rfl : i = p.imago := hi.resolve_left id
          intro _
          rcases hoffer with hk | hk | hk | hk
          · exact Or.inl (hpass.delivered hk)
          · exact absurd hk (hinv.stored hstored _).1
          · exact absurd hk (hinv.stored hstored _).2.1
          · refine Or.inr ⟨_, _, hpass.receiverHolds id hk, fun p' hp' htype hi => ?_⟩
            rw [hsource, set_server_self] at hp'
            rcases mem_lower_acknowledge hp' with rfl | hp'
            · exact ⟨rfl, rfl⟩
            · exact absurd hi ((hinv.stored hstored h).2.2 p' hp' htype)

omit [Inhabited Host] in
theorem delivered_enqueue (w : World Host) (s : Server Host) {p : Pdu Host}
    (hp : p.state = .marshalingUp) (herror : p.error = false) :
    (w.set h (s.pduEnqueue p)).Delivered p.imago h :=
  ⟨p, by rw [set_server_self, Server.pduEnqueue, hp]; exact List.mem_cons_self, rfl, herror⟩

omit [Inhabited Host] in
theorem returned_enqueue (w : World Host) (s : Server Host) {p : Pdu Host}
    (hp : p.state = .marshalingUp) (herror : p.error = true) :
    (w.set h (s.pduEnqueue p)).Returned p.imago h :=
  ⟨p, by rw [set_server_self, Server.pduEnqueue, hp]; exact List.mem_cons_self, rfl, herror⟩

omit [Inhabited Host] in
/-- **An ACK arrives**: what the receiver holds is delivered. -/
theorem Safe.ack (hw : Safe req w) (hinv : Invariant own phase w) {p : Pdu Host}
    (hown : own p.sourceServer p.genid p.seqid = p.imago)
    (hdestination : (req p.imago).destination = h)
    (hsafe : (w.server h).CancelSafe (.received p.sourceServer p.genid p.seqid)) :
    Safe req (w.set h (controlAck (w.server h) p)) := by
  refine ⟨intact_set hw.intact ((hw.intact h).controlAck hsafe), ?_⟩
  rw [controlAck, Server.backupLoad]
  cases hf : fileOf (w.server h).files (.received p.sourceServer p.genid p.seqid) with
  | none => exact hw.present.pass_all (Passes.refl req h _)
  | some f =>
      obtain ⟨hfown, -, -, -, hcame⟩ := (hinv.server h).received _ _ _ f hf
      have hfi : f.pdu.imago = p.imago := hfown.symm.trans hown
      obtain ⟨⟨t, ht, htimer, -⟩, -⟩ := (hw.intact h).guarded _ f hf
      simp only [Option.map_some]
      rw [timerFree_backupCancel hf ht htimer]
      have hunlink := Passes.unlink (P := fun _ => False) (Q := fun i => i = p.imago)
        (R := fun _ => False) req h (w.server h)
        (Function.update (w.server h).timerTlb t Timer.clear)
        (removeEntry f.id (w.server h).backupList)
        (k := .received p.sourceServer p.genid p.seqid) (by simp) fun _ _ _ f' _ hf' => by
          rw [hf, Option.some.injEq] at hf'
          rw [← hf', hfi]
      have hpass := hunlink.enqueueUpper (p := { f.pdu with state := .marshalingUp }) rfl
      have hdelivered := delivered_enqueue (h := h) w { w.server h with
        timerTlb := Function.update (w.server h).timerTlb t Timer.clear,
        backupList := removeEntry f.id (w.server h).backupList,
        files := Transport.unlink (w.server h).files
          (.received p.sourceServer p.genid p.seqid) }
        (p := { f.pdu with state := .marshalingUp }) rfl hcame.error
      rw [hfi] at hdelivered
      refine hw.present.pass hpass (fun i _ hi => hi.elim) (fun i hi => ?_) fun i hi => ?_
      · obtain rfl : i = p.imago := hi.resolve_right id
        exact fun _ => Or.inl (hdestination ▸ hdelivered)
      · subst hi
        exact fun _ _ _ _ _ => Or.inl (hdestination ▸ hdelivered)

omit [Inhabited Host] in
/-- **A NACK arrives**: the receiver destroys a copy that its sender will not acknowledge. -/
theorem Safe.nack (hw : Safe req w) (hinv : Invariant own phase w) {p : Pdu Host}
    (hown : own p.sourceServer p.genid p.seqid = p.imago)
    (hsafe : (w.server h).CancelSafe (.received p.sourceServer p.genid p.seqid))
    (hlate : w.Delivered p.imago h ∨ w.Returned p.imago p.sourceServer ∨
      p.imago ∉ (w.server p.sourceServer).acknowledged ∧
        ∀ p' ∈ (w.server h).lower, p'.adaType = adaTypeAccept → p'.imago ≠ p.imago) :
    Safe req (w.set h (controlNack (w.server h) p)) := by
  refine ⟨intact_set hw.intact ((hw.intact h).controlNack hsafe), ?_⟩
  rw [controlNack, Server.backupLoad]
  cases hf : fileOf (w.server h).files (.received p.sourceServer p.genid p.seqid) with
  | none =>
      rw [Option.map_none]
      dsimp only
      rw [Server.backupCancel, hf]
      exact hw.present.pass_all (Passes.refl req h _)
  | some f =>
      have hfi : f.pdu.imago = p.imago :=
        ((hinv.server h).received _ _ _ f hf).1.symm.trans hown
      obtain ⟨hsource, hdestination, -⟩ := (hw.intact h).received _ _ _ f hf
      rw [hfi] at hsource hdestination
      obtain ⟨⟨t, ht, htimer, -⟩, -⟩ := (hw.intact h).guarded _ f hf
      simp only [Option.map_some]
      rw [timerFree_backupCancel hf ht htimer]
      have hpass := Passes.unlink (P := fun _ => False) (Q := fun i => i = p.imago)
        (R := fun _ => False) req h (w.server h)
        (Function.update (w.server h).timerTlb t Timer.clear)
        (removeEntry f.id (w.server h).backupList)
        (k := .received p.sourceServer p.genid p.seqid) (by simp) fun _ _ _ f' _ hf' => by
          rw [hf, Option.some.injEq] at hf'
          rw [← hf', hfi]
      refine hw.present.pass hpass (fun i _ hi => hi.elim) (fun i hi => ?_) fun i hi => ?_
      · obtain rfl : i = p.imago := hi.resolve_right id
        intro hack
        have hack' := (hpass.at _).new _ hack id
        rw [hsource] at hack'
        rcases hlate with hk | hk | ⟨hno, -⟩
        · exact Or.inl (hdestination ▸ hpass.delivered hk)
        · exact absurd hk (hinv.neverDuplicated.acknowledged _ _ hack' _).1
        · exact absurd hack' hno
      · subst hi
        intro b p' hp' htype hi
        rcases hlate with hk | hk | ⟨-, hno⟩
        · exact Or.inl (hdestination ▸ hpass.delivered hk)
        · exact Or.inr (Or.inr (Or.inl (hsource ▸ hpass.returned hk)))
        · rcases (hpass.at b).accept p' hp' htype with hp' | ⟨hb, f', hf', hfi'⟩
          · have hb := ((hw.intact b).accept p' hp' htype).1
            rw [hi, hdestination] at hb
            subst hb
            exact absurd hi (hno p' hp' htype)
          · subst hb
            rw [hi] at hf' hfi'
            exact Or.inr (Or.inr (Or.inr ⟨f', hf', hfi'⟩))

/-- **A PDU arrives.** -/
theorem Safe.arrive (hw : Safe req w) (hinv : Invariant own phase w) {n : Nat} {r : Resources}
    {fired : Option Nat} (hcalm : w.Calm (.arrive h n r fired)) :
    Safe req (w.step (.arrive h n r fired)) := by
  obtain ⟨rfl, hsaved, hcalm⟩ := hcalm
  rw [World.step]
  cases hp : (w.server h).lower[n]? with
  | none => exact hw
  | some p =>
      have hmem := List.mem_of_getElem? hp
      obtain ⟨hown, ⟨data, hframes⟩, hkind⟩ := (hinv.server h).lower p hmem
      obtain ⟨hnew, hsafeSent, hsafeReceived, hlate⟩ := hcalm p hp
      have hleft := hw.leave h n
      have hinvLeft := hinv.set ((hinv.server h).lose n)
      have hpass : Passes req h (fun _ => False) (fun _ => False) (fun _ => False)
          (w.server h) ((w.server h).leave n) := Passes.leave req h _ n
      have hread : readHeader (received h p) = { received h p with
          genid := p.genid, adaType := p.adaType, seqid := p.seqid, frames := data } :=
        readHeader_headed _ hframes
      dsimp only
      rw [imagoLayerADArendezvousUp]
      rcases hkind with ⟨hsitp, htype⟩ | ⟨hsitp, htype⟩
      · obtain ⟨hsource, hdestination, hdata⟩ := (hw.intact h).request p hmem hsitp
        rw [if_pos (show (received h p).sitp = true from hsitp),
          imagoLayerADArendezvousTransportUp, if_neg (by simp [received, pduNew])]
        split_ifs
        · exact ⟨intact_set hleft.intact (hleft.intact _),
            hleft.present.pass_all (Passes.refl req _ _)⟩
        · have hpayload : data = (req p.imago).data := by
            have hread' := readHeader_headed (received h p) hdata
            rw [hread] at hread'
            exact congrArg Pdu.frames hread'
          rw [hread]
          refine hleft.request hinvLeft hsaved ?_ hsource hdestination.symm hpayload ?_
          · exact server_leave (P := fun s => (timerNew s.timerTlb).2 ≠ -1) (fun _ hs => hs) hnew
          · rwa [origin, if_neg (isRequest_ne_accept htype)] at hown
      · rw [if_neg (show ¬ (received h p).sitp = true by simpa [received] using hsitp),
          imagoLayerADArendezvousControlUp, hread]
        dsimp only
        rcases htype with htype | htype | htype
        · rw [if_pos htype]
          rw [origin, if_pos htype] at hown
          obtain ⟨hdestination, hsource⟩ := (hw.intact h).accept p hmem htype
          refine hleft.accept hinvLeft r hown hsource.symm hdestination.symm ?_ ?_
          · exact server_leave (P := fun s => s.CancelSafe (.sent p.genid p.seqid))
              (fun _ hs => hs) (hsafeSent htype)
          · -- the ACCEPT was an offer when it was still in flight
            rcases hw.present.accept p.imago h p hmem htype rfl with hk | hk | hk | hk
            · exact Or.inl (hpass.delivered hk)
            · exact Or.inr (Or.inl ((hpass.at _).acknowledged _ hk))
            · exact Or.inr (Or.inr (Or.inl (hpass.returned hk)))
            · exact Or.inr (Or.inr (Or.inr (hpass.receiverHolds id hk)))
        · rw [if_neg (by rw [htype]; decide), if_pos htype]
          rw [origin, if_neg (by rw [htype]; decide)] at hown
          obtain ⟨-, hdestination⟩ := (hw.intact h).ack p hmem htype
          refine hleft.ack hinvLeft hown hdestination.symm ?_
          exact server_leave (P := fun s => s.CancelSafe (.received h p.genid p.seqid))
            (fun _ hs => hs) (hsafeReceived (Or.inl htype))
        · rw [if_neg (by rw [htype]; decide), if_neg (by rw [htype]; decide), if_pos htype]
          rw [origin, if_neg (by rw [htype]; decide)] at hown
          refine hleft.nack hinvLeft hown ?_ ?_
          · exact server_leave (P := fun s => s.CancelSafe (.received h p.genid p.seqid))
              (fun _ hs => hs) (hsafeReceived (Or.inr htype))
          · rcases hlate htype with hk | hk | ⟨hno, hoffer⟩
            · exact Or.inl (hpass.delivered hk)
            · exact Or.inr (Or.inl (hpass.returned hk))
            · refine Or.inr (Or.inr ⟨fun hack => hno ((hpass.at _).new _ hack id), ?_⟩)
              exact server_leave (P := fun s => ∀ p' ∈ s.lower, p'.adaType = adaTypeAccept →
                  p'.imago ≠ p.imago)
                (fun _ hs p' hp' => hs p' (List.mem_of_mem_eraseIdx hp')) hoffer

/-! ## Send errors and timers -/

theorem Safe.sendError (hw : Safe req w) {n : Nat} {errno : PduError} {eLayer : StateId}
    {r : Resources} (hsound : w.Sound (.sendError h n errno eLayer r)) :
    Safe req (w.step (.sendError h n errno eLayer r)) := by
  rw [World.step]
  cases hp : (w.server h).lower[n]? with
  | none => exact hw
  | some p =>
      dsimp only
      split_ifs with hsitp
      · have hnone : ((w.server h).leave n).backupLoad (.sent p.genid p.seqid) = none := by
          rw [Server.backupLoad, Server.leave, hsound p hp hsitp, Option.map_none]
        simp only [imagoLayerADArendezvousUp, hsitp, if_true, imagoLayerADArendezvousTransportUp,
          recoverBackup, hnone]
        exact hw.leave h n
      · exact hw.leave h n

omit [Inhabited Host] in
/-- A timer that finds no backup has no effect on the backups. -/
theorem Safe.fire (hw : Safe req w) {t : Nat} (hactive : ((w.server h).timerTlb t).status = .active)
    (hnone : (w.server h).backupIdload ((w.server h).timerTlb t).arg = none) :
    Safe req (w.set h ((w.server h).fire t)) := by
  have hintact : Intact req h ((w.server h).fire t) := by
    refine { hw.intact h with
      keeps := fun p hp hr => ?_
      guarded := fun k f hf => ?_ }
    · obtain ⟨t', ht', hpt', hslot⟩ := (hw.intact h).keeps p hp hr
      have hne : t' ≠ t := fun heq => hslot.2 (by rw [heq, hactive])
      exact ⟨t', ht', hpt', by simpa only [Server.fire, Function.update_of_ne hne] using hslot⟩
    · obtain ⟨⟨t', ht', hft', hslot⟩, hentry⟩ := (hw.intact h).guarded k f hf
      have hne : t' ≠ t := fun heq => by
        subst heq
        rw [hslot, Server.backupIdload, hentry, fileOf_key hf] at hnone
        simp only [Option.bind_some, Server.backupLoad] at hnone
        rw [show fileOf (w.server h).files k = some f from hf] at hnone
        cases hnone
      exact ⟨⟨t', ht', hft', by simp only [Server.fire, Function.update_of_ne hne, hslot]⟩, hentry⟩
  refine ⟨intact_set hw.intact hintact, hw.present.pass_all ?_⟩
  exact { (Passes.refl req h (w.server h) :
      Passes req h (fun _ => False) (fun _ => False) (fun _ => False) _ _) with
    accept := fun _ hp _ => Or.inl hp }

/-- **A timer expires**: the PDU of a request is queued again or returned. -/
theorem Safe.alarm (hw : Safe req w) (hinv : Invariant own phase w) {t : Nat} {r : Resources}
    (hcalm : w.Calm (.alarm h t r)) : Safe req (w.step (.alarm h t r)) := by
  rw [World.step]
  by_cases hactive : t < maxTimer ∧ ((w.server h).timerTlb t).status = .active
  · cases hload : (w.server h).backupIdload ((w.server h).timerTlb t).arg with
    | none =>
        have hspurious : sigalrmHandler r (w.server h) t = (w.server h).fire t := by
          rw [sigalrmHandler, if_pos hactive, timeoutCallback]
          rw [show ((w.server h).fire t).backupIdload _ = none from hload]
        rw [hspurious]
        exact hw.fire hactive.2 hload
    | some p =>
        obtain ⟨f, hentry, hf, rfl⟩ := exists_of_backupIdload hload
        obtain ⟨⟨g, q, hkey⟩, hsafe⟩ := hcalm hactive.2 f hentry hf
        have hf' : fileOf (w.server h).files (.sent g q) = some f := by rwa [← hkey]
        have hintact := (hw.intact h).sigalrm_sent (r := r) (hinv.server h) hkey hactive.1 hactive.2
          hentry hf hsafe
        refine ⟨intact_set hw.intact hintact, ?_⟩
        obtain ⟨-, -, hp⟩ := (hinv.server h).sent g q f hf'
        have hsource := ((hw.intact h).sent g q f hf').source
        obtain ⟨x, -, p, himago, hp', heq⟩ := Transport.sigalrm_sent (r := r) hactive.1 hactive.2
          hentry hf hp.type
        have hunlink := Passes.unlink (P := fun i => i = f.pdu.imago) (Q := fun _ => False)
          (R := fun _ => False) req h (w.server h) (Function.update (w.server h).timerTlb t x)
          (removeEntry f.id (w.server h).backupList) (k := f.key)
          (fun _ _ f' _ hf' => by
            rw [hf, Option.some.injEq] at hf'
            rw [← hf']) (by simp [hkey])
        rw [heq]
        rcases hp' with ⟨hstate, herror⟩ | ⟨-, rfl⟩
        · have hreturned := returned_enqueue (h := h) w { w.server h with
            timerTlb := Function.update (w.server h).timerTlb t x,
            backupList := removeEntry f.id (w.server h).backupList,
            files := Transport.unlink (w.server h).files f.key } hstate herror
          refine hw.present.pass (hunlink.enqueueUpper hstate) (fun i _ hi => ?_)
            (fun _ hi => (hi.elim id id).elim) fun _ hi => hi.elim
          subst hi
          rw [himago] at hreturned
          exact Or.inr (Or.inr (Or.inr (hsource ▸ hreturned)))
        · have hstate : f.pdu.state = .adaDown := hp.state
          refine hw.present.pass (hunlink.enqueueDown hstate) (fun i _ hi => ?_)
            (fun _ hi => (hi.elim id id).elim) fun _ hi => hi.elim
          subst hi
          refine Or.inl ⟨{ f.pdu with adaType := f.pdu.adaType ||| adaTypeRetry }, ?_, hstate, rfl⟩
          rw [hsource, set_server_self, Server.pduEnqueue]
          simp only [hstate]
          exact List.mem_cons_self
  · rw [sigalrmHandler, if_neg hactive]
    exact ⟨intact_set hw.intact (hw.intact h), hw.present.pass_all (Passes.refl req h _)⟩

/-! ## Every run -/

theorem Safe.shutdown (hw : Safe req w) (h : Host) : Safe req (w.step (.shutdown h)) := by
  refine ⟨intact_set hw.intact { hw.intact h with
    keeps := fun p hp hr => (hw.intact h).keeps p hp hr
    guarded := fun k f hf =>
      ⟨((hw.intact h).guarded k f hf).timer, ((hw.intact h).guarded k f hf).entry⟩ }, ?_⟩
  exact hw.present.pass_all { (Passes.refl req h (w.server h) :
      Passes req h (fun _ => False) (fun _ => False) (fun _ => False) _ _) with
    accept := fun _ hp _ => Or.inl hp }

/-- **One step loses no imago**, when `req` is what has been asked for. -/
theorem Safe.step (hw : Safe req w) (hinv : Invariant own phase w) {e : Event Host}
    (hreq : ∀ h destination data, e = .send h destination data →
      req w.sent = ⟨h, destination, data⟩)
    (hsound : w.Sound e) (hcalm : w.Calm e) : Safe req (w.step e) := by
  cases e with
  | send h destination data => exact hw.send (hreq h destination data rfl)
  | process h n r => exact hw.process hinv hsound hcalm
  | arrive h n r fired => exact hw.arrive hinv hcalm
  | lose h n => exact hw.leave h n
  | sendError h n errno eLayer r => exact hw.sendError hsound
  | alarm h id r => exact hw.alarm hinv hcalm
  | shutdown h => exact hw.shutdown h

/-- A run whose steps all meet the condition. -/
def World.CalmRun (w : World Host) : List (Event Host) → Prop
  | [] => True
  | e :: es => w.Calm e ∧ (w.step e).CalmRun es

/-- What was asked for imago `i`. -/
def World.request (w : World Host) (i : Nat) : Request Host :=
  w.requests.getD i ⟨default, default, []⟩

theorem requests_step (w : World Host) (e : Event Host) :
    (w.step e).requests = w.requests ∨
      ∃ h destination data, e = .send h destination data ∧
        (w.step e).requests = w.requests ++ [⟨h, destination, data⟩] := by
  cases e with
  | send h destination data => exact Or.inr ⟨h, destination, data, rfl, rfl⟩
  | process h n r =>
      left
      rw [World.step]
      split <;> rfl
  | arrive h n r fired =>
      left
      rw [World.step]
      split <;> rfl
  | sendError h n errno eLayer r =>
      left
      rw [World.step]
      split
      · rfl
      · split_ifs <;> rfl
  | _ => exact Or.inl rfl

theorem requests_prefix_run (w : World Host) (es : List (Event Host)) :
    w.requests <+: (w.run es).requests := by
  induction es generalizing w with
  | nil => exact List.prefix_refl _
  | cons e es ih =>
      refine List.IsPrefix.trans ?_ (ih (w.step e))
      rcases requests_step w e with hsame | ⟨h, destination, data, -, hnew⟩
      · exact hsame ▸ List.prefix_refl _
      · rw [hnew]
        exact List.prefix_append _ _

theorem Safe.run {es : List (Event Host)} (hw : Safe ((w.run es).request) w)
    (hinv : Invariant own phase w) (hsound : w.SoundRun es) (hcalm : w.CalmRun es) :
    Safe ((w.run es).request) (w.run es) := by
  induction es generalizing w own phase with
  | nil => exact hw
  | cons e es ih =>
      obtain ⟨own', phase', hstep⟩ := hinv.step hsound.1
      refine ih (hw.step hinv (fun h destination data he => ?_) hsound.1 hcalm.1) hstep hsound.2
        hcalm.2
      subst he
      obtain ⟨later, hlater⟩ := requests_prefix_run (w.step (.send h destination data)) es
      rw [World.request, World.run, ← hlater]
      simp [World.step, World.sent, List.getD_eq_getElem?_getD]

omit [Inhabited Host] in
theorem safe_start (generation : Host → UInt16) (req : Nat → Request Host) :
    Safe req (World.start generation) := by
  refine ⟨fun h => ?_, fun i hi => ?_, fun i hi => ?_, fun i b p hp => ?_⟩
  · constructor <;> simp [World.start, Server.start, fileOf]
  · cases hi
  · cases hi
  · cases hp

/-! ## What is never lost -/

/-- The sender has a backup of the imago, with a pending timer. -/
def World.SenderHolds (w : World Host) (i : Nat) : Prop :=
  ∃ g q f, fileOf (w.server (w.request i).source).files (.sent g q) = some f ∧ f.pdu.imago = i ∧
    f.pdu.frames = (w.request i).data ∧ Guarded (w.server (w.request i).source) f

/-- The receiver has an intact backup of the imago under the name every ACK for it looks up, with
a pending timer or an ACK in flight. -/
def World.ReceiverHolds (w : World Host) (i : Nat) : Prop :=
  ∃ g q f, fileOf (w.server (w.request i).destination).files
      (.received (w.request i).source g q) = some f ∧ f.pdu.imago = i ∧
    f.pdu.frames = (w.request i).data ∧
    (∀ p ∈ (w.server (w.request i).source).lower, p.adaType = adaTypeAck → p.imago = i →
      p.genid = g ∧ p.seqid = q) ∧
    (Guarded (w.server (w.request i).destination) f ∨
      ∃ p ∈ (w.server (w.request i).source).lower, p.adaType = adaTypeAck ∧ p.imago = i)

/-- **An imago is in safe hands**: at its sender, at its receiver, delivered or returned. -/
def World.NotLost (w : World Host) (i : Nat) : Prop :=
  w.SenderHolds i ∨ w.ReceiverHolds i ∨ w.Delivered i (w.request i).destination ∨
    w.Returned i (w.request i).source

theorem Safe.notLost (hw : Safe w.request w) (hi : i < w.sent) :
    w.Waiting i (w.request i).source ∨ w.NotLost i := by
  rcases hw.present.sender i hi with hwaits | ⟨g, q, f, hf, rfl⟩ | hack | hreturned
  · exact Or.inl hwaits
  · have hs := hw.intact (w.request f.pdu.imago).source
    exact Or.inr (Or.inl ⟨g, q, f, hf, rfl, (hs.sent g q f hf).data, hs.guarded _ f hf⟩)
  · rcases hw.present.ack i hack with hdelivered | ⟨g, q, ⟨f, hf, rfl⟩, hkey⟩
    · exact Or.inr (Or.inr (Or.inr (Or.inl hdelivered)))
    · have hs := hw.intact (w.request f.pdu.imago).destination
      exact Or.inr (Or.inr (Or.inl ⟨g, q, f, hf, rfl, (hs.received _ g q f hf).2.2, hkey,
        Or.inl (hs.guarded _ f hf)⟩))
  · exact Or.inr (Or.inr (Or.inr (Or.inr hreturned)))

/-- **The rendez-vous never loses an imago** in a run whose steps all meet the conditions: until
its PDU has been sent it waits at its sender, and from then on it is in safe hands. -/
theorem rendezvous_never_loses (generation : Host → UInt16) (es : List (Event Host))
    (hsound : (World.start generation).SoundRun es) (hcalm : (World.start generation).CalmRun es)
    (i : Nat) (hi : i < ((World.start generation).run es).sent) :
    ((World.start generation).run es).Waiting i
        (((World.start generation).run es).request i).source ∨
      ((World.start generation).run es).NotLost i :=
  ((safe_start generation _).run (invariant_start generation) hsound hcalm).notLost hi

omit [Inhabited Host] in
/-- A backup that is alone can be destroyed. -/
theorem cancelSafe_of_alone {key : BackupKey Host} (h : ∀ f ∈ s.files, f.key = key) :
    s.CancelSafe key := fun _ _ k f' hf' hk => by
  refine absurd ?_ hk
  rw [← fileOf_key hf']
  exact h f' (List.mem_of_find?_eq_some hf')

theorem rendezvous_never_loses_delivery :
    ((World.start fun _ : Bool => 7).run delivery).sent = 1 ∧
      (((World.start fun _ : Bool => 7).run delivery).Waiting 0
          (((World.start fun _ : Bool => 7).run delivery).request 0).source ∨
        ((World.start fun _ : Bool => 7).run delivery).NotLost 0) := by
  refine ⟨rfl, rendezvous_never_loses _ _ soundRun_delivery ?_ 0 (Nat.lt_succ_self 0)⟩
  refine ⟨trivial, ⟨rfl, Nat.le_refl 3, ?_⟩, ⟨rfl, rfl, fun p hp => ?_⟩, ⟨rfl, rfl, fun p hp => ?_⟩,
    ⟨rfl, rfl, fun p hp => ?_⟩, trivial⟩
  · decide
  · cases hp
    exact ⟨by decide, fun ha => absurd ha (by decide), fun ha => absurd ha (by decide),
      fun ha => absurd ha (by decide)⟩
  · cases hp
    exact ⟨by decide, fun _ => cancelSafe_of_alone (by decide), fun ha => absurd ha (by decide),
      fun ha => absurd ha (by decide)⟩
  · cases hp
    exact ⟨by decide, fun ha => absurd ha (by decide), fun _ => cancelSafe_of_alone (by decide),
      fun ha => absurd ha (by decide)⟩

/-- Two REQUESTs of one imago arrive; its sender answers ACK to the first ACCEPT and NACK to the
second, and the NACK overtakes the ACK. -/
def overtakingNack : List (Event Bool) :=
  [.send false true [1, 2, 3], .process false 0 .ample, .alarm false 0 .ample,
    .process false 0 .ample, .arrive false 0 .ample none, .arrive false 0 .ample none,
    .arrive true 1 .ample none, .arrive true 0 .ample none, .arrive false 0 .ample none,
    .arrive false 0 .ample none]

/-- **Both sides destroy their copy** when a NACK overtakes the ACK; and between its timer and its
next sending an imago is neither stored nor anything else the sender waits for. -/
theorem nack_loses :
    ((World.start fun _ : Bool => 7).run overtakingNack).sent = 1 ∧
      ¬ ((World.start fun _ : Bool => 7).run overtakingNack).NotLost 0 ∧
      ¬ ((World.start fun _ : Bool => 7).run (overtakingNack.take 3)).NotLost 0 := by
  have hlost : ∀ w : World Bool, (∀ h, (w.server h).files = [] ∧ (w.server h).upper = []) →
      ¬ w.NotLost 0 := by
    rintro w hw (⟨g, q, f, hf, -⟩ | ⟨g, q, f, hf, -⟩ | ⟨p, hp, -⟩ | ⟨p, hp, -⟩)
    · rw [(hw _).1] at hf
      cases hf
    · rw [(hw _).1] at hf
      cases hf
    · rw [(hw _).2] at hp
      cases hp
    · rw [(hw _).2] at hp
      cases hp
  refine ⟨rfl, hlost _ fun h => ?_, hlost _ fun h => ?_⟩
  all_goals
    cases h <;> exact ⟨rfl, rfl⟩

end Mlvm.Transport
