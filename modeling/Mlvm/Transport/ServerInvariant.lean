import Mlvm.Transport.Rendezvous
import Mathlib.Data.List.Count
import Mathlib.Data.List.Perm.Basic

/-!
# The invariant of a server

Every imago is in one **phase**: queued at its sender, stored there, acknowledged, delivered or
returned. A **token** of an imago is what carries it on: its PDU in the sender's queue, its
backup at the sender, an ACK in flight, its PDU handed up. The invariant says that tokens agree
with the phase, and that a PDU, a backup or an answer under a pair of ids belongs to the imago
the pair was given to.

It is local to a server once the phases and the owners of the pairs are fixed, so a handler is
followed through on its own server, and the other servers only see a change of phase of an imago
they hold no token of.
-/

namespace Mlvm.Transport

variable {Host : Type}

/-! ## The invariant of a server -/

/-- Where an imago is. -/
inductive Phase (Host : Type) where
  | new
  | queued (h : Host)
  | stored (h : Host) (genid : UInt16) (seqid : UInt32)
  | acknowledged (h : Host) (genid : UInt16) (seqid : UInt32)
  | delivered
  | returned (h : Host)
  deriving DecidableEq

/-- Which imago a server has given a pair of ids. -/
abbrev Owner (Host : Type) := Host → UInt16 → UInt32 → Nat

/-- The type of a REQUEST, sent again or not. -/
def IsRequest (type : UInt16) : Prop :=
  type = adaTypeRequest ∨ type = adaTypeRequest ||| adaTypeRetry

/-- The server whose ids a PDU in flight from `h` carries. -/
def origin (h : Host) (p : Pdu Host) : Host :=
  if p.adaType = adaTypeAccept then p.destinationServer else h

/-- The PDU waits to be sent for imago `i`. -/
def waits (i : Nat) (p : Pdu Host) : Bool :=
  p.state = .adaDown ∧ p.imago = i

/-- The PDU acknowledges imago `i`. -/
def acks (i : Nat) (p : Pdu Host) : Bool :=
  p.adaType = adaTypeAck ∧ p.imago = i

/-- A PDU in flight: its header is on, and it is a REQUEST or one of the three answers. -/
structure InFlight (h : Host) (own : Owner Host) (p : Pdu Host) : Prop where
  own : own (origin h p) p.genid p.seqid = p.imago
  frames : ∃ data, p.frames = headed p.genid p.adaType p.seqid data
  kind : p.sitp = true ∧ IsRequest p.adaType ∨
    p.sitp = false ∧
      (p.adaType = adaTypeAccept ∨ p.adaType = adaTypeAck ∨ p.adaType = adaTypeNack)

/-- A PDU that came in from the server `a` and has had its header read. -/
structure CameIn (p : Pdu Host) : Prop where
  state : p.state = .adaUp
  sitp : p.sitp = true
  error : p.error = false
  retry : p.retry = 0

/-- A PDU stored at its sender under `g`, `q`. -/
structure SentAs (g : UInt16) (q : UInt32) (p : Pdu Host) : Prop where
  genid : p.genid = g
  seqid : p.seqid = q
  type : IsRequest p.adaType
  state : p.state = .adaDown
  sitp : p.sitp = true
  error : p.error = false

variable [DecidableEq Host]

/-- **The invariant of a server**, for given owners and phases. -/
structure Local (own : Owner Host) (phase : Nat → Phase Host) (h : Host) (s : Server Host) :
    Prop where
  sent : ∀ g q f, fileOf s.files (.sent g q) = some f →
    phase f.pdu.imago = .stored h g q ∧ own h g q = f.pdu.imago ∧ SentAs g q f.pdu
  received : ∀ a g q f, fileOf s.files (.received a g q) = some f →
    own a g q = f.pdu.imago ∧ f.pdu.sourceServer = a ∧ f.pdu.genid = g ∧ f.pdu.seqid = q ∧
      CameIn f.pdu
  queued : ∀ p ∈ s.queue, p.state = .adaDown →
    phase p.imago = .queued h ∧ p.sitp = true ∧ p.error = false ∧
      (p.adaType &&& adaTypeRetry ≠ 0 → IsRequest p.adaType ∧ own h p.genid p.seqid = p.imago)
  cameIn : ∀ p ∈ s.queue, p.state ≠ .adaDown → CameIn p
  queuedOnce : ∀ i, s.queue.countP (waits i) ≤ 1
  lower : ∀ p ∈ s.lower, InFlight h own p
  ack : ∀ p ∈ s.lower, p.adaType = adaTypeAck →
    phase p.imago = .acknowledged h p.genid p.seqid
  ackOnce : ∀ i, s.lower.countP (acks i) ≤ 1
  upper : ∀ p ∈ s.upper, phase p.imago = if p.error then .returned h else .delivered
  acknowledged : ∀ i ∈ s.acknowledged,
    (∃ g q, phase i = .acknowledged h g q) ∨ phase i = .delivered
  timer : ∀ t g q, (s.timerTlb t).status = .active →
    ((s.timerTlb t).arg, BackupKey.sent g q) ∈ s.backupList →
    ∃ f, fileOf s.files (.sent g q) = some f ∧ f.id = (s.timerTlb t).arg ∧
      f.pdu.timer = (t : Int) + 1
  timerId : ∀ t, (s.timerTlb t).status = .active → (s.timerTlb t).arg < s.backupId
  listId : ∀ e ∈ s.backupList, e.1 < s.backupId

variable {own own' : Owner Host} {phase phase' : Nat → Phase Host} {h : Host} {s s' : Server Host}
  {i : Nat}

/-! ## What keeps the invariant on a server -/

theorem Local.lose (hs : Local own phase h s) (n : Nat) :
    Local own phase h (s.leave n) :=
  { hs with
    lower := fun p hp => hs.lower p (List.mem_of_mem_eraseIdx hp)
    ack := fun p hp => hs.ack p (List.mem_of_mem_eraseIdx hp)
    ackOnce := fun i => Nat.le_trans (List.eraseIdx_sublist _ _).countP_le (hs.ackOnce i) }

theorem Local.take (hs : Local own phase h s) (n : Nat) :
    Local own phase h { s with queue := s.queue.eraseIdx n } :=
  { hs with
    queued := fun p hp => hs.queued p (List.mem_of_mem_eraseIdx hp)
    cameIn := fun p hp => hs.cameIn p (List.mem_of_mem_eraseIdx hp)
    queuedOnce := fun i => Nat.le_trans (List.eraseIdx_sublist _ _).countP_le (hs.queuedOnce i) }

/-- A member that is counted leaves a smaller count behind. -/
theorem countP_eraseIdx_lt {α : Type} {P : α → Bool} {l : List α} {n : Nat} {x : α}
    (hx : l[n]? = some x) (hP : P x = true) : (l.eraseIdx n).countP P < l.countP P := by
  obtain ⟨hn, rfl⟩ := List.getElem?_eq_some_iff.mp hx
  have hperm := (List.getElem_cons_eraseIdx_perm hn).countP_eq P
  rw [List.countP_cons_of_pos hP] at hperm
  omega

/-- The timers are as they were, or less active. -/
structure Calmer (tlb tlb' : Nat → Timer) : Prop where
  calmer : ∀ t, (tlb' t).status = .active → tlb' t = tlb t

theorem Local.calmer (hs : Local own phase h s) {tlb : Nat → Timer}
    (hc : Calmer s.timerTlb tlb) : Local own phase h { s with timerTlb := tlb } :=
  { hs with
    timer := fun t g q ht hl => by
      have heq := hc.calmer t ht
      simp only [heq] at ht hl ⊢
      exact hs.timer t g q ht hl
    timerId := fun t ht => by
      have heq := hc.calmer t ht
      simp only [heq] at ht ⊢
      exact hs.timerId t ht }

theorem calmer_update (tlb : Nat → Timer) (t : Nat) {x : Timer} (hx : x.status ≠ .active) :
    Calmer tlb (Function.update tlb t x) := by
  refine ⟨fun t' ht' => ?_⟩
  by_cases htt : t' = t
  · subst htt
    rw [Function.update_self] at ht'
    exact absurd ht' hx
  · rw [Function.update_of_ne htt]

theorem calmer_timerFree (tlb : Nat → Timer) (id : Int) : Calmer tlb (timerFree tlb id) := by
  rw [timerFree]
  split_ifs
  · exact ⟨fun _ _ => rfl⟩
  · exact calmer_update tlb _ (by simp [Timer.clear])

theorem calmer_timerNew (tlb : Nat → Timer) : Calmer tlb (timerNew tlb).1 := by
  rw [timerNew]
  cases (List.range maxTimer).find? fun id => decide ((tlb id).status = .free) with
  | none => exact ⟨fun _ _ => rfl⟩
  | some id => exact calmer_update tlb id (by simp)

theorem Local.timerFree (hs : Local own phase h s) (id : Int) :
    Local own phase h (s.timerFree id) :=
  hs.calmer (calmer_timerFree _ id)

theorem Local.timerSet (hs : Local own phase h s) (id : Int) {arg : Nat} (harg : arg < s.backupId)
    (hlist : ∀ g q, (arg, BackupKey.sent g q) ∈ s.backupList →
      ∃ f, fileOf s.files (.sent g q) = some f ∧ f.id = arg ∧ f.pdu.timer = id) :
    Local own phase h (s.timerSet id arg) := by
  rw [Server.timerSet, Transport.timerSet]
  split_ifs with hid
  · exact hs
  · exact hs
  · refine { hs with timer := fun t g q ht hl => ?_, timerId := fun t ht => ?_ }
    · by_cases htt : t = (id - 1).toNat
      · subst htt
        simp only [Function.update_self] at hl ⊢
        obtain ⟨f, hf, hfid, hft⟩ := hlist g q hl
        exact ⟨f, hf, hfid, by omega⟩
      · simp only [Function.update_of_ne htt] at ht hl ⊢
        exact hs.timer t g q ht hl
    · by_cases htt : t = (id - 1).toNat
      · subst htt
        simpa using harg
      · simp only [Function.update_of_ne htt] at ht ⊢
        exact hs.timerId t ht

theorem Local.backupCancel (hs : Local own phase h s) (key : BackupKey Host) :
    Local own phase h (s.backupCancel key) := by
  rw [Server.backupCancel]
  cases hf : fileOf s.files key with
  | none => exact hs
  | some f =>
      have hold : ∀ k f', fileOf (unlink s.files key) k = some f' →
          k ≠ key ∧ fileOf s.files k = some f' := fun k f' hf' => by
        by_cases hk : k = key
        · subst hk
          rw [fileOf_unlink_self] at hf'
          cases hf'
        · exact ⟨hk, by rwa [fileOf_unlink_of_ne _ hk] at hf'⟩
      refine { hs with
        sent := fun g q f' hf' => hs.sent g q f' (hold _ _ hf').2
        received := fun a g q f' hf' => hs.received a g q f' (hold _ _ hf').2
        timer := fun t g q ht hl => ?_
        listId := fun e he => hs.listId e (mem_removeEntry he).1 }
      obtain ⟨f', hf', hid, htimer⟩ := hs.timer t g q ht (mem_removeEntry hl).1
      have hne : BackupKey.sent g q ≠ key := fun hk => by
        subst hk
        rw [hf, Option.some.injEq] at hf'
        exact (mem_removeEntry hl).2 (by rw [← hid, hf'])
      exact ⟨f', by simpa [fileOf_unlink_of_ne _ hne] using hf', hid, htimer⟩

theorem fileOf_backupCancel_self (s : Server Host) (key : BackupKey Host) :
    fileOf (s.backupCancel key).files key = none := by
  rw [Server.backupCancel]
  cases hf : fileOf s.files key with
  | none => exact hf
  | some f => exact fileOf_unlink_self _ _

theorem Local.enqueueLower (hs : Local own phase h s) {p : Pdu Host} (hp : p.state = .securityDown)
    (hfly : InFlight h own p)
    (hack : p.adaType = adaTypeAck → phase p.imago = .acknowledged h p.genid p.seqid ∧
      s.lower.countP (acks p.imago) = 0) :
    Local own phase h (s.pduEnqueue p) := by
  rw [Server.pduEnqueue, hp]
  refine { hs with lower := ?_, ack := ?_, ackOnce := fun i => ?_ }
  · intro p' hp'
    rcases List.mem_cons.mp hp' with rfl | hp'
    · exact hfly
    · exact hs.lower p' hp'
  · intro p' hp' htype
    rcases List.mem_cons.mp hp' with rfl | hp'
    · exact (hack htype).1
    · exact hs.ack p' hp' htype
  · by_cases ha : acks i p = true
    · obtain ⟨htype, rfl⟩ : p.adaType = adaTypeAck ∧ p.imago = i := by simpa [acks] using ha
      show (p :: s.lower).countP (acks p.imago) ≤ 1
      exact Nat.le_of_eq (by rw [List.countP_cons_of_pos ha, (hack htype).2])
    · show (p :: s.lower).countP (acks i) ≤ 1
      rw [List.countP_cons_of_neg ha]
      exact hs.ackOnce i

theorem Local.enqueueUpper (hs : Local own phase h s) {p : Pdu Host} (hp : p.state = .marshalingUp)
    (hphase : phase p.imago = if p.error then .returned h else .delivered) :
    Local own phase h (s.pduEnqueue p) := by
  rw [Server.pduEnqueue, hp]
  refine { hs with upper := ?_ }
  intro p' hp'
  rcases List.mem_cons.mp hp' with rfl | hp'
  · exact hphase
  · exact hs.upper p' hp'

theorem Local.enqueueUp (hs : Local own phase h s) {p : Pdu Host} (hp : CameIn p) :
    Local own phase h (s.pduEnqueue p) := by
  have hwaits : ∀ i, waits i p ≠ true := fun i => by simp [waits, hp.state]
  rw [Server.pduEnqueue, hp.state]
  refine { hs with queued := ?_, cameIn := ?_, queuedOnce := fun i => ?_ }
  · intro p' hp' hstate
    rcases List.mem_cons.mp hp' with rfl | hp'
    · rw [hp.state] at hstate
      cases hstate
    · exact hs.queued p' hp' hstate
  · intro p' hp' hstate
    rcases List.mem_cons.mp hp' with rfl | hp'
    · exact hp
    · exact hs.cameIn p' hp' hstate
  · show (p :: s.queue).countP (waits i) ≤ 1
    rw [List.countP_cons_of_neg (hwaits i)]
    exact hs.queuedOnce i

theorem Local.enqueueDown (hs : Local own phase h s) {p : Pdu Host} (hp : p.state = .adaDown)
    (hphase : phase p.imago = .queued h) (hsitp : p.sitp = true) (herror : p.error = false)
    (hown : p.adaType &&& adaTypeRetry ≠ 0 →
      IsRequest p.adaType ∧ own h p.genid p.seqid = p.imago)
    (honce : s.queue.countP (waits p.imago) = 0) :
    Local own phase h (s.pduEnqueue p) := by
  rw [Server.pduEnqueue, hp]
  refine { hs with queued := ?_, cameIn := ?_, queuedOnce := fun i => ?_ }
  · intro p' hp' hstate
    rcases List.mem_cons.mp hp' with rfl | hp'
    · exact ⟨hphase, hsitp, herror, hown⟩
    · exact hs.queued p' hp' hstate
  · intro p' hp' hstate
    rcases List.mem_cons.mp hp' with rfl | hp'
    · exact absurd hp hstate
    · exact hs.cameIn p' hp' hstate
  · show (p :: s.queue).countP (waits i) ≤ 1
    by_cases hw : waits i p = true
    · obtain ⟨-, rfl⟩ : p.state = .adaDown ∧ p.imago = i := by simpa [waits] using hw
      exact Nat.le_of_eq (by rw [List.countP_cons_of_pos hw, honce])
    · rw [List.countP_cons_of_neg hw]
      exact hs.queuedOnce i

theorem Local.newEntry (hs : Local own phase h s) (key : BackupKey Host) :
    Local own phase h { s with backupId := s.backupId + 1,
                               backupList := s.backupList ++ [(s.backupId, key)] } := by
  refine { hs with timer := fun t g q ht hl => ?_, timerId := ?_, listId := ?_ }
  · rcases List.mem_append.mp hl with hl | hl
    · exact hs.timer t g q ht hl
    · have harg := hs.timerId t ht
      rw [List.mem_singleton, Prod.mk.injEq] at hl
      exact absurd hl.1 (Nat.ne_of_lt harg)
  · intro t ht
    exact Nat.lt_succ_of_lt (hs.timerId t ht)
  · intro e he
    rcases List.mem_append.mp he with he | he
    · exact Nat.lt_succ_of_lt (hs.listId e he)
    · rw [List.mem_singleton.mp he]
      exact Nat.lt_succ_self _

/-- The new entry is the only one with its id. -/
theorem Local.entry_unique (hs : Local own phase h s) {key key' : BackupKey Host}
    (he : (s.backupId, key') ∈ s.backupList ++ [(s.backupId, key)]) : key' = key := by
  rcases List.mem_append.mp he with he | he
  · exact absurd (hs.listId _ he) (Nat.lt_irrefl _)
  · simpa using he

theorem Local.writeSent (hs : Local own phase h s) {f : BackupFile Host} {g : UInt16} {q : UInt32}
    (hkey : f.key = .sent g q) (hnone : fileOf s.files (.sent g q) = none)
    (hphase : phase f.pdu.imago = .stored h g q) (hown : own h g q = f.pdu.imago)
    (hf : SentAs g q f.pdu) :
    Local own phase h { s with files := writeFile s.files f } := by
  have hne : ∀ k, k ≠ BackupKey.sent g q → fileOf (writeFile s.files f) k = fileOf s.files k :=
    fun k hk => fileOf_writeFile_of_ne _ _ (by rwa [hkey])
  refine { hs with
    sent := fun g' q' f' hf' => ?_
    received := fun a g' q' f' hf' => hs.received a g' q' f' (by rwa [← hne _ (by simp)])
    timer := fun t g' q' ht hl => ?_ }
  · by_cases hk : (BackupKey.sent g' q' : BackupKey Host) = .sent g q
    · obtain ⟨rfl, rfl⟩ : g' = g ∧ q' = q := by simpa using hk
      rw [← hkey, fileOf_writeFile_self, Option.some.injEq] at hf'
      subst hf'
      exact ⟨hphase, hown, hf⟩
    · rw [hne _ hk] at hf'
      exact hs.sent g' q' f' hf'
  · obtain ⟨f', hf', hrest⟩ := hs.timer t g' q' ht hl
    have hk : (BackupKey.sent g' q' : BackupKey Host) ≠ .sent g q := fun hk => by
      rw [hk, hnone] at hf'
      cases hf'
    exact ⟨f', by rw [hne _ hk]; exact hf', hrest⟩

theorem Local.writeReceived (hs : Local own phase h s) {f : BackupFile Host} {a : Host}
    {g : UInt16} {q : UInt32} (hkey : f.key = .received a g q) (hown : own a g q = f.pdu.imago)
    (hsource : f.pdu.sourceServer = a) (hgenid : f.pdu.genid = g) (hseqid : f.pdu.seqid = q)
    (hf : CameIn f.pdu) :
    Local own phase h { s with files := writeFile s.files f } := by
  have hne : ∀ k, k ≠ BackupKey.received a g q →
      fileOf (writeFile s.files f) k = fileOf s.files k :=
    fun k hk => fileOf_writeFile_of_ne _ _ (by rwa [hkey])
  refine { hs with
    sent := fun g' q' f' hf' => hs.sent g' q' f' (by rwa [← hne _ (by simp)])
    received := fun a' g' q' f' hf' => ?_
    timer := fun t g' q' ht hl => ?_ }
  · by_cases hk : BackupKey.received a' g' q' = .received a g q
    · obtain ⟨rfl, rfl, rfl⟩ : a' = a ∧ g' = g ∧ q' = q := by simpa using hk
      rw [← hkey, fileOf_writeFile_self, Option.some.injEq] at hf'
      subst hf'
      exact ⟨hown, hsource, hgenid, hseqid, hf⟩
    · rw [hne _ hk] at hf'
      exact hs.received a' g' q' f' hf'
  · obtain ⟨f', hf', hrest⟩ := hs.timer t g' q' ht hl
    exact ⟨f', by rw [hne _ (by simp)]; exact hf', hrest⟩

/-! ## Tokens, phases and owners -/

/-- The server holds no token of the imago. -/
structure NoToken (s : Server Host) (i : Nat) : Prop where
  queue : ∀ p ∈ s.queue, p.state = .adaDown → p.imago ≠ i
  sent : ∀ g q f, fileOf s.files (.sent g q) = some f → f.pdu.imago ≠ i
  ack : ∀ p ∈ s.lower, p.adaType = adaTypeAck → p.imago ≠ i
  upper : ∀ p ∈ s.upper, p.imago ≠ i

/-- An imago under way has only the tokens of its phase. -/
theorem Local.noToken (hs : Local own phase h s)
    (hqueue : phase i = .queued h → s.queue.countP (waits i) = 0)
    (hsent : ∀ g q, phase i = .stored h g q → fileOf s.files (.sent g q) = none)
    (hack : ∀ g q, phase i = .acknowledged h g q → s.lower.countP (acks i) = 0)
    (hdelivered : phase i ≠ .delivered) (hreturned : phase i ≠ .returned h) :
    NoToken s i where
  queue p hp hstate hi := by
    subst hi
    have hzero := hqueue (hs.queued p hp hstate).1
    rw [List.countP_eq_zero] at hzero
    exact hzero p hp (by simp [waits, hstate])
  sent g q f hf hi := by
    subst hi
    rw [hsent g q (hs.sent g q f hf).1] at hf
    cases hf
  ack p hp htype hi := by
    subst hi
    have hzero := hack _ _ (hs.ack p hp htype)
    rw [List.countP_eq_zero] at hzero
    exact hzero p hp (by simp [acks, htype])
  upper p hp hi := by
    subst hi
    have hphase := hs.upper p hp
    split_ifs at hphase
    · exact hreturned hphase
    · exact hdelivered hphase

/-- **A server without tokens of an imago does not see its phase change.** -/
theorem Local.rephase (hs : Local own phase h s) (hi : NoToken s i) {x : Phase Host}
    (hx : i ∈ s.acknowledged → (∃ g q, x = .acknowledged h g q) ∨ x = .delivered) :
    Local own (Function.update phase i x) h s := by
  refine { hs with
    sent := fun g q f hf => ?_
    queued := fun p hp hstate => ?_
    ack := fun p hp htype => ?_
    upper := fun p hp => ?_
    acknowledged := fun j hj => ?_ }
  · rw [Function.update_of_ne (hi.sent g q f hf)]
    exact hs.sent g q f hf
  · rw [Function.update_of_ne (hi.queue p hp hstate)]
    exact hs.queued p hp hstate
  · rw [Function.update_of_ne (hi.ack p hp htype)]
    exact hs.ack p hp htype
  · rw [Function.update_of_ne (hi.upper p hp)]
    exact hs.upper p hp
  · by_cases hji : j = i
    · subst hji
      rw [Function.update_self]
      exact hx hj
    · rw [Function.update_of_ne hji]
      exact hs.acknowledged j hj

/-- What a server keeps or has in flight under the pair `g`, `q` of the server `a`, and for which
imago. -/
inductive UsedFor (h : Host) (s : Server Host) (a : Host) (g : UInt16) (q : UInt32) : Nat → Prop
  | lower {p : Pdu Host} : p ∈ s.lower → origin h p = a → p.genid = g → p.seqid = q →
      UsedFor h s a g q p.imago
  | received {f : BackupFile Host} : fileOf s.files (.received a g q) = some f →
      UsedFor h s a g q f.pdu.imago
  | sent {f : BackupFile Host} : h = a → fileOf s.files (.sent g q) = some f →
      UsedFor h s a g q f.pdu.imago
  | queue {p : Pdu Host} : p ∈ s.queue → p.state = .adaDown → p.adaType &&& adaTypeRetry ≠ 0 →
      h = a → p.genid = g → p.seqid = q → UsedFor h s a g q p.imago

/-- Give the pair `g`, `q` of the server `a` to an imago. -/
def reown (own : Owner Host) (a : Host) (g : UInt16) (q : UInt32) (i : Nat) : Owner Host :=
  fun a' g' q' => if a' = a ∧ g' = g ∧ q' = q then i else own a' g' q'

theorem reown_self (own : Owner Host) (a : Host) (g : UInt16) (q : UInt32) (i : Nat) :
    reown own a g q i a g q = i := by
  simp [reown]

/-- A pair that is in use for no other imago may be given to an imago. -/
theorem Local.reown (hs : Local own phase h s) {a : Host} {g : UInt16} {q : UInt32}
    (hfree : ∀ j, UsedFor h s a g q j → j = i) :
    Local (reown own a g q i) phase h s := by
  have hkeep : ∀ {a' g' q' j}, own a' g' q' = j →
      (a' = a → g' = g → q' = q → UsedFor h s a g q j) →
      Transport.reown own a g q i a' g' q' = j := fun hj huse => by
    rw [Transport.reown]
    split_ifs with hk
    · exact (hfree _ (huse hk.1 hk.2.1 hk.2.2)).symm
    · exact hj
  refine { hs with
    sent := fun g' q' f hf => ?_
    received := fun a' g' q' f hf => ?_
    queued := fun p hp hstate => ?_
    lower := fun p hp => ?_ }
  · obtain ⟨hphase, hown, hrest⟩ := hs.sent g' q' f hf
    refine ⟨hphase, hkeep hown fun ha hg hq => ?_, hrest⟩
    subst hg hq
    exact .sent ha hf
  · obtain ⟨hown, hrest⟩ := hs.received a' g' q' f hf
    refine ⟨hkeep hown fun ha hg hq => ?_, hrest⟩
    subst ha hg hq
    exact .received hf
  · obtain ⟨hphase, hsitp, herror, hown⟩ := hs.queued p hp hstate
    refine ⟨hphase, hsitp, herror, fun hr => ⟨(hown hr).1, ?_⟩⟩
    exact hkeep (hown hr).2 fun ha hg hq => .queue hp hstate hr ha hg hq
  · obtain ⟨hown, hframes, hkind⟩ := hs.lower p hp
    exact ⟨hkeep hown fun ha hg hq => .lower hp ha hg hq, hframes, hkind⟩

/-! ## The handlers -/

theorem Local.dispatch (hs : Local own phase h s) (r : Resources) {p : Pdu Host} {type : UInt16}
    (htype : type = adaTypeAccept ∨ type = adaTypeNack)
    (hown : own (if type = adaTypeAccept then p.sourceServer else h) p.genid p.seqid = p.imago)
    [Inhabited Host] :
    Local own phase h (dispatchControlPdu r s type p) := by
  rw [dispatchControlPdu]
  split_ifs
  · refine hs.enqueueLower rfl ⟨hown, ⟨[], rfl⟩, Or.inr ⟨rfl, ?_⟩⟩ fun hack => ?_
    · exact htype.imp_right Or.inr
    · have hne : type ≠ adaTypeAck := by rcases htype with rfl | rfl <;> decide
      exact absurd hack hne
  · exact hs

theorem isRequest_ne_accept {type : UInt16} (h : IsRequest type) : type ≠ adaTypeAccept := by
  rcases h with rfl | rfl <;> decide

theorem isRequest_ne_ack {type : UInt16} (h : IsRequest type) : type ≠ adaTypeAck := by
  rcases h with rfl | rfl <;> decide

theorem isRequest_request {type : UInt16} (h : IsRequest type) : type &&& adaTypeRequest ≠ 0 := by
  rcases h with rfl | rfl <;> decide

theorem isRequest_retry {type : UInt16} (h : IsRequest type) : IsRequest (type ||| adaTypeRetry) :=
  Or.inr (by rcases h with rfl | rfl <;> decide)

/-- A PDU returned to the marshaling layer by `down`. -/
theorem Local.downError (hs : Local own phase h s) {p : Pdu Host} (hno : NoToken s p.imago)
    (hack : p.imago ∉ s.acknowledged) :
    Local own (Function.update phase p.imago (.returned h)) h (downError s p) := by
  have hphase := (hs.rephase hno (x := .returned h) fun hi => absurd hi hack).timerFree p.timer
  exact hphase.enqueueUpper rfl (by simp)

/-- **`down` with its ids set** stores the PDU and sends it, or returns it. -/
theorem Local.sendRequest (hs : Local own phase h s) (r : Resources) {p : Pdu Host}
    (hphase : phase p.imago = .queued h) (hno : NoToken s p.imago)
    (hp : SentAs p.genid p.seqid p) (hown : own h p.genid p.seqid = p.imago)
    (hroom : r.saved = true → 3 ≤ r.room) :
    ∃ x, Local own (Function.update phase p.imago x) h (sendRequest r s p) := by
  have hack : p.imago ∉ s.acknowledged := fun hi => by
    rcases hs.acknowledged _ hi with ⟨g, q, hc⟩ | hc <;> rw [hphase] at hc <;> cases hc
  have hnone : fileOf s.files (.sent p.genid p.seqid) = none := by
    cases hf : fileOf s.files (.sent p.genid p.seqid) with
    | none => rfl
    | some f =>
        obtain ⟨hstored, hfown, -⟩ := hs.sent _ _ f hf
        rw [← hfown, hown, hphase] at hstored
        cases hstored
  have hentry := hs.newEntry (.sent p.genid p.seqid)
  rw [Transport.sendRequest, Server.backupSave]
  cases hsaved : r.saved with
  | false =>
      refine ⟨.returned h, ?_⟩
      exact hentry.downError (p := { p with errno := .nback })
        ⟨hno.queue, hno.sent, hno.ack, hno.upper⟩ hack
  | true =>
      refine ⟨.stored h p.genid p.seqid, ?_⟩
      simp only [if_true, writeHeader_room (hroom hsaved)]
      have hnew := hentry.rephase (i := p.imago) (x := .stored h p.genid p.seqid)
        ⟨hno.queue, hno.sent, hno.ack, hno.upper⟩ fun hi => absurd hi hack
      have hfile := hnew.writeSent (f := ⟨.sent p.genid p.seqid, s.backupId, p⟩) rfl hnone
        (Function.update_self ..) hown hp
      have hset := hfile.timerSet p.timer (Nat.lt_succ_self s.backupId)
        fun g q hl => by
          obtain ⟨rfl, rfl⟩ : g = p.genid ∧ q = p.seqid := by simpa using hs.entry_unique hl
          exact ⟨_, fileOf_writeFile_self _ _, rfl, rfl⟩
      have hne := isRequest_ne_accept hp.type
      refine hset.enqueueLower rfl ⟨?_, ⟨p.frames, rfl⟩, Or.inl ⟨hp.sitp, hp.type⟩⟩
        fun ha => absurd ha (isRequest_ne_ack hp.type)
      simp only [origin, hne, if_false]
      exact hown

/-- **`down`** on a queued PDU: a new pair of ids must be free. -/
theorem Local.down (hs : Local own phase h s) (r : Resources) {p : Pdu Host}
    (hphase : phase p.imago = .queued h) (hno : NoToken s p.imago) (hstate : p.state = .adaDown)
    (hsitp : p.sitp = true) (herror : p.error = false)
    (hretry : p.adaType &&& adaTypeRetry ≠ 0 →
      IsRequest p.adaType ∧ own h p.genid p.seqid = p.imago)
    (hroom : r.saved = true → 3 ≤ r.room)
    (hfree : p.adaType &&& adaTypeRetry = 0 →
      ∀ j, UsedFor h s h s.generation s.sequence j → j = p.imago) :
    ∃ x, Local
      (if p.adaType &&& adaTypeRetry = 0 then
        Transport.reown own h s.generation s.sequence p.imago else own)
      (Function.update phase p.imago x) h (imagoLayerADArendezvousDown r s p) := by
  rw [imagoLayerADArendezvousDown, initializeAda]
  split_ifs with hnew
  · have hids : Local (Transport.reown own h s.generation s.sequence p.imago) phase h
        { s with sequence := s.sequence + 1,
                 generation := if s.sequence + 1 = 0 then r.time else s.generation,
                 timerTlb := (timerNew s.timerTlb).1 } :=
      { (hs.reown (hfree hnew)).calmer (calmer_timerNew s.timerTlb) with }
    refine hids.sendRequest r
      (p := { p with genid := s.generation, seqid := s.sequence, adaType := adaTypeRequest,
                     timer := (timerNew s.timerTlb).2, retry := 0 + 1 })
      hphase ⟨hno.queue, hno.sent, hno.ack, hno.upper⟩
      ⟨rfl, rfl, Or.inl rfl, hstate, hsitp, herror⟩ (reown_self ..) hroom
  · obtain ⟨htype, hown⟩ := hretry hnew
    exact hs.sendRequest r (p := { p with retry := p.retry + 1 }) hphase hno
      ⟨rfl, rfl, htype, hstate, hsitp, herror⟩ hown hroom

theorem Local.storeRequest (hs : Local own phase h s) (r : Resources) {p : Pdu Host}
    (hp : CameIn p) (hown : r.saved = true → own p.sourceServer p.genid p.seqid = p.imago)
    [Inhabited Host] :
    Local own phase h (storeRequest r s p) := by
  have htlb := hs.calmer (calmer_timerNew s.timerTlb)
  have hentry := htlb.newEntry (.received p.sourceServer p.genid p.seqid)
  cases hsaved : r.saved with
  | false =>
      simp only [Transport.storeRequest, Server.backupSave, hsaved]
      exact hentry
  | true =>
      simp only [Transport.storeRequest, Server.backupSave, hsaved, if_true]
      have hfile := hentry.writeReceived
        (f := ⟨.received p.sourceServer p.genid p.seqid, s.backupId,
          { p with timer := (timerNew s.timerTlb).2 }⟩)
        rfl (hown hsaved) rfl rfl rfl ⟨hp.state, hp.sitp, hp.error, hp.retry⟩
      have haccept := hfile.dispatch r (p := { p with timer := (timerNew s.timerTlb).2 })
        (Or.inl rfl) (by simpa using hown hsaved)
      refine haccept.timerSet _ ?_ fun g q hl => ?_
      · rw [dispatchControlPdu]
        split_ifs <;> exact Nat.lt_succ_self _
      · have hkey : BackupKey.sent g q = .received p.sourceServer p.genid p.seqid := by
          refine htlb.entry_unique ?_
          revert hl
          rw [dispatchControlPdu]
          split_ifs <;> exact id
        cases hkey

/-- The ACK may be sent before or after the backup is destroyed. -/
theorem acknowledge_eq (r : Resources) (s : Server Host) (p inc : Pdu Host) [Inhabited Host] :
    acknowledge r s p inc =
      let s' := (s.timerFree inc.timer).backupCancel (.sent p.genid p.seqid)
      let s' := { s' with acknowledged := p.imago :: s'.acknowledged }
      if r.control then s'.pduEnqueue (controlPdu adaTypeAck p) else s' := by
  simp only [acknowledge, dispatchControlPdu, Server.backupCancel, Server.timerFree]
  split_ifs
  · cases hf : fileOf s.files (.sent p.genid p.seqid) <;>
      simp [Server.pduEnqueue, controlPdu, hf]
  · rfl

/-- **The sender acknowledges an imago it has stored.** -/
theorem Local.acknowledge (hs : Local own phase h s) (r : Resources) {p : Pdu Host}
    {f : BackupFile Host} (hf : fileOf s.files (.sent p.genid p.seqid) = some f)
    (hown : own h p.genid p.seqid = p.imago) [Inhabited Host] :
    phase p.imago = .stored h p.genid p.seqid ∧
      Local own (Function.update phase p.imago (.acknowledged h p.genid p.seqid)) h
        (acknowledge r s p f.pdu) := by
  have hphase : phase p.imago = .stored h p.genid p.seqid := by
    obtain ⟨hstored, hfown, -⟩ := hs.sent _ _ f hf
    rw [← hown, hfown]
    exact hstored
  refine ⟨hphase, ?_⟩
  have hcancel := (hs.timerFree f.pdu.timer).backupCancel (.sent p.genid p.seqid)
  have hno := hcancel.noToken (i := p.imago) (by simp [hphase])
    (fun g q hgq => by
      rw [hphase] at hgq
      obtain ⟨-, rfl, rfl⟩ : h = h ∧ p.genid = g ∧ p.seqid = q := by simpa using hgq
      exact fileOf_backupCancel_self _ _)
    (by simp [hphase]) (by simp [hphase]) (by simp [hphase])
  have hmoved := hcancel.rephase hno (x := .acknowledged h p.genid p.seqid)
    fun _ => Or.inl ⟨_, _, rfl⟩
  rw [acknowledge_eq]
  have hrecorded : Local own (Function.update phase p.imago (.acknowledged h p.genid p.seqid)) h
      { (s.timerFree f.pdu.timer).backupCancel (.sent p.genid p.seqid) with
        acknowledged := p.imago ::
          ((s.timerFree f.pdu.timer).backupCancel (.sent p.genid p.seqid)).acknowledged } :=
    { hmoved with
      acknowledged := fun i hi => by
        rcases List.mem_cons.mp hi with rfl | hi
        · exact Or.inl ⟨_, _, Function.update_self ..⟩
        · exact hmoved.acknowledged i hi }
  show Local _ _ h (if r.control = true then _ else _)
  split_ifs
  · refine hrecorded.enqueueLower rfl ⟨hown, ⟨[], rfl⟩, Or.inr ⟨rfl, Or.inr (Or.inl rfl)⟩⟩
      fun _ => ⟨Function.update_self .., ?_⟩
    rw [List.countP_eq_zero]
    intro p' hp' hacks
    obtain ⟨htype, hi⟩ : p'.adaType = adaTypeAck ∧ p'.imago = p.imago := of_decide_eq_true hacks
    exact hno.ack p' hp' htype hi
  · exact hrecorded

/-- **The receiver hands up an imago the sender has acknowledged.** -/
theorem Local.deliver (hs : Local own phase h s) {p : Pdu Host} {f : BackupFile Host}
    (hf : fileOf s.files (.received p.sourceServer p.genid p.seqid) = some f)
    (hno : NoToken s p.imago) (hown : own p.sourceServer p.genid p.seqid = p.imago) :
    Local own (Function.update phase p.imago .delivered) h (controlAck s p) := by
  obtain ⟨hfown, -, -, -, hcame⟩ := hs.received _ _ _ f hf
  rw [hown] at hfown
  have hdelivered := ((hs.rephase hno (x := .delivered) fun _ => Or.inr rfl).timerFree
    f.pdu.timer).backupCancel (.received p.sourceServer p.genid p.seqid)
  simp only [controlAck, Server.backupLoad, hf, Option.map_some]
  refine hdelivered.enqueueUpper rfl ?_
  show Function.update phase p.imago .delivered f.pdu.imago = _
  rw [← hfown, Function.update_self, hcame.error]
  rfl

theorem controlAck_none {p : Pdu Host}
    (hf : fileOf s.files (.received p.sourceServer p.genid p.seqid) = none) :
    controlAck s p = s := by
  simp only [controlAck, Server.backupLoad, hf, Option.map_none]

theorem Local.controlNack (hs : Local own phase h s) (p : Pdu Host) :
    Local own phase h (controlNack s p) := by
  rw [Transport.controlNack]
  cases s.backupLoad (.received p.sourceServer p.genid p.seqid) with
  | none => exact hs.backupCancel _
  | some inc => exact (hs.timerFree _).backupCancel _

/-! ## The timers -/

/-- Only imagos that the server `h` was to send have moved on. -/
def Moved (h : Host) (phase phase' : Nat → Phase Host) : Prop :=
  ∀ i, phase' i ≠ phase i → phase i = .queued h ∨ ∃ g q, phase i = .stored h g q

omit [DecidableEq Host] in
theorem Moved.refl (h : Host) (phase : Nat → Phase Host) : Moved h phase phase :=
  fun _ hi => absurd rfl hi

omit [DecidableEq Host] in
theorem Moved.trans {phase'' : Nat → Phase Host} (h₁ : Moved h phase phase')
    (h₂ : Moved h phase' phase'') : Moved h phase phase'' := fun i hi => by
  by_cases hsame : phase' i = phase i
  · rw [← hsame] at hi ⊢
    exact h₂ i hi
  · exact h₁ i hsame

omit [DecidableEq Host] in
theorem Moved.update (hi : phase i = .queued h ∨ ∃ g q, phase i = .stored h g q) (x : Phase Host) :
    Moved h phase (Function.update phase i x) := fun j hj => by
  by_cases hji : j = i
  · subst hji
    exact hi
  · exact absurd (Function.update_of_ne hji ..) hj

/-- **Another server does not notice.** -/
theorem Local.moved (hs : Local own phase h s) {a : Host} (hne : h ≠ a)
    (hm : Moved a phase phase') : Local own phase' h s := by
  have hkeep : ∀ i y, phase i = y → (∀ g q, y ≠ .queued a ∧ y ≠ .stored a g q) → phase' i = y := by
    intro i y hi hy
    by_contra hne'
    rcases hm i (hi ▸ hne') with hq | ⟨g, q, hq⟩
    · exact (hy 0 0).1 (hi ▸ hq)
    · exact (hy g q).2 (hi ▸ hq)
  refine { hs with
    sent := fun g q f hf => ?_
    queued := fun p hp hstate => ?_
    ack := fun p hp htype => hkeep _ _ (hs.ack p hp htype) (by simp)
    upper := fun p hp => hkeep _ _ (hs.upper p hp) (by split_ifs <;> simp)
    acknowledged := fun i hi => ?_ }
  · obtain ⟨hphase, hrest⟩ := hs.sent g q f hf
    exact ⟨hkeep _ _ hphase (by simp [hne]), hrest⟩
  · obtain ⟨hphase, hrest⟩ := hs.queued p hp hstate
    exact ⟨hkeep _ _ hphase (by simp [hne]), hrest⟩
  · exact (hs.acknowledged i hi).imp (fun ⟨g, q, hi⟩ => ⟨g, q, hkeep _ _ hi (by simp)⟩)
      fun hi => hkeep _ _ hi (by simp)

/-- A timer that is not on behalf of a name leaves the file of that name alone. -/
theorem fileOf_timeoutCallback (r : Resources) (s : Server Host) (id : Int) (arg : Nat)
    {key : BackupKey Host} (hkey : findEntry s.backupList arg ≠ some key) [Inhabited Host] :
    fileOf (timeoutCallback r s id arg).files key = fileOf s.files key := by
  have hcancel : ∀ s' : Server Host, s'.backupList = s.backupList → s'.files = s.files →
      fileOf (s'.backupIdcancel arg).files key = fileOf s.files key := fun s' hlist hfiles => by
    rw [Server.backupIdcancel, hlist]
    cases he : findEntry s.backupList arg with
    | none => rw [hfiles]
    | some k =>
        have hne : key ≠ k := fun hk => hkey (by rw [he, hk])
        show fileOf (s'.backupCancel k).files key = _
        rw [Server.backupCancel, hfiles]
        cases fileOf s.files k with
        | none => rw [hfiles]
        | some f => exact fileOf_unlink_of_ne _ hne
  have henqueue : ∀ (s' : Server Host) p, (s'.pduEnqueue p).files = s'.files := fun s' p => by
    rw [Server.pduEnqueue]
    split <;> rfl
  rw [timeoutCallback]
  cases s.backupIdload arg with
  | none => rfl
  | some p =>
      dsimp only
      split_ifs
      · rw [henqueue, hcancel (s.timerFree id) rfl rfl]
      · rw [henqueue, hcancel s rfl rfl]
      · rw [Server.timerSet, dispatchControlPdu]
        split_ifs
        · rw [henqueue]
        · rfl
      · exact hcancel s rfl rfl

/-- What a backup id stands for, when its file is there. -/
theorem exists_of_backupIdload {arg : Nat} {p : Pdu Host} (h : s.backupIdload arg = some p) :
    ∃ f, findEntry s.backupList arg = some f.key ∧ fileOf s.files f.key = some f ∧ f.pdu = p := by
  obtain ⟨key, hkey, hload⟩ := Option.bind_eq_some_iff.mp h
  obtain ⟨f, hf, rfl⟩ := Option.map_eq_some_iff.mp hload
  have hfk := fileOf_key hf
  subst hfk
  exact ⟨f, hkey, hf, rfl⟩

theorem backupIdcancel_eq {arg : Nat} {key : BackupKey Host}
    (h : findEntry s.backupList arg = some key) : s.backupIdcancel arg = s.backupCancel key := by
  rw [Server.backupIdcancel, h]

/-- **The timer of a request**: the PDU is returned, or queued to be sent again. -/
theorem Local.timeout_sent (hs : Local own phase h s) (r : Resources) (id : Int) {arg : Nat}
    {f : BackupFile Host} {g : UInt16} {q : UInt32} (hkey : f.key = .sent g q)
    (hentry : findEntry s.backupList arg = some f.key) (hf : fileOf s.files f.key = some f)
    [Inhabited Host] :
    ∃ x, phase f.pdu.imago = .stored h g q ∧
      Local own (Function.update phase f.pdu.imago x) h (timeoutCallback r s id arg) := by
  have hload : s.backupIdload arg = some f.pdu := by
    simp [Server.backupIdload, Server.backupLoad, hentry, hf]
  obtain ⟨hphase, hown, hp⟩ := hs.sent g q f (by rwa [← hkey])
  -- without its backup the imago has no token left here
  have hmoved : ∀ {s' : Server Host} (x : Phase Host), Local own phase h s' →
      Local own (Function.update phase f.pdu.imago x) h (s'.backupCancel f.key) ∧
        NoToken (s'.backupCancel f.key) f.pdu.imago := fun x hs' => by
    have hcancel := hs'.backupCancel f.key
    have hno := hcancel.noToken (i := f.pdu.imago) (by simp [hphase])
      (fun g' q' hgq => by
        rw [hphase] at hgq
        obtain ⟨-, rfl, rfl⟩ : h = h ∧ g = g' ∧ q = q' := by simpa using hgq
        rw [← hkey]
        exact fileOf_backupCancel_self _ _)
      (by simp [hphase]) (by simp [hphase]) (by simp [hphase])
    refine ⟨hcancel.rephase hno fun hi => ?_, hno⟩
    rcases hcancel.acknowledged _ hi with ⟨g, q, hi⟩ | hi <;> rw [hphase] at hi <;> cases hi
  simp only [timeoutCallback, hload, isRequest_request hp.type, ne_eq, not_false_eq_true, if_true]
  split_ifs
  · refine ⟨.returned h, hphase, ?_⟩
    rw [backupIdcancel_eq (s := s.timerFree id) hentry]
    exact (hmoved (.returned h) (hs.timerFree id)).1.enqueueUpper rfl (by simp)
  · refine ⟨.queued h, hphase, ?_⟩
    rw [backupIdcancel_eq hentry]
    obtain ⟨hlocal, hno⟩ := hmoved (.queued h) hs
    refine hlocal.enqueueDown hp.state (Function.update_self ..) hp.sitp hp.error
      (fun _ => ⟨isRequest_retry hp.type, ?_⟩) ?_
    · show own h f.pdu.genid f.pdu.seqid = f.pdu.imago
      rw [hp.genid, hp.seqid]
      exact hown
    · rw [List.countP_eq_zero]
      intro p' hp' hw
      obtain ⟨hstate, hi⟩ : p'.state = .adaDown ∧ p'.imago = f.pdu.imago := of_decide_eq_true hw
      exact hno.queue p' hp' hstate hi

/-- **The timer of a received imago**, whatever its header said: nothing moves on. -/
theorem Local.timeout_received (hs : Local own phase h s) (r : Resources) {id : Int} {arg : Nat}
    {f : BackupFile Host} {a : Host} {g : UInt16} {q : UInt32} (hkey : f.key = .received a g q)
    (hentry : findEntry s.backupList arg = some f.key) (hf : fileOf s.files f.key = some f)
    (harg : arg < s.backupId)
    (htimer : ∀ g q, (arg, BackupKey.sent g q) ∈ s.backupList →
      ∃ f, fileOf s.files (.sent g q) = some f ∧ f.id = arg ∧ f.pdu.timer = id)
    [Inhabited Host] :
    Local own phase h (timeoutCallback r s id arg) := by
  have hload : s.backupIdload arg = some f.pdu := by
    simp [Server.backupIdload, Server.backupLoad, hentry, hf]
  obtain ⟨hown, hsource, hg, hq, hp⟩ := hs.received a g q f (by rwa [← hkey])
  have hretry : ¬ adaMaxRetry ≤ f.pdu.retry := by
    rw [hp.retry]
    decide
  simp only [timeoutCallback, hload, hretry, if_false, backupIdcancel_eq hentry]
  split_ifs
  · exact (hs.backupCancel f.key).enqueueUp ⟨hp.state, hp.sitp, hp.error, hp.retry⟩
  · have hdispatch := hs.dispatch r (p := f.pdu) (Or.inl rfl)
      (by rw [if_pos rfl, hsource, hg, hq]; exact hown)
    refine hdispatch.timerSet id ?_ ?_ <;> rw [dispatchControlPdu] <;> split_ifs
    · exact harg
    · exact harg
    · exact htimer
    · exact htimer
  · exact (hs.backupCancel f.key).timerFree id

/-- **A timer expires**: at most an imago stored for sending moves on. -/
theorem Local.sigalrm (hs : Local own phase h s) (r : Resources) (id : Nat) [Inhabited Host] :
    ∃ phase', Moved h phase phase' ∧ Local own phase' h (sigalrmHandler r s id) := by
  rw [sigalrmHandler]
  split_ifs with hactive
  · have hfired : Local own phase h (s.fire id) := hs.calmer (calmer_update _ _ (by simp))
    cases hload : (s.fire id).backupIdload (s.timerTlb id).arg with
    | none =>
        refine ⟨phase, Moved.refl h phase, ?_⟩
        rw [timeoutCallback, hload]
        exact hfired
    | some p =>
        obtain ⟨f, hentry, hf, rfl⟩ := exists_of_backupIdload hload
        cases hkey : f.key with
        | sent g q =>
            obtain ⟨x, hphase, hlocal⟩ :=
              hfired.timeout_sent r ((id : Int) + 1) hkey hentry hf
            exact ⟨_, Moved.update (Or.inr ⟨g, q, hphase⟩) x, hlocal⟩
        | received a g q =>
            exact ⟨phase, Moved.refl h phase, hfired.timeout_received r hkey hentry hf
              (hs.timerId id hactive.2) fun g q hl => hs.timer id g q hactive.2 hl⟩
  · exact ⟨phase, Moved.refl h phase, hs⟩

end Mlvm.Transport
