import Mlvm.Transport.NoDuplicate

/-!
# What the servers hold is intact

A PDU that waits to be sent, a backup at its sender or at its receiver, and a REQUEST in flight
have the bytes of their imago; every backup has a **running timer** that finds it; PDUs in flight
are for the server they must reach. Each handler keeps this when its resources are there and
destroying a backup does not drop the entry of another one from the list.

`req i` is what was asked for imago `i`: its source, its destination and its bytes.
-/

namespace Mlvm.Transport

variable {Host : Type} [DecidableEq Host]

/-! ## What a server holds is intact -/

/-- A timer runs for the backup, and will find it. -/
structure Guarded (s : Server Host) (f : BackupFile Host) : Prop where
  timer : ∃ t < maxTimer, f.pdu.timer = (t : Int) + 1 ∧ s.timerTlb t = ⟨.active, f.id⟩
  entry : findEntry s.backupList f.id = some f.key

/-- The PDU carries imago `p.imago` from the server `h`, as it was handed down. -/
structure AsSent (req : Nat → Request Host) (h : Host) (p : Pdu Host) : Prop where
  source : (req p.imago).source = h
  destination : p.destinationServer = (req p.imago).destination
  data : p.frames = (req p.imago).data

/-- The timer slot a queued retry keeps for itself. -/
def KeepsTimer (s : Server Host) (p : Pdu Host) : Prop :=
  ∃ t < maxTimer, p.timer = (t : Int) + 1 ∧ (s.timerTlb t).status ≠ .free ∧
    (s.timerTlb t).status ≠ .active

/-- **What the server `h` holds is intact**: PDUs to be sent and backups have the bytes of their
imago, every backup has its timer, and PDUs in flight are for the server they must reach. -/
structure Intact (req : Nat → Request Host) (h : Host) (s : Server Host) : Prop where
  queue : ∀ p ∈ s.queue, p.state = .adaDown ∧ AsSent req h p
  keeps : ∀ p ∈ s.queue, p.adaType &&& adaTypeRetry ≠ 0 → KeepsTimer s p
  timers : ∀ p ∈ s.queue, ∀ p' ∈ s.queue, p.adaType &&& adaTypeRetry ≠ 0 →
    p'.adaType &&& adaTypeRetry ≠ 0 → p.timer = p'.timer → p.imago = p'.imago
  sent : ∀ g q f, fileOf s.files (.sent g q) = some f → AsSent req h f.pdu
  received : ∀ a g q f, fileOf s.files (.received a g q) = some f →
    (req f.pdu.imago).source = a ∧ (req f.pdu.imago).destination = h ∧
      f.pdu.frames = (req f.pdu.imago).data
  guarded : ∀ k f, fileOf s.files k = some f → Guarded s f
  request : ∀ p ∈ s.lower, p.sitp = true →
    (req p.imago).source = h ∧ p.destinationServer = (req p.imago).destination ∧
      p.frames = headed p.genid p.adaType p.seqid (req p.imago).data
  accept : ∀ p ∈ s.lower, p.adaType = adaTypeAccept →
    (req p.imago).destination = h ∧ p.destinationServer = (req p.imago).source
  ack : ∀ p ∈ s.lower, p.adaType = adaTypeAck →
    (req p.imago).source = h ∧ p.destinationServer = (req p.imago).destination

variable {req : Nat → Request Host} {h : Host} {s s' : Server Host}

theorem Intact.leave (hs : Intact req h s) (n : Nat) : Intact req h (s.leave n) :=
  { hs with
    request := fun p hp => hs.request p (List.mem_of_mem_eraseIdx hp)
    accept := fun p hp => hs.accept p (List.mem_of_mem_eraseIdx hp)
    ack := fun p hp => hs.ack p (List.mem_of_mem_eraseIdx hp)
    guarded := fun k f hf => ⟨(hs.guarded k f hf).timer, (hs.guarded k f hf).entry⟩
    keeps := fun p hp hr => hs.keeps p hp hr }

theorem Intact.take (hs : Intact req h s) (n : Nat) :
    Intact req h { s with queue := s.queue.eraseIdx n } :=
  { hs with
    queue := fun p hp => hs.queue p (List.mem_of_mem_eraseIdx hp)
    keeps := fun p hp hr => hs.keeps p (List.mem_of_mem_eraseIdx hp) hr
    timers := fun p hp p' hp' =>
      hs.timers p (List.mem_of_mem_eraseIdx hp) p' (List.mem_of_mem_eraseIdx hp')
    guarded := fun k f hf => ⟨(hs.guarded k f hf).timer, (hs.guarded k f hf).entry⟩ }

theorem Intact.enqueueLower (hs : Intact req h s) {p : Pdu Host} (hp : p.state = .securityDown)
    (hrequest : p.sitp = true → (req p.imago).source = h ∧
      p.destinationServer = (req p.imago).destination ∧
      p.frames = headed p.genid p.adaType p.seqid (req p.imago).data)
    (haccept : p.adaType = adaTypeAccept →
      (req p.imago).destination = h ∧ p.destinationServer = (req p.imago).source)
    (hack : p.adaType = adaTypeAck → (req p.imago).source = h ∧
      p.destinationServer = (req p.imago).destination) :
    Intact req h (s.pduEnqueue p) := by
  rw [Server.pduEnqueue, hp]
  refine { hs with
    request := fun p' hp' => ?_
    accept := fun p' hp' => ?_
    ack := fun p' hp' => ?_
    keeps := fun p' hp' hr => hs.keeps p' hp' hr
    guarded := fun k f hf => ⟨(hs.guarded k f hf).timer, (hs.guarded k f hf).entry⟩ }
  · rcases List.mem_cons.mp hp' with rfl | hp'
    · exact hrequest
    · exact hs.request p' hp'
  · rcases List.mem_cons.mp hp' with rfl | hp'
    · exact haccept
    · exact hs.accept p' hp'
  · rcases List.mem_cons.mp hp' with rfl | hp'
    · exact hack
    · exact hs.ack p' hp'

theorem Intact.enqueueUpper (hs : Intact req h s) {p : Pdu Host} (hp : p.state = .marshalingUp) :
    Intact req h (s.pduEnqueue p) := by
  rw [Server.pduEnqueue, hp]
  exact { hs with
    keeps := fun p' hp' hr => hs.keeps p' hp' hr
    guarded := fun k f hf => ⟨(hs.guarded k f hf).timer, (hs.guarded k f hf).entry⟩ }

/-! ## Storing and destroying a backup -/

omit [DecidableEq Host] in
theorem findEntry_append {list : List (Nat × BackupKey Host)} {id : Nat} {key : BackupKey Host}
    (h : findEntry list id = some key) (e : Nat × BackupKey Host) :
    findEntry (list ++ [e]) id = some key := by
  obtain ⟨e', he', rfl⟩ := Option.map_eq_some_iff.mp h
  simp [findEntry, List.find?_append, he']

omit [DecidableEq Host] in
theorem findEntry_append_self {list : List (Nat × BackupKey Host)} {id : Nat}
    {key : BackupKey Host} (h : ∀ e ∈ list, e.1 < id) :
    findEntry (list ++ [(id, key)]) id = some key := by
  have hnone : list.find? (fun e => decide (e.1 = id)) = none := by
    rw [List.find?_eq_none]
    intro e he
    simpa using Nat.ne_of_lt (h e he)
  simp [findEntry, List.find?_append, hnone]

/-- A backup is stored, and the timer of its PDU is started. -/
def Server.store (s : Server Host) (key : BackupKey Host) (p : Pdu Host) : Server Host :=
  { s with
    backupId := s.backupId + 1
    backupList := s.backupList ++ [(s.backupId, key)]
    files := writeFile s.files ⟨key, s.backupId, p⟩
    timerTlb := Transport.timerSet s.timerTlb p.timer s.backupId }

theorem timerSet_slot {tlb : Nat → Timer} {t arg : Nat} (ht : t < maxTimer)
    (hfree : (tlb t).status ≠ .free) :
    timerSet tlb ((t : Int) + 1) arg = Function.update tlb t ⟨.active, arg⟩ := by
  have hmax : ((t : Int) + 1 - 1) = t := by omega
  rw [timerSet, hmax, if_neg (by omega), Int.toNat_natCast, if_neg hfree]

/-- **Storing a backup**, with a timer no other backup or retry uses. -/
theorem Intact.store (hs : Intact req h s) {key : BackupKey Host} {p : Pdu Host} {t : Nat}
    (hlist : ∀ e ∈ s.backupList, e.1 < s.backupId) (ht : t < maxTimer)
    (htimer : p.timer = (t : Int) + 1) (hfree : (s.timerTlb t).status ≠ .free)
    (hactive : (s.timerTlb t).status ≠ .active)
    (hqueue : ∀ p' ∈ s.queue, p'.adaType &&& adaTypeRetry ≠ 0 → p'.timer ≠ p.timer)
    (hsent : ∀ g q, key = .sent g q → AsSent req h p)
    (hreceived : ∀ a g q, key = .received a g q → (req p.imago).source = a ∧
      (req p.imago).destination = h ∧ p.frames = (req p.imago).data) :
    Intact req h (s.store key p) := by
  have hfile : ∀ k f, fileOf (s.store key p).files k = some f →
      k = key ∧ f = ⟨key, s.backupId, p⟩ ∨ k ≠ key ∧ fileOf s.files k = some f := by
    intro k f hf
    by_cases hk : k = key
    · subst hk
      exact Or.inl ⟨rfl, by simpa [Server.store, fileOf_writeFile_self _ ⟨k, s.backupId, p⟩,
        eq_comm] using hf⟩
    · exact Or.inr ⟨hk, by rwa [Server.store, fileOf_writeFile_of_ne _ _ hk] at hf⟩
  have htlb : (s.store key p).timerTlb = Function.update s.timerTlb t ⟨.active, s.backupId⟩ := by
    rw [Server.store, htimer]
    exact timerSet_slot ht hfree
  refine { hs with
    keeps := fun p' hp' hr => ?_
    sent := fun g q f hf => ?_
    received := fun a g q f hf => ?_
    guarded := fun k f hf => ?_ }
  · obtain ⟨t', ht', hpt', hslot⟩ := hs.keeps p' hp' hr
    have hne : t' ≠ t := fun h => hqueue p' hp' hr (by rw [hpt', htimer, h])
    exact ⟨t', ht', hpt', by rwa [htlb, Function.update_of_ne hne]⟩
  · rcases hfile _ f hf with ⟨hk, rfl⟩ | ⟨-, hf⟩
    · exact hsent g q hk.symm
    · exact hs.sent g q f hf
  · rcases hfile _ f hf with ⟨hk, rfl⟩ | ⟨-, hf⟩
    · exact hreceived a g q hk.symm
    · exact hs.received a g q f hf
  · rcases hfile k f hf with ⟨-, rfl⟩ | ⟨-, hf⟩
    · exact ⟨⟨t, ht, htimer, by rw [htlb, Function.update_self]⟩, findEntry_append_self hlist⟩
    · obtain ⟨⟨t', ht', hft', hslot⟩, hentry⟩ := hs.guarded k f hf
      have hne : t' ≠ t := fun h => hactive (by rw [← h, hslot])
      exact ⟨⟨t', ht', hft', by rw [htlb, Function.update_of_ne hne, hslot]⟩,
        findEntry_append hentry _⟩

/-- Destroying the backup `key` does not drop the entry of another one from the list. -/
def Server.CancelSafe (s : Server Host) (key : BackupKey Host) : Prop :=
  ∀ f, fileOf s.files key = some f → ∀ k f', fileOf s.files k = some f' → k ≠ key →
    findEntry (removeEntry f.id s.backupList) f'.id = findEntry s.backupList f'.id

/-- The slots of two backups are different. -/
theorem Intact.slots (hs : Intact req h s) {k k' : BackupKey Host} {f f' : BackupFile Host}
    {t t' : Nat} (hf : fileOf s.files k = some f) (hf' : fileOf s.files k' = some f')
    (ht : s.timerTlb t = ⟨.active, f.id⟩) (ht' : s.timerTlb t' = ⟨.active, f'.id⟩) (hk : k ≠ k') :
    t ≠ t' := fun htt => by
  subst htt
  rw [ht, Timer.mk.injEq] at ht'
  have hentry := (hs.guarded k f hf).entry
  rw [ht'.2, (hs.guarded k' f' hf').entry, Option.some.injEq, fileOf_key hf, fileOf_key hf']
    at hentry
  exact hk hentry.symm

/-- **Destroying a backup** and giving up its timer. -/
theorem Intact.cancel (hs : Intact req h s) {key : BackupKey Host} {f : BackupFile Host}
    (hf : fileOf s.files key = some f) (hsafe : s.CancelSafe key) {t : Nat}
    (hslot : s.timerTlb t = ⟨.active, f.id⟩) (x : Timer) :
    Intact req h { s with timerTlb := Function.update s.timerTlb t x,
                          backupList := removeEntry f.id s.backupList,
                          files := unlink s.files key } := by
  have hfile : ∀ k f', fileOf (unlink s.files key) k = some f' →
      k ≠ key ∧ fileOf s.files k = some f' := fun k f' hf' => by
    by_cases hk : k = key
    · subst hk
      rw [fileOf_unlink_self] at hf'
      cases hf'
    · exact ⟨hk, by rwa [fileOf_unlink_of_ne _ hk] at hf'⟩
  refine { hs with
    keeps := fun p' hp' hr => ?_
    sent := fun g q f' hf' => hs.sent g q f' (hfile _ _ hf').2
    received := fun a g q f' hf' => hs.received a g q f' (hfile _ _ hf').2
    guarded := fun k f' hf' => ?_ }
  · obtain ⟨t', ht', hpt', hslot'⟩ := hs.keeps p' hp' hr
    have hne : t' ≠ t := fun h => hslot'.2 (by rw [h, hslot])
    exact ⟨t', ht', hpt', by simpa only [Function.update_of_ne hne] using hslot'⟩
  · obtain ⟨hk, hold⟩ := hfile k f' hf'
    obtain ⟨⟨t', ht', hft', hslot'⟩, hentry⟩ := hs.guarded k f' hold
    have hne := hs.slots hold hf hslot' hslot hk
    exact ⟨⟨t', ht', hft', by simp only [Function.update_of_ne hne, hslot']⟩,
      (hsafe f hf k f' hold hk).trans hentry⟩

/-! ## The handlers keep things intact -/

variable {own : Owner Host} {phase : Nat → Phase Host}

theorem timerNew_slot {tlb : Nat → Timer} (h : (timerNew tlb).2 ≠ -1) :
    ∃ t < maxTimer, (tlb t).status = .free ∧
      timerNew tlb = (Function.update tlb t { tlb t with status := .stopped }, (t : Int) + 1) := by
  cases hfind : (List.range maxTimer).find? fun id => decide ((tlb id).status = .free) with
  | none => simp [timerNew, hfind] at h
  | some t =>
      have hmem := List.mem_range.mp (List.mem_of_find?_eq_some hfind)
      have hfree : (tlb t).status = .free := by simpa using List.find?_some hfind
      exact ⟨t, hmem, hfree, by simp [timerNew, hfind]⟩

/-- A new timer is nobody's. -/
theorem Intact.timerNew (hs : Intact req h s) {t : Nat} (hfree : (s.timerTlb t).status = .free) :
    Intact req h { s with timerTlb := Function.update s.timerTlb t
                            { s.timerTlb t with status := .stopped } } ∧
      ∀ p ∈ s.queue, p.adaType &&& adaTypeRetry ≠ 0 → p.timer ≠ (t : Int) + 1 := by
  refine ⟨{ hs with
    keeps := fun p hp hr => ?_
    guarded := fun k f hf => ?_ }, fun p hp hr => ?_⟩
  · obtain ⟨t', ht', hpt', hslot⟩ := hs.keeps p hp hr
    have hne : t' ≠ t := fun h => hslot.1 (by rw [h, hfree])
    exact ⟨t', ht', hpt', by simpa only [Function.update_of_ne hne] using hslot⟩
  · obtain ⟨⟨t', ht', hft', hslot⟩, hentry⟩ := hs.guarded k f hf
    have hne : t' ≠ t := fun h => by
      rw [← h, hslot] at hfree
      cases hfree
    exact ⟨⟨t', ht', hft', by simp only [Function.update_of_ne hne, hslot]⟩, hentry⟩
  · obtain ⟨t', ht', hpt', hslot⟩ := hs.keeps p hp hr
    intro heq
    have hne : t' = t := by omega
    exact hslot.1 (by rw [hne, hfree])

theorem sendRequest_eq {r : Resources} (hsaved : r.saved = true) (hroom : 3 ≤ r.room)
    (s : Server Host) (p : Pdu Host) :
    sendRequest r s p = (s.store (.sent p.genid p.seqid) p).pduEnqueue
      { p with frames := headed p.genid p.adaType p.seqid p.frames, state := .securityDown } := by
  simp only [sendRequest, Server.backupSave, hsaved, if_true, writeHeader_room hroom]
  rfl

/-- What `down` does when its resources are there: the PDU with its ids is stored and sent. -/
theorem down_eq {r : Resources} (hsaved : r.saved = true) (hroom : 3 ≤ r.room)
    (s : Server Host) (p : Pdu Host) :
    imagoLayerADArendezvousDown r s p =
      let s' := (initializeAda r s p).1
      let p' := { (initializeAda r s p).2 with retry := (initializeAda r s p).2.retry + 1 }
      (s'.store (.sent p'.genid p'.seqid) p').pduEnqueue
        { p' with frames := headed p'.genid p'.adaType p'.seqid p'.frames,
                  state := .securityDown } := by
  rw [imagoLayerADArendezvousDown]
  exact sendRequest_eq hsaved hroom _ _

/-- The control PDU is sent, or not. -/
def Server.maybeLower (s : Server Host) (b : Bool) (p : Pdu Host) : Server Host :=
  if b then s.pduEnqueue p else s

theorem storeRequest_eq {r : Resources} (hsaved : r.saved = true) (s : Server Host) (p : Pdu Host)
    [Inhabited Host] :
    storeRequest r s p =
      (Server.store { s with timerTlb := (timerNew s.timerTlb).1 }
        (.received p.sourceServer p.genid p.seqid)
        { p with timer := (timerNew s.timerTlb).2 }).maybeLower r.control
          (controlPdu adaTypeAccept p) := by
  simp only [storeRequest, Server.backupSave, hsaved, if_true, dispatchControlPdu,
    Server.maybeLower]
  split_ifs <;> rfl

theorem Intact.down (hs : Intact req h s) {r : Resources} (hsaved : r.saved = true)
    (hroom : 3 ≤ r.room) {p : Pdu Host} (hlist : ∀ e ∈ s.backupList, e.1 < s.backupId)
    (hp : AsSent req h p) (htype : p.adaType &&& adaTypeRetry ≠ 0 → IsRequest p.adaType)
    (hnew : p.adaType &&& adaTypeRetry = 0 → (Transport.timerNew s.timerTlb).2 ≠ -1)
    (hretry : p.adaType &&& adaTypeRetry ≠ 0 → KeepsTimer s p)
    (hother : p.adaType &&& adaTypeRetry ≠ 0 →
      ∀ p' ∈ s.queue, p'.adaType &&& adaTypeRetry ≠ 0 → p'.timer ≠ p.timer) :
    Intact req h (imagoLayerADArendezvousDown r s p) := by
  rw [down_eq hsaved hroom, initializeAda]
  split_ifs with hfirst
  · obtain ⟨t, ht, hfree, hnew⟩ := timerNew_slot (hnew hfirst)
    obtain ⟨hslot, hqueue⟩ := hs.timerNew hfree
    have hids : Intact req h
        { s with sequence := s.sequence + 1,
                 generation := if s.sequence + 1 = 0 then r.time else s.generation,
                 timerTlb := Function.update s.timerTlb t
                   { s.timerTlb t with status := .stopped } } :=
      { hslot with
        keeps := fun p hp hr => hslot.keeps p hp hr
        guarded := fun k f hf => ⟨(hslot.guarded k f hf).timer, (hslot.guarded k f hf).entry⟩ }
    simp only [nextIds, hnew]
    refine (hids.store (t := t) hlist ht rfl (by simp) (by simp) hqueue (fun _ _ _ => ?_)
      (by simp)).enqueueLower rfl (fun _ => ?_) (fun ha => ?_) fun ha => ?_
    · exact ⟨hp.source, hp.destination, hp.data⟩
    · exact ⟨hp.source, hp.destination, by rw [hp.data]⟩
    · exact absurd ha (isRequest_ne_accept (Or.inl rfl))
    · exact absurd ha (isRequest_ne_ack (Or.inl rfl))
  · obtain ⟨t, ht, htimer, hfree, hactive⟩ := hretry hfirst
    have hstore : Intact req h
        (s.store (.sent p.genid p.seqid) { p with retry := p.retry + 1 }) :=
      hs.store hlist ht htimer hfree hactive (hother hfirst)
        (fun _ _ _ => ⟨hp.source, hp.destination, hp.data⟩) (by simp)
    refine hstore.enqueueLower rfl (fun _ => ?_) (fun ha => ?_) fun ha => ?_
    · exact ⟨hp.source, hp.destination, by rw [hp.data]⟩
    · exact absurd ha (isRequest_ne_accept (htype hfirst))
    · exact absurd ha (isRequest_ne_ack (htype hfirst))

theorem Intact.maybeLower (hs : Intact req h s) {p : Pdu Host} (b : Bool)
    (hp : b = true → Intact req h (s.pduEnqueue p)) : Intact req h (s.maybeLower b p) := by
  rw [Server.maybeLower]
  split_ifs with hb
  · exact hp hb
  · exact hs

variable [Inhabited Host]

/-- **A REQUEST is stored** with the bytes it was sent with. -/
theorem Intact.storeRequest (hs : Intact req h s) {r : Resources} (hsaved : r.saved = true)
    {p : Pdu Host} (hlist : ∀ e ∈ s.backupList, e.1 < s.backupId)
    (hnew : (Transport.timerNew s.timerTlb).2 ≠ -1)
    (hsource : (req p.imago).source = p.sourceServer)
    (hdestination : (req p.imago).destination = h) (hdata : p.frames = (req p.imago).data) :
    Intact req h (storeRequest r s p) := by
  obtain ⟨t, ht, hfree, hnew⟩ := timerNew_slot hnew
  obtain ⟨hslot, hqueue⟩ := hs.timerNew hfree
  rw [storeRequest_eq hsaved, hnew]
  have hstore : Intact req h (Server.store
      { s with timerTlb := Function.update s.timerTlb t { s.timerTlb t with status := .stopped } }
      (.received p.sourceServer p.genid p.seqid) { p with timer := (t : Int) + 1 }) :=
    hslot.store hlist ht rfl (by simp) (by simp) hqueue (by simp) fun a g q hk => by
      obtain ⟨rfl, -, -⟩ := (BackupKey.received.injEq ..).mp hk
      exact ⟨hsource, hdestination, hdata⟩
  refine hstore.maybeLower _ fun _ => hstore.enqueueLower rfl ?_ (fun _ => ?_) fun ha => ?_
  · intro hsitp
    cases hsitp
  · exact ⟨hdestination, hsource.symm⟩
  · exact absurd ha (show ¬ adaTypeAccept = adaTypeAck by decide)

omit [Inhabited Host] in
/-- Freeing the timer of a backup and destroying it. -/
theorem timerFree_backupCancel {key : BackupKey Host} {f : BackupFile Host}
    (hf : fileOf s.files key = some f) {t : Nat} (ht : t < maxTimer)
    (htimer : f.pdu.timer = (t : Int) + 1) :
    (s.timerFree f.pdu.timer).backupCancel key =
      { s with timerTlb := Function.update s.timerTlb t Timer.clear,
               backupList := removeEntry f.id s.backupList,
               files := unlink s.files key } := by
  have hmax : ((t : Int) + 1 - 1) = t := by omega
  simp only [Server.backupCancel, Server.timerFree, Transport.timerFree, hf, htimer, hmax,
    Int.toNat_natCast]
  rw [if_neg (by omega)]

omit [Inhabited Host] in
theorem Intact.forget (hs : Intact req h s) {key : BackupKey Host} {f : BackupFile Host}
    (hf : fileOf s.files key = some f) (hsafe : s.CancelSafe key) :
    Intact req h ((s.timerFree f.pdu.timer).backupCancel key) := by
  obtain ⟨⟨t, ht, htimer, hslot⟩, -⟩ := hs.guarded key f hf
  rw [timerFree_backupCancel hf ht htimer]
  exact hs.cancel hf hsafe hslot _

/-- An answer NACK keeps things intact. -/
theorem Intact.dispatchNack (hs : Intact req h s) (r : Resources) (p : Pdu Host) :
    Intact req h (dispatchControlPdu r s adaTypeNack p) := by
  rw [dispatchControlPdu]
  split_ifs
  · refine hs.enqueueLower rfl ?_ (fun ha => ?_) fun ha => ?_
    · intro hsitp
      cases hsitp
    · exact absurd ha (show ¬ adaTypeNack = adaTypeAccept by decide)
    · exact absurd ha (show ¬ adaTypeNack = adaTypeAck by decide)
  · exact hs

/-- **The sender acknowledges.** -/
theorem Intact.acknowledge (hs : Intact req h s) {r : Resources} {p : Pdu Host}
    {f : BackupFile Host} (hf : fileOf s.files (.sent p.genid p.seqid) = some f)
    (hsafe : s.CancelSafe (.sent p.genid p.seqid)) (hsource : (req p.imago).source = h)
    (hdestination : p.sourceServer = (req p.imago).destination) :
    Intact req h (acknowledge r s p f.pdu) := by
  have hforget := hs.forget hf hsafe
  rw [acknowledge_eq]
  have hrecorded : Intact req h
      { (s.timerFree f.pdu.timer).backupCancel (.sent p.genid p.seqid) with
        acknowledged := p.imago ::
          ((s.timerFree f.pdu.timer).backupCancel (.sent p.genid p.seqid)).acknowledged } :=
    { hforget with
      keeps := fun p' hp' hr => hforget.keeps p' hp' hr
      guarded := fun k f' hf' =>
        ⟨(hforget.guarded k f' hf').timer, (hforget.guarded k f' hf').entry⟩ }
  show Intact req h (if r.control = true then _ else _)
  split_ifs
  · refine hrecorded.enqueueLower rfl ?_ (fun ha => ?_) fun _ => ?_
    · intro hsitp
      cases hsitp
    · exact absurd ha (show ¬ adaTypeAck = adaTypeAccept by decide)
    · exact ⟨hsource, hdestination⟩
  · exact hrecorded

omit [Inhabited Host] in
theorem Intact.controlAck (hs : Intact req h s) {p : Pdu Host}
    (hsafe : s.CancelSafe (.received p.sourceServer p.genid p.seqid)) :
    Intact req h (controlAck s p) := by
  rw [Transport.controlAck, Server.backupLoad]
  cases hf : fileOf s.files (.received p.sourceServer p.genid p.seqid) with
  | none => exact hs
  | some f => exact (hs.forget hf hsafe).enqueueUpper rfl

omit [Inhabited Host] in
theorem Intact.controlNack (hs : Intact req h s) {p : Pdu Host}
    (hsafe : s.CancelSafe (.received p.sourceServer p.genid p.seqid)) :
    Intact req h (controlNack s p) := by
  rw [Transport.controlNack, Server.backupLoad]
  cases hf : fileOf s.files (.received p.sourceServer p.genid p.seqid) with
  | none =>
      rw [Option.map_none]
      dsimp only
      rw [Server.backupCancel, hf]
      exact hs
  | some f => exact hs.forget hf hsafe

/-- What the timer of a request does to the server: the backup goes, and its PDU is queued or
returned. -/
theorem sigalrm_sent {r : Resources} {t : Nat} {f : BackupFile Host} (ht : t < maxTimer)
    (hactive : (s.timerTlb t).status = .active)
    (hentry : findEntry s.backupList (s.timerTlb t).arg = some f.key)
    (hf : fileOf s.files f.key = some f) (htype : IsRequest f.pdu.adaType) :
    ∃ x : Timer, x.status ≠ .active ∧ ∃ p : Pdu Host, p.imago = f.pdu.imago ∧
      (p.state = .marshalingUp ∧ p.error = true ∨
        x.status = .fired ∧ p = { f.pdu with adaType := f.pdu.adaType ||| adaTypeRetry }) ∧
      sigalrmHandler r s t =
        Server.pduEnqueue { s with timerTlb := Function.update s.timerTlb t x,
                                   backupList := removeEntry f.id s.backupList,
                                   files := unlink s.files f.key } p := by
  have hload : (s.fire t).backupIdload (s.timerTlb t).arg = some f.pdu := by
    simp [Server.fire, Server.backupIdload, Server.backupLoad, hentry, hf]
  have hmax : ((t : Int) + 1 - 1) = t := by omega
  rw [sigalrmHandler, if_pos ⟨ht, hactive⟩, timeoutCallback, hload]
  simp only [isRequest_request htype, ne_eq, not_false_eq_true, if_true]
  split_ifs
  · refine ⟨Timer.clear, by simp [Timer.clear], { f.pdu with
      error := true, errno := .nada, eLayer := .adaDown, state := .marshalingUp }, rfl,
      Or.inl ⟨rfl, rfl⟩, ?_⟩
    rw [backupIdcancel_eq (s := (s.fire t).timerFree _) hentry]
    simp only [Server.backupCancel, Server.timerFree, Server.fire, Transport.timerFree, hf, hmax,
      Int.toNat_natCast, Function.update_idem]
    rw [if_neg (by omega)]
  · refine ⟨⟨.fired, (s.timerTlb t).arg⟩, by simp,
      { f.pdu with adaType := f.pdu.adaType ||| adaTypeRetry }, rfl, Or.inr ⟨rfl, rfl⟩, ?_⟩
    rw [backupIdcancel_eq (s := s.fire t) hentry]
    simp only [Server.backupCancel, Server.fire, hf]

/-- **A timer of a request fires.** -/
theorem Intact.sigalrm_sent (hs : Intact req h s) (hlocal : Local own phase h s) {r : Resources}
    {t : Nat} {f : BackupFile Host} {g : UInt16} {q : UInt32} (hkey : f.key = .sent g q)
    (ht : t < maxTimer) (hactive : (s.timerTlb t).status = .active)
    (hentry : findEntry s.backupList (s.timerTlb t).arg = some f.key)
    (hf : fileOf s.files f.key = some f) (hsafe : s.CancelSafe f.key) :
    Intact req h (sigalrmHandler r s t) := by
  have hf' : fileOf s.files (.sent g q) = some f := by rwa [← hkey]
  obtain ⟨-, -, hp⟩ := hlocal.sent g q f hf'
  obtain ⟨f', hfile, hid, htimer⟩ := hlocal.timer t g q hactive
    (findEntry_mem (by rw [hentry, hkey]))
  obtain rfl : f = f' := by
    rw [hf', Option.some.injEq] at hfile
    exact hfile
  have hslot : s.timerTlb t = ⟨.active, f.id⟩ := by rw [hid, ← hactive]
  obtain ⟨x, hx, p, himago, hp', heq⟩ := Transport.sigalrm_sent (r := r) ht hactive hentry hf
    hp.type
  have hcancel := hs.cancel hf hsafe hslot x
  rw [heq]
  rcases hp' with ⟨hstate, -⟩ | ⟨hfired, rfl⟩
  · exact hcancel.enqueueUpper hstate
  · rw [Server.pduEnqueue]
    simp only [hp.state]
    have hsent := hs.sent g q f hf'
    have hkeeps : KeepsTimer { s with timerTlb := Function.update s.timerTlb t x }
        { f.pdu with adaType := f.pdu.adaType ||| adaTypeRetry } :=
      ⟨t, ht, htimer, by simp [hfired], by simp [hfired]⟩
    refine { hcancel with
      queue := fun p hp => ?_
      keeps := fun p hp hr => ?_
      timers := fun p hp p' hp' hr hr' heq => ?_
      guarded := fun k f' hf' =>
        ⟨(hcancel.guarded k f' hf').timer, (hcancel.guarded k f' hf').entry⟩ }
    · rcases List.mem_cons.mp hp with rfl | hp
      · exact ⟨rfl, hsent.source, hsent.destination, hsent.data⟩
      · exact hcancel.queue p hp
    · rcases List.mem_cons.mp hp with rfl | hp
      · exact hkeeps
      · exact hcancel.keeps p hp hr
    · -- the slot of a queued retry was not active, this one was
      have hne : ∀ p ∈ s.queue, p.adaType &&& adaTypeRetry ≠ 0 → p.timer ≠ f.pdu.timer :=
        fun p hp hr heq => by
          obtain ⟨t', -, hpt', hslot'⟩ := hs.keeps p hp hr
          have htt : t' = t := by omega
          exact hslot'.2 (by rw [htt, hactive])
      rcases List.mem_cons.mp hp with rfl | hp <;> rcases List.mem_cons.mp hp' with rfl | hp'
      · rfl
      · exact absurd heq.symm (hne p' hp' hr')
      · exact absurd heq (hne p hp hr)
      · exact hcancel.timers p hp p' hp' hr hr' heq

end Mlvm.Transport
