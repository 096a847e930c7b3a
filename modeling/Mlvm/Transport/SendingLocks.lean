import Mlvm.Transport.Sending

/-!
# Who has locked a connection

**Locks** (`Locks`). A connection that is locked is held by one signal handler or by the one PDU
that is being sent on it, and the slots in use have connections of their own. A PDU locks a
connection that it finds or makes, and keeps it (`Locks.begin`, `Locks.begin_new`) until it has been
sent (`Locks.done`); a signal handler locks it (`Locks.take`) and lets it go (`Locks.drop`).

**`Reaches.lockInv`.** This holds of all runs. The lemmas `downTransport_cases`, `downControl_cases`
and `asyncSend_cases` say what the steps of a PDU can do.
-/

namespace Mlvm.Sending

open Connections (Table SockAddr lookupCon conNew conTrylock conUnlock conFree)
open Transport (Frame contents frameSize wrapInt ConnectionHeader)
open Frames (frameErase)

/-! ## Locks -/

/-- Who has locked the slots: signal handlers and senders. The slots that are in use have
connections of their own. -/
structure Locks (st : ℕ → Connections.Status) (held : ℕ → Bool) (conn : ℕ → ℕ) (fresh : ℕ)
    (sends : ℕ → ℕ → Prop) : Prop where
  locked : ∀ c, st c = .locked → held c = true ∨ ∃ p, sends p c
  held : ∀ c, held c = true → st c = .locked ∧ ∀ p, ¬ sends p c
  sends : ∀ p c, sends p c → st c = .locked ∧ ∀ q, sends q c → q = p
  conn_lt : ∀ c, st c ≠ .free → conn c < fresh
  conn_inj : ∀ c d, st c ≠ .free → st d ≠ .free → conn c = conn d → c = d

section Locks

variable {st : ℕ → Connections.Status} {held : ℕ → Bool} {conn : ℕ → ℕ} {fresh c p : ℕ}
  {sends sends' : ℕ → ℕ → Prop}

theorem Locks.congr (h : Locks st held conn fresh sends)
    (hsends : ∀ p c, sends' p c ↔ sends p c) : Locks st held conn fresh sends' := by
  have heq : sends' = sends := by
    funext p c
    exact propext (hsends p c)
  rw [heq]
  exact h

/-- A slot that nobody has locked. -/
theorem Locks.idle (h : Locks st held conn fresh sends) (hc : st c ≠ .locked) :
    held c = false ∧ ∀ p, ¬ sends p c := by
  refine ⟨?_, fun p hp => hc (h.sends p c hp).1⟩
  by_contra hheld
  exact hc (h.held c (by simpa using hheld)).1

/-- A signal handler, or a step that looks a connection up, locks it. -/
theorem Locks.take (h : Locks st held conn fresh sends) (hc : st c = .active) :
    Locks (Function.update st c .locked) (Function.update held c true) conn fresh sends := by
  have hidle := h.idle (c := c) (by simp [hc])
  have hne {d : ℕ} (hd : Function.update st c .locked d ≠ .free) : st d ≠ .free := by
    by_cases hdc : d = c
    · subst hdc
      simp [hc]
    · rwa [Function.update_of_ne hdc] at hd
  constructor
  · intro d hd
    by_cases hdc : d = c
    · subst hdc
      exact Or.inl (Function.update_self _ _ _)
    · rw [Function.update_of_ne hdc] at hd ⊢
      exact h.locked d hd
  · intro d hd
    by_cases hdc : d = c
    · subst hdc
      exact ⟨Function.update_self _ _ _, hidle.2⟩
    · rw [Function.update_of_ne hdc] at hd ⊢
      exact h.held d hd
  · intro q d hq
    have hdc : d ≠ c := fun heq => hidle.2 q (heq ▸ hq)
    rw [Function.update_of_ne hdc]
    exact h.sends q d hq
  · exact fun d hd => h.conn_lt d (hne hd)
  · exact fun d e hd he => h.conn_inj d e (hne hd) (hne he)

/-- A new connection. -/
theorem Locks.create (h : Locks st held conn fresh sends) (hc : st c = .free) :
    Locks (Function.update st c .locked) (Function.update held c true)
      (Function.update conn c fresh) (fresh + 1) sends := by
  have hidle := h.idle (c := c) (by simp [hc])
  constructor
  · intro d hd
    by_cases hdc : d = c
    · subst hdc
      exact Or.inl (Function.update_self _ _ _)
    · rw [Function.update_of_ne hdc] at hd ⊢
      exact h.locked d hd
  · intro d hd
    by_cases hdc : d = c
    · subst hdc
      exact ⟨Function.update_self _ _ _, hidle.2⟩
    · rw [Function.update_of_ne hdc] at hd ⊢
      exact h.held d hd
  · intro q d hq
    have hdc : d ≠ c := fun heq => hidle.2 q (heq ▸ hq)
    rw [Function.update_of_ne hdc]
    exact h.sends q d hq
  · intro d hd
    by_cases hdc : d = c
    · subst hdc
      simp
    · rw [Function.update_of_ne hdc] at hd ⊢
      exact Nat.lt_succ_of_lt (h.conn_lt d hd)
  · intro d e hd he heq
    by_cases hdc : d = c <;> by_cases hec : e = c
    · rw [hdc, hec]
    · rw [hdc, Function.update_self, Function.update_of_ne hec] at heq
      rw [Function.update_of_ne hec] at he
      exact absurd heq.symm (Nat.ne_of_lt (h.conn_lt e he))
    · rw [hec, Function.update_self, Function.update_of_ne hdc] at heq
      rw [Function.update_of_ne hdc] at hd
      exact absurd heq (Nat.ne_of_lt (h.conn_lt d hd))
    · rw [Function.update_of_ne hdc] at hd heq
      rw [Function.update_of_ne hec] at he heq
      exact h.conn_inj d e hd he heq

/-- A signal handler unlocks or closes a connection. -/
theorem Locks.drop (h : Locks st held conn fresh sends) {x : Connections.Status} (hx : x ≠ .locked)
    (hc : held c = true) :
    Locks (Function.update st c x) (Function.update held c false) conn fresh sends := by
  obtain ⟨hlocked, hnone⟩ := h.held c hc
  have hne {d : ℕ} (hd : Function.update st c x d ≠ .free) : st d ≠ .free := by
    by_cases hdc : d = c
    · subst hdc
      simp [hlocked]
    · rwa [Function.update_of_ne hdc] at hd
  constructor
  · intro d hd
    have hdc : d ≠ c := by
      rintro rfl
      rw [Function.update_self] at hd
      exact hx hd
    rw [Function.update_of_ne hdc] at hd ⊢
    exact h.locked d hd
  · intro d hd
    have hdc : d ≠ c := by
      rintro rfl
      simp at hd
    rw [Function.update_of_ne hdc] at hd ⊢
    exact h.held d hd
  · intro q d hq
    have hdc : d ≠ c := fun heq => hnone q (heq ▸ hq)
    rw [Function.update_of_ne hdc]
    exact h.sends q d hq
  · exact fun d hd => h.conn_lt d (hne hd)
  · exact fun d e hd he => h.conn_inj d e (hne hd) (hne he)

/-- A PDU keeps the connection it has locked. -/
theorem Locks.give (h : Locks st held conn fresh sends) (hc : held c = true)
    (hp : ∀ d, ¬ sends p d) : Locks st (Function.update held c false) conn fresh
      fun q d => sends q d ∨ q = p ∧ d = c := by
  obtain ⟨hlocked, hnone⟩ := h.held c hc
  constructor
  · intro d hd
    by_cases hdc : d = c
    · exact Or.inr ⟨p, Or.inr ⟨rfl, hdc⟩⟩
    · rw [Function.update_of_ne hdc]
      exact (h.locked d hd).imp_right fun ⟨q, hq⟩ => ⟨q, Or.inl hq⟩
  · intro d hd
    have hdc : d ≠ c := by
      rintro rfl
      simp at hd
    rw [Function.update_of_ne hdc] at hd
    obtain ⟨hst, hq⟩ := h.held d hd
    exact ⟨hst, fun q hs => hs.elim (hq q) fun hs => hdc hs.2⟩
  · rintro q d (hq | ⟨rfl, rfl⟩)
    · have hdc : d ≠ c := fun heq => hnone q (heq ▸ hq)
      obtain ⟨hst, hone⟩ := h.sends q d hq
      exact ⟨hst, fun q' hs => hs.elim (hone q') fun hs => absurd hs.2 hdc⟩
    · exact ⟨hlocked, fun q' hs => hs.elim (fun hs => absurd hs (hnone q')) And.left⟩
  · exact h.conn_lt
  · exact h.conn_inj

/-- A PDU has been sent. -/
theorem Locks.done (h : Locks st held conn fresh sends) (hp : sends p c)
    (hone : ∀ d, sends p d → d = c) :
    Locks (Function.update st c .active) held conn fresh fun q d => sends q d ∧ q ≠ p := by
  obtain ⟨hlocked, honly⟩ := h.sends p c hp
  have hne {d : ℕ} (hd : Function.update st c .active d ≠ .free) : st d ≠ .free := by
    by_cases hdc : d = c
    · subst hdc
      simp [hlocked]
    · rwa [Function.update_of_ne hdc] at hd
  constructor
  · intro d hd
    have hdc : d ≠ c := by
      rintro rfl
      simp at hd
    rw [Function.update_of_ne hdc] at hd
    refine (h.locked d hd).imp_right ?_
    rintro ⟨q, hq⟩
    exact ⟨q, hq, fun heq => hdc (hone d (heq ▸ hq))⟩
  · intro d hd
    obtain ⟨hst, hnone⟩ := h.held d hd
    have hdc : d ≠ c := fun heq => hnone p (heq ▸ hp)
    rw [Function.update_of_ne hdc]
    exact ⟨hst, fun q hq => hnone q hq.1⟩
  · rintro q d ⟨hq, hqp⟩
    have hdc : d ≠ c := fun heq => hqp (honly q (heq ▸ hq))
    rw [Function.update_of_ne hdc]
    obtain ⟨hst, hone'⟩ := h.sends q d hq
    exact ⟨hst, fun q' hs => hone' q' hs.1⟩
  · exact fun d hd => h.conn_lt d (hne hd)
  · exact fun d e hd he => h.conn_inj d e (hne hd) (hne he)

theorem Locks.held_eq (h : Locks st held conn fresh sends) (hc : st c ≠ .locked) :
    Function.update (Function.update held c true) c false = held := by
  rw [Function.update_idem, ← (h.idle hc).1, Function.update_eq_self]

/-- A PDU locks a connection that it has found. -/
theorem Locks.begin (h : Locks st held conn fresh sends) (hc : st c = .active)
    (hp : ∀ d, ¬ sends p d) : Locks (Function.update st c .locked) held conn fresh
      fun q d => sends q d ∨ q = p ∧ d = c := by
  have hgive := (h.take hc).give (Function.update_self _ _ _) hp
  rwa [h.held_eq (by simp [hc])] at hgive

/-- A PDU locks a connection that it has made. -/
theorem Locks.begin_new (h : Locks st held conn fresh sends) (hc : st c = .free)
    (hp : ∀ d, ¬ sends p d) :
    Locks (Function.update st c .locked) held (Function.update conn c fresh) (fresh + 1)
      fun q d => sends q d ∨ q = p ∧ d = c := by
  have hgive := (h.create hc).give (Function.update_self _ _ _) hp
  rwa [h.held_eq (by simp [hc])] at hgive

/-- A connection has been made, and nobody has locked it. -/
theorem Locks.new (h : Locks st held conn fresh sends) (hc : st c = .free) :
    Locks (Function.update st c .active) held (Function.update conn c fresh) (fresh + 1)
      sends := by
  have hdrop := (h.create hc).drop (x := .active) (by decide) (Function.update_self _ _ _)
  rwa [h.held_eq (by simp [hc]), Function.update_idem] at hdrop

end Locks

/-! ## The connection table -/

theorem mark_status_eq (t : Table) (c : ℕ) (x : Connections.Status) :
    (fun d => (t.mark c x d).status) = Function.update (fun d => (t d).status) c x := by
  funext d
  rw [Connections.mark_status, Function.update_apply]

theorem lookupCon_cases (t : Table) (max : ℕ) (addr : SockAddr) :
    lookupCon t max addr = (none, t) ∨
    ∃ c, (t c).status = .active ∧ lookupCon t max addr = (some c, t.mark c .locked) := by
  rw [lookupCon]
  cases hhash : Connections.hash t max addr.s_addr .active with
  | none => exact Or.inl rfl
  | some c =>
    obtain ⟨-, -, hactive⟩ := Connections.hash_active.1 hhash
    exact Or.inr ⟨c, hactive, by simp [conTrylock, hactive]⟩

theorem conNew_cases (t : Table) (max : ℕ) (addr : SockAddr) :
    conNew t max addr = (none, t) ∨ ∃ c, (t c).status = .free ∧
      conNew t max addr = (some c, Function.update t c ⟨.locked, addr⟩) := by
  rw [conNew]
  cases hhash : Connections.hash t max addr.s_addr .free with
  | none => exact Or.inl rfl
  | some c =>
    refine Or.inr ⟨c, ?_, rfl⟩
    have hhere := (Connections.hash_free.1 hhash).2.here
    simp only [Connections.ends, decide_eq_true_eq] at hhere
    exact hhere.elim id And.left

theorem conUnlock_of_locked {t : Table} {c : ℕ} (h : (t c).status = .locked) :
    (conUnlock t c).2 = t.mark c .active := by
  rw [conUnlock, if_pos h]

theorem conFree_of_locked {t : Table} {c : ℕ} (h : (t c).status = .locked) :
    conFree t c = t.mark c .free := by
  simp [conFree, conTrylock, h]

variable {max : ℕ} {s s' : State} {op : Op} {p c : ℕ} {pdu : Pdu}

/-- PDU `p` is being sent on the connection with number `n`. -/
def SendsOn (s : State) (p n : ℕ) (pdu : Pdu) : Prop :=
  s.pdus p = some pdu ∧ pdu.place ≠ .down ∧ pdu.stream = some n

/-! ## Who sends what -/

structure LockInv (s : State) : Prop where
  locks : Locks (fun c => (s.table c).status) s.held s.conn s.fresh (Sends s)
  place : ∀ p pdu, s.pdus p = some pdu → pdu.place ≠ .down →
    ∃ c, pdu.cId = some c ∧ pdu.stream = some (s.conn c)
  ids : ∀ p, s.next ≤ p → s.pdus p = none

theorem sends_update {o : Option Pdu} (hpdus : s'.pdus = Function.update s.pdus p o) (q d : ℕ) :
    Sends s' q d ↔ q ≠ p ∧ Sends s q d ∨
      q = p ∧ ∃ x, o = some x ∧ x.place ≠ .down ∧ x.cId = some d := by
  unfold Sends
  rw [hpdus]
  by_cases hq : q = p
  · subst hq
    simp
  · simp [hq]

/-- A PDU that is not being sent is changed and still not sent. -/
theorem sends_update_down {o : Option Pdu} (hpdus : s'.pdus = Function.update s.pdus p o)
    (hp : ∀ d, ¬ Sends s p d) (ho : ∀ x, o = some x → x.place = .down) (q d : ℕ) :
    Sends s' q d ↔ Sends s q d := by
  rw [sends_update hpdus]
  constructor
  · rintro (⟨-, hq⟩ | ⟨-, x, hx, hplace, -⟩)
    · exact hq
    · exact absurd (ho x hx) hplace
  · intro hq
    exact Or.inl ⟨fun heq => hp d (heq ▸ hq), hq⟩

theorem not_sends_of_down (hp : s.pdus p = some pdu) (hdown : pdu.place = .down) (d : ℕ) :
    ¬ Sends s p d := by
  rintro ⟨x, hx, hplace, -⟩
  rw [hp] at hx
  cases hx
  exact hplace hdown

/-- Who is sent on a connection has its slot. -/
theorem LockInv.slot (h : LockInv s) {q : ℕ} {x : Pdu} (hc : (s.table c).status ≠ .free)
    (hs : SendsOn s q (s.conn c) x) : Sends s q c := by
  obtain ⟨d, hd, hstream⟩ := h.place q x hs.1 hs.2.1
  have hsends : Sends s q d := ⟨x, hs.1, hs.2.1, hd⟩
  have hconn : s.conn d = s.conn c := Option.some.inj (hstream.symm.trans hs.2.2)
  have hused : (s.table d).status ≠ .free := by
    have hlocked := (h.locks.sends q d hsends).1
    simp [hlocked]
  rw [← h.locks.conn_inj d c hused hc hconn]
  exact hsends

/-- Nobody is sent on a connection that nobody has locked. -/
theorem LockInv.not_sendsOn (h : LockInv s) (hc : (s.table c).status = .active) (q : ℕ) (x : Pdu) :
    ¬ SendsOn s q (s.conn c) x := by
  intro hs
  have hused : (s.table c).status ≠ .free := by simp [hc]
  exact (h.locks.idle (c := c) (by simp [hc])).2 q (h.slot hused hs)

/-- The connections of the senders are not the new one. -/
theorem LockInv.place_new (h : LockInv s) (hc : (s.table c).status = .free) {x : Pdu}
    (hp : s.pdus p = some x) (hplace : x.place ≠ .down) :
    ∃ d, x.cId = some d ∧ x.stream = some (Function.update s.conn c s.fresh d) := by
  obtain ⟨d, hd, hstream⟩ := h.place p x hp hplace
  refine ⟨d, hd, ?_⟩
  have hlocked := (h.locks.sends p d ⟨x, hp, hplace, hd⟩).1
  have hdc : d ≠ c := by
    rintro rfl
    rw [hc] at hlocked
    cases hlocked
  rw [Function.update_of_ne hdc]
  exact hstream

/-! ## Every step keeps the locks -/

/-- A PDU that is not being sent is changed or leaves, and nobody locks or unlocks anything. -/
theorem LockInv.quiet (h : LockInv s) {o : Option Pdu} (hp : ∀ d, ¬ Sends s p d)
    (ho : ∀ x, o = some x → x.place = .down) (hlt : p < s.next)
    (hstatus : ∀ c, (s'.table c).status = (s.table c).status) (hheld : s'.held = s.held)
    (hconn : s'.conn = s.conn) (hfresh : s'.fresh = s.fresh) (hnext : s'.next = s.next)
    (hpdus : s'.pdus = Function.update s.pdus p o) : LockInv s' where
  locks := by
    rw [hheld, hconn, hfresh, show (fun c => (s'.table c).status) = fun c => (s.table c).status
      from funext hstatus]
    exact h.locks.congr (sends_update_down hpdus hp ho)
  place := by
    intro q x hq hplace
    rw [hpdus] at hq
    by_cases hqp : q = p
    · rw [hqp, Function.update_self] at hq
      exact absurd (ho x hq) hplace
    · rw [Function.update_of_ne hqp] at hq
      rw [hconn]
      exact h.place q x hq hplace
  ids := by
    intro q hq
    rw [hnext] at hq
    rw [hpdus, Function.update_of_ne (by omega)]
    exact h.ids q hq

/-- Slot `c` has been locked by a PDU that has not been told yet. -/
structure Acquired (s : State) (c : ℕ) : Prop where
  locked : (s.table c).status = .locked
  begin : ∀ p, (∀ d, ¬ Sends s p d) → Locks (fun c => (s.table c).status) s.held s.conn s.fresh
    fun q d => Sends s q d ∨ q = p ∧ d = c
  drop : Locks (Function.update (fun c => (s.table c).status) c .active) s.held s.conn s.fresh
    (Sends s)
  place : ∀ p pdu, s.pdus p = some pdu → pdu.place ≠ .down →
    ∃ c, pdu.cId = some c ∧ pdu.stream = some (s.conn c)
  ids : ∀ p, s.next ≤ p → s.pdus p = none

theorem acquired_found (h : LockInv s) (hc : (s.table c).status = .active) :
    Acquired { s with table := s.table.mark c .locked } c where
  locked := by rw [Connections.mark_status, if_pos rfl]
  begin := by
    intro p hp
    rw [mark_status_eq]
    exact h.locks.begin hc hp
  drop := by
    have hself : Function.update (fun c => (s.table c).status) c .active =
        fun c => (s.table c).status := by rw [← hc, Function.update_eq_self]
    rw [mark_status_eq, Function.update_idem, hself]
    exact h.locks
  place := h.place
  ids := h.ids

theorem acquired_new (addr : SockAddr) (h : LockInv s) (hc : (s.table c).status = .free) :
    Acquired ({ s with table := Function.update s.table c ⟨.locked, addr⟩ }.open c) c := by
  have hst : (fun d => (Function.update s.table c ⟨.locked, addr⟩ d).status) =
      Function.update (fun d => (s.table d).status) c .locked := by
    funext d
    rw [Function.update_apply, Function.update_apply]
    split_ifs <;> rfl
  constructor
  · simp [State.open]
  · intro p hp
    unfold State.open
    dsimp only
    rw [hst]
    exact h.locks.begin_new hc hp
  · unfold State.open
    dsimp only
    rw [hst, Function.update_idem]
    exact h.locks.new hc
  · intro p pdu hp hplace
    exact h.place_new hc hp hplace
  · exact h.ids

/-- The header has been put, or the connection is unlocked again. -/
theorem Acquired.sendHeader (h : Acquired s c) (hp : ∀ d, ¬ Sends s p d)
    (hdown : pdu.place = .down) (hlt : p < s.next) (r : Option ℕ) :
    LockInv (s.sendHeader p pdu c r) := by
  cases r with
  | none =>
    have hpdus : (s.sendHeader p pdu c none).pdus = Function.update s.pdus p (some { pdu with
      cId := some c, cTotal := pduSize pdu.frames, stream := some (s.conn c) }) := rfl
    have htable : (s.sendHeader p pdu c none).table = (conUnlock s.table c).2 := rfl
    constructor
    · rw [htable, conUnlock_of_locked h.locked, mark_status_eq]
      refine h.drop.congr (sends_update_down hpdus hp ?_)
      intro x hx
      cases hx
      exact hdown
    · intro q x hq hplace
      rw [hpdus] at hq
      by_cases hqp : q = p
      · rw [hqp, Function.update_self] at hq
        cases hq
        exact absurd hdown hplace
      · rw [Function.update_of_ne hqp] at hq
        exact h.place q x hq hplace
    · intro q hq
      have hqp : q ≠ p := Nat.ne_of_gt (Nat.lt_of_lt_of_le hlt hq)
      rw [hpdus, Function.update_of_ne hqp]
      exact h.ids q hq
  | some k =>
    have hpdus : (s.sendHeader p pdu c (some k)).pdus = Function.update s.pdus p (some { pdu with
      cId := some c, cTotal := pduSize pdu.frames, stream := some (s.conn c), place := .async }) :=
      rfl
    constructor
    · refine (h.begin p hp).congr ?_
      intro q d
      rw [sends_update hpdus]
      constructor
      · rintro (⟨-, hq⟩ | ⟨rfl, x, hx, -, hd⟩)
        · exact Or.inl hq
        · cases hx
          cases hd
          exact Or.inr ⟨rfl, rfl⟩
      · rintro (hq | ⟨rfl, rfl⟩)
        · exact Or.inl ⟨fun heq => hp d (heq ▸ hq), hq⟩
        · exact Or.inr ⟨rfl, _, rfl, by simp, rfl⟩
    · intro q x hq hplace
      rw [hpdus] at hq
      by_cases hqp : q = p
      · rw [hqp, Function.update_self] at hq
        cases hq
        exact ⟨c, rfl, rfl⟩
      · rw [Function.update_of_ne hqp] at hq
        exact h.place q x hq hplace
    · intro q hq
      have hqp : q ≠ p := Nat.ne_of_gt (Nat.lt_of_lt_of_le hlt hq)
      rw [hpdus, Function.update_of_ne hqp]
      exact h.ids q hq

/-- What `imago_layer_connection_down_transport` does. -/
theorem downTransport_cases (s : State) (max p : ℕ) (pdu : Pdu) (connect : Bool)
    (r : Option ℕ) :
    (∃ t : Table, (∀ c, (t c).status = (s.table c).status) ∧
      (lookupCon s.table max pdu.remoteAddr).1 = none ∧
      s.downTransport max p pdu connect r = { s with table := t }.refuse p pdu) ∨
    (∃ c, (s.table c).status = .active ∧
      (lookupCon s.table max pdu.remoteAddr).1 = some c ∧
      s.downTransport max p pdu connect r =
        { s with table := s.table.mark c .locked }.sendHeader p pdu c r) ∨
    ∃ c, (s.table c).status = .free ∧
      (lookupCon s.table max pdu.remoteAddr).1 = none ∧
      s.downTransport max p pdu connect r =
        ({ s with table := Function.update s.table c ⟨.locked, pdu.remoteAddr⟩ }.open c).sendHeader
          p pdu c r := by
  unfold State.downTransport
  rcases lookupCon_cases s.table max pdu.remoteAddr with hlook | ⟨c, hc, hlook⟩
  · rw [hlook]
    dsimp only
    rcases conNew_cases s.table max pdu.remoteAddr with hnew | ⟨c, hc, hnew⟩
    · rw [hnew]
      exact Or.inl ⟨s.table, fun _ => rfl, rfl, rfl⟩
    · rw [hnew]
      dsimp only
      split_ifs with hconnect
      · exact Or.inr (Or.inr ⟨c, hc, rfl, rfl⟩)
      · refine Or.inl ⟨_, ?_, rfl, rfl⟩
        intro d
        rw [conFree_of_locked (by simp), Connections.mark_status, Function.update_apply]
        split_ifs with hd
        · rw [hd, hc]
        · rfl
  · rw [hlook]
    exact Or.inr (Or.inl ⟨c, hc, rfl, rfl⟩)

/-- What `imago_layer_connection_down_control` does. -/
theorem downControl_cases (s : State) (max p : ℕ) (pdu : Pdu) (r : Option ℕ) :
    (∃ t : Table, (∀ c, (t c).status = (s.table c).status) ∧
      s.downControl max p pdu r = { s with table := t }.setPdu p none) ∨
    ∃ c k, ∃ t : Table, (s.table c).status = .active ∧
      (∀ c, (t c).status = (s.table c).status) ∧ r = some k ∧
      s.downControl max p pdu r =
        { ({ s with table := t }.setPdu p none).put c ((record pdu.flags pdu.frames).take k) with
          log := if (record pdu.flags pdu.frames).length ≤ k then s.log ++ [(s.conn c, p)]
            else s.log } := by
  unfold State.downControl
  rcases lookupCon_cases s.table max pdu.remoteAddr with hlook | ⟨c, hc, hlook⟩
  · rw [hlook]
    exact Or.inl ⟨s.table, fun _ => rfl, rfl⟩
  · have hstatus (d : ℕ) :
        ((conUnlock (s.table.mark c .locked) c).2 d).status = (s.table d).status := by
      rw [conUnlock_of_locked (by rw [Connections.mark_status, if_pos rfl]),
        Connections.mark_status, Connections.mark_status]
      split_ifs with hd
      · rw [hd, hc]
      · rfl
    rw [hlook]
    cases r with
    | none => exact Or.inl ⟨_, hstatus, rfl⟩
    | some k => exact Or.inr ⟨c, k, _, hc, hstatus, rfl, rfl⟩

/-- What `connection_async_send` does. -/
theorem asyncSend_cases (s : State) (p : ℕ) (pdu : Pdu) (c : ℕ) (rs : List (Option ℕ)) :
    (0 < pdu.cTotal - wrapInt (frameSend pdu.frames rs).length ∧ ∃ place, place ≠ .down ∧
      (wrapInt (frameSend pdu.frames rs).length = 0 → place = .waiting) ∧
      s.asyncSend p pdu c rs = (s.put c (frameSend pdu.frames rs)).setPdu p (some { pdu with
        frames := (frameErase pdu.frames (wrapInt (frameSend pdu.frames rs).length).toNat).2
        cTotal := pdu.cTotal - wrapInt (frameSend pdu.frames rs).length
        place })) ∨
    pdu.cTotal - wrapInt (frameSend pdu.frames rs).length ≤ 0 ∧
      s.asyncSend p pdu c rs = { (s.put c (frameSend pdu.frames rs)).setPdu p none with
        table := (conUnlock s.table c).2
        log := s.log ++ [(s.conn c, p)] } := by
  unfold State.asyncSend
  by_cases hmore : 0 < pdu.cTotal - wrapInt (frameSend pdu.frames rs).length
  · refine Or.inl ⟨hmore, _, ?_, ?_, if_pos hmore⟩
    · split_ifs <;> decide
    · intro hcount
      rw [if_pos hcount]
  · exact Or.inr ⟨Int.not_lt.1 hmore, if_neg hmore⟩

theorem refuse_pdus (s : State) (p : ℕ) (pdu : Pdu) :
    ∃ l, s.refuse p pdu = { s.setPdu p none with returned := l } := by
  unfold State.refuse
  split_ifs
  · exact ⟨s.returned, rfl⟩
  · exact ⟨_, rfl⟩

theorem LockInv.down (h : LockInv s) (hp : s.pdus p = some pdu) (hdown : pdu.place = .down)
    (connect : Bool) (r : Option ℕ) : LockInv (s.down max p pdu connect r) := by
  have hnot := not_sends_of_down hp hdown
  have hlt : p < s.next := by
    by_contra hge
    rw [h.ids p (Nat.le_of_not_lt hge)] at hp
    cases hp
  have hnone : ∀ x, (none : Option Pdu) = some x → x.place = .down := by
    intro x hx
    cases hx
  unfold State.down
  split_ifs with hcontrol
  · rcases downControl_cases s max p pdu r with ⟨t, ht, heq⟩ | ⟨c, k, t, -, ht, -, heq⟩
    · rw [heq]
      exact h.quiet hnot hnone hlt ht rfl rfl rfl rfl rfl
    · rw [heq]
      exact h.quiet hnot hnone hlt ht rfl rfl rfl rfl rfl
  · rcases downTransport_cases s max p pdu connect r with ⟨t, ht, -, heq⟩ | ⟨c, hc, -, heq⟩ |
      ⟨c, hc, -, heq⟩
    · obtain ⟨l, hl⟩ := refuse_pdus { s with table := t } p pdu
      rw [heq, hl]
      exact h.quiet hnot hnone hlt ht rfl rfl rfl rfl rfl
    · rw [heq]
      exact (acquired_found h hc).sendHeader hnot hdown hlt r
    · rw [heq]
      exact (acquired_new _ h hc).sendHeader hnot hdown hlt r

theorem LockInv.asyncSend (h : LockInv s) (hp : s.pdus p = some pdu) (hplace : pdu.place ≠ .down)
    (hc : pdu.cId = some c) (rs : List (Option ℕ)) : LockInv (s.asyncSend p pdu c rs) := by
  have hsends : Sends s p c := ⟨pdu, hp, hplace, hc⟩
  have honly (d : ℕ) (hd : Sends s p d) : d = c := by
    obtain ⟨x, hx, -, hxd⟩ := hd
    rw [hp] at hx
    cases hx
    exact Option.some.inj (hxd.symm.trans hc)
  have hlt : p < s.next := by
    by_contra hge
    rw [h.ids p (Nat.le_of_not_lt hge)] at hp
    cases hp
  obtain ⟨c', hc', hstream⟩ := h.place p pdu hp hplace
  obtain rfl := Option.some.inj (hc'.symm.trans hc)
  rcases asyncSend_cases s p pdu c' rs with ⟨-, place, hdown, -, heq⟩ | ⟨-, heq⟩ <;> rw [heq]
  · constructor
    · refine h.locks.congr ?_
      intro q d
      rw [sends_update (s := s) rfl]
      constructor
      · rintro (⟨-, hq⟩ | ⟨rfl, x, hx, -, hd⟩)
        · exact hq
        · cases hx
          obtain rfl := Option.some.inj (hd.symm.trans hc)
          exact hsends
      · intro hq
        by_cases hqp : q = p
        · subst hqp
          obtain rfl := honly d hq
          exact Or.inr ⟨rfl, _, rfl, hdown, hc⟩
        · exact Or.inl ⟨hqp, hq⟩
    · intro q x hq hx
      change Function.update s.pdus p _ q = some x at hq
      by_cases hqp : q = p
      · rw [hqp, Function.update_self] at hq
        cases hq
        exact ⟨c', hc, hstream⟩
      · rw [Function.update_of_ne hqp] at hq
        exact h.place q x hq hx
    · intro q hq
      have hqp : q ≠ p := Nat.ne_of_gt (Nat.lt_of_lt_of_le hlt hq)
      exact (Function.update_of_ne hqp _ _).trans (h.ids q hq)
  · constructor
    · have hlocked : (s.table c').status = .locked := (h.locks.sends p c' hsends).1
      show Locks (fun d => ((conUnlock s.table c').2 d).status) s.held s.conn s.fresh _
      rw [conUnlock_of_locked hlocked, mark_status_eq]
      refine (h.locks.done hsends honly).congr ?_
      intro q d
      rw [sends_update (s := s) rfl]
      constructor
      · rintro (⟨hqp, hq⟩ | ⟨-, x, hx, -⟩)
        · exact ⟨hq, hqp⟩
        · cases hx
      · rintro ⟨hq, hqp⟩
        exact Or.inl ⟨hqp, hq⟩
    · intro q x hq hx
      change Function.update s.pdus p none q = some x at hq
      by_cases hqp : q = p
      · rw [hqp, Function.update_self] at hq
        cases hq
      · rw [Function.update_of_ne hqp] at hq
        exact h.place q x hq hx
    · intro q hq
      have hqp : q ≠ p := Nat.ne_of_gt (Nat.lt_of_lt_of_le hlt hq)
      exact (Function.update_of_ne hqp _ _).trans (h.ids q hq)

theorem wake_place (x : Pdu) : x.wake.place ≠ .down ↔ x.place ≠ .down := by
  unfold Pdu.wake
  cases x.place <;> simp

theorem LockInv.init : LockInv State.init where
  locks := by
    constructor
    · intro c hc
      cases hc
    · intro c hc
      cases hc
    · rintro p c ⟨x, hx, -⟩
      cases hx
    · intro c hc
      exact absurd rfl hc
    · intro c d hc
      exact absurd rfl hc
  place := by
    intro p x hx
    cases hx
  ids := by
    intro p _
    rfl

theorem LockInv.step (h : LockInv s) (hstep : Step max s op s') : LockInv s' := by
  cases hstep with
  | submit flags addr frames =>
    have hids := h.ids s.next (Nat.le_refl _)
    have hnot (d : ℕ) : ¬ Sends s s.next d := by
      rintro ⟨x, hx, -⟩
      rw [hids] at hx
      cases hx
    constructor
    · refine h.locks.congr (sends_update_down rfl hnot ?_)
      intro x hx
      cases hx
      rfl
    · intro q x hq hx
      change Function.update s.pdus s.next _ q = some x at hq
      by_cases hqp : q = s.next
      · rw [hqp, Function.update_self] at hq
        cases hq
        exact absurd rfl hx
      · rw [Function.update_of_ne hqp] at hq
        exact h.place q x hq hx
    · intro q hq
      have hqp : q ≠ s.next := Nat.ne_of_gt hq
      exact (Function.update_of_ne hqp _ _).trans (h.ids q (Nat.le_of_succ_le hq))
  | down connect r run place => exact h.down run place connect r
  | async rs run place con => exact h.asyncSend run (by rw [place]; decide) con rs
  | sigio =>
    constructor
    · refine h.locks.congr ?_
      intro q d
      constructor
      · rintro ⟨x, hx, hplace, hd⟩
        obtain ⟨y, hy, rfl⟩ := Option.map_eq_some_iff.1 hx
        exact ⟨y, hy, (wake_place y).1 hplace, hd⟩
      · rintro ⟨y, hy, hplace, hd⟩
        exact ⟨y.wake, Option.map_eq_some_iff.2 ⟨y, hy, rfl⟩, (wake_place y).2 hplace, hd⟩
    · intro q x hx hplace
      obtain ⟨y, hy, rfl⟩ := Option.map_eq_some_iff.1 hx
      exact h.place q y hy ((wake_place y).1 hplace)
    · intro q hq
      show (s.pdus q).map Pdu.wake = none
      rw [h.ids q hq]
      rfl
  | @hold c lock =>
    have hactive : (s.table c).status = .active := by
      by_contra hnot
      rw [conTrylock, if_neg hnot] at lock
      cases lock
    refine ⟨?_, h.place, h.ids⟩
    dsimp only
    rw [conTrylock, if_pos hactive, mark_status_eq]
    exact h.locks.take hactive
  | @release c held =>
    refine ⟨?_, h.place, h.ids⟩
    dsimp only
    rw [conUnlock_of_locked (h.locks.held c held).1, mark_status_eq]
    exact h.locks.drop (by decide) held
  | @close c held =>
    refine ⟨?_, h.place, h.ids⟩
    dsimp only
    rw [conFree_of_locked (h.locks.held c held).1, mark_status_eq]
    exact h.locks.drop (by decide) held
  | accept addr =>
    unfold State.accept
    rcases conNew_cases s.table max addr with heq | ⟨c, hc, heq⟩
    · rw [heq]
      exact h
    · have hnew := acquired_new addr h hc
      rw [heq]
      refine ⟨?_, hnew.place, hnew.ids⟩
      dsimp only
      rw [conUnlock_of_locked (by simp), mark_status_eq]
      exact hnew.drop
  | fail used => exact ⟨h.locks, h.place, h.ids⟩

theorem Reaches.lockInv {ok : State → Op → Prop} (hs : Reaches max ok s) : LockInv s := by
  induction hs with
  | init => exact LockInv.init
  | step _ _ hstep ih => exact ih.step hstep

end Mlvm.Sending
