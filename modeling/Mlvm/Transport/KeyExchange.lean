import Mlvm.Transport.BackupName
import Mlvm.Transport.Pdu
import Mathlib.Data.List.Nodup
import Mathlib.Data.List.Perm.Basic
import Mathlib.Algebra.Ring.Int.Defs
import Mathlib.Algebra.Ring.Nat

/-!
# PDUs that wait for a host key

The security layer (`imago_layer_security.c`) cannot encrypt a PDU for a host whose key it does
not have. It takes the next **sequence number**, asks the host for its key, and stores the PDU as
a backup named after the number. When a response arrives, the number it carries names the backup
again; the PDU is loaded, the key is checked and saved, and the PDU is queued once more.

**The number.** It is an `unsigned int` where the backup is saved, an `unsigned short` on the
wire, and a `short` where the response is read. Both ends print it with `%d`, so the names agree
only below 2^15 (`responseKey_wireId_eq_iff`).

**The threads.** A thread may be between the request and the backup when the response is
handled by another, and one that handles a response is for a while between loading the backup and
destroying it. Each of these is a step of its own, in any order.

Main results: `Kex.step_inv` (what a step keeps) and `released_once` (a PDU that is set aside is
found by the response to its request and queued exactly once).
-/

namespace Mlvm.Transport

/-! ## Numbers and names -/

/-- The number on the wire: `seqid & 0xffff`. -/
def wireId (seqid : UInt32) : UInt16 := seqid.toUInt16

/-- The name under which `imago_layer_security_transport_down` saves a PDU. -/
def saveKey (seqid : UInt32) : List Char := secKey seqid.toInt32.toInt

/-- The name under which `imago_layer_security_control_up` looks for it. -/
def responseKey (seqid : UInt16) : List Char := secKey seqid.toInt16.toInt

theorem toInt32_toInt (n : UInt32) : n.toInt32.toInt = Int.bmod n.toNat (2 ^ 32) :=
  BitVec.toInt_eq_toNat_bmod _

theorem toInt16_toInt (n : UInt16) : n.toInt16.toInt = Int.bmod n.toNat (2 ^ 16) :=
  BitVec.toInt_eq_toNat_bmod _

/-- **The two names agree** just when the number fits a `short`. -/
theorem responseKey_wireId_eq_iff (seqid : UInt32) :
    responseKey (wireId seqid) = saveKey seqid ↔
      seqid.toNat < 2 ^ 15 ∨ 2 ^ 32 - 2 ^ 15 ≤ seqid.toNat := by
  have hlt := seqid.toNat_lt
  have hwire : (wireId seqid).toNat = seqid.toNat % 2 ^ 16 := UInt32.toNat_toUInt16 _
  rw [responseKey, saveKey, secKey_injective.eq_iff, toInt16_toInt, toInt32_toInt, hwire,
    Int.bmod_eq_emod, Int.bmod_eq_emod]
  split <;> split <;> omega

theorem saveKey_ofNat {n : ℕ} (h : n < 2 ^ 15) : saveKey (.ofNat n) = secKey n := by
  have hn : (UInt32.ofNat n).toNat = n := by
    rw [UInt32.toNat_ofNat']
    omega
  rw [saveKey, toInt32_toInt, hn, Int.bmod_eq_emod]
  congr 1
  split <;> omega

theorem responseKey_ofNat {n : ℕ} (h : n < 2 ^ 15) :
    responseKey (wireId (.ofNat n)) = secKey n := by
  have hn : (UInt32.ofNat n).toNat = n := by
    rw [UInt32.toNat_ofNat']
    omega
  rw [(responseKey_wireId_eq_iff _).2 (.inl (by omega)), saveKey_ofNat h]

/-! ## The server -/

variable {Host : Type}

/-- A request for a host key: which call of `get_seq_id` it took its number from, and the number
on the wire. Only statements speak of the count of calls; no function of the model reads it. -/
structure KeyRequest where
  number : ℕ
  id : UInt16

/-- A PDU that is set aside, with the count of its request. -/
structure Aside (Host : Type) where
  number : ℕ
  pdu : Pdu Host

/-- A thread between the request and the backup. -/
structure Saving (Host : Type) where
  number : ℕ
  seqid : UInt32
  pdu : Pdu Host

/-- A thread between loading a backup and destroying it, and the request whose response it
handles. -/
structure Releasing (Host : Type) where
  response : ℕ
  key : List Char
  aside : Aside Host

/-- A PDU queued once more, and the request whose response queued it. -/
structure Requeued (Host : Type) where
  response : ℕ
  aside : Aside Host

/-- What the security layer of a server works on. `calls`, `saved` and the counts are there for
the statements. -/
structure Kex (Host : Type) where
  calls : ℕ
  sequence : UInt32
  requests : List KeyRequest
  saving : List (Saving Host)
  saved : List (Aside Host)
  backup : List Char → Option (Aside Host)
  releasing : List (Releasing Host)
  queue : List (Requeued Host)
  failed : List (Pdu Host)

/-- A server just started, with no backup of the security layer. -/
def Kex.start : Kex Host where
  calls := 0
  sequence := 0
  requests := []
  saving := []
  saved := []
  backup := fun _ => none
  releasing := []
  queue := []
  failed := []

/-- The PDU goes back up with an error. -/
def Pdu.failDown (p : Pdu Host) (errno : PduError) : Pdu Host :=
  { p with error := true, errno := errno, eLayer := .securityDown }

/-- The loaded PDU is to go down the security layer again. -/
def Aside.wake (a : Aside Host) : Aside Host :=
  { a with pdu := { a.pdu with state := .securityDown } }

/-- What happens. Threads are named by their place in the list they are in. -/
inductive KexEvent (Host : Type) where
  /-- A PDU for a host with an unknown key comes down; `sent` says whether the request could be
  made. -/
  | request (p : Pdu Host) (sent : Bool)
  /-- A request that no PDU waits for (`imago_layer_security_transport_up`). -/
  | ask (sent : Bool)
  /-- A thread comes to its `backup_save`. -/
  | save (n : ℕ) (ok : Bool)
  /-- A response to a request arrives; `memory` says whether there is a PDU to load a backup
  into. -/
  | respond (n : ℕ) (memory : Bool)
  /-- A thread that has loaded a backup comes to the end of `imago_layer_security_control_up`;
  `accepted` is the answer of `check_save_key`. -/
  | finish (n : ℕ) (accepted : Bool)

/-- `get_seq_id` and `rsa_host_key_send`. -/
def Kex.send (w : Kex Host) (sent : Bool) : Kex Host :=
  { w with
    calls := w.calls + 1
    sequence := w.sequence + 1
    requests := if sent then w.requests ++ [⟨w.calls, wireId w.sequence⟩] else w.requests }

/-- One step of the server; nothing happens when the event names no thread or request. -/
def Kex.step (w : Kex Host) : KexEvent Host → Kex Host
  | .request p sent =>
      if sent then { w.send true with saving := w.saving ++ [⟨w.calls, w.sequence, p⟩] }
      else { w.send false with failed := w.failed ++ [p.failDown .secRsa] }
  | .ask sent => w.send sent
  | .save n ok =>
      match w.saving[n]? with
      | none => w
      | some t =>
          let w := { w with saving := w.saving.eraseIdx n }
          if ok then
            { w with
              saved := w.saved ++ [⟨t.number, t.pdu⟩]
              backup := Function.update w.backup (saveKey t.seqid) (some ⟨t.number, t.pdu⟩) }
          else { w with failed := w.failed ++ [t.pdu.failDown .nback] }
  | .respond n memory =>
      match w.requests[n]? with
      | none => w
      | some r =>
          match if memory then w.backup (responseKey r.id) else none with
          | none => w
          | some a =>
              { w with releasing := w.releasing ++ [⟨r.number, responseKey r.id, a.wake⟩] }
  | .finish n accepted =>
      match w.releasing[n]? with
      | none => w
      | some t =>
          let w := { w with releasing := w.releasing.eraseIdx n }
          if accepted then
            { w with
              queue := w.queue ++ [⟨t.response, t.aside⟩]
              backup := Function.update w.backup t.key none }
          else w

/-- The condition on a step: the number taken fits a `short`; and when a response arrives, its
sender has stored the backup, there is a PDU to load it into, and no other response to the same
request is being handled. -/
def Kex.Meets (w : Kex Host) : KexEvent Host → Prop
  | .request _ _ | .ask _ => w.sequence.toNat < 2 ^ 15
  | .respond n memory => memory = true ∧ ∀ r, w.requests[n]? = some r →
      (∀ t ∈ w.saving, t.number ≠ r.number) ∧ ∀ t ∈ w.releasing, t.response ≠ r.number
  | .save _ _ | .finish _ _ => True

/-- The states of a server from its start, as long as the steps meet the condition. -/
inductive KexRun : Kex Host → Prop
  | start : KexRun Kex.start
  | step {w : Kex Host} {ev : KexEvent Host} (hrun : KexRun w) (h : w.Meets ev) :
      KexRun (w.step ev)

/-! ## What a run keeps -/

/-- The requests whose PDUs have been queued once more. -/
def Kex.released (w : Kex Host) : List ℕ := w.queue.map fun q => q.aside.number

/-- Every number in use is below the count of calls and printed the same at both ends. A PDU set
aside is in the backup until it is queued, and then in the queue. -/
structure Kex.Inv (w : Kex Host) : Prop where
  counted : w.sequence.toNat = w.calls
  small : w.calls ≤ 2 ^ 15
  wire : ∀ r ∈ w.requests, r.number < w.calls ∧ r.id = wireId (.ofNat r.number)
  saving : ∀ t ∈ w.saving, t.number < w.calls ∧ t.seqid = .ofNat t.number ∧
    (∃ r ∈ w.requests, r.number = t.number) ∧ ∀ a ∈ w.saved, a.number ≠ t.number
  savingOnce : (w.saving.map Saving.number).Nodup
  saved : ∀ a ∈ w.saved, a.number < w.calls ∧ ∃ r ∈ w.requests, r.number = a.number
  savedOnce : (w.saved.map Aside.number).Nodup
  backup : ∀ key a, w.backup key = some a → key = secKey a.number ∧ a ∈ w.saved
  place : ∀ a ∈ w.saved, w.backup (secKey a.number) = some a ↔ a.number ∉ w.released
  queue : ∀ q ∈ w.queue, ∃ a ∈ w.saved, q.response = a.number ∧ q.aside = a.wake
  queueOnce : w.released.Nodup
  releasing : ∀ t ∈ w.releasing, t.key = secKey t.response ∧
    ∃ a, w.backup t.key = some a ∧ a.number = t.response ∧ t.aside = a.wake
  releasingOnce : (w.releasing.map Releasing.response).Nodup

theorem Kex.Inv.start : (Kex.start : Kex Host).Inv := by
  constructor <;> simp [Kex.start, Kex.released]

/-- Numbers in a list without repetition are not met again behind the one taken out. -/
theorem ne_of_mem_eraseIdx {α : Type} {f : α → ℕ} {l : List α} {n : ℕ} {x y : α}
    (honce : (l.map f).Nodup) (hx : l[n]? = some x) (hy : y ∈ l.eraseIdx n) : f y ≠ f x := by
  obtain ⟨hn, rfl⟩ := List.getElem?_eq_some_iff.1 hx
  have hperm := (List.getElem_cons_eraseIdx_perm hn).map f
  have hcons := hperm.nodup_iff.2 honce
  rw [List.map_cons, List.nodup_cons] at hcons
  intro heq
  exact hcons.1 (heq ▸ List.mem_map_of_mem hy)

namespace Kex.Inv

variable {w : Kex Host}

/-- Sending a request takes the next number. -/
theorem send (hw : w.Inv) (h : w.sequence.toNat < 2 ^ 15) (sent : Bool) : (w.send sent).Inv := by
  have hcounted := hw.counted
  have hnext : (w.sequence + 1).toNat = w.calls + 1 := by
    rw [UInt32.toNat_add, UInt32.toNat_one]
    omega
  have hseq : w.sequence = .ofNat w.calls := by rw [← hcounted, UInt32.ofNat_toNat]
  have hkeeps : ∀ n, (∃ r ∈ w.requests, r.number = n) → ∃ r ∈ (w.send sent).requests,
      r.number = n := by
    rintro n ⟨r, hr, rfl⟩
    refine ⟨r, ?_, rfl⟩
    cases sent with
    | true => exact List.mem_append_left _ hr
    | false => exact hr
  constructor
  · exact hnext
  · show w.calls + 1 ≤ 2 ^ 15
    omega
  · intro r hr
    have hcase : r ∈ w.requests ∨ r = ⟨w.calls, wireId w.sequence⟩ := by
      cases sent with
      | true => simpa [Kex.send] using hr
      | false => exact .inl hr
    rcases hcase with hr | rfl
    · exact ⟨Nat.lt_succ_of_lt (hw.wire r hr).1, (hw.wire r hr).2⟩
    · exact ⟨Nat.lt_succ_self _, by rw [hseq]⟩
  · intro t ht
    obtain ⟨hlt, hseqid, hreq, hfresh⟩ := hw.saving t ht
    exact ⟨Nat.lt_succ_of_lt hlt, hseqid, hkeeps _ hreq, hfresh⟩
  · exact hw.savingOnce
  · intro a ha
    exact ⟨Nat.lt_succ_of_lt (hw.saved a ha).1, hkeeps _ (hw.saved a ha).2⟩
  · exact hw.savedOnce
  · exact hw.backup
  · exact hw.place
  · exact hw.queue
  · exact hw.queueOnce
  · exact hw.releasing
  · exact hw.releasingOnce

/-- The invariant does not speak of the PDUs that went back up. -/
theorem fail (hw : w.Inv) (failed : List (Pdu Host)) :
    ({ w with failed := failed } : Kex Host).Inv :=
  ⟨hw.counted, hw.small, hw.wire, hw.saving, hw.savingOnce, hw.saved, hw.savedOnce, hw.backup,
    hw.place, hw.queue, hw.queueOnce, hw.releasing, hw.releasingOnce⟩

/-- A PDU whose request has been sent waits to be stored. -/
theorem request (hw : w.Inv) (h : w.sequence.toNat < 2 ^ 15) (p : Pdu Host) :
    ({ w.send true with saving := w.saving ++ [⟨w.calls, w.sequence, p⟩] } : Kex Host).Inv := by
  have hsend := hw.send h true
  have hseq : w.sequence = .ofNat w.calls := by rw [← hw.counted, UInt32.ofNat_toNat]
  refine { hsend with saving := ?_, savingOnce := ?_ }
  · intro t ht
    rcases List.mem_append.1 ht with ht | ht
    · exact hsend.saving t ht
    · obtain rfl := List.mem_singleton.1 ht
      refine ⟨Nat.lt_succ_self _, hseq, ⟨_, List.mem_append_right _ List.mem_cons_self, rfl⟩, ?_⟩
      intro a ha
      exact Nat.ne_of_lt (hw.saved a ha).1
  · show ((w.saving ++ [(⟨w.calls, w.sequence, p⟩ : Saving Host)]).map Saving.number).Nodup
    rw [List.map_append, List.nodup_append]
    refine ⟨hw.savingOnce, by simp, ?_⟩
    rintro m hm n hn
    obtain ⟨t, ht, rfl⟩ := List.mem_map.1 hm
    obtain rfl : n = w.calls := by simpa using hn
    exact Nat.ne_of_lt (hw.saving t ht).1

/-- A thread that is done with storing. -/
theorem saves (hw : w.Inv) (n : ℕ) : ({ w with saving := w.saving.eraseIdx n } : Kex Host).Inv :=
  { hw with
    saving := fun t ht => hw.saving t (List.mem_of_mem_eraseIdx ht)
    savingOnce := hw.savingOnce.sublist ((List.eraseIdx_sublist _ _).map _) }

/-- A thread that is done with a response. -/
theorem finishes (hw : w.Inv) (n : ℕ) :
    ({ w with releasing := w.releasing.eraseIdx n } : Kex Host).Inv :=
  { hw with
    releasing := fun t ht => hw.releasing t (List.mem_of_mem_eraseIdx ht)
    releasingOnce := hw.releasingOnce.sublist ((List.eraseIdx_sublist _ _).map _) }

/-- The number of a PDU set aside is printed the same at both ends. -/
theorem key_eq (hw : w.Inv) {r : KeyRequest} (hr : r ∈ w.requests) :
    responseKey r.id = secKey r.number := by
  obtain ⟨hlt, hid⟩ := hw.wire r hr
  have hsmall := hw.small
  rw [hid, responseKey_ofNat (by omega)]

/-- What a released number was set aside for. -/
theorem mem_saved_of_released (hw : w.Inv) {n : ℕ} (h : n ∈ w.released) :
    ∃ a ∈ w.saved, a.number = n := by
  obtain ⟨q, hq, rfl⟩ := List.mem_map.1 h
  obtain ⟨a, ha, -, hwake⟩ := hw.queue q hq
  exact ⟨a, ha, by rw [hwake]; rfl⟩

/-- A PDU is stored under the number of its request. -/
theorem save (hw : w.Inv) {n : ℕ} {t : Saving Host} (ht : w.saving[n]? = some t) :
    ({ w with
        saving := w.saving.eraseIdx n
        saved := w.saved ++ [⟨t.number, t.pdu⟩]
        backup := Function.update w.backup (saveKey t.seqid) (some ⟨t.number, t.pdu⟩) } :
      Kex Host).Inv := by
  obtain ⟨hlt, hseqid, hreq, hfresh⟩ := hw.saving t (List.mem_of_getElem? ht)
  have hsmall := hw.small
  have hkey : saveKey t.seqid = secKey t.number := by rw [hseqid, saveKey_ofNat (by omega)]
  have hother : ∀ a ∈ w.saved, secKey a.number ≠ secKey t.number := fun a ha heq =>
    hfresh a ha (by exact_mod_cast secKey_injective heq)
  have hqueued : t.number ∉ w.released := fun h => by
    obtain ⟨a, ha, hnumber⟩ := hw.mem_saved_of_released h
    exact hfresh a ha hnumber
  rw [hkey]
  have hself := Function.update_self (secKey t.number) (some (⟨t.number, t.pdu⟩ : Aside Host))
    w.backup
  have hkept : ∀ key, key ≠ secKey t.number →
      Function.update w.backup (secKey t.number) (some ⟨t.number, t.pdu⟩) key = w.backup key :=
    fun key h => Function.update_of_ne h _ _
  refine { hw.saves n with
    saving := ?_, saved := ?_, savedOnce := ?_, backup := ?_, place := ?_, queue := ?_,
    releasing := ?_ }
  · intro t' ht'
    have hne := ne_of_mem_eraseIdx hw.savingOnce ht ht'
    obtain ⟨hlt', hseqid', hreq', hfresh'⟩ := hw.saving t' (List.mem_of_mem_eraseIdx ht')
    refine ⟨hlt', hseqid', hreq', fun a ha => ?_⟩
    rcases List.mem_append.1 ha with ha | ha
    · exact hfresh' a ha
    · obtain rfl := List.mem_singleton.1 ha
      exact Ne.symm hne
  · intro a ha
    rcases List.mem_append.1 ha with ha | ha
    · exact hw.saved a ha
    · obtain rfl := List.mem_singleton.1 ha
      exact ⟨hlt, hreq⟩
  · rw [List.map_append, List.nodup_append]
    refine ⟨hw.savedOnce, by simp, ?_⟩
    rintro m hm m' hm'
    obtain ⟨a, ha, rfl⟩ := List.mem_map.1 hm
    obtain rfl : m' = t.number := by simpa using hm'
    exact hfresh a ha
  · intro key a ha
    by_cases h : key = secKey t.number
    · subst h
      obtain rfl := Option.some.inj (hself.symm.trans ha)
      exact ⟨rfl, List.mem_append_right _ List.mem_cons_self⟩
    · have hold := hw.backup key a ((hkept key h).symm.trans ha)
      exact ⟨hold.1, List.mem_append_left _ hold.2⟩
  · intro a ha
    rcases List.mem_append.1 ha with ha | ha
    · have hplace := hw.place a ha
      rw [← hkept _ (hother a ha)] at hplace
      exact hplace
    · obtain rfl := List.mem_singleton.1 ha
      exact iff_of_true hself hqueued
  · intro q hq
    obtain ⟨a, ha, hq⟩ := hw.queue q hq
    exact ⟨a, List.mem_append_left _ ha, hq⟩
  · intro t' ht'
    obtain ⟨hkey', a, ha, hnumber, hwake⟩ := hw.releasing t' ht'
    have hne : t'.key ≠ secKey t.number := by
      rw [hkey', ← hnumber]
      exact hother a (hw.backup _ a ha).2
    exact ⟨hkey', a, (hkept _ hne).trans ha, hnumber, hwake⟩

/-- A response finds the PDU of its request. -/
theorem respond (hw : w.Inv) {r : KeyRequest} (hr : r ∈ w.requests)
    (halone : ∀ t ∈ w.releasing, t.response ≠ r.number) {a : Aside Host}
    (ha : w.backup (responseKey r.id) = some a) :
    ({ w with releasing := w.releasing ++ [⟨r.number, responseKey r.id, a.wake⟩] } :
      Kex Host).Inv := by
  have hkey := hw.key_eq hr
  have hnumber : a.number = r.number := by
    have heq := (hw.backup _ a ha).1
    rw [hkey] at heq
    exact_mod_cast (secKey_injective heq).symm
  refine { hw with releasing := ?_, releasingOnce := ?_ }
  · intro t ht
    rcases List.mem_append.1 ht with ht | ht
    · exact hw.releasing t ht
    · obtain rfl := List.mem_singleton.1 ht
      exact ⟨hkey, a, ha, hnumber, rfl⟩
  · rw [List.map_append, List.nodup_append]
    refine ⟨hw.releasingOnce, by simp, ?_⟩
    rintro m hm m' hm'
    obtain ⟨t, ht, rfl⟩ := List.mem_map.1 hm
    obtain rfl : m' = r.number := by simpa using hm'
    exact halone t ht

/-- A PDU goes from the backup to the queue. -/
theorem finish (hw : w.Inv) {n : ℕ} {t : Releasing Host} (ht : w.releasing[n]? = some t) :
    ({ w with
        releasing := w.releasing.eraseIdx n
        queue := w.queue ++ [⟨t.response, t.aside⟩]
        backup := Function.update w.backup t.key none } : Kex Host).Inv := by
  obtain ⟨hkey, a, ha, hnumber, hwake⟩ := hw.releasing t (List.mem_of_getElem? ht)
  obtain ⟨hname, hsaved⟩ := hw.backup _ a ha
  have hqueued : a.number ∉ w.released := (hw.place a hsaved).1 (by rw [← hname]; exact ha)
  have hreleased : (w.queue ++ [(⟨t.response, t.aside⟩ : Requeued Host)]).map
      (fun q => q.aside.number) = w.released ++ [a.number] := by
    rw [List.map_append, hwake]
    rfl
  have hself := Function.update_self t.key none w.backup
  have hkept : ∀ key, key ≠ t.key → Function.update w.backup t.key none key = w.backup key :=
    fun key h => Function.update_of_ne h _ _
  refine { hw.finishes n with
    backup := ?_, place := ?_, queue := ?_, queueOnce := ?_, releasing := ?_ }
  · intro key b hb
    by_cases h : key = t.key
    · subst h
      exact absurd (hself.symm.trans hb) (by simp)
    · exact hw.backup key b ((hkept key h).symm.trans hb)
  · intro b hb
    rw [Kex.released, hreleased]
    by_cases h : b.number = a.number
    · refine iff_of_false (fun hsome => ?_) (by simp [h])
      rw [h, ← hname] at hsome
      exact absurd (hself.symm.trans hsome) (by simp)
    · have hne : secKey b.number ≠ t.key := fun heq =>
        h (by exact_mod_cast secKey_injective (heq.trans hname))
      have hplace := hw.place b hb
      rw [← hkept _ hne] at hplace
      simpa [h] using hplace
  · intro q hq
    rcases List.mem_append.1 hq with hq | hq
    · exact hw.queue q hq
    · obtain rfl := List.mem_singleton.1 hq
      exact ⟨a, hsaved, hnumber.symm, hwake⟩
  · rw [Kex.released, hreleased, List.nodup_append]
    refine ⟨hw.queueOnce, by simp, ?_⟩
    rintro m hm m' hm' rfl
    exact hqueued (List.mem_singleton.1 hm' ▸ hm)
  · intro t' ht'
    have hne := ne_of_mem_eraseIdx hw.releasingOnce ht ht'
    obtain ⟨hkey', b, hb, hnumber', hwake'⟩ := hw.releasing t' (List.mem_of_mem_eraseIdx ht')
    have hkeys : t'.key ≠ t.key := by
      rw [hkey', hkey]
      exact fun heq => hne (by exact_mod_cast secKey_injective heq)
    exact ⟨hkey', b, (hkept _ hkeys).trans hb, hnumber', hwake'⟩

/-- **A step keeps the invariant.** -/
theorem step (hw : w.Inv) {ev : KexEvent Host} (h : w.Meets ev) : (w.step ev).Inv := by
  cases ev with
  | request p sent =>
    cases sent with
    | true => exact hw.request h p
    | false => exact (hw.send h false).fail _
  | ask sent => exact hw.send h sent
  | save n ok =>
    rw [Kex.step]
    split
    · exact hw
    · next t ht =>
      cases ok with
      | true => exact hw.save ht
      | false => exact (hw.saves n).fail _
  | respond n memory =>
    rw [Kex.step]
    split
    · exact hw
    · next r hr =>
      split
      · exact hw
      · next a ha =>
        rw [if_pos h.1] at ha
        exact hw.respond (List.mem_of_getElem? hr) (h.2 r hr).2 ha
  | finish n accepted =>
    rw [Kex.step]
    split
    · exact hw
    · next t ht =>
      cases accepted with
      | true => exact hw.finish ht
      | false => exact hw.finishes n

theorem of_run (h : KexRun w) : w.Inv := by
  induction h with
  | start => exact .start
  | step _ h ih => exact ih.step h

end Kex.Inv

/-! ## The PDUs that wait -/

/-- A backup holds the PDU that was set aside with its number, or nothing. -/
theorem Kex.Inv.backup_eq {w : Kex Host} (hw : w.Inv) {a : Aside Host} (ha : a ∈ w.saved) :
    w.backup (secKey a.number) = some a ∨ w.backup (secKey a.number) = none := by
  cases hb : w.backup (secKey a.number) with
  | none => exact .inr rfl
  | some b =>
    obtain ⟨hname, hsaved⟩ := hw.backup _ b hb
    have hnumber : b.number = a.number := by exact_mod_cast (secKey_injective hname).symm
    exact .inl (congrArg some (List.inj_on_of_nodup_map hw.savedOnce hsaved ha hnumber))

/-- **A PDU that waits for a key is queued once.** In every state of a run, a PDU that has been
set aside either waits under the name that the response to its request bears, and has not been
queued, or has been queued exactly once and its backup is gone. What has been queued was queued by
the response to its own request. And a response whose key is accepted finds the PDU that waits,
queues it and destroys the backup. -/
theorem released_once {w : Kex Host} (hrun : KexRun w) :
    (∀ a ∈ w.saved, ∃ r ∈ w.requests, r.number = a.number ∧
      ((w.backup (responseKey r.id) = some a ∧ w.released.count a.number = 0) ∨
        (w.backup (responseKey r.id) = none ∧ w.released.count a.number = 1))) ∧
    (∀ q ∈ w.queue, ∃ a ∈ w.saved, q.response = a.number ∧ q.aside = a.wake) ∧
    ∀ n r a, w.requests[n]? = some r → w.backup (responseKey r.id) = some a →
      w.Meets (.respond n true) →
      a.number = r.number ∧
      KexRun ((w.step (.respond n true)).step (.finish w.releasing.length true)) ∧
      ((w.step (.respond n true)).step (.finish w.releasing.length true)).queue =
        w.queue ++ [⟨r.number, a.wake⟩] ∧
      ((w.step (.respond n true)).step (.finish w.releasing.length true)).backup
        (responseKey r.id) = none := by
  have hw := Kex.Inv.of_run hrun
  refine ⟨fun a ha => ?_, hw.queue, fun n r a hr ha hmeets => ?_⟩
  · obtain ⟨-, r, hr, hnumber⟩ := hw.saved a ha
    refine ⟨r, hr, hnumber, ?_⟩
    rw [hw.key_eq hr, hnumber]
    by_cases hqueued : a.number ∈ w.released
    · refine .inr ⟨?_, List.count_eq_one_of_mem hw.queueOnce hqueued⟩
      exact (hw.backup_eq ha).resolve_left fun hsome => (hw.place a ha).1 hsome hqueued
    · exact .inl ⟨(hw.place a ha).2 hqueued, List.count_eq_zero.2 hqueued⟩
  · have hmem := List.mem_of_getElem? hr
    have hnumber : a.number = r.number := by
      have hname := (hw.backup _ a ha).1
      rw [hw.key_eq hmem] at hname
      exact_mod_cast (secKey_injective hname).symm
    have hfound : w.step (.respond n true) =
        { w with releasing := w.releasing ++ [⟨r.number, responseKey r.id, a.wake⟩] } := by
      simp only [Kex.step, hr, if_true, ha]
    refine ⟨hnumber, .step (.step hrun hmeets) trivial, ?_, ?_⟩
    · rw [hfound]
      simp [Kex.step]
    · rw [hfound]
      simp [Kex.step]

/-- A PDU on its way down. -/
def someSitpPdu : Pdu Unit := pduNew 0

theorem released_once_first :
    let w := ((Kex.start : Kex Unit).step (.request someSitpPdu true)).step (.save 0 true)
    KexRun w ∧ ((w.step (.respond 0 true)).step (.finish 0 true)).queue =
      [⟨0, (⟨0, someSitpPdu⟩ : Aside Unit).wake⟩] := by
  have hrun : KexRun
      (((Kex.start : Kex Unit).step (.request someSitpPdu true)).step (.save 0 true)) := by
    refine .step (.step .start ?_) trivial
    show (0 : UInt32).toNat < 2 ^ 15
    decide
  obtain ⟨-, -, hresponse⟩ := released_once hrun
  obtain ⟨-, -, hqueue, -⟩ := hresponse 0 ⟨0, wireId 0⟩ ⟨0, someSitpPdu⟩ rfl rfl
    ⟨rfl, fun r _ => by simp [Kex.step, Kex.start, Kex.send]⟩
  exact ⟨hrun, hqueue⟩

/-- **A response can come too early, and numbers can be misread.** The response that arrives
before the backup is stored finds nothing, and the PDU stored after it stays where it is. The
backup of request 32768 is looked for under another name, and the response to request 65536
names the backup of request 0. -/
theorem response_misses :
    let w := (((Kex.start : Kex Unit).step (.request someSitpPdu true)).step (.respond 0 true)).step
      (.save 0 true)
    (w.saved = [⟨0, someSitpPdu⟩] ∧ w.saving = [] ∧ w.releasing = [] ∧ w.queue = [] ∧
      w.backup (saveKey 0) = some ⟨0, someSitpPdu⟩) ∧
    responseKey (wireId 32768) ≠ saveKey 32768 ∧ responseKey (wireId 65536) = saveKey 0 := by
  refine ⟨⟨rfl, rfl, rfl, rfl, rfl⟩, fun h => ?_, by decide⟩
  have hshort := (responseKey_wireId_eq_iff 32768).1 h
  exact absurd hshort (by decide)

end Mlvm.Transport
