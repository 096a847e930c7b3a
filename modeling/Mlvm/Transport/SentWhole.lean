import Mlvm.Transport.SendingBytes

/-!
# PDUs are sent whole

**Stuck** (`Stuck`). A PDU that has bytes for a connection that has failed, or is about to begin on
one, takes steps for ever (`Stuck.not_givesUp`).

**`sent_whole_or_given_up`.** In runs in which headers and control PDUs are never cut and no
connection fails that still has to take bytes of a PDU, PDUs are sent whole and connections are
released.
-/

namespace Mlvm.Sending

open Connections (Table SockAddr lookupCon conNew conTrylock conUnlock conFree)
open Transport (Frame contents frameSize wrapInt ConnectionHeader)
open Frames (frameErase)

variable {max : ℕ} {s s' : State} {op : Op} {p c : ℕ} {pdu : Pdu}

/-! ## Giving up -/

/-- The PDU has bytes to send on a connection that has failed, or it is about to begin on one. -/
def Stuck (max : ℕ) (s : State) (p : ℕ) : Prop :=
  ∃ pdu, s.pdus p = some pdu ∧
    (pdu.place ≠ .down ∧ 0 < pdu.cTotal ∧
      (∃ c, pdu.cId = some c ∧ s.failed (s.conn c) = true) ∨
    pdu.place = .down ∧ pdu.control = false ∧ s.Broken max pdu)

/-- A connection that has been looked up and unlocked is as it was. -/
theorem unlock_mark {t : Table} (hc : (t c).status = .active) :
    (conUnlock (t.mark c .locked) c).2 = t := by
  rw [conUnlock_of_locked (by rw [Connections.mark_status, if_pos rfl])]
  funext d
  by_cases hd : d = c
  · subst hd
    simp only [Table.mark, Function.update_self]
    rw [← hc]
  · simp only [Table.mark, Function.update_of_ne hd]

/-- A PDU that is stuck takes one more step of its own and is stuck again. -/
theorem Stuck.again {t : State} {k : ℕ} (hw : Within max p s k t) (ht : Stuck max t p) :
    ∃ t', Within max p s (k + 1) t' ∧ Stuck max t' p := by
  obtain ⟨pdu, hp, ⟨hplace, hpos, c, hc, hfail⟩ | ⟨hdown, hcontrol, hbroken⟩⟩ := ht
  · -- `SIGIO_handler` hands the PDU back first
    have hsigio := hw.other .sigio (by simp [Op.pdu])
    have hp' : (t.pdus p).map Pdu.wake = some pdu.wake := by rw [hp, Option.map_some]
    have hasync : pdu.wake.place = .async := by
      unfold Pdu.wake
      cases hx : pdu.place with
      | down => exact absurd hx hplace
      | async => simp
      | waiting => simp
    have hstep := hsigio.own (.async [] hp' hasync hc fun _ => rfl) rfl
    refine ⟨_, hstep, ?_⟩
    have hcount : wrapInt (frameSend pdu.wake.frames []).length = 0 := by
      rw [frameSend_nil]
      rfl
    rcases asyncSend_cases { t with pdus := fun p => (t.pdus p).map Pdu.wake } p pdu.wake c []
      with ⟨-, place, hnot, -, heq⟩ | ⟨hle, -⟩
    · rw [heq]
      refine ⟨_, Function.update_self _ _ _, Or.inl ⟨hnot, ?_, c, hc, hfail⟩⟩
      dsimp only
      rw [hcount, sub_zero]
      exact hpos
    · rw [hcount, sub_zero] at hle
      exact absurd hpos (Int.not_lt.2 hle)
  · obtain ⟨c, hlook, hfail⟩ := hbroken
    have hstep := hw.own (.down true none hp hdown fun _ => rfl) rfl
    refine ⟨_, hstep, ?_⟩
    rw [State.down, if_neg (by simp [hcontrol])]
    rcases downTransport_cases t max p pdu true none with ⟨-, -, hnone, -⟩ | ⟨c', hc', hsome, heq⟩ |
      ⟨-, -, hnone, -⟩
    · rw [hnone] at hlook
      cases hlook
    · obtain rfl := Option.some.inj (hlook.symm.trans hsome)
      rw [heq]
      refine ⟨_, Function.update_self _ _ _, Or.inr ⟨hdown, hcontrol, c, ?_, hfail⟩⟩
      show (lookupCon (conUnlock (t.table.mark c .locked) c).2 max pdu.remoteAddr).1 = some c
      rw [unlock_mark hc', hlook]
    · rw [hnone] at hlook
      cases hlook

theorem Stuck.within (h : Stuck max s p) (b : ℕ) : ∃ t, Within max p s b t ∧ Stuck max t p := by
  induction b with
  | zero => exact ⟨s, .refl, h⟩
  | succ b ih =>
    obtain ⟨t, hw, ht⟩ := ih
    exact ht.again hw

/-- **A PDU that is stuck never gives up.** -/
theorem Stuck.not_givesUp (h : Stuck max s p) : ¬ GivesUp max s p := by
  rintro ⟨b, hb⟩
  obtain ⟨t, hw, pdu, hp, -⟩ := h.within b
  rw [hb b t hw (Nat.le_refl b)] at hp
  cases hp

/-- What the steps of the others make of a PDU. -/
theorem pdus_of_step (hstep : Step max s op s') (hop : op.pdu ≠ some p) (hlt : p < s.next) :
    s'.pdus p = s.pdus p ∨ s'.pdus p = (s.pdus p).map Pdu.wake := by
  have hne {q : ℕ} (hq : (some q : Option ℕ) ≠ some p) : p ≠ q := by
    rintro rfl
    exact hq rfl
  have hupdate {q : ℕ} {o : Option Pdu} (hq : (some q : Option ℕ) ≠ some p) :
      Function.update s.pdus q o p = s.pdus p := Function.update_of_ne (hne hq) _ _
  cases hstep with
  | submit flags addr frames => exact Or.inl (Function.update_of_ne (Nat.ne_of_lt hlt) _ _)
  | @down q pdu connect r run place =>
    left
    unfold State.down
    split_ifs
    · rcases downControl_cases s max q pdu r with ⟨t, -, heq⟩ | ⟨c, k, t, -, -, -, heq⟩
      · rw [heq]
        exact hupdate hop
      · rw [heq]
        exact hupdate hop
    · rcases downTransport_cases s max q pdu connect r with ⟨t, -, -, heq⟩ | ⟨c, -, -, heq⟩ |
        ⟨c, -, -, heq⟩
      · obtain ⟨l, hl⟩ := refuse_pdus { s with table := t } q pdu
        rw [heq, hl]
        exact hupdate hop
      · rw [heq]
        cases r <;> exact hupdate hop
      · rw [heq]
        cases r <;> exact hupdate hop
  | @async q c pdu rs run place con =>
    left
    rcases asyncSend_cases s q pdu c rs with ⟨-, place, -, -, heq⟩ | ⟨-, heq⟩
    · rw [heq]
      exact hupdate hop
    · rw [heq]
      exact hupdate hop
  | sigio => exact Or.inr rfl
  | accept addr =>
    left
    unfold State.accept
    rcases conNew_cases s.table max addr with heq | ⟨c, -, heq⟩
    · rw [heq]
    · rw [heq]
      rfl
  | _ => exact Or.inl rfl

theorem next_le_of_step (hstep : Step max s op s') : s.next ≤ s'.next := by
  cases hstep with
  | submit flags addr frames => exact Nat.le_succ _
  | @down q pdu connect r run place =>
    unfold State.down
    split_ifs
    · rcases downControl_cases s max q pdu r with ⟨t, -, heq⟩ | ⟨c, k, t, -, -, -, heq⟩
      · rw [heq]
        exact Nat.le_refl _
      · rw [heq]
        exact Nat.le_refl _
    · rcases downTransport_cases s max q pdu connect r with ⟨t, -, -, heq⟩ | ⟨c, -, -, heq⟩ |
        ⟨c, -, -, heq⟩
      · obtain ⟨l, hl⟩ := refuse_pdus { s with table := t } q pdu
        rw [heq, hl]
        exact Nat.le_refl _
      · rw [heq]
        cases r <;> exact Nat.le_refl _
      · rw [heq]
        cases r <;> exact Nat.le_refl _
  | @async q c pdu rs run place con =>
    rcases asyncSend_cases s q pdu c rs with ⟨-, place, -, -, heq⟩ | ⟨-, heq⟩
    · rw [heq]
      exact Nat.le_refl _
    · rw [heq]
      exact Nat.le_refl _
  | accept addr =>
    unfold State.accept
    rcases conNew_cases s.table max addr with heq | ⟨c, -, heq⟩
    · rw [heq]
    · rw [heq]
      exact Nat.le_refl _
  | _ => exact Nat.le_refl _

/-- The PDU has nothing left to send and is about to leave, or it has left. -/
def Leaving (p : ℕ) (k : ℕ) (s : State) : Prop :=
  p < s.next ∧ ((k = 0 ∧ ∃ pdu, s.pdus p = some pdu ∧ pdu.place ≠ .down ∧ pdu.cTotal ≤ 0 ∧
    contents pdu.frames = []) ∨ s.pdus p = none)

theorem Leaving.within {k : ℕ} (h : Leaving p 0 s) (hw : Within max p s k s') :
    Leaving p k s' := by
  induction hw with
  | refl => exact h
  | @own k t t' op hw hstep hop ih =>
    obtain ⟨hlt, ih⟩ := ih
    refine ⟨Nat.lt_of_lt_of_le hlt (next_le_of_step hstep), Or.inr ?_⟩
    cases hstep with
    | @down q pdu connect r run place =>
      obtain rfl := Option.some.inj hop
      rcases ih with ⟨-, x, hx, hplace, -⟩ | hnone
      · obtain rfl := Option.some.inj (hx.symm.trans run)
        exact absurd place hplace
      · rw [hnone] at run
        cases run
    | @async q c pdu rs run place con =>
      obtain rfl := Option.some.inj hop
      rcases ih with ⟨-, x, hx, -, hle, hempty⟩ | hnone
      · obtain rfl := Option.some.inj (hx.symm.trans run)
        have hsent : frameSend x.frames rs = [] := by
          obtain ⟨rest, hrest⟩ := frameSend_append x.frames rs
          rw [hempty] at hrest
          exact (List.append_eq_nil_iff.1 hrest.symm).1
        have hcount : wrapInt (frameSend x.frames rs).length = 0 := by
          rw [hsent]
          rfl
        rcases asyncSend_cases t q x c rs with ⟨hpos, -⟩ | ⟨-, heq⟩
        · rw [hcount, sub_zero] at hpos
          exact absurd hpos (Int.not_lt.2 hle)
        · rw [heq]
          exact Function.update_self _ _ _
      · rw [hnone] at run
        cases run
    | _ => cases hop
  | @other k t t' op hw hstep hop ih =>
    obtain ⟨hlt, ih⟩ := ih
    refine ⟨Nat.lt_of_lt_of_le hlt (next_le_of_step hstep), ?_⟩
    rcases ih with ⟨hk, x, hx, hplace, hrest⟩ | hnone
    · refine Or.inl ⟨hk, ?_⟩
      rcases pdus_of_step hstep hop hlt with heq | heq
      · exact ⟨x, heq.trans hx, hplace, hrest⟩
      · exact ⟨x.wake, by rw [heq, hx, Option.map_some], (wake_place x).2 hplace, hrest⟩
    · rcases pdus_of_step hstep hop hlt with heq | heq
      · exact Or.inr (heq.trans hnone)
      · exact Or.inr (by rw [heq, hnone, Option.map_none])

/-! ## What is promised -/

theorem whole_of_bytes (hb : Bytes s) (hl : LockInv s) : Whole s where
  whole := by
    intro n hn
    refine hb.whole n ?_
    intro p x hs
    obtain ⟨c, hc, hstream⟩ := hl.place p x hs.1 hs.2.1
    exact hn p c ⟨x, hs.1, hs.2.1, hc⟩ (Option.some.inj (hstream.symm.trans hs.2.2))
  part := by
    intro p x c hx hplace hc
    obtain ⟨c', hc', hstream⟩ := hl.place p x hx hplace
    obtain rfl := Option.some.inj (hc'.symm.trans hc)
    exact (hb.part p _ x ⟨hx, hplace, hstream⟩).2
  alone := by
    intro p q c d hp hq hconn
    have hst {r e : ℕ} (hr : Sends s r e) : (s.table e).status ≠ .free := by
      have hlocked := (hl.locks.sends r e hr).1
      simp [hlocked]
    obtain rfl := hl.locks.conn_inj c d (hst hp) (hst hq) hconn
    exact (hl.locks.sends q c hq).2 p hp
  once := ⟨hb.once, fun e he => (hb.gone e he).2⟩

/-- A PDU whose connection has failed has no more to send. -/
theorem givesUp_of_onFailed (hb : Bytes s) (hl : LockInv s) (h : OnFailed s p) :
    GivesUp max s p := by
  obtain ⟨x, n, hx, hstream, hfail⟩ := h
  obtain ⟨hplace, hle⟩ := hb.fails p x n hx hstream hfail
  obtain ⟨htotal, -⟩ := hb.part p n x ⟨hx, hplace, hstream⟩
  have hempty : contents x.frames = [] := List.length_eq_zero_iff.1 (by omega)
  have hlt : p < s.next := by
    by_contra hge
    rw [hl.ids p (Nat.le_of_not_lt hge)] at hx
    cases hx
  have hleaving : Leaving p 0 s := ⟨hlt, Or.inl ⟨rfl, x, hx, hplace, hle, hempty⟩⟩
  refine ⟨1, ?_⟩
  intro k t hw hk
  rcases (hleaving.within hw).2 with ⟨rfl, -⟩ | hnone
  · cases hk
  · exact hnone

/-- **PDUs are sent whole.** In runs in which headers and control PDUs are never cut, and no
connection fails that a PDU still has bytes for, the bytes on every connection are complete records,
connections are released and PDUs leave. A PDU whose connection has failed before never gives up. -/
theorem sent_whole_or_given_up (max : ℕ) :
    (∀ s, Reaches max (Sound max) s →
      Whole s ∧ Released s ∧ ∀ p, OnFailed s p → GivesUp max s p) ∧
    ∀ s p, Stuck max s p → ¬ GivesUp max s p := by
  refine ⟨?_, fun _ _ => Stuck.not_givesUp⟩
  intro s hs
  exact ⟨whole_of_bytes hs.bytes hs.lockInv, hs.lockInv.locks.locked,
    fun p => givesUp_of_onFailed hs.bytes hs.lockInv⟩

/-! ## Fixed runs -/

/-- A PDU of one byte that is to be sent to the host with address 5. -/
def submitted : State :=
  { State.init.setPdu 0
      (some ⟨pduTypeSitp, .success, ⟨5, 0⟩, [.single 7], none, 0, .down, none⟩) with
    next := 1
    records := Function.update State.init.records 0 (record pduTypeSitp [.single 7]) }

theorem submitted_reaches {ok : State → Op → Prop}
    (hok : ok State.init (.submit pduTypeSitp ⟨5, 0⟩ [.single 7])) : Reaches 255 ok submitted :=
  .step .init hok (.submit pduTypeSitp ⟨5, 0⟩ [.single 7])

/-- Three bytes go to a new connection behind their header. When the socket takes two of them the
last one is still to be sent; when it then takes that one the record is whole. -/
theorem sent_whole_or_given_up_parts : ∃ s s',
    Reaches 255 (Sound 255) s ∧ (s.pdus 0).map (fun pdu => contents pdu.frames) = some [9] ∧
    Whole s ∧ Released s ∧ (∀ p, OnFailed s p → GivesUp 255 s p) ∧
    Reaches 255 (Sound 255) s' ∧ s'.log = [(0, 0)] ∧ Whole s' ∧ Released s' := by
  have hsubmit : Reaches 255 (Sound 255) _ :=
    @Reaches.step _ _ _ _ (.submit pduTypeSitp ⟨5, 0⟩ [⟨[7, 8, 9], by decide⟩]) .init
      (show 3 < 2 ^ 31 by decide) (.submit pduTypeSitp ⟨5, 0⟩ [⟨[7, 8, 9], by decide⟩])
  have hdown := @Reaches.step _ _ _ _ (.down 0 true (some 12)) hsubmit
    (fun pdu hpdu => by
      obtain rfl := Option.some.inj hpdu
      refine ⟨fun k hk => ?_, fun _ => ?_⟩
      · obtain rfl := Option.some.inj hk
        decide
      · rintro ⟨c, hc, -⟩
        cases hc)
    (.down true (some 12) rfl rfl (by rintro ⟨c, hc, -⟩; cases hc))
  have hpart := @Reaches.step _ _ _ _ (.async 0 [some 2]) hdown trivial
    (.async [some 2] rfl rfl rfl (fun h => by cases h))
  have hwhole := @Reaches.step _ _ _ _ (.async 0 [some 2, some 1]) hdown trivial
    (.async [some 2, some 1] rfl rfl rfl (fun h => by cases h))
  obtain ⟨hpartWhole, hreleased, hgives⟩ := (sent_whole_or_given_up 255).1 _ hpart
  obtain ⟨hlogged, hreleased', -⟩ := (sent_whole_or_given_up 255).1 _ hwhole
  exact ⟨_, _, hpart, by decide +kernel, hpartWhole, hreleased, hgives, hwhole, by decide +kernel,
    hlogged, hreleased'⟩

/-- What the socket takes of the header. -/
def begun (k : ℕ) : State :=
  submitted.down 255 0 ⟨pduTypeSitp, .success, ⟨5, 0⟩, [.single 7], none, 0, .down, none⟩ true
    (some k)

theorem begun_reaches (k : ℕ) : Reaches 255 (fun _ _ => True) (begun k) := by
  refine (submitted_reaches trivial).step trivial (.down true (some k) rfl rfl ?_)
  rintro ⟨c, hc, -⟩
  cases hc

/-- A header that is cut is not made good, and a PDU whose connection fails is kept for ever. -/
theorem not_sent_whole :
    ¬ (∀ s, Reaches 255 (fun _ _ => True) s → Whole s) ∧
    ¬ ∀ s, Reaches 255 (fun _ _ => True) s → ∀ p, OnFailed s p → GivesUp 255 s p := by
  constructor
  · intro hall
    obtain ⟨part, hout, hrest⟩ := (hall _ (begun_reaches 5)).part 0 _ 5 rfl (by decide) rfl
    have hlen := congrArg List.length hrest
    rw [← List.nil_append part, show ([] : List UInt8) = logged (begun 5) ((begun 5).conn 5)
      from rfl, ← hout] at hlen
    exact absurd hlen (by decide)
  · intro hall
    have hreach := (begun_reaches 12).step trivial (@Step.fail 255 (begun 12) 5 (by decide))
    refine Stuck.not_givesUp ?_ (hall _ hreach 0 ⟨_, 0, rfl, rfl, rfl⟩)
    exact ⟨_, rfl, Or.inl ⟨by decide, by decide, 5, rfl, rfl⟩⟩

end Mlvm.Sending
