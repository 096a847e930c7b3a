import Mlvm.Frames.Bytes
import Mlvm.Transport.SendingLocks

/-!
# What is on a connection

**Bytes** (`Bytes`). On each connection there are complete records and what the PDU that is being
sent has put so far; what remains of the PDU is in its frames, and `c_total` counts it. A step may
put nothing (`Bytes.frame`), begin a record (`Bytes.start`), go on with it (`Bytes.write`) or
complete it (`Bytes.complete`).

**`Reaches.bytes`.** This holds of the runs in which headers and control PDUs are never cut.
-/

namespace Mlvm.Sending

open Connections (Table SockAddr lookupCon conNew conTrylock conUnlock conFree)
open Transport (Frame contents frameSize wrapInt ConnectionHeader)
open Frames (frameErase)

/-! ## Frames -/

theorem writeAll_append (bs : List UInt8) (rs : List (Option ℕ)) :
    ∃ rest, bs = (writeAll bs rs).1 ++ rest ∧ ((writeAll bs rs).2.1 = true → rest = []) := by
  induction rs generalizing bs with
  | nil => exact ⟨bs, rfl, fun h => by cases h⟩
  | cons r rs ih =>
    cases r with
    | none => exact ⟨bs, rfl, fun h => by cases h⟩
    | some k =>
      rw [writeAll]
      split_ifs with hk
      · obtain ⟨rest, hrest, hdone⟩ := ih (bs.drop k)
        refine ⟨rest, ?_, hdone⟩
        rw [List.append_assoc, ← hrest, List.take_append_drop]
      · exact ⟨[], by simp, fun _ => rfl⟩

/-- **`frame_send`** puts the first bytes. -/
theorem frameSend_append (lt : List Frame) (rs : List (Option ℕ)) :
    ∃ rest, contents lt = frameSend lt rs ++ rest := by
  induction lt generalizing rs with
  | nil => exact ⟨[], rfl⟩
  | cons f lt ih =>
    obtain ⟨rest, hrest, hdone⟩ := writeAll_append f.bytes rs
    rw [frameSend]
    split_ifs with hd
    · obtain ⟨rest', hrest'⟩ := ih (writeAll f.bytes rs).2.2
      rw [hdone hd, List.append_nil] at hrest
      exact ⟨rest', by rw [Transport.contents_cons, hrest', List.append_assoc, ← hrest]⟩
    · refine ⟨rest ++ contents lt, ?_⟩
      rw [Transport.contents_cons, ← List.append_assoc, ← hrest]

theorem frameSend_nil (lt : List Frame) : frameSend lt [] = [] := by
  cases lt with
  | nil => rfl
  | cons f lt => simp [frameSend, writeAll]

/-- What `connection_async_send` makes of the frames and the count. -/
theorem erase_sent {lt : List Frame} (hlt : (contents lt).length < 2 ^ 31)
    (rs : List (Option ℕ)) :
    wrapInt (frameSend lt rs).length = (frameSend lt rs).length ∧
      frameSend lt rs ++
        contents (frameErase lt (wrapInt (frameSend lt rs).length).toNat).2 = contents lt := by
  obtain ⟨rest, hrest⟩ := frameSend_append lt rs
  have hle : (frameSend lt rs).length < 2 ^ 31 := by
    have hlen := congrArg List.length hrest
    rw [List.length_append] at hlen
    omega
  have hwrap : wrapInt (frameSend lt rs).length = (frameSend lt rs).length := by
    rw [Transport.wrapInt_of_bounds] <;> omega
  obtain ⟨lt', herase, hlt'⟩ := Frames.frameErase_eq lt (frameSend lt rs).length
  refine ⟨hwrap, ?_⟩
  rw [hwrap, Int.toNat_natCast, herase, hlt', hrest, List.drop_left]

theorem pduSize_eq {lt : List Frame} (hlt : (contents lt).length < 2 ^ 31) :
    pduSize lt = (contents lt).length := by
  rw [pduSize, Transport.frameSize_eq hlt]
  omega

/-! ## Bytes -/

variable {max : ℕ} {s s' : State} {op : Op} {p c : ℕ} {pdu : Pdu}

/-- What is on the connections, what is left of each PDU, and which PDUs have been sent. -/
structure Bytes (s : State) : Prop where
  blank : ∀ n, s.fresh ≤ n → s.out n = [] ∧ s.failed n = false ∧ ∀ e ∈ s.log, e.1 ≠ n
  known : ∀ p pdu n, s.pdus p = some pdu → pdu.stream = some n → n < s.fresh
  whole : ∀ n, (∀ p pdu, ¬ SendsOn s p n pdu) → s.out n = logged s n
  part : ∀ p n pdu, SendsOn s p n pdu → pdu.cTotal = (contents pdu.frames).length ∧
    ∃ part, s.out n = logged s n ++ part ∧ part ++ contents pdu.frames = s.records p
  size : ∀ p pdu, s.pdus p = some pdu → (contents pdu.frames).length < 2 ^ 31
  down : ∀ p pdu, s.pdus p = some pdu → pdu.place = .down →
    record pdu.flags pdu.frames = s.records p
  once : (s.log.map Prod.snd).Nodup
  gone : ∀ e ∈ s.log, e.2 < s.next ∧ s.pdus e.2 = none
  fails : ∀ p pdu n, s.pdus p = some pdu → pdu.stream = some n → s.failed n = true →
    pdu.place ≠ .down ∧ pdu.cTotal ≤ 0

theorem logged_cons (s : State) (n p m : ℕ) :
    logged { s with log := s.log ++ [(n, p)] } m =
      logged s m ++ if n = m then s.records p else [] := by
  unfold logged
  rw [List.filter_append, List.map_append, List.flatten_append]
  split_ifs with hn <;> simp [hn]

theorem logged_congr (hlog : s'.log = s.log) (hrec : ∀ e ∈ s.log, s'.records e.2 = s.records e.2)
    (n : ℕ) : logged s' n = logged s n := by
  unfold logged
  rw [hlog]
  refine congrArg List.flatten (List.map_congr_left ?_)
  intro e he
  exact hrec e (List.mem_of_mem_filter he)

/-- A step that puts nothing and keeps who sends what. -/
theorem Bytes.frame (h : Bytes s) (hfresh : s.fresh ≤ s'.fresh) (hout : s'.out = s.out)
    (hlog : s'.log = s.log) (hrecords : s'.records = s.records) (hnext : s'.next = s.next)
    (hfailed : s'.failed = s.failed)
    (hpdus : ∀ p pdu', s'.pdus p = some pdu' → ∃ pdu, s.pdus p = some pdu ∧
      pdu'.frames = pdu.frames ∧ pdu'.flags = pdu.flags ∧
      (pdu'.place = .down ↔ pdu.place = .down) ∧ (pdu'.place ≠ .down → pdu'.cTotal = pdu.cTotal) ∧
      (pdu'.stream = pdu.stream ∧ pdu'.cTotal = pdu.cTotal ∨ pdu.place = .down ∧
        ∃ n < s'.fresh, pdu'.stream = some n ∧ s.failed n = false))
    (hsends : ∀ p n pdu, SendsOn s p n pdu → ∃ pdu', SendsOn s' p n pdu') : Bytes s' := by
  have hlogged (n : ℕ) : logged s' n = logged s n :=
    logged_congr hlog (fun e _ => by rw [hrecords]) n
  have hback (p n : ℕ) (pdu' : Pdu) (hs : SendsOn s' p n pdu') : ∃ pdu, SendsOn s p n pdu ∧
      pdu'.frames = pdu.frames ∧ pdu'.cTotal = pdu.cTotal := by
    obtain ⟨hp, hplace, hstream⟩ := hs
    obtain ⟨pdu, hpdu, hframes, -, hdown, htotal, hkeep⟩ := hpdus p pdu' hp
    rcases hkeep with ⟨hkeep, -⟩ | ⟨hwas, -⟩
    · exact ⟨pdu, ⟨hpdu, fun hd => hplace (hdown.2 hd), hkeep ▸ hstream⟩, hframes, htotal hplace⟩
    · exact absurd (hdown.2 hwas) hplace
  constructor
  · intro n hn
    rw [hout, hlog, hfailed]
    exact h.blank n (Nat.le_trans hfresh hn)
  · intro p pdu' n hp hstream
    obtain ⟨pdu, hpdu, -, -, -, -, ⟨hkeep, -⟩ | ⟨-, m, hm, hnew, -⟩⟩ := hpdus p pdu' hp
    · exact Nat.lt_of_lt_of_le (h.known p pdu n hpdu (hkeep ▸ hstream)) hfresh
    · rw [hnew] at hstream
      cases hstream
      exact hm
  · intro n hn
    rw [hout, hlogged]
    refine h.whole n ?_
    intro p pdu hs
    obtain ⟨pdu', hs'⟩ := hsends p n pdu hs
    exact hn p pdu' hs'
  · intro p n pdu' hs
    obtain ⟨pdu, hold, hframes, htotal⟩ := hback p n pdu' hs
    rw [hout, hlogged, hrecords, hframes, htotal]
    exact h.part p n pdu hold
  · intro p pdu' hp
    obtain ⟨pdu, hpdu, hframes, -⟩ := hpdus p pdu' hp
    rw [hframes]
    exact h.size p pdu hpdu
  · intro p pdu' hp hplace
    obtain ⟨pdu, hpdu, hframes, hflags, hdown, -⟩ := hpdus p pdu' hp
    rw [hframes, hflags, hrecords]
    exact h.down p pdu hpdu (hdown.1 hplace)
  · rw [hlog]
    exact h.once
  · intro e he
    rw [hlog] at he
    obtain ⟨hlt, hnone⟩ := h.gone e he
    refine ⟨hnext ▸ hlt, ?_⟩
    cases hp : s'.pdus e.2 with
    | none => rfl
    | some pdu' =>
      obtain ⟨pdu, hpdu, -⟩ := hpdus e.2 pdu' hp
      rw [hnone] at hpdu
      cases hpdu
  · intro p pdu' n hp hstream hfail
    rw [hfailed] at hfail
    obtain ⟨pdu, hpdu, -, -, hdown, -, ⟨hkeep, htotal⟩ | ⟨-, m, -, hnew, hok⟩⟩ := hpdus p pdu' hp
    · obtain ⟨hplace, hle⟩ := h.fails p pdu n hpdu (hkeep ▸ hstream) hfail
      exact ⟨fun hd => hplace (hdown.1 hd), htotal ▸ hle⟩
    · rw [hnew] at hstream
      cases hstream
      rw [hok] at hfail
      cases hfail

/-- The header has been put. -/
theorem Bytes.start (h : Bytes s) (n : ℕ) (pdu' : Pdu) (bs : List UInt8)
    (hp : s.pdus p = some pdu) (hdown : pdu.place = .down) (hplace : pdu'.place ≠ .down)
    (hframes : pdu'.frames = pdu.frames) (htotal : pdu'.cTotal = pduSize pdu.frames)
    (hstream : pdu'.stream = some n) (hn : n < s'.fresh) (hok : s.failed n = false)
    (hfree : ∀ q x, ¬ SendsOn s q n x) (hbs : bs ++ contents pdu.frames = s.records p)
    (hfresh : s.fresh ≤ s'.fresh) (hout : s'.out = Function.update s.out n (s.out n ++ bs))
    (hpdus : s'.pdus = Function.update s.pdus p (some pdu')) (hlog : s'.log = s.log)
    (hrecords : s'.records = s.records) (hnext : s'.next = s.next)
    (hfailed : s'.failed = s.failed) : Bytes s' := by
  have hlogged (m : ℕ) : logged s' m = logged s m :=
    logged_congr hlog (fun e _ => by rw [hrecords]) m
  have hself : s'.pdus p = some pdu' := by rw [hpdus, Function.update_self]
  have hother {q : ℕ} (hq : q ≠ p) : s'.pdus q = s.pdus q := by
    rw [hpdus, Function.update_of_ne hq]
  have hmine : SendsOn s' p n pdu' := ⟨hself, hplace, hstream⟩
  constructor
  · intro m hm
    have hne : m ≠ n := fun heq => Nat.not_le_of_lt hn (heq ▸ hm)
    rw [hout, hlog, hfailed, Function.update_of_ne hne]
    exact h.blank m (Nat.le_trans hfresh hm)
  · intro q x m hq hx
    by_cases hqp : q = p
    · rw [hqp, hself] at hq
      cases hq
      rw [hstream] at hx
      cases hx
      exact hn
    · rw [hother hqp] at hq
      exact Nat.lt_of_lt_of_le (h.known q x m hq hx) hfresh
  · intro m hm
    have hne : m ≠ n := fun heq => hm p pdu' (heq ▸ hmine)
    rw [hout, hlogged, Function.update_of_ne hne]
    refine h.whole m ?_
    intro q x hs
    have hqp : q ≠ p := by
      rintro rfl
      have heq := Option.some.inj (hp.symm.trans hs.1)
      exact hs.2.1 (heq ▸ hdown)
    exact hm q x ⟨(hother hqp).trans hs.1, hs.2⟩
  · intro q m x hs
    by_cases hqp : q = p
    · obtain ⟨hq, -, hx⟩ := hs
      rw [hqp, hself] at hq
      cases hq
      rw [hstream] at hx
      cases hx
      refine ⟨by rw [htotal, hframes, pduSize_eq (h.size p pdu hp)], bs, ?_, ?_⟩
      · rw [hout, Function.update_self, hlogged, h.whole n hfree]
      · rw [hframes, hrecords, hqp, hbs]
    · have hold : SendsOn s q m x := ⟨(hother hqp).symm.trans hs.1, hs.2⟩
      have hne : m ≠ n := fun heq => hfree q x (heq ▸ hold)
      rw [hout, hlogged, hrecords, Function.update_of_ne hne]
      exact h.part q m x hold
  · intro q x hq
    by_cases hqp : q = p
    · rw [hqp, hself] at hq
      cases hq
      rw [hframes]
      exact h.size p pdu hp
    · exact h.size q x ((hother hqp).symm.trans hq)
  · intro q x hq hx
    by_cases hqp : q = p
    · rw [hqp, hself] at hq
      cases hq
      exact absurd hx hplace
    · rw [hrecords]
      exact h.down q x ((hother hqp).symm.trans hq) hx
  · rw [hlog]
    exact h.once
  · intro e he
    rw [hlog] at he
    obtain ⟨hlt, hnone⟩ := h.gone e he
    have hne : e.2 ≠ p := by
      rintro heq
      rw [heq, hp] at hnone
      cases hnone
    exact ⟨hnext ▸ hlt, (hother hne).trans hnone⟩
  · intro q x m hq hx hfail
    rw [hfailed] at hfail
    by_cases hqp : q = p
    · rw [hqp, hself] at hq
      cases hq
      rw [hstream] at hx
      cases hx
      rw [hok] at hfail
      cases hfail
    · exact h.fails q x m ((hother hqp).symm.trans hq) hx hfail

/-- A part of the body has been put, and there is more. -/
theorem Bytes.write (h : Bytes s) {n : ℕ} (pdu' : Pdu) (bs : List UInt8)
    (hp : SendsOn s p n pdu) (hplace : pdu'.place ≠ .down)
    (hframes : bs ++ contents pdu'.frames = contents pdu.frames)
    (htotal : pdu'.cTotal = pdu.cTotal - bs.length) (hstream : pdu'.stream = some n)
    (halone : ∀ q x, SendsOn s q n x → q = p)
    (hfresh : s'.fresh = s.fresh) (hout : s'.out = Function.update s.out n (s.out n ++ bs))
    (hpdus : s'.pdus = Function.update s.pdus p (some pdu')) (hlog : s'.log = s.log)
    (hrecords : s'.records = s.records) (hnext : s'.next = s.next)
    (hfailed : s'.failed = s.failed) : Bytes s' := by
  have hlogged (m : ℕ) : logged s' m = logged s m :=
    logged_congr hlog (fun e _ => by rw [hrecords]) m
  have hself : s'.pdus p = some pdu' := by rw [hpdus, Function.update_self]
  have hother {q : ℕ} (hq : q ≠ p) : s'.pdus q = s.pdus q := by
    rw [hpdus, Function.update_of_ne hq]
  have hmine : SendsOn s' p n pdu' := ⟨hself, hplace, hstream⟩
  have hn := h.known p pdu n hp.1 hp.2.2
  have hlen : (contents pdu.frames).length = bs.length + (contents pdu'.frames).length := by
    rw [← hframes, List.length_append]
  constructor
  · intro m hm
    rw [hfresh] at hm
    have hne : m ≠ n := fun heq => Nat.not_le_of_lt hn (heq ▸ hm)
    rw [hout, hlog, hfailed, Function.update_of_ne hne]
    exact h.blank m hm
  · intro q x m hq hx
    rw [hfresh]
    by_cases hqp : q = p
    · rw [hqp, hself] at hq
      cases hq
      rw [hstream] at hx
      cases hx
      exact hn
    · exact h.known q x m ((hother hqp).symm.trans hq) hx
  · intro m hm
    have hne : m ≠ n := fun heq => hm p pdu' (heq ▸ hmine)
    rw [hout, hlogged, Function.update_of_ne hne]
    refine h.whole m ?_
    intro q x hs
    have hqp : q ≠ p := by
      rintro rfl
      have heq := Option.some.inj (hp.1.symm.trans hs.1)
      exact hne (Option.some.inj ((heq ▸ hs.2.2).symm.trans hp.2.2))
    exact hm q x ⟨(hother hqp).trans hs.1, hs.2⟩
  · intro q m x hs
    by_cases hqp : q = p
    · obtain ⟨hq, -, hx⟩ := hs
      rw [hqp, hself] at hq
      cases hq
      rw [hstream] at hx
      cases hx
      obtain ⟨hcount, part, hpart, hrest⟩ := h.part p n pdu hp
      refine ⟨by rw [htotal, hcount]; omega, part ++ bs, ?_, ?_⟩
      · rw [hout, Function.update_self, hlogged, hpart, List.append_assoc]
      · rw [List.append_assoc, hframes, hrecords, hqp, hrest]
    · have hold : SendsOn s q m x := ⟨(hother hqp).symm.trans hs.1, hs.2⟩
      have hne : m ≠ n := fun heq => hqp (halone q x (heq ▸ hold))
      rw [hout, hlogged, hrecords, Function.update_of_ne hne]
      exact h.part q m x hold
  · intro q x hq
    by_cases hqp : q = p
    · rw [hqp, hself] at hq
      cases hq
      have hsize := h.size p pdu hp.1
      omega
    · exact h.size q x ((hother hqp).symm.trans hq)
  · intro q x hq hx
    by_cases hqp : q = p
    · rw [hqp, hself] at hq
      cases hq
      exact absurd hx hplace
    · rw [hrecords]
      exact h.down q x ((hother hqp).symm.trans hq) hx
  · rw [hlog]
    exact h.once
  · intro e he
    rw [hlog] at he
    obtain ⟨hlt, hnone⟩ := h.gone e he
    have hne : e.2 ≠ p := by
      rintro heq
      rw [heq, hp.1] at hnone
      cases hnone
    exact ⟨hnext ▸ hlt, (hother hne).trans hnone⟩
  · intro q x m hq hx hfail
    rw [hfailed] at hfail
    by_cases hqp : q = p
    · rw [hqp, hself] at hq
      cases hq
      rw [hstream] at hx
      cases hx
      have hle := (h.fails p pdu n hp.1 hp.2.2 hfail).2
      exact ⟨hplace, by omega⟩
    · exact h.fails q x m ((hother hqp).symm.trans hq) hx hfail

/-- A record is complete. -/
theorem Bytes.complete (h : Bytes s) {n : ℕ} {bs : List UInt8} (hp : s.pdus p = some pdu)
    (hn : n < s.fresh) (hbs : s.out n ++ bs = logged s n ++ s.records p)
    (halone : ∀ q x, SendsOn s q n x → q = p)
    (hmine : ∀ m x, SendsOn s p m x → m = n)
    (hfresh : s'.fresh = s.fresh) (hout : s'.out = Function.update s.out n (s.out n ++ bs))
    (hpdus : s'.pdus = Function.update s.pdus p none) (hlog : s'.log = s.log ++ [(n, p)])
    (hrecords : s'.records = s.records) (hnext : s'.next = s.next) (hlt : p < s.next)
    (hfailed : s'.failed = s.failed) : Bytes s' := by
  have hlogged (m : ℕ) : logged s' m = logged s m ++ if n = m then s.records p else [] := by
    rw [← logged_cons s n p m]
    exact logged_congr (s := { s with log := s.log ++ [(n, p)] }) hlog
      (fun e _ => by rw [hrecords]) m
  have hself : s'.pdus p = none := by rw [hpdus, Function.update_self]
  have hother {q : ℕ} (hq : q ≠ p) : s'.pdus q = s.pdus q := by
    rw [hpdus, Function.update_of_ne hq]
  have hold {q : ℕ} {x : Pdu} (hq : s'.pdus q = some x) : q ≠ p ∧ s.pdus q = some x := by
    have hqp : q ≠ p := by
      rintro rfl
      rw [hself] at hq
      cases hq
    exact ⟨hqp, (hother hqp).symm.trans hq⟩
  constructor
  · intro m hm
    rw [hfresh] at hm
    have hne : m ≠ n := fun heq => Nat.not_le_of_lt hn (heq ▸ hm)
    obtain ⟨hblank, hok, hnone⟩ := h.blank m hm
    rw [hout, hlog, hfailed, Function.update_of_ne hne]
    refine ⟨hblank, hok, ?_⟩
    intro e he
    rcases List.mem_append.1 he with he | he
    · exact hnone e he
    · rw [List.mem_singleton.1 he]
      exact hne.symm
  · intro q x m hq hx
    rw [hfresh]
    exact h.known q x m (hold hq).2 hx
  · intro m hm
    rw [hout, hlogged]
    by_cases hne : m = n
    · rw [hne, Function.update_self, if_pos rfl, hbs]
    · rw [Function.update_of_ne hne, if_neg (Ne.symm hne), List.append_nil]
      refine h.whole m ?_
      intro q x hs
      have hqp : q ≠ p := by
        rintro rfl
        exact hne (hmine m x hs)
      exact hm q x ⟨(hother hqp).trans hs.1, hs.2⟩
  · intro q m x hs
    obtain ⟨hqp, hq⟩ := hold hs.1
    have hs' : SendsOn s q m x := ⟨hq, hs.2⟩
    have hne : m ≠ n := fun heq => hqp (halone q x (heq ▸ hs'))
    rw [hout, hlogged, hrecords, Function.update_of_ne hne, if_neg (Ne.symm hne), List.append_nil]
    exact h.part q m x hs'
  · intro q x hq
    exact h.size q x (hold hq).2
  · intro q x hq hx
    rw [hrecords]
    exact h.down q x (hold hq).2 hx
  · rw [hlog, List.map_append, List.nodup_append]
    refine ⟨h.once, by simp, ?_⟩
    intro q hq q' hq'
    obtain ⟨e, he, rfl⟩ := List.mem_map.1 hq
    rintro rfl
    obtain rfl : e.2 = p := by simpa using hq'
    have hnone := (h.gone e he).2
    rw [hp] at hnone
    cases hnone
  · intro e he
    rw [hlog] at he
    rw [hnext]
    rcases List.mem_append.1 he with he | he
    · obtain ⟨hlt', hnone⟩ := h.gone e he
      refine ⟨hlt', ?_⟩
      by_cases heq : e.2 = p
      · rw [heq, hself]
      · rw [hother heq, hnone]
    · rw [List.mem_singleton.1 he]
      exact ⟨hlt, hself⟩
  · intro q x m hq hx hfail
    rw [hfailed] at hfail
    exact h.fails q x m (hold hq).2 hx hfail

/-! ## Every sound step keeps the bytes -/

/-- A PDU that is not being sent is changed or leaves, and nothing is put. -/
theorem Bytes.quiet (h : Bytes s) {o : Option Pdu} (hp : s.pdus p = some pdu)
    (hdown : pdu.place = .down)
    (ho : ∀ x, o = some x → x.frames = pdu.frames ∧ x.flags = pdu.flags ∧ x.place = .down ∧
      ∃ n < s'.fresh, x.stream = some n ∧ s.failed n = false)
    (hfresh : s.fresh ≤ s'.fresh) (hout : s'.out = s.out) (hlog : s'.log = s.log)
    (hrecords : s'.records = s.records) (hnext : s'.next = s.next)
    (hfailed : s'.failed = s.failed) (hpdus : s'.pdus = Function.update s.pdus p o) :
    Bytes s' := by
  refine h.frame hfresh hout hlog hrecords hnext hfailed ?_ ?_
  · intro q x hq
    rw [hpdus] at hq
    by_cases hqp : q = p
    · rw [hqp, Function.update_self] at hq
      obtain ⟨hframes, hflags, hplace, hnew⟩ := ho x hq
      exact ⟨pdu, hqp ▸ hp, hframes, hflags, by simp [hplace, hdown],
        fun hx => absurd hplace hx, Or.inr ⟨hdown, hnew⟩⟩
    · rw [Function.update_of_ne hqp] at hq
      exact ⟨x, hq, rfl, rfl, Iff.rfl, fun _ => rfl, Or.inl ⟨rfl, rfl⟩⟩
  · intro q n x hs
    have hqp : q ≠ p := by
      rintro rfl
      have heq := Option.some.inj (hp.symm.trans hs.1)
      exact hs.2.1 (heq ▸ hdown)
    exact ⟨x, by rw [hpdus, Function.update_of_ne hqp]; exact hs.1, hs.2⟩

theorem conn_open (s : State) (c : ℕ) : (s.open c).conn c = s.fresh :=
  Function.update_self _ _ _

/-- The header has been put as a whole, or not at all. -/
theorem Bytes.sendHeader (h : Bytes s) {t : State} {r : Option ℕ} (hp : s.pdus p = some pdu)
    (hdown : pdu.place = .down) (hn : t.conn c < t.fresh) (hok : s.failed (t.conn c) = false)
    (hfree : ∀ q x, ¬ SendsOn s q (t.conn c) x)
    (hr : ∀ k, r = some k → Transport.sizeofConnectionHeader ≤ k) (hfresh : s.fresh ≤ t.fresh)
    (hout : t.out = s.out) (hlog : t.log = s.log) (hrecords : t.records = s.records)
    (hnext : t.next = s.next) (hfailed : t.failed = s.failed) (hpdus : t.pdus = s.pdus) :
    Bytes (t.sendHeader p pdu c r) := by
  cases r with
  | none =>
    refine h.quiet (o := some { pdu with
      cId := some c, cTotal := pduSize pdu.frames, stream := some (t.conn c) }) hp hdown ?_
      hfresh hout hlog hrecords hnext hfailed (hpdus ▸ rfl)
    intro x hx
    cases hx
    exact ⟨rfl, rfl, hdown, t.conn c, hn, rfl, hok⟩
  | some k =>
    have hwhole : ((header pdu.flags pdu.frames).write []).take k =
        (header pdu.flags pdu.frames).write [] := by
      rw [List.take_of_length_le]
      rw [ConnectionHeader.length_write]
      exact hr k rfl
    refine h.start (t.conn c) { pdu with
      cId := some c, cTotal := pduSize pdu.frames, stream := some (t.conn c), place := .async }
      ((header pdu.flags pdu.frames).write []) hp hdown (by simp) rfl rfl rfl hn hok hfree
      ?_ hfresh ?_ ?_ hlog hrecords hnext hfailed
    · rw [← h.down p pdu hp hdown, record, ConnectionHeader.write_eq _ (contents pdu.frames)]
    · show Function.update t.out (t.conn c) (t.out (t.conn c) ++ _) = _
      rw [hwhole, hout]
    · show Function.update t.pdus p _ = _
      rw [hpdus]

theorem Bytes.downStep (h : Bytes s) (hl : LockInv s) {r : Option ℕ} (hp : s.pdus p = some pdu)
    (hdown : pdu.place = .down) (connect : Bool) (hsound : Sound max s (.down p connect r)) :
    Bytes (s.down max p pdu connect r) := by
  obtain ⟨hr, hbroken⟩ := hsound pdu hp
  have hlt : p < s.next := by
    by_contra hge
    rw [hl.ids p (Nat.le_of_not_lt hge)] at hp
    cases hp
  have hnone {k : ℕ} : ∀ x, (none : Option Pdu) = some x → x.frames = pdu.frames ∧
      x.flags = pdu.flags ∧ x.place = .down ∧
        ∃ n < k, x.stream = some n ∧ s.failed n = false := by
    intro x hx
    cases hx
  unfold State.down
  split_ifs with hcontrol
  · rcases downControl_cases s max p pdu r with ⟨t, -, heq⟩ | ⟨c, k, t, hc, -, hk, heq⟩
    · rw [heq]
      exact h.quiet hp hdown hnone (Nat.le_refl _) rfl rfl rfl rfl rfl rfl
    · have hlen := hr k hk
      rw [if_pos hcontrol] at hlen
      rw [heq, if_pos hlen, List.take_of_length_le hlen]
      have hfree := hl.not_sendsOn hc
      refine h.complete hp (hl.locks.conn_lt c (by simp [hc])) ?_
        (fun q x hs => absurd hs (hfree q x)) ?_ rfl rfl rfl rfl rfl rfl hlt rfl
      · rw [h.whole _ hfree, h.down p pdu hp hdown]
      · intro m x hs
        have heq := Option.some.inj (hp.symm.trans hs.1)
        exact absurd (heq ▸ hdown) hs.2.1
  · have hcut : ∀ k, r = some k → Transport.sizeofConnectionHeader ≤ k := by
      intro k hk
      have hlen := hr k hk
      rwa [if_neg hcontrol] at hlen
    rcases downTransport_cases s max p pdu connect r with ⟨t, -, -, heq⟩ | ⟨c, hc, hlook, heq⟩ |
      ⟨c, hc, -, heq⟩
    · obtain ⟨l, hrefuse⟩ := refuse_pdus { s with table := t } p pdu
      rw [heq, hrefuse]
      exact h.quiet hp hdown hnone (Nat.le_refl _) rfl rfl rfl rfl rfl rfl
    · have hok : s.failed (s.conn c) = false := by
        by_contra hfail
        exact hbroken (by simpa using hcontrol) ⟨c, hlook, by simpa using hfail⟩
      rw [heq]
      exact h.sendHeader hp hdown (hl.locks.conn_lt c (by simp [hc])) hok (hl.not_sendsOn hc)
        hcut (Nat.le_refl _) rfl rfl rfl rfl rfl rfl
    · obtain ⟨-, hok, -⟩ := h.blank s.fresh (Nat.le_refl _)
      rw [heq]
      refine h.sendHeader hp hdown ?_ ?_ ?_ hcut (Nat.le_succ _) rfl rfl rfl rfl rfl rfl
      · rw [conn_open]
        exact Nat.lt_succ_self _
      · rw [conn_open]
        exact hok
      · intro q x hs
        rw [conn_open] at hs
        exact Nat.lt_irrefl _ (h.known q x s.fresh hs.1 hs.2.2)

theorem Bytes.asyncStep (h : Bytes s) (hl : LockInv s) (hp : s.pdus p = some pdu)
    (hplace : pdu.place ≠ .down) (hc : pdu.cId = some c) (rs : List (Option ℕ)) :
    Bytes (s.asyncSend p pdu c rs) := by
  have hlt : p < s.next := by
    by_contra hge
    rw [hl.ids p (Nat.le_of_not_lt hge)] at hp
    cases hp
  obtain ⟨c', hc', hstream⟩ := hl.place p pdu hp hplace
  obtain rfl := Option.some.inj (hc'.symm.trans hc)
  have hsends : Sends s p c' := ⟨pdu, hp, hplace, hc⟩
  have hon : SendsOn s p (s.conn c') pdu := ⟨hp, hplace, hstream⟩
  obtain ⟨hst, honly⟩ := hl.locks.sends p c' hsends
  have halone (q : ℕ) (x : Pdu) (hs : SendsOn s q (s.conn c') x) : q = p :=
    honly q (hl.slot (by simp [hst]) hs)
  obtain ⟨hwrap, hsent⟩ := erase_sent (h.size p pdu hp) rs
  obtain ⟨htotal, part, hpart, hrest⟩ := h.part p _ pdu hon
  rcases asyncSend_cases s p pdu c' rs with ⟨-, place, hdown, -, heq⟩ | ⟨hle, heq⟩
  · rw [heq]
    refine h.write { pdu with
      frames := (frameErase pdu.frames (wrapInt (frameSend pdu.frames rs).length).toNat).2
      cTotal := pdu.cTotal - wrapInt (frameSend pdu.frames rs).length
      place } _ hon hdown hsent ?_ hstream halone rfl rfl rfl rfl rfl rfl rfl
    dsimp only
    rw [hwrap]
  · have hall : frameSend pdu.frames rs = contents pdu.frames := by
      have hlen := congrArg List.length hsent
      rw [List.length_append] at hlen
      rw [← hsent, List.length_eq_zero_iff.1 (by omega : (contents _).length = 0),
        List.append_nil]
    rw [heq]
    refine h.complete hp (h.known p pdu _ hp hstream) ?_ halone ?_ rfl rfl rfl rfl rfl rfl hlt rfl
    · rw [hpart, hall, List.append_assoc, hrest]
    · intro m x hs
      have hx := Option.some.inj (hp.symm.trans hs.1)
      exact Option.some.inj ((hx ▸ hs.2.2).symm.trans hstream)

theorem Bytes.init : Bytes State.init where
  blank := fun _ _ => ⟨rfl, rfl, fun e he => by cases he⟩
  known := by
    intro p x n hx
    cases hx
  whole := fun _ _ => rfl
  part := by
    intro p n x hs
    cases hs.1
  size := by
    intro p x hx
    cases hx
  down := by
    intro p x hx
    cases hx
  once := List.nodup_nil
  gone := by
    intro e he
    cases he
  fails := by
    intro p x n hx
    cases hx

theorem Bytes.submit (h : Bytes s) (hl : LockInv s) (flags : UInt16) (addr : SockAddr)
    {frames : List Frame} (hsize : (contents frames).length < 2 ^ 31) :
    Bytes { s.setPdu s.next (some ⟨flags, .success, addr, frames, none, 0, .down, none⟩) with
      next := s.next + 1
      records := Function.update s.records s.next (record flags frames) } := by
  have hnew := hl.ids s.next (Nat.le_refl _)
  have hne {q : ℕ} {x : Pdu} (hq : s.pdus q = some x) : q ≠ s.next := by
    rintro rfl
    rw [hnew] at hq
    cases hq
  have hlogged (m : ℕ) : logged { s.setPdu s.next
      (some ⟨flags, .success, addr, frames, none, 0, .down, none⟩) with
      next := s.next + 1
      records := Function.update s.records s.next (record flags frames) } m = logged s m := by
    refine logged_congr (s := s) ?_ ?_ m
    · rfl
    intro e he
    exact Function.update_of_ne (Nat.ne_of_lt (h.gone e he).1) _ _
  have hold {q : ℕ} {x : Pdu} (hq : Function.update s.pdus s.next
      (some ⟨flags, .success, addr, frames, none, 0, .down, none⟩) q = some x) :
      s.pdus q = some x ∨ q = s.next ∧
        x = ⟨flags, .success, addr, frames, none, 0, .down, none⟩ := by
    by_cases hqp : q = s.next
    · rw [hqp, Function.update_self] at hq
      cases hq
      exact Or.inr ⟨hqp, rfl⟩
    · rw [Function.update_of_ne hqp] at hq
      exact Or.inl hq
  constructor
  · exact h.blank
  · intro q x m hq hx
    rcases hold hq with hq | ⟨-, rfl⟩
    · exact h.known q x m hq hx
    · cases hx
  · intro m hm
    rw [hlogged]
    refine h.whole m ?_
    intro q x hs
    exact hm q x ⟨(Function.update_of_ne (hne hs.1) _ _).trans hs.1, hs.2⟩
  · intro q m x hs
    rcases hold hs.1 with hq | ⟨-, rfl⟩
    · rw [hlogged]
      dsimp only
      rw [Function.update_of_ne (hne hq)]
      exact h.part q m x ⟨hq, hs.2⟩
    · exact absurd rfl hs.2.1
  · intro q x hq
    rcases hold hq with hq | ⟨-, rfl⟩
    · exact h.size q x hq
    · exact hsize
  · intro q x hq hx
    dsimp only
    rcases hold hq with hq | ⟨rfl, rfl⟩
    · rw [Function.update_of_ne (hne hq)]
      exact h.down q x hq hx
    · rw [Function.update_self]
  · exact h.once
  · intro e he
    obtain ⟨hlt, hnone⟩ := h.gone e he
    exact ⟨Nat.lt_succ_of_lt hlt, (Function.update_of_ne (Nat.ne_of_lt hlt) _ _).trans hnone⟩
  · intro q x m hq hx hfail
    rcases hold hq with hq | ⟨-, rfl⟩
    · exact h.fails q x m hq hx hfail
    · cases hx

/-- A step that the PDUs and the bytes have no part in. -/
theorem Bytes.idle (h : Bytes s) (hfresh : s.fresh ≤ s'.fresh) (hout : s'.out = s.out)
    (hlog : s'.log = s.log) (hrecords : s'.records = s.records) (hnext : s'.next = s.next)
    (hfailed : s'.failed = s.failed) (hpdus : s'.pdus = s.pdus) : Bytes s' := by
  refine h.frame hfresh hout hlog hrecords hnext hfailed ?_ ?_
  · intro q x hq
    exact ⟨x, hpdus ▸ hq, rfl, rfl, Iff.rfl, fun _ => rfl, Or.inl ⟨rfl, rfl⟩⟩
  · intro q n x hs
    exact ⟨x, hpdus ▸ hs.1, hs.2⟩

theorem Bytes.step (h : Bytes s) (hl : LockInv s) (hsound : Sound max s op)
    (hstep : Step max s op s') : Bytes s' := by
  cases hstep with
  | submit flags addr frames => exact h.submit hl flags addr hsound
  | down connect r run place => exact h.downStep hl run place connect hsound
  | async rs run place con => exact h.asyncStep hl run (by rw [place]; decide) con rs
  | sigio =>
    refine h.frame (Nat.le_refl _) rfl rfl rfl rfl rfl ?_ ?_
    · intro q x hx
      obtain ⟨y, hy, rfl⟩ := Option.map_eq_some_iff.1 hx
      exact ⟨y, hy, rfl, rfl, not_iff_not.1 (wake_place y), fun _ => rfl, Or.inl ⟨rfl, rfl⟩⟩
    · intro q n x hs
      exact ⟨x.wake, Option.map_eq_some_iff.2 ⟨x, hs.1, rfl⟩, (wake_place x).2 hs.2.1, hs.2.2⟩
  | hold lock => exact h.idle (Nat.le_refl _) rfl rfl rfl rfl rfl rfl
  | release held => exact h.idle (Nat.le_refl _) rfl rfl rfl rfl rfl rfl
  | close held => exact h.idle (Nat.le_refl _) rfl rfl rfl rfl rfl rfl
  | accept addr =>
    unfold State.accept
    rcases conNew_cases s.table max addr with heq | ⟨c, -, heq⟩
    · rw [heq]
      exact h
    · rw [heq]
      exact h.idle (Nat.le_succ _) rfl rfl rfl rfl rfl rfl
  | @fail c used =>
    have hlt := hl.locks.conn_lt c used
    refine ⟨?_, h.known, h.whole, h.part, h.size, h.down, h.once, h.gone, ?_⟩
    · intro n hn
      obtain ⟨hout, hok, hnone⟩ := h.blank n hn
      have hne : n ≠ s.conn c := fun heq => Nat.not_le_of_lt hlt (heq ▸ hn)
      exact ⟨hout, (Function.update_of_ne hne _ _).trans hok, hnone⟩
    · intro q x n hq hx hfail
      by_cases hn : n = s.conn c
      · subst hn
        exact hsound q x hq hx
      · exact h.fails q x n hq hx ((Function.update_of_ne hn _ _).symm.trans hfail)

theorem Reaches.bytes (hs : Reaches max (Sound max) s) : Bytes s := by
  induction hs with
  | init => exact Bytes.init
  | step hs hok hstep ih => exact ih.step hs.lockInv hok hstep

end Mlvm.Sending
