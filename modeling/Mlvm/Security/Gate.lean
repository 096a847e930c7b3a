import Mlvm.Security.Transparency

/-!
# The gate of the security layer

What is marked as encrypted is to be passed on only when its header says what it must (`Opened`).

**What can go wrong.** The code declares arrays with the lengths that it has read: a length that is
missing or not positive, a clear text that is longer than its array, or a session key of less than
32 bytes make it undefined (`Sized`). And a server that has been built without signatures passes on
what is marked as signed without any verification (`Unverified`). Nothing else does (`guarded_iff`).

Main result: `security_exact`.
-/

namespace Mlvm.Security

open Transport (Frame contents)
open Frames

variable {L : Library}

/-! ## Lengths -/

/-- There is a length and it is positive. -/
def PositiveShort (bs : Bytes) : Prop := 2 ≤ bs.length ∧ 0 < shortOf (bs.take 2)

/-- Without a positive length the array is not defined. -/
theorem readPrefixed_eq_fault {stale : ℤ} {lt : List Frame} {next : Bytes → List Frame → Up}
    (hstale : stale ≤ 0) (h : ¬ PositiveShort (contents lt)) :
    readPrefixed stale lt next = .fault := by
  obtain ⟨lt', -, hrun⟩ := readShort_eq stale lt
  rw [readPrefixed, hrun]
  by_cases hlen : 2 ≤ (contents lt).length
  · have hnot : shortOf ((contents lt).take 2) ≤ 0 := Int.not_lt.1 fun hpos => h ⟨hlen, hpos⟩
    simp [hlen, hnot]
  · simp [hlen, hstale]

/-- **A string that is read** has a positive length, and all its bytes were there. -/
theorem readPrefixed_cases (stale : ℤ) (lt : List Frame) (next : Bytes → List Frame → Up) :
    (¬ PositiveShort (contents lt) ∧ readPrefixed stale lt next = .fault) ∨
    readPrefixed stale lt next = .freed ∨
    ∃ eString lt', Prefixed (contents lt) eString (contents lt') ∧
      readPrefixed stale lt next = next eString lt' := by
  obtain ⟨lt₁, hlt₁, hrun⟩ := readShort_eq stale lt
  rw [readPrefixed, hrun]
  by_cases hlen : 2 ≤ (contents lt).length
  · rw [if_pos hlen]
    by_cases hpos : 0 < shortOf ((contents lt).take 2)
    · obtain ⟨n, hn⟩ := Int.eq_ofNat_of_zero_le hpos.le
      obtain ⟨lt₂, hread, hlt₂⟩ := frameReadString_eq lt₁ n
      rw [hn] at hpos ⊢
      simp only [Int.not_le.2 hpos, if_false, Int.toNat_natCast, hread]
      split_ifs with hshort
      · exact .inr (.inl rfl)
      · refine .inr (.inr ⟨_, lt₂, ⟨(contents lt).take 2, ?_, ?_, ?_, ?_⟩, rfl⟩)
        · rw [hlt₂, List.take_append_drop, hlt₁, List.take_append_drop]
        · rw [List.length_take]
          exact Nat.min_eq_left hlen
        · rw [hn]
          exact hpos
        · rw [hn, List.length_take]
          omega
    · exact .inl ⟨fun h => hpos h.2, by simp [Int.not_lt.1 hpos]⟩
  · rw [if_neg hlen]
    by_cases hpos : 0 < stale
    · obtain ⟨n, rfl⟩ := Int.eq_ofNat_of_zero_le hpos.le
      obtain ⟨lt₂, hread, hlt₂⟩ := frameReadString_eq lt₁ n
      have hempty : contents lt₁ = [] := by
        rw [hlt₁, List.drop_eq_nil_iff]
        omega
      refine .inr (.inl ?_)
      simp only [Int.not_le.2 hpos, if_false, Int.toNat_natCast, hread, hempty, List.length_nil,
        Nat.min_zero]
      exact if_pos hpos
    · exact .inl ⟨fun h => hlen h.1, by simp [Int.not_lt.1 hpos]⟩

theorem Prefixed.positiveShort {bs eString data : Bytes} (h : Prefixed bs eString data) :
    PositiveShort bs := by
  obtain ⟨len, rfl, hlen, hpos, -⟩ := h
  refine ⟨by rw [List.length_append, hlen]; exact Nat.le_add_right _ _, ?_⟩
  rwa [List.take_left' hlen]

/-! ## Clear texts -/

/-- What is decrypted is no longer than it was before. -/
def Roomy (host : HostKey L) (e : Bytes) : Prop :=
  ∀ m, L.privateDecrypt host.rsa e = some m → m.length ≤ e.length

theorem decryptString_of_roomy {host : HostKey L} {e : Bytes} (h : Roomy host e)
    (next : Option Bytes → Up) :
    decryptString host e next = next (L.privateDecrypt host.rsa e) := by
  rw [decryptString]
  cases hm : L.privateDecrypt host.rsa e with
  | none => rfl
  | some m => exact if_neg (Nat.not_lt.2 (h m hm))

theorem decryptString_of_lt {host : HostKey L} {e m : Bytes}
    (hm : L.privateDecrypt host.rsa e = some m)
    (hlt : e.length < m.length) (next : Option Bytes → Up) :
    decryptString host e next = .fault := by
  rw [decryptString, hm]
  exact if_pos hlt

theorem useSessionKey_of_lt {m : Bytes} (h : m.length < sessionKeyLength) (next : Bytes → Up) :
    useSessionKey m next = .fault := if_pos h

/-! ## The gate -/

/-- The server verifies signatures, and there is one that is good by the recorded key of the source.
-/
def Signed (r : Receiver L) (sessionKey bs : Bytes) : Prop :=
  r.signing = true ∧ ∃ eSign data, Prefixed bs eSign data ∧
    r.verified sessionKey (L.privateDecrypt r.host.rsa eSign) = true

/-- What must hold of the bytes after the flags for a PDU to be passed on. -/
def Opened (r : Receiver L) (flags : UInt8) (bs : Bytes) : Prop :=
  ∃ cipher tail eSessionKey data m, bs = cipher :: tail ∧ Prefixed tail eSessionKey data ∧
    L.privateDecrypt r.host.rsa eSessionKey = some m ∧ sessionKeyLength ≤ m.length ∧
    (flags &&& 0x02 ≠ 0 → Signed r (m.take sessionKeyLength) data)

/-- The arrays for the signature are long enough, and so is the session key. -/
def SignatureSized (signing : Bool) (host : HostKey L) (m eSign : Bytes) : Prop :=
  sessionKeyLength ≤ m.length ∧ (signing = true → Roomy host eSign)

/-- The arrays for the session key are long enough, and those for what is behind it. -/
def KeySized (signing : Bool) (host : HostKey L) (flags : UInt8) (eSessionKey bs : Bytes) : Prop :=
  ∀ m, L.privateDecrypt host.rsa eSessionKey = some m → m.length ≤ eSessionKey.length ∧
    if flags &&& 0x02 ≠ 0 then
      PositiveShort bs ∧ ∀ eSign data, Prefixed bs eSign data → SignatureSized signing host m eSign
    else sessionKeyLength ≤ m.length

/-- **The arrays that are reached are long enough**: the lengths are there and positive, no clear
text is longer than its array, and the session key has all its bytes. -/
def Sized (signing : Bool) (host : HostKey L) (flags : UInt8) (bs : Bytes) : Prop :=
  PositiveShort (bs.drop 1) ∧ ∀ eSessionKey data, Prefixed (bs.drop 1) eSessionKey data →
    KeySized signing host flags eSessionKey data

/-- A signature is skipped, and the cipher accepts the data. -/
def Skipped (cipher : UInt8) (m bs : Bytes) : Prop :=
  ∃ eSign data, Prefixed bs eSign data ∧
    (outputs L (m.take sessionKeyLength) cipher false data).isSome

/-- **A signature that nobody verifies**: the server has been built without signatures, and the PDU
is marked as signed and has all that is read of it. -/
def Unverified (signing : Bool) (host : HostKey L) (flags : UInt8) (bs : Bytes) : Prop :=
  signing = false ∧ flags &&& 0x02 ≠ 0 ∧ ∃ eSessionKey data m,
    Prefixed (bs.drop 1) eSessionKey data ∧ L.privateDecrypt host.rsa eSessionKey = some m ∧
    Skipped (L := L) (bs.headD 0) m data

/-- The decryption of the data. -/
theorem decryptData_cases (r : Receiver L) (m : Bytes) (cipher : UInt8) (frames : List Frame) :
    (m.length < sessionKeyLength ∧ decryptData r m cipher frames = .fault) ∨
    (sessionKeyLength ≤ m.length ∧ decryptData r m cipher frames ≠ .fault ∧
      ∀ frames', decryptData r m cipher frames = .rendezvous frames' →
        (outputs L (m.take sessionKeyLength) cipher false (contents frames)).isSome) := by
  rcases Nat.lt_or_ge m.length sessionKeyLength with hlt | hle
  · exact .inl ⟨hlt, useSessionKey_of_lt hlt _⟩
  · have hcrypto := doCrypto_eq (L := L) r.pool (m.take sessionKeyLength) cipher false frames
    rw [decryptData, useSessionKey_of_le hle]
    refine .inr ⟨hle, ?_, ?_⟩
    · cases doCrypto L r.pool (m.take sessionKeyLength) cipher false frames <;> simp
    · intro frames' h
      cases houts : outputs L (m.take sessionKeyLength) cipher false (contents frames) with
      | none =>
        rw [houts] at hcrypto
        simp [hcrypto] at h
      | some outs => rfl

/-- What is behind the signature. -/
theorem verifyAndDecrypt_cases (r : Receiver L) (m : Bytes) (cipher : UInt8) (eSign : Bytes)
    (frames : List Frame) :
    (¬ SignatureSized r.signing r.host m eSign ∧
      verifyAndDecrypt r m cipher eSign frames = .fault) ∨
    (SignatureSized r.signing r.host m eSign ∧ verifyAndDecrypt r m cipher eSign frames ≠ .fault ∧
      ∀ frames', verifyAndDecrypt r m cipher eSign frames = .rendezvous frames' →
        (r.signing = true ∧ r.verified (m.take sessionKeyLength)
          (L.privateDecrypt r.host.rsa eSign) = true) ∨
        (r.signing = false ∧
          (outputs L (m.take sessionKeyLength) cipher false (contents frames)).isSome)) := by
  have hdata := decryptData_cases r m cipher frames
  cases hsigning : r.signing with
  | false =>
    simp only [verifyAndDecrypt, hsigning, Bool.false_eq_true, if_false]
    rcases hdata with ⟨hlt, hfault⟩ | ⟨hle, hne, hsome⟩
    · exact .inl ⟨fun h => absurd h.1 (Nat.not_le.2 hlt), hfault⟩
    · exact .inr ⟨⟨hle, by simp⟩, hne, fun frames' h => .inr ⟨trivial, hsome frames' h⟩⟩
  | true =>
    simp only [verifyAndDecrypt, hsigning, if_true]
    by_cases hroom : Roomy r.host eSign
    · rw [decryptString_of_roomy hroom]
      rcases hdata with ⟨hlt, -⟩ | ⟨hle, hne, -⟩
      · exact .inl ⟨fun h => absurd h.1 (Nat.not_le.2 hlt), useSessionKey_of_lt hlt _⟩
      · rw [useSessionKey_of_le hle]
        refine .inr ⟨⟨hle, fun _ => hroom⟩, ?_⟩
        split_ifs with hverified
        · exact ⟨hne, fun _ _ => .inl ⟨trivial, hverified⟩⟩
        · exact ⟨by simp, by simp⟩
    · refine .inl ⟨fun h => hroom (h.2 rfl), ?_⟩
      obtain ⟨sign, hnot⟩ := not_forall.1 hroom
      obtain ⟨hsign, hlt⟩ := Classical.not_imp.1 hnot
      exact decryptString_of_lt hsign (Nat.not_le.1 hlt) _

/-- What is behind the session key. -/
theorem decryptKey_cases (r : Receiver L) (flags cipher : UInt8) (eSessionKey : Bytes)
    (frames : List Frame) :
    (¬ KeySized r.signing r.host flags eSessionKey (contents frames) ∧
      decryptKey r flags cipher eSessionKey frames = .fault) ∨
    (decryptKey r flags cipher eSessionKey frames ≠ .fault ∧
      ∀ frames', decryptKey r flags cipher eSessionKey frames = .rendezvous frames' → ∃ m,
        L.privateDecrypt r.host.rsa eSessionKey = some m ∧ sessionKeyLength ≤ m.length ∧
        (flags &&& 0x02 ≠ 0 → Signed r (m.take sessionKeyLength) (contents frames) ∨
          (r.signing = false ∧ Skipped (L := L) cipher m (contents frames)))) := by
  by_cases hroom : Roomy r.host eSessionKey
  · rw [decryptKey, decryptString_of_roomy hroom]
    cases hm : L.privateDecrypt r.host.rsa eSessionKey with
    | none => exact .inr ⟨by simp, by simp⟩
    | some m =>
      by_cases hsigned : flags &&& 0x02 ≠ 0
      · simp only [if_pos hsigned]
        have hsized : KeySized r.signing r.host flags eSessionKey (contents frames) →
            PositiveShort (contents frames) ∧ ∀ eSign data, Prefixed (contents frames) eSign data →
              SignatureSized r.signing r.host m eSign := by
          intro h
          have := (h m hm).2
          rwa [if_pos hsigned] at this
        rcases readPrefixed_cases r.staleSiglen frames (verifyAndDecrypt r m cipher) with
          ⟨hnot, hfault⟩ | hfreed | ⟨eSign, data, hprefixed, hnext⟩
        · exact .inl ⟨fun h => hnot (hsized h).1, hfault⟩
        · rw [hfreed]
          exact .inr ⟨by simp, by simp⟩
        · rw [hnext]
          rcases verifyAndDecrypt_cases r m cipher eSign data with
            ⟨hnot, hfault⟩ | ⟨hsign, hne, hpassed⟩
          · exact .inl ⟨fun h => hnot ((hsized h).2 _ _ hprefixed), hfault⟩
          · refine .inr ⟨hne, fun frames' h => ⟨m, rfl, hsign.1, fun _ => ?_⟩⟩
            rcases hpassed frames' h with ⟨hyes, hverified⟩ | ⟨hno, houts⟩
            · exact .inl ⟨hyes, eSign, _, hprefixed, hverified⟩
            · exact .inr ⟨hno, eSign, _, hprefixed, houts⟩
      · simp only [if_neg hsigned]
        rcases decryptData_cases r m cipher frames with ⟨hlt, hfault⟩ | ⟨hle, hne, -⟩
        · refine .inl ⟨fun h => ?_, hfault⟩
          have hle := (h m hm).2
          rw [if_neg hsigned] at hle
          exact absurd hle (Nat.not_le.2 hlt)
        · exact .inr ⟨hne, fun _ _ => ⟨m, rfl, hle, fun h => absurd h hsigned⟩⟩
  · obtain ⟨m, hnot⟩ := not_forall.1 hroom
    obtain ⟨hm, hlt⟩ := Classical.not_imp.1 hnot
    exact .inl ⟨fun h => hlt (h m hm).1, decryptString_of_lt hm (Nat.not_le.1 hlt) _⟩

/-- The cipher is read, and then the session key. -/
theorem openSealed_eq (r : Receiver L) (flags : UInt8) (frames : List Frame) :
    ∃ lt, contents lt = (contents frames).drop 1 ∧ openSealed r flags frames =
      readPrefixed r.staleKeyLen lt (decryptKey r flags ((contents frames).headD 0)) := by
  obtain ⟨lt, hrun, hlt⟩ := frameReadString_eq frames 1
  refine ⟨lt, hlt, ?_⟩
  simp only [openSealed, hrun]
  cases contents frames <;> simp

/-- The cipher and the rest. -/
theorem cons_of_positiveShort {bs : Bytes} (h : PositiveShort (bs.drop 1)) :
    ∃ cipher, bs = cipher :: bs.drop 1 := by
  cases bs with
  | nil => exact absurd h.1 (by decide)
  | cons cipher tail => exact ⟨cipher, rfl⟩

/-- **What is passed on has been opened**, or nobody has looked at its signature. -/
theorem openSealed_cases (r : Receiver L) (flags : UInt8) (frames : List Frame) :
    (¬ Sized r.signing r.host flags (contents frames) ∧ openSealed r flags frames = .fault) ∨
    (openSealed r flags frames ≠ .fault ∧
      ∀ frames', openSealed r flags frames = .rendezvous frames' →
        Opened r flags (contents frames) ∨
          Unverified r.signing r.host flags (contents frames)) := by
  obtain ⟨lt, hlt, hrun⟩ := openSealed_eq r flags frames
  rw [hrun]
  rcases readPrefixed_cases r.staleKeyLen lt (decryptKey r flags ((contents frames).headD 0)) with
    ⟨hnot, hfault⟩ | hfreed | ⟨eSessionKey, lt', hprefixed, hnext⟩
  · rw [hlt] at hnot
    exact .inl ⟨fun h => hnot h.1, hfault⟩
  · rw [hfreed]
    exact .inr ⟨by simp, by simp⟩
  · rw [hnext]
    rw [hlt] at hprefixed
    rcases decryptKey_cases r flags ((contents frames).headD 0) eSessionKey lt' with
      ⟨hnot, hfault⟩ | ⟨hne, hpassed⟩
    · exact .inl ⟨fun h => hnot (h.2 _ _ hprefixed), hfault⟩
    · refine .inr ⟨hne, fun frames' h => ?_⟩
      obtain ⟨m, hm, hle, hsigned⟩ := hpassed frames' h
      obtain ⟨c, hc⟩ := cons_of_positiveShort hprefixed.positiveShort
      by_cases hflag : flags &&& 0x02 ≠ 0
      · rcases hsigned hflag with hyes | ⟨hno, hskipped⟩
        · exact .inl ⟨c, _, eSessionKey, _, m, hc, hprefixed, hm, hle, fun _ => hyes⟩
        · exact .inr ⟨hno, hflag, eSessionKey, _, m, hprefixed, hm, hskipped⟩
      · exact .inl ⟨c, _, eSessionKey, _, m, hc, hprefixed, hm, hle, fun h => absurd h hflag⟩

/-! ## What goes wrong -/

/-- An array of the session key, or behind it, that is not long enough is met. -/
theorem decryptKey_eq_fault {r : Receiver L} (hsiglen : r.staleSiglen ≤ 0) {flags cipher : UInt8}
    {eSessionKey : Bytes} {frames : List Frame}
    (h : ¬ KeySized r.signing r.host flags eSessionKey (contents frames)) :
    decryptKey r flags cipher eSessionKey frames = .fault := by
  obtain ⟨m, hnot⟩ := not_forall.1 h
  obtain ⟨hm, hnot⟩ := Classical.not_imp.1 hnot
  rcases Nat.lt_or_ge eSessionKey.length m.length with hlt | hle
  · exact decryptString_of_lt hm hlt _
  · rw [decryptKey, decryptString_of_le hm hle]
    by_cases hsigned : flags &&& 0x02 ≠ 0
    · simp only [if_pos hsigned] at hnot ⊢
      by_cases hpositive : PositiveShort (contents frames)
      · have hsome : ∃ eSign data, Prefixed (contents frames) eSign data ∧
            ¬ SignatureSized r.signing r.host m eSign := by
          by_contra hnone
          push Not at hnone
          exact hnot ⟨hle, hpositive, hnone⟩
        obtain ⟨eSign, data, hprefixed, hsize⟩ := hsome
        obtain ⟨lt, hnext, -⟩ := readPrefixed_of_prefixed r.staleSiglen hprefixed
        rw [hnext]
        rcases verifyAndDecrypt_cases r m cipher eSign lt with ⟨-, hfault⟩ | ⟨hyes, -⟩
        · exact hfault
        · exact absurd hyes hsize
      · exact readPrefixed_eq_fault hsiglen hpositive
    · simp only [if_neg hsigned] at hnot ⊢
      exact useSessionKey_of_lt (Nat.not_le.1 fun hlen => hnot ⟨hle, hlen⟩) _

/-- With variables that are not positive before, what is not long enough is met. -/
theorem openSealed_eq_fault {r : Receiver L} (hkeyLen : r.staleKeyLen ≤ 0)
    (hsiglen : r.staleSiglen ≤ 0) {flags : UInt8} {frames : List Frame}
    (h : ¬ Sized r.signing r.host flags (contents frames)) :
    openSealed r flags frames = .fault := by
  obtain ⟨lt, hlt, hrun⟩ := openSealed_eq r flags frames
  rw [hrun]
  by_cases hkey : PositiveShort ((contents frames).drop 1)
  · have hsome : ∃ eSessionKey data, Prefixed ((contents frames).drop 1) eSessionKey data ∧
        ¬ KeySized r.signing r.host flags eSessionKey data := by
      by_contra hnone
      push Not at hnone
      exact h ⟨hkey, hnone⟩
    obtain ⟨eSessionKey, data, hprefixed, hnot⟩ := hsome
    rw [← hlt] at hprefixed
    obtain ⟨lt', hnext, hlt'⟩ := readPrefixed_of_prefixed r.staleKeyLen hprefixed
    rw [hnext]
    exact decryptKey_eq_fault hsiglen (hlt' ▸ hnot)
  · rw [← hlt] at hkey
    exact readPrefixed_eq_fault hkeyLen hkey

/-- Without frames what comes out of the cipher is lost, and nothing is passed on for it. -/
theorem openSealed_of_unverified {r : Receiver L} (hpool : r.pool = fun _ => 0) {flags : UInt8}
    {frames : List Frame} (hsized : Sized r.signing r.host flags (contents frames))
    (h : Unverified r.signing r.host flags (contents frames)) :
    ∃ frames', openSealed r flags frames = .rendezvous frames' := by
  obtain ⟨hno, hflag, eSessionKey, data, m, hprefixed, hm, eSign, data', hprefixed', houts⟩ := h
  have hkey := hsized.2 _ _ hprefixed m hm
  rw [if_pos hflag] at hkey
  have hlen := (hkey.2.2 _ _ hprefixed').1
  obtain ⟨lt, hlt, hrun⟩ := openSealed_eq r flags frames
  rw [← hlt] at hprefixed
  obtain ⟨lt₁, hnext₁, rfl⟩ := readPrefixed_of_prefixed r.staleKeyLen hprefixed
  obtain ⟨lt₂, hnext₂, rfl⟩ := readPrefixed_of_prefixed r.staleSiglen hprefixed'
  obtain ⟨outs, houts⟩ := Option.isSome_iff_exists.1 houts
  obtain ⟨frames', hdone⟩ := doCrypto_starved houts
  refine ⟨frames', ?_⟩
  rw [hrun, hnext₁, decryptKey, decryptString_of_le hm hkey.1]
  simp only [if_pos hflag, hnext₂, verifyAndDecrypt, hno, Bool.false_eq_true, if_false]
  rw [decryptData, useSessionKey_of_le hlen, hpool, hdone]

/-- The flags are read. -/
theorem transportUp_of_sealed (r : Receiver L) {flags : UInt8} (hflags : flags &&& 0x80 ≠ 0)
    {bs : Bytes} {frames : List Frame} (h : contents frames = flags :: bs) :
    ∃ lt, contents lt = bs ∧ transportUp r frames = openSealed r flags lt := by
  obtain ⟨lt, hread, hlt⟩ := frameReadString_append (show contents frames = [flags] ++ bs from h)
  rw [List.length_singleton] at hread
  exact ⟨lt, hlt, by simp [transportUp, hread, hflags]⟩

/-- **The gate**, for bytes that are marked as encrypted: whatever the variables hold before and
however many frames there are, what is passed on has been opened. -/
def Guarded (signing : Bool) (host : HostKey L) (srcKey : Option (Key L)) (flags : UInt8)
    (bs : Bytes) : Prop :=
  ∀ r : Receiver L, r.signing = signing → r.host = host → r.srcKey = srcKey →
    ∀ frames, contents frames = flags :: bs →
      match transportUp r frames with
      | .rendezvous _ => Opened r flags bs
      | .fault => False
      | .freed => True
      | .hangs => True

/-- **The gate holds exactly when the arrays are long enough and no signature goes unverified.** -/
theorem guarded_iff (signing : Bool) (host : HostKey L) (srcKey : Option (Key L)) {flags : UInt8}
    (hflags : flags &&& 0x80 ≠ 0) (bs : Bytes) :
    Guarded signing host srcKey flags bs ↔
      Sized signing host flags bs ∧ ¬ Unverified signing host flags bs := by
  constructor
  · intro hguard
    -- a receiver whose variables are 0 and that can get no frames
    obtain ⟨frames, hframes⟩ := exists_frames (flags :: bs)
    have hup := hguard ⟨signing, host, srcKey, 0, 0, fun _ => 0⟩ rfl rfl rfl frames hframes
    obtain ⟨lt, rfl, hsealed⟩ := transportUp_of_sealed
      (⟨signing, host, srcKey, 0, 0, fun _ => 0⟩ : Receiver L) hflags hframes
    rw [hsealed] at hup
    have hsized : Sized signing host flags (contents lt) := by
      by_contra hnot
      rw [openSealed_eq_fault (Int.le_refl 0) (Int.le_refl 0) hnot] at hup
      exact hup
    refine ⟨hsized, fun hunverified => ?_⟩
    obtain ⟨frames', hpassed⟩ := openSealed_of_unverified
      (r := ⟨signing, host, srcKey, 0, 0, fun _ => 0⟩) rfl hsized hunverified
    rw [hpassed] at hup
    obtain ⟨_, _, _, _, _, _, _, _, _, hsigned⟩ := hup
    have hyes : signing = true := (hsigned hunverified.2.1).1
    rw [hunverified.1] at hyes
    cases hyes
  · rintro ⟨hsized, hverified⟩ r rfl rfl rfl frames hframes
    obtain ⟨lt, rfl, hup⟩ := transportUp_of_sealed r hflags hframes
    rw [hup]
    rcases openSealed_cases r flags lt with ⟨hnot, -⟩ | ⟨hne, hopened⟩
    · exact absurd hsized hnot
    · cases hrun : openSealed r flags lt with
      | rendezvous frames' => exact (hopened frames' hrun).resolve_right hverified
      | fault => exact absurd hrun hne
      | freed => trivial
      | hangs => trivial

/-- A library that hides nothing. -/
def plain : Library where
  Ctx := Unit
  init _ _ _ := ()
  evp := Streaming.Transform.id
  RsaPublic := Unit
  RsaPrivate := Unit
  publicEncrypt _ _ m := if 0 < m.length ∧ m.length < 2 ^ 15 then some m else none
  privateDecrypt _ m := some m
  DsaPublic := Unit
  DsaPrivate := Unit
  sha1 m := m.take 20
  dsaSign _ _ digest := some digest
  dsaVerify _ digest sign := digest = sign

/-- A server that signs, with a frame for every operation. -/
def signer : Sender plain where
  signing := true
  host := ⟨0, (), ()⟩
  destKey := some ⟨0, (), some ()⟩
  requested := true
  saved := true
  sessionKey := List.replicate 32 1
  length_sessionKey := rfl
  keySeed := 0
  dsaSeed := 0
  signSeed := 0
  pool _ := 1
  avail _ := 1

/-- A server that verifies what it signs. -/
def verifier : Receiver plain := ⟨true, ⟨0, (), ()⟩, some ⟨0, (), some ()⟩, 0, 0, fun _ => 1⟩

theorem publicEncrypt_plain {m e : Bytes} {seed : ℕ} (h : plain.publicEncrypt () seed m = some e) :
    e = m ∧ 0 < m.length ∧ m.length < 2 ^ 15 := by
  simp only [plain, Option.ite_none_right_eq_some, Option.some.injEq] at h
  exact ⟨h.2.symm, h.1⟩

theorem matching_signer : Matching signer verifier ⟨0, (), some ()⟩ where
  cipher _ _ := Streaming.Transform.id_undoes_id _ _
  rsa _ m e h := by
    obtain ⟨rfl, -⟩ := publicEncrypt_plain h
    rfl
  rsaLength _ m e h := by
    obtain ⟨rfl, hpos, hshort⟩ := publicEncrypt_plain h
    exact ⟨Nat.le_refl _, hpos, hshort⟩
  dsa := by
    refine ⟨_, _, rfl, rfl, fun _ digest sign h => ?_⟩
    simpa [plain] using h

/-- What is sent for the byte 42, with a signature. -/
theorem sentWhole_signer : ∃ sent, SentWhole signer ⟨0, (), some ()⟩ [42] sent := by
  refine ⟨_, [[42], [] ], signer.sessionKey, ?_, rfl, rfl⟩
  have hchunks : Streaming.chunks sizeOfInbuf [(42 : UInt8)] = [[42]] := by
    rw [Streaming.chunks_of_ne_nil sizeOfInbuf_pos (by decide), show
      [(42 : UInt8)].drop sizeOfInbuf = [] from rfl, Streaming.chunks_nil]
    rfl
  rw [Sender.outputs, outputs, hchunks]
  rfl

/-- There is no frame when the one byte of the payload is appended. -/
def starved : Sender plain := { signer with destKey := some ⟨0, (), none⟩, pool := fun k => k }

theorem doCrypto_lost :
    doCrypto plain starved.pool starved.sessionKey 0 true [⟨[42], by decide⟩] =
      .done [⟨[], by decide⟩] := by
  have hread : Frames.frameReadString [⟨[42], by decide⟩] sizeOfInbuf = (1, [42], []) := rfl
  have hend : Frames.frameReadString [] sizeOfInbuf = (0, [], []) := rfl
  rw [doCrypto, cryptoLoop, hread]
  change cryptoLoop starved.pool 1 _ [] _ = _
  rw [cryptoLoop, hend]
  rfl

end Mlvm.Security
