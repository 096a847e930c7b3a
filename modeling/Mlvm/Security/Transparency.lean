import Mlvm.Security.Crypto

/-!
# Transparency of the security layer

**The sender** (`FailsClosed`): what is sent is the header and the whole encrypted payload; when
that cannot be, there is an error. The code does so if no frame runs out in `do_crypto` (`Kept`),
and otherwise what it sends is shortened.

**The receiver** (`Matching`): when the two servers hold each other's keys and the library's
decryption undoes its encryption, the receiver gets the payload back, again if no frame runs out.

Main results: `failsClosed_of_kept`, `not_sentWhole_of_not_kept`, `received_iff`.
-/

namespace Mlvm.Security

open Transport (Frame contents)
open Frames

variable {L : Library}

/-! ## The header -/

/-- The header and the data, in the order in which they are read. -/
def sealedBytes (signature : Option Bytes) (eSessionKey : Bytes) (cipher : UInt8) (data : Bytes) :
    Bytes :=
  [if signature.isSome then 0x82 else 0x80, cipher] ++ shortBytes eSessionKey.length ++
    eSessionKey ++
  (match signature with
    | none => []
    | some eSign => shortBytes eSign.length ++ eSign) ++ data

theorem contents_writeStrings {avail : ℕ → ℕ} {i : ℕ} {sts : List Bytes} {lt lt' : List Frame}
    (h : writeStrings avail i sts lt = some lt') :
    contents lt' = sts.reverse.flatten ++ contents lt := by
  induction sts generalizing i lt with
  | nil =>
    obtain rfl := Option.some.inj h
    rfl
  | cons st sts ih =>
    rw [writeStrings] at h
    split_ifs at h with hneg
    rw [ih h, (contents_frameWriteString hneg).2]
    simp

theorem flatten_headerStrings (signature : Option Bytes) (eSessionKey : Bytes) (cipher : UInt8)
    (data : Bytes) :
    (headerStrings signature eSessionKey cipher).reverse.flatten ++ data =
      sealedBytes signature eSessionKey cipher data := by
  cases signature <;> simp [headerStrings, sealedBytes]

/-! ## The sender -/

/-- The cipher that the two servers agree on. -/
def Sender.cipher (s : Sender L) (dest : Key L) : UInt8 := dest.cipherMask &&& s.host.cipherMask

/-- The outputs of the cipher for a payload. -/
def Sender.outputs (s : Sender L) (dest : Key L) (payload : Bytes) : Option (List Bytes) :=
  Security.outputs L s.sessionKey (s.cipher dest) true payload

/-- The bytes of a PDU that carries the whole payload. -/
def SentWhole (s : Sender L) (dest : Key L) (payload sent : Bytes) : Prop :=
  ∃ outs eSessionKey, s.outputs dest payload = some outs ∧
    L.publicEncrypt dest.rsa s.keySeed s.sessionKey = some eSessionKey ∧
    sent = sealedBytes (s.signature dest) eSessionKey (chooseCipher (s.cipher dest)).2 outs.flatten

/-- **The sender fails closed**: it sends the whole payload or reports an error. -/
def FailsClosed (s : Sender L) (dest : Key L) (frames : List Frame) : Prop :=
  match transportDown s frames with
  | .routing sent => SentWhole s dest (contents frames) (contents sent)
  | .error _ => True
  | .waiting => True
  | .hangs => False

/-- What is sent, when there are some frames after the encryption. -/
theorem transportDown_of_done {s : Sender L} {dest : Key L} (hdest : s.destKey = some dest)
    {frames encrypted : List Frame}
    (hdone : doCrypto L s.pool s.sessionKey (s.cipher dest) true frames = .done encrypted) :
    (∃ e, transportDown s frames = .error e) ∨ ∃ eSessionKey sent,
      L.publicEncrypt dest.rsa s.keySeed s.sessionKey = some eSessionKey ∧
      transportDown s frames = .routing sent ∧
      contents sent = sealedBytes (s.signature dest) eSessionKey
        (chooseCipher (s.cipher dest)).2 (contents encrypted) := by
  rw [Sender.cipher] at hdone
  cases hkey : L.publicEncrypt dest.rsa s.keySeed s.sessionKey with
  | none => exact .inl ⟨.rsaE, by simp [transportDown, hdest, hdone, hkey]⟩
  | some eSessionKey =>
    cases hwrite : writeStrings s.avail 0 (headerStrings (s.signature dest) eSessionKey
        (chooseCipher (dest.cipherMask &&& s.host.cipherMask)).2) encrypted with
    | none => exact .inl ⟨.mframe, by simp [transportDown, hdest, hdone, hkey, hwrite]⟩
    | some sent =>
      refine .inr ⟨eSessionKey, sent, rfl, by simp [transportDown, hdest, hdone, hkey, hwrite], ?_⟩
      rw [contents_writeStrings hwrite, flatten_headerStrings]
      rfl

/-- A failing cipher is an error. -/
theorem transportDown_of_failed {s : Sender L} {dest : Key L} (hdest : s.destKey = some dest)
    {frames : List Frame} (houts : s.outputs dest (contents frames) = none) :
    transportDown s frames = .error .encrypt := by
  have hcrypto := doCrypto_eq (L := L) s.pool s.sessionKey (s.cipher dest) true frames
  rw [Sender.outputs] at houts
  rw [houts] at hcrypto
  rw [Sender.cipher] at hcrypto
  simp [transportDown, hdest, hcrypto]

/-- **With frames enough the sender fails closed.** -/
theorem failsClosed_of_kept {s : Sender L} {dest : Key L} (hdest : s.destKey = some dest)
    {frames : List Frame}
    (hkept : ∀ outs, s.outputs dest (contents frames) = some outs → Kept s.pool outs) :
    FailsClosed s dest frames := by
  rw [FailsClosed]
  cases houts : s.outputs dest (contents frames) with
  | none => simp [transportDown_of_failed hdest houts]
  | some outs =>
    have hcrypto := doCrypto_eq (L := L) s.pool s.sessionKey (s.cipher dest) true frames
    rw [Sender.outputs] at houts
    rw [houts] at hcrypto
    rcases hcrypto with ⟨-, encrypted, hdone, hcontents⟩ | ⟨hnot, -⟩
    · rcases transportDown_of_done hdest hdone with ⟨e, he⟩ | ⟨eSessionKey, sent, hkey, hsent, hs⟩
      · simp [he]
      · rw [hsent]
        exact ⟨outs, eSessionKey, houts, hkey, by rw [hs, hcontents]⟩
    · exact absurd (hkept outs houts) hnot

/-- The data is the end of what is sent. -/
theorem length_sealedBytes (signature : Option Bytes) (eSessionKey : Bytes) (cipher : UInt8)
    (data : Bytes) :
    (sealedBytes signature eSessionKey cipher data).length =
      (sealedBytes signature eSessionKey cipher []).length + data.length := by
  simp only [sealedBytes, List.append_nil, List.length_append]

/-- **Otherwise what the sender sends is not the whole payload.** -/
theorem not_sentWhole_of_not_kept {s : Sender L} {dest : Key L} (hdest : s.destKey = some dest)
    {frames sent : List Frame} {outs : List Bytes}
    (houts : s.outputs dest (contents frames) = some outs) (hkept : ¬ Kept s.pool outs)
    (hsent : transportDown s frames = .routing sent) :
    ¬ SentWhole s dest (contents frames) (contents sent) := by
  have hcrypto := doCrypto_eq (L := L) s.pool s.sessionKey (s.cipher dest) true frames
  rw [Sender.outputs] at houts
  rw [houts] at hcrypto
  rcases hcrypto with ⟨hyes, -⟩ | ⟨-, hhangs | ⟨encrypted, hdone, hless⟩⟩
  · exact absurd hyes hkept
  · rw [Sender.cipher] at hhangs
    simp [transportDown, hdest, hhangs] at hsent
  · rcases transportDown_of_done hdest hdone with ⟨e, he⟩ | ⟨eSessionKey, sent', hkey, hsent', hs⟩
    · rw [he] at hsent
      cases hsent
    · rw [hsent'] at hsent
      obtain rfl := Down.routing.inj hsent
      rintro ⟨outs', eSessionKey', houts', hkey', hwhole⟩
      rw [Sender.outputs, houts] at houts'
      obtain rfl := Option.some.inj houts'
      rw [hkey] at hkey'
      obtain rfl := Option.some.inj hkey'
      have hlen := congrArg List.length (hs.symm.trans hwhole)
      rw [length_sealedBytes, length_sealedBytes _ _ _ outs.flatten] at hlen
      omega

/-! ## Reading -/

/-- What stands in front is read. -/
theorem frameReadString_append {lt : List Frame} {st rest : Bytes} (h : contents lt = st ++ rest) :
    ∃ lt', Frames.frameReadString lt st.length = (↑st.length, st, lt') ∧ contents lt' = rest := by
  obtain ⟨lt', hrun, hlt'⟩ := frameReadString_eq lt st.length
  refine ⟨lt', ?_, ?_⟩
  · rw [hrun, h, List.take_left, List.length_append, Nat.min_eq_left (Nat.le_add_right _ _)]
  · rw [hlt', h, List.drop_left]

/-- A short is what its two bytes say, if they are there. -/
theorem readShort_eq (stale : ℤ) (lt : List Frame) :
    ∃ lt', contents lt' = (contents lt).drop 2 ∧ readShort stale lt =
      (if 2 ≤ (contents lt).length then shortOf ((contents lt).take 2) else stale, lt') := by
  obtain ⟨lt', hrun, hlt'⟩ := frameReadString_eq lt 2
  refine ⟨lt', hlt', ?_⟩
  have hcount : ((min 2 (contents lt).length : ℕ) : ℤ) = 2 ↔ 2 ≤ (contents lt).length := by omega
  simp only [readShort, hrun, hcount]

theorem shortOf_shortBytes {n : ℕ} (h : n < 2 ^ 15) : shortOf (shortBytes n) = n := by
  have hn : n % 2 ^ 16 = n := Nat.mod_eq_of_lt (h.trans (by decide))
  rw [shortOf, shortBytes, hn, ofBigEndian_bigEndian (h.trans (by decide)),
    BitVec.toInt_ofNat', Int.bmod_eq_of_le]
  all_goals omega

/-- A length and as many bytes as it says. -/
def Prefixed (bs eString data : Bytes) : Prop :=
  ∃ len, bs = len ++ (eString ++ data) ∧ len.length = 2 ∧ 0 < shortOf len ∧
    shortOf len = eString.length

theorem prefixed_shortBytes {st rest : Bytes} (hpos : 0 < st.length) (hshort : st.length < 2 ^ 15) :
    Prefixed (shortBytes st.length ++ (st ++ rest)) st rest := by
  have hlen := shortOf_shortBytes hshort
  exact ⟨_, rfl, length_bigEndian 2 _, by rw [hlen]; exact_mod_cast hpos, hlen⟩

/-- A string with its length in front is read. -/
theorem readPrefixed_of_prefixed (stale : ℤ) {lt : List Frame} {st rest : Bytes}
    (h : Prefixed (contents lt) st rest) :
    ∃ lt', (∀ next, readPrefixed stale lt next = next st lt') ∧ contents lt' = rest := by
  obtain ⟨len, hbytes, hlen, hpos, hsize⟩ := h
  obtain ⟨lt₁, hlt₁, hrun⟩ := readShort_eq stale lt
  rw [hbytes, List.drop_left' hlen] at hlt₁
  rw [hbytes, List.take_left' hlen, List.length_append, hlen,
    if_pos (Nat.le_add_right 2 _), hsize] at hrun
  obtain ⟨lt₂, hread, hlt₂⟩ := frameReadString_append hlt₁
  have hne : ¬ (st.length : ℤ) ≤ 0 := by rwa [← hsize, Int.not_le]
  refine ⟨lt₂, fun next => ?_, hlt₂⟩
  simp only [readPrefixed, hrun, if_neg hne, Int.toNat_natCast, hread, Int.lt_irrefl, if_false]

theorem decryptString_of_le {host : HostKey L} {e m : Bytes}
    (hm : L.privateDecrypt host.rsa e = some m)
    (hle : m.length ≤ e.length) (next : Option Bytes → Up) :
    decryptString host e next = next (some m) := by
  rw [decryptString, hm]
  exact if_neg (Nat.not_lt.2 hle)

theorem useSessionKey_of_le {m : Bytes} (h : sessionKeyLength ≤ m.length) (next : Bytes → Up) :
    useSessionKey m next = next (m.take sessionKeyLength) := if_neg (Nat.not_lt.2 h)

/-! ## The receiver -/

/-- The two servers hold each other's keys, what the library decrypts is what it has encrypted, and
what it encrypts does not become shorter. -/
structure Matching (s : Sender L) (r : Receiver L) (dest : Key L) : Prop where
  cipher : ∀ type key, L.evp.Undoes (L.init type key false) L.evp (L.init type key true)
  rsa : ∀ seed m e, L.publicEncrypt dest.rsa seed m = some e →
    L.privateDecrypt r.host.rsa e = some m
  rsaLength : ∀ seed m e, L.publicEncrypt dest.rsa seed m = some e →
    m.length ≤ e.length ∧ 0 < e.length ∧ e.length < 2 ^ 15
  dsa : ∃ src dsa, r.srcKey = some src ∧ src.dsa = some dsa ∧
    ∀ seed digest sign, L.dsaSign s.host.dsa seed digest = some sign →
      L.dsaVerify dsa digest sign = true

theorem chooseCipher_chooseCipher (ciphers : UInt8) :
    chooseCipher (chooseCipher ciphers).2 = chooseCipher ciphers := by
  have hcases : chooseCipher ciphers ∈ [(.null, 0), (.desEde3Cbc, 0x04), (.bfCbc, 0x10),
      (.ideaCfb, 0x01), (.desCbc, 0x02), (.rc4, 0x08)] := by
    rw [chooseCipher]
    split_ifs <;> simp
  revert hcases
  generalize chooseCipher ciphers = chosen
  intro hcases
  simp only [List.mem_cons, List.not_mem_nil, or_false] at hcases
  rcases hcases with rfl | rfl | rfl | rfl | rfl | rfl <;> rfl

/-- The signature that has been sent is good. -/
theorem Matching.verified {s : Sender L} {r : Receiver L} {dest : Key L}
    (hmatch : Matching s r dest) {eSign : Bytes} (hsign : s.signature dest = some eSign) :
    (∃ sign, L.privateDecrypt r.host.rsa eSign = some sign ∧ sign.length ≤ eSign.length ∧
      r.verified s.sessionKey (some sign) = true) ∧ 0 < eSign.length ∧ eSign.length < 2 ^ 15 := by
  rw [Sender.signature] at hsign
  split_ifs at hsign
  obtain ⟨sign, hdsa, hrsa⟩ := Option.bind_eq_some_iff.1 hsign
  obtain ⟨src, dsa, hsrc, hkey, hverify⟩ := hmatch.dsa
  obtain ⟨hle, hpos, hshort⟩ := hmatch.rsaLength _ _ _ hrsa
  refine ⟨⟨sign, hmatch.rsa _ _ _ hrsa, hle, ?_⟩, hpos, hshort⟩
  simp only [Receiver.verified, hsrc, Option.bind_some, hkey]
  exact hverify _ _ _ hdsa

/-- **The header is read as it was written.** -/
theorem transportUp_sealed {s : Sender L} {r : Receiver L} {dest : Key L}
    (hmatch : Matching s r dest) {eSessionKey data : Bytes} {cipher : UInt8}
    (hkey : L.publicEncrypt dest.rsa s.keySeed s.sessionKey = some eSessionKey)
    {received : List Frame}
    (hreceived : contents received =
      sealedBytes (s.signature dest) eSessionKey cipher data) :
    ∃ frames, contents frames = data ∧
      transportUp r received = decryptData r s.sessionKey cipher frames := by
  obtain ⟨hle, hpos, hshort⟩ := hmatch.rsaLength _ _ _ hkey
  obtain ⟨tail, htail⟩ : ∃ tail, tail = (match s.signature dest with
    | none => []
    | some eSign => shortBytes eSign.length ++ eSign) ++ data := ⟨_, rfl⟩
  have hsplit : contents received = [if (s.signature dest).isSome then 0x82 else 0x80] ++
      ([cipher] ++ (shortBytes eSessionKey.length ++ (eSessionKey ++ tail))) := by
    rw [hreceived, htail]
    simp [sealedBytes]
  obtain ⟨lt₁, hread₁, hlt₁⟩ := frameReadString_append hsplit
  obtain ⟨lt₂, hread₂, hlt₂⟩ := frameReadString_append hlt₁
  obtain ⟨lt₄, hread₄, hlt₄⟩ := readPrefixed_of_prefixed r.staleKeyLen
    (hlt₂ ▸ prefixed_shortBytes hpos hshort)
  rw [List.length_singleton] at hread₁ hread₂
  have hopen : ∀ flags, openSealed r flags lt₁ =
      if flags &&& 0x02 ≠ 0 then
        readPrefixed r.staleSiglen lt₄ (verifyAndDecrypt r s.sessionKey cipher)
      else decryptData r s.sessionKey cipher lt₄ := by
    intro flags
    simp [openSealed, hread₂, hread₄, decryptKey,
      decryptString_of_le (hmatch.rsa _ _ _ hkey) hle]
  cases hsign : s.signature dest with
  | none =>
    rw [hsign] at htail hread₁
    refine ⟨lt₄, by rw [hlt₄, htail]; rfl, ?_⟩
    have hunsigned : (0x80 : UInt8) &&& 0x02 = 0 := by decide
    simp [transportUp, hread₁, hopen, hunsigned]
  | some eSign =>
    rw [hsign] at htail hread₁
    obtain ⟨⟨sign, hdecrypt, hsle, hverified⟩, hspos, hsshort⟩ := hmatch.verified hsign
    have hlt₄' : contents lt₄ = shortBytes eSign.length ++ (eSign ++ data) := by
      rw [hlt₄, htail]
      simp
    obtain ⟨lt₆, hread₆, hlt₆⟩ := readPrefixed_of_prefixed r.staleSiglen
      (hlt₄' ▸ prefixed_shortBytes hspos hsshort)
    refine ⟨lt₆, hlt₆, ?_⟩
    have hsealed : (0x82 : UInt8) &&& 0x80 ≠ 0 := by decide
    have hsigned : (0x82 : UInt8) &&& 0x02 ≠ 0 := by decide
    have hverify : verifyAndDecrypt r s.sessionKey cipher eSign lt₆ =
        decryptData r s.sessionKey cipher lt₆ := by
      rw [verifyAndDecrypt, decryptString_of_le hdecrypt hsle,
        useSessionKey_of_le s.length_sessionKey.ge, List.take_of_length_le s.length_sessionKey.le,
        if_pos hverified, ite_self]
    simp [transportUp, hread₁, hopen, hsealed, hsigned, hread₆, hverify]

/-- **The payload comes back** if no frame runs out at the receiver, and only then. -/
theorem received_iff {s : Sender L} {r : Receiver L} {dest : Key L} (hmatch : Matching s r dest)
    {payload sent : Bytes} (hsent : SentWhole s dest payload sent) {received : List Frame}
    (hreceived : contents received = sent) :
    ∃ data outs, Security.outputs L s.sessionKey (chooseCipher (s.cipher dest)).2 false data =
        some outs ∧ outs.flatten = payload ∧
      ((∃ frames, transportUp r received = .rendezvous frames ∧ contents frames = payload) ↔
        Kept r.pool outs) := by
  obtain ⟨sealedOuts, eSessionKey, houts, hkey, rfl⟩ := hsent
  obtain ⟨frames, hframes, hup⟩ := transportUp_sealed hmatch hkey hreceived
  have hpos := sizeOfInbuf_pos
  obtain ⟨outs, hrun, hflatten⟩ := hmatch.cipher (chooseCipher (s.cipher dest)).1 s.sessionKey
    (Streaming.chunks sizeOfInbuf payload)
    (Streaming.chunks sizeOfInbuf sealedOuts.flatten) sealedOuts
    (fun c hc => (List.mem_append.1 hc).elim Streaming.ne_nil_of_mem_chunks
      Streaming.ne_nil_of_mem_chunks)
    houts (Streaming.flatten_chunks hpos _)
  rw [Streaming.flatten_chunks hpos] at hflatten
  have houts' : Security.outputs L s.sessionKey (chooseCipher (s.cipher dest)).2 false
      sealedOuts.flatten = some outs := by
    rw [Security.outputs, chooseCipher_chooseCipher]
    exact hrun
  refine ⟨sealedOuts.flatten, outs, houts', hflatten, ?_⟩
  have hcrypto := doCrypto_eq (L := L) r.pool s.sessionKey (chooseCipher (s.cipher dest)).2 false
    frames
  rw [hframes, houts'] at hcrypto
  rw [hup, decryptData, useSessionKey_of_le s.length_sessionKey.ge,
    List.take_of_length_le s.length_sessionKey.le]
  rcases hcrypto with ⟨hkept, fr, hdone, hfr⟩ | ⟨hkept, hhangs | ⟨fr, hdone, hless⟩⟩
  · refine iff_of_true ⟨fr, by rw [hdone], by rw [hfr, hflatten]⟩ hkept
  · refine iff_of_false ?_ hkept
    rintro ⟨fr, hfr, -⟩
    rw [hhangs] at hfr
    cases hfr
  · refine iff_of_false ?_ hkept
    rintro ⟨fr', hfr', hpayload⟩
    rw [hdone] at hfr'
    obtain rfl := Up.rendezvous.inj hfr'
    rw [hpayload, hflatten] at hless
    exact Nat.lt_irrefl _ hless

end Mlvm.Security
