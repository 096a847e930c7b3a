import Mlvm.Frames.Bytes
import Mlvm.Streaming.Transform

/-!
# The security layer

`imago_layer_security.c` and `do_crypto` of `cipher.c`, as built with security. A PDU that leaves is
encrypted with a fresh **session key**; in front of it the layer writes the session key, encrypted
for the destination, and before that, when it can, a signature of the session key.

**Signatures** can be left out when a server is built (`signing`). Then it signs nothing, and it
reads the signatures of others without looking at them.

**The library** (`Library`): the operations of the cryptographic library are parameters.

**Frames**: other threads take frames at any time, so each operation that needs frames has its own
number of frames that it can get.

**Undefined behaviour** (`Up.fault`): arrays are declared with the lengths that have been read from
the network. A length that is not positive is not defined, what is decrypted can be longer than the
array, and of the session key 32 bytes are used, whether they have been written or not. A length
that could not be read is whatever the variable holds.
-/

namespace Mlvm.Security

open Transport (Frame contents frameSize frameMove sizeOfFrame)
open Frames

abbrev Bytes := List UInt8

/-! ## The library -/

inductive CipherType where
  | null
  | desEde3Cbc
  | bfCbc
  | ideaCfb
  | desCbc
  | rc4
  deriving DecidableEq

/-- The cryptographic library. A number stands for the random bytes that an operation uses. -/
structure Library where
  /-- A cipher context. -/
  Ctx : Type
  /-- The context for a session key and `INIT_VECTOR`, for encryption or for decryption. -/
  init : CipherType → Bytes → Bool → Ctx
  /-- `EVP_CipherUpdate` and `EVP_CipherFinal`. -/
  evp : Streaming.Transform Ctx UInt8
  RsaPublic : Type
  RsaPrivate : Type
  /-- `rsa_public_encrypt` and `rsa_private_decrypt`. -/
  publicEncrypt : RsaPublic → ℕ → Bytes → Option Bytes
  privateDecrypt : RsaPrivate → Bytes → Option Bytes
  DsaPublic : Type
  DsaPrivate : Type
  sha1 : Bytes → Bytes
  dsaSign : DsaPrivate → ℕ → Bytes → Option Bytes
  dsaVerify : DsaPublic → Bytes → Bytes → Bool

variable (L : Library)

/-- The key of another server. -/
structure Key where
  cipherMask : UInt8
  rsa : L.RsaPublic
  dsa : Option L.DsaPublic

/-- `host_key`. -/
structure HostKey where
  cipherMask : UInt8
  rsa : L.RsaPrivate
  dsa : L.DsaPrivate

/-! ## Encryption of the frames -/

/-- `SEC_SESSION_KEY_LENGTH`. -/
def sessionKeyLength : ℕ := 32

/-- The size of `inbuf`: `FRAME_SIZE - EVP_MAX_IV_LENGTH`. -/
def sizeOfInbuf : ℕ := sizeOfFrame - 16

/-- The choice of a cipher among those of a mask, and the mask that says which it is. -/
def chooseCipher (ciphers : UInt8) : CipherType × UInt8 :=
  if ciphers = 0 then (.null, 0)
  else if ciphers &&& 0x04 ≠ 0 then (.desEde3Cbc, 0x04)
  else if ciphers &&& 0x10 ≠ 0 then (.bfCbc, 0x10)
  else if ciphers &&& 0x01 ≠ 0 then (.ideaCfb, 0x01)
  else if ciphers &&& 0x02 ≠ 0 then (.desCbc, 0x02)
  else if ciphers &&& 0x08 ≠ 0 then (.rc4, 0x08)
  else (.null, 0)

inductive Crypto where
  | failed
  | hangs
  | done (frames : List Frame)

/-- The end of `do_crypto`: the frames of the PDU are replaced by those of the temporary list, when
the one extra frame can be had. -/
def replaceFrames (avail : ℕ) (encrypted : List Frame) : Crypto :=
  match frameMove (0 < avail) [] encrypted (frameSize encrypted) with
  | none => .hangs
  | some r => .done r.2.1

variable {L}

/-- The loop of `do_crypto` from its `k`th round on. What `frame_append_string` returns is not
looked at. -/
def cryptoLoop (pool : ℕ → ℕ) (k : ℕ) (ctx : L.Ctx) (frames encrypted : List Frame) : Crypto :=
  if (Frames.frameReadString frames sizeOfInbuf).1 ≤ 0 then
    match L.evp.finish ctx with
    | none => .failed
    | some out => replaceFrames (pool (k + 1)) (frameAppendString (pool k) encrypted out).2.2
  else
    match L.evp.update ctx (Frames.frameReadString frames sizeOfInbuf).2.1 with
    | none => .failed
    | some (ctx, out) =>
      cryptoLoop pool (k + 1) ctx (Frames.frameReadString frames sizeOfInbuf).2.2
        (frameAppendString (pool k) encrypted out).2.2
termination_by (contents frames).length
decreasing_by
  obtain ⟨lt, hrun, hlt⟩ := frameReadString_eq frames sizeOfInbuf
  have hpos : ¬ (Frames.frameReadString frames sizeOfInbuf).1 ≤ 0 := ‹_›
  rw [hrun] at hpos ⊢
  simp only [hlt, List.length_drop]
  omega

/-- `do_crypto`. -/
def doCrypto (L : Library) (pool : ℕ → ℕ) (sessionKey : Bytes) (ciphers : UInt8) (encrypt : Bool)
    (frames : List Frame) : Crypto :=
  cryptoLoop pool 0 (L.init (chooseCipher ciphers).1 sessionKey encrypt) frames []

/-! ## Outgoing PDUs -/

/-- The error numbers of a PDU. -/
inductive Errno where
  | secRsa
  | nback
  | encrypt
  | rsaE
  | mframe

/-- What `imago_layer_security_transport_down` works with. -/
structure Sender (L : Library) where
  /-- Whether the server has been built with signatures. -/
  signing : Bool
  host : HostKey L
  /-- The key of the destination, if it is known. -/
  destKey : Option (Key L)
  /-- Whether a request for the key can be sent, and whether the PDU can be saved meanwhile. -/
  requested : Bool
  saved : Bool
  sessionKey : Bytes
  length_sessionKey : sessionKey.length = sessionKeyLength
  /-- The random bytes of the three operations. -/
  keySeed : ℕ
  dsaSeed : ℕ
  signSeed : ℕ
  /-- The frames that can be had in `do_crypto` and for the header. -/
  pool : ℕ → ℕ
  avail : ℕ → ℕ

inductive Down where
  | routing (frames : List Frame)
  | error (e : Errno)
  /-- The PDU waits for the key. -/
  | waiting
  | hangs

/-- Some strings written one in front of the other, the `i`th with `avail i` frames to be had. -/
def writeStrings (avail : ℕ → ℕ) : ℕ → List Bytes → List Frame → Option (List Frame)
  | _, [], frames => some frames
  | i, st :: sts, frames =>
    let r := Frames.frameWriteString (avail i) frames st
    if r.1 < 0 then none else writeStrings avail (i + 1) sts r.2.2

/-- The two bytes of a length. -/
def shortBytes (n : ℕ) : Bytes := bigEndian 2 (n % 2 ^ 16)

/-- The signature of the session key, encrypted. Without it the PDU goes out unsigned. -/
def Sender.signature (s : Sender L) (dest : Key L) : Option Bytes :=
  if s.signing ∧ dest.dsa.isSome then
    (L.dsaSign s.host.dsa s.dsaSeed (L.sha1 s.sessionKey)).bind
    (L.publicEncrypt dest.rsa s.signSeed)
  else none

/-- The strings of the header, in the order in which they are written. -/
def headerStrings (signature : Option Bytes) (eSessionKey : Bytes) (cipher : UInt8) : List Bytes :=
  (match signature with
    | none => []
    | some eSign => [eSign, shortBytes eSign.length]) ++
  [eSessionKey, shortBytes eSessionKey.length, [cipher],
    [if signature.isSome then 0x82 else 0x80]]

/-- `imago_layer_security_transport_down`. -/
def transportDown (s : Sender L) (frames : List Frame) : Down :=
  match s.destKey with
  | none =>
    if ¬ s.requested then .error .secRsa else if ¬ s.saved then .error .nback else .waiting
  | some dest =>
    let cipher := dest.cipherMask &&& s.host.cipherMask
    match doCrypto L s.pool s.sessionKey cipher true frames with
    | .failed => .error .encrypt
    | .hangs => .hangs
    | .done frames =>
      match L.publicEncrypt dest.rsa s.keySeed s.sessionKey with
      | none => .error .rsaE
      | some eSessionKey =>
        match writeStrings s.avail 0
            (headerStrings (s.signature dest) eSessionKey (chooseCipher cipher).2) frames with
        | none => .error .mframe
        | some frames => .routing frames

/-! ## Incoming PDUs -/

/-- What `imago_layer_security_transport_up` works with. -/
structure Receiver (L : Library) where
  /-- Whether the server has been built with signatures. -/
  signing : Bool
  host : HostKey L
  /-- The recorded key of the source, if there is one. -/
  srcKey : Option (Key L)
  /-- What the variables for the two lengths hold before. -/
  staleKeyLen : ℤ
  staleSiglen : ℤ
  /-- The frames that can be had in `do_crypto`. -/
  pool : ℕ → ℕ

inductive Up where
  | rendezvous (frames : List Frame)
  | freed
  | hangs
  | fault

/-- A number that has been read as a `short`. -/
def shortOf (bs : Bytes) : ℤ := (BitVec.ofNat 16 (ofBigEndian bs)).toInt

/-- `pdu_read_short` into a variable that holds `stale`. -/
def readShort (stale : ℤ) (lt : List Frame) : ℤ × List Frame :=
  let r := Frames.frameReadString lt 2
  (if r.1 = 2 then shortOf r.2.1 else stale, r.2.2)

/-- Read a length and a string of this length; the rest of the work is `next`. -/
def readPrefixed (stale : ℤ) (lt : List Frame) (next : Bytes → List Frame → Up) : Up :=
  let l := readShort stale lt
  if l.1 ≤ 0 then .fault
  else
    let e := Frames.frameReadString l.2 l.1.toNat
    if e.1 < l.1 then .freed else next e.2.1 e.2.2

/-- `rsa_private_decrypt` into an array that is as long as what is decrypted; the rest of the work
is `next`. -/
def decryptString (host : HostKey L) (e : Bytes) (next : Option Bytes → Up) : Up :=
  match L.privateDecrypt host.rsa e with
  | none => next none
  | some m => if e.length < m.length then .fault else next (some m)

/-- The session key is used: all its bytes must have been written. -/
def useSessionKey (m : Bytes) (next : Bytes → Up) : Up :=
  if m.length < sessionKeyLength then .fault else next (m.take sessionKeyLength)

/-- The decryption of the data. -/
def decryptData (r : Receiver L) (m : Bytes) (cipher : UInt8) (frames : List Frame) : Up :=
  useSessionKey m fun sessionKey =>
    match doCrypto L r.pool sessionKey cipher false frames with
    | .failed => .freed
    | .hangs => .hangs
    | .done frames => .rendezvous frames

/-- The signature is good. -/
def Receiver.verified (r : Receiver L) (sessionKey : Bytes) (sign : Option Bytes) : Bool :=
  match sign, r.srcKey.bind Key.dsa with
  | some sign, some dsa => L.dsaVerify dsa (L.sha1 sessionKey) sign
  | _, _ => false

/-- The verification of a signature, and the decryption of the data. -/
def verifyAndDecrypt (r : Receiver L) (m : Bytes) (cipher : UInt8) (eSign : Bytes)
    (frames : List Frame) : Up :=
  if r.signing then
    decryptString r.host eSign fun sign =>
      useSessionKey m fun sessionKey =>
        if r.verified sessionKey sign then decryptData r m cipher frames else .freed
  else decryptData r m cipher frames

/-- The session key is decrypted, and what is behind it. -/
def decryptKey (r : Receiver L) (flags cipher : UInt8) (eSessionKey : Bytes) (frames : List Frame) :
    Up :=
  decryptString r.host eSessionKey fun
    | none => .freed
    | some m =>
      if flags &&& 0x02 ≠ 0 then readPrefixed r.staleSiglen frames (verifyAndDecrypt r m cipher)
      else decryptData r m cipher frames

/-- The part of `imago_layer_security_transport_up` for a PDU that is marked as encrypted. -/
def openSealed (r : Receiver L) (flags : UInt8) (frames : List Frame) : Up :=
  let c := Frames.frameReadString frames 1
  let cipher := if c.1 = 1 then c.2.1.headD 0 else 0
  readPrefixed r.staleKeyLen c.2.2 (decryptKey r flags cipher)

/-- `imago_layer_security_transport_up`, for a PDU that is not in error. -/
def transportUp (r : Receiver L) (frames : List Frame) : Up :=
  let f := Frames.frameReadString frames 1
  if f.1 ≠ 1 then .freed
  else
    let flags := f.2.1.headD 0
    if flags &&& 0x80 = 0 then .rendezvous f.2.2 else openSealed r flags f.2.2

end Mlvm.Security
