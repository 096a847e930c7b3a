import Mathlib.Logic.Function.Basic
import Mathlib.Data.List.Basic

/-!
# PDUs, backups and timers of a server

What the rendez-vous layer works on: the fields of a **PDU** it reads and writes, the frame bytes
with the network byte order of `frame.c`, the **backup files** with their list of ids
(`pdu_backup.c`, the variant without the cache), and the **timer table** (`timer.c`).

A backup file is named `ada<gen>.<seq>` on the sender and `ada<server>:<gen>.<seq>` on the
receiver; the two name spaces are apart, and each name gives back its parts, so a key is the
parts themselves.
-/

namespace Mlvm.Transport

/-! ## PDUs -/

/-- The states of the state machine that matter here: the two of the rendez-vous layer, the way
down to the security layer and the way up to the marshaling layer. -/
inductive StateId where
  | adaUp
  | adaDown
  | securityDown
  | marshalingUp
  deriving DecidableEq, Repr

/-- `pdu_error_t`. -/
inductive PduError where
  | success | mframe | mconn | nfile | connrefused | hostNotFound | nback | fopen | fwrite
  | secRsa | cipherNotSupported | rsaE | rsaD | encrypt | nada
  deriving DecidableEq, Repr

def adaTypeRequest : UInt16 := 0x0100
def adaTypeAccept : UInt16 := 0x0200
def adaTypeAck : UInt16 := 0x0400
def adaTypeNack : UInt16 := 0x0800
def adaTypeRetry : UInt16 := 0x0001

def adaMaxRetry : Nat := 3

/-- The fields of `struct pdu_str` the rendez-vous layer and the routing layer use. `sitp` and
`error` are the flags `PDU_TYPE_SITP` and `PDU_ERROR`; `imago` marks which imago the PDU is
about: statements speak of it, no function of the model reads it. -/
structure Pdu (Host : Type) where
  imago : Nat
  sitp : Bool
  error : Bool
  errno : PduError
  eLayer : StateId
  state : StateId
  genid : UInt16
  seqid : UInt32
  adaType : UInt16
  timer : Int
  retry : Nat
  destinationServer : Host
  sourceServer : Host
  frames : List UInt8
  deriving DecidableEq, Repr

/-- `pdu_new`: everything cleared, the flag `PDU_TYPE_SITP` set. -/
def pduNew {Host : Type} [Inhabited Host] (imago : Nat) : Pdu Host where
  imago := imago
  sitp := true
  error := false
  errno := .success
  eLayer := .adaUp
  state := .adaUp
  genid := 0
  seqid := 0
  adaType := 0
  timer := 0
  retry := 0
  destinationServer := default
  sourceServer := default
  frames := []

/-! ## The header in the frames -/

/-- `frame_write_short`: the two bytes in network order in front of the others. -/
def frameWriteShort (v : UInt16) (f : List UInt8) : List UInt8 :=
  UInt8.ofNat (v.toNat / 256) :: UInt8.ofNat (v.toNat % 256) :: f

/-- `frame_write_int`. -/
def frameWriteInt (v : UInt32) (f : List UInt8) : List UInt8 :=
  UInt8.ofNat (v.toNat / 16777216) :: UInt8.ofNat (v.toNat / 65536 % 256) ::
    UInt8.ofNat (v.toNat / 256 % 256) :: UInt8.ofNat (v.toNat % 256) :: f

/-- `frame_read_short`. When a byte is missing, the one that is there has already replaced the
first byte in memory, the low one. -/
def frameReadShort (old : UInt16) : List UInt8 → UInt16 × List UInt8
  | a :: b :: f => (.ofNat (a.toNat * 256 + b.toNat), f)
  | [a] => (.ofNat (old.toNat / 256 * 256 + a.toNat), [])
  | [] => (old, [])

/-- `frame_read_int`. -/
def frameReadInt (old : UInt32) : List UInt8 → UInt32 × List UInt8
  | a :: b :: c :: d :: f =>
      (.ofNat (a.toNat * 16777216 + b.toNat * 65536 + c.toNat * 256 + d.toNat), f)
  | [a, b, c] =>
      (.ofNat (old.toNat / 16777216 * 16777216 + c.toNat * 65536 + b.toNat * 256 + a.toNat), [])
  | [a, b] => (.ofNat (old.toNat / 65536 * 65536 + b.toNat * 256 + a.toNat), [])
  | [a] => (.ofNat (old.toNat / 256 * 256 + a.toNat), [])
  | [] => (old, [])

theorem frameReadShort_write (old v : UInt16) (f : List UInt8) :
    frameReadShort old (frameWriteShort v f) = (v, f) := by
  have hv := v.toNat_lt
  have hhigh : (UInt8.ofNat (v.toNat / 256)).toNat = v.toNat / 256 := by
    rw [UInt8.toNat_ofNat']
    omega
  have hlow : (UInt8.ofNat (v.toNat % 256)).toNat = v.toNat % 256 := by
    rw [UInt8.toNat_ofNat']
    omega
  have hsum : v.toNat / 256 * 256 + v.toNat % 256 = v.toNat := by omega
  rw [frameWriteShort, frameReadShort, hhigh, hlow, hsum, UInt16.ofNat_toNat]

theorem frameReadInt_write (old v : UInt32) (f : List UInt8) :
    frameReadInt old (frameWriteInt v f) = (v, f) := by
  have hv := v.toNat_lt
  have hbyte : ∀ x : Nat, x < 256 → (UInt8.ofNat x).toNat = x := fun x hx => by
    rw [UInt8.toNat_ofNat']
    omega
  have hsum : v.toNat / 16777216 * 16777216 + v.toNat / 65536 % 256 * 65536 +
      v.toNat / 256 % 256 * 256 + v.toNat % 256 = v.toNat := by omega
  rw [frameWriteInt, frameReadInt, hbyte _ (by omega), hbyte _ (by omega), hbyte _ (by omega),
    hbyte _ (by omega), hsum, UInt32.ofNat_toNat]

variable {Host : Type}

/-- `write_header`: the sequence id, the type and the generation id, each in front of what is
there. `room` is how many of the three writes find a frame. -/
def writeHeader (room : Nat) (p : Pdu Host) : Pdu Host × Bool :=
  if room = 0 then ({ p with errno := .mframe }, false)
  else if room = 1 then
    ({ p with frames := frameWriteInt p.seqid p.frames, errno := .mframe }, false)
  else if room = 2 then
    ({ p with frames := frameWriteShort p.adaType (frameWriteInt p.seqid p.frames),
              errno := .mframe }, false)
  else
    ({ p with frames := frameWriteShort p.genid
                (frameWriteShort p.adaType (frameWriteInt p.seqid p.frames)) }, true)

/-- `read_header`: it never fails, whatever the frames hold. -/
def readHeader (p : Pdu Host) : Pdu Host :=
  let (genid, f₁) := frameReadShort p.genid p.frames
  let (adaType, f₂) := frameReadShort p.adaType f₁
  let (seqid, f₃) := frameReadInt p.seqid f₂
  { p with genid := genid, adaType := adaType, seqid := seqid, frames := f₃ }

/-- The header of a PDU, in front of its payload. -/
def headed (genid : UInt16) (adaType : UInt16) (seqid : UInt32) (payload : List UInt8) :
    List UInt8 :=
  frameWriteShort genid (frameWriteShort adaType (frameWriteInt seqid payload))

theorem writeHeader_room {room : Nat} (h : 3 ≤ room) (p : Pdu Host) :
    writeHeader room p =
      ({ p with frames := headed p.genid p.adaType p.seqid p.frames }, true) := by
  rw [writeHeader, if_neg (by omega), if_neg (by omega), if_neg (by omega), headed]

/-- **Reading gives back the header that was written.** -/
theorem readHeader_headed {genid adaType : UInt16} {seqid : UInt32} {payload : List UInt8}
    (p : Pdu Host) (h : p.frames = headed genid adaType seqid payload) :
    readHeader p =
      { p with genid := genid, adaType := adaType, seqid := seqid, frames := payload } := by
  simp only [readHeader, h, headed, frameReadShort_write, frameReadInt_write]

/-! ## Backup files -/

/-- The name of a backup file: `ada<gen>.<seq>` or `ada<server>:<gen>.<seq>`. -/
inductive BackupKey (Host : Type) where
  | sent (genid : UInt16) (seqid : UInt32)
  | received (source : Host) (genid : UInt16) (seqid : UInt32)
  deriving DecidableEq, Repr

/-- A backup file: its name, the id written first, and the PDU. -/
structure BackupFile (Host : Type) where
  key : BackupKey Host
  id : Nat
  pdu : Pdu Host
  deriving DecidableEq, Repr

section Files

variable [DecidableEq Host]

/-- The file of that name. -/
def fileOf (files : List (BackupFile Host)) (key : BackupKey Host) : Option (BackupFile Host) :=
  files.find? fun f => f.key = key

/-- Open the file of that name with `O_CREAT | O_TRUNC` and write it. -/
def writeFile (files : List (BackupFile Host)) (f : BackupFile Host) : List (BackupFile Host) :=
  f :: files.filter fun g => g.key ≠ f.key

/-- `unlink`. -/
def unlink (files : List (BackupFile Host)) (key : BackupKey Host) : List (BackupFile Host) :=
  files.filter fun g => g.key ≠ key

theorem fileOf_key {files : List (BackupFile Host)} {key : BackupKey Host} {f : BackupFile Host}
    (h : fileOf files key = some f) : f.key = key := by
  simpa using List.find?_some h

theorem fileOf_unlink_self (files : List (BackupFile Host)) (key : BackupKey Host) :
    fileOf (unlink files key) key = none := by
  rw [fileOf, List.find?_eq_none]
  intro f hf
  simpa [unlink] using (List.mem_filter.mp hf).2

theorem fileOf_unlink_of_ne (files : List (BackupFile Host)) {key key' : BackupKey Host}
    (h : key' ≠ key) : fileOf (unlink files key) key' = fileOf files key' := by
  rw [fileOf, unlink, List.find?_filter, fileOf]
  refine congrFun (congrArg List.find? (funext fun f => ?_)) files
  by_cases hf : f.key = key'
  · simp [hf, h]
  · simp [hf]

theorem fileOf_writeFile_self (files : List (BackupFile Host)) (f : BackupFile Host) :
    fileOf (writeFile files f) f.key = some f := by
  simp [fileOf, writeFile]

theorem fileOf_writeFile_of_ne (files : List (BackupFile Host)) (f : BackupFile Host)
    {key : BackupKey Host} (h : key ≠ f.key) :
    fileOf (writeFile files f) key = fileOf files key := by
  have hcons : fileOf (writeFile files f) key = fileOf (unlink files f.key) key := by
    simp [fileOf, writeFile, unlink, Ne.symm h]
  rw [hcons, fileOf_unlink_of_ne files h]

end Files

/-! ## The list of backups -/

/-- `find_entry`: the name listed for an id. -/
def findEntry (list : List (Nat × BackupKey Host)) (id : Nat) : Option (BackupKey Host) :=
  (list.find? fun e => e.1 = id).map Prod.snd

/-- The loop of `remove_entry`: the entries of the id are dropped, and so is the first other
entry, which only sets `trigger`. -/
def removeEntryLoop (id : Nat) : Bool → List (Nat × BackupKey Host) → List (Nat × BackupKey Host)
  | _, [] => []
  | trigger, e :: list =>
      if trigger && e.1 != id then e :: removeEntryLoop id trigger list
      else if e.1 != id then removeEntryLoop id true list
      else removeEntryLoop id trigger list

/-- `remove_entry`. -/
def removeEntry (id : Nat) (list : List (Nat × BackupKey Host)) : List (Nat × BackupKey Host) :=
  removeEntryLoop id false list

theorem findEntry_mem {list : List (Nat × BackupKey Host)} {id : Nat} {key : BackupKey Host}
    (h : findEntry list id = some key) : (id, key) ∈ list := by
  obtain ⟨e, he, rfl⟩ := Option.map_eq_some_iff.mp h
  have hid : e.1 = id := by simpa using List.find?_some he
  rw [← hid]
  exact List.mem_of_find?_eq_some he

/-- What is left on the list was there and has another id. -/
theorem mem_removeEntryLoop {id : Nat} {e : Nat × BackupKey Host} :
    ∀ {list : List (Nat × BackupKey Host)} {trigger : Bool},
      e ∈ removeEntryLoop id trigger list → e ∈ list ∧ e.1 ≠ id := by
  intro list
  induction list with
  | nil => intro trigger h; simp [removeEntryLoop] at h
  | cons e' list ih =>
      intro trigger h
      rw [removeEntryLoop] at h
      split_ifs at h with hkeep hfirst
      · rcases List.mem_cons.mp h with rfl | h
        · exact ⟨List.mem_cons_self, by simp_all⟩
        · exact ⟨List.mem_cons_of_mem _ (ih h).1, (ih h).2⟩
      · exact ⟨List.mem_cons_of_mem _ (ih h).1, (ih h).2⟩
      · exact ⟨List.mem_cons_of_mem _ (ih h).1, (ih h).2⟩

theorem mem_removeEntry {id : Nat} {e : Nat × BackupKey Host}
    {list : List (Nat × BackupKey Host)} (h : e ∈ removeEntry id list) :
    e ∈ list ∧ e.1 ≠ id :=
  mem_removeEntryLoop h

/-! ## Timers -/

inductive TimerStatus where
  | free
  | active
  | fired
  | stopped
  deriving DecidableEq, Repr

/-- A slot of `timer_tlb`; the callback is always `timeout_callback`, the deadline is left to the
events. -/
structure Timer where
  status : TimerStatus
  arg : Nat
  deriving DecidableEq, Repr

def maxTimer : Nat := 255

/-- The slot of a cleared table. -/
def Timer.clear : Timer := ⟨.free, 0⟩

/-- `timer_new`: the first free slot, as an id from 1 on, or `TIMER_INVALID`. -/
def timerNew (tlb : Nat → Timer) : (Nat → Timer) × Int :=
  match (List.range maxTimer).find? fun id => (tlb id).status = .free with
  | some id => (Function.update tlb id { tlb id with status := .stopped }, (id : Int) + 1)
  | none => (tlb, -1)

/-- `timer_free`. -/
def timerFree (tlb : Nat → Timer) (id : Int) : Nat → Timer :=
  if id - 1 < 0 ∨ (maxTimer : Int) ≤ id - 1 then tlb
  else Function.update tlb (id - 1).toNat Timer.clear

/-- `timer_set`, with the id of a backup for `timeout_callback`. -/
def timerSet (tlb : Nat → Timer) (id : Int) (arg : Nat) : Nat → Timer :=
  if id - 1 < 0 ∨ (maxTimer : Int) ≤ id - 1 then tlb
  else if (tlb (id - 1).toNat).status = .free then tlb
  else Function.update tlb (id - 1).toNat ⟨.active, arg⟩

end Mlvm.Transport
