import Mlvm.Transport.BackupName
import Mlvm.Transport.FrameList

/-!
# The backup store with a cache

`pdu_backup.c`, the variant with the cache. A table of 256 **slots**, indexed by a hash of the key,
holds the last backup saved in each slot. A backup that has to make room goes to **disk**: a file
with the control block and the bytes of the PDU, and two symbolic links to it. Ids are given out
by the slots, each counting on in steps of 256, so the slot is read off an id.

Every call to the system or the allocators may fail; what it does is an argument (`Memory`,
`WriteCalls`, `LoadCalls`, `UnlinkCalls`). The frames a copy runs out of are not reported
(`frame_copy` returns what it copied), and neither are those that are not written to a file, nor
the links that are not made.
-/

namespace Mlvm.Transport

/-- A PDU as a backup keeps it: the control block, but for its frames and the pointer to itself,
and the bytes. -/
structure BackedPdu (Block : Type) where
  block : Block
  bytes : List UInt8
  deriving DecidableEq, Repr

variable {Block : Type}

/-! ## The hash of a key -/

/-- `MAX_PDU_BACKUP_CACHE_ENTRY`. -/
def maxPduBackupCacheEntry : ℕ := 256

/-- `BACKUP_NAME_MAX`, that is `MAX_DNS_NAME_SIZE + 70`. -/
def backupNameMax : ℕ := 150

/-- The loop of `strhash_np`; a `char` is signed. -/
def strhashLoop : List Char → ℕ → BitVec 32 → BitVec 32 → BitVec 32
  | [], i, h, v => h + v * BitVec.ofNat 32 i
  | c :: key, i, h, v =>
      let v := (v <<< 8) ||| (BitVec.ofNat 8 c.toNat).signExtend 32
      let h := if i % 4 = 0 then h + v * BitVec.ofNat 32 i else h
      strhashLoop key (i + 1) h v

/-- `strhash_np`. -/
def strhashNp (key : List Char) (size : ℕ) : ℕ :=
  let h := strhashLoop key 1 0 0
  if 0 ≤ h.toInt then h.toNat % size else (-h.toInt).toNat % size

/-- The slot of a key. -/
def rId (key : List Char) : ℕ := strhashNp key maxPduBackupCacheEntry

theorem rId_lt (key : List Char) : rId key < 256 := by
  unfold rId strhashNp
  dsimp only [maxPduBackupCacheEntry]
  split_ifs <;> exact Nat.mod_lt _ (by decide)

/-- `BACKUP_RINDEX`: the slot of an id. -/
def backupRindex (lId : ℤ) : ℕ := (lId % 256).toNat

/-! ## The store -/

/-- `struct bentry`. -/
structure Bentry (Block : Type) where
  key : List Char
  lId : ℤ
  bPdu : Option (BackedPdu Block)
  valid : Bool

/-- What a name in the spool directory stands for: a file, which may end before the control block
does, or a link. -/
inductive Node (Block : Type) where
  | file (block : Option Block) (bytes : List UInt8)
  | link (target : List Char)

/-- The spool directory. -/
abbrev Disk (Block : Type) := List Char → Option (Node Block)

/-- The table of the cache and the spool directory. -/
structure Backups (Block : Type) where
  bcache : ℕ → Bentry Block
  disk : Disk Block

/-- The cleared table and an empty directory. -/
def Backups.start : Backups Block where
  bcache _ := ⟨[], 0, none, false⟩
  disk _ := none

/-- Whether `pdu_new` finds a PDU, and for how many bytes frames can be had. -/
structure Memory where
  pdu : Bool
  copied : ℕ

/-- `pdu_clone`: into `c` when it is given, otherwise into a new PDU. -/
def pduClone (m : Memory) (o : BackedPdu Block) (c : Option (BackedPdu Block)) :
    Option (BackedPdu Block) :=
  if c.isSome || m.pdu then some ⟨o.block, o.bytes.take m.copied⟩ else none

/-! ## Saving -/

/-- What the calls of `save_to_disk` do: whether the file can be opened and the control block
written, how many bytes of the frames are, and which links can be removed and made. -/
structure WriteCalls where
  opens : Bool
  header : Bool
  written : ℕ
  unlinkId : Bool
  symlinkId : Bool
  unlinkKey : Bool
  symlinkKey : Bool

/-- `unlink`. -/
def unlinkName (ok : Bool) (disk : Disk Block) (name : List Char) : Disk Block :=
  if ok then Function.update disk name none else disk

/-- `symlink`: nothing happens when the name is there already. -/
def symlinkName (ok : Bool) (disk : Disk Block) (target name : List Char) : Disk Block :=
  if ok && (disk name).isNone then Function.update disk name (some (.link target)) else disk

/-- `save_to_disk`: whether it succeeded, and the directory behind it. -/
def saveToDisk (e : WriteCalls) (disk : Disk Block) (key : List Char) (lId : ℤ)
    (bPdu : Option (BackedPdu Block)) : Bool × Disk Block :=
  if e.opens then
    let disk := Function.update disk (fileName lId key) (some (.file none []))
    match bPdu with
    | none => (false, disk)
    | some b =>
        if e.header then
          let disk := Function.update disk (fileName lId key)
            (some (.file (some b.block) (b.bytes.take e.written)))
          let linkname := fileName lId key
          let disk := unlinkName e.unlinkId disk (idLink lId)
          let disk := symlinkName e.symlinkId disk linkname (idLink lId)
          let disk := unlinkName e.unlinkKey disk (keyLink key)
          let disk := symlinkName e.symlinkKey disk linkname (keyLink key)
          (true, disk)
        else (false, disk)
  else (false, disk)

/-- The id a slot gives out next. -/
def nextId (r : ℕ) (lId : ℤ) : ℤ :=
  let lId := wrapInt (r + wrapInt (lId + 256) / 256 * 256)
  if lId < 0 then r else lId

/-- The second half of `backup_save`: the slot takes a clone of the PDU. -/
def Backups.place (s : Backups Block) (m : Memory) (key : List Char) (p : BackedPdu Block) :
    ℤ × Backups Block :=
  let slot := s.bcache (rId key)
  match pduClone m p slot.bPdu with
  | none => (-1, s)
  | some c =>
      let lId := nextId (rId key) slot.lId
      (lId, { s with
        bcache := Function.update s.bcache (rId key) ⟨key.take backupNameMax, lId, some c, true⟩ })

/-- `backup_save`. When the backup in the slot cannot be written it stays invalid: the code sets
the flag of the entry in front of the table instead. -/
def Backups.backupSave (s : Backups Block) (e : WriteCalls) (m : Memory) (key : List Char)
    (p : BackedPdu Block) : ℤ × Backups Block :=
  let slot := s.bcache (rId key)
  let s' : Backups Block :=
    if slot.valid then
      { s with bcache := Function.update s.bcache (rId key) { slot with valid := false } }
    else s
  if slot.valid && slot.key != key.take backupNameMax then
    let (saved, disk) := saveToDisk e s.disk slot.key slot.lId slot.bPdu
    if saved then { s' with disk := disk }.place m key p else (-1, { s' with disk := disk })
  else s'.place m key p

/-! ## Loading -/

/-- What a load meets: the memory for a clone of what the cache holds; and for a file, whether there
is a PDU to load into, whether the file can be opened, and whether the frames suffice. -/
structure LoadCalls where
  clone : Memory
  pdu : Bool
  opens : Bool
  frames : Bool

/-- `load_from_file`; opening a link opens the file it leads to. -/
def loadFromFile (e : LoadCalls) (disk : Disk Block) (filename : List Char) :
    Option (BackedPdu Block) :=
  let node := match disk filename with
    | some (.link target) => disk target
    | node => node
  match node with
  | some (.file (some block) bytes) =>
      if e.pdu && e.opens && e.frames then some ⟨block, bytes⟩ else none
  | _ => none

/-- `load_from_cache`. -/
def Backups.loadFromCache (s : Backups Block) (e : LoadCalls) (key : List Char) :
    Option (BackedPdu Block) :=
  let slot := s.bcache (rId key)
  if slot.valid && slot.key == key.take backupNameMax then
    slot.bPdu.bind fun b => pduClone e.clone b none
  else none

/-- `load_from_idcache`. -/
def Backups.loadFromIdcache (s : Backups Block) (e : LoadCalls) (lId : ℤ) :
    Option (BackedPdu Block) :=
  let slot := s.bcache (backupRindex lId)
  if slot.valid && slot.lId == lId then slot.bPdu.bind fun b => pduClone e.clone b none else none

/-- `backup_load`. -/
def Backups.backupLoad (s : Backups Block) (e : LoadCalls) (key : List Char) :
    Option (BackedPdu Block) :=
  match s.loadFromCache e key with
  | some p => some p
  | none => loadFromFile e s.disk (keyLink key)

/-- `backup_idload`. -/
def Backups.backupIdload (s : Backups Block) (e : LoadCalls) (lId : ℤ) :
    Option (BackedPdu Block) :=
  match s.loadFromIdcache e lId with
  | some p => some p
  | none => loadFromFile e s.disk (idLink lId)

/-! ## Cancelling -/

/-- Whether `readlink` and the three calls of `unlink` succeed. -/
structure UnlinkCalls where
  reads : Bool
  unlinkId : Bool
  unlinkKey : Bool
  unlinkFile : Bool

/-- `cancel_backup_file`: the id and the key are taken from the name of the file. -/
def cancelBackupFile (e : UnlinkCalls) (disk : Disk Block) (filename : List Char) :
    ℤ × Disk Block :=
  let lId := atoi filename
  let key := keyOf filename
  let disk := unlinkName e.unlinkId disk (idLink lId)
  let disk := unlinkName e.unlinkKey disk (keyLink key)
  (if e.unlinkFile && (disk (fileName lId key)).isSome then 0 else -1,
    unlinkName e.unlinkFile disk (fileName lId key))

/-- `cancel_from_disk` and `cancel_from_iddisk`, with the name of the link. -/
def cancelFromDisk (e : UnlinkCalls) (disk : Disk Block) (linkname : List Char) :
    ℤ × Disk Block :=
  match disk linkname with
  | some (.link filename) => if e.reads then cancelBackupFile e disk filename else (-1, disk)
  | _ => (-1, disk)

/-- The PDU of a slot is freed and the entry invalidated. -/
def Backups.cancelSlot (s : Backups Block) (r : ℕ) : Backups Block :=
  { s with
    bcache := Function.update s.bcache r { s.bcache r with bPdu := none, valid := false } }

/-- `backup_cancel`. -/
def Backups.backupCancel (s : Backups Block) (e : UnlinkCalls) (key : List Char) :
    ℤ × Backups Block :=
  let slot := s.bcache (rId key)
  if slot.valid && slot.key == key.take backupNameMax then (rId key, s.cancelSlot (rId key))
  else
    let (ret, disk) := cancelFromDisk e s.disk (keyLink key)
    (ret, { s with disk := disk })

/-- `backup_idcancel`. -/
def Backups.backupIdcancel (s : Backups Block) (e : UnlinkCalls) (lId : ℤ) : ℤ × Backups Block :=
  let slot := s.bcache (backupRindex lId)
  if slot.valid && slot.lId == lId then (backupRindex lId, s.cancelSlot (backupRindex lId))
  else
    let (ret, disk) := cancelFromDisk e s.disk (idLink lId)
    (ret, { s with disk := disk })

end Mlvm.Transport
