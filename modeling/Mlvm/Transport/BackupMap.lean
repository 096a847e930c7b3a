import Mlvm.Transport.BackupCache

/-!
# The backup store is a map

What the cached backup store is for: a **map** from keys to the PDU saved last and not cancelled
since, with the id its save returned (`BackupMap`).

**The invariant** (`Mirrors`). A valid slot holds what the map says of its key. What the map says
of any other key is on disk: the file, and the two links that lead to it. A key the map does not
know has no copy anywhere. Every id belongs to one key, and a slot counts past all its ids.

**Stale copies.** A key that is saved again while its last copy is on disk has two copies, the
older of which no load ever sees. Cancelling such a key destroys one of the two and leaves the
other to be found (`cancel_resurrects`), so a cancel must meet no more than one (`Single`).

Main results: `Mirrors.step` (what each operation does to the map) and `backups_are_a_map`
(every load gives what the map says).
-/

namespace Mlvm.Transport

variable {Block : Type}

/-! ## The map -/

/-- The backups saved and not cancelled, and the key whose save returned an id. -/
structure BackupMap (Block : Type) where
  entry : List Char → Option (ℤ × BackedPdu Block)
  owner : ℤ → Option (List Char)

namespace BackupMap

def start : BackupMap Block := ⟨fun _ => none, fun _ => none⟩

/-- A successful save. -/
def save (M : BackupMap Block) (key : List Char) (lId : ℤ) (p : BackedPdu Block) :
    BackupMap Block :=
  ⟨Function.update M.entry key (some (lId, p)), Function.update M.owner lId (some key)⟩

def cancel (M : BackupMap Block) (key : List Char) : BackupMap Block :=
  { M with entry := Function.update M.entry key none }

/-- The key whose last save returned the id is cancelled. -/
def idcancel (M : BackupMap Block) (lId : ℤ) : BackupMap Block :=
  { M with
    entry := fun key => if (M.entry key).map Prod.fst = some lId then none else M.entry key }

end BackupMap

/-! ## Operations and their conditions -/

/-- The operations that change the store, with what the calls they make do. -/
inductive BackupOp (Block : Type) where
  | save (key : List Char) (p : BackedPdu Block) (e : WriteCalls) (m : Memory)
  | cancel (key : List Char) (e : UnlinkCalls)
  | idcancel (lId : ℤ) (e : UnlinkCalls)

/-- One operation on the store. -/
def Backups.step (s : Backups Block) : BackupOp Block → Backups Block
  | .save key p e m => (s.backupSave e m key p).2
  | .cancel key e => (s.backupCancel e key).2
  | .idcancel lId e => (s.backupIdcancel e lId).2

/-- What the operation means for the map: a save counts when it returned an id. -/
def BackupMap.step (M : BackupMap Block) (s : Backups Block) : BackupOp Block → BackupMap Block
  | .save key p e m =>
      if 0 ≤ (s.backupSave e m key p).1 then M.save key (s.backupSave e m key p).1 p else M
  | .cancel key _ => M.cancel key
  | .idcancel lId _ => M.idcancel lId

/-- A key that fits the table and is not printed like an id. -/
structure NameOk (key : List Char) : Prop where
  length : key.length < backupNameMax
  name : ∀ lId, key ≠ decimal lId

/-- The key is the one of a valid slot. -/
def Backups.Cached (s : Backups Block) (key : List Char) : Prop :=
  (s.bcache (rId key)).valid ∧ (s.bcache (rId key)).key = key

/-- There is a file for the key, with that id. -/
def Backups.OnDisk (s : Backups Block) (key : List Char) (lId : ℤ) : Prop :=
  s.disk (fileName lId key) ≠ none

/-- There is no more than one copy of the key. -/
def Backups.Single (s : Backups Block) (key : List Char) : Prop :=
  (s.Cached key → ∀ lId, ¬s.OnDisk key lId) ∧
    ∀ lId lId', s.OnDisk key lId → s.OnDisk key lId' → lId = lId'

/-- The file of a backup is written whole and both links are made. -/
structure WriteCalls.Ok (e : WriteCalls) (p : BackedPdu Block) : Prop where
  opens : e.opens
  header : e.header
  written : p.bytes.length ≤ e.written
  unlinkId : e.unlinkId
  symlinkId : e.symlinkId
  unlinkKey : e.unlinkKey
  symlinkKey : e.symlinkKey

structure UnlinkCalls.Ok (e : UnlinkCalls) : Prop where
  reads : e.reads
  unlinkId : e.unlinkId
  unlinkKey : e.unlinkKey
  unlinkFile : e.unlinkFile

/-- The condition on an operation. A save has the frames to clone its PDU, the next id of its slot
is still an `int`, and a backup that makes room for it gets to disk. A cancel destroys what it
finds, and finds no more than one copy. -/
def Backups.Meets (s : Backups Block) : BackupOp Block → Prop
  | .save key p e m => NameOk key ∧ p.bytes.length ≤ m.copied ∧
      rId key + ((s.bcache (rId key)).lId + 256) / 256 * 256 < 2 ^ 31 ∧
      ((s.bcache (rId key)).valid → (s.bcache (rId key)).key ≠ key →
        ∀ q, (s.bcache (rId key)).bPdu = some q → e.Ok q)
  | .cancel key e => NameOk key ∧ e.Ok ∧ s.Single key
  | .idcancel lId e => e.Ok ∧ ∀ key,
      (s.Cached key ∧ (s.bcache (rId key)).lId = lId) ∨ s.OnDisk key lId → s.Single key

/-! ## The disk -/

/-- The directory once a backup has been written. -/
def stored (disk : Disk Block) (key : List Char) (lId : ℤ) (p : BackedPdu Block) : Disk Block :=
  Function.update (Function.update (Function.update disk (fileName lId key)
    (some (.file (some p.block) p.bytes))) (idLink lId) (some (.link (fileName lId key))))
    (keyLink key) (some (.link (fileName lId key)))

/-- The directory once a backup has been destroyed. -/
def destroyed (disk : Disk Block) (key : List Char) (lId : ℤ) : Disk Block :=
  Function.update (Function.update (Function.update disk (idLink lId) none) (keyLink key) none)
    (fileName lId key) none

theorem symlink_unlink (disk : Disk Block) (target name : List Char) :
    symlinkName true (unlinkName true disk name) target name =
      Function.update disk name (some (.link target)) := by
  simp [symlinkName, unlinkName]

/-- A backup whose calls all succeed is stored. -/
theorem saveToDisk_ok {e : WriteCalls} {p : BackedPdu Block} (he : e.Ok p) (disk : Disk Block)
    (key : List Char) (lId : ℤ) :
    saveToDisk e disk key lId (some p) = (true, stored disk key lId p) := by
  simp only [saveToDisk, he.opens, he.header, he.unlinkId, he.symlinkId, he.unlinkKey,
    he.symlinkKey, if_true, symlink_unlink, Function.update_idem, List.take_of_length_le he.written]
  rfl

/-- A backup whose calls all succeed is destroyed. -/
theorem cancelBackupFile_ok {e : UnlinkCalls} (he : e.Ok) (disk : Disk Block) (key : List Char)
    (lId : ℤ) :
    (cancelBackupFile e disk (fileName lId key)).2 = destroyed disk key lId := by
  simp only [cancelBackupFile, atoi_fileName, keyOf_fileName, unlinkName, he.unlinkId,
    he.unlinkKey, he.unlinkFile, if_true]
  rfl

/-- A cancel on disk follows the link and destroys the backup. -/
theorem cancelFromDisk_link {e : UnlinkCalls} (he : e.Ok) {disk : Disk Block} {key name : List Char}
    {lId : ℤ} (h : disk name = some (.link (fileName lId key))) :
    (cancelFromDisk e disk name).2 = destroyed disk key lId := by
  simp only [cancelFromDisk, h, he.reads, if_true]
  exact cancelBackupFile_ok he disk key lId

/-- A cancel on disk without a link does nothing. -/
theorem cancelFromDisk_none {disk : Disk Block} {name : List Char} (e : UnlinkCalls)
    (h : ∀ t, disk name ≠ some (.link t)) : cancelFromDisk e disk name = (-1, disk) := by
  rw [cancelFromDisk]
  split
  · next t ht => exact absurd ht (h t)
  · rfl

section Names

variable (disk : Disk Block) {key k : List Char} {lId i : ℤ} (p : BackedPdu Block)

theorem fileName_ne_idLink : fileName lId key ≠ idLink i := fileName_ne_dot _ _ _

theorem fileName_ne_keyLink : fileName lId key ≠ keyLink k := fileName_ne_dot _ _ _

theorem stored_file_self : stored disk key lId p (fileName lId key) =
    some (.file (some p.block) p.bytes) := by
  rw [stored, Function.update_of_ne fileName_ne_keyLink, Function.update_of_ne fileName_ne_idLink,
    Function.update_self]

theorem stored_file_of_ne (h : ¬(i = lId ∧ k = key)) :
    stored disk key lId p (fileName i k) = disk (fileName i k) := by
  rw [stored, Function.update_of_ne fileName_ne_keyLink, Function.update_of_ne fileName_ne_idLink,
    Function.update_of_ne fun heq => h (fileName_inj heq)]

theorem stored_idLink_self (hkey : NameOk key) :
    stored disk key lId p (idLink lId) = some (.link (fileName lId key)) := by
  rw [stored, Function.update_of_ne (keyLink_ne_idLink hkey.name lId).symm, Function.update_self]

theorem stored_idLink_of_ne (hkey : NameOk key) (h : i ≠ lId) :
    stored disk key lId p (idLink i) = disk (idLink i) := by
  rw [stored, Function.update_of_ne (keyLink_ne_idLink hkey.name i).symm,
    Function.update_of_ne fun heq => h (idLink_injective heq),
    Function.update_of_ne fileName_ne_idLink.symm]

theorem stored_keyLink_self :
    stored disk key lId p (keyLink key) = some (.link (fileName lId key)) :=
  Function.update_self _ _ _

theorem stored_keyLink_of_ne (hk : NameOk k) (h : k ≠ key) :
    stored disk key lId p (keyLink k) = disk (keyLink k) := by
  rw [stored, Function.update_of_ne fun heq => h (keyLink_injective heq),
    Function.update_of_ne (keyLink_ne_idLink hk.name lId),
    Function.update_of_ne fileName_ne_keyLink.symm]

theorem destroyed_file_self : destroyed disk key lId (fileName lId key) = none :=
  Function.update_self _ _ _

theorem destroyed_file_of_ne (h : ¬(i = lId ∧ k = key)) :
    destroyed disk key lId (fileName i k) = disk (fileName i k) := by
  rw [destroyed, Function.update_of_ne fun heq => h (fileName_inj heq),
    Function.update_of_ne fileName_ne_keyLink, Function.update_of_ne fileName_ne_idLink]

theorem destroyed_idLink_self (hkey : NameOk key) : destroyed disk key lId (idLink lId) = none := by
  rw [destroyed, Function.update_of_ne fileName_ne_idLink.symm,
    Function.update_of_ne (keyLink_ne_idLink hkey.name lId).symm, Function.update_self]

theorem destroyed_idLink_of_ne (hkey : NameOk key) (h : i ≠ lId) :
    destroyed disk key lId (idLink i) = disk (idLink i) := by
  rw [destroyed, Function.update_of_ne fileName_ne_idLink.symm,
    Function.update_of_ne (keyLink_ne_idLink hkey.name i).symm,
    Function.update_of_ne fun heq => h (idLink_injective heq)]

theorem destroyed_keyLink_self : destroyed disk key lId (keyLink key) = none := by
  rw [destroyed, Function.update_of_ne fileName_ne_keyLink.symm, Function.update_self]

theorem destroyed_keyLink_of_ne (hk : NameOk k) (h : k ≠ key) :
    destroyed disk key lId (keyLink k) = disk (keyLink k) := by
  rw [destroyed, Function.update_of_ne fileName_ne_keyLink.symm,
    Function.update_of_ne fun heq => h (keyLink_injective heq),
    Function.update_of_ne (keyLink_ne_idLink hk.name lId)]

end Names

/-! ## The invariant -/

/-- The store holds what the map says, see the head of the module. -/
structure Mirrors (s : Backups Block) (M : BackupMap Block) : Prop where
  slot : ∀ r, (s.bcache r).valid → rId (s.bcache r).key = r ∧
    ∃ p, (s.bcache r).bPdu = some p ∧ M.entry (s.bcache r).key = some ((s.bcache r).lId, p)
  counter : ∀ r, 0 ≤ (s.bcache r).lId
  owner : ∀ i k, M.owner i = some k →
    NameOk k ∧ backupRindex i = rId k ∧ i ≤ (s.bcache (rId k)).lId
  entryOwner : ∀ k i p, M.entry k = some (i, p) → M.owner i = some k
  entry : ∀ k i p, M.entry k = some (i, p) → ¬s.Cached k →
    s.disk (keyLink k) = some (.link (fileName i k)) ∧
    s.disk (idLink i) = some (.link (fileName i k)) ∧
    s.disk (fileName i k) = some (.file (some p.block) p.bytes)
  gone : ∀ k, M.entry k = none → ∀ i, ¬s.OnDisk k i
  file : ∀ k i, s.OnDisk k i →
    M.owner i = some k ∧ s.disk (idLink i) = some (.link (fileName i k))
  byKey : ∀ k n, NameOk k → s.disk (keyLink k) = some n →
    ∃ i, n = .link (fileName i k) ∧ s.OnDisk k i
  byId : ∀ i n, s.disk (idLink i) = some n → ∃ k, n = .link (fileName i k) ∧ s.OnDisk k i

theorem Mirrors.start : Mirrors (Backups.start : Backups Block) .start := by
  constructor <;> simp [Backups.start, BackupMap.start, Backups.OnDisk]

/-- The next id of a slot: above all it has given out, and it tells the slot. -/
theorem nextId_spec {r : ℕ} {lId : ℤ} (hr : r < 256) (hpos : 0 ≤ lId)
    (h : r + (lId + 256) / 256 * 256 < 2 ^ 31) :
    lId < nextId r lId ∧ backupRindex (nextId r lId) = r := by
  have hnext : nextId r lId = r + (lId + 256) / 256 * 256 := by
    rw [nextId, wrapInt_of_bounds (x := lId + 256) (by omega) (by omega),
      wrapInt_of_bounds (by omega) (by omega), if_neg (by omega)]
  rw [hnext, backupRindex]
  omega

namespace Mirrors

variable {s : Backups Block} {M : BackupMap Block} {key : List Char}

theorem owner_of_slot (h : Mirrors s M) {r : ℕ} (hv : (s.bcache r).valid) :
    M.owner (s.bcache r).lId = some (s.bcache r).key := by
  obtain ⟨-, p, -, hentry⟩ := h.slot r hv
  exact h.entryOwner _ _ _ hentry

/-- What the map knows is somewhere. -/
theorem cached_or_onDisk (h : Mirrors s M) {i : ℤ} {p : BackedPdu Block}
    (hk : M.entry key = some (i, p)) : s.Cached key ∨ s.OnDisk key i := by
  by_cases hc : s.Cached key
  · exact .inl hc
  · refine .inr fun hnone => ?_
    rw [(h.entry key i p hk hc).2.2] at hnone
    exact absurd hnone (by simp)

/-- The id of a key that is cached is the one of its slot. -/
theorem entry_of_cached (h : Mirrors s M) (hc : s.Cached key) :
    ∃ p, (s.bcache (rId key)).bPdu = some p ∧
      M.entry key = some ((s.bcache (rId key)).lId, p) := by
  obtain ⟨-, p, hp, hentry⟩ := h.slot _ hc.1
  exact ⟨p, hp, by rw [← hc.2, hc.2]; rw [hc.2] at hentry; exact hentry⟩

/-! ### Saving -/

/-- A backup that makes room goes to disk. -/
theorem evict (h : Mirrors s M) {r : ℕ} {p : BackedPdu Block} (hv : (s.bcache r).valid)
    (hp : (s.bcache r).bPdu = some p) :
    Mirrors
      { bcache := Function.update s.bcache r { s.bcache r with valid := false }
        disk := stored s.disk (s.bcache r).key (s.bcache r).lId p } M := by
  obtain ⟨hr, p', hp', hentry⟩ := h.slot r hv
  obtain rfl : p = p' := Option.some.inj (hp.symm.trans hp')
  have howner := h.owner_of_slot hv
  have hname := (h.owner _ _ howner).1
  have hlId : ∀ r', (Function.update s.bcache r { s.bcache r with valid := false } r').lId =
      (s.bcache r').lId := fun r' => by
    by_cases hr' : r' = r
    · rw [hr', Function.update_self]
    · rw [Function.update_of_ne hr']
  -- a file of another backup has another id, for ids have one owner
  have hother : ∀ k i, M.owner i = some k → ¬(i = (s.bcache r).lId ∧ k = (s.bcache r).key) →
      i ≠ (s.bcache r).lId := fun k i hi hne heq => by
    rw [heq, howner] at hi
    exact hne ⟨heq, (Option.some.inj hi).symm⟩
  have honDisk : ∀ k i, stored s.disk (s.bcache r).key (s.bcache r).lId p (fileName i k) ≠ none ↔
      (i = (s.bcache r).lId ∧ k = (s.bcache r).key) ∨ s.OnDisk k i := fun k i => by
    by_cases hself : i = (s.bcache r).lId ∧ k = (s.bcache r).key
    · obtain ⟨rfl, rfl⟩ := hself
      simp [stored_file_self]
    · rw [stored_file_of_ne _ _ hself]
      simp [hself, Backups.OnDisk]
  constructor
  · intro r' hv'
    have hr' : r' ≠ r := by
      rintro rfl
      simp at hv'
    simp only [Function.update_of_ne hr'] at hv' ⊢
    exact h.slot r' hv'
  · intro r'
    rw [hlId]
    exact h.counter r'
  · intro i k hi
    rw [hlId]
    exact h.owner i k hi
  · exact h.entryOwner
  · intro k i q hk hc
    by_cases hself : i = (s.bcache r).lId ∧ k = (s.bcache r).key
    · obtain ⟨rfl, rfl⟩ := hself
      rw [hentry] at hk
      obtain rfl : p = q := by simpa using hk
      exact ⟨stored_keyLink_self _ _, stored_idLink_self _ _ hname, stored_file_self _ _⟩
    · have hid := hother k i (h.entryOwner k i q hk) hself
      have hkey : k ≠ (s.bcache r).key := by
        rintro rfl
        rw [hentry] at hk
        simp only [Option.some.injEq, Prod.mk.injEq] at hk
        exact hid hk.1.symm
      have hkname := (h.owner _ _ (h.entryOwner k i q hk)).1
      have hcached : ¬s.Cached k := fun hcached => hc <| by
        have hne : rId k ≠ r := by
          rintro rfl
          exact hkey hcached.2.symm
        simpa only [Backups.Cached, Function.update_of_ne hne] using hcached
      obtain ⟨hkl, hil, hf⟩ := h.entry k i q hk hcached
      exact ⟨(stored_keyLink_of_ne _ _ hkname hkey).trans hkl,
        (stored_idLink_of_ne _ _ hname hid).trans hil, (stored_file_of_ne _ _ hself).trans hf⟩
  · intro k hk i hi
    rcases (honDisk k i).1 hi with ⟨-, rfl⟩ | hi
    · rw [hentry] at hk
      exact absurd hk (by simp)
    · exact h.gone k hk i hi
  · intro k i hi
    by_cases hself : i = (s.bcache r).lId ∧ k = (s.bcache r).key
    · obtain ⟨rfl, rfl⟩ := hself
      exact ⟨howner, stored_idLink_self _ _ hname⟩
    · obtain ⟨hi, hil⟩ := h.file k i (((honDisk k i).1 hi).resolve_left hself)
      exact ⟨hi, (stored_idLink_of_ne _ _ hname (hother k i hi hself)).trans hil⟩
  · intro k n hk hn
    by_cases hkey : k = (s.bcache r).key
    · subst hkey
      refine ⟨_, ?_, (honDisk _ _).2 (.inl ⟨rfl, rfl⟩)⟩
      exact (Option.some.inj ((stored_keyLink_self _ _).symm.trans hn)).symm
    · obtain ⟨i, rfl, hi⟩ := h.byKey k n hk ((stored_keyLink_of_ne _ _ hk hkey).symm.trans hn)
      exact ⟨i, rfl, (honDisk _ _).2 (.inr hi)⟩
  · intro i n hn
    by_cases hid : i = (s.bcache r).lId
    · subst hid
      refine ⟨_, ?_, (honDisk _ _).2 (.inl ⟨rfl, rfl⟩)⟩
      exact (Option.some.inj ((stored_idLink_self _ _ hname).symm.trans hn)).symm
    · obtain ⟨k, rfl, hi⟩ := h.byId i n ((stored_idLink_of_ne _ _ hname hid).symm.trans hn)
      exact ⟨k, rfl, (honDisk _ _).2 (.inr hi)⟩

/-- The slot of the key takes a new backup, with an id above all its others. -/
theorem put (h : Mirrors s M) (hkey : NameOk key)
    (hfree : (s.bcache (rId key)).valid → (s.bcache (rId key)).key = key) {i : ℤ}
    (hlt : (s.bcache (rId key)).lId < i) (hi : backupRindex i = rId key)
    (p : BackedPdu Block) :
    Mirrors
      { s with bcache := Function.update s.bcache (rId key) ⟨key, i, some p, true⟩ }
      (M.save key i p) := by
  have hself := Function.update_self (rId key) (⟨key, i, some p, true⟩ : Bentry Block) s.bcache
  have hkept : ∀ r, r ≠ rId key →
      Function.update s.bcache (rId key) ⟨key, i, some p, true⟩ r = s.bcache r :=
    fun r hr => Function.update_of_ne hr _ _
  have hmono : ∀ r, (s.bcache r).lId ≤
      (Function.update s.bcache (rId key) ⟨key, i, some p, true⟩ r).lId := fun r => by
    by_cases hr : r = rId key
    · rw [hr, hself]
      exact le_of_lt hlt
    · rw [hkept r hr]
  have hfresh : M.owner i = none := by
    cases hk : M.owner i with
    | none => rfl
    | some k =>
      obtain ⟨-, hindex, hle⟩ := h.owner i k hk
      rw [← hindex, hi] at hle
      exact absurd hlt (by omega)
  have howner : ∀ j k, M.owner j = some k → (M.save key i p).owner j = some k := fun j k hj => by
    have hne : j ≠ i := by
      rintro rfl
      rw [hfresh] at hj
      exact absurd hj (by simp)
    exact (Function.update_of_ne hne _ _).trans hj
  have hother : ∀ k, k ≠ key → (M.save key i p).entry k = M.entry k := fun k hk =>
    Function.update_of_ne hk _ _
  have hnew : (M.save key i p).entry key = some (i, p) := Function.update_self _ _ _
  have hnewOwner : (M.save key i p).owner i = some key := Function.update_self _ _ _
  constructor
  · intro r hv
    by_cases hr : r = rId key
    · subst hr
      simp only [hself]
      exact ⟨trivial, p, rfl, hnew⟩
    · simp only [hkept r hr] at hv ⊢
      obtain ⟨hindex, q, hq, hentry⟩ := h.slot r hv
      refine ⟨hindex, q, hq, ?_⟩
      have hne : (s.bcache r).key ≠ key := fun heq => hr (by rw [← hindex, heq])
      rw [hother _ hne, hentry]
  · intro r
    exact le_trans (h.counter r) (hmono r)
  · intro j k hj
    by_cases hji : j = i
    · subst hji
      obtain rfl : key = k := Option.some.inj (hnewOwner.symm.trans hj)
      exact ⟨hkey, hi, by simp only [hself]; exact le_refl _⟩
    · obtain ⟨hname, hindex, hle⟩ := h.owner j k ((Function.update_of_ne hji _ _).symm.trans hj)
      exact ⟨hname, hindex, le_trans hle (hmono _)⟩
  · intro k j q hk
    by_cases hkk : k = key
    · subst hkk
      obtain ⟨rfl, rfl⟩ : i = j ∧ p = q := by simpa using hnew.symm.trans hk
      exact hnewOwner
    · exact howner j k (h.entryOwner k j q ((hother k hkk).symm.trans hk))
  · intro k j q hk hc
    have hkk : k ≠ key := by
      rintro rfl
      exact hc (by simp only [Backups.Cached, hself, and_self])
    refine h.entry k j q ((hother k hkk).symm.trans hk) fun hcached => hc ?_
    have hr : rId k ≠ rId key := fun heq => hkk <| by
      rw [← hcached.2, heq]
      exact hfree (heq ▸ hcached.1)
    simpa only [Backups.Cached, hkept _ hr] using hcached
  · intro k hk
    have hkk : k ≠ key := by
      rintro rfl
      rw [hnew] at hk
      exact absurd hk (by simp)
    exact h.gone k ((hother k hkk).symm.trans hk)
  · intro k j hj
    exact ⟨howner j k (h.file k j hj).1, (h.file k j hj).2⟩
  · exact h.byKey
  · exact h.byId

/-! ### Cancelling -/

/-- The one copy of a key in its slot is cancelled. -/
theorem cancelSlot (h : Mirrors s M) (hc : s.Cached key) (hsingle : s.Single key) :
    Mirrors (s.cancelSlot (rId key)) (M.cancel key) := by
  have hself : ((s.cancelSlot (rId key)).bcache (rId key)) =
      { s.bcache (rId key) with bPdu := none, valid := false } := Function.update_self _ _ _
  have hkept : ∀ r, r ≠ rId key → (s.cancelSlot (rId key)).bcache r = s.bcache r :=
    fun r hr => Function.update_of_ne hr _ _
  have hlId : ∀ r, ((s.cancelSlot (rId key)).bcache r).lId = (s.bcache r).lId := fun r => by
    by_cases hr : r = rId key
    · rw [hr, hself]
    · rw [hkept r hr]
  have hother : ∀ k, k ≠ key → (M.cancel key).entry k = M.entry k := fun k hk =>
    Function.update_of_ne hk _ _
  have hnew : (M.cancel key).entry key = none := Function.update_self _ _ _
  have hne : ∀ {k e}, (M.cancel key).entry k = some e → k ≠ key := by
    rintro k e hk rfl
    rw [hnew] at hk
    exact absurd hk (by simp)
  constructor
  · intro r hv
    have hr : r ≠ rId key := by
      rintro rfl
      rw [hself] at hv
      exact absurd hv (by simp)
    rw [hkept r hr] at hv ⊢
    obtain ⟨hindex, q, hq, hentry⟩ := h.slot r hv
    have hkk : (s.bcache r).key ≠ key := fun heq => hr (by rw [← hindex, heq])
    exact ⟨hindex, q, hq, (hother _ hkk).trans hentry⟩
  · intro r
    rw [hlId]
    exact h.counter r
  · intro i k hi
    rw [hlId]
    exact h.owner i k hi
  · intro k i q hk
    exact h.entryOwner k i q ((hother k (hne hk)).symm.trans hk)
  · intro k i q hk hcached
    refine h.entry k i q ((hother k (hne hk)).symm.trans hk) fun hk' => hcached ?_
    have hr : rId k ≠ rId key := fun heq => hne hk <| by
      rw [← hk'.2, heq, hc.2]
    simpa only [Backups.Cached, hkept _ hr] using hk'
  · intro k hk
    by_cases hkk : k = key
    · subst hkk
      exact hsingle.1 hc
    · exact h.gone k ((hother k hkk).symm.trans hk)
  · exact h.file
  · exact h.byKey
  · exact h.byId

/-- The one copy of a key on disk is destroyed. -/
theorem destroy (h : Mirrors s M) (hc : ¬s.Cached key) {i : ℤ} (hi : s.OnDisk key i)
    (hsingle : s.Single key) :
    Mirrors { s with disk := destroyed s.disk key i } (M.cancel key) := by
  obtain ⟨howner, -⟩ := h.file key i hi
  have hname := (h.owner i key howner).1
  have hother : ∀ k, k ≠ key → (M.cancel key).entry k = M.entry k := fun k hk =>
    Function.update_of_ne hk _ _
  have hnew : (M.cancel key).entry key = none := Function.update_self _ _ _
  have hne : ∀ {k e}, (M.cancel key).entry k = some e → k ≠ key := by
    rintro k e hk rfl
    rw [hnew] at hk
    exact absurd hk (by simp)
  -- what is left on disk is of another key, and so has another id
  have hleft : ∀ k j, destroyed s.disk key i (fileName j k) ≠ none ↔ k ≠ key ∧ s.OnDisk k j := by
    intro k j
    by_cases hself : j = i ∧ k = key
    · obtain ⟨rfl, rfl⟩ := hself
      simp [destroyed_file_self]
    · rw [destroyed_file_of_ne _ hself]
      refine ⟨fun hj => ⟨?_, hj⟩, fun hj => hj.2⟩
      rintro rfl
      exact hself ⟨hsingle.2 _ _ hj hi, rfl⟩
  have hid : ∀ k j, k ≠ key → M.owner j = some k → j ≠ i := by
    rintro k j hk hj rfl
    rw [howner] at hj
    exact hk (Option.some.inj hj).symm
  constructor
  · intro r hv
    obtain ⟨hindex, q, hq, hentry⟩ := h.slot r hv
    have hkk : (s.bcache r).key ≠ key := by
      rintro heq
      have hr : rId key = r := by rw [← heq, hindex]
      exact hc ⟨by rw [hr]; exact hv, by rw [hr]; exact heq⟩
    exact ⟨hindex, q, hq, (hother _ hkk).trans hentry⟩
  · exact h.counter
  · exact h.owner
  · intro k j q hk
    exact h.entryOwner k j q ((hother k (hne hk)).symm.trans hk)
  · intro k j q hk hcached
    have hkk := hne hk
    have hentry := (hother k hkk).symm.trans hk
    have hj := hid k j hkk (h.entryOwner k j q hentry)
    have hkname := (h.owner _ _ (h.entryOwner k j q hentry)).1
    obtain ⟨hkl, hil, hf⟩ := h.entry k j q hentry hcached
    exact ⟨(destroyed_keyLink_of_ne _ hkname hkk).trans hkl,
      (destroyed_idLink_of_ne _ hname hj).trans hil,
      (destroyed_file_of_ne _ fun hself => hkk hself.2).trans hf⟩
  · intro k hk j hj
    obtain ⟨hkk, hj⟩ := (hleft k j).1 hj
    exact h.gone k ((hother k hkk).symm.trans hk) j hj
  · intro k j hj
    obtain ⟨hkk, hj⟩ := (hleft k j).1 hj
    obtain ⟨hkowner, hil⟩ := h.file k j hj
    exact ⟨hkowner, (destroyed_idLink_of_ne _ hname (hid k j hkk hkowner)).trans hil⟩
  · intro k n hk hn
    have hkk : k ≠ key := by
      rintro rfl
      exact absurd ((destroyed_keyLink_self _).symm.trans hn) (by simp)
    obtain ⟨j, rfl, hj⟩ := h.byKey k n hk ((destroyed_keyLink_of_ne _ hk hkk).symm.trans hn)
    exact ⟨j, rfl, (hleft k j).2 ⟨hkk, hj⟩⟩
  · intro j n hn
    have hji : j ≠ i := by
      rintro rfl
      exact absurd ((destroyed_idLink_self _ hname).symm.trans hn) (by simp)
    obtain ⟨k, rfl, hj⟩ := h.byId j n ((destroyed_idLink_of_ne _ hname hji).symm.trans hn)
    refine ⟨k, rfl, (hleft k j).2 ⟨?_, hj⟩⟩
    rintro rfl
    exact hji (hsingle.2 _ _ hj hi)

end Mirrors

/-! ## What the operations do to the map -/

section Operations

variable {s : Backups Block} {M : BackupMap Block} {key : List Char} {p : BackedPdu Block}

theorem NameOk.take (hkey : NameOk key) : key.take backupNameMax = key :=
  List.take_of_length_le (le_of_lt hkey.length)

/-- Enough frames give a whole clone. -/
theorem pduClone_ok {m : Memory} (hm : p.bytes.length ≤ m.copied) (c : Option (BackedPdu Block)) :
    pduClone m p c = if c.isSome || m.pdu then some p else none := by
  rw [pduClone, List.take_of_length_le hm]

/-- The second half of a save fails without a PDU, or the slot takes the backup. -/
theorem place_eq {m : Memory} (hkey : NameOk key) (hm : p.bytes.length ≤ m.copied) :
    s.place m key p =
      if (s.bcache (rId key)).bPdu.isSome || m.pdu then
        (nextId (rId key) (s.bcache (rId key)).lId, { s with
          bcache := Function.update s.bcache (rId key)
            ⟨key, nextId (rId key) (s.bcache (rId key)).lId, some p, true⟩ })
      else (-1, s) := by
  rw [Backups.place, pduClone_ok hm, hkey.take]
  split_ifs <;> rfl

/-- **A save** fails and changes nothing, or its slot takes the backup once it has been freed. -/
theorem backupSave_cases {e : WriteCalls} {m : Memory} (h : Mirrors s M)
    (hmeets : s.Meets (.save key p e m)) :
    s.backupSave e m key p = (-1, s) ∨
      ∃ s₁ : Backups Block, Mirrors s₁ M ∧
        ((s₁.bcache (rId key)).valid → (s₁.bcache (rId key)).key = key) ∧
        (s₁.bcache (rId key)).lId = (s.bcache (rId key)).lId ∧
        s.backupSave e m key p = (nextId (rId key) (s.bcache (rId key)).lId, { s₁ with
          bcache := Function.update s₁.bcache (rId key)
            ⟨key, nextId (rId key) (s.bcache (rId key)).lId, some p, true⟩ }) := by
  obtain ⟨hkey, hm, -, hevict⟩ := hmeets
  by_cases hv : (s.bcache (rId key)).valid
  · obtain ⟨-, q, hq, -⟩ := h.slot _ hv
    by_cases hsame : (s.bcache (rId key)).key = key
    · -- the slot holds the key itself, whose backup is overwritten
      refine .inr ⟨s, h, fun _ => hsame, rfl, ?_⟩
      simp [Backups.backupSave, hv, hkey.take, hsame, place_eq hkey hm, hq]
    · have hsaved := saveToDisk_ok (hevict hv hsame q hq) s.disk (s.bcache (rId key)).key
        (s.bcache (rId key)).lId
      refine .inr ⟨_, h.evict hv hq, by simp, by simp, ?_⟩
      simp [Backups.backupSave, hv, hkey.take, hsame, place_eq hkey hm, hq, hsaved]
  · have hplace : s.backupSave e m key p = s.place m key p := by
      simp [Backups.backupSave, hv]
    rw [hplace, place_eq hkey hm]
    by_cases hclone : (s.bcache (rId key)).bPdu.isSome || m.pdu
    · exact .inr ⟨s, h, fun hv' => absurd hv' hv, rfl, if_pos hclone⟩
    · exact .inl (if_neg hclone)

theorem Mirrors.save {e : WriteCalls} {m : Memory} (h : Mirrors s M)
    (hmeets : s.Meets (.save key p e m)) :
    Mirrors (s.step (.save key p e m)) (M.step s (.save key p e m)) := by
  have hspec := nextId_spec (rId_lt key) (h.counter (rId key)) hmeets.2.2.1
  have hcounter := h.counter (rId key)
  rw [Backups.step, BackupMap.step]
  rcases backupSave_cases h hmeets with heq | ⟨s₁, h₁, hfree, hlId, heq⟩
  · rw [heq, if_neg (by omega)]
    exact h
  · rw [heq, if_pos (by omega)]
    exact h₁.put hmeets.1 hfree (by rw [hlId]; exact hspec.1) hspec.2 p

theorem BackupMap.cancel_of_none (hk : M.entry key = none) : M.cancel key = M := by
  rw [BackupMap.cancel, ← hk, Function.update_eq_self]

/-- A key that has no copy the cancel would find is not in the map. -/
theorem Mirrors.entry_eq_none (h : Mirrors s M) (hc : ¬s.Cached key)
    (hlink : ∀ t, s.disk (keyLink key) ≠ some (.link t)) : M.entry key = none := by
  cases hk : M.entry key with
  | none => rfl
  | some e => exact absurd (h.entry key e.1 e.2 hk hc).1 (hlink _)

theorem Mirrors.cancel {e : UnlinkCalls} (h : Mirrors s M) (hmeets : s.Meets (.cancel key e)) :
    Mirrors (s.step (.cancel key e)) (M.step s (.cancel key e)) := by
  obtain ⟨hkey, he, hsingle⟩ := hmeets
  rw [Backups.step, BackupMap.step, Backups.backupCancel, hkey.take]
  by_cases hc : s.Cached key
  · have hslot : ((s.bcache (rId key)).valid && (s.bcache (rId key)).key == key) = true := by
      simpa [Backups.Cached] using hc
    simp only [hslot, if_true]
    exact h.cancelSlot hc hsingle
  · have hslot : ((s.bcache (rId key)).valid && (s.bcache (rId key)).key == key) = false := by
      simpa [Backups.Cached] using hc
    simp only [hslot, Bool.false_eq_true, if_false]
    by_cases hlink : ∃ t, s.disk (keyLink key) = some (.link t)
    · obtain ⟨t, ht⟩ := hlink
      obtain ⟨i, hnode, hi⟩ := h.byKey key _ hkey ht
      rw [hnode] at ht
      rw [cancelFromDisk_link he ht]
      exact h.destroy hc hi hsingle
    · have hnone := not_exists.1 hlink
      rw [cancelFromDisk_none e hnone, BackupMap.cancel_of_none (h.entry_eq_none hc hnone)]
      exact h

/-- Cancelling an id cancels the key whose last save returned it. -/
theorem Mirrors.idcancel_eq (h : Mirrors s M) {i : ℤ} (hk : M.entry key = some (i, p)) :
    M.idcancel i = M.cancel key := by
  have hentry : (M.idcancel i).entry = (M.cancel key).entry := by
    funext k
    simp only [BackupMap.idcancel, BackupMap.cancel]
    by_cases hkk : k = key
    · subst hkk
      rw [Function.update_self, hk]
      exact if_pos rfl
    · rw [Function.update_of_ne hkk]
      refine if_neg fun hi => hkk ?_
      obtain ⟨⟨j, q⟩, hkj, hj⟩ := Option.map_eq_some_iff.1 hi
      obtain rfl : j = i := hj
      have howner := (h.entryOwner k j q hkj).symm.trans (h.entryOwner key j p hk)
      exact Option.some.inj howner
  exact congrArg (fun entry => { M with entry := entry }) hentry

theorem BackupMap.idcancel_of_none {i : ℤ} (hi : ∀ k q, M.entry k ≠ some (i, q)) :
    M.idcancel i = M := by
  have hentry : (M.idcancel i).entry = M.entry := by
    funext k
    refine if_neg fun hk => ?_
    obtain ⟨⟨j, q⟩, hkj, hj⟩ := Option.map_eq_some_iff.1 hk
    obtain rfl : j = i := hj
    exact hi k q hkj
  exact congrArg (fun entry => { M with entry := entry }) hentry

theorem Mirrors.idcancel {lId : ℤ} {e : UnlinkCalls} (h : Mirrors s M)
    (hmeets : s.Meets (.idcancel lId e)) :
    Mirrors (s.step (.idcancel lId e)) (M.step s (.idcancel lId e)) := by
  obtain ⟨he, hsingle⟩ := hmeets
  rw [Backups.step, BackupMap.step, Backups.backupIdcancel]
  by_cases hslot : ((s.bcache (backupRindex lId)).valid &&
      (s.bcache (backupRindex lId)).lId == lId) = true
  · have hv : (s.bcache (backupRindex lId)).valid ∧ (s.bcache (backupRindex lId)).lId = lId := by
      simpa using hslot
    obtain ⟨hindex, q, -, hentry⟩ := h.slot _ hv.1
    have hc : s.Cached (s.bcache (backupRindex lId)).key := by
      rw [Backups.Cached, hindex]
      exact ⟨hv.1, rfl⟩
    have hcancel := h.cancelSlot hc (hsingle _ (.inl ⟨hc, by rw [hindex]; exact hv.2⟩))
    rw [hv.2] at hentry
    rw [h.idcancel_eq hentry]
    rw [hindex] at hcancel
    simpa only [hslot, if_true] using hcancel
  · simp only [Bool.not_eq_true] at hslot
    simp only [hslot, Bool.false_eq_true, if_false]
    by_cases hlink : ∃ t, s.disk (idLink lId) = some (.link t)
    · obtain ⟨t, ht⟩ := hlink
      obtain ⟨k, hnode, hk⟩ := h.byId lId _ ht
      rw [hnode] at ht
      have hs := hsingle k (.inr hk)
      -- the one copy of the key is what the map knows of it
      have hc : ¬s.Cached k := fun hc => hs.1 hc lId hk
      have hentry : ∃ q, M.entry k = some (lId, q) := by
        cases hkk : M.entry k with
        | none => exact absurd hk (h.gone k hkk lId)
        | some ent =>
          have honDisk := (h.cached_or_onDisk hkk).resolve_left hc
          obtain rfl := hs.2 _ _ honDisk hk
          exact ⟨_, rfl⟩
      obtain ⟨q, hq⟩ := hentry
      rw [h.idcancel_eq hq, cancelFromDisk_link he ht]
      exact h.destroy hc hk hs
    · rw [cancelFromDisk_none e (not_exists.1 hlink), BackupMap.idcancel_of_none]
      · exact h
      · intro k q hk
        by_cases hc : s.Cached k
        · obtain ⟨q', -, hk'⟩ := h.entry_of_cached hc
          obtain ⟨hlId, -⟩ : (s.bcache (rId k)).lId = lId ∧ q' = q := by
            simpa using hk'.symm.trans hk
          have hindex := (h.owner _ _ (h.entryOwner k lId q hk)).2.1
          rw [hindex, hlId, hc.1] at hslot
          simp at hslot
        · exact hlink ⟨_, (h.entry k lId q hk hc).2.1⟩

/-- **Each operation does to the store what it means for the map.** -/
theorem Mirrors.step {op : BackupOp Block} (h : Mirrors s M) (hmeets : s.Meets op) :
    Mirrors (s.step op) (M.step s op) := by
  cases op with
  | save key p e m => exact h.save hmeets
  | cancel key e => exact h.cancel hmeets
  | idcancel lId e => exact h.idcancel hmeets

end Operations

/-! ## Loading -/

/-- There is a PDU to load into, the file can be opened, and the frames suffice for `p`. -/
structure LoadCalls.Ok (e : LoadCalls) (p : BackedPdu Block) : Prop where
  pdu : e.pdu
  opens : e.opens
  frames : e.frames
  clonePdu : e.clone.pdu
  copied : p.bytes.length ≤ e.clone.copied

section Loading

variable {s : Backups Block} {M : BackupMap Block} {key : List Char} {p : BackedPdu Block}

/-- A link to a whole file loads the PDU. -/
theorem loadFromFile_link {e : LoadCalls} (he : e.Ok p) {disk : Disk Block}
    {name target : List Char} (hlink : disk name = some (.link target))
    (hfile : disk target = some (.file (some p.block) p.bytes)) :
    loadFromFile e disk name = some p := by
  simp [loadFromFile, hlink, hfile, he.pdu, he.opens, he.frames]

/-- A link name that is free loads nothing. -/
theorem loadFromFile_none {disk : Disk Block} {name : List Char} (e : LoadCalls)
    (h : disk name = none) : loadFromFile e disk name = none := by
  simp [loadFromFile, h]

theorem loadFromCache_of_cached {e : LoadCalls} (hkey : NameOk key) (hc : s.Cached key) :
    s.loadFromCache e key = (s.bcache (rId key)).bPdu.bind fun b => pduClone e.clone b none := by
  simp [Backups.loadFromCache, hkey.take, hc.1, hc.2]

theorem loadFromCache_of_not_cached (e : LoadCalls) (hkey : NameOk key) (hc : ¬s.Cached key) :
    s.loadFromCache e key = none := by
  refine if_neg fun hslot => hc ?_
  simpa [Backups.Cached, hkey.take] using hslot

/-- A slot with that id holds the key that owns the id. -/
theorem Mirrors.cached_of_lId (h : Mirrors s M) {i : ℤ} (hi : M.owner i = some key)
    (hslot : ((s.bcache (backupRindex i)).valid && (s.bcache (backupRindex i)).lId == i) = true) :
    s.Cached key := by
  have hv : (s.bcache (backupRindex i)).valid ∧ (s.bcache (backupRindex i)).lId = i := by
    simpa using hslot
  have howner := h.owner_of_slot hv.1
  rw [hv.2, hi] at howner
  have hindex := (h.owner i key hi).2.1
  rw [hindex] at hv howner
  exact ⟨hv.1, (Option.some.inj howner).symm⟩

/-- **What the map knows is loaded**, by the key and by the id. -/
theorem Mirrors.load_some (h : Mirrors s M) {i : ℤ} (hk : M.entry key = some (i, p))
    {e : LoadCalls} (he : e.Ok p) : s.backupLoad e key = some p ∧ s.backupIdload e i = some p := by
  have howner := h.entryOwner key i p hk
  obtain ⟨hkey, hindex, -⟩ := h.owner i key howner
  by_cases hc : s.Cached key
  · obtain ⟨q, hq, hentry⟩ := h.entry_of_cached hc
    obtain ⟨hlId, rfl⟩ : (s.bcache (rId key)).lId = i ∧ q = p := by
      simpa using hentry.symm.trans hk
    have hclone : pduClone e.clone q none = some q := by
      rw [pduClone_ok he.copied, he.clonePdu]
      rfl
    constructor
    · simp [Backups.backupLoad, loadFromCache_of_cached hkey hc, hq, hclone]
    · simp [Backups.backupIdload, Backups.loadFromIdcache, hindex, hc.1, hlId, hq, hclone]
  · obtain ⟨hkl, hil, hf⟩ := h.entry key i p hk hc
    have hmiss : s.loadFromIdcache e i = none :=
      if_neg fun hslot => hc (h.cached_of_lId howner hslot)
    constructor
    · rw [Backups.backupLoad, loadFromCache_of_not_cached e hkey hc]
      exact loadFromFile_link he hkl hf
    · rw [Backups.backupIdload, hmiss]
      exact loadFromFile_link he hil hf

theorem Mirrors.not_cached (h : Mirrors s M) (hk : M.entry key = none) : ¬s.Cached key :=
    fun hc => by
  obtain ⟨q, -, hentry⟩ := h.entry_of_cached hc
  rw [hk] at hentry
  exact absurd hentry (by simp)

/-- **What the map does not know is nowhere**, and nothing is loaded. -/
theorem Mirrors.load_none (h : Mirrors s M) (hkey : NameOk key) (hk : M.entry key = none)
    (e : LoadCalls) :
    s.backupLoad e key = none ∧ ∀ i, M.owner i = some key → s.backupIdload e i = none := by
  have hc := h.not_cached hk
  constructor
  · rw [Backups.backupLoad, loadFromCache_of_not_cached e hkey hc]
    refine loadFromFile_none e ?_
    cases hlink : s.disk (keyLink key) with
    | none => rfl
    | some n =>
      obtain ⟨i, -, hi⟩ := h.byKey key n hkey hlink
      exact absurd hi (h.gone key hk i)
  · intro i hi
    have hmiss : s.loadFromIdcache e i = none := if_neg fun hslot => hc (h.cached_of_lId hi hslot)
    rw [Backups.backupIdload, hmiss]
    refine loadFromFile_none e ?_
    cases hlink : s.disk (idLink i) with
    | none => rfl
    | some n =>
      obtain ⟨k, -, hki⟩ := h.byId i n hlink
      obtain rfl : k = key := Option.some.inj ((h.file k i hki).1.symm.trans hi)
      exact absurd hki (h.gone k hk i)

end Loading

/-! ## Runs -/

/-- The states of a store from the empty one, with what they mean, as long as the operations meet
the condition. -/
inductive BackupRun : Backups Block → BackupMap Block → Prop
  | start : BackupRun .start .start
  | step {s : Backups Block} {M : BackupMap Block} {op : BackupOp Block} (hrun : BackupRun s M)
      (hmeets : s.Meets op) : BackupRun (s.step op) (M.step s op)

theorem Mirrors.of_run {s : Backups Block} {M : BackupMap Block} (h : BackupRun s M) :
    Mirrors s M := by
  induction h with
  | start => exact .start
  | step _ hmeets ih => exact ih.step hmeets

/-- **The backup store is a map.** After any operations, a key whose last save has not been
cancelled is loaded as it was saved, by its name and by the id its save returned. A key without
such a save is loaded neither by its name nor by an id it ever had, and no copy of it is left in
the cache or on disk. -/
theorem backups_are_a_map {s : Backups Block} {M : BackupMap Block} (hrun : BackupRun s M) :
    (∀ key i p, M.entry key = some (i, p) → ∀ e : LoadCalls, e.Ok p →
      s.backupLoad e key = some p ∧ s.backupIdload e i = some p) ∧
    ∀ key, NameOk key → M.entry key = none →
      (∀ e, s.backupLoad e key = none) ∧
      (∀ e i, M.owner i = some key → s.backupIdload e i = none) ∧
      ¬s.Cached key ∧ ∀ i, ¬s.OnDisk key i := by
  have h := Mirrors.of_run hrun
  refine ⟨fun key i p hk e he => h.load_some hk he, fun key hkey hk => ?_⟩
  exact ⟨fun e => (h.load_none hkey hk e).1, fun e i hi => (h.load_none hkey hk e).2 i hi,
    h.not_cached hk, h.gone key hk⟩

/-- Calls that all succeed. -/
def writesAll : WriteCalls := ⟨true, true, 4096, true, true, true, true⟩

def unlinksAll : UnlinkCalls := ⟨true, true, true, true⟩

def ampleMemory : Memory := ⟨true, 4096⟩

def loadsAll : LoadCalls := ⟨ampleMemory, true, true, true⟩

/-- A backup of one byte. -/
def oneByte (b : UInt8) : BackedPdu Unit := ⟨(), [b]⟩

/-- Two keys share a slot. The first one has made room for the second one, and is loaded from the
disk, by its name and by its id; the second one is in the cache. -/
theorem backups_are_a_map_two :
    let first := (Backups.start : Backups Unit).step
      (.save ['a', 'a'] (oneByte 1) writesAll ampleMemory)
    let s := first.step (.save ['b', 'a'] (oneByte 2) writesAll ampleMemory)
    s.backupLoad loadsAll ['a', 'a'] = some (oneByte 1) ∧
      s.backupIdload loadsAll 291 = some (oneByte 1) ∧
      s.backupLoad loadsAll ['b', 'a'] = some (oneByte 2) ∧
      s.backupLoad loadsAll ['c', 'a'] = none := by
  intro first s
  have hname : ∀ key : List Char, 'a' ∈ key → key.length < 150 → NameOk key := fun key hmem hlen =>
    ⟨hlen, fun i => ne_decimal_of_mem hmem (by decide) (by decide) i⟩
  have hfirst : (Backups.start : Backups Unit).Meets
      (.save ['a', 'a'] (oneByte 1) writesAll ampleMemory) := by
    refine ⟨hname _ (by decide) (by decide), by decide, by decide +kernel, fun hv => ?_⟩
    exact absurd hv (by simp [Backups.start])
  have hsecond : first.Meets (.save ['b', 'a'] (oneByte 2) writesAll ampleMemory) := by
    refine ⟨hname _ (by decide) (by decide), by decide, by decide +kernel, fun _ _ q hq => ?_⟩
    have hslot : (first.bcache (rId ['b', 'a'])).bPdu = some (oneByte 1) := by decide +kernel
    obtain rfl := Option.some.inj (hslot.symm.trans hq)
    exact ⟨rfl, rfl, by decide, rfl, rfl, rfl, rfl⟩
  obtain ⟨hsome, hnone⟩ := backups_are_a_map (.step (.step .start hfirst) hsecond)
  have hloads : ∀ b, loadsAll.Ok (oneByte b) := fun b =>
    ⟨rfl, rfl, rfl, rfl, show 1 ≤ 4096 by decide⟩
  have hdisk := hsome ['a', 'a'] 291 (oneByte 1) (by decide +kernel) loadsAll (hloads 1)
  have hcache := hsome ['b', 'a'] 547 (oneByte 2) (by decide +kernel) loadsAll (hloads 2)
  exact ⟨hdisk.1, hdisk.2, hcache.1,
    (hnone ['c', 'a'] (hname _ (by decide) (by decide)) (by decide +kernel)).1 loadsAll⟩

/-- **A cancelled backup can come back.** Two keys share a slot. One of them is saved, makes room
for the other, and is saved again; cancelling it destroys the copy in the cache, and the next load
finds the older one on disk, though every call has succeeded. -/
theorem cancel_resurrects :
    let save (key : List Char) (b : UInt8) : BackupOp Unit :=
      .save key (oneByte b) writesAll ampleMemory
    let ops := [save ['a', 'a'] 1, save ['b', 'a'] 2, save ['a', 'a'] 3,
      .cancel ['a', 'a'] unlinksAll]
    let after := ops.foldl (fun (w : Backups Unit × BackupMap Unit) op =>
      (w.1.step op, w.2.step w.1 op)) (.start, .start)
    after.2.entry ['a', 'a'] = none ∧
      after.1.backupLoad loadsAll ['a', 'a'] = some (oneByte 1) := by
  decide +kernel

end Mlvm.Transport
