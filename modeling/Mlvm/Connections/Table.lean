import Mlvm.Probing.Round

/-!
# The connection table

`connection.c`: an open hash table of `IMAGO_MAX_CONNECTION` slots. `con_new` takes the first free
slot from the place of the address of the peer on, `lookup_con` looks for the address from there up
to the first free slot, and `con_free` only marks a slot free.

**`connections_found_iff`.** A lookup never gives a connection to another peer, and a connection is
refused only when the table is full. An open connection is found exactly when a connection to its
peer has no free slot before it, which is so in every run in which no slot is freed on the way to
another connection.
-/

namespace Mlvm.Connections

open Probing

/-! ## The table -/

/-- `status_t`. -/
inductive Status where
  | free
  | active
  | locked
  deriving DecidableEq

/-- `struct sockaddr_in`. -/
structure SockAddr where
  s_addr : ℕ
  sin_port : ℕ

/-- A slot, without the socket and the frames. -/
structure Con where
  status : Status
  peer : SockAddr

/-- The slots of `hash_table`. -/
abbrev Table := ℕ → Con

/-- The rest of the loop of `hash`, with `n` slots left to look at from slot `i` on. -/
def hashFrom (t : Table) (max key : ℕ) (status : Status) : ℕ → ℕ → Option ℕ
  | 0, _ => none
  | n + 1, i =>
    if (t i).status = .free then
      if status ≠ .free then none else some i
    else if (t i).status = status ∧ (t i).peer.s_addr = key then some i
    else hashFrom t max key status n (if i = max - 1 then 0 else i + 1)

/-- `hash`. -/
def hash (t : Table) (max key : ℕ) (status : Status) : Option ℕ :=
  hashFrom t max key status max (key % max)

def Table.mark (t : Table) (i : ℕ) (status : Status) : Table :=
  Function.update t i { t i with status }

/-- `con_trylock`: whether the slot has been locked. -/
def conTrylock (t : Table) (i : ℕ) : Bool × Table :=
  if (t i).status = .active then (true, t.mark i .locked) else (false, t)

/-- `con_lock`, once it returns: a locked slot is waited for. -/
def conLock (t : Table) (i : ℕ) : Option (Bool × Table) :=
  if (t i).status = .active then some (true, t.mark i .locked)
  else if (t i).status = .locked then none
  else some (false, t)

/-- `con_unlock`. -/
def conUnlock (t : Table) (i : ℕ) : Bool × Table :=
  if (t i).status = .locked then (true, t.mark i .active) else (false, t)

/-- `con_new`. -/
def conNew (t : Table) (max : ℕ) (raddr : SockAddr) : Option ℕ × Table :=
  match hash t max raddr.s_addr .free with
  | none => (none, t)
  | some i => (some i, Function.update t i ⟨.locked, raddr⟩)

/-- `con_free`. -/
def conFree (t : Table) (i : ℕ) : Table :=
  let r := conTrylock t i
  if r.1 then (conUnlock r.2 i).2 else r.2.mark i .free

/-- `lookup_con`. -/
def lookupCon (t : Table) (max : ℕ) (raddr : SockAddr) : Option ℕ × Table :=
  match hash t max raddr.s_addr .active with
  | none => (none, t)
  | some i =>
    let r := conTrylock t i
    (if r.1 then some i else none, r.2)

/-! ## Runs -/

inductive Op where
  | conNew (raddr : SockAddr)
  | conTrylock (i : ℕ)
  | conLock (i : ℕ)
  | conUnlock (i : ℕ)
  | conFree (i : ℕ)
  | lookupCon (raddr : SockAddr)

/-- What a call leaves; `none` while it waits. -/
def step (max : ℕ) (t : Table) : Op → Option Table
  | .conNew raddr => some (conNew t max raddr).2
  | .conTrylock i => some (conTrylock t i).2
  | .conLock i => (conLock t i).map Prod.snd
  | .conUnlock i => some (conUnlock t i).2
  | .conFree i => some (conFree t i)
  | .lookupCon raddr => some (lookupCon t max raddr).2

/-- What can be reached from `con_init` by calls that meet a condition. -/
inductive Reaches (max : ℕ) (ok : Table → Op → Prop) : Table → Prop
  | init : Reaches max ok fun _ => ⟨.free, ⟨0, 0⟩⟩
  | step {t t' : Table} {o : Op} : Reaches max ok t → ok t o → step max t o = some t' →
      Reaches max ok t'

/-! ## Properties -/

/-- A lookup gives an open connection to the peer itself. -/
def Own (max : ℕ) (t : Table) : Prop :=
  ∀ raddr i, (lookupCon t max raddr).1 = some i →
    i < max ∧ (t i).status = .active ∧ (t i).peer.s_addr = raddr.s_addr

/-- A connection is refused only when all slots are in use. -/
def Refuses (max : ℕ) (t : Table) : Prop :=
  ∀ raddr, (conNew t max raddr).1 = none → ∀ i < max, (t i).status ≠ .free

/-- A lookup finds a connection whenever one to the peer is open. -/
def Finds (max : ℕ) (t : Table) : Prop :=
  ∀ raddr i, i < max → (t i).status = .active → (t i).peer.s_addr = raddr.s_addr →
    ∃ j, (lookupCon t max raddr).1 = some j

/-- No slot is free on the way to slot `i` from the place of its peer. -/
def Visible (max : ℕ) (t : Table) (i : ℕ) : Prop :=
  ∀ k < max, dist max ((t i).peer.s_addr % max) k < dist max ((t i).peer.s_addr % max) i →
    (t k).status ≠ .free

/-- Of the open connections to a peer, one is visible. -/
def Clear (max : ℕ) (t : Table) : Prop :=
  ∀ i < max, (t i).status = .active → ∃ j < max, (t j).status = .active ∧
    (t j).peer.s_addr = (t i).peer.s_addr ∧ Visible max t j

/-- A locked slot is freed only when it is not on the way to another connection. -/
def Careful (max : ℕ) (t : Table) : Op → Prop
  | .conFree i => (t i).status = .locked → ∀ j < max, (t j).status ≠ .free →
      dist max ((t j).peer.s_addr % max) j ≤ dist max ((t j).peer.s_addr % max) i
  | _ => True

variable {max key i j : ℕ} {t : Table} {status : Status}

/-! ## What `hash` finds -/

/-- The slots at which `hash` leaves its loop. -/
def ends (t : Table) (key : ℕ) (status : Status) (i : ℕ) : Bool :=
  (t i).status = .free ∨ (t i).status = status ∧ (t i).peer.s_addr = key

theorem hashFrom_eq (n : ℕ) : hashFrom t max key status n i =
    (probe max (ends t key status) n i).bind fun j =>
      if (t j).status = .free ∧ status ≠ .free then none else some j := by
  induction n generalizing i with
  | zero => rfl
  | succ n ih =>
    rw [hashFrom, probe, ends]
    by_cases hfree : (t i).status = .free
    · by_cases hstatus : status = .free <;> simp [hfree, hstatus]
    · by_cases hkey : (t i).status = status ∧ (t i).peer.s_addr = key
      · simp [hkey, hkey.1 ▸ hfree]
      · rw [if_neg hfree, if_neg hkey, ih, next]
        simp [hfree, hkey]

theorem place_lt (key : ℕ) (hi : i < max) : key % max < max :=
  Nat.mod_lt _ (Nat.zero_lt_of_lt hi)

theorem pos_of_hash (h : hash t max key status = some i) : 0 < max := by
  rcases Nat.eq_zero_or_pos max with rfl | hmax
  · cases h
  · exact hmax

/-- `hash` for a free slot. -/
theorem hash_free : hash t max key .free = some i ↔
    0 < max ∧ Stops max (ends t key .free) (key % max) i := by
  have hiff (hmax : 0 < max) : hash t max key .free = some i ↔
      Stops max (ends t key .free) (key % max) i := by
    rw [hash, hashFrom_eq, ← probe_eq_some (Nat.mod_lt _ hmax)]
    simp
  constructor
  · intro h
    exact ⟨pos_of_hash h, (hiff (pos_of_hash h)).1 h⟩
  · rintro ⟨hmax, h⟩
    exact (hiff hmax).2 h

theorem hash_free_eq_none (hi : i < max) (h : hash t max key .free = none) :
    (t i).status ≠ .free := by
  rw [hash, hashFrom_eq] at h
  have hnone : probe max (ends t key .free) max (key % max) = none := by simpa using h
  have hends := (probe_eq_none (place_lt key hi)).1 hnone i hi
  intro hfree
  simp [ends, hfree] at hends

/-- `hash` for an open connection. -/
theorem hash_active : hash t max key .active = some i ↔
    0 < max ∧ Stops max (ends t key .active) (key % max) i ∧ (t i).status = .active := by
  have hiff (hmax : 0 < max) : hash t max key .active = some i ↔
      Stops max (ends t key .active) (key % max) i ∧ (t i).status = .active := by
    rw [hash, hashFrom_eq, Option.bind_eq_some_iff]
    simp only [probe_eq_some (Nat.mod_lt _ hmax)]
    constructor
    · rintro ⟨j, hstops, hj⟩
      split_ifs at hj with hfree
      obtain rfl := Option.some.inj hj
      refine ⟨hstops, ?_⟩
      have hhere := hstops.here
      simp only [ends, decide_eq_true_eq] at hhere
      rcases hhere with hhere | hhere
      · exact absurd ⟨hhere, by decide⟩ hfree
      · exact hhere.1
    · rintro ⟨hstops, hactive⟩
      refine ⟨i, hstops, if_neg ?_⟩
      rw [hactive]
      decide
  constructor
  · intro h
    exact ⟨pos_of_hash h, (hiff (pos_of_hash h)).1 h⟩
  · rintro ⟨hmax, h⟩
    exact (hiff hmax).2 h

theorem lookupCon_eq_some {raddr : SockAddr} : (lookupCon t max raddr).1 = some i ↔
    hash t max raddr.s_addr .active = some i := by
  rw [lookupCon]
  cases hhash : hash t max raddr.s_addr .active with
  | none => simp
  | some j =>
    obtain ⟨-, -, hactive⟩ := hash_active.1 hhash
    simp [conTrylock, hactive]

/-! ## Any table -/

theorem own (max : ℕ) (t : Table) : Own max t := by
  intro raddr i h
  obtain ⟨-, hstops, hactive⟩ := hash_active.1 (lookupCon_eq_some.1 h)
  refine ⟨hstops.lt, hactive, ?_⟩
  have hhere := hstops.here
  simp only [ends, decide_eq_true_eq] at hhere
  rcases hhere with hhere | hhere
  · rw [hhere] at hactive
    cases hactive
  · exact hhere.2

theorem refuses (max : ℕ) (t : Table) : Refuses max t := by
  intro raddr h i hi
  rw [conNew] at h
  cases hhash : hash t max raddr.s_addr .free with
  | none => exact hash_free_eq_none hi hhash
  | some j =>
    rw [hhash] at h
    cases h

/-- A visible open connection keeps its peer from being missed. -/
theorem Visible.found (hi : i < max) (hactive : (t i).status = .active) (h : Visible max t i) :
    ∃ j, hash t max (t i).peer.s_addr .active = some j := by
  have hplace := place_lt (t i).peer.s_addr hi
  have hends : ends t (t i).peer.s_addr .active i = true := by simp [ends, hactive]
  obtain ⟨j, hstops⟩ := exists_stops ((t i).peer.s_addr % max) hi hends
  refine ⟨j, hash_active.2 ⟨Nat.zero_lt_of_lt hi, hstops, ?_⟩⟩
  have hle : dist max ((t i).peer.s_addr % max) j ≤ dist max ((t i).peer.s_addr % max) i := by
    by_contra hlt
    rw [hstops.before i hi (Nat.lt_of_not_le hlt)] at hends
    cases hends
  have hhere := hstops.here
  simp only [ends, decide_eq_true_eq] at hhere
  rcases hhere with hfree | hhere
  · rcases Nat.lt_or_eq_of_le hle with hlt | heq
    · exact absurd hfree (h j hstops.lt hlt)
    · rwa [dist_inj hplace hstops.lt hi heq]
  · exact hhere.1

/-- The connection that is found is visible. -/
theorem visible_of_hash (h : hash t max key .active = some i) : Visible max t i := by
  obtain ⟨hmax, hstops, hactive⟩ := hash_active.1 h
  have hkey : (t i).peer.s_addr = key := by
    have hhere := hstops.here
    simp only [ends, decide_eq_true_eq, hactive] at hhere
    simpa using hhere
  intro k hk hlt hfree
  rw [hkey] at hlt
  have hbefore := hstops.before k hk hlt
  simp [ends, hfree] at hbefore

theorem finds_iff : Finds max t ↔ Clear max t := by
  constructor
  · intro h i hi hactive
    obtain ⟨j, hj⟩ := h (t i).peer i hi hactive rfl
    obtain ⟨hlt, hj', haddr⟩ := own max t _ j hj
    exact ⟨j, hlt, hj', haddr, visible_of_hash (lookupCon_eq_some.1 hj)⟩
  · intro h raddr i hi hactive haddr
    obtain ⟨j, hj, hactive', haddr', hvisible⟩ := h i hi hactive
    obtain ⟨k, hk⟩ := hvisible.found hj hactive'
    rw [haddr', haddr] at hk
    exact ⟨k, lookupCon_eq_some.2 hk⟩

/-! ## Runs without holes -/

/-- Every connection is visible, open or locked. -/
def AllVisible (max : ℕ) (t : Table) : Prop :=
  ∀ i < max, (t i).status ≠ .free → Visible max t i

theorem AllVisible.clear (h : AllVisible max t) : Clear max t := by
  intro i hi hactive
  exact ⟨i, hi, hactive, rfl, h i hi (by rw [hactive]; decide)⟩

/-- Fewer slots are free. -/
theorem Visible.mono {t' : Table} (h : Visible max t i) (hpeer : (t' i).peer = (t i).peer)
    (hfree : ∀ k < max, (t' k).status = .free → (t k).status = .free) : Visible max t' i := by
  intro k hk hlt hk'
  rw [hpeer] at hlt
  exact h k hk hlt (hfree k hk hk')

@[simp] theorem mark_peer (t : Table) (i : ℕ) (status : Status) (k : ℕ) :
    (t.mark i status k).peer = (t k).peer := by
  rw [Table.mark, Function.update_apply]
  split_ifs with hk
  · rw [hk]
  · rfl

theorem mark_status (t : Table) (i : ℕ) (status : Status) (k : ℕ) :
    (t.mark i status k).status = if k = i then status else (t k).status := by
  rw [Table.mark, Function.update_apply]
  split_ifs <;> rfl

/-- Locking and unlocking a connection. -/
theorem AllVisible.mark (h : AllVisible max t) (hi : (t i).status ≠ .free)
    (hstatus : status ≠ .free) : AllVisible max (t.mark i status) := by
  have hfree (k : ℕ) : (t.mark i status k).status = .free ↔ (t k).status = .free := by
    rw [mark_status]
    split_ifs with hk
    · rw [hk]
      exact iff_of_false hstatus hi
    · rfl
  intro j hj hj'
  rw [Ne, hfree] at hj'
  exact (h j hj hj').mono (mark_peer ..) fun k _ => (hfree k).1

theorem AllVisible.trylock (h : AllVisible max t) (i : ℕ) : AllVisible max (conTrylock t i).2 := by
  rw [conTrylock]
  split_ifs with hactive
  · exact h.mark (by rw [hactive]; decide) (by decide)
  · exact h

theorem AllVisible.unlock (h : AllVisible max t) (i : ℕ) : AllVisible max (conUnlock t i).2 := by
  rw [conUnlock]
  split_ifs with hlocked
  · exact h.mark (by rw [hlocked]; decide) (by decide)
  · exact h

/-- A new connection takes the first free slot on its way. -/
theorem AllVisible.new (h : AllVisible max t) (raddr : SockAddr) :
    AllVisible max (conNew t max raddr).2 := by
  rw [conNew]
  cases hhash : hash t max raddr.s_addr .free with
  | none => exact h
  | some i =>
    obtain ⟨-, hstops⟩ := hash_free.1 hhash
    change AllVisible max (Function.update t i ⟨.locked, raddr⟩)
    have hne (k : ℕ) (hk : (Function.update t i ⟨.locked, raddr⟩ k).status = .free) :
        k ≠ i ∧ (t k).status = .free := by
      by_cases hki : k = i
      · rw [hki, Function.update_self] at hk
        cases hk
      · rw [Function.update_of_ne hki] at hk
        exact ⟨hki, hk⟩
    intro j hj hused
    by_cases hji : j = i
    · subst hji
      intro k hk hlt hfree
      rw [Function.update_self] at hlt
      have hbefore := hstops.before k hk hlt
      simp [ends, (hne k hfree).2] at hbefore
    · rw [Function.update_of_ne hji] at hused
      apply (h j hj hused).mono (by rw [Function.update_of_ne hji])
      intro k _ hfree
      exact (hne k hfree).2

/-- A slot that is on no way is freed. -/
theorem AllVisible.free (h : AllVisible max t) (hcareful : Careful max t (.conFree i)) :
    AllVisible max (conFree t i) := by
  rw [conFree]
  cases hstatus : (t i).status with
  | free =>
    have hsame : t.mark i .free = t := by
      rw [Table.mark, ← hstatus]
      exact Function.update_eq_self i t
    simpa [conTrylock, hstatus, hsame] using h
  | active =>
    have hret : (conTrylock t i).1 = true := by simp [conTrylock, hstatus]
    simpa [hret] using (h.trylock i).unlock i
  | locked =>
    have hret : conTrylock t i = (false, t) := by simp [conTrylock, hstatus]
    simp only [hret, Bool.false_eq_true, if_false]
    intro j hj hused k hk hlt hfree
    rw [mark_status] at hused hfree
    rw [mark_peer] at hlt
    split_ifs at hused with hji
    · exact hused rfl
    · split_ifs at hfree with hki
      · rw [hki] at hlt
        exact absurd (hcareful hstatus j hj hused) (Nat.not_le.2 hlt)
      · exact h j hj hused k hk hlt hfree

theorem AllVisible.lookup (h : AllVisible max t) (raddr : SockAddr) :
    AllVisible max (lookupCon t max raddr).2 := by
  rw [lookupCon]
  cases hhash : hash t max raddr.s_addr .active with
  | none => exact h
  | some i => exact h.trylock i

/-- **One call** keeps every connection visible. -/
theorem AllVisible.step {t' : Table} {op : Op} (h : AllVisible max t) (hop : Careful max t op)
    (hstep : step max t op = some t') : AllVisible max t' := by
  cases op with
  | conNew raddr =>
    obtain rfl := Option.some.inj hstep
    exact h.new raddr
  | conTrylock i =>
    obtain rfl := Option.some.inj hstep
    exact h.trylock i
  | conLock i =>
    rw [Connections.step, conLock] at hstep
    split_ifs at hstep with hactive hlocked
    · obtain rfl := Option.some.inj hstep
      exact h.mark (by rw [hactive]; decide) (by decide)
    · cases hstep
    · obtain rfl := Option.some.inj hstep
      exact h
  | conUnlock i =>
    obtain rfl := Option.some.inj hstep
    exact h.unlock i
  | conFree i =>
    obtain rfl := Option.some.inj hstep
    exact h.free hop
  | lookupCon raddr =>
    obtain rfl := Option.some.inj hstep
    exact h.lookup raddr

theorem Reaches.allVisible (h : Reaches max (Careful max) t) : AllVisible max t := by
  induction h with
  | init =>
    intro i _ hused
    exact absurd rfl hused
  | step _ hop hstep ih => exact ih.step hop hstep

/-- **Connections are found**: no lookup gives another peer's connection, and none is refused while
a slot is free; a lookup misses no open connection exactly when the table is clear, as it is in
every state of a run that frees slots with care. -/
theorem connections_found_iff (max : ℕ) (t : Table) :
    (Own max t ∧ Refuses max t ∧ (Finds max t ↔ Clear max t)) ∧
    (Reaches max (Careful max) t → Finds max t) :=
  ⟨⟨own max t, refuses max t, finds_iff⟩, fun h => finds_iff.2 h.allVisible.clear⟩

/-- The peers 1, 256 and 511 begin at one slot. The connection to the last one, which is behind the
others, is freed, and those are found. -/
theorem connections_found_iff_colliding : ∃ t, Reaches 255 (Careful 255) t ∧
    t 1 = ⟨.active, ⟨1, 0⟩⟩ ∧ t 2 = ⟨.active, ⟨256, 0⟩⟩ ∧ (t 3).status = .free ∧ Finds 255 t := by
  have hreach := (.step (.step (.step (.step (.step (.step .init (o := .conNew ⟨1, 0⟩) trivial rfl)
    (o := .conUnlock 1) trivial rfl) (o := .conNew ⟨256, 0⟩) trivial rfl)
    (o := .conUnlock 2) trivial rfl) (o := .conNew ⟨511, 0⟩) trivial rfl)
    (o := .conFree 3) (fun _ => by decide +kernel) rfl : Reaches 255 (Careful 255) _)
  exact ⟨_, hreach, rfl, rfl, rfl, (connections_found_iff 255 _).2 hreach⟩

/-- The peers 1 and 256 begin at one slot. When the connection to the first is freed, the one to the
second is not found any more. -/
theorem not_finds_behind_hole : ∃ t, Reaches 255 (fun _ _ => True) t ∧ ¬ Finds 255 t := by
  refine ⟨_, .step (.step (.step (.step .init (o := .conNew ⟨1, 0⟩) trivial rfl)
    (o := .conNew ⟨256, 0⟩) trivial rfl) (o := .conUnlock 2) trivial rfl)
    (o := .conFree 1) trivial rfl, ?_⟩
  intro h
  obtain ⟨j, hj⟩ := h ⟨256, 0⟩ 2 (by decide) rfl rfl
  cases hj

end Mlvm.Connections
