import Mathlib.Data.Int.Notation
import Mathlib.Data.List.Basic
import Mathlib.Logic.Function.Basic
import Mathlib.Tactic.SplitIfs

/-!
# The timer table

`timer.c`: a table of `MAX_TIMER` timers that share the one interval timer of the process.
Whenever the table has changed, `timer_activate` looks for the earliest deadline and arms the
interval timer for it. When the alarm comes, `SIGALRM_handler` goes through the table, runs the
callbacks of the timers that have expired, without the lock, and calls `timer_activate` again.

Each call is a step for what it does under the lock, so that a `timer_activate` that is still to
be made counts in `activations`, and handlers (there may be several, one for each thread) take one
step for each timer. Times are microseconds. An interval timer that has expired stays armed here
until its alarm is delivered.

`alarms` is no data of the program: it has an entry for each successful `timer_set`, which says
where its callback is and when it has run.
-/

namespace Mlvm.Timer

/-! ## The table -/

/-- `MAX_TIMER`. -/
def maxTimer : ℕ := 255

/-- `timer_st`. -/
inductive Status where
  | free
  | active
  | fired
  | stopped
  deriving DecidableEq

/-- `struct timer_str`: `callback` is the callback with its argument, `alarm` the `timer_set` that
has written the deadline. -/
structure Entry (κ : Type*) where
  status : Status
  dday : ℕ
  callback : Option κ
  alarm : ℕ

/-- `timer_tlb`. -/
abbrev Table (κ : Type*) := ℕ → Entry κ

variable {κ : Type*}

/-- An entry after `memset`. -/
def Entry.clear : Entry κ := ⟨.free, 0, none, 0⟩

/-- The entry that a timer id stands for. -/
def slot (id : ℤ) : Option ℕ :=
  if id - 1 < 0 ∨ (maxTimer : ℤ) ≤ id - 1 then none else some (id - 1).toNat

/-- `TIMER_INVALID`. -/
def timerInvalid : ℤ := -1

/-- One turn of the loop of `timer_activate`. -/
def earlier (tv1 : ℕ) (e : Entry κ) : ℕ :=
  if e.status ≠ .active then tv1
  else if tv1 = 0 ∨ e.dday < tv1 then e.dday
  else tv1

/-- The loop of `timer_activate`. -/
def earliest (tlb : Table κ) : ℕ :=
  ((List.range maxTimer).map tlb).foldl earlier 0

/-- What `timer_activate` sets the interval timer to. -/
@[irreducible] def itValue (tlb : Table κ) (tv : ℕ) : ℕ :=
  let tv1 := earliest tlb
  if tv1 = 0 then 0
  else if tv < tv1 then tv1 - tv
  else 1

/-- `timer_new`: the id and the table. -/
def timerNew (tlb : Table κ) : ℤ × Table κ :=
  match (List.range maxTimer).find? fun id => (tlb id).status = .free with
  | some id => (id + 1, Function.update tlb id { tlb id with status := .stopped })
  | none => (timerInvalid, tlb)

/-- `timer_set` up to `timer_activate`; `none` if it fails. -/
def timerSet (tlb : Table κ) (now alarm : ℕ) (id : ℤ) (tv : Option ℕ) (cb : Option κ) :
    Option (ℕ × Table κ) :=
  match slot id, tv with
  | some i, some tv =>
    if (tlb i).status = .free then none
    else some (i, Function.update tlb i ⟨.active, now + tv, cb <|> (tlb i).callback, alarm⟩)
  | _, _ => none

/-! ## Runs -/

/-- Where the callback of an alarm is. -/
inductive Place where
  | waiting (i : ℕ)
  | calling (h : ℕ)
  | done
  | cancelled
  deriving DecidableEq

/-- What one `timer_set` has asked for, and the times at which its callback has run. -/
structure Alarm (κ : Type*) where
  deadline : ℕ
  callback : Option κ
  place : Place
  runs : List ℕ

/-- A `SIGALRM_handler` under way: the time at its start, the next entry to look at, and the
callback it is about to call. -/
structure Handler (κ : Type*) where
  tv : ℕ
  id : ℕ
  callback : Option (κ × ℕ)

structure State (κ : Type*) where
  now : ℕ
  tlb : Table κ
  armed : Option ℕ
  activations : ℕ
  handlers : ℕ → Option (Handler κ)
  alarms : ℕ → Option (Alarm κ)
  next : ℕ

/-- After `timer_init`. -/
def State.init (now : ℕ) : State κ :=
  ⟨now, fun _ => .clear, none, 0, fun _ => none, fun _ => none, 0⟩

/-- An alarm is moved on. -/
def State.place (s : State κ) (n : ℕ) (f : Alarm κ → Alarm κ) : State κ :=
  { s with alarms := Function.update s.alarms n ((s.alarms n).map f) }

/-- The alarm of an entry that is about to be overwritten. -/
def State.cancel (s : State κ) (i : ℕ) : State κ :=
  if (s.tlb i).status = .active then
    s.place (s.tlb i).alarm fun a => { a with place := .cancelled }
  else s

/-- `timer_new`. -/
def State.new (s : State κ) : State κ := { s with tlb := (timerNew s.tlb).2 }

/-- `timer_set`. -/
def State.set (s : State κ) (id : ℤ) (tv : Option ℕ) (cb : Option κ) : State κ :=
  match timerSet s.tlb s.now s.next id tv cb with
  | none => s
  | some (i, tlb) =>
    { s.cancel i with
      tlb
      activations := s.activations + 1
      alarms := Function.update (s.cancel i).alarms s.next
        (some ⟨(tlb i).dday, (tlb i).callback, .waiting i, []⟩)
      next := s.next + 1 }

/-- `timer_stop`. -/
def State.stop (s : State κ) (id : ℤ) : State κ :=
  match slot id with
  | none => s
  | some i =>
    { s.cancel i with
      tlb := Function.update s.tlb i { s.tlb i with status := .stopped }
      activations := s.activations + 1 }

/-- `timer_free`. -/
def State.free (s : State κ) (id : ℤ) : State κ :=
  match slot id with
  | none => s
  | some i =>
    { s.cancel i with
      tlb := Function.update s.tlb i .clear
      activations := s.activations + 1 }

/-- `timer_activate`. -/
def State.activate (s : State κ) : State κ :=
  { s with
    activations := s.activations - 1
    armed := if itValue s.tlb s.now = 0 then none else some (s.now + itValue s.tlb s.now) }

/-- The start of `SIGALRM_handler`. -/
def State.deliver (s : State κ) (h : ℕ) : State κ :=
  { s with
    armed := s.armed.filter fun a => s.now < a
    handlers := Function.update s.handlers h (some ⟨s.now, 0, none⟩) }

/-- One turn of the loop of `SIGALRM_handler`, up to the callback. -/
def State.scan (s : State κ) (h : ℕ) (hd : Handler κ) : State κ :=
  let e := s.tlb hd.id
  if e.status = .active ∧ e.dday < hd.tv then
    let fired := { s with tlb := Function.update s.tlb hd.id { e with status := .fired } }
    match e.callback with
    | none =>
      { fired.place e.alarm fun a => { a with place := .done } with
        handlers := Function.update s.handlers h (some { hd with id := hd.id + 1 }) }
    | some cb =>
      { fired.place e.alarm fun a => { a with place := .calling h } with
        handlers := Function.update s.handlers h
          (some { hd with id := hd.id + 1, callback := some (cb, e.alarm) }) }
  else { s with handlers := Function.update s.handlers h (some { hd with id := hd.id + 1 }) }

/-- The callback of alarm `n` is called. -/
def State.call (s : State κ) (h n : ℕ) (hd : Handler κ) : State κ :=
  { s.place n fun a => { a with place := .done, runs := a.runs ++ [s.now] } with
    handlers := Function.update s.handlers h (some { hd with callback := none }) }

/-- The loop of `SIGALRM_handler` is over. -/
def State.finish (s : State κ) (h : ℕ) : State κ :=
  { s with
    activations := s.activations + 1
    handlers := Function.update s.handlers h none }

/-- What can happen next. -/
inductive Op (κ : Type*) where
  | tick (now : ℕ)
  | new
  | set (id : ℤ) (tv : Option ℕ) (cb : Option κ)
  | stop (id : ℤ)
  | free (id : ℤ)
  | activate
  | deliver (h : ℕ)
  | scan (h : ℕ)
  | call (h : ℕ) (cb : κ)
  | finish (h : ℕ)

/-- The timer that a call sets, stops or frees. -/
def Op.target : Op κ → Option ℤ
  | .set id _ _ => some id
  | .stop id => some id
  | .free id => some id
  | _ => none

/-- The steps. The clock is monotone; a handler may start at any time. -/
inductive Step (s : State κ) : Op κ → State κ → Prop
  | tick {now : ℕ} (le : s.now ≤ now) : Step s (.tick now) { s with now }
  | new : Step s .new s.new
  | set (id : ℤ) (tv : Option ℕ) (cb : Option κ) : Step s (.set id tv cb) (s.set id tv cb)
  | stop (id : ℤ) : Step s (.stop id) (s.stop id)
  | free (id : ℤ) : Step s (.free id) (s.free id)
  | activate (pos : 0 < s.activations) : Step s .activate s.activate
  | deliver {h : ℕ} (idle : s.handlers h = none) : Step s (.deliver h) (s.deliver h)
  | scan {h tv id : ℕ} (run : s.handlers h = some ⟨tv, id, none⟩) (lt : id < maxTimer) :
      Step s (.scan h) (s.scan h ⟨tv, id, none⟩)
  | call {h tv id n : ℕ} {cb : κ} (run : s.handlers h = some ⟨tv, id, some (cb, n)⟩) :
      Step s (.call h cb) (s.call h n ⟨tv, id, some (cb, n)⟩)
  | finish {h tv id : ℕ} (run : s.handlers h = some ⟨tv, id, none⟩) (le : maxTimer ≤ id) :
      Step s (.finish h) (s.finish h)

/-- What can be reached from `timer_init`. -/
inductive Reach : State κ → Prop
  | init {now : ℕ} (pos : 0 < now) : Reach (State.init now)
  | step {s s' : State κ} {op : Op κ} : Reach s → Step s op s' → Reach s'

/-! ## The earliest deadline -/

theorem earlier_of_active (tv1 : ℕ) {e : Entry κ} (h : e.status = .active) (hpos : 0 < e.dday) :
    0 < earlier tv1 e ∧ earlier tv1 e ≤ e.dday ∧ (0 < tv1 → earlier tv1 e ≤ tv1) := by
  rw [earlier, if_neg (not_not_intro h)]
  split_ifs <;> omega

theorem earlier_le {tv1 : ℕ} {e : Entry κ} (hpos : e.status = .active → 0 < e.dday)
    (htv : 0 < tv1) : 0 < earlier tv1 e ∧ earlier tv1 e ≤ tv1 := by
  by_cases h : e.status = .active
  · have hof := earlier_of_active tv1 h (hpos h)
    exact ⟨hof.1, hof.2.2 htv⟩
  · rw [earlier, if_pos h]
    exact ⟨htv, Nat.le_refl _⟩

/-- The loop keeps what it has found, or finds something earlier. -/
theorem foldl_earlier_le {l : List (Entry κ)} {tv1 : ℕ}
    (hpos : ∀ e ∈ l, e.status = .active → 0 < e.dday) (htv : 0 < tv1) :
    0 < l.foldl earlier tv1 ∧ l.foldl earlier tv1 ≤ tv1 := by
  induction l generalizing tv1 with
  | nil => exact ⟨htv, Nat.le_refl _⟩
  | cons e l ih =>
    have hhead := earlier_le (hpos e (by simp)) htv
    have htail := ih (fun e he => hpos e (by simp [he])) hhead.1
    exact ⟨htail.1, Nat.le_trans htail.2 hhead.2⟩

theorem foldl_earlier_le_dday {l : List (Entry κ)} (tv1 : ℕ) {e : Entry κ}
    (hpos : ∀ e ∈ l, e.status = .active → 0 < e.dday) (he : e ∈ l) (h : e.status = .active) :
    0 < l.foldl earlier tv1 ∧ l.foldl earlier tv1 ≤ e.dday := by
  induction l generalizing tv1 with
  | nil => cases he
  | cons e' l ih =>
    have hrest : ∀ e ∈ l, e.status = .active → 0 < e.dday := fun e he => hpos e (by simp [he])
    rcases List.mem_cons.1 he with rfl | he
    · have hhead := earlier_of_active tv1 h (hpos e (by simp) h)
      have htail := foldl_earlier_le hrest hhead.1
      exact ⟨htail.1, Nat.le_trans htail.2 hhead.2.1⟩
    · exact ih _ hrest he

/-- **What is armed.** The interval timer is armed when a timer is active, for its deadline at the
latest, or for one microsecond when that has passed. -/
theorem itValue_spec {tlb : Table κ} {i : ℕ} (tv : ℕ)
    (hpos : ∀ i < maxTimer, (tlb i).status = .active → 0 < (tlb i).dday) (hi : i < maxTimer)
    (h : (tlb i).status = .active) :
    0 < itValue tlb tv ∧ (tv + itValue tlb tv ≤ (tlb i).dday ∨
      (tlb i).dday ≤ tv ∧ itValue tlb tv = 1) := by
  have hall : ∀ e ∈ (List.range maxTimer).map tlb, e.status = .active → 0 < e.dday := by
    intro e he hactive
    obtain ⟨k, hk, rfl⟩ := List.mem_map.1 he
    exact hpos k (List.mem_range.1 hk) hactive
  have hmem : tlb i ∈ (List.range maxTimer).map tlb :=
    List.mem_map_of_mem (List.mem_range.2 hi)
  obtain ⟨hne, hle⟩ := foldl_earlier_le_dday 0 hall hmem h
  rw [itValue, earliest]
  split_ifs <;> omega

/-! ## The calls -/

theorem slot_lt {id : ℤ} {i : ℕ} (h : slot id = some i) : i < maxTimer := by
  unfold slot at h
  split_ifs at h with hid
  cases h
  omega

theorem slot_inj {id id' : ℤ} {i : ℕ} (h : slot id = some i) (h' : slot id' = some i) :
    id = id' := by
  unfold slot at h h'
  split_ifs at h h'
  cases h
  injection h' with h'
  omega

/-- What `timer_new` gives. -/
theorem timerNew_cases (tlb : Table κ) :
    (timerNew tlb = (timerInvalid, tlb) ∧ ∀ i < maxTimer, (tlb i).status ≠ .free) ∨
    ∃ i < maxTimer, (tlb i).status = .free ∧
      timerNew tlb = ((i : ℤ) + 1, Function.update tlb i { tlb i with status := .stopped }) := by
  unfold timerNew
  cases hfind : (List.range maxTimer).find? fun id => (tlb id).status = .free with
  | none =>
    left
    refine ⟨rfl, ?_⟩
    intro i hi
    simpa using List.find?_eq_none.1 hfind i (List.mem_range.2 hi)
  | some i =>
    right
    refine ⟨i, List.mem_range.1 (List.mem_of_find?_eq_some hfind), ?_, rfl⟩
    simpa using List.find?_some hfind

/-- What `timer_set` writes. -/
theorem timerSet_eq_some {tlb tlb' : Table κ} {now n i : ℕ} {id : ℤ} {tv : Option ℕ}
    {cb : Option κ} (h : timerSet tlb now n id tv cb = some (i, tlb')) :
    slot id = some i ∧ (tlb i).status ≠ .free ∧ ∃ d, tv = some d ∧
      tlb' = Function.update tlb i ⟨.active, now + d, cb <|> (tlb i).callback, n⟩ := by
  unfold timerSet at h
  split at h
  · next i' d hslot =>
    split_ifs at h with hfree
    obtain ⟨rfl, rfl⟩ := Prod.mk.inj (Option.some.inj h)
    exact ⟨hslot, hfree, d, rfl, rfl⟩
  · cases h

end Mlvm.Timer
