import Mlvm.Timer.Alarms

/-!
# Sleeping imagoes

`imago_timer.c`: an imago that sleeps is kept in `internal_queue` until its `dday`. All of them
share one timer, `wakeup_timer`, whose callback `timer_recall` moves the imagoes whose time has come
to the engine queue and sets the timer for the earliest of the others.

A run interleaves the steps of the timer table, of whoever uses it, with those of `imago_timer` and
of `timer_recall`, which takes one step for each time it reads the clock and holds the lock of the
queue (`phase`) in between. `recalls` counts the calls of `timer_recall` that wait for the lock.

**Logs.** Who falls asleep and who is woken has this written into his log. A messenger has no log,
and then the write is a fault, after which nothing happens any more (`crashed`).

Other modules set, stop and free their own timers only. `number` and `engine` are no data of the
program: they tell the visits of imagoes to the timer queue apart and collect what has been moved to
the engine queue.
-/

namespace Mlvm.Sleep

open Timer (slot timerNew maxTimer)

/-! ## Imagoes -/

/-- The callbacks of timers. -/
inductive Callback where
  | timerRecall
  | other (n : ℕ)

/-- The status of an imago, as far as this module tells it. -/
inductive Status where
  | error
  | ready
  | timer
  | terminate
  | other
  deriving DecidableEq

/-- The status in the log of an imago, as far as this module tells it. -/
inductive LogStatus where
  | alive
  | sleeping
  | other
  deriving DecidableEq

/-- What an imago gives as the time to sleep: a number of seconds, or a float as its seconds and
microseconds. -/
inductive Value where
  | int (v : ℤ)
  | float (sec usec : ℤ)
  | other

/-- `E_ILLEGAL_ARGUMENT`. -/
def eIllegalArgument : ℤ := 4

structure Icb where
  number : ℕ
  status : Status
  /-- What the log says, if there is one. -/
  log : Option LogStatus
  nl : ℤ
  dday : ℕ
  st : Value

/-- The time to sleep, in microseconds. -/
def Value.time : Value → Option ℤ
  | .int v => some (v * 1000000)
  | .float sec usec => some (sec * 1000000 + usec)
  | .other => none

/-- An imago in the engine queue: the `dday` it came with, when it was moved, whether the system
was stopping, and whether it had come to sleep. -/
structure Moved where
  icb : Icb
  dday : ℕ
  time : ℕ
  stop : Bool
  slept : Bool

/-! ## The queue -/

/-- Where `timer_recall` is, once it holds the lock. -/
inductive Phase where
  | scan
  | found (tv1 : ℕ)
  | set (tv2 : ℕ)
  deriving DecidableEq

/-- `warned` says that the last `timer_recall` has left imagoes without a timer. -/
structure State where
  timer : Timer.State Callback
  mlvmStop : Bool
  queue : List Icb
  wakeup : ℤ
  recalls : ℕ
  phase : Option Phase
  warned : Bool
  engine : List Moved
  next : ℕ
  crashed : Bool

def State.init (now : ℕ) : State := ⟨.init now, false, [], -1, 0, none, false, [], 0, false⟩

/-- `icb_put_signal` to the engine queue. -/
def State.put (s : State) (ip : Icb) (dday : ℕ) (slept : Bool) : State :=
  { s with engine := s.engine ++ [⟨ip, dday, s.timer.now, s.mlvmStop, slept⟩] }

/-- The `dday` of an imago, computed if it has none. -/
def Icb.due (ip : Icb) (tv : ℕ) : Option ℕ :=
  if ip.dday ≠ 0 then some ip.dday
  else ip.st.time.map fun tv1 => ((tv : ℤ) + tv1).toNat

/-- An imago goes to sleep, up to the call of `timer_recall`. -/
def State.sleep (s : State) (ip : Icb) : State :=
  let s := { s with queue := s.queue ++ [{ ip with log := ip.log.map fun _ => .sleeping }] }
  if ip.log.isNone then { s with crashed := true } else { s with recalls := s.recalls + 1 }

/-- `imago_timer` for an imago of the timer queue, up to the call of `timer_recall`. -/
def State.imagoTimer (s : State) (ip : Icb) : State :=
  let ip := { ip with number := s.next }
  let s := { s with next := s.next + 1 }
  if s.mlvmStop then s.put { ip with status := .ready } ip.dday false
  else
    match ip.status with
    | .timer =>
      match ip.due s.timer.now with
      | none => s.put { ip with status := .error, nl := eIllegalArgument } 0 false
      | some dday =>
        if dday < s.timer.now then s.put { ip with status := .ready, dday := 0 } dday true
        else s.sleep { ip with dday }
    | _ => s.put ip ip.dday false

/-- `timer_recall` gets the lock. -/
def State.lock (s : State) : State := { s with recalls := s.recalls - 1, phase := some .scan }

/-- What an imago is when it is woken up; one that was killed is not revived. -/
def Icb.wake (wip : Icb) : Icb :=
  { wip with
    status := if wip.status = .timer then .ready else wip.status
    log := wip.log.map fun _ => .alive
    dday := 0 }

/-- The loop of `timer_recall` that looks for the earliest deadline. -/
def earliest (tv1 : ℕ) (rest : List Icb) : ℕ :=
  rest.foldl (fun tv1 wip => if wip.dday < tv1 then wip.dday else tv1) tv1

/-- `timer_recall` from `restart` on. -/
def State.scan (s : State) : State :=
  match s.queue.find? fun wip => wip.dday < s.timer.now with
  | some wip =>
    let s := { s with queue := s.queue.eraseP fun wip => wip.dday < s.timer.now }
    if wip.log.isNone then { s with crashed := true } else s.put wip.wake wip.dday true
  | none =>
    match s.queue with
    | [] =>
      if 0 ≤ s.wakeup then
        { s with timer := s.timer.free s.wakeup, wakeup := -1, phase := none, warned := false }
      else { s with phase := none, warned := false }
    | wip :: rest => { s with phase := some (.found (earliest wip.dday rest)) }

/-- `timer_recall` gets a timer and computes the delay. -/
def State.alloc (s : State) (tv1 : ℕ) : State :=
  let r := if s.wakeup < 0 then ((timerNew s.timer.tlb).1, s.timer.new) else (s.wakeup, s.timer)
  if r.1 < 0 then { s with timer := r.2, wakeup := r.1, phase := none, warned := true }
  else
    { s with
      timer := r.2
      wakeup := r.1
      phase := some (.set (if tv1 < s.timer.now then 1 else tv1 - s.timer.now)) }

/-- `timer_recall` sets the timer. -/
def State.arm (s : State) (tv2 : ℕ) : State :=
  { s with
    timer := s.timer.set s.wakeup (some tv2) (some .timerRecall)
    phase := none
    warned := false }

/-- The loop of `timer_flush`, for a queue. -/
def State.flushQueue (s : State) : List Icb → State
  | [] => { s with queue := [] }
  | ip :: queue =>
    if ip.log.isNone then { s with queue, crashed := true }
    else
      (s.put { ip with status := .ready, log := ip.log.map fun _ => .alive } ip.dday
        true).flushQueue
        queue

/-- `timer_flush`. -/
def State.flush (s : State) : State := s.flushQueue s.queue

/-- `dispose_of` for an imago that sleeps. -/
def State.disposeOf (s : State) (n : ℕ) : State :=
  { s with
    queue := s.queue.map fun ip =>
      if ip.number = n ∧ ip.status = .timer then { ip with status := .terminate, dday := 0 }
      else ip }

/-! ## Runs -/

/-- The calls of `timer_recall` by a step of the timers. -/
def recallsOf : Timer.Op Callback → ℕ
  | .call _ .timerRecall => 1
  | _ => 0

/-- One step, where those that satisfy `visits` come to the timer queue. -/
inductive Step (visits : Icb → Prop) (s : State) : State → Prop
  | timer {op : Timer.Op Callback} {t : Timer.State Callback} (step : Timer.Step s.timer op t)
      (own : op.target ≠ some s.wakeup) :
      Step visits s { s with timer := t, recalls := s.recalls + recallsOf op }
  | imagoTimer (ip : Icb) (visit : visits ip)
      (lock : s.phase = none ∨ (s.imagoTimer ip).queue = s.queue) : Step visits s (s.imagoTimer ip)
  | stop : Step visits s { s with mlvmStop := true }
  | flush (stop : s.mlvmStop = true) (lock : s.phase = none) : Step visits s s.flush
  | disposeOf (n : ℕ) : Step visits s (s.disposeOf n)
  | lock (pos : 0 < s.recalls) (lock : s.phase = none) : Step visits s s.lock
  | scan (run : s.phase = some .scan) : Step visits s s.scan
  | alloc {tv1 : ℕ} (run : s.phase = some (.found tv1)) : Step visits s (s.alloc tv1)
  | arm {tv2 : ℕ} (run : s.phase = some (.set tv2)) : Step visits s (s.arm tv2)

inductive Reach (visits : Icb → Prop) : State → Prop
  | init {now : ℕ} (pos : 0 < now) : Reach visits (State.init now)
  | step {s s' : State} : Reach visits s → s.crashed = false → Step visits s s' → Reach visits s'

/-- Who comes to sleep has a log: he is no messenger. -/
def Icb.Logged (ip : Icb) : Prop := ip.status = .timer → ip.log.isSome = true

/-! ## What is promised -/

/-- The timer is set to wake everyone who sleeps: at his `dday`, or at once, as the clock was when
it was set. -/
def Armed (s : State) : Prop :=
  ∃ i, slot s.wakeup = some i ∧ (s.timer.tlb i).status = .active ∧
    (s.timer.tlb i).callback = some .timerRecall ∧
    ∃ t₀ t₁, t₀ ≤ t₁ ∧ t₁ ≤ s.timer.now ∧
      ∀ wip ∈ s.queue, wip.status = .timer → (s.timer.tlb i).dday ≤ t₁ + max 1 (wip.dday - t₀)

/-- A call of `timer_recall` is under way or due. -/
def WakePending (s : State) : Prop :=
  0 < s.recalls ∨ s.phase ≠ none ∨ (∃ h n, s.timer.Calls h .timerRecall n) ∨ Armed s

/-- How often the visit `n` is in the queue or has been moved. -/
def places (s : State) (n : ℕ) : ℕ :=
  (s.queue.map Icb.number).count n + (s.engine.map fun m => m.icb.number).count n

end Mlvm.Sleep
