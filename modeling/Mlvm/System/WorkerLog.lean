import Mathlib.Data.List.Basic
import Mathlib.Logic.Function.Basic
import Mathlib.Tactic.Basic

/-!
# The worker log

`queue.c`: a server keeps a list of log entries, one for each stationary imago and worker it has
heard of. Creation and cloning append an entry, an arriving imago takes over the entry that
`log_find` finds, and the entry is updated when the imago leaves or dies, when a messenger of it
brings a shortcut, and when a system messenger reports its death. Entries are never removed.

The calls are atomic, as the log lock makes them. `reports` is no data of the server: it collects
where imagoes have been reported to be, by their departures and by their messengers.
-/

namespace Mlvm.WorkerLog

/-! ## The log -/

/-- What `log_find` compares: the host of the queen, the application and the name. -/
structure Key where
  host_id : ℕ
  application : ℕ
  name : String
  deriving DecidableEq

inductive Status where
  | moved
  | alive
  | disposed
  | blocked
  | sleeping
  deriving DecidableEq

/-- A log entry, without the time. -/
structure Log where
  key : Key
  server : String
  status : Status
  ip : Option ℕ
  jumps : ℕ

/-- What the log reads of an imago. -/
structure Icb where
  key : Key
  queen : String
  citizenship_host_id : ℕ
  citizenship : String
  jumps : ℕ

/-- `log_find`. -/
def logFind (live : List Log) (host_id application : ℕ) (name : Option String) : Option ℕ :=
  live.findIdx? fun log => log.key.host_id = host_id ∧ log.key.application = application ∧
    (name = none ∨ name = some log.key.name)

/-- `log_find` for an imago. -/
def find (live : List Log) (key : Key) : Option ℕ :=
  logFind live key.host_id key.application (some key.name)

/-- What `log_alive` writes. -/
def aliveLog (i : Option ℕ) (ip : Icb) : Log :=
  ⟨ip.key, ip.queen, .alive, i, ip.jumps⟩

/-- `log_alive`: the entry, which is appended unless it is given, and the log. -/
def logAlive (live : List Log) (log : Option ℕ) (i : ℕ) (ip : Icb) : ℕ × List Log :=
  match log with
  | none => (live.length, live ++ [aliveLog (some i) ip])
  | some n => (n, live.set n (aliveLog (some i) ip))

/-- `log_moved`. -/
def logMoved (log : Log) (jumps : ℕ) (dest : String) : Log :=
  { log with status := .moved, ip := none, server := dest, jumps }

/-- `log_disposed`. -/
def logDisposed (log : Log) : Log :=
  { log with status := .disposed, ip := none }

/-! ## The server -/

/-- An imago was said to be at a place after so many jumps. -/
structure Report where
  key : Key
  jumps : ℕ
  location : String

/-- The log, the imagoes that are present (other than messengers) with their entries, and the next
control block that is free. -/
structure Server where
  live : List Log
  icbs : ℕ → Option (Icb × ℕ)
  next : ℕ
  reports : List Report

/-- `imago_loader`, `imago_sys_loader` and `imago_cloner`: a new imago is logged. -/
def create (s : Server) (ip : Icb) : Server :=
  let r := logAlive s.live none s.next ip
  { s with
    live := r.2
    icbs := Function.update s.icbs s.next (some (ip, r.1))
    next := s.next + 1 }

/-- `imago_in` for an imago that comes from another server, or whose departure has failed. -/
def arrive (s : Server) (error : Bool) (ip : Icb) : Server :=
  let ip := if error then ip else { ip with jumps := ip.jumps + 1 }
  let r := logAlive s.live (find s.live ip.key) s.next ip
  { s with
    live := r.2
    icbs := Function.update s.icbs s.next (some (ip, r.1))
    next := s.next + 1 }

/-- `imago_out` and `imago_in` for an imago that moves to the server it is on. -/
def loopBack (s : Server) (i : ℕ) : Server :=
  match s.icbs i with
  | none => s
  | some (ip, _) =>
    let ip := { ip with jumps := ip.jumps + 1 }
    let r := logAlive s.live (find s.live ip.key) i ip
    { s with
      live := r.2
      icbs := Function.update s.icbs i (some (ip, r.1)) }

/-- `imago_out` for an imago that moves to another server. -/
def depart (s : Server) (i : ℕ) (dest : String) : Server :=
  match s.icbs i with
  | none => s
  | some (ip, n) =>
    { s with
      live := s.live.modify n fun log => { log with status := .moved, ip := none, server := dest }
      icbs := Function.update s.icbs i none
      reports := ⟨ip.key, ip.jumps, dest⟩ :: s.reports }

/-- `imago_out` for an imago that has terminated. -/
def die (s : Server) (i : ℕ) : Server :=
  match s.icbs i with
  | none => s
  | some (_, n) =>
    { s with
      live := s.live.modify n logDisposed
      icbs := Function.update s.icbs i none }

/-- What a messenger that attaches to a receiver is told. -/
inductive Answer where
  | unknown
  | moved (dest : String)
  | deceased
  | attached (i : ℕ)
  | nothing
  deriving DecidableEq

/-- What `bp_attach` makes of the entry of the receiver. -/
def answer (live : List Log) (receiver : Key) : Answer :=
  match (find live receiver).bind fun n => live[n]? with
  | none => .unknown
  | some log =>
    match log.ip, log.status with
    | some i, _ => .attached i
    | none, .moved => .moved log.server
    | none, .disposed => .deceased
    | none, _ => .nothing

/-- The shortcut that a messenger `mip` leaves for its sender. -/
def shortcut (live : List Log) (mip : Icb) : List Log :=
  match find live mip.key with
  | some n => live.modify n fun log =>
      if log.status = .moved ∧ log.jumps < mip.jumps then logMoved log mip.jumps mip.citizenship
      else log
  | none => live ++ [logMoved (aliveLog none mip) mip.jumps mip.citizenship]

/-- `bp_attach`. -/
def attach (s : Server) (mip : Icb) (receiver : String) : Answer × Server :=
  let a := answer s.live { mip.key with name := receiver }
  (a, match a with
    | .attached _ =>
      if mip.key.host_id ≠ mip.citizenship_host_id then
        { s with
          live := shortcut s.live mip
          reports := ⟨mip.key, mip.jumps, mip.citizenship⟩ :: s.reports }
      else s
    | _ => s)

/-- `syscall(deceased)`: the sender of a system messenger has died elsewhere. -/
def deceased (s : Server) (mip : Icb) : Server :=
  { s with
    live :=
      match find s.live mip.key with
      | some n => s.live.modify n logDisposed
      | none =>
        if (logFind s.live mip.key.host_id mip.key.application none).isSome then
          s.live ++ [logDisposed (aliveLog none mip)]
        else s.live }

/-- An imago is blocked, falls asleep or wakes up. -/
def mark (s : Server) (i : ℕ) (status : Status) : Server :=
  match s.icbs i with
  | none => s
  | some (_, n) => { s with live := s.live.modify n fun log => { log with status } }

/-! ## Runs -/

inductive Op where
  | create (ip : Icb)
  | arrive (error : Bool) (ip : Icb)
  | loopBack (i : ℕ)
  | depart (i : ℕ) (dest : String)
  | die (i : ℕ)
  | attach (mip : Icb) (receiver : String)
  | deceased (mip : Icb)
  | block (i : ℕ)
  | sleep (i : ℕ)
  | wake (i : ℕ)

def step (s : Server) : Op → Server
  | .create ip => create s ip
  | .arrive error ip => arrive s error ip
  | .loopBack i => loopBack s i
  | .depart i dest => depart s i dest
  | .die i => die s i
  | .attach mip receiver => (attach s mip receiver).2
  | .deceased mip => deceased s mip
  | .block i => mark s i .blocked
  | .sleep i => mark s i .sleeping
  | .wake i => mark s i .alive

/-- A server on which nothing has happened. -/
def Server.start : Server := ⟨[], fun _ => none, 0, []⟩

/-- What can be reached by steps that meet a condition. -/
inductive Reaches (ok : Server → Op → Prop) : Server → Prop
  | start : Reaches ok .start
  | step {s : Server} {o : Op} : Reaches ok s → ok s o → Reaches ok (step s o)

end Mlvm.WorkerLog
