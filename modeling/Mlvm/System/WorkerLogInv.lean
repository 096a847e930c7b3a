import Mlvm.System.WorkerLog
import Mathlib.Tactic.SplitIfs

/-!
# What the worker log says

As long as names are not used again, the log has one entry for a name.

**The invariant** (`Inv`). Every entry has its own name; the entry of a present imago points back at
it and has its jump count; an entry that points nowhere is of an imago that has moved or died, and
one of an imago that has moved holds the report with the highest jump count.

**One write** (`Writes`). Each step writes at most one entry, and `Inv.of_writes` says what the
write has to meet. **`worker_log_right`** puts the steps together, and says when a creation keeps
the log right.
-/

namespace Mlvm.WorkerLog

/-! ## Properties -/

/-- The status of an imago that is present. -/
def Status.Live (status : Status) : Prop :=
  status = .alive ∨ status = .blocked ∨ status = .sleeping

/-- What the log is expected to say. -/
structure Right (s : Server) : Prop where
  /-- A present imago is found. -/
  found : ∀ i ip n, s.icbs i = some (ip, n) →
    ∃ (m : ℕ) (log : Log), find s.live ip.key = some m ∧ s.live[m]? = some log ∧ log.ip = some i
  /-- A name has at most one live entry. -/
  unique : ∀ (m n : ℕ) (log log' : Log), s.live[m]? = some log → s.live[n]? = some log' →
    log.status.Live → log'.status.Live → log.key = log'.key → m = n
  /-- An entry points at imagoes that are present, and only live entries point anywhere. -/
  present : ∀ (n : ℕ) (log : Log), s.live[n]? = some log →
    (log.status.Live ↔ log.ip.isSome = true) ∧ ∀ i ∈ log.ip, (s.icbs i).isSome = true
  /-- An imago that has moved is where it was reported after the most jumps. -/
  newest : ∀ (n : ℕ) (log : Log), s.live[n]? = some log → log.status = .moved → ∃ r ∈ s.reports,
    r.key = log.key ∧ r.location = log.server ∧
      ∀ r' ∈ s.reports, r'.key = log.key → r'.jumps ≤ r.jumps

/-- A step meets this in a run in which no name is used again while the log has it, and a worker has
made no fewer jumps than its messengers say. -/
def Careful (s : Server) : Op → Prop
  | .create ip => find s.live ip.key = none
  | .arrive error ip =>
    (∀ i jp n, s.icbs i = some (jp, n) → jp.key ≠ ip.key) ∧
    ∀ r ∈ s.reports, r.key = ip.key → r.jumps ≤ if error then ip.jumps else ip.jumps + 1
  | .attach mip _ => ∀ i ip n, s.icbs i = some (ip, n) → ip.key = mip.key → mip.jumps ≤ ip.jumps
  | .deceased mip => ∀ i ip n, s.icbs i = some (ip, n) → ip.key ≠ mip.key
  | _ => True

/-- The invariant of careful runs. -/
structure Inv (s : Server) : Prop where
  unique : ∀ {m n : ℕ} {log log' : Log}, s.live[m]? = some log → s.live[n]? = some log' →
    log.key = log'.key → m = n
  here : ∀ {i : ℕ} {ip : Icb} {n : ℕ}, s.icbs i = some (ip, n) →
    ∃ log : Log, s.live[n]? = some log ∧ log.key = ip.key ∧ log.ip = some i ∧ log.jumps = ip.jumps
  back : ∀ {n : ℕ} {log : Log} {i : ℕ}, s.live[n]? = some log → log.ip = some i →
    ∃ ip, s.icbs i = some (ip, n)
  fresh : ∀ {i}, s.next ≤ i → s.icbs i = none
  status : ∀ {n : ℕ} {log : Log}, s.live[n]? = some log → (log.status.Live ↔ log.ip.isSome = true)
  known : ∀ {r : Report}, r ∈ s.reports → ∃ (n : ℕ) (log : Log), s.live[n]? = some log ∧
    log.key = r.key
  newest : ∀ {n : ℕ} {log : Log} {r : Report}, s.live[n]? = some log → log.status ≠ .disposed →
    r ∈ s.reports → r.key = log.key → r.jumps ≤ log.jumps
  reported : ∀ {n : ℕ} {log : Log}, s.live[n]? = some log → log.status = .moved →
    ∃ r ∈ s.reports, r.key = log.key ∧ r.jumps = log.jumps ∧ r.location = log.server

variable {s s' : Server} {n m i : ℕ} {log : Log} {ip mip : Icb} {key : Key}

/-! ## Finding an entry -/

theorem find_eq (live : List Log) (key : Key) :
    find live key = live.findIdx? fun log => log.key = key := by
  rw [find, logFind]
  congr 1
  funext log
  rw [decide_eq_decide]
  rcases hlog : log.key with ⟨h, a, name⟩
  rcases key with ⟨h', a', name'⟩
  simp [eq_comm]

/-- The entry that is found has the name that is sought. -/
theorem find_some {live : List Log} (h : find live key = some n) :
    ∃ log : Log, live[n]? = some log ∧ log.key = key := by
  rw [find_eq, List.findIdx?_eq_some_iff_getElem] at h
  obtain ⟨hn, hkey, -⟩ := h
  exact ⟨live[n], List.getElem?_eq_getElem hn, of_decide_eq_true hkey⟩

theorem find_none {live : List Log} (h : find live key = none) (hlog : live[n]? = some log) :
    log.key ≠ key := by
  rw [find_eq, List.findIdx?_eq_none_iff] at h
  exact of_decide_eq_false (h log (List.mem_of_getElem? hlog))

/-- The only entry of a name is found. -/
theorem Inv.find (h : Inv s) (hlog : s.live[n]? = some log) :
    WorkerLog.find s.live log.key = some n := by
  cases hfind : WorkerLog.find s.live log.key with
  | none => exact absurd rfl (find_none hfind hlog)
  | some m =>
    obtain ⟨log', hlog', hkey⟩ := find_some hfind
    rw [h.unique hlog' hlog hkey]

/-! ## One write -/

/-- Entry `n` becomes `log`, the only entry of its name, and no other entry changes. -/
structure LogWrites (live live' : List Log) (n : ℕ) (log : Log) : Prop where
  at_n : live'[n]? = some log
  other : ∀ {m : ℕ}, m ≠ n → live'[m]? = live[m]?
  key : ∀ {m : ℕ} {log' : Log}, live[m]? = some log' → (log'.key = log.key ↔ m = n)

/-- What is written agrees with the imagoes that are present and with the reports. -/
structure Writes (s s' : Server) (n : ℕ) (log : Log) : Prop extends
    LogWrites s.live s'.live n log where
  own : ∀ {j : ℕ} {ip : Icb}, s'.icbs j = some (ip, n) →
    log.ip = some j ∧ ip.key = log.key ∧ ip.jumps = log.jumps
  back : ∀ {j : ℕ}, log.ip = some j → ∃ ip, s'.icbs j = some (ip, n)
  icbs : ∀ {j : ℕ} {ip : Icb} {m : ℕ}, m ≠ n → (s'.icbs j = some (ip, m) ↔ s.icbs j = some (ip, m))
  fresh : ∀ {j : ℕ}, s'.next ≤ j → s'.icbs j = none
  status : log.status.Live ↔ log.ip.isSome = true
  keeps : ∀ r ∈ s.reports, r ∈ s'.reports
  adds : ∀ r ∈ s'.reports, r ∈ s.reports ∨ r.key = log.key
  newest : log.status ≠ .disposed → ∀ r ∈ s'.reports, r.key = log.key → r.jumps ≤ log.jumps
  reported : log.status = .moved →
    ∃ r ∈ s'.reports, r.key = log.key ∧ r.jumps = log.jumps ∧ r.location = log.server

/-- What is written is in the log, or was there before under another name. -/
theorem Writes.cases (w : Writes s s' n log) {log' : Log} (h : s'.live[m]? = some log') :
    m = n ∧ log' = log ∨ m ≠ n ∧ s.live[m]? = some log' ∧ log'.key ≠ log.key := by
  by_cases hm : m = n
  · subst hm
    exact .inl ⟨rfl, Option.some.inj (h.symm.trans w.at_n)⟩
  · rw [w.other hm] at h
    exact .inr ⟨hm, h, fun hkey => hm ((w.key h).1 hkey)⟩

/-- A report about another name was there before. -/
theorem Writes.old (w : Writes s s' n log) {r : Report} (hr : r ∈ s'.reports)
    (hkey : r.key ≠ log.key) : r ∈ s.reports := by
  rcases w.adds r hr with hold | hnew
  · exact hold
  · exact absurd hnew hkey

/-- **One write** keeps the invariant. -/
theorem Inv.of_writes (h : Inv s) (w : Writes s s' n log) : Inv s' where
  unique := by
    intro a b la lb ha hb hkey
    rcases w.cases ha with ⟨rfl, rfl⟩ | ⟨-, ha, hnea⟩ <;>
      rcases w.cases hb with ⟨rfl, rfl⟩ | ⟨-, hb, hneb⟩
    · rfl
    · exact absurd hkey.symm hneb
    · exact absurd hkey hnea
    · exact h.unique ha hb hkey
  here := by
    intro j ip m hj
    by_cases hm : m = n
    · subst hm
      obtain ⟨hip, hkey, hjumps⟩ := w.own hj
      exact ⟨log, w.at_n, hkey.symm, hip, hjumps.symm⟩
    · rw [w.icbs hm] at hj
      rw [w.other hm]
      exact h.here hj
  back := by
    intro m log' j hm hip
    rcases w.cases hm with ⟨rfl, rfl⟩ | ⟨hne, hm, -⟩
    · exact w.back hip
    · obtain ⟨ip, hj⟩ := h.back hm hip
      exact ⟨ip, (w.icbs hne).2 hj⟩
  fresh := w.fresh
  status := by
    intro m log' hm
    rcases w.cases hm with ⟨rfl, rfl⟩ | ⟨-, hm, -⟩
    · exact w.status
    · exact h.status hm
  known := by
    intro r hr
    by_cases hkey : r.key = log.key
    · exact ⟨n, log, w.at_n, hkey.symm⟩
    · obtain ⟨m, log', hm, hlog'⟩ := h.known (w.old hr hkey)
      have hne : m ≠ n := by
        intro heq
        exact hkey (hlog'.symm.trans ((w.key hm).2 heq))
      exact ⟨m, log', by rw [w.other hne, hm], hlog'⟩
  newest := by
    intro m log' r hm hstatus hr hkey
    rcases w.cases hm with ⟨rfl, rfl⟩ | ⟨-, hm, hne⟩
    · exact w.newest hstatus r hr hkey
    · exact h.newest hm hstatus (w.old hr (hkey ▸ hne)) hkey
  reported := by
    intro m log' hm hstatus
    rcases w.cases hm with ⟨rfl, rfl⟩ | ⟨-, hm, -⟩
    · exact w.reported hstatus
    · obtain ⟨r, hr, hreport⟩ := h.reported hm hstatus
      exact ⟨r, w.keeps r hr, hreport⟩

/-- Entry `n` is written under the name that it has. -/
theorem Inv.rewrites (h : Inv s) (hlog : s.live[n]? = some log) {live' : List Log} {log' : Log}
    (hkey : log'.key = log.key) (hat : live'[n]? = some log')
    (hother : ∀ m ≠ n, live'[m]? = s.live[m]?) : LogWrites s.live live' n log' := by
  refine ⟨hat, @hother, ?_⟩
  intro m old hm
  rw [hkey]
  constructor
  · intro hold
    exact h.unique hm hlog hold
  · rintro rfl
    rw [Option.some.inj (hm.symm.trans hlog)]

theorem Inv.modify (h : Inv s) (hlog : s.live[n]? = some log) {f : Log → Log}
    (hf : (f log).key = log.key) : LogWrites s.live (s.live.modify n f) n (f log) := by
  apply h.rewrites hlog hf
  · rw [List.getElem?_modify_eq, hlog]
    rfl
  · intro m hm
    exact List.getElem?_modify_ne _ _ (Ne.symm hm)

theorem append_writes {live : List Log} (hnone : find live log.key = none) :
    LogWrites live (live ++ [log]) live.length log where
  at_n := List.getElem?_concat_length
  other := by
    intro m hm
    rcases Nat.lt_or_gt_of_ne hm with hlt | hgt
    · rw [List.getElem?_append_left hlt]
    · rw [List.getElem?_eq_none (Nat.le_of_lt hgt), List.getElem?_eq_none]
      rw [List.length_append]
      exact hgt
  key := by
    intro m log' hm
    refine iff_of_false (find_none hnone hm) ?_
    rintro rfl
    rw [List.getElem?_eq_none (Nat.le_refl _)] at hm
    cases hm

/-- `log_alive` for the entry that is found, or for a new one. -/
theorem Inv.logAlive (h : Inv s) (i : ℕ) (ip : Icb) :
    LogWrites s.live (logAlive s.live (WorkerLog.find s.live ip.key) i ip).2
      (logAlive s.live (WorkerLog.find s.live ip.key) i ip).1 (aliveLog (some i) ip) := by
  cases hfind : WorkerLog.find s.live ip.key with
  | none => exact append_writes hfind
  | some n =>
    obtain ⟨log, hlog, hkey⟩ := find_some hfind
    apply h.rewrites hlog hkey.symm
    · have hn := (List.getElem?_eq_some_iff.1 hlog).1
      exact List.getElem?_set_self hn
    · intro m hm
      exact List.getElem?_set_ne (Ne.symm hm)

/-! ## The steps -/

/-- The owner of the entry of a name is the imago of that name. -/
theorem Inv.owner (h : Inv s) (hlog : s.live[n]? = some log) {j : ℕ} {jp : Icb}
    (hj : s.icbs j = some (jp, n)) : jp.key = log.key ∧ log.ip = some j := by
  obtain ⟨log', hlog', hkey, hip, -⟩ := h.here hj
  obtain rfl := Option.some.inj (hlog.symm.trans hlog')
  exact ⟨hkey.symm, hip⟩

theorem not_live_moved : ¬ Status.Live .moved := by
  rintro (h | h | h) <;> cases h

theorem not_live_disposed : ¬ Status.Live .disposed := by
  rintro (h | h | h) <;> cases h

theorem Inv.not_disposed (h : Inv s) (hlog : s.live[n]? = some log) (hip : log.ip = some i) :
    log.status ≠ .disposed := by
  intro hdisposed
  have hlive := (h.status hlog).2 (by rw [hip]; rfl)
  rw [hdisposed] at hlive
  exact not_live_disposed hlive

/-- An imago is logged as alive, which is new or has had its name to itself. -/
theorem Inv.alive (h : Inv s) {next : ℕ} (hnext : s.next ≤ next) (hi : i < next)
    (hold : ∀ jp m, s.icbs i = some (jp, m) → jp.key = ip.key)
    (hown : ∀ j jp n, s.icbs j = some (jp, n) → jp.key = ip.key → j = i)
    (hnew : ∀ r ∈ s.reports, r.key = ip.key → r.jumps ≤ ip.jumps) :
    Inv { s with
      live := (WorkerLog.logAlive s.live (WorkerLog.find s.live ip.key) i ip).2
      icbs := Function.update s.icbs i
        (some (ip, (WorkerLog.logAlive s.live (WorkerLog.find s.live ip.key) i ip).1))
      next } := by
  have hw := h.logAlive i ip
  generalize WorkerLog.logAlive s.live (WorkerLog.find s.live ip.key) i ip = r at hw
  obtain ⟨n, live⟩ := r
  -- the entry that is written has had no other owner
  have hentry : ∀ j jp m, s.icbs j = some (jp, m) → (jp.key = ip.key ↔ m = n) := by
    intro j jp m hj
    obtain ⟨log, hlog, hkey, -⟩ := h.here hj
    rw [← hkey]
    exact hw.key hlog
  refine h.of_writes
    (⟨hw, ?_, ?_, ?_, ?_, ?_, ?_, ?_, ?_, ?_⟩ : Writes s _ n (aliveLog (some i) ip))
  · intro j jp hj
    change Function.update s.icbs i (some (ip, n)) j = some (jp, n) at hj
    by_cases hji : j = i
    · subst hji
      rw [Function.update_self] at hj
      obtain ⟨rfl, -⟩ := Prod.mk.inj (Option.some.inj hj)
      exact ⟨rfl, rfl, rfl⟩
    · rw [Function.update_of_ne hji] at hj
      exact absurd (hown j jp n hj ((hentry j jp n hj).2 rfl)) hji
  · intro j hj
    obtain rfl := Option.some.inj hj
    exact ⟨ip, Function.update_self ..⟩
  · intro j jp m hm
    change Function.update s.icbs i (some (ip, n)) j = some (jp, m) ↔ _
    by_cases hji : j = i
    · subst hji
      rw [Function.update_self]
      constructor
      · intro hj
        exact absurd (Prod.mk.inj (Option.some.inj hj)).2.symm hm
      · intro hj
        exact absurd ((hentry j jp m hj).1 (hold jp m hj)) hm
    · rw [Function.update_of_ne hji]
  · intro j hj
    change Function.update s.icbs i (some (ip, n)) j = none
    rw [Function.update_of_ne (Nat.ne_of_gt (Nat.lt_of_lt_of_le hi hj))]
    exact h.fresh (Nat.le_trans hnext hj)
  · exact iff_of_true (.inl rfl) rfl
  · intro r hr
    exact hr
  · intro r hr
    exact .inl hr
  · intro _ r hr hkey
    exact hnew r hr hkey
  · intro hmoved
    cases hmoved

theorem Inv.create (h : Inv s) (hop : Careful s (.create ip)) : Inv (create s ip) := by
  have hnone : WorkerLog.find s.live ip.key = none := hop
  have hold : ∀ jp m, s.icbs s.next = some (jp, m) → jp.key = ip.key := by
    intro jp m hj
    rw [h.fresh (Nat.le_refl _)] at hj
    cases hj
  have hown : ∀ j jp n, s.icbs j = some (jp, n) → jp.key = ip.key → j = s.next := by
    intro j jp n hj hkey
    obtain ⟨log, hlog, hkey', -⟩ := h.here hj
    exact absurd (hkey'.trans hkey) (find_none hnone hlog)
  have hnew : ∀ r ∈ s.reports, r.key = ip.key → r.jumps ≤ ip.jumps := by
    intro r hr hkey
    obtain ⟨n, log, hlog, hkey'⟩ := h.known hr
    exact absurd (hkey'.trans hkey) (find_none hnone hlog)
  have halive := h.alive (Nat.le_succ _) (Nat.lt_succ_self _) hold hown hnew
  rw [hnone] at halive
  exact halive

theorem Inv.arrive (h : Inv s) {error : Bool} (hop : Careful s (.arrive error ip)) :
    Inv (arrive s error ip) := by
  obtain ⟨hother, hjumps⟩ := hop
  have hkey : (if error then ip else { ip with jumps := ip.jumps + 1 }).key = ip.key := by
    cases error <;> rfl
  apply h.alive (Nat.le_succ _) (Nat.lt_succ_self _)
  · intro jp m hj
    rw [h.fresh (Nat.le_refl _)] at hj
    cases hj
  · intro j jp n hj hjp
    rw [hkey] at hjp
    exact absurd hjp (hother j jp n hj)
  · intro r hr hrkey
    rw [hkey] at hrkey
    have hle := hjumps r hr hrkey
    cases error <;> exact hle

theorem Inv.loopBack (h : Inv s) (i : ℕ) : Inv (loopBack s i) := by
  rw [WorkerLog.loopBack]
  rcases hi : s.icbs i with - | ⟨ip, n⟩
  · exact h
  · obtain ⟨log, hlog, hkey, hip, hjumps⟩ := h.here hi
    apply h.alive (Nat.le_refl _)
    · by_contra hle
      rw [h.fresh (Nat.le_of_not_lt hle)] at hi
      cases hi
    · intro jp m hj
      rw [hi] at hj
      obtain ⟨rfl, -⟩ := Prod.mk.inj (Option.some.inj hj)
      rfl
    · intro j jp m hj hjp
      obtain ⟨log', hlog', hkey', hip', -⟩ := h.here hj
      obtain rfl := h.unique hlog' hlog (by rw [hkey', hkey]; exact hjp)
      obtain rfl := Option.some.inj (hlog.symm.trans hlog')
      exact Option.some.inj (hip'.symm.trans hip)
    · intro r hr hrkey
      refine Nat.le_succ_of_le ?_
      rw [← hjumps]
      exact h.newest hlog (h.not_disposed hlog hip) hr (hrkey.trans hkey.symm)

/-- The entry of an imago that leaves or dies points nowhere. -/
theorem Inv.gone (h : Inv s) (hi : s.icbs i = some (ip, n)) {f : Log → Log} {reports : List Report}
    (hf : ∀ log, (f log).key = log.key ∧ (f log).ip = none ∧ (f log).jumps = log.jumps ∧
      ¬ (f log).status.Live)
    (hkeeps : ∀ r ∈ s.reports, r ∈ reports)
    (hadds : ∀ r ∈ reports, r ∈ s.reports ∨ r.key = ip.key ∧ r.jumps = ip.jumps)
    (hmoved : ∀ log, (f log).status = .moved → ⟨ip.key, ip.jumps, (f log).server⟩ ∈ reports) :
    Inv { s with
      live := s.live.modify n f
      icbs := Function.update s.icbs i none
      reports } := by
  obtain ⟨log, hlog, hkey, hip, hjumps⟩ := h.here hi
  obtain ⟨hfkey, hfip, hfjumps, hflive⟩ := hf log
  have hw := h.modify hlog hfkey
  refine h.of_writes (⟨hw, ?_, ?_, ?_, ?_, ?_, ?_, ?_, ?_, ?_⟩ : Writes s _ n (f log))
  · intro j jp hj
    change Function.update s.icbs i none j = some (jp, n) at hj
    by_cases hji : j = i
    · rw [hji, Function.update_self] at hj
      cases hj
    · rw [Function.update_of_ne hji] at hj
      exact absurd (Option.some.inj ((h.owner hlog hj).2.symm.trans hip)) hji
  · intro j hj
    rw [hfip] at hj
    cases hj
  · intro j jp m hm
    change Function.update s.icbs i none j = some (jp, m) ↔ _
    by_cases hji : j = i
    · subst hji
      rw [Function.update_self, hi]
      constructor
      · intro hj
        cases hj
      · intro hj
        exact absurd (Prod.mk.inj (Option.some.inj hj)).2.symm hm
    · rw [Function.update_of_ne hji]
  · intro j hj
    change Function.update s.icbs i none j = none
    by_cases hji : j = i
    · rw [hji, Function.update_self]
    · rw [Function.update_of_ne hji]
      exact h.fresh hj
  · rw [hfip]
    exact iff_of_false hflive Bool.false_ne_true
  · exact hkeeps
  · intro r hr
    rw [hfkey, hkey]
    exact (hadds r hr).imp_right And.left
  · intro _ r hr hrkey
    rw [hfkey] at hrkey
    rw [hfjumps]
    rcases hadds r hr with hold | ⟨-, hrjumps⟩
    · exact h.newest hlog (h.not_disposed hlog hip) hold hrkey
    · exact Nat.le_of_eq (hrjumps.trans hjumps.symm)
  · intro hstatus
    exact ⟨_, hmoved log hstatus, by rw [hfkey, hkey], by rw [hfjumps, hjumps], rfl⟩

theorem Inv.depart (h : Inv s) (i : ℕ) (dest : String) : Inv (depart s i dest) := by
  rw [WorkerLog.depart]
  rcases hi : s.icbs i with - | ⟨ip, n⟩
  · exact h
  · apply h.gone hi
    · intro log
      exact ⟨rfl, rfl, rfl, not_live_moved⟩
    · intro r hr
      exact List.mem_cons_of_mem _ hr
    · intro r hr
      rcases List.mem_cons.1 hr with rfl | hr
      · exact .inr ⟨rfl, rfl⟩
      · exact .inl hr
    · intro log _
      exact List.mem_cons_self ..

theorem Inv.die (h : Inv s) (i : ℕ) : Inv (die s i) := by
  rw [WorkerLog.die]
  rcases hi : s.icbs i with - | ⟨ip, n⟩
  · exact h
  · apply h.gone hi
    · intro log
      exact ⟨rfl, rfl, rfl, not_live_disposed⟩
    · intro r hr
      exact hr
    · intro r hr
      exact .inl hr
    · intro log hmoved
      cases hmoved

/-- A live entry is written under the name it has, and stays with its imago. -/
theorem Inv.mark (h : Inv s) (i : ℕ) {status : Status} (hlive : status.Live) :
    Inv (mark s i status) := by
  rw [WorkerLog.mark]
  rcases hi : s.icbs i with - | ⟨ip, n⟩
  · exact h
  · obtain ⟨log, hlog, hkey, hip, hjumps⟩ := h.here hi
    have hw := h.modify hlog (f := fun log => { log with status }) rfl
    refine h.of_writes (⟨hw, ?_, ?_, ?_, ?_, ?_, ?_, ?_, ?_, ?_⟩ : Writes s _ n _)
    · intro j jp hj
      obtain ⟨log', hlog', hkey', hip', hjumps'⟩ := h.here hj
      obtain rfl := Option.some.inj (hlog.symm.trans hlog')
      exact ⟨hip', hkey'.symm, hjumps'.symm⟩
    · intro j hj
      exact h.back hlog hj
    · intro j jp m _
      exact Iff.rfl
    · intro j hj
      exact h.fresh hj
    · exact iff_of_true hlive (by rw [hip]; rfl)
    · intro r hr
      exact hr
    · intro r hr
      exact .inl hr
    · intro _ r hr hrkey
      have hle : r.jumps ≤ log.jumps := h.newest hlog (h.not_disposed hlog hip) hr hrkey
      exact hle
    · intro hmoved
      change status = .moved at hmoved
      rw [hmoved] at hlive
      exact absurd hlive not_live_moved

/-- An entry is written that points nowhere, and that has pointed nowhere. -/
theorem Inv.absent (h : Inv s) {live : List Log} {reports : List Report}
    (hw : LogWrites s.live live n log) (hold : ∀ j jp, s.icbs j ≠ some (jp, n))
    (hip : log.ip = none) (hlive : ¬ log.status.Live) (hkeeps : ∀ r ∈ s.reports, r ∈ reports)
    (hadds : ∀ r ∈ reports, r ∈ s.reports ∨ r.key = log.key)
    (hnewest : log.status ≠ .disposed → ∀ r ∈ reports, r.key = log.key → r.jumps ≤ log.jumps)
    (hmoved : log.status = .moved →
      ∃ r ∈ reports, r.key = log.key ∧ r.jumps = log.jumps ∧ r.location = log.server) :
    Inv { s with live, reports } := by
  refine h.of_writes (⟨hw, ?_, ?_, ?_, ?_, ?_, hkeeps, hadds, hnewest, hmoved⟩ : Writes s _ n log)
  · intro j jp hj
    exact absurd hj (hold j jp)
  · intro j hj
    rw [hip] at hj
    cases hj
  · intro j jp m _
    exact Iff.rfl
  · intro j hj
    exact h.fresh hj
  · rw [hip]
    exact iff_of_false hlive Bool.false_ne_true

/-- An entry that points nowhere has no owner. -/
theorem Inv.no_owner (h : Inv s) (hlog : s.live[n]? = some log) (hip : log.ip = none) :
    ∀ j jp, s.icbs j ≠ some (jp, n) := by
  intro j jp hj
  rw [(h.owner hlog hj).2] at hip
  cases hip

theorem Inv.no_owner_length (h : Inv s) : ∀ j jp, s.icbs j ≠ some (jp, s.live.length) := by
  intro j jp hj
  obtain ⟨log, hlog, -⟩ := h.here hj
  rw [List.getElem?_eq_none (Nat.le_refl _)] at hlog
  cases hlog

theorem Inv.deceased (h : Inv s) (hop : Careful s (.deceased mip)) : Inv (deceased s mip) := by
  rw [WorkerLog.deceased]
  cases hfind : WorkerLog.find s.live mip.key with
  | some n =>
    obtain ⟨log, hlog, hkey⟩ := find_some hfind
    have hip : log.ip = none := by
      rcases hip : log.ip with - | i
      · rfl
      · obtain ⟨jp, hj⟩ := h.back hlog hip
        exact absurd ((h.owner hlog hj).1.trans hkey) (hop i jp n hj)
    apply h.absent (h.modify hlog (f := logDisposed) rfl) (h.no_owner hlog hip) rfl
      not_live_disposed
    · intro r hr
      exact hr
    · intro r hr
      exact .inl hr
    · intro hne
      exact absurd rfl hne
    · intro hmoved
      cases hmoved
  | none =>
    dsimp only
    split_ifs
    · have hw : LogWrites s.live _ _ (logDisposed (aliveLog none mip)) := append_writes hfind
      apply h.absent hw h.no_owner_length rfl not_live_disposed
      · intro r hr
        exact hr
      · intro r hr
        exact .inl hr
      · intro hne
        exact absurd rfl hne
      · intro hmoved
        cases hmoved
    · exact h

/-- A report is heard of that says nothing new. -/
theorem Inv.report (h : Inv s) (hlog : s.live[n]? = some log) {r : Report} (hkey : r.key = log.key)
    (hjumps : log.status ≠ .disposed → r.jumps ≤ log.jumps) :
    Inv { s with reports := r :: s.reports } where
  unique := h.unique
  here := h.here
  back := h.back
  fresh := h.fresh
  status := h.status
  known := by
    intro r' hr'
    rcases List.mem_cons.1 hr' with rfl | hr'
    · exact ⟨n, log, hlog, hkey.symm⟩
    · exact h.known hr'
  newest := by
    intro m log' r' hm hstatus hr' hr'key
    rcases List.mem_cons.1 hr' with rfl | hr'
    · obtain rfl := h.unique hm hlog (hr'key.symm.trans hkey)
      obtain rfl := Option.some.inj (hlog.symm.trans hm)
      exact hjumps hstatus
    · exact h.newest hm hstatus hr' hr'key
  reported := by
    intro m log' hm hmoved
    obtain ⟨r', hr', hreport⟩ := h.reported hm hmoved
    exact ⟨r', List.mem_cons_of_mem _ hr', hreport⟩

theorem modify_eq_self {live : List Log} {f : Log → Log} (hlog : live[n]? = some log)
    (hf : f log = log) : live.modify n f = live := by
  apply List.ext_getElem?
  intro m
  by_cases hm : n = m
  · subst hm
    rw [List.getElem?_modify_eq, hlog, Option.map_eq_map, Option.map_some, hf]
  · rw [List.getElem?_modify_ne _ _ hm]

theorem Inv.shortcut (h : Inv s)
    (hop : ∀ i ip n, s.icbs i = some (ip, n) → ip.key = mip.key → mip.jumps ≤ ip.jumps) :
    Inv { s with
      live := shortcut s.live mip
      reports := ⟨mip.key, mip.jumps, mip.citizenship⟩ :: s.reports } := by
  rw [WorkerLog.shortcut]
  cases hfind : WorkerLog.find s.live mip.key with
  | some n =>
    obtain ⟨log, hlog, hkey⟩ := find_some hfind
    by_cases hcond : log.status = .moved ∧ log.jumps < mip.jumps
    · have hip : log.ip = none := by
        rw [← Option.not_isSome_iff_eq_none, ← h.status hlog, hcond.1]
        exact not_live_moved
      have hw := h.modify hlog (f := fun log =>
        if log.status = .moved ∧ log.jumps < mip.jumps then logMoved log mip.jumps mip.citizenship
        else log) (by rw [if_pos hcond]; rfl)
      rw [if_pos hcond] at hw
      apply h.absent hw (h.no_owner hlog hip) rfl not_live_moved
      · intro r hr
        exact List.mem_cons_of_mem _ hr
      · intro r hr
        rcases List.mem_cons.1 hr with rfl | hr
        · exact .inr hkey.symm
        · exact .inl hr
      · intro _ r hr hrkey
        rcases List.mem_cons.1 hr with rfl | hr
        · exact Nat.le_refl _
        · have hne : log.status ≠ .disposed := by
            rw [hcond.1]
            decide
          exact Nat.le_trans (h.newest hlog hne hr hrkey) (Nat.le_of_lt hcond.2)
      · intro _
        exact ⟨_, List.mem_cons_self .., hkey.symm, rfl, rfl⟩
    · dsimp only
      have hsame := modify_eq_self hlog (f := fun log =>
        if log.status = .moved ∧ log.jumps < mip.jumps then logMoved log mip.jumps mip.citizenship
        else log) (if_neg hcond)
      rw [hsame]
      apply h.report hlog hkey.symm
      intro hne
      rcases hip : log.ip with - | i
      · by_contra hlt
        have hmoved : log.status = .moved := by
          have hlive : ¬ log.status.Live := by
            rw [h.status hlog, hip]
            exact Bool.false_ne_true
          cases hstatus : log.status with
          | moved => rfl
          | disposed => exact absurd hstatus hne
          | alive => exact absurd (.inl hstatus) hlive
          | blocked => exact absurd (.inr (.inl hstatus)) hlive
          | sleeping => exact absurd (.inr (.inr hstatus)) hlive
        exact hcond ⟨hmoved, Nat.lt_of_not_le hlt⟩
      · obtain ⟨ip, hi⟩ := h.back hlog hip
        obtain ⟨log', hlog', hkey', -, hjumps⟩ := h.here hi
        obtain rfl := Option.some.inj (hlog.symm.trans hlog')
        rw [hjumps]
        exact hop i ip n hi (hkey'.symm.trans hkey)
  | none =>
    have hnone : ∀ r ∈ s.reports, r.key ≠ mip.key := by
      intro r hr hrkey
      obtain ⟨m, log', hm, hkey'⟩ := h.known hr
      exact find_none hfind hm (hkey'.trans hrkey)
    have hw : LogWrites s.live _ _ (logMoved (aliveLog none mip) mip.jumps mip.citizenship) :=
      append_writes hfind
    apply h.absent hw h.no_owner_length rfl not_live_moved
    · intro r hr
      exact List.mem_cons_of_mem _ hr
    · intro r hr
      rcases List.mem_cons.1 hr with rfl | hr
      · exact .inr rfl
      · exact .inl hr
    · intro _ r hr hrkey
      rcases List.mem_cons.1 hr with rfl | hr
      · exact Nat.le_refl _
      · exact absurd hrkey (hnone r hr)
    · intro _
      exact ⟨_, List.mem_cons_self .., rfl, rfl, rfl⟩

theorem Inv.attach (h : Inv s) {receiver : String} (hop : Careful s (.attach mip receiver)) :
    Inv (attach s mip receiver).2 := by
  rw [WorkerLog.attach]
  dsimp only
  split
  · split_ifs
    · exact h.shortcut hop
    · exact h
  · exact h

/-- **One step** of a careful run keeps the invariant. -/
theorem Inv.step (h : Inv s) {o : Op} (hop : Careful s o) : Inv (step s o) := by
  cases o with
  | create ip => exact h.create hop
  | arrive error ip => exact h.arrive hop
  | loopBack i => exact h.loopBack i
  | depart i dest => exact h.depart i dest
  | die i => exact h.die i
  | attach mip receiver => exact h.attach hop
  | deceased mip => exact h.deceased hop
  | block i => exact h.mark i (.inr (.inl rfl))
  | sleep i => exact h.mark i (.inr (.inr rfl))
  | wake i => exact h.mark i (.inl rfl)

/-! ## Runs -/

theorem inv_start : Inv .start where
  unique := by intro _ _ _ _ h; cases h
  here := by intro _ _ _ h; cases h
  back := by intro _ _ _ h; cases h
  fresh := fun _ => rfl
  status := by intro _ _ h; cases h
  known := by intro _ h; cases h
  newest := by intro _ _ _ h; cases h
  reported := by intro _ _ h; cases h

theorem Reaches.inv (h : Reaches Careful s) : Inv s := by
  induction h with
  | start => exact inv_start
  | step _ hop ih => exact ih.step hop

theorem Inv.right (h : Inv s) : Right s where
  found := by
    intro i ip n hi
    obtain ⟨log, hlog, hkey, hip, -⟩ := h.here hi
    exact ⟨n, log, by rw [← hkey]; exact h.find hlog, hlog, hip⟩
  unique := by
    intro m n log log' hm hn _ _ hkey
    exact h.unique hm hn hkey
  present := by
    intro n log hlog
    refine ⟨h.status hlog, ?_⟩
    intro i hip
    obtain ⟨ip, hi⟩ := h.back hlog hip
    rw [hi]
    rfl
  newest := by
    intro n log hlog hmoved
    obtain ⟨r, hr, hkey, hjumps, hlocation⟩ := h.reported hlog hmoved
    refine ⟨r, hr, hkey, hlocation, ?_⟩
    intro r' hr' hkey'
    rw [hjumps]
    exact h.newest hlog (by rw [hmoved]; decide) hr' hkey'

/-- A name that the log has already hides the imago that is created under it. -/
theorem Inv.not_right_create (h : Inv s) (hfind : WorkerLog.find s.live ip.key = some n) :
    ¬ Right (WorkerLog.create s ip) := by
  intro hright
  obtain ⟨m, log, hm, hlog, hip⟩ := hright.found s.next ip s.live.length (Function.update_self ..)
  obtain ⟨old, hold, hkey⟩ := find_some hfind
  have hn := (List.getElem?_eq_some_iff.1 hold).1
  have hsame : WorkerLog.find (s.live ++ [aliveLog (some s.next) ip]) ip.key = some n := by
    rw [find_eq, List.findIdx?_append, ← find_eq, hfind]
    rfl
  obtain rfl := Option.some.inj (hm.symm.trans hsame)
  have hlog' : s.live[m]? = some log := by
    rw [← hlog]
    exact (List.getElem?_append_left hn).symm
  obtain ⟨jp, hj⟩ := h.back hlog' hip
  rw [h.fresh (Nat.le_refl _)] at hj
  cases hj

/-- **The worker log** is right in every state of a careful run; and in such a state, a creation
keeps it right exactly when the log does not have the name yet. -/
theorem worker_log_right (h : Reaches Careful s) :
    Right s ∧ ∀ ip, Right (create s ip) ↔ find s.live ip.key = none := by
  refine ⟨h.inv.right, ?_⟩
  intro ip
  constructor
  · intro hright
    cases hfind : WorkerLog.find s.live ip.key with
    | none => rfl
    | some n => exact absurd hright (h.inv.not_right_create hfind)
  · intro hnone
    exact (h.inv.create hnone).right

/-- A worker of the application 1. -/
def workerA : Icb := ⟨⟨7, 1, "a"⟩, "home", 7, "home", 0⟩

def workerB : Icb := ⟨⟨7, 1, "b"⟩, "home", 7, "home", 0⟩

/-- A messenger of the first worker, which has made two more jumps meanwhile. -/
def messengerA : Icb := ⟨⟨7, 1, "a"⟩, "home", 3, "south", 2⟩

/-- The first worker has left for the north, and its messenger has come to the second one. -/
def reported : Server :=
  (attach (depart (create (create .start workerA) workerB) 0 "north") messengerA "b").2

/-- The log says where the messenger came from, and a second worker `b` would spoil it. -/
theorem worker_log_right_reported :
    Right reported ∧ answer reported.live workerA.key = .moved "south" ∧
      ¬ Right (create reported workerB) := by
  have hreach : Reaches Careful reported := by
    refine .step (o := .attach messengerA "b") (.step (o := .depart 0 "north")
      (.step (o := .create workerB) (.step (o := .create workerA) .start rfl)
      (by decide : _ = none))
      trivial) fun i ip n hicb hkey => ?_
    match i with
    | 0 => cases hicb
    | 1 =>
      obtain ⟨rfl, -⟩ := Prod.mk.inj (Option.some.inj hicb)
      exact absurd hkey (by decide)
    | i + 2 => cases hicb
  obtain ⟨hright, hcreate⟩ := worker_log_right hreach
  exact ⟨hright, by decide, fun h => absurd ((hcreate workerB).1 h) (by decide)⟩

/-- When a name is used again, the entry of the dead worker is found. -/
theorem not_right_name_again :
    ∃ s, Reaches (fun _ _ => True) s ∧ ¬ Right s := by
  have hfresh : Careful .start (.create workerA) := rfl
  have hdead : Inv (die (create .start workerA) 0) := (inv_start.create hfresh).die 0
  have hfind : find (die (create .start workerA) 0).live workerA.key = some 0 := by decide
  exact ⟨_, .step (o := .create workerA) (.step (o := .die 0) (.step (o := .create workerA) .start
    trivial) trivial) trivial, hdead.not_right_create hfind⟩

end Mlvm.WorkerLog
