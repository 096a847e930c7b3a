import Mlvm.System.Sleep

/-!
# Sleepers are woken

**`Reach.places_eq`.** A visit to the timer queue ends in the engine queue exactly once.

**`Reach.late`.** Who has slept is moved after his `dday`, unless the system is stopping.

**`Reach.wakes`.** As long as someone sleeps, `timer_recall` is under way or due, or the timer is
set for it, unless the last `timer_recall` has found the table of timers full.

All this is about runs in which only imagos with a log sleep (`Icb.Logged`).

**`timers_and_sleepers`.** These together with what holds of the timers.
-/

namespace Mlvm.Sleep

open Timer (slot timerNew maxTimer)

variable {s s' : State}

/-- The wake-up timer is one of the table. -/
def Allocated (s : State) : Prop :=
  ∃ i, slot s.wakeup = some i ∧ (s.timer.tlb i).status ≠ .free

structure Inv (s : State) : Prop where
  timer : Timer.Reach s.timer
  runs : s.crashed = false
  logged : ∀ wip ∈ s.queue, wip.log.isSome = true
  once : ∀ n, places s n = if n < s.next then 1 else 0
  late : ∀ m ∈ s.engine, m.slept = true → m.dday < m.time ∨ m.stop = true
  wakeup : s.wakeup < 0 ∨ Allocated s
  found : ∀ tv1, s.phase = some (.found tv1) →
    ∀ wip ∈ s.queue, wip.status = .timer → tv1 ≤ wip.dday
  set : ∀ tv2, s.phase = some (.set tv2) → Allocated s ∧ ∃ t₀ ≤ s.timer.now,
    ∀ wip ∈ s.queue, wip.status = .timer → tv2 ≤ max 1 (wip.dday - t₀)
  wakes : s.queue ≠ [] → WakePending s ∨ s.warned = true

/-! ## The queue -/

theorem earliest_le (tv1 : ℕ) (rest : List Icb) :
    earliest tv1 rest ≤ tv1 ∧ ∀ wip ∈ rest, earliest tv1 rest ≤ wip.dday := by
  induction rest generalizing tv1 with
  | nil => exact ⟨Nat.le_refl _, fun wip h => by cases h⟩
  | cons wip rest ih =>
    obtain ⟨hle, hall⟩ := ih (if wip.dday < tv1 then wip.dday else tv1)
    have hboth : (if wip.dday < tv1 then wip.dday else tv1) ≤ tv1 ∧
        (if wip.dday < tv1 then wip.dday else tv1) ≤ wip.dday := by
      split_ifs <;> omega
    refine ⟨Nat.le_trans hle hboth.1, ?_⟩
    intro wip' hmem
    rcases List.mem_cons.1 hmem with rfl | hmem
    · exact Nat.le_trans hle hboth.2
    · exact hall wip' hmem

/-- What `find?` finds is what `eraseP` erases. -/
theorem split_of_find? {α : Type*} {l : List α} {p : α → Bool} {a : α} (h : l.find? p = some a) :
    p a = true ∧ ∃ as bs, l = as ++ a :: bs ∧ l.eraseP p = as ++ bs := by
  induction l with
  | nil => cases h
  | cons b l ih =>
    by_cases hb : p b = true
    · rw [List.find?_cons_of_pos hb] at h
      cases h
      exact ⟨hb, [], l, rfl, List.eraseP_cons_of_pos hb⟩
    · rw [List.find?_cons_of_neg hb] at h
      obtain ⟨ha, as, bs, hl, herase⟩ := ih h
      refine ⟨ha, b :: as, bs, by rw [hl, List.cons_append], ?_⟩
      rw [List.eraseP_cons_of_neg hb, herase, List.cons_append]

theorem places_put (s : State) (ip : Icb) (dday : ℕ) (slept : Bool) (n : ℕ) :
    places (s.put ip dday slept) n = places s n + [ip.number].count n := by
  simp only [places, State.put, List.map_append, List.count_append, List.map_cons, List.map_nil]
  omega

theorem isNone_of_isSome {α : Type*} {o : Option α} (h : o.isSome = true) : o.isNone = false := by
  rw [← Option.not_isSome, h, Bool.not_true]

/-- What `timer_recall` finds. -/
theorem scan_cases (hlog : ∀ wip ∈ s.queue, wip.log.isSome = true) :
    (∃ wip as bs, s.queue = as ++ wip :: bs ∧ wip.dday < s.timer.now ∧
      s.scan = { s with queue := as ++ bs }.put wip.wake wip.dday true) ∨
    (∀ wip ∈ s.queue, s.timer.now ≤ wip.dday) ∧
      (s.queue = [] ∧ 0 ≤ s.wakeup ∧ s.scan =
        { s with timer := s.timer.free s.wakeup, wakeup := -1, phase := none, warned := false } ∨
      s.queue = [] ∧ s.scan = { s with phase := none, warned := false } ∨
      ∃ tv1, s.scan = { s with phase := some (.found tv1) } ∧ ∀ wip ∈ s.queue, tv1 ≤ wip.dday) := by
  unfold State.scan
  cases hfind : s.queue.find? fun wip => wip.dday < s.timer.now with
  | some wip =>
    obtain ⟨hdue, as, bs, hqueue, herase⟩ := split_of_find? hfind
    have hsome := isNone_of_isSome (hlog wip (List.mem_of_find?_eq_some hfind))
    refine Or.inl ⟨wip, as, bs, hqueue, by simpa using hdue, ?_⟩
    simp only [herase, hsome, Bool.false_eq_true, if_false]
  | none =>
    refine Or.inr ⟨?_, ?_⟩
    · intro wip hmem
      simpa using List.find?_eq_none.1 hfind wip hmem
    · cases hq : s.queue with
      | nil =>
        dsimp only
        split_ifs with hwakeup
        · exact Or.inl ⟨rfl, hwakeup, rfl⟩
        · exact Or.inr (Or.inl ⟨rfl, rfl⟩)
      | cons wip rest =>
        refine Or.inr (Or.inr ⟨_, rfl, ?_⟩)
        intro wip' hmem
        have hle := earliest_le wip.dday rest
        rcases List.mem_cons.1 hmem with rfl | hmem
        · exact hle.1
        · exact hle.2 wip' hmem

/-- What `imago_timer` does. -/
theorem imagoTimer_cases (s : State) {ip : Icb} (hlog : ip.Logged) :
    (∃ ip' dday slept, ip'.number = s.next ∧ (slept = true → dday < s.timer.now) ∧
      s.imagoTimer ip = { s with next := s.next + 1 }.put ip' dday slept) ∨
    ∃ dday, s.timer.now ≤ dday ∧ ip.log.isSome = true ∧ s.imagoTimer ip = { s with
      next := s.next + 1
      queue := s.queue ++
        [{ ip with number := s.next, dday, log := ip.log.map fun _ => .sleeping }]
      recalls := s.recalls + 1 } := by
  unfold State.imagoTimer
  dsimp only
  split_ifs with hstop
  · exact Or.inl ⟨_, _, false, rfl, by simp, rfl⟩
  · split
    · next hstatus =>
      split
      · exact Or.inl ⟨_, _, false, rfl, by simp, rfl⟩
      · next dday _ =>
        split_ifs with hlt
        · exact Or.inl ⟨_, _, true, rfl, fun _ => hlt, rfl⟩
        · have hsome := hlog hstatus
          refine Or.inr ⟨dday, Nat.le_of_not_lt hlt, hsome, ?_⟩
          simp only [State.sleep, isNone_of_isSome hsome, Bool.false_eq_true, if_false]
    · exact Or.inl ⟨_, _, false, rfl, by simp, rfl⟩

/-- What `timer_flush` does. -/
theorem flushQueue_eq {queue : List Icb} (hlog : ∀ ip ∈ queue, ip.log.isSome = true) (s : State) :
    s.flushQueue queue = { s with
      queue := []
      engine := s.engine ++ queue.map fun ip =>
        ⟨{ ip with status := .ready, log := ip.log.map fun _ => .alive }, ip.dday, s.timer.now,
          s.mlvmStop, true⟩ } := by
  induction queue generalizing s with
  | nil => simp [State.flushQueue]
  | cons ip queue ih =>
    have hsome := isNone_of_isSome (hlog ip (List.mem_cons_self ..))
    rw [State.flushQueue, hsome, if_neg (by simp),
      ih fun ip hip => hlog ip (List.mem_cons_of_mem _ hip)]
    simp [State.put]

theorem flush_eq (hlog : ∀ ip ∈ s.queue, ip.log.isSome = true) : s.flush = { s with
    queue := []
    engine := s.engine ++ s.queue.map fun ip =>
      ⟨{ ip with status := .ready, log := ip.log.map fun _ => .alive }, ip.dday, s.timer.now,
        s.mlvmStop, true⟩ } := flushQueue_eq hlog s

/-- How `timer_recall` gets a timer. -/
theorem alloc_cases (hs : Inv s) (tv1 : ℕ) :
    (s.wakeup < 0 ∧ (∀ i < maxTimer, (s.timer.tlb i).status ≠ .free) ∧ s.alloc tv1 =
      { s with timer := s.timer.new, wakeup := -1, phase := none, warned := true }) ∨
    ∃ t id, (t = s.timer ∨ t = s.timer.new) ∧
      (∃ i, slot id = some i ∧ (t.tlb i).status ≠ .free) ∧ s.alloc tv1 = { s with
        timer := t
        wakeup := id
        phase := some (.set (if tv1 < s.timer.now then 1 else tv1 - s.timer.now)) } := by
  unfold State.alloc
  dsimp only
  by_cases hneg : s.wakeup < 0
  · simp only [if_pos hneg]
    rcases Timer.timerNew_cases s.timer.tlb with ⟨heq, hfull⟩ | ⟨i, hi, -, heq⟩
    · refine Or.inl ⟨hneg, hfull, ?_⟩
      simp only [heq, Timer.timerInvalid]
      rw [if_pos (by decide)]
    · refine Or.inr ⟨s.timer.new, (i : ℤ) + 1, Or.inr rfl, ⟨i, ?_, ?_⟩, ?_⟩
      · unfold slot
        rw [if_neg (by omega)]
        congr 1
        omega
      · rw [Timer.State.new, heq]
        simp
      · simp only [heq]
        rw [if_neg (by omega)]
  · simp only [if_neg hneg]
    exact Or.inr ⟨s.timer, s.wakeup, Or.inl rfl, hs.wakeup.resolve_left hneg, rfl⟩

/-! ## Who is where -/

/-- Every visit is in the queue or has been moved, and only once. -/
theorem places_step (hs : Inv s) (hstep : Step Icb.Logged s s') (n : ℕ) :
    places s' n = if n < s'.next then 1 else 0 := by
  have hold := hs.once n
  cases hstep with
  | imagoTimer ip visit lock =>
    have hnew : places s n + [s.next].count n = if n < s.next + 1 then 1 else 0 := by
      rw [hold, List.count_singleton]
      simp only [beq_iff_eq]
      split_ifs <;> omega
    rcases imagoTimer_cases s visit with ⟨ip', dday, slept, hnumber, -, heq⟩ | ⟨dday, -, -, heq⟩
    · rw [heq, places_put, hnumber]
      exact hnew
    · rw [heq, ← hnew]
      simp only [places, List.map_append, List.count_append, List.map_cons, List.map_nil]
      omega
  | flush stop lock =>
    rw [flush_eq hs.logged, ← hold]
    simp [places, Function.comp_def, Nat.add_comm]
  | disposeOf k =>
    have hnumber : (s.disposeOf k).queue.map Icb.number = s.queue.map Icb.number := by
      rw [State.disposeOf, List.map_map]
      refine List.map_congr_left fun ip _ => ?_
      rw [Function.comp_apply]
      split_ifs <;> rfl
    unfold places
    rw [hnumber]
    exact hold
  | scan run =>
    rcases scan_cases hs.logged with ⟨wip, as, bs, hqueue, -, heq⟩ |
      ⟨-, ⟨-, -, heq⟩ | ⟨-, heq⟩ | ⟨tv1, heq, -⟩⟩
    · rw [heq, places_put]
      refine Eq.trans ?_ hold
      rw [← List.singleton_append] at hqueue
      simp only [places, hqueue, List.map_append, List.map_cons, List.map_nil, List.count_append,
        Icb.wake]
      omega
    · rw [heq]
      exact hold
    · rw [heq]
      exact hold
    · rw [heq]
      exact hold
  | @alloc tv1 run =>
    rcases alloc_cases hs tv1 with ⟨-, -, heq⟩ | ⟨t, id, -, -, heq⟩
    · rw [heq]
      exact hold
    · rw [heq]
      exact hold
  | _ => exact hold

/-- Who has slept long enough, or is moved as the system stops. -/
theorem late_step (hs : Inv s) (hstep : Step Icb.Logged s s') :
    ∀ m ∈ s'.engine, m.slept = true → m.dday < m.time ∨ m.stop = true := by
  have hput {q : State} {ip : Icb} {dday : ℕ} {slept : Bool} (hq : q.engine = s.engine)
      (hlate : slept = true → dday < q.timer.now) :
      ∀ m ∈ (q.put ip dday slept).engine, m.slept = true → m.dday < m.time ∨ m.stop = true := by
    intro m hm hslept
    rw [State.put, hq] at hm
    rcases List.mem_append.1 hm with hm | hm
    · exact hs.late m hm hslept
    · obtain rfl := List.mem_singleton.1 hm
      exact Or.inl (hlate hslept)
  cases hstep with
  | imagoTimer ip visit lock =>
    rcases imagoTimer_cases s visit with ⟨ip', dday, slept, -, hlate, heq⟩ | ⟨dday, -, -, heq⟩
    · rw [heq]
      exact hput rfl hlate
    · rw [heq]
      exact hs.late
  | flush stop lock =>
    rw [flush_eq hs.logged]
    intro m hm hslept
    rcases List.mem_append.1 hm with hm | hm
    · exact hs.late m hm hslept
    · obtain ⟨ip, -, rfl⟩ := List.mem_map.1 hm
      exact Or.inr stop
  | scan run =>
    rcases scan_cases hs.logged with ⟨wip, as, bs, -, hdue, heq⟩ |
      ⟨-, ⟨-, -, heq⟩ | ⟨-, heq⟩ | ⟨tv1, heq, -⟩⟩
    · rw [heq]
      exact hput rfl fun _ => hdue
    · rw [heq]
      exact hs.late
    · rw [heq]
      exact hs.late
    · rw [heq]
      exact hs.late
  | @alloc tv1 run =>
    rcases alloc_cases hs tv1 with ⟨-, -, heq⟩ | ⟨t, id, -, -, heq⟩
    · rw [heq]
      exact hs.late
    · rw [heq]
      exact hs.late
  | _ => exact hs.late

/-! ## The wake-up timer -/

/-- Who still sleeps after `dispose_of` is as he was. -/
theorem mem_of_mem_disposeOf {n : ℕ} {wip : Icb} (h : wip ∈ (s.disposeOf n).queue)
    (hstatus : wip.status = .timer) : wip ∈ s.queue := by
  obtain ⟨ip, hip, heq⟩ := List.mem_map.1 h
  split_ifs at heq
  · subst heq
    cases hstatus
  · exact heq ▸ hip

/-- The others leave the timer allocated. -/
theorem Allocated.timer {op : Timer.Op Callback} {t : Timer.State Callback} {r : ℕ}
    (ha : Allocated s) (hs : Inv s) (hstep : Timer.Step s.timer op t)
    (hown : op.target ≠ some s.wakeup) : Allocated { s with timer := t, recalls := r } := by
  obtain ⟨i, hslot, hfree⟩ := ha
  refine ⟨i, hslot, ?_⟩
  rcases Timer.entry_of_step hs.timer.inv.places hstep hslot hown hfree with heq | ⟨heq, -⟩
  · show (t.tlb i).status ≠ .free
    rw [heq]
    exact hfree
  · show (t.tlb i).status ≠ .free
    rw [heq]
    simp

/-- What `timer_recall` sets the timer for. -/
theorem set_of_allocated (ha : Allocated s) (tv2 : ℕ) : ∃ i, slot s.wakeup = some i ∧
    (s.arm tv2).timer.tlb i =
      ⟨.active, s.timer.now + tv2, some .timerRecall, s.timer.next⟩ := by
  obtain ⟨i, hslot, hfree⟩ := ha
  refine ⟨i, hslot, ?_⟩
  simp [State.arm, Timer.State.set, Timer.timerSet, hslot, hfree]

theorem wakeup_step (hs : Inv s) (hstep : Step Icb.Logged s s') : s'.wakeup < 0 ∨ Allocated s' := by
  have hold := hs.wakeup
  cases hstep with
  | flush stop lock =>
    rw [flush_eq hs.logged]
    exact hold
  | timer step own => exact hold.imp_right fun ha => ha.timer hs step own
  | imagoTimer ip visit lock =>
    rcases imagoTimer_cases s visit with ⟨ip', dday, slept, -, -, heq⟩ | ⟨dday, -, -, heq⟩
    · rw [heq]
      exact hold
    · rw [heq]
      exact hold
  | scan run =>
    rcases scan_cases hs.logged with ⟨wip, as, bs, -, -, heq⟩ |
      ⟨-, ⟨-, -, heq⟩ | ⟨-, heq⟩ | ⟨tv1, heq, -⟩⟩
    · rw [heq]
      exact hold
    · rw [heq]
      exact Or.inl (Int.negSucc_lt_zero 0)
    · rw [heq]
      exact hold
    · rw [heq]
      exact hold
  | @alloc tv1 run =>
    rcases alloc_cases hs tv1 with ⟨-, -, heq⟩ | ⟨t, id, -, ha, heq⟩
    · rw [heq]
      exact Or.inl (Int.negSucc_lt_zero 0)
    · rw [heq]
      exact Or.inr ha
  | @arm tv2 run =>
    obtain ⟨i, hslot, heq⟩ := set_of_allocated (hs.set tv2 run).1 tv2
    exact Or.inr ⟨i, hslot, by simp [heq]⟩
  | _ => exact hold

theorem found_step (hs : Inv s) (hstep : Step Icb.Logged s s') {tv1 : ℕ}
    (hphase : s'.phase = some (.found tv1)) :
    ∀ wip ∈ s'.queue, wip.status = .timer → tv1 ≤ wip.dday := by
  cases hstep with
  | imagoTimer ip visit lock =>
    rcases imagoTimer_cases s visit with ⟨ip', dday, slept, -, -, heq⟩ | ⟨dday, -, -, heq⟩
    · rw [heq] at hphase ⊢
      exact hs.found tv1 hphase
    · rw [heq] at hphase lock
      rcases lock with lock | lock
      · rw [lock] at hphase
        cases hphase
      · exact absurd lock (by simp)
  | flush stop lock =>
    rw [flush_eq hs.logged]
    intro wip hmem
    cases hmem
  | disposeOf n =>
    intro wip hmem hstatus
    exact hs.found tv1 hphase wip (mem_of_mem_disposeOf hmem hstatus) hstatus
  | lock pos lock => cases hphase
  | scan run =>
    rcases scan_cases hs.logged with ⟨wip, as, bs, -, -, heq⟩ |
      ⟨-, ⟨-, -, heq⟩ | ⟨-, heq⟩ | ⟨tv, heq, hle⟩⟩
    · rw [heq, State.put, run] at hphase
      cases hphase
    · rw [heq] at hphase
      cases hphase
    · rw [heq] at hphase
      cases hphase
    · rw [heq] at hphase ⊢
      cases hphase
      exact fun wip hmem _ => hle wip hmem
  | @alloc tv run =>
    rcases alloc_cases hs tv with ⟨-, -, heq⟩ | ⟨t, id, -, -, heq⟩
    · rw [heq] at hphase
      cases hphase
    · rw [heq] at hphase
      cases hphase
  | arm run => cases hphase
  | _ => exact hs.found tv1 hphase

theorem set_step (hs : Inv s) (hstep : Step Icb.Logged s s') {tv2 : ℕ}
    (hphase : s'.phase = some (.set tv2)) : Allocated s' ∧ ∃ t₀ ≤ s'.timer.now,
      ∀ wip ∈ s'.queue, wip.status = .timer → tv2 ≤ max 1 (wip.dday - t₀) := by
  cases hstep with
  | timer step own =>
    obtain ⟨ha, t₀, ht, hle⟩ := hs.set tv2 hphase
    exact ⟨ha.timer hs step own, t₀,
      Nat.le_trans ht (Timer.now_le_of_step hs.timer.inv.places step), hle⟩
  | imagoTimer ip visit lock =>
    rcases imagoTimer_cases s visit with ⟨ip', dday, slept, -, -, heq⟩ | ⟨dday, -, -, heq⟩
    · rw [heq] at hphase ⊢
      exact hs.set tv2 hphase
    · rw [heq] at hphase lock
      rcases lock with lock | lock
      · rw [lock] at hphase
        cases hphase
      · exact absurd lock (by simp)
  | flush stop lock =>
    rw [flush_eq hs.logged, lock] at hphase
    cases hphase
  | disposeOf n =>
    obtain ⟨ha, t₀, ht, hle⟩ := hs.set tv2 hphase
    exact ⟨ha, t₀, ht, fun wip hmem hstatus =>
      hle wip (mem_of_mem_disposeOf hmem hstatus) hstatus⟩
  | lock pos lock => cases hphase
  | scan run =>
    rcases scan_cases hs.logged with ⟨wip, as, bs, -, -, heq⟩ |
      ⟨-, ⟨-, -, heq⟩ | ⟨-, heq⟩ | ⟨tv, heq, -⟩⟩
    · rw [heq, State.put, run] at hphase
      cases hphase
    · rw [heq] at hphase
      cases hphase
    · rw [heq] at hphase
      cases hphase
    · rw [heq] at hphase
      cases hphase
  | @alloc tv1 run =>
    rcases alloc_cases hs tv1 with ⟨-, -, heq⟩ | ⟨t, id, ht, ha, heq⟩
    · rw [heq] at hphase
      cases hphase
    · rw [heq] at hphase ⊢
      have hnow : t.now = s.timer.now := by
        rcases ht with rfl | rfl <;> rfl
      refine ⟨ha, s.timer.now, Nat.le_of_eq hnow.symm, ?_⟩
      intro wip hmem hstatus
      have hle := hs.found tv1 run wip hmem hstatus
      cases hphase
      split_ifs <;> omega
  | arm run => cases hphase
  | _ => exact hs.set tv2 hphase

/-! ## Wake-ups -/

/-- A step of the timers keeps the wake-up in sight. -/
theorem WakePending.timer {op : Timer.Op Callback} {t : Timer.State Callback}
    (hw : WakePending s) (hs : Inv s) (hstep : Timer.Step s.timer op t)
    (hown : op.target ≠ some s.wakeup) :
    WakePending { s with timer := t, recalls := s.recalls + recallsOf op } := by
  have hplaces := hs.timer.inv.places
  rcases hw with hpos | hphase | ⟨h, n, hc⟩ | ⟨i, hslot, hactive, hcb, t₀, t₁, h₀, h₁, hle⟩
  · exact Or.inl (Nat.lt_of_lt_of_le hpos (Nat.le_add_right _ _))
  · exact Or.inr (Or.inl hphase)
  · rcases Timer.calls_of_step hplaces hstep hc with hc | rfl
    · exact Or.inr (Or.inr (Or.inl ⟨h, n, hc⟩))
    · exact Or.inl (Nat.succ_pos _)
  · have hfree : (s.timer.tlb i).status ≠ .free := by simp [hactive]
    rcases Timer.entry_of_step hplaces hstep hslot hown hfree with heq | ⟨-, hcalls⟩
    · refine Or.inr (Or.inr (Or.inr ⟨i, hslot, ?_⟩))
      dsimp only
      rw [heq]
      exact ⟨hactive, hcb, t₀, t₁, h₀,
        Nat.le_trans h₁ (Timer.now_le_of_step hplaces hstep), hle⟩
    · obtain ⟨h, hc⟩ := hcalls _ hcb
      exact Or.inr (Or.inr (Or.inl ⟨h, _, hc⟩))

/-- Neither a change of the queue that leaves the sleepers alone nor one of the engine matters. -/
theorem WakePending.frame (hw : WakePending s) (htimer : s'.timer = s.timer)
    (hwakeup : s'.wakeup = s.wakeup) (hrecalls : s'.recalls = s.recalls)
    (hphase : s'.phase = s.phase)
    (hqueue : ∀ wip ∈ s'.queue, wip.status = .timer → wip ∈ s.queue) : WakePending s' := by
  unfold WakePending Armed at hw ⊢
  rw [htimer, hwakeup, hrecalls, hphase]
  rcases hw with hw | hw | hw | ⟨i, hslot, hactive, hcb, t₀, t₁, h₀, h₁, hle⟩
  · exact Or.inl hw
  · exact Or.inr (Or.inl hw)
  · exact Or.inr (Or.inr (Or.inl hw))
  · exact Or.inr (Or.inr (Or.inr ⟨i, hslot, hactive, hcb, t₀, t₁, h₀, h₁,
      fun wip hmem hstatus => hle wip (hqueue wip hmem hstatus) hstatus⟩))

theorem wakes_step (hs : Inv s) (hstep : Step Icb.Logged s s') (hne : s'.queue ≠ []) :
    WakePending s' ∨ s'.warned = true := by
  cases hstep with
  | timer step own => exact (hs.wakes hne).imp_left fun hw => hw.timer hs step own
  | imagoTimer ip visit lock =>
    rcases imagoTimer_cases s visit with ⟨ip', dday, slept, -, -, heq⟩ | ⟨dday, -, -, heq⟩
    · rw [heq] at hne ⊢
      exact (hs.wakes hne).imp_left fun hw => hw.frame rfl rfl rfl rfl fun _ h _ => h
    · rw [heq]
      exact Or.inl (Or.inl (Nat.succ_pos _))
  | flush stop lock =>
    rw [flush_eq hs.logged] at hne
    exact absurd rfl hne
  | disposeOf n =>
    have hold : s.queue ≠ [] := by
      intro hnil
      simp [State.disposeOf, hnil] at hne
    exact (hs.wakes hold).imp_left fun hw =>
      hw.frame rfl rfl rfl rfl fun _ => mem_of_mem_disposeOf
  | lock pos lock => exact Or.inl (Or.inr (Or.inl (by simp [State.lock])))
  | scan run =>
    rcases scan_cases hs.logged with ⟨wip, as, bs, -, -, heq⟩ |
      ⟨-, ⟨hnil, -, heq⟩ | ⟨hnil, heq⟩ | ⟨tv, heq, -⟩⟩
    · rw [heq]
      exact Or.inl (Or.inr (Or.inl (by simp [State.put, run])))
    · rw [heq] at hne
      exact absurd hnil hne
    · rw [heq] at hne
      exact absurd hnil hne
    · rw [heq]
      exact Or.inl (Or.inr (Or.inl (by simp)))
  | @alloc tv1 run =>
    rcases alloc_cases hs tv1 with ⟨-, -, heq⟩ | ⟨t, id, -, -, heq⟩
    · rw [heq]
      exact Or.inr rfl
    · rw [heq]
      exact Or.inl (Or.inr (Or.inl (by simp)))
  | @arm tv2 run =>
    obtain ⟨ha, t₀, ht, hle⟩ := hs.set tv2 run
    obtain ⟨i, hslot, heq⟩ := set_of_allocated ha tv2
    have hnow : (s.arm tv2).timer.now = s.timer.now := (Timer.set_frame s.timer _ _ _).1
    refine Or.inl (Or.inr (Or.inr (Or.inr ⟨i, hslot, ?_⟩)))
    rw [heq, hnow]
    refine ⟨rfl, rfl, t₀, s.timer.now, ht, Nat.le_refl _, ?_⟩
    intro wip hmem hstatus
    exact Nat.add_le_add_left (hle wip hmem hstatus) _
  | _ => exact hs.wakes hne

/-! ## Every run -/

theorem timer_step (hs : Inv s) (hstep : Step Icb.Logged s s') : Timer.Reach s'.timer := by
  have hold := hs.timer
  cases hstep with
  | flush stop lock =>
    rw [flush_eq hs.logged]
    exact hold
  | timer step own => exact hold.step step
  | imagoTimer ip visit lock =>
    rcases imagoTimer_cases s visit with ⟨ip', dday, slept, -, -, heq⟩ | ⟨dday, -, -, heq⟩
    · rw [heq]
      exact hold
    · rw [heq]
      exact hold
  | scan run =>
    rcases scan_cases hs.logged with ⟨wip, as, bs, -, -, heq⟩ |
      ⟨-, ⟨-, -, heq⟩ | ⟨-, heq⟩ | ⟨tv, heq, -⟩⟩
    · rw [heq]
      exact hold
    · rw [heq]
      exact hold.step (.free s.wakeup)
    · rw [heq]
      exact hold
    · rw [heq]
      exact hold
  | @alloc tv1 run =>
    rcases alloc_cases hs tv1 with ⟨-, -, heq⟩ | ⟨t, id, rfl | rfl, -, heq⟩
    · rw [heq]
      exact hold.step .new
    · rw [heq]
      exact hold
    · rw [heq]
      exact hold.step .new
  | arm run => exact hold.step (.set _ _ _)
  | _ => exact hold

/-- As long as everybody in the queue has a log, nothing crashes, and everybody has. -/
theorem logged_step (hs : Inv s) (hstep : Step Icb.Logged s s') :
    s'.crashed = false ∧ ∀ wip ∈ s'.queue, wip.log.isSome = true := by
  have hold : s.crashed = false ∧ ∀ wip ∈ s.queue, wip.log.isSome = true := ⟨hs.runs, hs.logged⟩
  cases hstep with
  | imagoTimer ip visit lock =>
    rcases imagoTimer_cases s visit with ⟨ip', dday, slept, -, -, heq⟩ | ⟨dday, -, hsome, heq⟩
    · rw [heq]
      exact hold
    · rw [heq]
      refine ⟨hold.1, fun wip hmem => ?_⟩
      rcases List.mem_append.1 hmem with hmem | hmem
      · exact hold.2 wip hmem
      · obtain rfl := List.mem_singleton.1 hmem
        rw [Option.isSome_map]
        exact hsome
  | flush stop lock =>
    rw [flush_eq hs.logged]
    exact ⟨hold.1, fun wip hmem => by cases hmem⟩
  | disposeOf n =>
    refine ⟨hold.1, fun wip hmem => ?_⟩
    obtain ⟨ip, hip, rfl⟩ := List.mem_map.1 hmem
    have hsome := hold.2 ip hip
    split_ifs <;> exact hsome
  | scan run =>
    rcases scan_cases hs.logged with ⟨wip, as, bs, hqueue, -, heq⟩ |
      ⟨-, ⟨-, -, heq⟩ | ⟨-, heq⟩ | ⟨tv, heq, -⟩⟩
    · rw [heq]
      refine ⟨hold.1, fun wip' hmem => hold.2 wip' ?_⟩
      rw [hqueue]
      rcases List.mem_append.1 hmem with hmem | hmem
      · exact List.mem_append_left _ hmem
      · exact List.mem_append_right _ (List.mem_cons_of_mem _ hmem)
    · rw [heq]
      exact hold
    · rw [heq]
      exact hold
    · rw [heq]
      exact hold
  | @alloc tv1 run =>
    rcases alloc_cases hs tv1 with ⟨-, -, heq⟩ | ⟨t, id, -, -, heq⟩
    · rw [heq]
      exact hold
    · rw [heq]
      exact hold
  | _ => exact hold

theorem Inv.init {now : ℕ} (hpos : 0 < now) : Inv (State.init now) where
  timer := .init hpos
  runs := rfl
  logged := by
    intro wip hmem
    cases hmem
  once := by
    intro n
    rfl
  late := by
    intro m hm
    cases hm
  wakeup := Or.inl (Int.negSucc_lt_zero 0)
  found := by
    intro tv1 hphase
    cases hphase
  set := by
    intro tv2 hphase
    cases hphase
  wakes := by
    intro hne
    exact absurd rfl hne

theorem Inv.step (hs : Inv s) (hstep : Step Icb.Logged s s') : Inv s' where
  timer := timer_step hs hstep
  runs := (logged_step hs hstep).1
  logged := (logged_step hs hstep).2
  once := places_step hs hstep
  late := late_step hs hstep
  wakeup := wakeup_step hs hstep
  found := fun _ => found_step hs hstep
  set := fun _ => set_step hs hstep
  wakes := wakes_step hs hstep

theorem Reach.inv (hs : Reach Icb.Logged s) : Inv s := by
  induction hs with
  | init hpos => exact Inv.init hpos
  | step _ _ hstep ih => exact ih.step hstep

/-! ## What callers see -/

/-- No alarm is lost, early or doubled. -/
structure TimersKept {κ : Type*} (t : Timer.State κ) : Prop where
  kept : ∀ n a, t.alarms n = some a → a.Kept t n
  swept : ∀ h hd, t.handlers h = some hd → hd.id = maxTimer →
    ∀ i, (t.tlb i).status = .active → hd.tv ≤ (t.tlb i).dday
  in_time : Timer.AtRest t → ∀ i, (t.tlb i).status = .active → Timer.ArmedFor t (t.tlb i)

/-- Who sleeps is moved once, not early, and is woken unless the table of timers was full, and
nothing crashes. -/
structure SleepersKept (s : State) : Prop where
  runs : s.crashed = false
  once : ∀ n, places s n = if n < s.next then 1 else 0
  late : ∀ m ∈ s.engine, m.slept = true → m.dday < m.time ∨ m.stop = true
  swept : s.phase = some .scan → s.scan.phase ≠ some .scan →
    ∀ wip ∈ s.scan.queue, s.timer.now ≤ wip.dday
  wakes : s.queue ≠ [] → WakePending s ∨ s.warned = true
  full : ∀ s', Step Icb.Logged s s' → s'.warned = true →
    s.warned = true ∨ ∀ i < maxTimer, (s.timer.tlb i).status ≠ .free

/-- The warning is printed only when there is no timer left. -/
theorem warned_of_step (hs : Inv s) (hstep : Step Icb.Logged s s') (hw : s'.warned = true) :
    s.warned = true ∨ ∀ i < maxTimer, (s.timer.tlb i).status ≠ .free := by
  cases hstep with
  | flush stop lock =>
    rw [flush_eq hs.logged] at hw
    exact Or.inl hw
  | imagoTimer ip visit lock =>
    rcases imagoTimer_cases s visit with ⟨ip', dday, slept, -, -, heq⟩ | ⟨dday, -, -, heq⟩
    · rw [heq] at hw
      exact Or.inl hw
    · rw [heq] at hw
      exact Or.inl hw
  | scan run =>
    rcases scan_cases hs.logged with ⟨wip, as, bs, -, -, heq⟩ |
      ⟨-, ⟨-, -, heq⟩ | ⟨-, heq⟩ | ⟨tv, heq, -⟩⟩
    · rw [heq] at hw
      exact Or.inl hw
    · rw [heq] at hw
      cases hw
    · rw [heq] at hw
      cases hw
    · rw [heq] at hw
      exact Or.inl hw
  | @alloc tv1 run =>
    rcases alloc_cases hs tv1 with ⟨-, hfull, -⟩ | ⟨t, id, -, -, heq⟩
    · exact Or.inr hfull
    · rw [heq] at hw
      exact Or.inl hw
  | arm run => cases hw
  | _ => exact Or.inl hw

/-- When `timer_recall` stops looking, nobody's time has come. -/
theorem swept_of_scan (hs : Inv s) (hrun : s.phase = some .scan)
    (hphase : s.scan.phase ≠ some .scan) : ∀ wip ∈ s.scan.queue, s.timer.now ≤ wip.dday := by
  rcases scan_cases hs.logged with ⟨wip, as, bs, -, -, heq⟩ |
    ⟨hle, ⟨-, -, heq⟩ | ⟨-, heq⟩ | ⟨tv, heq, -⟩⟩
  · rw [heq] at hphase
    exact absurd hrun hphase
  · rw [heq]
    exact hle
  · rw [heq]
    exact hle
  · rw [heq]
    exact hle

theorem timersKept {κ : Type*} {t : Timer.State κ} (ht : Timer.Reach t) : TimersKept t where
  kept := fun _ _ ha => ht.kept ha
  swept := fun _ _ hh hid _ hi => ht.swept hh hid hi
  in_time := fun hrest _ hi => ht.in_time hrest hi

theorem sleepersKept (hs : Reach Icb.Logged s) : SleepersKept s where
  runs := hs.inv.runs
  once := hs.inv.once
  late := hs.inv.late
  swept := swept_of_scan hs.inv
  wakes := hs.inv.wakes
  full := fun _ hstep => warned_of_step hs.inv hstep

/-- An imago that wants to sleep for ten seconds. -/
def sleeper : Icb := ⟨0, .timer, some .alive, 0, 0, .int 10⟩

/-- One microsecond after the epoch, somebody sleeps. -/
def asleep : State := (State.init 1).imagoTimer sleeper

theorem asleep_reach : Reach Icb.Logged asleep :=
  .step (.init (by decide)) rfl (.imagoTimer sleeper (fun _ => rfl) (Or.inl rfl))

/-- A messenger, which has no log, cannot sleep. -/
example : ∃ s, Reach (fun _ => True) s ∧ s.crashed = true :=
  ⟨_, .step (@Reach.init _ 1 (by decide)) rfl
    (.imagoTimer ⟨0, .timer, none, 0, 0, .int 10⟩ trivial (Or.inl rfl)), rfl⟩

/-- `k` timers are allocated. -/
def filled (k : ℕ) : Timer.State Callback :=
  { Timer.State.init 1 with tlb := fun i => if i < k then ⟨.stopped, 0, none, 0⟩ else .clear }

theorem filled_succ {k : ℕ} (hk : k < maxTimer) : (filled k).new = filled (k + 1) := by
  have hfind : ((List.range maxTimer).find? fun id => ((filled k).tlb id).status = .free) =
      some k := by
    rw [List.find?_range_eq_some]
    refine ⟨by simp [filled, Timer.Entry.clear], List.mem_range.2 hk, ?_⟩
    intro j hj
    simp [filled, hj]
  rw [Timer.State.new, timerNew, hfind]
  simp only [filled, Timer.State.init, Timer.State.mk.injEq, true_and, and_true]
  funext i
  by_cases hi : i = k
  · subst hi
    simp [Timer.Entry.clear]
  · rw [Function.update_of_ne hi]
    split_ifs <;> first | rfl | omega

theorem filled_reach {k : ℕ} (hk : k ≤ maxTimer) :
    Reach Icb.Logged { State.init 1 with timer := filled k } := by
  induction k with
  | zero => exact .init (by decide)
  | succ k ih =>
    have hstep := (ih (Nat.le_of_succ_le hk)).step rfl (.timer .new (by simp [Timer.Op.target]))
    rw [filled_succ hk] at hstep
    exact hstep

/-- The sleeper comes when all timers are in use. -/
def stranded : State :=
  ((({ State.init 1 with timer := filled maxTimer } : State).imagoTimer sleeper).lock.scan).alloc
    10000001

theorem stranded_eq : stranded = ⟨(filled maxTimer).new, false,
    [⟨0, .timer, some .sleeping, 0, 10000001, .int 10⟩], -1, 0, none, true, [], 1, false⟩ := by
  have hnew : timerNew (filled maxTimer).tlb = (-1, (filled maxTimer).tlb) := by
    rcases Timer.timerNew_cases (filled maxTimer).tlb with ⟨heq, -⟩ | ⟨i, hi, hfree, -⟩
    · exact heq
    · simp [filled, hi] at hfree
  have hscan : (({ State.init 1 with timer := filled maxTimer } : State).imagoTimer
      sleeper).lock.scan = ⟨filled maxTimer, false,
      [⟨0, .timer, some .sleeping, 0, 10000001, .int 10⟩], -1, 0,
        some (.found 10000001), false, [], 1, false⟩ := rfl
  rw [stranded, hscan, State.alloc]
  simp [hnew]

theorem stranded_reach : Reach Icb.Logged stranded := by
  have h₁ := (filled_reach (Nat.le_refl _)).step rfl
    (.imagoTimer sleeper (fun _ => rfl) (Or.inl rfl))
  have h₂ := h₁.step rfl (.lock (by decide) rfl)
  exact (h₂.step rfl (.scan rfl)).step rfl (.alloc rfl)

end Mlvm.Sleep
