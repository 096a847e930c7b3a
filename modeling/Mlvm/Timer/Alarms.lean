import Mlvm.Timer.Table

/-!
# No alarm is lost, early or doubled

Each successful `timer_set` stands for one **alarm**. Its callback **waits** in the table, is
**called** by a handler or has run; or it was **cancelled**, because its entry was set again,
stopped or freed while it waited.

**`Reach.kept`.** The callback runs at most once and after its deadline, not at all when it was
cancelled, and until it has run it waits with its deadline in the table or is being called.

**`Reach.swept`.** When the loop of a handler is over, no active timer has a deadline before the
time at which the handler started.

**`Reach.in_time`.** When no call is under way, the interval timer is armed for the deadline of
each active timer at the latest, or for one microsecond when that has passed.
-/

namespace Mlvm.Timer

variable {κ : Type*} {s s' : State κ} {op : Op κ}

/-- A handler is about to call the callback of alarm `n`. -/
def State.Calls (s : State κ) (h : ℕ) (cb : κ) (n : ℕ) : Prop :=
  ∃ tv id, s.handlers h = some ⟨tv, id, some (cb, n)⟩

/-! ## The invariants -/

/-- Where an alarm is, as the table and the handlers have it. -/
def Alarm.Placed (s : State κ) (n : ℕ) (a : Alarm κ) : Prop :=
  match a.place with
  | .waiting i => (s.tlb i).status = .active ∧ (s.tlb i).alarm = n
  | .calling h => ∃ cb, s.Calls h cb n
  | .done => a.deadline < s.now ∧
      (a.runs = [] ∧ a.callback = none ∨ ∃ t, a.runs = [t] ∧ a.deadline < t)
  | .cancelled => a.runs = []

/-- Every active entry and every call has its own alarm, and every alarm its place. -/
structure Places (s : State κ) : Prop where
  entry : ∀ i, (s.tlb i).status = .active → i < maxTimer ∧
    s.alarms (s.tlb i).alarm = some ⟨(s.tlb i).dday, (s.tlb i).callback, .waiting i, []⟩
  call : ∀ h cb n, s.Calls h cb n → ∃ d < s.now, s.alarms n = some ⟨d, some cb, .calling h, []⟩
  alarm : ∀ n a, s.alarms n = some a → a.Placed s n
  fresh : ∀ n, s.next ≤ n → s.alarms n = none

/-- A handler leaves no timer behind that had expired when it started. -/
def Scans (s : State κ) : Prop :=
  ∀ h hd, s.handlers h = some hd → hd.tv ≤ s.now ∧
    ∀ i < hd.id, (s.tlb i).status = .active → hd.tv ≤ (s.tlb i).dday

/-- The interval timer is armed for the entry. -/
def ArmedFor (s : State κ) (e : Entry κ) : Prop :=
  ∃ a, s.armed = some a ∧ (a ≤ e.dday ∨ e.dday ≤ s.now ∧ a ≤ s.now + 1)

/-- No call is under way. -/
def AtRest (s : State κ) : Prop := s.activations = 0 ∧ ∀ h, s.handlers h = none

structure Inv (s : State κ) : Prop where
  clock : 0 < s.now
  dday : ∀ i, (s.tlb i).status = .active → 0 < (s.tlb i).dday
  places : Places s
  scans : Scans s
  armed : AtRest s → ∀ i, (s.tlb i).status = .active → ArmedFor s (s.tlb i)

/-! ## Where alarms are -/

theorem Alarm.Placed.frame {n : ℕ} {a : Alarm κ} (ha : a.Placed s n)
    (hnow : s.now ≤ s'.now)
    (htlb : ∀ i, (s.tlb i).status = .active → (s.tlb i).alarm = n → s'.tlb i = s.tlb i)
    (hcalls : ∀ h cb, s.Calls h cb n → s'.Calls h cb n) : a.Placed s' n := by
  unfold Alarm.Placed at ha ⊢
  cases hp : a.place with
  | waiting i =>
    rw [hp] at ha
    have heq := htlb i ha.1 ha.2
    show (s'.tlb i).status = .active ∧ (s'.tlb i).alarm = n
    rw [heq]
    exact ha
  | calling h =>
    rw [hp] at ha
    obtain ⟨cb, hcb⟩ := ha
    exact ⟨cb, hcalls h cb hcb⟩
  | done =>
    rw [hp] at ha
    exact ⟨Nat.lt_of_lt_of_le ha.1 hnow, ha.2⟩
  | cancelled =>
    rw [hp] at ha
    exact ha

/-- A step that keeps the active entries, the calls and the alarms. -/
theorem Places.frame (hs : Places s) (hnow : s.now ≤ s'.now)
    (htlb : ∀ i, (s.tlb i).status = .active ∨ (s'.tlb i).status = .active → s'.tlb i = s.tlb i)
    (hcalls : ∀ h cb n, s'.Calls h cb n ↔ s.Calls h cb n)
    (halarms : s'.alarms = s.alarms) (hnext : s'.next = s.next) : Places s' where
  entry := by
    intro i hi
    have heq := htlb i (Or.inr hi)
    rw [heq] at hi ⊢
    rw [halarms]
    exact hs.entry i hi
  call := by
    intro h cb n hc
    obtain ⟨d, hd, ha⟩ := hs.call h cb n ((hcalls h cb n).1 hc)
    exact ⟨d, Nat.lt_of_lt_of_le hd hnow, by rw [halarms, ha]⟩
  alarm := by
    intro n a ha
    rw [halarms] at ha
    exact (hs.alarm n a ha).frame hnow (fun i hi _ => htlb i (Or.inl hi))
      fun h cb hc => (hcalls h cb n).2 hc
  fresh := by
    intro n hn
    rw [halarms]
    exact hs.fresh n (hnext ▸ hn)

/-- A step that takes the alarm of an active entry out of the table. -/
theorem Places.leave (hs : Places s) {i : ℕ} {e : Entry κ} {a : Alarm κ}
    (hi : (s.tlb i).status = .active) (he : e.status ≠ .active)
    (ha : a.Placed s' (s.tlb i).alarm)
    (hcall : ∀ h cb, a.place = .calling h → a.callback = some cb → a.deadline < s.now ∧ a.runs = [])
    (hnow : s'.now = s.now) (htlb : s'.tlb = Function.update s.tlb i e)
    (hcalls : ∀ h cb n, s'.Calls h cb n ↔ s.Calls h cb n ∨
      n = (s.tlb i).alarm ∧ a.place = .calling h ∧ a.callback = some cb)
    (halarms : s'.alarms = Function.update s.alarms (s.tlb i).alarm (some a))
    (hnext : s'.next = s.next) : Places s' where
  entry := by
    intro j hj
    have hne : j ≠ i := by
      intro heq
      subst heq
      rw [htlb, Function.update_self] at hj
      exact he hj
    rw [htlb, Function.update_of_ne hne] at hj ⊢
    obtain ⟨hlt, hj'⟩ := hs.entry j hj
    have hother : (s.tlb j).alarm ≠ (s.tlb i).alarm := by
      intro heq
      rw [heq, (hs.entry i hi).2] at hj'
      injection hj' with hj'
      injection hj' with _ _ hp
      injection hp with hp
      exact hne hp.symm
    rw [halarms, Function.update_of_ne hother]
    exact ⟨hlt, hj'⟩
  call := by
    intro h cb n hc
    rw [hnow, halarms]
    rcases (hcalls h cb n).1 hc with hc | ⟨rfl, hp, hcb⟩
    · obtain ⟨d, hd, hn⟩ := hs.call h cb n hc
      have hother : n ≠ (s.tlb i).alarm := by
        intro heq
        rw [heq, (hs.entry i hi).2] at hn
        injection hn with hn
        injection hn with _ _ hp
        cases hp
      exact ⟨d, hd, by rw [Function.update_of_ne hother, hn]⟩
    · obtain ⟨hd, hr⟩ := hcall h cb hp hcb
      refine ⟨a.deadline, hd, ?_⟩
      rw [Function.update_self, ← hcb, ← hp, ← hr]
  alarm := by
    intro n a' ha'
    rw [halarms] at ha'
    by_cases hn : n = (s.tlb i).alarm
    · subst hn
      rw [Function.update_self] at ha'
      cases ha'
      exact ha
    · rw [Function.update_of_ne hn] at ha'
      refine (hs.alarm n a' ha').frame (Nat.le_of_eq hnow.symm) ?_ fun h cb hc =>
        (hcalls h cb n).2 (Or.inl hc)
      intro j _ hj
      have hne : j ≠ i := fun heq => hn (heq ▸ hj.symm)
      rw [htlb, Function.update_of_ne hne]
  fresh := by
    intro n hn
    have hold := hs.fresh n (hnext ▸ hn)
    have hne : n ≠ (s.tlb i).alarm := by
      intro heq
      rw [heq, (hs.entry i hi).2] at hold
      cases hold
    rw [halarms, Function.update_of_ne hne]
    exact hold

/-- An active entry gets an alarm of its own. -/
theorem Places.start (hs : Places s) {i : ℕ} {e : Entry κ} (hlt : i < maxTimer)
    (hi : (s.tlb i).status ≠ .active) (he : e.status = .active) (hn : e.alarm = s.next) :
    Places { s with
      tlb := Function.update s.tlb i e
      alarms := Function.update s.alarms s.next (some ⟨e.dday, e.callback, .waiting i, []⟩)
      next := s.next + 1 } where
  entry := by
    intro j hj
    by_cases hne : j = i
    · subst hne
      simp only [Function.update_self, hn, hlt, and_self]
    · simp only [Function.update_of_ne hne] at hj ⊢
      obtain ⟨hjlt, hj'⟩ := hs.entry j hj
      have hother : (s.tlb j).alarm ≠ s.next := by
        intro heq
        rw [hs.fresh _ (Nat.le_of_eq heq.symm)] at hj'
        cases hj'
      exact ⟨hjlt, by rw [Function.update_of_ne hother, hj']⟩
  call := by
    intro h cb n hc
    obtain ⟨d, hd, ha⟩ := hs.call h cb n hc
    have hother : n ≠ s.next := by
      intro heq
      rw [hs.fresh n (Nat.le_of_eq heq.symm)] at ha
      cases ha
    exact ⟨d, hd, by simp only [Function.update_of_ne hother, ha]⟩
  alarm := by
    intro n a ha
    by_cases hnext : n = s.next
    · subst hnext
      simp only [Function.update_self, Option.some.injEq] at ha
      subst ha
      simp only [Alarm.Placed, Function.update_self]
      exact ⟨he, hn⟩
    · simp only [Function.update_of_ne hnext] at ha
      refine (hs.alarm n a ha).frame (Nat.le_refl _) ?_ fun _ _ hc => hc
      intro j hj _
      have hne : j ≠ i := fun heq => hi (heq ▸ hj)
      simp only [Function.update_of_ne hne]
  fresh := by
    intro n hlt'
    have hne : n ≠ s.next := Nat.ne_of_gt hlt'
    simp only [Function.update_of_ne hne]
    exact hs.fresh n (Nat.le_of_succ_le hlt')

/-! ## The calls -/

/-- A handler that is changed without a callback before or after. -/
theorem calls_update_quiet {t : State κ} {h : ℕ} {hd : Option (Handler κ)}
    (hold : ∀ d, s.handlers h = some d → d.callback = none)
    (hnew : ∀ d, hd = some d → d.callback = none)
    (heq : t.handlers = Function.update s.handlers h hd) (k : ℕ) (cb : κ) (n : ℕ) :
    t.Calls k cb n ↔ s.Calls k cb n := by
  unfold State.Calls
  rw [heq]
  by_cases hk : k = h
  · subst hk
    rw [Function.update_self]
    constructor
    · rintro ⟨tv, id, hc⟩
      cases hnew _ hc
    · rintro ⟨tv, id, hc⟩
      cases hold _ hc
  · rw [Function.update_of_ne hk]

theorem cancel_of_active {i : ℕ} (hs : Places s) (hi : (s.tlb i).status = .active) :
    s.cancel i = { s with
      alarms := Function.update s.alarms (s.tlb i).alarm
        (some ⟨(s.tlb i).dday, (s.tlb i).callback, .cancelled, []⟩) } := by
  rw [State.cancel, if_pos hi, State.place, (hs.entry i hi).2]
  rfl

theorem cancel_of_not_active {i : ℕ} (hi : (s.tlb i).status ≠ .active) : s.cancel i = s := by
  rw [State.cancel, if_neg hi]

/-- What `cancel` leaves alone. -/
theorem cancel_eq (s : State κ) (i : ℕ) :
    s.cancel i = { s with alarms := (s.cancel i).alarms } := by
  unfold State.cancel State.place
  split_ifs <;> rfl

/-- An entry is overwritten by one that is not active. -/
theorem Places.retire (hs : Places s) (i : ℕ) {e : Entry κ} (he : e.status ≠ .active) (k : ℕ) :
    Places { s.cancel i with tlb := Function.update s.tlb i e, activations := k } := by
  by_cases hi : (s.tlb i).status = .active
  · rw [cancel_of_active hs hi]
    refine hs.leave (a := ⟨_, _, .cancelled, []⟩) hi he rfl ?_ rfl rfl ?_ rfl rfl
    · intro h cb hp
      cases hp
    · intro h cb n
      exact ⟨Or.inl, fun hc => hc.resolve_right fun hn => by cases hn.2.1⟩
  · rw [cancel_of_not_active hi]
    refine hs.frame (Nat.le_refl _) ?_ (fun _ _ _ => Iff.rfl) rfl rfl
    intro j hj
    by_cases hne : j = i
    · subst hne
      simp only [Function.update_self] at hj
      exact absurd hj (not_or_intro hi he)
    · simp only [Function.update_of_ne hne]

/-- What `timer_stop` and `timer_free` do. -/
theorem stop_or_free_cases (s : State κ) (id : ℤ) :
    s.stop id = s ∧ s.free id = s ∨ ∃ i, slot id = some i ∧
      s.stop id = { s.cancel i with
        tlb := Function.update s.tlb i { s.tlb i with status := .stopped }
        activations := s.activations + 1 } ∧
      s.free id = { s.cancel i with
        tlb := Function.update s.tlb i .clear
        activations := s.activations + 1 } := by
  unfold State.stop State.free
  cases slot id with
  | none => exact Or.inl ⟨rfl, rfl⟩
  | some i => exact Or.inr ⟨i, rfl, rfl, rfl⟩

/-- What `timer_set` does. -/
theorem set_cases (s : State κ) (id : ℤ) (tv : Option ℕ) (cb : Option κ) :
    s.set id tv cb = s ∨ ∃ i d, slot id = some i ∧ tv = some d ∧ (s.tlb i).status ≠ .free ∧
      s.set id tv cb = { s.cancel i with
        tlb := Function.update s.tlb i ⟨.active, s.now + d, cb <|> (s.tlb i).callback, s.next⟩
        activations := s.activations + 1
        alarms := Function.update (s.cancel i).alarms s.next
          (some ⟨s.now + d, cb <|> (s.tlb i).callback, .waiting i, []⟩)
        next := s.next + 1 } := by
  unfold State.set
  cases hset : timerSet s.tlb s.now s.next id tv cb with
  | none => exact Or.inl rfl
  | some r =>
    obtain ⟨i, tlb⟩ := r
    obtain ⟨hslot, hfree, d, hd, rfl⟩ := timerSet_eq_some hset
    refine Or.inr ⟨i, d, hslot, hd, hfree, ?_⟩
    simp only [Function.update_self]

theorem Places.set (hs : Places s) (id : ℤ) (tv : Option ℕ) (cb : Option κ) :
    Places (s.set id tv cb) := by
  rcases set_cases s id tv cb with heq | ⟨i, d, hslot, -, -, heq⟩
  · rw [heq]
    exact hs
  · have hfree : (Entry.clear : Entry κ).status ≠ .active := by simp [Entry.clear]
    have hretired := hs.retire i hfree (s.activations + 1)
    have hstart := hretired.start (e := ⟨.active, s.now + d, cb <|> (s.tlb i).callback, s.next⟩)
      (slot_lt hslot) (by simpa using hfree) rfl (by rw [cancel_eq])
    rw [heq]
    rw [cancel_eq] at hstart ⊢
    simpa using hstart

/-- An entry that a handler takes. -/
def State.fire (s : State κ) (h tv id : ℕ) (callback : Option (κ × ℕ)) (p : Place) : State κ :=
  { s with
    tlb := Function.update s.tlb id { s.tlb id with status := .fired }
    handlers := Function.update s.handlers h (some ⟨tv, id + 1, callback⟩)
    alarms := Function.update s.alarms (s.tlb id).alarm
      (some ⟨(s.tlb id).dday, (s.tlb id).callback, p, []⟩) }

/-- What one turn of the loop of a handler does. -/
theorem scan_cases (hs : Places s) (h tv id : ℕ) :
    (((s.tlb id).status = .active → tv ≤ (s.tlb id).dday) ∧ s.scan h ⟨tv, id, none⟩ =
      { s with handlers := Function.update s.handlers h (some ⟨tv, id + 1, none⟩) }) ∨
    (s.tlb id).status = .active ∧ (s.tlb id).dday < tv ∧
      ((s.tlb id).callback = none ∧ s.scan h ⟨tv, id, none⟩ = s.fire h tv id none .done ∨
      ∃ cb, (s.tlb id).callback = some cb ∧
        s.scan h ⟨tv, id, none⟩ = s.fire h tv id (some (cb, (s.tlb id).alarm)) (.calling h)) := by
  unfold State.scan
  dsimp only
  split_ifs with hdue
  · refine Or.inr ⟨hdue.1, hdue.2, ?_⟩
    split
    · next hcb =>
      refine Or.inl ⟨hcb, ?_⟩
      simp [State.place, State.fire, (hs.entry id hdue.1).2]
    · next cb hcb =>
      refine Or.inr ⟨cb, hcb, ?_⟩
      simp [State.place, State.fire, (hs.entry id hdue.1).2]
  · refine Or.inl ⟨?_, rfl⟩
    intro hactive
    exact Nat.le_of_not_lt fun hlt => hdue ⟨hactive, hlt⟩

/-- A handler without a callback. -/
theorem quiet_of_run {h tv id : ℕ} (hrun : s.handlers h = some ⟨tv, id, none⟩) :
    ∀ d, s.handlers h = some d → d.callback = none := by
  intro d hd
  rw [hrun] at hd
  cases hd
  rfl

theorem Places.scan (hs : Places s) (hscans : Scans s) {h tv id : ℕ}
    (hrun : s.handlers h = some ⟨tv, id, none⟩) : Places (s.scan h ⟨tv, id, none⟩) := by
  have hquiet (k : ℕ) (cb : κ) (n : ℕ) := calls_update_quiet
    (t := { s with handlers := Function.update s.handlers h (some ⟨tv, id + 1, none⟩) })
    (quiet_of_run hrun) (by simp) rfl k cb n
  rcases scan_cases hs h tv id with ⟨-, heq⟩ | ⟨hactive, hlt, hcb⟩
  · rw [heq]
    exact hs.frame (Nat.le_refl _) (fun _ _ => rfl) hquiet rfl rfl
  have hlate : (s.tlb id).dday < s.now := Nat.lt_of_lt_of_le hlt (hscans h _ hrun).1
  have hfired : ({ s.tlb id with status := .fired } : Entry κ).status ≠ .active := by simp
  rcases hcb with ⟨hcb, heq⟩ | ⟨cb, hcb, heq⟩
  · rw [heq]
    refine hs.leave (a := ⟨_, _, .done, []⟩) hactive hfired ⟨hlate, Or.inl ⟨rfl, hcb⟩⟩ ?_ rfl rfl
      ?_ rfl rfl
    · intro k cb hp
      cases hp
    · intro k cb n
      exact ((hquiet k cb n).trans
        ⟨Or.inl, fun hc => hc.resolve_right fun hn => by cases hn.2.1⟩)
  · have hcalls (k : ℕ) (c : κ) (n : ℕ) :
        (s.fire h tv id (some (cb, (s.tlb id).alarm)) (.calling h)).Calls k c n ↔
          s.Calls k c n ∨ n = (s.tlb id).alarm ∧ Place.calling h = .calling k ∧
            (s.tlb id).callback = some c := by
      unfold State.Calls State.fire
      by_cases hk : k = h
      · subst hk
        simp [hrun, hcb, eq_comm, and_comm]
      · simp [Function.update_of_ne hk, Ne.symm hk]
    rw [heq]
    refine hs.leave (a := ⟨_, _, .calling h, []⟩) hactive hfired ?_ ?_ rfl rfl hcalls rfl rfl
    · exact ⟨cb, (hcalls h cb _).2 (Or.inr ⟨rfl, rfl, hcb⟩)⟩
    · intro k c _ _
      exact ⟨hlate, rfl⟩

/-- A callback is called. -/
theorem Places.run (hs : Places s) {h tv id n : ℕ} {cb : κ}
    (hrun : s.handlers h = some ⟨tv, id, some (cb, n)⟩) :
    Places (s.call h n ⟨tv, id, some (cb, n)⟩) := by
  obtain ⟨d, hd, ha⟩ := hs.call h cb n ⟨tv, id, hrun⟩
  have heq : s.call h n ⟨tv, id, some (cb, n)⟩ = { s with
      handlers := Function.update s.handlers h (some ⟨tv, id, none⟩)
      alarms := Function.update s.alarms n (some ⟨d, some cb, .done, [s.now]⟩) } := by
    simp [State.call, State.place, ha]
  rw [heq]
  -- the other calls are of other alarms
  have hother {k m : ℕ} {c : κ} (hc : s.Calls k c m) (hk : k ≠ h) : m ≠ n := by
    intro hm
    obtain ⟨d', -, ha'⟩ := hs.call k c m hc
    rw [hm, ha] at ha'
    injection ha' with ha'
    injection ha' with _ _ hp
    injection hp with hp
    exact hk hp.symm
  have hcalls {k m : ℕ} {c : κ} : State.Calls { s with
      handlers := Function.update s.handlers h (some ⟨tv, id, none⟩)
      alarms := Function.update s.alarms n (some ⟨d, some cb, .done, [s.now]⟩) } k c m ↔
      s.Calls k c m ∧ k ≠ h := by
    unfold State.Calls
    by_cases hk : k = h
    · subst hk
      simp
    · simp [hk]
  constructor
  · intro i hi
    obtain ⟨hlt, hi'⟩ := hs.entry i hi
    have hne : (s.tlb i).alarm ≠ n := by
      intro hn
      rw [hn, ha] at hi'
      injection hi' with hi'
      injection hi' with _ _ hp
      cases hp
    exact ⟨hlt, by simp only [Function.update_of_ne hne, hi']⟩
  · intro k c m hc
    obtain ⟨hc, hk⟩ := hcalls.1 hc
    obtain ⟨d', hd', ha'⟩ := hs.call k c m hc
    exact ⟨d', hd', by simp only [Function.update_of_ne (hother hc hk), ha']⟩
  · intro m a hm
    by_cases hne : m = n
    · subst hne
      simp only [Function.update_self, Option.some.injEq] at hm
      subst hm
      exact ⟨hd, Or.inr ⟨s.now, rfl, hd⟩⟩
    · simp only [Function.update_of_ne hne] at hm
      have hplaced := hs.alarm m a hm
      unfold Alarm.Placed at hplaced ⊢
      cases hp : a.place with
      | calling k =>
        rw [hp] at hplaced
        obtain ⟨c, hc⟩ := hplaced
        refine ⟨c, hcalls.2 ⟨hc, ?_⟩⟩
        rintro rfl
        obtain ⟨_, _, hk⟩ := hc
        rw [hrun] at hk
        cases hk
        exact hne rfl
      | _ => rwa [hp] at hplaced
  · intro m hm
    have hfresh := hs.fresh m hm
    have hne : m ≠ n := by
      rintro rfl
      rw [ha] at hfresh
      cases hfresh
    simp only [Function.update_of_ne hne, hfresh]

/-! ## The other invariants -/

/-- What a step leaves or makes of an active entry: it stays, or it is set for a later time. -/
theorem active_of_step (hs : Places s) (hstep : Step s op s') {i : ℕ}
    (hi : (s'.tlb i).status = .active) :
    s'.tlb i = s.tlb i ∨ s.now ≤ (s'.tlb i).dday ∧ s.activations < s'.activations := by
  -- an entry that is written in another state than active stays out of account
  have hover {k : ℕ} {e : Entry κ} (he : e.status ≠ .active)
      (hk : (Function.update s.tlb k e i).status = .active) :
      Function.update s.tlb k e i = s.tlb i := by
    by_cases hne : i = k
    · subst hne
      rw [Function.update_self] at hk
      exact absurd hk he
    · rw [Function.update_of_ne hne]
  cases hstep with
  | new =>
    rcases timerNew_cases s.tlb with ⟨heq, -⟩ | ⟨k, -, -, heq⟩
    · exact Or.inl (by rw [State.new, heq])
    · unfold State.new at hi ⊢
      rw [heq] at hi ⊢
      exact Or.inl (hover (by simp) hi)
  | set id tv cb =>
    rcases set_cases s id tv cb with heq | ⟨k, d, -, -, -, heq⟩
    · exact Or.inl (by rw [heq])
    · rw [heq] at hi ⊢
      by_cases hne : i = k
      · subst hne
        refine Or.inr ⟨?_, Nat.lt_succ_self _⟩
        simp only [Function.update_self]
        exact Nat.le_add_right _ _
      · exact Or.inl (Function.update_of_ne hne _ _)
  | stop id =>
    rcases stop_or_free_cases s id with ⟨heq, -⟩ | ⟨k, -, heq, -⟩
    · exact Or.inl (by rw [heq])
    · rw [heq] at hi ⊢
      exact Or.inl (hover (by simp) hi)
  | free id =>
    rcases stop_or_free_cases s id with ⟨-, heq⟩ | ⟨k, -, -, heq⟩
    · exact Or.inl (by rw [heq])
    · rw [heq] at hi ⊢
      exact Or.inl (hover (by simp [Entry.clear]) hi)
  | @scan h tv id hrun hlt =>
    rcases scan_cases hs h tv id with ⟨-, heq⟩ | ⟨-, -, ⟨-, heq⟩ | ⟨cb, -, heq⟩⟩
    · exact Or.inl (by rw [heq])
    · rw [heq] at hi ⊢
      exact Or.inl (hover (by simp) hi)
    · rw [heq] at hi ⊢
      exact Or.inl (hover (by simp) hi)
  | _ => exact Or.inl rfl

/-- A step keeps the alarms in their places. -/
theorem Places.step (hs : Places s) (hscans : Scans s) (hstep : Step s op s') : Places s' := by
  cases hstep with
  | tick le => exact hs.frame le (fun _ _ => rfl) (fun _ _ _ => Iff.rfl) rfl rfl
  | new =>
    refine hs.frame (Nat.le_refl _) ?_ (fun _ _ _ => Iff.rfl) rfl rfl
    intro j hj
    rcases timerNew_cases s.tlb with ⟨heq, -⟩ | ⟨i, -, hfree, heq⟩
    · rw [State.new, heq]
    · rw [State.new, heq] at hj ⊢
      by_cases hne : j = i
      · subst hne
        simp [hfree] at hj
      · simp only [Function.update_of_ne hne]
  | set id tv cb => exact hs.set id tv cb
  | stop id =>
    rcases stop_or_free_cases s id with ⟨heq, -⟩ | ⟨i, -, heq, -⟩
    · rw [heq]
      exact hs
    · rw [heq]
      exact hs.retire i (by simp) _
  | free id =>
    rcases stop_or_free_cases s id with ⟨-, heq⟩ | ⟨i, -, -, heq⟩
    · rw [heq]
      exact hs
    · rw [heq]
      exact hs.retire i (by simp [Entry.clear]) _
  | activate pos => exact hs.frame (Nat.le_refl _) (fun _ _ => rfl) (fun _ _ _ => Iff.rfl) rfl rfl
  | deliver idle =>
    refine hs.frame (Nat.le_refl _) (fun _ _ => rfl)
      (calls_update_quiet ?_ (by simp) rfl) rfl rfl
    intro d hd
    rw [idle] at hd
    cases hd
  | scan run lt => exact hs.scan hscans run
  | call run => exact hs.run run
  | finish run le =>
    exact hs.frame (Nat.le_refl _) (fun _ _ => rfl)
      (calls_update_quiet (quiet_of_run run) (by simp) rfl) rfl rfl

/-! ## Frames -/

@[simp] theorem cancel_now (i : ℕ) : (s.cancel i).now = s.now := by
  rw [cancel_eq]

@[simp] theorem cancel_armed (i : ℕ) : (s.cancel i).armed = s.armed := by
  rw [cancel_eq]

@[simp] theorem cancel_handlers (i : ℕ) : (s.cancel i).handlers = s.handlers := by
  rw [cancel_eq]

/-- The calls leave the clock, the interval timer and the handlers alone. -/
theorem set_frame (s : State κ) (id : ℤ) (tv : Option ℕ) (cb : Option κ) :
    (s.set id tv cb).now = s.now ∧ (s.set id tv cb).armed = s.armed ∧
      (s.set id tv cb).handlers = s.handlers := by
  rcases set_cases s id tv cb with heq | ⟨i, d, -, -, -, heq⟩ <;> rw [heq] <;> simp

theorem stop_frame (s : State κ) (id : ℤ) :
    (s.stop id).now = s.now ∧ (s.stop id).armed = s.armed ∧
      (s.stop id).handlers = s.handlers := by
  rcases stop_or_free_cases s id with ⟨heq, -⟩ | ⟨i, -, heq, -⟩ <;> rw [heq] <;> simp

theorem free_frame (s : State κ) (id : ℤ) :
    (s.free id).now = s.now ∧ (s.free id).armed = s.armed ∧
      (s.free id).handlers = s.handlers := by
  rcases stop_or_free_cases s id with ⟨-, heq⟩ | ⟨i, -, -, heq⟩ <;> rw [heq] <;> simp

/-- A turn of the loop of a handler moves it on by one entry. -/
theorem scan_frame (hs : Places s) (h tv id : ℕ) :
    (s.scan h ⟨tv, id, none⟩).now = s.now ∧ ∃ cb, (s.scan h ⟨tv, id, none⟩).handlers =
      Function.update s.handlers h (some ⟨tv, id + 1, cb⟩) := by
  rcases scan_cases hs h tv id with ⟨-, heq⟩ | ⟨-, -, ⟨-, heq⟩ | ⟨cb, -, heq⟩⟩ <;> rw [heq]
  · exact ⟨rfl, none, rfl⟩
  · exact ⟨rfl, none, rfl⟩
  · exact ⟨rfl, _, rfl⟩

theorem now_le_of_step (hs : Places s) (hstep : Step s op s') : s.now ≤ s'.now := by
  cases hstep with
  | tick le => exact le
  | set id tv cb => exact Nat.le_of_eq (set_frame s id tv cb).1.symm
  | stop id => exact Nat.le_of_eq (stop_frame s id).1.symm
  | free id => exact Nat.le_of_eq (free_frame s id).1.symm
  | @scan h tv id run lt => exact Nat.le_of_eq (scan_frame hs h tv id).1.symm
  | _ => exact Nat.le_refl _

/-- What a step makes of an entry that it is not called for. -/
theorem entry_of_step (hs : Places s) (hstep : Step s op s') {id : ℤ} {i : ℕ}
    (hslot : slot id = some i) (hop : op.target ≠ some id) (hfree : (s.tlb i).status ≠ .free) :
    s'.tlb i = s.tlb i ∨ s'.tlb i = { s.tlb i with status := .fired } ∧
      ∀ cb, (s.tlb i).callback = some cb → ∃ h, s'.Calls h cb (s.tlb i).alarm := by
  have hother {id' : ℤ} {k : ℕ} (hk : slot id' = some k) (hne : some id' ≠ some id) : i ≠ k := by
    rintro rfl
    exact hne (congrArg some (slot_inj hk hslot))
  cases hstep with
  | new =>
    rcases timerNew_cases s.tlb with ⟨heq, -⟩ | ⟨k, -, hk, heq⟩
    · exact Or.inl (by rw [State.new, heq])
    · have hne : i ≠ k := fun h => hfree (h ▸ hk)
      refine Or.inl ?_
      rw [State.new, heq]
      exact Function.update_of_ne hne _ _
  | set id' tv cb =>
    rcases set_cases s id' tv cb with heq | ⟨k, d, hk, -, -, heq⟩
    · exact Or.inl (by rw [heq])
    · refine Or.inl ?_
      rw [heq]
      exact Function.update_of_ne (hother hk hop) _ _
  | stop id' =>
    rcases stop_or_free_cases s id' with ⟨heq, -⟩ | ⟨k, hk, heq, -⟩
    · exact Or.inl (by rw [heq])
    · refine Or.inl ?_
      rw [heq]
      exact Function.update_of_ne (hother hk hop) _ _
  | free id' =>
    rcases stop_or_free_cases s id' with ⟨-, heq⟩ | ⟨k, hk, -, heq⟩
    · exact Or.inl (by rw [heq])
    · refine Or.inl ?_
      rw [heq]
      exact Function.update_of_ne (hother hk hop) _ _
  | @scan h tv k run lt =>
    by_cases hne : i = k
    · subst hne
      rcases scan_cases hs h tv i with ⟨-, heq⟩ | ⟨-, -, ⟨hcb, heq⟩ | ⟨cb, hcb, heq⟩⟩
      · exact Or.inl (by rw [heq])
      · refine Or.inr ⟨by simp [heq, State.fire], ?_⟩
        intro cb hsome
        rw [hcb] at hsome
        cases hsome
      · refine Or.inr ⟨by simp [heq, State.fire], ?_⟩
        intro cb' hsome
        obtain rfl := Option.some.inj (hcb.symm.trans hsome)
        exact ⟨h, tv, i + 1, by simp [heq, State.fire]⟩
    · rcases scan_cases hs h tv k with ⟨-, heq⟩ | ⟨-, -, ⟨-, heq⟩ | ⟨cb, -, heq⟩⟩
      · exact Or.inl (by rw [heq])
      · refine Or.inl ?_
        rw [heq]
        exact Function.update_of_ne hne _ _
      · refine Or.inl ?_
        rw [heq]
        exact Function.update_of_ne hne _ _
  | _ => exact Or.inl rfl

/-- A call is due until it is made. -/
theorem calls_of_step (hs : Places s) (hstep : Step s op s') {h n : ℕ} {cb : κ}
    (hc : s.Calls h cb n) : s'.Calls h cb n ∨ op = .call h cb := by
  obtain ⟨tv, id, hh⟩ := hc
  -- the handler that is changed is another one
  have hother {k : ℕ} {d : Option (Handler κ)} (hne : h ≠ k)
      (heq : s'.handlers = Function.update s.handlers k d) : s'.Calls h cb n :=
    ⟨tv, id, by rw [heq, Function.update_of_ne hne, hh]⟩
  have hquiet {k tv' id' : ℕ} (hk : s.handlers k = some ⟨tv', id', none⟩) : h ≠ k := by
    rintro rfl
    rw [hh] at hk
    cases hk
  cases hstep with
  | set id' tv' cb' => exact Or.inl ⟨tv, id, by rw [(set_frame s id' tv' cb').2.2, hh]⟩
  | stop id' => exact Or.inl ⟨tv, id, by rw [(stop_frame s id').2.2, hh]⟩
  | free id' => exact Or.inl ⟨tv, id, by rw [(free_frame s id').2.2, hh]⟩
  | @deliver k idle =>
    refine Or.inl (hother ?_ rfl)
    rintro rfl
    rw [hh] at idle
    cases idle
  | @scan k tv' id' run lt =>
    obtain ⟨-, d, heq⟩ := scan_frame hs k tv' id'
    exact Or.inl (hother (hquiet run) heq)
  | @call k tv' id' m cb' run =>
    by_cases hne : h = k
    · subst hne
      rw [hh] at run
      cases run
      exact Or.inr rfl
    · exact Or.inl (hother hne rfl)
  | finish run le => exact Or.inl (hother (hquiet run) rfl)
  | _ => exact Or.inl ⟨tv, id, hh⟩

/-! ## Every run -/

/-- A handler that has been at work before the step. -/
theorem Scans.keep (hs : Scans s) (hp : Places s) (hstep : Step s op s') {h : ℕ}
    {hd : Handler κ} (hh : s.handlers h = some hd) : hd.tv ≤ s'.now ∧
      ∀ i < hd.id, (s'.tlb i).status = .active → hd.tv ≤ (s'.tlb i).dday := by
  obtain ⟨htv, hall⟩ := hs h hd hh
  refine ⟨Nat.le_trans htv (now_le_of_step hp hstep), ?_⟩
  intro i hi hactive
  rcases active_of_step hp hstep hactive with heq | ⟨hlate, -⟩
  · rw [heq] at hactive ⊢
    exact hall i hi hactive
  · exact Nat.le_trans htv hlate

theorem Scans.step (hs : Scans s) (hp : Places s) (hstep : Step s op s') : Scans s' := by
  intro k hd hk
  -- the handler is as it was, has just started, or has been moved
  have hkeep {h : ℕ} {d : Handler κ} (hh : s.handlers h = some d) := hs.keep hp hstep hh
  have hsame (heq : s'.handlers = s.handlers) : hd.tv ≤ s'.now ∧
      ∀ i < hd.id, (s'.tlb i).status = .active → hd.tv ≤ (s'.tlb i).dday :=
    hkeep (heq ▸ hk)
  cases hstep with
  | set id tv cb => exact hsame (set_frame s id tv cb).2.2
  | stop id => exact hsame (stop_frame s id).2.2
  | free id => exact hsame (free_frame s id).2.2
  | @deliver h idle =>
    by_cases hne : k = h
    · subst hne
      simp only [State.deliver, Function.update_self, Option.some.injEq] at hk
      subst hk
      exact ⟨Nat.le_refl _, fun i hi => absurd hi (Nat.not_lt_zero i)⟩
    · simp only [State.deliver, Function.update_of_ne hne] at hk
      exact hkeep hk
  | @scan h tv id run lt =>
    obtain ⟨-, cb, hhandlers⟩ := scan_frame hp h tv id
    rw [hhandlers] at hk
    by_cases hne : k = h
    · subst hne
      rw [Function.update_self] at hk
      cases hk
      refine ⟨(hkeep run).1, ?_⟩
      intro i hi hactive
      rcases Nat.lt_succ_iff_lt_or_eq.1 hi with hi | rfl
      · exact (hkeep run).2 i hi hactive
      · rcases scan_cases hp k tv i with ⟨hdue, heq⟩ | ⟨-, -, ⟨-, heq⟩ | ⟨cb, -, heq⟩⟩
        · rw [heq] at hactive ⊢
          exact hdue hactive
        · simp [heq, State.fire] at hactive
        · simp [heq, State.fire] at hactive
    · rw [Function.update_of_ne hne] at hk
      exact hkeep hk
  | @call h tv id n cb run =>
    by_cases hne : k = h
    · subst hne
      simp only [State.call, Function.update_self, Option.some.injEq] at hk
      subst hk
      have hold := hkeep run
      exact hold
    · simp only [State.call, Function.update_of_ne hne] at hk
      exact hkeep hk
  | @finish h tv id run le =>
    by_cases hne : k = h
    · subst hne
      simp [State.finish] at hk
    · simp only [State.finish, Function.update_of_ne hne] at hk
      exact hkeep hk
  | _ => exact hsame rfl

theorem ArmedFor.mono {e : Entry κ} (ha : ArmedFor s e) (hnow : s.now ≤ s'.now)
    (harmed : s'.armed = s.armed) : ArmedFor s' e := by
  obtain ⟨a, hsome, hle⟩ := ha
  refine ⟨a, harmed ▸ hsome, ?_⟩
  omega

/-- What `timer_activate` arms the interval timer for. -/
theorem armedFor_activate {i : ℕ}
    (hpos : ∀ i, (s.tlb i).status = .active → 0 < (s.tlb i).dday) (hi : i < maxTimer)
    (h : (s.tlb i).status = .active) : ArmedFor s.activate (s.tlb i) := by
  obtain ⟨hit, hle⟩ := itValue_spec s.now (fun i _ => hpos i) hi h
  unfold ArmedFor State.activate
  generalize itValue s.tlb s.now = v at hit hle ⊢
  refine ⟨s.now + v, if_neg (Nat.ne_of_gt hit), ?_⟩
  dsimp only
  omega

theorem Inv.init {now : ℕ} (hpos : 0 < now) : Inv (State.init now : State κ) where
  clock := hpos
  dday := by
    intro i hi
    cases hi
  places := by
    constructor
    · intro i hi
      cases hi
    · rintro h cb n ⟨tv, id, hc⟩
      cases hc
    · intro n a ha
      cases ha
    · intro n _
      rfl
  scans := by
    intro h hd hh
    cases hh
  armed := by
    intro _ i hi
    cases hi

theorem Inv.step (hs : Inv s) (hstep : Step s op s') : Inv s' where
  clock := Nat.lt_of_lt_of_le hs.clock (now_le_of_step hs.places hstep)
  dday := by
    intro i hi
    rcases active_of_step hs.places hstep hi with heq | ⟨hlate, -⟩
    · rw [heq] at hi ⊢
      exact hs.dday i hi
    · exact Nat.lt_of_lt_of_le hs.clock hlate
  places := hs.places.step hs.scans hstep
  scans := hs.scans.step hs.places hstep
  armed := by
    intro hrest i hi
    -- what was armed stays so when the rest was one already
    have hkeep (h₁ : s.activations = s'.activations) (h₂ : s'.handlers = s.handlers)
        (h₃ : s'.armed = s.armed) : ArmedFor s' (s'.tlb i) := by
      rcases active_of_step hs.places hstep hi with heq | ⟨-, hlt⟩
      · rw [heq] at hi ⊢
        refine (hs.armed ⟨h₁.trans hrest.1, fun h => ?_⟩ i hi).mono
          (now_le_of_step hs.places hstep) h₃
        rw [← h₂]
        exact hrest.2 h
      · exact absurd h₁ (Nat.ne_of_lt hlt)
    cases hstep with
    | set id tv cb =>
      rcases set_cases s id tv cb with heq | ⟨k, d, -, -, -, heq⟩
      · exact hkeep (by rw [heq]) (set_frame s id tv cb).2.2 (set_frame s id tv cb).2.1
      · rw [heq] at hrest
        exact absurd hrest.1 (Nat.succ_ne_zero _)
    | stop id =>
      rcases stop_or_free_cases s id with ⟨heq, -⟩ | ⟨k, -, heq, -⟩
      · exact hkeep (by rw [heq]) (stop_frame s id).2.2 (stop_frame s id).2.1
      · rw [heq] at hrest
        exact absurd hrest.1 (Nat.succ_ne_zero _)
    | free id =>
      rcases stop_or_free_cases s id with ⟨-, heq⟩ | ⟨k, -, -, heq⟩
      · exact hkeep (by rw [heq]) (free_frame s id).2.2 (free_frame s id).2.1
      · rw [heq] at hrest
        exact absurd hrest.1 (Nat.succ_ne_zero _)
    | activate pos => exact armedFor_activate hs.dday (hs.places.entry i hi).1 hi
    | @deliver h idle =>
      have hrun := hrest.2 h
      simp [State.deliver] at hrun
    | @scan h tv id run lt =>
      have hrun := hrest.2 h
      obtain ⟨-, cb, heq⟩ := scan_frame hs.places h tv id
      simp [heq] at hrun
    | @call h tv id n cb run =>
      have hrun := hrest.2 h
      simp [State.call] at hrun
    | finish run le => exact absurd hrest.1 (Nat.succ_ne_zero _)
    | _ => exact hkeep rfl rfl rfl

theorem Reach.inv (hs : Reach s) : Inv s := by
  induction hs with
  | init hpos => exact Inv.init hpos
  | step _ hstep ih => exact ih.step hstep

/-! ## What callers see -/

/-- A `timer_set` is neither forgotten nor early, and has its callback run once. -/
structure Alarm.Kept (s : State κ) (n : ℕ) (a : Alarm κ) : Prop where
  once : a.runs.length ≤ 1
  late : ∀ t ∈ a.runs, a.deadline < t
  cancelled : a.place = .cancelled → a.runs = []
  runs : a.runs = [] → a.place = .cancelled ∨
    (∃ i, (s.tlb i).status = .active ∧ (s.tlb i).alarm = n ∧
      (s.tlb i).dday = a.deadline ∧ (s.tlb i).callback = a.callback) ∨
    (∃ h cb, s.Calls h cb n ∧ a.callback = some cb ∧ a.deadline < s.now) ∨
    a.callback = none ∧ a.deadline < s.now

/-- **Once each, and not early.** -/
theorem Reach.kept (hs : Reach s) {n : ℕ} {a : Alarm κ} (ha : s.alarms n = some a) :
    a.Kept s n := by
  have hp := hs.inv.places
  have hplaced := hp.alarm n a ha
  unfold Alarm.Placed at hplaced
  cases hplace : a.place with
  | waiting i =>
    rw [hplace] at hplaced
    have hentry := (hp.entry i hplaced.1).2
    rw [hplaced.2, ha] at hentry
    cases hentry
    exact ⟨by simp, by simp, fun _ => rfl, fun _ =>
      Or.inr (Or.inl ⟨i, hplaced.1, hplaced.2, rfl, rfl⟩)⟩
  | calling h =>
    rw [hplace] at hplaced
    obtain ⟨cb, hc⟩ := hplaced
    obtain ⟨d, hd, hn⟩ := hp.call h cb n hc
    rw [ha] at hn
    cases hn
    exact ⟨by simp, by simp, fun _ => rfl, fun _ =>
      Or.inr (Or.inr (Or.inl ⟨h, cb, hc, rfl, hd⟩))⟩
  | done =>
    rw [hplace] at hplaced
    obtain ⟨hd, ⟨hr, hcb⟩ | ⟨t, hr, ht⟩⟩ := hplaced
    · exact ⟨by simp [hr], by simp [hr], fun _ => hr, fun _ =>
        Or.inr (Or.inr (Or.inr ⟨hcb, hd⟩))⟩
    · exact ⟨by simp [hr], by simpa [hr] using ht, by simp [hplace], by simp [hr]⟩
  | cancelled =>
    rw [hplace] at hplaced
    exact ⟨by simp [hplaced], by simp [hplaced], fun _ => hplaced, fun _ => Or.inl hplace⟩

/-- **No expired timer is left behind by a handler.** -/
theorem Reach.swept (hs : Reach s) {h : ℕ} {hd : Handler κ} (hh : s.handlers h = some hd)
    (hid : hd.id = maxTimer) {i : ℕ} (hi : (s.tlb i).status = .active) :
    hd.tv ≤ (s.tlb i).dday :=
  (hs.inv.scans h hd hh).2 i (hid ▸ (hs.inv.places.entry i hi).1) hi

/-- **The interval timer is armed in time.** -/
theorem Reach.in_time (hs : Reach s) (hrest : AtRest s) {i : ℕ}
    (hi : (s.tlb i).status = .active) : ArmedFor s (s.tlb i) :=
  hs.inv.armed hrest i hi

end Mlvm.Timer
