import Mathlib.Data.List.Basic

/-!
# Splitting a stream into records

A stream arrives in pieces and is a row of **records**. A *splitter* looks at what is there and
says where the first record ends, that more is needed, or that this is no record at all. What it
said of a stream it still says when more of the stream is there.

**Draining** (`drain`). The whole records at the front of a stream, one after the other, and what
is left behind them: a part of a record, or nothing once the splitter has met something bad.

**Tracking** (`Tracks`). A reader that has handed some records on and kept a tail is on track
when draining its tail continues what it has handed on. A reader may stop anywhere between two
records, so tracking is what its steps keep: more of the stream arrives (`Tracks.arrive`), one
record is handed on (`Tracks.hand`), or the stream turns out bad (`Tracks.bad`).

Main results: `drain_append` (draining does not depend on how the stream was cut) and
`drain_of_isPrefix` (a piece of a row of records drains into the first of them).
-/

namespace Mlvm.Framing

variable {α : Type*}

/-- What a splitter says of a stream: more is needed, the first record has `n` elements, or there
is no record. -/
inductive Cut where
  | more
  | record (n : ℕ)
  | bad
  deriving DecidableEq, Repr

/-- A way to find the end of the first record. -/
structure Splitter (α : Type*) where
  cut : List α → Cut
  pos : ∀ {xs n}, cut xs = .record n → 0 < n
  le_length : ∀ {xs n}, cut xs = .record n → n ≤ xs.length
  record_append : ∀ {xs n} (ys), cut xs = .record n → cut (xs ++ ys) = .record n
  bad_append : ∀ {xs} (ys), cut xs = .bad → cut (xs ++ ys) = .bad

namespace Splitter

variable (S : Splitter α)

/-! ## Draining -/

/-- The whole records of a stream and what is left behind them; nothing is left of a bad one. -/
def drain (xs : List α) : List (List α) × Option (List α) :=
  match _h : S.cut xs with
  | .more => ([], some xs)
  | .bad => ([], none)
  | .record n => (xs.take n :: (drain (xs.drop n)).1, (drain (xs.drop n)).2)
termination_by xs.length
decreasing_by
  all_goals
    have := S.pos _h
    have := S.le_length _h
    rw [List.length_drop]
    omega

/-- Draining goes on from what was left. -/
def resume : Option (List α) → List α → List (List α) × Option (List α)
  | none, _ => ([], none)
  | some r, ys => S.drain (r ++ ys)

variable {S} {xs ys : List α} {n : ℕ}

theorem drain_more (h : S.cut xs = .more) : S.drain xs = ([], some xs) := by
  rw [drain]
  split <;> simp_all

theorem drain_bad (h : S.cut xs = .bad) : S.drain xs = ([], none) := by
  rw [drain]
  split <;> simp_all

theorem drain_record (h : S.cut xs = .record n) :
    S.drain xs = (xs.take n :: (S.drain (xs.drop n)).1, (S.drain (xs.drop n)).2) := by
  rw [drain]
  split
  · next h' => simp [h] at h'
  · next h' => simp [h] at h'
  · next m h' =>
    obtain rfl : n = m := by simpa [h] using h'
    rfl

/-- Induction along the records of a stream. -/
theorem drain_induct (S : Splitter α) {motive : List α → Prop}
    (more : ∀ xs, S.cut xs = .more → motive xs) (bad : ∀ xs, S.cut xs = .bad → motive xs)
    (record : ∀ xs n, S.cut xs = .record n → motive (xs.drop n) → motive xs) (xs : List α) :
    motive xs := by
  induction hlen : xs.length using Nat.strongRecOn generalizing xs with
  | _ len ih =>
    cases h : S.cut xs with
    | more => exact more xs h
    | bad => exact bad xs h
    | record n =>
      have hpos := S.pos h
      have hle := S.le_length h
      exact record xs n h (ih _ (by rw [List.length_drop]; omega) _ rfl)

/-- What is left holds no whole record. -/
theorem cut_of_drain_snd {r : List α} (h : (S.drain xs).2 = some r) : S.cut r = .more := by
  induction xs using S.drain_induct with
  | more xs hc =>
    obtain rfl : xs = r := by simpa [drain_more hc] using h
    exact hc
  | bad xs hc => simp [drain_bad hc] at h
  | record xs n hc ih => exact ih (by simpa [drain_record hc] using h)

/-- The records and what is left are the stream. -/
theorem flatten_drain {r : List α} (h : (S.drain xs).2 = some r) :
    (S.drain xs).1.flatten ++ r = xs := by
  induction xs using S.drain_induct with
  | more xs hc => simpa [drain_more hc, eq_comm] using h
  | bad xs hc => simp [drain_bad hc] at h
  | record xs n hc ih =>
    rw [drain_record hc] at h ⊢
    rw [List.flatten_cons, List.append_assoc, ih h, List.take_append_drop]

/-- **Draining does not depend on how the stream was cut**: the records of the first part come
first, and draining goes on from what it left. -/
theorem drain_append (xs ys : List α) :
    S.drain (xs ++ ys) = ((S.drain xs).1 ++ (S.resume (S.drain xs).2 ys).1,
      (S.resume (S.drain xs).2 ys).2) := by
  induction xs using S.drain_induct with
  | more xs hc => simp [drain_more hc, resume]
  | bad xs hc => simp [drain_bad hc, drain_bad (S.bad_append ys hc), resume]
  | record xs n hc ih =>
    have hle := S.le_length hc
    rw [drain_record hc, drain_record (S.record_append ys hc), List.take_append_of_le_length hle,
      List.drop_append_of_le_length hle, ih]
    rfl

theorem drain_fst_append (xs ys : List α) : (S.drain xs).1 <+: (S.drain (xs ++ ys)).1 := by
  rw [drain_append]
  exact List.prefix_append _ _

/-- A row of records drains into these records. -/
theorem drain_flatten {ws : List (List α)}
    (hws : ∀ w ∈ ws, ∀ ys, S.cut (w ++ ys) = .record w.length) (hnil : S.cut [] = .more) :
    S.drain ws.flatten = (ws, some []) := by
  induction ws with
  | nil => exact drain_more hnil
  | cons w ws ih =>
    have hcut := hws w List.mem_cons_self ws.flatten
    rw [List.flatten_cons, drain_record hcut, List.take_left, List.drop_left,
      ih fun v hv => hws v (List.mem_cons_of_mem w hv)]

/-- **A piece of a row of records drains into the first of them**, and what is left is where the
row goes on. -/
theorem drain_of_isPrefix {ws : List (List α)}
    (hws : ∀ w ∈ ws, ∀ ys, S.cut (w ++ ys) = .record w.length) (hnil : S.cut [] = .more)
    (h : xs <+: ws.flatten) : (S.drain xs).1 <+: ws ∧ (S.drain xs).2 ≠ none := by
  obtain ⟨ys, hys⟩ := h
  have hall := drain_flatten hws hnil
  rw [← hys, drain_append, Prod.mk.injEq] at hall
  refine ⟨⟨_, hall.1⟩, fun hnone => ?_⟩
  rw [hnone] at hall
  exact absurd hall.2 (by simp [resume])

variable (S) in
/-- What is left of a stream after some of its records. -/
inductive Left : List α → List α → Prop
  | all (xs : List α) : Left xs xs
  | behind {xs r : List α} {n : ℕ} (hc : S.cut xs = .record n) (h : Left (xs.drop n) r) : Left xs r

/-- Nothing is left exactly when the splitter comes to something bad. -/
theorem drain_snd_eq_none_iff :
    (S.drain xs).2 = none ↔ ∃ r, S.Left xs r ∧ S.cut r = .bad := by
  constructor
  · intro h
    induction xs using S.drain_induct with
    | more xs hc => simp [drain_more hc] at h
    | bad xs hc => exact ⟨xs, .all xs, hc⟩
    | record xs n hc ih =>
      obtain ⟨r, hleft, hbad⟩ := ih (by simpa [drain_record hc] using h)
      exact ⟨r, .behind hc hleft, hbad⟩
  · rintro ⟨r, hleft, hbad⟩
    induction hleft with
    | all xs => rw [drain_bad hbad]
    | behind hc _ ih =>
      rw [drain_record hc]
      exact ih hbad

/-! ## Tracking -/

variable (S) in
/-- A reader of the stream `xs` that has handed `done` on and kept `tail` is on track. -/
def Tracks (xs : List α) (done : List (List α)) (tail : Option (List α)) : Prop :=
  S.drain xs = (done ++ (S.resume tail []).1, (S.resume tail []).2) ∧
    ∀ r, tail = some r → done.flatten ++ r = xs

variable {done : List (List α)} {r : List α}

theorem Tracks.start (S : Splitter α) : S.Tracks [] [] (some []) :=
  ⟨rfl, by simp⟩

/-- More of the stream arrives. -/
theorem Tracks.arrive (h : S.Tracks xs done (some r)) (ys : List α) :
    S.Tracks (xs ++ ys) done (some (r ++ ys)) := by
  obtain ⟨hdrain, hall⟩ := h
  refine ⟨?_, fun r' hr' => ?_⟩
  · simp only [resume, List.append_nil] at hdrain ⊢
    rw [drain_append, drain_append r ys, hdrain, List.append_assoc]
  · obtain rfl : r ++ ys = r' := by simpa using hr'
    rw [← List.append_assoc, hall r rfl]

/-- One record is handed on. -/
theorem Tracks.hand (h : S.Tracks xs done (some r)) (hc : S.cut r = .record n) :
    S.Tracks xs (done ++ [r.take n]) (some (r.drop n)) := by
  obtain ⟨hdrain, hall⟩ := h
  refine ⟨?_, fun r' hr' => ?_⟩
  · simp only [resume, List.append_nil] at hdrain ⊢
    rw [hdrain, drain_record hc, List.append_assoc, List.singleton_append]
  · obtain rfl : r.drop n = r' := by simpa using hr'
    rw [List.flatten_append, List.flatten_singleton, List.append_assoc, List.take_append_drop,
      hall r rfl]

/-- The stream turns out bad. -/
theorem Tracks.bad (h : S.Tracks xs done (some r)) (hc : S.cut r = .bad) :
    S.Tracks xs done none := by
  obtain ⟨hdrain, -⟩ := h
  refine ⟨?_, by simp⟩
  simpa [resume, drain_bad hc] using hdrain

/-- A reader with no whole record in its tail has handed all records on. -/
theorem Tracks.drain_eq (h : S.Tracks xs done (some r)) (hc : S.cut r = .more) :
    S.drain xs = (done, some r) := by
  simpa [resume, drain_more hc] using h.1

/-- What has been handed on are the first records. -/
theorem Tracks.isPrefix {tail : Option (List α)} (h : S.Tracks xs done tail) :
    done <+: (S.drain xs).1 := by
  rw [h.1]
  exact List.prefix_append _ _

end Splitter

end Mlvm.Framing
