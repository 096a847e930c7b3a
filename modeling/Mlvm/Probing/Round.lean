import Mathlib.Data.List.Basic

/-!
# Probing a table around

The slots below `p`, looked at one after the other from some slot on and going around at the end.

**`probe_eq_some`**, **`probe_eq_none`.** What a probe of all slots gives: the first slot that stops
it, or that none does.
-/

namespace Probing

/-- The slot after `i`. -/
def next (p i : ℕ) : ℕ := if i = p - 1 then 0 else i + 1

/-- The first slot from `i` on that stops the probe, when `n` slots are looked at. -/
def probe (p : ℕ) (stop : ℕ → Bool) : ℕ → ℕ → Option ℕ
  | 0, _ => none
  | n + 1, i => if stop i then some i else probe p stop n (next p i)

/-- How many slots on from `i` the slot `j` is. -/
def dist (p i j : ℕ) : ℕ := if i ≤ j then j - i else j + p - i

variable {p i j n : ℕ} {stop : ℕ → Bool}

theorem next_lt (hi : i < p) : next p i < p := by
  rw [next]
  split_ifs <;> omega

theorem dist_lt (hi : i < p) (hj : j < p) : dist p i j < p := by
  rw [dist]
  split_ifs <;> omega

theorem dist_self (p i : ℕ) : dist p i i = 0 := by
  rw [dist, if_pos (Nat.le_refl i), Nat.sub_self]

theorem dist_inj {k : ℕ} (hi : i < p) (hj : j < p) (hk : k < p) (h : dist p i j = dist p i k) :
    j = k := by
  rw [dist, dist] at h
  split_ifs at h <;> omega

/-- One slot further. -/
theorem dist_next (hi : i < p) (hj : j < p) (hne : i ≠ j) :
    dist p i j = dist p (next p i) j + 1 := by
  rw [dist, dist, next]
  split_ifs <;> omega

/-- Nothing before `j` stops a probe from `i`, and `j` does. -/
structure Stops (p : ℕ) (stop : ℕ → Bool) (i j : ℕ) : Prop where
  lt : j < p
  here : stop j = true
  before : ∀ k < p, dist p i k < dist p i j → stop k = false

theorem probe_eq_some_of (hi : i < p) (h : Stops p stop i j) (hn : dist p i j < n) :
    probe p stop n i = some j := by
  induction n generalizing i with
  | zero => exact absurd hn (Nat.not_lt_zero _)
  | succ n ih =>
    rw [probe]
    by_cases heq : i = j
    · rw [heq, if_pos h.here]
    · have hnext := dist_next hi h.lt heq
      have hfirst : stop i = false := by
        apply h.before i hi
        rw [dist_self]
        omega
      rw [if_neg (by rw [hfirst]; exact Bool.false_ne_true)]
      apply ih (next_lt hi) ⟨h.lt, h.here, ?_⟩ (by omega)
      intro k hk hlt
      by_cases hik : i = k
      · rwa [← hik]
      · apply h.before k hk
        have := dist_next hi hk hik
        omega

theorem probe_eq_none_of (hi : i < p) (h : ∀ k < p, stop k = false) (n : ℕ) :
    probe p stop n i = none := by
  induction n generalizing i with
  | zero => rfl
  | succ n ih =>
    rw [probe, h i hi]
    exact ih (next_lt hi)

/-- When some slot stops the probe, there is a first one. -/
theorem exists_stops (i : ℕ) (hj : j < p) (hstop : stop j = true) : ∃ k, Stops p stop i k := by
  induction hd : dist p i j using Nat.strongRecOn generalizing j with
  | ind d ih =>
    by_cases hbefore : ∀ k < p, dist p i k < dist p i j → stop k = false
    · exact ⟨j, hj, hstop, hbefore⟩
    · simp only [not_forall] at hbefore
      obtain ⟨k, hk, hlt, hne⟩ := hbefore
      rw [Bool.not_eq_false] at hne
      exact ih _ (hd ▸ hlt) hk hne rfl

/-- **A probe of all slots** gives the first slot that stops it. -/
theorem probe_eq_some (hi : i < p) : probe p stop p i = some j ↔ Stops p stop i j := by
  constructor
  · intro h
    by_cases hnone : ∀ k < p, stop k = false
    · rw [probe_eq_none_of hi hnone] at h
      cases h
    · simp only [not_forall, Bool.not_eq_false] at hnone
      obtain ⟨k, hk, hstop⟩ := hnone
      obtain ⟨l, hl⟩ := exists_stops i hk hstop
      rw [probe_eq_some_of hi hl (dist_lt hi hl.lt)] at h
      obtain rfl := Option.some.inj h
      exact hl
  · intro h
    exact probe_eq_some_of hi h (dist_lt hi h.lt)

/-- **No slot** stops it. -/
theorem probe_eq_none (hi : i < p) : probe p stop p i = none ↔ ∀ k < p, stop k = false := by
  constructor
  · intro h k hk
    by_contra hne
    obtain ⟨l, hl⟩ := exists_stops i hk (Bool.not_eq_false _ ▸ hne)
    rw [(probe_eq_some hi).2 hl] at h
    cases h
  · intro h
    exact probe_eq_none_of hi h p

end Probing
