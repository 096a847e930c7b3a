import Mathlib.Data.List.Nodup
import Mathlib.Data.Nat.Find

/-!
# Linear probing

A table of `p` slots. A pair is put into the first **free** slot from the place of its key on, going
around; a key is sought the same way, up to the slot that holds it or the first free one. A key is
**settled** when no slot before its own stops the search for it, so filling further slots never
hides it. As long as one slot is free, a search finds the pair that came first, or that there is
none.

Keys may be put into free slots of their own accord, without regard to their place; only the keys
that satisfy `good` are put where a search begins.
-/

namespace Probing

variable {K V : Type} [DecidableEq K]

/-- What each slot holds. -/
abbrev Table (K V : Type) := Nat → Option (K × V)

/-- A slot ends the search for `k` when it is free or holds `k`. -/
def stops (t : Table K V) (k : K) (j : Nat) : Bool :=
  match t j with
  | none => true
  | some x => x.1 = k

/-- The first slot that ends the search for `k`, with `n` probes from slot `i` on. -/
def seek (t : Table K V) (p : Nat) (k : K) : Nat → Nat → Option Nat
  | 0, _ => none
  | n + 1, i => if stops t k i then some i else seek t p k n ((i + 1) % p)

/-- Put a pair where the search for its key ends, unless the key is there. -/
def insert (t : Table K V) (p : Nat) (k : K) (v : V) (n i : Nat) : Table K V :=
  match seek t p k n i with
  | none => t
  | some j => if (t j).isNone then Function.update t j (some (k, v)) else t

/-- The slot `d` places on is the first that ends the search for `k` from `i`. -/
structure FirstStop (t : Table K V) (p : Nat) (k : K) (i d : Nat) : Prop where
  stop : stops t k ((i + d) % p) = true
  before : ∀ e < d, stops t k ((i + e) % p) = false

/-- `k` is in the table with `v`, and the search from `i` on comes to it. -/
def Settled (t : Table K V) (p i : Nat) (k : K) (v : V) : Prop :=
  ∃ d < p, FirstStop t p k i d ∧ t ((i + d) % p) = some (k, v)

/-- No slot holds `k`. -/
def Absent (t : Table K V) (p : Nat) (k : K) : Prop :=
  ∀ j < p, ∀ x, t j = some x → x.1 ≠ k

/-- How many slots are taken. -/
def used (t : Table K V) (p : Nat) : Nat :=
  (List.range p).countP fun j => (t j).isSome

variable {t : Table K V} {p i d j n : Nat} {k k' : K} {v v' : V}

theorem stops_of_none (h : t j = none) : stops t k j = true := by
  rw [stops, h]

theorem stops_self (h : t j = some (k, v)) : stops t k j = true := by
  rw [stops, h]
  exact decide_eq_true rfl

theorem ne_none_of_not_stops (h : stops t k j = false) : t j ≠ none := fun hj => by
  rw [stops_of_none hj] at h
  cases h

theorem none_of_stops (h : stops t k j = true) (hk : ∀ x, t j = some x → x.1 ≠ k) :
    t j = none := by
  cases hj : t j with
  | none => rfl
  | some x =>
      rw [stops, hj] at h
      exact absurd (of_decide_eq_true h) (hk x hj)

/-! ## Searching -/

/-- A search with enough probes ends at the first slot that stops it. -/
theorem seek_eq (hi : i < p) (hd : FirstStop t p k i d) (hn : d < n) :
    seek t p k n i = some ((i + d) % p) := by
  induction d generalizing i n with
  | zero =>
      obtain ⟨n, rfl⟩ := Nat.exists_eq_succ_of_ne_zero (Nat.ne_of_gt hn)
      have hstop := hd.stop
      rw [Nat.add_zero, Nat.mod_eq_of_lt hi] at hstop ⊢
      rw [seek, if_pos hstop]
  | succ d ih =>
      obtain ⟨n, rfl⟩ := Nat.exists_eq_succ_of_ne_zero (Nat.ne_zero_of_lt hn)
      have hfirst := hd.before 0 (Nat.succ_pos d)
      rw [Nat.add_zero, Nat.mod_eq_of_lt hi] at hfirst
      have hnext : ∀ e, ((i + 1) % p + e) % p = (i + (e + 1)) % p := fun e => by
        rw [Nat.mod_add_mod, Nat.add_assoc, Nat.add_comm 1 e]
      rw [seek, hfirst, if_neg Bool.false_ne_true, ← hnext d]
      refine ih (Nat.mod_lt _ (Nat.lt_of_le_of_lt (Nat.zero_le _) hi))
        ⟨?_, fun e he => ?_⟩ (Nat.lt_of_succ_lt_succ hn)
      · rw [hnext]
        exact hd.stop
      · rw [hnext]
        exact hd.before (e + 1) (Nat.succ_lt_succ he)

/-- Every slot is met within `p` probes. -/
theorem exists_probe (hi : i < p) (hj : j < p) : ∃ d < p, (i + d) % p = j := by
  by_cases hle : i ≤ j
  · exact ⟨j - i, by omega, by rw [Nat.add_sub_cancel' hle, Nat.mod_eq_of_lt hj]⟩
  · refine ⟨j + p - i, by omega, ?_⟩
    rw [show i + (j + p - i) = j + p by omega, Nat.add_mod_right, Nat.mod_eq_of_lt hj]

/-- When some slot ends the search, there is a first one. -/
theorem exists_firstStop (hi : i < p) (hj : j < p) (hstop : stops t k j = true) :
    ∃ d < p, FirstStop t p k i d := by
  obtain ⟨d₀, hd₀, rfl⟩ := exists_probe hi hj
  have hex : ∃ d, stops t k ((i + d) % p) = true := ⟨d₀, hstop⟩
  refine ⟨Nat.find hex, Nat.lt_of_le_of_lt (Nat.find_min' hex hstop) hd₀, Nat.find_spec hex,
    fun e he => ?_⟩
  exact Bool.eq_false_iff.mpr (Nat.find_min hex he)

/-- The search for an absent key ends at a free slot. -/
theorem Absent.free (h : Absent t p k) (hp : 0 < p) (hd : FirstStop t p k i d) :
    t ((i + d) % p) = none :=
  none_of_stops hd.stop (h _ (Nat.mod_lt _ hp))

omit [DecidableEq K] in
theorem exists_free (h : used t p < p) : ∃ j < p, t j = none := by
  by_contra hno
  have hall : ∀ j ∈ List.range p, (t j).isSome = true := fun j hj => by
    rw [Option.isSome_iff_ne_none]
    exact fun hnone => hno ⟨j, List.mem_range.mp hj, hnone⟩
  have hcount := List.countP_eq_length.mpr hall
  rw [used, hcount, List.length_range] at h
  exact Nat.lt_irrefl p h

/-! ## Filling free slots -/

omit [DecidableEq K] in
theorem update_eq_of_ne_none {x : K × V} {j' : Nat} (hj : t j = none) (hj' : t j' ≠ none) :
    Function.update t j (some x) j' = t j' :=
  Function.update_of_ne (fun h => hj' (by rw [h, hj])) ..

/-- A free slot that is filled hides nothing. -/
theorem Settled.fill (h : Settled t p i k v) (hj : t j = none) (x : K × V) :
    Settled (Function.update t j (some x)) p i k v := by
  obtain ⟨d, hd, hstop, hslot⟩ := h
  have hkeep : ∀ {j'}, t j' ≠ none → stops (Function.update t j (some x)) k j' = stops t k j' :=
    fun hj' => by rw [stops, update_eq_of_ne_none hj hj', stops]
  have hsome : t ((i + d) % p) ≠ none := fun hnone => by
    rw [hnone] at hslot
    cases hslot
  refine ⟨d, hd, ⟨?_, fun e he => ?_⟩, ?_⟩
  · rw [hkeep hsome]
    exact hstop.stop
  · rw [hkeep (ne_none_of_not_stops (hstop.before e he))]
    exact hstop.before e he
  · rw [update_eq_of_ne_none hj hsome, hslot]

omit [DecidableEq K] in
theorem Absent.fill (h : Absent t p k) (hk : k' ≠ k) :
    Absent (Function.update t j (some (k', v'))) p k := by
  intro j' hj' x hx
  by_cases hjj : j' = j
  · rw [hjj, Function.update_self, Option.some.injEq] at hx
    rw [← hx]
    exact hk
  · rw [Function.update_of_ne hjj] at hx
    exact h j' hj' x hx

omit [DecidableEq K] in
theorem used_fill (x : K × V) : used (Function.update t j (some x)) p ≤ used t p + 1 := by
  have hone : (List.range p).countP (fun j' => decide (j' = j)) ≤ 1 := by
    have hcount := List.nodup_iff_count_le_one.mp (List.nodup_range (n := p)) j
    rwa [List.count_eq_countP] at hcount
  refine Nat.le_trans ?_ (Nat.add_le_add_left hone _)
  rw [used, used]
  generalize List.range p = l
  induction l with
  | nil => exact Nat.le_refl _
  | cons j' l ih =>
      simp only [List.countP_cons]
      by_cases hjj : j' = j
      · subst hjj
        simp only [Function.update_self, Option.isSome_some, if_true, decide_true]
        omega
      · simp only [Function.update_of_ne hjj, hjj, decide_false, Bool.false_eq_true, if_false]
        omega

/-- A key that is put into the slot where the search for it ends is settled. -/
theorem Absent.settle (h : Absent t p k) (hp : 0 < p) (hd : d < p) (hstop : FirstStop t p k i d) :
    Settled (Function.update t ((i + d) % p) (some (k, v))) p i k v := by
  have hfree := h.free hp hstop
  refine ⟨d, hd, ⟨stops_self (Function.update_self ..), fun e he => ?_⟩, Function.update_self ..⟩
  have hbefore := hstop.before e he
  rwa [stops, update_eq_of_ne_none hfree (ne_none_of_not_stops hbefore), ← stops]

/-! ## Tables built from a list -/

/-- The table holds the first pair of each good key of the list where the search from `start`
finds it, and no other good keys. -/
structure Built (good : K → Prop) (start : K → Nat) (t : Table K V) (p : Nat)
    (l : List (K × V)) : Prop where
  settled : ∀ k v, good k → l.lookup k = some v → Settled t p (start k) k v
  absent : ∀ k, good k → l.lookup k = none → Absent t p k
  used : used t p ≤ l.length

variable {good : K → Prop} {start : K → Nat} {l : List (K × V)}

theorem lookup_append_of_ne (h : k ≠ k') : (l ++ [(k', v')]).lookup k = l.lookup k := by
  rw [List.lookup_append, List.lookup_cons, List.lookup_nil]
  simp [beq_eq_false_iff_ne.mpr h]

theorem lookup_append_self : (l ++ [(k, v)]).lookup k = (l.lookup k).or (some v) := by
  rw [List.lookup_append, List.lookup_cons, beq_self_eq_true]

/-- **Insertion**: the first pair of a key stays, and as long as a slot is free a new key gets
one. -/
theorem Built.insert (h : Built good start t p l) (hstart : start k' < p) (hlen : l.length < p) :
    Built good start (insert t p k' v' p (start k')) p (l ++ [(k', v')]) := by
  have hp : 0 < p := Nat.lt_of_le_of_lt (Nat.zero_le _) hstart
  obtain ⟨j, hj, hfree⟩ := exists_free (Nat.lt_of_le_of_lt h.used hlen)
  obtain ⟨d, hd, hstop⟩ := exists_firstStop hstart hj (stops_of_none (k := k') hfree)
  rw [Probing.insert, seek_eq hstart hstop hd]
  dsimp only
  split_ifs with hnone
  · have hslot : t ((start k' + d) % p) = none := Option.isNone_iff_eq_none.mp hnone
    have hnot : good k' → l.lookup k' = none := fun hgood => by
      cases hlook : l.lookup k' with
      | none => rfl
      | some v =>
          -- the search would have ended at the key itself
          obtain ⟨d', hd', hstop', hslot'⟩ := h.settled k' v hgood hlook
          have hdd : d' = d := by
            rcases Nat.lt_trichotomy d d' with hlt | heq | hlt
            · exact absurd hstop.stop (by rw [hstop'.before d hlt]; exact Bool.false_ne_true)
            · exact heq.symm
            · exact absurd hstop'.stop (by rw [hstop.before d' hlt]; exact Bool.false_ne_true)
          rw [hdd, hslot] at hslot'
          cases hslot'
    refine ⟨fun k v hgood hlook => ?_, fun k hgood hlook => ?_, ?_⟩
    · by_cases hk : k = k'
      · subst hk
        rw [lookup_append_self, hnot hgood, Option.none_or, Option.some.injEq] at hlook
        subst hlook
        exact (h.absent k hgood (hnot hgood)).settle hp hd hstop
      · rw [lookup_append_of_ne hk] at hlook
        exact (h.settled k v hgood hlook).fill hslot _
    · by_cases hk : k = k'
      · subst hk
        rw [lookup_append_self, hnot hgood] at hlook
        cases hlook
      · rw [lookup_append_of_ne hk] at hlook
        exact (h.absent k hgood hlook).fill (Ne.symm hk)
    · rw [List.length_append]
      exact Nat.le_trans (used_fill _) (Nat.succ_le_succ h.used)
  · have hslot : t ((start k' + d) % p) ≠ none := fun heq => hnone (by rw [heq]; rfl)
    refine ⟨fun k v hgood hlook => ?_, fun k hgood hlook => ?_, ?_⟩
    · by_cases hk : k = k'
      · subst hk
        rw [lookup_append_self] at hlook
        cases hold : l.lookup k with
        | none => exact absurd ((h.absent k hgood hold).free hp hstop) hslot
        | some v₀ =>
            rw [hold, Option.some_or, Option.some.injEq] at hlook
            exact hlook ▸ h.settled k v₀ hgood hold
      · rw [lookup_append_of_ne hk] at hlook
        exact h.settled k v hgood hlook
    · by_cases hk : k = k'
      · subst hk
        rw [lookup_append_self] at hlook
        cases hold : l.lookup k <;> rw [hold] at hlook <;> cases hlook
      · rw [lookup_append_of_ne hk] at hlook
        exact h.absent k hgood hlook
    · rw [List.length_append]
      exact Nat.le_add_right_of_le h.used

/-- **A search in a built table** ends after fewer than `p` probes, at the first pair of its key or
at a free slot. -/
theorem Built.search (h : Built good start t p l) (hlen : l.length < p) (hgood : good k)
    (hstart : start k < p) :
    ∃ d < p, FirstStop t p k (start k) d ∧
      t ((start k + d) % p) = (l.lookup k).map fun v => (k, v) := by
  have hp : 0 < p := Nat.lt_of_le_of_lt (Nat.zero_le _) hstart
  cases hlook : l.lookup k with
  | some v => exact h.settled k v hgood hlook
  | none =>
      obtain ⟨j, hj, hfree⟩ := exists_free (Nat.lt_of_le_of_lt h.used hlen)
      obtain ⟨d, hd, hstop⟩ := exists_firstStop hstart hj (stops_of_none (k := k) hfree)
      exact ⟨d, hd, hstop, (h.absent k hgood hlook).free hp hstop⟩

end Probing
