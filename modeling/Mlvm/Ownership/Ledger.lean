import Mathlib.Data.Finset.Basic
import Mathlib.Data.List.Count

/-!
# A ledger of what is held

Code that allocates, frees, locks and unlocks leaves a **trace**: a list of moves, each of which
takes a handle, uses it or gives it away. The ledger plays a trace from the set of handles held
at its start, and has no answer as soon as a handle is taken twice, or used or given away while
it is not held.

A trace that plays to the empty set therefore gives each handle it takes away exactly once
(`count_give`) and touches none after that (`not_mem_of_play_give`). A trace is played part by
part (`play_append_of`), and what no part gives away is held at its end (`mem_of_play`).
-/

namespace Mlvm.Ownership

variable {H : Type*} [DecidableEq H]

/-- What one step of the code does to a handle. -/
inductive Move (H : Type*) where
  | take (h : H)
  | use (h : H)
  | give (h : H)
  deriving DecidableEq, Repr

/-- The set held after a move, if the move is in order. -/
def Move.apply (s : Finset H) : Move H → Option (Finset H)
  | .take h => if h ∈ s then none else some (insert h s)
  | .use h => if h ∈ s then some s else none
  | .give h => if h ∈ s then some (s.erase h) else none

/-- The set held after a trace, if all its moves are in order. -/
def play (s : Finset H) : List (Move H) → Option (Finset H)
  | [] => some s
  | m :: ms => (m.apply s).bind fun s' => play s' ms

variable {s s' : Finset H} {ms ns : List (Move H)} {m : Move H} {h : H}

@[simp] theorem play_nil : play s [] = some s := rfl

theorem play_cons : play s (m :: ms) = (m.apply s).bind fun s' => play s' ms := rfl

@[simp] theorem play_take : play s (.take h :: ms) =
    if h ∈ s then none else play (insert h s) ms := by
  rw [play_cons, Move.apply]
  split <;> rfl

@[simp] theorem play_use : play s (.use h :: ms) = if h ∈ s then play s ms else none := by
  rw [play_cons, Move.apply]
  split <;> rfl

@[simp] theorem play_give : play s (.give h :: ms) =
    if h ∈ s then play (s.erase h) ms else none := by
  rw [play_cons, Move.apply]
  split <;> rfl

theorem play_append : play s (ms ++ ns) = (play s ms).bind fun s' => play s' ns := by
  induction ms generalizing s with
  | nil => rfl
  | cons m ms ih =>
    rw [List.cons_append, play_cons, play_cons, Option.bind_assoc]
    exact Option.bind_congr fun _ _ => ih

/-- A part that plays to `s'` can be passed over. -/
theorem play_append_of (hp : play s ms = some s') : play s (ms ++ ns) = play s' ns := by
  rw [play_append, hp, Option.bind_some]

theorem play_append_of_none (hp : play s ms = none) : play s (ms ++ ns) = none := by
  rw [play_append, hp, Option.bind_none]

/-! ## Given away exactly once -/

/-- What one move does to a handle's account. -/
theorem Move.apply_count (hm : m.apply s = some s') :
    List.count (.give h) [m] + (if h ∈ s' then 1 else 0) =
      List.count (.take h) [m] + if h ∈ s then 1 else 0 := by
  cases m with
  | take k =>
    by_cases hk : k ∈ s <;> simp only [Move.apply, hk, if_true, if_false] at hm
    · cases hm
    · obtain rfl := Option.some.inj hm
      by_cases heq : k = h
      · simp [heq, heq ▸ hk]
      · simp [heq, Ne.symm heq]
  | use k =>
    by_cases hk : k ∈ s <;> simp only [Move.apply, hk, if_true, if_false] at hm
    · obtain rfl := Option.some.inj hm
      simp
    · cases hm
  | give k =>
    by_cases hk : k ∈ s <;> simp only [Move.apply, hk, if_true, if_false] at hm
    · obtain rfl := Option.some.inj hm
      by_cases heq : k = h
      · simp [heq, heq ▸ hk]
      · simp [heq, Ne.symm heq]
    · cases hm

/-- **The account of a handle.** It is given away as often as it was held or taken, less the once
it is still held. -/
theorem count_give (hp : play s ms = some s') :
    ms.count (.give h) + (if h ∈ s' then 1 else 0) =
      ms.count (.take h) + if h ∈ s then 1 else 0 := by
  induction ms generalizing s with
  | nil =>
    obtain rfl := Option.some.inj hp
    rfl
  | cons m ms ih =>
    rw [play_cons, Option.bind_eq_some_iff] at hp
    obtain ⟨s₁, hm, hp⟩ := hp
    have hone := Move.apply_count (h := h) hm
    have hrest := ih hp
    rw [← List.singleton_append, List.count_append, List.count_append]
    omega

/-- What is not given away stays held. -/
theorem mem_of_play (hp : play s ms = some s') (hh : h ∈ s) (hg : .give h ∉ ms) : h ∈ s' := by
  have hcount := count_give (h := h) hp
  rw [List.count_eq_zero.2 hg, if_pos hh] at hcount
  by_contra hnot
  rw [if_neg hnot] at hcount
  omega

/-- Once given away and not taken again, a handle is neither used nor given away. -/
theorem not_mem_of_play (hp : play s ms = some s') (hh : h ∉ s) (ht : .take h ∉ ms) :
    .use h ∉ ms ∧ .give h ∉ ms := by
  induction ms generalizing s with
  | nil => simp
  | cons m ms ih =>
    rw [play_cons, Option.bind_eq_some_iff] at hp
    obtain ⟨s₁, hm, hp⟩ := hp
    rw [List.mem_cons, not_or] at ht
    have hs₁ : h ∉ s₁ := by
      have hone := Move.apply_count (h := h) hm
      have hnot : List.count (.take h) [m] = 0 := by
        rw [List.count_eq_zero, List.mem_singleton]
        exact ht.1
      rw [hnot, if_neg hh] at hone
      intro hin
      rw [if_pos hin] at hone
      omega
    have hrest := ih hp hs₁ ht.2
    constructor <;> rw [List.mem_cons, not_or]
    · refine ⟨?_, hrest.1⟩
      rintro rfl
      simp [Move.apply, hh] at hm
    · refine ⟨?_, hrest.2⟩
      rintro rfl
      simp [Move.apply, hh] at hm

/-- **Nothing is touched after it was given away.** -/
theorem not_mem_of_play_give (hp : play s (ms ++ .give h :: ns) = some s') (ht : .take h ∉ ns) :
    .use h ∉ ns ∧ .give h ∉ ns := by
  rw [play_append, Option.bind_eq_some_iff] at hp
  obtain ⟨s₁, -, hp⟩ := hp
  rw [play_give] at hp
  split at hp
  · exact not_mem_of_play hp (Finset.notMem_erase h s₁) ht
  · cases hp

end Mlvm.Ownership
