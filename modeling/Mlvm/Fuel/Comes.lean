import Mathlib.Data.Option.Basic
import Mathlib.Order.Lattice

/-!
# Loops with a bound on their rounds

A loop that need not end is a family of computations `g n`, where `n` bounds the rounds and `none`
says that the bound was too small.

**`Comes g o`**: the loop comes to `o`. When `o` is a result, every bound that is large enough gives
this result and every other bound gives none; when `o` is `none`, the loop does not end.
-/

namespace Fuel

variable {α β : Type*} {g : ℕ → Option α} {o : Option α}

/-- No bound gives another result than `o`, and the large ones give it. -/
structure Comes (g : ℕ → Option α) (o : Option α) : Prop where
  only : ∀ n a, g n = some a → o = some a
  large : ∀ a, o = some a → ∃ n, ∀ k, n ≤ k → g k = some a

theorem Comes.exists_iff (h : Comes g o) (a : α) : (∃ n, g n = some a) ↔ o = some a := by
  constructor
  · rintro ⟨n, hn⟩
    exact h.only n a hn
  · intro ho
    obtain ⟨n, hn⟩ := h.large a ho
    exact ⟨n, hn n (Nat.le_refl n)⟩

theorem Comes.congr {g' : ℕ → Option α} (h : Comes g o) (hg : ∀ n, g' n = g n) : Comes g' o := by
  rwa [funext hg]

/-- Without a loop. -/
theorem comes_const (o : Option α) : Comes (fun _ => o) o :=
  ⟨fun _ _ h => h, fun _ h => ⟨0, fun _ _ => h⟩⟩

theorem comes_none (h : ∀ n, g n = none) : Comes g none :=
  ⟨fun n a ha => absurd ((h n).symm.trans ha) (by simp), fun _ h => absurd h (by simp)⟩

/-- **One after the other.** -/
theorem Comes.bind {a : α} {k : ℕ → α → Option β} {p : Option β} (hg : Comes g (some a))
    (hk : Comes (fun n => k n a) p) : Comes (fun n => (g n).bind (k n)) p := by
  refine ⟨fun n b h => ?_, fun b hb => ?_⟩
  · obtain ⟨a', ha', hb⟩ := Option.bind_eq_some_iff.1 h
    obtain rfl := Option.some.inj (hg.only n a' ha')
    exact hk.only n b hb
  · obtain ⟨n, hn⟩ := hg.large a rfl
    obtain ⟨n', hn'⟩ := hk.large b hb
    refine ⟨max n n', fun m hm => ?_⟩
    rw [hn m (Nat.le_trans (Nat.le_max_left _ _) hm), Option.bind_some]
    exact hn' m (Nat.le_trans (Nat.le_max_right _ _) hm)

/-- What follows a loop that does not end. -/
theorem Comes.bind_none (h : Comes g none) (k : ℕ → α → Option β) :
    Comes (fun n => (g n).bind (k n)) none := by
  refine comes_none fun n => Option.bind_eq_none_iff.2 fun a ha => ?_
  exact absurd (h.only n a ha) (by simp)

theorem Comes.map (h : Comes g o) (f : α → β) : Comes (fun n => (g n).map f) (o.map f) := by
  refine ⟨fun n b hb => ?_, fun b hb => ?_⟩
  · obtain ⟨a, ha, rfl⟩ := Option.map_eq_some_iff.1 hb
    rw [h.only n a ha, Option.map_some]
  · obtain ⟨a, ha, rfl⟩ := Option.map_eq_some_iff.1 hb
    obtain ⟨n, hn⟩ := h.large a ha
    exact ⟨n, fun k hk => by rw [hn k hk, Option.map_some]⟩

/-- **One round.** -/
theorem Comes.of_succ (hzero : g 0 = none) (h : Comes (fun n => g (n + 1)) o) : Comes g o := by
  refine ⟨fun n a ha => ?_, fun a ha => ?_⟩
  · cases n with
    | zero => exact absurd (hzero.symm.trans ha) (by simp)
    | succ n => exact h.only n a ha
  · obtain ⟨n, hn⟩ := h.large a ha
    refine ⟨n + 1, fun k hk => ?_⟩
    obtain ⟨k, rfl⟩ := Nat.exists_eq_add_of_le' (Nat.le_trans (Nat.le_add_left 1 n) hk)
    exact hn k (Nat.le_of_succ_le_succ hk)

/-- What a loop comes to depends on the rest of it only. -/
theorem Comes.unique {o' : Option α} (h : Comes g o) (h' : Comes g o') : o = o' := by
  refine Option.ext fun a => ?_
  rw [← h.exists_iff, h'.exists_iff]

end Fuel
