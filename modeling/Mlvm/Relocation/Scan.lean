import Mathlib.Data.List.Basic
import Mathlib.Logic.Function.Basic

/-!
# Scanning a segment

A segment of a memory is a sequence of **items** of one or more words. A *layout* reads from the
words at an address the kinds of the words of the item there. A **scan** goes over a segment item by
item and puts every word, changed as its kind asks, at the same offset of another segment or of its
own.

As long as the scan does not run into words it still has to read, the result is what each word
alone would become: **`scan_copied`**.
-/

namespace Relocation

variable {W K : Type}

/-- The kinds of the words of the item at an address. -/
abbrev Layout (W K : Type) := (Int → W) → Int → Option (List K)

/-- Every word is an item. -/
def single : Layout W Unit := fun _ _ => some [()]

/-- The words from `p` on are whole items, of these kinds. -/
inductive Tiled (lay : Layout W K) (m : Int → W) : Int → List K → Prop
  | nil (p : Int) : Tiled lay m p []
  | cons {p : Int} {item ks : List K} (h : lay m p = some item) (hne : item ≠ [])
      (hrest : Tiled lay m (p + item.length) ks) : Tiled lay m p (item ++ ks)

/-- A layout that depends on the words of the item only, and not on their place. -/
def Local (lay : Layout W K) : Prop := ∀ m m' p p' item, lay m p = some item →
  (∀ i < item.length, m' (p' + (i : Nat)) = m (p + (i : Nat))) → lay m' p' = some item

/-- The words at `q` are those at `p`, changed by `act`; all others are as before. -/
structure Copied (act : K → W → W) (m m' : Int → W) (p q : Int) (ks : List K) : Prop where
  word : ∀ (i : Nat) (k : K), ks[i]? = some k → m' (q + i) = act k (m (p + i))
  frame : ∀ x, x < q ∨ q + ks.length ≤ x → m' x = m x

/-- Put the words of one item. -/
def scanItem (act : K → W → W) (p q : Int) : List K → (Int → W) → Int → W
  | [], m => m
  | k :: ks, m => scanItem act (p + 1) (q + 1) ks (Function.update m q (act k (m p)))

/-- `while (q < stop)`: put the item at `p` to `q`, and go on after it; `n` bounds the items. -/
def scan (lay : Layout W K) (act : K → W → W) : Nat → Int → Int → Int → (Int → W) → Int → W
  | 0, _, _, _, m => m
  | n + 1, p, q, stop, m =>
      if q < stop then
        match lay m p with
        | none => m
        | some item =>
            scan lay act n (p + item.length) (q + item.length) stop (scanItem act p q item m)
      else m

variable {lay : Layout W K} {act : K → W → W} {m m' m'' : Int → W} {p q : Int} {ks ks' : List K}

theorem local_single : Local (single : Layout W Unit) := fun _ _ _ _ _ h _ => h

theorem tiled_single (m : Int → W) (p : Int) (n : Nat) :
    Tiled single m p (List.replicate n ()) := by
  induction n generalizing p with
  | zero => exact .nil p
  | succ n ih => exact .cons (rfl : single m p = some [()]) (List.cons_ne_nil _ _) (ih _)

/-- The same words at another place have the same items. -/
theorem Tiled.move (h : Tiled lay m p ks) (hlay : Local lay)
    (hsame : ∀ i < ks.length, m' (q + (i : Nat)) = m (p + (i : Nat))) : Tiled lay m' q ks := by
  induction h generalizing q with
  | nil p => exact .nil q
  | @cons p item ks h hne hrest ih =>
      rw [List.length_append] at hsame
      refine .cons (hlay m m' p q item h fun i hi => hsame i (by omega)) hne (ih fun i hi => ?_)
      have hplace : ∀ x : Int, x + item.length + (i : Nat) = x + ((item.length + i : Nat) : Int) :=
        fun x => by omega
      rw [hplace, hplace]
      exact hsame _ (by omega)

theorem Copied.nil (act : K → W → W) (m : Int → W) (p q : Int) : Copied act m m p q [] :=
  ⟨fun i k h => by simp at h, fun _ _ => rfl⟩

theorem Copied.append (h : Copied act m m' p q ks)
    (h' : Copied act m' m'' (p + ks.length) (q + ks.length) ks')
    (hsame : ∀ i < ks'.length, m' (p + ks.length + (i : Nat)) = m (p + ks.length + (i : Nat))) :
    Copied act m m'' p q (ks ++ ks') := by
  refine ⟨fun i k hk => ?_, fun x hx => ?_⟩
  · by_cases hi : i < ks.length
    · rw [List.getElem?_append_left hi] at hk
      rw [h'.frame _ (by omega), h.word i k hk]
    · rw [List.getElem?_append_right (Nat.le_of_not_lt hi)] at hk
      have hlt := (List.getElem?_eq_some_iff.mp hk).1
      have hq : q + (i : Nat) = q + ks.length + (i - ks.length : Nat) := by omega
      have hp : p + (i : Nat) = p + ks.length + (i - ks.length : Nat) := by omega
      rw [hq, h'.word _ k hk, hsame _ hlt, hp]
  · rw [List.length_append] at hx
    rw [h'.frame x (by omega), h.frame x (by omega)]

/-- An item is copied, when it is put in front of the words still to be read or behind them. -/
theorem scanItem_copied (h : q ≤ p ∨ p + ks.length ≤ q) :
    Copied act m (scanItem act p q ks m) p q ks := by
  induction ks generalizing m p q with
  | nil => exact .nil act m p q
  | cons k ks ih =>
      rw [List.length_cons] at h
      obtain ⟨hword, hframe⟩ := ih (m := Function.update m q (act k (m p))) (p := p + 1)
        (q := q + 1)
        (by omega)
      refine ⟨fun i k' hk' => ?_, fun x hx => ?_⟩
      · cases i with
        | zero =>
            obtain rfl := Option.some.inj hk'
            rw [Int.natCast_zero, Int.add_zero, Int.add_zero, scanItem, hframe q (by omega)]
            exact Function.update_self ..
        | succ i =>
            rw [List.getElem?_cons_succ] at hk'
            have hlt : i < ks.length := (List.getElem?_eq_some_iff.mp hk').1
            have hq : q + ((i + 1 : Nat) : Int) = q + 1 + i := by omega
            have hp : p + ((i + 1 : Nat) : Int) = p + 1 + i := by omega
            rw [hq, hp, scanItem, hword i k' hk', Function.update_of_ne (by omega)]
      · rw [List.length_cons] at hx
        rw [scanItem, hframe x (by omega)]
        exact Function.update_of_ne (by omega) ..

/-- **A scan copies** the whole segment. -/
theorem scan_copied (hlay : Local lay) (h : Tiled lay m p ks) {stop : Int}
    (hstop : stop = q + ks.length) {n : Nat} (hn : ks.length ≤ n)
    (hapart : q ≤ p ∨ p + ks.length ≤ q) :
    Copied act m (scan lay act n p q stop m) p q ks := by
  induction n generalizing m p q ks with
  | zero =>
      obtain rfl := List.eq_nil_of_length_eq_zero (Nat.le_zero.mp hn)
      exact .nil act m p q
  | succ n ih =>
      cases h with
      | nil =>
          rw [scan, if_neg (by simp only [List.length_nil] at hstop; omega)]
          exact .nil act m p q
      | @cons _ item ks hitem hne hrest =>
          have hpos : 0 < item.length := List.length_pos_iff.mpr hne
          rw [List.length_append] at hn hstop hapart
          have hcopied : Copied act m (scanItem act p q item m) p q item :=
            scanItem_copied (by omega)
          have hsame : ∀ i < ks.length, scanItem act p q item m (p + item.length + (i : Nat)) =
              m (p + item.length + (i : Nat)) := fun i hi => hcopied.frame _ (by omega)
          rw [scan, if_pos (by omega), hitem]
          exact hcopied.append (ih (hrest.move hlay hsame) (by omega) (by omega) (by omega)) hsame

end Relocation
