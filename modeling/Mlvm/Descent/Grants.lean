import Mathlib.Data.List.Basic
import Mathlib.Data.List.Count
import Mathlib.Algebra.Ring.Int.Defs

/-!
# Numbers handed out downwards

A counter starts at `size` and gives out its value again and again. A number that is **kept** is
taken away, so that the next one is smaller; one that is not kept is given again.

**Kept numbers are different** (`eq_of_number_eq`), and lie between the ends (`lt_number`,
`number_le`). How many there are, is how far the counter has come (`rest_eq`).
-/

namespace Descent

variable {α : Type*} (number : α → ℤ) (kept : α → Bool)

/-- The entries `cs` have been given by a counter that goes from `size` to `rest`. -/
def Descends : ℤ → List α → ℤ → Prop
  | size, [], rest => rest = size
  | size, c :: cs, rest => number c = size ∧ Descends (if kept c then size - 1 else size) cs rest

variable {number kept} {size rest mid : ℤ} {cs ds : List α} {c d : α}

theorem Descends.append : ∀ {cs : List α} {size : ℤ}, Descends number kept size cs mid →
    Descends number kept mid ds rest → Descends number kept size (cs ++ ds) rest
  | [], _, h, h' => h ▸ h'
  | _ :: _, _, h, h' => ⟨h.1, h.2.append h'⟩

/-- The counter comes down by one for each number that is kept. -/
theorem Descends.rest_eq : ∀ {cs : List α} {size : ℤ}, Descends number kept size cs rest →
    rest = size - cs.countP kept
  | [], _, h => by
    rw [List.countP_nil, h]
    exact (sub_zero _).symm
  | c :: cs, size, h => by
    rw [h.2.rest_eq]
    cases hc : kept c with
    | true =>
      rw [List.countP_cons_of_pos hc]
      simp only [if_true, Int.natCast_add, Int.natCast_one]
      omega
    | false =>
      rw [List.countP_cons_of_neg (by rw [hc]; exact Bool.false_ne_true)]
      simp only [Bool.false_eq_true, if_false]

theorem Descends.rest_le (h : Descends number kept size cs rest) : rest ≤ size := by
  rw [h.rest_eq]
  omega

/-- No number is above the counter. -/
theorem Descends.number_le : ∀ {cs : List α} {size : ℤ}, Descends number kept size cs rest →
    ∀ c ∈ cs, number c ≤ size
  | [], _, _ => fun _ hc => absurd hc List.not_mem_nil
  | d :: cs, size, h => by
    intro c hc
    rcases List.mem_cons.1 hc with rfl | hc
    · exact Int.le_of_eq h.1
    · have hle := h.2.number_le c hc
      split_ifs at hle <;> omega

/-- A number that is kept is above all that are left. -/
theorem Descends.lt_number : ∀ {cs : List α} {size : ℤ}, Descends number kept size cs rest →
    ∀ c ∈ cs, kept c = true → rest < number c
  | [], _, _ => fun _ hc => absurd hc List.not_mem_nil
  | d :: cs, size, h => by
    intro c hc hkept
    rcases List.mem_cons.1 hc with rfl | hc
    · have hle := h.2.rest_le
      rw [if_pos hkept] at hle
      rw [h.1]
      omega
    · exact h.2.lt_number c hc hkept

/-- **Kept numbers are different.** -/
theorem Descends.eq_of_number_eq : ∀ {cs : List α} {size : ℤ}, Descends number kept size cs rest →
    ∀ c ∈ cs, ∀ d ∈ cs, kept c = true → kept d = true → number c = number d → c = d
  | [], _, _ => fun _ hc => absurd hc List.not_mem_nil
  | e :: cs, size, h => by
    -- what comes later is below a number that has been kept
    have hlater : ∀ d ∈ cs, kept e = true → number d < number e := by
      intro d hd he
      have hle := h.2.number_le d hd
      rw [if_pos he] at hle
      rw [h.1]
      omega
    intro c hc d hd hkept hkept' heq
    rcases List.mem_cons.1 hc with hce | hct
    · rcases List.mem_cons.1 hd with hde | hdt
      · rw [hce, hde]
      · have hlt := hlater d hdt (hce ▸ hkept)
        rw [← hce] at hlt
        omega
    · rcases List.mem_cons.1 hd with hde | hdt
      · have hlt := hlater c hct (hde ▸ hkept')
        rw [← hde] at hlt
        omega
      · exact h.2.eq_of_number_eq c hct d hdt hkept hkept' heq

end Descent
