import Mlvm.Memory.Gathering
import Mathlib.Data.Finset.Image

/-!
# The store after a collection

**`Finished`**: a copy without words that wait, which holds the roots and the arguments.
**`Moved`**: the memory when it is back on the stack.

**`Finished.wellFormed`.** The cells below the line, the copies of cells and the arguments on top
are a store of their own.
-/

namespace Mlvm

namespace Collection

open FirstOrder

variable {K : Area} {ceiling : Int} {m m' : Int → Word} {cells : Finset Int} {done : Int → Prop}
  {orig : Int → Int} {c : Copy} {nl : ℕ}

/-! ## Moving words -/

theorem moveCells_rest {n : ℕ} {src rp : Int} {m : Int → Word} {a : Int}
    (ha : a < rp ∨ rp + n ≤ a) : moveCells n src rp m a = m a := by
  induction n generalizing src rp m with
  | zero => rfl
  | succ n ih =>
    push_cast at ha
    rw [moveCells, ih (by omega)]
    exact Function.update_of_ne (by omega) ..

/-- The words that are moved, when they are not overwritten meanwhile. -/
theorem moveCells_read {n : ℕ} {s r : Int} {m : Int → Word}
    (hsrc : ∀ i : ℕ, i < n → s + i < r ∨ r + n ≤ s + i) {i : ℕ} (hi : i < n) :
    moveCells n s r m (r + i) = m (s + i) := by
  induction n generalizing s r m i with
  | zero => omega
  | succ n ih =>
    rw [moveCells]
    cases i with
    | zero =>
      rw [moveCells_rest (by omega)]
      simp
    | succ i =>
      have hne := hsrc (i + 1) hi
      have hread := ih (s := s + 1) (r := r + 1) (m := Function.update m r (m s))
        (fun j hj => by
          have := hsrc (j + 1) (by omega)
          push_cast at this ⊢
          omega) (Nat.lt_of_succ_lt_succ hi)
      have hplace : r + ((i + 1 : ℕ) : Int) = r + 1 + i := by push_cast; omega
      have hcell : s + ((i + 1 : ℕ) : Int) = s + 1 + i := by push_cast; omega
      rw [hcell] at hne
      rw [hplace, hcell, hread]
      exact Function.update_of_ne (by push_cast at hne; omega) ..

/-! ## The finished copy -/

variable (K m cells done orig c nl) in
/-- A copy in which no word waits. It begins with the arguments, and every old cell that may lead
above the line is a root. -/
structure Finished : Prop extends Inv K m cells done orig c where
  ready : c.scanp = c.freep
  inside : c.freep ≤ K.copy_end
  bound : ∀ a, done a → m a ≠ .ref a
  barrier : ∀ a ∈ cells, a < K.cline → ¬ done a → Old K (m a)
  args : ∀ i : ℕ, i < nl → K.copy_bottom + i < c.freep ∧ orig (K.copy_bottom + i) ∈ cells

variable (K c nl m') in
/-- The memory when the copy is on the stack, with the arguments once more on top of it. -/
structure Moved : Prop where
  low : ∀ a, a < K.cline → m' a = c.mem a
  copy : ∀ y, Copied K c y → m' (K.dest y) = c.mem y
  top : ∀ i : ℕ, i < nl → m' (K.dest c.freep + i) = c.mem (K.copy_bottom + i)

variable (K cells orig c nl) in
/-- The cells after the collection. -/
def newCells : Finset Int :=
  cells.filter (· < K.cline) ∪
    (((Finset.range (c.freep - K.copy_bottom).toNat).filter fun i : ℕ =>
      orig (K.copy_bottom + i) ∈ cells).image fun i : ℕ => K.dest (K.copy_bottom + i)) ∪
      (Finset.range nl).image fun i : ℕ => K.dest c.freep + i

theorem mem_newCells {b : Int} : b ∈ newCells K cells orig c nl ↔
    b ∈ cells ∧ b < K.cline ∨ (∃ y, Copied K c y ∧ orig y ∈ cells ∧ K.dest y = b) ∨
      K.dest c.freep ≤ b ∧ b < K.dest c.freep + nl := by
  simp only [newCells, Finset.mem_union, Finset.mem_filter, Finset.mem_image, Finset.mem_range,
    or_assoc]
  refine or_congr_right (or_congr ⟨?_, ?_⟩ ⟨?_, ?_⟩)
  · rintro ⟨i, ⟨hi, ho⟩, rfl⟩
    exact ⟨_, ⟨by omega, by omega⟩, ho, rfl⟩
  · rintro ⟨y, hy, ho, rfl⟩
    obtain ⟨i, rfl⟩ := Int.le.dest hy.1
    have hlt := hy.2
    exact ⟨i, ⟨by omega, ho⟩, rfl⟩
  · rintro ⟨i, hi, rfl⟩
    exact ⟨by omega, by omega⟩
  · rintro ⟨hle, hlt⟩
    obtain ⟨i, rfl⟩ := Int.le.dest hle
    exact ⟨i, by omega, rfl⟩

theorem old_mem_newCells {b : Int} (hb : b ∈ cells) (hlb : b < K.cline) :
    b ∈ newCells K cells orig c nl :=
  mem_newCells.2 (Or.inl ⟨hb, hlb⟩)

theorem copy_mem_newCells {y : Int} (hy : Copied K c y) (ho : orig y ∈ cells) :
    K.dest y ∈ newCells K cells orig c nl :=
  mem_newCells.2 (Or.inr (Or.inl ⟨y, hy, ho, rfl⟩))

theorem dest_add (x i : Int) : K.dest (x + i) = K.dest x + i := by
  simp only [Area.dest]
  omega

theorem le_dest {y : Int} (hy : Copied K c y) : K.cline ≤ K.dest y := by
  have := hy.1
  simp only [Area.dest]
  omega

theorem dest_lt {y : Int} (hy : Copied K c y) : K.dest y < K.dest c.freep := by
  have := hy.2
  simp only [Area.dest]
  omega

theorem dest_inj {y z : Int} (h : K.dest y = K.dest z) : y = z := by
  simp only [Area.dest] at h
  omega

/-! ## The words of the new store -/

/-- The cell a variable or a tail is forwarded to is the copy of a cell. -/
theorem Inv.orig_mem (h : Inv K m cells done orig c) {a z : Int} (ha : a ∈ cells)
    (hz : Forward K m orig c a z) : orig z ∈ cells := by
  rcases hz.stands with ho | ⟨hu, hlt⟩
  · rwa [ho]
  · obtain ⟨-, n, hn⟩ := hz.unbound hu hlt
    refine (h.good z hz.copied).resolve_right fun hc => ?_
    generalize hv : m (orig z) = v at hn hc
    cases hn <;> cases hc

theorem Steps.of_cst {n : ℕ} {v w : Word} (h : Steps m n v w) (hv : v.isCst) : w = v := by
  cases h with
  | refl => rfl
  | step => cases hv

namespace Finished

variable (h : Finished K m cells done orig c nl)

include h

theorem settled_of_copied {y : Int} (hy : Copied K c y) : Settled K m cells orig c y :=
  h.settled y hy.1 (by rw [h.ready]; exact hy.2)

/-- The first word of a block is the same in the copy. -/
theorem mem_of_functor {y : Int} (hy : Copied K c y) (hout : orig y ∉ cells)
    (hcst : (m (orig y)).isCst) : c.mem y = m (orig y) := by
  have hne : ∀ {n : ℕ} {w : Word}, Steps m n (m (orig y)) w → w.isCst := fun hw => by
    rwa [hw.of_cst hcst]
  cases h.settled_of_copied hy with
  | old hw _ hread => rw [hread, hw.of_cst hcst]
  | var hw => cases hne hw
  | cell hin => exact absurd hin hout
  | list hw => cases hne hw
  | str hw => cases hne hw

/-! ### Placed words -/

variable (hmv : Moved K m' c nl)

include hmv

/-- A word below the line that is no root is as it was. -/
theorem low_eq {a : Int} (ha : K.stack_bottom ≤ a) (hla : a < K.cline) (hnot : ¬ done a) :
    m' a = m a :=
  (hmv.low a hla).trans (h.old a ha hla hnot)

/-- The words of a block below the line are as they were. -/
theorem block_eq {p : Int} (hp : K.stack_bottom ≤ p) {i : ℕ} (hlp : p + i < K.cline)
    (hout : p + i ∉ cells) : m' (p + i) = m (p + i) :=
  h.low_eq hmv (by omega) hlp fun hd => hout (h.root _ hd).1

/-- A word that does not lead above the line is placed as it was. -/
theorem placed_old {w : Word} (hw : Placed m cells K.st w) (ht : Tidy K m cells w)
    (hold : Old K w) : Placed m' (newCells K cells orig c nl) (K.dest c.freep + nl - 1) w := by
  have hbase : K.cline ≤ K.dest c.freep := by
    have := h.bottom_le
    have := h.le_freep
    simp only [Area.dest]
    omega
  cases w with
  | ref a => exact old_mem_newCells hw hold
  | lis p => exact ⟨old_mem_newCells hw.1 hold, old_mem_newCells hw.2 (ht hold)⟩
  | cst v => trivial
  | str p =>
    obtain ⟨hp, hbot, hside, -⟩ := ht
    have hla : p < K.cline := hold
    have hread : m' p = m p := by
      simpa using h.block_eq hmv (i := 0) hbot (by simpa using hla) (by simpa using hp)
    have hside := hside hold
    have hout : ∀ b, b < K.cline → b ∉ cells → b ∉ newCells K cells orig c nl := by
      intro b hb hnot hin
      rcases mem_newCells.1 hin with ⟨hb', -⟩ | ⟨y, hy, -, rfl⟩ | ⟨hb', -⟩
      · exact hnot hb'
      · have := le_dest hy
        omega
      · omega
    simp only [Placed, hread] at hw ⊢
    by_cases hfvl : m p = .fvlTag
    · rw [if_pos hfvl] at hw ⊢
      rw [blockSize, if_pos hfvl] at hside
      push_cast at hside
      exact ⟨hout _ (by omega) hw.1, hout _ (by omega) hw.2.1, by omega⟩
    · rw [if_neg hfvl] at hw ⊢
      rw [blockSize, if_neg hfvl] at hside
      obtain ⟨-, hcst, har, hargs⟩ := hw
      refine ⟨by omega, hcst, har, fun b hb => old_mem_newCells (hargs b hb) ?_⟩
      obtain ⟨i, hi, rfl⟩ := List.mem_map.1 hb
      have := List.mem_range.1 hi
      omega

variable (hm : Collectable K ceiling m cells)

include hm

/-- A word of the copy is placed in the new store. -/
theorem placed_copy {y : Int} (hy : Copied K c y) (ho : orig y ∈ cells) :
    Placed m' (newCells K cells orig c nl) (K.dest c.freep + nl - 1) (c.mem y) := by
  have hplaced := hm.placed _ ho
  cases h.settled_of_copied hy with
  | old hw hold hread =>
    rw [hread]
    exact h.placed_old hmv (hw.placed hm.toWellFormed hplaced)
      (hw.tidy hm hplaced (hm.tidy _ ho)) hold
  | @var n a z hw hu hla hmem hcz hread =>
    have ha : a ∈ cells := hw.placed hm.toWellFormed hplaced
    rw [hread]
    refine copy_mem_newCells hcz ?_
    rcases h.mid a hla (hm.below a ha) with hsame | ⟨x, ⟨-, hx⟩ | ⟨hout, -⟩⟩
    · have hself : a = z := Word.ref.inj (hu.symm.trans (hsame.symm.trans hmem))
      exact absurd (hself ▸ hcz) (hm.not_copied h.inside (hm.block ha))
    · obtain rfl := Word.ref.inj (hx.reads.symm.trans hmem)
      exact h.toInv.orig_mem ha hx
    · exact absurd ha hout
  | cell _ _ _ hz hcz hread =>
    rw [hread]
    exact copy_mem_newCells hcz hz
  | @list n p z hw hz hz' hop hop' hread =>
    obtain ⟨hp, hp'⟩ := hw.placed hm.toWellFormed hplaced
    rw [hread]
    refine ⟨copy_mem_newCells ⟨hz, by omega⟩ (by rwa [hop]), ?_⟩
    rw [← dest_add]
    exact copy_mem_newCells ⟨by omega, hz'⟩ (by rwa [hop'])
  | @str n p z hw hla hb hread =>
    have hwp := hw.placed hm.toWellFormed hplaced
    obtain ⟨hp, -, -, hfloat⟩ := hw.tidy hm hplaced (hm.tidy _ ho)
    have hfvl := hfloat hla
    rw [Placed, if_neg hfvl] at hwp
    obtain ⟨-, hcst, har, hargs⟩ := hwp
    have hz : Copied K c z := ⟨hb.1, by simpa using (hb.2 0 (Nat.zero_le _)).2⟩
    have hoz : orig z = p := by simpa using (hb.2 0 (Nat.zero_le _)).1
    have hfirst : m' (K.dest z) = m p := by
      rw [hmv.copy z hz, h.mem_of_functor hz (by rwa [hoz]) (by rwa [hoz]), hoz]
    have hlt := dest_lt hz
    rw [hread]
    simp only [Placed, hfirst, if_neg hfvl]
    refine ⟨by omega, hcst, har, fun b hb' => ?_⟩
    obtain ⟨i, hi, rfl⟩ := List.mem_map.1 hb'
    have hi' := List.mem_range.1 hi
    obtain ⟨ho', hlt'⟩ := hb.2 (i + 1) (by omega)
    have hcell : z + 1 + i = z + ((i + 1 : ℕ) : Int) := by push_cast; omega
    have harg : p + 1 + i = p + ((i + 1 : ℕ) : Int) := by push_cast; omega
    rw [← dest_add, ← dest_add, hcell]
    refine copy_mem_newCells ⟨by have := hb.1; omega, hlt'⟩ ?_
    rw [ho', ← harg]
    exact hargs _ (List.mem_map.2 ⟨i, hi, rfl⟩)

/-- **The new store is well-formed.** -/
theorem wellFormed : WellFormed m' (newCells K cells orig c nl) (K.dest c.freep + nl - 1) where
  below b hb := by
    have hbottom := h.bottom_le
    have hle := h.le_freep
    rcases mem_newCells.1 hb with ⟨-, hlb⟩ | ⟨y, hy, -, rfl⟩ | ⟨-, hlb⟩
    · simp only [Area.dest]
      omega
    · have := dest_lt hy
      omega
    · omega
  placed b hb := by
    rcases mem_newCells.1 hb with ⟨hin, hlb⟩ | ⟨y, hy, ho, rfl⟩ | ⟨hlb, hub⟩
    · by_cases hd : done b
      · obtain ⟨-, -, x, hx, hox, hmem⟩ := h.root b hd
        rw [hmv.low b hlb, hmem]
        exact copy_mem_newCells hx (by rwa [hox])
      · rw [h.low_eq hmv (hm.bottom b hin) hlb hd]
        exact h.placed_old hmv (hm.placed b hin) (hm.tidy b hin) (h.barrier b hin hlb hd)
    · rw [hmv.copy y hy]
      exact h.placed_copy hmv hm hy ho
    · obtain ⟨i, rfl⟩ := Int.le.dest hlb
      obtain ⟨hlt, ho⟩ := h.args i (by omega)
      rw [hmv.top i (by omega)]
      exact h.placed_copy hmv hm ⟨by omega, hlt⟩ ho

end Finished

end Collection

end Mlvm
