import Mlvm.Memory.SameTerms

/-!
# What a collection preserves

**`Collected`**: the imago before and after a collection. Old cells and arguments denote the same
terms up to the names of variables, which stay apart, and the store is fit for the next collection.

**`collects`.** In an acyclic store with all roots on the trail the collection ends, and unless
the copies do not fit it comes to such an imago.
-/

namespace Mlvm

namespace Collection

open FirstOrder Fuel

variable {cells : Finset Int} {b : Buffers} {prevp g p size : Int} {im : Imago}

/-- The slots from the top of the trail down to the one at `af`. -/
def Imago.roots (im : Imago) : List Slot := im.trail.take (im.above + 1)

/-- The cell of an argument. -/
def Imago.argCell (im : Imago) (i : ℕ) : Int := im.st - im.nl + 1 + i

/-- The cells a collection keeps: those below the line, and the arguments. -/
def Imago.Held (im : Imago) (K : Area) (cells : Finset Int) (a : Int) : Prop :=
  a ∈ cells ∧ a < K.cline ∨ ∃ i < im.nl, a = im.argCell i

/-- The imago `im'` after a collection of `im`, when the variable `x` has become `ν x`. -/
structure Collected (K : Area) (prevp : Int) (im : Imago) (cells : Finset Int) (im' : Imago)
    (cells' : Finset Int) (ν : Int → Int) : Prop where
  store : Acyclic im'.mem cells' im'.st
  low : ∀ a ∈ cells, a < K.cline → a ∈ cells' ∧ ∀ t, Den (graph im.mem cells) (.ref a) t →
    Den (graph im'.mem cells') (.ref a) (t.rename ν)
  nl : im'.nl = im.nl
  args : ∀ i < im.nl, im'.argCell i ∈ cells' ∧
    ∀ t, Den (graph im.mem cells) (.ref (im.argCell i)) t →
    Den (graph im'.mem cells') (.ref (im'.argCell i)) (t.rename ν)
  names : Set.InjOn ν {x | ∃ a t, im.Held K cells a ∧ Den (graph im.mem cells) (.ref a) t ∧
    Term.Occurs x t}
  lowNames : ∀ a < K.cline, ν a = a
  untouched : ∀ a, K.stack_bottom ≤ a → a < K.cline → .cell a ∉ im.roots → im'.mem a = im.mem a
  line : im'.gl = im'.st
  trail : ∃ kept, im'.trail = .line im'.st :: (kept ++ im.trail.drop (im.above + 1)) ∧
    kept.Perm (im.roots.filter (Slot.stays K prevp))

/-- The buffer is never smaller than the static one. -/
theorem GC_STATIC_le (hstart : doGcStart b im.st g = .ok (p, size)) : GC_STATIC ≤ size := by
  rw [doGcStart] at hstart
  split_ifs at hstart with hle
  · split at hstart
    · cases hstart
    · cases hstart
      exact hle
  · cases hstart
    exact le_rfl

/-- The imago a collection works on: an acyclic store with the buffer elsewhere, whose arguments are
cells, and whose old cells lead above the line only where they are recorded. -/
structure Imago.Ready (im : Imago) (K : Area) (cells : Finset Int) : Prop extends
    Collectable K im.block_ceiling im.mem cells where
  recorded : Recorded K im.mem cells im.roots
  barrier : ∀ a ∈ cells, a < K.cline → .cell a ∉ im.roots → Old K (im.mem a)
  args : ∀ i < im.nl, im.argCell i ∈ cells

/-- The room that is enough for the copies. -/
noncomputable def Imago.demand (im : Imago) (K : Area) (cells : Finset Int) : ℕ :=
  ∑ i ∈ Finset.range im.nl, weight im.mem cells (im.argCell i) +
    rootsWeight K im.mem cells im.roots

/-- The roots that have been copied. -/
def IsRoot (K : Area) (im : Imago) (a : Int) : Prop := .cell a ∈ im.roots ∧ a < K.cline

/-- The copy with the arguments and the roots. -/
theorem gathered {K : Area} (h : im.Ready K cells) (hsize : K.copy_bottom + GC_STATIC ≤ K.copy_end)
    (hend : (copyRoots prevp K im).copy.freep ≤ K.copy_end) :
    ∃ orig, Gathered K im.mem cells (IsRoot K im) orig (copyRoots prevp K im).copy ∧
      K.copy_bottom + im.nl ≤ (copyRoots prevp K im).copy.freep ∧
      (∀ i : ℕ, i < im.nl → orig (K.copy_bottom + i) = im.argCell i) ∧
      waiting im.mem cells orig (copyRoots prevp K im).copy = im.demand K cells := by
  have hfree : (copyArgs K im).freep = K.copy_bottom + im.nl := putCells_freep ..
  have hle : (copyArgs K im).freep ≤ (copyRoots prevp K im).copy.freep := popRoots_freep ..
  have hargs := gathered_args h.toCollectable hsize h.args (by omega)
  obtain ⟨orig, hg, horig, hwait⟩ := gathered_popRoots h.toCollectable h.recorded hargs
    (fun _ hf => hf.elim) hend
  refine ⟨orig, hg.congr fun a => by rw [false_or]; rfl, by omega, fun i hi => ?_, ?_⟩
  · rw [horig _ ⟨by omega, by omega⟩]
    exact extend_add ..
  · rw [waiting_args] at hwait
    exact hwait

/-- The roots and the arguments take no more room than that. -/
theorem copyRoots_freep_le (prevp : Int) {K : Area} (h : im.Ready K cells) :
    (copyRoots prevp K im).copy.freep ≤ K.copy_bottom + im.demand K cells := by
  have hfree : (copyArgs K im).freep = K.copy_bottom + im.nl := putCells_freep ..
  have hle := popRoots_freep_le h.toCollectable prevp [] h.recorded
    (copyArgs K im)
  have hargs := le_sum_weight im.mem cells im.nl im.argCell
  have hcopy : (copyRoots prevp K im).copy.freep =
      (popRoots K prevp im.roots [] (copyArgs K im)).copy.freep := rfl
  rw [Imago.demand, Nat.cast_add]
  omega

/-- The new trail is no longer than the old one: the line at `af` has made room for the new one. -/
theorem tt_le (prevp : Int) {K : Area} (h : im.Ready K cells) (hline : im.atAf = some (.line g))
    (c : Copy) : im.tt ≤ (moveBack K im (copyRoots prevp K im) c).tt := by
  have hleft : (copyRoots prevp K im).left = [] := popRoots_left h.recorded _
  have hperm := kept_popRoots prevp [] h.recorded (copyArgs K im)
  have hkept : (copyRoots prevp K im).kept.length < im.roots.length := by
    rw [List.append_nil] at hperm
    have hlen : (copyRoots prevp K im).kept.length = _ := hperm.length_eq
    rw [hlen]
    refine List.length_filter_lt_length_iff_exists.2 ⟨.line g, ?_, by simp [Slot.stays]⟩
    refine List.mem_iff_getElem?.2 ⟨im.above, ?_⟩
    rw [Imago.roots, List.getElem?_take_of_lt (Nat.lt_succ_self _)]
    exact hline
  have htotal : im.roots.length + (im.trail.drop (im.above + 1)).length = im.trail.length := by
    rw [Imago.roots, ← List.length_append, List.take_append_drop]
  simp only [Imago.tt, moveBack, hleft, List.nil_append, List.length_cons, List.length_append]
  push_cast
  omega

/-- The copy when the scan is done. -/
theorem finished {K : Area} (h : im.Ready K cells) {orig : Int → Int}
    (hnl : K.copy_bottom + im.nl ≤ (copyRoots prevp K im).copy.freep)
    (hargs : ∀ i : ℕ, i < im.nl → orig (K.copy_bottom + i) = im.argCell i) {c : Copy}
    (hend : c.freep ≤ K.copy_end)
    (hs : Scanned K im.mem cells (IsRoot K im) orig (copyRoots prevp K im).copy c) :
    ∃ orig', Finished K im.mem cells (IsRoot K im) orig' c im.nl ∧
      ∀ i : ℕ, i < im.nl → orig' (K.copy_bottom + i) = im.argCell i := by
  obtain ⟨orig', hinv, horig⟩ := hs.inv
  have hle := hs.freep
  have hsame : ∀ i : ℕ, i < im.nl → orig' (K.copy_bottom + i) = im.argCell i := fun i hi => by
    rw [horig _ ⟨by omega, by omega⟩, hargs i hi]
  refine ⟨orig', ⟨hinv, hs.scanp, hend, fun a ha => ?_, fun a ha hla hnot => ?_, fun i hi => ?_⟩,
    hsame⟩
  · rcases (h.recorded.bound a ha.1).2 with hmid | ⟨-, -, hbound⟩
    · have hla := ha.2
      have := (hitMid_iff.1 hmid).2
      omega
    · exact hbound
  · exact h.barrier a ha hla fun hin => hnot ⟨hin, hla⟩
  · refine ⟨by omega, ?_⟩
    rw [hsame i hi]
    exact h.args i hi

/-- The memory when the copy is back on the stack. -/
theorem moved {K : Area} (h : im.Ready K cells) {c : Copy} {r : Roots}
    (hnl : K.copy_bottom + im.nl ≤ c.freep) (hend : c.freep ≤ K.copy_end)
    (htop : (moveBack K im r c).st ≤ (moveBack K im r c).tt) :
    Moved K (moveBack K im r c).mem c im.nl := by
  obtain ⟨n, hn⟩ := Int.le.dest (show K.copy_bottom ≤ c.freep by omega)
  have hcount : (c.freep - K.copy_bottom).toNat = n := by omega
  have hst : K.cline + n + im.nl ≤ im.block_ceiling := by
    simp only [moveBack, Imago.tt, hcount] at htop
    omega
  have hline := h.line
  have hapart : ∀ j : ℕ, j < n → K.copy_bottom + j < K.cline ∨ K.cline + n ≤ K.copy_bottom + j := by
    intro j hj
    have := h.buffer (K.copy_bottom + j) (by omega) (by omega)
    omega
  have hmem : (moveBack K im r c).mem = moveCells im.nl K.cline (K.cline + n)
      (moveCells n K.copy_bottom K.cline c.mem) := by
    simp only [moveBack, hcount]
  have hcopy : ∀ j : ℕ, j < n →
      moveCells n K.copy_bottom K.cline c.mem (K.cline + j) = c.mem (K.copy_bottom + j) :=
    fun j hj => moveCells_read hapart hj
  rw [hmem]
  refine ⟨fun a hla => ?_, fun y hy => ?_, fun i hi => ?_⟩
  · rw [moveCells_rest (by omega), moveCells_rest (by omega)]
  · obtain ⟨j, rfl⟩ := Int.le.dest hy.1
    have hj : j < n := by
      have := hy.2
      omega
    have hplace : K.dest (K.copy_bottom + j) = K.cline + j := by
      simp only [Area.dest]
      omega
    rw [hplace, moveCells_rest (by omega), hcopy j hj]
  · have hplace : K.dest c.freep + i = K.cline + n + i := by
      simp only [Area.dest]
      omega
    rw [hplace, moveCells_read (fun j hj => by omega) hi, hcopy i (by omega)]

/-- The imago when everything fits. -/
theorem collected {K : Area} (h : im.Ready K cells) {orig : Int → Int} {c : Copy}
    (hf : Finished K im.mem cells (IsRoot K im) orig c im.nl)
    (horig : ∀ i : ℕ, i < im.nl → orig (K.copy_bottom + i) = im.argCell i)
    (hnl : K.copy_bottom + im.nl ≤ c.freep)
    (htop : (moveBack K im (copyRoots prevp K im) c).st ≤
    (moveBack K im (copyRoots prevp K im) c).tt) :
    Collected K prevp im cells (moveBack K im (copyRoots prevp K im) c)
      (newCells K cells orig c im.nl) (newName K c) := by
  have hm := h.toCollectable
  have hmv := moved h hnl hf.inside htop
  have hst : (moveBack K im (copyRoots prevp K im) c).st = K.dest c.freep + im.nl - 1 := by
    simp only [moveBack, Area.dest]
    omega
  have harg : ∀ i, (moveBack K im (copyRoots prevp K im) c).argCell i = K.dest c.freep + i := by
    intro i
    rw [Imago.argCell, hst]
    simp only [moveBack]
    omega
  have hkept : ∀ x a t, im.Held K cells a → Den (graph im.mem cells) (.ref a) t →
      Term.Occurs x t → Kept K im.mem cells orig c x := by
    rintro x a t (⟨ha, hla⟩ | ⟨i, hi, rfl⟩) ht hx
    · exact (hf.den_low hmv hm ha hla ht).2 x hx
    · rw [← horig i hi] at ht
      exact (hf.den_top hmv hm hi ht).2 x hx
  refine ⟨?_,
    fun a ha hla => ⟨old_mem_newCells ha hla, fun t ht => (hf.den_low hmv hm ha hla ht).1⟩,
    rfl, fun i hi => ⟨?_, fun t ht => ?_⟩, ?_, fun a hla => if_pos hla, fun a ha hla hnot => ?_,
    rfl, (copyRoots prevp K im).kept, ?_, ?_⟩
  · rw [hst]
    exact hf.acyclic hmv hm
  · rw [harg]
    exact mem_newCells.2 (Or.inr (Or.inr ⟨by omega, by omega⟩))
  · rw [harg]
    rw [← horig i hi] at ht
    exact (hf.den_top hmv hm hi ht).1
  · refine hf.newName_injOn.mono ?_
    rintro x ⟨a, t, ha, ht, hx⟩
    exact hkept x a t ha ht hx
  · exact hf.low_eq hmv ha hla fun hr => hnot hr.1
  · have hleft : (copyRoots prevp K im).left = [] := popRoots_left h.recorded _
    simp only [moveBack, hleft, List.nil_append]
  · have hperm := kept_popRoots prevp [] h.recorded (copyArgs K im)
    rwa [List.append_nil] at hperm

/-- The old cell 1 holds a list whose head leads to the variable at 2; the argument at 5 leads to
its open tail. -/
def openList (x : Int) : Word := if x = 1 then .lis 3 else if x = 3 then .ref 2
  else if x = 5 then .ref 4 else .ref x

def openImago : Imago where
  mem := openList
  trail := [.cell 1, .line 1]
  stack_base := 1
  block_ceiling := 100
  af := 99
  st := 5
  gl := 1
  nl := 1
  collections := 0

def openBuffers : Buffers := ⟨1000, false, fun _ => none⟩

def openCells : Finset Int := {1, 2, 3, 4, 5}

theorem openList_acyclic : Acyclic openList openCells 5 := by
  have h₂ : Den (graph openList openCells) (.ref 2) (.var 2) := .unbound rfl
  have h₄ : Den (graph openList openCells) (.ref 4) (.var 4) := .unbound rfl
  have h₃ : Den (graph openList openCells) (.ref 3) (.var 2) := .ref (by decide) h₂
  refine ⟨⟨by decide, fun a ha => ?_⟩, fun a ha => ?_⟩
  · simp only [openCells, Finset.mem_insert, Finset.mem_singleton] at ha
    rcases ha with rfl | rfl | rfl | rfl | rfl
    · exact ⟨by decide, by decide⟩
    · exact (by decide : (2 : Int) ∈ openCells)
    · exact (by decide : (2 : Int) ∈ openCells)
    · exact (by decide : (4 : Int) ∈ openCells)
    · exact (by decide : (4 : Int) ∈ openCells)
  · simp only [openCells, Finset.mem_insert, Finset.mem_singleton] at ha
    rcases ha with rfl | rfl | rfl | rfl | rfl
    · refine ⟨.app .list [.var 2, .var 4], .ref (by decide) ?_⟩
      have hnode : graph openList openCells 1 = .app .list [3, 4] := rfl
      rw [hnode]
      exact .app rfl (by simpa using ⟨h₃, h₄⟩)
    · exact ⟨_, h₂⟩
    · exact ⟨_, h₃⟩
    · exact ⟨_, h₄⟩
    · exact ⟨.var 4, .ref (by decide) h₄⟩

theorem openImago_ready : openImago.Ready (openImago.area 1 1000 GC_STATIC) openCells where
  toAcyclic := openList_acyclic
  bottom := by decide
  tidy a ha := by
    simp only [openCells, Finset.mem_insert, Finset.mem_singleton] at ha
    rcases ha with rfl | rfl | rfl | rfl | rfl
    · exact fun hlt => absurd hlt (by decide)
    all_goals exact trivial
  line := by decide
  line_st := by decide
  st := by decide
  buffer x hx _ := Or.inr (by
    change 1000 ≤ x at hx
    change 100 ≤ x
    omega)
  recorded := by
    refine ⟨fun a ha => ?_, by decide⟩
    have hroots : openImago.roots = [.cell 1, .line 1] := rfl
    rw [hroots] at ha
    obtain rfl : a = 1 := by simpa using ha
    exact ⟨by decide, Or.inr ⟨by decide, by decide, by decide⟩⟩
  barrier a ha hla hnot := by
    have hone : a = 1 := by
      change a < 2 at hla
      simp only [openCells, Finset.mem_insert, Finset.mem_singleton] at ha
      omega
    exact absurd (by rw [hone]; decide) hnot
  args i hi := by
    obtain rfl := Nat.lt_one_iff.1 hi
    decide

end Collection

end Mlvm
