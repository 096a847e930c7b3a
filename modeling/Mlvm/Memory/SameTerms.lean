import Mlvm.Memory.Collected
import Mlvm.FirstOrder.GraphCopy
import Mathlib.Data.Set.Function

/-!
# The terms after a collection

**`Stands`**: the word of the copy at `dest y` stands for the word of its origin, an old word for
itself, and the word a variable was forwarded to for the variable. Words that stand for each other
go on together (`Finished.answers`), so that what an old cell, a copy or an argument denotes is the
same term, up to the names of the variables (`newName`).
-/

namespace Mlvm

namespace Collection

open FirstOrder

variable {K : Area} {ceiling : Int} {m m' : Int → Word} {cells : Finset Int} {done : Int → Prop}
  {orig : Int → Int} {c : Copy} {nl : ℕ}

/-- The cell of a variable after the collection. -/
def newName (K : Area) (c : Copy) (a : Int) : Int :=
    if a < K.cline then a else K.dest (c.mem a).addr

section Relation

variable (K m m' cells orig c)

/-- A variable that has been copied, or was below the line. -/
def Kept (a : Int) : Prop :=
  a ∈ cells ∧ m a = .ref a ∧ (a < K.cline ∨ K.cline ≤ a ∧ ∃ z, Forward K m orig c a z)

/-- The word after the collection that a word goes over into, with the rank of the copy. -/
inductive Becomes : ℕ → Word → Word → Prop
  | copy {y : Int} : Copied K c y → orig y ∈ cells →
      Becomes ((y - K.copy_bottom).toNat + 1) (m (orig y)) (.ref (K.dest y))
  | var {a z : Int} : a ∈ cells → K.cline ≤ a → m a = .ref a → Forward K m orig c a z →
      Becomes 0 (.ref a) (.ref (K.dest z))
  | old {w : Word} : Old K w → Becomes 0 w w
  | list {z : Int} : K.copy_bottom ≤ z → z + 1 < c.freep → orig (z + 1) = orig z + 1 →
      Becomes 0 (.lis (orig z)) (.lis (K.dest z))
  | str {p z : Int} : K.cline ≤ p → Block K m orig c p z → Becomes 0 (.str p) (.str (K.dest z))

/-- The node after the collection stands for the node before: references lead from the one to a word
that goes over into the other. -/
def Stands (k : ℕ) (v v' : Node Sym Int) : Prop :=
  ∃ n w w₀ w', v = view m w ∧ v' = view m' w' ∧ Placed m cells K.st w ∧ Tidy K m cells w ∧
    Steps m n w w₀ ∧ Becomes K m cells orig c k w₀ w'

end Relation

theorem Becomes.stands {k n : ℕ} {w w₀ w' : Word} (hb : Becomes K m cells orig c k w₀ w')
    (hs : Steps m n w w₀) (hw : Placed m cells K.st w) (ht : Tidy K m cells w) :
    Stands K m m' cells orig c k (view m w) (view m' w') :=
  ⟨n, w, w₀, w', rfl, rfl, hw, ht, hs, hb⟩

/-- A cell goes over into its copy. -/
theorem stands_cell {y : Int} (hy : Copied K c y) (ho : orig y ∈ cells) :
    ∃ k, Stands K m m' cells orig c k (.ref (orig y)) (.ref (K.dest y)) := by
  have hb := Becomes.copy (m := m) hy ho
  refine ⟨(y - K.copy_bottom).toNat + 1, ?_⟩
  by_cases hself : m (orig y) = .ref (orig y)
  · exact hb.stands (w := .ref (orig y)) (by rw [hself]; exact .refl _) ho trivial
  · exact hb.stands (w := .ref (orig y)) (.step hself (.refl _)) ho trivial

/-- An old cell stays what it is. -/
theorem stands_low {a : Int} (ha : a ∈ cells) (hla : a < K.cline) :
    Stands K m m' cells orig c 0 (.ref a) (.ref a) :=
  (Becomes.old (m := m) (w := .ref a) hla).stands (.refl _) ha trivial

/-- The name of a variable that has been forwarded. -/
theorem newName_forward {a z : Int} (hla : K.cline ≤ a) (hz : Forward K m orig c a z) :
    newName K c a = K.dest z := by
  rw [newName, if_neg (by omega), hz.reads, Word.addr_ref]

variable (K m m' cells orig c nl) in
/-- How nodes that stand for each other go on. -/
abbrev GoesOn (k : ℕ) (v v' : Node Sym Int) : Prop :=
  Answers (graph m cells) (graph m' (newCells K cells orig c nl)) (newName K c)
    (Kept K m cells orig c) (Stands K m m' cells orig c) k v v'

/-- A chain of references goes on as its end does. -/
theorem GoesOn.of_steps {k k' n : ℕ} {w w₀ w' : Word} (hb : Becomes K m cells orig c k' w₀ w')
    (hs : Steps m n w w₀) (hm : Collectable K ceiling m cells) (hw : Placed m cells K.st w)
    (hgo : GoesOn K m m' cells orig c nl k (view m w₀) (view m' w')) :
    GoesOn K m m' cells orig c nl k (view m w) (view m' w') := by
  cases hs with
  | refl => exact hgo
  | @step a n w hne hs =>
    have ha : a ∈ cells := hw
    refine .left k' (fun he => hne ((graph_eq_ref ha).1 he)) ?_
    rw [graph_of_mem ha]
    exact hb.stands hs (hm.placed a ha) (hm.tidy a ha)

theorem Moved.graph_copy (hmv : Moved K m' c nl) {y : Int} (hy : Copied K c y)
    (ho : orig y ∈ cells) :
    graph m' (newCells K cells orig c nl) (K.dest y) = view m' (c.mem y) := by
  rw [graph_of_mem (copy_mem_newCells hy ho), hmv.copy y hy]

/-- A chain of references is empty or begins with one. -/
theorem Steps.first {n : ℕ} {w w' : Word} (h : Steps m n w w') :
    n = 0 ∧ w = w' ∨ ∃ a k, n = k + 1 ∧ w = .ref a ∧ m a ≠ .ref a ∧ Steps m k (m a) w' := by
  cases h with
  | refl => exact Or.inl ⟨rfl, rfl⟩
  | @step a k _ hne hs => exact Or.inr ⟨a, k, rfl, rfl, hne, hs⟩

/-- **The copy of a list pair** goes on as the pair. -/
theorem goesOn_list {z : Int} (hz : K.copy_bottom ≤ z) (hz' : z + 1 < c.freep)
    (ho : orig (z + 1) = orig z + 1) (hin : orig z ∈ cells) (hin' : orig z + 1 ∈ cells) :
    GoesOn K m m' cells orig c nl 0 (view m (.lis (orig z))) (view m' (.lis (K.dest z))) := by
  refine .app rfl fun q hq => ?_
  simp only [List.zip_cons_cons, List.zip_nil_right, List.mem_cons, List.not_mem_nil,
    or_false] at hq
  rcases hq with rfl | rfl
  · exact stands_cell ⟨hz, by omega⟩ hin
  · have hcell : ∃ k, Stands K m m' cells orig c k (.ref (orig (z + 1))) (.ref (K.dest (z + 1))) :=
      stands_cell ⟨by omega, hz'⟩ (by rwa [ho])
    rwa [ho, dest_add] at hcell

/-- A chain of references comes to one variable. -/
theorem Steps.end_unique {n n' : ℕ} {w : Word} {a b : Int} (h : Steps m n w (.ref a))
    (ha : m a = .ref a) (h' : Steps m n' w (.ref b)) (hb : m b = .ref b) : a = b := by
  generalize hv : Word.ref a = v at h
  induction h generalizing n' with
  | refl =>
    subst hv
    exact (Word.ref.inj (h'.of_self ha).2).symm
  | @step x k w hne _ ih =>
    rcases h'.first with ⟨-, heq⟩ | ⟨y, k', -, heq, -, hs⟩
    · rw [Word.ref.inj heq] at hne
      exact absurd hb hne
    · rw [← Word.ref.inj heq] at hs
      exact ih hs hv

namespace Finished

variable (h : Finished K m cells done orig c nl)

include h

/-- A variable and the word it was forwarded to. -/
theorem forward_of_mem (hm : Collectable K ceiling m cells) {a z : Int} (ha : a ∈ cells)
    (hla : K.cline ≤ a) (hread : c.mem a = .ref z) (hz : Copied K c z) (hu : m a = .ref a) :
    Forward K m orig c a z := by
  rcases h.mid a hla (hm.below a ha) with hmem | ⟨x, ⟨-, hx⟩ | ⟨hout, -⟩⟩
  · have hself : a = z := Word.ref.inj (hu.symm.trans (hmem.symm.trans hread))
    exact absurd (hself ▸ hz) (hm.not_copied h.inside (hm.block ha))
  · obtain rfl := Word.ref.inj (hx.reads.symm.trans hread)
    exact hx
  · exact absurd ha hout

variable (hmv : Moved K m' c nl)

include hmv

theorem goesOn_var (k : ℕ) {a z : Int} (ha : a ∈ cells) (hla : K.cline ≤ a) (hu : m a = .ref a)
    (hz : Forward K m orig c a z) :
    GoesOn K m m' cells orig c nl k (.ref a) (.ref (K.dest z)) := by
  have hlt : z < c.scanp := by
    rw [h.ready]
    exact hz.copied.2
  have hname := newName_forward hla hz
  rw [← hname]
  refine .unbound ((graph_eq_ref ha).2 hu) ?_ ⟨ha, hu, Or.inr ⟨hla, z, hz⟩⟩
  rw [hname, hmv.graph_copy hz.copied (h.toInv.orig_mem ha hz), (hz.unbound hu hlt).1]
  rfl

/-- **An old word** goes on as before. -/
theorem goesOn_old {w : Word} (hold : Old K w) (hw : Placed m cells K.st w) (ht : Tidy K m cells w)
    (hnref : ∀ a, w ≠ .ref a) : GoesOn K m m' cells orig c nl 0 (view m w) (view m' w) := by
  cases w with
  | ref a => exact absurd rfl (hnref a)
  | lis p =>
    refine .app rfl fun q hq => ⟨0, ?_⟩
    simp only [List.zip_cons_cons, List.zip_nil_right, List.mem_cons, List.not_mem_nil,
      or_false] at hq
    rcases hq with rfl | rfl
    · exact stands_low hw.1 hold
    · exact stands_low hw.2 (ht hold)
  | cst v => exact .app rfl fun q hq => by simp at hq
  | str p =>
    obtain ⟨hp, hbot, hside, -⟩ := ht
    have hla : p < K.cline := hold
    have hside := hside hla
    have hread : m' p = m p := by
      simpa using h.block_eq hmv (i := 0) hbot (by simpa using hla) (by simpa using hp)
    simp only [Placed] at hw
    simp only [view, hread]
    by_cases hfvl : m p = .fvlTag
    · rw [if_pos hfvl] at hw
      rw [blockSize, if_pos hfvl] at hside
      have h₁ := h.block_eq hmv (i := 1) hbot (by omega) hw.1
      have h₂ := h.block_eq hmv (i := 2) hbot hside hw.2.1
      push_cast at h₁ h₂
      rw [if_pos hfvl, if_pos hfvl, h₁, h₂]
      exact .app rfl fun q hq => by simp at hq
    · rw [if_neg hfvl] at hw
      rw [blockSize, if_neg hfvl] at hside
      rw [if_neg hfvl, if_neg hfvl]
      refine .app rfl fun q hq => ⟨0, ?_⟩
      obtain ⟨i, hi, rfl⟩ := List.mem_iff_getElem.1 hq
      simp only [List.length_zip, argCells, List.length_map, List.length_range, min_self] at hi
      simp only [List.getElem_zip, argCells, List.getElem_map, List.getElem_range]
      refine stands_low (hw.2.2.2 _ (List.mem_map.2 ⟨i, List.mem_range.2 hi, rfl⟩)) ?_
      omega

/-- **The copy of a block** goes on as the block. -/
theorem goesOn_str {p z : Int} (hb : Block K m orig c p z) (hla : K.cline ≤ p)
    (hw : Placed m cells K.st (.str p)) (ht : Tidy K m cells (.str p)) :
    GoesOn K m m' cells orig c nl 0 (view m (.str p)) (view m' (.str (K.dest z))) := by
  obtain ⟨hp, -, -, hfloat⟩ := ht
  have hfvl := hfloat hla
  rw [Placed, if_neg hfvl] at hw
  obtain ⟨-, hcst, -, hargs⟩ := hw
  have hbottom := hb.1
  have hz : Copied K c z := ⟨hbottom, by simpa using (hb.2 0 (Nat.zero_le _)).2⟩
  have hoz : orig z = p := by simpa using (hb.2 0 (Nat.zero_le _)).1
  have hfirst : m' (K.dest z) = m p := by
    rw [hmv.copy z hz, h.mem_of_functor hz (by rwa [hoz]) (by rwa [hoz]), hoz]
  rw [view, view, hfirst, if_neg hfvl, if_neg hfvl]
  refine .app (by simp [argCells]) fun q hq => ?_
  obtain ⟨i, hi, rfl⟩ := List.mem_iff_getElem.1 hq
  simp only [List.length_zip, argCells, List.length_map, List.length_range, min_self] at hi
  obtain ⟨ho, hlt⟩ := hb.2 (i + 1) (by omega)
  have harg : p + 1 + i = p + ((i + 1 : ℕ) : Int) := by push_cast; omega
  have hplace : K.dest z + 1 + i = K.dest (z + ((i + 1 : ℕ) : Int)) := by
    rw [dest_add]
    push_cast
    omega
  simp only [List.getElem_zip, argCells, List.getElem_map, List.getElem_range]
  rw [hplace, harg, ← ho]
  refine stands_cell ⟨by omega, hlt⟩ ?_
  rw [ho, ← harg]
  exact hargs _ (List.mem_map.2 ⟨i, List.mem_range.2 hi, rfl⟩)

variable (hm : Collectable K ceiling m cells)

include hm

/-- **A word of the copy** goes on as its origin. -/
theorem goesOn_copy {y : Int} (hy : Copied K c y) (ho : orig y ∈ cells) :
    GoesOn K m m' cells orig c nl ((y - K.copy_bottom).toNat + 1) (view m (m (orig y)))
      (.ref (K.dest y)) := by
  have hw := hm.placed _ ho
  have ht := hm.tidy _ ho
  have hgraph := hmv.graph_copy hy ho
  -- A step of the copy alone, to the word that was settled.
  have hright : ∀ {n : ℕ} {w₀ : Word}, Steps m n (m (orig y)) w₀ → c.mem y ≠ .ref (K.dest y) →
      Becomes K m cells orig c 0 w₀ (c.mem y) →
      GoesOn K m m' cells orig c nl ((y - K.copy_bottom).toNat + 1) (view m (m (orig y)))
        (.ref (K.dest y)) := by
    intro n w₀ hs hne hb
    refine .right 0 ?_ (Nat.succ_pos _) ?_
    · rw [hgraph]
      exact fun he => hne (view_eq_ref.1 he)
    · rw [hgraph]
      exact hb.stands hs hw ht
  cases h.settled_of_copied hy with
  | old hs hold hread =>
    refine hright hs ?_ (by rw [hread]; exact .old hold)
    rw [hread]
    rintro rfl
    have := le_dest hy
    exact absurd hold (by simp only [Old]; omega)
  | @var n a z hs hu hla hmem hcz hread =>
    have ha : a ∈ cells := hs.placed hm.toWellFormed hw
    have hz := h.forward_of_mem hm ha hla hmem hcz hu
    have hb := Becomes.var ha hla hu hz
    by_cases hzy : z = y
    · subst hzy
      exact .of_steps hb hs hm hw (h.goesOn_var hmv _ ha hla hu hz)
    · refine hright hs ?_ (by rw [hread]; exact hb)
      rw [hread]
      exact fun he => hzy (dest_inj (Word.ref.inj he))
  | @cell n z _ hs hn hoz hcz hread =>
    have hb := Becomes.copy (m := m) hcz hoz
    have hne : z ≠ y → graph m' (newCells K cells orig c nl) (K.dest y) ≠ .ref (K.dest y) := by
      intro hzy
      rw [hgraph, hread]
      exact fun he => hzy (dest_inj (Word.ref.inj (view_eq_ref.1 he)))
    rcases hs.first with ⟨hn0, -⟩ | ⟨a, k, hk, hwa, hself, hs'⟩
    · have hlt : z < y := hn.resolve_left (by omega)
      have hbottom := hcz.1
      refine .right ((z - K.copy_bottom).toNat + 1) (hne (ne_of_lt hlt)) (by omega) ?_
      rw [hgraph, hread]
      exact hb.stands hs hw ht
    · have ha : a ∈ cells := by
        rwa [hwa] at hw
      have hself' : graph m cells a ≠ .ref a := fun he => hself ((graph_eq_ref ha).1 he)
      have hstands : ∀ {k' : ℕ} {w' : Word}, Becomes K m cells orig c k' (m (orig z)) w' →
          Stands K m m' cells orig c k' (graph m cells a) (view m' w') := by
        intro k' w' hb'
        rw [graph_of_mem ha]
        exact hb'.stands hs' (hm.placed a ha) (hm.tidy a ha)
      rw [hwa]
      by_cases hzy : z = y
      · -- A cycle of references, which denotes nothing.
        subst hzy
        exact .left _ hself' (hstands hb)
      · refine .both ((z - K.copy_bottom).toNat + 1) hself' (hne hzy) ?_
        rw [hgraph, hread]
        exact hstands hb
  | @list n p z hs hz hz' hop hop' hread =>
    refine hright hs (by rw [hread]; simp) ?_
    rw [hread, ← hop]
    exact .list hz hz' (by rw [hop', hop])
  | str hs hla hb hread =>
    refine hright hs (by rw [hread]; simp) ?_
    rw [hread]
    exact .str hla hb

/-- **An old cell** goes on as before, or into its copy. -/
theorem goesOn_low {a : Int} (ha : a ∈ cells) (hla : a < K.cline) :
    GoesOn K m m' cells orig c nl 0 (.ref a) (.ref a) := by
  have hin : a ∈ newCells K cells orig c nl := old_mem_newCells ha hla
  by_cases hd : done a
  · obtain ⟨-, -, x, hx, ho, hmem⟩ := h.root a hd
    have hread : m' a = .ref (K.dest x) := (hmv.low a hla).trans hmem
    have hle := le_dest hx
    subst ho
    refine .both ((x - K.copy_bottom).toNat + 1) (fun he => h.bound _ hd ((graph_eq_ref ha).1 he))
      (fun he => ?_) ?_
    · have hself := (graph_eq_ref hin).1 he
      rw [hread] at hself
      have := Word.ref.inj hself
      omega
    · rw [graph_of_mem ha, graph_of_mem hin, hread]
      exact (Becomes.copy (m := m) hx ha).stands (.refl _) (hm.placed _ ha) (hm.tidy _ ha)
  · have hread : m' a = m a := h.low_eq hmv (hm.bottom a ha) hla hd
    by_cases hu : m a = .ref a
    · have hname : newName K c a = a := if_pos hla
      have hgo : GoesOn K m m' cells orig c nl 0 (.ref a) (.ref (newName K c a)) := by
        refine .unbound ((graph_eq_ref ha).2 hu) ?_ ⟨ha, hu, Or.inl hla⟩
        rw [hname]
        exact (graph_eq_ref hin).2 (hread.trans hu)
      rwa [hname] at hgo
    · refine .both 0 (fun he => hu ((graph_eq_ref ha).1 he))
        (fun he => hu (hread.symm.trans ((graph_eq_ref hin).1 he))) ?_
      rw [graph_of_mem ha, graph_of_mem hin, hread]
      exact (Becomes.old (h.barrier a ha hla hd)).stands (.refl _) (hm.placed a ha) (hm.tidy a ha)

/-- **Nodes that stand for each other go on together.** -/
theorem answers {k : ℕ} {v v' : Node Sym Int} (hs : Stands K m m' cells orig c k v v') :
    GoesOn K m m' cells orig c nl k v v' := by
  obtain ⟨n, w, w₀, w', rfl, rfl, hw, ht, hs, hb⟩ := hs
  have hw₀ := hs.placed hm.toWellFormed hw
  have ht₀ := hs.tidy hm hw ht
  refine .of_steps hb hs hm hw ?_
  cases hb with
  | copy hy ho => exact h.goesOn_copy hmv hm hy ho
  | var ha hla hu hz => exact h.goesOn_var hmv 0 ha hla hu hz
  | old hold =>
    by_cases href : ∃ a, w₀ = .ref a
    · obtain ⟨a, rfl⟩ := href
      exact h.goesOn_low hmv hm hw₀ hold
    · exact h.goesOn_old hmv hold hw₀ ht₀ fun a ha => href ⟨a, ha⟩
  | list hz hz' ho => exact goesOn_list hz hz' ho hw₀.1 hw₀.2
  | str hla hb => exact h.goesOn_str hmv hb hla hw₀ ht₀

/-! ### What cells denote -/

theorem den_low {a : Int} (ha : a ∈ cells) (hla : a < K.cline) {t : Term Sym Int}
    (ht : Den (graph m cells) (.ref a) t) :
    Den (graph m' (newCells K cells orig c nl)) (.ref a) (t.rename (newName K c)) ∧
      ∀ x, Term.Occurs x t → Kept K m cells orig c x :=
  ht.copy (fun _ _ _ => h.answers hmv hm) (stands_low ha hla)

theorem den_copy {y : Int} (hy : Copied K c y) (ho : orig y ∈ cells) {t : Term Sym Int}
    (ht : Den (graph m cells) (.ref (orig y)) t) :
    Den (graph m' (newCells K cells orig c nl)) (.ref (K.dest y)) (t.rename (newName K c)) ∧
      ∀ x, Term.Occurs x t → Kept K m cells orig c x := by
  obtain ⟨k, hk⟩ : ∃ k, Stands K m m' cells orig c k (.ref (orig y)) (.ref (K.dest y)) :=
    stands_cell hy ho
  exact ht.copy (fun _ _ _ => h.answers hmv hm) hk

omit hmv hm in
/-- A word of the copy does not refer to the cells on top of it. -/
theorem ref_lt {y x : Int} (hy : Copied K c y) (hread : c.mem y = .ref x) : x < K.dest c.freep := by
  have hline : K.cline ≤ K.dest c.freep := (le_dest hy).trans (dest_lt hy).le
  have hcopied : ∀ z, Copied K c z → c.mem y = .ref (K.dest z) → x < K.dest c.freep := by
    intro z hz hread'
    rw [Word.ref.inj (hread.symm.trans hread')]
    exact dest_lt hz
  cases h.settled_of_copied hy with
  | old _ hold hread' =>
    rw [← hread', hread] at hold
    exact lt_of_lt_of_le hold hline
  | var _ _ _ _ hz hread' => exact hcopied _ hz hread'
  | cell _ _ _ _ hz hread' => exact hcopied _ hz hread'
  | list _ _ _ _ _ hread' => exact absurd (hread.symm.trans hread') (by simp)
  | str _ _ _ hread' => exact absurd (hread.symm.trans hread') (by simp)

theorem den_top {i : ℕ} (hi : i < nl) {t : Term Sym Int}
    (ht : Den (graph m cells) (.ref (orig (K.copy_bottom + i))) t) :
    Den (graph m' (newCells K cells orig c nl)) (.ref (K.dest c.freep + i))
        (t.rename (newName K c)) ∧ ∀ x, Term.Occurs x t → Kept K m cells orig c x := by
  obtain ⟨hlt, ho⟩ := h.args i hi
  have hy : Copied K c (K.copy_bottom + i) := ⟨by omega, hlt⟩
  obtain ⟨hden, hkept⟩ := h.den_copy hmv hm hy ho ht
  have hin : K.dest c.freep + i ∈ newCells K cells orig c nl :=
    mem_newCells.2 (Or.inr (Or.inr ⟨by omega, by omega⟩))
  have hnode : graph m' (newCells K cells orig c nl) (K.dest c.freep + i) =
      view m' (c.mem (K.copy_bottom + i)) := by
    rw [graph_of_mem hin, hmv.top i hi]
  refine ⟨hden.mirror ?_ ?_, hkept⟩
  · rw [hnode, hmv.graph_copy hy ho]
  · rw [hnode]
    intro he
    have := h.ref_lt hy (view_eq_ref.1 he)
    omega

/-- **The new store is acyclic.** -/
theorem acyclic :
    Acyclic m' (newCells K cells orig c nl) (K.dest c.freep + nl - 1) where
  toWellFormed := h.wellFormed hmv hm
  denotes b hb := by
    rcases mem_newCells.1 hb with ⟨hin, hlb⟩ | ⟨y, hy, ho, rfl⟩ | ⟨hlb, hub⟩
    · obtain ⟨t, ht⟩ := hm.denotes b hin
      exact ⟨_, (h.den_low hmv hm hin hlb ht).1⟩
    · obtain ⟨t, ht⟩ := hm.denotes _ ho
      exact ⟨_, (h.den_copy hmv hm hy ho ht).1⟩
    · obtain ⟨i, rfl⟩ := Int.le.dest hlb
      have hi : i < nl := by omega
      obtain ⟨t, ht⟩ := hm.denotes _ (h.args i hi).2
      exact ⟨_, (h.den_top hmv hm hi ht).1⟩

omit hmv hm in
/-- **Variables stay apart.** -/
theorem newName_injOn : Set.InjOn (newName K c) {a | Kept K m cells orig c a} := by
  have hmid : ∀ {a b z : Int}, a < K.cline → K.cline ≤ b → Forward K m orig c b z →
      newName K c a ≠ newName K c b := by
    intro a b z hla hlb hz he
    have hle := le_dest hz.copied
    rw [newName, if_pos hla, newName_forward hlb hz] at he
    omega
  rintro a ⟨-, hua, hla | ⟨hla, z, hz⟩⟩ b ⟨-, hub, hlb | ⟨hlb, z', hz'⟩⟩ he
  · rwa [newName, newName, if_pos hla, if_pos hlb] at he
  · exact absurd he (hmid hla hlb hz')
  · exact absurd he.symm (hmid hlb hla hz)
  · -- Both were forwarded to one word, whose origin leads to one variable.
    rw [newName_forward hla hz, newName_forward hlb hz'] at he
    obtain rfl := dest_inj he
    have hlt : z < c.scanp := by
      rw [h.ready]
      exact hz.copied.2
    obtain ⟨-, n, hn⟩ := hz.unbound hua hlt
    obtain ⟨-, n', hn'⟩ := hz'.unbound hub hlt
    exact hn.end_unique hua hn' hub

end Finished

end Collection

end Mlvm
