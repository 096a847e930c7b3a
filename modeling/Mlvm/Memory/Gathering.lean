import Mlvm.Memory.Rounds
import Mathlib.Data.List.Perm.Basic

/-!
# Gathering the arguments and the roots

**`Gathered`**: before the scan every word of the copy is what its origin held, and nothing above
the line has changed.

**The trail.** A root is an old cell that is bound, and no old cell is recorded twice. Each of them
is copied once (`gathered_popRoots`), and those below the previous generation stay on the trail
(`kept_popRoots`).
-/

namespace Mlvm

namespace Collection

variable {K : Area} {ceiling prevp : Int} {m : Int → Word} {cells : Finset Int} {done : Int → Prop}
  {orig : Int → Int} {c : Copy}

variable (K m cells done orig c) in
/-- The copy before the scan, when the roots `done` are in it. -/
structure Gathered : Prop where
  scanp : c.scanp = K.copy_bottom
  freep : K.copy_bottom ≤ c.freep
  good : ∀ x, Copied K c x → orig x ∈ cells
  reads : ∀ x, Copied K c x → c.mem x = m (orig x)
  old : ∀ a, K.stack_bottom ≤ a → a < K.cline → ¬ done a → c.mem a = m a
  root : ∀ a, done a → a ∈ cells ∧ a < K.cline ∧
    ∃ x, Copied K c x ∧ orig x = a ∧ c.mem a = .ref (K.dest x)
  mid : ∀ a, K.cline ≤ a → a ≤ K.st → c.mem a = m a

theorem Gathered.inv (h : Gathered K m cells done orig c) : Inv K m cells done orig c where
  bottom_le := h.scanp.ge
  le_freep := h.scanp.le.trans h.freep
  good x hx := Or.inl (h.good x hx)
  old := h.old
  root := h.root
  mid a hla hst := Or.inl (h.mid a hla hst)
  waits x hx hx' := Or.inl (h.reads x ⟨h.scanp.ge.trans hx, hx'⟩)
  settled x hx hx' := absurd hx' (by rw [h.scanp]; omega)

/-! ## The arguments -/

/-- The copy with nothing but the arguments. -/
def copyArgs (K : Area) (im : Imago) : Copy :=
  Copy.putCells im.nl (im.st - im.nl + 1)
    ⟨clear K.copy_bottom im.mem, K.copy_bottom, K.copy_bottom⟩

/-- The weight of the arguments. -/
theorem waiting_args (im : Imago) : waiting m cells (extend K.copy_bottom (im.st - im.nl + 1) id)
    (copyArgs K im) = ∑ i ∈ Finset.range im.nl, weight m cells (im.st - im.nl + 1 + i) := by
  have hscanp : (copyArgs K im).scanp = K.copy_bottom := putCells_scanp ..
  have hfree : (copyArgs K im).freep = K.copy_bottom + im.nl := putCells_freep ..
  rw [waiting_extend m cells id (im.st - im.nl + 1) le_rfl hscanp hfree
    (c := ⟨clear K.copy_bottom im.mem, K.copy_bottom, K.copy_bottom⟩), waiting, sub_self]
  exact Nat.zero_add _

theorem gathered_args {im : Imago} (hm : Collectable K ceiling im.mem cells)
    (hsize : K.copy_bottom + GC_STATIC ≤ K.copy_end)
    (hargs : ∀ i : ℕ, i < im.nl → im.st - im.nl + 1 + i ∈ cells)
    (hend : (copyArgs K im).freep ≤ K.copy_end) :
    Gathered K im.mem cells (fun _ => False)
      (extend K.copy_bottom (im.st - im.nl + 1) id) (copyArgs K im) := by
  have hfree : (copyArgs K im).freep = K.copy_bottom + im.nl := putCells_freep ..
  have hclear : ∀ a, K.stack_bottom ≤ a → a ≤ K.st → clear K.copy_bottom im.mem a = im.mem a := by
    intro a ha hst
    refine if_neg fun hin => ?_
    exact hm.apart (x := a) ⟨ha, hst⟩ ⟨hin.1, by omega⟩ rfl
  have hblock : ∀ a, K.stack_bottom ≤ a → a ≤ K.st → (copyArgs K im).mem a = im.mem a := by
    intro a ha hst
    rw [copyArgs, putCells_rest]
    · exact hclear a ha hst
    · by_contra hin
      simp only at hin
      exact hm.apart (x := a) ⟨ha, hst⟩ ⟨by omega, by omega⟩ rfl
  have hline := hm.line
  have hst := hm.line_st
  refine ⟨putCells_scanp .., by omega, fun x hx => ?_, fun x hx => ?_, fun a ha hla _ => ?_,
    fun a ha => ha.elim, fun a hla hst => ?_⟩
  · obtain ⟨i, rfl⟩ := Int.le.dest hx.1
    have hi := hx.2
    rw [extend_add]
    exact hargs i (by omega)
  · obtain ⟨i, rfl⟩ := Int.le.dest hx.1
    have hi := hx.2
    have hcell := hm.block (hargs i (by omega))
    rw [extend_add, copyArgs]
    refine (putCells_fresh (fun j hj => ?_) (by omega)).trans (hclear _ hcell.1 hcell.2)
    by_contra hin
    simp only at hin
    exact hm.apart (hm.block (hargs j hj)) ⟨by omega, by omega⟩ rfl
  · exact hblock a ha (by omega)
  · exact hblock a (hline.trans hla) hst

/-! ## One root -/

theorem Gathered.copyRoot (h : Gathered K m cells done orig c) (hm : Collectable K ceiling m cells)
    {a : Int} (ha : a ∈ cells) (hla : a < K.cline) (hnew : ¬ done a)
    (hend : c.freep + 1 ≤ K.copy_end) :
    Gathered K m cells (fun b => done b ∨ b = a) (extend c.freep a orig) (copyRoot K a c) := by
  have hbottom := h.freep
  have hfree : a ≠ c.freep := hm.apart (hm.block ha) ⟨hbottom, by omega⟩
  have hread : (Collection.copyRoot K a c).mem c.freep = m a := by
    simp only [Collection.copyRoot, Copy.put, Copy.set]
    rw [Function.update_of_ne hfree.symm, Function.update_self]
    exact h.old a (hm.bottom a ha) hla hnew
  have hself : (Collection.copyRoot K a c).mem a = .ref (K.dest c.freep) := Function.update_self ..
  have hrest : ∀ b, b ≠ a → b ≠ c.freep → (Collection.copyRoot K a c).mem b = c.mem b := by
    intro b hba hbf
    simp only [Collection.copyRoot, Copy.put, Copy.set]
    rw [Function.update_of_ne hba, Function.update_of_ne hbf]
  have hblock : ∀ b, K.stack_bottom ≤ b → b ≤ K.st → b ≠ a →
      (Collection.copyRoot K a c).mem b = c.mem b := fun b hb hst hba =>
    hrest b hba (hm.apart ⟨hb, hst⟩ ⟨hbottom, by omega⟩)
  have hcopied : ∀ x, Copied K (Collection.copyRoot K a c) x → Copied K c x ∨ x = c.freep := by
    rintro x ⟨hx, hx'⟩
    simp only [Collection.copyRoot, Copy.put, Copy.set] at hx'
    by_cases hlt : x < c.freep
    · exact Or.inl ⟨hx, hlt⟩
    · exact Or.inr (by omega)
  have hgrow : ∀ x, Copied K c x → Copied K (Collection.copyRoot K a c) x := fun x hx =>
    ⟨hx.1, hx.2.trans (Int.lt_succ _)⟩
  have hnewOrig : extend c.freep a orig c.freep = a := by simpa using extend_add c.freep a 0
  have hst := hm.line_st
  refine ⟨h.scanp, hbottom.trans (Int.le_of_lt (Int.lt_succ _)), fun x hx => ?_, fun x hx => ?_,
    fun b hb hlb hdone => ?_, fun b hb => ?_, fun b hlb hstb => ?_⟩
  · rcases hcopied x hx with hx | rfl
    · rw [extend_of_lt hx.2]
      exact h.good x hx
    · rwa [hnewOrig]
  · rcases hcopied x hx with hx | rfl
    · have hxa : x ≠ a := fun he =>
        hm.apart (hm.block ha) ⟨hx.1, by have := hx.2; omega⟩ he.symm
      rw [extend_of_lt hx.2, hrest x hxa (ne_of_lt hx.2), h.reads x hx]
    · rw [hnewOrig, hread]
  · have hba : b ≠ a := fun he => hdone (Or.inr he)
    rw [hblock b hb (by omega) hba, h.old b hb hlb fun hd => hdone (Or.inl hd)]
  · by_cases hba : b = a
    · subst hba
      exact ⟨ha, hla, c.freep, ⟨hbottom, Int.lt_succ _⟩, hnewOrig, hself⟩
    · obtain ⟨hin, hlb, x, hx, ho, hmem⟩ := h.root b (hb.resolve_right hba)
      refine ⟨hin, hlb, x, hgrow x hx, (extend_of_lt hx.2).trans ho, ?_⟩
      rw [hblock b (hm.bottom b hin) (hm.below b hin) hba, hmem]
  · have hbase := hm.line
    rw [hblock b (by omega) hstb (by omega), h.mid b hlb hstb]

/-! ## All roots -/

/-- A slot that holds an old cell. -/
def Slot.isOld (K : Area) : Slot → Bool
  | cell a => K.hitOld a
  | line _ => false

/-- A slot whose root stays on the trail. -/
def Slot.stays (K : Area) (prevp : Int) : Slot → Bool
  | cell a => !K.hitMid a && K.hitPrevious prevp a
  | line _ => false

variable (K m cells) in
/-- The weight of the old cells among the slots. -/
noncomputable def rootsWeight (l : List Slot) : ℕ :=
  ((l.filter (Slot.isOld K)).map fun s => weight m cells s.addr).sum

/-- The slots of a trail above the generation line: cells of the block, of which the old ones are
bound and recorded once. -/
structure Recorded (K : Area) (m : Int → Word) (cells : Finset Int) (l : List Slot) : Prop where
  bound : ∀ a, .cell a ∈ l → a ≠ 0 ∧ (K.hitMid a = true ∨ a ∈ cells ∧ a < K.cline ∧ m a ≠ .ref a)
  once : (l.filter (Slot.isOld K)).Nodup

theorem perm_pushBottom (l : List Slot) : (pushBottom l).Perm l := by
  rcases List.eq_nil_or_concat l with rfl | ⟨l, z, rfl⟩
  · exact .refl _
  · simpa [pushBottom] using (List.perm_append_singleton z l).symm

theorem rootsWeight_perm {l l' : List Slot} (h : l'.Perm l) :
    rootsWeight K m cells l' = rootsWeight K m cells l :=
  ((h.filter _).map _).sum_eq

theorem rootsWeight_cons (hm : Collectable K ceiling m cells) {a : Int} (l : List Slot)
    (ha : a ∈ cells) (hla : a < K.cline) :
    rootsWeight K m cells (.cell a :: l) = weight m cells a + rootsWeight K m cells l := by
  have hold : Slot.isOld K (.cell a) = true := hitOld_iff.2 ⟨hla, hm.bottom a ha⟩
  rw [rootsWeight, List.filter_cons_of_pos hold, List.map_cons, List.sum_cons]
  rfl

theorem Recorded.tail {s : Slot} {l : List Slot} (h : Recorded K m cells (s :: l)) :
    Recorded K m cells l where
  bound a ha := h.bound a (List.mem_cons_of_mem _ ha)
  once := h.once.sublist ((List.sublist_cons_self s l).filter _)

theorem Recorded.perm {l l' : List Slot} (h : Recorded K m cells l) (hl : l'.Perm l) :
    Recorded K m cells l' where
  bound a ha := h.bound a (hl.mem_iff.1 ha)
  once := (hl.filter _).nodup_iff.2 h.once

theorem copyRoot_freep (a : Int) (c : Copy) : (copyRoot K a c).freep = c.freep + 1 := rfl

theorem popRoots_freep (K : Area) (prevp : Int) (l kept : List Slot) (c : Copy) :
    c.freep ≤ (popRoots K prevp l kept c).copy.freep := by
  induction l, kept, c using popRoots.induct K prevp with
  | case1 kept c => rw [popRoots]
  | case2 g l kept c ih => rwa [popRoots]
  | case3 l kept c => rw [popRoots, if_pos rfl]
  | case4 a l kept c hne hmid ih => rwa [popRoots, if_neg hne, if_pos hmid]
  | case5 a l kept c hne hmid hprev ih =>
    rw [popRoots, if_neg hne, if_neg hmid, if_pos hprev]
    rw [copyRoot_freep] at ih
    omega
  | case6 a l kept c hne hmid hprev ih =>
    rw [popRoots, if_neg hne, if_neg hmid, if_neg hprev]
    rw [copyRoot_freep] at ih
    omega

/-- A root has a weight. -/
theorem lt_rootsWeight (hm : Collectable K ceiling m cells) {a : Int} {l l' : List Slot}
    (hl : Recorded K m cells (.cell a :: l)) (hmid : ¬ K.hitMid a = true) (hperm : l'.Perm l) :
    rootsWeight K m cells l' < rootsWeight K m cells (.cell a :: l) := by
  obtain ⟨ha, hla, -⟩ := (hl.bound a List.mem_cons_self).2.resolve_left hmid
  have hpos := weight_pos m cells a
  rw [rootsWeight_cons hm l ha hla, rootsWeight_perm hperm]
  omega

/-- The roots take one word each. -/
theorem popRoots_freep_le (hm : Collectable K ceiling m cells) (prevp : Int) {l : List Slot}
    (kept : List Slot) (hl : Recorded K m cells l) (c : Copy) :
    (popRoots K prevp l kept c).copy.freep ≤ c.freep + rootsWeight K m cells l := by
  induction l, kept, c using popRoots.induct K prevp with
  | case1 kept c =>
    rw [popRoots]
    show c.freep ≤ _
    omega
  | case2 g l kept c ih =>
    rw [popRoots]
    exact ih hl.tail
  | case3 l kept c => exact absurd rfl (hl.bound 0 List.mem_cons_self).1
  | case4 a l kept c hne hmid ih =>
    have hnot : ¬ Slot.isOld K (.cell a) = true := fun hold => by
      have := (hitOld_iff.1 hold).1
      have := (hitMid_iff.1 hmid).2
      omega
    rw [popRoots, if_neg hne, if_pos hmid, rootsWeight, List.filter_cons_of_neg hnot]
    exact ih hl.tail
  | case5 a l kept c hne hmid hprev ih =>
    have hperm := perm_pushBottom l
    have hlt := lt_rootsWeight hm hl hmid hperm
    have hle := ih (hl.tail.perm hperm)
    rw [popRoots, if_neg hne, if_neg hmid, if_pos hprev]
    rw [copyRoot_freep] at hle
    omega
  | case6 a l kept c hne hmid hprev ih =>
    have hlt := lt_rootsWeight hm hl hmid (.refl l)
    have hle := ih hl.tail
    rw [popRoots, if_neg hne, if_neg hmid, if_neg hprev]
    rw [copyRoot_freep] at hle
    omega

theorem Gathered.congr {done' : Int → Prop} (h : Gathered K m cells done orig c)
    (hiff : ∀ a, done' a ↔ done a) : Gathered K m cells done' orig c := by
  rwa [funext fun a => propext (hiff a)]

/-- The root of a slot is not among the slots behind it. -/
theorem Recorded.not_mem (hm : Collectable K ceiling m cells) {a : Int} {l : List Slot}
    (h : Recorded K m cells (.cell a :: l)) (ha : a ∈ cells) (hla : a < K.cline) :
    .cell a ∉ l := by
  have hold : Slot.isOld K (.cell a) = true := hitOld_iff.2 ⟨hla, hm.bottom a ha⟩
  have honce := h.once
  rw [List.filter_cons_of_pos hold] at honce
  exact fun hin => (List.nodup_cons.1 honce).1 (List.mem_filter.2 ⟨hin, hold⟩)

/-- Copying the root of the first slot and then those of the rest, in any order. -/
theorem gathered_root (hm : Collectable K ceiling m cells) {a : Int} {l l' : List Slot} {c' : Copy}
    (hl : Recorded K m cells (.cell a :: l)) (hperm : l'.Perm l) (hmid : ¬ K.hitMid a = true)
    (h : Gathered K m cells done orig c) (hdone : ∀ b, done b → .cell b ∉ .cell a :: l)
    (hend : c.freep + 1 ≤ K.copy_end)
    (hrest : ∀ {done' : Int → Prop} {orig' : Int → Int},
      Gathered K m cells done' orig' (copyRoot K a c) → (∀ b, done' b → .cell b ∉ l') →
      ∃ orig₂, Gathered K m cells (fun b => done' b ∨ .cell b ∈ l' ∧ b < K.cline) orig₂ c' ∧
        (∀ x, Copied K (copyRoot K a c) x → orig₂ x = orig' x) ∧
        waiting m cells orig₂ c' =
          waiting m cells orig' (copyRoot K a c) + rootsWeight K m cells l') :
    ∃ orig', Gathered K m cells (fun b => done b ∨ .cell b ∈ .cell a :: l ∧ b < K.cline) orig' c' ∧
      (∀ x, Copied K c x → orig' x = orig x) ∧
      waiting m cells orig' c' = waiting m cells orig c + rootsWeight K m cells (.cell a :: l) := by
  obtain ⟨ha, hla, -⟩ := (hl.bound a List.mem_cons_self).2.resolve_left hmid
  have hnot := hl.not_mem hm ha hla
  obtain ⟨orig', hg, horig, hwait⟩ := hrest
    (h.copyRoot hm ha hla (fun hd => hdone a hd List.mem_cons_self) hend) (fun b hb hin => by
      rcases hb with hb | rfl
      · exact hdone b hb (List.mem_cons_of_mem _ (hperm.mem_iff.1 hin))
      · exact hnot (hperm.mem_iff.1 hin))
  have hle : c.scanp ≤ c.freep := h.scanp.le.trans h.freep
  have hgrow : waiting m cells (extend c.freep a orig) (copyRoot K a c) =
      waiting m cells orig c + ∑ i ∈ Finset.range 1, weight m cells (a + i) :=
    waiting_extend m cells orig a hle rfl rfl
  refine ⟨orig', hg.congr fun b => ?_, fun x hx => ?_, ?_⟩
  · rw [hperm.mem_iff, List.mem_cons, Slot.cell.injEq, or_assoc]
    refine or_congr_right ⟨?_, ?_⟩
    · rintro ⟨rfl | hb, hlb⟩
      · exact Or.inl rfl
      · exact Or.inr ⟨hb, hlb⟩
    · rintro (rfl | ⟨hb, hlb⟩)
      · exact ⟨Or.inl rfl, hla⟩
      · exact ⟨Or.inr hb, hlb⟩
  · rw [horig x ⟨hx.1, hx.2.trans (Int.lt_succ _)⟩, extend_of_lt hx.2]
  · rw [Finset.sum_range_one, Nat.cast_zero, add_zero] at hgrow
    rw [hwait, hgrow, rootsWeight_perm hperm, rootsWeight_cons hm l ha hla, Nat.add_assoc]

/-- Every slot is taken. -/
theorem popRoots_left {l kept : List Slot} (hl : Recorded K m cells l) (c : Copy) :
    (popRoots K prevp l kept c).left = [] := by
  induction l, kept, c using popRoots.induct K prevp with
  | case1 kept c => rw [popRoots]
  | case2 g l kept c ih =>
    rw [popRoots]
    exact ih hl.tail
  | case3 l kept c => exact absurd rfl (hl.bound 0 List.mem_cons_self).1
  | case4 a l kept c hne hmid ih =>
    rw [popRoots, if_neg hne, if_pos hmid]
    exact ih hl.tail
  | case5 a l kept c hne hmid hprev ih =>
    rw [popRoots, if_neg hne, if_neg hmid, if_pos hprev]
    exact ih (hl.tail.perm (perm_pushBottom l))
  | case6 a l kept c hne hmid hprev ih =>
    rw [popRoots, if_neg hne, if_neg hmid, if_neg hprev]
    exact ih hl.tail

/-- **Every root is copied once.** -/
theorem gathered_popRoots (hm : Collectable K ceiling m cells) {l kept : List Slot}
    (hl : Recorded K m cells l) (h : Gathered K m cells done orig c)
    (hdone : ∀ a, done a → .cell a ∉ l)
    (hend : (popRoots K prevp l kept c).copy.freep ≤ K.copy_end) :
    ∃ orig', Gathered K m cells (fun a => done a ∨ .cell a ∈ l ∧ a < K.cline) orig'
        (popRoots K prevp l kept c).copy ∧ (∀ x, Copied K c x → orig' x = orig x) ∧
      waiting m cells orig' (popRoots K prevp l kept c).copy =
        waiting m cells orig c + rootsWeight K m cells l := by
  induction l, kept, c using popRoots.induct K prevp generalizing done orig with
  | case1 kept c =>
    rw [popRoots]
    exact ⟨orig, h.congr fun a => by simp, fun _ _ => rfl, by simp [rootsWeight]⟩
  | case2 g l kept c ih =>
    rw [popRoots] at hend ⊢
    obtain ⟨orig', hg, horig, hwait⟩ := ih hl.tail h
      (fun a ha hin => hdone a ha (List.mem_cons_of_mem _ hin)) hend
    exact ⟨orig', hg.congr fun a => by simp, horig, hwait⟩
  | case3 l kept c => exact absurd rfl (hl.bound 0 List.mem_cons_self).1
  | case4 a l kept c hne hmid ih =>
    rw [popRoots, if_neg hne, if_pos hmid] at hend ⊢
    obtain ⟨orig', hg, horig, hwait⟩ := ih hl.tail h
      (fun b hb hin => hdone b hb (List.mem_cons_of_mem _ hin)) hend
    have hla := (hitMid_iff.1 hmid).2
    have hnot : ¬ Slot.isOld K (.cell a) = true := fun hold => by
      have := (hitOld_iff.1 hold).1
      omega
    refine ⟨orig', hg.congr fun b => or_congr_right ?_, horig, ?_⟩
    · rw [List.mem_cons, Slot.cell.injEq]
      refine and_congr_left fun hlb => ⟨fun hb => hb.resolve_left ?_, Or.inr⟩
      rintro rfl
      omega
    · rw [hwait, rootsWeight, rootsWeight, List.filter_cons_of_neg hnot]
  | case5 a l kept c hne hmid hprev ih =>
    rw [popRoots, if_neg hne, if_neg hmid, if_pos hprev] at hend ⊢
    have hfree := popRoots_freep K prevp (pushBottom l) (.cell a :: kept)
      (copyRoot K a c)
    rw [copyRoot_freep] at hfree
    have hperm := perm_pushBottom l
    exact gathered_root hm hl hperm hmid h hdone (by omega) fun hg hnot =>
      ih (hl.tail.perm hperm) hg hnot hend
  | case6 a l kept c hne hmid hprev ih =>
    rw [popRoots, if_neg hne, if_neg hmid, if_neg hprev] at hend ⊢
    have hfree := popRoots_freep K prevp l kept (copyRoot K a c)
    rw [copyRoot_freep] at hfree
    exact gathered_root hm hl (.refl l) hmid h hdone (by omega) fun hg hnot => ih hl.tail hg hnot
      hend

/-- **The roots below the previous generation stay**, in some order. -/
theorem kept_popRoots (prevp : Int) {l : List Slot} (kept : List Slot) (hl : Recorded K m cells l)
    (c : Copy) :
    (popRoots K prevp l kept c).kept.Perm (l.filter (Slot.stays K prevp) ++ kept) := by
  induction l, kept, c using popRoots.induct K prevp with
  | case1 kept c => rw [popRoots]; exact .refl _
  | case2 g l kept c ih =>
    rw [popRoots, List.filter_cons_of_neg (by simp [Slot.stays])]
    exact ih hl.tail
  | case3 l kept c => exact absurd rfl (hl.bound 0 List.mem_cons_self).1
  | case4 a l kept c hne hmid ih =>
    rw [popRoots, if_neg hne, if_pos hmid, List.filter_cons_of_neg (by simp [Slot.stays, hmid])]
    exact ih hl.tail
  | case5 a l kept c hne hmid hprev ih =>
    rw [popRoots, if_neg hne, if_neg hmid, if_pos hprev,
      List.filter_cons_of_pos (by simp [Slot.stays, hmid, hprev])]
    refine (ih (hl.tail.perm (perm_pushBottom l))).trans ?_
    refine (((perm_pushBottom l).filter _).append_right _).trans ?_
    exact List.perm_middle
  | case6 a l kept c hne hmid hprev ih =>
    rw [popRoots, if_neg hne, if_neg hmid, if_neg hprev,
      List.filter_cons_of_neg (by simp [Slot.stays, hprev])]
    exact ih hl.tail

end Collection

end Mlvm
