import Mlvm.Memory.Forwarding
import Mlvm.Fuel.Comes
import Mathlib.Algebra.BigOperators.Group.Finset.Basic
import Mathlib.Algebra.BigOperators.Intervals

/-!
# Scanning the copy

**`Round`**: the ways a round can go, with what the program has found out when it takes them.
Shunting comes to one of them because chains of references end (`shunt_comes`).

**Progress.** A word that waits has the weight of the term its origin denotes, and a round replaces
one word by words that weigh less together. The scan therefore ends, or leaves the buffer
(`scan_comes`).
-/

namespace Mlvm

namespace Collection

open FirstOrder Fuel

variable {K : Area} {ceiling : Int} {m : Int → Word} {cells : Finset Int} {done : Int → Prop}
  {orig orig' : Int → Int} {c c' : Copy}

/-! ## The tests of addresses -/

theorem hitOld_iff {a : Int} : K.hitOld a = true ↔ a < K.cline ∧ K.stack_bottom ≤ a := by
  simp [Area.hitOld]

theorem hitMid_iff {a : Int} : K.hitMid a = true ↔ a ≤ K.st ∧ K.cline ≤ a := by
  simp [Area.hitMid]

theorem hitCopiedVar_iff {a : Int} : K.hitCopiedVar c a = true ↔ Copied K c a := by
  simp [Area.hitCopiedVar, Copied, and_comm]

theorem Collectable.not_copied (hm : Collectable K ceiling m cells) (hend : c.freep ≤ K.copy_end)
    {a : Int} (ha : K.stack_bottom ≤ a ∧ a ≤ K.st) : ¬ Copied K c a := fun h =>
  hm.apart ha ⟨h.1, lt_of_lt_of_le h.2 hend⟩ rfl

theorem Collectable.not_old (hm : Collectable K ceiling m cells) (hend : c.freep ≤ K.copy_end)
    {x : Int} (hx : Copied K c x) : ¬ K.hitOld x = true := by
  intro h
  have hold := hitOld_iff.1 h
  have hst := hm.line_st
  exact hm.not_copied hend ⟨hold.2, by omega⟩ hx

/-! ## One round -/

variable (K m cells orig c) in
/-- What a round has found out about the word at `scanp`, and what it does. -/
inductive Round : Copy → Prop
  | old {n : ℕ} {w : Word} : Steps m n (m (orig c.scanp)) w → Old K w → Round (c.settle w)
  | follow {n : ℕ} {a z : Int} : Steps m n (m (orig c.scanp)) (.ref a) → a ∈ cells → K.cline ≤ a →
      Forward K m orig c a z → Round (c.settle (.ref (K.dest z)))
  | again {z : Int} : orig c.scanp ∈ cells → K.cline ≤ orig c.scanp → z < c.scanp →
      Forward K m orig c (orig c.scanp) z → Round (c.settle (.ref (K.dest z)))
  | var {n : ℕ} {a : Int} : Steps m n (m (orig c.scanp)) (.ref a) → a ∈ cells → K.cline ≤ a →
      m a = .ref a → c.mem a = .ref a → Round (forward K a c)
  | list {n : ℕ} {p : Int} : Steps m n (m (orig c.scanp)) (.lis p) → p ∈ cells → p + 1 ∈ cells →
      K.cline ≤ p → Round (copyList K p c)
  | str {n : ℕ} {p : Int} : Steps m n (m (orig c.scanp)) (.str p) → K.cline ≤ p →
      Placed m cells K.st (.str p) → Tidy K m cells (.str p) → Round (copyStr K p c)

/-- A word that no reference leads on from. -/
theorem checkRoot_round (hm : Collectable K ceiling m cells) {n : ℕ} {w : Word}
    (hw : Steps m n (m (orig c.scanp)) w) (hplaced : Placed m cells K.st w)
    (htidy : Tidy K m cells w) (hnref : ∀ a, w ≠ .ref a) :
    Round K m cells orig c (checkRoot K w c) := by
  cases w with
  | ref a => exact absurd rfl (hnref a)
  | cst v => exact .old hw trivial
  | lis p =>
    simp only [checkRoot]
    split_ifs with hold
    · exact .old hw (hitOld_iff.1 hold).1
    · refine .list hw hplaced.1 hplaced.2 ?_
      by_contra hlt
      exact hold (hitOld_iff.2 ⟨not_le.1 hlt, hm.bottom p hplaced.1⟩)
  | str p =>
    simp only [checkRoot]
    split_ifs with hold
    · exact .old hw (hitOld_iff.1 hold).1
    · refine .str hw ?_ hplaced htidy
      by_contra hlt
      exact hold (hitOld_iff.2 ⟨not_le.1 hlt, htidy.2.1⟩)

theorem shunt_copied (hm : Collectable K ceiling m cells) (hend : c.freep ≤ K.copy_end) {z : Int}
    (hz : Copied K c z) (n : ℕ) :
    shunt K (n + 1) (.ref z) c = some (c.settle (.ref (K.dest z))) := by
  rw [shunt, if_neg (hm.not_old hend hz), if_pos (hitCopiedVar_iff.2 hz)]

theorem Inv.forward_of_mem (h : Inv K m cells done orig c) (hm : Collectable K ceiling m cells)
    {a : Int} (ha : a ∈ cells) (hla : K.cline ≤ a) :
    c.mem a = m a ∨ ∃ z, Forward K m orig c a z := by
  rcases h.mid a hla (hm.below a ha) with hmem | ⟨z, ⟨-, hz⟩ | ⟨hout, -⟩⟩
  · exact Or.inl hmem
  · exact Or.inr ⟨z, hz⟩
  · exact absurd ha hout

/-- At a cell the chain comes to its end, or it goes on in the memory as it does in the store. -/
theorem shunt_cell (h : Inv K m cells done orig c) (hm : Collectable K ceiling m cells)
    (hend : c.freep ≤ K.copy_end) {n : ℕ} {a : Int} (hw : Steps m n (m (orig c.scanp)) (.ref a))
    (ha : a ∈ cells) :
    (∃ c', Comes (fun k => shunt K k (.ref a) c) (some c') ∧ Round K m cells orig c c') ∨
      m a ≠ .ref a ∧ ∀ k, shunt K (k + 1) (.ref a) c = shunt K k (m a) c := by
  have hcopied := hm.not_copied hend (hm.block ha)
  have hcopied' : ¬ K.hitCopiedVar c a = true := fun hc => hcopied (hitCopiedVar_iff.1 hc)
  by_cases hold : K.hitOld a = true
  · refine Or.inl ⟨_, .of_succ rfl ((comes_const _).congr fun k => ?_),
      .old hw (hitOld_iff.1 hold).1⟩
    rw [shunt, if_pos hold]
  have hla : K.cline ≤ a := by
    by_contra hlt
    exact hold (hitOld_iff.2 ⟨not_le.1 hlt, hm.bottom a ha⟩)
  rcases h.forward_of_mem hm ha hla with hmem | ⟨z, hz⟩
  · by_cases hself : m a = .ref a
    · refine Or.inl ⟨forward K a c, .of_succ rfl ((comes_const _).congr fun k => ?_),
        .var hw ha hla hself (hmem.trans hself)⟩
      rw [shunt, if_neg hold, if_neg hcopied', if_pos (hmem.trans hself)]
    · refine Or.inr ⟨hself, fun k => ?_⟩
      rw [shunt, if_neg hold, if_neg hcopied', hmem, if_neg hself]
  · have hne : c.mem a ≠ .ref a := by
      rw [hz.reads]
      rintro hza
      exact hcopied (Word.ref.inj hza ▸ hz.copied)
    refine Or.inl ⟨_, .of_succ rfl (.of_succ ?_ ((comes_const _).congr fun k => ?_)),
      .follow hw ha hla hz⟩
    · rw [shunt, if_neg hold, if_neg hcopied', if_neg hne]
      rfl
    · rw [shunt, if_neg hold, if_neg hcopied', if_neg hne, hz.reads]
      exact shunt_copied hm hend hz.copied k

/-- **Shunting** from a word that the origin leads to. -/
theorem shunt_reached (h : Inv K m cells done orig c) (hm : Collectable K ceiling m cells)
    (hend : c.freep ≤ K.copy_end) {v : Node Sym Int} {t : Term Sym Int}
    (hden : Den (graph m cells) v t) {n : ℕ} {w : Word} (hv : view m w = v)
    (hw : Steps m n (m (orig c.scanp)) w) (hplaced : Placed m cells K.st w)
    (htidy : Tidy K m cells w) :
    ∃ c', Comes (fun k => shunt K k w c) (some c') ∧ Round K m cells orig c c' := by
  induction hden generalizing n w with
  | @unbound a hu =>
    obtain rfl := view_eq_ref.1 hv
    have ha : a ∈ cells := hplaced
    rcases shunt_cell h hm hend hw ha with hcomes | ⟨hne, -⟩
    · exact hcomes
    · exact absurd ((graph_eq_ref ha).1 hu) hne
  | @ref a t hne _ ih =>
    obtain rfl := view_eq_ref.1 hv
    have ha : a ∈ cells := hplaced
    rcases shunt_cell h hm hend hw ha with hcomes | ⟨hself, hshunt⟩
    · exact hcomes
    · obtain ⟨c', hc', hround⟩ := ih (graph_of_mem ha).symm (hw.snoc hself) (hm.placed a ha)
        (hm.tidy a ha)
      exact ⟨c', .of_succ rfl (hc'.congr hshunt), hround⟩
  | @app f as ts _ _ _ =>
    have hnref : ∀ a, w ≠ .ref a := by
      rintro a rfl
      cases hv
    refine ⟨checkRoot K w c, .of_succ rfl ((comes_const _).congr fun k => ?_),
      checkRoot_round hm hw hplaced htidy hnref⟩
    cases w with
    | ref a => exact absurd rfl (hnref a)
    | _ => rfl

/-- **Shunting comes to an end**, and takes one of the ways of a round. -/
theorem shunt_comes (h : Inv K m cells done orig c) (hm : Collectable K ceiling m cells)
    (hend : c.freep ≤ K.copy_end) (hlt : c.scanp < c.freep) :
    ∃ c', Comes (fun k => shunt K k (c.mem c.scanp) c) (some c') ∧ Round K m cells orig c c' := by
  by_cases hread : c.mem c.scanp = m (orig c.scanp)
  · rw [hread]
    rcases h.good c.scanp ⟨h.bottom_le, hlt⟩ with ha | hcst
    · have hplaced := hm.placed _ ha
      obtain ⟨t, ht⟩ := hm.denotes _ ha
      have hden := ht.deref
      rw [graph_of_mem ha] at hden
      exact shunt_reached h hm hend hden rfl (.refl _) hplaced (hm.tidy _ ha)
    · obtain ⟨v, hv⟩ : ∃ v, m (orig c.scanp) = .cst v := by
        cases hw : m (orig c.scanp) with
        | cst v => exact ⟨v, rfl⟩
        | _ => rw [hw] at hcst; cases hcst
      rw [hv]
      refine ⟨c.settle (.cst v), .of_succ rfl ((comes_const _).congr fun k => rfl), ?_⟩
      exact .old (n := 0) (hv ▸ .refl _) trivial
  · obtain ⟨ha, hla, z, hz, hread', hcell⟩ := (h.waits c.scanp le_rfl hlt).resolve_left hread
    rcases h.forward_of_mem hm ha hla with hmem | ⟨y, hy⟩
    · exact absurd (hread'.trans (hcell.symm.trans hmem)) hread
    · rw [hread']
      obtain rfl := Word.ref.inj (hy.reads.symm.trans hcell)
      exact ⟨_, .of_succ rfl ((comes_const _).congr fun k => shunt_copied hm hend hy.copied k),
        .again ha hla hz hy⟩

end Collection

end Mlvm
