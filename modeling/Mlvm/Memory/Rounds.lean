import Mlvm.Memory.Shunting
import Mathlib.Algebra.BigOperators.Ring.Finset
import Mathlib.Algebra.Order.BigOperators.Group.Finset

/-!
# The rounds of the scan

**Progress.** A word that waits has the weight of the term its origin denotes, and a round replaces
one word by words that weigh less together. The scan therefore ends, or leaves the buffer
(`scan_comes`).
-/

namespace Mlvm

namespace Collection

open FirstOrder Fuel

variable {K : Area} {ceiling : Int} {m : Int → Word} {cells : Finset Int} {done : Int → Prop}
  {orig orig' : Int → Int} {c c' : Copy}

/-! ## Weights -/

section Weight

variable (m cells)

/-- The weight of a word with this origin: what a cell denotes counts twice, so that there is room
for the first word of a block. -/
noncomputable def weight (a : Int) : ℕ :=
  if a ∈ cells then 2 * (value (graph m cells) a).size else 1

/-- The weight of all the words that wait. -/
noncomputable def waiting (orig : Int → Int) (c : Copy) : ℕ :=
  ∑ i ∈ Finset.range (c.freep - c.scanp).toNat, weight m cells (orig (c.scanp + i))

end Weight

theorem weight_pos (m : Int → Word) (cells : Finset Int) (a : Int) : 0 < weight m cells a := by
  rw [weight]
  split_ifs
  · have := (value (graph m cells) a).size_pos
    omega
  · exact Nat.one_pos

/-- As many words weigh at least as much. -/
theorem le_sum_weight (m : Int → Word) (cells : Finset Int) (n : ℕ) (f : ℕ → Int) :
    n ≤ ∑ i ∈ Finset.range n, weight m cells (f i) := by
  have hone := Finset.card_nsmul_le_sum (Finset.range n) (fun i => weight m cells (f i)) 1
    fun i _ => weight_pos m cells (f i)
  simpa using hone

theorem weight_of_mem {a : Int} (ha : a ∈ cells) :
    weight m cells a = 2 * (value (graph m cells) a).size :=
  if_pos ha

/-- A compound term is larger than its arguments together. -/
theorem size_of_den {G : TermGraph Sym Int} {f : Sym} {as : List Int} {t : Term Sym Int}
    (h : Den G (.app f as) t) : t.size = 1 + (as.map fun a => (value G a).size).sum := by
  rw [← h.eval_value, Node.eval_app, build_term, Term.size_app, List.map_map]
  rfl

theorem Steps.den (hm : WellFormed m cells K.st) {n : ℕ} {w w' : Word} (h : Steps m n w w')
    (hw : Placed m cells K.st w) {t : Term Sym Int} (ht : Den (graph m cells) (view m w) t) :
    Den (graph m cells) (view m w') t := by
  induction h with
  | refl => exact ht
  | @step a n w hne h ih =>
    have ha : a ∈ cells := hw
    have hden := Den.deref ht
    rw [graph_of_mem ha] at hden
    exact ih (hm.placed a ha) hden

/-- The weight of a word that references lead on from. -/
theorem weight_of_steps (hm : Collectable K ceiling m cells) {a : Int} (ha : a ∈ cells) {n : ℕ}
    {w : Word} (h : Steps m n (m a) w) :
    ∃ t, Den (graph m cells) (view m w) t ∧ weight m cells a = 2 * t.size := by
  obtain ⟨t, ht⟩ := hm.denotes a ha
  refine ⟨t, h.den hm.toWellFormed (hm.placed a ha) ?_, by rw [weight_of_mem ha, ht.value_eq]⟩
  have hden := ht.deref
  rwa [graph_of_mem ha] at hden

theorem sum_argCells (g : Int → ℕ) (p : Int) (n : ℕ) :
    ((argCells p n).map g).sum = ∑ i ∈ Finset.range n, g (p + 1 + i) := by
  rw [argCells, List.map_map]
  rfl

theorem weight_list (hm : Collectable K ceiling m cells) {a : Int} (ha : a ∈ cells) {n : ℕ}
    {p : Int} (h : Steps m n (m a) (.lis p)) (hp : p ∈ cells) (hp' : p + 1 ∈ cells) :
    ∑ i ∈ Finset.range 2, weight m cells (p + i) < weight m cells a := by
  obtain ⟨t, ht, hw⟩ := weight_of_steps hm ha h
  have hsize := size_of_den ht
  simp only [List.map_cons, List.map_nil, List.sum_cons, List.sum_nil] at hsize
  simp only [Finset.sum_range_succ, Finset.sum_range_zero, Nat.cast_zero, add_zero, Nat.cast_one,
    weight_of_mem hp, weight_of_mem hp', hw, hsize]
  omega

theorem weight_block (hm : Collectable K ceiling m cells) {a : Int} (ha : a ∈ cells) {n : ℕ}
    {p : Int} (h : Steps m n (m a) (.str p)) (hp : p ∉ cells) (hfvl : m p ≠ .fvlTag)
    (hargs : ∀ b ∈ argCells p (m p).arity, b ∈ cells) :
    ∑ i ∈ Finset.range ((m p).arity + 1), weight m cells (p + i) < weight m cells a := by
  obtain ⟨t, ht, hw⟩ := weight_of_steps hm ha h
  rw [view, if_neg hfvl] at ht
  have hsize := size_of_den ht
  rw [sum_argCells] at hsize
  have hfirst : weight m cells p = 1 := if_neg hp
  have hrest : ∀ i ∈ Finset.range (m p).arity, weight m cells (p + (i + 1 : ℕ)) =
      2 * (value (graph m cells) (p + 1 + i)).size := by
    intro i hi
    have hcell : p + ((i + 1 : ℕ) : Int) = p + 1 + i := by push_cast; omega
    rw [hcell, weight_of_mem (hargs _ ?_)]
    exact List.mem_map.2 ⟨i, List.mem_range.2 (Finset.mem_range.1 hi), rfl⟩
  rw [Finset.sum_range_succ', Finset.sum_congr rfl hrest, ← Finset.mul_sum, Nat.cast_zero, add_zero,
    hfirst, hw, hsize]
  omega

/-! ## The cases of a round -/

variable (K m cells done orig c) in
/-- One round: `n` words from `p` on are copied, which weigh less than the word that is settled. -/
structure Progress (c' : Copy) (p : Int) (n : ℕ) : Prop where
  scanp : c'.scanp = c.scanp + 1
  freep : c'.freep = c.freep + n
  lighter : ∑ i ∈ Finset.range n, weight m cells (p + i) < weight m cells (orig c.scanp)
  inv : c'.freep ≤ K.copy_end → Inv K m cells done (extend c.freep p orig) c'

theorem extend_scanp (hlt : c.scanp < c.freep) (p : Int) :
    extend c.freep p orig c.scanp = orig c.scanp :=
  extend_of_lt hlt

/-- The origin of a word that leads to a list or a structure is a cell. -/
theorem orig_mem (h : Inv K m cells done orig c) (hlt : c.scanp < c.freep) {n : ℕ} {w : Word}
    (hw : Steps m n (m (orig c.scanp)) w) (hcst : ∀ v, w ≠ .cst v) : orig c.scanp ∈ cells := by
  refine (h.good c.scanp ⟨h.bottom_le, hlt⟩).resolve_right fun hc => ?_
  generalize hv : m (orig c.scanp) = v at hw hc
  cases hw with
  | refl =>
    cases w with
    | cst v => exact hcst v rfl
    | _ => cases hc
  | step => cases hc

/-- A round that copies the run of cells at `p`. -/
theorem progress_run (h : Inv K m cells done orig c) (hm : Collectable K ceiling m cells)
    (hlt : c.scanp < c.freep) {p : Int} {k : ℕ} {w : Word} {fwd : Option (Int × Int)}
    (he : Emits c w p k fwd c') {n : ℕ} {v : Word} (hv : Steps m n (m (orig c.scanp)) v)
    (hnref : ∀ a, v ≠ .ref a)
    (hlight : ∑ i ∈ Finset.range k, weight m cells (p + i) < weight m cells (orig c.scanp))
    (hrun : ∀ i : ℕ, i < k → K.cline ≤ p + i ∧ p + i ≤ K.st ∧
      (p + i ∈ cells ∨ (m (p + i)).isCst ∧ c.mem (p + i) = m (p + i)))
    (hfwd : ∀ a x, fwd = some (a, x) → K.cline ≤ a ∧ a ≤ K.st ∧ c.mem a = m a ∧
      Forwarded K m cells (extend c.freep p orig) c' a x)
    (hset : Settled K m cells (extend c.freep p orig) c' c.scanp) :
    Progress K m cells done orig c c' p k := by
  refine ⟨he.scanp, he.freep, hlight, fun hend' => ?_⟩
  refine h.emit hm he hlt hend' hrun hfwd hset fun _ hu _ => ?_
  rw [hu] at hv
  exact absurd (hv.of_self hu).2 (hnref _)

section Cases

variable (h : Inv K m cells done orig c) (hm : Collectable K ceiling m cells)
  (hlt : c.scanp < c.freep) (hend : c.freep ≤ K.copy_end)

include h hm hlt hend

/-- A round that copies nothing. -/
theorem progress_settle {w : Word}
    (hset : Settled K m cells (extend c.freep 0 orig) (c.settle w) c.scanp)
    (hself : K.cline ≤ orig c.scanp → m (orig c.scanp) = .ref (orig c.scanp) →
      c.mem (orig c.scanp) = .ref c.scanp → w = .ref (K.dest c.scanp)) :
    Progress K m cells done orig c (c.settle w) 0 0 where
  scanp := rfl
  freep := (emits_settle w 0).freep
  lighter := by simpa using weight_pos m cells _
  inv _ := by
    have he := emits_settle (c := c) w 0
    refine h.emit hm he hlt hend (fun i hi => absurd hi (Nat.not_lt_zero i)) (fun a x hx => ?_)
      hset fun hla hu hread => ?_
    · cases hx
    · rw [he.here, hself hla hu hread]

theorem progress_old {n : ℕ} {w : Word} (hw : Steps m n (m (orig c.scanp)) w) (hold : Old K w) :
    Progress K m cells done orig c (c.settle w) 0 0 := by
  refine progress_settle h hm hlt hend ?_ fun hla hu _ => ?_
  · refine .old (n := n) ?_ hold (emits_settle w 0).here
    rwa [extend_scanp hlt]
  · rw [hu] at hw
    obtain ⟨-, rfl⟩ := hw.of_self hu
    exact absurd hold (not_lt.2 hla)

theorem progress_follow {n : ℕ} {a z : Int} (hw : Steps m n (m (orig c.scanp)) (.ref a))
    (ha : a ∈ cells) (hla : K.cline ≤ a) (hz : Forward K m orig c a z) :
    Progress K m cells done orig c (c.settle (.ref (K.dest z))) 0 0 := by
  have he := emits_settle (c := c) (.ref (K.dest z)) 0
  have hcz : Copied K (c.settle (.ref (K.dest z))) z := hz.copied
  refine progress_settle h hm hlt hend ?_ fun _ hu hread => ?_
  · by_cases hself : m a = .ref a
    · refine .var (n := n) (by rwa [extend_scanp hlt]) hself hla ?_ hcz he.here
      rw [he.block hm hlt h.bottom_le hend (hm.block ha) (fun x hx => by cases hx)]
      exact hz.reads
    · have ho : orig z = a := hz.stands.resolve_right fun hs => hself hs.1
      have hoz : extend c.freep 0 orig z = a := (extend_of_lt hz.copied.2).trans ho
      refine .cell (n := n + 1) ?_ ?_ (Or.inl (Nat.succ_pos n)) (by rwa [hoz]) hcz he.here
      · rw [extend_scanp hlt]
        exact orig_mem h hlt hw (fun v => by simp)
      · rw [extend_scanp hlt, hoz]
        exact hw.snoc hself
  · rw [hu] at hw
    obtain ⟨-, hwa⟩ := hw.of_self hu
    rw [Word.ref.inj hwa] at hz
    rw [Word.ref.inj (hz.reads.symm.trans hread)]

theorem progress_again {z : Int} (ha : orig c.scanp ∈ cells) (hla : K.cline ≤ orig c.scanp)
    (hlt' : z < c.scanp) (hz : Forward K m orig c (orig c.scanp) z) :
    Progress K m cells done orig c (c.settle (.ref (K.dest z))) 0 0 := by
  have he := emits_settle (c := c) (.ref (K.dest z)) 0
  have hcz : Copied K (c.settle (.ref (K.dest z))) z := hz.copied
  refine progress_settle h hm hlt hend ?_ fun _ _ hread => ?_
  · by_cases hself : m (orig c.scanp) = .ref (orig c.scanp)
    · refine .var (n := 0) (a := orig c.scanp) ?_ hself hla ?_ hcz he.here
      · rw [extend_scanp hlt, hself]
        exact .refl _
      · rw [he.block hm hlt h.bottom_le hend (hm.block ha) (fun x hx => by cases hx)]
        exact hz.reads
    · have ho : orig z = orig c.scanp := hz.stands.resolve_right fun hs => hself hs.1
      have hoz : extend c.freep 0 orig z = orig c.scanp := (extend_of_lt hz.copied.2).trans ho
      refine .cell (n := 0) (by rwa [extend_scanp hlt]) ?_ (Or.inr hlt') (by rwa [hoz]) hcz he.here
      rw [extend_scanp hlt, hoz]
      exact .refl _
  · exact absurd (Word.ref.inj (hz.reads.symm.trans hread)) (ne_of_lt hlt')

theorem progress_var {n : ℕ} {a : Int} (hw : Steps m n (m (orig c.scanp)) (.ref a))
    (ha : a ∈ cells) (hla : K.cline ≤ a) (hself : m a = .ref a) (hread : c.mem a = .ref a) :
    Progress K m cells done orig c (forward K a c) 0 0 := by
  have hne : a ≠ c.scanp := hm.apart (hm.block ha) ⟨h.bottom_le, by omega⟩
  have he := emits_forward (K := K) hne 0
  have hcopied : Copied K (forward K a c) c.scanp := ⟨h.bottom_le, hlt⟩
  have hsteps : Steps m n (m (extend c.freep 0 orig c.scanp)) (.ref a) := by
    rwa [extend_scanp hlt]
  refine ⟨he.scanp, he.freep, by simpa using weight_pos m cells _, fun _ => ?_⟩
  refine h.emit hm he hlt hend (fun i hi => absurd hi (Nat.not_lt_zero i)) (fun b x hx => ?_)
    (.var hsteps hself hla (he.forwarded a _ rfl) hcopied he.here) fun _ _ _ => he.here
  cases hx
  refine ⟨hla, hm.below a ha, hread.trans hself.symm, Or.inl ⟨ha, he.forwarded a _ rfl, hcopied,
    Or.inr ⟨hself, ?_⟩, fun _ _ => ⟨he.here, n, hsteps⟩, fun hlt' => ?_⟩⟩
  · rw [he.scanp]
    omega
  · rw [he.scanp] at hlt'
    omega

theorem progress_list {n : ℕ} {p : Int} (hw : Steps m n (m (orig c.scanp)) (.lis p))
    (hp : p ∈ cells) (hp' : p + 1 ∈ cells) (hla : K.cline ≤ p) :
    ∃ p' k, Progress K m cells done orig c (copyList K p c) p' k := by
  have hbottom := h.bottom_le
  have hlight := weight_list hm (orig_mem h hlt hw (fun v => by simp)) hw hp hp'
  have hne : p ≠ c.scanp := hm.apart (hm.block hp) ⟨hbottom, by omega⟩
  have hne' : p + 1 ≠ c.scanp := hm.apart (hm.block hp') ⟨hbottom, by omega⟩
  have hrun : ∀ i : ℕ, i < 2 → K.cline ≤ p + i ∧ p + i ≤ K.st ∧
      (p + i ∈ cells ∨ (m (p + i)).isCst ∧ c.mem (p + i) = m (p + i)) := by
    intro i hi
    have hst := hm.below p hp
    have hst' := hm.below _ hp'
    rcases (by omega : i = 0 ∨ i = 1) with rfl | rfl
    · exact ⟨by simpa using hla, by simpa using hst, Or.inl (by simpa using hp)⟩
    · exact ⟨by omega, hst', Or.inl hp'⟩
  have hold : extend c.freep p orig c.scanp = orig c.scanp := extend_scanp hlt p
  have hhead : extend c.freep p orig c.freep = p := by simpa using extend_add c.freep p 0
  have htail : extend c.freep p orig (c.freep + 1) = p + 1 := extend_add c.freep p 1
  rcases h.forward_of_mem hm hp' (by omega) with hmem | ⟨z, hz⟩
  · -- The tail is copied for the first time.
    have hcopy : copyList K p c = copyPair K p (c.mem (p + 1)) c := by
      rw [copyList]
      split
      · rename_i x hx
        rw [if_neg fun hc => not_forwarded hm hend (Or.inl hp') hmem hx (hitCopiedVar_iff.1 hc), hx]
      · rfl
    have hfree : (copyPair K p (c.mem (p + 1)) c).freep = c.freep + (2 : ℕ) := by
      simp only [copyPair, Copy.put, Copy.set, Copy.settle]
      push_cast
      omega
    rw [hcopy]
    refine ⟨p, 2, ?_⟩
    by_cases hend' : c.freep + 2 ≤ K.copy_end
    · have he := emits_copyPair (K := K) hlt hne hne' (by
        by_contra hin
        exact hm.apart (hm.block hp') ⟨by omega, by omega⟩ rfl)
      have hscanp := he.scanp
      refine progress_run h hm hlt he hw (fun a => by simp) hlight hrun (fun a x hx => ?_) ?_
      · cases hx
        refine ⟨by omega, hm.below _ hp', hmem, Or.inl ⟨hp', he.forwarded _ _ rfl,
          ⟨by omega, by omega⟩, Or.inl htail, fun _ hx => ?_, fun _ => ?_⟩⟩
        · omega
        · rw [add_sub_cancel_right, hhead, add_sub_cancel_right]
      · refine .list (n := n) (p := p) (z := c.freep) ?_ (by omega) (by omega) hhead htail he.here
        rwa [hold]
    · exact ⟨rfl, hfree, hlight, fun hover => absurd hover (by omega)⟩
  · have hcopied : K.hitCopiedVar c z = true := hitCopiedVar_iff.2 hz.copied
    by_cases hscan : c.scanp < z
    · -- The pair waits.
      have hcopy : copyList K p c = c.settle (.lis (K.dest (z - 1))) := by
        rw [copyList, hz.reads]
        simp only [hcopied, hscan, if_true]
      have hcz := hz.copied
      have ho : orig z = p + 1 := hz.stands.resolve_right fun hs => by omega
      have ho' : orig (z - 1) = p := by
        rw [hz.head hscan, add_sub_cancel_right]
      rw [hcopy]
      refine ⟨0, 0, progress_settle h hm hlt hend ?_ fun _ hu _ => ?_⟩
      · have hlt₁ := hcz.2
        refine .list (n := n) (p := p) (z := z - 1) ?_ (by omega) ?_ ?_ ?_ (emits_settle _ 0).here
        · rwa [extend_scanp hlt]
        · rwa [sub_add_cancel]
        · rwa [extend_of_lt (by omega)]
        · rwa [sub_add_cancel, extend_of_lt hlt₁]
      · rw [hu] at hw
        exact absurd (hw.of_self hu).2 (by simp)
    · have hcopy : copyList K p c = copyAgain K p (c.mem (p + 1)) c := by
        rw [copyList, hz.reads]
        simp only [hcopied, hscan, if_true, if_false]
      have he := emits_copyAgain (K := K) hlt hne
      have hfree := he.freep
      rw [hcopy]
      refine ⟨p, 2, progress_run h hm hlt he hw (fun a => by simp) hlight hrun
        (fun a x hx => by cases hx) ?_⟩
      refine .list (n := n) (p := p) (z := c.freep) ?_ (by omega) ?_ hhead htail he.here
      · rwa [hold]
      · push_cast at hfree
        omega

theorem progress_str {n : ℕ} {p : Int} (hw : Steps m n (m (orig c.scanp)) (.str p))
    (hla : K.cline ≤ p) (hplaced : Placed m cells K.st (.str p)) (htidy : Tidy K m cells (.str p)) :
    ∃ p' k, Progress K m cells done orig c (copyStr K p c) p' k := by
  have hbottom := h.bottom_le
  obtain ⟨hp, hbot, -, hfloat⟩ := htidy
  have hfvl := hfloat hla
  rw [Placed, if_neg hfvl] at hplaced
  obtain ⟨hst, hcst, -, hargs⟩ := hplaced
  have hlight := weight_block hm (orig_mem h hlt hw (fun v => by simp)) hw hp hfvl hargs
  have hsize : blockSize (m p) = (m p).arity := if_neg hfvl
  have hcell : ∀ i : ℕ, i ≤ (m p).arity → i = 0 ∨ p + i ∈ cells := by
    intro i hi
    rcases i with _ | i
    · exact Or.inl rfl
    · refine Or.inr (hargs _ (List.mem_map.2 ⟨i, List.mem_range.2 (by omega), ?_⟩))
      push_cast
      omega
  have hblock : ∀ i : ℕ, i ≤ (m p).arity → K.stack_bottom ≤ p + i ∧ p + i ≤ K.st := by
    intro i hi
    rcases hcell i hi with rfl | hin
    · exact ⟨by simpa using hbot, by simpa using hst⟩
    · exact hm.block hin
  rcases h.mid p hla hst with hmem | ⟨z, ⟨hin, -⟩ | ⟨-, -, hz, hb⟩⟩
  · -- The block is copied for the first time.
    have hcopy : copyStr K p c = copyBlock K p (m p) c := by
      rw [copyStr, hmem]
      generalize m p = v at hcst
      cases v with
      | cst v => rfl
      | _ => cases hcst
    have hscanp : (copyBlock K p (m p) c).scanp = c.scanp + 1 := by
      simp [copyBlock, Copy.put, Copy.settle, Copy.set]
    have hfree : (copyBlock K p (m p) c).freep = c.freep + ((m p).arity + 1 : ℕ) := by
      simp only [copyBlock, putCells_freep, Copy.put, Copy.settle, Copy.set, hsize]
      push_cast
      omega
    rw [hcopy]
    refine ⟨p, (m p).arity + 1, ?_⟩
    by_cases hend' : c.freep + ((m p).arity + 1 : ℕ) ≤ K.copy_end
    · have he := emits_copyBlock (K := K) hmem hlt
        (fun i hi => hm.apart (hblock i (by omega)) ⟨hbottom, by omega⟩)
        (fun i hi => by
          by_contra hin
          exact hm.apart (hblock i (by omega)) ⟨by omega, by omega⟩ rfl)
      rw [hsize] at he
      have hnew : Block K m (extend c.freep p orig) (copyBlock K p (m p) c) p c.freep :=
        ⟨by omega, fun i hi => ⟨extend_add _ _ _, by omega⟩⟩
      refine progress_run h hm hlt he hw (fun a => by simp) hlight (fun i hi => ?_)
        (fun a x hx => ?_) ?_
      · refine ⟨by omega, (hblock i (by omega)).2, ?_⟩
        rcases hcell i (by omega) with rfl | hin
        · simp only [Nat.cast_zero, add_zero]
          exact Or.inr ⟨hcst, hmem⟩
        · exact Or.inl hin
      · cases hx
        exact ⟨hla, hst, hmem, Or.inr ⟨hp, hcst, he.forwarded _ _ rfl, hnew⟩⟩
      · refine .str (n := n) ?_ hla hnew he.here
        rwa [extend_scanp hlt]
    · exact ⟨hscanp, hfree, hlight, fun hover => absurd hover (by omega)⟩
  · exact absurd hin hp
  · have hcopied : Copied K c z := Forwarded.copied (Or.inr ⟨hp, hcst, hz, hb⟩)
    have hcopy : copyStr K p c = c.settle (.str (K.dest z)) := by
      rw [copyStr, hz]
      simp only [hitCopiedVar_iff.2 hcopied, if_true]
    rw [hcopy]
    refine ⟨0, 0, progress_settle h hm hlt hend ?_ fun _ hu _ => ?_⟩
    · refine .str (n := n) ?_ hla ⟨hb.1, fun i hi => ?_⟩ (emits_settle _ 0).here
      · rwa [extend_scanp hlt]
      · obtain ⟨ho, hlt'⟩ := hb.2 i hi
        exact ⟨(extend_of_lt hlt').trans ho, hlt'⟩
    · rw [hu] at hw
      exact absurd (hw.of_self hu).2 (by simp)

/-- **Every round makes progress.** -/
theorem Round.progress (hr : Round K m cells orig c c') :
    ∃ p k, Progress K m cells done orig c c' p k := by
  cases hr with
  | old hw hold => exact ⟨0, 0, progress_old h hm hlt hend hw hold⟩
  | follow hw ha hla hz => exact ⟨0, 0, progress_follow h hm hlt hend hw ha hla hz⟩
  | again ha hla hz hf => exact ⟨0, 0, progress_again h hm hlt hend ha hla hz hf⟩
  | var hw ha hla hself hread => exact ⟨0, 0, progress_var h hm hlt hend hw ha hla hself hread⟩
  | list hw hp hp' hla => exact progress_list h hm hlt hend hw hp hp' hla
  | str hw hla hplaced htidy => exact progress_str h hm hlt hend hw hla hplaced htidy

end Cases

/-! ## The whole scan -/

/-- The first word that waits. -/
theorem waiting_pop (m : Int → Word) (cells : Finset Int) (orig : Int → Int)
    (hlt : c.scanp < c.freep) : waiting m cells orig c =
    weight m cells (orig c.scanp) + waiting m cells orig { c with scanp := c.scanp + 1 } := by
  obtain ⟨l, hl⟩ := Int.le.dest (show c.scanp + 1 ≤ c.freep by omega)
  have hcount : (c.freep - c.scanp).toNat = l + 1 := by omega
  have hcount' : (c.freep - (c.scanp + 1)).toNat = l := by omega
  have hwait : ∀ i ∈ Finset.range l, weight m cells (orig (c.scanp + (i + 1 : ℕ))) =
      weight m cells (orig (c.scanp + 1 + i)) := by
    intro i _
    have hcell : c.scanp + ((i + 1 : ℕ) : Int) = c.scanp + 1 + i := by push_cast; omega
    rw [hcell]
  rw [waiting, waiting, hcount, hcount', Finset.sum_range_succ', Finset.sum_congr rfl hwait,
    Nat.cast_zero, add_zero, add_comm]

/-- More words wait when a run of cells is copied. -/
theorem waiting_extend (m : Int → Word) (cells : Finset Int) (orig : Int → Int) (p : Int) {k : ℕ}
    (hle : c.scanp ≤ c.freep) (hscanp : c'.scanp = c.scanp) (hfree : c'.freep = c.freep + k) :
    waiting m cells (extend c.freep p orig) c' =
      waiting m cells orig c + ∑ i ∈ Finset.range k, weight m cells (p + i) := by
  obtain ⟨l, hl⟩ := Int.le.dest hle
  have hcount : (c.freep - c.scanp).toNat = l := by omega
  have hcount' : (c'.freep - c'.scanp).toNat = l + k := by omega
  have hwait : ∀ i ∈ Finset.range l, weight m cells (extend c.freep p orig (c'.scanp + i)) =
      weight m cells (orig (c.scanp + i)) := by
    intro i hi
    have hi' := Finset.mem_range.1 hi
    rw [hscanp, extend_of_lt (by omega)]
  have hnew : ∀ i ∈ Finset.range k,
      weight m cells (extend c.freep p orig (c'.scanp + (l + i : ℕ))) = weight m cells (p + i) := by
    intro i _
    have hcell : c'.scanp + ((l + i : ℕ) : Int) = c.freep + i := by
      rw [hscanp, ← hl]
      push_cast
      omega
    rw [hcell, extend_add]
  rw [waiting, waiting, hcount, hcount', Finset.sum_range_add, Finset.sum_congr rfl hwait,
    Finset.sum_congr rfl hnew]

/-- Every word that waits has a weight. -/
theorem freep_le_waiting (orig : Int → Int) (c : Copy) :
    c.freep ≤ c.scanp + waiting m cells orig c := by
  have hcard : (c.freep - c.scanp).toNat ≤ waiting m cells orig c := le_sum_weight ..
  omega

/-- What waits becomes lighter. -/
theorem Progress.waiting_lt {p : Int} {k : ℕ} (hp : Progress K m cells done orig c c' p k)
    (hlt : c.scanp < c.freep) :
    waiting m cells (extend c.freep p orig) c' < waiting m cells orig c := by
  have hlight := hp.lighter
  have hgrow := waiting_extend m cells orig p (c := { c with scanp := c.scanp + 1 })
    (show c.scanp + 1 ≤ c.freep by omega) hp.scanp hp.freep
  have hpop := waiting_pop m cells orig hlt
  rw [hgrow]
  omega

variable (K m cells done orig c) in
/-- What the scan leaves: a copy without words that wait, in which the words of the copy it began
with have their origins. -/
structure Scanned (c' : Copy) : Prop where
  scanp : c'.scanp = c'.freep
  freep : c.freep ≤ c'.freep
  inv : ∃ orig', Inv K m cells done orig' c' ∧ ∀ x, Copied K c x → orig' x = orig x

/-- **The scan comes to an end**: it has left the buffer, or its work is done. It takes no more room
than the words weigh that wait when it begins. -/
theorem scan_comes (hm : Collectable K ceiling m cells)
    (h : c.freep ≤ K.copy_end → Inv K m cells done orig c) :
    ∃ c', Comes (fun k => scan K k c) (some c') ∧ c'.freep ≤ c.scanp + waiting m cells orig c ∧
      (c'.freep ≤ K.copy_end → Scanned K m cells done orig c c') := by
  induction hn : waiting m cells orig c using Nat.strong_induction_on generalizing orig c with
  | _ n ih =>
    subst hn
    by_cases hrun : c.scanp < c.freep ∧ c.freep ≤ K.copy_end
    · obtain ⟨hlt, hend⟩ := hrun
      have hinv := h hend
      obtain ⟨c₁, hshunt, hround⟩ := shunt_comes hinv hm hend hlt
      obtain ⟨p, k, hp⟩ := hround.progress hinv hm hlt hend
      have hlight := hp.waiting_lt hlt
      obtain ⟨c', hscan, hroom, hdone⟩ := ih _ hlight hp.inv rfl
      rw [hp.scanp] at hroom
      refine ⟨c', .of_succ rfl ((hshunt.bind hscan).congr fun i => ?_), by omega, fun hend' => ?_⟩
      · rw [scan, if_pos ⟨hlt, hend⟩]
      · obtain ⟨hscanp, hfree, orig', hinv', horig⟩ := hdone hend'
        have hfree' := hp.freep
        refine ⟨hscanp, by omega, orig', hinv', fun x hx => ?_⟩
        rw [horig x ⟨hx.1, by have := hx.2; omega⟩, extend_of_lt hx.2]
    · refine ⟨c, .of_succ rfl ((comes_const _).congr fun i => ?_), freep_le_waiting orig c,
        fun hend => ?_⟩
      · rw [scan, if_neg hrun]
      · have hle := (h hend).le_freep
        exact ⟨by omega, le_rfl, orig, h hend, fun _ _ => rfl⟩

end Collection

end Mlvm
