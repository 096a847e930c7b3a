import Mlvm.Memory.Emission
import Mlvm.Engine.Store

/-!
# The copy under construction

**The origin of a word.** Every word of the buffer is the copy of one cell: `orig x` is the cell
that was copied to `x`. This map is not part of the program, it only grows, and all that is said
about the copy is said with it.

**`Inv`**: what holds between two rounds of the scan. Old cells are as they were, up to the roots,
which refer to their copies. A cell above the line is as it was or forwarded. Words that wait hold
what their origin held, or what it was forwarded to in the meantime; words that are settled lead to
a word that stands for the same.

**`Inv.emit`.** One round keeps the invariant as soon as the word it settles is right.
-/

namespace Mlvm

namespace Collection

/-- `n` references lead from one word to the other. The reference of an unbound cell leads nowhere.
-/
inductive Steps (m : Int → Word) : ℕ → Word → Word → Prop
  | refl (w : Word) : Steps m 0 w w
  | step {a : Int} {n : ℕ} {w : Word} : m a ≠ .ref a → Steps m n (m a) w →
    Steps m (n + 1) (.ref a) w

/-- A list, a structure or a double of the stack lies on one side of the line, and the first word of
a structure is no cell. There is no double above the line: the scan would take its data for words
with a tag. -/
def Tidy (K : Area) (m : Int → Word) (cells : Finset Int) : Word → Prop
  | .lis p => p < K.cline → p + 1 < K.cline
  | .str p => p ∉ cells ∧ K.stack_bottom ≤ p ∧ (p < K.cline → p + blockSize (m p) < K.cline) ∧
      (K.cline ≤ p → m p ≠ .fvlTag)
  | _ => True

/-- The word does not lead above the line. -/
def Old (K : Area) : Word → Prop
  | .ref a => a < K.cline
  | .lis p => p < K.cline
  | .str p => p < K.cline
  | .cst _ => True

/-- An acyclic store in a block with `ceiling` above it, and a buffer elsewhere. -/
structure Collectable (K : Area) (ceiling : Int) (m : Int → Word) (cells : Finset Int) :
    Prop extends
    Acyclic m cells K.st where
  bottom : ∀ a ∈ cells, K.stack_bottom ≤ a
  tidy : ∀ a ∈ cells, Tidy K m cells (m a)
  line : K.stack_bottom ≤ K.cline
  line_st : K.cline ≤ K.st + 1
  st : K.st < ceiling
  buffer : ∀ x, K.copy_bottom ≤ x → x < K.copy_end → x < K.stack_bottom ∨ ceiling ≤ x

variable {K : Area} {ceiling : Int} {m : Int → Word} {cells : Finset Int}

theorem Collectable.apart (h : Collectable K ceiling m cells) {a x : Int}
    (ha : K.stack_bottom ≤ a ∧ a ≤ K.st) (hx : K.copy_bottom ≤ x ∧ x < K.copy_end) : a ≠ x := by
  have := h.buffer x hx.1 hx.2
  have := h.st
  omega

theorem Collectable.block (h : Collectable K ceiling m cells) {a : Int} (ha : a ∈ cells) :
    K.stack_bottom ≤ a ∧ a ≤ K.st :=
  ⟨h.bottom a ha, h.below a ha⟩

/-- No cell of the store refers to the buffer. -/
theorem Collectable.ref_block (h : Collectable K ceiling m cells) {a x : Int}
    (ha : a ∈ cells ∨ (m a).isCst) (hm : m a = .ref x) : K.stack_bottom ≤ x ∧ x ≤ K.st := by
  rcases ha with ha | ha
  · have hplaced := h.placed a ha
    rw [hm] at hplaced
    exact h.block hplaced
  · rw [hm] at ha
    cases ha

/-! ## Chains of references -/

theorem Steps.of_self {a : Int} {n : ℕ} {w : Word} (h : Steps m n (.ref a) w) (ha : m a = .ref a) :
    n = 0 ∧ w = .ref a := by
  cases h with
  | refl => exact ⟨rfl, rfl⟩
  | step hne => exact absurd ha hne

theorem Steps.snoc {n : ℕ} {w : Word} {a : Int} (h : Steps m n w (.ref a)) (ha : m a ≠ .ref a) :
    Steps m (n + 1) w (m a) := by
  generalize hv : Word.ref a = v at h
  induction h with
  | refl =>
    subst hv
    exact .step ha (.refl _)
  | step hne _ ih => exact .step hne (ih hv)

/-- From a cell references lead to words of cells only. -/
theorem Steps.placed (hm : WellFormed m cells K.st) {n : ℕ} {w w' : Word} (h : Steps m n w w')
    (hw : Placed m cells K.st w) : Placed m cells K.st w' := by
  induction h with
  | refl => exact hw
  | step _ _ ih => exact ih (hm.placed _ hw)

theorem Steps.tidy (hm : Collectable K ceiling m cells) {n : ℕ} {w w' : Word} (h : Steps m n w w')
    (hw : Placed m cells K.st w) (ht : Tidy K m cells w) : Tidy K m cells w' := by
  induction h with
  | refl => exact ht
  | step _ _ ih => exact ih (hm.placed _ hw) (hm.tidy _ hw)

/-! ## The invariant -/

section Invariant

variable (K m cells)

/-- A word of the copy. -/
def Copied (c : Copy) (x : Int) : Prop := K.copy_bottom ≤ x ∧ x < c.freep

/-- The cell `a` is forwarded to `x`. -/
structure Forward (orig : Int → Int) (c : Copy) (a x : Int) : Prop where
  reads : c.mem a = .ref x
  copied : Copied K c x
  stands : orig x = a ∨ m a = .ref a ∧ x < c.scanp
  unbound : m a = .ref a → x < c.scanp →
    c.mem x = .ref (K.dest x) ∧ ∃ n, Steps m n (m (orig x)) (.ref a)
  head : c.scanp < x → orig (x - 1) = a - 1

/-- The block at `p` is copied to `x`. -/
def Block (orig : Int → Int) (c : Copy) (p x : Int) : Prop :=
  K.copy_bottom ≤ x ∧ ∀ i : ℕ, i ≤ (m p).arity → orig (x + i) = p + i ∧ x + i < c.freep

/-- A cell or the first word of a block is forwarded. -/
def Forwarded (orig : Int → Int) (c : Copy) (a x : Int) : Prop :=
  a ∈ cells ∧ Forward K m orig c a x ∨
    a ∉ cells ∧ (m a).isCst ∧ c.mem a = .ref x ∧ Block K m orig c a x

/-- A word that has not been looked at. -/
def Waits (orig : Int → Int) (c : Copy) (x : Int) : Prop :=
  c.mem x = m (orig x) ∨
    orig x ∈ cells ∧ K.cline ≤ orig x ∧ ∃ z < x, c.mem x = .ref z ∧ c.mem (orig x) = .ref z

/-- A word that is done with stands for what its origin stands for. -/
inductive Settled (orig : Int → Int) (c : Copy) (x : Int) : Prop
  | old {n : ℕ} {w : Word} : Steps m n (m (orig x)) w → Old K w → c.mem x = w → Settled orig c x
  | var {n : ℕ} {a z : Int} : Steps m n (m (orig x)) (.ref a) → m a = .ref a → K.cline ≤ a →
      c.mem a = .ref z → Copied K c z → c.mem x = .ref (K.dest z) → Settled orig c x
  | cell {n : ℕ} {z : Int} : orig x ∈ cells → Steps m n (m (orig x)) (m (orig z)) →
      0 < n ∨ z < x → orig z ∈ cells → Copied K c z → c.mem x = .ref (K.dest z) → Settled orig c x
  | list {n : ℕ} {p z : Int} : Steps m n (m (orig x)) (.lis p) → K.copy_bottom ≤ z →
      z + 1 < c.freep → orig z = p → orig (z + 1) = p + 1 → c.mem x = .lis (K.dest z) →
      Settled orig c x
  | str {n : ℕ} {p z : Int} : Steps m n (m (orig x)) (.str p) → K.cline ≤ p → Block K m orig c p z →
      c.mem x = .str (K.dest z) → Settled orig c x

/-- What holds between two rounds, when the roots `done` have been copied. -/
structure Inv (done : Int → Prop) (orig : Int → Int) (c : Copy) : Prop where
  bottom_le : K.copy_bottom ≤ c.scanp
  le_freep : c.scanp ≤ c.freep
  good : ∀ x, Copied K c x → orig x ∈ cells ∨ (m (orig x)).isCst
  old : ∀ a, K.stack_bottom ≤ a → a < K.cline → ¬ done a → c.mem a = m a
  root : ∀ a, done a → a ∈ cells ∧ a < K.cline ∧
    ∃ x, Copied K c x ∧ orig x = a ∧ c.mem a = .ref (K.dest x)
  mid : ∀ a, K.cline ≤ a → a ≤ K.st → c.mem a = m a ∨ ∃ x, Forwarded K m cells orig c a x
  waits : ∀ x, c.scanp ≤ x → x < c.freep → Waits K m cells orig c x
  settled : ∀ x, K.copy_bottom ≤ x → x < c.scanp → Settled K m cells orig c x

end Invariant

theorem Forwarded.reads {orig : Int → Int} {c : Copy} {a x : Int}
    (h : Forwarded K m cells orig c a x) : c.mem a = .ref x := by
  rcases h with ⟨-, h⟩ | ⟨-, -, h, -⟩
  · exact h.reads
  · exact h

theorem Forwarded.eq {orig : Int → Int} {c : Copy} {a x y : Int}
    (h : Forwarded K m cells orig c a x) (hy : c.mem a = .ref y) : x = y := by
  have hread := h.reads
  rw [hy] at hread
  exact (Word.ref.inj hread).symm

theorem Forwarded.copied {orig : Int → Int} {c : Copy} {a x : Int}
    (h : Forwarded K m cells orig c a x) : Copied K c x := by
  rcases h with ⟨-, h⟩ | ⟨-, -, -, hx, h⟩
  · exact h.copied
  · exact ⟨hx, by simpa using (h 0 (Nat.zero_le _)).2⟩

/-! ## What is settled stays so -/

/-- The copy grows from `c` to `c'`: origins, settled words and forwards stay. -/
structure Grows (K : Area) (orig : Int → Int) (c : Copy) (orig' : Int → Int) (c' : Copy) :
    Prop where
  scanp : c.scanp ≤ c'.scanp
  freep : c.freep ≤ c'.freep
  orig : ∀ x, Copied K c x → orig' x = orig x
  settled : ∀ x, K.copy_bottom ≤ x → x < c.scanp → c'.mem x = c.mem x
  forward : ∀ a x, K.cline ≤ a → a ≤ K.st → c.mem a = .ref x → Copied K c x → c'.mem a = .ref x

variable {done : Int → Prop} {orig orig' : Int → Int} {c c' : Copy}

theorem Grows.copied (h : Grows K orig c orig' c') {x : Int} (hx : Copied K c x) : Copied K c' x :=
  ⟨hx.1, lt_of_lt_of_le hx.2 h.freep⟩

theorem Grows.block (h : Grows K orig c orig' c') {p x : Int} (hx : Block K m orig c p x) :
    Block K m orig' c' p x := by
  refine ⟨hx.1, fun i hi => ?_⟩
  obtain ⟨ho, hlt⟩ := hx.2 i hi
  have hcopied : Copied K c (x + i) := ⟨by have := hx.1; omega, hlt⟩
  exact ⟨by rw [h.orig _ hcopied, ho], (h.copied hcopied).2⟩

theorem Grows.settled_of (h : Grows K orig c orig' c') (hm : Collectable K ceiling m cells)
    (hle : c.scanp ≤ c.freep) (hgood : ∀ x, Copied K c x → orig x ∈ cells ∨ (m (orig x)).isCst)
    {x : Int} (hx : K.copy_bottom ≤ x) (hlt : x < c.scanp) (hs : Settled K m cells orig c x) :
    Settled K m cells orig' c' x := by
  have hcx : Copied K c x := ⟨hx, by omega⟩
  have horig := h.orig x hcx
  have hread := h.settled x hx hlt
  cases hs with
  | old hsteps hold hw => exact .old (horig ▸ hsteps) hold (hread.trans hw)
  | @var n a z hsteps ha hline hz hcz hw =>
    have hcell : a ∈ cells := by
      rcases hgood x hcx with hin | hcst
      · exact hsteps.placed hm.toWellFormed (hm.placed _ hin)
      · generalize hv : m (orig x) = v at hsteps hcst
        cases hsteps <;> cases hcst
    have hst := (hm.block hcell).2
    exact .var (horig ▸ hsteps) ha hline (h.forward a z hline hst hz hcz) (h.copied hcz)
      (hread.trans hw)
  | @cell n z hox hsteps hn hz hcz hw =>
    have hoz := h.orig z hcz
    exact .cell (by rwa [horig]) (by rwa [horig, hoz]) hn (by rwa [hoz]) (h.copied hcz)
      (hread.trans hw)
  | @list n p z hsteps hz hz' ho ho' hw =>
    have hc : Copied K c z := ⟨hz, by omega⟩
    have hc' : Copied K c (z + 1) := ⟨by omega, hz'⟩
    exact .list (horig ▸ hsteps) hz (h.copied hc').2 (by rw [h.orig z hc, ho])
      (by rw [h.orig _ hc', ho']) (hread.trans hw)
  | str hsteps hp hb hw => exact .str (horig ▸ hsteps) hp (h.block hb) (hread.trans hw)

/-- A cell that was forwarded before the round stays so. The round may settle the word it was
forwarded to. -/
theorem Grows.forwarded_of (hg : Grows K orig c orig' c') (hbottom : K.copy_bottom ≤ c.scanp)
    (hscan : c'.scanp = c.scanp + 1) {a x : Int} (hla : K.cline ≤ a)
    (hx : Forwarded K m cells orig c a x) (hread : c'.mem a = c.mem a)
    (hself : K.cline ≤ orig c.scanp → m (orig c.scanp) = .ref (orig c.scanp) →
      c.mem (orig c.scanp) = .ref c.scanp → c'.mem c.scanp = .ref (K.dest c.scanp)) :
    Forwarded K m cells orig' c' a x := by
  rcases hx with ⟨hin, hx⟩ | ⟨hout, hcst, hx, hb⟩
  · refine Or.inl ⟨hin, hread.trans hx.reads, hg.copied hx.copied, ?_, ?_, ?_⟩
    · rw [hg.orig x hx.copied]
      exact hx.stands.imp_right fun hs => ⟨hs.1, by omega⟩
    · intro hu hxlt
      rw [hg.orig x hx.copied]
      by_cases hxs : x = c.scanp
      · -- The word that is settled now.
        have ho : orig x = a := hx.stands.resolve_right (by omega)
        subst hxs
        rw [ho]
        exact ⟨hself (by rwa [ho]) (by rw [ho, hu]) (by rw [ho, hx.reads]),
          0, by rw [hu]; exact .refl _⟩
      · rw [hg.settled x hx.copied.1 (by omega)]
        exact hx.unbound hu (by omega)
    · intro hxlt
      have := hx.copied.2
      rw [hg.orig (x - 1) ⟨by omega, by omega⟩]
      exact hx.head (by omega)
  · exact Or.inr ⟨hout, hcst, hread.trans hx, hg.block hb⟩

/-- A word that waited before the round waits behind it. -/
theorem Inv.waits_of (h : Inv K m cells done orig c) (hm : Collectable K ceiling m cells)
    (hg : Grows K orig c orig' c') {x : Int} (hx : c.scanp ≤ x) (hxf : x < c.freep)
    (hread : c'.mem x = c.mem x) : Waits K m cells orig' c' x := by
  have ho := hg.orig x ⟨h.bottom_le.trans hx, hxf⟩
  rcases h.waits x hx hxf with hw | ⟨hin, hla, z, hz, hw, hw'⟩
  · exact Or.inl (by rw [hread, hw, ho])
  · have hst := hm.below _ hin
    rcases h.mid _ hla hst with hmem | ⟨y, hy⟩
    · exact Or.inl (by rw [hread, hw, ho, ← hmem, hw'])
    · obtain rfl := hy.eq hw'
      exact Or.inr ⟨by rwa [ho], by rwa [ho], y, hz, by rw [hread, hw],
        by rw [ho]; exact hg.forward _ y hla hst hw' hy.copied⟩

/-- A word that is copied in the round waits. -/
theorem Inv.waits_fresh (h : Inv K m cells done orig c) (hg : Grows K orig c orig' c') {a x : Int}
    (hla : K.cline ≤ a) (hst : a ≤ K.st) (hin : a ∈ cells ∨ (m a).isCst ∧ c.mem a = m a)
    (hx : c.freep ≤ x) (ho : orig' x = a) (hread : c'.mem x = c.mem a) :
    Waits K m cells orig' c' x := by
  rw [Waits, ho, hread]
  rcases h.mid _ hla hst with hmem | ⟨y, hy⟩
  · exact Or.inl hmem
  · rcases hin with hin | ⟨-, hmem⟩
    · have := hy.copied.2
      exact Or.inr ⟨hin, hla, y, by omega, hy.reads, hg.forward _ y hla hst hy.reads hy.copied⟩
    · exact Or.inl hmem

/-! ## One round -/

/-- The origins when the run of cells at `p` is copied to `f`. -/
def extend (f p : Int) (orig : Int → Int) : Int → Int := fun x =>
  if f ≤ x then p + (x - f) else orig x

theorem extend_of_lt {f p x : Int} (h : x < f) : extend f p orig x = orig x := if_neg (by omega)

theorem extend_add (f p : Int) (i : ℕ) : extend f p orig (f + i) = p + i := by
  rw [extend, if_pos (by omega)]
  omega

section Emission

variable {w : Word} {p : Int} {n : ℕ} {fwd : Option (Int × Int)}

/-- A cell of the block keeps its word, unless it is the one that is forwarded. -/
theorem Emits.block (he : Emits c w p n fwd c') (hm : Collectable K ceiling m cells)
    (hlt : c.scanp < c.freep) (hbottom : K.copy_bottom ≤ c.scanp) (hend : c'.freep ≤ K.copy_end)
    {a : Int} (ha : K.stack_bottom ≤ a ∧ a ≤ K.st) (hfwd : ∀ x, fwd ≠ some (a, x)) :
    c'.mem a = c.mem a := by
  have hfree := he.freep
  refine he.rest a (hm.apart ha ⟨hbottom, by omega⟩) ?_ hfwd
  by_contra hin
  exact hm.apart (x := a) ha ⟨by omega, by omega⟩ rfl

/-- A word of the copy keeps what it holds, unless it is the one that is settled. -/
theorem Emits.buffer (he : Emits c w p n fwd c') (hm : Collectable K ceiling m cells)
    (hend : c'.freep ≤ K.copy_end)
    (hfwd : ∀ a x, fwd = some (a, x) → K.stack_bottom ≤ a ∧ a ≤ K.st) {x : Int}
    (hx : Copied K c x) (hne : x ≠ c.scanp) : c'.mem x = c.mem x := by
  have hfree := he.freep
  refine he.rest x hne (Or.inl hx.2) fun y hy => ?_
  exact hm.apart (hfwd x y hy) ⟨hx.1, by have := hx.2; omega⟩ rfl

/-- A cell that is as it was is not forwarded yet. -/
theorem not_forwarded (hm : Collectable K ceiling m cells)
    (hend : c.freep ≤ K.copy_end) {a x : Int} (ha : a ∈ cells ∨ (m a).isCst) (hmem : c.mem a = m a)
    (hx : c.mem a = .ref x) : ¬ Copied K c x := by
  intro hcx
  have hblock := hm.ref_block ha (hmem.symm.trans hx)
  exact hm.apart hblock ⟨hcx.1, by have := hcx.2; omega⟩ rfl

/-- **One round keeps the invariant**, when the words it copies are above the line, the cell it
forwards was not forwarded before, and the word it settles is right. -/
theorem Inv.emit (h : Inv K m cells done orig c) (hm : Collectable K ceiling m cells)
    (he : Emits c w p n fwd c') (hlt : c.scanp < c.freep) (hend : c'.freep ≤ K.copy_end)
    (hrun : ∀ i : ℕ, i < n → K.cline ≤ p + i ∧ p + i ≤ K.st ∧
      (p + i ∈ cells ∨ (m (p + i)).isCst ∧ c.mem (p + i) = m (p + i)))
    (hfwd : ∀ a x, fwd = some (a, x) → K.cline ≤ a ∧ a ≤ K.st ∧ c.mem a = m a ∧
      Forwarded K m cells (extend c.freep p orig) c' a x)
    (hset : Settled K m cells (extend c.freep p orig) c' c.scanp)
    (hself : K.cline ≤ orig c.scanp → m (orig c.scanp) = .ref (orig c.scanp) →
      c.mem (orig c.scanp) = .ref c.scanp → c'.mem c.scanp = .ref (K.dest c.scanp)) :
    Inv K m cells done (extend c.freep p orig) c' := by
  have hscan := he.scanp
  have hfree := he.freep
  have hbottom := h.bottom_le
  have hline := hm.line
  have hblock : ∀ a x, fwd = some (a, x) → K.stack_bottom ≤ a ∧ a ≤ K.st := fun a x ha =>
    ⟨hline.trans (hfwd a x ha).1, (hfwd a x ha).2.1⟩
  have hgood : ∀ a x, fwd = some (a, x) → a ∈ cells ∨ (m a).isCst := fun a x ha => by
    rcases (hfwd a x ha).2.2.2 with ⟨hin, -⟩ | ⟨-, hcst, -⟩
    · exact Or.inl hin
    · exact Or.inr hcst
  -- Forwards are for good.
  have hkeep : ∀ a x, K.cline ≤ a → a ≤ K.st → c.mem a = .ref x → Copied K c x →
      c'.mem a = .ref x := by
    intro a x hla hst hread hx
    by_cases hf : ∃ y, fwd = some (a, y)
    · obtain ⟨y, hy⟩ := hf
      exact absurd hx (not_forwarded hm (by omega) (hgood a y hy) (hfwd a y hy).2.2.1 hread)
    · rw [he.block hm hlt hbottom hend ⟨hline.trans hla, hst⟩ fun y hy => hf ⟨y, hy⟩, hread]
  have hg : Grows K orig c (extend c.freep p orig) c' :=
    ⟨by omega, by omega, fun x hx => extend_of_lt hx.2,
      fun x hx hx' => he.buffer hm hend hblock ⟨hx, by omega⟩ (by omega), hkeep⟩
  have hold : ∀ a, K.stack_bottom ≤ a → a < K.cline → c'.mem a = c.mem a := by
    intro a ha hla
    have hst := hm.line_st
    exact he.block hm hlt hbottom hend ⟨ha, by omega⟩ fun x hx => absurd (hfwd a x hx).1 (by omega)
  refine ⟨by omega, by omega, ?_, ?_, ?_, ?_, ?_, ?_⟩
  · intro x hx
    by_cases hxf : x < c.freep
    · rw [extend_of_lt hxf]
      exact h.good x ⟨hx.1, hxf⟩
    · obtain ⟨i, rfl⟩ := Int.le.dest (not_lt.1 hxf)
      rw [extend_add]
      have hi := hx.2
      exact (hrun i (by omega)).2.2.imp_right And.left
  · intro a ha hla hdone
    rw [hold a ha hla, h.old a ha hla hdone]
  · intro a ha
    obtain ⟨hin, hla, x, hx, ho, hread⟩ := h.root a ha
    exact ⟨hin, hla, x, hg.copied hx, by rw [hg.orig x hx, ho],
      (hold a (hm.bottom a hin) hla).trans hread⟩
  · intro a hla hst
    by_cases hf : ∃ y, fwd = some (a, y)
    · obtain ⟨y, hy⟩ := hf
      exact Or.inr ⟨y, (hfwd a y hy).2.2.2⟩
    · have hread := he.block hm hlt hbottom hend ⟨hline.trans hla, hst⟩ fun y hy => hf ⟨y, hy⟩
      rcases h.mid a hla hst with hmem | ⟨x, hx⟩
      · exact Or.inl (hread.trans hmem)
      · exact Or.inr ⟨x, hg.forwarded_of hbottom hscan hla hx hread hself⟩
  · intro x hx hx'
    by_cases hxf : x < c.freep
    · exact h.waits_of hm hg (by omega) hxf
        (he.buffer hm hend hblock ⟨by omega, hxf⟩ (by omega))
    · obtain ⟨i, rfl⟩ := Int.le.dest (not_lt.1 hxf)
      obtain ⟨hla, hst, hin⟩ := hrun i (by omega)
      exact h.waits_fresh hg hla hst hin (by omega) (extend_add ..) (he.fresh i (by omega))
  · intro x hx hx'
    by_cases hxs : x = c.scanp
    · rw [hxs]
      exact hset
    · exact hg.settled_of hm h.le_freep h.good hx (by omega) (h.settled x hx (by omega))

end Emission

end Collection

end Mlvm
