import Mlvm.Memory.Block

/-!
# Memory expansion

`do_expansion` enlarges the block of an imago. The block may move; the trail moves to its new end.
Every pointer should then designate **the same object**: the same offset in its segment, and in the
trail the same slot.

The stack scan and the trail loop add the distance to pointers. The other loops add it to machine
integers, so that they move by bytes what should move by words: procedure entries and labels when
the block has moved, saved trail tops always.
-/

namespace Mlvm

open Relocation

def MM_TURNING : Nat := 5

def MM_EXP_SIZE : Int := 1048576

/-! ## The loops -/

/-- The loop over the procedure table: `*tp1 += distance` on integers. -/
def adjustProcs (distance : Int) : Nat → Int → Int → (Int → Int) → Int → Int
  | 0, _, _, w => w
  | n + 1, tp1, stop, w =>
      if tp1 < stop then
        adjustProcs distance n (tp1 + 2) stop (Function.update w tp1 (w tp1 + distance))
      else w

/-- `mdirect` and `madjust`: `*tp2 += distance` on integers. -/
def adjustWord (distance : Int) (label : Bool) (v : Int) : Int :=
  if label then v + distance else v

/-- The word of the stack scan: `addr(ax) + distance` on pointers, and the tag. -/
def adjustTagged (distance : Int) (pointer : Bool) (v : Int) : Int :=
  if pointer then v - v % 4 + 4 * distance + v % 4 else v

/-- The word of the trail: what is not a reference becomes a generation line. -/
def adjustTrail (distance v : Int) : Int :=
  if isVarWord v then v + 4 * distance else v - v % 4 + 4 * distance + 2

/-- Parts 1, 2 and 4 of `do_expansion` and of `block_adjust`: procedure table, code and stack. -/
def adjustSegments (distance : Int) (plt : Icb) (w : Int → Int) : Int → Int :=
  let w₁ := adjustProcs distance (plt.code_base - plt.proc_base).toNat (plt.proc_base + 1)
    plt.code_base w
  let w₂ := scan codeItem (adjustWord distance) (plt.name_base / 4 - plt.code_base).toNat
    plt.code_base plt.code_base (plt.name_base / 4) w₁
  scan stackItem (adjustTagged distance) (plt.st + 1 - plt.stack_base).toNat plt.stack_base
    plt.stack_base (plt.st + 1) w₂

/-- `while (ax--) *(++tp2) = f(*(++tp1))`. -/
def moveTrail (f : Int → Int) : Nat → Int → Int → (Int → Int) → Int → Int
  | 0, _, _, w => w
  | n + 1, tp1, tp2, w =>
      moveTrail f n (tp1 + 1) (tp2 + 1) (Function.update w (tp2 + 1) (f (w (tp1 + 1))))

/-- The loop over a chain of frames, whose links are `link` words below the frames:
`*(tp1 - 2) += adjustment` on integers. -/
def adjustSaved (adjustment link : Int) : Nat → Int → Int → (Int → Int) → Int → Int
  | 0, _, _, w => w
  | n + 1, tp1, stop, w =>
      if stop < tp1 then
        let w₁ := Function.update w (tp1 - 2) (w (tp1 - 2) + adjustment)
        adjustSaved adjustment link n (w₁ (tp1 - link) / 4) stop w₁
      else w

/-- `realloc`: the old words at the new place. -/
def reallocated {W : Type} (old_base old_size new_base : Int) (w : Int → W) : Int → W := fun x =>
  if new_base ≤ x ∧ x < new_base + old_size then w (x - (new_base - old_base)) else w x

/-- The base pointers and registers when the block has moved by `distance` words. -/
def Icb.moved (plt : Icb) (distance adjustment : Int) : Icb :=
  { plt with
    block_base := plt.block_base + distance
    block_ceiling := plt.block_ceiling + (distance + adjustment)
    stack_base := plt.stack_base + distance
    code_base := plt.code_base + distance
    proc_base := plt.proc_base + distance
    name_base := plt.name_base + distance * 4
    name_top := plt.name_top + distance * 4
    pp := plt.pp + distance
    af := plt.af + distance
    cp := plt.cp + distance
    cf := plt.cf + distance
    st := plt.st + distance
    bb := plt.bb + distance
    b0 := plt.b0 + distance
    gl := plt.gl + distance
    tt := plt.tt + distance }

/-- How many words a block gets. -/
def Icb.adjustment (plt : Icb) : Int :=
  if plt.expansions < MM_TURNING then plt.block_ceiling - plt.block_base else MM_EXP_SIZE

/-- `do_expansion`, where `realloc` gives `new_base`. -/
def doExpansion (plt : Icb) (new_base : Int) (m : Memory) : Icb × Memory :=
  let old_size := plt.block_ceiling - plt.block_base
  let adjustment := plt.adjustment
  let distance := new_base - plt.block_base
  let w₀ := reallocated plt.block_base old_size new_base m.word
  let b₀ := reallocated (4 * plt.block_base) (4 * old_size) (4 * new_base) m.byte
  let plt₁ : Icb := if distance ≠ 0 then plt.moved distance adjustment
    else { plt with block_ceiling := plt.block_ceiling + adjustment }
  let w₁ := if distance ≠ 0 then adjustSegments distance plt₁ w₀ else w₀
  let w₂ := moveTrail (if distance = 0 then id else adjustTrail distance)
    (old_size - (plt₁.tt - new_base)).toNat plt₁.tt (plt₁.tt + adjustment) w₁
  let w₃ := adjustSaved adjustment 0 (plt₁.cf - plt₁.stack_base).toNat plt₁.cf plt₁.stack_base w₂
  let w₄ := adjustSaved adjustment 3 (plt₁.bb - plt₁.stack_base).toNat plt₁.bb plt₁.stack_base w₃
  ({ plt₁ with expansions := plt.expansions + 1, tt := plt₁.tt + adjustment }, ⟨w₄, b₀⟩)

/-! ## What an expansion is to be -/

/-- The address of the object at `a` when the block has moved by `d` words and has got `adj` more:
the trail, from `tt` on, has moved with the end of the block. -/
def Icb.placed (plt : Icb) (d adj a : Int) : Int := if plt.tt ≤ a then a + d + adj else a + d

/-- The word of a pointer to the same object, with the same tag. -/
def Icb.placedWord (plt : Icb) (d adj : Int) (pointer : Bool) (v : Int) : Int :=
  if pointer then 4 * plt.placed d adj (v / 4) + v % 4 else v

/-- **Everything designates the same object as before.** -/
structure Icb.Expanded (plt plt' : Icb) (m m' : Memory) (n : Nat) (code stack : List Bool)
    (d adj : Int) : Prop where
  bases : plt'.block_base = plt.block_base + d ∧ plt'.block_ceiling = plt.block_ceiling + d + adj ∧
    plt'.proc_base = plt.proc_base + d ∧ plt'.code_base = plt.code_base + d ∧
    plt'.name_base = plt.name_base + 4 * d ∧ plt'.name_top = plt.name_top + 4 * d ∧
    plt'.stack_base = plt.stack_base + d
  registers : plt'.pp = plt.placed d adj plt.pp ∧ plt'.af = plt.placed d adj plt.af ∧
    plt'.cp = plt.placed d adj plt.cp ∧ plt'.cf = plt.placed d adj plt.cf ∧
    plt'.st = plt.placed d adj plt.st ∧ plt'.bb = plt.placed d adj plt.bb ∧
    plt'.b0 = plt.placed d adj plt.b0 ∧ plt'.gl = plt.placed d adj plt.gl ∧
    plt'.tt = plt.placed d adj plt.tt
  procs : ∀ k < n, m'.word (plt'.proc_base + 2 * (k : Nat)) =
    m.word (plt.proc_base + 2 * (k : Nat)) ∧
    m'.word (plt'.proc_base + 2 * (k : Nat) + 1) =
      plt.placedWord d adj true (m.word (plt.proc_base + 2 * (k : Nat) + 1))
  instrs : ∀ (i : Nat) (label : Bool), code[i]? = some label →
    m'.word (plt'.code_base + i) = plt.placedWord d adj label (m.word (plt.code_base + i))
  names : ∀ j : Nat, plt.name_base + j < plt.name_top →
    m'.byte (plt'.name_base + j) = m.byte (plt.name_base + j)
  cells : ∀ (i : Nat) (pointer : Bool), stack[i]? = some pointer →
    m'.word (plt'.stack_base + i) = plt.placedWord d adj pointer (m.word (plt.stack_base + i))
  trail : ∀ i : Nat, plt.tt + 1 + i < plt.block_ceiling →
    m'.word (plt'.tt + 1 + i) = plt.placedWord d adj true (m.word (plt.tt + 1 + i))

/-! ## Frames -/

/-- The frames of a chain from `a` down, with links `link` words below them. -/
inductive Chained (w : Int → Int) (stop link : Int) : Int → List Int → Prop
  | nil {a : Int} (h : a ≤ stop) : Chained w stop link a []
  | cons {a next : Int} {fs : List Int} (h : stop < a) (hlink : w (a - link) = 4 * next)
      (hlt : next < a) (hrest : Chained w stop link next fs) : Chained w stop link a (a :: fs)

/-- The control frames `cfs` and the choice frames `bfs` lie in the stack; the trail top that each
of them saves points into the trail, and is no link of another. -/
structure Icb.Framed (plt : Icb) (m : Memory) (stack : List Bool) (cfs bfs : List Int) : Prop where
  cf : Chained m.word plt.stack_base 0 plt.cf cfs
  bb : Chained m.word plt.stack_base 3 plt.bb bfs
  cfLink : ∀ f ∈ cfs, stack[(f - plt.stack_base).toNat]? = some true
  bbLink : ∀ f ∈ bfs, plt.stack_base + 3 ≤ f ∧
    stack[(f - 3 - plt.stack_base).toNat]? = some true
  saved : ∀ f ∈ cfs ++ bfs, plt.stack_base + 2 ≤ f ∧
    stack[(f - 2 - plt.stack_base).toNat]? = some true ∧ 4 * plt.tt ≤ m.word (f - 2)
  apart : ∀ f ∈ cfs ++ bfs, f - 2 ∉ cfs ∧ f + 1 ∉ bfs

/-- Registers other than `af`, procedure entries, labels and trail entries do not point into the
trail. -/
structure Icb.PointsBelow (plt : Icb) (m : Memory) (n : Nat) (code : List Bool) : Prop where
  registers : plt.pp < plt.tt ∧ plt.cp < plt.tt ∧ plt.cf < plt.tt ∧ plt.bb < plt.tt ∧
    plt.b0 < plt.tt ∧ plt.gl < plt.tt
  procs : ∀ k < n, m.word (plt.proc_base + 2 * (k : Nat) + 1) < 4 * plt.tt
  labels : ∀ i : Nat, code[i]? = some true → m.word (plt.code_base + i) < 4 * plt.tt
  trail : ∀ x, plt.tt < x → x < plt.block_ceiling → m.word x < 4 * plt.tt

/-- The expansion meets nothing that is moved by bytes, no stale pointer into the trail, and no
part of the trail that is overwritten before it is read. -/
structure Icb.ExpandsWell (plt : Icb) (new_base : Int) (m : Memory) (code stack : List Bool) :
    Prop where
  program : new_base ≠ plt.block_base → plt.code_base = plt.proc_base ∧ true ∉ code
  cells : ∀ i : Nat, stack[i]? = some true → m.word (plt.stack_base + i) < 4 * plt.tt
  af : plt.af < plt.tt
  trail : ∀ x, plt.tt < x → x + plt.adjustment < plt.block_ceiling →
    m.word (x + plt.adjustment) = m.word x + 4 * (new_base - plt.block_base)

/-! ## What the loops do -/

variable {plt : Icb} {m : Memory} {n : Nat} {code stack : List Bool} {d : Int}

theorem adjustProcs_adjusts (w : Int → Int) (p : Int) (fuel : Nat) (hfuel : n ≤ fuel) :
    (∀ k < n, adjustProcs d fuel (p + 1) (p + 2 * n) w (p + 2 * (k : Nat)) = w (p + 2 * (k : Nat)) ∧
      adjustProcs d fuel (p + 1) (p + 2 * n) w (p + 2 * (k : Nat) + 1) =
        w (p + 2 * (k : Nat) + 1) + d) ∧
    ∀ x, x < p ∨ p + 2 * n ≤ x → adjustProcs d fuel (p + 1) (p + 2 * n) w x = w x := by
  induction n generalizing w p fuel with
  | zero =>
      have hstop : adjustProcs d fuel (p + 1) (p + 2 * (0 : Nat)) w = w := by
        cases fuel with
        | zero => rfl
        | succ fuel => rw [adjustProcs, if_neg (by omega)]
      rw [hstop]
      exact ⟨fun k hk => absurd hk (Nat.not_lt_zero k), fun _ _ => rfl⟩
  | succ n ih =>
      obtain ⟨fuel, rfl⟩ := Nat.exists_eq_succ_of_ne_zero (Nat.ne_of_gt (Nat.lt_of_lt_of_le
        (Nat.succ_pos n) hfuel))
      have hnext : p + 1 + 2 = p + 2 + 1 := by omega
      have hstop : p + 2 * ((n + 1 : Nat) : Int) = p + 2 + 2 * n := by omega
      rw [adjustProcs, if_pos (by omega), hnext, hstop]
      set w₁ := Function.update w (p + 1) (w (p + 1) + d) with hw₁
      obtain ⟨hentries, hframe⟩ := ih w₁ (p + 2) fuel (by omega)
      refine ⟨fun k hk => ?_, fun x hx => ?_⟩
      · cases k with
        | zero =>
            rw [Int.natCast_zero, Int.mul_zero, Int.add_zero, hframe p (by omega),
              hframe (p + 1) (by omega), hw₁, Function.update_self,
              Function.update_of_ne (by omega)]
            exact ⟨rfl, rfl⟩
        | succ k =>
            have hplace : p + 2 * ((k + 1 : Nat) : Int) = p + 2 + 2 * k := by omega
            have hsame : ∀ x, p + 2 ≤ x → w₁ x = w x := fun x hx =>
              Function.update_of_ne (by omega) ..
            obtain ⟨hfunctor, hentry⟩ := hentries k (by omega)
            rw [hplace, hfunctor, hentry, hsame _ (by omega), hsame _ (by omega)]
            exact ⟨rfl, rfl⟩
      · rw [hframe x (by omega)]
        exact Function.update_of_ne (by omega) ..

theorem reallocated_apply {W : Type} {old_base old_size : Int} (w : Int → W) {x : Int}
    (hx : old_base ≤ x) (hx' : x < old_base + old_size) (d : Int) :
    reallocated old_base old_size (old_base + d) w (x + d) = w x := by
  rw [reallocated, if_pos ⟨by omega, by omega⟩]
  congr 1
  omega

theorem adjustTagged_eq (d : Int) (pointer : Bool) (v : Int) :
    adjustTagged d pointer v = if pointer then v + 4 * d else v := by
  rw [adjustTagged]
  split_ifs
  · omega
  · rfl

theorem adjustTrail_eq {v : Int} (h : v % 4 = 0 ∨ v % 4 = 2) (d : Int) :
    adjustTrail d v = v + 4 * d := by
  by_cases hvar : isVarWord v
  · rw [adjustTrail, if_pos hvar]
  · have htag : v % 4 ≠ 0 := hvar
    rw [adjustTrail, if_neg hvar]
    omega

/-- The words of a block that has been adjusted, before the trail moves. -/
structure Icb.Adjusted (plt : Icb) (m : Memory) (n : Nat) (code stack : List Bool) (d : Int)
    (w : Int → Int) : Prop where
  procs : ∀ k < n, w (plt.proc_base + d + 2 * (k : Nat)) = m.word (plt.proc_base + 2 * (k : Nat)) ∧
    w (plt.proc_base + d + 2 * (k : Nat) + 1) = m.word (plt.proc_base + 2 * (k : Nat) + 1) + d
  instrs : ∀ (i : Nat) (label : Bool), code[i]? = some label →
    w (plt.code_base + d + i) = adjustWord d label (m.word (plt.code_base + i))
  cells : ∀ (i : Nat) (pointer : Bool), stack[i]? = some pointer →
    w (plt.stack_base + d + i) = adjustTagged d pointer (m.word (plt.stack_base + i))
  trail : ∀ x, plt.tt ≤ x → x < plt.block_ceiling → w (x + d) = m.word x

/-- **The segments are adjusted** in place after the block has moved. -/
theorem adjustSegments_adjusts (h : plt.Formed m n code stack) (adj : Int) :
    plt.Adjusted m n code stack d (adjustSegments d (plt.moved d adj)
      (reallocated plt.block_base (plt.block_ceiling - plt.block_base) (plt.block_base + d)
        m.word)) := by
  have hprocs := h.procs
  have hbase := h.block
  have hend := h.name_base
  have hnames := h.names
  have htop := h.name_top
  have hst := h.st
  have hfree := h.free
  have htt := h.tt
  set w₀ := reallocated plt.block_base (plt.block_ceiling - plt.block_base) (plt.block_base + d)
    m.word with hw₀
  have hold : ∀ x, plt.block_base ≤ x → x < plt.block_ceiling → w₀ (x + d) = m.word x :=
    fun x hx hx' => reallocated_apply m.word hx (by omega) d
  obtain ⟨hentries, hframe₁⟩ := adjustProcs_adjusts (d := d) (n := n) w₀ (plt.proc_base + d)
    (plt.code_base + d - (plt.proc_base + d)).toNat (by omega)
  have hstop : plt.proc_base + d + 2 * n = plt.code_base + d := by omega
  rw [hstop] at hentries hframe₁
  set w₁ := adjustProcs d (plt.code_base + d - (plt.proc_base + d)).toNat (plt.proc_base + d + 1)
    (plt.code_base + d) w₀ with hw₁
  have hcodeOld : ∀ i < code.length,
      w₁ (plt.code_base + d + (i : Nat)) = m.word (plt.code_base + (i : Nat)) := fun i hi => by
    rw [hframe₁ _ (by omega), Int.add_right_comm]
    exact hold _ (by omega) (by omega)
  set stop := (plt.name_base + d * 4) / 4 with hstop'
  have hname : stop = plt.code_base + d + code.length := by omega
  set w₂ := scan codeItem (adjustWord d) (stop - (plt.code_base + d)).toNat (plt.code_base + d)
    (plt.code_base + d) stop w₁ with hw₂
  have hcode : Copied (adjustWord d) w₁ w₂ (plt.code_base + d) (plt.code_base + d) code :=
    scan_copied local_codeItem (h.instrs.move local_codeItem hcodeOld) hname (by omega) (by omega)
  have hstackOld : ∀ i < stack.length,
      w₂ (plt.stack_base + d + (i : Nat)) = m.word (plt.stack_base + (i : Nat)) := fun i hi => by
    rw [hcode.frame _ (by omega), hframe₁ _ (by omega), Int.add_right_comm]
    exact hold _ (by omega) (by omega)
  have hresult : adjustSegments d (plt.moved d adj) w₀ = scan stackItem (adjustTagged d)
      (plt.st + d + 1 - (plt.stack_base + d)).toNat (plt.stack_base + d) (plt.stack_base + d)
      (plt.st + d + 1) w₂ := rfl
  have hcells : Copied (adjustTagged d) w₂ (adjustSegments d (plt.moved d adj) w₀)
      (plt.stack_base + d) (plt.stack_base + d) stack := by
    rw [hresult]
    exact scan_copied local_stackItem (h.cells.move local_stackItem hstackOld) (by omega) (by omega)
      (by omega)
  refine ⟨fun k hk => ?_, fun i label hi => ?_, fun i pointer hi => ?_, fun x hx hx' => ?_⟩
  · obtain ⟨hfunctor, hentry⟩ := hentries k hk
    have hplace : ∀ y : Int, plt.proc_base + d + y = plt.proc_base + y + d := fun y => by omega
    rw [hcells.frame _ (by omega), hcode.frame _ (by omega), hcells.frame _ (by omega),
      hcode.frame _ (by omega), hfunctor, hentry, hplace, Int.add_right_comm _ d 1,
      hold _ (by omega) (by omega), hold _ (by omega) (by omega)]
    exact ⟨rfl, rfl⟩
  · have hlt := (List.getElem?_eq_some_iff.mp hi).1
    rw [hcells.frame _ (by omega), hcode.word i label hi, hcodeOld i hlt]
  · have hlt := (List.getElem?_eq_some_iff.mp hi).1
    rw [hcells.word i pointer hi, hstackOld i hlt]
  · rw [hcells.frame _ (by omega), hcode.frame _ (by omega), hframe₁ _ (by omega)]
    exact hold x (by omega) hx'

/-- **The trail loop.** An entry comes from its old slot, unless the loop has written this slot
before it came there. -/
theorem moveTrail_moves (f : Int → Int) {adj : Nat} (hadj : 0 < adj) (w : Int → Int) (s : Int)
    (c : Nat) :
    (∀ j : Nat, 1 ≤ j → j ≤ c → moveTrail f c s (s + adj) w (s + adj + j) =
      f (if j ≤ adj then w (s + j) else moveTrail f c s (s + adj) w (s + j))) ∧
    ∀ x, x ≤ s + adj ∨ s + adj + c < x → moveTrail f c s (s + adj) w x = w x := by
  induction c generalizing w s with
  | zero => exact ⟨fun j hj hj' => absurd hj' (by omega), fun _ _ => rfl⟩
  | succ c ih =>
      have hnext : s + adj + 1 = s + 1 + adj := by omega
      rw [moveTrail, hnext]
      set w₁ := Function.update w (s + 1 + adj) (f (w (s + 1))) with hw₁
      obtain ⟨hmoved, hframe⟩ := ih w₁ (s + 1)
      set w' := moveTrail f c (s + 1) (s + 1 + adj) w₁ with hw'
      have hfirst : w' (s + 1 + adj) = f (w (s + 1)) := by
        rw [hframe _ (by omega), hw₁, Function.update_self]
      refine ⟨fun j hj hj' => ?_, fun x hx => ?_⟩
      · obtain ⟨j, rfl⟩ := Nat.exists_eq_succ_of_ne_zero (Nat.ne_of_gt hj)
        rcases Nat.eq_zero_or_pos j with rfl | hpos
        · have hslot : s + adj + ((0 + 1 : Nat) : Int) = s + 1 + adj := by omega
          rw [hslot, if_pos (by omega), hfirst]
          rfl
        · have hslot : s + adj + ((j + 1 : Nat) : Int) = s + 1 + adj + j := by omega
          have hread : s + ((j + 1 : Nat) : Int) = s + 1 + j := by omega
          rw [hslot, hread, hmoved j hpos (by omega)]
          rcases Nat.lt_trichotomy j adj with hlt | rfl | hgt
          · rw [if_pos (by omega), if_pos (by omega), hw₁, Function.update_of_ne (by omega)]
          · rw [if_pos (by omega), if_neg (by omega), hfirst, hw₁, Function.update_self]
          · rw [if_neg (by omega), if_neg (by omega)]
      · rw [hframe x (by omega)]
        exact Function.update_of_ne (by omega) ..

theorem Chained.le {w : Int → Int} {stop link a : Int} {fs : List Int}
    (h : Chained w stop link a fs) : ∀ f ∈ fs, f ≤ a := by
  induction h with
  | nil _ => exact fun f hf => absurd hf List.not_mem_nil
  | cons _ _ hlt _ ih =>
      intro f hf
      rcases List.mem_cons.mp hf with rfl | hf
      · exact Int.le_refl _
      · exact Int.le_trans (ih f hf) (Int.le_of_lt hlt)

theorem Chained.move {w w' : Int → Int} {stop link a : Int} {fs : List Int}
    (h : Chained w stop link a fs) (d : Int)
    (hlinks : ∀ f ∈ fs, w' (f + d - link) = w (f - link) + 4 * d) :
    Chained w' (stop + d) link (a + d) (fs.map (· + d)) := by
  induction h with
  | nil h => exact .nil (by omega)
  | @cons a next fs h hlink hlt _ ih =>
      have hfirst := hlinks a List.mem_cons_self
      refine .cons (by omega) ?_ (Int.add_lt_add_right hlt d)
        (ih fun f hf => hlinks f (List.mem_cons_of_mem _ hf))
      rw [hfirst, hlink]
      omega

/-- The loop over a chain adds once to the saved trail top of each frame. -/
theorem adjustSaved_adds {w : Int → Int} {adj stop link a : Int} {fs : List Int}
    (h : Chained w stop link a fs) {fuel : Nat} (hfuel : (a - stop).toNat ≤ fuel)
    (hlinks : ∀ f ∈ fs, ∀ f' ∈ fs, f - 2 ≠ f' - link) (x : Int) :
    adjustSaved adj link fuel a stop w x = w x + if x + 2 ∈ fs then adj else 0 := by
  induction fs generalizing w a fuel with
  | nil =>
      cases h with
      | nil h =>
          have hstop : adjustSaved adj link fuel a stop w = w := by
            cases fuel with
            | zero => rfl
            | succ fuel => rw [adjustSaved, if_neg (Int.not_lt.mpr h)]
          rw [hstop, if_neg List.not_mem_nil, Int.add_zero]
  | cons f fs ih =>
      cases h with
      | @cons _ next _ hlt hlink hnext hrest =>
          obtain ⟨fuel, rfl⟩ : ∃ k, fuel = k + 1 := ⟨fuel - 1, by omega⟩
          rw [adjustSaved, if_pos hlt]
          set w₁ := Function.update w (f - 2) (w (f - 2) + adj) with hw₁
          have hself : w₁ (f - link) / 4 = next := by
            rw [hw₁, Function.update_of_ne (hlinks f List.mem_cons_self f List.mem_cons_self).symm,
              hlink]
            omega
          have hrest' : Chained w₁ stop link next fs := by
            have hmove : Chained w₁ (stop + 0) link (next + 0) (fs.map (· + 0)) :=
                hrest.move 0 fun g hg => by
              have hne : g + 0 - link ≠ f - 2 := by
                rw [Int.add_zero]
                exact (hlinks f List.mem_cons_self g (List.mem_cons_of_mem _ hg)).symm
              rw [hw₁, Function.update_of_ne hne]
              simp
            simpa using hmove
          rw [hself, ih hrest' (by omega) fun g hg g' hg' =>
            hlinks g (List.mem_cons_of_mem _ hg) g' (List.mem_cons_of_mem _ hg')]
          by_cases hx : x = f - 2
          · subst hx
            have hself' : f - 2 + 2 = f := by omega
            have hnot : f ∉ fs := fun hf => absurd (hrest.le f hf) (by omega)
            rw [hself', if_neg hnot, if_pos List.mem_cons_self, hw₁, Function.update_self,
              Int.add_zero]
          · have hne : x + 2 ≠ f := by omega
            rw [hw₁, Function.update_of_ne hx]
            simp only [List.mem_cons, hne, false_or]

/-! ## The whole expansion -/

theorem placedWord_below {adj v : Int} (h : v < 4 * plt.tt) (pointer : Bool) :
    plt.placedWord d adj pointer v = if pointer then v + 4 * d else v := by
  rw [Icb.placedWord]
  split_ifs
  · rw [Icb.placed, if_neg (by omega)]
    omega
  · rfl

theorem placedWord_above {adj v : Int} (h : 4 * plt.tt ≤ v) :
    plt.placedWord d adj true v = v + 4 * d + 4 * adj := by
  rw [Icb.placedWord, if_pos rfl, Icb.placed, if_pos (by omega)]
  omega

theorem adjustment_pos (h : plt.Formed m n code stack) : 0 < plt.adjustment := by
  have hprocs := h.procs
  have hbase := h.block
  have hend := h.name_base
  have hnames := h.names
  have htop := h.name_top
  have hst := h.st
  have hfree := h.free
  have htt := h.tt
  rw [Icb.adjustment]
  split_ifs
  · omega
  · decide

/-- Whether or not the block moves, its control block is the one moved by the distance. -/
theorem doExpansion_eq (plt : Icb) (d : Int) (m : Memory) :
    doExpansion plt (plt.block_base + d) m =
      let w₀ := reallocated plt.block_base (plt.block_ceiling - plt.block_base) (plt.block_base + d)
        m.word
      let w₁ := if d ≠ 0 then adjustSegments d (plt.moved d plt.adjustment) w₀ else w₀
      let w₂ := moveTrail (if d = 0 then id else adjustTrail d) (plt.block_ceiling - plt.tt).toNat
        (plt.tt + d) (plt.tt + d + plt.adjustment) w₁
      let w₃ := adjustSaved plt.adjustment 0 (plt.cf - plt.stack_base).toNat (plt.cf + d)
        (plt.stack_base + d) w₂
      ({ plt.moved d plt.adjustment with
          expansions := plt.expansions + 1, tt := plt.tt + d + plt.adjustment },
        ⟨adjustSaved plt.adjustment 3 (plt.bb - plt.stack_base).toNat (plt.bb + d)
            (plt.stack_base + d) w₃,
          reallocated (4 * plt.block_base) (4 * (plt.block_ceiling - plt.block_base))
            (4 * (plt.block_base + d)) m.byte⟩) := by
  have hdistance : plt.block_base + d - plt.block_base = d := by omega
  have hcount : plt.block_ceiling - plt.block_base - (plt.tt + d - (plt.block_base + d)) =
      plt.block_ceiling - plt.tt := by omega
  have hcf : plt.cf + d - (plt.stack_base + d) = plt.cf - plt.stack_base := by omega
  have hbb : plt.bb + d - (plt.stack_base + d) = plt.bb - plt.stack_base := by omega
  rw [doExpansion, hdistance]
  by_cases hd : d = 0
  · subst hd
    simp only [Int.add_zero] at hcount
    simp only [Icb.moved, ne_eq, not_true_eq_false, if_false, if_true, Int.add_zero, Int.zero_add,
      Int.zero_mul, hcount]
  · simp only [Icb.moved, ne_eq, hd, not_false_eq_true, if_true, if_false, hcount, hcf, hbb]

/-- The words of the block before the trail moves, whether or not the block has moved. -/
theorem expansion_adjusts (h : plt.Formed m n code stack) (d : Int) :
    plt.Adjusted m n code stack d
      (if d ≠ 0 then adjustSegments d (plt.moved d plt.adjustment)
          (reallocated plt.block_base (plt.block_ceiling - plt.block_base) (plt.block_base + d)
            m.word)
        else reallocated plt.block_base (plt.block_ceiling - plt.block_base) (plt.block_base + d)
          m.word) := by
  by_cases hd : d = 0
  · subst hd
    have hold : ∀ x, reallocated plt.block_base (plt.block_ceiling - plt.block_base)
        (plt.block_base + 0) m.word x = m.word x := fun x => by
      rw [reallocated]
      split_ifs
      · congr 1
        omega
      · rfl
    rw [if_neg (not_not.mpr rfl)]
    refine ⟨fun k hk => ?_, fun i label hi => ?_, fun i pointer hi => ?_, fun x hx hx' => ?_⟩
    · rw [hold, hold]
      simp
    · rw [hold, adjustWord]
      simp
    · rw [hold, adjustTagged_eq]
      simp
    · rw [hold, Int.add_zero]
  · rw [if_pos hd]
    exact adjustSegments_adjusts h plt.adjustment

/-- What the trail is read with, whether or not the block has moved. -/
theorem expansion_trail (d : Int) {v : Int} (hv : v % 4 = 0 ∨ v % 4 = 2) :
    (if d = 0 then id else adjustTrail d) v = v + 4 * d := by
  split_ifs with hd
  · rw [hd]
    simp
  · exact adjustTrail_eq hv d

/-- The words after an expansion by way of those before the trail moves. -/
theorem doExpansion_words (h : plt.Formed m n code stack) {cfs bfs : List Int}
    (hframed : plt.Framed m stack cfs bfs) (hbelow : plt.PointsBelow m n code) (d : Int) :
    ∃ w, plt.Adjusted m n code stack d w ∧ ∃ F : Int → Int,
      (∀ v, v % 4 = 0 ∨ v % 4 = 2 → F v = v + 4 * d) ∧
      ∀ x, (doExpansion plt (plt.block_base + d) m).2.word x =
        moveTrail F (plt.block_ceiling - plt.tt).toNat (plt.tt + d) (plt.tt + d + plt.adjustment) w
          x +
          (if x + 2 - d ∈ cfs then plt.adjustment else 0) +
          (if x + 2 - d ∈ bfs then plt.adjustment else 0) := by
  have hadj := adjustment_pos h
  have hst := h.st
  have hfree := h.free
  obtain ⟨-, -, hcf, hbb, -⟩ := hbelow.registers
  -- the control block and the adjusted words, whether or not the block moves
  set w₀ := reallocated plt.block_base (plt.block_ceiling - plt.block_base) (plt.block_base + d)
    m.word with hw₀
  set w₁ := if d ≠ 0 then adjustSegments d (plt.moved d plt.adjustment) w₀ else w₀ with hw₁
  set F : Int → Int := if d = 0 then id else adjustTrail d with hF
  have hadjusted : plt.Adjusted m n code stack d w₁ := expansion_adjusts h d
  refine ⟨w₁, hadjusted, F, fun v hv => expansion_trail d hv, fun x => ?_⟩
  set w₂ := moveTrail F (plt.block_ceiling - plt.tt).toNat (plt.tt + d)
    (plt.tt + d + plt.adjustment) w₁ with hw₂
  obtain ⟨adj, hadjNat⟩ : ∃ k : Nat, plt.adjustment = k := ⟨plt.adjustment.toNat, by omega⟩
  have hstack : ∀ x ≤ plt.tt + d, w₂ x = w₁ x := fun x hx => by
    rw [hw₂, hadjNat]
    exact (moveTrail_moves F (by omega) w₁ (plt.tt + d) _).2 x (by omega)
  -- the chains of the moved block
  have hlink : ∀ {k : Int} {next : Int}, stack[(k - plt.stack_base).toNat]? = some true →
      plt.stack_base ≤ k → m.word k = next → w₂ (k + d) = next + 4 * d := by
    intro k next hk hle hnext
    have hlt := (List.getElem?_eq_some_iff.mp hk).1
    have hplace : k + d = plt.stack_base + d + (k - plt.stack_base).toNat := by omega
    have hread : plt.stack_base + (k - plt.stack_base).toNat = k := by omega
    rw [hstack _ (by omega), hplace, hadjusted.cells _ true hk, adjustTagged_eq, if_pos rfl, hread,
      hnext]
  have hcfs : Chained w₂ (plt.stack_base + d) 0 (plt.cf + d) (cfs.map (· + d)) :=
    hframed.cf.move d fun f hf => by
      have hle := (hframed.saved f (List.mem_append_left _ hf)).1
      rw [Int.sub_zero, Int.sub_zero]
      exact hlink (hframed.cfLink f hf) (by omega) rfl
  have happart : ∀ f ∈ cfs ++ bfs, ∀ g ∈ cfs.map (· + d), f + d - 2 ≠ g - 0 := by
    intro f hf g hg heq
    obtain ⟨g', hg', rfl⟩ := List.mem_map.mp hg
    have hgf : f - 2 = g' := by omega
    exact (hframed.apart f hf).1 (hgf ▸ hg')
  have hmem : ∀ {fs : List Int} {x : Int}, x ∈ fs.map (· + d) ↔ x - d ∈ fs := by
    intro fs x
    refine ⟨fun hx => ?_, fun hx => List.mem_map.mpr ⟨x - d, hx, by omega⟩⟩
    obtain ⟨y, hy, rfl⟩ := List.mem_map.mp hx
    rwa [Int.add_sub_cancel]
  set w₃ := adjustSaved plt.adjustment 0 (plt.cf - plt.stack_base).toNat (plt.cf + d)
    (plt.stack_base + d) w₂ with hw₃
  have hadds₁ : ∀ x, w₃ x = w₂ x + if x + 2 - d ∈ cfs then plt.adjustment else 0 := fun x => by
    rw [hw₃, adjustSaved_adds hcfs (by omega) fun f hf g hg => by
      obtain ⟨f', hf', rfl⟩ := List.mem_map.mp hf
      exact happart f' (List.mem_append_left _ hf') g hg]
    simp only [hmem]
  have hbfs : Chained w₃ (plt.stack_base + d) 3 (plt.bb + d) (bfs.map (· + d)) :=
    hframed.bb.move d fun f hf => by
      obtain ⟨hle, hpointer⟩ := hframed.bbLink f hf
      have hnot : f + d - 3 + 2 - d ∉ cfs := fun hin => by
        have hf' := (hframed.apart _ (List.mem_append_left bfs hin)).2
        have hself : f + d - 3 + 2 - d + 1 = f := by omega
        rw [hself] at hf'
        exact hf' hf
      have hplace : f + d - 3 = f - 3 + d := by omega
      rw [hadds₁, if_neg hnot, Int.add_zero, hplace]
      exact hlink hpointer (by omega) rfl
  rw [doExpansion_eq]
  show adjustSaved plt.adjustment 3 (plt.bb - plt.stack_base).toNat (plt.bb + d)
    (plt.stack_base + d) w₃ x = _
  rw [adjustSaved_adds hbfs (by omega) fun f hf g hg heq => ?_, hadds₁]
  · simp only [hmem]
  · obtain ⟨f', hf', rfl⟩ := List.mem_map.mp hf
    obtain ⟨g', hg', rfl⟩ := List.mem_map.mp hg
    have hgf : f' + 1 = g' := by omega
    exact (hframed.apart f' (List.mem_append_right _ hf')).2 (hgf ▸ hg')

/-- The entries of the trail: an entry that is read before its slot is written comes from there, any
other from what has been written. -/
theorem trail_moves (h : plt.Formed m n code stack) {w F : Int → Int}
    (hadjusted : plt.Adjusted m n code stack d w)
    (hF : ∀ v, v % 4 = 0 ∨ v % 4 = 2 → F v = v + 4 * d) (w' : Int → Int)
    (hw' : ∀ x, plt.tt + d < x → w' x = moveTrail F (plt.block_ceiling - plt.tt).toNat (plt.tt + d)
      (plt.tt + d + plt.adjustment) w x) (i : Nat) (hi : plt.tt + 1 + i < plt.block_ceiling) :
    w' (plt.tt + d + plt.adjustment + 1 + i) =
      if (i : Int) < plt.adjustment then m.word (plt.tt + 1 + i) + 4 * d
      else F (w' (plt.tt + d + 1 + i)) := by
  have hadj := adjustment_pos h
  obtain ⟨adj, hnat⟩ : ∃ k : Nat, plt.adjustment = k := ⟨plt.adjustment.toNat, by omega⟩
  rw [hnat] at hw' ⊢
  have hmoved := (moveTrail_moves F (by omega : 0 < adj) w (plt.tt + d)
    (plt.block_ceiling - plt.tt).toNat).1 (i + 1) (by omega) (by omega)
  have hto : plt.tt + d + adj + 1 + i = plt.tt + d + adj + ((i + 1 : Nat) : Int) := by omega
  have hfrom : plt.tt + d + 1 + i = plt.tt + d + ((i + 1 : Nat) : Int) := by omega
  rw [hto, hw' _ (by omega), hmoved]
  by_cases hlt : i + 1 ≤ adj
  · have hread : plt.tt + d + ((i + 1 : Nat) : Int) = plt.tt + 1 + i + d := by omega
    rw [if_pos hlt, if_pos (by omega), hread, hadjusted.trail _ (by omega) hi,
      hF _ (h.trail _ (by omega) hi)]
  · rw [if_neg hlt, if_neg (by omega), hfrom, hw' _ (by omega)]

/-- The words of the block after the expansion. A word of the stack that saves a trail top has got
the words added as bytes, and an entry of the trail comes from the slot it was in, unless this has
been written before. -/
structure Icb.Relocated (plt : Icb) (m : Memory) (n : Nat) (code stack : List Bool)
    (cfs bfs : List Int) (d : Int) (w' : Int → Int) : Prop where
  procs : ∀ k < n, w' (plt.proc_base + d + 2 * (k : Nat)) = m.word (plt.proc_base + 2 * (k : Nat)) ∧
    w' (plt.proc_base + d + 2 * (k : Nat) + 1) = m.word (plt.proc_base + 2 * (k : Nat) + 1) + d
  instrs : ∀ (i : Nat) (label : Bool), code[i]? = some label →
    w' (plt.code_base + d + i) = adjustWord d label (m.word (plt.code_base + i))
  cells : ∀ (i : Nat) (pointer : Bool), stack[i]? = some pointer →
    w' (plt.stack_base + d + i) = adjustTagged d pointer (m.word (plt.stack_base + i)) +
      (if plt.stack_base + i + 2 ∈ cfs then plt.adjustment else 0) +
      if plt.stack_base + i + 2 ∈ bfs then plt.adjustment else 0
  first : ∀ i : Nat, plt.tt + 1 + i < plt.block_ceiling → (i : Int) < plt.adjustment →
    w' (plt.tt + d + plt.adjustment + 1 + i) = m.word (plt.tt + 1 + i) + 4 * d
  later : ∀ i : Nat, plt.tt + 1 + i < plt.block_ceiling → plt.adjustment ≤ i → ∀ v,
    w' (plt.tt + d + 1 + i) = v → v % 4 = 0 ∨ v % 4 = 2 →
      w' (plt.tt + d + plt.adjustment + 1 + i) = v + 4 * d

section Relocated

variable {cfs bfs : List Int}

/-- **What the expansion does to the words.** The chains touch the stack only, and the trail loop
only what is above it. -/
theorem doExpansion_relocated (h : plt.Formed m n code stack) (hframed : plt.Framed m stack cfs bfs)
    (hbelow : plt.PointsBelow m n code) (d : Int) :
    plt.Relocated m n code stack cfs bfs d (doExpansion plt (plt.block_base + d) m).2.word := by
  obtain ⟨w, hadjusted, F, hF, hword⟩ := doExpansion_words h hframed hbelow d
  have hadj := adjustment_pos h
  set m' := (doExpansion plt (plt.block_base + d) m).2
  have hprocs := h.procs
  have hbase := h.block
  have hend := h.name_base
  have hnames := h.names
  have htop := h.name_top
  have hst := h.st
  have hfree := h.free
  have htt := h.tt
  obtain ⟨-, -, hcf, hbb, -, -⟩ := hbelow.registers
  have hframe : ∀ f ∈ cfs ++ bfs, plt.stack_base + 2 ≤ f ∧ f < plt.tt := fun f hf => by
    refine ⟨(hframed.saved f hf).1, ?_⟩
    rcases List.mem_append.mp hf with hf | hf
    · exact Int.lt_of_le_of_lt (hframed.cf.le f hf) hcf
    · exact Int.lt_of_le_of_lt (hframed.bb.le f hf) hbb
  have hnot : ∀ x, x < plt.stack_base + d ∨ plt.tt + d - 2 ≤ x →
      x + 2 - d ∉ cfs ∧ x + 2 - d ∉ bfs := fun x hx => by
    refine ⟨fun hin => ?_, fun hin => ?_⟩
    · have hf := hframe _ (List.mem_append_left bfs hin)
      omega
    · have hf := hframe _ (List.mem_append_right cfs hin)
      omega
  obtain ⟨adj, hnat⟩ : ∃ k : Nat, plt.adjustment = k := ⟨plt.adjustment.toNat, by omega⟩
  have hbefore : ∀ x ≤ plt.tt + d, moveTrail F (plt.block_ceiling - plt.tt).toNat (plt.tt + d)
      (plt.tt + d + plt.adjustment) w x = w x := fun x hx => by
    rw [hnat]
    exact (moveTrail_moves F (by omega) w (plt.tt + d) _).2 x (by omega)
  have hlow : ∀ x < plt.stack_base + d, m'.word x = w x := fun x hx => by
    rw [hword, if_neg (hnot x (Or.inl hx)).1, if_neg (hnot x (Or.inl hx)).2, Int.add_zero,
      Int.add_zero, hbefore x (by omega)]
  have htrail := trail_moves h hadjusted hF m'.word fun x hx => by
    rw [hword, if_neg (hnot x (Or.inr (by omega))).1, if_neg (hnot x (Or.inr (by omega))).2,
      Int.add_zero, Int.add_zero]
  refine ⟨fun k hk => ?_, fun i label hi => ?_, fun i pointer hi => ?_, fun i hi hlt => ?_,
    fun i hi hle v hv htag => ?_⟩
  · rw [hlow _ (by omega), hlow _ (by omega)]
    exact hadjusted.procs k hk
  · have hlt := (List.getElem?_eq_some_iff.mp hi).1
    rw [hlow _ (by omega)]
    exact hadjusted.instrs i label hi
  · have hlt := (List.getElem?_eq_some_iff.mp hi).1
    have hplace : plt.stack_base + d + i + 2 - d = plt.stack_base + i + 2 := by omega
    rw [hword, hbefore _ (by omega), hadjusted.cells i pointer hi, hplace]
  · rw [htrail i hi, if_pos hlt]
  · rw [htrail i hi, if_neg (by omega), hv, hF v htag]

namespace Icb.Relocated

variable {w' : Int → Int} {plt' : Icb} {m' : Memory}

/-- With a move, an entry or a label that designates the same object would have to be there. -/
theorem program_eq (hr : plt.Relocated m n code stack cfs bfs d m'.word)
    (h : plt.Formed m n code stack) (hbelow : plt.PointsBelow m n code)
    (hexp : plt.Expanded plt' m m' n code stack d plt.adjustment) (hd : d ≠ 0) :
    plt.code_base = plt.proc_base ∧ true ∉ code := by
  have hprocs := h.procs
  obtain ⟨-, -, hproc', hcode', -, -, -⟩ := hexp.bases
  refine ⟨?_, fun hin => ?_⟩
  · by_contra hne
    have hpos : 0 < n := by omega
    have hentry := (hexp.procs 0 hpos).2
    rw [placedWord_below (hbelow.procs 0 hpos), if_pos rfl, hproc', (hr.procs 0 hpos).2] at hentry
    omega
  · obtain ⟨i, hi⟩ := List.mem_iff_getElem?.mp hin
    have hlabel := hexp.instrs i true hi
    rw [placedWord_below (hbelow.labels i hi), if_pos rfl, hcode', hr.instrs i true hi, adjustWord,
      if_pos rfl] at hlabel
    omega

/-- A pointer into the trail would be moved with the stack. -/
theorem cell_below (hr : plt.Relocated m n code stack cfs bfs d m'.word)
    (h : plt.Formed m n code stack)
    (hexp : plt.Expanded plt' m m' n code stack d plt.adjustment) {i : Nat}
    (hi : stack[i]? = some true) : m.word (plt.stack_base + i) < 4 * plt.tt := by
  have hadj := adjustment_pos h
  by_contra habove
  have hcell := hexp.cells i true hi
  rw [placedWord_above (Int.not_lt.mp habove), hexp.bases.2.2.2.2.2.2, hr.cells i true hi,
    adjustTagged_eq, if_pos rfl] at hcell
  split_ifs at hcell <;> omega

/-- The slot of an entry is written before it is read when another entry goes there. -/
theorem trail_repeats (hr : plt.Relocated m n code stack cfs bfs d m'.word)
    (h : plt.Formed m n code stack) (hbelow : plt.PointsBelow m n code)
    (hexp : plt.Expanded plt' m m' n code stack d plt.adjustment)
    (htt' : plt'.tt = plt.tt + d + plt.adjustment) {x : Int} (hx : plt.tt < x)
    (hx' : x + plt.adjustment < plt.block_ceiling) :
    m.word (x + plt.adjustment) = m.word x + 4 * d := by
  have hadj := adjustment_pos h
  obtain ⟨adj, hnat⟩ : ∃ k : Nat, plt.adjustment = k := ⟨plt.adjustment.toNat, by omega⟩
  obtain ⟨j, hj⟩ : ∃ j : Nat, x = plt.tt + 1 + j := ⟨(x - plt.tt - 1).toNat, by omega⟩
  have hslot : plt.tt + 1 + ((j + adj : Nat) : Int) = x + plt.adjustment := by omega
  have hread : plt.tt + d + 1 + ((j + adj : Nat) : Int) = plt.tt + d + plt.adjustment + 1 + j := by
    omega
  have hfirst := hexp.trail j (by omega)
  have hsecond := hexp.trail (j + adj) (by omega)
  rw [hslot, htt', placedWord_below (hbelow.trail _ (by omega) hx'), if_pos rfl] at hsecond
  rw [htt', ← hj, placedWord_below (hbelow.trail x hx (by omega)), if_pos rfl] at hfirst
  have htag := h.trail x hx (by omega)
  rw [hr.later (j + adj) (by omega) (by omega) _ (hread ▸ hfirst) (by omega)] at hsecond
  omega

/-- The slots below have what belongs to them, and a slot that is read late repeats them. -/
theorem trail_placed (hr : plt.Relocated m n code stack cfs bfs d m'.word)
    (h : plt.Formed m n code stack)
    (hrepeat : ∀ x, plt.tt < x → x + plt.adjustment < plt.block_ceiling →
      m.word (x + plt.adjustment) = m.word x + 4 * d) (i : Nat)
    (hi : plt.tt + 1 + i < plt.block_ceiling) :
    m'.word (plt.tt + d + plt.adjustment + 1 + i) = m.word (plt.tt + 1 + i) + 4 * d := by
  have hadj := adjustment_pos h
  obtain ⟨adj, hnat⟩ : ∃ k : Nat, plt.adjustment = k := ⟨plt.adjustment.toNat, by omega⟩
  induction i using Nat.strong_induction_on with
  | _ i ih =>
      by_cases hlt : (i : Int) < plt.adjustment
      · exact hr.first i hi hlt
      · obtain ⟨k, hk⟩ : ∃ k : Nat, i = k + adj := ⟨i - adj, by omega⟩
        have hread : plt.tt + d + 1 + (i : Int) = plt.tt + d + plt.adjustment + 1 + k := by omega
        have hslot : plt.tt + 1 + (i : Int) = plt.tt + 1 + k + plt.adjustment := by omega
        have hearlier := ih k (by omega) (by omega)
        have htag := h.trail (plt.tt + 1 + k) (by omega) (by omega)
        rw [hr.later i hi (by omega) _ (hread ▸ hearlier) (by omega), hslot,
          hrepeat (plt.tt + 1 + k) (by omega) (by omega)]

end Icb.Relocated

end Relocated

/-- The block pointers and registers after the expansion. -/
theorem doExpansion_icb (plt : Icb) (d : Int) (m : Memory) :
    (doExpansion plt (plt.block_base + d) m).1 = { plt.moved d plt.adjustment with
      expansions := plt.expansions + 1, tt := plt.tt + d + plt.adjustment } := by
  rw [doExpansion_eq]

/-- **Memory expansion** is a relocation exactly when it meets nothing that is moved by bytes, no
pointer into the trail, and no entry of the trail that is overwritten. -/
theorem expansion_iff (plt : Icb) (m : Memory) (n : Nat) (code stack : List Bool)
    (cfs bfs : List Int) (new_base : Int) (h : plt.Formed m n code stack)
    (hframed : plt.Framed m stack cfs bfs)
    (hbelow : plt.PointsBelow m n code) :
    plt.Expanded (doExpansion plt new_base m).1 m (doExpansion plt new_base m).2 n code stack
        (new_base - plt.block_base) plt.adjustment ↔
      plt.ExpandsWell new_base m code stack := by
  obtain ⟨d, rfl⟩ : ∃ d, new_base = plt.block_base + d := ⟨new_base - plt.block_base, by omega⟩
  have hd : plt.block_base + d - plt.block_base = d := by omega
  have hr := doExpansion_relocated h hframed hbelow d
  have hbyte : (doExpansion plt (plt.block_base + d) m).2.byte = reallocated (4 * plt.block_base)
      (4 * (plt.block_ceiling - plt.block_base)) (4 * (plt.block_base + d)) m.byte := by
    rw [doExpansion_eq]
  rw [doExpansion_icb, hd]
  set m' := (doExpansion plt (plt.block_base + d) m).2
  constructor
  · intro hexp
    refine ⟨fun hmove => hr.program_eq h hbelow hexp (by omega),
      fun i hi => hr.cell_below h hexp hi, ?_, fun x hx hx' => ?_⟩
    · by_contra haf
      have hreg := hexp.registers.2.1
      have hadj := adjustment_pos h
      rw [Icb.placed, if_pos (Int.not_lt.mp haf)] at hreg
      dsimp only [Icb.moved] at hreg
      omega
    · rw [hd]
      exact hr.trail_repeats h hbelow hexp rfl hx hx'
  · intro hwell
    have hbase := h.block
    have hnames := h.names
    have htop := h.name_top
    have htt := h.tt
    have hst := h.st
    have hfree := h.free
    have hprocs := h.procs
    have hname := h.name_base
    obtain ⟨hpp, hcp, hcf, hbb, hb0, hgl⟩ := hbelow.registers
    have hnone : ∀ f, f ∉ cfs ++ bfs := fun f hf => by
      obtain ⟨hle, hpointer, hsaved⟩ := hframed.saved f hf
      have hlt := hwell.cells _ hpointer
      have hplace : plt.stack_base + (f - 2 - plt.stack_base).toNat = f - 2 := by omega
      rw [hplace] at hlt
      omega
    have hprogram : d ≠ 0 → plt.code_base = plt.proc_base ∧ true ∉ code := fun hd0 =>
      hwell.program (by omega)
    refine ⟨?_, ?_, fun k hk => ?_, fun i label hi => ?_, fun j hj => ?_, fun i pointer hi => ?_,
      fun i hi => ?_⟩
    · dsimp only [Icb.moved]
      omega
    · have haf := hwell.af
      dsimp only [Icb.moved, Icb.placed]
      split_ifs <;> omega
    · obtain ⟨hfunctor, hentry⟩ := hr.procs k hk
      have hd0 : d = 0 := by
        by_contra hne
        have hempty := (hprogram hne).1
        omega
      dsimp only [Icb.moved]
      rw [hfunctor, hentry, placedWord_below (hbelow.procs k hk), if_pos rfl, hd0]
      exact ⟨rfl, rfl⟩
    · dsimp only [Icb.moved]
      rw [hr.instrs i label hi]
      cases label with
      | false => rfl
      | true =>
          have hd0 : d = 0 := by
            by_contra hne
            exact (hprogram hne).2 (List.mem_of_getElem? hi)
          rw [placedWord_below (hbelow.labels i hi), adjustWord, if_pos rfl, if_pos rfl, hd0]
          rfl
    · have hplace : plt.name_base + d * 4 + j = plt.name_base + j + 4 * d := by omega
      have hnew : 4 * (plt.block_base + d) = 4 * plt.block_base + 4 * d := by omega
      dsimp only [Icb.moved]
      rw [hbyte, hplace, hnew, reallocated_apply m.byte (by omega) (by omega)]
    · dsimp only [Icb.moved]
      rw [hr.cells i pointer hi, if_neg fun hin => hnone _ (List.mem_append_left _ hin),
        if_neg fun hin => hnone _ (List.mem_append_right _ hin), Int.add_zero, Int.add_zero,
        adjustTagged_eq]
      cases pointer with
      | false => rfl
      | true => rw [placedWord_below (hwell.cells i hi)]
    · have hrepeat := hwell.trail
      rw [hd] at hrepeat
      rw [placedWord_below (hbelow.trail _ (by omega) hi), if_pos rfl]
      exact hr.trail_placed h hrepeat i hi

/-! ## Expanding a worker -/

theorem worker_framed : worker.Framed workerMemory [true] [] [] where
  cf := .nil (Int.le_refl _)
  bb := .nil (Int.le_refl _)
  cfLink _ hf := absurd hf List.not_mem_nil
  bbLink _ hf := absurd hf List.not_mem_nil
  saved _ hf := absurd hf List.not_mem_nil
  apart _ hf := absurd hf List.not_mem_nil

theorem worker_pointsBelow : worker.PointsBelow workerMemory 1 workerCode where
  registers := by decide
  procs k hk := by
    obtain rfl := Nat.lt_one_iff.mp hk
    decide
  labels i hi := by
    match i, hi with
    | 1, _ => decide
    | n + 5, hi => cases hi
  trail x hx hx' := by
    have hslot : x = 111 := by
      change 110 < x at hx
      change x < 112 at hx'
      omega
    subst hslot
    decide

theorem worker_expandsWell : worker.ExpandsWell 100 workerMemory workerCode [true] where
  program hmove := absurd rfl hmove
  cells i hi := by
    match i, hi with
    | 0, _ => decide
    | n + 1, hi => cases hi
  af := by decide
  trail x hx hx' := by
    change 110 < x at hx
    change x + 12 < 112 at hx'
    omega

theorem expansion_iff_worker :
    worker.Expanded (doExpansion worker 100 workerMemory).1 workerMemory
      (doExpansion worker 100 workerMemory).2 1 workerCode [true] (100 - 100) 12 :=
  (expansion_iff worker workerMemory 1 workerCode [true] [] [] 100 worker_formed worker_framed
    worker_pointsBelow).mpr worker_expandsWell

/-- The worker in a call: its control frame at word 111 saves trail top 118. -/
def callingMemory : Memory where
  word x := [8389487, 424, 133, 424, 135, 8389487, 6, 0, 432, 472, 424, 432, 0, 0, 0, 0, 0, 0, 0,
    434].getD (x - 100).toNat 0
  byte := workerMemory.byte

def calling : Icb :=
  { worker with block_ceiling := 120, af := 111, cf := 111, st := 111, tt := 118 }

theorem calling_formed : calling.Formed callingMemory 1 workerCode [true, true, true, true] where
  block := rfl
  procs := rfl
  functor k hk := by
    obtain rfl := Nat.lt_one_iff.mp hk
    decide
  entry k hk := by
    obtain rfl := Nat.lt_one_iff.mp hk
    decide
  instrs := by
    refine .cons (rfl : codeItem callingMemory.word 102 = some [false, true])
      (List.cons_ne_nil _ _) ?_
    refine .cons (rfl : codeItem callingMemory.word 104 = some [false, false])
      (List.cons_ne_nil _ _) ?_
    exact .cons (rfl : codeItem callingMemory.word 106 = some [false]) (List.cons_ne_nil _ _)
      (.nil _)
  name_base := rfl
  names := by decide
  inside := by decide
  name_top := by decide
  cells := by
    have hcell : ∀ x, stackItem callingMemory.word x = some [true] →
        ∀ ks, Tiled stackItem callingMemory.word (x + 1) ks →
          Tiled stackItem callingMemory.word x (true :: ks) :=
      fun x hx ks hks => .cons hx (List.cons_ne_nil _ _) hks
    exact hcell 108 rfl _ (hcell 109 rfl _ (hcell 110 rfl _ (hcell 111 rfl _ (.nil _))))
  st := rfl
  free := by decide
  tt := by decide
  trail x hx hx' := by
    have hslot : x = 119 := by
      change 118 < x at hx
      change x < 120 at hx'
      omega
    subst hslot
    decide

theorem calling_framed : calling.Framed callingMemory [true, true, true, true] [111] [] where
  cf := by
    have hlink : callingMemory.word (calling.cf - 0) = 4 * 108 := rfl
    exact .cons (by decide) hlink (by decide) (.nil (Int.le_refl _))
  bb := .nil (Int.le_refl _)
  cfLink f hf := by
    obtain rfl := List.mem_singleton.mp hf
    rfl
  bbLink _ hf := absurd hf List.not_mem_nil
  saved f hf := by
    obtain rfl := List.mem_singleton.mp hf
    exact ⟨by decide, rfl, by decide⟩
  apart f hf := by
    obtain rfl := List.mem_singleton.mp hf
    decide

/-- The saved trail top moves by 20 bytes, and the trail by 20 words. -/
theorem saved_trail_top_lost :
    calling.Formed callingMemory 1 workerCode [true, true, true, true] ∧
      calling.Framed callingMemory [true, true, true, true] [111] [] ∧
      callingMemory.word 109 = 4 * calling.tt ∧
      (doExpansion calling 100 callingMemory).1.tt = calling.tt + 20 ∧
      (doExpansion calling 100 callingMemory).2.word 109 = 4 * calling.tt + 20 ∧
      ¬ calling.Expanded (doExpansion calling 100 callingMemory).1 callingMemory
        (doExpansion calling 100 callingMemory).2 1 workerCode [true, true, true, true] (100 - 100)
        20 := by
  refine ⟨calling_formed, calling_framed, rfl, by decide, by decide, fun h => ?_⟩
  have hcell := h.cells 1 true rfl
  revert hcell
  decide

end Mlvm
