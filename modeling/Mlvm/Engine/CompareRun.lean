import Mlvm.Engine.Ops
import Mlvm.Engine.Store

/-!
# Runs of the comparison loop

The comparison keeps the pairs it has not looked at yet on the stack, above the terms. `Compares`
says what the loop does with one pair, **whatever is pending below it**: the pair turns out equal
and the next one is popped, or it decides, and then everything pending stays on the stack.

The rules follow the passes of the loop: references (`compares_ref_left`, `compares_ref_right`),
pairs that one look settles (`compares_decided`, `compares_next`), and pairs of compound terms,
whose arguments are pushed and compared from the first (`Pending.equal`, `Pending.differ`).
-/

namespace Mlvm

open Engine

variable {P : Program} {mem : Int → Word} {top : Int}

namespace Engine

/-- The loop takes a constant for the address of a structure. What is there is no part of the terms,
so that the comparison has no answer. -/
def UsesConstant (e : Engine) : Prop :=
  ∃ p n, e.ax = .str p ∧ e.mem p ≠ .fvlTag ∧ e.bx = .cst n

/-- Passes of the loop. -/
inductive Comparing (P : Program) (e : Engine) : Engine → Prop
  | start : Comparing P e e
  | step {f : Engine} (h : Comparing P e f) (hlbl : f.lbl = .compare) (hconst : ¬ f.UsesConstant) :
      Comparing P e (f.compareStep P)

theorem Comparing.trans {e f g : Engine} (hef : e.Comparing P f) (hfg : f.Comparing P g) :
    e.Comparing P g := by
  induction hfg with
  | start => exact hef
  | step _ hlbl hconst ih => exact ih.step hlbl hconst

/-- The loop is deterministic: of two runs one goes on from the other. -/
theorem Comparing.linear {e f g : Engine} (hf : e.Comparing P f) (hg : e.Comparing P g) :
    f.Comparing P g ∨ g.Comparing P f := by
  induction hf with
  | start => exact Or.inl hg
  | @step f hf hlbl hconst ih =>
    rcases ih with hfg | hgf
    · have hfirst : g = f ∨ (f.compareStep P).Comparing P g := by
        clear hg hf
        induction hfg with
        | start => exact Or.inl rfl
        | step _ hlbl' hconst' ih' =>
          rcases ih' with rfl | ih'
          · exact Or.inr .start
          · exact Or.inr (ih'.step hlbl' hconst')
      rcases hfirst with rfl | hfg
      · exact Or.inr (.step .start hlbl hconst)
      · exact Or.inl hfg
    · exact Or.inr (hgf.step hlbl hconst)

/-- A run that has left the loop is over. -/
theorem Comparing.eq_of_compared {e f : Engine} (h : e.Comparing P f) (hlbl : e.lbl ≠ .compare) :
    f = e := by
  induction h with
  | start => rfl
  | step _ hlbl' _ ih =>
    rw [ih] at hlbl'
    exact (hlbl hlbl').elim

/-- **The answer is unique.** -/
theorem Comparing.unique {e f g : Engine} (hf : e.Comparing P f) (hg : e.Comparing P g)
    (hflbl : f.lbl = .compared) (hglbl : g.lbl = .compared) : f = g := by
  rcases hf.linear hg with h | h
  · exact (h.eq_of_compared (by rw [hflbl]; decide)).symm
  · exact h.eq_of_compared (by rw [hglbl]; decide)

end Engine

/-- The outcome of the comparison in `dx`. -/
def answer : Ordering → Word
  | .lt => .mlvmNone
  | .eq => .mlvmZero
  | .gt => .mlvmOne

theorem answer_inj {o o' : Ordering} : answer o = answer o' ↔ o = o' := by
  cases o <;> cases o' <;> decide

/-- A state of the loop above terms in `mem` up to `top`. -/
structure Scratch (mem : Int → Word) (top : Int) (e : Engine) : Prop where
  lbl : e.lbl = .compare
  below : ∀ q ≤ top, e.mem q = mem q
  cx : e.cx = top
  st : top ≤ e.st

/-- What the current pair of `e` comes to: the next pair is popped, or it has decided, with `d`
pairs more than before on the stack. -/
inductive After (e : Engine) : Ordering → Nat → Engine → Prop
  | equal {g : Engine} (hlbl : g.lbl = .compare) (hcx : g.cx = e.cx) (hst : g.st = e.st)
      (hmem : ∀ q ≤ e.st, g.mem q = e.mem q) : After e .eq 0 g.comparePop
  | differ {g : Engine} {o : Ordering} {d : Nat} (hne : o ≠ .eq) (hlbl : g.lbl = .compared)
      (hdx : g.dx = answer o) (hst : g.st = e.st + 2 * (d : Nat)) : After e o d g

/-- Comparing `v` and `w` comes to `o`, and leaves `d` pairs behind. -/
def Compares (P : Program) (mem : Int → Word) (top : Int) (v w : Word) (o : Ordering) (d : Nat) :
    Prop :=
  ∀ e : Engine, Scratch mem top e → e.ax = v → e.bx = w → ∃ f, e.Comparing P f ∧ After e o d f

/-! ## References -/

theorem compares_ref_left {a : Int} {w : Word} {o : Ordering} {d : Nat} (ha : a ≤ top)
    (hne : mem a ≠ .ref a) (h : Compares P mem top (mem a) w o d) :
    Compares P mem top (.ref a) w o d := by
  intro e he hax hbx
  have hread : e.mem a = mem a := he.below a ha
  have hstep : e.compareStep P = { e with ax := mem a } := by
    rw [compareStep, hax, leadsOn, hread, if_pos (by simpa using hne), Word.addr_ref, hread]
  have hconst : ¬ e.UsesConstant := by
    rintro ⟨p, n, hp, -⟩
    rw [hax] at hp
    cases hp
  obtain ⟨f, hf, hafter⟩ := h { e with ax := mem a } ⟨he.lbl, he.below, he.cx, he.st⟩ rfl hbx
  refine ⟨f, (Comparing.step .start he.lbl hconst).trans (hstep ▸ hf), ?_⟩
  cases hafter with
  | equal hlbl hcx hst hmem => exact .equal hlbl hcx hst hmem
  | differ hne hlbl hdx hst => exact .differ hne hlbl hdx hst

/-- The word does not lead on: it is no reference, or an unbound variable. -/
def Final (mem : Int → Word) (top : Int) (v : Word) : Prop :=
  ∀ a, v = .ref a → a ≤ top ∧ mem a = .ref a

theorem Final.not_leadsOn {v : Word} (h : Final mem top v) {e : Engine}
    (hbelow : ∀ q ≤ top, e.mem q = mem q) : e.leadsOn v = false := by
  cases v with
  | ref a =>
    obtain ⟨ha, hself⟩ := h a rfl
    simp [leadsOn, hbelow a ha, hself]
  | _ => rfl

theorem compares_ref_right {a : Int} {v : Word} {o : Ordering} {d : Nat} (hv : Final mem top v)
    (ha : a ≤ top) (hne : mem a ≠ .ref a) (h : Compares P mem top v (mem a) o d) :
    Compares P mem top v (.ref a) o d := by
  intro e he hax hbx
  have hread : e.mem a = mem a := he.below a ha
  have hstep : e.compareStep P = { e with bx := mem a } := by
    rw [compareStep, hax, hv.not_leadsOn he.below, if_neg (by simp), hbx, leadsOn, hread,
      if_pos (by simpa using hne), Word.addr_ref, hread]
  have hconst : ¬ e.UsesConstant := by
    rintro ⟨p, n, -, -, hn⟩
    rw [hbx] at hn
    cases hn
  obtain ⟨f, hf, hafter⟩ := h { e with bx := mem a } ⟨he.lbl, he.below, he.cx, he.st⟩ hax rfl
  refine ⟨f, (Comparing.step .start he.lbl hconst).trans (hstep ▸ hf), ?_⟩
  cases hafter with
  | equal hlbl hcx hst hmem => exact .equal hlbl hcx hst hmem
  | differ hne hlbl hdx hst => exact .differ hne hlbl hdx hst

/-! ## One look -/

/-- The verdict on two words over `mem`. -/
def verdictOf (P : Program) (mem : Int → Word) (v w : Word) : Verdict :=
  verdict P { (default : Engine) with mem := mem, ax := v, bx := w }

/-- A comparison of words that one look can take. -/
structure Looks (mem : Int → Word) (cells : Finset Int) (top : Int) (v w : Word) : Prop where
  left : Placed mem cells top v
  right : Placed mem cells top w
  leftFinal : Final mem top v
  rightFinal : Final mem top w
  proper : ∀ p n, v = .str p → mem p ≠ .fvlTag → w ≠ .cst n

variable {cells : Finset Int} {v w : Word}

theorem Placed.str_le {p : Int} (h : Placed mem cells top (.str p)) :
    p ≤ top ∧ (mem p = .fvlTag → p + 2 ≤ top) := by
  simp only [Placed] at h
  by_cases hf : mem p = .fvlTag
  · rw [if_pos hf] at h
    exact ⟨by omega, fun _ => h.2.2⟩
  · rw [if_neg hf] at h
    exact ⟨h.1, fun hf' => (hf hf').elim⟩

theorem Placed.isFloat_eq (h : Placed mem cells top v) {e : Engine}
    (hbelow : ∀ q ≤ top, e.mem q = mem q) : v.isFloat e.mem = v.isFloat mem := by
  cases v with
  | str p => rw [Word.isFloat, Word.isFloat, hbelow p h.str_le.1]
  | _ => rfl

/-- The loop sees the two words as they are. -/
theorem Looks.verdict_eq (h : Looks mem cells top v w) {e : Engine} (he : Scratch mem top e)
    (hax : e.ax = v) (hbx : e.bx = w) : e.verdict P = verdictOf P mem v w := by
  have hfloat := h.right.isFloat_eq he.below
  subst hax hbx
  have hright := h.right
  have hproper := h.proper
  unfold verdictOf verdict
  simp only [hfloat]
  cases hax : e.ax with
  | ref a => rfl
  | lis p => rfl
  | cst n => rfl
  | str p =>
    have hp := (hax ▸ h.left).str_le
    have hread : e.mem p = mem p := he.below p hp.1
    simp only [hread]
    by_cases hf : mem p = .fvlTag
    · simp only [if_pos hf]
      cases hbx : e.bx with
      | str q =>
        have hq := (hbx ▸ hright).str_le
        simp only [he.below q hq.1]
        by_cases hg : mem q = .fvlTag
        · have hp₂ := hp.2 hf
          have hq₂ := hq.2 hg
          simp only [if_pos hg]
          rw [he.below (p + 1) (by omega), he.below (p + 2) (by omega), he.below (q + 1) (by omega),
            he.below (q + 2) (by omega)]
        · simp only [if_neg hg]
      | _ => rfl
    · simp only [if_neg hf]
      split_ifs with hlow
      · rfl
      · cases hbx : e.bx with
        | str q =>
          have hq := (hbx ▸ hright).str_le
          simp only [Word.addr_str, he.below q hq.1]
        | cst n => exact (hproper p n hax hf hbx).elim
        | ref a => simp [hbx, Word.tag] at hlow
        | lis a => simp [hbx, Word.tag] at hlow

theorem Looks.not_usesConstant (h : Looks mem cells top v w) {e : Engine} (he : Scratch mem top e)
    (hax : e.ax = v) (hbx : e.bx = w) : ¬ e.UsesConstant := by
  rintro ⟨p, n, hp, hf, hn⟩
  have hv : v = .str p := hax.symm.trans hp
  have hplaced := h.left
  rw [hv] at hplaced
  rw [he.below p hplaced.str_le.1] at hf
  exact h.proper p n hv hf (hbx.symm.trans hn)

theorem Looks.compareStep_eq (h : Looks mem cells top v w) {e : Engine} (he : Scratch mem top e)
    (hax : e.ax = v) (hbx : e.bx = w) : e.compareStep P = e.compareAct (verdictOf P mem v w) := by
  have hleft : e.leadsOn e.ax = false := hax ▸ h.leftFinal.not_leadsOn he.below
  have hright : e.leadsOn e.bx = false := hbx ▸ h.rightFinal.not_leadsOn he.below
  rw [compareStep, hleft, hright, if_neg (by simp), if_neg (by simp), h.verdict_eq he hax hbx]

theorem compares_decided (h : Looks mem cells top v w) {o : Ordering} (hne : o ≠ .eq)
    (hverdict : verdictOf P mem v w = .decided (answer o)) : Compares P mem top v w o 0 := by
  intro e he hax hbx
  have hstep := h.compareStep_eq (P := P) he hax hbx
  rw [hverdict, compareAct] at hstep
  refine ⟨_, hstep ▸ Comparing.step .start he.lbl (h.not_usesConstant he hax hbx), ?_⟩
  exact .differ hne rfl rfl (by simp)

theorem compares_next (h : Looks mem cells top v w) (hverdict : verdictOf P mem v w = .next) :
    Compares P mem top v w .eq 0 := by
  intro e he hax hbx
  have hstep := h.compareStep_eq (P := P) he hax hbx
  rw [hverdict, compareAct] at hstep
  exact ⟨_, hstep ▸ Comparing.step .start he.lbl (h.not_usesConstant he hax hbx),
    .equal he.lbl rfl rfl fun _ _ => rfl⟩

/-! ## Compound terms -/

/-- The pairs `X j`, `Y j` from the `i`-th on are on the stack above `e`, the first on top; those
from the `m`-th on need not be known. -/
structure Pending (e : Engine) (X Y : Nat → Word) (k m i : Nat) (g : Engine) : Prop where
  lbl : g.lbl = .compare
  cx : g.cx = e.cx
  st : g.st = e.st + 2 * ((k - i : Nat) : Int)
  below : ∀ q ≤ e.st, g.mem q = e.mem q
  words : ∀ j, i ≤ j → j < m → j < k →
    g.mem (e.st + 2 * ((k - j : Nat) : Int)) = X j ∧
      g.mem (e.st + 2 * ((k - j : Nat) : Int) - 1) = Y j

variable {X Y : Nat → Word} {k m i : Nat} {e g : Engine}

/-- Popping the next pair. -/
theorem Pending.pop (h : Pending e X Y k m i g) (he : Scratch mem top e) (hik : i < k)
    (him : i < m) : Scratch mem top g.comparePop ∧ g.comparePop.ax = X i ∧ g.comparePop.bx = Y i ∧
      Pending e X Y k m (i + 1) { g.comparePop with lbl := .compare } := by
  have hst := h.st
  have hcx := he.cx
  have htop := he.st
  have hne : ¬ g.st = g.cx := by
    rw [h.cx]
    omega
  obtain ⟨hx, hy⟩ := h.words i (Nat.le_refl i) him hik
  rw [← hst] at hx hy
  have hpop : g.comparePop = { g with ax := X i, bx := Y i, st := g.st - 2 } := by
    rw [comparePop, if_neg hne, hx, hy]
  have hnext : g.st - 2 = e.st + 2 * ((k - (i + 1) : Nat) : Int) := by omega
  rw [hpop]
  refine ⟨⟨h.lbl, fun q hq => ?_, h.cx.trans hcx, ?_⟩, rfl, rfl, rfl, h.cx, hnext, h.below,
    fun j hij hjm hjk => h.words j (by omega) hjm hjk⟩
  · exact (h.below q (by omega)).trans (he.below q hq)
  · change top ≤ g.st - 2
    omega

/-- What comes after one of the pairs has turned out equal. -/
theorem Pending.next (h : Pending e X Y k m i g) (he : Scratch mem top e) (hik : i < k)
    (him : i < m) (heq : Compares P mem top (X i) (Y i) .eq 0) :
    ∃ g', g.comparePop.Comparing P g'.comparePop ∧ Pending e X Y k m (i + 1) g' := by
  obtain ⟨hscratch, hax, hbx, hst⟩ := h.pop he hik him
  obtain ⟨f, hf, hafter⟩ := heq g.comparePop hscratch hax hbx
  cases hafter with
  | @equal g' hlbl hcx hst' hmem =>
    refine ⟨g', hf, hlbl, hcx.trans hst.cx, hst'.trans hst.st, fun q hq => ?_,
      fun j hij hjm hjk => ?_⟩
    · have hle : q ≤ g.comparePop.st := by
        have := hst.st
        change g.comparePop.st = _ at this
        omega
      exact (hmem q hle).trans (hst.below q hq)
    · have hle : e.st + 2 * ((k - j : Nat) : Int) ≤ g.comparePop.st := by
        have := hst.st
        change g.comparePop.st = _ at this
        omega
      obtain ⟨hx, hy⟩ := hst.words j hij hjm hjk
      exact ⟨(hmem _ hle).trans hx, (hmem _ (by omega)).trans hy⟩
  | differ hne => exact (hne rfl).elim

/-- Equal pairs are popped one after the other. -/
theorem Pending.run (h : Pending e X Y k m 0 g) (he : Scratch mem top e)
    (heq : ∀ j < i, Compares P mem top (X j) (Y j) .eq 0) (hik : i ≤ k) (him : i ≤ m) :
    ∃ g', g.comparePop.Comparing P g'.comparePop ∧ Pending e X Y k m i g' := by
  induction i with
  | zero => exact ⟨g, .start, h⟩
  | succ i ih =>
    obtain ⟨g₁, hrun, h₁⟩ := ih (fun j hj => heq j (by omega)) (by omega) (by omega)
    obtain ⟨g₂, hnext, h₂⟩ := h₁.next he (by omega) (by omega) (heq i (by omega))
    exact ⟨g₂, hrun.trans hnext, h₂⟩

/-- **All pairs are equal.** -/
theorem Pending.equal (h : Pending e X Y k m 0 g) (he : Scratch mem top e)
    (heq : ∀ j < k, Compares P mem top (X j) (Y j) .eq 0) (hkm : k ≤ m) :
    ∃ f, g.comparePop.Comparing P f ∧ After e .eq 0 f := by
  obtain ⟨g', hrun, h'⟩ := h.run he heq (Nat.le_refl k) hkm
  refine ⟨_, hrun, .equal h'.lbl h'.cx ?_ h'.below⟩
  rw [h'.st, Nat.sub_self]
  simp

/-- **The first pair that differs decides, and the pairs behind it stay on the stack.** -/
theorem Pending.differ (h : Pending e X Y k m 0 g) (he : Scratch mem top e) {o : Ordering} {d : Nat}
    (heq : ∀ j < i, Compares P mem top (X j) (Y j) .eq 0) (hik : i < k) (him : i < m)
    (hne : o ≠ .eq) (hdiff : Compares P mem top (X i) (Y i) o d) :
    ∃ f, g.comparePop.Comparing P f ∧ After e o (d + (k - 1 - i)) f := by
  obtain ⟨g', hrun, h'⟩ := h.run he heq (by omega) (by omega)
  obtain ⟨hscratch, hax, hbx, hst⟩ := h'.pop he hik him
  obtain ⟨f, hf, hafter⟩ := hdiff g'.comparePop hscratch hax hbx
  refine ⟨f, hrun.trans hf, ?_⟩
  cases hafter with
  | equal => exact (hne rfl).elim
  | differ _ hlbl hdx hst' =>
    refine .differ hne hlbl hdx ?_
    have hlow : g'.comparePop.st = e.st + 2 * ((k - (i + 1) : Nat) : Int) := hst.st
    omega

/-- One look at `v` and `w` pushes `k` pairs, of which the first `m` are `X j`, `Y j`. -/
def Pushes (P : Program) (mem : Int → Word) (top : Int) (v w : Word) (X Y : Nat → Word)
    (k m : Nat) : Prop :=
  ∀ e : Engine, Scratch mem top e → e.ax = v → e.bx = w →
    ∃ g, e.Comparing P g.comparePop ∧ Pending e X Y k m 0 g

theorem Pushes.equal (h : Pushes P mem top v w X Y k m)
    (heq : ∀ j < k, Compares P mem top (X j) (Y j) .eq 0) (hkm : k ≤ m) :
    Compares P mem top v w .eq 0 := by
  intro e he hax hbx
  obtain ⟨g, hrun, hg⟩ := h e he hax hbx
  obtain ⟨f, hf, hafter⟩ := hg.equal he heq hkm
  exact ⟨f, hrun.trans hf, hafter⟩

theorem Pushes.differ (h : Pushes P mem top v w X Y k m) {o : Ordering} {d : Nat}
    (heq : ∀ j < i, Compares P mem top (X j) (Y j) .eq 0) (hik : i < k) (him : i < m)
    (hne : o ≠ .eq) (hdiff : Compares P mem top (X i) (Y i) o d) :
    Compares P mem top v w o (d + (k - 1 - i)) := by
  intro e he hax hbx
  obtain ⟨g, hrun, hg⟩ := h e he hax hbx
  obtain ⟨f, hf, hafter⟩ := hg.differ he heq hik him hne hdiff
  exact ⟨f, hrun.trans hf, hafter⟩

theorem pushes_lists {p q : Int} (h : Looks mem cells top (.lis p) (.lis q)) :
    Pushes P mem top (.lis p) (.lis q) (fun j => .ref (p + j)) (fun j => .ref (q + j)) 2 2 := by
  intro e he hax hbx
  have hstep := h.compareStep_eq (P := P) he hax hbx
  rw [show verdictOf P mem (.lis p) (.lis q) = .lists p q from rfl, compareAct] at hstep
  refine ⟨(((e.push (.ref (q + 1))).push (.ref (p + 1))).push (.ref q)).push (.ref p),
    hstep ▸ Comparing.step .start he.lbl (h.not_usesConstant he hax hbx), he.lbl, rfl, ?_,
    fun a ha => ?_, fun j _ hj _ => ?_⟩
  · simp only [push]
    omega
  · simp only [push]
    rw [Function.update_of_ne (by omega), Function.update_of_ne (by omega),
      Function.update_of_ne (by omega), Function.update_of_ne (by omega)]
  · rcases Nat.lt_or_ge j 1 with hj' | hj'
    · obtain rfl : j = 0 := by omega
      rw [show e.st + 2 * ((2 - 0 : Nat) : Int) = e.st + 1 + 1 + 1 + 1 by omega,
        show e.st + 1 + 1 + 1 + 1 - 1 = e.st + 1 + 1 + 1 by omega]
      simp only [push]
      rw [Function.update_self, Function.update_of_ne (by omega), Function.update_self]
      simp
    · obtain rfl : j = 1 := by omega
      rw [show e.st + 2 * ((2 - 1 : Nat) : Int) = e.st + 1 + 1 by omega,
        show e.st + 1 + 1 - 1 = e.st + 1 by omega]
      simp only [push]
      rw [Function.update_of_ne (by omega), Function.update_of_ne (by omega), Function.update_self,
        Function.update_of_ne (by omega), Function.update_of_ne (by omega),
        Function.update_of_ne (by omega), Function.update_self]
      simp

/-- The arguments are pushed from the last down to the first; those that lie above the terms are not
known. -/
theorem pending_compareArgs {p q : Int} (he : Scratch mem top e)
    (hknown : ∀ j < m, p + 1 + (j : Nat) ≤ top ∧ q + 1 + (j : Nat) ≤ top) (k : Nat) :
    Pending e (fun j => mem (p + 1 + (j : Nat))) (fun j => mem (q + 1 + (j : Nat))) k m 0
      (e.compareArgs p q k) := by
  have htop := he.st
  induction k generalizing e with
  | zero =>
    exact ⟨he.lbl, rfl, by simp [compareArgs], fun _ _ => rfl, fun j _ _ hj => absurd hj (by omega)⟩
  | succ k ih =>
    set e₂ := (e.push (e.mem (q + ↑(k + 1)))).push
      ((e.push (e.mem (q + ↑(k + 1)))).mem (p + ↑(k + 1))) with he₂
    have hst₂ : e₂.st = e.st + 1 + 1 := rfl
    have hkeep : ∀ a ≤ e.st, e₂.mem a = e.mem a := fun a ha => by
      rw [he₂]
      simp only [push]
      rw [Function.update_of_ne (by omega), Function.update_of_ne (by omega)]
    have hscratch : Scratch mem top e₂ :=
      ⟨he.lbl, fun a ha => (hkeep a (by omega)).trans (he.below a ha), he.cx, by omega⟩
    have h := ih hscratch hscratch.st
    refine ⟨h.lbl, h.cx, ?_, fun a ha => (h.below a (by omega)).trans (hkeep a ha),
      fun j hj hjm hjk => ?_⟩
    · rw [compareArgs]
      refine h.st.trans ?_
      omega
    · rcases Nat.lt_or_ge j k with hj' | hj'
      · obtain ⟨hx, hy⟩ := h.words j hj hjm hj'
        have hplace : e₂.st + 2 * ((k - j : Nat) : Int) = e.st + 2 * ((k + 1 - j : Nat) : Int) := by
          omega
        rw [hplace] at hx hy
        exact ⟨hx, hy⟩
      · obtain rfl : j = k := by omega
        obtain ⟨hp, hq⟩ := hknown j hjm
        have hx : e₂.mem (e.st + 1 + 1) = mem (p + 1 + (j : Nat)) := by
          rw [he₂]
          simp only [push, Function.update_self]
          rw [Function.update_of_ne (by omega), he.below _ (by omega)]
          exact congrArg mem (by omega)
        have hy : e₂.mem (e.st + 1) = mem (q + 1 + (j : Nat)) := by
          rw [he₂]
          simp only [push]
          rw [Function.update_of_ne (by omega), Function.update_self, he.below _ (by omega)]
          exact congrArg mem (by omega)
        have hone : e.st + 2 * ((j + 1 - j : Nat) : Int) = e.st + 1 + 1 := by omega
        rw [compareArgs, hone, show e.st + 1 + 1 - 1 = e.st + 1 by omega]
        exact ⟨(h.below _ (by omega)).trans hx, (h.below _ (by omega)).trans hy⟩

theorem pushes_args {p q : Int} (h : Looks mem cells top v w)
    (hverdict : verdictOf P mem v w = .args p q k)
    (hknown : ∀ j < m, p + 1 + (j : Nat) ≤ top ∧ q + 1 + (j : Nat) ≤ top) :
    Pushes P mem top v w (fun j => mem (p + 1 + (j : Nat))) (fun j => mem (q + 1 + (j : Nat)))
      k m := by
  intro e he hax hbx
  have hstep := h.compareStep_eq (P := P) he hax hbx
  rw [hverdict, compareAct] at hstep
  exact ⟨_, hstep ▸ Comparing.step .start he.lbl (h.not_usesConstant he hax hbx),
    pending_compareArgs he hknown k⟩

end Mlvm
