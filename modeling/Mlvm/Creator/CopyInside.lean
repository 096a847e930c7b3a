import Mlvm.Creator.CopySpace
import Mlvm.Creator.ArgSize
import Mathlib.Tactic.IntervalCases

/-!
# Staying inside the free words of the child

**`copyArg_space_iff`.** `copy_arg` ends and writes no word of the trail, or above, exactly when the
level walk of the term finds room for what comes up; and for a child that has been allocated with
the size of the term it does not return `NULL` exactly when the walk comes to its end.

The test for space allows for six words, and a round on a structure writes one word more than it has
arguments: `not_staysInside_wide`.
-/

namespace Mlvm.Creator

open FirstOrder StringTable

/-! ## The block of the child -/

/-- `STACK_UNIT`. -/
def STACK_UNIT : Int := 1024

/-- `INIT_MESSENGER_STACK`. -/
def INIT_MESSENGER_STACK : Int := 4

/-- `INIT_WORKER_STACK`. -/
def INIT_WORKER_STACK : Int := 128

/-- A child as the loaders leave it, with `ss` words for the argument: `load_user_file` pushes a
generation line on the trail, `load_system_file` does not. -/
structure Allocated (ss : Int) (child : Icb) : Prop where
  block_ceiling : child.block_ceiling = child.stack_base + INIT_MESSENGER_STACK * STACK_UNIT + ss ∨
    child.block_ceiling = child.stack_base + INIT_WORKER_STACK * STACK_UNIT + ss
  st : child.st = child.stack_base - 1
  tt : child.tt = child.block_ceiling - 2 ∨ child.tt = child.block_ceiling - 1

/-! ## What is claimed -/

/-- The copy ends; no word at or above `tt` is written, and without a result more memory is asked
for. -/
def StaysInside (name_base : Int) (proot : Word) (child : Icb) (m : Memory) : Prop :=
  ∃ fuel r s, copyArg fuel proot name_base child m = some (r, s) ∧ s.high < child.tt ∧
    (r = none → s.nl = IMAGO_EXPANSION)

/-- The copy does not return `NULL`. -/
def NeverNull (name_base : Int) (proot : Word) (child : Icb) (m : Memory) : Prop :=
  ∀ fuel s, copyArg fuel proot name_base child m ≠ some (none, s)

/-- `NULL` comes with a request for memory. -/
theorem nl_of_null {name_base ftt : Int} {fuel : ℕ} {s s' : Copy}
    (h : Copy.loop name_base ftt fuel s = some (none, s')) : s'.nl = IMAGO_EXPANSION := by
  induction fuel generalizing s with
  | zero => cases h
  | succ fuel ih =>
    rw [Copy.loop] at h
    split_ifs at h
    · obtain ⟨-, rfl⟩ := Prod.mk.inj (Option.some.inj h)
      rfl
    · obtain ⟨s₁, -, hrest⟩ := Option.bind_eq_some_iff.1 h
      exact ih hrest
    · cases (Prod.mk.inj (Option.some.inj h)).1

variable {A : Area} {m : Memory} {proot : Word} {t : Term Sym Int} {child : Icb} {es : List CString}

theorem staysInside_iff {o : Option (Option Int × Copy)}
    (ho : Fuel.Comes (fun n => copyArg n proot A.name_base child m) o) :
    StaysInside A.name_base proot child m ↔ ∃ b, Ends child.tt o b := by
  constructor
  · rintro ⟨fuel, r, s, hrun, hhigh, -⟩
    exact ⟨r.isSome, r, s, ho.only fuel _ hrun, hhigh, rfl⟩
  · rintro ⟨b, r, s, hs, hhigh, -⟩
    obtain ⟨fuel, hrun⟩ := (ho.exists_iff _).2 hs
    refine ⟨fuel, r, s, hrun, hhigh, fun hnull => ?_⟩
    rw [hnull] at hrun
    exact nl_of_null hrun

theorem neverNull_iff {o : Option (Option Int × Copy)}
    (ho : Fuel.Comes (fun n => copyArg n proot A.name_base child m) o) {b : Bool}
    (hends : Ends child.tt o b) : NeverNull A.name_base proot child m ↔ b = true := by
  obtain ⟨r, s, rfl, -, rfl⟩ := hends
  cases r with
  | none =>
    refine iff_of_false (fun h => ?_) (by simp)
    obtain ⟨fuel, hrun⟩ := (ho.exists_iff _).2 rfl
    exact h fuel s hrun
  | some top =>
    refine iff_of_true (fun fuel s' hrun => ?_) rfl
    cases ho.only fuel _ hrun

/-- **The copy stays inside**, and with the size of the term it is whole, exactly when the walk says
so. -/
theorem copyArg_space_iff (h : Source A m proot t child es) {st : Int}
    (hst : ∀ a, A.word a → a ≤ st) :
    (StaysInside A.name_base proot child m ∧
      ∀ fuel ss m', argSize fuel proot st m = some (ss, m') → Allocated ss child →
        NeverNull A.name_base proot child m) ↔
    1 ≤ free child ∧ ∃ b,
      Walk (Movable child) (fun _ _ => True) (free child) 1 es (room child) [.term t] b ∧
      (Allocated (argWords t : ℕ) child → b = true) := by
  obtain ⟨o, ho, hends⟩ := h.comes
  obtain ⟨m', hsize, -, -⟩ := comes_argSize h.reads hst
  rw [staysInside_iff ho]
  constructor
  · rintro ⟨⟨b, hb⟩, hnull⟩
    obtain ⟨hfree, hwalk⟩ := (hends b).1 hb
    refine ⟨hfree, b, hwalk, fun halloc => ?_⟩
    obtain ⟨fuel, hrun⟩ := (hsize.exists_iff _).2 rfl
    exact (neverNull_iff ho hb).1 (hnull fuel _ m' hrun halloc)
  · rintro ⟨hfree, b, hwalk, hwhole⟩
    have hb := (hends b).2 ⟨hfree, hwalk⟩
    refine ⟨⟨b, hb⟩, fun fuel ss m₁ hrun halloc => ?_⟩
    obtain ⟨rfl, -⟩ := Prod.mk.inj (Option.some.inj (hsize.only fuel _ hrun))
    exact (neverNull_iff ho hb).2 (hwhole halloc)

/-! ## A structure that is too wide -/

/-- A structure with eight arguments. -/
def wideMemory : Memory where
  word a := [(Word.makeFun 102 8).bits, 3, 3, 3, 3, 3, 3, 3, 3].getD a.toNat 0
  byte _ := 0

def wideArea : Area where
  word a := 0 ≤ a ∧ a ≤ 8
  byte _ := False
  name_base := 0

/-- A child with eight free words. -/
def narrowChild : Icb :=
  { worker with name_base := 400, name_top := 400, stack_base := 100, st := 99, tt := 108,
                block_ceiling := 110 }

def wideTerm : Term Sym Int :=
  .app (.str (.same (8 * 2 ^ 21 + 102 * 2 + 1)))
    (List.replicate 8 (.app (.con (.same 0)) []))

theorem wide_table : Table narrowChild wideMemory [] := ⟨at_nil _ _, rfl, by decide⟩

/-- The words of the source are apart from the child. -/
theorem wide_source {w : Word} {t : Term Sym Int} (h : Reads wideArea wideMemory w t) :
    Source wideArea wideMemory w t narrowChild [] where
  reads := h
  table := wide_table
  words a ha := .inl (Int.lt_of_le_of_lt ha.2 (by decide))
  bytes b hb := hb.elim
  base := by decide

theorem wide_reads : Reads wideArea wideMemory (.str 0) wideTerm := by
  refine .str (c := 8 * 2 ^ 21 + 102 * 2 + 1) ⟨by decide, by decide⟩ (by decide)
    (.same (by decide)) (by decide) (fun i hi => ?_) fun i t ht => ?_
  · have hi' : i < 8 := hi
    constructor <;> omega
  · obtain ⟨hi, rfl⟩ := List.getElem?_eq_some_iff.1 ht
    have hi' : i < 8 := hi
    have hread : wideMemory.read (0 + 1 + (i : ℕ)) = .cst 0 := by
      interval_cases i <;> decide
    rw [hread, List.getElem_replicate]
    exact .con (.same (by decide))

/-- The eight free words are not enough for it, and the copy does not stop in time. -/
theorem not_staysInside_wide :
    Source wideArea wideMemory (.str 0) wideTerm narrowChild [] ∧
      (∀ a, wideArea.word a → a ≤ 8) ∧
      ¬ StaysInside wideArea.name_base (.str 0) narrowChild wideMemory := by
  refine ⟨wide_source wide_reads, fun a ha => ha.2, fun hinside => ?_⟩
  obtain ⟨o, ho, hends⟩ := (wide_source wide_reads).comes
  obtain ⟨b, hb⟩ := (staysInside_iff ho).1 hinside
  obtain ⟨-, hwalk⟩ := (hends b).1 hb
  rw [walk_parts_iff (by decide) rfl] at hwalk
  exact absurd hwalk.1 (by decide)

/-- An integer fits. -/
theorem staysInside_narrow : StaysInside wideArea.name_base (.cst 0) narrowChild wideMemory := by
  have hreads : Reads wideArea wideMemory (.cst 0) (.app (.con (.same 0)) []) :=
    .con (.same (by decide))
  have hst : ∀ a, wideArea.word a → a ≤ 8 := fun a ha => ha.2
  refine ((copyArg_space_iff (wide_source hreads) hst).2 ⟨by decide, true, ?_, fun _ => rfl⟩).1
  exact .parts (by decide) rfl (by decide) (.done (by decide))

end Mlvm.Creator
