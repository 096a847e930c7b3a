import Mlvm.Creator.CopyInside
import Mlvm.Memory.Clone

/-!
# Loading a messenger

`load_system_file` copies a builtin messenger that is in memory, `load_user_file` reads a file. Both
lay out a new block at `base` with room for an argument of `ss` words.

**`Program.Formed.loads`.** The child has the names of the program and an empty stack, and nothing
outside the new block is written.
-/

namespace Mlvm.Creator

open StringTable

/-! ## Files -/

/-- `STATIONARY`. -/
def STATIONARY : ℕ := 0

/-- `WORKER`. -/
def WORKER : ℕ := 1

/-- `NAME_EXP_SIZE`. -/
def NAME_EXP_SIZE : Int := 256

/-- A file with a program: what stands in its head, its names, and the words of the procedure table
and the code as `load_code` leaves them. -/
structure UserFile where
  itype : ℕ
  psize : ℕ
  csize : ℕ
  names : List UInt8
  words : ℕ → Int

/-- The pointers and registers that `load_user_file` sets. -/
def UserFile.child (f : UserFile) (ss base : Int) : Icb :=
  let ssize : Int := f.names.length
  let snum := (ssize + NAME_EXP_SIZE) / 4
  let total := snum + f.psize * 2 + f.csize + ss +
    (if f.itype = WORKER then INIT_WORKER_STACK else INIT_MESSENGER_STACK) * STACK_UNIT
  let code_base := base + f.psize * 2
  let name_base := 4 * (base + f.psize * 2 + f.csize)
  let stack_base := base + snum + f.psize * 2 + f.csize
  { expansions := 0
    block_base := base
    block_ceiling := base + total
    proc_base := base
    code_base := code_base
    name_base := name_base
    name_top := name_base + ssize
    stack_base := stack_base
    pp := code_base
    cp := code_base
    bb := stack_base
    b0 := stack_base
    gl := stack_base
    cf := stack_base
    st := stack_base - 1
    af := base + total - 1
    tt := base + total - 2 }

/-- The words and bytes that `load_user_file` writes: the program, and a generation line on the
trail. -/
def UserFile.memory (f : UserFile) (ss base : Int) (m : Memory) : Memory :=
  let cip := f.child ss base
  let word a := if cip.proc_base ≤ a ∧ 4 * a < cip.name_base then f.words (a - base).toNat
    else m.word a
  { word := Function.update word (cip.tt + 1) (Word.str cip.gl).bits
    byte := place (f.names.map fun c => if c = 10 then 0 else c) cip.name_base m.byte }

/-- `load_user_file`, into a new block at `base`. -/
def loadUserFile (f : UserFile) (ss base : Int) (m : Memory) : Option (Icb × Memory) :=
  if f.itype = STATIONARY then none else some (f.child ss base, f.memory ss base m)

/-! ## Programs -/

/-- What a messenger is loaded from: a builtin messenger, or a file. -/
inductive Program where
  | system (bip : Icb)
  | user (f : UserFile)

/-- `load_system_file` or `load_user_file`. -/
def Program.load (ss base : Int) (m : Memory) : Program → Option (Icb × Memory)
  | system bip => some (loadSystemFile bip ss base m)
  | user f => loadUserFile f ss base m

/-- The control block that is set up. -/
def Program.child (ss base : Int) : Program → Icb
  | system bip => (loadSystemFile bip ss base ⟨fun _ => 0, fun _ => 0⟩).1
  | user f => f.child ss base

/-- A program with these names. A builtin messenger is apart from the new block. -/
inductive Program.Formed (m : Memory) (es : List CString) (ss base : Int) : Program → Prop
  | system {bip : Icb} {n : ℕ} {code : List Bool} : bip.CodeFormed m n code →
      At m.byte bip.name_base (pack es) → bip.name_top = bip.name_base + (pack es).length →
      bip.Apart base
        (INIT_MESSENGER_STACK * STACK_UNIT + (bip.block_ceiling - bip.block_base) + ss) →
      Formed m es ss base (system bip)
  | user {f : UserFile} : f.itype ≠ STATIONARY →
      (f.names.map fun c => if c = 10 then 0 else c) = pack es → Formed m es ss base (user f)

variable {m m' : Memory} {es : List CString} {ss base : Int} {p : Program}

/-- **What the loader leaves.** -/
structure Program.Loaded (p : Program) (m m' : Memory) (es : List CString) (ss base : Int) :
    Prop where
  load : p.load ss base m = some (p.child ss base, m')
  table : Table (p.child ss base) m' es
  allocated : Allocated ss (p.child ss base)
  block : 4 * base ≤ (p.child ss base).name_base
  stack : base ≤ (p.child ss base).stack_base
  word : ∀ a, a < base ∨ (p.child ss base).block_ceiling ≤ a → m'.word a = m.word a
  byte : ∀ b, b < 4 * base ∨ 4 * (p.child ss base).block_ceiling ≤ b → m'.byte b = m.byte b

theorem units_eq : INIT_MESSENGER_STACK * STACK_UNIT = 4096 ∧
    INIT_WORKER_STACK * STACK_UNIT = 131072 := by
  decide

/-- **A file** is loaded. -/
theorem UserFile.loaded (f : UserFile) (hss : 0 ≤ ss) (htype : f.itype ≠ STATIONARY)
    (hnames : (f.names.map fun c => if c = 10 then 0 else c) = pack es) :
    ∃ m', (Program.user f).Loaded m m' es ss base := by
  have hlen : f.names.length = (pack es).length := by rw [← hnames, List.length_map]
  obtain ⟨hmessenger, hworker⟩ := units_eq
  obtain ⟨hat, hframe⟩ := at_place (f.names.map fun c => if c = 10 then 0 else c)
    (f.child ss base).name_base m.byte
  rw [List.length_map] at hframe
  have hsize : NAME_EXP_SIZE = 256 := rfl
  have hstack : 0 ≤ (if f.itype = WORKER then INIT_WORKER_STACK else INIT_MESSENGER_STACK) *
      STACK_UNIT := by
    split_ifs <;> decide
  refine ⟨f.memory ss base m, if_neg htype, ?_, ?_, ?_, ?_, fun a ha => ?_, fun b hb => ?_⟩
  · refine ⟨by rw [← hnames]; exact hat, ?_, ?_⟩
    · rw [← hlen]
      rfl
    · simp only [Program.child, UserFile.child, hsize]
      omega
  · refine ⟨?_, rfl, .inl rfl⟩
    simp only [Program.child, UserFile.child]
    split_ifs
    · right
      omega
    · left
      omega
  · simp only [Program.child, UserFile.child]
    omega
  · simp only [Program.child, UserFile.child, hsize]
    omega
  · simp only [Program.child, UserFile.child, hsize] at ha
    simp only [UserFile.memory, UserFile.child, hsize]
    rw [Function.update_of_ne (by omega), if_neg (by omega)]
  · refine hframe b ?_
    simp only [Program.child, UserFile.child, hsize] at hb ⊢
    omega

/-- **A builtin messenger** is loaded. -/
theorem Program.loaded_system {bip : Icb} {n : ℕ} {code : List Bool} (hss : 0 ≤ ss)
    (h : bip.CodeFormed m n code) (hat : At m.byte bip.name_base (pack es))
    (htop : bip.name_top = bip.name_base + (pack es).length)
    (hapart : bip.Apart base
      (INIT_MESSENGER_STACK * STACK_UNIT + (bip.block_ceiling - bip.block_base) + ss)) :
    ∃ m', (Program.system bip).Loaded m m' es ss base := by
  have hprocs := h.procs
  have hbase := h.block
  have hend := h.name_base
  have hinside := h.inside
  obtain ⟨hmessenger, -⟩ := units_eq
  have hunits : Mlvm.INIT_MESSENGER_STACK * Mlvm.STACK_UNIT = 4096 := by decide
  rw [hmessenger, Icb.Apart] at hapart
  have hshift : bip.ProgramShift (loadSystemFile bip ss base m).1 (base - bip.block_base) := by
    refine ⟨?_, ?_, ?_, ?_, ?_⟩ <;> dsimp only [loadSystemFile] <;> omega
  have hapart' : bip.Apart (loadSystemFile bip ss base m).1.block_base
      (bip.block_ceiling - bip.block_base) := by
    show base + (bip.block_ceiling - bip.block_base) ≤ bip.block_base ∨ bip.block_ceiling ≤ base
    omega
  obtain ⟨-, -, hframe, hbytes, hbframe⟩ := copyProgram_copies h hshift hapart'
  have hchild : (Program.system bip).child ss base = (loadSystemFile bip ss base m).1 := rfl
  have hsn := hshift.name_base
  have hsnt := hshift.name_top
  have hsc := hshift.code
  refine ⟨(loadSystemFile bip ss base m).2, rfl, ?_, ?_, ?_, ?_, fun a ha => ?_, fun b hb => ?_⟩
  · rw [hchild]
    refine ⟨fun i b hb => ?_, by omega, ?_⟩
    · have hlt := (List.getElem?_eq_some_iff.1 hb).1
      exact (hbytes i (by omega)).trans (hat i b hb)
    · show (loadSystemFile bip ss base m).1.name_top ≤
        4 * (base + (bip.block_ceiling - bip.block_base))
      omega
  · rw [hchild]
    refine ⟨.inl ?_, rfl, .inr rfl⟩
    simp only [loadSystemFile, hunits, hmessenger]
    omega
  · rw [hchild]
    omega
  · show base ≤ base + (bip.block_ceiling - bip.block_base)
    have hnames := h.names
    omega
  · have hceiling : (loadSystemFile bip ss base m).1.block_ceiling =
        base + (4096 + (bip.block_ceiling - bip.block_base) + ss) := by
      rw [← hunits]
      rfl
    have hproc := hshift.proc
    have hnames := h.names
    rw [hchild, hceiling] at ha
    exact hframe a (by omega)
  · have hceiling : (loadSystemFile bip ss base m).1.block_ceiling =
        base + (4096 + (bip.block_ceiling - bip.block_base) + ss) := by
      rw [← hunits]
      rfl
    rw [hchild, hceiling] at hb
    exact hbframe b (by omega)

/-- **The loaders** set up the child. -/
theorem Program.Formed.loads (h : p.Formed m es ss base) (hss : 0 ≤ ss) :
    ∃ m', p.Loaded m m' es ss base := by
  cases h with
  | system hcode hat htop hapart => exact Program.loaded_system hss hcode hat htop hapart
  | user htype hnames => exact UserFile.loaded _ hss htype hnames

end Mlvm.Creator
