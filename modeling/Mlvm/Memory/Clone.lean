import Mlvm.Memory.Block

/-!
# Cloning

`clone_block` copies the block of an imago for its clone, `load_system_file` the program of a
builtin messenger. A clone should be the **same block at another address**.

Code, names, stack and trail are copied that way. The loop over the procedure table reads one word
for every two it writes, so the table is right only when it is empty.
-/

namespace Mlvm

open Relocation

def STACK_UNIT : Int := 1024

def INIT_MESSENGER_STACK : Int := 4

/-! ## The two copies -/

/-- `cdirect` and `cadjust`: a label is a pointer that moves by `distance` words. -/
def copyWord (distance : Int) (label : Bool) (v : Int) : Int :=
  if label then v + 4 * distance else v

/-- The word of the stack scan: the address moves by `distance` words, the tag stays. -/
def copyTagged (distance : Int) (pointer : Bool) (v : Int) : Int :=
  if pointer then v - v % 4 + 4 * distance + v % 4 else v

/-- The word of the trail scan: what is not a reference becomes a generation line. -/
def copyTrail (distance : Int) (_ : Unit) (v : Int) : Int :=
  if isVarWord v then v + 4 * distance else v - v % 4 + 4 * distance + 2

/-- The loop over the procedure table, where `tp2` advances once for every two words. -/
def copyProcs (distance : Int) : Nat → Int → Int → Int → (Int → Int) → Int → Int
  | 0, _, _, _, m => m
  | n + 1, tp1, tp2, stop, m =>
      if tp1 < stop then
        let m₁ := Function.update m tp1 (m tp2)
        let m₂ := Function.update m₁ (tp1 + 1) (m₁ tp2 + 4 * distance)
        copyProcs distance n (tp1 + 2) (tp2 + 1) stop m₂
      else m

/-- Parts 1 to 3 of `clone_block` and of `load_system_file`: procedure table, code and names. -/
def copyProgram (distance : Int) (ip cip : Icb) (m : Memory) : Memory :=
  let w₁ := copyProcs distance (cip.code_base - cip.proc_base).toNat cip.proc_base ip.proc_base
    cip.code_base m.word
  { word := scan codeItem (copyWord distance) (cip.name_base / 4 - cip.code_base).toNat ip.code_base
      cip.code_base (cip.name_base / 4) w₁
    byte := scan single (fun _ => id) (cip.name_top - cip.name_base).toNat ip.name_base
      cip.name_base cip.name_top m.byte }

/-- Part 4 of `clone_block`: the active stack and the trail. -/
def copyStack (distance : Int) (ip cip : Icb) (w : Int → Int) : Int → Int :=
  let w₁ := scan stackItem (copyTagged distance) (cip.st + 1 - cip.stack_base).toNat ip.stack_base
    cip.stack_base (cip.st + 1) w
  scan single (copyTrail distance) (cip.block_ceiling - (cip.tt + 1)).toNat (ip.tt + 1)
    (cip.tt + 1) cip.block_ceiling w₁

/-- The base pointers and registers of a clone whose block is at `base`. -/
def Icb.cloned (ip : Icb) (base : Int) : Icb :=
  let distance := base - ip.block_base
  { ip with
    block_base := base
    block_ceiling := ip.block_ceiling + distance
    stack_base := ip.stack_base + distance
    code_base := ip.code_base + distance
    proc_base := ip.proc_base + distance
    name_base := ip.name_base + distance * 4
    name_top := ip.name_top + distance * 4
    pp := ip.pp + distance
    af := ip.af + distance
    cp := ip.cp + distance
    cf := ip.cf + distance
    st := ip.st + distance
    bb := ip.bb + distance
    b0 := ip.b0 + distance
    gl := ip.gl + distance
    tt := ip.tt + distance }

/-- `clone_block`, for a new block at `base`. -/
def cloneBlock (ip : Icb) (base : Int) (m : Memory) : Icb × Memory :=
  let distance := base - ip.block_base
  let cip := ip.cloned base
  let m₁ := copyProgram distance ip cip m
  (cip, { m₁ with word := copyStack distance ip cip m₁.word })

/-- `load_system_file`, from the builtin messenger at `bip` with `ss` more words, into a new block
at `base`. -/
def loadSystemFile (bip : Icb) (ss base : Int) (m : Memory) : Icb × Memory :=
  let v := INIT_MESSENGER_STACK * STACK_UNIT + (bip.block_ceiling - bip.block_base) + ss
  let stack_base := base + (bip.block_ceiling - bip.block_base)
  let code_base := base + (bip.code_base - bip.block_base)
  let cip : Icb := {
    expansions := 0
    block_base := base
    block_ceiling := base + v
    proc_base := base
    code_base := code_base
    name_base := 4 * base + (bip.name_base - 4 * bip.block_base)
    name_top := 4 * base + (bip.name_top - 4 * bip.block_base)
    stack_base := stack_base
    pp := code_base
    cp := code_base
    bb := stack_base
    b0 := stack_base
    gl := stack_base
    cf := stack_base
    af := stack_base
    st := stack_base - 1
    tt := base + v - 1 }
  (cip, copyProgram (base - bip.block_base) bip cip m)

/-! ## What a copy is to be -/

/-- The word of the block of `ip` at another address: a pointer keeps its offset and its tag. -/
def Icb.relocated (ip cip : Icb) (pointer : Bool) (v : Int) : Int :=
  if pointer then v + 4 * (cip.block_base - ip.block_base) else v

/-- The program of `ip` is in the block of `cip`. -/
structure Icb.ProgramCopied (ip cip : Icb) (m m' : Memory) (code : List Bool) : Prop where
  procs : ∀ k : Nat, ip.proc_base + 2 * k < ip.code_base →
    m'.word (cip.proc_base + 2 * k) = m.word (ip.proc_base + 2 * k) ∧
    m'.word (cip.proc_base + 2 * k + 1) =
      ip.relocated cip true (m.word (ip.proc_base + 2 * k + 1))
  code : ∀ (i : Nat) (label : Bool), code[i]? = some label →
    m'.word (cip.code_base + i) = ip.relocated cip label (m.word (ip.code_base + i))
  names : ∀ j : Nat, ip.name_base + j < ip.name_top →
    m'.byte (cip.name_base + j) = m.byte (ip.name_base + j)

/-- All words and bytes of the block are as before. -/
def Icb.Unchanged (ip : Icb) (m m' : Memory) : Prop :=
  (∀ x, ip.block_base ≤ x → x < ip.block_ceiling → m'.word x = m.word x) ∧
  ∀ x, 4 * ip.block_base ≤ x → x < 4 * ip.block_ceiling → m'.byte x = m.byte x

/-- The segments have the same offsets. -/
def Icb.SameBases (ip cip : Icb) : Prop :=
  cip.block_ceiling - cip.block_base = ip.block_ceiling - ip.block_base ∧
  cip.proc_base - cip.block_base = ip.proc_base - ip.block_base ∧
  cip.code_base - cip.block_base = ip.code_base - ip.block_base ∧
  cip.name_base - 4 * cip.block_base = ip.name_base - 4 * ip.block_base ∧
  cip.name_top - 4 * cip.block_base = ip.name_top - 4 * ip.block_base ∧
  cip.stack_base - cip.block_base = ip.stack_base - ip.block_base

/-- The registers have the same offsets. -/
def Icb.SameRegisters (ip cip : Icb) : Prop :=
  cip.pp - cip.block_base = ip.pp - ip.block_base ∧
  cip.af - cip.block_base = ip.af - ip.block_base ∧
  cip.cp - cip.block_base = ip.cp - ip.block_base ∧
  cip.cf - cip.block_base = ip.cf - ip.block_base ∧
  cip.st - cip.block_base = ip.st - ip.block_base ∧
  cip.bb - cip.block_base = ip.bb - ip.block_base ∧
  cip.b0 - cip.block_base = ip.b0 - ip.block_base ∧
  cip.gl - cip.block_base = ip.gl - ip.block_base ∧
  cip.tt - cip.block_base = ip.tt - ip.block_base

/-- **The block of `cip` is that of `ip` at another address.** A saved trail top of a frame is a
pointer of the stack; it has the same distance to the trail top. -/
structure Icb.IsClone (ip cip : Icb) (m m' : Memory) (code stack : List Bool) : Prop
    extends ip.ProgramCopied cip m m' code where
  bases : ip.SameBases cip
  registers : ip.SameRegisters cip
  cells : ∀ (i : Nat) (pointer : Bool), stack[i]? = some pointer →
    m'.word (cip.stack_base + i) = ip.relocated cip pointer (m.word (ip.stack_base + i))
  saved : ∀ (i : Nat) (slot : Int), stack[i]? = some true →
    m.word (ip.stack_base + i) = 4 * (ip.tt + slot) →
    m'.word (cip.stack_base + i) = 4 * (cip.tt + slot)
  trail : ∀ i : Nat, ip.tt + 1 + i < ip.block_ceiling →
    m'.word (cip.tt + 1 + i) = ip.relocated cip true (m.word (ip.tt + 1 + i))
  parent : ip.Unchanged m m'

/-- The block of `size` words at `base` and that of `ip` do not overlap. -/
def Icb.Apart (ip : Icb) (base size : Int) : Prop :=
  base + size ≤ ip.block_base ∨ ip.block_ceiling ≤ base

/-! ## The loops -/

variable {ip cip : Icb} {m : Memory} {n : Nat} {code stack : List Bool} {d : Int}

/-- What the loop over the procedure table makes of `n` entries: both words of entry `k` come from
word `k`. -/
theorem copyProcs_copies (w : Int → Int) (tp1 tp2 : Int) (fuel : Nat) (hfuel : n ≤ fuel)
    (hapart : tp2 + n ≤ tp1 ∨ tp1 + 2 * n ≤ tp2) :
    (∀ k < n, copyProcs d fuel tp1 tp2 (tp1 + 2 * n) w (tp1 + 2 * (k : Nat)) = w (tp2 + (k : Nat)) ∧
      copyProcs d fuel tp1 tp2 (tp1 + 2 * n) w (tp1 + 2 * (k : Nat) + 1) =
        w (tp2 + (k : Nat)) + 4 * d) ∧
    ∀ x, x < tp1 ∨ tp1 + 2 * n ≤ x → copyProcs d fuel tp1 tp2 (tp1 + 2 * n) w x = w x := by
  induction n generalizing w tp1 tp2 fuel with
  | zero =>
      have hstop : copyProcs d fuel tp1 tp2 (tp1 + 2 * (0 : Nat)) w = w := by
        cases fuel with
        | zero => rfl
        | succ fuel => rw [copyProcs, if_neg (by omega)]
      rw [hstop]
      exact ⟨fun k hk => absurd hk (Nat.not_lt_zero k), fun _ _ => rfl⟩
  | succ n ih =>
      obtain ⟨fuel, rfl⟩ := Nat.exists_eq_succ_of_ne_zero (Nat.ne_of_gt (Nat.lt_of_lt_of_le
        (Nat.succ_pos n) hfuel))
      rw [copyProcs, if_pos (by omega)]
      set w₁ := Function.update w tp1 (w tp2) with hw₁
      set w₂ := Function.update w₁ (tp1 + 1) (w₁ tp2 + 4 * d) with hw₂
      have hsource : w₁ tp2 = w tp2 := Function.update_of_ne (by omega) ..
      have hstop : tp1 + 2 * ((n + 1 : Nat) : Int) = tp1 + 2 + 2 * n := by omega
      obtain ⟨hentries, hframe⟩ := ih w₂ (tp1 + 2) (tp2 + 1) fuel (by omega) (by omega)
      rw [hstop]
      refine ⟨fun k hk => ?_, fun x hx => ?_⟩
      · cases k with
        | zero =>
            rw [Int.natCast_zero, Int.mul_zero, Int.add_zero, Int.add_zero, hframe tp1 (by omega),
              hframe (tp1 + 1) (by omega), hw₂, Function.update_self,
              Function.update_of_ne (by omega), hw₁, Function.update_self]
            exact ⟨rfl, by rw [← hw₁, hsource]⟩
        | succ k =>
            have hplace : tp1 + 2 * ((k + 1 : Nat) : Int) = tp1 + 2 + 2 * k := by omega
            have hread : tp2 + ((k + 1 : Nat) : Int) = tp2 + 1 + k := by omega
            have hsame : w₂ (tp2 + 1 + k) = w (tp2 + 1 + k) := by
              rw [hw₂, Function.update_of_ne (by omega), hw₁, Function.update_of_ne (by omega)]
            rw [hplace, hread, ← hsame]
            exact hentries k (by omega)
      · rw [hframe x (by omega), hw₂, Function.update_of_ne (by omega), hw₁,
          Function.update_of_ne (by omega)]

/-- The segments of the program are at the same offsets. -/
structure Icb.ProgramShift (ip cip : Icb) (d : Int) : Prop where
  block : cip.block_base = ip.block_base + d
  proc : cip.proc_base = ip.proc_base + d
  code : cip.code_base = ip.code_base + d
  name_base : cip.name_base = ip.name_base + 4 * d
  name_top : cip.name_top = ip.name_top + 4 * d

/-- What `copyProgram` does to the words and bytes. -/
theorem copyProgram_copies (h : ip.CodeFormed m n code) (hshift : ip.ProgramShift cip d)
    (hapart : ip.Apart cip.block_base (ip.block_ceiling - ip.block_base)) :
    (∀ k < n, (copyProgram d ip cip m).word (cip.proc_base + 2 * (k : Nat)) =
        m.word (ip.proc_base + (k : Nat)) ∧
      (copyProgram d ip cip m).word (cip.proc_base + 2 * (k : Nat) + 1) =
        m.word (ip.proc_base + (k : Nat)) + 4 * d) ∧
    (∀ (i : Nat) label, code[i]? = some label →
      (copyProgram d ip cip m).word (cip.code_base + i) =
        copyWord d label (m.word (ip.code_base + i))) ∧
    (∀ x, x < cip.proc_base ∨ cip.code_base + code.length ≤ x →
      (copyProgram d ip cip m).word x = m.word x) ∧
    (∀ j : Nat, ip.name_base + j < ip.name_top →
      (copyProgram d ip cip m).byte (cip.name_base + j) = m.byte (ip.name_base + j)) ∧
    ∀ x, x < cip.name_base ∨ cip.name_top ≤ x → (copyProgram d ip cip m).byte x = m.byte x := by
  obtain ⟨hblock, hproc, hcode, hname, htop⟩ := hshift
  have hprocs := h.procs
  have hbase := h.block
  have hend := h.name_base
  have hnames := h.names
  have hinside := h.inside
  rw [Icb.Apart] at hapart
  have hstop : cip.code_base = cip.proc_base + 2 * n := by omega
  obtain ⟨hentries, hframe⟩ := copyProcs_copies (d := d) (n := n) m.word cip.proc_base ip.proc_base
    (cip.code_base - cip.proc_base).toNat (by omega) (by omega)
  rw [← hstop] at hentries hframe
  set w₁ := copyProcs d (cip.code_base - cip.proc_base).toNat cip.proc_base ip.proc_base
    cip.code_base m.word with hw₁
  have hsame : ∀ i < code.length, w₁ (ip.code_base + (i : Nat)) =
      m.word (ip.code_base + (i : Nat)) :=
    fun i hi => hframe _ (by omega)
  have hscan : Copied (copyWord d) w₁ (copyProgram d ip cip m).word ip.code_base cip.code_base
      code :=
    scan_copied local_codeItem (h.instrs.move local_codeItem hsame) (by omega) (by omega) (by omega)
  have hbytes : Copied (fun _ => id) m.byte (copyProgram d ip cip m).byte ip.name_base cip.name_base
      (List.replicate (ip.name_top - ip.name_base).toNat ()) := by
    refine scan_copied local_single (tiled_single _ _ _) ?_ ?_ ?_
    · rw [List.length_replicate]
      omega
    · rw [List.length_replicate]
      omega
    · rw [List.length_replicate]
      omega
  refine ⟨fun k hk => ?_, fun i label hi => ?_, fun x hx => ?_, fun j hj => ?_, fun x hx => ?_⟩
  · rw [hscan.frame _ (by omega), hscan.frame _ (by omega)]
    exact hentries k hk
  · have hlt := (List.getElem?_eq_some_iff.mp hi).1
    rw [hscan.word i label hi, hsame i hlt]
  · rw [hscan.frame x (by omega), hframe x (by omega)]
  · have hj' : j < (ip.name_top - ip.name_base).toNat := by omega
    exact hbytes.word j () (by rw [List.getElem?_replicate, if_pos hj'])
  · refine hbytes.frame x ?_
    rw [List.length_replicate]
    omega

/-- **The procedure table is copied** only when it is empty: its first two words become the same
functor, and an address is no functor. -/
theorem procs_empty (h : ip.CodeFormed m n code) {m' : Memory}
    (hfirst : ∀ k < n, m'.word (cip.proc_base + 2 * (k : Nat) + 1) =
      m.word (ip.proc_base + (k : Nat)) + 4 * (cip.block_base - ip.block_base))
    (hcopied : ip.ProgramCopied cip m m' code) : ip.code_base = ip.proc_base := by
  have hprocs := h.procs
  cases n with
  | zero =>
      rw [Int.natCast_zero] at hprocs
      omega
  | succ n =>
      exfalso
      have hentry := (hcopied.procs 0 (by omega)).2
      have hword := hfirst 0 (Nat.succ_pos n)
      have hfunctor : m.word (ip.proc_base + 2 * (0 : Nat)) % 4 = 3 := h.functor 0 (Nat.succ_pos n)
      have haddress : m.word (ip.proc_base + 2 * (0 : Nat) + 1) % 4 = 0 :=
        h.entry 0 (Nat.succ_pos n)
      rw [hword, Icb.relocated, if_pos rfl] at hentry
      simp only [Int.natCast_zero, Int.mul_zero, Int.add_zero] at hfunctor haddress hentry
      omega

/-- Everything but the procedure table is copied. -/
theorem program_copied (h : ip.CodeFormed m n code) (hshift : ip.ProgramShift cip d)
    (hapart : ip.Apart cip.block_base (ip.block_ceiling - ip.block_base))
    (hempty : ip.code_base = ip.proc_base) :
    ip.ProgramCopied cip m (copyProgram d ip cip m) code := by
  obtain ⟨-, hcode, -, hnames, -⟩ := copyProgram_copies h hshift hapart
  refine ⟨fun k hk => absurd hk (by omega), fun i label hi => ?_, hnames⟩
  have hd : ip.block_base + d - ip.block_base = d := by omega
  rw [hcode i label hi, copyWord, Icb.relocated, hshift.block, hd]

theorem copyTagged_eq (d : Int) (pointer : Bool) (v : Int) :
    copyTagged d pointer v = if pointer then v + 4 * d else v := by
  rw [copyTagged]
  split_ifs
  · omega
  · rfl

theorem copyTrail_eq {v : Int} (h : v % 4 = 0 ∨ v % 4 = 2) (d : Int) :
    copyTrail d () v = v + 4 * d := by
  by_cases hvar : isVarWord v
  · rw [copyTrail, if_pos hvar]
  · have htag : v % 4 ≠ 0 := hvar
    rw [copyTrail, if_neg hvar]
    omega

/-- What `copyStack` does, in a memory `w` that has the old block. -/
theorem copyStack_copies (h : ip.Formed m n code stack) (hshift : ip.ProgramShift cip d)
    (hceiling : cip.block_ceiling = ip.block_ceiling + d)
    (hstack : cip.stack_base = ip.stack_base + d) (hst : cip.st = ip.st + d)
    (htt : cip.tt = ip.tt + d) (hapart : ip.Apart cip.block_base (ip.block_ceiling - ip.block_base))
    {w : Int → Int} (hold : ∀ x, ip.block_base ≤ x → x < ip.block_ceiling → w x = m.word x) :
    (∀ (i : Nat) pointer, stack[i]? = some pointer →
      copyStack d ip cip w (cip.stack_base + i) =
        copyTagged d pointer (m.word (ip.stack_base + i))) ∧
    (∀ i : Nat, ip.tt + 1 + i < ip.block_ceiling →
      copyStack d ip cip w (cip.tt + 1 + i) = copyTrail d () (m.word (ip.tt + 1 + i))) ∧
    ∀ x, x < cip.stack_base ∨ cip.block_ceiling ≤ x → copyStack d ip cip w x = w x := by
  have hprocs := h.procs
  have hbase := h.block
  have hend := h.name_base
  have hnames := h.names
  have htop := h.name_top
  have hst' := h.st
  have hfree := h.free
  have httlt := h.tt
  have hblock := hshift.block
  rw [Icb.Apart] at hapart
  have hcells : Tiled stackItem w ip.stack_base stack :=
    h.cells.move local_stackItem fun i hi => hold _ (by omega) (by omega)
  set w₁ := scan stackItem (copyTagged d) (cip.st + 1 - cip.stack_base).toNat ip.stack_base
    cip.stack_base (cip.st + 1) w with hw₁
  have hfirst : Copied (copyTagged d) w w₁ ip.stack_base cip.stack_base stack :=
    scan_copied local_stackItem hcells (by omega) (by omega) (by omega)
  have hsecond : Copied (copyTrail d) w₁ (copyStack d ip cip w) (ip.tt + 1) (cip.tt + 1)
      (List.replicate (ip.block_ceiling - (ip.tt + 1)).toNat ()) := by
    refine scan_copied local_single (tiled_single _ _ _) ?_ ?_ ?_
    · rw [List.length_replicate]
      omega
    · rw [List.length_replicate]
      omega
    · rw [List.length_replicate]
      omega
  have hlast : ∀ x, x ≤ cip.tt ∨ cip.block_ceiling ≤ x → copyStack d ip cip w x = w₁ x :=
    fun x hx =>
    hsecond.frame x (by rw [List.length_replicate]; omega)
  refine ⟨fun i pointer hi => ?_, fun i hi => ?_, fun x hx => ?_⟩
  · have hlt := (List.getElem?_eq_some_iff.mp hi).1
    rw [hlast _ (by omega), hfirst.word i pointer hi, hold _ (by omega) (by omega)]
  · have hi' : i < (ip.block_ceiling - (ip.tt + 1)).toNat := by omega
    rw [hsecond.word i () (by rw [List.getElem?_replicate, if_pos hi']), hfirst.frame _ (by omega),
      hold _ (by omega) (by omega)]
  · rw [hlast x (by omega), hfirst.frame x (by omega)]

theorem programShift_cloned (ip : Icb) (base : Int) :
    ip.ProgramShift (ip.cloned base) (base - ip.block_base) where
  block := by
    show base = _
    omega
  proc := rfl
  code := rfl
  name_base := by
    show ip.name_base + (base - ip.block_base) * 4 = _
    omega
  name_top := by
    show ip.name_top + (base - ip.block_base) * 4 = _
    omega

theorem cloned_offsets (ip : Icb) (base : Int) :
    ip.SameBases (ip.cloned base) ∧ ip.SameRegisters (ip.cloned base) := by
  refine ⟨?_, ?_⟩
  · simp only [Icb.SameBases, Icb.cloned]
    omega
  · simp only [Icb.SameRegisters, Icb.cloned]
    omega

/-- **`clone_block`** yields a clone exactly when the procedure table is empty. -/
theorem cloneBlock_iff (h : ip.Formed m n code stack) {base : Int}
    (hapart : ip.Apart base (ip.block_ceiling - ip.block_base)) :
    ip.IsClone (cloneBlock ip base m).1 m (cloneBlock ip base m).2 code stack ↔
      ip.code_base = ip.proc_base := by
  have hshift := programShift_cloned ip base
  have hprocs := h.procs
  have hbase := h.block
  have hend := h.name_base
  have hnames := h.names
  have htop := h.name_top
  have hst := h.st
  have hfree := h.free
  have htt := h.tt
  have hapart' := hapart
  rw [Icb.Apart] at hapart'
  obtain ⟨hsb, hsp, hsc, hsn, hsnt⟩ := hshift
  obtain ⟨hentries, -, hframe, -, hbframe⟩ :=
    copyProgram_copies h.toCodeFormed ⟨hsb, hsp, hsc, hsn, hsnt⟩ hapart
  have hcopied := program_copied h.toCodeFormed ⟨hsb, hsp, hsc, hsn, hsnt⟩ hapart
  rw [cloneBlock]
  set d := base - ip.block_base with hd
  set cip := ip.cloned base with hcip
  set m₁ := copyProgram d ip cip m with hm₁
  have hsst : cip.stack_base = ip.stack_base + d := rfl
  have hsce : cip.block_ceiling = ip.block_ceiling + d := rfl
  have hmove : cip.block_base - ip.block_base = d := by omega
  have hold : ∀ x, ip.block_base ≤ x → x < ip.block_ceiling → m₁.word x = m.word x :=
    fun x hx hx' => hframe x (by omega)
  obtain ⟨hstack, htrail, hprogram⟩ :=
    copyStack_copies h ⟨hsb, hsp, hsc, hsn, hsnt⟩ rfl rfl rfl rfl hapart hold
  show ip.IsClone cip m { m₁ with word := copyStack d ip cip m₁.word } code stack ↔ _
  constructor
  · intro hclone
    refine procs_empty h.toCodeFormed (fun k hk => ?_) hclone.toProgramCopied
    dsimp only
    rw [hprogram _ (by omega), (hentries k hk).2, hsb]
    omega
  · intro hempty
    obtain ⟨hcprocs, hccode, hcnames⟩ := hcopied hempty
    refine ⟨⟨fun k hk => absurd hk (by omega), fun i label hi => ?_, hcnames⟩,
      (cloned_offsets ip base).1, (cloned_offsets ip base).2, fun i pointer hi => ?_,
      fun i slot hi hslot => ?_, fun i hi => ?_, fun x hx hx' => ?_, fun x hx hx' => ?_⟩
    · have hlt := (List.getElem?_eq_some_iff.mp hi).1
      dsimp only
      rw [hprogram _ (by omega), hccode i label hi]
    · dsimp only
      rw [hstack i pointer hi, copyTagged_eq, Icb.relocated, hmove]
    · have hctt : cip.tt = ip.tt + d := rfl
      dsimp only
      rw [hstack i true hi, copyTagged_eq, if_pos rfl, hslot, hctt]
      omega
    · dsimp only
      rw [htrail i hi, copyTrail_eq (h.trail _ (by omega) hi), Icb.relocated, if_pos rfl, hmove]
    · dsimp only
      rw [hprogram x (by omega), hold x hx hx']
    · exact hbframe x (by omega)

/-- **`load_system_file`** copies the program exactly when the procedure table is empty. -/
theorem loadSystemFile_iff {bip : Icb} (h : bip.CodeFormed m n code) {ss base : Int} (hss : 0 ≤ ss)
    (hapart : bip.Apart base (INIT_MESSENGER_STACK * STACK_UNIT +
      (bip.block_ceiling - bip.block_base) + ss)) :
    (bip.ProgramCopied (loadSystemFile bip ss base m).1 m (loadSystemFile bip ss base m).2 code ∧
      bip.Unchanged m (loadSystemFile bip ss base m).2) ↔ bip.code_base = bip.proc_base := by
  have hprocs := h.procs
  have hbase := h.block
  have hend := h.name_base
  have hnames := h.names
  have hinside := h.inside
  have hshift : bip.ProgramShift (loadSystemFile bip ss base m).1 (base - bip.block_base) := by
    refine ⟨?_, ?_, ?_, ?_, ?_⟩ <;> dsimp only [loadSystemFile] <;> omega
  have hblock : (loadSystemFile bip ss base m).1.block_base = base := rfl
  have hunits : (0 : Int) ≤ INIT_MESSENGER_STACK * STACK_UNIT := by decide
  rw [Icb.Apart] at hapart
  have hapart' : bip.Apart (loadSystemFile bip ss base m).1.block_base
      (bip.block_ceiling - bip.block_base) := by
    rw [Icb.Apart, hblock]
    omega
  obtain ⟨hentries, -, hframe, -, hbframe⟩ := copyProgram_copies h hshift hapart'
  have hsp := hshift.proc
  have hsc := hshift.code
  have hsn := hshift.name_base
  have hsnt := hshift.name_top
  refine ⟨fun hcopied => procs_empty h (fun k hk => ?_) hcopied.1, fun hempty =>
    ⟨program_copied h hshift hapart' hempty, fun x hx hx' => hframe x (by omega),
      fun x hx hx' => hbframe x (by omega)⟩⟩
  rw [hblock]
  exact (hentries k hk).2

/-- **Copies of programs and blocks.** A clone, and the program loaded from a builtin messenger,
are what they should be exactly when there are no procedures. -/
theorem clone_iff_no_procedures (ip : Icb) (m : Memory) (n : Nat) (code stack : List Bool)
    (base : Int) :
    (ip.Formed m n code stack → ip.Apart base (ip.block_ceiling - ip.block_base) →
      (ip.IsClone (cloneBlock ip base m).1 m (cloneBlock ip base m).2 code stack ↔
        ip.code_base = ip.proc_base)) ∧
    ∀ ss : Int, ip.CodeFormed m n code → 0 ≤ ss →
      ip.Apart base (INIT_MESSENGER_STACK * STACK_UNIT + (ip.block_ceiling - ip.block_base) + ss) →
      (ip.ProgramCopied (loadSystemFile ip ss base m).1 m (loadSystemFile ip ss base m).2 code ∧
        ip.Unchanged m (loadSystemFile ip ss base m).2 ↔ ip.code_base = ip.proc_base) :=
  ⟨fun h hapart => cloneBlock_iff h hapart, fun _ h hss hapart => loadSystemFile_iff h hss hapart⟩

/-! ## Cloning a worker -/

/-- The worker without its procedure table. -/
def bare : Icb := { worker with block_base := 102, proc_base := 102 }

theorem bare_formed : bare.Formed workerMemory 0 workerCode [true] :=
  { worker_formed with
    block := rfl
    procs := rfl
    functor := fun k hk => absurd hk (Nat.not_lt_zero k)
    entry := fun k hk => absurd hk (Nat.not_lt_zero k) }

/-- Without its procedures the worker is cloned as it should be, with them it is not. -/
theorem clone_iff_no_procedures_worker :
    bare.IsClone (cloneBlock bare 200 workerMemory).1 workerMemory
      (cloneBlock bare 200 workerMemory).2 workerCode [true] ∧
    ¬ worker.IsClone (cloneBlock worker 200 workerMemory).1 workerMemory
      (cloneBlock worker 200 workerMemory).2 workerCode [true] :=
  ⟨((clone_iff_no_procedures bare _ 0 _ _ 200).1 bare_formed (Or.inr (by decide))).mpr rfl,
    fun h => absurd (((clone_iff_no_procedures worker _ 1 _ _ 200).1 worker_formed
      (Or.inr (by decide))).mp h) (by decide)⟩

/-- The entry of the procedure becomes its functor plus the distance. -/
theorem clone_entry_lost :
    worker.Formed workerMemory 1 workerCode [true] ∧ worker.Apart 200 12 ∧
      workerMemory.word 101 = 424 ∧
      (cloneBlock worker 200 workerMemory).2.word 201 = 8389487 + 4 * 100 ∧
      ¬ worker.IsClone (cloneBlock worker 200 workerMemory).1 workerMemory
        (cloneBlock worker 200 workerMemory).2 workerCode [true] := by
  refine ⟨worker_formed, Or.inr (by decide), rfl, by decide, fun h => ?_⟩
  have hempty := (cloneBlock_iff worker_formed (Or.inr (by decide))).mp h
  exact absurd hempty (by decide)

end Mlvm
