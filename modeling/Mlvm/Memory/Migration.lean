import Mlvm.Memory.Expansion
import Mlvm.Transport.Pdu

/-!
# Migration of an imago

`imago_layer_marshaling_down` writes an imago into the frames of a PDU: trail, stack, program and
names, base pointers, registers and identity, each in front of what is there.
`imago_layer_marshaling_up` reads them in the opposite order into a block at another address, and
`block_adjust` relocates what was read.

The two agree on the order and on the sizes, so identity, registers and bases come out of the frames
as they went in (`marshalingUp_down`). They are then moved by a distance in **bytes** that the
pointers to words take for words.
-/

namespace Mlvm

open Relocation Transport

/-! ## The memory as bytes -/

/-- The machine word at a word address: four bytes, the low one first, the high one with the sign.
-/
def wordAt (b : Int → UInt8) (x : Int) : Int :=
  (b (4 * x)).toNat + 256 * ((b (4 * x + 1)).toNat + 256 * ((b (4 * x + 2)).toNat +
    256 * Int.bmod (b (4 * x + 3)).toNat 256))

/-- The byte at an address of a memory of words. -/
def byteOf (w : Int → Int) (a : Int) : UInt8 :=
  .ofNat (w (a / 4) / 256 ^ (a % 4).toNat % 256).toNat

/-- A memory of bytes, seen as words and as characters. -/
def hostMemory (b : Int → UInt8) : Memory := ⟨wordAt b, b⟩

/-! ## The frames -/

/-- `frame_write_string`, of the bytes from `a` on. -/
def frameWriteString (b : Int → UInt8) (a length : Int) (f : List UInt8) : List UInt8 :=
  (List.range length.toNat).map (fun i : Nat => b (a + i)) ++ f

/-- `frame_write_text`: the text and its zero. -/
def frameWriteText (s f : List UInt8) : List UInt8 := s ++ 0 :: f

/-- `frame_write_byte`. -/
def frameWriteByte (c : UInt8) (f : List UInt8) : List UInt8 := c :: f

/-- `frame_read_string`: to the bytes from `a` on, until `length` are read or the frames are
empty. -/
def frameReadString (a length : Int) (b : Int → UInt8) (f : List UInt8) :
    (Int → UInt8) × List UInt8 :=
  (fun x => if a ≤ x ∧ x < a + length then f.getD (x - a).toNat (b x) else b x,
    f.drop length.toNat)

/-- `frame_read_text`: the characters up to a zero, at most `max`. -/
def frameReadText : Nat → List UInt8 → List UInt8 × List UInt8
  | 0, f => ([], f)
  | _ + 1, [] => ([], [])
  | max + 1, c :: f =>
      if c = 0 then ([], f) else (c :: (frameReadText max f).1, (frameReadText max f).2)

/-- `frame_read_byte`. -/
def frameReadByte (old : UInt8) : List UInt8 → UInt8 × List UInt8
  | c :: f => (c, f)
  | [] => (old, [])

/-- Reading gives back a text without zeros that the buffer holds. -/
theorem frameReadText_write {s : List UInt8} (hzero : 0 ∉ s) (f : List UInt8) :
    ∀ {max : Nat}, s.length < max → frameReadText max (frameWriteText s f) = (s, f) := by
  induction s with
  | nil =>
      intro max hmax
      obtain ⟨n, rfl⟩ := Nat.exists_eq_add_one_of_ne_zero (Nat.ne_of_gt hmax)
      rfl
  | cons c s ih =>
      intro max hmax
      obtain ⟨n, rfl⟩ := Nat.exists_eq_add_one_of_ne_zero (by omega : max ≠ 0)
      have hc : c ≠ 0 := fun h => hzero (h ▸ List.mem_cons_self)
      have hrest := ih (fun h => hzero (List.mem_cons_of_mem _ h)) (Nat.lt_of_succ_lt_succ hmax)
      rw [frameWriteText] at hrest
      rw [frameWriteText, List.cons_append, frameReadText, if_neg hc, hrest]

/-! ## The marshaling layer -/

/-- `struct host_type`: the name up to its zero, and the id. -/
structure HostType where
  name : List UInt8
  host_id : UInt32
  deriving DecidableEq, Repr

/-- What an imago has besides its block: application, type (a value of `imago_type`), name, queen,
citizenship and the number of its jumps. -/
structure Identity where
  application : UInt32
  type : UInt8
  name : List UInt8
  queen : HostType
  citizenship : HostType
  jumps : UInt32
  deriving DecidableEq, Repr

/-- The size of the buffers for names. -/
def MAX_DNS_NAME_SIZE : Nat := 80

/-- A pointer to a word, as an integer. -/
def pointerInt (x : Int) : UInt32 := .ofInt (4 * x)

/-- An integer, as a pointer to a word. -/
def intPointer (v : UInt32) : Int := v.toNat / 4

/-- `imago_layer_marshaling_down`, when there are frames enough. -/
def marshalingDown (who : Identity) (this_icb : Icb) (b : Int → UInt8) (frames : List UInt8) :
    List UInt8 :=
  let f := frameWriteString b (4 * this_icb.tt) (4 * this_icb.block_ceiling - 4 * this_icb.tt)
    frames
  let f := frameWriteString b (4 * this_icb.stack_base) (4 * this_icb.st - 4 * this_icb.stack_base)
    f
  let f := frameWriteString b (4 * this_icb.block_base)
    (this_icb.name_top - 4 * this_icb.block_base) f
  let f := frameWriteInt (pointerInt this_icb.block_ceiling) f
  let f := frameWriteInt (pointerInt this_icb.stack_base) f
  let f := frameWriteInt (.ofInt this_icb.name_top) f
  let f := frameWriteInt (.ofInt this_icb.name_base) f
  let f := frameWriteInt (pointerInt this_icb.code_base) f
  let f := frameWriteInt (pointerInt this_icb.block_base) f
  let f := frameWriteInt (pointerInt this_icb.pp) f
  let f := frameWriteInt (pointerInt this_icb.af) f
  let f := frameWriteInt (pointerInt this_icb.cp) f
  let f := frameWriteInt (pointerInt this_icb.cf) f
  let f := frameWriteInt (pointerInt this_icb.st) f
  let f := frameWriteInt (pointerInt this_icb.bb) f
  let f := frameWriteInt (pointerInt this_icb.b0) f
  let f := frameWriteInt (pointerInt this_icb.gl) f
  let f := frameWriteInt (pointerInt this_icb.tt) f
  let f := frameWriteInt who.jumps f
  let f := frameWriteInt who.citizenship.host_id f
  let f := frameWriteText who.citizenship.name f
  let f := frameWriteInt who.queen.host_id f
  let f := frameWriteText who.queen.name f
  let f := frameWriteText who.name f
  let f := frameWriteByte who.type f
  frameWriteInt who.application f

/-- The first group that `imago_layer_marshaling_up` reads, into the fresh identity `old`. -/
def readIdentity (old : Identity) (frames : List UInt8) : Identity × List UInt8 :=
  let (application, f) := frameReadInt old.application frames
  let (type, f) := frameReadByte old.type f
  let (name, f) := frameReadText MAX_DNS_NAME_SIZE f
  let (queenName, f) := frameReadText MAX_DNS_NAME_SIZE f
  let (queenId, f) := frameReadInt old.queen.host_id f
  let (citizenshipName, f) := frameReadText MAX_DNS_NAME_SIZE f
  let (citizenshipId, f) := frameReadInt old.citizenship.host_id f
  let (jumps, f) := frameReadInt old.jumps f
  (⟨application, type, name, ⟨queenName, queenId⟩, ⟨citizenshipName, citizenshipId⟩, jumps⟩, f)

/-- The second and the third group, into the fresh control block `old`. -/
def readPointers (old : Icb) (frames : List UInt8) : Icb × List UInt8 :=
  let (tt, f) := frameReadInt (pointerInt old.tt) frames
  let (gl, f) := frameReadInt (pointerInt old.gl) f
  let (b0, f) := frameReadInt (pointerInt old.b0) f
  let (bb, f) := frameReadInt (pointerInt old.bb) f
  let (st, f) := frameReadInt (pointerInt old.st) f
  let (cf, f) := frameReadInt (pointerInt old.cf) f
  let (cp, f) := frameReadInt (pointerInt old.cp) f
  let (af, f) := frameReadInt (pointerInt old.af) f
  let (pp, f) := frameReadInt (pointerInt old.pp) f
  let (block_base, f) := frameReadInt (pointerInt old.block_base) f
  let (code_base, f) := frameReadInt (pointerInt old.code_base) f
  let (name_base, f) := frameReadInt (.ofInt old.name_base) f
  let (name_top, f) := frameReadInt (.ofInt old.name_top) f
  let (stack_base, f) := frameReadInt (pointerInt old.stack_base) f
  let (block_ceiling, f) := frameReadInt (pointerInt old.block_ceiling) f
  ({ expansions := old.expansions
     block_base := intPointer block_base
     block_ceiling := intPointer block_ceiling
     name_base := name_base.toNat
     name_top := name_top.toNat
     proc_base := intPointer block_base
     code_base := intPointer code_base
     stack_base := intPointer stack_base
     pp := intPointer pp
     af := intPointer af
     cp := intPointer cp
     cf := intPointer cf
     st := intPointer st
     bb := intPointer bb
     b0 := intPointer b0
     gl := intPointer gl
     tt := intPointer tt }, f)

/-- The pointers after `+= distance`: one to words moves by words, one to characters by bytes. -/
def Icb.advanced (plt : Icb) (distance : Int) : Icb :=
  { plt with
    block_base := plt.block_base + distance
    proc_base := plt.proc_base + distance
    code_base := plt.code_base + distance
    name_base := plt.name_base + distance
    name_top := plt.name_top + distance
    stack_base := plt.stack_base + distance
    block_ceiling := plt.block_ceiling + distance
    tt := plt.tt + distance
    gl := plt.gl + distance
    b0 := plt.b0 + distance
    bb := plt.bb + distance
    st := plt.st + distance
    cf := plt.cf + distance
    cp := plt.cp + distance
    af := plt.af + distance
    pp := plt.pp + distance }

/-- `block_adjust`, with the distance in bytes: the trail loop works in place. -/
def blockAdjust (plt : Icb) (distance : Int) (b : Int → UInt8) : Int → UInt8 :=
  let distance := distance.tdiv 4
  let w := adjustSegments distance plt (wordAt b)
  byteOf (moveTrail (adjustTrail distance) (plt.block_ceiling - plt.tt).toNat (plt.tt - 1)
    (plt.tt - 1) w)

/-- `imago_layer_marshaling_up` on a PDU from the network, where `malloc` gives `new_base`. -/
def marshalingUp (old : Identity × Icb) (new_base : Option Int) (b : Int → UInt8)
    (frames : List UInt8) : Option (Identity × Icb × (Int → UInt8) × List UInt8) :=
  let (who, f) := readIdentity old.1 frames
  let (icb, f) := readPointers old.2 f
  if icb.block_ceiling - icb.block_base ≤ 0 then none
  else new_base.map fun new_base =>
    let distance := 4 * new_base - 4 * icb.block_base
    let icb := icb.advanced distance
    let (b, f) := frameReadString (4 * icb.block_base) (icb.name_top - 4 * icb.block_base) b f
    let (b, f) := frameReadString (4 * icb.stack_base) (4 * icb.st - 4 * icb.stack_base) b f
    let (b, f) := frameReadString (4 * icb.tt) (4 * icb.block_ceiling - 4 * icb.tt) b f
    (who, icb, blockAdjust icb distance b, f)

/-! ## What a migration is to be -/

/-- An imago that can be sent: a well-formed block with its registers in the address space, and
names that fit into their buffers. -/
structure Icb.Migratable (this_icb : Icb) (who : Identity) (b : Int → UInt8) (n : Nat)
    (code stack : List Bool) : Prop where
  formed : this_icb.Formed (hostMemory b) n code stack
  space : 0 ≤ this_icb.block_base ∧ 4 * this_icb.block_ceiling < 4294967296
  registers : ∀ r ∈ [this_icb.pp, this_icb.af, this_icb.cp, this_icb.cf, this_icb.st, this_icb.bb,
    this_icb.b0, this_icb.gl], this_icb.block_base ≤ r ∧ r < this_icb.block_ceiling
  names : ∀ s ∈ [who.name, who.queen.name, who.citizenship.name],
    0 ∉ s ∧ s.length < MAX_DNS_NAME_SIZE

/-- **The migration round trip**: the same identity, and everything designates the same object in
the block at `new_base`. -/
def Icb.Migrated (this_icb : Icb) (who : Identity) (b : Int → UInt8) (n : Nat)
    (code stack : List Bool) (new_base : Int) :
    Option (Identity × Icb × (Int → UInt8) × List UInt8) → Prop
  | none => False
  | some (who', icb', b', _) =>
      who' = who ∧ this_icb.Expanded icb' (hostMemory b) (hostMemory b') n code stack
        (new_base - this_icb.block_base) 0

/-! ## What comes out of the frames -/

variable {this_icb : Icb} {who : Identity} {b : Int → UInt8} {n : Nat} {code stack : List Bool}

theorem intPointer_pointerInt {x : Int} (hzero : 0 ≤ x) (hspace : 4 * x < 4294967296) :
    intPointer (pointerInt x) = x := by
  have hnat : (pointerInt x).toNat = (4 * x).toNat := by
    rw [pointerInt, UInt32.ofInt, UInt32.toNat_ofNat']
    omega
  rw [intPointer, hnat]
  omega

theorem toNat_ofInt {x : Int} (hzero : 0 ≤ x) (hspace : x < 4294967296) :
    ((UInt32.ofInt x).toNat : Int) = x := by
  rw [UInt32.ofInt, UInt32.toNat_ofNat']
  omega

/-- The frames from the identity on. -/
def withIdentity (who : Identity) (f : List UInt8) : List UInt8 :=
  frameWriteInt who.application (frameWriteByte who.type (frameWriteText who.name
    (frameWriteText who.queen.name (frameWriteInt who.queen.host_id
      (frameWriteText who.citizenship.name (frameWriteInt who.citizenship.host_id
        (frameWriteInt who.jumps f)))))))

theorem readIdentity_withIdentity (old : Identity) (f : List UInt8)
    (hnames : ∀ s ∈ [who.name, who.queen.name, who.citizenship.name],
      0 ∉ s ∧ s.length < MAX_DNS_NAME_SIZE) :
    readIdentity old (withIdentity who f) = (who, f) := by
  have hname := hnames who.name (by simp)
  have hqueen := hnames who.queen.name (by simp)
  have hcitizenship := hnames who.citizenship.name (by simp)
  have hbyte : ∀ f', frameReadByte old.type (frameWriteByte who.type f') = (who.type, f') :=
    fun _ => rfl
  simp only [readIdentity, withIdentity, frameReadInt_write, hbyte,
    frameReadText_write hname.1 _ hname.2, frameReadText_write hqueen.1 _ hqueen.2,
    frameReadText_write hcitizenship.1 _ hcitizenship.2]

/-- The frames from the registers on. -/
def withPointers (plt : Icb) (f : List UInt8) : List UInt8 :=
  frameWriteInt (pointerInt plt.tt) (frameWriteInt (pointerInt plt.gl)
    (frameWriteInt (pointerInt plt.b0) (frameWriteInt (pointerInt plt.bb)
      (frameWriteInt (pointerInt plt.st) (frameWriteInt (pointerInt plt.cf)
        (frameWriteInt (pointerInt plt.cp) (frameWriteInt (pointerInt plt.af)
          (frameWriteInt (pointerInt plt.pp) (frameWriteInt (pointerInt plt.block_base)
            (frameWriteInt (pointerInt plt.code_base) (frameWriteInt (.ofInt plt.name_base)
              (frameWriteInt (.ofInt plt.name_top) (frameWriteInt (pointerInt plt.stack_base)
                (frameWriteInt (pointerInt plt.block_ceiling) f))))))))))))))

theorem readPointers_withPointers (old : Icb) (f : List UInt8)
    (h : this_icb.Migratable who b n code stack) :
    readPointers old (withPointers this_icb f) =
      ({ this_icb with expansions := old.expansions }, f) := by
  obtain ⟨hbase, hspace⟩ := h.space
  have hformed := h.formed
  have hprocs := hformed.procs
  have hblock := hformed.block
  have hname := hformed.name_base
  have hnames := hformed.names
  have htop := hformed.name_top
  have hst := hformed.st
  have hfree := hformed.free
  have htt := hformed.tt
  have hptr : ∀ x, this_icb.block_base ≤ x → x ≤ this_icb.block_ceiling →
      intPointer (pointerInt x) = x := fun x hlow hhigh =>
    intPointer_pointerInt (by omega) (by omega)
  have hreg : ∀ r ∈ [this_icb.pp, this_icb.af, this_icb.cp, this_icb.cf, this_icb.st, this_icb.bb,
      this_icb.b0, this_icb.gl], intPointer (pointerInt r) = r := fun r hr =>
    hptr r (h.registers r hr).1 (Int.le_of_lt (h.registers r hr).2)
  simp only [readPointers, withPointers, frameReadInt_write]
  rw [hptr this_icb.block_base (Int.le_refl _) (by omega),
    hptr this_icb.block_ceiling (by omega) (Int.le_refl _), hptr this_icb.code_base (by omega)
      (by omega), hptr this_icb.stack_base (by omega) (by omega), hptr this_icb.tt (by omega)
      (by omega), toNat_ofInt (x := this_icb.name_base) (by omega) (by omega),
    toNat_ofInt (x := this_icb.name_top) (by omega) (by omega), hreg this_icb.pp (by simp),
    hreg this_icb.af (by simp), hreg this_icb.cp (by simp), hreg this_icb.cf (by simp),
    hreg this_icb.st (by simp), hreg this_icb.bb (by simp), hreg this_icb.b0 (by simp),
    hreg this_icb.gl (by simp), ← hblock]

/-- **Identity, registers and bases come out of the frames as they went in**, and every pointer is
then advanced by the distance in bytes. -/
theorem marshalingUp_down (h : this_icb.Migratable who b n code stack) (old : Identity × Icb)
    (new_base : Int) (b' : Int → UInt8) (frames : List UInt8) :
    ∃ b'' frames', marshalingUp old (some new_base) b' (marshalingDown who this_icb b frames) =
      some (who, { this_icb with expansions := old.2.expansions }.advanced
        (4 * new_base - 4 * this_icb.block_base), b'', frames') := by
  have hwritten : ∃ f, marshalingDown who this_icb b frames =
      withIdentity who (withPointers this_icb f) := ⟨_, rfl⟩
  obtain ⟨f, hf⟩ := hwritten
  have hsize : ¬ this_icb.block_ceiling - this_icb.block_base ≤ 0 := by
    have hreg := h.registers this_icb.st (by simp)
    omega
  simp only [marshalingUp, hf, readIdentity_withIdentity _ _ h.names,
    readPointers_withPointers _ _ h, if_neg hsize]
  exact ⟨_, _, rfl⟩

/-- **A migration to another address never ends well**: the block base is advanced by four times the
distance. -/
theorem migration_never (h : this_icb.Migratable who b n code stack) (old : Identity × Icb)
    (new_base : Int) (hmoved : new_base ≠ this_icb.block_base) (b' : Int → UInt8)
    (frames : List UInt8) :
    ¬ this_icb.Migrated who b n code stack new_base
      (marshalingUp old (some new_base) b' (marshalingDown who this_icb b frames)) := by
  obtain ⟨b'', frames', hup⟩ := marshalingUp_down h old new_base b' frames
  rw [hup]
  rintro ⟨-, hexpanded⟩
  have hbase : this_icb.block_base + (4 * new_base - 4 * this_icb.block_base) =
      this_icb.block_base + (new_base - this_icb.block_base) := hexpanded.bases.1
  exact hmoved (by omega)

/-! ## A worker that migrates -/

/-- The bytes of the worker's block. -/
def workerBytes : Int → UInt8 :=
  byteOf fun x => [8389487, 424, 133, 424, 135, 8389487, 6, 23899, 432, 0, 0, 434].getD
    (x - 100).toNat 0

/-- A worker `w` of a queen `q` on host 1. -/
def workerIdentity : Identity where
  application := 7
  type := 1
  name := [119]
  queen := ⟨[113], 1⟩
  citizenship := ⟨[], 0⟩
  jumps := 0

theorem workerBytes_code : Tiled codeItem (wordAt workerBytes) 102 workerCode :=
  workerCode_tiled.move local_codeItem (by decide +kernel)

theorem workerBytes_stack : Tiled stackItem (wordAt workerBytes) 108 [true] :=
  workerStack_tiled.move local_stackItem (by decide +kernel)

theorem workerBytes_formed : worker.Formed (hostMemory workerBytes) 1 workerCode [true] where
  block := rfl
  procs := rfl
  functor k hk := by
    obtain rfl := Nat.lt_one_iff.mp hk
    decide +kernel
  entry k hk := by
    obtain rfl := Nat.lt_one_iff.mp hk
    decide +kernel
  instrs := workerBytes_code
  name_base := rfl
  names := by decide
  inside := by decide
  name_top := by decide
  cells := workerBytes_stack
  st := rfl
  free := by decide
  tt := by decide
  trail x hx hx' := by
    have hslot : x = 111 := by
      change 110 < x at hx
      change x < 112 at hx'
      omega
    subst hslot
    decide +kernel

theorem worker_migratable :
    worker.Migratable workerIdentity workerBytes 1 workerCode [true] where
  formed := workerBytes_formed
  space := by decide
  registers := by decide
  names := by decide

theorem migration_never_worker :
    ¬ worker.Migrated workerIdentity workerBytes 1 workerCode [true] 200
      (marshalingUp (workerIdentity, worker) (some 200) (fun _ => 0)
        (marshalingDown workerIdentity worker workerBytes [])) :=
  migration_never worker_migratable (workerIdentity, worker) 200 (by decide) (fun _ => 0) []

/-- The block that `malloc` put 100 words on is taken to begin 400 words on. -/
theorem worker_not_migrated :
    worker.Migratable workerIdentity workerBytes 1 workerCode [true] ∧
      ((marshalingUp (workerIdentity, worker) (some 200) (fun _ => 0)
        (marshalingDown workerIdentity worker workerBytes [])).map fun r => r.2.1.block_base) =
          some 500 ∧
      ¬ worker.Migrated workerIdentity workerBytes 1 workerCode [true] 200
        (marshalingUp (workerIdentity, worker) (some 200) (fun _ => 0)
          (marshalingDown workerIdentity worker workerBytes [])) := by
  obtain ⟨b'', frames', hup⟩ := marshalingUp_down worker_migratable (workerIdentity, worker) 200
    (fun _ => 0) []
  rw [hup]
  refine ⟨worker_migratable, rfl, ?_⟩
  rintro ⟨-, hexpanded⟩
  exact absurd hexpanded.bases.1 (by decide)

end Mlvm
