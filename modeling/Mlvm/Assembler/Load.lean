import Mlvm.Assembler.Assembler

/-!
# Loading an assembled program

`load_code` reads the byte code file into a block: the procedure table, the code and the name
table, with every label made an address.

**What loading should give.** `Preserved` says what the image is to be, in terms of the source
alone: the offset of every line, the place of every label, the strings that words name.

The loader relocates the entries of the procedure table from the base of this table and not from
the base of the code, so no program is loaded as it was written.
-/

namespace Mlvm

/-- A loaded program; `procBase` and `codeBase` are word addresses. -/
structure Image where
  procBase : Int
  codeBase : Int
  names : List UInt8
  procs : List (Int × Int)
  code : List Int
  deriving DecidableEq, Repr

/-! ## The loader -/

/-- The words of a plain instruction; a label gets `base` added. -/
def loadWords (base : Int) : List Bool → List Int → Option (List Int × List Int)
  | [], ws => some ([], ws)
  | b :: bs, w :: ws =>
      (loadWords base bs ws).map fun (l, ws) => ((if b then base + w else w) :: l, ws)
  | _ :: _, [] => none

/-- The pairs of a hash table. -/
def loadPairs (base : Int) : Nat → List Int → Option (List Int × List Int)
  | 0, ws => some ([], ws)
  | n + 1, k :: e :: ws => (loadPairs base n ws).map fun (l, ws) => (k :: (base + e) :: l, ws)
  | _ + 1, _ => none

/-- The words of a hash table, where the first one counts the pairs. -/
def loadTable (base : Int) : List Int → Option (List Int × List Int)
  | n :: v :: ws =>
      if n < 0 then none
      else (loadPairs base n.toNat ws).map fun (l, ws) => (n :: (base + v) :: l, ws)
  | _ => none

/-- One instruction. -/
def loadInstr (base : Int) : List Int → Option (List Int × List Int)
  | [] => none
  | op :: ws =>
      (opcodeType op).bind fun ty =>
        (if ty = .htab then loadTable base ws else loadWords base ty.loaded ws).map
          fun (l, ws) => (op :: l, ws)

/-- The loop over the code, with a bound on the instructions left. -/
def loadLoop (base : Int) : Nat → List Int → Option (List Int)
  | _, [] => some []
  | 0, _ :: _ => none
  | n + 1, w :: ws =>
      (loadInstr base (w :: ws)).bind fun (l, ws) => (loadLoop base n ws).map (l ++ ·)

/-- `load_code`, into a block that begins at the word address `block`. -/
def loadCode (block : Int) (o : Assembler.Object) : Option Image :=
  (loadLoop (block + 2 * o.procs.length) o.code.length o.code).map fun code => {
    procBase := block
    codeBase := block + 2 * o.procs.length
    names := o.names.map fun c => if c = 10 then 0 else c
    procs := o.procs.map fun e => (e.1, block + e.2)
    code := code }

/-! ## What the image is to be -/

namespace Assembler

/-- The words of an operand. -/
def Operand.size : Operand → Nat
  | .float _ _ => 2
  | _ => 1

/-- The words of a line. -/
def Line.size (l : Line) : Nat :=
  match l.operands with
  | .plain os => 1 + (os.map Operand.size).sum
  | .table t => 3 + 2 * getPrime t.entries.length

/-- Where line `i` begins in the code. -/
def Source.offset (p : Source) (i : Nat) : Nat := 2 + ((p.lines.take i).map Line.size).sum

/-- Where a label is defined. -/
def Source.placeOf (p : Source) (l : Name) : Option Nat :=
  if l ∈ p.labels then some 0
  else (p.lines.findIdx? fun line => l ∈ line.labels).map p.offset

/-- The procedures that operands from offset `k` on begin: the functors, and where they begin. -/
def Operand.procedures (k : Nat) : List Operand → List ((Name × Nat) × Nat)
  | [] => []
  | .procedure s arity :: os => ((s, arity), k + 1) :: procedures (k + 1) os
  | o :: os => procedures (k + o.size) os

/-- The procedures of a line at offset `k`. -/
def Line.procedures (k : Nat) (l : Line) : List ((Name × Nat) × Nat) :=
  match l.operands with
  | .plain os => Operand.procedures (k + 1) os
  | .table _ => []

/-- The procedures of the lines from offset `k` on. -/
def proceduresFrom : Nat → List Line → List ((Name × Nat) × Nat)
  | _, [] => []
  | k, l :: ls => l.procedures k ++ proceduresFrom (k + l.size) ls

end Assembler

namespace Image

/-- The string at an offset of the name table. -/
def nameAt (img : Image) (pos : Nat) : Name := (img.names.drop pos).takeWhile (· ≠ 0)

/-- The string of the value of a constant or functor. -/
def valueName (img : Image) (v : Int) : Name :=
  if v = 0 then []
  else if v < ASCII_SIZE then [UInt8.ofInt v]
  else img.nameAt (v - ASCII_SIZE).toNat

/-- The word is the constant `s`. -/
def IsCon (img : Image) (w : Int) (s : Name) : Prop := w % 8 = 7 ∧ img.valueName (w / 8) = s

/-- The word is the functor `s` with this arity. -/
def IsFun (img : Image) (w : Int) (s : Name) (arity : Nat) : Prop :=
  w % 8 = 7 ∧ img.valueName (w % 2 ^ 23 / 8) = s ∧ (w % 2 ^ 32 / 2 ^ 23).toNat = arity

/-- The word is the address of the label. -/
def IsLabel (img : Image) (p : Assembler.Source) (w : Int) (l : Name) : Prop :=
  ∃ k, p.placeOf l = some k ∧ w = img.codeBase + k

/-- The words are the operand. -/
def IsOperand (builtins : Name → Option Nat) (p : Assembler.Source) (img : Image) :
    Assembler.Operand → List Int → Prop
  | .num n, ws => ws = [n]
  | .label l, ws => ∃ w, ws = [w] ∧ img.IsLabel p w l
  | .con s, ws => ∃ w, ws = [w] ∧ img.IsCon w s
  | .functor s arity, ws => ∃ w, ws = [w] ∧ img.IsFun w s arity
  | .builtin s, ws => ∃ n : Nat, builtins s = some n ∧ ws = [(n : Int)]
  | .int n, ws => ws = [(Word.makeInt n).bits]
  | .procedure s arity, ws => ∃ w, ws = [w] ∧ img.IsFun w s arity
  | .float w₁ w₂, ws => ws = [w₁, w₂]

/-- The words are the hash table: every slot is empty or holds a constant of the table with its
label. -/
def IsTable (p : Assembler.Source) (img : Image) (t : Assembler.TableSource) (ws : List Int) :
    Prop :=
  ∃ v es, ws = (Assembler.getPrime t.entries.length : Int) :: v :: es ∧ img.IsLabel p v t.var ∧
    es.length = 2 * Assembler.getPrime t.entries.length ∧
    ∀ j < Assembler.getPrime t.entries.length,
      es[2 * j]? = some 0 ∧ es[2 * j + 1]? = some v ∨
      ∃ e ∈ t.entries, ∃ w b, es[2 * j]? = some w ∧ es[2 * j + 1]? = some b ∧
        img.IsCon w e.1 ∧ img.IsLabel p b e.2

/-- The words are the operands of a line. -/
def IsOperands (builtins : Name → Option Nat) (p : Assembler.Source) (img : Image) :
    Assembler.Operands → List Int → Prop
  | .plain os, ws => ∃ wss : List (List Int), ws = wss.flatten ∧
      List.Forall₂ (img.IsOperand builtins p) os wss
  | .table t, ws => img.IsTable p t ws

end Image

/-- **The image is the program**: at the offset of every line its opcode and operands, in the
operand of the imago instruction the address of the entry procedure, and in the procedure table
the address of every procedure. -/
structure Image.Preserved (builtins : Name → Option Nat) (p : Assembler.Source) (img : Image) :
    Prop where
  imago : img.code[0]? = some (p.op : Int)
  lines : ∀ i line, p.lines[i]? = some line → ∃ ws,
    (img.code.drop (p.offset i)).take line.size = (line.op : Int) :: ws ∧
      img.IsOperands builtins p line.operands ws
  entry : ∃ e ∈ Assembler.proceduresFrom 2 p.lines, e.1 = (p.entry, p.arity) ∧
    img.code[1]? = some (img.codeBase + e.2)
  procs : List.Forall₂ (fun e (f : (Name × Nat) × Nat) =>
      img.IsFun e.1 f.1.1 f.1.2 ∧ e.2 = img.codeBase + f.2)
    img.procs (Assembler.proceduresFrom 2 p.lines)

/-! ## The places of the procedures -/

namespace Assembler

/-- Requests are for cells that have been put, or for the next one. -/
def RequestsBelow (a : Assembler) : Prop := ∀ n ∈ a.labels, n.val < 0 → -n.val ≤ a.cc

/-- The assembler has put `n` words, and procedures at these places. -/
structure Moves (a b : Assembler) (n : Nat) (places : List Int) : Prop where
  cc : b.cc = a.cc + n
  procs : b.procs.map Prod.snd = a.procs.map Prod.snd ++ places
  requests : a.RequestsBelow → b.RequestsBelow

variable {a b c : Assembler}

theorem Moves.refl (a : Assembler) : Moves a a 0 [] := ⟨rfl, (List.append_nil _).symm, id⟩

theorem Moves.trans {n m : Nat} {ls ls' : List Int} (h : Moves a b n ls) (h' : Moves b c m ls') :
    Moves a c (n + m) (ls ++ ls') :=
  ⟨by rw [h'.cc, h.cc, Nat.add_assoc], by rw [h'.procs, h.procs, List.append_assoc],
    fun hr => h'.requests (h.requests hr)⟩

/-- Nothing but words is put. -/
theorem moves_of_labels {n : Nat} (hcc : b.cc = a.cc + n) (hprocs : b.procs = a.procs)
    (hlabels : b.labels = a.labels) : Moves a b n [] := by
  refine ⟨hcc, by rw [hprocs, List.append_nil], fun hr m hm hneg => ?_⟩
  rw [hlabels] at hm
  have hle := hr m hm hneg
  omega

/-- Before a step that puts nothing. -/
theorem Moves.then {n : Nat} {ls : List Int} (h : Moves a b 0 []) (h' : Moves b c n ls) :
    Moves a c n ls := by
  have hboth := h.trans h'
  rwa [Nat.zero_add, List.nil_append] at hboth

theorem moves_putCode {w : Int} (h : a.putCode w = some b) : Moves a b 1 [] := by
  rw [putCode] at h
  split_ifs at h
  obtain rfl := Option.some.inj h
  exact moves_of_labels rfl rfl rfl

theorem moves_putCodes {ws : List Int} (h : a.putCodes ws = some b) : Moves a b ws.length [] := by
  induction ws generalizing a with
  | nil =>
      obtain rfl := Option.some.inj h
      exact Moves.refl a
  | cons w ws ih =>
      obtain ⟨a', hput, hputs⟩ := Option.bind_eq_some_iff.mp h
      have hboth := (moves_putCode hput).trans (ih hputs)
      rwa [Nat.add_comm] at hboth

theorem moves_lookupName {s : Name} {loc : Int} (h : a.lookupName s = some (b, loc)) :
    Moves a b 0 [] := by
  rw [lookupName] at h
  split at h
  · obtain ⟨rfl, -⟩ := Prod.mk.inj (Option.some.inj h)
    exact Moves.refl a
  · split_ifs at h
    obtain ⟨rfl, -⟩ := Prod.mk.inj (Option.some.inj h)
    exact moves_of_labels rfl rfl rfl

/-- What is looked up and then turned into a word. -/
theorem moves_map {s : Name} (g : Int → Int) {w : Int}
    (h : (a.lookupName s).map (fun x => (x.1, g x.2)) = some (b, w)) : Moves a b 0 [] := by
  obtain ⟨⟨a', loc⟩, hlook, hmap⟩ := Option.map_eq_some_iff.mp h
  obtain ⟨rfl, -⟩ := Prod.mk.inj hmap
  exact moves_lookupName hlook

theorem moves_getCon {s : Name} {w : Int} (h : a.getCon s = some (b, w)) : Moves a b 0 [] := by
  match s, h with
  | [], h =>
      obtain ⟨rfl, -⟩ := Prod.mk.inj (Option.some.inj h)
      exact Moves.refl a
  | [_], h =>
      obtain ⟨rfl, -⟩ := Prod.mk.inj (Option.some.inj h)
      exact Moves.refl a
  | _ :: _ :: _, h => exact moves_map (fun loc => (Word.makeCon (loc + ASCII_SIZE)).bits) h

theorem moves_getFun {s : Name} {arity : Nat} {w : Int} (h : a.getFun s arity = some (b, w)) :
    Moves a b 0 [] := by
  match s, h with
  | [], h => exact moves_map (fun loc => rawFun (loc + ASCII_SIZE) arity) h
  | [_], h =>
      obtain ⟨rfl, -⟩ := Prod.mk.inj (Option.some.inj h)
      exact Moves.refl a
  | _ :: _ :: _, h => exact moves_map (fun loc => rawFun (loc + ASCII_SIZE) arity) h

theorem moves_getLabel {l : Name} {loc : Int} (h : a.getLabel l = some (b, loc)) :
    Moves a b 0 [] := by
  rw [getLabel] at h
  split at h
  · obtain ⟨rfl, -⟩ := Prod.mk.inj (Option.some.inj h)
    exact Moves.refl a
  · split_ifs at h
    obtain ⟨rfl, -⟩ := Prod.mk.inj (Option.some.inj h)
    refine ⟨rfl, (List.append_nil _).symm, fun hr m hm hneg => ?_⟩
    rcases List.mem_cons.mp hm with rfl | hm
    · exact Int.le_of_eq (Int.neg_neg _)
    · exact hr m hm hneg

theorem moves_insertLabels {ls : List Name} (h : a.insertLabels ls = some b) :
    Moves a b 0 [] := by
  induction ls generalizing a with
  | nil =>
      obtain rfl := Option.some.inj h
      exact Moves.refl a
  | cons l ls ih =>
      obtain ⟨a', hput, hputs⟩ := Option.bind_eq_some_iff.mp h
      have hone : Moves a a' 0 [] := by
        rw [insertLabel] at hput
        split_ifs at hput
        obtain rfl := Option.some.inj hput
        refine ⟨rfl, (List.append_nil _).symm, fun hr m hm hneg => ?_⟩
        rcases List.mem_cons.mp hm with rfl | hm
        · exact absurd hneg (Int.not_lt.mpr (Int.natCast_nonneg _))
        · exact hr m (List.mem_filter.mp hm).1 hneg
      exact hone.then (ih hputs)

theorem moves_getEntries {es : List (Name × Name)} {pairs : List (Int × Int)}
    (h : a.getEntries es = some (b, pairs)) : Moves a b 0 [] ∧ pairs.length = es.length := by
  induction es generalizing a pairs with
  | nil =>
      obtain ⟨rfl, rfl⟩ := Prod.mk.inj (Option.some.inj h)
      exact ⟨Moves.refl a, rfl⟩
  | cons e es ih =>
      obtain ⟨⟨a₁, term⟩, hcon, h⟩ := Option.bind_eq_some_iff.mp h
      obtain ⟨⟨a₂, loc⟩, hlabel, h⟩ := Option.bind_eq_some_iff.mp h
      obtain ⟨⟨a₃, rest⟩, hrest, h⟩ := Option.bind_eq_some_iff.mp h
      obtain ⟨rfl, rfl⟩ := Prod.mk.inj (Option.some.inj h)
      obtain ⟨hmoves, hlen⟩ := ih hrest
      exact ⟨(moves_getCon hcon).then ((moves_getLabel hlabel).then hmoves),
        congrArg Nat.succ hlen⟩

theorem moves_getTable {t : TableSource} {pairs : List (Int × Int)} {var : Int}
    (h : a.getTable t = some (b, pairs, var)) :
    Moves a b 0 [] ∧ pairs.length = t.entries.length := by
  rw [getTable] at h
  split_ifs at h
  obtain ⟨⟨a₁, pairs₁⟩, hentries, h⟩ := Option.bind_eq_some_iff.mp h
  obtain ⟨⟨a₂, loc⟩, hlabel, h⟩ := Option.bind_eq_some_iff.mp h
  obtain ⟨rfl, hpair⟩ := Prod.mk.inj (Option.some.inj h)
  obtain ⟨rfl, -⟩ := Prod.mk.inj hpair
  obtain ⟨hmoves, hlen⟩ := moves_getEntries hentries
  exact ⟨hmoves.then (moves_getLabel hlabel), hlen⟩

theorem length_emptyEntries (prime : Nat) (var : Int) :
    (emptyEntries prime var).length = 2 * prime := by
  induction prime with
  | zero => rfl
  | succ prime ih =>
      rw [emptyEntries, List.replicate_succ, List.flatten_cons, ← emptyEntries, List.length_append,
        ih, List.length_cons, List.length_singleton]
      omega

theorem moves_putTable {pairs : List (Int × Int)} {var : Int}
    (h : a.putTable pairs var = some b) : Moves a b (2 + 2 * getPrime pairs.length) [] := by
  obtain ⟨a', hputs, hb⟩ := Option.bind_eq_some_iff.mp h
  obtain rfl := Option.some.inj hb
  have hmoves := moves_putCodes hputs
  rw [List.length_cons, List.length_cons, length_emptyEntries] at hmoves
  exact ⟨by rw [hmoves.cc]; omega, hmoves.procs, hmoves.requests⟩

theorem moves_putProcEntry {t : Int} (h : a.putProcEntry t = some b) :
    Moves a b 1 [(a.cc : Int) + 1] := by
  rw [putProcEntry] at h
  split_ifs at h
  obtain ⟨a', hput, hb⟩ := Option.map_eq_some_iff.mp h
  have hmoves := moves_putCode hput
  have hprocs : a'.procs.map Prod.snd = a.procs.map Prod.snd ++ [(a.cc : Int) + 1] := by
    rw [hmoves.procs, List.map_append, List.append_nil]
    rfl
  split_ifs at hb <;> subst hb
  · exact ⟨hmoves.cc, hprocs, hmoves.requests⟩
  · exact ⟨hmoves.cc, hprocs, hmoves.requests⟩

variable {builtins : Name → Option Nat}

/-- The places of procedures. -/
def places (ps : List ((Name × Nat) × Nat)) : List Int := ps.map fun e => (e.2 : Int)

theorem moves_putOperand {k : OperandKind} {o : Operand} (h : a.putOperand builtins k o = some b) :
    Moves a b o.size (places (Operand.procedures a.cc [o])) := by
  rw [putOperand.eq_def] at h
  split at h
  · exact moves_putCode h
  · obtain ⟨⟨a', w⟩, hget, hput⟩ := Option.bind_eq_some_iff.mp h
    exact (moves_getLabel hget).then (moves_putCode hput)
  · obtain ⟨⟨a', w⟩, hget, hput⟩ := Option.bind_eq_some_iff.mp h
    exact (moves_getCon hget).then (moves_putCode hput)
  · obtain ⟨⟨a', w⟩, hget, hput⟩ := Option.bind_eq_some_iff.mp h
    exact (moves_getFun hget).then (moves_putCode hput)
  · obtain ⟨n, -, hput⟩ := Option.bind_eq_some_iff.mp h
    exact moves_putCode hput
  · exact moves_putCode h
  · obtain ⟨⟨a', w⟩, hget, hput⟩ := Option.bind_eq_some_iff.mp h
    have hfun := moves_getFun hget
    have hcc : a'.cc = a.cc := hfun.cc
    have hproc := moves_putProcEntry hput
    rw [hcc] at hproc
    exact hfun.then hproc
  · exact moves_putCodes h
  · cases h

theorem procedures_cons (k : Nat) (o : Operand) (os : List Operand) :
    Operand.procedures k (o :: os) =
      Operand.procedures k [o] ++ Operand.procedures (k + o.size) os := by
  cases o <;> rfl

theorem moves_putOperands {ks : List OperandKind} {os : List Operand}
    (h : a.putOperands builtins ks os = some b) :
    Moves a b (os.map Operand.size).sum (places (Operand.procedures a.cc os)) := by
  induction os generalizing a ks with
  | nil =>
      cases ks with
      | nil =>
          obtain rfl := Option.some.inj h
          exact Moves.refl a
      | cons k ks => cases h
  | cons o os ih =>
      cases ks with
      | nil => cases h
      | cons k ks =>
          obtain ⟨a', hput, hputs⟩ := Option.bind_eq_some_iff.mp h
          have hone := moves_putOperand hput
          have hrest := ih hputs
          rw [hone.cc] at hrest
          rw [procedures_cons, places, List.map_append]
          exact hone.trans hrest

/-- The parts of a line: its labels, its opcode, and operands or a table. -/
theorem putLine_cases {l : Line} (h : a.putLine builtins l = some b) :
    ∃ a₁ a₂ ty, a.insertLabels l.labels = some a₁ ∧ opcodeType l.op = some ty ∧
      ty.isImago = false ∧ a₁.putCode l.op = some a₂ ∧
      ((∃ os, l.operands = .plain os ∧ ty ≠ .htab ∧
        a₂.putOperands builtins ty.operands os = some b) ∨
      ∃ t a₃ pairs var, l.operands = .table t ∧ ty = .htab ∧
        a₂.getTable t = some (a₃, pairs, var) ∧ a₃.putTable pairs var = some b) := by
  obtain ⟨a₁, hlabels, h⟩ := Option.bind_eq_some_iff.mp h
  obtain ⟨ty, hty, h⟩ := Option.bind_eq_some_iff.mp h
  by_cases himago : ty.isImago = true
  · rw [if_pos himago] at h
    cases h
  · rw [if_neg himago] at h
    obtain ⟨a₂, hput, h⟩ := Option.bind_eq_some_iff.mp h
    refine ⟨a₁, a₂, ty, hlabels, hty, Bool.not_eq_true _ ▸ himago, hput, ?_⟩
    cases hos : l.operands with
    | plain os =>
        rw [hos] at h
        dsimp only at h
        split_ifs at h with hhtab
        exact Or.inl ⟨os, rfl, hhtab, h⟩
    | table t =>
        rw [hos] at h
        dsimp only at h
        split_ifs at h with hhtab
        obtain ⟨⟨a₃, pairs, var⟩, hget, hputs⟩ := Option.bind_eq_some_iff.mp h
        exact Or.inr ⟨t, a₃, pairs, var, rfl, hhtab, hget, hputs⟩

theorem moves_putLine {l : Line} (h : a.putLine builtins l = some b) :
    Moves a b l.size (places (l.procedures a.cc)) := by
  obtain ⟨a₁, a₂, ty, hlabels, -, -, hput, hrest⟩ := putLine_cases h
  have hmoves := moves_insertLabels hlabels
  have hcc : a₁.cc = a.cc := hmoves.cc
  have hop := hmoves.then (moves_putCode hput)
  rw [Line.size, Line.procedures]
  rcases hrest with ⟨os, hos, -, hputs⟩ | ⟨t, a₃, pairs, var, hos, -, hget, hputs⟩
  · rw [hos]
    have hrest := moves_putOperands hputs
    rw [hop.cc] at hrest
    exact hop.trans hrest
  · rw [hos]
    obtain ⟨htable, hlen⟩ := moves_getTable hget
    have hrest := htable.then (moves_putTable hputs)
    rw [hlen] at hrest
    have hall := hop.trans hrest
    exact ⟨by rw [hall.cc]; dsimp only; omega, hall.procs, hall.requests⟩

theorem moves_putLines {ls : List Line} (h : a.putLines builtins ls = some b) :
    Moves a b (ls.map Line.size).sum (places (proceduresFrom a.cc ls)) := by
  induction ls generalizing a with
  | nil =>
      obtain rfl := Option.some.inj h
      exact Moves.refl a
  | cons l ls ih =>
      obtain ⟨a', hput, hputs⟩ := Option.bind_eq_some_iff.mp h
      have hone := moves_putLine hput
      have hrest := ih hputs
      rw [hone.cc] at hrest
      rw [proceduresFrom, places, List.map_append]
      exact hone.trans hrest

/-- **Every procedure is entered with its place** in the code, and no request is for a cell that
is still to come. -/
theorem procs_translate {p : Source} (h : translate builtins p = some a) :
    a.procs.map Prod.snd = places (proceduresFrom 2 p.lines) ∧ a.RequestsBelow := by
  obtain ⟨a₁, hlabels, h⟩ := Option.bind_eq_some_iff.mp h
  obtain ⟨ty, -, h⟩ := Option.bind_eq_some_iff.mp h
  split_ifs at h
  obtain ⟨a₂, hput, h⟩ := Option.bind_eq_some_iff.mp h
  obtain ⟨⟨a₃, imago⟩, hget, h⟩ := Option.bind_eq_some_iff.mp h
  have hfront := ((moves_insertLabels hlabels).then (moves_putCodes hput)).trans (moves_getFun hget)
  have hrest := moves_putLines h
  have hcc : a₃.cc = 2 := hfront.cc
  have hprocs : a₃.procs.map Prod.snd = [] := hfront.procs
  refine ⟨?_, hrest.requests (hfront.requests fun _ hm => absurd hm List.not_mem_nil)⟩
  rw [hrest.procs]
  show a₃.procs.map Prod.snd ++ places (proceduresFrom a₃.cc p.lines) = _
  rw [hprocs, hcc, List.nil_append]

end Assembler

/-! ## No program is loaded as it was written -/

/-- The loader puts the base of the procedure table where the base of the code belongs. -/
theorem not_preserved {builtins : Name → Option Nat} {p : Assembler.Source}
    {o : Assembler.Object} {block : Int} {img : Image} (ho : assemble builtins p = some o)
    (himg : loadCode block o = some img) : ¬ img.Preserved builtins p := by
  intro hp
  obtain ⟨a, htranslate, hgen⟩ := Option.bind_eq_some_iff.mp ho
  rw [Assembler.codegen] at hgen
  split_ifs at hgen
  obtain rfl := Option.some.inj hgen
  obtain ⟨code, -, rfl⟩ := Option.map_eq_some_iff.mp himg
  have hplaces := (Assembler.procs_translate htranslate).1
  have hprocs := hp.procs
  obtain ⟨e, he, -⟩ := hp.entry
  cases hps : Assembler.proceduresFrom 2 p.lines with
  | nil =>
      rw [hps] at he
      cases he
  | cons f fs =>
      rw [hps] at hplaces hprocs
      cases hap : a.procs with
      | nil =>
          rw [hap] at hplaces
          cases hplaces
      | cons x xs =>
          rw [hap] at hplaces hprocs
          obtain ⟨⟨-, hentry⟩, -⟩ := List.forall₂_cons.mp hprocs
          have hplace : x.2 = (f.2 : Int) := (List.cons.inj hplaces).1
          dsimp only at hentry
          rw [hplace, List.length_cons] at hentry
          omega

/-- **No assembled program is loaded as it was written.** -/
theorem load_not_preserved (builtins : Name → Option Nat) (p : Assembler.Source)
    (o : Assembler.Object) (block : Int) (img : Image) (ho : assemble builtins p = some o)
    (himg : loadCode block o = some img) : ¬ img.Preserved builtins p :=
  not_preserved ho himg

/-- An imago with one procedure, its entry, that proceeds. -/
def oneProcedure : Assembler.Source where
  labels := []
  op := 133
  entry := [109]
  arity := 1
  lines := [⟨[], 135, .plain [.procedure [109] 1]⟩, ⟨[], 6, .plain []⟩]

def oneProcedureObject : Assembler.Object where
  type := 1
  names := [91, 93, 10]
  procs := [(8389487, 4)]
  code := [133, 4, 135, 8389487, 6]

/-- Its block: the procedure begins at address 106, and the procedure table says 104. -/
def oneProcedureImage : Image where
  procBase := 100
  codeBase := 102
  names := [91, 93, 0]
  procs := [(8389487, 104)]
  code := [133, 106, 135, 8389487, 6]

theorem assemble_oneProcedure :
    assemble (fun _ => none) oneProcedure = some oneProcedureObject := by decide

theorem load_oneProcedure : loadCode 100 oneProcedureObject = some oneProcedureImage := by decide

theorem load_not_preserved_oneProcedure :
    ¬ oneProcedureImage.Preserved (fun _ => none) oneProcedure :=
  load_not_preserved _ _ _ 100 _ assemble_oneProcedure load_oneProcedure

theorem procedure_table_misplaced :
    ∃ o img, assemble (fun _ => none) oneProcedure = some o ∧ loadCode 100 o = some img ∧
      img.code[1]? = some 106 ∧ img.procs.map Prod.snd = [104] ∧
      ¬ img.Preserved (fun _ => none) oneProcedure :=
  ⟨_, _, assemble_oneProcedure, load_oneProcedure, rfl, rfl,
    not_preserved assemble_oneProcedure load_oneProcedure⟩

end Mlvm
