import Mlvm.Transport.KnownHosts
import Mathlib.Data.List.Induction
import Mathlib.Tactic.SplitIfs

/-!
# Looking a host up in the file of known hosts

**What a line says** about a host (`heard`): nothing, when its first word does not begin the host
name, or a key. A name with blanks in it makes a line that may say something else, or say nothing
that can be read, and a line that is too long is cut.

**`known_hosts_iff`.** Whatever has been saved, a host gets the key that was first saved for it
exactly when the first line that says a key for it says this one. `load_key` compares no more of the
host name than the name in the file has: when the saved names are plain words, it is the first saved
name that **begins** the host name that counts. `check_save_key` decides as it should by the same
line, but it gives back the key it has taken from the store only when a line was found.
-/

namespace Mlvm.KnownHosts

/-! ## Saved keys -/

/-- A call of `save_key`. -/
structure Save where
  name : List Char
  mask : UInt8
  rsa : Rsa
  dsa : Option Dsa

def Save.key (s : Save) : Key := ⟨s.mask, some s.rsa, s.dsa⟩

/-- The file after calls of `save_key`. -/
def fileOf (saves : List Save) : List Char :=
  saves.foldl (fun file s => (saveKey file s.name s.key).2) []

/-- What is behind the exponent on a line. -/
def Save.tail (s : Save) : List Char := (s.dsa.map Dsa.text).getD [] ++ ['\n']

/-- What is behind the mask on a line. -/
def Save.numbers (s : Save) : List Char :=
  ' ' :: (writeBignum s.rsa.n ++ ' ' :: (writeBignum s.rsa.e ++ s.tail))

def Save.line (s : Save) : List Char :=
  s.name ++ ' ' :: (printHex s.mask.toNat ++ s.numbers)

/-- The name is one word and no comment, and the line fits into the buffer. -/
structure Save.Plain (s : Save) : Prop where
  ne_nil : s.name ≠ []
  noBlank : ∀ c ∈ s.name, isBlank c = false
  oneLine : '\n' ∉ s.name
  noComment : s.name.head? ≠ some '#'
  short : s.line.length ≤ 8191

/-- The names are equal, ignoring case. -/
def Same (name host_name : List Char) : Prop :=
  name.map Char.toLower = host_name.map Char.toLower

/-- The name begins the host name, ignoring case. -/
def Begins (name host_name : List Char) : Prop :=
  name.map Char.toLower <+: host_name.map Char.toLower

instance (name host_name : List Char) : Decidable (Same name host_name) :=
  inferInstanceAs (Decidable (_ = _))

instance (name host_name : List Char) : Decidable (Begins name host_name) :=
  inferInstanceAs (Decidable (_ <+: _))

/-- What was first saved for a host. -/
def recorded (saves : List Save) (host_name : List Char) : Option Save :=
  saves.find? fun s => Same s.name host_name

/-- What was first saved for a name that begins the name of the host. -/
def taken (saves : List Save) (host_name : List Char) : Option Save :=
  saves.find? fun s => Begins s.name host_name

/-- The mask and the RSA numbers. -/
def Save.public (s : Save) : UInt8 × Rsa := (s.mask, s.rsa)

/-- The first name that begins the host name comes with the key of the host. -/
def Unshadowed (saves : List Save) (host_name : List Char) : Prop :=
  (taken saves host_name).map Save.public = (recorded saves host_name).map Save.public

/-! ## What lines say -/

/-- What a line says about a host. -/
inductive Heard where
  /-- Nothing: it names another host, or there is no mask behind the name. -/
  | nothing
  /-- There is a mask behind the name, but there are no two numbers behind the mask. -/
  | broken
  /-- The mask is the last thing in the buffer, and `read_key` runs past it. -/
  | overrun
  | key (p : UInt8 × Rsa)
  deriving DecidableEq

/-- What a key is read from. -/
def heardKey (cp : List Char) : Heard :=
  ((scanHex (cp.dropWhile isBlank)).map fun cipher =>
    ((skipMask (cp.dropWhile isBlank)).map fun cp =>
      (((readBignum cp).bind fun n => (readBignum n.2).map fun e =>
        Heard.key (cipher.toUInt8, ⟨n.1, e.1⟩)).getD .broken)).getD .overrun).getD .nothing

/-- What stands behind the name, on a line whose name is taken for the host. -/
def behindName (host_name line : List Char) : Option (List Char) :=
  let cp := line.dropWhile isBlank
  if cp = [] ∨ cp.head? = some '#' ∨ cp.head? = some '\n' then none
  else if strncaseeq host_name cp (cp.takeWhile fun c => !isBlank c).length then
    some (cp.dropWhile fun c => !isBlank c)
  else none

/-- What a line says about a host. -/
def heard (host_name line : List Char) : Heard :=
  (behindName host_name line).elim .nothing heardKey

/-- The lines that `fgets` reads, for a bound on their number. -/
def linesFrom : ℕ → List Char → List (List Char)
  | 0, _ => []
  | fuel + 1, file =>
    let r := fgets 8191 file
    if r.1 = [] then [] else r.1 :: linesFrom fuel r.2

/-- The lines of a file. -/
def lines (file : List Char) : List (List Char) := linesFrom file.length file

def Heard.isAnswer : Heard → Bool
  | key _ | overrun => true
  | nothing | broken => false

/-- What the first line says that says a key for the host. -/
def answer (saves : List Save) (host_name : List Char) : Option Heard :=
  ((lines (fileOf saves)).map (heard host_name)).find? Heard.isAnswer

/-- The first line that says a key for the host says the one that was first saved for it. -/
def Answered (saves : List Save) (host_name : List Char) : Prop :=
  answer saves host_name = (recorded saves host_name).map fun s => .key s.public

/-! ## Reading fields -/

theorem takeWhile_stop {p : Char → Bool} {ds rest : List Char} (hds : ∀ c ∈ ds, p c = true)
    (hrest : rest.head?.all fun c => !p c) : (ds ++ rest).takeWhile p = ds := by
  rw [List.takeWhile_append_of_pos hds]
  cases rest with
  | nil => simp
  | cons c rest =>
    rw [List.takeWhile_cons_of_neg (by simpa using hrest), List.append_nil]

theorem dropWhile_stop {p : Char → Bool} {ds rest : List Char} (hds : ∀ c ∈ ds, p c = true)
    (hrest : rest.head?.all fun c => !p c) : (ds ++ rest).dropWhile p = rest := by
  rw [List.dropWhile_append_of_pos hds]
  cases rest with
  | nil => rfl
  | cons c rest => rw [List.dropWhile_cons_of_neg (by simpa using hrest)]

theorem isDigit_printNat {n : ℕ} : ∀ c ∈ printNat n, c.isDigit = true :=
  fun _ hc => Nat.isDigit_of_mem_toDigits (by decide) (by decide) hc

theorem isBlank_of_isDigit {c : Char} (h : c.isDigit = true) : isBlank c = false := by
  by_contra hblank
  rw [Bool.not_eq_false, isBlank, decide_eq_true_eq] at hblank
  rcases hblank with rfl | rfl <;> cases h

theorem noBlank_printNat (n : ℕ) (rest : List Char) :
    (printNat n ++ rest).head?.all fun c => !isBlank c := by
  cases hds : printNat n with
  | nil => exact absurd hds Nat.toDigits_ne_nil
  | cons c cs =>
    have hc := isDigit_printNat (n := n) c (by rw [hds]; exact List.mem_cons_self ..)
    simp [isBlank_of_isDigit hc]

theorem dropBlanks_cons {rest : List Char} (hrest : rest.head?.all fun c => !isBlank c) :
    (' ' :: rest).dropWhile isBlank = rest := by
  have hblank : ∀ c ∈ [' '], isBlank c = true := List.forall_mem_singleton.2 rfl
  exact dropWhile_stop hblank hrest

/-- A number is read back as it was written. -/
theorem readBignum_write (n : ℕ) {rest : List Char}
    (hrest : rest.head?.all fun c => !c.isDigit) :
    readBignum (' ' :: (writeBignum n ++ rest)) = some (n, rest) := by
  have hbits : (' ' :: (writeBignum n ++ rest)).dropWhile isBlank =
      printNat n.size ++ ' ' :: (printNat n ++ rest) := by
    rw [writeBignum, List.append_assoc, List.cons_append]
    exact dropBlanks_cons (noBlank_printNat ..)
  have hskip : (printNat n.size ++ ' ' :: (printNat n ++ rest)).dropWhile Char.isDigit =
      ' ' :: (printNat n ++ rest) :=
    dropWhile_stop isDigit_printNat (by rfl)
  have hne : printNat n ≠ [] := Nat.toDigits_ne_nil
  simp only [readBignum, hbits, hskip, dropBlanks_cons (noBlank_printNat n rest),
    takeWhile_stop isDigit_printNat hrest, dropWhile_stop isDigit_printNat hrest, if_neg hne]
  rw [printNat, Nat.ofDigitChars_ten_toDigits]

/-! ## The mask -/

theorem isSpace_of_hexValue {c : Char} (h : (hexValue c).isSome = true) : isSpace c = false := by
  by_contra hspace
  rw [Bool.not_eq_false] at hspace
  have hlow : c.toNat ≤ 32 := by
    simp only [isSpace, isBlank, decide_eq_true_eq] at hspace
    rcases hspace with (rfl | rfl) | rfl | h | h | rfl <;> first | decide | omega
  have hdigit : 48 ≤ c.toNat := by
    simp only [hexValue, Char.isDigit] at h
    split_ifs at h with h1 h2 h3
    · simp only [Bool.and_eq_true, decide_eq_true_eq] at h1
      exact h1.1
    · exact Nat.le_trans (by decide) (show 65 ≤ c.toNat from h2.1)
    · exact Nat.le_trans (by decide) (show 97 ≤ c.toNat from h3.1)
    · cases h
  omega

/-- Hexadecimal digits up to a blank are read. -/
theorem scanHex_write {ds rest : List Char} (hne : ds ≠ [])
    (hds : ∀ c ∈ ds, (hexValue c).isSome = true) :
    scanHex (ds ++ ' ' :: rest) = some (hexNumber ds) := by
  obtain ⟨c, cs, rfl⟩ := List.exists_cons_of_ne_nil hne
  have hc := hds c (List.mem_cons_self ..)
  have hspace : (c :: cs ++ ' ' :: rest).dropWhile isSpace = c :: (cs ++ ' ' :: rest) := by
    rw [List.cons_append, List.dropWhile_cons_of_neg (by rw [isSpace_of_hexValue hc]; decide)]
  have hsign : scanSign (c :: (cs ++ ' ' :: rest)) = (false, c :: (cs ++ ' ' :: rest)) := by
    rw [scanSign]
    · intro s heq
      obtain ⟨rfl, -⟩ := List.cons.inj heq
      exact absurd hc (by decide)
    · intro s heq
      obtain ⟨rfl, -⟩ := List.cons.inj heq
      exact absurd hc (by decide)
  have hsecond : ∀ x s, (hexValue x).isSome = false → x ≠ ' ' → cs ++ ' ' :: rest ≠ x :: s := by
    intro x s hx hblank heq
    cases cs with
    | nil => exact hblank (List.cons.inj heq).1.symm
    | cons d cs =>
      obtain ⟨rfl, -⟩ := List.cons.inj heq
      rw [hds d (by simp)] at hx
      cases hx
  have hprefix : scanPrefix (c :: (cs ++ ' ' :: rest)) = c :: (cs ++ ' ' :: rest) := by
    rw [scanPrefix]
    · intro s heq
      exact hsecond 'x' s (by decide) (by decide) (List.cons.inj heq).2
    · intro s heq
      exact hsecond 'X' s (by decide) (by decide) (List.cons.inj heq).2
  have hstop : (c :: (cs ++ ' ' :: rest)).takeWhile (fun c => (hexValue c).isSome) = c :: cs := by
    rw [← List.cons_append]
    exact takeWhile_stop hds (by rfl)
  simp only [scanHex, hspace, hsign, hprefix, hstop, if_neg hne, Bool.false_eq_true, if_false]

theorem printHex_mask (m : UInt8) : printHex m.toNat ≠ [] ∧
    (∀ c ∈ printHex m.toNat, (hexValue c).isSome = true) ∧
    (hexNumber (printHex m.toNat)).toUInt8 = m := by
  -- all masks are tried: they are bytes
  have hall : (List.range 256).all (fun n => !(printHex n).isEmpty &&
      (printHex n).all (fun c => (hexValue c).isSome) &&
      (hexNumber (printHex n)).toUInt8 == UInt8.ofNat n) = true := by
    decide +kernel
  have hm := List.all_eq_true.1 hall m.toNat (List.mem_range.2 m.toNat_lt)
  simp only [Bool.and_eq_true, Bool.not_eq_true', List.isEmpty_eq_false_iff, List.all_eq_true,
    beq_iff_eq, UInt8.ofNat_toNat] at hm
  exact ⟨hm.1.1, hm.1.2, hm.2⟩

/-! ## A line -/

theorem Save.tail_head (s : Save) : s.tail.head?.all fun c => !c.isDigit := by
  rw [Save.tail]
  cases s.dsa <;> rfl

/-- What `save_key` writes is read back. -/
theorem heardKey_line (s : Save) :
    heardKey (' ' :: (printHex s.mask.toNat ++ s.numbers)) = .key s.public := by
  obtain ⟨hne, hhex, hmask⟩ := printHex_mask s.mask
  have hblank : (' ' :: (printHex s.mask.toNat ++ s.numbers)).dropWhile isBlank =
      printHex s.mask.toNat ++ s.numbers := by
    apply dropBlanks_cons
    obtain ⟨c, cs, hds⟩ := List.exists_cons_of_ne_nil hne
    rw [hds] at hhex ⊢
    have hspace := isSpace_of_hexValue (hhex c (List.mem_cons_self ..))
    simp only [isSpace, Bool.decide_or, Bool.or_eq_false_iff] at hspace
    simpa using hspace.1
  have hskip : skipMask (printHex s.mask.toNat ++ s.numbers) = some s.numbers := by
    have hdrop : (printHex s.mask.toNat ++ s.numbers).dropWhile (fun c => !isSpace c) =
        s.numbers := by
      refine dropWhile_stop (fun c hc => ?_) (by rfl)
      rw [isSpace_of_hexValue (hhex c hc), Bool.not_false]
    simp only [skipMask, hdrop]
    rfl
  have hscan : scanHex (printHex s.mask.toNat ++ s.numbers) =
      some (hexNumber (printHex s.mask.toNat)) := scanHex_write hne hhex
  have hn : readBignum s.numbers = some (s.rsa.n, ' ' :: (writeBignum s.rsa.e ++ s.tail)) :=
    readBignum_write s.rsa.n (by rfl)
  have he := readBignum_write s.rsa.e s.tail_head
  simp only [heardKey, hblank, hscan, hskip, hn, he, hmask, Option.map_some, Option.bind_some,
    Option.getD_some, Save.public]

/-- A name is compared up to the end of the name in the file. -/
theorem strncaseeq_iff (host_name name rest : List Char) :
    strncaseeq host_name (name ++ rest) name.length = true ↔ Begins name host_name := by
  induction name generalizing host_name with
  | nil => simp [strncaseeq, Begins]
  | cons a name ih =>
    cases host_name with
    | nil => simp [strncaseeq, Begins]
    | cons b host_name =>
      rw [List.length_cons, List.cons_append, strncaseeq, Bool.and_eq_true, ih host_name,
        decide_eq_true_eq, Begins, Begins, List.map_cons, List.map_cons, List.cons_prefix_cons,
        eq_comm]

/-- `fgets` reads a line that fits. -/
theorem fgets_line {l file : List Char} {n : ℕ} (hl : '\n' ∉ l) (hn : l.length < n) :
    fgets n (l ++ '\n' :: file) = (l ++ ['\n'], file) := by
  induction l generalizing n with
  | nil =>
    obtain ⟨n, rfl⟩ := Nat.exists_eq_succ_of_ne_zero (Nat.ne_zero_of_lt hn)
    rfl
  | cons c l ih =>
    obtain ⟨n, rfl⟩ := Nat.exists_eq_succ_of_ne_zero (Nat.ne_zero_of_lt hn)
    have hc : c ≠ '\n' := by
      rintro rfl
      exact hl (List.mem_cons_self ..)
    rw [List.cons_append, fgets, if_neg hc,
      ih (fun h => hl (List.mem_cons_of_mem c h)) (Nat.lt_of_succ_lt_succ hn)]
    rfl

theorem noNewline_writeBignum (n : ℕ) : '\n' ∉ writeBignum n := by
  have hdigits (m : ℕ) : '\n' ∉ printNat m := by
    intro h
    exact absurd (isDigit_printNat _ h) (by decide)
  simp [writeBignum, hdigits]

/-- A line without its end. -/
def Save.text (s : Save) : List Char :=
  s.name ++ ' ' :: (printHex s.mask.toNat ++ ' ' :: (writeBignum s.rsa.n ++
    ' ' :: (writeBignum s.rsa.e ++ (s.dsa.map Dsa.text).getD [])))

theorem Save.line_eq (s : Save) : s.line = s.text ++ ['\n'] := by
  simp [Save.line, Save.text, Save.numbers, Save.tail]

theorem Save.Plain.noNewline {s : Save} (h : s.Plain) : '\n' ∉ s.text := by
  have hhex : '\n' ∉ printHex s.mask.toNat := by
    intro hmem
    exact absurd ((printHex_mask s.mask).2.1 _ hmem) (by decide)
  have hdsa : '\n' ∉ (s.dsa.map Dsa.text).getD [] := by
    cases s.dsa with
    | none => simp
    | some dsa => simp [Dsa.text, noNewline_writeBignum]
  simp [Save.text, h.oneLine, hhex, hdsa, noNewline_writeBignum]

/-- **A plain line** says the key that was saved, for every host that its name begins. -/
theorem heard_line {s : Save} (h : s.Plain) (host_name : List Char) :
    heard host_name s.line = if Begins s.name host_name then .key s.public else .nothing := by
  obtain ⟨c, cs, hname⟩ := List.exists_cons_of_ne_nil h.ne_nil
  have hblank : isBlank c = false := h.noBlank c (by rw [hname]; exact List.mem_cons_self ..)
  have hdrop : s.line.dropWhile isBlank = s.line := by
    rw [Save.line, hname, List.cons_append, List.dropWhile_cons_of_neg (by rw [hblank]; decide)]
  have hhead : s.line.head? = s.name.head? := by
    rw [Save.line, hname]
    rfl
  have hword : ∀ c ∈ s.name, (!isBlank c) = true := by
    intro c hc
    rw [h.noBlank c hc, Bool.not_false]
  have htake : s.line.takeWhile (fun c => !isBlank c) = s.name := takeWhile_stop hword (by rfl)
  have hrest : s.line.dropWhile (fun c => !isBlank c) =
      ' ' :: (printHex s.mask.toNat ++ s.numbers) := dropWhile_stop hword (by rfl)
  have hne : s.line ≠ [] := by
    rw [Save.line, hname]
    exact List.cons_ne_nil _ _
  have hnl : s.name.head? ≠ some '\n' := by
    intro hnl
    exact h.oneLine (List.mem_of_mem_head? hnl)
  have hbegins : strncaseeq host_name s.line s.name.length = true ↔ Begins s.name host_name :=
    strncaseeq_iff ..
  simp only [heard, behindName, hne, hdrop, hhead, h.noComment, hnl, htake, hrest, hbegins,
    if_false, or_self]
  split_ifs
  · exact heardKey_line s
  · rfl

theorem fgets_plain {s : Save} (h : s.Plain) (file : List Char) :
    fgets 8191 (s.line ++ file) = (s.line, file) := by
  have hlen := h.short
  rw [s.line_eq, List.length_append] at hlen
  rw [s.line_eq, List.append_assoc]
  exact fgets_line h.noNewline hlen

/-! ## The key -/

/-- What comes of a search, by what the lines say. -/
def Gives (r : Option (Bool × Option Key)) : Option Heard → Prop
  | none => ∃ key, r = some (false, some key)
  | some (.key p) => ∃ key, r = some (true, some key) ∧ key.cipher_mask = p.1 ∧ key.rsa = some p.2
  | some _ => r = none

/-- `read_key` reads what there is to hear. -/
theorem readKey_heard (sign : Bool) (key : Key) (cp : List Char) :
    Gives (readKey sign (some key) cp)
      (if (heardKey cp).isAnswer then some (heardKey cp) else none) := by
  cases hscan : scanHex (cp.dropWhile isBlank) with
  | none =>
    have hheard : heardKey cp = .nothing := by simp [heardKey, hscan]
    rw [hheard]
    exact ⟨key, by simp [readKey, hscan]⟩
  | some cipher =>
    cases hskip : skipMask (cp.dropWhile isBlank) with
    | none =>
      have hheard : heardKey cp = .overrun := by simp [heardKey, hscan, hskip]
      have hread : readKey sign (some key) cp = none := by simp [readKey, hscan, hskip]
      rw [hheard, hread]
      exact rfl
    | some cp' =>
      cases hn : readBignum cp' with
      | none =>
        have hheard : heardKey cp = .broken := by simp [heardKey, hscan, hskip, hn]
        rw [hheard]
        exact ⟨_, by
          simp only [readKey, hscan, hskip, Option.bind_eq_bind, Option.bind_some, hn]; rfl⟩
      | some n =>
        obtain ⟨n, cp''⟩ := n
        cases he : readBignum cp'' with
        | none =>
          have hheard : heardKey cp = .broken := by simp [heardKey, hscan, hskip, hn, he]
          rw [hheard]
          exact ⟨_, by
            simp only [readKey, hscan, hskip, Option.bind_eq_bind, Option.bind_some, hn, he]; rfl⟩
        | some e =>
          have hheard : heardKey cp = .key (cipher.toUInt8, ⟨n, e.1⟩) := by
            simp [heardKey, hscan, hskip, hn, he]
          rw [hheard]
          refine ⟨_, by
            simp only [readKey, hscan, hskip, Option.bind_eq_bind, Option.bind_some, hn, he]; rfl,
            ?_, ?_⟩ <;> cases sign <;> rfl

/-- Without a key there must be nothing to read. -/
theorem readKey_none (sign : Bool) (cp : List Char) :
    readKey sign none cp = if heardKey cp = .nothing then some (false, none) else none := by
  cases hscan : scanHex (cp.dropWhile isBlank) with
  | none => simp [heardKey, readKey, hscan]
  | some cipher =>
    have hne : heardKey cp ≠ .nothing := by
      cases hskip : skipMask (cp.dropWhile isBlank) with
      | none => simp [heardKey, hscan, hskip]
      | some cp' =>
        cases hn : readBignum cp' with
        | none => simp [heardKey, hscan, hskip, hn]
        | some n => cases he : readBignum n.2 <;> simp [heardKey, hscan, hskip, hn, he]
    rw [if_neg hne]
    simp [readKey, hscan]

/-! ## The search -/

/-- One round of `load_key`. -/
theorem loadFrom_succ (sign : Bool) (host_name file : List Char) (fuel : ℕ) (key : Option Key) :
    loadFrom sign host_name (fuel + 1) file key =
      if (fgets 8191 file).1 = [] then some (false, key)
      else (behindName host_name (fgets 8191 file).1).elim
        (loadFrom sign host_name fuel (fgets 8191 file).2 key) fun cp =>
          (readKey sign key cp).bind fun r =>
            if r.1 then some (true, r.2)
            else loadFrom sign host_name fuel (fgets 8191 file).2 r.2 := by
  simp only [loadFrom, behindName]
  split_ifs <;> rfl

/-- **The first answer** is what comes of the search. -/
theorem loadFrom_gives (sign : Bool) (host_name : List Char) (fuel : ℕ) (file : List Char)
    (key : Key) : Gives (loadFrom sign host_name fuel file (some key))
      (((linesFrom fuel file).map (heard host_name)).find? Heard.isAnswer) := by
  induction fuel generalizing file key with
  | zero => exact ⟨key, rfl⟩
  | succ fuel ih =>
    rw [loadFrom_succ, linesFrom]
    split_ifs with hline
    · exact ⟨key, rfl⟩
    · rw [List.map_cons, List.find?_cons, heard]
      cases behindName host_name (fgets 8191 file).1 with
      | none => exact ih _ key
      | some cp =>
        have hkey := readKey_heard sign key cp
        simp only [Option.elim_some]
        cases hans : (heardKey cp).isAnswer with
        | false =>
          rw [hans] at hkey
          obtain ⟨key', hread⟩ := hkey
          rw [hread]
          exact ih _ key'
        | true =>
          rw [hans, if_pos rfl] at hkey
          cases hheard : heardKey cp with
          | key p =>
            rw [hheard] at hkey
            obtain ⟨key', hread, hpublic⟩ := hkey
            exact ⟨key', by rw [hread]; rfl, hpublic⟩
          | overrun =>
            rw [hheard] at hkey
            have hread : readKey sign (some key) cp = none := hkey
            show Option.bind _ _ = none
            rw [hread, Option.bind_none]
          | nothing => rw [hheard] at hans; cases hans
          | broken => rw [hheard] at hans; cases hans

/-- Without a key there must be nothing to read on any line. -/
theorem loadFrom_none (sign : Bool) (host_name : List Char) (fuel : ℕ) (file : List Char) :
    loadFrom sign host_name fuel file none =
      if ∀ l ∈ linesFrom fuel file, heard host_name l = .nothing then some (false, none)
      else none := by
  induction fuel generalizing file with
  | zero => rw [loadFrom, linesFrom, if_pos (by simp)]
  | succ fuel ih =>
    rw [loadFrom_succ, linesFrom]
    by_cases hline : (fgets 8191 file).1 = []
    · rw [if_pos hline, if_pos hline, if_pos (by simp)]
    · rw [if_neg hline, if_neg hline]
      cases hbehind : behindName host_name (fgets 8191 file).1 with
      | none =>
        rw [Option.elim_none, ih]
        exact if_congr (by simp [heard, hbehind]) rfl rfl
      | some cp =>
        rw [Option.elim_some, readKey_none]
        by_cases hcp : heardKey cp = .nothing
        · rw [if_pos hcp, Option.bind_some, if_neg (by simp), ih]
          exact if_congr (by simp [heard, hbehind, hcp]) rfl rfl
        · rw [if_neg hcp, Option.bind_none, if_neg]
          intro hall
          have hline := hall _ (List.mem_cons_self ..)
          rw [heard, hbehind, Option.elim_some] at hline
          exact hcp hline

/-! ## The file -/

theorem saveKey_eq (file : List Char) (s : Save) :
    saveKey file s.name s.key = (true, file ++ s.line) := by
  simp [saveKey, Save.key, Save.line, Save.numbers, Save.tail]

theorem fileOf_append (saves : List Save) (s : Save) :
    fileOf (saves ++ [s]) = fileOf saves ++ s.line := by
  rw [fileOf, List.foldl_append, ← fileOf, List.foldl_cons, List.foldl_nil, saveKey_eq]

theorem fileOf_eq (saves : List Save) : fileOf saves = saves.flatMap Save.line := by
  induction saves using List.reverseRecOn with
  | nil => rfl
  | append_singleton saves s ih =>
    rw [fileOf_append, ih, List.flatMap_append, List.flatMap_singleton]

theorem linesFrom_flatMap {saves : List Save} (hplain : ∀ s ∈ saves, s.Plain) {fuel : ℕ}
    (hfuel : saves.length ≤ fuel) :
    linesFrom fuel (saves.flatMap Save.line) = saves.map Save.line := by
  induction saves generalizing fuel with
  | nil => cases fuel <;> rfl
  | cons s saves ih =>
    obtain ⟨fuel, rfl⟩ := Nat.exists_eq_succ_of_ne_zero (Nat.ne_zero_of_lt hfuel)
    have hne : s.line ≠ [] := by
      rw [s.line_eq]
      exact List.append_ne_nil_of_right_ne_nil _ (List.cons_ne_nil _ _)
    have hrest := ih (fun s hs => hplain s (List.mem_cons_of_mem _ hs))
      (Nat.le_of_succ_le_succ hfuel)
    simp only [List.flatMap_cons, linesFrom, fgets_plain (hplain s (List.mem_cons_self ..)),
      if_neg hne, hrest, List.map_cons]

theorem length_le_fileOf (saves : List Save) : saves.length ≤ (fileOf saves).length := by
  rw [fileOf_eq]
  induction saves with
  | nil => exact Nat.le_refl _
  | cons s saves ih =>
    rw [List.flatMap_cons, List.length_append, List.length_cons, s.line_eq, List.length_append,
      List.length_singleton]
    omega

/-- **Plain names**: the answer comes from the first name that begins the host name. -/
theorem answer_plain {saves : List Save} (hplain : ∀ s ∈ saves, s.Plain) (host_name : List Char) :
    answer saves host_name = (taken saves host_name).map fun s => .key s.public := by
  have hlines : lines (fileOf saves) = saves.map Save.line := by
    have hlen := length_le_fileOf saves
    rw [fileOf_eq] at hlen
    rw [lines, fileOf_eq]
    exact linesFrom_flatMap hplain hlen
  rw [answer, hlines, taken]
  clear hlines
  induction saves with
  | nil => rfl
  | cons s saves ih =>
    rw [List.map_cons, List.map_cons, List.find?_cons, List.find?_cons,
      heard_line (hplain s (List.mem_cons_self ..))]
    by_cases hbegins : Begins s.name host_name
    · rw [if_pos hbegins, decide_eq_true hbegins]
      rfl
    · rw [if_neg hbegins, decide_eq_false hbegins]
      exact ih fun s hs => hplain s (List.mem_cons_of_mem _ hs)

/-- For plain names an answer is right when no other name comes first. -/
theorem answered_iff {saves : List Save} (hplain : ∀ s ∈ saves, s.Plain) (host_name : List Char) :
    Answered saves host_name ↔ Unshadowed saves host_name := by
  have hkey (o : Option Save) : (o.map fun s => Heard.key s.public) =
      (o.map Save.public).map Heard.key := by
    rw [Option.map_map]
    rfl
  rw [Answered, answer_plain hplain, hkey, hkey, Unshadowed]
  refine ⟨fun h => Option.map_injective ?_ h, congrArg _⟩
  intro p q hpq
  injection hpq

/-! ## Properties -/

/-- `load_key` gives a host what was first saved for it, and fails when nothing was. -/
def LoadsRight (sign : Bool) (saves : List Save) (host_name : List Char) : Prop :=
  ∀ key, ∃ key', loadKey sign (fileOf saves) host_name (some key) =
      some ((recorded saves host_name).isSome, some key') ∧
    ∀ s ∈ recorded saves host_name, key'.cipher_mask = s.mask ∧ key'.rsa = some s.rsa

/-- `check_save_key` accepts the key of a new host, which it saves, and the recorded key of a known
one; and it gives back the key that it has taken from the store. -/
def ChecksRight (sign : Bool) (saves : List Save) (keymap : Keymap) (test : Save) : Prop :=
  ∃ accepted, checkSaveKey sign ⟨fileOf saves, keymap⟩ test.name test.key =
      some (accepted, ⟨fileOf (saves ++ (if (recorded saves test.name).isSome then [] else [test])),
        keymap⟩) ∧
    (accepted = true ↔ ∀ s ∈ recorded saves test.name, test.rsa = s.rsa)

/-- A key of the store is not in use. -/
def HasKey (keymap : Keymap) : Prop := ∃ i < 32, keymap i = false

variable {saves : List Save} {host_name : List Char} {sign : Bool} {keymap : Keymap}

/-- **Loading** is right exactly when the first line that says a key says the right one. -/
theorem loadsRight_iff : LoadsRight sign saves host_name ↔ Answered saves host_name := by
  have hgives (key : Key) : Gives (loadKey sign (fileOf saves) host_name (some key))
      (answer saves host_name) := loadFrom_gives ..
  rw [Answered]
  constructor
  · intro h
    obtain ⟨key, hload, hkey⟩ := h .clear
    have hgive := hgives .clear
    rw [hload] at hgive
    cases hanswer : answer saves host_name with
    | none =>
      rw [hanswer] at hgive
      obtain ⟨key', hfound⟩ := hgive
      simp only [Option.some.injEq, Prod.mk.injEq, Option.isSome_eq_false_iff,
        Option.isNone_iff_eq_none] at hfound
      rw [hfound.1, Option.map_none]
    | some p =>
      rw [hanswer] at hgive
      cases p with
      | key p =>
        obtain ⟨key', hfound, hmask, hrsa⟩ := hgive
        simp only [Option.some.injEq, Prod.mk.injEq] at hfound
        obtain ⟨s, hs⟩ := Option.isSome_iff_exists.1 hfound.1
        obtain ⟨hmask', hrsa'⟩ := hkey s hs
        rw [hfound.2] at hmask' hrsa'
        have hp : p = s.public := Prod.ext (hmask.symm.trans hmask')
          (Option.some.inj (hrsa.symm.trans hrsa'))
        rw [hs, Option.map_some, hp]
      | _ => cases hgive
  · intro h key
    have hgive := hgives key
    rw [h] at hgive
    cases hrecorded : recorded saves host_name with
    | none =>
      rw [hrecorded] at hgive
      obtain ⟨key', hfound⟩ := hgive
      exact ⟨key', hfound, fun s hs => by cases hs⟩
    | some s =>
      rw [hrecorded] at hgive
      obtain ⟨key', hfound, hmask, hrsa⟩ := hgive
      refine ⟨key', hfound, fun t ht => ?_⟩
      obtain rfl := Option.some.inj ht
      exact ⟨hmask, hrsa⟩

theorem keyNew_cases (keymap : Keymap) :
    (¬ HasKey keymap ∧ keyNew keymap = (none, keymap)) ∨
    ∃ i < 32, keymap i = false ∧ keyNew keymap = (some i, Function.update keymap i true) := by
  rw [keyNew]
  cases hfind : (List.range 32).find? fun i => !keymap i with
  | none =>
    refine .inl ⟨?_, rfl⟩
    rintro ⟨i, hi, hfree⟩
    have hused := List.find?_eq_none.1 hfind i (List.mem_range.2 hi)
    rw [hfree] at hused
    exact hused rfl
  | some i =>
    have hi := List.mem_range.1 (List.mem_of_find?_eq_some hfind)
    have hfree := List.find?_some hfind
    exact .inr ⟨i, hi, by simpa using hfree, rfl⟩

theorem keyFree_new {i : ℕ} (h : keymap i = false) :
    keyFree (Function.update keymap i true) i = keymap := by
  rw [keyFree, Function.update_idem, ← h, Function.update_eq_self]

theorem ne_update {i : ℕ} (h : keymap i = false) : Function.update keymap i true ≠ keymap := by
  intro heq
  have hi := congrFun heq i
  rw [Function.update_self, h] at hi
  cases hi

/-- When a check is right: a line was found and it says yes or no as what was recorded does, or no
line says anything of a host for which nothing was recorded and there was no key to be had. -/
def Checkable (saves : List Save) (keymap : Keymap) (test : Save) : Prop :=
  (HasKey keymap ∧ ∃ p s, answer saves test.name = some (.key p) ∧
    recorded saves test.name = some s ∧ (test.rsa = p.2 ↔ test.rsa = s.rsa)) ∨
  (¬ HasKey keymap ∧ recorded saves test.name = none ∧
    ∀ l ∈ lines (fileOf saves), heard test.name l = .nothing)

/-- A line that is written changes the file. -/
theorem fileOf_append_ne (saves : List Save) (s : Save) : fileOf (saves ++ [s]) ≠ fileOf saves := by
  intro heq
  have hlen := congrArg List.length heq
  rw [fileOf_append, List.length_append, s.line_eq, List.length_append,
    List.length_singleton] at hlen
  omega

/-- A new key is saved. -/
theorem checksRight_new (test : Save) {k : Keymap}
    (hrun : checkSaveKey sign ⟨fileOf saves, keymap⟩ test.name test.key =
      some (true, ⟨fileOf (saves ++ [test]), k⟩)) :
    ChecksRight sign saves keymap test ↔ recorded saves test.name = none ∧ k = keymap := by
  rw [ChecksRight, hrun]
  cases recorded saves test.name with
  | none => simp
  | some s => simp [fileOf_append_ne saves test]

/-- A key is compared. -/
theorem checksRight_known (test : Save) (rsa : Rsa)
    (hrun : checkSaveKey sign ⟨fileOf saves, keymap⟩ test.name test.key =
      some (decide (test.rsa = rsa), ⟨fileOf saves, keymap⟩)) :
    ChecksRight sign saves keymap test ↔
      ∃ s, recorded saves test.name = some s ∧ (test.rsa = rsa ↔ test.rsa = s.rsa) := by
  rw [ChecksRight, hrun]
  cases recorded saves test.name with
  | none => simp [(fileOf_append_ne saves test).symm]
  | some s => simp

/-- **Checking**, exactly. -/
theorem checksRight_iff (test : Save) :
    ChecksRight sign saves keymap test ↔ Checkable saves keymap test := by
  rcases keyNew_cases keymap with ⟨hkey, hnew⟩ | ⟨i, hi, hfree, hnew⟩
  · have hload : loadKey sign (fileOf saves) test.name none =
        if ∀ l ∈ lines (fileOf saves), heard test.name l = .nothing then some (false, none)
        else none := loadFrom_none ..
    by_cases hall : ∀ l ∈ lines (fileOf saves), heard test.name l = .nothing
    · rw [if_pos hall] at hload
      rw [checksRight_new test (k := keymap)
        (by simp [checkSaveKey, hnew, hload, saveKey_eq, fileOf_append]), Checkable]
      simpa [hkey] using fun _ => hall
    · rw [if_neg hall] at hload
      have hrun : checkSaveKey sign ⟨fileOf saves, keymap⟩ test.name test.key = none := by
        simp [checkSaveKey, hnew, hload]
      rw [ChecksRight, hrun, Checkable]
      simp [hkey, hall]
  · have hhas : HasKey keymap := ⟨i, hi, hfree⟩
    have hgives : Gives (loadKey sign (fileOf saves) test.name (some .clear))
        (answer saves test.name) := loadFrom_gives ..
    rw [Checkable]
    cases hanswer : answer saves test.name with
    | none =>
      rw [hanswer] at hgives
      obtain ⟨key, hload⟩ := hgives
      rw [checksRight_new test (k := Function.update keymap i true)
        (by simp [checkSaveKey, hnew, hload, saveKey_eq, fileOf_append])]
      simp [hhas, ne_update hfree]
    | some p =>
      rw [hanswer] at hgives
      cases p with
      | key p =>
        obtain ⟨key, hload, -, hrsa⟩ := hgives
        have hrun : checkSaveKey sign ⟨fileOf saves, keymap⟩ test.name test.key =
            some (decide (test.rsa = p.2), ⟨fileOf saves, keymap⟩) := by
          rcases hp : p.2 with ⟨n, e⟩
          rcases ht : test.rsa with ⟨n', e'⟩
          rw [hp] at hrsa
          by_cases hn : n' = n <;> by_cases he : e' = e <;>
            simp [checkSaveKey, hnew, hload, hrsa, Save.key, ht, hn, he, keyFree_new hfree]
        rw [checksRight_known test p.2 hrun]
        simp [hhas]
      | _ =>
        have hload : loadKey sign (fileOf saves) test.name (some .clear) = none := hgives
        have hrun : checkSaveKey sign ⟨fileOf saves, keymap⟩ test.name test.key = none := by
          simp [checkSaveKey, hnew, hload]
        rw [ChecksRight, hrun]
        simp [hhas]

/-- **Known hosts.** Whatever has been saved: a host gets its key exactly when the first line that
says a key for it says this one, which for plain names is a matter of the first name that begins its
name; and a key is checked rightly exactly when it is `Checkable`. -/
theorem known_hosts_iff (sign : Bool) (saves : List Save) :
    (∀ host_name, LoadsRight sign saves host_name ↔ Answered saves host_name) ∧
    ((∀ s ∈ saves, s.Plain) → ∀ host_name,
      Answered saves host_name ↔ Unshadowed saves host_name) ∧
    ∀ keymap test, ChecksRight sign saves keymap test ↔ Checkable saves keymap test :=
  ⟨fun _ => loadsRight_iff, answered_iff, fun _ => checksRight_iff⟩

/-- A host `a` with the modulus 35 and the exponent 5. -/
def hostA : Save := ⟨['a'], 255, ⟨35, 5⟩, none⟩

/-- A host `ab` with the modulus 77 and the exponent 7. -/
def hostAB : Save := ⟨['a', 'b'], 15, ⟨77, 7⟩, none⟩

theorem hostA_plain : hostA.Plain :=
  ⟨by decide, List.forall_mem_singleton.2 rfl, by decide, by decide, by decide +kernel⟩

theorem hostAB_plain : hostAB.Plain :=
  ⟨by decide, List.forall_mem_cons.2 ⟨rfl, List.forall_mem_singleton.2 rfl⟩, by decide, by decide,
    by decide +kernel⟩

/-- The host `ab` gets its key when it was saved before the host `a`, not when it was saved after.
-/
theorem known_hosts_iff_two : LoadsRight true [hostAB, hostA] ['a', 'b'] ∧
    ¬ LoadsRight true [hostA, hostAB] ['a', 'b'] := by
  have hplain : ∀ s ∈ [hostAB, hostA], s.Plain :=
    List.forall_mem_cons.2 ⟨hostAB_plain, List.forall_mem_singleton.2 hostA_plain⟩
  have hplain' : ∀ s ∈ [hostA, hostAB], s.Plain :=
    List.forall_mem_cons.2 ⟨hostA_plain, List.forall_mem_singleton.2 hostAB_plain⟩
  constructor
  · rw [(known_hosts_iff true [hostAB, hostA]).1, (known_hosts_iff true _).2.1 hplain]
    rfl
  · rw [(known_hosts_iff true [hostA, hostAB]).1, (known_hosts_iff true _).2.1 hplain']
    intro h
    cases h

/-- The host `ab` gets the key of the host `a`, and the first check of a host keeps a key of the
store. -/
theorem not_loadsRight_prefix : ¬ LoadsRight false [hostA] ['a', 'b'] ∧
    ¬ ChecksRight false [] (fun _ => false) hostA := by
  constructor
  · rw [loadsRight_iff, answered_iff (List.forall_mem_singleton.2 hostA_plain)]
    intro h
    cases h
  · rw [checksRight_iff]
    rintro (⟨-, p, s, -, hs, -⟩ | ⟨hkey, -⟩)
    · cases hs
    · exact hkey ⟨0, by decide, rfl⟩

end Mlvm.KnownHosts
