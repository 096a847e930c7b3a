import Mathlib.Data.Nat.Size
import Mathlib.Data.List.Basic
import Mathlib.Algebra.Ring.Int.Defs
import Mathlib.Algebra.Ring.Nat

/-!
# The file of known hosts

`cipher.c`: the public keys of the servers are appended to a text file, a line for a key, and looked
up by the name of the server; the keys that are being worked with are in a store of 32 slots.

Numbers are natural numbers, written and read in decimal. A number that `RSA_new` or `DSA_new` has
left out counts as zero. Memory never runs out, and the file can be opened.
-/

namespace Mlvm.KnownHosts

/-! ## Characters -/

def isBlank (c : Char) : Bool := c = ' ' ∨ c = '\t'

/-- `isspace`. -/
def isSpace (c : Char) : Bool :=
  isBlank c ∨ c = '\n' ∨ c.toNat = 11 ∨ c.toNat = 12 ∨ c = '\r'

/-- `strncasecmp` gives zero. -/
def strncaseeq : List Char → List Char → ℕ → Bool
  | _, _, 0 => true
  | [], [], _ + 1 => true
  | a :: s, b :: t, n + 1 => a.toLower = b.toLower && strncaseeq s t n
  | [], _ :: _, _ + 1 => false
  | _ :: _, [], _ + 1 => false

/-- The value of a hexadecimal digit. -/
def hexValue (c : Char) : Option ℕ :=
  if c.isDigit then some (c.toNat - '0'.toNat)
  else if 'A' ≤ c ∧ c ≤ 'F' then some (c.toNat - 'A'.toNat + 10)
  else if 'a' ≤ c ∧ c ≤ 'f' then some (c.toNat - 'a'.toNat + 10)
  else none

/-- The number that `strtoul` makes of hexadecimal digits. -/
def hexNumber (ds : List Char) : UInt32 :=
  UInt32.ofNat (min ((ds.filterMap hexValue).foldl (16 * · + ·) 0) (2 ^ 32 - 1))

/-- The sign of a number. -/
def scanSign : List Char → Bool × List Char
  | '-' :: s => (true, s)
  | '+' :: s => (false, s)
  | s => (false, s)

/-- The `0x` that may stand before hexadecimal digits. -/
def scanPrefix : List Char → List Char
  | '0' :: 'x' :: s => s
  | '0' :: 'X' :: s => s
  | s => s

/-- `sscanf` with `%X`. -/
def scanHex (s : List Char) : Option UInt32 :=
  let r := scanSign (s.dropWhile isSpace)
  let ds := (scanPrefix r.2).takeWhile fun c => (hexValue c).isSome
  if ds = [] then none else some (if r.1 then -hexNumber ds else hexNumber ds)

/-- `%X`. -/
def printHex (n : ℕ) : List Char := (Nat.toDigits 16 n).map Char.toUpper

/-- `%u`. -/
def printNat (n : ℕ) : List Char := Nat.toDigits 10 n

/-! ## Keys -/

structure Rsa where
  n : ℕ
  e : ℕ
  deriving DecidableEq

structure Dsa where
  p : ℕ
  q : ℕ
  g : ℕ
  pub_key : ℕ

structure Key where
  cipher_mask : UInt8
  rsa : Option Rsa
  dsa : Option Dsa

/-- A key that `Key_new` has cleared. -/
def Key.clear : Key := ⟨0, none, none⟩

/-- Which of the 32 keys are in use. -/
abbrev Keymap := ℕ → Bool

/-- `Key_new`: the first key that is not in use. -/
def keyNew (keymap : Keymap) : Option ℕ × Keymap :=
  match (List.range 32).find? fun i => !keymap i with
  | none => (none, keymap)
  | some i => (some i, Function.update keymap i true)

/-- `Key_free`. -/
def keyFree (keymap : Keymap) (i : ℕ) : Keymap :=
  Function.update keymap i false

/-! ## Reading -/

/-- `read_bignum`: the number and what is behind it. -/
def readBignum (cpp : List Char) : Option (ℕ × List Char) :=
  let cp := cpp.dropWhile isBlank
  let cp := cp.dropWhile Char.isDigit
  let cp := cp.dropWhile isBlank
  let ds := cp.takeWhile Char.isDigit
  if ds = [] then none else some (Nat.ofDigitChars 10 ds 0, cp.dropWhile Char.isDigit)

/-- The numbers of a DSA key. -/
def readDsa (cp : List Char) : Option (Dsa × List Char) := do
  let (p, cp) ← readBignum cp
  let (q, cp) ← readBignum cp
  let (g, cp) ← readBignum cp
  let (pub_key, cp) ← readBignum cp
  return (⟨p, q, g, pub_key⟩, cp)

/-- Skip the cipher mask: up to the first space, past the end of the string if there is none. -/
def skipMask (cp : List Char) : Option (List Char) :=
  let cp := cp.dropWhile fun c => !isSpace c
  if cp = [] then none else some cp

/-- What `read_key` makes of the key, and whether it succeeds; `none` when it leaves the string or
is given no key. -/
def readKey (sign : Bool) (ret : Option Key) (cpp : List Char) : Option (Bool × Option Key) :=
  let cp := cpp.dropWhile isBlank
  match scanHex cp with
  | none => some (false, ret)
  | some cipher => do
    let key ← ret
    let key := { key with cipher_mask := cipher.toUInt8 }
    let cp ← skipMask cp
    let rsa := key.rsa.getD ⟨0, 0⟩
    match readBignum cp with
    | none => some (false, some { key with rsa := some rsa })
    | some (n, cp) =>
      match readBignum cp with
      | none => some (false, some { key with rsa := some { rsa with n } })
      | some (e, cp) =>
        let key := { key with rsa := some ⟨n, e⟩ }
        some (true, some (if sign then { key with dsa := (readDsa cp).map Prod.fst } else key))

/-- `fgets`: a line, or as much of it as there is room for. -/
def fgets : ℕ → List Char → List Char × List Char
  | 0, cs => ([], cs)
  | _ + 1, [] => ([], [])
  | n + 1, c :: cs =>
    if c = '\n' then ([c], cs)
    else
      let r := fgets n cs
      (c :: r.1, r.2)

/-- The rest of the loop of `load_key`, for `fuel` lines at most. -/
def loadFrom (sign : Bool) (host_name : List Char) :
    ℕ → List Char → Option Key → Option (Bool × Option Key)
  | 0, _, key => some (false, key)
  | fuel + 1, file, key =>
    let (line, file) := fgets 8191 file
    if line = [] then some (false, key)
    else
      let cp := line.dropWhile isBlank
      if cp = [] ∨ cp.head? = some '#' ∨ cp.head? = some '\n' then
        loadFrom sign host_name fuel file key
      else
        let name := cp.takeWhile fun c => !isBlank c
        if strncaseeq host_name cp name.length then do
          let (found, key) ← readKey sign key (cp.dropWhile fun c => !isBlank c)
          if found then some (true, key) else loadFrom sign host_name fuel file key
        else loadFrom sign host_name fuel file key

/-- `load_key`: whether a key has been found, and the key. -/
def loadKey (sign : Bool) (file host_name : List Char) (key : Option Key) :
    Option (Bool × Option Key) :=
  loadFrom sign host_name file.length file key

/-! ## Writing -/

/-- `write_bignum`. -/
def writeBignum (value : ℕ) : List Char :=
  printNat value.size ++ ' ' :: printNat value

/-- What `save_key` puts behind the cipher mask and the modulus. -/
def Dsa.text (dsa : Dsa) : List Char :=
  ' ' :: writeBignum dsa.p ++ ' ' :: writeBignum dsa.q ++ ' ' :: writeBignum dsa.g ++
    ' ' :: writeBignum dsa.pub_key

/-- `save_key`: whether it succeeds, and the file. -/
def saveKey (file host_name : List Char) (key : Key) : Bool × List Char :=
  match key.rsa with
  | none => (false, file)
  | some rsa =>
    (true, file ++ (host_name ++ ' ' :: printHex key.cipher_mask.toNat ++ ' ' ::
      writeBignum rsa.n ++ ' ' :: writeBignum rsa.e ++ (key.dsa.map Dsa.text).getD [] ++ ['\n']))

/-! ## Checking -/

/-- The file and the store. -/
structure World where
  file : List Char
  keymap : Keymap

/-- `check_save_key`: whether the key is accepted, and what it leaves. -/
def checkSaveKey (sign : Bool) (w : World) (host_name : List Char) (test_key : Key) :
    Option (Bool × World) := do
  let (key, keymap) := keyNew w.keymap
  let (found, loaded) ← loadKey sign w.file host_name (key.map fun _ => .clear)
  if found then
    let i ← key
    let rsa ← loaded.bind Key.rsa
    let test ← test_key.rsa
    let keymap := keyFree keymap i
    if test.n ≠ rsa.n then return (false, { w with keymap })
    else if test.e ≠ rsa.e then return (false, { w with keymap })
    else return (true, { w with keymap })
  else
    let r := saveKey w.file host_name test_key
    return (r.1, ⟨r.2, keymap⟩)

end Mlvm.KnownHosts
