import Mathlib.Logic.Function.Basic
import Mathlib.Algebra.Order.Group.Int

/-!
# Names of backups

Backups are named by **keys**, which are texts. The security layer names its own after the number
of a key request, printed with `%d`.

A backup on disk has three names in the spool directory: the **file**, named after its id and its
key, and two **links** to it, one named after the id and one after the key. The id and the key are
read back from the name of the file (`atoi_fileName`, `keyOf_fileName`).
-/

namespace Mlvm.Transport

/-- What `%d` prints of an `int`. -/
def decimal (i : ℤ) : List Char :=
  if i < 0 then '-' :: Nat.toDigits 10 i.natAbs else Nat.toDigits 10 i.natAbs

theorem toDigits_injective : Function.Injective (Nat.toDigits 10) := fun m n h => by
  rw [← Nat.ofDigitChars_ten_toDigits (n := m), h, Nat.ofDigitChars_ten_toDigits]

theorem minus_not_mem_toDigits (n : ℕ) : '-' ∉ Nat.toDigits 10 n := fun h => by
  have hdigit := Nat.isDigit_of_mem_toDigits (show 0 < 10 by decide) (by decide) h
  exact absurd hdigit (by decide)

/-- A number prints as digits and perhaps a sign. -/
theorem ne_decimal_of_mem {key : List Char} {c : Char} (hmem : c ∈ key) (hdigit : c.isDigit = false)
    (hsign : c ≠ '-') (i : ℤ) : key ≠ decimal i := by
  rintro rfl
  have hdigits : c ∈ Nat.toDigits 10 i.natAbs := by
    unfold decimal at hmem
    split_ifs at hmem
    · exact (List.mem_cons.1 hmem).resolve_left hsign
    · exact hmem
  rw [Nat.isDigit_of_mem_toDigits (show 0 < 10 by decide) (by decide) hdigits] at hdigit
  exact absurd hdigit (by decide)

/-- Two numbers print differently. -/
theorem decimal_injective : Function.Injective decimal := by
  intro i j h
  unfold decimal at h
  split_ifs at h with hi hj hj
  · have habs := toDigits_injective (List.cons.inj h).2
    omega
  · exact absurd (h ▸ List.mem_cons_self) (minus_not_mem_toDigits _)
  · exact absurd (h ▸ List.mem_cons_self) (minus_not_mem_toDigits _)
  · have habs := toDigits_injective h
    omega

/-- `SEC_PREFIX "%d"`: the backup name the security layer makes from an `int`. -/
def secKey (i : ℤ) : List Char := 's' :: 'e' :: 'c' :: decimal i

theorem secKey_injective : Function.Injective secKey := fun i j h => by
  simp only [secKey, List.cons.injEq, true_and] at h
  exact decimal_injective h

/-! ## Names in the spool directory -/

/-- `IMAGO_PDU_SPOOL_EXT`. -/
def spoolExt : List Char := ['.', 'p', 'd', 'u']

/-- `BACKUP_FILE_TEMPLATE` and `BACKUP_LINK_TEMPLATE`, in the spool directory. -/
def fileName (lId : ℤ) (key : List Char) : List Char := decimal lId ++ '#' :: (key ++ spoolExt)

/-- `BACKUP_L_ID_TEMPLATE`. -/
def idLink (lId : ℤ) : List Char := '.' :: (decimal lId ++ spoolExt)

/-- `BACKUP_KEY_TEMPLATE`. -/
def keyLink (key : List Char) : List Char := '.' :: (key ++ spoolExt)

/-- `atoi` of a text that begins with a sign or a digit. -/
def atoi : List Char → ℤ
  | '-' :: cs => -(Nat.ofDigitChars 10 (cs.takeWhile Char.isDigit) 0 : ℕ)
  | cs => (Nat.ofDigitChars 10 (cs.takeWhile Char.isDigit) 0 : ℕ)

/-- The key `cancel_backup_file` takes from the name of a file: what stands between the first
separator and the extension. -/
def keyOf (filename : List Char) : List Char :=
  let ptr := (filename.dropWhile (· != '#')).drop 1
  ptr.take (ptr.length - spoolExt.length)

theorem digits_takeWhile (n : ℕ) (cs : List Char) :
    (Nat.toDigits 10 n ++ '#' :: cs).takeWhile Char.isDigit = Nat.toDigits 10 n := by
  rw [List.takeWhile_append_of_pos fun c hc =>
    Nat.isDigit_of_mem_toDigits (show 0 < 10 by decide) (by decide) hc]
  simp

theorem decimal_head_isDigit (n : ℕ) : ∃ c cs, Nat.toDigits 10 n = c :: cs ∧ c.isDigit := by
  cases h : Nat.toDigits 10 n with
  | nil => exact absurd h (by simp)
  | cons c cs =>
    have hmem : c ∈ Nat.toDigits 10 n := h ▸ List.mem_cons_self
    exact ⟨c, cs, rfl, Nat.isDigit_of_mem_toDigits (show 0 < 10 by decide) (by decide) hmem⟩

/-- The id is read back from the name of the file. -/
theorem atoi_fileName (lId : ℤ) (key : List Char) : atoi (fileName lId key) = lId := by
  unfold fileName decimal
  split_ifs with h
  · rw [List.cons_append, atoi, digits_takeWhile, Nat.ofDigitChars_ten_toDigits]
    omega
  · obtain ⟨c, cs, hcs, hdigit⟩ := decimal_head_isDigit lId.natAbs
    have hc : c ≠ '-' := by
      rintro rfl
      exact absurd hdigit (by decide)
    have hdigits := digits_takeWhile lId.natAbs (key ++ spoolExt)
    rw [hcs, List.cons_append] at hdigits ⊢
    rw [atoi.eq_2 _ fun cs' heq => hc (List.cons.inj heq).1, hdigits, ← hcs,
      Nat.ofDigitChars_ten_toDigits]
    omega

theorem hash_not_mem_decimal (lId : ℤ) : '#' ∉ decimal lId := by
  have hdigits : '#' ∉ Nat.toDigits 10 lId.natAbs := fun h =>
    absurd (Nat.isDigit_of_mem_toDigits (show 0 < 10 by decide) (by decide) h) (by decide)
  unfold decimal
  split_ifs
  · simpa using hdigits
  · exact hdigits

/-- The key is read back from the name of the file. -/
theorem keyOf_fileName (lId : ℤ) (key : List Char) : keyOf (fileName lId key) = key := by
  have hdrop : (fileName lId key).dropWhile (· != '#') = '#' :: (key ++ spoolExt) := by
    rw [fileName, List.dropWhile_append_of_pos]
    · simp
    · intro c hc
      have hne : c ≠ '#' := fun heq => hash_not_mem_decimal lId (heq ▸ hc)
      simpa using hne
  simp [keyOf, hdrop]

/-- A file name tells its id and its key. -/
theorem fileName_inj {i j : ℤ} {k l : List Char} (h : fileName i k = fileName j l) :
    i = j ∧ k = l := by
  constructor
  · rw [← atoi_fileName i k, h, atoi_fileName]
  · rw [← keyOf_fileName i k, h, keyOf_fileName]

theorem idLink_injective : Function.Injective idLink := fun i j h => by
  simp only [idLink, List.cons.injEq, List.append_cancel_right_eq, true_and] at h
  exact decimal_injective h

theorem keyLink_injective : Function.Injective keyLink := fun i j h => by
  simpa [keyLink] using h

/-- A link is no file name: it begins with a dot. -/
theorem fileName_ne_dot (lId : ℤ) (key cs : List Char) : fileName lId key ≠ '.' :: cs := by
  obtain ⟨c, cs', hcs, hdigit⟩ := decimal_head_isDigit lId.natAbs
  intro h
  unfold fileName decimal at h
  split_ifs at h
  · simp at h
  · rw [hcs, List.cons_append] at h
    rw [(List.cons.inj h).1] at hdigit
    exact absurd hdigit (by decide)

/-- The two links of a backup have different names unless the key is a number. -/
theorem keyLink_ne_idLink {key : List Char} (h : ∀ i, key ≠ decimal i) (lId : ℤ) :
    keyLink key ≠ idLink lId := fun heq => by
  simp only [keyLink, idLink, List.cons.injEq, List.append_cancel_right_eq, true_and] at heq
  exact h lId heq

end Mlvm.Transport
