import Mlvm.Frames.Operations

/-!
# When no frame can be had

**Writing.** A text is written if and only if it fits the capacity (`frameWriteString_eq`). When it
does not, what has been written is taken back. The first frame that is given up counts for one byte
too many, so one byte too few is taken back: the content comes back exactly when no frame has to be
given up, that is, when the capacity was at most that of one frame (`contents_undo_iff`).

**Cloning.** `frame_copy` stops at the first frame that is empty and when a frame cannot be had,
and reports a short count, which `pdu_clone` takes for success.

Main result: `exhaustion_reported_iff`.
-/

namespace Mlvm.Frames

open Transport

/-! ## Capacity -/

theorem capacity_eq_zero {s : ℕ × List Frame} : capacity s = 0 ↔ room s.2 = 0 ∧ s.1 = 0 := by
  rw [capacity, sizeOfFrame]
  omega

/-- The first frame is full when there is no room. -/
theorem length_of_room_eq_zero {cf : Frame} {lt : List Frame} (h : room (cf :: lt) = 0) :
    cf.bytes.length = sizeOfFrame - 1 := by
  have := cf.fits
  rw [room] at h
  omega

/-- A new frame is taken when the first one is full. -/
theorem writeByte_of_full {b : UInt8} {avail : ℕ} {lt : List Frame} (h : room lt = 0) :
    writeByte b (avail, lt) = writeByte.newFrame b avail lt := by
  cases lt with
  | nil => rfl
  | cons cf lt =>
    have := length_of_room_eq_zero h
    rw [writeByte, dif_neg (by rw [this]; decide)]

theorem writeByte_of_room (b : UInt8) (avail : ℕ) {cf : Frame} {lt : List Frame}
    (h : 0 < room (cf :: lt)) :
    ∃ cf' : Frame, cf'.bytes = b :: cf.bytes ∧
      writeByte b (avail, cf :: lt) = some (avail, cf' :: lt) := by
  have hfits : cf.bytes.length + 1 < sizeOfFrame := by
    rw [room] at h
    omega
  exact ⟨cf.push b hfits, rfl, by rw [writeByte, dif_pos hfits]⟩

/-- **A byte can be written while there is capacity**, and takes one of it. -/
theorem writeByte_eq_none {b : UInt8} {s : ℕ × List Frame} :
    writeByte b s = none ↔ capacity s = 0 := by
  obtain ⟨avail, lt⟩ := s
  rw [capacity_eq_zero]
  rcases Nat.eq_zero_or_pos (room lt) with hroom | hroom
  · rw [writeByte_of_full hroom]
    cases avail <;> simp [writeByte.newFrame, hroom]
  · cases lt with
    | nil => simp [room] at hroom
    | cons cf lt =>
      obtain ⟨cf', -, hwrite⟩ := writeByte_of_room b avail hroom
      simp [hwrite, hroom.ne']

theorem capacity_writeByte {b : UInt8} {s s' : ℕ × List Frame} (h : writeByte b s = some s') :
    capacity s' + 1 = capacity s := by
  obtain ⟨avail, lt⟩ := s
  rcases Nat.eq_zero_or_pos (room lt) with hroom | hroom
  · rw [writeByte_of_full hroom] at h
    cases avail with
    | zero => simp [writeByte.newFrame] at h
    | succ avail =>
      obtain rfl := Option.some.inj h
      simp only [capacity, hroom]
      simp only [room, Frame.single, List.length_singleton, sizeOfFrame]
      omega
  · cases lt with
    | nil => simp [room] at hroom
    | cons cf lt =>
      obtain ⟨cf', hbytes, hwrite⟩ := writeByte_of_room b avail hroom
      obtain rfl := Option.some.inj (hwrite.symm.trans h)
      simp only [capacity, room, hbytes, List.length_cons, sizeOfFrame] at hroom ⊢
      omega

/-! ## Writing -/

/-- **What the writing loop does**: the text is written if it fits the capacity, and otherwise as
much of its end as fits. -/
theorem writeBytes_eq (bs : List UInt8) (k : ℕ) (s : ℕ × List Frame) :
    (bs.length ≤ capacity s → ∃ s', writeBytes bs k s = .inl s' ∧
      contents s'.2 = bs.reverse ++ contents s.2) ∧
    (capacity s < bs.length → ∃ lt', writeBytes bs k s = .inr (k + capacity s, lt') ∧
      contents lt' = (bs.take (capacity s)).reverse ++ contents s.2 ∧ room lt' = 0) := by
  induction bs generalizing k s with
  | nil => exact ⟨fun _ => ⟨s, rfl, rfl⟩, fun h => by simp at h⟩
  | cons b bs ih =>
    cases hwrite : writeByte b s with
    | none =>
      have hcap := writeByte_eq_none.1 hwrite
      refine ⟨fun h => by simp [hcap] at h, fun _ => ⟨s.2, ?_, ?_, (capacity_eq_zero.1 hcap).1⟩⟩
      · simp [writeBytes, hwrite, hcap]
      · simp [hcap]
    | some s' =>
      have hcap := capacity_writeByte hwrite
      have hcontents := contents_writeByte hwrite
      obtain ⟨hfits, hfull⟩ := ih (k + 1) s'
      refine ⟨fun h => ?_, fun h => ?_⟩
      · obtain ⟨s'', hrun, hs''⟩ := hfits (by rw [List.length_cons] at h; omega)
        exact ⟨s'', by simp [writeBytes, hwrite, hrun], by simp [hs'', hcontents]⟩
      · obtain ⟨lt', hrun, hlt', hroom⟩ := hfull (by rw [List.length_cons] at h; omega)
        refine ⟨lt', ?_, ?_, hroom⟩
        · simp only [writeBytes, hwrite, hrun]
          rw [← hcap, Nat.add_assoc, Nat.add_comm 1]
        · rw [hlt', hcontents, ← hcap, List.take_succ_cons]
          simp

/-- A new frame on top changes neither the content nor the capacity. -/
theorem firstFrame_eq {s : ℕ × List Frame} :
    (firstFrame s = none ∧ capacity s = 0) ∨
    ∃ s', firstFrame s = some s' ∧ capacity s' = capacity s ∧ 0 < capacity s ∧
      contents s'.2 = contents s.2 := by
  obtain ⟨avail, lt⟩ := s
  rw [firstFrame]
  split_ifs with hroom havail
  · exact .inr ⟨_, rfl, rfl, hroom.trans_le (Nat.le_add_right _ _), rfl⟩
  · refine .inr ⟨_, rfl, ?_, ?_, rfl⟩
    · simp only [capacity, room, List.length_nil, sizeOfFrame] at hroom havail ⊢
      omega
    · simp only [capacity, sizeOfFrame] at havail ⊢
      omega
  · refine .inl ⟨rfl, capacity_eq_zero.2 ?_⟩
    simp only at hroom havail ⊢
    omega

/-! ## Taking back -/

/-- While no frame is given up, exactly the given bytes are taken back. -/
theorem contents_undo_of_le {r avail : ℕ} {cf : Frame} {lt : List Frame}
    (h : r ≤ cf.bytes.length) :
    contents (undo r avail (cf :: lt)).2 = (contents (cf :: lt)).drop r := by
  rw [undo, if_pos (by omega)]
  simp [Frame.drop, List.drop_append_of_le_length h]

/-- Never more is taken back than is asked for. -/
theorem length_le_contents_undo (r avail : ℕ) (lt : List Frame) :
    (contents lt).length ≤ (contents (undo r avail lt).2).length + r := by
  induction lt generalizing r avail with
  | nil => simp [undo]
  | cons cf lt ih =>
    rw [undo]
    split_ifs with hpart hlast
    · simp only [contents_cons, Frame.drop, List.length_append, List.length_drop]
      omega
    · simp only [contents_cons, List.length_append]
      omega
    · have := ih (r - (cf.bytes.length + 1)) (avail + 1)
      rw [contents_cons, List.length_append]
      omega

/-- **What is taken back**: everything, exactly when it is no more than a frame holds. -/
theorem contents_undo_iff {avail : ℕ} {lt : List Frame} {bs bs' : List UInt8}
    (hcontents : contents lt = bs ++ bs') (hroom : room lt = 0) :
    contents (undo bs.length avail lt).2 = bs' ↔ bs.length ≤ sizeOfFrame - 1 := by
  cases lt with
  | nil =>
    obtain ⟨rfl, rfl⟩ := List.append_eq_nil_iff.1 hcontents.symm
    simp [undo]
  | cons cf lt =>
    have hfull := length_of_room_eq_zero hroom
    constructor
    · intro h
      by_contra hlong
      -- the first frame is given up, and one byte too few is taken from the rest
      have htotal := congrArg List.length hcontents
      have hrest := length_le_contents_undo (bs.length - (cf.bytes.length + 1)) (avail + 1) lt
      rw [undo, if_neg (by omega)] at h
      have hlen := congrArg List.length h
      simp only [contents_cons, List.length_append] at htotal
      split_ifs at hlen with hlast
      · simp only at hlen
        omega
      · omega
    · intro h
      rw [contents_undo_of_le (by omega), hcontents, List.drop_left]

/-- **`frame_write_string`**: with enough capacity the text stands in front, and otherwise `-1` is
returned and the list is as it was exactly when the capacity is no more than a frame. -/
theorem frameWriteString_eq (avail : ℕ) (lt : List Frame) (st : List UInt8) :
    (st.length ≤ capacity (avail, lt) ∧ 0 < capacity (avail, lt) ∧
      ∃ s', frameWriteString avail lt st = (↑st.length, s') ∧
        contents s'.2 = st ++ contents lt) ∨
    ((capacity (avail, lt) < st.length ∨ capacity (avail, lt) = 0) ∧
      ∃ s', frameWriteString avail lt st = (-1, s') ∧
        (contents s'.2 = contents lt ↔ capacity (avail, lt) ≤ sizeOfFrame - 1)) := by
  rw [frameWriteString]
  rcases firstFrame_eq (s := (avail, lt)) with ⟨hnone, hcap⟩ | ⟨s, hsome, hcap, hpos, hcontents⟩
  · simp only [hnone]
    refine .inr ⟨.inr hcap, _, rfl, iff_of_true ?_ (by omega)⟩
    cases lt with
    | nil => rfl
    | cons cf lt => exact contents_undo_of_le (Nat.zero_le _)
  · simp only [hsome]
    obtain ⟨hfits, hfull⟩ := writeBytes_eq st.reverse 0 s
    rw [List.length_reverse, hcap] at hfits hfull
    rcases le_or_gt st.length (capacity (avail, lt)) with hle | hlt
    · obtain ⟨s', hrun, hs'⟩ := hfits hle
      simp only [hrun]
      exact .inl ⟨hle, hpos, s', rfl, by rw [hs', List.reverse_reverse, hcontents]⟩
    · obtain ⟨lt', hrun, hlt', hroom⟩ := hfull hlt
      simp only [hrun]
      refine .inr ⟨.inl hlt, _, rfl, ?_⟩
      have hlen : ((st.reverse.take (capacity (avail, lt))).reverse).length =
          0 + capacity (avail, lt) := by
        rw [List.length_reverse, List.length_take, List.length_reverse]
        omega
      rw [hcontents] at hlt'
      rw [← hlen, contents_undo_iff hlt' hroom, hlen, Nat.zero_add]

/-- A text that has been written stands in front. -/
theorem contents_frameWriteString {avail : ℕ} {lt : List Frame} {st : List UInt8}
    (h : ¬ (frameWriteString avail lt st).1 < 0) :
    (frameWriteString avail lt st).1 = st.length ∧
      contents (frameWriteString avail lt st).2.2 = st ++ contents lt := by
  rcases frameWriteString_eq avail lt st with ⟨-, -, s', hrun, hs'⟩ | ⟨-, s', hrun, -⟩
  · rw [hrun]
    exact ⟨rfl, hs'⟩
  · rw [hrun] at h
    exact absurd (by decide : (-1 : ℤ) < 0) h

/-! ## Appending and copying -/

/-- A text that has been appended stands behind. -/
theorem contents_frameAppendString {avail : ℕ} {lt : List Frame} {st : List UInt8}
    (h : ¬ (frameAppendString avail lt st).1 < 0) :
    (frameAppendString avail lt st).1 = st.length ∧
      contents (frameAppendString avail lt st).2.2 = contents lt ++ st := by
  rw [frameAppendString] at h ⊢
  split_ifs at h ⊢ with hneg
  · exact absurd (by decide : (-1 : ℤ) < 0) h
  · obtain ⟨hlen, hcontents⟩ := contents_frameWriteString hneg
    refine ⟨hlen, ?_⟩
    rw [contents_append, hcontents, contents_nil, List.append_nil]

/-- What fits the first frame goes into it. -/
theorem writeBytes_of_room {bs : List UInt8} (k avail : ℕ) {cf : Frame} {lt : List Frame}
    (h : bs.length ≤ room (cf :: lt)) :
    ∃ cf' : Frame, cf'.bytes = bs.reverse ++ cf.bytes ∧
      writeBytes bs k (avail, cf :: lt) = .inl (avail, cf' :: lt) := by
  induction bs generalizing k cf with
  | nil => exact ⟨cf, rfl, rfl⟩
  | cons b bs ih =>
    rw [List.length_cons] at h
    obtain ⟨cf₁, hbytes, hwrite⟩ := writeByte_of_room b avail (h.trans_lt' (by omega))
    have hroom : bs.length ≤ room (cf₁ :: lt) := by
      rw [room, hbytes, List.length_cons]
      rw [room] at h
      omega
    obtain ⟨cf', hbytes', hrun⟩ := ih (k + 1) hroom
    exact ⟨cf', by simp [hbytes', hbytes], by simp [writeBytes, hwrite, hrun]⟩

/-- **`frame_append_string`** of what fits a frame takes one frame. -/
theorem frameAppendString_succ (avail : ℕ) (dlt : List Frame) {st : List UInt8}
    (h : st.length < sizeOfFrame) :
    frameAppendString (avail + 1) dlt st = (↑st.length, avail, dlt ++ [⟨st, h⟩]) := by
  have hroom : st.reverse.length ≤ room [⟨[], by decide⟩] := by
    rw [room, List.length_reverse]
    exact Nat.le_sub_one_of_lt h
  obtain ⟨cf', hbytes, hrun⟩ := writeBytes_of_room 0 avail hroom
  have hfirst : firstFrame (avail + 1, []) = some (avail, [⟨[], by decide⟩]) := by
    rw [firstFrame, if_neg (by simp [room]), if_pos (by simp)]
    rfl
  have hcf' : cf' = ⟨st, h⟩ := by
    cases cf'
    simpa using hbytes
  simp [frameAppendString, frameWriteString, hfirst, hrun, hcf']

theorem frameAppendString_zero (dlt : List Frame) (st : List UInt8) :
    ∃ avail', frameAppendString 0 dlt st = (-1, avail', dlt) := by
  have hfirst : firstFrame (0, []) = none := by simp [firstFrame, room]
  exact ⟨(undo 0 0 []).1, by simp [frameAppendString, frameWriteString, hfirst]⟩

/-- The bytes that can be copied: those of the frames before the first one that is empty, as far
as there are frames to copy them to. -/
def reach (avail : ℕ) (slt : List Frame) : ℕ :=
  (contents ((slt.takeWhile fun cf => !cf.bytes.isEmpty).take avail)).length

theorem reach_le (avail : ℕ) (slt : List Frame) : reach avail slt ≤ (contents slt).length := by
  conv_rhs => rw [← List.takeWhile_append_dropWhile (p := fun cf => !cf.bytes.isEmpty) (l := slt),
    ← List.take_append_drop avail (slt.takeWhile fun cf => !cf.bytes.isEmpty)]
  simp only [contents_append, List.length_append, reach]
  omega

@[simp] theorem reach_nil (avail : ℕ) : reach avail [] = 0 := by simp [reach]

@[simp] theorem reach_zero (slt : List Frame) : reach 0 slt = 0 := by simp [reach]

theorem reach_cons_empty (avail : ℕ) {cf : Frame} (slt : List Frame) (h : cf.bytes = []) :
    reach avail (cf :: slt) = 0 := by
  simp [reach, h]

theorem reach_succ_cons (avail : ℕ) {cf : Frame} (slt : List Frame) (h : cf.bytes ≠ []) :
    reach (avail + 1) (cf :: slt) = cf.bytes.length + reach avail slt := by
  simp [reach, h]

/-- **`frame_copy` copies the first bytes**, as far as they can be reached. -/
theorem frameCopyLoop_eq (avail : ℕ) (dlt slt : List Frame) (l : ℕ) :
    ∃ avail' dlt', frameCopyLoop avail dlt slt l =
        ((l : ℤ) - (min l (reach avail slt) : ℕ), avail', dlt') ∧
      contents dlt' = contents dlt ++ (contents slt).take (min l (reach avail slt)) := by
  induction slt generalizing avail dlt l with
  | nil => exact ⟨avail, dlt, by simp [frameCopyLoop], by simp⟩
  | cons cf slt ih =>
    rw [frameCopyLoop]
    by_cases hstop : l = 0 ∨ cf.bytes = []
    · -- nothing more is wanted, or the frame is empty
      have hmin : min l (reach avail (cf :: slt)) = 0 := by
        rcases hstop with rfl | hempty
        · simp
        · simp [reach_cons_empty avail slt hempty]
      have hcond : (l : ℤ) ≤ 0 ∨ min (l : ℤ) cf.bytes.length ≤ 0 := by
        rcases hstop with rfl | hempty
        · simp
        · simp [hempty]
      exact ⟨avail, dlt, by rw [if_pos hcond, hmin]; simp, by simp [hmin]⟩
    · rw [not_or] at hstop
      have hlen : 0 < cf.bytes.length := List.length_pos_iff.2 hstop.2
      rw [if_neg (by omega)]
      cases avail with
      | zero =>
        obtain ⟨avail', happend⟩ :=
          frameAppendString_zero dlt (cf.bytes.take (min (l : ℤ) cf.bytes.length).toNat)
        exact ⟨avail', dlt, by simp [happend], by simp⟩
      | succ avail =>
        have hk : (min (l : ℤ) cf.bytes.length).toNat = min l cf.bytes.length := by omega
        have hfits : (cf.bytes.take (min l cf.bytes.length)).length < sizeOfFrame := by
          rw [List.length_take]
          exact (min_le_right _ _).trans_lt cf.fits
        have hlength : (cf.bytes.take (min l cf.bytes.length)).length = min l cf.bytes.length := by
          rw [List.length_take]
          omega
        obtain ⟨avail', dlt', hrun, hdlt'⟩ := ih avail
          (dlt ++ [⟨cf.bytes.take (min l cf.bytes.length), hfits⟩]) (l - min l cf.bytes.length)
        have hcast : (l : ℤ) - (min l cf.bytes.length : ℕ) =
            ((l - min l cf.bytes.length : ℕ) : ℤ) := by
          omega
        have hmin : min l (reach (avail + 1) (cf :: slt)) =
            min l cf.bytes.length + min (l - min l cf.bytes.length) (reach avail slt) := by
          rw [reach_succ_cons avail slt hstop.2]
          omega
        rw [hk, frameAppendString_succ avail dlt hfits, hlength]
        refine ⟨avail', dlt', ?_, ?_⟩
        · rw [if_neg (by simp), hcast, hrun, hmin]
          simp only [Prod.mk.injEq, and_true]
          omega
        · rw [hdlt', hmin]
          rcases le_total l cf.bytes.length with hle | hle
          · simp [min_eq_left hle, List.take_append_of_le_length hle]
          · simp [min_eq_right hle, List.take_append, List.take_of_length_le]

theorem frameCopy_of_neg (avail : ℕ) (dlt slt : List Frame) {l : ℤ} (h : l < 0) :
    frameCopy avail dlt slt l = (0, avail, dlt) := by
  cases slt with
  | nil => simp [frameCopy, frameCopyLoop]
  | cons cf slt => simp [frameCopy, frameCopyLoop, h.le]

theorem frameCopy_eq (avail : ℕ) (dlt slt : List Frame) (l : ℕ) :
    ∃ avail' dlt', frameCopy avail dlt slt l = (((min l (reach avail slt) : ℕ) : ℤ), avail', dlt') ∧
      contents dlt' = contents dlt ++ (contents slt).take (min l (reach avail slt)) := by
  obtain ⟨avail', dlt', hrun, hdlt'⟩ := frameCopyLoop_eq avail dlt slt l
  refine ⟨avail', dlt', ?_, hdlt'⟩
  simp only [frameCopy, hrun, Prod.mk.injEq, and_true]
  omega

/-- The value of an `int` is below its bound. -/
theorem wrapInt_lt (x : ℤ) : wrapInt x < 2 ^ 31 := by
  rw [wrapInt, Int.bmod_eq_emod]
  split <;> omega

/-- **A clone is whole** exactly when all bytes can be reached, and are not too many for an
`int`. -/
theorem contents_pduClone_iff (avail : ℕ) (frames : List Frame) :
    (∀ f, pduClone true avail frames = some f → contents f = contents frames) ↔
      (contents frames).length < 2 ^ 31 ∧ (contents frames).length ≤ reach avail frames := by
  have hlt : frameSize frames < 2 ^ 31 := wrapInt_lt _
  rcases lt_or_ge (frameSize frames) 0 with hneg | hpos
  · -- the size is negative, and nothing is copied
    have hlong : ¬ (contents frames).length < 2 ^ 31 := fun h => by
      rw [frameSize_eq h] at hneg
      omega
    refine iff_of_false (fun h => ?_) fun h => hlong h.1
    have hlen := congrArg List.length (h [] (by simp [pduClone, frameCopy_of_neg _ _ _ hneg]))
    simp only [contents_nil, List.length_nil] at hlen
    omega
  · obtain ⟨l, hl⟩ := Int.eq_ofNat_of_zero_le hpos
    obtain ⟨avail', dlt', hcopy, hdlt'⟩ := frameCopy_eq avail [] frames l
    have hclone : pduClone true avail frames = some dlt' := by
      simp [pduClone, hl, hcopy]
    have hreach := reach_le avail frames
    simp only [hclone, Option.some.injEq, forall_eq', hdlt', contents_nil, List.nil_append]
    constructor
    · intro h
      have hlen := congrArg List.length h
      rw [List.length_take] at hlen
      omega
    · rintro ⟨hshort, hall⟩
      have hsize := frameSize_eq hshort
      exact List.take_of_length_le (by omega)

/-! ## Exhaustion -/

/-- `frame_new` fails while `st` is written: there is no first frame with room, or a later frame
cannot be had. -/
def NewFails (avail : ℕ) (lt : List Frame) (st : List UInt8) : Prop :=
  ∀ s, firstFrame (avail, lt) = some s → (writeBytes st.reverse 0 s).isRight = true

theorem newFails_iff {avail : ℕ} {lt : List Frame} {st : List UInt8} :
    NewFails avail lt st ↔ capacity (avail, lt) < st.length ∨ capacity (avail, lt) = 0 := by
  rw [NewFails]
  rcases firstFrame_eq (s := (avail, lt)) with ⟨hnone, hcap⟩ | ⟨s, hsome, hcap, hpos, -⟩
  · simp [hnone, hcap]
  · obtain ⟨hfits, hfull⟩ := writeBytes_eq st.reverse 0 s
    rw [List.length_reverse, hcap] at hfits hfull
    simp only [hsome, Option.some.injEq, forall_eq']
    rcases le_or_gt st.length (capacity (avail, lt)) with hle | hlt
    · obtain ⟨s', hrun, -⟩ := hfits hle
      refine iff_of_false ?_ (by omega)
      simp [hrun]
    · obtain ⟨lt', hrun, -⟩ := hfull hlt
      refine iff_of_true ?_ (.inl hlt)
      simp [hrun]

/-- **Exhaustion is atomic and reported**, for a text written or appended to a list and for the
frames of a PDU that is cloned: `-1` is returned exactly when `frame_new` fails, and then the list
is as it was; and what is cloned is whole. -/
structure Reported (avail : ℕ) (lt : List Frame) (st : List UInt8) (fresh : Bool)
    (frames : List Frame) : Prop where
  write_returns : (frameWriteString avail lt st).1 = -1 ↔ NewFails avail lt st
  write : NewFails avail lt st → contents (frameWriteString avail lt st).2.2 = contents lt
  append_returns : (frameAppendString avail lt st).1 = -1 ↔ NewFails avail [] st
  append : NewFails avail [] st → (frameAppendString avail lt st).2.2 = lt
  clone : ∀ f, pduClone fresh avail frames = some f → contents f = contents frames

/-- **A failure is reported.** -/
theorem frameWriteString_eq_neg_iff (avail : ℕ) (lt : List Frame) (st : List UInt8) :
    (frameWriteString avail lt st).1 = -1 ↔ NewFails avail lt st := by
  rw [newFails_iff]
  rcases frameWriteString_eq avail lt st with ⟨hfits, hpos, s', hrun, -⟩ | ⟨hfull, s', hrun, -⟩
  · rw [hrun]
    refine iff_of_false ?_ ?_
    · simp only
      omega
    · omega
  · rw [hrun]
    exact iff_of_true rfl hfull

theorem frameAppendString_eq_neg_iff (avail : ℕ) (lt : List Frame) (st : List UInt8) :
    (frameAppendString avail lt st).1 = -1 ↔ NewFails avail [] st := by
  rw [← frameWriteString_eq_neg_iff, frameAppendString]
  split_ifs with hneg
  · refine iff_of_true rfl ?_
    by_contra hne
    rcases frameWriteString_eq avail [] st with ⟨-, -, s', hrun, -⟩ | ⟨-, s', hrun, -⟩
    · rw [hrun] at hneg
      simp only at hneg
      omega
    · exact hne (by rw [hrun])
  · exact Iff.rfl

theorem frameAppendString_neg {avail : ℕ} {lt : List Frame} {st : List UInt8}
    (h : (frameAppendString avail lt st).1 = -1) : (frameAppendString avail lt st).2.2 = lt := by
  rw [frameAppendString] at h ⊢
  split_ifs at h ⊢ with hneg
  · rfl
  · simp only at h
    omega

theorem write_atomic_iff (avail : ℕ) (lt : List Frame) (st : List UInt8) :
    (NewFails avail lt st → contents (frameWriteString avail lt st).2.2 = contents lt) ↔
      st.length ≤ capacity (avail, lt) ∨ capacity (avail, lt) ≤ sizeOfFrame - 1 := by
  rw [newFails_iff]
  rcases frameWriteString_eq avail lt st with ⟨hfits, hpos, s', -, -⟩ | ⟨hfull, s', hrun, hback⟩
  · exact iff_of_true (fun h => absurd h (by omega)) (.inl hfits)
  · rw [hrun]
    simp only [hfull, forall_const, hback]
    omega

/-- **Exhaustion**: it is atomic and reported exactly when the text fits, or what could be written
of it fits one frame, and the clone is not made, or all its bytes can be reached with the frames
that can be had. -/
theorem exhaustion_reported_iff (avail : ℕ) (lt : List Frame) (st : List UInt8) (fresh : Bool)
    (frames : List Frame) :
    Reported avail lt st fresh frames ↔
      (st.length ≤ capacity (avail, lt) ∨ capacity (avail, lt) ≤ sizeOfFrame - 1) ∧
      (fresh = true →
        (contents frames).length < 2 ^ 31 ∧ (contents frames).length ≤ reach avail frames) := by
  have hclone : (∀ f, pduClone fresh avail frames = some f → contents f = contents frames) ↔
      (fresh = true →
        (contents frames).length < 2 ^ 31 ∧ (contents frames).length ≤ reach avail frames) := by
    cases fresh with
    | false => simp [pduClone]
    | true => rw [contents_pduClone_iff]; simp
  rw [← write_atomic_iff, ← hclone]
  constructor
  · exact fun h => ⟨h.write, h.clone⟩
  · rintro ⟨hwrite, hclone⟩
    have happend := frameAppendString_eq_neg_iff avail lt st
    exact ⟨frameWriteString_eq_neg_iff avail lt st, hwrite, happend,
      fun h => frameAppendString_neg (happend.2 h), hclone⟩

/-- A text that needs three frames, when there is room in the first one and one more can be had:
a byte of it stays in the list. -/
theorem not_reported_long_text :
    ¬ Reported 1 [Frame.single 1] (List.replicate 9000 0) false [] := by
  intro h
  have hcap : capacity (1, [Frame.single 1]) = 8189 := by decide
  have := (write_atomic_iff 1 [Frame.single 1] (List.replicate 9000 0)).1 h.write
  rw [hcap, List.length_replicate, sizeOfFrame] at this
  omega

end Mlvm.Frames
