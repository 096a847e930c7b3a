import Mlvm.Security.Layer
import Mathlib.Tactic.SplitIfs

/-!
# The frames of an encrypted PDU

What `do_crypto` makes of the frames of a PDU: the outputs of the cipher, less those for which no
frames could be had, since a failed append is not noticed.

**The condition** (`Kept`): every output finds the frames it needs, the one extra frame for the
move can be had, and the whole is not longer than an `int` can say. Then the frames hold the whole
output; otherwise they hold less, or the move has no end (`doCrypto_eq`).
-/

namespace Mlvm.Security

open Transport (Frame contents frameSize frameMove sizeOfFrame)
open Frames

variable {L : Library}

/-! ## Appending -/

/-- An output that is appended: there are frames for it. -/
def Fits (pool : ℕ → ℕ) (k : ℕ) (out : Bytes) : Prop :=
  out.length ≤ (sizeOfFrame - 1) * pool k ∧ 0 < pool k

instance (pool : ℕ → ℕ) (k : ℕ) (out : Bytes) : Decidable (Fits pool k out) :=
  inferInstanceAs (Decidable (_ ∧ _))

/-- An output is appended whole, or not at all. -/
theorem contents_append (pool : ℕ → ℕ) (k : ℕ) (lt : List Frame) (out : Bytes) :
    contents (frameAppendString (pool k) lt out).2.2 =
      contents lt ++ if Fits pool k out then out else [] := by
  have hcap : capacity (pool k, []) = (sizeOfFrame - 1) * pool k := by simp [capacity, room]
  have hpos : 0 < capacity (pool k, []) ↔ 0 < pool k := by
    rw [hcap]
    exact ⟨Nat.pos_of_mul_pos_left, Nat.mul_pos (by decide)⟩
  rw [frameAppendString]
  rcases frameWriteString_eq (pool k) [] out with ⟨hle, hpos', s', hrun, hs'⟩ | ⟨hfull, s', hrun, -⟩
  · have hfits : Fits pool k out := ⟨hcap ▸ hle, hpos.1 hpos'⟩
    have hneg : ¬ ((out.length : ℤ) < 0) := Int.not_lt.2 (Int.natCast_nonneg _)
    simp only [hrun, if_neg hneg, if_pos hfits, Transport.contents_append, hs']
    simp
  · have hfits : ¬ Fits pool k out := by
      rintro ⟨hle, hpos'⟩
      rw [← hcap] at hle
      rcases hfull with hlt | hzero
      · exact absurd hle (Nat.not_le.2 hlt)
      · exact absurd (hpos.2 hpos') (by rw [hzero]; exact Nat.lt_irrefl 0)
    simp [hrun, hfits]

/-! ## The loop -/

theorem sizeOfInbuf_pos : 0 < sizeOfInbuf := by decide

/-- One reading into `inbuf`. -/
theorem read_inbuf (frames : List Frame) :
    ((Frames.frameReadString frames sizeOfInbuf).1 ≤ 0 ↔ contents frames = []) ∧
      (Frames.frameReadString frames sizeOfInbuf).2.1 = (contents frames).take sizeOfInbuf ∧
      contents (Frames.frameReadString frames sizeOfInbuf).2.2 =
        (contents frames).drop sizeOfInbuf := by
  obtain ⟨lt, hrun, hlt⟩ := frameReadString_eq frames sizeOfInbuf
  rw [hrun]
  refine ⟨?_, rfl, hlt⟩
  have := sizeOfInbuf_pos
  rw [← List.length_eq_zero_iff]
  omega

/-- **The loop** gives its input to the cipher in pieces that fill `inbuf`. -/
theorem cryptoLoop_eq (pool : ℕ → ℕ) (k : ℕ) (ctx : L.Ctx) (frames encrypted : List Frame) :
    match L.evp.run ctx (Streaming.chunks sizeOfInbuf (contents frames)) with
    | none => cryptoLoop pool k ctx frames encrypted = .failed
    | some outs => ∃ encrypted',
        cryptoLoop pool k ctx frames encrypted =
          replaceFrames (pool (k + outs.length)) encrypted' ∧
        contents encrypted' = contents encrypted ++ Streaming.kept (Fits pool) k outs := by
  induction k, ctx, frames, encrypted using cryptoLoop.induct pool with
  | case1 k ctx frames encrypted hend hfinish =>
    rw [(read_inbuf frames).1.1 hend, cryptoLoop, if_pos hend]
    simp [Streaming.Transform.run, hfinish]
  | case2 k ctx frames encrypted hend out hfinish =>
    rw [(read_inbuf frames).1.1 hend, cryptoLoop, if_pos hend]
    simp only [Streaming.chunks_nil, Streaming.Transform.run, hfinish, Option.map_some]
    refine ⟨_, rfl, ?_⟩
    rw [contents_append]
    simp [Streaming.kept]
  | case3 k ctx frames encrypted hmore hupdate =>
    obtain ⟨hend, htake, -⟩ := read_inbuf frames
    rw [Streaming.chunks_of_ne_nil sizeOfInbuf_pos (mt hend.2 hmore), cryptoLoop, if_neg hmore]
    rw [htake] at hupdate ⊢
    simp [Streaming.Transform.run, hupdate]
  | case4 k ctx frames encrypted hmore ctx' out hupdate ih =>
    obtain ⟨hend, htake, hdrop⟩ := read_inbuf frames
    rw [Streaming.chunks_of_ne_nil sizeOfInbuf_pos (mt hend.2 hmore), cryptoLoop, if_neg hmore]
    rw [hdrop] at ih
    rw [htake] at hupdate ⊢
    simp only [Streaming.Transform.run, hupdate, Option.bind_some]
    cases hrun : L.evp.run ctx' (Streaming.chunks sizeOfInbuf
        ((contents frames).drop sizeOfInbuf)) with
    | none =>
      rw [hrun] at ih
      exact ih
    | some outs =>
      rw [hrun] at ih
      obtain ⟨encrypted', hloop, hcontents⟩ := ih
      refine ⟨encrypted', ?_, ?_⟩
      · rw [hloop, List.length_cons, Nat.add_right_comm k 1]
        rfl
      · rw [hcontents, contents_append, Streaming.kept, List.append_assoc]

/-! ## The move -/

/-- The frames can be moved whole. -/
def Moves (avail : ℕ) (out : Bytes) : Prop := out.length < 2 ^ 31 ∧ (0 < avail ∨ out = [])

/-- What cannot be moved whole becomes shorter, or the move has no end. -/
theorem replaceFrames_eq (avail : ℕ) (encrypted : List Frame) :
    (Moves avail (contents encrypted) ∧
      ∃ frames, replaceFrames avail encrypted = .done frames ∧
        contents frames = contents encrypted) ∨
    (¬ Moves avail (contents encrypted) ∧
      (replaceFrames avail encrypted = .hangs ∨ ∃ frames,
        replaceFrames avail encrypted = .done frames ∧
          (contents frames).length < (contents encrypted).length)) := by
  rw [replaceFrames]
  by_cases havail : 0 < avail
  · rw [decide_eq_true havail]
    rcases Nat.lt_or_ge (contents encrypted).length (2 ^ 31) with hshort | hlong
    · obtain ⟨frames, rest, hmove, hframes, -⟩ :=
        frameMove_nat [] encrypted (contents encrypted).length
      rw [Transport.frameSize_eq hshort, hmove]
      exact .inl ⟨⟨hshort, .inl havail⟩, frames, rfl, by simp [hframes]⟩
    · refine .inr ⟨fun h => absurd h.1 (Nat.not_lt.2 hlong), ?_⟩
      have hsize : frameSize encrypted < 2 ^ 31 := wrapInt_lt _
      rcases Int.lt_or_le (frameSize encrypted) 0 with hneg | hnonneg
      · have hne : encrypted ≠ [] := by
          rintro rfl
          exact absurd hneg (by decide)
        rw [Transport.frameMove_neg hneg hne]
        exact .inl rfl
      · obtain ⟨n, hn⟩ := Int.eq_ofNat_of_zero_le hnonneg
        obtain ⟨frames, rest, hmove, hframes, -⟩ := frameMove_nat [] encrypted n
        rw [hn, hmove]
        refine .inr ⟨frames, rfl, ?_⟩
        rw [hframes, Transport.contents_nil, List.nil_append, List.length_take]
        omega
  · rw [decide_eq_false havail, frameMove]
    simp only [Bool.false_eq_true, if_false]
    by_cases hempty : contents encrypted = []
    · refine .inl ⟨⟨by rw [hempty]; decide, .inr hempty⟩, [], rfl, hempty.symm⟩
    · refine .inr ⟨fun h => (h.2.resolve_left havail |> hempty), .inr ⟨[], rfl, ?_⟩⟩
      exact List.length_pos_of_ne_nil hempty

/-! ## The whole -/

/-- Nothing of the outputs is lost. -/
structure Kept (pool : ℕ → ℕ) (outs : List Bytes) : Prop where
  appended : Streaming.AllFit (Fits pool) 0 outs
  moved : Moves (pool outs.length) outs.flatten

/-- The outputs of a cipher for the data `bs`. -/
def outputs (L : Library) (sessionKey : Bytes) (ciphers : UInt8) (encrypt : Bool) (bs : Bytes) :
    Option (List Bytes) :=
  L.evp.run (L.init (chooseCipher ciphers).1 sessionKey encrypt) (Streaming.chunks sizeOfInbuf bs)

/-- **`do_crypto`** leaves the whole output if nothing is lost, and otherwise less. -/
theorem doCrypto_eq (pool : ℕ → ℕ) (sessionKey : Bytes) (ciphers : UInt8) (encrypt : Bool)
    (frames : List Frame) :
    match outputs L sessionKey ciphers encrypt (contents frames) with
    | none => doCrypto L pool sessionKey ciphers encrypt frames = .failed
    | some outs =>
      (Kept pool outs ∧ ∃ frames', doCrypto L pool sessionKey ciphers encrypt frames =
        .done frames' ∧ contents frames' = outs.flatten) ∨
      (¬ Kept pool outs ∧ (doCrypto L pool sessionKey ciphers encrypt frames = .hangs ∨
        ∃ frames', doCrypto L pool sessionKey ciphers encrypt frames = .done frames' ∧
          (contents frames').length < outs.flatten.length)) := by
  have hloop := cryptoLoop_eq pool 0 (L.init (chooseCipher ciphers).1 sessionKey encrypt) frames []
  cases houts : outputs L sessionKey ciphers encrypt (contents frames) with
  | none =>
    rw [outputs] at houts
    rw [houts] at hloop
    exact hloop
  | some outs =>
    rw [outputs] at houts
    rw [houts] at hloop
    obtain ⟨encrypted, hrun, hcontents⟩ := hloop
    rw [Transport.contents_nil, List.nil_append] at hcontents
    simp only [doCrypto, hrun, Nat.zero_add]
    have hmove := replaceFrames_eq (pool outs.length) encrypted
    by_cases hfit : Streaming.AllFit (Fits pool) 0 outs
    · rw [hcontents, (Streaming.kept_eq_flatten_iff _ 0 outs).2 hfit] at hmove
      rcases hmove with ⟨hmoves, hdone⟩ | ⟨hmoves, hless⟩
      · exact .inl ⟨⟨hfit, hmoves⟩, hdone⟩
      · exact .inr ⟨fun h => hmoves h.moved, hless⟩
    · refine .inr ⟨fun h => hfit h.appended, ?_⟩
      have hlt := Streaming.length_kept_lt (Fits pool) 0 hfit
      rw [← hcontents] at hlt
      rcases hmove with ⟨-, frames', hdone, heq⟩ | ⟨-, hhangs | ⟨frames', hdone, hless⟩⟩
      · exact .inr ⟨frames', hdone, by rwa [heq]⟩
      · exact .inl hhangs
      · exact .inr ⟨frames', hdone, hless.trans hlt⟩

/-- Where no frame can be had there is an end, and nothing left. -/
theorem doCrypto_starved {sessionKey : Bytes} {ciphers : UInt8} {encrypt : Bool}
    {frames : List Frame}
    {outs : List Bytes} (h : outputs L sessionKey ciphers encrypt (contents frames) = some outs) :
    ∃ frames', doCrypto L (fun _ => 0) sessionKey ciphers encrypt frames = .done frames' := by
  have hloop := cryptoLoop_eq (fun _ => 0) 0 (L.init (chooseCipher ciphers).1 sessionKey encrypt)
    frames []
  rw [outputs] at h
  rw [h] at hloop
  obtain ⟨encrypted, hrun, hcontents⟩ := hloop
  have hnone : ∀ k out, ¬ Fits (fun _ => 0) k out := fun _ _ hfits => Nat.lt_irrefl 0 hfits.2
  rw [Streaming.kept_eq_nil hnone, Transport.contents_nil] at hcontents
  rw [doCrypto, hrun]
  rcases replaceFrames_eq 0 encrypted with ⟨-, frames', hdone, -⟩ | ⟨hnot, -⟩
  · exact ⟨frames', hdone⟩
  · exact absurd ⟨by rw [hcontents]; decide, .inr hcontents⟩ hnot

/-- An output that one frame has room for is kept wherever a frame can be had. -/
theorem kept_of_le {pool : ℕ → ℕ} (hpool : ∀ k, 0 < pool k) {outs : List Bytes}
    (h : outs.flatten.length ≤ sizeOfFrame - 1) : Kept pool outs := by
  refine ⟨Streaming.allFit_of_le ?_ h, Nat.lt_of_le_of_lt h (by decide), .inl (hpool _)⟩
  exact fun k c hc => ⟨hc.trans (Nat.le_mul_of_pos_right _ (hpool k)), hpool k⟩

end Mlvm.Security
