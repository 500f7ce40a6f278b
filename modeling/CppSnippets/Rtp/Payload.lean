import CppSnippets.Rtp.Receiver

/-!
# The payload of an RTP packet

RFC 3550 puts the list of sources and the header extension in front of a payload and
the padding behind it. `handle_datagram` skips the list only.
-/
namespace CppSnippets.Rtp

open CppSnippets.Lib

/-! ## The payload that the RFC delimits -/

def firstByte (d : List Byte) : Byte := d.headD 0

/-- `CC`, the number of sources. -/
def csrcCount (d : List Byte) : Nat := (firstByte d).toNat % 16

/-- `X` -/
def extended (d : List Byte) : Prop := (firstByte d).toNat / 16 % 2 = 1

/-- `P` -/
def padded (d : List Byte) : Prop := (firstByte d).toNat / 32 % 2 = 1

instance (d : List Byte) : Decidable (extended d) := inferInstanceAs (Decidable (_ = _))
instance (d : List Byte) : Decidable (padded d) := inferInstanceAs (Decidable (_ = _))

/-- An extension is a profile and a number of words, and then these words. -/
def skipExtension : List Byte → Option (List Byte)
  | _ :: _ :: l0 :: l1 :: rest =>
      let size := 4 * (ofBe16 l0 l1).toNat
      if rest.length < size then none else some (rest.drop size)
  | _ => none

/-- The last byte counts the padding, itself included. -/
def stripPadding (l : List Byte) : Option (List Byte) :=
  match l.getLast? with
  | none => none
  | some count =>
      if count = 0 ∨ l.length < count.toNat then none
      else some (l.take (l.length - count.toNat))

/-- The payload of a datagram, if its headers and padding are all there. -/
def rfcPayload (d : List Byte) : Option (List Byte) :=
  if d.length < 12 + 4 * csrcCount d then none
  else
    let rest := d.drop (12 + 4 * csrcCount d)
    (if extended d then skipExtension rest else some rest).bind fun l =>
      if padded d then stripPadding l else some l

theorem skipExtension_length {l l' : List Byte} (h : skipExtension l = some l') :
    l'.length < l.length := by
  unfold skipExtension at h
  split at h
  · dsimp only at h
    split at h
    · cases h
    · cases h
      simp only [List.length_drop, List.length_cons]
      omega
  · cases h

theorem stripPadding_length {l l' : List Byte} (h : stripPadding l = some l') :
    l'.length < l.length := by
  unfold stripPadding at h
  split at h
  · cases h
  · rename_i count _
    split at h
    · cases h
    · rename_i hcount
      obtain ⟨h0, hle⟩ := not_or.mp hcount
      have hpos : count.toNat ≠ 0 := fun h => h0 (UInt8.toNat_inj.mp h)
      cases h
      rw [List.length_take]
      omega

/-- The payload is shorter than what is behind the list of sources if it has an
extension in front or padding behind it. -/
theorem rfcPayload_shorter {d l : List Byte} (hx : extended d ∨ padded d)
    (h : rfcPayload d = some l) : l.length < (d.drop (12 + 4 * csrcCount d)).length := by
  unfold rfcPayload at h
  split at h
  · cases h
  · obtain ⟨rest, hrest, hl⟩ := Option.bind_eq_some_iff.mp h
    have hstart : rest.length ≤ (d.drop (12 + 4 * csrcCount d)).length := by
      split at hrest
      · exact (skipExtension_length hrest).le
      · cases hrest
        exact le_rfl
    by_cases hp : padded d
    · rw [if_pos hp] at hl
      exact (stripPadding_length hl).trans_le hstart
    · rw [if_neg hp] at hl
      rw [if_pos (hx.resolve_right hp)] at hrest
      cases hl
      exact skipExtension_length hrest

theorem rfcPayload_plain {d : List Byte} (hlen : ¬d.length < 12 + 4 * csrcCount d)
    (hx : ¬extended d) (hp : ¬padded d) :
    rfcPayload d = some (d.drop (12 + 4 * csrcCount d)) := by
  rw [rfcPayload, if_neg hlen]
  dsimp only
  rw [if_neg hx]
  exact if_neg hp

/-! ## The payload that the program takes -/

/-- The header, and what `nalu_incoming` is given behind it. -/
def handed (d : List Byte) : Option (RtpHeader × List Byte) :=
  (RtpHeader.cast d).map fun h => (h, d.drop h.length)

theorem handleDatagram_handed (r : Receiver) (d : List Byte) :
    handleDatagram r d = match handed d with
      | none => (r, [])
      | some (h, payload) =>
          let (bufp, es) := naluIncoming r.bufp h (continues r.expseq h.seq.toNat) payload
          (⟨h.seq.toNat + 1, bufp⟩, es) := by
  unfold handleDatagram handed
  cases RtpHeader.cast d <;> rfl

theorem cast_short {d : List Byte} (h : d.length < 12) : RtpHeader.cast d = none := by
  unfold RtpHeader.cast
  split
  · simp only [List.length_cons] at h
    omega
  · rfl

theorem cast_eq (d : List Byte) (h12 : 12 ≤ d.length) :
    ∃ h : RtpHeader, h.length = 12 + 4 * csrcCount d ∧
      RtpHeader.cast d = if d.length < h.length then none else some h := by
  match d, h12 with
  | b0 :: b1 :: s0 :: s1 :: t0 :: t1 :: t2 :: t3 :: r0 :: r1 :: r2 :: r3 :: rest, _ =>
    have hlen : (b0 :: b1 :: s0 :: s1 :: t0 :: t1 :: t2 :: t3 :: r0 :: r1 :: r2 :: r3 ::
        rest).length = 12 + rest.length := by
      simp only [List.length_cons]
      omega
    rw [hlen]
    exact ⟨_, rfl, rfl⟩

theorem handed_payload (d : List Byte) :
    (handed d).map Prod.snd =
      if d.length < 12 + 4 * csrcCount d then none
      else some (d.drop (12 + 4 * csrcCount d)) := by
  by_cases h12 : d.length < 12
  · rw [handed, cast_short h12, if_pos (by omega)]
    rfl
  · obtain ⟨h, hlen, hcast⟩ := cast_eq d (by omega)
    rw [handed, hcast, hlen]
    split
    · rfl
    · rw [← hlen]
      rfl

/-- The program and the RFC delimit the same payload, or both none. -/
def Delimits (d : List Byte) : Prop := (handed d).map Prod.snd = rfcPayload d

theorem delimits_iff (d : List Byte) :
    Delimits d ↔ d.length < 12 + 4 * csrcCount d ∨ ¬extended d ∧ ¬padded d := by
  rw [Delimits, handed_payload]
  constructor
  · intro h
    by_cases hlen : d.length < 12 + 4 * csrcCount d
    · exact .inl hlen
    · rw [if_neg hlen] at h
      refine .inr (not_or.mp fun hx => ?_)
      exact lt_irrefl _ (rfcPayload_shorter hx h.symm)
  · intro h
    by_cases hlen : d.length < 12 + 4 * csrcCount d
    · rw [rfcPayload, if_pos hlen, if_pos hlen]
    · obtain ⟨hx, hp⟩ := h.resolve_left hlen
      rw [if_neg hlen, rfcPayload_plain hlen hx hp]

/-- A single NAL unit of two bytes with two bytes of padding. -/
def paddedPacket : List Byte :=
  [0xA0, 96, 0, 1, 0, 0, 0, 0, 0, 0, 0, 7] ++ [0x65, 0x88] ++ [0, 2]

theorem not_delimits :
    ¬Delimits paddedPacket ∧ rfcPayload paddedPacket = some [0x65, 0x88] ∧
      (handed paddedPacket).map Prod.snd = some [0x65, 0x88, 0, 2] := by
  have hrfc : rfcPayload paddedPacket = some [0x65, 0x88] := by decide
  have hhanded : (handed paddedPacket).map Prod.snd = some [0x65, 0x88, 0, 2] := by decide
  refine ⟨fun h => ?_, hrfc, hhanded⟩
  rw [Delimits, hrfc, hhanded] at h
  exact absurd h (by decide)

end CppSnippets.Rtp
