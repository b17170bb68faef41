import Pluvio.Collective.AmRouter
import Pluvio.Collective.Tag
import Pluvio.Framing

/-!
# What the collectives write on the wire

A message of the collectives says four things about itself: who has sent it, the step, the
phase and the micro-chunk. On the path of active messages they are the header, of eight bytes,
and on the tag-matched path they are a tag of 64 bits. The two are one format: a tag is the
number whose bytes are the header (`Pluvio.encodeTag_eq_fromLeBytes`), and both name the sender
by its lowest sixteen bits.

A reader of headers takes what it needs and leaves the rest. `Pluvio.wire_format` says exactly
what it accepts, and when two messages have one tag.
-/

namespace Pluvio

namespace AmHeader

/-- Two bytes make a word, and the word has these bytes. -/
theorem toLeBytes_fromLeBytes (lo hi : UInt8) : toLeBytes (fromLeBytes lo hi) = [lo, hi] := by
  have hlo := lo.toNat_lt
  have hhi := hi.toNat_lt
  have hword : (fromLeBytes lo hi).toNat = lo.toNat + 256 * hi.toNat := by
    rw [fromLeBytes, UInt16.toNat_ofNat', Nat.mod_eq_of_lt (by omega)]
  have hlow : (lo.toNat + 256 * hi.toNat) % 256 = lo.toNat := by omega
  have hhigh : (lo.toNat + 256 * hi.toNat) / 256 = hi.toNat := by omega
  rw [toLeBytes, hword, hlow, hhigh, UInt8.ofNat_toNat, UInt8.ofNat_toNat]

/-- The bytes that are not reserved. -/
theorem take_encode (h : AmHeader) :
    h.encode.take 6 = toLeBytes h.src ++ toLeBytes h.step ++ [h.phase, h.microChunk] := rfl

/-- The eight bytes of a header, if there are as many. -/
theorem exists_of_bytes_le {bs : List UInt8} (h : bytes ≤ bs.length) :
    ∃ b0 b1 b2 b3 b4 b5 b6 b7 rest,
      bs = b0 :: b1 :: b2 :: b3 :: b4 :: b5 :: b6 :: b7 :: rest := by
  rcases bs with - | ⟨b0, - | ⟨b1, - | ⟨b2, - | ⟨b3, - | ⟨b4, - | ⟨b5, - | ⟨b6, - | ⟨b7, bs⟩⟩⟩⟩⟩⟩⟩⟩
  on_goal 9 => exact ⟨b0, b1, b2, b3, b4, b5, b6, b7, bs, rfl⟩
  all_goals simp [bytes] at h

/-- **What is read from a header**: the first six of at least eight bytes. -/
theorem decode_eq_ok_iff {bs : List UInt8} {h : AmHeader} :
    decode bs = .ok h ↔ bytes ≤ bs.length ∧ bs.take 6 = h.encode.take 6 := by
  rw [take_encode]
  unfold decode
  split
  · next b0 b1 b2 b3 b4 b5 b6 b7 rest =>
    constructor
    · rintro heq
      obtain rfl := Except.ok.inj heq
      refine ⟨?_, ?_⟩
      · simp [bytes]
      · simp [toLeBytes_fromLeBytes]
    · rintro ⟨-, htake⟩
      obtain ⟨src, step, phase, microChunk⟩ := h
      simp only [List.take_succ_cons, List.take_zero, toLeBytes, List.cons_append, List.nil_append,
        List.cons.injEq, and_true] at htake
      obtain ⟨rfl, rfl, rfl, rfl, rfl, rfl⟩ := htake
      rw [fromLeBytes_toLeBytes, fromLeBytes_toLeBytes]
  · next hshort =>
    refine iff_of_false (by simp) fun hlong => ?_
    obtain ⟨b0, b1, b2, b3, b4, b5, b6, b7, rest, rfl⟩ := exists_of_bytes_le hlong.1
    exact hshort b0 b1 b2 b3 b4 b5 b6 b7 rest rfl

/-- **And what is not**: fewer bytes than that, whose number is reported. -/
theorem decode_eq_error_iff {bs : List UInt8} {e : CollectiveError} :
    decode bs = .error e ↔ bs.length < bytes ∧ e = .badHeader bs.length bytes := by
  unfold decode
  split
  · refine iff_of_false (by simp) fun hshort => ?_
    have hlen := hshort.1
    simp only [List.length_cons, bytes] at hlen
    omega
  · next hshort =>
    rw [Except.error.injEq, eq_comm, iff_and_self]
    rintro -
    by_contra hlong
    obtain ⟨b0, b1, b2, b3, b4, b5, b6, b7, rest, rfl⟩ := exists_of_bytes_le (not_lt.mp hlong)
    exact hshort b0 b1 b2 b3 b4 b5 b6 b7 rest rfl

/-- **A header as a number**, its first byte the lowest. -/
theorem fromLeBytes_encode (h : AmHeader) : Framing.fromLeBytes h.encode =
    h.src.toNat + h.step.toNat * 2 ^ 16 + h.phase.toNat * 2 ^ 32 + h.microChunk.toNat * 2 ^ 40 := by
  have hsrc := h.src.toNat_lt
  have hstep := h.step.toNat_lt
  simp only [encode, toLeBytes, List.cons_append, List.nil_append, Framing.fromLeBytes,
    UInt8.toNat_ofNat']
  have hzero : (0 : UInt8).toNat = 0 := rfl
  omega

end AmHeader

/-- **A tag is a header**, read as a number. -/
theorem encodeTag_eq_fromLeBytes (src : ℕ) (step : UInt16) (phase microChunk : UInt8) :
    (encodeTag src step phase microChunk).toNat =
      Framing.fromLeBytes (AmHeader.encode ⟨UInt16.ofNat src, step, phase, microChunk⟩) := by
  rw [encodeTag_toNat, AmHeader.fromLeBytes_encode, UInt16.toNat_ofNat']

/-- **Two messages have one tag** if they say the same, and their senders have the same lowest
sixteen bits. -/
theorem encodeTag_eq_iff {src src' : ℕ} {step step' : UInt16}
    {phase phase' microChunk microChunk' : UInt8} :
    encodeTag src step phase microChunk = encodeTag src' step' phase' microChunk' ↔
      src % 2 ^ 16 = src' % 2 ^ 16 ∧ step = step' ∧ phase = phase' ∧ microChunk = microChunk' := by
  constructor
  · intro heq
    have hnat := congrArg UInt64.toNat heq
    rw [encodeTag_toNat, encodeTag_toNat] at hnat
    have hsrc := Nat.mod_lt src (Nat.two_pow_pos 16)
    have hsrc' := Nat.mod_lt src' (Nat.two_pow_pos 16)
    have hstep := step.toNat_lt
    have hstep' := step'.toNat_lt
    have hphase := phase.toNat_lt
    have hphase' := phase'.toNat_lt
    rw [← UInt16.toNat_inj, ← UInt8.toNat_inj, ← UInt8.toNat_inj]
    omega
  · rintro ⟨hsrc, rfl, rfl, rfl⟩
    rw [← UInt64.toNat_inj, encodeTag_toNat, encodeTag_toNat, hsrc]

/-- **The format of the wire**: what is accepted as a header, what is refused and how, and that
a tag is a header, so that two messages have one tag exactly if they have one header. -/
theorem wire_format :
    (∀ bs h, AmHeader.decode bs = .ok h ↔
      AmHeader.bytes ≤ bs.length ∧ bs.take 6 = h.encode.take 6) ∧
    (∀ bs e, AmHeader.decode bs = .error e ↔
      bs.length < AmHeader.bytes ∧ e = .badHeader bs.length AmHeader.bytes) ∧
    (∀ src step phase microChunk, (encodeTag src step phase microChunk).toNat =
      Framing.fromLeBytes (AmHeader.encode ⟨UInt16.ofNat src, step, phase, microChunk⟩)) ∧
    (∀ src src' step step' phase phase' microChunk microChunk',
      encodeTag src step phase microChunk = encodeTag src' step' phase' microChunk' ↔
        AmHeader.encode ⟨UInt16.ofNat src, step, phase, microChunk⟩ =
          AmHeader.encode ⟨UInt16.ofNat src', step', phase', microChunk'⟩) := by
  refine ⟨fun _ _ => AmHeader.decode_eq_ok_iff, fun _ _ => AmHeader.decode_eq_error_iff,
    encodeTag_eq_fromLeBytes, fun src src' _ _ _ _ _ _ => ?_⟩
  have hsrc : src % 2 ^ 16 = src' % 2 ^ 16 ↔ UInt16.ofNat src = UInt16.ofNat src' := by
    rw [← UInt16.toNat_inj, UInt16.toNat_ofNat', UInt16.toNat_ofNat']
  rw [encodeTag_eq_iff, hsrc]
  constructor
  · rintro ⟨hsrc, rfl, rfl, rfl⟩
    rw [hsrc]
  · intro heq
    have hread := congrArg AmHeader.decode heq
    rw [AmHeader.decode_encode, AmHeader.decode_encode, Except.ok.injEq, AmHeader.mk.injEq] at hread
    exact hread

end Pluvio
