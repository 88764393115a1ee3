import Hound.Packet.Frame
import Hound.ToMathlib.Except

/-!
# Which frames the parser can read

The parser takes `byte_arr.data()` and never looks at `byte_arr.size()`: nothing compares an
offset with the number of captured bytes. It stays inside them exactly on the frames whose
extent, which the frame's own header fields determine, was captured.

* `present_iff` : the accepted packets, in closed form.
* `parsedPacket_inBounds_iff` : the parser stays inside the captured bytes iff the extent of the
  frame is at most their number.
-/

namespace Hound

open Hound.Frame

/-! ### A negative payload option -/

/-- With a negative `opt.payload` `append` is asked for a negative number of bytes. -/
theorem copyPayloadToBlob_of_neg {opt : CaptureOption} (hneg : opt.payload.toInt < 0)
    {bs : List UInt8} {ip th : ℕ} {suffix : String} {off : ℕ} {pkt q : ParsedPacket} :
    copyPayloadToBlob opt bs ip th suffix off pkt ≠ .ok q := by
  intro h
  unfold copyPayloadToBlob at h
  obtain ⟨source, -, h⟩ := Except.bind_eq_ok_iff.mp h
  obtain ⟨dest, -, h⟩ := Except.bind_eq_ok_iff.mp h
  obtain ⟨ipLen, -, h⟩ := Except.bind_eq_ok_iff.mp h
  obtain ⟨ipHL, -, h⟩ := Except.bind_eq_ok_iff.mp h
  -- the minimum with a negative `opt.payload` is negative, whatever the header fields say
  have hlen : payloadLen opt ipLen.ntohs (ipHL &&& 0x0F).toNat off < 0 := by
    unfold payloadLen
    omega
  rw [if_pos hlen] at h
  cases h

theorem processIPv4Packet_of_neg {opt : CaptureOption} (hneg : opt.payload.toInt < 0)
    {bs : List UInt8} {ip : ℕ} {pkt q : ParsedPacket} :
    processIPv4Packet opt bs ip pkt ≠ .ok (true, q) := by
  intro h
  unfold processIPv4Packet at h
  obtain ⟨ipP, -, h⟩ := Except.bind_eq_ok_iff.mp h
  dsimp only at h
  split at h
  · cases h
  obtain ⟨s, -, h⟩ := Except.bind_eq_ok_iff.mp h
  obtain ⟨d, -, h⟩ := Except.bind_eq_ok_iff.mp h
  obtain ⟨ipHL, -, h⟩ := Except.bind_eq_ok_iff.mp h
  obtain ⟨ipHeader, -, h⟩ := Except.bind_eq_ok_iff.mp h
  -- TCP and UDP both end in `CopyPayloadToBlob`
  split at h
  · obtain ⟨doff, -, h⟩ := Except.bind_eq_ok_iff.mp h
    obtain ⟨tcpHeader, -, h⟩ := Except.bind_eq_ok_iff.mp h
    obtain ⟨pkt', hcopy, -⟩ := Except.bind_eq_ok_iff.mp h
    exact copyPayloadToBlob_of_neg hneg hcopy
  · obtain ⟨udpHeader, -, h⟩ := Except.bind_eq_ok_iff.mp h
    obtain ⟨pkt', hcopy, -⟩ := Except.bind_eq_ok_iff.mp h
    exact copyPayloadToBlob_of_neg hneg hcopy

/-- With a negative `opt.payload` no packet is accepted: `append` throws. -/
theorem payload_nonneg_of_present {opt : CaptureOption} {capLen tvSec tvUsec : ℤ}
    {bs : List UInt8} {p : ParsedPacket} (hp : parsedPacket opt capLen tvSec tvUsec bs = .ok p)
    (hpresent : p.present = true) : 0 ≤ opt.payload.toInt := by
  by_contra hneg
  have hneg' : opt.payload.toInt < 0 := by omega
  unfold parsedPacket at hp
  obtain ⟨⟨content, pkt⟩, hraw, hp⟩ := Except.bind_eq_ok_iff.mp hp
  cases hp
  change content = true at hpresent
  subst hpresent
  unfold processRawBytes at hraw
  obtain ⟨t, -, hraw⟩ := Except.bind_eq_ok_iff.mp hraw
  obtain ⟨t', -, hraw⟩ := Except.bind_eq_ok_iff.mp hraw
  split at hraw
  · cases hraw
  · exact processIPv4Packet_of_neg hneg' hraw

/-! ### The accepted packets -/

/-- What an accepted packet holds. -/
def Frame.accepted (opt : CaptureOption) (capLen tvSec tvUsec : ℤ) (bs : List UInt8) :
    ParsedPacket :=
  { protocol := protocol bs, mTsSec := tvSec, mTSuSec := tvUsec, mCapLen := capLen,
    mKey := key bs, mBlobData := blob opt bs, HasContent := true }

/-- A packet the parser builds from the bytes of a frame and accepts. -/
def Accepts (opt : CaptureOption) (bs : List UInt8) (p : ParsedPacket) : Prop :=
  ∃ capLen tvSec tvUsec, parsedPacket opt capLen tvSec tvUsec bs = .ok p ∧ p.present = true

/-- The packets the parser accepts: IPv4 with TCP or UDP whose extent was captured. -/
theorem present_iff (opt : CaptureOption) (hpay : 0 ≤ opt.payload.toInt)
    {capLen tvSec tvUsec : ℤ} {bs : List UInt8} {p : ParsedPacket} :
    parsedPacket opt capLen tvSec tvUsec bs = .ok p ∧ p.present = true ↔
      extent opt bs ≤ bs.length ∧ Carries bs ∧ p = Frame.accepted opt capLen tvSec tvUsec bs := by
  rw [(parsedPacket_readsTo opt hpay capLen tvSec tvUsec bs).eq_ok_iff, and_assoc]
  refine and_congr_right fun _ => ?_
  by_cases heth : etherType bs = ethertypeIPv4
  · by_cases hproto : protocol bs = ipprotoTCP ∨ protocol bs = ipprotoUDP
    · have hp : parsed opt capLen tvSec tvUsec bs =
          Frame.accepted opt capLen tvSec tvUsec bs := by
        rw [parsed, if_neg (not_not.mpr heth), if_pos hproto, Frame.accepted]
      rw [hp]
      constructor
      · rintro ⟨rfl, _⟩
        exact ⟨⟨heth, hproto⟩, rfl⟩
      · rintro ⟨_, rfl⟩
        exact ⟨rfl, rfl⟩
    · -- another protocol: read, but not accepted
      simp only [parsed, heth, hproto, ne_eq, not_true_eq_false, ↓reduceIte, Carries, and_false,
        false_and, iff_false, not_and, Bool.not_eq_true]
      rintro rfl
      rfl
  · -- no IPv4
    simp only [parsed, heth, ne_eq, not_false_eq_true, ↓reduceIte, Carries, false_and, iff_false,
      not_and, Bool.not_eq_true]
    rintro rfl
    rfl

/-- What is known of an accepted packet. -/
theorem Accepts.spec {opt : CaptureOption} {bs : List UInt8} {p : ParsedPacket}
    (h : Accepts opt bs p) :
    0 ≤ opt.payload.toInt ∧ extent opt bs ≤ bs.length ∧ Carries bs ∧
      p.protocol = protocol bs ∧ p.mKey = key bs ∧ p.mBlobData = blob opt bs := by
  obtain ⟨capLen, tvSec, tvUsec, hp, hpresent⟩ := h
  have hpay := payload_nonneg_of_present hp hpresent
  obtain ⟨hext, hcarries, rfl⟩ := (present_iff opt hpay).mp ⟨hp, hpresent⟩
  exact ⟨hpay, hext, hcarries, rfl, rfl, rfl⟩

/-- A TCP or UDP frame whose extent was captured is accepted. -/
theorem accepts_accepted {opt : CaptureOption} (hpay : 0 ≤ opt.payload.toInt) {bs : List UInt8}
    (hext : extent opt bs ≤ bs.length) (hcarries : Carries bs) :
    Accepts opt bs (Frame.accepted opt bs.length 0 0 bs) :=
  ⟨_, _, _, (present_iff opt hpay).mpr ⟨hext, hcarries, rfl⟩⟩

/-! ### Bounds -/

/-- The parser stays inside the captured bytes exactly when they reach as far as the header
fields of the frame make it look. -/
theorem parsedPacket_inBounds_iff (opt : CaptureOption) (hpay : 0 ≤ opt.payload.toInt)
    (capLen tvSec tvUsec : ℤ) (bs : List UInt8) :
    (∀ i, parsedPacket opt capLen tvSec tvUsec bs ≠ .error (.outOfRange i)) ↔
      extent opt bs ≤ bs.length :=
  (parsedPacket_readsTo opt hpay capLen tvSec tvUsec bs).forall_ne_outOfRange_iff

/-- A 60-byte Ethernet frame that carries an empty UDP datagram. -/
def udpFrame : List UInt8 :=
  List.replicate 12 0 ++ [0x08, 0x00] ++
    [0x45, 0, 0, 28, 0, 0, 0, 0, 64, 17, 0, 0, 10, 0, 0, 1, 10, 0, 0, 2] ++
    [0, 80, 0, 90, 0, 8, 0, 0] ++ List.replicate 18 0

theorem accepts_udpFrame : Accepts {} udpFrame (Frame.accepted {} 60 0 0 udpFrame) :=
  accepts_accepted (by decide) (by decide) (by decide)

/-- The whole frame is read within bounds. -/
theorem parsedPacket_inBounds_udpFrame :
    ∃ result, parsedPacket {} 60 0 0 udpFrame = result ∧ ∀ i, result ≠ .error (.outOfRange i) :=
  ⟨_, rfl, (parsedPacket_inBounds_iff {} (by decide) 60 0 0 udpFrame).mpr (by decide)⟩

/-- A frame that was cut behind its IPv4 header: the UDP header is read from offset 34, where
nothing was captured. -/
theorem parsedPacket_outOfRange_truncated :
    ¬∀ (opt : CaptureOption) (bs : List UInt8), 0 ≤ opt.payload.toInt →
      ∀ i, parsedPacket opt bs.length 0 0 bs ≠ .error (.outOfRange i) := by
  intro h
  refine h {} (udpFrame.take 34) (by decide) 34 ?_
  rfl

end Hound
