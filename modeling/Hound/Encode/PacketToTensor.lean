import Hound.Capture.ParseOptions
import Hound.Packet.Layout
import Mathlib.Tactic.IntervalCases

/-!
# The encoder row of a packet

`PacketToTensor` takes three slices of the first 148 bytes of a packet's blob. Their bounds are
meant to leave out the addresses and the ports. The blob holds the IP header in its bytes 0 to
59 and the transport header from byte 60 on for both protocols, but the bounds for UDP are those
of a layout with the UDP header at byte 120.

* `row_eq_iff` : two rows are equal iff the blobs agree inside the slices.
* `blob_getElem?_eq` : frames that differ in addresses and ports only have blobs that differ
  there only.
* `packetToTensor_eq_iff` : such frames have equal rows iff they are TCP or their ports agree.
* `readsInside_iff` : the 148 bytes lie inside the blob iff `opt.payload` is at least 20.
-/

namespace Hound

/-- What can stop the encoder. -/
inductive EncodeFault where
  /-- A read behind the end of a packet's blob. -/
  | outOfRange
  /-- A C++ exception. -/
  | exception
  deriving DecidableEq, Repr

/-- `n_digits`. -/
def nDigits : ℕ := 148

/-- `_end`: where the second slice ends. -/
def sliceEnd (protocol : ℕ) : ℕ := if protocol = ipprotoTCP then 60 else 120

/-- `_start`: where the third slice starts. -/
def sliceStart (protocol : ℕ) : ℕ := if protocol = ipprotoTCP then 64 else 124

/-- The concatenation of the three slices. -/
def rowOfBlob (protocol : ℕ) (ft : List UInt8) : List UInt8 :=
  ft.extract 0 12 ++ ft.extract 20 (sliceEnd protocol) ++ ft.extract (sliceStart protocol) nDigits

/-- `PacketToTensor`: `from_blob` takes 148 bytes from `mBlobData.data()`, whatever its size. -/
def packetToTensor (packet : ParsedPacket) (protocol : ℕ) : Except EncodeFault (List UInt8) :=
  if packet.mBlobData.length < nDigits then .error .outOfRange
  else .ok (rowOfBlob protocol (packet.mBlobData.take nDigits))

/-! ### Rows -/

theorem getElem?_extract {α : Type} (xs : List α) (a b i : ℕ) :
    (xs.extract a b)[i]? = if a + i < b then xs[a + i]? else none := by
  rw [List.extract_eq_take_drop, List.getElem?_take, List.getElem?_drop]
  have hiff : i < b - a ↔ a + i < b := by omega
  simp only [hiff]

/-- A slice is determined by the elements between its bounds. -/
theorem extract_eq_iff {α : Type} {xs ys : List α} {a b : ℕ} :
    xs.extract a b = ys.extract a b ↔ ∀ i, a ≤ i → i < b → xs[i]? = ys[i]? := by
  constructor
  · intro h i ha hb
    have hget := congrArg (·[i - a]?) h
    have hi : a + (i - a) = i := by omega
    simpa [getElem?_extract, hi, hb] using hget
  · intro h
    ext1 i
    rw [getElem?_extract, getElem?_extract]
    split
    · exact h _ (Nat.le_add_right a i) (by assumption)
    · rfl

/-- Two rows are equal exactly when the blobs agree inside the slices. -/
theorem row_eq_iff {protocol : ℕ} {xs ys : List UInt8} (hxs : xs.length = nDigits)
    (hys : ys.length = nDigits) :
    rowOfBlob protocol xs = rowOfBlob protocol ys ↔
      ∀ i < nDigits, (i < 12 ∨ (20 ≤ i ∧ i < sliceEnd protocol) ∨ sliceStart protocol ≤ i) →
        xs[i]? = ys[i]? := by
  have hlen : ∀ a b, (xs.extract a b).length = (ys.extract a b).length := by
    intro a b
    simp [hxs, hys]
  have hend : sliceEnd protocol ≤ nDigits := by
    unfold sliceEnd nDigits
    split <;> omega
  unfold rowOfBlob
  constructor
  · intro h i hi hin
    obtain ⟨h, hthird⟩ := List.append_inj h (by rw [List.length_append, List.length_append,
      hlen, hlen])
    obtain ⟨hfirst, hsecond⟩ := List.append_inj h (hlen _ _)
    rcases hin with hin | ⟨hge, hlt⟩ | hin
    · exact extract_eq_iff.mp hfirst i (Nat.zero_le i) hin
    · exact extract_eq_iff.mp hsecond i hge hlt
    · exact extract_eq_iff.mp hthird i hin hi
  · intro h
    have hfirst : xs.extract 0 12 = ys.extract 0 12 :=
      extract_eq_iff.mpr fun i _ hlt => h i (by unfold nDigits; omega) (Or.inl hlt)
    have hsecond : xs.extract 20 (sliceEnd protocol) = ys.extract 20 (sliceEnd protocol) :=
      extract_eq_iff.mpr fun i hge hlt => h i (by omega) (Or.inr (Or.inl ⟨hge, hlt⟩))
    have hthird : xs.extract (sliceStart protocol) nDigits =
        ys.extract (sliceStart protocol) nDigits :=
      extract_eq_iff.mpr fun i hge hlt => h i hlt (Or.inr (Or.inr hge))
    rw [hfirst, hsecond, hthird]

/-! ### Frames that differ in their endpoints only -/

open Hound.Frame

/-- The header fields announce the fixed part of the headers. -/
def WellFormed (f : List UInt8) : Prop :=
  5 ≤ ipHL f ∧ (protocol f = ipprotoTCP → 5 ≤ doff f)

instance (f : List UInt8) : Decidable (WellFormed f) := inferInstanceAs (Decidable (_ ∧ (_ → _)))

/-- The addresses lie before the transport header. -/
theorem WellFormed.transOffset_ge {f : List UInt8} (hwf : WellFormed f) :
    ipOffset f + 20 ≤ transOffset f := by
  have hhl := hwf.1
  unfold transOffset
  omega

/-- The transport header holds the ports. -/
theorem WellFormed.transLen_ge {f : List UInt8} (hwf : WellFormed f) : 8 ≤ transLen f := by
  unfold transLen
  split
  case isTrue htcp =>
    have hdoff := hwf.2 htcp
    omega
  case isFalse => omega

/-- Byte-identical frames, except possibly in the address fields and in the port fields. -/
structure SameExceptEndpoints (f g : List UInt8) : Prop where
  length_eq : f.length = g.length
  getElem?_eq : ∀ i, ¬(ipOffset f + 12 ≤ i ∧ i < ipOffset f + 20) →
    ¬(transOffset f ≤ i ∧ i < transOffset f + 4) → f[i]? = g[i]?

namespace SameExceptEndpoints

variable {f g : List UInt8} (h : SameExceptEndpoints f g) (hwf : WellFormed f)

include h

theorem byte_eq {i : ℕ} (haddr : ¬(ipOffset f + 12 ≤ i ∧ i < ipOffset f + 20))
    (hport : ¬(transOffset f ≤ i ∧ i < transOffset f + 4)) : byte f i = byte g i := by
  simp only [byte, List.getD_eq_getElem?_getD, h.getElem?_eq i haddr hport]

include hwf

theorem byte_eq_of_lt {i : ℕ} (hi : i < ipOffset f + 12) : byte f i = byte g i := by
  have htrans := hwf.transOffset_ge
  exact h.byte_eq (by omega) (by omega)

theorem tagLen_eq : tagLen f = tagLen g := by
  have hoff : 14 ≤ ipOffset f := Nat.le_add_left _ _
  unfold tagLen short
  rw [h.byte_eq_of_lt hwf (by omega), h.byte_eq_of_lt hwf (by omega)]

theorem ipOffset_eq : ipOffset f = ipOffset g := by
  rw [ipOffset, ipOffset, h.tagLen_eq hwf]

theorem protocol_eq : protocol f = protocol g := by
  rw [protocol, protocol, h.byte_eq_of_lt hwf (by omega), h.ipOffset_eq hwf]

theorem ipHL_eq : ipHL f = ipHL g := by
  rw [ipHL, ipHL, h.byte_eq_of_lt hwf (by omega), h.ipOffset_eq hwf]

theorem ipLen_eq : ipLen f = ipLen g := by
  rw [ipLen, ipLen, short, short, h.byte_eq_of_lt hwf (by omega),
    h.byte_eq_of_lt hwf (by omega), h.ipOffset_eq hwf]

theorem transOffset_eq : transOffset f = transOffset g := by
  rw [transOffset, transOffset, h.ipOffset_eq hwf, h.ipHL_eq hwf]

theorem transLen_eq : transLen f = transLen g := by
  have htrans := hwf.transOffset_ge
  have hdoff : doff f = doff g := by
    rw [doff, doff, h.byte_eq (by omega) (by omega), h.transOffset_eq hwf]
  rw [transLen, transLen, h.protocol_eq hwf, hdoff]

theorem payloadBytes_eq (opt : CaptureOption) : payloadBytes opt f = payloadBytes opt g := by
  rw [payloadBytes, payloadBytes, h.ipLen_eq hwf, h.ipHL_eq hwf, h.transLen_eq hwf]

end SameExceptEndpoints

/-! ### Their blobs -/

theorem getElem?_slice (bs : List UInt8) (a n i : ℕ) :
    (slice bs a n)[i]? = if i < n then bs[a + i]? else none := by
  rw [slice, List.getElem?_take, List.getElem?_drop]

/-- Two lists of one length that agree at an index still do when padded. -/
theorem getElem?_rightpad_eq {α : Type} {xs ys : List α} (hlen : xs.length = ys.length) (n : ℕ)
    (a : α) {i : ℕ} (h : xs[i]? = ys[i]?) : (xs.rightpad n a)[i]? = (ys.rightpad n a)[i]? := by
  rw [List.rightpad, List.rightpad, List.getElem?_append, List.getElem?_append, hlen, h]

/-- Frames that differ in their endpoints only have blobs that agree outside the bytes of the
addresses, 12 to 19, and of the ports, 60 to 63. -/
theorem blob_getElem?_eq {opt : CaptureOption} {f g : List UInt8}
    (hf : transOffset f + transLen f + (payloadBytes opt f).toNat ≤ f.length)
    (h : SameExceptEndpoints f g) (hwf : WellFormed f) {i : ℕ} (haddr : ¬(12 ≤ i ∧ i < 20))
    (hport : ¬(60 ≤ i ∧ i < 64)) : (blob opt f)[i]? = (blob opt g)[i]? := by
  have htrans := hwf.transOffset_ge
  have hlong := hwf.transLen_ge
  have hg : transOffset g + transLen g + (payloadBytes opt g).toNat ≤ g.length := by
    rw [← h.transOffset_eq hwf, ← h.transLen_eq hwf, ← h.payloadBytes_eq hwf, ← h.length_eq]
    exact hf
  rw [getElem?_blob hf, getElem?_blob hg]
  split_ifs with hi hi'
  · -- the IP header
    apply getElem?_rightpad_eq
    · rw [length_ipHeader (by omega), length_ipHeader (by omega), h.ipHL_eq hwf]
    · rw [ipHeader, ipHeader, getElem?_slice, getElem?_slice, h.ipHL_eq hwf, ← h.ipOffset_eq hwf]
      split_ifs with hlt
      · have hlt' : ipOffset f + i < transOffset f := by
          rw [transOffset, h.ipHL_eq hwf]
          omega
        exact h.getElem?_eq _ (by omega) (by omega)
      · rfl
  · -- the transport header
    apply getElem?_rightpad_eq
    · rw [length_transHeader (by omega), length_transHeader (by omega), h.transLen_eq hwf]
    · rw [transHeader, transHeader, getElem?_slice, getElem?_slice, h.transLen_eq hwf,
        ← h.transOffset_eq hwf]
      split_ifs
      · exact h.getElem?_eq _ (by omega) (by omega)
      · rfl
  · -- the payload
    apply getElem?_rightpad_eq
    · rw [length_payload hf, length_payload hg, h.payloadBytes_eq hwf]
    · rw [payload, payload, getElem?_slice, getElem?_slice, h.payloadBytes_eq hwf,
        ← h.transLen_eq hwf, ← h.transOffset_eq hwf]
      split_ifs
      · exact h.getElem?_eq _ (by omega) (by omega)
      · rfl

/-- The bytes 60 to 63 of a blob are the ports. -/
theorem blob_getElem?_port {opt : CaptureOption} {f : List UInt8}
    (hf : transOffset f + transLen f + (payloadBytes opt f).toNat ≤ f.length)
    (hwf : WellFormed f) {i : ℕ} (hi : i < 4) :
    (blob opt f)[60 + i]? = some (byte f (transOffset f + i)) := by
  have hlong := hwf.transLen_ge
  have hin : transOffset f + i < f.length := by omega
  have hlen := length_transHeader (show transOffset f + transLen f ≤ f.length by omega)
  rw [getElem?_blob hf, if_neg (by omega), if_pos (by omega), Nat.add_sub_cancel_left,
    List.rightpad, List.getElem?_append_left (by omega), transHeader, getElem?_slice,
    if_pos (by omega), byte, List.getD_eq_getElem?_getD, List.getElem?_eq_getElem hin]
  rfl

/-- The ports of two frames agree exactly when the bytes 60 to 63 of their blobs do. -/
theorem ports_eq_iff {opt : CaptureOption} {f g : List UInt8}
    (hf : transOffset f + transLen f + (payloadBytes opt f).toNat ≤ f.length)
    (hg : transOffset g + transLen g + (payloadBytes opt g).toNat ≤ g.length)
    (hwf : WellFormed f) (hwg : WellFormed g) :
    (srcPort f = srcPort g ∧ dstPort f = dstPort g) ↔
      ∀ i < 4, (blob opt f)[60 + i]? = (blob opt g)[60 + i]? := by
  constructor
  · rintro ⟨hsrc, hdst⟩ i hi
    rw [blob_getElem?_port hf hwf hi, blob_getElem?_port hg hwg hi]
    simp only [srcPort, dstPort, short, NetShort.mk.injEq] at hsrc hdst
    congr 1
    interval_cases i
    exacts [hsrc.1, hsrc.2, hdst.1, hdst.2]
  · intro h
    have hbyte : ∀ i < 4, byte f (transOffset f + i) = byte g (transOffset g + i) := by
      intro i hi
      have hget := h i hi
      rwa [blob_getElem?_port hf hwf hi, blob_getElem?_port hg hwg hi, Option.some.injEq] at hget
    simp only [srcPort, dstPort, short, NetShort.mk.injEq]
    exact ⟨⟨hbyte 0 (by omega), hbyte 1 (by omega)⟩, hbyte 2 (by omega), hbyte 3 (by omega)⟩

/-! ### The rows -/

/-- A packet whose blob has the full length is cut as it is. -/
theorem packetToTensor_of_length {p : ParsedPacket} {opt : CaptureOption} {f : List UInt8}
    (hblob : p.mBlobData = blob opt f) (hlen : (blob opt f).length = nDigits) :
    packetToTensor p p.protocol = .ok (rowOfBlob p.protocol (blob opt f)) := by
  rw [packetToTensor, hblob, if_neg (by omega), List.take_of_length_le (Nat.le_of_eq hlen)]

/-- No byte of an address is cut out. -/
theorem notAddr_of_cut {protocol i : ℕ}
    (hin : i < 12 ∨ (20 ≤ i ∧ i < sliceEnd protocol) ∨ sliceStart protocol ≤ i) :
    ¬(12 ≤ i ∧ i < 20) := by
  unfold sliceStart at hin
  split at hin <;> omega

/-- For two well-formed packets that differ in addresses and ports only, the encoder rows are
equal exactly for TCP, or when the ports are equal, too. -/
theorem packetToTensor_eq_iff {opt : CaptureOption} (hpay : opt.payload = 20) {f g : List UInt8}
    {p q : ParsedPacket} (hp : Accepts opt f p) (hq : Accepts opt g q) (hwf : WellFormed f)
    (hwg : WellFormed g) (hsame : SameExceptEndpoints f g) :
    ∃ row row', packetToTensor p p.protocol = .ok row ∧ packetToTensor q q.protocol = .ok row' ∧
      (row = row' ↔
        p.protocol = ipprotoTCP ∨ (srcPort f = srcPort g ∧ dstPort f = dstPort g)) := by
  obtain ⟨hnonneg, hextf, hcf, hprotop, -, hblobp⟩ := hp.spec
  obtain ⟨-, hextg, hcg, hprotoq, -, hblobq⟩ := hq.spec
  have hf := payload_le_of_extent hcf hextf
  have hg := payload_le_of_extent hcg hextg
  have h20 : opt.payload.toInt.toNat = 20 := by
    rw [hpay]
    decide
  have hlenf : (blob opt f).length = nDigits := by rw [length_blob hnonneg hf, h20]; rfl
  have hleng : (blob opt g).length = nDigits := by rw [length_blob hnonneg hg, h20]; rfl
  refine ⟨_, _, packetToTensor_of_length hblobp hlenf, packetToTensor_of_length hblobq hleng, ?_⟩
  rw [hprotop, hprotoq, ← hsame.protocol_eq hwf, row_eq_iff hlenf hleng,
    ports_eq_iff hf hg hwf hwg]
  constructor
  · intro hrows
    by_cases htcp : protocol f = ipprotoTCP
    · exact Or.inl htcp
    · -- the slices for UDP contain the bytes 60 to 63
      have hend : sliceEnd (protocol f) = 120 := if_neg htcp
      refine Or.inr fun i hi => hrows (60 + i) ?_ (Or.inr (Or.inl ⟨by omega, by omega⟩))
      unfold nDigits
      omega
  · rintro hor i hi hin
    by_cases hport : 60 ≤ i ∧ i < 64
    · obtain ⟨j, rfl⟩ := Nat.exists_eq_add_of_le hport.1
      rcases hor with htcp | hports
      · -- the slices for TCP leave the ports out
        have hend : sliceEnd (protocol f) = 60 := if_pos htcp
        have hstart : sliceStart (protocol f) = 64 := if_pos htcp
        omega
      · exact hports j (by omega)
    · exact blob_getElem?_eq hf hsame hwf (notAddr_of_cut hin) hport

/-- `udpFrame` with another source port. -/
def udpFrameOtherPort : List UInt8 := udpFrame.set 35 81

/-- A UDP packet and itself. -/
theorem packetToTensor_eq_udpFrame :
    ∃ row, packetToTensor (Frame.accepted {} 60 0 0 udpFrame) ipprotoUDP = .ok row := by
  obtain ⟨row, -, hrow, -⟩ := packetToTensor_eq_iff rfl accepts_udpFrame accepts_udpFrame
    (by decide) (by decide) ⟨rfl, fun _ _ _ => rfl⟩
  exact ⟨row, hrow⟩

set_option maxRecDepth 4000 in
/-- Two UDP packets that differ in a port only have different rows. -/
theorem packetToTensor_sees_udp_port :
    ¬∀ (opt : CaptureOption) (f g : List UInt8) (p q : ParsedPacket), opt.payload = 20 →
      Accepts opt f p → Accepts opt g q → WellFormed f → WellFormed g →
      p.protocol = q.protocol → SameExceptEndpoints f g →
      packetToTensor p p.protocol = packetToTensor q q.protocol := by
  intro h
  have hsame : SameExceptEndpoints udpFrame udpFrameOtherPort := by
    refine ⟨rfl, fun i _ hport => ?_⟩
    have hne : ¬35 = i := by
      rintro rfl
      exact hport (by decide)
    rw [udpFrameOtherPort, List.getElem?_set_ne hne]
  have hrows := h {} udpFrame udpFrameOtherPort _ _ rfl accepts_udpFrame
    (accepts_accepted (by decide) (by decide) (by decide)) (by decide) (by decide) (by decide) hsame
  revert hrows
  decide

/-! ### Reading inside the blob -/

/-- The 148 bytes that `from_blob` takes lie inside the blob, the bounds of the slices lie inside
the 148 bytes, and so the row is cut out of the packet's own blob. -/
structure ReadsInside (packet : ParsedPacket) (protocol : ℕ) : Prop where
  bytes : ∀ i < nDigits, i < packet.mBlobData.length
  firstEnd_le : 12 ≤ nDigits
  secondStart_le : 20 ≤ sliceEnd protocol
  secondEnd_le : sliceEnd protocol ≤ nDigits
  thirdStart_le : sliceStart protocol ≤ nDigits
  row_eq : packetToTensor packet protocol =
    .ok (rowOfBlob protocol (packet.mBlobData.take nDigits))

/-- A blob that is long enough is read inside its bounds, for every protocol. -/
theorem readsInside_of_length {packet : ParsedPacket} (h : nDigits ≤ packet.mBlobData.length)
    (protocol : ℕ) : ReadsInside packet protocol where
  bytes i hi := hi.trans_le h
  firstEnd_le := by decide
  secondStart_le := by
    unfold sliceEnd
    split <;> decide
  secondEnd_le := by
    unfold sliceEnd
    split <;> decide
  thirdStart_le := by
    unfold sliceStart
    split <;> decide
  row_eq := by rw [packetToTensor, if_neg (Nat.not_lt.mpr h)]

/-- `PacketToTensor` reads inside the blob of an accepted packet exactly when the payload region
has the size that `n_digits` was made for, or more. -/
theorem readsInside_iff {opt : CaptureOption} {f : List UInt8} {p : ParsedPacket}
    (hp : Accepts opt f p) (protocol : ℕ) : ReadsInside p protocol ↔ 20 ≤ opt.payload.toInt := by
  have hlen := hp.length_mBlobData
  constructor
  · intro hinside
    -- the last of the 148 bytes is one of the blob's
    have hlast := hinside.bytes 147 (by decide)
    omega
  · intro hlong
    apply readsInside_of_length
    rw [hlen, nDigits]
    omega

/-- With the default of 20 bytes of payload everything read is in the blob. -/
theorem readsInside_udpFrame : ReadsInside (Frame.accepted {} 60 0 0 udpFrame) ipprotoUDP :=
  (readsInside_iff accepts_udpFrame ipprotoUDP).mpr (by decide)

/-- `-p 0` is accepted, and the blobs of 128 bytes it makes are read 20 bytes too far. -/
theorem not_readsInside_of_payload_zero :
    ¬∀ (getoptLong : List String → List (Char × String)) (argv : List String)
      (opt : ProgramOption), parseOptions getoptLong {} argv = .ok opt → 0 ≤ opt.payload.toInt →
        ∀ f p, Accepts opt.toCaptureOption f p → ReadsInside p p.protocol := by
  intro h
  have hudp : Accepts { payload := 0 } udpFrame (Frame.accepted { payload := 0 } 60 0 0 udpFrame) :=
    accepts_accepted (by decide) (by decide) (by decide)
  have hinside := h getoptPairs ["hound", "-p", "0"] { payload := 0 } rfl (by decide) udpFrame _
    hudp
  have hbyte := hinside.bytes 128 (by decide)
  rw [hudp.length_mBlobData] at hbyte
  exact absurd hbyte (by decide)

end Hound
