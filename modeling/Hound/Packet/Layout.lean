import Hound.Packet.Bounds

/-!
# The layout of the blob

The encoder cuts a packet's blob at fixed offsets. Whatever the header fields of a packet say, its
IP header starts at byte 0 of the blob, its transport header at byte 60 and its payload at byte
128, and what is short of the next region is filled with zeros.

* `length_blob`, `getElem?_blob` : the length of a blob and its three regions.
* `blobLayout_of_accepts` : the layout of every accepted packet.
-/

namespace Hound

open Hound.Frame

/-- The payload of an accepted frame was captured. -/
theorem payload_le_of_extent {opt : CaptureOption} {f : List UInt8} (hcarries : Carries f)
    (hext : extent opt f ≤ f.length) :
    transOffset f + transLen f + (payloadBytes opt f).toNat ≤ f.length := by
  rw [extent, if_neg (not_not.mpr hcarries.1)] at hext
  split at hext
  case isTrue => omega
  case isFalse htcp =>
    rw [if_pos (hcarries.2.resolve_left htcp)] at hext
    omega

theorem length_paddedIpHeader {f : List UInt8} (h : transOffset f ≤ f.length) :
    ((ipHeader f).rightpad 60 (0 : UInt8)).length = 60 := by
  have hhl := ipHL_lt f
  rw [List.length_rightpad, length_ipHeader h]
  omega

theorem length_paddedTransHeader {f : List UInt8} (h : transOffset f + transLen f ≤ f.length) :
    ((transHeader f).rightpad 68 (0 : UInt8)).length = 68 := by
  have htl := transLen_le f
  rw [List.length_rightpad, length_transHeader h]
  omega

/-- The length of the blob does not depend on the frame. -/
theorem length_blob {opt : CaptureOption} (hpay : 0 ≤ opt.payload.toInt) {f : List UInt8}
    (hext : transOffset f + transLen f + (payloadBytes opt f).toNat ≤ f.length) :
    (blob opt f).length = 128 + opt.payload.toInt.toNat := by
  have hpl := payloadBytes_le hpay f
  rw [blob, List.length_append, List.length_append, length_paddedIpHeader (by omega),
    length_paddedTransHeader (by omega), List.length_rightpad, length_payload hext]
  omega

/-- So the blobs of all accepted packets have one length. -/
theorem Accepts.length_mBlobData {opt : CaptureOption} {f : List UInt8} {p : ParsedPacket}
    (h : Accepts opt f p) : p.mBlobData.length = 128 + opt.payload.toInt.toNat := by
  obtain ⟨hpay, hext, hcarries, -, -, hblob⟩ := h.spec
  rw [hblob, length_blob hpay (payload_le_of_extent hcarries hext)]

/-- The bounds of the three regions of a blob. -/
theorem getElem?_blob {opt : CaptureOption} {f : List UInt8}
    (hext : transOffset f + transLen f + (payloadBytes opt f).toNat ≤ f.length) (i : ℕ) :
    (blob opt f)[i]? =
      if i < 60 then ((ipHeader f).rightpad 60 0)[i]?
      else if i < 128 then ((transHeader f).rightpad 68 0)[i - 60]?
      else ((payload opt f).rightpad opt.payload.toInt.toNat 0)[i - 128]? := by
  have hpos : i - (60 + 68) = i - 128 := by omega
  rw [blob, List.getElem?_append, List.getElem?_append, List.length_append,
    length_paddedIpHeader (by omega), length_paddedTransHeader (by omega), hpos]
  split_ifs <;> first | rfl | omega

/-- The layout of the blob that is made of a frame. -/
structure BlobLayout (opt : CaptureOption) (bs blob : List UInt8) : Prop where
  length_eq : blob.length = 128 + opt.payload.toInt.toNat
  /-- What is copied was captured. -/
  captured : transOffset bs + transLen bs + (payloadBytes opt bs).toNat ≤ bs.length
  ipHeader_eq : blob.extract 0 60 =
    slice bs (ipOffset bs) (ipHL bs * 4) ++ List.replicate (60 - ipHL bs * 4) 0
  tcpHeader_eq : protocol bs = ipprotoTCP → blob.extract 60 128 =
    slice bs (transOffset bs) (doff bs * 4) ++ List.replicate (68 - doff bs * 4) 0
  udpHeader_eq : protocol bs = ipprotoUDP → blob.extract 60 128 =
    slice bs (transOffset bs) 8 ++ List.replicate 60 0
  /-- `payloadBytes` is `min(max(ip_len - ip_hl * 4 - transLen, 0), opt.payload)`. -/
  payload_eq : blob.drop 128 = slice bs (transOffset bs + transLen bs) (payloadBytes opt bs).toNat ++
    List.replicate (opt.payload.toInt.toNat - (payloadBytes opt bs).toNat) 0

/-- The regions of a blob whose frame was captured. -/
theorem regions_blob {opt : CaptureOption} {bs : List UInt8}
    (hext : transOffset bs + transLen bs + (payloadBytes opt bs).toNat ≤ bs.length) :
    (blob opt bs).extract 0 60 = (ipHeader bs).rightpad 60 0 ∧
      (blob opt bs).extract 60 128 = (transHeader bs).rightpad 68 0 ∧
      (blob opt bs).drop 128 = (payload opt bs).rightpad opt.payload.toInt.toNat 0 := by
  have hip := length_paddedIpHeader (f := bs) (by omega)
  have htrans := length_paddedTransHeader (f := bs) (by omega)
  have hheaders : 128 =
      ((ipHeader bs).rightpad 60 0 ++ (transHeader bs).rightpad 68 (0 : UInt8)).length := by
    rw [List.length_append, hip, htrans]
  -- the padded headers are 60 and 68 bytes long, so each cut falls between two parts of the blob
  refine ⟨?_, ?_, ?_⟩
  · rw [List.extract_eq_take_drop, List.drop_zero, blob, List.append_assoc]
    exact List.take_left' hip
  · rw [List.extract_eq_take_drop, blob, List.append_assoc, List.drop_left' hip]
    exact List.take_left' htrans
  · rw [blob]
    exact List.drop_left' hheaders.symm

/-- Every accepted packet is TCP or UDP, and its blob has the fixed layout. -/
theorem blobLayout_of_accepts {opt : CaptureOption} {bs : List UInt8} {p : ParsedPacket}
    (h : Accepts opt bs p) :
    p.protocol = protocol bs ∧ (protocol bs = ipprotoTCP ∨ protocol bs = ipprotoUDP) ∧
      BlobLayout opt bs p.mBlobData := by
  obtain ⟨-, hext, hcarries, hproto, -, hblob⟩ := h.spec
  have hcaptured := payload_le_of_extent hcarries hext
  obtain ⟨hip, htrans, hpl⟩ := regions_blob hcaptured
  have hlenIp : (ipHeader bs).length = ipHL bs * 4 := length_ipHeader (by omega)
  have hlenTrans : (transHeader bs).length = transLen bs := length_transHeader (by omega)
  have hlenPl := length_payload hcaptured
  have hne : ipprotoUDP ≠ ipprotoTCP := by decide
  refine ⟨hproto, hcarries.2, ?_⟩
  have hlength := h.length_mBlobData
  rw [hblob] at hlength ⊢
  refine ⟨hlength, hcaptured, ?_, fun htcp => ?_, fun hudp => ?_, ?_⟩
  · rw [hip, List.rightpad, hlenIp]
    rfl
  · -- a TCP header says how long it is
    have hlen : transLen bs = doff bs * 4 := if_pos htcp
    rw [htrans, List.rightpad, hlenTrans, transHeader, hlen]
  · -- a UDP header has eight bytes
    have hlen : transLen bs = 8 := if_neg (hudp ▸ hne)
    rw [htrans, List.rightpad, hlenTrans, transHeader, hlen]
  · rw [hpl, List.rightpad, hlenPl]
    rfl

/-- The blob of `udpFrame`. -/
theorem blobLayout_udpFrame : (Frame.accepted {} 60 0 0 udpFrame).mBlobData.length = 148 ∧
    (Frame.accepted {} 60 0 0 udpFrame).mBlobData.extract 60 128 =
      [0, 80, 0, 90, 0, 8, 0, 0] ++ List.replicate 60 0 := by
  obtain ⟨-, -, hlayout⟩ := blobLayout_of_accepts accepts_udpFrame
  exact ⟨hlayout.length_eq, hlayout.udpHeader_eq (by decide)⟩

end Hound
