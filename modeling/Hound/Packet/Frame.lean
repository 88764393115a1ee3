import Hound.Packet.Parse
import Mathlib.Data.List.Basic
import Mathlib.Tactic.Common

/-!
# Frames as the parser sees them

The fields the parser reads, as total functions of the captured bytes (a byte that was not
captured counts as zero), and the parser in closed form over them:

* `Frame.extent` : how many bytes the header fields of a frame make the parser look at.
* `parsedPacket_readsTo` : the constructor succeeds exactly when that many bytes were captured,
  with the key and the blob of `Frame.parsed`; otherwise it reads out of range.
-/

namespace Hound

/-! ### Partial reads and their bounds -/

/-- `r` succeeds with `v` when the bound `p` holds, and reads out of range when it does not. -/
def ReadsTo {α : Type} (r : Except ParseFault α) (p : Prop) (v : α) : Prop :=
  (p → r = .ok v) ∧ (¬p → ∃ i, r = .error (.outOfRange i))

namespace ReadsTo

variable {α β : Type} {r : Except ParseFault α} {p q : Prop} {v : α}

/-- Computing with what was read reads nothing more. -/
theorem map (f : α → β) (hr : ReadsTo r p v) : ReadsTo (r >>= fun x => .ok (f x)) p (f v) := by
  refine ⟨fun hp => ?_, fun hp => ?_⟩
  · rw [hr.1 hp]
    rfl
  · obtain ⟨i, hi⟩ := hr.2 hp
    exact ⟨i, by rw [hi]; rfl⟩

/-- Two reads in sequence are within bounds when both are. -/
theorem bind {f : α → Except ParseFault β} {w : β} (hr : ReadsTo r p v)
    (hf : ReadsTo (f v) q w) : ReadsTo (r >>= f) (p ∧ q) w := by
  refine ⟨fun ⟨hp, hq⟩ => ?_, fun hpq => ?_⟩
  · rw [hr.1 hp]
    exact hf.1 hq
  · by_cases hp : p
    · rw [hr.1 hp]
      exact hf.2 fun hq => hpq ⟨hp, hq⟩
    · obtain ⟨i, hi⟩ := hr.2 hp
      exact ⟨i, by rw [hi]; rfl⟩

theorem ite_pos {c : Prop} [Decidable c] {e : Except ParseFault α} (hc : c)
    (h : ReadsTo r p v) : ReadsTo (if c then r else e) p v := by
  rwa [if_pos hc]

theorem ite_neg {c : Prop} [Decidable c] {t : Except ParseFault α} (hc : ¬c)
    (h : ReadsTo r p v) : ReadsTo (if c then t else r) p v := by
  rwa [if_neg hc]

theorem congr (h : ReadsTo r p v) (hpq : p ↔ q) : ReadsTo r q v :=
  ⟨fun hq => h.1 (hpq.mpr hq), fun hq => h.2 fun hp => hq (hpq.mp hp)⟩

/-- The value matters only within bounds. -/
theorem congr_value {w : α} (h : ReadsTo r p v) (hvw : p → v = w) : ReadsTo r p w :=
  ⟨fun hp => hvw hp ▸ h.1 hp, h.2⟩

/-- A successful read was within bounds, with the value named. -/
theorem eq_ok_iff (h : ReadsTo r p v) (w : α) : r = .ok w ↔ p ∧ w = v := by
  by_cases hp : p
  · simp [h.1 hp, hp, eq_comm]
  · obtain ⟨i, hi⟩ := h.2 hp
    simp [hi, hp]

/-- The read stays within bounds exactly when the bound holds. -/
theorem forall_ne_outOfRange_iff (h : ReadsTo r p v) :
    (∀ i, r ≠ .error (.outOfRange i)) ↔ p := by
  by_cases hp : p
  · simp [h.1 hp, hp]
  · obtain ⟨i, hi⟩ := h.2 hp
    simp [hi, hp]

end ReadsTo

/-! ### The fields of a frame -/

namespace Frame

/-- The byte at an offset; zero if it was not captured. -/
def byte (bs : List UInt8) (i : ℕ) : UInt8 := bs.getD i 0

/-- The two-byte field at an offset. -/
def short (bs : List UInt8) (i : ℕ) : NetShort := ⟨byte bs i, byte bs (i + 1)⟩

/-- The address field at an offset. -/
def addr (bs : List UInt8) (i : ℕ) : InAddr :=
  ⟨byte bs i, byte bs (i + 1), byte bs (i + 2), byte bs (i + 3)⟩

/-- The `n` bytes from an offset, as far as they were captured. -/
def slice (bs : List UInt8) (i n : ℕ) : List UInt8 := (bs.drop i).take n

/-- The length of the VLAN tag, zero for an untagged frame. -/
def tagLen (bs : List UInt8) : ℕ := if (short bs 12).ntohs = ethertypeVLAN then 4 else 0

/-- The ether type behind the tag. -/
def etherType (bs : List UInt8) : ℕ := (short bs (tagLen bs + 12)).ntohs

/-- Offset of the IPv4 header. -/
def ipOffset (bs : List UInt8) : ℕ := tagLen bs + 14

/-- The field `ip_p`. -/
def protocol (bs : List UInt8) : ℕ := (byte bs (ipOffset bs + 9)).toNat

/-- The field `ip_hl`, in words of four bytes. -/
def ipHL (bs : List UInt8) : ℕ := (byte bs (ipOffset bs) &&& 0x0F).toNat

/-- The field `ip_len`. -/
def ipLen (bs : List UInt8) : ℕ := (short bs (ipOffset bs + 2)).ntohs

/-- The source address. -/
def src (bs : List UInt8) : InAddr := addr bs (ipOffset bs + 12)

/-- The destination address. -/
def dst (bs : List UInt8) : InAddr := addr bs (ipOffset bs + 16)

/-- Offset of the transport header. -/
def transOffset (bs : List UInt8) : ℕ := ipOffset bs + ipHL bs * 4

/-- The field `doff` of a TCP header, in words of four bytes. -/
def doff (bs : List UInt8) : ℕ := (byte bs (transOffset bs + 12) >>> 4).toNat

/-- Length of the transport header: `doff * 4` for TCP, 8 for UDP. -/
def transLen (bs : List UInt8) : ℕ := if protocol bs = ipprotoTCP then doff bs * 4 else 8

/-- The source port. -/
def srcPort (bs : List UInt8) : NetShort := short bs (transOffset bs)

/-- The destination port. -/
def dstPort (bs : List UInt8) : NetShort := short bs (transOffset bs + 2)

/-- The number of payload bytes kept. -/
def payloadBytes (opt : CaptureOption) (bs : List UInt8) : ℤ :=
  payloadLen opt (ipLen bs) (ipHL bs) (transLen bs)

/-- The IP header bytes. -/
def ipHeader (bs : List UInt8) : List UInt8 := slice bs (ipOffset bs) (ipHL bs * 4)

/-- The transport header bytes. -/
def transHeader (bs : List UInt8) : List UInt8 := slice bs (transOffset bs) (transLen bs)

/-- The payload bytes kept. -/
def payload (opt : CaptureOption) (bs : List UInt8) : List UInt8 :=
  slice bs (transOffset bs + transLen bs) (payloadBytes opt bs).toNat

/-- The frame carries IPv4 with TCP or UDP. -/
def Carries (bs : List UInt8) : Prop :=
  etherType bs = ethertypeIPv4 ∧ (protocol bs = ipprotoTCP ∨ protocol bs = ipprotoUDP)

instance (bs : List UInt8) : Decidable (Carries bs) :=
  inferInstanceAs (Decidable (_ ∧ (_ ∨ _)))

/-- The bytes the header fields of the frame make the parser look at: the Ethernet header, the
fixed part of the IPv4 header of a TCP or UDP packet, and everything up to the end of the
payload that `ip_len` announces and `opt.payload` keeps. -/
def extent (opt : CaptureOption) (bs : List UInt8) : ℕ :=
  if etherType bs ≠ ethertypeIPv4 then ipOffset bs
  else if protocol bs = ipprotoTCP then
    max (ipOffset bs + 20) (max (transOffset bs + 13)
      (transOffset bs + transLen bs + (payloadBytes opt bs).toNat))
  else if protocol bs = ipprotoUDP then
    max (ipOffset bs + 20) (transOffset bs + transLen bs + (payloadBytes opt bs).toNat)
  else ipOffset bs + 10

/-- The flow key: the ordered addresses, then the ordered ports, then the protocol. -/
def key (bs : List UInt8) : String :=
  "" ++ inetNtoa (orderedAddrs (src bs) (dst bs)).1 ++ "_" ++
    inetNtoa (orderedAddrs (src bs) (dst bs)).2 ++ "_" ++
    Nat.repr (orderedPorts (srcPort bs) (dstPort bs)).1 ++ "_" ++
    Nat.repr (orderedPorts (srcPort bs) (dstPort bs)).2 ++
    (if protocol bs = ipprotoTCP then "_TCP" else "_UDP")

/-- The blob: the IP header padded to 60 bytes, the transport header padded to 68, and the
payload padded to `opt.payload`. -/
def blob (opt : CaptureOption) (bs : List UInt8) : List UInt8 :=
  (ipHeader bs).rightpad 60 0 ++ (transHeader bs).rightpad 68 0 ++
    (payload opt bs).rightpad opt.payload.toInt.toNat 0

/-- The packet the constructor builds from a frame it can read. -/
def parsed (opt : CaptureOption) (capLen tvSec tvUsec : ℤ) (bs : List UInt8) : ParsedPacket :=
  if etherType bs ≠ ethertypeIPv4 then
    { mCapLen := capLen, mTsSec := tvSec, mTSuSec := tvUsec }
  else if protocol bs = ipprotoTCP ∨ protocol bs = ipprotoUDP then
    { protocol := protocol bs, mCapLen := capLen, mTsSec := tvSec, mTSuSec := tvUsec,
      mKey := key bs, mBlobData := blob opt bs, HasContent := true }
  else
    { protocol := protocol bs, mCapLen := capLen, mTsSec := tvSec, mTSuSec := tvUsec }

theorem length_slice {bs : List UInt8} {i n : ℕ} (h : n = 0 ∨ i + n ≤ bs.length) :
    (slice bs i n).length = n := by
  simp only [slice, List.length_take, List.length_drop]
  omega

end Frame

/-! ### The parser reads exactly the extent -/

open Hound.Frame

theorem byteAt_readsTo (bs : List UInt8) (i : ℕ) :
    ReadsTo (byteAt bs i) (i < bs.length) (byte bs i) := by
  constructor
  · intro h
    simp [byteAt, byte, List.getD_eq_getElem?_getD, h]
  · intro h
    exact ⟨i, by simp [byteAt, List.getElem?_eq_none (Nat.le_of_not_lt h)]⟩

theorem shortAt_readsTo (bs : List UInt8) (i : ℕ) :
    ReadsTo (shortAt bs i) (i + 1 < bs.length) (short bs i) :=
  ((byteAt_readsTo bs i).bind ((byteAt_readsTo bs (i + 1)).map _)).congr (by omega)

theorem inAddrAt_readsTo (bs : List UInt8) (i : ℕ) :
    ReadsTo (inAddrAt bs i) (i + 3 < bs.length) (addr bs i) :=
  ((byteAt_readsTo bs i).bind ((byteAt_readsTo bs (i + 1)).bind
    ((byteAt_readsTo bs (i + 2)).bind ((byteAt_readsTo bs (i + 3)).map _)))).congr (by omega)

theorem bytesAt_readsTo (bs : List UInt8) (i n : ℕ) :
    ReadsTo (bytesAt bs i n) (n = 0 ∨ i + n ≤ bs.length) (slice bs i n) := by
  constructor
  · rintro (rfl | h)
    · simp [bytesAt, slice]
    · by_cases hn : n = 0
      · simp [bytesAt, slice, hn]
      · simp [bytesAt, slice, hn, h]
  · intro h
    rw [not_or] at h
    exact ⟨_, by rw [bytesAt, if_neg h.1, if_neg h.2]⟩

/-- `CopyPayloadToBlob` at a nonnegative `opt.payload`, with its padding as computed. -/
theorem copyPayloadToBlob_readsTo (opt : CaptureOption) (hpay : 0 ≤ opt.payload.toInt)
    (bs : List UInt8) (ip th : ℕ) (suffix : String) (off : ℕ) (pkt : ParsedPacket) :
    let len := payloadLen opt (short bs (ip + 2)).ntohs (byte bs ip &&& 0x0F).toNat off
    let blob := pkt.mBlobData ++ slice bs (th + off) len.toNat
    let padding := ((opt.payload + 128).toInt - blob.length).bmod (2 ^ 32)
    ReadsTo (copyPayloadToBlob opt bs ip th suffix off pkt)
      (th + 3 < bs.length ∧ ip + 3 < bs.length ∧
        (len.toNat = 0 ∨ th + off + len.toNat ≤ bs.length))
      { pkt with
        mKey := pkt.mKey ++ Nat.repr (orderedPorts (short bs th) (short bs (th + 2))).1 ++ "_" ++
          Nat.repr (orderedPorts (short bs th) (short bs (th + 2))).2 ++ suffix
        mBlobData := if padding > 0 then blob ++ List.replicate padding.toNat 0 else blob } := by
  intro len blob padding
  have hlen : ¬len < 0 := by
    simp only [len, payloadLen]
    omega
  refine ReadsTo.congr ((shortAt_readsTo bs th).bind ((shortAt_readsTo bs (th + 2)).bind
    ((shortAt_readsTo bs (ip + 2)).bind ((byteAt_readsTo bs ip).bind
      (q := len.toNat = 0 ∨ th + off + len.toNat ≤ bs.length) ?_)))) (by omega)
  -- with a nonnegative length `append` does not throw, and the payload is one more read
  rw [if_neg hlen]
  exact (bytesAt_readsTo bs (th + off) len.toNat).map _

/-- The padding of `CopyPayloadToBlob` fills the payload region, whatever `opt.payload` is: the
overflow of `opt.payload + 128` is undone by the conversion back to `int`. -/
theorem padding_eq {opt : CaptureOption} (hpay : 0 ≤ opt.payload.toInt) {n : ℕ}
    (hn : (n : ℤ) ≤ opt.payload.toInt) :
    ((opt.payload + 128).toInt - (128 + n : ℕ)).bmod (2 ^ 32) = opt.payload.toInt - n := by
  have hlt := opt.payload.toInt_lt
  have h128 : (128 : Int32).toInt = 128 := by decide
  rw [Int32.toInt_add, h128]
  simp only [Int.bmod_def]
  omega

/-- What `CopyPayloadToBlob` makes of the headers already in the blob and the payload. -/
def withPadding (opt : CaptureOption) (headers pl : List UInt8) : List UInt8 :=
  let blob := headers ++ pl
  let padding := ((opt.payload + 128).toInt - blob.length).bmod (2 ^ 32)
  if padding > 0 then blob ++ List.replicate padding.toNat 0 else blob

/-- Appending a payload of at most `opt.payload` bytes and the padding to 128 bytes of headers
pads the payload to `opt.payload` bytes. -/
theorem withPadding_eq {opt : CaptureOption} (hpay : 0 ≤ opt.payload.toInt)
    {headers pl : List UInt8} (hheaders : headers.length = 128)
    (hpl : (pl.length : ℤ) ≤ opt.payload.toInt) :
    withPadding opt headers pl = headers ++ pl.rightpad opt.payload.toInt.toNat 0 := by
  set blob := headers ++ pl with hblob
  set padding := ((opt.payload + 128).toInt - blob.length).bmod (2 ^ 32) with hpadding
  change (if padding > 0 then blob ++ List.replicate padding.toNat 0 else blob) = _
  have hpad : padding = opt.payload.toInt - pl.length := by
    rw [← padding_eq hpay hpl, ← hheaders, ← List.length_append]
  -- so the zeros appended, if any, are those of `rightpad`
  have hcount : padding.toNat = opt.payload.toInt.toNat - pl.length := by omega
  rw [List.rightpad, ← List.append_assoc, ← hcount]
  split
  · rfl
  · have hzero : padding.toNat = 0 := by omega
    simp [blob, hzero]

/-- The blob of the two padded headers. -/
theorem length_paddedHeaders (ipHdr transHdr : List UInt8) (hip : ipHdr.length ≤ 60)
    (htrans : transHdr.length ≤ 68) :
    (ipHdr.rightpad 60 0 ++ transHdr.rightpad 68 0).length = 128 := by
  rw [List.length_append, List.length_rightpad, List.length_rightpad]
  omega

theorem ipHL_lt (bs : List UInt8) : ipHL bs < 16 := by
  have h := Nat.and_le_right (n := (byte bs (ipOffset bs)).toNat) (m := 15)
  simp only [ipHL, UInt8.toNat_and]
  exact Nat.lt_succ_of_le h

theorem doff_lt (bs : List UInt8) : doff bs < 16 := by
  have h := (byte bs (transOffset bs + 12)).toNat_lt
  simp only [doff, UInt8.toNat_shiftRight, UInt8.reduceToNat, Nat.shiftRight_eq_div_pow,
    Nat.reduceMod, Nat.reducePow]
  omega

theorem transLen_le (bs : List UInt8) : transLen bs ≤ 60 := by
  have h := doff_lt bs
  unfold transLen
  split <;> omega

theorem length_ipHeader {bs : List UInt8} (h : transOffset bs ≤ bs.length) :
    (ipHeader bs).length = ipHL bs * 4 :=
  length_slice (Or.inr h)

theorem length_transHeader {bs : List UInt8} (h : transOffset bs + transLen bs ≤ bs.length) :
    (transHeader bs).length = transLen bs :=
  length_slice (Or.inr h)

theorem length_payload {opt : CaptureOption} {bs : List UInt8}
    (h : transOffset bs + transLen bs + (payloadBytes opt bs).toNat ≤ bs.length) :
    (payload opt bs).length = (payloadBytes opt bs).toNat :=
  length_slice (Or.inr h)

/-- The payload kept is never longer than `opt.payload`. -/
theorem payloadBytes_le {opt : CaptureOption} (hpay : 0 ≤ opt.payload.toInt) (bs : List UInt8) :
    ((payloadBytes opt bs).toNat : ℤ) ≤ opt.payload.toInt := by
  unfold payloadBytes payloadLen
  omega

/-- The padded headers, the payload and the padding make up the blob. -/
theorem withPadding_headers {opt : CaptureOption} (hpay : 0 ≤ opt.payload.toInt) {bs : List UInt8}
    (hin : transOffset bs + transLen bs + (payloadBytes opt bs).toNat ≤ bs.length) :
    withPadding opt ((ipHeader bs).rightpad 60 0 ++ (transHeader bs).rightpad 68 0)
      (payload opt bs) = blob opt bs := by
  have hip : (ipHeader bs).length ≤ 60 := by
    have hlt := ipHL_lt bs
    rw [length_ipHeader (by omega)]
    omega
  have htrans : (transHeader bs).length ≤ 68 := by
    have hle := transLen_le bs
    rw [length_transHeader (by omega)]
    omega
  have hpl : ((payload opt bs).length : ℤ) ≤ opt.payload.toInt := by
    rw [length_payload hin]
    exact payloadBytes_le hpay bs
  exact withPadding_eq hpay (length_paddedHeaders _ _ hip htrans) hpl

/-- The `if` that pads the IP header to 60 bytes. -/
theorem pad_ipHeader {bs : List UInt8} (h : transOffset bs ≤ bs.length) :
    (if ipHL bs * 4 < 60 then [] ++ ipHeader bs ++ List.replicate (60 - ipHL bs * 4) 0
      else [] ++ ipHeader bs) = (ipHeader bs).rightpad 60 0 := by
  have hlen := length_ipHeader h
  rw [List.rightpad, hlen, List.nil_append]
  split
  · rfl
  · have hzero : 60 - ipHL bs * 4 = 0 := by omega
    rw [hzero, List.replicate_zero, List.append_nil]

/-- A transport header followed by the zeros up to 60 bytes and by 8 more is padded to 68. -/
theorem rightpad_of_pads {hdr : List UInt8} (front : List UInt8) {n : ℕ} (hn : hdr.length = n)
    (h60 : n ≤ 60) :
    front ++ hdr ++ List.replicate (60 - n) 0 ++ List.replicate 8 0 =
      front ++ hdr.rightpad 68 0 := by
  have hsum : 68 - n = (60 - n) + 8 := by omega
  rw [List.rightpad, hn, hsum, List.replicate_add]
  simp only [List.append_assoc]

/-- The packet `processIPv4Packet` accepts. -/
def acceptedPacket (opt : CaptureOption) (bs : List UInt8) (pkt : ParsedPacket) : ParsedPacket :=
  { pkt with protocol := protocol bs, mKey := key bs, mBlobData := blob opt bs }

/-- `processIPv4Packet` on a TCP packet. -/
theorem processIPv4Packet_tcp (opt : CaptureOption) (hpay : 0 ≤ opt.payload.toInt)
    {bs : List UInt8} (htcp : protocol bs = ipprotoTCP) (pkt : ParsedPacket)
    (hkey : pkt.mKey = "") (hblob : pkt.mBlobData = []) :
    ReadsTo (processIPv4Packet opt bs (ipOffset bs) pkt)
      (max (ipOffset bs + 20) (max (transOffset bs + 13)
        (transOffset bs + transLen bs + (payloadBytes opt bs).toNat)) ≤ bs.length)
      (true, acceptedPacket opt bs pkt) := by
  have hacc : ¬(protocol bs ≠ ipprotoUDP ∧ protocol bs ≠ ipprotoTCP) := fun h => h.2 htcp
  have hlen : transLen bs = doff bs * 4 := if_pos htcp
  have hbytes : payloadLen opt (ipLen bs) (ipHL bs) (doff bs * 4) = payloadBytes opt bs := by
    rw [payloadBytes, hlen]
  unfold processIPv4Packet
  -- one read after the other, on the branch of the source that a TCP packet takes
  refine ReadsTo.congr_value (ReadsTo.congr (ReadsTo.bind (byteAt_readsTo bs _)
    (ReadsTo.ite_neg hacc (ReadsTo.bind (inAddrAt_readsTo bs _)
      (ReadsTo.bind (inAddrAt_readsTo bs _) (ReadsTo.bind (byteAt_readsTo bs _)
        (ReadsTo.bind (bytesAt_readsTo bs _ _) (ReadsTo.ite_pos htcp
          (ReadsTo.bind (byteAt_readsTo bs _) (ReadsTo.bind (bytesAt_readsTo bs _ _)
            (ReadsTo.map _ (copyPayloadToBlob_readsTo opt hpay bs _ _ _ _ _)))))))))))
    ?_) ?_
  · change (_ ∧ _ ∧ _ ∧ _ ∧ (ipHL bs * 4 = 0 ∨ transOffset bs ≤ _) ∧
      transOffset bs + 12 < _ ∧ (doff bs * 4 = 0 ∨ transOffset bs + doff bs * 4 ≤ _) ∧
      transOffset bs + 3 < _ ∧ _ ∧
      ((payloadLen opt (ipLen bs) (ipHL bs) (doff bs * 4)).toNat = 0 ∨
        transOffset bs + doff bs * 4 +
          (payloadLen opt (ipLen bs) (ipHL bs) (doff bs * 4)).toNat ≤ _)) ↔ _
    rw [hbytes]
    omega
  · intro hin
    have hip : transOffset bs ≤ bs.length := by omega
    have htrans : (transHeader bs).length = transLen bs := length_transHeader (by omega)
    -- the three appends before the payload are the two padded headers
    have hheaders :
        (if (60 : ℤ) - (doff bs * 4 : ℕ) ≥ 0 then
          (if ipHL bs * 4 < 60 then [] ++ ipHeader bs ++ List.replicate (60 - ipHL bs * 4) 0
            else [] ++ ipHeader bs) ++ slice bs (transOffset bs) (doff bs * 4) ++
              List.replicate (60 - doff bs * 4) 0
          else (if ipHL bs * 4 < 60 then [] ++ ipHeader bs ++ List.replicate (60 - ipHL bs * 4) 0
            else [] ++ ipHeader bs) ++ slice bs (transOffset bs) (doff bs * 4)) ++
          List.replicate 8 0 =
        (ipHeader bs).rightpad 60 0 ++ (transHeader bs).rightpad 68 0 := by
      have hle := transLen_le bs
      rw [pad_ipHeader hip, if_pos (by omega), ← hlen]
      exact rightpad_of_pads _ htrans hle
    have hpayload : slice bs (transOffset bs + doff bs * 4)
        (payloadLen opt (ipLen bs) (ipHL bs) (doff bs * 4)).toNat = payload opt bs := by
      rw [payload, hbytes, hlen]
    obtain ⟨_, _, _, _, _, _, _⟩ := pkt
    simp only at hkey hblob
    subst hkey hblob
    simp only [acceptedPacket, Prod.mk.injEq, ParsedPacket.mk.injEq, true_and, and_true]
    refine ⟨rfl, ?_, ?_⟩
    · rw [key, if_pos htcp]
      rfl
    · exact (congrArg₂ (withPadding opt) hheaders hpayload).trans
        (withPadding_headers hpay (by omega))

/-- `processIPv4Packet` on a UDP packet. -/
theorem processIPv4Packet_udp (opt : CaptureOption) (hpay : 0 ≤ opt.payload.toInt)
    {bs : List UInt8} (hudp : protocol bs = ipprotoUDP) (pkt : ParsedPacket)
    (hkey : pkt.mKey = "") (hblob : pkt.mBlobData = []) :
    ReadsTo (processIPv4Packet opt bs (ipOffset bs) pkt)
      (max (ipOffset bs + 20)
        (transOffset bs + transLen bs + (payloadBytes opt bs).toNat) ≤ bs.length)
      (true, acceptedPacket opt bs pkt) := by
  have hacc : ¬(protocol bs ≠ ipprotoUDP ∧ protocol bs ≠ ipprotoTCP) := fun h => h.1 hudp
  have htcp : protocol bs ≠ ipprotoTCP := by
    rw [hudp]
    decide
  have hlen : transLen bs = 8 := if_neg htcp
  have hbytes : payloadLen opt (ipLen bs) (ipHL bs) 8 = payloadBytes opt bs := by
    rw [payloadBytes, hlen]
  unfold processIPv4Packet
  refine ReadsTo.congr_value (ReadsTo.congr (ReadsTo.bind (byteAt_readsTo bs _)
    (ReadsTo.ite_neg hacc (ReadsTo.bind (inAddrAt_readsTo bs _)
      (ReadsTo.bind (inAddrAt_readsTo bs _) (ReadsTo.bind (byteAt_readsTo bs _)
        (ReadsTo.bind (bytesAt_readsTo bs _ _) (ReadsTo.ite_neg htcp
          (ReadsTo.bind (bytesAt_readsTo bs _ _)
            (ReadsTo.map _ (copyPayloadToBlob_readsTo opt hpay bs _ _ _ _ _))))))))))
    ?_) ?_
  · change (_ ∧ _ ∧ _ ∧ _ ∧ (ipHL bs * 4 = 0 ∨ transOffset bs ≤ _) ∧
      (8 = 0 ∨ transOffset bs + 8 ≤ _) ∧ transOffset bs + 3 < _ ∧ _ ∧
      ((payloadLen opt (ipLen bs) (ipHL bs) 8).toNat = 0 ∨
        transOffset bs + 8 + (payloadLen opt (ipLen bs) (ipHL bs) 8).toNat ≤ _)) ↔ _
    rw [hbytes]
    omega
  · intro hin
    have hip : transOffset bs ≤ bs.length := by omega
    have htrans : (transHeader bs).length = 8 := by rw [length_transHeader (by omega), hlen]
    -- the header's 8 bytes and the 60 zeros behind it are the second padded header
    have hheaders :
        (if ipHL bs * 4 < 60 then [] ++ ipHeader bs ++ List.replicate (60 - ipHL bs * 4) 0
          else [] ++ ipHeader bs) ++ slice bs (transOffset bs) 8 ++ List.replicate 60 0 =
        (ipHeader bs).rightpad 60 0 ++ (transHeader bs).rightpad 68 0 := by
      rw [pad_ipHeader hip, ← hlen, List.append_assoc]
      change _ ++ (transHeader bs ++ _) = _
      rw [List.rightpad, List.rightpad, htrans]
    have hpayload : slice bs (transOffset bs + 8)
        (payloadLen opt (ipLen bs) (ipHL bs) 8).toNat = payload opt bs := by
      rw [payload, hbytes, hlen]
    obtain ⟨_, _, _, _, _, _, _⟩ := pkt
    simp only at hkey hblob
    subst hkey hblob
    simp only [acceptedPacket, Prod.mk.injEq, ParsedPacket.mk.injEq, true_and, and_true]
    refine ⟨rfl, ?_, ?_⟩
    · rw [key, if_neg htcp]
      rfl
    · exact (congrArg₂ (withPadding opt) hheaders hpayload).trans
        (withPadding_headers hpay (by omega))

/-- `processIPv4Packet` rejects every other protocol after reading `ip_p`. -/
theorem processIPv4Packet_other (opt : CaptureOption) {bs : List UInt8}
    (hother : protocol bs ≠ ipprotoUDP ∧ protocol bs ≠ ipprotoTCP) (pkt : ParsedPacket) :
    ReadsTo (processIPv4Packet opt bs (ipOffset bs) pkt) (ipOffset bs + 9 < bs.length)
      (false, { pkt with protocol := protocol bs }) := by
  unfold processIPv4Packet
  exact ⟨fun h => by rw [(byteAt_readsTo bs _).1 h]; exact if_pos hother,
    fun h => by obtain ⟨i, hi⟩ := (byteAt_readsTo bs _).2 h; exact ⟨i, by rw [hi]; rfl⟩⟩

/-- `processRawBytes` hands an IPv4 frame to `processIPv4Packet`. -/
theorem processRawBytes_ipv4 (opt : CaptureOption) {bs : List UInt8}
    (heth : etherType bs = ethertypeIPv4) {pkt : ParsedPacket} {q : Prop} {w : Bool × ParsedPacket}
    (h : ReadsTo (processIPv4Packet opt bs (ipOffset bs) pkt) q w) :
    ReadsTo (processRawBytes opt bs pkt) (ipOffset bs ≤ bs.length ∧ q) w := by
  unfold processRawBytes
  refine ReadsTo.congr (ReadsTo.bind (shortAt_readsTo bs 12)
    (ReadsTo.bind (shortAt_readsTo bs _) (ReadsTo.ite_neg (not_not.mpr heth) h))) ?_
  rw [← and_assoc]
  refine and_congr_left' ?_
  change (_ ∧ tagLen bs + 12 + 1 < _) ↔ tagLen bs + 14 ≤ _
  omega

/-- `processRawBytes` rejects every other ether type. -/
theorem processRawBytes_other (opt : CaptureOption) {bs : List UInt8}
    (heth : etherType bs ≠ ethertypeIPv4) (pkt : ParsedPacket) :
    ReadsTo (processRawBytes opt bs pkt) (ipOffset bs ≤ bs.length) (false, pkt) := by
  unfold processRawBytes
  -- nothing is read behind the ether type
  have hrest : ReadsTo (α := Bool × ParsedPacket) (.ok (false, pkt)) True (false, pkt) :=
    ⟨fun _ => rfl, fun h => absurd trivial h⟩
  refine ReadsTo.congr (ReadsTo.bind (shortAt_readsTo bs 12)
    (ReadsTo.bind (shortAt_readsTo bs _) (ReadsTo.ite_pos heth hrest))) ?_
  change (_ ∧ tagLen bs + 12 + 1 < _ ∧ True) ↔ tagLen bs + 14 ≤ _
  rw [and_true]
  omega

/-- The constructor reads within the captured bytes exactly when the extent of the frame was
captured, and then builds `Frame.parsed`. -/
theorem parsedPacket_readsTo (opt : CaptureOption) (hpay : 0 ≤ opt.payload.toInt)
    (capLen tvSec tvUsec : ℤ) (bs : List UInt8) :
    ReadsTo (parsedPacket opt capLen tvSec tvUsec bs) (extent opt bs ≤ bs.length)
      (parsed opt capLen tvSec tvUsec bs) := by
  unfold parsedPacket
  -- the branches of the parser: IPv4 with TCP, with UDP or with anything else, and no IPv4
  by_cases heth : etherType bs = ethertypeIPv4
  · rcases eq_or_ne (protocol bs) ipprotoTCP with htcp | htcp
    · refine ((((processRawBytes_ipv4 opt heth
        (processIPv4Packet_tcp opt hpay htcp _ rfl rfl)).map _).congr ?_)).congr_value ?_
      · rw [extent, if_neg (not_not.mpr heth), if_pos htcp]
        omega
      · simp [parsed, acceptedPacket, heth, htcp]
    · rcases eq_or_ne (protocol bs) ipprotoUDP with hudp | hudp
      · refine ((((processRawBytes_ipv4 opt heth
          (processIPv4Packet_udp opt hpay hudp _ rfl rfl)).map _).congr ?_)).congr_value ?_
        · rw [extent, if_neg (not_not.mpr heth), if_neg htcp, if_pos hudp]
          omega
        · simp [parsed, acceptedPacket, heth, hudp]
      · refine ((((processRawBytes_ipv4 opt heth
          (processIPv4Packet_other opt ⟨hudp, htcp⟩ _)).map _).congr ?_)).congr_value ?_
        · rw [extent, if_neg (not_not.mpr heth), if_neg htcp, if_neg hudp]
          omega
        · simp [parsed, heth, htcp, hudp]
  · refine (((processRawBytes_other opt heth _).map _).congr ?_).congr_value ?_
    · rw [extent, if_pos heth]
    · simp [parsed, heth]

end Hound
