import Hound.Capture.Option

/-!
# The packet parser

`parsed_packet`'s constructor over the captured bytes of one frame: `processRawBytes` finds the
IPv4 header behind an Ethernet header with at most one VLAN tag, `processIPv4Packet` builds the
flow key and the fixed-size blob, `CopyPayloadToBlob` adds the ports and the payload.

A `char const*` is an offset into the captured bytes. Every read is partial: an offset at or
behind the end of the captured bytes gives `ParseFault.outOfRange`, where the source reads
memory that is not the packet's. Multi-byte fields are read as the little-endian host does;
`ntohs` swaps them back.
-/

namespace Hound

/-- What can stop the parser. -/
inductive ParseFault where
  /-- A read at an offset that is not inside the captured bytes. -/
  | outOfRange (offset : ℕ)
  /-- `std::length_error`, thrown by an `append` with a negative length. -/
  | lengthError
  deriving DecidableEq, Repr

/-- `parsed_packet`. `protocol` is indeterminate in the source until an IPv4 header was read;
here it starts as zero. -/
structure ParsedPacket where
  protocol : ℕ := 0
  mTsSec : ℤ := 0
  mTSuSec : ℤ := 0
  mCapLen : ℤ := 0
  mKey : String := ""
  mBlobData : List UInt8 := []
  HasContent : Bool := false
  deriving DecidableEq, Repr

/-- `parsed_packet::present`. -/
def ParsedPacket.present (p : ParsedPacket) : Bool := p.HasContent

/-- `in_addr`: the four bytes of an IPv4 address in network order. -/
structure InAddr where
  b0 : UInt8
  b1 : UInt8
  b2 : UInt8
  b3 : UInt8
  deriving DecidableEq, Repr

/-- `in_addr::s_addr` as the little-endian host compares it. -/
def InAddr.sAddr (a : InAddr) : ℕ :=
  a.b0.toNat + 256 * a.b1.toNat + 65536 * a.b2.toNat + 16777216 * a.b3.toNat

/-- A `uint16_t` header field: two bytes in network order. -/
structure NetShort where
  b0 : UInt8
  b1 : UInt8
  deriving DecidableEq, Repr

/-- The field as the little-endian host loads it. -/
def NetShort.raw (s : NetShort) : ℕ := s.b0.toNat + 256 * s.b1.toNat

/-- `ntohs` of the field. -/
def NetShort.ntohs (s : NetShort) : ℕ := 256 * s.b0.toNat + s.b1.toNat

/-- `inet_ntoa`: dotted-decimal text of an address. -/
def inetNtoa (a : InAddr) : String :=
  Nat.repr a.b0.toNat ++ "." ++ Nat.repr a.b1.toNat ++ "." ++ Nat.repr a.b2.toNat ++ "." ++
    Nat.repr a.b3.toNat

/-! ### Partial reads -/

/-- One byte. -/
def byteAt (bs : List UInt8) (i : ℕ) : Except ParseFault UInt8 :=
  match bs[i]? with
  | some b => .ok b
  | none => .error (.outOfRange i)

/-- A two-byte header field. -/
def shortAt (bs : List UInt8) (i : ℕ) : Except ParseFault NetShort := do
  let b0 ← byteAt bs i
  let b1 ← byteAt bs (i + 1)
  return ⟨b0, b1⟩

/-- A four-byte address field. -/
def inAddrAt (bs : List UInt8) (i : ℕ) : Except ParseFault InAddr := do
  let b0 ← byteAt bs i
  let b1 ← byteAt bs (i + 1)
  let b2 ← byteAt bs (i + 2)
  let b3 ← byteAt bs (i + 3)
  return ⟨b0, b1, b2, b3⟩

/-- The `n` bytes that `append(&bs[i], n)` copies; nothing is read when `n` is zero. -/
def bytesAt (bs : List UInt8) (i n : ℕ) : Except ParseFault (List UInt8) :=
  if n = 0 then .ok []
  else if i + n ≤ bs.length then .ok ((bs.drop i).take n)
  else .error (.outOfRange (max i bs.length))

/-! ### The constructor -/

/-- `IPPROTO_TCP`. -/
def ipprotoTCP : ℕ := 6

/-- `IPPROTO_UDP`. -/
def ipprotoUDP : ℕ := 17

/-- `ETHERTYPE_VLAN`. -/
def ethertypeVLAN : ℕ := 0x8100

/-- `ETHERTYPE_IPV4`. -/
def ethertypeIPv4 : ℕ := 0x0800

/-- The lambda of `processIPv4Packet` that orders the two addresses. -/
def orderedAddrs (src dst : InAddr) : InAddr × InAddr :=
  if src.sAddr > dst.sAddr then (dst, src) else (src, dst)

/-- The lambda of `CopyPayloadToBlob` that orders the two ports. -/
def orderedPorts (source dest : NetShort) : ℕ × ℕ :=
  if source.raw > dest.raw then (source.ntohs, dest.ntohs) else (dest.ntohs, source.ntohs)

/-- The number of payload bytes `CopyPayloadToBlob` asks `append` for:
`min(max(available, 0), opt.payload)` with `available` what `ip_len` leaves behind the two
headers. -/
def payloadLen (opt : CaptureOption) (ipLen ipHL dataOffset : ℕ) : ℤ :=
  min (max ((ipLen : ℤ) - ipHL * 4 - dataOffset) 0) opt.payload.toInt

/-- `CopyPayloadToBlob<HeaderType>`: `tcphdr` and `udphdr` both start with the source and the
destination port. `padding` is the `int` that `opt.payload + 128 - mBlobData.size()` is
converted to. -/
def copyPayloadToBlob (opt : CaptureOption) (bs : List UInt8) (ipv4 transHeader : ℕ)
    (suffix : String) (dataOffset : ℕ) (pkt : ParsedPacket) :
    Except ParseFault ParsedPacket := do
  let source ← shortAt bs transHeader
  let dest ← shortAt bs (transHeader + 2)
  let ports := orderedPorts source dest
  let key := pkt.mKey ++ Nat.repr ports.1 ++ "_" ++ Nat.repr ports.2 ++ suffix
  let ipLen ← shortAt bs (ipv4 + 2)
  let ipHL ← byteAt bs ipv4
  let len := payloadLen opt ipLen.ntohs (ipHL &&& 0x0F).toNat dataOffset
  -- a negative length becomes a huge `size_t`, which `append` refuses
  if len < 0 then .error .lengthError else do
    let payload ← bytesAt bs (transHeader + dataOffset) len.toNat
    let blob := pkt.mBlobData ++ payload
    -- a sum in `int`, a difference in `size_t`, and the conversion back to `int`
    let padding := ((opt.payload + 128).toInt - blob.length).bmod (2 ^ 32)
    let blob := if padding > 0 then blob ++ List.replicate padding.toNat 0 else blob
    return { pkt with mKey := key, mBlobData := blob }

/-- `processIPv4Packet`; `ip` is the offset of the IPv4 header. The result says whether the
packet is accepted, with the members it wrote. -/
def processIPv4Packet (opt : CaptureOption) (bs : List UInt8) (ip : ℕ) (pkt : ParsedPacket) :
    Except ParseFault (Bool × ParsedPacket) := do
  let ipP ← byteAt bs (ip + 9)
  let protocol := ipP.toNat
  let pkt := { pkt with protocol }
  -- `protocol` has been written when the packet is rejected, the key and the blob have not
  if protocol ≠ ipprotoUDP ∧ protocol ≠ ipprotoTCP then return (false, pkt)
  let src ← inAddrAt bs (ip + 12)
  let dst ← inAddrAt bs (ip + 16)
  let ips := orderedAddrs src dst
  let pkt := { pkt with mKey := pkt.mKey ++ inetNtoa ips.1 ++ "_" ++ inetNtoa ips.2 ++ "_" }
  let ipHL ← byteAt bs ip
  let ipv4HL := (ipHL &&& 0x0F).toNat * 4
  let ipHeader ← bytesAt bs ip ipv4HL
  let blob := pkt.mBlobData ++ ipHeader
  -- the IP header has variable length and is padded to 60 bytes
  let blob := if ipv4HL < 60 then blob ++ List.replicate (60 - ipv4HL) 0 else blob
  if protocol = ipprotoTCP then
    let doff ← byteAt bs (ip + ipv4HL + 12)
    let tchHeaderLen := (doff >>> 4).toNat * 4
    let tcpHeader ← bytesAt bs (ip + ipv4HL) tchHeaderLen
    let blob := blob ++ tcpHeader
    -- a TCP header has at most 60 bytes, so the difference, an `int`, is never negative
    let blob := if (60 : ℤ) - tchHeaderLen ≥ 0 then
      blob ++ List.replicate (60 - tchHeaderLen) 0 else blob
    let blob := blob ++ List.replicate 8 0
    let pkt ← copyPayloadToBlob opt bs ip (ip + ipv4HL) "_TCP" tchHeaderLen
      { pkt with mBlobData := blob }
    return (true, pkt)
  else
    -- a UDP header and 60 zeros take up as much space as a TCP header, padded, and 8 zeros
    let udpHeader ← bytesAt bs (ip + ipv4HL) 8
    let blob := blob ++ udpHeader ++ List.replicate 60 0
    let pkt ← copyPayloadToBlob opt bs ip (ip + ipv4HL) "_UDP" 8 { pkt with mBlobData := blob }
    return (true, pkt)

/-- The error `processIPv4Packet` logs before it accepts a packet whose blob has not the size
`128 + global::opt.payload`, an `int` compared as a `size_t`. -/
def blobSizeError (opt : CaptureOption) (pkt : ParsedPacket) : Option String :=
  if pkt.mBlobData.length ≠ toSizeT (128 + opt.payload) then
    some ("全部data" ++ Nat.repr pkt.mBlobData.length)
  else none

/-- `processRawBytes`: `sizeof(ether_header)` is 14, `sizeof(vlan_header)` is 4. -/
def processRawBytes (opt : CaptureOption) (bs : List UInt8) (pkt : ParsedPacket) :
    Except ParseFault (Bool × ParsedPacket) := do
  let etherType ← shortAt bs 12
  -- behind a VLAN tag the header is looked at again, four bytes further on
  let pointer := if etherType.ntohs = ethertypeVLAN then 4 else 0
  let etherType ← shortAt bs (pointer + 12)
  if etherType.ntohs ≠ ethertypeIPv4 then return (false, pkt)
  processIPv4Packet opt bs (pointer + 14) pkt

/-- The constructor `parsed_packet(raw_packet const&)` over the bytes `byte_arr` views. -/
def parsedPacket (opt : CaptureOption) (capLen tvSec tvUsec : ℤ) (bs : List UInt8) :
    Except ParseFault ParsedPacket := do
  let (hasContent, pkt) ←
    processRawBytes opt bs { mCapLen := capLen, mTsSec := tvSec, mTSuSec := tvUsec }
  return { pkt with HasContent := hasContent }

end Hound
