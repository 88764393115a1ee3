import Hound.Packet.Parse
import Hound.ToMathlib.BlockMemory
import Hound.ToMathlib.Machine

/-!
# Captured packets between the callback and the parser

`LiveParser::liveHandler` queues a `raw_packet`, which copies the capture header but only views
the bytes. Consumers build `parsed_packet`s from the queued views later, when libpcap may have
reused the buffer for other packets. The capture buffer is therefore part of the state: a
callback first finds its bytes in memory, where libpcap has just put them.

* `CaptureMachine.Inv` : every view in the queue still points to the buffer of its callback.
* `parsed_bytes_eq_iff` : a consumer reads the bytes of the callback exactly when the buffers of
  the callbacks in between left them as they were.
-/

namespace Hound

open BlockMemory

/-- `pcap_pkthdr`. Its `len` is not read. -/
structure PcapPkthdr where
  tvSec : ℤ
  tvUsec : ℤ
  caplen : UInt32
  deriving DecidableEq, Repr

/-- `std::string_view`: an address and a size, no bytes. -/
structure StringView where
  data : ℕ
  size : ℕ
  deriving DecidableEq, Repr

/-- `raw_packet`: a copy of the header and a view of the bytes. -/
structure RawPacket where
  infoHdr : PcapPkthdr
  byteArr : StringView
  deriving DecidableEq, Repr

/-- The constructor `raw_packet(pkthdr, packet, len)`. -/
def rawPacket (pkthdr : PcapPkthdr) (packet : ℕ) (len : UInt32) : RawPacket :=
  { infoHdr := pkthdr, byteArr := ⟨packet, len.toNat⟩ }

/-- What `LiveParser::liveHandler` enqueues for a packet at address `packet`. -/
def liveHandler (opt : CaptureOption) (pkthdr : PcapPkthdr) (packet : ℕ) : RawPacket :=
  rawPacket pkthdr packet (min opt.totalBytes pkthdr.caplen)

/-- One invocation of the callback: libpcap has put `bytes` at `addr`. -/
structure Delivery extends Block UInt8 where
  pkthdr : PcapPkthdr
  length_eq : bytes.length = pkthdr.caplen.toNat

/-- The number of bytes `liveHandler` keeps of a packet. -/
def Delivery.snapLen (opt : CaptureOption) (d : Delivery) : ℕ :=
  (min opt.totalBytes d.pkthdr.caplen).toNat

/-- A packet a consumer has built. -/
structure Consumed where
  /-- The position of its callback among all callbacks. -/
  number : ℕ
  /-- How many callbacks there had been when the packet was built. -/
  seen : ℕ
  /-- The bytes found behind `byte_arr`. -/
  bytes : List UInt8
  /-- The `parsed_packet` built from them. -/
  packet : Except ParseFault ParsedPacket

/-- The state shared by the capture thread and the consumers. -/
structure CaptureState where
  memory : ℕ → UInt8
  /-- The callbacks so far. -/
  delivered : List Delivery := []
  /-- The queued packets, each with the number of its callback. -/
  queue : List (ℕ × RawPacket) := []
  consumed : List Consumed := []

/-- What the two sides do. -/
inductive CaptureAction where
  /-- libpcap delivers a packet. -/
  | deliver (d : Delivery)
  /-- A consumer dequeues the `i`-th packet of the queue and parses it. The queue is a concurrent
  one and promises no order between producers, so any packet may come out. -/
  | consume (i : ℕ)

/-- `parsed_packet(item)` for a dequeued item. -/
def parseRaw (opt : CaptureOption) (memory : ℕ → UInt8) (item : RawPacket) :
    Except ParseFault ParsedPacket :=
  parsedPacket opt item.infoHdr.caplen.toNat item.infoHdr.tvSec item.infoHdr.tvUsec
    (read memory item.byteArr.data item.byteArr.size)

/-- One step of the capture thread or of a consumer. -/
def captureStep (opt : CaptureOption) (s : CaptureState) : CaptureAction → Option CaptureState
  | .deliver d => some
      { s with
        memory := store s.memory d.toBlock
        delivered := s.delivered ++ [d]
        queue := s.queue ++ [(s.delivered.length, liveHandler opt d.pkthdr d.addr)] }
  | .consume i => do
      let (number, item) ← s.queue[i]?
      return { s with
        queue := s.queue.eraseIdx i
        consumed := s.consumed ++ [
          { number
            seen := s.delivered.length
            bytes := read s.memory item.byteArr.data item.byteArr.size
            packet := parseRaw opt s.memory item }] }

/-- Capturing into a memory with arbitrary initial content. -/
def captureMachine (opt : CaptureOption) (memory : ℕ → UInt8) :
    Machine CaptureState CaptureAction where
  init := { memory }
  step := captureStep opt

namespace CaptureMachine

variable (opt : CaptureOption) (memory : ℕ → UInt8)

/-- The memory after some callbacks. -/
def memoryAfter (ds : List Delivery) : ℕ → UInt8 :=
  (ds.map Delivery.toBlock).foldl store memory

/-- The log entry of a packet was read from the memory as it was then. -/
def Faithful (s : CaptureState) (r : Consumed) : Prop :=
  ∃ d, s.delivered[r.number]? = some d ∧ r.number < r.seen ∧ r.seen ≤ s.delivered.length ∧
    r.bytes = read (memoryAfter memory (s.delivered.take r.seen)) d.addr (d.snapLen opt) ∧
    r.packet = parsedPacket opt d.pkthdr.caplen.toNat d.pkthdr.tvSec d.pkthdr.tvUsec r.bytes

/-- The memory is what the callbacks left, every queued view is the one its callback made, and
every consumed packet was read through such a view. -/
structure Inv (s : CaptureState) : Prop where
  memory_eq : s.memory = memoryAfter memory s.delivered
  queued : ∀ e ∈ s.queue, ∃ d, s.delivered[e.1]? = some d ∧
    e.2 = liveHandler opt d.pkthdr d.addr
  consumed : ∀ r ∈ s.consumed, Faithful opt memory s r

theorem inv_init : Inv opt memory (captureMachine opt memory).init where
  memory_eq := rfl
  queued := nofun
  consumed := nofun

theorem inv_deliver {s : CaptureState} (hs : Inv opt memory s) (d : Delivery) :
    Inv opt memory
      { s with
        memory := store s.memory d.toBlock
        delivered := s.delivered ++ [d]
        queue := s.queue ++ [(s.delivered.length, liveHandler opt d.pkthdr d.addr)] } := by
  refine ⟨?_, ?_, ?_⟩
  · show store s.memory d.toBlock = memoryAfter memory (s.delivered ++ [d])
    rw [hs.memory_eq]
    simp [memoryAfter]
  · intro e he
    rcases List.mem_append.mp he with he | he
    · obtain ⟨c, hc, hview⟩ := hs.queued e he
      exact ⟨c, List.getElem?_append_left (List.getElem?_eq_some_iff.mp hc).1 ▸ hc, hview⟩
    · obtain rfl := List.mem_singleton.mp he
      exact ⟨d, by simp, rfl⟩
  · intro r hr
    obtain ⟨c, hc, hlt, hle, hbytes, hpacket⟩ := hs.consumed r hr
    -- the callbacks seen by an old entry do not change
    have htake : (s.delivered ++ [d]).take r.seen = s.delivered.take r.seen :=
      List.take_append_of_le_length hle
    refine ⟨c, List.getElem?_append_left (List.getElem?_eq_some_iff.mp hc).1 ▸ hc, hlt, ?_, ?_,
      hpacket⟩
    · simp only [List.length_append]
      omega
    · rw [hbytes, htake]

theorem inv_consume {s s' : CaptureState} (hs : Inv opt memory s) {i : ℕ}
    (hstep : captureStep opt s (.consume i) = some s') : Inv opt memory s' := by
  obtain ⟨⟨number, item⟩, hitem, hs'⟩ := Option.bind_eq_some_iff.mp hstep
  cases hs'
  obtain ⟨d, hd, hview⟩ := hs.queued _ (List.mem_of_getElem? hitem)
  obtain rfl : item = liveHandler opt d.pkthdr d.addr := hview
  refine ⟨hs.memory_eq, fun e he => hs.queued e (List.mem_of_mem_eraseIdx he), ?_⟩
  intro r hr
  rcases List.mem_append.mp hr with hr | hr
  · exact hs.consumed r hr
  · obtain rfl := List.mem_singleton.mp hr
    have hlt := (List.getElem?_eq_some_iff.mp hd).1
    -- the consumer has seen all callbacks so far, so it reads the memory as it is now
    refine ⟨d, hd, hlt, le_rfl, ?_, rfl⟩
    rw [List.take_length, ← hs.memory_eq]
    rfl

theorem inv_step {s s' : CaptureState} (hs : Inv opt memory s) {a : CaptureAction}
    (hstep : captureStep opt s a = some s') : Inv opt memory s' := by
  cases a with
  | deliver d =>
      cases hstep
      exact inv_deliver opt memory hs d
  | consume i => exact inv_consume opt memory hs hstep

variable {opt memory}

theorem inv_of_reachable {s : CaptureState} (hs : (captureMachine opt memory).Reachable s) :
    Inv opt memory s :=
  hs.invariant (inv_init opt memory) fun _ _ _ hinv hstep => inv_step opt memory hinv hstep

/-- The memory splits at a callback: what it found, its own buffer, and the later buffers. -/
theorem memoryAfter_split {ds : List Delivery} {k : ℕ} {d : Delivery} (hd : ds[k]? = some d) :
    memoryAfter memory ds = ((ds.drop (k + 1)).map Delivery.toBlock).foldl store
      (store (memoryAfter memory (ds.take k)) d.toBlock) := by
  obtain ⟨hk, hget⟩ := List.getElem?_eq_some_iff.mp hd
  have hsplit : ds = ds.take k ++ d :: ds.drop (k + 1) := by
    rw [← hget, ← List.drop_eq_getElem_cons hk, List.take_append_drop]
  -- the stores of the callbacks before `k`, then that of `k`, then the rest
  conv_lhs => rw [hsplit]
  simp [memoryAfter]

end CaptureMachine

open CaptureMachine

/-- The callbacks between that of a consumed packet and the packet's consumption. -/
def Consumed.between (s : CaptureState) (r : Consumed) : List Delivery :=
  (s.delivered.take r.seen).drop (r.number + 1)

theorem Delivery.snapLen_le (opt : CaptureOption) (d : Delivery) :
    d.snapLen opt ≤ d.bytes.length := by
  rw [d.length_eq]
  show (if opt.totalBytes ≤ d.pkthdr.caplen then opt.totalBytes else d.pkthdr.caplen).toNat ≤ _
  split
  case isTrue h => exact UInt32.le_iff_toNat_le.mp h
  case isFalse => exact le_rfl

/-- A consumed packet was read where its callback's buffer lay, under those delivered since. -/
theorem exists_delivery_of_consumed {opt : CaptureOption} {memory : ℕ → UInt8} {s : CaptureState}
    (hs : (captureMachine opt memory).Reachable s) {r : Consumed} (hr : r ∈ s.consumed) :
    ∃ d before, s.delivered[r.number]? = some d ∧
      r.packet = parsedPacket opt d.pkthdr.caplen.toNat d.pkthdr.tvSec d.pkthdr.tvUsec r.bytes ∧
      r.bytes = read (((r.between s).map Delivery.toBlock).foldl store (store before d.toBlock))
        d.addr (d.snapLen opt) := by
  obtain ⟨d, hd, hlt, -, hbytes, hpacket⟩ := (inv_of_reachable hs).consumed r hr
  have hseen : (s.delivered.take r.seen)[r.number]? = some d := by
    rw [List.getElem?_take_of_lt hlt, hd]
  exact ⟨d, _, hd, hpacket, by rw [hbytes, memoryAfter_split hseen]; rfl⟩

/-- Whatever was delivered since, a consumer parses a packet's own first
`min(opt.total_bytes, caplen)` bytes exactly when the buffers of the callbacks in between left
these bytes as they were. -/
theorem parsed_bytes_eq_iff (opt : CaptureOption) (memory : ℕ → UInt8) {s : CaptureState}
    (hs : (captureMachine opt memory).Reachable s) {r : Consumed} (hr : r ∈ s.consumed) :
    ∃ d, s.delivered[r.number]? = some d ∧
      r.packet = parsedPacket opt d.pkthdr.caplen.toNat d.pkthdr.tvSec d.pkthdr.tvUsec r.bytes ∧
      (r.bytes = d.bytes.take (d.snapLen opt) ↔
        Keeps d.toBlock (d.snapLen opt) ((r.between s).map Delivery.toBlock)) := by
  obtain ⟨d, before, hd, hpacket, hbytes⟩ := exists_delivery_of_consumed hs hr
  refine ⟨d, hd, hpacket, ?_⟩
  rw [hbytes]
  exact read_foldl_store_iff (d.snapLen_le opt) _

/-- Two packets of 60 bytes that libpcap puts at the same address. -/
def zeroFrame : Delivery where
  addr := 0
  bytes := List.replicate 60 0
  pkthdr := ⟨0, 0, 60⟩
  length_eq := rfl

@[inherit_doc zeroFrame]
def oneFrame : Delivery where
  addr := 0
  bytes := List.replicate 60 1
  pkthdr := ⟨0, 1, 60⟩
  length_eq := rfl

/-- A packet consumed before the next one arrives. -/
theorem parsed_bytes_eq_zeroFrame :
    ∃ s r d, (captureMachine {} fun _ => 0).Reachable s ∧ r ∈ s.consumed ∧
      s.delivered[r.number]? = some d ∧ r.bytes = d.bytes.take (d.snapLen {}) := by
  have hs : (captureMachine {} fun _ => 0).Reachable _ :=
    ⟨[.deliver zeroFrame, .consume 0], rfl⟩
  obtain ⟨d, hd, -, hiff⟩ := parsed_bytes_eq_iff {} (fun _ => 0) hs (List.mem_singleton_self _)
  exact ⟨_, _, d, hs, List.mem_singleton_self _, hd, hiff.mpr fun _ _ _ hx => nomatch hx⟩

/-- A packet consumed after the next one was delivered into the same buffer is read as that
one. -/
theorem parsed_bytes_ne_overwritten :
    ¬∀ (opt : CaptureOption) (memory : ℕ → UInt8) (s : CaptureState),
      (captureMachine opt memory).Reachable s → ∀ r ∈ s.consumed, ∀ d,
        s.delivered[r.number]? = some d → r.bytes = d.bytes.take (d.snapLen opt) := by
  intro h
  have hbytes := h {} (fun _ => 0) _
    ⟨[.deliver zeroFrame, .deliver oneFrame, .consume 0], rfl⟩ _ (List.mem_singleton_self _)
    zeroFrame rfl
  revert hbytes
  decide

/-- A packet stays its own while libpcap puts no other packet where it lies. -/
theorem parsed_bytes_eq_of_disjoint (opt : CaptureOption) (memory : ℕ → UInt8) {s : CaptureState}
    (hs : (captureMachine opt memory).Reachable s) {r : Consumed} (hr : r ∈ s.consumed) :
    ∃ d, s.delivered[r.number]? = some d ∧
      ((∀ c ∈ r.between s, d.toBlock.Disjoint c.toBlock) →
        r.bytes = d.bytes.take (d.snapLen opt)) := by
  obtain ⟨d, before, hd, -, hbytes⟩ := exists_delivery_of_consumed hs hr
  refine ⟨d, hd, fun hdisj => ?_⟩
  rw [hbytes, read_foldl_store_iff (d.snapLen_le opt)]
  apply keeps_of_disjoint (d.snapLen_le opt)
  intro b hb
  obtain ⟨c, hc, rfl⟩ := List.mem_map.mp hb
  exact hdisj c hc

end Hound
