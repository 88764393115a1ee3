import Hound.Packet.Bounds

/-!
# VLAN tags

`processRawBytes` does not parse a VLAN tag. It moves its pointer to the Ethernet header by the
four bytes of the tag and goes on as if the header started there, so that every offset behind the
tag moves along.

* `Shifted` : two runs of the parser that read the same bytes, the second one four bytes further
  on.
* `parsedPacket_shifted` : a tagged frame is parsed as the untagged one is, up to where the parser
  runs out of bytes.
* `vlanTagged_transparent` : so a tag changes nothing about the parsed packet.
-/

namespace Hound

open Hound.Frame

/-- The frame with a VLAN tag inserted after the two MAC addresses. -/
def vlanTagged (f : List UInt8) (tci : NetShort) : List UInt8 :=
  f.take 12 ++ [0x81, 0x00, tci.b0, tci.b1] ++ f.drop 12

/-! ### Runs that differ in their offsets -/

/-- The second computation does what the first one does: it succeeds with a related value, throws
as well, or reads out of range four bytes further on. -/
inductive Shifted {α β : Type} (R : α → β → Prop) :
    Except ParseFault α → Except ParseFault β → Prop
  | ok {v : α} {w : β} (h : R v w) : Shifted R (.ok v) (.ok w)
  | outOfRange (i : ℕ) : Shifted R (.error (.outOfRange i)) (.error (.outOfRange (i + 4)))
  | lengthError : Shifted R (.error .lengthError) (.error .lengthError)

namespace Shifted

variable {α β γ δ : Type} {R : α → β → Prop} {S : γ → δ → Prop}
  {r : Except ParseFault α} {r' : Except ParseFault β}

/-- Two related runs in sequence are related. -/
theorem bind {k : α → Except ParseFault γ} {k' : β → Except ParseFault δ} (h : Shifted R r r')
    (hk : ∀ v w, R v w → Shifted S (k v) (k' w)) : Shifted S (r >>= k) (r' >>= k') := by
  cases h with
  | ok hvw => exact hk _ _ hvw
  | outOfRange i => exact Shifted.outOfRange i
  | lengthError => exact Shifted.lengthError

/-- Reading the same bytes in both runs. -/
theorem bind_eq {k : α → Except ParseFault γ} {k' : α → Except ParseFault δ}
    {r' : Except ParseFault α} (h : Shifted Eq r r') (hk : ∀ v, Shifted S (k v) (k' v)) :
    Shifted S (r >>= k) (r' >>= k') :=
  h.bind fun v _ hvw => hvw ▸ hk v

theorem ite {c : Prop} [Decidable c] {t e : Except ParseFault α} {t' e' : Except ParseFault β}
    (ht : Shifted R t t') (he : Shifted R e e') :
    Shifted R (if c then t else e) (if c then t' else e') := by
  split
  · exact ht
  · exact he

/-- Two runs that succeed do so with related values. -/
theorem of_ok {v : α} {w : β} (h : Shifted R r r') (hr : r = .ok v) (hr' : r' = .ok w) : R v w := by
  cases h with
  | ok hvw =>
      cases hr
      cases hr'
      exact hvw
  | outOfRange i => cases hr
  | lengthError => cases hr

/-- Either both runs succeed or none. -/
theorem exists_ok_iff (h : Shifted R r r') : (∃ v, r = .ok v) ↔ ∃ w, r' = .ok w := by
  cases h with
  | ok _ => exact ⟨fun _ => ⟨_, rfl⟩, fun _ => ⟨_, rfl⟩⟩
  | outOfRange i => simp
  | lengthError => simp

end Shifted

/-! ### Reading behind the tag -/

section Tagged

variable {f : List UInt8} {t : NetShort} (hlen : 14 ≤ f.length) {i j : ℕ}

include hlen

theorem length_vlanTagged : (vlanTagged f t).length = f.length + 4 := by
  simp only [vlanTagged, List.length_append, List.length_take, List.length_drop, List.length_cons,
    List.length_nil]
  omega

/-- What lies behind the MAC addresses lies four bytes further on in the tagged frame. -/
theorem drop_vlanTagged (hi : 12 ≤ i) (hj : j = i + 4) :
    (vlanTagged f t).drop j = f.drop i := by
  have hfront : (f.take 12 ++ [0x81, 0x00, t.b0, t.b1]).length = 16 := by
    simp only [List.length_append, List.length_take, List.length_cons, List.length_nil]
    omega
  -- `d` bytes of the rest are dropped in either frame
  obtain ⟨d, rfl⟩ := Nat.exists_eq_add_of_le hi
  have hsum : j = (f.take 12 ++ [0x81, 0x00, t.b0, t.b1]).length + d := by omega
  rw [vlanTagged, hsum, List.drop_length_add_append, List.drop_drop]

theorem byteAt_shifted (hi : 12 ≤ i) (hj : j = i + 4) :
    Shifted Eq (byteAt f i) (byteAt (vlanTagged f t) j) := by
  have hget : (vlanTagged f t)[j]? = f[i]? := by
    have hdrop := congrArg (·[0]?) (drop_vlanTagged (t := t) hlen hi hj)
    simpa only [List.getElem?_drop, Nat.add_zero] using hdrop
  rw [byteAt, byteAt, hget]
  cases f[i]? with
  | some b => exact .ok rfl
  | none => exact hj ▸ .outOfRange i

theorem shortAt_shifted (hi : 12 ≤ i) (hj : j = i + 4) :
    Shifted Eq (shortAt f i) (shortAt (vlanTagged f t) j) :=
  (byteAt_shifted hlen hi hj).bind_eq fun _ =>
    (byteAt_shifted hlen (by omega) (by omega)).bind_eq fun _ => .ok rfl

theorem inAddrAt_shifted (hi : 12 ≤ i) (hj : j = i + 4) :
    Shifted Eq (inAddrAt f i) (inAddrAt (vlanTagged f t) j) :=
  (byteAt_shifted hlen hi hj).bind_eq fun _ =>
    (byteAt_shifted hlen (by omega) (by omega)).bind_eq fun _ =>
      (byteAt_shifted hlen (by omega) (by omega)).bind_eq fun _ =>
        (byteAt_shifted hlen (by omega) (by omega)).bind_eq fun _ => .ok rfl

theorem bytesAt_shifted (hi : 12 ≤ i) (hj : j = i + 4) (n : ℕ) :
    Shifted Eq (bytesAt f i n) (bytesAt (vlanTagged f t) j n) := by
  have hbound : j + n ≤ (vlanTagged f t).length ↔ i + n ≤ f.length := by
    rw [length_vlanTagged hlen]
    omega
  have hmax : max j (vlanTagged f t).length = max i f.length + 4 := by
    rw [length_vlanTagged hlen, hj, Nat.add_max_add_right]
  simp only [bytesAt, hbound, hmax, drop_vlanTagged hlen hi hj]
  exact .ite (.ok rfl) (.ite (.ok rfl) (.outOfRange _))

end Tagged

/-! ### Parsing -/

/-- The same protocol, key and blob. -/
def SameData (p q : ParsedPacket) : Prop :=
  p.protocol = q.protocol ∧ p.mKey = q.mKey ∧ p.mBlobData = q.mBlobData

/-- The same answer, with the same data. -/
def SameAnswer (r r' : Bool × ParsedPacket) : Prop := r.1 = r'.1 ∧ SameData r.2 r'.2

section Tagged

variable (opt : CaptureOption) {f : List UInt8} {t : NetShort} (hlen : 14 ≤ f.length)

include hlen

theorem copyPayloadToBlob_shifted {ip th ip' th' : ℕ} (hip : 12 ≤ ip) (hip' : ip' = ip + 4)
    (hth : 12 ≤ th) (hth' : th' = th + 4) (suffix : String) (off : ℕ) {p q : ParsedPacket}
    (hpq : SameData p q) :
    Shifted SameData (copyPayloadToBlob opt f ip th suffix off p)
      (copyPayloadToBlob opt (vlanTagged f t) ip' th' suffix off q) := by
  obtain ⟨hproto, hkey, hblob⟩ := hpq
  unfold copyPayloadToBlob
  refine (shortAt_shifted hlen hth hth').bind_eq fun source => ?_
  refine (shortAt_shifted hlen (by omega) (by omega)).bind_eq fun dest => ?_
  refine (shortAt_shifted hlen (by omega) (by omega)).bind_eq fun ipLen => ?_
  refine (byteAt_shifted hlen hip hip').bind_eq fun ipHL => ?_
  refine .ite .lengthError ?_
  refine (bytesAt_shifted hlen (by omega) (by omega) _).bind_eq fun payload => ?_
  rw [hkey, hblob]
  exact .ok ⟨hproto, rfl, rfl⟩

theorem processIPv4Packet_shifted {ip ip' : ℕ} (hip : 12 ≤ ip) (hip' : ip' = ip + 4)
    {p q : ParsedPacket} (hpq : SameData p q) :
    Shifted SameAnswer (processIPv4Packet opt f ip p)
      (processIPv4Packet opt (vlanTagged f t) ip' q) := by
  obtain ⟨-, hkey, hblob⟩ := hpq
  unfold processIPv4Packet
  refine (byteAt_shifted hlen (by omega) (by omega)).bind_eq fun ipP => ?_
  refine .ite (.ok ⟨rfl, rfl, hkey, hblob⟩) ?_
  refine (inAddrAt_shifted hlen (by omega) (by omega)).bind_eq fun src => ?_
  refine (inAddrAt_shifted hlen (by omega) (by omega)).bind_eq fun dst => ?_
  refine (byteAt_shifted hlen hip hip').bind_eq fun ipHL => ?_
  refine (bytesAt_shifted hlen hip hip' _).bind_eq fun ipHeader => ?_
  -- TCP and UDP
  refine .ite ?_ ?_
  · refine (byteAt_shifted hlen (by omega) (by omega)).bind_eq fun doff => ?_
    refine (bytesAt_shifted hlen (by omega) (by omega) _).bind_eq fun tcpHeader => ?_
    refine (copyPayloadToBlob_shifted opt hlen hip hip' (by omega) (by omega) _ _ ?_).bind
      fun v w hvw => .ok ⟨rfl, hvw⟩
    exact ⟨rfl, by rw [hkey], by rw [hblob]⟩
  · refine (bytesAt_shifted hlen (by omega) (by omega) _).bind_eq fun udpHeader => ?_
    refine (copyPayloadToBlob_shifted opt hlen hip hip' (by omega) (by omega) _ _ ?_).bind
      fun v w hvw => .ok ⟨rfl, hvw⟩
    exact ⟨rfl, by rw [hkey], by rw [hblob]⟩

/-- The tag makes `processRawBytes` look at the header four bytes further on. -/
theorem processRawBytes_shifted (hown : (short f 12).ntohs ≠ ethertypeVLAN) {p q : ParsedPacket}
    (hpq : SameData p q) :
    Shifted SameAnswer (processRawBytes opt f p) (processRawBytes opt (vlanTagged f t) q) := by
  have hf : shortAt f 12 = .ok (short f 12) := (shortAt_readsTo f 12).1 (by omega)
  -- the tag begins where the untagged frame has its EtherType
  have htag : shortAt (vlanTagged f t) 12 = .ok ⟨0x81, 0x00⟩ := by
    have htake : (f.take 12).length = 12 := by
      rw [List.length_take]
      omega
    have hget : ∀ k, (vlanTagged f t)[12 + k]? =
        ([0x81, 0x00, t.b0, t.b1] ++ f.drop 12)[k]? := by
      intro k
      rw [vlanTagged, List.append_assoc, List.getElem?_append_right (by omega), htake,
        Nat.add_sub_cancel_left]
    rw [shortAt, byteAt, byteAt, hget 0, hget 1]
    rfl
  have hvlan : NetShort.ntohs ⟨0x81, 0x00⟩ = ethertypeVLAN := by decide
  unfold processRawBytes
  rw [hf, htag]
  -- both runs have read their first two bytes; what these say decides the offset of the header
  change Shifted SameAnswer
    (shortAt f ((if (short f 12).ntohs = ethertypeVLAN then 4 else 0) + 12) >>= _)
    (shortAt (vlanTagged f t) ((if NetShort.ntohs ⟨0x81, 0x00⟩ = ethertypeVLAN then 4 else 0) + 12)
      >>= _)
  simp only [if_neg hown, if_pos hvlan]
  refine (shortAt_shifted hlen (by omega) (by omega)).bind_eq fun etherType => ?_
  exact .ite (.ok ⟨rfl, hpq⟩) (processIPv4Packet_shifted opt hlen (by omega) (by omega) hpq)

/-- A tagged frame is parsed as the untagged one is, whatever the capture headers say. -/
theorem parsedPacket_shifted (hown : (short f 12).ntohs ≠ ethertypeVLAN)
    (capLen tvSec tvUsec capLen' tvSec' tvUsec' : ℤ) :
    Shifted (fun p q => p.present = q.present ∧ SameData p q)
      (parsedPacket opt capLen tvSec tvUsec f)
      (parsedPacket opt capLen' tvSec' tvUsec' (vlanTagged f t)) := by
  have hinit : SameData { mCapLen := capLen, mTsSec := tvSec, mTSuSec := tvUsec }
      { mCapLen := capLen', mTsSec := tvSec', mTSuSec := tvUsec' } := ⟨rfl, rfl, rfl⟩
  have hraw := processRawBytes_shifted opt (t := t) hlen hown hinit
  unfold parsedPacket
  refine hraw.bind fun v w hvw => ?_
  obtain ⟨hanswer, hdata⟩ := hvw
  exact .ok ⟨hanswer, hdata⟩

end Tagged

/-- A VLAN tag is transparent: a frame without one and the same frame with one are both parsed or
neither is, with the same result of `present`, and if the packet is present with the same
protocol, key and blob. -/
theorem vlanTagged_transparent (opt : CaptureOption) {f : List UInt8} (hlen : 14 ≤ f.length)
    (hown : (short f 12).ntohs ≠ ethertypeVLAN) (tci : NetShort)
    (capLen tvSec tvUsec capLen' tvSec' tvUsec' : ℤ) :
    ((∃ p, parsedPacket opt capLen tvSec tvUsec f = .ok p) ↔
      ∃ q, parsedPacket opt capLen' tvSec' tvUsec' (vlanTagged f tci) = .ok q) ∧
    ∀ p q, parsedPacket opt capLen tvSec tvUsec f = .ok p →
      parsedPacket opt capLen' tvSec' tvUsec' (vlanTagged f tci) = .ok q →
        p.present = q.present ∧
          (p.present = true → p.protocol = q.protocol ∧ p.mKey = q.mKey ∧
            p.mBlobData = q.mBlobData) := by
  have hshift := parsedPacket_shifted opt (t := tci) hlen hown capLen tvSec tvUsec capLen' tvSec'
    tvUsec'
  refine ⟨hshift.exists_ok_iff, fun p q hp hq => ?_⟩
  obtain ⟨hpresent, hdata⟩ := hshift.of_ok hp hq
  exact ⟨hpresent, fun _ => hdata⟩

/-- The tagged `udpFrame` is accepted, with the key of the untagged one. -/
theorem vlanTagged_transparent_udpFrame :
    ∃ q, parsedPacket {} 64 0 0 (vlanTagged udpFrame ⟨0x20, 0x05⟩) = .ok q ∧ q.present = true ∧
      q.mKey = key udpFrame := by
  obtain ⟨capLen, tvSec, tvUsec, hp, -⟩ := accepts_udpFrame
  obtain ⟨hboth, hsame⟩ := vlanTagged_transparent {} (f := udpFrame) (by decide) (by decide)
    ⟨0x20, 0x05⟩ capLen tvSec tvUsec 64 0 0
  obtain ⟨q, hq⟩ := hboth.mp ⟨_, hp⟩
  obtain ⟨hpresent, hdata⟩ := hsame _ q hp hq
  exact ⟨q, hq, hpresent.symm, (hdata rfl).2.1.symm⟩

end Hound
