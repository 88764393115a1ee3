import Hound.Packet.Bounds
import Hound.ToMathlib.SeparatedText
import Mathlib

/-!
# The flow key

`mKey` is the text `ip1_ip2_port1_port2_PROTO`. The two addresses are ordered in
`processIPv4Packet`, the two ports in `CopyPayloadToBlob`, by separate comparisons, so the key
does not say which port belongs to which address.

* `key_eq_iff` : two keys are equal iff the protocol, the unordered pair of addresses and the
  unordered pair of ports are.
* `mKey_eq_iff` : so are the keys of two accepted packets; a packet and its reply have one key.
* `mKey_eq_imp_sameConversation_iff` : equal keys mean the same conversation, except for two
  packets that cross the same two ports between the same two hosts.
-/

namespace Hound

open Hound.Frame SeparatedText

/-! ### The text determines its fields -/

theorem InAddr.sAddr_injective {a b : InAddr} : a.sAddr = b.sAddr ↔ a = b := by
  refine ⟨fun h => ?_, fun h => h ▸ rfl⟩
  obtain ⟨a0, a1, a2, a3⟩ := a
  obtain ⟨b0, b1, b2, b3⟩ := b
  have ha0 := a0.toNat_lt; have ha1 := a1.toNat_lt; have ha2 := a2.toNat_lt
  have hb0 := b0.toNat_lt; have hb1 := b1.toNat_lt; have hb2 := b2.toNat_lt
  simp only [InAddr.sAddr] at h
  simp only [InAddr.mk.injEq, ← UInt8.toNat_inj]
  omega

theorem NetShort.ntohs_injective {s t : NetShort} : s.ntohs = t.ntohs ↔ s = t := by
  refine ⟨fun h => ?_, fun h => h ▸ rfl⟩
  obtain ⟨s0, s1⟩ := s
  obtain ⟨t0, t1⟩ := t
  have hs := s1.toNat_lt; have ht := t1.toNat_lt
  simp only [NetShort.ntohs] at h
  simp only [NetShort.mk.injEq, ← UInt8.toNat_inj]
  omega

theorem NetShort.raw_injective {s t : NetShort} : s.raw = t.raw ↔ s = t := by
  refine ⟨fun h => ?_, fun h => h ▸ rfl⟩
  obtain ⟨s0, s1⟩ := s
  obtain ⟨t0, t1⟩ := t
  have hs := s0.toNat_lt; have ht := t0.toNat_lt
  simp only [NetShort.raw] at h
  simp only [NetShort.mk.injEq, ← UInt8.toNat_inj]
  omega

/-- Dotted-decimal text determines the address. -/
theorem inetNtoa_injective {a b : InAddr} : inetNtoa a = inetNtoa b ↔ a = b := by
  refine ⟨fun h => ?_, fun h => h ▸ rfl⟩
  have hdot : ∀ n : ℕ, '.' ∉ (Nat.repr n).toList := notMem_repr (by decide)
  have hsep : (".").toList = ['.'] := rfl
  simp only [inetNtoa, String.append_assoc] at h
  rw [append_sep_inj hsep (hdot _) (hdot _), append_sep_inj hsep (hdot _) (hdot _),
    append_sep_inj hsep (hdot _) (hdot _), Nat.repr_inj, Nat.repr_inj, Nat.repr_inj,
    Nat.repr_inj] at h
  obtain ⟨a0, a1, a2, a3⟩ := a
  obtain ⟨b0, b1, b2, b3⟩ := b
  simpa only [InAddr.mk.injEq, UInt8.toNat_inj] using h

/-- An address is rendered without underscores. -/
theorem underscore_notMem_inetNtoa (a : InAddr) : '_' ∉ (inetNtoa a).toList := by
  have hnum : ∀ n : ℕ, '_' ∉ (Nat.repr n).toList := notMem_repr (by decide)
  have hdot : '_' ∉ (".").toList := by decide
  exact notMem_append (notMem_append (notMem_append (notMem_append (notMem_append
    (notMem_append (hnum _) hdot) (hnum _)) hdot) (hnum _)) hdot) (hnum _)

/-! ### The two orderings -/

/-- Sorting a pair by an injective measure forgets the order of the pair and nothing else. -/
theorem sortedPair_eq_iff {α : Type} {f : α → ℕ} (hf : ∀ {a b}, f a = f b ↔ a = b)
    (s d s' d' : α) :
    (if f s > f d then (d, s) else (s, d)) = (if f s' > f d' then (d', s') else (s', d')) ↔
      s(s, d) = s(s', d') := by
  -- each pair is sorted or swapped; in all four cases injectivity compares the elements
  have h := hf (a := s) (b := d)
  have h' := hf (a := s') (b := d')
  rw [Sym2.eq_iff]
  split <;> split <;> simp only [Prod.mk.injEq]
  all_goals
    constructor
    · grind
    · rintro (⟨rfl, rfl⟩ | ⟨rfl, rfl⟩)
      all_goals grind

theorem orderedAddrs_eq_iff {s d s' d' : InAddr} :
    orderedAddrs s d = orderedAddrs s' d' ↔ s(s, d) = s(s', d') :=
  sortedPair_eq_iff InAddr.sAddr_injective s d s' d'

theorem orderedPorts_eq_iff {s d s' d' : NetShort} :
    orderedPorts s d = orderedPorts s' d' ↔ s(s, d) = s(s', d') := by
  -- the ports are sorted in network order, the larger one first, and then swapped by `ntohs`
  have hsorted : ∀ a b : NetShort, orderedPorts a b =
      Prod.map NetShort.ntohs NetShort.ntohs
        (if a.raw > b.raw then (b, a) else (a, b)).swap := by
    intro a b
    unfold orderedPorts
    split <;> rfl
  have hntohs : Function.Injective NetShort.ntohs := fun _ _ => NetShort.ntohs_injective.mp
  rw [hsorted, hsorted, (hntohs.prodMap hntohs).eq_iff, Prod.swap_inj]
  exact sortedPair_eq_iff NetShort.raw_injective s d s' d'

/-! ### Equal keys -/

/-- Two keys are equal exactly when they name the same protocol, the same two addresses and the
same two ports. -/
theorem key_eq_iff {f g : List UInt8} :
    key f = key g ↔ (protocol f = ipprotoTCP ↔ protocol g = ipprotoTCP) ∧
      s(src f, dst f) = s(src g, dst g) ∧ s(srcPort f, dstPort f) = s(srcPort g, dstPort g) := by
  have hsep : ("_").toList = ['_'] := rfl
  have hnum : ∀ n : ℕ, '_' ∉ (Nat.repr n).toList := notMem_repr (by decide)
  have haddr := underscore_notMem_inetNtoa
  have hsuffix : ∀ h : List UInt8, (if protocol h = ipprotoTCP then "_TCP" else "_UDP") =
      "_" ++ (if protocol h = ipprotoTCP then "TCP" else "UDP") := by
    intro h
    split <;> rfl
  have hproto : (if protocol f = ipprotoTCP then "TCP" else "UDP") =
      (if protocol g = ipprotoTCP then "TCP" else "UDP") ↔
      (protocol f = ipprotoTCP ↔ protocol g = ipprotoTCP) := by
    split <;> split <;> simp_all
  unfold key
  -- no field contains an underscore, so the key is peeled field by field from the left
  rw [hsuffix f, hsuffix g]
  simp only [String.append_assoc, String.empty_append]
  rw [append_sep_inj hsep (haddr _) (haddr _), append_sep_inj hsep (haddr _) (haddr _),
    append_sep_inj hsep (hnum _) (hnum _), append_sep_inj hsep (hnum _) (hnum _),
    inetNtoa_injective, inetNtoa_injective, Nat.repr_inj, Nat.repr_inj, hproto,
    ← orderedAddrs_eq_iff, ← orderedPorts_eq_iff, Prod.ext_iff, Prod.ext_iff]
  tauto

/-- Accepted packets carry TCP or UDP, so the suffix of the key determines the protocol. -/
theorem protocol_eq_iff {f g : List UInt8} (hf : Carries f) (hg : Carries g) :
    protocol f = protocol g ↔ (protocol f = ipprotoTCP ↔ protocol g = ipprotoTCP) := by
  have hne : ipprotoTCP ≠ ipprotoUDP := by decide
  rcases hf.2 with hf | hf <;> rcases hg.2 with hg | hg <;> simp [hf, hg, hne, hne.symm]

/-- The keys of accepted packets, as read off their frames. -/
theorem mKey_eq_iff_of_accepts {opt opt' : CaptureOption} {f g : List UInt8} {p q : ParsedPacket}
    (hp : Accepts opt f p) (hq : Accepts opt' g q) :
    p.mKey = q.mKey ↔ p.protocol = q.protocol ∧
      s(src f, dst f) = s(src g, dst g) ∧ s(srcPort f, dstPort f) = s(srcPort g, dstPort g) := by
  obtain ⟨-, -, hf, hprotoP, hkeyP, -⟩ := hp.spec
  obtain ⟨-, -, hg, hprotoQ, hkeyQ, -⟩ := hq.spec
  rw [hkeyP, hkeyQ, hprotoP, hprotoQ, key_eq_iff, protocol_eq_iff hf hg]

/-- The second frame goes back where the first one came from. -/
def IsReply (f g : List UInt8) : Prop :=
  src g = dst f ∧ dst g = src f ∧ srcPort g = dstPort f ∧ dstPort g = srcPort f

/-- The keys of two accepted packets are equal exactly when the packets have the same protocol, the
same unordered pair of addresses and the same unordered pair of ports. The text determines the
ordered pairs it is made of, and a reply has the key of the packet it answers. -/
theorem mKey_eq_iff {opt opt' : CaptureOption} {f g : List UInt8} {p q : ParsedPacket}
    (hp : Accepts opt f p) (hq : Accepts opt' g q) :
    (p.mKey = q.mKey ↔ p.protocol = q.protocol ∧
      s(src f, dst f) = s(src g, dst g) ∧ s(srcPort f, dstPort f) = s(srcPort g, dstPort g)) ∧
    (p.mKey = q.mKey ↔ p.protocol = q.protocol ∧
      orderedAddrs (src f) (dst f) = orderedAddrs (src g) (dst g) ∧
      orderedPorts (srcPort f) (dstPort f) = orderedPorts (srcPort g) (dstPort g)) ∧
    (p.protocol = q.protocol → IsReply f g → p.mKey = q.mKey) := by
  have hkey := mKey_eq_iff_of_accepts hp hq
  refine ⟨hkey, ?_, ?_⟩
  · rw [hkey, orderedAddrs_eq_iff, orderedPorts_eq_iff]
  · rintro hproto ⟨hsrc, hdst, hsrcPort, hdstPort⟩
    apply hkey.mpr
    refine ⟨hproto, ?_, ?_⟩
    · rw [hsrc, hdst, Sym2.eq_swap]
    · rw [hsrcPort, hdstPort, Sym2.eq_swap]

/-- The reply to `udpFrame`: the addresses and the ports change places. -/
def udpFrameReply : List UInt8 :=
  udpFrame.take 26 ++ [10, 0, 0, 2, 10, 0, 0, 1, 0, 90, 0, 80, 0, 8, 0, 0] ++ udpFrame.drop 42

theorem accepts_udpFrameReply :
    Accepts {} udpFrameReply (Frame.accepted {} 60 0 0 udpFrameReply) :=
  accepts_accepted (by decide) (by decide) (by decide)

/-- The reply has the packet's key. -/
theorem mKey_eq_reply :
    (Frame.accepted {} 60 0 0 udpFrame).mKey = (Frame.accepted {} 60 0 0 udpFrameReply).mKey :=
  (mKey_eq_iff accepts_udpFrame accepts_udpFrameReply).2.2 (by decide) ⟨rfl, rfl, rfl, rfl⟩

/-! ### Conversations -/

/-- The two endpoints of a frame, each port with its own address. -/
def Frame.endpoints (bs : List UInt8) : Sym2 (InAddr × NetShort) :=
  s((src bs, srcPort bs), (dst bs, dstPort bs))

/-- Two frames go between the same two hosts over the same two ports, but with the ports
exchanged between the hosts. -/
def CrossedPorts (f g : List UInt8) : Prop :=
  src f ≠ dst f ∧ srcPort f ≠ dstPort f ∧
    ((src f = src g ∧ dst f = dst g ∧ srcPort f = dstPort g ∧ dstPort f = srcPort g) ∨
      (src f = dst g ∧ dst f = src g ∧ srcPort f = srcPort g ∧ dstPort f = dstPort g))

/-- With the same addresses and the same ports, the endpoints are the same unless the ports are
crossed. -/
theorem endpoints_eq_iff_not_crossedPorts {f g : List UInt8}
    (haddr : s(src f, dst f) = s(src g, dst g))
    (hport : s(srcPort f, dstPort f) = s(srcPort g, dstPort g)) :
    Frame.endpoints f = Frame.endpoints g ↔ ¬CrossedPorts f g := by
  rw [Sym2.eq_iff] at haddr hport
  simp only [Frame.endpoints, Sym2.eq_iff, Prod.mk.injEq, CrossedPorts]
  grind

/-- Crossed ports leave the two unordered pairs that the key is made of as they are. -/
theorem CrossedPorts.sym2_eq {f g : List UInt8} (h : CrossedPorts f g) :
    s(src f, dst f) = s(src g, dst g) ∧ s(srcPort f, dstPort f) = s(srcPort g, dstPort g) := by
  obtain ⟨-, -, ⟨hs, hd, hsp, hdp⟩ | ⟨hs, hd, hsp, hdp⟩⟩ := h
  · exact ⟨by rw [hs, hd], by rw [hsp, hdp, Sym2.eq_swap]⟩
  · exact ⟨by rw [hs, hd, Sym2.eq_swap], by rw [hsp, hdp]⟩

/-- Equal keys mean the same protocol and the same endpoints, for every two accepted packets but
those of one protocol that cross their ports. -/
theorem mKey_eq_imp_sameConversation_iff {opt : CaptureOption} {f g : List UInt8}
    {p q : ParsedPacket} (hp : Accepts opt f p) (hq : Accepts opt g q) :
    (p.mKey = q.mKey → p.protocol = q.protocol ∧ Frame.endpoints f = Frame.endpoints g) ↔
      ¬(p.protocol = q.protocol ∧ CrossedPorts f g) := by
  rw [mKey_eq_iff_of_accepts hp hq]
  constructor
  · -- crossed ports give equal keys, but other endpoints
    rintro himp ⟨hproto, hcross⟩
    obtain ⟨haddr, hport⟩ := hcross.sym2_eq
    obtain ⟨-, hends⟩ := himp ⟨hproto, haddr, hport⟩
    exact (endpoints_eq_iff_not_crossedPorts haddr hport).mp hends hcross
  · rintro hnot ⟨hproto, haddr, hport⟩
    refine ⟨hproto, (endpoints_eq_iff_not_crossedPorts haddr hport).mpr fun hcross => ?_⟩
    exact hnot ⟨hproto, hcross⟩

/-- `udpFrame` with its two ports exchanged. -/
def udpFrameCrossed : List UInt8 :=
  udpFrame.take 34 ++ [0, 90, 0, 80, 0, 8, 0, 0] ++ udpFrame.drop 42

/-- A packet and its reply have one key, and the same endpoints. -/
theorem mKey_eq_imp_sameConversation_reply :
    (Frame.accepted {} 60 0 0 udpFrame).mKey = (Frame.accepted {} 60 0 0 udpFrameReply).mKey ∧
      (Frame.accepted {} 60 0 0 udpFrame).protocol =
        (Frame.accepted {} 60 0 0 udpFrameReply).protocol ∧
      Frame.endpoints udpFrame = Frame.endpoints udpFrameReply := by
  have hkey : key udpFrame = key udpFrameReply :=
    key_eq_iff.mpr ⟨by decide, Sym2.eq_iff.mpr (by decide), Sym2.eq_iff.mpr (by decide)⟩
  have hcross : ¬CrossedPorts udpFrame udpFrameReply := by
    unfold CrossedPorts
    decide
  have hsame := mKey_eq_imp_sameConversation_iff accepts_udpFrame accepts_udpFrameReply
  exact ⟨hkey, hsame.mpr (fun h => hcross h.2) hkey⟩

/-- `10.0.0.1:80 → 10.0.0.2:90` and `10.0.0.1:90 → 10.0.0.2:80` are accepted with one key. -/
theorem mKey_shared_by_crossed_conversations :
    ¬∀ (opt : CaptureOption) (f g : List UInt8) (p q : ParsedPacket),
      Accepts opt f p → Accepts opt g q → p.mKey = q.mKey →
        p.protocol = q.protocol ∧ Frame.endpoints f = Frame.endpoints g := by
  intro h
  have hcross : CrossedPorts udpFrame udpFrameCrossed := by
    unfold CrossedPorts
    decide
  have hkey : key udpFrame = key udpFrameCrossed :=
    key_eq_iff.mpr ⟨by decide, hcross.sym2_eq⟩
  have hsame := h {} udpFrame udpFrameCrossed _ _ accepts_udpFrame
    (accepts_accepted (by decide) (by decide) (by decide)) hkey
  exact (endpoints_eq_iff_not_crossedPorts hcross.sym2_eq.1 hcross.sym2_eq.2).mp hsame.2 hcross

end Hound
