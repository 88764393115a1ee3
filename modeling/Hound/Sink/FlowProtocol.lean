import Hound.Encode.PacketToTensor
import Hound.Packet.Key
import Hound.Sink.FlowTable

/-!
# The protocol of a flow

Nothing compares protocols when packets are collected into flows. An `hd_flow` takes the protocol
of its first packet, and `FlowToTensor` cuts all its packets by that protocol. This is right
because packets are collected under their keys, and a key ends in the name of a protocol.

* `FlowState.Homogeneous` : what is known of a table that was filled with parsed packets.
* `flows_homogeneous` : every list and every flow has one key and one protocol.
-/

namespace Hound

variable {opt : CaptureOption}

/-- The packet was parsed from some raw packet, and accepted. -/
def IsParsed (opt : CaptureOption) (p : ParsedPacket) : Prop := ∃ bs, Accepts opt bs p

/-- Only parsed packets are merged. -/
def MergesParsed (opt : CaptureOption) (actions : List FlowAction) : Prop :=
  ∀ parsedList, .merge parsedList ∈ actions → ∀ p ∈ parsedList, IsParsed opt p

/-- A flow has the protocol of one of its packets. -/
def FlowEvent.Sampled : FlowEvent → Prop
  | .enqueued flow => ∃ p ∈ flow.packetList, p.protocol = flow.protocol
  | .discarded _ _ _ => True

/-- The constructor of `hd_flow` samples the first packet. -/
theorem sampled_of_ofData {key : String} {data : List ParsedPacket} {flow : HdFlow}
    (h : HdFlow.ofData key data = .ok flow) : (FlowEvent.enqueued flow).Sampled := by
  cases data with
  | nil => cases h
  | cons p ps =>
      cases h
      exact ⟨p, List.mem_cons_self, rfl⟩

/-- Parsed packets with one key have one protocol. -/
theorem protocol_eq_of_mKey_eq {p q : ParsedPacket} (hp : IsParsed opt p) (hq : IsParsed opt q)
    (h : p.mKey = q.mKey) : p.protocol = q.protocol := by
  obtain ⟨f, hf⟩ := hp
  obtain ⟨g, hg⟩ := hq
  exact ((mKey_eq_iff_of_accepts hf hg).mp h).1

/-! ### Runs over parsed packets -/

/-- What holds of a table that was filled with parsed packets. -/
structure FlowState.Homogeneous (opt : CaptureOption) (s : FlowState) : Prop where
  inv : s.Inv opt
  parsed : ∀ p ∈ s.merged, IsParsed opt p
  sampled : ∀ ev ∈ s.history, ev.Sampled

theorem homogeneous_initial : FlowState.Homogeneous opt {} where
  inv := inv_initial
  parsed _ hp := absurd hp List.not_mem_nil
  sampled _ hev := absurd hev List.not_mem_nil

theorem homogeneous_merge (hmin : 1 ≤ opt.minPackets.toInt) {parsedList : List ParsedPacket}
    (hparsed : ∀ p ∈ parsedList, IsParsed opt p) {s : FlowState} (hs : s.Homogeneous opt) :
    ∃ s', mergeToExistingFlow opt s parsedList = .ok s' ∧ s'.Homogeneous opt := by
  obtain ⟨s', hs', hinv⟩ := inv_mergeToExistingFlow hmin parsedList hs.inv
  have hsampled := mergeToExistingFlow_history (P := FlowEvent.Sampled)
    (fun _ _ _ => sampled_of_ofData) hs' hs.sampled
  refine ⟨s', hs', hinv, fun p hp => ?_, hsampled⟩
  rw [(mergeToExistingFlow_frame hs').1] at hp
  rcases List.mem_append.mp hp with hp | hp
  · exact hs.parsed p hp
  · exact hparsed p hp

theorem homogeneous_clean (clock : String → ℤ) {s : FlowState} (hs : s.Homogeneous opt) :
    ∃ s', cleanPass opt clock s = .ok s' ∧ s'.Homogeneous opt := by
  obtain ⟨s', hs', hinv⟩ := inv_cleanPass clock hs.inv
  have hsampled := cleanPass_history (P := FlowEvent.Sampled)
    (fun _ _ _ => sampled_of_ofData) (fun _ _ _ => trivial) hs' hs.sampled
  exact ⟨s', hs', hinv, (cleanPass_frame hs').1 ▸ hs.parsed, hsampled⟩

theorem homogeneous_run (hmin : 1 ≤ opt.minPackets.toInt) {actions : List FlowAction}
    (hactions : MergesParsed opt actions) {s : FlowState} (hs : s.Homogeneous opt)
    {r : Except FlowFault FlowState} (hrun : (flowMachine opt).run (.ok s) actions = some r) :
    ∃ s', r = .ok s' ∧ s'.Homogeneous opt := by
  have hstep : ∀ a rest t, t.Homogeneous opt ∧ MergesParsed opt (a :: rest) →
      ∃ u, flowStep opt t a = .ok u ∧ u.Homogeneous opt ∧ MergesParsed opt rest := by
    rintro a rest t ⟨ht, hrest⟩
    have htail : MergesParsed opt rest := fun parsedList hmem =>
      hrest parsedList (List.mem_cons_of_mem a hmem)
    cases a with
    | merge parsedList =>
        obtain ⟨u, hu, hhom⟩ := homogeneous_merge hmin (hrest parsedList List.mem_cons_self) ht
        exact ⟨u, hu, hhom, htail⟩
    | clean clock =>
        obtain ⟨u, hu, hhom⟩ := homogeneous_clean clock ht
        exact ⟨u, hu, hhom, htail⟩
  obtain ⟨s', hs', hhom, -⟩ := flow_run_induction
    (P := fun rest t => t.Homogeneous opt ∧ MergesParsed opt rest) hstep ⟨hs, hactions⟩ hrun
  exact ⟨s', hs', hhom⟩

namespace FlowState.Homogeneous

variable {s : FlowState} (hs : s.Homogeneous opt)

include hs

/-- The packets of a list in the table are parsed packets with the list's key. -/
theorem list_packet {e : String × List ParsedPacket} (he : e ∈ s.mFlowTable.entries)
    {p : ParsedPacket} (hp : p ∈ e.2) : IsParsed opt p ∧ p.mKey = e.1 := by
  refine ⟨hs.parsed p (hs.inv.perm.mem_iff.mpr ?_), hs.inv.mKey_of_mem_entries he hp⟩
  exact List.mem_append_right _ (List.mem_flatMap.mpr ⟨e, he, hp⟩)

/-- So are those of a list that left the table. -/
theorem event_packet {ev : FlowEvent} (hev : ev ∈ s.history) {p : ParsedPacket}
    (hp : p ∈ ev.packets) : IsParsed opt p ∧ p.mKey = ev.key := by
  refine ⟨hs.parsed p (hs.inv.perm.mem_iff.mpr ?_), hs.inv.mKey_of_mem_packets hev hp⟩
  exact List.mem_append_left _ (List.mem_flatMap.mpr ⟨ev, hev, hp⟩)

/-- The packets of a flow have its protocol. -/
theorem flow_protocol {flow : HdFlow} (hflow : .enqueued flow ∈ s.history) {p : ParsedPacket}
    (hp : p ∈ flow.packetList) : p.protocol = flow.protocol := by
  -- `q` is the packet the flow has its protocol from; its key is that of `p`
  obtain ⟨q, hq, hproto⟩ := hs.sampled _ hflow
  obtain ⟨hparsed, hkey⟩ := hs.event_packet hflow hp
  obtain ⟨hparsed', hkey'⟩ := hs.event_packet hflow hq
  rw [← hproto]
  exact protocol_eq_of_mKey_eq hparsed hparsed' (hkey.trans hkey'.symm)

end FlowState.Homogeneous

/-- However parsed packets are merged and clean passes come in between, the packets of every list
in the table have the list's key and one protocol, and the packets of every enqueued flow have its
`flowId` for a key and its protocol. So `FlowToTensor` cuts each of them by its own protocol. -/
theorem flows_homogeneous (opt : CaptureOption) (hmin : 1 ≤ opt.minPackets.toInt)
    {actions : List FlowAction} (hactions : MergesParsed opt actions)
    {r : Except FlowFault FlowState} (hrun : (flowMachine opt).run (.ok {}) actions = some r) :
    ∃ s, r = .ok s ∧
      (∀ e ∈ s.mFlowTable.entries, ∀ p ∈ e.2, p.mKey = e.1 ∧
        ∀ q ∈ e.2, p.protocol = q.protocol) ∧
      ∀ flow, .enqueued flow ∈ s.history → ∀ p ∈ flow.packetList,
        p.mKey = flow.flowId ∧ p.protocol = flow.protocol ∧
          packetToTensor p flow.protocol = packetToTensor p p.protocol := by
  obtain ⟨s, rfl, hs⟩ := homogeneous_run hmin hactions homogeneous_initial hrun
  refine ⟨s, rfl, fun e he p hp => ?_, fun flow hflow p hp => ?_⟩
  · obtain ⟨hparsed, hkey⟩ := hs.list_packet he hp
    refine ⟨hkey, fun q hq => ?_⟩
    obtain ⟨hparsed', hkey'⟩ := hs.list_packet he hq
    exact protocol_eq_of_mKey_eq hparsed hparsed' (hkey.trans hkey'.symm)
  · have hproto := hs.flow_protocol hflow hp
    exact ⟨(hs.event_packet hflow hp).2, hproto, by rw [hproto]⟩

/-- A packet and its reply, and a clean pass that enqueues them. -/
def packetAndReply : List FlowAction :=
  [.merge [Frame.accepted { minPackets := 2 } 60 0 0 udpFrame],
    .merge [Frame.accepted { minPackets := 2 } 60 0 0 udpFrameReply], .clean fun _ => 0]

theorem mergesParsed_packetAndReply : MergesParsed { minPackets := 2 } packetAndReply := by
  intro parsedList hmem p hp
  simp only [packetAndReply, List.mem_cons, List.not_mem_nil, or_false, reduceCtorEq,
    FlowAction.merge.injEq] at hmem
  rcases hmem with rfl | rfl
  · rw [List.mem_singleton.mp hp]
    exact ⟨udpFrame, accepts_accepted (by decide) (by decide) (by decide)⟩
  · rw [List.mem_singleton.mp hp]
    exact ⟨udpFrameReply, accepts_accepted (by decide) (by decide) (by decide)⟩

/-- Both are UDP, and so is their flow. -/
theorem flows_homogeneous_packetAndReply :
    ∃ s, (flowMachine { minPackets := 2 }).run (.ok {}) packetAndReply = some (.ok s) ∧
      ∀ flow, .enqueued flow ∈ s.history → ∀ p ∈ flow.packetList,
        p.protocol = flow.protocol := by
  have hrun : (flowMachine { minPackets := 2 }).run (.ok {}) packetAndReply = some _ := rfl
  obtain ⟨s, hs, -, hflows⟩ :=
    flows_homogeneous { minPackets := 2 } (by decide) mergesParsed_packetAndReply hrun
  exact ⟨s, hs ▸ hrun, fun flow hflow p hp => (hflows flow hflow p hp).2.1⟩

end Hound
