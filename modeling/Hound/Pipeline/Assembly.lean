import Hound.Capture.LiveHandler
import Hound.Packet.Bounds
import Hound.Pipeline.Accounting
import Hound.Sink.FlowTable
import Hound.ToMathlib.Except

/-!
# Capture and flow assembly together

The tasks of a `LiveParser` call `MakeFlow`: each parses its batch and merges what it has parsed
into the flow table of its worker's `KafkaSink`, under the lock of the table. Clean passes go over
the tables at any time. The bytes a task parses are taken to be those that were captured.

* `assemblyMachine` : a `LiveParser` with the flow tables of its workers.
* `assemblyStep_effect`, `table_step` : what a step can do to the tables, and to one of them.
* `live_reachable` : without the tables it is a `LiveParser`.
-/

namespace Hound

/-! ### `MakeFlow` -/

/-- `parsed_packet(item)`. -/
def Delivery.parse (opt : CaptureOption) (item : Delivery) : Except ParseFault ParsedPacket :=
  parsedPacket opt item.pkthdr.caplen.toNat item.pkthdr.tvSec item.pkthdr.tvUsec
    (item.bytes.take (item.snapLen opt))

/-- `parse_raw_packets`. -/
def parseRawPackets (opt : CaptureOption) (rawList : List Delivery) :
    Except ParseFault (List ParsedPacket) :=
  rawList.foldlM (fun parsedList item => do
    let parsed ← item.parse opt
    if parsed.present then return parsedList ++ [parsed] else return parsedList) []

/-- What keeps a `MakeFlow` from succeeding. -/
inductive MakeFlowFault where
  | parse (fault : ParseFault)
  | merge (fault : FlowFault)

/-- `KafkaSink::MakeFlow`. -/
def makeFlow (opt : CaptureOption) (sink : FlowState) (rawList : List Delivery) :
    Except MakeFlowFault FlowState := do
  let parsedList ← (parseRawPackets opt rawList).mapError .parse
  (mergeToExistingFlow opt sink parsedList).mapError .merge

/-- The parsed packet, if there is one and it is accepted. -/
def Delivery.accepted? (opt : CaptureOption) (item : Delivery) : Option ParsedPacket :=
  match item.parse opt with
  | .ok parsed => if parsed.present then some parsed else none
  | .error _ => none

/-- The key under which a packet is merged. -/
def Delivery.key? (opt : CaptureOption) (item : Delivery) : Option String :=
  (item.accepted? opt).map ParsedPacket.mKey

theorem Delivery.accepted?_of_parse {opt : CaptureOption} {item : Delivery} {parsed : ParsedPacket}
    (h : item.parse opt = .ok parsed) :
    item.accepted? opt = if parsed.present then some parsed else none := by
  rw [Delivery.accepted?, h]

/-- What is parsed are the accepted packets of the batch, in order. -/
theorem parseRawPackets_eq {opt : CaptureOption} {rawList : List Delivery}
    {parsedList : List ParsedPacket} (h : parseRawPackets opt rawList = .ok parsedList) :
    parsedList = rawList.filterMap (Delivery.accepted? opt) := by
  -- the induction is on the packets to come, for every list of packets parsed before
  suffices hall : ∀ before, rawList.foldlM (fun parsedList item => do
      let parsed ← item.parse opt
      if parsed.present then return parsedList ++ [parsed] else return parsedList) before =
        .ok parsedList → parsedList = before ++ rawList.filterMap (Delivery.accepted? opt) from
    hall [] h
  clear h
  induction rawList with
  | nil =>
      intro before h
      rw [List.foldlM_nil] at h
      cases h
      exact (List.append_nil _).symm
  | cons item rest ih =>
      intro before h
      rw [List.foldlM_cons] at h
      obtain ⟨next, hnext, hrest⟩ := Except.bind_eq_ok_iff.mp h
      obtain ⟨parsed, hparsed, hpresent⟩ := Except.bind_eq_ok_iff.mp hnext
      rw [ih next hrest, List.filterMap_cons, Delivery.accepted?_of_parse hparsed]
      cases hp : parsed.present with
      | true =>
          rw [hp, if_pos rfl] at hpresent
          cases hpresent
          rw [if_pos rfl, List.append_assoc]
          rfl
      | false =>
          rw [hp, if_neg nofun] at hpresent
          cases hpresent
          rw [if_neg nofun]

/-- A `MakeFlow` that succeeds has merged the accepted packets. -/
theorem makeFlow_eq {opt : CaptureOption} {sink sink' : FlowState} {rawList : List Delivery}
    (h : makeFlow opt sink rawList = .ok sink') :
    mergeToExistingFlow opt sink (rawList.filterMap (Delivery.accepted? opt)) = .ok sink' := by
  unfold makeFlow at h
  cases hparse : parseRawPackets opt rawList with
  | error fault =>
      rw [hparse] at h
      nomatch h
  | ok parsedList =>
      rw [← parseRawPackets_eq hparse]
      cases hmerge : mergeToExistingFlow opt sink parsedList with
      | error fault =>
          rw [hparse] at h
          simp only [Except.mapError, bind, Except.bind, hmerge] at h
          nomatch h
      | ok sink'' =>
          rw [hparse] at h
          simp only [Except.mapError, bind, Except.bind, hmerge] at h
          rw [Except.ok.inj h]

/-- An empty UDP datagram. -/
def udpDelivery : Delivery where
  addr := 0
  bytes := udpFrame
  pkthdr := ⟨0, 0, 60⟩
  length_eq := rfl

variable {n : ℕ} {opt : CaptureOption} {packets : ℕ → Delivery}

/-! ### The machine -/

/-- A `LiveParser` with the sinks of its workers. -/
structure AssemblyState (n : ℕ) extends DrainState Unit n where
  sink : Fin n → FlowState := fun _ => {}
  /-- The packets a sink has been given, in order. -/
  merged : Fin n → List ℕ := fun _ => []

/-- Who takes a step. -/
inductive AssemblyAction (n : ℕ) where
  | live (a : DrainAction Unit n)
  /-- A clean pass over the table of a worker. -/
  | clean (w : Fin n) (clock : String → ℤ)

/-- The `KafkaSink` of the worker has been built and not yet been destroyed. -/
def DrainPc.hasSink : DrainPc → Bool
  | .construct | .finished => false
  | _ => true

/-- The flow table of a worker is destroyed. -/
def AssemblyState.dropTable (s : AssemblyState n) (w : Fin n) : AssemblyState n :=
  { s with sink := Function.update s.sink w { s.sink w with mFlowTable := .empty } }

/-- Task `c` calls `MakeFlow`. It is undefined what this does to a sink whose destructor has begun,
or after a fault. -/
def AssemblyState.callMakeFlow (opt : CaptureOption) (packets : ℕ → Delivery)
    (s : AssemblyState n) (c : Fin n × ℕ) : Option (AssemblyState n) :=
  if s.alive c.1 then
    match makeFlow opt (s.sink c.1) ((s.batch c).map packets) with
    | .ok sink => some
        { s with
          sink := Function.update s.sink c.1 sink
          merged := Function.update s.merged c.1 (s.merged c.1 ++ s.batch c) }
    | .error _ => none
  else none

/-- What the step does to the flow tables; a task ends with its call of `MakeFlow`. -/
def AssemblyState.onTables (opt : CaptureOption) (packets : ℕ → Delivery) (s : AssemblyState n) :
    DrainAction Unit n → Option (AssemblyState n)
  | .executor (.async c) => match s.mTaskExecutor.async c with
      | .running => s.callMakeFlow opt packets c
      | _ => some s
  | .thread w => match s.thread w with
      | .destroying => some (s.dropTable w)
      | _ => some s
  | _ => some s

/-- One step. -/
def assemblyStep (opt : CaptureOption) (packets : ℕ → Delivery) (s : AssemblyState n) :
    AssemblyAction n → Option (AssemblyState n)
  | .live a => do
      -- what the step does to the tables depends on the state before it
      let t ← s.onTables opt packets a
      let d ← liveParserStep opt s.toDrainState a
      return { t with toDrainState := d }
  | .clean w clock =>
      -- `mCleanTask` starts in the constructor of the sink and is joined in its destructor
      if (s.thread w).hasSink then
        match cleanPass opt clock (s.sink w) with
        | .ok sink => some { s with sink := Function.update s.sink w sink }
        | .error _ => none
      else none

/-- A `LiveParser` with `n` workers that captures `packets`, of which it may stop at any. -/
def assemblyMachine (opt : CaptureOption) (packets : ℕ → Delivery) (n : ℕ) :
    Machine (AssemblyState n) (AssemblyAction n) where
  init := {}
  step := assemblyStep opt packets

/-! ### What a step does -/

variable {s t : AssemblyState n}

/-- What a step can do. -/
inductive AssemblyEffect (opt : CaptureOption) (packets : ℕ → Delivery) (s : AssemblyState n) :
    AssemblyAction n → AssemblyState n → Prop
  | live (a : DrainAction Unit n) (d : DrainState Unit n)
      (hlive : liveParserStep opt s.toDrainState a = some d)
      (hidle : ∀ c, a = .executor (.async c) → s.mTaskExecutor.async c ≠ .running) :
      AssemblyEffect opt packets s (.live a) { s with toDrainState := d }
  | dropTable (w : Fin n) (d : DrainState Unit n)
      (hlive : liveParserStep opt s.toDrainState (.thread w) = some d) :
      AssemblyEffect opt packets s (.live (.thread w)) { s.dropTable w with toDrainState := d }
  | makeFlow (c : Fin n × ℕ) (d : DrainState Unit n) (sink : FlowState)
      (hlive : liveParserStep opt s.toDrainState (.executor (.async c)) = some d)
      (hasync : s.mTaskExecutor.async c = .running)
      (hmerge : mergeToExistingFlow opt (s.sink c.1)
        ((s.batch c).filterMap fun i => (packets i).accepted? opt) = .ok sink) :
      AssemblyEffect opt packets s (.live (.executor (.async c)))
        { toDrainState := d
          sink := Function.update s.sink c.1 sink
          merged := Function.update s.merged c.1 (s.merged c.1 ++ s.batch c) }
  | clean (w : Fin n) (clock : String → ℤ) (sink : FlowState)
      (hclean : cleanPass opt clock (s.sink w) = .ok sink) :
      AssemblyEffect opt packets s (.clean w clock)
        { s with sink := Function.update s.sink w sink }

theorem callMakeFlow_eq {c : Fin n × ℕ} (h : s.callMakeFlow opt packets c = some t) :
    ∃ sink, mergeToExistingFlow opt (s.sink c.1)
        ((s.batch c).filterMap fun i => (packets i).accepted? opt) = .ok sink ∧
      { s with
        sink := Function.update s.sink c.1 sink
        merged := Function.update s.merged c.1 (s.merged c.1 ++ s.batch c) } = t := by
  unfold AssemblyState.callMakeFlow at h
  split at h
  · split at h
    · next sink hmake =>
        refine ⟨sink, ?_, Option.some.inj h⟩
        have hmerge := makeFlow_eq hmake
        rwa [List.filterMap_map] at hmerge
    · nomatch h
  · nomatch h

theorem assemblyStep_effect {a : AssemblyAction n} (hstep : assemblyStep opt packets s a = some t) :
    AssemblyEffect opt packets s a t := by
  cases a with
  | clean w clock =>
      simp only [assemblyStep] at hstep
      split at hstep
      · split at hstep
        · next sink hclean =>
            obtain rfl := Option.some.inj hstep
            exact .clean w clock sink hclean
        · nomatch hstep
      · nomatch hstep
  | live a =>
      obtain ⟨u, hu, hrest⟩ := Option.bind_eq_some_iff.mp hstep
      obtain ⟨d, hlive, ht⟩ := Option.bind_eq_some_iff.mp hrest
      obtain rfl := Option.some.inj ht
      -- a step that leaves the tables alone
      have hsame (hsu : s = u)
          (hidle : ∀ c, a = .executor (.async c) → s.mTaskExecutor.async c ≠ .running) :
          AssemblyEffect opt packets s (.live a) { u with toDrainState := d } :=
        hsu ▸ .live a d hlive hidle
      unfold AssemblyState.onTables at hu
      split at hu
      · next c =>
          split at hu
          · next hasync =>
              obtain ⟨sink, hmerge, rfl⟩ := callMakeFlow_eq hu
              exact .makeFlow c d sink hlive hasync hmerge
          · next hasync =>
              refine hsame (Option.some.inj hu) ?_
              rintro c' hc'
              obtain rfl : c = c' := by simpa using hc'
              exact hasync
      · next w =>
          split at hu
          · obtain rfl := Option.some.inj hu
            exact .dropTable w d hlive
          · exact hsame (Option.some.inj hu) nofun
      · next hasync _ =>
          exact hsame (Option.some.inj hu) fun c hc => absurd hc (hasync c)

/-- What a step can do to the table of worker `w`. -/
inductive TableEffect (opt : CaptureOption) (packets : ℕ → Delivery) (s : AssemblyState n)
    (a : AssemblyAction n) (t : AssemblyState n) (w : Fin n) : Prop
  | same (hsink : t.sink w = s.sink w) (hmerged : t.merged w = s.merged w)
  | dropTable (hsink : t.sink w = { s.sink w with mFlowTable := .empty })
      (hmerged : t.merged w = s.merged w)
  | merge (k : ℕ) (ha : a = .live (.executor (.async (w, k))))
      (hasync : s.mTaskExecutor.async (w, k) = .running)
      (hmerge : mergeToExistingFlow opt (s.sink w)
        ((s.batch (w, k)).filterMap fun i => (packets i).accepted? opt) = .ok (t.sink w))
      (hmerged : t.merged w = s.merged w ++ s.batch (w, k))
  | clean (clock : String → ℤ) (hclean : cleanPass opt clock (s.sink w) = .ok (t.sink w))
      (hmerged : t.merged w = s.merged w)

theorem table_step {a : AssemblyAction n} (hstep : assemblyStep opt packets s a = some t)
    (w : Fin n) : TableEffect opt packets s a t w := by
  cases assemblyStep_effect hstep with
  | live => exact .same rfl rfl
  | dropTable w' =>
      rcases eq_or_ne w w' with rfl | hne
      · exact .dropTable (Function.update_self ..) rfl
      · exact .same (Function.update_of_ne hne ..) rfl
  | makeFlow c d sink hlive hasync hmerge =>
      rcases eq_or_ne w c.1 with rfl | hne
      · refine .merge c.2 rfl hasync ?_ (Function.update_self ..)
        simpa only [Function.update_self] using hmerge
      · exact .same (Function.update_of_ne hne ..) (Function.update_of_ne hne ..)
  | clean w' clock sink hclean =>
      rcases eq_or_ne w w' with rfl | hne
      · refine .clean clock ?_ rfl
        simpa only [Function.update_self] using hclean
      · exact .same (Function.update_of_ne hne ..) rfl

/-- Without the tables a step is one of the `LiveParser`, or none. -/
theorem live_step {a : AssemblyAction n} (hstep : assemblyStep opt packets s a = some t) :
    (∃ b, a = .live b ∧ liveParserStep opt s.toDrainState b = some t.toDrainState) ∨
      t.toDrainState = s.toDrainState := by
  cases assemblyStep_effect hstep with
  | live b d hlive => exact .inl ⟨b, rfl, hlive⟩
  | dropTable w d hlive => exact .inl ⟨_, rfl, hlive⟩
  | makeFlow c d sink hlive => exact .inl ⟨_, rfl, hlive⟩
  | clean => exact .inr rfl

theorem live_reachable (hs : (assemblyMachine opt packets n).Reachable s) :
    (liveParserMachine opt n).Reachable s.toDrainState := by
  refine hs.map (f := AssemblyState.toDrainState) rfl fun s a t hstep => ?_
  rcases live_step hstep with ⟨b, -, hlive⟩ | hsame
  · exact ⟨some b, hlive⟩
  · exact ⟨none, hsame⟩

end Hound
