import Hound.Encode.EncodeFlow

/-!
# Timing an encoding

`encode_flow_tensors` measures the time of an encoding with a `Timer`, whose destructor pads the
number of microseconds to nine characters. The log line pads the number of flows to six and divides
by the time. Both paddings are differences of `size_t`, and an exception in the destructor ends the
process. Texts are ASCII, so their sizes are numbers of characters.

* `encodeFlowTensorsTimed_eq_ok` : timer and log line do not change what is returned.
* `timingSafe_iff` : the times for which nothing wraps and nothing is divided by zero.
-/

namespace Hound

open Tensor

variable {α : Type}

/-- What ends the process or the task behind an encoding. -/
inductive TimingFault where
  /-- An exception leaves the destructor, which is `noexcept`. -/
  | terminate
  /-- `std::length_error` leaves `encode_flow_tensors`. -/
  | lengthError
  /-- A division by zero. -/
  | trap
  deriving DecidableEq, Repr

/-- `a - b` in `size_t`. -/
def sizeSub (a b : ℕ) : ℕ :=
  (a + 18446744073709551616 - b % 18446744073709551616) % 18446744073709551616

/-- `max_size` of an `std::string`. -/
def maxSize : ℕ := 9223372036854775806

/-- The `n` blanks that are added to a text of the given size. -/
def blanks (fault : TimingFault) (size n : ℕ) : Except TimingFault String :=
  if maxSize - size < n then .error fault else .ok (String.ofList (List.replicate n ' '))

/-- `~Timer`, with what `elapsed` and `msg_buf` refer to. -/
def destroyTimer (taskName unit : String) (duration elapsed : ℕ) (msgBuf : String) :
    Except TimingFault (ℕ × String) := do
  let m := toString duration
  let msg := taskName ++ m ++ unit
  let padding ← blanks .terminate msg.length (sizeSub 9 m.length)
  -- the text is printed when no variable has been given for the time
  if elapsed = 18446744073709551615 then return (elapsed, msgBuf)
  else return (duration % 18446744073709551616, msg ++ padding)

/-- What the log line of an encoding shows. -/
structure EncodeLog where
  num : String
  time : String
  avg : ℕ
  deriving DecidableEq, Repr

/-- The end of `encode_flow_tensors`. The log line is there at the log level `INFO` and below. -/
def logEncoding (info : Bool) (count us : ℕ) (msg : String) :
    Except TimingFault (Option EncodeLog) := do
  let alignedCount := toString count
  let padding ← blanks .lengthError alignedCount.length (sizeSub 6 alignedCount.length)
  if info then
    if us = 0 then .error .trap
    else return some { num := padding ++ alignedCount, time := msg, avg := count * 1000000 / us }
  else return none

/-- The handler of `encode_flow_tensors`. -/
def handleFault (rand : ℕ → List.Vector α 128) (count : ℕ) :
    EncodeFault → Except EncodeFault (Tensor α)
  | .exception => .ok (randTensor rand count)
  | .outOfRange => .error .outOfRange

/-- The `try` block up to the timer. -/
def buildTry (ops : TorchOps α) (fault : Option Stage) (flows : List HdFlow) :
    Except EncodeFault (Tensor α × List (ℕ × ℕ)) := do
  throwAt fault .buildSlideWindow
  buildSlideWindow ops flows 5

/-- What is timed. -/
def mergeTry (ops : TorchOps α) (forward : Forward α) (fault : Option Stage)
    (built : Tensor α × List (ℕ × ℕ)) : Except EncodeFault (Tensor α) := do
  let (sldWind, flowIdxArr) := built
  throwAt fault .batchEncode
  let encodedFlows ← batchEncode forward sldWind 8192
  throwAt fault .mergeFlow
  mergeFlow ops encodedFlows flowIdxArr

/-- `encode_flow_tensors` with its timer and its log line. -/
def encodeFlowTensorsTimed (ops : TorchOps α) (forward : Forward α) (fault : Option Stage)
    (rand : ℕ → List.Vector α 128) (flows : List HdFlow) (info : Bool) (duration : ℕ) :
    Except TimingFault (Except EncodeFault (Tensor α) × Option EncodeLog) :=
  match buildTry ops fault flows with
  | .error e => .ok (handleFault rand flows.length e, none)
  | .ok built => do
    -- the timer ends with the `try` block, before a handler runs
    let (us, msg) ← destroyTimer "" "us" duration 0 ""
    match mergeTry ops forward fault built with
    | .error e => return (handleFault rand flows.length e, none)
    | .ok encodings =>
      let log ← logEncoding info flows.length us msg
      return (.ok encodings, log)

/-- No difference wraps, the divisor is not zero, and the encodings are returned. -/
structure TimingSafe (ops : TorchOps α) (forward : Forward α) (fault : Option Stage)
    (rand : ℕ → List.Vector α 128) (flows : List HdFlow) (info : Bool) (duration : ℕ)
    (encodings : Tensor α) : Prop where
  duration_fits : (sizeSub 9 (toString duration).length : ℤ) = 9 - (toString duration).length
  count_fits : (sizeSub 6 (toString flows.length).length : ℤ) = 6 - (toString flows.length).length
  divisor_ne_zero : ∀ us msg, destroyTimer "" "us" duration 0 "" = .ok (us, msg) →
    info = true → us ≠ 0
  returns : ∃ log, encodeFlowTensorsTimed ops forward fault rand flows info duration =
    .ok (.ok encodings, log)

/-! ### Padding -/

/-- A difference is that of the integers exactly when it does not wrap. -/
theorem sizeSub_eq_iff {a b : ℕ} (ha : a < 18446744073709551616) :
    (sizeSub a b : ℤ) = a - b ↔ b ≤ a := by
  unfold sizeSub
  omega

theorem sizeSub_of_le {a b : ℕ} (ha : a < 18446744073709551616) (h : b ≤ a) :
    sizeSub a b = a - b := by
  have hsub := (sizeSub_eq_iff ha).mpr h
  omega

/-- A difference that wraps is more than a string can hold. -/
theorem blanks_of_lt {fault : TimingFault} {a b size : ℕ} (h : a < b)
    (hb : b ≤ 9223372036854775807) : blanks fault size (sizeSub a b) = .error fault := by
  refine if_pos ?_
  unfold sizeSub maxSize
  omega

/-- A few blanks fit into a short text. -/
theorem blanks_of_le {fault : TimingFault} {size n : ℕ} (h : size + n ≤ maxSize) :
    blanks fault size n = .ok (String.ofList (List.replicate n ' ')) := if_neg (by omega)

/-- The number of decimal digits. -/
theorem length_toString_le_iff {n k : ℕ} (hk : 0 < k) :
    (toString n).length ≤ k ↔ n < 10 ^ k := Nat.length_repr_le_iff hk

/-! ### The timer -/

/-- Below `10 ^ 9` microseconds the destructor sets the time. -/
theorem destroyTimer_of_lt {duration : ℕ} (h : duration < 10 ^ 9) :
    ∃ msg, destroyTimer "" "us" duration 0 "" = .ok (duration, msg) := by
  have hlen := (length_toString_le_iff (by decide)).mpr h
  have hsub := sizeSub_of_le (by decide) hlen
  have hmod : duration % 18446744073709551616 = duration := by omega
  have hsize : ("" ++ toString duration ++ "us").length = (toString duration).length + 2 := by
    rw [String.empty_append, String.length_append]
    rfl
  unfold destroyTimer
  simp only
  rw [hsize, hsub, blanks_of_le (by unfold maxSize; omega), hmod]
  exact ⟨_, rfl⟩

/-- From `10 ^ 9` microseconds on an exception leaves the destructor. -/
theorem destroyTimer_of_le {duration : ℕ} (h : 10 ^ 9 ≤ duration)
    (hmax : duration < 9223372036854775808) :
    destroyTimer "" "us" duration 0 "" = .error .terminate := by
  have hlow : 9 < (toString duration).length := by
    by_contra hle
    exact absurd ((length_toString_le_iff (by decide)).mp (not_lt.mp hle)) (not_lt.mpr h)
  have hhigh : (toString duration).length ≤ 19 :=
    (length_toString_le_iff (by decide)).mpr (by omega)
  unfold destroyTimer
  simp only
  rw [blanks_of_lt hlow (by omega)]
  rfl

/-! ### The log line -/

/-- Fewer than `10 ^ 6` flows are aligned, so only the division can go wrong. -/
theorem logEncoding_eq {info : Bool} {count us : ℕ} (hcount : count < 10 ^ 6) (msg : String) :
    ∃ num, logEncoding info count us msg =
      if info then
        if us = 0 then .error .trap
        else .ok (some { num := num, time := msg, avg := count * 1000000 / us })
      else .ok none := by
  have hlen := (length_toString_le_iff (by decide)).mpr hcount
  have hsub := sizeSub_of_le (by decide) hlen
  unfold logEncoding
  simp only
  rw [hsub, blanks_of_le (by unfold maxSize; omega)]
  exact ⟨_, rfl⟩

/-- A time that is not zero divides. -/
theorem exists_logEncoding {info : Bool} {count us : ℕ} (hcount : count < 10 ^ 6)
    (hus : info = true → us ≠ 0) (msg : String) :
    ∃ log, logEncoding info count us msg = .ok log := by
  obtain ⟨num, hlog⟩ := @logEncoding_eq info count us hcount msg
  rw [hlog]
  by_cases hinfo : info = true
  · rw [if_pos hinfo, if_neg (hus hinfo)]
    exact ⟨_, rfl⟩
  · rw [if_neg hinfo]
    exact ⟨_, rfl⟩

/-- The log line divides by a time of zero. -/
theorem logEncoding_zero {count : ℕ} (hcount : count < 10 ^ 6) (msg : String) :
    logEncoding true count 0 msg = .error .trap := by
  obtain ⟨num, hlog⟩ := @logEncoding_eq true count 0 hcount msg
  rw [hlog, if_pos rfl, if_pos rfl]

section Timed

variable {ops : TorchOps α} {forward : Forward α} {fault : Option Stage}
  {rand : ℕ → List.Vector α 128} {flows : List HdFlow} {info : Bool} {duration : ℕ}
  {encodings : Tensor α}

/-- The two parts make up the `try` block. -/
theorem encodeTry_eq : encodeTry ops forward fault flows =
    buildTry ops fault flows >>= mergeTry ops forward fault := (bind_assoc _ _ _).symm

/-- What follows an encoding that has not thrown. -/
theorem encodeFlowTensorsTimed_of_encodeTry
    (h : encodeTry ops forward fault flows = .ok encodings) :
    encodeFlowTensorsTimed ops forward fault rand flows info duration = (do
      let (us, msg) ← destroyTimer "" "us" duration 0 ""
      let log ← logEncoding info flows.length us msg
      return (.ok encodings, log)) := by
  rw [encodeTry_eq] at h
  obtain ⟨built, hbuilt, hmerged⟩ := Except.bind_eq_ok_iff.mp h
  unfold encodeFlowTensorsTimed
  simp only [hbuilt, hmerged]

/-- Timer and log line do not change what is returned. -/
theorem encodeFlowTensorsTimed_eq_ok {result : Except EncodeFault (Tensor α)}
    {log : Option EncodeLog}
    (h : encodeFlowTensorsTimed ops forward fault rand flows info duration = .ok (result, log)) :
    result = encodeFlowTensors ops forward fault rand flows := by
  -- the handler returns what `encodeFlowTensors` returns for the same exception
  have herror : ∀ e, encodeTry ops forward fault flows = .error e →
      encodeFlowTensors ops forward fault rand flows = handleFault rand flows.length e := by
    intro e he
    rw [encodeFlowTensors, he]
    cases e <;> rfl
  unfold encodeFlowTensorsTimed at h
  cases hbuilt : buildTry ops fault flows with
  | error e =>
      rw [hbuilt] at h
      cases h
      refine (herror e ?_).symm
      rw [encodeTry_eq, hbuilt]
      rfl
  | ok built =>
      rw [hbuilt] at h
      obtain ⟨⟨us, msg⟩, -, h⟩ := Except.bind_eq_ok_iff.mp h
      have htry : encodeTry ops forward fault flows = mergeTry ops forward fault built := by
        rw [encodeTry_eq, hbuilt]
        rfl
      cases hmerged : mergeTry ops forward fault built with
      | error e =>
          rw [hmerged] at h
          cases h
          exact (herror e (htry.trans hmerged)).symm
      | ok encodings =>
          rw [hmerged] at h
          obtain ⟨log', -, h⟩ := Except.bind_eq_ok_iff.mp h
          cases h
          rw [encodeFlowTensors, htry, hmerged]

/-- A slow encoding ends the process. -/
theorem encodeFlowTensorsTimed_of_le (hok : encodeTry ops forward fault flows = .ok encodings)
    (h : 10 ^ 9 ≤ duration) (hmax : duration < 9223372036854775808) :
    encodeFlowTensorsTimed ops forward fault rand flows info duration = .error .terminate := by
  rw [encodeFlowTensorsTimed_of_encodeTry hok, destroyTimer_of_le h hmax]
  rfl

/-- An encoding within the first microsecond divides by zero. -/
theorem encodeFlowTensorsTimed_zero (hok : encodeTry ops forward fault flows = .ok encodings)
    (hcount : flows.length < 10 ^ 6) :
    encodeFlowTensorsTimed ops forward fault rand flows true 0 = .error .trap := by
  obtain ⟨msg, hmsg⟩ := destroyTimer_of_lt (show 0 < 10 ^ 9 by decide)
  have hlog := logEncoding_zero hcount msg
  rw [encodeFlowTensorsTimed_of_encodeTry hok, hmsg]
  show (logEncoding true flows.length 0 msg >>= fun log => _) = _
  rw [hlog]
  rfl

end Timed

/-- Behind an encoding of at most 1500 flows nothing goes wrong exactly when it took less than
`10 ^ 9` microseconds, and at least one where the log line is there. -/
theorem timingSafe_iff {ops : TorchOps α} {forward : Forward α} {fault : Option Stage}
    {rand : ℕ → List.Vector α 128} {flows : List HdFlow} {info : Bool} {encodings : Tensor α}
    (hcount : flows.length ≤ 1500) (hok : encodeTry ops forward fault flows = .ok encodings)
    (duration : ℕ) :
    TimingSafe ops forward fault rand flows info duration encodings ↔
      duration < 1000000000 ∧ (info = true → 1 ≤ duration) := by
  have hcount' : flows.length < 10 ^ 6 := by omega
  constructor
  · -- a padding that does not wrap leaves nine digits
    intro h
    have hlen := (sizeSub_eq_iff (by decide)).mp h.duration_fits
    have hlt : duration < 10 ^ 9 := (length_toString_le_iff (by decide)).mp hlen
    obtain ⟨msg, hmsg⟩ := destroyTimer_of_lt hlt
    exact ⟨hlt, fun hinfo => Nat.one_le_iff_ne_zero.mpr (h.divisor_ne_zero _ msg hmsg hinfo)⟩
  · rintro ⟨hlt, hinfo⟩
    have hlen : (toString duration).length ≤ 9 := (length_toString_le_iff (by decide)).mpr hlt
    have hlen' : (toString flows.length).length ≤ 6 :=
      (length_toString_le_iff (by decide)).mpr hcount'
    obtain ⟨msg, hmsg⟩ := destroyTimer_of_lt hlt
    have hdiv : info = true → duration ≠ 0 := fun h => Nat.one_le_iff_ne_zero.mp (hinfo h)
    obtain ⟨log, hlog⟩ := exists_logEncoding hcount' hdiv msg
    refine
      { duration_fits := (sizeSub_eq_iff (by decide)).mpr hlen
        count_fits := (sizeSub_eq_iff (by decide)).mpr hlen'
        divisor_ne_zero := fun us msg' h => ?_
        returns := ⟨log, ?_⟩ }
    · rw [hmsg] at h
      cases h
      exact hdiv
    · rw [encodeFlowTensorsTimed_of_encodeTry hok]
      exact Except.bind_eq_ok_iff.mpr ⟨_, hmsg, Except.bind_eq_ok_iff.mpr ⟨log, hlog, rfl⟩⟩

/-- A millisecond for a flow. -/
theorem timingSafe_millisecond : ∃ encodings,
    encodeTry natOps headForward none [fivePackets] = .ok encodings ∧
      TimingSafe natOps headForward none (fun _ => List.Vector.replicate 128 0) [fivePackets] true
        1000 encodings := by
  obtain ⟨encodings, hok⟩ := exists_encodeTry_fivePackets
  exact ⟨encodings, hok, (timingSafe_iff (by decide) hok 1000).mpr ⟨by decide, by decide⟩⟩

/-- After 1000 seconds, or within the first microsecond, a flow that has been encoded is lost. -/
theorem timing_not_safe : ∃ encodings,
    encodeTry natOps headForward none [fivePackets] = .ok encodings ∧
      (∀ rand, encodeFlowTensorsTimed natOps headForward none rand [fivePackets] true 1000000000 =
        .error .terminate ∧
        ¬TimingSafe natOps headForward none rand [fivePackets] true 1000000000 encodings) ∧
      ∀ rand, encodeFlowTensorsTimed natOps headForward none rand [fivePackets] true 0 =
        .error .trap ∧
        ¬TimingSafe natOps headForward none rand [fivePackets] true 0 encodings := by
  obtain ⟨encodings, hok⟩ := exists_encodeTry_fivePackets
  refine ⟨encodings, hok, fun rand => ?_, fun rand => ?_⟩
  · have hslow : encodeFlowTensorsTimed natOps headForward none rand [fivePackets] true 1000000000 =
        .error .terminate := encodeFlowTensorsTimed_of_le hok (Nat.le_refl _) (by decide)
    refine ⟨hslow, fun h => ?_⟩
    obtain ⟨log, hlog⟩ := h.returns
    rw [hslow] at hlog
    cases hlog
  · have hfast : encodeFlowTensorsTimed natOps headForward none rand [fivePackets] true 0 =
        .error .trap := encodeFlowTensorsTimed_zero hok (by decide)
    refine ⟨hfast, fun h => ?_⟩
    obtain ⟨log, hlog⟩ := h.returns
    rw [hfast] at hlog
    cases hlog

end Hound
