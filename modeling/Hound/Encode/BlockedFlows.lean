import Hound.Encode.EncodeFlow
import Hound.ToMathlib.CInt

/-!
# The number of blocked flows

`LoopTask` adds the size of a batch to `NumBlockedFlows`. `EncodeFlowList` subtracts it again when
it encodes the batch in one call; when the batch is cut into slices, each thread of
`encode_flow_concurrently` subtracts the size of its slice. Both `LoopTask` and `EncodeFlowList`
narrow the size of the batch to `int`; `encode_flow_concurrently` computes in `long`.

* `BlockedState.blocked` : the number of flows that have been announced and not begun.
* `sum_sliceLength` : the slices have as many flows as the batch.
* `numBlockedFlows_iff` : when the counter is this number.
-/

namespace Hound

/-- Where a batch that `LoopTask` has announced is. -/
inductive BatchStage where
  /-- `fetch_add` has been executed. -/
  | announced (size : ℕ)
  /-- `AddTask` has been called. -/
  | added (size : ℕ)
  /-- `EncodeFlowList` has executed its `fetch_sub`. -/
  | single (size : ℕ)
  /-- `encode_flow_concurrently` has been called; the threads of the slices `waiting` have not
  executed their `fetch_sub`. -/
  | split (size : ℕ) (waiting : List ℕ)

/-- The counter, the threads `ι` of `LoopTask`s of any number of sinks, and their batches. -/
structure BlockedState (ι : Type) where
  numBlockedFlows : Int64 := 0
  /-- The batch that a thread is about to add to the executor. -/
  loopTask : ι → Option ℕ := fun _ => none
  batches : List BatchStage := []

/-- The steps that matter for the counter. -/
inductive BlockedAction (ι : Type) where
  /-- `read()` has returned `size` flows, and `LoopTask` executes `fetch_add`. -/
  | announce (w : ι) (size : ℕ)
  /-- `mTaskExecutor.AddTask`. -/
  | addTask (w : ι)
  /-- `EncodeFlowList` up to its `fetch_sub` or its call of `encode_flow_concurrently`. -/
  | encodeFlowList (b : ℕ)
  /-- The `fetch_sub` of the thread of a slice. -/
  | slice (b i : ℕ)

variable {ι : Type} [DecidableEq ι]

/-- One step. The index of the first flow of a slice is an `int`; when the product does not fit,
there is no step. -/
def blockedStep (maxEncodeBatch : Int32) (s : BlockedState ι) :
    BlockedAction ι → Option (BlockedState ι)
  | .announce w size => match s.loopTask w with
      | none =>
          let newDataSize := castToInt size
          if newDataSize = 0 then some s
          else some
            { numBlockedFlows := s.numBlockedFlows + Int64.ofInt newDataSize
              loopTask := Function.update s.loopTask w (some s.batches.length)
              batches := s.batches ++ [.announced size] }
      | some _ => none
  | .addTask w => match s.loopTask w with
      | some b => match s.batches[b]? with
          | some (.announced size) => some
              { s with
                loopTask := Function.update s.loopTask w none
                batches := s.batches.set b (.added size) }
          | _ => none
      | none => none
  | .encodeFlowList b => match s.batches[b]? with
      | some (.added size) =>
          let dataSize := castToInt size
          if dataSize < maxEncodeBatch.toInt then some
            { s with
              numBlockedFlows := s.numBlockedFlows - Int64.ofInt dataSize
              batches := s.batches.set b (.single size) }
          else some
            { s with
              batches := s.batches.set b
                (.split size (List.range (batchCount maxEncodeBatch.toInt.toNat size))) }
      | _ => none
  | .slice b i => match s.batches[b]? with
      | some (.split size waiting) =>
          if i ∈ waiting then
            (checkedInt (i * maxEncodeBatch.toInt)).map fun fIndex =>
              { s with
                numBlockedFlows := s.numBlockedFlows -
                  Int64.ofInt (min (fIndex + maxEncodeBatch.toInt) size - fIndex)
                batches := s.batches.set b (.split size (waiting.erase i)) }
          else none
      | _ => none

/-- The threads of the `LoopTask`s and their executors. -/
def blockedMachine (ι : Type) [DecidableEq ι] (maxEncodeBatch : Int32) :
    Machine (BlockedState ι) (BlockedAction ι) where
  init := {}
  step := blockedStep maxEncodeBatch

/-! ### What a step does -/

section Steps

variable {maxEncodeBatch : Int32} {s t : BlockedState ι} {w : ι} {size b i : ℕ}

theorem blockedStep_announce : blockedStep maxEncodeBatch s (.announce w size) = some t ↔
    s.loopTask w = none ∧ (castToInt size = 0 ∧ t = s ∨ castToInt size ≠ 0 ∧ t =
      { numBlockedFlows := s.numBlockedFlows + Int64.ofInt (castToInt size)
        loopTask := Function.update s.loopTask w (some s.batches.length)
        batches := s.batches ++ [.announced size] }) := by
  cases hw : s.loopTask w with
  | some _ => simp [blockedStep, hw]
  | none =>
      by_cases hzero : castToInt size = 0
      · simp [blockedStep, hw, hzero, eq_comm]
      · simp [blockedStep, hw, hzero, eq_comm]

theorem blockedStep_addTask : blockedStep maxEncodeBatch s (.addTask w) = some t ↔
    ∃ b size, s.loopTask w = some b ∧ s.batches[b]? = some (.announced size) ∧ t =
      { s with
        loopTask := Function.update s.loopTask w none
        batches := s.batches.set b (.added size) } := by
  cases hw : s.loopTask w with
  | none => simp [blockedStep, hw]
  | some b =>
      cases hb : s.batches[b]? with
      | none => simp [blockedStep, hw, hb]
      | some stage => cases stage <;> simp [blockedStep, hw, hb, eq_comm]

theorem blockedStep_encodeFlowList : blockedStep maxEncodeBatch s (.encodeFlowList b) = some t ↔
    ∃ size, s.batches[b]? = some (.added size) ∧
      (castToInt size < maxEncodeBatch.toInt ∧ t =
        { s with
          numBlockedFlows := s.numBlockedFlows - Int64.ofInt (castToInt size)
          batches := s.batches.set b (.single size) } ∨
      maxEncodeBatch.toInt ≤ castToInt size ∧ t =
        { s with
          batches := s.batches.set b
            (.split size (List.range (batchCount maxEncodeBatch.toInt.toNat size))) }) := by
  cases hb : s.batches[b]? with
  | none => simp [blockedStep, hb]
  | some stage =>
      cases stage with
      | announced | single | split => simp [blockedStep, hb]
      | added size =>
          by_cases hsmall : castToInt size < maxEncodeBatch.toInt
          · simp [blockedStep, hb, hsmall, eq_comm]
          · simp [blockedStep, hb, hsmall, not_lt.mp hsmall, eq_comm]

theorem blockedStep_slice : blockedStep maxEncodeBatch s (.slice b i) = some t ↔
    ∃ size waiting fIndex, s.batches[b]? = some (.split size waiting) ∧ i ∈ waiting ∧
      checkedInt (i * maxEncodeBatch.toInt) = some fIndex ∧ t =
        { s with
          numBlockedFlows := s.numBlockedFlows -
            Int64.ofInt (min (fIndex + maxEncodeBatch.toInt) size - fIndex)
          batches := s.batches.set b (.split size (waiting.erase i)) } := by
  cases hb : s.batches[b]? with
  | none => simp [blockedStep, hb]
  | some stage =>
      cases stage with
      | announced | added | single => simp [blockedStep, hb]
      | split size waiting =>
          by_cases hi : i ∈ waiting
          · simp [blockedStep, hb, hi, eq_comm]
          · simp [blockedStep, hb, hi]

end Steps

/-! ### Blocked flows -/

/-- `std::distance(_it_beg, _it_end)` of slice `i`. -/
def sliceLength (maxEncodeBatch size i : ℕ) : ℕ :=
  min (i * maxEncodeBatch + maxEncodeBatch) size - i * maxEncodeBatch

/-- The slices have as many flows as the batch. -/
theorem sum_sliceLength {maxEncodeBatch : ℕ} (hmax : 1 ≤ maxEncodeBatch) (size : ℕ) :
    ((List.range (batchCount maxEncodeBatch size)).map (sliceLength maxEncodeBatch size)).sum =
      size := by
  have hflatten := congrArg List.length
    (@flatten_extract_range Unit (List.replicate size ()) maxEncodeBatch (by omega))
  rw [List.length_flatten, List.map_map, List.length_replicate] at hflatten
  refine Eq.trans ?_ hflatten
  congr 1
  refine List.map_congr_left fun i _ => ?_
  simp only [sliceLength, Function.comp_apply, List.extract_eq_take_drop, List.length_take,
    List.length_drop, List.length_replicate]
  omega

/-- The flows of a batch whose `fetch_sub` has not been executed. -/
def BatchStage.blocked (maxEncodeBatch : ℕ) : BatchStage → ℕ
  | .announced size | .added size => size
  | .single _ => 0
  | .split size waiting => (waiting.map (sliceLength maxEncodeBatch size)).sum

/-- The flows that have been announced and whose `fetch_sub` has not been executed. -/
def BlockedState.blocked (maxEncodeBatch : ℕ) (s : BlockedState ι) : ℕ :=
  (s.batches.map (BatchStage.blocked maxEncodeBatch)).sum

/-- A batch that goes to another stage. -/
theorem sum_map_set {α : Type} (f : α → ℕ) (y : α) : ∀ {xs : List α} {b : ℕ} {x : α},
    xs[b]? = some x → ((xs.set b y).map f).sum + f x = (xs.map f).sum + f y
  | [], _, _, h => by cases h
  | z :: xs, 0, x, h => by
      obtain rfl : z = x := Option.some.inj h
      rw [List.set_cons_zero, List.map_cons, List.map_cons, List.sum_cons, List.sum_cons]
      omega
  | z :: xs, b + 1, x, h => by
      have hb : xs[b]? = some x := h
      have htail := sum_map_set f y hb
      rw [List.set_cons_succ, List.map_cons, List.map_cons, List.sum_cons, List.sum_cons]
      omega

/-- A slice less is waiting. -/
theorem sum_map_erase {f : ℕ → ℕ} {xs : List ℕ} {i : ℕ} (hi : i ∈ xs) :
    ((xs.erase i).map f).sum + f i = (xs.map f).sum := by
  have hperm := ((List.perm_cons_erase hi).map f).sum_eq
  rw [List.map_cons, List.sum_cons] at hperm
  omega

/-! ### The counter -/

/-- `fetch_add` wraps around. -/
theorem toInt_add_ofInt (c : Int64) (d : ℤ) :
    (c + Int64.ofInt d).toInt = (c.toInt + d).bmod (2 ^ 64) := by
  rw [Int64.toInt_add, Int64.toInt_ofInt]
  exact Int.add_bmod_bmod

theorem toInt_sub_ofInt (c : Int64) (d : ℤ) :
    (c - Int64.ofInt d).toInt = (c.toInt - d).bmod (2 ^ 64) := by
  rw [Int64.toInt_sub, Int64.toInt_ofInt]
  exact Int.sub_bmod_bmod

/-- A value that fits does not wrap around. -/
theorem bmod_of_lt {z : ℤ} (hlow : 0 ≤ z) (hhigh : z < 9223372036854775808) :
    z.bmod (2 ^ 64) = z :=
  Int.bmod_eq_of_le (by omega) (by omega)

/-- The counter is the number of blocked flows. -/
def BlockedState.Exact (maxEncodeBatch : Int32) (s : BlockedState ι) : Prop :=
  s.numBlockedFlows.toInt = s.blocked maxEncodeBatch.toInt.toNat

/-- The batch is being encoded, with all of its slices. -/
def BatchStage.Started : BatchStage → Prop
  | .announced _ | .added _ => False
  | .single _ => True
  | .split _ waiting => waiting = []

/-- The counter is the number of blocked flows; it is not negative, and 0 when every batch that has
been announced has been started completely. -/
structure BlockedState.Counted (maxEncodeBatch : Int32) (s : BlockedState ι) : Prop where
  exact : s.Exact maxEncodeBatch
  nonneg : 0 ≤ s.numBlockedFlows.toInt
  zero : (∀ stage ∈ s.batches, stage.Started) → s.numBlockedFlows.toInt = 0

omit [DecidableEq ι] in
theorem BlockedState.Exact.counted {maxEncodeBatch : Int32} {s : BlockedState ι}
    (hs : s.Exact maxEncodeBatch) : s.Counted maxEncodeBatch := by
  refine ⟨hs, ?_, fun hstarted => ?_⟩
  · rw [hs]
    exact Int.natCast_nonneg _
  · have hzero : s.blocked maxEncodeBatch.toInt.toNat = 0 := by
      refine List.sum_eq_zero fun n hn => ?_
      obtain ⟨stage, hstage, rfl⟩ := List.mem_map.mp hn
      have hdone := hstarted stage hstage
      cases stage with
      | announced | added => exact hdone.elim
      | single => rfl
      | split size waiting =>
          obtain rfl : waiting = [] := hdone
          rfl
    rw [hs, hzero, Nat.cast_zero]

/-- What the sizes of the batches and the slices keep. -/
def BatchStage.Fits (maxEncodeBatch : ℕ) : BatchStage → Prop
  | .announced size | .added size => size < 2147483648
  | .single _ => True
  | .split size waiting => ∀ i ∈ waiting, i * maxEncodeBatch < size

/-- The condition on a step: the size of an announced batch is not lost when it is narrowed, and the
counter has room for it. `LoopTask` takes a batch whose narrowed size is 0 for an empty one. -/
def Narrowable (maxEncodeBatch : Int32) (s : BlockedState ι) : BlockedAction ι → Prop
  | .announce _ size => castToInt size = 0 ∨ size < 2147483648 ∧
      s.blocked maxEncodeBatch.toInt.toNat + size < 9223372036854775808
  | _ => True

/-- What holds while all announcements meet the condition. -/
structure BlockedState.Kept (maxEncodeBatch : Int32) (s : BlockedState ι) : Prop where
  exact : s.Exact maxEncodeBatch
  fits : ∀ stage ∈ s.batches, stage.Fits maxEncodeBatch.toInt.toNat

section Counter

variable {maxEncodeBatch : Int32} {s t : BlockedState ι}

omit [DecidableEq ι] in
theorem blocked_announce {size : ℕ} {numBlockedFlows : Int64} {loopTask : ι → Option ℕ} :
    BlockedState.blocked maxEncodeBatch.toInt.toNat
        ⟨numBlockedFlows, loopTask, s.batches ++ [.announced size]⟩ =
      s.blocked maxEncodeBatch.toInt.toNat + size := by
  simp [BlockedState.blocked, BatchStage.blocked]

omit [DecidableEq ι] in
/-- A batch goes to another stage, and its flows are subtracted as far as they are not blocked any
more. -/
theorem kept_set (hs : s.Kept maxEncodeBatch) {b : ℕ} {stage : BatchStage}
    (hstage : s.batches[b]? = some stage) (stage' : BatchStage) {d : ℕ}
    (hblocked : stage.blocked maxEncodeBatch.toInt.toNat =
      stage'.blocked maxEncodeBatch.toInt.toNat + d)
    (hfits : stage'.Fits maxEncodeBatch.toInt.toNat) {numBlockedFlows : Int64}
    (hcounter : numBlockedFlows.toInt = (s.numBlockedFlows.toInt - d).bmod (2 ^ 64))
    (loopTask : ι → Option ℕ) :
    BlockedState.Kept maxEncodeBatch ⟨numBlockedFlows, loopTask, s.batches.set b stage'⟩ := by
  have hsum := sum_map_set (BatchStage.blocked maxEncodeBatch.toInt.toNat) stage' hstage
  have hexact : s.numBlockedFlows.toInt = _ := hs.exact
  have hbound := s.numBlockedFlows.toInt_lt
  constructor
  · unfold BlockedState.blocked at hexact
    unfold BlockedState.Exact BlockedState.blocked
    simp only
    rw [hcounter, bmod_of_lt (by omega) (by omega)]
    omega
  · intro x hx
    obtain hx | rfl := List.mem_or_eq_of_mem_set hx
    · exact hs.fits x hx
    · exact hfits

omit [DecidableEq ι] in
/-- A batch goes to another stage with as many blocked flows. -/
theorem kept_move (hs : s.Kept maxEncodeBatch) {b : ℕ} {stage : BatchStage}
    (hstage : s.batches[b]? = some stage) (stage' : BatchStage)
    (hblocked : stage.blocked maxEncodeBatch.toInt.toNat =
      stage'.blocked maxEncodeBatch.toInt.toNat)
    (hfits : stage'.Fits maxEncodeBatch.toInt.toNat) (loopTask : ι → Option ℕ) :
    BlockedState.Kept maxEncodeBatch ⟨s.numBlockedFlows, loopTask, s.batches.set b stage'⟩ := by
  have hbound := s.numBlockedFlows.toInt_lt
  have hexact : s.numBlockedFlows.toInt = _ := hs.exact
  refine kept_set hs hstage stage' (d := 0) hblocked hfits ?_ loopTask
  rw [Nat.cast_zero, sub_zero, bmod_of_lt (by omega) hbound]

omit [DecidableEq ι] in
/-- A batch whose size is not lost is announced. -/
theorem kept_announce (hs : s.Kept maxEncodeBatch) {size : ℕ} (hsize : size < 2147483648)
    (hroom : s.blocked maxEncodeBatch.toInt.toNat + size < 9223372036854775808)
    (loopTask : ι → Option ℕ) :
    BlockedState.Kept maxEncodeBatch
      { numBlockedFlows := s.numBlockedFlows + Int64.ofInt (castToInt size)
        loopTask
        batches := s.batches ++ [.announced size] } := by
  have hcast : castToInt size = size := castToInt_eq_iff.mpr hsize
  have hexact : s.numBlockedFlows.toInt = _ := hs.exact
  constructor
  · show Int64.toInt _ = _
    rw [toInt_add_ofInt, hcast, hexact, blocked_announce, bmod_of_lt (by omega) (by omega),
      Nat.cast_add]
  · intro stage hstage
    obtain hold | hnew := List.mem_append.mp hstage
    · exact hs.fits stage hold
    · obtain rfl := List.mem_singleton.mp hnew
      exact hsize

/-- A step that meets the condition keeps the counter exact. -/
theorem kept_step (hmax : 1 ≤ maxEncodeBatch.toInt) (hs : s.Kept maxEncodeBatch)
    {a : BlockedAction ι} (hguard : Narrowable maxEncodeBatch s a)
    (hstep : blockedStep maxEncodeBatch s a = some t) : t.Kept maxEncodeBatch := by
  obtain ⟨m, hm⟩ := Int.eq_ofNat_of_zero_le (show 0 ≤ maxEncodeBatch.toInt by omega)
  have htoNat : maxEncodeBatch.toInt.toNat = m := by rw [hm, Int.toNat_natCast]
  cases a with
  | announce w size =>
      obtain ⟨-, ⟨-, rfl⟩ | ⟨hne, rfl⟩⟩ := blockedStep_announce.mp hstep
      · exact hs
      · obtain ⟨hsize, hroom⟩ := hguard.resolve_left hne
        exact kept_announce hs hsize hroom _
  | addTask w =>
      obtain ⟨b, size, -, hb, rfl⟩ := blockedStep_addTask.mp hstep
      have hfits := hs.fits _ (List.mem_of_getElem? hb)
      exact kept_move hs hb (.added size) rfl hfits _
  | encodeFlowList b =>
      obtain ⟨size, hb, ⟨-, rfl⟩ | ⟨-, rfl⟩⟩ := blockedStep_encodeFlowList.mp hstep
      · have hsize : size < 2147483648 := hs.fits _ (List.mem_of_getElem? hb)
        have hcast : castToInt size = size := castToInt_eq_iff.mpr hsize
        refine kept_set hs hb (.single size) (d := size) (Nat.zero_add _).symm trivial ?_ _
        rw [toInt_sub_ofInt, hcast]
      · -- nothing is subtracted before the threads have started
        have hm1 : 1 ≤ m := by omega
        refine kept_move hs hb (.split size _) ?_ (fun i hi => ?_) _
        · rw [htoNat]
          exact (sum_sliceLength hm1 size).symm
        · rw [htoNat] at hi ⊢
          exact (lt_batchCount_iff (by omega)).mp (List.mem_range.mp hi)
  | slice b i =>
      obtain ⟨size, waiting, fIndex, hb, hi, hindex, rfl⟩ := blockedStep_slice.mp hstep
      have hfits : ∀ i ∈ waiting, i * maxEncodeBatch.toInt.toNat < size :=
        hs.fits _ (List.mem_of_getElem? hb)
      have hlt : i * m < size := htoNat ▸ hfits i hi
      have hwaiting := sum_map_erase (f := sliceLength m size) hi
      have hfIndex : fIndex = (i * m : ℕ) := by
        rw [eq_of_checkedInt hindex, hm, Nat.cast_mul]
      refine kept_set hs hb (.split size _) (d := sliceLength m size i) ?_ (fun j hj => ?_) ?_ _
      · rw [htoNat]
        exact hwaiting.symm
      · exact hfits j (List.mem_of_mem_erase hj)
      · rw [toInt_sub_ofInt, hfIndex, hm]
        congr 2
        unfold sliceLength
        generalize i * m = first at hlt ⊢
        omega

/-- A step that does not meet the condition makes the counter wrong. -/
theorem not_exact_of_step (hs : s.Exact maxEncodeBatch) {a : BlockedAction ι}
    (hguard : ¬Narrowable maxEncodeBatch s a) (hstep : blockedStep maxEncodeBatch s a = some t) :
    ¬t.Exact maxEncodeBatch := by
  cases a with
  | announce w size =>
      simp only [Narrowable, not_or] at hguard
      obtain ⟨hne, hlarge⟩ := hguard
      obtain ⟨-, ⟨hzero, -⟩ | ⟨-, rfl⟩⟩ := blockedStep_announce.mp hstep
      · exact absurd hzero hne
      · intro ht
        have hexact : s.numBlockedFlows.toInt = _ := hs
        have hnew : (s.numBlockedFlows + Int64.ofInt (castToInt size)).toInt = _ := ht
        have hbound := (s.numBlockedFlows + Int64.ofInt (castToInt size)).toInt_lt
        rw [blocked_announce] at hnew
        refine hlarge ⟨castToInt_eq_iff.mp ?_, by omega⟩
        -- the sum is right up to a multiple of `2 ^ 64`, and too small for another one than 0
        obtain ⟨hlow, -, hle⟩ := castToInt_bounds size
        have hmod := Int.bmod_eq_self_sub_mul_bdiv
          (s.numBlockedFlows.toInt + castToInt size) (2 ^ 64)
        rw [← toInt_add_ofInt, hnew] at hmod
        omega
  | addTask | encodeFlowList | slice => exact absurd trivial hguard

/-- In every run of any number of threads the counter is the number of blocked flows in every state,
if and only if every batch that is announced has a size that is not lost in the narrowing. -/
theorem numBlockedFlows_iff (hmax : 1 ≤ maxEncodeBatch.toInt) {as : List (BlockedAction ι)}
    (hrun : (blockedMachine ι maxEncodeBatch).run {} as = some s) :
    (blockedMachine ι maxEncodeBatch).Throughout (BlockedState.Counted maxEncodeBatch) {} as ↔
      (blockedMachine ι maxEncodeBatch).StepsMeet (Narrowable maxEncodeBatch) {} as := by
  constructor
  · refine Machine.Throughout.stepsMeet_of_holds (fun s a t hs hguard hstep ht => ?_) as hrun
    exact not_exact_of_step hs.exact hguard hstep ht.exact
  · intro hmeet
    have hinit : BlockedState.Kept maxEncodeBatch ({} : BlockedState ι) :=
      ⟨rfl, fun _ h => by cases h⟩
    exact Machine.StepsMeet.throughout (I := BlockedState.Kept maxEncodeBatch)
      (fun _ _ _ _ hs hguard hstep => kept_step hmax hs hguard hstep)
      (fun _ hs => hs.exact.counted) as Machine.Reachable.init hmeet hinit

end Counter

/-- A batch of one flow and, from another thread, one of five flows that is cut into slices of
two. -/
def twoBatches : List (BlockedAction Bool) :=
  [.announce false 1, .announce true 5, .addTask true, .encodeFlowList 1, .slice 1 2,
    .addTask false, .slice 1 0, .encodeFlowList 0, .slice 1 1]

/-- The counter is exact throughout. -/
theorem numBlockedFlows_twoBatches :
    (blockedMachine Bool 2).Throughout (BlockedState.Counted 2) {} twoBatches := by
  have hrun : (blockedMachine Bool 2).run {} twoBatches = some _ := rfl
  refine (numBlockedFlows_iff (by decide) hrun).mpr ?_
  -- only the announcements have a condition to meet
  refine .cons (.inr ⟨by decide, by decide⟩) rfl (.cons (.inr ⟨by decide, by decide⟩) rfl ?_)
  exact ⟨trivial, fun _ _ => ⟨trivial, fun _ _ => ⟨trivial, fun _ _ => ⟨trivial, fun _ _ =>
    ⟨trivial, fun _ _ => ⟨trivial, fun _ _ => ⟨trivial, fun _ _ => trivial⟩⟩⟩⟩⟩⟩⟩

/-- A batch of `2 ^ 31` flows is announced with a negative number. -/
theorem numBlockedFlows_not_exact : ¬∀ s : BlockedState Unit,
    (blockedMachine Unit 1500).Reachable s → s.Exact 1500 ∧ 0 ≤ s.numBlockedFlows.toInt := by
  intro h
  have hrun : (blockedMachine Unit 1500).run {} [.announce () 2147483648] = some _ := rfl
  exact absurd (h _ ⟨_, hrun⟩).2 (by decide)

end Hound
