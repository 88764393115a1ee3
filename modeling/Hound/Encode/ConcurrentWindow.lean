import Hound.Encode.WindowRanges
import Hound.ToMathlib.CInt

/-!
# Windows built concurrently

`BuildSlideWindowConcurrently`, which is deprecated, cuts the flows into slices, one for each CPU,
and builds the windows of a slice in an `std::async`. The running offset starts at 0 in every slice,
so the ranges of the flows behind the first slice are those of other flows. The number of CPUs and
the number of flows are narrowed to `int`.

* `buildSlideWindowConcurrently_eq` : what the slices give together, whatever the order in which
  they finish.
* `buildSlideWindowConcurrently_eq_iff` : when this is what `BuildSlideWindow` returns.
-/

namespace Hound

open Tensor

variable {α : Type}

/-- `batch_size`. The sum is one of `size_t`; a division by zero is undefined. -/
def asyncBatchSize (numCpus : UInt32) (size : ℕ) : Option ℤ :=
  let batchCount := castToInt numCpus.toNat
  let sum := ((size + batchCount - 1) % 18446744073709551616).toNat
  if batchCount = 0 then none else checkedInt ((castToInt sum).tdiv batchCount)

/-- The number of passes of the loop that starts the slices. No `int` overflows there: `batch_count`
times `batch_size` is at most the sum. -/
def asyncCount (dataSize batchSize : ℤ) : ℕ := batchCount batchSize.toNat dataSize.toNat

/-- The slice that starts at flow `i * batchSize`. -/
def asyncSlice (ops : TorchOps α) (flowList : List HdFlow) (width : ℕ) (dataSize batchSize : ℤ)
    (i : ℕ) : Except EncodeFault (List (Tensor α) × List (ℕ × ℕ)) := do
  let start := i * batchSize.toNat
  let stop := min (start + batchSize.toNat) dataSize.toNat
  let (windowList, indexList, _) ←
    (flowList.extract start stop).foldlM (slideStep ops width) ([], [], 0)
  return (windowList, indexList)

/-- What is done with the results of the slices. -/
def combineSlices (ops : TorchOps α)
    (results : List (Except EncodeFault (List (Tensor α) × List (ℕ × ℕ)))) :
    Except EncodeFault (Tensor α × List (ℕ × ℕ)) := do
  let parts ← results.mapM id
  let inputWindow ← orThrow (Tensor.concat (parts.flatMap (·.1)))
  let indexTensor ← orThrow (stackPairs (parts.flatMap (·.2)))
  return (zScoreNorm ops inputWindow, indexTensor)

/-- `BuildSlideWindowConcurrently`, with the order in which the slices finish. It does not return
when the loop makes no progress, or when `get` waits for a slice that does not finish. -/
def buildSlideWindowConcurrently (ops : TorchOps α) (numCpus : UInt32) (order : List ℕ)
    (flowList : List HdFlow) (width : ℕ) :
    Option (Except EncodeFault (Tensor α × List (ℕ × ℕ))) := do
  let batchCount := castToInt numCpus.toNat
  let dataSize := castToInt flowList.length
  let batchSize ← asyncBatchSize numCpus flowList.length
  -- `futures.reserve(batch_count)` throws `std::length_error`
  if batchCount < 0 then return .error .exception
  else if 0 < dataSize ∧ batchSize ≤ 0 then none
  else
    let futures := order.foldl
      (fun futures i => futures.set i (some (asyncSlice ops flowList width dataSize batchSize i)))
      (List.replicate (asyncCount dataSize batchSize) none)
    let results ← futures.mapM id
    return combineSlices ops results

/-- All slices finish. -/
def AllFinish (numCpus : UInt32) (order : List ℕ) (flowList : List HdFlow) : Prop :=
  ∀ batchSize, asyncBatchSize numCpus flowList.length = some batchSize →
    order.Perm (List.range (asyncCount (castToInt flowList.length) batchSize))

/-- One slice has all flows: there is one CPU, or there is one flow, and `int` loses nothing. -/
def OneSlice (numCpus : UInt32) (flowList : List HdFlow) : Prop :=
  (numCpus.toNat = 1 ∧ flowList.length < 2147483648) ∨
    (flowList.length = 1 ∧ numCpus.toNat < 2147483648)

section Slices

variable {ops : TorchOps α} {numCpus : UInt32} {order : List ℕ} {flowList : List HdFlow}

/-- The results are combined in the order of the slices. -/
theorem buildSlideWindowConcurrently_eq (horder : AllFinish numCpus order flowList)
    {batchSize : ℤ} (hsize : asyncBatchSize numCpus flowList.length = some batchSize)
    (hcpus : 0 ≤ castToInt numCpus.toNat)
    (hprogress : ¬(0 < castToInt flowList.length ∧ batchSize ≤ 0)) :
    buildSlideWindowConcurrently ops numCpus order flowList 5 =
      some (combineSlices ops
        ((List.range (asyncCount (castToInt flowList.length) batchSize)).map
          (asyncSlice ops flowList 5 (castToInt flowList.length) batchSize))) := by
  set n := asyncCount (castToInt flowList.length) batchSize with hn
  set result := asyncSlice ops flowList 5 (castToInt flowList.length) batchSize with hresult
  have hlen : (List.replicate n
      (none : Option (Except EncodeFault (List (Tensor α) × List (ℕ × ℕ))))).length = n :=
    List.length_replicate
  -- every slice sets its own future, and each of them finishes
  have hslots := foldl_set_of_perm (f := fun i => some (result i)) hlen (horder batchSize hsize)
  have hall : ((List.range n).map fun i => some (result i)).mapM id =
      some ((List.range n).map result) := by
    rw [mapM_id_eq_some_iff, List.map_map]
    rfl
  rw [buildSlideWindowConcurrently, hsize, Option.bind_eq_bind, Option.bind_some,
    if_neg (not_lt.mpr hcpus), if_neg hprogress]
  simp only [← hn, ← hresult, hslots, hall]
  rfl

/-- The slices that have been combined have been converted one by one. -/
theorem index_of_combineSlices {n : ℕ} {dataSize batchSize : ℤ} {data : Tensor α}
    {index : List (ℕ × ℕ)}
    (h : combineSlices ops ((List.range n).map
      (asyncSlice ops flowList 5 dataSize batchSize)) = .ok (data, index)) :
    index = (List.range n).flatMap fun i =>
      ranges 0 ((flowList.extract (i * batchSize.toNat)
        (min (i * batchSize.toNat + batchSize.toNat) dataSize.toNat)).map
          fun flow => flow.count / 5) := by
  obtain ⟨parts, hparts, h⟩ := Except.bind_eq_ok_iff.mp h
  obtain ⟨inputWindow, -, h⟩ := Except.bind_eq_ok_iff.mp h
  obtain ⟨indexTensor, hstack, h⟩ := Except.bind_eq_ok_iff.mp h
  cases h
  obtain ⟨-, rfl⟩ := stackPairs_eq_some.mp (orThrow_eq_ok.mp hstack)
  rw [List.mapM_map] at hparts
  rw [List.flatMap_def, List.flatMap_def]
  congr 1
  refine List.map_eq_map_of_mapM hparts fun i part hpart => ?_
  obtain ⟨⟨windowList, indexList, offset⟩, hloop, hpart⟩ := Except.bind_eq_ok_iff.mp hpart
  cases hpart
  -- every slice starts with offset 0
  obtain ⟨-, -, -, -, his⟩ := foldlM_slideStep_eq_ok _ hloop
  rw [his, List.nil_append]

/-- The first range starts at the offset. -/
theorem fst_of_getElem?_ranges {offset : ℕ} {sizes : List ℕ} {pair : ℕ × ℕ}
    (h : (ranges offset sizes)[0]? = some pair) : pair.1 = offset := by
  cases sizes with
  | nil => cases h
  | cons n sizes =>
      cases h
      rfl

/-- A second slice would start with row 0 again, while the rows of the flows before it are not
empty. -/
theorem le_of_index_eq {b d : ℕ} (hb : 1 ≤ b) (hd : d ≤ flowList.length)
    (hcount : ∀ flow ∈ flowList, 5 ≤ flow.count)
    (h : ranges 0 (flowList.map fun flow => flow.count / 5) =
      (List.range (batchCount b d)).flatMap fun i =>
        ranges 0 ((flowList.extract (i * b) (min (i * b + b) d)).map fun flow => flow.count / 5)) :
    d ≤ b := by
  by_contra hlt
  rw [not_le] at hlt
  set sizes := flowList.map fun flow => flow.count / 5 with hsizes
  set part := fun i =>
    ranges 0 ((flowList.extract (i * b) (min (i * b + b) d)).map fun flow => flow.count / 5)
    with hpart
  have hsize : ∀ i (hi : i < flowList.length), sizes[i]? = some (flowList[i].count / 5) := by
    intro i hi
    rw [hsizes, List.getElem?_map, List.getElem?_eq_getElem hi]
    rfl
  have hlength : ∀ i, i * b < d → (part i).length = min b (d - i * b) := by
    intro i hi
    rw [hpart]
    simp only [length_ranges, List.length_map, List.extract_eq_take_drop, List.length_take,
      List.length_drop]
    omega
  have hslice : ∀ i, i * b < d → (List.range (batchCount b d))[i]? = some i := fun i hi =>
    List.getElem?_range ((lt_batchCount_iff hb).mpr hi)
  -- the pair of flow `b` is the first one of slice 1
  have hstart : ((List.range (batchCount b d)).map fun i => (part i).length).blockStart 1 = b := by
    have hzero : ((List.range (batchCount b d)).map fun i => (part i).length)[0]? = some b := by
      rw [List.getElem?_map, hslice 0 (by omega), Option.map_some, hlength 0 (by omega)]
      congr 1
      omega
    rw [List.blockStart_succ hzero, List.blockStart_zero, Nat.zero_add]
  have hpair := List.getElem?_flatMap_block (f := part) (hslice 1 (by omega)) (j := 0) (by
    rw [hlength 1 (by omega)]
    omega)
  rw [hstart, Nat.add_zero, ← h, getElem?_ranges (hsize b (by omega))] at hpair
  have hrow := fst_of_getElem?_ranges hpair.symm
  have hfirst := hcount flowList[0] (List.getElem_mem (by omega))
  have hmono := sizes.blockStart_mono hb
  rw [List.blockStart_succ (hsize 0 (by omega)), List.blockStart_zero] at hmono
  omega

/-- The slices of all CPUs together have at most the flows and the remainder of the division. -/
theorem mul_le_of_asyncBatchSize {batchSize : ℤ} (hcpus : 0 < castToInt numCpus.toNat)
    (hsize : asyncBatchSize numCpus flowList.length = some batchSize) :
    batchSize * castToInt numCpus.toNat ≤ flowList.length + castToInt numCpus.toNat - 1 := by
  unfold asyncBatchSize at hsize
  rw [if_neg hcpus.ne'] at hsize
  rw [eq_of_checkedInt hsize]
  set sum := ((flowList.length + castToInt numCpus.toNat - 1) % 18446744073709551616).toNat
    with hsum
  have hle : castToInt sum ≤ flowList.length + castToInt numCpus.toNat - 1 := by
    have hcast := (castToInt_bounds sum).2.2
    omega
  have hdiv := Int.tdiv_mul_le (castToInt sum) hcpus.ne'
  split at hdiv <;> omega

/-- A number of CPUs that is not negative as an `int`. -/
theorem castToInt_numCpus (hcpus : 1 ≤ numCpus.toNat) (h : 0 ≤ castToInt numCpus.toNat) :
    castToInt numCpus.toNat = numCpus.toNat ∧ numCpus.toNat < 2147483648 := by
  have hlt := numCpus.toNat_lt
  have hbound : numCpus.toNat < 2147483648 := by
    by_contra hge
    have hcast : castToInt numCpus.toNat = (numCpus.toNat : ℤ) - 4294967296 := by
      unfold castToInt
      simp only
      split <;> omega
    omega
  exact ⟨castToInt_eq_iff.mpr hbound, hbound⟩

/-- If the pairs are those of `BuildSlideWindow`, the first slice has all flows. -/
theorem length_le_of_index_eq {dataSize batchSize : ℤ} (hne : flowList ≠ [])
    (hcount : ∀ flow ∈ flowList, 5 ≤ flow.count) (hdata : dataSize ≤ flowList.length)
    (hprogress : ¬(0 < dataSize ∧ batchSize ≤ 0))
    (h : ranges 0 (flowList.map fun flow => flow.count / 5) =
      (List.range (asyncCount dataSize batchSize)).flatMap fun i =>
        ranges 0 ((flowList.extract (i * batchSize.toNat)
          (min (i * batchSize.toNat + batchSize.toNat) dataSize.toNat)).map
            fun flow => flow.count / 5)) :
    dataSize = flowList.length ∧ (flowList.length : ℤ) ≤ batchSize := by
  have hpos : 0 < flowList.length := List.length_pos_iff.mpr hne
  have hlength := congrArg List.length h
  rw [length_ranges, List.length_map] at hlength
  rcases le_or_gt dataSize 0 with hnone | hsome
  · -- no slice is started
    have hzero : asyncCount dataSize batchSize = 0 := by
      rw [asyncCount, batchCount, Int.toNat_of_nonpos hnone, Nat.div_eq_zero_iff]
      omega
    rw [hzero, List.range_zero, List.flatMap_nil, List.length_nil] at hlength
    omega
  · have hbatch : 0 < batchSize := by
      by_contra hbatch
      exact hprogress ⟨hsome, not_lt.mp hbatch⟩
    have hle := le_of_index_eq (b := batchSize.toNat) (d := dataSize.toNat) (by omega) (by omega)
      hcount h
    have hone : asyncCount dataSize batchSize = 1 := by
      rw [asyncCount, batchCount]
      exact Nat.div_eq_of_lt_le (by omega) (by omega)
    rw [hone, List.range_one, List.flatMap_singleton, length_ranges, List.length_map, Nat.zero_mul,
      Nat.zero_add, List.extract_eq_take_drop, List.length_take] at hlength
    omega

/-- A slice that has all flows is the only one of one CPU, or has one flow. -/
theorem oneSlice_of_eq (hne : flowList ≠ []) (hcount : ∀ flow ∈ flowList, 5 ≤ flow.count)
    (hcpus : 1 ≤ numCpus.toNat) (horder : AllFinish numCpus order flowList)
    {result : Tensor α × List (ℕ × ℕ)} (hok : buildSlideWindow ops flowList 5 = .ok result)
    (h : buildSlideWindowConcurrently ops numCpus order flowList 5 = some (.ok result)) :
    OneSlice numCpus flowList := by
  obtain ⟨data, index⟩ := result
  have hpos : 0 < flowList.length := List.length_pos_iff.mpr hne
  obtain ⟨-, -, -, -, hindex, -⟩ := exists_inputWindow hok
  -- it has returned pairs, so nothing has been thrown and the loop has come to its end
  have hcall := h
  unfold buildSlideWindowConcurrently at hcall
  obtain ⟨batchSize, hsize, hcall⟩ := Option.bind_eq_some_iff.mp hcall
  split at hcall
  · cases hcall
  split at hcall
  · cases hcall
  case isFalse hcast hprogress =>
    rw [not_lt] at hcast
    rw [buildSlideWindowConcurrently_eq horder hsize hcast hprogress, Option.some.injEq] at h
    have hparts := index_of_combineSlices h
    rw [hindex] at hparts
    obtain ⟨hall, hle⟩ := length_le_of_index_eq hne hcount (castToInt_bounds _).2.2 hprogress hparts
    have hlen := castToInt_eq_iff.mp hall
    obtain ⟨hcpus', hbound⟩ := castToInt_numCpus hcpus hcast
    have hmul := mul_le_of_asyncBatchSize (by omega) hsize
    rw [hcpus'] at hmul
    -- `length * numCpus ≤ length + numCpus - 1` leaves 1 for one of the two
    have hprod : ((flowList.length : ℤ) - 1) * ((numCpus.toNat : ℤ) - 1) ≤ 0 := by
      have hmono := mul_le_mul_of_nonneg_right hle (Int.natCast_nonneg numCpus.toNat)
      have hexpand : ((flowList.length : ℤ) - 1) * ((numCpus.toNat : ℤ) - 1) =
          flowList.length * numCpus.toNat - (flowList.length + numCpus.toNat - 1) := by ring
      omega
    by_cases hone : numCpus.toNat = 1
    · exact Or.inl ⟨hone, hlen⟩
    · refine Or.inr ⟨?_, hbound⟩
      by_contra htwo
      have := Int.mul_pos (show 0 < (flowList.length : ℤ) - 1 by omega)
        (show 0 < (numCpus.toNat : ℤ) - 1 by omega)
      omega

/-- One slice of all flows. -/
theorem asyncBatchSize_of_oneSlice (hne : flowList ≠ []) (hcpus : 1 ≤ numCpus.toNat)
    (h : OneSlice numCpus flowList) :
    asyncBatchSize numCpus flowList.length = some (flowList.length : ℤ) ∧
      castToInt flowList.length = flowList.length ∧ 0 < castToInt numCpus.toNat := by
  have hpos : 0 < flowList.length := List.length_pos_iff.mpr hne
  unfold asyncBatchSize
  -- with one CPU the quotient is the number of flows, with one flow it is 1
  rcases h with ⟨hone, hlen⟩ | ⟨hone, hbound⟩
  · have hcast : castToInt flowList.length = flowList.length := castToInt_eq_iff.mpr hlen
    have hcpu : castToInt 1 = 1 := rfl
    have hsum : (((flowList.length : ℤ) + 1 - 1) % 18446744073709551616).toNat =
        flowList.length := by omega
    rw [hone, hcpu, if_neg one_ne_zero, hsum, hcast, Int.tdiv_one]
    exact ⟨checkedInt_of_lt (by omega) (by omega), rfl, one_pos⟩
  · have hcast : castToInt numCpus.toNat = numCpus.toNat := castToInt_eq_iff.mpr hbound
    have hsum : ((((1 : ℕ) : ℤ) + numCpus.toNat - 1) % 18446744073709551616).toNat =
        numCpus.toNat := by omega
    rw [hone, hcast, if_neg (by omega), hsum, hcast, Int.tdiv_self (by omega)]
    exact ⟨checkedInt_of_lt (by omega) (by omega), rfl, by omega⟩

/-- The result of a single slice is what is combined. -/
theorem combineSlices_singleton
    (result : Except EncodeFault (List (Tensor α) × List (ℕ × ℕ))) :
    combineSlices ops [result] = (do
      let (windowList, indexList) ← result
      let inputWindow ← orThrow (Tensor.concat windowList)
      let indexTensor ← orThrow (stackPairs indexList)
      return (zScoreNorm ops inputWindow, indexTensor)) := by
  cases result with
  | error e => rfl
  | ok part =>
      have hwindows : [part].flatMap Prod.fst = part.1 := List.flatMap_singleton Prod.fst part
      have hpairs : [part].flatMap Prod.snd = part.2 := List.flatMap_singleton Prod.snd part
      show (do
        let inputWindow ← orThrow (Tensor.concat ([part].flatMap Prod.fst))
        let indexTensor ← orThrow (stackPairs ([part].flatMap Prod.snd))
        return (zScoreNorm ops inputWindow, indexTensor)) = _
      rw [hwindows, hpairs]
      rfl

/-- One slice does what `BuildSlideWindow` does. -/
theorem eq_of_oneSlice (hne : flowList ≠ []) (hcpus : 1 ≤ numCpus.toNat)
    (horder : AllFinish numCpus order flowList) (h : OneSlice numCpus flowList) :
    buildSlideWindowConcurrently ops numCpus order flowList 5 =
      some (buildSlideWindow ops flowList 5) := by
  have hpos : 0 < flowList.length := List.length_pos_iff.mpr hne
  obtain ⟨hsize, hdata, hcast⟩ := asyncBatchSize_of_oneSlice hne hcpus h
  have hone : asyncCount flowList.length flowList.length = 1 := by
    rw [asyncCount, batchCount, Int.toNat_natCast]
    exact Nat.div_eq_of_lt_le (by omega) (by omega)
  have hslice : asyncSlice ops flowList 5 flowList.length flowList.length 0 = do
      let (windowList, indexList, _) ← flowList.foldlM (slideStep ops 5) ([], [], 0)
      return (windowList, indexList) := by
    rw [asyncSlice, Int.toNat_natCast]
    simp only [Nat.zero_mul, Nat.zero_add, Nat.min_self, List.extract_eq_take_drop, Nat.sub_zero,
      List.drop_zero, List.take_length]
  rw [buildSlideWindowConcurrently_eq horder hsize hcast.le (by omega), hdata, hone,
    List.range_one, List.map_singleton, hslice, combineSlices_singleton, buildSlideWindow]
  cases flowList.foldlM (slideStep ops 5) ([], [], 0) with
  | error e => rfl
  | ok acc => rfl

end Slices

/-- `BuildSlideWindowConcurrently` does what `BuildSlideWindow` does when one slice has all flows,
and only then does it return the same windows and the same pairs. -/
theorem buildSlideWindowConcurrently_eq_iff {ops : TorchOps α} {numCpus : UInt32}
    {order : List ℕ} {flowList : List HdFlow} (hne : flowList ≠ [])
    (hcount : ∀ flow ∈ flowList, 5 ≤ flow.count) (hcpus : 1 ≤ numCpus.toNat)
    (horder : AllFinish numCpus order flowList) :
    (OneSlice numCpus flowList →
        buildSlideWindowConcurrently ops numCpus order flowList 5 =
          some (buildSlideWindow ops flowList 5)) ∧
      ∀ result, buildSlideWindow ops flowList 5 = .ok result →
        (buildSlideWindowConcurrently ops numCpus order flowList 5 = some (.ok result) ↔
          OneSlice numCpus flowList) := by
  have hone : OneSlice numCpus flowList →
      buildSlideWindowConcurrently ops numCpus order flowList 5 =
        some (buildSlideWindow ops flowList 5) := eq_of_oneSlice hne hcpus horder
  refine ⟨hone, fun result hok => ?_⟩
  constructor
  · exact oneSlice_of_eq hne hcount hcpus horder hok
  · intro h
    rw [hone h, hok]

/-- Two flows and one CPU. -/
theorem buildSlideWindowConcurrently_eq_oneCpu :
    buildSlideWindowConcurrently natOps 1 [0] [fivePackets, fivePackets] 5 =
      some (buildSlideWindow natOps [fivePackets, fivePackets] 5) := by
  have horder : AllFinish 1 [0] [fivePackets, fivePackets] := by
    intro batchSize h
    have hsize : asyncBatchSize 1 [fivePackets, fivePackets].length = some 2 := by decide +kernel
    obtain rfl : 2 = batchSize := Option.some.inj (hsize.symm.trans h)
    exact List.Perm.refl _
  exact (buildSlideWindowConcurrently_eq_iff (List.cons_ne_nil _ _) (by decide) (by decide)
    horder).1 (Or.inl ⟨rfl, by decide⟩)

/-- With two CPUs the pair of the second of two flows is that of the first. -/
theorem buildSlideWindowConcurrently_ne : AllFinish 2 [0, 1] [fivePackets, fivePackets] ∧
    ∃ data data',
      buildSlideWindow natOps [fivePackets, fivePackets] 5 = .ok (data, [(0, 1), (1, 2)]) ∧
      buildSlideWindowConcurrently natOps 2 [0, 1] [fivePackets, fivePackets] 5 =
        some (.ok (data', [(0, 1), (0, 1)])) := by
  have horder : AllFinish 2 [0, 1] [fivePackets, fivePackets] := by
    intro batchSize h
    have hsize : asyncBatchSize 2 [fivePackets, fivePackets].length = some 1 := by decide +kernel
    obtain rfl : 1 = batchSize := Option.some.inj (hsize.symm.trans h)
    exact List.Perm.refl _
  have hpairs : (buildSlideWindowConcurrently natOps 2 [0, 1] [fivePackets, fivePackets] 5).map
      (fun result => result.toOption.map Prod.snd) = some (some [(0, 1), (0, 1)]) := by
    decide +kernel
  obtain ⟨⟨data, index⟩, hok⟩ :=
    exists_buildSlideWindow (List.cons_ne_nil fivePackets [fivePackets])
      (by simp [fivePackets, nDigits])
  obtain ⟨-, -, -, -, hindex, -⟩ := exists_inputWindow hok
  obtain ⟨result, hresult, hpair⟩ := Option.map_eq_some_iff.mp hpairs
  obtain ⟨⟨data', index'⟩, hdata, rfl⟩ := Option.map_eq_some_iff.mp hpair
  refine ⟨horder, data, data', ?_, ?_⟩
  · rw [hok, hindex]
    rfl
  · rw [hresult]
    cases result with
    | error e => cases hdata
    | ok pair =>
        cases hdata
        rfl

end Hound
