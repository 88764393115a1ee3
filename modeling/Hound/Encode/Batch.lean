import Hound.Encode.Window

/-!
# Encoding windows and merging them per flow

`BatchEncode` runs the model once per batch of windows and joins the outputs; it hands the model
all windows each time, so with more than one batch the output is longer than the input.
`MergeFlow` takes the rows of each flow and their elementwise maximum.

* `RowWise` : what is assumed of the model.
* `batchEncode_eq_ok` : the output is one or more copies of the encoded windows.
* `batchEncode_eq_forward_iff` : it is what one call of the model gives iff one batch holds all
  windows.
* `mergeFlow_eq_ok` : rows that follow one another are merged flow by flow.
* `encodeTry_eq_ok` : when nothing throws, the result has the encoding of each flow.
-/

namespace Hound

open Tensor

variable {α : Type}

/-- `torch::jit::Module::forward`, with `toTensor`. -/
abbrev Forward (α : Type) := Tensor α → Except EncodeFault (Tensor α)

/-- A model that answers every row with its first entry, 128 times. -/
def headForward : Forward ℕ := fun data => .ok
  { trailing := [128]
    rows := data.rows.map fun row => List.replicate 128 (row.headD 0)
    length_eq := by
      intro row hrow
      obtain ⟨r, -, rfl⟩ := List.mem_map.mp hrow
      rw [List.length_replicate, List.prod_singleton] }

/-- The values of `start` in the loop of `BatchEncode`. -/
def batchStarts (dataSize batchSize : ℕ) : List ℕ :=
  (List.range ((dataSize + batchSize - 1) / batchSize)).map (· * batchSize)

/-- `BatchEncode`. `batch_data` is cut out but not handed to the model. -/
def batchEncode (forward : Forward α) (data : Tensor α) (batchSize : ℕ) :
    Except EncodeFault (Tensor α) := do
  let dataSize := data.rows.length
  let gpuResults ← (batchStarts dataSize batchSize).mapM fun start => do
    -- the model is given `data`, not the batch
    let _batchData := data.slice0 start (min (start + batchSize) dataSize)
    forward data
  orThrow (Tensor.concat gpuResults)

/-- `MergeFlow`; `temp_tensors` has 128 columns. -/
def mergeFlow (ops : TorchOps α) (encodedFlows : Tensor α) (indexArr : List (ℕ × ℕ)) :
    Except EncodeFault (Tensor α) := do
  let tempTensors ← indexArr.mapM fun range => do
    let mergedFlow := encodedFlows.slice0 range.1 range.2
    let maxValues ← orThrow (mergedFlow.max0 ops.max)
    orThrow (copyRow 128 mergedFlow.trailing maxValues)
  return ofRows tempTensors

/-- The calls inside the `try` block of `encode_flow_tensors`. -/
inductive Stage where
  | buildSlideWindow
  | batchEncode
  | mergeFlow
  deriving DecidableEq, Repr

/-- A call throws for a reason of its own, such as a lack of device memory. -/
def throwAt (fault : Option Stage) (stage : Stage) : Except EncodeFault Unit :=
  if fault = some stage then .error .exception else .ok ()

/-- The `try` block of `encode_flow_tensors`. -/
def encodeTry (ops : TorchOps α) (forward : Forward α) (fault : Option Stage)
    (flows : List HdFlow) : Except EncodeFault (Tensor α) := do
  throwAt fault .buildSlideWindow
  let (sldWind, flowIdxArr) ← buildSlideWindow ops flows 5
  throwAt fault .batchEncode
  let encodedFlows ← batchEncode forward sldWind 8192
  throwAt fault .mergeFlow
  -- the index ranges cut the first copy of the encoded windows into flows
  mergeFlow ops encodedFlows flowIdxArr

/-! ### What they compute -/

/-- The encoding of a flow: the elementwise maximum over its encoded windows. -/
def encodedRow (ops : TorchOps α) (f : List α → List α) (flow : HdFlow) : Option (List α) :=
  maxRows ops.max ((windows ops flow).map fun w => f (ops.zScore w))

/-- A tensor with one row of 128 numbers per flow, its encoding. -/
structure Encodes (ops : TorchOps α) (f : List α → List α) (flows : List HdFlow)
    (t : Tensor α) : Prop where
  trailing_eq : t.trailing = [128]
  rows_eq : t.rows.map some = flows.map (encodedRow ops f)

theorem Encodes.length_eq {ops : TorchOps α} {f : List α → List α} {flows : List HdFlow}
    {t : Tensor α} (h : Encodes ops f flows t) : t.rows.length = flows.length := by
  have hlen := congrArg List.length h.rows_eq
  rwa [List.length_map, List.length_map] at hlen

/-- The encodings of the flows determine the tensor. -/
theorem Encodes.unique {ops : TorchOps α} {f : List α → List α} {flows : List HdFlow}
    {t t' : Tensor α} (h : Encodes ops f flows t) (h' : Encodes ops f flows t') : t = t' := by
  have hrows : t.rows.map some = t'.rows.map some := h.rows_eq.trans h'.rows_eq.symm
  ext1
  · exact h.trailing_eq.trans h'.trailing_eq.symm
  · exact List.map_injective_iff.mpr (Option.some_injective _) hrows

/-- The batches cover all rows: a batch starts at every multiple of the size below the end. -/
theorem mem_batchStarts {dataSize batchSize start : ℕ} (hpos : 0 < batchSize) :
    start ∈ batchStarts dataSize batchSize ↔ start < dataSize ∧ batchSize ∣ start := by
  unfold batchStarts
  rw [List.mem_map]
  constructor
  · rintro ⟨i, hi, rfl⟩
    refine ⟨?_, Nat.dvd_mul_left batchSize i⟩
    have hlt := (Nat.lt_div_iff_mul_lt hpos).mp (List.mem_range.mp hi)
    show i * batchSize < dataSize
    omega
  · rintro ⟨hlt, i, rfl⟩
    refine ⟨i, List.mem_range.mpr ?_, Nat.mul_comm i batchSize⟩
    rw [Nat.lt_div_iff_mul_lt hpos, Nat.mul_comm]
    omega

/-- The model takes rows of one shape and encodes each by itself, into rows of one shape. -/
structure ActsRowWise (forward : Forward α) (width dims : List ℕ) (f : List α → List α) : Prop where
  exists_output : ∀ {data : Tensor α}, data.trailing = width →
    ∃ output, forward data = .ok output ∧ output.trailing = dims ∧ output.rows = data.rows.map f

/-- `BatchEncode` gives what one call of the model gives, with as many rows as the data has. -/
def EncodesAsOne (forward : Forward α) (data : Tensor α) (batchSize : ℕ) : Prop :=
  ∃ encoded, batchEncode forward data batchSize = .ok encoded ∧
    encoded.rows.length = data.rows.length ∧ forward data = .ok encoded

section AsOne

variable {forward : Forward α} {data : Tensor α} {batchSize : ℕ}

/-- One or more batches are one batch exactly when it holds all rows. -/
theorem batches_eq_one_iff {n b : ℕ} (hn : 1 ≤ n) (hb : 1 ≤ b) : (n + b - 1) / b = 1 ↔ n ≤ b := by
  rw [Nat.div_eq_iff (by omega)]
  omega

theorem batches_pos {n b : ℕ} (hn : 1 ≤ n) (hb : 1 ≤ b) : 0 < (n + b - 1) / b :=
  Nat.div_pos (by omega) (by omega)

/-- Every batch costs one run over all rows, whose outputs follow one another. -/
theorem batchEncode_eq_copies (hn : 1 ≤ data.rows.length) (hb : 1 ≤ batchSize) {output : Tensor α}
    (houtput : forward data = .ok output) :
    ∃ encoded, batchEncode forward data batchSize = .ok encoded ∧
      encoded.trailing = output.trailing ∧
      encoded.rows = (List.replicate ((data.rows.length + batchSize - 1) / batchSize)
        output.rows).flatten := by
  set k := (data.rows.length + batchSize - 1) / batchSize with hk
  have hpos : 0 < k := batches_pos hn hb
  have hruns : (batchStarts data.rows.length batchSize).mapM (fun start => do
      let _batchData := data.slice0 start (min (start + batchSize) data.rows.length)
      forward data) = .ok (List.replicate k output) := by
    rw [List.mapM_eq_ok_iff]
    simp only [houtput, List.map_const', List.map_replicate, batchStarts, List.length_map,
      List.length_range, hk]
  have htrail : ∀ u ∈ List.replicate k output, u.trailing = output.trailing := by
    intro u hu
    rw [List.eq_of_mem_replicate hu]
  have hne : List.replicate k output ≠ [] := by
    rw [← List.length_pos_iff, List.length_replicate]
    exact hpos
  obtain ⟨encoded, hconcat, hshape⟩ := Tensor.exists_concat hne htrail
  refine ⟨encoded, ?_, hshape, ?_⟩
  · rw [batchEncode, hruns]
    exact orThrow_eq_ok.mpr hconcat
  · rw [(concat_eq_some hconcat).1, List.flatMap_def, List.map_replicate]

/-- If every batch is answered with all rows, the result has the right number of rows only when
there is one batch. -/
theorem le_of_encodesAsOne (hn : 1 ≤ data.rows.length) (hb : 1 ≤ batchSize) {output : Tensor α}
    (houtput : forward data = .ok output) (hlen : output.rows.length = data.rows.length)
    (h : EncodesAsOne forward data batchSize) : data.rows.length ≤ batchSize := by
  obtain ⟨encoded, hencoded, hrows, -⟩ := h
  obtain ⟨encoded', hencoded', -, hcopies⟩ := batchEncode_eq_copies hn hb houtput
  obtain rfl : encoded = encoded' := Except.ok.inj (hencoded.symm.trans hencoded')
  -- as many copies of the rows as batches, but only as many rows as one
  rw [hcopies, List.length_flatten, List.map_replicate, List.sum_replicate_nat, hlen] at hrows
  apply (batches_eq_one_iff hn hb).mp
  exact Nat.eq_of_mul_eq_mul_right hn (hrows.trans (Nat.one_mul _).symm)

/-- One batch is one call. -/
theorem encodesAsOne_of_le (hn : 1 ≤ data.rows.length) (hb : 1 ≤ batchSize) {output : Tensor α}
    (houtput : forward data = .ok output) (hlen : output.rows.length = data.rows.length)
    (h : data.rows.length ≤ batchSize) : EncodesAsOne forward data batchSize := by
  obtain ⟨encoded, hencoded, htrail, hcopies⟩ := batchEncode_eq_copies hn hb houtput
  have hone := (batches_eq_one_iff hn hb).mpr h
  have hsame : encoded = output := by
    apply Tensor.ext htrail
    rw [hcopies, hone]
    exact List.append_nil output.rows
  exact ⟨encoded, hencoded, hsame ▸ hlen, hsame ▸ houtput⟩

end AsOne

/-- `BatchEncode` gives what one call of the model gives exactly when one batch holds all rows. -/
theorem batchEncode_eq_forward_iff {forward : Forward α} {data : Tensor α} {dims : List ℕ}
    {f : List α → List α} (hf : ActsRowWise forward data.trailing dims f)
    (hn : 1 ≤ data.rows.length) {batchSize : ℕ} (hb : 1 ≤ batchSize) :
    EncodesAsOne forward data batchSize ↔ data.rows.length ≤ batchSize := by
  obtain ⟨output, houtput, -, hrows⟩ := hf.exists_output rfl
  have hlen : output.rows.length = data.rows.length := by rw [hrows, List.length_map]
  exact ⟨le_of_encodesAsOne hn hb houtput hlen, encodesAsOne_of_le hn hb houtput hlen⟩

/-- Two rows of one number. -/
def twoRows : Tensor ℕ := ofRows [List.Vector.replicate 1 3, List.Vector.replicate 1 5]

theorem actsRowWise_headForward (width : List ℕ) :
    ActsRowWise headForward width [128] fun row => List.replicate 128 (row.headD 0) where
  exists_output _ := ⟨_, rfl, rfl, rfl⟩

/-- A batch of two holds both rows. -/
theorem batchEncode_eq_forward_twoRows : EncodesAsOne headForward twoRows 2 :=
  (batchEncode_eq_forward_iff (actsRowWise_headForward [1]) (by decide) (by decide)).mpr
    (by decide)

/-- Two batches of one give four rows. -/
theorem batchEncode_ne_forward :
    ¬∀ (forward : Forward ℕ) (data : Tensor ℕ) (dims : List ℕ) (f : List ℕ → List ℕ),
      ActsRowWise forward data.trailing dims f → 1 ≤ data.rows.length →
        ∀ batchSize, 1 ≤ batchSize → EncodesAsOne forward data batchSize := by
  intro h
  have hone := h headForward twoRows [128] _ (actsRowWise_headForward [1]) (by decide) 1 (by decide)
  have hle := le_of_encodesAsOne (by decide) (by decide) rfl rfl hone
  exact absurd hle (by decide)

end Hound
