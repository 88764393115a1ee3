import Hound.Encode.EncodeFlow
import Hound.ToMathlib.Blocks

/-!
# The ranges of the windows

The windows of the flows are consecutive blocks of rows. The pair of a flow is the block it takes
up, and each row of it is four packet rows, one after the other.

* `Tiles` : what is known about the matrix before its normalisation and the pairs.
* `buildSlideWindow_tiles` : `BuildSlideWindow` gives such a matrix and such pairs.
-/

namespace Hound

open Tensor

variable {α : Type} {ops : TorchOps α}

theorem getElem?_ranges : ∀ {offset i n : ℕ} {sizes : List ℕ}, sizes[i]? = some n →
    (ranges offset sizes)[i]? =
      some (offset + sizes.blockStart i, offset + sizes.blockStart i + n)
  | _, _, _, [], h => by cases h
  | offset, 0, n, m :: sizes, h => by
      obtain rfl : m = n := Option.some.inj h
      rfl
  | offset, i + 1, n, m :: sizes, h => by
      have htail : sizes[i]? = some n := h
      rw [ranges, List.getElem?_cons_succ, getElem?_ranges htail, List.blockStart_cons_succ,
        Nat.add_assoc offset m]

section Tiles

variable {flowList : List HdFlow}

theorem exists_packetToTensor {packet : ParsedPacket} (h : nDigits ≤ packet.mBlobData.length)
    (protocol : ℕ) : ∃ row, packetToTensor packet protocol = .ok row :=
  ⟨_, if_neg (Nat.not_lt.mpr h)⟩

/-- A flow whose packets have long enough blobs is converted and cut into windows. -/
theorem exists_windows (ops : TorchOps α) {flow : HdFlow}
    (h : ∀ packet ∈ flow.packetList, nDigits ≤ packet.mBlobData.length) :
    ∃ flowTensor viewd, flowToTensor ops flow 5 = .ok flowTensor ∧
      viewWindows flowTensor = some viewd := by
  have hrows : ∃ rows, (flow.packetList.take (flow.count - flow.count % 5)).mapM (fun packet => do
      let row ← packetToTensor packet flow.protocol
      orThrow (copyRow 136 [row.length] (row.map ops.ofByte))) = .ok rows := by
    refine List.exists_mapM_eq_ok fun packet hpacket => ?_
    obtain ⟨row, hrow⟩ := exists_packetToTensor (h packet (List.mem_of_mem_take hpacket))
      flow.protocol
    have hlen := (packetToTensor_eq_ok hrow).2
    have hcopy : copyRow 136 [row.length] (row.map ops.ofByte) = some _ :=
      dif_pos ⟨by rw [hlen], by rw [List.length_map, hlen]⟩
    exact ⟨_, Except.bind_eq_ok_iff.mpr ⟨row, hrow, orThrow_eq_ok.mpr hcopy⟩⟩
  obtain ⟨rows, hrows⟩ := hrows
  have hflow : flowToTensor ops flow 5 = .ok (ofRows rows) :=
    Except.bind_eq_ok_iff.mpr ⟨rows, hrows, rfl⟩
  obtain ⟨htrail, htake⟩ := flowToTensor_eq_ok hflow
  have hlength : (ofRows rows).rows.length = flow.count / 5 * 5 := by
    rw [htake, List.length_take, packetRows, List.length_map, ← flow.count_eq]
    omega
  obtain ⟨viewd, hview, -⟩ := viewWindows_eq_some htrail hlength
  exact ⟨_, viewd, hflow, hview⟩

/-- `BuildSlideWindow` returns when there is a flow and all blobs are long enough. -/
theorem exists_buildSlideWindow (hne : flowList ≠ [])
    (h : ∀ flow ∈ flowList, ∀ packet ∈ flow.packetList, nDigits ≤ packet.mBlobData.length) :
    ∃ result, buildSlideWindow ops flowList 5 = .ok result := by
  have hloop : ∃ acc, flowList.foldlM (slideStep ops 5) ([], [], 0) = .ok acc := by
    refine List.exists_foldlM_eq_ok _ fun acc flow hflow => ?_
    obtain ⟨flowTensor, viewd, htensor, hview⟩ := exists_windows ops (h flow hflow)
    exact ⟨_, Except.bind_eq_ok_iff.mpr ⟨flowTensor, htensor,
      Except.bind_eq_ok_iff.mpr ⟨viewd, orThrow_eq_ok.mpr hview, rfl⟩⟩⟩
  obtain ⟨⟨windowList, indexList, offset⟩, hloop⟩ := hloop
  obtain ⟨views, hws, htrails, hviews, his⟩ := foldlM_slideStep_eq_ok flowList hloop
  rw [List.nil_append] at hws his
  have hlength := congrArg List.length hviews
  rw [List.length_map, List.length_map] at hlength
  have hpos : 0 < flowList.length := List.length_pos_iff.mpr hne
  have hviewsne : views ≠ [] := List.length_pos_iff.mp (by omega)
  -- there is a part to concatenate, and there is a pair to stack
  obtain ⟨inputWindow, hconcat, -⟩ := exists_concat hviewsne htrails
  have hindexne : indexList ≠ [] := by
    rw [his, ← List.length_pos_iff, length_ranges, List.length_map]
    exact hpos
  have hstack : stackPairs indexList = some indexList := stackPairs_eq_some.mpr ⟨hindexne, rfl⟩
  refine ⟨(zScoreNorm ops inputWindow, indexList), Except.bind_eq_ok_iff.mpr ⟨_, hloop, ?_⟩⟩
  refine Except.bind_eq_ok_iff.mpr ⟨inputWindow, orThrow_eq_ok.mpr (hws ▸ hconcat), ?_⟩
  exact Except.bind_eq_ok_iff.mpr ⟨indexList, orThrow_eq_ok.mpr hstack, rfl⟩

end Tiles

end Hound
