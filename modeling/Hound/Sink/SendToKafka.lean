import Hound.Capture.Option
import Hound.ToMathlib.CInt
import Hound.ToMathlib.SeparatedText
import Hound.ToMathlib.Tensor

/-!
# Messages to Kafka

`send_all_to_kafka` sends the rows of a tensor with their flow ids, in one message or in several
that threads send concurrently. A message carries the bytes of its rows as its payload and the
ids, each followed by a newline, as its key.

The tensors that get there come from `MergeFlow`, `torch::concat` or `torch::rand` and are
contiguous. The number of messages is computed in `int`, from a size that was narrowed to `int`.

* `Feature.narrow` : a view of some of the rows, on the same storage.
* `pairs_sendOneMsg` : a message can be taken apart again.
* `sendConcurrently_pairs` : what the threads send, up to the narrowed size.
* `delivered_iff` : the messages carry each id with its own row, unless `int` is too small.
-/

namespace Hound

/-! ### Tensors in memory -/

/-- A contiguous tensor: `size0` rows of `rowNumel` elements in a storage that it may share. -/
structure Feature where
  storage : List UInt8
  /-- Where `data_ptr()` points to. -/
  dataPtr : ℕ
  itemsize : ℕ
  /-- `size(0)`. -/
  size0 : ℕ
  rowNumel : ℕ
  inBounds : dataPtr + itemsize * (size0 * rowNumel) ≤ storage.length

namespace Feature

/-- `numel()`. -/
def numel (t : Feature) : ℕ := t.size0 * t.rowNumel

/-- The bytes of a row. -/
def rowBytes (t : Feature) : ℕ := t.itemsize * t.rowNumel

/-- Row `i`. -/
def row (t : Feature) (i : ℕ) : List UInt8 :=
  t.storage.extract (t.dataPtr + i * t.rowBytes) (t.dataPtr + i * t.rowBytes + t.rowBytes)

/-- The rows. -/
def rows (t : Feature) : List (List UInt8) := (List.range t.size0).map t.row

/-- `narrow(0, start, length)`, a view on the same storage. It throws when the rows do not exist. -/
def narrow (t : Feature) (start length : ℤ) : Option Feature :=
  if h : 0 ≤ start ∧ 0 ≤ length ∧ start + length ≤ t.size0 then some
    { storage := t.storage
      dataPtr := t.dataPtr + start.toNat * t.rowBytes
      itemsize := t.itemsize
      size0 := length.toNat
      rowNumel := t.rowNumel
      inBounds := by
        have hle : start.toNat + length.toNat ≤ t.size0 := by omega
        calc t.dataPtr + start.toNat * t.rowBytes + t.itemsize * (length.toNat * t.rowNumel)
            = t.dataPtr + (start.toNat + length.toNat) * t.rowBytes := by
              unfold rowBytes
              ring
          _ ≤ t.dataPtr + t.size0 * t.rowBytes :=
              Nat.add_le_add_left (Nat.mul_le_mul_right _ hle) _
          _ = t.dataPtr + t.itemsize * (t.size0 * t.rowNumel) := by
              unfold rowBytes
              ring
          _ ≤ t.storage.length := t.inBounds }
  else none

end Feature

/-! ### The senders -/

/-- What is handed to `produce`. -/
structure Message where
  payload : List UInt8
  key : String
  deriving Inhabited

/-- `send_one_msg`: `produce` copies `feature_byte_count` bytes from `data_ptr()`. -/
def sendOneMsg (feature : Feature) (ids : List String) : Message where
  payload :=
    let featureByteCount := feature.itemsize * feature.numel
    feature.storage.extract feature.dataPtr (feature.dataPtr + featureByteCount)
  key := ids.foldl (fun id item => id ++ item ++ "\n") ""

/-- `batch_count` of `send_concurrently`. -/
def sendBatchCount (maxSendBatch : Int32) (size : ℕ) : Option ℤ := do
  let dataSize := castToInt size
  let sum ← checkedInt (dataSize + maxSendBatch.toInt)
  let difference ← checkedInt (sum - 1)
  -- a division by zero is undefined
  if maxSendBatch = 0 then none else
    return difference.tdiv maxSendBatch.toInt

/-- The thread of batch `i`. -/
def sendJob (maxSendBatch : Int32) (feature : Feature) (ids : List String) (i : ℕ) :
    Option Message := do
  let dataSize := castToInt ids.length
  let offset ← checkedInt (i * maxSendBatch.toInt)
  let currBatch := min maxSendBatch.toInt (dataSize - offset)
  let feat ← feature.narrow offset currBatch
  return sendOneMsg feat (ids.extract offset.toNat (offset + currBatch).toNat)

/-- `send_concurrently`, with the order in which the threads call `produce`. -/
def sendConcurrently (maxSendBatch : Int32) (feature : Feature) (ids : List String)
    (order : List ℕ) : Option (List Message) := do
  let _ ← sendBatchCount maxSendBatch ids.length
  order.mapM (sendJob maxSendBatch feature ids)

/-- `send_all_to_kafka`. The comparison is one of `size_t`. -/
def sendAllToKafka (maxSendBatch : Int32) (feature : Feature) (ids : List String)
    (order : List ℕ) : Option (List Message) :=
  if ids.length ≤ toSizeT maxSendBatch then some [sendOneMsg feature ids]
  else sendConcurrently maxSendBatch feature ids order

/-- There is one thread for each `i < batch_count`. -/
def Threads (maxSendBatch : Int32) (size : ℕ) (order : List ℕ) : Prop :=
  ∀ batchCount, sendBatchCount maxSendBatch size = some batchCount →
    order.Perm (List.range batchCount.toNat)

/-! ### Taking a message apart -/

/-- The key split on newlines, without the empty piece at the end. -/
def Message.ids (m : Message) : List String :=
  (m.key.toList.splitOn '\n').dropLast.map String.ofList

/-- The first `n` rows of the payload. -/
def Message.rows (m : Message) (rowBytes n : ℕ) : List (List UInt8) :=
  (List.range n).map fun i => m.payload.extract (i * rowBytes) (i * rowBytes + rowBytes)

/-- The ids and the rows that a message carries. -/
def Message.pairs (m : Message) (rowBytes : ℕ) : List (String × List UInt8) :=
  m.ids.zip (m.rows rowBytes m.ids.length)

/-! ### One message -/

/-- A piece of a piece. -/
theorem extract_extract {α : Type} (xs : List α) (a b c d : ℕ) :
    (xs.extract a b).extract c d = xs.extract (a + c) (min (a + d) b) := by
  simp only [List.extract_eq_take_drop, List.drop_take, List.take_take, List.drop_drop]
  congr 1
  omega

/-- A piece of the first `d` elements. -/
theorem extract_take {α : Type} (xs : List α) (a b d : ℕ) :
    (xs.take d).extract a (min b d) = xs.extract a (min b d) := by
  simp only [List.extract_eq_take_drop, List.drop_take, List.take_take]
  congr 1
  omega

/-- The key is the ids, each followed by a newline. -/
theorem key_sendOneMsg (feature : Feature) (ids : List String) :
    (sendOneMsg feature ids).key.toList = (ids.map String.toList).flatMap (· ++ ['\n']) := by
  have hfold : ∀ acc : String, (ids.foldl (fun id item => id ++ item ++ "\n") acc).toList =
      acc.toList ++ (ids.map String.toList).flatMap (· ++ ['\n']) := by
    induction ids with
    | nil => simp
    | cons id ids ih =>
        intro acc
        rw [List.foldl_cons, ih]
        simp [String.toList_append]
  exact hfold ""

/-- The ids can be read off the key. -/
theorem ids_sendOneMsg (feature : Feature) {ids : List String}
    (hids : ∀ id ∈ ids, '\n' ∉ id.toList) : (sendOneMsg feature ids).ids = ids := by
  have hfields : ∀ cs ∈ ids.map String.toList, '\n' ∉ cs := by
    intro cs hcs
    obtain ⟨id, hid, rfl⟩ := List.mem_map.mp hcs
    exact hids id hid
  rw [Message.ids, key_sendOneMsg, SeparatedText.splitOn_flatMap _ hfields, List.dropLast_concat,
    List.map_map]
  simp

namespace Feature

variable {t u : Feature}

@[simp]
theorem length_rows (t : Feature) : t.rows.length = t.size0 := by simp [rows]

theorem byteCount_eq (t : Feature) : t.itemsize * t.numel = t.size0 * t.rowBytes := by
  unfold numel rowBytes
  ring

/-- The bytes that `produce` copies are the rows, one after the other. -/
theorem payload_length (t : Feature) (ids : List String) :
    (sendOneMsg t ids).payload.length = t.size0 * t.rowBytes := by
  have hbound := t.inBounds
  have hcount := t.byteCount_eq
  rw [numel] at hcount
  simp only [sendOneMsg, numel, List.extract_eq_take_drop, List.length_take, List.length_drop]
  omega

theorem rows_sendOneMsg (t : Feature) (ids : List String) :
    (sendOneMsg t ids).rows t.rowBytes t.size0 = t.rows := by
  refine List.map_congr_left fun i hi => ?_
  have hlt : i + 1 ≤ t.size0 := List.mem_range.mp hi
  have hend : i * t.rowBytes + t.rowBytes ≤ t.size0 * t.rowBytes :=
    calc i * t.rowBytes + t.rowBytes = (i + 1) * t.rowBytes := by ring
      _ ≤ t.size0 * t.rowBytes := Nat.mul_le_mul_right _ hlt
  show (t.storage.extract _ _).extract _ _ = _
  rw [extract_extract, byteCount_eq, row]
  congr 1
  omega

/-- A view shows the rows it was asked for. -/
theorem narrow_eq_some {start length : ℕ} (hle : start + length ≤ t.size0) :
    ∃ u, t.narrow start length = some u ∧ u.size0 = length ∧ u.rowBytes = t.rowBytes ∧
      u.rows = t.rows.extract start (start + length) := by
  have hcond : (0 : ℤ) ≤ start ∧ (0 : ℤ) ≤ length ∧ (start : ℤ) + length ≤ t.size0 := by omega
  have hplace : ∀ i, t.dataPtr + (start : ℤ).toNat * t.rowBytes + i * t.rowBytes =
      t.dataPtr + (start + i) * t.rowBytes := by
    intro i
    rw [Int.toNat_natCast]
    ring
  refine ⟨_, dif_pos hcond, Int.toNat_natCast length, rfl, ?_⟩
  refine List.ext_getElem ?_ fun i hi hi' => ?_
  · simp only [length_rows, List.extract_eq_take_drop, List.length_take, List.length_drop]
    omega
  · simp only [rows, List.getElem_map, List.getElem_range, List.extract_eq_take_drop,
      List.getElem_take, List.getElem_drop]
    show t.storage.extract (_ + i * t.rowBytes) (_ + i * t.rowBytes + t.rowBytes) =
      t.storage.extract _ _
    rw [hplace]

end Feature

/-- A message with as many ids as rows carries each id with its row. -/
theorem pairs_sendOneMsg {t : Feature} {ids : List String} (hsize : t.size0 = ids.length)
    (hids : ∀ id ∈ ids, '\n' ∉ id.toList) :
    (sendOneMsg t ids).pairs t.rowBytes = ids.zip t.rows := by
  rw [Message.pairs, ids_sendOneMsg t hids, ← hsize, t.rows_sendOneMsg]

/-! ### One thread -/

section Threads

variable {maxSendBatch : Int32} {t : Feature} {ids : List String}

/-- Message `m` carries the pairs from `a` to `b`. -/
structure Message.Carries (m : Message) (t : Feature) (ids : List String) (a b : ℕ) : Prop where
  pairs_eq : m.pairs t.rowBytes = (ids.zip t.rows).extract a b
  ids_eq : m.ids = ids.extract a b
  payload_eq : m.payload.length = m.ids.length * t.rowBytes

/-- Below the narrowed size every thread finds its ids and rows. -/
theorem sendJob_eq_some (hmax : 1 ≤ maxSendBatch.toInt) (hsize : t.size0 = ids.length)
    (hids : ∀ id ∈ ids, '\n' ∉ id.toList) {d : ℕ} (hd : castToInt ids.length = d)
    (hle : d ≤ ids.length) (hint : d < 2147483648) {i : ℕ}
    (hi : i * maxSendBatch.toInt.toNat < d) :
    ∃ m, sendJob maxSendBatch t ids i = some m ∧
      m.Carries t ids (i * maxSendBatch.toInt.toNat)
        (min (i * maxSendBatch.toInt.toNat + maxSendBatch.toInt.toNat) d) := by
  obtain ⟨b, hb⟩ := Int.eq_ofNat_of_zero_le (show 0 ≤ maxSendBatch.toInt by omega)
  rw [hb, Int.toNat_natCast] at hi ⊢
  set offset := i * b with hoffset
  set currBatch := min b (d - offset) with hcurr
  have hend : offset + currBatch = min (offset + b) d := by omega
  have hwithin : offset + currBatch ≤ t.size0 := by omega
  obtain ⟨u, hnarrow, hsize0, hbytes, hrows⟩ := Feature.narrow_eq_some hwithin
  have hlength : (ids.extract offset (offset + currBatch)).length = currBatch := by
    simp only [List.extract_eq_take_drop, List.length_take, List.length_drop]
    omega
  have hpart : ∀ id ∈ ids.extract offset (offset + currBatch), '\n' ∉ id.toList := by
    intro id hid
    rw [List.extract_eq_take_drop] at hid
    exact hids id (List.mem_of_mem_drop (List.mem_of_mem_take hid))
  refine ⟨sendOneMsg u (ids.extract offset (offset + currBatch)), ?_, ?_, ?_, ?_⟩
  · -- no `int` overflows
    have hmul : (i : ℤ) * (b : ℤ) = (offset : ℤ) := by rw [hoffset, Nat.cast_mul]
    have hmin : min (b : ℤ) ((d : ℤ) - (offset : ℤ)) = (currBatch : ℤ) := by omega
    have hsum : ((offset : ℤ) + (currBatch : ℤ)).toNat = offset + currBatch := by omega
    have hcheck : checkedInt (offset : ℤ) = some (offset : ℤ) :=
      checkedInt_of_lt (by omega) (by omega)
    simp only [sendJob, hd, hb, hmul, hcheck, Option.bind_eq_bind, Option.bind_some, hmin,
      hnarrow, hsum, Int.toNat_natCast, Option.pure_def]
  · rw [← hbytes, pairs_sendOneMsg (by rw [hsize0, hlength]) hpart, hrows, ← hend]
    simp only [List.extract_eq_take_drop, List.zip_eq_zipWith, List.take_zipWith,
      List.drop_zipWith]
  · rw [ids_sendOneMsg u hpart, hend]
  · rw [Feature.payload_length, ids_sendOneMsg u hpart, hlength, hsize0, hbytes]

/-- The computation of `batch_count`, step by step. -/
theorem sendBatchCount_eq (n : ℕ) : sendBatchCount maxSendBatch n =
    (checkedInt (castToInt n + maxSendBatch.toInt)).bind fun sum =>
      (checkedInt (sum - 1)).bind fun difference =>
        if maxSendBatch = 0 then none else some (difference.tdiv maxSendBatch.toInt) := rfl

/-- As long as the sum fits, the number of batches is the quotient, rounded up. -/
theorem sendBatchCount_eq_some (hmax : 1 ≤ maxSendBatch.toInt) {n : ℕ}
    (hfits : castToInt n + maxSendBatch.toInt < 2147483648) :
    sendBatchCount maxSendBatch n =
      some ((castToInt n + maxSendBatch.toInt - 1).tdiv maxSendBatch.toInt) := by
  obtain ⟨hlow, -, -⟩ := castToInt_bounds n
  have hne : maxSendBatch ≠ 0 := by
    rintro rfl
    exact absurd hmax (by decide)
  have hsum := checkedInt_of_lt (by omega) hfits
  have hdifference : checkedInt (castToInt n + maxSendBatch.toInt - 1) =
      some (castToInt n + maxSendBatch.toInt - 1) := checkedInt_of_lt (by omega) (by omega)
  rw [sendBatchCount_eq, hsum, Option.bind_some, hdifference, Option.bind_some, if_neg hne]

/-- If every call returns something, so does the traversal. -/
theorem mapM_eq_some_map {α β : Type} {g : α → Option β} {f : α → β} {xs : List α}
    (h : ∀ x ∈ xs, g x = some (f x)) : xs.mapM g = some (xs.map f) := by
  induction xs with
  | nil => rfl
  | cons x xs ih =>
      rw [List.mapM_cons, h x List.mem_cons_self, ih fun y hy => h y (List.mem_cons_of_mem x hy)]
      rfl

/-- What is known about each message, apart from what it carries. -/
def Message.WellFormed (m : Message) (maxSendBatch : Int32) (t : Feature) : Prop :=
  (m.ids.length : ℤ) ≤ maxSendBatch.toInt ∧ m.payload.length = m.ids.length * t.rowBytes

/-- The threads together send the pairs up to the narrowed size, whatever their order. -/
theorem sendConcurrently_pairs (hmax : 1 ≤ maxSendBatch.toInt) (hsize : t.size0 = ids.length)
    (hids : ∀ id ∈ ids, '\n' ∉ id.toList) {order : List ℕ}
    (horder : Threads maxSendBatch ids.length order)
    (hfits : castToInt ids.length + maxSendBatch.toInt < 2147483648) :
    ∃ msgs, sendConcurrently maxSendBatch t ids order = some msgs ∧
      (msgs.flatMap (·.pairs t.rowBytes)).Perm
        ((ids.zip t.rows).take (castToInt ids.length).toNat) ∧
      ∀ m ∈ msgs, 1 ≤ m.ids.length ∧ m.WellFormed maxSendBatch t := by
  have hcount := sendBatchCount_eq_some hmax hfits
  have hperm := horder _ hcount
  obtain ⟨-, hint, hle⟩ := castToInt_bounds ids.length
  rw [sendConcurrently, hcount, Option.bind_eq_bind, Option.bind_some]
  rcases le_or_gt (castToInt ids.length) 0 with hneg | hpos
  · -- no batch at all
    rw [Int.toNat_of_nonpos (tdiv_nonpos hneg hmax), List.range_zero, List.perm_nil] at hperm
    subst hperm
    rw [Int.toNat_of_nonpos hneg]
    exact ⟨[], rfl, List.Perm.refl _, nofun⟩
  · obtain ⟨d, hd⟩ := Int.eq_ofNat_of_zero_le hpos.le
    obtain ⟨b, hb⟩ := Int.eq_ofNat_of_zero_le (show 0 ≤ maxSendBatch.toInt by omega)
    have hquot : (castToInt ids.length + maxSendBatch.toInt - 1).tdiv maxSendBatch.toInt =
        ((d + b - 1) / b : ℕ) := by
      have hnat : (d : ℤ) + b - 1 = (d + b - 1 : ℕ) := by omega
      rw [hd, hb, hnat, Int.ofNat_tdiv]
    rw [hquot, Int.toNat_natCast] at hperm
    have hjob : ∀ i ∈ order, ∃ m, sendJob maxSendBatch t ids i = some m ∧
        m.Carries t ids (i * b) (min (i * b + b) d) := by
      intro i hi
      have hlt := (lt_batchCount_iff (by omega)).mp (List.mem_range.mp (hperm.mem_iff.mp hi))
      have hspec := sendJob_eq_some hmax hsize hids hd (by omega) (by omega) (i := i)
        (by rwa [hb, Int.toNat_natCast])
      rwa [hb, Int.toNat_natCast] at hspec
    choose! msg hmsg hcarries using hjob
    refine ⟨order.map msg, mapM_eq_some_map hmsg, ?_, fun m hm => ?_⟩
    · -- batch by batch, the pairs up to `d` in pieces of `b`
      set pairs := (ids.zip t.rows).take d with hpairs
      have hlength : pairs.length = d := by
        simp only [hpairs, List.length_take, List.length_zip, Feature.length_rows]
        omega
      have hpiece : ∀ i ∈ order, (msg i).pairs t.rowBytes =
          pairs.extract (i * b) (min (i * b + b) pairs.length) := by
        intro i hi
        rw [(hcarries i hi).pairs_eq, hlength, hpairs, extract_take]
      have hall : ((List.range ((d + b - 1) / b)).flatMap fun i =>
          pairs.extract (i * b) (min (i * b + b) pairs.length)) = pairs := by
        rw [← hlength, List.flatMap_def]
        exact flatten_extract_range (by omega)
      rw [List.flatMap_map, List.flatMap_congr hpiece, hd, Int.toNat_natCast, ← hpairs]
      exact (hperm.flatMap_right _).trans (List.Perm.of_eq hall)
    · obtain ⟨i, hi, rfl⟩ := List.mem_map.mp hm
      have hlt := (lt_batchCount_iff (by omega)).mp (List.mem_range.mp (hperm.mem_iff.mp hi))
      have hlength : (msg i).ids.length = min (i * b + b) d - i * b := by
        rw [(hcarries i hi).ids_eq, List.extract_eq_take_drop, List.length_take, List.length_drop]
        omega
      exact ⟨by omega, by omega, (hcarries i hi).payload_eq⟩

/-- Where the sum overflows, the number of batches is undefined. -/
theorem sendBatchCount_eq_none {n : ℕ}
    (hover : 2147483648 ≤ castToInt n + maxSendBatch.toInt) :
    sendBatchCount maxSendBatch n = none := by
  have hsum : checkedInt (castToInt n + maxSendBatch.toInt) = none := if_neg (by omega)
  rw [sendBatchCount_eq, hsum, Option.bind_none]

/-! ### All messages -/

/-- Every message has as many ids as rows, at least one and at most `max_send_batch`, and the
messages together carry every id once, with its own row. -/
structure Delivered (maxSendBatch : Int32) (t : Feature) (ids : List String)
    (msgs : List Message) : Prop where
  nonempty : 1 ≤ ids.length → ∀ m ∈ msgs, 1 ≤ m.ids.length
  wellFormed : ∀ m ∈ msgs, m.WellFormed maxSendBatch t
  perm : (msgs.flatMap (·.pairs t.rowBytes)).Perm (ids.zip t.rows)

/-- A single message carries everything. -/
theorem delivered_sendOneMsg (hsize : t.size0 = ids.length)
    (hids : ∀ id ∈ ids, '\n' ∉ id.toList) (hle : (ids.length : ℤ) ≤ maxSendBatch.toInt) :
    Delivered maxSendBatch t ids [sendOneMsg t ids] := by
  have hkey := ids_sendOneMsg t hids
  refine ⟨fun hpos m hm => ?_, fun m hm => ?_, ?_⟩
  · rw [List.mem_singleton.mp hm, hkey]
    exact hpos
  · rw [List.mem_singleton.mp hm]
    exact ⟨by rwa [hkey], by rw [hkey, Feature.payload_length, hsize]⟩
  · rw [List.flatMap_singleton, pairs_sendOneMsg hsize hids]

/-- `send_all_to_kafka` delivers the flows if and only if they fit into one message or adding
`max_send_batch` to their number does not overflow. -/
theorem delivered_iff (hmax : 1 ≤ maxSendBatch.toInt) (hsize : t.size0 = ids.length)
    (hids : ∀ id ∈ ids, '\n' ∉ id.toList) {order : List ℕ}
    (horder : Threads maxSendBatch ids.length order) :
    (∃ msgs, sendAllToKafka maxSendBatch t ids order = some msgs ∧
      Delivered maxSendBatch t ids msgs) ↔
      ids.length ≤ maxSendBatch.toInt ∨ ids.length + maxSendBatch.toInt < 2147483648 := by
  have hsizeT := toSizeT_of_nonneg (x := maxSendBatch) (by omega)
  by_cases hone : ids.length ≤ toSizeT maxSendBatch
  · -- one message
    have hle : (ids.length : ℤ) ≤ maxSendBatch.toInt := by omega
    rw [sendAllToKafka, if_pos hone]
    exact iff_of_true ⟨_, rfl, delivered_sendOneMsg hsize hids hle⟩ (.inl hle)
  · rw [sendAllToKafka, if_neg hone]
    by_cases hfits : castToInt ids.length + maxSendBatch.toInt < 2147483648
    · obtain ⟨msgs, hmsgs, hperm, hwell⟩ :=
        sendConcurrently_pairs hmax hsize hids horder hfits
      have hlength : (ids.zip t.rows).length = ids.length := by
        rw [List.length_zip, Feature.length_rows, hsize, Nat.min_self]
      constructor
      · -- as many pairs are sent as the narrowed size says
        rintro ⟨msgs', hmsgs', hdelivered⟩
        obtain rfl : msgs = msgs' := Option.some.inj (hmsgs.symm.trans hmsgs')
        have hcount := (hdelivered.perm.symm.trans hperm).length_eq
        rw [List.length_take, hlength] at hcount
        have hexact : castToInt ids.length = ids.length := by
          obtain ⟨-, -, hle⟩ := castToInt_bounds ids.length
          omega
        exact .inr (hexact ▸ hfits)
      · intro hbound
        have hexact : castToInt ids.length = ids.length := castToInt_eq_iff.mpr (by omega)
        rw [hexact, Int.toNat_natCast, List.take_of_length_le hlength.le] at hperm
        exact ⟨msgs, hmsgs, fun _ m hm => (hwell m hm).1, fun m hm => (hwell m hm).2, hperm⟩
    · -- undefined
      have hover : 2147483648 ≤ castToInt ids.length + maxSendBatch.toInt := by omega
      have hnone := sendBatchCount_eq_none hover
      refine iff_of_false ?_ ?_
      · rintro ⟨msgs, hmsgs, -⟩
        rw [sendConcurrently, hnone] at hmsgs
        nomatch hmsgs
      · obtain ⟨-, -, hle⟩ := castToInt_bounds ids.length
        omega

end Threads

/-- Rows of one byte. -/
def byteRows (storage : List UInt8) : Feature where
  storage := storage
  dataPtr := 0
  itemsize := 1
  size0 := storage.length
  rowNumel := 1
  inBounds := by omega

/-- Three flows in batches of two; the second batch is sent first. -/
theorem delivered_threeFlows :
    ∃ msgs, sendAllToKafka 2 (byteRows [7, 8, 9]) ["a", "b", "c"] [1, 0] = some msgs ∧
      Delivered 2 (byteRows [7, 8, 9]) ["a", "b", "c"] msgs := by
  refine (delivered_iff (by decide) rfl (by decide) ?_).mpr (.inr (by decide))
  intro batchCount hcount
  obtain rfl : 2 = batchCount := Option.some.inj hcount
  decide

/-- `2 ^ 30 + 1` flows with a `max_send_batch` of `2 ^ 30` are not delivered. -/
theorem not_delivered_overflow :
    ¬∀ (maxSendBatch : Int32) (t : Feature) (ids : List String) (order : List ℕ),
      1 ≤ maxSendBatch.toInt → t.size0 = ids.length → (∀ id ∈ ids, '\n' ∉ id.toList) →
        Threads maxSendBatch ids.length order →
          ∃ msgs, sendAllToKafka maxSendBatch t ids order = some msgs ∧
            Delivered maxSendBatch t ids msgs := by
  intro h
  obtain ⟨n, hn⟩ : ∃ n : ℕ, n = 1073741825 := ⟨_, rfl⟩
  have hmax : (1073741824 : Int32).toInt = 1073741824 := by decide
  have hcast : castToInt n = n := castToInt_eq_iff.mpr (by omega)
  have hnone : sendBatchCount 1073741824 n = none := sendBatchCount_eq_none (by omega)
  have hsizeT := toSizeT_of_nonneg (x := 1073741824) (by omega)
  obtain ⟨msgs, hmsgs, -⟩ := h 1073741824 (byteRows (List.replicate n 0))
    (List.replicate n "k") [] (by omega) (by simp [byteRows])
    (fun id hid => by rw [List.eq_of_mem_replicate hid]; decide)
    (fun batchCount hcount => by simp [hnone] at hcount)
  rw [sendAllToKafka, List.length_replicate, if_neg (by omega), sendConcurrently,
    List.length_replicate, hnone] at hmsgs
  nomatch hmsgs

end Hound
