import Mathlib.Algebra.Group.Int.Defs
import Mathlib.Algebra.Group.Nat.Defs
import Mathlib.Data.List.Count
import Mathlib.Tactic.Common

/-!
# The partitioner

librdkafka asks `MyPartitionCB` for the partition of each message. The callback counts its calls
in `last_partition` and takes the count modulo the number of partitions, but then stores the
partition over the count, so the count never gets past the first partition.

* `partitionerCb_of_lt` : a call returns the partition the last one returned.
* `roundRobin_iff` : the calls take turns exactly when there is nothing to take turns over.
-/

namespace Hound

/-- `MyPartitionCB`. -/
structure MyPartitionCB where
  lastPartition : Int32 := 0
  deriving DecidableEq, Repr

/-- `partitioner_cb`, which looks at no parameter but `partition_cnt`. It is undefined for a
count of zero, for a quotient that overflows and for a counter that does. -/
def partitionerCb (cb : MyPartitionCB) (partitionCnt : Int32) : Option (Int32 × MyPartitionCB) :=
  if partitionCnt = 0 ∨ (cb.lastPartition = Int32.minValue ∧ partitionCnt = -1) ∨
      cb.lastPartition = Int32.maxValue then none
  else
    let partition := cb.lastPartition % partitionCnt
    let cb := { cb with lastPartition := cb.lastPartition + 1 }
    -- what `last_partition++` has just written is overwritten
    let cb := { cb with lastPartition := partition }
    some (partition, cb)

/-- The partitions that successive calls with one count return. -/
def partitions (partitionCnt : Int32) : ℕ → MyPartitionCB → Option (List Int32 × MyPartitionCB)
  | 0, cb => some ([], cb)
  | n + 1, cb => do
      let (partition, cb) ← partitionerCb cb partitionCnt
      let (rest, cb) ← partitions partitionCnt n cb
      return (partition :: rest, cb)

/-- Every partition returned is one of the `cnt` partitions. -/
def InRange (cnt : Int32) (ps : List Int32) : Prop :=
  ∀ p ∈ ps, 0 ≤ p.toInt ∧ p.toInt < cnt.toInt

/-- Any `cnt` consecutive calls return each of the `cnt` partitions once. -/
def RoundRobin (cnt : Int32) (ps : List Int32) : Prop :=
  ∀ i, i + cnt.toInt.toNat ≤ ps.length → ∀ p : Int32, 0 ≤ p.toInt → p.toInt < cnt.toInt →
    (ps.extract i (i + cnt.toInt.toNat)).count p = 1

/-! ### The counter stays where it is -/

/-- A counter below the count is its own remainder: the call returns it and leaves it as it
is. -/
theorem partitionerCb_of_lt {cnt last : Int32} (hlow : 0 ≤ last.toInt)
    (hlt : last.toInt < cnt.toInt) : partitionerCb ⟨last⟩ cnt = some (last, ⟨last⟩) := by
  have hle := cnt.toInt_lt
  -- neither the remainder nor the increment is undefined
  have hdefined : ¬(cnt = 0 ∨ (last = Int32.minValue ∧ cnt = -1) ∨ last = Int32.maxValue) := by
    rintro (rfl | ⟨rfl, rfl⟩ | rfl)
    · exact absurd hlt (Int.not_lt.mpr hlow)
    · exact absurd hlow (by decide)
    · have hmax : Int32.maxValue.toInt = 2147483647 := by decide
      omega
  have hmod : last % cnt = last := by
    rw [← Int32.toInt_inj, Int32.toInt_mod, Int.tmod_eq_of_lt hlow hlt]
  rw [partitionerCb, if_neg hdefined]
  simp only [hmod]

/-- So all calls return one partition. -/
theorem partitions_of_lt {cnt last : Int32} (hlow : 0 ≤ last.toInt)
    (hlt : last.toInt < cnt.toInt) (n : ℕ) :
    partitions cnt n ⟨last⟩ = some (List.replicate n last, ⟨last⟩) := by
  induction n with
  | zero => rfl
  | succ n ih =>
      rw [partitions, partitionerCb_of_lt hlow hlt]
      simp only [Option.bind_eq_bind, Option.bind_some, ih]
      rfl

/-- One partition over and over takes turns if it is the only one, or if there have been too few
calls for a turn. -/
theorem roundRobin_replicate_iff {cnt : Int32} (hcnt : 1 ≤ cnt.toInt) (n : ℕ) :
    RoundRobin cnt (List.replicate n 0) ↔ cnt = 1 ∨ (n : ℤ) < cnt.toInt := by
  have hone : Int32.toInt 1 = 1 := by decide
  constructor
  · intro hturns
    by_contra hnot
    rw [not_or, Int.not_lt] at hnot
    have hne : cnt.toInt ≠ 1 := fun h => hnot.1 (Int32.toInt_inj.mp (h.trans hone.symm))
    -- the first turn never comes to partition 1
    have hcount := hturns 0 (by rw [List.length_replicate]; omega) 1 (by omega) (by omega)
    rw [List.extract_eq_take_drop, List.drop_zero, List.take_replicate,
      List.count_replicate] at hcount
    exact absurd hcount (by simp)
  · rintro (rfl | hfew) i hi p hlow hlt
    · -- a turn is one call, and partition 0 the only one
      obtain rfl : p = 0 := Int32.toInt_inj.mp (by rw [Int32.toInt_zero]; omega)
      rw [List.length_replicate, hone] at hi
      rw [hone, List.extract_eq_take_drop, List.drop_replicate, List.take_replicate,
        List.count_replicate_self]
      omega
    · rw [List.length_replicate] at hi
      omega

/-! ### Round robin -/

/-- Any number of calls with one count succeed and return partitions in range. They take turns
exactly when there is one partition, or when there are fewer calls than partitions. -/
theorem roundRobin_iff (cnt : Int32) (hcnt : 1 ≤ cnt.toInt) (n : ℕ) :
    ∃ ps cb, partitions cnt n {} = some (ps, cb) ∧ ps.length = n ∧ InRange cnt ps ∧
      (InRange cnt ps ∧ RoundRobin cnt ps ↔ cnt = 1 ∨ (n : ℤ) < cnt.toInt) := by
  have hzero : Int32.toInt 0 = 0 := Int32.toInt_zero
  have hrange : InRange cnt (List.replicate n 0) := by
    intro p hp
    rw [List.eq_of_mem_replicate hp]
    omega
  refine ⟨_, _, partitions_of_lt (by omega) (by omega) n, List.length_replicate, hrange, ?_⟩
  rw [and_iff_right hrange]
  exact roundRobin_replicate_iff hcnt n

/-- With one partition every call returns it. -/
theorem roundRobin_one :
    ∃ ps cb, partitions 1 3 {} = some (ps, cb) ∧ RoundRobin 1 ps := by
  obtain ⟨ps, cb, hcalls, -, -, hiff⟩ := roundRobin_iff 1 (by decide) 3
  exact ⟨ps, cb, hcalls, (hiff.mpr (Or.inl rfl)).2⟩

/-- Two calls with two partitions both return partition 0. -/
theorem not_roundRobin_two :
    ¬∀ (cnt : Int32) (n : ℕ) (ps : List Int32) (cb : MyPartitionCB), 1 ≤ cnt.toInt →
      partitions cnt n {} = some (ps, cb) → InRange cnt ps ∧ RoundRobin cnt ps := by
  intro h
  have hturns := (h 2 2 [0, 0] {} (by decide) rfl).2
  exact absurd (hturns 0 (by decide) 1 (by decide) (by decide)) (by decide)

end Hound
