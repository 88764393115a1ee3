import Mathlib.Algebra.Group.Int.Defs
import Mathlib.Algebra.Group.Nat.Defs
import Mathlib.Data.Int.Basic

/-!
# Capture options

`capture_option`, the options the program runs under, with the defaults of its member
initialisers. `int32_t` members are `Int32` and `uint32_t` members `UInt32`, so the range of
each is part of its type.
-/

namespace Hound

/-- `capture_option`: what `ParseOptions` fills in and the pipeline reads. -/
structure CaptureOption where
  /-- Bytes of payload kept of each packet (`-p`). -/
  payload : Int32 := 20
  /-- Snap length handed to libpcap. -/
  totalBytes : UInt32 := 128
  /-- Seconds after which an idle flow that is too short is dropped (`-E`). -/
  flowTimeout : Int32 := 20
  /-- Packets a flow needs before it is encoded (`-L`). -/
  minPackets : Int32 := 10
  /-- Packets a flow may have at most (`-R`). -/
  maxPackets : Int32 := 100
  /-- Hardware threads, as `main` asks for them. -/
  numCpus : UInt32 := 16

/-- The conversion of an `int32_t` to `size_t` that a comparison with a container's size
makes: negative values become huge. -/
def toSizeT (x : Int32) : ℕ := (x.toInt % 2 ^ 64).toNat

/-- A nonnegative `int32_t` keeps its value as a `size_t`. -/
theorem toSizeT_of_nonneg {x : Int32} (h : 0 ≤ x.toInt) : (toSizeT x : ℤ) = x.toInt := by
  have hlt := x.toInt_lt
  unfold toSizeT
  omega

/-- A negative one becomes huge. -/
theorem toSizeT_of_neg {x : Int32} (h : x.toInt < 0) :
    (toSizeT x : ℤ) = x.toInt + 18446744073709551616 := by
  have hle := x.le_toInt
  unfold toSizeT
  omega

end Hound
