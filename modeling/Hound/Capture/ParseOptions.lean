import Hound.Capture.Option
import Hound.ToMathlib.Except
import Mathlib.Data.String.Basic

/-!
# Parsing the options

`ParseOptions` takes what `getopt_long` returns, one option after the other, and stores the
arguments in the options. Some values end the program, `std::stoi` may throw, and everything else
is accepted as it is. `getopt_long` is a parameter: the options it finds in `argv`, in the order
in which it returns them, until it returns `-1`.

* `parseOptions_induction` : what every option keeps, `ParseOptions` keeps.
* `workers_pos` : there is at least one worker.
-/

namespace Hound

/-- `capture_option` with the members that only other parts of the program read. -/
structure ProgramOption extends CaptureOption where
  numPackets : Int32 := -1
  includeTs : Bool := false
  includePktlen : Bool := false
  include5tpl : Bool := false
  verbose : Bool := false
  fillBit : Int32 := 0
  stride : Int32 := 8
  workers : Int32 := 1
  wait1 : Int32 := 3
  wait2 : Int32 := 10
  device : String := ""
  filter : String := ""
  modelPath : String := ""
  duration : Int32 := -1
  separator : String := ","
  format : String := "%ld,"
  poolSize : UInt64 := 4
  numGpus : UInt32 := 4
  brokers : String := ""
  topic : String := ""

/-- What `ParseOptions` does instead of returning. -/
inductive ParseEnd where
  /-- `exit(status)`. -/
  | exit (status : ℕ)
  /-- `std::stoi` throws `std::invalid_argument`. -/
  | invalidArgument
  /-- `std::stoi` throws `std::out_of_range`. -/
  | outOfRange
  /-- `std::sprintf` writes past the end of `format`. -/
  | overflow
  deriving DecidableEq, Repr

/-- `std::isspace` in the "C" locale. -/
def isSpace (c : Char) : Bool := c = ' ' || (9 ≤ c.toNat && c.toNat ≤ 13)

/-- `std::stoi`: white space, a sign, digits; whatever follows is ignored. -/
def stoi (str : String) : Except ParseEnd Int32 :=
  let chars := str.toList.dropWhile isSpace
  let (negative, chars) := match chars with
    | '-' :: rest => (true, rest)
    | '+' :: rest => (false, rest)
    | _ => (false, chars)
  let digits := chars.takeWhile Char.isDigit
  if digits.isEmpty then .error .invalidArgument
  else
    let magnitude : ℤ := digits.foldl (fun n c => 10 * n + (c.toNat - '0'.toNat)) 0
    let value := if negative then -magnitude else magnitude
    if -2147483648 ≤ value ∧ value < 2147483648 then .ok (Int32.ofInt value)
    else .error .outOfRange

/-- The body of the loop of `ParseOptions`: `option` and `optarg`. -/
def parseOption (arg : ProgramOption) : Char × String → Except ParseEnd ProgramOption
  | ('d', optarg) => return { arg with device := optarg }
  | ('D', optarg) => return { arg with duration := ← stoi optarg }
  | ('C', _) => return { arg with includePktlen := true }
  | ('F', optarg) => return { arg with filter := optarg }
  | ('c', optarg) => return { arg with numGpus := (← stoi optarg).toUInt32 }
  | ('f', optarg) => return { arg with fillBit := ← stoi optarg }
  | ('N', optarg) => return { arg with numPackets := ← stoi optarg }
  | ('.', optarg) => return { arg with wait1 := ← stoi optarg }
  | ('/', optarg) => return { arg with wait2 := ← stoi optarg }
  | ('p', optarg) => do
      let payload ← stoi optarg
      return { arg with payload, totalBytes := arg.totalBytes + payload.toUInt32 }
  | ('L', optarg) => return { arg with minPackets := ← stoi optarg }
  | ('R', optarg) => return { arg with maxPackets := ← stoi optarg }
  | ('E', optarg) => return { arg with flowTimeout := ← stoi optarg }
  | ('T', _) => return { arg with includeTs := true }
  | ('V', _) => return { arg with verbose := true }
  | ('m', optarg) =>
      -- `format` has eight bytes, the last of them for the terminating zero
      let format := "%ld" ++ optarg
      if format.utf8ByteSize < 8 then return { arg with separator := optarg, format }
      else .error .overflow
  | ('B', optarg) => return { arg with brokers := optarg }
  | ('b', optarg) => return { arg with poolSize := (← stoi optarg).toInt64.toUInt64 }
  -- the number is thrown away
  | ('x', optarg) => do
      let _ ← stoi optarg
      return arg
  | ('y', optarg) => return { arg with topic := optarg }
  | ('M', optarg) => return { arg with modelPath := optarg }
  | ('I', _) => return { arg with include5tpl := true }
  | ('J', optarg) => do
      let j ← stoi optarg
      if j < 1 then .error (.exit 1) else return { arg with workers := j }
  | ('S', optarg) => do
      let stride ← stoi optarg
      if stride &&& (stride - 1) ≠ 0 ∨ stride = 0 then .error (.exit 1)
      else return { arg with stride }
  | ('?', _) => .error (.exit 1)
  | ('h', _) => .error (.exit 0)
  | _ => return arg

/-- `ParseOptions`, from the options it starts with. -/
def parseOptions (getoptLong : List String → List (Char × String)) (arg : ProgramOption)
    (argv : List String) : Except ParseEnd ProgramOption :=
  if argv.length ≤ 1 then .error (.exit 0) else (getoptLong argv).foldlM parseOption arg

/-- What `getopt_long` returns for short options that are followed by their arguments. -/
def getoptPairs : List String → List (Char × String)
  | name :: optarg :: rest => match name.toList with
      | ['-', option] => (option, optarg) :: getoptPairs rest
      | _ => getoptPairs (optarg :: rest)
  | _ => []

example : (parseOptions getoptPairs {} ["hound", "-L", "-3", "-R", "7"]).map
    (fun arg => (arg.minPackets, arg.maxPackets)) = .ok (-3, 7) := by decide

/-- What holds of the options `ParseOptions` starts with and is kept by every option it accepts
holds of the options it returns with. -/
theorem parseOptions_induction {getoptLong : List String → List (Char × String)}
    {P : ProgramOption → Prop} {arg opt : ProgramOption} {argv : List String}
    (hparse : parseOptions getoptLong arg argv = .ok opt) (harg : P arg)
    (hstep : ∀ arg option arg', P arg → parseOption arg option = .ok arg' → P arg') : P opt := by
  unfold parseOptions at hparse
  split at hparse
  · nomatch hparse
  · -- the induction is on the options to come
    generalize getoptLong argv = options at hparse
    induction options generalizing arg with
    | nil =>
        rw [List.foldlM_nil] at hparse
        cases hparse
        exact harg
    | cons option options ih =>
        rw [List.foldlM_cons] at hparse
        obtain ⟨arg', harg', hrest⟩ := Except.bind_eq_ok_iff.mp hparse
        exact ih (hstep arg option arg' harg harg') hrest

/-- `ParseOptions` accepts no number of workers below one. -/
theorem workers_pos {getoptLong : List String → List (Char × String)} {arg opt : ProgramOption}
    {argv : List String} (harg : 1 ≤ arg.workers)
    (hparse : parseOptions getoptLong arg argv = .ok opt) : 1 ≤ opt.workers := by
  refine parseOptions_induction (P := fun opt => 1 ≤ opt.workers) hparse harg ?_
  intro arg option arg' hpos hstep
  unfold parseOption at hstep
  split at hstep
  all_goals first
    -- a flag, an argument that is stored as it is, or the end of the program
    | (cases hstep <;> exact hpos)
    -- an argument that `std::stoi` converts
    | (obtain ⟨value, -, hvalue⟩ := Except.bind_eq_ok_iff.mp hstep; cases hvalue; exact hpos)
    | skip
  · simp only at hstep
    split at hstep
    · cases hstep
      exact hpos
    · nomatch hstep
  · obtain ⟨j, -, hj⟩ := Except.bind_eq_ok_iff.mp hstep
    split at hj
    · nomatch hj
    · next hlow =>
        cases hj
        exact Int32.not_lt.mp hlow
  · obtain ⟨stride, -, hstride⟩ := Except.bind_eq_ok_iff.mp hstep
    split at hstride
    · nomatch hstride
    · cases hstride
      exact hpos

end Hound
