import Hound.Capture.ParseOptions
import Mathlib.Algebra.Ring.Int.Defs

/-!
# The snap length

Each `-p` stores its argument in `payload` and adds it to `total_bytes`, so `total_bytes` has the
sum of all arguments, while `payload` has the last one only. When there is none, both keep their
defaults, 20 and 128.

* `payloads` : the arguments of `-p`.
* `foldlM_payloads` : what `ParseOptions` makes of them.
* `snapLength_iff` : when the snap length is that of the final value.
-/

namespace Hound

/-- The argument of an option `-p`. -/
def payloadOf : Char × String → Option Int32
  | ('p', optarg) => (stoi optarg).toOption
  | _ => none

/-- The arguments of all options `-p`, in their order. -/
def payloads (getoptLong : List String → List (Char × String)) (argv : List String) : List Int32 :=
  (getoptLong argv).filterMap payloadOf

/-- The payload and the snap length after options whose payloads are `values`. -/
structure PayloadsAdded (arg opt : ProgramOption) (values : List Int32) : Prop where
  payload_eq : opt.payload = values.getLast?.getD arg.payload
  totalBytes_eq : (opt.totalBytes.toNat : ℤ) =
    (arg.totalBytes.toNat + (values.map Int32.toInt).sum) % 4294967296

/-- An `int32_t` that is added to a `uint32_t`. -/
theorem toNat_add_toUInt32 (x : UInt32) (v : Int32) :
    ((x + v.toUInt32).toNat : ℤ) = (x.toNat + v.toInt) % 4294967296 := by
  have hv : v.toInt = if 2 * v.toUInt32.toNat < 4294967296 then (v.toUInt32.toNat : ℤ)
      else (v.toUInt32.toNat : ℤ) - 4294967296 := BitVec.toInt_eq_toNat_cond v.toBitVec
  rw [UInt32.toNat_add, hv]
  split <;> omega

/-- What one option does to the payload and the snap length. -/
theorem payloadsAdded_parseOption {arg arg' : ProgramOption} {option : Char × String}
    (hstep : parseOption arg option = .ok arg') :
    PayloadsAdded arg arg' (payloadOf option).toList := by
  -- all options but one leave both as they are
  have hother : ∀ {opt : ProgramOption}, opt.payload = arg.payload →
      opt.totalBytes = arg.totalBytes → PayloadsAdded arg opt [] := by
    intro opt hpayload htotal
    refine ⟨hpayload, ?_⟩
    have hlt := arg.totalBytes.toNat_lt
    rw [htotal, List.map_nil, List.sum_nil]
    omega
  unfold parseOption at hstep
  split at hstep
  all_goals first
    -- a flag, an argument that is stored as it is, or the end of the program
    | (cases hstep <;> exact hother rfl rfl)
    -- an argument that `std::stoi` converts
    | (obtain ⟨value, -, hvalue⟩ := Except.bind_eq_ok_iff.mp hstep; cases hvalue;
        exact hother rfl rfl)
    | skip
  · next optarg =>
      obtain ⟨payload, hpayload, hvalue⟩ := Except.bind_eq_ok_iff.mp hstep
      cases hvalue
      have hone : payloadOf ('p', optarg) = some payload := by
        show (stoi optarg).toOption = some payload
        rw [hpayload]
        rfl
      rw [hone]
      refine ⟨rfl, (toNat_add_toUInt32 _ _).trans ?_⟩
      simp
  · simp only at hstep
    split at hstep
    · cases hstep
      exact hother rfl rfl
    · nomatch hstep
  · obtain ⟨j, -, hj⟩ := Except.bind_eq_ok_iff.mp hstep
    split at hj
    · nomatch hj
    · cases hj
      exact hother rfl rfl
  · obtain ⟨stride, -, hstride⟩ := Except.bind_eq_ok_iff.mp hstep
    split at hstride
    · nomatch hstride
    · cases hstride
      exact hother rfl rfl
  · have hne : ∀ optarg, option = ('p', optarg) → False := by assumption
    cases hstep
    unfold payloadOf
    split
    · exact (hne _ rfl).elim
    · exact hother rfl rfl

/-- Payloads that are added one after the other. -/
theorem PayloadsAdded.append {arg mid opt : ProgramOption} {front values : List Int32}
    (hfront : PayloadsAdded arg mid front) (hvalues : PayloadsAdded mid opt values) :
    PayloadsAdded arg opt (front ++ values) := by
  constructor
  · rw [hvalues.payload_eq, hfront.payload_eq, List.getLast?_append]
    cases values.getLast? <;> rfl
  · rw [hvalues.totalBytes_eq, hfront.totalBytes_eq, List.map_append, List.sum_append]
    omega

/-- What the loop does to the payload and the snap length. -/
theorem foldlM_payloads : ∀ (options : List (Char × String)) {arg opt : ProgramOption},
    options.foldlM parseOption arg = .ok opt →
      PayloadsAdded arg opt (options.filterMap payloadOf)
  | [], arg, opt, h => by
      obtain rfl := Except.ok.inj h
      have hlt := arg.totalBytes.toNat_lt
      refine ⟨rfl, ?_⟩
      rw [List.filterMap_nil, List.map_nil, List.sum_nil]
      omega
  | option :: options, arg, opt, h => by
      rw [List.foldlM_cons] at h
      obtain ⟨mid, hmid, hrest⟩ := Except.bind_eq_ok_iff.mp h
      have hadded := (payloadsAdded_parseOption hmid).append (foldlM_payloads options hrest)
      rw [List.filterMap_cons]
      cases hoption : payloadOf option with
      | none =>
          rw [hoption] at hadded
          exact hadded
      | some value =>
          rw [hoption] at hadded
          exact hadded

/-- Options that `ParseOptions` accepts, starting from the defaults, have a payload of at least 0
and 128 bytes more as snap length, if and only if there is a `-p`, the last one has an argument of
at least 0, and the arguments before it add up to 0 modulo `2 ^ 32`. -/
theorem snapLength_iff {getoptLong : List String → List (Char × String)} {argv : List String}
    {opt : ProgramOption} (hparse : parseOptions getoptLong {} argv = .ok opt) :
    0 ≤ opt.payload.toInt ∧ (opt.totalBytes.toNat : ℤ) = 128 + opt.payload.toInt ↔
      ∃ front last, payloads getoptLong argv = front ++ [last] ∧ 0 ≤ last.toInt ∧
        (front.map Int32.toInt).sum % 4294967296 = 0 := by
  have hadded : PayloadsAdded {} opt (payloads getoptLong argv) := by
    unfold parseOptions at hparse
    split at hparse
    · cases hparse
    · exact foldlM_payloads _ hparse
  obtain ⟨hpayload, htotal⟩ := hadded
  have hdefault : ((({} : ProgramOption).totalBytes.toNat : ℕ) : ℤ) = 128 := rfl
  rw [hdefault] at htotal
  rcases List.eq_nil_or_concat (payloads getoptLong argv) with hnil | ⟨front, last, hconcat⟩
  · -- without a `-p` the defaults remain, which do not go together
    rw [hnil] at hpayload htotal
    have hpayload : opt.payload.toInt = 20 := congrArg Int32.toInt hpayload
    rw [List.map_nil, List.sum_nil] at htotal
    constructor
    · rintro ⟨-, heq⟩
      omega
    · rintro ⟨front, last, hfront, -⟩
      exact absurd (hnil.symm.trans hfront) (by simp)
  · rw [List.concat_eq_append] at hconcat
    rw [hconcat, List.getLast?_concat, Option.getD_some] at hpayload
    rw [hconcat, List.map_append, List.sum_append, List.map_singleton, List.sum_singleton] at htotal
    have hlt := last.toInt_lt
    rw [hpayload, htotal]
    constructor
    · rintro ⟨hlast, heq⟩
      exact ⟨front, last, hconcat, hlast, by omega⟩
    · rintro ⟨front', last', hfront', hlast, hsum⟩
      obtain ⟨rfl, rfl⟩ := List.append_singleton_inj.mp (hconcat.symm.trans hfront')
      exact ⟨hlast, by omega⟩

/-- The option is given once. -/
theorem snapLength_once : ∃ opt, parseOptions getoptPairs {} ["hound", "-p", "30"] = .ok opt ∧
    0 ≤ opt.payload.toInt ∧ (opt.totalBytes.toNat : ℤ) = 128 + opt.payload.toInt := by
  have hparse : parseOptions getoptPairs {} ["hound", "-p", "30"] = .ok _ := rfl
  exact ⟨_, hparse, (snapLength_iff hparse).mpr ⟨[], 30, by decide, by decide, rfl⟩⟩

/-- The option is given twice. -/
theorem snapLength_ne : ¬∀ (getoptLong : List String → List (Char × String)) (argv : List String)
    (opt : ProgramOption), parseOptions getoptLong {} argv = .ok opt →
      0 ≤ opt.payload.toInt ∧ (opt.totalBytes.toNat : ℤ) = 128 + opt.payload.toInt := by
  intro h
  have hparse : parseOptions getoptPairs {} ["hound", "-p", "20", "-p", "30"] = .ok _ := rfl
  exact absurd (h getoptPairs _ _ hparse).2 (by decide)

end Hound
