import Mathlib.Data.List.Basic

/-!
# A memory that blocks are copied into

A memory maps addresses to values. Storing a block overwrites the addresses it covers.

* `BlockMemory.foldl_store_apply` : after any number of stores an address holds what the last
  block covering it put there.
* `BlockMemory.read_foldl_store_iff` : reading a stored block back gives its content exactly
  when no later block last put something else there.
-/

namespace BlockMemory

variable {β : Type*}

/-- Consecutive values and the address of the first. -/
structure Block (β : Type*) where
  addr : ℕ
  bytes : List β

/-- What a block puts at an address, if it covers it. -/
def Block.at? (b : Block β) (a : ℕ) : Option β :=
  if b.addr ≤ a then b.bytes[a - b.addr]? else none

/-- Copy a block into the memory. -/
def store (mem : ℕ → β) (b : Block β) : ℕ → β := fun a => (b.at? a).getD (mem a)

/-- The `n` values from an address on. -/
def read (mem : ℕ → β) (addr n : ℕ) : List β := (List.range n).map fun i => mem (addr + i)

/-- What the last of the blocks that cover an address puts there. -/
def lastStored : List (Block β) → ℕ → Option β
  | [], _ => none
  | b :: bs, a => (lastStored bs a).or (b.at? a)

/-- After the blocks `later`, the first `n` values of `b` are still those of `b`: wherever a
later block covers one of them, the last such block put the same value there. -/
def Keeps (b : Block β) (n : ℕ) (later : List (Block β)) : Prop :=
  ∀ i < n, ∀ x, lastStored later (b.addr + i) = some x → b.bytes[i]? = some x

theorem Block.at?_add (b : Block β) (i : ℕ) : b.at? (b.addr + i) = b.bytes[i]? := by
  rw [Block.at?, if_pos (Nat.le_add_right _ _), Nat.add_sub_cancel_left]

/-- Stores in sequence leave the last block's value at each address. -/
theorem foldl_store_apply (mem : ℕ → β) (bs : List (Block β)) (a : ℕ) :
    bs.foldl store mem a = (lastStored bs a).getD (mem a) := by
  induction bs generalizing mem with
  | nil => rfl
  | cons b bs ih =>
      rw [List.foldl_cons, ih]
      show (lastStored bs a).getD ((b.at? a).getD (mem a)) = ((lastStored bs a).or (b.at? a)).getD _
      cases lastStored bs a <;> rfl

/-- A read is determined address by address. -/
theorem read_eq_take_iff {mem : ℕ → β} {addr n : ℕ} {xs : List β} :
    read mem addr n = xs.take n ↔ ∀ i < n, xs[i]? = some (mem (addr + i)) := by
  constructor
  · intro h i hi
    have hget := congrArg (·[i]?) h
    simpa [read, hi, eq_comm] using hget
  · intro h
    apply List.ext_getElem?
    intro i
    rcases Nat.lt_or_ge i n with hi | hi
    · simp [read, hi, h i hi]
    · have hread : (read mem addr n)[i]? = none := List.getElem?_eq_none (by simpa [read] using hi)
      rw [hread, List.getElem?_eq_none (Nat.le_trans (List.length_take_le n xs) hi)]

/-- Reading a stored block back gives its content exactly when later blocks kept it. -/
theorem read_foldl_store_iff {mem : ℕ → β} {b : Block β} {n : ℕ} (hn : n ≤ b.bytes.length)
    (later : List (Block β)) :
    read (later.foldl store (store mem b)) b.addr n = b.bytes.take n ↔ Keeps b n later := by
  rw [read_eq_take_iff]
  -- address by address: what was stored last, if a later block covers it, or else the block's own
  refine forall_congr' fun i => forall_congr' fun hi => ?_
  have hget : b.bytes[i]? = some b.bytes[i] := List.getElem?_eq_getElem (by omega)
  rw [foldl_store_apply, store, Block.at?_add, hget]
  cases lastStored later (b.addr + i) <;> simp

/-- A block that covers none of the addresses of another. -/
def Block.Disjoint (b c : Block β) : Prop :=
  b.addr + b.bytes.length ≤ c.addr ∨ c.addr + c.bytes.length ≤ b.addr

/-- Blocks elsewhere in memory keep a block. -/
theorem keeps_of_disjoint {b : Block β} {later : List (Block β)} {n : ℕ}
    (hn : n ≤ b.bytes.length) (h : ∀ c ∈ later, b.Disjoint c) : Keeps b n later := by
  intro i hi x hx
  have hnone : lastStored later (b.addr + i) = none := by
    clear hx
    induction later with
    | nil => rfl
    | cons c cs ih =>
        have hc := h c List.mem_cons_self
        have hcover : c.at? (b.addr + i) = none := by
          unfold Block.at?
          split
          · apply List.getElem?_eq_none
            unfold Block.Disjoint at hc
            omega
          · rfl
        rw [lastStored, hcover, ih fun d hd => h d (List.mem_cons_of_mem c hd)]
        rfl
  rw [hnone] at hx
  cases hx

end BlockMemory
