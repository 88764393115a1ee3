import Hound.ToMathlib.Machine
import Hound.ToMathlib.Pool

/-!
# The pool of Kafka producers

`send_one_msg` acquires a `ManagedProducer` from the `ProducerPool`, uses it and collects it again.
The constructor makes `poolSize` producers and throws when `RdKafka::Producer::create` returns null;
`generate`, which makes another one when none is idle, does not look at the result.

* `PoolState.abs` : the pool as one of exclusive resources.
* `producers_exclusive` : the producers are exclusive, none is lost and no more are created than
  were needed at a time.
* `producers_valid` : when all of them are valid.
-/

namespace Hound

/-- What a call of `RdKafka::Producer::create` does: it returns a producer, or null and leaves a
text in `errstr`. -/
abbrev CreateOutcome := Except String Unit

/-- `ManagedProducer`. The constructor starts the polling thread in any case. -/
structure ManagedProducer where
  /-- Which call of `RdKafka::Producer::create` its `producer_` is from. -/
  serial : ℕ
  /-- `producer_` is not null. -/
  isValid : Bool

/-- `std::runtime_error`. -/
structure PoolError where
  what : String

structure ProducerPool where
  producers : List ManagedProducer := []
  /-- The number of calls of `RdKafka::Producer::create`. -/
  creates : ℕ := 0

variable (create : ℕ → CreateOutcome)

/-- The loop of the constructor, with the number of producers still to be made. -/
def constructLoop : ℕ → ProducerPool → Except PoolError ProducerPool
  | 0, pool => .ok pool
  | n + 1, pool => match create pool.creates with
      | .error errstr => .error ⟨"Failed to create producer: " ++ errstr⟩
      | .ok () => constructLoop n
          { producers := pool.producers ++ [⟨pool.creates, true⟩], creates := pool.creates + 1 }

/-- `ProducerPool(poolSize, brokers)`. -/
def ProducerPool.construct (poolSize : ℕ) : Except PoolError ProducerPool :=
  constructLoop create poolSize {}

/-- `generate()`, and the pool after it. -/
def ProducerPool.generate (pool : ProducerPool) :
    Except PoolError ManagedProducer × ProducerPool :=
  (.ok ⟨pool.creates, (create pool.creates).isOk⟩, { pool with creates := pool.creates + 1 })

/-- `acquire()`, and the pool after it. -/
def ProducerPool.acquire (pool : ProducerPool) :
    Except PoolError ManagedProducer × ProducerPool :=
  match pool.producers.getLast? with
  | none => pool.generate create
  | some producer => (.ok producer, { pool with producers := pool.producers.dropLast })

/-- `collect(producer)`. -/
def ProducerPool.collect (pool : ProducerPool) (producer : ManagedProducer) : ProducerPool :=
  { pool with producers := pool.producers ++ [producer] }

/-- Where a thread is in `send_one_msg`. -/
inductive SenderPc where
  | idle
  /-- `_manager` has been acquired. -/
  | acquired (manager : ManagedProducer)
  /-- `_manager->get()->produce` has returned. -/
  | produced (manager : ManagedProducer)

/-- The `_manager` of a thread. -/
def SenderPc.manager : SenderPc → Option ManagedProducer
  | .idle => none
  | .acquired manager => some manager
  | .produced manager => some manager

/-- The pool and the threads `ω` that send. -/
structure PoolState (ω : Type) where
  pool : ProducerPool
  sender : ω → SenderPc := fun _ => .idle
  /-- Some thread has called a method of a null producer. -/
  nullDereferenced : Bool := false

/-- The steps of the threads that send and of the polling threads. -/
inductive PoolAction (ω : Type) where
  /-- `producer_pool.acquire()`, under the mutex. -/
  | acquire (w : ω)
  /-- `_manager->get()->produce(..)`. -/
  | produce (w : ω)
  /-- `producer_pool.collect(std::move(_manager))`, under the mutex. -/
  | collect (w : ω)
  /-- `producer_->poll(1000)` of an idle producer. -/
  | pollIdle (i : ℕ)
  /-- `producer_->poll(1000)` of a producer that `w` holds. -/
  | pollHeld (w : ω)

variable {ω : Type} [DecidableEq ω]

/-- A use of a producer. -/
def PoolState.use (s : PoolState ω) (producer : ManagedProducer) : PoolState ω :=
  { s with nullDereferenced := s.nullDereferenced || !producer.isValid }

/-- One step of a thread. An exception leaves `send_one_msg`. -/
def poolStep (s : PoolState ω) : PoolAction ω → Option (PoolState ω)
  | .acquire w => match s.sender w with
      | .idle => match s.pool.acquire create with
          | (.ok producer, pool) => some
              { s with pool, sender := Function.update s.sender w (.acquired producer) }
          | (.error _, pool) => some { s with pool }
      | _ => none
  | .produce w => match s.sender w with
      | .acquired producer => some
          { s.use producer with sender := Function.update s.sender w (.produced producer) }
      | _ => none
  | .collect w => match s.sender w with
      | .produced producer => some
          { s with
            pool := s.pool.collect producer
            sender := Function.update s.sender w .idle }
      | _ => none
  | .pollIdle i => s.pool.producers[i]?.map s.use
  | .pollHeld w => (s.sender w).manager.map s.use

/-- A pool from the end of its construction on. -/
def poolMachine (pool : ProducerPool) : Machine (PoolState ω) (PoolAction ω) where
  init := { pool }
  step := poolStep create

/-! ### What a step does -/

section Steps

variable {create} {s t : PoolState ω} {w : ω}

theorem acquire_of_nil {pool : ProducerPool} (h : pool.producers = []) :
    pool.acquire create = pool.generate create := by
  unfold ProducerPool.acquire
  rw [h, List.getLast?_nil]

theorem acquire_of_append {pool : ProducerPool} {rest : List ManagedProducer}
    {producer : ManagedProducer} (h : pool.producers = rest ++ [producer]) :
    pool.acquire create = (.ok producer, { pool with producers := rest }) := by
  unfold ProducerPool.acquire
  rw [h, List.getLast?_concat, List.dropLast_concat]

/-- `acquire` takes the last idle producer, or wraps what the next creation returns. -/
theorem poolStep_acquire : poolStep create s (.acquire w) = some t ↔ s.sender w = .idle ∧
    ((s.pool.producers = [] ∧ t = { s with
        pool := { s.pool with creates := s.pool.creates + 1 }
        sender := Function.update s.sender w
          (.acquired ⟨s.pool.creates, (create s.pool.creates).isOk⟩) }) ∨
      ∃ rest producer, s.pool.producers = rest ++ [producer] ∧ t = { s with
        pool := { s.pool with producers := rest }
        sender := Function.update s.sender w (.acquired producer) }) := by
  cases hw : s.sender w with
  | acquired | produced => simp [poolStep, hw]
  | idle =>
      rw [poolStep, hw, and_iff_right rfl]
      rcases List.eq_nil_or_concat s.pool.producers with hnil | ⟨rest, producer, hrest⟩
      · rw [acquire_of_nil hnil]
        constructor
        · exact fun h => .inl ⟨hnil, (Option.some.inj h).symm⟩
        · rintro (⟨-, rfl⟩ | ⟨rest, producer, hrest, -⟩)
          · rfl
          · exact absurd (hnil.symm.trans hrest) (by simp)
      · rw [List.concat_eq_append] at hrest
        rw [acquire_of_append hrest]
        constructor
        · exact fun h => .inr ⟨rest, producer, hrest, (Option.some.inj h).symm⟩
        · rintro (⟨hnil, -⟩ | ⟨rest', producer', hrest', rfl⟩)
          · exact absurd (hrest.symm.trans hnil) (by simp)
          · obtain ⟨rfl, rfl⟩ := List.append_singleton_inj.mp (hrest'.symm.trans hrest)
            rfl

theorem poolStep_produce : poolStep create s (.produce w) = some t ↔ ∃ producer,
    s.sender w = .acquired producer ∧
      t = { s.use producer with sender := Function.update s.sender w (.produced producer) } := by
  cases hw : s.sender w <;> simp [poolStep, hw, eq_comm]

theorem poolStep_collect : poolStep create s (.collect w) = some t ↔ ∃ producer,
    s.sender w = .produced producer ∧
      t = { s with
            pool := s.pool.collect producer
            sender := Function.update s.sender w .idle } := by
  cases hw : s.sender w <;> simp [poolStep, hw, eq_comm]

theorem poolStep_pollIdle {i : ℕ} : poolStep create s (.pollIdle i) = some t ↔
    ∃ producer, s.pool.producers[i]? = some producer ∧ t = s.use producer := by
  simp [poolStep, eq_comm]

theorem poolStep_pollHeld : poolStep create s (.pollHeld w) = some t ↔
    ∃ producer, (s.sender w).manager = some producer ∧ t = s.use producer := by
  simp [poolStep, eq_comm]

end Steps

/-! ### The pool after its construction -/

section Construction

variable {create}

/-- The first `n` producers, all of them valid. -/
def firstProducers (n : ℕ) : List ManagedProducer := (List.range n).map fun i => ⟨i, true⟩

theorem constructLoop_eq_ok : ∀ (n : ℕ) {pool pool' : ProducerPool},
    pool.producers = firstProducers pool.creates → constructLoop create n pool = .ok pool' →
      pool'.producers = firstProducers pool'.creates ∧ pool'.creates = pool.creates + n
  | 0, pool, pool', hpool, h => by
      obtain rfl := Except.ok.inj h
      exact ⟨hpool, rfl⟩
  | n + 1, pool, pool', hpool, h => by
      rw [constructLoop] at h
      cases hcreate : create pool.creates with
      | error errstr =>
          rw [hcreate] at h
          cases h
      | ok =>
          rw [hcreate] at h
          have hnext : pool.producers ++ [⟨pool.creates, true⟩] =
              firstProducers (pool.creates + 1) := by
            rw [hpool, firstProducers, firstProducers, List.range_succ, List.map_append]
            rfl
          obtain ⟨hproducers, hcreates⟩ := constructLoop_eq_ok n hnext h
          exact ⟨hproducers, by rw [hcreates, Nat.add_right_comm, Nat.add_assoc]⟩

/-- The constructor makes `poolSize` valid producers. -/
theorem construct_eq_ok {poolSize : ℕ} {pool : ProducerPool}
    (h : ProducerPool.construct create poolSize = .ok pool) :
    pool.producers = firstProducers poolSize ∧ pool.creates = poolSize := by
  obtain ⟨hproducers, hcreates⟩ := constructLoop_eq_ok poolSize rfl h
  rw [hcreates, Nat.zero_add] at hproducers
  exact ⟨hproducers, hcreates.trans (Nat.zero_add _)⟩

/-- It does not throw when all creations succeed. -/
theorem exists_constructLoop_eq_ok (hcreate : ∀ n, create n = .ok ()) :
    ∀ (n : ℕ) (pool : ProducerPool), ∃ pool', constructLoop create n pool = .ok pool'
  | 0, pool => ⟨pool, rfl⟩
  | n + 1, pool => by
      rw [constructLoop, hcreate]
      exact exists_constructLoop_eq_ok hcreate n _

end Construction

/-! ### The producers as resources -/

section Resources

variable {create}

/-- The producer a thread holds. -/
def SenderPc.serial (pc : SenderPc) : Option ℕ := pc.manager.map ManagedProducer.serial

/-- The producers as exclusive resources. -/
def PoolState.abs (s : PoolState ω) : Pool ω ℕ where
  idle := ((s.pool.producers.map ManagedProducer.serial : List ℕ) : Multiset ℕ)
  held := SenderPc.serial ∘ s.sender

/-- The last producer is one of the idle ones. -/
theorem coe_map_serial_concat (producers : List ManagedProducer) (producer : ManagedProducer) :
    (((producers ++ [producer]).map ManagedProducer.serial : List ℕ) : Multiset ℕ) =
      producer.serial ::ₘ (producers.map ManagedProducer.serial : List ℕ) := by
  rw [List.map_append]
  exact Multiset.coe_eq_coe.mpr (List.perm_append_singleton _ _)

/-- What a step does to the resources: it reuses them, or makes the next one when none is idle. -/
theorem pool_abs_step {s t : PoolState ω} {a : PoolAction ω}
    (hstep : poolStep create s a = some t) :
    s.abs.Reuse t.abs ∧ t.pool.creates = s.pool.creates ∨
      ∃ w, s.abs.held w = none ∧ s.abs.idle = 0 ∧ t.abs = s.abs.create w s.pool.creates ∧
        t.pool.creates = s.pool.creates + 1 := by
  cases a with
  | acquire w =>
      obtain ⟨hw, ⟨hnil, rfl⟩ | ⟨rest, producer, hrest, rfl⟩⟩ := poolStep_acquire.mp hstep
      all_goals have hheld : s.abs.held w = none := congrArg SenderPc.serial hw
      · refine .inr ⟨w, hheld, ?_, ?_, rfl⟩
        · rw [PoolState.abs, hnil]
          rfl
        · rw [PoolState.abs, PoolState.abs, Pool.create, Function.comp_update]
          rfl
      · -- the last producer is taken
        have hidle : s.abs.idle =
            producer.serial ::ₘ (rest.map ManagedProducer.serial : List ℕ) := by
          rw [PoolState.abs, hrest]
          exact coe_map_serial_concat rest producer
        have htake := Pool.Reuse.take (P := s.abs) (r := producer.serial) hheld
          (hidle ▸ Multiset.mem_cons_self _ _)
        refine .inl ⟨?_, rfl⟩
        convert htake using 1
        rw [Pool.take, hidle, Multiset.erase_cons_head, PoolState.abs, PoolState.abs,
          Function.comp_update]
        rfl
  | produce w =>
      obtain ⟨producer, hw, rfl⟩ := poolStep_produce.mp hstep
      -- the thread goes on holding the producer
      have hheld : (SenderPc.produced producer).serial = (s.sender w).serial := by
        rw [hw]
        rfl
      refine .inl ⟨?_, rfl⟩
      convert Pool.Reuse.stay (P := s.abs) using 1
      exact congrArg (Pool.mk _) (comp_update_of_eq hheld)
  | collect w =>
      obtain ⟨producer, hw, rfl⟩ := poolStep_collect.mp hstep
      have hheld : s.abs.held w = some producer.serial := congrArg SenderPc.serial hw
      refine .inl ⟨?_, rfl⟩
      convert Pool.Reuse.give hheld using 1
      rw [Pool.give, PoolState.abs, PoolState.abs, Function.comp_update]
      exact congrArg (Pool.mk · _) (coe_map_serial_concat s.pool.producers producer)
  | pollIdle i =>
      obtain ⟨producer, -, rfl⟩ := poolStep_pollIdle.mp hstep
      exact .inl ⟨.stay, rfl⟩
  | pollHeld w =>
      obtain ⟨producer, -, rfl⟩ := poolStep_pollHeld.mp hstep
      exact .inl ⟨.stay, rfl⟩

/-- The producers created so far are in one place each. -/
structure PoolState.Numbered (s : PoolState ω) : Prop where
  exclusive : s.abs.Exclusive
  has_iff : ∀ n, s.abs.Has n ↔ n < s.pool.creates

omit [DecidableEq ω] in
/-- After the construction all producers are idle. -/
theorem abs_constructed {poolSize : ℕ} {pool : ProducerPool}
    (hpool : ProducerPool.construct create poolSize = .ok pool) :
    PoolState.abs ({ pool } : PoolState ω) = Pool.initial (List.range poolSize : List ℕ) := by
  have hserial : (firstProducers poolSize).map ManagedProducer.serial = List.range poolSize := by
    rw [firstProducers, List.map_map]
    exact List.map_id _
  rw [PoolState.abs, (construct_eq_ok hpool).1, hserial]
  rfl

omit [DecidableEq ω] in
theorem numbered_constructed {poolSize : ℕ} {pool : ProducerPool}
    (hpool : ProducerPool.construct create poolSize = .ok pool) :
    PoolState.Numbered ({ pool } : PoolState ω) := by
  constructor
  · rw [abs_constructed hpool]
    exact Pool.exclusive_initial (Multiset.coe_nodup.mpr List.nodup_range)
  · intro n
    rw [abs_constructed hpool]
    simp [(construct_eq_ok hpool).2]

theorem numbered_step {s t : PoolState ω} (hs : s.Numbered) {a : PoolAction ω}
    (hstep : poolStep create s a = some t) : t.Numbered := by
  rcases pool_abs_step hstep with ⟨hreuse, hcreates⟩ | ⟨w, hw, -, habs, hcreates⟩
  · refine ⟨hreuse.exclusive hs.exclusive, fun n => ?_⟩
    rw [hreuse.has_iff, hs.has_iff, hcreates]
  · -- the number of the next creation is a new one
    have hnew : ¬s.abs.Has s.pool.creates := by
      rw [hs.has_iff]
      exact lt_irrefl _
    constructor
    · rw [habs]
      exact hs.exclusive.create hnew
    · intro n
      rw [habs, Pool.has_create hw, hs.has_iff, hcreates]
      omega

end Resources

/-! ### Exclusion and number -/

section Number

variable {create} [Fintype ω]

/-- The number of producers that are held. -/
def PoolState.heldCount (s : PoolState ω) : ℕ := s.abs.heldCount

omit [DecidableEq ω] in
theorem onDemand_constructed {poolSize : ℕ} {pool : ProducerPool}
    (hpool : ProducerPool.construct create poolSize = .ok pool) :
    (PoolState.abs ({ pool } : PoolState ω)).OnDemand poolSize pool.creates 0 := by
  have hheld : (PoolState.abs ({ pool } : PoolState ω)).heldCount = 0 := by
    rw [abs_constructed hpool, Pool.heldCount_initial]
  refine ⟨?_, ?_, hheld.le⟩
  · rw [hheld, abs_constructed hpool, (construct_eq_ok hpool).2]
    simp [Pool.initial]
  · rw [(construct_eq_ok hpool).2, Nat.max_zero]

theorem onDemand_step {poolSize peak : ℕ} {s t : PoolState ω} {a : PoolAction ω}
    (hs : s.abs.OnDemand poolSize s.pool.creates peak) (hstep : poolStep create s a = some t) :
    t.abs.OnDemand poolSize t.pool.creates (max peak t.heldCount) := by
  rcases pool_abs_step hstep with ⟨hreuse, hcreates⟩ | ⟨w, hw, hidle, habs, hcreates⟩
  · rw [hcreates]
    exact hreuse.onDemand hs
  · rw [hcreates, PoolState.heldCount, habs]
    exact hs.create hw hidle _

/-- When all creations succeed, the pool is constructed, and after every run of any number of
threads each producer created is idle or held, in one place only; as many have been created as the
pool had at first or were held at a time, whichever is more. -/
theorem producers_exclusive (hcreate : ∀ n, create n = .ok ()) (poolSize : ℕ) :
    ∃ pool, ProducerPool.construct create poolSize = .ok pool ∧
      ∀ as (s : PoolState ω), (poolMachine create pool).run { pool } as = some s →
        s.abs.Exclusive ∧ (∀ n, s.abs.Has n ↔ n < s.pool.creates) ∧
          s.pool.creates =
            max poolSize ((poolMachine create pool).peak PoolState.heldCount { pool } as) := by
  obtain ⟨pool, hpool⟩ := exists_constructLoop_eq_ok hcreate poolSize {}
  refine ⟨pool, hpool, fun as s hrun => ?_⟩
  have hnumbered : s.Numbered := Machine.run_induction (P := PoolState.Numbered)
    (fun _ _ _ hs hstep => numbered_step hs hstep) as _ s (numbered_constructed hpool) hrun
  have hinitial := onDemand_constructed (ω := ω) hpool
  have hdemand := Machine.run_induction_peak
    (I := fun peak (s : PoolState ω) => s.abs.OnDemand poolSize s.pool.creates peak)
    (fun _ _ _ _ hs hstep => onDemand_step hs hstep) as hinitial hinitial.heldCount_le hrun
  refine ⟨hnumbered.exclusive, hnumbered.has_iff, ?_⟩
  rw [hdemand.created_eq, Nat.zero_max]

end Number

/-- Two threads that send at the same time, from a pool of one producer. -/
def busyPool : List (PoolAction Bool) :=
  [.acquire false, .acquire true, .produce false, .collect false, .acquire false]

/-- One more producer is created. -/
theorem producers_exclusive_busyPool :
    ∃ (pool : ProducerPool) (s : PoolState Bool),
      ProducerPool.construct (fun _ => .ok ()) 1 = .ok pool ∧
        (poolMachine (fun _ => .ok ()) pool).run { pool } busyPool = some s ∧
          s.abs.Exclusive ∧ s.pool.creates =
            max 1 ((poolMachine (fun _ => .ok ()) pool).peak PoolState.heldCount { pool }
              busyPool) := by
  obtain ⟨pool, hpool, hruns⟩ :=
    @producers_exclusive (fun _ => .ok ()) Bool _ _ (fun _ => rfl) 1
  obtain rfl := Except.ok.inj hpool
  have hrun : (poolMachine (fun _ => .ok ()) ⟨[⟨0, true⟩], 1⟩).run
    { pool := ⟨[⟨0, true⟩], 1⟩ } busyPool = some _ := rfl
  obtain ⟨hexclusive, -, hcreates⟩ := hruns busyPool _ hrun
  exact ⟨_, _, rfl, hrun, hexclusive, hcreates⟩

/-! ### Validity -/

section Validity

variable {create}

/-- Every producer that is idle or held is valid, and no thread has used one that is not. -/
structure PoolState.Valid (s : PoolState ω) : Prop where
  idle : ∀ producer ∈ s.pool.producers, producer.isValid = true
  held : ∀ w producer, (s.sender w).manager = some producer → producer.isValid = true
  used : s.nullDereferenced = false

variable (create) in
/-- A failure of the creation is thrown, and the pool is left as it was. -/
def ReportsFailure (s : PoolState ω) : PoolAction ω → Prop
  | .acquire _ => s.pool.producers = [] → ∀ errstr, create s.pool.creates = .error errstr →
      ∃ e, (s.pool.acquire create).1 = .error e ∧
        (s.pool.acquire create).2.producers = s.pool.producers
  | _ => True

variable (create) in
/-- The condition on a step: the creation succeeds when no producer is idle. -/
def SucceedsOnDemand (s : PoolState ω) : PoolAction ω → Prop
  | .acquire _ => s.pool.producers = [] → create s.pool.creates = .ok ()
  | _ => True

omit [DecidableEq ω] in
theorem valid_constructed {poolSize : ℕ} {pool : ProducerPool}
    (hpool : ProducerPool.construct create poolSize = .ok pool) :
    PoolState.Valid ({ pool } : PoolState ω) where
  idle producer hmem := by
    rw [show pool.producers = _ from (construct_eq_ok hpool).1] at hmem
    obtain ⟨i, -, rfl⟩ := List.mem_map.mp hmem
    rfl
  held w producer hw := by cases hw
  used := rfl

/-- A thread's step to a valid producer keeps the held ones valid. -/
theorem valid_update {s : PoolState ω} (hs : s.Valid) {w : ω} {pc : SenderPc}
    (hpc : ∀ producer, pc.manager = some producer → producer.isValid = true) (w' : ω)
    (producer : ManagedProducer) (h : (Function.update s.sender w pc w').manager = some producer) :
    producer.isValid = true := by
  by_cases hne : w' = w
  · subst hne
    rw [Function.update_self] at h
    exact hpc producer h
  · rw [Function.update_of_ne hne] at h
    exact hs.held w' producer h

omit [DecidableEq ω] in
theorem PoolState.Valid.use {s : PoolState ω} (hs : s.Valid) {producer : ManagedProducer}
    (hvalid : producer.isValid = true) : (s.use producer).Valid where
  idle := hs.idle
  held := hs.held
  used := by rw [PoolState.use, hs.used, hvalid, Bool.not_true, Bool.or_false]

/-- A step that meets the condition keeps the producers valid. -/
theorem valid_step {s t : PoolState ω} (hs : s.Valid) {a : PoolAction ω}
    (hguard : SucceedsOnDemand create s a) (hstep : poolStep create s a = some t) : t.Valid := by
  cases a with
  | acquire w =>
      obtain ⟨-, ⟨hnil, rfl⟩ | ⟨rest, producer, hrest, rfl⟩⟩ := poolStep_acquire.mp hstep
      · refine ⟨hs.idle, valid_update hs fun producer h => ?_, hs.used⟩
        obtain rfl := Option.some.inj h
        rw [hguard hnil]
        rfl
      · have hmem : ∀ p ∈ rest ++ [producer], p.isValid = true := hrest ▸ hs.idle
        refine ⟨fun p hp => hmem p (List.mem_append_left _ hp), valid_update hs fun p h => ?_,
          hs.used⟩
        obtain rfl := Option.some.inj h
        exact hmem _ List.mem_concat_self
  | produce w =>
      obtain ⟨producer, hw, rfl⟩ := poolStep_produce.mp hstep
      have hvalid := hs.held w producer (congrArg SenderPc.manager hw)
      have huse := hs.use hvalid
      refine ⟨huse.idle, valid_update hs fun p h => ?_, huse.used⟩
      exact Option.some.inj h ▸ hvalid
  | collect w =>
      obtain ⟨producer, hw, rfl⟩ := poolStep_collect.mp hstep
      have hvalid := hs.held w producer (congrArg SenderPc.manager hw)
      refine ⟨fun p hp => ?_, valid_update hs (fun p h => by cases h), hs.used⟩
      obtain hmem | hmem := List.mem_append.mp hp
      · exact hs.idle p hmem
      · exact List.mem_singleton.mp hmem ▸ hvalid
  | pollIdle i =>
      obtain ⟨producer, hi, rfl⟩ := poolStep_pollIdle.mp hstep
      exact hs.use (hs.idle producer (List.mem_of_getElem? hi))
  | pollHeld w =>
      obtain ⟨producer, hw, rfl⟩ := poolStep_pollHeld.mp hstep
      exact hs.use (hs.held w producer hw)

/-- A step that does not meet the condition hands out a null producer. -/
theorem not_valid_of_step {s t : PoolState ω} {a : PoolAction ω}
    (hguard : ¬SucceedsOnDemand create s a) (hstep : poolStep create s a = some t) :
    ¬t.Valid := by
  cases a with
  | acquire w =>
      obtain ⟨hnil, hcreate⟩ := Classical.not_imp.mp hguard
      obtain ⟨-, ⟨-, rfl⟩ | ⟨rest, producer, hrest, -⟩⟩ := poolStep_acquire.mp hstep
      · intro hvalid
        have hok := hvalid.held w _ (congrArg SenderPc.manager (Function.update_self w _ s.sender))
        cases hresult : create s.pool.creates with
        | error errstr =>
            rw [hresult] at hok
            cases hok
        | ok => exact hcreate hresult
      · exact absurd (hnil.symm.trans hrest) (by simp)
  | produce | collect | pollIdle | pollHeld => exact absurd trivial hguard

/-- A run of a pool that has been constructed has only valid producers throughout, and every failure
is reported, if and only if each creation of the run succeeds. -/
theorem producers_valid {poolSize : ℕ} {pool : ProducerPool}
    (hpool : ProducerPool.construct create poolSize = .ok pool) {as : List (PoolAction ω)}
    {s : PoolState ω} (hrun : (poolMachine create pool).run { pool } as = some s) :
    (poolMachine create pool).Throughout PoolState.Valid { pool } as ∧
        (poolMachine create pool).StepsMeet (ReportsFailure create) { pool } as ↔
      (poolMachine create pool).StepsMeet (SucceedsOnDemand create) { pool } as := by
  constructor
  · rintro ⟨hvalid, -⟩
    exact Machine.Throughout.stepsMeet (fun _ _ _ => not_valid_of_step) as hrun hvalid
  · intro hmeet
    refine ⟨Machine.StepsMeet.throughout (I := PoolState.Valid)
      (fun _ _ _ _ hs hguard hstep => valid_step hs hguard hstep) (fun _ hs => hs) as
      Machine.Reachable.init hmeet (valid_constructed hpool), ?_⟩
    refine Machine.StepsMeet.imp (fun s a hguard => ?_) as hmeet
    cases a with
    | acquire w =>
        -- there is no failure to report
        intro hnil errstr herror
        exact absurd ((hguard hnil).symm.trans herror) (by simp)
    | produce | collect | pollIdle | pollHeld => trivial

/-- Only the first creation succeeds. -/
def createOnce : ℕ → CreateOutcome
  | 0 => .ok ()
  | _ + 1 => .error "Failed to create thread"

/-- The pool that is constructed then. -/
def poolOfOne : ProducerPool where
  producers := [⟨0, true⟩]
  creates := 1

/-- A single thread that sends finds a producer. -/
theorem producers_valid_oneSender :
    (poolMachine (ω := Unit) createOnce poolOfOne).Throughout PoolState.Valid
      { pool := poolOfOne } [.acquire (), .produce (), .collect ()] := by
  have hrun : (poolMachine (ω := Unit) createOnce poolOfOne).run { pool := poolOfOne }
    [.acquire (), .produce (), .collect ()] = some _ := rfl
  have hpool : ProducerPool.construct createOnce 1 = .ok poolOfOne := rfl
  refine ((producers_valid hpool hrun).mpr ?_).1
  refine ⟨fun hnil => ?_, fun _ _ => ⟨trivial, fun _ _ => ⟨trivial, fun _ _ => trivial⟩⟩⟩
  cases hnil

/-- The second creation fails while the first producer is held. -/
theorem producers_not_valid : ¬∀ (create : ℕ → CreateOutcome) (poolSize : ℕ) (pool : ProducerPool),
    ProducerPool.construct create poolSize = .ok pool →
      ∀ s : PoolState Bool, (poolMachine create pool).Reachable s → s.Valid := by
  intro h
  have hrun : (poolMachine (ω := Bool) createOnce poolOfOne).run { pool := poolOfOne }
    [.acquire false, .acquire true, .produce true] = some _ := rfl
  have hvalid := h createOnce 1 poolOfOne rfl _ ⟨_, hrun⟩
  cases hvalid.used

end Validity

end Hound
