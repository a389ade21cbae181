import Mathlib.Logic.Embedding.Basic
import SysProg.Lib.Decimal
import SysProg.Lib.Heap

/-! # The thread pool and its size

`thread_pool_init` and `thread_pool_destroy` loop over an array of twenty
pointers as often as their caller says.  The two callers convert the number from
the command line.  Allocation and `pthread_create` are taken to succeed; the
pool itself is one allocation that is read and freed once and is not modelled.
-/

namespace SysProg.M9

open Fallible Heap CString Decimal

/-- `MAX_WORKER_THREADS` -/
abbrev maxWorkerThreads : Nat := 20

/-- `struct worker_thread` -/
structure WorkerThread where
  threadId : Int
  /-- Which call of `pthread_create` made the thread, counted from zero. -/
  thread : Nat

/-- `struct thread_pool` -/
structure ThreadPool where
  nextThreadId : Int
  numThreads : Int
  threads : Fin maxWorkerThreads → Option Addr

inductive PoolError where
  /-- An index outside `threads`. -/
  | index (i : Nat)
  | heap (fault : Undefined)
  deriving DecidableEq

/-- What the loops change besides the pool. -/
structure Process where
  heap : Store WorkerThread
  /-- How many worker threads were allocated. -/
  allocated : Nat
  /-- The ids of the workers that were created, in order. -/
  started : List Int
  /-- The threads that were joined, in order. -/
  joined : List Nat

def Process.start : Process := ⟨fun _ => none, 0, [], []⟩

namespace ThreadPool

/-- `pool->threads[i]` -/
def thread (pool : ThreadPool) (i : Nat) : Except PoolError (Option Addr) :=
  if bound : i < maxWorkerThreads then .ok (pool.threads ⟨i, bound⟩) else .error (.index i)

/-- `pool->threads[i] = p` -/
def setThread (pool : ThreadPool) (i : Nat) (p : Option Addr) : Except PoolError ThreadPool :=
  if bound : i < maxWorkerThreads then
    .ok { pool with threads := Function.update pool.threads ⟨i, bound⟩ p }
  else .error (.index i)

end ThreadPool

section

-- what `malloc` returns, one address after the other
variable (malloc : Nat ↪ Addr)

/-- One pass of the loop of `thread_pool_init`. -/
def createWorker (i : Nat) (pool : ThreadPool) (process : Process) :
    Except PoolError (ThreadPool × Process) := do
  let p := malloc process.allocated
  let pool ← pool.setThread i (some p)
  let worker : WorkerThread := ⟨pool.nextThreadId, process.started.length⟩
  let process := { process with
    heap := put process.heap p worker
    allocated := process.allocated + 1
    started := process.started ++ [pool.nextThreadId] }
  return ({ pool with nextThreadId := pool.nextThreadId + 1 }, process)

/-- The loop of `thread_pool_init` from `i` on, with `count` passes to go. -/
def createWorkers : Nat → Nat → ThreadPool → Process → Except PoolError (ThreadPool × Process)
  | 0, _, pool, process => .ok (pool, process)
  | count + 1, i, pool, process => do
      let (pool, process) ← createWorker malloc i pool process
      createWorkers count (i + 1) pool process

/-- `thread_pool_init`; `junk` is what the allocated array holds. -/
def threadPoolInit (junk : Fin maxWorkerThreads → Option Addr) (numThreads : Int) :
    Except PoolError (ThreadPool × Process) :=
  createWorkers malloc numThreads.toNat 0 ⟨1, numThreads, junk⟩ .start

end

/-- One pass of the loop of `thread_pool_destroy`. -/
def joinWorker (i : Nat) (pool : ThreadPool) (process : Process) : Except PoolError Process := do
  match ← pool.thread i with
  | none => return process
  | some p =>
      let worker ← (load process.heap (some p)).mapError .heap
      let heap ← (release process.heap (some p)).mapError .heap
      return { process with heap := heap, joined := process.joined ++ [worker.thread] }

/-- The loop of `thread_pool_destroy` from `i` on, with `count` passes to go. -/
def joinWorkers : Nat → Nat → ThreadPool → Process → Except PoolError Process
  | 0, _, _, process => .ok process
  | count + 1, i, pool, process => do
      let process ← joinWorker i pool process
      joinWorkers count (i + 1) pool process

def threadPoolDestroy (pool : ThreadPool) (process : Process) : Except PoolError Process :=
  joinWorkers pool.numThreads.toNat 0 pool process

/-! ## The callers -/

/-- The number of threads that M9's `main` asks for, unless it exits before. -/
def m9NumThreads (argv : List Bytes) : Option Int :=
  if argv.length < 3 then none
  else if atoi (argv.getD 1 []) > 20 then none
  else some (atoi (argv.getD 1 []))

/-- The number of threads that the proxy's `main` asks for. -/
def proxyNumThreads (argv : List Bytes) : Int :=
  if argv.length = 2 then atoi (argv.getD 1 []) else 2

/-! ## Runs of the loops -/

/-- The ids 1 to `n`. -/
def workerIds (n : Nat) : List Int := (List.range n).map fun i : Nat => (i : Int) + 1

theorem workerIds_succ (n : Nat) : workerIds (n + 1) = workerIds n ++ [(n : Int) + 1] := by
  simp [workerIds, List.range_succ]

theorem workerIds_nodup (n : Nat) : (workerIds n).Nodup := by
  apply List.Nodup.map
  · intro i j same
    have equal : (i : Int) + 1 = j + 1 := same
    omega
  · exact List.nodup_range

/-- The first `n` workers exist, and the first `i` of them are joined and freed. -/
structure Workers (malloc : Nat ↪ Addr) (i n : Nat) (pool : ThreadPool) (process : Process) :
    Prop where
  slots : ∀ j (bound : j < maxWorkerThreads), j < n → pool.threads ⟨j, bound⟩ = some (malloc j)
  live : ∀ j, i ≤ j → j < n → process.heap (malloc j) = some ⟨(j : Int) + 1, j⟩
  others : ∀ a, (∀ j, i ≤ j → j < n → a ≠ malloc j) → process.heap a = none
  allocated : process.allocated = n
  started : process.started = workerIds n
  joined : process.joined = List.range i

variable {malloc : Nat ↪ Addr} {pool : ThreadPool} {process : Process}

/-- One pass of the creating loop. -/
theorem Workers.create {n : Nat} (workers : Workers malloc 0 n pool process)
    (next : pool.nextThreadId = (n : Int) + 1) (room : n < maxWorkerThreads) :
    ∃ pool' process', createWorker malloc n pool process = .ok (pool', process') ∧
      Workers malloc 0 (n + 1) pool' process' ∧
      pool'.nextThreadId = ((n + 1 : Nat) : Int) + 1 ∧ pool'.numThreads = pool.numThreads := by
  have distinct : ∀ j, j < n → malloc j ≠ malloc n := fun j before same => by
    have equal := malloc.injective same
    omega
  have count : process.started.length = n := by
    rw [workers.started, workerIds]
    simp
  simp only [createWorker, ThreadPool.setThread, dif_pos room, ok_bind, pure_eq_ok,
    workers.allocated, next, count]
  refine ⟨_, _, rfl, ?_, by simp, rfl⟩
  constructor
  · intro j bound before
    rcases Nat.lt_succ_iff_lt_or_eq.mp before with earlier | rfl
    · have ne : (⟨j, bound⟩ : Fin maxWorkerThreads) ≠ ⟨n, room⟩ := fun same => by
        have equal : j = n := congrArg Fin.val same
        omega
      exact (Function.update_of_ne ne ..).trans (workers.slots j bound earlier)
    · exact Function.update_self ..
  · intro j _ before
    rcases Nat.lt_succ_iff_lt_or_eq.mp before with earlier | rfl
    · exact (put_of_ne (distinct j earlier)).trans (workers.live j (Nat.zero_le j) earlier)
    · exact put_self ..
  · intro a off
    refine (put_of_ne (off n (Nat.zero_le n) (Nat.lt_succ_self n))).trans ?_
    exact workers.others a fun j from_ before => off j from_ (Nat.lt_succ_of_lt before)
  · rfl
  · rw [workerIds_succ, workers.started]
  · exact workers.joined

theorem createWorkers_workers (count : Nat) {n : Nat} (workers : Workers malloc 0 n pool process)
    (next : pool.nextThreadId = (n : Int) + 1) (room : n + count ≤ maxWorkerThreads) :
    ∃ pool' process', createWorkers malloc count n pool process = .ok (pool', process') ∧
      Workers malloc 0 (n + count) pool' process' ∧ pool'.numThreads = pool.numThreads := by
  induction count generalizing n pool process with
  | zero => exact ⟨pool, process, rfl, workers, rfl⟩
  | succ count ih =>
      obtain ⟨pool₁, process₁, pass, workers₁, next₁, num₁⟩ := workers.create next (by omega)
      obtain ⟨pool₂, process₂, ran, workers₂, num₂⟩ := ih workers₁ next₁ (by omega)
      refine ⟨pool₂, process₂, ?_, ?_, num₂.trans num₁⟩
      · simp only [createWorkers, pass, ok_bind, ran]
      · rwa [Nat.add_right_comm] at workers₂

/-- More passes than the array has entries leave it. -/
theorem createWorkers_outside {count n : Nat} (inside : n ≤ maxWorkerThreads)
    (many : maxWorkerThreads < n + count) :
    createWorkers malloc count n pool process = .error (.index maxWorkerThreads) := by
  induction count generalizing n pool process with
  | zero => omega
  | succ count ih =>
      rcases Nat.lt_or_ge n maxWorkerThreads with room | full
      · simp only [createWorkers, createWorker, ThreadPool.setThread, dif_pos room, ok_bind,
          pure_eq_ok]
        exact ih room (by omega)
      · obtain rfl : n = maxWorkerThreads := Nat.le_antisymm inside full
        rfl

/-- One pass of the joining loop. -/
theorem Workers.join {i n : Nat} (workers : Workers malloc i n pool process) (more : i < n)
    (room : n ≤ maxWorkerThreads) :
    ∃ process', joinWorker i pool process = .ok process' ∧
      Workers malloc (i + 1) n pool process' := by
  have bound : i < maxWorkerThreads := Nat.lt_of_lt_of_le more room
  have live := workers.live i (Nat.le_refl i) more
  simp only [joinWorker, ThreadPool.thread, dif_pos bound, workers.slots i bound more, ok_bind,
    load_of_live live, release_of_live live, Except.mapError, pure_eq_ok]
  refine ⟨_, rfl, workers.slots, ?_, ?_, workers.allocated, workers.started, ?_⟩
  · intro j from_ before
    have ne : malloc j ≠ malloc i := fun same => by
      have equal := malloc.injective same
      omega
    exact (Function.update_of_ne ne ..).trans (workers.live j (by omega) before)
  · intro a off
    rcases eq_or_ne a (malloc i) with rfl | ne
    · exact Function.update_self ..
    · refine (Function.update_of_ne ne ..).trans (workers.others a fun j from_ before => ?_)
      rcases Nat.eq_or_lt_of_le from_ with rfl | later
      · exact ne
      · exact off j later before
  · rw [List.range_succ, workers.joined]

theorem joinWorkers_workers {count i n : Nat} (workers : Workers malloc i n pool process)
    (all : i + count = n) (room : n ≤ maxWorkerThreads) :
    ∃ process', joinWorkers count i pool process = .ok process' ∧
      Workers malloc n n pool process' := by
  induction count generalizing i process with
  | zero =>
      obtain rfl : i = n := all
      exact ⟨process, rfl, workers⟩
  | succ count ih =>
      obtain ⟨process₁, pass, workers₁⟩ := workers.join (by omega) room
      obtain ⟨process₂, ran, workers₂⟩ := ih workers₁ (by omega)
      exact ⟨process₂, by simp only [joinWorkers, pass, ok_bind, ran], workers₂⟩

/-! ## The whole life of a pool -/

/-- Both loops stay inside the array, workers 1 to `n` are started, at least one
    of them, and each is joined and freed exactly once. -/
def Lifecycle (malloc : Nat ↪ Addr) (junk : Fin maxWorkerThreads → Option Addr) (n : Int) : Prop :=
  ∃ pool process process', threadPoolInit malloc junk n = .ok (pool, process) ∧
    threadPoolDestroy pool process = .ok process' ∧
    process.started ≠ [] ∧ process.started.Nodup ∧ process.started = workerIds n.toNat ∧
    process'.joined = List.range process.started.length ∧ process'.heap = fun _ => none

theorem lifecycle_iff (malloc : Nat ↪ Addr) (junk : Fin maxWorkerThreads → Option Addr) (n : Int) :
    Lifecycle malloc junk n ↔ 1 ≤ n ∧ n ≤ 20 := by
  have start : Workers malloc 0 0 ⟨1, n, junk⟩ .start :=
    ⟨fun _ _ => nofun, fun _ _ => nofun, fun _ _ => rfl, rfl, rfl, rfl⟩
  constructor
  · rintro ⟨pool, process, _, created, _, some_, _, ids, _⟩
    constructor
    · by_contra low
      have none_ : n.toNat = 0 := by omega
      rw [ids, none_] at some_
      exact some_ rfl
    · by_contra high
      have outside : maxWorkerThreads < 0 + n.toNat := by
        simp only [maxWorkerThreads]
        omega
      rw [threadPoolInit, createWorkers_outside (Nat.zero_le _) outside] at created
      cases created
  · rintro ⟨low, high⟩
    obtain ⟨pool, process, created, workers, num⟩ :=
      createWorkers_workers n.toNat start rfl (by simp only [maxWorkerThreads]; omega)
    rw [Nat.zero_add] at workers
    obtain ⟨process', joined, done⟩ := joinWorkers_workers workers (Nat.zero_add n.toNat)
      (by simp only [maxWorkerThreads]; omega)
    have count : process.started.length = n.toNat := by
      rw [workers.started, workerIds]
      simp
    refine ⟨pool, process, process', created, ?_, ?_, ?_, workers.started, ?_, ?_⟩
    · rw [threadPoolDestroy, num]
      exact joined
    · intro none_
      rw [none_] at count
      simp at count
      omega
    · rw [workers.started]
      exact workerIds_nodup _
    · rw [count]
      exact done.joined
    · funext a
      exact done.others a fun j from_ before => absurd from_ (Nat.not_le.mpr before)

/-- For every command line that is let through, the pool lives as it should
    exactly when the number of threads that `atoi` gives is at least 1 and, for
    the proxy, at most 20; without an argument the proxy takes 2. -/
theorem pool_lifecycle_iff (malloc : Nat ↪ Addr) (junk : Fin maxWorkerThreads → Option Addr)
    (argv : List Bytes) :
    ((∀ n, m9NumThreads argv = some n → Lifecycle malloc junk n) ↔
      argv.length < 3 ∨ 1 ≤ atoi (argv.getD 1 [])) ∧
    (Lifecycle malloc junk (proxyNumThreads argv) ↔
      argv.length ≠ 2 ∨ (1 ≤ atoi (argv.getD 1 []) ∧ atoi (argv.getD 1 []) ≤ 20)) := by
  constructor
  · unfold m9NumThreads
    generalize atoi (argv.getD 1 []) = threads
    by_cases few : argv.length < 3
    · simp [few]
    · by_cases large : threads > 20
      · have positive : 1 ≤ threads := by omega
        simp [large, positive]
      · have within : threads ≤ 20 := by omega
        simp [few, large, lifecycle_iff, within]
  · unfold proxyNumThreads
    generalize atoi (argv.getD 1 []) = threads
    by_cases one : argv.length = 2
    · simp [one, lifecycle_iff]
    · simp [one, lifecycle_iff]

/-- The proxy lets 21 threads through, and M9 lets none through. -/
theorem pool_sizes_let_through :
    proxyNumThreads [ascii "proxy", ascii "21"] = 21 ∧
      threadPoolInit (.refl Nat) (fun _ => none) 21 = .error (.index 20) ∧
      m9NumThreads [ascii "main", ascii "none", ascii "5"] = some 0 ∧
      ¬ Lifecycle (.refl Nat) (fun _ => none) 0 := by
  refine ⟨by decide, ?_, by decide, ?_⟩
  · exact createWorkers_outside (Nat.zero_le _) (by decide)
  · rw [lifecycle_iff]
    decide

end SysProg.M9
