import SysProg.M9.QueueMonitor

/-! # The request server

`main` starts the workers, enqueues its requests, closes the queue and joins
the workers; each worker runs `do_work`.  Threads meet only in the queue, so
the server is the queue monitor together with where `main` and every worker
stand.  The lists of enqueued, taken, called and freed requests are history:
no step depends on them.
-/

namespace SysProg.M9

open Heap Monitor Fifo Transition

/-! ## Requests -/

inductive WorkFn where
  | writeLog
  | computeSum
  | delayTask
  deriving DecidableEq, Repr

/-- What `arg` points to. -/
inductive TaskArg where
  | message (text : String)
  | number (n : Int)
  | delay (tvSec tvNsec : Int)
  deriving DecidableEq, Repr

/-- `request_t` -/
structure Request where
  workFn : WorkFn
  arg : TaskArg
  deriving DecidableEq, Repr

/-- `random_sleep_time_in_range`, with what `rand()` returned. -/
def randomSleepTimeInRange (minMs maxMs : Int) (rand : Nat) : TaskArg :=
  let (minMs, maxMs) := if minMs > maxMs ∨ minMs < 0 then (0, 0) else (minMs, maxMs)
  let millis := minMs + (rand : Int) % (maxMs - minMs + 1)
  .delay (millis / 1000) (millis % 1000 * 1000000)

/-- What the environment gives one pass of `main`'s loop: the two results of
    `rand()`, and whether the mallocs of the request and of its argument succeed. -/
structure Draw where
  taskRand : Nat
  requestMalloc : Bool
  argMalloc : Bool
  argRand : Nat
  deriving DecidableEq, Repr

/-- `create_request`, with the static `msg_count` before and after. -/
def createRequest (taskType : Nat) (msgCount : Nat) (draw : Draw) : Option Request × Nat :=
  if !draw.requestMalloc then (none, msgCount)
  else match taskType with
    | 0 =>
        if !draw.argMalloc then (none, msgCount)
        else (some ⟨.writeLog, .message ("Log message " ++ toString msgCount)⟩, msgCount + 1)
    | 1 =>
        if !draw.argMalloc then (none, msgCount)
        else (some ⟨.computeSum, .number (draw.argRand % 1000)⟩, msgCount)
    | 2 =>
        if !draw.argMalloc then (none, msgCount)
        else (some ⟨.delayTask, randomSleepTimeInRange 25 250 draw.argRand⟩, msgCount)
    | _ => (none, msgCount)

/-- What `main` passes to `queue_enqueue`, pass by pass. -/
def mainRequests (msgCount : Nat) : List Draw → List (Option Request)
  | [] => []
  | draw :: draws =>
      let (request, msgCount') := createRequest (draw.taskRand % 3) msgCount draw
      request :: mainRequests msgCount' draws

/-- `create_request` yields a request exactly when both its mallocs succeed. -/
theorem createRequest_some_iff (rand msgCount : Nat) (draw : Draw) :
    (createRequest (rand % 3) msgCount draw).1 ≠ none ↔
      draw.requestMalloc = true ∧ draw.argMalloc = true := by
  have task : rand % 3 = 0 ∨ rand % 3 = 1 ∨ rand % 3 = 2 := by omega
  rcases task with h | h | h <;>
    cases request : draw.requestMalloc <;> cases arg : draw.argMalloc <;>
      simp [createRequest, h, request, arg]

theorem mainRequests_nonnull {draws : List Draw} (msgCount : Nat)
    (mallocs : ∀ draw ∈ draws, draw.requestMalloc = true ∧ draw.argMalloc = true) :
    ∀ request ∈ mainRequests msgCount draws, request ≠ none := by
  induction draws generalizing msgCount with
  | nil => simp [mainRequests]
  | cons draw draws ih =>
      intro request member
      rcases List.mem_cons.mp member with rfl | later
      · exact (createRequest_some_iff _ _ draw).mpr (mallocs draw (by simp))
      · exact ih _ (fun d inside => mallocs d (List.mem_cons_of_mem _ inside)) request later

/-! ## The threads -/

inductive Thread (N : Nat) where
  | main
  | worker (i : Fin N)
  deriving DecidableEq

/-- Where `main` stands. -/
inductive MainPc (α : Type) where
  /-- In the loop of `thread_pool_init`, before creating worker `i`. -/
  | creating (i : Nat) (requests : List (Option α))
  /-- In the enqueue loop. -/
  | producing (requests : List (Option α))
  /-- Past `queue_close`, in the loop of `thread_pool_destroy` before joining worker `i`. -/
  | joining (i : Nat)
  /-- `thread_pool_destroy` has returned. -/
  | destroyed
  deriving DecidableEq

/-- Where a worker stands in `do_work`. -/
inductive WorkerPc (α : Type) where
  | unborn
  /-- At or in `queue_dequeue`. -/
  | dequeuing
  /-- Before `req->work_fn(req->arg)`. -/
  | calling (req : α)
  /-- Before `free(req)`. -/
  | freeing (req : α)
  /-- Past the loop. -/
  | exited
  deriving DecidableEq

/-- The server with `N` workers. -/
structure Server (N : Nat) (α : Type) where
  mon : State (Thread N) (Mem α) (Section α) (Returned α)
  main : MainPc α
  worker : Fin N → WorkerPc α
  enqueued : List (Option α)
  taken : List (Fin N × α)
  called : List (Fin N × α)
  freed : List (Fin N × α)

/-- Who moves and how. -/
inductive Act (N : Nat) where
  | create
  | produce (node : Addr)
  | close
  | join
  | fetch (i : Fin N)
  | call (i : Fin N)
  | free (i : Fin N)
  | acquire (t : Thread N)
  | broadcast (t : Thread N)
  | spurious (t : Thread N)

variable {N : Nat} {α : Type}

/-- The element an operation puts into the queue. -/
def linkedBy : Option (Fifo.Op (Option α)) → List (Option α)
  | some (.enqueue data) => [data]
  | _ => []

@[simp] theorem linkedBy_none : linkedBy (none : Option (Fifo.Op (Option α))) = [] := rfl
@[simp] theorem linkedBy_enqueue (data : Option α) : linkedBy (some (.enqueue data)) = [data] := rfl
@[simp] theorem linkedBy_close : linkedBy (some .close : Option (Fifo.Op (Option α))) = [] := rfl

/-- The element that the section of a call in progress links. -/
def linking (p : Phase (Section α) (Returned α)) : List (Option α) :=
  linkedBy (p.op?.map Section.abstract)

namespace Server

/-- What a worker does with the result of its dequeue: NULL ends the loop, a
    request is worked on, and without a result it is still in the dequeue. -/
def deliver (s : Server N α) (i : Fin N) : Phase (Section α) (Returned α) → Server N α
  | .idle (some (.pointer (some req))) =>
      { s with
        worker := Function.update s.worker i (.calling req)
        taken := s.taken ++ [(i, req)] }
  | .idle (some (.pointer none)) =>
      { s with worker := Function.update s.worker i .exited }
  | _ => s

end Server

@[simp] theorem Server.deliver_mon (s : Server N α) (i : Fin N)
    (p : Phase (Section α) (Returned α)) : (s.deliver i p).mon = s.mon := by
  unfold deliver
  split <;> rfl

/-- One thread of the server moves. -/
inductive ServerStep : Server N α → Act N → Server N α → Prop where
  | create {s : Server N α} {i requests} (more : i < N) : s.main = .creating i requests →
      ServerStep s .create
        { s with
          main := .creating (i + 1) requests
          worker := Function.update s.worker ⟨i, more⟩ .dequeuing }
  | created {s : Server N α} {i requests} : ¬ i < N → s.main = .creating i requests →
      ServerStep s .create { s with main := .producing requests }
  | produce {s : Server N α} {request requests n mon} :
      s.main = .producing (request :: requests) →
      Step queueCode s.mon (.enter .main (.enqueue n request)) mon →
      ServerStep s (.produce n) { s with mon := mon, main := .producing requests }
  | close {s : Server N α} {mon} : s.main = .producing [] →
      Step queueCode s.mon (.enter .main .close) mon →
      ServerStep s .close { s with mon := mon, main := .joining 0 }
  | join {s : Server N α} {i last} (more : i < N) : s.main = .joining i →
      s.mon.phase .main = .idle last → s.worker ⟨i, more⟩ = .exited →
      ServerStep s .join { s with main := .joining (i + 1) }
  | joined {s : Server N α} {i last} : ¬ i < N → s.main = .joining i →
      s.mon.phase .main = .idle last →
      ServerStep s .join { s with main := .destroyed }
  | fetch {s : Server N α} {i mon} : s.worker i = .dequeuing →
      Step queueCode s.mon (.enter (.worker i) .dequeue) mon →
      ServerStep s (.fetch i) { s with mon := mon }
  | call {s : Server N α} {i req} : s.worker i = .calling req →
      ServerStep s (.call i)
        { s with
          worker := Function.update s.worker i (.freeing req)
          called := s.called ++ [(i, req)] }
  | free {s : Server N α} {i req} : s.worker i = .freeing req →
      ServerStep s (.free i)
        { s with
          worker := Function.update s.worker i .dequeuing
          freed := s.freed ++ [(i, req)] }
  | acquireMain {s : Server N α} {mon} : Step queueCode s.mon (.acquire .main) mon →
      ServerStep s (.acquire .main)
        { s with mon := mon, enqueued := s.enqueued ++ linking (s.mon.phase .main) }
  | acquireWorker {s : Server N α} {i mon} : Step queueCode s.mon (.acquire (.worker i)) mon →
      ServerStep s (.acquire (.worker i))
        (Server.deliver { s with mon := mon } i (mon.phase (.worker i)))
  | broadcast {s : Server N α} {t mon} : Step queueCode s.mon (.broadcast t) mon →
      ServerStep s (.broadcast t) { s with mon := mon }
  | spurious {s : Server N α} {t mon} : Step queueCode s.mon (.spurious t) mon →
      ServerStep s (.spurious t) { s with mon := mon }

/-- The server from `queue_init` on, with the requests `main` is to enqueue. -/
def requestServer (N : Nat) (requests : List (Option α)) : System (Server N α) (Act N) where
  init s := ∃ heap header, s =
    { mon := ⟨queueInit heap header, fun _ => .idle none⟩
      main := .creating 0 requests
      worker := fun _ => .unborn
      enqueued := []
      taken := []
      called := []
      freed := [] }
  step := ServerStep

/-- The part of a history that belongs to one worker, in its order. -/
def byWorker (i : Fin N) (history : List (Fin N × α)) : List α :=
  history.filterMap fun entry => if entry.1 = i then some entry.2 else none

@[simp] theorem byWorker_append (i : Fin N) (l l' : List (Fin N × α)) :
    byWorker i (l ++ l') = byWorker i l ++ byWorker i l' := by
  simp [byWorker]

@[simp] theorem byWorker_self (i : Fin N) (req : α) : byWorker i [(i, req)] = [req] := by
  simp [byWorker]

theorem byWorker_ne {i j : Fin N} (ne : j ≠ i) (req : α) : byWorker i [(j, req)] = [] := by
  simp [byWorker, ne]

end SysProg.M9
