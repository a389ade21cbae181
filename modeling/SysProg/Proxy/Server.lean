import Mathlib.Logic.Function.Basic
import SysProg.Lib.Transition
import SysProg.Proxy.Handler

/-! # The proxy

`main`'s accept loop and shutdown, and the workers of its thread pool, over the
descriptor table that all threads of the process share.  The system starts
where `main` enters the loop.  The queue and the pool are those of the library
the proxy is linked with: a first-in first-out queue whose dequeue waits while
it is empty and open, and workers that run requests until it is closed and
empty.  A call of any thread is one step, with whatever answer the operating
system may give.
-/

namespace SysProg.Proxy

open Interaction Transition

/-! ## Descriptors -/

/-- What an open descriptor denotes.  Connections carry the number of the pass
    of the accept loop that accepted them. -/
inductive Open where
  /-- Opened before the loop, as the listening socket was. -/
  | earlier
  /-- The client of connection `k`. -/
  | client (k : Nat)
  /-- A socket that the worker at connection `k` opened. -/
  | target (k : Nat)
  deriving DecidableEq, Repr

abbrev Table := Int → Option Open

/-- The lowest descriptor that is not open. -/
def Lowest (table : Table) (fd : Int) : Prop :=
  0 ≤ fd ∧ table fd = none ∧ ∀ fd', 0 ≤ fd' → fd' < fd → table fd' ≠ none

variable {A : Type}

/-- Which answers the operating system may give to a call, and what becomes of
    the table; a descriptor that the call opens denotes `new`.  Any call may
    fail; one on a descriptor that is not open must. -/
def Answers (new : Open) (table : Table) : (e : Call A) → e.Answer → Table → Prop
  | .accept, fd, table' | .socket _, fd, table' =>
      (fd < 0 ∧ table' = table) ∨
        (Lowest table fd ∧ table' = Function.update table fd (some new))
  | .close fd, _, table' => table' = Function.update table fd none
  | .recv fd size, r, table' => table' = table ∧
      ∀ bytes, r = some bytes → table fd ≠ none ∧ bytes.length ≤ size
  | .send fd bytes _, r, table' => table' = table ∧
      ∀ n, r = some n → table fd ≠ none ∧ n ≤ bytes.length
  | .connect fd _ _, r, table' => table' = table ∧ (r = true → table fd ≠ none)
  | .getaddrinfo .., r, table' => table' = table ∧ r ≠ some []
  | _, _, table' => table' = table

/-! ## Threads -/

/-- A queued request: the cell that is its argument, and whose connection it is. -/
structure Job where
  arg : Cell
  conn : Nat

/-- How the process ends. -/
inductive Ending where
  /-- All threads have left: the workers, and `main` by its last `pthread_exit`. -/
  | shutdown
  /-- A thread stopped it. -/
  | stopped (h : Stop)
  /-- SIGPIPE, which has its default action. -/
  | brokenPipe
  deriving DecidableEq

/-- Where `main` stands. -/
inductive MainPc (A : Type) where
  /-- Before reading `stop`. -/
  | checking
  /-- In a pass of the loop, with what is left of it. -/
  | passing (rest : ProxyProg A (Option Cell))
  /-- Before `close(sockfd)`. -/
  | closing
  /-- Before `queue_close`. -/
  | closingQueue
  /-- In `thread_pool_destroy`, before joining worker `i`. -/
  | joining (i : Nat)
  | exited

/-- Where a worker stands. -/
inductive WorkerPc (A : Type) where
  /-- At or in `queue_dequeue`. -/
  | idle
  /-- Handling connection `conn`, whose descriptor is `client`, with what is
      left of it. -/
  | handling (conn : Nat) (client : Int) (rest : ProxyProg A Unit)
  | exited

/-- The connection a worker is at. -/
def WorkerPc.conn : WorkerPc A → Option Nat
  | .handling k _ _ => some k
  | _ => none

/-- The proxy with `N` workers.  Which connections are finished is history. -/
structure Server (N : Nat) (A : Type) where
  table : Table
  sockfd : Int
  queue : List Job
  closed : Bool
  main : MainPc A
  worker : Fin N → WorkerPc A
  stop : Bool
  /-- How many passes of the loop have begun. -/
  passes : Nat
  ended : Option Ending
  finished : List Nat

/-- Who moves, and with which answer. -/
inductive Act (N : Nat) (A : Type) where
  | sigint
  | main
  | mainCalls (e : Call A) (r : e.Answer)
  | worker (i : Fin N)
  | calls (i : Fin N) (e : Call A) (r : e.Answer)
  /-- A `send` without `MSG_NOSIGNAL` on a broken connection. -/
  | pipe (i : Fin N)

/-- What a call puts into the queue. -/
def handedOver (k : Nat) : Call A → List Job
  | .enqueue arg => [⟨arg, k⟩]
  | _ => []

variable {N : Nat}

namespace Server

def setWorker (s : Server N A) (i : Fin N) (pc : WorkerPc A) : Server N A :=
  { s with worker := Function.update s.worker i pc }

theorem worker_setWorker (s : Server N A) (i j : Fin N) (pc : WorkerPc A) :
    (s.setWorker i pc).worker j = if j = i then pc else s.worker j :=
  Function.update_apply s.worker i pc j

/-- The worker is the one that moved, or stands where it stood. -/
theorem worker_cases {s : Server N A} {i j : Fin N} {pc pc' : WorkerPc A}
    (at_ : (s.setWorker i pc).worker j = pc') :
    (j = i ∧ pc = pc') ∨ (j ≠ i ∧ s.worker j = pc') := by
  rw [worker_setWorker] at at_
  split at at_
  · rename_i here
    exact .inl ⟨here, at_⟩
  · rename_i other
    exact .inr ⟨other, at_⟩

end Server

/-- One thread moves, or a signal comes. -/
inductive ServerStep : Server N A → Act N A → Server N A → Prop where
  | sigint {s : Server N A} : ServerStep s .sigint { s with stop := true }
  | enterPass {s : Server N A} : s.main = .checking → s.stop = false →
      ServerStep s .main { s with main := .passing acceptPass, passes := s.passes + 1 }
  | leaveLoop {s : Server N A} : s.main = .checking → s.stop = true →
      ServerStep s .main { s with main := .closing }
  | mainCalls {s : Server N A} {e rest r table} : s.main = .passing (.call e rest) →
      Answers (.client s.passes) s.table e r table →
      ServerStep s (.mainCalls e r)
        { s with
          table := table
          queue := s.queue ++ handedOver s.passes e
          main := .passing (rest r) }
  | endPass {s : Server N A} {arg} : s.main = .passing (.ret arg) →
      ServerStep s .main { s with main := .checking }
  | mainStops {s : Server N A} {h} : s.main = .passing (.halt h) →
      ServerStep s .main { s with ended := some (.stopped h) }
  | close {s : Server N A} : s.main = .closing →
      ServerStep s .main
        { s with table := Function.update s.table s.sockfd none, main := .closingQueue }
  | closeQueue {s : Server N A} : s.main = .closingQueue →
      ServerStep s .main { s with closed := true, main := .joining 0 }
  | join {s : Server N A} {i} (more : i < N) : s.main = .joining i →
      s.worker ⟨i, more⟩ = .exited →
      ServerStep s .main { s with main := .joining (i + 1) }
  | joined {s : Server N A} {i} : ¬ i < N → s.main = .joining i →
      ServerStep s .main { s with main := .exited, ended := some .shutdown }
  | dequeue {s : Server N A} {i job jobs} (frame : Frame) : s.worker i = .idle →
      s.queue = job :: jobs →
      ServerStep s (.worker i)
        { s.setWorker i
            (.handling job.conn job.arg.value (handleClientRequestThread frame job.arg)) with
          queue := jobs }
  | leave {s : Server N A} {i} : s.worker i = .idle → s.queue = [] → s.closed = true →
      ServerStep s (.worker i) (s.setWorker i .exited)
  | calls {s : Server N A} {i k c e rest r table} : s.worker i = .handling k c (.call e rest) →
      Answers (.target k) s.table e r table →
      ServerStep s (.calls i e r)
        { s.setWorker i (.handling k c (rest r)) with
          table := table, queue := s.queue ++ handedOver k e }
  | pipe {s : Server N A} {i k c fd bytes rest} :
      s.worker i = .handling k c (.call (.send fd bytes false) rest) → s.table fd ≠ none →
      ServerStep s (.pipe i) { s with ended := some .brokenPipe }
  | finish {s : Server N A} {i k c} : s.worker i = .handling k c (.ret ()) →
      ServerStep s (.worker i) { s.setWorker i .idle with finished := s.finished ++ [k] }
  | workerStops {s : Server N A} {i k c h} : s.worker i = .handling k c (.halt h) →
      ServerStep s (.worker i) { s with ended := some (.stopped h) }

/-- The proxy from the accept loop on, until the process ends. -/
def proxyServer (N : Nat) (A : Type) : System (Server N A) (Act N A) where
  init s := ∃ table sockfd, (∀ fd, table fd = none ∨ table fd = some .earlier) ∧
    table sockfd = some .earlier ∧ s =
      { table := table
        sockfd := sockfd
        queue := []
        closed := false
        main := .checking
        worker := fun _ => .idle
        stop := false
        passes := 0
        ended := none
        finished := [] }
  step s l s' := s.ended = none ∧ ServerStep s l s'

/-! ## Conditions on a run -/

/-- Which answers a run gives to `main` and to the worker of the client `c`,
    whether a signal may come from a broken connection, and how a thread may
    stop the process. -/
structure Conditions (A : Type) where
  main : (e : Call A) → e.Answer → Prop
  worker : Int → (e : Call A) → e.Answer → Prop
  broken : Prop
  stops : Stop → Prop

/-- The step meets the conditions. -/
def Conditions.Meets (cond : Conditions A) (s : Server N A) : Act N A → Prop
  | .mainCalls e r => cond.main e r
  | .calls i e r => ∀ k c rest, s.worker i = .handling k c rest → cond.worker c e r
  | .pipe _ => cond.broken
  | _ => True

end SysProg.Proxy
