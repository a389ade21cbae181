import Mathlib.Algebra.BigOperators.Fin
import Mathlib.Algebra.Order.BigOperators.Group.Finset
import SysProg.M9.Orderly

/-! # The work that is left for the request server

Every step of the server but a spurious wakeup uses up work: a request, a
statement of a thread, a wakeup that a broadcast hands out.
-/

namespace SysProg.M9

open CString Heap Monitor Fifo Transition

variable {N : Nat} {α : Type}

/-! ## The work that is left -/

/-- The steps from a position in a work function to its end. -/
def TaskPc.weight : TaskPc → Nat
  | .ready => 6
  | .logging _ => 5
  | .opening _ => 4
  | .writing _ => 3
  | .unlocking => 2
  | .freeing => 1
  | .returned => 0

/-- The bytes that `fclose` has yet to write. -/
def TaskPc.bytes : TaskPc → Nat
  | .writing rest => rest.length
  | _ => 0

@[simp] theorem TaskPc.bytes_writing (rest : Bytes) :
    (TaskPc.writing rest).bytes = rest.length := rfl

section weights

variable {ω : Type}

/-- How far a worker is in a dequeue.  A sleeper has one step less before it
    than after a wakeup. -/
def fetchWeight : Phase ω (Returned α) → Nat
  | .idle _ | .signalling _ => 3
  | .entering _ | .woken _ => 2
  | .asleep _ => 1

/-- A worker's part: enough to wake all the others when it leaves. -/
def workerWeight (N : Nat) (w : WorkerPc α) (p : Phase ω (Returned α)) (k : TaskPc) : Nat :=
  match w with
  | .exited => 0
  | .dequeuing => N + 2 + fetchWeight p
  | .freeing _ => N + 6
  | .calling _ => N + 7 + k.weight
  | .unborn => N + 6

/-- The call that `main` is in, with its broadcast and the element it links. -/
def callWeight (N : Nat) : Phase ω (Returned α) → Nat
  | .idle _ | .asleep _ => 0
  | .signalling _ => N + 1
  | .entering _ | .woken _ => N + 12

@[simp] theorem callWeight_idle (last) : callWeight N (.idle last : Phase ω (Returned α)) = 0 := rfl
@[simp] theorem callWeight_entering (op : ω) :
    callWeight N (.entering op : Phase ω (Returned α)) = N + 12 := rfl
@[simp] theorem callWeight_signalling (r) :
    callWeight N (.signalling r : Phase ω (Returned α)) = N + 1 := rfl

@[simp] theorem fetchWeight_asleep (op : ω) :
    fetchWeight (.asleep op : Phase ω (Returned α)) = 1 := rfl

theorem callWeight_atLock {p : Phase ω (Returned α)} {op : ω} (lock : p.AtLock op) :
    callWeight N p = N + 12 := by
  rcases lock with rfl | rfl <;> rfl

theorem fetchWeight_atLock {p : Phase ω (Returned α)} {op : ω} (lock : p.AtLock op) :
    fetchWeight p = 2 := by
  rcases lock with rfl | rfl <;> rfl

def MainPc.weight (N : Nat) : MainPc α → Nat
  | .creating i requests => N - i + 1 + (N + 13) * requests.length + (2 * N + 14)
  | .producing requests => (N + 13) * requests.length + (2 * N + 14)
  | .joining i => N - i + 1
  | .destroyed => 0

/-- All the work that is left, apart from the bytes of log lines. -/
def weight (main : MainPc α) (worker : Fin N → WorkerPc α) (phase : Thread N → Phase ω (Returned α))
    (loc : Fin N → TaskPc) (size : Nat) : Nat :=
  main.weight N + callWeight N (phase .main) +
    ∑ i, workerWeight N (worker i) (phase (.worker i)) (loc i) + 10 * size

def Server.weight (s : Server N α) (loc : Fin N → TaskPc) : Nat :=
  M9.weight s.main s.worker s.mon.phase loc s.mon.shared.que.size.toNat

theorem fetchWeight_map {ω' : Type} (f : ω → ω') (p : Phase ω (Returned α)) :
    fetchWeight (p.map f) = fetchWeight p := by
  cases p <;> rfl

theorem callWeight_map {ω' : Type} (f : ω → ω') (p : Phase ω (Returned α)) :
    callWeight N (p.map f) = callWeight N p := by
  cases p <;> rfl

theorem fetchWeight_wake (p : Phase ω (Returned α)) : fetchWeight p.wake ≤ fetchWeight p + 1 := by
  cases p <;> simp [Phase.wake, fetchWeight]

theorem workerWeight_wake (w : WorkerPc α) (p : Phase ω (Returned α)) (k : TaskPc) :
    workerWeight N w p.wake k ≤ workerWeight N w p k + 1 := by
  have woken := fetchWeight_wake p
  cases w <;> simp only [workerWeight] <;> omega

/-- The weight may be read off the abstract queue. -/
theorem Server.weight_eq {s : Server N α} {a : FifoState N α} (sim : Sim s.mon a)
    (loc : Fin N → TaskPc) :
    s.weight loc = M9.weight s.main s.worker a.phase loc a.shared.items.length := by
  obtain ⟨addrs, rep, _⟩ := sim.holds.nodes
  have workers : ∀ w p k, workerWeight N w (p.map Section.abstract) k =
      workerWeight N w (p : Phase (Section α) (Returned α)) k := by
    intro w p k
    cases w <;> simp [workerWeight, fetchWeight_map]
  simp [Server.weight, M9.weight, sim.phases, rep.count, callWeight_map, workers]

/-- Only one summand changes. -/
theorem sum_change {f g : Fin N → Nat} {i : Fin N} (others : ∀ j, j ≠ i → g j = f j) :
    ∑ j, g j + f i = ∑ j, f j + g i := by
  have rest : ∑ j ∈ Finset.univ.erase i, g j = ∑ j ∈ Finset.univ.erase i, f j :=
    Finset.sum_congr rfl fun j inside => others j (Finset.ne_of_mem_erase inside)
  have before := Finset.add_sum_erase _ f (Finset.mem_univ i)
  have after := Finset.add_sum_erase _ g (Finset.mem_univ i)
  omega

/-- One summand changes, and the others go up by at most one. -/
theorem sum_change_waking {f g : Fin N → Nat} {i : Fin N} (others : ∀ j, j ≠ i → g j ≤ f j + 1) :
    ∑ j, g j + f i ≤ ∑ j, f j + g i + N := by
  have rest : ∑ j ∈ Finset.univ.erase i, g j ≤ ∑ j ∈ Finset.univ.erase i, (f j + 1) :=
    Finset.sum_le_sum fun j inside => others j (Finset.ne_of_mem_erase inside)
  have card : (Finset.univ.erase i).card ≤ N := by simp
  have before := Finset.add_sum_erase _ f (Finset.mem_univ i)
  have after := Finset.add_sum_erase _ g (Finset.mem_univ i)
  simp only [Finset.sum_add_distrib, Finset.sum_const, smul_eq_mul, mul_one] at rest
  omega

theorem sum_le_waking {f g : Fin N → Nat} (all : ∀ j, g j ≤ f j + 1) : ∑ j, g j ≤ ∑ j, f j + N := by
  have sums : ∑ j, g j ≤ ∑ j, (f j + 1) := Finset.sum_le_sum fun j _ => all j
  simpa [Finset.sum_add_distrib] using sums

theorem fetchWeight_le (p : Phase ω (Returned α)) : fetchWeight p ≤ 3 := by
  cases p <;> simp [fetchWeight]

end weights

/-! ## Every step uses up work -/

section lighter

variable {s : Server N α} {a a' : FifoState N α} {loc loc' : Fin N → TaskPc} {i : Fin N}
  {w : WorkerPc α} {main : MainPc α} {mon : State (Thread N) (Mem α) (Section α) (Returned α)}
  {enqueued : List (Option α)} {taken called freed : List (Fin N × α)}

/-- What is left apart from the workers. -/
def restWeight (N : Nat) (main : MainPc α) (a : FifoState N α) : Nat :=
  main.weight N + callWeight N (a.phase .main) + 10 * a.shared.items.length

/-- `main` moves. -/
theorem lighter_main (sim : Sim s.mon a) (sim' : Sim mon a')
    (workers : ∀ i, a'.phase (.worker i) = a.phase (.worker i))
    (less : restWeight N main a' < restWeight N s.main a) :
    Server.weight ⟨mon, main, s.worker, enqueued, taken, called, freed⟩ loc < s.weight loc := by
  rw [s.weight_eq sim, Server.weight_eq (show Sim (Server.mon ⟨mon, main, s.worker, enqueued,
    taken, called, freed⟩) a' from sim')]
  simp only [restWeight] at less
  simp only [M9.weight, workers]
  omega

/-- `main` wakes the workers. -/
theorem lighter_waking (sim : Sim s.mon a) (sim' : Sim mon a')
    (workers : ∀ i, a'.phase (.worker i) = (a.phase (.worker i)).wake)
    (less : restWeight N main a' + N < restWeight N s.main a) :
    Server.weight ⟨mon, main, s.worker, enqueued, taken, called, freed⟩ loc < s.weight loc := by
  rw [s.weight_eq sim, Server.weight_eq (show Sim (Server.mon ⟨mon, main, s.worker, enqueued,
    taken, called, freed⟩) a' from sim')]
  have sums := sum_le_waking fun i => workerWeight_wake (s.worker i) (a.phase (.worker i)) (loc i)
    (N := N)
  simp only [restWeight] at less
  simp only [M9.weight, workers]
  omega

/-- A worker moves. -/
theorem lighter_worker (sim : Sim s.mon a) (sim' : Sim mon a')
    (others : ∀ j, j ≠ i → a'.phase (.worker j) = a.phase (.worker j) ∧ loc' j = loc j)
    (less : workerWeight N w (a'.phase (.worker i)) (loc' i) + restWeight N main a' <
      workerWeight N (s.worker i) (a.phase (.worker i)) (loc i) + restWeight N s.main a) :
    Server.weight ⟨mon, main, Function.update s.worker i w, enqueued, taken, called, freed⟩ loc' <
      s.weight loc := by
  rw [s.weight_eq sim, Server.weight_eq (show Sim (Server.mon ⟨mon, main,
    Function.update s.worker i w, enqueued, taken, called, freed⟩) a' from sim')]
  have sums := sum_change (i := i)
    (f := fun j => workerWeight N (s.worker j) (a.phase (.worker j)) (loc j))
    (g := fun j => workerWeight N (Function.update s.worker i w j) (a'.phase (.worker j)) (loc' j))
    fun j other => by simp [other, others j other]
  simp only [Function.update_self] at sums
  simp only [restWeight] at less
  simp only [M9.weight]
  omega

/-- A worker moves and wakes the others. -/
theorem lighter_worker_waking (sim : Sim s.mon a) (sim' : Sim mon a')
    (others : ∀ j, j ≠ i → a'.phase (.worker j) = (a.phase (.worker j)).wake)
    (less : workerWeight N w (a'.phase (.worker i)) (loc i) + N + restWeight N main a' <
      workerWeight N (s.worker i) (a.phase (.worker i)) (loc i) + restWeight N s.main a) :
    Server.weight ⟨mon, main, Function.update s.worker i w, enqueued, taken, called, freed⟩ loc <
      s.weight loc := by
  rw [s.weight_eq sim, Server.weight_eq (show Sim (Server.mon ⟨mon, main,
    Function.update s.worker i w, enqueued, taken, called, freed⟩) a' from sim')]
  have sums := sum_change_waking (i := i)
    (f := fun j => workerWeight N (s.worker j) (a.phase (.worker j)) (loc j))
    (g := fun j => workerWeight N (Function.update s.worker i w j) (a'.phase (.worker j)) (loc j))
    fun j other => by
      rw [Function.update_of_ne other, others j other]
      exact workerWeight_wake _ _ _
  simp only [Function.update_self] at sums
  simp only [restWeight] at less
  simp only [M9.weight]
  omega

/-- A worker moves inside the monitor, or in its work function. -/
theorem lighter_inside (sim : Sim s.mon a) (sim' : Sim mon a')
    (others : ∀ j, j ≠ i → a'.phase (.worker j) = a.phase (.worker j) ∧ loc' j = loc j)
    (less : workerWeight N (s.worker i) (a'.phase (.worker i)) (loc' i) + restWeight N main a' <
      workerWeight N (s.worker i) (a.phase (.worker i)) (loc i) + restWeight N s.main a) :
    Server.weight ⟨mon, main, s.worker, enqueued, taken, called, freed⟩ loc' < s.weight loc := by
  have moved : Server.weight ⟨mon, main, Function.update s.worker i (s.worker i), enqueued, taken,
      called, freed⟩ loc' < s.weight loc := lighter_worker sim sim' others less
  rwa [Function.update_eq_self] at moved

/-- A section of `main`. -/
theorem lighter_acquireMain {plan : List (Option α)} (orderly : Orderly plan s a)
    (sim' : Sim mon a') (ran : Step fifoCode a (.acquire .main) a') :
    Server.weight { s with mon := mon, enqueued := enqueued } loc < s.weight loc := by
  cases ran with
  | @leave _ op shared r lock ran | @leaveWaking _ op shared r lock ran =>
      have own := orderly.calls.own _ op lock.op?
      cases op with
      | enqueue x => simp [fifoCode] at ran
      | close => simp [fifoCode] at ran
      | dequeue => exact absurd rfl own
  | @leaveOwing _ op shared r lock ran =>
      have own := orderly.calls.own _ op lock.op?
      have weight := callWeight_atLock lock (N := N)
      refine lighter_main orderly.sim sim' (fun _ => by simp) ?_
      cases op with
      | dequeue => exact absurd rfl own
      | enqueue x =>
          simp only [fifoCode, Option.some.injEq, Exit.leaveOwing.injEq] at ran
          obtain ⟨rfl, _⟩ := ran
          simp only [restWeight, weight, callWeight_signalling, Function.update_self,
            List.length_append, List.length_singleton]
          omega
      | close =>
          simp only [fifoCode, Option.some.injEq, Exit.leaveOwing.injEq] at ran
          obtain ⟨rfl, _⟩ := ran
          simp only [restWeight, weight, callWeight_signalling, Function.update_self]
          omega
  | @wait _ op lock ran =>
      have own := orderly.calls.own _ op lock.op?
      cases op with
      | enqueue x => simp [fifoCode] at ran
      | close => simp [fifoCode] at ran
      | dequeue => exact absurd rfl own

/-- A section of a dequeue. -/
theorem lighter_dequeue {plan : List (Option α)} (orderly : Orderly plan s a) (steady : Steady s)
    (atCall : ∀ i, s.worker i = .dequeuing → loc i = .ready)
    (ran : Step queueCode s.mon (.acquire (.worker i)) mon) :
    Server.weight (Server.deliver { s with mon := mon } i (mon.phase (.worker i))) loc <
      s.weight loc := by
  obtain ⟨a', ran', sim'⟩ := orderly.sim.step ran
  have phase : (mon.phase (.worker i)).map Section.abstract = a'.phase (.worker i) := by
    rw [sim'.phases]
  obtain ⟨op, inside, _⟩ := ran.op?_acquire
  have here := steady.op i op inside
  cases ran' with
  | @leave _ op shared r lock ran =>
      obtain rfl : op = .dequeue := orderly.calls.own _ op lock.op?
      have weight := fetchWeight_atLock lock
      cases items : a.shared.items with
      | nil => cases closed : a.shared.closed <;> simp [fifoCode, items, closed] at ran
      | cons x xs =>
          simp only [fifoCode, items, Option.some.injEq, Exit.leave.injEq] at ran
          obtain ⟨rfl, rfl⟩ := ran
          simp only [Function.update_self, Phase.map_eq_idle] at phase
          rw [phase]
          cases x with
          | some req =>
              refine lighter_worker orderly.sim sim' (fun j other => ⟨by simp [other], rfl⟩) ?_
              simp [workerWeight, restWeight, here, atCall i here, TaskPc.weight, items, weight]
              omega
          | none =>
              refine lighter_worker orderly.sim sim' (fun j other => ⟨by simp [other], rfl⟩) ?_
              simp [workerWeight, restWeight, here, items]
              omega
  | @leaveWaking _ op shared r lock ran =>
      obtain rfl : op = .dequeue := orderly.calls.own _ op lock.op?
      have weight := fetchWeight_atLock lock
      cases items : a.shared.items with
      | cons x xs => simp [fifoCode, items] at ran
      | nil =>
          cases closed : a.shared.closed with
          | false => simp [fifoCode, items, closed] at ran
          | true =>
              simp only [fifoCode, items, closed, Option.some.injEq, Exit.leaveWaking.injEq] at ran
              obtain ⟨rfl, rfl⟩ := ran
              simp only [Function.update_self, Phase.map_eq_idle] at phase
              rw [phase]
              have awake : (a.phase .main).wake = a.phase .main :=
                Phase.wake_eq_self fun op asleep => orderly.calls.sleeps _ op asleep rfl
              refine lighter_worker_waking orderly.sim sim' (fun j other => by simp [other]) ?_
              simp [workerWeight, restWeight, here, items, weight, awake]
              omega
  | @leaveOwing _ op shared r lock ran =>
      obtain rfl : op = .dequeue := orderly.calls.own _ op lock.op?
      cases items : a.shared.items with
      | nil => cases closed : a.shared.closed <;> simp [fifoCode, items, closed] at ran
      | cons x xs => simp [fifoCode, items] at ran
  | @wait _ op lock ran =>
      have weight := fetchWeight_atLock lock
      simp only [Function.update_self] at phase
      obtain ⟨op', asleep⟩ := Phase.map_eq_asleep phase
      rw [asleep]
      refine lighter_inside orderly.sim sim' (i := i) (fun j other => ⟨by simp [other], rfl⟩) ?_
      simp [workerWeight, restWeight, here, weight]

/-- Every step of the server but a spurious wakeup, and but a return, which the
    work function has to reach first. -/
theorem lighter_step {plan : List (Option α)} {act s'} (orderly : Orderly plan s a)
    (steady : Steady s) (atCall : ∀ i, (∀ req, s.worker i ≠ .calling req) → loc i = .ready)
    (taken : ServerStep s act s') (real : ∀ t, act ≠ .spurious t) (other : ∀ i, act ≠ .call i) :
    s'.weight loc < s.weight loc := by
  cases taken with
  | @create i requests more at_ =>
      have fresh := steady.unborn i requests at_ ⟨i, more⟩ le_rfl
      have phase := fetchWeight_le (a.phase (.worker ⟨i, more⟩))
      refine lighter_worker orderly.sim orderly.sim (fun j _ => ⟨rfl, rfl⟩) ?_
      simp only [workerWeight, restWeight, fresh, at_, MainPc.weight]
      omega
  | @created i requests done at_ =>
      refine lighter_main orderly.sim orderly.sim (fun _ => rfl) ?_
      simp only [restWeight, at_, MainPc.weight]
      omega
  | @produce request requests n mon at_ ran =>
      obtain ⟨a', ran', sim'⟩ := orderly.sim.step ran
      cases ran' with
      | enter outside work =>
          cases work
          refine lighter_main orderly.sim sim' (fun _ => by simp) ?_
          simp only [restWeight, at_, MainPc.weight, outside, callWeight_idle,
            callWeight_entering, Function.update_self,
            List.length_cons, mul_add]
          omega
  | close at_ ran =>
      obtain ⟨a', ran', sim'⟩ := orderly.sim.step ran
      cases ran' with
      | enter outside work =>
          cases work
          refine lighter_main orderly.sim sim' (fun _ => by simp) ?_
          simp only [restWeight, at_, MainPc.weight, outside, callWeight_idle,
            callWeight_entering, Function.update_self]
          omega
  | join more at_ quiet exited =>
      refine lighter_main orderly.sim orderly.sim (fun _ => rfl) ?_
      simp only [restWeight, at_, MainPc.weight]
      omega
  | joined done at_ quiet =>
      refine lighter_main orderly.sim orderly.sim (fun _ => rfl) ?_
      simp only [restWeight, at_, MainPc.weight]
      omega
  | @fetch i mon at_ ran =>
      obtain ⟨a', ran', sim'⟩ := orderly.sim.step ran
      cases ran' with
      | enter outside work =>
          cases work
          refine lighter_inside orderly.sim sim' (i := i) (fun j ne => ⟨by simp [ne], rfl⟩) ?_
          simp [workerWeight, restWeight, at_, outside, fetchWeight]
  | call => exact absurd rfl (other _)
  | @free i req at_ =>
      have phase := fetchWeight_le (a.phase (.worker i))
      refine lighter_worker orderly.sim orderly.sim (fun j _ => ⟨rfl, rfl⟩) ?_
      simp only [workerWeight, restWeight, at_]
      omega
  | acquireMain ran =>
      obtain ⟨a', ran', sim'⟩ := orderly.sim.step ran
      exact lighter_acquireMain orderly sim' ran'
  | @acquireWorker i mon ran =>
      exact lighter_dequeue orderly steady (fun i at_ => atCall i (by simp [at_])) ran
  | @broadcast t mon ran =>
      obtain ⟨a', ran', sim'⟩ := orderly.sim.step ran
      cases ran' with
      | @broadcast _ r owes =>
          obtain rfl := orderly.calls.owes t r owes
          refine lighter_waking orderly.sim sim' (fun _ => by simp) ?_
          simp only [restWeight, owes, callWeight_signalling, callWeight_idle, Function.update_self]
          omega
  | spurious => exact absurd rfl (real _)

end lighter

end SysProg.M9
