import SysProg.M9.RequestServer

/-! # Runs of the request server

One invariant over all interleavings, stated against the abstract queue that
the heap holds.  It assumes that no NULL request is ever enqueued; a NULL taken
from the open queue is what would make a worker leave early.
-/

namespace SysProg.M9

open Heap Monitor Fifo Transition

variable {N : Nat} {α : Type}

/-- The requests `main` has still to pass to `queue_enqueue`. -/
def MainPc.rest : MainPc α → List (Option α)
  | .creating _ requests | .producing requests => requests
  | .joining _ | .destroyed => []

/-- `main` is past `queue_close`. -/
def MainPc.finished : MainPc α → Prop
  | .creating .. | .producing _ => False
  | .joining _ | .destroyed => True

/-- How many workers `main` has joined. -/
def MainPc.joined (N : Nat) : MainPc α → Nat
  | .creating .. | .producing _ => 0
  | .joining i => i
  | .destroyed => N

/-- The request a worker has taken and not yet worked on. -/
def WorkerPc.toCall : WorkerPc α → List α
  | .calling req => [req]
  | _ => []

/-- The request a worker has worked on and not yet freed. -/
def WorkerPc.toFree : WorkerPc α → List α
  | .freeing req => [req]
  | _ => []

abbrev FifoState (N : Nat) (α : Type) :=
  State (Thread N) (Contents (Option α)) (Fifo.Op (Option α)) (Returned α)

structure ServerInv (plan : List (Option α)) (s : Server N α) (a : FifoState N α) : Prop where
  workerOp : ∀ i op, (a.phase (.worker i)).op? = some op →
    op = .dequeue ∧ s.worker i = .dequeuing
  workerQuiet : ∀ i r, a.phase (.worker i) ≠ .signalling r
  mainOp : ∀ op, (a.phase .main).op? = some op →
    (∃ x requests, op = .enqueue x ∧ s.main = .producing requests) ∨
      (op = .close ∧ s.main = .joining 0)
  shut : a.shared.closed = true → s.main.finished ∧ (a.phase .main).op? = none
  planned : plan = s.enqueued ++ linkedBy (a.phase .main).op? ++ s.main.rest
  order : s.enqueued = s.taken.map (fun entry => some entry.2) ++ a.shared.items
  exits : ∀ i, s.worker i = .exited → a.shared.closed = true ∧ a.shared.items = []
  unborn : ∀ i requests, s.main = .creating i requests → ∀ j : Fin N, i ≤ j → s.worker j = .unborn
  joined : ∀ i : Fin N, i < s.main.joined N → s.worker i = .exited
  calls : ∀ i, byWorker i s.taken = byWorker i s.called ++ (s.worker i).toCall
  frees : ∀ i, byWorker i s.called = byWorker i s.freed ++ (s.worker i).toFree

namespace ServerInv

variable {plan : List (Option α)} {s : Server N α} {a a' : FifoState N α}

theorem init {heap header} :
    ServerInv plan
      ({ mon := ⟨queueInit heap header, fun _ => .idle none⟩
         main := .creating 0 plan
         worker := fun _ => .unborn
         enqueued := [], taken := [], called := [], freed := [] } : Server N α)
      ⟨Fifo.empty, fun _ => .idle none⟩ := by
  constructor <;> simp [Fifo.empty, MainPc.rest, MainPc.joined, byWorker,
    WorkerPc.toCall, WorkerPc.toFree]

theorem create {i requests} (inv : ServerInv plan s a) (more : i < N)
    (at_ : s.main = .creating i requests) :
    ServerInv plan
      { s with
        main := .creating (i + 1) requests
        worker := Function.update s.worker ⟨i, more⟩ .dequeuing } a := by
  have fresh := inv.unborn i requests at_ ⟨i, more⟩ (Nat.le_refl i)
  constructor
  · intro j op now
    have := inv.workerOp j op now
    grind
  · exact inv.workerQuiet
  · intro op now
    have := inv.mainOp op now
    grind
  · intro closed
    have := (inv.shut closed).1
    rw [at_] at this
    exact this.elim
  · simpa [at_, MainPc.rest] using inv.planned
  · exact inv.order
  · intro j exited
    apply inv.exits j
    grind
  · grind [inv.unborn]
  · simp [MainPc.joined]
  · intro j
    have := inv.calls j
    grind [WorkerPc.toCall]
  · intro j
    have := inv.frees j
    grind [WorkerPc.toFree]

theorem created {i requests} (at_ : s.main = .creating i requests)
    (inv : ServerInv plan s a) : ServerInv plan { s with main := .producing requests } a := by
  constructor
  · exact inv.workerOp
  · exact inv.workerQuiet
  · intro op now
    have := inv.mainOp op now
    grind
  · intro closed
    have := (inv.shut closed).1
    rw [at_] at this
    exact this.elim
  · simpa [at_, MainPc.rest] using inv.planned
  · exact inv.order
  · exact inv.exits
  · simp
  · simp [MainPc.joined]
  · exact inv.calls
  · exact inv.frees

/-- `main` calls `queue_enqueue`. -/
theorem produce {x requests} (inv : ServerInv plan s a) (at_ : s.main = .producing (x :: requests))
    (idle : ∃ last, a.phase .main = .idle last) {mon} :
    ServerInv plan { s with mon := mon, main := .producing requests }
      ⟨a.shared, Function.update a.phase .main (.entering (.enqueue x))⟩ := by
  obtain ⟨last, idle⟩ := idle
  constructor
  · intro i op now
    exact inv.workerOp i op (by simpa using now)
  · intro i r
    simpa using inv.workerQuiet i r
  · intro op now
    left
    simp at now
    exact ⟨x, requests, now.symm, rfl⟩
  · intro closed
    have := (inv.shut closed).1
    rw [at_] at this
    exact this.elim
  · have planned := inv.planned
    rw [idle, at_] at planned
    simpa [MainPc.rest] using planned
  · exact inv.order
  · exact inv.exits
  · simp
  · simp [MainPc.joined]
  · exact inv.calls
  · exact inv.frees

/-- `main` calls `queue_close`. -/
theorem close (inv : ServerInv plan s a) (at_ : s.main = .producing [])
    (idle : ∃ last, a.phase .main = .idle last) {mon} :
    ServerInv plan { s with mon := mon, main := .joining 0 }
      ⟨a.shared, Function.update a.phase .main (.entering .close)⟩ := by
  obtain ⟨last, idle⟩ := idle
  constructor
  · intro i op now
    exact inv.workerOp i op (by simpa using now)
  · intro i r
    simpa using inv.workerQuiet i r
  · intro op now
    right
    simp at now
    exact ⟨now.symm, rfl⟩
  · intro closed
    have := (inv.shut closed).1
    rw [at_] at this
    exact this.elim
  · have planned := inv.planned
    rw [idle, at_] at planned
    simpa [MainPc.rest] using planned
  · exact inv.order
  · exact inv.exits
  · simp
  · simp [MainPc.joined]
  · exact inv.calls
  · exact inv.frees

/-- `main` joins the next worker, or finds that it has joined them all. -/
theorem join {i main} (inv : ServerInv plan s a) (at_ : s.main = .joining i)
    (idle : ∃ last, a.phase .main = .idle last) (finished : MainPc.finished main)
    (noMore : main.rest = []) (started : ∀ i requests, main ≠ .creating i requests)
    (joined : ∀ j : Fin N, j < main.joined N → s.worker j = .exited) :
    ServerInv plan { s with main := main } a := by
  obtain ⟨last, idle⟩ := idle
  constructor
  · exact inv.workerOp
  · exact inv.workerQuiet
  · simp [idle]
  · intro _
    exact ⟨finished, by simp [idle]⟩
  · have planned := inv.planned
    rw [at_, MainPc.rest] at planned
    rw [noMore]
    exact planned
  · exact inv.order
  · exact inv.exits
  · intro i requests creating
    exact absurd creating (started i requests)
  · exact joined
  · exact inv.calls
  · exact inv.frees

/-- A worker calls `queue_dequeue`. -/
theorem fetch {i} (inv : ServerInv plan s a) (at_ : s.worker i = .dequeuing) {mon} :
    ServerInv plan { s with mon := mon }
      ⟨a.shared, Function.update a.phase (.worker i) (.entering .dequeue)⟩ := by
  constructor
  · intro j op now
    by_cases same : j = i
    · subst same
      simp at now
      exact ⟨now.symm, at_⟩
    · exact inv.workerOp j op (by simpa [same] using now)
  · intro j r
    by_cases same : j = i
    · simp [same]
    · simpa [same] using inv.workerQuiet j r
  · simpa using inv.mainOp
  · simpa using inv.shut
  · simpa using inv.planned
  · exact inv.order
  · exact inv.exits
  · exact inv.unborn
  · exact inv.joined
  · exact inv.calls
  · exact inv.frees

/-- The wakeup of sleepers, and the end of `main`'s own broadcast. -/
theorem wake {r mon} (inv : ServerInv plan s a) (owes : a.phase .main = .signalling r) :
    ServerInv plan { s with mon := mon }
      ⟨a.shared, Function.update (fun u => (a.phase u).wake) .main (.idle (some r))⟩ := by
  constructor
  · intro i op now
    exact inv.workerOp i op (by simpa using now)
  · intro i r'
    simpa using inv.workerQuiet i r'
  · simp
  · intro closed
    exact ⟨(inv.shut closed).1, by simp⟩
  · simpa [owes] using inv.planned
  · exact inv.order
  · exact inv.exits
  · exact inv.unborn
  · exact inv.joined
  · exact inv.calls
  · exact inv.frees

/-- A thread changes phase without changing the call it is in. -/
theorem rephase {t p mon} (inv : ServerInv plan s a) (same : p.op? = (a.phase t).op?)
    (quiet : ∀ r, p ≠ .signalling r) :
    ServerInv plan { s with mon := mon } ⟨a.shared, Function.update a.phase t p⟩ := by
  have ops : ∀ u, (Function.update a.phase t p u).op? = (a.phase u).op? := by
    intro u
    by_cases is : u = t
    · subst is
      simpa using same
    · simp [is]
  constructor
  · intro i op now
    exact inv.workerOp i op (by rwa [ops] at now)
  · intro i r
    by_cases is : .worker i = t
    · subst is
      simpa using quiet r
    · simpa [is] using inv.workerQuiet i r
  · intro op now
    exact inv.mainOp op (by rwa [ops] at now)
  · intro closed
    exact ⟨(inv.shut closed).1, by rw [ops]; exact (inv.shut closed).2⟩
  · rw [ops]
    exact inv.planned
  · exact inv.order
  · exact inv.exits
  · exact inv.unborn
  · exact inv.joined
  · exact inv.calls
  · exact inv.frees

/-- The section of an enqueue. -/
theorem linked {x mon} (inv : ServerInv plan s a) (at_ : (a.phase .main).op? = some (.enqueue x)) :
    ServerInv plan { s with mon := mon, enqueued := s.enqueued ++ [x] }
      ⟨{ a.shared with items := a.shared.items ++ [x] },
        Function.update a.phase .main (.signalling .nothing)⟩ := by
  have openQueue : a.shared.closed = false := by
    cases closed : a.shared.closed with
    | false => rfl
    | true => simp [(inv.shut closed).2] at at_
  constructor
  · intro i op now
    exact inv.workerOp i op (by simpa using now)
  · intro i r
    simpa using inv.workerQuiet i r
  · simp
  · simp [openQueue]
  · simpa [at_] using inv.planned
  · simp [inv.order]
  · intro i exited
    simp [(inv.exits i exited).1] at openQueue
  · exact inv.unborn
  · exact inv.joined
  · exact inv.calls
  · exact inv.frees

/-- The section of the close. -/
theorem closed (inv : ServerInv plan s a) (mon) (at_ : (a.phase .main).op? = some .close) :
    ServerInv plan { s with mon := mon }
      ⟨{ a.shared with closed := true },
        Function.update a.phase .main (.signalling .nothing)⟩ := by
  have main : s.main = .joining 0 := by simpa using inv.mainOp _ at_
  constructor
  · intro i op now
    exact inv.workerOp i op (by simpa using now)
  · intro i r
    simpa using inv.workerQuiet i r
  · simp
  · intro _
    exact ⟨by simp [main, MainPc.finished], by simp⟩
  · simpa [at_] using inv.planned
  · exact inv.order
  · intro i exited
    exact ⟨rfl, (inv.exits i exited).2⟩
  · exact inv.unborn
  · exact inv.joined
  · exact inv.calls
  · exact inv.frees

/-- A worker takes the front request. -/
theorem take {i req xs mon} (inv : ServerInv plan s a)
    (at_ : (a.phase (.worker i)).op? = some .dequeue) (front : a.shared.items = some req :: xs) :
    ServerInv plan
      { s with
        mon := mon
        worker := Function.update s.worker i (.calling req)
        taken := s.taken ++ [(i, req)] }
      ⟨{ a.shared with items := xs },
        Function.update a.phase (.worker i) (.idle (some (.pointer (some req))))⟩ := by
  have here := (inv.workerOp i _ at_).2
  have nobody : ∀ j, s.worker j ≠ .exited := by
    intro j exited
    simp [(inv.exits j exited).2] at front
  constructor
  · intro j op now
    by_cases same : j = i
    · subst same
      simp at now
    · simpa [same] using inv.workerOp j op (by simpa [same] using now)
  · intro j r
    by_cases same : j = i
    · simp [same]
    · simpa [same] using inv.workerQuiet j r
  · simpa using inv.mainOp
  · simpa using inv.shut
  · simpa using inv.planned
  · simp [inv.order, front]
  · grind
  · intro k requests creating j above
    have := inv.unborn k requests creating j above
    grind
  · intro j below
    exact absurd (inv.joined j below) (nobody j)
  · intro j
    have calls := inv.calls j
    by_cases same : j = i
    · subst same
      simpa [here, WorkerPc.toCall] using calls
    · simpa [same, byWorker_ne (Ne.symm same)] using calls
  · intro j
    have frees := inv.frees j
    by_cases same : j = i
    · subst same
      simpa [here, WorkerPc.toFree] using frees
    · simpa [same] using frees

/-- A worker is told that the queue is closed and empty. -/
theorem leave {i mon} (inv : ServerInv plan s a)
    (at_ : (a.phase (.worker i)).op? = some .dequeue)
    (empty : a.shared.items = []) (shut : a.shared.closed = true) :
    ServerInv plan
      { s with mon := mon, worker := Function.update s.worker i .exited }
      ⟨a.shared, Function.update (fun u => (a.phase u).wake) (.worker i)
        (.idle (some (.pointer none)))⟩ := by
  have here := (inv.workerOp i _ at_).2
  constructor
  · intro j op now
    by_cases same : j = i
    · subst same
      simp at now
    · simpa [same] using inv.workerOp j op (by simpa [same] using now)
  · intro j r
    by_cases same : j = i
    · simp [same]
    · simpa [same] using inv.workerQuiet j r
  · simpa using inv.mainOp
  · simpa using inv.shut
  · simpa using inv.planned
  · exact inv.order
  · intro j _
    exact ⟨shut, empty⟩
  · intro k requests creating j above
    have := inv.unborn k requests creating j above
    grind
  · intro j below
    have := inv.joined j below
    grind
  · intro j
    have calls := inv.calls j
    by_cases same : j = i
    · subst same
      simpa [here, WorkerPc.toCall] using calls
    · simpa [same] using calls
  · intro j
    have frees := inv.frees j
    by_cases same : j = i
    · subst same
      simpa [here, WorkerPc.toFree] using frees
    · simpa [same] using frees

/-- A worker calls the work function of its request. -/
theorem call {i req} (inv : ServerInv plan s a) (at_ : s.worker i = .calling req) :
    ServerInv plan
      { s with
        worker := Function.update s.worker i (.freeing req)
        called := s.called ++ [(i, req)] } a := by
  constructor
  · intro j op now
    have := inv.workerOp j op now
    grind
  · exact inv.workerQuiet
  · exact inv.mainOp
  · exact inv.shut
  · exact inv.planned
  · exact inv.order
  · intro j exited
    apply inv.exits j
    grind
  · intro k requests creating j above
    have := inv.unborn k requests creating j above
    grind
  · intro j below
    have := inv.joined j below
    grind
  · intro j
    have calls := inv.calls j
    by_cases same : j = i
    · subst same
      simpa [at_, WorkerPc.toCall] using calls
    · simpa [same, byWorker_ne (Ne.symm same)] using calls
  · intro j
    have frees := inv.frees j
    by_cases same : j = i
    · subst same
      simpa [at_, WorkerPc.toFree] using frees
    · simpa [same, byWorker_ne (Ne.symm same)] using frees

/-- A worker frees its request. -/
theorem free {i req} (inv : ServerInv plan s a) (at_ : s.worker i = .freeing req) :
    ServerInv plan
      { s with
        worker := Function.update s.worker i .dequeuing
        freed := s.freed ++ [(i, req)] } a := by
  constructor
  · intro j op now
    have := inv.workerOp j op now
    grind
  · exact inv.workerQuiet
  · exact inv.mainOp
  · exact inv.shut
  · exact inv.planned
  · exact inv.order
  · intro j exited
    apply inv.exits j
    grind
  · intro k requests creating j above
    have := inv.unborn k requests creating j above
    grind
  · intro j below
    have := inv.joined j below
    grind
  · intro j
    have calls := inv.calls j
    by_cases same : j = i
    · subst same
      simpa [at_, WorkerPc.toCall] using calls
    · simpa [same] using calls
  · intro j
    have frees := inv.frees j
    by_cases same : j = i
    · subst same
      simpa [at_, WorkerPc.toFree] using frees
    · simpa [same, byWorker_ne (Ne.symm same)] using frees

/-- What a worker finds at the front is a request when no NULL was planned. -/
theorem front_request {x xs} (inv : ServerInv plan s a) (nonnull : ∀ request ∈ plan, request ≠ none)
    (front : a.shared.items = x :: xs) : ∃ req, x = some req := by
  refine Option.ne_none_iff_exists'.mp (nonnull x ?_)
  rw [inv.planned, inv.order, front]
  simp

/-- A worker's section: it takes the front request, leaves for good, or sleeps. -/
theorem acquireWorker {i mon} (inv : ServerInv plan s a)
    (nonnull : ∀ request ∈ plan, request ≠ none) (sim' : Sim mon a')
    (ran : Step fifoCode a (.acquire (.worker i)) a') :
    ServerInv plan (Server.deliver { s with mon := mon } i (mon.phase (.worker i))) a' := by
  have phase : (mon.phase (.worker i)).map Section.abstract = a'.phase (.worker i) := by
    rw [sim'.phases]
  cases ran with
  | @leave _ op shared r lock ran =>
      obtain ⟨rfl, _⟩ := inv.workerOp i op lock.op?
      cases items : a.shared.items with
      | nil => cases closed : a.shared.closed <;> simp [fifoCode, items, closed] at ran
      | cons x xs =>
          obtain ⟨req, rfl⟩ := inv.front_request nonnull items
          simp only [fifoCode, items, Option.some.injEq, Exit.leave.injEq] at ran
          obtain ⟨rfl, rfl⟩ := ran
          simp only [Function.update_self, Phase.map_eq_idle] at phase
          rw [phase]
          exact inv.take lock.op? items
  | @leaveWaking _ op shared r lock ran =>
      obtain ⟨rfl, _⟩ := inv.workerOp i op lock.op?
      cases items : a.shared.items with
      | cons x xs => simp [fifoCode, items] at ran
      | nil =>
          cases closed : a.shared.closed with
          | false => simp [fifoCode, items, closed] at ran
          | true =>
              simp only [fifoCode, items, closed, Option.some.injEq, Exit.leaveWaking.injEq] at ran
              obtain ⟨rfl, rfl⟩ := ran
              simp only [Function.update_self, Phase.map_eq_idle] at phase
              rw [phase]
              exact inv.leave lock.op? items closed
  | @leaveOwing _ op shared r lock ran =>
      obtain ⟨rfl, _⟩ := inv.workerOp i op lock.op?
      cases items : a.shared.items with
      | nil => cases closed : a.shared.closed <;> simp [fifoCode, items, closed] at ran
      | cons x xs => simp [fifoCode, items] at ran
  | @wait _ op lock ran =>
      simp only [Function.update_self] at phase
      obtain ⟨op', asleep⟩ := Phase.map_eq_asleep phase
      rw [asleep]
      exact inv.rephase (by simp [lock.op?]) (by simp)

/-- `main`'s section: the enqueue or the close it is in. -/
theorem acquireMain {mon} (inv : ServerInv plan s a) (ran : Step fifoCode a (.acquire .main) a') :
    ServerInv plan
      { s with mon := mon, enqueued := s.enqueued ++ linkedBy (a.phase .main).op? } a' := by
  have enqueues : ∀ {op}, (a.phase .main).AtLock op → (∃ x, op = .enqueue x) ∨ op = .close := by
    intro op lock
    rcases inv.mainOp op lock.op? with ⟨x, _, is, _⟩ | ⟨is, _⟩
    · exact .inl ⟨x, is⟩
    · exact .inr is
  cases ran with
  | leave lock ran => rcases enqueues lock with ⟨x, rfl⟩ | rfl <;> simp [fifoCode] at ran
  | leaveWaking lock ran => rcases enqueues lock with ⟨x, rfl⟩ | rfl <;> simp [fifoCode] at ran
  | wait lock ran => rcases enqueues lock with ⟨x, rfl⟩ | rfl <;> simp [fifoCode] at ran
  | leaveOwing lock ran =>
      rw [lock.op?]
      rcases enqueues lock with ⟨x, rfl⟩ | rfl
      · simp only [fifoCode, Option.some.injEq, Exit.leaveOwing.injEq] at ran
        obtain ⟨rfl, rfl⟩ := ran
        exact inv.linked lock.op?
      · simp only [fifoCode, Option.some.injEq, Exit.leaveOwing.injEq] at ran
        obtain ⟨rfl, rfl⟩ := ran
        simpa using inv.closed mon lock.op?

/-- Every step of the server keeps the invariant. -/
theorem step {act s'} (inv : ServerInv plan s a) (nonnull : ∀ request ∈ plan, request ≠ none)
    (sim : Sim s.mon a) (taken : ServerStep s act s') :
    ∃ a', Sim s'.mon a' ∧ ServerInv plan s' a' := by
  have idle : ∀ {t last}, s.mon.phase t = .idle last → ∃ last, a.phase t = .idle last := by
    intro t last at_
    exact ⟨last, by rw [sim.phases]; simp [at_, Phase.map]⟩
  cases taken with
  | create more at_ => exact ⟨a, sim, inv.create more at_⟩
  | created done at_ => exact ⟨a, sim, inv.created at_⟩
  | produce at_ ran =>
      obtain ⟨a', step, sim'⟩ := sim.step ran
      cases step with
      | enter outside work =>
          cases work
          exact ⟨_, sim', inv.produce at_ ⟨_, outside⟩⟩
  | close at_ ran =>
      obtain ⟨a', step, sim'⟩ := sim.step ran
      cases step with
      | enter outside work =>
          cases work
          exact ⟨_, sim', inv.close at_ ⟨_, outside⟩⟩
  | @join i last more at_ quiet exited =>
      refine ⟨a, sim, inv.join at_ (idle quiet) trivial rfl (by simp) ?_⟩
      intro j below
      rcases Nat.lt_succ_iff_lt_or_eq.mp below with earlier | now
      · exact inv.joined j (by rw [at_]; exact earlier)
      · have is : j = ⟨i, more⟩ := Fin.ext now
        rw [is]
        exact exited
  | @joined i last done at_ quiet =>
      refine ⟨a, sim, inv.join at_ (idle quiet) trivial rfl (by simp) ?_⟩
      intro j _
      apply inv.joined j
      rw [at_]
      exact Nat.lt_of_lt_of_le j.isLt (Nat.le_of_not_lt done)
  | fetch at_ ran =>
      obtain ⟨a', step, sim'⟩ := sim.step ran
      cases step with
      | enter outside work =>
          cases work
          exact ⟨_, sim', inv.fetch at_⟩
  | call at_ => exact ⟨a, sim, inv.call at_⟩
  | free at_ => exact ⟨a, sim, inv.free at_⟩
  | acquireMain ran =>
      obtain ⟨a', step, sim'⟩ := sim.step ran
      refine ⟨a', sim', ?_⟩
      have same : linking (s.mon.phase .main) = linkedBy (a.phase .main).op? := by
        rw [sim.phases, linking, Phase.op?_map]
      rw [same]
      exact inv.acquireMain step
  | acquireWorker ran =>
      obtain ⟨a', step, sim'⟩ := sim.step ran
      exact ⟨a', by simpa using sim', inv.acquireWorker nonnull sim' step⟩
  | @broadcast t mon ran =>
      obtain ⟨a', step, sim'⟩ := sim.step ran
      cases step with
      | broadcast owes =>
          cases t with
          | main => exact ⟨_, sim', inv.wake owes⟩
          | worker i => exact absurd owes (inv.workerQuiet i _)
  | spurious ran =>
      obtain ⟨a', step, sim'⟩ := sim.step ran
      cases step with
      | spurious asleep => exact ⟨_, sim', inv.rephase (by simp [asleep]) (by simp)⟩

theorem reachable (nonnull : ∀ request ∈ plan, request ≠ none)
    (reach : (requestServer N plan).Reachable s) : ∃ a, Sim s.mon a ∧ ServerInv plan s a := by
  induction reach with
  | @init s start =>
      obtain ⟨heap, header, rfl⟩ := start
      exact ⟨⟨Fifo.empty, fun _ => .idle none⟩, .init rfl fun _ => rfl, .init⟩
  | step _ taken ih =>
      obtain ⟨a, sim, inv⟩ := ih
      exact inv.step nonnull sim taken

/-- `thread_pool_destroy` returns after every worker. -/
theorem exited (inv : ServerInv plan s a) (destroyed : s.main = .destroyed) (i : Fin N) :
    s.worker i = .exited :=
  inv.joined i (by rw [destroyed]; exact i.isLt)

/-- By then everything planned was enqueued and taken. -/
theorem drained (inv : ServerInv plan s a) (workers : 1 ≤ N) (destroyed : s.main = .destroyed) :
    a.shared.items = [] ∧ plan = s.enqueued ∧
      s.enqueued = s.taken.map (fun entry => some entry.2) := by
  obtain ⟨shut, empty⟩ := inv.exits ⟨0, workers⟩ (inv.exited destroyed _)
  refine ⟨empty, ?_, ?_⟩
  · rw [inv.planned, (inv.shut shut).2, destroyed]
    simp [MainPc.rest]
  · rw [inv.order, empty, List.append_nil]

/-- And every worker has worked on what it took, and freed it. -/
theorem processed (inv : ServerInv plan s a) (destroyed : s.main = .destroyed) (i : Fin N) :
    byWorker i s.called = byWorker i s.taken ∧ byWorker i s.freed = byWorker i s.taken := by
  have called : byWorker i s.called = byWorker i s.taken := by
    rw [inv.calls i, inv.exited destroyed i]
    simp [WorkerPc.toCall]
  refine ⟨called, ?_⟩
  rw [← called, inv.frees i, inv.exited destroyed i]
  simp [WorkerPc.toFree]

end ServerInv

/-! ## What the runs guarantee -/

/-- Two histories with the same part for every worker hold the same entries. -/
theorem perm_of_byWorker {l l' : List (Fin N × α)} (same : ∀ i, byWorker i l = byWorker i l') :
    l.Perm l' := by
  classical
  have counts : ∀ (entry : Fin N × α) (h : List (Fin N × α)),
      h.count entry = (byWorker entry.1 h).count entry.2 := by
    intro entry h
    induction h with
    | nil => rfl
    | cons first rest ih =>
        by_cases worker : first.1 = entry.1
        · by_cases req : first.2 = entry.2
          · obtain rfl : first = entry := Prod.ext worker req
            simp [byWorker, ih]
          · have ne : first ≠ entry := fun is => req (congrArg Prod.snd is)
            simp [byWorker, worker, List.count_cons_of_ne ne, List.count_cons_of_ne req, ih]
        · have ne : first ≠ entry := fun is => worker (congrArg Prod.fst is)
          simp [byWorker, worker, List.count_cons_of_ne ne, ih]
  rw [List.perm_iff_count]
  intro entry
  rw [counts, counts, same]

/-- Nothing is lost or doubled, and requests are worked on in the order in
    which their worker took them.  Once `thread_pool_destroy` has returned,
    every request has been worked on and freed. -/
theorem requests_processed_once {plan : List α} {s : Server N α} (workers : 1 ≤ N)
    (reach : (requestServer N (plan.map some)).Reachable s) :
    (∃ queued closed, Refines s.mon.shared ⟨queued.map some, closed⟩ ∧
      s.enqueued = (s.taken.map Prod.snd ++ queued).map some) ∧
    s.enqueued <+: plan.map some ∧
    (∀ i, byWorker i s.called <+: byWorker i s.taken) ∧
    (∀ i, byWorker i s.freed <+: byWorker i s.called) ∧
    (s.main = .destroyed → s.taken.map Prod.snd = plan ∧ s.enqueued = plan.map some ∧
      s.called.Perm s.taken ∧ s.freed.Perm s.taken) := by
  obtain ⟨a, sim, inv⟩ := ServerInv.reachable (by simp) reach
  obtain ⟨addrs, rep, _⟩ := sim.holds.nodes
  -- what is queued came from the plan, so it has no NULL
  obtain ⟨prior, rest, planned, _, restIs⟩ : ∃ prior rest, plan = prior ++ rest ∧
      prior.map some = s.taken.map (fun entry => some entry.2) ∧
      rest.map some = a.shared.items ++ (linkedBy (a.phase .main).op? ++ s.main.rest) := by
    apply List.map_eq_append_iff.mp
    rw [inv.planned, inv.order]
    simp
  obtain ⟨queued, later, restParts, queuedIs, _⟩ := List.map_eq_append_iff.mp restIs
  have enqueued : s.enqueued = (s.taken.map Prod.snd ++ queued).map some := by
    rw [inv.order, ← queuedIs]
    simp
  refine ⟨⟨queued, a.shared.closed, ⟨⟨addrs, ?_⟩, sim.holds.closed⟩, enqueued⟩, ?_, ?_, ?_, ?_⟩
  · rw [queuedIs]
    exact rep
  · rw [inv.planned, List.append_assoc]
    exact List.prefix_append _ _
  · intro i
    rw [inv.calls i]
    exact List.prefix_append _ _
  · intro i
    rw [inv.frees i]
    exact List.prefix_append _ _
  · intro destroyed
    obtain ⟨_, planned, taken⟩ := inv.drained workers destroyed
    have takenAll : plan.map some = (s.taken.map Prod.snd).map some := by
      rw [planned, taken, List.map_map]
      rfl
    refine ⟨?_, planned.symm, perm_of_byWorker fun i => (inv.processed destroyed i).1,
      perm_of_byWorker fun i => (inv.processed destroyed i).2⟩
    exact (List.map_injective_iff.mpr (fun _ _ => Option.some.inj) takenAll).symm

/-- One worker, one request: the worker falls asleep before the request comes,
    works on it after the close and is joined. -/
theorem requests_processed_once_drained :
    ∃ s : Server 1 Nat, (requestServer 1 ([7].map some)).Reachable s ∧ s.main = .destroyed ∧
      s.taken.map Prod.snd = [7] ∧ s.called.Perm s.taken ∧ s.freed.Perm s.taken := by
  have start : (requestServer 1 ([7].map some)).Reachable _ := .init ⟨fun _ => none, 1, rfl⟩
  have created := (start.step (.create (by decide) rfl)).step (.created (by decide) rfl)
  have asleep := (created.step (.fetch (i := 0) rfl (.enter rfl rfl))).step
    (.acquireWorker (i := 0) (.wait (.inl rfl) rfl))
  have produced := (asleep.step (.produce (n := 2) rfl (.enter rfl rfl))).step
    (.acquireMain (.leaveOwing (.inl rfl) rfl))
  have closed := ((produced.step (.broadcast (.broadcast (t := .main) rfl))).step
    (.close rfl (.enter rfl rfl))).step (.acquireMain (.leaveOwing (.inl rfl) rfl))
  have worked := ((closed.step (.acquireWorker (i := 0) (.leave (.inr rfl) rfl))).step
    (.call (i := 0) rfl)).step (.free (i := 0) rfl)
  have left := (worked.step (.fetch (i := 0) rfl (.enter rfl rfl))).step
    (.acquireWorker (i := 0) (.leaveWaking (.inl rfl) rfl))
  have joined := ((left.step (.broadcast (.broadcast (t := .main) rfl))).step
    (.join (by decide) rfl rfl rfl)).step (.joined (by decide) rfl rfl)
  obtain ⟨_, _, _, _, drained⟩ := requests_processed_once (by decide) joined
  obtain ⟨taken, _, called, freed⟩ := drained rfl
  exact ⟨_, joined, rfl, taken, called, freed⟩

/-- When every `malloc` of `create_request` succeeds, a worker is past its loop
    only once the queue is closed and empty.  A failed one puts NULL into the
    queue, which `do_work` takes for the end. -/
theorem worker_leaves_when_over {draws : List Draw} {s : Server N Request}
    (mallocs : ∀ draw ∈ draws, draw.requestMalloc = true ∧ draw.argMalloc = true)
    (reach : (requestServer N (mainRequests 1 draws)).Reachable s) :
    (∀ i, s.worker i = .exited → s.mon.shared.que.isclosed = true ∧ s.mon.shared.que.size = 0) ∧
    (s.mon.shared.que.isclosed = false → ∀ i, s.worker i ≠ .exited) := by
  obtain ⟨a, sim, inv⟩ := ServerInv.reachable (mainRequests_nonnull 1 mallocs) reach
  obtain ⟨addrs, rep, _⟩ := sim.holds.nodes
  constructor
  · intro i exited
    obtain ⟨closed, empty⟩ := inv.exits i exited
    exact ⟨sim.holds.closed.trans closed, rep.empty_iff.mpr empty⟩
  · intro openQueue i exited
    have closed := sim.holds.closed.trans (inv.exits i exited).1
    rw [openQueue] at closed
    cases closed

/-- A worker that finds the queue closed leaves with both mallocs successful. -/
theorem worker_leaves_when_over_closed :
    ∃ s : Server 1 Request,
      (requestServer 1 (mainRequests 1 [⟨1, true, true, 5⟩])).Reachable s ∧ s.worker 0 = .exited ∧
      s.mon.shared.que.isclosed = true ∧ s.mon.shared.que.size = 0 := by
  have start : (requestServer 1 (mainRequests 1 [⟨1, true, true, 5⟩])).Reachable _ :=
    .init ⟨fun _ => none, 1, rfl⟩
  have created := (start.step (.create (by decide) rfl)).step (.created (by decide) rfl)
  have produced := ((created.step (.produce (n := 2) rfl (.enter rfl rfl))).step
    (.acquireMain (.leaveOwing (.inl rfl) rfl))).step (.broadcast (.broadcast (t := .main) rfl))
  have worked := (((produced.step (.fetch (i := 0) rfl (.enter rfl rfl))).step
    (.acquireWorker (i := 0) (.leave (.inl rfl) rfl))).step (.call (i := 0) rfl)).step
    (.free (i := 0) rfl)
  have closed := (worked.step (.close rfl (.enter rfl rfl))).step
    (.acquireMain (.leaveOwing (.inl rfl) rfl))
  have left := (closed.step (.fetch (i := 0) rfl (.enter rfl rfl))).step
    (.acquireWorker (i := 0) (.leaveWaking (.inl rfl) rfl))
  have ended := (worker_leaves_when_over (by decide) left).1 0 rfl
  exact ⟨_, left, rfl, ended⟩

/-- The first `malloc` fails on the first pass: the only worker leaves while the
    queue is open. -/
theorem null_request_ends_worker :
    ∃ s : Server 1 Request,
      (requestServer 1 (mainRequests 1 [⟨0, false, true, 0⟩, ⟨1, true, true, 5⟩])).Reachable s ∧
      s.worker 0 = .exited ∧ s.mon.shared.que.isclosed = false ∧
      s.main = .producing [some ⟨.computeSum, .number 5⟩] := by
  have start : (requestServer 1
      (mainRequests 1 [⟨0, false, true, 0⟩, ⟨1, true, true, 5⟩])).Reachable _ :=
    .init ⟨fun _ => none, 1, rfl⟩
  have created := (start.step (.create (by decide) rfl)).step (.created (by decide) rfl)
  have produced := ((created.step (.produce (n := 2) rfl (.enter rfl rfl))).step
    (.acquireMain (.leaveOwing (.inl rfl) rfl))).step (.broadcast (.broadcast (t := .main) rfl))
  have left := (produced.step (.fetch (i := 0) rfl (.enter rfl rfl))).step
    (.acquireWorker (i := 0) (.leave (.inl rfl) rfl))
  exact ⟨_, left, rfl, rfl, rfl⟩

end SysProg.M9
