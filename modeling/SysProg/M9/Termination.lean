import Mathlib.Data.Prod.Lex
import SysProg.M9.Work

/-! # The request server comes to its end

Every step but a spurious wakeup uses up work, or a byte of a log line.  And
when nothing but a spurious wakeup can happen, `main` is past
`thread_pool_destroy`.  Both hold for every pattern of failed mallocs in
`create_request`, and with `log_mutex` contended.
-/

namespace SysProg.M9

open CString Heap Monitor Fifo Transition

variable {N : Nat} {α : Type}

/-! ## Somebody can move -/

section progress

variable {s : Server N α} {a : FifoState N α}

/-- The section a thread has come to is defined: there is room for every
    request of the plan. -/
theorem section_defined {plan : List (Option α)} {t : Thread N} {op : Section α}
    (orderly : Orderly plan s a) (room : plan.length ≤ intMax) (lock : (s.mon.phase t).AtLock op) :
    ∃ e, queueCode.crit op s.mon.shared = some e := by
  have own : Own t op.abstract := orderly.calls.own t op.abstract (by
    rw [orderly.sim.phases]
    simp [lock.op?])
  cases op with
  | close => exact ⟨_, rfl⟩
  | dequeue =>
      cases items : a.shared.items with
      | nil => exact ⟨_, orderly.sim.holds.dequeue_nil items⟩
      | cons x xs =>
          obtain ⟨m', ran, _⟩ := orderly.sim.holds.dequeue_cons items
          exact ⟨_, ran⟩
  | enqueue node data =>
      cases t with
      | worker i => cases own
      | main =>
          obtain ⟨addrs, rep, unlinked⟩ := orderly.sim.holds.nodes
          obtain ⟨made, off⟩ := unlinked .main node data lock.op?
          have ahead := orderly.ahead.length_le
          have linking : linkedBy (a.phase .main).op? = [data] := by
            rw [orderly.sim.phases]
            simp [lock.op?, Section.abstract]
          have count : s.mon.shared.que.size + 1 ≤ intMax := by
            rw [rep.count]
            simp only [linking, List.length_append, List.length_singleton] at ahead
            omega
          obtain ⟨m', ran, _⟩ := queueEnqueueLocked_spec rep off made count
          exact ⟨.leaveOwing m' .nothing, by simp [queueCode, ran]⟩

/-- A thread that is in a call and not asleep can move. -/
theorem call_moves {plan : List (Option α)} {t : Thread N} (orderly : Orderly plan s a)
    (room : plan.length ≤ intMax) (inside : ∀ last, s.mon.phase t ≠ .idle last)
    (awake : ∀ op, s.mon.phase t ≠ .asleep op) :
    ∃ act s', (act = .acquire t ∨ act = .broadcast t) ∧ ServerStep s act s' := by
  have acquires : ∀ op, (s.mon.phase t).AtLock op →
      ∃ act s', (act = .acquire t ∨ act = .broadcast t) ∧ ServerStep s act s' := by
    intro op lock
    obtain ⟨e, defined⟩ := section_defined orderly room lock
    obtain ⟨mon, ran⟩ := acquire_enabled lock defined
    cases t with
    | main => exact ⟨_, _, .inl rfl, .acquireMain ran⟩
    | worker i => exact ⟨_, _, .inl rfl, .acquireWorker ran⟩
  cases at_ : s.mon.phase t with
  | idle last => exact absurd at_ (inside last)
  | asleep op => exact absurd at_ (awake op)
  | signalling r => exact ⟨_, _, .inr rfl, .broadcast (.broadcast at_)⟩
  | entering op => exact acquires op (.inl at_)
  | woken op => exact acquires op (.inr at_)

end progress

/-- Any step but a spurious wakeup. -/
def Useful (act : LogAct N) : Prop := ∀ t, act ≠ .server (.spurious t)

namespace TaskInv

variable {fails : Bool} {tid : Fin N → Nat} {plan : List (Option Request)} {file : Bytes}
  {s : LoggedServer N} {a : FifoState N Request}

/-- Who is under the log's lock can go on. -/
theorem inside_moves {i : Fin N} {k₀ : TaskPc} (inv : TaskInv fails tid plan file s)
    (entered : s.log.since i = some k₀) : Enabled (loggedServer fails tid plan file) Useful s := by
  obtain ⟨behind, freed, stage, _⟩ := inv.tallied i
  have goes : ∀ {k k' shared}, s.log.loc i = k → k.InLog →
      LogStep fails (tid i) (k, s.log.shared) (k', shared) →
      Enabled (loggedServer fails tid plan file) Useful s := by
    rintro k k' shared rfl inLog taken
    exact ⟨.log i, _, by simp [Useful], .log inLog (.inside entered taken)⟩
  cases at_ : s.log.loc i with
  | ready | freeing | returned | logging message =>
      rw [at_] at stage
      simp [Stage, entered] at stage
  | opening message => exact goes at_ trivial (.opened [])
  | writing rest =>
      cases rest with
      | nil => exact goes at_ trivial .close
      | cons b rest =>
          have wrote : LogStep fails (tid i) (.writing ([b] ++ rest), s.log.shared)
              (.writing rest, s.log.shared ++ [b]) := .write (by simp)
          exact goes at_ trivial wrote
  | unlocking =>
      exact ⟨.log i, _, by simp [Useful],
        .log (by simp [at_, TaskPc.InLog]) (.leave entered ⟨at_, rfl⟩)⟩

/-- A worker in a work function can go on, or waits for one that can. -/
theorem work_moves {i : Fin N} {req : Request} (inv : TaskInv fails tid plan file s)
    (calling : s.server.worker i = .calling req) (tells : taskMessage req ≠ none) :
    Enabled (loggedServer fails tid plan file) Useful s := by
  obtain ⟨behind, freed, stage, _⟩ := inv.tallied i
  cases at_ : s.log.loc i with
  | ready =>
      obtain ⟨message, tells⟩ := Option.ne_none_iff_exists'.mp tells
      exact ⟨.begin i, _, by simp [Useful], .begin calling tells at_⟩
  | logging message =>
      by_cases free : s.log.Free
      · have entered : (logMessage fails tid).enter i (s.log.loc i) (.opening message) :=
          ⟨message, at_, rfl⟩
        exact ⟨.log i, _, by simp [Useful],
          .log (by simp [at_, TaskPc.InLog]) (.enter (free i) (fun _ => free) entered)⟩
      · obtain ⟨u, entered⟩ := not_forall.mp free
        obtain ⟨k₀, entered⟩ := Option.ne_none_iff_exists'.mp entered
        exact inv.inside_moves entered
  | opening message =>
      rw [at_] at stage
      exact inv.inside_moves stage.1
  | writing rest | unlocking =>
      rw [at_] at stage
      obtain ⟨message, entered, _⟩ := stage
      exact inv.inside_moves entered
  | freeing => exact ⟨.release i, _, by simp [Useful], .release calling at_⟩
  | returned => exact ⟨.server (.call i), _, by simp [Useful], .call at_ (.call calling)⟩

/-- Until `thread_pool_destroy` has returned somebody can move: nobody waits
    for a wakeup, a lock or a thread that will not come. -/
theorem moves (inv : TaskInv fails tid plan file s) (orderly : Orderly plan s.server a)
    (room : plan.length ≤ intMax) (tells : ∀ req, some req ∈ plan → taskMessage req ≠ none)
    (memory : ∃ node, s.server.mon.shared.heap node = none) (going : s.server.main ≠ .destroyed) :
    Enabled (loggedServer fails tid plan file) Useful s := by
  have goes : ∀ {act server}, ServerStep s.server act server → (∀ i, act ≠ .call i) →
      (∀ t, act ≠ .spurious t) → Enabled (loggedServer fails tid plan file) Useful s :=
    fun taken other real => ⟨.server _, _, by simpa [Useful] using real, .server other taken⟩
  by_cases awake : ∃ t, (∀ last, s.server.mon.phase t ≠ .idle last) ∧
      ∀ op, s.server.mon.phase t ≠ .asleep op
  · obtain ⟨t, inside, awake⟩ := awake
    obtain ⟨act, server, which, taken⟩ := call_moves orderly room inside awake
    exact goes taken (by rcases which with rfl | rfl <;> simp)
      (by rcases which with rfl | rfl <;> simp)
  have settled : ∀ t, (∃ last, s.server.mon.phase t = .idle last) ∨
      ∃ op, s.server.mon.phase t = .asleep op := by
    intro t
    by_contra neither
    exact awake ⟨t, fun last is => neither (.inl ⟨last, is⟩), fun op is => neither (.inr ⟨op, is⟩)⟩
  -- `main` never sleeps, so that it is the workers that it may have to wait for
  obtain ⟨last, idle⟩ : ∃ last, s.server.mon.phase .main = .idle last := by
    refine (settled .main).resolve_right fun ⟨op, asleep⟩ => ?_
    exact orderly.calls.sleeps .main op.abstract
      (by simp [orderly.sim.phases, asleep, Phase.map]) rfl
  cases at_ : s.server.main with
  | destroyed => exact absurd at_ going
  | creating i requests =>
      by_cases more : i < N
      · exact goes (.create more at_) (by simp) (by simp)
      · exact goes (.created more at_) (by simp) (by simp)
  | producing requests =>
      cases requests with
      | nil => exact goes (.close at_ (.enter idle rfl)) (by simp) (by simp)
      | cons request requests =>
          obtain ⟨node, fresh⟩ := memory
          have work : queueCode.enter (.enqueue node request) s.server.mon.shared =
              some (.enqueue node request, newNode s.server.mon.shared node request) := by
            simp [queueCode, fresh]
          exact goes (.produce at_ (.enter idle work)) (by simp) (by simp)
  | joining i =>
      by_cases more : i < N
      swap
      · exact goes (.joined more at_ idle) (by simp) (by simp)
      cases here : s.server.worker ⟨i, more⟩ with
      | unborn => exact absurd here (orderly.grown (by simp [at_]) _)
      | exited => exact goes (.join more at_ idle here) (by simp) (by simp)
      | calling req => exact inv.work_moves here (tells req (orderly.calling _ req here))
      | freeing req => exact goes (.free here) (by simp) (by simp)
      | dequeuing =>
          rcases settled (.worker ⟨i, more⟩) with ⟨last, outside⟩ | ⟨op, asleep⟩
          · exact goes (.fetch here (.enter outside rfl)) (by simp) (by simp)
          · -- a closed queue leaves nobody asleep
            have shut : s.server.mon.shared.que.isclosed = true := by
              rw [orderly.sim.holds.closed]
              refine (orderly.closing (by rw [at_]; trivial)).resolve_left ?_
              simp [orderly.sim.phases, idle, Phase.map]
            rcases orderly.attended _ op asleep with unready | ⟨u, r, owes⟩
            · exact absurd (.inr shut) unready
            · rcases settled u with ⟨last, is⟩ | ⟨op, is⟩ <;> simp [owes] at is

/-- A worker gets on in its work function. -/
theorem lighter_task {i : Fin N} {k : TaskPc} {req : Request} (orderly : Orderly plan s.server a)
    (calling : s.server.worker i = .calling req) (less : k.weight < (s.log.loc i).weight) :
    s.server.weight (Function.update s.log.loc i k) < s.server.weight s.log.loc := by
  refine lighter_inside orderly.sim orderly.sim (i := i) (fun j other => ⟨rfl, by simp [other]⟩) ?_
  simp only [workerWeight, calling, Function.update_self]
  omega

/-- What is left: the steps first, then the bytes of the lines in the making. -/
def rank (s : LoggedServer N) : Nat ×ₗ Nat :=
  toLex (s.server.weight s.log.loc, ∑ i, (s.log.loc i).bytes)

theorem rank_lt_of_steps {s s' : LoggedServer N}
    (less : s'.server.weight s'.log.loc < s.server.weight s.log.loc) : rank s' < rank s :=
  Prod.Lex.toLex_lt_toLex.mpr (.inl less)

theorem rank_lt_of_bytes {s s' : LoggedServer N}
    (steps : s'.server.weight s'.log.loc = s.server.weight s.log.loc)
    (less : ∑ i, (s'.log.loc i).bytes < ∑ i, (s.log.loc i).bytes) : rank s' < rank s :=
  Prod.Lex.toLex_lt_toLex.mpr (.inr ⟨steps, less⟩)

/-- Under the log's lock a worker is at a request. -/
theorem calling_of_inLog {i : Fin N} (inv : TaskInv fails tid plan file s)
    (inLog : (s.log.loc i).InLog) : ∃ req, s.server.worker i = .calling req := by
  obtain ⟨behind, freed, stage, _⟩ := inv.tallied i
  cases at_ : s.log.loc i with
  | ready | freeing | returned =>
      rw [at_] at inLog
      exact inLog.elim
  | logging message | opening message =>
      rw [at_] at stage
      obtain ⟨_, _, _, req, is, _⟩ := stage
      exact ⟨req, is⟩
  | writing rest | unlocking =>
      rw [at_] at stage
      obtain ⟨message, _, _, _, req, is, _⟩ := stage
      exact ⟨req, is⟩

/-- A line of which a part is written gets shorter, and nothing else changes. -/
theorem lighter_write {i : Fin N} {req : Request} {piece rest file' : Bytes} {since done}
    (calling : s.server.worker i = .calling req) (is : s.log.loc i = .writing (piece ++ rest))
    (some_ : piece ≠ []) :
    rank { s with
      log := ⟨file', Function.update s.log.loc i (.writing rest), since, done⟩ } < rank s := by
  have steps : s.server.weight (Function.update s.log.loc i (.writing rest)) =
      s.server.weight s.log.loc := by
    have same : ∀ j, workerWeight N (s.server.worker j) (s.server.mon.phase (.worker j))
        (Function.update s.log.loc i (.writing rest) j) =
        workerWeight N (s.server.worker j) (s.server.mon.phase (.worker j))
          (s.log.loc j) := by
      intro j
      by_cases here : j = i
      · subst here
        simp [workerWeight, calling, is, TaskPc.weight]
      · simp [here]
    simp only [Server.weight, M9.weight, same]
  have bytes := sum_change (i := i) (f := fun j => (s.log.loc j).bytes)
    (g := fun j => (Function.update s.log.loc i (.writing rest) j).bytes)
    fun j other => by simp [other]
  have piece := List.length_pos_of_ne_nil some_
  simp only [Function.update_self, is, TaskPc.bytes_writing, List.length_append] at bytes
  exact rank_lt_of_bytes steps (by dsimp only; omega)

/-- A step of `log_message`. -/
theorem lighter_log {i : Fin N} {log} (inv : TaskInv fails tid plan file s)
    (orderly : Orderly plan s.server a) (inLog : (s.log.loc i).InLog)
    (taken : Locking.Step (logMessage fails tid) true s.log i log) :
    rank { s with log := log } < rank s := by
  obtain ⟨req, calling⟩ := inv.calling_of_inLog inLog
  have less : ∀ {k : TaskPc} {shared since done}, k.weight < (s.log.loc i).weight →
      rank { s with log := ⟨shared, Function.update s.log.loc i k, since, done⟩ } < rank s := by
    intro k shared since done less
    have lighter := lighter_task orderly calling less
    exact rank_lt_of_steps lighter
  cases taken with
  | aside outside move =>
      rcases move with ⟨message, is, _⟩ | ⟨is, _⟩ | ⟨is, _⟩ <;> rw [is] at inLog <;>
        exact inLog.elim
  | enter outside alone move =>
      obtain ⟨message, is, rfl⟩ := move
      exact less (by simp [is, TaskPc.weight])
  | leave entered move =>
      obtain ⟨is, rfl⟩ := move
      exact less (by simp [is, TaskPc.weight])
  | @inside k k₀ shared entered move =>
      generalize at_ : (s.log.loc i, s.log.shared) = x at move
      generalize became : (k, shared) = y at move
      cases move with
      | unopened | opened | close =>
          obtain ⟨is, _⟩ := Prod.mk.inj at_
          obtain ⟨rfl, _⟩ := Prod.mk.inj became
          exact less (by simp [is, TaskPc.weight])
      | @write piece rest file some_ =>
          obtain ⟨is, _⟩ := Prod.mk.inj at_
          obtain ⟨rfl, _⟩ := Prod.mk.inj became
          exact lighter_write calling is some_

/-- Every step but a spurious wakeup leaves less to do. -/
theorem lighter {act s'} (inv : TaskInv fails tid plan file s) (orderly : Orderly plan s.server a)
    (taken : LoggedStep fails tid s act s') (useful : Useful act) : rank s' < rank s := by
  have atCall : ∀ i, (∀ req, s.server.worker i ≠ .calling req) → s.log.loc i = .ready := by
    intro i idle
    obtain ⟨behind, freed, stage, _⟩ := inv.tallied i
    cases at_ : s.log.loc i with
    | ready => rfl
    | logging message | opening message =>
        rw [at_] at stage
        obtain ⟨_, _, _, req, is, _⟩ := stage
        exact absurd is (idle req)
    | writing rest | unlocking | freeing =>
        rw [at_] at stage
        obtain ⟨message, _, _, _, req, is, _⟩ := stage
        exact absurd is (idle req)
    | returned =>
        rw [at_] at stage
        obtain ⟨req, message, _, _, _, is, _⟩ := stage
        exact absurd is (idle req)
  cases taken with
  | server other taken =>
      refine rank_lt_of_steps ?_
      refine lighter_step orderly (.reachable inv.server) atCall taken (fun t is => ?_) other
      exact useful t (by rw [is])
  | @begin i req message calling tells ready =>
      have lighter := lighter_task (k := .logging message) orderly calling
        (by simp [ready, TaskPc.weight])
      exact rank_lt_of_steps lighter
  | log inLog taken => exact inv.lighter_log orderly inLog taken
  | release calling freeing =>
      have lighter := lighter_task (k := .returned) orderly calling
        (by simp [freeing, TaskPc.weight])
      exact rank_lt_of_steps lighter
  | @call i server returned taken =>
      cases taken with
      | call at_ =>
          refine rank_lt_of_steps ?_
          refine lighter_worker orderly.sim orderly.sim (fun j other => ⟨rfl, by simp [other]⟩) ?_
          simp only [workerWeight, at_, returned, TaskPc.weight]
          omega

end TaskInv

/-! ## The end -/

variable {fails : Bool} {tid : Fin N → Nat} {draws : List Draw} {file : Bytes}

/-- Until `thread_pool_destroy` has returned some thread can move, and not only by
    a spurious wakeup: there is no deadlock between the queue, its condition
    variable, the log's lock and the joins, whichever requests failed to be
    allocated. -/
theorem request_server_no_deadlock {s : LoggedServer N}
    (reach : (loggedServer fails tid (mainRequests 1 draws) file).Reachable s)
    (room : draws.length ≤ intMax) (memory : Memory s) :
    Enabled (loggedServer fails tid (mainRequests 1 draws) file) Useful s ∨
      s.server.main = .destroyed := by
  have inv := TaskInv.reachable reach
  obtain ⟨a, orderly⟩ := Orderly.reachable inv.server
  by_cases done : s.server.main = .destroyed
  · exact .inr done
  · refine .inl (inv.moves orderly (by simpa [mainRequests_length] using room) ?_ memory done)
    intro req planned
    simp [mainRequests_message 1 planned]

/-- The worker is in the middle of its line. -/
theorem request_server_no_deadlock_begun :
    ∃ s : LoggedServer 1, (OneWorker true).Reachable s ∧ Begun s ∧
      (Enabled (OneWorker true) Useful s ∨ s.server.main = .destroyed) := by
  obtain ⟨s, reach, begun⟩ := exists_begun true
  exact ⟨s, reach, begun, request_server_no_deadlock reach (by simp [intMax]) begun.memory⟩

/-- The server comes to its end: in every run that does not stand still while a
    thread could move, and in which spurious wakeups stop at some time,
    `thread_pool_destroy` returns. -/
theorem request_server_terminates {run : Run (loggedServer fails tid (mainRequests 1 draws) file)}
    (start : (loggedServer fails tid (mainRequests 1 draws) file).init (run.state 0))
    (room : draws.length ≤ intMax)
    (memory : ∀ n, Memory (run.state n))
    (fair : run.Fair Useful)
    (settles : ∃ k, ∀ n t, k ≤ n → run.taken n ≠ some (.server (.spurious t))) :
    ∃ n, (run.state n).server.main = .destroyed := by
  have reach : ∀ n,
      (loggedServer fails tid (mainRequests 1 draws) file).Reachable (run.state n) := by
    intro n
    induction n with
    | zero => exact .init start
    | succ n ih =>
        cases took : run.taken n with
        | none =>
            rw [run.rests n took]
            exact ih
        | some l => exact .step ih (run.moves n l took)
  refine Run.Fair.terminates (I := fun s => TaskInv fails tid (mainRequests 1 draws) file s ∧
      Memory s) (Q := fun s => s.server.main = .destroyed)
    (wellFounded_lt : WellFounded fun x y : Nat ×ₗ Nat => x < y) TaskInv.rank fair
    (fun n => ⟨.reachable (reach n), memory n⟩) ?_ ?_ ?_
  · rintro s ⟨inv, memory⟩ going
    obtain ⟨a, orderly⟩ := Orderly.reachable inv.server
    refine inv.moves orderly (by simpa [mainRequests_length] using room) ?_ memory going
    intro req planned
    simp [mainRequests_message 1 planned]
  · rintro s act s' ⟨inv, _⟩ useful taken
    obtain ⟨a, orderly⟩ := Orderly.reachable inv.server
    exact inv.lighter orderly taken useful
  · obtain ⟨k, settles⟩ := settles
    exact ⟨k, fun n act later took t is => settles n t later (by rw [took, is])⟩

/-- When nobody is left, nothing but a spurious wakeup could happen. -/
theorem Ended.stuck {t : LoggedServer 1} (ended : Ended t) :
    ¬ Enabled (OneWorker fails) Useful t := by
  rintro ⟨act, t', useful, taken⟩
  have idle : ∀ u op, (t.server.mon.phase u).op? ≠ some op := by
    intro u op inside
    obtain ⟨last, is⟩ := ended.phase u
    rw [is] at inside
    cases inside
  have gone : ∀ {i w}, t.server.worker i = w → w = .exited := fun is =>
    is.symm.trans (ended.worker _)
  cases taken with
  | server other taken =>
      cases taken with
      | create more at_ | created done at_ => cases at_.symm.trans ended.main
      | produce at_ ran | close at_ ran => cases at_.symm.trans ended.main
      | join more at_ quiet left | joined done at_ quiet => cases at_.symm.trans ended.main
      | fetch at_ ran | call at_ | free at_ => cases gone at_
      | acquireMain ran | acquireWorker ran =>
          obtain ⟨op, inside, _⟩ := ran.op?_acquire
          exact idle _ op inside
      | broadcast ran =>
          cases ran with
          | broadcast owes =>
              obtain ⟨last, is⟩ := ended.phase _
              cases owes.symm.trans is
      | spurious ran => exact useful _ rfl
  | begin calling tells ready => cases gone calling
  | log inLog taken =>
      rw [ended.loc] at inLog
      exact inLog
  | release calling freeing => cases gone calling
  | call returned taken =>
      cases taken with
      | call at_ => cases gone at_

/-- A worker and one request. -/
theorem request_server_terminates_one :
    ∃ run : Run (OneWorker true), (OneWorker true).init (run.state 0) ∧ run.Fair Useful ∧
      (∀ n, Memory (run.state n)) ∧ ∃ n, (run.state n).server.main = .destroyed := by
  obtain ⟨_, _, acts, t, _, _, steps, ended⟩ := exists_begun_ended true
  obtain ⟨run, first, labels, meets, rest⟩ := steps.exists_run
  have start : (OneWorker true).init (run.state 0) := by
    rw [first]
    exact oneWorker_init true
  have fair : run.Fair Useful := Run.fair_of_rest rest ended.stuck
  have late : ∀ n, run.taken n = none → run.state n = t := by
    intro n idle
    rw [labels] at idle
    exact rest n (List.getElem?_eq_none_iff.mp idle)
  have memory : ∀ n, Memory (run.state n) := by
    intro n
    cases took : run.taken n with
    | none =>
        rw [late n took]
        exact ended.memory
    | some act => exact meets n act took
  refine ⟨run, start, fair, memory,
    request_server_terminates start (by simp [intMax]) memory fair ⟨acts.length, ?_⟩⟩
  intro n t' past took
  rw [labels, List.getElem?_eq_none past] at took
  cases took

end SysProg.M9
