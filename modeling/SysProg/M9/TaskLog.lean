import SysProg.Lib.Locking
import SysProg.M9.ServerRuns
import SysProg.M9.Tasks

/-! # The task log

The request server with its work functions taken apart: every worker makes the
message of its request, appends a line to the log file under `log_mutex` and
frees the argument.  `fclose` hands the line to the kernel in any number of
pieces, so that it is the mutex that keeps the lines apart.
-/

namespace SysProg.M9

open CString Decimal Heap Monitor Fifo Transition Relation

/-! ## `log_message` -/

/-- Where a worker stands in the work function of its request. -/
inductive TaskPc where
  /-- At the call. -/
  | ready
  /-- In `log_message`, before the lock. -/
  | logging (message : Bytes)
  /-- Before `fopen`. -/
  | opening (message : Bytes)
  /-- In `fclose`, which has yet to write `rest`. -/
  | writing (rest : Bytes)
  /-- Before the unlock. -/
  | unlocking
  /-- Before `free(arg)`. -/
  | freeing
  | returned
  deriving DecidableEq

/-- `"[%s] [Thread %d] %s\n"` -/
def logLine (tid : Nat) (time message : Bytes) : Bytes :=
  ascii "[" ++ time ++ ascii "] [Thread " ++ decimal tid ++ ascii "] " ++ message ++ [10]

/-- What `log_message` does under the lock.  Where `fopen` can fail, a file that
    cannot be opened is passed over; `time` is whatever `strftime` made of the
    clock. -/
inductive LogStep (fails : Bool) (tid : Nat) : TaskPc × Bytes → TaskPc × Bytes → Prop where
  | unopened {message file} : fails = true →
      LogStep fails tid (.opening message, file) (.unlocking, file)
  | opened {message file} (time : Bytes) :
      LogStep fails tid (.opening message, file) (.writing (logLine tid time message), file)
  | write {piece rest file} : piece ≠ [] →
      LogStep fails tid (.writing (piece ++ rest), file) (.writing rest, file ++ piece)
  | close {file} : LogStep fails tid (.writing [], file) (.unlocking, file)

/-- The work functions as users of the log's lock. -/
def logMessage {N : Nat} (fails : Bool) (tid : Fin N → Nat) :
    Locking.Threads (Fin N) Bytes TaskPc where
  aside _ k k' := (∃ message, k = .ready ∧ k' = .logging message) ∨
    (k = .freeing ∧ k' = .returned) ∨ (k = .returned ∧ k' = .ready)
  enter _ k k' := ∃ message, k = .logging message ∧ k' = .opening message
  inside i := LogStep fails (tid i)
  leave _ k k' := k = .unlocking ∧ k' = .freeing

/-- One call of `log_message`; `time` is missing when the file was not opened. -/
structure LogEntry (N : Nat) where
  worker : Fin N
  message : Bytes
  time : Option Bytes

namespace LogEntry

variable {N : Nat}

/-- What a call leaves in the file. -/
def text (tid : Fin N → Nat) (entry : LogEntry N) : Bytes :=
  match entry.time with
  | none => []
  | some time => logLine (tid entry.worker) time entry.message

def said (entry : LogEntry N) : Fin N × Bytes := (entry.worker, entry.message)

end LogEntry

/-- How far a section that began with `file` has come. -/
inductive Written (fails : Bool) (tid : Nat) (message file : Bytes) : TaskPc × Bytes → Prop where
  | opening : Written fails tid message file (.opening message, file)
  | writing {piece rest} (time : Bytes) : piece ++ rest = logLine tid time message →
      Written fails tid message file (.writing rest, file ++ piece)
  | unopened : fails = true → Written fails tid message file (.unlocking, file)
  | closed (time : Bytes) :
      Written fails tid message file (.unlocking, file ++ logLine tid time message)

theorem Written.step {fails : Bool} {tid : Nat} {message file : Bytes} {x y : TaskPc × Bytes}
    (written : Written fails tid message file x) (taken : LogStep fails tid x y) :
    Written fails tid message file y := by
  cases written with
  | opening =>
      cases taken with
      | unopened fails => exact .unopened fails
      | opened time =>
          have start :
              Written fails tid message file (.writing (logLine tid time message), file ++ []) :=
            .writing time rfl
          rwa [List.append_nil] at start
  | @writing sofar _ time whole =>
      cases taken with
      | write some_ =>
          rw [List.append_assoc]
          exact .writing time (by simpa using whole)
      | close =>
          rw [List.append_nil] at whole
          rw [whole]
          exact .closed time
  | unopened => cases taken
  | closed => cases taken

/-- Until the section ends the file has grown by the beginning of one line. -/
theorem Written.grown {fails : Bool} {tid : Nat} {message file now : Bytes} {k : TaskPc}
    (written : Written fails tid message file (k, now)) :
    ∃ part time, now = file ++ part ∧ part <+: logLine tid time message := by
  cases written with
  | opening => exact ⟨[], [], by simp, List.nil_prefix⟩
  | writing time whole => exact ⟨_, time, rfl, _, whole⟩
  | unopened => exact ⟨[], [], by simp, List.nil_prefix⟩
  | closed time => exact ⟨_, time, rfl, List.prefix_refl _⟩

theorem Written.run {fails : Bool} {tid : Nat} {message file : Bytes} {x : TaskPc × Bytes}
    (ran : ReflTransGen (LogStep fails tid) (.opening message, file) x) :
    Written fails tid message file x := by
  induction ran with
  | refl => exact .opening
  | tail _ taken ih => exact ih.step taken

variable {N : Nat} {fails : Bool} {tid : Fin N → Nat}

/-- A whole section appends one line, or nothing where `fopen` fails. -/
theorem section_appends {entered : Fin N × TaskPc} {file file' : Bytes}
    (whole : Locking.Section (logMessage fails tid) entered file file') :
    ∃ entry : LogEntry N, entered = (entry.worker, .logging entry.message) ∧
      file' = file ++ entry.text tid ∧ (entry.time = none → fails = true) := by
  obtain ⟨i, k⟩ := entered
  obtain ⟨k₁, k₂, k₃, ⟨message, is, rfl⟩, ran, ⟨rfl, rfl⟩⟩ := whole
  obtain rfl : k = .logging message := is
  cases Written.run ran with
  | unopened failed => exact ⟨⟨i, message, none⟩, rfl, by simp [LogEntry.text], fun _ => failed⟩
  | closed time => exact ⟨⟨i, message, some time⟩, rfl, rfl, nofun⟩

/-- Sections one after the other append their lines. -/
theorem sections_append {done : List (Fin N × TaskPc)} {file file' : Bytes}
    (serial : Locking.Serial (logMessage fails tid) done file file') :
    ∃ lines : List (LogEntry N),
      done = lines.map (fun entry => (entry.worker, .logging entry.message)) ∧
      file' = file ++ (lines.map (LogEntry.text tid)).flatten ∧
      ∀ entry ∈ lines, entry.time = none → fails = true := by
  induction serial with
  | nil => exact ⟨[], rfl, by simp, nofun⟩
  | snoc _ whole ih =>
      obtain ⟨lines, rfl, rfl, opened⟩ := ih
      obtain ⟨entry, rfl, rfl, last⟩ := section_appends whole
      refine ⟨lines ++ [entry], by simp, by simp, fun entry' inside => ?_⟩
      rcases List.mem_append.mp inside with before | now
      · exact opened entry' before
      · obtain rfl := List.mem_singleton.mp now
        exact last

/-! ## The server with its log -/

/-- The request server, the log and its lock, and the arguments freed so far. -/
structure LoggedServer (N : Nat) where
  server : Server N Request
  log : Locking.State (Fin N) Bytes TaskPc
  released : List (Fin N × Request)

/-- Who moves and how. -/
inductive LogAct (N : Nat) where
  | server (act : Act N)
  | begin (i : Fin N)
  | log (i : Fin N)
  | release (i : Fin N)

/-- Between the start of `log_message` and its end. -/
def TaskPc.InLog : TaskPc → Prop
  | .logging _ | .opening _ | .writing _ | .unlocking => True
  | .ready | .freeing | .returned => False

/-- One thread moves.  The server's own call of a work function is its return. -/
inductive LoggedStep (fails : Bool) (tid : Fin N → Nat) :
    LoggedServer N → LogAct N → LoggedServer N → Prop where
  | server {s : LoggedServer N} {act server} : (∀ i, act ≠ .call i) →
      ServerStep s.server act server →
      LoggedStep fails tid s (.server act) { s with server := server }
  | begin {s : LoggedServer N} {i req message} : s.server.worker i = .calling req →
      taskMessage req = some message → s.log.loc i = .ready →
      LoggedStep fails tid s (.begin i)
        { s with log := { s.log with loc := Function.update s.log.loc i (.logging message) } }
  | log {s : LoggedServer N} {i log} : (s.log.loc i).InLog →
      Locking.Step (logMessage fails tid) true s.log i log →
      LoggedStep fails tid s (.log i) { s with log := log }
  | release {s : LoggedServer N} {i req} : s.server.worker i = .calling req →
      s.log.loc i = .freeing →
      LoggedStep fails tid s (.release i)
        { s with
          log := { s.log with loc := Function.update s.log.loc i .returned }
          released := s.released ++ [(i, req)] }
  | call {s : LoggedServer N} {i server} : s.log.loc i = .returned →
      ServerStep s.server (.call i) server →
      LoggedStep fails tid s (.server (.call i))
        { s with
          server := server
          log := { s.log with loc := Function.update s.log.loc i .ready } }

/-- The server from `queue_init` on, with what the log file held before. -/
def loggedServer (fails : Bool) (tid : Fin N → Nat) (plan : List (Option Request)) (file : Bytes) :
    System (LoggedServer N) (LogAct N) where
  init s := (requestServer N plan).init s.server ∧
    s.log = ⟨file, fun _ => .ready, fun _ => none, []⟩ ∧ s.released = []
  step := LoggedStep fails tid

/-! ## What holds of every worker, whatever is enqueued -/

section workers

variable {α : Type}

structure Steady (s : Server N α) : Prop where
  op : ∀ i op, (s.mon.phase (.worker i)).op? = some op → s.worker i = .dequeuing
  unborn : ∀ i requests, s.main = .creating i requests → ∀ j : Fin N, i ≤ j → s.worker j = .unborn
  calls : ∀ i, byWorker i s.taken = byWorker i s.called ++ (s.worker i).toCall

namespace Steady

variable {s s' : Server N α}

/-- What changes neither the workers nor the calls they are in. -/
theorem frame (steady : Steady s) (worker : s'.worker = s.worker) (taken : s'.taken = s.taken)
    (called : s'.called = s.called)
    (ops : ∀ i op, (s'.mon.phase (.worker i)).op? = some op →
      ∃ op, (s.mon.phase (.worker i)).op? = some op)
    (main : ∀ i requests, s'.main = .creating i requests → s.main = .creating i requests) :
    Steady s' where
  op i op now := by
    obtain ⟨op, before⟩ := ops i op now
    rw [worker]
    exact steady.op i op before
  unborn i requests at_ := by
    rw [worker]
    exact steady.unborn i requests (main i requests at_)
  calls i := by
    rw [taken, called, worker]
    exact steady.calls i

/-- A worker goes on without taking or calling anything. -/
theorem rework {i : Fin N} {w : WorkerPc α} (mon) (steady : Steady s)
    (before : s.worker i ≠ .unborn) (quiet : (s.worker i).toCall = w.toCall)
    (ops : ∀ j, j ≠ i → (mon.phase (.worker j)).op? = (s.mon.phase (.worker j)).op?)
    (here : ∀ op, (mon.phase (.worker i)).op? = some op → w = .dequeuing) :
    Steady { s with mon := mon, worker := Function.update s.worker i w } where
  op j op now := by
    by_cases same : j = i
    · subst same
      simpa using here op now
    · simpa [same] using steady.op j op (by rwa [ops j same] at now)
  unborn k requests at_ j above := by
    have fresh := steady.unborn k requests at_ j above
    by_cases same : j = i
    · subst same
      exact absurd fresh before
    · simpa [same] using fresh
  calls j := by
    by_cases same : j = i
    · subst same
      simpa [← quiet] using steady.calls j
    · simpa [same] using steady.calls j

/-- The section of a dequeue. -/
theorem acquire {i : Fin N} {mon} (steady : Steady s)
    (ran : Monitor.Step queueCode s.mon (.acquire (.worker i)) mon) :
    Steady (Server.deliver { s with mon := mon } i (mon.phase (.worker i))) := by
  obtain ⟨op, inside, after⟩ := ran.op?_acquire
  have here := steady.op i op inside
  have others : ∀ j, j ≠ i → (mon.phase (.worker j)).op? = (s.mon.phase (.worker j)).op? :=
    fun j other => ran.op?_of_ne (by simpa [Label.thread] using other)
  unfold Server.deliver
  split
  · rename_i req result
    constructor
    · intro j op now
      by_cases same : j = i
      · subst same
        rw [result] at now
        cases now
      · simpa [same] using steady.op j op (by rwa [others j same] at now)
    · intro k requests at_ j above
      have fresh := steady.unborn k requests at_ j above
      by_cases same : j = i
      · subst same
        rw [here] at fresh
        cases fresh
      · simpa [same] using fresh
    · intro j
      have calls := steady.calls j
      by_cases same : j = i
      · subst same
        simpa [here, WorkerPc.toCall] using calls
      · simpa [same, byWorker_ne (Ne.symm same)] using calls
  · rename_i result
    refine steady.rework mon (by simp [here]) (by simp [here, WorkerPc.toCall]) others ?_
    intro op now
    rw [result] at now
    cases now
  · refine steady.frame rfl rfl rfl (fun j op' now => ?_) (fun _ _ at_ => at_)
    by_cases same : j = i
    · subst same
      exact ⟨op, inside⟩
    · exact ⟨op', by rwa [others j same] at now⟩

theorem init {heap header requests} :
    Steady ({ mon := ⟨queueInit heap header, fun _ => .idle none⟩
              main := .creating 0 requests
              worker := fun _ => .unborn
              enqueued := [], taken := [], called := [], freed := [] } : Server N α) where
  op i op now := by cases now
  unborn i requests at_ j above := rfl
  calls i := rfl

theorem step {act} (steady : Steady s) (taken : ServerStep s act s') : Steady s' := by
  cases taken with
  | @create i requests more at_ =>
      have fresh := steady.unborn i requests at_
      constructor
      · intro j op now
        have := steady.op j op now
        grind
      · intro k requests' at' j above
        have := fresh j (by grind)
        grind
      · intro j
        have := steady.calls j
        grind [WorkerPc.toCall]
  | created done at_ => exact steady.frame rfl rfl rfl (fun _ op now => ⟨op, now⟩) (by simp)
  | produce at_ ran =>
      refine steady.frame rfl rfl rfl (fun i op now => ⟨op, ?_⟩) (by simp)
      rwa [ran.op?_of_ne (by simp [Label.thread])] at now
  | close at_ ran =>
      refine steady.frame rfl rfl rfl (fun i op now => ⟨op, ?_⟩) (by simp)
      rwa [ran.op?_of_ne (by simp [Label.thread])] at now
  | join more at_ quiet exited =>
      exact steady.frame rfl rfl rfl (fun _ op now => ⟨op, now⟩) (by simp)
  | joined done at_ quiet =>
      exact steady.frame rfl rfl rfl (fun _ op now => ⟨op, now⟩) (by simp)
  | @fetch i mon at_ ran =>
      have same : Function.update s.worker i .dequeuing = s.worker := by simp [← at_]
      have := steady.rework (i := i) (w := .dequeuing) mon (by simp [at_]) (by simp [at_])
        (fun j other => ran.op?_of_ne (by simpa [Label.thread] using other))
        (fun _ _ => rfl)
      rwa [same] at this
  | @call i req at_ =>
      constructor
      · intro j op now
        have := steady.op j op now
        grind
      · intro k requests creating j above
        have := steady.unborn k requests creating j above
        grind
      · intro j
        have calls := steady.calls j
        by_cases same : j = i
        · subst same
          simpa [at_, WorkerPc.toCall] using calls
        · simpa [same, byWorker_ne (Ne.symm same)] using calls
  | @free i req at_ =>
      have := steady.rework (i := i) (w := .dequeuing) s.mon (by simp [at_])
        (by simp [at_, WorkerPc.toCall]) (fun _ _ => rfl) (fun _ _ => rfl)
      exact ⟨this.op, this.unborn, this.calls⟩
  | acquireMain ran =>
      refine steady.frame rfl rfl rfl (fun i op now => ⟨op, ?_⟩) (fun _ _ at_ => at_)
      rwa [ran.op?_of_ne (by simp [Label.thread])] at now
  | acquireWorker ran => exact steady.acquire ran
  | broadcast ran =>
      refine steady.frame rfl rfl rfl (fun i op now => ?_) (fun _ _ at_ => at_)
      exact ran.op?_kept (by simp) now
  | spurious ran =>
      refine steady.frame rfl rfl rfl (fun i op now => ?_) (fun _ _ at_ => at_)
      exact ran.op?_kept (by simp) now

theorem reachable {plan : List (Option α)} (reach : (requestServer N plan).Reachable s) :
    Steady s := by
  induction reach with
  | init start =>
      obtain ⟨heap, header, rfl⟩ := start
      exact init
  | step _ taken ih => exact ih.step taken

/-- Only its return takes a worker out of a work function, and only it is
    counted as a call. -/
theorem calling_kept {act} (steady : Steady s) (taken : ServerStep s act s')
    (other : ∀ i, act ≠ .call i) :
    s'.called = s.called ∧ ∀ i req, s.worker i = .calling req → s'.worker i = .calling req := by
  cases taken with
  | @create k requests more at_ =>
      refine ⟨rfl, fun i req calling => ?_⟩
      have fresh := steady.unborn k requests at_ ⟨k, more⟩ (Nat.le_refl k)
      grind
  | @call i req at_ => exact absurd rfl (other i)
  | @free k req' at_ =>
      refine ⟨rfl, fun i req calling => ?_⟩
      grind
  | @acquireWorker k mon ran =>
      obtain ⟨op, inside, _⟩ := ran.op?_acquire
      have here := steady.op k op inside
      unfold Server.deliver
      split
      · refine ⟨rfl, fun i req calling => ?_⟩
        dsimp only
        grind
      · refine ⟨rfl, fun i req calling => ?_⟩
        dsimp only
        grind
      · exact ⟨rfl, fun _ _ calling => calling⟩
  | created | produce | close | join | joined | fetch | acquireMain | broadcast | spurious =>
      exact ⟨rfl, fun _ _ calling => calling⟩

end Steady

end workers

/-! ## The invariant -/

/-- The message with which a section was entered. -/
def heard (entered : Fin N × TaskPc) : Fin N × Bytes :=
  match entered.2 with
  | .logging message => (entered.1, message)
  | _ => (entered.1, [])

/-- The worker is in the work function of a request with this message. -/
def Telling (message : Bytes) (w : WorkerPc Request) : Prop :=
  ∃ req, w = .calling req ∧ taskMessage req = some message

/-- How the three positions of a worker agree: in the server, in its work
    function and in the log's section.  The lists are what it has logged and what
    it has freed of the request it is still working on. -/
def Stage (w : WorkerPc Request) (since : Option TaskPc) (behind : List Bytes)
    (freed : List Request) : TaskPc → Prop
  | .ready => since = none ∧ behind = [] ∧ freed = []
  | .logging message => since = none ∧ behind = [] ∧ freed = [] ∧ Telling message w
  | .opening message =>
      since = some (.logging message) ∧ behind = [] ∧ freed = [] ∧ Telling message w
  | .writing _ | .unlocking =>
      ∃ message, since = some (.logging message) ∧ behind = [] ∧ freed = [] ∧ Telling message w
  | .freeing => ∃ message, since = none ∧ behind = [message] ∧ freed = [] ∧ Telling message w
  | .returned =>
      ∃ req message, since = none ∧ behind = [message] ∧ freed = [req] ∧ w = .calling req ∧
        taskMessage req = some message

theorem Stage.frame {w w' : WorkerPc Request} {k since behind freed}
    (stage : Stage w since behind freed k) (stays : ∀ req, w = .calling req → w' = .calling req) :
    Stage w' since behind freed k := by
  have telling : ∀ {message}, Telling message w → Telling message w' := by
    rintro message ⟨req, is, message⟩
    exact ⟨req, stays req is, message⟩
  cases k with
  | ready => exact stage
  | logging message | opening message =>
      obtain ⟨since, behind, freed, now⟩ := stage
      exact ⟨since, behind, freed, telling now⟩
  | writing rest | unlocking | freeing =>
      obtain ⟨message, since, behind, freed, now⟩ := stage
      exact ⟨message, since, behind, freed, telling now⟩
  | returned =>
      obtain ⟨req, message, since, behind, freed, is, message'⟩ := stage
      exact ⟨req, message, since, behind, freed, stays req is, message'⟩

/-- One worker's part in the histories. -/
def Tallied (s : LoggedServer N) (i : Fin N) : Prop :=
  ∃ behind freed, Stage (s.server.worker i) (s.log.since i) behind freed (s.log.loc i) ∧
    (byWorker i (s.log.done.map heard)).map some =
      (byWorker i s.server.called).map taskMessage ++ behind.map some ∧
    byWorker i s.released = byWorker i s.server.called ++ freed

structure TaskInv (fails : Bool) (tid : Fin N → Nat) (plan : List (Option Request)) (file : Bytes)
    (s : LoggedServer N) : Prop where
  server : (requestServer N plan).Reachable s.server
  log : (Locking.system (logMessage fails tid) true file fun _ => .ready).Reachable s.log
  tallied : ∀ i, Tallied s i

namespace TaskInv

variable {plan : List (Option Request)} {file : Bytes} {s s' : LoggedServer N}

theorem init (start : (loggedServer fails tid plan file).init s) :
    TaskInv fails tid plan file s where
  server := .init start.1
  log := .init start.2.1
  tallied i := by
    obtain ⟨⟨heap, header, is⟩, log, released⟩ := start
    refine ⟨[], [], ?_, ?_, ?_⟩
    · rw [log]
      exact ⟨rfl, rfl, rfl⟩
    · simp [log, is, byWorker]
    · simp [released, is, byWorker]

/-- Any step of the server but a return. -/
theorem serverStep {act server} (inv : TaskInv fails tid plan file s) (other : ∀ i, act ≠ .call i)
    (taken : ServerStep s.server act server) :
    TaskInv fails tid plan file { s with server := server } where
  server := inv.server.step taken
  log := inv.log
  tallied i := by
    obtain ⟨called, stays⟩ := (Steady.reachable inv.server).calling_kept taken other
    obtain ⟨behind, freed, stage, logged, released⟩ := inv.tallied i
    exact ⟨behind, freed, stage.frame (stays i), by rw [called]; exact logged,
      by rw [called]; exact released⟩

theorem begin {i req message} (inv : TaskInv fails tid plan file s)
    (calling : s.server.worker i = .calling req) (tells : taskMessage req = some message)
    (ready : s.log.loc i = .ready) :
    TaskInv fails tid plan file
      { s with log := { s.log with loc := Function.update s.log.loc i (.logging message) } } := by
  obtain ⟨behind, freed, stage, logged, released⟩ := inv.tallied i
  rw [ready] at stage
  obtain ⟨outside, rfl, rfl⟩ := stage
  refine ⟨inv.server, inv.log.step (.aside outside (.inl ⟨message, ready, rfl⟩)), fun j => ?_⟩
  by_cases same : j = i
  · subst same
    refine ⟨[], [], ?_, logged, released⟩
    simpa [Stage] using ⟨outside, req, calling, tells⟩
  · simpa [Tallied, same] using inv.tallied j

theorem release {i req} (inv : TaskInv fails tid plan file s)
    (calling : s.server.worker i = .calling req) (freeing : s.log.loc i = .freeing) :
    TaskInv fails tid plan file
      { s with
        log := { s.log with loc := Function.update s.log.loc i .returned }
        released := s.released ++ [(i, req)] } := by
  obtain ⟨behind, freed, stage, logged, released⟩ := inv.tallied i
  rw [freeing] at stage
  obtain ⟨message, outside, rfl, rfl, req', is, tells⟩ := stage
  obtain rfl : req' = req := by simpa [calling] using is.symm
  refine ⟨inv.server, inv.log.step (.aside outside (.inr (.inl ⟨freeing, rfl⟩))), fun j => ?_⟩
  by_cases same : j = i
  · subst same
    refine ⟨[message], [req'], ?_, logged, by simpa using released⟩
    simpa [Stage] using ⟨outside, calling, tells⟩
  · simpa [Tallied, same, byWorker_ne (Ne.symm same)] using inv.tallied j

theorem call {i server} (inv : TaskInv fails tid plan file s) (returned : s.log.loc i = .returned)
    (taken : ServerStep s.server (.call i) server) :
    TaskInv fails tid plan file
      { s with
        server := server
        log := { s.log with loc := Function.update s.log.loc i .ready } } := by
  obtain ⟨behind, freed, stage, logged, released⟩ := inv.tallied i
  rw [returned] at stage
  obtain ⟨req, message, outside, rfl, rfl, is, tells⟩ := stage
  refine ⟨inv.server.step taken, inv.log.step (.aside outside (.inr (.inr ⟨returned, rfl⟩))),
    fun j => ?_⟩
  cases taken with
  | @call _ req' at_ =>
      obtain rfl : req = req' := by simpa [at_] using is.symm
      by_cases same : j = i
      · subst same
        refine ⟨[], [], ?_, by simpa [tells] using logged, by simpa using released⟩
        simpa [Stage] using outside
      · simpa [Tallied, same, byWorker_ne (Ne.symm same)] using inv.tallied j

/-- A step of `log_message`. -/
theorem logStep {i log} (inv : TaskInv fails tid plan file s) (inLog : (s.log.loc i).InLog)
    (taken : Locking.Step (logMessage fails tid) true s.log i log) :
    TaskInv fails tid plan file { s with log := log } := by
  refine ⟨inv.server, inv.log.step taken, fun j => ?_⟩
  by_cases same : j = i
  swap
  · -- the other workers keep their positions
    cases taken with
    | aside | enter | inside => simpa [Tallied, same] using inv.tallied j
    | @leave k k₀ entered leave =>
        have none_ : byWorker j [heard (i, k₀)] = [] := by
          cases k₀ <;> exact byWorker_ne (Ne.symm same) _
        simpa [Tallied, same, none_] using inv.tallied j
  subst same
  obtain ⟨behind, freed, stage, logged, released⟩ := inv.tallied j
  cases taken with
  | aside outside move =>
      rcases move with ⟨message, is, _⟩ | ⟨is, _⟩ | ⟨is, _⟩ <;> rw [is] at inLog <;>
        exact inLog.elim
  | enter outside alone move =>
      obtain ⟨message, is, rfl⟩ := move
      rw [is] at stage
      obtain ⟨_, rfl, rfl, telling⟩ := stage
      refine ⟨[], [], ?_, logged, released⟩
      simpa [Stage, is] using telling
  | inside entered move =>
      generalize at_ : s.log.loc j = k at move stage
      cases move with
      | unopened =>
          obtain ⟨since, rfl, rfl, telling⟩ := stage
          refine ⟨[], [], ?_, logged, released⟩
          simpa [Stage] using ⟨_, since, telling⟩
      | opened time =>
          obtain ⟨since, rfl, rfl, telling⟩ := stage
          refine ⟨[], [], ?_, logged, released⟩
          simpa [Stage] using ⟨_, since, telling⟩
      | write some_ =>
          obtain ⟨message, since, rfl, rfl, telling⟩ := stage
          refine ⟨[], [], ?_, logged, released⟩
          simpa [Stage] using ⟨_, since, telling⟩
      | close =>
          obtain ⟨message, since, rfl, rfl, telling⟩ := stage
          refine ⟨[], [], ?_, logged, released⟩
          simpa [Stage] using ⟨_, since, telling⟩
  | @leave k k₀ entered move =>
      obtain ⟨is, rfl⟩ := move
      rw [is] at stage
      obtain ⟨message, since, rfl, rfl, telling⟩ := stage
      obtain rfl : k₀ = .logging message := by simpa [entered] using since
      refine ⟨[message], [], ?_, by simpa [heard] using logged, released⟩
      simpa [Stage] using telling

theorem step {act} (inv : TaskInv fails tid plan file s) (taken : LoggedStep fails tid s act s') :
    TaskInv fails tid plan file s' := by
  cases taken with
  | server other taken => exact inv.serverStep other taken
  | begin calling tells ready => exact inv.begin calling tells ready
  | log inLog taken => exact inv.logStep inLog taken
  | release calling freeing => exact inv.release calling freeing
  | call returned taken => exact inv.call returned taken

theorem reachable (reach : (loggedServer fails tid plan file).Reachable s) :
    TaskInv fails tid plan file s := by
  induction reach with
  | init start => exact init start
  | step _ taken ih => exact ih.step taken

end TaskInv

/-! ## What the log holds -/

theorem Stage.inside {w : WorkerPc Request} {k since behind freed message}
    (stage : Stage w since behind freed k) (entered : since = some (.logging message)) :
    Telling message w := by
  cases k with
  | ready | logging =>
      rw [stage.1] at entered
      cases entered
  | opening =>
      obtain ⟨since, _, _, telling⟩ := stage
      rw [since] at entered
      cases entered
      exact telling
  | writing | unlocking =>
      obtain ⟨_, since, _, _, telling⟩ := stage
      rw [since] at entered
      cases entered
      exact telling
  | freeing =>
      obtain ⟨_, since, _⟩ := stage
      rw [since] at entered
      cases entered
  | returned =>
      obtain ⟨_, _, since, _⟩ := stage
      rw [since] at entered
      cases entered

/-- What a worker has logged of the request it is still working on is its message. -/
theorem Stage.behind {w : WorkerPc Request} {k since behind freed}
    (stage : Stage w since behind freed k) :
    behind.map some <+: w.toCall.map taskMessage := by
  cases k with
  | ready | logging | opening =>
      rw [stage.2.1]
      exact List.nil_prefix
  | writing | unlocking =>
      obtain ⟨_, _, rfl, _⟩ := stage
      exact List.nil_prefix
  | freeing =>
      obtain ⟨_, _, rfl, _, req, rfl, tells⟩ := stage
      simp [WorkerPc.toCall, tells]
  | returned =>
      obtain ⟨req, _, _, rfl, _, rfl, tells⟩ := stage
      simp [WorkerPc.toCall, tells]

theorem heard_said (lines : List (LogEntry N)) :
    (lines.map fun entry => (entry.worker, TaskPc.logging entry.message)).map heard =
      lines.map LogEntry.said := by
  rw [List.map_map]
  rfl

/-- Behind what it held before, the file holds whole lines, and at most the
    beginning of one more.  An entry without a text is a call whose `fopen` failed.
    Every worker's entries are the messages of the requests it took, in its order,
    all of them but at most the last. -/
def WholeLines (fails : Bool) (tid : Fin N → Nat) (file : Bytes) (s : LoggedServer N) : Prop :=
  ∃ (lines : List (LogEntry N)) (part : Bytes),
    s.log.shared = file ++ (lines.map (LogEntry.text tid)).flatten ++ part ∧
    (part = [] ∨ ∃ i message time, Telling message (s.server.worker i) ∧
      part <+: logLine (tid i) time message) ∧
    (∀ entry ∈ lines, entry.time = none → fails = true) ∧
    ∀ i, (byWorker i (lines.map LogEntry.said)).map some <+:
        (byWorker i s.server.taken).map taskMessage ∧
      (byWorker i s.server.taken).length ≤ (byWorker i (lines.map LogEntry.said)).length + 1

/-- The log is whole lines, whatever the interleaving, and NULL requests included. -/
theorem task_log_whole_lines {plan : List (Option Request)} {file : Bytes} {s : LoggedServer N}
    (reach : (loggedServer fails tid plan file).Reachable s) : WholeLines fails tid file s := by
  have inv := TaskInv.reachable reach
  obtain ⟨mid, ran, now⟩ := Locking.serial inv.log
  obtain ⟨lines, done, rfl, opened⟩ := sections_append ran
  have perWorker : ∀ i, (byWorker i (lines.map LogEntry.said)).map some <+:
        (byWorker i s.server.taken).map taskMessage ∧
      (byWorker i s.server.taken).length ≤ (byWorker i (lines.map LogEntry.said)).length + 1 := by
    intro i
    obtain ⟨behind, freed, stage, logged, _⟩ := inv.tallied i
    rw [done, heard_said] at logged
    have taken := (Steady.reachable inv.server).calls i
    constructor
    · rw [logged, taken, List.map_append]
      exact (List.prefix_append_right_inj _).mpr stage.behind
    · have counts := congrArg List.length logged
      have last : (s.server.worker i).toCall.length ≤ 1 := by
        cases s.server.worker i <;> simp [WorkerPc.toCall]
      simp only [List.length_map, List.length_append] at counts
      rw [taken, List.length_append]
      omega
  rcases now.split with ⟨_, whole⟩ | ⟨i, k₀, k₁, entered, ⟨message, rfl, rfl⟩, inside⟩
  · exact ⟨lines, [], by rw [whole, List.append_nil], .inl rfl, opened, perWorker⟩
  · obtain ⟨part, time, grown, line⟩ := (Written.run inside).grown
    obtain ⟨behind, freed, stage, _⟩ := inv.tallied i
    exact ⟨lines, part, grown, .inr ⟨i, message, time, stage.inside entered, line⟩, opened,
      perWorker⟩

/-- There is room for another node of the queue. -/
def Memory (s : LoggedServer N) : Prop := ∃ node, s.server.mon.shared.heap node = none

def logDraw : Draw := ⟨0, true, true, 0⟩

/-- The server after `queue_init`. -/
def oneWorker : LoggedServer 1 where
  server :=
    { mon := ⟨queueInit (fun _ => none) 1, fun _ => .idle none⟩
      main := .creating 0 (mainRequests 1 [logDraw]), worker := fun _ => .unborn
      enqueued := [], taken := [], called := [], freed := [] }
  log := ⟨[], fun _ => .ready, fun _ => none, []⟩
  released := []

abbrev OneWorker (fails : Bool) : System (LoggedServer 1) (LogAct 1) :=
  loggedServer fails (fun _ => 7) (mainRequests 1 [logDraw]) []

theorem oneWorker_init (fails : Bool) : (OneWorker fails).init oneWorker := ⟨⟨_, _, rfl⟩, rfl, rfl⟩

/-- The worker is in `fclose`, and the kernel has the first byte of its line. -/
structure Begun (s : LoggedServer 1) : Prop where
  memory : Memory s
  file : s.log.shared = [91]
  main : s.server.main = .producing []
  worker : s.server.worker 0 = .calling ⟨.writeLog, .message "Log message 1"⟩
  loc : ∃ rest, s.log.loc 0 = .writing rest ∧ 91 :: rest = logLine 7 [] (ascii "Log message 1")

/-- `thread_pool_destroy` has returned and nobody is left. -/
structure Ended (s : LoggedServer 1) : Prop where
  memory : Memory s
  file : s.log.shared = logLine 7 [] (ascii "Log message 1")
  main : s.server.main = .destroyed
  worker : ∀ i, s.server.worker i = .exited
  phase : ∀ t, ∃ last, s.server.mon.phase t = .idle last
  loc : ∀ i, s.log.loc i = .ready

/-- A run of the server, seen at two moments. -/
theorem exists_begun_ended (fails : Bool) : ∃ acts s acts' t,
    Steps (OneWorker fails) (fun s _ => Memory s) oneWorker acts s ∧ Begun s ∧
    Steps (OneWorker fails) (fun s _ => Memory s) oneWorker acts' t ∧ Ended t := by
  have first : Steps (OneWorker fails) (fun s _ => Memory s) oneWorker [] oneWorker := .start
  have created := (first.step (.server (by simp) (.create (by decide) rfl)) ⟨3, rfl⟩).step
    (.server (by simp) (.created (by decide) rfl)) ⟨3, rfl⟩
  have produced := ((created.step
    (.server (by simp) (.produce (n := 2) rfl (.enter rfl rfl))) ⟨3, rfl⟩).step
    (.server (by simp) (.acquireMain (.leaveOwing (.inl rfl) rfl))) ⟨3, rfl⟩).step
    (.server (by simp) (.broadcast (.broadcast (t := .main) rfl))) ⟨3, rfl⟩
  have taken := (produced.step
    (.server (by simp) (.fetch (i := 0) rfl (.enter rfl rfl))) ⟨3, rfl⟩).step
    (.server (by simp) (.acquireWorker (i := 0) (.leave (.inl rfl) rfl))) ⟨3, rfl⟩
  have locked := (taken.step (.begin (i := 0) rfl rfl rfl) ⟨3, rfl⟩).step
    (.log (i := 0) trivial (.enter rfl (fun _ _ => rfl) ⟨_, rfl, rfl⟩)) ⟨3, rfl⟩
  have begun := (locked.step (.log (i := 0) trivial (.inside rfl (.opened []))) ⟨3, rfl⟩).step
    (.log (i := 0) trivial (.inside rfl (@LogStep.write fails 7 [91] _ _ (by simp)))) ⟨3, rfl⟩
  -- the rest of the line in one piece
  have written := begun.step (.log (i := 0) trivial (.inside rfl
    (@LogStep.write fails 7 ((logLine 7 [] (ascii "Log message 1")).drop 1) [] _ (by decide))))
    ⟨3, rfl⟩
  have logged := (written.step (.log (i := 0) trivial (.inside rfl .close)) ⟨3, rfl⟩).step
    (.log (i := 0) trivial (.leave rfl ⟨rfl, rfl⟩)) ⟨3, rfl⟩
  have worked := ((logged.step (.release (i := 0) rfl rfl) ⟨3, rfl⟩).step
    (.call (i := 0) rfl (.call rfl)) ⟨3, rfl⟩).step
    (.server (by simp) (.free (i := 0) rfl)) ⟨3, rfl⟩
  have closed := ((worked.step (.server (by simp) (.close rfl (.enter rfl rfl))) ⟨3, rfl⟩).step
    (.server (by simp) (.acquireMain (.leaveOwing (.inl rfl) rfl))) ⟨3, rfl⟩).step
    (.server (by simp) (.broadcast (.broadcast (t := .main) rfl))) ⟨3, rfl⟩
  have left := (closed.step
    (.server (by simp) (.fetch (i := 0) rfl (.enter rfl rfl))) ⟨3, rfl⟩).step
    (.server (by simp) (.acquireWorker (i := 0) (.leaveWaking (.inl rfl) rfl))) ⟨3, rfl⟩
  have joined := (left.step (.server (by simp) (.join (by decide) rfl rfl rfl)) ⟨3, rfl⟩).step
    (.server (by simp) (.joined (by decide) rfl rfl)) ⟨3, rfl⟩
  refine ⟨_, _, _, _, begun, ⟨⟨3, rfl⟩, rfl, rfl, rfl, _, rfl, rfl⟩, joined,
    ⟨⟨3, rfl⟩, rfl, rfl, ?_, ?_, ?_⟩⟩
  · intro i
    rw [Subsingleton.elim i 0]
    rfl
  · intro t
    cases t with
    | main => exact ⟨_, rfl⟩
    | worker i =>
        rw [Subsingleton.elim i 0]
        exact ⟨_, rfl⟩
  · intro i
    rw [Subsingleton.elim i 0]
    rfl

theorem exists_begun (fails : Bool) : ∃ s, (OneWorker fails).Reachable s ∧ Begun s := by
  obtain ⟨_, s, _, _, steps, begun, _⟩ := exists_begun_ended fails
  exact ⟨s, (steps.reachable (.init (oneWorker_init fails))).of_only, begun⟩

theorem task_log_whole_lines_begun :
    ∃ s : LoggedServer 1, (OneWorker true).Reachable s ∧ s.log.shared = [91] ∧
      WholeLines true (fun _ => 7) [] s := by
  obtain ⟨s, reach, begun⟩ := exists_begun true
  exact ⟨s, reach, begun.file, task_log_whole_lines reach⟩

end SysProg.M9
