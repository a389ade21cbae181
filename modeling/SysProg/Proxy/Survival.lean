import SysProg.Proxy.Isolation

/-! # The proxy outlives its connections

A process that ends does so by its shutdown, a failed call of one connection or
a broken pipe.  Where no connection meets such a failure, only the shutdown
after SIGINT is left, and the workers come to an end with every request that was
queued.
-/

namespace SysProg.Proxy

open CString Scan Interaction Transition

variable {A : Type} {N : Nat}

/-- No call fails that the handler stops the process for, or leads to such a call:
    the last address does not refuse, only the client's `recv` fails, and only the
    `send` to the target. -/
def Steady (c : Int) : (e : Call A) → e.Answer → Prop
  | .connect _ _ [], connects => connects = true
  | .recv fd _, some bytes => fd = c → TokensFit (untilZero bytes)
  | .recv fd _, none => fd = c
  | .send _ _ false, none => False
  | _, _ => True

/-- No connection is aborted before it is accepted. -/
def Accepting : (e : Call A) → e.Answer → Prop
  | .accept, fd => 0 ≤ fd
  | _, _ => True

def steady : Conditions A where
  main := Accepting
  worker := Steady
  broken := False
  stops _ := False

theorem steady_sound : (steady (A := A)).Sound where
  terms c :=
    { uses := fun _ _ => id
      refused := by
        rintro ⟨fd, p, refused⟩
        cases refused
      bounds := fun _ _ allowed => .inl (allowed rfl)
      exits := by
        rintro (⟨fd, size, other, allowed⟩ | ⟨bytes, allowed⟩)
        · exact absurd allowed other
        · exact allowed.elim }
  accepts fd negative valid := absurd negative (Int.not_lt.mpr valid)

/-! ## The course of the process -/

/-- `main` has left its loop. -/
def MainPc.Past : MainPc A → Prop
  | .checking | .passing _ => False
  | _ => True

/-- `main` has closed the queue. -/
def MainPc.Joining : MainPc A → Prop
  | .joining _ | .exited => True
  | _ => False

structure Course (s : Server N A) : Prop where
  stopped : s.main.Past → s.stop = true
  closed : s.closed = true → s.main.Joining
  left : ∀ i, s.worker i = .exited → s.closed = true ∧ s.queue = []
  joined : ∀ j, s.main = .joining j → ∀ i : Fin N, i.val < j → s.worker i = .exited
  shutdown : s.ended = some .shutdown → s.stop = true ∧ ∀ i, s.worker i = .exited

section

variable {s s' : Server N A} {act : Act N A}

/-- Who has left stays away when another worker moves. -/
theorem exited_setWorker {i j : Fin N} {pc : WorkerPc A} (gone : s.worker j = .exited)
    (here : s.worker i ≠ .exited) : (s.setWorker i pc).worker j = .exited := by
  rw [Server.worker_setWorker, if_neg]
  · exact gone
  · rintro rfl
    exact here gone

theorem exited_of_setWorker {i j : Fin N} {pc : WorkerPc A} (stays : pc ≠ .exited)
    (gone : (s.setWorker i pc).worker j = .exited) : s.worker j = .exited := by
  rcases Server.worker_cases gone with ⟨_, same⟩ | ⟨_, gone⟩
  · exact absurd same stays
  · exact gone

theorem Course.init (start : (proxyServer N A).init s) : Course s := by
  obtain ⟨table, sockfd, _, _, rfl⟩ := start
  exact ⟨nofun, nofun, nofun, nofun, nofun⟩

theorem Course.opened (course : Course s) {pc : MainPc A} (at_ : s.main = pc)
    (before : ¬ pc.Joining) : s.closed ≠ true := by
  intro isClosed
  have past := course.closed isClosed
  rw [at_] at past
  exact before past

/-- A worker moves that stays in the loop. -/
theorem Course.move (course : Course s) {i : Fin N} {before pc : WorkerPc A}
    (at_ : s.worker i = before) (here : before ≠ .exited)
    (worker : s'.worker = (s.setWorker i pc).worker) (stays : pc ≠ .exited)
    (main : s'.main = s.main) (stop : s'.stop = s.stop) (closed : s'.closed = s.closed)
    (queue : s.queue = [] → s'.queue = []) (ended : s'.ended ≠ some .shutdown) : Course s' where
  stopped past := by
    rw [stop]
    exact course.stopped (main ▸ past)
  closed isClosed := by
    rw [main]
    exact course.closed (closed ▸ isClosed)
  left j gone := by
    rw [worker] at gone
    obtain ⟨isClosed, empty⟩ := course.left j (exited_of_setWorker stays gone)
    exact ⟨closed ▸ isClosed, queue empty⟩
  joined j joining i' earlier := by
    rw [worker]
    exact exited_setWorker (course.joined j (main ▸ joining) i' earlier) (at_ ▸ here)
  shutdown same := absurd same ended

theorem Course.step (course : Course s) (taken : ServerStep s act s') (alive : s.ended = none)
    (quiet : ∀ i k c e rest, s.worker i = .handling k c (.call e rest) →
      handedOver k e = []) : Course s' := by
  have running : s.ended ≠ some .shutdown := by simp [alive]
  cases taken with
  | sigint =>
      exact ⟨fun _ => rfl, course.closed, course.left, course.joined, fun e => absurd e running⟩
  | enterPass at_ _ =>
      exact ⟨nofun, fun isClosed => absurd isClosed (course.opened at_ id), course.left, nofun,
        fun e => absurd e running⟩
  | leaveLoop at_ stopped =>
      exact ⟨fun _ => stopped, fun isClosed => absurd isClosed (course.opened at_ id), course.left,
        nofun, fun e => absurd e running⟩
  | mainCalls at_ _ =>
      have opened := course.opened at_ id
      exact ⟨nofun, fun isClosed => absurd isClosed opened,
        fun i gone => absurd (course.left i gone).1 opened, nofun, fun e => absurd e running⟩
  | endPass at_ =>
      exact ⟨nofun, fun isClosed => absurd isClosed (course.opened at_ id), course.left, nofun,
        fun e => absurd e running⟩
  | mainStops at_ => exact ⟨course.stopped, course.closed, course.left, course.joined, nofun⟩
  | close at_ =>
      exact ⟨fun _ => course.stopped (by simp [at_, MainPc.Past]),
        fun isClosed => absurd isClosed (course.opened at_ id), course.left, nofun,
        fun e => absurd e running⟩
  | closeQueue at_ =>
      refine ⟨fun _ => course.stopped (by simp [at_, MainPc.Past]), fun _ => trivial,
        fun i gone => ⟨rfl, (course.left i gone).2⟩, fun j same i before => ?_,
        fun e => absurd e running⟩
      cases same
      exact absurd before (Nat.not_lt_zero _)
  | join more at_ gone =>
      refine ⟨fun _ => course.stopped (by simp [at_, MainPc.Past]), fun _ => trivial, course.left,
        fun j same i before => ?_, fun e => absurd e running⟩
      cases same
      rcases Nat.lt_succ_iff_lt_or_eq.mp before with earlier | last
      · exact course.joined _ at_ i earlier
      · obtain rfl : i = ⟨_, more⟩ := Fin.ext last
        exact gone
  | joined done at_ =>
      refine ⟨fun _ => course.stopped (by simp [at_, MainPc.Past]), fun _ => trivial, course.left,
        nofun, fun _ => ⟨course.stopped (by simp [at_, MainPc.Past]), fun i => ?_⟩⟩
      exact course.joined _ at_ i (Nat.lt_of_lt_of_le i.isLt (Nat.not_lt.mp done))
  | dequeue frame idle queued =>
      exact course.move idle nofun rfl nofun rfl rfl rfl (by simp [queued]) running
  | leave idle empty isClosed =>
      refine ⟨course.stopped, course.closed, fun j _ => ⟨isClosed, empty⟩, fun j at_ i before => ?_,
        fun e => absurd e running⟩
      exact exited_setWorker (course.joined j at_ i before) (by simp [idle])
  | calls at_ _ =>
      refine course.move at_ nofun rfl nofun rfl rfl rfl (fun empty => ?_) running
      simp [empty, quiet _ _ _ _ _ at_]
  | pipe _ _ => exact ⟨course.stopped, course.closed, course.left, course.joined, nofun⟩
  | finish at_ => exact course.move at_ nofun rfl nofun rfl rfl rfl id running
  | workerStops _ => exact ⟨course.stopped, course.closed, course.left, course.joined, nofun⟩

theorem Course.reachable {cond : Conditions A} (sound : cond.Sound)
    (reach : ((proxyServer N A).only cond.Meets).Reachable s) : Course s := by
  refine reach.invariant (fun _ start => .init start) fun s act s' before course taken => ?_
  have inv := Inv.reachable sound before
  exact course.step taken.1.2 taken.1.1 fun _ _ _ _ _ at_ => inv.quiet at_

/-! ## Steps of a worker -/

def ofWorker (i : Fin N) : Act N A → Prop
  | .worker j | .calls j _ _ | .pipe j => j = i
  | _ => False

/-- The steps of the others leave a worker where it stands. -/
theorem ServerStep.worker_eq {i : Fin N} (taken : ServerStep s act s') (other : ¬ ofWorker i act) :
    s'.worker i = s.worker i := by
  cases taken with
  | dequeue _ _ _ => exact (Server.worker_setWorker ..).trans (if_neg (Ne.symm other))
  | leave _ _ _ => exact (Server.worker_setWorker ..).trans (if_neg (Ne.symm other))
  | calls _ _ => exact (Server.worker_setWorker ..).trans (if_neg (Ne.symm other))
  | finish _ => exact (Server.worker_setWorker ..).trans (if_neg (Ne.symm other))
  | _ => rfl

/-- What a worker at connection `k` does next: finish it, get an answer to its
    call, or stop the process. -/
theorem ServerStep.handling_cases {i : Fin N} {k : Nat} {c : Int} {p : ProxyProg A Unit}
    (taken : ServerStep s act s') (own : ofWorker i act) (at_ : s.worker i = .handling k c p) :
    (s'.worker i = .idle ∧ k ∈ s'.finished) ∨
      (∃ q, Prog.Rest q p ∧ s'.worker i = .handling k c q) ∨
      (s'.worker i = s.worker i ∧ s'.ended ≠ none) := by
  cases taken with
  | dequeue _ idle _ =>
      cases own
      rw [at_] at idle
      cases idle
  | leave idle _ _ =>
      cases own
      rw [at_] at idle
      cases idle
  | calls here answers =>
      cases own
      rw [at_] at here
      cases here
      exact .inr (.inl ⟨_, .answered _ _ _, (Server.worker_setWorker ..).trans (if_pos rfl)⟩)
  | finish here =>
      cases own
      rw [at_] at here
      cases here
      exact .inl ⟨(Server.worker_setWorker ..).trans (if_pos rfl), by simp⟩
  | pipe _ _ => exact .inr (.inr ⟨rfl, nofun⟩)
  | workerStops _ => exact .inr (.inr ⟨rfl, nofun⟩)
  | _ => cases own

/-- Every call may at least fail. -/
theorem Answers.exists (new : Open) (table : Table) (e : Call A) :
    ∃ r table', Answers new table e r table' := by
  cases e with
  | accept => exact ⟨(-1 : Int), table, .inl ⟨(by decide : (-1 : Int) < 0), rfl⟩⟩
  | socket p => exact ⟨(-1 : Int), table, .inl ⟨(by decide : (-1 : Int) < 0), rfl⟩⟩
  | mallocInt => exact ⟨none, table, rfl⟩
  | mallocRequest => exact ⟨false, table, rfl⟩
  | free p => exact ⟨(), table, rfl⟩
  | enqueue arg => exact ⟨(), table, rfl⟩
  | recv fd size => exact ⟨none, table, rfl, nofun⟩
  | send fd bytes nosignal => exact ⟨none, table, rfl, nofun⟩
  | close fd => exact ⟨(), _, rfl⟩
  | getaddrinfo hostname port => exact ⟨none, table, rfl, nofun⟩
  | freeaddrinfo result => exact ⟨(), table, rfl⟩
  | connect fd p next => exact ⟨false, table, rfl, nofun⟩

theorem enabled_handling {i : Fin N} {k : Nat} {c : Int} {p : ProxyProg A Unit}
    (alive : s.ended = none) (at_ : s.worker i = .handling k c p) :
    Enabled (proxyServer N A) (ofWorker i) s := by
  cases p with
  | ret u => exact ⟨.worker i, _, rfl, alive, .finish at_⟩
  | halt h => exact ⟨.worker i, _, rfl, alive, .workerStops at_⟩
  | call e rest =>
      obtain ⟨r, table', answers⟩ := Answers.exists (.target k) s.table e
      exact ⟨.calls i e r, _, rfl, alive, .calls at_ answers⟩

theorem enabled_idle {i : Fin N} (alive : s.ended = none) (idle : s.worker i = .idle)
    (queued : s.queue ≠ []) : Enabled (proxyServer N A) (ofWorker i) s := by
  obtain ⟨job, jobs, queued⟩ := List.exists_cons_of_ne_nil queued
  exact ⟨.worker i, _, rfl, alive, .dequeue .blank idle queued⟩

/-! ## Places in the queue -/

/-- Connection `k` is queued with at most `j` others before it. -/
def Within (k j : Nat) (queue : List Job) : Prop :=
  ∃ before job after, queue = before ++ job :: after ∧ before.length ≤ j ∧ job.conn = k

theorem Within.append {k j : Nat} {queue : List Job} (within : Within k j queue) (more : List Job) :
    Within k j (queue ++ more) := by
  obtain ⟨before, job, after, rfl, place, own⟩ := within
  exact ⟨before, job, after ++ more, by simp, place, own⟩

/-- When the first is taken, it is `k` or `k` moves up. -/
theorem Within.tail {k j : Nat} {job : Job} {jobs : List Job} (within : Within k j (job :: jobs)) :
    job.conn = k ∨ ∃ j' < j, Within k j' jobs := by
  obtain ⟨before, found, after, queue, place, own⟩ := within
  cases before with
  | nil =>
      cases queue
      exact .inl own
  | cons first before =>
      cases queue
      refine .inr ⟨before.length, ?_, before, found, after, rfl, Nat.le_refl _, own⟩
      exact place

theorem Within.mono {k j j' : Nat} {queue : List Job} (within : Within k j' queue) (le : j' ≤ j) :
    Within k j queue := by
  obtain ⟨before, job, after, queue, place, own⟩ := within
  exact ⟨before, job, after, queue, Nat.le_trans place le, own⟩

theorem Within.ne_nil {k j : Nat} {queue : List Job} (within : Within k j queue) : queue ≠ [] := by
  obtain ⟨before, job, after, rfl, _⟩ := within
  simp

/-- Some worker is at connection `k`. -/
def InProgress (k : Nat) (s : Server N A) : Prop := ∃ i c p, s.worker i = .handling k c p

/-- A queued connection does not move back, and leaves the queue only to a worker. -/
theorem ServerStep.within {k j : Nat} (taken : ServerStep s act s') (within : Within k j s.queue) :
    Within k j s'.queue ∨ InProgress k s' := by
  cases taken with
  | mainCalls _ _ => exact .inl (within.append _)
  | calls _ _ => exact .inl (within.append _)
  | dequeue frame _ queued =>
      rw [queued] at within
      rcases within.tail with rfl | ⟨j', less, within⟩
      · exact .inr ⟨_, _, _, (Server.worker_setWorker ..).trans (if_pos rfl)⟩
      · exact .inl (within.mono (Nat.le_of_lt less))
  | _ => exact .inl within

/-- An idle worker moves it up. -/
theorem ServerStep.within_idle {i : Fin N} {k j : Nat} (taken : ServerStep s act s')
    (own : ofWorker i act) (idle : s.worker i = .idle) (within : Within k j s.queue) :
    (∃ j' < j, Within k j' s'.queue) ∨ InProgress k s' := by
  cases taken with
  | dequeue frame _ queued =>
      rw [queued] at within
      rcases within.tail with rfl | up
      · exact .inr ⟨_, _, _, (Server.worker_setWorker ..).trans (if_pos rfl)⟩
      · exact .inl up
  | leave _ empty _ => exact absurd empty within.ne_nil
  | calls at_ _ =>
      cases own
      rw [idle] at at_
      cases at_
  | finish at_ =>
      cases own
      rw [idle] at at_
      cases at_
  | pipe at_ _ =>
      cases own
      rw [idle] at at_
      cases at_
  | workerStops at_ =>
      cases own
      rw [idle] at at_
      cases at_
  | _ => cases own

end

/-! ## Every request is handled -/

section

variable {s : Server N A}

/-- Under the conditions the process ends by its shutdown only. -/
theorem ended_shutdown (reach : ((proxyServer N A).only steady.Meets).Reachable s) {e : Ending}
    (ended : s.ended = some e) : e = .shutdown ∧ s.stop = true ∧ ∀ i, s.worker i = .exited := by
  have course := Course.reachable steady_sound reach
  rcases (Inv.reachable steady_sound reach).ended e ended with rfl | ⟨_, none_⟩ | ⟨_, _, none_⟩
  · exact ⟨rfl, course.shutdown ended⟩
  · exact none_.elim
  · exact none_.elim

/-- A worker that has not left is in a process that has not ended. -/
theorem alive_of_worker (reach : ((proxyServer N A).only steady.Meets).Reachable s) {i : Fin N}
    {pc : WorkerPc A} (at_ : s.worker i = pc) (here : pc ≠ .exited) : s.ended = none := by
  cases ended : s.ended with
  | none => rfl
  | some e =>
      have gone := (ended_shutdown reach ended).2.2 i
      rw [at_] at gone
      exact absurd gone here

end

section

variable {run : Run (proxyServer N A)} {keep Q : Server N A → Prop} {i : Fin N}

/-- The worker of a connection finishes it, unless what was kept gives way to `Q`. -/
theorem handling_leadsTo
    (reach : ∀ n, ((proxyServer N A).only steady.Meets).Reachable (run.state n))
    (fair : run.Fair (ofWorker i))
    (stable : ∀ n act, run.taken n = some act → keep (run.state n) →
      keep (run.state (n + 1)) ∨ Q (run.state (n + 1)))
    (k : Nat) (c : Int) (p : ProxyProg A Unit) :
    run.LeadsTo (fun s => keep s ∧ s.worker i = .handling k c p)
      (fun s => (keep s ∧ s.worker i = .idle ∧ k ∈ s.finished) ∨ Q s) := by
  refine Run.LeadsTo.wellFounded Prog.rest_wellFounded
    (P := fun p s => keep s ∧ s.worker i = .handling k c p) (fun p => ?_) p
  refine fair.leadsTo (fun n at_ => ?_) (fun n act took own at_ => ?_)
    fun n act took other at_ => ?_
  · exact enabled_handling (alive_of_worker (reach n) at_.2 nofun) at_.2
  · rcases stable n act took at_.1 with kept | done
    · rcases (run.moves n act took).2.handling_cases own at_.2 with
        ⟨idle, finished⟩ | ⟨q, less, moved⟩ | ⟨same, ended⟩
      · exact .inl (.inl ⟨kept, idle, finished⟩)
      · exact .inr ⟨q, less, kept, moved⟩
      · exact absurd (alive_of_worker (reach (n + 1)) (same.trans at_.2) nofun) ended
    · exact .inl (.inr done)
  · rcases stable n act took at_.1 with kept | done
    · exact .inl ⟨kept, ((run.moves n act took).2.worker_eq other).trans at_.2⟩
    · exact .inr (.inl (.inr done))

theorem progress_leadsTo
    (reach : ∀ n, ((proxyServer N A).only steady.Meets).Reachable (run.state n))
    (fair : ∀ i, run.Fair (ofWorker i)) (k : Nat) :
    run.LeadsTo (InProgress k) fun s => k ∈ s.finished := by
  rintro n ⟨i, c, p, at_⟩
  have done : run.LeadsTo (fun s => True ∧ s.worker i = .handling k c p)
      (fun s => (True ∧ s.worker i = .idle ∧ k ∈ s.finished) ∨ False) :=
    handling_leadsTo reach (fair i) (fun _ _ _ _ => .inl trivial) k c p
  obtain ⟨m, later, ⟨_, _, finished⟩ | none_⟩ := done n ⟨trivial, at_⟩
  · exact ⟨m, later, finished⟩
  · exact none_.elim

/-- A queued connection comes to a worker. -/
theorem queued_leadsTo
    (reach : ∀ n, ((proxyServer N A).only steady.Meets).Reachable (run.state n))
    (fair : run.Fair (ofWorker i)) (k j : Nat) :
    run.LeadsTo (fun s => Within k j s.queue) (InProgress k) := by
  have stable : ∀ n act, run.taken n = some act → ∀ j, Within k j (run.state n).queue →
      Within k j (run.state (n + 1)).queue ∨ InProgress k (run.state (n + 1)) :=
    fun n act took j within => (run.moves n act took).2.within within
  -- an idle worker moves it up
  have up : ∀ j, run.LeadsTo (fun s => Within k j s.queue ∧ s.worker i = .idle)
      fun s : Server N A => InProgress k s ∨ ∃ j' < j, Within k j' s.queue := by
    intro j
    refine fair.leadsTo (fun n at_ => ?_) (fun n act took own at_ => ?_)
      fun n act took other at_ => ?_
    · exact enabled_idle (alive_of_worker (reach n) at_.2 nofun) at_.2 at_.1.ne_nil
    · exact ((run.moves n act took).2.within_idle own at_.2 at_.1).symm
    · rcases stable n act took j at_.1 with within | taken
      · exact .inl ⟨within, ((run.moves n act took).2.worker_eq other).trans at_.2⟩
      · exact .inr (.inl taken)
  refine Run.LeadsTo.wellFounded Nat.lt_wfRel.wf
    (P := fun j (s : Server N A) => Within k j s.queue) (fun j => ?_) j
  intro n within
  cases at_ : (run.state n).worker i with
  | idle => exact up j n ⟨within, at_⟩
  | handling k' c p =>
      have busy : run.LeadsTo (fun s => Within k j s.queue ∧ s.worker i = .handling k' c p)
          (fun s => (Within k j s.queue ∧ s.worker i = .idle ∧ k' ∈ s.finished) ∨ InProgress k s) :=
        handling_leadsTo reach fair (fun n act took => stable n act took j) k' c p
      obtain ⟨m, later, ⟨within, idle, _⟩ | taken⟩ := busy n ⟨within, at_⟩
      · obtain ⟨m', later', moved⟩ := up j m ⟨within, idle⟩
        exact ⟨m', Nat.le_trans later later', moved⟩
      · exact ⟨m, later, .inl taken⟩
  | exited =>
      have course := Course.reachable steady_sound (reach n)
      exact absurd (course.left i at_).2 within.ne_nil

end

/-- While no accept fails, no last address refuses, no target breaks its response
    off, no client its connection, and requests fit, the process ends only by its
    shutdown after SIGINT, and in every run that is fair to the workers every
    request that is queued or in progress is finished. -/
theorem proxy_survives :
    (∀ s : Server N A, ((proxyServer N A).only steady.Meets).Reachable s →
      ∀ e, s.ended = some e → e = .shutdown ∧ s.stop = true) ∧
    (0 < N → ∀ run : Run (proxyServer N A),
      ((proxyServer N A).only steady.Meets).Reachable (run.state 0) → run.Meets steady.Meets →
      (∀ i, run.Fair (ofWorker i)) → ∀ k, run.LeadsTo (Pending · k) (k ∈ ·.finished)) := by
  constructor
  · intro s reach e ended
    obtain ⟨shutdown, stop, _⟩ := ended_shutdown reach ended
    exact ⟨shutdown, stop⟩
  · intro some_ run start meets fair k n pending
    have reach := run.reachable meets start
    have progress := progress_leadsTo reach fair k
    rcases pending with ⟨job, queued, own⟩ | ⟨i, handles⟩
    · obtain ⟨before, after, split⟩ := List.append_of_mem queued
      exact (queued_leadsTo reach (fair ⟨0, some_⟩) k before.length).trans progress n
        ⟨before, job, after, split, Nat.le_refl _, own⟩
    · obtain ⟨c, p, at_⟩ := WorkerPc.handling_of_conn handles
      exact progress n ⟨i, c, p, at_⟩

/-- No step of the worker can be taken while nothing is queued. -/
theorem worker_stuck {table : Table} {finished : List Nat} {passes : Nat} (i : Fin 1) :
    ¬ Enabled (proxyServer 1 Unit) (ofWorker i)
      (scene table [] .checking .idle passes finished) := by
  rintro ⟨act, s', own, _, taken⟩
  cases taken with
  | dequeue _ _ queued => cases queued
  | leave _ _ closed => cases closed
  | calls at_ _ => cases at_
  | pipe at_ _ => cases at_
  | finish at_ => cases at_
  | workerStops at_ => cases at_
  | _ => cases own

/-- The answer of a target. -/
def okResponse : Bytes := ascii "HTTP/1.1 200 OK\r\n\r\n"

/-- The first client is served. -/
theorem exists_served : ∃ acts table,
    Seen steady (firstHandling .blank) acts (scene table [] .checking .idle 1 [1]) ∧
    Act.calls 0 (.send 4 okResponse false) (some okResponse.length) ∈ acts := by
  obtain ⟨rest, hostname, port, starts, continues⟩ :=
    handleClientRequest_sends (A := Unit) 4 (answering_sends []) (by decide)
  obtain ⟨relay, responds, relays⟩ := forwardResponse_sends (A := Unit) Frame.blank.response 5 4
    (by decide : okResponse.length < bufferSize)
  have asked : Seen steady (firstHandling .blank) [] (firstHandling .blank) := .start
  nth_rewrite 2 [firstHandling] at asked
  rw [starts] at asked
  have received := asked.calls (some (firstOf (answering []).request)) ⟨rfl, ?_⟩
    (fun _ => by decide)
  rw [continues] at received
  have resolved := Seen.calls (e := .getaddrinfo hostname (portStr port)) received (some [()])
    ⟨rfl, by simp⟩ trivial
  have opened := Seen.calls (e := .socket ()) resolved (5 : Int)
    (.inr ⟨lowest_of (n := 5) rfl (by decide), rfl⟩) trivial
  have connected := Seen.calls (e := .connect 5 () []) opened true ⟨rfl, by simp⟩ rfl
  have freed := Seen.calls (e := .freeaddrinfo [()]) connected () rfl trivial
  have forwarded : Seen steady (firstHandling .blank) _ (scene _ _ .checking (.handling 1 4
      (forwardResponse Frame.blank.response 5 4 >>= fun _ => close 5 >>= fun _ => close 4)) 1 []) :=
    Seen.calls (e := .send 5 _ true) freed (some 0) ⟨rfl, ?_⟩ trivial
  rw [responds] at forwarded
  have answered := Seen.calls (e := .recv 5 (bufferSize - 1)) forwarded (some okResponse)
    ⟨rfl, ?_⟩ (fun same => by cases same)
  simp only [Prog.bind_eq, relays, Prog.call_bind] at answered
  have relayed := Seen.calls (e := .send 4 okResponse false) answered (some okResponse.length)
    ⟨rfl, ?_⟩ trivial
  have closed := Seen.calls (e := .close 5) relayed () rfl trivial
  have left := Seen.calls (e := .close 4) closed () rfl trivial
  have finished := Seen.finish left
  · exact ⟨_, _, finished, by simp⟩
  -- what each of the four calls was answered is possible
  · rintro n ⟨⟩
    exact ⟨by simp, le_rfl⟩
  · rintro bytes ⟨⟩
    exact ⟨by simp, by decide⟩
  · rintro n ⟨⟩
    exact ⟨by simp, Nat.zero_le _⟩
  · rintro bytes ⟨⟩
    exact ⟨by simp, Nat.le_pred_of_lt (firstOf_fits _)⟩

/-- A worker comes to an end with a client that it serves. -/
theorem proxy_survives_served :
    ∃ run : Run (proxyServer 1 Unit),
      ((proxyServer 1 Unit).only steady.Meets).Reachable (run.state 0) ∧ run.Meets steady.Meets ∧
      (∀ i, run.Fair (ofWorker i)) ∧ Pending (run.state 0) 1 ∧
      (∃ n, run.taken n = some (.calls 0 (.send 4 okResponse false) (some okResponse.length))) ∧
      ∃ m, 1 ∈ (run.state m).finished := by
  obtain ⟨before, queued⟩ := exists_firstHandling steady .blank (by decide : (0 : Int) ≤ 4)
    (fun e _ other => by
      cases e with
      | accept => exact absurd rfl other
      | _ => trivial) trivial
  obtain ⟨acts, table, steps, relayed⟩ := exists_served
  obtain ⟨run, first, labels, meets, rest⟩ := steps.exists_run
  have start : ((proxyServer 1 Unit).only steady.Meets).Reachable (run.state 0) := by
    rw [first]
    exact queued.reachable (.init atLoop_init)
  have fair : ∀ i, run.Fair (ofWorker i) := fun i => Run.fair_of_rest rest (worker_stuck i)
  have pending : Pending (run.state 0) 1 := by
    rw [first]
    exact .inr ⟨0, rfl⟩
  obtain ⟨n, at_⟩ := List.mem_iff_getElem?.mp relayed
  obtain ⟨m, _, finished⟩ := proxy_survives.2 Nat.one_pos run start meets fair 1 0 pending
  exact ⟨run, start, meets, fair, pending, ⟨n, by rw [labels]; exact at_⟩, m, finished⟩

/-- One connection that is aborted before it is accepted ends the process while a
    worker is at another. -/
theorem aborted_accept_ends_proxy :
    ∃ s : Server 1 Unit, (proxyServer 1 Unit).Reachable s ∧ Pending s 1 ∧ s.stop = false ∧
      s.ended = some (.stopped .exitFailure) := by
  obtain ⟨acts, seen⟩ := exists_firstHandling anyRun .blank trivial (fun _ _ _ => trivial) trivial
  have aborted := seen.enterPass.mainCalls (e := .accept) (-1 : Int)
    (.inl ⟨(by decide : (-1 : Int) < 0), rfl⟩) trivial
  have reach := (aborted.reachable (.init atLoop_init)).of_only
  have ended := reach.step (l := Act.main) ⟨rfl, .mainStops rfl⟩
  exact ⟨_, ended, .inr ⟨0, rfl⟩, rfl, rfl⟩

end SysProg.Proxy
