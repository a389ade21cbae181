import SysProg.Proxy.Server
import SysProg.Proxy.Ledger

/-! # What the threads of the proxy hold

Every open descriptor carries the number of its connection, so it is enough
that what a thread holds denotes the connection it is at, and that no two
threads are at one connection.  The ledgers of `main`'s pass and of the workers
say what they hold; the invariant ties them to the table of the process.
-/

namespace SysProg.Proxy

open CString Scan Interaction Transition

variable {A : Type} {N : Nat}

/-! ## What a thread holds -/

/-- A worker at connection `k` may use its client and the targets it opened. -/
def Open.Of (k : Nat) (o : Open) : Prop := o = .client k ∨ o = .target k

theorem Open.Of.unique {o : Open} {k k' : Nat} (first : o.Of k) (second : o.Of k') : k = k' := by
  rcases first with rfl | rfl <;> rcases second with same | same <;> cases same <;> rfl

/-- The descriptors denote what their thread may use. -/
structure Holds (table : Table) (own : Open → Prop) (held : List Int) : Prop where
  nodup : held.Nodup
  denotes : ∀ fd ∈ held, ∃ o, table fd = some o ∧ own o

/-- Nothing changed for what is not `own`. -/
def Kept (own : Open → Prop) (table table' : Table) : Prop :=
  ∀ fd o, table fd = some o → ¬ own o → table' fd = some o

section

variable {own own' : Open → Prop} {table table' : Table} {l : Ledger} {held : List Int} {new : Open}
  {e : Call A} {r : e.Answer}

/-- What a call may do to the table and the ledger of its thread: nothing, open
    the lowest free descriptor, or close one that is held. -/
theorem Answers.effect (answers : Answers new table e r table') (used : l.Uses e ∨ l.MainUses e) :
    (table' = table ∧ (l.after e r).held = l.held) ∨
    (∃ fd, Lowest table fd ∧ table' = Function.update table fd (some new) ∧
      (l.after e r).held = fd :: l.held) ∨
    ∃ fd ∈ l.held, table' = Function.update table fd none ∧
      (l.after e r).held = l.held.erase fd := by
  have opens {fd : Int} (opened : (fd < 0 ∧ table' = table) ∨
      (Lowest table fd ∧ table' = Function.update table fd (some new))) :
      (table' = table ∧ (if fd < 0 then l else { l with held := fd :: l.held }).held = l.held) ∨
      (∃ fd', Lowest table fd' ∧ table' = Function.update table fd' (some new) ∧
        (if fd < 0 then l else { l with held := fd :: l.held }).held = fd' :: l.held) := by
    rcases opened with ⟨negative, same⟩ | ⟨lowest, changed⟩
    · rw [if_pos negative]
      exact .inl ⟨same, rfl⟩
    · rw [if_neg (Int.not_lt.mpr lowest.1)]
      exact .inr ⟨fd, lowest, changed, rfl⟩
  cases e with
  | accept => exact (opens answers).imp_right .inl
  | socket p => exact (opens answers).imp_right .inl
  | close fd =>
      rcases used with held | ⟨_, none_⟩
      · have held : fd ∈ l.held := held
        exact .inr (.inr ⟨fd, held, answers, by simp only [Ledger.after, if_pos held]⟩)
      · cases none_
  | recv fd size => exact .inl ⟨answers.1, rfl⟩
  | send fd bytes nosignal => exact .inl ⟨answers.1, rfl⟩
  | getaddrinfo hostname port => exact .inl ⟨answers.1, rfl⟩
  | connect fd p next => exact .inl ⟨answers.1, by cases r <;> rfl⟩
  | mallocInt => exact .inl ⟨answers, by cases r <;> rfl⟩
  | free p => exact .inl ⟨answers, by simp only [Ledger.after]; split <;> rfl⟩
  | mallocRequest => exact .inl ⟨answers, rfl⟩
  | enqueue arg => exact .inl ⟨answers, rfl⟩
  | freeaddrinfo result => exact .inl ⟨answers, rfl⟩

theorem Holds.frame (holds : Holds table own' held) (kept : Kept own table table')
    (apart : ∀ o, own' o → ¬ own o) : Holds table' own' held where
  nodup := holds.nodup
  denotes fd mine := by
    obtain ⟨o, denotes, allowed⟩ := holds.denotes fd mine
    exact ⟨o, kept fd o denotes (apart o allowed), allowed⟩

theorem Holds.fresh (holds : Holds table own held) {fd : Int} (lowest : Lowest table fd) :
    fd ∉ held := by
  intro mine
  obtain ⟨o, denotes, _⟩ := holds.denotes fd mine
  rw [lowest.2.1] at denotes
  cases denotes

/-- The operating system keeps the promises of the ledger. -/
theorem Holds.legal (holds : Holds table own l.held) (answers : Answers new table e r table')
    (used : l.Uses e ∨ l.MainUses e) : l.Legal e r := by
  have opened {fd : Int} (opens : (fd < 0 ∧ table' = table) ∨
      (Lowest table fd ∧ table' = Function.update table fd (some new))) : 0 ≤ fd → fd ∉ l.held := by
    intro valid
    rcases opens with ⟨negative, _⟩ | ⟨lowest, _⟩
    · exact absurd negative (Int.not_lt.mpr valid)
    · exact holds.fresh lowest
  cases e with
  | accept => exact opened answers
  | socket p => exact opened answers
  | mallocInt =>
      rcases used with none_ | ⟨_, cells⟩
      · cases none_
      · have cells : l.cells = [] := cells
        simp [Ledger.Legal, cells]
  | recv fd size => exact fun bytes some_ => (answers.2 bytes some_).2
  | getaddrinfo hostname port => exact answers.2
  | mallocRequest | free p | enqueue arg | send fd bytes nosignal | close fd
  | freeaddrinfo result | connect fd p next => trivial

/-- A call and its answer keep table and ledger together. -/
theorem Holds.after (holds : Holds table own l.held) (mine : own new)
    (answers : Answers new table e r table') (used : l.Uses e ∨ l.MainUses e) :
    Holds table' own (l.after e r).held := by
  rcases answers.effect used with ⟨rfl, held⟩ | ⟨fd, lowest, rfl, held⟩ | ⟨fd, _, rfl, held⟩
  · rw [held]
    exact holds
  · rw [held]
    refine ⟨List.nodup_cons.mpr ⟨holds.fresh lowest, holds.nodup⟩, fun fd' member => ?_⟩
    rcases List.mem_cons.mp member with rfl | member
    · exact ⟨new, Function.update_self .., mine⟩
    · have other : fd' ≠ fd := fun same => holds.fresh lowest (same ▸ member)
      rw [Function.update_of_ne other]
      exact holds.denotes fd' member
  · rw [held]
    refine ⟨holds.nodup.erase fd, fun fd' member => ?_⟩
    obtain ⟨other, member⟩ := holds.nodup.mem_erase_iff.mp member
    rw [Function.update_of_ne other]
    exact holds.denotes fd' member

/-- A call leaves alone what its thread may not use. -/
theorem Holds.kept (holds : Holds table own l.held) (answers : Answers new table e r table')
    (used : l.Uses e ∨ l.MainUses e) : Kept own table table' := by
  intro fd' o denotes other
  rcases answers.effect used with ⟨rfl, _⟩ | ⟨fd, lowest, rfl, _⟩ | ⟨fd, held, rfl, _⟩
  · exact denotes
  · have distinct : fd' ≠ fd := by
      rintro rfl
      rw [lowest.2.1] at denotes
      cases denotes
    rw [Function.update_of_ne distinct]
    exact denotes
  · have distinct : fd' ≠ fd := by
      rintro rfl
      obtain ⟨o', denotes', mine⟩ := holds.denotes fd' held
      rw [denotes] at denotes'
      cases denotes'
      exact other mine
    rw [Function.update_of_ne distinct]
    exact denotes

end

/-! ## Connections are at one place -/

/-- Connection `k` is queued or with a worker. -/
def Pending (s : Server N A) (k : Nat) : Prop :=
  (∃ job ∈ s.queue, job.conn = k) ∨ ∃ i, (s.worker i).conn = some k

theorem WorkerPc.conn_of_handling {pc : WorkerPc A} {k c p} (at_ : pc = .handling k c p) :
    pc.conn = some k := by
  subst at_
  rfl

theorem WorkerPc.handling_of_conn {pc : WorkerPc A} {k : Nat} (conn : pc.conn = some k) :
    ∃ c p, pc = .handling k c p := by
  cases pc with
  | idle => cases conn
  | exited => cases conn
  | handling k' c p =>
      cases conn
      exact ⟨c, p, rfl⟩

theorem Pending.of_handling {s : Server N A} {i k c p} (at_ : s.worker i = .handling k c p) :
    Pending s k :=
  .inr ⟨i, WorkerPc.conn_of_handling at_⟩

structure Numbered (s : Server N A) : Prop where
  old : ∀ k, Pending s k → k ≤ s.passes
  queue : (s.queue.map Job.conn).Nodup
  workers : ∀ i j k, (s.worker i).conn = some k → (s.worker j).conn = some k → i = j
  apart : ∀ job ∈ s.queue, ∀ i, (s.worker i).conn ≠ some job.conn

section

variable {s s' : Server N A}

theorem Pending.of_sub {k : Nat} (pending : Pending s' k) (queue : s'.queue = s.queue)
    (workers : ∀ i k, (s'.worker i).conn = some k → (s.worker i).conn = some k) : Pending s k := by
  rcases pending with ⟨job, member, rfl⟩ | ⟨i, handles⟩
  · exact .inl ⟨job, queue ▸ member, rfl⟩
  · exact .inr ⟨i, workers i k handles⟩

/-- A step that starts no connection and moves none. -/
theorem Numbered.of_sub (numbered : Numbered s) (passes : s.passes ≤ s'.passes)
    (queue : s'.queue = s.queue)
    (workers : ∀ i k, (s'.worker i).conn = some k → (s.worker i).conn = some k) : Numbered s' where
  old k pending := Nat.le_trans (numbered.old k (pending.of_sub queue workers)) passes
  queue := by
    rw [queue]
    exact numbered.queue
  workers i j k first second := numbered.workers i j k (workers i k first) (workers j k second)
  apart job member i handles := numbered.apart job (queue ▸ member) i (workers i _ handles)

/-- What the workers are at after one of them has moved. -/
theorem Server.conn_setWorker {i : Fin N} {pc : WorkerPc A}
    (same : ∀ k, pc.conn = some k → (s.worker i).conn = some k) (j : Fin N) (k : Nat)
    (handles : ((s.setWorker i pc).worker j).conn = some k) : (s.worker j).conn = some k := by
  rw [worker_setWorker] at handles
  split at handles
  · rename_i here
    subst here
    exact same k handles
  · exact handles

/-- The pass hands its connection over. -/
theorem Numbered.enqueue (numbered : Numbered s) (arg : Cell) (unknown : ¬ Pending s s.passes)
    (passes : s'.passes = s.passes) (queue : s'.queue = s.queue ++ [⟨arg, s.passes⟩])
    (worker : s'.worker = s.worker) : Numbered s' where
  old k pending := by
    rw [passes]
    rcases pending with ⟨job, member, rfl⟩ | ⟨i, handles⟩
    · rw [queue, List.mem_append, List.mem_singleton] at member
      rcases member with member | rfl
      · exact numbered.old _ (.inl ⟨job, member, rfl⟩)
      · exact Nat.le_refl _
    · exact numbered.old _ (.inr ⟨i, worker ▸ handles⟩)
  queue := by
    rw [queue, List.map_append, List.nodup_append]
    refine ⟨numbered.queue, by simp, ?_⟩
    rintro _ inside _ last rfl
    obtain ⟨job, member, rfl⟩ := List.mem_map.mp inside
    exact unknown (.inl ⟨job, member, List.mem_singleton.mp last⟩)
  workers i j k := by
    rw [worker]
    exact numbered.workers i j k
  apart job member i := by
    rw [worker]
    rw [queue, List.mem_append, List.mem_singleton] at member
    rcases member with member | rfl
    · exact numbered.apart job member i
    · exact fun handles => unknown (.inr ⟨i, handles⟩)

/-- A worker takes the first connection. -/
theorem Numbered.dequeue (numbered : Numbered s) {i : Fin N} {job : Job} {jobs : List Job}
    {pc : WorkerPc A} (queued : s.queue = job :: jobs) (at_ : pc.conn = some job.conn) :
    Numbered { s.setWorker i pc with queue := jobs } := by
  have inside : ∀ j ∈ jobs, j ∈ s.queue := fun j member => queued ▸ List.mem_cons_of_mem _ member
  have first : job ∈ s.queue := queued ▸ List.mem_cons_self
  have distinct := numbered.queue
  rw [queued, List.map_cons, List.nodup_cons] at distinct
  have moved : ∀ j k, ((s.setWorker i pc).worker j).conn = some k →
      (j = i ∧ k = job.conn) ∨ (j ≠ i ∧ (s.worker j).conn = some k) := by
    intro j k handles
    rw [Server.worker_setWorker] at handles
    split at handles
    · rename_i here
      rw [at_] at handles
      exact .inl ⟨here, (Option.some.inj handles).symm⟩
    · rename_i other
      exact .inr ⟨other, handles⟩
  constructor
  · rintro k (⟨j, member, rfl⟩ | ⟨j, handles⟩)
    · exact numbered.old _ (.inl ⟨j, inside j member, rfl⟩)
    · rcases moved j k handles with ⟨_, rfl⟩ | ⟨_, handles⟩
      · exact numbered.old _ (.inl ⟨job, first, rfl⟩)
      · exact numbered.old _ (.inr ⟨j, handles⟩)
  · exact distinct.2
  · intro j j' k handles handles'
    rcases moved j k handles with ⟨rfl, rfl⟩ | ⟨_, before⟩ <;>
      rcases moved j' _ handles' with ⟨rfl, same⟩ | ⟨_, before'⟩
    · rfl
    · exact absurd before' (numbered.apart job first j')
    · exact absurd (same ▸ before) (numbered.apart job first j)
    · exact numbered.workers j j' k before before'
  · intro later member j handles
    rcases moved j _ handles with ⟨_, same⟩ | ⟨_, handles⟩
    · exact distinct.1 (List.mem_map.mpr ⟨later, member, same⟩)
    · exact numbered.apart later (inside later member) j handles

end

/-! ## The invariant -/

/-- The threads are safe under the conditions. -/
structure Conditions.Sound (cond : Conditions A) : Prop where
  terms : ∀ c, Terms (cond.worker c) Ledger.Uses (fun _ h => cond.stops h) c
  accepts : ∀ fd < 0, cond.main .accept fd → cond.stops .exitFailure

/-- What is left of `main`'s pass is safe from a ledger that, until the
    connection is handed over, accounts for its client. -/
def PassHolds (cond : Conditions A) (s : Server N A) (p : ProxyProg A (Option Cell)) : Prop :=
  ∃ l, Safe (ledger cond.main) Ledger.MainUses (fun _ h => cond.stops h) (fun _ _ => True) p l ∧
    (l.handed = false → Holds s.table (· = .client s.passes) l.held ∧ ¬ Pending s s.passes)

/-- What is left of the handling of connection `k` is safe from a ledger of
    descriptors of that connection. -/
def WorkerHolds (cond : Conditions A) (table : Table) (k : Nat) (c : Int) (p : ProxyProg A Unit) :
    Prop :=
  ∃ l, Safe (ledger (cond.worker c)) Ledger.Uses (fun _ h => cond.stops h) (fun _ _ => True) p l ∧
    Holds table (Open.Of k) l.held

/-- The listening socket is open. -/
def MainPc.Listens : MainPc A → Prop
  | .checking | .passing _ | .closing => True
  | _ => False

structure Inv (cond : Conditions A) (s : Server N A) : Prop where
  numbered : Numbered s
  pass : ∀ p, s.main = .passing p → PassHolds cond s p
  handling : ∀ i k c p, s.worker i = .handling k c p → WorkerHolds cond s.table k c p
  queued : ∀ job ∈ s.queue, s.table job.arg.value = some (.client job.conn)
  listening : s.main.Listens → s.table s.sockfd = some .earlier
  ended : ∀ e, s.ended = some e →
    e = .shutdown ∨ (e = .brokenPipe ∧ cond.broken) ∨ ∃ h, e = .stopped h ∧ cond.stops h

section

variable {cond : Conditions A} {s s' : Server N A} {own : Open → Prop}

theorem PassHolds.frame {p : ProxyProg A (Option Cell)} (pass : PassHolds cond s p)
    (passes : s'.passes = s.passes) (pending : Pending s' s.passes → Pending s s.passes)
    (kept : ¬ Pending s s.passes → ∃ own, Kept own s.table s'.table ∧ ¬ own (.client s.passes)) :
    PassHolds cond s' p := by
  obtain ⟨l, safe, holds⟩ := pass
  refine ⟨l, safe, fun waiting => ?_⟩
  obtain ⟨holds, unknown⟩ := holds waiting
  obtain ⟨own, kept, apart⟩ := kept unknown
  rw [passes]
  refine ⟨holds.frame kept ?_, mt pending unknown⟩
  rintro o rfl
  exact apart

theorem WorkerHolds.frame {table table' : Table} {k : Nat} {c : Int} {p : ProxyProg A Unit}
    (holds : WorkerHolds cond table k c p) (kept : Kept own table table')
    (apart : ∀ o, o.Of k → ¬ own o) : WorkerHolds cond table' k c p := by
  obtain ⟨l, safe, holds⟩ := holds
  exact ⟨l, safe, holds.frame kept apart⟩

/-- A worker starts with the client it was handed. -/
theorem handleClientRequestThread_holds (sound : cond.Sound) (frame : Frame) (arg : Cell)
    {table : Table} {k : Nat} (denotes : table arg.value = some (.client k)) :
    WorkerHolds cond table k arg.value (handleClientRequestThread frame arg) := by
  refine ⟨⟨[arg.value], [], false, false, true⟩, ?_, by simp, fun fd held => ?_⟩
  · refine Safe.perform trivial fun _ l₁ freed => ?_
    obtain ⟨_, _, rfl⟩ := freed
    refine (handleClientRequest_safe (sound.terms arg.value) frame ?_ ?_).consequence
      fun _ _ _ => trivial
    · simp [Ledger.after]
    · simp [Ledger.after]
  · obtain rfl : fd = arg.value := List.mem_singleton.mp held
    exact ⟨_, denotes, .inl rfl⟩

theorem handedOver_eq_nil {k : Nat} {e : Call A} (other : ∀ arg, e ≠ .enqueue arg) :
    handedOver k e = [] := by
  cases e with
  | enqueue arg => exact absurd rfl (other arg)
  | _ => rfl

/-- A worker hands nothing over. -/
theorem Inv.quiet (inv : Inv cond s) {i k c e rest}
    (at_ : s.worker i = .handling k c (.call e rest)) : handedOver k e = [] := by
  obtain ⟨l, safe, _⟩ := inv.handling i k c _ at_
  apply handedOver_eq_nil
  rintro arg rfl
  exact safe.permitted

/-- A step of `main` outside its passes, and a signal. -/
theorem Inv.of_same (inv : Inv cond s) (table : s'.table = s.table) (queue : s'.queue = s.queue)
    (worker : s'.worker = s.worker) (passes : s'.passes = s.passes) (sockfd : s'.sockfd = s.sockfd)
    (pass : ∀ p, s'.main = .passing p → s.main = .passing p)
    (listens : s'.main.Listens → s.main.Listens)
    (ended : ∀ e, s'.ended = some e →
      e = .shutdown ∨ (e = .brokenPipe ∧ cond.broken) ∨ ∃ h, e = .stopped h ∧ cond.stops h) :
    Inv cond s' where
  numbered := inv.numbered.of_sub (Nat.le_of_eq passes.symm) queue fun i k => by
    rw [worker]
    exact id
  pass p at_ := by
    refine (inv.pass p (pass p at_)).frame passes (fun pending => ?_) fun _ =>
      ⟨fun _ => False, fun fd o denotes _ => table ▸ denotes, id⟩
    exact pending.of_sub queue fun i k => by rw [worker]; exact id
  handling i k c p at_ := by
    rw [worker] at at_
    rw [table]
    exact inv.handling i k c p at_
  queued job member := by
    rw [table]
    exact inv.queued job (queue ▸ member)
  listening at_ := by
    rw [table, sockfd]
    exact inv.listening (listens at_)
  ended := ended

theorem Inv.mainCalls (inv : Inv cond s) {e : Call A} {rest r table}
    (at_ : s.main = .passing (.call e rest))
    (answers : Answers (.client s.passes) s.table e r table)
    (meets : cond.main e r) :
    Inv cond { s with
      table := table
      queue := s.queue ++ handedOver s.passes e
      main := .passing (rest r) } := by
  obtain ⟨l, safe, holds⟩ := inv.pass _ at_
  have used : l.Uses e ∨ l.MainUses e := .inr safe.permitted
  obtain ⟨holds, unknown⟩ := holds safe.permitted.1
  have kept := holds.kept answers used
  have later : PassHolds cond
      { s with
        table := table
        queue := s.queue ++ handedOver s.passes e
        main := .passing (rest r) } (rest r) := by
    refine ⟨l.after e r, safe.answered ⟨holds.legal answers used, meets, rfl⟩, fun waiting => ?_⟩
    refine ⟨holds.after rfl answers used, fun pending => unknown (pending.of_sub ?_ fun _ _ => id)⟩
    rw [handedOver_eq_nil, List.append_nil]
    rintro arg rfl
    cases waiting
  have numbered : Numbered { s with
      table := table
      queue := s.queue ++ handedOver s.passes e
      main := .passing (rest r) } := by
    by_cases enqueues : ∃ arg, e = .enqueue arg
    · obtain ⟨arg, rfl⟩ := enqueues
      exact inv.numbered.enqueue arg unknown rfl rfl rfl
    · refine inv.numbered.of_sub (Nat.le_refl _) ?_ fun _ _ => id
      rw [handedOver_eq_nil fun arg same => enqueues ⟨arg, same⟩, List.append_nil]
  have queued : ∀ job ∈ s.queue ++ handedOver s.passes e,
      table job.arg.value = some (.client job.conn) := by
    intro job member
    rcases List.mem_append.mp member with member | member
    · exact kept _ _ (inv.queued job member) fun same =>
        unknown (.inl ⟨job, member, Open.client.inj same⟩)
    · cases e with
      | enqueue arg =>
          obtain rfl : job = ⟨arg, s.passes⟩ := List.mem_singleton.mp member
          obtain rfl : table = s.table := answers
          have handed : arg.value ∈ l.held := by
            have own : l.held = [arg.value] := safe.permitted.2.1
            simp [own]
          obtain ⟨_, denotes, rfl⟩ := holds.denotes _ handed
          exact denotes
      | _ => cases member
  refine ⟨numbered, fun p same => ?_, fun i k c p handles => ?_, queued, fun _ => ?_, inv.ended⟩
  · cases same
    exact later
  · apply (inv.handling i k c p handles).frame kept
    rintro o mine rfl
    rcases mine with same | same
    · cases same
      exact unknown (Pending.of_handling (s := s) handles)
    · cases same
  · apply kept _ _ (inv.listening (by simp [at_, MainPc.Listens]))
    rintro ⟨⟩

theorem Inv.calls (inv : Inv cond s) {i : Fin N} {k : Nat} {c : Int} {e : Call A} {rest r table}
    (at_ : s.worker i = .handling k c (.call e rest))
    (answers : Answers (.target k) s.table e r table)
    (meets : cond.worker c e r) :
    Inv cond { s.setWorker i (.handling k c (rest r)) with
      table := table, queue := s.queue ++ handedOver k e } := by
  obtain ⟨l, safe, holds⟩ := inv.handling i k c _ at_
  have used : l.Uses e ∨ l.MainUses e := .inl safe.permitted
  have kept := holds.kept answers used
  have pending : Pending s k := Pending.of_handling at_
  have moved : ∀ j k', ((s.setWorker i (.handling k c (rest r))).worker j).conn = some k' →
      (s.worker j).conn = some k' :=
    Server.conn_setWorker fun k' same => (WorkerPc.conn_of_handling at_).trans same
  rw [inv.quiet at_, List.append_nil]
  refine ⟨inv.numbered.of_sub (Nat.le_refl _) rfl moved, fun p passing => ?_,
    fun j k' c' p' handles => ?_, fun job member => ?_, fun listens => ?_, inv.ended⟩
  · refine (inv.pass p passing).frame rfl (fun before => before.of_sub rfl moved) fun unknown =>
      ⟨_, kept, ?_⟩
    rintro (same | same)
    · cases same
      exact unknown pending
    · cases same
  · rcases Server.worker_cases (s := s) (i := i) handles with ⟨rfl, same⟩ | ⟨here, handles⟩
    · cases same
      exact ⟨l.after e r, safe.answered ⟨holds.legal answers used, meets, rfl⟩,
        holds.after (.inr rfl) answers used⟩
    · refine (inv.handling j k' c' p' handles).frame kept fun o mine other => here ?_
      have same := mine.unique other
      exact inv.numbered.workers j i k (same ▸ WorkerPc.conn_of_handling handles)
        (WorkerPc.conn_of_handling at_)
  · apply kept _ _ (inv.queued job member)
    rintro (same | same)
    · have apart := inv.numbered.apart job member i
      rw [Open.client.inj same] at apart
      exact apart (WorkerPc.conn_of_handling at_)
    · cases same
  · apply kept _ _ (inv.listening listens)
    rintro (same | same) <;> cases same

theorem Inv.dequeue (sound : cond.Sound) (inv : Inv cond s) {i : Fin N} {job jobs} (frame : Frame)
    (queued : s.queue = job :: jobs) :
    Inv cond { s.setWorker i
        (.handling job.conn job.arg.value (handleClientRequestThread frame job.arg)) with
      queue := jobs } := by
  have first : job ∈ s.queue := queued ▸ List.mem_cons_self
  have inside : ∀ j ∈ jobs, j ∈ s.queue := fun j member => queued ▸ List.mem_cons_of_mem _ member
  refine ⟨inv.numbered.dequeue queued rfl, fun p passing => ?_, fun j k c p handles => ?_,
    fun j member => inv.queued j (inside j member), inv.listening, inv.ended⟩
  · refine (inv.pass p passing).frame rfl ?_ fun _ => ⟨fun _ => False, fun _ _ same _ => same, id⟩
    rintro (⟨j, member, known⟩ | ⟨j, handles⟩)
    · exact .inl ⟨j, inside j member, known⟩
    · obtain ⟨c, p, handles⟩ := WorkerPc.handling_of_conn handles
      rcases Server.worker_cases (s := s) (i := i) handles with ⟨rfl, same⟩ | ⟨_, handles⟩
      · exact .inl ⟨job, first, (WorkerPc.handling.inj same).1⟩
      · exact Pending.of_handling handles
  · rcases Server.worker_cases (s := s) (i := i) handles with ⟨rfl, same⟩ | ⟨_, handles⟩
    · cases same
      exact handleClientRequestThread_holds sound frame job.arg (inv.queued job first)
    · exact inv.handling j k c p handles

/-- A worker leaves its connection, or the loop. -/
theorem Inv.setWorker (inv : Inv cond s) {i : Fin N} {pc : WorkerPc A} {finished : List Nat}
    (away : pc.conn = none) : Inv cond { s.setWorker i pc with finished := finished } := by
  have moved : ∀ j k, ((s.setWorker i pc).worker j).conn = some k → (s.worker j).conn = some k := by
    refine Server.conn_setWorker fun k same => ?_
    rw [away] at same
    cases same
  refine ⟨inv.numbered.of_sub (Nat.le_refl _) rfl moved, fun p passing => ?_,
    fun j k c p handles => ?_, inv.queued, inv.listening, inv.ended⟩
  · exact (inv.pass p passing).frame rfl (fun before => before.of_sub rfl moved) fun _ =>
      ⟨fun _ => False, fun _ _ same _ => same, id⟩
  · rcases Server.worker_cases (s := s) (i := i) handles with ⟨_, same⟩ | ⟨_, handles⟩
    · rw [WorkerPc.conn_of_handling same] at away
      cases away
    · exact inv.handling j k c p handles

theorem Inv.enterPass (sound : cond.Sound) (inv : Inv cond s) (at_ : s.main = .checking) :
    Inv cond { s with main := .passing acceptPass, passes := s.passes + 1 } := by
  refine ⟨inv.numbered.of_sub (Nat.le_succ _) rfl fun _ _ => id, fun p same => ?_, inv.handling,
    inv.queued, fun _ => inv.listening (by simp [at_, MainPc.Listens]), inv.ended⟩
  cases same
  have safe := acceptPass_safe fun fd negative able (_ : Ledger) => sound.accepts fd negative able
  refine ⟨.empty, safe.consequence fun _ _ _ => trivial,
    fun _ => ⟨⟨.nil, by simp [Ledger.empty]⟩, fun pending => ?_⟩⟩
  have old : s.passes + 1 ≤ s.passes := inv.numbered.old _ (pending.of_sub rfl fun _ _ => id)
  exact absurd old (Nat.not_succ_le_self _)

/-- `main` closes the listening socket, which no connection uses. -/
theorem Inv.close (inv : Inv cond s) (at_ : s.main = .closing) :
    Inv cond { s with
      table := Function.update s.table s.sockfd none, main := .closingQueue } := by
  have listening := inv.listening (by simp [at_, MainPc.Listens])
  have kept : Kept (· = .earlier) s.table (Function.update s.table s.sockfd none) := by
    intro fd o denotes other
    have distinct : fd ≠ s.sockfd := by
      rintro rfl
      rw [listening] at denotes
      exact other (Option.some.inj denotes).symm
    rw [Function.update_of_ne distinct]
    exact denotes
  refine ⟨inv.numbered.of_sub (Nat.le_refl _) rfl fun _ _ => id, fun p same => ?_,
    fun i k c p handles => ?_, fun job member => ?_, fun listens => ?_, inv.ended⟩
  · cases same
  · apply (inv.handling i k c p handles).frame kept
    rintro o (rfl | rfl) <;> exact nofun
  · exact kept _ _ (inv.queued job member) nofun
  · cases listens

theorem Inv.step (sound : cond.Sound) {act : Act N A} (inv : Inv cond s)
    (taken : ServerStep s act s') (meets : cond.Meets s act) : Inv cond s' := by
  cases taken with
  | sigint => exact inv.of_same rfl rfl rfl rfl rfl (fun _ => id) id inv.ended
  | enterPass at_ _ => exact inv.enterPass sound at_
  | leaveLoop at_ _ =>
      exact inv.of_same rfl rfl rfl rfl rfl nofun (fun _ => by simp [at_, MainPc.Listens]) inv.ended
  | mainCalls at_ answers => exact inv.mainCalls at_ answers meets
  | endPass at_ =>
      exact inv.of_same rfl rfl rfl rfl rfl nofun (fun _ => by simp [at_, MainPc.Listens]) inv.ended
  | mainStops at_ =>
      refine inv.of_same rfl rfl rfl rfl rfl (fun _ => id) id fun e same => ?_
      cases same
      obtain ⟨l, safe, _⟩ := inv.pass _ at_
      exact .inr (.inr ⟨_, rfl, safe.of_halt⟩)
  | close at_ => exact inv.close at_
  | closeQueue _ => exact inv.of_same rfl rfl rfl rfl rfl nofun False.elim inv.ended
  | join _ _ _ => exact inv.of_same rfl rfl rfl rfl rfl nofun False.elim inv.ended
  | joined _ _ =>
      refine inv.of_same rfl rfl rfl rfl rfl nofun False.elim fun e same => ?_
      cases same
      exact .inl rfl
  | dequeue frame _ queued => exact inv.dequeue sound frame queued
  | leave _ _ _ => exact inv.setWorker rfl
  | calls at_ answers => exact inv.calls at_ answers (meets _ _ _ at_)
  | pipe _ _ =>
      refine inv.of_same rfl rfl rfl rfl rfl (fun _ => id) id fun e same => ?_
      cases same
      exact .inr (.inl ⟨rfl, meets⟩)
  | finish _ => exact inv.setWorker rfl
  | workerStops at_ =>
      refine inv.of_same rfl rfl rfl rfl rfl (fun _ => id) id fun e same => ?_
      cases same
      obtain ⟨l, safe, _⟩ := inv.handling _ _ _ _ at_
      exact .inr (.inr ⟨_, rfl, safe.of_halt⟩)

theorem Inv.init (start : (proxyServer N A).init s) : Inv cond s := by
  obtain ⟨table, sockfd, _, listening, rfl⟩ := start
  constructor
  · constructor
    · rintro k (⟨job, member, _⟩ | ⟨i, handles⟩)
      · cases member
      · cases handles
    · exact .nil
    · intro i j k handles
      cases handles
    · intro job member
      cases member
  · intro p same
    cases same
  · intro i k c p same
    cases same
  · intro job member
    cases member
  · exact fun _ => listening
  · intro e same
    cases same

/-- Every run whose steps meet sound conditions keeps the invariant. -/
theorem Inv.reachable (sound : cond.Sound)
    (reach : ((proxyServer N A).only cond.Meets).Reachable s) : Inv cond s := by
  refine reach.invariant (fun _ start => .init start) fun _ _ _ _ inv taken => ?_
  exact inv.step sound taken.1.2 taken.2

end

end SysProg.Proxy
