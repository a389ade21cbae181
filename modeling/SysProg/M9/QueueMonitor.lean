import SysProg.M9.QueueFifo

/-! # The request queue shared by threads

Any number of threads call `queue_enqueue`, `queue_dequeue` and `queue_close`
on one queue.  The concrete monitor runs the sections of `queue.c` on the heap;
the abstract one runs the same calls on a closeable queue of elements.
`Holds` relates the two: besides the queue's own nodes it knows the node each
enqueuer has allocated but not yet linked.
-/

namespace SysProg.M9

open Fallible Heap Monitor Fifo Transition

/-- A call between its entry and its section, with the locals the section uses. -/
inductive Section (α : Type) where
  | enqueue (node : Addr) (data : Option α)
  | close
  | dequeue
  deriving DecidableEq

/-- What a call hands back: nothing, or the pointer of a dequeue. -/
inductive Returned (α : Type) where
  | nothing
  | pointer (p : Option α)
  deriving DecidableEq

variable {α τ : Type}

/-- The calls of `queue.c` on the heap.  An enqueue can only be given an address
    that is not in use. -/
def queueCode : Code (Mem α) (QueueOp α) (Section α) (Returned α) where
  enter
    | .enqueue node data, m =>
        if (m.heap node).isNone then some (.enqueue node data, newNode m node data) else none
    | .close, m => some (.close, m)
    | .dequeue, m => some (.dequeue, m)
  crit
    | .enqueue node _, m =>
        match queueEnqueueLocked m node with
        | .ok m' => some (.leaveOwing m' .nothing)
        | .error _ => none
    | .close, m => some (.leaveOwing (queueClose m) .nothing)
    | .dequeue, m =>
        match queueDequeueLocked m with
        | .ok (.leave m' p) => some (.leave m' (.pointer p))
        | .ok (.leaveWaking m' p) => some (.leaveWaking m' (.pointer p))
        | .ok (.leaveOwing m' p) => some (.leaveOwing m' (.pointer p))
        | .ok .wait => some .wait
        | .error _ => none

/-- The same calls on the abstract queue. -/
def fifoCode :
    Code (Contents (Option α)) (Fifo.Op (Option α)) (Fifo.Op (Option α)) (Returned α) where
  enter call q := some (call, q)
  crit
    | .enqueue x, q => some (.leaveOwing { q with items := q.items ++ [x] } .nothing)
    | .close, q => some (.leaveOwing { q with closed := true } .nothing)
    | .dequeue, q =>
        match q.items, q.closed with
        | x :: xs, _ => some (.leave { q with items := xs } (.pointer x))
        | [], true => some (.leaveWaking q (.pointer none))
        | [], false => some .wait

/-- The abstract call a section belongs to. -/
def Section.abstract : Section α → Fifo.Op (Option α)
  | .enqueue _ data => .enqueue data
  | .close => .close
  | .dequeue => .dequeue

/-- What the waiters of the condition variable wait for. -/
def ready (m : Mem α) : Prop := m.que.size ≠ 0 ∨ m.que.isclosed = true

section discipline

variable {m m' : Mem α}

theorem Mem.setNext_que {p : Addr} {next : Option Addr} (ran : m.setNext p next = .ok m') :
    m'.que = m.que := by
  obtain ⟨n, _, done⟩ := bind_eq_ok.mp ran
  cases done
  rfl

/-- A dequeue waits only on an open queue without elements. -/
theorem queueDequeueLocked_wait (ran : queueDequeueLocked m = .ok .wait) :
    m.que.size = 0 ∧ m.que.isclosed = false := by
  by_cases empty : m.que.size = 0
  · rw [queueDequeueLocked_empty empty] at ran
    cases closed : m.que.isclosed with
    | false => exact ⟨empty, rfl⟩
    | true => simp [closed] at ran
  · rw [queueDequeueLocked, if_neg empty] at ran
    obtain ⟨_, _, ran⟩ := bind_eq_ok.mp ran
    obtain ⟨_, _, ran⟩ := bind_eq_ok.mp ran
    obtain ⟨_, _, ran⟩ := bind_eq_ok.mp ran
    obtain ⟨_, _, ran⟩ := bind_eq_ok.mp ran
    obtain ⟨_, _, ran⟩ := bind_eq_ok.mp ran
    cases ran

/-- A dequeue that leaves without a broadcast found an element. -/
theorem queueDequeueLocked_leave {p : Option α} (ran : queueDequeueLocked m = .ok (.leave m' p)) :
    m.que.size ≠ 0 := by
  intro empty
  rw [queueDequeueLocked_empty empty] at ran
  cases closed : m.que.isclosed <;> simp [closed] at ran

/-- A section that overflowed `size` would not have succeeded. -/
theorem queueEnqueueLocked_room {node : Addr} (ran : queueEnqueueLocked m node = .ok m') :
    m.que.size + 1 ≤ intMax := by
  obtain ⟨m₁, first, ran⟩ := bind_eq_ok.mp ran
  have size₁ : m₁.que.size = m.que.size := by rw [Mem.setNext_que first]
  -- both ways of linking leave the size alone before it is counted up
  have counted : ∀ p : Addr, ∀ m₂ : Mem α,
      ({ m₁ with que.tail := node } : Mem α).setNext p (some node) = .ok m₂ →
      (if m₂.que.size + 1 ≤ intMax then
        pure ({ m₂ with que.tail := node, que.size := m₂.que.size + 1 } : Mem α)
      else throw Undefined.overflow) = (.ok m' : Except Undefined (Mem α)) →
      m.que.size + 1 ≤ intMax := by
    intro p m₂ second ran
    have size₂ : m₂.que.size = m₁.que.size := by rw [Mem.setNext_que second]
    by_cases room : m₂.que.size + 1 ≤ intMax
    · rwa [size₂, size₁] at room
    · simp [room, throw, throwThe, MonadExceptOf.throw] at ran
  dsimp only at ran
  split at ran
  · obtain ⟨m₂, second, ran⟩ := bind_eq_ok.mp ran
    exact counted _ m₂ second ran
  · obtain ⟨m₂, second, ran⟩ := bind_eq_ok.mp ran
    exact counted _ m₂ second ran

theorem queueCode_wakes : Wakes (queueCode (α := α)) ready where
  waits := by
    intro op m ran
    cases op with
    | enqueue node data =>
        simp only [queueCode] at ran
        split at ran <;> simp at ran
    | close => simp [queueCode] at ran
    | dequeue =>
        simp only [queueCode] at ran
        split at ran <;> simp at ran
        rename_i waits
        obtain ⟨empty, openQueue⟩ := queueDequeueLocked_wait waits
        simp [ready, empty, openQueue]
  enters := by
    intro call m op m' ran now
    cases call with
    | enqueue node data =>
        simp only [queueCode, Option.ite_none_right_eq_some, Option.some.injEq,
          Prod.mk.injEq] at ran
        rw [← ran.2.2] at now
        exact now
    | close =>
        cases ran
        exact now
    | dequeue =>
        cases ran
        exact now
  leaves := by
    intro op m m' r ran _
    cases op with
    | enqueue node data =>
        simp only [queueCode] at ran
        split at ran <;> simp at ran
    | close => simp [queueCode] at ran
    | dequeue =>
        simp only [queueCode] at ran
        split at ran <;> simp at ran
        rename_i left
        exact .inl (queueDequeueLocked_leave left)

end discipline

/-- The heap holds the abstract queue, and for each enqueuer between `malloc`
    and its section a node of its own. -/
structure Holds (phase : τ → Phase (Section α) (Returned α)) (m : Mem α)
    (q : Contents (Option α)) : Prop where
  nodes : ∃ addrs, Represents m addrs q.items ∧ ∀ t node data,
    (phase t).op? = some (.enqueue node data) →
      m.heap node = some ⟨data, none⟩ ∧ node ∉ m.que.header :: addrs
  apart : ∀ t u node data data', (phase t).op? = some (.enqueue node data) →
    (phase u).op? = some (.enqueue node data') → t = u
  closed : m.que.isclosed = q.closed

namespace Holds

variable {phase phase' : τ → Phase (Section α) (Returned α)} {m : Mem α}
  {q : Contents (Option α)}

/-- Only the enqueues in progress matter, and fewer of them do not hurt. -/
theorem mono (holds : Holds phase m q)
    (fewer : ∀ t node data, (phase' t).op? = some (.enqueue node data) →
      (phase t).op? = some (.enqueue node data)) : Holds phase' m q := by
  obtain ⟨addrs, rep, made⟩ := holds.nodes
  exact
    { nodes := ⟨addrs, rep, fun t node data at_ => made t node data (fewer t node data at_)⟩
      apart := fun t u node data data' at_ at' =>
        holds.apart t u node data data' (fewer t node data at_) (fewer u node data' at')
      closed := holds.closed }

theorem update_fewer [DecidableEq τ] {t : τ} {p : Phase (Section α) (Returned α)}
    (fewer : ∀ node data, p.op? = some (.enqueue node data) →
      (phase t).op? = some (.enqueue node data)) (u : τ) (node : Addr) (data : Option α)
    (at_ : (Function.update phase t p u).op? = some (.enqueue node data)) :
    (phase u).op? = some (.enqueue node data) := by
  by_cases same : u = t
  · subst same
    rw [Function.update_self] at at_
    exact fewer node data at_
  · rwa [Function.update_of_ne same] at at_

theorem wake (holds : Holds phase m q) : Holds (fun t => (phase t).wake) m q :=
  holds.mono fun t node data at_ => by simpa using at_

/-- `malloc` and the initialisation of the node, before the lock. -/
theorem newNode [DecidableEq τ] (holds : Holds phase m q) {t : τ} {node : Addr}
    {data : Option α} (fresh : m.heap node = none) :
    Holds (Function.update phase t (.entering (.enqueue node data)))
      (M9.newNode m node data) q := by
  obtain ⟨addrs, rep, made⟩ := holds.nodes
  obtain ⟨off, rep'⟩ := rep.newNode data fresh
  have unused : ∀ u node' data', (phase u).op? = some (.enqueue node' data') → node' ≠ node := by
    intro u node' data' at_ same
    have live := (made u node' data' at_).1
    rw [same, fresh] at live
    cases live
  refine ⟨⟨addrs, rep', ?_⟩, ?_, holds.closed⟩
  · intro u node' data' at_
    by_cases same : u = t
    · subst same
      rw [Function.update_self] at at_
      cases at_
      exact ⟨put_self .., off⟩
    · rw [Function.update_of_ne same] at at_
      obtain ⟨live, outside⟩ := made u node' data' at_
      exact ⟨(put_of_ne (unused u node' data' at_)).trans live, outside⟩
  · intro u v node' data₁ data₂ atU atV
    by_cases sameU : u = t <;> by_cases sameV : v = t
    · rw [sameU, sameV]
    · subst sameU
      rw [Function.update_self] at atU
      rw [Function.update_of_ne sameV] at atV
      cases atU
      exact absurd rfl (unused v _ _ atV)
    · subst sameV
      rw [Function.update_self] at atV
      rw [Function.update_of_ne sameU] at atU
      cases atV
      exact absurd rfl (unused u _ _ atU)
    · rw [Function.update_of_ne sameU] at atU
      rw [Function.update_of_ne sameV] at atV
      exact holds.apart u v node' data₁ data₂ atU atV

/-- The section of an enqueue appends the data its call was given. -/
theorem enqueued [DecidableEq τ] (holds : Holds phase m q) {t : τ} {node : Addr}
    {data : Option α} {p : Phase (Section α) (Returned α)} {m' : Mem α}
    (at_ : (phase t).op? = some (.enqueue node data)) (quiet : p.op? = none)
    (ran : queueEnqueueLocked m node = .ok m') :
    Holds (Function.update phase t p) m' { q with items := q.items ++ [data] } := by
  obtain ⟨addrs, rep, made⟩ := holds.nodes
  obtain ⟨live, off⟩ := made t node data at_
  obtain ⟨m'', ran', rep', closed, header, frame⟩ :=
    queueEnqueueLocked_spec rep off live (queueEnqueueLocked_room ran)
  obtain rfl : m' = m'' := Except.ok.inj (ran.symm.trans ran')
  have fewer : ∀ u node' data', (Function.update phase t p u).op? = some (.enqueue node' data') →
      (phase u).op? = some (.enqueue node' data') := update_fewer fun node data now => by
    rw [quiet] at now
    cases now
  refine ⟨⟨_, rep', ?_⟩, ?_, closed.trans holds.closed⟩
  · intro u node' data' atU
    have other : u ≠ t := by
      rintro rfl
      rw [Function.update_self, quiet] at atU
      cases atU
    obtain ⟨live', off'⟩ := made u node' data' (fewer u _ _ atU)
    have ne : node' ≠ node := by
      rintro rfl
      exact other (holds.apart u t _ _ _ (fewer u _ _ atU) at_)
    refine ⟨(frame node' off' ne).trans live', ?_⟩
    rw [header, ← List.cons_append, List.mem_append, not_or]
    exact ⟨off', by simpa using ne⟩
  · intro u v node' data₁ data₂ atU atV
    exact holds.apart u v node' data₁ data₂ (fewer u _ _ atU) (fewer v _ _ atV)

theorem closing (holds : Holds phase m q) :
    Holds phase (queueClose m) { q with closed := true } := by
  obtain ⟨addrs, rep, made⟩ := holds.nodes
  exact ⟨⟨addrs, queueClose_represents rep, made⟩, holds.apart, rfl⟩

/-- The section of a dequeue is always defined: it takes the front element,
    reports the end, or waits. -/
theorem dequeue_cons (holds : Holds phase m q) {x : Option α} {xs : List (Option α)}
    (front : q.items = x :: xs) :
    ∃ m', queueCode.crit .dequeue m = some (.leave m' (.pointer x)) ∧
      Holds phase m' { q with items := xs } := by
  obtain ⟨addrs, rep, made⟩ := holds.nodes
  rw [front] at rep
  cases addrs with
  | nil => cases rep.stored
  | cons a addrs =>
      obtain ⟨m', ran, rep', closed, header, _, frame⟩ := queueDequeueLocked_spec rep
      refine ⟨m', by simp [queueCode, ran],
        ⟨⟨addrs, rep', ?_⟩, holds.apart, closed.trans holds.closed⟩⟩
      intro t node data at_
      obtain ⟨live, off⟩ := made t node data at_
      refine ⟨(frame node off).trans live, fun inside => off ?_⟩
      rw [header] at inside
      rcases List.mem_cons.mp inside with same | inside
      · exact same ▸ List.mem_cons_self
      · exact List.mem_cons_of_mem _ (List.mem_cons_of_mem _ inside)

theorem dequeue_nil (holds : Holds phase m q) (empty : q.items = []) :
    queueCode.crit .dequeue m =
      some (if q.closed then .leaveWaking m (.pointer none) else .wait) := by
  obtain ⟨addrs, rep, _⟩ := holds.nodes
  have ran := queueDequeueLocked_empty (rep.empty_iff.mpr empty)
  rw [holds.closed] at ran
  cases closed : q.closed <;> simp [queueCode, ran, closed]

end Holds

/-- The ways out of a section, with what the abstract queue says about each. -/
inductive Exits (phase : τ → Phase (Section α) (Returned α)) (m : Mem α)
    (q : Contents (Option α)) : Section α → Exit (Mem α) (Returned α) → Prop where
  | enqueue {node : Addr} {data : Option α} {m' : Mem α} : queueEnqueueLocked m node = .ok m' →
      Exits phase m q (.enqueue node data) (.leaveOwing m' .nothing)
  | close : Exits phase m q .close (.leaveOwing (queueClose m) .nothing)
  | take {m' : Mem α} {x : Option α} {xs : List (Option α)} : q.items = x :: xs →
      Holds phase m' { q with items := xs } →
      Exits phase m q .dequeue (.leave m' (.pointer x))
  | ended : q.items = [] → q.closed = true →
      Exits phase m q .dequeue (.leaveWaking m (.pointer none))
  | wait : q.items = [] → q.closed = false → Exits phase m q .dequeue .wait

theorem Holds.exits {phase : τ → Phase (Section α) (Returned α)} {m : Mem α}
    {q : Contents (Option α)} {op : Section α} {exit : Exit (Mem α) (Returned α)}
    (holds : Holds phase m q) (ran : queueCode.crit op m = some exit) :
    Exits phase m q op exit := by
  cases op with
  | enqueue node data =>
      simp only [queueCode] at ran
      split at ran
      · cases ran
        exact .enqueue ‹_›
      · cases ran
  | close =>
      cases ran
      exact .close
  | dequeue =>
      cases items : q.items with
      | nil =>
          rw [holds.dequeue_nil items] at ran
          cases closed : q.closed with
          | false =>
              simp only [closed, Bool.false_eq_true, if_false, Option.some.injEq] at ran
              exact ran ▸ .wait items closed
          | true =>
              simp only [closed, if_true, Option.some.injEq] at ran
              exact ran ▸ .ended items closed
      | cons x xs =>
          obtain ⟨m', ran', holds'⟩ := holds.dequeue_cons items
          rw [ran'] at ran
          cases ran
          exact .take items holds'

/-- The heap monitor does what the abstract monitor does. -/
structure Sim (s : State τ (Mem α) (Section α) (Returned α))
    (a : State τ (Contents (Option α)) (Fifo.Op (Option α)) (Returned α)) : Prop where
  holds : Holds s.phase s.shared a.shared
  phases : a.phase = fun t => (s.phase t).map Section.abstract

/-- A queue just made, with every thread outside. -/
theorem Sim.init {s : State τ (Mem α) (Section α) (Returned α)} {heap header}
    (made : s.shared = queueInit heap header) (outside : ∀ t, s.phase t = .idle none) :
    Sim s ⟨Fifo.empty, fun _ => .idle none⟩ := by
  refine ⟨?_, ?_⟩
  · rw [made]
    exact
      { nodes := ⟨[], queueInit_represents heap header, fun t node data at_ => by
          rw [outside t] at at_
          cases at_⟩
        apart := fun t u node data data' at_ _ => by
          rw [outside t] at at_
          cases at_
        closed := rfl }
  · funext t
    rw [outside t]
    rfl

variable [DecidableEq τ]

private theorem Sim.moved {phase : τ → Phase (Section α) (Returned α)} {t : τ}
    {p : Phase (Section α) (Returned α)} {m : Mem α} {q : Contents (Option α)}
    (holds : Holds (Function.update phase t p) m q) :
    Sim ⟨m, Function.update phase t p⟩
      ⟨q, Function.update (fun u => (phase u).map Section.abstract) t (p.map Section.abstract)⟩ :=
  ⟨holds, (map_update _ _ _ _).symm⟩

private theorem Sim.moved_waking {phase : τ → Phase (Section α) (Returned α)} {t : τ}
    {p : Phase (Section α) (Returned α)} {m : Mem α} {q : Contents (Option α)}
    (holds : Holds (Function.update (fun u => (phase u).wake) t p) m q) :
    Sim ⟨m, Function.update (fun u => (phase u).wake) t p⟩
      ⟨q, Function.update (fun u => ((phase u).map Section.abstract).wake) t
        (p.map Section.abstract)⟩ := by
  simpa only [Phase.map_wake] using Sim.moved holds

theorem Sim.step {s s' : State τ (Mem α) (Section α) (Returned α)} {a l} (sim : Sim s a)
    (taken : Step queueCode s l s') :
    ∃ a', Step fifoCode a (l.map QueueOp.abstract) a' ∧ Sim s' a' := by
  obtain ⟨q, aphase⟩ := a
  obtain ⟨holds, rfl⟩ := sim
  change Holds s.phase s.shared q at holds
  -- a thread that moves to a phase without an enqueue adds no unlinked node
  have settle : ∀ {phase m q'} {t : τ} (p : Phase (Section α) (Returned α)),
      (∀ node data, p.op? ≠ some (.enqueue node data)) → Holds phase m q' →
      Holds (Function.update phase t p) m q' := fun p without now =>
    now.mono (Holds.update_fewer fun node data at_ => absurd at_ (without node data))
  cases taken with
  | @enter t last call op shared outside work =>
      have outside' : ((s.phase t).map Section.abstract) = .idle last := by
        simp [outside, Phase.map]
      cases call with
      | enqueue node data =>
          simp only [queueCode, Option.ite_none_right_eq_some, Option.some.injEq, Prod.mk.injEq,
            Option.isNone_iff_eq_none] at work
          obtain ⟨fresh, rfl, rfl⟩ := work
          exact ⟨_, .enter outside' rfl, .moved (holds.newNode fresh)⟩
      | close =>
          cases work
          exact ⟨_, .enter outside' rfl, .moved (settle _ (by simp) holds)⟩
      | dequeue =>
          cases work
          exact ⟨_, .enter outside' rfl, .moved (settle _ (by simp) holds)⟩
  | @leave t op shared r lock ran =>
      cases holds.exits ran with
      | take items holds' =>
          exact ⟨_, .leave lock.map (by simp [fifoCode, Section.abstract, items]),
            .moved (settle _ (by simp) holds')⟩
  | @leaveWaking t op shared r lock ran =>
      cases holds.exits ran with
      | ended items closed =>
          exact ⟨_, .leaveWaking lock.map (by simp [fifoCode, Section.abstract, items, closed]),
            .moved_waking (settle _ (by simp) holds.wake)⟩
  | @leaveOwing t op shared r lock ran =>
      cases holds.exits ran with
      | enqueue linked =>
          exact ⟨_, .leaveOwing lock.map rfl, .moved (holds.enqueued lock.op? rfl linked)⟩
      | close => exact ⟨_, .leaveOwing lock.map rfl, .moved (settle _ (by simp) holds.closing)⟩
  | @wait t op lock ran =>
      cases holds.exits ran with
      | wait items closed =>
          exact ⟨_, .wait lock.map (by simp [fifoCode, Section.abstract, items, closed]),
            .moved (settle _ (by simp) holds)⟩
  | @broadcast t r owes =>
      have owes' : (s.phase t).map Section.abstract = .signalling r := by simp [owes, Phase.map]
      exact ⟨_, .broadcast owes', .moved_waking (settle _ (by simp) holds.wake)⟩
  | @spurious t op asleep =>
      have asleep' : (s.phase t).map Section.abstract = .asleep op.abstract := by
        simp [asleep, Phase.map]
      refine ⟨_, .spurious asleep',
        .moved (holds.mono (Holds.update_fewer fun node data at_ => ?_))⟩
      rw [asleep]
      exact at_

/-- Threads sharing one queue made by `queue_init`. -/
def queueSystem (τ α : Type) [DecidableEq τ] :
    System (State τ (Mem α) (Section α) (Returned α)) (Label τ (QueueOp α)) :=
  system queueCode fun m => ∃ heap header, m = queueInit heap header

/-- Threads sharing one abstract queue. -/
def fifoSystem (τ α : Type) [DecidableEq τ] :
    System (State τ (Contents (Option α)) (Fifo.Op (Option α)) (Returned α))
      (Label τ (Fifo.Op (Option α))) :=
  system fifoCode fun q => q = Fifo.empty

/-- Every reachable state of the heap monitor has a reachable abstract image. -/
theorem queueSystem_simulates {s : State τ (Mem α) (Section α) (Returned α)}
    (reach : (queueSystem τ α).Reachable s) : ∃ a, (fifoSystem τ α).Reachable a ∧ Sim s a := by
  induction reach with
  | @init s start =>
      obtain ⟨⟨heap, header, made⟩, outside⟩ := start
      exact ⟨⟨Fifo.empty, fun _ => .idle none⟩, .init ⟨rfl, fun _ => rfl⟩, .init made outside⟩
  | step _ taken ih =>
      obtain ⟨a, reached, sim⟩ := ih
      obtain ⟨a', step, sim'⟩ := sim.step taken
      exact ⟨a', .step reached step, sim'⟩

/-- The section of a dequeue is defined in every reachable state. -/
theorem dequeue_defined {s : State τ (Mem α) (Section α) (Returned α)}
    (reach : (queueSystem τ α).Reachable s) : queueCode.crit .dequeue s.shared ≠ none := by
  obtain ⟨a, _, sim⟩ := queueSystem_simulates reach
  cases items : a.shared.items with
  | nil => simp [sim.holds.dequeue_nil items]
  | cons x xs =>
      obtain ⟨m', ran, _⟩ := sim.holds.dequeue_cons items
      simp [ran]

/-- A sleeper without a wakeup sees an open empty queue, or the thread that
    changed or closed the queue has yet to broadcast.  Once the queue is closed
    and the calls in progress have run as far as they can, nobody is left
    inside a dequeue. -/
theorem queue_no_lost_wakeup {s : State τ (Mem α) (Section α) (Returned α)}
    (reach : (queueSystem τ α).Reachable s) :
    (∀ t op, s.phase t = .asleep op →
      (s.shared.que.size = 0 ∧ s.shared.que.isclosed = false) ∨
        ∃ u r, s.phase u = .signalling r) ∧
    (s.shared.que.isclosed = true → Stuck queueCode s →
      ∀ t, (s.phase t).op? ≠ some .dequeue) := by
  have attended := queueCode_wakes.no_lost_wakeup reach
  constructor
  · intro t op asleep
    rcases attended t op asleep with wait | owed
    · left
      simpa [ready, not_or] using wait
    · exact .inr owed
  · intro closed stuck t inside
    rcases stuck.settled attended (.inr closed) t with ⟨last, idle⟩ | ⟨op, lock, undefinedAt⟩
    · rw [idle] at inside
      cases inside
    · rw [lock.op?] at inside
      cases inside
      exact dequeue_defined reach undefinedAt

/-- One thread sleeps in a dequeue while the other has linked an element and
    not yet broadcast. -/
theorem queue_no_lost_wakeup_owed :
    ∃ s : State Bool (Mem Nat) (Section Nat) (Returned Nat), (queueSystem Bool Nat).Reachable s ∧
      s.phase false = .asleep .dequeue ∧ s.shared.que.size = 1 ∧
      ∃ u r, s.phase u = .signalling r := by
  have start : (queueSystem Bool Nat).Reachable
      ⟨queueInit (fun _ => none) 1, fun _ => .idle none⟩ := .init ⟨⟨_, _, rfl⟩, fun _ => rfl⟩
  have called := start.step (.enter (t := false) (c := .dequeue) rfl rfl)
  have slept := called.step (.wait (t := false) (.inl rfl) rfl)
  have allocated := slept.step (.enter (t := true) (c := .enqueue 2 (some 7)) rfl rfl)
  have linked := allocated.step (.leaveOwing (t := true) (.inl rfl) rfl)
  have attended := (queue_no_lost_wakeup linked).1 false .dequeue rfl
  refine ⟨_, linked, rfl, rfl, attended.resolve_left ?_⟩
  rintro ⟨empty, _⟩
  cases empty

end SysProg.M9
