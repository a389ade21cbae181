import SysProg.Lib.Fifo
import SysProg.M9.Queue

/-! # The request queue as a first-in first-out queue

Sequences of operations on the linked queue, with the address `malloc` returns
for each node, against the same operations on `Fifo.Contents`.  A dequeue
returns a bare pointer: NULL is both the closed answer and a possible element,
which is where the two levels differ for a reader of the return value.
-/

namespace SysProg.M9

open Fallible Heap Monitor Fifo

/-- One call on the queue, with the node address an enqueue gets from `malloc`. -/
inductive QueueOp (α : Type) where
  | enqueue (node : Addr) (data : Option α)
  | close
  | dequeue

variable {α : Type}

namespace QueueOp

/-- The call and, for a dequeue that does not block, the pointer it returns. -/
def run (m : Mem α) : QueueOp α → Except Undefined (Mem α × Option (Option α))
  | .enqueue node data => do return (← queueEnqueue m node data, none)
  | .close => .ok (queueClose m, none)
  | .dequeue => do
      match ← queueDequeueLocked m with
      | .leave m' data | .leaveWaking m' data | .leaveOwing m' data => return (m', some data)
      | .wait => return (m, none)

/-- The operation of the abstract queue that a call stands for. -/
def abstract : QueueOp α → Fifo.Op (Option α)
  | .enqueue _ data => .enqueue data
  | .close => .close
  | .dequeue => .dequeue

/-- `malloc` returns memory that is not in use, fewer than 2^31 elements are
    held, and a dequeue does not block. -/
def Legal (m : Mem α) : QueueOp α → Prop
  | .enqueue node _ => m.heap node = none ∧ m.que.size + 1 < 2 ^ 31
  | .close => True
  | .dequeue => 0 < m.que.size ∨ m.que.isclosed = true

/-- A sequence of calls and the pointers its dequeues return. -/
def runAll (m : Mem α) : List (QueueOp α) → Except Undefined (Mem α × List (Option α))
  | [] => .ok (m, [])
  | op :: ops => do
      let (m', answer) ← op.run m
      let (m'', answers) ← runAll m' ops
      return (m'', answer.toList ++ answers)

/-- Every call of the sequence is legal when its turn comes. -/
def LegalRun (m : Mem α) : List (QueueOp α) → Prop
  | [] => True
  | op :: ops => op.Legal m ∧ ∀ m' answer, op.run m = .ok (m', answer) → LegalRun m' ops

end QueueOp

/-- The pointer by which `queue_dequeue` reports an abstract answer. -/
def answerPointer : Fifo.Answer (Option α) → Option α
  | .took data => data
  | .closed => none

/-- The linked queue holds what the abstract queue holds. -/
structure Refines (m : Mem α) (q : Contents (Option α)) : Prop where
  represents : ∃ addrs, Represents m addrs q.items
  closed : m.que.isclosed = q.closed

theorem queueInit_refines (heap : Store (QueueNode α)) (header : Addr) :
    Refines (queueInit heap header) Fifo.empty :=
  ⟨⟨[], queueInit_represents heap header⟩, rfl⟩

theorem queueEnqueue_refines {m : Mem α} {q : Contents (Option α)} {node} (data)
    (refines : Refines m q) (fresh : m.heap node = none) (room : m.que.size + 1 < 2 ^ 31) :
    ∃ m', queueEnqueue m node data = .ok m' ∧
      Refines m' { q with items := q.items ++ [data] } := by
  obtain ⟨addrs, rep⟩ := refines.represents
  obtain ⟨off, rep'⟩ := rep.newNode data fresh
  have room' : (newNode m node data).que.size + 1 ≤ intMax := by
    simp only [newNode, intMax]
    omega
  obtain ⟨m', ran, rep'', closed, _⟩ :=
    queueEnqueueLocked_spec rep' off (put_self ..) room'
  exact ⟨m', ran, ⟨addrs ++ [node], rep''⟩, closed.trans refines.closed⟩

theorem queueDequeue_refines {m : Mem α} {q : Contents (Option α)} (refines : Refines m q)
    (ready : 0 < m.que.size ∨ m.que.isclosed = true) :
    ∃ m' answer, QueueOp.run m .dequeue = .ok (m', some (answerPointer answer)) ∧
      step q .dequeue = ((step q .dequeue).1, some answer) ∧
      Refines m' (step q .dequeue).1 := by
  obtain ⟨addrs, rep⟩ := refines.represents
  obtain ⟨items, closed⟩ := q
  cases rep.stored with
  | nil =>
      have empty : m.que.size = 0 := rep.size
      have shut : m.que.isclosed = true := by
        rcases ready with full | shut
        · omega
        · exact shut
      obtain rfl : closed = true := refines.closed.symm.trans shut
      refine ⟨m, .closed, ?_, rfl, refines⟩
      simp [QueueOp.run, queueDequeueLocked_empty empty, shut, answerPointer]
  | cons first rest =>
      obtain ⟨m', ran, rep', closed', _⟩ := queueDequeueLocked_spec rep
      refine ⟨m', .took _, ?_, rfl, ⟨_, rep'⟩, closed'.trans refines.closed⟩
      simp [QueueOp.run, ran, answerPointer]

/-- One call on the linked queue does what the abstract operation does. -/
theorem QueueOp.run_refines {m : Mem α} {q : Contents (Option α)} {op : QueueOp α}
    (refines : Refines m q) (legal : op.Legal m) :
    ∃ m', op.run m = .ok (m', (step q op.abstract).2.map answerPointer) ∧
      Refines m' (step q op.abstract).1 := by
  cases op with
  | enqueue node data =>
      obtain ⟨m', ran, refines'⟩ := queueEnqueue_refines data refines legal.1 legal.2
      exact ⟨m', by simp [QueueOp.run, ran,
        QueueOp.abstract, step], refines'⟩
  | close =>
      obtain ⟨addrs, rep⟩ := refines.represents
      exact ⟨_, rfl, ⟨addrs, queueClose_represents rep⟩, rfl⟩
  | dequeue =>
      obtain ⟨m', answer, ran, abstractStep, refines'⟩ := queueDequeue_refines refines legal
      refine ⟨m', ?_, refines'⟩
      rw [ran, QueueOp.abstract, abstractStep]
      rfl

/-- A legal sequence of calls never meets undefined behaviour and returns the
    pointers of the abstract answers. -/
theorem QueueOp.runAll_refines {m : Mem α} {q : Contents (Option α)} {ops : List (QueueOp α)}
    (refines : Refines m q) (legal : LegalRun m ops) :
    ∃ m', runAll m ops =
        .ok (m', (Fifo.run q (ops.map QueueOp.abstract)).2.map answerPointer) ∧
      Refines m' (Fifo.run q (ops.map QueueOp.abstract)).1 := by
  induction ops generalizing m q with
  | nil => exact ⟨m, rfl, refines⟩
  | cons op ops ih =>
      obtain ⟨m₁, ran, refines₁⟩ := QueueOp.run_refines refines legal.1
      obtain ⟨m₂, ran₂, refines₂⟩ := ih refines₁ (legal.2 _ _ ran)
      refine ⟨m₂, ?_, refines₂⟩
      cases answer : (step q op.abstract).2 <;>
        simp [runAll, ran, ran₂, Fifo.run, answer]

theorem QueueOp.LegalRun.split {m : Mem α} {before after : List (QueueOp α)}
    (legal : LegalRun m (before ++ after)) :
    LegalRun m before ∧ ∀ m' answers, runAll m before = .ok (m', answers) → LegalRun m' after := by
  induction before generalizing m with
  | nil =>
      refine ⟨trivial, fun m' answers ran => ?_⟩
      cases ran
      exact legal
  | cons op ops ih =>
      refine ⟨⟨legal.1, fun m' answer ran => (ih (legal.2 m' answer ran)).1⟩, ?_⟩
      intro m' answers ran
      cases first : op.run m with
      | error fault => simp [runAll, first] at ran
      | ok pair =>
          obtain ⟨m₁, answer⟩ := pair
          cases rest : runAll m₁ ops with
          | error fault => simp [runAll, first, rest] at ran
          | ok pair' =>
              obtain ⟨m₂, answers'⟩ := pair'
              simp only [runAll, first, rest, ok_bind, pure_eq_ok, Except.ok.injEq,
                Prod.mk.injEq] at ran
              exact ran.1 ▸ (ih (legal.2 m₁ answer first)).2 m₂ answers' rest

theorem QueueOp.LegalRun.cons {m m' : Mem α} {op : QueueOp α} {answer} {ops : List (QueueOp α)}
    (legal : op.Legal m) (ran : op.run m = .ok (m', answer)) (rest : LegalRun m' ops) :
    LegalRun m (op :: ops) := by
  refine ⟨legal, fun m'' answer' ran' => ?_⟩
  rw [ran] at ran'
  cases ran'
  exact rest

/-- What the pointer returned by a legal dequeue tells its caller. -/
theorem queueDequeue_null_iff {m : Mem α} {q : Contents (Option α)} (refines : Refines m q)
    (ready : 0 < m.que.size ∨ m.que.isclosed = true) :
    ∃ m' data, QueueOp.run m .dequeue = .ok (m', some data) ∧
      (data = none ↔ (q.closed = true ∧ q.items = []) ∨ q.items.head? = some none) := by
  obtain ⟨m', answer, ran, taken, _⟩ := queueDequeue_refines refines ready
  refine ⟨m', answerPointer answer, ran, ?_⟩
  obtain ⟨items, closed⟩ := q
  cases items with
  | nil =>
      cases closed with
      | false => simp [step] at taken
      | true =>
          obtain rfl : .closed = answer := by simpa [step] using taken
          simp [answerPointer]
  | cons x xs =>
      obtain rfl : .took x = answer := by simpa [step] using taken
      simp [answerPointer]

/-- After any legal sequence of calls the linked queue is the abstract queue:
    the same answers, elements out in the order they went in, `size` counting
    the difference.  A dequeue returns NULL exactly when the queue is closed and
    empty or the front element is itself NULL. -/
theorem queue_is_fifo (heap : Store (QueueNode α)) (header : Addr) (ops : List (QueueOp α))
    (legal : QueueOp.LegalRun (queueInit heap header) ops) :
    ∃ m q answers, Fifo.run Fifo.empty (ops.map QueueOp.abstract) = (q, answers) ∧
      QueueOp.runAll (queueInit heap header) ops = .ok (m, answers.map answerPointer) ∧
      pushed (ops.map QueueOp.abstract) = taken answers ++ q.items ∧
      m.que.size = (pushed (ops.map QueueOp.abstract)).length - (taken answers).length ∧
      m.que.isclosed = q.closed ∧
      (0 < m.que.size ∨ m.que.isclosed = true →
        ∃ m' data, QueueOp.run m .dequeue = .ok (m', some data) ∧
          (data = none ↔ (q.closed = true ∧ q.items = []) ∨ q.items.head? = some none)) := by
  obtain ⟨m, ran, refines⟩ := QueueOp.runAll_refines (queueInit_refines heap header) legal
  have conserved := run_conserves Fifo.empty (ops.map QueueOp.abstract)
  simp only [Fifo.empty, List.nil_append] at conserved
  refine ⟨m, _, _, rfl, ran, conserved, ?_, refines.closed, queueDequeue_null_iff refines⟩
  obtain ⟨addrs, rep⟩ := refines.represents
  rw [rep.count, conserved, List.length_append, Fifo.empty]
  omega

/-- The queue empties and is refilled through a reused address. -/
theorem queue_is_fifo_refilled :
    ∃ (m : Mem Nat) (answers : List (Fifo.Answer (Option Nat))),
      QueueOp.runAll (queueInit (fun _ => none) 1)
        [.enqueue 2 (some 7), .dequeue, .enqueue 2 (some 8), .dequeue] =
          .ok (m, answers.map answerPointer) ∧
      taken answers = [some 7, some 8] ∧ m.que.size = 0 := by
  have legal : QueueOp.LegalRun (queueInit (fun _ => none) 1 : Mem Nat)
      [.enqueue 2 (some 7), .dequeue, .enqueue 2 (some 8), .dequeue] :=
    .cons ⟨rfl, by decide⟩ rfl <| .cons (.inl (by decide)) rfl <|
      .cons ⟨rfl, by decide⟩ rfl <| .cons (.inl (by decide)) rfl trivial
  obtain ⟨m, q, answers, abstractRun, ran, _, size, _⟩ := queue_is_fifo _ _ _ legal
  cases abstractRun
  exact ⟨m, _, ran, rfl, size⟩

/-- A NULL element taken from an open queue that holds it is returned as the
    pointer that also stands for the closed and empty queue. -/
theorem null_element_reads_as_closed :
    QueueOp.LegalRun (queueInit (fun _ => none) 1 : Mem Nat) [.enqueue 2 none, .dequeue] ∧
    ∃ m m' : Mem Nat, QueueOp.runAll (queueInit (fun _ => none) 1) [.enqueue 2 none] = .ok (m, []) ∧
      QueueOp.run m .dequeue = .ok (m', some none) ∧
      m.que.isclosed = false ∧ m.que.size = 1 ∧
      (Fifo.run Fifo.empty [.enqueue (none : Option Nat)]).1.items = [none] :=
  ⟨.cons ⟨rfl, by decide⟩ rfl (.cons (.inl (by decide)) rfl trivial),
    _, _, rfl, rfl, rfl, rfl, rfl⟩

end SysProg.M9
