import SysProg.M9.QueueHeap

/-! # The links of the request queue

What a traversal of the queue, or a destructor that frees its nodes, would rely
on: `next` leads from the sentinel through the data nodes to NULL.  The link that
decides it is the one of the tail.  An enqueue on a non-empty queue makes that
link point to the tail itself, and a dequeue of the last node copies it into the
sentinel, so only what the last enqueue found matters.
-/

namespace SysProg.M9

open Fallible Heap Monitor Fifo

variable {α : Type}

/-- Following `next` from the sentinel visits `size` distinct data nodes, the
    last of them the tail, and then reaches NULL. -/
structure WellLinked (m : Mem α) (addrs : List Addr) : Prop where
  distinct : (m.que.header :: addrs).Nodup
  links : Chain QueueNode.next m.heap m.que.header addrs
  ends : ∃ n, m.heap (addrs.getLastD m.que.header) = some n ∧ n.next = none
  tail : m.que.tail = addrs.getLastD m.que.header
  size : m.que.size = addrs.length
  empty : m.que.size = 0 →
    m.que.tail = m.que.header ∧ ∃ n, m.heap m.que.header = some n ∧ n.next = none

/-- The tail, which is the sentinel of an empty queue, links to NULL. -/
def EndsNull (m : Mem α) : Prop := ∃ n, m.heap m.que.tail = some n ∧ n.next = none

theorem endsNull_of_tail {m : Mem α} {n : QueueNode α} (live : m.heap m.que.tail = some n) :
    EndsNull m ↔ n.next = none := by
  constructor
  · intro ⟨n', live', null⟩
    rw [live] at live'
    exact Option.some.inj live' ▸ null
  · intro null
    exact ⟨n, live, null⟩

/-- Of a represented queue only the last link is open. -/
theorem Represents.wellLinked_iff {m : Mem α} {addrs : List Addr} {items : List (Option α)}
    (rep : Represents m addrs items) : (∃ addrs', WellLinked m addrs') ↔ EndsNull m := by
  constructor
  · intro ⟨addrs', linked⟩
    obtain ⟨n, live, null⟩ := linked.ends
    exact ⟨n, linked.tail ▸ live, null⟩
  · intro ⟨n, live, null⟩
    refine ⟨addrs, rep.distinct, rep.links, ⟨n, rep.tail ▸ live, null⟩, rep.tail, rep.size, ?_⟩
    intro empty
    have atHeader := rep.atHeader empty
    exact ⟨atHeader, n, atHeader ▸ live, null⟩

theorem queueInit_endsNull (heap : Store (QueueNode α)) (header : Addr) :
    EndsNull (queueInit heap header) :=
  ⟨_, put_self .., rfl⟩

/-- After an enqueue the last link is NULL just when the queue was empty: the
    `else` branch links the new tail to itself. -/
theorem queueEnqueue_endsNull {m m' : Mem α} {addrs : List Addr} {items : List (Option α)}
    {node : Addr} {data : Option α} (rep : Represents m addrs items) (fresh : m.heap node = none)
    (room : m.que.size + 1 ≤ intMax) (ran : queueEnqueue m node data = .ok m') :
    EndsNull m' ↔ items = [] := by
  obtain ⟨off, made⟩ := rep.newNode data fresh
  have tailIn : m.que.tail ∈ m.que.header :: addrs := rep.tail ▸ last_mem _ _
  obtain ⟨n, live⟩ := made.live tailIn
  have ne : node ≠ m.que.tail := fun same => off (same ▸ tailIn)
  by_cases empty : m.que.size = 0
  · have atHeader := rep.atHeader empty
    rw [atHeader] at live ne
    rw [queueEnqueue, queueEnqueueLocked_empty live atHeader empty, Except.ok.injEq] at ran
    subst ran
    have still : (newNode m node data).heap node = some ⟨data, none⟩ := put_self ..
    rw [endsNull_of_tail (((put_of_ne ne).trans (put_of_ne ne)).trans still)]
    exact iff_of_true rfl (rep.empty_iff.mp empty)
  · have enqueued := queueEnqueueLocked_nonempty live (put_self ..) ne empty room
    rw [queueEnqueue, enqueued, Except.ok.injEq] at ran
    subst ran
    rw [endsNull_of_tail (put_self ..)]
    exact iff_of_false (Option.some_ne_none _) fun none => empty (rep.empty_iff.mpr none)

/-- A dequeue carries the last link over, into the sentinel if need be. -/
theorem queueDequeue_endsNull {m m' : Mem α} {addrs : List Addr} {items : List (Option α)}
    {answer} (rep : Represents m addrs items) (ran : QueueOp.run m .dequeue = .ok (m', answer)) :
    EndsNull m' ↔ EndsNull m := by
  cases rep.stored with
  | nil =>
      have empty : m.que.size = 0 := rep.size
      have same : m' = m := by
        cases shut : m.que.isclosed <;>
          simp [QueueOp.run, queueDequeueLocked_empty empty, shut] at ran <;> exact ran.1.symm
      rw [same]
  | @cons a _ bs _ first rest =>
      have size : m.que.size = bs.length + 1 := by simpa using rep.size
      obtain ⟨sentinel, front, frontLive, dequeued, newLive, other⟩ :=
        queueDequeueLocked_removed rep
      obtain ⟨headerOff, distinct⟩ := List.nodup_cons.mp rep.distinct
      obtain ⟨frontOff, _⟩ := List.nodup_cons.mp distinct
      simp only [QueueOp.run, dequeued, ok_bind, pure_eq_ok, Except.ok.injEq, Prod.mk.injEq] at ran
      obtain ⟨rfl, _⟩ := ran
      cases bs with
      | nil =>
          have tail : m.que.tail = a := rep.tail
          have newTail : (removed m a sentinel front).que.tail = m.que.header := by
            simp [removed, size]
          rw [endsNull_of_tail (newTail ▸ newLive), endsNull_of_tail (tail ▸ frontLive)]
      | cons b bs =>
          have more : m.que.size - 1 ≠ 0 := by
            simp only [List.length_cons] at size
            omega
          have newTail : (removed m a sentinel front).que.tail = m.que.tail := by
            simp [removed, more]
          have tailIn : m.que.tail ∈ b :: bs := by
            rw [rep.tail, List.getLastD_cons, List.getLastD_cons]
            exact last_mem b bs
          have offHeader : m.que.tail ≠ m.que.header :=
            fun same => headerOff (List.mem_cons_of_mem a (same ▸ tailIn))
          have offFront : m.que.tail ≠ a := fun same => frontOff (same ▸ tailIn)
          have kept := other m.que.tail offHeader offFront
          rw [EndsNull, newTail, kept]
          rfl

/-! ## Sequences of calls -/

/-- `size` can count one more element each time an enqueue is called. -/
def Countable (found : List (List (Option α))) : Prop :=
  ∀ items ∈ found, items.length + 1 < 2 ^ 31

theorem getLastD_append {β : Type} (xs ys : List β) (d : β) :
    (xs ++ ys).getLastD d = ys.getLastD (xs.getLastD d) := by
  induction xs generalizing d with
  | nil => rfl
  | cons x xs ih => rw [List.cons_append, List.getLastD_cons, List.getLastD_cons, ih]

theorem countable_append (found found' : List (List (Option α))) :
    Countable (found ++ found') ↔ Countable found ∧ Countable found' :=
  List.forall_mem_append

namespace QueueOp

/-- The last link after one call, where `d` stands for what the last enqueue
    before it found. -/
theorem run_links {m : Mem α} {q : Contents (Option α)} {d : List (Option α)} {op : QueueOp α}
    (refines : Refines m q) (ends : EndsNull m ↔ d = []) (allowed : op.Allowed m) :
    (op.run m = .error .overflow ∧ ¬ Countable (op.abstract.finds q).toList) ∨
    ∃ m' answer, op.run m = .ok (m', answer) ∧ Refines m' (step q op.abstract).1 ∧
      Countable (op.abstract.finds q).toList ∧
      (EndsNull m' ↔ (op.abstract.finds q).toList.getLastD d = []) := by
  obtain ⟨addrs, rep⟩ := refines.represents
  cases op with
  | enqueue node data =>
      have count := rep.count
      by_cases room : q.items.length + 1 < 2 ^ 31
      · right
        obtain ⟨m', ran, refines'⟩ := queueEnqueue_refines data refines allowed (by omega)
        have last := queueEnqueue_endsNull rep allowed (by simp only [intMax]; omega) ran
        refine ⟨m', none, by simp [run, ran], refines', ?_, last⟩
        simpa [abstract, Op.finds, Countable] using room
      · left
        have full := queueEnqueue_full rep data allowed (by simp only [intMax]; omega)
        refine ⟨by simp [run, full], ?_⟩
        simpa [abstract, Op.finds, Countable] using room
  | close =>
      right
      exact ⟨queueClose m, none, rfl, ⟨⟨addrs, queueClose_represents rep⟩, rfl⟩,
        by simp [abstract, Op.finds, Countable], ends⟩
  | dequeue =>
      right
      obtain ⟨m', answer, ran, _, refines'⟩ := queueDequeue_refines refines allowed
      have kept := queueDequeue_endsNull rep ran
      exact ⟨m', _, ran, refines', by simp [abstract, Op.finds, Countable], kept.trans ends⟩

/-- Over a sequence of calls the last link says what the last enqueue found. -/
theorem runAll_links {m : Mem α} {q : Contents (Option α)} {d : List (Option α)}
    {ops : List (QueueOp α)} (refines : Refines m q) (ends : EndsNull m ↔ d = [])
    (allowed : AllowedRun m ops) :
    (runAll m ops = .error .overflow ∧ ¬ Countable (found q (ops.map abstract))) ∨
    ∃ m' answers addrs items, runAll m ops = .ok (m', answers) ∧ Represents m' addrs items ∧
      Countable (found q (ops.map abstract)) ∧
      (EndsNull m' ↔ (found q (ops.map abstract)).getLastD d = []) := by
  induction ops generalizing m q d with
  | nil =>
      right
      obtain ⟨addrs, rep⟩ := refines.represents
      exact ⟨m, [], addrs, q.items, rfl, rep, by simp [found, Countable], ends⟩
  | cons op ops ih =>
      simp only [List.map_cons, found, countable_append, getLastD_append]
      rcases run_links refines ends allowed.1 with
        ⟨fails, full⟩ | ⟨m₁, answer, ran, refines₁, room, last⟩
      · left
        exact ⟨by simp [runAll, fails], fun all => full all.1⟩
      · rcases ih refines₁ last (allowed.2 m₁ answer ran) with
          ⟨fails, full⟩ | ⟨m₂, answers, addrs, items, ran₂, rep, room₂, last₂⟩
        · left
          exact ⟨by simp [runAll, ran, fails], fun all => full all.2⟩
        · right
          exact ⟨m₂, answer.toList ++ answers, addrs, items, by simp [runAll, ran, ran₂], rep,
            ⟨room, room₂⟩, last₂⟩

end QueueOp

/-- The links are well formed after a sequence of calls exactly when no enqueue of
    it found 2^31 - 1 elements and the last one found none. -/
theorem links_wellFormed_iff (heap : Store (QueueNode α)) (header : Addr)
    (ops : List (QueueOp α)) (allowed : QueueOp.AllowedRun (queueInit heap header) ops) :
    (∃ m answers addrs, QueueOp.runAll (queueInit heap header) ops = .ok (m, answers) ∧
      WellLinked m addrs) ↔
    (∀ items ∈ Fifo.found Fifo.empty (ops.map QueueOp.abstract), items.length + 1 < 2 ^ 31) ∧
      (Fifo.found Fifo.empty (ops.map QueueOp.abstract)).getLastD [] = [] := by
  have init : EndsNull (queueInit heap header) ↔ ([] : List (Option α)) = [] :=
    iff_of_true (queueInit_endsNull heap header) rfl
  rcases QueueOp.runAll_links (queueInit_refines heap header) init allowed with
    ⟨fails, full⟩ | ⟨m, answers, addrs, items, ran, rep, room, last⟩
  · constructor
    · intro ⟨m, answers, addrs, ran, _⟩
      rw [fails] at ran
      cases ran
    · intro ⟨room, _⟩
      exact absurd room full
  · constructor
    · intro ⟨m', answers', addrs', ran', linked⟩
      rw [ran] at ran'
      cases ran'
      exact ⟨room, last.mp (rep.wellLinked_iff.mp ⟨addrs', linked⟩)⟩
    · intro ⟨_, foundNone⟩
      obtain ⟨addrs', linked⟩ := rep.wellLinked_iff.mpr (last.mpr foundNone)
      exact ⟨m, answers, addrs', ran, linked⟩

/-- A queue that is emptied before each enqueue stays well linked. -/
theorem links_wellFormed_refilled :
    ∃ (m : Mem Nat) (answers : _) (addrs : _),
      QueueOp.runAll (queueInit (fun _ => none) 1)
        [.enqueue 2 (some 7), .dequeue, .enqueue 3 (some 8)] = .ok (m, answers) ∧
      WellLinked m addrs := by
  have allowed : QueueOp.AllowedRun (queueInit (fun _ => none) 1 : Mem Nat)
      [.enqueue 2 (some 7), .dequeue, .enqueue 3 (some 8)] :=
    .cons rfl rfl <| .cons (.inl (by decide)) rfl <| .cons rfl rfl trivial
  exact (links_wellFormed_iff _ _ _ allowed).mpr ⟨by decide, rfl⟩

/-- Two enqueues in a row: the tail links to itself, so `next` never reaches NULL. -/
theorem second_enqueue_links_to_itself :
    QueueOp.AllowedRun (queueInit (fun _ => none) 1 : Mem Nat)
      [.enqueue 2 (some 7), .enqueue 3 (some 8)] ∧
    ∃ m : Mem Nat, QueueOp.runAll (queueInit (fun _ => none) 1)
        [.enqueue 2 (some 7), .enqueue 3 (some 8)] = .ok (m, []) ∧
      m.que.size = 2 ∧ m.que.tail = 3 ∧ m.heap 3 = some ⟨some 8, some 3⟩ ∧
      ¬ ∃ addrs, WellLinked m addrs := by
  refine ⟨.cons rfl rfl (.cons rfl rfl trivial), _, rfl, rfl, rfl, rfl, ?_⟩
  intro ⟨addrs, linked⟩
  obtain ⟨n, live, null⟩ := linked.ends
  rw [← linked.tail] at live
  cases live
  cases null

end SysProg.M9
