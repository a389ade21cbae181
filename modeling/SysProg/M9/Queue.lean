import Mathlib.Algebra.Group.Int.Defs
import Mathlib.Algebra.Group.Nat.Defs
import Mathlib.Data.List.Forall2
import SysProg.Lib.Heap
import SysProg.Lib.Monitor

/-! # The request queue

The linked queue of `queue.c` over an explicit heap.  The sentinel `header`
never carries data; its `next` is the front of the queue.  Each operation is
split at the mutex: `newNode` is what `queue_enqueue` does before taking it,
and the `...Locked` definitions are the sections between lock and unlock.

`Represents` is the invariant that survives the queue's two loose links: the
second link of an enqueue on a non-empty queue makes the new tail point to
itself, and dequeueing the last node leaves the sentinel's `next` at a freed
node.  It therefore constrains only the first `size` links.
-/

namespace SysProg.M9

open Fallible Heap Monitor

/-- `queue_node_t`; a `void *` is `none` when it is NULL. -/
structure QueueNode (α : Type) where
  data : Option α
  next : Option Addr
  deriving DecidableEq, Repr

/-- `struct queue`, without the mutex and the condition variable it points to. -/
structure Queue where
  header : Addr
  tail : Addr
  size : Int
  isclosed : Bool
  deriving DecidableEq, Repr

/-- The queue and the nodes on the heap. -/
structure Mem (α : Type) where
  heap : Store (QueueNode α)
  que : Queue

def intMax : Int := 2 ^ 31 - 1

variable {α : Type}

/-- `p->next = next` -/
def Mem.setNext (m : Mem α) (p : Addr) (next : Option Addr) : Except Undefined (Mem α) := do
  let n ← load m.heap (some p)
  return { m with heap := put m.heap p { n with next := next } }

/-- `queue_init`, with the address that `calloc` returned for the sentinel. -/
def queueInit (heap : Store (QueueNode α)) (header : Addr) : Mem α where
  heap := put heap header { data := none, next := none }
  que := { header := header, tail := header, size := 0, isclosed := false }

/-- What `queue_enqueue` does before the lock, with the address `malloc` returned. -/
def newNode (m : Mem α) (node : Addr) (data : Option α) : Mem α :=
  { m with heap := put m.heap node { data := data, next := none } }

/-- `queue_enqueue` from lock to unlock; the broadcast comes after it. -/
def queueEnqueueLocked (m : Mem α) (node : Addr) : Except Undefined (Mem α) := do
  let m ← m.setNext m.que.tail (some node)
  let m := { m with que.tail := node }
  let m ← if m.que.size = 0 then
      m.setNext m.que.header (some node)
    else
      -- tail is already the new node, so this links the node to itself
      m.setNext m.que.tail (some node)
  let m := { m with que.tail := node }
  if m.que.size + 1 ≤ intMax then
    return { m with que.size := m.que.size + 1 }
  else
    throw .overflow

def queueEnqueue (m : Mem α) (node : Addr) (data : Option α) : Except Undefined (Mem α) :=
  queueEnqueueLocked (newNode m node data) node

/-- `queue_close` from lock to unlock; the broadcast comes after it. -/
def queueClose (m : Mem α) : Mem α := { m with que.isclosed := true }

def queueIsclose (m : Mem α) : Bool := if m.que.isclosed = true then true else false

/-- `queue_dequeue` from a successful lock to the unlock or to the wait.  A
    woken waiter tests the loop condition again, which is this section anew. -/
def queueDequeueLocked (m : Mem α) : Except Undefined (Exit (Mem α) (Option α)) :=
  if m.que.size = 0 then
    if queueIsclose m = true then .ok (.leaveWaking m none) else .ok .wait
  else do
    let header ← load m.heap (some m.que.header)
    let node := header.next
    let n ← load m.heap node
    let m ← m.setNext m.que.header n.next
    let m := { m with que.size := m.que.size - 1 }
    let m := if m.que.size = 0 then { m with que.tail := m.que.header } else m
    let n ← load m.heap node
    let heap ← release m.heap node
    return .leave { m with heap := heap } n.data

/-- `queue_destroy` frees the sentinel (and the queue itself). -/
def queueDestroy (m : Mem α) : Except Undefined (Store (QueueNode α)) :=
  release m.heap (some m.que.header)

/-- The queue holds `items`, in nodes at `addrs`. -/
structure Represents (m : Mem α) (addrs : List Addr) (items : List (Option α)) : Prop where
  distinct : (m.que.header :: addrs).Nodup
  links : Chain QueueNode.next m.heap m.que.header addrs
  sentinel : ∃ n, m.heap m.que.header = some n
  stored : List.Forall₂ (fun a x => ∃ n, m.heap a = some n ∧ n.data = x) addrs items
  tail : m.que.tail = addrs.getLastD m.que.header
  size : m.que.size = addrs.length

namespace Represents

variable {m : Mem α} {addrs : List Addr} {items : List (Option α)}

theorem count (rep : Represents m addrs items) : m.que.size = items.length := by
  rw [rep.size, rep.stored.length_eq]

theorem empty_iff (rep : Represents m addrs items) : m.que.size = 0 ↔ items = [] := by
  rw [rep.count]
  simp

/-- The tail of an empty queue is the sentinel. -/
theorem atHeader (rep : Represents m addrs items) (empty : m.que.size = 0) :
    m.que.tail = m.que.header := by
  have size := rep.size
  have noNodes : addrs = [] := List.eq_nil_of_length_eq_zero (by omega)
  rw [rep.tail, noNodes, List.getLastD_nil]

theorem live (rep : Represents m addrs items) {a : Addr} (member : a ∈ m.que.header :: addrs) :
    ∃ n, m.heap a = some n := by
  rcases List.mem_cons.mp member with rfl | inside
  · exact rep.sentinel
  · obtain ⟨i, bound, rfl⟩ := List.getElem_of_mem inside
    obtain ⟨n, at_, _⟩ := rep.stored.get bound (rep.stored.length_eq ▸ bound)
    exact ⟨n, at_⟩

/-- Memory outside the queue's own nodes does not matter. -/
theorem frame {m' : Mem α} (rep : Represents m addrs items) (que : m'.que = m.que)
    (same : ∀ a ∈ m.que.header :: addrs, m'.heap a = m.heap a) : Represents m' addrs items where
  distinct := by simpa only [que] using rep.distinct
  links := by
    rw [que]
    exact rep.links.congr fun x member => same x (List.dropLast_subset _ member)
  sentinel := by
    obtain ⟨n, live⟩ := rep.sentinel
    exact ⟨n, by rw [que, same _ (by simp), live]⟩
  stored := by
    refine List.forall₂_iff_zip.mpr ⟨rep.stored.length_eq, fun {a x} pair => ?_⟩
    obtain ⟨n, live, data⟩ := (List.forall₂_iff_zip.mp rep.stored).2 pair
    have inside : a ∈ addrs := (List.of_mem_zip pair).1
    exact ⟨n, by rw [same a (List.mem_cons_of_mem _ inside), live], data⟩
  tail := by rw [que, rep.tail]
  size := by rw [que, rep.size]

/-- A fresh node leaves the queue as it is. -/
theorem newNode (rep : Represents m addrs items) {node : Addr} (data : Option α)
    (fresh : m.heap node = none) :
    node ∉ m.que.header :: addrs ∧ Represents (M9.newNode m node data) addrs items := by
  have off : node ∉ m.que.header :: addrs := fun inside => by
    obtain ⟨n, live⟩ := rep.live inside
    rw [fresh] at live
    cases live
  exact ⟨off, rep.frame rfl fun a inside => put_of_ne fun same => off (same ▸ inside)⟩

end Represents

/-- A fresh queue is empty. -/
theorem queueInit_represents (heap : Store (QueueNode α)) (header : Addr) :
    Represents (queueInit heap header) [] [] where
  distinct := by simp
  links := trivial
  sentinel := ⟨_, put_self ..⟩
  stored := .nil
  tail := rfl
  size := rfl

theorem queueClose_represents {m : Mem α} {addrs items} (rep : Represents m addrs items) :
    Represents (queueClose m) addrs items :=
  ⟨rep.distinct, rep.links, rep.sentinel, rep.stored, rep.tail, rep.size⟩

@[simp] theorem queueIsclose_eq (m : Mem α) : queueIsclose m = m.que.isclosed := by
  cases closed : m.que.isclosed <;> simp [queueIsclose, closed]

/-- What the links of an enqueue amount to: the old last node points to the new
    one, which may or may not point to itself. -/
structure Appended (m m' : Mem α) (node : Addr) (data : Option α) : Prop where
  que : m'.que = { m.que with tail := node, size := m.que.size + 1 }
  linked : ∃ n n', m.heap m.que.tail = some n ∧ m'.heap m.que.tail = some n' ∧
    n'.data = n.data ∧ n'.next = some node
  made : ∃ n, m'.heap node = some n ∧ n.data = data
  others : ∀ a, a ≠ m.que.tail → a ≠ node → m'.heap a = m.heap a

/-- On an empty queue both links go from the sentinel. -/
theorem queueEnqueueLocked_empty {m : Mem α} {node : Addr} {n : QueueNode α}
    (live : m.heap m.que.header = some n) (atHeader : m.que.tail = m.que.header)
    (empty : m.que.size = 0) :
    queueEnqueueLocked m node = .ok
      { heap := put (put m.heap m.que.header { n with next := some node })
          m.que.header { n with next := some node }
        que := { m.que with tail := node, size := m.que.size + 1 } } := by
  simp [queueEnqueueLocked, Mem.setNext, load_of_live live, empty, atHeader,
    load_of_live (put_self ..), intMax]

/-- On a non-empty queue the second link goes from the new node to itself. -/
theorem queueEnqueueLocked_nonempty {m : Mem α} {node : Addr} {n n' : QueueNode α}
    (live : m.heap m.que.tail = some n) (made : m.heap node = some n') (ne : node ≠ m.que.tail)
    (full : m.que.size ≠ 0) (room : m.que.size + 1 ≤ intMax) :
    queueEnqueueLocked m node = .ok
      { heap := put (put m.heap m.que.tail { n with next := some node })
          node { n' with next := some node }
        que := { m.que with tail := node, size := m.que.size + 1 } } := by
  have live' : put m.heap m.que.tail { n with next := some node } node = some n' := by
    rw [put_of_ne ne, made]
  simp only [queueEnqueueLocked, Mem.setNext, load_of_live live, load_of_live live', ok_bind,
    pure_eq_ok, if_neg full, if_pos room]

/-- A count that is at its limit overflows, after both links are made. -/
theorem queueEnqueueLocked_full {m : Mem α} {node : Addr} {n n' : QueueNode α}
    (live : m.heap m.que.tail = some n) (made : m.heap node = some n') (ne : node ≠ m.que.tail)
    (full : intMax < m.que.size + 1) : queueEnqueueLocked m node = .error .overflow := by
  have nonempty : m.que.size ≠ 0 := by
    intro empty
    rw [empty] at full
    exact absurd full (by decide)
  have live' : put m.heap m.que.tail { n with next := some node } node = some n' := by
    rw [put_of_ne ne, made]
  have noRoom : ¬ m.que.size + 1 ≤ intMax := Int.not_le.mpr full
  simp only [queueEnqueueLocked, Mem.setNext, load_of_live live, load_of_live live', ok_bind,
    pure_eq_ok, if_neg nonempty, if_neg noRoom]
  rfl

theorem queueEnqueue_full {m : Mem α} {addrs items} (rep : Represents m addrs items)
    {node : Addr} (data : Option α) (fresh : m.heap node = none)
    (full : intMax < m.que.size + 1) : queueEnqueue m node data = .error .overflow := by
  obtain ⟨off, made⟩ := rep.newNode data fresh
  have tailIn : m.que.tail ∈ m.que.header :: addrs := rep.tail ▸ last_mem _ _
  obtain ⟨n, live⟩ := made.live tailIn
  exact queueEnqueueLocked_full live (put_self ..) (fun same => off (same ▸ tailIn)) full

theorem queueEnqueueLocked_appended {m : Mem α} {addrs items node data}
    (rep : Represents m addrs items) (fresh : node ∉ m.que.header :: addrs)
    (made : m.heap node = some ⟨data, none⟩) (room : m.que.size + 1 ≤ intMax) :
    ∃ m', queueEnqueueLocked m node = .ok m' ∧ Appended m m' node data := by
  have tailIn : m.que.tail ∈ m.que.header :: addrs := rep.tail ▸ last_mem _ _
  obtain ⟨n, live⟩ := rep.live tailIn
  have ne : m.que.tail ≠ node := fun same => fresh (same ▸ tailIn)
  by_cases empty : m.que.size = 0
  · have atHeader := rep.atHeader empty
    rw [atHeader] at live ne
    refine ⟨_, queueEnqueueLocked_empty live atHeader empty, ?_⟩
    exact
      { que := rfl
        linked := ⟨n, { n with next := some node }, by simp [atHeader, live]⟩
        made := ⟨⟨data, none⟩, by simp [put_of_ne ne.symm, made]⟩
        others := fun a off _ => by
          rw [atHeader] at off
          simp [put_of_ne off] }
  · refine ⟨_, queueEnqueueLocked_nonempty live made ne.symm empty room, ?_⟩
    exact
      { que := rfl
        linked := ⟨n, { n with next := some node }, by simp [put_of_ne ne, live]⟩
        made := ⟨⟨data, some node⟩, by simp⟩
        others := fun a off offNode => by simp [put_of_ne off, put_of_ne offNode] }

theorem Appended.represents {m m' : Mem α} {addrs items node data}
    (rep : Represents m addrs items) (fresh : node ∉ m.que.header :: addrs)
    (appended : Appended m m' node data) :
    Represents m' (addrs ++ [node]) (items ++ [data]) := by
  obtain ⟨n, n', live, live', data', link⟩ := appended.linked
  obtain ⟨made, madeLive, madeData⟩ := appended.made
  have header : m'.que.header = m.que.header := by rw [appended.que]
  have offNode : ∀ a ∈ m.que.header :: addrs, a ≠ node := fun a member same => fresh (same ▸ member)
  -- a node of the queue keeps its data; only the last one gets a new link
  have keeps : ∀ a ∈ m.que.header :: addrs, ∀ k, m.heap a = some k →
      ∃ k', m'.heap a = some k' ∧ k'.data = k.data := by
    intro a member k at_
    by_cases last : a = m.que.tail
    · subst last
      exact ⟨n', live', by rw [data', Option.some.inj (live.symm.trans at_)]⟩
    · exact ⟨k, by rw [appended.others a last (offNode a member), at_], rfl⟩
  refine ⟨?_, ?_, ?_, ?_, ?_, ?_⟩
  · rw [header, ← List.cons_append]
    refine List.nodup_append.mpr ⟨rep.distinct, by simp, ?_⟩
    intro a inside b new
    rw [List.mem_singleton.mp new]
    exact offNode a inside
  · rw [header]
    have before : Chain QueueNode.next m'.heap m.que.header addrs := by
      refine rep.links.congr fun x member =>
        appended.others x ?_ (offNode x (List.dropLast_subset _ member))
      rw [rep.tail]
      exact fun same => last_not_before rep.distinct (same ▸ member)
    exact before.snoc (rep.tail ▸ live') link
  · obtain ⟨k, at_⟩ := rep.sentinel
    obtain ⟨k', at', _⟩ := keeps _ (by simp) k at_
    exact ⟨k', header ▸ at'⟩
  · refine List.rel_append ?_ (.cons ⟨made, madeLive, madeData⟩ .nil)
    refine List.forall₂_iff_zip.mpr ⟨rep.stored.length_eq, fun {a x} pair => ?_⟩
    obtain ⟨k, at_, is⟩ := (List.forall₂_iff_zip.mp rep.stored).2 pair
    obtain ⟨k', at', same⟩ := keeps a (List.mem_cons_of_mem _ (List.of_mem_zip pair).1) k at_
    exact ⟨k', at', same.trans is⟩
  · rw [appended.que]
    simp
  · rw [appended.que, List.length_append]
    simp [rep.size]

/-- An enqueue appends to the queue and touches no other memory. -/
theorem queueEnqueueLocked_spec {m : Mem α} {addrs items node data}
    (rep : Represents m addrs items) (fresh : node ∉ m.que.header :: addrs)
    (made : m.heap node = some ⟨data, none⟩) (room : m.que.size + 1 ≤ intMax) :
    ∃ m', queueEnqueueLocked m node = .ok m' ∧
      Represents m' (addrs ++ [node]) (items ++ [data]) ∧
      m'.que.isclosed = m.que.isclosed ∧ m'.que.header = m.que.header ∧
      ∀ a, a ∉ m.que.header :: addrs → a ≠ node → m'.heap a = m.heap a := by
  obtain ⟨m', ran, appended⟩ := queueEnqueueLocked_appended rep fresh made room
  refine ⟨m', ran, appended.represents rep fresh, by rw [appended.que], by rw [appended.que], ?_⟩
  intro a off offNode
  refine appended.others a (fun same => off ?_) offNode
  rw [same, rep.tail]
  exact last_mem _ _

/-- An empty queue answers NULL when it is closed and makes the caller wait
    when it is open. -/
theorem queueDequeueLocked_empty {m : Mem α} (empty : m.que.size = 0) :
    queueDequeueLocked m = .ok (if m.que.isclosed then .leaveWaking m none else .wait) := by
  cases closed : m.que.isclosed <;> simp [queueDequeueLocked, empty, closed]

/-- The memory a dequeue of the front node `a` leaves behind. -/
def removed (m : Mem α) (a : Addr) (sentinel front : QueueNode α) : Mem α where
  heap := Function.update (put m.heap m.que.header { sentinel with next := front.next }) a none
  que := { m.que with
    tail := if m.que.size - 1 = 0 then m.que.header else m.que.tail
    size := m.que.size - 1 }

theorem queueDequeueLocked_nonempty {m : Mem α} {a : Addr} {sentinel front : QueueNode α}
    (full : m.que.size ≠ 0) (live : m.heap m.que.header = some sentinel)
    (link : sentinel.next = some a) (frontLive : m.heap a = some front) (ne : a ≠ m.que.header) :
    queueDequeueLocked m = .ok (.leave (removed m a sentinel front) front.data) := by
  have frontLive' :
      put m.heap m.que.header { sentinel with next := front.next } a = some front := by
    rw [put_of_ne ne, frontLive]
  by_cases last : m.que.size - 1 = 0 <;>
    simp [queueDequeueLocked, removed, full, load_of_live live, link, load_of_live frontLive,
      Mem.setNext, last, load_of_live frontLive', release_of_live frontLive']

/-- A dequeue from a non-empty queue takes its front and moves the link of the front
    node to the sentinel; the other nodes stay. -/
theorem queueDequeueLocked_removed {m : Mem α} {a : Addr} {addrs x items}
    (rep : Represents m (a :: addrs) (x :: items)) :
    ∃ sentinel front, m.heap a = some front ∧
      queueDequeueLocked m = .ok (.leave (removed m a sentinel front) x) ∧
      (removed m a sentinel front).heap m.que.header = some { sentinel with next := front.next } ∧
      ∀ b, b ≠ m.que.header → b ≠ a → (removed m a sentinel front).heap b = m.heap b := by
  have size : m.que.size = addrs.length + 1 := by simpa using rep.size
  obtain ⟨⟨sentinel, live, link⟩, _⟩ := rep.links
  obtain ⟨⟨front, frontLive, data⟩, _⟩ := List.forall₂_cons.mp rep.stored
  obtain ⟨headerOff, _⟩ := List.nodup_cons.mp rep.distinct
  have ne : a ≠ m.que.header := fun same => headerOff (by simp [same])
  have ran := queueDequeueLocked_nonempty (by omega) live link frontLive ne
  refine ⟨sentinel, front, frontLive, data ▸ ran, ?_, ?_⟩
  · simp [removed, Function.update_of_ne ne.symm]
  · intro b offHeader offFront
    simp [removed, Function.update_of_ne offFront, put_of_ne offHeader]

/-- A dequeue from a non-empty queue takes its front, frees the front node and
    touches no other memory. -/
theorem queueDequeueLocked_spec {m : Mem α} {a : Addr} {addrs x items}
    (rep : Represents m (a :: addrs) (x :: items)) :
    ∃ m', queueDequeueLocked m = .ok (.leave m' x) ∧ Represents m' addrs items ∧
      m'.que.isclosed = m.que.isclosed ∧ m'.que.header = m.que.header ∧ m'.heap a = none ∧
      ∀ b, b ∉ m.que.header :: a :: addrs → m'.heap b = m.heap b := by
  have size : m.que.size = addrs.length + 1 := by simpa using rep.size
  obtain ⟨sentinel, front, frontLive, ran, newSentinel, other⟩ := queueDequeueLocked_removed rep
  obtain ⟨_, chain⟩ := rep.links
  obtain ⟨_, stored⟩ := List.forall₂_cons.mp rep.stored
  obtain ⟨headerOff, distinct⟩ := List.nodup_cons.mp rep.distinct
  obtain ⟨frontOff, _⟩ := List.nodup_cons.mp distinct
  have kept : ∀ b ∈ addrs, (removed m a sentinel front).heap b = m.heap b := by
    intro b member
    exact other b (fun same => headerOff (by simp [← same, member]))
      (fun same => frontOff (same ▸ member))
  refine ⟨_, ran, ⟨?_, ?_, ⟨_, newSentinel⟩, ?_, ?_, ?_⟩, rfl, rfl, ?_, ?_⟩
  · exact List.nodup_cons.mpr ⟨fun member => headerOff (List.mem_cons_of_mem _ member),
      (List.nodup_cons.mp distinct).2⟩
  · cases addrs with
    | nil => trivial
    | cons b bs =>
        obtain ⟨⟨front', frontLive', next⟩, rest⟩ := chain
        obtain rfl : front = front' := Option.some.inj (frontLive.symm.trans frontLive')
        exact ⟨⟨_, newSentinel, next⟩,
          rest.congr fun c member => kept c (List.dropLast_subset _ member)⟩
  · refine List.forall₂_iff_zip.mpr ⟨stored.length_eq, fun {b y} pair => ?_⟩
    obtain ⟨k, at_, is⟩ := (List.forall₂_iff_zip.mp stored).2 pair
    exact ⟨k, by rw [kept b (List.of_mem_zip pair).1, at_], is⟩
  · cases addrs with
    | nil => simp [removed, size]
    | cons b bs =>
        have more : m.que.size - 1 ≠ 0 := by
          simp only [List.length_cons] at size
          omega
        simp [removed, more, rep.tail]
  · simp [removed, size]
  · simp [removed]
  · intro b off
    simp only [List.mem_cons, not_or] at off
    exact other b off.1 off.2.1

end SysProg.M9
