import SysProg.M9.QueueFifo
import SysProg.M9.ServerRuns

/-! # The nodes of the request queue

From an empty heap on, the live nodes are the sentinel and one node for each
element, whatever the order of the calls.  Links that point elsewhere exist, the
sentinel's after the last dequeue and the tail's to itself, but none is followed.
-/

namespace SysProg.M9

open Fallible Heap Monitor Fifo Transition

variable {α : Type}

/-- The queue holds `items` in nodes at `addrs`, and no other node is live. -/
structure Nodes (m : Mem α) (addrs : List Addr) (items : List (Option α)) : Prop
    extends Represents m addrs items where
  only : ∀ a, m.heap a ≠ none → a ∈ m.que.header :: addrs

namespace Nodes

variable {m : Mem α} {addrs : List Addr} {items : List (Option α)}

theorem live_iff (nodes : Nodes m addrs items) (a : Addr) :
    m.heap a ≠ none ↔ a ∈ m.que.header :: addrs := by
  constructor
  · exact nodes.only a
  · intro inside
    obtain ⟨n, live⟩ := nodes.live inside
    rw [live]
    exact Option.some_ne_none n

theorem init (header : Addr) :
    Nodes (queueInit (fun _ => none) header : Mem α) [] [] where
  toRepresents := queueInit_represents _ _
  only a live := by
    by_cases sentinel : a = header
    · simp [queueInit, sentinel]
    · exact absurd (by simp [queueInit, put_of_ne sentinel]) live

theorem close (nodes : Nodes m addrs items) : Nodes (queueClose m) addrs items :=
  ⟨queueClose_represents nodes.toRepresents, nodes.only⟩

/-- An enqueue makes one node, as long as `size` can count it. -/
theorem enqueue (nodes : Nodes m addrs items) {node : Addr} (data : Option α)
    (fresh : m.heap node = none) (room : m.que.size + 1 ≤ intMax) :
    ∃ m', queueEnqueue m node data = .ok m' ∧ Nodes m' (addrs ++ [node]) (items ++ [data]) ∧
      m'.que.header = m.que.header ∧ m'.que.size = m.que.size + 1 := by
  obtain ⟨off, made⟩ := nodes.toRepresents.newNode data fresh
  obtain ⟨m', ran, rep, _, header, others⟩ :=
    queueEnqueueLocked_spec made off (put_self ..) room
  refine ⟨m', ran, ⟨rep, fun a live => ?_⟩, header, ?_⟩
  · rw [header]
    by_contra outside
    simp only [M9.newNode, List.mem_cons, List.mem_append, List.not_mem_nil, or_false,
      not_or] at outside
    obtain ⟨offHeader, offAddrs, offNode⟩ := outside
    apply live
    rw [others a (by simp [M9.newNode, offHeader, offAddrs]) offNode]
    refine (put_of_ne offNode).trans (by_contra fun before => ?_)
    have inside := nodes.only a before
    simp [offHeader, offAddrs] at inside
  · rw [rep.size, nodes.size, List.length_append]
    rfl

/-- A dequeue frees the node of the element it takes. -/
theorem dequeue {a : Addr} {x : Option α} (nodes : Nodes m (a :: addrs) (x :: items)) :
    ∃ m', queueDequeueLocked m = .ok (.leave m' x) ∧ Nodes m' addrs items := by
  obtain ⟨m', ran, rep, _, header, freed, others⟩ := queueDequeueLocked_spec nodes.toRepresents
  refine ⟨m', ran, rep, fun b live => ?_⟩
  have ne : b ≠ a := by
    rintro rfl
    exact live freed
  rw [header]
  by_contra outside
  have off : b ∉ m.que.header :: a :: addrs := by
    simp only [List.mem_cons, not_or] at outside ⊢
    exact ⟨outside.1, ne, outside.2⟩
  apply live
  rw [others b off]
  exact by_contra fun before => off (nodes.only b before)

/-- Destroying an empty queue frees the last node. -/
theorem destroy (nodes : Nodes m addrs items) (empty : m.que.size = 0) :
    queueDestroy m = .ok fun _ => none := by
  obtain ⟨n, live⟩ := nodes.sentinel
  have noNodes : addrs = [] := by
    have size := nodes.size
    exact List.eq_nil_of_length_eq_zero (by omega)
  rw [queueDestroy, release_of_live live]
  congr 1
  funext a
  by_cases sentinel : a = m.que.header
  · rw [sentinel]
    exact Function.update_self ..
  · rw [Function.update_of_ne sentinel]
    by_contra other
    have inside := nodes.only a other
    rw [noNodes] at inside
    exact sentinel (List.mem_singleton.mp inside)

end Nodes

/-! ## Sequences of calls -/

namespace QueueOp

/-- `malloc` returns memory that is not in use, and a dequeue does not block. -/
def Allowed (m : Mem α) : QueueOp α → Prop
  | .enqueue node _ => m.heap node = none
  | .close => True
  | .dequeue => 0 < m.que.size ∨ m.que.isclosed = true

def AllowedRun (m : Mem α) : List (QueueOp α) → Prop
  | [] => True
  | op :: ops => op.Allowed m ∧ ∀ m' answer, op.run m = .ok (m', answer) → AllowedRun m' ops

theorem AllowedRun.cons {m m' : Mem α} {op : QueueOp α} {answer} {ops : List (QueueOp α)}
    (allowed : op.Allowed m) (ran : op.run m = .ok (m', answer)) (rest : AllowedRun m' ops) :
    AllowedRun m (op :: ops) := by
  refine ⟨allowed, fun m'' answer' ran' => ?_⟩
  rw [ran] at ran'
  cases ran'
  exact rest

/-- Legal sequences are those that also stay within what `size` can count. -/
theorem LegalRun.allowed {m : Mem α} {ops : List (QueueOp α)} (legal : LegalRun m ops) :
    AllowedRun m ops := by
  induction ops generalizing m with
  | nil => trivial
  | cons op ops ih =>
      refine ⟨?_, fun m' answer ran => ih (legal.2 m' answer ran)⟩
      cases op with
      | enqueue node data => exact legal.1.1
      | close => trivial
      | dequeue => exact legal.1

/-- One call keeps the nodes, or there are too many elements to count. -/
theorem run_nodes {m : Mem α} {addrs : List Addr} {items : List (Option α)} {op : QueueOp α}
    (nodes : Nodes m addrs items) (allowed : op.Allowed m) :
    (op.run m = .error .overflow ∧ ¬ op.Legal m) ∨
    ∃ m' answer addrs' items', op.run m = .ok (m', answer) ∧ Nodes m' addrs' items' := by
  cases op with
  | enqueue node data =>
      rcases Int.lt_or_le intMax (m.que.size + 1) with full | room
      · left
        refine ⟨by simp [run, queueEnqueue_full nodes.toRepresents data allowed full],
          fun legal => ?_⟩
        have small := legal.2
        simp only [intMax] at full
        omega
      · right
        obtain ⟨m', ran, nodes', _⟩ := nodes.enqueue data allowed room
        exact ⟨m', none, _, _, by simp [run, ran], nodes'⟩
  | close =>
      right
      exact ⟨_, none, _, _, rfl, nodes.close⟩
  | dequeue =>
      right
      cases nodes.stored with
      | nil =>
          have empty : m.que.size = 0 := nodes.size
          have shut : m.que.isclosed = true := by
            rcases allowed with full | shut
            · omega
            · exact shut
          exact ⟨m, some none, _, _, by simp [run, queueDequeueLocked_empty empty, shut], nodes⟩
      | @cons _ x _ _ first rest =>
          obtain ⟨m', ran, nodes'⟩ := nodes.dequeue
          exact ⟨m', some x, _, _, by simp [run, ran], nodes'⟩

/-- A sequence of calls keeps the nodes.  It can fail only by holding more
    elements than an `int` counts. -/
theorem runAll_nodes {m : Mem α} {addrs : List Addr} {items : List (Option α)}
    {ops : List (QueueOp α)} (nodes : Nodes m addrs items) (allowed : AllowedRun m ops) :
    (runAll m ops = .error .overflow ∧ ¬ LegalRun m ops) ∨
    ∃ m' answers addrs' items', runAll m ops = .ok (m', answers) ∧ Nodes m' addrs' items' := by
  induction ops generalizing m addrs items with
  | nil => exact .inr ⟨m, [], addrs, items, rfl, nodes⟩
  | cons op ops ih =>
      rcases run_nodes nodes allowed.1 with ⟨fails, full⟩ | ⟨m₁, answer, _, _, ran, nodes₁⟩
      · exact .inl ⟨by simp [runAll, fails], fun legal => full legal.1⟩
      · rcases ih nodes₁ (allowed.2 m₁ answer ran) with
          ⟨fails, full⟩ | ⟨m₂, answers, _, _, ran₂, nodes₂⟩
        · exact .inl ⟨by simp [runAll, ran, fails], fun legal => full (legal.2 m₁ answer ran)⟩
        · exact .inr ⟨m₂, answer.toList ++ answers, _, _, by simp [runAll, ran, ran₂], nodes₂⟩

/-- `n` enqueues whose nodes lie side by side from `a` on. -/
def fill : Nat → Addr → List (QueueOp Nat)
  | 0, _ => []
  | n + 1, a => .enqueue a (some 0) :: fill n (a + 1)

/-- Above all nodes they can be made, and the last that `size` cannot count overflows. -/
theorem fill_overflows {m : Mem Nat} {addrs : List Addr} {items : List (Option Nat)} {a : Addr}
    (nodes : Nodes m addrs items) (above : ∀ b ∈ m.que.header :: addrs, b < a)
    (counted : m.que.size ≤ intMax) (n : Nat) :
    AllowedRun m (fill n a) ∧
      (intMax < m.que.size + n → runAll m (fill n a) = .error .overflow) := by
  induction n generalizing m addrs items a with
  | zero =>
      refine ⟨trivial, fun full => ?_⟩
      omega
  | succ n ih =>
      have fresh : m.heap a = none := by
        by_contra live
        exact Nat.lt_irrefl a (above a (nodes.only a live))
      rcases Int.lt_or_le intMax (m.que.size + 1) with full | room
      · have fails := queueEnqueue_full nodes.toRepresents (some 0) fresh full
        refine ⟨⟨fresh, fun m' answer ran => ?_⟩, fun _ => by simp [fill, runAll, run, fails]⟩
        simp [run, fails] at ran
      · obtain ⟨m', ran, nodes', header, size⟩ := nodes.enqueue (some 0) fresh room
        have above' : ∀ b ∈ m'.que.header :: (addrs ++ [a]), b < a + 1 := by
          intro b inside
          rw [header, ← List.cons_append] at inside
          rcases List.mem_append.mp inside with before | new
          · exact Nat.lt_succ_of_lt (above b before)
          · rw [List.mem_singleton.mp new]
            exact Nat.lt_succ_self a
        obtain ⟨allowed, overflows⟩ := ih nodes' above' (by omega)
        have called : run m (.enqueue a (some 0)) = .ok (m', none) := by simp [run, ran]
        refine ⟨AllowedRun.cons fresh called allowed, fun full => ?_⟩
        have later := overflows (by rw [size]; omega)
        simp [fill, runAll, called, later]

end QueueOp

/-! ## The server's queue -/

/-- When `thread_pool_destroy` has returned to `main` of a server with workers, the
    queue is empty. -/
theorem drained_before_destroy {N : Nat} {plan : List α} {s : Server N α} (workers : 1 ≤ N)
    (reach : (requestServer N (plan.map some)).Reachable s) (destroyed : s.main = .destroyed) :
    s.mon.shared.que.size = 0 := by
  obtain ⟨a, sim, inv⟩ := ServerInv.reachable (by simp) reach
  obtain ⟨addrs, rep, _⟩ := sim.holds.nodes
  exact rep.empty_iff.mpr (inv.drained workers destroyed).1

end SysProg.M9
