import SysProg.M9.QueueHeap
import SysProg.Proxy.Survival

/-! # What is left of the queue

Both servers destroy their queue after their workers have left.  Workers of the
proxy put nothing into the queue, so what the first of them to leave found empty
stays empty, in every run and however its connections fail.
-/

namespace SysProg.Proxy

open Interaction Transition

variable {A α β : Type} {N : Nat}

/-- Whatever the answers, the program enqueues nothing. -/
structure Quiet (p : ProxyProg A α) : Prop where
  makes : p.Makes fun e => ∀ k, handedOver k e = []

namespace Quiet

theorem ret (a : α) : Quiet (pure a : ProxyProg A α) := ⟨trivial⟩

theorem halt (h : Stop) : Quiet (.halt h : ProxyProg A α) := ⟨trivial⟩

theorem bind {p : ProxyProg A β} {f : β → ProxyProg A α} (first : Quiet p)
    (later : ∀ b, Quiet (f b)) : Quiet (p >>= f) :=
  ⟨Prog.Makes.bind first.makes fun b => (later b).makes⟩

theorem invoke {e : Call A} (quiet : ∀ k, handedOver k e = []) : Quiet (Proxy.invoke e) :=
  ⟨quiet, fun _ => trivial⟩

theorem inBounds (x : Except CString.OutOfBounds α) :
    Quiet (Proxy.inBounds x : ProxyProg A α) :=
  ⟨Prog.Makes.checked x⟩

end Quiet

theorem connectLoop_quiet (sockfd : Int) (result : List A) : Quiet (connectLoop sockfd result) := by
  induction result generalizing sockfd with
  | nil => exact .ret _
  | cons p next ih =>
      refine (Quiet.invoke fun _ => rfl).bind fun fd => ?_
      split
      · exact ih fd
      · refine (Quiet.invoke fun _ => rfl).bind fun ok => ?_
        split
        · exact .ret _
        · exact (Quiet.invoke fun _ => rfl).bind fun _ => ih fd

theorem connectToTargetServer_quiet (sockfd : Int) (hostname : CString.Bytes) (port : Int) :
    Quiet (connectToTargetServer (A := A) sockfd hostname port) := by
  refine (Quiet.invoke fun _ => rfl).bind fun result => ?_
  cases result with
  | none => exact .ret _
  | some result =>
      refine (connectLoop_quiet sockfd result).bind fun fd => ?_
      exact (Quiet.invoke fun _ => rfl).bind fun _ => .ret _

theorem forwardRequest_quiet (arrays : ForwardArrays) (targetSocket : Int)
    (buffer : CString.CArray bufferSize) :
    Quiet (forwardRequest (A := A) arrays targetSocket buffer) := by
  refine (Quiet.inBounds _).bind fun modified => ?_
  cases modified with
  | none => exact .ret _
  | some bytes => exact (Quiet.invoke fun _ => rfl).bind fun _ => .ret _

theorem forwardResponse_quiet (buffer : CString.CArray bufferSize)
    (targetSocket clientSocket : Int) :
    Quiet (forwardResponse (A := A) buffer targetSocket clientSocket) := by
  refine (Quiet.invoke fun _ => rfl).bind fun received => ?_
  cases received with
  | none => exact .halt _
  | some bytes =>
      refine (Quiet.inBounds _).bind fun filled => ?_
      refine (Quiet.invoke fun _ => rfl).bind fun sent => ?_
      cases sent with
      | none => exact .halt _
      | some n => exact .ret _

theorem receiveClientRequest_quiet (clientSocket : Int) (buffer : CString.CArray bufferSize) :
    Quiet (receiveClientRequest (A := A) clientSocket buffer) := by
  refine (Quiet.invoke fun _ => rfl).bind fun received => ?_
  match received with
  | none => exact .ret _
  | some [] => exact .ret _
  | some (b :: rest) => exact (Quiet.inBounds _).bind fun filled => .ret (some filled)

theorem handleClientRequestThread_quiet (frame : Frame) (arg : Cell) :
    Quiet (handleClientRequestThread (A := A) frame arg) := by
  refine (Quiet.invoke fun _ => rfl).bind fun _ => ?_
  refine (receiveClientRequest_quiet _ _).bind fun received => ?_
  cases received with
  | none => exact .ret _
  | some buffer =>
      refine (Quiet.inBounds _).bind fun parsed => ?_
      split
      · exact .ret _
      · refine (connectToTargetServer_quiet _ _ _).bind fun targetSocket => ?_
        split
        · exact .ret _
        · refine (forwardRequest_quiet _ _ _).bind fun _ => ?_
          refine (forwardResponse_quiet _ _ _).bind fun _ => ?_
          exact (Quiet.invoke fun _ => rfl).bind fun _ => .invoke fun _ => rfl

variable {s s' : Server N A}

/-- How a step leaves a worker with a program: it has just begun it, it had it
    before, or it has got an answer. -/
theorem ServerStep.handles_cases {act : Act N A} (taken : ServerStep s act s') {j : Fin N} {k : Nat}
    {c : Int} {p : ProxyProg A Unit} (at_ : s'.worker j = .handling k c p) :
    (∃ frame arg, p = handleClientRequestThread frame arg) ∨ s.worker j = .handling k c p ∨
      ∃ e rest r, s.worker j = .handling k c (.call e rest) ∧ p = rest r := by
  cases taken with
  | dequeue frame _ _ =>
      rcases Server.worker_cases at_ with ⟨_, same⟩ | ⟨_, at_⟩
      · cases same
        exact .inl ⟨frame, _, rfl⟩
      · exact .inr (.inl at_)
  | leave _ _ _ =>
      rcases Server.worker_cases at_ with ⟨_, same⟩ | ⟨_, at_⟩
      · cases same
      · exact .inr (.inl at_)
  | calls here _ =>
      rcases Server.worker_cases at_ with ⟨rfl, same⟩ | ⟨_, at_⟩
      · cases same
        exact .inr (.inr ⟨_, _, _, here, rfl⟩)
      · exact .inr (.inl at_)
  | finish _ =>
      rcases Server.worker_cases at_ with ⟨_, same⟩ | ⟨_, at_⟩
      · cases same
      · exact .inr (.inl at_)
  | _ => exact .inr (.inl at_)

/-- In every reachable state the workers enqueue nothing in what is left of their
    connections. -/
theorem workers_quiet (reach : (proxyServer N A).Reachable s) :
    ∀ i k c p, s.worker i = .handling k c p → Quiet p := by
  refine reach.invariant (I := fun s => ∀ i k c p, s.worker i = .handling k c p → Quiet p)
    (fun s start => ?_) fun s act s' _ quiet taken => ?_
  · obtain ⟨table, sockfd, _, _, rfl⟩ := start
    exact fun _ _ _ _ => nofun
  · intro j k c p at_
    rcases taken.2.handles_cases at_ with ⟨frame, arg, rfl⟩ | stays | ⟨e, rest, r, before, rfl⟩
    · exact handleClientRequestThread_quiet frame arg
    · exact quiet j k c p stays
    · exact ⟨(quiet j k c _ before).makes.2 r⟩

theorem Course.always (reach : (proxyServer N A).Reachable s) : Course s := by
  refine reach.invariant (fun _ start => .init start) fun s act s' before course taken => ?_
  exact course.step taken.2 taken.1 fun i k c e rest at_ =>
    (workers_quiet before i k c _ at_).makes.1 k

/-- When the workers are joined and `main` comes to `queue_destroy`, the queue of a
    proxy with workers is empty. -/
theorem drained_at_shutdown (reach : (proxyServer N A).Reachable s) (workers : 1 ≤ N)
    (ended : s.ended = some .shutdown) : s.queue = [] := by
  have course := Course.always reach
  exact (course.left ⟨0, workers⟩ ((course.shutdown ended).2 _)).2

end SysProg.Proxy

namespace SysProg.M9

open Heap Transition

/-- A sequence of calls on a fresh queue during which fewer than 2^31 elements are
    held touches and frees live nodes only; after it the live nodes are the sentinel
    and one for each element, and an empty queue is destroyed without a rest.  Both
    servers destroy their queue empty when they have workers. -/
theorem queue_heap_discipline {α A : Type} (header : Addr) (ops : List (QueueOp α))
    (legal : QueueOp.LegalRun (queueInit (fun _ => none) header) ops) :
    (∃ m answers, QueueOp.runAll (queueInit (fun _ => none) header) ops = .ok (m, answers) ∧
      (∃ addrs : List Addr, (m.que.header :: addrs).Nodup ∧ m.que.size = addrs.length ∧
        ∀ a, m.heap a ≠ none ↔ a ∈ m.que.header :: addrs) ∧
      (m.que.size = 0 → queueDestroy m = .ok fun _ => none)) ∧
    (∀ (N : Nat) (plan : List α) (s : Server N α), 1 ≤ N →
      (requestServer N (plan.map some)).Reachable s → s.main = .destroyed →
      s.mon.shared.que.size = 0) ∧
    (∀ (N : Nat) (s : Proxy.Server N A), 1 ≤ N → (Proxy.proxyServer N A).Reachable s →
      s.ended = some .shutdown → s.queue = []) := by
  refine ⟨?_, ?_, ?_⟩
  · rcases QueueOp.runAll_nodes (Nodes.init header) legal.allowed with
      ⟨_, full⟩ | ⟨m, answers, addrs, _, ran, nodes⟩
    · exact absurd legal full
    · exact ⟨m, answers, ran, ⟨addrs, nodes.distinct, nodes.size, nodes.live_iff⟩, nodes.destroy⟩
  · exact fun N plan s workers reach destroyed => drained_before_destroy workers reach destroyed
  · exact fun N s workers reach ended => Proxy.drained_at_shutdown reach workers ended

/-- After the last dequeue the sentinel still points to a freed node. -/
theorem queue_heap_discipline_emptied :
    ∃ m answers, QueueOp.runAll (queueInit (fun _ => none) 1 : Mem Nat)
        [.enqueue 2 (some 7), .enqueue 3 (some 8), .dequeue, .dequeue] = .ok (m, answers) ∧
      (∃ n, m.heap 1 = some n ∧ n.next = some 3) ∧ m.heap 3 = none ∧
      queueDestroy m = .ok fun _ => none := by
  have legal : QueueOp.LegalRun (queueInit (fun _ => none) 1 : Mem Nat)
      [.enqueue 2 (some 7), .enqueue 3 (some 8), .dequeue, .dequeue] :=
    .cons ⟨rfl, by decide⟩ rfl <| .cons ⟨rfl, by decide⟩ rfl <| .cons (.inl (by decide)) rfl <|
      .cons (.inl (by decide)) rfl trivial
  obtain ⟨⟨m, answers, ran, _, destroyed⟩, _⟩ := queue_heap_discipline (A := Unit) 1 _ legal
  cases ran
  exact ⟨_, _, rfl, ⟨_, rfl, rfl⟩, rfl, destroyed rfl⟩

/-- 2^31 enqueues, whose nodes are all distinct, are more than `size` can count. -/
theorem queue_size_overflows :
    QueueOp.AllowedRun (queueInit (fun _ => none) 1 : Mem Nat) (QueueOp.fill (2 ^ 31) 2) ∧
      QueueOp.runAll (queueInit (fun _ => none) 1) (QueueOp.fill (2 ^ 31) 2) =
        .error .overflow := by
  have above : ∀ b ∈ [(1 : Addr)], b < 2 := by simp
  obtain ⟨allowed, overflows⟩ := QueueOp.fill_overflows (Nodes.init 1) above (by decide) (2 ^ 31)
  exact ⟨allowed, overflows (by decide)⟩

end SysProg.M9
