import SysProg.Proxy.Relay
import SysProg.Proxy.Ledger

/-! # What one connection gives back

A connection from its `accept` to the end of its request, or to the end of the
pass of the accept loop that gives it up.  Both sockets are closed and the cell
is freed on the path on which a target is reached, and on no other.
-/

namespace SysProg.Proxy

open Fallible CString Interaction

variable {A : Type}

/-- Whatever the answers. -/
abbrev anything : (e : Call A) → e.Answer → Prop := fun _ _ => True

/-- A pass of the accept loop and, when it hands the connection over, its
    handling by a worker. -/
def connection (frame : Frame) : ProxyProg A Unit := do
  match ← acceptPass with
  | none => return ()
  | some arg => handleClientRequestThread frame arg

/-- Every descriptor that was opened has been closed once and every cell that
    was allocated has been freed once. -/
def Ledger.Settled (l : Ledger) : Prop := l.held = [] ∧ l.cells = [] ∧ l.doubled = false

instance (l : Ledger) : Decidable l.Settled :=
  inferInstanceAs (Decidable (_ ∧ _ ∧ _))

theorem Finished.settled_iff {l l' : Ledger} {c : Int} (finished : Finished l l')
    (own : l.held = [c]) (cells : l.cells = []) (fine : l.doubled = false) :
    l'.Settled ↔ l'.connected = true := by
  rcases finished with rfl | ⟨unconnected, rfl | doubled⟩
  · simp [Ledger.Settled, cells, fine]
  · simp [Ledger.Settled, own, unconnected]
  · simp [Ledger.Settled, doubled, unconnected]

/-- With every answer possible, every call may be made and every stop may come. -/
theorem terms_anything (c : Int) :
    Terms (A := A) anything (fun _ _ => True) (fun _ _ => True) c where
  uses _ _ _ := trivial
  refused _ _ _ := trivial
  bounds _ _ _ := .inr fun _ => trivial
  exits _ _ := trivial

theorem connection_safe (frame : Frame) :
    Safe (ledger anything) (fun _ _ => True) (fun _ _ => True)
      (fun l _ => l.Settled ↔ l.connected = true) (connection (A := A) frame) .empty := by
  refine Safe.bind (acceptPass_safe (fun _ _ _ _ => trivial) |>.mono
    (fun _ _ _ => trivial) (fun _ _ => id) ?_)
  intro l passed pass
  cases passed with
  | none =>
      obtain ⟨c, rfl⟩ := pass
      exact .ret (by simp [Ledger.Settled])
  | some arg =>
      obtain rfl := pass
      refine Safe.perform trivial fun _ l₁ freed => ?_
      obtain ⟨_, _, rfl⟩ := freed
      simp only [Ledger.after, List.mem_singleton, if_true]
      apply (handleClientRequest_safe (terms_anything arg.value) frame rfl rfl).consequence
      intro l' _ finished
      exact Finished.settled_iff (c := arg.value) finished rfl (by simp) rfl

/-- When a connection is done with, both its sockets have been closed and its
    cell freed, each once, exactly when a `connect` for it succeeded. -/
theorem released_iff_connected {frame : Frame} {l : Ledger}
    (run : Runs (ledger anything) (connection (A := A) frame) .empty (.returned ()) l) :
    l.Settled ↔ l.connected = true :=
  (connection_safe frame).sound run

/-- One call with its answer, and what it leaves in the ledger. -/
theorem run_call {e : Call A} {rest : e.Answer → ProxyProg A Unit} {out : Outcome Stop Unit}
    {l l' : Ledger} (r : e.Answer) (legal : l.Legal e r)
    (run : Runs (ledger anything) (rest r) (l.after e r) out l') :
    Runs (ledger anything) (.call e rest) l out l' :=
  .call ⟨legal, trivial, rfl⟩ run

/-- A target that closes without answering, and a client that takes the nothing. -/
theorem forwardResponse_runs (buffer : CArray bufferSize) (t c : Int) {l : Ledger} :
    Runs (ledger anything) (forwardResponse (A := A) buffer t c) l (.returned ()) l := by
  obtain ⟨filled, fills, _⟩ := fillBuffer_ok buffer (by decide : ([] : Bytes).length < bufferSize)
  apply run_call (some []) (by simp [Ledger.Legal])
  simp only [Prog.bind_eq, Prog.ret_bind, inBounds, fills, Prog.checked]
  exact run_call (some 0) trivial (.ret () _)

/-- A request whose first target connects and answers with nothing. -/
theorem handleClientRequest_runs (frame : Frame) {received sent : Bytes} (a : A)
    (size : received.length < bufferSize) (sends : sentToTarget frame received = .ok sent)
    (some_ : sent ≠ []) :
    Runs (ledger (A := A) anything) (handleClientRequest frame 4)
      ⟨[4], [], false, false, true⟩ (.returned ()) ⟨[], [], false, true, true⟩ := by
  obtain ⟨rest, hostname, port, starts, continues⟩ :=
    handleClientRequest_sends (A := A) 4 sends some_
  rw [starts]
  refine run_call (some received) ?_ ?_
  · rintro bytes ⟨⟩
    exact Nat.le_pred_of_lt size
  rw [continues]
  apply run_call (some [a]) (by simp [Ledger.Legal])
  apply run_call (5 : Int) (by simp [Ledger.Legal, Ledger.after])
  refine run_call true trivial ?_
  refine run_call () trivial ?_
  refine run_call (some 1) trivial ?_
  change Runs _ (forwardResponse frame.response 5 4 >>= fun _ => close 5 >>= fun _ => close 4) _ _ _
  apply Runs.bind (forwardResponse_runs frame.response 5 4)
  refine run_call () trivial ?_
  exact run_call () trivial (.ret () _)

/-- A request that is answered by its target. -/
theorem released_iff_connected_answered :
    ∃ l, Runs (ledger (A := Unit) anything) (connection .blank) .empty (.returned ()) l ∧
      l.Settled := by
  have run : Runs (ledger (A := Unit) anything) (connection .blank) .empty (.returned ())
      ⟨[], [], false, true, true⟩ := by
    apply run_call (4 : Int) (by simp [Ledger.Legal, Ledger.empty])
    apply run_call (some 0) (by simp [Ledger.Legal, Ledger.after, Ledger.empty])
    refine run_call true trivial ?_
    refine run_call () trivial ?_
    refine run_call () trivial ?_
    exact handleClientRequest_runs .blank () (firstOf_fits _) (answering_sends []) (by decide)
  exact ⟨_, run, (released_iff_connected run).mpr rfl⟩

/-- A client that closes without sending anything keeps its descriptor. -/
theorem silent_client_leaks :
    ∃ l, Runs (ledger (A := Unit) anything) (connection .blank) .empty (.returned ()) l ∧
      l.held = [4] ∧ ¬ l.Settled := by
  refine ⟨⟨[4], [], false, false, true⟩, ?_, rfl, by decide⟩
  apply run_call (4 : Int) (by simp [Ledger.Legal, Ledger.empty])
  apply run_call (some 0) (by simp [Ledger.Legal, Ledger.after, Ledger.empty])
  refine run_call true trivial ?_
  refine run_call () trivial ?_
  refine run_call () trivial ?_
  apply run_call (some []) (by simp [Ledger.Legal])
  exact .ret () _

end SysProg.Proxy
