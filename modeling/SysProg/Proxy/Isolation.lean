import SysProg.Proxy.Ownership
import SysProg.Proxy.Relay

/-! # Clients are isolated from each other

A worker goes on with a descriptor that it has closed only when the last
address of its target refuses.  Where none does, every `recv`, `send` and
`close` of a worker is on its own connections.
-/

namespace SysProg.Proxy

open CString Scan Interaction Transition

variable {A : Type} {N : Nat}

/-- The call is a `recv`, `send` or `close` of `fd`. -/
def Call.On (fd : Int) : Call A → Prop
  | .recv fd' _ | .send fd' _ _ | .close fd' => fd' = fd
  | _ => False

/-- What every worker is about to use is the client connection it was handed or
    a target connection that it opened and that is open. -/
def Isolated (s : Server N A) : Prop :=
  ∀ i k c e rest fd, s.worker i = .handling k c (.call e rest) → e.On fd →
    s.table fd = some (.client k) ∨ s.table fd = some (.target k)

/-- The last address of a list does not refuse, and requests fit the parser's arrays. -/
def Calm (c : Int) : (e : Call A) → e.Answer → Prop
  | .connect _ _ [], connects => connects = true
  | .recv fd _, some bytes => fd = c → TokensFit (untilZero bytes)
  | _, _ => True

def calm : Conditions A where
  main _ _ := True
  worker := Calm
  broken := True
  stops h := h = .exitFailure

theorem calm_sound : (calm (A := A)).Sound where
  terms c :=
    { uses := fun _ _ => id
      refused := by
        rintro ⟨fd, p, refused⟩
        cases refused
      bounds := fun _ _ allowed => .inl (allowed rfl)
      exits := fun _ _ => rfl }
  accepts _ _ _ := rfl

/-- While the last address never refuses and requests fit, every worker uses its
    own connections only, and no array is overrun. -/
theorem workers_isolated {s : Server N A}
    (reach : ((proxyServer N A).only calm.Meets).Reachable s) :
    Isolated s ∧ s.ended ≠ some (.stopped .undefined) := by
  have inv := Inv.reachable calm_sound reach
  constructor
  · intro i k c e rest fd at_ on
    obtain ⟨l, safe, holds⟩ := inv.handling i k c _ at_
    have held : fd ∈ l.held := by
      have used := safe.permitted
      cases e <;> cases on <;> exact used
    obtain ⟨o, denotes, rfl | rfl⟩ := holds.denotes fd held
    · exact .inl denotes
    · exact .inr denotes
  · intro ended
    rcases inv.ended _ ended with same | ⟨same, _⟩ | ⟨h, same, stops⟩
    · cases same
    · cases same
    · cases same
      cases stops

/-! ## Runs of one worker -/

/-- The proxy with one worker in its loop. -/
def scene (table : Table) (queue : List Job) (main : MainPc Unit) (pc : WorkerPc Unit)
    (passes : Nat) (finished : List Nat) : Server 1 Unit where
  table := table
  sockfd := 3
  queue := queue
  closed := false
  main := main
  worker := fun _ => pc
  stop := false
  passes := passes
  ended := none
  finished := finished

/-- The steps lead from the first state to the scene and meet the conditions. -/
abbrev Seen (cond : Conditions Unit) (first : Server 1 Unit) (acts : List (Act 1 Unit))
    (s : Server 1 Unit) : Prop :=
  Steps (proxyServer 1 Unit) cond.Meets first acts s

section

variable {cond : Conditions Unit} {first : Server 1 Unit} {acts : List (Act 1 Unit)}
  {table table' : Table} {queue : List Job} {main : MainPc Unit} {pc : WorkerPc Unit}
  {passes k : Nat} {finished : List Nat} {c : Int} {e : Call Unit}

theorem setWorker_scene (pc' : WorkerPc Unit) :
    (scene table queue main pc passes finished).setWorker 0 pc' =
      scene table queue main pc' passes finished := by
  have worker : Function.update (fun _ : Fin 1 => pc) 0 pc' = fun _ => pc' := by
    funext i
    rw [Subsingleton.elim i 0, Function.update_self]
  simp only [Server.setWorker, scene, worker]

theorem Seen.enterPass
    (seen : Seen cond first acts (scene table queue .checking pc passes finished)) :
    Seen cond first (acts ++ [.main])
      (scene table queue (.passing acceptPass) pc (passes + 1) finished) :=
  .step seen ⟨rfl, .enterPass rfl rfl⟩ trivial

theorem Seen.endPass (arg : Option Cell)
    (seen : Seen cond first acts (scene table queue (.passing (.ret arg)) pc passes finished)) :
    Seen cond first (acts ++ [.main]) (scene table queue .checking pc passes finished) :=
  .step seen ⟨rfl, .endPass rfl⟩ trivial

theorem Seen.mainCalls {rest : e.Answer → ProxyProg Unit (Option Cell)}
    (seen : Seen cond first acts (scene table queue (.passing (.call e rest)) pc passes finished))
    (r : e.Answer) (answers : Answers (.client passes) table e r table') (meets : cond.main e r) :
    Seen cond first (acts ++ [.mainCalls e r])
      (scene table' (queue ++ handedOver passes e) (.passing (rest r)) pc passes finished) :=
  .step seen ⟨rfl, .mainCalls rfl answers⟩ meets

theorem Seen.dequeue (frame : Frame) (job : Job) (queue : List Job)
    (seen : Seen cond first acts (scene table (job :: queue) main .idle passes finished)) :
    Seen cond first (acts ++ [.worker 0]) (scene table queue main
      (.handling job.conn job.arg.value (handleClientRequestThread frame job.arg))
      passes finished) := by
  refine .step seen ⟨rfl, ?_⟩ trivial
  have taken := ServerStep.dequeue (s := scene table (job :: queue) main .idle passes finished)
    (i := 0) frame rfl rfl
  rw [setWorker_scene] at taken
  exact taken

theorem Seen.calls {rest : e.Answer → ProxyProg Unit Unit}
    (seen : Seen cond first acts
      (scene table queue main (.handling k c (.call e rest)) passes finished))
    (r : e.Answer) (answers : Answers (.target k) table e r table') (meets : cond.worker c e r) :
    Seen cond first (acts ++ [.calls 0 e r])
      (scene table' (queue ++ handedOver k e) main (.handling k c (rest r)) passes finished) := by
  refine .step seen ⟨rfl, ?_⟩ fun k' c' rest' at_ => ?_
  · have called := ServerStep.calls
      (s := scene table queue main (.handling k c (.call e rest)) passes finished)
      (i := 0) rfl answers
    rw [setWorker_scene] at called
    exact called
  · cases at_
    exact meets

theorem Seen.finish
    (seen : Seen cond first acts
      (scene table queue main (.handling k c (.ret ())) passes finished)) :
    Seen cond first (acts ++ [.worker 0])
      (scene table queue main .idle passes (finished ++ [k])) := by
  refine .step seen ⟨rfl, ?_⟩ trivial
  have done := ServerStep.finish
    (s := scene table queue main (.handling k c (.ret ())) passes finished) (i := 0) rfl
  rw [setWorker_scene] at done
  exact done

theorem lowest_of {n : Nat} (free : table n = none) (used : ∀ m < n, table (m : Nat) ≠ none) :
    Lowest table n := by
  refine ⟨Int.natCast_nonneg n, free, fun fd positive below => ?_⟩
  obtain ⟨m, rfl⟩ := Int.eq_ofNat_of_zero_le positive
  exact used m (Int.ofNat_lt.mp below)

/-- Four descriptors are open when the loop is entered, the last for listening. -/
def openingTable : Table := fun fd => if 0 ≤ fd ∧ fd < 4 then some .earlier else none

/-- `main` enters its loop. -/
def atLoop : Server 1 Unit := scene openingTable [] .checking .idle 0 []

theorem atLoop_init : (proxyServer 1 Unit).init atLoop :=
  ⟨openingTable, 3, fun fd => by unfold openingTable; split <;> simp, rfl, rfl⟩

/-- The worker is at the first connection, with its request still to come. -/
def firstHandling (frame : Frame) : Server 1 Unit :=
  scene (Function.update openingTable 4 (some (.client 1))) [] .checking
    (.handling 1 4 (handleClientRequest frame 4)) 1 []

theorem exists_firstHandling (cond : Conditions Unit) (frame : Frame)
    (accepts : cond.main .accept (4 : Int))
    (others : ∀ e r, e ≠ .accept → cond.main e r) (frees : cond.worker 4 (.free 0) ()) :
    ∃ acts, Seen cond atLoop acts (firstHandling frame) := by
  have entered : Seen cond atLoop [] atLoop := .start
  have accepted := entered.enterPass.mainCalls (e := .accept) (4 : Int)
    (.inr ⟨lowest_of (n := 4) rfl (by decide), rfl⟩) accepts
  have cell := accepted.mainCalls (e := .mallocInt) (some 0) rfl (others _ _ nofun)
  have request := cell.mainCalls (e := .mallocRequest) true rfl (others _ _ nofun)
  have queued := request.mainCalls (e := .enqueue ⟨0, 4⟩) () rfl (others _ _ nofun)
  have passed := Seen.endPass (some ⟨0, 4⟩) queued
  have taken := Seen.dequeue frame ⟨⟨0, 4⟩, 1⟩ [] passed
  exact ⟨_, taken.calls (e := .free 0) () rfl frees⟩

end

/-- The worker of the first client is about to read from the first client. -/
theorem workers_isolated_first :
    ∃ (s : Server 1 Unit) (rest : _), ((proxyServer 1 Unit).only calm.Meets).Reachable s ∧
      s.worker 0 = .handling 1 4 (.call (.recv 4 (bufferSize - 1)) rest) ∧
      (s.table 4 = some (.client 1) ∨ s.table 4 = some (.target 1)) ∧
      s.ended ≠ some (.stopped .undefined) := by
  obtain ⟨acts, seen⟩ := exists_firstHandling calm .blank trivial (fun _ _ _ => trivial) trivial
  have reach := seen.reachable (.init atLoop_init)
  have isolated := workers_isolated reach
  exact ⟨_, _, reach, rfl, isolated.1 0 1 4 _ _ 4 rfl rfl, isolated.2⟩

/-- No condition on a run. -/
def anyRun : Conditions Unit := ⟨fun _ _ => True, fun _ _ _ => True, True, fun _ => True⟩

/-- The only target of the first client refuses, the second client is accepted on
    the descriptor that was closed, and the first client's request goes to it. -/
theorem request_sent_to_other_client :
    ∃ (s : Server 1 Unit) (sent : Bytes) (rest : _), (proxyServer 1 Unit).Reachable s ∧
      s.worker 0 = .handling 1 4 (.call (.send 5 sent true) rest) ∧
      s.table 5 = some (.client 2) ∧ ¬ Isolated s := by
  obtain ⟨rest, hostname, port, starts, continues⟩ :=
    handleClientRequest_sends (A := Unit) 4 (answering_sends []) (by decide)
  obtain ⟨acts, seen⟩ := exists_firstHandling anyRun .blank trivial (fun _ _ _ => trivial) trivial
  rw [firstHandling, starts] at seen
  have received := seen.calls (some (firstOf (answering []).request)) ⟨rfl, ?_⟩ trivial
  rw [continues] at received
  have resolved := Seen.calls (e := .getaddrinfo hostname (portStr port)) received (some [()])
    ⟨rfl, nofun⟩ trivial
  have opened := Seen.calls (e := .socket ()) resolved (5 : Int)
    (.inr ⟨lowest_of (n := 5) rfl (by decide), rfl⟩) trivial
  have refused := Seen.calls (e := .connect 5 () []) opened false ⟨rfl, nofun⟩ trivial
  have closed := Seen.calls (e := .close 5) refused () rfl trivial
  have freed := Seen.calls (e := .freeaddrinfo [()]) closed () rfl trivial
  have second := freed.enterPass.mainCalls (e := .accept) (5 : Int)
    (.inr ⟨lowest_of (n := 5) rfl (by decide), rfl⟩) trivial
  refine ⟨_, _, _, (second.reachable (.init atLoop_init)).of_only, rfl, rfl, fun isolated => ?_⟩
  · rcases isolated 0 1 4 _ _ 5 rfl rfl with same | same
    · cases same
    · cases same
  · rintro bytes ⟨⟩
    exact ⟨nofun, Nat.le_pred_of_lt (firstOf_fits _)⟩

end SysProg.Proxy
