import SysProg.Proxy.Draining

/-! # SIGINT and the intake

The proxy together with the connections that wait to be accepted.  They arrive
at any time, and a successful `accept` takes the one that has waited longest.
The handler is installed with SA_RESTART, so a signal changes nothing about an
`accept` that `main` has begun: it still takes the next connection, also one
that arrives after the signal.
-/

namespace SysProg.Proxy

open Interaction Transition

variable {A : Type} {N : Nat}

/-- A connection that `accept` gave to `main`. -/
structure Given where
  /-- Its number, the pass of the loop that accepted it. -/
  conn : Nat
  /-- It arrived after the handler had returned. -/
  late : Bool
  /-- It was given after the handler had returned. -/
  after : Bool

/-- The proxy, what waits in front of it and what it was given. -/
structure Intake (N : Nat) (A : Type) where
  server : Server N A
  /-- For each connection that waits, whether it arrived after the handler. -/
  backlog : List Bool
  given : List Given

inductive IntakeAct (N : Nat) (A : Type) where
  /-- A connection arrives. -/
  | arrive
  | server (act : Act N A)

/-- `main` gets a connection. -/
def Act.Accepts : Act N A → Prop
  | .mainCalls .accept fd => 0 ≤ fd
  | _ => False

theorem Act.Accepts.eq {act : Act N A} (accepts : act.Accepts) :
    ∃ fd : Int, 0 ≤ fd ∧ act = .mainCalls .accept fd := by
  unfold Act.Accepts at accepts
  split at accepts
  · exact ⟨_, accepts, rfl⟩
  · exact accepts.elim

inductive IntakeStep : Intake N A → IntakeAct N A → Intake N A → Prop where
  | arrive {s : Intake N A} :
      IntakeStep s .arrive { s with backlog := s.backlog ++ [s.server.stop] }
  | give {s : Intake N A} {act late waiting server} : act.Accepts → s.backlog = late :: waiting →
      ServerStep s.server act server →
      IntakeStep s (.server act)
        { server := server
          backlog := waiting
          given := s.given ++ [⟨s.server.passes, late, s.server.stop⟩] }
  | other {s : Intake N A} {act server} : ¬ act.Accepts → ServerStep s.server act server →
      IntakeStep s (.server act) { s with server := server }

/-- The proxy from the accept loop on; connections may wait already. -/
def intake (N : Nat) (A : Type) : System (Intake N A) (IntakeAct N A) where
  init s := (proxyServer N A).init s.server ∧ (∀ late ∈ s.backlog, late = false) ∧ s.given = []
  step s l s' := s.server.ended = none ∧ IntakeStep s l s'

/-- The intake only restricts the proxy. -/
theorem IntakeStep.server_step {s s' : Intake N A} {l : IntakeAct N A} (taken : IntakeStep s l s') :
    (l = .arrive ∧ s'.server = s.server) ∨
      ∃ act, l = .server act ∧ ServerStep s.server act s'.server := by
  cases taken with
  | arrive => exact .inl ⟨rfl, rfl⟩
  | give _ _ taken => exact .inr ⟨_, rfl, taken⟩
  | other _ taken => exact .inr ⟨_, rfl, taken⟩

theorem reachable_server {s : Intake N A} (reach : (intake N A).Reachable s) :
    (proxyServer N A).Reachable s.server := by
  refine reach.invariant (I := fun s => (proxyServer N A).Reachable s.server)
    (fun s start => .init start.1) fun s l s' _ server taken => ?_
  rcases taken.2.server_step with ⟨_, same⟩ | ⟨act, _, step⟩
  · rw [same]
    exact server
  · exact .step server ⟨taken.1, step⟩

/-! ## A pass of the loop -/

/-- Whatever the answers, the rest of the pass calls `accept` no more and does not
    stop the process. -/
structure PastAccept (p : ProxyProg A (Option Cell)) : Prop where
  safe : Safe (fun (_ : Unit) _ _ _ => True) (fun _ e => e ≠ Call.accept) (fun _ _ => False)
    (fun _ _ => True) p ()

/-- What `main` does with what `accept` returned. -/
def afterAccept (newsockfd : Int) : ProxyProg A (Option Cell) :=
  if newsockfd < 0 then
    .halt .exitFailure
  else do
    match ← mallocInt with
    | none => return none
    | some clientSocketPtr =>
        if ← mallocRequest then
          let arg : Cell := ⟨clientSocketPtr, newsockfd⟩
          queueEnqueue arg
          return some arg
        else
          free clientSocketPtr
          return none

theorem acceptPass_eq : (acceptPass : ProxyProg A (Option Cell)) = .call .accept afterAccept := rfl

theorem afterAccept_negative {fd : Int} (failed : fd < 0) :
    afterAccept (A := A) fd = .halt .exitFailure := if_pos failed

theorem afterAccept_pastAccept {fd : Int} (given : 0 ≤ fd) :
    PastAccept (afterAccept (A := A) fd) := by
  unfold afterAccept
  rw [if_neg (Int.not_lt.mpr given)]
  constructor
  refine Safe.perform (by simp) fun p _ _ => ?_
  cases p with
  | none => exact .ret trivial
  | some p =>
      refine Safe.perform (by simp) fun ok _ _ => ?_
      cases ok with
      | true => exact Safe.perform (by simp) fun _ _ _ => .ret trivial
      | false => exact Safe.perform (by simp) fun _ _ _ => .ret trivial

/-- `main` is at `accept`, or about to stop the process since `accept` failed. -/
def AtAccept (pc : MainPc A) : Prop :=
  pc = .passing acceptPass ∨ pc = .passing (.halt .exitFailure)

theorem AtAccept.passing {pc : MainPc A} (at_ : AtAccept pc) : ∃ p, pc = .passing p := by
  rcases at_ with here | stops
  · exact ⟨_, here⟩
  · exact ⟨_, stops⟩

theorem PastAccept.not_atAccept {p : ProxyProg A (Option Cell)} (past : PastAccept p) :
    ¬ AtAccept (.passing p) := by
  rintro (here | stops)
  · cases here
    exact past.safe.permitted rfl
  · cases stops
    exact past.safe.of_halt

theorem PastAccept.rest {e : Call A} {rest : e.Answer → ProxyProg A (Option Cell)}
    (past : PastAccept (.call e rest)) (r : e.Answer) : PastAccept (rest r) :=
  ⟨past.safe.answered trivial⟩

section

variable {s s' : Server N A} {act : Act N A}

/-- How a step leaves `main` in a pass: it has begun it, it was there already, or it
    has got an answer. -/
theorem ServerStep.passing_cases (taken : ServerStep s act s') {q : ProxyProg A (Option Cell)}
    (at_ : s'.main = .passing q) :
    (q = acceptPass ∧ s'.stop = false) ∨
      (s'.passes = s.passes ∧ (s.main = .passing q ∨
        ∃ e rest r, act = .mainCalls e r ∧ s.main = .passing (.call e rest) ∧ q = rest r)) := by
  cases taken with
  | enterPass _ running =>
      cases at_
      exact .inl ⟨rfl, running⟩
  | mainCalls here _ =>
      cases at_
      exact .inr ⟨rfl, .inr ⟨_, _, _, rfl, here, rfl⟩⟩
  | leaveLoop _ _ => cases at_
  | endPass _ => cases at_
  | close _ => cases at_
  | closeQueue _ => cases at_
  | join _ _ _ => cases at_
  | joined _ _ => cases at_
  | _ => exact .inr ⟨rfl, .inl at_⟩

/-- What is in the queue was there, or `main` has just put it there. -/
theorem ServerStep.queued_cases (taken : ServerStep s act s')
    (quiet : ∀ i k c p, s.worker i = .handling k c p → Quiet p) {job : Job}
    (queued : job ∈ s'.queue) :
    job ∈ s.queue ∨
      ∃ arg rest, s.main = .passing (.call (.enqueue arg) rest) ∧ job.conn = s.passes := by
  cases taken with
  | @mainCalls e rest r _ here _ =>
      rcases List.mem_append.mp queued with before | new
      · exact .inl before
      · cases e with
        | enqueue arg =>
            obtain rfl := List.mem_singleton.mp new
            exact .inr ⟨arg, rest, here, rfl⟩
        | _ => cases new
  | dequeue _ _ split =>
      left
      rw [split]
      exact List.mem_cons_of_mem _ queued
  | @calls i k c e rest r _ here _ =>
      left
      have none_ : handedOver k e = [] := (quiet i k c _ here).makes.1 k
      change job ∈ s.queue ++ handedOver k e at queued
      rwa [none_, List.append_nil] at queued
  | _ => exact .inl queued

/-- Only a signal sets `stop`, and it does nothing else. -/
theorem ServerStep.stop_cases (taken : ServerStep s act s') :
    s'.stop = s.stop ∨ (act = .sigint ∧ s'.stop = true ∧ s'.main = s.main) := by
  cases taken with
  | sigint => exact .inr ⟨rfl, rfl, rfl⟩
  | _ => exact .inl rfl

end

/-! ## What is given and queued -/

/-- Where `main` stands in a pass: at `accept`, or behind it with a connection that
    was given. -/
def InPass (given : List Given) (passes : Nat) (p : ProxyProg A (Option Cell)) : Prop :=
  AtAccept (.passing p) ∨ (PastAccept p ∧ ∃ g ∈ given, g.conn = passes)

/-- A connection is queued only after it was given. -/
structure Admits (s : Intake N A) : Prop where
  passing : ∀ p, s.server.main = .passing p → InPass s.given s.server.passes p
  queued : ∀ job ∈ s.server.queue, ∃ g ∈ s.given, g.conn = job.conn

section

variable {s s' : Intake N A} {l : IntakeAct N A}

/-- At a call of `accept` the pass has just begun. -/
theorem Admits.at_accept (admits : Admits s) {rest : Int → ProxyProg A (Option Cell)}
    (at_ : s.server.main = .passing (.call .accept rest)) : rest = afterAccept := by
  rcases admits.passing _ at_ with (same | stops) | ⟨past, _⟩
  · cases same
    rfl
  · cases stops
  · exact absurd rfl past.safe.permitted

/-- Behind `accept` the connection of the pass has been given. -/
theorem Admits.past (admits : Admits s) {e : Call A} {rest : e.Answer → ProxyProg A (Option Cell)}
    (at_ : s.server.main = .passing (.call e rest)) (other : e ≠ .accept) :
    PastAccept (.call e rest) ∧ ∃ g ∈ s.given, g.conn = s.server.passes := by
  rcases admits.passing _ at_ with (same | stops) | past
  · rw [acceptPass_eq] at same
    cases same
    exact absurd rfl other
  · cases stops
  · exact past

/-- What an answer that gives no connection leads to. -/
theorem Admits.answered (admits : Admits s) {e : Call A}
    {rest : e.Answer → ProxyProg A (Option Cell)} {r : e.Answer}
    (refused : ¬ (Act.mainCalls e r : Act N A).Accepts)
    (at_ : s.server.main = .passing (.call e rest)) :
    rest r = .halt .exitFailure ∨
      (PastAccept (rest r) ∧ ∃ g ∈ s.given, g.conn = s.server.passes) := by
  by_cases accepting : e = .accept
  · subst accepting
    obtain rfl := admits.at_accept at_
    exact .inl (afterAccept_negative (Int.not_le.mp refused))
  · obtain ⟨past, given⟩ := admits.past at_ accepting
    exact .inr ⟨past.rest r, given⟩

theorem Admits.step (admits : Admits s) (taken : IntakeStep s l s')
    (quiet : ∀ i k c p, s.server.worker i = .handling k c p → Quiet p) : Admits s' := by
  cases taken with
  | arrive => exact ⟨admits.passing, admits.queued⟩
  | @give _ late _ _ accepts _ taken =>
      obtain ⟨fd, given, rfl⟩ := accepts.eq
      cases taken with
      | mainCalls here _ =>
          obtain rfl := admits.at_accept here
          refine ⟨fun q at_ => ?_, fun job queued => ?_⟩
          · cases at_
            exact .inr ⟨afterAccept_pastAccept given,
              ⟨s.server.passes, late, s.server.stop⟩, by simp, rfl⟩
          · obtain ⟨g, member, own⟩ := admits.queued job (by simpa [handedOver] using queued)
            exact ⟨g, List.mem_append_left _ member, own⟩
  | other refused taken =>
      refine ⟨fun q at_ => ?_, fun job queued => ?_⟩
      · rcases taken.passing_cases at_ with
          ⟨rfl, _⟩ | ⟨passes, stays | ⟨e, rest, r, rfl, here, rfl⟩⟩
        · exact .inl (.inl rfl)
        · rw [passes]
          exact admits.passing q stays
        · rw [passes]
          rcases admits.answered refused here with stops | past
          · exact .inl (.inr (congrArg MainPc.passing stops))
          · exact .inr past
      · rcases taken.queued_cases quiet queued with before | ⟨arg, rest, here, own⟩
        · exact admits.queued job before
        · obtain ⟨_, g, member, same⟩ := admits.past here (by simp)
          exact ⟨g, member, same.trans own.symm⟩

theorem Admits.reachable (reach : (intake N A).Reachable s) : Admits s := by
  refine reach.invariant (fun s start => ?_) fun s l s' before admits taken => ?_
  · obtain ⟨⟨table, sockfd, _, _, server⟩, _, _⟩ := start
    constructor
    · rw [server]
      exact nofun
    · rw [server]
      exact nofun
  · exact admits.step taken.2 (workers_quiet (reachable_server before))

end

/-! ## The signal -/

/-- The first signal does not come between the test of `stop` and the return of
    `accept`, nor after an `accept` that failed. -/
def Unraced (s : Intake N A) : IntakeAct N A → Prop
  | .server .sigint => s.server.stop = true ∨ ¬ AtAccept s.server.main
  | _ => True

/-- The handler has ended the intake. -/
structure Early (s : Intake N A) : Prop where
  given : ∀ g ∈ s.given, g.late = false ∧ g.after = false
  backlog : s.server.stop = false → ∀ late ∈ s.backlog, late = false
  past : s.server.stop = true → ¬ AtAccept s.server.main

section

variable {s s' : Intake N A} {l : IntakeAct N A}

theorem Early.step (early : Early s) (admits : Admits s) (taken : IntakeStep s l s')
    (unraced : Unraced s l) : Early s' := by
  cases taken with
  | arrive =>
      refine ⟨early.given, fun running late member => ?_, early.past⟩
      rcases List.mem_append.mp member with before | new
      · exact early.backlog running late before
      · rw [List.mem_singleton.mp new]
        exact running
  | @give _ late waiting _ accepts waits taken =>
      obtain ⟨fd, _, rfl⟩ := accepts.eq
      cases taken with
      | mainCalls here _ =>
          obtain rfl := admits.at_accept here
          have running : s.server.stop = false := by
            rw [← Bool.not_eq_true]
            exact fun stopped => early.past stopped (.inl here)
          have before := early.backlog running
          rw [waits] at before
          refine ⟨fun g member => ?_, fun _ other member => ?_, fun stopped => ?_⟩
          · rcases List.mem_append.mp member with old | new
            · exact early.given g old
            · rw [List.mem_singleton.mp new]
              exact ⟨before late List.mem_cons_self, running⟩
          · exact before other (List.mem_cons_of_mem _ member)
          · rw [running] at stopped
            cases stopped
  | other refused taken =>
      refine ⟨early.given, fun running => early.backlog ?_, fun stopped at_ => ?_⟩
      · rcases taken.stop_cases with same | ⟨_, stopped, _⟩
        · exact same.symm.trans running
        · rw [stopped] at running
          cases running
      · -- the new `main` is in a pass; it was there before, or came by an answer
        obtain ⟨q, here⟩ := at_.passing
        rcases taken.passing_cases here with ⟨_, running⟩ | ⟨_, stays | ⟨e, rest, r, rfl, was, rfl⟩⟩
        · rw [running] at stopped
          cases stopped
        · rw [here, ← stays] at at_
          rcases taken.stop_cases with same | ⟨rfl, _, _⟩
          · exact early.past (same.symm.trans stopped) at_
          · rcases unraced with before | apart
            · exact early.past before at_
            · exact apart at_
        · have before : s.server.stop = true := by
            rcases taken.stop_cases with same | ⟨none_, _⟩
            · exact same.symm.trans stopped
            · cases none_
          have past := ((admits.passing _ was).resolve_left (was ▸ early.past before)).1
          rw [here] at at_
          exact (past.rest r).not_atAccept at_

theorem Early.reachable (reach : ((intake N A).only Unraced).Reachable s) : Early s := by
  refine reach.invariant (fun s start => ?_) fun s l s' before early taken => ?_
  · obtain ⟨⟨table, sockfd, _, _, server⟩, backlog, given⟩ := start
    refine ⟨?_, fun _ => backlog, ?_⟩
    · rw [given]
      exact nofun
    · rw [server]
      intro stopped
      cases stopped
  · exact early.step (Admits.reachable before.of_only) taken.1.2 taken.2

end

/-! ## The way to `queue_close` -/

/-- What `main` does next when `stop` is set. -/
inductive Ahead : MainPc A → MainPc A → Prop where
  | answered {q p : ProxyProg A (Option Cell)} : Prog.Rest q p → Ahead (.passing q) (.passing p)
  | ended (arg : Option Cell) : Ahead .checking (.passing (.ret arg))
  | left : Ahead .closing .checking
  | listening : Ahead .closingQueue .closing

theorem ahead_wellFounded : WellFounded (Ahead (A := A)) := by
  have queue : Acc Ahead (.closingQueue : MainPc A) := .intro _ fun _ => nofun
  have closing : Acc Ahead (.closing : MainPc A) := by
    constructor
    rintro _ ⟨⟩
    exact queue
  have checking : Acc Ahead (.checking : MainPc A) := by
    constructor
    rintro _ ⟨⟩
    exact closing
  constructor
  intro pc
  cases pc with
  | checking => exact checking
  | closing => exact closing
  | closingQueue => exact queue
  | joining i => exact .intro _ fun _ => nofun
  | exited => exact .intro _ fun _ => nofun
  | passing p =>
      induction p using Prog.rest_wellFounded.induction with
      | _ p ih =>
          constructor
          intro pc less
          cases less with
          | answered rest => exact ih _ rest
          | ended arg => exact checking

def ofMain : IntakeAct N A → Prop
  | .server .main | .server (.mainCalls _ _) => True
  | _ => False

/-- `main` has closed the queue, or the process has ended before. -/
def Shut (s : Intake N A) : Prop := s.server.closed = true ∨ s.server.ended ≠ none

/-- `stop` is set and `main` stands at `pc`, on its way to `queue_close`. -/
structure StoppedAt (pc : MainPc A) (s : Intake N A) : Prop where
  stop : s.server.stop = true
  alive : s.server.ended = none
  opened : ¬ pc.Joining
  main : s.server.main = pc

section

variable {s s' : Server N A} {act : Act N A}

/-- The queue is closed before the workers are joined. -/
theorem joining_closed (reach : (proxyServer N A).Reachable s) :
    s.main.Joining → s.closed = true := by
  refine reach.invariant (I := fun s => s.main.Joining → s.closed = true)
    (fun s start => ?_) fun s act s' _ closed taken => ?_
  · obtain ⟨table, sockfd, _, _, rfl⟩ := start
    exact nofun
  · obtain ⟨_, taken⟩ := taken
    cases taken with
    | closeQueue _ => exact fun _ => rfl
    | join _ at_ _ => exact fun _ => closed (by rw [at_]; trivial)
    | joined _ at_ => exact fun _ => closed (by rw [at_]; trivial)
    | enterPass _ _ => exact nofun
    | leaveLoop _ _ => exact nofun
    | mainCalls _ _ => exact nofun
    | endPass _ => exact nofun
    | close _ => exact nofun
    | _ => exact closed

/-- A step of `main` with `stop` set goes ahead, or closes the queue, or ends the
    process. -/
theorem ServerStep.main_ahead {N : Nat} {s s' : Server N A} {act : Act N A}
    (taken : ServerStep s act s') (own : ofMain (.server act))
    (stopped : s.stop = true) (opened : ¬ s.main.Joining) :
    s'.stop = true ∧ ((s'.ended = s.ended ∧ Ahead s'.main s.main) ∨ s'.closed = true ∨
      s'.ended ≠ none) := by
  cases taken with
  | enterPass _ running =>
      rw [running] at stopped
      cases stopped
  | leaveLoop at_ _ =>
      rw [at_]
      exact ⟨stopped, .inl ⟨rfl, .left⟩⟩
  | mainCalls at_ _ =>
      rw [at_]
      exact ⟨stopped, .inl ⟨rfl, .answered (.answered _ _ _)⟩⟩
  | endPass at_ =>
      rw [at_]
      exact ⟨stopped, .inl ⟨rfl, .ended _⟩⟩
  | mainStops _ => exact ⟨stopped, .inr (.inr nofun)⟩
  | close at_ =>
      rw [at_]
      exact ⟨stopped, .inl ⟨rfl, .listening⟩⟩
  | closeQueue _ => exact ⟨stopped, .inr (.inl rfl)⟩
  | join _ at_ _ => exact absurd (by rw [at_]; trivial) opened
  | joined _ at_ => exact absurd (by rw [at_]; trivial) opened
  | _ => exact own.elim

/-- The steps of the others leave `main` where it stands. -/
theorem ServerStep.main_eq (taken : ServerStep s act s') (other : ¬ ofMain (.server act)) :
    s'.main = s.main := by
  cases taken with
  | sigint => rfl
  | dequeue _ _ _ => rfl
  | leave _ _ _ => rfl
  | calls _ _ => rfl
  | pipe _ _ => rfl
  | finish _ => rfl
  | workerStops _ => rfl
  | _ => exact absurd trivial other

end

section

variable {s : Intake N A} {run : Run (intake N A)}

theorem shut_or_stoppedAt (reach : (intake N A).Reachable s) (stopped : s.server.stop = true) :
    Shut s ∨ StoppedAt s.server.main s := by
  by_cases joining : s.server.main.Joining
  · exact .inl (.inl (joining_closed (reachable_server reach) joining))
  · by_cases alive : s.server.ended = none
    · exact .inr ⟨stopped, alive, joining, rfl⟩
    · exact .inl (.inr alive)

/-- On its way `main` waits for nothing. -/
theorem StoppedAt.enabled {pc : MainPc A} (at_ : StoppedAt pc s) (admits : Admits s)
    (early : Early s) : Enabled (intake N A) ofMain s := by
  obtain ⟨stopped, alive, opened, rfl⟩ := at_
  have own : ∀ server, ServerStep s.server .main server →
      Enabled (intake N A) ofMain s := fun server taken =>
    ⟨.server .main, _, trivial, alive, .other id taken⟩
  cases here : s.server.main with
  | checking => exact own _ (.leaveLoop here stopped)
  | closing => exact own _ (.close here)
  | closingQueue => exact own _ (.closeQueue here)
  | joining i =>
      rw [here] at opened
      exact absurd trivial opened
  | exited =>
      rw [here] at opened
      exact absurd trivial opened
  | passing p =>
      cases p with
      | ret arg => exact own _ (.endPass here)
      | halt h => exact own _ (.mainStops here)
      | call e rest =>
          have past := ((admits.passing _ here).resolve_left (here ▸ early.past stopped)).1
          obtain ⟨r, table, answers⟩ :=
            Answers.exists (.client s.server.passes) s.server.table e
          refine ⟨.server (.mainCalls e r), _, trivial, alive, .other ?_ (.mainCalls here answers)⟩
          intro accepts
          obtain ⟨fd, _, same⟩ := accepts.eq
          cases same
          exact past.safe.permitted rfl

/-- A fair `main` closes the queue. -/
theorem stopped_leadsTo
    (reach : ∀ n, ((intake N A).only Unraced).Reachable (run.state n)) (fair : run.Fair ofMain) :
    run.LeadsTo (fun s => s.server.stop = true) Shut := by
  have ahead : ∀ pc : MainPc A, run.LeadsTo (StoppedAt pc) Shut := by
    refine Run.LeadsTo.wellFounded ahead_wellFounded fun pc => ?_
    refine fair.leadsTo (fun n at_ => ?_) (fun n l took own at_ => ?_)
      fun n l took other at_ => ?_
    · exact at_.enabled (Admits.reachable (reach n).of_only) (Early.reachable (reach n))
    · have next := (reach (n + 1)).of_only
      rcases (run.moves n l took).2.server_step with ⟨rfl, _⟩ | ⟨act, rfl, taken⟩
      · exact own.elim
      · obtain ⟨stopped, alive, opened, rfl⟩ := at_
        obtain ⟨stays, ⟨_, less⟩ | closed | ended⟩ := taken.main_ahead own stopped opened
        · rcases shut_or_stoppedAt next stays with shut | further
          · exact .inl shut
          · exact .inr ⟨_, less, further⟩
        · exact .inl (.inl closed)
        · exact .inl (.inr ended)
    · have next := (reach (n + 1)).of_only
      rcases (run.moves n l took).2.server_step with ⟨rfl, same⟩ | ⟨act, rfl, taken⟩
      · left
        obtain ⟨stopped, alive, opened, main⟩ := at_
        rw [← same] at stopped alive main
        exact ⟨stopped, alive, opened, main⟩
      · have stays : (run.state (n + 1)).server.stop = true := by
          rcases taken.stop_cases with same | ⟨_, stops, _⟩
          · exact same.trans at_.stop
          · exact stops
        rcases shut_or_stoppedAt next stays with shut | there
        · exact .inr (.inl shut)
        · rw [taken.main_eq other, at_.main] at there
          exact .inl there
  intro n stopped
  rcases shut_or_stoppedAt (reach n).of_only stopped with shut | at_
  · exact ⟨n, Nat.le_refl n, shut⟩
  · exact ahead _ n at_

end

/-- In every run in which no first SIGINT comes between the test of `stop` and the
    return of `accept`, nor after an `accept` that failed, SIGINT stops the intake:
    `accept` gives nothing after it and nothing that arrived after it, only what was
    given is queued, and `main`, unless the process ends meanwhile, comes to
    `queue_close`. -/
theorem sigint_stops_intake :
    (∀ s : Intake N A, ((intake N A).only Unraced).Reachable s →
      (∀ g ∈ s.given, g.late = false ∧ g.after = false) ∧
      (∀ job ∈ s.server.queue, ∃ g ∈ s.given, g.conn = job.conn) ∧
      (s.server.stop = true → ¬ AtAccept s.server.main)) ∧
    (∀ run : Run (intake N A), ((intake N A).only Unraced).Reachable (run.state 0) →
      run.Meets Unraced → run.Fair ofMain →
      run.LeadsTo (fun s => s.server.stop = true) Shut) := by
  constructor
  · intro s reach
    have early := Early.reachable reach
    exact ⟨early.given, (Admits.reachable reach.of_only).queued, early.past⟩
  · intro run start meets fair
    exact stopped_leadsTo (run.reachable meets start) fair

/-! ## Two runs -/

section

variable {good : Intake N A → IntakeAct N A → Prop} {s : Intake N A}

theorem unraced_other (s : Intake N A) (act : Act N A) (other : act ≠ .sigint) :
    Unraced s (.server act) := by
  cases act with
  | sigint => exact absurd rfl other
  | _ => trivial

theorem reachable_other (reach : ((intake N A).only good).Reachable s)
    (alive : s.server.ended = none) (act : Act N A) {server : Server N A} (other : ¬ act.Accepts)
    (taken : ServerStep s.server act server) (meets : good s (.server act)) :
    ((intake N A).only good).Reachable { s with server := server } :=
  .step reach ⟨⟨alive, .other other taken⟩, meets⟩

/-- `accept` can give the connection that waits. -/
theorem reachable_given (meets : ∀ s act, act ≠ .sigint → good s (.server act))
    (reach : ((intake N A).only good).Reachable s) (alive : s.server.ended = none) {fd : Int}
    (lowest : Lowest s.server.table fd) (at_ : s.server.main = .passing acceptPass) {late : Bool}
    {waiting : List Bool} (waits : s.backlog = late :: waiting) :
    ((intake N A).only good).Reachable
      { server := { s.server with
          table := Function.update s.server.table fd (some (.client s.server.passes))
          main := .passing (afterAccept fd) }
        backlog := waiting
        given := s.given ++ [⟨s.server.passes, late, s.server.stop⟩] } := by
  have taken := ServerStep.mainCalls (e := .accept) (r := fd) at_ (.inr ⟨lowest, rfl⟩)
  simp only [handedOver, List.append_nil] at taken
  have accepts : (Act.mainCalls .accept fd : Act N A).Accepts := lowest.1
  exact .step reach ⟨⟨alive, .give accepts waits taken⟩, meets _ _ nofun⟩

/-- A connection that was given can be queued. -/
theorem reachable_queued (meets : ∀ s act, act ≠ .sigint → good s (.server act))
    (reach : ((intake N A).only good).Reachable s) (alive : s.server.ended = none) {fd : Int}
    (given : 0 ≤ fd) (at_ : s.server.main = .passing (afterAccept fd)) :
    ((intake N A).only good).Reachable { s with server := { s.server with
      queue := s.server.queue ++ [⟨⟨0, fd⟩, s.server.passes⟩], main := .checking } } := by
  rw [afterAccept, if_neg (Int.not_lt.mpr given)] at at_
  have cell := reachable_other reach alive (.mainCalls .mallocInt (some 0)) id
    (.mainCalls at_ rfl) (meets _ _ nofun)
  have request := reachable_other cell alive (.mainCalls .mallocRequest true) id
    (.mainCalls rfl rfl) (meets _ _ nofun)
  have queued := reachable_other request alive (.mainCalls (.enqueue ⟨0, fd⟩) ()) id
    (.mainCalls rfl rfl) (meets _ _ nofun)
  have passed := reachable_other queued alive .main id (.endPass rfl) (meets _ _ nofun)
  simpa [handedOver] using passed

end

/-- The proxy with one worker before its loop, and what waits in front of it. -/
def opening (backlog : List Bool) : Intake 1 Unit :=
  ⟨scene openingTable [] .checking .idle 0 [], backlog, []⟩

theorem reachable_opening {good : Intake 1 Unit → IntakeAct 1 Unit → Prop} {backlog : List Bool}
    (before : ∀ late ∈ backlog, late = false) :
    ((intake 1 Unit).only good).Reachable (opening backlog) := by
  refine .init ⟨⟨openingTable, 3, fun fd => ?_, rfl, rfl⟩, before, rfl⟩
  unfold openingTable
  split
  · exact .inr rfl
  · exact .inl rfl

/-- With the first connection accepted. -/
def acceptedTable : Table := Function.update openingTable 4 (some (.client 1))

/-- The first pass has queued its connection, and the handler has run. -/
def interrupted (table : Table) (main : MainPc Unit) (closed : Bool) : Intake 1 Unit where
  server :=
    { scene table [⟨⟨0, 4⟩, 1⟩] main .idle 1 [] with
      stop := true
      closed := closed }
  backlog := []
  given := [⟨1, false, false⟩]

theorem reachable_interrupted :
    ((intake 1 Unit).only Unraced).Reachable (interrupted acceptedTable .checking false) := by
  have start : ((intake 1 Unit).only Unraced).Reachable (opening [false]) :=
    reachable_opening (by simp)
  have entered := reachable_other start rfl .main id (.enterPass rfl rfl) trivial
  have free : Lowest openingTable 4 := lowest_of (n := 4) rfl (by decide)
  have given := reachable_given unraced_other entered rfl free rfl rfl
  have queued := reachable_queued unraced_other given rfl free.1 rfl
  exact reachable_other queued rfl .sigint id .sigint
    (.inr fun at_ => by obtain ⟨p, at_⟩ := at_.passing; cases at_)

/-- `main` leaves the loop, closes its socket and the queue, and waits for the worker. -/
def interruptedRun : Run (intake 1 Unit) where
  state
    | 0 => interrupted acceptedTable .checking false
    | 1 => interrupted acceptedTable .closing false
    | 2 => interrupted (Function.update acceptedTable 3 none) .closingQueue false
    | _ + 3 => interrupted (Function.update acceptedTable 3 none) (.joining 0) true
  taken
    | 0 | 1 | 2 => some (.server .main)
    | _ + 3 => none
  moves n l took := by
    match n with
    | 0 =>
        cases took
        exact ⟨rfl, .other id (.leaveLoop rfl rfl)⟩
    | 1 =>
        cases took
        exact ⟨rfl, .other id (.close rfl)⟩
    | 2 =>
        cases took
        exact ⟨rfl, .other id (.closeQueue rfl)⟩
    | n + 3 => cases took
  rests n took := by
    match n with
    | 0 | 1 | 2 => cases took
    | n + 3 => rfl

theorem interruptedRun_fair : interruptedRun.Fair ofMain := by
  intro n enabled
  obtain ⟨l, ⟨server, backlog, given⟩, own, _, taken⟩ := enabled (n + 3) (Nat.le_add_right n 3)
  change IntakeStep (interrupted (Function.update acceptedTable 3 none) (.joining 0) true) l _
    at taken
  exfalso
  rcases taken.server_step with ⟨rfl, _⟩ | ⟨act, rfl, moved⟩
  · exact own
  · cases moved with
    | enterPass at_ _ => cases at_
    | leaveLoop at_ _ => cases at_
    | mainCalls at_ _ => cases at_
    | endPass at_ => cases at_
    | mainStops at_ => cases at_
    | close at_ => cases at_
    | closeQueue at_ => cases at_
    | join _ at_ gone =>
        cases at_
        cases gone
    | joined all at_ =>
        cases at_
        exact all Nat.one_pos
    | _ => exact own

/-- A signal behind the first `accept` leads to `queue_close`. -/
theorem sigint_stops_intake_interrupted :
    (∀ g ∈ (interrupted acceptedTable .checking false).given, g.late = false ∧ g.after = false) ∧
      ∃ m, Shut (interruptedRun.state m) := by
  obtain ⟨safe, live⟩ := sigint_stops_intake (N := 1) (A := Unit)
  have meets : interruptedRun.Meets Unraced := by
    intro n l took
    match n with
    | 0 | 1 | 2 =>
        cases took
        trivial
    | n + 3 => cases took
  obtain ⟨m, _, shut⟩ :=
    live interruptedRun reachable_interrupted meets interruptedRun_fair 0 rfl
  exact ⟨(safe _ reachable_interrupted).1, m, shut⟩

/-- A signal while `main` is in `accept`: the connection that arrives next is
    accepted and queued. -/
theorem connection_after_sigint_is_queued :
    ∃ s : Intake 1 Unit, (intake 1 Unit).Reachable s ∧ s.server.stop = true ∧
      s.given = [⟨1, true, true⟩] ∧ s.server.queue = [⟨⟨0, 4⟩, 1⟩] := by
  have start : ((intake 1 Unit).only fun _ _ => True).Reachable (opening []) :=
    reachable_opening (by simp)
  have entered := reachable_other start rfl .main id (.enterPass rfl rfl) trivial
  have signalled := reachable_other entered rfl .sigint id .sigint trivial
  have arrived := signalled.step ⟨⟨rfl, .arrive⟩, trivial⟩
  have free : Lowest openingTable 4 := lowest_of (n := 4) rfl (by decide)
  have given := reachable_given (fun _ _ _ => trivial) arrived rfl free rfl rfl
  have queued := reachable_queued (fun _ _ _ => trivial) given rfl free.1 rfl
  exact ⟨_, queued.of_only, rfl, rfl, rfl⟩

end SysProg.Proxy
