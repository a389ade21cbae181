import SysProg.M9.TaskLog

/-! # Where the threads of the request server can stand

What holds of `main` and the workers whatever is enqueued, with NULL for a
request whose malloc failed: who is in which call, what is still ahead of the
queue, and that nobody sleeps who should not.
-/

namespace SysProg.M9

open CString Heap Monitor Fifo Transition

variable {N : Nat} {α : Type}

/-! ## The calls -/

/-- The calls that `main` makes, and those that workers make. -/
def Own : Thread N → Fifo.Op (Option α) → Prop
  | .main, op => op ≠ .dequeue
  | .worker _, op => op = .dequeue

/-- Who is in which call, who sleeps and who broadcasts. -/
structure Calls (a : FifoState N α) : Prop where
  own : ∀ t op, (a.phase t).op? = some op → Own t op
  sleeps : ∀ t op, a.phase t = .asleep op → t ≠ .main
  owes : ∀ t r, a.phase t = .signalling r → t = .main

/-- One thread changes its phase, perhaps waking the others. -/
theorem Calls.update {a : FifoState N α} {t : Thread N}
    {p : Phase (Fifo.Op (Option α)) (Returned α)}
    {phase shared} (calls : Calls a)
    (others : ∀ u, phase u = a.phase u ∨ phase u = (a.phase u).wake)
    (own : ∀ op, p.op? = some op → Own t op) (sleeps : ∀ op, p = .asleep op → t ≠ .main)
    (owes : ∀ r, p = .signalling r → t = .main) :
    Calls ⟨shared, Function.update phase t p⟩ where
  own u op now := by
    by_cases same : u = t
    · subst same
      exact own op (by simpa using now)
    · apply calls.own u op
      rcases others u with is | is <;> simpa [same, is] using now
  sleeps u op now := by
    by_cases same : u = t
    · subst same
      exact sleeps op (by simpa using now)
    · rcases others u with is | is
      · exact calls.sleeps u op (by simpa [same, is] using now)
      · simp [same, is] at now
  owes u r now := by
    by_cases same : u = t
    · subst same
      exact owes r (by simpa using now)
    · apply calls.owes u r
      rcases others u with is | is <;> simpa [same, is] using now

theorem Calls.step {a a' : FifoState N α} {l} (calls : Calls a) (ran : Step fifoCode a l a')
    (enters : ∀ t c, l = .enter t c → Own t c) : Calls a' := by
  have same : ∀ u, a.phase u = a.phase u ∨ a.phase u = (a.phase u).wake := fun u => .inl rfl
  cases ran with
  | enter outside work =>
      cases work
      exact calls.update same (by simpa using enters _ _ rfl) (by simp) (by simp)
  | leave lock ran => exact calls.update same (by simp) (by simp) (by simp)
  | leaveWaking lock ran => exact calls.update (fun u => .inr rfl) (by simp) (by simp) (by simp)
  | @leaveOwing t op shared r lock ran =>
      have own := calls.own t op lock.op?
      refine calls.update same (by simp) (by simp) fun _ _ => ?_
      cases t with
      | main => rfl
      | worker i =>
          obtain rfl : op = .dequeue := own
          cases items : a.shared.items with
          | nil => cases closed : a.shared.closed <;> simp [fifoCode, items, closed] at ran
          | cons x xs => simp [fifoCode, items] at ran
  | @wait t op lock ran =>
      have own := calls.own t op lock.op?
      refine calls.update same (fun op' now => ?_) (fun _ _ main => ?_) (by simp)
      · obtain rfl : op = op' := by simpa using now
        exact own
      · subst main
        cases op with
        | enqueue x => simp [fifoCode] at ran
        | close => simp [fifoCode] at ran
        | dequeue => exact own rfl
  | broadcast owes => exact calls.update (fun u => .inr rfl) (by simp) (by simp) (by simp)
  | @spurious t op asleep =>
      refine calls.update same (fun op' now => ?_) (by simp) (by simp)
      exact calls.own t op' (by rw [asleep]; exact now)

/-- Where every thread can stand, whatever is enqueued. -/
structure Orderly (plan : List (Option α)) (s : Server N α) (a : FifoState N α) : Prop where
  sim : Sim s.mon a
  attended : Attended ready s.mon
  calls : Calls a
  starting : ∀ i requests, s.main = .creating i requests → ∃ last, a.phase .main = .idle last
  closing : s.main.finished → (a.phase .main).op? = some .close ∨ a.shared.closed = true
  ahead : a.shared.items ++ linkedBy (a.phase .main).op? ++ s.main.rest <:+ plan
  calling : ∀ i req, s.worker i = .calling req → some req ∈ plan
  born : ∀ j : Fin N, s.worker j = .unborn → ∃ i requests, s.main = .creating i requests ∧ i ≤ j

namespace Orderly

variable {plan : List (Option α)} {s : Server N α} {a a' : FifoState N α}

theorem init {heap header} :
    Orderly plan
      ({ mon := ⟨queueInit heap header, fun _ => .idle none⟩
         main := .creating 0 plan
         worker := fun _ => .unborn
         enqueued := [], taken := [], called := [], freed := [] } : Server N α)
      ⟨Fifo.empty, fun _ => .idle none⟩ where
  sim := .init rfl fun _ => rfl
  attended t op asleep := by cases asleep
  calls := ⟨by simp, by simp, by simp⟩
  starting i requests _ := ⟨none, rfl⟩
  closing finished := finished.elim
  ahead := by simp [Fifo.empty, MainPc.rest]
  calling _ _ now := by cases now
  born j _ := ⟨0, plan, rfl, Nat.zero_le _⟩

/-- A step that moves only `main` and the workers. -/
theorem move {main : MainPc α} {worker : Fin N → WorkerPc α} {enqueued taken called freed}
    (orderly : Orderly plan s a)
    (starting : ∀ i requests, main = .creating i requests → ∃ last, a.phase .main = .idle last)
    (closing : main.finished → (a.phase .main).op? = some .close ∨ a.shared.closed = true)
    (rest : main.rest = s.main.rest) (calling : ∀ i req, worker i = .calling req → some req ∈ plan)
    (born : ∀ j : Fin N, worker j = .unborn → ∃ i requests, main = .creating i requests ∧ i ≤ j) :
    Orderly plan ⟨s.mon, main, worker, enqueued, taken, called, freed⟩ a where
  sim := orderly.sim
  attended := orderly.attended
  calls := orderly.calls
  starting := starting
  closing := closing
  ahead := by
    rw [rest]
    exact orderly.ahead
  calling := calling
  born := born

/-- A worker's step in the monitor takes from the queue, and leaves `main` alone. -/
theorem worker_step {i : Fin N} {l mon} (orderly : Orderly plan s a) (sim : Sim mon a')
    (attended : Attended ready mon) (ran : Step fifoCode a l a') (mover : l.thread = .worker i)
    (enters : ∀ t c, l = .enter t c → Own t c) : Orderly plan { s with mon := mon } a' := by
  have other : Thread.main ≠ l.thread := by simp [mover]
  have stays := ran.op?_of_ne other
  have shared : a'.shared.items <:+ a.shared.items ∧ a'.shared.closed = a.shared.closed := by
    cases ran with
    | enter outside work =>
        cases work
        exact ⟨List.suffix_refl _, rfl⟩
    | @leave t op shared r lock ran =>
        obtain rfl : t = .worker i := mover
        obtain rfl : op = .dequeue := orderly.calls.own _ op lock.op?
        cases items : a.shared.items with
        | nil => cases closed : a.shared.closed <;> simp [fifoCode, items, closed] at ran
        | cons x xs =>
            simp only [fifoCode, items, Option.some.injEq, Exit.leave.injEq] at ran
            obtain ⟨rfl, _⟩ := ran
            simp
    | @leaveWaking t op shared r lock ran =>
        obtain rfl : t = .worker i := mover
        obtain rfl : op = .dequeue := orderly.calls.own _ op lock.op?
        cases items : a.shared.items with
        | cons x xs => simp [fifoCode, items] at ran
        | nil =>
            cases closed : a.shared.closed with
            | false => simp [fifoCode, items, closed] at ran
            | true =>
                simp only [fifoCode, items, closed, Option.some.injEq,
                  Exit.leaveWaking.injEq] at ran
                obtain ⟨rfl, _⟩ := ran
                simp [items, closed]
    | @leaveOwing t op shared r lock ran =>
        obtain rfl : t = .worker i := mover
        obtain rfl : op = .dequeue := orderly.calls.own _ op lock.op?
        cases items : a.shared.items with
        | nil => cases closed : a.shared.closed <;> simp [fifoCode, items, closed] at ran
        | cons x xs => simp [fifoCode, items] at ran
    | wait | broadcast | spurious => exact ⟨List.suffix_refl _, rfl⟩
  exact
    { sim := sim
      attended := attended
      calls := orderly.calls.step ran enters
      starting := fun k requests at_ => by
        obtain ⟨last, idle⟩ := orderly.starting k requests at_
        refine ⟨last, ?_⟩
        rcases ran.others other with is | is <;> simp [is, idle]
      closing := fun finished => by
        rw [stays, shared.2]
        exact orderly.closing finished
      ahead := by
        obtain ⟨gone, items⟩ := shared.1
        rw [stays]
        refine List.IsSuffix.trans ⟨gone, ?_⟩ orderly.ahead
        simp only [← items, List.append_assoc]
      calling := orderly.calling
      born := orderly.born }

/-- `main` enters `queue_enqueue` or `queue_close`. -/
theorem enter {c : Fifo.Op (Option α)} {main : MainPc α} {mon} (orderly : Orderly plan s a)
    (sim : Sim mon a') (attended : Attended ready mon) (ran : Step fifoCode a (.enter .main c) a')
    (own : c ≠ .dequeue) (started : ∀ i requests, s.main ≠ .creating i requests)
    (going : ∀ i requests, main ≠ .creating i requests)
    (closing : main.finished → c = .close)
    (rest : linkedBy (some c) ++ main.rest = s.main.rest) :
    Orderly plan { s with mon := mon, main := main } a' := by
  have calls := orderly.calls.step ran (by rintro t c' ⟨⟩; exact own)
  cases ran with
  | enter outside work =>
      cases work
      exact
        { sim := sim
          attended := attended
          calls := calls
          starting := fun i requests at_ => absurd at_ (going i requests)
          closing := fun finished => .inl (by simp [closing finished])
          ahead := by
            have ahead := orderly.ahead
            rw [outside, ← rest] at ahead
            simpa using ahead
          calling := orderly.calling
          born := fun j unborn => by
            obtain ⟨i, requests, at_, _⟩ := orderly.born j unborn
            exact absurd at_ (started i requests) }

/-- `main` runs its section. -/
theorem acquireMain {mon enqueued} (orderly : Orderly plan s a) (sim : Sim mon a')
    (attended : Attended ready mon) (ran : Step fifoCode a (.acquire .main) a') :
    Orderly plan { s with mon := mon, enqueued := enqueued } a' := by
  have calls := orderly.calls.step ran (by simp)
  obtain ⟨op, inside, _⟩ := ran.op?_acquire
  have notCreating : ∀ i requests, s.main ≠ .creating i requests := by
    intro i requests at_
    obtain ⟨last, idle⟩ := orderly.starting i requests at_
    simp [idle] at inside
  have own : op ≠ .dequeue := orderly.calls.own _ op inside
  have settled : a'.shared.items = a.shared.items ++ linkedBy (some op) ∧
      (a'.phase .main).op? = none ∧
        (op = .close ∨ a.shared.closed = true → a'.shared.closed = true) := by
    cases ran with
    | @leave _ op' _ _ lock ran | @leaveWaking _ op' _ _ lock ran | @wait _ op' lock ran =>
        obtain rfl : op = op' := by simpa [lock.op?] using inside.symm
        cases op with
        | enqueue x => simp [fifoCode] at ran
        | close => simp [fifoCode] at ran
        | dequeue => exact absurd rfl own
    | @leaveOwing _ op' shared r lock ran =>
        obtain rfl : op = op' := by simpa [lock.op?] using inside.symm
        cases op with
        | dequeue => exact absurd rfl own
        | enqueue x =>
            simp only [fifoCode, Option.some.injEq, Exit.leaveOwing.injEq] at ran
            obtain ⟨rfl, _⟩ := ran
            simp
        | close =>
            simp only [fifoCode, Option.some.injEq, Exit.leaveOwing.injEq] at ran
            obtain ⟨rfl, _⟩ := ran
            simp
  obtain ⟨items, outside, closed⟩ := settled
  exact
    { sim := sim
      attended := attended
      calls := calls
      starting := fun i requests at_ => absurd at_ (notCreating i requests)
      closing := fun finished => .inr (closed (by
        rcases orderly.closing finished with is | shut
        · rw [inside, Option.some.injEq] at is
          exact .inl is
        · exact .inr shut))
      ahead := by
        have ahead := orderly.ahead
        rw [inside] at ahead
        simpa [outside, items] using ahead
      calling := orderly.calling
      born := orderly.born }

/-- `main` executes its broadcast. -/
theorem broadcastMain {mon} (orderly : Orderly plan s a) (sim : Sim mon a')
    (attended : Attended ready mon) (ran : Step fifoCode a (.broadcast .main) a') :
    Orderly plan { s with mon := mon } a' := by
  have calls := orderly.calls.step ran (by simp)
  cases ran with
  | @broadcast _ r owes =>
      exact
        { sim := sim
          attended := attended
          calls := calls
          starting := fun i requests at_ => ⟨some r, by simp⟩
          closing := fun finished => .inr (by
            rcases orderly.closing finished with is | shut
            · simp [owes] at is
            · exact shut)
          ahead := by
            have ahead := orderly.ahead
            simpa [owes] using ahead
          calling := orderly.calling
          born := orderly.born }

/-- What a dequeue hands over was in the queue. -/
theorem delivered {i : Fin N} {req : α} (orderly : Orderly plan s a)
    (ran : Step fifoCode a (.acquire (.worker i)) a')
    (result : a'.phase (.worker i) = .idle (some (.pointer (some req)))) : some req ∈ plan := by
  suffices here : some req ∈ a.shared.items by
    refine orderly.ahead.subset ?_
    simp [here]
  cases ran with
  | @leave _ op shared r lock ran =>
      obtain rfl : op = .dequeue := orderly.calls.own _ op lock.op?
      simp only [Function.update_self, Phase.idle.injEq, Option.some.injEq] at result
      subst result
      cases items : a.shared.items with
      | nil => cases closed : a.shared.closed <;> simp [fifoCode, items, closed] at ran
      | cons x xs =>
          simp only [fifoCode, items] at ran
          cases ran
          exact List.mem_cons_self
  | @leaveWaking _ op shared r lock ran =>
      obtain rfl : op = .dequeue := orderly.calls.own _ op lock.op?
      simp only [Function.update_self, Phase.idle.injEq, Option.some.injEq] at result
      subst result
      cases items : a.shared.items with
      | nil => cases closed : a.shared.closed <;> simp [fifoCode, items, closed] at ran
      | cons x xs => simp [fifoCode, items] at ran
  | leaveOwing | wait => simp at result

/-- Behind the creation nobody is unborn. -/
theorem grown (orderly : Orderly plan s a) (later : ∀ i requests, s.main ≠ .creating i requests)
    (j : Fin N) : s.worker j ≠ .unborn := by
  intro unborn
  obtain ⟨i, requests, at_, _⟩ := orderly.born j unborn
  exact later i requests at_

/-- A worker whose dequeue has returned goes on with what it got. -/
theorem deliver {i : Fin N} {p} (orderly : Orderly plan s a)
    (planned : ∀ req, p = .idle (some (.pointer (some req))) → some req ∈ plan) :
    Orderly plan (s.deliver i p) a := by
  unfold Server.deliver
  split
  · rename_i req
    have got := planned req rfl
    exact orderly.move orderly.starting orderly.closing rfl
      (fun j req now => by
        have before := orderly.calling j req
        grind)
      fun j unborn => orderly.born j (by grind)
  · exact orderly.move orderly.starting orderly.closing rfl
      (fun j req now => orderly.calling j req (by grind)) fun j unborn => orderly.born j (by grind)
  · exact orderly

theorem step {act s'} (orderly : Orderly plan s a) (taken : ServerStep s act s') :
    ∃ a', Orderly plan s' a' := by
  cases taken with
  | @create i requests more at_ =>
      refine ⟨a, orderly.move (fun _ _ _ => orderly.starting i requests at_) False.elim
        (by simp [at_, MainPc.rest]) (fun j req now => orderly.calling j req (by grind)) ?_⟩
      intro j unborn
      by_cases same : j = ⟨i, more⟩
      · simp [same] at unborn
      · obtain ⟨k, requests', at', below⟩ := orderly.born j (by simpa [same] using unborn)
        rw [at_] at at'
        cases at'
        refine ⟨_, _, rfl, ?_⟩
        have ne : (j : Nat) ≠ i := fun is => same (Fin.ext is)
        omega
  | @created i requests done at_ =>
      refine ⟨a, orderly.move (by simp) False.elim (by simp [at_, MainPc.rest]) orderly.calling ?_⟩
      intro j unborn
      obtain ⟨k, requests', at', below⟩ := orderly.born j unborn
      rw [at_] at at'
      cases at'
      exact absurd (Nat.lt_of_le_of_lt below j.isLt) done
  | produce at_ ran =>
      obtain ⟨a', ran', sim'⟩ := orderly.sim.step ran
      exact ⟨a', orderly.enter sim' (queueCode_wakes.step orderly.attended ran) ran'
        (by simp [QueueOp.abstract]) (by simp [at_]) (by simp) False.elim
        (by simp [at_, MainPc.rest, QueueOp.abstract])⟩
  | close at_ ran =>
      obtain ⟨a', ran', sim'⟩ := orderly.sim.step ran
      exact ⟨a', orderly.enter sim' (queueCode_wakes.step orderly.attended ran) ran'
        (by simp [QueueOp.abstract]) (by simp [at_]) (by simp) (fun _ => rfl)
        (by simp [at_, MainPc.rest, QueueOp.abstract])⟩
  | join more at_ quiet exited =>
      exact ⟨a, orderly.move (by simp) (fun _ => orderly.closing (by rw [at_]; trivial))
        (by simp [at_, MainPc.rest]) orderly.calling
        fun j unborn => absurd unborn (orderly.grown (by simp [at_]) j)⟩
  | joined done at_ quiet =>
      exact ⟨a, orderly.move (by simp) (fun _ => orderly.closing (by rw [at_]; trivial))
        (by simp [at_, MainPc.rest]) orderly.calling
        fun j unborn => absurd unborn (orderly.grown (by simp [at_]) j)⟩
  | fetch at_ ran =>
      obtain ⟨a', ran', sim'⟩ := orderly.sim.step ran
      refine ⟨a', orderly.worker_step sim' (queueCode_wakes.step orderly.attended ran) ran' rfl ?_⟩
      rintro t c ⟨⟩
      rfl
  | call at_ | free at_ =>
      exact ⟨a, orderly.move orderly.starting orderly.closing rfl
        (fun j req now => orderly.calling j req (by grind))
        fun j unborn => orderly.born j (by grind)⟩
  | acquireMain ran =>
      obtain ⟨a', ran', sim'⟩ := orderly.sim.step ran
      exact ⟨a', orderly.acquireMain sim' (queueCode_wakes.step orderly.attended ran) ran'⟩
  | @acquireWorker i mon ran =>
      obtain ⟨a', ran', sim'⟩ := orderly.sim.step ran
      have moved := orderly.worker_step sim' (queueCode_wakes.step orderly.attended ran) ran' rfl
        (by simp [Label.map])
      exact ⟨a', moved.deliver fun req result =>
        orderly.delivered ran' (by simp [sim'.phases, result, Phase.map])⟩
  | @broadcast t mon ran =>
      obtain ⟨a', ran', sim'⟩ := orderly.sim.step ran
      have attended := queueCode_wakes.step orderly.attended ran
      cases t with
      | main => exact ⟨a', orderly.broadcastMain sim' attended ran'⟩
      | worker i => exact ⟨a', orderly.worker_step sim' attended ran' rfl (by simp [Label.map])⟩
  | @spurious t mon ran =>
      obtain ⟨a', ran', sim'⟩ := orderly.sim.step ran
      have attended := queueCode_wakes.step orderly.attended ran
      cases t with
      | main =>
          cases ran' with
          | spurious asleep => exact absurd rfl (orderly.calls.sleeps _ _ asleep)
      | worker i => exact ⟨a', orderly.worker_step sim' attended ran' rfl (by simp [Label.map])⟩

theorem reachable (reach : (requestServer N plan).Reachable s) : ∃ a, Orderly plan s a := by
  induction reach with
  | init start =>
      obtain ⟨heap, header, rfl⟩ := start
      exact ⟨_, init⟩
  | step _ taken ih =>
      obtain ⟨a, orderly⟩ := ih
      exact orderly.step taken

end Orderly

end SysProg.M9
