import SysProg.Lib.Transition

/-! # A thread that waits for another

In `cv_simple` thread A sleeps on a condition variable until thread B has done its
work.  It goes to sleep before it looks at the flag for the first time, so that it
can miss the signal.
-/

namespace SysProg.Book

open Transition

/-- `workerA`; between its lock and its unlock it holds the mutex, unless it sleeps or
    has been woken and waits for the mutex. -/
inductive APc where
  | start
  | locked
  | asleep
  | woken
  | rechecking
  | leaving
  | finished
  deriving DecidableEq

/-- `workerB` -/
inductive BPc where
  | working
  | locked
  | flagged
  | signalled
  | finished
  deriving DecidableEq

structure Pair where
  a : APc
  b : BPc
  gWorkDone : Bool
  deriving DecidableEq

def APc.Holds (a : APc) : Prop := a = .locked ∨ a = .rechecking ∨ a = .leaving

def BPc.Holds (b : BPc) : Prop := b = .locked ∨ b = .flagged ∨ b = .signalled

/-- The effect of `pthread_cond_signal` on A. -/
def APc.wake : APc → APc
  | .asleep => .woken
  | a => a

inductive Who where
  | a
  | b
  /-- A wakes without a signal. -/
  | spurious
  deriving DecidableEq

inductive PairStep : Pair → Who → Pair → Prop where
  | lock {s : Pair} : s.a = .start → ¬ s.b.Holds → PairStep s .a { s with a := .locked }
  | wait {s : Pair} : s.a = .locked → PairStep s .a { s with a := .asleep }
  | relock {s : Pair} : s.a = .woken → ¬ s.b.Holds → PairStep s .a { s with a := .rechecking }
  | done {s : Pair} : s.a = .rechecking → s.gWorkDone = true →
      PairStep s .a { s with a := .leaving }
  | again {s : Pair} : s.a = .rechecking → s.gWorkDone = false →
      PairStep s .a { s with a := .locked }
  | unlock {s : Pair} : s.a = .leaving → PairStep s .a { s with a := .finished }
  | spurious {s : Pair} : s.a = .asleep → PairStep s .spurious { s with a := .woken }
  | lockB {s : Pair} : s.b = .working → ¬ s.a.Holds → PairStep s .b { s with b := .locked }
  | flag {s : Pair} : s.b = .locked → PairStep s .b { s with b := .flagged, gWorkDone := true }
  | signal {s : Pair} : s.b = .flagged → PairStep s .b { s with a := s.a.wake, b := .signalled }
  | unlockB {s : Pair} : s.b = .signalled → PairStep s .b { s with b := .finished }

def cvSimple : System Pair Who where
  init s := s = ⟨.start, .working, false⟩
  step := PairStep

/-- The threads without spurious wakeups. -/
def cvSignalled : System Pair Who := cvSimple.only fun _ l => l ≠ .spurious

/-- A sleeps, and the signal is still to come. -/
def Pair.InTime (s : Pair) : Prop :=
  s.a = .asleep ∧ (s.b = .working ∨ s.b = .locked ∨ s.b = .flagged)

/-- A has been woken. -/
def APc.Awake (a : APc) : Prop := a = .woken ∨ a = .rechecking ∨ a = .leaving ∨ a = .finished

/-- Without spurious wakeups A is only woken by the signal, behind the work, and one
    thread at a time has the mutex. -/
structure Signalled (s : Pair) : Prop where
  alone : ¬ (s.a.Holds ∧ s.b.Holds)
  flag : s.b = .flagged ∨ s.b = .signalled ∨ s.b = .finished → s.gWorkDone = true
  awake : s.a.Awake → s.b = .signalled ∨ s.b = .finished

variable {s s' : Pair} {l : Who}

theorem Signalled.step (signalled : Signalled s) (taken : PairStep s l s') (sound : l ≠ .spurious) :
    Signalled s' := by
  obtain ⟨alone, flag, awake⟩ := signalled
  cases taken with
  | lock at_ free => exact ⟨fun both => free both.2, flag, by simp [APc.Awake]⟩
  | wait at_ => exact ⟨by simp [APc.Holds], flag, by simp [APc.Awake]⟩
  | relock at_ free => exact ⟨fun both => free both.2, flag, fun _ => awake (.inl at_)⟩
  | done at_ _ =>
      exact ⟨fun both => alone ⟨.inr (.inl at_), both.2⟩, flag, fun _ => awake (.inr (.inl at_))⟩
  | again at_ _ => exact ⟨fun both => alone ⟨.inr (.inl at_), both.2⟩, flag, by simp [APc.Awake]⟩
  | unlock at_ => exact ⟨by simp [APc.Holds], flag, fun _ => awake (.inr (.inr (.inl at_)))⟩
  | spurious => exact absurd rfl sound
  | lockB at_ free =>
      refine ⟨fun both => free both.1, by simp, fun up => ?_⟩
      simpa [at_] using awake up
  | flag at_ =>
      refine ⟨fun both => alone ⟨both.1, .inl at_⟩, fun _ => rfl, fun up => ?_⟩
      simpa [at_] using awake up
  | signal at_ =>
      refine ⟨fun both => ?_, fun _ => flag (.inl at_), fun _ => .inl rfl⟩
      refine alone ⟨?_, .inr (.inl at_)⟩
      have holds := both.1
      cases here : s.a <;> simp [here, APc.wake, APc.Holds] at holds ⊢
  | unlockB at_ => exact ⟨by simp [BPc.Holds], fun _ => flag (.inr (.inl at_)), fun _ => .inr rfl⟩

/-- The steps that each thread has before it. -/
def Pair.rank (s : Pair) : Nat :=
  (match s.a with
    | .start => 6
    | .locked => 5
    | .asleep => 4
    | .woken => 3
    | .rechecking => 2
    | .leaving => 1
    | .finished => 0) +
  match s.b with
    | .working => 4
    | .locked => 3
    | .flagged => 2
    | .signalled => 1
    | .finished => 0

theorem Signalled.rank_lt (signalled : Signalled s) (taken : PairStep s l s')
    (sound : l ≠ .spurious) : s'.rank < s.rank := by
  cases taken with
  | lock at_ _ | wait at_ | relock at_ _ | done at_ _ | unlock at_ => simp [Pair.rank, at_]
  | again at_ undone =>
      -- woken by the signal, A finds the flag set
      have done := signalled.flag (.inr (signalled.awake (.inr (.inl at_))))
      rw [undone] at done
      cases done
  | spurious => exact absurd rfl sound
  | lockB at_ _ | flag at_ | unlockB at_ => simp [Pair.rank, at_]
  | signal at_ => cases here : s.a <;> simp [Pair.rank, at_, here, APc.wake]

/-- A step can be taken until B is over, and A as well or asleep. -/
theorem enabled_of_more (more : ¬ (s.b = .finished ∧ (s.a = .finished ∨ s.a = .asleep))) :
    Enabled cvSignalled (fun _ => True) s := by
  have goesA : ∀ {s'}, PairStep s .a s' → Enabled cvSignalled (fun _ => True) s :=
    fun taken => ⟨_, _, trivial, taken, by simp⟩
  have goesB : ∀ {s'}, PairStep s .b s' → Enabled cvSignalled (fun _ => True) s :=
    fun taken => ⟨_, _, trivial, taken, by simp⟩
  cases b : s.b with
  | locked => exact goesB (.flag b)
  | flagged => exact goesB (.signal b)
  | signalled => exact goesB (.unlockB b)
  | working | finished =>
      have free : ¬ s.b.Holds := by simp [b, BPc.Holds]
      cases a : s.a with
      | start => exact goesA (.lock a free)
      | locked => exact goesA (.wait a)
      | woken => exact goesA (.relock a free)
      | leaving => exact goesA (.unlock a)
      | rechecking =>
          cases done : s.gWorkDone with
          | true => exact goesA (.done a done)
          | false => exact goesA (.again a done)
      | asleep | finished =>
          have other : ¬ s.a.Holds := by simp [a, APc.Holds]
          have working : s.b = .working := by
            by_contra busy
            exact more (by simp_all)
          exact goesB (.lockB working other)

/-- Once A sleeps in time it goes on sleeping in time, or is awake for good. -/
theorem caught_step (signalled : Signalled s) (taken : PairStep s l s') (sound : l ≠ .spurious)
    (caught : s.InTime ∨ s.a.Awake) : s'.InTime ∨ s'.a.Awake := by
  cases taken with
  | lock at_ _ | wait at_ => simp [Pair.InTime, APc.Awake, at_] at caught
  | relock | done | unlock => exact .inr (by simp [APc.Awake])
  | again at_ undone =>
      have done := signalled.flag (.inr (signalled.awake (.inr (.inl at_))))
      rw [undone] at done
      cases done
  | spurious => exact absurd rfl sound
  | lockB at_ _ => exact caught.imp (fun in_ => ⟨in_.1, .inr (.inl rfl)⟩) id
  | flag at_ => exact caught.imp (fun in_ => ⟨in_.1, .inr (.inr rfl)⟩) id
  | signal at_ =>
      right
      rcases caught with in_ | up
      · simp [in_.1, APc.wake, APc.Awake]
      · rcases up with here | here | here | here <;> simp [here, APc.wake, APc.Awake]
  | unlockB at_ => exact caught.imp (fun in_ => by simp [Pair.InTime, at_] at in_) id

/-- A is only woken if it sleeps in time. -/
theorem awake_step (taken : PairStep s l s') (sound : l ≠ .spurious) (up : s'.a.Awake) :
    s.InTime ∨ s.a.Awake := by
  cases taken with
  | lock | wait | again => simp [APc.Awake] at up
  | relock at_ _ | done at_ _ | unlock at_ => exact .inr (by simp [APc.Awake, at_])
  | spurious => exact absurd rfl sound
  | lockB | flag | unlockB => exact .inr up
  | signal at_ =>
      by_cases asleep : s.a = .asleep
      · exact .inl ⟨asleep, .inr (.inr at_)⟩
      · right
        cases here : s.a <;> simp [here, APc.wake, APc.Awake] at up asleep ⊢

variable {run : Run cvSignalled}

theorem run_signalled (start : cvSimple.init (run.state 0)) (n : Nat) :
    Signalled (run.state n) := by
  induction n with
  | zero =>
      rw [show run.state 0 = _ from start]
      exact ⟨by simp [APc.Holds], by simp, by simp [APc.Awake]⟩
  | succ n ih =>
      cases took : run.taken n with
      | none => rwa [run.rests n took]
      | some l => exact ih.step (run.moves n l took).1 (run.moves n l took).2

theorem run_settles (start : cvSimple.init (run.state 0)) (fair : run.Fair fun _ => True) :
    ∃ n, (run.state n).b = .finished ∧
      ((run.state n).a = .finished ∨ (run.state n).a = .asleep) := by
  refine Run.Fair.terminates (Q := fun s => s.b = .finished ∧ (s.a = .finished ∨ s.a = .asleep))
    (wellFounded_lt : WellFounded fun x y : Nat => x < y) Pair.rank fair (run_signalled start) ?_ ?_
    ⟨0, fun _ _ _ _ => trivial⟩
  · exact fun s _ more => enabled_of_more more
  · exact fun s l s' signalled _ taken => signalled.rank_lt taken.1 taken.2

theorem run_caught (start : cvSimple.init (run.state 0)) {n m : Nat} (in_ : (run.state n).InTime)
    (later : n ≤ m) : (run.state m).InTime ∨ (run.state m).a.Awake := by
  induction m, later using Nat.le_induction with
  | base => exact .inl in_
  | succ m _ ih =>
      cases took : run.taken m with
      | none => rwa [run.rests m took]
      | some l =>
          exact caught_step (run_signalled start m) (run.moves m l took).1 (run.moves m l took).2 ih

theorem run_awake (start : cvSimple.init (run.state 0)) {n : Nat} (up : (run.state n).a.Awake) :
    ∃ m, (run.state m).InTime := by
  induction n with
  | zero =>
      rw [show run.state 0 = _ from start] at up
      simp [APc.Awake] at up
  | succ n ih =>
      cases took : run.taken n with
      | none =>
          rw [run.rests n took] at up
          exact ih up
      | some l =>
          rcases awake_step (run.moves n l took).1 (run.moves n l took).2 up with in_ | before
          · exact ⟨n, in_⟩
          · exact ih before

/-- With B over and A asleep nothing moves. -/
theorem not_step (asleep : s.a = .asleep) (finished : s.b = .finished) (sound : l ≠ .spurious) :
    ¬ PairStep s l s' := by
  intro taken
  cases taken with
  | spurious => exact sound rfl
  | lock at_ _ | wait at_ | relock at_ _ | done at_ _ | again at_ _ | unlock at_ =>
      rw [asleep] at at_
      cases at_
  | lockB at_ _ | flag at_ | signal at_ | unlockB at_ =>
      rw [finished] at at_
      cases at_

theorem run_stays {n m : Nat} (asleep : (run.state n).a = .asleep)
    (finished : (run.state n).b = .finished)
    (later : n ≤ m) : (run.state m).a = .asleep ∧ (run.state m).b = .finished := by
  induction m, later using Nat.le_induction with
  | base => exact ⟨asleep, finished⟩
  | succ m _ ih =>
      cases took : run.taken m with
      | none => rwa [run.rests m took]
      | some l =>
          obtain ⟨taken, sound⟩ := run.moves m l took
          exact absurd taken (not_step ih.1 ih.2 sound)

/-- Without spurious wakeups A comes to its end exactly when it falls asleep before B
    signals, and otherwise sleeps forever. -/
theorem cvSimple_ends_iff (start : cvSimple.init (run.state 0)) (fair : run.Fair fun _ => True) :
    ((∃ n, (run.state n).a = .finished) ↔ ∃ n, (run.state n).InTime) ∧
    ((∀ n, ¬ (run.state n).InTime) →
      ∃ n, ∀ m, n ≤ m → (run.state m).a = .asleep ∧ (run.state m).b = .finished) := by
  obtain ⟨k, overB, settled⟩ := run_settles start fair
  refine ⟨⟨?_, ?_⟩, fun never => ?_⟩
  · rintro ⟨n, finished⟩
    exact run_awake start (n := n) (by simp [finished, APc.Awake])
  · rintro ⟨n, in_⟩
    rcases settled with finished | asleep
    · exact ⟨k, finished⟩
    · exfalso
      rcases Nat.le_total n k with later | earlier
      · rcases run_caught start in_ later with still | up
        · simp [Pair.InTime, overB] at still
        · simp [APc.Awake, asleep] at up
      · have still := in_.2
        simp [(run_stays asleep overB earlier).2] at still
  · refine ⟨k, fun m later => run_stays ?_ overB later⟩
    rcases settled with finished | asleep
    · obtain ⟨n, in_⟩ := run_awake start (n := k) (by simp [finished, APc.Awake])
      exact absurd in_ (never n)
    · exact asleep

/-- A falls asleep first, and both come to their end. -/
theorem exists_woken : ∃ acts,
    Steps cvSignalled (fun _ _ => True) ⟨.start, .working, false⟩ acts
      ⟨.finished, .finished, true⟩ := by
  have goes : ∀ {acts s l s'},
      Steps cvSignalled (fun _ _ => True) ⟨.start, .working, false⟩ acts s →
      PairStep s l s' → l ≠ .spurious →
      Steps cvSignalled (fun _ _ => True) ⟨.start, .working, false⟩ (acts ++ [l]) s' :=
    fun steps taken sound => steps.step ⟨taken, sound⟩ trivial
  have slept := goes (goes .start (.lock rfl (by simp [BPc.Holds])) nofun) (.wait rfl) nofun
  have locked := goes slept (.lockB rfl (by simp [APc.Holds])) nofun
  have signalled := goes (goes locked (.flag rfl) nofun) (.signal rfl) nofun
  have unlocked := goes signalled (.unlockB rfl) nofun
  have woken := goes unlocked (.relock rfl (by simp [BPc.Holds])) nofun
  exact ⟨_, goes (goes woken (.done rfl rfl) nofun) (.unlock rfl) nofun⟩

theorem finished_stuck :
    ¬ Enabled cvSignalled (fun _ => True) ⟨.finished, .finished, true⟩ := by
  rintro ⟨l, s', _, taken, _⟩
  cases taken with
  | lock at_ | wait at_ | relock at_ | done at_ | again at_ | unlock at_ | spurious at_ => cases at_
  | lockB at_ | flag at_ | signal at_ | unlockB at_ => cases at_

theorem cvSimple_ends_iff_woken : ∃ run : Run cvSignalled,
    cvSimple.init (run.state 0) ∧ (run.Fair fun _ => True) ∧
    (∃ n, (run.state n).a = .finished) ∧ ∃ n, (run.state n).InTime := by
  obtain ⟨acts, steps⟩ := exists_woken
  obtain ⟨run, begins, _, _, rest⟩ := steps.exists_run
  have fair := Run.fair_of_rest rest finished_stuck
  have finished : ∃ n, (run.state n).a = .finished := ⟨acts.length, by rw [rest _ le_rfl]⟩
  exact ⟨run, begins, fair, finished, (cvSimple_ends_iff begins fair).1.mp finished⟩

end SysProg.Book
