import Mathlib.Logic.Function.Basic
import SysProg.Lib.Transition

/-! # Monitors with one condition variable

Any number of threads share a state behind one mutex and wait on one condition
variable.  A call first does private work (`enter`), then runs its critical
section from the acquisition of the mutex to the unlock or to the wait
(`crit`).  A section may owe a broadcast that its thread executes only after
the unlock, so other threads run in between.  Releasing the mutex and falling
asleep is one step; a sleeper may wake without a broadcast.

`Wakes` is the discipline under which no wakeup is lost, and
`Wakes.no_lost_wakeup` is the invariant that follows from it.
-/

namespace SysProg.Monitor

open Transition

/-- How a critical section ends. -/
inductive Exit (σ ρ : Type) where
  /-- Unlock and return. -/
  | leave (shared : σ) (result : ρ)
  /-- Broadcast with the mutex held, unlock and return. -/
  | leaveWaking (shared : σ) (result : ρ)
  /-- Unlock; the broadcast comes after it. -/
  | leaveOwing (shared : σ) (result : ρ)
  /-- Release the mutex and sleep on the condition variable. -/
  | wait

/-- Where a thread stands with respect to the monitor. -/
inductive Phase (ω ρ : Type) where
  /-- Outside, with the result of its last call. -/
  | idle (last : Option ρ)
  /-- Called in, not yet holding the mutex. -/
  | entering (op : ω)
  /-- Asleep, no wakeup delivered. -/
  | asleep (op : ω)
  /-- Woken, not yet holding the mutex again. -/
  | woken (op : ω)
  /-- Unlocked, broadcast outstanding. -/
  | signalling (result : ρ)

namespace Phase

variable {ω ρ : Type}

/-- The thread is about to run the section of `op` as soon as it gets the mutex. -/
def AtLock (p : Phase ω ρ) (op : ω) : Prop := p = .entering op ∨ p = .woken op

/-- The effect of a broadcast on one thread. -/
def wake : Phase ω ρ → Phase ω ρ
  | .asleep op => .woken op
  | p => p

/-- The call in progress. -/
def op? : Phase ω ρ → Option ω
  | .entering op | .asleep op | .woken op => some op
  | .idle _ | .signalling _ => none

@[simp] theorem op?_idle (last : Option ρ) : (idle last : Phase ω ρ).op? = none := rfl
@[simp] theorem op?_entering (op : ω) : (entering op : Phase ω ρ).op? = some op := rfl
@[simp] theorem op?_asleep (op : ω) : (asleep op : Phase ω ρ).op? = some op := rfl
@[simp] theorem op?_woken (op : ω) : (woken op : Phase ω ρ).op? = some op := rfl
@[simp] theorem op?_signalling (r : ρ) : (signalling r : Phase ω ρ).op? = none := rfl

/-- Rename the calls in progress. -/
def map {ω' : Type} (f : ω → ω') : Phase ω ρ → Phase ω' ρ
  | .idle last => .idle last
  | .entering op => .entering (f op)
  | .asleep op => .asleep (f op)
  | .woken op => .woken (f op)
  | .signalling r => .signalling r

@[simp] theorem op?_wake (p : Phase ω ρ) : p.wake.op? = p.op? := by
  cases p <;> rfl

@[simp] theorem map_wake {ω' : Type} (f : ω → ω') (p : Phase ω ρ) :
    p.wake.map f = (p.map f).wake := by
  cases p <;> rfl

@[simp] theorem op?_map {ω' : Type} (f : ω → ω') (p : Phase ω ρ) :
    (p.map f).op? = p.op?.map f := by
  cases p <;> rfl

theorem map_eq_idle {ω' : Type} {f : ω → ω'} {p : Phase ω ρ} {last : Option ρ} :
    p.map f = .idle last ↔ p = .idle last := by
  cases p <;> simp [map]

theorem map_eq_asleep {ω' : Type} {f : ω → ω'} {p : Phase ω ρ} {op' : ω'}
    (asleep : p.map f = .asleep op') : ∃ op, p = .asleep op := by
  cases p <;> simp [map] at asleep ⊢

theorem AtLock.op? {p : Phase ω ρ} {op : ω} (lock : p.AtLock op) : p.op? = some op := by
  rcases lock with rfl | rfl <;> rfl

theorem AtLock.map {ω' : Type} {f : ω → ω'} {p : Phase ω ρ} {op : ω} (lock : p.AtLock op) :
    (p.map f).AtLock (f op) := by
  rcases lock with rfl | rfl
  · exact .inl rfl
  · exact .inr rfl

theorem wake_eq_self {p : Phase ω ρ} (awake : ∀ op, p ≠ .asleep op) : p.wake = p := by
  cases p with
  | asleep op => exact absurd rfl (awake op)
  | idle | entering | woken | signalling => rfl

@[simp] theorem wake_ne_asleep (p : Phase ω ρ) (op : ω) : p.wake ≠ .asleep op := by
  cases p <;> simp [wake]

@[simp] theorem wake_eq_idle {p : Phase ω ρ} {last} : p.wake = .idle last ↔ p = .idle last := by
  cases p <;> simp [wake]

@[simp] theorem wake_eq_entering {p : Phase ω ρ} {op} :
    p.wake = .entering op ↔ p = .entering op := by
  cases p <;> simp [wake]

@[simp] theorem wake_eq_signalling {p : Phase ω ρ} {r} :
    p.wake = .signalling r ↔ p = .signalling r := by
  cases p <;> simp [wake]

end Phase

/-- The two parts of a call: private work before the mutex, and the section
    run under it.  Both are undefined (`none`) where the code is. -/
structure Code (σ κ ω ρ : Type) where
  enter : κ → σ → Option (ω × σ)
  crit : ω → σ → Option (Exit σ ρ)

/-- The shared state and every thread's phase. -/
structure State (τ σ ω ρ : Type) where
  shared : σ
  phase : τ → Phase ω ρ

/-- Who moves, and what a thread calls when it enters. -/
inductive Label (τ κ : Type) where
  | enter (t : τ) (call : κ)
  | acquire (t : τ)
  | broadcast (t : τ)
  | spurious (t : τ)

/-- Rename what is called. -/
def Label.map {τ κ κ' : Type} (f : κ → κ') : Label τ κ → Label τ κ'
  | .enter t call => .enter t (f call)
  | .acquire t => .acquire t
  | .broadcast t => .broadcast t
  | .spurious t => .spurious t

/-- The thread that moves. -/
def Label.thread {τ κ : Type} : Label τ κ → τ
  | .enter t _ | .acquire t | .broadcast t | .spurious t => t

section

variable {τ σ κ ω ρ : Type} [DecidableEq τ]

/-- One thread moves. -/
inductive Step (M : Code σ κ ω ρ) : State τ σ ω ρ → Label τ κ → State τ σ ω ρ → Prop where
  | enter {s t last c op shared} : s.phase t = .idle last →
      M.enter c s.shared = some (op, shared) →
      Step M s (.enter t c) ⟨shared, Function.update s.phase t (.entering op)⟩
  | leave {s t op shared r} : (s.phase t).AtLock op →
      M.crit op s.shared = some (.leave shared r) →
      Step M s (.acquire t) ⟨shared, Function.update s.phase t (.idle (some r))⟩
  | leaveWaking {s t op shared r} : (s.phase t).AtLock op →
      M.crit op s.shared = some (.leaveWaking shared r) →
      Step M s (.acquire t)
        ⟨shared, Function.update (fun u => (s.phase u).wake) t (.idle (some r))⟩
  | leaveOwing {s t op shared r} : (s.phase t).AtLock op →
      M.crit op s.shared = some (.leaveOwing shared r) →
      Step M s (.acquire t) ⟨shared, Function.update s.phase t (.signalling r)⟩
  | wait {s t op} : (s.phase t).AtLock op →
      M.crit op s.shared = some .wait →
      Step M s (.acquire t) ⟨s.shared, Function.update s.phase t (.asleep op)⟩
  | broadcast {s t r} : s.phase t = .signalling r →
      Step M s (.broadcast t)
        ⟨s.shared, Function.update (fun u => (s.phase u).wake) t (.idle (some r))⟩
  | spurious {s t op} : s.phase t = .asleep op →
      Step M s (.spurious t) ⟨s.shared, Function.update s.phase t (.woken op)⟩

/-- All threads start outside, over a shared state that meets `start`. -/
def system (M : Code σ κ ω ρ) (start : σ → Prop) : System (State τ σ ω ρ) (Label τ κ) where
  init s := start s.shared ∧ ∀ t, s.phase t = .idle none
  step := Step M

/-- No call in progress can move on, unless a sleeper wakes for no reason. -/
def Stuck (M : Code σ κ ω ρ) (s : State τ σ ω ρ) : Prop :=
  ∀ l s', Step M s l s' → (∃ t call, l = .enter t call) ∨ ∃ t, l = .spurious t

/-- Sleepers wait for `ready`: a section sleeps only when it does not hold, and
    whatever makes it hold owes or executes a broadcast. -/
structure Wakes (M : Code σ κ ω ρ) (ready : σ → Prop) : Prop where
  waits : ∀ {op s}, M.crit op s = some .wait → ¬ ready s
  enters : ∀ {call s op s'}, M.enter call s = some (op, s') → ready s' → ready s
  leaves : ∀ {op s s' r}, M.crit op s = some (.leave s' r) → ready s' → ready s

/-- A sleeper without a wakeup either rightly waits or has a broadcast coming. -/
def Attended (ready : σ → Prop) (s : State τ σ ω ρ) : Prop :=
  ∀ t op, s.phase t = .asleep op → ¬ ready s.shared ∨ ∃ u r, s.phase u = .signalling r

variable {M : Code σ κ ω ρ} {ready : σ → Prop}

omit [DecidableEq τ] in
/-- A step that keeps the sleepers, the signallers and an unready state keeps
    the invariant. -/
private theorem Attended.keep {s s' : State τ σ ω ρ} (before : Attended ready s)
    (sleepers : ∀ u op, s'.phase u = .asleep op → s.phase u = .asleep op)
    (signallers : ∀ u r, s.phase u = .signalling r → s'.phase u = .signalling r)
    (unready : ready s'.shared → ready s.shared) : Attended ready s' := by
  intro t op asleep
  rcases before t op (sleepers t op asleep) with wait | ⟨u, r, owes⟩
  · exact .inl fun now => wait (unready now)
  · exact .inr ⟨u, r, signallers u r owes⟩

/-- After a broadcast nobody is asleep. -/
private theorem Attended.woken {phase : τ → Phase ω ρ} {shared : σ} {t : τ} {r : Option ρ} :
    Attended ready ⟨shared, Function.update (fun u => (phase u).wake) t (.idle r)⟩ := by
  intro u op asleep
  by_cases same : u = t
  · subst same
    simp at asleep
  · simp [Function.update_of_ne same] at asleep

private theorem AtLock.ne_signalling {p : Phase ω ρ} {op : ω} (lock : p.AtLock op) (r : ρ) :
    p ≠ .signalling r := by
  rcases lock with h | h <;> simp [h]

/-- Moving a thread that is neither asleep nor signalling to a phase that is
    neither keeps sleepers and signallers. -/
private theorem update_sleepers {phase : τ → Phase ω ρ} {t : τ} {p : Phase ω ρ}
    (awake : ∀ op, p ≠ .asleep op) (u : τ) (op : ω)
    (asleep : Function.update phase t p u = .asleep op) : phase u = .asleep op := by
  by_cases same : u = t
  · subst same
    rw [Function.update_self] at asleep
    exact absurd asleep (awake op)
  · rwa [Function.update_of_ne same] at asleep

private theorem update_signallers {phase : τ → Phase ω ρ} {t : τ} {p : Phase ω ρ}
    (quiet : ∀ r, phase t ≠ .signalling r) (u : τ) (r : ρ)
    (owes : phase u = .signalling r) : Function.update phase t p u = .signalling r := by
  have other : u ≠ t := fun same => quiet r (same ▸ owes)
  rwa [Function.update_of_ne other]

theorem Wakes.step (wakes : Wakes M ready) {s s' : State τ σ ω ρ} {l}
    (before : Attended ready s) (taken : Step M s l s') : Attended ready s' := by
  cases taken with
  | enter outside work =>
      refine before.keep (fun u op => update_sleepers (by simp) u op) (fun u r => ?_)
        (wakes.enters work)
      exact update_signallers (by simp [outside]) u r
  | leave lock ran =>
      exact before.keep (fun u op => update_sleepers (by simp) u op)
        (fun u r => update_signallers (AtLock.ne_signalling lock) u r) (wakes.leaves ran)
  | leaveWaking lock ran => exact Attended.woken
  | leaveOwing lock ran =>
      exact fun u op asleep => .inr ⟨_, _, Function.update_self ..⟩
  | wait lock ran => exact fun u op asleep => .inl (wakes.waits ran)
  | broadcast owes => exact Attended.woken
  | spurious asleep =>
      exact before.keep (fun u op => update_sleepers (by simp) u op)
        (fun u r => update_signallers (by simp [asleep]) u r) id

/-- No wakeup is lost: in every reachable state a sleeper without a wakeup
    rightly waits, or some thread still owes a broadcast. -/
theorem Wakes.no_lost_wakeup (wakes : Wakes M ready) {start : σ → Prop} {s : State τ σ ω ρ}
    (reach : (system M start).Reachable s) : Attended ready s := by
  apply reach.invariant
  · rintro s ⟨_, outside⟩ t op asleep
    rw [outside t] at asleep
    cases asleep
  · intro s l s' _ before taken
    exact wakes.step before taken

/-- The other threads stay where they are, unless they are woken. -/
theorem Step.others {s s' : State τ σ ω ρ} {l : Label τ κ} {u : τ} (taken : Step M s l s')
    (other : u ≠ l.thread) : s'.phase u = s.phase u ∨ s'.phase u = (s.phase u).wake := by
  cases taken <;> simp only [Label.thread] at other <;> simp [other]

/-- The other threads stay in the calls they are in. -/
theorem Step.op?_of_ne {s s' : State τ σ ω ρ} {l : Label τ κ} {u : τ} (taken : Step M s l s')
    (other : u ≠ l.thread) : (s'.phase u).op? = (s.phase u).op? := by
  rcases taken.others other with is | is <;> simp [is]

/-- Only an entry puts a thread into a call. -/
theorem Step.op?_kept {s s' : State τ σ ω ρ} {l : Label τ κ} {u : τ} {op : ω}
    (taken : Step M s l s') (stays : ∀ t c, l ≠ .enter t c) (inside : (s'.phase u).op? = some op) :
    ∃ op, (s.phase u).op? = some op := by
  by_cases same : u = l.thread
  · subst same
    cases taken with
    | enter => exact absurd rfl (stays _ _)
    | leave lock _ | leaveWaking lock _ | leaveOwing lock _ | wait lock _ => exact ⟨_, lock.op?⟩
    | broadcast owes => simp [Label.thread] at inside
    | spurious asleep => exact ⟨_, congrArg Phase.op? asleep⟩
  · exact ⟨op, by rwa [taken.op?_of_ne same] at inside⟩

/-- A section is run by a thread in a call, which it ends or stays in. -/
theorem Step.op?_acquire {s s' : State τ σ ω ρ} {t : τ} (taken : Step M s (.acquire t) s') :
    ∃ op, (s.phase t).op? = some op ∧
      ((s'.phase t).op? = none ∨ ∃ op, s'.phase t = .asleep op) := by
  cases taken with
  | leave lock _ => exact ⟨_, lock.op?, .inl (by simp)⟩
  | leaveWaking lock _ => exact ⟨_, lock.op?, .inl (by simp)⟩
  | leaveOwing lock _ => exact ⟨_, lock.op?, .inl (by simp)⟩
  | wait lock _ => exact ⟨_, lock.op?, .inr ⟨_, Function.update_self ..⟩⟩

/-- Phases renamed after an update are the renamed phases, updated. -/
theorem map_update {ω' : Type} (f : ω → ω') (phase : τ → Phase ω ρ) (t : τ) (p : Phase ω ρ) :
    (fun u => (Function.update phase t p u).map f) =
      Function.update (fun u => (phase u).map f) t (p.map f) := by
  funext u
  by_cases same : u = t
  · subst same
    simp only [Function.update_self]
  · simp only [Function.update_of_ne same]

/-- A thread at the mutex whose section is defined can move. -/
theorem acquire_enabled {s : State τ σ ω ρ} {t : τ} {op : ω} {e : Exit σ ρ}
    (lock : (s.phase t).AtLock op) (defined : M.crit op s.shared = some e) :
    ∃ s', Step M s (.acquire t) s' := by
  cases e with
  | leave => exact ⟨_, .leave lock defined⟩
  | leaveWaking => exact ⟨_, .leaveWaking lock defined⟩
  | leaveOwing => exact ⟨_, .leaveOwing lock defined⟩
  | wait => exact ⟨_, .wait lock defined⟩

/-- When nothing moves and the awaited condition holds, a thread is outside or
    at a section that is undefined. -/
theorem Stuck.settled {s : State τ σ ω ρ} (stuck : Stuck M s) (attended : Attended ready s)
    (holds : ready s.shared) (t : τ) :
    (∃ last, s.phase t = .idle last) ∨
      ∃ op, (s.phase t).AtLock op ∧ M.crit op s.shared = none := by
  have quiet : ∀ u r, s.phase u ≠ .signalling r := by
    intro u r owes
    rcases stuck _ _ (.broadcast owes) with ⟨v, call, other⟩ | ⟨v, other⟩ <;> cases other
  have undefinedAt : ∀ op, (s.phase t).AtLock op → M.crit op s.shared = none := by
    intro op lock
    cases ran : M.crit op s.shared with
    | none => rfl
    | some e =>
        obtain ⟨s', move⟩ := acquire_enabled lock ran
        rcases stuck _ _ move with ⟨v, call, other⟩ | ⟨v, other⟩ <;> cases other
  cases at_ : s.phase t with
  | idle last => exact .inl ⟨last, rfl⟩
  | entering op => exact .inr ⟨op, .inl rfl, undefinedAt op (.inl at_)⟩
  | woken op => exact .inr ⟨op, .inr rfl, undefinedAt op (.inr at_)⟩
  | signalling r => exact absurd at_ (quiet t r)
  | asleep op =>
      rcases attended t op at_ with wait | ⟨u, r, owes⟩
      · exact absurd holds wait
      · exact absurd owes (quiet u r)

end

end SysProg.Monitor
