import Mathlib.Logic.Relation
import Mathlib.Logic.Function.Basic
import SysProg.Lib.Transition

/-! # Critical sections under one lock

Threads share a state and take a lock around the steps in which they touch it.
With the lock they refine threads whose sections are single steps (`refines`),
so that a property of them is proved section by section; what has happened is a
sequence of whole sections in the order in which they ended (`serial`).  The same
threads can also run with the lock left out.
-/

namespace SysProg.Locking

open Transition Relation

/-- What each thread does, from its own local state. -/
structure Threads (τ σ κ : Type) where
  /-- A step outside the sections, which leaves the shared state alone. -/
  aside : τ → κ → κ → Prop
  /-- Take the lock. -/
  enter : τ → κ → κ → Prop
  /-- A step inside a section. -/
  inside : τ → κ × σ → κ × σ → Prop
  /-- Release the lock. -/
  leave : τ → κ → κ → Prop

/-- The shared state, every thread's local state and, for a thread inside a
    section, the local state with which it entered.  `done` is history. -/
structure State (τ σ κ : Type) where
  shared : σ
  loc : τ → κ
  since : τ → Option κ
  done : List (τ × κ)

variable {τ σ κ : Type}

/-- No thread is inside a section. -/
def State.Free (s : State τ σ κ) : Prop := ∀ t, s.since t = none

variable [DecidableEq τ] {code : Threads τ σ κ} {locking : Bool}

/-- One step of a thread.  When `locking` is set a section can only be entered
    while no other thread is inside one. -/
inductive Step (code : Threads τ σ κ) (locking : Bool) :
    State τ σ κ → τ → State τ σ κ → Prop where
  | aside {s : State τ σ κ} {t k} : s.since t = none → code.aside t (s.loc t) k →
      Step code locking s t { s with loc := Function.update s.loc t k }
  | enter {s : State τ σ κ} {t k} : s.since t = none → (locking = true → s.Free) →
      code.enter t (s.loc t) k →
      Step code locking s t
        { s with
          loc := Function.update s.loc t k
          since := Function.update s.since t (some (s.loc t)) }
  | inside {s : State τ σ κ} {t k k₀ shared} : s.since t = some k₀ →
      code.inside t (s.loc t, s.shared) (k, shared) →
      Step code locking s t
        { s with
          shared := shared
          loc := Function.update s.loc t k }
  | leave {s : State τ σ κ} {t k k₀} : s.since t = some k₀ → code.leave t (s.loc t) k →
      Step code locking s t
        { s with
          loc := Function.update s.loc t k
          since := Function.update s.since t none
          done := s.done ++ [(t, k₀)] }

/-- The threads from their starting points. -/
def system (code : Threads τ σ κ) (locking : Bool) (shared : σ) (start : τ → κ) :
    System (State τ σ κ) τ where
  init s := s = ⟨shared, start, fun _ => none, []⟩
  step := Step code locking

/-- Without the lock every thread outside a section can enter it. -/
theorem reach_enter {shared : σ} {start : τ → κ} {s : State τ σ κ} {t : τ} {k k' : κ}
    (reach : (system code false shared start).Reachable s) (outside : s.since t = none)
    (at_ : s.loc t = k) (moved : code.enter t k k') :
    ∃ s', (system code false shared start).Reachable s' ∧
      s'.since = Function.update s.since t (some k) ∧ s'.loc = Function.update s.loc t k' := by
  subst at_
  exact ⟨_, reach.step (.enter outside nofun moved), rfl, rfl⟩

/-- A step inside a section, of a thread that stands at a known place. -/
theorem reach_inside {shared v : σ} {start : τ → κ} {s : State τ σ κ} {t : τ} {k k' k₀ : κ}
    (reach : (system code locking shared start).Reachable s) (entered : s.since t = some k₀)
    (at_ : s.loc t = k) (moved : code.inside t (k, s.shared) (k', v)) :
    ∃ s', (system code locking shared start).Reachable s' ∧ s'.since = s.since ∧
      s'.shared = v ∧ s'.loc = Function.update s.loc t k' := by
  subst at_
  exact ⟨_, reach.step (.inside entered moved), rfl, rfl, rfl⟩

/-- A section that nobody disturbs. -/
theorem reach_run {shared v : σ} {start : τ → κ} {s : State τ σ κ} {t : τ} {k k' k₀ : κ}
    (reach : (system code locking shared start).Reachable s) (entered : s.since t = some k₀)
    (at_ : s.loc t = k) (ran : ReflTransGen (code.inside t) (k, s.shared) (k', v)) :
    (system code locking shared start).Reachable
      { s with
        shared := v
        loc := Function.update s.loc t k' } := by
  generalize last : (k', v) = x at ran
  induction ran generalizing k' v with
  | refl =>
      obtain ⟨rfl, rfl⟩ := Prod.mk.inj last
      rwa [← at_, Function.update_eq_self]
  | @tail x y _ taken ih =>
      subst last
      have before := @ih x.2 x.1 rfl
      have next := before.step (.inside (t := t) entered (by simpa using taken))
      simpa using next

/-- A single thread behaves as if it took the lock. -/
theorem reach_of_subsingleton [Subsingleton τ] {shared : σ} {start : τ → κ} {s : State τ σ κ}
    (reach : (system code locking shared start).Reachable s) :
    (system code true shared start).Reachable s := by
  induction reach with
  | init begun => exact .init begun
  | @step s t s' _ taken ih =>
      refine ih.step (l := t) ?_
      cases taken with
      | aside outside moved => exact .aside outside moved
      | enter outside _ moved =>
          refine .enter outside (fun _ u => ?_) moved
          rwa [Subsingleton.elim u t]
      | inside entered moved => exact .inside entered moved
      | leave entered moved => exact .leave entered moved

/-! ## Whole sections -/

omit [DecidableEq τ] in
/-- What a thread does between taking the lock in a local state and releasing it. -/
def Section (code : Threads τ σ κ) (entry : τ × κ) (s s' : σ) : Prop :=
  ∃ k₁ k₂ k₃, code.enter entry.1 entry.2 k₁ ∧
    ReflTransGen (code.inside entry.1) (k₁, s) (k₂, s') ∧ code.leave entry.1 k₂ k₃

/-- Sections one after the other. -/
inductive Serial (code : Threads τ σ κ) : List (τ × κ) → σ → σ → Prop where
  | nil {s} : Serial code [] s s
  | snoc {done entry s s' s''} : Serial code done s s' → Section code entry s' s'' →
      Serial code (done ++ [entry]) s s''

/-- Where the threads stand with respect to the shared state `since` the last
    section ended: nobody is inside, or one thread is part of the way. -/
inductive Current (code : Threads τ σ κ) (s : State τ σ κ) : σ → Prop where
  | free : s.Free → Current code s s.shared
  | within {t k₀ k₁ mid} : s.since t = some k₀ → (∀ u, u ≠ t → s.since u = none) →
      code.enter t k₀ k₁ → ReflTransGen (code.inside t) (k₁, mid) (s.loc t, s.shared) →
      Current code s mid

omit [DecidableEq τ] in
/-- Where the threads stand, as two cases over any state that is known. -/
theorem Current.split {s : State τ σ κ} {mid : σ} (now : Current code s mid) :
    (s.Free ∧ s.shared = mid) ∨
      ∃ t k₀ k₁, s.since t = some k₀ ∧ code.enter t k₀ k₁ ∧
        ReflTransGen (code.inside t) (k₁, mid) (s.loc t, s.shared) := by
  cases now with
  | free free => exact .inl ⟨free, rfl⟩
  | within entered _ enter ran => exact .inr ⟨_, _, _, entered, enter, ran⟩

omit [DecidableEq τ] in
theorem Current.of_free {s : State τ σ κ} {mid : σ} (now : Current code s mid) (free : s.Free) :
    mid = s.shared := by
  cases now with
  | free _ => rfl
  | @within t k₀ k₁ _ inside _ _ _ =>
      rw [free t] at inside
      cases inside

/-- A thread inside a section is the only one. -/
theorem Current.of_inside {s : State τ σ κ} {mid : σ} {t : τ} {k₀ : κ}
    (now : Current code s mid) (inside : s.since t = some k₀) :
    (∀ u, u ≠ t → s.since u = none) ∧
      ∃ k₁, code.enter t k₀ k₁ ∧ ReflTransGen (code.inside t) (k₁, mid) (s.loc t, s.shared) := by
  cases now with
  | free free =>
      rw [free t] at inside
      cases inside
  | @within u k' k₁ _ entered alone enter ran =>
      have is : t = u := by
        by_contra other
        rw [alone t other] at inside
        cases inside
      subst is
      rw [entered, Option.some.injEq] at inside
      subst inside
      exact ⟨alone, k₁, enter, ran⟩

/-! ## Sections as single steps -/

/-- The threads outside their sections. -/
structure Between (τ σ κ : Type) where
  shared : σ
  loc : τ → κ
  done : List (τ × κ)

/-- A step outside the sections, or a whole section. -/
inductive Whole (code : Threads τ σ κ) : Between τ σ κ → τ → Between τ σ κ → Prop where
  | aside {b : Between τ σ κ} {t k} : code.aside t (b.loc t) k →
      Whole code b t { b with loc := Function.update b.loc t k }
  | whole {b : Between τ σ κ} {t k₁ k₂ k₃ shared} : code.enter t (b.loc t) k₁ →
      ReflTransGen (code.inside t) (k₁, b.shared) (k₂, shared) → code.leave t k₂ k₃ →
      Whole code b t
        { shared := shared
          loc := Function.update b.loc t k₃
          done := b.done ++ [(t, b.loc t)] }

/-- The threads when a section is a single step. -/
def atomic (code : Threads τ σ κ) (shared : σ) (start : τ → κ) :
    System (Between τ σ κ) τ where
  init b := b = ⟨shared, start, []⟩
  step := Whole code

/-- Where a thread stands when a section that has not ended does not count. -/
def State.committed (s : State τ σ κ) (t : τ) : κ := (s.since t).getD (s.loc t)

/-- The threads with the shared state `mid` that the last section left. -/
def State.between (s : State τ σ κ) (mid : σ) : Between τ σ κ := ⟨mid, s.committed, s.done⟩

omit [DecidableEq τ] in
theorem State.committed_of_none {s : State τ σ κ} {t : τ} (outside : s.since t = none) :
    s.committed t = s.loc t := by
  rw [committed, outside, Option.getD_none]

omit [DecidableEq τ] in
theorem State.committed_of_some {s : State τ σ κ} {t : τ} {k₀ : κ} (inside : s.since t = some k₀) :
    s.committed t = k₀ := by
  rw [committed, inside, Option.getD_some]

/-- A thread has moved to `k`, and the others stay where they stand. -/
theorem State.committed_update {s s' : State τ σ κ} {t : τ} {k : κ} (moved : s'.committed t = k)
    (since : ∀ u ≠ t, s'.since u = s.since u) (loc : ∀ u ≠ t, s'.loc u = s.loc u) :
    s'.committed = Function.update s.committed t k := by
  funext u
  by_cases same : u = t
  · rw [same, Function.update_self, moved]
  · rw [Function.update_of_ne same, committed, committed, since u same, loc u same]

/-- No thread has moved. -/
theorem State.committed_eq {s s' : State τ σ κ} {t : τ} (still : s'.committed t = s.committed t)
    (since : ∀ u ≠ t, s'.since u = s.since u) (loc : ∀ u ≠ t, s'.loc u = s.loc u) :
    s'.committed = s.committed := by
  rw [committed_update still since loc, Function.update_eq_self]

/-- A step of the threads is nothing yet, or a step outside or a whole section. -/
theorem Current.step {s s' : State τ σ κ} {t : τ} {mid : σ} (now : Current code s mid)
    (taken : Step code true s t s') :
    ∃ mid', (s'.between mid' = s.between mid ∨ Whole code (s.between mid) t (s'.between mid')) ∧
      Current code s' mid' := by
  cases taken with
  | @aside k outside moved =>
      have stood := State.committed_of_none outside
      have moves : State.committed { s with loc := Function.update s.loc t k } =
          Function.update s.committed t k := by
        refine State.committed_update ?_ (fun _ _ => rfl) fun u other =>
          Function.update_of_ne other _ _
        simp [State.committed, outside]
      refine ⟨mid, .inr ?_, ?_⟩
      · simp only [State.between, moves]
        refine .aside (b := s.between mid) ?_
        change code.aside t (s.committed t) k
        rwa [stood]
      · cases now with
        | free free => exact .free free
        | @within u k₀ k₁ _ inside alone enter ran =>
            have other : u ≠ t := by
              rintro rfl
              rw [outside] at inside
              cases inside
            exact .within inside alone enter (by simpa [other] using ran)
  | @enter k outside alone enter =>
      have free := alone rfl
      obtain rfl := now.of_free free
      have entered : Function.update s.since t (some (s.loc t)) t = some (s.loc t) := by simp
      have stays : State.committed { s with
          loc := Function.update s.loc t k
          since := Function.update s.since t (some (s.loc t)) } = s.committed := by
        refine State.committed_eq (t := t) ?_ (fun u other => Function.update_of_ne other _ _)
          fun u other => Function.update_of_ne other _ _
        simp [State.committed, outside]
      refine ⟨s.shared, .inl ?_, .within entered (fun u other => ?_) enter ?_⟩
      · simp only [State.between, stays]
      · simpa [other] using free u
      · simpa using ReflTransGen.refl
  | @inside k k₀ shared entered moved =>
      obtain ⟨alone, k₁, enter, ran⟩ := now.of_inside entered
      have stays : State.committed { s with
          shared := shared
          loc := Function.update s.loc t k } = s.committed := by
        refine State.committed_eq (t := t) ?_ (fun _ _ => rfl)
          fun u other => Function.update_of_ne other _ _
        simp [State.committed, entered]
      refine ⟨mid, .inl ?_, .within entered alone enter (ran.tail (by simpa using moved))⟩
      simp only [State.between, stays]
  | @leave k k₀ entered leave =>
      obtain ⟨alone, k₁, enter, ran⟩ := now.of_inside entered
      have began := State.committed_of_some entered
      have moves : State.committed { s with
          loc := Function.update s.loc t k
          since := Function.update s.since t none
          done := s.done ++ [(t, k₀)] } = Function.update s.committed t k := by
        refine State.committed_update ?_ (fun u other => Function.update_of_ne other _ _)
          fun u other => Function.update_of_ne other _ _
        simp [State.committed]
      refine ⟨s.shared, .inr ?_, .free fun u => ?_⟩
      · simp only [State.between, moves]
        have whole : Whole code (s.between mid) t _ :=
          .whole (show code.enter t (s.committed t) k₁ by rwa [began]) ran leave
        rwa [show (s.between mid).loc t = k₀ from began] at whole
      · by_cases same : u = t
        · simp [same]
        · simpa [same] using alone u same

/-- With the lock the threads refine those whose sections are single steps; at
    most one section has begun and not ended. -/
theorem refines {shared : σ} {start : τ → κ} {s : State τ σ κ}
    (reach : (system code true shared start).Reachable s) :
    ∃ mid, (atomic code shared start).Reachable (s.between mid) ∧ Current code s mid := by
  induction reach with
  | @init s start =>
      obtain rfl := start
      exact ⟨shared, .init rfl, .free fun _ => rfl⟩
  | @step s t s' _ taken ih =>
      obtain ⟨mid, before, now⟩ := ih
      obtain ⟨mid', same | moved, now'⟩ := now.step taken
      · exact ⟨mid', same ▸ before, now'⟩
      · exact ⟨mid', before.step moved, now'⟩

/-- Threads whose sections are single steps can be realized, with the lock and
    without it. -/
theorem realizes {shared : σ} {start : τ → κ} {b : Between τ σ κ}
    (reach : (atomic code shared start).Reachable b) :
    (system code locking shared start).Reachable
      { shared := b.shared
        loc := b.loc
        since := fun _ => none
        done := b.done } := by
  induction reach with
  | init start =>
      obtain rfl := start
      exact .init rfl
  | @step b t b' _ taken ih =>
      cases taken with
      | aside moved => exact ih.step (.aside rfl moved)
      | @whole k₁ k₂ k₃ v enter ran leave =>
          have entered := ih.step (.enter (t := t) rfl (fun _ _ => rfl) enter)
          have ended := reach_run (t := t) entered (Function.update_self ..)
            (Function.update_self ..) ran
          have left := ended.step
            (.leave (t := t) (Function.update_self ..) (by simpa using leave))
          simpa using left

/-- The sections that have ended ran one after the other. -/
theorem serial_of_atomic {shared : σ} {start : τ → κ} {b : Between τ σ κ}
    (reach : (atomic code shared start).Reachable b) : Serial code b.done shared b.shared := by
  induction reach with
  | init start =>
      obtain rfl := start
      exact .nil
  | step _ taken ih =>
      cases taken with
      | aside _ => exact ih
      | whole enter ran leave => exact ih.snoc ⟨_, _, _, enter, ran, leave⟩

/-- With the lock the sections that have ended ran one after the other, and at
    most one more has begun. -/
theorem serial {shared : σ} {start : τ → κ} {s : State τ σ κ}
    (reach : (system code true shared start).Reachable s) :
    ∃ mid, Serial code s.done shared mid ∧ Current code s mid := by
  obtain ⟨mid, before, now⟩ := refines reach
  exact ⟨mid, serial_of_atomic before, now⟩

end SysProg.Locking
