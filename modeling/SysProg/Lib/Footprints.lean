import Mathlib.Data.Fintype.EquivFin
import Mathlib.Logic.Relation
import SysProg.Lib.Transition

/-! # Threads that share nothing

Threads move in one memory without a lock.  Each owns some of its cells, no two the
same, and neither reads nor writes any others that can change.  Then every thread
does what it would do alone (`alone`), and threads can do together whatever each of
them can do alone (`together`).
-/

namespace SysProg.Footprints

open Transition Relation

structure Threads (τ ι ν κ : Type) where
  step : τ → κ × (ι → ν) → κ × (ι → ν) → Prop
  owns : τ → ι → Prop
  /-- Where a thread can stand. -/
  stands : τ → κ → Prop
  apart : ∀ {t u x}, owns t x → owns u x → t = u
  moves : ∀ {t k k' m m'}, stands t k → step t (k, m) (k', m') → stands t k'
  writes : ∀ {t k k' m m' x}, stands t k → step t (k, m) (k', m') → ¬ owns t x → m' x = m x
  reads : ∀ {t k k' m m' n}, stands t k → step t (k, m) (k', m') → (∀ x, owns t x → n x = m x) →
    ∃ n', step t (k, n) (k', n') ∧ ∀ x, owns t x → n' x = m' x

/-- The memory and where each thread stands. -/
structure State (τ ι ν κ : Type) where
  mem : ι → ν
  loc : τ → κ

variable {τ ι ν κ : Type} {code : Threads τ ι ν κ}

theorem Threads.run_stands {t : τ} {x y : κ × (ι → ν)} (ran : ReflTransGen (code.step t) x y)
    (stands : code.stands t x.1) : code.stands t y.1 := by
  induction ran with
  | refl => exact stands
  | tail _ taken ih => exact code.moves ih taken

/-- The cells that a thread does not own keep their contents. -/
theorem Threads.run_writes {t : τ} {x y : κ × (ι → ν)} {cell : ι}
    (ran : ReflTransGen (code.step t) x y) (stands : code.stands t x.1)
    (foreign : ¬ code.owns t cell) : y.2 cell = x.2 cell := by
  induction ran with
  | refl => rfl
  | tail before taken ih => exact (code.writes (run_stands before stands) taken foreign).trans ih

/-- A thread does the same in every memory that has the same in its own cells. -/
theorem Threads.run_reads {t : τ} {k k' : κ} {m m' n : ι → ν}
    (ran : ReflTransGen (code.step t) (k, m) (k', m')) (stands : code.stands t k)
    (same : ∀ x, code.owns t x → n x = m x) :
    ∃ n', ReflTransGen (code.step t) (k, n) (k', n') ∧ ∀ x, code.owns t x → n' x = m' x := by
  generalize last : (k', m') = y at ran
  induction ran generalizing k' m' with
  | refl =>
      obtain ⟨rfl, rfl⟩ := Prod.mk.inj last
      exact ⟨n, .refl, same⟩
  | tail before taken ih =>
      subst last
      obtain ⟨n₁, ran₁, same₁⟩ := ih rfl
      obtain ⟨n', next, same'⟩ := code.reads (run_stands before stands) taken same₁
      exact ⟨n', ran₁.tail next, same'⟩

variable [DecidableEq τ]

inductive Step (code : Threads τ ι ν κ) : State τ ι ν κ → τ → State τ ι ν κ → Prop where
  | move {s : State τ ι ν κ} {t k mem} : code.step t (s.loc t, s.mem) (k, mem) →
      Step code s t ⟨mem, Function.update s.loc t k⟩

def system (code : Threads τ ι ν κ) (mem : ι → ν) (start : τ → κ) : System (State τ ι ν κ) τ where
  init s := s = ⟨mem, start⟩
  step := Step code

variable {mem : ι → ν} {start : τ → κ} {s : State τ ι ν κ}

theorem reach_stands (reach : (system code mem start).Reachable s)
    (starts : ∀ t, code.stands t (start t)) (t : τ) : code.stands t (s.loc t) := by
  apply reach.invariant (I := fun s => code.stands t (s.loc t))
  · rintro s rfl
    exact starts t
  · rintro s u s' _ stands ⟨moved⟩
    by_cases is : t = u
    · subst is
      simpa using code.moves stands moved
    · simpa [is] using stands

/-- Every thread has done what it could have done alone, and its cells hold what
    they would hold then. -/
theorem alone (reach : (system code mem start).Reachable s)
    (starts : ∀ t, code.stands t (start t)) (t : τ) :
    ∃ n, ReflTransGen (code.step t) (start t, mem) (s.loc t, n) ∧
      ∀ x, code.owns t x → n x = s.mem x := by
  induction reach with
  | init begun =>
      obtain rfl := begun
      exact ⟨mem, .refl, fun _ _ => rfl⟩
  | @step s u s' before taken ih =>
      obtain ⟨n, ran, same⟩ := ih
      have stands := reach_stands before starts u
      cases taken with
      | @move k mem' moved =>
          by_cases is : t = u
          · subst is
            obtain ⟨n', next, same'⟩ := code.reads stands moved same
            refine ⟨n', ?_, same'⟩
            simpa using ran.tail next
          · refine ⟨n, by simpa [is] using ran, fun x mine => ?_⟩
            have foreign : ¬ code.owns u x := fun theirs => is (code.apart mine theirs)
            exact (same x mine).trans (code.writes stands moved foreign).symm

/-- A cell that nobody owns keeps its contents. -/
theorem unowned (reach : (system code mem start).Reachable s)
    (starts : ∀ t, code.stands t (start t)) {x : ι} (nobody : ∀ t, ¬ code.owns t x) :
    s.mem x = mem x := by
  apply reach.invariant (I := fun s => s.mem x = mem x)
  · rintro s rfl
    rfl
  · rintro s t s' before same ⟨moved⟩
    exact (code.writes (reach_stands before starts t) moved (nobody t)).trans same

/-- A thread moves on while the others wait. -/
theorem reach_run {t : τ} {k : κ} {m : ι → ν} (reach : (system code mem start).Reachable s)
    (ran : ReflTransGen (code.step t) (s.loc t, s.mem) (k, m)) :
    (system code mem start).Reachable ⟨m, Function.update s.loc t k⟩ := by
  generalize last : (k, m) = y at ran
  induction ran generalizing k m with
  | refl =>
      obtain ⟨rfl, rfl⟩ := Prod.mk.inj last
      rwa [Function.update_eq_self]
  | @tail x y _ taken ih =>
      subst last
      have before := @ih x.1 x.2 rfl
      have next : (system code mem start).Reachable _ :=
        before.step (Step.move (t := t) (by simpa using taken))
      simpa using next

/-- Where the threads can come alone they can come together. -/
theorem together [Finite τ] {k : τ → κ} (starts : ∀ t, code.stands t (start t))
    (each : ∀ t, ∃ n, ReflTransGen (code.step t) (start t, mem) (k t, n)) :
    ∃ s, (system code mem start).Reachable s ∧ s.loc = k := by
  have := Fintype.ofFinite τ
  suffices some_ : ∀ moved : List τ, moved.Nodup → ∃ s, (system code mem start).Reachable s ∧
      (∀ t ∈ moved, s.loc t = k t) ∧ ∀ t ∉ moved, s.loc t = start t ∧
        ∀ x, code.owns t x → s.mem x = mem x by
    obtain ⟨s, reach, there, _⟩ := some_ Finset.univ.toList (Finset.nodup_toList _)
    exact ⟨s, reach, funext fun t => there t (by simp)⟩
  intro moved nodup
  induction moved with
  | nil => exact ⟨⟨mem, start⟩, .init rfl, nofun, fun _ _ => ⟨rfl, fun _ _ => rfl⟩⟩
  | cons t moved ih =>
      obtain ⟨fresh, nodup⟩ := List.nodup_cons.mp nodup
      obtain ⟨s, reach, there, here⟩ := ih nodup
      obtain ⟨n, ran⟩ := each t
      obtain ⟨n', ran', _⟩ := Threads.run_reads ran (starts t) (here t fresh).2
      rw [← (here t fresh).1] at ran'
      refine ⟨_, reach_run reach ran', fun u member => ?_, fun u absent => ?_⟩
      · by_cases is : u = t
        · simp [is]
        · simpa [is] using there u (by simpa [is] using member)
      · obtain ⟨other, absent⟩ : u ≠ t ∧ u ∉ moved := by simpa using absent
        refine ⟨by simpa [other] using (here u absent).1, fun x mine => ?_⟩
        have foreign : ¬ code.owns t x := fun theirs => other (code.apart mine theirs)
        exact (Threads.run_writes ran' (reach_stands reach starts t) foreign).trans
          ((here u absent).2 x mine)

end SysProg.Footprints
