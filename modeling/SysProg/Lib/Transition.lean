import Mathlib.Order.WellFounded
import Mathlib.Order.Basic

/-! # Labelled transition systems

A system is a set of initial states and a labelled step relation.  Safety is
proved by one induction (`Reachable.invariant`); a run restricted to the steps
that meet a condition is a run of `System.only`.  Liveness is stated over
endless runs (`Run.LeadsTo`) and proved from a fair group of steps and a
measure that goes down.
-/

namespace SysProg.Transition

/-- Initial states and labelled steps. -/
structure System (σ ℓ : Type) where
  init : σ → Prop
  step : σ → ℓ → σ → Prop

namespace System

variable {σ ℓ : Type} {sys : System σ ℓ}

/-- States reached from an initial state in finitely many steps. -/
inductive Reachable (sys : System σ ℓ) : σ → Prop where
  | init {s} : sys.init s → Reachable sys s
  | step {s l s'} : Reachable sys s → sys.step s l s' → Reachable sys s'

/-- A property of the initial states that every step from a reachable state
    keeps holds of every reachable state. -/
theorem Reachable.invariant {I : σ → Prop} {s : σ} (reach : sys.Reachable s)
    (base : ∀ s, sys.init s → I s)
    (keeps : ∀ s l s', sys.Reachable s → I s → sys.step s l s' → I s') : I s := by
  induction reach with
  | init start => exact base _ start
  | step before taken ih => exact keeps _ _ _ before ih taken

/-- The same system with only the steps that meet a condition. -/
def only (sys : System σ ℓ) (good : σ → ℓ → Prop) : System σ ℓ where
  init := sys.init
  step s l s' := sys.step s l s' ∧ good s l

theorem Reachable.of_only {good : σ → ℓ → Prop} {s : σ}
    (reach : (sys.only good).Reachable s) : sys.Reachable s := by
  induction reach with
  | init start => exact .init start
  | step _ taken ih => exact .step ih taken.1

end System

/-! ## Runs -/

variable {σ ℓ : Type} {sys : System σ ℓ}

/-- Some step of a group can be taken. -/
def Enabled (sys : System σ ℓ) (group : ℓ → Prop) (s : σ) : Prop :=
  ∃ l s', group l ∧ sys.step s l s'

/-- An endless run: at each moment a step is taken or nothing happens. -/
structure Run (sys : System σ ℓ) where
  state : Nat → σ
  taken : Nat → Option ℓ
  moves : ∀ n l, taken n = some l → sys.step (state n) l (state (n + 1))
  rests : ∀ n, taken n = none → state (n + 1) = state n

namespace Run

variable {run : Run sys} {good : σ → ℓ → Prop} {group : ℓ → Prop} {P Q R : σ → Prop}

/-- Every step of the run meets a condition. -/
def Meets (run : Run sys) (good : σ → ℓ → Prop) : Prop :=
  ∀ n l, run.taken n = some l → good (run.state n) l

/-- A group of steps that can be taken from some moment on is taken at some time. -/
def Fair (run : Run sys) (group : ℓ → Prop) : Prop :=
  ∀ n, (∀ m, n ≤ m → Enabled sys group (run.state m)) →
    ∃ m l, n ≤ m ∧ run.taken m = some l ∧ group l

/-- Whenever `P` holds, `Q` holds then or later. -/
def LeadsTo (run : Run sys) (P Q : σ → Prop) : Prop :=
  ∀ n, P (run.state n) → ∃ m, n ≤ m ∧ Q (run.state m)

theorem reachable (meets : run.Meets good) (start : (sys.only good).Reachable (run.state 0))
    (n : Nat) : (sys.only good).Reachable (run.state n) := by
  induction n with
  | zero => exact start
  | succ n ih =>
      cases took : run.taken n with
      | none =>
          rw [run.rests n took]
          exact ih
      | some l => exact .step ih ⟨run.moves n l took, meets n l took⟩

theorem LeadsTo.trans (first : run.LeadsTo P Q) (second : run.LeadsTo Q R) : run.LeadsTo P R := by
  intro n holds
  obtain ⟨m, later, reached⟩ := first n holds
  obtain ⟨k, after, done⟩ := second m reached
  exact ⟨k, Nat.le_trans later after, done⟩

/-- What a fair group does: while `P` holds the group can step, its steps reach
    `Q`, and the other steps keep `P` or reach `Q`. -/
theorem Fair.leadsTo (fair : run.Fair group)
    (enabled : ∀ n, P (run.state n) → Enabled sys group (run.state n))
    (helps : ∀ n l, run.taken n = some l → group l → P (run.state n) → Q (run.state (n + 1)))
    (keeps : ∀ n l, run.taken n = some l → ¬ group l → P (run.state n) →
      P (run.state (n + 1)) ∨ Q (run.state (n + 1))) : run.LeadsTo P Q := by
  intro n holds
  by_contra never
  have missed : ∀ m, n ≤ m → ¬ Q (run.state m) := fun m later reached => never ⟨m, later, reached⟩
  -- until `Q` is reached, `P` stays
  have stays : ∀ m, n ≤ m → P (run.state m) := by
    intro m later
    induction m, later using Nat.le_induction with
    | base => exact holds
    | succ m later ih =>
        have next := missed (m + 1) (Nat.le_succ_of_le later)
        cases took : run.taken m with
        | none =>
            rw [run.rests m took]
            exact ih
        | some l =>
            by_cases inside : group l
            · exact absurd (helps m l took inside ih) next
            · exact (keeps m l took inside ih).resolve_right next
  obtain ⟨m, l, later, took, inside⟩ := fair n fun m later => enabled m (stays m later)
  exact missed (m + 1) (Nat.le_succ_of_le later) (helps m l took inside (stays m later))

/-- A measure that goes down until `Q` is reached. -/
theorem LeadsTo.wellFounded {ι : Type} {less : ι → ι → Prop} (wf : WellFounded less)
    {P : ι → σ → Prop}
    (down : ∀ x, run.LeadsTo (P x) fun s => Q s ∨ ∃ y, less y x ∧ P y s) (x : ι) :
    run.LeadsTo (P x) Q := by
  induction x using wf.induction with
  | _ x ih =>
      intro n holds
      obtain ⟨m, later, reached | ⟨y, smaller, below⟩⟩ := down x n holds
      · exact ⟨m, later, reached⟩
      · obtain ⟨k, after, done⟩ := ih y smaller m below
        exact ⟨k, Nat.le_trans later after, done⟩

/-- The run from a moment on. -/
def drop (run : Run sys) (k : Nat) : Run sys where
  state n := run.state (k + n)
  taken n := run.taken (k + n)
  moves n := run.moves (k + n)
  rests n := run.rests (k + n)

theorem Fair.drop (fair : run.Fair group) (k : Nat) : (run.drop k).Fair group := by
  intro n enabled
  obtain ⟨m, l, later, took, inside⟩ := fair (k + n) fun m later => by
    obtain ⟨j, rfl⟩ := Nat.exists_eq_add_of_le (Nat.le_trans (Nat.le_add_right k n) later)
    exact enabled j (by omega)
  obtain ⟨j, rfl⟩ := Nat.exists_eq_add_of_le (Nat.le_trans (Nat.le_add_right k n) later)
  exact ⟨j, l, by omega, took, inside⟩

/-- A run in which a group of steps can go on until `Q`, uses up a measure and
    is in the end alone. -/
theorem Fair.terminates {ι : Type} {less : ι → ι → Prop} (wf : WellFounded less) (rank : σ → ι)
    {I : σ → Prop} (fair : run.Fair group) (holds : ∀ n, I (run.state n))
    (enabled : ∀ s, I s → ¬ Q s → Enabled sys group s)
    (down : ∀ s l s', I s → group l → sys.step s l s' → less (rank s') (rank s))
    (late : ∃ k, ∀ n l, k ≤ n → run.taken n = some l → group l) : ∃ n, Q (run.state n) := by
  obtain ⟨k, late⟩ := late
  have alone : ∀ n l, (run.drop k).taken n = some l → group l :=
    fun n l => late (k + n) l (Nat.le_add_right k n)
  suffices leads : (run.drop k).LeadsTo (fun s => rank s = rank (run.state k)) Q by
    obtain ⟨n, _, reached⟩ := leads 0 rfl
    exact ⟨k + n, reached⟩
  refine LeadsTo.wellFounded wf (P := fun x s => rank s = x) (fun x n at_ => ?_) _
  by_cases done : Q ((run.drop k).state n)
  · exact ⟨n, le_rfl, .inl done⟩
  refine Fair.leadsTo (fair.drop k) (P := fun s => I s ∧ rank s = x ∧ ¬ Q s)
    (Q := fun s => Q s ∨ ∃ y, less y x ∧ rank s = y) ?_ ?_ ?_ n ⟨holds (k + n), at_, done⟩
  · exact fun n before => enabled _ before.1 before.2.2
  · rintro n l took inside ⟨now, rfl, _⟩
    exact .inr ⟨_, down _ l _ now inside ((run.drop k).moves n l took), rfl⟩
  · exact fun n l took outside _ => absurd (alone n l took) outside

section progress

open Classical in
/-- A step of the group, while one can be taken. -/
private noncomputable def pick (sys : System σ ℓ) (group : ℓ → Prop) (s : σ) : Option (ℓ × σ) :=
  if can : Enabled sys group s then some (can.choose, can.choose_spec.choose) else none

private theorem pick_step {s : σ} {l s'} (picked : pick sys group s = some (l, s')) :
    group l ∧ sys.step s l s' := by
  by_cases can : Enabled sys group s
  · simp only [pick, can, dif_pos, Option.some.injEq, Prod.mk.injEq] at picked
    obtain ⟨rfl, rfl⟩ := picked
    exact can.choose_spec.choose_spec
  · simp [pick, can] at picked

/-- The states of the run that takes a step of the group whenever it can. -/
private noncomputable def busy (sys : System σ ℓ) (group : ℓ → Prop) (start : σ) : Nat → σ
  | 0 => start
  | n + 1 => ((pick sys group (busy sys group start n)).map Prod.snd).getD (busy sys group start n)

/-- From every state there is a run that takes the steps of a group and no
    others, and is fair to the group. -/
theorem exists_busy (sys : System σ ℓ) (group : ℓ → Prop) (start : σ) :
    ∃ run : Run sys, run.state 0 = start ∧ run.Fair group ∧
      ∀ n l, run.taken n = some l → group l := by
  let state := busy sys group start
  refine ⟨⟨state, fun n => (pick sys group (state n)).map Prod.fst, fun n l took => ?_,
    fun n idle => ?_⟩, rfl, fun n can => ?_, fun n l took => ?_⟩
  · obtain ⟨⟨_, s'⟩, picked, rfl⟩ := Option.map_eq_some_iff.mp took
    have next : state (n + 1) = s' := by simp [state, busy, show pick sys group _ = _ from picked]
    rw [next]
    exact (pick_step picked).2
  · have none_ := Option.map_eq_none_iff.mp idle
    simp [state, busy, show pick sys group _ = _ from none_]
  · have now := can n le_rfl
    refine ⟨n, now.choose, le_rfl, ?_, now.choose_spec.choose_spec.1⟩
    simp [pick, show Enabled sys group (state n) from now]
  · obtain ⟨⟨_, s'⟩, picked, rfl⟩ := Option.map_eq_some_iff.mp took
    exact (pick_step picked).1

end progress

/-- A run that comes to rest where a group of steps cannot be taken is fair to it. -/
theorem fair_of_rest {t : σ} {k : Nat} (rest : ∀ n, k ≤ n → run.state n = t)
    (stuck : ¬ Enabled sys group t) : run.Fair group := by
  intro n enabled
  have late := enabled (max n k) (Nat.le_max_left n k)
  rw [rest _ (Nat.le_max_right n k)] at late
  exact absurd late stuck

end Run

/-! ## Finite stretches of runs -/

/-- The steps that lead from one state to another, all of which meet a condition. -/
inductive Steps (sys : System σ ℓ) (good : σ → ℓ → Prop) (s : σ) : List ℓ → σ → Prop where
  | start : Steps sys good s [] s
  | step {ls t l t'} : Steps sys good s ls t → sys.step t l t' → good t l →
      Steps sys good s (ls ++ [l]) t'

namespace Steps

variable {good : σ → ℓ → Prop} {s t : σ} {ls : List ℓ}

theorem reachable (steps : Steps sys good s ls t) (reach : (sys.only good).Reachable s) :
    (sys.only good).Reachable t := by
  induction steps with
  | start => exact reach
  | step _ taken meets ih => exact .step ih ⟨taken, meets⟩

/-- They are the beginning of a run that then rests. -/
theorem exists_run (steps : Steps sys good s ls t) :
    ∃ run : Run sys, run.state 0 = s ∧ (∀ n, run.taken n = ls[n]?) ∧ run.Meets good ∧
      ∀ n, ls.length ≤ n → run.state n = t := by
  induction steps with
  | start =>
      exact ⟨⟨fun _ => s, fun n => [][n]?, nofun, fun _ _ => rfl⟩, rfl, fun _ => rfl, nofun,
        fun _ _ => rfl⟩
  | @step ls t l t' _ taken meets ih =>
      obtain ⟨run, first, labels, kept, rest⟩ := ih
      let state : Nat → σ := fun n => if n ≤ ls.length then run.state n else t'
      have before : ∀ n, n ≤ ls.length → state n = run.state n := fun n within => if_pos within
      have after : ∀ n, ls.length < n → state n = t' := fun n past => if_neg (Nat.not_le.mpr past)
      -- each label is one of those so far, or the last
      have cases : ∀ n l', (ls ++ [l])[n]? = some l' →
          (n < ls.length ∧ run.taken n = some l') ∨ (n = ls.length ∧ l' = l) := by
        intro n l' at_
        rcases Nat.lt_trichotomy n ls.length with within | rfl | past
        · rw [List.getElem?_append_left within] at at_
          exact .inl ⟨within, by rw [labels]; exact at_⟩
        · rw [List.getElem?_concat_length] at at_
          exact .inr ⟨rfl, (Option.some.inj at_).symm⟩
        · rw [List.getElem?_eq_none (by simp; omega)] at at_
          cases at_
      refine ⟨⟨state, fun n => (ls ++ [l])[n]?, fun n l' at_ => ?_, fun n idle => ?_⟩,
        (before 0 (Nat.zero_le _)).trans first, fun _ => rfl, fun n l' at_ => ?_, fun n past => ?_⟩
      · rcases cases n l' at_ with ⟨within, took⟩ | ⟨rfl, rfl⟩
        · rw [before n within.le, before (n + 1) within]
          exact run.moves n l' took
        · rw [before _ le_rfl, rest _ le_rfl, after _ (Nat.lt_succ_self _)]
          exact taken
      · have past : ls.length < n := by
          have bound := List.getElem?_eq_none_iff.mp idle
          rw [List.length_append, List.length_singleton] at bound
          omega
        rw [after n past, after (n + 1) (by omega)]
      · change good (state n) l'
        rcases cases n l' at_ with ⟨within, took⟩ | ⟨rfl, rfl⟩
        · rw [before n within.le]
          exact kept n l' took
        · rw [before _ le_rfl, rest _ le_rfl]
          exact meets
      · rw [List.length_append, List.length_singleton] at past
        exact after n past

end Steps

end SysProg.Transition
