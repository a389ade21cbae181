import SysProg.Lib.Credentials

/-! # The setuid demonstrations

`setuid_demo.c` gives its privileges up for a while, takes them back, and gives
them up for good; `savedset_demo.c` goes back and forth through the saved id.
Both are a list of calls and prints that ends at the first call that fails.
-/

namespace SysProg.M6

open Credentials

/-! ## Programs of calls -/

inductive Action where
  /-- `PRINT_IDS` or `SHOW_CREDS` -/
  | printIds (stage : String)
  | puts (text : String)
  /-- A call that may read the ids first, and the message when it fails. -/
  | call (call : Ids → Call) (error : String)
  /-- A check of the ids, and the message when it fails. -/
  | check (holds : Ids → Bool) (error : String)

inductive Line where
  | ids (stage : String) (ids : Ids)
  | text (text : String)
  | error (text : String)
  deriving DecidableEq

inductive Exit where
  | success
  | failure
  deriving DecidableEq

/-- What a program prints, how it exits and with which ids. -/
structure Result where
  printed : List Line
  exit : Exit
  ids : Ids
  deriving DecidableEq

def Result.after (line : Line) (result : Result) : Result :=
  { result with printed := line :: result.printed }

def run : List Action → Ids → Result
  | [], c => ⟨[], .success, c⟩
  | .printIds stage :: rest, c => (run rest c).after (.ids stage c)
  | .puts text :: rest, c => (run rest c).after (.text text)
  | .call call error :: rest, c =>
      match c.call (call c) with
      | none => ⟨[.error error], .failure, c⟩
      | some c' => run rest c'
  | .check holds error :: rest, c =>
      if holds c then run rest c else ⟨[.error error], .failure, c⟩

/-! ## `setuid_demo.c` -/

/-- `setresuid(getuid(), getuid(), getuid())` -/
def dropAll (c : Ids) : Call := .setresuid (some c.ruid) (some c.ruid) (some c.ruid)

/-- `setuid_demo.c` up to the permanent drop. -/
def untilDrop : List Action :=
  [.printIds "T0: Running with root privileges: ",
    .call (fun _ => .seteuid 1000) "Failed T1",
    .printIds "T1: Dropped privileges temporarily: ",
    .call (fun _ => .seteuid 0) "failed T2",
    .printIds "T2: Restored Privileges:",
    .call (fun _ => .seteuid 1000) "failed T3",
    .printIds "T3: Dropped Privileges again:",
    .puts "T4: Permanetly dropping privileges: \n",
    .call dropAll "Failed to t4"]

def afterDrop : List Action :=
  [.printIds "T4: After Permanent drop:",
    .puts "T5: Attmepting to restore privileges: \n",
    .call (fun _ => .setuid 0) "T5: Failed To Restore Privileges",
    .printIds "T5: After Permanent drop:"]

/-- `main` of `setuid_demo.c` -/
def setuidDemo : List Action := untilDrop ++ afterDrop

@[simp] theorem after_exit (line : Line) (result : Result) :
    (result.after line).exit = result.exit := rfl

@[simp] theorem after_ids (line : Line) (result : Result) :
    (result.after line).ids = result.ids := rfl

/-- One program after the other. -/
theorem run_append (first second : List Action) (c : Ids) :
    (run (first ++ second) c).exit =
        (if (run first c).exit = .success then (run second (run first c).ids).exit else .failure) ∧
      (run (first ++ second) c).ids =
        if (run first c).exit = .success then (run second (run first c).ids).ids
        else (run first c).ids := by
  induction first generalizing c with
  | nil => simp [run]
  | cons action first ih =>
      cases action with
      | printIds stage => exact ih c
      | puts text => exact ih c
      | call call error =>
          cases done : c.call (call c) with
          | none => simp [run, done]
          | some c' => simpa [run, done] using ih c'
      | check holds error =>
          cases held : holds c with
          | false => simp [run, held]
          | true => simpa [run, held] using ih c

/-- Who gets as far as the drop is then its real user in all three ids. -/
theorem run_untilDrop (start : Ids) :
    ((run untilDrop start).exit = .success ↔
      (start.euid = 0 ∨ start.Holds 1000) ∧ (start.ruid = 0 ∨ start.suid = 0)) ∧
    ((run untilDrop start).exit = .success →
      (run untilDrop start).ids = ⟨start.ruid, start.ruid, start.ruid⟩) := by
  obtain ⟨r, e, s⟩ := start
  by_cases first : ¬ (e = 0 ∨ (Ids.mk r e s).Holds 1000)
  · simp [untilDrop, run, Ids.call, first]
  rw [Decidable.not_not] at first
  by_cases second : r = 0 ∨ s = 0
  · have held : (Ids.mk r 1000 s).Holds 0 := by
      rcases second with rfl | rfl
      · exact .inl rfl
      · exact .inr (.inr rfl)
    have own : (Ids.mk r 1000 s).Holds r := .inl rfl
    simp [untilDrop, run, Ids.call, first, second, held, dropAll, own]
  · have held : ¬ (Ids.mk r 1000 s).Holds 0 := by
      simp only [Ids.Holds]
      omega
    simp [untilDrop, run, Ids.call, first, second, held]

/-- The permanent drop is one for everybody but root itself.  From any ids the demo
    reaches it exactly with the right to become 1000 and to come back.  Started by
    root it then restores the privileges it has dropped for good, and started by
    another user it fails to, as does every other list of calls. -/
theorem setuidDemo_drop (start : Ids) :
    ((run untilDrop start).exit = .success ↔
      (start.euid = 0 ∨ start.Holds 1000) ∧ (start.ruid = 0 ∨ start.suid = 0)) ∧
    ((run setuidDemo start).exit = .success ↔
      (run untilDrop start).exit = .success ∧ start.ruid = 0) ∧
    ((run untilDrop start).exit = .success → start.ruid ≠ 0 → ∀ calls,
      (run setuidDemo start).ids.after calls = ⟨start.ruid, start.ruid, start.ruid⟩) := by
  obtain ⟨reaches, dropped⟩ := run_untilDrop start
  obtain ⟨exit, ids⟩ := run_append untilDrop afterDrop start
  refine ⟨reaches, ?_, fun reached regular calls => ?_⟩
  · rw [setuidDemo, exit]
    by_cases reached : (run untilDrop start).exit = .success
    · rw [if_pos reached, dropped reached]
      by_cases root : start.ruid = 0
      · simp [afterDrop, run, Ids.call, root, reached]
      · simp [afterDrop, run, Ids.call, root, Ne.symm root, reached]
    · simp [reached]
  · rw [setuidDemo, ids, if_pos reached, dropped reached]
    have failed : (run afterDrop ⟨start.ruid, start.ruid, start.ruid⟩).ids =
        ⟨start.ruid, start.ruid, start.ruid⟩ := by
      simp [afterDrop, run, Ids.call, regular, Ne.symm regular]
    rw [failed]
    exact Ids.after_dropped regular calls

example : (run setuidDemo ⟨500, 0, 0⟩).printed.length = 8 := by decide

/-! ## `savedset_demo.c` -/

/-- `main` of `savedset_demo.c`, whose `saved_setuid` is the effective id it starts
    with. -/
def savedsetDemo (start : Ids) : List Action :=
  [.puts "t0: Init:\n",
    .printIds "",
    .check (fun c => c.euid = 0)
      ("Not a setuid-root executable, aborting now ...\n" ++
        "[TIP: do: sudo chown root %s ; sudo chmod u+s %s\n and rerun].\n"),
    .puts " Ok, we're effectively running as root! (EUID==0)\n",
    .puts "t1: Becoming my original self!\n",
    .call (fun c => .seteuid c.ruid) "seteuid() step 2 failed!\n",
    .printIds "",
    .puts "t2: Switching to privileged state now...\n",
    .call (fun _ => .seteuid start.euid) "seteuid() step 3 failed!\n",
    .printIds "",
    .check (fun c => c.euid = 0) " should be but aren't root; something wrong, aborting!\n",
    .puts " Yup, we're root again!\n",
    .puts "t3: Switching back to unprivileged state now ...\n",
    .call (fun c => .seteuid c.ruid) "seteuid() step 4 failed!\n",
    .printIds ""]

/-- The demo of the saved id ends as its real user, with the way back to root still
    open, and it runs to its end exactly when it starts effectively as root with
    root's id among the other two. -/
theorem savedsetDemo_keeps_root (start : Ids) :
    ((run (savedsetDemo start) start).exit = .success ↔
      start.euid = 0 ∧ (start.ruid = 0 ∨ start.suid = 0)) ∧
    ((run (savedsetDemo start) start).exit = .success →
      (run (savedsetDemo start) start).ids.euid = start.ruid ∧
      ∃ calls, ((run (savedsetDemo start) start).ids.after calls).euid = 0) := by
  obtain ⟨r, e, s⟩ := start
  by_cases other : e ≠ 0
  · simp [savedsetDemo, run, other]
  obtain rfl : e = 0 := by omega
  by_cases back : r = 0 ∨ s = 0
  · have held : (Ids.mk r r s).Holds 0 := by
      rcases back with rfl | rfl
      · exact .inl rfl
      · exact .inr (.inr rfl)
    have regains := Ids.regains_root_iff.mpr held
    simpa [savedsetDemo, run, Ids.call, back, held] using regains
  · have held : ¬ (Ids.mk r r s).Holds 0 := by
      simp only [Ids.Holds]
      omega
    obtain ⟨regular, unsaved⟩ := not_or.mp back
    simp [savedsetDemo, run, Ids.call, held, regular, unsaved]

end SysProg.M6
