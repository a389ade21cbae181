/-! # User ids of a process

A process has a real, an effective and a saved user id.  Who is effectively root
may set them to anything; everybody else may only move the ids it holds around.
This is Linux's rule under the default secure bits, where the effective id alone
decides about `CAP_SETUID`.
-/

namespace SysProg.Credentials

structure Ids where
  ruid : Nat
  euid : Nat
  suid : Nat
  deriving DecidableEq, Repr

/-- The calls that change them; `none` is `-1` and leaves an id alone. -/
inductive Call where
  | setuid (uid : Nat)
  | seteuid (euid : Nat)
  | setreuid (ruid euid : Option Nat)
  | setresuid (ruid euid suid : Option Nat)
  deriving DecidableEq, Repr

namespace Ids

/-- One of the three ids. -/
def Holds (c : Ids) (uid : Nat) : Prop := uid = c.ruid ∨ uid = c.euid ∨ uid = c.suid

instance (c : Ids) (uid : Nat) : Decidable (c.Holds uid) := by
  unfold Holds
  infer_instance

/-- One call, or `none` where it fails with EPERM. -/
def call (c : Ids) : Call → Option Ids
  | .setuid uid =>
      if c.euid = 0 then some ⟨uid, uid, uid⟩
      else if uid = c.ruid ∨ uid = c.suid then some { c with euid := uid }
      else none
  | .seteuid euid =>
      if c.euid = 0 ∨ c.Holds euid then some { c with euid := euid } else none
  | .setreuid ruid euid =>
      if c.euid = 0 ∨
          (∀ uid ∈ ruid, uid = c.ruid ∨ uid = c.euid) ∧ ∀ uid ∈ euid, c.Holds uid then
        let changed : Ids := { c with ruid := ruid.getD c.ruid, euid := euid.getD c.euid }
        some (if ruid.isSome ∨ euid.isSome ∧ changed.euid ≠ c.ruid then
          { changed with suid := changed.euid }
        else changed)
      else none
  | .setresuid ruid euid suid =>
      if c.euid = 0 ∨
          (∀ uid ∈ ruid, c.Holds uid) ∧ (∀ uid ∈ euid, c.Holds uid) ∧ ∀ uid ∈ suid, c.Holds uid then
        some ⟨ruid.getD c.ruid, euid.getD c.euid, suid.getD c.suid⟩
      else none

/-- The ids after a list of calls, of which some may fail. -/
def after (c : Ids) (calls : List Call) : Ids :=
  calls.foldl (fun c call => (c.call call).getD c) c

@[simp] theorem after_nil (c : Ids) : c.after [] = c := rfl

@[simp] theorem after_cons (c : Ids) (call : Call) (calls : List Call) :
    c.after (call :: calls) = ((c.call call).getD c).after calls := rfl

variable {c c' : Ids} {call : Call} {uid : Nat}

/-- Without privileges a call makes no id of its own. -/
theorem holds_of_call (regular : c.euid ≠ 0) (done : c.call call = some c') (holds : c'.Holds uid) :
    c.Holds uid := by
  have kept : ∀ {id : Option Nat} {old : Nat}, (∀ uid ∈ id, c.Holds uid) → c.Holds old →
      c.Holds (id.getD old) := by
    intro id old given before
    cases id with
    | none => exact before
    | some uid => exact given uid rfl
  have real : c.Holds c.ruid := .inl rfl
  have effective : c.Holds c.euid := .inr (.inl rfl)
  have saved : c.Holds c.suid := .inr (.inr rfl)
  have all : c.Holds c'.ruid ∧ c.Holds c'.euid ∧ c.Holds c'.suid := by
    cases call with
    | setuid uid =>
        simp only [Ids.call, regular, if_false] at done
        split at done
        · rename_i held
          cases done
          exact ⟨real, held.elim .inl fun h => .inr (.inr h), saved⟩
        · cases done
    | seteuid euid =>
        simp only [Ids.call, regular, false_or] at done
        split at done
        · rename_i held
          cases done
          exact ⟨real, held, saved⟩
        · cases done
    | setreuid ruid euid =>
        simp only [Ids.call, regular, false_or] at done
        split at done
        · rename_i held
          have newReal : c.Holds (ruid.getD c.ruid) := kept
            (fun uid given => (held.1 uid given).elim .inl fun h => .inr (.inl h)) real
          have newEffective : c.Holds (euid.getD c.euid) := kept held.2 effective
          rw [Option.some.injEq] at done
          split at done
          · subst done
            exact ⟨newReal, newEffective, newEffective⟩
          · subst done
            exact ⟨newReal, newEffective, saved⟩
        · cases done
    | setresuid ruid euid suid =>
        simp only [Ids.call, regular, false_or] at done
        split at done
        · rename_i held
          cases done
          exact ⟨kept held.1 real, kept held.2.1 effective, kept held.2.2 saved⟩
        · cases done
  rcases holds with rfl | rfl | rfl
  · exact all.1
  · exact all.2.1
  · exact all.2.2

/-- No list of calls brings an id that is not held, unless root is. -/
theorem holds_of_after (calls : List Call) (never : ¬ c.Holds 0)
    (holds : (c.after calls).Holds uid) : c.Holds uid := by
  induction calls generalizing c with
  | nil => exact holds
  | cons call calls ih =>
      rw [after_cons] at holds
      cases done : c.call call with
      | none =>
          rw [done] at holds
          exact ih never holds
      | some c' =>
          rw [done] at holds
          have regular : c.euid ≠ 0 := fun root => never (.inr (.inl root.symm))
          exact holds_of_call regular done
            (ih (fun root => never (holds_of_call regular done root)) holds)

/-- A process can become effectively root exactly when one of its ids is root's. -/
theorem regains_root_iff : (∃ calls, (c.after calls).euid = 0) ↔ c.Holds 0 := by
  constructor
  · rintro ⟨calls, root⟩
    exact Decidable.byContradiction fun never =>
      never (holds_of_after calls never (.inr (.inl root.symm)))
  · intro holds
    exact ⟨[.seteuid 0], by simp [after, Ids.call, holds]⟩

/-- Who is one and the same regular user in all three ids stays so. -/
theorem after_dropped (regular : uid ≠ 0) (calls : List Call) :
    (Ids.mk uid uid uid).after calls = ⟨uid, uid, uid⟩ := by
  have never : ¬ (Ids.mk uid uid uid).Holds 0 := by simp [Holds, regular.symm]
  have same : ∀ id, ((Ids.mk uid uid uid).after calls).Holds id → id = uid := by
    intro id holds
    simpa [Holds] using holds_of_after calls never holds
  generalize (Ids.mk uid uid uid).after calls = now at same
  obtain ⟨r, e, s⟩ := now
  obtain rfl := same r (.inl rfl)
  obtain rfl := same e (.inr (.inl rfl))
  obtain rfl := same s (.inr (.inr rfl))
  rfl

end Ids

end SysProg.Credentials
