import Mathlib.Order.WellFounded

/-! # Programs that call an environment

A program is a tree of calls: it makes a call, the environment answers, and the
answer selects the rest.  A world says which answers a state allows and how it
changes; `Runs` is the behaviour of a program in a world.  `Safe` is proved
along the program, call by call, and says which calls are made and what holds
where it returns or stops.
-/

namespace SysProg.Interaction

/-- The calls a program can make, and what each of them answers. -/
structure Interface where
  Call : Type
  Answer : Call → Type

/-- A program over `I` that returns an `α` or stops the process with an `η`. -/
inductive Prog (I : Interface) (η α : Type) where
  | ret (a : α)
  | call (e : I.Call) (rest : I.Answer e → Prog I η α)
  | halt (h : η)

/-- How a program ends. -/
inductive Outcome (η α : Type) where
  | returned (a : α)
  | halted (h : η)

/-- Which answers a state allows, and the states they lead to. -/
abbrev World (I : Interface) (σ : Type) := σ → (e : I.Call) → I.Answer e → σ → Prop

variable {I : Interface} {η α β σ : Type}

namespace Prog

def bind : Prog I η α → (α → Prog I η β) → Prog I η β
  | .ret a, f => f a
  | .call e rest, f => .call e fun r => (rest r).bind f
  | .halt h, _ => .halt h

instance : Monad (Prog I η) where
  pure := .ret
  bind := bind

/-- One call. -/
def perform (e : I.Call) : Prog I η (I.Answer e) := .call e .ret

/-- A pure computation whose failure stops the process. -/
def checked {ε : Type} (h : η) : Except ε α → Prog I η α
  | .ok a => .ret a
  | .error _ => .halt h

@[simp] theorem pure_eq (a : α) : (pure a : Prog I η α) = .ret a := rfl

@[simp] theorem bind_eq (p : Prog I η α) (f : α → Prog I η β) : p.bind f = (p >>= f) := rfl

@[simp] theorem ret_bind (a : α) (f : α → Prog I η β) : (Prog.ret a >>= f) = f a := rfl

@[simp] theorem halt_bind (h : η) (f : α → Prog I η β) : (Prog.halt h >>= f) = .halt h := rfl

@[simp] theorem call_bind (e : I.Call) (rest : I.Answer e → Prog I η α) (f : α → Prog I η β) :
    (Prog.call e rest >>= f) = .call e fun r => rest r >>= f := rfl

@[simp] theorem perform_bind (e : I.Call) (f : I.Answer e → Prog I η β) :
    (perform e >>= f) = .call e f := rfl

theorem bind_ret (p : Prog I η α) : p.bind .ret = p := by
  induction p with
  | ret a => rfl
  | halt h => rfl
  | call e rest ih => exact congrArg (Prog.call e) (funext ih)

theorem bind_bind {γ : Type} (p : Prog I η α) (f : α → Prog I η β) (g : β → Prog I η γ) :
    (p.bind f).bind g = p.bind fun a => (f a).bind g := by
  induction p with
  | ret a => rfl
  | halt h => rfl
  | call e rest ih => exact congrArg (Prog.call e) (funext ih)

instance : LawfulMonad (Prog I η) :=
  .mk' (Prog I η) bind_ret (fun _ _ => rfl) bind_bind

/-- Every call of the program has a property, whatever the answers are. -/
def Makes (P : I.Call → Prop) : Prog I η α → Prop
  | .call e rest => P e ∧ ∀ r, (rest r).Makes P
  | .ret _ | .halt _ => True

theorem Makes.bind {P : I.Call → Prop} {p : Prog I η β} {f : β → Prog I η α} (first : p.Makes P)
    (later : ∀ b, (f b).Makes P) : (p >>= f).Makes P := by
  induction p with
  | ret b => exact later b
  | halt h => trivial
  | call e rest ih => exact ⟨first.1, fun r => ih r (first.2 r)⟩

theorem Makes.checked {ε : Type} {P : I.Call → Prop} {h : η} (x : Except ε α) :
    (Prog.checked h x : Prog I η α).Makes P := by
  cases x with
  | ok a => trivial
  | error fault => trivial

/-- What is left of a program once its first call is answered. -/
inductive Rest : Prog I η α → Prog I η α → Prop where
  | answered (e : I.Call) (rest : I.Answer e → Prog I η α) (r : I.Answer e) :
      Rest (rest r) (.call e rest)

/-- A program makes finitely many calls, whatever the answers. -/
theorem rest_wellFounded : WellFounded (Rest (I := I) (η := η) (α := α)) := by
  constructor
  intro p
  induction p with
  | ret a =>
      constructor
      intro q left
      cases left
  | halt h =>
      constructor
      intro q left
      cases left
  | call e rest ih =>
      constructor
      intro q left
      cases left with
      | answered e rest r => exact ih r

end Prog

/-- The program runs to its end from one state to another. -/
inductive Runs (W : World I σ) : Prog I η α → σ → Outcome η α → σ → Prop where
  | ret (a : α) (s : σ) : Runs W (.ret a) s (.returned a) s
  | halt (h : η) (s : σ) : Runs W (.halt h) s (.halted h) s
  | call {e : I.Call} {rest : I.Answer e → Prog I η α} {s r s₁ out s₂} :
      W s e r s₁ → Runs W (rest r) s₁ out s₂ → Runs W (.call e rest) s out s₂

/-- Every call the program makes from `s` is permitted where it is made, it
    stops the process only where `stops` holds, and returns only with `post`. -/
inductive Safe (W : World I σ) (permits : σ → I.Call → Prop) (stops : σ → η → Prop)
    (post : σ → α → Prop) : Prog I η α → σ → Prop where
  | ret {a s} : post s a → Safe W permits stops post (.ret a) s
  | halt {h s} : stops s h → Safe W permits stops post (.halt h) s
  | call {e rest s} : permits s e →
      (∀ r s', W s e r s' → Safe W permits stops post (rest r) s') →
      Safe W permits stops post (.call e rest) s

namespace Safe

variable {W : World I σ} {permits : σ → I.Call → Prop} {stops : σ → η → Prop}
  {post : σ → α → Prop} {s : σ}

theorem of_ret {a : α} (safe : Safe W permits stops post (.ret a) s) : post s a := by
  cases safe with
  | ret holds => exact holds

theorem of_halt {h : η} (safe : Safe W permits stops post (.halt h) s) : stops s h := by
  cases safe with
  | halt holds => exact holds

theorem permitted {e : I.Call} {rest : I.Answer e → Prog I η α}
    (safe : Safe W permits stops post (.call e rest) s) : permits s e := by
  cases safe with
  | call permitted _ => exact permitted

theorem answered {e : I.Call} {rest : I.Answer e → Prog I η α}
    (safe : Safe W permits stops post (.call e rest) s) {r s'} (answer : W s e r s') :
    Safe W permits stops post (rest r) s' := by
  cases safe with
  | call _ safe => exact safe r s' answer

/-- A permitted call, and the rest after every answer. -/
theorem perform {e : I.Call} {f : I.Answer e → Prog I η α} (permitted : permits s e)
    (answered : ∀ r s', W s e r s' → Safe W permits stops post (f r) s') :
    Safe W permits stops post (Prog.perform e >>= f) s := .call permitted answered

/-- A pure computation that succeeds. -/
theorem checked {ε : Type} {h : η} {x : Except ε β} {b : β} {f : β → Prog I η α} (ok : x = .ok b)
    (safe : Safe W permits stops post (f b) s) :
    Safe W permits stops post (Prog.checked h x >>= f) s := by
  subst ok
  exact safe

/-- A pure computation that fails stops the process. -/
theorem checked_error {ε : Type} {h : η} {x : Except ε β} {fault : ε} {f : β → Prog I η α}
    (error : x = .error fault) (stop : stops s h) :
    Safe W permits stops post (Prog.checked h x >>= f) s := by
  subst error
  exact .halt stop

/-- A sequence is safe when its first part is, with the rest as its post. -/
theorem bind {p : Prog I η β} {f : β → Prog I η α}
    (safe : Safe W permits stops (fun s b => Safe W permits stops post (f b) s) p s) :
    Safe W permits stops post (p >>= f) s := by
  induction p generalizing s with
  | ret b => exact safe.of_ret
  | halt h => exact .halt safe.of_halt
  | call e rest ih => exact .call safe.permitted fun r s' answer => ih r (safe.answered answer)

/-- Permissions and conclusions can be weakened. -/
theorem mono {permits' : σ → I.Call → Prop} {stops' : σ → η → Prop} {post' : σ → α → Prop}
    {p : Prog I η α} (safe : Safe W permits stops post p s)
    (calls : ∀ s e, permits s e → permits' s e) (halts : ∀ s h, stops s h → stops' s h)
    (returns : ∀ s a, post s a → post' s a) : Safe W permits' stops' post' p s := by
  induction safe with
  | ret holds => exact .ret (returns _ _ holds)
  | halt holds => exact .halt (halts _ _ holds)
  | call permitted _ ih => exact .call (calls _ _ permitted) ih

theorem consequence {post' : σ → α → Prop} {p : Prog I η α} (safe : Safe W permits stops post p s)
    (returns : ∀ s a, post s a → post' s a) : Safe W permits stops post' p s :=
  safe.mono (fun _ _ => id) (fun _ _ => id) returns

/-- What a safe program leaves behind. -/
def Ends (stops : σ → η → Prop) (post : σ → α → Prop) (s : σ) : Outcome η α → Prop
  | .returned a => post s a
  | .halted h => stops s h

theorem sound {p : Prog I η α} {out s'} (safe : Safe W permits stops post p s)
    (run : Runs W p s out s') : Ends stops post s' out := by
  induction run with
  | ret a s => exact safe.of_ret
  | halt h s => exact safe.of_halt
  | call answer _ ih => exact ih (safe.answered answer)

end Safe

/-- A sequence runs part by part. -/
theorem Runs.bind {W : World I σ} {p : Prog I η β} {f : β → Prog I η α} {s s₁ s₂ : σ} {b : β}
    {out : Outcome η α} (first : Runs W p s (.returned b) s₁) (second : Runs W (f b) s₁ out s₂) :
    Runs W (p >>= f) s out s₂ := by
  generalize ends : Outcome.returned b = middle at first
  induction first with
  | ret a s =>
      cases ends
      exact second
  | halt h s => cases ends
  | call answered _ ih => exact .call answered (ih second ends)

/-- A world that can always answer lets every program run to its end. -/
theorem Runs.exists {W : World I σ} (good : σ → Prop) {s : σ}
    (answers : ∀ s e, good s → ∃ r s', W s e r s' ∧ good s') (start : good s) (p : Prog I η α) :
    ∃ out s', Runs W p s out s' ∧ good s' := by
  induction p generalizing s with
  | ret a => exact ⟨_, s, .ret a s, start⟩
  | halt h => exact ⟨_, s, .halt h s, start⟩
  | call e rest ih =>
      obtain ⟨r, s₁, answered, good₁⟩ := answers s e start
      obtain ⟨out, s₂, run, good₂⟩ := ih r good₁
      exact ⟨out, s₂, .call answered run, good₂⟩

end SysProg.Interaction
