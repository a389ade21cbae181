import Mathlib.Data.Fintype.Perm
import Mathlib.Data.Nat.Factorial.Basic
import SysProg.Lib.Decimal
import SysProg.Lib.Locking

/-! # Critical sections

`bankacc` and `facto` each start threads that work on one global variable, with
or without a mutex around the work.  A load and a store of the variable are two
steps, between which other threads can move unless they are locked out.
-/

namespace SysProg.Book

open Decimal Locking Transition Relation

variable {τ : Type} [DecidableEq τ]

/-! ## `bankacc` -/

inductive Txn where
  | deposit (amt : Int)
  | withdraw (amt : Int)
  deriving DecidableEq

/-- `gCB_MinCredit`; `gCB_HiBalance` is for a message only. -/
def minCredit : Int := 500

/-- A sum or a difference of two `long`s, which is undefined outside their range. -/
def long? (n : Int) : Option Int := if longMin ≤ n ∧ n ≤ longMax then some n else none

/-- Where a thread stands in `worker`, with the calls before it. -/
inductive BankPc where
  | outside (todo : List Txn)
  | inside (todo : List Txn)
  /-- In `withdraw`, past its check. -/
  | granted (amt : Int) (todo : List Txn)
  /-- In `gBalance += amt`, with `gBalance` loaded. -/
  | loaded (balance amt : Int) (todo : List Txn)
  /-- Behind an overflow, where C promises nothing. -/
  | overflowed
  | unlocked
  deriving DecidableEq

inductive BankStep : BankPc × Int → BankPc × Int → Prop where
  | ignored {amt todo b} : amt ≤ 0 → BankStep (.inside (.deposit amt :: todo), b) (.inside todo, b)
  | deposit {amt todo b} : 0 < amt →
      BankStep (.inside (.deposit amt :: todo), b) (.loaded b amt todo, b)
  | breaker {amt todo b rest} : long? (b - amt) = some rest → rest < minCredit →
      BankStep (.inside (.withdraw amt :: todo), b) (.inside todo, b)
  | grant {amt todo b rest} : long? (b - amt) = some rest → ¬ rest < minCredit →
      BankStep (.inside (.withdraw amt :: todo), b) (.granted amt todo, b)
  | overflowCheck {amt todo b b'} : long? (b - amt) = none →
      BankStep (.inside (.withdraw amt :: todo), b) (.overflowed, b')
  | withdraw {amt todo b} : BankStep (.granted amt todo, b) (.loaded b (-amt) todo, b)
  | store {balance amt todo b sum} : long? (balance + amt) = some sum →
      BankStep (.loaded balance amt todo, b) (.inside todo, sum)
  | overflowStore {balance amt todo b b'} : long? (balance + amt) = none →
      BankStep (.loaded balance amt todo, b) (.overflowed, b')

def bank : Threads τ Int BankPc where
  aside _ _ _ := False
  enter _ k k' := ∃ todo, k = .outside todo ∧ k' = .inside todo
  inside _ := BankStep
  leave _ k k' := k = .inside [] ∧ k' = .unlocked

/-- A call of `deposit` or `withdraw` that nobody disturbs. -/
def Txn.apply (b : Int) : Txn → Option Int
  | .deposit amt => if amt ≤ 0 then some b else long? (b + amt)
  | .withdraw amt => (long? (b - amt)).map fun rest => if rest < minCredit then b else rest

/-- The balance with which a thread would end if it were left alone. -/
def outcome : BankPc × Int → Option Int
  | (.outside todo, b) | (.inside todo, b) => todo.foldlM Txn.apply b
  | (.granted amt todo, b) => (long? (b - amt)).bind fun b => todo.foldlM Txn.apply b
  | (.loaded balance amt todo, _) =>
      (long? (balance + amt)).bind fun b => todo.foldlM Txn.apply b
  | (.overflowed, _) => none
  | (.unlocked, b) => some b

theorem long?_eq_some {n m : Int} (fits : long? n = some m) : m = n := by
  unfold long? at fits
  split at fits
  · exact (Option.some.inj fits).symm
  · cases fits

theorem BankStep.outcome {x y : BankPc × Int} (taken : BankStep x y) : outcome y = outcome x := by
  cases taken with
  | ignored low => simp [Book.outcome, Txn.apply, low]
  | deposit high => simp [Book.outcome, Txn.apply, Int.not_le.mpr high]
  | breaker fits low => simp [Book.outcome, Txn.apply, fits, low]
  | grant fits enough => simp [Book.outcome, Txn.apply, fits, enough]
  | overflowCheck leaves => simp [Book.outcome, Txn.apply, leaves]
  | withdraw => simp [Book.outcome, Int.sub_eq_add_neg]
  | store fits => simp [Book.outcome, fits]
  | overflowStore leaves => simp [Book.outcome, leaves]

theorem outcome_run {x y : BankPc × Int} (ran : ReflTransGen BankStep x y) :
    outcome y = outcome x := by
  induction ran with
  | refl => rfl
  | tail _ taken ih => rw [taken.outcome, ih]

/-- The threads of `bankacc`, each with its calls. -/
def bankSystem (locking : Bool) (opening : Int) (plan : τ → List Txn) :
    System (Locking.State τ Int BankPc) τ :=
  system bank locking opening fun t => .outside (plan t)

/-- Between the sections: who has run, and what that has made of the balance. -/
structure Banked (plan : τ → List Txn) (opening : Int) (b : Between τ Int BankPc) : Prop where
  stage : ∀ t, (b.loc t = .outside (plan t) ∧ t ∉ b.done.map Prod.fst) ∨
    (b.loc t = .unlocked ∧ t ∈ b.done.map Prod.fst)
  nodup : (b.done.map Prod.fst).Nodup
  balance : ((b.done.map Prod.fst).flatMap plan).foldlM Txn.apply opening = some b.shared

theorem Banked.step {plan : τ → List Txn} {opening : Int} {b b' : Between τ Int BankPc} {t : τ}
    (banked : Banked plan opening b) (taken : Whole bank b t b') : Banked plan opening b' := by
  cases taken with
  | aside moved => exact moved.elim
  | whole enter ran leave =>
      obtain ⟨todo, before, rfl⟩ := enter
      obtain ⟨rfl, rfl⟩ := leave
      have mine : todo = plan t ∧ t ∉ b.done.map Prod.fst := by
        rcases banked.stage t with ⟨at_, fresh⟩ | ⟨at_, _⟩
        · rw [before, BankPc.outside.injEq] at at_
          exact ⟨at_, fresh⟩
        · rw [before] at at_
          cases at_
      obtain ⟨rfl, fresh⟩ := mine
      refine ⟨fun u => ?_, ?_, ?_⟩
      · by_cases same : u = t
        · subst same
          exact .inr ⟨Function.update_self .., by simp⟩
        · simpa [same] using banked.stage u
      · rw [List.map_append, List.nodup_append]
        refine ⟨banked.nodup, by simp, fun u inside v new => ?_⟩
        obtain rfl : v = t := by simpa using new
        rintro rfl
        exact fresh inside
      · have result := outcome_run ran
        simp only [outcome, List.foldlM_nil] at result
        simp [banked.balance, ← result]

theorem Banked.reachable {plan : τ → List Txn} {opening : Int} {b : Between τ Int BankPc}
    (reach : (atomic bank opening fun t => .outside (plan t)).Reachable b) :
    Banked plan opening b := by
  apply reach.invariant
  · rintro b rfl
    exact ⟨fun t => .inl ⟨rfl, by simp⟩, by simp, rfl⟩
  · exact fun b t b' _ banked taken => banked.step taken

/-- A thread inside its section has not unlocked. -/
theorem bank_open {todo : List Txn} {b : Int} {x : BankPc × Int}
    (ran : ReflTransGen BankStep (.inside todo, b) x) : x.1 ≠ .unlocked := by
  induction ran with
  | refl => simp
  | tail _ taken _ => cases taken <;> simp

/-- With the mutex the closing balance is that of the threads one after the other,
    in some order. -/
theorem bank_closing {plan : τ → List Txn} {opening : Int} {s : Locking.State τ Int BankPc}
    (reach : (bankSystem true opening plan).Reachable s) (finished : ∀ t, s.loc t = .unlocked) :
    ∃ order : List τ, order.Nodup ∧ (∀ t, t ∈ order) ∧
      (order.flatMap plan).foldlM Txn.apply opening = some s.shared := by
  obtain ⟨mid, before, now⟩ := refines reach
  have banked := Banked.reachable before
  have free : s.Free := by
    intro t
    cases inside : s.since t with
    | none => rfl
    | some k₀ =>
        obtain ⟨_, _, ⟨todo, _, rfl⟩, ran⟩ := now.of_inside inside
        exact absurd (finished t) (bank_open ran)
  obtain rfl := now.of_free free
  refine ⟨s.done.map Prod.fst, banked.nodup, fun t => ?_, banked.balance⟩
  have at_ : s.committed t = .unlocked := (State.committed_of_none (free t)).trans (finished t)
  rcases banked.stage t with ⟨at', _⟩ | ⟨_, inside⟩
  · rw [show s.committed t = .outside (plan t) from at'] at at_
    cases at_
  · exact inside

/-- The calls of a thread that nobody disturbs. -/
theorem bank_run {todo : List Txn} {b b' : Int} (ends : todo.foldlM Txn.apply b = some b') :
    ReflTransGen BankStep (.inside todo, b) (.inside [], b') := by
  induction todo generalizing b with
  | nil =>
      obtain rfl : b = b' := by simpa using ends
      exact .refl
  | cons txn todo ih =>
      rw [List.foldlM_cons, Option.bind_eq_bind, Option.bind_eq_some_iff] at ends
      obtain ⟨mid, applied, later⟩ := ends
      refine ReflTransGen.trans ?_ (ih later)
      cases txn with
      | deposit amt =>
          by_cases low : amt ≤ 0
          · obtain rfl : b = mid := by simpa [Txn.apply, low] using applied
            exact .single (.ignored low)
          · rw [Txn.apply, if_neg low] at applied
            exact .tail (.single (.deposit (Int.not_le.mp low))) (.store applied)
      | withdraw amt =>
          obtain ⟨rest, fits, rfl⟩ := Option.map_eq_some_iff.mp applied
          by_cases low : rest < minCredit
          · rw [if_pos low]
            exact .single (.breaker fits low)
          · rw [if_neg low]
            exact .tail (.tail (.single (.grant fits low)) .withdraw) (.store fits)

/-- The threads can take their sections in any order in which nothing overflows. -/
theorem bank_ordered {plan : τ → List Txn} {opening closing : Int} {order : List τ}
    (nodup : order.Nodup) (ends : (order.flatMap plan).foldlM Txn.apply opening = some closing) :
    ∃ b, (atomic bank opening fun t => .outside (plan t)).Reachable b ∧
      b.shared = closing ∧ (∀ t ∈ order, b.loc t = .unlocked) ∧
      ∀ t ∉ order, b.loc t = .outside (plan t) := by
  induction order using List.reverseRecOn generalizing closing with
  | nil =>
      obtain rfl : opening = closing := by simpa using ends
      exact ⟨_, .init rfl, rfl, nofun, fun _ _ => rfl⟩
  | append_singleton order t ih =>
      obtain ⟨fresh, before⟩ := (order.nodup_concat t).mp (List.concat_eq_append ▸ nodup)
      rw [List.flatMap_append, List.foldlM_append, Option.bind_eq_bind,
        Option.bind_eq_some_iff] at ends
      obtain ⟨mid, first, last⟩ := ends
      obtain ⟨b, reach, rfl, unlocked, outside⟩ := ih before first
      have whole : Whole bank b t _ :=
        .whole ⟨plan t, outside t fresh, rfl⟩ (bank_run (by simpa using last)) ⟨rfl, rfl⟩
      refine ⟨_, reach.step whole, rfl, fun u member => ?_, fun u absent => ?_⟩
      · by_cases same : u = t
        · simp [same]
        · simpa [same] using unlocked u (by simpa [same] using member)
      · have apart : u ∉ order ∧ u ≠ t := by simpa using absent
        simpa [apart.2] using outside u apart.1

/-- With the mutex the closing balances are those of the threads one after the other, as
    long as no sum leaves a `long`: every run that ends has the balance of some order, and
    every order without an overflow has a run. -/
theorem bank_closing_iff {plan : τ → List Txn} {opening closing : Int} :
    (∃ s, (bankSystem true opening plan).Reachable s ∧ (∀ t, s.loc t = .unlocked) ∧
      s.shared = closing) ↔
    ∃ order : List τ, order.Nodup ∧ (∀ t, t ∈ order) ∧
      (order.flatMap plan).foldlM Txn.apply opening = some closing := by
  constructor
  · rintro ⟨s, reach, finished, rfl⟩
    exact bank_closing reach finished
  · rintro ⟨order, nodup, all, ends⟩
    obtain ⟨b, reach, balance, unlocked, _⟩ := bank_ordered nodup ends
    exact ⟨_, realizes reach, fun t => unlocked t (all t), balance⟩

/-- What keeps the balance above the minimum, also in the middle of a section. -/
def Covered : BankPc × Int → Prop
  | (.granted amt _, b) => minCredit ≤ b ∧ minCredit ≤ b - amt
  | (.loaded balance amt _, b) => minCredit ≤ b ∧ minCredit ≤ balance + amt
  | (.overflowed, _) => True
  | (_, b) => minCredit ≤ b

theorem Covered.run {x y : BankPc × Int} (covered : Covered x) (ran : ReflTransGen BankStep x y) :
    Covered y := by
  induction ran with
  | refl => exact covered
  | tail _ taken ih =>
      cases taken with
      | ignored | breaker => exact ih
      | deposit high =>
          simp only [Covered] at ih ⊢
          omega
      | grant fits enough =>
          obtain rfl := long?_eq_some fits
          simp only [Covered] at ih ⊢
          omega
      | withdraw =>
          simp only [Covered] at ih ⊢
          omega
      | store fits =>
          obtain rfl := long?_eq_some fits
          exact ih.2
      | overflowCheck | overflowStore => trivial

theorem Covered.balance {x : BankPc × Int} (covered : Covered x) (defined : x.1 ≠ .overflowed) :
    minCredit ≤ x.2 := by
  obtain ⟨k, b⟩ := x
  cases k with
  | granted | loaded => exact covered.1
  | outside | inside | unlocked => exact covered
  | overflowed => exact absurd rfl defined

/-- With the mutex the circuit breaker holds: as long as no sum has left a `long`, the
    balance never falls below the minimum credit, whatever the calls and their order are. -/
theorem bank_min_credit {plan : τ → List Txn} {opening : Int} {s : Locking.State τ Int BankPc}
    (reach : (bankSystem true opening plan).Reachable s) (enough : minCredit ≤ opening)
    (defined : ∀ t, s.loc t ≠ .overflowed) : minCredit ≤ s.shared := by
  obtain ⟨mid, before, now⟩ := refines reach
  have covered : minCredit ≤ (s.between mid).shared := by
    apply before.invariant (I := fun b => minCredit ≤ b.shared)
    · rintro b rfl
      exact enough
    · intro b t b' _ above taken
      cases taken with
      | aside moved => exact above
      | whole enter ran leave =>
          obtain ⟨todo, _, rfl⟩ := enter
          obtain ⟨rfl, rfl⟩ := leave
          exact (Covered.run (x := (.inside todo, b.shared)) above ran).balance (by simp)
  rcases now.split with ⟨_, is⟩ | ⟨t, k₀, k₁, _, ⟨todo, _, rfl⟩, inside⟩
  · rw [is]
    exact covered
  · exact (Covered.run (x := (.inside todo, mid)) covered inside).balance (defined t)

/-- A thread that deposits, and is refused in the same section. -/
theorem bank_min_credit_refused : ∃ s : Locking.State (Fin 2) Int BankPc,
    (bankSystem true 600 fun _ => [.deposit 100, .withdraw 300]).Reachable s ∧
      s.loc 0 = .inside [] ∧ s.shared = 700 ∧ (∀ t, s.loc t ≠ .overflowed) ∧
      minCredit ≤ s.shared := by
  have entered : (bankSystem true 600 fun _ : Fin 2 => [.deposit 100, .withdraw 300]).Reachable _ :=
    .step (.init rfl) (.enter (t := 0) rfl (by simp [State.Free]) ⟨_, rfl, rfl⟩)
  have loaded := entered.step (.inside (t := 0) rfl (.deposit (by decide)))
  have stored := loaded.step
    (.inside (t := 0) rfl (.store (show long? (600 + 100) = some 700 by decide)))
  have refused := stored.step
    (.inside (t := 0) rfl (.breaker (show long? (700 - 300) = some 400 by decide) (by decide)))
  refine ⟨_, refused, rfl, rfl, fun t => ?_, bank_min_credit refused (by decide) fun t => ?_⟩
  all_goals match t with
    | 0 => exact nofun
    | 1 => exact nofun

/-- The two threads of the program. -/
def bankaccPlan : Fin 2 → List Txn
  | 0 => [.deposit 3000, .withdraw 250]
  | 1 => [.withdraw 9000, .deposit 1000]

theorem orders_of_two {order : List (Fin 2)} (nodup : order.Nodup) (all : ∀ t, t ∈ order) :
    order = [0, 1] ∨ order = [1, 0] := by
  have short := nodup.length_le_card
  rw [Fintype.card_fin] at short
  match order with
  | [] => exact absurd (all 0) List.not_mem_nil
  | [a] =>
      have zero := List.mem_singleton.mp (all 0)
      have one := List.mem_singleton.mp (all 1)
      exact absurd (zero.trans one.symm) (by decide)
  | [a, b] =>
      revert a b
      decide
  | _ :: _ :: _ :: _ =>
      simp only [List.length_cons] at short
      omega

/-- The run in which the first thread loads the balance, and stores its own after
    all that the second one does. -/
theorem bankacc_raced : ∃ s : Locking.State (Fin 2) Int BankPc,
    (bankSystem false 12000 bankaccPlan).Reachable s ∧ (∀ t, s.loc t = .unlocked) ∧
      s.shared = 14750 := by
  have entered : (bankSystem false 12000 bankaccPlan).Reachable _ :=
    .step (.init rfl) (.enter (t := 0) rfl (by simp) ⟨_, rfl, rfl⟩)
  have loaded := entered.step (.inside (t := 0) rfl (.deposit (by decide)))
  have entered' := loaded.step (.enter (t := 1) rfl (by simp) ⟨_, rfl, rfl⟩)
  have granted := entered'.step
    (.inside (t := 1) rfl (.grant (show long? (12000 - 9000) = some 3000 by decide) (by decide)))
  have loaded' := granted.step (.inside (t := 1) rfl .withdraw)
  have stored' := loaded'.step
    (.inside (t := 1) rfl (.store (show long? (12000 + -9000) = some 3000 by decide)))
  have deposit' := stored'.step (.inside (t := 1) rfl (.deposit (by decide)))
  have stored'' := deposit'.step
    (.inside (t := 1) rfl (.store (show long? (3000 + 1000) = some 4000 by decide)))
  have left' := stored''.step (.leave (t := 1) rfl ⟨rfl, rfl⟩)
  have stored := left'.step
    (.inside (t := 0) rfl (.store (show long? (12000 + 3000) = some 15000 by decide)))
  have granted' := stored.step
    (.inside (t := 0) rfl (.grant (show long? (15000 - 250) = some 14750 by decide) (by decide)))
  have withdrawn := granted'.step (.inside (t := 0) rfl .withdraw)
  have last := withdrawn.step
    (.inside (t := 0) rfl (.store (show long? (15000 + -250) = some 14750 by decide)))
  have left := last.step (.leave (t := 0) rfl ⟨rfl, rfl⟩)
  refine ⟨_, left, fun t => ?_, rfl⟩
  match t with
  | 0 => rfl
  | 1 => rfl

/-- With locking the closing balance is 6750 in every run; without it there is a
    run that loses what the second thread does. -/
theorem bankacc_closing_balance :
    (∀ s, (bankSystem true 12000 bankaccPlan).Reachable s → (∀ t, s.loc t = .unlocked) →
      s.shared = 6750) ∧
    ∃ s, (bankSystem false 12000 bankaccPlan).Reachable s ∧ (∀ t, s.loc t = .unlocked) ∧
      s.shared = 14750 := by
  refine ⟨fun s reach finished => ?_, bankacc_raced⟩
  obtain ⟨order, nodup, all, closing⟩ := bank_closing reach finished
  rcases orders_of_two nodup all with rfl | rfl
  · have ends : ([0, 1].flatMap bankaccPlan).foldlM Txn.apply 12000 = some 6750 := by decide
    exact Option.some.inj (closing.symm.trans ends)
  · have ends : ([1, 0].flatMap bankaccPlan).foldlM Txn.apply 12000 = some 6750 := by decide
    exact Option.some.inj (closing.symm.trans ends)

/-! ## `facto` -/

/-- The numbers whose factorial a thread can want: 10 and 12 in the program, and any
    below `INT_MAX`, which `i` has to pass. -/
abbrev FactoNum := Fin (2 ^ 31 - 1)

/-- Where a thread stands in `worker`, with its number. -/
inductive FactoPc where
  | outside (num : Nat)
  | starting (num : Nat)
  /-- At the test of the loop. -/
  | looping (i num : Nat)
  /-- In `gFactorial *= i`, with `gFactorial` loaded. -/
  | loaded (product : UInt64) (i num : Nat)
  | printed (fact : UInt64)
  | unlocked (fact : UInt64)
  deriving DecidableEq

inductive FactoStep : FactoPc × UInt64 → FactoPc × UInt64 → Prop where
  | start {num fact} : FactoStep (.starting num, fact) (.looping 1 num, 1)
  | load {i num fact} : i ≤ num → FactoStep (.looping i num, fact) (.loaded fact i num, fact)
  | store {product i num fact} :
      FactoStep (.loaded product i num, fact) (.looping (i + 1) num, product * UInt64.ofNat i)
  | print {i num fact} : num < i → FactoStep (.looping i num, fact) (.printed fact, fact)

def facto : Threads τ UInt64 FactoPc where
  aside _ _ _ := False
  enter _ k k' := ∃ num, k = .outside num ∧ k' = .starting num
  inside _ := FactoStep
  leave _ k k' := ∃ fact, k = .printed fact ∧ k' = .unlocked fact

/-- The threads of `facto`, each with its number. -/
def factoSystem (locking : Bool) (nums : τ → FactoNum) :
    System (Locking.State τ UInt64 FactoPc) τ :=
  system facto locking 1 fun t => .outside (nums t : Nat)

/-- How far `factorize(num)` has come when nobody disturbs it. -/
def Multiplied (num : Nat) : FactoPc × UInt64 → Prop
  | (.starting num', _) => num' = num
  | (.looping i num', fact) =>
      num' = num ∧ 1 ≤ i ∧ i ≤ num + 1 ∧ fact = UInt64.ofNat (i - 1).factorial
  | (.loaded product i num', _) =>
      num' = num ∧ 1 ≤ i ∧ i ≤ num ∧ product = UInt64.ofNat (i - 1).factorial
  | (.printed fact, _) => fact = UInt64.ofNat num.factorial
  | (.outside _, _) | (.unlocked _, _) => False

theorem Multiplied.step {num : Nat} {x y : FactoPc × UInt64} (sofar : Multiplied num x)
    (taken : FactoStep x y) : Multiplied num y := by
  cases taken with
  | start => exact ⟨sofar, le_rfl, by omega, rfl⟩
  | load below =>
      obtain ⟨rfl, low, _, product⟩ := sofar
      exact ⟨rfl, low, below, product⟩
  | @store product i num' fact =>
      obtain ⟨rfl, low, below, rfl⟩ := sofar
      refine ⟨rfl, by omega, by omega, ?_⟩
      obtain ⟨j, rfl⟩ := Nat.exists_eq_succ_of_ne_zero (show i ≠ 0 by omega)
      have next : (j + 1 + 1 - 1).factorial = (j + 1) * j.factorial := Nat.factorial_succ j
      rw [next, UInt64.ofNat_mul, UInt64.mul_comm]
      rfl
  | print above =>
      obtain ⟨rfl, _, high, product⟩ := sofar
      obtain rfl : _ = _ := Nat.le_antisymm high above
      exact product

theorem Multiplied.run {num : Nat} {x y : FactoPc × UInt64} (sofar : Multiplied num x)
    (ran : ReflTransGen FactoStep x y) : Multiplied num y := by
  induction ran with
  | refl => exact sofar
  | tail _ taken ih => exact ih.step taken

/-- Between the sections a thread has not begun, or has printed its factorial. -/
def Printed (nums : τ → FactoNum) (b : Between τ UInt64 FactoPc) : Prop :=
  ∀ t, b.loc t = .outside (nums t) ∨ b.loc t = .unlocked (UInt64.ofNat (nums t : Nat).factorial)

theorem Printed.step {nums : τ → FactoNum} {b b' : Between τ UInt64 FactoPc} {t : τ}
    (printed : Printed nums b) (taken : Whole facto b t b') : Printed nums b' := by
  cases taken with
  | aside moved => exact moved.elim
  | whole enter ran leave =>
      obtain ⟨num, before, rfl⟩ := enter
      obtain ⟨fact, rfl, rfl⟩ := leave
      intro u
      by_cases same : u = t
      · subst same
        obtain rfl : num = nums u := by
          rcases printed u with at_ | at_
          · rwa [before, FactoPc.outside.injEq] at at_
          · rw [before] at at_
            cases at_
        have begun : Multiplied (nums u) (.starting (nums u), b.shared) := rfl
        obtain rfl : fact = _ := begun.run ran
        exact .inr (Function.update_self ..)
      · simpa [same] using printed u

/-- With the mutex every thread prints the factorial of its own number, modulo
    2^64, whatever order the threads run in. -/
theorem facto_printed {nums : τ → FactoNum} {s : Locking.State τ UInt64 FactoPc} {t : τ}
    {fact : UInt64}
    (reach : (factoSystem true nums).Reachable s) (finished : s.loc t = .unlocked fact) :
    fact = UInt64.ofNat (nums t : Nat).factorial := by
  obtain ⟨mid, before, now⟩ := refines reach
  have printed : Printed nums (s.between mid) := by
    apply before.invariant
    · rintro b rfl
      exact fun t => .inl rfl
    · exact fun b t b' _ printed taken => printed.step taken
  cases inside : s.since t with
  | none =>
      have at_ : s.committed t = .unlocked fact := (State.committed_of_none inside).trans finished
      rcases printed t with at' | at'
      · rw [show s.committed t = .outside (nums t) from at'] at at_
        cases at_
      · rw [show s.committed t = .unlocked _ from at', FactoPc.unlocked.injEq] at at_
        exact at_.symm
  | some k₀ =>
      -- a thread inside its section has not unlocked
      obtain ⟨_, _, ⟨num, _, rfl⟩, ran⟩ := now.of_inside inside
      have begun : Multiplied num (.starting num, mid) := rfl
      have still := begun.run ran
      rw [finished] at still
      exact still.elim

/-- A thread can go through the rest of its loop while no other thread moves. -/
theorem factorize_alone {nums : τ → FactoNum} {locking : Bool} {t : τ} {k₀ : FactoPc} {num : Nat}
    (left : Nat) : ∀ {s : Locking.State τ UInt64 FactoPc} {i : Nat},
    (factoSystem locking nums).Reachable s → s.since t = some k₀ → s.loc t = .looping i num →
    i + left = num + 1 → ∃ s', (factoSystem locking nums).Reachable s' ∧ s'.since = s.since ∧
      s'.loc t = .looping (num + 1) num ∧ ∀ u ≠ t, s'.loc u = s.loc u := by
  induction left with
  | zero =>
      intro s i reach entered looping last
      obtain rfl : i = num + 1 := last
      exact ⟨s, reach, rfl, looping, fun _ _ => rfl⟩
  | succ left ih =>
      intro s i reach entered looping last
      obtain ⟨s₁, loaded, since₁, _, loc₁⟩ :=
        reach_inside reach entered looping (.load (by omega))
      obtain ⟨s₂, stored, since₂, _, loc₂⟩ :=
        reach_inside (t := t) loaded (by rw [since₁, entered]) (by rw [loc₁, Function.update_self])
          .store
      obtain ⟨s', reach', since, at_, others⟩ :=
        ih stored (by rw [since₂, since₁, entered]) (by rw [loc₂, Function.update_self]) (by omega)
      refine ⟨s', reach', by rw [since, since₂, since₁], at_, fun u other => ?_⟩
      rw [others u other, loc₂, Function.update_of_ne other, loc₁, Function.update_of_ne other]

/-- Without it any thread can print 1, when another one starts its own product
    before the print. -/
theorem facto_raced (nums : τ → FactoNum) {t u : τ} (other : u ≠ t) :
    ∃ s, (factoSystem false nums).Reachable s ∧ s.loc t = .unlocked 1 := by
  have begun : (factoSystem false nums).Reachable _ := .init rfl
  obtain ⟨s₀, entered, since₀, loc₀⟩ :=
    reach_enter (t := t) begun rfl rfl ⟨nums t, rfl, rfl⟩
  obtain ⟨s₁, started, since₁, _, loc₁⟩ :=
    reach_inside (t := t) entered (by rw [since₀, Function.update_self])
      (by rw [loc₀, Function.update_self]) .start
  obtain ⟨s₂, looped, since₂, at_, others⟩ :=
    factorize_alone (t := t) (nums t) started (by rw [since₁, since₀, Function.update_self])
      (by rw [loc₁, Function.update_self]) (by omega)
  obtain ⟨s₃, entered', since₃, loc₃⟩ :=
    reach_enter (t := u) looped
      (by rw [since₂, since₁, since₀, Function.update_of_ne other])
      (by rw [others u other, loc₁, Function.update_of_ne other, loc₀, Function.update_of_ne other])
      ⟨nums u, rfl, rfl⟩
  obtain ⟨s₄, started', since₄, shared₄, loc₄⟩ :=
    reach_inside (t := u) entered' (by rw [since₃, Function.update_self])
      (by rw [loc₃, Function.update_self]) .start
  have inside : s₄.since t = some (.outside (nums t)) := by
    rw [since₄, since₃, Function.update_of_ne other.symm, since₂, since₁, since₀,
      Function.update_self]
  obtain ⟨s₅, printed, since₅, _, loc₅⟩ :=
    reach_inside (t := t) started' inside
      (by rw [loc₄, Function.update_of_ne other.symm, loc₃, Function.update_of_ne other.symm, at_])
      (.print (by omega))
  have left := printed.step
    (.leave (t := t) (by rw [since₅, inside])
      ⟨s₄.shared, by rw [loc₅, Function.update_self], rfl⟩)
  exact ⟨_, left, by simp [shared₄]⟩

/-- Where a thread can stand when no number is above 1 and every product is 1. -/
def Ones : FactoPc → Prop
  | .outside num | .starting num => num ≤ 1
  | .looping i num => 1 ≤ i ∧ num ≤ 1
  | .loaded product i num => product = 1 ∧ i = 1 ∧ num ≤ 1
  | .printed fact | .unlocked fact => fact = 1

theorem Ones.step {x y : FactoPc × UInt64} (ones : Ones x.1) (product : x.2 = 1)
    (taken : FactoStep x y) : Ones y.1 ∧ y.2 = 1 := by
  cases taken with
  | start => exact ⟨⟨le_rfl, ones⟩, rfl⟩
  | load below => exact ⟨⟨product, by have := ones.1; have := ones.2; omega, ones.2⟩, product⟩
  | store =>
      obtain ⟨rfl, rfl, small⟩ := ones
      exact ⟨⟨by decide, small⟩, rfl⟩
  | print _ => exact ⟨product, product⟩

/-- Without the mutex numbers up to 1 do no harm to each other. -/
theorem facto_small {nums : τ → FactoNum} {locking : Bool} {s : Locking.State τ UInt64 FactoPc}
    (small : ∀ t, (nums t : Nat) ≤ 1) (reach : (factoSystem locking nums).Reachable s) :
    s.shared = 1 ∧ ∀ t, Ones (s.loc t) := by
  apply reach.invariant (I := fun s => s.shared = 1 ∧ ∀ t, Ones (s.loc t))
  · rintro s rfl
    exact ⟨rfl, small⟩
  · rintro s t s' _ ⟨product, ones⟩ taken
    have moves {k : FactoPc} (new : Ones k) (u : τ) : Ones (Function.update s.loc t k u) := by
      by_cases same : u = t
      · subst same
        rwa [Function.update_self]
      · rw [Function.update_of_ne same]
        exact ones u
    have mine := ones t
    cases taken with
    | aside _ moved => exact moved.elim
    | enter _ _ moved =>
        obtain ⟨num, at_, rfl⟩ := moved
        rw [at_] at mine
        exact ⟨product, moves mine⟩
    | inside _ moved =>
        obtain ⟨new, product'⟩ := Ones.step mine product moved
        exact ⟨product', moves new⟩
    | leave _ moved =>
        obtain ⟨fact, at_, rfl⟩ := moved
        rw [at_] at mine
        exact ⟨product, moves mine⟩

/-- Every thread prints the factorial of its own number, modulo 2^64, exactly with the
    mutex, or when there is one thread only, or no number above 1. -/
theorem facto_printed_iff {nums : τ → FactoNum} {locking : Bool} :
    (∀ s t fact, (factoSystem locking nums).Reachable s → s.loc t = .unlocked fact →
      fact = UInt64.ofNat (nums t : Nat).factorial) ↔
    locking = true ∨ Subsingleton τ ∨ ∀ t, (nums t : Nat) ≤ 1 := by
  constructor
  · intro right
    by_contra wrong
    simp only [not_or, not_forall, not_subsingleton_iff_nontrivial] at wrong
    obtain ⟨unlocked, several, t, high⟩ := wrong
    obtain ⟨u, other⟩ := exists_ne t
    obtain rfl : locking = false := by simpa using unlocked
    obtain ⟨s, reach, finished⟩ := facto_raced nums other
    have one := right s t 1 reach finished
    have even : 2 ∣ (nums t : Nat).factorial := Nat.dvd_factorial (by decide) (by omega)
    have odd : (nums t : Nat).factorial % 2 ^ 64 = 1 := by
      have same := congrArg UInt64.toNat one
      rw [UInt64.toNat_ofNat'] at same
      exact same.symm
    omega
  · rintro (rfl | alone | small) s t fact reach finished
    · exact facto_printed reach finished
    · exact facto_printed (reach_of_subsingleton reach) finished
    · have one := (facto_small small reach).2 t
      rw [finished] at one
      obtain rfl : fact = 1 := one
      rw [Nat.factorial_eq_one.mpr (small t)]
      rfl

end SysProg.Book
