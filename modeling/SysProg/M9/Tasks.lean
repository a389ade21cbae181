import Mathlib.Tactic.Ring
import SysProg.Lib.Decimal
import SysProg.M9.RequestServer

/-! # The work functions

Each of the three work functions makes one message of its argument, hands it to
`log_message` and frees the argument.  The argument is cast to what the function
expects, so only the pairs that `create_request` makes are defined.
-/

namespace SysProg.M9

open CString Decimal

/-- What `snprintf(buf, size, ...)` leaves in `buf` of a rendered text. -/
def printed (size : Nat) (text : Bytes) : Bytes := text.take (size - 1)

/-- `sum += i` -/
def addTo (sum : Int) (i : Nat) : Int := sum + i

/-- The loop of `compute_sum`: the sum of the numbers below `n`. -/
def sumBelow (n : Int) : Int := (List.range n.toNat).foldl addTo 0

/-- `compute_sum`'s message, in its `buf[100]`. -/
def sumMessage (n : Int) : Bytes :=
  printed 100 (ascii "Sum of numbers < " ++ signedDecimal n ++ ascii " is " ++
    signedDecimal (sumBelow n))

/-- `delay_task`'s message, in its `buf[100]`. -/
def delayMessage (tvSec tvNsec : Int) : Bytes :=
  printed 100 (ascii "Simulated delay of " ++ signedDecimal tvSec ++ ascii " seconds and " ++
    signedDecimal (tvNsec.tdiv 1000000) ++ ascii " milliseconds.")

/-- What a work function passes to `log_message`. -/
def taskMessage : Request → Option Bytes
  | ⟨.writeLog, .message text⟩ => some (ascii text)
  | ⟨.computeSum, .number n⟩ => some (sumMessage n)
  | ⟨.delayTask, .delay tvSec tvNsec⟩ => some (delayMessage tvSec tvNsec)
  | _ => none

/-- The text of a `snprintf` that is large enough is whole. -/
theorem printed_eq {size : Nat} {text : Bytes} (fits : text.length < size) :
    printed size text = text := List.take_of_length_le (by omega)

/-- The loop adds up to the triangular number. -/
theorem two_mul_sumBelow (n : Nat) : 2 * sumBelow n = n * (n - 1) := by
  have sums : ∀ k : Nat, 2 * (List.range k).foldl addTo 0 = k * (k - 1) := by
    intro k
    induction k with
    | zero => rfl
    | succ k ih =>
        rw [List.range_succ, List.foldl_append, List.foldl_cons, List.foldl_nil, addTo, mul_add, ih]
        push_cast
        ring
  exact sums n

/-! ## What the requests of `main` say -/

/-- The line a request is for. -/
def Request.text : Request → Bytes
  | ⟨_, .message text⟩ => ascii text
  | ⟨_, .number n⟩ =>
      ascii "Sum of numbers < " ++ signedDecimal n ++ ascii " is " ++
        signedDecimal (n * (n - 1) / 2)
  | ⟨_, .delay tvSec tvNsec⟩ =>
      ascii "Simulated delay of " ++ signedDecimal tvSec ++ ascii " seconds and " ++
        signedDecimal (tvNsec / 1000000) ++ ascii " milliseconds."

/-- A random delay is normalised and of as many milliseconds as the range allows. -/
theorem randomSleepTimeInRange_between {minMs maxMs : Int} (rand : Nat) (low : 0 ≤ minMs)
    (range : minMs ≤ maxMs) :
    ∃ tvSec tvNsec, randomSleepTimeInRange minMs maxMs rand = .delay tvSec tvNsec ∧
      0 ≤ tvSec ∧ 0 ≤ tvNsec ∧ tvNsec < 1000000000 ∧
      minMs ≤ tvSec * 1000 + tvNsec / 1000000 ∧ tvSec * 1000 + tvNsec / 1000000 ≤ maxMs := by
  have valid : ¬ (minMs > maxMs ∨ minMs < 0) := by omega
  have below := Int.emod_lt_of_pos (rand : Int) (show 0 < maxMs - minMs + 1 by omega)
  have above := Int.emod_nonneg (rand : Int) (show maxMs - minMs + 1 ≠ 0 by omega)
  rw [randomSleepTimeInRange, if_neg valid]
  refine ⟨_, _, rfl, ?_, ?_, ?_, ?_, ?_⟩ <;> omega

theorem sumMessage_eq {n : Int} (low : 0 ≤ n) (high : n < 1000) :
    sumMessage n = Request.text ⟨.computeSum, .number n⟩ := by
  obtain ⟨n, rfl⟩ := Int.eq_ofNat_of_zero_le low
  have sum : sumBelow n = (n : Int) * (n - 1) / 2 := by
    have twice := two_mul_sumBelow n
    omega
  have small : ((n : Int) * (n - 1) / 2).natAbs < 10 ^ 6 := by
    cases n with
    | zero => decide
    | succ n =>
        have large : (n + 1) * n ≤ 999 * 998 := Nat.mul_le_mul (by omega) (by omega)
        have cast : ((n + 1 : Nat) : Int) * ((n + 1 : Nat) - 1) = ((n + 1) * n : Nat) := by
          push_cast
          ring
        rw [cast]
        omega
  have first := signedDecimal_length_le (n := n) (k := 3) (by decide) (by omega)
  have second := signedDecimal_length_le (k := 6) (by decide) small
  have texts : (ascii "Sum of numbers < ").length = 17 ∧ (ascii " is ").length = 4 := by decide
  rw [sumMessage, sum, printed_eq]
  · rfl
  · simp only [List.length_append, texts]
    omega

theorem delayMessage_eq {tvNsec : Int} (low : 0 ≤ tvNsec) (high : tvNsec < 1000000000) :
    delayMessage 0 tvNsec = Request.text ⟨.delayTask, .delay 0 tvNsec⟩ := by
  have millis : tvNsec.tdiv 1000000 = tvNsec / 1000000 := Int.tdiv_eq_ediv_of_nonneg low
  have first := signedDecimal_length_le (n := 0) (k := 1) (by decide) (by decide)
  have second := signedDecimal_length_le (n := tvNsec / 1000000) (k := 3) (by decide) (by omega)
  have texts : (ascii "Simulated delay of ").length = 19 ∧ (ascii " seconds and ").length = 13 ∧
      (ascii " milliseconds.").length = 14 := by decide
  rw [delayMessage, millis, printed_eq]
  · rfl
  · simp only [List.length_append, texts]
    omega

/-- Every request that `create_request` makes says what it is for, uncut. -/
theorem createRequest_message {rand msgCount : Nat} {draw : Draw} {req : Request}
    (made : (createRequest (rand % 3) msgCount draw).1 = some req) :
    taskMessage req = some req.text := by
  have task : rand % 3 = 0 ∨ rand % 3 = 1 ∨ rand % 3 = 2 := by omega
  cases request : draw.requestMalloc with
  | false => simp [createRequest, request] at made
  | true =>
      cases arg : draw.argMalloc with
      | false => rcases task with h | h | h <;> simp [createRequest, h, request, arg] at made
      | true =>
          rcases task with h | h | h <;>
            simp only [createRequest, h, request, arg, Bool.not_true, Bool.false_eq_true, if_false,
              Option.some.injEq] at made
          · subst made
            rfl
          · subst made
            exact congrArg some (sumMessage_eq (by omega) (by omega))
          · obtain ⟨tvSec, tvNsec, delay, positive, low, high, _, atMost⟩ :=
              randomSleepTimeInRange_between draw.argRand (show (0 : Int) ≤ 25 by decide)
                (show (25 : Int) ≤ 250 by decide)
            obtain rfl : tvSec = 0 := by omega
            rw [delay] at made
            subst made
            exact congrArg some (delayMessage_eq low high)

theorem mainRequests_length (msgCount : Nat) (draws : List Draw) :
    (mainRequests msgCount draws).length = draws.length := by
  induction draws generalizing msgCount with
  | nil => rfl
  | cons draw draws ih => simp [mainRequests, ih]

theorem mainRequests_message {draws : List Draw} (msgCount : Nat) {req : Request}
    (planned : some req ∈ mainRequests msgCount draws) : taskMessage req = some req.text := by
  induction draws generalizing msgCount with
  | nil => simp [mainRequests] at planned
  | cons draw draws ih =>
      rcases List.mem_cons.mp planned with now | later
      · exact createRequest_message now.symm
      · exact ih _ later

end SysProg.M9
