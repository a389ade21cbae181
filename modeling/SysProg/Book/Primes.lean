import Mathlib.Data.Nat.Prime.Basic
import SysProg.Lib.Decimal

/-! # Generating primes

`simple_primegen` divides every number of a range by the numbers below half of
the range's end.  It prints the primes in `rlimit_primes`, and appends them to a
buffer in `mt_primes1` and `mt_primes2`.
-/

namespace SysProg.Book

open Fallible CString Scan Decimal

/-- The inner loop: whether no `j` leaves it.  It stops below `limit / 2`, so that `j`
    does not wrap around. -/
def isprime (limit i : Nat) : Bool :=
  (List.range' 2 (limit / 2 - 2)).all fun j => !(i ≠ j && i % j = 0)

theorem isprime_iff_forall {limit i : Nat} :
    isprime limit i = true ↔ ∀ j, 2 ≤ j → j < limit / 2 → i ≠ j → ¬ j ∣ i := by
  simp only [isprime, List.all_eq_true, List.mem_range'_1]
  constructor
  · intro passes j low high other divides
    have passed := passes j ⟨low, by omega⟩
    simp [other, Nat.dvd_iff_mod_eq_zero.mp divides] at passed
  · intro passes j ⟨low, high⟩
    by_cases other : i ≠ j
    · have kept := passes j low (by omega) other
      rw [Nat.dvd_iff_mod_eq_zero] at kept
      simp [other, kept]
    · simp [other]

theorem isprime_of_prime {limit i : Nat} (prime : i.Prime) : isprime limit i = true := by
  refine isprime_iff_forall.mpr fun j low _ other divides => ?_
  rcases (Nat.dvd_prime prime).mp divides with one | same
  · omega
  · exact other same.symm

/-- Below 6 there is nothing to divide by. -/
theorem isprime_of_small {limit : Nat} (small : limit < 6) (i : Nat) : isprime limit i = true :=
  isprime_iff_forall.mpr fun j _ _ => by omega

/-- From 6 on every composite number up to the limit has a divisor that is tried. -/
theorem isprime_iff {limit i : Nat} (large : 6 ≤ limit) (within : i ≤ limit) :
    isprime limit i = true ↔ i = 1 ∨ i.Prime := by
  constructor
  · intro passed
    by_contra composite
    rw [not_or] at composite
    obtain ⟨other, composite⟩ := composite
    have passes := isprime_iff_forall.mp passed
    rcases Nat.eq_zero_or_pos i with rfl | positive
    · exact passes 2 (Nat.le_refl 2) (by omega) (by decide) (Nat.dvd_zero 2)
    -- the least divisor is below half of the limit
    have factor := Nat.minFac_prime other
    have square := Nat.minFac_sq_le_self positive composite
    have proper : i ≠ i.minFac := by
      intro same
      rw [same] at composite
      exact composite factor
    refine passes i.minFac factor.two_le ?_ proper (Nat.minFac_dvd i)
    rcases factor.two_le.eq_or_lt with two | more
    · omega
    · have twice : 2 * (i.minFac + 1) ≤ i.minFac ^ 2 := by
        rw [Nat.pow_two]
        calc
          2 * (i.minFac + 1) ≤ 3 * i.minFac := by omega
          _ ≤ i.minFac * i.minFac := Nat.mul_le_mul_right _ more
      omega
  · rintro (rfl | prime)
    · refine isprime_iff_forall.mpr fun j low _ _ divides => ?_
      have one := Nat.dvd_one.mp divides
      omega
    · exact isprime_of_prime prime

/-- The numbers of a range that are taken for primes. -/
def listed (start limit : Nat) : List Nat :=
  (List.range' start (limit + 1 - start)).filter (isprime limit)

/-- The primes of a range. -/
def primesIn (start limit : Nat) : List Nat :=
  (List.range' start (limit + 1 - start)).filter Nat.Prime

theorem mem_range {start limit i : Nat} :
    i ∈ List.range' start (limit + 1 - start) ↔ start ≤ i ∧ i ≤ limit := by
  rw [List.mem_range'_1]
  omega

/-- The primes are among the numbers that are listed. -/
theorem primesIn_sublist (start limit : Nat) :
    (primesIn start limit).Sublist (listed start limit) := by
  have same : primesIn start limit = (listed start limit).filter Nat.Prime := by
    rw [listed, List.filter_filter, primesIn]
    refine List.filter_congr fun i _ => ?_
    by_cases prime : i.Prime
    · simp [prime, isprime_of_prime prime]
    · simp [prime]
  rw [same]
  exact List.filter_sublist

theorem listed_eq_iff_forall {start limit : Nat} :
    listed start limit = primesIn start limit ↔
      ∀ i, start ≤ i → i ≤ limit → isprime limit i = true → i.Prime := by
  constructor
  · intro same i low high passed
    have inside : i ∈ listed start limit := List.mem_filter.mpr ⟨mem_range.mpr ⟨low, high⟩, passed⟩
    rw [same, primesIn, List.mem_filter] at inside
    exact of_decide_eq_true inside.2
  · intro only
    refine List.filter_congr fun i inside => ?_
    obtain ⟨low, high⟩ := mem_range.mp inside
    rw [Bool.eq_iff_iff, decide_eq_true_iff]
    exact ⟨only i low high, isprime_of_prime⟩

/-- Nothing else is listed, unless it is 0 or 1, or 4 below a limit of 4 or 5. -/
theorem listed_eq_iff {start limit : Nat} (ordered : start ≤ limit) :
    listed start limit = primesIn start limit ↔
      2 ≤ start ∧ ¬ (start ≤ 4 ∧ (limit = 4 ∨ limit = 5)) := by
  rw [listed_eq_iff_forall]
  by_cases large : 6 ≤ limit
  · constructor
    · intro only
      have one : ¬ start ≤ 1 := fun low =>
        Nat.not_prime_one (only 1 low (by omega) ((isprime_iff large (by omega)).mpr (.inl rfl)))
      omega
    · rintro ⟨low, _⟩ i above within passed
      exact ((isprime_iff large within).mp passed).resolve_left (by omega)
  · have all := isprime_of_small (Nat.lt_of_not_le large)
    constructor
    · intro only
      have missing {i : Nat} (composite : ¬ i.Prime) : ¬ (start ≤ i ∧ i ≤ limit) :=
        fun ⟨low, high⟩ => composite (only i low high (all i))
      have zero := missing Nat.not_prime_zero
      have one := missing Nat.not_prime_one
      have four := missing (show ¬ Nat.Prime 4 by decide)
      omega
    · rintro ⟨low, off⟩ i above within _
      have few : i = 2 ∨ i = 3 ∨ i = 5 := by omega
      rcases few with rfl | rfl | rfl
      · exact Nat.prime_two
      · exact Nat.prime_three
      · exact Nat.prime_five

/-! ## `mt_primes1` and `mt_primes2` -/

/-- `"%6d, "` of an unsigned number, which is converted to an `int`. -/
def line (i : Nat) : Bytes :=
  let number := signedDecimal (BitVec.ofNat 32 i).toInt
  List.replicate (6 - number.length) 32 ++ number ++ ascii ", "

/-- `MEM_SIZE` -/
def memSize : Nat := 100000

/-- One number, with the primes counted so far and the buffer. -/
def primegenStep (tmpbuf : CArray 128) (limit : Nat) (sofar : Nat × CArray memSize) (i : Nat) :
    Except OutOfBounds (Nat × CArray memSize) := do
  if isprime limit i then
    let tmpbuf ← tmpbuf.snprintf 128 (line i)
    let buf ← sofar.2.strncat tmpbuf.str 128
    return (sofar.1 + 1, buf)
  else
    return sofar

/-- The outer loop over the unsigned `i`, for as many passes as `fuel` allows. -/
def primegenLoop (tmpbuf : CArray 128) (limit : UInt32) :
    Nat → UInt32 → Nat × CArray memSize → Option (Except OutOfBounds (Nat × CArray memSize))
  | 0, _, _ => none
  | fuel + 1, i, sofar =>
      if i ≤ limit then
        match primegenStep tmpbuf limit.toNat sofar i.toNat with
        | .error fault => some (.error fault)
        | .ok sofar => primegenLoop tmpbuf limit fuel (i + 1) sofar
      else some (.ok sofar)

def simplePrimegen (fuel : Nat) (tmpbuf : CArray 128) (start limit : UInt32)
    (buf : CArray memSize) : Option (Except OutOfBounds (Nat × CArray memSize)) :=
  primegenLoop tmpbuf limit fuel start (0, buf)

theorem line_nonzero (i : Nat) : ∀ b ∈ line i, b ≠ 0 := by
  simp only [line, List.forall_mem_append, List.mem_replicate]
  exact ⟨⟨fun b ⟨_, is⟩ => by simp [is], signedDecimal_nonzero _⟩, by decide⟩

theorem line_length_le (i : Nat) : (line i).length < 128 := by
  have digits : (signedDecimal (BitVec.ofNat 32 i).toInt).length ≤ 11 :=
    signedDecimal_length_le (by decide) (by
      have low := (BitVec.ofNat 32 i).le_toInt
      have high := (BitVec.ofNat 32 i).toInt_lt
      omega)
  simp only [line, List.length_append, List.length_replicate]
  have two : (ascii ", ").length = 2 := rfl
  omega

/-- A prime that fits is appended. -/
theorem primegenStep_prime (tmpbuf : CArray 128) (n : Nat) {limit i : Nat} {buf : CArray memSize}
    (passed : isprime limit i = true) (fits : buf.str.length + (line i).length < memSize) :
    ∃ buf', primegenStep tmpbuf limit (n, buf) i = .ok (n + 1, buf') ∧
      buf'.str = buf.str ++ line i := by
  have short := line_length_le i
  obtain ⟨text, prints, str⟩ := tmpbuf.snprintf_ok (line_nonzero i) (by decide)
  rw [List.take_of_length_le (by omega)] at str
  obtain ⟨buf', appended, str'⟩ := buf.strncat_fits (line_nonzero i) (Nat.le_of_lt short) fits
  refine ⟨buf', ?_, str'⟩
  simp only [primegenStep, passed, if_true, prints, str, ok_bind, appended]
  rfl

theorem primegenStep_overflow {tmpbuf : CArray 128} {limit i n : Nat} {buf : CArray memSize}
    (passed : isprime limit i = true) (large : memSize ≤ buf.str.length + (line i).length) :
    primegenStep tmpbuf limit (n, buf) i = .error .outOfBounds := by
  have short := line_length_le i
  obtain ⟨text, prints, str⟩ := tmpbuf.snprintf_ok (line_nonzero i) (by decide)
  rw [List.take_of_length_le (by omega)] at str
  simp only [primegenStep, passed, if_true, prints, str, ok_bind,
    CArray.strncat_error (Nat.le_of_lt short) large]
  rfl

/-- While there is room the primes are counted and appended in their order. -/
theorem primegen_fits (tmpbuf : CArray 128) (n : Nat) {limit : Nat} {xs : List Nat}
    {buf : CArray memSize}
    (fits : buf.str.length + ((xs.filter (isprime limit)).flatMap line).length < memSize) :
    ∃ buf', xs.foldlM (primegenStep tmpbuf limit) (n, buf) =
        .ok (n + (xs.filter (isprime limit)).length, buf') ∧
      buf'.str = buf.str ++ (xs.filter (isprime limit)).flatMap line := by
  induction xs generalizing n buf with
  | nil => exact ⟨buf, rfl, by simp⟩
  | cons i xs ih =>
      rw [List.foldlM_cons]
      cases passed : isprime limit i with
      | true =>
          rw [List.filter_cons_of_pos passed, List.flatMap_cons] at fits ⊢
          rw [List.length_append] at fits
          have room : buf.str.length + (line i).length < memSize := by omega
          obtain ⟨buf₁, first, str₁⟩ := primegenStep_prime tmpbuf n passed room
          have fits₁ : buf₁.str.length + ((xs.filter (isprime limit)).flatMap line).length <
              memSize := by
            rw [str₁, List.length_append]
            omega
          obtain ⟨buf', rest, str'⟩ := ih (n + 1) fits₁
          refine ⟨buf', ?_, by rw [str', str₁, List.append_assoc]⟩
          rw [first, ok_bind, rest, List.length_cons]
          congr 2
          omega
      | false =>
          have skipped : primegenStep tmpbuf limit (n, buf) i = .ok (n, buf) := by
            simp [primegenStep, passed]
          rw [List.filter_cons_of_neg (by simp [passed])] at fits ⊢
          rw [skipped, ok_bind]
          exact ih n fits

/-- When there is not room for all of them the buffer overflows. -/
theorem primegen_overflows {tmpbuf : CArray 128} {limit : Nat} {xs : List Nat} {n : Nat}
    {buf : CArray memSize} (terminated : buf.str.length < memSize)
    (large : memSize ≤ buf.str.length + ((xs.filter (isprime limit)).flatMap line).length) :
    xs.foldlM (primegenStep tmpbuf limit) (n, buf) = .error .outOfBounds := by
  induction xs generalizing n buf with
  | nil =>
      simp only [List.filter_nil, List.flatMap_nil, List.length_nil] at large
      omega
  | cons i xs ih =>
      rw [List.foldlM_cons]
      cases passed : isprime limit i with
      | true =>
          rw [List.filter_cons_of_pos passed, List.flatMap_cons, List.length_append] at large
          by_cases room : buf.str.length + (line i).length < memSize
          · obtain ⟨buf₁, first, str₁⟩ := primegenStep_prime tmpbuf n passed room
            rw [first, ok_bind]
            apply ih
            · rwa [str₁, List.length_append]
            · rw [str₁, List.length_append]
              omega
          · rw [primegenStep_overflow passed (Nat.le_of_not_lt room)]
            rfl
      | false =>
          have skipped : primegenStep tmpbuf limit (n, buf) i = .ok (n, buf) := by
            simp [primegenStep, passed]
          rw [List.filter_cons_of_neg (by simp [passed])] at large
          rw [skipped, ok_bind]
          exact ih terminated large

/-- Every unsigned number is at most the largest, so that the loop up to it does not
    come to an end. -/
theorem primegenLoop_endless (tmpbuf : CArray 128) (fuel : Nat) (i : UInt32)
    (sofar done : Nat × CArray memSize) :
    primegenLoop tmpbuf 4294967295 fuel i sofar ≠ some (.ok done) := by
  induction fuel generalizing i sofar with
  | zero => nofun
  | succ fuel ih =>
      have within : i ≤ 4294967295 := by
        rw [UInt32.le_iff_toNat_le]
        exact Nat.le_of_lt_succ i.toNat_lt
      rw [primegenLoop, if_pos within]
      split
      · nofun
      · exact ih _ _

section loop

variable {tmpbuf : CArray 128} {limit i : UInt32}

theorem toNat_succ (below : limit ≠ 4294967295) (within : i ≤ limit) :
    (i + 1).toNat = i.toNat + 1 := by
  have small : limit.toNat ≠ 4294967295 := fun same => below (UInt32.toNat_inj.mp same)
  have bound := limit.toNat_lt
  rw [UInt32.le_iff_toNat_le] at within
  rw [UInt32.toNat_add]
  exact Nat.mod_eq_of_lt (by change i.toNat + 1 < 2 ^ 32; omega)

/-- The range that is left is the number and the range behind it. -/
theorem range_within (within : i ≤ limit) :
    List.range' i.toNat (limit.toNat + 1 - i.toNat) =
      i.toNat :: List.range' (i.toNat + 1) (limit.toNat + 1 - (i.toNat + 1)) := by
  rw [UInt32.le_iff_toNat_le] at within
  have left : limit.toNat + 1 - i.toNat = limit.toNat + 1 - (i.toNat + 1) + 1 := by omega
  rw [left, List.range'_succ]

theorem range_past (past : ¬ i ≤ limit) :
    List.range' i.toNat (limit.toNat + 1 - i.toNat) = [] := by
  rw [UInt32.le_iff_toNat_le] at past
  rw [Nat.sub_eq_zero_of_le (by omega), List.range'_zero]

/-- Where the loop ends, it has gone through the range. -/
theorem primegenLoop_eq (below : limit ≠ 4294967295) {fuel : Nat} {sofar : Nat × CArray memSize}
    {result : Except OutOfBounds (Nat × CArray memSize)}
    (ends : primegenLoop tmpbuf limit fuel i sofar = some result) :
    (List.range' i.toNat (limit.toNat + 1 - i.toNat)).foldlM
      (primegenStep tmpbuf limit.toNat) sofar = result := by
  induction fuel generalizing i sofar with
  | zero => cases ends
  | succ fuel ih =>
      rw [primegenLoop] at ends
      by_cases within : i ≤ limit
      · rw [if_pos within] at ends
        rw [range_within within, List.foldlM_cons]
        cases first : primegenStep tmpbuf limit.toNat sofar i.toNat with
        | error fault =>
            rw [first] at ends
            exact Option.some.inj ends
        | ok sofar' =>
            rw [first] at ends
            have rest := ih ends
            rw [toNat_succ below within] at rest
            exact rest
      · rw [if_neg within] at ends
        rw [range_past within]
        exact Option.some.inj ends

/-- It ends when it has fuel for the range. -/
theorem primegenLoop_ends (below : limit ≠ 4294967295) (sofar : Nat × CArray memSize) :
    ∃ fuel result, primegenLoop tmpbuf limit fuel i sofar = some result := by
  induction left : limit.toNat + 1 - i.toNat generalizing i sofar with
  | zero =>
      have past : ¬ i ≤ limit := by
        rw [UInt32.le_iff_toNat_le]
        omega
      exact ⟨1, _, by rw [primegenLoop, if_neg past]⟩
  | succ n ih =>
      have within : i ≤ limit := by
        rw [UInt32.le_iff_toNat_le]
        omega
      cases first : primegenStep tmpbuf limit.toNat sofar i.toNat with
      | error fault => exact ⟨1, .error fault, by rw [primegenLoop, if_pos within, first]⟩
      | ok sofar' =>
          obtain ⟨fuel, result, ends⟩ :=
            ih (i := i + 1) sofar' (by rw [toNat_succ below within]; omega)
          exact ⟨fuel + 1, result, by rw [primegenLoop, if_pos within, first]; exact ends⟩

end loop

/-! ### The text of the primes -/

/-- A number in six columns and a comma. -/
def entry (p : Nat) : Bytes :=
  List.replicate (6 - (decimal p).length) 32 ++ decimal p ++ ascii ", "

/-- What `%d` shows of an `unsigned int` is the number itself up to `INT_MAX`. -/
theorem line_eq_entry {p : Nat} (small : p < 2 ^ 31) : line p = entry p := by
  have number : (BitVec.ofNat 32 p).toInt = p := by
    rw [BitVec.toInt_ofNat']
    exact Int.bmod_eq_of_le (by omega) (by omega)
  rw [line, number]
  rfl

theorem line_head {p : Nat} (large : 2 ^ 31 ≤ p) (bound : p < 2 ^ 32) :
    ∀ b ∈ (line p).head?, b = 32 ∨ b = 45 := by
  have negative : (BitVec.ofNat 32 p).toInt < 0 := by
    rw [BitVec.toInt_ofNat', Int.bmod_def]
    omega
  obtain ⟨m, is⟩ := Int.eq_negSucc_of_lt_zero negative
  simp only [line, is, signedDecimal]
  intro b first
  cases pad : 6 - (45 :: decimal (m + 1)).length with
  | zero =>
      rw [pad] at first
      exact .inr (Option.some.inj first).symm
  | succ n =>
      rw [pad] at first
      exact .inl (Option.some.inj first).symm

theorem entry_head {p : Nat} (large : 2 ^ 31 ≤ p) : ∃ b ∈ (entry p).head?, isdigit b = true := by
  have long : ¬ (decimal p).length ≤ 6 := by
    intro short
    rw [decimal_eq_map, List.length_map] at short
    have small := (Nat.length_toDigits_le_iff (by decide) (by decide)).mp short
    omega
  obtain ⟨b, rest, is⟩ := List.exists_cons_of_ne_nil (decimal_ne_nil p)
  refine ⟨b, ?_, decimal_isdigit p b (by simp [is])⟩
  rw [entry, Nat.sub_eq_zero_of_le (by omega), is]
  rfl

/-- The text is that of the numbers themselves exactly when none is above `INT_MAX`. -/
theorem lines_eq_iff {ps : List Nat} (bound : ∀ p ∈ ps, p < 2 ^ 32) :
    ps.flatMap line = ps.flatMap entry ↔ ∀ p ∈ ps, p < 2 ^ 31 := by
  induction ps with
  | nil => simp
  | cons p ps ih =>
      have later := ih fun q inside => bound q (List.mem_cons_of_mem p inside)
      rw [List.flatMap_cons, List.flatMap_cons, List.forall_mem_cons]
      by_cases small : p < 2 ^ 31
      · rw [line_eq_entry small, List.append_cancel_left_eq, later]
        exact (and_iff_right small).symm
      · refine iff_of_false (fun same => ?_) fun all => small all.1
        have large := Nat.le_of_not_lt small
        have shown := line_head large (bound p (by simp))
        obtain ⟨b, first, digit⟩ := entry_head large
        have heads := congrArg List.head? same
        rw [List.head?_append, List.head?_append, Option.mem_def.mp first, Option.some_or] at heads
        cases began : (line p).head? with
        | none =>
            have empty := List.head?_eq_none_iff.mp began
            simp [line, ascii] at empty
        | some c =>
            rw [began, Option.some_or, Option.some.injEq] at heads
            rw [began] at shown
            rcases shown c rfl with rfl | rfl <;> subst heads <;> exact absurd digit (by decide)

/-- A range is turned into the text of its primes, and they are counted, exactly when
    the loop over it ends, it starts above 1, does not end at 4 or 5 behind a 4, all
    its primes are ints, and the text fits the buffer. -/
theorem simplePrimegen_primes_iff {tmpbuf : CArray 128} {start limit : UInt32}
    (ordered : start ≤ limit) :
    (∃ fuel buf, simplePrimegen fuel tmpbuf start limit (.blank memSize) =
        some (.ok ((primesIn start.toNat limit.toNat).length, buf)) ∧
      buf.str = (primesIn start.toNat limit.toNat).flatMap entry) ↔
    limit ≠ 4294967295 ∧
      (2 ≤ start.toNat ∧ ¬ (start.toNat ≤ 4 ∧ (limit.toNat = 4 ∨ limit.toNat = 5))) ∧
      (∀ p ∈ primesIn start.toNat limit.toNat, p < 2 ^ 31) ∧
      ((primesIn start.toNat limit.toNat).flatMap entry).length < memSize := by
  have none_ : (CArray.blank memSize).str.length = 0 := by rw [CArray.str_blank]; rfl
  have room (fits : ((listed start.toNat limit.toNat).flatMap line).length < memSize) :
      (CArray.blank memSize).str.length + ((listed start.toNat limit.toNat).flatMap line).length <
        memSize := by
    rwa [none_, Nat.zero_add]
  have bound : ∀ p ∈ primesIn start.toNat limit.toNat, p < 2 ^ 32 := by
    intro p inside
    have within := (mem_range.mp (List.mem_filter.mp inside).1).2
    exact Nat.lt_of_le_of_lt within limit.toNat_lt
  rw [← listed_eq_iff (UInt32.le_iff_toNat_le.mp ordered)]
  constructor
  · rintro ⟨fuel, buf, ends, text⟩
    have below : limit ≠ 4294967295 := by
      rintro rfl
      exact primegenLoop_endless _ _ _ _ _ ends
    have done := primegenLoop_eq below ends
    have fits : ((listed start.toNat limit.toNat).flatMap line).length < memSize := by
      by_contra large
      rw [primegen_overflows (by rw [none_]; decide)
        (by rw [none_, Nat.zero_add]; exact Nat.le_of_not_lt large)] at done
      cases done
    obtain ⟨buf', done', str⟩ := primegen_fits tmpbuf 0 (room fits)
    rw [done', Nat.zero_add, Except.ok.injEq, Prod.mk.injEq] at done
    obtain ⟨count, rfl⟩ := done
    have same := ((primesIn_sublist _ _).eq_of_length count.symm).symm
    change buf'.str = _ ++ (listed start.toNat limit.toNat).flatMap line at str
    rw [CArray.str_blank, List.nil_append, same, text] at str
    refine ⟨below, same, (lines_eq_iff bound).mp str.symm, ?_⟩
    rwa [str, ← same]
  · rintro ⟨below, same, ints, fits⟩
    have text := (lines_eq_iff bound).mpr ints
    rw [← text, ← same] at fits
    obtain ⟨buf, done, str⟩ := primegen_fits tmpbuf 0 (room fits)
    rw [Nat.zero_add] at done
    obtain ⟨fuel, result, ends⟩ := primegenLoop_ends (i := start) below (0, CArray.blank memSize)
    have is : result = _ := (primegenLoop_eq below ends).symm.trans done
    change buf.str = _ ++ (listed start.toNat limit.toNat).flatMap line at str
    rw [CArray.str_blank, List.nil_append, same, text] at str
    refine ⟨fuel, buf, ?_, str⟩
    rw [simplePrimegen, ends, is, ← same]
    rfl

theorem simplePrimegen_primes_iff_ten :
    ∃ fuel buf, simplePrimegen fuel (.blank 128) 2 10 (.blank memSize) = some (.ok (4, buf)) ∧
      buf.str = ascii "     2,      3,      5,      7, " := by
  have primes : primesIn 2 10 = [2, 3, 5, 7] := by decide
  have text : (primesIn 2 10).flatMap entry = ascii "     2,      3,      5,      7, " := by
    rw [primes]
    decide
  have generated := (@simplePrimegen_primes_iff (.blank 128) 2 10 (by decide)).mpr
    ⟨by decide, by decide, by decide, by
      change ((primesIn 2 10).flatMap entry).length < memSize
      rw [text]
      decide⟩
  change ∃ fuel buf, simplePrimegen fuel (.blank 128) 2 10 (.blank memSize) =
    some (.ok ((primesIn 2 10).length, buf)) ∧ buf.str = (primesIn 2 10).flatMap entry at generated
  rwa [text, primes] at generated

/-! ## `rlimit_primes` -/

/-- One number that is printed, with the line ended behind every sixteenth. -/
def printed (sofar : Nat × Bytes) (i : Nat) : Nat × Bytes :=
  let num := sofar.1 + 1
  (num, sofar.2 ++ line i ++ if num % 16 = 0 then ascii "\n" else [])

end SysProg.Book
