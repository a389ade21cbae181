import Mathlib.Algebra.BigOperators.Group.Finset.Basic
import Mathlib.Data.BitVec
import SysProg.Lib.Footprints

/-! # Two matrix multiplications

`prcs_matrixmul` multiplies two matrices in one loop, `thrd_matrixmul` with one
thread for each core, which take equal blocks of rows.  No mutex protects the
product.  The entries are `int`s, whose sums wrap here; in both programs they are 2 and
3, so that no sum leaves the range.
-/

namespace SysProg.Book

open Footprints Transition Relation

abbrev CInt := BitVec 32

/-- Rows and columns. -/
abbrev IntMatrix := Nat × Nat → CInt

variable {n cores : Nat} {a b : Nat → Nat → CInt}

/-- The first `k` products of an entry, added up. -/
def dot (a b : Nat → Nat → CInt) (i j k : Nat) : CInt := ∑ x ∈ Finset.range k, a i x * b x j

/-! ## `prcs_matrixmul` -/

def forLoop {σ : Type} (n : Nat) (body : Nat → σ → σ) (s : σ) : σ :=
  (List.range n).foldl (fun s i => body i s) s

/-- The three loops of `main`, from a product of zeros. -/
def prcsMatrixmul (n : Nat) (a b : Nat → Nat → CInt) : IntMatrix :=
  forLoop n (fun i => forLoop n fun j => forLoop n fun k (c : IntMatrix) =>
    Function.update c (i, j) (c (i, j) + a i k * b k j)) fun _ => 0

theorem forLoop_succ {σ : Type} (n : Nat) (body : Nat → σ → σ) (s : σ) :
    forLoop (n + 1) body s = body n (forLoop n body s) := by
  simp [forLoop, List.range_succ]

theorem entry_loop (n i j : Nat) (c : IntMatrix) :
    forLoop n (fun k (c : IntMatrix) => Function.update c (i, j) (c (i, j) + a i k * b k j)) c =
      Function.update c (i, j) (c (i, j) + dot a b i j n) := by
  induction n with
  | zero => simp [forLoop, dot]
  | succ n ih =>
      rw [forLoop_succ, ih]
      simp [dot, Finset.sum_range_succ, add_assoc]

theorem row_loop (n i : Nat) (c : IntMatrix) (m r q : Nat) :
    forLoop m (fun j => forLoop n fun k (c : IntMatrix) =>
      Function.update c (i, j) (c (i, j) + a i k * b k j)) c (r, q) =
      if r = i ∧ q < m then c (r, q) + dot a b r q n else c (r, q) := by
  induction m with
  | zero => simp [forLoop]
  | succ m ih =>
      rw [forLoop_succ, entry_loop]
      by_cases here : (r, q) = (i, m)
      · obtain ⟨rfl, rfl⟩ := Prod.mk.inj here
        rw [Function.update_self, ih, if_neg (by simp), if_pos (by simp)]
      · rw [Function.update_of_ne here, ih]
        have same : (r = i ∧ q < m) ↔ r = i ∧ q < m + 1 := by
          rw [Prod.mk.injEq] at here
          omega
        simp only [same]

theorem prcsMatrixmul_entry {i j : Nat} (row : i < n) (column : j < n) :
    prcsMatrixmul n a b (i, j) = dot a b i j n := by
  have rows (m : Nat) : forLoop m (fun i => forLoop n fun j => forLoop n fun k (c : IntMatrix) =>
      Function.update c (i, j) (c (i, j) + a i k * b k j)) (fun _ => 0) (i, j) =
      if i < m then dot a b i j n else 0 := by
    induction m with
    | zero => rfl
    | succ m ih =>
        rw [forLoop_succ, row_loop, ih]
        by_cases here : i = m
        · simp [here, column]
        · have same : i < m + 1 ↔ i < m := by omega
          simp [here, same]
  rw [prcsMatrixmul, rows, if_pos row]

/-! ## `thrd_matrixmul` -/

/-- Where a thread stands in `threadfun`. -/
inductive MulPc where
  /-- At the tests of the three loops. -/
  | test (i j k : Nat)
  /-- In the addition, with `c[i][j]` loaded. -/
  | loaded (value : CInt) (i j k : Nat)
  | finished
  deriving DecidableEq

/-- A thread whose rows end before `last`. -/
inductive MulStep (n last : Nat) (a b : Nat → Nat → CInt) :
    MulPc × IntMatrix → MulPc × IntMatrix → Prop where
  | load {i j k c} : i < last → j < n → k < n →
      MulStep n last a b (.test i j k, c) (.loaded (c (i, j)) i j k, c)
  | store {value i j k c} : MulStep n last a b (.loaded value i j k, c)
      (.test i j (k + 1), Function.update c (i, j) (value + a i k * b k j))
  | column {i j k c} : i < last → j < n → n ≤ k →
      MulStep n last a b (.test i j k, c) (.test i (j + 1) 0, c)
  | row {i j k c} : i < last → n ≤ j → MulStep n last a b (.test i j k, c) (.test (i + 1) 0 0, c)
  | exit {i j k c} : last ≤ i → MulStep n last a b (.test i j k, c) (.finished, c)

/-- `row[t]`, for `t` from 0 to `NCORES`. -/
def firstRow (n cores t : Nat) : Nat := t * (n / cores)

/-- A row that the thread `t` computes. -/
def Mine (n cores t i : Nat) : Prop := firstRow n cores t ≤ i ∧ i < firstRow n cores t + n / cores

theorem Mine.div_eq {t i : Nat} (mine : Mine n cores t i) : i / (n / cores) = t := by
  refine Nat.div_eq_of_lt_le mine.1 ?_
  rw [Nat.succ_mul]
  exact mine.2

theorem Mine.below {t i : Nat} (core : t < cores) (mine : Mine n cores t i) :
    i < cores * (n / cores) := by
  have last : (t + 1) * (n / cores) ≤ cores * (n / cores) := Nat.mul_le_mul_right _ core
  rw [Nat.succ_mul] at last
  exact Nat.lt_of_lt_of_le mine.2 last

/-- The rows of the threads are the first ones, without a gap. -/
theorem exists_mine {i : Nat} (below : i < cores * (n / cores)) :
    ∃ t : Fin cores, Mine n cores t i := by
  have some_ : 0 < n / cores := Nat.pos_of_ne_zero fun none_ => by simp [none_] at below
  refine ⟨⟨i / (n / cores), (Nat.div_lt_iff_lt_mul some_).mpr below⟩, Nat.div_mul_le_self i _, ?_⟩
  exact Nat.lt_div_mul_add some_

/-- Where a thread with certain rows can stand. -/
def Stands (n first last : Nat) : MulPc → Prop
  | .test i _ _ => first ≤ i
  | .loaded _ i j _ => first ≤ i ∧ i < last ∧ j < n
  | .finished => True

/-- The threads of `thrd_matrixmul`, each with its rows of the product. -/
def thrdMatrixmul (n cores : Nat) (a b : Nat → Nat → CInt) :
    Threads (Fin cores) (Nat × Nat) CInt MulPc where
  step t := MulStep n (firstRow n cores t + n / cores) a b
  owns t x := Mine n cores t x.1
  stands t := Stands n (firstRow n cores t) (firstRow n cores t + n / cores)
  apart mine theirs := Fin.ext (mine.div_eq.symm.trans theirs.div_eq)
  moves stands taken := by
    cases taken with
    | load row column _ => exact ⟨stands, row, column⟩
    | store => exact stands.1
    | column _ _ _ => exact stands
    | row _ _ => exact Nat.le_succ_of_le stands
    | exit _ => trivial
  writes stands taken foreign := by
    cases taken with
    | store =>
        refine Function.update_of_ne ?_ _ _
        rintro rfl
        exact foreign ⟨stands.1, stands.2.1⟩
    | load _ _ _ | column _ _ _ | row _ _ | exit _ => rfl
  reads stands taken same := by
    cases taken with
    | @load i j k _ row column entry =>
        refine ⟨_, ?_, same⟩
        rw [← same (i, j) ⟨stands, row⟩]
        exact .load row column entry
    | store =>
        refine ⟨_, .store, fun x mine => ?_⟩
        simp only [Function.update_apply, same x mine]
    | column row column entry => exact ⟨_, .column row column entry, same⟩
    | row row column => exact ⟨_, .row row column, same⟩
    | exit row => exact ⟨_, .exit row, same⟩

/-- The threads, from a product of zeros. -/
def thrdSystem (n cores : Nat) (a b : Nat → Nat → CInt) :
    System (Footprints.State (Fin cores) (Nat × Nat) CInt MulPc) (Fin cores) :=
  system (thrdMatrixmul n cores a b) (fun _ => 0) fun t => .test (firstRow n cores t) 0 0

/-- How many products are in the entry `(r, q)` when a thread is at `k` in the entry
    `(i, j)`. -/
def added (n i j k r q : Nat) : Nat :=
  if r < i ∨ r = i ∧ q < j then n else if r = i ∧ q = j then k else 0

/-- What a thread alone has made of its rows. -/
def Computed (n first last : Nat) (a b : Nat → Nat → CInt) : MulPc × IntMatrix → Prop
  | (.test i j k, c) => i ≤ last ∧ j ≤ n ∧ k ≤ n ∧
      ∀ r q, first ≤ r → q < n → c (r, q) = dot a b r q (added n i j k r q)
  | (.loaded value i j k, c) => i < last ∧ j < n ∧ k < n ∧ value = dot a b i j k ∧
      ∀ r q, first ≤ r → q < n → c (r, q) = dot a b r q (added n i j k r q)
  | (.finished, c) => ∀ r q, first ≤ r → r < last → q < n → c (r, q) = dot a b r q n

theorem Computed.step {first last : Nat} {x y : MulPc × IntMatrix}
    (computed : Computed n first last a b x) (stands : Stands n first last x.1)
    (taken : MulStep n last a b x y) :
    Computed n first last a b y := by
  cases taken with
  | @load i j k c row column entry =>
      obtain ⟨_, _, _, values⟩ := computed
      refine ⟨row, column, entry, ?_, values⟩
      have value := values i j stands column
      simpa [added] using value
  | @store value i j k c =>
      obtain ⟨row, column, entry, rfl, values⟩ := computed
      refine ⟨Nat.le_of_lt row, Nat.le_of_lt column, entry, fun r q from_ inside => ?_⟩
      by_cases here : (r, q) = (i, j)
      · obtain ⟨rfl, rfl⟩ := Prod.mk.inj here
        rw [Function.update_self]
        simp [added, dot, Finset.sum_range_succ]
      · rw [Function.update_of_ne here, values r q from_ inside]
        rw [Prod.mk.injEq] at here
        simp [added, here]
  | @column i j k c row column entry =>
      obtain ⟨_, _, full, values⟩ := computed
      obtain rfl := Nat.le_antisymm full entry
      refine ⟨Nat.le_of_lt row, column, Nat.zero_le _, fun r q from_ inside => ?_⟩
      have same : added k i (j + 1) 0 r q = added k i j k r q := by
        unfold added
        split_ifs <;> omega
      rw [same]
      exact values r q from_ inside
  | @row i j k c row column =>
      obtain ⟨_, full, _, values⟩ := computed
      obtain rfl := Nat.le_antisymm full column
      refine ⟨row, Nat.zero_le _, Nat.zero_le _, fun r q from_ inside => ?_⟩
      have same : added j (i + 1) 0 0 r q = added j i j k r q := by
        unfold added
        split_ifs <;> omega
      rw [same]
      exact values r q from_ inside
  | @exit i j k c row =>
      obtain ⟨_, _, _, values⟩ := computed
      intro r q from_ below inside
      have whole : added n i j k r q = n := if_pos (.inl (Nat.lt_of_lt_of_le below row))
      rw [values r q from_ inside, whole]

theorem Computed.run {t : Fin cores} {y : MulPc × IntMatrix}
    (ran : ReflTransGen ((thrdMatrixmul n cores a b).step t)
      (.test (firstRow n cores t) 0 0, fun _ => 0) y) :
    Computed n (firstRow n cores t) (firstRow n cores t + n / cores) a b y := by
  induction ran with
  | refl =>
      refine ⟨Nat.le_add_right .., Nat.zero_le _, Nat.zero_le _, fun r q from_ inside => ?_⟩
      have none_ : added n (firstRow n cores t) 0 0 r q = 0 := by
        unfold added
        split_ifs <;> omega
      rw [none_]
      rfl
  | tail before taken ih =>
      exact ih.step (Threads.run_stands before (Nat.le_refl _)) taken

/-! ### A thread comes to its end -/

theorem entry_runs {last i j : Nat} (row : i < last) (column : j < n) (left : Nat) :
    ∀ k c, k + left = n →
      ∃ c', ReflTransGen (MulStep n last a b) (.test i j k, c) (.test i j n, c') := by
  induction left with
  | zero => exact fun k c end_ => ⟨c, end_ ▸ .refl⟩
  | succ left ih =>
      intro k c end_
      obtain ⟨c', ran⟩ := ih (k + 1) _ (by omega)
      exact ⟨c', .head (.load row column (by omega)) (.head .store ran)⟩

theorem row_runs {last i : Nat} (row : i < last) (left : Nat) :
    ∀ j c, j + left = n →
      ∃ c', ReflTransGen (MulStep n last a b) (.test i j 0, c) (.test i n 0, c') := by
  induction left with
  | zero => exact fun j c end_ => ⟨c, end_ ▸ .refl⟩
  | succ left ih =>
      intro j c end_
      have column : j < n := by omega
      obtain ⟨c₁, entry⟩ := entry_runs row column n 0 c (Nat.zero_add n)
      obtain ⟨c', rest⟩ := ih (j + 1) c₁ (by omega)
      exact ⟨c', (entry.tail (.column row column (Nat.le_refl n))).trans rest⟩

theorem thread_runs (last left : Nat) :
    ∀ i c, i + left = last →
      ∃ c', ReflTransGen (MulStep n last a b) (.test i 0 0, c) (.finished, c') := by
  induction left with
  | zero => exact fun i c end_ => ⟨c, .single (.exit (Nat.le_of_eq end_.symm))⟩
  | succ left ih =>
      intro i c end_
      have row : i < last := by omega
      obtain ⟨c₁, entries⟩ := row_runs row n 0 c (Nat.zero_add n)
      obtain ⟨c', rest⟩ := ih (i + 1) c₁ (by omega)
      exact ⟨c', (entries.tail (.row row (Nat.le_refl n))).trans rest⟩

/-! ### What the threads leave -/

theorem thrdMatrixmul_starts (t : Fin cores) :
    (thrdMatrixmul n cores a b).stands t (.test (firstRow n cores t) 0 0) :=
  Nat.le_refl (firstRow n cores t)

/-- However the threads interleave, they compute the rows that one of them has, and
    leave the rows behind these at zero. -/
theorem thrdSystem_entry {s : Footprints.State (Fin cores) (Nat × Nat) CInt MulPc}
    (reach : (thrdSystem n cores a b).Reachable s) (finished : ∀ t, s.loc t = .finished) {i j : Nat}
    (column : j < n) :
    s.mem (i, j) = if i < cores * (n / cores) then dot a b i j n else 0 := by
  by_cases below : i < cores * (n / cores)
  · obtain ⟨t, mine⟩ := exists_mine below
    obtain ⟨c, ran, same⟩ := alone reach thrdMatrixmul_starts t
    rw [finished t] at ran
    rw [if_pos below, ← same (i, j) mine]
    exact Computed.run ran i j mine.1 mine.2 column
  · rw [if_neg below]
    exact unowned reach thrdMatrixmul_starts fun t mine => below (Mine.below t.isLt mine)

/-- The two programs agree in every run exactly when the rows that no thread has,
    the last ones of a size that is no multiple of the cores, are rows of zeros. -/
theorem matrixmul_agree_iff :
    (∀ s, (thrdSystem n cores a b).Reachable s → (∀ t, s.loc t = .finished) →
      ∀ i < n, ∀ j < n, s.mem (i, j) = prcsMatrixmul n a b (i, j)) ↔
    ∀ i < n, cores * (n / cores) ≤ i → ∀ j < n, prcsMatrixmul n a b (i, j) = 0 := by
  constructor
  · intro agree i row left j column
    have each (t : Fin cores) : ∃ c, ReflTransGen ((thrdMatrixmul n cores a b).step t)
        (.test (firstRow n cores t) 0 0, fun _ => 0) (.finished, c) := thread_runs _ _ _ _ rfl
    obtain ⟨s, reach, at_⟩ := together thrdMatrixmul_starts each
    have finished (t : Fin cores) : s.loc t = .finished := congrFun at_ t
    rw [← agree s reach finished i row j column, thrdSystem_entry reach finished column,
      if_neg (Nat.not_lt.mpr left)]
  · intro zeros s reach finished i row j column
    rw [thrdSystem_entry reach finished column]
    by_cases below : i < cores * (n / cores)
    · rw [if_pos below, prcsMatrixmul_entry row column]
    · rw [if_neg below, zeros i row (Nat.le_of_not_lt below) j column]

end SysProg.Book
