import Mathlib.Data.List.Count
import SysProg.Lib.Files

/-! # Two processes on one open file

In `fork_r6_of` a parent and its child write to the file that was open when the
child was made.  Each seeks to its own part first, but the two have one offset
between them.
-/

namespace SysProg.Book

open CString Files

inductive Whom where
  | child
  | parent
  deriving DecidableEq

def seekto : Nat := 10
def lnsize : Nat := 80
def numlines : Nat := 100

namespace Whom

def other : Whom → Whom
  | .child => .parent
  | .parent => .child

/-- Where a process seeks to. -/
def start : Whom → Nat
  | .child => seekto
  | .parent => seekto + lnsize * numlines

def letter : Whom → UInt8
  | .child => 99
  | .parent => 112

/-- `buf` -/
def line (whom : Whom) : Bytes := List.replicate (lnsize - 1) whom.letter ++ [10]

theorem other_ne (w : Whom) : w.other ≠ w := by cases w <;> decide

theorem eq_other {u w : Whom} (foreign : u ≠ w) : u = w.other := by
  revert foreign
  cases u <;> cases w <;> simp [other]

end Whom

/-- Where a process stands in `work_on_file`: before its `lseek`, or in the loop. -/
inductive WorkPc where
  | seek
  | writes (i : Nat)
  deriving DecidableEq

/-- The file, the offset that both descriptors have, and the two processes. -/
structure OpenFile where
  file : Bytes
  offset : Nat
  pc : Whom → WorkPc

/-- The next system call of a process in `work_on_file`, as long as it has one. -/
def workOnFile (s : OpenFile) (whom : Whom) : Option OpenFile :=
  match s.pc whom with
  | .seek =>
      some { s with
        offset := whom.start
        pc := Function.update s.pc whom (.writes 0) }
  | .writes i =>
      if i < numlines then
        some {
          file := pwrite s.file s.offset whom.line
          offset := s.offset + lnsize
          pc := Function.update s.pc whom (.writes (i + 1)) }
      else none

/-- The program behind its `fork`, with the order in which the processes come to run. -/
def forkR6 (order : List Whom) : Option OpenFile :=
  order.foldlM workOnFile ⟨[], 0, fun _ => .seek⟩

/-- Both loops have ended. -/
def OpenFile.Done (s : OpenFile) : Prop := ∀ whom, s.pc whom = .writes numlines

/-- The lines that are written in an order of processes. -/
def linesOf (order : List Whom) : Bytes := order.flatMap Whom.line

/-- The file that the seeks are meant for. -/
def intended : Bytes :=
  List.replicate seekto 0 ++
    linesOf (List.replicate numlines Whom.child ++ List.replicate numlines Whom.parent)

/-! ## Steps -/

/-- The calls that a process has made. -/
def WorkPc.calls : WorkPc → Nat
  | .seek => 0
  | .writes i => i + 1

/-- A call seeks, or writes one line. -/
theorem workOnFile_cases {s s' : OpenFile} {whom : Whom} (moved : workOnFile s whom = some s') :
    (s.pc whom = .seek ∧ s'.file = s.file ∧ s'.offset = whom.start ∧
        s'.pc = Function.update s.pc whom (.writes 0)) ∨
      ∃ i < numlines, s.pc whom = .writes i ∧ s'.file = pwrite s.file s.offset whom.line ∧
        s'.offset = s.offset + lnsize ∧ s'.pc = Function.update s.pc whom (.writes (i + 1)) := by
  unfold workOnFile at moved
  split at moved
  · rename_i at_
    cases moved
    exact .inl ⟨at_, rfl, rfl, rfl⟩
  · rename_i i at_
    split at moved
    · rename_i more
      cases moved
      exact .inr ⟨i, more, at_, rfl, rfl, rfl⟩
    · cases moved

theorem workOnFile_calls {s s' : OpenFile} {whom : Whom} (moved : workOnFile s whom = some s')
    (w : Whom) : (s'.pc w).calls = (s.pc w).calls + if whom = w then 1 else 0 := by
  by_cases own : whom = w
  · subst own
    obtain ⟨at_, _, _, pc⟩ | ⟨i, _, at_, _, _, pc⟩ := workOnFile_cases moved <;>
      simp [pc, at_, WorkPc.calls]
  · obtain ⟨_, _, _, pc⟩ | ⟨_, _, _, _, _, pc⟩ := workOnFile_cases moved <;>
      simp [pc, own, Ne.symm own]

theorem run_calls {order : List Whom} {s s' : OpenFile} (ran : order.foldlM workOnFile s = some s')
    (w : Whom) : (s'.pc w).calls = (s.pc w).calls + order.count w := by
  induction order generalizing s with
  | nil =>
      cases ran
      rfl
  | cons whom order ih =>
      obtain ⟨mid, moved, later⟩ := Option.bind_eq_some_iff.mp ran
      rw [ih later, workOnFile_calls moved, List.count_cons]
      simp only [beq_iff_eq]
      omega

/-- A run to the end has all the calls of both. -/
theorem count_of_done {order : List Whom} {s : OpenFile} (ran : forkR6 order = some s)
    (done : s.Done) (w : Whom) : order.count w = numlines + 1 := by
  have calls := run_calls ran w
  rw [done w] at calls
  simpa [WorkPc.calls] using calls.symm

/-- Every order is possible in which nobody makes more than its own calls. -/
theorem run_possible {order : List Whom} {s : OpenFile}
    (room : ∀ w, (s.pc w).calls + order.count w ≤ numlines + 1) :
    ∃ s', order.foldlM workOnFile s = some s' := by
  induction order generalizing s with
  | nil => exact ⟨s, rfl⟩
  | cons whom order ih =>
      have own := room whom
      rw [List.count_cons_self] at own
      obtain ⟨mid, moved⟩ : ∃ mid, workOnFile s whom = some mid := by
        cases at_ : s.pc whom with
        | seek => exact ⟨_, by rw [workOnFile, at_]⟩
        | writes i =>
            have more : i < numlines := by
              rw [at_, WorkPc.calls] at own
              omega
            exact ⟨_, by rw [workOnFile, at_]; exact if_pos more⟩
      obtain ⟨s', later⟩ := ih (s := mid) fun w => by
        have now := room w
        rw [List.count_cons] at now
        simp only [beq_iff_eq] at now
        rw [workOnFile_calls moved]
        omega
      exact ⟨s', Option.bind_eq_some_iff.mpr ⟨mid, moved, later⟩⟩

/-- Writes without a seek in between go one behind the other. -/
theorem run_writes {order : List Whom} {s s' : OpenFile} (ran : order.foldlM workOnFile s = some s')
    (sought : ∀ w ∈ order, s.pc w ≠ .seek) :
    s'.file = pwrite s.file s.offset (linesOf order) := by
  induction order generalizing s with
  | nil =>
      cases ran
      simp [linesOf, pwrite]
  | cons whom order ih =>
      obtain ⟨mid, moved, later⟩ := Option.bind_eq_some_iff.mp ran
      obtain ⟨at_, _⟩ | ⟨i, _, at_, file, offset, pc⟩ := workOnFile_cases moved
      · exact absurd at_ (sought whom List.mem_cons_self)
      · have behind : whom.line.length = lnsize := by cases whom <;> rfl
        rw [ih later fun w inside => ?_, file, offset, ← behind, pwrite_pwrite]
        · rfl
        · by_cases own : w = whom
          · simp [pc, own]
          · simpa [pc, own] using sought w (List.mem_cons_of_mem _ inside)

theorem calls_eq_zero {pc : WorkPc} : pc.calls = 0 ↔ pc = .seek := by
  cases pc <;> simp [WorkPc.calls]

/-- The first process writes before the other one seeks, and what is written behind that
    goes where the second `lseek` has put the offset, whoever writes it. -/
theorem run_file {w : Whom} {j : Nat} {rest : List Whom} {s : OpenFile}
    (ran : forkR6 (w :: (List.replicate j w ++ w.other :: rest)) = some s) :
    s.file = pwrite (pwrite [] w.start (linesOf (List.replicate j w))) w.other.start
      (linesOf rest) := by
  have apart := w.other_ne
  rw [forkR6, List.foldlM_cons] at ran
  obtain ⟨first, begun, later⟩ := Option.bind_eq_some_iff.mp ran
  rw [List.foldlM_append] at later
  obtain ⟨mid, wrote, later⟩ := Option.bind_eq_some_iff.mp later
  rw [List.foldlM_cons] at later
  obtain ⟨second, sought, last⟩ := Option.bind_eq_some_iff.mp later
  cases begun
  have calls := run_calls wrote
  have before := run_writes wrote fun u inside => by
    obtain rfl := List.eq_of_mem_replicate inside
    simp
  have idle : mid.pc w.other = .seek := by
    rw [← calls_eq_zero, calls w.other]
    simp [apart, Ne.symm apart, List.count_replicate, WorkPc.calls]
  have busy : mid.pc w ≠ .seek := by
    rw [Ne, ← calls_eq_zero, calls w]
    simp [WorkPc.calls]
  obtain ⟨_, file, offset, pc⟩ | ⟨_, _, at_, _⟩ := workOnFile_cases sought
  · rw [run_writes last fun u _ => ?_, file, offset, before]
    rw [pc]
    by_cases own : u = w
    · subst own
      simpa [Ne.symm apart] using busy
    · simp [Whom.eq_other own]
  · rw [idle] at at_
    cases at_

/-! ## What is in the file -/

theorem line_length (w : Whom) : w.line.length = lnsize := by cases w <;> rfl

theorem linesOf_length (order : List Whom) : (linesOf order).length = lnsize * order.length := by
  induction order with
  | nil => rfl
  | cons w order ih =>
      rw [linesOf, List.flatMap_cons, List.length_append, line_length, ← linesOf, ih,
        List.length_cons, Nat.mul_succ, Nat.add_comm]

theorem linesOf_append (order order' : List Whom) :
    linesOf (order ++ order') = linesOf order ++ linesOf order' := List.flatMap_append

theorem linesOf_ne_nil {order : List Whom} (some_ : order ≠ []) : linesOf order ≠ [] := by
  have positive := List.length_pos_of_ne_nil some_
  rw [← List.length_pos_iff, linesOf_length]
  exact Nat.mul_pos (by decide) positive

theorem linesOf_injective {order order' : List Whom} (same : linesOf order = linesOf order') :
    order = order' := by
  induction order generalizing order' with
  | nil =>
      by_contra other
      exact linesOf_ne_nil (Ne.symm other) same.symm
  | cons w order ih =>
      cases order' with
      | nil => exact absurd same (linesOf_ne_nil (List.cons_ne_nil _ _))
      | cons w' order' =>
          obtain ⟨line, more⟩ := List.append_inj same ((line_length w).trans (line_length w').symm)
          have is : w = w' := by
            revert line
            cases w <;> cases w' <;> decide
          rw [is, ih more]

/-- The two parts adjoin. -/
theorem parent_start : Whom.parent.start =
    Whom.child.start + (linesOf (List.replicate numlines .child)).length := by
  rw [linesOf_length, List.length_replicate]
  rfl

theorem intended_eq : intended =
    pwrite (pwrite [] Whom.child.start (linesOf (List.replicate numlines .child))) Whom.parent.start
      (linesOf (List.replicate numlines .parent)) := by
  have some_ : List.replicate numlines Whom.child ++ List.replicate numlines Whom.parent ≠ [] := by
    simp [numlines]
  rw [parent_start, pwrite_pwrite, ← linesOf_append,
    pwrite_gap (linesOf_ne_nil some_) (Nat.zero_le _)]
  rfl

theorem intended_length : intended.length = seekto + lnsize * (numlines + numlines) := by
  simp only [intended, List.length_append, List.length_replicate, linesOf_length]

theorem byteAt_linesOf (before behind : List Whom) (w : Whom) :
    byteAt (linesOf (before ++ w :: behind)) (lnsize * before.length) = w.letter := by
  rw [linesOf_append, byteAt_append, linesOf_length, if_neg (Nat.lt_irrefl _), Nat.sub_self]
  cases w <;> rfl

theorem length_eq_count (order : List Whom) :
    order.length = order.count .child + order.count .parent := by
  induction order with
  | nil => rfl
  | cons w order ih =>
      rw [List.length_cons, ih]
      cases w <;> simp <;> omega

/-- Only one of them is left. -/
theorem eq_replicate_of_count {order : List Whom} {w : Whom} {n : Nat} (own : order.count w = n)
    (none_ : order.count w.other = 0) : order = List.replicate n w := by
  have all : ∀ u ∈ order, u = w := by
    intro u inside
    by_contra foreign
    exact List.count_eq_zero.mp none_ (Whom.eq_other foreign ▸ inside)
  rw [← own, List.eq_replicate_iff.mpr ⟨rfl, all⟩, List.count_replicate_self]

/-- If the child seeks first, a gap stays behind its lines unless they all come before
    the other `lseek`. -/
theorem child_first {j : Nat} {rest : List Whom} (most : j ≤ numlines)
    (child : rest.count .child = numlines - j) (parent : rest.count .parent = numlines) :
    pwrite (pwrite [] Whom.child.start (linesOf (List.replicate j .child))) Whom.parent.start
      (linesOf rest) = intended ↔ j = numlines := by
  constructor
  · intro same
    by_contra other
    have low : seekto + lnsize * j < Whom.parent.start := by
      have := Nat.mul_lt_mul_of_pos_left (show j < numlines by omega) (show 0 < lnsize by decide)
      exact Nat.add_lt_add_left this seekto
    have gap : byteAt (pwrite (pwrite [] Whom.child.start (linesOf (List.replicate j .child)))
        Whom.parent.start (linesOf rest)) (seekto + lnsize * j) = 0 := by
      rw [byteAt_pwrite, if_neg (by omega), byteAt_pwrite, linesOf_length, List.length_replicate,
        if_neg (by simp [Whom.start])]
      rfl
    have filled : byteAt intended (seekto + lnsize * j) = Whom.child.letter := by
      obtain ⟨more, is⟩ : ∃ more, numlines = j + (more + 1) := ⟨numlines - j - 1, by omega⟩
      have split : List.replicate numlines Whom.child =
          List.replicate j .child ++ .child :: List.replicate more .child := by
        rw [is, List.replicate_add, List.replicate_succ]
      rw [intended, split, byteAt_append, List.length_replicate, if_neg (by omega),
        Nat.add_sub_cancel_left, List.append_assoc]
      simpa using byteAt_linesOf (List.replicate j .child) _ .child
    rw [same, filled] at gap
    revert gap
    decide
  · rintro rfl
    rw [eq_replicate_of_count parent (by simpa [Whom.other] using child), ← intended_eq]

/-- If the parent seeks first, nothing of its lines may be written before the other
    `lseek`, or all of them. -/
theorem parent_first {k : Nat} {rest : List Whom} (most : k ≤ numlines)
    (child : rest.count .child = numlines) (parent : rest.count .parent = numlines - k) :
    pwrite (pwrite [] Whom.parent.start (linesOf (List.replicate k .parent))) Whom.child.start
        (linesOf rest) = intended ↔
      k = 0 ∧ rest = List.replicate numlines Whom.child ++ List.replicate numlines Whom.parent ∨
        k = numlines := by
  have some_ : rest ≠ [] := by
    rintro rfl
    cases child
  by_cases none_ : k = 0
  · subst none_
    have plain :
        pwrite [] Whom.child.start (linesOf rest) = List.replicate seekto 0 ++ linesOf rest :=
      pwrite_gap (linesOf_ne_nil some_) (Nat.zero_le _)
    have other : 0 ≠ numlines := by decide
    simp only [List.replicate_zero, show linesOf [] = [] from rfl, pwrite_nil, plain, intended,
      List.append_cancel_left_eq, other, or_false, true_and]
    exact ⟨linesOf_injective, congrArg linesOf⟩
  constructor
  · intro same
    refine .inr ?_
    have size : rest.length = numlines + (numlines - k) := by
      rw [length_eq_count, child, parent]
    have length := congrArg List.length same
    rw [length_pwrite (linesOf_ne_nil some_), length_pwrite (linesOf_ne_nil (by simpa using none_)),
      intended_length, linesOf_length, linesOf_length, List.length_replicate, size] at length
    simp only [List.length_nil, Whom.start, seekto, lnsize, numlines] at *
    omega
  · rintro (⟨zero, _⟩ | rfl)
    · exact absurd zero none_
    · rw [eq_replicate_of_count child (by simpa [Whom.other] using parent), intended_eq]
      exact pwrite_comm [] (Nat.le_of_eq parent_start.symm)

/-! ## The orders -/

/-- The orders in which the offset is right for each line. -/
def inTurn : List (List Whom) :=
  [List.replicate (numlines + 1) Whom.child ++ List.replicate (numlines + 1) Whom.parent,
    .parent :: (List.replicate (numlines + 1) Whom.child ++ List.replicate numlines Whom.parent),
    List.replicate (numlines + 1) Whom.parent ++ List.replicate (numlines + 1) Whom.child]

/-- Up to the first call of the other process. -/
theorem exists_turn {w : Whom} {order : List Whom} (later : w.other ∈ order) :
    ∃ j rest, order = List.replicate j w ++ w.other :: rest := by
  induction order with
  | nil => cases later
  | cons u order ih =>
      by_cases own : u = w
      · subst own
        obtain ⟨j, rest, rfl⟩ := ih (by simpa [u.other_ne] using later)
        exact ⟨j + 1, rest, rfl⟩
      · refine ⟨0, order, ?_⟩
        rw [Whom.eq_other own]
        rfl

theorem turn_unique {w : Whom} {j k : Nat} {rest rest' : List Whom}
    (same : List.replicate j w ++ w.other :: rest = List.replicate k w ++ w.other :: rest') :
    j = k ∧ rest = rest' := by
  have apart := w.other_ne
  induction j generalizing k with
  | zero =>
      cases k with
      | zero => exact ⟨rfl, (List.cons.inj same).2⟩
      | succ k => exact absurd (List.cons.inj same).1 apart
  | succ j ih =>
      cases k with
      | zero => exact absurd (List.cons.inj same).1.symm apart
      | succ k =>
          obtain ⟨is, rest⟩ := ih (List.cons.inj same).2
          exact ⟨congrArg (· + 1) is, rest⟩

theorem mem_inTurn_child {j : Nat} {rest : List Whom} :
    .child :: (List.replicate j .child ++ .parent :: rest) ∈ inTurn ↔
      j = numlines ∧ rest = List.replicate numlines .parent := by
  have whole : List.replicate (numlines + 1) Whom.child ++ List.replicate (numlines + 1) .parent =
      .child :: (List.replicate numlines .child ++ Whom.child.other ::
        List.replicate numlines .parent) := rfl
  have other : List.replicate (numlines + 1) Whom.parent =
      .parent :: List.replicate numlines .parent := rfl
  rw [inTurn, whole, other]
  simp only [List.mem_cons, List.cons_append, List.cons.injEq, reduceCtorEq, false_and, or_false,
    true_and, List.not_mem_nil]
  exact ⟨turn_unique (w := .child), fun is => by rw [is.1, is.2]; rfl⟩

theorem mem_inTurn_parent {k : Nat} {rest : List Whom} :
    .parent :: (List.replicate k .parent ++ .child :: rest) ∈ inTurn ↔
      k = 0 ∧ rest = List.replicate numlines Whom.child ++ List.replicate numlines Whom.parent ∨
        k = numlines ∧ rest = List.replicate numlines .child := by
  have amid : List.replicate (numlines + 1) Whom.child ++ List.replicate numlines .parent =
      List.replicate 0 .parent ++ Whom.parent.other ::
        (List.replicate numlines Whom.child ++ List.replicate numlines Whom.parent) := rfl
  have whole : List.replicate (numlines + 1) Whom.parent ++ List.replicate (numlines + 1) .child =
      .parent :: (List.replicate numlines .parent ++ Whom.parent.other ::
        List.replicate numlines .child) := rfl
  have other : List.replicate (numlines + 1) Whom.child =
      .child :: List.replicate numlines .child := rfl
  rw [inTurn, amid, whole, other]
  simp only [List.mem_cons, List.cons_append, List.cons.injEq,
    reduceCtorEq, false_and, false_or, true_and, List.not_mem_nil, or_false]
  exact or_congr ⟨turn_unique (w := .parent), fun is => by rw [is.1, is.2]; rfl⟩
    ⟨turn_unique (w := .parent), fun is => by rw [is.1, is.2]; rfl⟩

/-- However the system lets the two processes run, they leave the file that their seeks
    are meant for in three orders only: one after the other, in either order, or with
    the whole child between the parent's `lseek` and its writes. -/
theorem forkR6_intended_iff {order : List Whom} {s : OpenFile} (ran : forkR6 order = some s)
    (done : s.Done) : s.file = intended ↔ order ∈ inTurn := by
  have counts := count_of_done ran done
  cases order with
  | nil => cases counts .child
  | cons w order =>
      have apart := w.other_ne
      have own := counts w
      have theirs := counts w.other
      rw [List.count_cons_of_ne (Ne.symm apart)] at theirs
      have later : w.other ∈ order := by
        rw [← List.count_pos_iff, theirs]
        exact Nat.succ_pos _
      obtain ⟨j, rest, rfl⟩ := exists_turn later
      rw [run_file ran]
      simp only [List.count_cons_self, List.count_append, List.count_replicate_self,
        List.count_cons_of_ne apart, List.count_replicate, beq_iff_eq, Ne.symm apart, if_false]
        at own theirs
      cases w with
      | child =>
          have rest_child : rest.count .child = numlines - j := by omega
          have rest_parent : rest.count .parent = numlines := by
            simp only [Whom.other] at theirs
            omega
          have only := fun is : j = numlines =>
            eq_replicate_of_count rest_parent (by simpa [Whom.other, is] using rest_child)
          exact (child_first (by omega) rest_child rest_parent).trans
            ((and_iff_left_of_imp only).symm.trans mem_inTurn_child.symm)
      | parent =>
          have rest_parent : rest.count .parent = numlines - j := by omega
          have rest_child : rest.count .child = numlines := by
            simp only [Whom.other] at theirs
            omega
          have only := fun is : j = numlines =>
            eq_replicate_of_count rest_child (by simpa [Whom.other, is] using rest_parent)
          exact (parent_first (by omega) rest_child rest_parent).trans
            ((or_congr Iff.rfl (and_iff_left_of_imp only).symm).trans mem_inTurn_parent.symm)

/-- Every order with all the calls of both can happen. -/
theorem forkR6_possible {order : List Whom} (calls : ∀ w, order.count w = numlines + 1) :
    ∃ s, forkR6 order = some s ∧ s.Done := by
  obtain ⟨s, ran⟩ := @run_possible order ⟨[], 0, fun _ => .seek⟩ fun w => by
    rw [calls w]
    simp [WorkPc.calls]
  refine ⟨s, ran, fun w => ?_⟩
  have made := run_calls ran w
  rw [calls w] at made
  cases at_ : s.pc w with
  | seek => simp [at_, WorkPc.calls] at made
  | writes i =>
      rw [at_] at made
      simp only [WorkPc.calls, Nat.zero_add, Nat.add_right_cancel_iff] at made
      rw [made]

/-- In turn call by call it goes wrong. -/
theorem forkR6_intended_iff_alternating :
    ∃ s, forkR6 (List.replicate (numlines + 1) [Whom.child, .parent]).flatten = some s ∧
      s.file ≠ intended := by
  have calls : ∀ w, (List.replicate (numlines + 1) [Whom.child, .parent]).flatten.count w =
      numlines + 1 := fun w => by
    have once : [Whom.child, .parent].count w = 1 := by cases w <;> rfl
    rw [List.count_flatten, List.map_replicate, once, List.sum_replicate_nat, Nat.mul_one]
  obtain ⟨s, ran, done⟩ := forkR6_possible calls
  refine ⟨s, ran, fun same => ?_⟩
  have early := mem_inTurn_child (j := 0).mp ((forkR6_intended_iff ran done).mp same)
  exact absurd early.1 (by decide)

end SysProg.Book
