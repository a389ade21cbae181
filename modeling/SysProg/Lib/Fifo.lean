/-! # The closeable first-in first-out queue

What a closeable work queue is for, over any element type: elements leave in
the order they entered, and a closed queue that has run empty says so.
-/

namespace SysProg.Fifo

structure Contents (β : Type) where
  items : List β
  closed : Bool
  deriving DecidableEq

inductive Op (β : Type) where
  | enqueue (x : β)
  | close
  | dequeue
  deriving DecidableEq

/-- The answer of a dequeue that does not block. -/
inductive Answer (β : Type) where
  | took (x : β)
  | closed
  deriving DecidableEq

variable {β : Type}

def empty : Contents β := ⟨[], false⟩

/-- One operation and its answer; only a dequeue has one, and not when it blocks. -/
def step (q : Contents β) : Op β → Contents β × Option (Answer β)
  | .enqueue x => ({ q with items := q.items ++ [x] }, none)
  | .close => ({ q with closed := true }, none)
  | .dequeue =>
      match q.items, q.closed with
      | x :: xs, _ => ({ q with items := xs }, some (.took x))
      | [], true => (q, some .closed)
      | [], false => (q, none)

def run (q : Contents β) : List (Op β) → Contents β × List (Answer β)
  | [] => (q, [])
  | op :: ops =>
      let (q', answer) := step q op
      let (q'', answers) := run q' ops
      (q'', answer.toList ++ answers)

/-- What an enqueue finds in the queue. -/
def Op.finds (q : Contents β) : Op β → Option (List β)
  | .enqueue _ => some q.items
  | .close | .dequeue => none

/-- What each enqueue of a sequence finds in the queue, in order. -/
def found (q : Contents β) : List (Op β) → List (List β)
  | [] => []
  | op :: ops => (op.finds q).toList ++ found (step q op).1 ops

def Op.pushed : Op β → Option β
  | .enqueue x => some x
  | .close | .dequeue => none

def Answer.taken : Answer β → Option β
  | .took x => some x
  | .closed => none

/-- The elements put in. -/
def pushed (ops : List (Op β)) : List β := ops.filterMap Op.pushed

/-- The elements taken out. -/
def taken (answers : List (Answer β)) : List β := answers.filterMap Answer.taken

theorem step_conserves (q : Contents β) (op : Op β) :
    q.items ++ op.pushed.toList =
      (step q op).2.toList.filterMap Answer.taken ++ (step q op).1.items := by
  cases op with
  | enqueue x => simp [step, Op.pushed]
  | close => simp [step, Op.pushed]
  | dequeue =>
      obtain ⟨items, closed⟩ := q
      cases items with
      | nil => cases closed <;> simp [step, Op.pushed, Answer.taken]
      | cons x xs => simp [step, Op.pushed, Answer.taken]

/-- Nothing is lost, repeated or reordered: what was there and what was put in
    is what was taken out and what is left. -/
theorem run_conserves (q : Contents β) (ops : List (Op β)) :
    q.items ++ pushed ops = taken (run q ops).2 ++ (run q ops).1.items := by
  induction ops generalizing q with
  | nil => simp [run, pushed, taken]
  | cons op ops ih =>
      have first := step_conserves q op
      have split : pushed (op :: ops) = op.pushed.toList ++ pushed ops := by
        cases pushedOp : op.pushed <;> simp [pushed, pushedOp]
      have answers : taken (run q (op :: ops)).2 =
          (step q op).2.toList.filterMap Answer.taken ++ taken (run (step q op).1 ops).2 := by
        simp [run, taken]
      calc
        q.items ++ pushed (op :: ops)
            = (q.items ++ op.pushed.toList) ++ pushed ops := by rw [split, List.append_assoc]
        _ = (step q op).2.toList.filterMap Answer.taken ++ ((step q op).1.items ++ pushed ops) := by
            rw [first, List.append_assoc]
        _ = taken (run q (op :: ops)).2 ++ (run q (op :: ops)).1.items := by
            rw [ih, answers, List.append_assoc]
            rfl

end SysProg.Fifo
