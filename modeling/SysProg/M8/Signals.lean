import Mathlib.Data.List.Pairwise
import Mathlib.Algebra.Order.Group.Unbundled.Int
import SysProg.Lib.Transition

/-! # Sums sent by signals

The child of `M8` counts, and on SIGTSTP sends its sum to the parent with
SIGUSR1; the parent records it and replies with SIGUSR2.  Each process is its
handlers, the signals pending for it and, for the child, the counting loop.  A
signal has one pending instance, which keeps its value.  The model starts once
the handlers are installed and leaves out SIGTERM and with it the end of both
processes; `handled`, `recorded` and `replies` are history.
-/

namespace SysProg.M8

open Transition

def intMax : Int := 2147483647

/-- The signals the child has handlers for. -/
inductive Signal where
  | tstp
  | usr2
  deriving DecidableEq, Repr

/-- A call of one of the child's handlers, and how far it has come. -/
inductive ChildFrame where
  /-- `SigStop` before it reads `sum`. -/
  | stop
  /-- `SigStop` before `sigqueue`. -/
  | stopRead (sum2 : Int)
  | stopSent
  /-- `SigUser1`, which handles SIGUSR2, with the value that came with it. -/
  | user1 (number : Int)
  deriving DecidableEq, Repr

def ChildFrame.signal : ChildFrame → Signal
  | .stop | .stopRead _ | .stopSent => .tstp
  | .user1 _ => .usr2

/-- A call of the parent's `SigUser1`, and how far it has come. -/
inductive ParentFrame where
  /-- Before it stores the value that came with the signal. -/
  | user1 (value : Int)
  /-- Before `sigqueue`. -/
  | recorded
  | replied
  deriving DecidableEq, Repr

structure Child where
  sum : Int
  /-- `sum` has overflowed. -/
  overflowed : Bool
  /-- The handlers it is in, the innermost first. -/
  frames : List ChildFrame
  /-- A pending SIGTSTP. -/
  tstp : Bool
  /-- A pending SIGUSR2, with its value. -/
  usr2 : Option Int
  deriving DecidableEq, Repr

structure Parent where
  sum : Int
  /-- Its handler for SIGUSR1, which blocks that signal. -/
  frame : Option ParentFrame
  /-- A pending SIGUSR1, with its value. -/
  usr1 : Option Int
  deriving DecidableEq, Repr

structure World where
  child : Child
  parent : Parent
  /-- `sum` whenever the child handled a SIGTSTP. -/
  handled : List Int
  /-- What the parent stored. -/
  recorded : List Int
  /-- The values of the replies the child has got. -/
  replies : List Int
  deriving DecidableEq, Repr

def start : World where
  child := { sum := 0, overflowed := false, frames := [], tstp := false, usr2 := none }
  parent := { sum := 0, frame := none, usr1 := none }
  handled := []
  recorded := []
  replies := []

/-- `sigqueue`: of a pending signal the value stays. -/
def sigqueue (pending : Option Int) (value : Int) : Option Int := some (pending.getD value)

/-- Which signals `sa_mask` blocks while the handler of another one runs.  The
    program does not initialize it, nor the flags of `SigStop`, which are taken to
    be clear. -/
abbrev Masks := Signal → Signal → Bool

/-- A handler blocks its own signal and what its mask says. -/
def blocked (masks : Masks) (frames : List ChildFrame) (signal : Signal) : Bool :=
  frames.any fun frame => frame.signal = signal || masks frame.signal signal

inductive Action where
  /-- A pass of the child's loop, with what `sum` becomes if it overflows. -/
  | count (wrapped : Int)
  /-- Somebody sends the child a SIGTSTP. -/
  | kill
  | enterStop
  | readSum
  | sendSum
  | leaveStop
  | enterUser1
  | leaveUser1
  | parentEnter
  | parentStore
  | parentReply
  | parentLeave
  deriving DecidableEq, Repr

/-- One action, if it is possible. -/
def step (masks : Masks) (w : World) : Action → Option World
  | .count wrapped =>
      if w.child.frames = [] then
        if w.child.sum + 5 ≤ intMax then
          some { w with child := { w.child with sum := w.child.sum + 5 } }
        else
          some { w with child := { w.child with sum := wrapped, overflowed := true } }
      else none
  | .kill => some { w with child := { w.child with tstp := true } }
  | .enterStop =>
      if w.child.tstp = true ∧ blocked masks w.child.frames .tstp = false then
        some { w with child := { w.child with tstp := false, frames := .stop :: w.child.frames } }
      else none
  | .readSum =>
      match w.child.frames with
      | .stop :: rest =>
          some { w with
            child := { w.child with frames := .stopRead w.child.sum :: rest }
            handled := w.handled ++ [w.child.sum] }
      | _ => none
  | .sendSum =>
      match w.child.frames with
      | .stopRead sum2 :: rest =>
          some { w with
            child := { w.child with frames := .stopSent :: rest }
            parent := { w.parent with usr1 := sigqueue w.parent.usr1 sum2 } }
      | _ => none
  | .leaveStop =>
      match w.child.frames with
      | .stopSent :: rest => some { w with child := { w.child with frames := rest } }
      | _ => none
  | .enterUser1 =>
      match w.child.usr2 with
      | some number =>
          if blocked masks w.child.frames .usr2 = false then
            some { w with
              child := { w.child with usr2 := none, frames := .user1 number :: w.child.frames } }
          else none
      | none => none
  | .leaveUser1 =>
      match w.child.frames with
      | .user1 number :: rest =>
          some { w with
            child := { w.child with frames := rest }
            replies := w.replies ++ [number] }
      | _ => none
  | .parentEnter =>
      match w.parent.usr1, w.parent.frame with
      | some value, none =>
          some { w with parent := { w.parent with usr1 := none, frame := some (.user1 value) } }
      | _, _ => none
  | .parentStore =>
      match w.parent.frame with
      | some (.user1 value) =>
          some { w with
            parent := { w.parent with sum := value, frame := some .recorded }
            recorded := w.recorded ++ [value] }
      | _ => none
  | .parentReply =>
      match w.parent.frame with
      | some .recorded =>
          some { w with
            child := { w.child with usr2 := sigqueue w.child.usr2 1 }
            parent := { w.parent with frame := some .replied } }
      | _ => none
  | .parentLeave =>
      match w.parent.frame with
      | some .replied => some { w with parent := { w.parent with frame := none } }
      | _ => none

/-- The two processes under every schedule and any number of SIGTSTP. -/
def signals (masks : Masks) : System World Action where
  init w := w = start
  step w action w' := step masks w action = some w'

/-- No signal is pending and no handler is running. -/
structure Quiet (w : World) : Prop where
  tstp : w.child.tstp = false
  usr2 : w.child.usr2 = none
  usr1 : w.parent.usr1 = none
  childFrames : w.child.frames = []
  parentFrame : w.parent.frame = none

/-- Every sum the child handled was recorded and answered once, in order. -/
structure Delivered (w : World) : Prop where
  recorded : w.recorded = w.handled
  answered : w.replies.length = w.handled.length
  ascending : w.child.overflowed = false → w.handled.Pairwise (· ≤ ·)
  multiples : w.child.overflowed = false → ∀ v ∈ w.handled, 5 ∣ v

/-- The signal that a process sends is not pending at the other one. -/
structure SlotFree (w : World) (action : Action) : Prop where
  report : action = .sendSum → w.parent.usr1 = none
  reply : action = .parentReply → w.child.usr2 = none

/-! ## What one action does -/

/-- The actions case by case, with what makes each possible. -/
inductive Moves (masks : Masks) (w : World) : Action → World → Prop where
  | count (wrapped : Int) : w.child.frames = [] → w.child.sum + 5 ≤ intMax →
      Moves masks w (.count wrapped) { w with child := { w.child with sum := w.child.sum + 5 } }
  | overflow (wrapped : Int) : w.child.frames = [] → intMax < w.child.sum + 5 →
      Moves masks w (.count wrapped)
        { w with child := { w.child with sum := wrapped, overflowed := true } }
  | kill : Moves masks w .kill { w with child := { w.child with tstp := true } }
  | enterStop : blocked masks w.child.frames .tstp = false →
      Moves masks w .enterStop
        { w with child := { w.child with tstp := false, frames := .stop :: w.child.frames } }
  | readSum {rest : List ChildFrame} : w.child.frames = .stop :: rest →
      Moves masks w .readSum
        { w with
          child := { w.child with frames := .stopRead w.child.sum :: rest }
          handled := w.handled ++ [w.child.sum] }
  | sendSum {sum2 : Int} {rest : List ChildFrame} : w.child.frames = .stopRead sum2 :: rest →
      Moves masks w .sendSum
        { w with
          child := { w.child with frames := .stopSent :: rest }
          parent := { w.parent with usr1 := sigqueue w.parent.usr1 sum2 } }
  | leaveStop {rest : List ChildFrame} : w.child.frames = .stopSent :: rest →
      Moves masks w .leaveStop { w with child := { w.child with frames := rest } }
  | enterUser1 {number : Int} : w.child.usr2 = some number →
      blocked masks w.child.frames .usr2 = false →
      Moves masks w .enterUser1
        { w with
          child := { w.child with usr2 := none, frames := .user1 number :: w.child.frames } }
  | leaveUser1 {number : Int} {rest : List ChildFrame} :
      w.child.frames = .user1 number :: rest →
      Moves masks w .leaveUser1
        { w with
          child := { w.child with frames := rest }
          replies := w.replies ++ [number] }
  | parentEnter {value : Int} : w.parent.usr1 = some value → w.parent.frame = none →
      Moves masks w .parentEnter
        { w with parent := { w.parent with usr1 := none, frame := some (.user1 value) } }
  | parentStore {value : Int} : w.parent.frame = some (.user1 value) →
      Moves masks w .parentStore
        { w with
          parent := { w.parent with sum := value, frame := some .recorded }
          recorded := w.recorded ++ [value] }
  | parentReply : w.parent.frame = some .recorded →
      Moves masks w .parentReply
        { w with
          child := { w.child with usr2 := sigqueue w.child.usr2 1 }
          parent := { w.parent with frame := some .replied } }
  | parentLeave : w.parent.frame = some .replied →
      Moves masks w .parentLeave { w with parent := { w.parent with frame := none } }

theorem moves_of_step {masks : Masks} {w w' : World} {action : Action}
    (taken : step masks w action = some w') : Moves masks w action w' := by
  cases action with
  | count wrapped =>
      simp only [step] at taken
      split at taken
      · split at taken
        · cases taken
          exact .count wrapped ‹_› ‹_›
        · cases taken
          exact .overflow wrapped ‹_› (Int.not_le.mp ‹_›)
      · cases taken
  | kill =>
      cases taken
      exact .kill
  | enterStop =>
      simp only [step] at taken
      split at taken
      · rename_i ready
        cases taken
        exact .enterStop ready.2
      · cases taken
  | readSum =>
      simp only [step] at taken
      split at taken
      · cases taken
        exact .readSum ‹_›
      · cases taken
  | sendSum =>
      simp only [step] at taken
      split at taken
      · cases taken
        exact .sendSum ‹_›
      · cases taken
  | leaveStop =>
      simp only [step] at taken
      split at taken
      · cases taken
        exact .leaveStop ‹_›
      · cases taken
  | enterUser1 =>
      simp only [step] at taken
      split at taken
      · split at taken
        · cases taken
          exact .enterUser1 ‹_› ‹_›
        · cases taken
      · cases taken
  | leaveUser1 =>
      simp only [step] at taken
      split at taken
      · cases taken
        exact .leaveUser1 ‹_›
      · cases taken
  | parentEnter =>
      simp only [step] at taken
      split at taken
      · cases taken
        exact .parentEnter ‹_› ‹_›
      · cases taken
  | parentStore =>
      simp only [step] at taken
      split at taken
      · cases taken
        exact .parentStore ‹_›
      · cases taken
  | parentReply =>
      simp only [step] at taken
      split at taken
      · cases taken
        exact .parentReply ‹_›
      · cases taken
  | parentLeave =>
      simp only [step] at taken
      split at taken
      · cases taken
        exact .parentLeave ‹_›
      · cases taken

end SysProg.M8
