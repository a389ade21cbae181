import SysProg.M8.Signals

/-! # Which sums arrive

The sums that the parent recorded and those on their way to it, and the replies
that the child got and those it is owed, against the sums that were handled.  An
action either keeps this account or loses one signal, because its slot is taken.
-/

namespace SysProg.M8

open Transition

def ChildFrame.report : ChildFrame → Option Int
  | .stopRead sum2 => some sum2
  | .stop | .stopSent | .user1 _ => none

def ChildFrame.reply : ChildFrame → Option Int
  | .user1 number => some number
  | .stop | .stopRead _ | .stopSent => none

def ParentFrame.report : ParentFrame → Option Int
  | .user1 value => some value
  | .recorded | .replied => none

/-- The replies that the call still has to send. -/
def ParentFrame.owes : ParentFrame → Nat
  | .recorded => 1
  | .user1 _ | .replied => 0

namespace World

/-- The sums the parent has recorded, then those on their way to it, the oldest first. -/
def reported (w : World) : List Int :=
  w.recorded ++ (w.parent.frame.bind ParentFrame.report).toList ++ w.parent.usr1.toList ++
    w.child.frames.filterMap ChildFrame.report

/-- How many replies the child has got, and how many are due or on their way. -/
def answered (w : World) : Nat :=
  (w.parent.frame.map ParentFrame.owes).getD 0 + w.child.usr2.toList.length +
    (w.child.frames.filterMap ChildFrame.reply).length + w.replies.length

end World

/-! ## Handlers inside handlers -/

variable {masks : Masks} {w w' : World} {action : Action}

/-- Of each handler at most one call is running. -/
def Nested (w : World) : Prop := (w.child.frames.map ChildFrame.signal).Nodup

/-- A handler that blocks its own signal is not entered again. -/
theorem not_running_of_unblocked {frames : List ChildFrame} {signal : Signal}
    (free : blocked masks frames signal = false) : signal ∉ frames.map ChildFrame.signal := by
  intro inside
  obtain ⟨frame, member, same⟩ := List.mem_map.mp inside
  have blocks := List.any_eq_false.mp free frame member
  simp [same] at blocks

theorem Moves.nested (moves : Moves masks w action w') (nested : Nested w) : Nested w' := by
  cases moves with
  | count wrapped idle room => exact nested
  | overflow wrapped idle full => exact nested
  | kill => exact nested
  | enterStop free => exact List.nodup_cons.mpr ⟨not_running_of_unblocked free, nested⟩
  | readSum top => simpa [Nested, top, ChildFrame.signal] using nested
  | sendSum top => simpa [Nested, top, ChildFrame.signal] using nested
  | leaveStop top =>
      rw [Nested, top] at nested
      exact (List.nodup_cons.mp nested).2
  | enterUser1 pending free => exact List.nodup_cons.mpr ⟨not_running_of_unblocked free, nested⟩
  | leaveUser1 top =>
      rw [Nested, top] at nested
      exact (List.nodup_cons.mp nested).2
  | parentEnter pending idle => exact nested
  | parentStore inside => exact nested
  | parentReply inside => exact nested
  | parentLeave inside => exact nested

/-- Below a call of `SigStop` there is no other, so no sum is on its way there. -/
theorem Nested.nothing_below {frame : ChildFrame} {rest : List ChildFrame} (nested : Nested w)
    (top : w.child.frames = frame :: rest) (stop : frame.signal = .tstp) :
    rest.filterMap ChildFrame.report = [] := by
  rw [Nested, top, List.map_cons, stop] at nested
  have absent := (List.nodup_cons.mp nested).1
  rw [List.filterMap_eq_nil_iff]
  intro other member
  cases other with
  | stop | stopRead | stopSent => exact absurd (List.mem_map.mpr ⟨_, member, rfl⟩) absent
  | user1 number => rfl

/-! ## The account of one action -/

/-- A sum that is handled is on its way, and it stays on its way until it is recorded
    or its signal is pending already. -/
theorem Moves.reported (moves : Moves masks w action w') (nested : Nested w) :
    ((action = .sendSum → w.parent.usr1 = none) ∧
      ∃ sums, w'.handled = w.handled ++ sums ∧ w'.reported = w.reported ++ sums) ∨
    ((action = .sendSum ∧ w.parent.usr1 ≠ none) ∧
      w'.handled = w.handled ∧ ∃ lost, w.reported = w'.reported ++ [lost]) := by
  cases moves with
  | count wrapped idle room => exact .inl ⟨nofun, [], by simp [World.reported]⟩
  | overflow wrapped idle full => exact .inl ⟨nofun, [], by simp [World.reported]⟩
  | kill => exact .inl ⟨nofun, [], by simp [World.reported]⟩
  | enterStop free =>
      exact .inl ⟨nofun, [], by simp [World.reported, List.filterMap_cons, ChildFrame.report]⟩
  | readSum top =>
      have below := nested.nothing_below top rfl
      refine .inl ⟨nofun, [w.child.sum], rfl, ?_⟩
      simp [World.reported, top, List.filterMap_cons, ChildFrame.report, below]
  | @sendSum sum2 rest top =>
      have below := nested.nothing_below top rfl
      cases pending : w.parent.usr1 with
      | none =>
          refine .inl ⟨fun _ => rfl, [], by simp, ?_⟩
          simp [World.reported, top, List.filterMap_cons, ChildFrame.report, below, pending,
            sigqueue]
      | some old =>
          refine .inr ⟨⟨rfl, nofun⟩, rfl, sum2, ?_⟩
          simp [World.reported, top, List.filterMap_cons, ChildFrame.report, below, pending,
            sigqueue]
  | leaveStop top =>
      exact .inl ⟨nofun, [], by simp [World.reported, top, List.filterMap_cons, ChildFrame.report]⟩
  | enterUser1 pending free =>
      exact .inl ⟨nofun, [], by simp [World.reported, List.filterMap_cons, ChildFrame.report]⟩
  | leaveUser1 top =>
      exact .inl ⟨nofun, [], by simp [World.reported, top, List.filterMap_cons, ChildFrame.report]⟩
  | parentEnter pending idle =>
      exact .inl ⟨nofun, [], by simp [World.reported, pending, idle, ParentFrame.report]⟩
  | parentStore inside =>
      exact .inl ⟨nofun, [], by simp [World.reported, inside, ParentFrame.report]⟩
  | parentReply inside =>
      exact .inl ⟨nofun, [], by simp [World.reported, inside, ParentFrame.report]⟩
  | parentLeave inside =>
      exact .inl ⟨nofun, [], by simp [World.reported, inside, ParentFrame.report]⟩

/-- A sum that is recorded is owed a reply, and stays so until the child has got it
    or its signal is pending already. -/
theorem Moves.answered (moves : Moves masks w action w') :
    ((action = .parentReply → w.child.usr2 = none) ∧
      ∃ n, w'.recorded.length = w.recorded.length + n ∧ w'.answered = w.answered + n) ∨
    ((action = .parentReply ∧ w.child.usr2 ≠ none) ∧
      w'.recorded = w.recorded ∧ w.answered = w'.answered + 1) := by
  cases moves with
  | count wrapped idle room => exact .inl ⟨nofun, 0, rfl, rfl⟩
  | overflow wrapped idle full => exact .inl ⟨nofun, 0, rfl, rfl⟩
  | kill => exact .inl ⟨nofun, 0, rfl, rfl⟩
  | enterStop free => exact .inl ⟨nofun, 0, rfl, rfl⟩
  | readSum top =>
      exact .inl ⟨nofun, 0, by simp [World.answered, top, List.filterMap_cons, ChildFrame.reply]⟩
  | sendSum top =>
      exact .inl ⟨nofun, 0, by simp [World.answered, top, List.filterMap_cons, ChildFrame.reply]⟩
  | leaveStop top =>
      exact .inl ⟨nofun, 0, by simp [World.answered, top, List.filterMap_cons, ChildFrame.reply]⟩
  | enterUser1 pending free =>
      refine .inl ⟨nofun, 0, rfl, ?_⟩
      simp [World.answered, pending, ChildFrame.reply]
      omega
  | leaveUser1 top =>
      refine .inl ⟨nofun, 0, rfl, ?_⟩
      simp [World.answered, top, ChildFrame.reply]
      omega
  | parentEnter pending idle =>
      exact .inl ⟨nofun, 0, by simp [World.answered, idle, ParentFrame.owes]⟩
  | parentStore inside =>
      refine .inl ⟨nofun, 1, by simp, ?_⟩
      simp [World.answered, inside, ParentFrame.owes]
      omega
  | parentReply inside =>
      cases pending : w.child.usr2 with
      | none =>
          refine .inl ⟨fun _ => rfl, 0, rfl, ?_⟩
          simp [World.answered, inside, pending, sigqueue, ParentFrame.owes]
      | some old =>
          refine .inr ⟨⟨rfl, nofun⟩, rfl, ?_⟩
          simp [World.answered, inside, pending, sigqueue, ParentFrame.owes]
          omega
  | parentLeave inside =>
      exact .inl ⟨nofun, 0, by simp [World.answered, inside, ParentFrame.owes]⟩

/-! ## The account of a run -/

/-- Nothing was lost so far. -/
structure Kept (w : World) : Prop where
  reported : w.reported = w.handled
  answered : w.answered = w.recorded.length

/-- A sum or a reply was lost. -/
def Lossy (w : World) : Prop :=
  w.reported.length < w.handled.length ∨ w.answered < w.recorded.length

theorem start_nested : Nested start := List.nodup_nil

theorem start_kept : Kept start := ⟨rfl, rfl⟩

/-- An action whose slot is free keeps the account. -/
theorem Moves.kept (moves : Moves masks w action w') (nested : Nested w)
    (free : SlotFree w action) (kept : Kept w) : Kept w' where
  reported := by
    rcases moves.reported nested with ⟨_, sums, handled, reported⟩ | ⟨⟨sends, pending⟩, _⟩
    · rw [handled, reported, kept.reported]
    · exact absurd (free.report sends) pending
  answered := by
    rcases moves.answered with ⟨_, n, recorded, answered⟩ | ⟨⟨sends, pending⟩, _⟩
    · rw [recorded, answered, kept.answered]
    · exact absurd (free.reply sends) pending

/-- What is reported is in any case a part of what was handled, in the same order. -/
theorem Moves.sublist (moves : Moves masks w action w') (nested : Nested w)
    (part : w.reported.Sublist w.handled) : w'.reported.Sublist w'.handled := by
  rcases moves.reported nested with ⟨_, sums, handled, reported⟩ | ⟨_, handled, lost, reported⟩
  · rw [handled, reported]
    exact part.append_right sums
  · rw [handled]
    rw [reported] at part
    exact (List.sublist_append_left _ _).trans part

/-- No more replies are on the way or arrived than sums were recorded. -/
theorem Moves.answered_le (moves : Moves masks w action w')
    (fewer : w.answered ≤ w.recorded.length) : w'.answered ≤ w'.recorded.length := by
  rcases moves.answered with ⟨_, n, recorded, answered⟩ | ⟨_, recorded, answered⟩
  · omega
  · rw [recorded]
    omega

/-- What is lost stays lost. -/
theorem Moves.lossy (moves : Moves masks w action w') (nested : Nested w) (lossy : Lossy w) :
    Lossy w' := by
  rcases lossy with fewerSums | fewerReplies
  · left
    rcases moves.reported nested with ⟨_, sums, handled, reported⟩ | ⟨_, handled, lost, reported⟩
    · rw [handled, reported, List.length_append, List.length_append]
      omega
    · rw [reported, List.length_append] at fewerSums
      rw [handled]
      omega
  · right
    rcases moves.answered with ⟨_, n, recorded, answered⟩ | ⟨_, recorded, answered⟩
    · omega
    · rw [recorded]
      omega

/-- An action whose slot is taken loses a signal. -/
theorem Moves.loses (moves : Moves masks w action w') (nested : Nested w)
    (part : w.reported.Sublist w.handled) (fewer : w.answered ≤ w.recorded.length) :
    SlotFree w action ∨ Lossy w' := by
  rcases moves.reported nested with ⟨reportFree, _⟩ | ⟨_, handled, lost, reported⟩
  · rcases moves.answered with ⟨replyFree, _⟩ | ⟨_, recorded, answered⟩
    · exact .inl ⟨reportFree, replyFree⟩
    · right
      right
      rw [recorded]
      omega
  · right
    left
    have length := part.length_le
    rw [reported, List.length_append, List.length_singleton] at length
    rw [handled]
    omega

/-- While the slots are free nothing is lost. -/
theorem kept_of_only (reach : ((signals masks).only SlotFree).Reachable w) :
    Nested w ∧ Kept w := by
  apply reach.invariant (I := fun w => Nested w ∧ Kept w)
  · intro w init
    rw [show w = start from init]
    exact ⟨start_nested, start_kept⟩
  · intro w action w' _ ⟨nested, kept⟩ ⟨taken, free⟩
    have moves := moves_of_step taken
    exact ⟨moves.nested nested, moves.kept nested free kept⟩

/-- What holds in every run, and that it has lost something or every slot was free. -/
structure Accounted (masks : Masks) (w : World) : Prop where
  nested : Nested w
  reported : w.reported.Sublist w.handled
  answered : w.answered ≤ w.recorded.length
  settled : ((signals masks).only SlotFree).Reachable w ∨ Lossy w

theorem accounted (reach : (signals masks).Reachable w) : Accounted masks w := by
  apply reach.invariant (I := Accounted masks)
  · intro w init
    rw [show w = start from init]
    exact ⟨start_nested, List.Sublist.refl _, Nat.le_refl _, .inl (.init rfl)⟩
  · intro w action w' _ before taken
    have moves := moves_of_step taken
    refine ⟨moves.nested before.nested, moves.sublist before.nested before.reported,
      moves.answered_le before.answered, ?_⟩
    rcases before.settled with free | lossy
    · rcases moves.loses before.nested before.reported before.answered with freeNow | lossy
      · exact .inl (.step free ⟨taken, freeNow⟩)
      · exact .inr lossy
    · exact .inr (moves.lossy before.nested lossy)

/-- Whatever is lost, the parent never records a sum twice, out of order, or one
    that was not handled. -/
theorem recorded_sublist (reach : (signals masks).Reachable w) :
    w.recorded.Sublist w.handled := by
  have part := (accounted reach).reported
  rw [World.reported, List.append_assoc, List.append_assoc] at part
  exact (List.sublist_append_left _ _).trans part

/-! ## The sums -/

/-- Until `sum` overflows it grows in fives. -/
structure Ascending (w : World) : Prop where
  sum : 5 ∣ w.child.sum
  handled : ∀ v ∈ w.handled, 5 ∣ v ∧ v ≤ w.child.sum
  pairwise : w.handled.Pairwise (· ≤ ·)

theorem Moves.ascending (moves : Moves masks w action w')
    (before : w.child.overflowed = false → Ascending w) :
    w'.child.overflowed = false → Ascending w' := by
  intro counting
  cases moves with
  | count wrapped idle room =>
      obtain ⟨sum, handled, pairwise⟩ := before counting
      refine ⟨?_, ?_, pairwise⟩
      · exact Int.dvd_add sum (Int.dvd_refl 5)
      · intro v inside
        obtain ⟨multiple, below⟩ := handled v inside
        exact ⟨multiple, Int.le_trans below (by simp)⟩
  | overflow wrapped idle full => cases counting
  | readSum top =>
      obtain ⟨sum, handled, pairwise⟩ := before counting
      refine ⟨sum, ?_, ?_⟩
      · intro v inside
        rcases List.mem_append.mp inside with old | new
        · exact handled v old
        · rw [List.mem_singleton.mp new]
          exact ⟨sum, Int.le_refl _⟩
      · rw [List.pairwise_append]
        refine ⟨pairwise, List.pairwise_singleton _ _, ?_⟩
        intro v old u new
        rw [List.mem_singleton.mp new]
        exact (handled v old).2
  | kill | enterStop | sendSum | leaveStop | enterUser1 | leaveUser1 | parentEnter | parentStore
  | parentReply | parentLeave =>
      obtain ⟨sum, handled, pairwise⟩ := before counting
      exact ⟨sum, handled, pairwise⟩

theorem ascending (reach : (signals masks).Reachable w) :
    w.child.overflowed = false → Ascending w := by
  apply reach.invariant (I := fun w => w.child.overflowed = false → Ascending w)
  · intro w init _
    rw [show w = start from init]
    exact ⟨Int.dvd_zero 5, by simp [start], List.Pairwise.nil⟩
  · intro w action w' _ before taken
    exact (moves_of_step taken).ascending before

/-! ## When nothing is on its way -/

theorem Quiet.reported (quiet : Quiet w) : w.reported = w.recorded := by
  simp [World.reported, quiet.parentFrame, quiet.usr1, quiet.childFrames]

theorem Quiet.answered (quiet : Quiet w) : w.answered = w.replies.length := by
  simp [World.answered, quiet.parentFrame, quiet.usr2, quiet.childFrames]

/-- In a reachable state where nothing is pending or running, every sum was recorded
    and answered exactly when each signal was sent while its slot was free. -/
theorem delivered_iff (masks : Masks) {w : World} (reach : (signals masks).Reachable w)
    (quiet : Quiet w) : Delivered w ↔ ((signals masks).only SlotFree).Reachable w := by
  constructor
  · intro delivered
    rcases (accounted reach).settled with free | fewerSums | fewerReplies
    · exact free
    · rw [quiet.reported, delivered.recorded] at fewerSums
      exact absurd fewerSums (Nat.lt_irrefl _)
    · rw [quiet.answered, delivered.answered, delivered.recorded] at fewerReplies
      exact absurd fewerReplies (Nat.lt_irrefl _)
  · intro free
    obtain ⟨_, kept⟩ := kept_of_only free
    have recorded : w.recorded = w.handled := by rw [← quiet.reported, kept.reported]
    have answered : w.replies.length = w.handled.length := by
      rw [← quiet.answered, kept.answered, recorded]
    exact ⟨recorded, answered, fun counting => (ascending reach counting).pairwise,
      fun counting v inside => ((ascending reach counting).handled v inside).1⟩

/-! ## Two schedules -/

/-- The actions of a schedule, one after the other. -/
def run (masks : Masks) (w : World) : List Action → Option World
  | [] => some w
  | action :: rest => (step masks w action).bind fun w => run masks w rest

theorem reachable_run (masks : Masks) (actions : List Action) {w w' : World}
    (reach : (signals masks).Reachable w) (ran : run masks w actions = some w') :
    (signals masks).Reachable w' := by
  induction actions generalizing w with
  | nil =>
      cases ran
      exact reach
  | cons action rest ih =>
      obtain ⟨next, taken, later⟩ := Option.bind_eq_some_iff.mp ran
      exact ih (.step reach taken) later

/-- The parent records and answers a sum before the next SIGTSTP. -/
def spaced : List Action :=
  [.count 0, .kill, .enterStop, .readSum, .sendSum, .leaveStop, .parentEnter, .parentStore,
    .parentReply, .parentLeave, .enterUser1, .leaveUser1]

/-- The child handles two SIGTSTP before the parent gets to run. -/
def hurried : List Action :=
  [.count 0, .kill, .enterStop, .readSum, .sendSum, .leaveStop, .kill, .enterStop, .readSum,
    .sendSum, .leaveStop, .parentEnter, .parentStore, .parentReply, .parentLeave, .enterUser1,
    .leaveUser1]

/-- The sum 5 was recorded and answered once, after the child handled `handled`. -/
def answeredOnce (handled : List Int) : World where
  child := { start.child with sum := 5 }
  parent := { start.parent with sum := 5 }
  handled := handled
  recorded := [5]
  replies := [1]

theorem answeredOnce_quiet (handled : List Int) : Quiet (answeredOnce handled) :=
  ⟨rfl, rfl, rfl, rfl, rfl⟩

/-- The sum of the spaced schedule is delivered, so every slot was free. -/
theorem delivered_iff_spaced :
    run (fun _ _ => false) start spaced = some (answeredOnce [5]) ∧
      Delivered (answeredOnce [5]) ∧
      ((signals fun _ _ => false).only SlotFree).Reachable (answeredOnce [5]) := by
  have ran : run (fun _ _ => false) start spaced = some (answeredOnce [5]) := by decide
  have reach := reachable_run (fun _ _ => false) spaced (.init rfl) ran
  have delivered : Delivered (answeredOnce [5]) :=
    ⟨rfl, rfl, fun _ => List.pairwise_singleton _ _, by decide⟩
  exact ⟨ran, delivered, (delivered_iff _ reach (answeredOnce_quiet [5])).mp delivered⟩

/-- The second sum is lost, its SIGUSR1 being pending already. -/
theorem hurried_loses_a_sum :
    (signals fun _ _ => false).Reachable (answeredOnce [5, 5]) ∧ Quiet (answeredOnce [5, 5]) ∧
      ¬ Delivered (answeredOnce [5, 5]) := by
  have ran : run (fun _ _ => false) start hurried = some (answeredOnce [5, 5]) := by decide
  refine ⟨reachable_run _ hurried (.init rfl) ran, answeredOnce_quiet _, ?_⟩
  intro delivered
  cases delivered.recorded

end SysProg.M8
