import SysProg.Lib.Fgets
import SysProg.Lib.Transition

/-! # The small shell

`simpsh_v1` to `simpsh_v3` run each command that is typed in a child process of its
own, and wait for it: the first two with `wait`, which returns when a child has
ended, the last with a `waitpid` that also returns when one is stopped or resumed.
The children have the standard input of the shell, and its offset is theirs too.
-/

namespace SysProg.Book

open CString Fgets Transition

/-! ## The commands -/

/-- What `getcmd` leaves of the bytes that `fgets` has stored.  A string without
    bytes has no last one to cut off: its NUL goes in front of the buffer. -/
def getcmd (piece : Bytes) : Option Bytes :=
  if untilZero piece = [] then none else some (untilZero piece).dropLast

def isQuit (cmd : Bytes) : Bool := startsWith cmd (ascii "quit")

/-- What the shell does with one piece of its input. -/
def command (piece : Bytes) : Bytes := (getcmd piece).getD []

/-- `fgets(cmdstr, CMD_MAXLEN - 1, stdin)` leaves room for the terminator. -/
def cmdRoom : Nat := 126

/-- The commands that are run if every `fork` succeeds. -/
def commands (stdin : Bytes) : List Bytes :=
  (((pieces cmdRoom stdin).map command).takeWhile (!isQuit ·)).filter (· ≠ [])

/-- The input that consists of some lines. -/
def typedLines (lines : List Bytes) : Bytes := lines.flatMap (· ++ [10])

/-- The lines before the first one that starts with `quit`. -/
def beforeQuit (lines : List Bytes) : List Bytes := lines.takeWhile (!isQuit ·)

/-- The commands that somebody who types some lines asks for. -/
def asked (lines : List Bytes) : List Bytes := (beforeQuit lines).filter (· ≠ [])

/-- A line that comes through `getcmd` as it is. -/
def Fits (line : Bytes) : Prop := line.length < cmdRoom ∧ ∀ b ∈ line, b ≠ 0

variable {stdin rest piece line : Bytes} {lines : List Bytes}

theorem commands_of_ne_nil (some_ : stdin ≠ []) :
    commands stdin =
      if isQuit (command (upTo cmdRoom stdin).1) then []
      else if command (upTo cmdRoom stdin).1 = [] then commands (upTo cmdRoom stdin).2
      else command (upTo cmdRoom stdin).1 :: commands (upTo cmdRoom stdin).2 := by
  unfold commands
  rw [pieces_of_ne_nil (by decide) some_, List.map_cons, List.takeWhile_cons]
  cases quit : isQuit (command (upTo cmdRoom stdin).1) with
  | true => simp
  | false =>
      by_cases empty : command (upTo cmdRoom stdin).1 = []
      · simp [empty]
      · simp [empty]

/-- No command is longer than the buffer allows, and none has a NUL. -/
theorem command_fits (short : piece.length ≤ cmdRoom) : Fits (command piece) := by
  unfold command getcmd
  split
  · exact ⟨by decide, nofun⟩
  · rename_i some_
    have shorter := length_untilZero_le piece
    have positive := List.length_pos_of_ne_nil some_
    refine ⟨?_, fun b member => untilZero_ne_zero (List.dropLast_subset _ member)⟩
    rw [Option.getD_some, List.length_dropLast]
    omega

theorem commands_fit {cmd : Bytes} (member : cmd ∈ commands stdin) : Fits cmd := by
  have among := List.takeWhile_subset _ (List.mem_of_mem_filter member)
  obtain ⟨piece, cut, rfl⟩ := List.mem_map.mp among
  exact command_fits (pieces_length (by decide) cut)

theorem upTo_fst (plain : ∀ b ∈ line, b ≠ 10) (room : Nat) :
    (upTo room (line ++ 10 :: rest)).1 = (line ++ [10]).take room := by
  by_cases fits : line.length < room
  · rw [upTo_line plain fits, List.take_of_length_le (by simpa using Nat.succ_le_of_lt fits)]
  · have long := Nat.le_of_not_lt fits
    rw [upTo_long plain long, List.take_append_of_le_length long]

theorem commands_line (plain : ∀ b ∈ line, b ≠ 10) (fits : Fits line)
    (other : isQuit line = false) :
    commands (line ++ 10 :: rest) = [line].filter (· ≠ []) ++ commands rest := by
  have whole : command (line ++ [10]) = line := by
    have nonzero : ∀ b ∈ line ++ [10], b ≠ 0 := by
      intro b member
      rcases List.mem_append.mp member with inside | last
      · exact fits.2 b inside
      · rw [List.mem_singleton.mp last]
        decide
    simp [command, getcmd, untilZero_eq_self nonzero]
  rw [commands_of_ne_nil (by simp), upTo_line plain fits.1, whole, other]
  by_cases empty : line = []
  · simp [empty]
  · simp [empty]

theorem isQuit_iff {cmd : Bytes} : isQuit cmd = true ↔ ∃ more, cmd = ascii "quit" ++ more := by
  rw [isQuit, startsWith_iff]
  exact ⟨fun ⟨more, is⟩ => ⟨more, is.symm⟩, fun ⟨more, is⟩ => ⟨more, is.symm⟩⟩

/-- The shell quits at a line that starts with `quit`, unless a NUL stands behind the
    word: then the word loses its last letter. -/
theorem commands_quit {last : Bytes} (plain : ∀ b ∈ last, b ≠ 10) (quit : isQuit last = true) :
    commands (last ++ 10 :: rest) = [] ↔ last[4]? ≠ some 0 := by
  obtain ⟨more, rfl⟩ := isQuit_iff.mp quit
  rw [commands_of_ne_nil (by simp), upTo_fst plain]
  match more with
  | [] =>
      have still : isQuit (command ((ascii "quit" ++ [] ++ [10]).take cmdRoom)) = true := by decide
      rw [still]
      simp [ascii]
  | b :: more =>
      have cut : (ascii "quit" ++ b :: more ++ [10]).take cmdRoom =
          ascii "quit" ++ b :: (more ++ [10]).take 121 := rfl
      have fifth : (ascii "quit" ++ b :: more)[4]? = some b := rfl
      rw [cut, fifth]
      by_cases zero : b = 0
      · subst zero
        have cmd : command (ascii "quit" ++ 0 :: (more ++ [10]).take 121) = ascii "qui" := by
          rw [command, getcmd, untilZero_append_zero]
          rfl
        rw [cmd]
        simp [show isQuit (ascii "qui") = false by decide, show ascii "qui" ≠ [] by decide]
      · have str : untilZero (ascii "quit" ++ b :: (more ++ [10]).take 121) =
            ascii "quit" ++ b :: untilZero ((more ++ [10]).take 121) := by
          rw [untilZero, List.takeWhile_append_of_pos (by decide),
            List.takeWhile_cons_of_pos (by simpa using zero), untilZero]
        have still : isQuit (command (ascii "quit" ++ b :: (more ++ [10]).take 121)) = true := by
          rw [isQuit_iff, command, getcmd, str, if_neg (by simp), Option.getD_some,
            List.dropLast_append_of_ne_nil (by simp)]
          exact ⟨_, rfl⟩
        rw [still]
        simp [zero]

theorem commands_of_fits (plain : ∀ line ∈ lines, ∀ b ∈ line, b ≠ 10)
    (fits : ∀ line ∈ beforeQuit lines, Fits line) :
    commands (typedLines lines) = asked lines ↔
      ∀ last ∈ lines.find? isQuit, last[4]? ≠ some 0 := by
  induction lines with
  | nil => simp [typedLines, commands, asked, beforeQuit]
  | cons line lines ih =>
      have here := plain line List.mem_cons_self
      have typed : typedLines (line :: lines) = line ++ 10 :: typedLines lines := by
        simp [typedLines]
      rw [typed]
      cases quit : isQuit line with
      | true =>
          rw [List.find?_cons_of_pos quit, asked, beforeQuit,
            List.takeWhile_cons_of_neg (by simpa using quit), List.filter_nil,
            commands_quit here quit]
          simp
      | false =>
          have before : beforeQuit (line :: lines) = line :: beforeQuit lines := by
            rw [beforeQuit, List.takeWhile_cons_of_pos (by simpa using quit), beforeQuit]
          rw [before] at fits
          have rest := ih (fun l inside => plain l (List.mem_cons_of_mem _ inside))
            fun l inside => fits l (List.mem_cons_of_mem _ inside)
          have first : asked (line :: lines) = [line].filter (· ≠ []) ++ asked lines := by
            rw [asked, before, ← List.singleton_append, List.filter_append, asked]
          rw [commands_line here (fits line List.mem_cons_self) quit, first,
            List.append_cancel_left_eq, List.find?_cons_of_neg (by simpa using quit), rest]

/-- The shell runs the commands that are asked for exactly when each of them fits
    the buffer and has no NUL, and no NUL stands right behind the word `quit`. -/
theorem commands_iff (plain : ∀ line ∈ lines, ∀ b ∈ line, b ≠ 10) :
    commands (typedLines lines) = asked lines ↔
      (∀ line ∈ beforeQuit lines, Fits line) ∧ ∀ last ∈ lines.find? isQuit, last[4]? ≠ some 0 := by
  constructor
  · intro same
    have fits : ∀ line ∈ beforeQuit lines, Fits line := by
      intro line member
      by_cases empty : line = []
      · rw [empty]
        exact ⟨by decide, nofun⟩
      · have ran : line ∈ commands (typedLines lines) := by
          rw [same, asked, List.mem_filter]
          exact ⟨member, by simpa using empty⟩
        exact commands_fit ran
    exact ⟨fits, (commands_of_fits plain fits).mp same⟩
  · rintro ⟨fits, quits⟩
    exact (commands_of_fits plain fits).mpr quits

/-! ## The processes -/

inductive ChildState where
  /-- With `news` it has been resumed, and no wait has returned for it. -/
  | running (news : Bool)
  /-- With `news` no wait has returned for it. -/
  | stopped (news : Bool)
  | ended
  | reaped
  deriving DecidableEq

structure Child where
  cmd : Bytes
  state : ChildState
  deriving DecidableEq

/-- What a child does, or a signal does to it. -/
inductive Changes : ChildState → ChildState → Prop where
  | stop {news} : Changes (.running news) (.stopped true)
  | resume {news} : Changes (.stopped news) (.running true)
  | exit {news} : Changes (.running news) .ended
  | kill {news} : Changes (.stopped news) .ended

/-- A child for which a wait returns, as the wait leaves it.  With `untraced` the wait
    is `waitpid(-1, &wstat, WUNTRACED|WCONTINUED)`. -/
def waited (untraced : Bool) : ChildState → Option ChildState
  | .ended => some .reaped
  | .stopped true => if untraced then some (.stopped false) else none
  | .running true => if untraced then some (.running false) else none
  | .running false | .stopped false | .reaped => none

inductive ShellPc where
  | prompt
  | waiting
  | quit
  | eof
  | forkFailed
  | waitFailed
  /-- `getcmd` has stored a NUL in front of the buffer. -/
  | strayed
  deriving DecidableEq

/-- The shell: what its `stdin` has read ahead, the offset in the input, which it shares
    with its children, and whether `stdin` has seen the end; and the children in the
    order in which it made them.  `reports` is history: the waits that returned for a
    living child. -/
structure Shell where
  pc : ShellPc
  ahead : Bytes
  offset : Nat
  ended : Bool
  children : List Child
  reports : Nat

/-- Nothing more has to be read for the next `fgets`. -/
def Shell.Ready (s : Shell) : Prop :=
  s.ended = true ∨ 10 ∈ s.ahead.take cmdRoom ∨ cmdRoom ≤ s.ahead.length

inductive Mover where
  | shell
  | child (i : Nat)
  /-- A child moves the offset. -/
  | seeker (i : Nat)

inductive ShellStep (untraced : Bool) (stdin : Bytes) : Shell → Mover → Shell → Prop where
  /-- Below `fgets` the shell reads some of what there is. -/
  | refill {s : Shell} (k : Nat) : s.pc = .prompt → ¬ s.Ready → 0 < k →
      k ≤ (stdin.drop s.offset).length →
      ShellStep untraced stdin s .shell
        { s with
          ahead := s.ahead ++ (stdin.drop s.offset).take k
          offset := s.offset + k }
  | ends {s : Shell} : s.pc = .prompt → ¬ s.Ready → stdin.length ≤ s.offset →
      ShellStep untraced stdin s .shell { s with ended := true }
  | eof {s : Shell} : s.pc = .prompt → s.Ready → fgets (cmdRoom + 1) s.ahead = none →
      ShellStep untraced stdin s .shell { s with pc := .eof }
  | stray {s : Shell} {piece rest} : s.pc = .prompt → s.Ready →
      fgets (cmdRoom + 1) s.ahead = some (piece, rest) → getcmd piece = none →
      ShellStep untraced stdin s .shell { s with pc := .strayed, ahead := rest }
  | quit {s : Shell} {piece rest cmd} : s.pc = .prompt → s.Ready →
      fgets (cmdRoom + 1) s.ahead = some (piece, rest) → getcmd piece = some cmd →
      isQuit cmd = true → ShellStep untraced stdin s .shell { s with pc := .quit, ahead := rest }
  | blank {s : Shell} {piece rest} : s.pc = .prompt → s.Ready →
      fgets (cmdRoom + 1) s.ahead = some (piece, rest) → getcmd piece = some [] →
      ShellStep untraced stdin s .shell { s with ahead := rest }
  | fork {s : Shell} {piece rest cmd} : s.pc = .prompt → s.Ready →
      fgets (cmdRoom + 1) s.ahead = some (piece, rest) → getcmd piece = some cmd →
      isQuit cmd = false → cmd ≠ [] →
      ShellStep untraced stdin s .shell
        { s with
          pc := .waiting
          ahead := rest
          children := s.children ++ [⟨cmd, .running false⟩] }
  | forkFails {s : Shell} {piece rest cmd} : s.pc = .prompt → s.Ready →
      fgets (cmdRoom + 1) s.ahead = some (piece, rest) → getcmd piece = some cmd →
      isQuit cmd = false → cmd ≠ [] →
      ShellStep untraced stdin s .shell { s with pc := .forkFailed, ahead := rest }
  | wait {s : Shell} {i child state} : s.pc = .waiting → s.children[i]? = some child →
      waited untraced child.state = some state →
      ShellStep untraced stdin s .shell
        { s with
          pc := .prompt
          children := s.children.set i { child with state := state }
          reports := if state = .reaped then s.reports else s.reports + 1 }
  | waitFails {s : Shell} : s.pc = .waiting → (∀ child ∈ s.children, child.state = .reaped) →
      ShellStep untraced stdin s .shell { s with pc := .waitFailed }
  | change {s : Shell} {i child state} : s.children[i]? = some child → Changes child.state state →
      ShellStep untraced stdin s (.child i)
        { s with children := s.children.set i { child with state := state } }
  /-- A child reads from its standard input, or seeks in it, as `exit` does behind an
      `execlp` that failed: it puts a file back to where the shell had got to. -/
  | seek {s : Shell} {i child news} (o : Nat) : s.children[i]? = some child →
      child.state = .running news → ShellStep untraced stdin s (.seeker i) { s with offset := o }

/-- `do_simpsh` and the children, from the start. -/
def simpsh (untraced : Bool) (stdin : Bytes) : System Shell Mover where
  init s := s = ⟨.prompt, [], 0, false, [], 0⟩
  step := ShellStep untraced stdin

/-- No child moves the offset in the standard input. -/
def KeepsInput (_ : Shell) (m : Mover) : Prop := ∀ i, m ≠ .seeker i

variable {untraced : Bool} {s s' : Shell}

/-! ### What is run -/

theorem commands_read (read : fgets (cmdRoom + 1) stdin = some (piece, rest)) :
    commands stdin =
      if isQuit (command piece) then []
      else if command piece = [] then commands rest else command piece :: commands rest := by
  obtain ⟨some_, rfl, rfl⟩ := fgets_eq_some read
  exact commands_of_ne_nil some_

/-- What the shell will read if nobody else moves the offset. -/
def Shell.input (stdin : Bytes) (s : Shell) : Bytes := s.ahead ++ stdin.drop s.offset

theorem Shell.Ready.read (ready : s.Ready) (seen : s.ended = true → stdin.length ≤ s.offset)
    (read : fgets (cmdRoom + 1) s.ahead = some (piece, rest)) :
    fgets (cmdRoom + 1) (s.input stdin) = some (piece, rest ++ stdin.drop s.offset) := by
  rcases ready with ended | full
  · have over_ : stdin.drop s.offset = [] := List.drop_of_length_le (seen ended)
    rw [Shell.input, over_, List.append_nil, List.append_nil, read]
  · exact fgets_append read full _

theorem map_cmd_set {children : List Child} {i : Nat} {child : Child} (state : ChildState)
    (at_ : children[i]? = some child) :
    (children.set i { child with state := state }).map Child.cmd = children.map Child.cmd := by
  obtain ⟨inside, rfl⟩ := List.getElem?_eq_some_iff.mp at_
  rw [List.map_set]
  have same := List.set_getElem_self
    (show i < (children.map Child.cmd).length by simpa using inside)
  rwa [List.getElem_map] at same

/-- The children that there are have the first of the commands. -/
structure Commanded (stdin : Bytes) (s : Shell) : Prop where
  sofar : ∃ more, s.children.map Child.cmd ++ more = commands stdin ∧
    (s.pc = .prompt ∨ s.pc = .waiting → more = commands (s.input stdin)) ∧
    (s.pc = .quit ∨ s.pc = .eof → more = [])
  seen : s.ended = true → stdin.length ≤ s.offset

theorem Commanded.step {m : Mover} (commanded : Commanded stdin s)
    (taken : ShellStep untraced stdin s m s') (keeps : KeepsInput s m) : Commanded stdin s' := by
  obtain ⟨⟨more, whole, going, finished⟩, seen⟩ := commanded
  cases taken with
  | refill k at_ _ positive there =>
      have same : s.ahead ++ (stdin.drop s.offset).take k ++ stdin.drop (s.offset + k) =
          s.input stdin := by
        rw [Shell.input, ← List.drop_drop, List.append_assoc, List.take_append_drop]
      refine ⟨⟨more, whole, fun _ => ?_, finished⟩, fun ended => ?_⟩
      · exact (going (.inl at_)).trans (congrArg commands same.symm)
      · have none_ := seen ended
        simp only [List.length_drop] at there
        omega
  | ends at_ _ over_ => exact ⟨⟨more, whole, going, finished⟩, fun _ => over_⟩
  | eof at_ ready read =>
      have empty : s.ahead = [] := by simpa [fgets] using read
      have ended : s.ended = true := ready.resolve_right (by simp [empty, cmdRoom])
      have none_ : more = [] := by
        rw [going (.inl at_), Shell.input, empty, List.drop_of_length_le (seen ended)]
        simp [commands]
      exact ⟨⟨more, whole, by simp, fun _ => none_⟩, seen⟩
  | stray at_ _ read cut => exact ⟨⟨more, whole, by simp, by simp⟩, seen⟩
  | quit at_ ready read cut quit =>
      have none_ : more = [] := by
        rw [going (.inl at_), commands_read (ready.read seen read), command, cut, Option.getD_some,
          quit, if_pos rfl]
      exact ⟨⟨more, whole, by simp, fun _ => none_⟩, seen⟩
  | @blank piece rest at_ ready read cut =>
      have same : commands (s.input stdin) = commands (rest ++ stdin.drop s.offset) := by
        rw [commands_read (ready.read seen read), command, cut]
        rfl
      exact ⟨⟨more, whole, fun _ => (going (.inl at_)).trans same, finished⟩, seen⟩
  | @fork piece rest cmd at_ ready read cut other some_ =>
      have next : commands (s.input stdin) =
          cmd :: commands (rest ++ stdin.drop s.offset) := by
        rw [commands_read (ready.read seen read), command, cut, Option.getD_some, other,
          if_neg some_]
        rfl
      refine ⟨⟨commands (rest ++ stdin.drop s.offset), ?_, fun _ => rfl, by simp⟩, seen⟩
      rw [← whole, going (.inl at_), next]
      simp
  | forkFails at_ _ read cut other some_ => exact ⟨⟨more, whole, by simp, by simp⟩, seen⟩
  | wait at_ child waited =>
      exact ⟨⟨more, by rwa [map_cmd_set _ child], fun _ => going (.inr at_), by simp⟩, seen⟩
  | waitFails at_ finished => exact ⟨⟨more, whole, by simp, by simp⟩, seen⟩
  | change child _ => exact ⟨⟨more, by rwa [map_cmd_set _ child], going, finished⟩, seen⟩
  | @seek i _ _ _ _ _ => exact absurd rfl (keeps i)

theorem Commanded.reachable (reach : ((simpsh untraced stdin).only KeepsInput).Reachable s) :
    Commanded stdin s := by
  apply reach.invariant
  · rintro s rfl
    exact ⟨⟨commands stdin, rfl, fun _ => rfl, by simp⟩, by simp⟩
  · exact fun s m s' _ commanded taken => commanded.step taken.1 taken.2

/-- When the shell has ended as it should, and no child has moved the offset in the
    input that they share, it has run the commands that were asked for exactly when none
    was too long for its buffer or had a NUL. -/
theorem simpsh_commands_iff (plain : ∀ line ∈ lines, ∀ b ∈ line, b ≠ 10)
    (reach : ((simpsh untraced (typedLines lines)).only KeepsInput).Reachable s)
    (finished : s.pc = .quit ∨ s.pc = .eof) :
    s.children.map Child.cmd = asked lines ↔
      (∀ line ∈ beforeQuit lines, line.length ≤ 125 ∧ ∀ b ∈ line, b ≠ 0) ∧
        ∀ last ∈ lines.find? isQuit, last[4]? ≠ some 0 := by
  obtain ⟨more, whole, _, ended⟩ := (Commanded.reachable reach).sofar
  rw [ended finished, List.append_nil] at whole
  rw [whole, commands_iff plain]
  simp only [Fits, cmdRoom, Nat.lt_succ_iff]

theorem simpsh_commands_iff_ls : ∃ s,
    ((simpsh false (typedLines [ascii "ls"])).only KeepsInput).Reachable s ∧ s.pc = .eof ∧
      s.children.map Child.cmd = [ascii "ls"] ∧
      (s.children.map Child.cmd = asked [ascii "ls"] ↔
        (∀ line ∈ beforeQuit [ascii "ls"], line.length ≤ 125 ∧ ∀ b ∈ line, b ≠ 0) ∧
          ∀ last ∈ [ascii "ls"].find? isQuit, last[4]? ≠ some 0) := by
  have read : ((simpsh false (typedLines [ascii "ls"])).only KeepsInput).Reachable _ :=
    .step (.init rfl)
      ⟨.refill 3 rfl (by simp [Shell.Ready, cmdRoom]) (by decide) (by decide), nofun⟩
  have forked : ((simpsh false (typedLines [ascii "ls"])).only KeepsInput).Reachable _ :=
    read.step ⟨.fork rfl (.inr (.inl (by decide)))
      (show fgets (cmdRoom + 1) (typedLines [ascii "ls"]) = some (ascii "ls\n", []) by decide)
      (show getcmd (ascii "ls\n") = some (ascii "ls") by decide) (by decide) (by decide), nofun⟩
  have exited : ((simpsh false (typedLines [ascii "ls"])).only KeepsInput).Reachable _ :=
    forked.step ⟨.change (i := 0) rfl .exit, nofun⟩
  have prompted : ((simpsh false (typedLines [ascii "ls"])).only KeepsInput).Reachable _ :=
    exited.step ⟨.wait (i := 0) rfl rfl rfl, nofun⟩
  have seen : ((simpsh false (typedLines [ascii "ls"])).only KeepsInput).Reachable _ :=
    prompted.step ⟨.ends rfl (by simp [Shell.Ready, cmdRoom]) (by decide), nofun⟩
  have ended : ((simpsh false (typedLines [ascii "ls"])).only KeepsInput).Reachable _ :=
    seen.step ⟨.eof rfl (.inl rfl) rfl, nofun⟩
  exact ⟨_, ended, rfl, by decide, simpsh_commands_iff (by decide) ended (.inr rfl)⟩

/-! ### What is waited for -/

def ChildState.live (state : ChildState) : Bool := state != .reaped

/-- The children that no wait has cleared away. -/
def Shell.unreaped (s : Shell) : Nat := s.children.countP (·.state.live)

theorem live_of_changes {state state' : ChildState} (changes : Changes state state') :
    state.live = true ∧ state'.live = true := by
  cases changes <;> exact ⟨rfl, rfl⟩

/-- A wait clears a child away that has ended; the other wait may leave it alive. -/
theorem waited_eq_some {state state' : ChildState} (returns : waited untraced state = some state') :
    state.live = true ∧ (state'.live = true → untraced = true) := by
  unfold waited at returns
  split at returns
  · obtain rfl := Option.some.inj returns
    exact ⟨rfl, nofun⟩
  · exact ⟨rfl, fun _ => by by_contra off; simp [off] at returns⟩
  · exact ⟨rfl, fun _ => by by_contra off; simp [off] at returns⟩
  all_goals cases returns

theorem live_iff {state : ChildState} : state.live = true ↔ state ≠ .reaped := bne_iff_ne

theorem countP_set {children : List Child} {i : Nat} {child : Child} (state : ChildState)
    (at_ : children[i]? = some child) (live : child.state.live = true) :
    (children.set i { child with state := state }).countP (·.state.live) + 1 =
      children.countP (·.state.live) + if state.live then 1 else 0 := by
  obtain ⟨inside, rfl⟩ := List.getElem?_eq_some_iff.mp at_
  have positive : 0 < children.countP (·.state.live) :=
    List.countP_pos_iff.mpr ⟨_, List.getElem_mem inside, live⟩
  rw [List.countP_set inside, if_pos live]
  dsimp only
  omega

/-- The shell has as many children that are not cleared away as waits returned for
    one that lived, and the one that it waits for. -/
structure Accounted (untraced : Bool) (s : Shell) : Prop where
  unreaped : s.unreaped = s.reports + if s.pc = .waiting then 1 else 0
  reports : untraced = false → s.reports = 0
  waits : s.pc ≠ .waitFailed

theorem Accounted.step {m : Mover} (accounted : Accounted untraced s)
    (taken : ShellStep untraced stdin s m s') : Accounted untraced s' := by
  obtain ⟨unreaped, reports, waits⟩ := accounted
  cases taken with
  | eof at_ _ _ | stray at_ _ _ _ | quit at_ _ _ _ _ | forkFails at_ _ _ _ _ _ =>
      rw [if_neg (by simp [at_])] at unreaped
      exact ⟨by simpa [Shell.unreaped] using unreaped, reports, by simp⟩
  | refill _ _ _ _ _ | ends _ _ _ | blank _ _ _ _ | seek _ _ _ => exact ⟨unreaped, reports, waits⟩
  | fork at_ _ _ _ _ _ =>
      rw [if_neg (by simp [at_])] at unreaped
      refine ⟨?_, reports, by simp⟩
      simpa [Shell.unreaped, ChildState.live] using unreaped
  | @wait i child state at_ here returns =>
      rw [if_pos at_] at unreaped
      obtain ⟨before, off⟩ := waited_eq_some returns
      have count := countP_set state here before
      by_cases cleared : state = .reaped
      · subst cleared
        refine ⟨?_, by simpa using reports, by simp⟩
        rw [if_neg (by decide)] at count
        simp only [Shell.unreaped, reduceCtorEq, if_true, if_false] at unreaped ⊢
        omega
      · have live : state.live = true := live_iff.mpr cleared
        refine ⟨?_, fun plain => ?_, by simp⟩
        · simp only [Shell.unreaped] at unreaped ⊢
          rw [if_pos live] at count
          rw [if_neg cleared, if_neg (by simp)]
          omega
        · rw [off live] at plain
          cases plain
  | waitFails at_ finished =>
      -- the child that is waited for has not been cleared away
      rw [if_pos at_] at unreaped
      have none_ : s.unreaped = 0 := by
        rw [Shell.unreaped, List.countP_eq_zero]
        exact fun child member => by simp [ChildState.live, finished child member]
      omega
  | @change i child state here changes =>
      obtain ⟨before, after⟩ := live_of_changes changes
      have same := countP_set state here before
      rw [after, if_pos rfl] at same
      exact ⟨(Nat.succ.inj same).trans unreaped, reports, waits⟩

theorem Accounted.reachable (reach : (simpsh untraced stdin).Reachable s) :
    Accounted untraced s := by
  apply reach.invariant
  · rintro s rfl
    exact ⟨rfl, fun _ => rfl, by simp⟩
  · exact fun s m s' _ accounted taken => accounted.step taken

/-- For every command that is run there is a moment right behind its `fork`. -/
theorem forked_of_children {before later : List Child} {child : Child}
    (reach : (simpsh untraced stdin).Reachable s) (ran : s.children = before ++ child :: later) :
    ∃ s', (simpsh untraced stdin).Reachable s' ∧ s'.pc = .waiting ∧
      ∃ earlier, s'.children = earlier ++ [⟨child.cmd, .running false⟩] ∧
        earlier.map Child.cmd = before.map Child.cmd := by
  induction reach generalizing before child later with
  | init begun =>
      obtain rfl := begun
      simp at ran
  | @step s m s' reach taken ih =>
      have next : (simpsh untraced stdin).Reachable s' := reach.step taken
      -- a child that only changes its state was made before
      have kept : ∀ {i other state}, s.children[i]? = some other →
          s.children.set i { other with state := state } = before ++ child :: later →
          ∃ s', (simpsh untraced stdin).Reachable s' ∧ s'.pc = .waiting ∧
            ∃ earlier, s'.children = earlier ++ [⟨child.cmd, .running false⟩] ∧
              earlier.map Child.cmd = before.map Child.cmd := by
        intro i other state here ran
        have cmds := map_cmd_set state here
        rw [ran, List.map_append, List.map_cons] at cmds
        obtain ⟨before', rest', is, same, sameRest⟩ := List.map_eq_append_iff.mp cmds.symm
        obtain ⟨child', later', rfl, cmd, _⟩ := List.map_eq_cons_iff.mp sameRest
        rw [← cmd, ← same]
        exact ih is
      cases taken with
      | refill | ends | eof | stray | quit | blank | forkFails | waitFails | seek => exact ih ran
      | fork at_ _ _ _ _ _ =>
          rcases List.eq_nil_or_concat later with rfl | ⟨front, last, rfl⟩
          · obtain ⟨rfl, is⟩ := List.append_inj' ran rfl
            obtain rfl := (List.cons.inj is).1
            exact ⟨_, next, rfl, s.children, rfl, rfl⟩
          · rw [List.concat_eq_append, ← List.cons_append, ← List.append_assoc] at ran
            exact ih (List.append_inj' ran rfl).1
      | wait _ here _ => exact kept here ran
      | change here _ => exact kept here ran

/-- With the other wait every command that is run can be left running behind the prompt:
    it is stopped, the wait returns, and it is resumed. -/
theorem simpsh_left_running {before later : List Child} {child : Child}
    (reach : (simpsh true stdin).Reachable s) (ran : s.children = before ++ child :: later) :
    ∃ s', (simpsh true stdin).Reachable s' ∧ s'.pc = .prompt ∧
      ∃ earlier, s'.children = earlier ++ [⟨child.cmd, .running true⟩] ∧
        earlier.map Child.cmd = before.map Child.cmd := by
  obtain ⟨s', reach', at_, earlier, children, cmds⟩ := forked_of_children reach ran
  have here : s'.children[earlier.length]? = some ⟨child.cmd, .running false⟩ := by simp [children]
  have stopped : (simpsh true stdin).Reachable _ := reach'.step (ShellStep.change here .stop)
  have here' : (s'.children.set earlier.length ⟨child.cmd, .stopped true⟩)[earlier.length]? =
      some ⟨child.cmd, .stopped true⟩ := by simp [children]
  have prompted : (simpsh true stdin).Reachable _ := stopped.step (ShellStep.wait at_ here' rfl)
  have here'' : ((s'.children.set earlier.length ⟨child.cmd, .stopped true⟩).set earlier.length
      ⟨child.cmd, .stopped false⟩)[earlier.length]? = some ⟨child.cmd, .stopped false⟩ := by
    simp [children]
  have resumed : (simpsh true stdin).Reachable _ := prompted.step (ShellStep.change here'' .resume)
  exact ⟨_, resumed, rfl, earlier, by simp [children], cmds⟩

/-- Whenever the shell does not wait all its commands are over and cleared away,
    exactly if it uses `wait`, or never runs a command; with the other wait every command
    that it runs can be left running behind the prompt. -/
theorem simpsh_alone_iff :
    ((∀ s, (simpsh untraced stdin).Reachable s → s.pc ≠ .waiting →
        ∀ child ∈ s.children, child.state = .reaped) ↔
      untraced = false ∨ ∀ s, (simpsh untraced stdin).Reachable s → s.children = []) ∧
    ∀ s before child later, (simpsh true stdin).Reachable s →
      s.children = before ++ child :: later →
      ∃ s', (simpsh true stdin).Reachable s' ∧ s'.pc = .prompt ∧
        ∃ earlier, s'.children = earlier ++ [⟨child.cmd, .running true⟩] ∧
          earlier.map Child.cmd = before.map Child.cmd := by
  refine ⟨⟨fun alone => ?_, ?_⟩,
    fun s before child later reach ran => simpsh_left_running reach ran⟩
  · by_contra wrong
    simp only [not_or, Bool.not_eq_false, not_forall] at wrong
    obtain ⟨rfl, s, reach, ran⟩ := wrong
    obtain ⟨child, later, ran⟩ := List.exists_cons_of_ne_nil ran
    obtain ⟨s', reach', at_, earlier, children, _⟩ :=
      @simpsh_left_running stdin s [] later child reach ran
    have cleared := alone s' reach' (by simp [at_]) ⟨child.cmd, .running true⟩ (by simp [children])
    cases cleared
  · rintro (rfl | never) s reach idle child member
    · have accounted := Accounted.reachable reach
      have none_ := accounted.unreaped
      rw [accounted.reports rfl, if_neg idle, Shell.unreaped, List.countP_eq_zero] at none_
      simpa [ChildState.live] using none_ child member
    · rw [never s reach] at member
      cases member

end SysProg.Book
