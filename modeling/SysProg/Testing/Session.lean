import SysProg.Lib.Fgets
import SysProg.Lib.Transition

/-! # One message to the test server

The client sends the first line that is typed and prints the answer; the server
prints the message and answers.  They start where the connection stands.  TCP
carries bytes: a write may send a part of its bytes, a read takes any part of
what has come, and any call may fail.
-/

namespace SysProg.Testing

open CString Fgets Transition

/-! ## The two programs -/

/-- What the client has to send: `fgets(buffer, 255, stdin)` into a buffer of
    zeros, up to the terminator that `strlen` finds. -/
def typed (stdin : Bytes) : Bytes :=
  match fgets 255 stdin with
  | none => []
  | some (line, _) => untilZero line

inductive Exit where
  | success
  /-- `perror` and `exit(1)`, or killed by the signal of a broken connection. -/
  | failure
  deriving DecidableEq

inductive ClientPc where
  /-- Before the prompt. -/
  | asking
  | writing (message : Bytes)
  | reading
  | ended (exit : Exit)
  deriving DecidableEq

inductive ServerPc where
  | reading
  | writing
  | ended (exit : Exit)
  deriving DecidableEq

/-- The two processes, what is on the way in each direction, and what each
    has printed. -/
structure Talk where
  client : ClientPc
  server : ServerPc
  up : Bytes
  down : Bytes
  shown : Bytes
  logged : Bytes
  deriving DecidableEq

def prompt : Bytes := ascii "Please enter the message: "

def answer : Bytes := ascii "I got your message"

/-- `printf("Here is the message: %s\n", buffer)`, after `read` put `message` into
    the zeroed buffer. -/
def messageLine (message : Bytes) : Bytes :=
  ascii "Here is the message: " ++ untilZero message ++ [10]

/-- `printf("%s\n", buffer)` -/
def answerLine (reply : Bytes) : Bytes := untilZero reply ++ [10]

inductive Move where
  | ask
  | send
  | serve
  | respond
  | receive
  | fail
  deriving DecidableEq

/-- `read(fd, buffer, 255)`: some of what has come, or nothing once the other end
    is closed. -/
def Reads (way rest piece : Bytes) (closed : Prop) : Prop :=
  way = piece ++ rest ∧ piece.length ≤ 255 ∧ (piece = [] → way = [] ∧ closed)

/-- `write(fd, bytes, n)`: some of the bytes, if there are any. -/
def Sends (bytes sent : Bytes) : Prop := sent <+: bytes ∧ (sent = [] → bytes = [])

inductive TalkStep (stdin : Bytes) : Talk → Move → Talk → Prop where
  | ask {s : Talk} : s.client = .asking →
      TalkStep stdin s .ask { s with client := .writing (typed stdin), shown := s.shown ++ prompt }
  | send {s : Talk} {message sent} : s.client = .writing message → Sends message sent →
      TalkStep stdin s .send { s with client := .reading, up := s.up ++ sent }
  | serve {s : Talk} {message rest} : s.server = .reading →
      Reads s.up rest message (∃ exit, s.client = .ended exit) →
      TalkStep stdin s .serve
        { s with server := .writing, up := rest, logged := s.logged ++ messageLine message }
  | respond {s : Talk} {sent} : s.server = .writing → Sends answer sent →
      TalkStep stdin s .respond { s with server := .ended .success, down := s.down ++ sent }
  | receive {s : Talk} {reply rest} : s.client = .reading →
      Reads s.down rest reply (∃ exit, s.server = .ended exit) →
      TalkStep stdin s .receive
        { s with client := .ended .success, down := rest, shown := s.shown ++ answerLine reply }
  | clientFails {s : Talk} : (s.client = .reading ∨ ∃ message, s.client = .writing message) →
      TalkStep stdin s .fail { s with client := .ended .failure }
  | serverFails {s : Talk} : (s.server = .reading ∨ s.server = .writing) →
      TalkStep stdin s .fail { s with server := .ended .failure }

/-- The session, once `accept` and `connect` have returned. -/
def session (stdin : Bytes) : System Talk Move where
  init s := s = ⟨.asking, .reading, [], [], [], []⟩
  step := TalkStep stdin

/-! ## What each side prints -/

variable {stdin : Bytes} {s s' : Talk}

theorem typed_ne_zero {b : UInt8} (member : b ∈ typed stdin) : b ≠ 0 := by
  unfold typed at member
  split at member
  · cases member
  · exact untilZero_ne_zero member

/-- The message is empty when nothing is typed, or a NUL first of all. -/
theorem typed_eq_nil : typed stdin = [] ↔ ∀ b ∈ stdin.head?, b = 0 := by
  cases stdin with
  | nil => simp [typed, fgets]
  | cons b stdin =>
      have first : (upTo 254 (b :: stdin)).1.head? = some b := by
        by_cases newline : b = 10 <;> simp [upTo, newline]
      cases piece : (upTo 254 (b :: stdin)).1 with
      | nil => simp [piece] at first
      | cons c rest =>
          rw [piece, List.head?_cons, Option.some.injEq] at first
          subst first
          by_cases zero : c = 0
          · subst zero
            simp [typed, fgets, piece, untilZero]
          · simp [typed, fgets, piece, untilZero, zero]

theorem messageLine_ne_nil (message : Bytes) : messageLine message ≠ [] := by
  simp [messageLine]

/-- The client has not sent anything yet. -/
def ClientPc.Unsent (c : ClientPc) : Prop := c = .asking ∨ ∃ message, c = .writing message

/-- Where the two sides and the bytes between them can be. -/
structure Orderly (stdin : Bytes) (s : Talk) : Prop where
  asking : s.client = .asking → s.shown = []
  writing : ∀ message, s.client = .writing message → message = typed stdin ∧ s.shown = prompt
  waiting : s.client = .reading → s.shown = prompt
  unsent : s.client.Unsent → s.up = [] ∧ s.logged = []
  sent : ∃ sofar, sofar ++ s.up <+: typed stdin ∧
    (s.logged = [] ∧ sofar = [] ∨ s.logged = messageLine sofar)
  unserved : s.server = .reading → s.logged = []
  served : s.server = .writing → s.logged ≠ []
  silent : s.server = .reading ∨ s.server = .writing → s.down = []
  replied : (∀ exit, s.client ≠ .ended exit) → s.down <+: answer
  reacted : s.down ≠ [] → s.logged ≠ []
  shown : s.shown = [] ∨ s.shown = prompt ∨
    ∃ reply, s.shown = prompt ++ answerLine reply ∧ reply <+: answer ∧ (reply ≠ [] → s.logged ≠ [])

namespace Orderly

theorem init : Orderly stdin ⟨.asking, .reading, [], [], [], []⟩ where
  asking _ := rfl
  writing := by simp
  waiting := by simp
  unsent _ := ⟨rfl, rfl⟩
  sent := ⟨[], List.nil_prefix, .inl ⟨rfl, rfl⟩⟩
  unserved _ := rfl
  served := by simp
  silent _ := rfl
  replied _ := List.nil_prefix
  reacted := by simp
  shown := .inl rfl

theorem ask (orderly : Orderly stdin s) (at_ : s.client = .asking) :
    Orderly stdin { s with client := .writing (typed stdin), shown := s.shown ++ prompt } :=
  { orderly with
    asking := by simp
    writing := by simp [orderly.asking at_]
    waiting := by simp
    unsent := fun _ => orderly.unsent (.inl at_)
    replied := fun _ => orderly.replied (by simp [at_])
    shown := by simp [orderly.asking at_] }

theorem send {message piece} (orderly : Orderly stdin s) (at_ : s.client = .writing message)
    (sends : Sends message piece) :
    Orderly stdin { s with client := .reading, up := s.up ++ piece } := by
  obtain ⟨rfl, shown⟩ := orderly.writing message at_
  obtain ⟨up, logged⟩ := orderly.unsent (.inr ⟨_, at_⟩)
  exact
    { orderly with
      asking := by simp
      writing := by simp
      waiting := fun _ => shown
      unsent := by simp [ClientPc.Unsent]
      sent := ⟨[], by simpa [up] using sends.1, .inl ⟨logged, rfl⟩⟩
      replied := fun _ => orderly.replied (by simp [at_]) }

theorem serve {message rest} (orderly : Orderly stdin s) (at_ : s.server = .reading)
    (reads : Reads s.up rest message (∃ exit, s.client = .ended exit)) :
    Orderly stdin
      { s with server := .writing, up := rest, logged := s.logged ++ messageLine message } := by
  have nothing := orderly.unserved at_
  obtain ⟨sofar, sent, said⟩ := orderly.sent
  have none_ : sofar = [] := by
    rcases said with ⟨_, is⟩ | is
    · exact is
    · exact absurd (is.symm.trans nothing) (messageLine_ne_nil sofar)
  subst none_
  have spoken : s.logged ++ messageLine message ≠ [] := by simp [nothing, messageLine_ne_nil]
  exact
    { orderly with
      unsent := fun unsent => by
        -- nothing has come from a client that has sent nothing, nor is it closed
        have up := (orderly.unsent unsent).1
        obtain ⟨exit, finished⟩ :=
          (reads.2.2 (List.append_eq_nil_iff.mp (reads.1.symm.trans up)).1).2
        rcases unsent with is | ⟨m, is⟩ <;> simp [finished] at is
      sent := ⟨message, by simpa [reads.1] using sent, .inr (by simp [nothing])⟩
      unserved := by simp
      served := fun _ => spoken
      silent := fun _ => orderly.silent (.inl at_)
      reacted := fun _ => spoken
      shown := by
        rcases orderly.shown with is | is | ⟨reply, is, whole, _⟩
        · exact .inl is
        · exact .inr (.inl is)
        · exact .inr (.inr ⟨reply, is, whole, fun _ => spoken⟩) }

theorem respond {piece} (orderly : Orderly stdin s) (at_ : s.server = .writing)
    (sends : Sends answer piece) :
    Orderly stdin { s with server := .ended .success, down := s.down ++ piece } :=
  { orderly with
    unserved := by simp
    served := by simp
    silent := by simp
    replied := fun _ => by simpa [orderly.silent (.inr at_)] using sends.1
    reacted := fun _ => orderly.served at_ }

theorem receive {reply rest} (orderly : Orderly stdin s) (at_ : s.client = .reading)
    (reads : Reads s.down rest reply (∃ exit, s.server = .ended exit)) :
    Orderly stdin
      { s with client := .ended .success, down := rest, shown := s.shown ++ answerLine reply } := by
  have whole : reply ++ rest <+: answer := by
    rw [← reads.1]
    exact orderly.replied (by simp [at_])
  exact
    { orderly with
      asking := by simp
      writing := by simp
      waiting := by simp
      unsent := by simp [ClientPc.Unsent]
      silent := fun busy => by
        have down := orderly.silent busy
        rw [reads.1, List.append_eq_nil_iff] at down
        exact down.2
      replied := fun going => absurd rfl (going .success)
      reacted := fun some_ => orderly.reacted (by
        rw [reads.1]
        simp [show rest ≠ [] from some_])
      shown := .inr (.inr ⟨reply, by simp [orderly.waiting at_],
        (List.prefix_append _ _).trans whole,
        fun some_ => orderly.reacted (by
          rw [reads.1]
          simp [some_])⟩) }

theorem clientFails (orderly : Orderly stdin s) :
    Orderly stdin { s with client := .ended .failure } :=
  { orderly with
    asking := by simp
    writing := by simp
    waiting := by simp
    unsent := by simp [ClientPc.Unsent]
    replied := fun going => absurd rfl (going .failure) }

theorem serverFails (orderly : Orderly stdin s) :
    Orderly stdin { s with server := .ended .failure } :=
  { orderly with
    unserved := by simp
    served := by simp
    silent := by simp }

theorem step {l} (orderly : Orderly stdin s) (taken : TalkStep stdin s l s') :
    Orderly stdin s' := by
  cases taken with
  | ask at_ => exact orderly.ask at_
  | send at_ sends => exact orderly.send at_ sends
  | serve at_ reads => exact orderly.serve at_ reads
  | respond at_ sends => exact orderly.respond at_ sends
  | receive at_ reads => exact orderly.receive at_ reads
  | clientFails => exact orderly.clientFails
  | serverFails => exact orderly.serverFails

theorem reachable (reach : (session stdin).Reachable s) : Orderly stdin s := by
  apply reach.invariant
  · rintro s rfl
    exact init
  · exact fun s l s' _ orderly taken => orderly.step taken

end Orderly

/-- The server has printed nothing or a beginning of the typed line, the client
    nothing, its prompt or also a beginning of the answer, and an answer only after
    a message was printed. -/
def Transcripts (stdin : Bytes) (s : Talk) : Prop :=
  (s.logged = [] ∨ ∃ message, message <+: typed stdin ∧
    s.logged = ascii "Here is the message: " ++ message ++ [10]) ∧
  (s.shown = [] ∨ s.shown = prompt ∨ ∃ reply, reply <+: answer ∧
    s.shown = prompt ++ reply ++ [10] ∧ (reply ≠ [] → s.logged ≠ []))

/-- So it is whatever is cut in pieces and whichever call fails. -/
theorem session_transcripts (reach : (session stdin).Reachable s) : Transcripts stdin s := by
  have orderly := Orderly.reachable reach
  constructor
  · obtain ⟨message, sent, ⟨nothing, _⟩ | said⟩ := orderly.sent
    · exact .inl nothing
    · have whole : message <+: typed stdin := (List.prefix_append _ _).trans sent
      have plain := untilZero_eq_self fun b inside => typed_ne_zero (whole.subset inside)
      exact .inr ⟨message, whole, by rw [said, messageLine, plain]⟩
  · rcases orderly.shown with is | is | ⟨reply, is, whole, after⟩
    · exact .inl is
    · exact .inr (.inl is)
    · have plain : untilZero reply = reply := untilZero_eq_self fun b inside => by
        have letters : ∀ b ∈ answer, b ≠ 0 := by decide
        exact letters b (whole.subset inside)
      exact .inr (.inr ⟨reply, whole, by rw [is, answerLine, plain, List.append_assoc], after⟩)

/-- The message comes in two pieces, of which the server prints the first, and the
    answer is cut as well. -/
theorem session_transcripts_answered :
    ∃ s : Talk, (session (ascii "hi\n")).Reachable s ∧
      s.logged = ascii "Here is the message: h\n" ∧ s.shown = prompt ++ ascii "I got\n" ∧
      Transcripts (ascii "hi\n") s := by
  have asked : (session (ascii "hi\n")).Reachable _ := .step (.init rfl) (.ask rfl)
  have whole : Sends (ascii "hi\n") (ascii "hi") := ⟨by decide, by decide⟩
  have sent := asked.step (.send rfl whole)
  have first : Reads (ascii "hi") (ascii "i") (ascii "h") False :=
    ⟨rfl, by decide, by simp [ascii]⟩
  have served := sent.step (.serve rfl (by simpa using first))
  have answers : Sends answer answer := ⟨List.prefix_refl _, id⟩
  have answered := served.step (.respond rfl answers)
  have cut : Reads answer (ascii " your message") (ascii "I got") True :=
    ⟨by decide, by decide, by simp [ascii]⟩
  have received := answered.step (.receive rfl (by simpa using cut))
  exact ⟨_, received, by decide, by decide, session_transcripts received⟩

/-! ## When both come to their end -/

/-- The session without failing calls. -/
def soundSession (stdin : Bytes) : System Talk Move :=
  (session stdin).only fun _ l => l ≠ .fail

/-- Who has to move before the other can. -/
structure Going (s : Talk) : Prop where
  clientEnd : ∀ exit, s.client = .ended exit → exit = .success
  serverEnd : ∀ exit, s.server = .ended exit → exit = .success
  owed : s.client.Unsent ∨ s.server ≠ .reading ∨ s.up ≠ []

theorem Going.step {l} (going : Going s) (orderly : Orderly stdin s) (some_ : typed stdin ≠ [])
    (taken : TalkStep stdin s l s') (sound : l ≠ .fail) : Going s' := by
  cases taken with
  | ask at_ => exact ⟨by simp, going.serverEnd, .inl (.inr ⟨_, rfl⟩)⟩
  | send at_ sends =>
      obtain ⟨rfl, _⟩ := orderly.writing _ at_
      refine ⟨by simp, going.serverEnd, .inr (.inr fun none_ => some_ (sends.2 ?_))⟩
      exact (List.append_eq_nil_iff.mp none_).2
  | serve at_ reads => exact ⟨going.clientEnd, by simp, .inr (.inl (by simp))⟩
  | respond at_ sends => exact ⟨going.clientEnd, by simp, .inr (.inl (by simp))⟩
  | receive at_ reads =>
      refine ⟨by simp, going.serverEnd, ?_⟩
      rcases going.owed with is | is
      · rcases is with is | ⟨m, is⟩ <;> simp [at_] at is
      · exact .inr is
  | clientFails => exact absurd rfl sound
  | serverFails => exact absurd rfl sound

/-- The steps that each side has before it. -/
def rank (s : Talk) : Nat :=
  (match s.client with
    | .asking => 3
    | .writing _ => 2
    | .reading => 1
    | .ended _ => 0) +
  match s.server with
    | .reading => 2
    | .writing => 1
    | .ended _ => 0

theorem rank_lt {l} (taken : TalkStep stdin s l s') (sound : l ≠ .fail) : rank s' < rank s := by
  cases taken with
  | ask at_ | send at_ | serve at_ | respond at_ | receive at_ => simp [rank, at_]
  | clientFails => exact absurd rfl sound
  | serverFails => exact absurd rfl sound

theorem reads_all {way : Bytes} {closed : Prop} (open_ : way = [] → closed) :
    Reads way (way.drop 255) (way.take 255) closed := by
  refine ⟨by simp, by simp, fun none_ => ?_⟩
  have empty : way = [] := by simpa using none_
  exact ⟨empty, open_ empty⟩

theorem Going.enabled (going : Going s)
    (more : ¬ (s.client = .ended .success ∧ s.server = .ended .success)) :
    Enabled (soundSession stdin) (fun _ => True) s := by
  have goes : ∀ {l s'}, TalkStep stdin s l s' → l ≠ .fail →
      Enabled (soundSession stdin) (fun _ => True) s :=
    fun taken sound => ⟨_, _, trivial, taken, sound⟩
  -- what the client has said is answered, or the server can go on
  have answered (said : ¬ s.client.Unsent) : (∃ exit, s.server = .ended exit) ∨
      Enabled (soundSession stdin) (fun _ => True) s := by
    cases server : s.server with
    | writing =>
        exact .inr (goes (.respond server ⟨List.prefix_refl answer, fun none_ => none_⟩) (by simp))
    | reading =>
        have some_ : s.up ≠ [] := by simpa [server, said] using going.owed
        exact .inr (goes (.serve server (reads_all fun none_ => absurd none_ some_)) (by simp))
    | ended exit => exact .inl ⟨exit, rfl⟩
  cases client : s.client with
  | asking => exact goes (.ask client) (by simp)
  | writing message =>
      exact goes (.send client ⟨List.prefix_refl message, fun none_ => none_⟩) (by simp)
  | reading =>
      rcases answered (by simp [client, ClientPc.Unsent]) with ⟨exit, server⟩ | enabled
      · exact goes (.receive client (reads_all fun _ => ⟨exit, server⟩)) (by simp)
      · exact enabled
  | ended exit =>
      rcases answered (by simp [client, ClientPc.Unsent]) with ⟨exit', server⟩ | enabled
      · exact absurd ⟨by rw [client, going.clientEnd _ client],
          by rw [server, going.serverEnd _ server]⟩ more
      · exact enabled

/-- Nothing is typed, and both sides wait. -/
structure Waiting (s : Talk) : Prop where
  client : ∀ exit, s.client ≠ .ended exit
  server : s.server = .reading
  up : s.up = []
  down : s.down = []

theorem Waiting.step {l} (waiting : Waiting s) (orderly : Orderly stdin s)
    (silent : typed stdin = []) (taken : TalkStep stdin s l s') (sound : l ≠ .fail) :
    Waiting s' ∧ s.client ≠ .reading := by
  cases taken with
  | ask at_ => exact ⟨⟨by simp, waiting.server, waiting.up, waiting.down⟩, by simp [at_]⟩
  | send at_ sends =>
      obtain ⟨rfl, _⟩ := orderly.writing _ at_
      rw [silent] at sends
      exact ⟨⟨by simp, waiting.server, by simp [waiting.up, List.prefix_nil.mp sends.1],
        waiting.down⟩, by simp [at_]⟩
  | serve at_ reads =>
      obtain ⟨exit, finished⟩ :=
        (reads.2.2 (List.append_eq_nil_iff.mp (reads.1.symm.trans waiting.up)).1).2
      exact absurd finished (waiting.client exit)
  | respond at_ sends => simp [waiting.server] at at_
  | receive at_ reads =>
      obtain ⟨exit, finished⟩ :=
        (reads.2.2 (List.append_eq_nil_iff.mp (reads.1.symm.trans waiting.down)).1).2
      simp [waiting.server] at finished
  | clientFails => exact absurd rfl sound
  | serverFails => exact absurd rfl sound

theorem soundSession_invariant {I : Talk → Prop} {run : Run (soundSession stdin)}
    (start : (session stdin).init (run.state 0)) (base : I (run.state 0))
    (keeps : ∀ s l s', Orderly stdin s → I s → TalkStep stdin s l s' → l ≠ .fail → I s') (n : Nat) :
    Orderly stdin (run.state n) ∧ I (run.state n) := by
  induction n with
  | zero =>
      refine ⟨?_, base⟩
      rw [show run.state 0 = _ from start]
      exact .init
  | succ n ih =>
      cases took : run.taken n with
      | none =>
          rw [run.rests n took]
          exact ih
      | some l =>
          obtain ⟨taken, sound⟩ := run.moves n l took
          exact ⟨ih.1.step taken, keeps _ _ _ ih.1 ih.2 taken sound⟩

/-- Without failing calls both sides finish exactly when the first line has
    something before its first NUL, which is when something other than a NUL is
    typed first of all: a message of no bytes is never sent, and the client and the
    server wait for each other. -/
theorem session_ends_iff {run : Run (soundSession stdin)}
    (start : (session stdin).init (run.state 0)) (fair : run.Fair fun _ => True) :
    ((∃ n, (run.state n).client = .ended .success ∧ (run.state n).server = .ended .success) ↔
      typed stdin ≠ []) ∧
    (typed stdin = [] → ∃ n, ∀ m, n ≤ m →
      (run.state m).client = .reading ∧ (run.state m).server = .reading) ∧
    (typed stdin = [] ↔ ∀ b ∈ stdin.head?, b = 0) := by
  have begins : run.state 0 = ⟨.asking, .reading, [], [], [], []⟩ := start
  have ends : typed stdin ≠ [] →
      ∃ n, (run.state n).client = .ended .success ∧ (run.state n).server = .ended .success := by
    intro some_
    have going := soundSession_invariant (I := Going) start
      (by rw [begins]; exact ⟨by simp, by simp, .inl (.inl rfl)⟩)
      fun s l s' orderly going taken sound => going.step orderly some_ taken sound
    refine Run.Fair.terminates
      (Q := fun s => s.client = .ended .success ∧ s.server = .ended .success)
      (wellFounded_lt : WellFounded fun x y : Nat => x < y) rank fair (fun n => (going n).2) ?_ ?_
      ⟨0, fun _ _ _ _ => trivial⟩
    · exact fun s going more => going.enabled more
    · exact fun s l s' _ _ taken => rank_lt taken.1 taken.2
  have waits : typed stdin = [] → ∀ n, Orderly stdin (run.state n) ∧ Waiting (run.state n) :=
    fun silent => soundSession_invariant start
      (by rw [begins]; exact ⟨by simp, rfl, rfl, rfl⟩)
      fun s l s' orderly waiting taken sound => (waiting.step orderly silent taken sound).1
  refine ⟨⟨fun ⟨n, finished, _⟩ silent => ?_, ends⟩, fun silent => ?_, typed_eq_nil⟩
  · exact (waits silent n).2.client _ finished
  · obtain ⟨n, asked⟩ := Run.Fair.terminates (Q := fun s => s.client = .reading)
      (wellFounded_lt : WellFounded fun x y : Nat => x < y) rank fair (fun n => (waits silent n).2)
      (fun s waiting more => by
        cases client : s.client with
        | asking => exact ⟨_, _, trivial, .ask client, by simp⟩
        | writing message =>
            exact ⟨_, _, trivial, .send client ⟨List.prefix_refl message, fun none_ => none_⟩,
              by simp⟩
        | reading => exact absurd client more
        | ended exit => exact absurd client (waiting.client exit))
      (fun s l s' _ _ taken => rank_lt taken.1 taken.2) ⟨0, fun _ _ _ _ => trivial⟩
    refine ⟨n, fun m later => ⟨?_, (waits silent m).2.server⟩⟩
    induction m, later using Nat.le_induction with
    | base => exact asked
    | succ m later ih =>
        obtain ⟨orderly, waiting⟩ := waits silent m
        cases took : run.taken m with
        | none =>
            rw [run.rests m took]
            exact ih
        | some l =>
            obtain ⟨taken, sound⟩ := run.moves m l took
            exact absurd ih (waiting.step orderly silent taken sound).2

/-- A run of a session in which `hi` is typed. -/
theorem session_ends_iff_hi : ∃ run : Run (soundSession (ascii "hi\n")),
    (session (ascii "hi\n")).init (run.state 0) ∧ (run.Fair fun _ => True) ∧
    ∃ n, (run.state n).client = .ended .success ∧ (run.state n).server = .ended .success := by
  obtain ⟨run, begins, fair, _⟩ := Run.exists_busy (soundSession (ascii "hi\n")) (fun _ => True)
    ⟨.asking, .reading, [], [], [], []⟩
  exact ⟨run, begins, fair, (session_ends_iff begins fair).1.mpr (by decide)⟩

end SysProg.Testing
