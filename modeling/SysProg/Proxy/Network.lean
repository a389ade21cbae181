import SysProg.Lib.Wire
import SysProg.Proxy.Rewriting

/-! # The network around one connection

One connection's view of the network: the bytes still to come from the client
and from the target, how much each `send` to the client takes, and what has
gone each way.  Every descriptor but the client's is a connection to the
target.  Each function of the handler gets one specification in this world.
-/

namespace SysProg.Proxy

open Fallible CString Scan Arrival Interaction

/-- The network around one connection. -/
structure Net where
  client : Int
  /-- Still to come from the client. -/
  request : Wire
  /-- Still to come from the target. -/
  response : Wire
  /-- How many bytes each coming `send` to the client takes at most; once the
      list is used up, all. -/
  takes : List Nat
  /-- What the sends to the client have taken. -/
  toClient : Bytes
  /-- What has been handed to the sends to the target, taken by them or not. -/
  handedOver : Bytes
  /-- A `connect` has succeeded. -/
  connected : Bool
  /-- A call of the network has failed. -/
  failed : Bool

namespace Net

def fail (s : Net) : Net := { s with failed := true }

/-- How many of `n` bytes the next `send` to the client takes. -/
def taken (s : Net) (n : Nat) : Nat := min n (s.takes.headD n)

end Net

variable {A : Type}

/-- Which answers the network gives.  `recv` and `send` follow the wires unless
    they fail; `socket` never returns the client's descriptor, which is open;
    `getaddrinfo` succeeds with at least one address. -/
def net (s : Net) : (e : Call A) → e.Answer → Net → Prop
  | .recv fd size, r, s' =>
      (r = none ∧ s' = s.fail) ∨
      if fd = s.client then
        r = some (arrive size s.request).1 ∧ s' = { s with request := (arrive size s.request).2 }
      else
        r = some (arrive size s.response).1 ∧ s' = { s with response := (arrive size s.response).2 }
  | .send fd bytes _, r, s' =>
      if fd = s.client then
        (r = none ∧ s' = s.fail) ∨
        (r = some (s.taken bytes.length) ∧
          s' = { s with
            takes := s.takes.tail
            toClient := s.toClient ++ bytes.take (s.taken bytes.length) })
      else
        (r = none ∧ s' = { s with failed := true, handedOver := s.handedOver ++ bytes }) ∨
        (∃ n ≤ bytes.length, r = some n) ∧ s' = { s with handedOver := s.handedOver ++ bytes }
  | .socket _, r, s' => (r < 0 ∧ s' = s.fail) ∨ (0 ≤ r ∧ r ≠ s.client ∧ s' = s)
  | .connect .., r, s' =>
      (r = false ∧ s' = s.fail) ∨ (r = true ∧ s' = { s with connected := true })
  | .getaddrinfo .., r, s' =>
      (r = none ∧ s' = s.fail) ∨ ((∃ p next, r = some (p :: next)) ∧ s' = s)
  | _, _, s' => s' = s

/-- Safety in the network, with every call permitted. -/
abbrev Ensures {α : Type} (stops : Net → Stop → Prop) (post : Net → α → Prop)
    (p : ProxyProg A α) (s : Net) : Prop :=
  Safe net (fun _ _ => True) stops post p s

/-- What the first `recv` of the proxy gives. -/
def firstOf (w : Wire) : Bytes := (arrive (bufferSize - 1) w).1

def afterFirst (w : Wire) : Wire := (arrive (bufferSize - 1) w).2

/-- It leaves room for a terminating zero. -/
theorem firstOf_fits (w : Wire) : (firstOf w).length < bufferSize :=
  Nat.lt_of_le_of_lt (arrive_length _ _) (by decide)

/-- The effect of the attempts to connect that end with `t`: they show only in
    the flags, `t` is not the client's descriptor, and without a failure one of
    them has connected. -/
structure Attempted (s s' : Net) (t : Int) : Prop where
  same : ∃ c f, s' = { s with connected := c, failed := s.failed || f }
  other : 0 ≤ t → t ≠ s.client
  unconnected : t < 0 → s'.connected = s.connected
  fine : s'.failed = false → 0 ≤ t ∧ s'.connected = true

/-- What is attempted after a failure. -/
theorem Attempted.after_fail {s s' : Net} {t : Int} (attempted : Attempted s.fail s' t) :
    Attempted s s' t := by
  obtain ⟨c, f, rfl⟩ := attempted.same
  exact ⟨⟨c, true, by simp [Net.fail]⟩, attempted.other, attempted.unconnected, attempted.fine⟩

section

variable {s : Net} {stops : Net → Stop → Prop}

theorem connectLoop_ensures (sockfd : Int) (result : List A)
    (used : result = [] → (0 ≤ sockfd → sockfd ≠ s.client) ∧ s.failed = true) :
    Ensures stops (Attempted s) (connectLoop sockfd result) s := by
  induction result generalizing s sockfd with
  | nil =>
      obtain ⟨other, failed⟩ := used rfl
      exact .ret
        ⟨⟨s.connected, false, by simp⟩, other, fun _ => rfl, fun fine => by simp [failed] at fine⟩
  | cons p next ih =>
      -- the rest of the loop starts after a failure
      have later : ∀ fd : Int, (0 ≤ fd → fd ≠ s.client) →
          Ensures stops (Attempted s) (connectLoop fd next) s.fail := by
        intro fd other
        exact (ih (s := s.fail) fd fun _ => ⟨other, rfl⟩).consequence fun _ _ => .after_fail
      rw [connectLoop_cons]
      refine .call trivial fun fd s₁ opened => ?_
      rcases opened with ⟨negative, rfl⟩ | ⟨valid, distinct, rfl⟩
      · simp only [if_pos negative]
        exact later fd fun valid => absurd negative (Int.not_lt.mpr valid)
      · simp only [if_neg (Int.not_lt.mpr valid)]
        refine .call trivial fun ok s₂ tried => ?_
        rcases tried with ⟨rfl, rfl⟩ | ⟨rfl, rfl⟩
        · refine .call trivial fun _ s₃ closed => ?_
          obtain rfl : s₃ = s₁.fail := closed
          exact later fd fun _ => distinct
        · exact .ret ⟨⟨true, false, by simp⟩, fun _ => distinct,
            fun negative => absurd negative (Int.not_lt.mpr valid), fun _ => ⟨valid, rfl⟩⟩

theorem connectToTargetServer_ensures (sockfd : Int) (hostname : Bytes) (port : Int) :
    Ensures stops (Attempted s) (connectToTargetServer (A := A) sockfd hostname port) s := by
  refine Safe.perform trivial fun result s₁ resolved => ?_
  rcases resolved with ⟨rfl, rfl⟩ | ⟨⟨p, next, rfl⟩, rfl⟩
  · exact .ret ⟨⟨s.connected, true, by simp [Net.fail]⟩, fun valid => absurd valid (by decide),
      fun _ => rfl, fun fine => by cases fine⟩
  · refine Safe.bind (Safe.consequence
      (connectLoop_ensures sockfd (p :: next) fun none_ => by cases none_) ?_)
    intro s' t attempted
    refine Safe.perform trivial fun _ s₂ freed => ?_
    obtain rfl : s₂ = s' := freed
    exact .ret attempted

/-- What `receive_client_request` returns: nothing after a failure or the end
    of the stream, and otherwise the buffer with what one `recv` gives. -/
def Received (s : Net) (buffer : CArray bufferSize) (s' : Net) :
    Option (CArray bufferSize) → Prop
  | none => s'.connected = s.connected ∧ s'.handedOver = s.handedOver ∧
      (s'.failed = false → firstOf s.request = [])
  | some filled => firstOf s.request ≠ [] ∧ fillBuffer buffer (firstOf s.request) = .ok filled ∧
      s' = { s with request := afterFirst s.request }

theorem receiveClientRequest_ensures (buffer : CArray bufferSize) :
    Ensures stops (Received s buffer) (receiveClientRequest (A := A) s.client buffer) s := by
  refine Safe.perform trivial fun received s₁ answered => ?_
  rcases answered with ⟨rfl, rfl⟩ | answered
  · exact .ret ⟨rfl, rfl, fun fine => by cases fine⟩
  · rw [if_pos rfl] at answered
    obtain ⟨rfl, rfl⟩ := answered
    have size := firstOf_fits s.request
    rw [show (arrive (bufferSize - 1) s.request).1 = firstOf s.request from rfl]
    cases first : firstOf s.request with
    | nil => exact .ret ⟨rfl, rfl, fun _ => first⟩
    | cons b received =>
        rw [first] at size
        obtain ⟨filled, fills, _⟩ := fillBuffer_ok buffer size
        refine Safe.checked fills (.ret ⟨?_, ?_, rfl⟩)
        · rw [first]
          simp
        · rw [first]
          exact fills

theorem forwardRequest_ensures {arrays : ForwardArrays} {t : Int} {buffer : CArray bufferSize}
    {sent : Option Bytes} (other : t ≠ s.client)
    (rewritten : modifiedRequest arrays buffer = .ok sent) :
    Ensures stops (fun s' _ =>
        ∃ f, s' = { s with handedOver := s.handedOver ++ sent.getD [], failed := s.failed || f })
      (forwardRequest (A := A) arrays t buffer) s := by
  apply Safe.checked rewritten
  cases sent with
  | none => exact .ret ⟨false, by simp⟩
  | some bytes =>
      refine Safe.perform trivial fun taken s₁ answered => ?_
      simp only [net, if_neg other] at answered
      rcases answered with ⟨rfl, rfl⟩ | ⟨_, rfl⟩
      · exact .ret ⟨true, by simp⟩
      · exact .ret ⟨false, by simp⟩

/-- One `recv` and one `send`; the process stops when either fails. -/
theorem forwardResponse_ensures (buffer : CArray bufferSize) {t c : Int} (own : s.client = c)
    (other : t ≠ c) (fails : ∀ s, s.failed = true → stops s .exitFailure) :
    Ensures stops (fun s' _ => s' = { s with
        response := afterFirst s.response
        takes := s.takes.tail
        toClient := s.toClient ++
          (firstOf s.response).take (s.taken (firstOf s.response).length) })
      (forwardResponse (A := A) buffer t c) s := by
  subst own
  refine Safe.perform trivial fun received s₁ answered => ?_
  simp only [net, if_neg other] at answered
  rcases answered with ⟨rfl, rfl⟩ | ⟨rfl, rfl⟩
  · exact .halt (fails _ rfl)
  · obtain ⟨filled, fills, _, start⟩ := fillBuffer_ok buffer (firstOf_fits s.response)
    apply Safe.checked fills
    change Safe net _ _ _
      (send s.client (filled.cells.take (firstOf s.response).length) false >>= _) _
    rw [start]
    refine Safe.perform trivial fun taken s₂ sent => ?_
    simp only [net, if_true] at sent
    rcases sent with ⟨rfl, rfl⟩ | ⟨rfl, rfl⟩
    · exact .halt (fails _ rfl)
    · exact .ret rfl

/-- The exchange with a target that was reached, and the two closes. -/
theorem exchange_ensures (frame : Frame) {t : Int} {filled : CArray bufferSize}
    {sent : Option Bytes} {c : Int} (own : s.client = c) (other : t ≠ c)
    (rewritten : modifiedRequest frame.forward filled = .ok sent)
    (fails : ∀ s, s.failed = true → stops s .exitFailure) :
    Ensures stops (fun s' _ => ∃ f, s' = { s with
        response := afterFirst s.response
        takes := s.takes.tail
        toClient := s.toClient ++
          (firstOf s.response).take (s.taken (firstOf s.response).length)
        handedOver := s.handedOver ++ sent.getD []
        failed := s.failed || f })
      (forwardRequest (A := A) frame.forward t filled >>= fun _ =>
        forwardResponse frame.response t c >>= fun _ => close t >>= fun _ => close c)
      s := by
  subst own
  refine Safe.bind ((forwardRequest_ensures other rewritten).consequence ?_)
  rintro s₁ _ ⟨f, rfl⟩
  refine Safe.bind (Safe.consequence (forwardResponse_ensures frame.response ?_ other fails) ?_)
  · rfl
  rintro s₂ _ rfl
  refine Safe.perform trivial fun _ s₃ closed => ?_
  obtain rfl := closed
  refine Safe.call trivial fun _ s₄ closed => ?_
  obtain rfl := closed
  exact .ret ⟨f, rfl⟩

/-- What one request leaves behind: if a target was reached, the client has what
    one `recv` gave, as far as one `send` took it; if nothing failed, the target
    was handed the rewritten request. -/
structure Handled (frame : Frame) (s s' : Net) : Prop where
  delivered : s'.connected = true → s'.toClient = s.toClient ++
    (firstOf s.response).take (s.taken (firstOf s.response).length)
  sent : s'.failed = false → ∃ bytes, sentToTarget frame (firstOf s.request) = .ok bytes ∧
    s'.handedOver = s.handedOver ++ bytes ∧ (bytes ≠ [] → s'.connected = true)

theorem handleClientRequest_ensures (frame : Frame) (fresh : s.connected = false) :
    Ensures (fun s' _ => s'.failed = true ∨
        ∃ fault, sentToTarget frame (firstOf s.request) = .error fault)
      (fun s' _ => Handled frame s s') (handleClientRequest (A := A) frame s.client) s := by
  refine Safe.bind ((receiveClientRequest_ensures frame.buffer).consequence ?_)
  intro s₁ filled received
  cases filled with
  | none =>
      obtain ⟨connected, handedOver, ended⟩ := received
      refine .ret ⟨fun reached => ?_, fun fine => ⟨[], ?_, ?_⟩⟩
      · rw [connected, fresh] at reached
        cases reached
      · simp [sentToTarget, ended fine]
      · simp [handedOver]
  | some filled =>
      obtain ⟨some_, fills, rfl⟩ := received
      cases parses : parseHttpRequest frame.parse filled frame.hostname with
      | error fault =>
          exact Safe.checked_error parses
            (.inr ⟨fault, by simp [sentToTarget, some_, fills, parses]⟩)
      | ok parsed =>
          apply Safe.checked parses
          cases accepted : parsed.accepted with
          | false =>
              refine .ret ⟨fun reached => ?_, fun _ => ⟨[], ?_, by simp⟩⟩
              · rw [fresh] at reached
                cases reached
              · simp [sentToTarget, some_, fills, parses, accepted]
          | true =>
              refine Safe.bind ((connectToTargetServer_ensures _ _ _).consequence ?_)
              rintro s₂ t ⟨⟨c, f, rfl⟩, other, unconnected, fine⟩
              by_cases negative : t < 0
              · rw [if_pos negative]
                refine .ret ⟨fun reached => ?_, fun done => ?_⟩
                · rw [unconnected negative, fresh] at reached
                  cases reached
                · exact absurd (fine done).1 (Int.not_le.mpr negative)
              · rw [if_neg negative]
                have distinct := other (Int.not_lt.mp negative)
                cases rewrites : modifiedRequest frame.forward filled with
                | error fault =>
                    refine Safe.bind (Safe.checked_error rewrites (.inr ⟨fault, ?_⟩))
                    simp [sentToTarget, some_, fills, parses, accepted, rewrites]
                | ok sent =>
                    refine Safe.consequence
                      (exchange_ensures frame rfl distinct rewrites fun _ => Or.inl) ?_
                    rintro s₃ _ ⟨g, rfl⟩
                    refine ⟨fun _ => rfl, fun done => ⟨sent.getD [], ?_, rfl, fun _ => ?_⟩⟩
                    · simp [sentToTarget, some_, fills, parses, accepted, rewrites]
                    · exact (fine (Bool.or_eq_false_iff.mp done).1).2

/-- Nothing need fail: there is a run in which every call succeeds. -/
theorem exists_run {α : Type} (a : A) (fine : s.failed = false) (p : ProxyProg A α) :
    ∃ out s', Runs net p s out s' ∧ s'.failed = false := by
  refine Runs.exists (fun s : Net => s.failed = false) (fun s e fine => ?_) fine p
  cases e with
  | recv fd size =>
      by_cases own : fd = s.client
      · refine ⟨some (arrive size s.request).1, { s with request := (arrive size s.request).2 },
          .inr ?_, fine⟩
        rw [if_pos own]
        exact ⟨rfl, rfl⟩
      · refine ⟨some (arrive size s.response).1, { s with response := (arrive size s.response).2 },
          .inr ?_, fine⟩
        rw [if_neg own]
        exact ⟨rfl, rfl⟩
  | send fd bytes nosignal =>
      by_cases own : fd = s.client
      · refine ⟨some (s.taken bytes.length), { s with
          takes := s.takes.tail
          toClient := s.toClient ++ bytes.take (s.taken bytes.length) }, ?_, fine⟩
        simp [net, own]
      · refine ⟨some 0, { s with handedOver := s.handedOver ++ bytes }, ?_, fine⟩
        simp [net, own]
  | socket p =>
      by_cases zero : s.client = 0
      · refine ⟨(1 : Int), s, .inr ⟨Int.one_nonneg, ?_, rfl⟩, fine⟩
        rw [zero]
        exact Int.one_ne_zero
      · exact ⟨(0 : Int), s, .inr ⟨Int.le_refl 0, Ne.symm zero, rfl⟩, fine⟩
  | connect fd p next => exact ⟨true, { s with connected := true }, .inr ⟨rfl, rfl⟩, fine⟩
  | getaddrinfo hostname port => exact ⟨some [a], s, .inr ⟨⟨a, [], rfl⟩, rfl⟩, fine⟩
  | accept => exact ⟨0, s, rfl, fine⟩
  | mallocInt => exact ⟨none, s, rfl, fine⟩
  | mallocRequest => exact ⟨false, s, rfl, fine⟩
  | free p => exact ⟨(), s, rfl, fine⟩
  | enqueue arg => exact ⟨(), s, rfl, fine⟩
  | close fd => exact ⟨(), s, rfl, fine⟩
  | freeaddrinfo result => exact ⟨(), s, rfl, fine⟩

end

end SysProg.Proxy
