import SysProg.Proxy.RequestBounds
import SysProg.Proxy.Handler

/-! # Descriptors and cells of one connection

What one thread has opened and allocated for one connection and not yet given
back.  The functions of the handler are specified against this ledger, for
whatever answers a predicate `allowed` lets through.
-/

namespace SysProg.Proxy

open Fallible CString Scan Interaction

/-- What is held for a connection, with three facts of its history. -/
structure Ledger where
  held : List Int
  cells : List Addr
  /-- Something was closed or freed that was not held. -/
  doubled : Bool
  /-- A `connect` has succeeded. -/
  connected : Bool
  /-- The connection has been handed to the queue. -/
  handed : Bool

variable {A : Type}

namespace Ledger

def empty : Ledger := ⟨[], [], false, false, false⟩

/-- What a call with its answer changes. -/
def after (l : Ledger) : (e : Call A) → e.Answer → Ledger
  | .accept, fd | .socket _, fd => if fd < 0 then l else { l with held := fd :: l.held }
  | .mallocInt, some p => { l with cells := p :: l.cells }
  | .free p, _ =>
      if p ∈ l.cells then { l with cells := l.cells.erase p } else { l with doubled := true }
  | .close fd, _ =>
      if fd ∈ l.held then { l with held := l.held.erase fd } else { l with doubled := true }
  | .connect .., true => { l with connected := true }
  | .enqueue _, _ => { l with handed := true }
  | _, _ => l

/-- What the system promises: new descriptors and cells are not in use, `recv`
    keeps to its buffer, and a resolved name has an address. -/
def Legal (l : Ledger) : (e : Call A) → e.Answer → Prop
  | .accept, fd | .socket _, fd => 0 ≤ fd → fd ∉ l.held
  | .mallocInt, p => ∀ a, p = some a → a ∉ l.cells
  | .recv _ size, r => ∀ bytes, r = some bytes → bytes.length ≤ size
  | .getaddrinfo .., r => r ≠ some []
  | _, _ => True

/-- The calls of a worker; those on descriptors are on descriptors it holds. -/
def Uses (l : Ledger) : Call A → Prop
  | .recv fd _ | .send fd _ _ | .close fd => fd ∈ l.held
  | .accept | .mallocInt | .mallocRequest | .enqueue _ => False
  | _ => True

end Ledger

/-- The ledger along legal answers that `allowed` lets through. -/
def ledger (allowed : (e : Call A) → e.Answer → Prop) : World (calls A) Ledger :=
  fun l e r l' => l.Legal e r ∧ allowed e r ∧ l' = l.after e r

/-- What is left when `connect` fails for the last address. -/
def LastRefused (allowed : (e : Call A) → e.Answer → Prop) : Prop :=
  ∃ fd p, allowed (.connect fd p []) false

/-- How the attempts to connect end: with a connected descriptor that is held, or
    with what was held before; then the result is negative or a descriptor that
    was closed when the last address refused. -/
def Attempt (allowed : (e : Call A) → e.Answer → Prop) (l l' : Ledger) (t : Int) : Prop :=
  (0 ≤ t ∧ t ∉ l.held ∧ l' = { l with held := t :: l.held, connected := true }) ∨
    (l' = l ∧ (0 ≤ t → t ∉ l.held ∧ LastRefused allowed))

section

variable {allowed : (e : Call A) → e.Answer → Prop} {permits : Ledger → Call A → Prop}
  {stops : Ledger → Stop → Prop} {l : Ledger}

theorem connectLoop_safe (sockfd : Int) (result : List A)
    (uses : ∀ l e, Ledger.Uses l e → permits l e)
    (stale : result = [] → 0 ≤ sockfd → sockfd ∉ l.held ∧ LastRefused allowed) :
    Safe (ledger allowed) permits stops (Attempt allowed l) (connectLoop sockfd result) l := by
  induction result generalizing sockfd with
  | nil => exact .ret (.inr ⟨rfl, stale rfl⟩)
  | cons p next ih =>
      rw [connectLoop_cons]
      refine .call (uses _ _ trivial) fun fd l₁ opened => ?_
      obtain ⟨fresh, _, rfl⟩ := opened
      by_cases negative : fd < 0
      · simp only [Ledger.after, if_pos negative]
        exact ih fd fun _ valid => absurd negative (Int.not_lt.mpr valid)
      · have valid := Int.not_lt.mp negative
        simp only [Ledger.after, if_neg negative]
        refine .call (uses _ _ trivial) fun ok l₂ tried => ?_
        obtain ⟨_, able, rfl⟩ := tried
        cases ok with
        | true => exact .ret (.inl ⟨valid, fresh valid, rfl⟩)
        | false =>
            refine .call (uses _ _ (List.mem_cons_self)) fun _ l₃ closed => ?_
            obtain ⟨_, _, rfl⟩ := closed
            have back :
                Ledger.after (A := A) { l with held := fd :: l.held } (.close fd) () = l := by
              simp [Ledger.after]
            change Safe _ _ _ _ _
              (Ledger.after (A := A) { l with held := fd :: l.held } (.close fd) ())
            rw [back]
            refine ih fd fun last _ => ⟨fresh valid, fd, p, ?_⟩
            rw [← last]
            exact able

theorem connectToTargetServer_safe (sockfd : Int) (hostname : Bytes) (port : Int)
    (uses : ∀ l e, Ledger.Uses l e → permits l e) :
    Safe (ledger allowed) permits stops (Attempt allowed l)
      (connectToTargetServer (A := A) sockfd hostname port) l := by
  refine Safe.perform (uses _ _ trivial) fun result l₁ resolved => ?_
  obtain ⟨nonempty, _, rfl⟩ := resolved
  cases result with
  | none => exact .ret (.inr ⟨rfl, fun valid => absurd valid (by decide)⟩)
  | some result =>
      refine Safe.bind ((connectLoop_safe sockfd result uses fun none_ => ?_).consequence ?_)
      · exact absurd (congrArg some none_) nonempty
      intro l' t attempt
      refine Safe.perform (uses _ _ trivial) fun _ l₂ freed => ?_
      obtain ⟨_, _, rfl⟩ := freed
      exact .ret attempt

/-- The send to the target changes nothing that is held. -/
theorem forwardRequest_safe (arrays : ForwardArrays) (t : Int) (buffer : CArray bufferSize)
    (permitted : ∀ bytes, permits l (.send t bytes true))
    (bounds : (∃ sent, modifiedRequest arrays buffer = .ok sent) ∨ stops l .undefined) :
    Safe (ledger allowed) permits stops (fun l' _ => l' = l)
      (forwardRequest (A := A) arrays t buffer) l := by
  cases rewrites : modifiedRequest arrays buffer with
  | error fault =>
      rcases bounds with ⟨sent, rewrites'⟩ | stop
      · rw [rewrites] at rewrites'
        cases rewrites'
      · exact Safe.checked_error rewrites stop
  | ok sent =>
      apply Safe.checked rewrites
      cases sent with
      | none => exact .ret rfl
      | some bytes =>
          refine Safe.perform (permitted bytes) fun taken l₁ sent => ?_
          obtain ⟨_, _, rfl⟩ := sent
          exact .ret rfl

/-- Nor does the response, which stops the process when one of its calls fails. -/
theorem forwardResponse_safe (buffer : CArray bufferSize) (t c : Int)
    (receives : permits l (.recv t (bufferSize - 1)))
    (sends : ∀ bytes, permits l (.send c bytes false))
    (exits : allowed (.recv t (bufferSize - 1)) none ∨
      (∃ bytes, allowed (.send c bytes false) none) → stops l .exitFailure) :
    Safe (ledger allowed) permits stops (fun l' _ => l' = l)
      (forwardResponse (A := A) buffer t c) l := by
  refine Safe.perform receives fun received l₁ answered => ?_
  obtain ⟨size, able, rfl⟩ := answered
  cases received with
  | none => exact .halt (exits (.inl able))
  | some received =>
      have fits : received.length < bufferSize :=
        Nat.lt_of_le_of_lt (size received rfl) (by decide)
      obtain ⟨filled, fills, _⟩ := fillBuffer_ok buffer fits
      apply Safe.checked fills
      refine Safe.perform (sends _) fun taken l₂ sent => ?_
      obtain ⟨_, able', rfl⟩ := sent
      cases taken with
      | none => exact .halt (exits (.inr ⟨_, able'⟩))
      | some n => exact .ret rfl

/-- What a group of results assumes of `allowed`, `permits` and `stops` for the
    client's descriptor `c`: using what is held is permitted, and so is everything
    if the last address may refuse; a request that does not fit and a failure of a
    call that ends in `exit` may stop the process. -/
structure Terms (allowed : (e : Call A) → e.Answer → Prop) (permits : Ledger → Call A → Prop)
    (stops : Ledger → Stop → Prop) (c : Int) : Prop where
  uses : ∀ l e, Ledger.Uses l e → permits l e
  refused : LastRefused allowed → ∀ l e, permits l e
  bounds : ∀ size bytes, allowed (.recv c size) (some bytes) →
    TokensFit (untilZero bytes) ∨ ∀ l, stops l .undefined
  exits : (∃ fd size, fd ≠ c ∧ allowed (.recv fd size) none) ∨
      (∃ bytes, allowed (.send c bytes false) none) → ∀ l, stops l .exitFailure

variable {c : Int}

/-- The exchange with the target and the two closes. -/
theorem exchange_safe (terms : Terms allowed permits stops c) (frame : Frame) {t : Int}
    {filled : CArray bufferSize} (other : t ≠ c)
    (permitted : (t ∈ l.held ∧ c ∈ l.held) ∨ ∀ l e, permits l e)
    (bounds : (∃ sent, modifiedRequest frame.forward filled = .ok sent) ∨ ∀ l, stops l .undefined) :
    Safe (ledger allowed) permits stops
      (fun l' _ => l' = Ledger.after (A := A) (Ledger.after (A := A) l (.close t) ()) (.close c) ())
      (forwardRequest (A := A) frame.forward t filled >>= fun _ =>
        forwardResponse frame.response t c >>= fun _ => close t >>= fun _ => close c) l := by
  have allowedOn {e : Call A} (used : (t ∈ l.held ∧ c ∈ l.held) → l.Uses e) : permits l e := by
    rcases permitted with held | all
    · exact terms.uses l e (used held)
    · exact all l e
  refine Safe.bind (Safe.consequence (forwardRequest_safe frame.forward t filled
    (fun _ => allowedOn And.left) (bounds.imp_right fun all => all l)) ?_)
  rintro l₁ _ rfl
  refine Safe.bind (Safe.consequence (forwardResponse_safe frame.response t c
    (allowedOn And.left) (fun _ => allowedOn And.right) fun failed => ?_) ?_)
  · refine terms.exits (failed.imp_left fun able => ⟨t, _, other, able⟩) _
  rintro l₂ _ rfl
  refine Safe.perform (allowedOn And.left) fun _ l₃ closed => ?_
  obtain ⟨_, _, rfl⟩ := closed
  refine Safe.call ?_ fun _ l₄ closed => ?_
  · rcases permitted with ⟨heldT, heldC⟩ | all
    · apply terms.uses _ _
      simp only [Ledger.after, if_pos heldT, Ledger.Uses]
      exact (List.mem_erase_of_ne other.symm).mpr heldC
    · exact all _ _
  · obtain ⟨_, _, rfl⟩ := closed
    exact .ret rfl

/-- How a request ends: with both descriptors closed, or without a connection,
    and then with the client's descriptor still held or one closed twice. -/
def Finished (l l' : Ledger) : Prop :=
  l' = { l with held := [], connected := true } ∨
    (l'.connected = false ∧ (l' = l ∨ l'.doubled = true))

/-- The request is in the buffer, and its words fit unless writing past an array
    may stop the process. -/
theorem receiveClientRequest_safe (terms : Terms allowed permits stops c)
    (buffer : CArray bufferSize) (own : c ∈ l.held) :
    Safe (ledger allowed) permits stops
      (fun l' filled => l' = l ∧ ∀ b, filled = some b → TokensFit b.str ∨ ∀ l, stops l .undefined)
      (receiveClientRequest (A := A) c buffer) l := by
  refine Safe.perform (terms.uses _ _ own) fun received l₁ answered => ?_
  obtain ⟨size, able, rfl⟩ := answered
  cases received with
  | none => exact .ret ⟨rfl, fun b none_ => by cases none_⟩
  | some received =>
      cases received with
      | nil => exact .ret ⟨rfl, fun b none_ => by cases none_⟩
      | cons first rest =>
          have fits : (first :: rest).length < bufferSize :=
            Nat.lt_of_le_of_lt (size _ rfl) (by decide)
          obtain ⟨filled, fills, str, _⟩ := fillBuffer_ok buffer fits
          refine Safe.checked fills (.ret ⟨rfl, fun b is => ?_⟩)
          obtain rfl : filled = b := Option.some.inj is
          rw [str]
          exact terms.bounds _ _ able

theorem handleClientRequest_safe (terms : Terms allowed permits stops c) (frame : Frame)
    (own : l.held = [c]) (fresh : l.connected = false) :
    Safe (ledger allowed) permits stops (fun l' _ => Finished l l')
      (handleClientRequest (A := A) frame c) l := by
  refine Safe.bind ((receiveClientRequest_safe terms frame.buffer (by simp [own])).consequence ?_)
  rintro l₁ filled ⟨rfl, bounded⟩
  cases filled with
  | none => exact .ret (.inr ⟨fresh, .inl rfl⟩)
  | some filled =>
      have bounds : (∃ parsed, parseHttpRequest frame.parse filled frame.hostname = .ok parsed) ∧
          (∃ sent, modifiedRequest frame.forward filled = .ok sent) ∨ ∀ l, stops l .undefined :=
        (bounded filled rfl).imp_left fun fits => bounds_of_tokensFit fits _ _ _
      cases parses : parseHttpRequest frame.parse filled frame.hostname with
      | error fault =>
          rcases bounds with ⟨⟨parsed, parses'⟩, _⟩ | stop
          · rw [parses] at parses'
            cases parses'
          · exact Safe.checked_error parses (stop _)
      | ok parsed =>
          apply Safe.checked parses
          cases accepted : parsed.accepted with
          | false => exact .ret (.inr ⟨fresh, .inl rfl⟩)
          | true =>
              refine Safe.bind ((connectToTargetServer_safe _ _ _ terms.uses).consequence ?_)
              rintro l₂ t (⟨valid, new, rfl⟩ | ⟨rfl, stale⟩)
              · rw [if_neg (Int.not_lt.mpr valid)]
                have other : t ≠ c := by
                  rintro rfl
                  exact new (by simp [own])
                refine (exchange_safe terms frame other (.inl ?_)
                  (bounds.imp_left And.right)).consequence ?_
                · simp [own]
                rintro l' _ rfl
                left
                simp [Ledger.after, own]
              · by_cases negative : t < 0
                · rw [if_pos negative]
                  exact .ret (.inr ⟨fresh, .inl rfl⟩)
                · rw [if_neg negative]
                  obtain ⟨closed, refused⟩ := stale (Int.not_lt.mp negative)
                  have other : t ≠ c := by
                    rintro rfl
                    exact closed (by simp [own])
                  refine (exchange_safe terms frame other (.inr (terms.refused refused))
                    (bounds.imp_left And.right)).consequence ?_
                  rintro l' _ rfl
                  right
                  simp [Ledger.after, own, other, fresh]

/-! ## Main's part -/

/-- The calls of one pass of the accept loop: what is handed over is held, and
    nothing is called after that. -/
def Ledger.MainUses (l : Ledger) (e : Call A) : Prop :=
  l.handed = false ∧ match e with
    | .accept => l.held = []
    | .mallocInt => l.cells = []
    | .mallocRequest => True
    | .free p => p ∈ l.cells
    | .enqueue arg => l.held = [arg.value] ∧ l.cells = [arg.addr]
    | _ => False

/-- How a pass ends: with a descriptor and a cell handed over, or with an
    accepted descriptor that nobody is told about. -/
def Passed (l : Ledger) : Option Cell → Prop
  | some arg => l = ⟨[arg.value], [arg.addr], false, false, true⟩
  | none => ∃ c, l = ⟨[c], [], false, false, false⟩

theorem acceptPass_safe (fails : ∀ fd < 0, allowed .accept fd → ∀ l, stops l .exitFailure) :
    Safe (ledger allowed) Ledger.MainUses stops Passed acceptPass .empty := by
  refine Safe.perform ⟨rfl, rfl⟩ fun c l₁ accepted => ?_
  obtain ⟨_, able, rfl⟩ := accepted
  by_cases negative : c < 0
  · rw [if_pos negative]
    exact .halt (fails c negative able _)
  · simp only [Ledger.after, if_neg negative]
    refine Safe.perform ⟨rfl, rfl⟩ fun cell l₂ allocated => ?_
    obtain ⟨_, _, rfl⟩ := allocated
    cases cell with
    | none => exact .ret ⟨c, rfl⟩
    | some p =>
        refine Safe.perform ⟨rfl, trivial⟩ fun request l₃ allocated => ?_
        obtain ⟨_, _, rfl⟩ := allocated
        cases request with
        | true =>
            refine Safe.perform ⟨rfl, rfl, rfl⟩ fun _ l₄ handed => ?_
            obtain ⟨_, _, rfl⟩ := handed
            exact .ret rfl
        | false =>
            refine Safe.perform ⟨rfl, List.mem_cons_self⟩ fun _ l₄ freed => ?_
            obtain ⟨_, _, rfl⟩ := freed
            refine .ret ⟨c, ?_⟩
            simp [Ledger.after, Ledger.empty]

end

end SysProg.Proxy
