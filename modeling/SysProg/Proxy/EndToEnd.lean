import Mathlib.Data.Fintype.EquivFin
import SysProg.Proxy.Network
import SysProg.Proxy.TargetPort
import SysProg.Target.Requests

/-! # A request through the proxy to a server

The network with servers in it: names lead to addresses, some of which accept
connections, and a server answers the bytes it has been sent.  Only refused
connections fail.  A request that arrives whole makes the exchange that a direct
request would make: with the first address of its host that accepts, in the
form for that server, and with the answer as far as one `recv` takes it.
-/

namespace SysProg.Proxy

open Fallible CString Scan Decimal Arrival Interaction

/-- What is out there for the proxy. -/
structure Servers (A : Type) where
  /-- `getaddrinfo`, which finds no address or a list of them. -/
  resolve : Bytes → Bytes → List A
  accepts : A → Bool
  /-- What a server sends back, in the pieces in which it arrives. -/
  answer : A → Bytes → Wire

/-- One connection of a client in this network. -/
structure Visit (A : Type) where
  client : Int
  /-- Still to come from the client. -/
  request : Wire
  /-- The open descriptors. -/
  held : List Int
  /-- The connected descriptor, and the address it is connected to. -/
  peer : Option (Int × A)
  toTarget : Bytes
  /-- Still to come from the target. -/
  response : Wire
  toClient : Bytes

variable {A : Type}

/-- The address a descriptor is connected to. -/
def Visit.server (s : Visit A) (fd : Int) : Option A :=
  s.peer.bind fun (t, a) => if t = fd then some a else none

/-- How the network answers. -/
def visiting (servers : Servers A) (s : Visit A) : (e : Call A) → e.Answer → Visit A → Prop
  | .recv fd size, r, s' =>
      if fd = s.client then
        r = some (arrive size s.request).1 ∧ s' = { s with request := (arrive size s.request).2 }
      else
        r = some (arrive size s.response).1 ∧ s' = { s with response := (arrive size s.response).2 }
  | .send fd bytes _, r, s' =>
      if fd = s.client then
        r = some bytes.length ∧ s' = { s with toClient := s.toClient ++ bytes }
      else match s.server fd with
        | some a =>
            r = some bytes.length ∧ s' = { s with
              toTarget := s.toTarget ++ bytes
              response := servers.answer a (s.toTarget ++ bytes) }
        | none => r = none ∧ s' = s
  | .getaddrinfo host service, r, s' =>
      r = (if servers.resolve host service = [] then none
          else some (servers.resolve host service)) ∧
        s' = s
  | .socket _, r, s' => 0 ≤ r ∧ r ∉ s.held ∧ s' = { s with held := r :: s.held }
  | .connect fd p _, r, s' =>
      r = servers.accepts p ∧ s' = { s with peer := if r then some (fd, p) else s.peer }
  | .close fd, _, s' => s' = { s with held := s.held.erase fd }
  | _, _, s' => s' = s

/-- Safety in this network, where nothing stops the process. -/
abbrev Brings {α : Type} (servers : Servers A) (post : Visit A → α → Prop) (p : ProxyProg A α)
    (s : Visit A) : Prop :=
  Safe (visiting servers) (fun _ _ => True) (fun _ _ => False) post p s

section

variable {servers : Servers A} {s : Visit A}

/-- The loop leaves with the first address that accepts, and with no other
    descriptor open. -/
theorem connectLoop_brings {a : A} (sockfd : Int) {result : List A}
    (first : result.find? servers.accepts = some a) :
    Brings servers (fun s' t => 0 ≤ t ∧ t ∉ s.held ∧
        s' = { s with held := t :: s.held, peer := some (t, a) })
      (connectLoop sockfd result) s := by
  induction result generalizing sockfd with
  | nil => cases first
  | cons p next ih =>
      rw [connectLoop_cons]
      refine .call trivial fun fd s₁ opened => ?_
      obtain ⟨valid, fresh, rfl⟩ := opened
      simp only [if_neg (Int.not_lt.mpr valid)]
      refine .call trivial fun ok s₂ tried => ?_
      obtain ⟨rfl, rfl⟩ := tried
      cases accepts : servers.accepts p with
      | true =>
          obtain rfl : p = a := by simpa [accepts] using first
          exact .ret ⟨valid, fresh, rfl⟩
      | false =>
          refine .call trivial fun _ s₃ closed => ?_
          have back : s₃ = s := by simpa [visiting] using closed
          rw [back]
          exact ih fd (by simpa [accepts] using first)

theorem connectToTargetServer_brings {a : A} (sockfd : Int) (hostname : Bytes) (port : Int)
    (first : (servers.resolve hostname (portStr port)).find? servers.accepts = some a) :
    Brings servers (fun s' t => 0 ≤ t ∧ t ∉ s.held ∧
        s' = { s with held := t :: s.held, peer := some (t, a) })
      (connectToTargetServer sockfd hostname port) s := by
  have found : servers.resolve hostname (portStr port) ≠ [] := by
    intro none_
    rw [none_] at first
    cases first
  refine Safe.perform trivial fun result s₁ resolved => ?_
  obtain ⟨is, rfl⟩ := resolved
  rw [if_neg found] at is
  subst is
  refine Safe.bind ((connectLoop_brings sockfd first).consequence fun s₂ t reached => ?_)
  refine Safe.perform trivial fun _ s₃ freed => ?_
  obtain rfl : s₃ = s₂ := freed
  exact .ret reached

/-- The answer goes to the client as far as one `recv` takes it. -/
theorem forwardResponse_brings (buffer : CArray bufferSize) {t c : Int} (own : s.client = c)
    (other : t ≠ c) :
    Brings servers (fun s' _ => s' = { s with
        response := afterFirst s.response
        toClient := s.toClient ++ firstOf s.response })
      (forwardResponse buffer t c) s := by
  subst own
  refine Safe.perform trivial fun received s₁ answered => ?_
  simp only [visiting, if_neg other] at answered
  obtain ⟨rfl, rfl⟩ := answered
  obtain ⟨filled, fills, _, start⟩ := fillBuffer_ok buffer (firstOf_fits s.response)
  apply Safe.checked fills
  change Safe (visiting servers) _ _ _
    (send s.client (filled.cells.take (firstOf s.response).length) false >>= _) _
  rw [start]
  refine Safe.perform trivial fun taken s₂ sent => ?_
  simp only [visiting, if_true] at sent
  obtain ⟨rfl, rfl⟩ := sent
  exact .ret rfl

/-- What an exchange with the server at `a` leaves behind. -/
structure Exchanged (servers : Servers A) (a : A) (sent : Bytes) (s' : Visit A) : Prop where
  peer : ∃ t, s'.peer = some (t, a)
  toTarget : s'.toTarget = sent
  toClient : s'.toClient = firstOf (servers.answer a sent)
  released : s'.held = []

/-- A client whose connection has just been accepted, with its request before it. -/
structure Opening (s : Visit A) (bytes : Bytes) : Prop where
  arrives : firstOf s.request = bytes
  held : s.held = [s.client]
  toTarget : s.toTarget = []
  toClient : s.toClient = []

theorem receiveClientRequest_brings {buffer filled : CArray bufferSize} {received : Bytes}
    (opening : Opening s received) (nonempty : received ≠ [])
    (fills : fillBuffer buffer received = .ok filled) :
    Brings servers (fun s' b => b = some filled ∧ s' = { s with request := afterFirst s.request })
      (receiveClientRequest s.client buffer) s := by
  refine Safe.perform trivial fun answer s₁ answered => ?_
  simp only [visiting, if_true] at answered
  obtain ⟨rfl, rfl⟩ := answered
  rw [show (arrive (bufferSize - 1) s.request).1 = firstOf s.request from rfl, opening.arrives]
  obtain ⟨b, rest, rfl⟩ := List.exists_cons_of_ne_nil nonempty
  exact Safe.checked fills (.ret ⟨rfl, rfl⟩)

/-- A request that parses and is rewritten, whose host can be reached. -/
theorem handleClientRequest_brings {frame : Frame} {received sent : Bytes}
    {filled : CArray bufferSize} {parsed : Parsed} {a : A} (opening : Opening s received)
    (nonempty : received ≠ []) (fills : fillBuffer frame.buffer received = .ok filled)
    (parses : parseHttpRequest frame.parse filled frame.hostname = .ok parsed)
    (accepted : parsed.accepted = true)
    (rewrites : modifiedRequest frame.forward filled = .ok (some sent))
    (first : (servers.resolve parsed.hostname.str (portStr parsed.port)).find? servers.accepts =
      some a) :
    Brings servers (fun s' _ => Exchanged servers a sent s') (handleClientRequest frame s.client)
      s := by
  refine Safe.bind ((receiveClientRequest_brings opening nonempty fills).consequence ?_)
  rintro s₁ _ ⟨rfl, rfl⟩
  obtain ⟨_, held, toTarget, toClient⟩ := opening
  apply Safe.checked parses
  rw [accepted]
  refine Safe.bind (Safe.consequence (connectToTargetServer_brings _ _ _ first) ?_)
  rintro s₂ t ⟨valid, fresh, rfl⟩
  rw [if_neg (Int.not_lt.mpr valid)]
  have other : t ≠ s.client := by
    rintro rfl
    exact fresh (by simp [held])
  refine Safe.bind (Safe.checked rewrites (Safe.perform trivial fun taken s₃ sends => ?_))
  have server : (Visit.server ⟨s.client, afterFirst s.request, t :: s.held, some (t, a), s.toTarget,
      s.response, s.toClient⟩ t) = some a := by simp [Visit.server]
  simp only [visiting, if_neg other, server] at sends
  obtain ⟨rfl, rfl⟩ := sends
  refine .ret (Safe.bind ?_)
  refine Safe.consequence (forwardResponse_brings frame.response ?_ other) ?_
  · rfl
  rintro s₄ _ rfl
  refine Safe.perform trivial fun _ s₅ closed => ?_
  obtain rfl := closed
  refine Safe.call trivial fun _ s₆ closed => ?_
  obtain rfl := closed
  refine .ret ⟨⟨t, rfl⟩, ?_, ?_, ?_⟩
  · simp [toTarget]
  · simp [toTarget, toClient]
  · simp [held]

/-- A request that names a host, of which some address accepts. -/
theorem request_brings {frame : Frame} {q : HttpRequest} {auth : Authority} {a : A}
    (opening : Opening s q.bytes) (named : q.authority = auth.bytes) (noZero : ∀ b ∈ q.rest, b ≠ 0)
    (first : (servers.resolve auth.host (decimal (auth.port.getD 80))).find? servers.accepts =
      some a) :
    Brings servers (fun s' _ => Exchanged servers a q.rewritten s')
      (handleClientRequest frame s.client) s := by
  have size : q.bytes.length < bufferSize := by
    rw [← opening.arrives]
    exact firstOf_fits _
  have sends := q.sentToTarget_of_arrived frame (List.prefix_refl _) size ⟨noZero, .inl rfl⟩
  obtain ⟨filled, parsed, nonempty, fills, parses, accepted, rewrites⟩ :=
    sentToTarget_cases sends (by simp [HttpRequest.rewritten, HttpRequest.rewrittenLine, ascii])
  -- the name and the port that are looked up
  have found : words 3 filled.str = [q.method, q.url, q.protocol] := by
    obtain ⟨filled', fills', str, _⟩ := fillBuffer_ok frame.buffer size
    obtain rfl : filled = filled' := Except.ok.inj (fills.symm.trans fills')
    rw [str, HttpRequest.bytes, untilZero_append q.line_nonzero]
    exact q.words_of_line (List.takeWhile_prefix _)
  obtain ⟨_, parsed', _, _, parses', outcome⟩ :=
    parseHttpRequest_words found (q.tokensFit found) frame.parse frame.hostname
  obtain rfl : parsed = parsed' := Except.ok.inj (parses.symm.trans parses')
  rw [auth.parsedUrl_eq q.url_http (q.authority_url.trans named)] at outcome
  obtain ⟨_, host, port⟩ := Parsed.outcome_eq_some outcome
  have range : auth.port.getD 80 ≤ 65535 := by
    cases written : auth.port with
    | none => decide
    | some n => exact (auth.portInRange n written).2
  refine handleClientRequest_brings opening nonempty fills parses accepted rewrites ?_
  rw [host, port, portStr_of_port range]
  exact first

/-- The network always answers. -/
theorem exists_visit {α : Type} (servers : Servers A) (p : ProxyProg A α) (s : Visit A) :
    ∃ out s', Runs (visiting servers) p s out s' := by
  suffices answers : ∀ (s : Visit A) (e : Call A), ∃ r s', visiting servers s e r s' by
    have answers' : ∀ s e, True → ∃ r s', visiting servers s e r s' ∧ True := by simpa using answers
    obtain ⟨out, s', run, _⟩ := Runs.exists (fun _ => True) answers' trivial p
    exact ⟨out, s', run⟩
  intro s e
  cases e with
  | recv fd size =>
      by_cases own : fd = s.client
      · exact ⟨_, _, by rw [visiting, if_pos own]; exact ⟨rfl, rfl⟩⟩
      · exact ⟨_, _, by rw [visiting, if_neg own]; exact ⟨rfl, rfl⟩⟩
  | send fd bytes nosignal =>
      by_cases own : fd = s.client
      · exact ⟨_, _, by rw [visiting, if_pos own]; exact ⟨rfl, rfl⟩⟩
      · cases server : s.server fd with
        | some a => exact ⟨_, _, by simp only [visiting, if_neg own, server]; exact ⟨rfl, rfl⟩⟩
        | none => exact ⟨_, _, by simp only [visiting, if_neg own, server]; exact ⟨rfl, rfl⟩⟩
  | getaddrinfo host service => exact ⟨_, _, rfl, rfl⟩
  | socket p =>
      obtain ⟨fd, fresh⟩ := Infinite.exists_notMem_finset (s.held.map Int.toNat).toFinset
      refine ⟨(fd : Int), _, Int.natCast_nonneg fd, fun held => fresh ?_, rfl⟩
      exact List.mem_toFinset.mpr (List.mem_map.mpr ⟨fd, held, rfl⟩)
  | connect fd p next => exact ⟨_, _, rfl, rfl⟩
  | close fd => exact ⟨(), _, rfl⟩
  | free p => exact ⟨(), _, rfl⟩
  | enqueue arg => exact ⟨(), _, rfl⟩
  | freeaddrinfo result => exact ⟨(), _, rfl⟩
  | accept => exact ⟨(0 : Int), _, rfl⟩
  | mallocInt => exact ⟨(none : Option Addr), _, rfl⟩
  | mallocRequest => exact ⟨true, _, rfl⟩

/-- A request of a client that arrives whole makes the server at the first address
    of its host that accepts get the request in the form for a server, and the
    client that server's answer as far as one `recv` takes it; then both
    descriptors are closed. -/
theorem proxied_exchange {frame : Frame} {q : HttpRequest} {auth : Authority} {a : A}
    {out : Outcome Stop Unit} {s' : Visit A} (opening : Opening s q.bytes)
    (named : q.authority = auth.bytes) (noZero : ∀ b ∈ q.rest, b ≠ 0)
    (first : (servers.resolve auth.host (decimal (auth.port.getD 80))).find? servers.accepts =
      some a)
    (run : Runs (visiting servers) (handleClientRequest frame s.client) s out s') :
    out = .returned () ∧ Exchanged servers a q.rewritten s' := by
  have ends := (request_brings opening named noZero first).sound run
  cases out with
  | returned u => exact ⟨rfl, ends⟩
  | halted h => exact ends.elim

/-- `a`, without a port. -/
def authorityOfA : Authority where
  host := ascii "a"
  port := none
  hostToken := (getRequest []).authorityToken
  hostLacks := by decide
  hostFits := by decide
  portInRange := by decide

/-- A client that has sent one request. -/
def visitWith (bytes : Bytes) (some_ : bytes ≠ []) : Visit A where
  client := 4
  request := [⟨bytes, some_⟩]
  held := [4]
  peer := none
  toTarget := []
  response := []
  toClient := []

theorem opening_get : Opening (A := A) (visitWith (getRequest []).bytes (by decide))
    (getRequest []).bytes := by
  have arrives : firstOf [⟨(getRequest []).bytes, by decide⟩] = (getRequest []).bytes := by decide
  exact ⟨arrives, rfl, rfl, rfl⟩

/-- The second address of the host accepts, and echoes what it gets. -/
def echo : Servers Bool where
  resolve _ _ := [false, true]
  accepts := id
  answer _ bytes := if some_ : bytes = [] then [] else [⟨bytes, some_⟩]

theorem proxied_exchange_echo :
    ∃ (out : Outcome Stop Unit) (s' : Visit Bool),
      Runs (visiting echo) (handleClientRequest .blank 4)
        (visitWith (getRequest []).bytes (by decide)) out s' ∧
      out = .returned () ∧ Exchanged echo true (getRequest []).rewritten s' := by
  obtain ⟨out, s', run⟩ := exists_visit echo (handleClientRequest .blank 4)
    (visitWith (getRequest []).bytes (by decide))
  have named : (getRequest []).authority = authorityOfA.bytes := rfl
  exact ⟨out, s', run, proxied_exchange (a := true) opening_get named (by decide) rfl run⟩

end

/-! ## The target server behind the proxy -/

section target

open Target

variable {δ : Type}

end target

end SysProg.Proxy
