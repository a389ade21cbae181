import SysProg.Proxy.Url

/-! # What the stack contributes to a request

`parse_http_request` and `forward_request` scan the request line into arrays
they never initialise and do not look at the count.  A request with three words
decides everything; with fewer, what the arrays held before is read.
-/

namespace SysProg.Proxy

open Fallible CString Scan Interaction

/-- What `handle_client_request` gets out of a received request: the host and
    port to connect to, and the bytes for that target. -/
def decided (frame : Frame) (buffer : CArray bufferSize) :
    Except OutOfBounds (Option ((Bytes × Int) × Option Bytes)) := do
  let parsed ← parseHttpRequest frame.parse buffer frame.hostname
  match parsed.outcome with
  | none => return none
  | some target => return some (target, ← modifiedRequest frame.forward buffer)

/-- The frame with other contents of `hostname` and of both `method`, `url` and
    `protocol`. -/
def Frame.withPrior (frame : Frame) (parse forward : LineArrays) (hostname : CArray 256) : Frame :=
  { frame with
    parse := parse
    hostname := hostname
    forward := { frame.forward with line := forward } }

section

variable {A : Type}

/-- What is done with a decision. -/
def carryOut (frame : Frame) (clientSocket : Int) :
    Option ((Bytes × Int) × Option Bytes) → ProxyProg A Unit
  | none => return ()
  | some ((hostname, port), modified) => do
      let targetSocket ← connectToTargetServer frame.sockfd hostname port
      if targetSocket < 0 then
        return ()
      else
        match modified with
        | none => pure ()
        | some bytes => do
            let _ ← send targetSocket bytes true
            pure ()
        forwardResponse frame.response targetSocket clientSocket
        close targetSocket
        close clientSocket

/-- Once a request is received the decision is all that `handle_client_request`
    takes from it. -/
theorem handleClientRequest_decided {frame : Frame} {received : Bytes} {filled : CArray bufferSize}
    {decision : Option ((Bytes × Int) × Option Bytes)} (clientSocket : Int) (some_ : received ≠ [])
    (fills : fillBuffer frame.buffer received = .ok filled)
    (decides : decided frame filled = .ok decision) :
    ∃ rest, handleClientRequest (A := A) frame clientSocket =
        .call (.recv clientSocket (bufferSize - 1)) rest ∧
      rest (some received) = carryOut frame clientSocket decision := by
  refine ⟨_, rfl, ?_⟩
  obtain ⟨first, others, rfl⟩ := List.exists_cons_of_ne_nil some_
  obtain ⟨parsed, parses, decides⟩ := bind_eq_ok.mp decides
  cases accepted : parsed.accepted with
  | false =>
      have refused : parsed.outcome = none := by simp [Parsed.outcome, accepted]
      rw [refused] at decides
      cases decides
      simp [fills, parses, accepted, carryOut, inBounds, Prog.checked]
  | true =>
      have target : parsed.outcome = some (parsed.hostname.str, parsed.port) := by
        simp [Parsed.outcome, accepted]
      rw [target] at decides
      obtain ⟨modified, rewrites, decides⟩ := bind_eq_ok.mp decides
      cases decides
      cases modified with
      | none =>
          simp [fills, parses, accepted, rewrites, carryOut, forwardRequest, inBounds, Prog.checked]
      | some bytes =>
          simp [fills, parses, accepted, rewrites, carryOut, forwardRequest, inBounds, Prog.checked]

end

/-! ## Three words -/

/-- The line that `forward_request` prints, from the words. -/
def lineOf (method url protocol : Bytes) : Bytes :=
  method ++ ascii " " ++ pathOf (url.drop 7) ++ ascii " " ++ (protocol ++ ascii "\r\n")

/-- A printed line with as much of the buffer's other lines as there is room for. -/
def withHeaders (buffer : CArray bufferSize) (line : Bytes) : Bytes :=
  line ++ (strstr buffer.str (ascii "\r\n")).elim [] fun headers =>
    (headers.drop 2).take (bufferSize - line.length - 1)

theorem pathOf_length_le (rest : Bytes) : (pathOf rest).length ≤ rest.length + 1 := by
  unfold pathOf
  cases found : strchr rest 47 with
  | none =>
      change 1 ≤ rest.length + 1
      omega
  | some start => exact Nat.le_succ_of_le (strchr_suffix found).length_le

/-- The URL decides whether and where to connect, the three arrays of
    `forward_request` what is sent. -/
theorem decided_of_scans (frame : Frame) {buffer : CArray bufferSize} {line₁ line₂ : LineArrays}
    (scans₁ : scanRequestLine frame.parse buffer.str = .ok line₁)
    (scans₂ : scanRequestLine frame.forward.line buffer.str = .ok line₂)
    (same : line₂.url.str = line₁.url.str) (methodFits : line₂.method.str.length < 10)
    (urlFits : line₂.url.str.length < 1024) (protocolFits : line₂.protocol.str.length < 10) :
    decided frame buffer = .ok ((parsedUrl line₁.url.str).map fun target =>
      (target, some (withHeaders buffer
        (lineOf line₂.method.str line₂.url.str line₂.protocol.str)))) := by
  obtain ⟨parsed, parses, outcome⟩ := parseHttpRequest_outcome frame.hostname scans₁
  cases named : parsedUrl line₁.url.str with
  | none => simp [decided, parses, outcome, named]
  | some target =>
      have http : startsWith line₂.url.str (ascii "http://") = true := by
        have accepted : Named line₁.url.str := by
          by_contra unnamed
          rw [(parsedUrl_eq_none_iff _).mpr unnamed] at named
          cases named
        rw [same]
        exact accepted.1
      have printed : printedLine line₂ =
          lineOf line₂.method.str line₂.url.str line₂.protocol.str := by
        simp [printedLine, lineOf]
      have pathFits := pathOf_length_le (line₂.url.str.drop 7)
      have small : (printedLine line₂).length < bufferSize := by
        rw [List.length_drop] at pathFits
        rw [printed]
        simp only [lineOf, List.length_append, bufferSize]
        rw [show (ascii " ").length = 1 from rfl, show (ascii "\r\n").length = 2 from rfl]
        omega
      have rewrites := modifiedRequest_sent scans₂ http urlFits small
      rw [printed] at rewrites
      simp [decided, parses, outcome, named, rewrites, withHeaders]

/-- With three words the prior contents do not matter. -/
theorem decided_three {buffer : CArray bufferSize} {method url protocol : Bytes} (frame : Frame)
    (fits : TokensFit buffer.str) (found : words 3 buffer.str = [method, url, protocol]) :
    decided frame buffer = .ok ((parsedUrl url).map fun target =>
      (target, some (withHeaders buffer (lineOf method url protocol)))) := by
  have nonzero : ∀ b ∈ buffer.str, b ≠ 0 := fun _ => CArray.str_ne_zero
  obtain ⟨line₁, scans₁, scanned₁⟩ := scanRequestLine_ok frame.parse nonzero fits
  obtain ⟨line₂, scans₂, scanned₂⟩ := scanRequestLine_ok frame.forward.line nonzero fits
  obtain ⟨_, url₁, _⟩ := scanned₁.strs found
  obtain ⟨method₂, url₂, protocol₂⟩ := scanned₂.strs found
  rw [TokensFit, found] at fits
  have decides := decided_of_scans frame scans₁ scans₂ (url₂.trans url₁.symm)
    (by rw [method₂]; exact fits (method, 10) (by simp))
    (by rw [url₂]; exact fits (url, 1024) (by simp))
    (by rw [protocol₂]; exact fits (protocol, 10) (by simp))
  rwa [method₂, url₂, protocol₂, url₁] at decides

/-- A second word that is no acceptable URL is refused without the third. -/
theorem decided_two {buffer : CArray bufferSize} {method url : Bytes} (frame : Frame)
    (fits : TokensFit buffer.str) (found : words 3 buffer.str = [method, url])
    (unnamed : ¬ Named url) : decided frame buffer = .ok none := by
  have nonzero : ∀ b ∈ buffer.str, b ≠ 0 := fun _ => CArray.str_ne_zero
  obtain ⟨line, scans, scanned⟩ := scanRequestLine_ok frame.parse nonzero fits
  obtain ⟨parsed, parses, outcome⟩ := parseHttpRequest_outcome frame.hostname scans
  have url_ : line.url.str = url := by
    have filled := scanned.url
    rw [found] at filled
    exact filled
  rw [url_, (parsedUrl_eq_none_iff url).mpr unnamed] at outcome
  simp [decided, parses, outcome]

/-! ## Fewer words -/

theorem length_words_le (k : Nat) (s : Bytes) : (words k s).length ≤ k := by
  induction k generalizing s with
  | zero => exact Nat.le_refl 0
  | succ k ih =>
      unfold words
      split
      · exact Nat.zero_le _
      · rename_i w rest _
        exact Nat.succ_le_succ (ih rest)

/-- The scanned URL decides whether a connection is made, and where to. -/
theorem decided_target {frame : Frame} {buffer : CArray bufferSize} {line : LineArrays}
    {decision : Option ((Bytes × Int) × Option Bytes)}
    (scans : scanRequestLine frame.parse buffer.str = .ok line)
    (decides : decided frame buffer = .ok decision) :
    decision.map Prod.fst = parsedUrl line.url.str := by
  obtain ⟨parsed, parses, outcome⟩ := parseHttpRequest_outcome frame.hostname scans
  rw [decided, parses, ok_bind, outcome] at decides
  cases target : parsedUrl line.url.str with
  | none =>
      rw [target] at decides
      cases decides
      rfl
  | some found =>
      rw [target] at decides
      obtain ⟨modified, _, decides⟩ := bind_eq_ok.mp decides
      cases decides
      rfl

/-- Without a second word the URL is whatever the stack holds. -/
theorem decided_of_prior_url {frame : Frame} {buffer : CArray bufferSize}
    {decision : Option ((Bytes × Int) × Option Bytes)} (fits : TokensFit buffer.str)
    (short : (words 3 buffer.str).length < 2) (decides : decided frame buffer = .ok decision) :
    decision.map Prod.fst = parsedUrl frame.parse.url.str := by
  obtain ⟨line, scans, scanned⟩ :=
    scanRequestLine_ok frame.parse (fun _ => CArray.str_ne_zero) fits
  have kept := scanned.url
  rw [List.getElem?_eq_none (by omega)] at kept
  have same : line.url = frame.parse.url := kept
  rw [← same]
  exact decided_target scans decides

/-- Without a third word the protocol that is sent is whatever the stack holds. -/
theorem decided_of_prior_protocol (frame : Frame) (parse : LineArrays) {forward : LineArrays}
    (hostname : CArray 256) {buffer : CArray bufferSize} {method url : Bytes}
    (fits : TokensFit buffer.str) (found : words 3 buffer.str = [method, url])
    (small : forward.protocol.str.length < 10) :
    decided (frame.withPrior parse forward hostname) buffer =
      .ok ((parsedUrl url).map fun target =>
        (target, some (withHeaders buffer (lineOf method url forward.protocol.str)))) := by
  have nonzero : ∀ b ∈ buffer.str, b ≠ 0 := fun _ => CArray.str_ne_zero
  obtain ⟨line₁, scans₁, ⟨_, url₁, _⟩⟩ := scanRequestLine_ok parse nonzero fits
  obtain ⟨line₂, scans₂, ⟨method₂, url₂, protocol₂⟩⟩ := scanRequestLine_ok forward nonzero fits
  rw [found] at url₁ method₂ url₂ protocol₂
  simp only [Filled, List.getElem?_cons_zero, List.getElem?_cons_succ, List.getElem?_nil]
    at url₁ method₂ url₂ protocol₂
  rw [TokensFit, found] at fits
  have decides := decided_of_scans (frame.withPrior parse forward hostname) scans₁ scans₂
    (url₂.trans url₁.symm)
    (by rw [method₂]; exact fits (method, 10) (by simp))
    (by rw [url₂]; exact fits (url, 1024) (by simp))
    (by rw [protocol₂]; exact small)
  rwa [method₂, url₂, protocol₂, url₁] at decides

/-- Different protocols make different lines. -/
theorem withHeaders_protocol {buffer : CArray bufferSize} {method url : Bytes} {a b : UInt8}
    (same : withHeaders buffer (lineOf method url [a]) =
      withHeaders buffer (lineOf method url [b])) : a = b := by
  simp only [withHeaders, lineOf, List.append_assoc] at same
  have behind := List.append_cancel_left (List.append_cancel_left
    (List.append_cancel_left (List.append_cancel_left same)))
  exact (List.cons.inj behind).1

section

variable {frame : Frame} {buffer : CArray bufferSize}
  {decision : Option ((Bytes × Int) × Option Bytes)}

/-- Without a second word one stack holds a URL and another does not. -/
theorem priors_matter_few (fits : TokensFit buffer.str) (few : (words 3 buffer.str).length < 2)
    (decides : ∀ parse forward hostname,
      decided (frame.withPrior parse forward hostname) buffer = .ok decision) : False := by
  obtain ⟨held, heldStr⟩ :=
    CArray.exists_str (n := 1024) (s := ascii "http://a") (by decide) (by decide)
  have connects := decided_of_prior_url fits few
    (decides { frame.parse with url := held } frame.forward.line frame.hostname)
  have refuses := decided_of_prior_url fits few
    (decides { frame.parse with url := .blank 1024 } frame.forward.line frame.hostname)
  have target : parsedUrl held.str = some (ascii "a", 80) := by
    rw [heldStr]
    decide
  have none_ : parsedUrl (CArray.blank 1024).str = none := by
    rw [CArray.str_blank]
    decide
  have same : some (ascii "a", (80 : Int)) = none :=
    target.symm.trans (connects.symm.trans (refuses.trans none_))
  cases same

/-- Without a third word two stacks hold different protocols. -/
theorem priors_matter_two {method url : Bytes} (fits : TokensFit buffer.str)
    (found : words 3 buffer.str = [method, url]) (named : Named url)
    (decides : ∀ parse forward hostname,
      decided (frame.withPrior parse forward hostname) buffer = .ok decision) : False := by
  obtain ⟨x, xStr⟩ := CArray.exists_str (n := 10) (s := ascii "X") (by decide) (by decide)
  obtain ⟨y, yStr⟩ := CArray.exists_str (n := 10) (s := ascii "Y") (by decide) (by decide)
  have xSmall : x.str.length < 10 := by
    rw [xStr]
    decide
  have ySmall : y.str.length < 10 := by
    rw [yStr]
    decide
  have first := decides frame.parse { frame.forward.line with protocol := x } frame.hostname
  have second := decides frame.parse { frame.forward.line with protocol := y } frame.hostname
  rw [decided_of_prior_protocol _ _ _ fits found xSmall] at first
  rw [decided_of_prior_protocol _ _ _ fits found ySmall] at second
  obtain ⟨target, accepted⟩ := Option.ne_none_iff_exists'.mp
    (fun none_ => (parsedUrl_eq_none_iff url).mp none_ named)
  have same := Except.ok.inj (first.trans second.symm)
  rw [accepted] at same
  simp only [Option.map_some, Option.some.injEq, Prod.mk.injEq, true_and] at same
  change withHeaders buffer (lineOf method url x.str) =
    withHeaders buffer (lineOf method url y.str) at same
  rw [xStr, yStr] at same
  exact absurd (withHeaders_protocol same) (by decide)

end

/-- One decision is made for all prior contents of `method`, `url`, `protocol` and
    `hostname`. -/
def DecidedAlike (frame : Frame) (buffer : CArray bufferSize)
    (decision : Option ((Bytes × Int) × Option Bytes)) : Prop :=
  ∀ parse forward hostname, decided (frame.withPrior parse forward hostname) buffer = .ok decision

theorem decidedAlike_iff (frame : Frame) (buffer : CArray bufferSize) :
    (∃ decision, DecidedAlike frame buffer decision) ↔
      TokensFit buffer.str ∧ ((words 3 buffer.str).length = 3 ∨
        ∃ method url, words 3 buffer.str = [method, url] ∧ ¬ Named url) := by
  constructor
  · rintro ⟨decision, decides⟩
    have fits : TokensFit buffer.str := by
      obtain ⟨parsed, parses, _⟩ := bind_eq_ok.mp
        (decides frame.parse frame.forward.line frame.hostname)
      obtain ⟨line, scans, _⟩ := bind_eq_ok.mp parses
      exact tokensFit_of_scan scans
    refine ⟨fits, ?_⟩
    have most := length_words_le 3 buffer.str
    have some_ : ¬ (words 3 buffer.str).length < 2 := fun few =>
      priors_matter_few fits few decides
    by_cases three : (words 3 buffer.str).length = 3
    · exact .inl three
    · right
      have two : (words 3 buffer.str).length = 2 := by omega
      obtain ⟨method, url, found⟩ := List.length_eq_two.mp two
      exact ⟨method, url, found, fun named => priors_matter_two fits found named decides⟩
  · rintro ⟨fits, three | ⟨method, url, found, unnamed⟩⟩
    · obtain ⟨method, url, protocol, found⟩ := List.length_eq_three.mp three
      exact ⟨_, fun parse forward hostname => decided_three _ fits found⟩
    · exact ⟨none, fun parse forward hostname => decided_two _ fits found unnamed⟩

/-- Whatever else the frame holds, one decision is made for all prior contents of
    `method`, `url`, `protocol` and `hostname` exactly when the words of the
    request line fit and there are three of them, or two of which the second is
    no URL with a host.  Then `handle_client_request`, once it has received the
    request, is one program for all of them. -/
theorem prior_contents_do_not_matter_iff (A : Type) (frame : Frame) (buffer : CArray bufferSize) :
    ((∃ decision, ∀ parse forward hostname,
        decided (frame.withPrior parse forward hostname) buffer = .ok decision) ↔
      TokensFit buffer.str ∧ ((words 3 buffer.str).length = 3 ∨
        ∃ method url, words 3 buffer.str = [method, url] ∧ ¬ Named url)) ∧
    ∀ decision, DecidedAlike frame buffer decision →
      ∀ (clientSocket : Int) (received : Bytes), received ≠ [] →
        fillBuffer frame.buffer received = .ok buffer → ∀ parse forward hostname, ∃ rest,
          handleClientRequest (A := A) (frame.withPrior parse forward hostname) clientSocket =
            .call (.recv clientSocket (bufferSize - 1)) rest ∧
          rest (some received) = carryOut frame clientSocket decision := by
  refine ⟨decidedAlike_iff frame buffer, ?_⟩
  intro decision alike clientSocket received some_ fills parse forward hostname
  exact handleClientRequest_decided clientSocket some_ fills (alike parse forward hostname)

theorem decided_ok (frame : Frame) {buffer : CArray bufferSize} (fits : TokensFit buffer.str) :
    ∃ decision, decided frame buffer = .ok decision := by
  obtain ⟨⟨parsed, parses⟩, modified, rewrites⟩ :=
    bounds_of_tokensFit fits frame.parse frame.hostname frame.forward
  rw [decided, parses, rewrites, ok_bind]
  cases parsed.outcome with
  | none => exact ⟨_, rfl⟩
  | some target => exact ⟨_, rfl⟩

/-- A blank line makes the proxy go by the URL of an earlier request. -/
theorem blank_request_uses_prior_url :
    ∃ (buffer : CArray bufferSize) (held : CArray 1024) (modified : Option Bytes),
      buffer.str = ascii "\r\n" ∧ held.str = ascii "http://a" ∧
      decided Frame.blank buffer = .ok none ∧
      decided (Frame.blank.withPrior ⟨.blank 10, held, .blank 10⟩ ⟨.blank 10, held, .blank 10⟩
        (.blank 256)) buffer = .ok (some ((ascii "a", 80), modified)) := by
  obtain ⟨buffer, str⟩ :=
    CArray.exists_str (n := bufferSize) (s := ascii "\r\n") (by decide) (by decide)
  obtain ⟨held, heldStr⟩ :=
    CArray.exists_str (n := 1024) (s := ascii "http://a") (by decide) (by decide)
  have fits : TokensFit buffer.str := by
    rw [str]
    decide
  have few : (words 3 buffer.str).length < 2 := by
    rw [str]
    decide
  have target : parsedUrl held.str = some (ascii "a", 80) := by
    rw [heldStr]
    decide
  have none_ : parsedUrl (CArray.blank 1024).str = none := by
    rw [CArray.str_blank]
    decide
  obtain ⟨refused, refuses⟩ := decided_ok Frame.blank fits
  obtain ⟨accepted, accepts⟩ := decided_ok
    (Frame.blank.withPrior ⟨.blank 10, held, .blank 10⟩ ⟨.blank 10, held, .blank 10⟩ (.blank 256))
    fits
  have nothing := (decided_of_prior_url fits few refuses).trans none_
  have something := (decided_of_prior_url fits few accepts).trans target
  obtain ⟨⟨host, modified⟩, rfl, rfl⟩ := Option.map_eq_some_iff.mp something
  rw [Option.map_eq_none_iff.mp nothing] at refuses
  exact ⟨buffer, held, modified, str, heldStr, refuses, accepts⟩

end SysProg.Proxy
