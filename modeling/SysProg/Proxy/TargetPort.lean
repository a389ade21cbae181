import SysProg.Proxy.Url

/-! # The port that is connected to

The port goes from the text of the URL through `%d`, an `int` and an array of six
bytes to `getaddrinfo`.  Nothing on that way checks its range.
-/

namespace SysProg.Proxy

open Fallible CString Scan Decimal Interaction

section

variable {A : Type}

/-- The service string that a program asks `getaddrinfo` for first. -/
def requestedService : ProxyProg A Int → Option Bytes
  | .call (.getaddrinfo _ port) _ => some port
  | _ => none

theorem connectToTargetServer_service (sockfd : Int) (hostname : Bytes) (port : Int) :
    requestedService (connectToTargetServer (A := A) sockfd hostname port) = some (portStr port) :=
  rfl

/-! ## The port that a URL names -/

/-- A slash, a question mark or a hash ends the authority of a URL. -/
def namedAuthority (url : Bytes) : Bytes :=
  (url.drop 7).takeWhile fun b => b ≠ 47 && b ≠ 63 && b ≠ 35

/-- What is behind the last `@`; before it a user is named. -/
def behindUser (auth : Bytes) : Bytes := (auth.reverse.takeWhile (· ≠ 64)).reverse

/-- What is behind the host.  An address in brackets is one host, colons and all. -/
def behindHost (hostport : Bytes) : Bytes :=
  if hostport.head? = some 91 ∧ 93 ∈ hostport then (hostport.dropWhile (· ≠ 93)).drop 1
  else hostport.dropWhile (· ≠ 58)

/-- The number written behind the host and a colon. -/
def writtenPort (url : Bytes) : Option Int :=
  (scanLit 58 (behindHost (behindUser (namedAuthority url)))).bind numeral

example : writtenPort (ascii "http://u:7@[::1]:8080/x") = some 8080 := by decide

/-- An authority without users, brackets or queries is read as the first pattern
    reads it. -/
theorem writtenPort_plain {url : Bytes}
    (plain : ∀ b ∈ authority url, b ≠ 63 ∧ b ≠ 35 ∧ b ≠ 64 ∧ b ≠ 91) :
    writtenPort url = firstNumber url := by
  have whole : namedAuthority url = authority url := by
    have inside : ∀ b ∈ authority url, (b ≠ 47 && b ≠ 63 && b ≠ 35) = true := by
      intro b member
      have slash := authority_lacks member
      obtain ⟨query, hash, _⟩ := plain b member
      simp [slash, query, hash]
    obtain ⟨tail, split, slash⟩ := authority_split url
    rw [namedAuthority, split, List.takeWhile_append_of_pos inside]
    cases tail with
    | nil => simp
    | cons b tail => simp [slash b rfl]
  have noUser : behindUser (authority url) = authority url := by
    have inside : ∀ b ∈ (authority url).reverse, decide (b ≠ 64) = true := by
      intro b member
      simpa using (plain b (List.mem_reverse.mp member)).2.2.1
    rw [behindUser, List.takeWhile_eq_self_iff.mpr inside, List.reverse_reverse]
  have noBracket : (authority url).head? ≠ some 91 := by
    intro first
    exact (plain 91 (List.mem_of_mem_head? first)).2.2.2 rfl
  rw [writtenPort, whole, noUser, behindHost, if_neg fun bracket => noBracket bracket.1]
  rfl

/-- An accepted URL leads to the port it names, or 80; a port out of range is
    not accepted. -/
structure PortServed (A : Type) (sockfd : Int) (url : Bytes) (parsed : Parsed) : Prop where
  served : parsed.accepted = true → ∃ n : Nat,
    requestedService (connectToTargetServer (A := A) sockfd parsed.hostname.str parsed.port) =
      some (decimal n) ∧ 1 ≤ n ∧ n ≤ 65535 ∧ (n : Int) = (writtenPort url).getD 80
  refused : ∀ n, writtenPort url = some n → ¬ (1 ≤ n ∧ n ≤ 65535) → parsed.accepted = false

/-! ## The port that is asked for -/

/-- The number behind the first colon as an `int`, or 80. -/
def scannedPort (url : Bytes) : Int :=
  if HostFits url then ((firstNumber url).map storedInt).getD 80 else 80

/-- A number of which `w` is the first five digits, or all there are. -/
def Shows (port w : Int) : Prop := 0 ≤ port ∧ (firstDigits 5 port.toNat : Int) = w

/-- The port that is named, 80 if there is none, is in range and survives the way. -/
def PortKept (url : Bytes) : Prop :=
  1 ≤ (writtenPort url).getD 80 ∧ (writtenPort url).getD 80 ≤ 65535 ∧
    Shows (scannedPort url) ((writtenPort url).getD 80)

instance (port w : Int) : Decidable (Shows port w) := by
  unfold Shows
  infer_instance

instance (url : Bytes) : Decidable (PortKept url) := by
  unfold PortKept
  infer_instance

/-- The six bytes hold the first five digits. -/
theorem portStr_eq (n : Nat) : portStr n = decimal (firstDigits 5 n) := by
  have printed : ascii (toString (n : Int)) = decimal n := rfl
  rw [portStr, printed, decimal_take (by decide)]

/-- Five characters are enough for a port in range. -/
theorem portStr_of_port {n : Nat} (range : n ≤ 65535) : portStr n = decimal n := by
  have short : (decimal n).length ≤ 5 := decimal_length_le (by decide) (by omega)
  rw [portStr_eq, ← decimal_take (by decide), List.take_of_length_le short]

theorem portStr_negative (m n : Nat) : portStr (Int.negSucc m) ≠ decimal n := by
  obtain ⟨s, printed⟩ : ∃ s, portStr (Int.negSucc m) = 45 :: s := by
    refine ⟨(ascii (toString (m + 1))).take 4, ?_⟩
    have minus : toString (Int.negSucc m) = "-" ++ toString (m + 1) := rfl
    have dash : '-'.toUInt8 = 45 := by decide
    simp [portStr, minus, ascii, dash]
  rw [printed]
  exact (decimal_head_ne_minus n s).symm

/-- What is asked for is `n` exactly when the port shows `n`. -/
theorem portStr_eq_iff (port : Int) (n : Nat) : portStr port = decimal n ↔ Shows port n := by
  cases port with
  | ofNat m =>
      rw [Int.ofNat_eq_natCast, portStr_eq]
      constructor
      · intro same
        exact ⟨Int.natCast_nonneg m, congrArg Nat.cast (decimal_injective same)⟩
      · rintro ⟨_, same⟩
        exact congrArg decimal (Int.ofNat.inj same)
  | negSucc m =>
      constructor
      · intro same
        exact absurd same (portStr_negative m n)
      · rintro ⟨nonneg, _⟩
        exact absurd nonneg (by simp)

/-- The port that goes with an accepted URL. -/
theorem parsedUrl_port {url : Bytes} (named : Named url) :
    ∃ host, parsedUrl url = some (host, scannedPort url) := by
  rw [parsedUrl, if_pos named, hostPort, scannedPort]
  by_cases fits : HostFits url
  · rw [if_pos fits, if_pos fits]
    cases firstNumber url with
    | none => exact ⟨_, rfl⟩
    | some n => exact ⟨_, rfl⟩
  · rw [if_neg fits, if_neg fits]
    exact ⟨_, rfl⟩

section

variable {parsed : Parsed} {url : Bytes} {sockfd : Int}

/-- A URL that is not accepted asks for nothing. -/
theorem portServed_of_unnamed (outcome : parsed.outcome = parsedUrl url) (unnamed : ¬ Named url) :
    PortServed A sockfd url parsed := by
  have rejected : parsed.accepted ≠ true :=
    fun accepts => unnamed ((Parsed.accepted_iff outcome).mp accepts)
  constructor
  · intro accepts
    exact absurd accepts rejected
  · intro _ _ _
    exact Bool.eq_false_of_not_eq_true rejected

/-- An accepted URL is served exactly when its port is kept. -/
theorem portServed_iff (outcome : parsed.outcome = parsedUrl url) (named : Named url) :
    PortServed A sockfd url parsed ↔ PortKept url := by
  obtain ⟨host, port⟩ := parsedUrl_port named
  obtain ⟨accepts, _, port⟩ := Parsed.outcome_eq_some (outcome.trans port)
  constructor
  · intro served
    obtain ⟨n, service, low, high, same⟩ := served.served accepts
    rw [connectToTargetServer_service, port] at service
    refine ⟨by omega, by omega, ?_⟩
    rw [← same]
    exact (portStr_eq_iff _ n).mp (Option.some.inj service)
  · rintro ⟨low, high, shows⟩
    obtain ⟨n, same⟩ := Int.eq_ofNat_of_zero_le (by omega : 0 ≤ (writtenPort url).getD 80)
    rw [same] at low high shows
    constructor
    · intro _
      refine ⟨n, ?_, by omega, by omega, same.symm⟩
      rw [connectToTargetServer_service, port]
      exact congrArg some ((portStr_eq_iff _ n).mpr shows)
    · intro m written out
      rw [written, Option.getD_some] at same
      omega

end

/-- For every buffer whose words fit, and whatever the scan leaves in `url`, the
    port that is asked for is the one that is written, exactly when the URL is not
    accepted at all or the written port, or 80, is in range and is what the number
    behind the first colon shows in five characters. -/
theorem requested_port_is_written_iff {line line' : LineArrays} {buffer : CArray bufferSize}
    (scanned : scanRequestLine line buffer.str = .ok line') (hostname : CArray 256) (sockfd : Int) :
    (∃ parsed, parseHttpRequest line buffer hostname = .ok parsed ∧
        PortServed A sockfd line'.url.str parsed) ↔
      ¬ Named line'.url.str ∨ PortKept line'.url.str := by
  obtain ⟨parsed, parses, outcome⟩ := parseHttpRequest_outcome hostname scanned
  constructor
  · rintro ⟨parsed', parses', served⟩
    obtain rfl : parsed = parsed' := Except.ok.inj (parses.symm.trans parses')
    by_cases named : Named line'.url.str
    · exact .inr ((portServed_iff outcome named).mp served)
    · exact .inl named
  · intro condition
    refine ⟨parsed, parses, ?_⟩
    by_cases named : Named line'.url.str
    · exact (portServed_iff outcome named).mpr (condition.resolve_left (not_not_intro named))
    · exact portServed_of_unnamed outcome named

end

theorem requested_port_is_written_iff_get :
    ∃ (line' : LineArrays) (buffer : CArray bufferSize) (parsed : Parsed),
      buffer.str = ascii "GET http://a:8080/b HTTP/1.1\r\n\r\n" ∧
      scanRequestLine Frame.blank.parse buffer.str = .ok line' ∧
      parseHttpRequest Frame.blank.parse buffer (.blank 256) = .ok parsed ∧
      PortServed Unit 0 line'.url.str parsed := by
  obtain ⟨buffer, str⟩ := CArray.exists_str (n := bufferSize)
    (s := ascii "GET http://a:8080/b HTTP/1.1\r\n\r\n") (by decide) (by decide)
  have fits : TokensFit buffer.str := by
    rw [str]
    decide
  have found : words 3 buffer.str = [ascii "GET", ascii "http://a:8080/b", ascii "HTTP/1.1"] := by
    rw [str]
    decide
  obtain ⟨line', _, scans, url, _⟩ :=
    parseHttpRequest_words found fits Frame.blank.parse (.blank 256)
  obtain ⟨parsed, parses, served⟩ :=
    (requested_port_is_written_iff (A := Unit) scans (.blank 256) 0).mpr (.inr (by
      rw [url]
      have written : writtenPort (ascii "http://a:8080/b") = some 8080 := by decide
      have scanned : scannedPort (ascii "http://a:8080/b") = (8080 : Nat) := by decide
      rw [PortKept, written, scanned, Option.getD_some]
      exact ⟨by decide, by decide, (portStr_eq_iff _ 8080).mp (by decide)⟩))
  exact ⟨line', buffer, parsed, str, scans, parses, served⟩

/-- Of a port of six digits the first five are asked for. -/
theorem long_port_is_cut :
    ∃ (buffer : CArray bufferSize) (parsed : Parsed),
      buffer.str = ascii "GET http://a:123456/ HTTP/1.1\r\n\r\n" ∧
      parseHttpRequest Frame.blank.parse buffer (.blank 256) = .ok parsed ∧
      parsed.accepted = true ∧ writtenPort (ascii "http://a:123456/") = some 123456 ∧
      requestedService (connectToTargetServer (A := Unit) 0 parsed.hostname.str parsed.port) =
        some (ascii "12345") ∧
      ¬ PortServed Unit 0 (ascii "http://a:123456/") parsed := by
  obtain ⟨buffer, str⟩ := CArray.exists_str (n := bufferSize)
    (s := ascii "GET http://a:123456/ HTTP/1.1\r\n\r\n") (by decide) (by decide)
  have fits : TokensFit buffer.str := by
    rw [str]
    decide
  have found : words 3 buffer.str = [ascii "GET", ascii "http://a:123456/", ascii "HTTP/1.1"] := by
    rw [str]
    decide
  obtain ⟨_, parsed, _, _, parses, outcome⟩ :=
    parseHttpRequest_words found fits Frame.blank.parse (.blank 256)
  have given : parsedUrl (ascii "http://a:123456/") = some (ascii "a", 123456) := by decide
  obtain ⟨accepted, _, port⟩ := Parsed.outcome_eq_some (outcome.trans given)
  have written : writtenPort (ascii "http://a:123456/") = some 123456 := by decide
  refine ⟨buffer, parsed, str, parses, accepted, written, ?_, fun served => ?_⟩
  · rw [connectToTargetServer_service, port]
    decide
  · have refused := served.refused 123456 written (by decide)
    rw [accepted] at refused
    cases refused

end SysProg.Proxy
