import SysProg.Lib.Decimal
import SysProg.Proxy.Rewriting

/-! # Which URLs the parser takes apart

`parse_http_request` tries two patterns on what follows `http://`.  The first
wants a host, a colon and a number; the second takes everything up to a slash
for the host.  `parsedUrl` says what both together make of a URL, and that
nothing else of the request or of the stack matters.
-/

namespace SysProg.Proxy

open Fallible CString Scan Decimal

/-- The host and the port that `handle_client_request` goes on with, if it does. -/
def Parsed.outcome (parsed : Parsed) : Option (Bytes × Int) :=
  if parsed.accepted then some (parsed.hostname.str, parsed.port) else none

/-! ## The parts of a URL -/

/-- What is between `http://` and the path. -/
def authority (url : Bytes) : Bytes := (url.drop 7).takeWhile (· ≠ 47)

/-- The authority up to its first colon. -/
def hostPart (url : Bytes) : Bytes := (authority url).takeWhile (· ≠ 58)

/-- The authority from its first colon on. -/
def portPart (url : Bytes) : Bytes := (authority url).dropWhile (· ≠ 58)

/-- The number behind the first colon of the authority. -/
def firstNumber (url : Bytes) : Option Int := (scanLit 58 (portPart url)).bind numeral

/-- A URL from which the parser takes a host. -/
def Named (url : Bytes) : Prop := startsWith url (ascii "http://") = true ∧ authority url ≠ []

/-- A host of which the first pattern takes everything. -/
def HostFits (url : Bytes) : Prop := hostPart url ≠ [] ∧ (hostPart url).length ≤ 255

instance (url : Bytes) : Decidable (Named url) := by
  unfold Named
  infer_instance

instance (url : Bytes) : Decidable (HostFits url) := by
  unfold HostFits
  infer_instance

/-- What the first pattern finds. -/
def hostPort (url : Bytes) : Option (Bytes × Int) :=
  if HostFits url then (firstNumber url).map fun n => (hostPart url, storedInt n) else none

/-- What `parse_http_request` makes of a URL. -/
def parsedUrl (url : Bytes) : Option (Bytes × Int) :=
  if Named url then some ((hostPort url).getD ((authority url).take 255, 80)) else none

theorem authority_split (url : Bytes) :
    ∃ tail, url.drop 7 = authority url ++ tail ∧ ∀ b ∈ tail.head?, b = 47 := by
  refine ⟨(url.drop 7).dropWhile (· ≠ 47), List.takeWhile_append_dropWhile.symm, ?_⟩
  intro b first
  have stops := List.head?_dropWhile_not (fun b : UInt8 => decide (b ≠ 47)) (url.drop 7)
  rw [Option.mem_def.mp first] at stops
  simpa using stops

theorem authority_lacks {url : Bytes} {b : UInt8} (member : b ∈ authority url) : b ≠ 47 := by
  simpa using List.mem_takeWhile_imp member

theorem hostPart_lacks {url : Bytes} {b : UInt8} (member : b ∈ hostPart url) : b ≠ 58 ∧ b ≠ 47 := by
  constructor
  · simpa using List.mem_takeWhile_imp member
  · exact authority_lacks ((List.takeWhile_prefix _).subset member)

theorem authority_eq (url : Bytes) : authority url = hostPart url ++ portPart url :=
  List.takeWhile_append_dropWhile.symm

theorem portPart_head {url : Bytes} {b : UInt8} (first : b ∈ (portPart url).head?) : b = 58 := by
  have stops := List.head?_dropWhile_not (fun b : UInt8 => decide (b ≠ 58)) (authority url)
  rw [show ((authority url).dropWhile _).head? = some b from first] at stops
  simpa using stops

/-- The parts of a URL that is written out. -/
theorem authority_written {auth path : Bytes} (lacks : ∀ b ∈ auth, b ≠ 47)
    (starts : ∀ b ∈ path.head?, b = 47) : authority (ascii "http://" ++ (auth ++ path)) = auth := by
  change (auth ++ path).takeWhile (· ≠ 47) = auth
  rw [List.takeWhile_append_of_pos (by simpa using lacks)]
  cases path with
  | nil => simp
  | cons b path => simp [starts b rfl]

/-! ## The two patterns -/

/-- What is behind the host stops the first pattern. -/
theorem hostPart_ends (url : Bytes) {tail : Bytes} (slash : ∀ b ∈ tail.head?, b = 47) :
    ∀ b ∈ (portPart url ++ tail).head?, (b ≠ 58 && b ≠ 47) = false := by
  intro b first
  cases port : portPart url with
  | nil =>
      rw [port, List.nil_append] at first
      simp [slash b first]
  | cons c rest =>
      rw [port] at first
      obtain rfl : c = b := Option.some.inj first
      have colon : c = 58 := portPart_head (by rw [port]; rfl)
      simp [colon]

/-- The number the first pattern reads behind the host is what is stored of the
    number behind the first colon. -/
theorem number_behind_host (url : Bytes) {tail : Bytes} (slash : ∀ b ∈ tail.head?, b = 47) :
    ((scanLit 58 (portPart url ++ tail)).bind scanInt).map Prod.fst =
      (firstNumber url).map storedInt := by
  cases port : portPart url with
  | nil =>
      have no_colon : scanLit 58 tail = none := by
        cases tail with
        | nil => rfl
        | cons b tail => simp [scanLit, slash b rfl]
      rw [List.nil_append, no_colon, firstNumber, port]
      rfl
  | cons c rest =>
      obtain rfl : c = 58 := portPart_head (by rw [port]; rfl)
      have same : numeral (rest ++ tail) = numeral rest := by
        apply numeral_append
        intro b first
        rw [slash b first]
        decide
      have value := scanInt_value (rest ++ tail)
      rw [same] at value
      simpa [firstNumber, port, scanLit] using value

/-- The first pattern counts two exactly where it finds a host and a number. -/
theorem scanHostPort_spec {url : Bytes} (nonzero : ∀ b ∈ url, b ≠ 0) (hostname : CArray 256)
    (port : Int) :
    ∃ count hostname' port', scanHostPort (url.drop 7) hostname port =
        .ok (count, hostname', port') ∧
      match hostPort url with
      | some found => count = 2 ∧ hostname'.str = found.1 ∧ port' = found.2
      | none => count ≠ 2 ∧ port' = port := by
  obtain ⟨tail, split, slash⟩ := authority_split url
  rw [authority_eq, List.append_assoc] at split
  have ends := hostPart_ends url slash
  by_cases empty : hostPart url = []
  · have missed : hostPort url = none := by simp [hostPort, HostFits, empty]
    rw [empty, List.nil_append] at split
    rw [split, scanHostPort, scanSet_eq_none ends, missed]
    exact ⟨0, hostname, port, rfl, by decide, rfl⟩
  have inside : ∀ b ∈ hostPart url, (b ≠ 58 && b ≠ 47) = true := by
    intro b member
    simpa using hostPart_lacks member
  have taken := scanSet_append empty inside ends (by decide : 0 < 255)
  have hostNonzero : ∀ b ∈ (hostPart url).take 255, b ≠ 0 := by
    intro b member
    apply nonzero b
    apply List.mem_of_mem_drop (i := 7)
    rw [split]
    exact List.mem_append_left _ (List.mem_of_mem_take member)
  obtain ⟨stored, stores, str⟩ := hostname.store_ok hostNonzero
    (Nat.lt_succ_of_le (List.length_take_le _ _))
  by_cases fits : (hostPart url).length ≤ 255
  · rw [List.take_of_length_le fits] at taken stores str
    rw [List.drop_of_length_le fits, List.nil_append] at taken
    have number := number_behind_host url slash
    have found : hostPort url = (firstNumber url).map fun n => (hostPart url, storedInt n) :=
      if_pos ⟨empty, fits⟩
    rw [split]
    simp only [scanHostPort, taken, stores, ok_bind]
    cases scanned : (scanLit 58 (portPart url ++ tail)).bind scanInt with
    | none =>
        rw [scanned] at number
        have unwritten : firstNumber url = none := by simpa using number.symm
        rw [found, unwritten]
        exact ⟨1, stored, port, rfl, by decide, rfl⟩
    | some pair =>
        obtain ⟨n, rest⟩ := pair
        rw [scanned] at number
        obtain ⟨m, written, value⟩ : ∃ m, firstNumber url = some m ∧ storedInt m = n := by
          simpa using number.symm
        rw [found, written]
        exact ⟨2, stored, n, rfl, rfl, str, value.symm⟩
  · -- the width cuts the host, and no colon follows
    have missed : hostPort url = none := by simp [hostPort, HostFits, fits]
    have no_colon : scanLit 58 ((hostPart url).drop 255 ++ (portPart url ++ tail)) = none := by
      cases left : (hostPart url).drop 255 with
      | nil => exact absurd (List.drop_eq_nil_iff.mp left) fits
      | cons b rest =>
          have member : b ∈ (hostPart url).drop 255 := by simp [left]
          have differs := (hostPart_lacks (List.mem_of_mem_drop member)).1
          simp [scanLit, differs]
    rw [split]
    simp only [scanHostPort, taken, stores, no_colon, missed, ok_bind, Option.bind_none]
    exact ⟨1, stored, port, rfl, by decide, rfl⟩

theorem scanHost_unnamed {url : Bytes} (empty : authority url = []) (hostname : CArray 256) :
    scanHost (url.drop 7) hostname = .ok (0, hostname) := by
  obtain ⟨tail, split, slash⟩ := authority_split url
  have ends : ∀ b ∈ tail.head?, decide (b ≠ 47) = false := by
    intro b first
    simp [slash b first]
  rw [split, empty, List.nil_append, scanHost, scanSet_eq_none ends]

/-- The second pattern takes the first 255 bytes of the authority. -/
theorem scanHost_named {url : Bytes} (nonzero : ∀ b ∈ url, b ≠ 0) (named : authority url ≠ [])
    (hostname : CArray 256) :
    ∃ hostname', scanHost (url.drop 7) hostname = .ok (1, hostname') ∧
      hostname'.str = (authority url).take 255 := by
  obtain ⟨tail, split, slash⟩ := authority_split url
  have ends : ∀ b ∈ tail.head?, decide (b ≠ 47) = false := by
    intro b first
    simp [slash b first]
  have inside : ∀ b ∈ authority url, decide (b ≠ 47) = true := by
    intro b member
    simpa using authority_lacks member
  have taken := scanSet_append named inside ends (by decide : 0 < 255)
  have nameNonzero : ∀ b ∈ (authority url).take 255, b ≠ 0 := by
    intro b member
    apply nonzero b
    apply List.mem_of_mem_drop (i := 7)
    rw [split]
    exact List.mem_append_left _ (List.mem_of_mem_take member)
  obtain ⟨stored, stores, str⟩ := hostname.store_ok nameNonzero
    (Nat.lt_succ_of_le (List.length_take_le _ _))
  rw [split, scanHost, taken]
  simp only [stores, ok_bind]
  exact ⟨stored, rfl, str⟩

/-- Behind the scan of the request line, the URL alone decides what
    `parse_http_request` gives. -/
theorem parseHttpRequest_outcome {line line' : LineArrays} {buffer : CArray bufferSize}
    (hostname : CArray 256) (scanned : scanRequestLine line buffer.str = .ok line') :
    ∃ parsed, parseHttpRequest line buffer hostname = .ok parsed ∧
      parsed.outcome = parsedUrl line'.url.str := by
  have nonzero : ∀ b ∈ line'.url.str, b ≠ 0 := fun _ => CArray.str_ne_zero
  simp only [parseHttpRequest, scanned, ok_bind]
  generalize line'.url.str = url at nonzero
  cases http : startsWith url (ascii "http://") with
  | false =>
      have unnamed : ¬ Named url := by simp [Named, http]
      rw [parsedUrl, if_neg unnamed]
      simp only [Bool.false_eq_true, if_false]
      split <;> exact ⟨_, rfl, rfl⟩
  | true =>
      obtain ⟨count, hostname₁, port, first, finds⟩ := scanHostPort_spec nonzero hostname 80
      simp only [if_true, first, ok_bind]
      cases found : hostPort url with
      | some pair =>
          rw [found] at finds
          obtain ⟨rfl, host, port⟩ := finds
          have named : Named url := by
            refine ⟨http, fun empty => ?_⟩
            simp [hostPort, HostFits, hostPart, empty] at found
          rw [parsedUrl, if_pos named, found, Option.getD_some]
          exact ⟨_, rfl, by simp [Parsed.outcome, host, port]⟩
      | none =>
          rw [found] at finds
          obtain ⟨missed, rfl⟩ := finds
          rw [if_neg missed]
          by_cases empty : authority url = []
          · have unnamed : ¬ Named url := fun named => named.2 empty
            rw [scanHost_unnamed empty, parsedUrl, if_neg unnamed]
            exact ⟨_, rfl, rfl⟩
          · obtain ⟨hostname₂, second, str⟩ := scanHost_named nonzero empty hostname₁
            rw [second, parsedUrl, if_pos ⟨http, empty⟩, found, Option.getD_none]
            exact ⟨_, rfl, by simp [Parsed.outcome, str]⟩

/-- When three words fit, the second is the URL that is parsed. -/
theorem parseHttpRequest_words {buffer : CArray bufferSize} {method url protocol : Bytes}
    (found : words 3 buffer.str = [method, url, protocol]) (fits : TokensFit buffer.str)
    (line : LineArrays) (hostname : CArray 256) :
    ∃ line' parsed, scanRequestLine line buffer.str = .ok line' ∧ line'.url.str = url ∧
      parseHttpRequest line buffer hostname = .ok parsed ∧ parsed.outcome = parsedUrl url := by
  obtain ⟨line', scans, scanned⟩ := scanRequestLine_ok line (fun _ => CArray.str_ne_zero) fits
  obtain ⟨_, str, _⟩ := scanned.strs found
  obtain ⟨parsed, parses, outcome⟩ := parseHttpRequest_outcome hostname scans
  rw [str] at outcome
  exact ⟨line', parsed, scans, str, parses, outcome⟩

theorem parsedUrl_eq_none_iff (url : Bytes) : parsedUrl url = none ↔ ¬ Named url := by
  simp [parsedUrl]

theorem Parsed.outcome_eq_some {parsed : Parsed} {host : Bytes} {port : Int}
    (outcome : parsed.outcome = some (host, port)) :
    parsed.accepted = true ∧ parsed.hostname.str = host ∧ parsed.port = port := by
  unfold Parsed.outcome at outcome
  split at outcome
  · rename_i accepted
    obtain ⟨rfl, rfl⟩ := Prod.mk.inj (Option.some.inj outcome)
    exact ⟨accepted, rfl, rfl⟩
  · cases outcome

theorem Parsed.accepted_iff {parsed : Parsed} {url : Bytes}
    (outcome : parsed.outcome = parsedUrl url) : parsed.accepted = true ↔ Named url := by
  rw [← not_iff_not, ← parsedUrl_eq_none_iff, ← outcome, Parsed.outcome]
  split <;> simp_all

/-! ## Accepted URLs -/

/-- `http://`, a host, perhaps a colon and digits, and then nothing or a path. -/
structure Decomposes (url host port path : Bytes) : Prop where
  whole : url = ascii "http://" ++ (host ++ port ++ path)
  hostNonempty : host ≠ []
  hostLacks : ∀ b ∈ host, b ≠ 58 ∧ b ≠ 47
  port : port = [] ∨ ∃ ds, port = 58 :: ds ∧ ds ≠ [] ∧ ∀ b ∈ ds, isdigit b = true
  path : ∀ b ∈ path.head?, b = 47

/-- Nothing is behind the host, or a colon and at least one digit. -/
def PlainPort (url : Bytes) : Prop :=
  portPart url = [] ∨ ((portPart url).drop 1 ≠ [] ∧ ∀ b ∈ (portPart url).drop 1, isdigit b = true)

instance (url : Bytes) : Decidable (PlainPort url) := by
  unfold PlainPort
  infer_instance

theorem slash_not_digit {b : UInt8} (digit : isdigit b = true) : b ≠ 47 := by
  rintro rfl
  exact absurd digit (by decide)

/-- An authority that starts with a host is cut behind it. -/
theorem hostPart_written {url host port : Bytes} (written : authority url = host ++ port)
    (lacks : ∀ b ∈ host, b ≠ 58) (colon : ∀ b ∈ port.head?, b = 58) :
    hostPart url = host ∧ portPart url = port := by
  have inside : ∀ b ∈ host, decide (b ≠ 58) = true := by simpa using lacks
  rw [hostPart, portPart, written, List.takeWhile_append_of_pos inside,
    List.dropWhile_append_of_pos inside]
  cases port with
  | nil => simp
  | cons b port => simp [colon b rfl]

/-- A decomposition is the only one. -/
theorem Decomposes.parts {url host port path : Bytes} (parts : Decomposes url host port path) :
    authority url = host ++ port ∧ hostPart url = host ∧ portPart url = port ∧ PlainPort url := by
  have lacks : ∀ b ∈ host ++ port, b ≠ 47 := by
    intro b member
    rcases List.mem_append.mp member with inHost | inPort
    · exact (parts.hostLacks b inHost).2
    · rcases parts.port with rfl | ⟨ds, rfl, _, decimals⟩
      · cases inPort
      · rcases List.mem_cons.mp inPort with rfl | digit
        · decide
        · exact slash_not_digit (decimals b digit)
  have written : authority url = host ++ port := by
    rw [parts.whole]
    exact authority_written lacks parts.path
  have colon : ∀ b ∈ port.head?, b = 58 := by
    intro b first
    rcases parts.port with rfl | ⟨ds, rfl, _, _⟩
    · cases first
    · exact (Option.some.inj first).symm
  obtain ⟨host_, port_⟩ := hostPart_written written (fun b inHost => (parts.hostLacks b inHost).1)
    colon
  refine ⟨written, host_, port_, ?_⟩
  rw [PlainPort, port_]
  rcases parts.port with rfl | ⟨ds, rfl, nonempty, decimals⟩
  · exact .inl rfl
  · exact .inr ⟨nonempty, decimals⟩

theorem http_whole {url : Bytes} (http : startsWith url (ascii "http://") = true) :
    url = ascii "http://" ++ url.drop 7 := by
  obtain ⟨rest, rfl⟩ := List.isPrefixOf_iff_prefix.mp http
  rfl

theorem decomposes_of_plain {url : Bytes} (named : Named url) (fits : HostFits url)
    (plain : PlainPort url) : ∃ path, Decomposes url (hostPart url) (portPart url) path := by
  obtain ⟨tail, split, slash⟩ := authority_split url
  refine ⟨tail, ?_, fits.1, fun b member => hostPart_lacks member, ?_, slash⟩
  · rw [← authority_eq, ← split]
    exact http_whole named.1
  · cases port : portPart url with
    | nil => exact .inl rfl
    | cons c ds =>
        obtain rfl : c = 58 := portPart_head (by rw [port]; rfl)
        rw [PlainPort, port] at plain
        exact .inr ⟨ds, rfl, plain.resolve_left (List.cons_ne_nil _ _)⟩

/-- The host that is returned was cut at 255 bytes. -/
theorem parsedUrl_host_le {url host : Bytes} {port : Int}
    (found : parsedUrl url = some (host, port)) : host.length ≤ 255 := by
  unfold parsedUrl at found
  split at found
  · cases first : hostPort url with
    | none =>
        rw [first] at found
        obtain ⟨rfl, _⟩ := Prod.mk.inj (Option.some.inj found)
        exact List.length_take_le _ _
    | some pair =>
        rw [first] at found
        obtain rfl : pair = (host, port) := Option.some.inj found
        unfold hostPort at first
        split at first
        · rename_i fits
          obtain ⟨n, _, same⟩ := Option.map_eq_some_iff.mp first
          obtain ⟨rfl, _⟩ := Prod.mk.inj same
          exact fits.2
        · cases first
  · cases found

/-- Of a URL of the right form the host is returned. -/
theorem parsedUrl_plain {url : Bytes} (named : Named url) (fits : HostFits url)
    (plain : PlainPort url) : ∃ port, parsedUrl url = some (hostPart url, port) := by
  rw [parsedUrl, if_pos named, hostPort, if_pos fits]
  cases firstNumber_ : firstNumber url with
  | some n => exact ⟨storedInt n, rfl⟩
  | none =>
      rcases plain with absent | ⟨nonempty, decimals⟩
      · refine ⟨80, ?_⟩
        rw [authority_eq, absent, List.append_nil, List.take_of_length_le fits.2]
        rfl
      · -- digits behind the colon are a number
        exfalso
        cases port : portPart url with
        | nil => simp [port] at nonempty
        | cons c ds =>
            obtain rfl : c = 58 := portPart_head (by rw [port]; rfl)
            rw [port] at nonempty decimals
            have number := numeral_digits nonempty decimals
            simp only [List.drop_succ_cons, List.drop_zero] at number
            simp [firstNumber, port, scanLit, number] at firstNumber_

/-- With three fitting words, an accepted URL is `http://`, the returned host
    and a proper port and path, exactly when it names no host at all or is of
    that form with a host of at most 255 bytes. -/
theorem accepted_url_decomposes_iff {buffer : CArray bufferSize} {method url protocol : Bytes}
    (found : words 3 buffer.str = [method, url, protocol]) (fits : TokensFit buffer.str)
    (line : LineArrays) (hostname : CArray 256) :
    (∃ parsed, parseHttpRequest line buffer hostname = .ok parsed ∧
        (parsed.accepted = true → ∃ port path, Decomposes url parsed.hostname.str port path) ∧
        ((¬ ∃ host port path, Decomposes url host port path) → parsed.accepted = false)) ↔
      ¬ Named url ∨ (HostFits url ∧ PlainPort url) := by
  obtain ⟨_, parsed, _, _, parses, outcome⟩ := parseHttpRequest_words found fits line hostname
  have accepted := Parsed.accepted_iff outcome
  constructor
  · rintro ⟨parsed', parses', decomposes, _⟩
    obtain rfl : parsed = parsed' := Except.ok.inj (parses.symm.trans parses')
    by_cases named : Named url
    · right
      obtain ⟨port, path, parts⟩ := decomposes (accepted.mpr named)
      obtain ⟨_, host, _, plain⟩ := parts.parts
      rw [Parsed.outcome, if_pos (accepted.mpr named)] at outcome
      refine ⟨⟨?_, ?_⟩, plain⟩
      · rw [host]
        exact parts.hostNonempty
      · rw [host]
        exact parsedUrl_host_le outcome.symm
    · exact .inl named
  · intro condition
    have decomposes : parsed.accepted = true →
        ∃ port path, Decomposes url parsed.hostname.str port path := by
      intro accepts
      have named := accepted.mp accepts
      obtain ⟨fit, plain⟩ := condition.resolve_left (not_not_intro named)
      obtain ⟨port, whole⟩ := parsedUrl_plain named fit plain
      obtain ⟨_, host, _⟩ := Parsed.outcome_eq_some (outcome.trans whole)
      rw [host]
      exact ⟨_, decomposes_of_plain named fit plain⟩
    refine ⟨parsed, parses, decomposes, fun none_ => ?_⟩
    rw [← Bool.not_eq_true]
    intro accepts
    exact none_ ⟨_, decomposes accepts⟩

theorem accepted_url_decomposes_iff_get :
    ∃ (buffer : CArray bufferSize) (parsed : Parsed),
      words 3 buffer.str = [ascii "GET", ascii "http://a:8080/b", ascii "HTTP/1.1"] ∧
      parseHttpRequest Frame.blank.parse buffer (.blank 256) = .ok parsed ∧
      (parsed.accepted = true →
        ∃ port path, Decomposes (ascii "http://a:8080/b") parsed.hostname.str port path) := by
  obtain ⟨buffer, str⟩ := CArray.exists_str (n := bufferSize)
    (s := ascii "GET http://a:8080/b HTTP/1.1\r\n\r\n") (by decide) (by decide)
  have found : words 3 buffer.str = [ascii "GET", ascii "http://a:8080/b", ascii "HTTP/1.1"] := by
    rw [str]
    decide
  obtain ⟨parsed, parses, decomposes, _⟩ :=
    (accepted_url_decomposes_iff found (by rw [str]; decide) Frame.blank.parse (.blank 256)).mpr
      (.inr (by decide))
  exact ⟨buffer, parsed, found, parses, decomposes⟩

/-- A port that is no number makes the second pattern take it for a part of the
    host. -/
theorem host_with_colon_accepted :
    ∃ (buffer : CArray bufferSize) (parsed : Parsed),
      words 3 buffer.str = [ascii "GET", ascii "http://a:b/", ascii "HTTP/1.1"] ∧
      TokensFit buffer.str ∧
      parseHttpRequest Frame.blank.parse buffer (.blank 256) = .ok parsed ∧
      parsed.accepted = true ∧ parsed.hostname.str = ascii "a:b" ∧
      ¬ ∃ host port path, Decomposes (ascii "http://a:b/") host port path := by
  obtain ⟨buffer, str⟩ := CArray.exists_str (n := bufferSize)
    (s := ascii "GET http://a:b/ HTTP/1.1\r\n\r\n") (by decide) (by decide)
  have found : words 3 buffer.str = [ascii "GET", ascii "http://a:b/", ascii "HTTP/1.1"] := by
    rw [str]
    decide
  have fits : TokensFit buffer.str := by
    rw [str]
    decide
  obtain ⟨_, parsed, _, _, parses, outcome⟩ :=
    parseHttpRequest_words found fits Frame.blank.parse (.blank 256)
  have given : parsedUrl (ascii "http://a:b/") = some (ascii "a:b", 80) := by decide
  obtain ⟨accepted, host, _⟩ := Parsed.outcome_eq_some (outcome.trans given)
  refine ⟨buffer, parsed, found, fits, parses, accepted, host, ?_⟩
  rintro ⟨host, port, path, parts⟩
  obtain ⟨_, _, _, plain⟩ := parts.parts
  exact absurd plain (by decide)

/-! ## Rendered requests -/

/-- A host and perhaps a port, as a client writes them into a URL. -/
structure Authority where
  host : Bytes
  port : Option Nat
  hostToken : Token host
  hostLacks : ∀ b ∈ host, b ≠ 58 ∧ b ≠ 47
  hostFits : host.length ≤ 255
  portInRange : ∀ n ∈ port, 1 ≤ n ∧ n ≤ 65535

namespace Authority

variable (a : Authority)

/-- A colon and the port, if one is written. -/
def portBytes : Bytes := a.port.elim [] fun n => 58 :: decimal n

def bytes : Bytes := a.host ++ a.portBytes

theorem portBytes_head : ∀ b ∈ a.portBytes.head?, b = 58 := by
  intro b first
  unfold portBytes at first
  cases port : a.port with
  | none => simp [port] at first
  | some n =>
      rw [port] at first
      exact (Option.some.inj first).symm

/-- The parser finds what was written. -/
theorem parsedUrl_eq {url : Bytes} (http : startsWith url (ascii "http://") = true)
    (written : SysProg.Proxy.authority url = a.bytes) :
    parsedUrl url = some (a.host, ((a.port.getD 80 : Nat) : Int)) := by
  obtain ⟨host, port⟩ :=
    hostPart_written written (fun b member => (a.hostLacks b member).1) a.portBytes_head
  have fits : HostFits url := by
    rw [HostFits, host]
    exact ⟨a.hostToken.nonempty, a.hostFits⟩
  have named : Named url := by
    refine ⟨http, fun empty => a.hostToken.nonempty ?_⟩
    rw [written] at empty
    exact (List.append_eq_nil_iff.mp empty).1
  rw [parsedUrl, if_pos named, hostPort, if_pos fits, host, firstNumber, port, portBytes]
  cases chosen : a.port with
  | none =>
      have whole : SysProg.Proxy.authority url = a.host := by
        rw [written, bytes, portBytes, chosen]
        exact List.append_nil _
      rw [whole, List.take_of_length_le a.hostFits]
      rfl
  | some n =>
      obtain ⟨_, large⟩ := a.portInRange n chosen
      have stored : storedInt n = n := storedInt_of_small (by omega) (by omega)
      simp [scanLit, numeral_decimal, stored]

end Authority

theorem HttpRequest.authority_url (q : HttpRequest) :
    SysProg.Proxy.authority q.url = q.authority := by
  apply authority_written q.authorityEnds
  intro b first
  rcases q.pathStarts with none_ | slash
  · simp [none_] at first
  · exact Option.some.inj (first.symm.trans slash)

/-- Whatever the arrays hold, receiving a request that names a host and perhaps a
    port, and parsing it, gives that host and that port, or 80. -/
theorem parseHttpRequest_rendered (q : HttpRequest) (a : Authority) (named : q.authority = a.bytes)
    (size : q.bytes.length < bufferSize) (buffer : CArray bufferSize) (line : LineArrays)
    (hostname : CArray 256) :
    ∃ filled parsed, fillBuffer buffer q.bytes = .ok filled ∧
      parseHttpRequest line filled hostname = .ok parsed ∧ parsed.accepted = true ∧
      parsed.hostname.str = a.host ∧ parsed.port = ((a.port.getD 80 : Nat) : Int) := by
  obtain ⟨filled, fills, str, _⟩ := fillBuffer_ok buffer size
  rw [HttpRequest.bytes, untilZero_append q.line_nonzero] at str
  have found : words 3 filled.str = [q.method, q.url, q.protocol] := by
    rw [str]
    exact q.words_of_line (List.takeWhile_prefix _)
  obtain ⟨_, parsed, _, _, parses, outcome⟩ :=
    parseHttpRequest_words found (q.tokensFit found) line hostname
  rw [a.parsedUrl_eq q.url_http (q.authority_url.trans named)] at outcome
  obtain ⟨accepted, host, port⟩ := Parsed.outcome_eq_some outcome
  exact ⟨filled, parsed, fills, parses, accepted, host, port⟩

theorem parseHttpRequest_rendered_get :
    ∃ filled parsed, fillBuffer (.blank bufferSize) (getRequest (ascii "\r\n")).bytes = .ok filled ∧
      parseHttpRequest Frame.blank.parse filled (.blank 256) = .ok parsed ∧
      parsed.accepted = true ∧ parsed.hostname.str = ascii "a" ∧ parsed.port = 80 :=
  parseHttpRequest_rendered (getRequest (ascii "\r\n"))
    { host := ascii "a"
      port := none
      hostToken := ⟨by decide, by decide, by decide⟩
      hostLacks := by decide
      hostFits := by decide
      portInRange := by decide } rfl (by decide) _ _ _

end SysProg.Proxy
