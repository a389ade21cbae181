import Mathlib.Data.List.Infix
import SysProg.Proxy.Handler
import SysProg.Proxy.RequestBounds

/-! # What becomes of a well-formed request

`HttpRequest` is a request whose first line is a method, an `http` URL and a
protocol that fit the parser's arrays; `rewritten` is what the target should
get.  The proxy works on the bytes of one `recv`.  When they contain the three
tokens, it sends the rewritten line and whatever follows up to the first zero;
when they stop earlier, something is missing from the line itself.
-/

namespace SysProg.Proxy

open Fallible CString Scan Interaction

/-- A token of the request line. -/
structure Token (w : Bytes) : Prop where
  nonempty : w ≠ []
  visible : ∀ b ∈ w, isspace b = false
  nonzero : ∀ b ∈ w, b ≠ 0

/-- A request whose first line is `METHOD SP http-URL SP PROTOCOL CRLF`. -/
structure HttpRequest where
  method : Bytes
  authority : Bytes
  /-- Empty, or from the first slash behind the authority. -/
  path : Bytes
  protocol : Bytes
  /-- Everything behind the first line. -/
  rest : Bytes
  methodToken : Token method
  authorityToken : Token authority
  pathVisible : ∀ b ∈ path, isspace b = false ∧ b ≠ 0
  protocolToken : Token protocol
  authorityEnds : ∀ b ∈ authority, b ≠ 47
  pathStarts : path = [] ∨ path.head? = some 47
  methodFits : method.length < 10
  urlFits : 7 + authority.length + path.length < 1024
  protocolFits : protocol.length < 10

namespace HttpRequest

variable (q : HttpRequest)

def url : Bytes := ascii "http://" ++ (q.authority ++ q.path)

/-- The first line without its end. -/
def line : Bytes := q.method ++ ascii " " ++ q.url ++ ascii " " ++ q.protocol

def bytes : Bytes := q.line ++ (ascii "\r\n" ++ q.rest)

/-- The path the target is asked for. -/
def target : Bytes := if q.path = [] then ascii "/" else q.path

/-- The first line for the target. -/
def rewrittenLine : Bytes :=
  q.method ++ ascii " " ++ q.target ++ ascii " " ++ q.protocol ++ ascii "\r\n"

/-- The whole request for the target. -/
def rewritten : Bytes := q.rewrittenLine ++ q.rest

end HttpRequest

/-- `GET http://a/b HTTP/1.1`, with what follows the first line. -/
def getRequest (rest : Bytes) : HttpRequest where
  method := ascii "GET"
  authority := ascii "a"
  path := ascii "/b"
  protocol := ascii "HTTP/1.1"
  rest := rest
  methodToken := ⟨by decide, by decide, by decide⟩
  authorityToken := ⟨by decide, by decide, by decide⟩
  pathVisible := by decide
  protocolToken := ⟨by decide, by decide, by decide⟩
  authorityEnds := by decide
  pathStarts := by decide
  methodFits := by decide
  urlFits := by decide
  protocolFits := by decide

/-! ## One rewriting -/

/-- The path of the rest of a URL. -/
def pathOf (rest : Bytes) : Bytes := (strchr rest 47).getD (ascii "/")

theorem extractPath_str (path : CArray 1024) {rest : Bytes} (nonzero : ∀ b ∈ rest, b ≠ 0)
    (short : rest.length < 1023) :
    ∃ path', extractPath path rest = .ok path' ∧ path'.str = pathOf rest := by
  unfold extractPath pathOf
  cases found : strchr rest 47 with
  | none => exact path.store_ok (by decide) (by decide)
  | some start =>
      have suffix := strchr_suffix found
      exact path.strncpy_ok (fun b member => nonzero b (suffix.subset member))
        (Nat.lt_of_le_of_lt suffix.length_le short) (by decide)

/-- What `forward_request` prints into its buffer first. -/
def printedLine (line : LineArrays) : Bytes :=
  line.method.str ++ ascii " " ++ pathOf (line.url.str.drop 7) ++ ascii " " ++
    line.protocol.str ++ ascii "\r\n"

/-- A line that fits is sent whole, with as much of what follows the first line
    end as there is room for. -/
theorem modifiedRequest_sent {arrays : ForwardArrays} {line : LineArrays}
    {buffer : CArray bufferSize} (scanned : scanRequestLine arrays.line buffer.str = .ok line)
    (http : startsWith line.url.str (ascii "http://") = true) (short : line.url.str.length < 1024)
    (fits : (printedLine line).length < bufferSize) :
    modifiedRequest arrays buffer = .ok (some (printedLine line ++
      (strstr buffer.str (ascii "\r\n")).elim [] fun headers =>
        (headers.drop 2).take (bufferSize - (printedLine line).length - 1))) := by
  have text {n : Nat} (a : CArray n) : ∀ b ∈ a.str, b ≠ 0 := fun _ => CArray.str_ne_zero
  obtain ⟨cleared, cleaned, _⟩ := arrays.path.zero_ok (Nat.le_refl 1024)
  have nonzero : ∀ b ∈ line.url.str.drop 7, b ≠ 0 :=
    fun b member => text _ b (List.mem_of_mem_drop member)
  obtain ⟨path, extracted, pathStr⟩ := extractPath_str cleared nonzero (by
    rw [List.length_drop]
    omega)
  have printed : line.method.str ++ ascii " " ++ path.str ++ ascii " " ++ line.protocol.str ++
      ascii "\r\n" = printedLine line := by rw [pathStr, printedLine]
  have printedNonzero : ∀ b ∈ printedLine line, b ≠ 0 := by
    have space : ∀ b ∈ ascii " ", b ≠ 0 := by decide
    have crlf : ∀ b ∈ ascii "\r\n", b ≠ 0 := by decide
    rw [← printed]
    simp only [List.forall_mem_append]
    exact ⟨⟨⟨⟨⟨text _, space⟩, text _⟩, space⟩, text _⟩, crlf⟩
  obtain ⟨modified, prints, modifiedStr⟩ :=
    arrays.modifiedRequest.snprintf_ok printedNonzero (by decide)
  rw [List.take_of_length_le (Nat.le_sub_one_of_lt fits)] at modifiedStr
  simp only [modifiedRequest, cleaned, scanned, http, extracted, printed, prints, ok_bind,
    pure_eq_ok, if_true]
  cases found : strstr buffer.str (ascii "\r\n") with
  | none => simp [modifiedStr]
  | some headers =>
      have kept : ∀ b ∈ headers.drop 2, b ≠ 0 := fun b member =>
        text _ b (strstr_mem found (List.mem_of_mem_drop member))
      obtain ⟨joined, appended, joinedStr⟩ :=
        modified.strncat_ok kept (by rw [modifiedStr]; exact fits)
      simp only [appended, ok_bind, joinedStr, Option.elim_some]
      rw [modifiedStr]

theorem modifiedRequest_none {arrays : ForwardArrays} {line : LineArrays}
    {buffer : CArray bufferSize} (scanned : scanRequestLine arrays.line buffer.str = .ok line)
    (other : startsWith line.url.str (ascii "http://") = false) :
    modifiedRequest arrays buffer = .ok none := by
  obtain ⟨cleared, cleaned, _⟩ := arrays.path.zero_ok (Nat.le_refl 1024)
  simp [modifiedRequest, cleaned, scanned, other]

/-- A URL with a host is accepted. -/
theorem parseHttpRequest_accepted {line line' : LineArrays} {buffer : CArray bufferSize}
    (hostname : CArray 256) (scanned : scanRequestLine line buffer.str = .ok line')
    (http : startsWith line'.url.str (ascii "http://") = true) {b : UInt8} {rest : Bytes}
    (host : line'.url.str.drop 7 = b :: rest) (named : b ≠ 47) :
    ∃ parsed, parseHttpRequest line buffer hostname = .ok parsed ∧ parsed.accepted = true := by
  have nonzero : ∀ c ∈ line'.url.str.drop 7, c ≠ 0 :=
    fun c member => CArray.str_ne_zero (List.mem_of_mem_drop member)
  obtain ⟨⟨count, hostname₁, port⟩, both⟩ := scanHostPort_ok hostname 80 nonzero
  obtain ⟨hostname₂, only⟩ :
      ∃ hostname₂, scanHost (line'.url.str.drop 7) hostname₁ = .ok (1, hostname₂) := by
    rw [host] at nonzero ⊢
    unfold scanHost
    cases found : scanSet 255 (fun b => b ≠ 47) (b :: rest) with
    | none => simp [scanSet, named] at found
    | some pair =>
        obtain ⟨name, left⟩ := pair
        obtain ⟨narrow, inside⟩ := scanSet_eq_some found
        obtain ⟨stored, stores, _⟩ := hostname₁.store_ok
          (fun c member => nonzero c (inside c member)) (Nat.lt_succ_of_le narrow)
        exact ⟨stored, by simp [stores]⟩
  simp only [parseHttpRequest, scanned, http, both, only, ok_bind, pure_eq_ok, if_true]
  by_cases two : count = 2
  · exact ⟨_, by rw [if_pos two], rfl⟩
  · exact ⟨_, by rw [if_neg two], rfl⟩

/-! ## The words of a first line -/

/-- A prefix of a concatenation stops inside the first part or goes through it. -/
theorem prefix_append_cases {b x y : Bytes} (part : b <+: x ++ y) :
    (b <+: x ∧ b ≠ x) ∨ ∃ t, t <+: y ∧ b = x ++ t := by
  obtain ⟨z, whole⟩ := part
  rcases List.append_eq_append_iff.mp whole with ⟨a, inside, _⟩ | ⟨c, through, behind⟩
  · rcases eq_or_ne b x with same | cut
    · exact .inr ⟨[], List.nil_prefix, by simp [same]⟩
    · exact .inl ⟨⟨a, inside.symm⟩, cut⟩
  · exact .inr ⟨c, ⟨z, behind.symm⟩, through⟩

namespace HttpRequest

variable (q : HttpRequest)

theorem url_visible : ∀ b ∈ q.url, isspace b = false := by
  have scheme : ∀ b ∈ ascii "http://", isspace b = false := by decide
  simp only [url, List.forall_mem_append]
  exact ⟨scheme, q.authorityToken.visible, fun b member => (q.pathVisible b member).1⟩

theorem url_nonzero : ∀ b ∈ q.url, b ≠ 0 := by
  have scheme : ∀ b ∈ ascii "http://", b ≠ 0 := by decide
  simp only [url, List.forall_mem_append]
  exact ⟨scheme, q.authorityToken.nonzero, fun b member => (q.pathVisible b member).2⟩

theorem url_length : q.url.length = 7 + q.authority.length + q.path.length := by
  simp only [url, List.length_append]
  rw [show (ascii "http://").length = 7 from rfl]
  omega

theorem line_eq : q.line = q.method ++ 32 :: (q.url ++ 32 :: q.protocol) := by
  simp only [line, List.append_assoc]
  rfl

theorem line_nonzero : ∀ b ∈ q.line, b ≠ 0 := by
  have space : ∀ b ∈ ascii " ", b ≠ 0 := by decide
  simp only [line, List.forall_mem_append]
  exact ⟨⟨⟨⟨q.methodToken.nonzero, space⟩, q.url_nonzero⟩, space⟩, q.protocolToken.nonzero⟩

/-- The line has no spaces but its two separators. -/
theorem line_lacks {c : UInt8} (space : isspace c = true) (other : c ≠ 32) :
    ∀ b ∈ q.line, b ≠ c := by
  have separator : ∀ b ∈ ascii " ", b ≠ c := by
    intro b member
    obtain rfl : b = 32 := List.mem_singleton.mp member
    exact other.symm
  have token {w : Bytes} (visible : ∀ b ∈ w, isspace b = false) : ∀ b ∈ w, b ≠ c := by
    rintro b member rfl
    rw [visible b member] at space
    cases space
  simp only [line, List.forall_mem_append]
  exact ⟨⟨⟨⟨token q.methodToken.visible, separator⟩, token q.url_visible⟩, separator⟩,
    token q.protocolToken.visible⟩

theorem words_line {tail : Bytes} (ends : ∀ b ∈ tail.head?, isspace b = true) :
    words 3 (q.line ++ tail) = [q.method, q.url, q.protocol] := by
  have urlNonempty : q.url ≠ [] := by simp [url, ascii]
  rw [line_eq, List.append_assoc, List.cons_append, List.append_assoc, List.cons_append,
    words_append q.methodToken.nonempty q.methodToken.visible (by simp; decide),
    words_skip (by decide),
    words_append urlNonempty q.url_visible (by simp; decide), words_skip (by decide),
    words_append q.protocolToken.nonempty q.protocolToken.visible ends]
  rfl

/-- What is scanned from a text that stops inside the line. -/
structure Cut (found : List Bytes) : Prop where
  method : found[0]?.getD [] <+: q.method
  url : found[1]?.getD [] <+: q.url
  protocol : found[2]?.getD [] <+: q.protocol
  short : found[2]?.getD [] ≠ q.protocol

theorem cut_of_prefix {b : Bytes} (part : b <+: q.line) (cut : b ≠ q.line) : q.Cut (words 3 b) := by
  have within {x w : Bytes} (visible : ∀ b ∈ w, isspace b = false) (inside : x <+: w) :
      ∀ b ∈ x, isspace b = false := fun b member => visible b (inside.subset member)
  have noProtocol := q.protocolToken.nonempty.symm
  have urlNonempty : q.url ≠ [] := by simp [url, ascii]
  rw [line_eq] at part cut
  rcases prefix_append_cases part with ⟨inMethod, _⟩ | ⟨t, behind, rfl⟩
  · rw [words_last (within q.methodToken.visible inMethod)]
    split <;> constructor <;> simp [inMethod, noProtocol]
  rcases List.prefix_cons_iff.mp behind with rfl | ⟨t, rfl, atUrl⟩
  · rw [List.append_nil, words_last q.methodToken.visible, if_neg q.methodToken.nonempty]
    constructor <;> simp [noProtocol]
  rw [words_append q.methodToken.nonempty q.methodToken.visible (by simp; decide),
    words_skip (by decide)]
  rcases prefix_append_cases atUrl with ⟨inUrl, _⟩ | ⟨t, behindUrl, rfl⟩
  · rw [words_last (within q.url_visible inUrl)]
    split <;> constructor <;> simp [inUrl, noProtocol]
  rcases List.prefix_cons_iff.mp behindUrl with rfl | ⟨t, rfl, inProtocol⟩
  · rw [List.append_nil, words_last q.url_visible, if_neg urlNonempty]
    constructor <;> simp [noProtocol]
  rw [words_append urlNonempty q.url_visible (by simp; decide), words_skip (by decide),
    words_last (within q.protocolToken.visible inProtocol)]
  have short : t ≠ q.protocol := by
    rintro rfl
    exact cut rfl
  split <;> constructor <;> simp [inProtocol, noProtocol, short]

theorem url_drop : q.url.drop 7 = q.authority ++ q.path := rfl

theorem url_http : startsWith q.url (ascii "http://") = true :=
  List.isPrefixOf_iff_prefix.mpr (List.prefix_append _ _)

/-- The path starts at the first slash behind the authority. -/
theorem pathOf_url : pathOf (q.url.drop 7) = q.target := by
  have skipped : (q.authority ++ q.path).dropWhile (· ≠ 47) = q.path.dropWhile (· ≠ 47) :=
    List.dropWhile_append_of_pos (by simpa using q.authorityEnds)
  rw [url_drop, pathOf, strchr, skipped, target]
  rcases q.pathStarts with none_ | slash
  · simp [none_]
  · cases path : q.path with
    | nil => simp
    | cons b rest =>
        rw [path] at slash
        obtain rfl : b = 47 := Option.some.inj slash
        simp

theorem target_length : 0 < q.target.length ∧ q.path.length ≤ q.target.length ∧
    q.target.length ≤ q.path.length + 1 := by
  unfold target
  split
  · rename_i none_
    rw [none_]
    decide
  · rename_i some_
    exact ⟨List.length_pos_iff.mpr some_, Nat.le_refl _, Nat.le_succ _⟩

theorem line_length : q.line.length =
    q.method.length + q.authority.length + q.path.length + q.protocol.length + 9 := by
  rw [line_eq]
  simp only [List.length_append, List.length_cons, q.url_length]
  omega

theorem rewrittenLine_length : q.rewrittenLine.length =
    q.method.length + q.target.length + q.protocol.length + 4 := by
  simp only [rewrittenLine, List.length_append]
  rw [show (ascii " ").length = 1 from rfl, show (ascii "\r\n").length = 2 from rfl]
  omega

end HttpRequest

/-! ## What is sent -/

/-- What the handler hands to the target after receiving `received`, when the
    target can be reached. -/
def sentToTarget (frame : Frame) (received : Bytes) : Except OutOfBounds Bytes := do
  if received = [] then
    return []
  else
    let buffer ← fillBuffer frame.buffer received
    let parsed ← parseHttpRequest frame.parse buffer frame.hostname
    if parsed.accepted then
      return (← modifiedRequest frame.forward buffer).getD []
    else
      return []

/-- Something is sent only after every step before it has succeeded. -/
theorem sentToTarget_cases {frame : Frame} {received sent : Bytes}
    (sends : sentToTarget frame received = .ok sent) (some_ : sent ≠ []) :
    ∃ filled parsed, received ≠ [] ∧ fillBuffer frame.buffer received = .ok filled ∧
      parseHttpRequest frame.parse filled frame.hostname = .ok parsed ∧ parsed.accepted = true ∧
      modifiedRequest frame.forward filled = .ok (some sent) := by
  unfold sentToTarget at sends
  split at sends
  · cases sends
    exact absurd rfl some_
  · rename_i nonempty
    obtain ⟨filled, fills, sends⟩ := bind_eq_ok.mp sends
    obtain ⟨parsed, parses, sends⟩ := bind_eq_ok.mp sends
    split at sends
    · rename_i accepted
      obtain ⟨modified, rewrites, sends⟩ := bind_eq_ok.mp sends
      refine ⟨filled, parsed, nonempty, fills, parses, accepted, ?_⟩
      rw [rewrites]
      cases modified with
      | none =>
          cases sends
          exact absurd rfl some_
      | some bytes =>
          cases sends
          rfl
    · cases sends
      exact absurd rfl some_

/-- What `handle_client_request` does with a request that is sent on. -/
theorem handleClientRequest_sends {A : Type} {frame : Frame} {received sent : Bytes} (c : Int)
    (sends : sentToTarget frame received = .ok sent) (some_ : sent ≠ []) :
    ∃ rest hostname port,
      handleClientRequest (A := A) frame c = .call (.recv c (bufferSize - 1)) rest ∧
      rest (some received) = (connectToTargetServer frame.sockfd hostname port >>= fun t =>
        if t < 0 then return ()
        else send t sent true >>= fun _ => forwardResponse frame.response t c >>= fun _ =>
          close t >>= fun _ => close c) := by
  obtain ⟨filled, parsed, nonempty, fills, parses, accepted, rewrites⟩ :=
    sentToTarget_cases sends some_
  refine ⟨_, parsed.hostname.str, parsed.port, rfl, ?_⟩
  obtain ⟨first, others, rfl⟩ := List.exists_cons_of_ne_nil nonempty
  simp [fills, parses, accepted, rewrites, inBounds, Prog.checked, forwardRequest]

/-- What `forward_response` does with a response that it receives. -/
theorem forwardResponse_sends {A : Type} (buffer : CArray bufferSize) (t c : Int) {received : Bytes}
    (size : received.length < bufferSize) :
    ∃ rest, forwardResponse (A := A) buffer t c = .call (.recv t (bufferSize - 1)) rest ∧
      rest (some received) = .call (.send c received false) fun
        | none => .halt .exitFailure
        | some _ => .ret () := by
  obtain ⟨filled, fills, _, start⟩ := fillBuffer_ok buffer size
  refine ⟨_, rfl, ?_⟩
  simp only [Prog.bind_eq, inBounds, fills, Prog.checked, Prog.ret_bind, start]
  refine congrArg (Prog.call (I := calls A) (.send c received false)) (funext fun answer => ?_)
  cases answer <;> rfl

/-- The strings in the arrays after a scan that found three words. -/
theorem Scanned.strs {line line' : LineArrays} {s m u p : Bytes} (scanned : Scanned line s line')
    (found : words 3 s = [m, u, p]) :
    line'.method.str = m ∧ line'.url.str = u ∧ line'.protocol.str = p := by
  obtain ⟨method, url, protocol⟩ := scanned
  rw [found] at method url protocol
  exact ⟨method, url, protocol⟩

theorem Filled.blank {n : Nat} {after : CArray n} {found : Option Bytes}
    (filled : Filled (.blank n) after found) : after.str = found.getD [] := by
  cases found with
  | none =>
      obtain rfl : after = .blank n := filled
      exact CArray.str_blank n
  | some w => exact filled

namespace HttpRequest

variable (q : HttpRequest)

/-- What follows the line is found behind its end. -/
theorem behind_line {t rest : Bytes} (part : t <+: ascii "\r\n" ++ rest) :
    (strstr (q.line ++ t) (ascii "\r\n")).elim [] (·.drop 2) = t.drop 2 := by
  change t <+: 13 :: 10 :: rest at part
  have noFeed := q.line_lacks (c := 10) (by decide) (by decide)
  rcases List.prefix_cons_iff.mp part with rfl | ⟨t, rfl, behind⟩
  · rw [strstr_eq_none (c := 10) (by decide) (by simpa using noFeed)]
    rfl
  rcases List.prefix_cons_iff.mp behind with rfl | ⟨t, rfl, _⟩
  · rw [strstr_eq_none (c := 10) (by decide) (by
      simp only [List.forall_mem_append]
      exact ⟨noFeed, by decide⟩)]
    rfl
  · have at_ := strstr_append (q.line_lacks (c := 13) (by decide) (by decide)) [10] t
    rw [List.append_assoc] at at_
    change strstr (q.line ++ 13 :: 10 :: t) (ascii "\r\n") = _ at at_
    rw [at_]
    rfl

theorem words_of_line {t rest : Bytes} (part : t <+: ascii "\r\n" ++ rest) :
    words 3 (q.line ++ t) = [q.method, q.url, q.protocol] := by
  apply q.words_line
  change t <+: 13 :: 10 :: rest at part
  rcases List.prefix_cons_iff.mp part with rfl | ⟨t, rfl, _⟩
  · simp
  · simp only [List.head?_cons, Option.mem_def, Option.some.injEq, forall_eq']
    decide

theorem tokensFit {s : Bytes} (found : words 3 s = [q.method, q.url, q.protocol]) :
    TokensFit s := by
  have urlFits := q.urlFits
  rw [← q.url_length] at urlFits
  simp [TokensFit, found, q.methodFits, urlFits, q.protocolFits]

/-- In a buffer that holds the line and as much of what follows as there is room
    for, the line is rewritten and the rest is kept. -/
theorem modifiedRequest_line (arrays : ForwardArrays) {buffer : CArray bufferSize}
    {t rest : Bytes} (str : buffer.str = q.line ++ t) (part : t <+: ascii "\r\n" ++ rest)
    (size : (q.line ++ t).length < bufferSize) :
    modifiedRequest arrays buffer = .ok (some (q.rewrittenLine ++ t.drop 2)) := by
  have nonzero : ∀ b ∈ buffer.str, b ≠ 0 := fun _ => CArray.str_ne_zero
  have found : words 3 buffer.str = [q.method, q.url, q.protocol] := by
    rw [str]
    exact q.words_of_line part
  obtain ⟨line, scans, scanned⟩ := scanRequestLine_ok arrays.line nonzero (q.tokensFit found)
  obtain ⟨method, url, protocol⟩ := scanned.strs found
  have printed : printedLine line = q.rewrittenLine := by
    rw [printedLine, method, url, protocol, pathOf_url, rewrittenLine]
  obtain ⟨_, _, targetLength⟩ := q.target_length
  have lineLength := q.line_length
  have rewrittenLength := q.rewrittenLine_length
  have authorityLength := List.length_pos_iff.mpr q.authorityToken.nonempty
  have urlFits := q.urlFits
  have methodFits := q.methodFits
  have protocolFits := q.protocolFits
  have rewrites := modifiedRequest_sent scans (by rw [url]; exact q.url_http)
    (by rw [url, q.url_length]; exact urlFits)
    (by rw [printed, rewrittenLength]; simp only [bufferSize]; omega)
  rw [printed, str] at rewrites
  have kept := q.behind_line part
  have room : (t.drop 2).length ≤ bufferSize - q.rewrittenLine.length - 1 := by
    rw [List.length_drop, rewrittenLength]
    rw [List.length_append, lineLength] at size
    simp only [bufferSize] at size ⊢
    omega
  -- the search only finds what there is room for
  cases searched : strstr (q.line ++ t) (ascii "\r\n") with
  | none =>
      rw [searched] at rewrites kept
      rw [rewrites, ← kept]
      rfl
  | some headers =>
      rw [searched] at rewrites kept
      simp only [Option.elim_some] at rewrites kept
      rw [rewrites, kept, List.take_of_length_le room]

/-- For every request that fits the buffer and has no zero byte, whatever the
    local arrays hold, `forward_request` hands over the request with the URL
    replaced by its path, whole and no longer than it was. -/
theorem forwardRequest_rewrites {A : Type} (arrays : ForwardArrays) (targetSocket : Int)
    {buffer : CArray bufferSize} (str : buffer.str = q.bytes) (size : q.bytes.length < bufferSize) :
    forwardRequest (A := A) arrays targetSocket buffer =
        (send targetSocket q.rewritten true >>= fun _ => return ()) ∧
      q.rewritten.length ≤ q.bytes.length := by
  have rewrites := q.modifiedRequest_line arrays str (List.prefix_refl _) size
  have handed : q.rewrittenLine ++ (ascii "\r\n" ++ q.rest).drop 2 = q.rewritten := rfl
  rw [handed] at rewrites
  constructor
  · simp [forwardRequest, inBounds, Prog.checked, rewrites]
  · obtain ⟨_, _, targetLength⟩ := q.target_length
    have authorityLength := List.length_pos_iff.mpr q.authorityToken.nonempty
    have crlf : (ascii "\r\n").length = 2 := rfl
    rw [rewritten, bytes, List.length_append, List.length_append, List.length_append,
      q.line_length, q.rewrittenLine_length, crlf]
    omega

theorem forwardRequest_rewrites_get :
    ∃ buffer : CArray bufferSize, buffer.str = (getRequest (ascii "\r\n")).bytes ∧
      forwardRequest (A := Unit) Frame.blank.forward 5 buffer =
        (send 5 (ascii "GET /b HTTP/1.1\r\n\r\n") true >>= fun _ => return ()) := by
  obtain ⟨buffer, _, str⟩ :=
    (CArray.blank bufferSize).store_ok (s := (getRequest (ascii "\r\n")).bytes)
      (by decide) (by decide)
  have rewrites := ((getRequest (ascii "\r\n")).forwardRequest_rewrites (A := Unit)
    Frame.blank.forward 5 str (by decide)).1
  exact ⟨buffer, str, rewrites⟩

/-- When the three tokens have arrived, the rewritten line is sent with what
    follows the first line up to a zero. -/
theorem sentToTarget_line (frame : Frame) {t : Bytes} (part : t <+: ascii "\r\n" ++ q.rest)
    (size : (q.line ++ t).length < bufferSize) :
    sentToTarget frame (q.line ++ t) = .ok (q.rewrittenLine ++ untilZero (t.drop 2)) := by
  obtain ⟨filled, fills, filledStr, _⟩ := fillBuffer_ok frame.buffer size
  rw [untilZero_append q.line_nonzero] at filledStr
  have visible : untilZero t <+: ascii "\r\n" ++ q.rest := (List.takeWhile_prefix _).trans part
  have nonzero : ∀ b ∈ filled.str, b ≠ 0 := fun _ => CArray.str_ne_zero
  have found : words 3 filled.str = [q.method, q.url, q.protocol] := by
    rw [filledStr]
    exact q.words_of_line visible
  obtain ⟨line, scans, scanned⟩ := scanRequestLine_ok frame.parse nonzero (q.tokensFit found)
  obtain ⟨_, url, _⟩ := scanned.strs found
  -- the parser accepts the URL
  obtain ⟨b, host, authority⟩ := List.exists_cons_of_ne_nil q.authorityToken.nonempty
  have named : line.url.str.drop 7 = b :: (host ++ q.path) := by
    rw [url, url_drop, authority]
    rfl
  obtain ⟨parsed, parses, accepted⟩ := parseHttpRequest_accepted frame.hostname scans
    (by rw [url]; exact q.url_http) named (q.authorityEnds b (by simp [authority]))
  have visibleSize : (q.line ++ untilZero t).length < bufferSize := by
    have shorter := length_untilZero_le t
    simp only [List.length_append] at size ⊢
    omega
  have rewrites := q.modifiedRequest_line frame.forward filledStr visible visibleSize
  have behind : (untilZero t).drop 2 = untilZero (t.drop 2) := by
    change t <+: 13 :: 10 :: q.rest at part
    rcases List.prefix_cons_iff.mp part with rfl | ⟨t, rfl, after⟩
    · rfl
    rcases List.prefix_cons_iff.mp after with rfl | ⟨t, rfl, _⟩
    · rfl
    · simp [untilZero]
  rw [behind] at rewrites
  have some_ : q.line ++ t ≠ [] := by
    rw [line_eq]
    simp
  simp [sentToTarget, some_, fills, parses, accepted, rewrites]

theorem Cut.fits {found : List Bytes} {q : HttpRequest} (cut : q.Cut found) :
    ∀ entry ∈ found.zip [10, 1024, 10], entry.1.length < entry.2 := by
  have urlFits := q.urlFits
  rw [← q.url_length] at urlFits
  have method := cut.method.length_le
  have url := cut.url.length_le
  have protocol := cut.protocol.length_le
  have methodFits := q.methodFits
  have protocolFits := q.protocolFits
  rcases found with _ | ⟨w₀, _ | ⟨w₁, _ | ⟨w₂, more⟩⟩⟩
  · simp
  · simp_all
    omega
  · simp_all
    omega
  · simp_all
    omega

/-- The path taken from a part of the URL is no longer than the whole path. -/
theorem pathOf_length {u : Bytes} (part : u <+: q.url) :
    (pathOf (u.drop 7)).length ≤ q.target.length := by
  obtain ⟨positive, path, _⟩ := q.target_length
  have inside : u.drop 7 <+: q.authority ++ q.path := by
    rw [← url_drop]
    exact part.drop 7
  unfold pathOf
  cases found : strchr (u.drop 7) 47 with
  | none => exact positive
  | some start =>
      refine Nat.le_trans ?_ path
      have noSlash {x : Bytes} (within : x <+: q.authority) : x.dropWhile (· ≠ 47) = [] := by
        refine List.dropWhile_eq_nil_iff.mpr fun b member => ?_
        simpa using q.authorityEnds b (within.subset member)
      rcases prefix_append_cases inside with ⟨within, _⟩ | ⟨t, inPath, through⟩
      · rw [strchr, noSlash within] at found
        cases found
      · have skipped : (u.drop 7).dropWhile (· ≠ 47) = t.dropWhile (· ≠ 47) := by
          rw [through]
          exact List.dropWhile_append_of_pos (by simpa using q.authorityEnds)
        have found' : strchr t 47 = some start := by
          rw [← found, strchr, strchr, skipped]
        exact (strchr_suffix found').length_le.trans inPath.length_le

/-- What is printed of a cut line is shorter than the line it should be. -/
theorem Cut.printed_length {found : List Bytes} {q : HttpRequest} (cut : q.Cut found)
    {line : LineArrays} (method : line.method.str = found[0]?.getD [])
    (url : line.url.str = found[1]?.getD []) (protocol : line.protocol.str = found[2]?.getD []) :
    (printedLine line).length < q.rewrittenLine.length := by
  have methodLength := cut.method.length_le
  have pathLength := q.pathOf_length cut.url
  have protocolLength : (found[2]?.getD []).length < q.protocol.length := by
    refine Nat.lt_of_le_of_ne cut.protocol.length_le fun same => ?_
    exact cut.short (cut.protocol.eq_of_length same)
  rw [← url] at pathLength
  rw [q.rewrittenLine_length]
  simp only [printedLine, List.length_append, method, protocol]
  rw [show (ascii " ").length = 1 from rfl, show (ascii "\r\n").length = 2 from rfl]
  omega

/-- When the line has not arrived to its end, less is sent than should be. -/
theorem sentToTarget_cut {b : Bytes} (part : b <+: q.line) (short : b ≠ q.line) :
    ∃ sent, sentToTarget .blank b = .ok sent ∧ sent.length < q.rewritten.length := by
  have lineLength := q.line_length
  have urlFits := q.urlFits
  have methodFits := q.methodFits
  have protocolFits := q.protocolFits
  have rewrittenLength : q.rewrittenLine.length ≤ q.rewritten.length :=
    (List.prefix_append _ _).length_le
  have positive : 0 < q.rewritten.length := by
    rw [q.rewrittenLine_length] at rewrittenLength
    omega
  have size : b.length < bufferSize := by
    have length := part.length_le
    simp only [bufferSize]
    omega
  obtain ⟨filled, fills, filledStr, _⟩ := fillBuffer_ok Frame.blank.buffer size
  rw [untilZero_eq_self fun c member => q.line_nonzero c (part.subset member)] at filledStr
  have nonzero : ∀ c ∈ filled.str, c ≠ 0 := fun _ => CArray.str_ne_zero
  have cut := q.cut_of_prefix part short
  rw [← filledStr] at cut
  have fits : TokensFit filled.str := cut.fits
  obtain ⟨line₁, scans₁, _⟩ := scanRequestLine_ok Frame.blank.parse nonzero fits
  obtain ⟨line₂, scans₂, ⟨method, url, protocol⟩⟩ :=
    scanRequestLine_ok Frame.blank.forward.line nonzero fits
  obtain ⟨parsed, parses⟩ := parseHttpRequest_ok Frame.blank.hostname scans₁
  rcases eq_or_ne b [] with none_ | some_
  · exact ⟨[], by simp [sentToTarget, none_], positive⟩
  cases accepted : parsed.accepted with
  | false => exact ⟨[], by simp [sentToTarget, some_, fills, parses, accepted], positive⟩
  | true =>
      cases http : startsWith line₂.url.str (ascii "http://") with
      | false =>
          have rewrites := modifiedRequest_none scans₂ http
          exact ⟨[], by simp [sentToTarget, some_, fills, parses, rewrites], positive⟩
      | true =>
          have printed := cut.printed_length method.blank url.blank protocol.blank
          have urlLength := cut.url.length_le
          rw [← url.blank, q.url_length] at urlLength
          have bounded : (printedLine line₂).length < bufferSize := by
            obtain ⟨_, _, targetLength⟩ := q.target_length
            rw [q.rewrittenLine_length] at printed
            simp only [bufferSize]
            omega
          have rewrites :=
            modifiedRequest_sent scans₂ http (Nat.lt_of_le_of_lt urlLength urlFits) bounded
          rw [strstr_eq_none (c := 10) (by decide) (by
            rw [filledStr]
            exact fun c member => q.line_lacks (by decide) (by decide) c (part.subset member))]
            at rewrites
          refine ⟨printedLine line₂, ?_, Nat.lt_of_lt_of_le printed rewrittenLength⟩
          simp [sentToTarget, some_, fills, parses, accepted, rewrites]

/-- What has to arrive with the first `recv` for the target to get everything:
    the whole request or, when nothing follows the first line, its tokens; and
    no zero byte behind the first line. -/
def Arrived (b : Bytes) : Prop :=
  (∀ c ∈ q.rest, c ≠ 0) ∧ (b = q.bytes ∨ (q.rest = [] ∧ q.line <+: b))

theorem sentToTarget_of_arrived (frame : Frame) {b : Bytes} (part : b <+: q.bytes)
    (size : b.length < bufferSize) (arrived : q.Arrived b) :
    sentToTarget frame b = .ok q.rewritten := by
  obtain ⟨noZero, enough⟩ := arrived
  have through : q.line <+: b := by
    rcases enough with rfl | ⟨_, through⟩
    · exact List.prefix_append _ _
    · exact through
  obtain ⟨t, rfl⟩ := through
  have behind : t <+: ascii "\r\n" ++ q.rest := (List.prefix_append_right_inj _).mp part
  rw [q.sentToTarget_line frame behind size, rewritten]
  have same : t.drop 2 = q.rest := by
    rcases enough with whole | ⟨none_, _⟩
    · rw [List.append_cancel_left whole]
      rfl
    · have inside : t.drop 2 <+: q.rest := behind.drop 2
      rw [none_] at inside ⊢
      exact List.prefix_nil.mp inside
  rw [same, untilZero_eq_self noZero]

/-- On a stack of zeros nothing else makes the right request. -/
theorem sentToTarget_blank {b : Bytes} (part : b <+: q.bytes) (size : b.length < bufferSize) :
    ∃ sent, sentToTarget .blank b = .ok sent ∧ (sent = q.rewritten → q.Arrived b) := by
  rcases prefix_append_cases part with ⟨inLine, short⟩ | ⟨t, behind, rfl⟩
  · obtain ⟨sent, sends, less⟩ := q.sentToTarget_cut inLine short
    refine ⟨sent, sends, fun same => ?_⟩
    rw [same] at less
    exact absurd less (Nat.lt_irrefl _)
  · refine ⟨_, q.sentToTarget_line .blank behind size, fun same => ?_⟩
    have rest : untilZero (t.drop 2) = q.rest := List.append_cancel_left same
    have inside : t.drop 2 <+: q.rest := behind.drop 2
    have whole : t.drop 2 = q.rest := by
      refine inside.eq_of_length (Nat.le_antisymm inside.length_le ?_)
      rw [← rest]
      exact length_untilZero_le _
    refine ⟨fun c member => untilZero_ne_zero (rest ▸ member), ?_⟩
    rcases eq_or_ne q.rest [] with none_ | some_
    · exact .inr ⟨none_, List.prefix_append _ _⟩
    · left
      have all : t = ascii "\r\n" ++ q.rest := by
        refine behind.eq_of_length (Nat.le_antisymm behind.length_le ?_)
        have length := congrArg List.length whole
        have positive := List.length_pos_iff.mpr some_
        rw [List.length_drop] at length
        rw [List.length_append, show (ascii "\r\n").length = 2 from rfl]
        omega
      rw [all]
      rfl

end HttpRequest

end SysProg.Proxy
