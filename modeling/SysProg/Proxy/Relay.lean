import SysProg.Proxy.Network

/-! # What the two ends get

The proxy relays with one `recv` and one `send` in each direction.  The client
gets the response exactly when one piece carries all of it and is taken whole;
the target gets the request exactly when enough of it comes with the first
piece.
-/

namespace SysProg.Proxy

open Fallible CString Scan Arrival Interaction

variable {A : Type}

/-- The run of a request for which nothing fails. -/
theorem exists_handled (a : A) {s : Net} (frame : Frame) {sent : Bytes}
    (fresh : s.connected = false) (fine : s.failed = false)
    (sends : sentToTarget frame (firstOf s.request) = .ok sent) :
    ∃ s', Runs net (handleClientRequest (A := A) frame s.client) s (.returned ()) s' ∧
      s'.failed = false ∧ s'.handedOver = s.handedOver ++ sent ∧
      (sent ≠ [] → s'.connected = true) := by
  obtain ⟨out, s', run, fine'⟩ := exists_run a fine (handleClientRequest frame s.client)
  have ends := (handleClientRequest_ensures frame fresh).sound run
  cases out with
  | returned u =>
      obtain ⟨bytes, sends', handedOver, reached⟩ := Handled.sent ends fine'
      obtain rfl : sent = bytes := Except.ok.inj (sends.symm.trans sends')
      exact ⟨s', run, fine', handedOver, reached⟩
  | halted h =>
      rcases ends with failed | ⟨fault, error⟩
      · rw [fine'] at failed
        cases failed
      · rw [sends] at error
        cases error

/-! ## The response -/

/-- Once a target was reached, the client has its whole response exactly when
    the response came in at most one piece of at most 4095 bytes and `send` took
    all of it. -/
theorem response_relayed_iff {frame : Frame} {s s' : Net} (fresh : s.connected = false)
    (run : Runs net (handleClientRequest (A := A) frame s.client) s (.returned ()) s')
    (reached : s'.connected = true) :
    s'.toClient = s.toClient ++ stream s.response ↔
      (s.response = [] ∨ ∃ segment, s.response = [segment] ∧ segment.val.length ≤ 4095) ∧
        s.taken (stream s.response).length = (stream s.response).length := by
  have handled : Handled frame s s' := (handleClientRequest_ensures frame fresh).sound run
  have conserved : firstOf s.response ++ stream (afterFirst s.response) = stream s.response :=
    arrive_conserves _ _
  rw [handled.delivered reached, List.append_cancel_left_eq, ← arrive_whole]
  change _ ↔ firstOf s.response = stream s.response ∧ _
  constructor
  · intro same
    have shorter :=
      List.length_take_le' (s.taken (firstOf s.response).length) (firstOf s.response)
    have length := congrArg List.length conserved
    rw [same] at shorter
    rw [List.length_append] at length
    have whole : firstOf s.response = stream s.response := by
      rw [← conserved, List.self_eq_append_right, ← List.length_eq_zero_iff]
      omega
    refine ⟨whole, ?_⟩
    rw [whole] at same
    have taken := congrArg List.length same
    rw [List.length_take] at taken
    have atMost : s.taken (stream s.response).length ≤ (stream s.response).length :=
      Nat.min_le_left _ _
    omega
  · rintro ⟨whole, taken⟩
    rw [whole, taken, List.take_length]

/-- A connection whose client sends one small request and whose target answers
    with the given pieces. -/
def answering (response : Wire) : Net where
  client := 4
  request := [⟨(getRequest (ascii "\r\n")).bytes, by decide⟩]
  response := response
  takes := []
  toClient := []
  handedOver := []
  connected := false
  failed := false

theorem answering_sends (response : Wire) :
    sentToTarget .blank (firstOf (answering response).request) =
      .ok (getRequest (ascii "\r\n")).rewritten :=
  (getRequest (ascii "\r\n")).sentToTarget_of_arrived .blank (List.prefix_refl _) (firstOf_fits _)
    ⟨by decide, .inl rfl⟩

/-- A response in one piece reaches the client. -/
theorem response_relayed_iff_one_piece :
    ∃ s s' : Net, s.response = [⟨ascii "HTTP/1.1 200 OK\r\n\r\n", by decide⟩] ∧
      Runs (net (A := Unit)) (handleClientRequest .blank s.client) s (.returned ()) s' ∧
      s'.connected = true ∧ s'.toClient = s.toClient ++ ascii "HTTP/1.1 200 OK\r\n\r\n" := by
  obtain ⟨s', run, _, _, reached⟩ := exists_handled () .blank rfl rfl
    (answering_sends [⟨ascii "HTTP/1.1 200 OK\r\n\r\n", by decide⟩])
  exact ⟨_, s', rfl, run, reached (by decide),
    (response_relayed_iff rfl run (reached (by decide))).mpr ⟨.inr ⟨_, rfl, by decide⟩, rfl⟩⟩

/-- A response in two pieces is cut behind the first. -/
theorem second_piece_dropped :
    ∃ s s' : Net,
      s.response = [⟨ascii "HTTP/1.1 200 OK\r\n\r\n", by decide⟩, ⟨ascii "hello", by decide⟩] ∧
      Runs (net (A := Unit)) (handleClientRequest .blank s.client) s (.returned ()) s' ∧
      s'.connected = true ∧ s'.toClient = s.toClient ++ ascii "HTTP/1.1 200 OK\r\n\r\n" ∧
      s'.toClient ≠ s.toClient ++ stream s.response := by
  obtain ⟨s', run, _, _, reached⟩ := exists_handled () .blank rfl rfl
    (answering_sends [⟨ascii "HTTP/1.1 200 OK\r\n\r\n", by decide⟩, ⟨ascii "hello", by decide⟩])
  have handled := (handleClientRequest_ensures .blank rfl).sound run
  have connected := reached (by decide)
  have delivered := Handled.delivered handled connected
  refine ⟨_, s', rfl, run, connected, delivered, ?_⟩
  rw [delivered]
  decide

/-! ## The request -/

/-- Whatever the stack holds, a request that arrives as `w` makes the target get
    the rewritten request, when no call fails. -/
def Relayed (A : Type) (q : HttpRequest) (w : Wire) : Prop :=
  ∀ (frame : Frame) (s s' : Net), s.request = w → s.connected = false → s.failed = false →
    Runs (net (A := A)) (handleClientRequest frame s.client) s (.returned ()) s' →
    s'.failed = false → s'.handedOver = s.handedOver ++ q.rewritten

theorem relayed_iff_arrived (a : A) (q : HttpRequest) {w : Wire} (whole : stream w = q.bytes) :
    Relayed A q w ↔ q.Arrived (firstOf w) := by
  have part : firstOf w <+: q.bytes := by
    rw [← whole]
    exact ⟨_, arrive_conserves _ _⟩
  have size := firstOf_fits w
  constructor
  · intro relayed
    obtain ⟨sent, sends, enough⟩ := q.sentToTarget_blank part size
    let s : Net :=
      { client := 0, request := w, response := [], takes := [], toClient := [], handedOver := []
        connected := false, failed := false }
    obtain ⟨s', run, fine, handedOver, _⟩ := exists_handled a (s := s) .blank rfl rfl sends
    have right := relayed .blank s s' rfl rfl rfl run fine
    rw [handedOver] at right
    exact enough (List.append_cancel_left right)
  · intro arrived frame s s' same fresh _ run fine
    have handled := (handleClientRequest_ensures frame fresh).sound run
    obtain ⟨bytes, sends, handedOver, _⟩ := Handled.sent handled fine
    rw [same, q.sentToTarget_of_arrived frame part size arrived] at sends
    rw [handedOver, Except.ok.inj sends]

/-- Two ways of splitting one request make the target get the same bytes, the
    rewritten line and everything behind it, exactly when with either way enough
    of the request comes with the first piece. -/
theorem request_relayed_iff (a : A) (q : HttpRequest) {w₁ w₂ : Wire}
    (whole₁ : stream w₁ = q.bytes) (whole₂ : stream w₂ = q.bytes) :
    (Relayed A q w₁ ∧ Relayed A q w₂) ↔ q.Arrived (firstOf w₁) ∧ q.Arrived (firstOf w₂) :=
  and_congr (relayed_iff_arrived a q whole₁) (relayed_iff_arrived a q whole₂)

/-- A request that ends with its first line may come without the line end. -/
theorem request_relayed_iff_line :
    Relayed Unit (getRequest []) [⟨(getRequest []).bytes, by decide⟩] ∧
    Relayed Unit (getRequest []) [⟨(getRequest []).line, by decide⟩, ⟨ascii "\r\n", by decide⟩] :=
  (request_relayed_iff () (getRequest []) (by decide) (by decide)).mpr
    ⟨⟨by decide, .inl rfl⟩, ⟨by decide, .inr ⟨rfl, List.prefix_refl _⟩⟩⟩

/-- Headers that come with the second piece do not reach the target. -/
theorem split_request_truncated :
    stream [⟨(getRequest (ascii "A: b\r\n\r\n")).line ++ ascii "\r\n", by decide⟩,
      ⟨ascii "A: b\r\n\r\n", by decide⟩] = (getRequest (ascii "A: b\r\n\r\n")).bytes ∧
    ¬ Relayed Unit (getRequest (ascii "A: b\r\n\r\n"))
      [⟨(getRequest (ascii "A: b\r\n\r\n")).line ++ ascii "\r\n", by decide⟩,
        ⟨ascii "A: b\r\n\r\n", by decide⟩] := by
  refine ⟨by decide, fun relayed => ?_⟩
  obtain ⟨_, whole | ⟨none_, _⟩⟩ :=
    (relayed_iff_arrived () (getRequest (ascii "A: b\r\n\r\n")) (by decide)).mp relayed
  · exact absurd whole (by decide)
  · exact absurd none_ (by decide)

end SysProg.Proxy
