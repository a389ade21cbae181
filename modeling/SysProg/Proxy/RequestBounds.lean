import SysProg.Proxy.HttpRequest

/-! # Which requests stay inside the parser's arrays

The host is cut by its format, the path by its count, the rewritten line by its
size and the appended headers by the room that is left.  The three words of the
request line are cut by nothing: every write stays in bounds exactly when they
fit.
-/

namespace SysProg.Proxy

open Fallible CString Scan

/-- `receive_client_request` leaves the received bytes up to their first zero. -/
theorem fillBuffer_ok (buffer : CArray bufferSize) {received : Bytes}
    (size : received.length < bufferSize) :
    ∃ filled, fillBuffer buffer received = .ok filled ∧ filled.str = untilZero received ∧
      filled.cells.take received.length = received := by
  obtain ⟨cleared, cleaned, cells⟩ := buffer.zero_ok (Nat.le_refl bufferSize)
  have room : 0 + received.length ≤ bufferSize := by omega
  refine ⟨cleared.overwrite 0 received room, ?_, ?_, ?_⟩
  · simp [fillBuffer, cleaned, CArray.write_ok room]
  · -- the received bytes are followed by at least one zero of the `memset`
    have gap : (cleared.overwrite 0 received room).cells =
        received ++ 0 :: (List.replicate (bufferSize - received.length - 1) 0 ++
          buffer.cells.drop bufferSize) := by
      simp only [CArray.overwrite, cells, List.take_zero, List.nil_append, Nat.zero_add]
      rw [List.drop_append_of_le_length (by simp; omega), List.drop_replicate,
        zeros_of_lt size, List.cons_append]
    rw [CArray.str, gap, untilZero_append_zero]
  · simp [CArray.overwrite]

/-- The scan of the request line succeeds only when the words fit. -/
theorem tokensFit_of_scan {line line' : LineArrays} {s : Bytes}
    (done : scanRequestLine line s = .ok line') : TokensFit s := by
  unfold scanRequestLine at done
  cases first : scanWord s with
  | none => simp [TokensFit, words, first]
  | some found =>
      obtain ⟨method, rest⟩ := found
      simp only [first] at done
      obtain ⟨m, storeM, done⟩ := bind_eq_ok.mp done
      have fitsM := CArray.store_eq_ok storeM
      cases second : scanWord rest with
      | none => simpa [TokensFit, words, first, second] using fitsM
      | some found =>
          obtain ⟨url, rest⟩ := found
          simp only [second] at done
          obtain ⟨u, storeU, done⟩ := bind_eq_ok.mp done
          have fitsU := CArray.store_eq_ok storeU
          cases third : scanWord rest with
          | none => simpa [TokensFit, words, first, second, third] using ⟨fitsM, fitsU⟩
          | some found =>
              obtain ⟨protocol, rest⟩ := found
              simp only [third] at done
              obtain ⟨p, storeP, done⟩ := bind_eq_ok.mp done
              have fitsP := CArray.store_eq_ok storeP
              simpa [TokensFit, words, first, second, third] using ⟨fitsM, fitsU, fitsP⟩

theorem scanHostPort_ok {s : Bytes} (hostname : CArray 256) (port : Int)
    (nonzero : ∀ b ∈ s, b ≠ 0) : ∃ out, scanHostPort s hostname port = .ok out := by
  unfold scanHostPort
  cases found : scanSet 255 (fun b => b ≠ 58 && b ≠ 47) s with
  | none => exact ⟨_, rfl⟩
  | some pair =>
      obtain ⟨host, rest⟩ := pair
      obtain ⟨short, inside⟩ := scanSet_eq_some found
      obtain ⟨h, stored, _⟩ := hostname.store_ok (fun b member => nonzero b (inside b member))
        (Nat.lt_succ_of_le short)
      cases number : (scanLit 58 rest).bind scanInt <;> simp [stored, number]

theorem scanHost_ok {s : Bytes} (hostname : CArray 256) (nonzero : ∀ b ∈ s, b ≠ 0) :
    ∃ out, scanHost s hostname = .ok out := by
  unfold scanHost
  cases found : scanSet 255 (fun b => b ≠ 47) s with
  | none => exact ⟨_, rfl⟩
  | some pair =>
      obtain ⟨host, rest⟩ := pair
      obtain ⟨short, inside⟩ := scanSet_eq_some found
      obtain ⟨h, stored, _⟩ := hostname.store_ok (fun b member => nonzero b (inside b member))
        (Nat.lt_succ_of_le short)
      simp [stored]

/-- Behind the scan of the request line `parse_http_request` writes in bounds. -/
theorem parseHttpRequest_ok {line line' : LineArrays} {buffer : CArray bufferSize}
    (hostname : CArray 256) (scanned : scanRequestLine line buffer.str = .ok line') :
    ∃ parsed, parseHttpRequest line buffer hostname = .ok parsed := by
  have nonzero : ∀ b ∈ line'.url.str.drop 7, b ≠ 0 :=
    fun b member => CArray.str_ne_zero (List.mem_of_mem_drop member)
  obtain ⟨⟨count, hostname₁, port⟩, both⟩ := scanHostPort_ok hostname 80 nonzero
  obtain ⟨⟨count', hostname₂⟩, only⟩ := scanHost_ok hostname₁ nonzero
  simp only [parseHttpRequest, scanned, both, only, ok_bind, pure_eq_ok]
  split
  · split
    · exact ⟨_, rfl⟩
    · split <;> exact ⟨_, rfl⟩
  · split <;> exact ⟨_, rfl⟩

theorem extractPath_ok (path : CArray 1024) (rest : Bytes) :
    ∃ path', extractPath path rest = .ok path' := by
  unfold extractPath
  cases strchr rest 47 with
  | some pathStart => exact path.strncpy_fits (by decide)
  | none =>
      obtain ⟨path', stored, _⟩ := path.store_ok (s := ascii "/") (by decide) (by decide)
      exact ⟨path', stored⟩

/-- Behind the scan of the request line `forward_request` writes in bounds. -/
theorem modifiedRequest_ok {arrays : ForwardArrays} {line' : LineArrays}
    {buffer : CArray bufferSize} (scanned : scanRequestLine arrays.line buffer.str = .ok line') :
    ∃ sent, modifiedRequest arrays buffer = .ok sent := by
  obtain ⟨cleared, cleaned, _⟩ := arrays.path.zero_ok (Nat.le_refl 1024)
  simp only [modifiedRequest, cleaned, scanned, ok_bind, pure_eq_ok]
  split
  · obtain ⟨path, extracted⟩ := extractPath_ok cleared (line'.url.str.drop 7)
    have nonzero : ∀ b ∈ line'.method.str ++ ascii " " ++ path.str ++ ascii " " ++
        line'.protocol.str ++ ascii "\r\n", b ≠ 0 := by
      have space : ∀ b ∈ ascii " ", b ≠ 0 := by decide
      have crlf : ∀ b ∈ ascii "\r\n", b ≠ 0 := by decide
      have text {n : Nat} (a : CArray n) : ∀ b ∈ a.str, b ≠ 0 := fun _ => CArray.str_ne_zero
      simp only [List.forall_mem_append]
      exact ⟨⟨⟨⟨⟨text _, space⟩, text _⟩, space⟩, text _⟩, crlf⟩
    obtain ⟨modified, printed, str⟩ :=
      arrays.modifiedRequest.snprintf_ok nonzero (Nat.zero_lt_succ 4095)
    simp only [extracted, printed, ok_bind]
    cases found : strstr buffer.str (ascii "\r\n") with
    | none => exact ⟨_, rfl⟩
    | some headers =>
        have terminated : modified.str.length < bufferSize := by
          rw [str]
          exact Nat.lt_of_le_of_lt (List.length_take_le _ _) (by decide)
        have kept : ∀ b ∈ headers.drop 2, b ≠ 0 := fun b member =>
          CArray.str_ne_zero (strstr_mem found (List.mem_of_mem_drop member))
        obtain ⟨joined, appended, _⟩ := CArray.strncat_ok kept terminated
        simp only [appended, ok_bind]
        exact ⟨_, rfl⟩
  · exact ⟨_, rfl⟩

/-- Both functions write in bounds when the words of the first line fit. -/
theorem bounds_of_tokensFit {buffer : CArray bufferSize} (fits : TokensFit buffer.str)
    (line : LineArrays) (hostname : CArray 256) (arrays : ForwardArrays) :
    (∃ parsed, parseHttpRequest line buffer hostname = .ok parsed) ∧
      ∃ sent, modifiedRequest arrays buffer = .ok sent := by
  have nonzero : ∀ b ∈ buffer.str, b ≠ 0 := fun _ => CArray.str_ne_zero
  obtain ⟨line', scanned, _⟩ := scanRequestLine_ok line nonzero fits
  obtain ⟨line'', scanned', _⟩ := scanRequestLine_ok arrays.line nonzero fits
  exact ⟨parseHttpRequest_ok hostname scanned, modifiedRequest_ok scanned'⟩

/-- Whatever the arrays hold before, receiving, parsing and rewriting a request
    write in bounds exactly when the words of its first line fit. -/
theorem request_writes_in_bounds_iff (received : Bytes) (size : received.length < bufferSize)
    (buffer : CArray bufferSize) (line : LineArrays) (hostname : CArray 256)
    (arrays : ForwardArrays) :
    (∃ filled parsed sent, fillBuffer buffer received = .ok filled ∧
        parseHttpRequest line filled hostname = .ok parsed ∧
        modifiedRequest arrays filled = .ok sent) ↔
      TokensFit (untilZero received) := by
  obtain ⟨filled, fills, str, _⟩ := fillBuffer_ok buffer size
  constructor
  · rintro ⟨filled', parsed, sent, fills', parses, _⟩
    obtain rfl : filled = filled' := Except.ok.inj (fills.symm.trans fills')
    obtain ⟨line', scanned, _⟩ := bind_eq_ok.mp parses
    rw [← str]
    exact tokensFit_of_scan scanned
  · intro fits
    rw [← str] at fits
    obtain ⟨⟨parsed, parses⟩, sent, rewrites⟩ := bounds_of_tokensFit fits line hostname arrays
    exact ⟨filled, parsed, sent, fills, parses, rewrites⟩

/-- An ordinary request stays in bounds. -/
theorem request_writes_in_bounds_iff_get :
    ∃ filled parsed sent,
      fillBuffer (.blank bufferSize) (ascii "GET http://a/b HTTP/1.1\r\n\r\n") = .ok filled ∧
      parseHttpRequest ⟨.blank 10, .blank 1024, .blank 10⟩ filled (.blank 256) = .ok parsed ∧
      modifiedRequest ⟨⟨.blank 10, .blank 1024, .blank 10⟩, .blank 1024, .blank bufferSize⟩ filled =
        .ok sent :=
  (request_writes_in_bounds_iff _ (by decide) _ _ _ _).mpr (by decide)

/-- A method of ten letters writes its terminating zero behind `method`. -/
theorem long_method_overflows :
    (ascii "AAAAAAAAAA http://a/b HTTP/1.1\r\n\r\n").length < bufferSize ∧
    ∃ filled,
      fillBuffer (.blank bufferSize) (ascii "AAAAAAAAAA http://a/b HTTP/1.1\r\n\r\n") =
        .ok filled ∧
      parseHttpRequest ⟨.blank 10, .blank 1024, .blank 10⟩ filled (.blank 256) =
        .error .outOfBounds := by
  have small : (ascii "AAAAAAAAAA http://a/b HTTP/1.1\r\n\r\n").length < bufferSize := by decide
  obtain ⟨filled, fills, str, _⟩ := fillBuffer_ok (.blank bufferSize) small
  refine ⟨small, filled, fills, ?_⟩
  cases parses : parseHttpRequest ⟨.blank 10, .blank 1024, .blank 10⟩ filled (.blank 256) with
  | error fault => rfl
  | ok parsed =>
      obtain ⟨line', scanned, _⟩ := bind_eq_ok.mp parses
      have fits := tokensFit_of_scan scanned
      rw [str] at fits
      exact absurd fits (by decide)

end SysProg.Proxy
