import SysProg.Lib.Scan

/-! # Parsing and rewriting the request

`parse_http_request` and the part of `forward_request` before its `send`.  The
local arrays start with whatever the stack holds, so they are parameters; a
write past one of them is an error.
-/

namespace SysProg.Proxy

open Fallible CString Scan

/-- `BUFFER_SIZE` -/
abbrev bufferSize : Nat := 4096

/-- `method`, `url` and `protocol` of one function, before it writes them. -/
structure LineArrays where
  method : CArray 10
  url : CArray 1024
  protocol : CArray 10

/-- The other local arrays of `forward_request`. -/
structure ForwardArrays where
  line : LineArrays
  path : CArray 1024
  modifiedRequest : CArray bufferSize

/-- `memset` and `recv` of `receive_client_request` on its buffer. -/
def fillBuffer (buffer : CArray bufferSize) (received : Bytes) :
    Except OutOfBounds (CArray bufferSize) := do
  let buffer ← buffer.zero bufferSize
  buffer.write 0 received

/-- `sscanf(buffer, "%s %s %s", method, url, protocol)`.  A space of the format
    skips nothing that the next `%s` would not skip. -/
def scanRequestLine (line : LineArrays) (buffer : Bytes) : Except OutOfBounds LineArrays :=
  match scanWord buffer with
  | none => .ok line
  | some (method, rest) => do
      let line := { line with method := ← line.method.store method }
      match scanWord rest with
      | none => return line
      | some (url, rest) =>
          let line := { line with url := ← line.url.store url }
          match scanWord rest with
          | none => return line
          | some (protocol, _) => return { line with protocol := ← line.protocol.store protocol }

/-- `sscanf(url + 7, "%255[^:/]:%d", hostname, port)` and its count. -/
def scanHostPort (s : Bytes) (hostname : CArray 256) (port : Int) :
    Except OutOfBounds (Nat × CArray 256 × Int) :=
  match scanSet 255 (fun b => b ≠ 58 && b ≠ 47) s with
  | none => .ok (0, hostname, port)
  | some (host, rest) => do
      let hostname ← hostname.store host
      match (scanLit 58 rest).bind scanInt with
      | none => return (1, hostname, port)
      | some (n, _) => return (2, hostname, n)

/-- `sscanf(url + 7, "%255[^/]", hostname)` and its count. -/
def scanHost (s : Bytes) (hostname : CArray 256) : Except OutOfBounds (Nat × CArray 256) :=
  match scanSet 255 (fun b => b ≠ 47) s with
  | none => .ok (0, hostname)
  | some (host, _) => do return (1, ← hostname.store host)

/-- What `parse_http_request` returns, and what it leaves in its two outputs. -/
structure Parsed where
  accepted : Bool
  hostname : CArray 256
  port : Int

def parseHttpRequest (line : LineArrays) (buffer : CArray bufferSize) (hostname : CArray 256) :
    Except OutOfBounds Parsed := do
  let line ← scanRequestLine line buffer.str
  let url := line.url.str
  let port := 80
  if startsWith url (ascii "http://") then
    let (count, hostname, port) ← scanHostPort (url.drop 7) hostname port
    if count = 2 then
      return ⟨true, hostname, port⟩
    else
      let (count, hostname) ← scanHost (url.drop 7) hostname
      if count = 1 then
        return ⟨true, hostname, port⟩
      else
        return ⟨false, hostname, port⟩
  else if startsWith url (ascii "https://") then
    return ⟨false, hostname, port⟩
  else
    return ⟨false, hostname, port⟩

/-- `path` of `forward_request`, from the URL behind `http://`. -/
def extractPath (path : CArray 1024) (rest : Bytes) : Except OutOfBounds (CArray 1024) :=
  match strchr rest 47 with
  | some pathStart => path.strncpy pathStart 1023
  | none => path.store (ascii "/")

/-- The part of `forward_request` before its `send`: the bytes it hands over,
    or `none` where it returns without sending. -/
def modifiedRequest (arrays : ForwardArrays) (buffer : CArray bufferSize) :
    Except OutOfBounds (Option Bytes) := do
  let path ← arrays.path.zero 1024
  let line ← scanRequestLine arrays.line buffer.str
  let url := line.url.str
  if startsWith url (ascii "http://") then
    let path ← extractPath path (url.drop 7)
    let modified ← arrays.modifiedRequest.snprintf bufferSize
      (line.method.str ++ ascii " " ++ path.str ++ ascii " " ++ line.protocol.str ++ ascii "\r\n")
    match strstr buffer.str (ascii "\r\n") with
    | some headers =>
        let modified ← modified.strncat (headers.drop 2) (bufferSize - modified.str.length - 1)
        return some modified.str
    | none => return some modified.str
  else
    return none

/-! ## The request line -/

/-- The words of the request line fit their arrays with the terminating zero. -/
def TokensFit (s : Bytes) : Prop :=
  ∀ entry ∈ (words 3 s).zip [10, 1024, 10], entry.1.length < entry.2

instance (s : Bytes) : Decidable (TokensFit s) := by
  unfold TokensFit
  infer_instance

/-- An array holds the word scanned into it, or what it held before. -/
def Filled {n : Nat} (before after : CArray n) : Option Bytes → Prop
  | some w => after.str = w
  | none => after = before

/-- What a scan of `s` leaves in the three arrays. -/
structure Scanned (line : LineArrays) (s : Bytes) (line' : LineArrays) : Prop where
  method : Filled line.method line'.method (words 3 s)[0]?
  url : Filled line.url line'.url (words 3 s)[1]?
  protocol : Filled line.protocol line'.protocol (words 3 s)[2]?

theorem scanRequestLine_ok (line : LineArrays) {s : Bytes} (nonzero : ∀ b ∈ s, b ≠ 0)
    (fits : TokensFit s) : ∃ line', scanRequestLine line s = .ok line' ∧ Scanned line s line' := by
  cases first : scanWord s with
  | none =>
      have none_ : words 3 s = [] := by simp [words, first]
      exact ⟨line, by simp [scanRequestLine, first], by constructor <;> simp [none_, Filled]⟩
  | some found =>
      obtain ⟨w₀, rest₀⟩ := found
      have nonzero₀ : ∀ b, b ∈ w₀ ∨ b ∈ rest₀ → b ≠ 0 :=
        fun b member => nonzero b (scanWord_mem first member)
      cases second : scanWord rest₀ with
      | none =>
          have one : words 3 s = [w₀] := by simp [words, first, second]
          obtain ⟨m, storeM, strM⟩ :=
            line.method.store_ok (fun b member => nonzero₀ b (.inl member))
            (fits (w₀, 10) (by simp [one]))
          refine ⟨{ line with method := m }, ?_, ?_⟩
          · simp [scanRequestLine, first, second, storeM]
          · constructor <;> simp [one, Filled, strM]
      | some found =>
          obtain ⟨w₁, rest₁⟩ := found
          have nonzero₁ : ∀ b, b ∈ w₁ ∨ b ∈ rest₁ → b ≠ 0 :=
            fun b member => nonzero₀ b (.inr (scanWord_mem second member))
          cases third : scanWord rest₁ with
          | none =>
              have two : words 3 s = [w₀, w₁] := by simp [words, first, second, third]
              obtain ⟨m, storeM, strM⟩ := line.method.store_ok
                (fun b member => nonzero₀ b (.inl member)) (fits (w₀, 10) (by simp [two]))
              obtain ⟨u, storeU, strU⟩ := line.url.store_ok
                (fun b member => nonzero₁ b (.inl member)) (fits (w₁, 1024) (by simp [two]))
              refine ⟨{ line with method := m, url := u }, ?_, ?_⟩
              · simp [scanRequestLine, first, second, third, storeM, storeU]
              · constructor <;> simp [two, Filled, strM, strU]
          | some found =>
              obtain ⟨w₂, rest₂⟩ := found
              have three : words 3 s = [w₀, w₁, w₂] := by simp [words, first, second, third]
              obtain ⟨m, storeM, strM⟩ := line.method.store_ok
                (fun b member => nonzero₀ b (.inl member)) (fits (w₀, 10) (by simp [three]))
              obtain ⟨u, storeU, strU⟩ := line.url.store_ok
                (fun b member => nonzero₁ b (.inl member)) (fits (w₁, 1024) (by simp [three]))
              obtain ⟨p, storeP, strP⟩ := line.protocol.store_ok
                (fun b member => nonzero₁ b (.inr (scanWord_mem third (.inl member))))
                (fits (w₂, 10) (by simp [three]))
              refine ⟨⟨m, u, p⟩, ?_, ?_⟩
              · simp [scanRequestLine, first, second, third, storeM, storeU, storeP]
              · constructor <;> simp [three, Filled, strM, strU, strP]

end SysProg.Proxy
