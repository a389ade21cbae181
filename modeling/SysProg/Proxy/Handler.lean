import SysProg.Lib.Interaction
import SysProg.Proxy.HttpRequest

/-! # Handling one connection

The functions of the proxy that call the operating system, as programs over
those calls: one pass of `main`'s accept loop, and the handling of the request
by a worker.  Descriptors are C ints.  Local variables that are read before the
code has written them start with whatever the stack holds (`Frame`).
-/

namespace SysProg.Proxy

open CString Interaction

abbrev Addr := Nat

/-- The `int` that `main` allocates for a socket: where it is and what it holds. -/
structure Cell where
  addr : Addr
  value : Int
  deriving DecidableEq, Repr

/-- The calls of the proxy; `A` is an entry of the list of `getaddrinfo`. -/
inductive Call (A : Type) where
  | accept
  | mallocInt
  | mallocRequest
  | free (p : Addr)
  /-- `queue_enqueue` of a request whose argument is the cell. -/
  | enqueue (arg : Cell)
  | recv (fd : Int) (size : Nat)
  | send (fd : Int) (bytes : Bytes) (nosignal : Bool)
  | close (fd : Int)
  | getaddrinfo (hostname port : Bytes)
  | freeaddrinfo (result : List A)
  | socket (p : A)
  /-- `connect` to `p->ai_addr`; `next` is where `p->ai_next` leads. -/
  | connect (fd : Int) (p : A) (next : List A)

/-- What the calls return: descriptors as ints, a failure of the others as
    `none`, and of `connect` whether it returned 0. -/
abbrev Call.Answer {A : Type} : Call A → Type
  | .accept | .socket _ => Int
  | .mallocInt => Option Addr
  | .mallocRequest | .connect .. => Bool
  | .recv .. => Option Bytes
  | .send .. => Option Nat
  | .getaddrinfo .. => Option (List A)
  | .free _ | .enqueue _ | .close _ | .freeaddrinfo _ => Unit

/-- How the proxy's code ends the process by itself. -/
inductive Stop where
  /-- `exit` with a failure status. -/
  | exitFailure
  /-- A write outside an array, after which anything can happen. -/
  | undefined
  deriving DecidableEq

abbrev calls (A : Type) : Interface := ⟨Call A, Call.Answer⟩

abbrev ProxyProg (A α : Type) := Prog (calls A) Stop α

section

variable {A : Type}

/-- One call. -/
def invoke (e : Call A) : ProxyProg A e.Answer := Prog.perform (I := calls A) e

def accept : ProxyProg A Int := invoke .accept
def mallocInt : ProxyProg A (Option Addr) := invoke .mallocInt
def mallocRequest : ProxyProg A Bool := invoke .mallocRequest
def free (p : Addr) : ProxyProg A Unit := invoke (.free p)
def queueEnqueue (arg : Cell) : ProxyProg A Unit := invoke (.enqueue arg)
def recv (fd : Int) (size : Nat) : ProxyProg A (Option Bytes) := invoke (.recv fd size)
def send (fd : Int) (bytes : Bytes) (nosignal : Bool) : ProxyProg A (Option Nat) :=
  invoke (.send fd bytes nosignal)
def close (fd : Int) : ProxyProg A Unit := invoke (.close fd)
def getaddrinfo (hostname port : Bytes) : ProxyProg A (Option (List A)) :=
  invoke (.getaddrinfo hostname port)
def freeaddrinfo (result : List A) : ProxyProg A Unit := invoke (.freeaddrinfo result)
def socket (p : A) : ProxyProg A Int := invoke (.socket p)
def connect (fd : Int) (p : A) (next : List A) : ProxyProg A Bool :=
  invoke (.connect fd p next)

/-- A computation on the local arrays. -/
def inBounds {α : Type} (x : Except OutOfBounds α) : ProxyProg A α := Prog.checked .undefined x

/-! ## A worker's part -/

/-- The local variables of the functions below `handle_client_request` that can
    be read before they are written. -/
structure Frame where
  buffer : CArray bufferSize
  hostname : CArray 256
  parse : LineArrays
  forward : ForwardArrays
  response : CArray bufferSize
  sockfd : Int

/-- A stack of zeros. -/
def Frame.blank : Frame where
  buffer := .blank bufferSize
  hostname := .blank 256
  parse := ⟨.blank 10, .blank 1024, .blank 10⟩
  forward := ⟨⟨.blank 10, .blank 1024, .blank 10⟩, .blank 1024, .blank bufferSize⟩
  response := .blank bufferSize
  sockfd := 0

/-- `none` where the C function returns false. -/
def receiveClientRequest (clientSocket : Int) (buffer : CArray bufferSize) :
    ProxyProg A (Option (CArray bufferSize)) := do
  match ← recv clientSocket (bufferSize - 1) with
  | none => return none
  | some [] => return none
  | some received => return some (← inBounds (fillBuffer buffer received))

/-- The loop over the addresses: it leaves at the first that connects, and
    otherwise ends with whatever `sockfd` holds last. -/
def connectLoop (sockfd : Int) : List A → ProxyProg A Int
  | [] => return sockfd
  | p :: next => do
      let sockfd ← socket p
      if sockfd < 0 then
        connectLoop sockfd next
      else if ← connect sockfd p next then
        return sockfd
      else
        close sockfd
        connectLoop sockfd next

theorem connectLoop_cons (sockfd : Int) (p : A) (next : List A) :
    connectLoop sockfd (p :: next) = .call (.socket p) fun fd =>
      if fd < 0 then connectLoop fd next
      else .call (.connect fd p next) fun ok =>
        if ok then .ret fd else .call (.close fd) fun _ => connectLoop fd next := rfl

/-- `snprintf(port_str, 6, "%d", port)` -/
def portStr (port : Int) : Bytes := (ascii (toString port)).take 5

def connectToTargetServer (sockfd : Int) (hostname : Bytes) (port : Int) : ProxyProg A Int := do
  match ← getaddrinfo hostname (portStr port) with
  | none => return -1
  | some result =>
      let sockfd ← connectLoop sockfd result
      freeaddrinfo result
      return sockfd

def forwardRequest (arrays : ForwardArrays) (targetSocket : Int) (buffer : CArray bufferSize) :
    ProxyProg A Unit := do
  match ← inBounds (modifiedRequest arrays buffer) with
  | none => return ()
  | some modified =>
      -- a failure of this `send` is only reported
      let _ ← send targetSocket modified true
      return ()

def forwardResponse (buffer : CArray bufferSize) (targetSocket clientSocket : Int) :
    ProxyProg A Unit := do
  match ← recv targetSocket (bufferSize - 1) with
  | none => .halt .exitFailure
  | some received =>
      let buffer ← inBounds (fillBuffer buffer received)
      match ← send clientSocket (buffer.cells.take received.length) false with
      | none => .halt .exitFailure
      | some _ => return ()

def handleClientRequest (frame : Frame) (clientSocket : Int) : ProxyProg A Unit := do
  match ← receiveClientRequest clientSocket frame.buffer with
  | none => return ()
  | some buffer =>
      let parsed ← inBounds (parseHttpRequest frame.parse buffer frame.hostname)
      if !parsed.accepted then
        return ()
      else
        let targetSocket ← connectToTargetServer frame.sockfd parsed.hostname.str parsed.port
        if targetSocket < 0 then
          return ()
        else
          forwardRequest frame.forward targetSocket buffer
          forwardResponse frame.response targetSocket clientSocket
          close targetSocket
          close clientSocket

def handleClientRequestThread (frame : Frame) (arg : Cell) : ProxyProg A Unit := do
  let clientSocket := arg.value
  free arg.addr
  handleClientRequest frame clientSocket

/-! ## Main's part -/

/-- One pass of the accept loop, with the cell it hands to the queue. -/
def acceptPass : ProxyProg A (Option Cell) := do
  let newsockfd ← accept
  if newsockfd < 0 then
    .halt .exitFailure
  else
    match ← mallocInt with
    | none => return none
    | some clientSocketPtr =>
        if ← mallocRequest then
          let arg : Cell := ⟨clientSocketPtr, newsockfd⟩
          queueEnqueue arg
          return some arg
        else
          free clientSocketPtr
          return none

end

end SysProg.Proxy
