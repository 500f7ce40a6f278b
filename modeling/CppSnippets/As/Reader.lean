import CppSnippets.As.Sender
import CppSnippets.Lib.Run
import CppSnippets.Push.Http

/-!
# The reader of the echo server

`Http_reader_impl` reads a request line, header lines and a content, and hands the
request on. The content is read with `transfer_at_least` of its whole length, whatever
part of it the buffer has already. The regular expression for a header line is a
parameter.
-/
namespace CppSnippets.As

open CppSnippets.Lib
open CppSnippets.Push (getline lexicalInt resize)
open CppSnippets.Wap (Bytes bytes search word)

/-- The operation that the reader waits for. -/
inductive Phase where
  | methodLine
  | headers
  /-- `async_read` of at least so many bytes, with those that it has transferred. -/
  | content (least transferred : Nat)
  /-- `_error` has been called. -/
  | failed
  /-- An exception has left the handler. -/
  | threw
  deriving DecidableEq

/-- `Http_reader_impl`, with the requests that it has handed on. -/
structure Reader where
  phase : Phase
  rsbuf : Bytes
  req : HttpRequest
  handed : List HttpRequest

/-- `http_request()`. -/
def HttpRequest.empty : HttpRequest := ⟨[], [], [], [], []⟩

/-- `headers[k] = val`. -/
def setHeader (k val : Bytes) : List (Bytes × Bytes) → List (Bytes × Bytes)
  | [] => [(k, val)]
  | (k', v) :: headers =>
    if k' = k then (k', val) :: headers else (k', v) :: setHeader k val headers

/-- The two names that the code knows. -/
def isContentLength (k : Bytes) : Bool :=
  k == bytes "Content-Length" || k == bytes "Content-length"

/-- `lexical_cast<int>` and `resize` to it: the length, none where one of them throws. -/
def contentSize (val : Bytes) : Option Nat :=
  match lexicalInt val with
  | none => none
  | some n => if n < 0 then none else some n.toNat

variable (headerLine : Bytes → Option (Bytes × Bytes))

/-- One header line of a request; none where it throws. -/
def addHeader (req : HttpRequest) (line : Bytes) : Option HttpRequest :=
  match headerLine line with
  | none => some req
  | some (k, val) =>
    let req := { req with headers := setHeader k val req.headers }
    if isContentLength k then (contentSize val).map fun n => { req with cont := resize req.cont n }
    else some req

/-- The loop of `handle_headers`: the request and what is left of the buffer. -/
def headerLoop : Nat → HttpRequest → Bytes → Option (HttpRequest × Bytes)
  | 0, req, sb => some (req, sb)
  | n + 1, req, sb =>
    match getline sb with
    | none => some (req, [])
    | some (line, rest) =>
      if line = [13] ∨ line = [] then some (req, rest)
      else (addHeader headerLine req line).bind fun req => headerLoop n req rest

namespace Reader

/-- The operation that the reader waits for is complete. -/
def ready (r : Reader) : Bool :=
  match r.phase with
  | .methodLine => decide (search (bytes "\r\n") r.rsbuf < r.rsbuf.length)
  | .headers => decide (search (bytes "\r\n\r\n") r.rsbuf < r.rsbuf.length)
  | .content least transferred => decide (least ≤ transferred)
  | .failed | .threw => false

/-- `handle_method_line`, without an error. -/
def handleMethodLine (r : Reader) : Reader :=
  let (method, s) := word r.rsbuf
  if method = [] then { r with rsbuf := s, req := { HttpRequest.empty with method := method } }
  else
    let (uri, s) := word s
    let (httpVersion, s) := word s
    let rest := match getline s with
      | none => []
      | some (_, rest) => rest
    { r with
      phase := .headers
      rsbuf := rest
      req := { HttpRequest.empty with method := method, uri := uri, httpVersion := httpVersion } }

/-- `handle_headers`, without an error. -/
def handleHeaders (r : Reader) : Reader :=
  match headerLoop headerLine (r.rsbuf.length + 1) r.req r.rsbuf with
  | none => { r with phase := .threw }
  | some (req, rest) => { r with phase := .content req.cont.length 0, rsbuf := rest, req := req }

/-- `handle_content`, without an error. -/
def handleContent (r : Reader) : Reader :=
  let n := r.req.cont.length
  let req := { r.req with cont := r.rsbuf.take n ++ r.req.cont.drop r.rsbuf.length }
  ⟨.methodLine, r.rsbuf.drop n, req, r.handed ++ [req]⟩

/-- The handler of the operation that the reader waits for. -/
def handle (r : Reader) : Reader :=
  match r.phase with
  | .methodLine => r.handleMethodLine
  | .headers => r.handleHeaders headerLine
  | .content _ _ => r.handleContent
  | .failed | .threw => r

/-- A read of the pending operation. -/
def receive (r : Reader) (b : Bytes) : Reader :=
  { r with
    rsbuf := r.rsbuf ++ b
    phase := match r.phase with
      | .content least transferred => .content least (transferred + b.length)
      | phase => phase }

/-- The reader waits for an operation. -/
def reading (r : Reader) : Bool :=
  match r.phase with
  | .methodLine | .headers | .content _ _ => true
  | .failed | .threw => false

end Reader

inductive ReaderEvent where
  /-- The pending operation is not complete and reads bytes. -/
  | received (b : Bytes)
  /-- The pending operation fails. -/
  | failed
  /-- The pending operation is complete and its handler runs. -/
  | handled

def ReaderStep (r : Reader) (ev : ReaderEvent) (s : Reader) : Prop :=
  match ev with
  | .received b => r.reading = true ∧ r.ready = false ∧ b ≠ [] ∧ s = r.receive b
  | .failed => r.reading = true ∧ r.ready = false ∧ s = { r with phase := .failed }
  | .handled => r.ready = true ∧ s = r.handle headerLine

end CppSnippets.As
