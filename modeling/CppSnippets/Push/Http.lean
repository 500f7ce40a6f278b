import CppSnippets.Lib.Run
import CppSnippets.Wap.Text

/-!
# The client side of the push proxy

A connection reads requests one after the other into one `request` object: a
request line, header lines, and as many bytes of content as `Content-Length`
says. It is handed to the message handler whole, and the next request is read
into the same object. `make_error_code` turns every parse error into success. The
regular expressions and `urldecode` are parameters.
-/
namespace CppSnippets.Push

open CppSnippets.Wap (Byte Bytes bytes isspace isdigit decimal find search)

/-- What the code takes from the libraries: the request line and the header line,
where they match, and `urldecode`. -/
structure Grammar where
  statusLine : Bytes → Option (Bytes × Bytes)
  headerLine : Bytes → Option (Bytes × Bytes)
  urldecode : Bytes → Bytes

/-- `keyvalues`: `insert` puts an entry at the end. -/
abbrev KeyValues := List (Bytes × Bytes)

inductive HttpParseError where
  | emptyLines
  | invalidHeaderLine
  | invalidPathParams
  | invalidStatusLine
  deriving DecidableEq

/-- `sys::error_code`. -/
inductive ErrorCode where
  | success
  /-- An error of the socket. -/
  | socket (value : Nat)
  deriving DecidableEq

/-- `make_error_code`. -/
def makeErrorCode (_ : HttpParseError) : ErrorCode := .success

/-- `request`, without the error code that only `handle_error` sets. -/
structure Message where
  method : Bytes
  path : Bytes
  params : KeyValues
  headers : KeyValues
  content : Bytes
  deriving DecidableEq

def Message.empty : Message := ⟨[], [], [], [], []⟩

/-! ## Parsing -/

/-- `std::getline`: a line without its line feed, and the rest. -/
def getline (s : Bytes) : Option (Bytes × Bytes) :=
  if s.isEmpty then none else some (s.take (find 10 s), s.drop (find 10 s + 1))

/-- The loop of `path_params` over what begins with a `?` or a `&`. -/
def paramsFrom (g : Grammar) : Nat → Bytes → KeyValues
  | 0, _ => []
  | n + 1, s =>
      match s with
      | [] => []
      | _ :: t =>
          let seg := t.take (find 38 t)
          let i := find 61 seg
          let rest := paramsFrom g n (t.drop (find 38 t))
          if i < seg.length then (g.urldecode (seg.take i), g.urldecode (seg.drop (i + 1))) :: rest
          else rest

/-- `path_params`: the path and the parameters of a request target. -/
def pathParams (g : Grammar) (fullpath : Bytes) : Option (Bytes × KeyValues) :=
  let s := if fullpath.head? = some 47 then fullpath.tail else fullpath
  let s := s.take (find 35 s)
  let b := find 63 s
  if b = 0 then none else some (s.take b, paramsFrom g s.length (s.drop b))

/-- The first line that is not blank, and the rest. -/
def firstLine : Nat → Bytes → Option (Bytes × Bytes)
  | 0, _ => none
  | n + 1, s =>
      match getline s with
      | none => none
      | some (line, rest) => if line.all isspace then firstLine n rest else some (line, rest)

/-- `parse_status_line`: the error it finds, the request, and what is left of the
buffer. -/
def parseStatusLine (g : Grammar) (m : Message) (sb : Bytes) :
    Option HttpParseError × Message × Bytes :=
  match firstLine (sb.length + 1) sb with
  | none => (some .emptyLines, m, [])
  | some (line, rest) =>
    match g.statusLine line with
    | none => (some .invalidStatusLine, m, rest)
    | some (method, target) =>
      match pathParams g target with
      | none => (some .invalidPathParams, { m with method := method }, rest)
      | some (path, params) =>
        (none, { m with method := method, path := path, params := m.params ++ params }, rest)

/-- `boost::iequals`, on ASCII letters. -/
def iequals (a b : Bytes) : Bool :=
  let lower (c : Byte) : Byte := if 65 ≤ c && c ≤ 90 then c + 32 else c
  a.map lower == b.map lower

/-- `boost::lexical_cast<int>`, none where it throws. -/
def lexicalInt (s : Bytes) : Option Int :=
  let whole (t : Bytes) := !t.isEmpty && t.all isdigit
  match s with
  | 45 :: t => if whole t && decide (decimal t ≤ 2 ^ 31) then some (-decimal t) else none
  | 43 :: t => if whole t && decide (decimal t < 2 ^ 31) then some (decimal t) else none
  | t => if whole t && decide (decimal t < 2 ^ 31) then some (decimal t) else none

/-- `std::string::resize`. -/
def resize (s : Bytes) (n : Nat) : Bytes := s.take n ++ List.replicate (n - s.length) 0

theorem resize_length (s : Bytes) (n : Nat) : (resize s n).length = n := by
  simp only [resize, List.length_append, List.length_take, List.length_replicate]
  omega

/-- `parse_header_line`: the error it finds and the request; none when it throws. -/
def parseHeaderLine (g : Grammar) (m : Message) (line : Bytes) :
    Option (Option HttpParseError × Message) :=
  match g.headerLine line with
  | none => some (some .invalidHeaderLine, m)
  | some (k, val) =>
    if iequals k (bytes "Content-Length") then
      match lexicalInt val with
      | none => none
      | some n =>
        if n < 0 then none
        else some (none, { m with
          content := resize m.content n.toNat, headers := m.headers ++ [(k, val)] })
    else some (none, { m with headers := m.headers ++ [(k, val)] })

/-- How the loop of `handle_headers` ends. -/
inductive HeadersEnd where
  /-- At an empty line: the request and what is left of the buffer. -/
  | done (m : Message) (rest : Bytes)
  /-- With an error code. -/
  | error (ec : ErrorCode) (m : Message) (rest : Bytes)
  /-- With an exception. -/
  | threw

/-- The error code that the caller sees. -/
def codeOf : Option HttpParseError → ErrorCode
  | none => .success
  | some e => makeErrorCode e

/-- The loop of `handle_headers`. -/
def headerLoop (g : Grammar) : Nat → Message → Bytes → HeadersEnd
  | 0, m, sb => .done m sb
  | n + 1, m, sb =>
      match getline sb with
      | none => .done m []
      | some (line, rest) =>
        if line.isEmpty ∨ line.head? = some 13 then .done m rest
        else
          match parseHeaderLine g m line with
          | none => .threw
          | some (err, m) =>
            if codeOf err = .success then headerLoop g n m rest
            else .error (codeOf err) m rest

/-- `content(sbuf)`: the content filled from the buffer, and what is left of it. -/
def fillContent (m : Message) (sb : Bytes) : Message × Bytes :=
  let n := m.content.length
  ({ m with content := sb.take n ++ m.content.drop sb.length }, sb.drop n)

/-! ## The connection -/

/-- What the connection waits for. -/
inductive Phase where
  | methodLine
  | headers
  | content
  /-- `handle_error` has been called. -/
  | failed (ec : ErrorCode)
  /-- An exception has left the handler. -/
  | threw
  deriving DecidableEq

/-- `connection`, with the requests that its message handler has been called with. -/
structure Connection where
  phase : Phase
  rsbuf : Bytes
  message : Message
  given : List Message
  deriving DecidableEq

def Connection.fresh : Connection := ⟨.methodLine, [], .empty, []⟩

namespace Connection

/-- The operation that the connection waits for is complete. -/
def ready (c : Connection) : Bool :=
  match c.phase with
  | .methodLine => decide (search (bytes "\r\n") c.rsbuf < c.rsbuf.length)
  | .headers => decide (search (bytes "\r\n\r\n") c.rsbuf < c.rsbuf.length)
  | .content => decide (c.message.content.length ≤ c.rsbuf.length)
  | _ => false

/-- The connection reads. -/
def reading (c : Connection) : Bool :=
  match c.phase with
  | .methodLine | .headers | .content => true
  | _ => false

def handleError (c : Connection) (ec : ErrorCode) : Connection := { c with phase := .failed ec }

/-- `handle_content`, without an error. -/
def handleContent (c : Connection) : Connection :=
  let (m, rest) := fillContent c.message c.rsbuf
  ⟨.methodLine, rest, m, c.given ++ [m]⟩

/-- `handle_method_line`, without an error. -/
def handleMethodLine (g : Grammar) (c : Connection) : Connection :=
  let (err, m, rest) := parseStatusLine g c.message c.rsbuf
  let c := { c with rsbuf := rest, message := m }
  let ec := codeOf err
  if ec ≠ .success then
    if ec = makeErrorCode .emptyLines then { c with phase := .methodLine }
    else c.handleError ec
  else { c with phase := .headers }

/-- `handle_headers`, without an error. -/
def handleHeaders (g : Grammar) (c : Connection) : Connection :=
  match headerLoop g (c.rsbuf.length + 1) c.message c.rsbuf with
  | .threw => { c with phase := .threw }
  | .error ec m rest => handleError { c with rsbuf := rest, message := m } ec
  | .done m rest =>
      let c := { c with rsbuf := rest, message := m }
      if m.content.length ≤ rest.length then c.handleContent else { c with phase := .content }

/-- The handler of the operation that the connection waits for. -/
def handle (g : Grammar) (c : Connection) : Connection :=
  match c.phase with
  | .methodLine => c.handleMethodLine g
  | .headers => c.handleHeaders g
  | .content => c.handleContent
  | _ => c

end Connection

/-- What happens on a connection. -/
inductive Event where
  /-- The pending operation reads bytes and is still not complete, or is now. -/
  | received (b : Bytes)
  /-- The pending operation fails. -/
  | failed (value : Nat)
  /-- The pending operation is complete and its handler runs. -/
  | handled

def Step (g : Grammar) (c : Connection) (ev : Event) (d : Connection) : Prop :=
  match ev with
  | .received b => c.reading = true ∧ c.ready = false ∧ b ≠ [] ∧
      d = { c with rsbuf := c.rsbuf ++ b }
  | .failed value => c.reading = true ∧ c.ready = false ∧ d = c.handleError (.socket value)
  | .handled => c.ready = true ∧ d = c.handle g

end CppSnippets.Push
