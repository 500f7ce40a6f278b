import CppSnippets.Wap.Session

/-!
# Reading a request

`wcreader` collects what `recv` gives it until `completed` finds a request in its
buffer: a header with its terminator and, for a `POST`, as many bytes behind it
as the `Content-Length` says. The client id is read from the `ck` cookie; the id 0
is not told from an incomplete request.
-/
namespace CppSnippets.Wap

/-- `request`, as far as `makereq` fills it. -/
structure Request where
  method : Bytes
  path : Bytes
  head : Head
  body : Bytes
  deriving DecidableEq

/-- What `makereq` reads up to the terminator, and where the body begins. -/
structure RequestHead where
  method : Bytes
  path : Bytes
  head : Head
  bodyBegin : Nat
  deriving DecidableEq

def crlf2 : Bytes := bytes "\r\n\r\n"

/-- What `makereq` reads from the text up to the terminator. -/
def parseHead (text : Bytes) : RequestHead :=
  let lines := getlines [] text
  let m := word (lines.headD [])
  ⟨m.1, (word m.2).1, lines.tail.foldl headLineParse [], text.length⟩

/-- The first half of `makereq`. -/
def requestHead (buf : Bytes) : Option RequestHead :=
  if buf.length ≤ search crlf2 buf then none
  else some (parseHead (buf.take (search crlf2 buf + 4)))

/-- An `int` stored in a `size_t`. -/
def toSize (env : Env) (n : Int) : Nat := (n % 2 ^ env.wordBits).toNat

/-- `size_ok`. -/
def sizeOk (env : Env) (len : Nat) (method : Bytes) (head : Head) : Except Trap Bool :=
  if method = bytes "GET" then .ok true
  else if method = bytes "POST" then
    match headval head (bytes "Content-Length") with
    | none => .error (.thrown "POST error")
    | some v => .ok (decide (toSize env (atoi env v) ≤ len))
  else .ok false

/-- `makereq`. The body is all that is left of the buffer. -/
def makereq (env : Env) (buf : Bytes) : Except Trap (Option Request) :=
  match requestHead buf with
  | none => .ok none
  | some h =>
      (sizeOk env (buf.length - h.bodyBegin) h.method h.head).map fun ok =>
        if ok then some ⟨h.method, h.path, h.head, buf.drop h.bodyBegin⟩ else none

/-- The loop of `cookie_parse`, on what is left of the value. -/
def cookieParse : Nat → StrMap → Bytes → StrMap
  | 0, cookies, _ => cookies
  | n + 1, cookies, s =>
      let i := find 61 s
      if s.length ≤ i then cookies
      else
        let val := s.drop (i + 1)
        let j := find 59 val
        cookieParse n (cookies.assign (s.take i) (val.take j))
          ((val.drop (j + 1)).dropWhile isspace)

/-- `boost::lexical_cast<int64_t>`: the whole text is one number. -/
def lexicalInt64 (s : Bytes) : Except Trap Int :=
  let whole (t : Bytes) := !t.isEmpty && t.all isdigit
  let bad := .error (.thrown
    "bad lexical cast: source type value could not be interpreted as target")
  match s with
  | 45 :: t => if whole t && decide (decimal t ≤ 2 ^ 63) then .ok (-decimal t) else bad
  | 43 :: t => if whole t && decide (decimal t < 2 ^ 63) then .ok (decimal t) else bad
  | t => if whole t && decide (decimal t < 2 ^ 63) then .ok (decimal t) else bad

/-- The end of `completed`: the client id in the cookies of a header. -/
def clientId (head : Head) : Except Trap Int :=
  match headval head (bytes "Cookie") with
  | none => .error (.thrown "ck not found")
  | some v =>
    match (cookieParse v.length [] v).find (bytes "ck") with
    | none => .error (.thrown "Cookie ck error")
    | some ck => lexicalInt64 ck

/-- `completed`: the client id and the request, unless the id is 0. -/
def completed (env : Env) (buf : Bytes) : Except Trap (Option (Int × Request)) :=
  if 1024 * 32 < buf.length then .error (.thrown "Too large req")
  else
    match makereq env buf with
    | .error t => .error t
    | .ok none => .ok none
    | .ok (some req) =>
        (clientId req.head).map fun cid => if cid = 0 then none else some (cid, req)

/-- What `recvbuf` takes from the socket until it would block or the peer has
closed. -/
structure Read where
  bytes : Bytes
  eof : Bool

inductive ReadResult where
  /-- The reader goes on reading. -/
  | waits
  /-- The connection is deleted, with this result. -/
  | closes (code : Int)
  /-- `initref` and `commands` are next. -/
  | hands (cid : Int) (req : Request)
  deriving DecidableEq

/-- `wcreader::operator()`, up to `initref`. -/
def readOnce (env : Env) (buf : Bytes) (r : Read) : ReadResult :=
  let buf := buf ++ r.bytes
  let n := if r.eof then 0 else r.bytes.length
  match completed env buf with
  | .error _ => .closes (-3)
  | .ok none => if n = 0 ∨ 1024 * 128 < buf.length then .closes (-2) else .waits
  | .ok (some (cid, req)) => if req.body.isEmpty then .closes (-3) else .hands cid req

/-- How the reads of a connection end. -/
inductive Fed where
  /-- The reader still waits, with this in its buffer. -/
  | waits (buf : Bytes)
  | closed (code : Int)
  | handed (cid : Int) (req : Request)
  deriving DecidableEq

/-- The reads of a connection. Once a request is handed on, nothing more is read. -/
def feed (env : Env) (buf : Bytes) : List Read → Fed
  | [] => .waits buf
  | r :: rs =>
      match readOnce env buf r with
      | .waits => feed env (buf ++ r.bytes) rs
      | .closes code => .closed code
      | .hands cid req => .handed cid req

end CppSnippets.Wap
