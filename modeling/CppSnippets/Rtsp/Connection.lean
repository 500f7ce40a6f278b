import CppSnippets.Push.Lines
import CppSnippets.Ter.Http
import Mathlib.Data.List.DropRight

/-!
# The RTSP client of `hgs-rtph264.cpp`

`rtsp_connection` and `rtsp_client`: four requests, each written, then answered by a head
up to an empty line and by as much more as its `Content-Length` asks for. The regular
expressions are those of `std`, in the classic locale; what the iterators of Boost make
of base64 is a parameter.
`teardown`, which writes and closes at once, is not modelled.
-/
namespace CppSnippets.Rtsp

open CppSnippets.Wap (Byte Bytes Env bytes isspace isdigit digits atoi find)
open CppSnippets.Ter.Http (toupper findFirst)
open CppSnippets.Push (getline crlf)

/-! ## Lines and expressions -/

/-- A line less the white space at its end. -/
def trimRight (l : Bytes) : Bytes := l.rdropWhile isspace

def startsWith (k l : Bytes) : Bool := k.isPrefixOf l

/-- `boost::istarts_with` -/
def istartsWith (k l : Bytes) : Bool := (k.map toupper).isPrefixOf (l.map toupper)

/-- `^([^:]+):\s+(.+)$`: where the value begins in the line. -/
def valueAt (l : Bytes) : Option Nat :=
  let i := find 58 l
  let t := l.drop (i + 1)
  let v := t.dropWhile isspace
  if i ≠ 0 ∧ v.length < t.length ∧ v ≠ [] ∧ 13 ∉ v then some (l.length - v.length) else none

/-- `regex_search` for an expression that is tried at each position. -/
def searchFor {α : Type} (f : Bytes → Option α) : Bytes → Option α
  | [] => f []
  | b :: s => (f (b :: s)).or (searchFor f s)

/-- What follows `k`. -/
def after (k l : Bytes) : Option Bytes := if startsWith k l then some (l.drop k.length) else none

/-- `Session:[[:space:]]*([^[:space:]]+)` -/
def sessionHere (l : Bytes) : Option Bytes := do
  let v := (← after (bytes "Session:") l).dropWhile isspace
  if v = [] then none else some (v.takeWhile fun b => !isspace b)

/-- `sprop-parameter-sets=([^=,]+)=*,([^=,;]+)` -/
def spropHere (l : Bytes) : Option (Bytes × Bytes) := do
  let t ← after (bytes "sprop-parameter-sets=") l
  let m1 := t.takeWhile fun b => b != 61 && b != 44
  match (t.drop m1.length).dropWhile (· == 61) with
  | 44 :: u =>
      let m2 := u.takeWhile fun b => b != 61 && b != 44 && b != 59
      if m1 = [] ∨ m2 = [] then none else some (m1, m2)
  | _ => none

/-- `a=control:([^=]+=[0-9]+)` -/
def controlHere (l : Bytes) : Option Bytes := do
  let t ← after (bytes "a=control:") l
  let name := t.takeWhile (· != 61)
  let number := (t.drop (name.length + 1)).takeWhile isdigit
  if name = [] ∨ number = [] then none else some (name ++ [61] ++ number)

/-! ## The head of an answer -/

/-- `clen`, `none` for `size_t(-1)`, and `session_`. -/
structure Head where
  clen : Option Nat
  session : Bytes

/-- A `size_t` of this value. -/
def toSize (env : Env) (n : Int) : Option Nat :=
  if n.emod (2 ^ env.wordBits) = 2 ^ env.wordBits - 1 then none
  else some (n.emod (2 ^ env.wordBits)).toNat

/-- One line of the loop of `_parse_head`, from where it begins; `l` is the line, trimmed. -/
def headLine (env : Env) (h : Head) (p l : Bytes) : Head :=
  if istartsWith (bytes "Content-Length") l then
    match valueAt l with
    | some k => { h with clen := toSize env (atoi env (p.drop k)) }
    | none => h
  else if startsWith (bytes "Session") l then
    match searchFor sessionHere l with
    | some s => { h with session := s }
    | none => h
  else h

/-- The loop, and what is behind the line that ends it. -/
def headLoop (env : Env) : Nat → Head → Bytes → Head × Bytes
  | 0, h, p => (h, p)
  | n + 1, h, p =>
      if find 10 p < p.length then
        let l := trimRight (p.take (find 10 p))
        let h := headLine env h p l
        if l = [] then (h, p.drop (find 10 p + 1)) else headLoop env n h (p.drop (find 10 p + 1))
      else (h, [])

/-- `_parse_head`: how much more is to be read, and the session. -/
def parseHead (env : Env) (rsp session : Bytes) : Nat × Bytes :=
  let (h, rest) := headLoop env (rsp.length + 1) ⟨none, session⟩ rsp
  let need := match h.clen with
    | none => 0
    | some n =>
      let all := (n + (rsp.length - rest.length)) % 2 ^ env.wordBits
      if rsp.length < all then (all - rsp.length) % 2 ^ 32 else 0
  (need, h.session)

/-! ## The session description -/

/-- The lines that `std::getline` gives. -/
def getlines : Nat → Bytes → List Bytes
  | 0, _ => []
  | n + 1, s =>
      match getline s with
      | none => []
      | some (l, rest) => l :: getlines n rest

def linesOf (s : Bytes) : List Bytes := getlines s.length s

structure Description where
  mv : Bool
  sps : Bytes
  pps : Bytes
  streamid : Bytes

/-- The `=` at the end are dropped; the rest goes through the iterators of Boost. -/
def base64dec (fromBase64 : Bytes → Bytes) (s : Bytes) : Bytes := fromBase64 (s.rdropWhile (· == 61))

def Description.line (fromBase64 : Bytes → Bytes) (d : Description) (line : Bytes) : Description :=
  let l := trimRight line
  if startsWith (bytes "m=") l then { d with mv := startsWith (bytes "m=video") l }
  else if d.mv then
    if startsWith (bytes "a=fmtp:") l then
      match searchFor spropHere l with
      | some (x, y) =>
          { d with sps := d.sps ++ base64dec fromBase64 x, pps := d.pps ++ base64dec fromBase64 y }
      | none => d
    else if startsWith (bytes "a=control:") l then
      match searchFor controlHere l with
      | some id => { d with streamid := id }
      | none => d
    else d
  else d

def describe (fromBase64 : Bytes → Bytes) (rsp : Bytes) : Description :=
  (linesOf rsp).foldl (Description.line fromBase64) ⟨false, [], [], []⟩

/-- The lines of the answer to `SETUP`, read once more. -/
def sessionLine (session line : Bytes) : Bytes :=
  let l := trimRight line
  if startsWith (bytes "Session:") l then (searchFor sessionHere l).getD session else session

def setupSession (session rsp : Bytes) : Bytes := (linesOf rsp).foldl sessionLine session

/-! ## The client -/

inductive Action where
  | options
  | describe
  | setup
  | play
  deriving DecidableEq

inductive Phase where
  | connecting
  /-- The request of this action is being written. -/
  | writing (a : Action)
  | head (a : Action)
  /-- So many bytes are to follow. -/
  | body (a : Action) (need : Nat)
  | playing
  /-- `on_error`, after which nothing is started. -/
  | failed
  deriving DecidableEq

/-- What the client is told at its start, and what it takes from outside. -/
structure Config where
  env : Env
  path : Bytes
  /-- `local_port()` -/
  port : Nat
  /-- `transform_width<binary_from_base64<I1>,8,6>`, where it throws nothing. -/
  fromBase64 : Bytes → Bytes

structure Client where
  phase : Phase
  cseq : Nat
  session : Bytes
  /-- `response_` -/
  response : Bytes
  /-- The requests given to `async_write`. -/
  sent : List Bytes
  /-- The calls of `sprop_parameter_sets`. -/
  sprops : List (Bytes × Bytes)
  /-- The calls of `start_playing`. -/
  started : Nat
  /-- All that has been received, which the code does not keep. -/
  input : Bytes

namespace Client

def start : Client := ⟨.connecting, 1, [], [], [], [], 0, []⟩

def optionsText (cfg : Config) (cseq : Nat) : Bytes :=
  bytes "OPTIONS " ++ cfg.path ++ bytes " RTSP/1.0\r\n" ++
    bytes "CSeq: " ++ digits cseq ++ crlf ++ crlf

def describeText (cfg : Config) (cseq : Nat) : Bytes :=
  bytes "DESCRIBE " ++ cfg.path ++ bytes " RTSP/1.0\r\n" ++
    bytes "CSeq: " ++ digits cseq ++ crlf ++ bytes "Accept: application/sdp\r\n" ++ crlf

def transport (cfg : Config) : Bytes :=
  bytes "RTP/AVP;unicast;client_port=" ++ digits cfg.port ++ bytes "-" ++ digits (cfg.port + 1)

def setupText (cfg : Config) (cseq : Nat) (streamid : Bytes) : Bytes :=
  bytes "SETUP " ++ cfg.path ++ bytes "/" ++ streamid ++ bytes " RTSP/1.0\r\n" ++
    bytes "CSeq: " ++ digits cseq ++ crlf ++
    bytes "Transport: " ++ transport cfg ++ crlf ++ bytes "Range: 0.00-\r\n" ++ crlf

def playText (cfg : Config) (cseq : Nat) (session : Bytes) : Bytes :=
  bytes "PLAY " ++ cfg.path ++ bytes " RTSP/1.0\r\n" ++
    bytes "CSeq: " ++ digits cseq ++ crlf ++ bytes "Session: " ++ session ++ crlf ++ crlf

/-- A request is given to `async_write`. -/
def send (c : Client) (a : Action) (text : Bytes) : Client :=
  { c with phase := .writing a, cseq := c.cseq + 1, sent := c.sent ++ [text] }

/-- `on_success` -/
def onSuccess (cfg : Config) (c : Client) : Action → Client
  | .options => c.send .describe (describeText cfg c.cseq)
  | .describe =>
      let d := Rtsp.describe cfg.fromBase64 c.response
      let c := { c with
        response := []
        sprops := if d.sps = [] then c.sprops else c.sprops ++ [(d.sps, d.pps)] }
      c.send .setup (setupText cfg c.cseq d.streamid)
  | .setup =>
      let c := { c with
        session := setupSession c.session c.response
        response := []
        started := c.started + 1 }
      c.send .play (playText cfg c.cseq c.session)
  | .play => { c with phase := .playing }

inductive Event where
  | connected
  | wrote
  | received (chunk : Bytes)
  | error
  deriving DecidableEq

/-- The handler of `async_read_until`, asked after each chunk. -/
def headRead (cfg : Config) (c : Client) (a : Action) : Client :=
  match findFirst (crlf ++ crlf) c.response with
  | none => c
  | some _ =>
      let (need, session) := parseHead cfg.env c.response c.session
      let c := { c with session := session }
      if need = 0 then c.onSuccess cfg a else { c with phase := .body a need }

/-- `none` is an event that no operation is waiting for. A read gives at least one byte,
and of a body no more than what is to follow. -/
def next (cfg : Config) (c : Client) (ev : Event) : Option Client :=
  match c.phase, ev with
  | .connecting, .connected => some (c.send .options (optionsText cfg c.cseq))
  | .writing a, .wrote => some { c with phase := .head a, response := [] }
  | .head a, .received chunk =>
      if chunk = [] then none
      else some (headRead cfg
        { c with response := c.response ++ chunk, input := c.input ++ chunk } a)
  | .body a need, .received chunk =>
      if chunk = [] ∨ need < chunk.length then none
      else
        let c := { c with response := c.response ++ chunk, input := c.input ++ chunk }
        some (if chunk.length = need then c.onSuccess cfg a
          else { c with phase := .body a (need - chunk.length) })
  | .connecting, .error | .writing _, .error | .head _, .error | .body _ _, .error =>
      some { c with phase := .failed }
  | _, _ => none

def Step (cfg : Config) (c : Client) (ev : Event) (d : Client) : Prop := c.next cfg ev = some d

end Client
end CppSnippets.Rtsp
