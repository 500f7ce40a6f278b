import CppSnippets.Lib.Action
import CppSnippets.Wap.Glex

/-!
# A WAP session and its steps

A session `wcstat` holds the steps of a client's script: requests that the
client is told to send to a third server, with what to extract from each
response. `step_fwd` answers with the next step, `wapnext` handles the response
that the client reports. Functions that use the session are actions on it, so
that what they did before an exception is kept. What a function returns as
`const char*` is the `error` of an `Except String`; the `ok` is what it assigns
to `out`.
-/
namespace CppSnippets.Wap

open CppSnippets.Lib

/-! ## Requests, responses and sessions -/

abbrev Head := List (Bytes × Bytes)

/-- `stepreq`, without the `Content-Length`, which nothing reads. -/
structure StepReq where
  method : Bytes
  path : Bytes
  ver : Bytes
  head : Head
  body : Bytes
  seconds : Int
  deriving DecidableEq

structure WcStep where
  req : StepReq
  glex : List (Bytes × Bytes)
  deriving DecidableEq

/-- `wcstat`, without its access time, its size and its log. -/
structure Wcstat where
  cid : Int
  cookies : StrMap
  vars : StrMap
  smblock : Bytes
  steps : List WcStep
  maxdownload : UInt32
  stepx : UInt32
  nRepeat : UInt32
  deriving DecidableEq

/-- `wcstat::wcstat`. -/
def Wcstat.new (cid : Int) : Wcstat := ⟨cid, [], [], [], [], 0xffff, 0, 0⟩

abbrev Act (α : Type) := Action Trap Wcstat α

/-! ## Header lines -/

/-- `head_line_parse`. -/
def headLineParse (head : Head) (l : Bytes) : Head :=
  let i := find 58 l
  if l.length ≤ i then head
  else
    let l := if l.getLast? = some 13 then l.dropLast else l
    let value := (l.drop (i + 1)).dropWhile isspace
    if value.isEmpty then head else head ++ [(l.take i, value)]

/-- `headval`: the value of the first header of this name. -/
def headval (head : Head) (k : Bytes) : Option Bytes := head.lookup k

/-- `split1`: at the first of these bytes, and after all of them that follow.
When nothing follows, `s.begin() + npos` is not a position of `s`. -/
def split1 (s any : Bytes) : Except Trap (Option (Bytes × Bytes)) :=
  let pos := s.findIdx any.contains
  if s.length ≤ pos then .ok none
  else
    let rest := (s.drop pos).dropWhile any.contains
    if rest.isEmpty then .error .undefined else .ok (some (s.take pos, rest))

/-- `request::init`, with `method_line_parse`. -/
def StepReq.init (first head body : Bytes) (seconds : Int) : StepReq :=
  let m := word first
  let p := word m.2
  { method := m.1, path := p.1, ver := (word p.2).1,
    head := (getlines [] head).foldl headLineParse [], body := body, seconds := seconds }

/-- `response`, without the content type, the character set and the length. -/
structure Response where
  code : Nat
  head : Head
  body : Bytes

/-- `request_line_parse`: the code, if it is one. -/
def requestLineParse (env : Env) (l : Bytes) : Option Nat :=
  let code := (extractUnsigned (word l).2).getD env.junk
  if code > 800 || code < 100 then none else some code

/-- `response::makersp`. The conversions of the content type and of the length
are made for their exceptions only. -/
def makersp (env : Env) (text : Bytes) : Except Trap (Option Response) := do
  let cr := search (bytes "\r\n\r\n") text
  if text.length ≤ cr then return none
  match getlines [] (text.take (cr + 4)) with
  | [] => return none
  | first :: lines =>
    match requestLineParse env first with
    | none => return none
    | some code =>
      let head := lines.foldl headLineParse []
      if let some ctype := headval head (bytes "Content-Type") then
        if let some (_, tmp) ← split1 ctype (bytes "; \t") then
          let _ ← split1 tmp (bytes "= ")
      if let some len := headval head (bytes "Content-Length") then
        let _ ← lexicalUnsigned len
      return some ⟨code, head, text.drop (cr + 4)⟩

/-! ## Answers -/

/-- `assign_rsp`. -/
def assignRsp (code : Nat) (shd : String) (body : Bytes) : Bytes :=
  bytes "HTTP/1.1 " ++ digits code ++ bytes " " ++ bytes shd ++ bytes "\r\n" ++
  bytes "Server: nginx/1.0.11\r\n" ++
  bytes "Content-Type: application/octet-stream\r\n" ++
  bytes "Set-Cookie: ck=100010/100011/100012; Domain=ws.pkingame.net; Path=/\r\n" ++
  bytes "Content-Length: " ++ digits body.length ++ bytes "\r\n" ++
  bytes "\r\n" ++ body

def headline (k val : Bytes) : Bytes := k ++ bytes ": " ++ val ++ bytes "\r\n"

/-- `part_add`: the command line, the content and an empty line. -/
def partAdd (out : Bytes) (chn : String) (seconds : Int) (trac : Nat) (incBody : Bool)
    (wc : Wcstat) (cont : Bytes) : Bytes :=
  out ++ bytes chn ++ bytes " size=" ++ digits cont.length ++
  bytes " gap=" ++ signedDigits seconds ++ bytes " trac=" ++ digits trac ++
  bytes " inc_body=" ++ digits incBody.toNat ++
  bytes " maxd=" ++ digits wc.maxdownload.toNat ++ bytes "\r\n" ++ cont ++ bytes "\r\n\r\n"

/-- The `Cookies` line of a request that is passed on. -/
def cookieLine (cookies : StrMap) : Bytes :=
  match cookies with
  | [] => []
  | _ => headline (bytes "Cookies")
      ((cookies.map fun e => e.1 ++ bytes "=" ++ e.2).intersperse (bytes "; ")).flatten

/-- The header lines of a request that is passed on. -/
def stepHeads (env : Env) (path : Bytes) : Head → Bytes → Act Bytes
  | [], part => pure part
  | (k, v) :: head, part => do
      if (bytes "http:").isPrefixOf path && (bytes "Host").isSuffixOf k then
        stepHeads env path head part
      else if k = bytes "DownloadRange" then do
        modify fun wc => { wc with maxdownload := toUnsigned (atoi env v) }
        stepHeads env path head part
      else do
        let val ← Action.lift (subst v (← get).vars)
        stepHeads env path head (part ++ headline k val)

/-- `step_go`. -/
def stepGo (env : Env) (req : StepReq) (incBody : Bool) (trac : Nat) : Act Bytes := do
  let wc ← get
  let path ← Action.lift (subst req.path wc.vars)
  let path ← Action.lift (unescape env path)
  let line := req.method ++ bytes " " ++ path ++ bytes " " ++ req.ver ++ bytes "\r\n"
  let part ← stepHeads env path req.head line
  let tmp ← Action.lift (subst req.body wc.vars)
  let wc ← get
  let part := part ++ cookieLine wc.cookies ++
    headline (bytes "Content-Length") (digits tmp.length) ++ bytes "\r\n" ++ tmp
  let body := partAdd [] "mbf" 1 trac incBody wc wc.smblock
  let body := partAdd body "whq" req.seconds trac incBody wc part
  return assignRsp 200 "OK" body

/-- `step_go` on the step of this index, as `step_fwd` calls it. -/
def stepAt (env : Env) (stepidx : Nat) : Act Bytes := do
  match (← get).steps[stepidx]? with
  | none => throw .undefined
  | some step => do
      modify fun wc => { wc with stepx := wc.stepx + 1 }
      stepGo env step.req (!step.glex.isEmpty) (stepidx + 1)

/-- `step_fwd`: past the last step one repetition is over. `n_repeat` is an
`unsigned int`, so that decrementing 0 gives the largest value. -/
def stepFwd (env : Env) (stepidx : Nat) : Act Bytes := do
  let wc ← get
  if stepidx = wc.steps.length then do
    modify fun wc => { wc with nRepeat := wc.nRepeat - 1 }
    if wc.nRepeat - 1 = 0 then return assignRsp 200 "FIN" []
    else stepAt env 0
  else stepAt env stepidx

/-! ## The response to a step -/

/-- `set_cookies`. -/
def setCookies (jar : StrMap) : Head → Except Trap StrMap
  | [] => .ok jar
  | (k, val) :: head =>
      if k = bytes "Set-Cookie" then do
        let tv := (← split1 val (bytes ";")).getD ([], [])
        let kv := (← split1 tv.1 (bytes "=")).getD ([], tv.2)
        setCookies (jar.assign kv.1 kv.2) head
      else setCookies jar head

/-- `_3xx_fwd`: whether there is a location, and what follows it. -/
def fwd3xx (env : Env) (rsp : Response) (step : WcStep) (trac : Nat) : Act (Option Bytes) := do
  match headval rsp.head (bytes "Location") with
  | none => return none
  | some loc =>
      if loc.isEmpty then return none
      else do
        let path ← Action.lift (unescape env loc)
        let out ← stepGo env { step.req with path := path, seconds := 1 }
          (!step.glex.isEmpty) trac
        return some out

/-- The patterns of `auto_fwd`. -/
def autoPatterns : List Bytes :=
  [bytes "<?xml*<card*中国移动提醒*GPRS通信费*确认*href='$'",
   bytes "<?xml*<card*onenterforward*href=\"$\"",
   bytes "<?xml*<card*ontimer=\"$\""]

/-- One turn of the loop of `auto_fwd`; `none` goes on with the next pattern. -/
def autoTurn (env : Env) (rsp : Response) (step : WcStep) (trac : Nat) (v : Bytes) :
    Act (Option Bytes) :=
  tryCatch (do
    let url ← Action.lift (glex v rsp.body)
    if url.isEmpty then return none
    else do
      let path ← Action.lift (unescape env url)
      let out ← stepGo env { step.req with path := path, seconds := 1 } (!step.glex.isEmpty) trac
      return some out)
    fun
      | .thrown _ => pure none
      | t => throw t

/-- `auto_fwd`. -/
def autoFwd (env : Env) (rsp : Response) (step : WcStep) (trac : Nat) :
    List Bytes → Act (Option Bytes)
  | [] => pure none
  | v :: vs => do
      match ← autoTurn env rsp step trac v with
      | some out => return some out
      | none => autoFwd env rsp step trac vs

/-- The extraction of variables from the body of a response. -/
def extractVars (body : Bytes) : List (Bytes × Bytes) → Act Unit
  | [] => pure ()
  | (k, ex) :: glexes => do
      modify fun wc => { wc with vars := wc.vars.touch k }
      let val ← Action.lift (glex ex body)
      modify fun wc => { wc with vars := wc.vars.assign k val }
      extractVars body glexes

/-- `wapnext`, on the content of the command. -/
def wapnext (env : Env) (content : Bytes) (stepidx : Nat) : Act (Except String Bytes) := do
  let begin' := search (bytes "\r\n\r\n") content
  if content.length ≤ begin' then return .error "Invalid head-1"
  match ← Action.lift (makersp env (content.drop (begin' + 4))) with
  | none => return .error "Bad head"
  | some rsp => do
    let jar ← Action.lift (setCookies (← get).cookies rsp.head)
    modify fun wc => { wc with cookies := jar }
    match (← get).steps[stepidx - 1]? with
    | none => throw .undefined
    | some step =>
      if 300 ≤ rsp.code ∧ rsp.code < 400 then do
        match ← fwd3xx env rsp step stepidx with
        | none => return .error "E302"
        | some out => return .ok out
      else do
        if rsp.code = 200 then do
          if let some out ← autoFwd env rsp step stepidx autoPatterns then return .ok out
          if 0 < stepidx ∧ stepidx < (← get).steps.length then extractVars rsp.body step.glex
        return .ok (← stepFwd env stepidx)

end CppSnippets.Wap
