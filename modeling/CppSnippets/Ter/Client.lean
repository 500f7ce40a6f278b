import CppSnippets.Lib.Pending
import CppSnippets.Lib.Run

/-!
# The chat client

One socket, one timer and a queue of messages. `timed_loop` signs in, connects and
says hello; what comes in is acknowledged. A message is given to `write`, whose
function is run by the `io_service` later on. The texts of the messages and the
readings of the clock come with the events. The ghost fields have what went
through the queue, whether a read or a write has failed since the connect, and
whether a write has ever failed.
-/
namespace CppSnippets.Ter

open CppSnippets.Lib

inductive Stage where
  | init
  | connecting
  | established
  deriving DecidableEq

inductive Kind where
  /-- The request of `http_`. -/
  | login
  | connect
  | readSize
  | readData
  | write (msg : String)
  deriving DecidableEq

def Kind.isWrite : Kind → Bool
  | .write _ => true
  | _ => false

/-- It works on `socket_`. -/
def Kind.onSocket : Kind → Bool
  | .login => false
  | _ => true

/-- `chat_client`. -/
structure ChatClient where
  stage : Stage
  stageTp : Int
  writeMsgs : List String
  /-- The functions given to `post` that have not run yet. -/
  calls : List String
  ops : Pending Kind
  /-- The front of an empty queue has been used. -/
  fault : Bool
  /-- The messages that came into the queue. -/
  posted : List String
  started : List String
  /-- The messages whose writes have succeeded. -/
  written : List String
  popped : List String
  /-- Connected, and no read or write has failed since. -/
  clean : Bool
  writeFailed : Bool
  deriving DecidableEq

namespace ChatClient

def init : ChatClient := ⟨.init, 0, [], [], [], false, [], [], [], [], false, false⟩

def doWrite (s : ChatClient) : ChatClient :=
  match s.writeMsgs with
  | [] => { s with fault := true }
  | msg :: _ => { s with ops := s.ops.start (.write msg), started := s.started ++ [msg] }

def popFront (s : ChatClient) : ChatClient :=
  match s.writeMsgs with
  | [] => { s with fault := true }
  | msg :: msgs => { s with writeMsgs := msgs, popped := s.popped ++ [msg] }

def write (s : ChatClient) (msg : String) : ChatClient := { s with calls := s.calls ++ [msg] }

/-- The function that `write` gives to `post`. -/
def post (s : ChatClient) (msg : String) : ChatClient :=
  let writeInProgress := !s.writeMsgs.isEmpty
  let s := { s with writeMsgs := s.writeMsgs ++ [msg], posted := s.posted ++ [msg] }
  if !writeInProgress then s.doWrite else s

/-- The handler of `do_write`. -/
def handleWrite (s : ChatClient) (msg : String) (ec : Outcome) (now : Int) : ChatClient :=
  let s := { s with stageTp := now + 55 }
  if ec = .success then
    let s := { s with written := s.written ++ [msg] }.popFront
    if !s.writeMsgs.isEmpty then s.doWrite else s
  else { s with clean := false, writeFailed := true }

def doSocketError (s : ChatClient) (now : Int) : ChatClient :=
  if s.stage = .established then { s with stage := .connecting, stageTp := now - 5 } else s

def doReadSize (s : ChatClient) : ChatClient := { s with ops := s.ops.start .readSize }

/-- The handler of `do_read_size`. -/
def handleReadSize (s : ChatClient) (ec : Outcome) (now : Int) : ChatClient :=
  if ec = .success then { s with ops := s.ops.start .readData }
  else { s with clean := false }.doSocketError now

/-- The handler of `do_read_data`. -/
def handleReadData (s : ChatClient) (ec : Outcome) (now : Int) (ack : String) : ChatClient :=
  if ec = .success then (s.write ack).doReadSize
  else { s with clean := false }.doSocketError now

def handleConnect (s : ChatClient) (ec : Outcome) (now : Int) : ChatClient :=
  if ec = .success then
    { s with stage := .established, stageTp := now, clean := true }.doReadSize
  else s

/-- The end of the request: a failed one calls nothing. -/
def handleLogin (s : ChatClient) (ec : Outcome) (now : Int) : ChatClient :=
  if ec = .success then { s with stage := .connecting, stageTp := now - 6 } else s

def timedLoop (s : ChatClient) (now : Int) (hello : String) : ChatClient :=
  match s.stage with
  | .init =>
    if s.stageTp + 12 < now then
      -- the old `http_` is destroyed with its socket
      { s with stageTp := now, ops := (s.ops.close fun k => !k.onSocket).start .login }
    else s
  | .connecting =>
    if s.stageTp + 6 > now then s
    else { s with stageTp := now, ops := (s.ops.close Kind.onSocket).start .connect }
  | .established =>
    if s.stageTp ≤ now then { s.write hello with stageTp := now + 55 } else s

end ChatClient

inductive Event where
  | timer (now : Int) (hello : String)
  | write (msg : String)
  /-- The `io_service` runs a posted function. -/
  | post (msg : String)
  /-- The handler of an operation runs. -/
  | done (o : Op Kind) (ec : Outcome) (now : Int) (ack : String)

/-- An operation may have ended before its socket was closed, so a closed one may
still succeed. -/
def Enabled (s : ChatClient) : Event → Prop
  | .post msg => s.fault = false ∧ msg ∈ s.calls
  | .done o ec _ _ => s.fault = false ∧ o ∈ s.ops ∧ (ec = .aborted → o.aborted = true)
  | _ => s.fault = false

instance (s : ChatClient) : ∀ ev, Decidable (Enabled s ev)
  | .timer _ _ => inferInstanceAs (Decidable (_ = _))
  | .write _ => inferInstanceAs (Decidable (_ = _))
  | .post _ => inferInstanceAs (Decidable (_ ∧ _))
  | .done _ _ _ _ => inferInstanceAs (Decidable (_ ∧ _ ∧ (_ → _)))

/-- The handler of an operation. -/
def ChatClient.handle (s : ChatClient) (k : Kind) (ec : Outcome) (now : Int) (ack : String) :
    ChatClient :=
  match k with
  | .login => s.handleLogin ec now
  | .connect => s.handleConnect ec now
  | .readSize => s.handleReadSize ec now
  | .readData => s.handleReadData ec now ack
  | .write msg => s.handleWrite msg ec now

def ChatClient.next (s : ChatClient) : Event → ChatClient
  | .timer now hello => s.timedLoop now hello
  | .write msg => s.write msg
  | .post msg => { s with calls := s.calls.erase msg }.post msg
  | .done o ec now ack => { s with ops := s.ops.erase o }.handle o.kind ec now ack

def Step : ChatClient → Event → ChatClient → Prop := Moves Enabled ChatClient.next

end CppSnippets.Ter
