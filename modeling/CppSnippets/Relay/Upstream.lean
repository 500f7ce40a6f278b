import CppSnippets.Lib.Pending
import CppSnippets.Lib.Run

/-!
# The upstream side of the relay

Messages of all clients wait in one queue and are written to one upstream socket,
one after the other; the result of a write is sent back to the client of the
message in front. Every message has the number at which it came in, and the ghost
fields have the numbers that were written, taken off the queue and answered. An
empty queue in `handle_write` ends the handler, as without assertions.
-/
namespace CppSnippets.Relay

open CppSnippets.Lib

/-- The address of a connection. -/
abbrev Conn := Nat

inductive Stage where
  | zero
  | connecting
  | ready
  | writing
  | replying
  deriving DecidableEq

/-- What is done on the upstream socket, and the replies on the clients' sockets. -/
inductive Kind where
  | connect
  | read
  | write (msg : Nat)
  | reply (c : Conn) (msg : Nat)
  deriving DecidableEq

def Kind.isWrite : Kind → Bool
  | .write _ => true
  | _ => false

def Kind.isReply : Kind → Bool
  | .reply _ _ => true
  | _ => false

/-- It works on the upstream socket. -/
def Kind.upstream (k : Kind) : Bool := !k.isReply

/-- `apple_push`. -/
structure ApplePush where
  stage : Stage
  /-- A message without a connection has no one to reply to. -/
  bufs : List (Option Conn × Nat)
  replybuf : String
  ops : Pending Kind
  /-- The number of messages that came in. -/
  taken : Nat
  wrote : List Nat
  popped : List Nat
  replied : List (Conn × Nat)
  /-- The front of an empty queue has been taken off. -/
  fault : Bool
  deriving DecidableEq

namespace ApplePush

def connect (s : ApplePush) : ApplePush :=
  { s with stage := .connecting, ops := (s.ops.close Kind.upstream).start .connect }

def writeMsg (s : ApplePush) : ApplePush :=
  if s.stage ≠ .ready then s
  else
    match s.bufs with
    | [] => s
    | (_, msg) :: _ =>
      { s with stage := .writing, ops := s.ops.start (.write msg), wrote := s.wrote ++ [msg] }

/-- What an error of a connection does to the queue. -/
def forget (c : Conn) : List (Option Conn × Nat) → List (Option Conn × Nat)
  | [] => []
  | e :: bufs =>
    if e.1 = some c then (none, e.2) :: bufs else e :: bufs.eraseP fun e => e.1 = some c

/-- `pushmsg`, with an error. -/
def abort (s : ApplePush) (c : Conn) : ApplePush := { s with bufs := forget c s.bufs }

/-- `pushmsg`, with a message. -/
def pushmsg (s : ApplePush) (c : Conn) : ApplePush :=
  let s := { s with bufs := s.bufs ++ [(some c, s.taken)], taken := s.taken + 1 }
  match s.stage with
  | .ready => s.writeMsg
  | .zero | .connecting => s.connect
  | _ => s

def handleConnect (s : ApplePush) (ec : Outcome) : ApplePush :=
  let s := { s with stage := .zero }
  if ec ≠ .success then s
  else { s with stage := .ready, ops := s.ops.start .read }.writeMsg

def handleRead (s : ApplePush) (ec : Outcome) : ApplePush :=
  if ec ≠ .success then s.connect else { s with ops := s.ops.start .read }

def popFront (s : ApplePush) : ApplePush :=
  match s.bufs with
  | [] => { s with fault := true }
  | (_, msg) :: bufs => { s with bufs := bufs, popped := s.popped ++ [msg] }

def handleReply (s : ApplePush) : ApplePush := { s with stage := .ready }.popFront.writeMsg

def handleWrite (s : ApplePush) (ec : Outcome) : ApplePush :=
  let s := { s with stage := .ready }
  match s.bufs with
  | [] => s
  | (c, msg) :: _ =>
    if ec = .aborted then s
    else
      let s := { s with replybuf := if ec = Outcome.success then "OK" else "FAIL" }
      match c with
      | some c =>
        { s with
          stage := .replying, ops := s.ops.start (.reply c msg), replied := s.replied ++ [(c, msg)] }
      | none => s.handleReply

/-- The constructor. -/
def init : ApplePush := connect ⟨.zero, [], "", [], 0, [], [], [], false⟩

/-- The handler of an operation. -/
def handle (s : ApplePush) (k : Kind) (ec : Outcome) : ApplePush :=
  match k with
  | .connect => s.handleConnect ec
  | .read => s.handleRead ec
  | .write _ => s.handleWrite ec
  | .reply _ _ => s.handleReply

end ApplePush

inductive Event where
  /-- A connection has a message. -/
  | message (c : Conn)
  /-- A connection has an error. -/
  | abort (c : Conn)
  /-- The handler of an operation runs. -/
  | done (o : Op Kind) (ec : Outcome)

def Enabled (s : ApplePush) : Event → Prop
  | .done o ec => s.fault = false ∧ o ∈ s.ops ∧ o.Ends ec
  | _ => s.fault = false

def ApplePush.next (s : ApplePush) : Event → ApplePush
  | .message c => s.pushmsg c
  | .abort c => s.abort c
  | .done o ec => { s with ops := s.ops.erase o }.handle o.kind ec

instance (s : ApplePush) : ∀ ev, Decidable (Enabled s ev)
  | .message _ => inferInstanceAs (Decidable (s.fault = false))
  | .abort _ => inferInstanceAs (Decidable (s.fault = false))
  | .done _ _ => inferInstanceAs (Decidable (_ ∧ _ ∧ _))

abbrev Step : ApplePush → Event → ApplePush → Prop := Moves Enabled ApplePush.next

end CppSnippets.Relay
