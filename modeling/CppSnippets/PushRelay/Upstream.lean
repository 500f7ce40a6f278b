import CppSnippets.Lib.Pending
import CppSnippets.Lib.Run
import CppSnippets.Push.Clients

/-!
# The upstream side of the push relay

Every client has its own queue, and the first queue that has a message is moved to
the front and written from. The log has what was written with which result, what
was answered to whom, and what was taken off a queue on behalf of which message.
A list that is walked on from an erased entry, or the front of an empty one, is a
fault, after which nothing is said. An empty list in `handle_write` ends the
handler, as without assertions.
-/
namespace CppSnippets.PushRelay

open CppSnippets.Lib
open CppSnippets.Push (Client PushData post hangUp splice queued)

inductive Stage where
  | zero
  | connecting
  | ready
  | writing
  | replying
  deriving DecidableEq

/-- What is done on the upstream socket, and the replies on the clients' sockets,
with the message that is written, or was. -/
inductive Kind where
  | connect
  | read
  | write (c : Client) (msg : Nat)
  | reply (target : Client) (msg : Nat)
  deriving DecidableEq

def Kind.isWrite : Kind → Bool
  | .write _ _ => true
  | _ => false

def Kind.isReply : Kind → Bool
  | .reply _ _ => true
  | _ => false

/-- The connect and the read of the upstream socket. -/
def Kind.isLink : Kind → Bool
  | .connect | .read => true
  | _ => false

/-- It works on the upstream socket. -/
def Kind.upstream (k : Kind) : Bool := !k.isReply

inductive Entry where
  /-- A write of a message of a client starts. -/
  | started (c : Client) (msg : Nat)
  /-- A write ends with success. -/
  | succeeded (c : Client) (msg : Nat)
  /-- The result of a write is sent to a client. -/
  | replied (c : Client) (msg : Nat) (target : Client)
  /-- A message is taken off a queue, after the write of another or the same. -/
  | popped (msg : Nat) (front : Nat)
  deriving DecidableEq

/-- `apple_push`. -/
structure ApplePush where
  stage : Stage
  bufs : List PushData
  replybuf : String
  ops : Pending Kind
  /-- The number of messages that came in. -/
  taken : Nat
  log : List Entry
  fault : Bool
  deriving DecidableEq

namespace ApplePush

def connect (s : ApplePush) : ApplePush :=
  { s with stage := .connecting, ops := (s.ops.close Kind.upstream).start .connect }

/-- The end of `write_msg`: the first message of the entry in front. -/
def writeFront (s : ApplePush) : ApplePush :=
  match s.bufs with
  | [] => { s with fault := true }
  | d :: _ =>
    match d.data with
    | [] => s
    | msg :: _ =>
      { s with
        stage := .writing, ops := s.ops.start (.write d.client msg)
        log := s.log ++ [.started d.client msg] }

def writeMsg (s : ApplePush) : ApplePush :=
  if s.stage ≠ .ready ∨ s.bufs = [] then s
  -- the loop goes on from the entry that it has erased
  else if s.bufs.any fun d => !d.connected then { s with fault := true }
  else { s with bufs := splice s.bufs }.writeFront

/-- `message` or `pmessage`, with a message. -/
def pmessage (s : ApplePush) (c : Client) : ApplePush :=
  { s with bufs := post c s.taken s.bufs, taken := s.taken + 1 }.writeMsg

/-- `message` or `pmessage`, with an error. -/
def disconnect (s : ApplePush) (c : Client) : ApplePush := { s with bufs := hangUp c s.bufs }

def handleConnect (s : ApplePush) (ec : Outcome) : ApplePush :=
  let s := { s with stage := .zero }
  if ec ≠ .success then s
  else { s with stage := .ready, ops := s.ops.start .read }.writeMsg

def handleRead (s : ApplePush) (ec : Outcome) : ApplePush :=
  if ec ≠ .success then s.connect else { s with ops := s.ops.start .read }

/-- `pop_data` of the entry in front, after the write of `msg`. -/
def popData (s : ApplePush) (msg : Nat) : ApplePush :=
  match s.bufs with
  | ⟨c, connected, front :: data⟩ :: bufs =>
    { s with bufs := ⟨c, connected, data⟩ :: bufs, log := s.log ++ [.popped msg front] }
  | _ => { s with fault := true }

def handleReply (s : ApplePush) (msg : Nat) : ApplePush :=
  ({ s with stage := .ready }.popData msg).writeMsg

/-- `handle_write`, of the write of a message of a client. -/
def handleWrite (s : ApplePush) (c : Client) (msg : Nat) (ec : Outcome) : ApplePush :=
  let log := if ec = .success then s.log ++ [.succeeded c msg] else s.log
  let s := { s with stage := .ready, log := log }
  match s.bufs with
  | [] => s
  | d :: _ =>
    if ec = .aborted then s
    else
      let replybuf := if ec = .success then "OK" else "FAIL"
      let s := { s with replybuf := replybuf }
      if d.connected then
        { s with
          stage := .replying, ops := s.ops.start (.reply d.client msg)
          log := s.log ++ [.replied c msg d.client] }
      else s.handleReply msg

/-- The constructor. -/
def init : ApplePush := connect ⟨.zero, [], "", [], 0, [], false⟩

/-- The handler of an operation. -/
def handle (s : ApplePush) (k : Kind) (ec : Outcome) : ApplePush :=
  match k with
  | .connect => s.handleConnect ec
  | .read => s.handleRead ec
  | .write c msg => s.handleWrite c msg ec
  | .reply _ msg => s.handleReply msg

end ApplePush

inductive Event where
  /-- A connected client has a message. -/
  | message (c : Client)
  /-- A client has an error. -/
  | disconnect (c : Client)
  /-- The handler of an operation runs. -/
  | done (o : Op Kind) (ec : Outcome)

/-- A client that has disconnected has no more messages. -/
def Connected (s : ApplePush) (c : Client) : Prop := ∀ d ∈ s.bufs, d.client = c → d.connected = true

instance (s : ApplePush) (c : Client) : Decidable (Connected s c) :=
  decidable_of_iff ((s.bufs.all fun d => decide (d.client = c → d.connected = true)) = true)
    (List.all_eq_true.trans (forall₂_congr fun _ _ => decide_eq_true_iff))

def Enabled (s : ApplePush) : Event → Prop
  | .message c => s.fault = false ∧ Connected s c
  | .disconnect _ => s.fault = false
  | .done o ec => s.fault = false ∧ o ∈ s.ops ∧ o.Ends ec

def ApplePush.next (s : ApplePush) : Event → ApplePush
  | .message c => s.pmessage c
  | .disconnect c => s.disconnect c
  | .done o ec => { s with ops := s.ops.erase o }.handle o.kind ec

instance (s : ApplePush) : ∀ ev, Decidable (Enabled s ev)
  | .message _ => inferInstanceAs (Decidable (_ ∧ _))
  | .disconnect _ => inferInstanceAs (Decidable (_ = _))
  | .done _ _ => inferInstanceAs (Decidable (_ ∧ _ ∧ _))

abbrev Step : ApplePush → Event → ApplePush → Prop := Moves Enabled ApplePush.next

end CppSnippets.PushRelay
