import CppSnippets.Lib.Pending
import CppSnippets.Lib.Run
import CppSnippets.Push.Clients
import CppSnippets.Wap.Text
import Mathlib.Logic.Function.Basic

/-!
# The upstream side of the push proxy

Every client has its own queue, as in the push relay, but the socket is a TLS
socket, and the result of a write is put into the buffer of the client and sent
from there: a send queues where the buffer is and how long its text was. `secure`
is ghost: the handshake of the socket has succeeded. So is the record of what a
client sent and of the results for it. The front of an empty list is a fault, after
which nothing is said. Writes to a client that fail are left out, and so are the
handlers of its writes that run after its connection has been given up.
-/
namespace CppSnippets.PushProxy

open CppSnippets.Lib
open CppSnippets.Push (Client PushData post hangUp splice queued)
open CppSnippets.Wap (Bytes bytes)

inductive Stage where
  | idle
  | halt
  | connecting
  | handshaking
  | writing
  deriving DecidableEq

/-- What is done on the upstream socket. -/
inductive Kind where
  | connect
  | handshake
  | read
  | write (c : Client) (msg : Nat)
  deriving DecidableEq

def Kind.isWrite : Kind → Bool
  | .write _ _ => true
  | _ => false

/-- What keeps the socket going. -/
def Kind.isLink (k : Kind) : Bool := !k.isWrite

/-- A result for a client: the write that ended, the message that was taken
off the queue for it, and the result. -/
structure Status where
  carrier : Client
  written : Nat
  msg : Nat
  ok : Bool
  deriving DecidableEq

def statusText (ok : Bool) : Bytes := if ok then bytes "OK" else bytes "FAIL"

/-- The replies to a client: the memory of `replybuf_`, the lengths in the send queue
of the connection, of which the first may be written to the socket already, and what
the client has received. -/
structure Replies where
  replybuf : Bytes
  writeLs : List Nat
  performed : Bool
  received : List Bytes
  /-- The messages of the client. -/
  posted : List Nat
  /-- The results that were put into the buffer. -/
  statuses : List Status
  deriving DecidableEq

namespace Replies

def empty : Replies := ⟨[], [], false, [], [], []⟩

/-- Assigning to a string writes its text and a zero over what was there. -/
def assign (memory text : Bytes) : Bytes := text ++ [0] ++ memory.drop (text.length + 1)

/-- `relay_back`, without taking the message off. -/
def relayBack (r : Replies) (st : Status) : Replies :=
  { r with
    replybuf := assign r.replybuf (statusText st.ok)
    writeLs := r.writeLs ++ [(statusText st.ok).length]
    statuses := r.statuses ++ [st] }

/-- The first send is written to the socket. -/
def perform (r : Replies) : Replies :=
  match r.writeLs with
  | [] => r
  | n :: _ => { r with performed := true, received := r.received ++ [r.replybuf.take n] }

/-- `connection::handle_write`: the next send starts. -/
def handleWrite (r : Replies) : Replies := { r with writeLs := r.writeLs.tail, performed := false }

end Replies

/-- `apple_push`, with the connections of its clients. -/
structure ApplePush where
  stage : Stage
  bufs : List PushData
  ops : Pending Kind
  /-- The number of messages that came in. -/
  taken : Nat
  replies : Client → Replies
  /-- The clients that have disconnected. -/
  gone : List Client
  secure : Bool
  fault : Bool

namespace ApplePush

def connect (s : ApplePush) : ApplePush :=
  { s with
    stage := .connecting, secure := false, ops := (s.ops.close fun _ => true).start .connect }

/-- The end of `write_msg`: the first message of the entry in front. -/
def writeFront (s : ApplePush) : ApplePush :=
  match s.bufs with
  | [] => { s with fault := true }
  | d :: _ =>
    match d.data with
    | [] => s
    | msg :: _ => { s with stage := .writing, ops := s.ops.start (.write d.client msg) }

def writeMsg (s : ApplePush) : ApplePush :=
  if s.stage ≠ .idle ∨ s.bufs = [] then s
  else { s with bufs := splice (s.bufs.filter fun d => d.connected) }.writeFront

/-- `message` or `pmessage`, with a message. -/
def pmessage (s : ApplePush) (c : Client) : ApplePush :=
  let r := s.replies c
  let s := { s with
    bufs := post c s.taken s.bufs, taken := s.taken + 1
    replies := Function.update s.replies c { r with posted := r.posted ++ [s.taken] } }
  if s.stage = .idle then s.writeMsg else s

/-- `message` or `pmessage`, with an error. -/
def disconnect (s : ApplePush) (c : Client) : ApplePush :=
  if c ∈ s.gone then s else { s with bufs := hangUp c s.bufs, gone := c :: s.gone }

def handleConnect (s : ApplePush) (ec : Outcome) : ApplePush :=
  if ec ≠ .success then s.connect
  else { s with stage := .handshaking, ops := s.ops.start .handshake }

def handleHandshake (s : ApplePush) (ec : Outcome) : ApplePush :=
  if ec ≠ .success then s else { s with secure := true, ops := s.ops.start .read }.writeMsg

def handleRead (s : ApplePush) (ec : Outcome) : ApplePush :=
  if ec ≠ .success then s.connect else { s with ops := s.ops.start .read }

/-- `relay_back` of the entry in front, which then goes to the end. -/
def relayBack (s : ApplePush) (c : Client) (msg : Nat) (ec : Outcome) : ApplePush :=
  match s.bufs with
  | ⟨target, connected, front :: data⟩ :: bufs =>
    let ok := decide (ec = .success)
    { s with
      bufs := bufs ++ [⟨target, connected, data⟩]
      replies := Function.update s.replies target
        ((s.replies target).relayBack ⟨c, msg, front, ok⟩) }
  | _ => { s with fault := true }

/-- `handle_write`, of the write of a message of a client. -/
def handleWrite (s : ApplePush) (c : Client) (msg : Nat) (ec : Outcome) : ApplePush :=
  let s := { s with stage := .idle }
  match s.bufs with
  | [] => s
  | d :: bufs =>
    if d.connected = false then { s with bufs := bufs }.writeMsg
    else if ec = .aborted then s
    else (s.relayBack c msg ec).writeMsg

/-- The handler of an operation. -/
def handle (s : ApplePush) (k : Kind) (ec : Outcome) : ApplePush :=
  match k with
  | .connect => s.handleConnect ec
  | .handshake => s.handleHandshake ec
  | .read => s.handleRead ec
  | .write c msg => s.handleWrite c msg ec

end ApplePush

inductive Event where
  /-- `connect` is called from outside. -/
  | connect
  /-- A client has a message. -/
  | message (c : Client)
  /-- A client has an error. -/
  | disconnect (c : Client)
  /-- The handler of an operation runs. -/
  | done (o : Op Kind) (ec : Outcome)
  /-- The first send to a client is written to its socket. -/
  | perform (c : Client)
  /-- The handler of that write runs. -/
  | written (c : Client)

/-- A client that is gone is not written to, and no handler of a write to it runs. -/
def Enabled (s : ApplePush) : Event → Prop
  | .connect => s.fault = false ∧ s.ops.only Kind.isLink = []
  | .message c => s.fault = false ∧ c ∉ s.gone
  | .disconnect _ => s.fault = false
  | .done o ec => s.fault = false ∧ o ∈ s.ops ∧ o.Ends ec
  | .perform c => s.fault = false ∧ c ∉ s.gone ∧
      (s.replies c).writeLs ≠ [] ∧ (s.replies c).performed = false
  | .written c => s.fault = false ∧ c ∉ s.gone ∧ (s.replies c).performed = true

def ApplePush.next (s : ApplePush) : Event → ApplePush
  | .connect => s.connect
  | .message c => s.pmessage c
  | .disconnect c => s.disconnect c
  | .done o ec => { s with ops := s.ops.erase o }.handle o.kind ec
  | .perform c => { s with replies := Function.update s.replies c (s.replies c).perform }
  | .written c => { s with replies := Function.update s.replies c (s.replies c).handleWrite }

instance (s : ApplePush) : ∀ ev, Decidable (Enabled s ev)
  | .connect => inferInstanceAs (Decidable (_ ∧ _))
  | .message _ => inferInstanceAs (Decidable (_ ∧ _))
  | .disconnect _ => inferInstanceAs (Decidable (_ = _))
  | .done _ _ => inferInstanceAs (Decidable (_ ∧ _ ∧ _))
  | .perform _ => inferInstanceAs (Decidable (_ ∧ _ ∧ _ ∧ _))
  | .written _ => inferInstanceAs (Decidable (_ ∧ _ ∧ _))

abbrev Step : ApplePush → Event → ApplePush → Prop := Moves Enabled ApplePush.next

end CppSnippets.PushProxy
