import CppSnippets.Push.Http
import CppSnippets.PushProxy.Answers
import CppSnippets.PushProxy.Frame

/-!
# The push proxy as a whole

The connections of the clients in front of `apple_push`, in one thread: any handler may
run next. An exception leaves `io_service::run`, and with it the program, whichever
connection it came from, so that a state after it is not there. What was made of each
request and what was written upstream are ghost. The only errors of a client are those
of its reads.
-/
namespace CppSnippets.PushProxy

open CppSnippets.Lib
open CppSnippets.Push (Client Connection Grammar KeyValues Message)
open CppSnippets.Wap (Bytes)

/-- What the proxy takes from the libraries; `turns` bounds the loop of `unhex`. -/
structure Libraries where
  grammar : Grammar
  encode : Bytes → Bytes
  turns : Nat

/-- A request that was made a message of. -/
structure Taken where
  client : Client
  request : Message
  now : Int
  frame : Bytes
  deriving DecidableEq

structure Proxy where
  conns : Client → Connection
  apple : ApplePush
  /-- The frames, by the numbers of the messages. -/
  taken : List Taken
  /-- The messages whose write has succeeded, with the clients they were written for. -/
  pushed : List (Client × Nat)

inductive ProxyEvent where
  /-- The pending operation of a connection reads bytes. -/
  | received (c : Client) (b : Bytes)
  /-- It fails. -/
  | failed (c : Client) (value : Nat)
  /-- It is complete and its handler runs; `now` is the time if a frame is made. -/
  | handled (c : Client) (now : Int)
  /-- `connect` is called. -/
  | connect
  /-- The handler of an operation on the upstream socket runs. -/
  | done (o : Op Kind) (ec : Outcome)
  /-- The first send to a client is written to its socket. -/
  | perform (c : Client)
  /-- The handler of that write runs. -/
  | written (c : Client)

namespace Proxy

def start (stage : Stage) : Proxy := ⟨fun _ => .fresh, Answers.fresh stage, [], []⟩

/-- The message handler: `on_REQUEST`, and its frame goes to the queue. -/
def request (L : Libraries) (s : Proxy) (c : Client) (m : Message) (now : Int) : Option Proxy :=
  match onRequest L.encode now L.turns m.params with
  | some (.ok frame) => some { s with
      apple := s.apple.pmessage c
      taken := s.taken ++ [⟨c, m, now, frame⟩] }
  | _ => none

/-- The handler of a read that is complete. -/
def handled (L : Libraries) (s : Proxy) (c : Client) (now : Int) : Option Proxy :=
  let before := s.conns c
  let d := before.handle L.grammar
  let s := { s with conns := Function.update s.conns c d }
  match d.phase with
  | .threw => none
  | .failed _ => some { s with apple := s.apple.disconnect c }
  | _ =>
    match d.given.drop before.given.length with
    | [] => some s
    | m :: _ => s.request L c m now

/-- Something happens to `apple_push` alone. -/
def upstream (s : Proxy) (ev : Event) : Option Proxy :=
  if Enabled s.apple ev then some { s with apple := s.apple.next ev } else none

/-- The write that has succeeded. -/
def succeeded : Kind → Outcome → List (Client × Nat)
  | .write c msg, .success => [(c, msg)]
  | _, _ => []

def next (L : Libraries) (s : Proxy) : ProxyEvent → Option Proxy
  | .received c b =>
    let d := s.conns c
    if d.reading = true ∧ d.ready = false ∧ b ≠ []
    then some { s with conns := Function.update s.conns c { d with rsbuf := d.rsbuf ++ b } }
    else none
  | .failed c value =>
    let d := s.conns c
    if d.reading = true ∧ d.ready = false ∧ s.apple.fault = false then some { s with
      conns := Function.update s.conns c (d.handleError (.socket value))
      apple := s.apple.disconnect c }
    else none
  | .handled c now =>
    if (s.conns c).ready = true ∧ s.apple.fault = false then s.handled L c now else none
  | .connect => s.upstream .connect
  | .done o ec =>
    (s.upstream (.done o ec)).map fun t => { t with pushed := s.pushed ++ succeeded o.kind ec }
  | .perform c => s.upstream (.perform c)
  | .written c => s.upstream (.written c)

abbrev Step (L : Libraries) (s : Proxy) (ev : ProxyEvent) (t : Proxy) : Prop := s.next L ev = some t

/-- What was made of the requests of a connection. -/
def takenFrom (s : Proxy) (c : Client) : List Taken := s.taken.filter fun x => x.client = c

/-- The messages of a client that were written. -/
def pushedFor (s : Proxy) (c : Client) : List Nat :=
  (s.pushed.filter fun x => x.1 = c).map Prod.snd

/-- The messages of a client for which `OK` was put into its buffer. -/
def okFor (s : Proxy) (c : Client) : List Nat :=
  ((s.apple.replies c).statuses.filter Status.ok).map Status.msg

end Proxy

/-- The bytes that came in on a connection. -/
def receivedFrom (c : Client) (evs : List ProxyEvent) : Bytes :=
  evs.flatMap fun ev => match ev with
    | .received c' b => if c' = c then b else []
    | _ => []

end CppSnippets.PushProxy
