import CppSnippets.Epoll.QueueRefinement

/-!
# The sending side of `NetworkIO` over TCP

`trysendx`, `l1send`, `error` and the callers that reach them: `prewait`,
`on_events` and the accept loop of the listening socket. What the kernel answers
is an argument. Of `l1recv` only what the sending side sees is here: its sink may
use the queue as a producer, and it ends with `EPOLLIN` cleared or with an error.
The producer runs in another thread, so each answer to a send also says what the
producer does before the next operation on the queue.
-/
namespace CppSnippets.Epoll

open QueueRefinement

/-- Where the process stops. -/
inductive TcpExit where
  /-- An exit of the queue or of a buffer, or a `BOOST_ASSERT`. -/
  | inner (e : Exit)
  /-- `%u %u`, from `l1recv`: there is no space left. -/
  | noSpace
  /-- `n>xlen` -/
  | length
  deriving DecidableEq

def inner {α : Type} : Except Exit α → Except TcpExit α := Except.mapError .inner

@[simp] theorem inner_ok {α : Type} (a : α) : inner (.ok a) = .ok a := rfl

/-- `is_open()` and the two bits of `events_`. -/
structure TcpSocket where
  isOpen : Bool
  epollin : Bool
  epollout : Bool

/-- What a send returns: an error, `EAGAIN`, or how many bytes the kernel took. -/
inductive Sent where
  | error
  | again
  | count (n : Nat)

/-- `send_ret_`, with `none` for a negative result. -/
def TcpSocket.sendRet (sk : TcpSocket) (ret : Sent) (xlen : Nat) : TcpSocket × Option Nat :=
  match ret with
  | .error => ({ sk with epollout := false }, none)
  | .again => ({ sk with epollout := false }, some 0)
  | .count n => (if n < xlen then { sk with epollout := false } else sk, some n)

/-- An operation on the queue that is not the sending side's own. -/
abbrev ProducerOp := { op : Op // op.byProducer = true }

def produce {N : Nat} (q : CycleBufferQueue N) : List ProducerOp → Except Exit (CycleBufferQueue N)
  | [] => .ok q
  | op :: ops => do produce (← exec q op.val) ops

/-- An answer to a send, and what the producer does until the queue is used again. -/
structure Reply where
  ret : Sent
  meanwhile : List ProducerOp

/-- What happened on one connection, which the code does not keep. -/
structure Connection where
  /-- The buffers that `wait` has returned. -/
  taken : List (List Byte)
  /-- The bytes that the kernel has taken. -/
  wire : List Byte
  /-- The buffers that `done` has been called for. -/
  done : List (List Byte)

def Connection.new : Connection := ⟨[], [], []⟩

structure TcpIo (N : Nat) where
  q : CycleBufferQueue N
  sk : TcpSocket
  /-- `txq_iter_` and `tx_p_`, counted from the begin of that buffer; `none`
  while `tx_p_` is null. -/
  tx : Option (Fin N × Nat)
  conn : Connection
  /-- The connections before this one. -/
  past : List Connection

namespace TcpIo

variable {N : Nat}

/-- A client starts out connected, a server waits for a connection. -/
def init (h : 0 < N) (capacity : Fin N → Nat) (client : Bool) : TcpIo N :=
  ⟨.init h capacity, ⟨client, false, false⟩, none, .new, []⟩

/-- `txqueue.done(txq_iter_)`, and `tx_p_` is null. -/
def done (s : TcpIo N) (i : Fin N) (meanwhile : List ProducerOp) : Except TcpExit (TcpIo N) := do
  let q ← inner (produce s.q meanwhile)
  let q' ← inner (q.done i)
  return { s with
    q := q'
    tx := none
    conn := { s.conn with done := s.conn.done ++ [(q.bufs i).data] } }

/-- The reset of the receive buffer is left to the receiving side. -/
def error (s : TcpIo N) (meanwhile : List ProducerOp) : Except TcpExit (TcpIo N) :=
  let sk : TcpSocket := if s.sk.isOpen then ⟨false, false, false⟩ else s.sk
  let s := { s with sk := sk }
  match s.tx with
  | none => .ok s
  | some (i, _) => s.done i meanwhile

/-- The loop, with the answers to the sends that it makes. -/
def l1send (s : TcpIo N) : List Reply → Except TcpExit (TcpIo N)
  | [] => .ok s
  | a :: as =>
      match s.tx with
      | none => .ok s
      | some (i, p) =>
          if s.sk.epollout then
            let xlen := (s.q.bufs i).size - p
            match s.sk.sendRet a.ret xlen with
            | (sk, none) => { s with sk := sk }.error a.meanwhile
            | (sk, some n) =>
                if n > xlen then .error .length
                else
                  let sent := ((s.q.bufs i).data.drop p).take n
                  let s := { s with
                    sk := sk
                    conn := { s.conn with wire := s.conn.wire ++ sent } }
                  if n = 0 then
                    if sk.epollout then .error (.inner .assertion) else .ok s
                  else if n = xlen then do
                    let s ← s.done i a.meanwhile
                    s.l1send as
                  else { s with tx := some (i, p + n) }.l1send as
          else .ok s

/-- `txqueue.wait(0)` when there is no current buffer. -/
def takeNext (s : TcpIo N) : Except TcpExit (TcpIo N) :=
  match s.tx with
  | some _ => .ok s
  | none => do
      let q ← inner s.q.wait
      return match q.iusing with
      | none => { s with q := q }
      | some i =>
          { s with
            q := q
            tx := some (i, 0)
            conn := { s.conn with taken := s.conn.taken ++ [(q.bufs i).data] } }

def trysendx (s : TcpIo N) (answers : List Reply) : Except TcpExit (TcpIo N) := do
  let s ← s.takeNext
  if s.tx = none then return s else s.l1send answers

def prewait (s : TcpIo N) (answers : List Reply) : Except TcpExit (TcpIo N) :=
  if s.sk.isOpen then s.trysendx answers else .ok s

/-- `l1recv`: what is done to the queue meanwhile, and whether it ends with an error. -/
def l1recv (s : TcpIo N) (ops : List ProducerOp) (fails : Bool) : Except TcpExit (TcpIo N) := do
  let q ← inner (produce s.q ops)
  let s := { s with q := q, sk := { s.sk with epollin := false } }
  if fails then s.error [] else return s

/-- `on_events`, and the `process_io` of a stream socket. -/
def onEvents (s : TcpIo N) (epollin epollout : Bool) (ops : List ProducerOp) (fails : Bool)
    (answers : List Reply) : Except TcpExit (TcpIo N) := do
  let s := { s with sk := ⟨s.sk.isOpen, epollin, epollout⟩ }
  let s ← if s.sk.epollin then s.l1recv ops fails else pure s
  if s.sk.epollout then s.l1send answers else return s

/-- One turn of the accept loop: the socket is the new connection's. -/
def accept (s : TcpIo N) : TcpIo N :=
  { s with sk := ⟨true, false, false⟩, conn := .new, past := s.past ++ [s.conn] }

/-- The `process_io` of the listening socket, with the number of connections it accepts. -/
def processLisk (s : TcpIo N) (n : Nat) : TcpIo N := if s.sk.isOpen then s else accept^[n] s

inductive Event where
  | produce (op : ProducerOp)
  | prewait (answers : List Reply)
  | onEvents (epollin epollout : Bool) (ops : List ProducerOp) (fails : Bool)
      (answers : List Reply)
  | lisk (n : Nat)

def next (s : TcpIo N) : Event → Except TcpExit (TcpIo N)
  | .produce op => do return { s with q := ← inner (exec s.q op.val) }
  | .prewait answers => s.prewait answers
  | .onEvents epollin epollout ops fails answers => s.onEvents epollin epollout ops fails answers
  | .lisk n => .ok (s.processLisk n)

def Step (s : TcpIo N) (ev : Event) (t : TcpIo N) : Prop := s.next ev = .ok t

end TcpIo
end CppSnippets.Epoll
