import CppSnippets.Epoll.UdpIo
import CppSnippets.Epoll.QueueRefinement

/-!
# The video path of `main.cpp`

The server puts the length of a frame in place of its start code, appends a
`PadInfo` and sends the buffer in fragments; the client collects the fragments,
puts the start code back, writes the frame to its file and queues the `PadInfo`
as feedback. The host is little-endian, `uptime::elapsed()` is an argument, and
the client's output file is open.
-/
namespace CppSnippets.Epoll

open CppSnippets.Lib QueueRefinement

/-- `BITSTREAM_LEN` -/
def bitstreamLen : Nat := 1920 * 1080 * 3 / 2

structure TimeVal where
  sec : Nat
  usec : Nat

/-- `PadInfo inf(tv)`, with the value of the counter `idx_g_`. -/
def padInfo (idx : UInt32) (tv : TimeVal) : List Byte :=
  be32 (0x80000000 ||| 12) ++ le32 idx ++ le16 (.ofNat (tv.sec % 10000)) ++
    le16 (.ofNat (tv.usec / 1000))

/-- `ntohl(*(uint32_t*)p)`, where four bytes are there. -/
def ntohl : List Byte → Option UInt32
  | b0 :: b1 :: b2 :: b3 :: _ => some (ofBe32 b0 b1 b2 b3)
  | _ => none

/-! ## The server -/

/-- A frame of fewer than four bytes would be read together with what the
storage held before; here it counts as a wrong start code. -/
def replaceStartbytesWithLen4 (b : BufferRef) : Except Exit BufferRef :=
  if ntohl b.data = some 1 then .ok (b.poke (be32 (.ofNat b.size))) else .error .startbytes

def attachTestInfo (idx : UInt32) (tv : TimeVal) (b : BufferRef) : Except Exit BufferRef :=
  b.put (padInfo idx tv)

/-- `ServerMain::BufferQueue::done`, and the counter after it. -/
def serverDone (idx : UInt32) (tv : TimeVal) (q : CycleBufferQueue 2) (j : Fin 2) :
    Except Exit (UInt32 × CycleBufferQueue 2) :=
  if some j = q.ialloc then do
    let b ← replaceStartbytesWithLen4 (q.bufs j)
    let b ← attachTestInfo idx tv b
    return (idx + 1, ← { q with bufs := Function.update q.bufs j b }.done j)
  else do return (idx, ← q.done j)

structure Server where
  bufq : CycleBufferQueue 2
  /-- `idx_g_` -/
  idx : UInt32
  io : IoBasic

def Server.init (idx : UInt32) (recvCap : Nat) : Server :=
  ⟨.init (by decide) fun _ => bitstreamLen, idx, ⟨none, 0, 0, 0, .mk0 recvCap, true⟩⟩

/-- A frame from the encoder, the time at its `done`, and what the receive
direction has left in `xh_.u16[1]` before each of its fragments. -/
structure Shot where
  frame : List Byte
  tv : TimeVal
  echo : Nat → UInt16

/-- The loop of `prewait` over one buffer, every send taking the whole datagram:
each datagram with the fragment counter it was sent under. -/
def sendLoop (echo : Nat → UInt16) : Nat → IoBasic →
    Except Exit (IoBasic × List (UInt16 × List Byte))
  | 0, io => .ok (io, [])
  | turns + 1, io =>
      match io.txbuf with
      | none => .ok (io, [])
      | some data => do
          let (io', wire) ← { io with xh1 := echo io.xh0.toNat }.l2send
            (4 + min fragSize (data.length - io.txpos) : Nat)
          let (io'', sends) ← sendLoop echo turns io'
          return (io'', (io.xh0, wire) :: sends)

/-- One frame from the encoder's `alloc` to the `done` of the sent buffer. -/
def Server.shoot (srv : Server) (x : Shot) : Except Exit (Server × List (UInt16 × List Byte)) := do
  let q ← srv.bufq.alloc bitstreamLen
  let q ← onSlot q.ialloc (q.fill · x.frame)
  let (idx, q) ← match q.ialloc with
    | none => .error .assertion
    | some j => serverDone srv.idx x.tv q j
  let q ← q.wait
  match q.iusing with
  | none => .error .assertion
  | some u =>
      let data := (q.bufs u).data
      let (io, sends) ← sendLoop x.echo data.length (srv.io.prewait data)
      return (⟨← q.done u, idx, io⟩, sends)

def Server.serve (srv : Server) : List Shot → Except Exit (Server × List (UInt16 × List Byte))
  | [] => .ok (srv, [])
  | x :: xs => do
      let (srv, sends) ← srv.shoot x
      let (srv, more) ← srv.serve xs
      return (srv, sends ++ more)

/-! ## The client -/

structure Client where
  bufq : CycleBufferQueue 16
  /-- The messages that `feedback` has completed. -/
  queued : List (List Byte)
  /-- What has been written to `ofp_`. -/
  file : List Byte

def Client.init : Client := ⟨.init (by decide) fun _ => 16, [], []⟩

def Client.feedback (c : Client) (p : List Byte) : Except Exit Client := do
  let q ← c.bufq.alloc p.length
  let q ← onSlot q.ialloc (q.fill · p)
  let m := q.ialloc.map fun j => (q.bufs j).data
  let q ← onSlot q.ialloc q.done
  return { c with bufq := q, queued := c.queued ++ m.toList }

def Client.unpack (c : Client) (rb : BufferRef) : Except Exit (Client × BufferRef × Nat) :=
  if rb.size < 8 then .ok (c, rb, 0)
  else
    match ntohl rb.data with
    | none => .ok (c, rb, 0)
    | some uh =>
        let len := (uh &&& 0x00ffffff).toNat
        if rb.size < len then .ok (c, rb, 0)
        else if uh &&& 0x80000000 ≠ 0 then do
          return (← c.feedback (rb.data.take len), rb, len)
        else
          let rb := rb.poke (be32 1)
          .ok ({ c with file := c.file ++ rb.data.take len }, rb, len)

theorem unpack_size {c c' : Client} {rb rb' : BufferRef} {len : Nat}
    (h : c.unpack rb = .ok (c', rb', len)) : rb'.size = rb.size := by
  unfold Client.unpack at h
  split at h
  · cases h
    rfl
  · rename_i hsz
    split at h
    · cases h
      rfl
    · simp only at h
      split at h
      · cases h
        rfl
      · split at h
        · cases hf : c.feedback (rb.data.take _) with
          | error e => rw [hf] at h; cases h
          | ok c1 =>
            rw [hf] at h
            cases h
            rfl
        · cases h
          simp only [BufferRef.poke, BufferRef.size, List.length_append, List.length_take,
            List.length_drop, be32_length] at hsz ⊢
          omega

/-- `ClientMain` as the receive sink. -/
def Client.sink : Sink Client := ⟨Client.unpack, unpack_size⟩

/-- What happens at the client: a datagram arrives, or its own sender takes the
next feedback from the queue, or is done with it. -/
inductive Arrival where
  | datagram (d : List Byte)
  | takeFeedback
  | feedbackSent

/-- The queue operations of the sender are called where their assertions hold. -/
def Client.step (c : Client) (io : IoBasic) : Arrival → Except Exit (Client × IoBasic)
  | .datagram d => do
      let (c, io, _) ← io.l2recvOne (processRecvd Client.sink) c (.datagram d)
      return (c, io)
  | .takeFeedback =>
      if c.bufq.iusing = none then do return ({ c with bufq := ← c.bufq.wait }, io)
      else .ok (c, io)
  | .feedbackSent =>
      match c.bufq.iusing with
      | none => .ok (c, io)
      | some u => do return ({ c with bufq := ← c.bufq.done u }, io)

def Client.receive (c : Client) (io : IoBasic) : List Arrival → Except Exit (Client × IoBasic)
  | [] => .ok (c, io)
  | a :: as => do
      let (c, io) ← c.step io a
      c.receive io as

/-- The datagrams among the arrivals that are not keep-alives. -/
def fragmentsOf (as : List Arrival) : List (List Byte) :=
  as.filterMap fun
    | .datagram d => if d = [0xff, 0xff, 0xff, 0xff] then none else some d
    | _ => none

end CppSnippets.Epoll
