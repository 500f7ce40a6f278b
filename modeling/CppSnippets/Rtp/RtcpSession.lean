import CppSnippets.Rtp.Receiver
import CppSnippets.Rtp.SenderReport
import CppSnippets.Rtp.Statis
import CppSnippets.Wap.Text

/-!
# `rtcp_client` beside `rtp_receiver`

What comes in on both ports, and what goes out on that of RTCP: the fragments that the
receiver takes are counted, and each datagram of RTCP is first of all an occasion to
report. A report is not copied when it is given to `async_send_to`: the socket takes what
`rr_` holds, within the call or at some later time.
-/
namespace CppSnippets.Rtp

open CppSnippets.Lib
open CppSnippets.Wap (digits)

/-! ## `rr_` -/

/-- What the constructor draws: `rand()`, twice, and the port of RTP. -/
structure Ident where
  ssrc : UInt32
  rand : Nat
  port : Nat

/-- `"%c%04d."` in six bytes, the last of which is zero. -/
def Ident.cname (id : Ident) : List Byte :=
  let port := List.replicate (4 - (digits id.port).length) 48 ++ digits id.port
  (UInt8.ofNat (id.rand % 26 + 65) :: (port ++ [46])).take 5 ++ [0]

def be24 (n : Nat) : List Byte := [.ofNat (n / 65536), .ofNat (n / 256), .ofNat n]

/-- The bytes of `rr_`. Its own number is in host order. -/
def composed (id : Ident) (rr : LastSr) (rb : ReportBlock) : List Byte :=
  [0x81, 201, 0, 7] ++ le32 id.ssrc ++ rr.ssrc ++ rb.fraction :: be24 rb.cumulative ++
    be32 rb.exthsn ++ be32 rb.jitter ++ rr.lsr ++ be32 rb.dlsr ++
    [0x81, 202, 0, 3] ++ le32 id.ssrc ++ [1, 6] ++ id.cname

/-! ## The session -/

/-- A report that was made: how many sender reports had been heard, the numbers of the
fragments that had been counted, the time, and what was reported. -/
structure Made where
  answers : Nat
  counted : List UInt16
  time : UInt32
  report : Report

/-- `rtp_receiver` and `rtcp_client`; `ts_sr_` is in both of its parts. What has been
heard, counted and made is ghost. -/
structure RtcpSession where
  id : Ident
  rx : Receiver
  client : RtcpClient
  reception : RtcpReception
  /-- What `rreport` has written to `rr_.rb`. -/
  rb : ReportBlock
  /-- The calls of `async_send_to` that have not ended. -/
  sending : Nat
  receiving : Bool
  wire : List (List Byte)
  heard : List LastSr
  counted : List UInt16
  made : List Made

namespace RtcpSession

/-- After the constructor, whose first report is not due. The buffer and `rtpsi_` are not
initialised. -/
def start (id : Ident) (buf : Nat → Byte) (rtpsi : RtpStatisInfo) : RtcpSession where
  id := id
  rx := .init
  client := ⟨rtpsi, 0, 0⟩
  reception := ⟨buf, ⟨[0, 0, 0, 0], [0, 0, 0, 0], 0⟩⟩
  rb := ⟨0, 0, 0, 0, 0⟩
  sending := 0
  receiving := true
  wire := []
  heard := []
  counted := []
  made := []

/-- What `rtp_statis_` is called with. -/
def statisCalls (es : List Effect) : List RtpHeader :=
  es.filterMap fun e => match e with
    | .rtpStatis h _ => some h
    | .sinkCommit _ => none

def count (s : RtcpSession) (now : UInt32) (h : RtpHeader) : RtcpSession :=
  { s with
    client := { s.client with rtpsi := s.client.rtpsi.statis h.seq h.timestamp now }
    counted := s.counted ++ [h.seq] }

/-- A datagram of RTP; the time is that of `statis`. -/
def rtp (s : RtcpSession) (d : List Byte) (now : UInt32) : RtcpSession :=
  let (rx, es) := handleDatagram s.rx d
  (statisCalls es).foldl (fun s h => s.count now h) { s with rx := rx }

/-- A send ends: the socket has taken `rr_`, or it has not. -/
def ended (s : RtcpSession) (ok : Bool) : RtcpSession :=
  { s with
    sending := s.sending - 1
    wire := if ok then s.wire ++ [composed s.id s.reception.rr s.rb] else s.wire }

/-- A report is given to `async_send_to`. -/
def report (s : RtcpSession) (c : RtcpClient) (r : Report) (now : UInt32) : RtcpSession :=
  { s with
    client := c
    rb := r.rb
    sending := s.sending + 1
    made := s.made ++ [⟨s.heard.length, s.counted, now, r⟩] }

/-- `rreport()`; there is no next state when the assertion fails. `tried` is how a send
within the call ends, if there is one. -/
def rreport (s : RtcpSession) (now : UInt32) (tried : Option Bool) : Option RtcpSession :=
  match s.client.rreport now with
  | (_, .assertion) => none
  | (c, .sent r) =>
      match tried with
      | none => some (s.report c r now)
      | some ok => some ((s.report c r now).ended ok)
  | (c, _) => some { s with client := c }

/-- `handle_receive_from`, behind its `rreport()`. -/
def receive (s : RtcpSession) (e : RtcpEvent) : Option RtcpSession :=
  match s.reception.handle e with
  | (.exit, _) => none
  | (.nothing, m) => some { s with reception := ⟨m.bytes, s.reception.rr⟩ }
  | (.senderReport r, m) => some { s with
      reception := ⟨m.bytes, r⟩
      client := { s.client with tsSr := r.tsSr }
      heard := s.heard ++ [r] }

inductive Event where
  /-- A datagram of RTP. -/
  | rtp (d : List Byte) (now : UInt32)
  /-- A datagram of RTCP, with the times at which it is handled and stored. -/
  | rtcp (d : List Byte) (now later : UInt32) (tried : Option Bool)
  /-- The receive fails, and no other one is started. -/
  | failed (now : UInt32) (tried : Option Bool)
  /-- A send ends that did not end within its call. -/
  | sent (ok : Bool)

def next (s : RtcpSession) : Event → Option RtcpSession
  | .rtp d now => some (s.rtp d now)
  | .rtcp d now later tried =>
    if s.receiving then (s.rreport now tried).bind fun s => s.receive ⟨d, later.toNat⟩ else none
  | .failed now tried =>
    if s.receiving then (s.rreport now tried).map fun s => { s with receiving := false } else none
  | .sent ok => if s.sending = 0 then none else some (s.ended ok)

abbrev Step (s : RtcpSession) (ev : Event) (t : RtcpSession) : Prop := s.next ev = some t

end RtcpSession

/-! ## What the other side reads -/

/-- A report block. -/
structure BlockRead where
  source : List Byte
  fraction : Byte
  lost : Nat
  highest : UInt32
  jitter : UInt32
  lsr : List Byte
  delay : UInt32
  deriving DecidableEq

/-- A receiver report with one block, and the source description behind it. -/
structure CompoundRead where
  reporter : List Byte
  block : BlockRead
  described : List Byte
  cname : List Byte
  deriving DecidableEq

/-- The first packet, when it is of version 2 and all there: its count, its type, what it
holds, and what is behind it. -/
def readPacket : List Byte → Option (Nat × Byte × List Byte × List Byte)
  | h :: pt :: a :: b :: s =>
    let n := 4 * (ofBe16 a b).toNat
    if h.toNat / 64 = 2 ∧ n ≤ s.length then some (h.toNat % 32, pt, s.take n, s.drop n) else none
  | _ => none

def readBlock : List Byte → Option BlockRead
  | s0 :: s1 :: s2 :: s3 :: f :: c0 :: c1 :: c2 :: h0 :: h1 :: h2 :: h3 :: j0 :: j1 :: j2 :: j3 ::
      l0 :: l1 :: l2 :: l3 :: d0 :: d1 :: d2 :: d3 :: [] =>
    some ⟨[s0, s1, s2, s3], f, c0.toNat * 65536 + c1.toNat * 256 + c2.toNat,
      ofBe32 h0 h1 h2 h3, ofBe32 j0 j1 j2 j3, [l0, l1, l2, l3], ofBe32 d0 d1 d2 d3⟩
  | _ => none

/-- One chunk with one item, a `CNAME`, that fills it. -/
def readChunk : List Byte → Option (List Byte × List Byte)
  | s0 :: s1 :: s2 :: s3 :: 1 :: len :: text =>
    if text.length = len.toNat then some ([s0, s1, s2, s3], text) else none
  | _ => none

def readCompound (d : List Byte) : Option CompoundRead :=
  match readPacket d with
  | none => none
  | some (count, pt, body, rest) =>
    match readBlock (body.drop 4), readPacket rest with
    | some block, some (count', pt', chunk, rest') =>
      if count = 1 ∧ pt = 201 ∧ count' = 1 ∧ pt' = 202 ∧ rest' = [] then
        (readChunk chunk).map fun (described, cname) => ⟨body.take 4, block, described, cname⟩
      else none
    | _, _ => none

end CppSnippets.Rtp
