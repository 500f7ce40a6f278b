import Mathlib.Data.Nat.Bitwise
import CppSnippets.Lib.Run

/-!
# What the receiver counts and reports

`statis` is called for packets of fragmented units, and `rreport` for every
datagram on the port of RTCP. Words wrap; a time is what `stimestamp()` returns. A
report that does not meet the assertion ends the run. That all counters begin with 0
is assumed: the source does not initialise them.
-/
namespace CppSnippets.Rtp

open CppSnippets.Lib

/-- `rtp_statis_info`. -/
structure RtpStatisInfo where
  baseSeq : UInt32
  maxSeq : UInt16
  /-- 0 before the first packet. -/
  cycles : UInt16
  received : UInt32
  expectedPrior : UInt32
  receivedPrior : UInt32
  transit : Int32
  jitter : UInt32
  deriving DecidableEq

namespace RtpStatisInfo

def init : RtpStatisInfo := ⟨0, 0, 0, 0, 0, 0, 0, 0⟩

/-- The end of `statis`. -/
def arrive (s : RtpStatisInfo) (timestamp now : UInt32) : RtpStatisInfo :=
  let arrival := max now timestamp
  let transit := (arrival - timestamp).toInt32
  let d := transit - s.transit
  let d := if d < 0 then -d else d
  { s with transit := transit, jitter := s.jitter + (d.toUInt32 - ((s.jitter + 8) >>> 4)) }

def statis (s : RtpStatisInfo) (seq : UInt16) (timestamp now : UInt32) : RtpStatisInfo :=
  if s.cycles = 0 then
    { s with cycles := 1, baseSeq := seq.toUInt32, maxSeq := seq, received := 1 }.arrive timestamp now
  else if seq < s.maxSeq then
    if s.maxSeq.toNat - seq.toNat < 0x0fff then s
    else
      { s with cycles := s.cycles + 1, maxSeq := seq, received := s.received + 1 }.arrive timestamp now
  else { s with maxSeq := seq, received := s.received + 1 }.arrive timestamp now

def extendedMax (s : RtpStatisInfo) : UInt32 := s.cycles.toUInt32 <<< 16 ||| s.maxSeq.toUInt32

def expected (s : RtpStatisInfo) : UInt32 := s.extendedMax - s.baseSeq + 1

end RtpStatisInfo

/-- What `rreport` writes to the report block; `cumulative` is the 24-bit number on
the wire. -/
structure ReportBlock where
  fraction : UInt8
  cumulative : Nat
  exthsn : UInt32
  jitter : UInt32
  dlsr : UInt32
  deriving DecidableEq

/-- A report, with the numbers it is computed from. -/
structure Report where
  expected : UInt32
  lost : Int32
  rb : ReportBlock
  deriving DecidableEq

inductive Outcome where
  /-- No sender report since the last one. -/
  | notDue
  | noPackets
  /-- `BOOST_ASSERT` fails. -/
  | assertion
  | sent (r : Report)
  deriving DecidableEq

/-- `rtcp_client`. -/
structure RtcpClient where
  rtpsi : RtpStatisInfo
  tsSr : Int
  tsRr : Int
  deriving DecidableEq

namespace RtcpClient

def init : RtcpClient := ⟨.init, 0, 0⟩

/-- The lost packets in 256 parts of the packets expected since the last report. -/
def fraction (expectedInterval receivedInterval : Int32) : UInt8 :=
  let lostInterval := expectedInterval - receivedInterval
  if expectedInterval = 0 ∨ lostInterval ≤ 0 then 0
  else ((lostInterval <<< 8) / expectedInterval).toUInt32.toUInt8

def rreport (c : RtcpClient) (ts : UInt32) : RtcpClient × Outcome :=
  if c.tsRr + 100 < c.tsSr then
    let s := c.rtpsi
    if s.received = 0 then (c, .noPackets)
    else
      let expected := s.expected
      if s.received ≤ expected then
        let lost := (expected - s.received).toInt32
        let expectedInterval := (expected - s.expectedPrior).toInt32
        let receivedInterval := (s.received - s.receivedPrior).toInt32
        let rb : ReportBlock :=
          { fraction := fraction expectedInterval receivedInterval
            cumulative := lost.toUInt32.toNat % 2 ^ 24
            exthsn := s.extendedMax
            jitter := s.jitter >>> 4
            dlsr := ts - (UInt32.ofNat c.tsSr.toNat) }
        ({ c with
            rtpsi := { s with expectedPrior := expected, receivedPrior := s.received }
            tsRr := ts.toNat },
          .sent ⟨expected, lost, rb⟩)
      else (c, .assertion)
  else (c, .notDue)

end RtcpClient

namespace Rtcp

inductive Event where
  /-- A packet of a fragmented unit. -/
  | rtp (seq : UInt16) (timestamp now : UInt32)
  /-- A datagram of RTCP; a sender report has the time at which it is stored. -/
  | rtcp (now : UInt32) (sr : Option UInt32)

def Enabled (c : RtcpClient) : Event → Prop
  | .rtp _ _ _ => True
  | .rtcp now _ => (c.rreport now).2 ≠ .assertion

instance (c : RtcpClient) : ∀ ev, Decidable (Enabled c ev)
  | .rtp _ _ _ => .isTrue trivial
  | .rtcp _ _ => inferInstanceAs (Decidable (_ ≠ _))

def next (c : RtcpClient) : Event → RtcpClient
  | .rtp seq timestamp now => { c with rtpsi := c.rtpsi.statis seq timestamp now }
  | .rtcp now sr =>
    let c := (c.rreport now).1
    match sr with
    | some ts => { c with tsSr := ts.toNat }
    | none => c

def Step : RtcpClient → Event → RtcpClient → Prop := Moves Enabled next

/-- The sequence numbers of the packets. -/
def seqs (evs : List Event) : List UInt16 :=
  evs.filterMap fun ev =>
    match ev with
    | .rtp seq _ _ => some seq
    | .rtcp _ _ => none

end Rtcp

end CppSnippets.Rtp
