import CppSnippets.Rtp.Packet

/-!
# `rtp_receiver`

`handle_datagram` and `nalu_incoming`, with the calls of the two callbacks as
the list of effects, in order.
-/
namespace CppSnippets.Rtp

open CppSnippets.Lib

inductive Effect where
  | sinkCommit (b : Block)
  | rtpStatis (h : RtpHeader) (data : List Byte)

/-- What the sink is given by it. -/
def Effect.commit : Effect → Option Block
  | .sinkCommit b => some b
  | .rtpStatis _ _ => none

structure Receiver where
  /-- `expseq_` -/
  expseq : Nat
  /-- `bufp_`, `none` when it is empty. -/
  bufp : Option Block

def Receiver.init : Receiver := ⟨0, none⟩

/-- The loop over the aggregated units. A length of zero is skipped, one that
exceeds what is left ends the packet. -/
def stapA (rtpH : RtpHeader) : List Byte → List Effect
  | l0 :: l1 :: data =>
      let len := (ofBe16 l0 l1).toNat
      if len > data.length then []
      else
        match data.take len with
        | [] => stapA rtpH data
        | h2 :: rest => .sinkCommit (mbuffer rtpH h2 rest) :: stapA rtpH (data.drop len)
  | _ => []
termination_by data => data.length
decreasing_by
  · simp only [List.length_cons]
    omega
  · simp only [List.length_cons, List.length_drop]
    omega

/-- A fragment behind what is assembled; the end bit hands the unit on. -/
def fuAppend (b : Block) (rtpH : RtpHeader) (fu h3 : Byte) (rest : List Byte) :
    Option Block × List Effect :=
  let statis := Effect.rtpStatis rtpH (h3 :: rest)
  if fuE fu then (none, [statis, .sinkCommit (b.put rest)]) else (some (b.put rest), [statis])

/-- The branch of type 28, from the fragment header on. -/
def fuA (bufp : Option Block) (rtpH : RtpHeader) (h1 : Byte) (continus : Bool) :
    List Byte → Option Block × List Effect
  | [] => (bufp, [])
  | fu :: rest =>
      if fuS fu then fuAppend (.init rtpH (nalOfFu h1 fu)) rtpH fu (nalOfFu h1 fu) rest
      else if !continus then (none, [])
      else
        match bufp with
        | none => (none, [])
        | some b => fuAppend b rtpH fu fu rest

def naluIncoming (bufp : Option Block) (rtpH : RtpHeader) (continus : Bool) :
    List Byte → Option Block × List Effect
  | [] => (bufp, [])
  | h1 :: data =>
      if nalType h1 = 24 then (bufp, stapA rtpH data)
      else if nalType h1 = 28 then fuA bufp rtpH h1 continus data
      else if nalType h1 < 24 then (bufp, [.sinkCommit (mbuffer rtpH h1 data)])
      else (bufp, [])

/-- The exception to the test for a gap: the number is far behind the expected one. -/
def jumpsBack (exp seq : Nat) : Bool := seq < exp && exp - seq > 0x1fff

def continues (exp seq : Nat) : Bool := seq = exp % 0x10000 || jumpsBack exp seq

def handleDatagram (r : Receiver) (d : List Byte) : Receiver × List Effect :=
  match RtpHeader.cast d with
  | none => (r, [])
  | some h =>
      let (bufp, es) :=
        naluIncoming r.bufp h (continues r.expseq h.seq.toNat) (d.drop h.length)
      (⟨h.seq.toNat + 1, bufp⟩, es)

end CppSnippets.Rtp
