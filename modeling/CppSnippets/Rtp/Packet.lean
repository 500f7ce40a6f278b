import CppSnippets.Lib.Bytes

/-!
# RTP packets, NAL unit headers and `mbuffer`

The headers of `hgs.hpp` and `hgs-rtph264.cpp` as they are cast onto a datagram,
and the growing buffer that holds a NAL unit on its way to the sink. `malloc` and
`realloc` give what they are asked for, and sizes are natural numbers.
-/
namespace CppSnippets.Rtp

open CppSnippets.Lib

abbrev Byte := UInt8

/-! ## `rtp_header` -/

structure RtpHeader where
  cc : Nat
  x : Bool
  p : Bool
  version : Nat
  pt : Nat
  m : Bool
  seq : UInt16
  /-- In units of ten clock ticks, as `cast` leaves it. -/
  timestamp : UInt32
  ssrc : UInt32
  deriving DecidableEq

namespace RtpHeader

def length (h : RtpHeader) : Nat := 12 + 4 * h.cc

/-- `cast`; the list of sources behind the fixed part is skipped by `length()`
and not read. -/
def cast : List Byte → Option RtpHeader
  | b0 :: b1 :: s0 :: s1 :: t0 :: t1 :: t2 :: t3 :: r0 :: r1 :: r2 :: r3 :: rest =>
      let h : RtpHeader :=
        { cc := b0.toNat % 16
          x := b0.toNat / 16 % 2 = 1
          p := b0.toNat / 32 % 2 = 1
          version := b0.toNat / 64
          pt := b1.toNat % 128
          m := b1.toNat / 128 = 1
          seq := ofBe16 s0 s1
          timestamp := ofBe32 t0 t1 t2 t3 / 10
          ssrc := ofBe32 r0 r1 r2 r3 }
      if 12 + rest.length < h.length then none else some h
  | _ => none

end RtpHeader

/-! ## `nal_unit_header` and `fu_header` -/

def nalType (h : Byte) : Nat := h.toNat % 32

def nalNri (h : Byte) : Nat := h.toNat / 32 % 4

def nalF (h : Byte) : Nat := h.toNat / 128

def fuS (h : Byte) : Bool := h.toNat / 128 = 1

def fuE (h : Byte) : Bool := h.toNat / 64 % 2 = 1

/-- The fragment header turned into a NAL unit header in place: its type stays,
`nri` and `f` come from the packet's own header. -/
def nalOfFu (h1 fu : Byte) : Byte :=
  .ofNat (nalType fu + nalNri h1 * 32 + nalF h1 * 128)

/-! ## `mbuffer` -/

/-- What `base_ptr_` points to: the RTP header, then the start code, the NAL
unit header and the data. The size counts the RTP header's sixteen bytes too. Sizes are
numbers here; below 2 GiB those of the code, with 32 bits, are the same
(`Mbuffer.puts_represent`). -/
structure Block where
  rtpH : RtpHeader
  /-- From `begin_startbytes()` to `end()`. -/
  body : List Byte
  capacity : Nat
  fits : 16 + body.length ≤ capacity

namespace Block

def size (b : Block) : Nat := 16 + b.body.length

/-- `init(rh, nh)` -/
def init (rh : RtpHeader) (nh : Byte) : Block := ⟨rh, [0, 0, 0, 1, nh], 2048, by simp⟩

def put (b : Block) (p : List Byte) : Block :=
  if h : b.capacity - b.size < p.length then
    ⟨b.rtpH, b.body ++ p, b.capacity + (p.length + 2047) / 1024 * 1024, by
      have := b.fits
      rw [List.length_append]
      omega⟩
  else
    ⟨b.rtpH, b.body ++ p, b.capacity, by
      have := b.fits
      simp only [size] at h
      rw [List.length_append]
      omega⟩

@[simp] theorem init_body (rh : RtpHeader) (nh : Byte) : (init rh nh).body = [0, 0, 0, 1, nh] := rfl

/-- However the storage grows, the data go behind what is there. -/
@[simp] theorem put_body (b : Block) (p : List Byte) : (b.put p).body = b.body ++ p := by
  unfold put
  split <;> rfl

end Block

/-- `mbuffer(rh, nal_begin, end)`: a whole NAL unit. -/
def mbuffer (rh : RtpHeader) (nal : Byte) (rest : List Byte) : Block := (Block.init rh nal).put rest

end CppSnippets.Rtp
