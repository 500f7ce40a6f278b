import CppSnippets.Epoll.Buffer
import CppSnippets.Lib.Bytes

/-!
# One endpoint of the datagram transport

`l2send`, `l2recv_one`, the part of `prewait` that takes a buffer from the
queue, and `process_recvd`. What the kernel answers is an argument: the number
that a send returns, and what a receive returns. The test-only `PadInfo` log
lines and the counter `txbytes_`, which nothing reads, are left out.
-/
namespace CppSnippets.Epoll

open CppSnippets.Lib

/-- `MTU`, less the two index words in front of every datagram. -/
def fragSize : Nat := 1456 - 4

structure IoBasic where
  /-- `txbuf_`: the bytes of the buffer being sent, `none` for `end()`. -/
  txbuf : Option (List Byte)
  /-- `txpos_`, counted from the begin of that buffer. -/
  txpos : Nat
  /-- `xh_.u16[0]`, the number of the next fragment to send. -/
  xh0 : UInt16
  /-- `xh_.u16[1]`, the number of the fragment expected next. -/
  xh1 : UInt16
  /-- `sk.xbuf()` -/
  xbuf : BufferRef
  /-- `sk.is_open()` -/
  isOpen : Bool

/-- What a receive call returns: an error, nothing to read, or a datagram. -/
inductive Recv where
  | error
  | again
  | datagram (d : List Byte)

/-- What `l2recv_one` did with what it received. -/
inductive Taken where
  | nothing
  | closed
  | keepAlive
  /-- Not the expected fragment: everything received so far is gone. -/
  | dropped
  /-- Added to the buffer, which held nothing else if `restarted`. -/
  | part (restarted : Bool)
  /-- The same for a last fragment; `process_recvd` was called with `rb`. -/
  | whole (restarted : Bool) (rb : BufferRef)

namespace IoBasic

variable {σ : Type}

/-- The free space filled with as much of `p` as fits, as `recvmsg` does. -/
def fill (b : BufferRef) (p : List Byte) : BufferRef :=
  ⟨b.data ++ p.take b.spaces, b.capacity, by
    have := b.fits
    simp only [List.length_append, List.length_take, BufferRef.spaces, BufferRef.size]
    omega⟩

def l2close (io : IoBasic) : Except Exit IoBasic :=
  if io.isOpen then .ok { io with txbuf := none, xbuf := io.xbuf.clear, isOpen := false }
  else .error .assertion

/-- The branch of `prewait` in which `wait` has returned a buffer. -/
def prewait (io : IoBasic) (data : List Byte) : IoBasic :=
  { io with txbuf := some data, txpos := 0, xh0 := 0 }

/-- The datagram handed to `send`, and the endpoint after `send` returned `slen`. -/
def l2send (io : IoBasic) (slen : Int) : Except Exit (IoBasic × List Byte) :=
  match io.txbuf with
  | none => .error .assertion
  | some data =>
      if data.isEmpty ∨ data.length ≤ io.txpos then .error .assertion
      else do
        let datalen := data.length - io.txpos
        let xlen := min fragSize datalen
        let head0 := if xlen = datalen then io.xh0 ||| 0x8000 else io.xh0
        let wire := be16 head0 ++ be16 io.xh1 ++ (data.drop io.txpos).take xlen
        let io := { io with xh0 := io.xh0 + 1 }
        if slen < 4 + xlen then return (← io.l2close, wire)
        else if io.txpos + xlen = data.length then
          return ({ io with txpos := 0, txbuf := none }, wire)
        else return ({ io with txpos := io.txpos + xlen }, wire)

/-- From the label `Pos_incr_recv__` on. -/
def posIncrRecv (process : σ → BufferRef → Except Exit (σ × BufferRef)) (s : σ) (io : IoBasic)
    (head0 : UInt16) (restarted : Bool) : Except Exit (σ × IoBasic × Taken) :=
  if head0 &&& 0x8000 ≠ 0 then do
    let (s, rb) ← process s io.xbuf
    return (s, { io with xh1 := 0, xbuf := rb }, .whole restarted io.xbuf)
  else .ok (s, { io with xh1 := io.xh1 + 1 }, .part restarted)

def l2recvOne (process : σ → BufferRef → Except Exit (σ × BufferRef)) (s : σ) (io : IoBasic) :
    Recv → Except Exit (σ × IoBasic × Taken)
  | .error => do return (s, ← io.l2close, .closed)
  | .again => .ok (s, io, .nothing)
  | .datagram [] => .ok (s, io, .nothing)
  | .datagram (b0 :: b1 :: _ :: _ :: p) => do
      let p := p.take io.xbuf.spaces
      -- the test is on the word as received: all ones in either byte order
      if ofBe16 b0 b1 = 0xffff then
        if 8 < 4 + p.length then return (s, ← io.l2close, .closed)
        else return (s, io, .keepAlive)
      else
        let head0 := ofBe16 b0 b1
        let xbuf ← io.xbuf.commit p
        if head0 &&& 0x7fff = io.xh1 then
          posIncrRecv process s { io with xbuf := xbuf } head0 false
        else if head0 &&& 0x7fff = 0 then
          let xbuf ← xbuf.consume (xbuf.size - p.length)
          posIncrRecv process s { io with xh1 := 0, xbuf := xbuf } head0 true
        else
          let xbuf ← xbuf.consume xbuf.size
          return (s, { io with xh1 := 0, xbuf := xbuf }, .dropped)
  | .datagram _ => do return (s, ← io.l2close, .closed)

/-! ## The fragments of a buffer -/

/-- The first index word of fragment `i`. -/
def head0 (data : List Byte) (i : Nat) : UInt16 :=
  if data.length ≤ (i + 1) * fragSize then UInt16.ofNat i ||| 0x8000 else UInt16.ofNat i

/-- Fragment `i` of a buffer as a datagram, with the sender's second index word. -/
def fragment (data : List Byte) (echo : UInt16) (i : Nat) : List Byte :=
  be16 (head0 data i) ++ be16 echo ++ chunk fragSize data i

/-- The number of fragments of a buffer. -/
def count (data : List Byte) : Nat := (data.length + (fragSize - 1)) / fragSize

theorem lt_count {data : List Byte} {i : Nat} : i < count data ↔ i * fragSize < data.length := by
  unfold count fragSize
  omega

theorem count_eq {data : List Byte} {i : Nat} (hi : i * fragSize < data.length) :
    i + 1 = count data ↔ data.length ≤ (i + 1) * fragSize := by
  unfold count fragSize at *
  omega

theorem head0_low (data : List Byte) {i : Nat} (hi : i < 0x7fff) :
    head0 data i &&& 0x7fff = UInt16.ofNat i := by
  have hn : (UInt16.ofNat i).toNat = i := UInt16.toNat_ofNat_of_lt' (by change i < 65536; omega)
  unfold head0
  split
  · exact or_flag16_low _ (by omega)
  · exact low15_of_lt _ (by omega)

theorem head0_flag (data : List Byte) {i : Nat} (hi : i < 0x7fff) :
    head0 data i &&& 0x8000 ≠ 0 ↔ data.length ≤ (i + 1) * fragSize := by
  have hn : (UInt16.ofNat i).toNat = i := UInt16.toNat_ofNat_of_lt' (by change i < 65536; omega)
  rw [Ne, flag16]
  unfold head0
  split
  · rename_i h
    rw [or_flag16 _ (by omega)]
    omega
  · rename_i h
    omega

/-- No fragment looks like a keep-alive. -/
theorem head0_ne (data : List Byte) {i : Nat} (hi : i < 0x7fff) : head0 data i ≠ 0xffff := by
  intro h
  have hl := head0_low data hi
  rw [h] at hl
  have hn : (UInt16.ofNat i).toNat = i := UInt16.toNat_ofNat_of_lt' (by change i < 65536; omega)
  rw [← hl] at hn
  change 0x7fff = i at hn
  omega

/-- The spec of `l2send` at the start of fragment `i`. -/
theorem l2send_fragment (io : IoBasic) {data : List Byte} {i : Nat} (slen : Int)
    (hb : io.txbuf = some data) (hp : io.txpos = i * fragSize) (hx : io.xh0 = UInt16.ofNat i)
    (hi : i * fragSize < data.length) :
    io.l2send slen =
      if slen < 4 + (chunk fragSize data i).length then do
        return (← l2close { io with xh0 := UInt16.ofNat (i + 1) }, fragment data io.xh1 i)
      else if data.length ≤ (i + 1) * fragSize then
        .ok ({ io with txbuf := none, txpos := 0, xh0 := UInt16.ofNat (i + 1) },
          fragment data io.xh1 i)
      else
        .ok ({ io with txpos := (i + 1) * fragSize, xh0 := UInt16.ofNat (i + 1) },
          fragment data io.xh1 i) := by
  have hne : ¬ (data.isEmpty = true ∨ data.length ≤ i * fragSize) := by
    rintro (h | h)
    · rw [List.isEmpty_iff.mp h] at hi
      exact absurd hi (Nat.not_lt_zero _)
    · omega
  have hsucc : UInt16.ofNat i + 1 = UInt16.ofNat (i + 1) := (UInt16.ofNat_add i 1).symm
  have hlen : (chunk fragSize data i).length = min fragSize (data.length - i * fragSize) := by
    rw [chunk, List.length_take, List.length_drop]
  have hlast : min fragSize (data.length - i * fragSize) = data.length - i * fragSize ↔
      data.length ≤ (i + 1) * fragSize := by
    rw [Nat.succ_mul]
    omega
  have hend : i * fragSize + min fragSize (data.length - i * fragSize) = data.length ↔
      data.length ≤ (i + 1) * fragSize := by
    rw [Nat.succ_mul]
    omega
  have hchunk : (data.drop (i * fragSize)).take (min fragSize (data.length - i * fragSize)) =
      chunk fragSize data i := by
    rw [chunk, ← List.length_drop, List.take_eq_take_iff, Nat.min_assoc, Nat.min_self]
  simp only [l2send, hb, hp, hx, hne, if_false, hsucc, hlen, hchunk, hend, hlast, fragment, head0]
  by_cases hl : data.length ≤ (i + 1) * fragSize
  · simp only [hl, if_true]
    rfl
  · have hmin : min fragSize (data.length - i * fragSize) = fragSize := by
      rw [Nat.succ_mul] at hl
      omega
    simp only [hl, if_false, hmin, ← Nat.succ_mul]
    rfl

/-- The buffer with only as much of `p` as there was room for. -/
def only (b : BufferRef) (p : List Byte) : BufferRef :=
  ⟨p.take b.spaces, b.capacity, by
    have := b.fits
    simp only [List.length_take, BufferRef.spaces]
    omega⟩

theorem commit_take (b : BufferRef) (p : List Byte) : b.commit (p.take b.spaces) = .ok (fill b p) := by
  unfold BufferRef.commit
  rw [dif_neg (by rw [List.length_take]; omega)]
  rfl

theorem consume_fill (b : BufferRef) (p : List Byte) :
    (fill b p).consume ((fill b p).size - (p.take b.spaces).length) = .ok (only b p) := by
  have hsz : (fill b p).size - (p.take b.spaces).length = b.data.length := by
    simp only [fill, BufferRef.size, List.length_append]
    omega
  unfold BufferRef.consume
  rw [hsz, if_neg (by simp only [fill, BufferRef.size, List.length_append]; omega)]
  exact congrArg Except.ok (BufferRef.ext_data List.drop_left rfl)

theorem fill_data {b : BufferRef} {p : List Byte} (h : p.length ≤ b.spaces) :
    (fill b p).data = b.data ++ p := by
  change b.data ++ p.take b.spaces = _
  rw [List.take_of_length_le h]

theorem fill_spaces {b : BufferRef} {p : List Byte} (h : p.length ≤ b.spaces) :
    (fill b p).spaces = b.spaces - p.length := by
  rw [BufferRef.spaces, BufferRef.size, fill_data h, List.length_append, ← Nat.sub_sub]
  rfl

/-- The spec of `l2recv_one` on a fragment. -/
theorem recv_fragment (process : σ → BufferRef → Except Exit (σ × BufferRef)) (s : σ)
    (io : IoBasic) (data : List Byte) (echo : UInt16) {i : Nat} (hi : i < 0x7fff) :
    l2recvOne process s io (.datagram (fragment data echo i)) =
      if UInt16.ofNat i = io.xh1 then
        posIncrRecv process s { io with xbuf := fill io.xbuf (chunk fragSize data i) }
          (head0 data i) false
      else if i = 0 then
        posIncrRecv process s { io with xh1 := 0, xbuf := only io.xbuf (chunk fragSize data i) }
          (head0 data i) true
      else .ok (s, { io with xh1 := 0, xbuf := io.xbuf.clear }, .dropped) := by
  have hzero : UInt16.ofNat i = 0 ↔ i = 0 := by
    rw [← UInt16.toNat_inj, UInt16.toNat_ofNat_of_lt' (by change i < 65536; omega)]
    rfl
  simp only [fragment, be16, List.cons_append, List.nil_append, l2recvOne, ofBe16_be16,
    head0_ne data hi, if_false, commit_take, head0_low data hi, hzero, bind, Except.bind, consume_fill,
    BufferRef.consume_size]
  rfl

/-- The expected fragment, not the last one. -/
theorem recv_part (process : σ → BufferRef → Except Exit (σ × BufferRef)) (s : σ) (io : IoBasic)
    (data : List Byte) (echo : UInt16) {i : Nat} (hi : i < 0x7fff)
    (hx : UInt16.ofNat i = io.xh1) (hl : (i + 1) * fragSize < data.length) :
    l2recvOne process s io (.datagram (fragment data echo i)) =
      .ok (s, { io with xh1 := io.xh1 + 1, xbuf := fill io.xbuf (chunk fragSize data i) },
        .part false) := by
  rw [recv_fragment process s io data echo hi, if_pos hx, posIncrRecv,
    if_neg (fun h => absurd ((head0_flag data hi).mp h) (by omega))]

/-- The expected fragment, the last one. -/
theorem recv_whole (process : σ → BufferRef → Except Exit (σ × BufferRef)) {s s' : σ}
    (io : IoBasic) (data : List Byte) (echo : UInt16) {i : Nat} {rb : BufferRef} (hi : i < 0x7fff)
    (hx : UInt16.ofNat i = io.xh1) (hl : data.length ≤ (i + 1) * fragSize)
    (hp : process s (fill io.xbuf (chunk fragSize data i)) = .ok (s', rb)) :
    l2recvOne process s io (.datagram (fragment data echo i)) =
      .ok (s', { io with xh1 := 0, xbuf := rb },
        .whole false (fill io.xbuf (chunk fragSize data i))) := by
  rw [recv_fragment process s io data echo hi, if_pos hx, posIncrRecv,
    if_pos ((head0_flag data hi).mpr hl)]
  simp only [hp]
  rfl

theorem recv_keepAlive (process : σ → BufferRef → Except Exit (σ × BufferRef)) (s : σ)
    (io : IoBasic) :
    l2recvOne process s io (.datagram [0xff, 0xff, 0xff, 0xff]) = .ok (s, io, .keepAlive) := by
  have hw : ofBe16 0xff 0xff = 0xffff := by decide
  simp only [l2recvOne, hw, List.take_nil, if_true]
  rfl

end IoBasic

/-! ## `process_recvd` -/

/-- What the sink may do with the front of the buffer: rewrite bytes and say how
many of them it is done with. -/
structure Sink (σ : Type) where
  run : σ → BufferRef → Except Exit (σ × BufferRef × Nat)
  keepsSize : ∀ {s b s' b' n}, run s b = .ok (s', b', n) → b'.size = b.size

/-- The loop of `process_recvd`, with the number of turns it may take. -/
def processLoop {σ : Type} (sink : Sink σ) : Nat → σ → BufferRef → Except Exit (σ × BufferRef)
  | 0, s, rb => .ok (s, rb)
  | turns + 1, s, rb =>
      if rb.isEmpty then .ok (s, rb)
      else do
        let (s, rb, len) ← sink.run s rb
        if len > 0 then
          if len > rb.size then throw .processRecvd
          let rb ← rb.consume len
          processLoop sink turns s rb
        else return (s, rb)

/-- Every turn consumes a byte, so the size of the buffer bounds the turns. -/
def processRecvd {σ : Type} (sink : Sink σ) (s : σ) (rb : BufferRef) :
    Except Exit (σ × BufferRef) := processLoop sink rb.size s rb

/-- Turns beyond the size of the buffer are never taken. -/
theorem processLoop_turns {σ : Type} (sink : Sink σ) (turns : Nat) :
    ∀ (s : σ) (rb : BufferRef), rb.size ≤ turns →
      processLoop sink turns s rb = processRecvd sink s rb := by
  induction turns using Nat.strong_induction_on with
  | _ turns ih =>
    intro s rb hle
    unfold processRecvd
    cases turns with
    | zero => rw [Nat.le_zero.mp hle]
    | succ turns =>
      cases hsz : rb.size with
      | zero =>
        have he : rb.isEmpty = true := List.isEmpty_iff.mpr (List.eq_nil_of_length_eq_zero hsz)
        simp only [processLoop, he, if_true]
      | succ k =>
        simp only [processLoop]
        by_cases he : rb.isEmpty = true
        · rw [if_pos he, if_pos he]
        · rw [if_neg he, if_neg he]
          cases hr : sink.run s rb with
          | error e => rfl
          | ok r =>
            obtain ⟨s', rb', len⟩ := r
            have hkeep := sink.keepsSize hr
            by_cases hlen : len > 0
            · by_cases hbig : len > rb'.size
              · simp [bind, Except.bind, hlen, hbig, throw, throwThe, MonadExceptOf.throw]
              · simp only [bind, Except.bind, hlen, hbig, if_true, if_false, pure, Except.pure]
                cases hc : rb'.consume len with
                | error e => rfl
                | ok c =>
                  obtain ⟨_, hd, _⟩ := BufferRef.consume_cases hc
                  have hcs : c.size < rb'.size := by
                    simp only [BufferRef.size, hd, List.length_drop]
                    simp only [BufferRef.size] at hbig hkeep hsz
                    omega
                  simp only
                  rw [ih turns (by omega) s' c (by omega), ih k (by omega) s' c (by omega)]
            · simp only [bind, Except.bind, hlen, if_false, pure, Except.pure]

/-- The spec of `process_recvd`: one call of the sink, then the rest. -/
theorem processRecvd_step {σ : Type} (sink : Sink σ) {s s' : σ} {rb rb' c : BufferRef} {len : Nat}
    (hne : rb.data ≠ []) (hr : sink.run s rb = .ok (s', rb', len)) (hlen : 0 < len)
    (hc : rb'.consume len = .ok c) : processRecvd sink s rb = processRecvd sink s' c := by
  obtain ⟨hle, hd, _⟩ := BufferRef.consume_cases hc
  have he : ¬ rb.isEmpty = true := fun h => hne (List.isEmpty_iff.mp h)
  have hcs : c.size < rb.size := by
    rw [← sink.keepsSize hr]
    simp only [BufferRef.size, hd, List.length_drop]
    simp only [BufferRef.size] at hle
    omega
  obtain ⟨k, hk⟩ : ∃ k, rb.size = k + 1 := ⟨rb.size - 1, by omega⟩
  have hbig : ¬ len > rb'.size := by omega
  conv_lhs => unfold processRecvd
  rw [hk]
  simp only [processLoop, he, hr, bind, Except.bind, gt_iff_lt, hlen, hbig, hc, if_true, if_false,
    pure, Except.pure]
  exact processLoop_turns sink k s' c (by omega)

/-- The loop ends when nothing is left, or when the sink is done with nothing. -/
theorem processRecvd_stop {σ : Type} (sink : Sink σ) {s s' : σ} {rb rb' : BufferRef}
    (h : rb.data = [] ∧ s' = s ∧ rb' = rb ∨ rb.data ≠ [] ∧ sink.run s rb = .ok (s', rb', 0)) :
    processRecvd sink s rb = .ok (s', rb') := by
  obtain ⟨hnil, rfl, rfl⟩ | ⟨hne, hr⟩ := h
  · have hz : rb'.size = 0 := by rw [BufferRef.size, hnil]; rfl
    rw [processRecvd, hz]
    rfl
  · have he : ¬ rb.isEmpty = true := fun h => hne (List.isEmpty_iff.mp h)
    obtain ⟨k, hk⟩ : ∃ k, rb.size = k + 1 :=
      ⟨rb.size - 1, by have := List.length_pos_iff.mpr hne; simp only [BufferRef.size]; omega⟩
    rw [processRecvd, hk]
    simp only [processLoop, he, hr]
    rfl

end CppSnippets.Epoll
