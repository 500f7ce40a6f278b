import CppSnippets.Epoll.TcpIo
import CppSnippets.Epoll.VideoRoundTrip
import Mathlib.Data.List.Infix

/-!
# Receiving over TCP does not depend on the chunks

`l1recv` reads into the free space of the receive buffer and hands everything
there to the sink after each read. What the client has written and queued, and
what it holds back, is computed here from the bytes that the kernel has delivered
so far; each turn of the loop keeps to that, whatever the size of its chunk.
-/
namespace CppSnippets.Epoll

open CppSnippets.Lib QueueRefinement

/-! ## `l1recv` -/

/-- What a receive returns: an error, `EAGAIN`, or bytes, none at the end of the stream. -/
inductive Received where
  | error
  | again
  | bytes (d : List Byte)

/-- What the kernel delivers with these answers. -/
def Received.chunk : Received → List Byte
  | .error => []
  | .again => []
  | .bytes d => d

/-- `recv_ret_`, with `none` for a negative result. -/
def TcpSocket.recvRet (sk : TcpSocket) (ret : Received) (xlen : Nat) :
    TcpSocket × Option (List Byte) :=
  let off := { sk with epollin := false }
  match ret with
  | .error => (off, none)
  | .again => (off, some [])
  | .bytes [] => (if 0 < xlen then off else sk, none)
  | .bytes d => (if d.length < xlen then off else sk, some d)

/-- The receiving side over a sink with state `σ`. -/
structure TcpReceiver (σ : Type) where
  state : σ
  sk : TcpSocket
  /-- `sk.xbuf()` -/
  rb : BufferRef

namespace TcpReceiver

variable {σ : Type}

/-- `l2close`; the sending side's part of `error` is not repeated here. -/
def l2close (r : TcpReceiver σ) : TcpReceiver σ :=
  { r with
    sk := if r.sk.isOpen then ⟨false, false, false⟩ else r.sk
    rb := r.rb.clear }

/-- One turn of the loop. Where the source leaves the loop, `EPOLLIN` is off. -/
def turn (sink : Sink σ) (r : TcpReceiver σ) (ret : Received) : Except TcpExit (TcpReceiver σ) :=
  let xlen := r.rb.spaces
  if xlen = 0 then .error .noSpace
  else
    match r.sk.recvRet ret xlen with
    | (sk, none) => .ok { r with sk := sk }.l2close
    | (sk, some d) =>
        if d.length > xlen then .error .length
        else if d = [] then
          if sk.epollin then .error (.inner .assertion) else .ok { r with sk := sk }
        else do
          let rb ← inner (r.rb.commit d)
          let (s, rb) ← inner (processRecvd sink r.state rb)
          return ⟨s, sk, rb⟩

/-- The loop, with the answers to the receives that it makes. -/
def l1recv (sink : Sink σ) (r : TcpReceiver σ) : List Received → Except TcpExit (TcpReceiver σ)
  | [] => .ok r
  | a :: as =>
      if r.sk.epollin then do
        let r ← r.turn sink a
        r.l1recv sink as
      else .ok r

/-- `on_events`, as far as the receiving side goes. -/
def onEvents (sink : Sink σ) (r : TcpReceiver σ) (epollin epollout : Bool)
    (answers : List Received) : Except TcpExit (TcpReceiver σ) :=
  let r := { r with sk := ⟨r.sk.isOpen, epollin, epollout⟩ }
  if r.sk.epollin then r.l1recv sink answers else .ok r

end TcpReceiver

/-! ## The client on one connection -/

/-- The client's sending side takes its messages out of the queue. -/
abbrev ConsumerOp := { op : Op // op.byProducer = false }

inductive TcpEvent where
  | onEvents (epollin epollout : Bool) (answers : List Received)
  | consume (op : ConsumerOp)

/-- What the kernel delivers with an event, whatever the client makes of it. -/
def TcpEvent.chunks : TcpEvent → List Byte
  | .onEvents _ _ answers => answers.flatMap Received.chunk
  | .consume _ => []

structure TcpClient extends TcpReceiver Client where
  /-- What the kernel has delivered on this connection, which the code does not keep. -/
  input : List Byte

namespace TcpClient

def init : TcpClient := ⟨⟨.init, ⟨true, false, false⟩, .mk0 bitstreamLen⟩, []⟩

def next (c : TcpClient) (ev : TcpEvent) : Except TcpExit TcpClient :=
  match ev with
  | .onEvents epollin epollout answers => do
      let r ← c.toTcpReceiver.onEvents Client.sink epollin epollout answers
      return ⟨r, c.input ++ ev.chunks⟩
  | .consume op => do
      let q ← inner (exec c.state.bufq op.val)
      return { c with state := { c.state with bufq := q } }

def Step (c : TcpClient) (ev : TcpEvent) (d : TcpClient) : Prop := c.next ev = .ok d

end TcpClient

namespace TcpReceive

variable {r : TcpReceiver Client} {c d : TcpClient} {frames : List (List Byte)}

/-! ## Frames -/

/-- `uh & 0x80000000` -/
def flagged (p : List Byte) : Bool :=
  match ntohl p with
  | none => false
  | some uh => uh &&& 0x80000000 ≠ 0

/-- A message whose first word is its own length. -/
structure IsFrame (p : List Byte) : Prop where
  long : 8 ≤ p.length
  fits : p.length ≤ bitstreamLen
  header : ∃ uh, ntohl p = some uh ∧ (uh &&& 0x00ffffff).toNat = p.length
  feedback : flagged p = true → p.length ≤ 16

/-- The start code in place of the length. -/
def startCode (p : List Byte) : List Byte := be32 1 ++ p.drop 4

/-- What the client's file holds after these frames. -/
def fileOf (ps : List (List Byte)) : List Byte :=
  ((ps.filter fun p => !flagged p).map startCode).flatten

/-- What the client has queued after these frames. -/
def queueOf (ps : List (List Byte)) : List (List Byte) := ps.filter flagged

/-- The frames of which the first `n` bytes of the stream hold every byte. -/
def whole : List (List Byte) → Nat → List (List Byte)
  | [], _ => []
  | p :: ps, n => if p.length ≤ n then p :: whole ps (n - p.length) else []

theorem whole_all (ps : List (List Byte)) : whole ps ps.flatten.length = ps := by
  induction ps with
  | nil => rfl
  | cons p ps ih =>
    rw [List.flatten_cons, List.length_append, whole, if_pos (Nat.le_add_right _ _),
      Nat.add_sub_cancel_left, ih]

/-- What is left of the frames, and how it goes on from the first byte not yet used. -/
theorem whole_split (ps : List (List Byte)) : ∀ n, (whole ps n).flatten.length ≤ n ∧
    ∃ rest, ps = whole ps n ++ rest ∧
      (∀ p ∈ rest.head?, n - (whole ps n).flatten.length < p.length) ∧
      ∀ m, whole ps ((whole ps n).flatten.length + m) = whole ps n ++ whole rest m := by
  induction ps with
  | nil => exact fun n => ⟨Nat.zero_le n, [], rfl, by simp, fun _ => rfl⟩
  | cons p ps ih =>
    intro n
    by_cases hp : p.length ≤ n
    · obtain ⟨hle, rest, heq, hhead, hgo⟩ := ih (n - p.length)
      have hw : whole (p :: ps) n = p :: whole ps (n - p.length) := by rw [whole, if_pos hp]
      rw [hw, List.flatten_cons, List.length_append]
      refine ⟨by omega, rest, congrArg (p :: ·) heq, fun r hr => ?_, fun m => ?_⟩
      · have := hhead r hr
        omega
      · rw [whole, if_pos (by omega), Nat.add_assoc, Nat.add_sub_cancel_left, hgo m]
        rfl
    · have hw : whole (p :: ps) n = [] := by rw [whole, if_neg hp]
      rw [hw]
      refine ⟨Nat.zero_le n, p :: ps, rfl, fun r hr => ?_, fun m => ?_⟩
      · obtain rfl := Option.mem_some.mp hr
        change n - 0 < p.length
        omega
      · change whole (p :: ps) (0 + m) = _
        rw [Nat.zero_add]
        rfl

/-! ## The sink on a prefix of the frames -/

theorem ntohl_append {p : List Byte} (t : List Byte) (h : 4 ≤ p.length) :
    ntohl (p ++ t) = ntohl p := by
  obtain ⟨b0, b1, b2, b3, l, rfl⟩ : ∃ b0 b1 b2 b3 l, p = b0 :: b1 :: b2 :: b3 :: l := by
    match p, h with
    | b0 :: b1 :: b2 :: b3 :: l, _ => exact ⟨b0, b1, b2, b3, l, rfl⟩
  rfl

/-- A frame that has not come in whole is left where it is. -/
theorem unpack_short {c : Client} {rb : BufferRef} {p t : List Byte} (hp : IsFrame p)
    (hd : p = rb.data ++ t) (hlt : rb.size < p.length) : c.unpack rb = .ok (c, rb, 0) := by
  obtain ⟨uh, hword, hlen⟩ := hp.header
  unfold Client.unpack
  by_cases hsz : rb.size < 8
  · rw [if_pos hsz]
  · have hrb : ntohl rb.data = some uh := by
      rw [← hword, hd, ntohl_append t (by simp only [BufferRef.size] at hsz; omega)]
    rw [if_neg hsz, hrb]
    simp only [hlen, hlt, if_true]

/-- A frame that has come in whole goes to the file or to the queue. -/
theorem unpack_whole {c : Client} {rb : BufferRef} {p t : List Byte} (hp : IsFrame p)
    (hc : VideoRoundTrip.Ready c.bufq) (hd : rb.data = p ++ t) :
    ∃ q rb', c.unpack rb = .ok (⟨q, c.queued ++ queueOf [p], c.file ++ fileOf [p]⟩, rb', p.length) ∧
      VideoRoundTrip.Ready q ∧ rb'.data.drop p.length = t ∧ rb'.size = rb.size ∧
      rb'.capacity = rb.capacity := by
  obtain ⟨uh, hword, hlen⟩ := hp.header
  have hlong := hp.long
  have hsz : rb.size = p.length + t.length := by rw [BufferRef.size, hd, List.length_append]
  have hrb : ntohl rb.data = some uh := by rw [hd, ntohl_append t (by omega), hword]
  have hflag : flagged p = decide (uh &&& 0x80000000 ≠ 0) := by rw [flagged, hword]
  unfold Client.unpack
  rw [if_neg (by omega), hrb]
  simp only [hlen]
  rw [if_neg (by omega)]
  by_cases hf : uh &&& 0x80000000 ≠ 0
  · have hfp : flagged p = true := hflag.trans (decide_eq_true hf)
    obtain ⟨q, hfeed, hq⟩ := VideoRoundTrip.feedback_spec hc (hp.feedback hfp)
    rw [if_pos hf, hd, List.take_left, hfeed]
    refine ⟨q, rb, ?_, hq, by rw [hd, List.drop_left], rfl, rfl⟩
    simp [queueOf, fileOf, hfp, bind, Except.bind, pure, Except.pure]
  · have hfp : flagged p = false := hflag.trans (decide_eq_false hf)
    have hpoke : (rb.poke (be32 1)).data = startCode p ++ t := by
      change (be32 1).take rb.size ++ rb.data.drop 4 = _
      rw [List.take_of_length_le (by rw [be32_length]; omega), hd,
        List.drop_append_of_le_length (by omega), startCode, List.append_assoc]
    have hsc : (startCode p).length = p.length := by
      rw [startCode, List.length_append, be32_length, List.length_drop]
      omega
    rw [if_neg hf]
    refine ⟨c.bufq, rb.poke (be32 1), ?_, hc, ?_, ?_, rfl⟩
    · simp [queueOf, fileOf, hfp, hpoke, List.take_left' hsc]
    · rw [hpoke, List.drop_left' hsc]
    · rw [BufferRef.size, hpoke, List.length_append, hsc, hsz]

/-- The beginning of a frame is kept. -/
theorem process_short {p s : List Byte} {c : Client} {rb : BufferRef} (hp : IsFrame p)
    (hpre : rb.data <+: p ++ s) (hlt : rb.size < p.length) :
    processRecvd Client.sink c rb = .ok (c, rb) := by
  refine processRecvd_stop Client.sink ?_
  by_cases hnil : rb.data = []
  · exact .inl ⟨hnil, rfl, rfl⟩
  · obtain ⟨t, ht⟩ : rb.data <+: p :=
      List.prefix_of_prefix_length_le hpre (List.prefix_append p s) (Nat.le_of_lt hlt)
    exact .inr ⟨hnil, unpack_short hp ht.symm hlt⟩

/-- The spec of `process_recvd` on the first bytes of a list of frames. -/
theorem process_spec (ps : List (List Byte)) : ∀ (c : Client) (rb : BufferRef),
    VideoRoundTrip.Ready c.bufq → (∀ p ∈ ps, IsFrame p) → rb.data <+: ps.flatten →
    ∃ q rb', processRecvd Client.sink c rb =
        .ok (⟨q, c.queued ++ queueOf (whole ps rb.size), c.file ++ fileOf (whole ps rb.size)⟩, rb') ∧
      VideoRoundTrip.Ready q ∧ rb'.data = rb.data.drop (whole ps rb.size).flatten.length ∧
      rb'.capacity = rb.capacity := by
  induction ps with
  | nil =>
    intro c rb hc _ hpre
    have hnil : rb.data = [] := List.prefix_nil.mp hpre
    refine ⟨c.bufq, rb, ?_, hc, rfl, rfl⟩
    rw [processRecvd_stop Client.sink (.inl ⟨hnil, rfl, rfl⟩)]
    simp [whole, queueOf, fileOf]
  | cons p ps ih =>
    intro c rb hc hps hpre
    have hp := hps p List.mem_cons_self
    by_cases hle : p.length ≤ rb.size
    · obtain ⟨t, ht⟩ : p <+: rb.data :=
        List.prefix_of_prefix_length_le (List.prefix_append p ps.flatten) hpre hle
      have hrest : t <+: ps.flatten := by
        rw [← ht, List.flatten_cons] at hpre
        exact (List.prefix_append_right_inj p).mp hpre
      obtain ⟨q, rb1, hun, hq, hdrop, hsize, hcap⟩ := unpack_whole hp hc ht.symm
      obtain ⟨rb2, hcon, hd2, hc2⟩ := BufferRef.consume_ok (b := rb1) p.length (by omega)
      have hlong := hp.long
      have hne : rb.data ≠ [] := List.ne_nil_of_length_pos (by
        simp only [BufferRef.size] at hle
        omega)
      have hdata : rb2.data = t := hd2.trans hdrop
      have hsz : rb2.size = rb.size - p.length := by
        rw [BufferRef.size, hdata, BufferRef.size, ← ht, List.length_append]
        omega
      obtain ⟨q', rb', hproc, hq', hd', hc'⟩ :=
        ih ⟨q, c.queued ++ queueOf [p], c.file ++ fileOf [p]⟩ rb2 hq
          (fun r hr => hps r (List.mem_cons_of_mem p hr)) (hdata ▸ hrest)
      have hw : whole (p :: ps) rb.size = p :: whole ps rb2.size := by rw [whole, if_pos hle, hsz]
      refine ⟨q', rb', ?_, hq', ?_, hc'.trans (hc2.trans hcap)⟩
      · rw [processRecvd_step Client.sink hne hun (by omega) hcon, hproc, hw]
        simp only [queueOf, fileOf, List.append_assoc, ← List.filter_append, ← List.map_append,
          ← List.flatten_append]
        rfl
      · rw [hd', hw, hdata, List.flatten_cons, List.length_append, ← List.drop_drop, ← ht,
          List.drop_left]
    · have hw : whole (p :: ps) rb.size = [] := by rw [whole, if_neg hle]
      refine ⟨c.bufq, rb, ?_, hc, by rw [hw]; rfl, rfl⟩
      rw [process_short hp hpre (Nat.lt_of_not_le hle), hw]
      simp only [queueOf, fileOf, List.filter_nil, List.map_nil, List.flatten_nil, List.append_nil]

/-! ## Every step keeps to the stream -/

/-- A receive on a connection that goes on with `left`. -/
def Fits (left : List Byte) (r : TcpReceiver Client) : Received → Prop
  | .error => False
  | .again => True
  | .bytes d => d ≠ [] ∧ d.length ≤ r.rb.spaces ∧ d <+: left

/-- Each of the answers is asked for and fits. -/
def Keeps (left : List Byte) (r : TcpReceiver Client) : List Received → Prop
  | [] => True
  | a :: as => r.sk.epollin = true ∧ Fits left r a ∧
      match r.turn Client.sink a with
      | .error _ => True
      | .ok r => Keeps (left.drop a.chunk.length) r as

/-- Any chunks of what is left of the stream may come, and any call of the sending side
that does not exit. -/
def Admits (stream : List Byte) (c : TcpClient) : TcpEvent → Prop
  | .onEvents epollin epollout answers =>
      Keeps (stream.drop c.input.length)
        { c.toTcpReceiver with sk := ⟨c.sk.isOpen, epollin, epollout⟩ } answers
  | .consume op => (exec c.state.bufq op.val).isOk = true

theorem append_delivered {a b stream : List Byte} (ha : a <+: stream) (hb : b <+: stream.drop a.length) :
    a ++ b <+: stream := by
  obtain ⟨t, rfl⟩ := ha
  rw [List.drop_left] at hb
  exact (List.prefix_append_right_inj a).mpr hb

/-- With `input` delivered, the client has been given the frames whose last byte has come,
and holds the rest. -/
structure Inv (frames : List (List Byte)) (input : List Byte) (r : TcpReceiver Client) : Prop where
  stream : input <+: frames.flatten
  file : r.state.file = fileOf (whole frames input.length)
  queued : r.state.queued = queueOf (whole frames input.length)
  held : r.rb.data = input.drop (whole frames input.length).flatten.length
  capacity : r.rb.capacity = bitstreamLen
  ready : VideoRoundTrip.Ready r.state.bufq

theorem inv_init (hf : ∀ p ∈ frames, IsFrame p) : Inv frames [] TcpClient.init.toTcpReceiver := by
  have hw : whole frames 0 = [] := by
    cases frames with
    | nil => rfl
    | cons p ps =>
      have hlong := (hf p List.mem_cons_self).long
      rw [whole, if_neg (by omega)]
  refine ⟨List.nil_prefix, ?_, ?_, ?_, rfl, VideoRoundTrip.ready_init⟩
  · rw [List.length_nil, hw]
    rfl
  · rw [List.length_nil, hw]
    rfl
  · rw [List.length_nil, hw]
    rfl

section

variable {input : List Byte}

/-- What is held back is part of one frame, so there is room for more. -/
theorem Inv.spaces (h : Inv frames input r) (hf : ∀ p ∈ frames, IsFrame p) : r.rb.spaces ≠ 0 := by
  obtain ⟨hle, rest, heq, hhead, _⟩ := whole_split frames input.length
  have hsz : r.rb.size = input.length - (whole frames input.length).flatten.length := by
    rw [BufferRef.size, h.held, List.length_drop]
  have hcap : 0 < bitstreamLen := by decide
  rw [BufferRef.spaces, h.capacity, hsz]
  cases rest with
  | nil =>
    have hlen := h.stream.length_le
    rw [List.append_nil] at heq
    rw [← heq] at hle ⊢
    omega
  | cons p rest =>
    have hshort := hhead p rfl
    have hfits := (hf p (by rw [heq]; simp)).fits
    omega

theorem turn_spec {a : Received} (h : Inv frames input r) (hf : ∀ p ∈ frames, IsFrame p)
    (ha : Fits (frames.flatten.drop input.length) r a) :
    ∃ r', r.turn Client.sink a = .ok r' ∧ Inv frames (input ++ a.chunk) r' := by
  have hspaces := h.spaces hf
  unfold TcpReceiver.turn
  rw [if_neg hspaces]
  cases a with
  | error => exact ha.elim
  | again =>
    rw [Received.chunk, List.append_nil]
    exact ⟨_, rfl, h.stream, h.file, h.queued, h.held, h.capacity, h.ready⟩
  | bytes b =>
    obtain ⟨hne, hfit, hleft⟩ := ha
    have hpre := append_delivered h.stream hleft
    obtain ⟨b0, bs, rfl⟩ := List.exists_cons_of_ne_nil hne
    simp only [TcpSocket.recvRet]
    rw [if_neg (Nat.not_lt.mpr hfit), if_neg hne]
    have hcommit : r.rb.commit (b0 :: bs) = .ok (IoBasic.fill r.rb (b0 :: bs)) := by
      rw [← IoBasic.commit_take, List.take_of_length_le hfit]
    obtain ⟨hle, rest, heq, _, hgo⟩ := whole_split frames input.length
    -- the buffer now holds the first bytes of what is left of the stream
    have hdata : (IoBasic.fill r.rb (b0 :: bs)).data = (input ++ (b0 :: bs)).drop
        (whole frames input.length).flatten.length := by
      rw [IoBasic.fill_data hfit, h.held, List.drop_append_of_le_length hle]
    have hflat : frames.flatten = (whole frames input.length).flatten ++ rest.flatten := by
      rw [← List.flatten_append, ← heq]
    have hrest : (IoBasic.fill r.rb (b0 :: bs)).data <+: rest.flatten := by
      have hdrop := List.IsPrefix.drop hpre (whole frames input.length).flatten.length
      rwa [hflat, List.drop_left, ← hdata] at hdrop
    obtain ⟨q, rb, hproc, hq, hd, hcap⟩ := process_spec rest r.state _ h.ready
      (fun p hp => hf p (by rw [heq]; exact List.mem_append_right _ hp)) hrest
    have hchunk : (Received.bytes (b0 :: bs)).chunk = b0 :: bs := rfl
    have hw : whole frames (input ++ (b0 :: bs)).length = whole frames input.length ++
        whole rest (IoBasic.fill r.rb (b0 :: bs)).size := by
      rw [← hgo, BufferRef.size, hdata, List.length_drop]
      congr 1
      rw [List.length_append]
      omega
    rw [hcommit, inner_ok, hchunk]
    simp only [bind, Except.bind, hproc, inner_ok, pure, Except.pure]
    refine ⟨_, rfl, hpre, ?_, ?_, ?_, hcap.trans h.capacity, hq⟩
    · rw [hw]
      simp only [h.file, fileOf, List.filter_append, List.map_append, List.flatten_append]
    · rw [hw]
      simp only [h.queued, queueOf, List.filter_append]
    · rw [hw]
      change rb.data = _
      rw [hd, hdata, List.drop_drop, List.flatten_append, List.length_append]

theorem l1recv_spec {answers : List Received} (h : Inv frames input r) (hf : ∀ p ∈ frames, IsFrame p)
    (ha : Keeps (frames.flatten.drop input.length) r answers) :
    ∃ r', r.l1recv Client.sink answers = .ok r' ∧
      Inv frames (input ++ answers.flatMap Received.chunk) r' := by
  induction answers generalizing input r with
  | nil => exact ⟨r, rfl, by rwa [List.flatMap_nil, List.append_nil]⟩
  | cons a as ih =>
    obtain ⟨hin, hfits, hkeeps⟩ := ha
    obtain ⟨r', hturn, hr'⟩ := turn_spec h hf hfits
    rw [hturn] at hkeeps
    simp only [List.drop_drop] at hkeeps
    rw [← List.length_append] at hkeeps
    obtain ⟨e, he, hinv⟩ := ih hr' hkeeps
    refine ⟨e, ?_, by rwa [List.flatMap_cons, ← List.append_assoc]⟩
    rw [TcpReceiver.l1recv, if_pos hin, hturn]
    exact he

end

/-- The sending side empties slots and moves its own iterator only. -/
theorem ready_consume {q q' : CycleBufferQueue 16} (h : VideoRoundTrip.Ready q) (op : ConsumerOp)
    (hx : exec q op.val = .ok q') : VideoRoundTrip.Ready q' := by
  obtain ⟨op, hop⟩ := op
  cases op with
  | wait =>
    obtain ⟨_, rfl⟩ := wait_cases hx
    exact ⟨h.ialloc, h.capacity⟩
  | doneUsing =>
    obtain ⟨u, _, rfl⟩ := doneUsing_cases (.inl h.ialloc) hx
    refine ⟨h.ialloc, fun k => ?_⟩
    by_cases hk : k = u
    · subst hk
      simp [h.capacity]
    · simp [Function.update_of_ne hk, h.capacity]
  | failUsing =>
    obtain ⟨_, _, rfl⟩ := failUsing_cases (.inl h.ialloc) hx
    exact ⟨h.ialloc, h.capacity⟩
  | alloc siz => cases hop
  | fill p => cases hop
  | doneAlloc => cases hop
  | failAlloc => cases hop

theorem next_spec {ev : TcpEvent} (h : Inv frames c.input c.toTcpReceiver)
    (hf : ∀ p ∈ frames, IsFrame p) (ha : Admits frames.flatten c ev) :
    ∃ d, c.next ev = .ok d ∧ d.input = c.input ++ ev.chunks ∧ Inv frames d.input d.toTcpReceiver := by
  cases ev with
  | onEvents epollin epollout answers =>
    have hflags : Inv frames c.input { c.toTcpReceiver with sk := ⟨c.sk.isOpen, epollin, epollout⟩ } :=
      ⟨h.stream, h.file, h.queued, h.held, h.capacity, h.ready⟩
    obtain ⟨r, hr, hinv⟩ := l1recv_spec hflags hf ha
    have hon : c.toTcpReceiver.onEvents Client.sink epollin epollout answers = .ok r := by
      unfold TcpReceiver.onEvents
      cases epollin with
      | true => exact hr
      | false =>
        cases answers with
        | nil => exact hr
        | cons a as => exact nomatch ha.1
    refine ⟨⟨r, c.input ++ answers.flatMap Received.chunk⟩, ?_, rfl, hinv⟩
    simp only [TcpClient.next, hon]
    rfl
  | consume op =>
    cases hx : exec c.state.bufq op.val with
    | error e =>
      have hok : (exec c.state.bufq op.val).isOk = true := ha
      rw [hx] at hok
      cases hok
    | ok q =>
      refine ⟨{ c with state := { c.state with bufq := q } }, ?_, (List.append_nil _).symm,
        ⟨h.stream, h.file, h.queued, h.held, h.capacity, ready_consume h.ready op hx⟩⟩
      simp only [TcpClient.next, hx]
      rfl

/-! ## The main result -/

/-- What the kernel has delivered in a run. -/
def chunks (evs : List TcpEvent) : List Byte := evs.flatMap TcpEvent.chunks

theorem chunks_snoc (evs : List TcpEvent) (ev : TcpEvent) :
    chunks (evs ++ [ev]) = chunks evs ++ ev.chunks := by
  rw [chunks, List.flatMap_append, List.flatMap_singleton]
  rfl

abbrev Receives (frames : List (List Byte)) : TcpClient → TcpEvent → TcpClient → Prop :=
  Guarded (Admits frames.flatten) TcpClient.Step

theorem receives_spec (hf : ∀ p ∈ frames, IsFrame p) {evs : List TcpEvent}
    (hrun : Run (Receives frames) .init evs c) :
    c.input = chunks evs ∧ Inv frames (chunks evs) c.toTcpReceiver := by
  have hstart : (TcpClient.init).input = chunks [] ∧ Inv frames (chunks []) TcpClient.init.toTcpReceiver :=
    ⟨rfl, inv_init hf⟩
  refine hrun.history (P := fun evs c => c.input = chunks evs ∧ Inv frames (chunks evs) c.toTcpReceiver)
    hstart fun evs b ev d hb hs => ?_
  obtain ⟨hinput, hinv⟩ := hb
  obtain ⟨ha, hs⟩ := hs
  rw [← hinput] at hinv
  obtain ⟨d', hd', hinput', hinv'⟩ := next_spec hinv hf ha
  rw [TcpClient.Step, hd'] at hs
  obtain rfl := Except.ok.inj hs
  have hchunks : d'.input = chunks (evs ++ [ev]) := by rw [hinput', hinput, chunks_snoc]
  exact ⟨hchunks, hchunks ▸ hinv'⟩

/-- There is always room for the next byte, so that the whole stream can come. -/
theorem receives_all (hf : ∀ p ∈ frames, IsFrame p) {left : List Byte}
    (h : Inv frames c.input c.toTcpReceiver) (hleft : frames.flatten.drop c.input.length = left) :
    ∃ more d, Run (Receives frames) c more d ∧ chunks more = left := by
  induction left generalizing c with
  | nil => exact ⟨[], c, .nil, rfl⟩
  | cons b left ih =>
    have hroom := Nat.pos_of_ne_zero (h.spaces hf)
    have ha : Admits frames.flatten c (.onEvents true false [.bytes [b]]) := by
      refine ⟨rfl, ⟨List.cons_ne_nil _ _, hroom, hleft ▸ ⟨left, rfl⟩⟩, ?_⟩
      split <;> trivial
    obtain ⟨d, hd, hinput, hinv⟩ := next_spec h hf ha
    have hstep : Receives frames c (.onEvents true false [.bytes [b]]) d := ⟨ha, hd⟩
    have hrest : frames.flatten.drop d.input.length = left := by
      rw [hinput, List.length_append, ← List.drop_drop, hleft]
      rfl
    obtain ⟨more, e, hrun, hmore⟩ := ih hinv hrest
    refine ⟨_, e, (Run.single hstep).append hrun, ?_⟩
    rw [chunks, List.flatMap_append]
    exact congrArg ([b] ++ ·) hmore

/-- However the stream is cut into chunks, what the client has written and queued
depends on the bytes delivered so far alone, and so does what it holds back. After the
whole stream these are all frames and nothing is held back; nothing that may come next
ends the process, and the rest of the stream can always come. -/
theorem tcp_receive (hf : ∀ p ∈ frames, IsFrame p) {evs : List TcpEvent}
    (hrun : Run (Guarded (Admits frames.flatten) TcpClient.Step) .init evs c) :
    c.input = chunks evs ∧ chunks evs <+: frames.flatten ∧
    c.state.file = fileOf (whole frames (chunks evs).length) ∧
    c.state.queued = queueOf (whole frames (chunks evs).length) ∧
    c.rb.data = (chunks evs).drop (whole frames (chunks evs).length).flatten.length ∧
    (chunks evs = frames.flatten →
      c.state.file = fileOf frames ∧ c.state.queued = queueOf frames ∧ c.rb.data = []) ∧
    (∀ ev, Admits frames.flatten c ev → ∃ d, TcpClient.Step c ev d) ∧
    ∃ more d, Run (Guarded (Admits frames.flatten) TcpClient.Step) .init (evs ++ more) d ∧
      chunks (evs ++ more) = frames.flatten := by
  obtain ⟨hinput, h⟩ := receives_spec hf hrun
  have hinv : Inv frames c.input c.toTcpReceiver := hinput ▸ h
  refine ⟨hinput, h.stream, h.file, h.queued, h.held, fun hall => ?_, fun ev ha => ?_, ?_⟩
  · have hw : whole frames (chunks evs).length = frames := by rw [hall, whole_all]
    refine ⟨hw ▸ h.file, hw ▸ h.queued, ?_⟩
    rw [h.held, hw, hall, List.drop_length]
  · obtain ⟨d, hd, _⟩ := next_spec hinv hf ha
    exact ⟨d, hd⟩
  · obtain ⟨more, d, hmore, hleft⟩ := receives_all hf hinv rfl
    obtain ⟨t, ht⟩ := h.stream
    refine ⟨more, d, hrun.append hmore, ?_⟩
    rw [chunks, List.flatMap_append]
    change chunks evs ++ chunks more = _
    rw [hleft, hinput, ← ht, List.drop_left]

instance (left : List Byte) (r : TcpReceiver Client) : ∀ a, Decidable (Fits left r a)
  | .error => .isFalse id
  | .again => .isTrue trivial
  | .bytes _ => inferInstanceAs (Decidable (_ ∧ _ ∧ _))

instance Keeps.decidable : ∀ (left : List Byte) (r : TcpReceiver Client) as, Decidable (Keeps left r as)
  | _, _, [] => .isTrue trivial
  | left, r, a :: as =>
    have : Decidable (match r.turn Client.sink a with
      | .error _ => True
      | .ok r => Keeps (left.drop a.chunk.length) r as) :=
        match r.turn Client.sink a with
        | .error _ => .isTrue trivial
        | .ok r => Keeps.decidable (left.drop a.chunk.length) r as
    inferInstanceAs (Decidable (_ ∧ _ ∧ _))

instance (stream : List Byte) (c : TcpClient) : ∀ ev, Decidable (Admits stream c ev)
  | .onEvents _ _ _ => inferInstanceAs (Decidable (Keeps _ _ _))
  | .consume _ => inferInstanceAs (Decidable (_ = _))

/-- A picture and a feedback. -/
def two : List (List Byte) := [[0, 0, 0, 9, 1, 2, 3, 4, 5], [0x80, 0, 0, 8, 6, 7, 8, 9]]

/-- They come in three chunks, the second of which holds the end of one and the
start of the other. -/
def threeChunks : List TcpEvent :=
  [.onEvents true false [.bytes [0, 0, 0]], .onEvents true true [.again],
    .onEvents true true [.bytes [9, 1, 2, 3, 4, 5, 0x80, 0]],
    .consume ⟨.wait, rfl⟩, .onEvents true false [.bytes [0, 8, 6, 7, 8, 9]]]

theorem frames_two : ∀ p ∈ two, IsFrame p := by
  intro p hp
  simp only [two, List.mem_cons, List.not_mem_nil, or_false] at hp
  rcases hp with rfl | rfl
  · exact ⟨by decide, by decide, ⟨9, by decide, by decide⟩, by decide⟩
  · exact ⟨by decide, by decide, ⟨0x80000008, by decide, by decide⟩, by decide⟩

theorem run_threeChunks : ∃ c, Run (Guarded (Admits two.flatten) TcpClient.Step) .init threeChunks c := by
  have hplays : (threeChunks.foldlM (fun c ev =>
      if Admits two.flatten c ev then c.next ev else .error .noSpace) TcpClient.init).isOk = true := by
    decide +kernel
  cases hs : threeChunks.foldlM (fun c ev =>
      if Admits two.flatten c ev then c.next ev else .error .noSpace) TcpClient.init with
  | error e =>
    rw [hs] at hplays
    cases hplays
  | ok c => exact ⟨c, Run.of_foldlM_guarded hs⟩

theorem tcp_receive_two : ∃ c, Run (Guarded (Admits two.flatten) TcpClient.Step) .init threeChunks c ∧
    c.state.file = [0, 0, 0, 1, 1, 2, 3, 4, 5] ∧ c.state.queued = [[0x80, 0, 0, 8, 6, 7, 8, 9]] ∧
    c.rb.data = [] := by
  obtain ⟨c, hrun⟩ := run_threeChunks
  obtain ⟨_, _, _, _, _, hend, _⟩ := tcp_receive frames_two hrun
  exact ⟨c, hrun, hend rfl⟩

end TcpReceive
end CppSnippets.Epoll
