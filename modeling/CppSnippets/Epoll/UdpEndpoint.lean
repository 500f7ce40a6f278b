import CppSnippets.Epoll.Latency
import CppSnippets.Epoll.QueueHistory
import CppSnippets.Epoll.Robust
import CppSnippets.Epoll.TcpSend

/-!
# The two endpoints of `main.cpp` over datagrams

`prewait` turn by turn, with the queue that it takes its buffers from, the server's
`unpack` with the `RTT` that it calls, and what a datagram does to the client beside the
frame in it: its own sending goes on as before. The kernel takes each datagram whole.
-/
namespace CppSnippets.Epoll

open CppSnippets.Lib

/-- One turn of the loop in `prewait`: a buffer is taken, or the next datagram of it
leaves. -/
def turn {N : Nat} (q : CycleBufferQueue N) (io : IoBasic) :
    Except Exit (CycleBufferQueue N × IoBasic × List (List Byte)) :=
  match io.txbuf with
  | none => do
    let q ← q.wait
    match q.iusing with
    | none => return (q, io, [])
    | some u => return (q, io.prewait (q.bufs u).data, [])
  | some data => do
    let (io, wire) ← io.l2send (4 + min fragSize (data.length - io.txpos) : Nat)
    match io.txbuf with
    | some _ => return (q, io, [wire])
    | none =>
      match q.iusing with
      | none => .error .assertion
      | some u => return (← q.done u, io, [wire])

/-- What `wait` has returned in a turn. -/
def loaded {N : Nat} (io : IoBasic) (q : CycleBufferQueue N) : List (List Byte) :=
  match io.txbuf with
  | none => (q.iusing.map fun u => (q.bufs u).data).toList
  | some _ => []

/-! ## `ServerMain::unpack` -/

/-- `ts` of a record. -/
def stampOf : List Byte → Rptime
  | [a, b, c, d] => ⟨ofLe16 a b, ofLe16 c d⟩
  | _ => ⟨0, 0⟩

/-- What the calls of `RTT` leave, none once an `int` has overflowed, and the calls. -/
structure Hearing where
  main : Option ServerMain
  calls : List (Rptime × Timeval)

def Hearing.init : Hearing := ⟨some .rttReset, []⟩

def Hearing.rtt (now : Timeval) (h : Hearing) (ts : Rptime) : Hearing :=
  ⟨h.main.bind fun s => s.rtt ts now, h.calls ++ [(ts, now)]⟩

/-- `ServerMain` as the receive sink, when the clock gives `now`. The buffer has room for
one record. -/
def hears (now : Timeval) : RecvPath.Side Hearing where
  kind := .arrayBuf
  unpack h rb :=
    match RecvPath.serverUnpack [] rb with
    | .error e => .error e
    | .ok (records, rb, len) => .ok ((records.map stampOf).foldl (Hearing.rtt now) h, rb, len)

namespace UdpEndpoint

open IoBasic QueueRefinement QueueHistory VideoRoundTrip
open TcpSend (Undisturbed)

variable {N : Nat} {q q' : CycleBufferQueue N} {io : IoBasic} {data : List Byte} {i : Nat}

/-! ## Sending -/

/-- The buffer in use is being sent, from fragment `i` on. -/
structure Sending (q : CycleBufferQueue N) (io : IoBasic) (data : List Byte) (i : Nat) : Prop where
  txbuf : io.txbuf = some data
  txpos : io.txpos = i * fragSize
  xh0 : io.xh0 = .ofNat i
  inside : i < count data
  iusing : ∃ u, q.iusing = some u ∧ (q.bufs u).data = data

/-- The queue and the endpoint agree on what is being sent. -/
structure Sends (q : CycleBufferQueue N) (io : IoBasic) : Prop where
  isOpen : io.isOpen = true
  idle : io.txbuf = none → q.iusing = none
  busy : ∀ data, io.txbuf = some data → ∃ i, Sending q io data i

theorem Sends.undisturbed (h : Sends q io) (hq : Undisturbed q q') : Sends q' io := by
  constructor
  · exact h.isOpen
  · intro htx
    rw [hq.iusing]
    exact h.idle htx
  · intro data htx
    obtain ⟨i, hs⟩ := h.busy data htx
    obtain ⟨u, hu, hdata⟩ := hs.iusing
    exact ⟨i, hs.txbuf, hs.txpos, hs.xh0, hs.inside, u, hq.iusing.trans hu, by rw [hq.buf u hu, hdata]⟩

theorem turn_wait (hshape : Shape q) (h : Sends q io) (htx : io.txbuf = none) :
    ∃ q', q.wait = .ok q' ∧
      (q'.iusing = none ∧ turn q io = .ok (q', io, []) ∨
        ∃ data, loaded io q' = [data] ∧ turn q io = .ok (q', io.prewait data, []) ∧
          Sending q' (io.prewait data) data 0) := by
  obtain ⟨q', hwait⟩ : ∃ q', q.wait = .ok q' := by
    rw [CycleBufferQueue.wait, if_neg (not_not.mpr (h.idle htx))]
    exact ⟨_, rfl⟩
  refine ⟨q', hwait, ?_⟩
  have hshape' : Shape q' := shape_step hshape (show exec q .wait = .ok q' from hwait)
  cases hu : q'.iusing with
  | none =>
    refine .inl ⟨rfl, ?_⟩
    simp only [turn, htx, hwait, bind, Except.bind, hu]
    rfl
  | some u =>
    refine .inr ⟨(q'.bufs u).data, ?_, ?_, ?_⟩
    · simp only [loaded, htx, hu, Option.map_some, Option.toList_some]
    · simp only [turn, htx, hwait, bind, Except.bind, hu]
      rfl
    · have hfull := hshape'.usingFull u hu
      have hpos : 0 < (q'.bufs u).data.length := by
        apply List.length_pos_of_ne_nil
        intro hnil
        rw [BufferRef.isEmpty, hnil] at hfull
        cases hfull
      refine ⟨rfl, (Nat.zero_mul _).symm, rfl, lt_count.mpr ?_, u, hu, rfl⟩
      rw [Nat.zero_mul]
      exact hpos

theorem doneUsing_ok {u : Fin N} (hshape : Shape q) (hu : q.iusing = some u) :
    ∃ q', q.done u = .ok q' ∧ exec q .doneUsing = .ok q' ∧ q'.iusing = none := by
  have hne : some u ≠ q.ialloc := fun h => hshape.distinct u h.symm hu
  have hdone : q.done u = .ok
      { q with bufs := Function.update q.bufs u (q.bufs u).clear, iusing := none } := by
    rw [CycleBufferQueue.done, if_neg hne, if_pos hu.symm, BufferRef.consume_size]
    rfl
  refine ⟨_, hdone, ?_, rfl⟩
  rw [exec, hu]
  exact hdone

/-- One datagram leaves, and the buffer is given back after the last one. -/
theorem turn_send (hshape : Shape q) (hopen : io.isOpen = true) (h : Sending q io data i) :
    (i + 1 < count data ∧ ∃ io', turn q io = .ok (q, io', [fragment data io.xh1 i]) ∧
        Sending q io' data (i + 1) ∧ io'.isOpen = true ∧ io'.xh1 = io.xh1 ∧ io'.xbuf = io.xbuf) ∨
      i + 1 = count data ∧ ∃ q' io', turn q io = .ok (q', io', [fragment data io.xh1 i]) ∧
        exec q .doneUsing = .ok q' ∧ q'.iusing = none ∧ io'.txbuf = none ∧ io'.isOpen = true ∧
        io'.xh1 = io.xh1 ∧ io'.xbuf = io.xbuf := by
  have hin := lt_count.mp h.inside
  have hlen : (chunk fragSize data i).length = min fragSize (data.length - i * fragSize) := by
    rw [chunk, List.length_take, List.length_drop]
  have hsend := l2send_fragment io (4 + min fragSize (data.length - io.txpos) : Nat) h.txbuf h.txpos h.xh0 hin
  rw [if_neg (by rw [hlen, h.txpos]; push_cast; omega)] at hsend
  by_cases hlast : data.length ≤ (i + 1) * fragSize
  · rw [if_pos hlast] at hsend
    obtain ⟨u, hu, _⟩ := h.iusing
    obtain ⟨q', hdone, hexec, hfree⟩ := doneUsing_ok hshape hu
    refine .inr ⟨(count_eq hin).mpr hlast, q',
      { io with txbuf := none, txpos := 0, xh0 := UInt16.ofNat (i + 1) }, ?_, hexec, hfree, ?_⟩
    · simp only [turn, h.txbuf, hsend, bind, Except.bind, hu, hdone]
      rfl
    · exact ⟨rfl, hopen, rfl, rfl⟩
  · rw [if_neg hlast] at hsend
    have hnext : i + 1 < count data := lt_count.mpr (by omega)
    refine .inl ⟨hnext, { io with txpos := (i + 1) * fragSize, xh0 := UInt16.ofNat (i + 1) }, ?_, ?_⟩
    · simp only [turn, h.txbuf, hsend, bind, Except.bind]
      rfl
    · exact ⟨⟨h.txbuf, rfl, rfl, hnext, h.iusing⟩, hopen, rfl, rfl⟩

/-- What a turn does to the sending side, with the datagrams that leave and the buffers that
are taken. -/
inductive Turned (io io' : IoBasic) : List (List Byte) → List (List Byte) → Prop where
  | waits (htx : io.txbuf = none) (htx' : io'.txbuf = none) : Turned io io' [] []
  | loads {data : List Byte} (htx : io.txbuf = none) (htx' : io'.txbuf = some data)
      (hpos : io'.txpos = 0) (hin : 0 < count data) : Turned io io' [] [data]
  | sends {data : List Byte} {i : Nat} (htx : io.txbuf = some data) (hpos : io.txpos = i * fragSize)
      (hin : i + 1 < count data) (htx' : io'.txbuf = some data) (hpos' : io'.txpos = (i + 1) * fragSize) :
      Turned io io' [fragment data io.xh1 i] []
  | ends {data : List Byte} {i : Nat} (htx : io.txbuf = some data) (hpos : io.txpos = i * fragSize)
      (hlast : i + 1 = count data) (htx' : io'.txbuf = none) : Turned io io' [fragment data io.xh1 i] []

theorem sends_of_sending (hopen : io.isOpen = true) (h : Sending q io data i) : Sends q io := by
  constructor
  · exact hopen
  · intro hnone
    rw [h.txbuf] at hnone
    cases hnone
  · intro data' hdata
    obtain rfl : data = data' := Option.some.inj (h.txbuf.symm.trans hdata)
    exact ⟨i, h⟩

theorem sends_of_idle (hopen : io.isOpen = true) (htx : io.txbuf = none) (hu : q.iusing = none) :
    Sends q io := by
  refine ⟨hopen, fun _ => hu, fun data hdata => ?_⟩
  rw [htx] at hdata
  cases hdata

/-- The spec of a turn: it returns, and the queue is used as a consumer may. -/
theorem turn_spec {messages l : List (List Byte)} (hserved : Served messages q l) (h : Sends q io) :
    ∃ q' io' sent, turn q io = .ok (q', io', sent) ∧ Turned io io' sent (loaded io q') ∧
      Served messages q' (l ++ loaded io q') ∧ Sends q' io' ∧ io'.xh1 = io.xh1 ∧ io'.xbuf = io.xbuf ∧
      (q' = q ∨ exec q .wait = .ok q' ∨ exec q .doneUsing = .ok q') := by
  cases htx : io.txbuf with
  | none =>
    obtain ⟨q', hwait, hcases⟩ := turn_wait hserved.shape h htx
    have hserved' := served_wait hserved hwait
    have hloaded : loaded io q' = (q'.iusing.map fun u => (q'.bufs u).data).toList := by rw [loaded, htx]
    rw [← hloaded] at hserved'
    rcases hcases with ⟨hu, hturn⟩ | ⟨data, hone, hturn, hsending⟩
    · have hnone : loaded io q' = [] := by rw [hloaded, hu, Option.map_none, Option.toList_none]
      refine ⟨q', io, [], hturn, ?_, hserved', sends_of_idle h.isOpen htx hu, rfl, rfl, .inr (.inl hwait)⟩
      rw [hnone]
      exact .waits htx htx
    · refine ⟨q', io.prewait data, [], hturn, ?_, hserved', sends_of_sending h.isOpen hsending, rfl, rfl,
        .inr (.inl hwait)⟩
      rw [hone]
      exact .loads htx rfl rfl hsending.inside
  | some data =>
    obtain ⟨i, hsending⟩ := h.busy data htx
    have hnone : ∀ q' : CycleBufferQueue N, loaded io q' = [] := by
      intro q'
      rw [loaded, htx]
    rcases turn_send hserved.shape h.isOpen hsending with
      ⟨hmore, io', hturn, hsending', hopen, hxh1, hxbuf⟩ |
      ⟨hlast, q', io', hturn, hexec, hu, htx', hopen, hxh1, hxbuf⟩
    · refine ⟨q, io', _, hturn, ?_, ?_, sends_of_sending hopen hsending', hxh1, hxbuf, .inl rfl⟩
      · rw [hnone]
        exact .sends htx hsending.txpos hmore hsending'.txbuf hsending'.txpos
      · rw [hnone, List.append_nil]
        exact hserved
    · refine ⟨q', io', _, hturn, ?_, ?_, sends_of_idle hopen htx' hu, hxh1, hxbuf, .inr (.inr hexec)⟩
      · rw [hnone]
        exact .ends htx hsending.txpos hlast htx'
      · rw [hnone, List.append_nil]
        exact served_doneUsing hserved hexec

/-! ## Receiving, as the sending side sees it -/

/-- Only what has been received is different. -/
structure SameSender (io io' : IoBasic) : Prop where
  txbuf : io'.txbuf = io.txbuf
  txpos : io'.txpos = io.txpos
  xh0 : io'.xh0 = io.xh0
  isOpen : io'.isOpen = io.isOpen

theorem Sends.received {io' : IoBasic} (h : Sends q io) (hsame : SameSender io io') : Sends q io' := by
  constructor
  · exact hsame.isOpen.trans h.isOpen
  · exact fun htx => h.idle (hsame.txbuf.symm.trans htx)
  · intro data htx
    obtain ⟨i, hs⟩ := h.busy data (hsame.txbuf.symm.trans htx)
    exact ⟨i, htx, hsame.txpos.trans hs.txpos, hsame.xh0.trans hs.xh0, hs.inside, hs.iusing⟩

theorem sameSender_posIncrRecv {σ : Type} {process : σ → BufferRef → Except Exit (σ × BufferRef)} {s s' : σ}
    {io' : IoBasic} {head : UInt16} {restarted : Bool} {taken : Taken}
    (h : posIncrRecv process s io head restarted = .ok (s', io', taken)) : SameSender io io' := by
  unfold posIncrRecv at h
  split at h
  · cases hp : process s io.xbuf with
    | error e =>
      rw [hp] at h
      cases h
    | ok r =>
      rw [hp] at h
      cases h
      exact ⟨rfl, rfl, rfl, rfl⟩
  · cases h
    exact ⟨rfl, rfl, rfl, rfl⟩

theorem sameSender_fragment {σ : Type} {process : σ → BufferRef → Except Exit (σ × BufferRef)} {s s' : σ}
    {io' : IoBasic} {echo : UInt16} {taken : Taken} (hi : i < 0x7fff)
    (h : l2recvOne process s io (.datagram (fragment data echo i)) = .ok (s', io', taken)) :
    SameSender io io' := by
  rw [recv_fragment process s io data echo hi] at h
  split at h
  · have hsame := sameSender_posIncrRecv h
    exact ⟨hsame.txbuf, hsame.txpos, hsame.xh0, hsame.isOpen⟩
  · split at h
    · have hsame := sameSender_posIncrRecv h
      exact ⟨hsame.txbuf, hsame.txpos, hsame.xh0, hsame.isOpen⟩
    · cases h
      exact ⟨rfl, rfl, rfl, rfl⟩

/-! ## What the client does to its queue -/

/-- The client's queue as the client's own sender sees it: `q` before. -/
structure Answers (q : CycleBufferQueue 16) (returned : List (List Byte)) (c : Client) : Prop where
  served : Served c.queued c.bufq returned
  undisturbed : Undisturbed q c.bufq

variable {returned : List (List Byte)} {q : CycleBufferQueue 16} {c c' : Client}

theorem undisturbed_trans {N : Nat} {q q' q'' : CycleBufferQueue N} (h : Undisturbed q q')
    (h' : Undisturbed q' q'') : Undisturbed q q'' := by
  refine ⟨h'.shape, h'.iusing.trans h.iusing, fun u hu => ?_⟩
  rw [h'.buf u (h.iusing.trans hu), h.buf u hu]

theorem Answers.feedback {p : List Byte} (h : Answers q returned c) (hf : c.feedback p = .ok c') :
    Answers q returned c' := by
  unfold Client.feedback at hf
  cases halloc : exec c.bufq (.alloc p.length) with
  | error e =>
    rw [show c.bufq.alloc p.length = _ from halloc] at hf
    cases hf
  | ok q₁ =>
    rw [show c.bufq.alloc p.length = _ from halloc] at hf
    simp only [bind, Except.bind] at hf
    cases hfill : exec q₁ (.fill p) with
    | error e =>
      rw [show onSlot q₁.ialloc (q₁.fill · p) = _ from hfill] at hf
      cases hf
    | ok q₂ =>
      rw [show onSlot q₁.ialloc (q₁.fill · p) = _ from hfill] at hf
      simp only at hf
      cases hdone : exec q₂ .doneAlloc with
      | error e =>
        rw [show onSlot q₂.ialloc q₂.done = _ from hdone] at hf
        cases hf
      | ok q₃ =>
        rw [show onSlot q₂.ialloc q₂.done = _ from hdone] at hf
        cases hf
        have hserved₁ := served_alloc h.served halloc
        have hquiet₁ := TcpSend.undisturbed_exec h.served.shape ⟨.alloc p.length, rfl⟩ halloc
        have hquiet₂ := TcpSend.undisturbed_exec hquiet₁.shape ⟨.fill p, rfl⟩ hfill
        have hquiet₃ := TcpSend.undisturbed_exec hquiet₂.shape ⟨.doneAlloc, rfl⟩ hdone
        obtain ⟨j, b, hj, _, rfl⟩ := fill_cases hfill
        have hserved₂ := served_write (b := b) hserved₁ hj
        obtain ⟨k, hk, hdone⟩ := onSlot_ok hdone
        constructor
        · have hserved₃ := served_commit hserved₂ hk hdone
          dsimp only at hk ⊢
          rw [hk]
          exact hserved₃
        · exact undisturbed_trans h.undisturbed
            (undisturbed_trans hquiet₁ (undisturbed_trans hquiet₂ hquiet₃))

theorem Answers.unpack {rb rb' : BufferRef} {len : Nat} (h : Answers q returned c)
    (hu : c.unpack rb = .ok (c', rb', len)) : Answers q returned c' := by
  unfold Client.unpack at hu
  split at hu
  · cases hu
    exact h
  · split at hu
    · cases hu
      exact h
    · simp only at hu
      split at hu
      · cases hu
        exact h
      · split at hu
        · cases hf : c.feedback (rb.data.take _) with
          | error e =>
            rw [hf] at hu
            cases hu
          | ok c₁ =>
            rw [hf] at hu
            cases hu
            exact h.feedback hf
        · cases hu
          exact ⟨h.served, h.undisturbed⟩

theorem Answers.processLoop {turns : Nat} {rb rb' : BufferRef} (h : Answers q returned c)
    (hp : Epoll.processLoop Client.sink turns c rb = .ok (c', rb')) : Answers q returned c' := by
  induction turns generalizing c rb with
  | zero =>
    cases hp
    exact h
  | succ turns ih =>
    unfold Epoll.processLoop at hp
    split at hp
    · cases hp
      exact h
    · cases hu : Client.sink.run c rb with
      | error e =>
        rw [hu] at hp
        cases hp
      | ok r =>
        obtain ⟨c₁, rb₁, len⟩ := r
        have h₁ := h.unpack hu
        simp only [hu, bind, Except.bind] at hp
        split at hp
        · split at hp
          · cases hp
          · cases hcons : rb₁.consume len with
            | error e =>
              rw [hcons] at hp
              cases hp
            | ok rb₂ =>
              rw [hcons] at hp
              exact ih h₁ hp
        · cases hp
          exact h₁

theorem Answers.posIncrRecv {io' : IoBasic} {head : UInt16} {restarted : Bool} {taken : Taken}
    (h : Answers q returned c)
    (hp : IoBasic.posIncrRecv (processRecvd Client.sink) c io head restarted = .ok (c', io', taken)) :
    Answers q returned c' := by
  unfold IoBasic.posIncrRecv at hp
  split at hp
  · cases hrun : processRecvd Client.sink c io.xbuf with
    | error e =>
      rw [hrun] at hp
      cases hp
    | ok r =>
      rw [hrun] at hp
      cases hp
      exact h.processLoop hrun
  · cases hp
    exact h

/-- Past its queue and what it received, a fragment leaves the client as it was. -/
theorem step_frame {io' : IoBasic} {echo : UInt16} (h : Answers q returned c) (hi : i < 0x7fff)
    (hstep : c.step io (.datagram (fragment data echo i)) = .ok (c', io')) :
    SameSender io io' ∧ Answers q returned c' := by
  unfold Client.step at hstep
  cases hrecv : io.l2recvOne (processRecvd Client.sink) c (.datagram (fragment data echo i)) with
  | error e =>
    simp only [hrecv] at hstep
    cases hstep
  | ok r =>
    obtain ⟨c₁, io₁, taken⟩ := r
    simp only [hrecv] at hstep
    cases hstep
    refine ⟨sameSender_fragment hi hrecv, ?_⟩
    rw [recv_fragment _ c io data echo hi] at hrecv
    split at hrecv
    · exact h.posIncrRecv hrecv
    · split at hrecv
      · exact h.posIncrRecv hrecv
      · cases hrecv
        exact h

/-! ## What the client has of a stream of frames -/

/-- The datagrams of a buffer from fragment `i` on, with nothing received between them. -/
def fragmentsFrom (data : List Byte) (i : Nat) : List (List Byte) :=
  (sendsFrom data (fun _ => 0) i).map Prod.snd

theorem fragmentsFrom_cons (hi : i < count data) :
    fragmentsFrom data i = fragment data 0 i :: fragmentsFrom data (i + 1) := by
  rw [fragmentsFrom, sendsFrom_cons hi]
  rfl

theorem fragmentsFrom_end (hi : count data ≤ i) : fragmentsFrom data i = [] := by
  rw [fragmentsFrom, sendsFrom_end hi]
  rfl

/-- The `PadInfo` of a frame, by its number. -/
def padOf (idx : UInt32) (p : Shot × Nat) : List Byte := padInfo (idx + .ofNat p.2) p.1.tv

/-- What is still to come of these frames, from fragment `i` of the first one on. -/
def ahead (idx : UInt32) : List (Shot × Nat) → Nat → List (List Byte)
  | [], _ => []
  | p :: ps, i => fragmentsFrom (packedAt idx p) i ++ ps.flatMap fun p => fragmentsFrom (packedAt idx p) 0

/-- What has come of the first of them. -/
def begun (idx : UInt32) : List (Shot × Nat) → Nat → List Byte
  | [], _ => []
  | p :: _, i => (packedAt idx p).take (i * fragSize)

def Sound (p : Shot × Nat) : Prop := Encoded p.1 ∧ p.1.echo = fun _ => 0

/-- Of the frames `kept` the client has `n`, and of the next one `i` fragments; `coming` is
the rest. -/
structure Receives (idx : UInt32) (kept : List (Shot × Nat)) (n i : Nat) (c : Client) (io : IoBasic)
    (coming : List (List Byte)) : Prop where
  bound : n ≤ kept.length
  file : c.file = ((kept.take n).map fun p => p.1.frame).flatten
  queued : c.queued = (kept.take n).map (padOf idx)
  waiting : Waiting io (begun idx (kept.drop n) i) i
  coming : coming = ahead idx (kept.drop n) i
  inside : ∀ p, kept[n]? = some p → i < count (packedAt idx p)
  start : kept.length = n → i = 0

variable {idx : UInt32} {kept : List (Shot × Nat)} {n : Nat} {coming : List (List Byte)}

theorem count_pos {p : Shot × Nat} (h : Sound p) : 0 < count (packedAt idx p) := by
  rw [lt_count, packedAt, packed_length _ h.1]
  omega

/-- From the first fragment of a frame on, whatever frame it is. -/
theorem ahead_zero (ps : List (Shot × Nat)) :
    ahead idx ps 0 = ps.flatMap fun p => fragmentsFrom (packedAt idx p) 0 := by
  cases ps with
  | nil => rfl
  | cons p ps => rfl

theorem begun_zero (ps : List (Shot × Nat)) : begun idx ps 0 = [] := by
  cases ps with
  | nil => rfl
  | cons p ps => rw [begun, Nat.zero_mul, List.take_zero]

theorem Receives.more {p : Shot × Nat} (h : Receives idx kept n i c io coming) (hp : Sound p) :
    Receives idx (kept ++ [p]) n i c io (coming ++ fragmentsFrom (packedAt idx p) 0) := by
  have htake : (kept ++ [p]).take n = kept.take n := List.take_append_of_le_length h.bound
  have hdrop : (kept ++ [p]).drop n = kept.drop n ++ [p] := List.drop_append_of_le_length h.bound
  have hsame : ahead idx (kept.drop n ++ [p]) i =
        ahead idx (kept.drop n) i ++ fragmentsFrom (packedAt idx p) 0 ∧
      begun idx (kept.drop n ++ [p]) i = begun idx (kept.drop n) i := by
    cases hrest : kept.drop n with
    | nil =>
      have hall : kept.length = n := Nat.le_antisymm (List.drop_eq_nil_iff.mp hrest) h.bound
      rw [h.start hall, begun_zero, begun_zero, ahead_zero, ahead_zero]
      exact ⟨List.append_nil _, rfl⟩
    | cons r ps =>
      refine ⟨?_, rfl⟩
      rw [List.cons_append, ahead, ahead, List.flatMap_append, List.append_assoc, List.flatMap_singleton]
  constructor
  · rw [List.length_append]
    exact Nat.le_add_right_of_le h.bound
  · rw [htake]
    exact h.file
  · rw [htake]
    exact h.queued
  · rw [hdrop, hsame.2]
    exact h.waiting
  · rw [hdrop, hsame.1, ← h.coming]
  · intro r hr
    rcases Nat.lt_or_ge n kept.length with hlt | hge
    · rw [List.getElem?_append_left hlt] at hr
      exact h.inside r hr
    · have hall : kept.length = n := Nat.le_antisymm hge h.bound
      rw [← hall, List.getElem?_concat_length] at hr
      rw [h.start hall, ← Option.some.inj hr]
      exact count_pos hp
  · intro hall
    rw [List.length_append, List.length_singleton] at hall
    have hbound := h.bound
    omega

/-- The next datagram is taken, whatever it completes. -/
theorem Receives.next {d : List Byte} (h : Receives idx kept n i c io (d :: coming))
    (hgood : ∀ p ∈ kept, Sound p) (hready : Ready c.bufq) (hans : Answers q returned c) :
    ∃ n' i' c' io', c.step io (.datagram d) = .ok (c', io') ∧ Receives idx kept n' i' c' io' coming ∧
      Ready c'.bufq ∧ SameSender io io' ∧ Answers q returned c' := by
  obtain ⟨p, ps, hrest⟩ : ∃ p ps, kept.drop n = p :: ps := by
    cases hrest : kept.drop n with
    | nil =>
      have hcoming := h.coming
      rw [hrest] at hcoming
      cases hcoming
    | cons p ps => exact ⟨p, ps, rfl⟩
  have hat : kept[n]? = some p := by
    rw [← List.head?_drop, hrest]
    rfl
  have hlt : n < kept.length := (List.getElem?_eq_some_iff.mp hat).1
  have hp := hgood p (List.mem_of_getElem? hat)
  have hin := h.inside p hat
  have hcoming := h.coming
  rw [hrest, ahead, fragmentsFrom_cons hin, List.cons_append] at hcoming
  obtain ⟨rfl, hcoming'⟩ := List.cons.inj hcoming
  have hwaiting := h.waiting
  rw [hrest] at hwaiting
  obtain ⟨c', io', hstep, hready', hpart, hwhole⟩ := step_fragment hp.1 hready hin hwaiting
  rw [hp.2] at hstep
  obtain ⟨hsame, hans'⟩ := step_frame hans (Nat.lt_trans hin (count_packed _ hp.1)) hstep
  rcases Nat.lt_or_ge (i + 1) (count (packedAt idx p)) with hmore | hlast
  · obtain ⟨hfile, hqueued, hwait⟩ := hpart hmore
    refine ⟨n, i + 1, c', io', hstep, ⟨h.bound, hfile.trans h.file, hqueued.trans h.queued, ?_, ?_, ?_, ?_⟩,
      hready', hsame, hans'⟩
    · rw [hrest]
      exact hwait
    · rw [hrest]
      exact hcoming'
    · intro r hr
      obtain rfl : p = r := Option.some.inj (hat.symm.trans hr)
      exact hmore
    · omega
  · obtain ⟨hfile, hqueued, hwait⟩ := hwhole (by exact Nat.le_antisymm hin hlast)
    have hnext : kept.drop (n + 1) = ps := by
      rw [← List.tail_drop, hrest]
      rfl
    have htake : kept.take (n + 1) = kept.take n ++ [p] := by
      rw [List.take_add_one, hat]
      rfl
    refine ⟨n + 1, 0, c', io', hstep, ⟨hlt, ?_, ?_, ?_, ?_, ?_, fun _ => rfl⟩, hready', hsame, hans'⟩
    · rw [hfile, h.file, htake, List.map_append, List.flatten_append]
      exact congrArg (_ ++ ·) (List.append_nil _).symm
    · rw [hqueued, h.queued, htake, List.map_append]
      rfl
    · rw [begun_zero]
      exact hwait
    · rw [hnext, ahead_zero, hcoming', fragmentsFrom_end hlast, List.nil_append]
    · intro r hr
      exact count_pos (hgood r (List.mem_of_getElem? hr))

/-- The client's sender keeps the queue ready for the next `PadInfo`. -/
theorem ready_turn {q' : CycleBufferQueue 16} (hshape : Shape q) (h : Ready q)
    (hq : q' = q ∨ exec q .wait = .ok q' ∨ exec q .doneUsing = .ok q') : Ready q' := by
  rcases hq with rfl | hwait | hdone
  · exact h
  · obtain ⟨_, rfl⟩ := wait_cases hwait
    exact ⟨h.ialloc, h.capacity⟩
  · obtain ⟨u, _, rfl⟩ := doneUsing_cases hshape.apart hdone
    refine ⟨h.ialloc, fun k => ?_⟩
    dsimp only
    by_cases hk : k = u
    · rw [hk, Function.update_self]
      exact h.capacity u
    · rw [Function.update_of_ne hk]
      exact h.capacity k

/-- What the client's sender does is nothing to what is received. -/
theorem Receives.sender {c' : Client} {io' : IoBasic} (h : Receives idx kept n i c io coming)
    (hfile : c'.file = c.file) (hqueued : c'.queued = c.queued) (hxh1 : io'.xh1 = io.xh1)
    (hxbuf : io'.xbuf = io.xbuf) : Receives idx kept n i c' io' coming := by
  refine ⟨h.bound, hfile.trans h.file, hqueued.trans h.queued, ⟨?_, ?_, ?_⟩, h.coming, h.inside, h.start⟩
  · exact hxh1.trans h.waiting.expected
  · rw [hxbuf]
    exact h.waiting.data
  · rw [hxbuf]
    exact h.waiting.capacity

/-! ## What the server hears -/

/-- The stamp of a `PadInfo`. -/
def stamp (tv : TimeVal) : Rptime := ⟨.ofNat (tv.sec % 10000), .ofNat (tv.usec / 1000)⟩

theorem stampOf_pad (idx : UInt32) (tv : TimeVal) :
    stampOf (((padInfo idx tv).drop 8).take 4) = stamp tv := by
  have hsec : ofLe16 (.ofNat (UInt16.ofNat (tv.sec % 10000)).toNat)
      (.ofNat ((UInt16.ofNat (tv.sec % 10000)).toNat / 256)) = .ofNat (tv.sec % 10000) := ofLe16_eq.mpr rfl
  have hmsec : ofLe16 (.ofNat (UInt16.ofNat (tv.usec / 1000)).toNat)
      (.ofNat ((UInt16.ofNat (tv.usec / 1000)).toNat / 256)) = .ofNat (tv.usec / 1000) := ofLe16_eq.mpr rfl
  have hbytes : ((padInfo idx tv).drop 8).take 4 =
      le16 (.ofNat (tv.sec % 10000)) ++ le16 (.ofNat (tv.usec / 1000)) := rfl
  rw [hbytes]
  exact congrArg₂ Rptime.mk hsec hmsec

variable {now : Timeval} {hearing : Hearing} {tv : TimeVal}

theorem hears_pad {rb : BufferRef} (hdata : rb.data = padInfo idx tv) :
    (hears now).unpack hearing rb = .ok (hearing.rtt now (stamp tv), rb, 12) := by
  have hne : rb.data ≠ [] := by
    rw [hdata]
    exact List.cons_ne_nil _ _
  have hflag : RecvPath.FirstFlagged rb.data := by
    rw [hdata]
    exact show (0x80 : Byte) &&& 0x80 ≠ 0 by decide
  have hrun : RecvPath.serverUnpack [] rb = _ := RecvPath.server_run hne hflag
  have hsize : rb.size = 12 := by rw [BufferRef.size, hdata, padInfo_length]
  have hrecords : (RecvPath.rttLoop (padInfo idx tv) 12 0 []).1 = [((padInfo idx tv).drop 8).take 4] := rfl
  have htaken : RecvPath.serverTaken (padInfo idx tv) = 12 := by
    rw [RecvPath.serverTaken, padInfo_length]
  rw [hears]
  dsimp only
  rw [hrun, hsize, hdata, hrecords, htaken]
  simp only [List.map_cons, List.map_nil, stampOf_pad, List.foldl_cons, List.foldl_nil]

/-- One record, and the buffer is empty again. -/
theorem process_pad (now : Timeval) (hearing : Hearing) {rb : BufferRef} (hdata : rb.data = padInfo idx tv) :
    ∃ rb' calls, RecvPath.processRecvd (hears now) hearing rb = .ok (hearing.rtt now (stamp tv), rb', calls) ∧
      rb'.data = [] ∧ rb'.capacity = rb.capacity := by
  have hsize : rb.size = 12 := by rw [BufferRef.size, hdata, padInfo_length]
  obtain ⟨rb', hcons, hd, hcap⟩ := BufferRef.consume_ok (b := rb) 12 (by omega)
  have hend : rb'.data = [] := by
    rw [hd, hdata]
    rfl
  have hne : rb.data ≠ [] := by
    rw [hdata]
    exact List.cons_ne_nil _ _
  refine ⟨rb', [⟨rb.data, 12⟩], ?_, hend, hcap⟩
  rw [RecvPath.processRecvd, hsize,
    RecvPath.Spec.processLoop_takes hne (hears_pad hdata) (by decide) (Nat.le_of_eq hsize.symm) hcons,
    RecvPath.Spec.processLoop_nil _ _ _ hend]
  rfl

/-- The server between two datagrams: nothing of a record is there. -/
structure Listening (io : IoBasic) : Prop where
  expected : io.xh1 = 0
  data : io.xbuf.data = []
  capacity : io.xbuf.capacity = 16

theorem Listening.of_eq {io' : IoBasic} (h : Listening io) (hxh1 : io'.xh1 = io.xh1)
    (hxbuf : io'.xbuf = io.xbuf) : Listening io' :=
  ⟨hxh1.trans h.expected, hxbuf ▸ h.data, hxbuf ▸ h.capacity⟩

/-- A datagram with a `PadInfo` is one call of `RTT` with its stamp. -/
theorem recv_pad (now : Timeval) (echo : UInt16) (h : Listening io) :
    ∃ io' calls, RecvPath.l2recvOne (hears now) hearing io (fragment (padInfo idx tv) echo 0) =
        .ok (hearing.rtt now (stamp tv), io', calls) ∧ SameSender io io' ∧ Listening io' := by
  obtain ⟨txbuf, txpos, xh0, xh1, xbuf, isOpen⟩ := io
  obtain rfl : xh1 = 0 := h.expected
  have hdata : xbuf.data = [] := h.data
  have hcap : xbuf.capacity = 16 := h.capacity
  have hlen : (padInfo idx tv).length ≤ fragSize := by
    rw [padInfo_length]
    decide
  have hwire : fragment (padInfo idx tv) echo 0 =
      0x80 :: 0 :: .ofNat (echo.toNat / 256) :: .ofNat echo.toNat :: padInfo idx tv := by
    rw [fragment, head0, if_pos (by rw [Nat.zero_add, Nat.one_mul]; exact hlen), chunk, Nat.zero_mul,
      List.drop_zero, List.take_of_length_le hlen]
    rfl
  have hfits : (padInfo idx tv).length ≤ xbuf.spaces := by
    rw [BufferRef.spaces, BufferRef.size, hdata, hcap, padInfo_length]
    decide
  have hfilled : (fill xbuf (padInfo idx tv)).data = padInfo idx tv := by
    rw [fill_data hfits, hdata, List.nil_append]
  have hsize : (fill xbuf (padInfo idx tv)).size = 12 := by
    rw [BufferRef.size, hfilled, padInfo_length]
  obtain ⟨rb, calls, hprocess, hrb, hrbcap⟩ := process_pad now hearing hfilled
  refine ⟨⟨txbuf, txpos, xh0, 0, rb, isOpen⟩, calls, ?_, ⟨rfl, rfl, rfl, rfl⟩, rfl, hrb, hrbcap.trans hcap⟩
  have hnext : ofBe16 0x80 0 &&& 0x7fff = 0 := by decide
  have hflag : ofBe16 0x80 0 &&& 0x8000 ≠ 0 := by decide
  rw [hwire, RecvPath.Spec.recv_fragment _ _ _ _ _ _ (by decide), if_pos hnext, RecvPath.posIncrRecv,
    if_pos hflag, if_neg (by rw [hsize]; decide), hprocess]

/-- A keep-alive changes nothing. -/
theorem recv_keepAlive_server :
    RecvPath.l2recvOne (hears now) hearing io [0xff, 0xff, 0xff, 0xff] = .ok (hearing, io, []) := by
  have hword : ofBe16 0xff 0xff = 0xffff := by decide
  rw [RecvPath.l2recvOne]
  simp only [hword, if_true, List.take_nil, List.length_nil]
  rfl

end UdpEndpoint
end CppSnippets.Epoll
