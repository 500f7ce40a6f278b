import CppSnippets.Epoll.Reset
import CppSnippets.Epoll.VideoPath

/-!
# The receive path on any datagram

`l2recv_one`, `process_recvd` and the `unpack` of one side, with everything that may
go wrong in them. The endpoint of the video path takes for granted that the last
twelve bytes, which a log line shows, are there, and that `l2close` returns. Here
neither is: what a datagram leads to is a state, with the calls of `unpack` on the way
to it, or a stop.
-/
namespace CppSnippets.Epoll.RecvPath

open CppSnippets.Lib

/-- How the receive path ends other than by returning. -/
inductive Stop where
  /-- An exit or an assertion of the functions that it calls. -/
  | exit (e : Exit)
  /-- `%x`, from the server's `unpack`. -/
  | unpack
  /-- The log line reads in front of the buffer. -/
  | outside
  /-- `l2close` does not return. -/
  | endless
  deriving DecidableEq

def exiting {α : Type} : Except Exit α → Except Stop α
  | .ok a => .ok a
  | .error e => .error (.exit e)

/-- The length in the first word of a message. -/
def announced (b : List Byte) : Option Nat := (ntohl b).map fun uh => (uh &&& 0x00ffffff).toNat

/-- The buffer holds at least as many bytes as its first message announces. -/
def Complete (b : List Byte) : Prop := ∃ n, announced b = some n ∧ n ≤ b.length

/-- A call of `unpack`: the bytes in the buffer, and how many of them it is done with. -/
structure Call where
  buf : List Byte
  taken : Nat

/-- A message that is all there is consumed. -/
def Call.Consumes (c : Call) : Prop :=
  ∀ n, announced c.buf = some n → n ≤ c.buf.length → 0 < c.taken ∧ n ≤ c.taken

/-- What the client and the server differ in. -/
structure Side (σ : Type) where
  /-- The receive buffer. -/
  kind : Reset.Kind
  unpack : σ → BufferRef → Except Stop (σ × BufferRef × Nat)

variable {σ : Type}

/-- The loop of `process_recvd`, with the number of turns it may take. -/
def processLoop (side : Side σ) : Nat → σ → BufferRef → Except Stop (σ × BufferRef × List Call)
  | 0, s, rb => .ok (s, rb, [])
  | turns + 1, s, rb =>
    if rb.isEmpty then .ok (s, rb, [])
    else
      match side.unpack s rb with
      | .error e => .error e
      | .ok (s', rb', len) =>
        if 0 < len then
          if rb'.size < len then .error (.exit .processRecvd)
          else
            match rb'.consume len with
            | .error e => .error (.exit e)
            | .ok c =>
              match processLoop side turns s' c with
              | .error e => .error e
              | .ok (t, left, calls) => .ok (t, left, ⟨rb.data, len⟩ :: calls)
        else .ok (s', rb', [⟨rb.data, len⟩])

/-- Every turn consumes a byte, so the size of the buffer bounds the turns. -/
def processRecvd (side : Side σ) (s : σ) (rb : BufferRef) :
    Except Stop (σ × BufferRef × List Call) := processLoop side rb.size s rb

/-- The new buffer that `l2close` assigns: for a `malloc_buf` this does not return. -/
def l2close : Reset.Kind → IoBasic → Except Stop IoBasic
  | .mallocBuf, _ => .error .endless
  | .arrayBuf, io => exiting io.l2close

def posIncrRecv (side : Side σ) (s : σ) (io : IoBasic) (head0 : UInt16) :
    Except Stop (σ × IoBasic × List Call) :=
  if head0 &&& 0x8000 ≠ 0 then
    -- memcpy(&pinf, xbuf.end()-sizeof(pinf), sizeof(pinf))
    if io.xbuf.size < 12 then .error .outside
    else
      match processRecvd side s io.xbuf with
      | .error e => .error e
      | .ok (s, rb, calls) => .ok (s, { io with xh1 := 0, xbuf := rb }, calls)
  else .ok (s, { io with xh1 := io.xh1 + 1 }, [])

/-- `l2recv_one` on a datagram. -/
def l2recvOne (side : Side σ) (s : σ) (io : IoBasic) : List Byte → Except Stop (σ × IoBasic × List Call)
  | [] => .ok (s, io, [])
  | b0 :: b1 :: _ :: _ :: p =>
    let p := p.take io.xbuf.spaces
    if ofBe16 b0 b1 = 0xffff then
      if 8 < 4 + p.length then (l2close side.kind io).map fun io => (s, io, [])
      else .ok (s, io, [])
    else
      let head0 := ofBe16 b0 b1
      match io.xbuf.commit p with
      | .error e => .error (.exit e)
      | .ok xbuf =>
        if head0 &&& 0x7fff = io.xh1 then posIncrRecv side s { io with xbuf := xbuf } head0
        else if head0 &&& 0x7fff = 0 then
          match xbuf.consume (xbuf.size - p.length) with
          | .error e => .error (.exit e)
          | .ok xbuf => posIncrRecv side s { io with xh1 := 0, xbuf := xbuf } head0
        else
          match xbuf.consume xbuf.size with
          | .error e => .error (.exit e)
          | .ok xbuf => .ok (s, { io with xh1 := 0, xbuf := xbuf }, [])
  | _ => (l2close side.kind io).map fun io => (s, io, [])

/-- A datagram is handled: the receive path returns, and every message that `unpack`
found all there is consumed. -/
def Handled (side : Side σ) (s : σ) (io : IoBasic) (d : List Byte) : Prop :=
  ∃ t io' calls, l2recvOne side s io d = .ok (t, io', calls) ∧ ∀ c ∈ calls, c.Consumes

/-- Nothing that is all there waits for anything but the last fragment. -/
def Settled (io : IoBasic) : Prop := io.xh1 = 0 → ¬Complete io.xbuf.data

/-! ## The endpoint of the video path -/

/-- `l2close` returns here where it does on the pointers, the queue taking back what was
being sent. -/
theorem l2close_returns_iff {N cap : Nat} {kind : Reset.Kind} {ok : Reset.Malloc} {r r' : Reset.Endpoint N}
    {io : IoBasic} (hview : Reset.View r io) (hfail : r.failTxbuf = .ok r') :
    (∃ io', l2close kind io = .ok io') ↔ ∃ fuel t, Reset.l2close kind cap ok fuel r = some (.ok t) := by
  cases kind with
  | mallocBuf =>
    refine iff_of_false (fun h => ?_) fun h => ?_
    · obtain ⟨io', hclose⟩ := h
      cases hclose
    · obtain ⟨fuel, t, hclose⟩ := h
      obtain ⟨_, _, _, _, hreset, _⟩ := Reset.l2close_ok hclose
      rw [Reset.resetXbuf_malloc] at hreset
      cases hreset
  | arrayBuf =>
    by_cases hopen : r.isOpen = true
    · refine iff_of_true ?_ ⟨0, ?_⟩
      · rw [l2close, IoBasic.l2close, if_pos (hview.isOpen ▸ hopen)]
        exact ⟨_, rfl⟩
      · rw [Reset.l2close, if_pos hopen, hfail]
        exact ⟨_, rfl⟩
    · refine iff_of_false (fun h => ?_) fun h => ?_
      · obtain ⟨io', hclose⟩ := h
        rw [l2close, IoBasic.l2close, if_neg (hview.isOpen ▸ hopen)] at hclose
        cases hclose
      · obtain ⟨fuel, t, hclose⟩ := h
        exact hopen (Reset.l2close_ok hclose).1

variable {side : Side σ} {sink : Sink σ} {s t : σ} {io io' : IoBasic} {calls : List Call}

theorem exiting_ok {α : Type} {r : Except Exit α} {a : α} (h : exiting r = .ok a) : r = .ok a := by
  cases r with
  | error e => cases h
  | ok b =>
    cases h
    rfl

theorem processLoop_sink (hsink : ∀ s rb, side.unpack s rb = exiting (sink.run s rb)) {turns : Nat}
    {rb left : BufferRef} (h : processLoop side turns s rb = .ok (t, left, calls)) :
    Epoll.processLoop sink turns s rb = .ok (t, left) := by
  induction turns generalizing s rb calls with
  | zero =>
    cases h
    rfl
  | succ turns ih =>
    rw [processLoop, hsink] at h
    rw [Epoll.processLoop]
    split at h
    · rename_i hempty
      cases h
      rw [if_pos hempty]
    · rename_i hempty
      rw [if_neg hempty]
      cases hrun : sink.run s rb with
      | error e =>
        rw [hrun] at h
        cases h
      | ok r =>
        obtain ⟨u, rb', len⟩ := r
        rw [hrun] at h
        simp only [exiting] at h
        simp only [bind, Except.bind, gt_iff_lt]
        by_cases hpos : 0 < len
        · rw [if_pos hpos] at h ⊢
          by_cases hbig : rb'.size < len
          · rw [if_pos hbig] at h
            cases h
          · rw [if_neg hbig] at h ⊢
            cases hc : rb'.consume len with
            | error e =>
              rw [hc] at h
              cases h
            | ok c =>
              rw [hc] at h
              cases hloop : processLoop side turns u c with
              | error e =>
                simp only [hloop] at h
                cases h
              | ok r =>
                simp only [hloop] at h
                cases h
                exact ih hloop
        · rw [if_neg hpos] at h ⊢
          cases h
          rfl

theorem l2close_sink (h : ((l2close side.kind io).map fun io => (s, io, ([] : List Call))) = .ok (t, io', calls)) :
    s = t ∧ io.l2close = .ok io' := by
  cases hkind : side.kind with
  | mallocBuf =>
    rw [hkind] at h
    cases h
  | arrayBuf =>
    rw [hkind, l2close] at h
    cases hclose : io.l2close with
    | error e =>
      rw [hclose] at h
      cases h
    | ok r =>
      rw [hclose] at h
      cases h
      exact ⟨rfl, rfl⟩

theorem posIncrRecv_sink (hsink : ∀ s rb, side.unpack s rb = exiting (sink.run s rb)) {head0 : UInt16}
    (restarted : Bool) (h : posIncrRecv side s io head0 = .ok (t, io', calls)) :
    ∃ taken, IoBasic.posIncrRecv (Epoll.processRecvd sink) s io head0 restarted = .ok (t, io', taken) := by
  rw [posIncrRecv] at h
  rw [IoBasic.posIncrRecv]
  split at h
  · rename_i hflag
    rw [if_pos hflag]
    split at h
    · cases h
    · split at h
      · cases h
      · rename_i hloop
        cases h
        refine ⟨.whole restarted io.xbuf, ?_⟩
        rw [Epoll.processRecvd, processLoop_sink hsink hloop]
        rfl
  · rename_i hflag
    rw [if_neg hflag]
    cases h
    exact ⟨.part restarted, rfl⟩

/-- Where nothing stops the receive path, the endpoint of the video path does the same. -/
theorem recv_sink (hsink : ∀ s rb, side.unpack s rb = exiting (sink.run s rb)) {d : List Byte}
    (h : l2recvOne side s io d = .ok (t, io', calls)) :
    ∃ taken, io.l2recvOne (Epoll.processRecvd sink) s (.datagram d) = .ok (t, io', taken) := by
  match d, h with
  | [], h =>
    cases h
    exact ⟨.nothing, rfl⟩
  | [_], h | [_, _], h | [_, _, _], h =>
    obtain ⟨rfl, hclose⟩ := l2close_sink h
    refine ⟨.closed, ?_⟩
    simp only [IoBasic.l2recvOne, hclose]
    rfl
  | b0 :: b1 :: c :: e :: p, h =>
    by_cases hones : ofBe16 b0 b1 = 0xffff
    · rw [l2recvOne, if_pos hones] at h
      simp only [IoBasic.l2recvOne, hones, if_true]
      split at h
      · rename_i hlong
        obtain ⟨rfl, hclose⟩ := l2close_sink h
        rw [if_pos hlong, hclose]
        exact ⟨.closed, rfl⟩
      · rename_i hshort
        rw [if_neg hshort]
        cases h
        exact ⟨.keepAlive, rfl⟩
    · simp only [l2recvOne, hones, if_false, IoBasic.commit_take, IoBasic.consume_fill,
        BufferRef.consume_size] at h
      simp only [IoBasic.l2recvOne, hones, if_false, IoBasic.commit_take, IoBasic.consume_fill,
        BufferRef.consume_size, bind, Except.bind]
      split at h
      · rename_i hexp
        rw [if_pos hexp]
        exact posIncrRecv_sink hsink false h
      · rename_i hexp
        rw [if_neg hexp]
        split at h
        · rename_i hzero
          rw [if_pos hzero]
          exact posIncrRecv_sink hsink true h
        · rename_i hzero
          rw [if_neg hzero]
          cases h
          exact ⟨.dropped, rfl⟩

end CppSnippets.Epoll.RecvPath
