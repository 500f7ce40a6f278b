import CppSnippets.Epoll.VideoPath
import CppSnippets.Epoll.QueueSafety
import CppSnippets.Lib.Run

/-!
# The encoder's side of the queue

The encoder's thread has one buffer allocated at a time, has a bitstream received at
its `begin()`, commits it and hands it over by the queue's own `done`, which patches
the length in and appends the `PadInfo`; the network's thread takes buffers and gives
them back at any time between these steps. A bitstream that the check of the poll
loop refuses stops the process there, and is not an event.
-/
namespace CppSnippets.Epoll.Encoder

open CppSnippets.Lib QueueRefinement CycleBufferQueue

/-- `bufs[i]->commit(*bufs[i], bs_len)`, which checks nothing, after a receive at
`begin()`. `none` is a buffer that is not empty or not large enough. -/
def commitSelf (b : BufferRef) (frame : List Byte) : Option BufferRef :=
  if h : b.isEmpty ∧ frame.length ≤ b.capacity then some ⟨frame, b.capacity, h.2⟩ else none

/-- Where the loop of the encoder is. -/
inductive Stage where
  | allocating
  | polling
  | committed (frame : List Byte)

structure Encoding where
  bufq : CycleBufferQueue 2
  /-- `idx_g_` -/
  idx : UInt32
  stage : Stage

def init (idx : UInt32) : Encoding := ⟨.init Nat.two_pos fun _ => bitstreamLen, idx, .allocating⟩

inductive Event where
  | alloc
  | commit (frame : List Byte)
  | done (tv : TimeVal)
  | consumer (op : Op)

/-- `bufque.done(bufs[i])`. -/
def Encoding.done (s : Encoding) (tv : TimeVal) : Except Exit (UInt32 × CycleBufferQueue 2) :=
  match s.bufq.ialloc with
  | none => .error .assertion
  | some j => serverDone s.idx tv s.bufq j

inductive Step : Encoding → Event → Encoding → Prop where
  | alloc {s : Encoding} {q : CycleBufferQueue 2} (hstage : s.stage = .allocating)
      (hq : s.bufq.alloc bitstreamLen = .ok q) :
      Step s .alloc { s with bufq := q, stage := .polling }
  | commit {s : Encoding} {j : Fin 2} {b : BufferRef} {frame : List Byte} (hstage : s.stage = .polling)
      (haccept : frame.length ≤ bitstreamLen) (hj : s.bufq.ialloc = some j)
      (hb : commitSelf (s.bufq.bufs j) frame = some b) :
      Step s (.commit frame)
        { s with
          bufq := { s.bufq with bufs := Function.update s.bufq.bufs j b }, stage := .committed frame }
  | done {s : Encoding} {frame : List Byte} {tv : TimeVal} {idx : UInt32} {q : CycleBufferQueue 2}
      (hstage : s.stage = .committed frame) (hq : s.done tv = .ok (idx, q)) :
      Step s (.done tv) { s with bufq := q, idx := idx, stage := .allocating }
  | consumer {s : Encoding} {op : Op} {q : CycleBufferQueue 2} (hop : op.byProducer = false)
      (hq : exec s.bufq op = .ok q) : Step s (.consumer op) { s with bufq := q }

/-! ## What the encoder's buffer holds -/

/-- The allocated buffer holds these bytes. -/
def Holds (q : CycleBufferQueue 2) (frame : List Byte) : Prop :=
  ∃ j, q.ialloc = some j ∧ (q.bufs j).data = frame

structure Inv (s : Encoding) : Prop where
  shape : Shape s.bufq
  capacity : ∀ i, (s.bufq.bufs i).capacity = bitstreamLen
  buffer : match s.stage with
    | .allocating => s.bufq.ialloc = none
    | .polling => Holds s.bufq []
    | .committed frame => Holds s.bufq frame

/-- The consumer leaves the allocated buffer, and every buffer as large as it is. -/
theorem consumer_frame {q q' : CycleBufferQueue 2} {op : Op} (hs : Shape q) (hop : op.byProducer = false)
    (h : exec q op = .ok q') : q'.ialloc = q.ialloc ∧ (∀ i, (q'.bufs i).capacity = (q.bufs i).capacity) ∧
      ∀ j, q.ialloc = some j → q'.bufs j = q.bufs j := by
  cases op with
  | alloc siz => cases hop
  | fill p => cases hop
  | doneAlloc => cases hop
  | failAlloc => cases hop
  | wait =>
    obtain ⟨_, rfl⟩ := wait_cases h
    exact ⟨rfl, fun _ => rfl, fun _ _ => rfl⟩
  | failUsing =>
    obtain ⟨_, _, rfl⟩ := failUsing_cases hs.apart h
    exact ⟨rfl, fun _ => rfl, fun _ _ => rfl⟩
  | doneUsing =>
    obtain ⟨u, hu, rfl⟩ := doneUsing_cases hs.apart h
    refine ⟨rfl, fun i => ?_, fun j hj => ?_⟩
    · by_cases hi : i = u
      · rw [hi]
        dsimp only
        rw [Function.update_self, BufferRef.clear_capacity]
      · dsimp only
        rw [Function.update_of_ne hi]
    · have hne : j ≠ u := fun he => hs.distinct j hj (he ▸ hu)
      exact Function.update_of_ne hne _ _

theorem Holds.consumer {q q' : CycleBufferQueue 2} {op : Op} {frame : List Byte} (hs : Shape q)
    (hop : op.byProducer = false) (h : exec q op = .ok q') (hholds : Holds q frame) : Holds q' frame := by
  obtain ⟨halloc, _, hsame⟩ := consumer_frame hs hop h
  obtain ⟨j, hj, hdata⟩ := hholds
  exact ⟨j, halloc.trans hj, by rw [hsame j hj, hdata]⟩

/-- What `done` of the allocated buffer comes to. -/
theorem serverDone_alloc {q : CycleBufferQueue 2} {j : Fin 2} (hj : q.ialloc = some j) (idx : UInt32)
    (tv : TimeVal) :
    serverDone idx tv q j = (do
      let b ← replaceStartbytesWithLen4 (q.bufs j)
      let b ← attachTestInfo idx tv b
      return (idx + 1, ← { q with bufs := Function.update q.bufs j b }.done j)) := by
  rw [serverDone, if_pos hj.symm]

theorem poke_size {b : BufferRef} {p : List Byte} (h : p.length ≤ b.size) : (b.poke p).size = b.size := by
  rw [BufferRef.size] at h ⊢
  rw [BufferRef.poke, List.length_append, List.length_take, List.length_drop, BufferRef.size]
  omega

theorem ntohl_length {p : List Byte} {u : UInt32} (h : ntohl p = some u) : 4 ≤ p.length := by
  unfold ntohl at h
  split at h
  · simp only [List.length_cons]
    omega
  · cases h

section

variable {b : BufferRef} (idx : UInt32) (tv : TimeVal)

theorem poked_spaces (hcap : b.capacity = bitstreamLen) (hstart : ntohl b.data = some 1) :
    (b.poke (be32 (.ofNat b.size))).spaces = bitstreamLen - b.data.length := by
  have hlen := ntohl_length hstart
  rw [BufferRef.spaces, poke_size (by rw [be32_length]; exact hlen)]
  exact congrArg (· - _) hcap

theorem attach_full (hcap : b.capacity = bitstreamLen) (hstart : ntohl b.data = some 1)
    (hlong : bitstreamLen < b.data.length + 12) :
    attachTestInfo idx tv (b.poke (be32 (.ofNat b.size))) = .error .put := by
  have hpad : (padInfo idx tv).length = 12 := rfl
  rw [attachTestInfo, BufferRef.put, dif_pos (by rw [poked_spaces hcap hstart, hpad]; omega)]

theorem attach_room (hcap : b.capacity = bitstreamLen) (hstart : ntohl b.data = some 1)
    (hroom : b.data.length + 12 ≤ bitstreamLen) : ∃ c : BufferRef, c.capacity = bitstreamLen ∧
      attachTestInfo idx tv (b.poke (be32 (.ofNat b.size))) = .ok c := by
  have hpad : (padInfo idx tv).length = 12 := rfl
  obtain ⟨c, hput, _, hc⟩ := BufferRef.put_ok (b := b.poke (be32 (.ofNat b.size))) (p := padInfo idx tv)
    (by rw [poked_spaces hcap hstart, hpad]; omega)
  exact ⟨c, hc.trans hcap, hput⟩

end

variable {s t : Encoding} {frame : List Byte}

theorem done_eq {j : Fin 2} (hj : s.bufq.ialloc = some j) (tv : TimeVal) : s.done tv = (do
    let b ← replaceStartbytesWithLen4 (s.bufq.bufs j)
    let b ← attachTestInfo s.idx tv b
    return (s.idx + 1, ← { s.bufq with bufs := Function.update s.bufq.bufs j b }.done j)) := by
  rw [Encoding.done, hj]
  exact serverDone_alloc hj s.idx tv

/-- The two checks on the way of a committed frame. -/
theorem done_cases (h : Inv s) (hstage : s.stage = .committed frame) (tv : TimeVal) :
    ntohl frame ≠ some 1 ∧ s.done tv = .error .startbytes ∨
      ntohl frame = some 1 ∧ bitstreamLen < frame.length + 12 ∧ s.done tv = .error .put ∨
      ntohl frame = some 1 ∧ frame.length + 12 ≤ bitstreamLen ∧
        ∃ (j : Fin 2) (b : BufferRef), s.bufq.ialloc = some j ∧
        b.capacity = bitstreamLen ∧ s.done tv =
          .ok (s.idx + 1, ⟨Function.update s.bufq.bufs j b, incr j, none, s.bufq.iusing⟩) := by
  have hbuffer := h.buffer
  rw [hstage] at hbuffer
  obtain ⟨j, hj, rfl⟩ := hbuffer
  rw [done_eq hj, replaceStartbytesWithLen4]
  by_cases hstart : ntohl (s.bufq.bufs j).data = some 1
  · rw [if_pos hstart]
    rcases Nat.lt_or_ge bitstreamLen ((s.bufq.bufs j).data.length + 12) with hlong | hroom
    · refine .inr (.inl ⟨hstart, hlong, ?_⟩)
      show (do
        let b ← attachTestInfo s.idx tv ((s.bufq.bufs j).poke (be32 (.ofNat (s.bufq.bufs j).size)))
        return (s.idx + 1, ← { s.bufq with bufs := Function.update s.bufq.bufs j b }.done j)) = _
      rw [attach_full s.idx tv (h.capacity j) hstart hlong]
      rfl
    · obtain ⟨b, hcap, hattach⟩ := attach_room s.idx tv (h.capacity j) hstart hroom
      refine .inr (.inr ⟨hstart, hroom, j, b, hj, hcap, ?_⟩)
      show (do
        let b ← attachTestInfo s.idx tv ((s.bufq.bufs j).poke (be32 (.ofNat (s.bufq.bufs j).size)))
        return (s.idx + 1, ← { s.bufq with bufs := Function.update s.bufq.bufs j b }.done j)) = _
      rw [hattach]
      show (do return (s.idx + 1, ← CycleBufferQueue.done
        { s.bufq with bufs := Function.update s.bufq.bufs j b } j)) = _
      rw [CycleBufferQueue.done, if_pos hj.symm, if_neg]
      · rfl
      · rw [hj, h.shape.allocAtIp j hj]
        exact not_not.mpr rfl
  · rw [if_neg hstart]
    exact .inl ⟨hstart, rfl⟩

/-! ## The run -/

theorem inv_init (idx : UInt32) : Inv (init idx) := ⟨shape_init _ _, fun _ => rfl, rfl⟩

theorem capacity_update {q : CycleBufferQueue 2} {j : Fin 2} {b : BufferRef} {n : Nat}
    (h : ∀ i, (q.bufs i).capacity = n) (hb : b.capacity = n) (i : Fin 2) :
    (Function.update q.bufs j b i).capacity = n := by
  by_cases hi : i = j
  · rw [hi, Function.update_self]
    exact hb
  · rw [Function.update_of_ne hi]
    exact h i

/-- The buffer in the consumer's hands is not the one that is written. -/
theorem usingFull_update {q : CycleBufferQueue 2} {j : Fin 2} {b : BufferRef} (h : Shape q)
    (hj : q.ialloc = some j) (i : Fin 2) (hi : q.iusing = some i) :
    (Function.update q.bufs j b i).isEmpty = false := by
  have hne : i ≠ j := fun he => h.distinct j hj (he ▸ hi)
  rw [Function.update_of_ne hne]
  exact h.usingFull i hi

theorem inv_step {ev : Event} (h : Inv s) (hstep : Step s ev t) : Inv t := by
  cases hstep with
  | alloc hstage hq =>
    have hshape := shape_step h.shape (show exec s.bufq (.alloc bitstreamLen) = _ from hq)
    obtain ⟨_, i, _, rfl⟩ := alloc_cases hq
    refine ⟨hshape, capacity_update h.capacity (h.capacity i), i, rfl, ?_⟩
    dsimp only
    rw [Function.update_self, BufferRef.clear_data]
  | @commit j b frame hstage haccept hj hb =>
    rw [commitSelf] at hb
    split at hb
    · cases hb
      refine ⟨⟨h.shape.allocAtIp, h.shape.distinct, usingFull_update h.shape hj⟩,
        capacity_update h.capacity (h.capacity j), j, hj, ?_⟩
      dsimp only
      rw [Function.update_self]
    · cases hb
  | @done frame tv idx q hstage hq =>
    rcases done_cases h hstage tv with
      ⟨_, herror⟩ | ⟨_, _, herror⟩ | ⟨_, _, j, b, hj, hcap, hok⟩
    · rw [herror] at hq
      cases hq
    · rw [herror] at hq
      cases hq
    · rw [hok] at hq
      cases hq
      exact ⟨⟨fun _ hk => (by cases hk), fun _ hk => (by cases hk), usingFull_update h.shape hj⟩,
        capacity_update h.capacity hcap, rfl⟩
  | consumer hop hq =>
    obtain ⟨halloc, hcap, _⟩ := consumer_frame h.shape hop hq
    refine ⟨shape_step h.shape hq, fun k => (hcap k).trans (h.capacity k), ?_⟩
    have hbuffer := h.buffer
    dsimp only
    split at hbuffer
    · exact halloc.trans hbuffer
    · exact hbuffer.consumer h.shape hop hq
    · exact hbuffer.consumer h.shape hop hq

theorem inv_run {idx : UInt32} {evs : List Event} (hrun : Run Step (init idx) evs s) : Inv s :=
  hrun.invariant (fun _ _ _ h hstep => inv_step h hstep) (inv_init idx)

theorem done_put_iff (h : Inv s) (hstage : s.stage = .committed frame) (tv : TimeVal) :
    s.done tv ≠ .error .put ↔ ntohl frame ≠ some 1 ∨ frame.length + 12 ≤ bitstreamLen := by
  rcases done_cases h hstage tv with
    ⟨hstart, heq⟩ | ⟨hstart, hlong, heq⟩ | ⟨_, hroom, j, b, _, _, heq⟩
  · rw [heq]
    exact iff_of_true (fun h => by cases h) (.inl hstart)
  · rw [heq]
    refine iff_of_false (not_not.mpr rfl) ?_
    rw [not_or, not_not]
    exact ⟨hstart, by omega⟩
  · rw [heq]
    exact iff_of_true (fun h => by cases h) (.inr hroom)

/-- `done` goes on exactly where both checks pass. -/
theorem done_ok_iff (h : Inv s) (hstage : s.stage = .committed frame) (tv : TimeVal) :
    (∃ r, s.done tv = .ok r) ↔ ntohl frame = some 1 ∧ frame.length + 12 ≤ bitstreamLen := by
  rcases done_cases h hstage tv with
    ⟨hstart, heq⟩ | ⟨_, hlong, heq⟩ | ⟨hstart, hroom, j, b, _, _, heq⟩
  · rw [heq]
    exact iff_of_false (fun h => nomatch h) fun h => hstart h.1
  · rw [heq]
    exact iff_of_false (fun h => nomatch h) fun h => by omega
  · rw [heq]
    exact iff_of_true ⟨_, rfl⟩ ⟨hstart, hroom⟩

/-- A bitstream that is accepted is committed. -/
theorem commit_accepted (h : Inv s) (hstage : s.stage = .polling) (haccept : frame.length ≤ bitstreamLen) :
    ∃ t, Step s (.commit frame) t ∧ t.stage = .committed frame := by
  have hbuffer := h.buffer
  rw [hstage] at hbuffer
  obtain ⟨j, hj, hdata⟩ := hbuffer
  have hroom : (s.bufq.bufs j).isEmpty = true ∧ frame.length ≤ (s.bufq.bufs j).capacity := by
    rw [BufferRef.isEmpty, hdata, h.capacity j]
    exact ⟨rfl, haccept⟩
  exact ⟨_, .commit hstage haccept hj (by rw [commitSelf, dif_pos hroom]), rfl⟩

/-! ## The main result -/

/-- In every run of both threads: a bitstream that the encoder accepts is committed,
whatever its length; and `done` of a committed one reaches the exit of `put` when it
has a start code and leaves no room for the `PadInfo`, and only then. -/
theorem encoder_capacity {idx : UInt32} {evs : List Event} (hrun : Run Step (init idx) evs s) :
    (s.stage = .polling → ∀ frame : List Byte, frame.length ≤ bitstreamLen →
      ∃ t, Step s (.commit frame) t ∧ t.stage = .committed frame) ∧
    ∀ frame, s.stage = .committed frame → ∀ tv,
      (s.done tv ≠ .error .put ↔ ntohl frame ≠ some 1 ∨ frame.length + 12 ≤ bitstreamLen) :=
  ⟨fun hstage _ haccept => commit_accepted (inv_run hrun) hstage haccept,
    fun _ hstage tv => done_put_iff (inv_run hrun) hstage tv⟩

/-- The first buffer, before the first bitstream. -/
def first : Encoding :=
  ⟨⟨Function.update (fun _ => .mk0 bitstreamLen) 0 (.mk0 bitstreamLen), 0, some 0, none⟩, 0, .polling⟩

theorem run_first : Run Step (init 0) [.alloc] first := by
  refine Run.single (.alloc rfl ?_)
  rfl

theorem encoder_capacity_first : ∃ t, Step first (.commit [0, 0, 0, 1]) t ∧ t.stage = .committed [0, 0, 0, 1] :=
  (encoder_capacity run_first).1 rfl [0, 0, 0, 1] (by decide)

/-- The longest bitstream that is accepted. -/
theorem encoder_capacity_broken : ∃ (evs : List Event) (s : Encoding) (frame : List Byte) (tv : TimeVal),
    Run Step (init 0) evs s ∧ s.stage = .committed frame ∧ frame.length ≤ bitstreamLen ∧
      s.done tv = .error .put := by
  have hlen : ([0, 0, 0, 1] ++ List.replicate (bitstreamLen - 4) 0 : List Byte).length = bitstreamLen := by
    rw [List.length_append, List.length_replicate]
    rfl
  obtain ⟨t, hstep, hstage⟩ := commit_accepted (inv_run run_first) rfl hlen.le
  have hrun := run_first.snoc hstep
  refine ⟨_, t, _, ⟨0, 0⟩, hrun, hstage, hlen.le, ?_⟩
  by_contra hne
  have hfine := (done_put_iff (inv_run hrun) hstage ⟨0, 0⟩).mp hne
  rw [hlen] at hfine
  refine hfine.elim (fun h => h rfl) fun h => ?_
  omega

end CppSnippets.Epoll.Encoder
