import CppSnippets.Epoll.Encoder
import CppSnippets.Epoll.TcpSend
import CppSnippets.Epoll.VideoRoundTrip

/-!
# What has gone through a queue

Of a queue that only its producer and its consumer use: the messages that were handed
over, and those that `wait` has returned, which are some of them, in order. And what the
encoder's thread hands over to the server's queue.
-/
namespace CppSnippets.Epoll.QueueHistory

open CppSnippets.Lib VideoRoundTrip QueueRefinement

variable {N : Nat}

/-- What `wait` has returned in this history. -/
def contents (l : List QueueRefinement.Event) : List (List Byte) :=
  l.filterMap fun
    | .delivered _ m => some m
    | _ => none

theorem contents_lift (l : List (FifoEvent (List Byte))) :
    contents (l.map liftEvent) = (LossyFifo.deliveries l).map Prod.fst := by
  induction l with
  | nil => rfl
  | cons e l ih =>
    cases e with
    | delivered n m => exact congrArg (m :: ·) ih
    | handedBack n => exact ih
    | dropped n => exact ih

/-- The queue with a history of these commits, of which `wait` has returned those. -/
def Served (sent : List (List Byte)) (q : CycleBufferQueue N) (returned : List (List Byte)) : Prop :=
  ∃ (r : Ring N) (a : LossyFifo (List Byte)), Refines r a ∧ a.Inv ∧ a.Fresh ∧
    r.q = q ∧ r.commits = sent ∧ contents r.log = returned

variable {sent l : List (List Byte)} {q q' : CycleBufferQueue N}

theorem served_init (h : 0 < N) (capacity : Fin N → Nat) : Served [] (.init h capacity) [] :=
  ⟨Ring.init h capacity, .empty, refines_init _ _, LossyFifo.inv_empty,
    ⟨List.Pairwise.nil, fun _ hn => nomatch hn⟩, rfl, rfl, rfl⟩

theorem served_follows {r' : Ring N} {a : LossyFifo (List Byte)} (ha : a.Inv) (hf : a.Fresh)
    (h : Follows a r') : Served r'.commits r'.q (contents r'.log) := by
  obtain ⟨ls, b, hrun, href⟩ := h
  obtain ⟨hb, hfb⟩ := hrun.invariant LossyFifo.fresh_step ⟨ha, hf⟩
  exact ⟨r', b, href, hb, hfb, rfl, rfl, rfl⟩

theorem Served.shape (h : Served sent q l) : Shape q := by
  obtain ⟨r, a, href, _, _, rfl, _⟩ := h
  exact href.shape

/-! ## The consumer -/

theorem served_wait (h : Served sent q l) (hw : q.wait = .ok q') :
    Served sent q' (l ++ (q'.iusing.map fun i => (q'.bufs i).data).toList) := by
  obtain ⟨r, a, href, ha, hf, rfl, rfl, rfl⟩ := h
  have hsame : q'.bufs = r.q.bufs := by
    obtain ⟨_, rfl⟩ := wait_cases hw
    rfl
  have hserved := served_follows ha hf (follows_wait href hw)
  cases hu : q'.iusing with
  | none =>
    simp only [observe, hu] at hserved
    rw [Option.map_none, Option.toList_none, List.append_nil]
    exact hserved
  | some j =>
    simp only [observe, hu, contents, List.filterMap_append] at hserved
    rw [Option.map_some, Option.toList_some, hsame]
    exact hserved

theorem served_doneUsing (h : Served sent q l) (hd : exec q .doneUsing = .ok q') : Served sent q' l := by
  obtain ⟨r, a, href, ha, hf, rfl, rfl, rfl⟩ := h
  exact served_follows ha hf (follows_doneUsing href hd)

/-! ## The producer -/

theorem served_alloc {siz : Nat} (h : Served sent q l) (hx : q.alloc siz = .ok q') : Served sent q' l := by
  obtain ⟨r, a, href, ha, hf, rfl, rfl, rfl⟩ := h
  have hserved := served_follows ha hf (follows_alloc href hx)
  have hlog : contents (observe r q' (.alloc siz)).log = contents r.log := by
    simp only [observe]
    split <;> simp [contents]
  rw [hlog] at hserved
  exact hserved

theorem usingFull_update {j : Fin N} {b : BufferRef} (h : Shape q) (hj : q.ialloc = some j) (i : Fin N)
    (hi : q.iusing = some i) : (Function.update q.bufs j b i).isEmpty = false := by
  have hne : i ≠ j := fun he => h.distinct j hj (he ▸ hi)
  rw [Function.update_of_ne hne]
  exact h.usingFull i hi

/-- What the producer writes into its own buffer is not seen. -/
theorem served_write {j : Fin N} {b : BufferRef} (h : Served sent q l) (hj : q.ialloc = some j) :
    Served sent { q with bufs := Function.update q.bufs j b } l := by
  obtain ⟨r, a, href, ha, hf, rfl, rfl, hl⟩ := h
  have hshape := href.shape
  have hdead : ∀ p : CycleBufferQueue N, p.ialloc = some j → live p j = false :=
    fun p hp => not_live_iff.mpr (.inl hp)
  set r' : Ring N := { r with q := { r.q with bufs := Function.update r.q.bufs j b } }
  have hlive : ∀ k, live r'.q k = live r.q k := by
    intro k
    by_cases hk : k = j
    · subst hk
      rw [hdead r'.q hj, hdead r.q hj]
    · simp [r', live, CycleBufferQueue.usable, Function.update_of_ne hk]
  have hentry : ∀ k, k ≠ j → r'.entry k = r.entry k := by
    intro k hk
    simp [r', Ring.entry, Function.update_of_ne hk]
  refine ⟨r', a, ⟨?_, href.sent, ?_, ?_, href.log⟩, ha, hf, rfl, rfl, hl⟩
  · exact ⟨hshape.allocAtIp, hshape.distinct, usingFull_update hshape hj⟩
  · rw [← href.pending]
    refine pending_congr (fun k _ => hlive k) fun k _ hk => hentry k ?_
    rintro rfl
    rw [hdead r.q hj] at hk
    cases hk
  · rw [← href.taken]
    change r.q.iusing.map r'.entry = _
    cases hu : r.q.iusing with
    | none => rfl
    | some u => exact congrArg some (hentry u fun he => hshape.distinct j hj (he ▸ hu))

theorem served_commit {j : Fin N} (h : Served sent q l) (hj : q.ialloc = some j) (hx : q.done j = .ok q') :
    Served (sent ++ [(q.bufs j).data]) q' l := by
  obtain ⟨r, a, href, ha, hf, rfl, rfl, rfl⟩ := h
  have hexec : exec r.q .doneAlloc = .ok q' := by
    rw [exec, hj]
    exact hx
  have hserved := served_follows ha hf (follows_doneAlloc href hexec)
  simp only [observe, hj] at hserved
  exact hserved

/-- What `wait` has returned was handed over, in this order and none twice. -/
theorem served_sublist (h : Served sent q l) :
    ∃ kept : List (List Byte × Nat), kept.Sublist sent.zipIdx ∧ l = kept.map Prod.fst := by
  obtain ⟨r, a, href, ha, hf, _, rfl, rfl⟩ := h
  refine ⟨LossyFifo.deliveries a.log, ?_, ?_⟩
  · rw [href.sent]
    exact LossyFifo.deliveries_sublist ha hf
  · rw [href.log, contents_lift]

/-! ## What the encoder's thread hands over -/

theorem ntohl_one {p : List Byte} (h : ntohl p = some 1) : [0, 0, 0, 1] <+: p := by
  obtain ⟨b0, b1, b2, b3, l, rfl⟩ : ∃ b0 b1 b2 b3 l, p = b0 :: b1 :: b2 :: b3 :: l := by
    match p, Encoder.ntohl_length h with
    | b0 :: b1 :: b2 :: b3 :: l, _ => exact ⟨b0, b1, b2, b3, l, rfl⟩
  have hword : ofBe32 b0 b1 b2 b3 = 1 := Option.some.inj h
  have hbytes : [b0, b1, b2, b3] = be32 1 := by rw [← hword, be32_ofBe32]
  exact ⟨l, congrArg (· ++ l) hbytes.symm⟩

/-- The spec of `done`: the buffer that is committed holds the frame, packed. -/
theorem done_ok {e : Encoder.Encoding} {frame : List Byte} {tv : TimeVal} {idx : UInt32}
    {q : CycleBufferQueue 2} (h : Encoder.Inv e) (hstage : e.stage = .committed frame)
    (hs : e.done tv = .ok (idx, q)) : Encoded ⟨frame, tv, fun _ => 0⟩ ∧ idx = e.idx + 1 ∧
      ∃ (j : Fin 2) (b : BufferRef), e.bufq.ialloc = some j ∧
        b.data = packed e.idx ⟨frame, tv, fun _ => 0⟩ ∧
        CycleBufferQueue.done { e.bufq with bufs := Function.update e.bufq.bufs j b } j = .ok q := by
  have hbuffer := h.buffer
  rw [hstage] at hbuffer
  obtain ⟨j, hj, hdata⟩ := hbuffer
  have hencoded : Encoded ⟨frame, tv, fun _ => 0⟩ := by
    obtain ⟨hstart, hroom⟩ := (Encoder.done_ok_iff h hstage tv).mp ⟨_, hs⟩
    exact ⟨ntohl_one hstart, hroom⟩
  obtain ⟨b, c, hreplace, hattach, hc, _⟩ := attach_replace e.idx hencoded hdata (h.capacity j)
  have hattach' : attachTestInfo e.idx tv b = .ok c := hattach
  rw [Encoder.done_eq hj, hreplace] at hs
  simp only [hattach', bind, Except.bind, pure, Except.pure] at hs
  cases hd : CycleBufferQueue.done { e.bufq with bufs := Function.update e.bufq.bufs j c } j with
  | error err =>
    rw [hd] at hs
    cases hs
  | ok q' =>
    rw [hd] at hs
    cases hs
    exact ⟨hencoded, rfl, j, c, hj, hc, hd⟩

/-- The frame that a `done` hands over. -/
def handed : Encoder.Stage → Encoder.Event → List Shot
  | .committed frame, .done tv => [⟨frame, tv, fun _ => 0⟩]
  | _, _ => []

theorem stage_of_handed {stage : Encoder.Stage} {ev : Encoder.Event} {x : Shot} (h : x ∈ handed stage ev) :
    stage = .committed x.frame := by
  unfold handed at h
  split at h
  · rw [List.mem_singleton.mp h]
  · cases h

/-- The buffer for a frame, by its number. -/
def packedAt (idx : UInt32) (p : Shot × Nat) : List Byte := packed (idx + .ofNat p.2) p.1

def packedAll (idx : UInt32) (xs : List Shot) : List (List Byte) := xs.zipIdx.map (packedAt idx)

theorem packedAll_concat (idx : UInt32) (xs : List Shot) (x : Shot) :
    packedAll idx (xs ++ [x]) = packedAll idx xs ++ [packed (idx + .ofNat xs.length) x] := by
  rw [packedAll, List.zipIdx_append, List.map_append, Nat.zero_add]
  rfl

theorem ofNat_succ (n : Nat) : UInt32.ofNat (n + 1) = .ofNat n + 1 := by
  rw [UInt32.ofNat_add]
  rfl

/-- What the encoder's thread keeps true of its own side, having handed over these frames. -/
structure Feeds (idx : UInt32) (e : Encoder.Encoding) (frames : List Shot) : Prop where
  inv : Encoder.Inv e
  counted : e.idx = idx + .ofNat frames.length
  good : ∀ x ∈ frames, Encoded x ∧ x.echo = fun _ => 0

theorem feeds_init (idx : UInt32) : Feeds idx (Encoder.init idx) [] := by
  constructor
  · exact Encoder.inv_init idx
  · change idx = idx + 0
    rw [UInt32.add_zero]
  · exact fun _ hx => nomatch hx

variable {idx : UInt32} {frames : List Shot}

/-- A step of the encoder's thread, on its own side and on the queue. -/
theorem feeds_step {ev : Encoder.Event} {e e' : Encoder.Encoding} (hev : ∀ op, ev ≠ .consumer op)
    (hf : Feeds idx e frames) (hserved : Served (packedAll idx frames) e.bufq l)
    (hstep : Encoder.Step e ev e') : Feeds idx e' (frames ++ handed e.stage ev) ∧
      Served (packedAll idx (frames ++ handed e.stage ev)) e'.bufq l := by
  have hinv := Encoder.inv_step hf.inv hstep
  cases hstep with
  | @alloc q hstage hq =>
    have hnone : frames ++ handed e.stage .alloc = frames := by
      rw [hstage]
      exact List.append_nil _
    rw [hnone]
    exact ⟨⟨hinv, hf.counted, hf.good⟩, served_alloc hserved hq⟩
  | @commit j b frame hstage haccept hj hb =>
    have hnone : frames ++ handed e.stage (.commit frame) = frames := by
      rw [hstage]
      exact List.append_nil _
    rw [hnone]
    exact ⟨⟨hinv, hf.counted, hf.good⟩, served_write hserved hj⟩
  | @done frame tv i q hstage hq =>
    obtain ⟨hencoded, hidx, j, b, hj, hdata, hdone⟩ := done_ok hf.inv hstage hq
    have hone : handed e.stage (.done tv) = [⟨frame, tv, fun _ => 0⟩] := by
      rw [hstage]
      rfl
    have hcommit := served_commit (served_write (b := b) hserved hj) hj hdone
    have hbuffer : (Function.update e.bufq.bufs j b j).data =
        packed (idx + .ofNat frames.length) ⟨frame, tv, fun _ => 0⟩ := by
      rw [Function.update_self, hdata, ← hf.counted]
    simp only [hbuffer, ← packedAll_concat] at hcommit
    rw [hone]
    refine ⟨⟨hinv, ?_, fun x hx => ?_⟩, hcommit⟩
    · change i = idx + .ofNat (frames ++ [_]).length
      rw [hidx, List.length_append, List.length_singleton, ofNat_succ, ← UInt32.add_assoc, ← hf.counted]
    · rcases List.mem_append.mp hx with hx | hx
      · exact hf.good x hx
      · rw [List.mem_singleton.mp hx]
        exact ⟨hencoded, rfl⟩
  | consumer hop hq => exact absurd rfl (hev _)

/-- The encoder's thread leaves the buffer that is being sent alone. -/
theorem encoder_undisturbed {ev : Encoder.Event} {e e' : Encoder.Encoding}
    (hev : ∀ op, ev ≠ .consumer op) (h : Encoder.Inv e) (hstep : Encoder.Step e ev e') :
    TcpSend.Undisturbed e.bufq e'.bufq := by
  have hshape := (Encoder.inv_step h hstep).shape
  cases hstep with
  | @alloc q hstage hq =>
    exact TcpSend.undisturbed_exec h.shape ⟨.alloc bitstreamLen, rfl⟩ hq
  | @commit j b frame hstage haccept hj hb =>
    refine ⟨hshape, rfl, fun u hu => Function.update_of_ne ?_ _ _⟩
    rintro rfl
    exact h.shape.distinct u hj hu
  | @done frame tv i q hstage hq =>
    rcases Encoder.done_cases h hstage tv with
      ⟨_, herror⟩ | ⟨_, _, herror⟩ | ⟨_, _, j, b, hj, _, hok⟩
    · rw [herror] at hq
      cases hq
    · rw [herror] at hq
      cases hq
    · rw [hok] at hq
      cases hq
      refine ⟨hshape, rfl, fun u hu => Function.update_of_ne ?_ _ _⟩
      rintro rfl
      exact h.shape.distinct u hj hu
  | consumer hop hq => exact absurd rfl (hev _)

theorem feeds_consumer {e : Encoder.Encoding} {q : CycleBufferQueue 2} (op : Op)
    (hop : op.byProducer = false) (hf : Feeds idx e frames) (hq : exec e.bufq op = .ok q) :
    Feeds idx { e with bufq := q } frames :=
  ⟨Encoder.inv_step hf.inv (.consumer hop hq), hf.counted, hf.good⟩

/-- The frames that are among what `wait` has returned. -/
theorem served_kept {q : CycleBufferQueue 2} (h : Served (packedAll idx frames) q l) :
    ∃ kept : List (Shot × Nat), kept.Sublist frames.zipIdx ∧ l = kept.map (packedAt idx) := by
  obtain ⟨messages, hsub, rfl⟩ := served_sublist h
  have hnumbered : (packedAll idx frames).zipIdx = frames.zipIdx.map fun p => (packedAt idx p, p.2) := by
    refine List.ext_getElem (by simp [packedAll]) fun i h₁ h₂ => ?_
    simp [packedAll]
  rw [hnumbered] at hsub
  obtain ⟨kept, hkept, rfl⟩ := List.sublist_map_iff.mp hsub
  refine ⟨kept, hkept, ?_⟩
  rw [List.map_map]
  rfl

end CppSnippets.Epoll.QueueHistory
