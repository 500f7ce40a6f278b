import CppSnippets.Epoll.VideoPath

/-!
# The video path loses nothing

Server, transport and client undo one another: with every datagram delivered
once and in order, keep-alives between them or not, the client's file is the
frames one after the other and its queue has been given one `PadInfo` a frame.
-/
namespace CppSnippets.Epoll.VideoRoundTrip

open CppSnippets.Lib IoBasic CycleBufferQueue QueueRefinement

variable {N : Nat}

/-! ## The ring in sequence -/

/-- The producer's `alloc` and write into a queue that it is not using yet. -/
theorem alloc_fill (hN : 2 ≤ N) {q : CycleBufferQueue N} {cap siz : Nat} {p : List Byte}
    (ha : q.ialloc = none) (hc : ∀ i, (q.bufs i).capacity = cap) (hs : siz ≤ cap)
    (hp : p.length ≤ cap) :
    ∃ i b q1, q.alloc siz = .ok q1 ∧ q1.ialloc = some i ∧ q1.ip = i ∧ q1.iusing = q.iusing ∧
      q.iusing ≠ some i ∧ q1.fill i p = .ok { q1 with bufs := Function.update q1.bufs i b } ∧
      b.data = p ∧ b.capacity = cap ∧ ∀ k, k ≠ i → q1.bufs k = q.bufs k := by
  have hslot : ∀ r : CycleBufferQueue N, r.bufs = q.bufs → ∃ q1, allocSlot r siz = .ok q1 := by
    intro r hr
    have hcap : ¬ siz > (r.bufs r.ip).capacity := by rw [hr, hc]; omega
    simp only [allocSlot, BufferRef.consume_size, bind, Except.bind, BufferRef.reserve,
      BufferRef.clear_capacity, hcap, if_false]
    exact ⟨_, rfl⟩
  have hok : ∃ q1, q.alloc siz = .ok q1 := by
    unfold CycleBufferQueue.alloc
    rw [if_neg (not_not.mpr ha)]
    by_cases hu : q.iusing = some q.ip
    · rw [if_pos hu, if_neg]
      · exact hslot _ rfl
      · exact fun h => incr_ne hN q.ip (Option.some.inj (h.symm.trans hu))
    · rw [if_neg hu]
      exact hslot _ rfl
  obtain ⟨q1, hq1⟩ := hok
  obtain ⟨_, i, hi, rfl⟩ := alloc_cases hq1
  have hfree : q.iusing ≠ some i := by rcases hi with ⟨rfl, h⟩ | ⟨rfl, _, h⟩ <;> exact h
  obtain ⟨b, hput, hbd, hbc⟩ := BufferRef.put_ok (b := (q.bufs i).clear) (p := p)
    (by simp [BufferRef.spaces, BufferRef.size, hc, hp])
  refine ⟨i, b, _, hq1, rfl, rfl, rfl, hfree, ?_, hbd, hbc.trans (hc i), ?_⟩
  · simp only [CycleBufferQueue.fill, Function.update_self, hput]
    rfl
  · exact fun k hk => Function.update_of_ne hk _ _

theorem done_alloc {q : CycleBufferQueue N} {i : Fin N} (ha : q.ialloc = some i) (hip : q.ip = i) :
    q.done i = .ok { q with ip := incr i, ialloc := none } := by
  unfold CycleBufferQueue.done
  rw [if_pos ha.symm, if_neg (by rw [hip, ha]; exact not_not.mpr rfl)]

theorem done_using {q : CycleBufferQueue N} {i : Fin N} (ha : q.ialloc = none)
    (hu : q.iusing = some i) :
    q.done i =
      .ok { q with bufs := Function.update q.bufs i (q.bufs i).clear, iusing := none } := by
  unfold CycleBufferQueue.done
  rw [if_neg (by rw [ha]; exact Option.some_ne_none i), if_pos hu.symm, BufferRef.consume_size]
  rfl

/-- The only message in the ring is the one that `wait` returns. -/
theorem wait_only {q : CycleBufferQueue N} {i : Fin N} (ha : q.ialloc = none)
    (hu : q.iusing = none) (hi : (q.bufs i).data ≠ []) (he : ∀ k, k ≠ i → (q.bufs k).data = []) :
    q.wait = .ok { q with iusing := some i } := by
  unfold CycleBufferQueue.wait
  rw [if_neg (not_not.mpr hu), findusable_order]
  have hfind : (order q.ip).find? q.usable = some i := by
    have huse : q.usable i = true :=
      usable_iff.mpr ⟨by rw [ha]; exact (Option.some_ne_none i).symm, List.isEmpty_eq_false_iff.mpr hi⟩
    have hmem : i ∈ order q.ip := by
      by_cases h : i = q.ip
      · exact h ▸ List.mem_cons_self
      · exact List.mem_cons_of_mem _ (mem_after.mpr h)
    cases hf : (order q.ip).find? q.usable with
    | none => exact absurd huse (by rw [List.find?_eq_none] at hf; exact hf i hmem)
    | some k =>
      have hk := usable_iff.mp (List.find?_some hf)
      by_cases hki : k = i
      · rw [hki]
      · exact absurd (he k hki) (List.isEmpty_eq_false_iff.mp hk.2)
  rw [hfind]

/-! ## The server -/

/-- The buffer that the server sends for a frame. -/
def packed (idx : UInt32) (x : Shot) : List Byte :=
  be32 (.ofNat x.frame.length) ++ x.frame.drop 4 ++ padInfo idx x.tv

/-- What the encoder promises of a frame, and the room for its `PadInfo`. -/
structure Encoded (x : Shot) : Prop where
  start : [0, 0, 0, 1] <+: x.frame
  room : x.frame.length + 12 ≤ bitstreamLen

@[simp] theorem padInfo_length (idx : UInt32) (tv : TimeVal) : (padInfo idx tv).length = 12 := rfl

theorem Encoded.length_ge {x : Shot} (h : Encoded x) : 4 ≤ x.frame.length := h.start.length_le

theorem packed_length (idx : UInt32) {x : Shot} (h : Encoded x) :
    (packed idx x).length = x.frame.length + 12 := by
  have := h.length_ge
  simp only [packed, List.length_append, be32_length, List.length_drop, padInfo_length]
  omega

theorem count_packed (idx : UInt32) {x : Shot} (h : Encoded x) : count (packed idx x) < 0x7fff := by
  have hl := packed_length idx h
  have hr := h.room
  simp only [count, fragSize, bitstreamLen] at *
  omega

/-- The datagrams of a buffer from fragment `i` on, with the counter of each. -/
def sendsFrom (data : List Byte) (echo : Nat → UInt16) (i : Nat) : List (UInt16 × List Byte) :=
  (List.range' i (count data - i)).map fun k => (UInt16.ofNat k, fragment data (echo k) k)

theorem sendsFrom_cons {data : List Byte} {echo : Nat → UInt16} {i : Nat} (h : i < count data) :
    sendsFrom data echo i =
      (UInt16.ofNat i, fragment data (echo i) i) :: sendsFrom data echo (i + 1) := by
  obtain ⟨k, hk⟩ : ∃ k, count data - i = k + 1 := ⟨count data - i - 1, by omega⟩
  have hk' : count data - (i + 1) = k := by omega
  rw [sendsFrom, sendsFrom, hk, hk', List.range'_succ, List.map_cons]

theorem sendsFrom_end {data : List Byte} {echo : Nat → UInt16} {i : Nat} (h : count data ≤ i) :
    sendsFrom data echo i = [] := by
  rw [sendsFrom, Nat.sub_eq_zero_of_le h]
  rfl

/-- The loop sends the fragments that are left and gives the buffer up. -/
theorem sendLoop_spec (data : List Byte) (echo : Nat → UInt16) (hc : count data < 0x7fff)
    (turns : Nat) : ∀ (i : Nat) (io : IoBasic), count data - i ≤ turns → i < count data →
      io.txbuf = some data → io.txpos = i * fragSize → io.xh0 = UInt16.ofNat i →
      io.isOpen = true →
      ∃ io', sendLoop echo turns io = .ok (io', sendsFrom data echo i) ∧
        io'.isOpen = true ∧ io'.xh0 = UInt16.ofNat (count data) := by
  induction turns with
  | zero =>
    intro i io hle hi
    omega
  | succ turns ih =>
    intro i io hle hi hb hp hx hopen
    obtain ⟨txbuf, txpos, xh0, xh1, xbuf, isOpen⟩ := io
    simp only at hb hp hx hopen
    subst hb hp hx hopen
    have hin := lt_count.mp hi
    have hnum : (UInt16.ofNat i).toNat = i := UInt16.toNat_ofNat_of_lt' (by change i < 65536; omega)
    have hlen : (chunk fragSize data i).length = min fragSize (data.length - i * fragSize) := by
      rw [chunk, List.length_take, List.length_drop]
    have hsend := l2send_fragment ⟨some data, i * fragSize, UInt16.ofNat i, echo i, xbuf, true⟩
      (4 + min fragSize (data.length - i * fragSize) : Nat) rfl rfl rfl hin
    rw [if_neg (by rw [hlen]; push_cast; omega)] at hsend
    rw [sendsFrom_cons hi]
    simp only [sendLoop, hnum, hsend, bind, Except.bind]
    by_cases hl : data.length ≤ (i + 1) * fragSize
    · rw [if_pos hl, sendsFrom_end (by rw [(count_eq hin).mpr hl])]
      refine ⟨⟨none, 0, UInt16.ofNat (i + 1), echo i, xbuf, true⟩, ?_, rfl,
        congrArg UInt16.ofNat ((count_eq hin).mpr hl)⟩
      cases turns <;> rfl
    · have hnext : i + 1 < count data := lt_count.mpr (by omega)
      obtain ⟨io', hrun, hopen', hx'⟩ := ih (i + 1)
        ⟨some data, (i + 1) * fragSize, UInt16.ofNat (i + 1), echo i, xbuf, true⟩
        (by omega) hnext rfl rfl rfl rfl
      rw [if_neg hl]
      refine ⟨io', ?_, hopen', hx'⟩
      simp only [hrun]
      rfl

/-- The server between frames. -/
structure Idle (srv : Server) : Prop where
  ialloc : srv.bufq.ialloc = none
  iusing : srv.bufq.iusing = none
  empty : ∀ i, (srv.bufq.bufs i).data = []
  capacity : ∀ i, (srv.bufq.bufs i).capacity = bitstreamLen
  isOpen : srv.io.isOpen = true

theorem idle_init (idx : UInt32) (recvCap : Nat) : Idle (.init idx recvCap) :=
  ⟨rfl, rfl, fun _ => rfl, fun _ => rfl, rfl⟩

/-- The two changes of `done` turn the frame into the packed buffer. -/
theorem attach_replace (idx : UInt32) {x : Shot} (h : Encoded x) {b : BufferRef}
    (hb : b.data = x.frame) (hc : b.capacity = bitstreamLen) :
    ∃ b' c, replaceStartbytesWithLen4 b = .ok b' ∧ attachTestInfo idx x.tv b' = .ok c ∧
      c.data = packed idx x ∧ c.capacity = bitstreamLen := by
  have hge := h.length_ge
  have hroom := h.room
  obtain ⟨t, ht⟩ := h.start
  have hone : ntohl b.data = some 1 := by
    rw [hb, ← ht]
    rfl
  have hsize : b.size = x.frame.length := by rw [BufferRef.size, hb]
  have hpoke : (b.poke (be32 (.ofNat b.size))).data =
      be32 (.ofNat x.frame.length) ++ x.frame.drop 4 := by
    change (be32 _).take b.size ++ b.data.drop 4 = _
    rw [hsize, hb, List.take_of_length_le (by rw [be32_length]; omega)]
  have hcap : (b.poke (be32 (.ofNat b.size))).capacity = bitstreamLen := hc
  obtain ⟨c, hput, hcd, hcc⟩ :=
    BufferRef.put_ok (b := b.poke (be32 (.ofNat b.size))) (p := padInfo idx x.tv) (by
      change 12 ≤ (b.poke (be32 (.ofNat b.size))).capacity -
        (b.poke (be32 (.ofNat b.size))).data.length
      rw [hcap, hpoke, List.length_append, be32_length, List.length_drop]
      omega)
  refine ⟨_, c, ?_, hput, by rw [hcd, hpoke]; rfl, hcc.trans hcap⟩
  rw [replaceStartbytesWithLen4, if_pos hone]

/-- The buffer that was sent is given back empty. -/
theorem cleared {bufs : Fin 2 → BufferRef} {i : Fin 2} (hdata : ∀ k, k ≠ i → (bufs k).data = [])
    (hcap : ∀ k, (bufs k).capacity = bitstreamLen) (k : Fin 2) :
    (Function.update bufs i (bufs i).clear k).data = [] ∧
      (Function.update bufs i (bufs i).clear k).capacity = bitstreamLen := by
  by_cases hk : k = i
  · rw [hk, Function.update_self]
    exact ⟨rfl, hcap i⟩
  · rw [Function.update_of_ne hk]
    exact ⟨hdata k hk, hcap k⟩

/-- One frame through the server. -/
theorem shoot_spec {srv : Server} {x : Shot} (hi : Idle srv) (hx : Encoded x) :
    ∃ srv', srv.shoot x = .ok (srv', sendsFrom (packed srv.idx x) x.echo 0) ∧ Idle srv' ∧
      srv'.idx = srv.idx + 1 ∧ srv'.io.xh0 = UInt16.ofNat (count (packed srv.idx x)) := by
  have hroom := hx.room
  obtain ⟨i, b, q1, halloc, hia, hip, hiu, _, hfill, hbd, hbc, hrest⟩ :=
    alloc_fill (p := x.frame) (by decide) hi.ialloc hi.capacity (Nat.le_refl bitstreamLen)
      (by omega)
  obtain ⟨bufs, ip, ialloc, iusing⟩ := q1
  simp only at hia hip hiu hrest
  subst hia hip hiu
  obtain ⟨b', c, hrep, hatt, hcd, hcc⟩ := attach_replace srv.idx hx hbd hbc
  let data := packed srv.idx x
  let q2 : CycleBufferQueue 2 := ⟨Function.update bufs ip c, incr ip, none, none⟩
  have hq2 : ∀ k, k ≠ ip → (q2.bufs k).data = [] := by
    intro k hk
    change (Function.update bufs ip c k).data = []
    rw [Function.update_of_ne hk, hrest k hk]
    exact hi.empty k
  have hq2i : (q2.bufs ip).data = data := by
    change (Function.update bufs ip c ip).data = _
    rw [Function.update_self, hcd]
  have hq2c : ∀ k, (q2.bufs k).capacity = bitstreamLen := by
    refine (Function.forall_update_iff bufs fun _ b => b.capacity = bitstreamLen).mpr
      ⟨hcc, fun k hk => ?_⟩
    rw [hrest k hk]
    exact hi.capacity k
  have hne : data ≠ [] := List.ne_nil_of_length_pos (by rw [packed_length _ hx]; omega)
  have hdone : serverDone srv.idx x.tv ⟨Function.update bufs ip b, ip, some ip, srv.bufq.iusing⟩ ip =
      .ok (srv.idx + 1, q2) := by
    unfold serverDone
    rw [if_pos rfl]
    simp only [Function.update_self, hrep, hatt, Function.update_idem, bind, Except.bind]
    rw [done_alloc (q := ⟨Function.update bufs ip c, ip, some ip, srv.bufq.iusing⟩) rfl rfl]
    simp only [pure, Except.pure, q2, hi.iusing]
  have hwait : q2.wait = .ok { q2 with iusing := some ip } :=
    wait_only rfl rfl (by rw [hq2i]; exact hne) hq2
  obtain ⟨io', hloop, hopen, hx0⟩ := sendLoop_spec data x.echo (count_packed _ hx) data.length 0
    (srv.io.prewait data) (by
      have h0 := @lt_count data data.length
      have h1 : ¬ data.length * fragSize < data.length := by
        have : 1 ≤ fragSize := by decide
        exact Nat.not_lt.mpr (Nat.le_mul_of_pos_right _ this)
      omega)
    (lt_count.mpr (by rw [Nat.zero_mul]; exact List.length_pos_iff.mpr hne)) rfl
    (Nat.zero_mul _).symm rfl hi.isOpen
  have hend := done_using (q := { q2 with iusing := some ip }) (i := ip) rfl rfl
  refine ⟨⟨⟨Function.update q2.bufs ip (q2.bufs ip).clear, incr ip, none, none⟩, srv.idx + 1, io'⟩, ?_,
    ⟨rfl, rfl, ?_, ?_, hopen⟩, rfl, hx0⟩
  · unfold Server.shoot
    simp only [halloc, bind, Except.bind, onSlot, hfill, hdone, hwait, hq2i, hloop, hend]
    rfl
  · exact fun k => (cleared hq2 hq2c k).1
  · exact fun k => (cleared hq2 hq2c k).2

/-! ## The client -/

/-- The feedback queue can take another message. -/
structure Ready (q : CycleBufferQueue 16) : Prop where
  ialloc : q.ialloc = none
  capacity : ∀ i, (q.bufs i).capacity = 16

theorem ready_init : Ready Client.init.bufq := ⟨rfl, fun _ => rfl⟩

theorem feedback_spec {c : Client} {p : List Byte} (h : Ready c.bufq) (hp : p.length ≤ 16) :
    ∃ q, c.feedback p = .ok ⟨q, c.queued ++ [p], c.file⟩ ∧ Ready q := by
  obtain ⟨i, b, q1, halloc, hia, hip, hiu, _, hfill, hbd, hbc, hrest⟩ :=
    alloc_fill (p := p) (by decide) h.ialloc h.capacity hp hp
  obtain ⟨bufs, ip, ialloc, iusing⟩ := q1
  simp only at hia hip hiu hrest
  subst hia hip hiu
  have hdone := done_alloc (q := ⟨Function.update bufs ip b, ip, some ip, c.bufq.iusing⟩) rfl rfl
  refine ⟨⟨Function.update bufs ip b, incr ip, none, c.bufq.iusing⟩, ?_, rfl, fun k => ?_⟩
  · unfold Client.feedback
    simp only [halloc, bind, Except.bind, onSlot, hfill, hdone, Option.map_some,
      Function.update_self, hbd]
    rfl
  · change (Function.update bufs ip b k).capacity = 16
    by_cases hk : k = ip
    · rw [hk, Function.update_self, hbc]
    · rw [Function.update_of_ne hk, hrest k hk]
      exact h.capacity k

/-- The first word of a packed buffer is the length of the frame, without the flag. -/
theorem word_packed (idx : UInt32) {x : Shot} (hx : Encoded x) :
    ∃ uh, ntohl (packed idx x) = some uh ∧ (uh &&& 0x00ffffff).toNat = x.frame.length ∧
      uh &&& 0x80000000 = 0 := by
  have hbound : x.frame.length + 12 ≤ 3110400 := hx.room
  have hlen : (UInt32.ofNat x.frame.length).toNat = x.frame.length :=
    UInt32.toNat_ofNat_of_lt' (by change _ < 4294967296; omega)
  refine ⟨.ofNat x.frame.length, congrArg some (ofBe32_be32 _), ?_, ?_⟩
  · rw [low24, hlen, Nat.mod_eq_of_lt (by omega)]
  · rw [flag32, hlen]
    omega

theorem ntohl_padInfo (idx : UInt32) (tv : TimeVal) :
    ntohl (padInfo idx tv) = some (0x80000000 ||| 12) := congrArg some (ofBe32_be32 _)

/-- The first call of `unpack` on a packed buffer writes the frame. -/
theorem unpack_frame {c : Client} {x : Shot} {idx : UInt32} {rb : BufferRef} (hx : Encoded x)
    (hrb : rb.data = packed idx x) :
    ∃ rb', c.unpack rb = .ok ({ c with file := c.file ++ x.frame }, rb', x.frame.length) ∧
      rb'.data.drop x.frame.length = padInfo idx x.tv ∧ rb'.size = rb.size ∧
      rb'.capacity = rb.capacity := by
  have hge := hx.length_ge
  have hsz : rb.size = x.frame.length + 12 := by rw [BufferRef.size, hrb, packed_length _ hx]
  obtain ⟨uh, hword, hlow, hflag⟩ := word_packed idx hx
  obtain ⟨t, ht⟩ := hx.start
  have hpoke : (rb.poke (be32 1)).data = x.frame ++ padInfo idx x.tv := by
    change (be32 1).take rb.size ++ rb.data.drop 4 = _
    rw [List.take_of_length_le (by rw [be32_length]; omega), hrb, packed, ← ht]
    rfl
  refine ⟨rb.poke (be32 1), ?_, ?_, ?_, rfl⟩
  · unfold Client.unpack
    rw [if_neg (by omega), hrb, hword]
    simp only [hlow]
    rw [if_neg (by omega), if_neg (not_not.mpr hflag), hpoke, List.take_left]
  · rw [hpoke, List.drop_left]
  · rw [BufferRef.size, hpoke, List.length_append, padInfo_length, hsz]

/-- The second call queues the `PadInfo`. -/
theorem unpack_pad {c : Client} {idx : UInt32} {tv : TimeVal} {rb : BufferRef}
    (hc : Ready c.bufq) (hrb : rb.data = padInfo idx tv) :
    ∃ q, c.unpack rb = .ok (⟨q, c.queued ++ [padInfo idx tv], c.file⟩, rb, 12) ∧ Ready q := by
  obtain ⟨q, hfeed, hq⟩ := feedback_spec (p := padInfo idx tv) hc (by rw [padInfo_length]; decide)
  refine ⟨q, ?_, hq⟩
  have hsz : rb.size = 12 := by rw [BufferRef.size, hrb, padInfo_length]
  have hword : ntohl rb.data = some (0x80000000 ||| 12) := by rw [hrb, ntohl_padInfo]
  have hlow : ((0x80000000 ||| 12 : UInt32) &&& 0x00ffffff).toNat = 12 := by decide
  have hflag : (0x80000000 ||| 12 : UInt32) &&& 0x80000000 ≠ 0 := by decide
  unfold Client.unpack
  rw [if_neg (by omega), hword]
  simp only [hlow]
  rw [if_neg (by omega), if_pos hflag, List.take_of_length_le (Nat.le_of_eq hsz), hrb, hfeed]
  rfl

/-- `process_recvd` on a packed buffer takes all of it. -/
theorem process_packed {c : Client} {x : Shot} {idx : UInt32} {rb : BufferRef} (hx : Encoded x)
    (hc : Ready c.bufq) (hrb : rb.data = packed idx x) :
    ∃ q rb', processRecvd Client.sink c rb =
        .ok (⟨q, c.queued ++ [padInfo idx x.tv], c.file ++ x.frame⟩, rb') ∧
      rb'.data = [] ∧ rb'.capacity = rb.capacity ∧ Ready q := by
  have hge := hx.length_ge
  have hsz : rb.size = x.frame.length + 12 := by rw [BufferRef.size, hrb, packed_length _ hx]
  obtain ⟨rb1, hun1, hd1, hs1, hc1⟩ := unpack_frame (c := c) hx hrb
  obtain ⟨rb2, hcon2, hd2, hc2⟩ := BufferRef.consume_ok (b := rb1) x.frame.length (by omega)
  obtain ⟨q, hun2, hq⟩ := unpack_pad (c := { c with file := c.file ++ x.frame }) hc (hd2.trans hd1)
  have hs2 : rb2.size = 12 := by rw [BufferRef.size, hd2, hd1, padInfo_length]
  obtain ⟨rb3, hcon3, hd3, hc3⟩ := BufferRef.consume_ok (b := rb2) 12 (by omega)
  have hend : rb3.data = [] := by rw [hd3, hd2, hd1]; rfl
  refine ⟨q, rb3, ?_, hend, hc3.trans (hc2.trans hc1), hq⟩
  have hne : rb.data ≠ [] := List.ne_nil_of_length_pos (by simp only [BufferRef.size] at hsz; omega)
  have hne2 : rb2.data ≠ [] := List.ne_nil_of_length_pos (by simp only [BufferRef.size] at hs2; omega)
  rw [processRecvd_step Client.sink hne hun1 (by omega) hcon2,
    processRecvd_step Client.sink hne2 hun2 (by decide) hcon3]
  exact processRecvd_stop Client.sink (.inl ⟨hend, rfl, rfl⟩)

/-! ## Arrivals -/

/-- The receiver has `bytes` of a buffer and expects fragment `i` of it. -/
structure Waiting (io : IoBasic) (bytes : List Byte) (i : Nat) : Prop where
  expected : io.xh1 = UInt16.ofNat i
  data : io.xbuf.data = bytes
  capacity : io.xbuf.capacity = bitstreamLen

theorem step_fragment {c : Client} {io : IoBasic} {x : Shot} {idx : UInt32} {i : Nat}
    (hx : Encoded x) (hc : Ready c.bufq) (hi : i < count (packed idx x))
    (hw : Waiting io ((packed idx x).take (i * fragSize)) i) :
    ∃ c' io', c.step io (.datagram (fragment (packed idx x) (x.echo i) i)) = .ok (c', io') ∧
      Ready c'.bufq ∧
      (i + 1 < count (packed idx x) → c'.file = c.file ∧ c'.queued = c.queued ∧
        Waiting io' ((packed idx x).take ((i + 1) * fragSize)) (i + 1)) ∧
      (i + 1 = count (packed idx x) → c'.file = c.file ++ x.frame ∧
        c'.queued = c.queued ++ [padInfo idx x.tv] ∧ Waiting io' [] 0) := by
  have hin := lt_count.mp hi
  have hcount := count_packed idx hx
  have hfit : (chunk fragSize (packed idx x) i).length ≤ io.xbuf.spaces := by
    have hroom := hx.room
    have hl := packed_length idx hx
    rw [BufferRef.spaces, BufferRef.size, hw.data, hw.capacity, chunk, List.length_take,
      List.length_take, List.length_drop]
    omega
  have hdata : (fill io.xbuf (chunk fragSize (packed idx x) i)).data =
      (packed idx x).take ((i + 1) * fragSize) := by
    rw [fill_data hfit, hw.data, Nat.succ_mul, List.take_add]
    rfl
  by_cases hl : (packed idx x).length ≤ (i + 1) * fragSize
  · rw [List.take_of_length_le hl] at hdata
    obtain ⟨q, rb, hproc, hrb, hcap, hq⟩ := process_packed hx hc hdata
    have hrecv := recv_whole (processRecvd Client.sink) io (packed idx x) (x.echo i) (by omega)
      hw.expected.symm hl hproc
    refine ⟨⟨q, c.queued ++ [padInfo idx x.tv], c.file ++ x.frame⟩,
      { io with xh1 := 0, xbuf := rb }, ?_, hq, fun h => ?_,
      fun _ => ⟨rfl, rfl, rfl, hrb, hcap.trans hw.capacity⟩⟩
    · simp only [Client.step, hrecv]
      rfl
    · exact absurd ((count_eq hin).mpr hl) (by omega)
  · have hrecv := recv_part (processRecvd Client.sink) c io (packed idx x) (x.echo i)
      (by omega) hw.expected.symm (by omega)
    refine ⟨c, { io with
      xh1 := io.xh1 + 1
      xbuf := fill io.xbuf (chunk fragSize (packed idx x) i) }, ?_, hc,
      fun _ => ⟨rfl, rfl, ?_, hdata, hw.capacity⟩, fun h => ?_⟩
    · simp only [Client.step, hrecv]
      rfl
    · rw [UInt16.ofNat_add, ← hw.expected]
      rfl
    · exact absurd ((count_eq hin).mp h) hl

/-- An arrival that carries no fragment. -/
def Arrival.silent : Arrival → Prop
  | .datagram d => d = [0xff, 0xff, 0xff, 0xff]
  | .takeFeedback | .feedbackSent => True

theorem step_silent {c : Client} {a : Arrival} (io : IoBasic) (hc : Ready c.bufq)
    (ha : Arrival.silent a) :
    ∃ c', c.step io a = .ok (c', io) ∧ c'.file = c.file ∧ c'.queued = c.queued ∧
      Ready c'.bufq := by
  cases a with
  | datagram d =>
    obtain rfl := ha
    refine ⟨c, ?_, rfl, rfl, hc⟩
    simp only [Client.step, recv_keepAlive]
    rfl
  | takeFeedback =>
    by_cases hu : c.bufq.iusing = none
    · refine ⟨{ c with bufq := { c.bufq with
        iusing := c.bufq.findusable 16 c.bufq.ip (decr c.bufq.ip) } }, ?_, rfl, rfl,
        hc.ialloc, hc.capacity⟩
      simp only [Client.step, CycleBufferQueue.wait, hu, if_true]
      rfl
    · refine ⟨c, ?_, rfl, rfl, hc⟩
      simp only [Client.step, hu, if_false]
  | feedbackSent =>
    cases hu : c.bufq.iusing with
    | none =>
      refine ⟨c, ?_, rfl, rfl, hc⟩
      simp only [Client.step, hu]
    | some u =>
      refine ⟨{ c with bufq := ⟨Function.update c.bufq.bufs u (c.bufq.bufs u).clear, c.bufq.ip,
        c.bufq.ialloc, none⟩ }, ?_, rfl, rfl, hc.ialloc, fun k => ?_⟩
      · simp only [Client.step, hu, done_using hc.ialloc hu]
        rfl
      · change (Function.update c.bufq.bufs u (c.bufq.bufs u).clear k).capacity = 16
        by_cases hk : k = u
        · rw [hk, Function.update_self]
          exact hc.capacity u
        · rw [Function.update_of_ne hk]
          exact hc.capacity k

theorem fragmentsOf_cons (a : Arrival) (as : List Arrival) :
    (Arrival.silent a ∧ fragmentsOf (a :: as) = fragmentsOf as) ∨
      ∃ d, a = .datagram d ∧ fragmentsOf (a :: as) = d :: fragmentsOf as := by
  cases a with
  | datagram d =>
    by_cases hd : d = [0xff, 0xff, 0xff, 0xff]
    · exact .inl ⟨hd, by simp [fragmentsOf, hd]⟩
    · exact .inr ⟨d, rfl, by simp [fragmentsOf, hd]⟩
  | takeFeedback => exact .inl ⟨trivial, rfl⟩
  | feedbackSent => exact .inl ⟨trivial, rfl⟩

/-- All datagrams of the frames, in order. -/
def sendsOf : UInt32 → List Shot → List (UInt16 × List Byte)
  | _, [] => []
  | idx, x :: xs => sendsFrom (packed idx x) x.echo 0 ++ sendsOf (idx + 1) xs

/-- The `PadInfo` of each frame. -/
def pads : UInt32 → List Shot → List (List Byte)
  | _, [] => []
  | idx, x :: xs => padInfo idx x.tv :: pads (idx + 1) xs

theorem receive_silent (as : List Arrival) : ∀ (c : Client) (io : IoBasic), Ready c.bufq →
    fragmentsOf as = [] → ∃ c' io', c.receive io as = .ok (c', io') ∧ c'.file = c.file ∧
      c'.queued = c.queued := by
  induction as with
  | nil => exact fun c io _ _ => ⟨c, io, rfl, rfl, rfl⟩
  | cons a as ih =>
    intro c io hc hf
    obtain ⟨ha, he⟩ | ⟨d, _, he⟩ := fragmentsOf_cons a as
    · obtain ⟨c1, hstep, hfile, hqueued, hr⟩ := step_silent io hc ha
      obtain ⟨c2, io2, hrun, hfile2, hqueued2⟩ := ih c1 io hr (he.symm.trans hf)
      refine ⟨c2, io2, ?_, hfile2.trans hfile, hqueued2.trans hqueued⟩
      simp only [Client.receive, hstep]
      exact hrun
    · rw [he] at hf
      cases hf

/-- From fragment `i` of a frame on, the rest of the frames arrives. -/
theorem receive_spec (as : List Arrival) : ∀ (c : Client) (io : IoBasic) (idx : UInt32) (x : Shot)
    (xs : List Shot) (i : Nat), Ready c.bufq → Encoded x → (∀ y ∈ xs, Encoded y) →
    i < count (packed idx x) → Waiting io ((packed idx x).take (i * fragSize)) i →
    fragmentsOf as =
      (sendsFrom (packed idx x) x.echo i ++ sendsOf (idx + 1) xs).map Prod.snd →
    ∃ c' io', c.receive io as = .ok (c', io') ∧
      c'.file = c.file ++ ((x :: xs).map Shot.frame).flatten ∧
      c'.queued = c.queued ++ pads idx (x :: xs) := by
  induction as with
  | nil =>
    intro c io idx x xs i _ _ _ hi _ hf
    rw [sendsFrom_cons hi] at hf
    cases hf
  | cons a as ih =>
    intro c io idx x xs i hc hx hxs hi hw hf
    obtain ⟨ha, he⟩ | ⟨d, rfl, he⟩ := fragmentsOf_cons a as
    · obtain ⟨c1, hstep, hfile, hqueued, hr⟩ := step_silent io hc ha
      obtain ⟨c2, io2, hrun, hfile2, hqueued2⟩ :=
        ih c1 io idx x xs i hr hx hxs hi hw (he.symm.trans hf)
      refine ⟨c2, io2, ?_, hfile2.trans (by rw [hfile]), hqueued2.trans (by rw [hqueued])⟩
      simp only [Client.receive, hstep]
      exact hrun
    · rw [he, sendsFrom_cons hi, List.cons_append, List.map_cons] at hf
      obtain ⟨hd, hrest⟩ := List.cons.inj hf
      obtain rfl : d = fragment (packed idx x) (x.echo i) i := hd
      obtain ⟨c1, io1, hstep, hr, hmore, hlast⟩ := step_fragment hx hc hi hw
      have hrecv : ∀ {r}, c1.receive io1 as = r →
          c.receive io (.datagram (fragment (packed idx x) (x.echo i) i) :: as) = r := by
        intro r h
        simp only [Client.receive, hstep]
        exact h
      by_cases hl : i + 1 = count (packed idx x)
      · obtain ⟨hfile, hqueued, hw1⟩ := hlast hl
        rw [sendsFrom_end (by omega), List.nil_append] at hrest
        cases xs with
        | nil =>
          obtain ⟨c2, io2, hrun, hfile2, hqueued2⟩ := receive_silent as c1 io1 hr hrest
          exact ⟨c2, io2, hrecv hrun, by simp [hfile2, hfile], by simp [hqueued2, hqueued, pads]⟩
        | cons y ys =>
          have hy := hxs y List.mem_cons_self
          have hpos : 0 < count (packed (idx + 1) y) :=
            lt_count.mpr (by rw [packed_length _ hy]; omega)
          obtain ⟨c2, io2, hrun, hfile2, hqueued2⟩ := ih c1 io1 (idx + 1) y ys 0 hr hy
            (fun z hz => hxs z (List.mem_cons_of_mem _ hz)) hpos
            (by rw [Nat.zero_mul, List.take_zero]; exact hw1) hrest
          exact ⟨c2, io2, hrecv hrun, by simp [hfile2, hfile], by simp [hqueued2, hqueued, pads]⟩
      · obtain ⟨hfile, hqueued, hw1⟩ := hmore (by omega)
        obtain ⟨c2, io2, hrun, hfile2, hqueued2⟩ :=
          ih c1 io1 idx x xs (i + 1) hr hx hxs (by omega) hw1 hrest
        exact ⟨c2, io2, hrecv hrun, hfile2.trans (by rw [hfile]), hqueued2.trans (by rw [hqueued])⟩

theorem serve_spec (xs : List Shot) : ∀ srv : Server, Idle srv → (∀ x ∈ xs, Encoded x) →
    ∃ srv', srv.serve xs = .ok (srv', sendsOf srv.idx xs) := by
  induction xs with
  | nil => exact fun srv _ _ => ⟨srv, rfl⟩
  | cons x xs ih =>
    intro srv hi hxs
    obtain ⟨srv1, hshoot, hi1, hidx, _⟩ := shoot_spec hi (hxs x List.mem_cons_self)
    obtain ⟨srv2, hserve⟩ := ih srv1 hi1 fun y hy => hxs y (List.mem_cons_of_mem _ hy)
    refine ⟨srv2, ?_⟩
    simp only [Server.serve, hshoot, bind, Except.bind, hserve, hidx]
    rfl

/-- No datagram leaves under a counter near the flag bit. -/
theorem sendsOf_counter (xs : List Shot) : ∀ idx : UInt32, (∀ x ∈ xs, Encoded x) →
    ∀ s ∈ sendsOf idx xs, s.1.toNat + 1 < 0x8000 := by
  induction xs with
  | nil => exact fun _ _ s hs => by cases hs
  | cons x xs ih =>
    intro idx hxs s hs
    rcases List.mem_append.mp hs with hs | hs
    · obtain ⟨i, hi, rfl⟩ := List.mem_map.mp hs
      have hlt := (List.mem_range'_1.mp hi).2
      have hc := count_packed idx (hxs x List.mem_cons_self)
      have hn : (UInt16.ofNat i).toNat = i :=
        UInt16.toNat_ofNat_of_lt' (by change i < 65536; omega)
      simp only [hn]
      omega
    · exact ih (idx + 1) (fun y hy => hxs y (List.mem_cons_of_mem _ hy)) s hs

/-- The receiving endpoint of the client at the start. -/
def clientIo : IoBasic := ⟨none, 0, 0, 0, .mk0 bitstreamLen, true⟩

/-- Frames that start with a start code and leave room for their `PadInfo` come
out of the client as they went into the server, with one `PadInfo` each. -/
theorem lossless (idx : UInt32) (recvCap : Nat) (xs : List Shot) (hxs : ∀ x ∈ xs, Encoded x) :
    ∃ srv sends, (Server.init idx recvCap).serve xs = .ok (srv, sends) ∧
      (∀ s ∈ sends, s.1.toNat + 1 < 0x8000) ∧
      ∀ as, fragmentsOf as = sends.map Prod.snd →
        ∃ c io, Client.init.receive clientIo as = .ok (c, io) ∧
          c.file = (xs.map Shot.frame).flatten ∧ c.queued = pads idx xs := by
  obtain ⟨srv, hserve⟩ := serve_spec xs (.init idx recvCap) (idle_init idx recvCap) hxs
  refine ⟨srv, _, hserve, sendsOf_counter xs idx hxs, fun as has => ?_⟩
  cases xs with
  | nil => exact receive_silent as Client.init clientIo ready_init has
  | cons x xs =>
    have hx := hxs x List.mem_cons_self
    have hpos : 0 < count (packed idx x) := lt_count.mpr (by rw [packed_length _ hx]; omega)
    obtain ⟨c, io, hrun, hfile, hqueued⟩ := receive_spec as Client.init clientIo idx x xs 0
      ready_init hx (fun y hy => hxs y (List.mem_cons_of_mem _ hy)) hpos
      ⟨rfl, by rw [Nat.zero_mul]; rfl, rfl⟩ has
    exact ⟨c, io, hrun, hfile, hqueued⟩

/-- A frame of five bytes, its one datagram between two keep-alives. -/
theorem lossless_five : ∃ srv sends c io,
    (Server.init 7 16).serve [⟨[0, 0, 0, 1, 0x67], ⟨3, 4000⟩, fun _ => 0⟩] = .ok (srv, sends) ∧
    Client.init.receive clientIo ([.datagram [0xff, 0xff, 0xff, 0xff], .takeFeedback] ++
      sends.map (fun s => .datagram s.2) ++ [.datagram [0xff, 0xff, 0xff, 0xff]]) = .ok (c, io) ∧
    c.file = [0, 0, 0, 1, 0x67] ∧
    c.queued = [[0x80, 0, 0, 12, 7, 0, 0, 0, 3, 0, 4, 0]] := by
  let x : Shot := ⟨[0, 0, 0, 1, 0x67], ⟨3, 4000⟩, fun _ => 0⟩
  have hx : Encoded x := ⟨⟨[0x67], rfl⟩, by decide⟩
  obtain ⟨srv, sends, hserve, _, hrecv⟩ := lossless 7 16 [x] (by simpa using hx)
  obtain ⟨srv', hserve'⟩ := serve_spec [x] (.init 7 16) (idle_init 7 16) (by simpa using hx)
  have hsends : sends = sendsOf 7 [x] :=
    congrArg Prod.snd (Except.ok.inj (hserve.symm.trans hserve'))
  obtain ⟨c, io, hrun, hfile, hqueued⟩ := hrecv ([.datagram [0xff, 0xff, 0xff, 0xff],
    .takeFeedback] ++ sends.map (fun s => .datagram s.2) ++ [.datagram [0xff, 0xff, 0xff, 0xff]])
    (by rw [hsends]; decide)
  exact ⟨srv, sends, c, io, hserve, hrun, hfile, hqueued.trans (by decide)⟩

end CppSnippets.Epoll.VideoRoundTrip
