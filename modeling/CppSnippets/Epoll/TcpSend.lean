import CppSnippets.Epoll.QueueSafety
import CppSnippets.Epoll.TcpIo

/-!
# Sending over TCP is exact

What a connection has seen is a list of whole buffers and part of one more, in
the order the queue returned them. The buffer in use is the one being sent, and
the producer leaves it alone, so the offset into it says which bytes are left.
-/
namespace CppSnippets.Epoll.TcpSend

open CppSnippets.Lib QueueSafety TcpIo
open QueueRefinement hiding Event Step

variable {N : Nat} {s t : TcpIo N}

/-! ## The queue under the sending side -/

theorem producer_iusing {q q' : CycleBufferQueue N} {op : Op} (hp : op.byProducer = true)
    (hx : exec q op = .ok q') : q'.iusing = q.iusing := by
  cases op with
  | alloc siz =>
    obtain ⟨_, _, _, rfl⟩ := alloc_cases hx
    rfl
  | fill p =>
    obtain ⟨_, _, _, _, rfl⟩ := fill_cases hx
    rfl
  | doneAlloc =>
    obtain ⟨_, rfl⟩ := doneAlloc_cases hx
    rfl
  | failAlloc =>
    obtain ⟨_, rfl⟩ := failAlloc_cases hx
    rfl
  | wait => cases hp
  | doneUsing => cases hp
  | failUsing => cases hp

/-- The queue after the producer: well shaped, the buffer in use as it was. -/
structure Undisturbed (q q' : CycleBufferQueue N) : Prop where
  shape : Shape q'
  iusing : q'.iusing = q.iusing
  buf : ∀ u, q.iusing = some u → q'.bufs u = q.bufs u

theorem undisturbed_exec {q q' : CycleBufferQueue N} (h : Shape q) (op : ProducerOp)
    (hx : exec q op.val = .ok q') : Undisturbed q q' :=
  ⟨shape_step h hx, producer_iusing op.property hx,
    fun _ hu => (producer_frame h op.property hu hx).1⟩

theorem undisturbed_produce {ops : List ProducerOp} {q q' : CycleBufferQueue N} (h : Shape q)
    (hx : produce q ops = .ok q') : Undisturbed q q' := by
  induction ops generalizing q with
  | nil =>
    cases hx
    exact ⟨h, rfl, fun _ _ => rfl⟩
  | cons op ops ih =>
    unfold produce at hx
    cases he : exec q op.val with
    | error e => rw [he] at hx; cases hx
    | ok q1 =>
      rw [he] at hx
      have h1 := undisturbed_exec h op he
      have h2 := ih h1.shape hx
      refine ⟨h2.shape, h2.iusing.trans h1.iusing, fun u hu => ?_⟩
      rw [h2.buf u (h1.iusing.trans hu), h1.buf u hu]

/-- The slot in use is the current buffer, and there is one if and only if `tx_p_` is set. -/
structure Holds (q : CycleBufferQueue N) (tx : Option (Fin N × Nat)) : Prop where
  shape : Shape q
  iusing : q.iusing = tx.map Prod.fst

theorem Holds.of_undisturbed {q q' : CycleBufferQueue N} {tx : Option (Fin N × Nat)}
    (h : Holds q tx) (hq : Undisturbed q q') : Holds q' tx :=
  ⟨hq.shape, hq.iusing.trans h.iusing⟩

theorem Holds.nonempty {q : CycleBufferQueue N} {i : Fin N} {p : Nat} (h : Holds q (some (i, p))) :
    0 < (q.bufs i).data.length := by
  have hfull := h.shape.usingFull i h.iusing
  rw [List.length_pos_iff]
  intro he
  rw [BufferRef.isEmpty, he] at hfull
  cases hfull

/-- The spec of `done`: the buffer given back is the one that was taken. -/
theorem done_spec {i : Fin N} {p : Nat} {meanwhile : List ProducerOp}
    (h : Holds s.q (some (i, p))) (hs : s.done i meanwhile = .ok t) :
    ∃ q, Holds q none ∧ t = { s with
      q := q
      tx := none
      conn := { s.conn with done := s.conn.done ++ [(s.q.bufs i).data] } } := by
  unfold TcpIo.done at hs
  cases hp : produce s.q meanwhile with
  | error e => rw [hp] at hs; cases hs
  | ok q =>
    have hq := undisturbed_produce h.shape hp
    rw [hp] at hs
    cases hd : q.done i with
    | error e => simp [hd, inner, Except.mapError, bind, Except.bind] at hs
    | ok q' =>
      simp only [inner_ok, hd, bind, Except.bind, pure, Except.pure, hq.buf i h.iusing] at hs
      cases hs
      have hu : q.iusing = some i := hq.iusing.trans h.iusing
      have hx : exec q .doneUsing = .ok q' := by rw [exec, hu]; exact hd
      obtain ⟨_, _, rfl⟩ := doneUsing_cases hq.shape.apart hx
      exact ⟨_, ⟨shape_step hq.shape hx, rfl⟩, rfl⟩

theorem done_ok {i : Fin N} {p : Nat} {meanwhile : List ProducerOp} {q : CycleBufferQueue N}
    (h : Holds s.q (some (i, p))) (hp : produce s.q meanwhile = .ok q) :
    ∃ t, s.done i meanwhile = .ok t ∧ t.tx = none := by
  have hq := undisturbed_produce h.shape hp
  have hu : q.iusing = some i := hq.iusing.trans h.iusing
  have hd : ∃ q', q.done i = .ok q' := by
    unfold CycleBufferQueue.done
    rw [if_neg (not_ialloc hu hq.shape.apart), if_pos hu.symm, BufferRef.consume_size]
    exact ⟨_, rfl⟩
  obtain ⟨q', hd⟩ := hd
  unfold TcpIo.done
  rw [hp, inner_ok]
  simp only [hd, inner_ok, bind, Except.bind]
  exact ⟨_, rfl, rfl⟩

/-! ## What a connection has seen -/

/-- Of the buffers taken, `full` are on the wire in full, and the first `k` bytes
of one more if `rest` is that buffer and `k`. -/
structure Carried (c : Connection) (full : List (List Byte)) (rest : Option (List Byte × Nat)) :
    Prop where
  taken : c.taken = full ++ (rest.map Prod.fst).toList
  wire : c.wire = full.flatten ++ (rest.map fun r => r.1.take r.2).getD []
  short : ∀ r ∈ rest, r.2 < r.1.length

/-- The wire carries the buffers taken, in order; those sent in full are done once
each, and on a connection that is over the last one is done as well. -/
def Exact (c : Connection) (isOpen : Bool) : Prop :=
  ∃ full rest, Carried c full rest ∧ c.done = if isOpen then full else c.taken

theorem Carried.start {c : Connection} {full : List (List Byte)} {data : List Byte}
    (h : Carried c full none) (hd : 0 < data.length) :
    Carried { c with taken := c.taken ++ [data] } full (some (data, 0)) := by
  refine ⟨?_, h.wire, fun r hr => ?_⟩
  · change c.taken ++ [data] = _
    rw [h.taken, List.append_assoc]
    rfl
  · obtain rfl := Option.mem_some.mp hr
    exact hd

/-- The next `n` bytes of the buffer follow the first `p`. -/
theorem Carried.more {c : Connection} {full : List (List Byte)} {data : List Byte} {p n : Nat}
    (h : Carried c full (some (data, p))) (hn : p + n < data.length) :
    Carried { c with wire := c.wire ++ (data.drop p).take n } full (some (data, p + n)) := by
  refine ⟨h.taken, ?_, fun r hr => ?_⟩
  · change c.wire ++ _ = _
    rw [h.wire, List.append_assoc]
    simp only [Option.map_some, Option.getD_some, List.take_add]
  · obtain rfl := Option.mem_some.mp hr
    exact hn

theorem Carried.finish {c : Connection} {full : List (List Byte)} {data : List Byte} {p : Nat}
    (h : Carried c full (some (data, p))) :
    Carried { c with wire := c.wire ++ data.drop p } (full ++ [data]) none := by
  refine ⟨?_, ?_, fun r hr => nomatch hr⟩
  · exact h.taken.trans (List.append_nil _).symm
  · change c.wire ++ _ = _
    rw [h.wire]
    simp

/-- The current buffer, and how much of it is sent. -/
def current (s : TcpIo N) : Option (List Byte × Nat) :=
  s.tx.map fun x => ((s.q.bufs x.1).data, x.2)

structure Inv (s : TcpIo N) : Prop where
  holds : Holds s.q s.tx
  opened : s.sk.isOpen = true → Carried s.conn s.conn.done (current s)
  closed : s.sk.isOpen = false → s.tx = none ∧ Exact s.conn false
  past : ∀ c ∈ s.past, Exact c false

/-- A buffer is being sent on an open connection only. -/
theorem Inv.sending {i : Fin N} {p : Nat} (h : Inv s) (htx : s.tx = some (i, p)) :
    s.sk.isOpen = true ∧ Carried s.conn s.conn.done (some ((s.q.bufs i).data, p)) := by
  cases ho : s.sk.isOpen with
  | true => exact ⟨rfl, by simpa [current, htx] using h.opened ho⟩
  | false =>
    rw [(h.closed ho).1] at htx
    cases htx

theorem Inv.exact (h : Inv s) : Exact s.conn s.sk.isOpen := by
  cases ho : s.sk.isOpen with
  | true => exact ⟨_, _, h.opened ho, rfl⟩
  | false => exact (h.closed ho).2

/-- With no current buffer, everything taken is done. -/
theorem Carried.exact {c : Connection} (h : Carried c c.done none) (isOpen : Bool) :
    Exact c isOpen := by
  refine ⟨c.done, none, h, ?_⟩
  cases isOpen with
  | true => rfl
  | false => exact (h.taken.trans (List.append_nil _)).symm

theorem inv_init (h : 0 < N) (capacity : Fin N → Nat) (client : Bool) :
    Inv (TcpIo.init h capacity client) := by
  have hnew : Carried Connection.new [] none := ⟨rfl, rfl, fun r hr => nomatch hr⟩
  exact ⟨⟨shape_init h capacity, rfl⟩, fun _ => hnew, fun _ => ⟨rfl, hnew.exact false⟩,
    fun c hc => nomatch hc⟩

theorem inv_undisturbed {q : CycleBufferQueue N} (h : Inv s) (hq : Undisturbed s.q q) :
    Inv { s with q := q } := by
  have hcur : current { s with q := q } = current s := by
    cases htx : s.tx with
    | none => simp [current, htx]
    | some x =>
      have hu : s.q.iusing = some x.1 := by rw [h.holds.iusing, htx]; rfl
      simp [current, htx, hq.buf x.1 hu]
  exact ⟨h.holds.of_undisturbed hq, fun ho => hcur ▸ h.opened ho, h.closed, h.past⟩

theorem inv_flags (h : Inv s) (epollin epollout : Bool) :
    Inv { s with sk := ⟨s.sk.isOpen, epollin, epollout⟩ } :=
  ⟨h.holds, h.opened, h.closed, h.past⟩

/-- An error ends the connection and gives the buffer back, however much of it was sent. -/
theorem inv_error {meanwhile : List ProducerOp} (h : Inv s) (hs : s.error meanwhile = .ok t) :
    Inv t := by
  obtain ⟨q, ⟨isOpen, epollin, epollout⟩, tx, conn, past⟩ := s
  unfold TcpIo.error at hs
  cases isOpen with
  | false =>
    obtain rfl : tx = none := (h.closed rfl).1
    cases hs
    exact h
  | true =>
    have hopen := h.opened rfl
    cases tx with
    | none =>
      cases hs
      exact ⟨h.holds, fun hc => (by cases hc), fun _ => ⟨rfl, hopen.exact false⟩, h.past⟩
    | some x =>
      obtain ⟨q', hq, rfl⟩ := done_spec (s := ⟨q, ⟨false, false, false⟩, some x, conn, past⟩)
        h.holds hs
      have hlast : Carried conn conn.done (some ((q.bufs x.1).data, x.2)) := hopen
      refine ⟨hq, fun hc => (by cases hc), fun _ => ⟨rfl, conn.done,
        some ((q.bufs x.1).data, x.2), ?_, ?_⟩, h.past⟩
      · exact ⟨hlast.taken, hlast.wire, hlast.short⟩
      · exact hlast.taken.symm

/-! ## One send -/

/-- What one turn of the loop did: the connection is over, nothing was taken, a part
of what is left of the buffer was, or all of it. -/
theorem l1send_cases {a : Reply} {as : List Reply} {i : Fin N} {p : Nat} (htx : s.tx = some (i, p))
    (hp : p < (s.q.bufs i).size) (hout : s.sk.epollout = true)
    (hs : s.l1send (a :: as) = .ok t) :
    (a.ret = .error ∧ { s with sk := { s.sk with epollout := false } }.error a.meanwhile = .ok t) ∨
    (t = { s with sk := { s.sk with epollout := false } }) ∨
    (∃ n, 0 < n ∧ n < (s.q.bufs i).size - p ∧
      l1send { s with
        sk := { s.sk with epollout := false }
        tx := some (i, p + n)
        conn := { s.conn with wire := s.conn.wire ++ ((s.q.bufs i).data.drop p).take n } }
        as = .ok t) ∨
    (∃ u, TcpIo.done { s with
        conn := { s.conn with wire := s.conn.wire ++ (s.q.bufs i).data.drop p } }
        i a.meanwhile = .ok u ∧ u.l1send as = .ok t) := by
  obtain ⟨q, ⟨isOpen, epollin, epollout⟩, tx, conn, past⟩ := s
  simp only at htx hp hout
  subst htx hout
  rw [l1send] at hs
  have hlen : 0 < (q.bufs i).size - p := by omega
  simp only [if_true] at hs
  cases hret : a.ret with
  | error =>
    simp only [hret, TcpSocket.sendRet] at hs
    exact .inl ⟨rfl, hs⟩
  | again =>
    simp only [hret, TcpSocket.sendRet, List.take_zero, List.append_nil, Bool.false_eq_true,
      if_true, if_false, Nat.not_lt_zero, gt_iff_lt] at hs
    exact .inr (.inl (Except.ok.inj hs).symm)
  | count n =>
    simp only [hret, TcpSocket.sendRet] at hs
    split at hs
    · cases hs
    · rename_i hle
      rcases Nat.eq_zero_or_pos n with rfl | hn
      · simp only [hlen, if_true, List.take_zero, List.append_nil, Bool.false_eq_true,
          if_false] at hs
        exact .inr (.inl (Except.ok.inj hs).symm)
      · rw [if_neg (by omega)] at hs
        split at hs
        · rename_i hall
          have htake : ((q.bufs i).data.drop p).take n = (q.bufs i).data.drop p :=
            List.take_of_length_le (by
              rw [List.length_drop]
              simp only [BufferRef.size] at hall
              omega)
          rw [if_neg (by omega), htake] at hs
          refine .inr (.inr (.inr ?_))
          revert hs
          generalize TcpIo.done _ i a.meanwhile = r
          cases r with
          | error e => intro hs; cases hs
          | ok u => exact fun hs => ⟨u, rfl, hs⟩
        · rename_i hnot
          have hlt : n < (q.bufs i).size - p :=
            Nat.lt_of_le_of_ne (Nat.not_lt.mp hle) hnot
          rw [if_pos hlt] at hs
          exact .inr (.inr (.inl ⟨n, hn, hlt, hs⟩))

/-! ## Every step keeps the invariant -/

theorem inv_l1send {answers : List Reply} (h : Inv s) (hs : s.l1send answers = .ok t) : Inv t := by
  induction answers generalizing s with
  | nil =>
    cases hs
    exact h
  | cons a as ih =>
    by_cases htx : s.tx = none
    · rw [l1send, htx] at hs
      cases hs
      exact h
    by_cases hout : s.sk.epollout = true
    · obtain ⟨⟨i, p⟩, htx⟩ := Option.ne_none_iff_exists'.mp htx
      obtain ⟨hopen, hcur⟩ := h.sending htx
      have hp : p < (s.q.bufs i).size := hcur.short _ rfl
      rcases l1send_cases htx hp hout hs with ⟨_, he⟩ | rfl | ⟨n, hn, hlt, hs⟩ | ⟨u, hd, hs⟩
      · exact inv_error (inv_flags h s.sk.epollin false) he
      · exact inv_flags h s.sk.epollin false
      · refine ih ?_ hs
        simp only [BufferRef.size] at hlt
        refine ⟨?_, fun _ => hcur.more (by omega), fun hc => ?_, h.past⟩
        · exact ⟨h.holds.shape, h.holds.iusing.trans (by rw [htx]; rfl)⟩
        · exact absurd hc (by simp [hopen])
      · obtain ⟨q', hq, rfl⟩ := done_spec (htx ▸ h.holds) hd
        have hdone := hcur.finish
        refine ih ?_ hs
        refine ⟨hq, fun _ => ⟨hdone.taken, hdone.wire, hdone.short⟩, fun hc => ?_, h.past⟩
        exact absurd hc (by simp [hopen])
    · rw [l1send] at hs
      cases htx : s.tx with
      | none => rw [htx] at hs; cases hs; exact h
      | some x =>
        simp only [htx, hout] at hs
        cases hs
        exact h

theorem inv_takeNext (h : Inv s) (ho : s.sk.isOpen = true) (hs : s.takeNext = .ok t) : Inv t := by
  unfold takeNext at hs
  cases htx : s.tx with
  | some x =>
    rw [htx] at hs
    cases hs
    exact h
  | none =>
    rw [htx] at hs
    have hcur : Carried s.conn s.conn.done none := by simpa [current, htx] using h.opened ho
    cases hw : s.q.wait with
    | error e => rw [hw] at hs; cases hs
    | ok q =>
      have hshape : Shape q := shape_step h.holds.shape (show exec s.q .wait = .ok q from hw)
      rw [hw] at hs
      cases hu : q.iusing with
      | none =>
        simp only [inner_ok, bind, Except.bind, hu, pure, Except.pure] at hs
        cases hs
        exact ⟨⟨hshape, hu⟩, fun _ => hcur, fun hc => absurd hc (by simp [ho]), h.past⟩
      | some i =>
        simp only [inner_ok, bind, Except.bind, hu, pure, Except.pure] at hs
        cases hs
        have hholds : Holds q (some (i, 0)) := ⟨hshape, hu⟩
        refine ⟨hholds, fun _ => hcur.start hholds.nonempty, fun hc => ?_, h.past⟩
        exact absurd hc (by simp [ho])

theorem inv_prewait {answers : List Reply} (h : Inv s) (hs : s.prewait answers = .ok t) :
    Inv t := by
  unfold prewait at hs
  cases ho : s.sk.isOpen with
  | false =>
    rw [ho] at hs
    cases hs
    exact h
  | true =>
    rw [ho, if_pos rfl] at hs
    unfold trysendx at hs
    cases hn : s.takeNext with
    | error e => rw [hn] at hs; cases hs
    | ok u =>
      have hu := inv_takeNext h ho hn
      rw [hn] at hs
      by_cases htx : u.tx = none
      · simp only [bind, Except.bind, htx, if_true] at hs
        cases hs
        exact hu
      · simp only [bind, Except.bind, htx, if_false] at hs
        exact inv_l1send hu hs

theorem inv_l1recv {ops : List ProducerOp} {fails : Bool} (h : Inv s)
    (hs : s.l1recv ops fails = .ok t) : Inv t := by
  unfold TcpIo.l1recv at hs
  cases hp : produce s.q ops with
  | error e => rw [hp] at hs; cases hs
  | ok q =>
    have hq := inv_flags (inv_undisturbed h (undisturbed_produce h.holds.shape hp)) false s.sk.epollout
    rw [hp] at hs
    cases fails with
    | false =>
      cases hs
      exact hq
    | true => exact inv_error hq hs

theorem inv_onEvents {epollin epollout fails : Bool} {ops : List ProducerOp} {answers : List Reply}
    (h : Inv s) (hs : s.onEvents epollin epollout ops fails answers = .ok t) : Inv t := by
  unfold TcpIo.onEvents at hs
  have hflags := inv_flags h epollin epollout
  have hsend : ∀ {u : TcpIo N}, Inv u →
      (if u.sk.epollout then u.l1send answers else .ok u) = .ok t → Inv t := by
    intro u hu hs
    split at hs
    · exact inv_l1send hu hs
    · cases hs
      exact hu
  cases epollin with
  | false => exact hsend hflags hs
  | true =>
    simp only [if_true] at hs
    cases hr : TcpIo.l1recv { s with sk := ⟨s.sk.isOpen, true, epollout⟩ } ops fails with
    | error e => rw [hr] at hs; cases hs
    | ok u =>
      rw [hr] at hs
      exact hsend (inv_l1recv hflags hr) hs

theorem new_carried : Carried .new Connection.new.done none :=
  ⟨rfl, rfl, fun _ hr => nomatch hr⟩

/-- Connections are accepted only while no buffer is being sent. -/
structure Between (s : TcpIo N) : Prop where
  inv : Inv s
  tx : s.tx = none
  ended : Exact s.conn false

theorem between_accept (h : Between s) : Between (accept s) := by
  refine ⟨⟨h.inv.holds, fun _ => ?_, fun ho => (by cases ho), fun c hc => ?_⟩, h.tx,
    new_carried.exact false⟩
  · have hcur : current (accept s) = none := by simp [current, accept, h.tx]
    rw [hcur]
    exact new_carried
  · rcases List.mem_append.mp hc with hc | hc
    · exact h.inv.past c hc
    · rw [List.mem_singleton.mp hc]
      exact h.ended

theorem between_iterate (n : Nat) (h : Between s) : Between (accept^[n] s) := by
  induction n with
  | zero => exact h
  | succ n ih =>
    rw [Function.iterate_succ_apply']
    exact between_accept ih

theorem inv_step {ev : Event} (h : Inv s) (hs : Step s ev t) : Inv t := by
  unfold Step at hs
  cases ev with
  | produce op =>
    change (do return { s with q := ← inner (exec s.q op.val) }) = Except.ok t at hs
    cases hx : exec s.q op.val with
    | error e => rw [hx] at hs; cases hs
    | ok q =>
      rw [hx] at hs
      cases hs
      exact inv_undisturbed h (undisturbed_exec h.holds.shape op hx)
  | prewait answers => exact inv_prewait h hs
  | onEvents epollin epollout ops fails answers => exact inv_onEvents h hs
  | lisk n =>
    cases hs
    unfold processLisk
    cases ho : s.sk.isOpen with
    | true => exact h
    | false =>
      obtain ⟨htx, hover⟩ := h.closed ho
      exact (between_iterate n ⟨h, htx, hover⟩).inv

theorem inv_run {hN : 0 < N} {capacity : Fin N → Nat} {client : Bool} {evs : List Event}
    (hrun : Run Step (TcpIo.init hN capacity client) evs s) : Inv s :=
  hrun.invariant (fun _ _ _ hi hs => inv_step hi hs) (inv_init hN capacity client)

/-! ## The main result -/

theorem l1send_idle (htx : s.tx = none) (answers : List Reply) : s.l1send answers = .ok s := by
  cases answers with
  | nil => rfl
  | cons a as => rw [l1send, htx]

theorem l1send_off (hout : s.sk.epollout = false) (answers : List Reply) :
    s.l1send answers = .ok s := by
  cases answers with
  | nil => rfl
  | cons a as =>
    rw [l1send]
    cases s.tx with
    | none => rfl
    | some x => simp [hout]

theorem l1send_again {i : Fin N} {p : Nat} (htx : s.tx = some (i, p)) (hout : s.sk.epollout = true)
    (meanwhile : List ProducerOp) (answers : List Reply) :
    s.l1send (⟨.again, meanwhile⟩ :: answers) =
      .ok { s with sk := { s.sk with epollout := false } } := by
  obtain ⟨q, sk, tx, conn, past⟩ := s
  simp only at htx hout
  subst htx
  simp [l1send, hout, TcpSocket.sendRet]

/-- The kernel takes no more than it is given, and the producer does not exit. -/
def Answered (s : TcpIo N) (a : Reply) : Prop :=
  (∀ n, a.ret = .count n → ∀ x ∈ current s, n ≤ x.1.length - x.2) ∧
    ∃ q, produce s.q a.meanwhile = .ok q

theorem error_ok {meanwhile : List ProducerOp} {q : CycleBufferQueue N} (h : Holds s.q s.tx)
    (hp : produce s.q meanwhile = .ok q) : ∃ t, s.error meanwhile = .ok t := by
  obtain ⟨q0, sk, tx, conn, past⟩ := s
  cases tx with
  | none => exact ⟨_, rfl⟩
  | some x =>
    obtain ⟨t, ht, _⟩ := done_ok
      (s := ⟨q0, if sk.isOpen then ⟨false, false, false⟩ else sk, some x, conn, past⟩) h hp
    exact ⟨t, ht⟩

/-- No send with such an answer ends the process. -/
theorem l1send_ok {a : Reply} (h : Inv s) (ha : Answered s a) (answers : List Reply) :
    ∃ t, s.l1send (a :: answers) = .ok t := by
  by_cases hout : s.sk.epollout = true
  swap
  · exact ⟨s, l1send_off (by simpa using hout) _⟩
  obtain ⟨q, sk, tx, conn, past⟩ := s
  cases tx with
  | none => exact ⟨_, l1send_idle rfl _⟩
  | some x =>
    obtain ⟨i, p⟩ := x
    obtain ⟨hcount, q', hp⟩ := ha
    simp only at hout
    have hlt : p < (q.bufs i).size := (h.sending rfl).2.short _ rfl
    rw [l1send]
    simp only [hout, if_true]
    cases hret : a.ret with
    | error =>
      simp only [TcpSocket.sendRet]
      exact error_ok (s := ⟨q, { sk with epollout := false }, some (i, p), conn, past⟩) h.holds hp
    | again =>
      simp only [TcpSocket.sendRet]
      exact ⟨_, rfl⟩
    | count n =>
      have hle : n ≤ (q.bufs i).size - p := hcount n hret _ rfl
      simp only [TcpSocket.sendRet]
      rw [if_neg (Nat.not_lt.mpr hle)]
      rcases Nat.eq_zero_or_pos n with rfl | hn
      · have hpos : 0 < (q.bufs i).size - p := by omega
        simp only [if_true, hpos, Bool.false_eq_true, if_false]
        exact ⟨_, rfl⟩
      · rw [if_neg (by omega)]
        by_cases hall : n = (q.bufs i).size - p
        · have hd : ∀ sk' conn', ∃ t, TcpIo.done ⟨q, sk', some (i, p), conn', past⟩ i a.meanwhile =
              .ok t ∧ t.tx = none := fun _ _ => done_ok h.holds hp
          rw [if_pos hall]
          obtain ⟨u, hu, hidle⟩ := hd _ _
          rw [hu]
          exact ⟨u, l1send_idle hidle _⟩
        · rw [if_neg hall, if_pos (by omega)]
          exact ⟨_, l1send_off rfl _⟩

/-- A send of `n` bytes puts the next `n` bytes of the buffer on the wire. -/
theorem l1send_count {i : Fin N} {p n : Nat} {meanwhile : List ProducerOp} (h : Inv s)
    (htx : s.tx = some (i, p)) (hout : s.sk.epollout = true) (hn : n ≤ (s.q.bufs i).size - p)
    (hs : s.l1send [⟨.count n, meanwhile⟩] = .ok t) :
    t.conn.wire = s.conn.wire ++ ((s.q.bufs i).data.drop p).take n := by
  have hp : p < (s.q.bufs i).size := (h.sending htx).2.short _ rfl
  obtain ⟨q, ⟨isOpen, epollin, epollout⟩, tx, conn, past⟩ := s
  simp only at htx hout hp hn
  subst htx hout
  rw [l1send] at hs
  simp only [if_true, TcpSocket.sendRet] at hs
  rw [if_neg (Nat.not_lt.mpr hn)] at hs
  rcases Nat.eq_zero_or_pos n with rfl | hpos
  · have hlen : 0 < (q.bufs i).size - p := by omega
    simp only [hlen, if_true, Bool.false_eq_true, if_false] at hs
    obtain rfl := (Except.ok.inj hs).symm
    rfl
  rw [if_neg (by omega)] at hs
  by_cases hall : n = (q.bufs i).size - p
  · rw [if_pos hall, if_neg (by omega)] at hs
    cases hd : TcpIo.done ⟨q, ⟨isOpen, epollin, true⟩, some (i, p),
        { conn with wire := conn.wire ++ ((q.bufs i).data.drop p).take n }, past⟩ i meanwhile with
    | error e =>
      rw [hd] at hs
      cases hs
    | ok u =>
      rw [hd] at hs
      have hholds : Holds q (some (i, p)) := h.holds
      obtain ⟨_, _, rfl⟩ := done_spec
        (s := ⟨q, ⟨isOpen, epollin, true⟩, some (i, p),
          { conn with wire := conn.wire ++ ((q.bufs i).data.drop p).take n }, past⟩) hholds hd
      obtain rfl := (Except.ok.inj hs).symm
      rfl
  · rw [if_neg hall] at hs
    obtain rfl := (Except.ok.inj hs).symm
    rfl

/-- After every run, what is on the wire of this connection and of each before it is
the buffers taken, one after the other. A send puts as many bytes on the wire as the
kernel has taken; one that would block changes the flag, and no other send within its
length ends the process. -/
theorem tcp_send {hN : 0 < N} {capacity : Fin N → Nat} {client : Bool} {evs : List TcpIo.Event}
    (hrun : Run TcpIo.Step (TcpIo.init hN capacity client) evs s) :
    Exact s.conn s.sk.isOpen ∧ (∀ c ∈ s.past, Exact c false) ∧
    (∀ i p meanwhile answers, s.tx = some (i, p) → s.sk.epollout = true →
      s.l1send (⟨.again, meanwhile⟩ :: answers) =
        .ok { s with sk := { s.sk with epollout := false } }) ∧
    (∀ i p n meanwhile t, s.tx = some (i, p) → s.sk.epollout = true → n ≤ (s.q.bufs i).size - p →
      s.l1send [⟨.count n, meanwhile⟩] = .ok t →
      t.conn.wire = s.conn.wire ++ ((s.q.bufs i).data.drop p).take n) ∧
    ∀ a answers, Answered s a → ∃ t, s.l1send (a :: answers) = .ok t := by
  have h := inv_run hrun
  refine ⟨h.exact, h.past, ?_, ?_, fun a answers ha => l1send_ok h ha answers⟩
  · exact fun i p meanwhile answers htx hout => l1send_again htx hout meanwhile answers
  · exact fun i p n meanwhile t htx hout hn hs => l1send_count h htx hout hn hs

/-- Two messages: the first in two parts, the second cut short by an error; then
another connection. -/
def cutShort : List TcpIo.Event :=
  [.produce ⟨.alloc 4, rfl⟩, .produce ⟨.fill [1, 2, 3], rfl⟩, .produce ⟨.doneAlloc, rfl⟩,
    .lisk 1, .onEvents false true [] false [], .prewait [⟨.count 1, []⟩],
    .onEvents false true [] false
      [⟨.count 2, [⟨.alloc 4, rfl⟩, ⟨.fill [4, 5], rfl⟩, ⟨.doneAlloc, rfl⟩]⟩],
    .prewait [⟨.again, []⟩], .onEvents false true [] false [⟨.count 1, []⟩],
    .onEvents false true [] false [⟨.error, []⟩], .lisk 1]

def server : TcpIo 2 := .init Nat.two_pos (fun _ => 8) false

theorem tcp_send_cutShort : ∃ s, Run TcpIo.Step server cutShort s ∧
    s.past.map (fun c => (c.wire, c.done)) = [([], []), ([1, 2, 3, 4], [[1, 2, 3], [4, 5]])] ∧
    Exact s.conn s.sk.isOpen ∧ ∀ c ∈ s.past, Exact c false := by
  have heval : (cutShort.foldlM next server).toOption.map
      (fun s => s.past.map (fun c => (c.wire, c.done))) =
        some [([], []), ([1, 2, 3, 4], [[1, 2, 3], [4, 5]])] := by rfl
  cases hs : cutShort.foldlM next server with
  | error e => rw [hs] at heval; cases heval
  | ok s =>
    rw [hs] at heval
    have hrun : Run TcpIo.Step server cutShort s := Run.of_foldlM hs
    have hsafe := tcp_send hrun
    exact ⟨s, hrun, Option.some.inj heval, hsafe.1, hsafe.2.1⟩

end CppSnippets.Epoll.TcpSend
